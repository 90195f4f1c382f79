import LamaRv.Compiler.CallExec
import Mathlib.Data.List.Rotate

/-!
# Passing arguments

The calling convention has the first eight parameters in `a0`, …, `a7` and the others in the words
above `sp`.  A call pops the argument registers first and stores what is left, so with more
parameters than registers it is the last operands that come first.  A compiled function reads
parameter `8 + j` at the byte `j` above its frame.

* `param`: the parameters of a function, by the calling convention;
* `CallEntry.params`: what the parameters of a call are;
* `arguments_agree_iff`: when they are the operands, in the called function too.
-/

namespace LamaRv

open ByteMemory Rv64 CodeBuffer Compiler

/-! ### Parameters -/

/-- Parameter `k` of a function, in the state in which it is called. -/
def param (s : State) (k : ℕ) : Word :=
  if k < 8 then s.get (argReg k)
  else s.load (s.get Register.sp + BitVec.ofNat 64 (8 * (k - 8)))

/-- `va_arg` number `k` in a function with one named parameter. -/
def vaArg (s : State) (k : ℕ) : Word := param s (k + 1)

/-- The operands at the top of a symbolic stack of height `top`, in register slots. -/
def Operands (top : ℕ) (v : List Word) (s : State) : Prop :=
  ∀ j < v.length, s.get (slotReg (top - v.length + j)) = v.getD j 0

section

variable {st : SymbolicStack} {opt : Option ℤ} {alignment : Bool} {s t : State} {v : List Word}

/-- The register arguments are the last operands. -/
theorem CallEntry.regs_args (h : CallEntry st v.length opt alignment s t) (hst : st.top ≤ 15)
    (hv : v.length ≤ st.top) (hs : Operands st.top v s) {i : ℕ}
    (hi : i < min v.length (8 - opt.toList.length)) :
    t.get (argReg (opt.toList.length + i)) =
      v.getD (v.length + opt.toList.length - 8 + i) 0 := by
  have hopt : opt.toList.length ≤ 1 := by cases opt <;> simp
  rw [h.args hst i hi, ← hs _ (by omega)]
  congr 2
  omega

/-- The outgoing words are the first operands. -/
theorem CallEntry.outgoing (h : CallEntry st v.length opt alignment s t) (hst : st.top ≤ 15)
    (hv : v.length ≤ st.top) (hs : Operands st.top v s) {j : ℕ}
    (hj : j < v.length + opt.toList.length - 8) :
    t.load (t.get Register.sp + BitVec.ofNat 64 (8 * j)) = v.getD j 0 := by
  have hopt : opt.toList.length ≤ 1 := by cases opt <;> simp
  obtain ⟨vs, hlen, hmem, hvs⟩ := h.mem
  have hfrom : t.get Register.sp + BitVec.ofNat 64 (8 * j) =
      below (below (saveBase s st.spilledCount) (16 + (if alignment then 1 else 0)))
        (v.length + opt.toList.length - 8 - j - 1 + 1) := by
    rw [h.sp, below_add _ (by omega), below_below]
    congr 1
    omega
  have hpush := State.load_pushes ((savedState s st.spilledCount).set Register.sp
    (below (saveBase s st.spilledCount) (16 + (if alignment then 1 else 0)))) vs (by omega)
    (j := v.length + opt.toList.length - 8 - j - 1) (by omega)
  rw [get_spReg_set_sp] at hpush
  rw [hfrom, State.load, hmem]
  refine hpush.trans ?_
  have hget : vs[v.length + opt.toList.length - 8 - j - 1]? =
      some (s.get (slotReg (st.top - v.length + j))) := by
    rw [hvs hst, List.getElem?_map, List.getElem?_range (by omega), Option.map_some]
    congr 3
    omega
  rw [← hs j (by omega)]
  exact Option.some.inj ((List.getElem?_eq_getElem _).symm.trans hget)

/-- The parameters of a call after the extra one: the operands, rotated by as many places as
there are outgoing words. -/
theorem CallEntry.params (h : CallEntry st v.length opt alignment s t) (hst : st.top ≤ 15)
    (hv : v.length ≤ st.top) (hs : Operands st.top v s) :
    (List.range v.length).map (fun k => param t (opt.toList.length + k)) =
      v.rotate (v.length + opt.toList.length - 8) := by
  have hopt : opt.toList.length ≤ 1 := by cases opt <;> simp
  rw [List.rotate_eq_drop_append_take (by omega)]
  refine List.ext_getElem (by simp; omega) fun k hk hk' => ?_
  rw [List.length_map, List.length_range] at hk
  rw [List.getElem_map, List.getElem_range, List.getElem_append]
  unfold param
  by_cases hreg : opt.toList.length + k < 8
  · rw [if_pos hreg, h.regs_args hst hv hs (by omega), dif_pos (by rw [List.length_drop]; omega),
      List.getElem_drop, List.getD_eq_getElem?_getD, List.getElem?_eq_getElem, Option.getD_some]
  · rw [if_neg hreg, h.outgoing hst hv hs (by omega), dif_neg (by rw [List.length_drop]; omega),
      List.getElem_take, List.getD_eq_getElem?_getD, List.getElem?_eq_getElem, Option.getD_some]
    · congr 1
      rw [List.length_drop]
      omega
    · omega

end

/-! ### The called function -/

/-- `u` is a state in the body of the function that was called in the state `t`: the frame is at
the `sp` of the call, the argument registers and the outgoing words are those of the call. -/
structure InBody (outgoing : ℕ) (t u : State) : Prop where
  fp : u.get Register.fp = t.get Register.sp
  args : ∀ r ∈ Register.args, u.get r = t.get r
  words : ∀ b < 8 * outgoing,
    u.mem (t.get Register.sp + BitVec.ofNat 64 b) = t.mem (t.get Register.sp + BitVec.ofNat 64 b)

variable (sym : String → Word)

theorem prologue_eq (locc : ℕ) : prologue locc =
    ((Register.saved.zipIdx 1).map fun p => (p.1, toInt (-(p.2 + locc) * wordSize))).map
      (fun p => .op (.sd p.1 Register.sp p.2)) ++
    (emitMv Register.fp Register.sp ++ emitAddi Register.sp Register.sp (-(locc + 12) * wordSize)) := by
  unfold prologue
  rw [List.append_assoc, List.map_map]
  rfl

/-- The prologue leads into the body. -/
theorem exec_prologue {locc outgoing : ℕ} (hlocc : locc + 12 < 2 ^ 28) (hout : outgoing < 2 ^ 28)
    (t : State) : InBody outgoing t (execLines sym (prologue locc) t) := by
  rw [prologue_eq, execLines_append]
  obtain ⟨u, hu⟩ : ∃ u, execLines sym (((Register.saved.zipIdx 1).map fun p =>
    (p.1, toInt (-(p.2 + locc) * wordSize))).map fun p => .op (.sd p.1 Register.sp p.2)) t = u :=
    ⟨_, rfl⟩
  have hget : ∀ r, u.get r = t.get r := by
    intro r
    rw [← hu]
    exact get_exec_stores sym _ _ t r
  rw [hu]
  simp only [emitMv, emitAddi, emitIType, execLines_append, execLines_cons, execLines_nil,
    Line.exec_op, Op.exec, IType.eval]
  refine ⟨?_, fun r hr => ?_, fun b hb => ?_⟩
  · rw [State.get_set_of_ne _ _ (by decide), State.get_set_self _ _ (by decide), hget,
      toInt_of_mem (by omega) (by omega)]
    exact BitVec.add_zero _
  · obtain ⟨h1, h2⟩ : r ≠ Register.sp ∧ r ≠ Register.fp := by
      revert r
      decide
    rw [State.get_set_of_ne _ _ h1, State.get_set_of_ne _ _ h2, hget]
  · rw [State.mem_set, State.mem_set, ← hu]
    refine mem_exec_stores sym _ _ t fun p hp => ?_
    obtain ⟨q, hq, rfl⟩ := List.mem_map.1 hp
    have hi : q.2 < 13 := by simpa [Register.saved] using List.snd_lt_of_mem_zipIdx hq
    have hpos : 1 ≤ q.2 := List.le_snd_of_mem_zipIdx hq
    dsimp only
    rw [show -((q.2 : ℤ) + locc) = -((q.2 + locc : ℕ) : ℤ) by push_cast; rfl,
      add_toInt_neg _ (by omega), ← below_zero (t.get Register.sp), below_below, Nat.zero_add,
      below_byte_sub _ _ (by omega), BitVec.toNat_ofNat]
    omega

/-- `LD A(k)` in a register slot: an argument register, or the word at byte `k - 8` of the
outgoing ones. -/
theorem exec_loadArg {d d' : Compiler} {k n : ℕ} {t u : State} (hk : k < n) (hn : n ≤ 15)
    (htop : d.st.top < 15) (h : d.emitLoad ⟨.arg, k⟩ = .ok d') (hu : InBody (n - 8) t u) :
    ∃ T, d'.cb = d.cb ++ T ∧ (SymbolicStack.loc d.st.top).value (execLines sym T u) =
      if k < 8 then t.get (argReg k)
      else t.load (t.get Register.sp + BitVec.ofNat 64 (k - 8)) := by
  have hsize : toSizeT k = k := toSizeT_natCast (by omega)
  have hne : slotReg d.st.top ≠ 0 := (regs_avoid _ (slotReg_mem htop)).1
  unfold emitLoad at h
  simp only [bind_ok, check_ok, SymbolicStack.alloc, loc_of_lt htop, hsize] at h
  obtain ⟨f, -, -, -, h⟩ := h
  rw [loc_of_lt htop]
  split_ifs at h ⊢ with h8 h8' h8'
  · simp only [bind_ok, return_ok] at h
    obtain ⟨r, hr, rfl⟩ := h
    obtain ⟨hlt, rfl⟩ := arg_ok hr
    refine ⟨_, rfl, ?_⟩
    rw [exec_symbEmitMvFromReg, Loc.value, State.get_set_self _ _ hne]
    exact hu.args _ (argReg_mem hlt)
  · omega
  · omega
  · rw [return_ok] at h
    obtain rfl := h
    refine ⟨_, rfl, ?_⟩
    rw [exec_symbEmitLd, Loc.value, State.get_set_self _ _ hne, hu.fp,
      toInt_of_mem (by omega) (by omega), show ((k : ℤ) - 8) = ((k - 8 : ℕ) : ℤ) by omega,
      BitVec.ofInt_natCast]
    refine load_congr fun j hj => ?_
    rw [BitVec.add_assoc, ← BitVec.ofNat_add]
    exact hu.words _ (by omega)

/-- A function can begin with a load of any of its arguments. -/
theorem exists_loadArg (c : Compiler) {k n : ℕ} (hk : k < n) (hn : n ≤ 15) (h8 : 8 ≤ k) :
    ∃ d d' : Compiler, d.st.top = 0 ∧ d.emitLoad ⟨.arg, k⟩ = .ok d' := by
  have hsize : toSizeT k = k := toSizeT_natCast (by omega)
  have h8' : ¬ (k : ℤ) < 8 := by omega
  refine ⟨{ c with currentFrame := some ⟨"f", 0, n⟩, st := ⟨0⟩ }, finish
    { c with currentFrame := some ⟨"f", 0, n⟩, st := ⟨0⟩ } ⟨1⟩ (symbEmitLd (.register 9)
      (.register Register.fp) (toSizeT k - 8)), rfl, ?_⟩
  simp only [emitLoad, Compiler.frame, bind_ok, check_ok, hsize, if_neg h8', return_ok]
  exact ⟨_, rfl, (), hk, rfl⟩

/-! ### Agreement -/

/-- The function called in the state `t` gets the operands `v` as its parameters after the extra
one; a compiled function, which has no extra one, reads them with `LD`, and a runtime function
with a count before them reads them with `va_arg`. -/
structure ArgumentsAgree (opt : Option ℤ) (v : List Word) (t : State) : Prop where
  extra : ∀ imm ∈ opt, param t 0 = BitVec.ofInt 64 (toInt imm)
  params : ∀ k < v.length, param t (opt.toList.length + k) = v.getD k 0
  loads : opt = none → ∀ (sym : String → Word) (u : State), InBody (v.length - 8) t u →
    ∀ (d d' : Compiler) (k : ℕ), k < v.length → d.st.top < 15 → d.emitLoad ⟨.arg, k⟩ = .ok d' →
      ∃ T, d'.cb = d.cb ++ T ∧
        (SymbolicStack.loc d.st.top).value (execLines sym T u) = v.getD k 0
  vaArgs : opt.isSome → ∀ k < v.length, vaArg t k = v.getD k 0

/-- The lines between two states of the compiler call a function with the operands `v` as its
arguments. -/
def PassesArguments (c c' : Compiler) (opt : Option ℤ) (v : List Word) : Prop :=
  ∃ before label after, c'.cb = c.cb ++ (before ++ Line.call label :: after) ∧
    (∀ l ∈ before, l.straight) ∧
    ∀ (sym : String → Word) (s : State), Operands c.st.top v s →
      ArgumentsAgree opt v (execLines sym before s)

/-- The word at byte `k - 8` of the operands is operand `k`, for every operand after the eighth. -/
def BytesAgree (v : List Word) : Prop :=
  ∀ k < v.length, 8 ≤ k → load (ofWords v) (BitVec.ofNat 64 (k - 8)) = v.getD k 0

/-- There are states with given operands. -/
theorem exists_operands {top : ℕ} (v : List Word) (hv : v.length ≤ top) (htop : top ≤ 15) :
    ∃ s, Operands top v s := by
  refine ⟨⟨fun r => v.getD (regs.idxOf r - (top - v.length)) 0, fun _ => 0⟩, fun j hj => ?_⟩
  have hindex : ∀ k < 15, regs.idxOf (slotReg k) = k ∧ slotReg k ≠ 0 := by decide
  obtain ⟨h1, h2⟩ := hindex (top - v.length + j) (by omega)
  rw [State.get_of_ne h2]
  dsimp only
  rw [h1, Nat.add_sub_cancel_left]

section

variable {c c' : Compiler} {callee : FunctionId} {opt : Option ℤ} {v : List Word}

/-- A call that passes its operands does not rotate them. -/
theorem PassesArguments.rotate (hpass : PassesArguments c c' opt v)
    (h : c.compileCall callee v.length opt = .ok c') (htop : c.st.top ≤ 15) :
    v.rotate (v.length + opt.toList.length - 8) = v := by
  obtain ⟨hv, f, before, label, after, -, -, htext, hstraight, hexec⟩ := compileCall_exec h
  obtain ⟨before', label', after', htext', hstraight', hagree⟩ := hpass
  rw [htext] at htext'
  obtain ⟨rfl, rfl⟩ := split_unique (List.append_cancel_left htext') hstraight hstraight'
  obtain ⟨s, hs⟩ := exists_operands v hv htop
  rw [← (hexec (fun _ => 0) s).1.params htop hv hs]
  refine List.ext_getElem (by simp) fun k hk hk' => ?_
  rw [List.getElem_map, List.getElem_range, (hagree (fun _ => 0) s hs).params k hk',
    List.getD_eq_getElem?_getD, List.getElem?_eq_getElem hk', Option.getD_some]

/-- A call of a compiled function that reads its operands. -/
theorem PassesArguments.bytes (hpass : PassesArguments c c' none v)
    (h : c.compileCall callee v.length none = .ok c') (htop : c.st.top ≤ 15) : BytesAgree v := by
  obtain ⟨hv, f, before, label, after, -, -, htext, hstraight, hexec⟩ := compileCall_exec h
  obtain ⟨before', label', after', htext', hstraight', hagree⟩ := hpass
  rw [htext] at htext'
  obtain ⟨rfl, rfl⟩ := split_unique (List.append_cancel_left htext') hstraight hstraight'
  obtain ⟨s, hs⟩ := exists_operands v hv htop
  obtain ⟨t, ht⟩ : ∃ t, execLines (fun _ => 0) before s = t := ⟨_, rfl⟩
  have hentry := (hexec (fun _ => 0) s).1
  have hloads := (hagree (fun _ => 0) s hs).loads rfl
  rw [ht] at hentry hloads
  intro k hk h8
  obtain ⟨d, d', hd, hd'⟩ := exists_loadArg c hk (by omega) h8
  have hbody := @exec_prologue (fun _ => 0) 0 (v.length - 8)  (by omega)
    (by omega) t
  obtain ⟨T, hT, hval⟩ := hloads (fun _ => 0) _ hbody _ _ k hk (by omega) hd'
  obtain ⟨T', hT', hval'⟩ := exec_loadArg (fun _ => 0) hk (by omega) (by omega) hd' hbody
  rw [List.append_cancel_left (hT.symm.trans hT'), hval', if_neg (by omega)] at hval
  rw [← hval]
  refine (load_eq_ofWords (n := v.length - 8) (by omega) (fun j hj => ?_) (by omega)).symm
  exact hentry.outgoing htop hv hs (by simpa using hj)

/-- A call passes its operands, and the called function reads them, exactly when they are not
changed by a rotation by as many places as there are outgoing words and, in a compiled function,
have the right bytes. -/
theorem passesArguments_iff (h : c.compileCall callee v.length opt = .ok c')
    (htop : c.st.top ≤ 15) : PassesArguments c c' opt v ↔
      v.rotate (v.length + opt.toList.length - 8) = v ∧ (opt = none → BytesAgree v) := by
  constructor
  · intro hpass
    refine ⟨hpass.rotate h htop, ?_⟩
    rintro rfl
    exact hpass.bytes h htop
  · rintro ⟨hrot, hbytes⟩
    obtain ⟨hv, f, before, label, after, -, -, htext, hstraight, hexec⟩ := compileCall_exec h
    refine ⟨before, label, after, htext, hstraight, fun sym s hs => ?_⟩
    have hentry := (hexec sym s).1
    have hparams : ∀ k < v.length, param (execLines sym before s) (opt.toList.length + k) =
        v.getD k 0 := by
      intro k hk
      have hlist := hentry.params htop hv hs
      rw [hrot] at hlist
      have hget := congrArg (·.getD k 0) hlist
      simpa [List.getD_eq_getElem?_getD, List.getElem?_range hk] using hget
    refine ⟨hentry.extra, hparams, ?_, ?_⟩
    · rintro rfl sym' u hu d d' k hk hd hload
      obtain ⟨T, hT, hval⟩ := exec_loadArg sym' hk (by omega) hd hload hu
      refine ⟨T, hT, hval.trans ?_⟩
      have hparam := hparams k hk
      rw [Option.toList_none, List.length_nil, Nat.zero_add] at hparam
      unfold param at hparam
      split_ifs at hparam ⊢ with h8
      · exact hparam
      · refine Eq.trans ?_ (hbytes rfl k hk (by omega))
        refine load_eq_ofWords (n := v.length - 8) (by omega) (fun j hj => ?_) (by omega)
        exact hentry.outgoing htop hv hs (by simpa using hj)
    · intro hopt k hk
      have hone : opt.toList.length = 1 := by
        cases opt with
        | none => cases hopt
        | some _ => rfl
      rw [vaArg, ← hparams k hk, hone, Nat.add_comm]

end

/-- Two operands are passed in registers. -/
theorem passesArguments_iff_inFrame :
    ∃ c', (inFrame 2).compileCall (.inr 35) 2 = .ok c' ∧
      PassesArguments (inFrame 2) c' none [1, 3] :=
  ⟨_, rfl, (@passesArguments_iff (inFrame 2) _ (.inr 35) none [1, 3] rfl (by decide)).2
    ⟨rfl, fun _ k hk h8 => absurd (lt_of_le_of_lt h8 hk) (by decide)⟩⟩

/-- Of nine operands the first one becomes the last parameter. -/
theorem ninth_operand_first :
    ∃ c', (inFrame 9).compileCall (.inr 35) 9 = .ok c' ∧
      ¬ PassesArguments (inFrame 9) c' none [1, 3, 5, 7, 9, 11, 13, 15, 17] :=
  ⟨_, rfl, fun h => absurd
    (@PassesArguments.rotate (inFrame 9) _ (.inr 35) none [1, 3, 5, 7, 9, 11, 13, 15, 17] h rfl
      (by decide)) (by decide)⟩

end LamaRv
