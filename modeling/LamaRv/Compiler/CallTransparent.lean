import LamaRv.Compiler.CallExec

/-!
# What a call leaves alone

A call sequence saves what the function it calls may change and restores it afterwards.  This
works while the symbolic stack fits in registers before the call and its result goes to a
callee-saved register.  The temporaries are restored after the result has been moved, so a result
that goes to one of them is lost; a result that goes to a spilled word is not stored at all; and
`spilled_count` is read again after the arguments have been popped, so `sp` does not come back to
its place when spilled arguments were popped.

* `KeepsCaller`: what the called function promises;
* `Transparent`: what the call promises to the code around it;
* `call_transparent_iff`: the heights and numbers of arguments for which it holds.
-/

namespace LamaRv

open ByteMemory Rv64 CodeBuffer Compiler

/-- The called function gives back `sp`, the callee-saved registers, and the memory at or above
its `sp` except the `outgoing` argument words.  An address is above another one when it is less
than half of the address space away upwards. -/
structure KeepsCaller (outgoing : ℕ) (s s' : State) : Prop where
  sp : s'.get Register.sp = s.get Register.sp
  saved : ∀ r ∈ Register.saved, s'.get r = s.get r
  mem : ∀ b, (b - s.get Register.sp).toNat < 2 ^ 63 → 8 * outgoing ≤ (b - s.get Register.sp).toNat →
    s'.mem b = s.mem b

/-- From `s` to `s'` the registers that a call restores, and the `n` lower slots of the symbolic
stack, have kept their values, and slot `n` has the result. -/
structure Transparent (n : ℕ) (result : Word) (s s' : State) : Prop where
  regs : ∀ r ∈ [Register.sp, Register.fp, Register.ra, Register.gp] ++ Register.args,
    s'.get r = s.get r
  slots : ∀ j < n, (SymbolicStack.loc j).value s' = (SymbolicStack.loc j).value s
  result : (SymbolicStack.loc n).value s' = result

/-- The lines between two states of the compiler call a function, with `outgoing` argument words
and `n` slots below the arguments, and leave alone what a call has to. -/
def CallIsTransparent (c c' : Compiler) (outgoing n : ℕ) : Prop :=
  ∃ before label after, c'.cb = c.cb ++ (before ++ Line.call label :: after) ∧
    (∀ l ∈ before, l.straight) ∧
    ∀ (sym : String → Word) (s : State) (ret : Word) (s' : State),
      KeepsCaller outgoing ((execLines sym before s).set Register.ra ret) s' →
      Transparent n (s'.get 10) s (execLines sym after s')

/-! ### The save area -/

section

variable {st : SymbolicStack} {argc : ℕ} {opt : Option ℤ} {alignment : Bool} {s t : State}

/-- At the call the saved registers are below the base. -/
theorem CallEntry.load_saved (h : CallEntry st argc opt alignment s t)
    (hX : argc + opt.toList.length - 8 < 2 ^ 58) {j : ℕ} (hj : j < savedRegs.length) :
    t.load (below (saveBase s st.spilledCount) (j + 1)) = s.get savedRegs[j] := by
  obtain ⟨vs, hlen, hmem, -⟩ := h.mem
  have hj' : j < 16 := hj
  rw [State.load, hmem]
  refine (State.load_pushes_of_apart _ vs ?_).trans ?_
  · intro i hi
    rw [get_spReg_set_sp, below_below]
    exact below_apart _ (by split_ifs <;> omega) (by split_ifs <;> omega) (by omega)
  · rw [State.load_set]
    exact savedState_load s _ hj

/-- The called function keeps the save area. -/
theorem KeepsCaller.load_saved {u u' : State} {X pad : ℕ} {base : Word}
    (h : KeepsCaller X u u') (hsp : u.get Register.sp = below base (16 + pad + X))
    (hX : 16 + pad + X < 2 ^ 58) {j : ℕ} (hj : j < 16) :
    u'.load (below base (j + 1)) = u.load (below base (j + 1)) := by
  refine load_congr fun k hk => h.mem _ ?_ ?_
  · rw [hsp, below_byte_sub _ _ (by omega), BitVec.toNat_ofNat]
    omega
  · rw [hsp, below_byte_sub _ _ (by omega), BitVec.toNat_ofNat]
    omega

/-- Without spilled words `sp` comes back to the save area when the arguments are dropped. -/
theorem dropBase_eq {u : State} {total : ℕ} {base : Word} (htotal : total - 8 < 2 ^ 28)
    (hsp : u.get Register.sp = below base (16 + (if alignment then 1 else 0) + (total - 8))) :
    dropBase total alignment u = below base 16 := by
  have hdrop : below base (16 + (if alignment then 1 else 0) + (total - 8)) +
      (if total > 8 then BitVec.ofInt 64 (toInt ((total - 8 : ℕ) * wordSize)) else 0) =
      below base (16 + (if alignment then 1 else 0)) := by
    split_ifs with h1 h2 h2
    · rw [add_toInt _ htotal, below_add _ (by omega), Nat.add_sub_cancel]
    · rw [show total - 8 = 0 by omega]
      exact BitVec.add_zero _
    · rw [add_toInt _ htotal, below_add _ (by omega), Nat.add_sub_cancel]
    · rw [show total - 8 = 0 by omega]
      exact BitVec.add_zero _
  unfold dropBase
  rw [hsp, hdrop]
  cases alignment with
  | true => exact below_add base (k := 1) (j := 16 + 1) (by omega)
  | false => exact BitVec.add_zero _

/-- A call is transparent while the stack is in registers and the result goes to a callee-saved
one. -/
theorem transparent_of_le {n : ℕ} {ret : Word} {u v : State} (hst : st.top ≤ 15)
    (hargc : argc ≤ st.top) (hn : n = st.top - argc) (hn10 : n ≤ 10)
    (hentry : CallEntry st argc opt alignment s t)
    (hkeep : KeepsCaller (argc + opt.toList.length - 8) (t.set Register.ra ret) u)
    (hexit : CallExit (argc + opt.toList.length) alignment n (n + 1 - 15) u v) :
    Transparent n (u.get 10) s v := by
  have hopt : opt.toList.length ≤ 1 := by cases opt <;> simp
  have hbase : saveBase s st.spilledCount = s.get Register.sp := by
    rw [SymbolicStack.spilledCount_eq, show st.top - 15 = 0 by omega, saveBase,
      add_toInt_neg _ (by omega), below_zero]
  have htsp := hentry.sp
  rw [hbase] at htsp
  have htsp' : (t.set Register.ra ret).get Register.sp = below (s.get Register.sp)
      (16 + (if alignment then 1 else 0) + (argc + opt.toList.length - 8)) := by
    rw [State.get_set_of_ne _ _ (by decide), htsp]
  have hdrop : dropBase (argc + opt.toList.length) alignment u = below (s.get Register.sp) 16 :=
    dropBase_eq (by omega) (hkeep.sp.trans htsp')
  have hsaved : ∀ j r, savedRegs[j]? = some r →
      u.load (below (s.get Register.sp) (j + 1)) = s.get r := by
    intro j r hr
    obtain ⟨hj, rfl⟩ := List.getElem?_eq_some_iff.1 hr
    rw [hkeep.load_saved htsp' (by split_ifs <;> omega) hj, State.load_set, ← hbase]
    exact hentry.load_saved (by omega) hj
  have hup : below (s.get Register.sp) 16 + BitVec.ofNat 64 (8 * 16) = s.get Register.sp := by
    rw [below_add _ le_rfl, Nat.sub_self, below_zero]
  -- the callee-saved registers outside the call sequence
  have hkept : ∀ r ∈ Register.saved, r ∉ savedRegs → SymbolicStack.loc n ≠ .register r →
      v.get r = s.get r := by
    have hfar : ∀ r ∈ Register.saved, r ≠ Register.sp ∧ r ≠ Register.ra ∧ r ∉ Register.args ∧
        r ≠ Register.temp1 ∧ r ≠ Register.temp2 := by decide
    intro r hr hsave hres
    obtain ⟨h1, h2, h3, h4, h5⟩ := hfar r hr
    rw [hexit.other r hsave h1, if_neg hres, hkeep.saved r hr, State.get_set_of_ne _ _ h2,
      hentry.other r h3 h1 h4 h5]
  have hloc : SymbolicStack.loc n = .register (slotReg n) := loc_of_lt (by omega)
  have hslot : ∀ k ≤ 10, slotReg k ∈ Register.saved ∧ slotReg k ∉ savedRegs ∧
      slotReg k ≠ Register.sp ∧ slotReg k ≠ Register.fp := by decide
  refine ⟨?_, ?_, ?_⟩
  · intro r hr
    rcases List.mem_append.1 hr with hr | hr
    · simp only [List.mem_cons, List.not_mem_nil, or_false] at hr
      rcases hr with rfl | rfl | rfl | rfl
      · rw [hexit.sp, hdrop, hup, show n + 1 - 15 = 0 by omega, add_toInt _ (by omega)]
        exact BitVec.add_zero _
      · refine hkept _ (by decide) (by decide) fun h => (hslot n hn10).2.2.2 ?_
        rw [hloc] at h
        exact Loc.register.inj h
      · rw [hexit.ra, hdrop, hup]
        exact hsaved 0 _ rfl
      · have := hexit.temps 0 (by decide)
        rw [hdrop, hup] at this
        exact this.trans (hsaved 1 _ rfl)
    · have hindex : ∀ r ∈ Register.args, ∃ i < 8, r = argReg (7 - i) ∧
          savedRegs[15 - i]? = some r := by decide
      obtain ⟨i, hi, hri, hget⟩ := hindex r hr
      have hload := hexit.args i hi
      rw [hdrop, below_add _ (by omega), ← hri, show 16 - i = 15 - i + 1 by omega] at hload
      exact hload.trans (hsaved _ _ hget)
  · intro j hj
    rw [loc_of_lt (by omega)]
    obtain ⟨h1, h2, -⟩ := hslot j (by omega)
    refine hkept _ h1 h2 fun h => ?_
    rw [hloc] at h
    exact absurd (slotReg_inj (by omega) (by omega) (Loc.register.inj h)) (by omega)
  · obtain ⟨-, h2, h3, -⟩ := hslot n hn10
    have := hexit.other _ h2 h3
    rw [if_pos hloc] at this
    rw [hloc]
    exact this

/-! ### Where calls go wrong -/

/-- A result that goes to a temporary or to a spilled word is lost: what the slot holds afterwards
depends on the memory and on `sp` only. -/
theorem result_lost {total n spilled : ℕ} {u u' v v' : State} (hn : 11 ≤ n)
    (h : CallExit total alignment n spilled u v) (h' : CallExit total alignment n spilled u' v')
    (hmem : u'.mem = u.mem) (hsp : u'.get Register.sp = u.get Register.sp) :
    (SymbolicStack.loc n).value v' = (SymbolicStack.loc n).value v := by
  have hload : ∀ a, u'.load a = u.load a := fun a => by rw [State.load, State.load, hmem]
  have hdrop : dropBase total alignment u' = dropBase total alignment u := by
    rw [dropBase, dropBase, hsp]
  by_cases hn15 : n < 15
  · have htemp : ∀ n < 15, 11 ≤ n → Register.temp[n - 10]? = some (slotReg n) := by decide
    obtain ⟨hi, hget⟩ := List.getElem?_eq_some_iff.1 (htemp n hn15 hn)
    rw [loc_of_lt hn15, Loc.value, Loc.value, ← hget, h.temps _ hi, h'.temps _ hi, hdrop, hload]
  · rw [loc_of_ge (by omega), Loc.value, Loc.value, h.sp, h'.sp, hdrop, State.load, State.load,
      h.mem, h'.mem, hmem]

/-- A result that is lost contradicts transparency: the called function can return any word. -/
theorem not_transparent_of_result {c c' : Compiler} {callee : FunctionId}
    (h : c.compileCall callee argc opt = .ok c') (hn : 11 ≤ c.st.top - argc) :
    ¬ CallIsTransparent c c' (argc + opt.toList.length - 8) (c.st.top - argc) := by
  rintro ⟨before', label', after', htext', hstraight', htrans⟩
  obtain ⟨-, f, before, label, after, -, -, htext, hstraight, hexec⟩ := compileCall_exec h
  rw [htext] at htext'
  obtain ⟨rfl, rfl⟩ := split_unique (List.append_cancel_left htext') hstraight hstraight'
  -- two returns that differ in the result only
  obtain ⟨t, ht⟩ : ∃ t, (execLines (fun _ => 0) before ⟨fun _ => 0, fun _ => 0⟩).set Register.ra 0 =
    t := ⟨_, rfl⟩
  have hreturn : ∀ w, KeepsCaller (argc + opt.toList.length - 8) t (t.set 10 w) := by
    intro w
    refine ⟨State.get_set_of_ne _ _ (by decide), fun r hr => ?_, fun b _ _ => by rw [State.mem_set]⟩
    have hfar : ∀ r ∈ Register.saved, r ≠ 10 := by decide
    exact State.get_set_of_ne _ _ (hfar r hr)
  have hresult : ∀ w, (SymbolicStack.loc (c.st.top - argc)).value
      (execLines (fun _ => 0) after (t.set 10 w)) = w := by
    intro w
    have := (htrans (fun _ => 0) ⟨fun _ => 0, fun _ => 0⟩ 0 (t.set 10 w) (by
      rw [ht]
      exact hreturn w)).result
    rwa [State.get_set_self _ _ (by decide)] at this
  have hsame := result_lost hn (hexec (fun _ => 0) (t.set 10 0)).2
    (hexec (fun _ => 0) (t.set 10 1)).2 (by rw [State.mem_set, State.mem_set])
    (by rw [State.get_set_of_ne _ _ (by decide), State.get_set_of_ne _ _ (by decide)])
  rw [hresult, hresult] at hsame
  exact absurd hsame (by decide)

/-- A multiple of the word size of the address space. -/
theorem emod_of_ofInt_eq_zero {x : ℤ} (h : BitVec.ofInt 64 x = 0) : x % 2 ^ 64 = 0 := by
  have h := congrArg BitVec.toNat h
  rw [BitVec.toNat_ofInt, show BitVec.toNat (0 : Word) = 0 from rfl] at h
  have := Int.emod_nonneg x (b := 2 ^ 64) (by decide)
  push_cast at h
  omega

/-- When spilled arguments are popped and the result goes to a register, `sp` does not come back
to its place. -/
theorem sp_lost {n : ℕ} {u v : State} (hst : 16 ≤ st.top) (hfit : st.top < 2 ^ 60)
    (hargc : argc ≤ st.top) (hn : n = st.top - argc) (hn10 : n ≤ 10)
    (h0 : s.get Register.sp = 0) (hentry : CallEntry st argc opt alignment s t)
    (hsp : u.get Register.sp = t.get Register.sp)
    (hexit : CallExit (argc + opt.toList.length) alignment n (n + 1 - 15) u v) :
    v.get Register.sp ≠ 0 := by
  have hopt : opt.toList.length ≤ 1 := by cases opt <;> simp
  obtain ⟨ha₁, ha₂, ka, hka⟩ := toInt_spec (-(st.top - 15 : ℕ) * wordSize)
  obtain ⟨hb₁, hb₂, kb, hkb⟩ := toInt_spec ((argc + opt.toList.length - 8 : ℕ) * wordSize)
  have hzero : toInt ((0 : ℕ) * wordSize) = 0 := by
    rw [Nat.cast_zero, zero_mul]
    exact toInt_of_mem (by omega) (by omega)
  have hdrop : (if argc + opt.toList.length > 8 then
        BitVec.ofInt 64 (toInt ((argc + opt.toList.length - 8 : ℕ) * wordSize)) else 0) =
      BitVec.ofInt 64 (toInt ((argc + opt.toList.length - 8 : ℕ) * wordSize)) := by
    split_ifs with h
    · rfl
    · rw [show argc + opt.toList.length - 8 = 0 by omega, hzero]
      rfl
  have hpad : (if alignment then (8 : Word) else 0) =
      BitVec.ofInt 64 (8 * (if alignment then 1 else 0 : ℕ)) := by
    cases alignment <;> rfl
  intro hv
  rw [hexit.sp, dropBase, hsp, hentry.sp, saveBase, h0, SymbolicStack.spilledCount_eq,
    show n + 1 - 15 = 0 by omega, hzero, below_eq_ofInt, hdrop, hpad,
    show BitVec.ofNat 64 (8 * 16) = BitVec.ofInt 64 128 from rfl, zero_add,
    ← BitVec.ofInt_add, ← BitVec.ofInt_add, ← BitVec.ofInt_add, ← BitVec.ofInt_add,
    ← BitVec.ofInt_add] at hv
  have hv := emod_of_ofInt_eq_zero hv
  unfold wordSize at *
  push_cast at hv
  omega

/-- A call that pops spilled arguments into a register result is not transparent. -/
theorem not_transparent_of_spilled {c c' : Compiler} {callee : FunctionId}
    (h : c.compileCall callee argc opt = .ok c') (htop : c.st.top < 2 ^ 60) (hst : 16 ≤ c.st.top)
    (hn : c.st.top - argc ≤ 10) :
    ¬ CallIsTransparent c c' (argc + opt.toList.length - 8) (c.st.top - argc) := by
  rintro ⟨before', label', after', htext', hstraight', htrans⟩
  obtain ⟨hargc, f, before, label, after, -, -, htext, hstraight, hexec⟩ := compileCall_exec h
  rw [htext] at htext'
  obtain ⟨rfl, rfl⟩ := split_unique (List.append_cancel_left htext') hstraight hstraight'
  -- a called function that returns at once
  have hkeep := htrans (fun _ => 0) ⟨fun _ => 0, fun _ => 0⟩ 0 _
    ⟨rfl, fun r _ => rfl, fun b _ _ => rfl⟩
  have hsp := hkeep.regs Register.sp (List.mem_append_left _ List.mem_cons_self)
  have hzero : (⟨fun _ => 0, fun _ => 0⟩ : State).get Register.sp = 0 := rfl
  refine sp_lost hst htop hargc rfl hn hzero (hexec (fun _ => 0) _).1
    (State.get_set_of_ne _ (0 : Word) (by decide : Register.sp ≠ Register.ra)) (hexec (fun _ => 0) _).2 ?_
  rw [hsp, hzero]

end

/-! ### The exact condition -/

/-- A call leaves alone what it has to exactly when the symbolic stack is in registers before it
and the result goes to a callee-saved register.  (`top` is an `int`.) -/
theorem call_transparent_iff {c c' : Compiler} {callee : FunctionId} {argc : ℕ} {opt : Option ℤ}
    (h : c.compileCall callee argc opt = .ok c') (htop : c.st.top < 2 ^ 31) :
    CallIsTransparent c c' (argc + opt.toList.length - 8) (c.st.top - argc) ↔
      c.st.top ≤ 15 ∧ c.st.top - argc ≤ 10 := by
  constructor
  · intro htrans
    have hn : c.st.top - argc ≤ 10 := by
      by_contra hn
      exact not_transparent_of_result h (by omega) htrans
    refine ⟨?_, hn⟩
    by_contra hst
    exact not_transparent_of_spilled h (by omega) (by omega) hn htrans
  · rintro ⟨hst, hn⟩
    obtain ⟨hargc, f, before, label, after, -, -, htext, hstraight, hexec⟩ := compileCall_exec h
    refine ⟨before, label, after, htext, hstraight, fun sym s ret u hkeep => ?_⟩
    exact transparent_of_le hst hargc rfl hn (hexec sym s).1 hkeep (hexec sym u).2

/-- A call with one argument leaves the other two slots alone. -/
theorem call_transparent_iff_inFrame :
    ∃ c', (inFrame 3).compileCall (.inl "Llength") 1 = .ok c' ∧
      CallIsTransparent (inFrame 3) c' 0 2 :=
  ⟨_, rfl, (@call_transparent_iff (inFrame 3) _ (.inl "Llength") 1 none rfl (by decide)).2
    (by decide)⟩

/-- The result of a call above eleven slots goes to `t1` and is lost when `t1` is restored. -/
theorem result_lost_in_temporary :
    ∃ c', (inFrame 11).compileCall (.inl "Lread") 0 = .ok c' ∧
      ¬ CallIsTransparent (inFrame 11) c' 0 11 :=
  ⟨_, rfl, @not_transparent_of_result 0 none (inFrame 11) _ (.inl "Lread") rfl (by decide)⟩

end LamaRv
