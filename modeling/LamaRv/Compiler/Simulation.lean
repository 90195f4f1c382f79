import LamaRv.Bytecode
import LamaRv.Compiler.BodyCode
import LamaRv.Compiler.Operators
import LamaRv.Compiler.Variables
import LamaRv.Lib.Simulations

/-!
# The code simulates the stack machine

Inside a function body whose operands fit in registers, each step of the stack machine is matched by
steps of the emitted text: the operands are in the slots of the symbolic stack, the globals, the locals
and the arguments where the code looks for them.

* `Matches`: a state of RV64 and the data of the stack machine;
* `Matches.execute`: the code of one instruction;
* `simulates_step`, `simulates_run`: steps and runs of the stack machine.
-/

namespace LamaRv

open ByteMemory Rv64 CodeBuffer Compiler TaggedInt Simulations

/-! ### States and data -/

/-- The state has the data where the code looks for them: the operands in the slots, and the first `k`
arguments in their registers.  The globals begin at `base`, the frame is at `frame`. -/
structure Matches (k : ℕ) (base frame : Word) (d : Data) (s : State) : Prop where
  height : d.stack.length ≤ 15
  stack : stackOf d.stack.length s = d.stack.map tagged
  gp : s.get Register.gp = base
  fp : s.get Register.fp = frame
  globals : ∀ (i : ℕ) v, d.globals[i]? = some v → s.load (base + BitVec.ofNat 64 (8 * i)) = tagged v
  locals : ∀ (i : ℕ) v, d.locals[i]? = some (some v) → s.load (below frame i) = tagged v
  args : ∀ i < k, ∀ v, d.args[i]? = some v → s.get (argReg i) = tagged v

/-- So many globals and locals, all in words of their own. -/
structure Areas (base frame : Word) (gc lc : ℕ) : Prop where
  globals : gc < 2 ^ 28
  locals : lc < 2 ^ 28
  apart : ∀ i < gc, ∀ j < lc, Apart (base + BitVec.ofNat 64 (8 * i)) (below frame j)

/-- The byte belongs to no global and to no local. -/
def OutOfAreas (base frame : Word) (gc lc : ℕ) (b : Word) : Prop :=
  (∀ i < gc, 8 ≤ (b - (base + BitVec.ofNat 64 (8 * i))).toNat) ∧
    ∀ j < lc, 8 ≤ (b - below frame j).toNat

/-- Neither `sp`, `ra` and the argument registers nor the rest of the memory are changed. -/
structure Spares (base frame : Word) (gc lc : ℕ) (s s' : State) : Prop where
  sp : s'.get Register.sp = s.get Register.sp
  ra : s'.get Register.ra = s.get Register.ra
  mem : ∀ b, OutOfAreas base frame gc lc b → s'.mem b = s.mem b

section Matches

variable {k gc lc : ℕ} {base frame : Word} {d d' : Data} {s s' : State} {v w : Int63}

theorem Spares.refl : Spares base frame gc lc s s := ⟨rfl, rfl, fun _ _ => rfl⟩

theorem Spares.trans {s'' : State} (h : Spares base frame gc lc s s')
    (h' : Spares base frame gc lc s' s'') : Spares base frame gc lc s s'' :=
  ⟨h'.sp.trans h.sp, h'.ra.trans h.ra, fun b hb => (h'.mem b hb).trans (h.mem b hb)⟩

theorem loc_read {n : ℕ} (h : n < 15) (s : State) :
    (SymbolicStack.loc n).read s = s.get (slotReg n) := by
  rw [loc_of_lt h, Loc.read]

/-- Only slots and temporaries have been written. -/
theorem Matches.restack (h : Matches k base frame d s) (hk : k ≤ 8) {stack : List Int63}
    (hmem : s'.mem = s.mem)
    (hregs : ∀ r, r ∉ regs → r ≠ Register.temp1 → r ≠ Register.temp2 → s'.get r = s.get r)
    (hheight : stack.length ≤ 15) (hstack : stackOf stack.length s' = stack.map tagged) :
    Matches k base frame { d with stack := stack } s' ∧ Spares base frame gc lc s s' := by
  have hload : ∀ a, s'.load a = s.load a := fun a => by rw [State.load, State.load, hmem]
  refine ⟨⟨hheight, hstack, ?_, ?_, fun i v hv => ?_, fun i v hv => ?_, fun i hi v hv => ?_⟩, ?_, ?_, ?_⟩
  · rw [hregs _ (by decide) (by decide) (by decide), h.gp]
  · rw [hregs _ (by decide) (by decide) (by decide), h.fp]
  · rw [hload, h.globals i v hv]
  · rw [hload, h.locals i v hv]
  · have hmem := argReg_mem (show i < 8 by omega)
    have hslot : argReg i ∉ regs := fun hr => (regs_avoid _ hr).2.2.2.2.2.2.2 hmem
    obtain ⟨-, -, ht1, ht2, -⟩ := args_avoid _ hmem
    rw [hregs _ hslot ht1 ht2, h.args i hi v hv]
  · exact hregs _ (by decide) (by decide) (by decide)
  · exact hregs _ (by decide) (by decide) (by decide)
  · exact fun b _ => congrFun hmem b

/-- Writing a slot leaves the slots below alone. -/
theorem stackOf_set {n j : ℕ} (hn : n ≤ j) (hj : j < 15) (x : Word) :
    stackOf n (s.set (slotReg j) x) = stackOf n s := by
  refine stackOf_congr fun i hi => ?_
  rw [loc_read (by omega), loc_read (by omega)]
  exact State.get_set_of_ne _ _ (slotReg_ne (by omega) hj (by omega))

/-- The other registers are no slots. -/
theorem ne_slotReg {n : ℕ} {r : Reg} (hr : r ∉ regs) (hn : n < 15) : r ≠ slotReg n :=
  fun heq => hr (heq ▸ slotReg_mem hn)

theorem stackOf_set_temp {n : ℕ} (hn : n ≤ 15) {r : Reg} (hr : r ∉ regs) (x : Word) :
    stackOf n (s.set r x) = stackOf n s := by
  refine stackOf_congr fun i hi => ?_
  rw [loc_read (by omega), loc_read (by omega)]
  exact State.get_set_of_ne _ _ (ne_slotReg hr (by omega)).symm

/-- An operand is pushed. -/
theorem Matches.push (h : Matches k base frame d s) (hk : k ≤ 8) (hlt : d.stack.length < 15) :
    Matches k base frame { d with stack := v :: d.stack } (s.set (slotReg d.stack.length) (tagged v)) ∧
      Spares base frame gc lc s (s.set (slotReg d.stack.length) (tagged v)) := by
  refine h.restack hk (State.mem_set _ _ _) (fun r hr _ _ => ?_) hlt ?_
  · exact State.get_set_of_ne _ _ (ne_slotReg hr hlt)
  · rw [List.length_cons, stackOf, loc_read hlt, State.get_set_self _ _ (slotReg_ne_zero hlt),
      stackOf_set le_rfl hlt, h.stack]
    rfl

/-- An operand is dropped. -/
theorem Matches.drop (h : Matches k base frame d s) (hk : k ≤ 8) {vs : List Int63}
    (hstack : d.stack = v :: vs) : Matches k base frame { d with stack := vs } s := by
  have hheight := h.height
  have hslots := h.stack
  rw [hstack] at hheight hslots
  refine (@Matches.restack _ 0 0 _ _ _ _ _ h hk _ rfl (fun _ _ _ _ => rfl)
    ((Nat.le_succ _).trans hheight) ?_).1
  exact (List.cons.inj hslots).2

/-- The operand in the slot at the top. -/
theorem Matches.top (h : Matches k base frame d s) {vs : List Int63} (hstack : d.stack = v :: vs) :
    s.get (slotReg (d.stack.length - 1)) = tagged v := by
  have hheight := h.height
  have hslots := h.stack
  rw [hstack] at hheight hslots ⊢
  rw [List.length_cons] at hheight
  have hhead := (List.cons.inj hslots).1
  rwa [loc_read (by omega)] at hhead

/-- The operand below the top. -/
theorem Matches.second (h : Matches k base frame d s) (hk : k ≤ 8) {vs : List Int63}
    (hstack : d.stack = w :: v :: vs) : s.get (slotReg (d.stack.length - 2)) = tagged v := by
  have hbelow := (h.drop hk hstack).top (show ({ d with stack := v :: vs } : Data).stack = v :: vs from rfl)
  rw [hstack]
  exact hbelow

/-- The value of a variable that exists. -/
def Variable.value (d : Data) : Variable → Option Int63
  | .global i => d.globals[i]?
  | .localVar i => (d.locals[i]?).join
  | .arg i => d.args[i]?

/-- What `LD` loads. -/
theorem Matches.loaded (h : Matches k base frame d s) (hk : k ≤ 8) {x : Variable}
    (harg : ∀ i, x = .arg i → i < k) (hv : x.value d = some v) : x.loaded s = tagged v := by
  cases x with
  | global i => rw [Variable.loaded, h.gp, h.globals i v hv]
  | localVar i => rw [Variable.loaded, h.fp, h.locals i v (Option.join_eq_some_iff.1 hv)]
  | arg i =>
    have hi := harg i rfl
    rw [Variable.loaded, if_pos (by omega), h.args i hi v hv]

/-- Words of their own. -/
theorem Areas.globals_apart (h : Areas base frame gc lc) {i j : ℕ} (hi : i < gc)
    (hj : j < gc) (hne : i ≠ j) :
    Apart (base + BitVec.ofNat 64 (8 * i)) (base + BitVec.ofNat 64 (8 * j)) := by
  have := h.globals
  refine apart_add ?_
  constructor <;> bv_omega

/-- A word is written, and the variables have the values that the data say. -/
theorem Matches.store (h : Matches k base frame d s) {a x : Word} (hstack : d'.stack = d.stack)
    (hargs : d'.args = d.args)
    (hg : ∀ (i : ℕ) v, d'.globals[i]? = some v →
      (s.store a x).load (base + BitVec.ofNat 64 (8 * i)) = tagged v)
    (hl : ∀ (i : ℕ) v, d'.locals[i]? = some (some v) → (s.store a x).load (below frame i) = tagged v) :
    Matches k base frame d' (s.store a x) := by
  refine ⟨hstack ▸ h.height, ?_, h.gp, h.fp, hg, hl, fun i hi v hv => ?_⟩
  · rw [hstack, ← h.stack]
    refine stackOf_congr fun i hi => ?_
    have hheight := h.height
    rw [loc_read (by omega), loc_read (by omega), State.get_store]
  · rw [hargs] at hv
    exact h.args i hi v hv

/-- A global is written. -/
theorem Matches.storeGlobal (h : Matches k base frame d s) (hareas : Areas base frame gc lc)
    (hgc : d.globals.length = gc) (hlc : d.locals.length = lc) {i : ℕ} (hi : i < gc) :
    Matches k base frame { d with globals := d.globals.set i v }
        (s.store (base + BitVec.ofNat 64 (8 * i)) (tagged v)) ∧
      Spares base frame gc lc s (s.store (base + BitVec.ofNat 64 (8 * i)) (tagged v)) := by
  refine ⟨h.store rfl rfl (fun j w hw => ?_) (fun j w hw => ?_), rfl, rfl, fun b hb => ?_⟩
  · by_cases heq : j = i
    · subst heq
      rw [List.getElem?_set_self (hgc ▸ hi)] at hw
      rw [← Option.some.inj hw]
      exact State.load_store_self _ _ _
    · rw [List.getElem?_set_ne (Ne.symm heq)] at hw
      have hj : j < gc := hgc ▸ (List.getElem?_eq_some_iff.1 hw).1
      rw [State.load_store_of_apart _ _ (hareas.globals_apart hi hj (Ne.symm heq)), h.globals j w hw]
  · have hj : j < lc := hlc ▸ (List.getElem?_eq_some_iff.1 hw).1
    rw [State.load_store_of_apart _ _ (hareas.apart i hi j hj), h.locals j w hw]
  · exact store_of_le (hb.1 i hi)

/-- A local is written. -/
theorem Matches.storeLocal (h : Matches k base frame d s) (hareas : Areas base frame gc lc)
    (hgc : d.globals.length = gc) (hlc : d.locals.length = lc) {i : ℕ} (hi : i < lc) :
    Matches k base frame { d with locals := d.locals.set i (some v) }
        (s.store (below frame i) (tagged v)) ∧
      Spares base frame gc lc s (s.store (below frame i) (tagged v)) := by
  have hlocals := hareas.locals
  refine ⟨h.store rfl rfl (fun j w hw => ?_) (fun j w hw => ?_), rfl, rfl, fun b hb => ?_⟩
  · have hj : j < gc := hgc ▸ (List.getElem?_eq_some_iff.1 hw).1
    rw [State.load_store_of_apart _ _ (hareas.apart j hj i hi).symm, h.globals j w hw]
  · by_cases heq : j = i
    · subst heq
      rw [List.getElem?_set_self (hlc ▸ hi)] at hw
      rw [← Option.some.inj (Option.some.inj hw)]
      exact State.load_store_self _ _ _
    · rw [List.getElem?_set_ne (Ne.symm heq)] at hw
      have hj : j < lc := hlc ▸ (List.getElem?_eq_some_iff.1 hw).1
      rw [State.load_store_of_apart _ _ (below_apart frame (Ne.symm heq) (by omega) (by omega)),
        h.locals j w hw]
  · exact store_of_le (hb.2 i hi)

end Matches

/-! ### The code of one instruction -/

section Code

variable {c c' : Compiler} {i : Instruction} {n : ℕ} {s : State} (sym : String → Word)

/-- The code of an instruction that neither jumps nor calls. -/
theorem added_straight (h : i.emitCode c = .ok c') (hb : i.isBegin = false) (he : i ≠ .endInst)
    (hj : i.jumpTarget = none) (hc : i.isCall = false) :
    c'.cb = c.cb ++ added c c' ∧ ∀ l ∈ added c c', l.straight := by
  cases emitCode_body h hb he with
  | straight T hT hq =>
    rw [added, hT, List.drop_left]
    exact ⟨rfl, hq.straight⟩
  | jump t T ht => rw [hj] at ht; cases ht
  | branch t eq a b T U ht => rw [hj] at ht; cases ht
  | call x callee argc opt T _ _ _ _ _ _ _ hcall => rw [hc] at hcall; cases hcall

theorem exec_const {value : ℤ} (h : (Instruction.const value).emitCode c = .ok c') (htop : c.st.top < 15) :
    c'.st = ⟨c.st.top + 1⟩ ∧ execLines sym (added c c') s =
      s.set (slotReg c.st.top) (BitVec.ofInt 64 (toInt value)) := by
  simp only [Instruction.emitCode, emitConst, SymbolicStack.alloc, loc_of_lt htop] at h
  cases h
  exact ⟨rfl, by rw [added_finish]; rfl⟩

theorem mulInt_bounds {x y z : ℤ} (h : mulInt x y = .ok z) :
    -2 ^ 31 ≤ x * y ∧ x * y < 2 ^ 31 ∧ z = x * y := by
  simp only [mulInt, bind_ok, return_ok] at h
  obtain ⟨u, hcheck, rfl⟩ := h
  obtain ⟨hlow, hhigh⟩ := check_ok.1 hcheck
  exact ⟨hlow, hhigh, rfl⟩

theorem exec_load {x : Variable} (h : (Instruction.load x.entry).emitCode c = .ok c')
    (htop : c.st.top < 15) (hlocal : ∀ j, x = .localVar j → j < 2 ^ 28)
    (harg : ∀ j, x = .arg j → j < 8) :
    c'.st = ⟨c.st.top + 1⟩ ∧ execLines sym (added c c') s =
      s.set (slotReg c.st.top) (x.loaded s) := by
  cases x with
  | global j =>
    simp only [Instruction.emitCode, emitLoad, Variable.entry, bind_ok, return_ok] at h
    obtain ⟨-, -, off, hoff, rfl⟩ := h
    obtain ⟨hlow, hhigh, rfl⟩ := mulInt_bounds hoff
    refine ⟨rfl, ?_⟩
    simp only [added_finish, SymbolicStack.alloc, loc_of_lt htop, exec_symbEmitLd]
    rw [add_toInt _ (by unfold wordSize at hlow hhigh; omega)]
    rfl
  | localVar j =>
    simp only [Instruction.emitCode, emitLoad, Variable.entry, bind_ok, return_ok] at h
    obtain ⟨-, -, -, -, off, hoff, rfl⟩ := h
    obtain ⟨-, -, rfl⟩ := mulInt_bounds hoff
    refine ⟨rfl, ?_⟩
    simp only [added_finish, SymbolicStack.alloc, loc_of_lt htop, exec_symbEmitLd]
    rw [add_toInt_neg _ (hlocal j rfl)]
    rfl
  | arg j =>
    have hj := harg j rfl
    simp only [Instruction.emitCode, emitLoad, Variable.entry, bind_ok, check_ok,
      if_pos (show (j : ℤ) < 8 by omega), toSizeT_natCast (show j < 2 ^ 64 by omega),
      register_arg_ok hj, return_ok] at h
    obtain ⟨-, -, -, -, r, hr, rfl⟩ := h
    cases hr
    refine ⟨rfl, ?_⟩
    simp only [added_finish, SymbolicStack.alloc, loc_of_lt htop, exec_symbEmitMvFromReg,
      Variable.loaded, if_pos hj]

theorem exec_store {x : Variable} (h : (Instruction.store x.entry).emitCode c = .ok c')
    (htop : c.st.top ≤ 15) (hlocal : ∀ j, x = .localVar j → j < 2 ^ 28) (harg : ∀ j, x ≠ .arg j) :
    c'.st = c.st ∧ execLines sym (added c c') s = x.stored (slotReg (c.st.top - 1)) s := by
  simp only [Instruction.emitCode, emitStore, bind_ok] at h
  obtain ⟨value, hpeek, h⟩ := h
  obtain ⟨hpos, rfl⟩ := SymbolicStack.peek_ok hpeek
  rw [loc_of_lt (by omega)] at h
  cases x with
  | global j =>
    simp only [Variable.entry, bind_ok, return_ok] at h
    obtain ⟨off, hoff, rfl⟩ := h
    obtain ⟨hlow, hhigh, rfl⟩ := mulInt_bounds hoff
    refine ⟨rfl, ?_⟩
    rw [added_emit, exec_symbEmitSd, add_toInt _ (by unfold wordSize at hlow hhigh; omega)]
    rfl
  | localVar j =>
    simp only [Variable.entry, bind_ok, return_ok] at h
    obtain ⟨off, hoff, rfl⟩ := h
    obtain ⟨-, -, rfl⟩ := mulInt_bounds hoff
    refine ⟨rfl, ?_⟩
    rw [added_emit, exec_symbEmitSd, add_toInt_neg _ (hlocal j rfl)]
    rfl
  | arg j => exact absurd rfl (harg j)

theorem exec_duplicate (h : Instruction.duplicate.emitCode c = .ok c') (htop : c.st.top < 15) :
    0 < c.st.top ∧ c'.st = ⟨c.st.top + 1⟩ ∧ execLines sym (added c c') s =
      s.set (slotReg c.st.top) (s.get (slotReg (c.st.top - 1))) := by
  simp only [Instruction.emitCode, emitDuplicate, bind_ok, return_ok] at h
  obtain ⟨src, hpeek, rfl⟩ := h
  obtain ⟨hpos, rfl⟩ := SymbolicStack.peek_ok hpeek
  refine ⟨hpos, rfl, ?_⟩
  simp only [added_finish, SymbolicStack.alloc, loc_of_lt htop,
    loc_of_lt (show c.st.top - 1 < 15 by omega), exec_symbEmitMv]

theorem exec_swapInst (h : Instruction.swap.emitCode c = .ok c') (htop : c.st.top = n + 2)
    (hn : n + 1 < 15) : c'.st = c.st ∧ execLines sym (added c c') s =
      ((s.set Register.temp1 (s.get (slotReg (n + 1)))).set (slotReg (n + 1))
        (s.get (slotReg n))).set (slotReg n) (s.get (slotReg (n + 1))) := by
  have hswap : Shuffle.swap.emitCode .rightToLeft c = .ok c' := h
  rw [Shuffle.emitSwap_eq htop] at hswap
  cases hswap
  refine ⟨?_, ?_⟩
  · rw [finish_st, ← htop]
  · rw [added_finish, Shuffle.exec_swap sym s hn]

theorem exec_binop {op : BinopKind} (h : (Instruction.binop op).emitCode c = .ok c')
    (htop : c.st.top ≤ 15) {v w r : Int63} (hop : op ≠ .and ∧ op ≠ .or)
    (hv : s.get (slotReg (c.st.top - 2)) = tagged v) (hw : s.get (slotReg (c.st.top - 1)) = tagged w)
    (heval : op.eval v w = some r) :
    c'.st = ⟨c.st.top - 1⟩ ∧ execLines sym (added c c') s =
      (s.set (slotReg (c.st.top - 1)) (wide w)).set (slotReg (c.st.top - 2)) (tagged r) := by
  have h : c.emitBinop op = .ok c' := h
  obtain ⟨-, hst, hexec⟩ := exec_emitBinop sym h htop s
  refine ⟨hst, ?_⟩
  rw [hexec, hv, hw, untag, untag, compute_wide hop.1 hop.2 heval]

end Code

/-! ### One instruction -/

section Execute

variable {d d' : Data} {v : Int63} {loc : LocationEntry}

theorem LocationEntry.index?_some {j : ℕ} (h : loc.index? = some j) : loc.index = j := by
  simp only [index?, Option.ite_none_right_eq_some, Option.some.injEq] at h
  omega

/-- What is read is the value of a variable that the code can name. -/
theorem LocationEntry.read_some (h : loc.read d = some v) :
    ∃ x : Variable, loc = x.entry ∧ x.value d = some v := by
  obtain ⟨kind, index⟩ := loc
  cases kind with
  | captured | other => cases h
  | global =>
    obtain ⟨j, hj, hv⟩ := Option.bind_eq_some_iff.1 h
    obtain rfl := index?_some hj
    exact ⟨.global j, rfl, hv⟩
  | localVar =>
    obtain ⟨j, hj, hv⟩ := Option.bind_eq_some_iff.1 h
    obtain rfl := index?_some hj
    exact ⟨.localVar j, rfl, hv⟩
  | arg =>
    obtain ⟨j, hj, hv⟩ := Option.bind_eq_some_iff.1 h
    obtain rfl := index?_some hj
    exact ⟨.arg j, rfl, hv⟩

theorem LocationEntry.update_some {α : Type} {xs ys : List α} {j : ℕ} {x : α}
    (h : update xs j x = some ys) : j < xs.length ∧ ys = xs.set j x := by
  unfold update at h
  split_ifs at h with hj
  exact ⟨hj, (Option.some.inj h).symm⟩

/-- A write to a global or to a local. -/
theorem LocationEntry.write_some (hloc : loc.kind = .global ∨ loc.kind = .localVar)
    (h : loc.write d v = some d') :
    (∃ j < d.globals.length, loc = (Variable.global j).entry ∧
      d' = { d with globals := d.globals.set j v }) ∨
    (∃ j < d.locals.length, loc = (Variable.localVar j).entry ∧
      d' = { d with locals := d.locals.set j (some v) }) := by
  obtain ⟨kind, index⟩ := loc
  cases kind with
  | global =>
    obtain ⟨j, hj, h⟩ := Option.bind_eq_some_iff.1 h
    obtain rfl := index?_some hj
    obtain ⟨xs, hxs, rfl⟩ := Option.map_eq_some_iff.1 h
    obtain ⟨hlt, rfl⟩ := update_some hxs
    exact .inl ⟨j, hlt, rfl, rfl⟩
  | localVar =>
    obtain ⟨j, hj, h⟩ := Option.bind_eq_some_iff.1 h
    obtain rfl := index?_some hj
    obtain ⟨xs, hxs, rfl⟩ := Option.map_eq_some_iff.1 h
    obtain ⟨hlt, rfl⟩ := update_some hxs
    exact .inr ⟨j, hlt, rfl, rfl⟩
  | arg | captured | other => rcases hloc with hloc | hloc <;> cases hloc

/-- So many globals and locals. -/
structure Data.Sized (gc lc : ℕ) (d : Data) : Prop where
  globals : d.globals.length = gc
  locals : d.locals.length = lc

/-- A write changes the values of variables only. -/
theorem LocationEntry.write_frame (h : loc.write d v = some d') : d'.stack = d.stack ∧
    d'.globals.length = d.globals.length ∧ d'.locals.length = d.locals.length := by
  obtain ⟨kind, index⟩ := loc
  cases kind with
  | captured | other => cases h
  | global =>
    obtain ⟨j, -, h⟩ := Option.bind_eq_some_iff.1 h
    obtain ⟨xs, hxs, rfl⟩ := Option.map_eq_some_iff.1 h
    obtain ⟨-, rfl⟩ := update_some hxs
    exact ⟨rfl, List.length_set, rfl⟩
  | localVar =>
    obtain ⟨j, -, h⟩ := Option.bind_eq_some_iff.1 h
    obtain ⟨xs, hxs, rfl⟩ := Option.map_eq_some_iff.1 h
    obtain ⟨-, rfl⟩ := update_some hxs
    exact ⟨rfl, rfl, List.length_set⟩
  | arg =>
    obtain ⟨j, -, h⟩ := Option.bind_eq_some_iff.1 h
    obtain ⟨xs, -, rfl⟩ := Option.map_eq_some_iff.1 h
    exact ⟨rfl, rfl, rfl⟩

theorem Instruction.execute_duplicate (h : Instruction.duplicate.execute d = some d') :
    ∃ v vs, d.stack = v :: vs ∧ d' = { d with stack := v :: v :: vs } := by
  obtain ⟨_ | ⟨v, vs⟩, globals, locals, args⟩ := d
  · cases h
  · exact ⟨v, vs, rfl, (Option.some.inj h).symm⟩

theorem Instruction.execute_drop (h : Instruction.drop.execute d = some d') :
    ∃ v vs, d.stack = v :: vs ∧ d' = { d with stack := vs } := by
  obtain ⟨_ | ⟨v, vs⟩, globals, locals, args⟩ := d
  · cases h
  · exact ⟨v, vs, rfl, (Option.some.inj h).symm⟩

theorem Instruction.execute_swap (h : Instruction.swap.execute d = some d') :
    ∃ v w vs, d.stack = v :: w :: vs ∧ d' = { d with stack := w :: v :: vs } := by
  obtain ⟨_ | ⟨v, _ | ⟨w, vs⟩⟩, globals, locals, args⟩ := d
  · cases h
  · cases h
  · exact ⟨v, w, vs, rfl, (Option.some.inj h).symm⟩

theorem Instruction.execute_binop {op : BinopKind} (h : (Instruction.binop op).execute d = some d') :
    ∃ w v vs r, d.stack = w :: v :: vs ∧ op.eval v w = some r ∧ d' = { d with stack := r :: vs } := by
  obtain ⟨_ | ⟨w, _ | ⟨v, vs⟩⟩, globals, locals, args⟩ := d
  · cases h
  · cases h
  · obtain ⟨r, hr, rfl⟩ := Option.map_eq_some_iff.1 h
    exact ⟨w, v, vs, r, rfl, hr, rfl⟩

/-- The machine keeps the heights that the code generator computes. -/
theorem Instruction.execute_frame {i : Instruction} (h : i.execute d = some d') :
    d'.stack.length = i.heightAfter d.stack.length ∧ d'.globals.length = d.globals.length ∧
      d'.locals.length = d.locals.length := by
  cases i with
  | const value =>
    cases h
    exact ⟨rfl, rfl, rfl⟩
  | load loc =>
    obtain ⟨v, hv, rfl⟩ := Option.map_eq_some_iff.1 h
    obtain ⟨x, rfl, -⟩ := LocationEntry.read_some hv
    cases x <;> exact ⟨rfl, rfl, rfl⟩
  | store loc =>
    obtain ⟨v, hhead, h⟩ := Option.bind_eq_some_iff.1 h
    obtain ⟨hstack, hglobals, hlocals⟩ := LocationEntry.write_frame h
    obtain ⟨vs, hvs⟩ := List.head?_eq_some_iff.1 hhead
    rw [hstack, hvs]
    exact ⟨rfl, hglobals, hlocals⟩
  | duplicate =>
    obtain ⟨v, vs, hstack, rfl⟩ := execute_duplicate h
    rw [hstack]
    exact ⟨rfl, rfl, rfl⟩
  | drop =>
    obtain ⟨v, vs, hstack, rfl⟩ := execute_drop h
    rw [hstack]
    exact ⟨rfl, rfl, rfl⟩
  | swap =>
    obtain ⟨v, w, vs, hstack, rfl⟩ := execute_swap h
    rw [hstack]
    exact ⟨rfl, rfl, rfl⟩
  | binop op =>
    obtain ⟨w, v, vs, r, hstack, -, rfl⟩ := execute_binop h
    rw [hstack]
    exact ⟨rfl, rfl, rfl⟩
  | line l =>
    cases h
    exact ⟨rfl, rfl, rfl⟩
  | _ => cases h

/-- The literal of a `CONST` is a tagged integer. -/
theorem ofInt_literal {z : ℤ} (h₁ : -2 ^ 30 ≤ z) (h₂ : z < 2 ^ 30) :
    BitVec.ofInt 64 (toInt (2 * z + 1)) = tagged (BitVec.ofInt 63 ((2 * z + 1) / 2)) := by
  have hz : (BitVec.ofInt 63 z).toInt = z := by
    rw [BitVec.toInt_ofInt, Int.bmod_eq_of_le (by omega) (by omega)]
  rw [toInt_of_mem (by omega) (by omega), show (2 * z + 1) / 2 = z by omega, tagged, hz]

section One

variable {k gc lc : ℕ} {base frame : Word} {s : State} {c c' : Compiler} {i : Instruction}

/-- **One instruction.**  The code of an instruction that does not jump does what the machine does. -/
theorem Matches.execute (h : Matches k base frame d s) (hk : k ≤ 8) (hareas : Areas base frame gc lc)
    (hsized : d.Sized gc lc) (hi : i.InFragment k) (hemit : i.emitCode c = .ok c')
    (htop : c.st.top = d.stack.length) (hafter : c'.st.top ≤ 15) (hexec : i.execute d = some d')
    (sym : String → Word) :
    c'.st.top = d'.stack.length ∧ Matches k base frame d' (execLines sym (added c c') s) ∧
      Spares base frame gc lc s (execLines sym (added c c') s) := by
  obtain ⟨hheight, -, -⟩ := Instruction.execute_frame hexec
  have htop' : c'.st.top = d'.stack.length := by rw [(emitCode_ok hemit).height, hheight, htop]
  have hbound := h.height
  refine ⟨htop', ?_⟩
  rw [htop'] at hafter
  cases i with
  | const value =>
    obtain ⟨z, hlow, hhigh, rfl⟩ := hi
    cases hexec
    rw [(exec_const sym hemit (by rw [htop]; exact hafter)).2, htop, ofInt_literal hlow hhigh]
    exact h.push hk hafter
  | load loc =>
    obtain ⟨v, hread, rfl⟩ := Option.map_eq_some_iff.1 hexec
    obtain ⟨x, rfl, hv⟩ := LocationEntry.read_some hread
    have hlocal : ∀ j, x = .localVar j → j < 2 ^ 28 := by
      rintro j rfl
      have hlt := (List.getElem?_eq_some_iff.1 (Option.join_eq_some_iff.1 hv)).1
      have := hsized.locals
      have := hareas.locals
      omega
    have harg : ∀ j, x = .arg j → j < k := by
      rintro j rfl
      rcases hi with hi | hi | ⟨-, hi⟩
      · cases hi
      · cases hi
      · exact Int.ofNat_lt.1 hi
    rw [(exec_load sym hemit (by rw [htop]; exact hafter) hlocal
      fun j hj => lt_of_lt_of_le (harg j hj) hk).2, htop, h.loaded hk harg hv]
    exact h.push hk hafter
  | store loc =>
    obtain ⟨v, hhead, hwrite⟩ := Option.bind_eq_some_iff.1 hexec
    obtain ⟨vs, hvs⟩ := List.head?_eq_some_iff.1 hhead
    have hvalue : s.get (slotReg (c.st.top - 1)) = tagged v := by rw [htop, h.top hvs]
    rcases LocationEntry.write_some hi hwrite with ⟨j, hj, rfl, rfl⟩ | ⟨j, hj, rfl, rfl⟩
    · rw [hsized.globals] at hj
      rw [(exec_store sym hemit (htop ▸ hbound) (fun _ h => by cases h) fun _ h => by cases h).2,
        Variable.stored, hvalue, h.gp]
      exact h.storeGlobal hareas hsized.globals hsized.locals hj
    · rw [hsized.locals] at hj
      rw [(exec_store sym hemit (htop ▸ hbound) (fun _ h => by cases h; exact hj.trans hareas.locals)
        fun _ h => by cases h).2, Variable.stored, hvalue, h.fp]
      exact h.storeLocal hareas hsized.globals hsized.locals hj
  | duplicate =>
    obtain ⟨v, vs, hstack, rfl⟩ := Instruction.execute_duplicate hexec
    rw [List.length_cons, ← hstack] at hafter
    obtain ⟨-, -, hcode⟩ := exec_duplicate sym (s := s) hemit (by rw [htop]; exact hafter)
    rw [hcode, htop, h.top hstack, ← hstack]
    exact h.push hk hafter
  | drop =>
    obtain ⟨v, vs, hstack, rfl⟩ := Instruction.execute_drop hexec
    simp only [Instruction.emitCode, bind_ok, return_ok, Prod.exists] at hemit
    obtain ⟨loc, st, -, rfl⟩ := hemit
    have hnil : added c { c with st := st } = [] := List.drop_length
    rw [hnil]
    exact ⟨h.drop hk hstack, .refl⟩
  | swap =>
    obtain ⟨v, w, vs, hstack, rfl⟩ := Instruction.execute_swap hexec
    have hlen : d.stack.length = vs.length + 2 := by rw [hstack]; rfl
    rw [hlen] at hbound htop
    have hv := h.top hstack
    have hw := h.second hk hstack
    have hne : slotReg vs.length ≠ slotReg (vs.length + 1) := slotReg_ne (by omega) (by omega) (by omega)
    rw [(exec_swapInst sym hemit htop (by omega)).2]
    rw [hlen] at hv hw
    simp only [Nat.add_sub_cancel, show vs.length + 2 - 1 = vs.length + 1 by omega] at hv hw
    rw [hv, hw]
    refine h.restack hk (by simp) (fun r hr ht₁ _ => ?_) hafter ?_
    · rw [State.get_set_of_ne _ _ (ne_slotReg hr (by omega)),
        State.get_set_of_ne _ _ (ne_slotReg hr (by omega)),
        State.get_set_of_ne _ _ ht₁]
    · have hslots := (h.drop hk hstack).drop hk rfl
      simp only [List.length_cons, stackOf, List.map_cons]
      rw [loc_read (by omega), loc_read (by omega), State.get_set_of_ne _ _ hne.symm,
        State.get_set_self _ _ (slotReg_ne_zero (by omega)),
        State.get_set_self _ _ (slotReg_ne_zero (by omega)), stackOf_set le_rfl (by omega),
        stackOf_set (by omega) (by omega),
        stackOf_set_temp (by omega) (by decide), hslots.stack]
  | binop op =>
    obtain ⟨w, v, vs, r, hstack, heval, rfl⟩ := Instruction.execute_binop hexec
    have hlen : d.stack.length = vs.length + 2 := by rw [hstack]; rfl
    have hw := h.top hstack
    have hv := h.second hk hstack
    rw [← htop] at hw hv
    rw [(exec_binop sym hemit (by omega) hi hv hw heval).2]
    rw [htop, hlen]
    refine h.restack hk (by simp) (fun r' hr _ _ => ?_) hafter ?_
    · rw [State.get_set_of_ne _ _ (ne_slotReg hr (by omega)),
        State.get_set_of_ne _ _ (ne_slotReg hr (by omega))]
    · have hslots := (h.drop hk hstack).drop hk rfl
      simp only [List.length_cons, stackOf, List.map_cons]
      rw [show vs.length + 2 - 2 = vs.length by omega, show vs.length + 2 - 1 = vs.length + 1 by omega,
        loc_read (by omega), State.get_set_self _ _ (slotReg_ne_zero (by omega)),
        stackOf_set le_rfl (by omega), stackOf_set (by omega) (by omega), hslots.stack]
  | line l =>
    cases hexec
    cases hemit
    rw [added_emit]
    exact ⟨h, .refl⟩
  | _ => cases hexec

end One

end Execute

/-! ### Steps and runs -/

/-- The code of a conditional jump: the operand is untagged in its slot. -/
theorem conditionalJump_text {c c' : Compiler} {t : ℕ} {zero : Bool}
    (h : (Instruction.conditionalJump t zero).emitCode c = .ok c') (htop : c.st.top ≤ 15) :
    ∃ T, c'.cb = c.cb ++ (emitSrai (slotReg (c.st.top - 1)) (slotReg (c.st.top - 1)) 1 ++
      .branch zero (slotReg (c.st.top - 1)) Register.zero (labelForIp t) :: T) ∧
      ∀ l ∈ T, ∃ x, l = .comment x := by
  have h : c.emitConditionalJump t zero = .ok c' := h
  simp only [emitConditionalJump, bind_ok, Prod.exists] at h
  obtain ⟨l, st, hpop, h⟩ := h
  obtain ⟨hpos, rfl, -⟩ := SymbolicStack.pop_ok hpop
  obtain ⟨-, -, ⟨T, hT, hcomments⟩, -⟩ := addJumpTarget_ok h
  refine ⟨T, ?_, hcomments⟩
  rw [hT, loc_of_lt (by omega)]
  simp only [finish, emit, emitCj, toReg, List.append_assoc, List.cons_append, List.nil_append]

theorem execLines_comments {T : List Line} (h : ∀ l ∈ T, ∃ x, l = .comment x) {sym : String → Word}
    (s : State) : execLines sym T s = s := by
  induction T with
  | nil => rfl
  | cons l T ih =>
    obtain ⟨x, rfl⟩ := h l List.mem_cons_self
    exact ih fun l hl => h l (List.mem_cons_of_mem _ hl)

section Runs

variable {m : Module} {log : List Emission} {c : Compiler} {E : Env} {e : Emission}
  {k gc lc : ℕ} {base frame : Word} {x y : ℕ × Data} {s s₀ : State}

/-- Straight code at the start of an instruction runs, with the lines that open it. -/
theorem Completes.steps (h : Completes m log c) (he : e ∈ log) {U V : List Line}
    (hcode : e.after.cb = e.before.cb ++ (U ++ V)) (hU : ∀ l ∈ U, l.straight) (s : State) :
    Relation.TransGen (Step E c.cb) ⟨e.site, s⟩ ⟨e.site + 2 + U.length, execLines E.sym U s⟩ ∧
      CodeAt c.cb (e.site + 2 + U.length) V := by
  obtain ⟨hrun, hat⟩ := h.runs (E := E) (K := fun _ _ _ => False) he hcode hU (fun _ _ h => h) s
  refine ⟨?_, hat⟩
  -- there is no call among these lines
  have hsteps : Steps E c.cb ⟨e.site, s⟩ ⟨e.site + 2 + U.length, execLines E.sym U s⟩ := by
    refine Relation.ReflTransGen.mono (fun a b hab => ?_) _ _ hrun
    cases hab with
    | straight hl hs => exact .straight hl hs
    | jump hl hp => exact .jump hl hp
    | taken hl hp heq => exact .taken hl hp heq
    | skipped hl hne => exact .skipped hl hne
    | call _ hk => exact hk.elim
  rcases Relation.reflTransGen_iff_eq_or_transGen.1 hsteps with heq | htrans
  · have := congrArg Config.pc heq
    simp only at this
    omega
  · exact htrans

/-- Where the code of an instruction ends. -/
theorem Completes.end_site (h : Completes m log c) (he : e ∈ log) {U : List Line}
    (hcode : e.after.cb = e.before.cb ++ U) : e.after.cb.length = e.site + 2 + U.length := by
  obtain ⟨-, -, -, -, -, hlen, -⟩ := h.lines he
  rw [hcode, List.length_append, hlen]

/-- The code that a jump leads to. -/
theorem Completes.jump_site (h : Completes m log c) (hm : m.Linked) (he : e ∈ log) {t : ℕ}
    (ht : e.inst.jumpTarget = some t) :
    ∃ e' ∈ log, e'.offset = t ∧ labelPos c.cb (labelForIp t) = some e'.site := by
  have hreach := (h.1.reachInv.reach e he).succ (.jump (h.1.heightInv.inst e he) ht)
  obtain ⟨q, hq⟩ := labelPos_of_mem (mem_labelsOf.1 (h.mem_labels hm hreach))
  obtain ⟨e', he', rfl, rfl⟩ := h.target hm he ht hq
  exact ⟨e', he', rfl, hq⟩

/-- Every emission of a successor begins at the height at which the instruction ends. -/
theorem Completes.height_succ (h : Completes m log c) (he : e ∈ log) {e' : Emission} (he' : e' ∈ log)
    (hsucc : m.Succ e.offset e'.offset) : e'.before.st.top = e.after.st.top := by
  have hdone := h.done_succ he hsucc ⟨_, h.1.heightInv.inst e' he'⟩
  exact Option.some.inj ((h.1.heightInv.before e' he').symm.trans hdone)

/-- What the code that control can come to from `o` needs: its operands are in registers, and every
instruction is one of the fragment, a call or an `END`. -/
def InRegisters (m : Module) (log : List Emission) (k o : ℕ) : Prop :=
  ∀ e ∈ log, m.Flow o e.offset → e.after.st.top ≤ 15 ∧
    (e.inst.InFragment k ∨ e.inst.isCall = true ∨ e.inst = .endInst)

/-- The configuration is at the code of the machine's instruction and has its data.  Since `s₀` only
slots, temporaries and variables have been written. -/
structure Stands (k : ℕ) (base frame : Word) (gc lc : ℕ) (s₀ : State) (e : Emission) (x : ℕ × Data)
    (s : State) : Prop where
  offset : e.offset = x.1
  height : e.before.st.top = x.2.stack.length
  sized : x.2.Sized gc lc
  data : Matches k base frame x.2 s
  spares : Spares base frame gc lc s₀ s

/-- The machine and the code. -/
def Represents (m : Module) (log : List Emission) (k : ℕ) (base frame : Word) (gc lc o : ℕ) (s₀ : State)
    (x : ℕ × Data) (cfg : Config) : Prop :=
  ∃ e ∈ log, m.Flow o e.offset ∧ cfg.pc = e.site ∧ Stands k base frame gc lc s₀ e x cfg.st

/-- The lines of a conditional jump up to the branch untag the operand; then the operand is gone. -/
theorem Matches.untag_top {d : Data} {v : Int63} {vs : List Int63} (h : Matches k base frame d s)
    (hk : k ≤ 8) (hstack : d.stack = v :: vs) (sym : String → Word) :
    execLines sym (emitSrai (slotReg vs.length) (slotReg vs.length) 1) s =
        s.set (slotReg vs.length) (wide v) ∧
      Matches k base frame { d with stack := vs } (s.set (slotReg vs.length) (wide v)) ∧
      Spares base frame gc lc s (s.set (slotReg vs.length) (wide v)) := by
  have hlen : d.stack.length = vs.length + 1 := by rw [hstack]; rfl
  have hheight := h.height
  have htop := h.top hstack
  rw [hlen, Nat.add_sub_cancel] at htop
  refine ⟨?_, h.restack hk (State.mem_set _ _ _) (fun r hr _ _ => ?_) (by omega) ?_⟩
  · have hone : toInt 1 = 1 := toInt_of_mem (by decide) (by decide)
    simp only [emitSrai, emitIType, execLines_cons, execLines_nil, Line.exec_op, Op.exec, IType.eval,
      hone, htop]
    rw [← untag]
    rfl
  · exact State.get_set_of_ne _ _ (ne_slotReg hr (by omega))
  · rw [stackOf_set le_rfl (by omega), (h.drop hk hstack).stack]

/-- A conditional jump comes to its branch without its operand. -/
theorem Completes.to_branch (h : Completes m log c) (hk : k ≤ 8) (he : e ∈ log)
    (hstands : Stands k base frame gc lc s₀ e x s) {t : ℕ} {zero : Bool} {v : Int63} {vs : List Int63}
    (hi : e.inst = .conditionalJump t zero) (hstack : x.2.stack = v :: vs) :
    ∃ p s' r T, Relation.TransGen (Step E c.cb) ⟨e.site, s⟩ ⟨p, s'⟩ ∧
      CodeAt c.cb p (.branch zero r Register.zero (labelForIp t) :: T) ∧ (∀ l ∈ T, l.straight) ∧
      execLines E.sym T s' = s' ∧ p + 1 + T.length = e.after.cb.length ∧
      (s'.get r == s'.get Register.zero) = (v == 0) ∧ e.after.st.top = vs.length ∧
      Matches k base frame { x.2 with stack := vs } s' ∧ Spares base frame gc lc s₀ s' := by
  have hemit := h.1.siteInv.code e he
  rw [hi] at hemit
  have hheight := hstands.height
  have hbound := hstands.data.height
  have hlen : x.2.stack.length = vs.length + 1 := by rw [hstack]; rfl
  obtain ⟨T, hcode, hcomments⟩ := conditionalJump_text hemit (by omega)
  rw [show e.before.st.top - 1 = vs.length by omega] at hcode
  obtain ⟨hexec, hdata, hspares⟩ := @Matches.untag_top k gc lc base frame s x.2 v vs hstands.data hk
    hstack E.sym
  have hsrai : ∀ l ∈ emitSrai (slotReg vs.length) (slotReg vs.length) 1, l.straight := by
    simp [emitSrai, emitIType, Line.straight]
  obtain ⟨hrun, hat⟩ := h.steps (E := E) he hcode hsrai s
  rw [hexec] at hrun
  refine ⟨_, _, slotReg vs.length, T, hrun, hat, ?_, ?_, ?_, ?_, ?_, hdata, hstands.spares.trans hspares⟩
  · intro l hl
    obtain ⟨z, rfl⟩ := hcomments l hl
    rfl
  · exact execLines_comments hcomments _
  · rw [h.end_site he hcode, List.length_append, List.length_cons]
    omega
  · rw [State.get_set_self _ _ (slotReg_ne_zero (by omega)), ← wide_eq_zero]
    rfl
  · rw [(emitCode_ok hemit).height, hheight, hlen]
    rfl

/-- An instruction that the machine executes is none of these. -/
theorem Instruction.execute_body {i : Instruction} {d d' : Data} (h : i.execute d = some d') :
    i.isBegin = false ∧ i ≠ .endInst ∧ i.jumpTarget = none ∧ i.isCall = false := by
  cases i with
  | const | load | store | duplicate | drop | swap | binop | line => exact ⟨rfl, nofun, rfl, rfl⟩
  | _ => cases h

theorem Instruction.InFragment.of_executes {i : Instruction} {d d' : Data}
    {k : ℕ} (h : i.InFragment k ∨ i.isCall = true ∨ i = .endInst) (hexec : i.execute d = some d') :
    i.InFragment k := by
  obtain ⟨-, hend, -, hcall⟩ := execute_body hexec
  rcases h with h | h | h
  · exact h
  · rw [hcall] at h
    cases h
  · exact absurd h hend

/-- **One step.**  The code of the instruction at which the machine is, run from the state that
stands for its data, comes to the code of the next instruction. -/
theorem Completes.simulates (h : Completes m log c) (hm : m.Linked) (hk : k ≤ 8) {o : ℕ}
    (hareas : Areas base frame gc lc) (hregs : InRegisters m log k o) :
    Simulates (Machine m) (Step E c.cb) (Represents m log k base frame gc lc o s₀) := by
  rintro x y ⟨pc, s⟩ ⟨e, he, hflow, rfl, hstands⟩ hstep
  obtain ⟨hfits, hkind⟩ := hregs e he hflow
  have hinst := h.1.heightInv.inst e he
  have hemit := h.1.siteInv.code e he
  have hheight := hstands.height
  have hoffset := hstands.offset
  cases hstep with
  | @next o n i d d' hat hexec hn =>
    simp only at hheight hoffset
    subst hoffset
    obtain rfl : e.inst = i := Option.some.inj (hinst.symm.trans hat)
    obtain ⟨hb, hend, hj, hcall⟩ := Instruction.execute_body hexec
    obtain ⟨hcode, hstraight⟩ := added_straight hemit hb hend hj hcall
    obtain ⟨htop, hdata, hspares⟩ := hstands.data.execute hk hareas hstands.sized
      (.of_executes hkind hexec) hemit hheight hfits hexec E.sym
    obtain ⟨-, hglobals, hlocals⟩ := Instruction.execute_frame hexec
    have hterm : e.inst.isTerminator = false := by
      have hsucc := Machine.succ (.next hat hexec hn)
      cases hsucc with
      | fall hat' ht _ => rwa [← Option.some.inj (hinst.symm.trans hat')] at ht
      | jump hat' ht => rw [← Option.some.inj (hinst.symm.trans hat'), hj] at ht; cases ht
    obtain ⟨e', he', rfl, hprec⟩ := h.fall he hterm hn
    refine ⟨⟨e'.site, execLines E.sym (added e.before e.after) s⟩, ?_, e', he',
      hflow.tail (.fall hat hterm hn), rfl, rfl, ?_, ?_, hdata, hstands.spares.trans hspares⟩
    · obtain ⟨hrun, -⟩ := h.steps (E := E) he (V := []) (by rw [List.append_nil]; exact hcode) hstraight s
      rwa [hprec.site, h.end_site he hcode]
    · rw [hprec.st, htop]
    · exact ⟨hglobals.trans hstands.sized.globals, hlocals.trans hstands.sized.locals⟩
  | @jump o t d hat =>
    simp only at hheight hoffset
    subst hoffset
    have hi : e.inst = .jump t := Option.some.inj (hinst.symm.trans hat)
    have hj : e.inst.jumpTarget = some t := by rw [hi]; rfl
    obtain ⟨e', he', rfl, hq⟩ := h.jump_site hm he hj
    have hsucc : m.Succ e.offset e'.offset := .jump hinst hj
    have htop : e.after.st.top = e.before.st.top := by
      rw [(emitCode_ok hemit).height, hi]
      rfl
    refine ⟨⟨e'.site, s⟩, ?_, e', he', hflow.tail hsucc, rfl, rfl, ?_, hstands.sized, hstands.data,
      hstands.spares⟩
    · rw [hi] at hemit
      cases emitCode_body hemit rfl nofun with
      | jump t' T ht hT =>
        cases ht
        obtain ⟨hrun, hat⟩ := h.steps (E := E) he (U := []) hT (fun _ h => by cases h) s
        exact hrun.tail (.jump hat.head hq)
      | straight T _ _ ht _ => cases ht
      | branch t' eq a b T U _ ht => cases ht
      | call x callee argc opt T _ _ _ _ _ _ _ hcall => cases hcall
    · rw [h.height_succ he he' hsucc, htop, hheight]
  | @taken o t zero d v vs hat hstack hzero =>
    simp only at hheight hoffset
    subst hoffset
    have hi : e.inst = .conditionalJump t zero := Option.some.inj (hinst.symm.trans hat)
    have hj : e.inst.jumpTarget = some t := by rw [hi]; rfl
    obtain ⟨e', he', rfl, hq⟩ := h.jump_site hm he hj
    have hsucc : m.Succ e.offset e'.offset := .jump hinst hj
    obtain ⟨p, s', r, T, hrun, hat, -, -, -, hzero', htop, hdata, hspares⟩ :=
      h.to_branch (E := E) hk he hstands hi hstack
    refine ⟨⟨e'.site, s'⟩, hrun.tail (.taken hat.head hq (hzero'.trans hzero)), e', he',
      hflow.tail hsucc, rfl, rfl, ?_, ⟨hstands.sized.globals, hstands.sized.locals⟩, hdata, hspares⟩
    rw [h.height_succ he he' hsucc, htop]
  | @skipped o n t zero d v vs hat hstack hzero hn =>
    simp only at hheight hoffset
    subst hoffset
    have hi : e.inst = .conditionalJump t zero := Option.some.inj (hinst.symm.trans hat)
    have hterm : e.inst.isTerminator = false := by rw [hi]; rfl
    obtain ⟨e', he', rfl, hprec⟩ := h.fall he hterm hn
    obtain ⟨p, s', r, T, hrun, hat, hstraight, hnop, hend, hzero', htop, hdata, hspares⟩ :=
      h.to_branch (E := E) hk he hstands hi hstack
    refine ⟨⟨e'.site, s'⟩, ?_, e', he', hflow.tail (.fall hinst hterm hn), rfl, rfl, ?_,
      ⟨hstands.sized.globals, hstands.sized.locals⟩, hdata, hspares⟩
    · have hskip : Step E c.cb ⟨p, s'⟩ ⟨p + 1, s'⟩ := .skipped hat.head (hzero' ▸ hzero)
      have hrest := Steps.lines (E := E) (s := s') hat.tail hstraight
      rw [hnop, hend, ← hprec.site] at hrest
      exact (hrun.tail hskip).trans_left hrest
    · rw [hprec.st, htop]

/-- **Runs.**  Whatever the machine comes to, from the data that the state has, the code comes to. -/
theorem simulates_run (h : Completes m log c) (hm : m.Linked) (hk : k ≤ 8) {o : ℕ} {d : Data} {x : ℕ × Data}
    (hareas : Areas base frame gc lc) (hregs : InRegisters m log k o) (he : e ∈ log)
    (hstands : Stands k base frame gc lc s e (o, d) s) (hrun : Relation.ReflTransGen (Machine m) (o, d) x) :
    ∃ e' ∈ log, ∃ s', Steps E c.cb ⟨e.site, s⟩ ⟨e'.site, s'⟩ ∧ Stands k base frame gc lc s e' x s' := by
  have hstart : Represents m log k base frame gc lc o s (o, d) ⟨e.site, s⟩ :=
    ⟨e, he, by rw [hstands.offset]; exact .refl, rfl, hstands⟩
  obtain ⟨⟨-, s'⟩, hsteps, e', he', -, rfl, hstands'⟩ :=
    (h.simulates (E := E) hm hk hareas hregs).run hstart hrun
  exact ⟨e', he', s', hsteps, hstands'⟩

/-- The code runs forever when the machine does. -/
theorem simulates_forever (h : Completes m log c) (hm : m.Linked) (hk : k ≤ 8) {o : ℕ} {d : Data}
    (hareas : Areas base frame gc lc) (hregs : InRegisters m log k o) (he : e ∈ log)
    (hstands : Stands k base frame gc lc s e (o, d) s) (hrun : Forever (Machine m) (o, d)) :
    Forever (Step E c.cb) ⟨e.site, s⟩ := by
  have hstart : Represents m log k base frame gc lc o s (o, d) ⟨e.site, s⟩ :=
    ⟨e, he, by rw [hstands.offset]; exact .refl, rfl, hstands⟩
  exact (h.simulates (E := E) hm hk hareas hregs).forever hstart hrun

end Runs

/-! ### A program that loops -/

/-- A program that puts one into a local, and loops for as long as the local is not zero. -/
def spin : Module where
  filename := "spin.bc"
  instructions := ⟨[(0, .beginInst (.inl "main") 2 1), (9, .const 3), (14, .store ⟨.localVar, 0⟩),
    (19, .drop), (20, .load ⟨.localVar, 0⟩), (25, .conditionalJump 20 false),
    (30, .load ⟨.localVar, 0⟩), (35, .endInst)], by decide⟩
  strings := []
  globalAreaSize := 0
  publicSymbols := [("main", 0)]

theorem spin_mem {o : ℕ} {i : Instruction} (h : spin.instructions.at? o = some i) :
    (o = 0 ∧ i = .beginInst (.inl "main") 2 1) ∨ (o = 9 ∧ i = .const 3) ∨
      (o = 14 ∧ i = .store ⟨.localVar, 0⟩) ∨ (o = 19 ∧ i = .drop) ∨
      (o = 20 ∧ i = .load ⟨.localVar, 0⟩) ∨ (o = 25 ∧ i = .conditionalJump 20 false) ∨
      (o = 30 ∧ i = .load ⟨.localVar, 0⟩) ∨ (o = 35 ∧ i = .endInst) := by
  simpa [spin] using InstMap.mem_of_at? h

theorem spin_linked : spin.Linked where
  targets := by
    intro o i t hat ht
    rcases spin_mem hat with ⟨-, rfl⟩ | ⟨-, rfl⟩ | ⟨-, rfl⟩ | ⟨-, rfl⟩ | ⟨-, rfl⟩ | ⟨-, rfl⟩ |
      ⟨-, rfl⟩ | ⟨-, rfl⟩ <;> rcases ht with ht | ht <;> cases ht
    exact ⟨_, rfl⟩
  publics := by
    intro name o hs
    obtain ⟨rfl, rfl⟩ := Prod.mk.inj (List.mem_singleton.1 hs)
    exact ⟨2, 1, rfl⟩
  names := by
    intro name o argc locc hat
    have hmem := InstMap.mem_of_at? hat
    simp [spin] at hmem
    simp [spin, hmem]
  distinct := List.nodup_singleton _
  fresh := by
    intro s hs
    rw [List.mem_singleton.1 hs]
    exact ⟨by decide, fun o => (labelForIp_ne_main o).symm, fun o => (closure_ne_main _).symm⟩

/-- The heights at which the instructions are compiled. -/
def spinHeights : List (ℕ × ℕ) := [(9, 1), (14, 2), (19, 2), (20, 1), (25, 2), (30, 1), (35, 2)]

theorem spin_completes : ∃ log c, Completes spin log c ∧
    ∀ p ∈ spinHeights, c.done.lookup p.1 = some p.2 := by
  have hemits : ∃ c, Emits spin c ∧ ∀ p ∈ spinHeights, c.done.lookup p.1 = some p.2 :=
    ⟨_, ⟨⟨_, rfl, .single (@Round.chunk _ _ 0 0 _ rfl rfl rfl)⟩, rfl⟩, by decide +kernel⟩
  obtain ⟨c, hc, hdone⟩ := hemits
  obtain ⟨log, hlog⟩ := emits_iff.1 hc
  exact ⟨log, c, hlog, hdone⟩

/-- Control does not come back to the `BEGIN`. -/
theorem spin_flow {o : ℕ} (h : spin.Flow 9 o) : o ≠ 0 := by
  induction h with
  | refl => decide
  | tail _ hs _ =>
    cases hs with
    | fall hat ht hn =>
      rcases spin_mem hat with ⟨rfl, rfl⟩ | ⟨rfl, rfl⟩ | ⟨rfl, rfl⟩ | ⟨rfl, rfl⟩ | ⟨rfl, rfl⟩ |
        ⟨rfl, rfl⟩ | ⟨rfl, rfl⟩ | ⟨rfl, rfl⟩ <;> cases hn <;> decide
    | jump hat ht =>
      rcases spin_mem hat with ⟨rfl, rfl⟩ | ⟨rfl, rfl⟩ | ⟨rfl, rfl⟩ | ⟨rfl, rfl⟩ | ⟨rfl, rfl⟩ |
        ⟨rfl, rfl⟩ | ⟨rfl, rfl⟩ | ⟨rfl, rfl⟩ <;> cases ht
      decide

theorem spin_inRegisters {log : List Emission} {c : Compiler} (h : Completes spin log c)
    (hdone : ∀ p ∈ spinHeights, c.done.lookup p.1 = some p.2) : InRegisters spin log 8 9 := by
  intro e he hflow
  have hbefore := h.1.heightInv.before e he
  have htop (n : ℕ) (hp : (e.offset, n) ∈ spinHeights) : e.before.st.top = n := by
    rw [hdone _ hp] at hbefore
    exact (Option.some.inj hbefore).symm
  rw [(emitCode_ok (h.1.siteInv.code e he)).height]
  rcases spin_mem (h.1.heightInv.inst e he) with ⟨ho, hi⟩ | ⟨ho, hi⟩ | ⟨ho, hi⟩ | ⟨ho, hi⟩ | ⟨ho, hi⟩ |
    ⟨ho, hi⟩ | ⟨ho, hi⟩ | ⟨ho, hi⟩
  · exact absurd ho (spin_flow hflow)
  · rw [hi, htop 1 (by rw [ho]; decide)]
    exact ⟨by decide, .inl ⟨1, by decide, by decide, rfl⟩⟩
  · rw [hi, htop 2 (by rw [ho]; decide)]
    exact ⟨by decide, .inl (.inr rfl)⟩
  · rw [hi, htop 2 (by rw [ho]; decide)]
    exact ⟨by decide, .inl trivial⟩
  · rw [hi, htop 1 (by rw [ho]; decide)]
    exact ⟨by decide, .inl (.inr (.inl rfl))⟩
  · rw [hi, htop 2 (by rw [ho]; decide)]
    exact ⟨by decide, .inl trivial⟩
  · rw [hi, htop 1 (by rw [ho]; decide)]
    exact ⟨by decide, .inl (.inr (.inl rfl))⟩
  · rw [hi, htop 2 (by rw [ho]; decide)]
    exact ⟨by decide, .inr (.inr rfl)⟩

/-- A state in which every register has the word of zero. -/
def zeros : State := ⟨fun _ => tagged 0, fun _ => 0⟩

theorem spin_stands {e : Emission} (ho : e.offset = 9) (hheight : e.before.st.top = 1) :
    Stands 8 (tagged 0) (tagged 0) 0 1 zeros e (9, ⟨[0], [], [none], []⟩) zeros where
  offset := ho
  height := hheight
  sized := ⟨rfl, rfl⟩
  data := ⟨by decide, rfl, rfl, rfl, by simp, fun i v h => by cases i <;> simp at h, by simp⟩
  spares := .refl

/-- One is put into the local. -/
theorem spin_enters :
    Relation.ReflTransGen (Machine spin) (9, ⟨[0], [], [none], []⟩) (20, ⟨[0], [], [some 1], []⟩) :=
  .head (.next rfl rfl rfl : Machine spin _ (14, ⟨[1, 0], [], [none], []⟩))
    (.head (.next rfl rfl rfl : Machine spin _ (19, ⟨[1, 0], [], [some 1], []⟩))
      (.single (.next rfl rfl rfl)))

/-- One round of the loop. -/
theorem spin_round : Machine spin (20, ⟨[0], [], [some 1], []⟩) (25, ⟨[1, 0], [], [some 1], []⟩) ∧
    Machine spin (25, ⟨[1, 0], [], [some 1], []⟩) (20, ⟨[0], [], [some 1], []⟩) :=
  ⟨.next rfl rfl rfl, .taken rfl rfl rfl⟩

theorem spin_areas : Areas (tagged 0) (tagged 0) 0 1 := ⟨by decide, by decide, by simp⟩

/-- The emission at which the function body begins. -/
theorem spin_body {log : List Emission} {c : Compiler} (h : Completes spin log c)
    (hdone : ∀ p ∈ spinHeights, c.done.lookup p.1 = some p.2) :
    ∃ e ∈ log, e.offset = 9 ∧ e.before.st.top = 1 := by
  have h9 := hdone (9, 1) (by decide)
  obtain ⟨e, he, ho⟩ := (h.1.reachInv.done 9).1 (AList.lookup_isSome.1 (by rw [h9]; rfl))
  have hheight := h.1.heightInv.before e he
  rw [ho, h9] at hheight
  exact ⟨e, he, ho, (Option.some.inj hheight).symm⟩

/-- The local is written, loaded, and tested by the branch of the loop, which is taken. -/
theorem simulates_run_spin : ∃ log c, Completes spin log c ∧ ∃ e ∈ log, ∃ e' ∈ log, ∃ s',
    Steps ⟨fun _ => 0, fun _ => 0, fun _ _ _ => False⟩ c.cb ⟨e.site, zeros⟩ ⟨e'.site, s'⟩ ∧
      Stands 8 (tagged 0) (tagged 0) 0 1 zeros e' (20, ⟨[0], [], [some 1], []⟩) s' := by
  obtain ⟨log, c, h, hdone⟩ := spin_completes
  obtain ⟨e, he, ho, hheight⟩ := spin_body h hdone
  exact ⟨log, c, h, e, he, simulates_run h spin_linked le_rfl spin_areas (spin_inRegisters h hdone) he
    (spin_stands ho hheight) ((spin_enters.tail spin_round.1).tail spin_round.2)⟩

theorem simulates_forever_spin : ∃ log c, Completes spin log c ∧ ∃ e ∈ log,
    Forever (Step ⟨fun _ => 0, fun _ => 0, fun _ _ _ => False⟩ c.cb) ⟨e.site, zeros⟩ := by
  obtain ⟨log, c, h, hdone⟩ := spin_completes
  obtain ⟨e, he, ho, hheight⟩ := spin_body h hdone
  have hloop : Forever (Machine spin) (20, ⟨[0], [], [some 1], []⟩) := by
    refine Forever.of_step (P := fun x => x = (20, ⟨[0], [], [some 1], []⟩) ∨
      x = (25, ⟨[1, 0], [], [some 1], []⟩)) ?_ (.inl rfl)
    rintro x (rfl | rfl)
    · exact ⟨_, spin_round.1, .inr rfl⟩
    · exact ⟨_, spin_round.2, .inl rfl⟩
  exact ⟨log, c, h, e, he, simulates_forever h spin_linked le_rfl spin_areas
    (spin_inRegisters h hdone) he (spin_stands ho hheight) (.head spin_enters hloop)⟩

end LamaRv
