import LamaRv.Compiler.EmitSpec
import LamaRv.Lib.Rv64Stack

/-!
# Executing a call

What the lines of `compile_call` do to the registers and the memory, for every height of the
symbolic stack and every number of arguments.

* `Loc.value`: what a symbolic location holds;
* `exec_callBefore`: the state in which the function is called;
* `exec_callAfter`: the state after the lines that follow the call.
-/

namespace LamaRv

open ByteMemory Rv64 CodeBuffer Compiler

/-- The value of a symbolic location. -/
def Loc.value (s : State) : Loc → Word
  | .register r => s.get r
  | .memory k => s.load (s.get Register.sp + BitVec.ofInt 64 (toInt (-k * wordSize)))

/-- The register of an argument. -/
def argReg (i : ℕ) : Reg := Fin.ofNat 32 (10 + i)

/-- The registers that a call saves, in the order in which it stores them. -/
def savedRegs : List Reg := Register.ra :: (Register.temp ++ Register.args)

theorem savedRegs_length : savedRegs.length = 16 := rfl

variable (sym : String → Word)

/-! ### Registers -/

theorem arg_ok {i : ℕ} {r : Reg} (h : Register.arg i = .ok r) : i < 8 ∧ r = argReg i := by
  unfold Register.arg at h
  split_ifs at h with hi
  cases h
  exact ⟨hi, rfl⟩

theorem argReg_mem {i : ℕ} (h : i < 8) : argReg i ∈ Register.args := by
  revert i
  decide

theorem argReg_inj : ∀ i < 8, ∀ j < 8, argReg i = argReg j → i = j := by
  decide

theorem args_avoid : ∀ r ∈ Register.args, r ≠ 0 ∧ r ≠ Register.sp ∧ r ≠ Register.temp1 ∧
    r ≠ Register.temp2 ∧ r ∉ regs := by
  decide

@[simp] theorem get_spReg_set_sp (s : State) (v : Word) : (s.set Register.sp v).get spReg = v :=
  State.get_set_self _ _ (by decide)

/-- A location depends on the slot registers, `sp` and the memory. -/
theorem loc_value_congr {s s' : State} (hmem : s'.mem = s.mem)
    (hsp : s'.get Register.sp = s.get Register.sp) (hregs : ∀ r ∈ regs, s'.get r = s.get r)
    (k : ℕ) : (SymbolicStack.loc k).value s' = (SymbolicStack.loc k).value s := by
  by_cases hk : k < 15
  · rw [loc_of_lt hk]
    exact hregs _ (slotReg_mem hk)
  · rw [loc_of_ge (by omega)]
    simp only [Loc.value, hsp, State.load, hmem]

/-- `toReg` loads a location into a register. -/
theorem exec_toReg (l : Loc) {t : Reg} (ht : t ≠ 0) (s : State) :
    (execLines sym (toReg l t).1 s).mem = s.mem ∧
    (∀ r, r ≠ t → (execLines sym (toReg l t).1 s).get r = s.get r) ∧
    (execLines sym (toReg l t).1 s).get (toReg l t).2 = l.value s := by
  cases l with
  | register r => exact ⟨rfl, fun _ _ => rfl, rfl⟩
  | memory k =>
    refine ⟨by simp [toReg, emitLd, Op.exec], fun r hr => ?_, ?_⟩
    · simp [toReg, emitLd, Op.exec, State.get_set_of_ne _ _ hr]
    · simp [toReg, emitLd, Op.exec, Loc.value, State.get_set_self _ _ ht]

/-! ### Saving -/

theorem toInt_neg_wordSize : toInt (-wordSize) = -8 :=
  toInt_of_mem (by simp [wordSize]) (by simp [wordSize])

theorem toInt_wordSize : toInt wordSize = 8 :=
  toInt_of_mem (by simp [wordSize]) (by simp [wordSize])

/-- Some words down, as an immediate. -/
theorem add_toInt_neg (a : Word) {k : ℕ} (h : k < 2 ^ 28) :
    a + BitVec.ofInt 64 (toInt (-k * wordSize)) = below a k := by
  rw [toInt_of_mem (by unfold wordSize; omega) (by unfold wordSize; omega)]
  unfold below wordSize
  rw [BitVec.sub_eq_add_neg, ← BitVec.ofInt_natCast, ← BitVec.ofInt_neg]
  congr 2
  push_cast
  ring

/-- Some words up, as an immediate. -/
theorem add_toInt (a : Word) {k : ℕ} (h : k < 2 ^ 28) :
    a + BitVec.ofInt 64 (toInt (k * wordSize)) = a + BitVec.ofNat 64 (8 * k) := by
  rw [toInt_of_mem (by unfold wordSize; omega) (by unfold wordSize; omega)]
  unfold wordSize
  rw [← BitVec.ofInt_natCast]
  congr 2
  push_cast
  ring

/-- One word down. -/
theorem add_neg_eight (a : Word) : a + BitVec.ofInt 64 (-8) = below a 1 := by
  unfold below
  rw [BitVec.sub_eq_add_neg]
  rfl

theorem exec_pushReg (r : Reg) (s : State) : execLines sym (pushReg r) s = s.push (s.get r) := by
  simp only [pushReg, emitSd, emitAddi, emitIType, execLines_append, execLines_cons, execLines_nil,
    Line.exec_op, Op.exec, IType.eval, toInt_neg_wordSize]
  rw [State.get_store, add_neg_eight]
  simp only [State.push, Register.sp, spReg]

theorem exec_pushRegs (rs : List Reg) (h : Register.sp ∉ rs) (s : State) :
    execLines sym (rs.flatMap pushReg) s = s.pushes (rs.map s.get) := by
  induction rs generalizing s with
  | nil => rfl
  | cons r rs ih =>
    simp only [List.mem_cons, not_or] at h
    rw [List.flatMap_cons, execLines_append, exec_pushReg, ih h.2, List.map_cons,
      State.pushes_cons]
    congr 1
    refine List.map_congr_left fun q hq => ?_
    exact State.get_push_of_ne _ _ (fun hsp => h.2 (by rw [← show q = Register.sp from hsp]; exact hq))

/-- The address from which a call saves: below the spilled words. -/
def saveBase (s : State) (spilled : ℕ) : Word :=
  s.get Register.sp + BitVec.ofInt 64 (toInt (-spilled * wordSize))

/-- The state after the saves. -/
def savedState (s : State) (spilled : ℕ) : State :=
  (s.set Register.sp (saveBase s spilled)).pushes (savedRegs.map s.get)

theorem savedState_sp (s : State) (spilled : ℕ) :
    (savedState s spilled).get Register.sp = below (saveBase s spilled) 16 := by
  have h := State.get_sp_pushes (s.set Register.sp (saveBase s spilled)) (savedRegs.map s.get)
  rwa [get_spReg_set_sp, List.length_map, savedRegs_length] at h

theorem savedState_get {r : Reg} (s : State) (spilled : ℕ) (h : r ≠ Register.sp) :
    (savedState s spilled).get r = s.get r := by
  unfold savedState
  rw [State.get_pushes_of_ne _ _ h, State.get_set_of_ne _ _ h]

/-- The saved registers are in the words below the base. -/
theorem savedState_load {j : ℕ} (s : State) (spilled : ℕ) (h : j < savedRegs.length) :
    (savedState s spilled).load (below (saveBase s spilled) (j + 1)) = s.get savedRegs[j] := by
  have hload := State.load_pushes (j := j) (s.set Register.sp (saveBase s spilled))
    (savedRegs.map s.get) (by rw [List.length_map, savedRegs_length]; omega)
    (by rwa [List.length_map])
  rw [get_spReg_set_sp] at hload
  unfold savedState
  rw [hload, List.getElem_map]

theorem exec_saveCaller (spilled : ℕ) (s : State) :
    execLines sym (saveCaller spilled) s = savedState s spilled := by
  have hsaved : saveCaller spilled = emitAddi Register.sp Register.sp (-spilled * wordSize) ++
      savedRegs.flatMap pushReg := by
    simp [saveCaller, savedRegs, List.flatMap_append]
  have hsp : Register.sp ∉ savedRegs := by decide
  rw [hsaved, execLines_append, exec_pushRegs sym _ hsp]
  have hset : execLines sym (emitAddi Register.sp Register.sp (-spilled * wordSize)) s =
      s.set Register.sp (saveBase s spilled) := by
    simp only [emitAddi, emitIType, execLines_cons, execLines_nil, Line.exec_op, Op.exec,
      IType.eval, saveBase]
  rw [hset, savedState]
  congr 1

/-! ### Arguments -/

theorem exec_placeArgs {is : List ℕ} {st st' : SymbolicStack} {T : List Line}
    (h : placeArgs is st = .ok (T, st')) (hlt : ∀ i ∈ is, i < 8) (hnodup : is.Nodup) (s : State) :
    (execLines sym T s).mem = s.mem ∧
    (∀ r, r ∉ is.map argReg → r ≠ Register.temp2 → (execLines sym T s).get r = s.get r) ∧
    ∀ j (hj : j < is.length), (execLines sym T s).get (argReg is[j]) =
      (SymbolicStack.loc (st.top - 1 - j)).value s := by
  induction is generalizing st T s with
  | nil =>
    cases h
    simp
  | cons i is ih =>
    simp only [placeArgs, bind_ok, return_ok, Prod.exists] at h
    obtain ⟨r, harg, l, st₁, hpop, T₁, st₂, hrec, h⟩ := h
    cases h
    obtain ⟨hi, rfl⟩ := arg_ok harg
    obtain ⟨hpos, rfl, rfl⟩ := SymbolicStack.pop_ok hpop
    obtain ⟨hne0, hnesp, -, hnet, hnregs⟩ := args_avoid _ (argReg_mem hi)
    rw [List.nodup_cons] at hnodup
    -- the move of this argument
    obtain ⟨hmem, hother, hval⟩ := exec_toReg sym (SymbolicStack.loc (st.top - 1))
      (show Register.temp2 ≠ 0 by decide) s
    have hmove : ∀ q, q ≠ argReg i → q ≠ Register.temp2 →
        (execLines sym (symbEmitMvToReg (argReg i) (SymbolicStack.loc (st.top - 1))) s).get q =
          s.get q := by
      intro q hq hq'
      simp only [symbEmitMvToReg, execLines_append, execLines_cons, execLines_nil, Line.exec_op,
        Op.exec, State.get_set_of_ne _ _ hq]
      exact hother q hq'
    have hmoved : (execLines sym (symbEmitMvToReg (argReg i) (SymbolicStack.loc (st.top - 1)))
        s).get (argReg i) = (SymbolicStack.loc (st.top - 1)).value s := by
      simp only [symbEmitMvToReg, execLines_append, execLines_cons, execLines_nil, Line.exec_op,
        Op.exec, State.get_set_self _ _ hne0]
      exact hval
    have hmovemem : (execLines sym (symbEmitMvToReg (argReg i) (SymbolicStack.loc (st.top - 1)))
        s).mem = s.mem := by
      simp only [symbEmitMvToReg, execLines_append, execLines_cons, execLines_nil, Line.exec_op,
        Op.exec, State.mem_set]
      exact hmem
    obtain ⟨hmem', hother', hval'⟩ := ih hrec (fun i' hi' => hlt i' (List.mem_cons_of_mem _ hi'))
      hnodup.2
      (execLines sym (symbEmitMvToReg (argReg i) (SymbolicStack.loc (st.top - 1))) s)
    have hfar : ∀ r ∈ regs, r ≠ argReg i ∧ r ≠ Register.temp2 := fun r hr =>
      ⟨fun heq => hnregs (heq ▸ hr), (regs_avoid r hr).2.2.2.2.2.2.1⟩
    simp only [execLines_append]
    refine ⟨hmem'.trans hmovemem, ?_, ?_⟩
    · intro q hq hq'
      simp only [List.map_cons, List.mem_cons, not_or] at hq
      rw [hother' q hq.2 hq', hmove q hq.1 hq']
    · intro j hj
      cases j with
      | zero =>
        have hnot : argReg i ∉ is.map argReg := by
          intro hmem
          obtain ⟨i', hi', heq⟩ := List.mem_map.1 hmem
          exact hnodup.1 (argReg_inj _ (hlt _ (List.mem_cons_of_mem _ hi')) _ hi heq ▸ hi')
        rw [List.getElem_cons_zero, hother' _ hnot hnet, hmoved, Nat.sub_zero]
      | succ j =>
        rw [List.getElem_cons_succ, hval' j (by simpa using hj), loc_value_congr hmovemem
          (hmove _ (Ne.symm hnesp) (by decide)) (fun r hr => hmove r (hfar r hr).1 (hfar r hr).2)]
        congr 2
        simp only
        omega

/-- The words that the argument words of a call are read from are pushed; what `t5` holds does
not matter. -/
theorem exec_pushArgs {n : ℕ} {st st' : SymbolicStack} {T : List Line}
    (h : pushArgs n st = .ok (T, st')) (s : State) :
    ∃ vs : List Word, vs.length = n ∧ (execLines sym T s).mem = (s.pushes vs).mem ∧
      (∀ r, r ≠ Register.temp1 → (execLines sym T s).get r = (s.pushes vs).get r) ∧
      (st.top ≤ 15 → vs = (List.range n).map fun j => s.get (slotReg (st.top - 1 - j))) := by
  induction n generalizing st T s with
  | zero =>
    cases h
    exact ⟨[], rfl, rfl, fun _ _ => rfl, fun _ => rfl⟩
  | succ n ih =>
    simp only [pushArgs, bind_ok, return_ok, Prod.exists] at h
    obtain ⟨l, st₁, hpop, T₁, st₂, hrec, h⟩ := h
    cases h
    obtain ⟨hpos, rfl, rfl⟩ := SymbolicStack.pop_ok hpop
    obtain ⟨hmem, hother, hval⟩ := exec_toReg sym (SymbolicStack.loc (st.top - 1))
      (show Register.temp1 ≠ 0 by decide) s
    obtain ⟨vs, hlen, hmem', hother', hvs⟩ := ih hrec
      ((execLines sym (toReg (SymbolicStack.loc (st.top - 1)) Register.temp1).1 s).push
        ((SymbolicStack.loc (st.top - 1)).value s))
    have hexec : execLines sym ((toReg (SymbolicStack.loc (st.top - 1)) Register.temp1).1 ++
        pushReg (toReg (SymbolicStack.loc (st.top - 1)) Register.temp1).2 ++ T₁) s =
        execLines sym T₁
          ((execLines sym (toReg (SymbolicStack.loc (st.top - 1)) Register.temp1).1 s).push
            ((SymbolicStack.loc (st.top - 1)).value s)) := by
      rw [execLines_append, execLines_append, exec_pushReg, hval]
    refine ⟨(SymbolicStack.loc (st.top - 1)).value s :: vs, by rw [List.length_cons, hlen], ?_, ?_, ?_⟩
    · rw [hexec, hmem', State.pushes_cons]
      refine State.mem_pushes_congr ?_ ?_ vs
      · rw [State.mem_push, State.mem_push, hmem, hother _ (by decide)]
      · rw [State.get_sp_push, State.get_sp_push, hother _ (by decide)]
    · intro r hr
      rw [hexec, hother' r hr]
      by_cases hsp : r = spReg
      · subst hsp
        rw [State.get_sp_pushes, State.get_sp_pushes, State.get_sp_push, hother _ hr, below_below,
          List.length_cons, Nat.add_comm]
      · rw [State.get_pushes_of_ne _ _ hsp, State.get_pushes_of_ne _ _ hsp,
          State.get_push_of_ne _ _ hsp, hother _ hr]
    · intro htop
      have hhead : (SymbolicStack.loc (st.top - 1)).value s = s.get (slotReg (st.top - 1)) := by
        rw [loc_of_lt (by omega)]
        rfl
      rw [hvs (by simp only; omega), List.range_succ_eq_map, List.map_cons, List.map_map]
      refine congrArg₂ List.cons hhead (List.map_congr_left fun j hj => ?_)
      have hk : st.top - 1 - 1 - j = st.top - 1 - (j + 1) := by omega
      obtain ⟨-, -, hsp, -, -, ht, -⟩ := regs_avoid _ (slotReg_mem (k := st.top - 1 - (j + 1)) (by omega))
      show State.get _ (slotReg (st.top - 1 - 1 - j)) = s.get (slotReg (st.top - 1 - (j + 1)))
      rw [hk, State.get_push_of_ne _ _ hsp, hother _ ht]

/-! ### The state in which the function is called -/

/-- Moving `sp` by one word for the alignment. -/
theorem exec_align (alignment : Bool) (s : State) :
    execLines sym (if alignment then emitAddi Register.sp Register.sp (-wordSize) else []) s =
      s.set Register.sp (below (s.get Register.sp) (if alignment then 1 else 0)) := by
  cases alignment with
  | true =>
    simp only [if_true, emitAddi, emitIType, execLines_cons, execLines_nil, Line.exec_op, Op.exec,
      IType.eval, toInt_neg_wordSize]
    rw [add_neg_eight]
  | false =>
    simp only [Bool.false_eq_true, if_false, execLines_nil, below_zero]
    exact (State.set_get _ _).symm

/-- The state `s'` in which a function is called from the state `s`: the symbolic stack is `st`,
`argc` words are popped from it, `optArg` comes before them. -/
structure CallEntry (st : SymbolicStack) (argc : ℕ) (optArg : Option ℤ) (alignment : Bool)
    (s s' : State) : Prop where
  sp : s'.get Register.sp = below (saveBase s st.spilledCount)
    (16 + (if alignment then 1 else 0) + (argc + optArg.toList.length - 8))
  other : ∀ r, r ∉ Register.args → r ≠ Register.sp → r ≠ Register.temp1 → r ≠ Register.temp2 →
    s'.get r = s.get r
  mem : ∃ vs : List Word, vs.length = argc + optArg.toList.length - 8 ∧
    s'.mem = (((savedState s st.spilledCount).set Register.sp
      (below (saveBase s st.spilledCount) (16 + (if alignment then 1 else 0)))).pushes vs).mem ∧
    (st.top ≤ 15 → vs = (List.range (argc + optArg.toList.length - 8)).map fun j =>
      s.get (slotReg (st.top - min argc (8 - optArg.toList.length) - 1 - j)))
  extra : ∀ imm ∈ optArg, s'.get (argReg 0) = BitVec.ofInt 64 (toInt imm)
  args : st.top ≤ 15 → ∀ i < min argc (8 - optArg.toList.length),
    s'.get (argReg (optArg.toList.length + i)) =
      s.get (slotReg (st.top - min argc (8 - optArg.toList.length) + i))

theorem slotReg_avoid {k : ℕ} (h : k < 15) : slotReg k ≠ Register.sp ∧ slotReg k ∉ Register.args ∧
    slotReg k ≠ Register.temp1 ∧ slotReg k ≠ Register.temp2 := by
  obtain ⟨-, -, hsp, -, -, ht1, ht2, hargs⟩ := regs_avoid _ (slotReg_mem h)
  exact ⟨hsp, hargs, ht1, ht2⟩

theorem argRegs_length (optArg : Option ℤ) (argc : ℕ) :
    (argRegs optArg.toList.length (argc + optArg.toList.length)).length =
      min argc (8 - optArg.toList.length) := by
  simp [argRegs]

theorem argRegs_getElem {e argc i : ℕ} (hi : i < min argc (8 - e))
    (hj : min argc (8 - e) - 1 - i < (argRegs e (argc + e)).length) :
    (argRegs e (argc + e))[min argc (8 - e) - 1 - i] = e + i := by
  simp only [argRegs, List.getElem_reverse, List.getElem_range', List.length_range']
  omega

theorem argRegs_bounds {optArg : Option ℤ} {argc : ℕ} :
    ∀ i ∈ argRegs optArg.toList.length (argc + optArg.toList.length),
      optArg.toList.length ≤ i ∧ i < 8 := by
  intro i hi
  simp only [argRegs, List.mem_reverse, List.mem_range'_1] at hi
  omega

theorem argRegs_nodup (optArg : Option ℤ) (argc : ℕ) :
    (argRegs optArg.toList.length (argc + optArg.toList.length)).Nodup :=
  List.nodup_reverse.2 List.nodup_range'

/-- The state after the saves and the extra argument. -/
theorem exec_extra (spilled : ℕ) (optArg : Option ℤ) (s : State) :
    ∃ t, execLines sym (saveCaller spilled ++ setExtra optArg) s = t ∧
      t.mem = (savedState s spilled).mem ∧
      (∀ r ∉ Register.args, t.get r = (savedState s spilled).get r) ∧
      ∀ imm ∈ optArg, t.get (argReg 0) = BitVec.ofInt 64 (toInt imm) := by
  refine ⟨_, rfl, ?_⟩
  rw [execLines_append, exec_saveCaller]
  cases optArg with
  | none => exact ⟨rfl, fun _ _ => rfl, by simp⟩
  | some imm =>
    simp only [setExtra, emitLi, execLines_cons, execLines_nil, Line.exec_op, Op.exec]
    refine ⟨by rw [State.mem_set], fun r hr => ?_, ?_⟩
    · exact State.get_set_of_ne _ _ fun h => hr (by rw [h]; decide)
    · rintro imm' ⟨⟩
      exact State.get_set_self _ _ (by decide)

/-- The lines before a call lead to the state in which the function is called. -/
theorem exec_callBefore {st st₁ st₂ : SymbolicStack} {argc : ℕ} {optArg : Option ℤ}
    {moves pushes : List Line} (alignment : Bool)
    (hplace : placeArgs (argRegs optArg.toList.length (argc + optArg.toList.length)) st =
      .ok (moves, st₁))
    (hpush : pushArgs (argc + optArg.toList.length - 8) st₁ = .ok (pushes, st₂)) (s : State) :
    CallEntry st argc optArg alignment s
      (execLines sym (callBefore st.spilledCount optArg alignment moves pushes) s) := by
  have hlen := argRegs_length optArg argc
  obtain ⟨hle, htop, -⟩ := placeArgs_ok hplace
  rw [hlen] at hle htop
  obtain ⟨t, ht, htmem, htother, htextra⟩ := exec_extra sym st.spilledCount optArg s
  obtain ⟨hmem₁, hother₁, hval₁⟩ := exec_placeArgs sym hplace
    (fun i hi => (argRegs_bounds i hi).2) (argRegs_nodup optArg argc) t
  obtain ⟨vs, hvlen, hmem₂, hother₂, hvs⟩ := exec_pushArgs sym hpush
    ((execLines sym moves t).set Register.sp
      (below ((execLines sym moves t).get Register.sp) (if alignment then 1 else 0)))
  have hexec : execLines sym (callBefore st.spilledCount optArg alignment moves pushes) s =
      execLines sym pushes ((execLines sym moves t).set Register.sp
        (below ((execLines sym moves t).get Register.sp) (if alignment then 1 else 0))) := by
    unfold callBefore
    rw [execLines_append, execLines_append, execLines_append, ht, exec_align]
  have hnotarg : ∀ r, r ∉ Register.args →
      r ∉ (argRegs optArg.toList.length (argc + optArg.toList.length)).map argReg := by
    intro r hr hmem
    obtain ⟨i, hi, rfl⟩ := List.mem_map.1 hmem
    exact hr (argReg_mem (argRegs_bounds i hi).2)
  have hsp : (execLines sym moves t).get Register.sp = below (saveBase s st.spilledCount) 16 := by
    rw [hother₁ _ (hnotarg _ (by decide)) (by decide), htother _ (by decide), savedState_sp]
  rw [hsp] at hexec hmem₂ hother₂ hvs
  have hslot : ∀ k < 15, (execLines sym moves t).get (slotReg k) = s.get (slotReg k) := by
    intro k hk
    obtain ⟨hsp', hargs, -, ht2⟩ := slotReg_avoid hk
    rw [hother₁ _ (hnotarg _ hargs) ht2, htother _ hargs, savedState_get _ _ hsp']
  have harg : ∀ i < 8, (execLines sym (callBefore st.spilledCount optArg alignment moves pushes)
      s).get (argReg i) = (execLines sym moves t).get (argReg i) := by
    intro i hi
    obtain ⟨-, hasp, hat1, -⟩ := args_avoid _ (argReg_mem hi)
    rw [hexec, hother₂ _ hat1, State.get_pushes_of_ne _ _ hasp, State.get_set_of_ne _ _ hasp]
  refine ⟨?_, ?_, ⟨vs, hvlen, ?_, ?_⟩, ?_, ?_⟩
  · rw [hexec, hother₂ _ (by decide)]
    refine (State.get_sp_pushes _ vs).trans ?_
    rw [hvlen, get_spReg_set_sp, below_below, below_below, Nat.add_assoc]
  · intro r hr hrsp hrt1 hrt2
    rw [hexec, hother₂ _ hrt1, State.get_pushes_of_ne _ _ hrsp, State.get_set_of_ne _ _ hrsp,
      hother₁ _ (hnotarg _ hr) hrt2, htother _ hr, savedState_get _ _ hrsp]
  · rw [hexec, hmem₂]
    refine State.mem_pushes_congr ?_ ?_ vs
    · rw [State.mem_set, State.mem_set, hmem₁, htmem]
    · rw [get_spReg_set_sp, get_spReg_set_sp, below_below]
  · intro hst
    rw [hvs (by omega)]
    refine List.map_congr_left fun j hj => ?_
    have hk : st₁.top - 1 - j < 15 := by omega
    rw [State.get_set_of_ne _ _ (slotReg_avoid hk).1, hslot _ hk, htop]
  · intro imm himm
    have he : optArg.toList.length = 1 := by
      cases optArg with
      | none => cases himm
      | some _ => rfl
    have hnot : argReg 0 ∉ (argRegs optArg.toList.length (argc + optArg.toList.length)).map argReg := by
      intro hmem
      obtain ⟨i, hi, heq⟩ := List.mem_map.1 hmem
      have hb := argRegs_bounds i hi
      have := argReg_inj i hb.2 0 (by omega) heq
      omega
    rw [harg 0 (by omega), hother₁ _ hnot (by decide), htextra imm himm]
  · intro hst i hi
    have hj : min argc (8 - optArg.toList.length) - 1 - i <
        (argRegs optArg.toList.length (argc + optArg.toList.length)).length := by
      rw [hlen]
      omega
    have hval := hval₁ _ hj
    rw [argRegs_getElem hi hj] at hval
    rw [harg _ (by omega), hval]
    have hk : st.top - 1 - (min argc (8 - optArg.toList.length) - 1 - i) =
        st.top - min argc (8 - optArg.toList.length) + i := by omega
    have hlt : st.top - min argc (8 - optArg.toList.length) + i < 15 := by omega
    obtain ⟨hsp', hargs, -, ht2⟩ := slotReg_avoid hlt
    rw [hk, loc_of_lt hlt]
    exact (htother _ hargs).trans (savedState_get _ _ hsp')

/-! ### After the call -/

/-- `sp` when the argument words and the alignment have been dropped; `total` counts the extra
argument. -/
def dropBase (total : ℕ) (alignment : Bool) (s : State) : Word :=
  s.get Register.sp +
    (if total > 8 then BitVec.ofInt 64 (toInt ((total - 8 : ℕ) * wordSize)) else 0) +
    (if alignment then 8 else 0)

theorem exec_drop (total : ℕ) (alignment : Bool) (s : State) :
    execLines sym
      ((if total > 8 then emitAddi Register.sp Register.sp ((total - 8 : ℕ) * wordSize) else []) ++
        (if alignment then emitAddi Register.sp Register.sp wordSize else [])) s =
      s.set Register.sp (dropBase total alignment s) := by
  have hadd : ∀ (t : State) (i : ℤ), execLines sym (emitAddi Register.sp Register.sp i) t =
      t.set Register.sp (t.get Register.sp + BitVec.ofInt 64 (toInt i)) := fun t i => by
    simp only [emitAddi, emitIType, execLines_cons, execLines_nil, Line.exec_op, Op.exec,
      IType.eval]
  have hsp : Register.sp ≠ 0 := by decide
  rw [execLines_append]
  unfold dropBase
  by_cases h : total > 8
  · cases alignment <;> simp [h, hadd, hsp, toInt_wordSize]
  · cases alignment <;> simp [h, hadd, toInt_wordSize]

/-- The state `s'` after the lines that follow a call which returned in the state `s`: `total`
counts the extra argument, the result goes to slot `n`, `spilled` words are spilled. -/
structure CallExit (total : ℕ) (alignment : Bool) (n spilled : ℕ) (s s' : State) : Prop where
  mem : s'.mem = s.mem
  sp : s'.get Register.sp = dropBase total alignment s + BitVec.ofNat 64 (8 * 16) +
    BitVec.ofInt 64 (toInt (spilled * wordSize))
  args : ∀ i < 8, s'.get (argReg (7 - i)) =
    s.load (dropBase total alignment s + BitVec.ofNat 64 (8 * i))
  temps : ∀ i (h : i < Register.temp.length), s'.get Register.temp[i] =
    s.load (below (dropBase total alignment s + BitVec.ofNat 64 (8 * 16)) (i + 2))
  ra : s'.get Register.ra =
    s.load (below (dropBase total alignment s + BitVec.ofNat 64 (8 * 16)) 1)
  other : ∀ r, r ∉ savedRegs → r ≠ Register.sp →
    s'.get r = if SymbolicStack.loc n = .register r then s.get 10 else s.get r

theorem exec_result (n : ℕ) (s : State) :
    (execLines sym (symbEmitMvFromReg (SymbolicStack.loc n) 10) s).mem = s.mem ∧
    (execLines sym (symbEmitMvFromReg (SymbolicStack.loc n) 10) s).get Register.sp =
      s.get Register.sp ∧
    ∀ r, r ∉ savedRegs → (execLines sym (symbEmitMvFromReg (SymbolicStack.loc n) 10) s).get r =
      if SymbolicStack.loc n = .register r then s.get 10 else s.get r := by
  by_cases hn : n < 15
  · rw [loc_of_lt hn]
    obtain ⟨h0, -, hsp, -⟩ := regs_avoid _ (slotReg_mem hn)
    simp only [symbEmitMvFromReg, toReg, List.nil_append, execLines_cons, execLines_nil,
      Line.exec_op, Op.exec]
    refine ⟨State.mem_set _ _ _, State.get_set_of_ne _ _ (Ne.symm hsp), fun r _ => ?_⟩
    by_cases hr : slotReg n = r
    · subst hr
      rw [if_pos rfl, State.get_set_self _ _ h0]
    · rw [if_neg (fun h => hr (Loc.register.inj h)), State.get_set_of_ne _ _ (Ne.symm hr)]
  · rw [loc_of_ge (by omega)]
    obtain ⟨hmem, hother, -⟩ := exec_toReg sym (.memory (n - 15))
      (show Register.temp2 ≠ 0 by decide) s
    have h2 : ∀ r, r ≠ Register.temp2 → (execLines sym (symbEmitMvFromReg (.memory (n - 15)) 10)
        s).get r = s.get r := by
      intro r hr
      simp only [symbEmitMvFromReg, toReg, execLines_append, execLines_cons, execLines_nil,
        Line.exec_op, Op.exec] at hother ⊢
      rw [State.get_set_of_ne _ _ hr]
      exact hother r hr
    refine ⟨?_, h2 _ (by decide), fun r hr => ?_⟩
    · simp only [symbEmitMvFromReg, toReg, execLines_append, execLines_cons, execLines_nil,
        Line.exec_op, Op.exec, State.mem_set] at hmem ⊢
      exact hmem
    · rw [if_neg (by simp), h2]
      intro h
      rw [h] at hr
      exact hr (by decide)

/-- Restoring the argument registers. -/
theorem exec_restoreArgs (s : State) (T : List Line)
    (hT : T = Register.args.reverse.flatMap fun r =>
      emitLd r Register.sp 0 ++ emitAddi Register.sp Register.sp wordSize) :
    (execLines sym T s).mem = s.mem ∧
    (execLines sym T s).get Register.sp = s.get Register.sp + BitVec.ofNat 64 (8 * 8) ∧
    (∀ r, r ∉ Register.args → r ≠ Register.sp → (execLines sym T s).get r = s.get r) ∧
    ∀ i < 8, (execLines sym T s).get (argReg (7 - i)) =
      s.load (s.get Register.sp + BitVec.ofNat 64 (8 * i)) := by
  have h0 : toInt 0 = 0 := toInt_of_mem (by omega) (by omega)
  have hT' : T = Register.args.reverse.flatMap fun r =>
      [.op (.ld r spReg 0), .op (.itype .addi spReg spReg 8)] := by
    rw [hT]
    simp only [emitLd, emitAddi, emitIType, h0, toInt_wordSize]
    rfl
  obtain ⟨hmem, hsp, hother, hloaded⟩ := @exec_pops sym Register.args.reverse s (by decide)
    (by decide) (by decide)
  rw [← hT'] at hmem hsp hother hloaded
  refine ⟨hmem, hsp, fun r hr hrsp => hother r (by simpa using hr) hrsp, fun i hi => ?_⟩
  have hget : ∀ i (h : i < 8), Register.args.reverse.get ⟨i, h⟩ = argReg (7 - i) := by decide
  rw [← hget i hi]
  exact hloaded i hi

/-- Restoring registers from consecutive words below `sp`, the first one `e + 1` words down. -/
theorem exec_restoreBelow (rs : List Reg) (e : ℕ) (s : State) (he : rs.length + e < 2 ^ 28)
    (hnodup : rs.Nodup) (hsp : Register.sp ∉ rs) (h0 : 0 ∉ rs) (T : List Line)
    (hT : T = (rs.zipIdx 1).flatMap fun p => emitLd p.1 Register.sp (-(p.2 + e) * wordSize)) :
    (execLines sym T s).mem = s.mem ∧ (∀ r ∉ rs, (execLines sym T s).get r = s.get r) ∧
    ∀ i (h : i < rs.length), (execLines sym T s).get rs[i] =
      s.load (below (s.get Register.sp) (i + 1 + e)) := by
  obtain ⟨ps, hps⟩ : ∃ ps : List (Reg × ℤ), ps = (rs.zipIdx 1).map fun p =>
    (p.1, toInt (-(p.2 + e) * wordSize)) := ⟨_, rfl⟩
  have hT' : T = ps.map fun p => .op (.ld p.1 Register.sp p.2) := by
    rw [hT, hps, List.map_map, ← List.flatMap_pure_eq_map]
    rfl
  have hfst : ps.map Prod.fst = rs := by
    rw [hps, List.map_map]
    exact List.zipIdx_map_fst 1 rs
  obtain ⟨hmem, hother, hloaded⟩ := @exec_loads sym Register.sp ps s (hfst.symm ▸ hnodup)
    (hfst.symm ▸ hsp) (hfst.symm ▸ h0)
  rw [← hT'] at hmem hother hloaded
  rw [hfst] at hother
  refine ⟨hmem, hother, fun i hi => ?_⟩
  have hval := hloaded (rs[i], toInt (-((1 + i : ℕ) + e) * wordSize)) (by
    rw [hps]
    exact List.mem_map.2 ⟨(rs[i], 1 + i), List.mk_add_mem_zipIdx_iff_getElem?.2 (by simp), rfl⟩)
  rw [hval, ← add_toInt_neg _ (k := i + 1 + e) (by omega)]
  push_cast
  rw [add_comm (1 : ℤ)]

/-- `addi sp, sp, i`. -/
theorem exec_addSp (i : ℤ) (s : State) :
    execLines sym (emitAddi Register.sp Register.sp i) s =
      s.set Register.sp (s.get Register.sp + BitVec.ofInt 64 (toInt i)) := by
  simp only [emitAddi, emitIType, execLines_cons, execLines_nil, Line.exec_op, Op.exec, IType.eval]

/-- The lines after a call. -/
theorem exec_callAfter (total : ℕ) (alignment : Bool) (n spilled : ℕ) (s : State) :
    CallExit total alignment n spilled s
      (execLines sym (callAfter total alignment (SymbolicStack.loc n) spilled) s) := by
  have hspz : Register.sp ≠ 0 := by decide
  -- drop the arguments, move the result
  obtain ⟨hmem₁, hsp₁, hother₁⟩ := exec_result sym n (s.set Register.sp (dropBase total alignment s))
  obtain ⟨u₁, hu₁⟩ : ∃ u, execLines sym (symbEmitMvFromReg (SymbolicStack.loc n) 10)
    (s.set Register.sp (dropBase total alignment s)) = u := ⟨_, rfl⟩
  rw [hu₁, State.mem_set] at hmem₁
  rw [hu₁, State.get_set_self _ _ hspz] at hsp₁
  rw [hu₁] at hother₁
  -- restore the argument registers
  obtain ⟨hmem₂, hsp₂, hother₂, hargs₂⟩ := exec_restoreArgs sym u₁ _ rfl
  obtain ⟨u₂, hu₂⟩ : ∃ u, execLines sym (Register.args.reverse.flatMap fun r =>
    emitLd r Register.sp 0 ++ emitAddi Register.sp Register.sp wordSize) u₁ = u := ⟨_, rfl⟩
  rw [hu₂] at hmem₂ hsp₂ hother₂ hargs₂
  -- restore the temporaries
  obtain ⟨hmem₃, hother₃, htemps₃⟩ := exec_restoreBelow sym Register.temp 1
    (u₂.set Register.sp (dropBase total alignment s + BitVec.ofNat 64 (8 * 16))) (by decide)
    (by decide) (by decide) (by decide) _ rfl
  obtain ⟨u₃, hu₃⟩ : ∃ u, execLines sym ((Register.temp.zipIdx 1).flatMap fun p =>
      emitLd p.1 Register.sp (-(p.2 + (1 : ℕ)) * wordSize))
    (u₂.set Register.sp (dropBase total alignment s + BitVec.ofNat 64 (8 * 16))) = u := ⟨_, rfl⟩
  rw [hu₃] at hmem₃ hother₃ htemps₃
  rw [State.mem_set] at hmem₃
  rw [State.get_set_self _ _ hspz] at htemps₃
  have hsp₃ : u₃.get Register.sp = dropBase total alignment s + BitVec.ofNat 64 (8 * 16) := by
    rw [hother₃ _ (by decide), State.get_set_self _ _ hspz]
  have htemps : (fun p : Reg × ℕ => emitLd p.1 Register.sp (-(p.2 + (1 : ℕ)) * wordSize)) =
      fun p => emitLd p.1 Register.sp (-(p.2 + 1) * wordSize) := by
    funext p
    rw [Nat.cast_one]
  have h64 : toInt (8 * wordSize) = 64 := toInt_of_mem (by simp [wordSize]) (by simp [wordSize])
  have hup : dropBase total alignment s + BitVec.ofNat 64 (8 * 8) + BitVec.ofInt 64 64 =
      dropBase total alignment s + BitVec.ofNat 64 (8 * 16) := by
    rw [BitVec.add_assoc]
    rfl
  have hexec : execLines sym (callAfter total alignment (SymbolicStack.loc n) spilled) s =
      (u₃.set Register.ra (u₃.load (below (u₃.get Register.sp) 1))).set Register.sp
        (u₃.get Register.sp + BitVec.ofInt 64 (toInt (spilled * wordSize))) := by
    rw [callAfter, execLines_append, execLines_append, exec_drop, hu₁, restoreCaller]
    simp only [execLines_append, exec_addSp, hu₂]
    rw [hsp₂, hsp₁, h64, hup, ← htemps, hu₃]
    simp only [emitLd, execLines_cons, execLines_nil, Line.exec_op, Op.exec, toInt_neg_wordSize]
    rw [add_neg_eight, State.get_set_of_ne _ _ (show Register.sp ≠ Register.ra by decide)]
  have hload : ∀ a, u₁.load a = s.load a ∧ u₂.load a = s.load a ∧ u₃.load a = s.load a := by
    intro a
    simp only [State.load, hmem₁, hmem₂, hmem₃, and_self]
  rw [hexec]
  refine ⟨?_, ?_, ?_, ?_, ?_, ?_⟩
  · rw [State.mem_set, State.mem_set, hmem₃, hmem₂, hmem₁]
  · rw [State.get_set_self _ _ hspz, hsp₃]
  · intro i hi
    have hfar : ∀ r ∈ Register.args, r ≠ Register.sp ∧ r ≠ Register.ra ∧ r ∉ Register.temp := by
      decide
    obtain ⟨h1, h2, h3⟩ := hfar _ (argReg_mem (i := 7 - i) (by omega))
    rw [State.get_set_of_ne _ _ h1, State.get_set_of_ne _ _ h2, hother₃ _ h3,
      State.get_set_of_ne _ _ h1, hargs₂ i hi, hsp₁, (hload _).1]
  · intro i hi
    have hfar : ∀ r ∈ Register.temp, r ≠ Register.sp ∧ r ≠ Register.ra := by decide
    obtain ⟨h1, h2⟩ := hfar _ (List.getElem_mem hi)
    rw [State.get_set_of_ne _ _ h1, State.get_set_of_ne _ _ h2, htemps₃ i hi, State.load_set,
      (hload _).2.1]
  · rw [State.get_set_of_ne _ _ (by decide), State.get_set_self _ _ (by decide), hsp₃, (hload _).2.2]
  · intro r hr hrsp
    simp only [savedRegs, List.mem_cons, List.mem_append, not_or] at hr
    rw [State.get_set_of_ne _ _ hrsp, State.get_set_of_ne _ _ hr.1, hother₃ _ hr.2.1,
      State.get_set_of_ne _ _ hrsp, hother₂ _ hr.2.2 hrsp, hother₁ _ (by
        simp only [savedRegs, List.mem_cons, List.mem_append, not_or]
        exact hr), State.get_set_of_ne _ _ hrsp, State.get_set_of_ne _ _ (by decide)]

/-! ### The call sequence -/

theorem exec_comments {T : List Line} (h : ∀ l ∈ T, ∃ x, l = .comment x)
    (s : State) : execLines sym T s = s := by
  induction T generalizing s with
  | nil => rfl
  | cons l T ih =>
    obtain ⟨x, rfl⟩ := h l List.mem_cons_self
    exact ih (fun l hl => h l (List.mem_cons_of_mem _ hl)) s

/-- A text is split at its first call in one way. -/
theorem split_unique {xs xs' ys ys' : List Line} {l l' : String}
    (h : xs ++ Line.call l :: ys = xs' ++ Line.call l' :: ys') (hx : ∀ l ∈ xs, l.straight)
    (hx' : ∀ l ∈ xs', l.straight) : xs = xs' ∧ ys = ys' := by
  induction xs generalizing xs' with
  | nil =>
    cases xs' with
    | nil => exact ⟨rfl, (List.cons.inj h).2⟩
    | cons x xs' =>
      have := hx' x List.mem_cons_self
      rw [← (List.cons.inj h).1] at this
      cases this
  | cons x xs ih =>
    cases xs' with
    | nil =>
      have := hx x List.mem_cons_self
      rw [(List.cons.inj h).1] at this
      cases this
    | cons x' xs' =>
      obtain ⟨rfl, htail⟩ := List.cons.inj h
      obtain ⟨rfl, rfl⟩ := ih htail (fun l hl => hx l (List.mem_cons_of_mem _ hl))
        (fun l hl => hx' l (List.mem_cons_of_mem _ hl))
      exact ⟨rfl, rfl⟩

/-- A call, split at the call itself: both parts are straight, and the states that matter. -/
theorem compileCall_split {c c' : Compiler} {callee : FunctionId} {argc : ℕ} {opt : Option ℤ}
    (h : c.compileCall callee argc opt = .ok c') :
    argc ≤ c.st.top ∧ ∃ f before label after, c.currentFrame = some f ∧
      (∀ name, callee = .inl name → label = name) ∧
      c'.cb = c.cb ++ (before ++ Line.call label :: after) ∧ (∀ l ∈ before, l.straight) ∧
      (∀ l ∈ after, l.straight) ∧ ∀ sym s, CallEntry c.st argc opt
          (callAlignment f.localsCount c.st.spilledCount (argc + opt.toList.length)) s
          (execLines sym before s) ∧
        CallExit (argc + opt.toList.length)
          (callAlignment f.localsCount c.st.spilledCount (argc + opt.toList.length))
          (c.st.top - argc) (c.st.top - argc + 1 - 15) s (execLines sym after s) := by
  obtain ⟨hle, htop, -⟩ := compileCall_ok h
  obtain ⟨f, moves, st₁, pushes, st₂, c₁, label, hf, hplace, hpush, hlabel, rfl⟩ :=
    compileCall_parts h
  have hcomments : ∃ T, c₁.cb = c.cb ++ (callBefore c.st.spilledCount opt
      (callAlignment f.localsCount c.st.spilledCount (argc + opt.toList.length)) moves pushes) ++ T ∧
      ∀ l ∈ T, ∃ x, l = .comment x := by
    cases callee with
    | inl name =>
      cases hlabel
      exact ⟨[], by simp [emit], by simp⟩
    | inr offset =>
      simp only [calleeLabel, bind_ok, return_ok] at hlabel
      obtain ⟨c₂, h₂, heq⟩ := hlabel
      cases heq
      obtain ⟨-, -, hT, -⟩ := addJumpTarget_ok h₂
      exact hT
  obtain ⟨T, hT, hTc⟩ := hcomments
  have hname : ∀ name, callee = .inl name → label = name := by
    rintro name rfl
    cases hlabel
    rfl
  have htop₂ : st₂.top = c.st.top - argc := by
    have : st₂.top + 1 = c.st.top - argc + 1 := htop
    omega
  refine ⟨hle, f, callBefore c.st.spilledCount opt
      (callAlignment f.localsCount c.st.spilledCount (argc + opt.toList.length)) moves pushes ++ T,
    label, callAfter (argc + opt.toList.length)
      (callAlignment f.localsCount c.st.spilledCount (argc + opt.toList.length))
      (SymbolicStack.loc st₂.top) (SymbolicStack.spilledCount ⟨st₂.top + 1⟩), hf, hname, ?_, ?_,
    (ops_callAfter _ _ _ _).straight, fun sym s => ⟨?_, ?_⟩⟩
  · simp only [finish, emit, emitCall, hT, List.append_assoc, List.cons_append, List.nil_append]
  · intro l hl
    rcases List.mem_append.1 hl with hl | hl
    · exact (ops_callBefore (placeArgs_ok hplace).2.2 (pushArgs_ok hpush).2.2).straight l hl
    · obtain ⟨x, rfl⟩ := hTc l hl
      rfl
  · rw [execLines_append, exec_comments sym hTc]
    exact exec_callBefore sym _ hplace hpush s
  · have hspilled : SymbolicStack.spilledCount ⟨st₂.top + 1⟩ = c.st.top - argc + 1 - 15 := by
      rw [SymbolicStack.spilledCount_eq, htop₂]
    rw [hspilled, htop₂]
    exact exec_callAfter sym _ _ _ _ s

/-- The lines of a call, and the two states that matter. -/
theorem compileCall_exec {c c' : Compiler} {callee : FunctionId} {argc : ℕ} {opt : Option ℤ}
    (h : c.compileCall callee argc opt = .ok c') :
    argc ≤ c.st.top ∧ ∃ f before label after, c.currentFrame = some f ∧
      (∀ name, callee = .inl name → label = name) ∧
      c'.cb = c.cb ++ (before ++ Line.call label :: after) ∧ (∀ l ∈ before, l.straight) ∧
      ∀ sym s, CallEntry c.st argc opt
          (callAlignment f.localsCount c.st.spilledCount (argc + opt.toList.length)) s
          (execLines sym before s) ∧
        CallExit (argc + opt.toList.length)
          (callAlignment f.localsCount c.st.spilledCount (argc + opt.toList.length))
          (c.st.top - argc) (c.st.top - argc + 1 - 15) s (execLines sym after s) := by
  obtain ⟨hle, f, before, label, after, hf, hname, htext, hbefore, -, hexec⟩ := compileCall_split h
  exact ⟨hle, f, before, label, after, hf, hname, htext, hbefore, hexec⟩

/-- The compiler in a function without locals, with `n` slots on the symbolic stack. -/
def inFrame (n : ℕ) : Compiler where
  filename := "a.lama"
  strs := []
  globalsCount := 0
  currentFrame := some ⟨"f", 0, 0⟩
  st := ⟨n⟩

end LamaRv
