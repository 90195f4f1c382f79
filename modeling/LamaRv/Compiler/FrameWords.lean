import LamaRv.Compiler.Variables
import LamaRv.Compiler.Arguments
import LamaRv.Compiler.BodyCode
import Mathlib.Data.List.DropRight

/-!
# The words of a frame

The locals, the arguments in memory, the saved registers and the spilled operands are words at
offsets from `fp` and `sp` that four pieces of the code generator compute for themselves.

* `FrameWord`: the words;
* `FrameWord.Loaded`, `FrameWord.Stored`: the addresses at which the emitted code loads and stores them;
* `loadOperand`, `storeOperand`: the operands that name them;
* `FrameWord.Loaded.eq`, `FrameWord.Stored.eq`: the addresses are those of the operands.
-/

namespace LamaRv

open ByteMemory Rv64 CodeBuffer Compiler

/-- A word that the code of a function uses. -/
inductive FrameWord
  | localVar (i : ℕ)
  | arg (j : ℕ)
  | saved (i : ℕ)
  | spill (k : ℕ)
  deriving DecidableEq

namespace FrameWord

/-- The words of a function with so many locals and arguments, at some height of the symbolic
stack. -/
def Used (locc argc height : ℕ) : FrameWord → Prop
  | localVar i => i < locc
  | arg j => 8 ≤ j ∧ j < argc
  | saved i => 1 ≤ i ∧ i ≤ 12
  | spill k => k < height - 15

end FrameWord

/-! ### The words that the code accesses -/

/-- The lines of a `BEGIN` that make the frame.  They follow the label and, in `main`, the call of
`__init`. -/
def frameLines (c c' : Compiler) : List Line := (added c c').rtake 14

/-- `fp` and `sp` are as `BEGIN` leaves them in a function that was entered with `sp = a`. -/
def HasFrame (locc argc : ℕ) (a : Word) (s : State) : Prop :=
  ∃ (c c' : Compiler) (id : FunctionId) (sym : String → Word) (t : State),
    (Instruction.beginInst id argc locc).emitCode c = .ok c' ∧ t.get Register.sp = a ∧
    s.get Register.fp = (execLines sym (frameLines c c') t).get Register.fp ∧
    s.get Register.sp = (execLines sym (frameLines c c') t).get Register.sp

namespace FrameWord

/-- The emitted code of a function that was entered with `sp = a` loads the word from an address: `LD`
at its last access, `END` at its last twelve, and `toReg` for a spilled operand. -/
inductive Loaded (locc argc : ℕ) (a : Word) : FrameWord → Word → Prop
  | localVar {i c c' name sym s x} : c.currentFrame = some ⟨name, locc, argc⟩ →
      (Instruction.load ⟨.localVar, (i : ℕ)⟩).emitCode c = .ok c' → HasFrame locc argc a s →
      (touched sym (added c c') s).getLast? = some x → Loaded locc argc a (localVar i) x
  | arg {j c c' name sym s x} : c.currentFrame = some ⟨name, locc, argc⟩ → j < 2 ^ 31 →
      (Instruction.load ⟨.arg, (j : ℕ)⟩).emitCode c = .ok c' → HasFrame locc argc a s →
      (touched sym (added c c') s).getLast? = some x → Loaded locc argc a (arg j) x
  | saved {i c c' name sym s x} : c.currentFrame = some ⟨name, locc, argc⟩ →
      Instruction.endInst.emitCode c = .ok c' → HasFrame locc argc a s →
      ((touched sym (added c c') s).rtake 12)[i - 1]? = some x → Loaded locc argc a (saved i) x
  | spill {k temp sym s x} : HasFrame locc argc a s →
      x ∈ touched sym (toReg (.memory k) temp).1 s → Loaded locc argc a (spill k) x

/-- The emitted code of a function that was entered with `sp = a` stores the word at an address: `ST`
at its last access, `BEGIN` in the lines that make the frame, and a register operation whose result is
spilled at its last access. -/
inductive Stored (locc argc : ℕ) (a : Word) : FrameWord → Word → Prop
  | localVar {i c c' name sym s x} : c.currentFrame = some ⟨name, locc, argc⟩ →
      (Instruction.store ⟨.localVar, (i : ℕ)⟩).emitCode c = .ok c' → HasFrame locc argc a s →
      (touched sym (added c c') s).getLast? = some x → Stored locc argc a (localVar i) x
  | arg {j c c' name sym s x} : c.currentFrame = some ⟨name, locc, argc⟩ → j < 2 ^ 31 →
      (Instruction.store ⟨.arg, (j : ℕ)⟩).emitCode c = .ok c' → HasFrame locc argc a s →
      (touched sym (added c c') s).getLast? = some x → Stored locc argc a (arg j) x
  | saved {i c c' id sym t x} : (Instruction.beginInst id argc locc).emitCode c = .ok c' →
      t.get Register.sp = a → (touched sym (frameLines c c') t)[i - 1]? = some x →
      Stored locc argc a (saved i) x
  | spill {k insn m n sym s x} : HasFrame locc argc a s →
      (touched sym (symbEmitRType insn (.memory k) (SymbolicStack.loc m) (SymbolicStack.loc n)) s).getLast? =
        some x → Stored locc argc a (spill k) x

/-! ### Operands -/

/-- The operand that `LD`, `END` and `toReg` load from; in `END` it is relative to the value of
`fp`, which has been moved to `sp`. -/
def loadOperand (locc : ℕ) : FrameWord → Reg × ℤ
  | localVar i => (Register.fp, toInt (-i * wordSize))
  | arg j => (Register.fp, toInt (j - 8))
  | saved i => (Register.fp, toInt (-(i + locc) * wordSize))
  | spill k => (Register.sp, toInt (-k * wordSize))

/-- The operand that `ST`, `BEGIN` and `symb_emit_r_type` store to; in `BEGIN` it is relative to the
value of `sp`, which is moved to `fp` next. -/
def storeOperand (locc : ℕ) : FrameWord → Reg × ℤ
  | localVar i => (Register.fp, toInt (-i * wordSize))
  | arg j => (Register.fp, toInt ((j - 8) * wordSize))
  | saved i => (Register.fp, toInt (-(i + locc) * wordSize))
  | spill k => (Register.sp, toInt (-k * wordSize))

end FrameWord

/-- `sp` in the body of a function that was entered with `sp = a`. -/
def bodySp (locc : ℕ) (a : Word) : Word := a + BitVec.ofInt 64 (toInt (-(locc + 12) * wordSize))

/-- The address of an operand in the body. -/
def operandAddr (locc : ℕ) (a : Word) (operand : Reg × ℤ) : Word :=
  (if operand.1 = Register.sp then bodySp locc a else a) + BitVec.ofInt 64 operand.2

namespace FrameWord

def loadAddr (locc : ℕ) (a : Word) (w : FrameWord) : Word := operandAddr locc a (w.loadOperand locc)

def storeAddr (locc : ℕ) (a : Word) (w : FrameWord) : Word := operandAddr locc a (w.storeOperand locc)

end FrameWord

/-! ### The operands in the code -/

section Code

variable {c c' : Compiler}

/-- `BEGIN` leaves the `sp` of the entry in `fp`. -/
theorem exec_prologue_pointers (sym : String → Word) (locc : ℕ) (t : State) :
    (execLines sym (prologue locc) t).get Register.fp = t.get Register.sp ∧
    (execLines sym (prologue locc) t).get Register.sp = bodySp locc (t.get Register.sp) := by
  have hfs : Register.fp ≠ Register.sp := by decide
  rw [prologue_eq, execLines_append]
  simp only [emitMv, emitAddi, emitIType, execLines_append, execLines_cons, execLines_nil,
    Line.exec_op, Op.exec, IType.eval]
  refine ⟨?_, ?_⟩
  · rw [State.get_set_of_ne _ _ hfs, State.get_set_self _ _ (by decide), get_exec_stores,
      toInt_of_mem (by omega) (by omega)]
    exact BitVec.add_zero _
  · rw [State.get_set_self _ _ (by decide), State.get_set_of_ne _ _ hfs.symm, get_exec_stores]
    rfl

theorem accesses_prologue (locc : ℕ) : accesses (prologue locc) =
    (List.range' 1 12).map fun i => (Register.sp, ((FrameWord.saved i).storeOperand locc).2) := rfl

theorem accesses_epilogue (locc : ℕ) : accesses (epilogue locc) =
    (List.range' 1 12).map fun i => (Register.sp, ((FrameWord.saved i).loadOperand locc).2) := rfl

theorem accesses_toReg (k locc : ℕ) (t : Reg) :
    accesses (toReg (.memory k) t).1 = [(FrameWord.spill k).loadOperand locc] := rfl

/-- The words that are accessed because slot `n` is spilled. -/
def slotAccess (locc n : ℕ) : List (Reg × ℤ) :=
  if n < 15 then [] else [(FrameWord.spill (n - 15)).loadOperand locc]

theorem accesses_toReg_loc (locc n : ℕ) (t : Reg) :
    accesses (toReg (SymbolicStack.loc n) t).1 = slotAccess locc n := by
  unfold slotAccess
  split_ifs with h
  · rw [loc_of_lt h]
    rfl
  · rw [loc_of_ge (by omega), accesses_toReg _ locc]

/-- The result of a three-register operation is stored to the spilled word. -/
theorem accesses_symbEmitRType (insn : RType) (k locc m n : ℕ) :
    accesses (symbEmitRType insn (.memory k) (SymbolicStack.loc m) (SymbolicStack.loc n)) =
      slotAccess locc m ++ slotAccess locc n ++ [(FrameWord.spill k).storeOperand locc] := by
  simp only [symbEmitRType, accesses_append, accesses_toReg_loc locc, List.append_assoc]
  rfl

theorem accesses_toReg_register (r t : Reg) : accesses (toReg (.register r) t).1 = [] := rfl

/-- `LD` of a local or of an argument in memory. -/
theorem accesses_load {i : ℕ} (locc : ℕ)
    (h : (Instruction.load ⟨.localVar, i⟩).emitCode c = .ok c') :
    accesses (added c c') =
      slotAccess locc c.st.top ++ [(FrameWord.localVar i).loadOperand locc] := by
  simp only [Instruction.emitCode, emitLoad, bind_ok, return_ok, mulInt] at h
  obtain ⟨f, -, -, -, off, ⟨-, -, rfl⟩, rfl⟩ := h
  rw [added_finish, symbEmitLd, accesses_append, accesses_append, SymbolicStack.alloc,
    accesses_toReg_loc locc, accesses_toReg_register, List.append_nil]
  rfl

theorem accesses_loadArg {j : ℕ} (locc : ℕ) (h8 : 8 ≤ j) (hj : j < 2 ^ 31)
    (h : (Instruction.load ⟨.arg, j⟩).emitCode c = .ok c') :
    accesses (added c c') = slotAccess locc c.st.top ++ [(FrameWord.arg j).loadOperand locc] := by
  simp only [Instruction.emitCode, emitLoad, bind_ok, return_ok,
    if_neg (show ¬ (j : ℤ) < 8 by omega), toSizeT_natCast (show j < 2 ^ 64 by omega)] at h
  obtain ⟨f, -, -, -, rfl⟩ := h
  rw [added_finish, symbEmitLd, accesses_append, accesses_append, SymbolicStack.alloc,
    accesses_toReg_loc locc, accesses_toReg_register, List.append_nil]
  rfl

/-- `ST` to a local or to an argument in memory. -/
theorem accesses_store {i : ℕ} (locc : ℕ)
    (h : (Instruction.store ⟨.localVar, i⟩).emitCode c = .ok c') :
    accesses (added c c') =
      slotAccess locc (c.st.top - 1) ++ [(FrameWord.localVar i).storeOperand locc] := by
  simp only [Instruction.emitCode, emitStore, bind_ok, return_ok, mulInt] at h
  obtain ⟨l, hl, off, ⟨-, -, rfl⟩, rfl⟩ := h
  obtain ⟨-, rfl⟩ := SymbolicStack.peek_ok hl
  rw [added_emit, symbEmitSd, accesses_append, accesses_append, accesses_toReg_loc locc,
    accesses_toReg_register, List.append_nil]
  rfl

theorem accesses_storeArg {j : ℕ} (locc : ℕ) (h8 : 8 ≤ j)
    (h : (Instruction.store ⟨.arg, j⟩).emitCode c = .ok c') :
    accesses (added c c') =
      slotAccess locc (c.st.top - 1) ++ [(FrameWord.arg j).storeOperand locc] := by
  simp only [Instruction.emitCode, emitStore, bind_ok, return_ok, mulInt,
    if_neg (show ¬ (j : ℤ) < 8 by omega)] at h
  obtain ⟨l, hl, off, ⟨-, -, rfl⟩, rfl⟩ := h
  obtain ⟨-, rfl⟩ := SymbolicStack.peek_ok hl
  rw [added_emit, symbEmitSd, accesses_append, accesses_append, accesses_toReg_loc locc,
    accesses_toReg_register, List.append_nil]
  rfl

end Code

/-! ### The addresses of the words -/

section Addresses

variable {c c' : Compiler} {i : Instruction} {locc argc : ℕ} {a : Word} {s : State} {sym : String → Word}

theorem quiet_added (h : i.emitCode c = .ok c') (hb : i.isBegin = false) (he : i ≠ .endInst)
    (hj : i.jumpTarget = none) (hc : i.isCall = false) : Quiet (added c c') := by
  cases emitCode_body h hb he with
  | straight T hcb hq =>
    rw [added, hcb, List.drop_left]
    exact hq
  | jump t T ht => cases hj.symm.trans ht
  | branch t eq a b T U ht => cases hj.symm.trans ht
  | call x callee n opt T hx hq hn hst hf hcall ha hcall' => cases hc.symm.trans hcall'

theorem frameLines_eq {id : FunctionId} (h : (Instruction.beginInst id argc locc).emitCode c = .ok c') :
    frameLines c c' = prologue locc := by
  obtain ⟨U, hU⟩ : ∃ U, added c c' = U ++ prologue locc := by
    cases emitBegin_code h with
    | plain L _ _ hcb => exact ⟨L, by rw [added, hcb, List.drop_left]⟩
    | main x y _ hx _ _ hcall hcb _ =>
      obtain ⟨V, hV, -⟩ := (compileCall_ok hcall).2.2.2.text
      refine ⟨emitLabel "main" ++ premain ++ V, ?_⟩
      rw [added, hcb, hV, hx, List.append_assoc, List.append_assoc, List.drop_left]
      simp only [List.append_assoc]
  have hlength : (prologue locc).length = 14 := rfl
  rw [frameLines, hU, List.rtake, List.length_append, hlength, Nat.add_sub_cancel, List.drop_left]

theorem HasFrame.fp (h : HasFrame locc argc a s) : s.get Register.fp = a := by
  obtain ⟨c, c', id, sym, t, hemit, rfl, hfp, -⟩ := h
  rw [hfp, frameLines_eq hemit, (exec_prologue_pointers sym locc t).1]

theorem HasFrame.sp (h : HasFrame locc argc a s) : s.get Register.sp = bodySp locc a := by
  obtain ⟨c, c', id, sym, t, hemit, rfl, -, hsp⟩ := h
  rw [hsp, frameLines_eq hemit, (exec_prologue_pointers sym locc t).2]

/-- In the body an operand has the address that its base says. -/
theorem HasFrame.addr (h : HasFrame locc argc a s) {p : Reg × ℤ}
    (hp : p.1 = Register.fp ∨ p.1 = Register.sp) : s.addr p = operandAddr locc a p := by
  obtain ⟨r, off⟩ := p
  rcases hp with rfl | rfl
  · rw [State.addr, operandAddr, h.fp, if_neg (show Register.fp ≠ Register.sp by decide)]
  · rw [State.addr, operandAddr, h.sp, if_pos rfl]

theorem operandAddr_fp (locc : ℕ) (a : Word) (off : ℤ) :
    operandAddr locc a (Register.fp, off) = a + BitVec.ofInt 64 off := by
  rw [operandAddr, if_neg (show Register.fp ≠ Register.sp by decide)]

theorem slotAccess_base {n : ℕ} {p : Reg × ℤ} (hp : p ∈ slotAccess locc n) :
    p.1 = Register.sp := by
  unfold slotAccess at hp
  split_ifs at hp
  · cases hp
  · obtain rfl := List.mem_singleton.1 hp
    rfl

/-- Quiet code whose last access has a base among `fp` and `sp`, after accesses to spilled operands. -/
theorem HasFrame.getLast_touched (h : HasFrame locc argc a s) {T : List Line} (hT : Quiet T)
    {ps : List (Reg × ℤ)} {p : Reg × ℤ} (hacc : accesses T = ps ++ [p])
    (hps : ∀ q ∈ ps, q.1 = Register.sp) (hp : p.1 = Register.fp ∨ p.1 = Register.sp) :
    (touched sym T s).getLast? = some (operandAddr locc a p) := by
  have hfp : Register.fp ∉ workRegs := by decide
  have hsp : Register.sp ∉ workRegs := by decide
  have hbase : ∀ q ∈ accesses T, q.1 ∉ workRegs := by
    intro q hq
    rw [hacc, List.mem_append, List.mem_singleton] at hq
    rcases hq with hq | rfl
    · rw [hps q hq]
      exact hsp
    · rcases hp with hp | hp <;> rw [hp] <;> assumption
  rw [touched_of_writesOnly sym hT hbase, hacc, List.map_append, List.map_singleton,
    List.getLast?_concat, h.addr hp]

theorem HasFrame.touched_load {i : ℕ} (h : HasFrame locc argc a s)
    (hemit : (Instruction.load ⟨.localVar, i⟩).emitCode c = .ok c') :
    (touched sym (added c c') s).getLast? = some ((FrameWord.localVar i).loadAddr locc a) :=
  h.getLast_touched (quiet_added hemit rfl (by simp) rfl rfl) (accesses_load locc hemit)
    (fun _ => slotAccess_base) (.inl rfl)

theorem HasFrame.touched_loadArg {j : ℕ} (h : HasFrame locc argc a s) (h8 : 8 ≤ j) (hj : j < 2 ^ 31)
    (hemit : (Instruction.load ⟨.arg, j⟩).emitCode c = .ok c') :
    (touched sym (added c c') s).getLast? = some ((FrameWord.arg j).loadAddr locc a) :=
  h.getLast_touched (quiet_added hemit rfl (by simp) rfl rfl) (accesses_loadArg locc h8 hj hemit)
    (fun _ => slotAccess_base) (.inl rfl)

theorem HasFrame.touched_store {i : ℕ} (h : HasFrame locc argc a s)
    (hemit : (Instruction.store ⟨.localVar, i⟩).emitCode c = .ok c') :
    (touched sym (added c c') s).getLast? = some ((FrameWord.localVar i).storeAddr locc a) :=
  h.getLast_touched (quiet_added hemit rfl (by simp) rfl rfl) (accesses_store locc hemit)
    (fun _ => slotAccess_base) (.inl rfl)

theorem HasFrame.touched_storeArg {j : ℕ} (h : HasFrame locc argc a s) (h8 : 8 ≤ j)
    (hemit : (Instruction.store ⟨.arg, j⟩).emitCode c = .ok c') :
    (touched sym (added c c') s).getLast? = some ((FrameWord.arg j).storeAddr locc a) :=
  h.getLast_touched (quiet_added hemit rfl (by simp) rfl rfl) (accesses_storeArg locc h8 hemit)
    (fun _ => slotAccess_base) (.inl rfl)

theorem HasFrame.touched_toReg (h : HasFrame locc argc a s) (k : ℕ) (temp : Reg) :
    touched sym (toReg (.memory k) temp).1 s = [(FrameWord.spill k).loadAddr locc a] := by
  have hsingle : touched sym (toReg (.memory k) temp).1 s =
      (accesses (toReg (.memory k) temp).1).map s.addr := List.append_nil _
  rw [hsingle, accesses_toReg k locc, List.map_singleton, h.addr (.inr rfl), FrameWord.loadAddr]

theorem HasFrame.touched_result (h : HasFrame locc argc a s) (insn : RType) (k m n : ℕ) :
    (touched sym (symbEmitRType insn (.memory k) (SymbolicStack.loc m) (SymbolicStack.loc n)) s).getLast? =
      some ((FrameWord.spill k).storeAddr locc a) := by
  refine h.getLast_touched (quiet_symbEmitRType insn (work_memory k) (work_loc m))
    (accesses_symbEmitRType insn k locc m n) (fun q hq => ?_) (.inr rfl)
  rcases List.mem_append.1 hq with hq | hq <;> exact slotAccess_base hq

/-- The prologue stores before it moves `sp`. -/
theorem touched_prologue (t : State) : touched sym (prologue locc) t =
    (List.range' 1 12).map fun i =>
      (FrameWord.saved i).storeAddr locc (t.get Register.sp) := by
  have hstores : WritesOnly [] (((Register.saved.zipIdx 1).map fun p =>
      (p.1, toInt (-(p.2 + locc) * wordSize))).map
      fun p => Line.op (.sd p.1 Register.sp p.2)) := by
    intro l hl
    obtain ⟨p, -, rfl⟩ := List.mem_map.1 hl
    refine ⟨rfl, fun o ho r hr => ?_⟩
    obtain rfl := Line.op.inj ho
    cases hr
  have hmoves : ∀ u, touched sym (emitMv Register.fp Register.sp ++
      emitAddi Register.sp Register.sp (-(locc + 12) * wordSize)) u = [] := fun _ => rfl
  have hacc : accesses (((Register.saved.zipIdx 1).map fun p =>
      (p.1, toInt (-(p.2 + locc) * wordSize))).map fun p => Line.op (.sd p.1 Register.sp p.2)) =
      accesses (prologue locc) := by
    rw [prologue_eq, accesses_append]
    exact (List.append_nil _).symm
  rw [prologue_eq, touched_append, hmoves, List.append_nil,
    touched_of_writesOnly sym hstores (fun _ _ => List.not_mem_nil), hacc, accesses_prologue, List.map_map]
  exact List.map_congr_left fun i _ => (operandAddr_fp locc _ _).symm

/-- The last words that an `END` loads are relative to what was in `fp`. -/
theorem HasFrame.touched_end (h : HasFrame locc argc a s) {name : String}
    (hf : c.currentFrame = some ⟨name, locc, argc⟩) (hemit : Instruction.endInst.emitCode c = .ok c') :
    (touched sym (added c c') s).rtake 12 =
      (List.range' 1 12).map fun i => (FrameWord.saved i).loadAddr locc a := by
  obtain ⟨f, hf', -, hcb⟩ := emitEnd_code hemit
  obtain rfl := Option.some.inj (hf.symm.trans hf')
  obtain ⟨t, ht⟩ : ∃ t, execLines sym (symbEmitMvToReg 10 (SymbolicStack.loc (c.st.top - 1)) ++
      emitMv Register.sp Register.fp) s = t := ⟨_, rfl⟩
  have hsp : t.get Register.sp = a := by
    have hq : Quiet (symbEmitMvToReg 10 (SymbolicStack.loc (c.st.top - 1))) :=
      quiet_symbEmitMvToReg (by decide)
    rw [← ht, execLines_append, ← h.fp, ← hq.get_exec sym (show Register.fp ∉ workRegs by decide) s]
    simp only [emitMv, emitAddi, emitIType, execLines_cons, execLines_nil, Line.exec_op, Op.exec,
      IType.eval]
    rw [State.get_set_self _ _ (by decide), toInt_of_mem (by omega) (by omega)]
    exact BitVec.add_zero _
  have hloads : WritesOnly Register.saved ((Register.saved.zipIdx 1).flatMap fun p =>
      emitLd p.1 Register.sp (-(p.2 + locc) * wordSize)) := by
    intro l hl
    obtain ⟨p, hp, hl⟩ := List.mem_flatMap.1 hl
    obtain rfl := List.mem_singleton.1 hl
    refine ⟨rfl, fun o ho r hr => ?_⟩
    obtain rfl := Line.op.inj ho
    obtain rfl := Option.some.inj hr
    exact List.fst_mem_of_mem_zipIdx hp
  have hacc : accesses ((Register.saved.zipIdx 1).flatMap fun p =>
      emitLd p.1 Register.sp (-(p.2 + locc) * wordSize)) = accesses (epilogue locc) := by
    rw [epilogue, accesses_append]
    rfl
  have hlast : touched sym ((Register.saved.zipIdx 1).flatMap fun p =>
      emitLd p.1 Register.sp (-(p.2 + locc) * wordSize)) t =
        (List.range' 1 12).map fun i => (FrameWord.saved i).loadAddr locc a := by
    rw [touched_of_writesOnly sym hloads, hacc, accesses_epilogue, List.map_map]
    · refine List.map_congr_left fun i _ => ?_
      rw [Function.comp, State.addr, hsp]
      exact (operandAddr_fp locc a _).symm
    · intro p hp
      rw [hacc, accesses_epilogue] at hp
      obtain ⟨i, -, rfl⟩ := List.mem_map.1 hp
      exact show Register.sp ∉ Register.saved by decide
  have hrest : ∀ u, touched sym ((if name = "main" then postmain else []) ++ emitRet) u = [] := by
    intro u
    split_ifs <;> rfl
  rw [added, hcb, List.drop_left, epilogue, ← List.append_assoc, List.append_assoc _ _ emitRet,
    touched_append, touched_append, hrest, List.append_nil, ht, hlast, List.rtake, List.length_append,
    List.length_map, List.length_range', Nat.add_sub_cancel, List.drop_left]

/-- A function with some locals and arguments, at some height. -/
def inFrameOf (locc argc n : ℕ) : Compiler :=
  { inFrame n with currentFrame := some ⟨"f", locc, argc⟩ }

theorem exists_begin (locc argc : ℕ) :
    ∃ c', (Instruction.beginInst (.inr 0) argc locc).emitCode (inFrame 0) = .ok c' := by
  simp only [Instruction.emitCode, emitBegin, if_neg (labelForIp_ne_main 0)]
  exact ⟨_, rfl⟩

theorem exists_hasFrame (locc argc : ℕ) (a : Word) : ∃ s, HasFrame locc argc a s := by
  obtain ⟨c', hemit⟩ := exists_begin locc argc
  exact ⟨_, inFrame 0, c', .inr 0, fun _ => 0, (⟨fun _ => 0, fun _ => 0⟩ : State).set Register.sp a,
    hemit, State.get_set_self _ _ (by decide), rfl, rfl⟩

section Words

variable {height : ℕ} {w : FrameWord} {x : Word}

theorem getElem?_saved {f : ℕ → Word} {i : ℕ} (hi : 1 ≤ i ∧ i ≤ 12) :
    ((List.range' 1 12).map f)[i - 1]? = some (f i) := by
  rw [List.getElem?_map, List.getElem?_range' (by omega), Option.map_some,
    show 1 + 1 * (i - 1) = i by omega]

/-- A word is loaded at the address of its operand. -/
theorem FrameWord.Loaded.eq (h : w.Loaded locc argc a x) (hw : w.Used locc argc height) :
    x = w.loadAddr locc a := by
  cases h with
  | localVar _ hemit hframe hx => exact Option.some.inj (hx.symm.trans (hframe.touched_load hemit))
  | arg _ hj hemit hframe hx =>
    exact Option.some.inj (hx.symm.trans (hframe.touched_loadArg hw.1 hj hemit))
  | saved hf hemit hframe hx =>
    rw [hframe.touched_end hf hemit, getElem?_saved hw] at hx
    exact (Option.some.inj hx).symm
  | spill hframe hx =>
    rw [hframe.touched_toReg] at hx
    exact List.mem_singleton.1 hx

/-- A word is stored at the address of its operand. -/
theorem FrameWord.Stored.eq (h : w.Stored locc argc a x) (hw : w.Used locc argc height) :
    x = w.storeAddr locc a := by
  cases h with
  | localVar _ hemit hframe hx => exact Option.some.inj (hx.symm.trans (hframe.touched_store hemit))
  | arg _ hj hemit hframe hx =>
    exact Option.some.inj (hx.symm.trans (hframe.touched_storeArg hw.1 hemit))
  | saved hemit hsp hx =>
    rw [frameLines_eq hemit, touched_prologue, hsp, getElem?_saved hw] at hx
    exact (Option.some.inj hx).symm
  | spill hframe hx => exact Option.some.inj (hx.symm.trans (hframe.touched_result _ _ _ _))

/-- The code loads every word whose offset is an `int`. -/
theorem FrameWord.exists_loaded (hw : w.Used locc argc height)
    (hsmall : ∀ i, w = .localVar i ∨ w = .arg i → i < 2 ^ 28) :
    w.Loaded locc argc a (w.loadAddr locc a) := by
  obtain ⟨s, hs⟩ := exists_hasFrame locc argc a
  cases w with
  | localVar i =>
    have hi := hsmall i (.inl rfl)
    obtain ⟨c', hemit⟩ : ∃ c', (Instruction.load ⟨.localVar, i⟩).emitCode (inFrameOf locc argc 1) =
        .ok c' := by
      simp only [Instruction.emitCode, emitLoad, bind_ok, check_ok,
        toSizeT_natCast (show i < 2 ^ 64 by omega), return_ok]
      exact ⟨_, ⟨"f", locc, argc⟩, rfl, (), hw, _, mulInt_neg_natCast hi, rfl⟩
    exact .localVar rfl hemit hs (hs.touched_load hemit : (touched (fun _ => 0) _ _).getLast? = _)
  | arg j =>
    obtain ⟨h8, hj⟩ := hw
    have hj' := hsmall j (.inr rfl)
    have hint : j < 2 ^ 31 := by omega
    obtain ⟨c', hemit⟩ : ∃ c', (Instruction.load ⟨.arg, j⟩).emitCode (inFrameOf locc argc 1) =
        .ok c' := by
      simp only [Instruction.emitCode, emitLoad, bind_ok, check_ok,
        toSizeT_natCast (show j < 2 ^ 64 by omega), return_ok, if_neg (show ¬ (j : ℤ) < 8 by omega)]
      exact ⟨_, ⟨"f", locc, argc⟩, rfl, (), hj, rfl⟩
    exact .arg rfl hint hemit hs
      (hs.touched_loadArg h8 hint hemit : (touched (fun _ => 0) _ _).getLast? = _)
  | saved i =>
    obtain ⟨c', hemit⟩ : ∃ c', Instruction.endInst.emitCode (inFrameOf locc argc 1) = .ok c' :=
      ⟨_, rfl⟩
    have hx : ((touched (fun _ => 0) (added (inFrameOf locc argc 1) c') s).rtake 12)[i - 1]? =
        some ((saved i).loadAddr locc a) := by
      rw [hs.touched_end rfl hemit, getElem?_saved hw]
    exact .saved rfl hemit hs hx
  | spill k =>
    have hx : (spill k).loadAddr locc a ∈
        touched (fun _ => 0) (toReg (.memory k) Register.temp1).1 s := by
      rw [hs.touched_toReg]
      exact List.mem_singleton_self _
    exact .spill hs hx

/-- The code stores every word whose offset is an `int`. -/
theorem FrameWord.exists_stored (hw : w.Used locc argc height)
    (hsmall : ∀ i, w = .localVar i ∨ w = .arg i → i < 2 ^ 28) :
    w.Stored locc argc a (w.storeAddr locc a) := by
  obtain ⟨s, hs⟩ := exists_hasFrame locc argc a
  have hpeek : (inFrameOf locc argc 1).st.peek = .ok (SymbolicStack.loc 0) := rfl
  cases w with
  | localVar i =>
    have hi := hsmall i (.inl rfl)
    obtain ⟨c', hemit⟩ : ∃ c', (Instruction.store ⟨.localVar, i⟩).emitCode (inFrameOf locc argc 1) =
        .ok c' := by
      simp only [Instruction.emitCode, emitStore, hpeek, bind_ok, return_ok]
      exact ⟨_, _, rfl, _, mulInt_neg_natCast hi, rfl⟩
    exact .localVar rfl hemit hs (hs.touched_store hemit : (touched (fun _ => 0) _ _).getLast? = _)
  | arg j =>
    obtain ⟨h8, -⟩ := hw
    have hj' := hsmall j (.inr rfl)
    have hint : j < 2 ^ 31 := by omega
    have hoff : ((j : ℤ) - 8) = ((j - 8 : ℕ) : ℤ) := by omega
    obtain ⟨c', hemit⟩ : ∃ c', (Instruction.store ⟨.arg, j⟩).emitCode (inFrameOf locc argc 1) =
        .ok c' := by
      simp only [Instruction.emitCode, emitStore, hpeek, bind_ok, return_ok,
        if_neg (show ¬ (j : ℤ) < 8 by omega), hoff]
      exact ⟨_, _, rfl, _, mulInt_natCast (by omega), rfl⟩
    exact .arg rfl hint hemit hs
      (hs.touched_storeArg h8 hemit : (touched (fun _ => 0) _ _).getLast? = _)
  | saved i =>
    obtain ⟨c', hemit⟩ := exists_begin locc argc
    let t : State := (⟨fun _ => 0, fun _ => 0⟩ : State).set Register.sp a
    have hsp : t.get Register.sp = a := State.get_set_self _ _ (by decide)
    have hx : (touched (fun _ => 0) (frameLines (inFrame 0) c') t)[i - 1]? =
        some ((saved i).storeAddr locc a) := by
      rw [frameLines_eq hemit, touched_prologue, hsp, getElem?_saved hw]
    exact .saved hemit hsp hx
  | spill k =>
    exact .spill hs (hs.touched_result .add k 0 1 : (touched (fun _ => 0) _ _).getLast? = _)

end Words

end Addresses

end LamaRv
