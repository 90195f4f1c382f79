import LamaRv.Compiler.CallExec

/-!
# The code of one instruction

The lines that one instruction appends, and what they do when the slots are registers.

* `added`: the appended lines;
* `BinopKind.compute`, `exec_emitBinop`: the operators.
-/

namespace LamaRv

open ByteMemory Rv64 CodeBuffer Compiler

/-- The lines that stand in the output after those that were there before. -/
def Compiler.added (c c' : Compiler) : List Line := c'.cb.drop c.cb.length

@[simp] theorem added_emit (c : Compiler) (T : List Line) : added c (c.emit T) = T :=
  List.drop_left

@[simp] theorem added_finish (c : Compiler) (st : SymbolicStack) (T : List Line) :
    added c (finish c st T) = T :=
  List.drop_left

@[simp] theorem finish_st (c : Compiler) (st : SymbolicStack) (T : List Line) :
    (finish c st T).st = st := rfl

theorem slotReg_ne {j k : ℕ} (hj : j < 15) (hk : k < 15) (h : j ≠ k) : slotReg j ≠ slotReg k :=
  fun heq => h (slotReg_inj hj hk heq)

theorem slotReg_ne_zero {k : ℕ} (hk : k < 15) : slotReg k ≠ 0 := (regs_avoid _ (slotReg_mem hk)).1

variable (sym : String → Word)

/-! ### Operators -/

/-- What the lines of an operator compute from the untagged operands.  For a number without a name there
are none, and the first operand stays. -/
def BinopKind.compute : BinopKind → Word → Word → Word
  | .add, x, y => x + y
  | .sub, x, y => x - y
  | .mul, x, y => x * y
  | .div, x, y => if y = 0 then -1 else x.sdiv y
  | .rem, x, y => if y = 0 then x else x.srem y
  | .lessThan, x, y => ofBool (x.slt y)
  | .lessEqual, x, y => ofBool (y.slt x) ^^^ 1
  | .greaterThan, x, y => ofBool (y.slt x)
  | .greaterEqual, x, y => ofBool (x.slt y) ^^^ 1
  | .equal, x, y => ofBool (y - x == 0)
  | .notEqual, x, y => ofBool (y - x != 0)
  | .and, x, y => x &&& y
  | .or, x, y => x ||| y
  | .other _ _, x, _ => x

/-- The lines of an operator, with the result in place of the first operand. -/
theorem exec_binopLines (op : BinopKind) {d : Reg} (hd : d ≠ 0) (b : Reg) (s : State) :
    execLines sym (binopLines op (.register d) (.register d) (.register b)) s =
      s.set d (op.compute (s.get d) (s.get b)) := by
  have hone : toInt 1 = 1 := toInt_of_mem (by decide) (by decide)
  cases op with
  | add | sub | mul | div | rem | and | or => exact exec_symbEmitRType sym s d d b _
  | lessThan => exact exec_symbEmitRType sym s d d b _
  | greaterThan => exact exec_symbEmitRType sym s d d b _
  | lessEqual =>
    rw [binopLines, symbEmitSle, execLines_append, exec_symbEmitRType, exec_symbEmitIType,
      State.get_set_self _ _ hd, State.set_set, hone]
    rfl
  | greaterEqual =>
    rw [binopLines, symbEmitSge, execLines_append, exec_symbEmitRType, exec_symbEmitIType,
      State.get_set_self _ _ hd, State.set_set, hone]
    rfl
  | equal =>
    rw [binopLines, symbEmitEq, execLines_append, exec_symbEmitRType, exec_symbEmitPseudoType,
      State.get_set_self _ _ hd, State.set_set]
    rfl
  | notEqual =>
    rw [binopLines, symbEmitNeq, execLines_append, exec_symbEmitRType, exec_symbEmitPseudoType,
      State.get_set_self _ _ hd, State.set_set]
    rfl
  | other m hm => exact (State.set_get s d).symm

/-- The code of an operator: it untags both operands, computes, and tags the result. -/
theorem exec_emitBinop {c c' : Compiler} {op : BinopKind} (h : c.emitBinop op = .ok c')
    (htop : c.st.top ≤ 15) (s : State) :
    2 ≤ c.st.top ∧ c'.st = ⟨c.st.top - 1⟩ ∧ execLines sym (added c c') s =
      (s.set (slotReg (c.st.top - 1)) ((s.get (slotReg (c.st.top - 1))).sshiftRight 1)).set
        (slotReg (c.st.top - 2))
        (op.compute ((s.get (slotReg (c.st.top - 2))).sshiftRight 1)
          ((s.get (slotReg (c.st.top - 1))).sshiftRight 1) <<< 1 + 1) := by
  unfold emitBinop at h
  simp only [bind_ok, return_ok, Prod.exists] at h
  obtain ⟨l₁, st₁, hpop₁, l₂, st₂, hpop₂, rfl⟩ := h
  obtain ⟨hpos₁, rfl, rfl⟩ := SymbolicStack.pop_ok hpop₁
  obtain ⟨hpos₂, rfl, rfl⟩ := SymbolicStack.pop_ok hpop₂
  simp only at hpos₂
  rw [show c.st.top - 1 - 1 = c.st.top - 2 by omega]
  have hone : toInt 1 = 1 := toInt_of_mem (by decide) (by decide)
  have ha : slotReg (c.st.top - 2) ≠ 0 := slotReg_ne_zero (by omega)
  have hab : slotReg (c.st.top - 1) ≠ slotReg (c.st.top - 2) :=
    slotReg_ne (by omega) (by omega) (by omega)
  have hb : slotReg (c.st.top - 1) ≠ 0 := slotReg_ne_zero (by omega)
  refine ⟨by omega, ?_, ?_⟩
  · show (⟨c.st.top - 2 + 1⟩ : SymbolicStack) = ⟨c.st.top - 1⟩
    rw [show c.st.top - 2 + 1 = c.st.top - 1 by omega]
  · rw [added_finish]
    simp only [SymbolicStack.alloc, loc_of_lt (show c.st.top - 2 < 15 by omega),
      loc_of_lt (show c.st.top - 1 < 15 by omega), execLines_append, exec_symbEmitIType,
      exec_binopLines sym op ha, IType.eval, hone, State.get_set_self _ _ ha,
      State.get_set_of_ne _ _ hab, State.get_set_of_ne _ _ hab.symm, State.get_set_self _ _ hb]
    rw [State.set_set, State.set_set, State.set_comm s _ _ hab.symm, State.set_set]
    rfl

end LamaRv
