import LamaRv.Lib.Rv64

/-!
# Registers and the symbolic stack (`register.h`, `symb_stack.h`)

The compiler keeps the operand stack of the bytecode machine in places that are known at
compile time: the first fifteen slots are registers, the others are words below `sp`.  Only the
height of the stack is stored; `alloc`, `peek` and `pop` compute the place from it.

Failed checks (`DCHECK`, `CHECK`, `LOG(FATAL)`) end the compiler; they are the errors of
`Except String`, with the message of the source.
-/

namespace LamaRv

open Rv64

/-- `WORD_SIZE`, in bytes. -/
def wordSize : ℤ := 8

/-- Conversion to `int`: the representative modulo `2^32` in `[-2^31, 2^31)`. -/
def toInt (x : ℤ) : ℤ := x.bmod (2 ^ 32)

/-- Conversion of an `int` to `size_t`. -/
def toSizeT (x : ℤ) : ℕ := (x % 2 ^ 64).toNat

theorem toSizeT_natCast {i : ℕ} (h : i < 2 ^ 64) : toSizeT i = i := by
  unfold toSizeT
  omega

theorem toInt_of_mem {x : ℤ} (h₁ : -2 ^ 31 ≤ x) (h₂ : x < 2 ^ 31) : toInt x = x := by
  unfold toInt
  exact Int.bmod_eq_of_le (by omega) (by omega)

/-- `toInt` changes a number by a multiple of `2^32`. -/
theorem toInt_spec (x : ℤ) :
    -2 ^ 31 ≤ toInt x ∧ toInt x < 2 ^ 31 ∧ ∃ k, toInt x = x + 2 ^ 32 * k := by
  unfold toInt
  refine ⟨Int.le_bmod (by decide), Int.bmod_lt (by decide), -Int.bdiv x (2 ^ 32), ?_⟩
  rw [Int.bmod_eq_self_sub_mul_bdiv]
  push_cast
  ring

attribute [irreducible] toInt

/-! ### Registers -/

namespace Register

def zero : Reg := 0
def temp1 : Reg := 30
def temp2 : Reg := 31
def ra : Reg := 1
def gp : Reg := 5
def sp : Reg := 2
def fp : Reg := 8

/-- The `argno`-th argument register. -/
def arg (argno : ℕ) : Except String Reg :=
  if argno < 8 then .ok (Fin.ofNat 32 (10 + argno)) else .error "argument register number out of range"

/-- The registers of `saved_apply`, in its order. -/
def saved : List Reg := [8, 9, 18, 19, 20, 21, 22, 23, 24, 25, 26, 27]

/-- The registers of `temp_apply`, in its order. -/
def temp : List Reg := [5, 6, 7, 28, 29, 30, 31]

/-- The registers of `arg_apply`, in its order. -/
def args : List Reg := [10, 11, 12, 13, 14, 15, 16, 17]

end Register

/-! ### The symbolic stack -/

/-- A symbolic location: a register, or the `number`-th spill word. -/
inductive Loc
  | register (number : Reg)
  | memory (number : ℕ)
  deriving DecidableEq, Repr

/-- The registers that hold the bottom of the operand stack. -/
def regs : List Reg := [9, 18, 19, 20, 21, 22, 23, 24, 25, 26, 27, 6, 7, 28, 29]

/-- The symbolic stack: the number of its slots. -/
@[ext] structure SymbolicStack where
  top : ℕ
  deriving DecidableEq, Repr

namespace SymbolicStack

/-- The place of slot `k`. -/
def loc (k : ℕ) : Loc :=
  match regs[k]? with
  | some r => .register r
  | none => .memory (k - regs.length)

def alloc (st : SymbolicStack) : Loc × SymbolicStack := (loc st.top, ⟨st.top + 1⟩)

/-- `push` ignores the location it is given. -/
def push (st : SymbolicStack) (_ : Loc) : SymbolicStack := ⟨st.top + 1⟩

def spilledCount (st : SymbolicStack) : ℕ :=
  if st.top > regs.length then st.top - regs.length else 0

def peek (st : SymbolicStack) : Except String Loc :=
  if st.top > 0 then .ok (loc (st.top - 1)) else .error "peek at empty symbolic stack"

def pop (st : SymbolicStack) : Except String (Loc × SymbolicStack) :=
  if st.top > 0 then .ok (loc (st.top - 1), ⟨st.top - 1⟩)
  else .error "pop from empty symbolic stack"

end SymbolicStack

/-- What the compiler knows about the function it is in. -/
structure FrameInfo where
  functionName : String
  localsCount : ℕ
  argsCount : ℕ
  deriving DecidableEq, Repr

/-! ### Slots -/

/-- The register of slot `k`, for `k` below fifteen. -/
def slotReg (k : ℕ) : Reg := (regs[k]?).getD 0

@[simp] theorem regs_length : regs.length = 15 := rfl

theorem loc_of_lt {k : ℕ} (h : k < 15) : SymbolicStack.loc k = .register (slotReg k) := by
  have hk : regs[k]? = some regs[k] := List.getElem?_eq_getElem h
  simp [SymbolicStack.loc, slotReg, hk]

theorem loc_of_ge {k : ℕ} (h : 15 ≤ k) : SymbolicStack.loc k = .memory (k - 15) := by
  have hk : regs[k]? = none := List.getElem?_eq_none h
  simp [SymbolicStack.loc, hk]

theorem slotReg_mem {k : ℕ} (h : k < 15) : slotReg k ∈ regs := by
  have hk : regs[k]? = some regs[k] := List.getElem?_eq_getElem h
  rw [slotReg, hk]
  exact List.getElem_mem h

theorem regs_nodup : regs.Nodup := by decide

/-- Distinct slots have distinct registers. -/
theorem slotReg_inj {j k : ℕ} (hj : j < 15) (hk : k < 15) (h : slotReg j = slotReg k) : j = k := by
  have hj' : regs[j]? = some regs[j] := List.getElem?_eq_getElem hj
  have hk' : regs[k]? = some regs[k] := List.getElem?_eq_getElem hk
  simp only [slotReg, hj', hk', Option.getD_some] at h
  exact (regs_nodup.getElem_inj_iff).1 h

/-- The register slots avoid every register with another use. -/
theorem regs_avoid : ∀ r ∈ regs, r ≠ 0 ∧ r ≠ Register.ra ∧ r ≠ Register.sp ∧ r ≠ Register.gp ∧
    r ≠ Register.fp ∧ r ≠ Register.temp1 ∧ r ≠ Register.temp2 ∧ r ∉ Register.args := by
  decide

@[simp] theorem SymbolicStack.spilledCount_eq (st : SymbolicStack) : st.spilledCount = st.top - 15 := by
  unfold SymbolicStack.spilledCount
  split_ifs with h
  · rfl
  · simp only [regs_length] at h; omega

theorem SymbolicStack.pop_ok {st st' : SymbolicStack} {l : Loc} (h : st.pop = .ok (l, st')) :
    0 < st.top ∧ l = loc (st.top - 1) ∧ st' = ⟨st.top - 1⟩ := by
  unfold SymbolicStack.pop at h
  split_ifs at h with h0
  cases h
  exact ⟨h0, rfl, rfl⟩

theorem SymbolicStack.pop_of_pos {st : SymbolicStack} (h : 0 < st.top) :
    st.pop = .ok (loc (st.top - 1), ⟨st.top - 1⟩) := if_pos h

theorem SymbolicStack.peek_ok {st : SymbolicStack} {l : Loc} (h : st.peek = .ok l) :
    0 < st.top ∧ l = loc (st.top - 1) := by
  unfold SymbolicStack.peek at h
  split_ifs at h with h0
  cases h
  exact ⟨h0, rfl⟩

theorem SymbolicStack.peek_of_pos {st : SymbolicStack} (h : 0 < st.top) :
    st.peek = .ok (loc (st.top - 1)) := if_pos h

end LamaRv
