import LamaRv.Lib.ByteMemory
import Mathlib.Logic.Relation

/-!
# RV64 assembler text and its machine

The part of RV64 assembler that a simple code generator prints: register and immediate
arithmetic, word loads and stores, the usual pseudo-instructions, jumps, branches, calls and
returns, between labels, comments and directives.  Immediates are mathematical integers; an
immediate is added to a register modulo `2^64`, so no instruction range is imposed here.

* `Op`, `Line`, `Text`: the syntax;
* `Op.exec`, `execLines`: straight-line code as a function of the registers and the memory;
* `Step`: one step of a program, with jumps to labels, calls inside the text, returns, and
  calls to external functions given as a relation;
* `Steps.lines`: straight-line code in a text runs as `execLines`.
-/

namespace Rv64

open ByteMemory

/-- A register number. -/
abbrev Reg := Fin 32

/-- Register numbers are written as numerals. -/
instance neZeroRegs : NeZero 32 := ⟨by decide⟩

/-- Instructions `insn dst, src1, src2`. -/
inductive RType
  | add | sub | slt | sgt | or | and | srl | sra | sll | mul | div | rem
  deriving DecidableEq, Repr

/-- Instructions `insn dst, src, imm`. -/
inductive IType
  | addi | slti | srai | slli | ori | xori | andi
  deriving DecidableEq, Repr

/-- Pseudo-instructions `insn dst, src`. -/
inductive Pseudo
  | seqz | snez
  deriving DecidableEq, Repr

/-- Instructions that fall through. -/
inductive Op
  | rtype (op : RType) (dst src1 src2 : Reg)
  | itype (op : IType) (dst src : Reg) (imm : ℤ)
  | pseudo (op : Pseudo) (dst src : Reg)
  | mv (dst src : Reg)
  | li (dst : Reg) (imm : ℤ)
  | la (dst : Reg) (label : String)
  | ld (dst base : Reg) (off : ℤ)
  | sd (src base : Reg) (off : ℤ)
  | sdLabel (src : Reg) (label : String) (temp : Reg)
  deriving DecidableEq, Repr

/-- A line of assembler text. -/
inductive Line
  | label (name : String)
  | comment (text : String)
  | directive (text : String)
  | asciz (text : String)
  | op (o : Op)
  | call (label : String)
  | ret
  | j (label : String)
  | branch (onEq : Bool) (src1 src2 : Reg) (label : String)
  deriving DecidableEq, Repr

/-- A program text. -/
abbrev Text := List Line

/-- The registers and the memory. -/
@[ext] structure State where
  regs : Reg → Word
  mem : Memory

/-- The value of a register; register `0` reads as zero. -/
def State.get (s : State) (r : Reg) : Word := if r = 0 then 0 else s.regs r

/-- Write a register; writes to register `0` are dropped. -/
def State.set (s : State) (r : Reg) (v : Word) : State :=
  if r = 0 then s else { s with regs := Function.update s.regs r v }

/-- The word at `base + off`. -/
def State.load (s : State) (a : Word) : Word := ByteMemory.load s.mem a

/-- Store a word. -/
def State.store (s : State) (a v : Word) : State := { s with mem := ByteMemory.store s.mem a v }

/-- A truth value as a word. -/
def ofBool (b : Bool) : Word := if b then 1 else 0

/-- The result of a register instruction. -/
def RType.eval : RType → Word → Word → Word
  | .add, x, y => x + y
  | .sub, x, y => x - y
  | .slt, x, y => ofBool (x.slt y)
  | .sgt, x, y => ofBool (y.slt x)
  | .or, x, y => x ||| y
  | .and, x, y => x &&& y
  | .srl, x, y => x >>> (y.toNat % 64)
  | .sra, x, y => x.sshiftRight (y.toNat % 64)
  | .sll, x, y => x <<< (y.toNat % 64)
  | .mul, x, y => x * y
  | .div, x, y => if y = 0 then -1 else x.sdiv y
  | .rem, x, y => if y = 0 then x else x.srem y

/-- The result of an immediate instruction. -/
def IType.eval : IType → Word → ℤ → Word
  | .addi, x, i => x + BitVec.ofInt 64 i
  | .slti, x, i => ofBool (x.slt (BitVec.ofInt 64 i))
  | .srai, x, i => x.sshiftRight i.toNat
  | .slli, x, i => x <<< i.toNat
  | .ori, x, i => x ||| BitVec.ofInt 64 i
  | .xori, x, i => x ^^^ BitVec.ofInt 64 i
  | .andi, x, i => x &&& BitVec.ofInt 64 i

/-- The result of a pseudo-instruction. -/
def Pseudo.eval : Pseudo → Word → Word
  | .seqz, x => ofBool (x == 0)
  | .snez, x => ofBool (x != 0)

/-- The effect of a fall-through instruction, for given label addresses. -/
def Op.exec (sym : String → Word) : Op → State → State
  | .rtype op d a b, s => s.set d (op.eval (s.get a) (s.get b))
  | .itype op d a i, s => s.set d (op.eval (s.get a) i)
  | .pseudo op d a, s => s.set d (op.eval (s.get a))
  | .mv d a, s => s.set d (s.get a)
  | .li d i, s => s.set d (BitVec.ofInt 64 i)
  | .la d l, s => s.set d (sym l)
  | .ld d b o, s => s.set d (s.load (s.get b + BitVec.ofInt 64 o))
  | .sd a b o, s => s.store (s.get b + BitVec.ofInt 64 o) (s.get a)
  | .sdLabel a l t, s => (s.store (sym l) (s.get a)).set t (sym l)

/-- Lines that neither jump, call nor return. -/
def Line.straight : Line → Bool
  | .label _ | .comment _ | .directive _ | .asciz _ | .op _ => true
  | _ => false

/-- The effect of a straight-line line. -/
def Line.exec (sym : String → Word) : Line → State → State
  | .op o, s => o.exec sym s
  | _, s => s

/-- The effect of straight-line code. -/
def execLines (sym : String → Word) : List Line → State → State
  | [], s => s
  | l :: ls, s => execLines sym ls (l.exec sym s)

/-! ### Registers and memory -/

@[simp] theorem State.get_zero (s : State) : s.get 0 = 0 := rfl

theorem State.get_of_ne {s : State} {r : Reg} (h : r ≠ 0) : s.get r = s.regs r := if_neg h

@[simp] theorem State.get_set_self {r : Reg} (s : State) (v : Word) (h : r ≠ 0) :
    (s.set r v).get r = v := by
  simp [State.get, State.set, h]

@[simp] theorem State.get_set_of_ne {r r' : Reg} (s : State) (v : Word) (h : r' ≠ r) :
    (s.set r v).get r' = s.get r' := by
  by_cases h0 : r = 0
  · simp [State.set, h0]
  · simp [State.get, State.set, h0, Function.update_of_ne h]

@[simp] theorem State.set_get (s : State) (r : Reg) : s.set r (s.get r) = s := by
  by_cases h0 : r = 0
  · simp [State.set, h0]
  · simp [State.get, State.set, h0]

@[simp] theorem State.set_set (s : State) (r : Reg) (v w : Word) : (s.set r v).set r w = s.set r w := by
  by_cases h0 : r = 0
  · simp [State.set, h0]
  · simp [State.set, h0]

/-- Writes to distinct registers commute. -/
theorem State.set_comm {r r' : Reg} (s : State) (v w : Word) (h : r ≠ r') :
    (s.set r v).set r' w = (s.set r' w).set r v := by
  by_cases h0 : r = 0
  · simp [State.set, h0]
  by_cases h0' : r' = 0
  · simp [State.set, h0']
  simp only [State.set, if_neg h0, if_neg h0', Function.update_comm h]

@[simp] theorem State.mem_set (s : State) (r : Reg) (v : Word) : (s.set r v).mem = s.mem := by
  unfold State.set; split_ifs <;> rfl

@[simp] theorem State.load_set (s : State) (r : Reg) (v a : Word) :
    (s.set r v).load a = s.load a := by
  simp [State.load]

@[simp] theorem State.get_store (s : State) (a v : Word) (r : Reg) :
    (s.store a v).get r = s.get r := rfl

@[simp] theorem State.mem_store (s : State) (a v : Word) :
    (s.store a v).mem = ByteMemory.store s.mem a v := rfl

@[simp] theorem State.load_store_self (s : State) (a v : Word) : (s.store a v).load a = v :=
  ByteMemory.load_store_self _ _ _

theorem State.load_store_of_apart {a b : Word} (s : State) (v : Word) (h : Apart a b) :
    (s.store a v).load b = s.load b :=
  ByteMemory.load_store_of_apart v h

/-! ### Straight-line code -/

@[simp] theorem execLines_nil (sym : String → Word) (s : State) : execLines sym [] s = s := rfl

@[simp] theorem execLines_cons (sym : String → Word) (l : Line) (ls : List Line) (s : State) :
    execLines sym (l :: ls) s = execLines sym ls (l.exec sym s) := rfl

@[simp] theorem execLines_append (sym : String → Word) (xs ys : List Line) (s : State) :
    execLines sym (xs ++ ys) s = execLines sym ys (execLines sym xs s) := by
  induction xs generalizing s with
  | nil => rfl
  | cons x xs ih => exact ih _

@[simp] theorem Line.exec_op (sym : String → Word) (o : Op) (s : State) :
    (Line.op o).exec sym s = o.exec sym s := rfl

@[simp] theorem Line.exec_comment (sym : String → Word) (t : String) (s : State) :
    (Line.comment t).exec sym s = s := rfl

@[simp] theorem Line.exec_label (sym : String → Word) (t : String) (s : State) :
    (Line.label t).exec sym s = s := rfl

/-! ### Programs -/

/-- The line that defines a label: the first one that carries it. -/
def labelPos (T : Text) (l : String) : Option ℕ := T.findIdx? (· = .label l)

/-- What a program needs from its surroundings: the addresses of data labels, the address of
each line of the text, and the external functions as relations on states. -/
structure Env where
  sym : String → Word
  codeAddr : ℕ → Word
  external : String → State → State → Prop

/-- A line number and the state of the machine. -/
@[ext] structure Config where
  pc : ℕ
  st : State

/-- The return address register. -/
def raReg : Reg := 1

/-- One step of a program. -/
inductive Step (E : Env) (T : Text) : Config → Config → Prop
  | straight {pc s l} : T[pc]? = some l → l.straight → Step E T ⟨pc, s⟩ ⟨pc + 1, l.exec E.sym s⟩
  | jump {pc s l p} : T[pc]? = some (.j l) → labelPos T l = some p → Step E T ⟨pc, s⟩ ⟨p, s⟩
  | taken {pc s eq a b l p} : T[pc]? = some (.branch eq a b l) → labelPos T l = some p →
      (s.get a == s.get b) = eq → Step E T ⟨pc, s⟩ ⟨p, s⟩
  | skipped {pc s eq a b l} : T[pc]? = some (.branch eq a b l) →
      (s.get a == s.get b) ≠ eq → Step E T ⟨pc, s⟩ ⟨pc + 1, s⟩
  | call {pc s l p} : T[pc]? = some (.call l) → labelPos T l = some p →
      Step E T ⟨pc, s⟩ ⟨p, s.set raReg (E.codeAddr (pc + 1))⟩
  | external {pc s l s'} : T[pc]? = some (.call l) → labelPos T l = none →
      E.external l (s.set raReg (E.codeAddr (pc + 1))) s' → Step E T ⟨pc, s⟩ ⟨pc + 1, s'⟩
  | ret {pc s p} : T[pc]? = some .ret → s.get raReg = E.codeAddr p → Step E T ⟨pc, s⟩ ⟨p, s⟩

/-- Any number of steps. -/
abbrev Steps (E : Env) (T : Text) : Config → Config → Prop := Relation.ReflTransGen (Step E T)

/-- The code `ls` stands in the text at line `p`. -/
def CodeAt (T : Text) (p : ℕ) (ls : List Line) : Prop := ∀ i < ls.length, T[p + i]? = ls[i]?

section CodeAt

variable {T : Text} {p : ℕ} {l : Line} {xs ys : List Line}

theorem CodeAt.head (h : CodeAt T p (l :: xs)) : T[p]? = some l := h 0 (by simp)

theorem CodeAt.tail (h : CodeAt T p (l :: xs)) : CodeAt T (p + 1) xs := by
  intro i hi
  have := h (i + 1) (by simpa using hi)
  rwa [show p + (i + 1) = p + 1 + i by omega] at this

theorem CodeAt.left (h : CodeAt T p (xs ++ ys)) : CodeAt T p xs := by
  intro i hi
  rw [h i (by simp; omega), List.getElem?_append_left hi]

theorem CodeAt.right (h : CodeAt T p (xs ++ ys)) : CodeAt T (p + xs.length) ys := by
  intro i hi
  have := h (xs.length + i) (by simp; omega)
  rw [List.getElem?_append_right (by omega), Nat.add_sub_cancel_left] at this
  rwa [← Nat.add_assoc] at this

/-- Code keeps its place when the text grows at its end. -/
theorem CodeAt.append (h : CodeAt T p xs) (ys : List Line) : CodeAt (T ++ ys) p xs := by
  intro i hi
  have hx := h i hi
  have hlt : p + i < T.length := by
    by_contra hge
    rw [List.getElem?_eq_none (by omega)] at hx
    rw [eq_comm, List.getElem?_eq_none_iff] at hx
    omega
  rw [List.getElem?_append_left hlt, hx]

/-- The code appended to a text stands at its old end. -/
theorem codeAt_append_right (T : Text) (xs : List Line) : CodeAt (T ++ xs) T.length xs := by
  intro i _
  rw [List.getElem?_append_right (by omega), Nat.add_sub_cancel_left]

end CodeAt

/-- Straight-line code runs as `execLines`. -/
theorem Steps.lines {E : Env} {T : Text} {ls : List Line} {p : ℕ} {s : State}
    (h : CodeAt T p ls) (hs : ∀ l ∈ ls, l.straight) :
    Steps E T ⟨p, s⟩ ⟨p + ls.length, execLines E.sym ls s⟩ := by
  induction ls generalizing p s with
  | nil => exact .refl
  | cons l ls ih =>
    have h1 : Step E T ⟨p, s⟩ ⟨p + 1, l.exec E.sym s⟩ :=
      .straight h.head (hs l (by simp))
    have h2 := ih (s := l.exec E.sym s) h.tail (fun x hx => hs x (by simp [hx]))
    rw [show p + (l :: ls).length = p + 1 + ls.length by simp; omega]
    exact .head h1 h2

/-- A label has a position when some line carries it. -/
theorem labelPos_of_mem {T : Text} {l : String} (h : Line.label l ∈ T) : ∃ p, labelPos T l = some p := by
  have : (T.findIdx? (· = .label l)).isSome := by
    rw [List.findIdx?_isSome]
    exact List.any_eq_true.2 ⟨_, h, by simp⟩
  exact Option.isSome_iff_exists.1 this

/-- The position of a label carries it. -/
theorem labelPos_spec {T : Text} {l : String} {p : ℕ} (h : labelPos T l = some p) :
    T[p]? = some (.label l) := by
  obtain ⟨hlt, hp, -⟩ := List.findIdx?_eq_some_iff_getElem.1 h
  rw [List.getElem?_eq_getElem hlt]
  simpa using hp

end Rv64
