import LamaRv.Compiler.Flow
import LamaRv.Lib.TaggedInt

/-!
# The stack machine

The meaning of the bytecode on integers, inside one function body: the machine pops its operands
from a stack and pushes the result; it has the globals of the program, and the locals and the
arguments of the function.  Division by zero, an empty stack, an index outside an area and a local
that has not been written are stuck, and so is every instruction that makes an object.

* `Instruction.execute`: the instructions that do not jump;
* `Machine`: one step inside a function body;
* `Returns`: a function body up to its `END`, with the functions that it calls;
* `Instruction.InFragment`: the instructions that the code generator is right about.
-/

namespace LamaRv

open TaggedInt

/-- What the machine works on; the top of the stack comes first.  A local has no value before it is
written. -/
structure Data where
  stack : List Int63
  globals : List Int63
  locals : List (Option Int63)
  args : List Int63
  deriving DecidableEq

/-- The result of an operator. -/
def BinopKind.eval : BinopKind → Int63 → Int63 → Option Int63
  | .add, v, w => some (v + w)
  | .sub, v, w => some (v - w)
  | .mul, v, w => some (v * w)
  | .div, v, w => if w = 0 then none else some (v.sdiv w)
  | .rem, v, w => if w = 0 then none else some (v.srem w)
  | .lessThan, v, w => some (ofTruth (v.slt w))
  | .lessEqual, v, w => some (ofTruth (v.sle w))
  | .greaterThan, v, w => some (ofTruth (w.slt v))
  | .greaterEqual, v, w => some (ofTruth (w.sle v))
  | .equal, v, w => some (ofTruth (v == w))
  | .notEqual, v, w => some (ofTruth (v != w))
  | .and, v, w => some (ofTruth (v != 0 && w != 0))
  | .or, v, w => some (ofTruth (v != 0 || w != 0))
  | .other _ _, _, _ => none

namespace LocationEntry

/-- The place of an entry in its area. -/
def index? (loc : LocationEntry) : Option ℕ := if 0 ≤ loc.index then some loc.index.toNat else none

/-- The value of a variable. -/
def read (loc : LocationEntry) (d : Data) : Option Int63 :=
  match loc.kind with
  | .global => loc.index?.bind (d.globals[·]?)
  | .localVar => loc.index?.bind fun k => (d.locals[k]?).join
  | .arg => loc.index?.bind (d.args[·]?)
  | .captured | .other _ _ => none

/-- Write a list at an index. -/
def update {α : Type} (xs : List α) (k : ℕ) (v : α) : Option (List α) :=
  if k < xs.length then some (xs.set k v) else none

/-- Change the value of a variable. -/
def write (loc : LocationEntry) (d : Data) (v : Int63) : Option Data :=
  match loc.kind with
  | .global => loc.index?.bind fun k => (update d.globals k v).map fun xs => { d with globals := xs }
  | .localVar => loc.index?.bind fun k => (update d.locals k (some v)).map fun xs => { d with locals := xs }
  | .arg => loc.index?.bind fun k => (update d.args k v).map fun xs => { d with args := xs }
  | .captured | .other _ _ => none

end LocationEntry

/-- The instructions that do not jump. -/
def Instruction.execute : Instruction → Data → Option Data
  | .const value, d => some { d with stack := BitVec.ofInt 63 (value / 2) :: d.stack }
  | .load loc, d => (loc.read d).map fun v => { d with stack := v :: d.stack }
  | .store loc, d => d.stack.head?.bind (loc.write d)
  | .duplicate, d =>
      match d.stack with
      | v :: vs => some { d with stack := v :: v :: vs }
      | [] => none
  | .drop, d =>
      match d.stack with
      | _ :: vs => some { d with stack := vs }
      | [] => none
  | .swap, d =>
      match d.stack with
      | v :: w :: vs => some { d with stack := w :: v :: vs }
      | _ => none
  | .binop op, d =>
      match d.stack with
      | w :: v :: vs => (op.eval v w).map fun r => { d with stack := r :: vs }
      | _ => none
  | .line _, d => some d
  | _, _ => none

/-- One step of the machine, from an offset and its data. -/
inductive Machine (m : Module) : ℕ × Data → ℕ × Data → Prop
  | next {o n i d d'} : m.instructions.at? o = some i → i.execute d = some d' →
      m.instructions.next? o = some n → Machine m (o, d) (n, d')
  | jump {o t d} : m.instructions.at? o = some (.jump t) → Machine m (o, d) (t, d)
  | taken {o t zero d v vs} : m.instructions.at? o = some (.conditionalJump t zero) →
      d.stack = v :: vs → (v == 0) = zero → Machine m (o, d) (t, { d with stack := vs })
  | skipped {o n t zero d v vs} : m.instructions.at? o = some (.conditionalJump t zero) →
      d.stack = v :: vs → (v == 0) ≠ zero → m.instructions.next? o = some n →
      Machine m (o, d) (n, { d with stack := vs })

/-- What a function starts with when it is called with some arguments. -/
def Data.enter (d : Data) (args : List Int63) (locc : ℕ) : Data where
  stack := []
  globals := d.globals
  locals := List.replicate locc none
  args := args

/-- What the machine goes on with after a call: the operands below the arguments and the result. -/
def Data.resume (d : Data) (below globals : List Int63) (v : Int63) : Data :=
  { d with stack := v :: below, globals := globals }

/-- From an offset and its data a function comes to its `END`, with a result and some globals.  The
calls that it makes take up at most so many words of memory. -/
inductive Returns (m : Module) : ℕ → ℕ × Data → Int63 → List Int63 → Prop
  | finish {room o d v vs} : m.instructions.at? o = some .endInst → d.stack = v :: vs →
      Returns m room (o, d) v d.globals
  | step {room x y v G} : Machine m x y → Returns m room y v G → Returns m room x v G
  | call {room inner o n b t id argc locc d args below w G v G'} :
      m.instructions.at? o = some (.call (.inr t) argc) → args.length = argc →
      d.stack = args.reverse ++ below → m.instructions.at? t = some (.beginInst id argc locc) →
      m.instructions.next? t = some b → Returns m inner (b, d.enter args locc) w G →
      inner + locc + 29 ≤ room → m.instructions.next? o = some n →
      Returns m room (n, d.resume below G w) v G' → Returns m room (o, d) v G'

/-- The integer instructions, without `&&` and `!!`, which work on bits in the code, without stores
to arguments, and with the first `k` arguments only. -/
def Instruction.InFragment (k : ℕ) : Instruction → Prop
  | .const value => ∃ c, -2 ^ 30 ≤ c ∧ c < 2 ^ 30 ∧ value = 2 * c + 1
  | .load loc => loc.kind = .global ∨ loc.kind = .localVar ∨ loc.kind = .arg ∧ loc.index < k
  | .store loc => loc.kind = .global ∨ loc.kind = .localVar
  | .binop op => op ≠ .and ∧ op ≠ .or
  | .duplicate | .drop | .swap | .jump _ | .conditionalJump _ _ | .line _ => True
  | _ => False

/-- A step follows the control flow. -/
theorem Machine.succ {m : Module} {x y : ℕ × Data} (h : Machine m x y) : m.Succ x.1 y.1 := by
  cases h with
  | next hat hexec hn =>
    refine .fall hat ?_ hn
    cases hi : Instruction.isTerminator _ with
    | false => rfl
    | true =>
      unfold Instruction.isTerminator at hi
      split at hi <;> first | cases hexec | cases hi
  | jump hat => exact .jump hat rfl
  | taken hat _ _ => exact .jump hat rfl
  | skipped hat _ _ hn => exact .fall hat rfl hn

end LamaRv
