import LamaRv.Format
import LamaRv.Tags
import LamaRv.Compiler.SymbStack

/-!
# Bytecode instructions (`opcode.h`, `instructions.h`, `print.cpp`)

The instruction classes with the operands their constructors keep.  Operands that the classes
store as `size_t` are natural numbers, those they store as `int` are integers.

`print` gives the text of `operator<<`; it fails where the source has `TODO()`.
-/

namespace LamaRv

/-- `BinopKind`: the enumerators, and any other number that was cast to it. -/
inductive BinopKind
  | add | sub | mul | div | rem | lessThan | lessEqual | greaterThan | greaterEqual
  | equal | notEqual | and | or
  | other (number : ℕ) (unnamed : number = 0 ∨ 13 < number)
  deriving DecidableEq, Repr

/-- `Location`. -/
inductive Location
  | global | localVar | arg | captured
  | other (number : ℕ) (unnamed : 3 < number)
  deriving DecidableEq, Repr

/-- `LocationEntry`. -/
structure LocationEntry where
  kind : Location
  index : ℤ
  deriving DecidableEq, Repr

/-- `Pattern`. -/
inductive Pattern
  | string | stringTag | arrayTag | sExpTag | boxed | unboxed | closureTag
  | other (number : ℕ) (unnamed : 6 < number)
  deriving DecidableEq, Repr

/-- A function named by a string or by the offset of its code. -/
abbrev FunctionId := String ⊕ ℕ

/-- The instructions. -/
inductive Instruction
  | const (value : ℤ)
  | string (ind : ℕ) (str : String)
  | sExpression (name : String) (size : ℕ)
  | storeStack
  | storeArray
  | jump (target : ℕ)
  | conditionalJump (target : ℕ) (zero : Bool)
  | returnInst
  | drop
  | duplicate
  | swap
  | elem
  | closure (offset : ℕ) (entries : List LocationEntry)
  | beginInst (id : FunctionId) (argc locc : ℕ)
  | cBegin (offset argc locc : ℕ)
  | endInst
  | callClosure (argc : ℕ)
  | call (callee : FunctionId) (argc : ℕ)
  | tag (tag : String) (size : ℕ)
  | array (size : ℕ)
  | fail (line col : ℕ)
  | line (line : ℕ)
  | binop (op : BinopKind)
  | load (loc : LocationEntry)
  | loadArray (index : ℕ) (loc : Location)
  | store (loc : LocationEntry)
  | patternInst (type : Pattern)
  | builtinRead
  | builtinWrite
  | builtinLength
  | builtinString
  | builtinArray (len : ℕ)
  deriving DecidableEq, Repr

namespace Instruction

/-- The constructor of `Const`: the literal is boxed in an `int`. -/
def ofLiteral (c : ℤ) : Instruction := .const (toInt (2 * c + 1))

/-- `is_terminator`. -/
def isTerminator : Instruction → Bool
  | .endInst | .jump _ | .fail _ _ => true
  | _ => false

end Instruction

/-! ### Operand classes -/

/-- `static_cast<BinopKind>`. -/
def BinopKind.ofNat : ℕ → BinopKind
  | 0 => .other 0 (.inl rfl)
  | 1 => .add | 2 => .sub | 3 => .mul | 4 => .div | 5 => .rem | 6 => .lessThan | 7 => .lessEqual
  | 8 => .greaterThan | 9 => .greaterEqual | 10 => .equal | 11 => .notEqual | 12 => .and | 13 => .or
  | l + 14 => .other (l + 14) (.inr (by omega))

/-- `static_cast<Location>`. -/
def Location.ofNat : ℕ → Location
  | 0 => .global | 1 => .localVar | 2 => .arg | 3 => .captured
  | l + 4 => .other (l + 4) (by omega)

/-- `static_cast<Pattern>`. -/
def Pattern.ofNat : ℕ → Pattern
  | 0 => .string | 1 => .stringTag | 2 => .arrayTag | 3 => .sExpTag | 4 => .boxed | 5 => .unboxed
  | 6 => .closureTag
  | l + 7 => .other (l + 7) (by omega)

/-- The value of an enumerator, or the number that was cast. -/
def BinopKind.number : BinopKind → ℕ
  | .add => 1 | .sub => 2 | .mul => 3 | .div => 4 | .rem => 5 | .lessThan => 6 | .lessEqual => 7
  | .greaterThan => 8 | .greaterEqual => 9 | .equal => 10 | .notEqual => 11 | .and => 12 | .or => 13
  | .other n _ => n

def Location.number : Location → ℕ
  | .global => 0 | .localVar => 1 | .arg => 2 | .captured => 3 | .other n _ => n

def Pattern.number : Pattern → ℕ
  | .string => 0 | .stringTag => 1 | .arrayTag => 2 | .sExpTag => 3 | .boxed => 4 | .unboxed => 5
  | .closureTag => 6 | .other n _ => n

/-! ### Printing -/

/-- A number without a name is printed as nothing. -/
def BinopKind.text : BinopKind → String
  | .add => "+" | .sub => "-" | .mul => "*" | .div => "/" | .rem => "%"
  | .lessThan => "<" | .lessEqual => "<=" | .greaterThan => ">" | .greaterEqual => ">="
  | .equal => "==" | .notEqual => "!=" | .and => "&&" | .or => "||"
  | .other _ _ => ""

def Location.text : Location → String
  | .global => "G" | .localVar => "L" | .arg => "A" | .captured => "C"
  | .other _ _ => ""

def LocationEntry.text (loc : LocationEntry) : String :=
  loc.kind.text ++ "(" ++ formatInt loc.index ++ ")"

def Pattern.text : Pattern → String
  | .string => "=str" | .stringTag => "#string" | .arrayTag => "#array" | .sExpTag => "#sexp"
  | .boxed => "#ref" | .unboxed => "#val" | .closureTag => "#fun"
  | .other _ _ => ""

/-- `ip_to_string`. -/
def ipToString (ip : ℕ) : String := formatHex10 ip

/-- `loc_to_string`. -/
def locToString : FunctionId → String
  | .inl name => name
  | .inr ip => ipToString ip

/-- The failure of `TODO()` while printing. -/
def todo {α : Type} : Except String α := .error "Not implemented yet"

/-- A `DCHECK` or `CHECK`: nothing when the condition holds, the message otherwise. -/
def check (cond : Prop) [Decidable cond] (message : String) : Except String Unit :=
  if cond then .ok () else .error message

/-- A bind that succeeds. -/
theorem bind_ok {α β : Type} {x : Except String α} {f : α → Except String β} {b : β} :
    (x >>= f) = .ok b ↔ ∃ a, x = .ok a ∧ f a = .ok b := by
  cases x with
  | error e => simp [bind, Except.bind]
  | ok a => simp [bind, Except.bind]

@[simp] theorem return_ok {α : Type} {a b : α} : (pure a : Except String α) = .ok b ↔ a = b := by
  simp [pure, Except.pure]

@[simp] theorem check_ok {p : Prop} [Decidable p] {m : String} {u : Unit} :
    check p m = .ok u ↔ p := by
  unfold check
  split_ifs with h <;> simp [h]

/-- `Instruction::print`. -/
def Instruction.print : Instruction → Except String String
  | .const value => do
      check (value % 2 = 1) "Check failed: _value & 1 "
      return "CONST\t" ++ formatInt (value / 2)
  | .string _ str => .ok ("STRING\t" ++ str)
  | .sExpression name size => .ok ("SEXP\t" ++ name ++ " " ++ formatInt size)
  | .storeStack => todo
  | .storeArray => .ok "STA"
  | .jump target => .ok ("JMP\t" ++ formatHex10 target)
  | .conditionalJump target zero =>
      .ok ("CJMP" ++ (if zero then "z" else "nz") ++ "\t" ++ formatHex10 target)
  | .returnInst => todo
  | .drop => .ok "DROP"
  | .duplicate => .ok "DUP"
  | .swap => todo
  | .elem => .ok "ELEM"
  | .closure offset entries =>
      .ok ("CLOSURE\t" ++ ipToString offset ++ String.join (entries.map LocationEntry.text))
  | .cBegin _ argc locc => .ok ("CBEGIN\t" ++ formatInt argc ++ " " ++ formatInt locc)
  | .beginInst id argc locc =>
      .ok ("BEGIN\t" ++ formatInt argc ++ " " ++ formatInt locc ++
        match id with
        | .inl name => "\t# " ++ name
        | .inr _ => "")
  | .endInst => .ok "END"
  | .callClosure argc => .ok ("CALLC\t" ++ formatInt argc)
  | .tag name size => .ok ("TAG\t" ++ name ++ " " ++ formatInt size)
  | .array size => .ok ("ARRAY\t" ++ formatInt size)
  | .fail l col => .ok ("FAIL\t" ++ formatInt l ++ ":" ++ formatInt col)
  | .line l => .ok ("LINE\t" ++ formatInt l)
  | .load loc => .ok ("LD\t" ++ loc.text)
  | .loadArray _ _ => todo
  | .store loc => .ok ("ST\t" ++ loc.text)
  | .patternInst type => .ok ("PATT\t" ++ type.text)
  | .builtinRead => .ok "CALL\tLread"
  | .builtinWrite => .ok "CALL\tLwrite"
  | .builtinLength => .ok "CALL\tLlength"
  | .builtinString => .ok "CALL\tLstring"
  | .builtinArray len => .ok ("CALL\tBarray\t" ++ formatInt len)
  | .call callee argc => .ok ("CALL\t" ++ locToString callee ++ " " ++ formatInt argc)
  | .binop op => .ok ("BINOP\t" ++ op.text)

end LamaRv
