import LamaRv.Bytefile

/-!
# The disassembler (`disasm.cpp`)

The decoder of `disasm`, with tables and readings of its own.

* `Disasm.text`: the text of one instruction;
* `disassemble`: the lines of the code section.
-/

namespace LamaRv

namespace Disasm

/-- `ops`. -/
def ops : List String := ["+", "-", "*", "/", "%", "<", "<=", ">", ">=", "==", "!=", "&&", "!!"]

/-- `pats`. -/
def pats : List String := ["=str", "#string", "#array", "#sexp", "#ref", "#val", "#fun"]

/-- `lds`. -/
def lds : List String := ["LD", "LDA", "ST"]

/-- An entry of a table. -/
def entry (table : List String) (i : ℤ) : Except String String :=
  match table[i.toNat]?.filter fun _ => 0 ≤ i with
  | some s => .ok s
  | none => .error "outside of the table"

/-- The names of the public symbols with an offset, as comments. -/
def publicNames (f : Bytefile) (offset : ℕ) : List ℕ → Except String String
  | [] => return ""
  | i :: is => do
      if (← f.getPublicOffset i) = offset then
        return "\t# " ++ (← f.getPublicName i) ++ (← publicNames f offset is)
      else publicNames f offset is

/-- A location; the text of a kind without a name goes to the error stream. -/
def location (kind : ℕ) : Read String :=
  match kind with
  | 0 => return "G(" ++ formatInt (← readInt) ++ ")"
  | 1 => return "L(" ++ formatInt (← readInt) ++ ")"
  | 2 => return "A(" ++ formatInt (← readInt) ++ ")"
  | 3 => return "C(" ++ formatInt (← readInt) ++ ")"
  | _ => return ""

/-- The locations of a closure. -/
def locations : ℕ → Read String
  | 0 => return ""
  | n + 1 => do
      let kind ← readByte
      let loc ← location kind.toNat
      return loc ++ (← locations n)

/-- `STRING`. -/
def readString (f : Bytefile) : Read String := do f.getString (← readInt)

/-- `INT` in decimal. -/
def decimal : Read String := do return formatInt (← readInt)

/-- `INT` in hexadecimal. -/
def hexadecimal : Read String := do return formatHex10Int (← readInt)

/-- The text after the address, for an opcode that does not stop. -/
def text (f : Bytefile) (x : Byte) : Read String :=
  match high x with
  | 0 => return "BINOP\t" ++ (← entry ops ((low x : ℤ) - 1))
  | 1 =>
    match low x with
    | 0 => return "CONST\t" ++ (← decimal)
    | 1 => return "STRING\t" ++ (← readString f)
    | 2 => return "SEXP\t" ++ (← readString f) ++ " " ++ (← decimal)
    | 3 => return "STI"
    | 4 => return "STA"
    | 5 => return "JMP\t" ++ (← hexadecimal)
    | 6 => return "END"
    | 7 => return "RET"
    | 8 => return "DROP"
    | 9 => return "DUP"
    | 10 => return "SWAP"
    | 11 => return "ELEM"
    | _ => return ""
  | 2 | 3 | 4 => return (← entry lds (high x - 2)) ++ "\t" ++ (← location (low x))
  | 5 =>
    match low x with
    | 0 => return "CJMPz\t" ++ (← hexadecimal)
    | 1 => return "CJMPnz\t" ++ (← hexadecimal)
    | 2 => do
        let offset := (← get).offset - 1
        let argc ← decimal
        let locc ← decimal
        let names ← publicNames f offset (List.range f.publics.length)
        return "BEGIN\t" ++ argc ++ " " ++ locc ++ names
    | 3 => return "CBEGIN\t" ++ (← decimal) ++ " " ++ (← decimal)
    | 4 => do
        let entry ← hexadecimal
        let n ← readInt
        return "CLOSURE\t" ++ entry ++ (← locations n.toNat)
    | 5 => return "CALLC\t" ++ (← decimal)
    | 6 => return "CALL\t" ++ (← hexadecimal) ++ " " ++ (← decimal)
    | 7 => return "TAG\t" ++ (← readString f) ++ " " ++ (← decimal)
    | 8 => return "ARRAY\t" ++ (← decimal)
    | 9 => return "FAIL\t" ++ (← decimal) ++ ":" ++ (← decimal)
    | 10 => return "LINE\t" ++ (← decimal)
    | _ => return ""
  | 6 => return "PATT\t" ++ (← entry pats (low x))
  | 7 =>
    match low x with
    | 0 => return "CALL\tLread"
    | 1 => return "CALL\tLwrite"
    | 2 => return "CALL\tLlength"
    | 3 => return "CALL\tLstring"
    | 4 => return "CALL\tBarray\t" ++ (← decimal)
    | _ => return ""
  | _ => return ""

/-- The loop of `disassemble`, with a bound on its rounds. -/
def loop (f : Bytefile) : ℕ → Read (List String)
  | 0 => throw "out of fuel"
  | n + 1 => do
      let x ← readByte
      let address := formatHex10 ((← get).offset - 1) ++ ":\t"
      if high x = 15 then return [address ++ "<end>"]
      else do
        let line := address ++ (← text f x)
        return line :: (← loop f n)

end Disasm

/-- The lines that `disassemble` prints.  An instruction has a byte at least. -/
def disassemble (f : Bytefile) : Except String (List String) := do
  let (lines, _) ← Disasm.loop f (f.code.length + 1) ⟨0, f.code⟩
  return lines

end LamaRv
