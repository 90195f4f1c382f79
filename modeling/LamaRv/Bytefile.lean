import LamaRv.Compiler.Instruction

/-!
# The bytecode file and its reader (`bytefile.h`, `inst_reader.h`, `read.cpp`, `dump.cpp`)

A bytecode file has a string table, a table of public symbols and the code.  Texts in the table
end with a zero byte, numbers are little-endian and have 32 bits.

* `InstReader.readInst`: the decoder of the compiler;
* `dump`: the lines of the code section that `bcdump` prints with this decoder.
-/

namespace LamaRv

abbrev Byte := BitVec 8

/-- `bytefile`, as far as the two decoders use it: the string table, the public symbols with the
index of the name and the offset of the code, and the bytes from `code_ptr` to the end. -/
structure Bytefile where
  stringtab : List Byte
  publics : List (ℤ × ℤ)
  code : List Byte
  deriving DecidableEq

namespace Bytefile

/-- `size`: the bytes of the structure, which has 52 before its buffer. -/
def size (f : Bytefile) : ℕ := 52 + 8 * f.publics.length + f.stringtab.length + f.code.length

/-- `get_string`.  The text is not cut off at the end of the table. -/
def getString (f : Bytefile) (pos : ℤ) : Except String String := do
  check (0 ≤ pos) "Negative string index"
  check (pos < f.stringtab.length) "Index out of bounds"
  let bytes := ((f.stringtab ++ f.code).drop pos.toNat).takeWhile (· ≠ 0)
  return String.ofList (bytes.map fun b => Char.ofNat b.toNat)

/-- `get_public_name`. -/
def getPublicName (f : Bytefile) (i : ℕ) : Except String String :=
  match f.publics[i]? with
  | some (name, _) => f.getString name
  | none => .error "Index out of bounds"

/-- `get_public_offset`. -/
def getPublicOffset (f : Bytefile) (i : ℕ) : Except String ℤ :=
  match f.publics[i]? with
  | some (_, offset) => do
      check (offset ≤ f.size) "Invalid public offset"
      return offset
  | none => .error "Index out of bounds"

end Bytefile

/-! ### Reading bytes -/

/-- The place of a decoder in the code: `ip - code_ptr` and the bytes from `ip`. -/
structure Cursor where
  offset : ℕ
  rest : List Byte
  deriving DecidableEq

abbrev Read := StateT Cursor (Except String)

/-- One byte.  The decoder of the compiler checks the bounds, and no decoder can go on outside of
them. -/
def readByte : Read Byte := fun c =>
  match c.rest with
  | b :: rest => .ok (b, ⟨c.offset + 1, rest⟩)
  | [] => .error "ip is out of code section"

/-- A little-endian number. -/
def readInt : Read ℤ := do
  let b₀ ← readByte
  let b₁ ← readByte
  let b₂ ← readByte
  let b₃ ← readByte
  return (b₃ ++ b₂ ++ b₁ ++ b₀ : BitVec 32).toInt

/-- The high half of an opcode. -/
def high (x : Byte) : ℕ := x.toNat / 16

/-- The low half of an opcode. -/
def low (x : Byte) : ℕ := x.toNat % 16

/-! ### The reader of the compiler -/

/-- The reader: its place, the `BEGIN`s and the strings so far. -/
structure InstReader where
  cursor : Cursor
  functionIndex : ℕ
  strings : List String
  deriving DecidableEq

namespace InstReader

abbrev M := StateT InstReader (Except String)

instance : MonadLift Read M where
  monadLift x r := do
    let (a, c) ← x r.cursor
    return (a, { r with cursor := c })

/-- `read_string` without a position. -/
def readString (f : Bytefile) : M String := do f.getString (← readInt)

/-- `read_string` with a position: the position `-1` stands for none. -/
def readStringAt (f : Bytefile) (pos : ℤ) : M String :=
  if pos = -1 then readString f else f.getString pos

/-- `read_loc`. -/
def readLoc : M LocationEntry := do
  let kind ← readByte
  let index ← readInt
  return ⟨.ofNat kind.toNat, index⟩

/-- Repeat a reading. -/
def times {α : Type} (x : M α) : ℕ → M (List α)
  | 0 => return []
  | n + 1 => do
      let a ← x
      return a :: (← times x n)

/-- A number that the constructor of an instruction keeps as a `size_t`. -/
def readSize : M ℕ := do return toSizeT (← readInt)

/-- `read_inst`: nothing stands for `nullptr`. -/
def readInst (f : Bytefile) : M (Option Instruction) := do
  let x ← readByte
  let l := low x
  match x.toNat with
  | 16 => return some (.ofLiteral (← readInt))
  | 17 => do
      let str ← readStringAt f (← readInt)
      modify fun r => { r with strings := r.strings ++ [str] }
      return some (.string ((← get).strings.length - 1) str)
  | 18 => do
      let name ← readString f
      return some (.sExpression name (← readSize))
  | 19 => return some .storeStack
  | 20 => return some .storeArray
  | 21 => return some (.jump (← readSize))
  | 22 => return some .endInst
  | 23 => return some .returnInst
  | 24 => return some .drop
  | 25 => return some .duplicate
  | 26 => return some .swap
  | 27 => return some .elem
  | 80 => return some (.conditionalJump (← readSize) true)
  | 81 => return some (.conditionalJump (← readSize) false)
  | 82 => do
      let index := (← get).functionIndex
      modify fun r => { r with functionIndex := r.functionIndex + 1 }
      let offset := (← get).cursor.offset - 1
      let argc ← readSize
      let locc ← readSize
      if index < f.publics.length then do
        check ((← f.getPublicOffset index) = offset) "function offset mismatch"
        return some (.beginInst (.inl (← f.getPublicName index)) argc locc)
      else
        return some (.beginInst (.inr offset) argc locc)
  | 83 => do
      let argc ← readSize
      return some (.cBegin 0 argc (← readSize))
  | 84 => do
      let entry ← readSize
      let n ← readInt
      check (0 ≤ n) "Assertion 'bool(__value <= __bound)' failed."
      return some (.closure entry (← times readLoc n.toNat))
  | 85 => return some (.callClosure (← readSize))
  | 86 => do
      let callee ← readSize
      return some (.call (.inr callee) (← readSize))
  | 87 => do
      let name ← readString f
      return some (.tag name (← readSize))
  | 88 => return some (.array (← readSize))
  | 89 => do
      let line ← readSize
      return some (.fail line (← readSize))
  | 90 => return some (.line (← readSize))
  | _ =>
    match high x with
    | 0 => return some (.binop (.ofNat l))
    | 2 => do
        let index ← readInt
        return some (.load ⟨.ofNat l, index⟩)
    | 3 => do
        let index ← readSize
        return some (.loadArray index (.ofNat l))
    | 4 => do
        let index ← readInt
        return some (.store ⟨.ofNat l, index⟩)
    | 6 => return some (.patternInst (.ofNat l))
    | 7 =>
      match l with
      | 0 => return some .builtinRead
      | 1 => return some .builtinWrite
      | 2 => return some .builtinLength
      | 3 => return some .builtinString
      | 4 => return some (.builtinArray (← readSize))
      | _ => throw "Unknown LCall"
    | 15 => return none
    | _ => throw "Unknown opcode"

/-- The constructor's look at a public symbol. -/
def notePublic (f : Bytefile) (i : ℕ) : Except String Unit := do
  let _ ← f.getPublicOffset i
  let _ ← f.getPublicName i
  return ()

/-- The constructor. -/
def new (f : Bytefile) : Except String InstReader := do
  (List.range f.publics.length).forM (notePublic f)
  return ⟨⟨0, f.code⟩, 0, []⟩

end InstReader

/-- The loop of `dump`, with a bound on its rounds. -/
def dumpLoop (f : Bytefile) : ℕ → InstReader.M (List String)
  | 0 => throw "out of fuel"
  | n + 1 => do
      let address := formatHex10 (← get).cursor.offset ++ ":\t"
      match ← InstReader.readInst f with
      | none => return [address ++ "<end>"]
      | some inst => do
          let line := address ++ (← inst.print)
          return line :: (← dumpLoop f n)

/-- The lines of the code section that `dump` prints.  An instruction has a byte at least. -/
def dump (f : Bytefile) : Except String (List String) := do
  let (lines, _) ← dumpLoop f (f.code.length + 1) (← InstReader.new f)
  return lines

end LamaRv
