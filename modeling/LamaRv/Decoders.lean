import LamaRv.Disasm

/-!
# Encoded instructions

The instructions as the bytecode file has them, and what each of the two decoders makes of one.

* `Code`: the encoded instructions that both decoders can print;
* `run_disasm_text`, `run_readInst`: both read all of an instruction;
* `run_readInst_public`, `run_readInst_private`: the reader at a `BEGIN`.
-/

namespace LamaRv

/-! ### Encoded instructions -/

/-- A non-negative number of 32 bits. -/
structure Operand where
  bits : BitVec 32
  nonneg : 0 ≤ bits.toInt
  deriving DecidableEq

/-- The bytes of a number. -/
def littleEndian (x : BitVec 32) : List Byte :=
  [x.extractLsb' 0 8, x.extractLsb' 8 8, x.extractLsb' 16 8, x.extractLsb' 24 8]

/-- The instructions that both decoders can print, with operands as in the file. -/
inductive Code
  | binop (op : BinopKind) (named : 1 ≤ op.number ∧ op.number ≤ 13 := by decide)
  | const (c : BitVec 32)
  | string (pos : Operand)
  | sExp (pos size : Operand)
  | stA
  | jmp (target : Operand)
  | endInst
  | drop
  | dup
  | elem
  | ld (loc : Location) (index : Operand) (named : loc.number ≤ 3 := by decide)
  | st (loc : Location) (index : Operand) (named : loc.number ≤ 3 := by decide)
  | cJmp (zero : Bool) (target : Operand)
  | beginInst (argc locc : Operand)
  | cBegin (argc locc : Operand)
  | closure (entry : Operand) (captured : List (Location × Operand))
      (short : captured.length < 2 ^ 31) (named : ∀ x ∈ captured, x.1.number ≤ 3)
  | callC (argc : Operand)
  | call (callee argc : Operand)
  | tag (pos size : Operand)
  | array (size : Operand)
  | fail (line col : Operand)
  | line (line : Operand)
  | patt (type : Pattern) (named : type.number ≤ 6 := by decide)
  | lRead
  | lWrite
  | lLength
  | lString
  | bArray (size : Operand)

/-- `COMPOSED`. -/
def composed (h l : ℕ) : Byte := BitVec.ofNat 8 (16 * h + l)

namespace Operand

def bytes (n : Operand) : List Byte := littleEndian n.bits

/-- The number. -/
def value (n : Operand) : ℕ := n.bits.toNat

end Operand

namespace Code

def opcode : Code → Byte
  | binop op _ => composed 0 op.number
  | const _ => 16 | string _ => 17 | sExp _ _ => 18 | stA => 20 | jmp _ => 21 | endInst => 22
  | drop => 24 | dup => 25 | elem => 27
  | ld loc _ _ => composed 2 loc.number
  | st loc _ _ => composed 4 loc.number
  | cJmp zero _ => if zero then 80 else 81
  | beginInst _ _ => 82 | cBegin _ _ => 83 | closure _ _ _ _ => 84 | callC _ => 85 | call _ _ => 86
  | tag _ _ => 87 | array _ => 88 | fail _ _ => 89 | line _ => 90
  | patt type _ => composed 6 type.number
  | lRead => composed 7 0 | lWrite => composed 7 1 | lLength => composed 7 2
  | lString => composed 7 3 | bArray _ => composed 7 4

/-- The bytes of the captured locations. -/
def locationBytes (captured : List (Location × Operand)) : List Byte :=
  captured.flatMap fun (loc, index) => BitVec.ofNat 8 loc.number :: index.bytes

/-- The bytes after the opcode. -/
def operands : Code → List Byte
  | const c => littleEndian c
  | string n | jmp n | cJmp _ n | ld _ n _ | st _ n _ | callC n | array n | line n | bArray n => n.bytes
  | sExp m n | beginInst m n | cBegin m n | call m n | tag m n | fail m n => m.bytes ++ n.bytes
  | closure entry captured _ _ =>
      entry.bytes ++ littleEndian (BitVec.ofNat 32 captured.length) ++ locationBytes captured
  | _ => []

/-- The bytes of an instruction. -/
def encode (i : Code) : List Byte := i.opcode :: i.operands

/-- The index of a string lies inside the table. -/
def InTable (f : Bytefile) : Code → Prop
  | string pos | sExp pos _ | tag pos _ => pos.value < f.stringtab.length
  | _ => True

/-- How a decoder spells what the two spell in their own ways. -/
structure Spelling where
  op : BinopKind → String
  literal : ℤ → ℤ

/-- The text of a string in the table. -/
def stringAt (f : Bytefile) (pos : ℕ) : String :=
  String.ofList ((((f.stringtab ++ f.code).drop pos).takeWhile (· ≠ 0)).map
    fun b => Char.ofNat b.toNat)

/-- The text of an instruction; `name` follows a `BEGIN`. -/
def text (f : Bytefile) (spelling : Spelling) (name : String) : Code → String
  | binop op _ => "BINOP\t" ++ spelling.op op
  | const c => "CONST\t" ++ formatInt (spelling.literal c.toInt)
  | string pos => "STRING\t" ++ stringAt f pos.value
  | sExp pos size => "SEXP\t" ++ stringAt f pos.value ++ " " ++ formatInt size.value
  | stA => "STA"
  | jmp target => "JMP\t" ++ formatHex10 target.value
  | endInst => "END"
  | drop => "DROP"
  | dup => "DUP"
  | elem => "ELEM"
  | ld loc index _ => "LD\t" ++ LocationEntry.text ⟨loc, index.value⟩
  | st loc index _ => "ST\t" ++ LocationEntry.text ⟨loc, index.value⟩
  | cJmp zero target => "CJMP" ++ (if zero then "z" else "nz") ++ "\t" ++ formatHex10 target.value
  | beginInst argc locc =>
      "BEGIN\t" ++ formatInt argc.value ++ " " ++ formatInt locc.value ++ name
  | cBegin argc locc => "CBEGIN\t" ++ formatInt argc.value ++ " " ++ formatInt locc.value
  | closure entry captured _ _ =>
      "CLOSURE\t" ++ formatHex10 entry.value ++
        String.join (captured.map fun (loc, index) => LocationEntry.text ⟨loc, index.value⟩)
  | callC argc => "CALLC\t" ++ formatInt argc.value
  | call callee argc => "CALL\t" ++ formatHex10 callee.value ++ " " ++ formatInt argc.value
  | tag pos size => "TAG\t" ++ stringAt f pos.value ++ " " ++ formatInt size.value
  | array size => "ARRAY\t" ++ formatInt size.value
  | fail l col => "FAIL\t" ++ formatInt l.value ++ ":" ++ formatInt col.value
  | line l => "LINE\t" ++ formatInt l.value
  | patt type _ => "PATT\t" ++ type.text
  | lRead => "CALL\tLread"
  | lWrite => "CALL\tLwrite"
  | lLength => "CALL\tLlength"
  | lString => "CALL\tLstring"
  | bArray size => "CALL\tBarray\t" ++ formatInt size.value

end Code

/-- The disassembler. -/
def disasmSpelling : Code.Spelling := ⟨fun op => Disasm.ops.getD (op.number - 1) "", id⟩

/-- The reader boxes a literal and prints it unboxed. -/
def dumpSpelling : Code.Spelling := ⟨BinopKind.text, fun c => toInt (2 * c + 1) / 2⟩

/-! ### Reading what was encoded -/

open Code

namespace Operand

theorem toInt_bits (n : Operand) : n.bits.toInt = n.value := by
  have h := n.nonneg
  rw [BitVec.toInt_eq_toNat_cond] at h ⊢
  have hlt := n.bits.isLt
  unfold value
  split_ifs at h ⊢
  · rfl
  · omega

theorem value_lt (n : Operand) : n.value < 2 ^ 31 := by
  have h := toInt_bits n
  have hlt := @BitVec.toInt_lt 32 n.bits
  omega

theorem toSizeT_bits (n : Operand) : toSizeT n.bits.toInt = n.value := by
  rw [n.toInt_bits]
  exact toSizeT_natCast (by have := n.value_lt; omega)

end Operand

theorem run_readByte (o : ℕ) (b : Byte) (rest : List Byte) :
    readByte.run ⟨o, b :: rest⟩ = .ok (b, ⟨o + 1, rest⟩) := rfl

theorem append_littleEndian (x : BitVec 32) :
    (x.extractLsb' 24 8 ++ x.extractLsb' 16 8 ++ x.extractLsb' 8 8 ++ x.extractLsb' 0 8 : BitVec 32)
      = x := by
  ext k hk
  simp only [BitVec.getElem_append, BitVec.getElem_extractLsb']
  grind

theorem run_readInt (o : ℕ) (x : BitVec 32) (rest : List Byte) :
    readInt.run ⟨o, littleEndian x ++ rest⟩ = .ok (x.toInt, ⟨o + 4, rest⟩) := by
  have h : readInt.run ⟨o, littleEndian x ++ rest⟩ =
      .ok ((x.extractLsb' 24 8 ++ x.extractLsb' 16 8 ++ x.extractLsb' 8 8 ++ x.extractLsb' 0 8 :
        BitVec 32).toInt, ⟨o + 4, rest⟩) := rfl
  rw [h, append_littleEndian]

theorem ok_bind {α β : Type} (a : α) (g : α → Except String β) : (Except.ok a >>= g) = g a := rfl

variable {f : Bytefile} {o : ℕ} {rest : List Byte}

theorem run_decimal (n : Operand) :
    Disasm.decimal.run ⟨o, n.bytes ++ rest⟩ = .ok (formatInt n.value, ⟨o + 4, rest⟩) := by
  simp only [Disasm.decimal, Operand.bytes, StateT.run_bind, run_readInt, ok_bind, StateT.run_pure,
    n.toInt_bits]
  rfl

theorem run_hexadecimal (n : Operand) :
    Disasm.hexadecimal.run ⟨o, n.bytes ++ rest⟩ = .ok (formatHex10 n.value, ⟨o + 4, rest⟩) := by
  have hnonneg : ¬ (n.value : ℤ) < 0 := by omega
  simp only [Disasm.hexadecimal, Operand.bytes, StateT.run_bind, run_readInt, ok_bind,
    StateT.run_pure, n.toInt_bits, formatHex10Int, Int.toNat_natCast, if_neg hnonneg]
  rfl

theorem getString_value {n : ℕ} (h : n < f.stringtab.length) :
    f.getString n = .ok (stringAt f n) := by
  simp [Bytefile.getString, check, stringAt, h, ok_bind, Pure.pure, Except.pure]

theorem run_readString {n : Operand} (h : n.value < f.stringtab.length) :
    (Disasm.readString f).run ⟨o, n.bytes ++ rest⟩ = .ok (stringAt f n.value, ⟨o + 4, rest⟩) := by
  simp [Disasm.readString, Operand.bytes, run_readInt, ok_bind, n.toInt_bits, getString_value h]


theorem run_return {σ α : Type} (a : α) (c : σ) :
    (pure a : StateT σ (Except String) α).run c = .ok (a, c) := rfl

theorem run_get {σ : Type} (c : σ) : (get : StateT σ (Except String) σ).run c = .ok (c, c) := rfl

theorem run_lift {σ α : Type} (a : α) (c : σ) :
    (liftM (Except.ok a : Except String α) : StateT σ (Except String) α).run c = .ok (a, c) := rfl

theorem run_location {loc : Location} (hloc : loc.number ≤ 3) (n : Operand) :
    (Disasm.location loc.number).run ⟨o, n.bytes ++ rest⟩ =
      .ok (LocationEntry.text ⟨loc, n.value⟩, ⟨o + 4, rest⟩) := by
  cases loc with
  | other m h => exact absurd hloc h.not_ge
  | _ =>
    simp only [Disasm.location, Location.number, Operand.bytes, StateT.run_bind, run_readInt,
      ok_bind, n.toInt_bits, run_return, LocationEntry.text, Location.text]
    rfl

theorem toNat_number {loc : Location} (hloc : loc.number ≤ 3) :
    (BitVec.ofNat 8 loc.number).toNat = loc.number := by
  rw [BitVec.toNat_ofNat]
  exact Nat.mod_eq_of_lt (by omega)

theorem run_locations {captured : List (Location × Operand)} (h : ∀ x ∈ captured, x.1.number ≤ 3) :
    (Disasm.locations captured.length).run ⟨o, locationBytes captured ++ rest⟩ =
      .ok (String.join (captured.map fun (loc, index) => LocationEntry.text ⟨loc, index.value⟩),
        ⟨o + (locationBytes captured).length, rest⟩) := by
  induction captured generalizing o with
  | nil => rfl
  | cons x xs ih =>
    obtain ⟨loc, n⟩ := x
    have hbytes : locationBytes ((loc, n) :: xs) ++ rest =
        BitVec.ofNat 8 loc.number :: (n.bytes ++ (locationBytes xs ++ rest)) := by
      simp [locationBytes]
    have hlength : o + (locationBytes ((loc, n) :: xs)).length =
        o + 1 + 4 + (locationBytes xs).length := by
      simp [locationBytes, Operand.bytes, littleEndian]
      omega
    obtain ⟨hloc, hrest⟩ := List.forall_mem_cons.1 h
    rw [hbytes, hlength]
    simp only [List.length_cons, Disasm.locations, StateT.run_bind, run_readByte, ok_bind,
      toNat_number hloc, run_location hloc, ih hrest, run_return, List.map_cons, String.join_cons]

theorem toInt_ofNat_short {n : ℕ} (h : n < 2 ^ 31) : (BitVec.ofNat 32 n).toInt = n := by
  rw [BitVec.toInt_eq_toNat_cond]
  simp
  omega

theorem high_composed {h l : ℕ} (hh : h < 16) (hl : l < 16) : high (composed h l) = h := by
  rw [high, composed, BitVec.toNat_ofNat]
  omega

theorem low_composed {h l : ℕ} (hl : l < 16) : low (composed h l) = l := by
  rw [low, composed, BitVec.toNat_ofNat]
  omega

/-- The disassembler prints an instruction and reads all of it. -/
theorem run_disasm_text {i : Code} (hi : i.InTable f) {name : String}
    (hname : Disasm.publicNames f o (List.range f.publics.length) = .ok name) :
    (Disasm.text f i.opcode).run ⟨o + 1, i.operands ++ rest⟩ =
      .ok (i.text f disasmSpelling name, ⟨o + i.encode.length, rest⟩) := by
  cases i with
  | binop op named =>
    cases op with
    | other m h => exact absurd named (by simp only [BinopKind.number]; omega)
    | _ => rw [opcode]; rfl
  | patt type named =>
    cases type with
    | other m h => exact absurd named h.not_ge
    | _ => rw [opcode]; rfl
  | stA | endInst | drop | dup | elem | lRead | lWrite | lLength | lString => rfl
  | const c =>
    simp only [opcode, operands, Disasm.text, high, low, BitVec.reduceToNat, Nat.reduceDiv,
      Nat.reduceMod, StateT.run_bind, Disasm.decimal, run_readInt, ok_bind, run_return]
    rfl
  | string pos =>
    simp only [opcode, operands, Disasm.text, high, low, BitVec.reduceToNat, Nat.reduceDiv,
      Nat.reduceMod, StateT.run_bind, run_readString hi, ok_bind, run_return]
    rfl
  | sExp pos size | tag pos size =>
    simp only [opcode, operands, Disasm.text, high, low, BitVec.reduceToNat, Nat.reduceDiv,
      Nat.reduceMod, List.append_assoc, StateT.run_bind, run_readString hi, run_decimal, ok_bind,
      run_return]
    rfl
  | ld loc index named =>
    have hhigh : high (composed 2 loc.number) = 2 := high_composed (by decide) (by omega)
    have hlow : low (composed 2 loc.number) = loc.number := low_composed (by omega)
    have hentry : Disasm.entry Disasm.lds ((2 : ℕ) - 2) = .ok "LD" := rfl
    simp only [opcode, operands, Disasm.text, hhigh, hlow, hentry, StateT.run_bind,
      run_location named, run_lift, ok_bind, run_return]
    rfl
  | st loc index named =>
    have hhigh : high (composed 4 loc.number) = 4 := high_composed (by decide) (by omega)
    have hlow : low (composed 4 loc.number) = loc.number := low_composed (by omega)
    have hentry : Disasm.entry Disasm.lds ((4 : ℕ) - 2) = .ok "ST" := rfl
    simp only [opcode, operands, Disasm.text, hhigh, hlow, hentry, StateT.run_bind,
      run_location named, run_lift, ok_bind, run_return]
    rfl
  | cJmp zero target =>
    cases zero
    all_goals
      simp only [opcode, operands, Disasm.text, high, low, if_true, if_false, Bool.false_eq_true,
        BitVec.reduceToNat, Nat.reduceDiv, Nat.reduceMod, StateT.run_bind, run_hexadecimal, ok_bind,
        run_return]
      rfl
  | jmp n | callC n | array n | line n | bArray n | cBegin m n | call m n | fail m n =>
    simp only [opcode, operands, Disasm.text, high, low, composed, BitVec.reduceToNat,
      Nat.reduceMul, Nat.reduceAdd, Nat.reduceDiv, Nat.reduceMod, List.append_assoc, StateT.run_bind,
      run_hexadecimal, run_decimal, ok_bind, run_return]
    rfl
  | beginInst argc locc =>
    simp only [opcode, operands, Disasm.text, high, low, BitVec.reduceToNat, Nat.reduceDiv,
      Nat.reduceMod, List.append_assoc, StateT.run_bind, run_get, run_decimal, ok_bind, run_return,
      Nat.add_sub_cancel, hname, run_lift]
    rfl
  | closure entry captured short named =>
    have hlength : o + 1 + 4 + 4 + (locationBytes captured).length =
        o + (Code.closure entry captured short named).encode.length := by
      simp [encode, operands, Operand.bytes, littleEndian]
      omega
    simp only [opcode, operands, Disasm.text, high, low, BitVec.reduceToNat, Nat.reduceDiv,
      Nat.reduceMod, List.append_assoc, StateT.run_bind, run_hexadecimal, run_readInt,
      toInt_ofNat_short short, Int.toNat_natCast, run_locations named, ok_bind, run_return, hlength]
    rfl

/-! ### The reader of the compiler -/

theorem run_monadLift {α : Type} {x : Read α} {c c' : Cursor} {a : α} (h : x.run c = .ok (a, c'))
    (k : ℕ) (strings : List String) :
    (liftM x : InstReader.M α).run ⟨c, k, strings⟩ = .ok (a, ⟨c', k, strings⟩) := by
  have : (liftM x : InstReader.M α).run ⟨c, k, strings⟩ = 
     (x.run c >>= fun p => .ok (p.1, ⟨p.2, k, strings⟩)) := rfl
  rw [this, h, ok_bind]

variable {k : ℕ} {strings : List String}

theorem run_readSize (n : Operand) :
    InstReader.readSize.run ⟨⟨o, n.bytes ++ rest⟩, k, strings⟩ =
      .ok (n.value, ⟨⟨o + 4, rest⟩, k, strings⟩) := by
  simp only [InstReader.readSize, Operand.bytes, StateT.run_bind, run_monadLift (run_readInt _ _ _),
    ok_bind, run_return, n.toSizeT_bits]


theorem run_get_reader (r : InstReader) : (get : InstReader.M InstReader).run r = .ok (r, r) := rfl

theorem run_modify (g : InstReader → InstReader) (r : InstReader) :
    (modify g : InstReader.M PUnit).run r = .ok (⟨⟩, g r) := rfl

theorem run_liftOk {α : Type} (a : α) (r : InstReader) :
    (liftM (Except.ok a : Except String α) : InstReader.M α).run r = .ok (a, r) := rfl

theorem run_reader_readString {n : Operand} (h : n.value < f.stringtab.length) :
    (InstReader.readString f).run ⟨⟨o, n.bytes ++ rest⟩, k, strings⟩ =
      .ok (stringAt f n.value, ⟨⟨o + 4, rest⟩, k, strings⟩) := by
  simp only [InstReader.readString, Operand.bytes, StateT.run_bind,
    run_monadLift (run_readInt _ _ _), ok_bind, n.toInt_bits, getString_value h, run_liftOk]

theorem ofNat_number (loc : Location) : Location.ofNat loc.number = loc := by
  cases loc with
  | other m h =>
    obtain ⟨l, rfl⟩ : ∃ l, m = l + 4 := ⟨m - 4, by omega⟩
    rfl
  | _ => rfl

theorem run_readLoc {loc : Location} (hloc : loc.number ≤ 3) (n : Operand) :
    InstReader.readLoc.run ⟨⟨o, BitVec.ofNat 8 loc.number :: (n.bytes ++ rest)⟩, k, strings⟩ =
      .ok (⟨loc, n.value⟩, ⟨⟨o + 1 + 4, rest⟩, k, strings⟩) := by
  simp only [InstReader.readLoc, Operand.bytes, StateT.run_bind, run_monadLift (run_readByte _ _ _),
    run_monadLift (run_readInt _ _ _), ok_bind, run_return,
    n.toInt_bits, toNat_number hloc, ofNat_number]

theorem run_times {captured : List (Location × Operand)} (h : ∀ x ∈ captured, x.1.number ≤ 3) :
    (InstReader.times InstReader.readLoc captured.length).run
        ⟨⟨o, locationBytes captured ++ rest⟩, k, strings⟩ =
      .ok (captured.map fun (loc, index) => ⟨loc, index.value⟩,
        ⟨⟨o + (locationBytes captured).length, rest⟩, k, strings⟩) := by
  induction captured generalizing o with
  | nil => rfl
  | cons x xs ih =>
    obtain ⟨loc, n⟩ := x
    have hbytes : locationBytes ((loc, n) :: xs) ++ rest =
        BitVec.ofNat 8 loc.number :: (n.bytes ++ (locationBytes xs ++ rest)) := by
      simp [locationBytes]
    have hlength : o + (locationBytes ((loc, n) :: xs)).length =
        o + 1 + 4 + (locationBytes xs).length := by
      simp [locationBytes, Operand.bytes, littleEndian]
      omega
    obtain ⟨hloc, hrest⟩ := List.forall_mem_cons.1 h
    rw [hbytes, hlength]
    simp only [List.length_cons, InstReader.times, StateT.run_bind, run_readLoc hloc, ok_bind, ih hrest,
      run_return, List.map_cons]

theorem toInt_odd (c : ℤ) : toInt (2 * c + 1) % 2 = 1 := by
  obtain ⟨-, -, m, h⟩ := toInt_spec (2 * c + 1)
  omega

def Code.IsBegin : Code → Prop
  | beginInst _ _ => True
  | _ => False

/-- The object that the reader makes of an instruction other than `BEGIN`; a string is the
`ind`-th one. -/
def Code.instruction (f : Bytefile) (ind : ℕ) : Code → Instruction
  | binop op _ => .binop op
  | const c => .ofLiteral c.toInt
  | string pos => .string ind (stringAt f pos.value)
  | sExp pos size => .sExpression (stringAt f pos.value) size.value
  | stA => .storeArray
  | jmp target => .jump target.value
  | endInst => .endInst
  | drop => .drop
  | dup => .duplicate
  | elem => .elem
  | ld loc index _ => .load ⟨loc, index.value⟩
  | st loc index _ => .store ⟨loc, index.value⟩
  | cJmp zero target => .conditionalJump target.value zero
  | beginInst argc locc => .beginInst (.inl "") argc.value locc.value
  | cBegin argc locc => .cBegin 0 argc.value locc.value
  | closure entry captured _ _ =>
      .closure entry.value (captured.map fun (loc, index) => ⟨loc, index.value⟩)
  | callC argc => .callClosure argc.value
  | call callee argc => .call (.inr callee.value) argc.value
  | tag pos size => .tag (stringAt f pos.value) size.value
  | array size => .array size.value
  | fail l col => .fail l.value col.value
  | line l => .line l.value
  | patt type _ => .patternInst type
  | lRead => .builtinRead
  | lWrite => .builtinWrite
  | lLength => .builtinLength
  | lString => .builtinString
  | bArray size => .builtinArray size.value

/-- The reader reads all of an instruction. -/
theorem run_readInst {i : Code} (hi : i.InTable f) (hbegin : ¬ i.IsBegin) :
    ∃ strings', (InstReader.readInst f).run ⟨⟨o, i.encode ++ rest⟩, k, strings⟩ =
      .ok (some (i.instruction f strings.length), ⟨⟨o + i.encode.length, rest⟩, k, strings'⟩) := by
  have hopcode := run_readByte o i.opcode (i.operands ++ rest)
  rw [show i.encode ++ rest = i.opcode :: (i.operands ++ rest) from rfl]
  unfold InstReader.readInst
  simp only [StateT.run_bind, run_monadLift hopcode, ok_bind]
  cases i with
  | beginInst argc locc => exact absurd trivial hbegin
  | binop op named =>
    cases op with
    | other m h => exact absurd named (by simp only [BinopKind.number]; omega)
    | _ => rw [opcode]; exact ⟨_, rfl⟩
  | patt type named =>
    cases type with
    | other m h => exact absurd named h.not_ge
    | _ => rw [opcode]; exact ⟨_, rfl⟩
  | stA | endInst | drop | dup | elem | lRead | lWrite | lLength | lString => exact ⟨_, rfl⟩
  | const c =>
    refine ⟨strings, ?_⟩
    simp only [opcode, operands, BitVec.reduceToNat, StateT.run_bind,
      run_monadLift (run_readInt _ _ _), ok_bind, run_return]
    rfl
  | string pos =>
    refine ⟨strings ++ [stringAt f pos.value], ?_⟩
    simp only [opcode, operands, Operand.bytes, BitVec.reduceToNat, StateT.run_bind,
      run_monadLift (run_readInt _ _ _), ok_bind, InstReader.readStringAt, pos.toInt_bits,
      if_neg (show ¬ (pos.value : ℤ) = -1 by omega), getString_value hi, run_liftOk, run_modify,
      run_get_reader, run_return, List.length_append, List.length_singleton, Nat.add_sub_cancel]
    rfl
  | sExp pos size | tag pos size =>
    refine ⟨strings, ?_⟩
    simp only [opcode, operands, BitVec.reduceToNat, List.append_assoc, StateT.run_bind,
      run_reader_readString hi, run_readSize, ok_bind, run_return]
    rfl
  | cJmp zero n =>
    refine ⟨strings, ?_⟩
    cases zero
    all_goals
      simp only [opcode, operands, BitVec.reduceToNat, StateT.run_bind, run_readSize, ok_bind,
        run_return, if_true, if_false, Bool.false_eq_true]
      rfl
  | jmp n | callC n | array n | line n | bArray n | cBegin m n | call m n | fail m n =>
    refine ⟨strings, ?_⟩
    simp only [opcode, operands, composed, BitVec.reduceToNat, Nat.reduceMul, Nat.reduceAdd, high,
      low, Nat.reduceDiv, Nat.reduceMod, List.append_assoc, StateT.run_bind, run_readSize, ok_bind,
      run_return]
    rfl
  | ld loc index named | st loc index named =>
    refine ⟨strings, ?_⟩
    cases loc with
    | other m h => exact absurd named h.not_ge
    | _ =>
      simp only [opcode, operands, Location.number, Operand.bytes, composed, BitVec.reduceToNat,
        Nat.reduceMul, Nat.reduceAdd, high, low, Nat.reduceDiv, Nat.reduceMod, StateT.run_bind,
        run_monadLift (run_readInt _ _ _), ok_bind, run_return, index.toInt_bits]
      rfl
  | closure entry captured short named =>
    have hlength : o + 1 + 4 + 4 + (locationBytes captured).length =
        o + (Code.closure entry captured short named).encode.length := by
      simp [encode, operands, Operand.bytes, littleEndian]
      omega
    refine ⟨strings, ?_⟩
    simp only [opcode, operands, BitVec.reduceToNat, List.append_assoc, StateT.run_bind,
      run_readSize, run_monadLift (run_readInt _ _ _), toInt_ofNat_short short, Int.toNat_natCast,
      check, if_pos (Int.natCast_nonneg _), run_liftOk, run_times named, ok_bind, run_return, hlength]
    rfl

theorem print_instruction {i : Code} (hbegin : ¬ i.IsBegin) (ind : ℕ) :
    (i.instruction f ind).print = .ok (i.text f dumpSpelling "") := by
  cases i with
  | beginInst argc locc => exact absurd trivial hbegin
  | const c =>
    simp only [Code.instruction, Instruction.ofLiteral, Instruction.print, check, toInt_odd,
      if_true]
    rfl
  | closure entry captured short named =>
    simp only [Code.instruction, Instruction.print, Code.text, List.map_map]
    rfl
  | _ => rfl

/-! ### Public symbols -/

/-- The names of the public symbols lie inside the string table, and the symbols stand in the order
of their code. -/
structure Bytefile.Sound (f : Bytefile) : Prop where
  names : ∀ p ∈ f.publics, 0 ≤ p.1 ∧ p.1 < f.stringtab.length
  offsets : ∀ p ∈ f.publics, p.2 ≤ f.size
  ordered : f.publics.Pairwise fun p q => p.2 < q.2

/-- The comment after the `BEGIN` of a public symbol. -/
def publicComment (f : Bytefile) (p : ℤ × ℤ) : String := "\t# " ++ stringAt f p.1.toNat

theorem Bytefile.Sound.getPublicOffset (hf : f.Sound) {i : ℕ} {p : ℤ × ℤ}
    (hp : f.publics[i]? = some p) :
    f.getPublicOffset i = .ok p.2 := by
  have hle := hf.offsets p (List.mem_of_getElem? hp)
  simp [Bytefile.getPublicOffset, hp, check, hle, ok_bind, Pure.pure, Except.pure]

theorem Bytefile.Sound.getPublicName (hf : f.Sound) {i : ℕ} {p : ℤ × ℤ}
    (hp : f.publics[i]? = some p) :
    f.getPublicName i = .ok (stringAt f p.1.toNat) := by
  obtain ⟨h0, h1⟩ := hf.names p (List.mem_of_getElem? hp)
  have h := getString_value (f := f) (n := p.1.toNat) (by omega)
  rw [Int.toNat_of_nonneg h0] at h
  simp only [Bytefile.getPublicName, hp, h]

/-- The disassembler looks at every public symbol. -/
theorem Bytefile.Sound.publicNames (hf : f.Sound) (o : ℕ) (pre ps : List (ℤ × ℤ))
    (h : f.publics = pre ++ ps) :
    Disasm.publicNames f o (List.range' pre.length ps.length) =
      .ok (String.join ((ps.filter (·.2 = (o : ℤ))).map (publicComment f))) := by
  induction ps generalizing pre with
  | nil => rfl
  | cons p ps ih =>
    have hp : f.publics[pre.length]? = some p := by simp [h]
    have hrest := ih (pre ++ [p]) (by simp [h])
    rw [List.length_append, List.length_singleton] at hrest
    simp only [List.length_cons, List.range'_succ, Disasm.publicNames, hf.getPublicOffset hp,
      hf.getPublicName hp, hrest, ok_bind]
    by_cases ho : p.2 = o
    · simp [ho, publicComment, pure, Except.pure, String.append_assoc]
    · simp [ho]

theorem Bytefile.Sound.publicNames_self (hf : f.Sound) {k : ℕ} {p : ℤ × ℤ}
    (hp : f.publics[k]? = some p) (ho : p.2 = o) :
    Disasm.publicNames f o (List.range f.publics.length) = .ok (publicComment f p) := by
  have h := hf.publicNames o [] f.publics rfl
  rw [List.length_nil, ← List.range_eq_range'] at h
  have hsingle : f.publics.filter (·.2 = (o : ℤ)) = [p] := by
    obtain ⟨hk, hget⟩ := List.getElem?_eq_some_iff.1 hp
    have hsplit : f.publics = f.publics.take k ++ p :: f.publics.drop (k + 1) := by
      rw [← hget, List.cons_getElem_drop_succ, List.take_append_drop]
    have hord := hf.ordered
    rw [hsplit, List.pairwise_append, List.pairwise_cons] at hord
    obtain ⟨-, ⟨hafter, -⟩, hbefore⟩ := hord
    have h1 : (f.publics.take k).filter (·.2 = (o : ℤ)) = [] := by
      rw [List.filter_eq_nil_iff]
      intro q hq
      have := hbefore q hq p (by simp)
      simp
      omega
    have h2 : (f.publics.drop (k + 1)).filter (·.2 = (o : ℤ)) = [] := by
      rw [List.filter_eq_nil_iff]
      intro q hq
      have := hafter q hq
      simp
      omega
    rw [hsplit, List.filter_append, h1, List.filter_cons, h2]
    simp [ho]
  rw [h, hsingle]
  simp

theorem Bytefile.Sound.publicNames_none (hf : f.Sound) (h : ∀ p ∈ f.publics, p.2 ≠ (o : ℤ)) :
    Disasm.publicNames f o (List.range f.publics.length) = .ok "" := by
  have hnames := hf.publicNames o [] f.publics rfl
  rw [List.length_nil, ← List.range_eq_range'] at hnames
  rw [hnames, List.filter_eq_nil_iff.2 (by simpa using h)]
  rfl

/-- The reader takes the next public symbol for a `BEGIN`, and checks its offset. -/
theorem run_readInst_public (hf : f.Sound) {argc locc : Operand} {p : ℤ × ℤ}
    (hp : f.publics[k]? = some p) :
    (InstReader.readInst f).run ⟨⟨o, (beginInst argc locc).encode ++ rest⟩, k, strings⟩ =
      if p.2 = o then .ok (some (.beginInst (.inl (stringAt f p.1.toNat)) argc.value locc.value),
        ⟨⟨o + (beginInst argc locc).encode.length, rest⟩, k + 1, strings⟩)
      else .error "function offset mismatch" := by
  have hk : k < f.publics.length := (List.getElem?_eq_some_iff.1 hp).1
  rw [show (beginInst argc locc).encode ++ rest =
    82 :: ((beginInst argc locc).operands ++ rest) from rfl]
  unfold InstReader.readInst
  simp only [StateT.run_bind, run_monadLift (run_readByte _ _ _), ok_bind, BitVec.reduceToNat,
    run_get, run_modify, operands, List.append_assoc, run_readSize, if_pos hk,
    hf.getPublicOffset hp, hf.getPublicName hp, run_liftOk, Nat.add_sub_cancel]
  by_cases ho : p.2 = o
  · simp only [check, ho, if_true]
    rfl
  · simp only [check, ho, if_false]
    rfl

theorem run_readInst_private {argc locc : Operand} (hk : f.publics.length ≤ k) :
    (InstReader.readInst f).run ⟨⟨o, (beginInst argc locc).encode ++ rest⟩, k, strings⟩ =
      .ok (some (.beginInst (.inr o) argc.value locc.value),
        ⟨⟨o + (beginInst argc locc).encode.length, rest⟩, k + 1, strings⟩) := by
  rw [show (beginInst argc locc).encode ++ rest =
    82 :: ((beginInst argc locc).operands ++ rest) from rfl]
  unfold InstReader.readInst
  simp only [StateT.run_bind, run_monadLift (run_readByte _ _ _), ok_bind, BitVec.reduceToNat,
    run_get, run_modify, operands, List.append_assoc, run_readSize, if_neg hk.not_gt,
    Nat.add_sub_cancel]
  rfl

end LamaRv
