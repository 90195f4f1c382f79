import LamaRv.Bytefile
import LamaRv.Compiler.Emit

/-!
# The bytecode file in memory (`bytefile.cpp`, `inst_reader.h`, `read.cpp`)

`read_file` allocates a block for the structure `bytefile` and reads the file to the part of it that
begins with the header.  The accessors look at the block through pointers, with checks of their own.

* `readFile`: the block, with its tables, if all checks pass;
* `Reading`: functions that read from the block, with a log of what they read;
* `ReadsInBounds`: the tables are in the block, and so is what any calls read;
* `reads_in_bounds_iff`: when that is so.
-/

namespace LamaRv

/-- The block that `read_file` allocates, as offsets from its start: the file is read to the bytes from
40 on.  What lies behind the block is arbitrary. -/
structure Image where
  mem : ℕ → Byte
  fileSize : ℕ

namespace Image

/-- `total_size`. -/
def totalSize (img : Image) : ℕ := 40 + img.fileSize

/-- An `int` of the block. -/
def intAt (img : Image) (o : ℕ) : ℤ :=
  (img.mem (o + 3) ++ img.mem (o + 2) ++ img.mem (o + 1) ++ img.mem o : BitVec 32).toInt

end Image

/-- `bytefile`, with the pointers as offsets. -/
structure Loaded where
  image : Image
  size : ℤ
  stringPtr : ℕ
  publicPtr : ℕ
  codePtr : ℕ
  stringtabSize : ℤ
  globalAreaSize : ℤ
  publicSymbolsNumber : ℤ

/-- The sum of the sizes of the sections, in `size_t`: `doubled` is the product of the number of public
symbols and two. -/
def sectionsSize (stringtabSize doubled globalAreaSize : ℤ) : ℕ :=
  (toSizeT stringtabSize + toSizeT doubled * 4 + toSizeT globalAreaSize * 4) % 2 ^ 64

/-- `read_file`. -/
def readFile (img : Image) : Except String Loaded := do
  let size := toInt img.totalSize
  let stringtabSize := img.intAt 40
  let globalAreaSize := img.intAt 44
  let publicSymbolsNumber := img.intAt 48
  check (0 ≤ stringtabSize) "Negative string section size"
  check (0 ≤ publicSymbolsNumber) "Negative public symbols number"
  check (0 ≤ globalAreaSize) "Negative global area size"
  let doubled ← mulInt publicSymbolsNumber 2
  let totalSectionsSize := toInt (sectionsSize stringtabSize doubled globalAreaSize)
  check ((toSizeT totalSectionsSize + 56) % 2 ^ 64 ≤ toSizeT size) "Invalid sections layout"
  let stringPtr := 52 + toSizeT doubled * 4
  return {
    image := img
    size := size
    stringPtr := stringPtr
    publicPtr := 52
    codePtr := stringPtr + stringtabSize.toNat
    stringtabSize := stringtabSize
    globalAreaSize := globalAreaSize
    publicSymbolsNumber := publicSymbolsNumber }

/-! ### Reading -/

/-- What is read from the block: some bytes, or a text up to its zero. -/
inductive Access
  | bytes (offset count : ℕ)
  | text (offset : ℕ)

/-- `InstReader` on the block, with what has been read so far. -/
structure Reading where
  ip : ℕ
  functionIndex : ℕ
  strings : List String
  log : List Access

namespace Loaded

/-- A failed check ends the program; what it has read stays in the log. -/
abbrev M := ExceptT String (StateM Reading)

/-- A `CHECK`. -/
def require (cond : Prop) [Decidable cond] (message : String) : M Unit :=
  if cond then pure () else throw message

def access (a : Access) : M Unit := modify fun r => { r with log := a :: r.log }

/-- The text at a pointer. -/
def textAt (f : Loaded) (p : ℕ) : String :=
  let bytes := (List.range' p (f.image.totalSize - p)).map f.image.mem
  String.ofList ((bytes.takeWhile (· ≠ 0)).map fun b => Char.ofNat b.toNat)

/-- `get_string`. -/
def getString (f : Loaded) (pos : ℤ) : M String := do
  require (0 ≤ pos) "Negative string index"
  require (pos < f.stringtabSize) "Index out of bounds"
  access (.text (f.stringPtr + pos.toNat))
  return f.textAt (f.stringPtr + pos.toNat)

/-- `get_public_name`. -/
def getPublicName (f : Loaded) (i : ℤ) : M String := do
  require (0 ≤ i) "Negative public symbol index"
  require (i < f.publicSymbolsNumber) "Index out of bounds"
  access (.bytes (f.publicPtr + 4 * (2 * i.toNat)) 4)
  f.getString (f.image.intAt (f.publicPtr + 4 * (2 * i.toNat)))

/-- `get_public_offset`. -/
def getPublicOffset (f : Loaded) (i : ℤ) : M ℤ := do
  require (0 ≤ i) "Negative public symbol index"
  require (i < f.publicSymbolsNumber) "Index out of bounds"
  access (.bytes (f.publicPtr + 4 * (2 * i.toNat + 1)) 4)
  let offset := f.image.intAt (f.publicPtr + 4 * (2 * i.toNat + 1))
  require (offset ≤ f.size) "Invalid public offset"
  return offset

/-- `assert_can_read`. -/
def assertCanRead (f : Loaded) (bytes : ℕ) : M Unit := do
  require (f.codePtr ≤ (← get).ip) "ip is out of code section"
  require ((((← get).ip + bytes : ℕ) : ℤ) ≤ f.size) "ip is out of code section"

/-- `read_byte`. -/
def readByte (f : Loaded) : M Byte := do
  f.assertCanRead 1
  let ip := (← get).ip
  access (.bytes ip 1)
  modify fun r => { r with ip := ip + 1 }
  return f.image.mem ip

/-- `read_int`. -/
def readInt (f : Loaded) : M ℤ := do
  f.assertCanRead 4
  let ip := (← get).ip
  access (.bytes ip 4)
  modify fun r => { r with ip := ip + 4 }
  return f.image.intAt ip

/-- `read_string` without a position. -/
def readString (f : Loaded) : M String := do f.getString (← f.readInt)

/-- `read_string` with a position: the position `-1` stands for none. -/
def readStringAt (f : Loaded) (pos : ℤ) : M String :=
  if pos = -1 then f.readString else f.getString pos

/-- A number that the constructor of an instruction keeps as a `size_t`. -/
def readSize (f : Loaded) : M ℕ := do return toSizeT (← f.readInt)

/-- `read_loc`. -/
def readLoc (f : Loaded) : M LocationEntry := do
  let kind ← f.readByte
  let index ← f.readInt
  return ⟨.ofNat kind.toNat, index⟩

/-- Repeat a reading. -/
def times {α : Type} (x : M α) : ℕ → M (List α)
  | 0 => return []
  | n + 1 => do
      let a ← x
      return a :: (← times x n)

/-- `get_offset`. -/
def getOffset (f : Loaded) : M ℕ := do return (← get).ip - f.codePtr

/-- `read_inst`: nothing stands for `nullptr`. -/
def readInst (f : Loaded) : M (Option Instruction) := do
  let x ← f.readByte
  let l := low x
  match x.toNat with
  | 16 => return some (.ofLiteral (← f.readInt))
  | 17 => do
      let str ← f.readStringAt (← f.readInt)
      modify fun r => { r with strings := r.strings ++ [str] }
      return some (.string ((← get).strings.length - 1) str)
  | 18 => do
      let name ← f.readString
      return some (.sExpression name (← f.readSize))
  | 19 => return some .storeStack
  | 20 => return some .storeArray
  | 21 => return some (.jump (← f.readSize))
  | 22 => return some .endInst
  | 23 => return some .returnInst
  | 24 => return some .drop
  | 25 => return some .duplicate
  | 26 => return some .swap
  | 27 => return some .elem
  | 80 => return some (.conditionalJump (← f.readSize) true)
  | 81 => return some (.conditionalJump (← f.readSize) false)
  | 82 => do
      let index := (← get).functionIndex
      modify fun r => { r with functionIndex := r.functionIndex + 1 }
      let offset := (← f.getOffset) - 1
      let argc ← f.readSize
      let locc ← f.readSize
      if index < f.publicSymbolsNumber then do
        require ((← f.getPublicOffset index) = offset) "function offset mismatch"
        return some (.beginInst (.inl (← f.getPublicName index)) argc locc)
      else
        return some (.beginInst (.inr offset) argc locc)
  | 83 => do
      let argc ← f.readSize
      return some (.cBegin 0 argc (← f.readSize))
  | 84 => do
      let entry ← f.readSize
      let n ← f.readInt
      require (0 ≤ n) "Assertion 'bool(__value <= __bound)' failed."
      return some (.closure entry (← times f.readLoc n.toNat))
  | 85 => return some (.callClosure (← f.readSize))
  | 86 => do
      let callee ← f.readSize
      return some (.call (.inr callee) (← f.readSize))
  | 87 => do
      let name ← f.readString
      return some (.tag name (← f.readSize))
  | 88 => return some (.array (← f.readSize))
  | 89 => do
      let line ← f.readSize
      return some (.fail line (← f.readSize))
  | 90 => return some (.line (← f.readSize))
  | _ =>
    match high x with
    | 0 => return some (.binop (.ofNat l))
    | 2 => do
        let index ← f.readInt
        return some (.load ⟨.ofNat l, index⟩)
    | 3 => do
        let index ← f.readSize
        return some (.loadArray index (.ofNat l))
    | 4 => do
        let index ← f.readInt
        return some (.store ⟨.ofNat l, index⟩)
    | 6 => return some (.patternInst (.ofNat l))
    | 7 =>
      match l with
      | 0 => return some .builtinRead
      | 1 => return some .builtinWrite
      | 2 => return some .builtinLength
      | 3 => return some .builtinString
      | 4 => return some (.builtinArray (← f.readSize))
      | _ => throw "Unknown LCall"
    | 15 => return none
    | _ => throw "Unknown opcode"

end Loaded

/-- A call of one of the functions. -/
inductive Call
  | publicOffset (i : ℤ)
  | publicName (i : ℤ)
  | string (pos : ℤ)
  | readInst

namespace Loaded

def call (f : Loaded) : Call → M Unit
  | .publicOffset i => do let _ ← f.getPublicOffset i
  | .publicName i => do let _ ← f.getPublicName i
  | .string pos => do let _ ← f.getString pos
  | .readInst => do let _ ← f.readInst

/-- What a sequence of calls reads, on a new reader. -/
def reads (f : Loaded) (calls : List Call) : List Access :=
  ((calls.forM f.call).run ⟨f.codePtr, 0, [], []⟩).2.log

end Loaded

/-- What is read lies in the block, behind the fields of the structure. -/
def Access.Inside (img : Image) : Access → Prop
  | .bytes o n => 40 ≤ o ∧ o + n ≤ img.totalSize
  | .text o => 40 ≤ o ∧ ∀ q, o ≤ q → (∀ r, o ≤ r → r < q → img.mem r ≠ 0) → q < img.totalSize

/-- The tables and the start of the code lie in the block, and so does what any calls read. -/
structure ReadsInBounds (f : Loaded) : Prop where
  publics : f.publicPtr + 8 * f.publicSymbolsNumber.toNat ≤ f.image.totalSize
  strings : f.stringPtr + f.stringtabSize.toNat ≤ f.image.totalSize
  code : f.codePtr ≤ f.image.totalSize
  calls : ∀ calls, ∀ a ∈ f.reads calls, a.Inside f.image

/-- The public symbols and the strings fit in the file, and behind the last byte of the string table, or
there, is a zero. -/
structure FitsInFile (img : Image) : Prop where
  sections : 12 + 8 * (img.intAt 48).toNat + (img.intAt 40).toNat ≤ img.fileSize
  terminated : img.intAt 40 = 0 ∨ ∃ q, 51 + 8 * (img.intAt 48).toNat + (img.intAt 40).toNat ≤ q ∧
    q < img.totalSize ∧ img.mem q = 0

/-! ### What is kept -/

section Keeps

variable {α β : Type} {f : Loaded} {P : Reading → Prop}

/-- A reading keeps a property of the reader, whether it fails or not. -/
def Keeps (P : Reading → Prop) (x : Loaded.M α) : Prop := ∀ r, P r → P (x.run r).2

theorem Keeps.pure (a : α) : Keeps P (Pure.pure a : Loaded.M α) := fun _ h => h

theorem Keeps.throw (message : String) : Keeps P (MonadExcept.throw message : Loaded.M α) :=
  fun _ h => h

theorem run_bind (x : Loaded.M α) (g : α → Loaded.M β) (r : Reading) : (x >>= g).run r =
    match x.run r with
    | (.error e, r') => (.error e, r')
    | (.ok a, r') => (g a).run r' := by
  have hbind : (x >>= g).run r = (x.run >>= ExceptT.bindCont g) r := rfl
  rw [hbind]
  cases hx : x.run r with
  | mk res r' =>
    have hrun : (x.run >>= ExceptT.bindCont g) r = ExceptT.bindCont g res r' := by
      show (ExceptT.bindCont g (x.run r).1) (x.run r).2 = _
      rw [hx]
    rw [hrun]
    cases res <;> rfl

theorem Keeps.bind {x : Loaded.M α} {g : α → Loaded.M β} (hx : Keeps P x) (hg : ∀ a, Keeps P (g a)) :
    Keeps P (x >>= g) := by
  intro r hr
  have hrun := hx r hr
  rw [run_bind]
  cases hres : x.run r with
  | mk res r' =>
    rw [hres] at hrun
    cases res with
    | error e => exact hrun
    | ok a => exact hg a r' hrun

theorem Keeps.require {cond : Prop} [Decidable cond] {message : String} :
    Keeps P (Loaded.require cond message) := by
  unfold Loaded.require
  split_ifs
  · exact .pure ()
  · exact .throw message

theorem Keeps.require_bind {cond : Prop} [Decidable cond] {message : String} {x : Loaded.M α}
    (hx : cond → Keeps P x) : Keeps P (Loaded.require cond message >>= fun _ => x) := by
  intro r hr
  rw [run_bind]
  by_cases hcond : cond
  · rw [Loaded.require, if_pos hcond]
    exact hx hcond r hr
  · rw [Loaded.require, if_neg hcond]
    exact hr

end Keeps

/-! ### Bytes of the code -/

section Run

variable {f : Loaded} {r : Reading}

theorem run_pure {α : Type} (a : α) : (pure a : Loaded.M α).run r = (.ok a, r) := rfl

theorem run_get_reading : (get : Loaded.M Reading).run r = (.ok r, r) := rfl

theorem run_modify_reading (g : Reading → Reading) :
    (modify g : Loaded.M Unit).run r = (.ok (), g r) := rfl

theorem run_require (cond : Prop) [Decidable cond] (message : String) :
    (Loaded.require cond message).run r = (if cond then .ok () else .error message, r) := by
  unfold Loaded.require
  split_ifs <;> rfl

/-- The check of `assert_can_read`. -/
def CanRead (f : Loaded) (r : Reading) (n : ℕ) : Prop :=
  f.codePtr ≤ r.ip ∧ ((r.ip + n : ℕ) : ℤ) ≤ f.size

theorem run_assertCanRead (n : ℕ) : ((f.assertCanRead n).run r = (.ok (), r) ∧ CanRead f r n) ∨
    (f.assertCanRead n).run r = (.error "ip is out of code section", r) := by
  unfold Loaded.assertCanRead
  by_cases h₁ : f.codePtr ≤ r.ip
  · by_cases h₂ : ((r.ip + n : ℕ) : ℤ) ≤ f.size
    · refine .inl ⟨?_, h₁, h₂⟩
      simp only [run_bind, run_get_reading, run_require, h₁, h₂, if_true]
    · refine .inr ?_
      simp only [run_bind, run_get_reading, run_require, h₁, h₂, if_true, if_false]
  · refine .inr ?_
    simp only [run_bind, run_get_reading, run_require, h₁, if_false]

end Run

/-- The reader is behind the start of the code, and has read inside of the block. -/
def Valid (f : Loaded) (r : Reading) : Prop := f.codePtr ≤ r.ip ∧ ∀ a ∈ r.log, a.Inside f.image

section Valid

variable {α : Type} {f : Loaded}

/-- Some bytes at `ip`, if the size of the block has not been cut off to a number below it. -/
theorem Keeps.read {n : ℕ} (hsize : f.size ≤ f.image.totalSize) (hcode : 40 ≤ f.codePtr)
    {g : ℕ → α} : Keeps (Valid f) (do
      f.assertCanRead n
      let ip := (← get).ip
      Loaded.access (.bytes ip n)
      modify fun r => { r with ip := ip + n }
      return g ip) := by
  intro r hr
  obtain ⟨hrun, hcan⟩ | hrun := run_assertCanRead (f := f) (r := r) n
  · simp only [run_bind, hrun, run_get_reading, Loaded.access, run_modify_reading, run_pure]
    refine ⟨?_, List.forall_mem_cons.2 ⟨?_, hr.2⟩⟩
    · exact le_trans hr.1 (Nat.le_add_right _ _)
    · obtain ⟨hlow, hhigh⟩ := hcan
      exact ⟨le_trans hcode hlow, by omega⟩
  · simp only [run_bind, hrun]
    exact hr

/-- The accessors read inside of the block, if their own checks pass. -/
structure Safe (f : Loaded) : Prop where
  size : f.size ≤ f.image.totalSize
  code : 40 ≤ f.codePtr
  names : ∀ i, 0 ≤ i → i < f.publicSymbolsNumber →
    (Access.bytes (f.publicPtr + 4 * (2 * i.toNat)) 4).Inside f.image
  offsets : ∀ i, 0 ≤ i → i < f.publicSymbolsNumber →
    (Access.bytes (f.publicPtr + 4 * (2 * i.toNat + 1)) 4).Inside f.image
  strings : ∀ pos, 0 ≤ pos → pos < f.stringtabSize →
    (Access.text (f.stringPtr + pos.toNat)).Inside f.image

theorem Keeps.access {a : Access} (ha : a.Inside f.image) : Keeps (Valid f) (Loaded.access a) :=
  fun _ hr => ⟨hr.1, List.forall_mem_cons.2 ⟨ha, hr.2⟩⟩

theorem Keeps.modify {g : Reading → Reading} (hip : ∀ r, (g r).ip = r.ip)
    (hlog : ∀ r, (g r).log = r.log) : Keeps (Valid f) (modify g : Loaded.M Unit) := by
  intro r hr
  rw [run_modify_reading]
  exact ⟨by rw [hip]; exact hr.1, by rw [hlog]; exact hr.2⟩

theorem Keeps.get : Keeps (Valid f) (MonadState.get : Loaded.M Reading) := fun _ hr => hr

namespace Safe

variable (hf : Safe f)

include hf

theorem getString (pos : ℤ) : Keeps (Valid f) (f.getString pos) :=
  .require_bind fun h₁ => .require_bind fun h₂ =>
    .bind (.access (hf.strings pos h₁ h₂)) fun _ => .pure _

theorem getPublicName (i : ℤ) : Keeps (Valid f) (f.getPublicName i) :=
  .require_bind fun h₁ => .require_bind fun h₂ =>
    .bind (.access (hf.names i h₁ h₂)) fun _ => hf.getString _

theorem getPublicOffset (i : ℤ) : Keeps (Valid f) (f.getPublicOffset i) :=
  .require_bind fun h₁ => .require_bind fun h₂ =>
    .bind (.access (hf.offsets i h₁ h₂)) fun _ => .require_bind fun _ => .pure _

theorem readByte : Keeps (Valid f) f.readByte := .read hf.size hf.code

theorem readInt : Keeps (Valid f) f.readInt := .read hf.size hf.code

theorem readString : Keeps (Valid f) f.readString := hf.readInt.bind fun _ => hf.getString _

theorem readStringAt (pos : ℤ) : Keeps (Valid f) (f.readStringAt pos) := by
  unfold Loaded.readStringAt
  split_ifs
  · exact hf.readString
  · exact hf.getString pos

theorem readSize : Keeps (Valid f) f.readSize := hf.readInt.bind fun _ => .pure _

theorem readLoc : Keeps (Valid f) f.readLoc :=
  hf.readByte.bind fun _ => hf.readInt.bind fun _ => .pure _

omit hf in
theorem times {x : Loaded.M α} (hx : Keeps (Valid f) x) (n : ℕ) :
    Keeps (Valid f) (Loaded.times x n) := by
  induction n with
  | zero => exact .pure []
  | succ n ih => exact hx.bind fun _ => ih.bind fun _ => .pure _

omit hf in
theorem getOffset : Keeps (Valid f) f.getOffset := Keeps.get.bind fun _ => .pure _

/-- One instruction: each case is made of the readings above. -/
theorem readInst : Keeps (Valid f) f.readInst := by
  have hstrings {str : String} : Keeps (Valid f)
      (modify fun r => { r with strings := r.strings ++ [str] } : Loaded.M Unit) :=
    .modify (fun _ => rfl) fun _ => rfl
  have hindex : Keeps (Valid f)
      (modify fun r => { r with functionIndex := r.functionIndex + 1 } : Loaded.M Unit) :=
    .modify (fun _ => rfl) fun _ => rfl
  have hload := hf.readLoc
  unfold Loaded.readInst
  refine hf.readByte.bind fun x => ?_
  dsimp only
  -- one goal for each opcode; its readings stand one after the other
  repeat' with_reducible first
      | exact .pure _
      | exact .throw _
      | exact hf.readInt
      | exact hf.readSize
      | exact hf.readString
      | exact hf.readStringAt _
      | exact hf.getPublicOffset _
      | exact hf.getPublicName _
      | exact times hload _
      | exact hstrings
      | exact hindex
      | exact getOffset
      | exact .get
      | exact .require
      | refine Keeps.bind ?_ fun _ => ?_
      | split

theorem call (c : Call) : Keeps (Valid f) (f.call c) := by
  cases c with
  | publicOffset i => exact (hf.getPublicOffset i).bind fun _ => .pure ()
  | publicName i => exact (hf.getPublicName i).bind fun _ => .pure ()
  | string pos => exact (hf.getString pos).bind fun _ => .pure ()
  | readInst => exact hf.readInst.bind fun _ => .pure ()

theorem calls (cs : List Call) : Keeps (Valid f) (cs.forM f.call) := by
  induction cs with
  | nil => exact .pure ()
  | cons c cs ih => exact (hf.call c).bind fun _ => ih

/-- Whatever is called, what is read lies in the block. -/
theorem reads (cs : List Call) : ∀ a ∈ f.reads cs, a.Inside f.image :=
  (hf.calls cs ⟨f.codePtr, 0, [], []⟩ ⟨le_rfl, by simp⟩).2

end Safe

end Valid

/-! ### The checks of `read_file` -/

section ReadFile

variable {img : Image} {f : Loaded}

/-- A block whose header has passed the checks. -/
theorem readFile_ok (h : readFile img = .ok f) : f.image = img ∧ f.size = toInt img.totalSize ∧
    f.stringtabSize = img.intAt 40 ∧ 0 ≤ img.intAt 40 ∧ f.publicSymbolsNumber = img.intAt 48 ∧
    0 ≤ img.intAt 48 ∧ f.publicPtr = 52 ∧ f.stringPtr = 52 + 8 * (img.intAt 48).toNat ∧
    f.codePtr = f.stringPtr + (img.intAt 40).toNat := by
  simp only [readFile, bind_ok, return_ok, check_ok, mulInt] at h
  obtain ⟨-, hstrings, -, hpublics, -, -, doubled, ⟨-, hdoubled, rfl⟩, -, -, rfl⟩ := h
  have hsize : toSizeT (img.intAt 48 * 2) * 4 = 8 * (img.intAt 48).toNat := by
    unfold toSizeT
    omega
  rw [hsize]
  exact ⟨rfl, rfl, rfl, hstrings, rfl, hpublics, rfl, rfl, rfl⟩

theorem toInt_le (n : ℕ) : toInt n ≤ n := by
  obtain ⟨-, hlt, k, hk⟩ := toInt_spec n
  by_cases hn : (n : ℤ) < 2 ^ 31
  · exact (toInt_of_mem (by omega) hn).le
  · omega

/-- Sizes that are not cut off fit in the file. -/
theorem sections_of_exact (h : readFile img = .ok f) (hfile : img.totalSize < 2 ^ 31)
    (hsections : (img.intAt 40).toNat + 8 * (img.intAt 48).toNat + 4 * (img.intAt 44).toNat < 2 ^ 31) :
    12 + 8 * (img.intAt 48).toNat + (img.intAt 40).toNat ≤ img.fileSize := by
  simp only [readFile, bind_ok, return_ok, check_ok, mulInt] at h
  obtain ⟨-, hstrings, -, hpublics, -, hglobals, doubled, ⟨-, hdoubled, rfl⟩, -, hlayout, -⟩ := h
  have hsum : (sectionsSize (img.intAt 40) (img.intAt 48 * 2) (img.intAt 44) : ℤ) =
      (img.intAt 40).toNat + 8 * (img.intAt 48).toNat + 4 * (img.intAt 44).toNat := by
    unfold sectionsSize toSizeT
    omega
  rw [hsum, toInt_of_mem (by omega) (by omega), toInt_of_mem (by omega) (by omega)] at hlayout
  unfold toSizeT Image.totalSize at hlayout
  omega

theorem FitsInFile.safe (hfits : FitsInFile img) (h : readFile img = .ok f) : Safe f := by
  obtain ⟨himage, hsize, hstringtab, hstrings, hpublic, hpublics, hpublicPtr, hstringPtr, hcodePtr⟩ :=
    readFile_ok h
  have hsections := hfits.sections
  have htotal : img.totalSize = 40 + img.fileSize := rfl
  refine ⟨?_, by omega, fun i h₁ h₂ => ?_, fun i h₁ h₂ => ?_, fun pos h₁ h₂ => ?_⟩
  · rw [hsize, himage]
    exact toInt_le _
  · rw [hpublic] at h₂
    rw [himage, hpublicPtr]
    exact ⟨by omega, by omega⟩
  · rw [hpublic] at h₂
    rw [himage, hpublicPtr]
    exact ⟨by omega, by omega⟩
  · rw [hstringtab] at h₂
    rw [himage, hstringPtr]
    refine ⟨by omega, fun q hq htext => ?_⟩
    obtain hempty | ⟨z, hz, hin, hzero⟩ := hfits.terminated
    · omega
    · by_contra hout
      exact htext z (by omega) (by omega) hzero

/-- A call of `get_string` that passes its checks. -/
theorem mem_reads_string {pos : ℤ} (h₁ : 0 ≤ pos) (h₂ : pos < f.stringtabSize) :
    (Access.text (f.stringPtr + pos.toNat)) ∈ f.reads [.string pos] := by
  simp [Loaded.reads, Loaded.call, Loaded.getString, run_bind, run_require, h₁, h₂, Loaded.access,
    run_modify_reading]

/-- **Reading in bounds.**  For a file that passes the checks: the tables are in the block, and any calls
read inside of it, just when the sections fit in the file without a reduction of their sizes and the
last string ends in the file. -/
theorem reads_in_bounds_iff (h : readFile img = .ok f) : ReadsInBounds f ↔ FitsInFile img := by
  obtain ⟨himage, hsize, hstringtab, hstrings, hpublic, hpublics, hpublicPtr, hstringPtr, hcodePtr⟩ :=
    readFile_ok h
  have htotal : img.totalSize = 40 + img.fileSize := rfl
  constructor
  · intro hbounds
    have hcode := hbounds.code
    rw [himage] at hcode
    refine ⟨by omega, ?_⟩
    by_cases hempty : img.intAt 40 = 0
    · exact .inl hempty
    · -- the last byte of the string table is a string
      have hread : (Access.text (f.stringPtr + (img.intAt 40 - 1).toNat)) ∈
          f.reads [.string (img.intAt 40 - 1)] :=
        mem_reads_string (by omega) (by omega)
      obtain ⟨-, htext⟩ := hbounds.calls _ _ hread
      by_contra hnone
      have hout := htext (max (f.stringPtr + (img.intAt 40 - 1).toNat) img.totalSize) (le_max_left _ _)
        fun r h₁ h₂ hzero => hnone (.inr ⟨r, by omega, by omega, by rwa [himage] at hzero⟩)
      rw [himage] at hout
      omega
  · intro hfits
    have hsections := hfits.sections
    refine ⟨?_, ?_, ?_, (hfits.safe h).reads⟩
    · rw [hpublicPtr, hpublic, himage]
      omega
    · rw [hstringPtr, hstringtab, himage]
      omega
    · rw [hcodePtr, hstringPtr, himage]
      omega

end ReadFile

/-! ### Two files -/

/-- A header that passes the checks. -/
theorem exists_readFile {img : Image} (hstrings : 0 ≤ img.intAt 40) (hpublics : 0 ≤ img.intAt 48)
    (hglobals : 0 ≤ img.intAt 44) (hdoubled : img.intAt 48 * 2 < 2 ^ 31)
    (hlayout : (toSizeT (toInt (sectionsSize (img.intAt 40) (img.intAt 48 * 2) (img.intAt 44))) + 56) %
      2 ^ 64 ≤ toSizeT (toInt img.totalSize)) : ∃ f, readFile img = .ok f := by
  simp only [readFile, mulInt, bind_ok, return_ok, check_ok]
  exact ⟨_, (), hstrings, (), hpublics, (), hglobals, _, ⟨(), ⟨by omega, hdoubled⟩, rfl⟩, (), hlayout,
    rfl⟩

/-- `BEGIN 2 0`, `STRING` of the name at position 0, `END`, with the public symbol `main`. -/
def mainImage : Image where
  mem := fun o => [5, 0, 0, 0, 0, 0, 0, 0, 1, 0, 0, 0, 0, 0, 0, 0, 0, 0, 0, 0,
    109, 97, 105, 110, 0, 82, 2, 0, 0, 0, 0, 0, 0, 0, 17, 0, 0, 0, 0, 22, 255].getD (o - 40) 0
  fileSize := 41

theorem reads_in_bounds_iff_main : ∃ f, readFile mainImage = .ok f ∧
    (ReadsInBounds f ↔ FitsInFile mainImage) := by
  have hstrings : mainImage.intAt 40 = 5 := by decide
  have hglobals : mainImage.intAt 44 = 0 := by decide
  have hpublics : mainImage.intAt 48 = 1 := by decide
  have hsize : toInt (mainImage.totalSize : ℕ) = 81 := toInt_of_mem (by decide) (by decide)
  have hsum : toInt (sectionsSize 5 (1 * 2) 0 : ℕ) = 13 := toInt_of_mem (by decide) (by decide)
  obtain ⟨f, hf⟩ := exists_readFile (hstrings.symm ▸ by decide) (hpublics.symm ▸ by decide) hglobals.ge
    (by rw [hpublics]; decide) (by rw [hstrings, hglobals, hpublics, hsum, hsize]; decide)
  exact ⟨f, hf, reads_in_bounds_iff hf⟩

/-- A header of 16 bytes that speaks of `2 ^ 29` public symbols. -/
def manyPublics : Image where
  mem := fun o => if o = 51 then 32 else 0
  fileSize := 16

/-- The sum of the sizes is a multiple of `2 ^ 32`. -/
theorem manyPublics_out_of_bounds : ∃ f, readFile manyPublics = .ok f ∧ ¬ ReadsInBounds f := by
  have hstrings : manyPublics.intAt 40 = 0 := by decide
  have hglobals : manyPublics.intAt 44 = 0 := by decide
  have hpublics : manyPublics.intAt 48 = 2 ^ 29 := by decide
  have hsize : toInt (manyPublics.totalSize : ℕ) = 56 := toInt_of_mem (by decide) (by decide)
  have hsum : toInt (sectionsSize 0 (2 ^ 29 * 2) 0 : ℕ) = 0 := by
    unfold toInt
    decide
  obtain ⟨f, hf⟩ := exists_readFile hstrings.ge (by rw [hpublics]; decide) hglobals.ge
    (by rw [hpublics]; decide) (by rw [hstrings, hglobals, hpublics, hsum, hsize]; decide)
  refine ⟨f, hf, fun hbounds => ?_⟩
  obtain ⟨himage, -, -, -, -, -, -, hstringPtr, hcodePtr⟩ := readFile_ok hf
  have hcode := hbounds.code
  rw [himage, hcodePtr, hstringPtr, hstrings, hpublics] at hcode
  exact absurd hcode (by decide)

end LamaRv
