import LamaRv.Compiler.Arguments

/-!
# S-expressions at run time (`runtime_common.h`, `runtime.c`)

Values are words: an odd word is an integer, an even one points to the contents of an object.
The constructor of an s-expression is the field `tag`, the first word of its contents.
-/

namespace LamaRv

open ByteMemory Rv64

/-! ### Values -/

/-- `UNBOXED`. -/
def unboxed (x : Word) : Bool := x &&& 1 == 1

/-- `UNBOX`, an arithmetic shift. -/
def unbox (x : Word) : Word := x.sshiftRight 1

/-- `BOX`. -/
def box (x : Word) : Word := x <<< 1 ||| 1

/-- Unboxing halves a number. -/
theorem unbox_ofInt {x : ℤ} (h₁ : -2 ^ 63 ≤ x) (h₂ : x < 2 ^ 63) :
    unbox (BitVec.ofInt 64 x) = BitVec.ofInt 64 (x / 2) := by
  unfold unbox BitVec.sshiftRight
  rw [BitVec.toInt_ofInt, Int.bmod_eq_of_le (by omega) (by omega), Int.shiftRight_eq_div_pow]
  rfl

theorem box_injective : Function.Injective fun b => box (ofBool b) := by
  decide

/-! ### Object headers -/

def sexpTag : Word := 5

/-- `LEN_MASK`, all bits but the last three. -/
def lenMask : Word := BitVec.allOnes 64 ^^^ 7

/-- `LEN`. -/
def headerLen (header : Word) : Word := (header &&& lenMask) >>> 3

/-- `TAG`. -/
def headerTag (header : Word) : Word := header &&& 7

/-! ### S-expressions -/

/-- An s-expression object. -/
structure Sexp where
  dataHeader : Word
  forwardAddress : Word
  tag : Word
  contents : List Word

/-- `alloc_sexp`; the contents are not written yet. -/
def allocSexp (members : Word) : Sexp := ⟨sexpTag ||| members <<< 3, 0, 0, []⟩

/-- `Bsexp`.  The allocation may collect garbage; the fields are extra roots meanwhile, so
`relocate` is where what they refer to has moved. -/
def bsexp (relocate : Word → Word) (args : List Word) (bn : Word) : Sexp :=
  let n := unbox bn
  let fieldsCnt := n - 1
  { allocSexp fieldsCnt with
    contents := (args.take fieldsCnt.toInt.toNat).map relocate
    tag := unbox (args.getD fieldsCnt.toInt.toNat 0) }

/-- `RVBsexp`, called in the state `s`. -/
def rvBsexp (relocate : Word → Word) (s : State) : Sexp :=
  let bn := param s 0
  let n := unbox bn
  bsexp relocate ((List.range n.toInt.toNat).map (vaArg s)) bn

/-- `Btag`.  `d` points to the contents; the header is sixteen bytes before it. -/
def btag (m : Memory) (d t n : Word) : Word :=
  if unboxed d then box 0
  else
    let header := load m (d - 16)
    box (ofBool (headerTag header == sexpTag && load m d == unbox t && headerLen header == unbox n))

/-- The object is at the address, as far as `Btag` looks at it. -/
structure HoldsSexp (m : Memory) (p : Word) (o : Sexp) : Prop where
  boxed : unboxed p = false
  header : load m (p - 16) = o.dataHeader
  tag : load m p = o.tag

/-- `Btag` compares the constructor and the number of fields. -/
theorem btag_eq {m : Memory} {p t n : Word} {o : Sexp} (h : HoldsSexp m p o) :
    btag m p t n = box (ofBool
      (headerTag o.dataHeader == sexpTag && o.tag == unbox t && headerLen o.dataHeader == unbox n)) := by
  rw [btag, h.boxed, h.header, h.tag]
  rfl

/-- The header of an object with few fields. -/
theorem header_ofNat : ∀ n < 8, headerTag (sexpTag ||| BitVec.ofNat 64 n <<< 3) = sexpTag ∧
    headerLen (sexpTag ||| BitVec.ofNat 64 n <<< 3) = BitVec.ofNat 64 n := by
  decide

end LamaRv
