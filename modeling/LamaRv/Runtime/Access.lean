import LamaRv.Runtime.Values

/-!
# Looking at objects and writing them (`runtime.c`)

The functions of the runtime that neither allocate nor go down into the fields: they look at the header
of an object, at one element, or write one element.

* `lkindOf`, `llength`, `belem`, `btag`, `bstringPatt`, …: the functions that look;
* `bsta`: the function that writes;
* `Primitive`: those that look, under one roof.
-/

namespace LamaRv.Gc

open WordBytes

/-! ### The code -/

/-- `ASSERT_BOXED`, with the text of `failure`. -/
def assertBoxed (memo : String) (x : ℕ) : Except String Unit :=
  if unboxed x then .error ("boxed value expected in " ++ memo ++ "\n") else .ok ()

/-- `ASSERT_UNBOXED`. -/
def assertUnboxed (memo : String) (x : ℕ) : Except String Unit :=
  if unboxed x then .ok () else .error ("unboxed value expected in " ++ memo ++ "\n")

/-- `UNBOXED_TAG`. -/
def unboxedTag : ℕ := 9

/-- `BOX` of a condition. -/
def boxTruth (b : Bool) : ℕ := box b.toNat

/-- `LkindOf`: the tag itself, which is odd. -/
def lkindOf (m : Mem) (p : ℕ) : ℕ := if unboxed p then unboxedTag else tag (m (toData p))

/-- `LcompareTags`. -/
def lcompareTags (m : Mem) (p q : ℕ) : Except String ℕ := do
  assertBoxed "compareTags, 0" p
  assertBoxed "compareTags, 1" q
  let pd := tag (m (toData p))
  let qd := tag (m (toData q))
  if pd = LamaType.sexp.tag ∧ qd = LamaType.sexp.tag then return box (m p - m q)
  else throw ("not a sexpr in compareTags: " ++ toString pd ++ ", " ++ toString qd ++ "\n")

/-- `Llength`. -/
def llength (m : Mem) (p : ℕ) : Except String ℕ := do
  assertBoxed ".length" p
  return box (len (m (toData p)))

/-- `Belem`.  A `char` is not signed on RISC-V. -/
def belem (m : Mem) (p i : ℕ) : Except String ℕ := do
  if unboxed p then assertBoxed ".elem:1" p
  assertUnboxed ".elem:2" i
  let word := m (toSizeT (p + 8 * unbox i))
  return switchTag (tag (m (toData p))) (box (byteAt m (toSizeT (p + unbox i)))) word word
    (m (toSizeT (p + 8 + 8 * unbox i))) word

/-- `Lfst`, `Lsnd`, `Lhd` and `Ltl`. -/
def lfst (m : Mem) (v : ℕ) : Except String ℕ := belem m v (box 0)

def lsnd (m : Mem) (v : ℕ) : Except String ℕ := belem m v (box 1)

def lhd (m : Mem) (v : ℕ) : Except String ℕ := belem m v (box 0)

def ltl (m : Mem) (v : ℕ) : Except String ℕ := belem m v (box 1)

/-- `Bsta`; also the memory that it leaves.  It returns `v`. -/
def bsta (m : Mem) (x i v : ℕ) : Except String (Mem × ℕ) := do
  if unboxed i then
    assertBoxed ".sta:3" x
    let word := m.set (toSizeT (x + 8 * unbox i)) v
    return (switchTag (tag (m (toData x)))
      (setByte m (toSizeT (x + unbox i)) (unbox v % 256).toNat) word word
      (m.set (toSizeT (x + 8 + 8 * unbox i)) v) word, v)
  else return (m.set x v, v)

/-- `Btag`. -/
def btag (m : Mem) (d t n : ℕ) : ℕ :=
  if unboxed d then box 0
  else boxTruth (tag (m (toData d)) == LamaType.sexp.tag && m d == toSizeT (unbox t) &&
    len (m (toData d)) == toSizeT (unbox n))

/-- `Barray_patt`. -/
def barrayPatt (m : Mem) (d n : ℕ) : ℕ :=
  if unboxed d then box 0
  else boxTruth (tag (m (toData d)) == LamaType.array.tag && (len (m (toData d)) : ℤ) == unbox n)

/-- `Bstring_patt`. -/
def bstringPatt (m : Mem) (x y : ℕ) : Option (Except String ℕ) :=
  if !assertString m y then some (.error "string value expected in .string_patt:2\n")
  else if unboxed x then some (.ok (box 0))
  else if tag (m (toData x)) ≠ LamaType.string.tag then some (.ok (box 0))
  else (strcmp m x y).map fun c => .ok (boxTruth (c == 0))

/-- What the functions for the kinds of objects have in common. -/
def tagPatt (t : LamaType) (m : Mem) (x : ℕ) : ℕ :=
  if unboxed x then box 0 else boxTruth (tag (m (toData x)) == t.tag)

/-- `Bclosure_tag_patt`. -/
def bclosureTagPatt : Mem → ℕ → ℕ := tagPatt .closure

/-- `Barray_tag_patt`. -/
def barrayTagPatt : Mem → ℕ → ℕ := tagPatt .array

/-- `Bstring_tag_patt`. -/
def bstringTagPatt : Mem → ℕ → ℕ := tagPatt .string

/-- `Bsexp_tag_patt`. -/
def bsexpTagPatt : Mem → ℕ → ℕ := tagPatt .sexp

/-- `Bboxed_patt`. -/
def bboxedPatt (x : ℕ) : ℕ := box (if unboxed x then 0 else 1)

/-- `Bunboxed_patt`. -/
def bunboxedPatt (x : ℕ) : ℕ := box (if unboxed x then 1 else 0)

/-- `Ls__Infix_6161`: whether two words are the same. -/
def lsInfix6161 (p q : ℕ) : ℕ := boxTruth (p == q)

end LamaRv.Gc
