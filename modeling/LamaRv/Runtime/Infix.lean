import LamaRv.Bytecode
import LamaRv.Runtime.Sexp

/-!
# Operators as functions (`runtime.c`)

The functions `Ls__Infix_*` stand for the operators where these are used as values; the number
spells the characters of the operator.  They check that the operands are integers, compute on
the unboxed values in 64-bit arithmetic and box the result.

* `captured`: what eleven of the thirteen functions do;
* `BinopKind.synonym`: the function of an operator;
* `synonym_tagged`: on integers the functions compute what the stack machine computes.
-/

namespace LamaRv

open ByteMemory Rv64 TaggedInt

/-- `ASSERT_UNBOXED`, with the text of `failure`. -/
def assertUnboxed (memo : String) (x : Word) : Except String Unit :=
  check (unboxed x) ("unboxed value expected in " ++ memo ++ "\n")

/-- `ASSERT_BOXED`. -/
def assertBoxed (memo : String) (x : Word) : Except String Unit :=
  check (¬unboxed x) ("boxed value expected in " ++ memo ++ "\n")

/-- Check both operands and compute on the unboxed values. -/
def captured (op : String) (f : Word → Word → Word) (p q : Word) : Except String Word := do
  assertUnboxed ("captured " ++ op ++ ":1") p
  assertUnboxed ("captured " ++ op ++ ":2") q
  return box (f (unbox p) (unbox q))

/-- `!!`. -/
def lsInfix3333 := captured "!!" fun x y => ofBool (x != 0 || y != 0)

/-- `&&`. -/
def lsInfix3838 := captured "&&" fun x y => ofBool (x != 0 && y != 0)

/-- `==` compares the words, whatever they are. -/
def lsInfix6161 (p q : Word) : Except String Word := .ok (box (ofBool (p == q)))

/-- `!=`. -/
def lsInfix3361 := captured "!=" fun x y => ofBool (x != y)

/-- `<=`. -/
def lsInfix6061 := captured "<=" fun x y => ofBool (x.sle y)

/-- `<`. -/
def lsInfix60 := captured "<" fun x y => ofBool (x.slt y)

/-- `>=`. -/
def lsInfix6261 := captured ">=" fun x y => ofBool (y.sle x)

/-- `>`. -/
def lsInfix62 := captured ">" fun x y => ofBool (y.slt x)

/-- `+`. -/
def lsInfix43 := captured "+" fun x y => x + y

/-- `-` also subtracts one pointer from another. -/
def lsInfix45 (p q : Word) : Except String Word := do
  if unboxed p then
    assertUnboxed "captured -:2" q
    return box (unbox p - unbox q)
  else
    assertBoxed "captured -:1" q
    return box (p - q)

/-- `*`. -/
def lsInfix42 := captured "*" fun x y => x * y

/-- `/`; division by zero is undefined. -/
def lsInfix47 := captured "/" fun x y => x.sdiv y

/-- `%`. -/
def lsInfix37 := captured "%" fun x y => x.srem y

/-- The function of an operator. -/
def BinopKind.synonym : BinopKind → Word → Word → Except String Word
  | .add => lsInfix43
  | .sub => lsInfix45
  | .mul => lsInfix42
  | .div => lsInfix47
  | .rem => lsInfix37
  | .lessThan => lsInfix60
  | .lessEqual => lsInfix6061
  | .greaterThan => lsInfix62
  | .greaterEqual => lsInfix6261
  | .equal => lsInfix6161
  | .notEqual => lsInfix3361
  | .and => lsInfix3838
  | .or => lsInfix3333
  | .other _ _ => fun _ _ => .error "no such operator"

/-! ### Boxing -/

theorem shiftLeft_and_one (x : Word) : x <<< 1 &&& 1 = 0 := by
  apply BitVec.eq_of_getLsbD_eq
  intro i hi
  by_cases h0 : i = 0
  · subst h0
    simp
  · simp [BitVec.getLsbD_one, h0]

theorem box_eq_add (x : Word) : box x = x <<< 1 + 1 :=
  (BitVec.add_eq_or_of_and_eq_zero _ _ (shiftLeft_and_one x)).symm

@[simp] theorem unboxed_box (x : Word) : unboxed (box x) = true := by
  unfold unboxed box
  rw [beq_iff_eq, BitVec.and_or_distrib_right, shiftLeft_and_one]
  rfl

theorem tagged_eq_box (v : Int63) : tagged v = box (wide v) := by
  rw [box_eq_add, wide, tag_ofInt, BitVec.ofInt_toInt]

@[simp] theorem unboxed_tagged (v : Int63) : unboxed (tagged v) = true := by
  rw [tagged_eq_box, unboxed_box]

@[simp] theorem unbox_tagged (v : Int63) : unbox (tagged v) = wide v := untag v

/-! ### On integers -/

section Tagged

variable (v w : Int63)

/-- The checks pass on integers. -/
theorem captured_tagged (op : String) (f : Word → Word → Word) :
    captured op f (tagged v) (tagged w) = .ok (f (wide v) (wide w) <<< 1 + 1) := by
  unfold captured assertUnboxed check
  rw [unboxed_tagged, unboxed_tagged, if_pos rfl, if_pos rfl, unbox_tagged, unbox_tagged,
    ← box_eq_add]
  rfl

theorem captured_truth (op : String) (f : Word → Word → Bool) :
    captured op (fun x y => ofBool (f x y)) (tagged v) (tagged w) =
      .ok (tagged (ofTruth (f (wide v) (wide w)))) := by
  rw [captured_tagged, tag_ofBool]

/-- `-` does on integers what the other functions do. -/
theorem lsInfix45_tagged : lsInfix45 (tagged v) (tagged w) =
    captured "-" (fun x y => x - y) (tagged v) (tagged w) := by
  rw [captured_tagged, ← box_eq_add]
  unfold lsInfix45 assertUnboxed check
  rw [unboxed_tagged, unboxed_tagged, if_pos rfl, if_pos rfl, unbox_tagged, unbox_tagged]
  rfl

/-- `==` compares integers. -/
theorem lsInfix6161_tagged :
    lsInfix6161 (tagged v) (tagged w) = .ok (tagged (ofTruth (v == w))) := by
  have heq : (tagged v == tagged w) = (v == w) := by
    rw [Bool.eq_iff_iff, beq_iff_eq, beq_iff_eq, tagged_injective.eq_iff]
  rw [lsInfix6161, heq, box_eq_add, tag_ofBool]

theorem bne_wide : (wide v != wide w) = (v != w) := by
  rw [Bool.eq_iff_iff, bne_iff_ne, bne_iff_ne, ne_eq, ne_eq, wide_inj]

theorem wide_ne_zero : (wide v != 0) = (v != 0) := congrArg not (wide_eq_zero v)

theorem sle_wide : (wide v).sle (wide w) = v.sle w := by
  rw [BitVec.sle_eq_decide, BitVec.sle_eq_decide, toInt_wide, toInt_wide]

end Tagged

/-- On integers the function of an operator computes what the stack machine computes. -/
theorem synonym_tagged {op : BinopKind} {v w r : Int63} (h : op.eval v w = some r) :
    op.synonym (tagged v) (tagged w) = .ok (tagged r) := by
  cases op with
  | div =>
    simp only [BinopKind.eval] at h
    split_ifs at h
    rw [← Option.some.inj h, ← tag_sdiv]
    exact captured_tagged v w _ _
  | rem =>
    simp only [BinopKind.eval] at h
    split_ifs at h
    rw [← Option.some.inj h, ← tag_srem]
    exact captured_tagged v w _ _
  | add => rw [← Option.some.inj h, ← tag_add]; exact captured_tagged v w _ _
  | mul => rw [← Option.some.inj h, ← tag_mul]; exact captured_tagged v w _ _
  | sub =>
    rw [← Option.some.inj h, ← tag_sub]
    exact (lsInfix45_tagged v w).trans (captured_tagged v w _ _)
  | equal => rw [← Option.some.inj h]; exact lsInfix6161_tagged v w
  | lessThan =>
    rw [← Option.some.inj h, ← slt_wide]
    exact captured_truth v w "<" fun x y => x.slt y
  | lessEqual =>
    rw [← Option.some.inj h, ← sle_wide]
    exact captured_truth v w "<=" fun x y => x.sle y
  | greaterThan =>
    rw [← Option.some.inj h, ← slt_wide]
    exact captured_truth v w ">" fun x y => y.slt x
  | greaterEqual =>
    rw [← Option.some.inj h, ← sle_wide]
    exact captured_truth v w ">=" fun x y => y.sle x
  | notEqual =>
    rw [← Option.some.inj h, ← bne_wide]
    exact captured_truth v w "!=" fun x y => x != y
  | and =>
    rw [← Option.some.inj h, ← wide_ne_zero, ← wide_ne_zero]
    exact captured_truth v w "&&" fun x y => x != 0 && y != 0
  | or =>
    rw [← Option.some.inj h, ← wide_ne_zero, ← wide_ne_zero]
    exact captured_truth v w "!!" fun x y => x != 0 || y != 0
  | other m hm => cases h

end LamaRv
