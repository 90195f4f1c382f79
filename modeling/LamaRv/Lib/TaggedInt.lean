import LamaRv.Lib.Rv64

/-!
# Tagged integers

A 63-bit integer is kept in a 64-bit word with its lowest bit set.  Arithmetic is done on the
untagged values, which are shifted back afterwards; what the shift loses is what the arithmetic
of 63-bit integers loses.

* `tagged`: the word of an integer;
* `untag`: the arithmetic shift; `tag_ofInt`: shifting back and setting the bit;
* `tag_add`, `tag_sdiv` and so on: the operations.
-/

namespace TaggedInt

open ByteMemory Rv64

/-- A 63-bit integer. -/
abbrev Int63 := BitVec 63

/-- The word of an integer. -/
def tagged (v : Int63) : Word := BitVec.ofInt 64 (2 * v.toInt + 1)

/-- The untagged value as a word. -/
def wide (v : Int63) : Word := BitVec.ofInt 64 v.toInt

/-- A truth value as an integer. -/
def ofTruth (b : Bool) : Int63 := if b then 1 else 0

theorem toInt_bounds (v : Int63) : -2 ^ 62 ≤ v.toInt ∧ v.toInt < 2 ^ 62 :=
  ⟨BitVec.le_toInt v, BitVec.toInt_lt⟩

theorem toInt_wide (v : Int63) : (wide v).toInt = v.toInt := by
  obtain ⟨h1, h2⟩ := toInt_bounds v
  rw [wide, BitVec.toInt_ofInt, Int.bmod_eq_of_le (by omega) (by omega)]

theorem toInt_tagged (v : Int63) : (tagged v).toInt = 2 * v.toInt + 1 := by
  obtain ⟨h1, h2⟩ := toInt_bounds v
  rw [tagged, BitVec.toInt_ofInt, Int.bmod_eq_of_le (by omega) (by omega)]

theorem tagged_injective : Function.Injective tagged := by
  intro v w h
  have h := congrArg BitVec.toInt h
  rw [toInt_tagged, toInt_tagged] at h
  exact BitVec.toInt_inj.1 (by omega)

theorem wide_inj {v w : Int63} : wide v = wide w ↔ v = w := by
  rw [← BitVec.toInt_inj, toInt_wide, toInt_wide, BitVec.toInt_inj]

/-- Untagging. -/
theorem untag (v : Int63) : (tagged v).sshiftRight 1 = wide v := by
  unfold BitVec.sshiftRight
  rw [toInt_tagged, Int.shiftRight_eq_div_pow, wide]
  congr 1
  omega

theorem ofInt_add_mul (a k : ℤ) : BitVec.ofInt 64 (a + 2 ^ 64 * k) = BitVec.ofInt 64 a := by
  rw [BitVec.ofInt_add, BitVec.ofInt_mul, show BitVec.ofInt 64 (2 ^ 64) = 0 from rfl,
    zero_mul, add_zero]

/-- Tagging. -/
theorem tag_ofInt (z : ℤ) : BitVec.ofInt 64 z <<< 1 + 1 = tagged (BitVec.ofInt 63 z) := by
  have hshift : BitVec.ofInt 64 z <<< 1 + 1 = BitVec.ofInt 64 (2 * z + 1) := by
    rw [BitVec.shiftLeft_eq_mul_twoPow, BitVec.ofInt_add, BitVec.ofInt_mul, BitVec.mul_comm]
    rfl
  have hmod : 2 * z.bmod (2 ^ 63) + 1 = 2 * z + 1 + 2 ^ 64 * -z.bdiv (2 ^ 63) := by
    rw [Int.bmod_eq_self_sub_mul_bdiv]
    push_cast
    ring
  rw [hshift, tagged, BitVec.toInt_ofInt, hmod, ofInt_add_mul]

/-! ### Operations -/

section Operations

variable (v w : Int63)

theorem add_wide : wide v + wide w = BitVec.ofInt 64 (v.toInt + w.toInt) :=
  (BitVec.ofInt_add _ _).symm

theorem mul_wide : wide v * wide w = BitVec.ofInt 64 (v.toInt * w.toInt) :=
  (BitVec.ofInt_mul _ _).symm

theorem sub_wide : wide v - wide w = BitVec.ofInt 64 (v.toInt - w.toInt) := by
  rw [BitVec.sub_eq_add_neg, wide, wide, ← BitVec.ofInt_neg, ← BitVec.ofInt_add, Int.sub_eq_add_neg]

theorem sdiv_eq_ofInt {n : ℕ} (x y : BitVec n) :
    x.sdiv y = BitVec.ofInt n (x.toInt.tdiv y.toInt) := by
  rw [← BitVec.toInt_inj, BitVec.toInt_sdiv, BitVec.toInt_ofInt]

theorem srem_eq_ofInt {n : ℕ} (x y : BitVec n) :
    x.srem y = BitVec.ofInt n (x.toInt.tmod y.toInt) := by
  rw [← BitVec.toInt_srem, BitVec.ofInt_toInt]

theorem tag_add : (wide v + wide w) <<< 1 + 1 = tagged (v + w) := by
  rw [add_wide, tag_ofInt, BitVec.ofInt_add, BitVec.ofInt_toInt, BitVec.ofInt_toInt]

theorem tag_sub : (wide v - wide w) <<< 1 + 1 = tagged (v - w) := by
  rw [sub_wide, tag_ofInt, Int.sub_eq_add_neg, BitVec.ofInt_add, BitVec.ofInt_neg,
    BitVec.ofInt_toInt, BitVec.ofInt_toInt, BitVec.sub_eq_add_neg]

theorem tag_mul : (wide v * wide w) <<< 1 + 1 = tagged (v * w) := by
  rw [mul_wide, tag_ofInt, BitVec.ofInt_mul, BitVec.ofInt_toInt, BitVec.ofInt_toInt]

theorem tag_sdiv : (wide v).sdiv (wide w) <<< 1 + 1 = tagged (v.sdiv w) := by
  rw [sdiv_eq_ofInt, toInt_wide, toInt_wide, tag_ofInt, ← sdiv_eq_ofInt]

theorem tag_srem : (wide v).srem (wide w) <<< 1 + 1 = tagged (v.srem w) := by
  rw [srem_eq_ofInt, toInt_wide, toInt_wide, tag_ofInt, ← srem_eq_ofInt]

theorem tag_ofBool (b : Bool) : ofBool b <<< 1 + 1 = tagged (ofTruth b) := by
  cases b <;> decide

theorem slt_wide : (wide v).slt (wide w) = v.slt w := by
  rw [BitVec.slt_eq_decide, BitVec.slt_eq_decide, toInt_wide, toInt_wide]

theorem not_slt_wide : (!(wide w).slt (wide v)) = v.sle w := by
  rw [BitVec.slt_eq_decide, BitVec.sle_eq_decide, toInt_wide, toInt_wide, ← decide_not]
  exact decide_eq_decide.2 not_lt

theorem beq_wide : (wide w - wide v == 0) = (v == w) := by
  rw [Bool.eq_iff_iff, beq_iff_eq, beq_iff_eq, ← wide_inj (v := v)]
  bv_omega

theorem ofBool_xor_one (b : Bool) : ofBool b ^^^ 1 = ofBool (!b) := by
  cases b <;> decide

/-- A tagged integer is zero when its untagged value is. -/
theorem wide_eq_zero : (wide v == 0) = (v == 0) := by
  have h0 : wide 0 = 0 := rfl
  rw [Bool.eq_iff_iff, beq_iff_eq, beq_iff_eq, ← h0, wide_inj]

end Operations

end TaggedInt
