import Mathlib.Tactic

/-!
# Hexadecimal formatting

`std::format` with `{:#x}` and `{:#010x}`.  Distinct numbers have distinct texts, so labels made
from offsets never collide.
-/

namespace LamaRv

/-- The hexadecimal digits of `n`, in lower case. -/
def hexDigits (n : ℕ) : String := String.ofList (Nat.toDigits 16 n)

/-- `{:#x}`. -/
def formatHex (n : ℕ) : String := "0x" ++ hexDigits n

/-- `{:#010x}`: ten characters at least, filled with zeros after `0x`. -/
def formatHex10 (n : ℕ) : String :=
  "0x" ++ String.ofList (List.replicate (8 - (Nat.toDigits 16 n).length) '0') ++ hexDigits n

/-- `{:#010x}` on an `int`: the sign stands before `0x` and counts as a character. -/
def formatHex10Int (x : ℤ) : String :=
  if x < 0 then
    "-0x" ++ String.ofList (List.replicate (7 - (Nat.toDigits 16 x.natAbs).length) '0') ++
      hexDigits x.natAbs
  else formatHex10 x.toNat

/-- `{:d}` and `operator<<` on an integer. -/
def formatInt (x : ℤ) : String := toString x

theorem digitChar_inj : ∀ a < 16, ∀ b < 16, Nat.digitChar a = Nat.digitChar b → a = b := by
  have hindex : ∀ a < 16, "0123456789abcdef".toList.idxOf (Nat.digitChar a) = a := by decide
  intro a ha b hb h
  rw [← hindex a ha, h, hindex b hb]

theorem toDigits_inj (a b : ℕ) (h : Nat.toDigits 16 a = Nat.toDigits 16 b) : a = b := by
  induction a using Nat.strongRecOn generalizing b with
  | ind a ih =>
    rw [Nat.toDigits_eq_if (by omega), Nat.toDigits_eq_if (n := b) (by omega)] at h
    split_ifs at h with ha hb hb
    · exact digitChar_inj a ha b hb (by simpa using h)
    · have hlen := congrArg List.length h
      have := Nat.length_toDigits_pos (b := 16) (n := b / 16)
      simp only [List.length_append, List.length_singleton] at hlen
      omega
    · have hlen := congrArg List.length h
      have := Nat.length_toDigits_pos (b := 16) (n := a / 16)
      simp only [List.length_append, List.length_singleton] at hlen
      omega
    · obtain ⟨hq, hr⟩ := List.append_inj' h rfl
      have hq := ih (a / 16) (by omega) _ hq
      have hr := digitChar_inj (a % 16) (by omega) (b % 16) (by omega) (by simpa using hr)
      omega

theorem formatHex_inj {a b : ℕ} (h : formatHex a = formatHex b) : a = b := by
  have h := congrArg String.toList h
  simp only [formatHex, hexDigits, String.toList_append, String.toList_ofList] at h
  exact toDigits_inj a b (List.append_cancel_left h)

end LamaRv
