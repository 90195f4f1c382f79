import Mathlib.Data.Nat.ModEq
import Mathlib.Tactic.Ring

/-!
# Bytes in a memory of words, and strings that end with a zero

A memory gives a word to every address; the words at the multiples of eight hold the bytes, the lowest
one first.  The functions of the C library on strings work on bytes and stop at a zero.

* `byteAt`, `setByte`: reading and writing a byte;
* `strlen`, `strncpy`, `strcmp`: the three functions;
* `TextAt`: the bytes of a string before its zero;
* `cut`: the bytes up to the first zero, and zeros from there on;
* `strncpy_spec`, `strlen_spec`, `strcmp_spec`: what they do.
-/

namespace WordBytes

/-! ### Bytes of a word -/

/-- A byte of a word, the lowest one first. -/
def byteOf (w k : ℕ) : ℕ := w / 256 ^ k % 256

/-- A word with another byte. -/
def withByte (w k v : ℕ) : ℕ := w % 256 ^ k + v * 256 ^ k + w / 256 ^ (k + 1) * 256 ^ (k + 1)

section Word

variable {w w' k j v : ℕ}

/-- A byte depends on the word up to it. -/
theorem byteOf_of_mod (h : w % 256 ^ (j + 1) = w' % 256 ^ (j + 1)) : byteOf w j = byteOf w' j := by
  have hmod : ∀ x, x % 256 ^ (j + 1) / 256 ^ j = byteOf x j := fun x => by
    rw [pow_succ, Nat.mod_mul_right_div_self, byteOf]
  rw [← hmod, ← hmod, h]

/-- A byte depends on the word from it on. -/
theorem byteOf_of_div (h : w / 256 ^ k = w' / 256 ^ k) (hk : k ≤ j) : byteOf w j = byteOf w' j := by
  obtain ⟨i, rfl⟩ := Nat.exists_eq_add_of_le hk
  rw [byteOf, byteOf, pow_add, ← Nat.div_div_eq_div_mul, ← Nat.div_div_eq_div_mul, h]

theorem byteOf_lt : byteOf w k < 256 := Nat.mod_lt _ (by decide)

theorem withByte_div : withByte w k v / 256 ^ k = v + w / 256 ^ (k + 1) * 256 := by
  have hpos : 0 < 256 ^ k := Nat.pow_pos (by decide)
  have hsplit : withByte w k v = w % 256 ^ k + 256 ^ k * (v + w / 256 ^ (k + 1) * 256) := by
    rw [withByte, pow_succ]
    ring
  rw [hsplit, Nat.add_mul_div_left _ _ hpos, Nat.div_eq_of_lt (Nat.mod_lt _ hpos), Nat.zero_add]

theorem byteOf_withByte_self (hv : v < 256) : byteOf (withByte w k v) k = v := by
  rw [byteOf, withByte_div, Nat.add_mul_mod_self_right, Nat.mod_eq_of_lt hv]

theorem byteOf_withByte_of_ne (hv : v < 256) (h : j ≠ k) :
    byteOf (withByte w k v) j = byteOf w j := by
  rcases Nat.lt_or_gt_of_ne h with hlt | hgt
  · refine byteOf_of_mod ?_
    -- the bytes below are those of the remainder
    have hdvd : 256 ^ (j + 1) ∣ 256 ^ k := Nat.pow_dvd_pow 256 hlt
    have hdvd' : 256 ^ (j + 1) ∣ 256 ^ (k + 1) := Nat.pow_dvd_pow 256 (by omega)
    have h₁ : v * 256 ^ k % 256 ^ (j + 1) = 0 := Nat.mod_eq_zero_of_dvd (hdvd.mul_left v)
    have h₂ : w / 256 ^ (k + 1) * 256 ^ (k + 1) % 256 ^ (j + 1) = 0 :=
      Nat.mod_eq_zero_of_dvd (hdvd'.mul_left _)
    rw [withByte, Nat.add_mod, h₂, Nat.add_zero, Nat.mod_mod, Nat.add_mod, h₁, Nat.add_zero,
      Nat.mod_mod, Nat.mod_mod_of_dvd _ hdvd]
  · refine byteOf_of_div (k := k + 1) ?_ hgt
    rw [pow_succ, ← Nat.div_div_eq_div_mul, withByte_div, ← pow_succ,
      Nat.add_mul_div_right _ _ (by decide), Nat.div_eq_of_lt hv, Nat.zero_add]

end Word

/-! ### Bytes of memory -/

/-- The byte at an address. -/
def byteAt (m : ℕ → ℕ) (a : ℕ) : ℕ := byteOf (m (a - a % 8)) (a % 8)

/-- Write a byte. -/
def setByte (m : ℕ → ℕ) (a v : ℕ) : ℕ → ℕ :=
  Function.update m (a - a % 8) (withByte (m (a - a % 8)) (a % 8) v)

section Byte

variable {m m' : ℕ → ℕ} {a b v x : ℕ}

theorem byteAt_congr (h : m' (a - a % 8) = m (a - a % 8)) : byteAt m' a = byteAt m a := by
  rw [byteAt, byteAt, h]

theorem byteAt_lt : byteAt m a < 256 := byteOf_lt

theorem byteAt_setByte_self (hv : v < 256) : byteAt (setByte m a v) a = v := by
  rw [byteAt, setByte, Function.update_self, byteOf_withByte_self hv]

theorem byteAt_setByte_of_ne (hv : v < 256) (h : b ≠ a) : byteAt (setByte m a v) b = byteAt m b := by
  by_cases hword : b - b % 8 = a - a % 8
  · rw [byteAt, setByte, hword, Function.update_self, byteOf_withByte_of_ne hv (by omega), byteAt, hword]
  · rw [byteAt, setByte, Function.update_of_ne hword, byteAt]

/-- Other words are as they were. -/
theorem setByte_of_ne (h : x ≠ a - a % 8) : setByte m a v x = m x := Function.update_of_ne h _ _

end Byte

/-! ### Strings -/

/-- Zeros. -/
def zeroBytes (dst : ℕ) : ℕ → (ℕ → ℕ) → ℕ → ℕ
  | 0, m => m
  | n + 1, m => zeroBytes dst n (setByte m (dst + n) 0)

/-- `strncpy`: at most `n` bytes, and zeros after the first zero. -/
def strncpy : ℕ → ℕ → ℕ → (ℕ → ℕ) → ℕ → ℕ
  | 0, _, _, m => m
  | n + 1, dst, src, m =>
    let c := byteAt m src
    let m := setByte m dst c
    if c = 0 then zeroBytes (dst + 1) n m else strncpy n (dst + 1) (src + 1) m

/-- `strlen`, with some fuel. -/
def strlenLoop (m : ℕ → ℕ) : ℕ → ℕ → Option ℕ
  | 0, _ => none
  | n + 1, p => if byteAt m p = 0 then some 0 else (strlenLoop m n (p + 1)).map (· + 1)

/-- `strlen`; a string is not longer than the address space. -/
def strlen (m : ℕ → ℕ) (p : ℕ) : Option ℕ := strlenLoop m (2 ^ 64) p

/-- `strcmp`, with some fuel: the difference of the bytes at the first place where two strings differ. -/
def strcmpLoop (m : ℕ → ℕ) : ℕ → ℕ → ℕ → Option ℤ
  | 0, _, _ => none
  | n + 1, p, q =>
    let x := byteAt m p
    let y := byteAt m q
    if x ≠ y ∨ x = 0 then some (x - y) else strcmpLoop m n (p + 1) (q + 1)

/-- `strcmp`. -/
def strcmp (m : ℕ → ℕ) (p q : ℕ) : Option ℤ := strcmpLoop m (2 ^ 64) p q

/-- The string at `p` has some bytes before its zero. -/
def TextAt (m : ℕ → ℕ) : List ℕ → ℕ → Prop
  | [], p => byteAt m p = 0
  | b :: bs, p => b ≠ 0 ∧ byteAt m p = b ∧ TextAt m bs (p + 1)

/-- The bytes up to the first zero, and zeros from there on. -/
def cut (f : ℕ → ℕ) (i : ℕ) : ℕ := if ∃ j < i, f j = 0 then 0 else f i

/-- After a zero there are only zeros. -/
def ZeroTail (f : ℕ → ℕ) (n : ℕ) : Prop := ∀ i < n, ∀ j < i, f j = 0 → f i = 0

instance (f : ℕ → ℕ) (n : ℕ) : Decidable (ZeroTail f n) :=
  inferInstanceAs (Decidable (∀ i < n, ∀ j < i, f j = 0 → f i = 0))

section Strings

variable {m : ℕ → ℕ} {f : ℕ → ℕ} {dst src n b x : ℕ}

theorem cut_eq_iff : (∀ i < n, cut f i = f i) ↔ ZeroTail f n := by
  refine forall₂_congr fun i _ => ?_
  by_cases h : ∃ j < i, f j = 0
  · rw [cut, if_pos h]
    obtain ⟨j, hj, hzero⟩ := h
    exact ⟨fun heq _ _ _ => heq.symm, fun hall => (hall j hj hzero).symm⟩
  · rw [cut, if_neg h]
    exact ⟨fun _ j hj hzero => absurd ⟨j, hj, hzero⟩ h, fun _ => rfl⟩

theorem cut_of_nonzero {i : ℕ} (h : ∀ j < i, f j ≠ 0) : cut f i = f i :=
  if_neg fun ⟨j, hj, hzero⟩ => h j hj hzero

theorem cut_congr {g : ℕ → ℕ} {i : ℕ} (h : ∀ j ≤ i, f j = g j) : cut f i = cut g i := by
  have hiff : (∃ j < i, f j = 0) ↔ ∃ j < i, g j = 0 :=
    exists_congr fun j => and_congr_right fun hj => by rw [h j (by omega)]
  simp only [cut, hiff, h i le_rfl]

theorem cut_succ (hf : f 0 ≠ 0) (i : ℕ) : cut f (i + 1) = cut (fun j => f (j + 1)) i := by
  have hiff : (∃ j < i + 1, f j = 0) ↔ ∃ j < i, f (j + 1) = 0 := by
    constructor
    · rintro ⟨j, hj, hzero⟩
      cases j with
      | zero => exact absurd hzero hf
      | succ j => exact ⟨j, by omega, hzero⟩
    · rintro ⟨j, hj, hzero⟩
      exact ⟨j + 1, by omega, hzero⟩
  simp only [cut, hiff]

theorem byteAt_zeroBytes (b : ℕ) : byteAt (zeroBytes dst n m) b =
    if dst ≤ b ∧ b < dst + n then 0 else byteAt m b := by
  induction n generalizing m with
  | zero => rw [zeroBytes, if_neg (by omega)]
  | succ n ih =>
    rw [zeroBytes, ih]
    by_cases hlast : b = dst + n
    · rw [if_neg (by omega), if_pos (by omega), hlast, byteAt_setByte_self (by decide)]
    · rw [byteAt_setByte_of_ne (by decide) hlast]
      split_ifs <;> first | rfl | omega

theorem zeroBytes_of_out (h : x % 8 = 0 → x + 8 ≤ dst ∨ dst + n ≤ x) :
    zeroBytes dst n m x = m x := by
  induction n generalizing m with
  | zero => rfl
  | succ n ih => rw [zeroBytes, ih (by omega), setByte_of_ne (by omega)]

theorem byteAt_strncpy_of_out (h : b < dst ∨ dst + n ≤ b) :
    byteAt (strncpy n dst src m) b = byteAt m b := by
  induction n generalizing dst src m with
  | zero => rfl
  | succ n ih =>
    have hne : byteAt (setByte m dst (byteAt m src)) b = byteAt m b :=
      byteAt_setByte_of_ne byteAt_lt (by omega)
    rw [strncpy]
    split_ifs
    · rw [byteAt_zeroBytes, if_neg (by omega), hne]
    · rw [ih (by omega), hne]

/-- Words that lie apart from the copy are as they were. -/
theorem strncpy_of_out (h : x % 8 = 0 → x + 8 ≤ dst ∨ dst + n ≤ x) :
    strncpy n dst src m x = m x := by
  induction n generalizing dst src m with
  | zero => rfl
  | succ n ih =>
    rw [strncpy]
    split_ifs
    · rw [zeroBytes_of_out (by omega), setByte_of_ne (by omega)]
    · rw [ih (by omega), setByte_of_ne (by omega)]

/-- **`strncpy`** of bytes that lie apart from the copy. -/
theorem strncpy_spec (h : ∀ i < n, src + i < dst ∨ dst + n ≤ src + i) :
    ∀ i < n, byteAt (strncpy n dst src m) (dst + i) = cut (fun j => byteAt m (src + j)) i := by
  induction n generalizing dst src m with
  | zero => intro i hi; omega
  | succ n ih =>
    intro i hi
    have hfirst := h 0 (by omega)
    rw [strncpy]
    cases i with
    | zero =>
      have hcut : cut (fun j => byteAt m (src + j)) 0 = byteAt m src := by simp [cut]
      rw [hcut]
      split_ifs
      · rw [byteAt_zeroBytes, if_neg (by omega), Nat.add_zero, byteAt_setByte_self byteAt_lt]
      · rw [byteAt_strncpy_of_out (by omega), Nat.add_zero, byteAt_setByte_self byteAt_lt]
    | succ i =>
      by_cases hzero : byteAt m src = 0
      · have hcut : cut (fun j => byteAt m (src + j)) (i + 1) = 0 := if_pos ⟨0, by omega, hzero⟩
        rw [if_pos hzero, byteAt_zeroBytes, if_pos (by omega), hcut]
      · have hrest := @ih (setByte m dst (byteAt m src)) (dst + 1) (src + 1)
          (fun j hj => by have := h (j + 1) (by omega); omega) i (by omega)
        have hbytes : ∀ j ≤ i, byteAt (setByte m dst (byteAt m src)) (src + 1 + j) =
            byteAt m (src + (j + 1)) := fun j hj => by
          rw [byteAt_setByte_of_ne byteAt_lt (by have := h (j + 1) (by omega); omega)]
          congr 1
          omega
        have hcut : cut (fun j => byteAt (setByte m dst (byteAt m src)) (src + 1 + j)) i =
            cut (fun j => byteAt m (src + (j + 1))) i := cut_congr hbytes
        rw [if_neg hzero, show dst + (i + 1) = dst + 1 + i by omega, hrest, hcut,
          cut_succ (by simpa using hzero)]

/-- The length of a string is the place of its first zero. -/
theorem strlenLoop_spec {k : ℕ} (hk : k < n) (hzero : byteAt m (src + k) = 0)
    (hfirst : ∀ j < k, byteAt m (src + j) ≠ 0) : strlenLoop m n src = some k := by
  induction k generalizing n src with
  | zero =>
    obtain ⟨n, rfl⟩ := Nat.exists_eq_add_one.2 hk
    rw [strlenLoop, if_pos (by simpa using hzero)]
  | succ k ih =>
    obtain ⟨n, rfl⟩ := Nat.exists_eq_add_one.2 (Nat.zero_lt_of_lt hk)
    have hhead := hfirst 0 (by omega)
    have hrest := @ih (src + 1) n (by omega)
      (by rw [show src + 1 + k = src + (k + 1) by omega]; exact hzero)
      (fun j hj => by
        rw [show src + 1 + j = src + (j + 1) by omega]
        exact hfirst (j + 1) (by omega))
    rw [strlenLoop, if_neg (by simpa using hhead), hrest, Option.map_some]

theorem strlen_spec {k : ℕ} (hk : k < 2 ^ 64) (hzero : byteAt m (src + k) = 0)
    (hfirst : ∀ j < k, byteAt m (src + j) ≠ 0) : strlen m src = some k :=
  strlenLoop_spec hk hzero hfirst

/-- The bytes from `p` on up to their first zero. -/
theorem textAt_takeWhile (hzero : byteAt m (src + n) = 0) :
    TextAt m (((List.range n).map fun i => byteAt m (src + i)).takeWhile (· ≠ 0)) src := by
  induction n generalizing src with
  | zero => exact hzero
  | succ n ih =>
    have hrest := @ih (src + 1) (by rw [← hzero]; congr 1; omega)
    have htail : (fun i => byteAt m (src + (i + 1))) = fun i => byteAt m (src + 1 + i) := by
      funext i
      congr 1
      omega
    rw [List.range_succ_eq_map, List.map_cons, List.map_map, Nat.add_zero]
    by_cases h : byteAt m src = 0
    · rw [List.takeWhile_cons_of_neg (by simpa using h)]
      exact h
    · rw [List.takeWhile_cons_of_pos (by simpa using h)]
      exact ⟨h, rfl, by simpa only [Function.comp_def, htail] using hrest⟩

/-- The length and the bytes of a string that has some bytes. -/
theorem strlenLoop_of_textAt {xs : List ℕ} (h : TextAt m xs src) (hn : xs.length < n) :
    strlenLoop m n src = some xs.length := by
  induction xs generalizing n src with
  | nil =>
    obtain ⟨n, rfl⟩ := Nat.exists_eq_add_one.2 hn
    exact if_pos h
  | cons x xs ih =>
    obtain ⟨n, rfl⟩ := Nat.exists_eq_add_one.2 (Nat.zero_lt_of_lt hn)
    obtain ⟨hx, hhead, hrest⟩ := h
    rw [strlenLoop, if_neg (hhead.symm ▸ hx), ih hrest (Nat.lt_of_succ_lt_succ hn), Option.map_some,
      List.length_cons]

theorem bytes_of_textAt {xs : List ℕ} (h : TextAt m xs src) :
    ((List.range xs.length).map fun i => byteAt m (src + i)) = xs := by
  induction xs generalizing src with
  | nil => rfl
  | cons x xs ih =>
    obtain ⟨-, hhead, hrest⟩ := h
    have htail : (fun i => byteAt m (src + (i + 1))) = fun i => byteAt m (src + 1 + i) := by
      funext i
      rw [Nat.add_assoc src 1 i, Nat.add_comm 1 i]
    rw [List.length_cons, List.range_succ_eq_map, List.map_cons, List.map_map, Nat.add_zero, hhead,
      Function.comp_def, htail, ih hrest]

/-- Two strings are the same, or have a first place where they differ. -/
theorem strcmpLoop_spec {xs ys : List ℕ} {p q : ℕ} (hx : TextAt m xs p) (hy : TextAt m ys q)
    (hn : xs.length < n) : ∃ c, strcmpLoop m n p q = some c ∧ (c = 0 ∧ xs = ys ∨
      ∃ (pre : List ℕ) (x y : ℕ) (s t : List ℕ), x ≠ y ∧ xs ++ [0] = pre ++ x :: s ∧ ys ++ [0] = pre ++ y :: t ∧
        c = (x : ℤ) - y) := by
  obtain ⟨n, rfl⟩ := Nat.exists_eq_add_one.2 (Nat.zero_lt_of_lt hn)
  rw [strcmpLoop]
  induction xs generalizing ys p q n with
  | nil =>
    cases ys with
    | nil =>
      simp only [TextAt] at hx hy
      exact ⟨0, by simp [hx, hy], .inl ⟨rfl, rfl⟩⟩
    | cons y ys =>
      simp only [TextAt] at hx hy
      exact ⟨0 - y, by simp [hx, hy.2.1], .inr ⟨[], 0, y, [], ys ++ [0], hy.1.symm, rfl, rfl, rfl⟩⟩
  | cons x xs ih =>
    cases ys with
    | nil =>
      simp only [TextAt] at hx hy
      exact ⟨x - 0, by simp [hx.2.1, hx.1, hy], .inr ⟨[], x, 0, xs ++ [0], [], hx.1, rfl, rfl, rfl⟩⟩
    | cons y ys =>
      simp only [TextAt] at hx hy
      obtain ⟨hne, hbyte, hx⟩ := hx
      obtain ⟨-, hbyte', hy⟩ := hy
      by_cases hxy : x = y
      · obtain rfl := hxy
        rw [List.length_cons] at hn
        obtain ⟨n, rfl⟩ := Nat.exists_eq_add_one.2 (show 0 < n by omega)
        obtain ⟨c, hc, h⟩ := ih hx hy n (by omega)
        refine ⟨c, by simpa [hbyte, hbyte', hne, strcmpLoop] using hc, ?_⟩
        rcases h with ⟨hzero, rfl⟩ | ⟨pre, a, b, s, t, hab, h₁, h₂, hdiff⟩
        · exact .inl ⟨hzero, rfl⟩
        · exact .inr ⟨x :: pre, a, b, s, t, hab, by rw [List.cons_append, h₁, List.cons_append],
            by rw [List.cons_append, h₂, List.cons_append], hdiff⟩
      · exact ⟨x - y, by simp [hbyte, hbyte', hxy],
          .inr ⟨[], x, y, xs ++ [0], ys ++ [0], hxy, rfl, rfl, rfl⟩⟩

theorem strcmp_spec {xs ys : List ℕ} {p q : ℕ} (hx : TextAt m xs p) (hy : TextAt m ys q)
    (hn : xs.length < 2 ^ 64) : ∃ c, strcmp m p q = some c ∧ (c = 0 ∧ xs = ys ∨
      ∃ (pre : List ℕ) (x y : ℕ) (s t : List ℕ), x ≠ y ∧ xs ++ [0] = pre ++ x :: s ∧ ys ++ [0] = pre ++ y :: t ∧
        c = (x : ℤ) - y) :=
  strcmpLoop_spec hx hy hn

end Strings

end WordBytes
