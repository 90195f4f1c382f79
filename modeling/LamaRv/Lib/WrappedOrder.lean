import Mathlib.Data.BitVec
import Mathlib.Data.Set.Finite.Basic
import Mathlib.Data.Set.Insert
import Mathlib.Tactic.Ring

/-!
# Comparing by differences that wrap

Words are compared by the sign of their difference, taken as a signed number of the same width.  The
words lie on a circle then, and the comparison is an order on those sets of words that lie in one half
of it.  Lists of words are compared at the first place where they differ.

* `compareWord`, `compareLex`: the signs;
* `PreorderOn`: a function gives the signs of a total preorder;
* `InHalf`, `Aligned`: when they do;
* `preorderOn_compareWord`, `preorderOn_compareLex`: the two equivalences;
* `Decides`: what a comparison of two parts of lists says about the lists.
-/

namespace WrappedOrder

/-- The signs of a total preorder on a set. -/
structure PreorderOn {α : Type*} (s : α → α → ℤ) (S : Set α) : Prop where
  antisymm : ∀ x ∈ S, ∀ y ∈ S, s x y = -s y x
  trans : ∀ x ∈ S, ∀ y ∈ S, ∀ z ∈ S, s x y ≤ 0 → s y z ≤ 0 → s x z ≤ 0

section PreorderOn

variable {α β : Type*} {s : α → α → ℤ} {t : β → β → ℤ} {S S' : Set α}

theorem PreorderOn.mono (h : PreorderOn s S) (hsub : S' ⊆ S) : PreorderOn s S' :=
  ⟨fun x hx y hy => h.antisymm x (hsub hx) y (hsub hy),
    fun x hx y hy z hz => h.trans x (hsub hx) y (hsub hy) z (hsub hz)⟩

/-- The same signs between elements that are related to those of another set. -/
theorem PreorderOn.transfer {R : α → β → Prop} {T : Set β} (hs : PreorderOn s S)
    (hT : ∀ y ∈ T, ∃ x ∈ S, R x y) (h : ∀ x y x' y', R x y → R x' y' → s x x' = t y y') :
    PreorderOn t T := by
  constructor
  · intro y hy y' hy'
    obtain ⟨x, hx, hxy⟩ := hT y hy
    obtain ⟨x', hx', hxy'⟩ := hT y' hy'
    rw [← h x y x' y' hxy hxy', ← h x' y' x y hxy' hxy]
    exact hs.antisymm x hx x' hx'
  · intro y₁ hy₁ y₂ hy₂ y₃ hy₃
    obtain ⟨x₁, hx₁, h₁⟩ := hT y₁ hy₁
    obtain ⟨x₂, hx₂, h₂⟩ := hT y₂ hy₂
    obtain ⟨x₃, hx₃, h₃⟩ := hT y₃ hy₃
    rw [← h x₁ y₁ x₂ y₂ h₁ h₂, ← h x₂ y₂ x₃ y₃ h₂ h₃, ← h x₁ y₁ x₃ y₃ h₁ h₃]
    exact hs.trans x₁ hx₁ x₂ hx₂ x₃ hx₃

theorem preorderOn_iff_of_rel {R : α → β → Prop} {T : Set β} (hS : ∀ x ∈ S, ∃ y ∈ T, R x y)
    (hT : ∀ y ∈ T, ∃ x ∈ S, R x y) (h : ∀ x y x' y', R x y → R x' y' → s x x' = t y y') :
    PreorderOn s S ↔ PreorderOn t T :=
  ⟨fun hs => hs.transfer hT h,
    fun ht => ht.transfer (R := fun y x => R x y) hS fun y x y' x' hxy hxy' =>
      (h x y x' y' hxy hxy').symm⟩

theorem PreorderOn.self (h : PreorderOn s S) {x : α} (hx : x ∈ S) : s x x = 0 := by
  have := h.antisymm x hx x hx
  omega

/-- A finite set has a least element. -/
theorem PreorderOn.exists_least (h : PreorderOn s S) (hfin : S.Finite) (hne : S.Nonempty) :
    ∃ t ∈ S, ∀ x ∈ S, s t x ≤ 0 := by
  induction S, hfin using Set.Finite.induction_on with
  | empty => exact absurd hne Set.not_nonempty_empty
  | insert _ _ ih =>
    rename_i a S _ _
    have ha : a ∈ insert a S := Set.mem_insert a S
    rcases S.eq_empty_or_nonempty with rfl | hS
    · refine ⟨a, ha, fun x hx => ?_⟩
      obtain rfl : x = a := by simpa using hx
      rw [h.self ha]
    · obtain ⟨t, ht, hleast⟩ := ih (h.mono (Set.subset_insert a S)) hS
      have ht' := Set.mem_insert_of_mem a ht
      by_cases hat : s a t ≤ 0
      · refine ⟨a, ha, Set.forall_mem_insert.2 ⟨by rw [h.self ha], fun x hx => ?_⟩⟩
        exact h.trans a ha t ht' x (Set.mem_insert_of_mem a hx) hat (hleast x hx)
      · refine ⟨t, ht', Set.forall_mem_insert.2 ⟨?_, hleast⟩⟩
        have := h.antisymm a ha t ht'
        omega

/-- A set below another one. -/
theorem preorderOn_union_iff {U : Set α} (h : ∀ x ∈ S, ∀ y ∈ U, s x y = -1) :
    PreorderOn s (S ∪ U) ↔ PreorderOn s S ∧ PreorderOn s U ∧ ∀ x ∈ S, ∀ y ∈ U, s y x = 1 := by
  constructor
  · intro hs
    refine ⟨hs.mono Set.subset_union_left, hs.mono Set.subset_union_right, fun x hx y hy => ?_⟩
    rw [hs.antisymm y (.inr hy) x (.inl hx), h x hx y hy, neg_neg]
  · rintro ⟨hS, hU, hgt⟩
    constructor
    · rintro x (hx | hx) y (hy | hy)
      · exact hS.antisymm x hx y hy
      · rw [h x hx y hy, hgt x hx y hy]
      · rw [h y hy x hx, hgt y hy x hx, neg_neg]
      · exact hU.antisymm x hx y hy
    · rintro x (hx | hx) y (hy | hy) z (hz | hz) hxy hyz
      · exact hS.trans x hx y hy z hz hxy hyz
      · rw [h x hx z hz]
        decide
      · rw [hgt z hz y hy] at hyz
        exact absurd hyz (by decide)
      · rw [h x hx z hz]
        decide
      · rw [hgt y hy x hx] at hxy
        exact absurd hxy (by decide)
      · rw [hgt y hy x hx] at hxy
        exact absurd hxy (by decide)
      · rw [hgt z hz y hy] at hyz
        exact absurd hyz (by decide)
      · exact hU.trans x hx y hy z hz hxy hyz

end PreorderOn

/-! ### Words -/

section Words

variable {w : ℕ} {x y z t : BitVec (w + 1)} {S : Set (BitVec (w + 1))}

/-- The sign of the difference. -/
def compareWord (x y : BitVec (w + 1)) : ℤ := (x - y).toInt.sign

/-- All of the words lie less than half of the circle after some word. -/
def InHalf (S : Set (BitVec (w + 1))) : Prop := ∃ t, ∀ x ∈ S, (x - t).toNat < 2 ^ w

theorem two_pow_succ (w : ℕ) : 2 ^ (w + 1) = 2 * 2 ^ w := by
  rw [pow_succ, Nat.mul_comm]

@[simp] theorem compareWord_self (x : BitVec (w + 1)) : compareWord x x = 0 := by
  simp [compareWord]

theorem compareWord_eq_zero : compareWord x y = 0 ↔ x = y := by
  have hzero : (0 : BitVec (w + 1)).toInt = 0 := BitVec.toInt_zero
  rw [compareWord, Int.sign_eq_zero_iff_zero, ← hzero, BitVec.toInt_inj]
  exact sub_eq_zero

/-- The words from one word on are those that it is not greater than. -/
theorem toNat_sub_lt_iff : (x - t).toNat < 2 ^ w ↔ 0 ≤ compareWord x t := by
  have hw := two_pow_succ w
  have hlt := (x - t).isLt
  rw [compareWord, Int.sign_nonneg_iff, BitVec.toInt_eq_toNat_cond, hw]
  split_ifs with h
  · exact iff_of_true (by omega) (by omega)
  · refine iff_of_false (by omega) ?_
    push_cast
    have : ((x - t).toNat : ℤ) < 2 * 2 ^ w := by
      rw [hw] at hlt
      exact_mod_cast hlt
    omega

/-- In one half, words are compared by how far they are from its beginning. -/
theorem compareWord_of_half (hx : (x - t).toNat < 2 ^ w) (hy : (y - t).toNat < 2 ^ w) :
    compareWord x y = (((x - t).toNat : ℤ) - (y - t).toNat).sign := by
  have hw := two_pow_succ w
  have hsub : x - y = (x - t) - (y - t) := (sub_sub_sub_cancel_right x y t).symm
  rw [compareWord, hsub]
  generalize x - t = a at *
  generalize y - t = b at *
  congr 1
  rw [BitVec.toInt_sub]
  have ha : a.toInt = a.toNat := BitVec.toInt_eq_toNat_of_lt (by omega)
  have hb : b.toInt = b.toNat := BitVec.toInt_eq_toNat_of_lt (by omega)
  rw [ha, hb]
  have hcast : ((2 ^ (w + 1) : ℕ) : ℤ) = 2 * ((2 ^ w : ℕ) : ℤ) := by
    rw [hw]
    push_cast
    ring
  refine Int.bmod_eq_of_le ?_ ?_ <;> rw [hcast] <;> omega

/-- **Words** are ordered by their differences when they lie in one half of the circle. -/
theorem preorderOn_compareWord : PreorderOn compareWord S ↔ InHalf S := by
  constructor
  · intro h
    rcases S.eq_empty_or_nonempty with rfl | hne
    · exact ⟨0, by simp⟩
    · have hfin : S.Finite := Set.Finite.of_injOn (Set.mapsTo_univ _ _)
        BitVec.toFin_injective.injOn Set.finite_univ
      obtain ⟨t, ht, hleast⟩ := h.exists_least hfin hne
      refine ⟨t, fun x hx => toNat_sub_lt_iff.2 ?_⟩
      have := h.antisymm x hx t ht
      have := hleast x hx
      omega
  · rintro ⟨t, ht⟩
    constructor
    · intro x hx y hy
      rw [compareWord_of_half (ht x hx) (ht y hy), compareWord_of_half (ht y hy) (ht x hx),
        ← Int.sign_neg, neg_sub]
    · intro x hx y hy z hz
      rw [compareWord_of_half (ht x hx) (ht y hy), compareWord_of_half (ht y hy) (ht z hz),
        compareWord_of_half (ht x hx) (ht z hz), Int.sign_nonpos_iff, Int.sign_nonpos_iff,
        Int.sign_nonpos_iff]
      omega

theorem InHalf.mono {S' : Set (BitVec (w + 1))} (h : InHalf S) (hsub : S' ⊆ S) : InHalf S' :=
  h.imp fun _ ht x hx => ht x (hsub hx)

end Words

/-! ### Lists of words -/

section Lists

variable {w : ℕ} {x y : BitVec (w + 1)} {xs ys zs : List (BitVec (w + 1))}
  {S S' : Set (List (BitVec (w + 1)))}

/-- The sign of the difference at the first place where two lists differ. -/
def compareLex : List (BitVec (w + 1)) → List (BitVec (w + 1)) → ℤ
  | [], [] => 0
  | [], _ :: _ => -1
  | _ :: _, [] => 1
  | x :: xs, y :: ys => if x = y then compareLex xs ys else compareWord x y

/-- The words that follow one and the same beginning lie in one half of the circle. -/
def Aligned (S : Set (List (BitVec (w + 1)))) : Prop :=
  ∀ pre, InHalf {x | ∃ k ∈ S, pre ++ [x] <+: k}

@[simp] theorem compareLex_cons_self (x : BitVec (w + 1)) :
    compareLex (x :: xs) (x :: ys) = compareLex xs ys := by
  rw [compareLex, if_pos rfl]

theorem compareLex_of_ne (h : x ≠ y) : compareLex (x :: xs) (y :: ys) = compareWord x y := by
  rw [compareLex, if_neg h]

@[simp] theorem compareLex_append (pre : List (BitVec (w + 1))) :
    compareLex (pre ++ xs) (pre ++ ys) = compareLex xs ys := by
  induction pre with
  | nil => rfl
  | cons x pre ih => rw [List.cons_append, List.cons_append, compareLex_cons_self, ih]

@[simp] theorem compareLex_self (xs : List (BitVec (w + 1))) : compareLex xs xs = 0 := by
  induction xs with
  | nil => rfl
  | cons x xs ih => rw [compareLex_cons_self, ih]

/-- Lists of words in the first half of the circle. -/
theorem aligned_of_lt (h : ∀ k ∈ S, ∀ x ∈ k, x.toNat < 2 ^ w) : Aligned S := by
  intro pre
  refine ⟨0, ?_⟩
  rintro x ⟨k, hk, hpre⟩
  rw [sub_zero]
  exact h k hk x (hpre.subset (by simp))

/-- The lists that begin with some word, without it. -/
theorem Aligned.tail (h : Aligned S) (x : BitVec (w + 1)) : Aligned {k | x :: k ∈ S} :=
  fun pre => (h (x :: pre)).mono fun _ ⟨k, hk, hpre⟩ =>
    ⟨x :: k, hk, List.cons_prefix_cons.2 ⟨rfl, hpre⟩⟩

/-- The first words of the lists. -/
theorem Aligned.heads (h : Aligned S) : PreorderOn compareWord {x | ∃ xs, x :: xs ∈ S} := by
  refine preorderOn_compareWord.2 ((h []).mono fun x hx => ?_)
  obtain ⟨xs, hxs⟩ := hx
  exact ⟨x :: xs, hxs, ⟨xs, rfl⟩⟩

theorem Aligned.antisymm (h : Aligned S) (hx : xs ∈ S) (hy : ys ∈ S) :
    compareLex xs ys = -compareLex ys xs := by
  induction xs generalizing ys S with
  | nil => cases ys <;> simp [compareLex]
  | cons x xs ih =>
    cases ys with
    | nil => simp [compareLex]
    | cons y ys =>
      by_cases hxy : x = y
      · obtain rfl := hxy
        rw [compareLex_cons_self, compareLex_cons_self]
        exact ih (h.tail x) hx hy
      · rw [compareLex_of_ne hxy, compareLex_of_ne (Ne.symm hxy)]
        exact h.heads.antisymm x ⟨xs, hx⟩ y ⟨ys, hy⟩

theorem Aligned.trans (h : Aligned S) (hx : xs ∈ S) (hy : ys ∈ S) (hz : zs ∈ S)
    (hxy : compareLex xs ys ≤ 0) (hyz : compareLex ys zs ≤ 0) : compareLex xs zs ≤ 0 := by
  induction xs generalizing ys zs S with
  | nil => cases zs <;> simp [compareLex]
  | cons x xs ih =>
    cases ys with
    | nil => simp [compareLex] at hxy
    | cons y ys =>
      cases zs with
      | nil => simp [compareLex] at hyz
      | cons z zs =>
        have hheads := h.heads
        have hx' : x ∈ {x | ∃ xs, x :: xs ∈ S} := ⟨xs, hx⟩
        have hy' : y ∈ {x | ∃ xs, x :: xs ∈ S} := ⟨ys, hy⟩
        have hz' : z ∈ {x | ∃ xs, x :: xs ∈ S} := ⟨zs, hz⟩
        by_cases h₁ : x = y
        · obtain rfl := h₁
          by_cases h₂ : x = z
          · obtain rfl := h₂
            rw [compareLex_cons_self] at hxy hyz ⊢
            exact ih (h.tail x) hx hy hz hxy hyz
          · rw [compareLex_of_ne h₂] at hyz ⊢
            exact hyz
        · rw [compareLex_of_ne h₁] at hxy
          by_cases h₂ : y = z
          · obtain rfl := h₂
            rwa [compareLex_of_ne h₁]
          · rw [compareLex_of_ne h₂] at hyz
            have hxz := hheads.trans x hx' y hy' z hz' hxy hyz
            -- the first and the last word are different, or the two signs would be opposite
            have h₃ : x ≠ z := by
              rintro rfl
              have := hheads.antisymm x hx' y hy'
              exact h₁ (compareWord_eq_zero.1 (by omega))
            rwa [compareLex_of_ne h₃]

/-- **Lists** are ordered when the words after each common beginning are. -/
theorem preorderOn_compareLex : PreorderOn compareLex S ↔ Aligned S := by
  constructor
  · intro h pre
    rw [← preorderOn_compareWord]
    have hne {x y : BitVec (w + 1)} {k k' : List (BitVec (w + 1))} (hxy : x ≠ y)
        (hx : pre ++ [x] <+: k) (hy : pre ++ [y] <+: k') : compareLex k k' = compareWord x y := by
      obtain ⟨xs, rfl⟩ := hx
      obtain ⟨ys, rfl⟩ := hy
      rw [List.append_assoc, List.append_assoc, compareLex_append]
      exact compareLex_of_ne hxy
    constructor
    · rintro x ⟨k, hk, hx⟩ y ⟨k', hk', hy⟩
      by_cases hxy : x = y
      · rw [hxy, compareWord_self, neg_zero]
      · rw [← hne hxy hx hy, ← hne (Ne.symm hxy) hy hx]
        exact h.antisymm k hk k' hk'
    · rintro x ⟨k, hk, hx⟩ y ⟨k', hk', hy⟩ z ⟨k'', hk'', hz⟩ h₁ h₂
      by_cases hxz : x = z
      · rw [hxz, compareWord_self]
      · by_cases hxy : x = y
        · rwa [hxy]
        · by_cases hyz : y = z
          · rwa [← hyz]
          · rw [← hne hxy hx hy] at h₁
            rw [← hne hyz hy hz] at h₂
            rw [← hne hxz hx hz]
            exact h.trans k hk k' hk' k'' hk'' h₁ h₂
  · intro h
    exact ⟨fun _ hx _ hy => h.antisymm hx hy, fun _ hx _ hy _ hz => h.trans hx hy hz⟩

/-! ### Comparing piece by piece -/

/-- A number decides between two lists: they are the same and it is zero, or it has the sign of the
words at the first place where they differ. -/
inductive Decides (c : ℤ) : List (BitVec (w + 1)) → List (BitVec (w + 1)) → Prop
  | same (k : List (BitVec (w + 1))) : c = 0 → Decides c k k
  | differ (pre s t : List (BitVec (w + 1))) {x y : BitVec (w + 1)} : x ≠ y →
      c.sign = compareWord x y → Decides c (pre ++ x :: s) (pre ++ y :: t)

section Decides

variable {c : ℤ} {k k' : List (BitVec (w + 1))}

theorem Decides.sign (h : Decides c k k') : c.sign = compareLex k k' := by
  cases h with
  | same _ hc => rw [hc, compareLex_self, Int.sign_zero]
  | differ _ _ _ hne hc => rw [compareLex_append, compareLex_of_ne hne, hc]

theorem Decides.eq_zero_iff (h : Decides c k k') : c = 0 ↔ k = k' := by
  cases h with
  | same _ hc => exact iff_of_true hc rfl
  | differ pre s t hne hc =>
    refine iff_of_false (fun h0 => hne ?_) (fun heq => hne ?_)
    · rw [← compareWord_eq_zero, ← hc, h0, Int.sign_zero]
    · exact (List.cons.inj (List.append_cancel_left heq)).1

/-- What comes before does not matter. -/
theorem Decides.append_left (h : Decides c k k') (pre : List (BitVec (w + 1))) :
    Decides c (pre ++ k) (pre ++ k') := by
  cases h with
  | same k hc => exact .same _ hc
  | differ pre' s t hne hc =>
    rw [← List.append_assoc, ← List.append_assoc]
    exact .differ (pre ++ pre') s t hne hc

/-- What comes behind does not matter if there is a difference. -/
theorem Decides.append_right (h : Decides c k k') (hc : c ≠ 0) (s t : List (BitVec (w + 1))) :
    Decides c (k ++ s) (k' ++ t) := by
  cases h with
  | same _ hzero => exact absurd hzero hc
  | differ pre s' t' hne hsign =>
    rw [List.append_assoc, List.append_assoc]
    exact .differ pre (s' ++ s) (t' ++ t) hne hsign

end Decides

end Lists

end WrappedOrder
