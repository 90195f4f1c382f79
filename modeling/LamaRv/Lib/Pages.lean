import Mathlib.Tactic

/-!
# Whole pages

Memory is given and taken back in whole pages.

* `count`: how many pages some bytes take;
* `region`: the pages that they take from an address on;
* `covering`: the pages of the addresses between two bounds.
-/

namespace LamaRv.Pages

variable {page a b n n' p : ℕ}

def count (page bytes : ℕ) : ℕ := (bytes + page - 1) / page

def region (page a bytes : ℕ) : Finset ℕ := Finset.Ico (a / page) (a / page + count page bytes)

def covering (page a b : ℕ) : Finset ℕ := Finset.Ico (a / page) ((b + page - 1) / page)

/-- From the beginning of a page on. -/
theorem covering_add (hpage : 0 < page) (ha : a % page = 0) (n : ℕ) :
    covering page a (a + n) = region page a n := by
  obtain ⟨k, rfl⟩ := Nat.dvd_of_mod_eq_zero ha
  have hsum : page * k + n + page - 1 = page * k + (n + page - 1) := by omega
  rw [covering, region, count, hsum, Nat.mul_add_div hpage, Nat.mul_div_cancel_left _ hpage]

theorem count_of_le (hn : 0 < n) (h : n ≤ page) : count page n = 1 := by
  rw [count, Nat.div_eq_iff (by omega)]
  omega

/-- Eight times the bytes take the same pages where they fit into one. -/
theorem region_of_le (a : ℕ) (h : 8 * n ≤ page) : region page a (8 * n) = region page a n := by
  rcases Nat.eq_zero_or_pos n with rfl | hn
  · rfl
  · rw [region, region, count_of_le (by omega) h, count_of_le hn (by omega)]

/-- Eight times the bytes take more pages, unless they fit into one. -/
theorem count_lt (hpage : 0 < page) (h : page < 8 * n) : count page n < count page (8 * n) := by
  by_cases hn : n ≤ page
  · have hmore : 2 ≤ count page (8 * n) := by
      rw [count, Nat.le_div_iff_mul_le hpage]
      omega
    rw [count_of_le (by omega) hn]
    exact hmore
  · calc count page n < (n + page - 1 + page) / page := by
          rw [Nat.add_div_right _ hpage]
          exact Nat.lt_add_one _
      _ ≤ count page (8 * n) := Nat.div_le_div_right (by omega)

/-- Bytes that leave pages over when they are taken back. -/
theorem region_diff_ne_empty (a : ℕ) (h : count page n < count page n') :
    a / page + count page n ∈ region page a n' ∧ a / page + count page n ∉ region page a n := by
  simp only [region, Finset.mem_Ico]
  omega

end LamaRv.Pages
