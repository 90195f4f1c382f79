import Mathlib.Data.BitVec
import Mathlib.Tactic

/-!
# Byte-addressed memory with 64-bit little-endian words

A memory is a total map from 64-bit addresses to bytes.  A word is read and written at any
address, aligned or not; address arithmetic wraps at `2^64`, so the distance between two
addresses is their difference in `BitVec 64`, and two words are apart when the distance is at
least eight in both directions.

* `load`, `store`: the word at an address;
* `Apart`: the two words share no byte;
* `load_store_self`, `load_store_of_apart`: reading back a store;
* `load_congr`: a word is determined by its eight bytes;
* `load_eq_ofWords`: a word that begins inside consecutive words.
-/

namespace ByteMemory

/-- A 64-bit machine word, also an address. -/
abbrev Word := BitVec 64

/-- A byte-addressed memory. -/
abbrev Memory := Word → BitVec 8

/-- The little-endian word at address `a`. -/
def load (m : Memory) (a : Word) : Word :=
  m (a + 7) ++ m (a + 6) ++ m (a + 5) ++ m (a + 4) ++ m (a + 3) ++ m (a + 2) ++ m (a + 1) ++ m a

/-- The `k`-th byte of a word, counted from the least significant one. -/
def byteOf (v : Word) (k : ℕ) : BitVec 8 := v.extractLsb' (8 * k) 8

/-- Write the eight bytes of `v` at `a, …, a + 7`. -/
def store (m : Memory) (a v : Word) : Memory := fun b =>
  if (b - a).toNat < 8 then byteOf v (b - a).toNat else m b

/-- The words at `a` and `b` share no byte. -/
def Apart (a b : Word) : Prop := 8 ≤ (a - b).toNat ∧ 8 ≤ (b - a).toNat

instance (a b : Word) : Decidable (Apart a b) := inferInstanceAs (Decidable (_ ∧ _))

theorem Apart.symm {a b : Word} (h : Apart a b) : Apart b a := ⟨h.2, h.1⟩

/-- The bytes of a word, put back together. -/
theorem bytes_append (v : Word) :
    byteOf v 7 ++ byteOf v 6 ++ byteOf v 5 ++ byteOf v 4 ++ byteOf v 3 ++ byteOf v 2 ++
      byteOf v 1 ++ byteOf v 0 = v := by
  apply BitVec.eq_of_getLsbD_eq
  intro i hi
  simp only [byteOf, BitVec.getLsbD_append, BitVec.getLsbD_extractLsb']
  grind

/-- A word is determined by its eight bytes. -/
theorem load_congr {m m' : Memory} {a : Word} (h : ∀ k < 8, m (a + BitVec.ofNat 64 k) = m' (a + BitVec.ofNat 64 k)) :
    load m a = load m' a := by
  have h0 := h 0 (by omega)
  rw [show a + BitVec.ofNat 64 0 = a by simp] at h0
  unfold load
  rw [h0, show m (a + 1) = m' (a + 1) from h 1 (by omega),
    show m (a + 2) = m' (a + 2) from h 2 (by omega), show m (a + 3) = m' (a + 3) from h 3 (by omega),
    show m (a + 4) = m' (a + 4) from h 4 (by omega), show m (a + 5) = m' (a + 5) from h 5 (by omega),
    show m (a + 6) = m' (a + 6) from h 6 (by omega), show m (a + 7) = m' (a + 7) from h 7 (by omega)]

theorem store_add (m : Memory) (a v : Word) {k : ℕ} (hk : k < 8) :
    store m a v (a + BitVec.ofNat 64 k) = byteOf v k := by
  have hd : (a + BitVec.ofNat 64 k - a).toNat = k := by
    rw [BitVec.add_comm, BitVec.add_sub_cancel, BitVec.toNat_ofNat]
    omega
  simp only [store, hd, hk, if_true]

/-- A store is read back. -/
@[simp] theorem load_store_self (m : Memory) (a v : Word) : load (store m a v) a = v := by
  have h0 := store_add m a v (k := 0) (by omega)
  rw [show a + BitVec.ofNat 64 0 = a by simp] at h0
  unfold load
  rw [h0, show store m a v (a + 1) = _ from store_add m a v (k := 1) (by omega),
    show store m a v (a + 2) = _ from store_add m a v (k := 2) (by omega),
    show store m a v (a + 3) = _ from store_add m a v (k := 3) (by omega),
    show store m a v (a + 4) = _ from store_add m a v (k := 4) (by omega),
    show store m a v (a + 5) = _ from store_add m a v (k := 5) (by omega),
    show store m a v (a + 6) = _ from store_add m a v (k := 6) (by omega),
    show store m a v (a + 7) = _ from store_add m a v (k := 7) (by omega)]
  exact bytes_append v

/-- A byte outside the stored word is unchanged. -/
theorem store_of_le {m : Memory} {a v b : Word} (h : 8 ≤ (b - a).toNat) : store m a v b = m b := by
  simp only [store, if_neg (Nat.not_lt.mpr h)]

/-- A word apart from the stored one is unchanged. -/
theorem load_store_of_apart {m : Memory} {a b : Word} (v : Word) (h : Apart a b) :
    load (store m a v) b = load m b := by
  obtain ⟨h₁, h₂⟩ := h
  apply load_congr
  intro k hk
  apply store_of_le
  bv_omega

/-- Two words at the same base are apart when their offsets are eight or more apart. -/
theorem apart_add {a x y : Word} (h : Apart x y) : Apart (a + x) (a + y) := by
  obtain ⟨h₁, h₂⟩ := h
  constructor <;> bv_omega

/-! ### Bytes of words -/

/-- A byte of the word at an address. -/
theorem byteOf_load (m : Memory) (a : Word) {k : ℕ} (hk : k < 8) :
    byteOf (load m a) k = m (a + BitVec.ofNat 64 k) := by
  have h0 : m (a + BitVec.ofNat 64 0) = m a := by simp
  apply BitVec.eq_of_getLsbD_eq
  intro i hi
  interval_cases k <;>
    simp only [byteOf, load, BitVec.getLsbD_append, BitVec.getLsbD_extractLsb'] <;> grind

theorem eq_of_bytes {v w : Word} (h : ∀ k < 8, byteOf v k = byteOf w k) : v = w := by
  rw [← bytes_append v, ← bytes_append w]
  simp only [h 0 (by omega), h 1 (by omega), h 2 (by omega), h 3 (by omega), h 4 (by omega),
    h 5 (by omega), h 6 (by omega), h 7 (by omega)]

@[simp] theorem load_zero (a : Word) : load (fun _ => 0) a = 0 := by
  simp only [load]
  decide

/-- Storing the word that is there already. -/
@[simp] theorem store_load (m : Memory) (a : Word) : store m a (load m a) = m := by
  funext b
  by_cases h : (b - a).toNat < 8
  · rw [store, if_pos h, byteOf_load _ _ h, BitVec.ofNat_toNat, BitVec.setWidth_eq]
    congr 1
    bv_omega
  · exact store_of_le (Nat.not_lt.1 h)

/-- The memory that has the words from the address zero on. -/
def ofWords (ws : List Word) : Memory := fun a =>
  byteOf (ws.getD (a.toNat / 8) 0) (a.toNat % 8)

/-- A word that begins inside consecutive words is made of their bytes. -/
theorem load_eq_ofWords {m : Memory} {a : Word} {ws : List Word} {n b : ℕ} (hn : n < 2 ^ 60)
    (h : ∀ j < n, load m (a + BitVec.ofNat 64 (8 * j)) = ws.getD j 0) (hb : b + 8 ≤ 8 * n) :
    load m (a + BitVec.ofNat 64 b) = load (ofWords ws) (BitVec.ofNat 64 b) := by
  refine eq_of_bytes fun k hk => ?_
  have hword := byteOf_load m (a + BitVec.ofNat 64 (8 * ((b + k) / 8))) (k := (b + k) % 8)
    (Nat.mod_lt _ (by omega))
  have hsum : a + BitVec.ofNat 64 b + BitVec.ofNat 64 k =
      a + BitVec.ofNat 64 (8 * ((b + k) / 8)) + BitVec.ofNat 64 ((b + k) % 8) := by
    rw [BitVec.add_assoc, BitVec.add_assoc, ← BitVec.ofNat_add, ← BitVec.ofNat_add,
      Nat.div_add_mod]
  have hnat : (BitVec.ofNat 64 b + BitVec.ofNat 64 k).toNat = b + k := by
    rw [← BitVec.ofNat_add, BitVec.toNat_ofNat]
    omega
  rw [byteOf_load _ _ hk, byteOf_load _ _ hk, hsum, ← hword, h _ (by omega), ofWords, hnat]

end ByteMemory
