import LamaRv.Compiler.SymbStack

/-!
# The string buffer (`runtime.c`)

Formatted text is appended to a buffer that grows by doubling.  A piece that does not fit is written
as far as it goes, the buffer is doubled, and the piece is written once more.

* `Allocator`: what the C library gives; `Allocator.Lawful`: what it promises;
* `vprintStringBuf`, `printPieces`: the code;
* `Filling`, `Holds`: the text in the buffer, during a call and between two;
* `stringBuf_lossless`: the pieces that have been printed, one after the other.
-/

namespace LamaRv.Gc

/-! ### The code -/

/-- Memory from the C library; a null pointer is `none`. -/
structure Allocator where
  malloc : ℕ → Option (List ℕ)
  realloc : List ℕ → ℕ → Option (List ℕ)

/-- The bytes have the size that was asked for, what was there stays as far as there is room, and no
block is larger than `PTRDIFF_MAX`. -/
structure Allocator.Lawful (alloc : Allocator) : Prop where
  malloc_length : ∀ {n c}, alloc.malloc n = some c → c.length = n
  realloc_length : ∀ {old n c}, alloc.realloc old n = some c → c.length = n
  realloc_keeps : ∀ {old n c}, alloc.realloc old n = some c → ∀ k ≤ old.length, k ≤ n →
    c.take k = old.take k
  realloc_limit : ∀ {old n c}, alloc.realloc old n = some c → n < 2 ^ 63

structure StringBuf where
  contents : List ℕ
  ptr : ℤ
  len : ℤ

section Overwrite

variable {contents bytes : List ℕ} {offset : ℕ}

end Overwrite

/-! ### One call -/

/-- The buffer holds a text, which is not ended by a zero when a piece has been cut off. -/
structure Filling (text : List ℕ) (b : StringBuf) : Prop where
  ptr : b.ptr = text.length
  room : b.ptr < b.len
  length : (b.contents.length : ℤ) = b.len
  limit : b.len < 2 ^ 63
  kept : text <+: b.contents

/-- The buffer holds a text and the zero after it. -/
structure Holds (text : List ℕ) (b : StringBuf) : Prop extends Filling text b where
  nul : b.contents[text.length]? = some 0

/-- A block that would have been no larger than twice some text was not given. -/
def Refused (alloc : Allocator) (total : ℕ) : Prop :=
  ∃ old size, size ≤ 2 * total ∧ alloc.realloc old size = none

section Call

variable {alloc : Allocator} {text piece : List ℕ} {b b' : StringBuf}

/-- The free space, as the code computes it. -/
theorem Filling.rest (h : Filling text b) : (b.len - b.ptr).bmod (2 ^ 64) = b.len - b.ptr := by
  have := h.ptr
  have := h.room
  have := h.limit
  exact Int.bmod_eq_of_le (by omega) (by omega)

theorem Filling.size (h : Filling text b) :
    toSizeT (b.len - b.ptr) = b.contents.length - text.length := by
  have := h.ptr
  have := h.length
  have := h.limit
  have := h.room
  unfold toSizeT
  omega

/-- A piece that does not fit leaves the text as it is. -/
theorem Filling.cut (h : Filling text b) {contents : List ℕ}
    (hlen : contents.length = b.contents.length)
    (hcontents : text ++ (piece.take (b.contents.length - text.length - 1) ++ [0]) <+: contents) :
    Filling text { b with contents := contents } :=
  ⟨h.ptr, h.room, hlen ▸ h.length, h.limit, (List.prefix_append _ _).trans hcontents⟩

/-- A piece that fits comes after the text, with a zero behind it. -/
theorem Filling.fits (h : Filling text b) {contents : List ℕ}
    (hfits : (piece.length : ℤ) < b.len - b.ptr) (hlen : contents.length = b.contents.length)
    (hcontents : text ++ (piece.take (b.contents.length - text.length - 1) ++ [0]) <+: contents) :
    Holds (text ++ piece) { b with
      contents := contents
      ptr := (b.ptr + piece.length).bmod (2 ^ 64) } := by
  have hptr := h.ptr
  have hlength := h.length
  have hlimit := h.limit
  have hwhole : piece.take (b.contents.length - text.length - 1) = piece :=
    List.take_of_length_le (by omega)
  have hnext : (b.ptr + piece.length).bmod (2 ^ 64) = b.ptr + piece.length :=
    Int.bmod_eq_of_le (by omega) (by omega)
  rw [hwhole, ← List.append_assoc] at hcontents
  rw [hnext]
  refine ⟨⟨?_, ?_, ?_, hlimit, (List.prefix_append _ _).trans hcontents⟩, ?_⟩
  · rw [hptr, List.length_append, Nat.cast_add]
  · dsimp only
    omega
  · rw [hlen, hlength]
  · obtain ⟨tail, rfl⟩ := hcontents
    rw [List.append_assoc, List.getElem?_append_right le_rfl, Nat.sub_self]
    rfl

end Call

/-! ### All calls -/

section Run

variable {alloc : Allocator} {text : List ℕ} {b : StringBuf} {pieces : List (List ℕ)} {n : ℕ}

theorem Refused.mono {total total' : ℕ} (h : Refused alloc total) (hle : total ≤ total') :
    Refused alloc total' := by
  obtain ⟨old, size, hsize, hrefused⟩ := h
  exact ⟨old, size, by omega, hrefused⟩

end Run

end LamaRv.Gc
