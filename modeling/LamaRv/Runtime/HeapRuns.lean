import LamaRv.Runtime.AddressSpace
import LamaRv.Runtime.Graph

/-!
# Runs of the allocator (`gc.c`)

From `__init` on, objects of all kinds are allocated, words are written into them, and the rest of
memory changes in any way.  Where there is no room, a collection moves the objects that are live.

* `allocOf`: the four functions that allocate;
* `Reachable`: the states of such runs, with the objects that have been allocated or kept;
* `Parsed`: the objects follow one another up to the end of the heap, and their fields hold values;
* `Block`: what an allocation returns;
* `Reachable.parsed`, `heap_runs`: every state is such, and every allocation returns such a block.
-/

namespace LamaRv.Gc

open Marking

/-! ### Runs -/

/-- `alloc_array`, `alloc_closure`, `alloc_string` and `alloc_sexp`. -/
def allocOf : LamaType → (ℕ → Option ℕ) → State → ℕ → Option (State × ℕ)
  | .array => allocArray
  | .closure => allocClosure
  | .string => allocString
  | .sexp => allocSexp

/-- A value: an integer, or a pointer to the contents of an object. -/
def IsValue (os : List ℕ) (v : ℕ) : Prop := unboxed v = true ∨ ∃ o ∈ os, v = o + 16

/-- Neither the length in the header nor the size overflows. -/
structure Sized (t : LamaType) (n : ℕ) : Prop where
  length : 8 * n < 2 ^ 64
  bytes : t.bytes n < 2 ^ 64

/-- The words of the roots lie outside the heap, and what looks like a pointer in one of them points to
the contents of an object. -/
structure ValidRoots (s : State) (os : List ℕ) : Prop where
  outside : ∀ a ∈ rootWords s, a < s.heap.begin ∨ s.heap.current ≤ a
  pointers : ∀ a ∈ rootWords s, isValidHeapPointer s.heap (s.mem a) = true → ∃ o ∈ os, s.mem a = o + 16
  rooted : Rooted s

/-- There is room for some words, or a collection can be made for them. -/
def Serves (mmap : ℕ → Option ℕ) (s : State) (os : List ℕ) (size : ℕ) : Prop :=
  s.heap.current + 8 * size ≤ s.heap.endPtr ∨
    ValidRoots s os ∧ Roomy s os size ∧
      ∀ n begin, mmap (8 * n) = some begin → 0 < begin ∧ Fresh s begin n

open Classical in
/-- The objects that the roots reach. -/
noncomputable def liveObjects (s : State) (os : List ℕ) : List ℕ := os.filter (Live s ·)

/-- Where the objects are after an allocation of some words, in the state `s'`. -/
noncomputable def keptObjects (s s' : State) (os : List ℕ) (size : ℕ) : List ℕ :=
  if s.heap.current + 8 * size ≤ s.heap.endPtr then os
  else (liveObjects s os).map (newPlace s s' (liveObjects s os))

/-- The states of runs from `__init` on, and the objects in the heap.  The kernel may choose its places
anew for each allocation. -/
inductive Reachable : State → List ℕ → Prop
  | init {k : Kernel} {s : State} {p : Process} : init k s = some p →
      p.state.heap.begin % 8 = 0 → 0 < p.state.heap.begin → Reachable p.state []
  | program {s s' : State} {os : List ℕ} : Reachable s os → s'.heap = s.heap →
      (∀ a, s.heap.begin ≤ a → a < s.heap.current → s'.mem a = s.mem a) → Reachable s' os
  | write {s : State} {os : List ℕ} {o j v : ℕ} : Reachable s os → o ∈ os → 2 ≤ j →
      j < objWords s.mem o → (o + 8 * j ∈ fields s.mem o → IsValue os v) →
      Reachable { s with mem := s.mem.set (o + 8 * j) v } os
  | allocate {mmap : ℕ → Option ℕ} {s s' : State} {os : List ℕ} {t : LamaType} {n p : ℕ} :
      Reachable s os → Sized t n → Serves mmap s os (words (t.bytes n)) →
      allocOf t mmap s n = some (s', p) →
      Reachable s' (keptObjects s s' os (words (t.bytes n)) ++ [p])

/-! ### What holds in all states -/

/-- The objects follow one another up to the end of the heap, and their fields hold values or have not
been written. -/
structure Parsed (s : State) (os : List ℕ) : Prop where
  begin_pos : 0 < s.heap.begin
  aligned : s.heap.begin % 8 = 0
  chunk : s.heap.endPtr = s.heap.begin + 8 * s.heap.size
  inside : s.heap.current ≤ s.heap.endPtr
  objects : Objects s.mem s.heap.begin os s.heap.current
  values : ∀ o ∈ os, ∀ f ∈ fields s.mem o, s.mem f = 0 ∨ IsValue os (s.mem f)
  unmarked : ∀ o ∈ os, isMarked s.mem (o + 16) = false
  dequeued : ∀ o ∈ os, isEnqueued s.mem (o + 16) = false

/-- A block in the heap, apart from the other objects, with a header for some kind and length and
nothing but zeros behind it. -/
structure Block (s : State) (os : List ℕ) (t : LamaType) (n p : ℕ) : Prop where
  aligned : p % 8 = 0
  begin_le : s.heap.begin ≤ p
  le_end : p + 8 * words (t.bytes n) ≤ s.heap.endPtr
  apart : ∀ o ∈ os, o ≠ p → o + 8 * objWords s.mem o ≤ p ∨ p + 8 * words (t.bytes n) ≤ o
  kind : getTypeHeaderPtr s.mem p = some t
  length : len (s.mem p) = n
  zero : ∀ a, p + 16 ≤ a → a < p + 8 * words (t.bytes n) → s.mem a = 0

section Parsed

variable {s s' s₁ : State} {os kept : List ℕ} {t : LamaType} {n p size additionalSize v : ℕ}

theorem IsValue.mono {os' : List ℕ} (h : IsValue os v) (hsub : os ⊆ os') : IsValue os' v :=
  h.imp_right fun ⟨o, ho, heq⟩ => ⟨o, hsub ho, heq⟩

/-- What looks like a pointer is one. -/
theorem Parsed.pointer (h : Parsed s os) (hv : v = 0 ∨ IsValue os v)
    (hvalid : isValidHeapPointer s.heap v = true) : ∃ o ∈ os, v = o + 16 := by
  have hbegin := h.begin_pos
  rw [isValidHeapPointer, Bool.and_eq_true, Bool.and_eq_true, decide_eq_true_eq] at hvalid
  rcases hv with rfl | hodd | hptr
  · omega
  · rw [hodd] at hvalid
    exact absurd hvalid.1.1 (by decide)
  · exact hptr

theorem Parsed.formed (h : Parsed s os) : Formed s.heap s.mem os := by
  refine ⟨h.objects, h.aligned, ?_, fun o ho f hf hvalid => h.pointer (h.values o ho f hf) hvalid⟩
  rw [← h.chunk]
  exact h.inside

theorem Parsed.collectable (h : Parsed s os) (hroots : ValidRoots s os) : Collectable s os :=
  ⟨h.formed, h.unmarked, h.dequeued, hroots.outside, hroots.pointers⟩

/-- The fields of an object are among its words. -/
theorem Parsed.field_word (h : Parsed s os) {o f : ℕ} (ho : o ∈ os) (hf : f ∈ fields s.mem o) :
    ∃ j, 2 ≤ j ∧ j < objWords s.mem o ∧ f = o + 8 * j := by
  have hs := h.objects.sound o ho
  have halign := (h.objects.aligned h.aligned).1 o ho
  have hfield := hs.field_aligned halign f hf
  obtain ⟨hlow, hhigh⟩ := hs.field_bounds f hf
  have := hs.bytes_le_words
  exact ⟨(f - o) / 8, by omega, by omega, by omega⟩

/-- Headers, words of the collector and fields are all that matters. -/
theorem Parsed.congr (h : Parsed s os) (hheap : s'.heap = s.heap)
    (hheader : ∀ o ∈ os, s'.mem o = s.mem o ∧ s'.mem (o + 8) = s.mem (o + 8))
    (hvalues : ∀ o ∈ os, ∀ f ∈ fields s.mem o, s'.mem f = 0 ∨ IsValue os (s'.mem f)) :
    Parsed s' os where
  begin_pos := hheap ▸ h.begin_pos
  aligned := hheap ▸ h.aligned
  chunk := hheap ▸ h.chunk
  inside := hheap ▸ h.inside
  objects := by
    rw [hheap]
    exact h.objects.congr fun o ho => (hheader o ho).1
  values o ho f hf := by
    rw [fields_congr (hheader o ho).1] at hf
    exact hvalues o ho f hf
  unmarked o ho := by
    rw [isMarked, forwardWord_content, (hheader o ho).2, ← forwardWord_content]
    exact h.unmarked o ho
  dequeued o ho := by
    rw [isEnqueued, forwardWord_content, (hheader o ho).2, ← forwardWord_content]
    exact h.dequeued o ho

/-- The program does something else. -/
theorem Parsed.program (h : Parsed s os) (hheap : s'.heap = s.heap)
    (hmem : ∀ a, s.heap.begin ≤ a → a < s.heap.current → s'.mem a = s.mem a) : Parsed s' os := by
  refine h.congr hheap (fun o ho => ?_) fun o ho f hf => ?_
  · have := h.objects.bounds o ho
    have := (h.objects.sound o ho).two_le_words
    exact ⟨hmem o (by omega) (by omega), hmem (o + 8) (by omega) (by omega)⟩
  · have := h.objects.bounds o ho
    obtain ⟨j, hlow, hhigh, rfl⟩ := h.field_word ho hf
    rw [hmem _ (by omega) (by omega)]
    exact h.values o ho _ hf

/-- A value is written into an object. -/
theorem Parsed.write (h : Parsed s os) {o j : ℕ} (ho : o ∈ os) (hlow : 2 ≤ j)
    (hhigh : j < objWords s.mem o) (hv : o + 8 * j ∈ fields s.mem o → IsValue os v) :
    Parsed { s with mem := s.mem.set (o + 8 * j) v } os := by
  have howner : ∀ o' ∈ os, ∀ i < objWords s.mem o', o' + 8 * i = o + 8 * j → o' = o := by
    intro o' ho' i hi heq
    exact h.objects.owner_unique ho' ho (x := o + 8 * j) ⟨by omega, by omega⟩ ⟨by omega, by omega⟩
  refine h.congr rfl (fun o' ho' => ?_) fun o' ho' f hf => ?_
  · have htwo := (h.objects.sound o' ho').two_le_words
    refine ⟨Mem.set_of_ne _ _ fun heq => ?_, Mem.set_of_ne _ _ fun heq => ?_⟩
    · have := howner o' ho' 0 (by omega) heq
      omega
    · have := howner o' ho' 1 (by omega) heq
      omega
  · obtain ⟨i, -, hi, rfl⟩ := h.field_word ho' hf
    by_cases heq : o' + 8 * i = o + 8 * j
    · obtain rfl := howner o' ho' i hi heq
      rw [heq] at hf ⊢
      exact .inr (by simpa using hv hf)
    · dsimp only
      rw [Mem.set_of_ne _ _ heq]
      exact h.values o' ho' _ hf

/-- There is one more object, with nothing but zeros behind its header. -/
theorem Parsed.grown (h : Parsed s os) (hn : t.bytes n < 2 ^ 64) (hg : Grown s t n s')
    (hzero : ∀ a, s.heap.current + 16 ≤ a → a < s'.heap.current → s'.mem a = 0) :
    Parsed s' (os ++ [s.heap.current]) := by
  have hheap : s'.heap = { s.heap with current := s.heap.current + 8 * words (t.bytes n) } :=
    congrArg State.heap hg.rest
  have hobjects := hg.objects h.objects hn
  have hsame : ∀ o ∈ os, ∀ k, k < 8 * objWords s.mem o → s'.mem (o + k) = s.mem (o + k) := by
    intro o ho k hk
    have := h.objects.bounds o ho
    exact hg.frame _ (.inl (by omega))
  have hold : ∀ o ∈ os, s'.mem o = s.mem o ∧ s'.mem (o + 8) = s.mem (o + 8) := by
    intro o ho
    have := (h.objects.sound o ho).two_le_words
    exact ⟨hsame o ho 0 (by omega), hsame o ho 8 (by omega)⟩
  have hnew := hobjects.sound s.heap.current (List.mem_append_right os (List.mem_singleton_self _))
  have hwords := hobjects.bounds s.heap.current (List.mem_append_right os (List.mem_singleton_self _))
  refine
    { begin_pos := by
        rw [hheap]
        exact h.begin_pos
      aligned := by
        rw [hheap]
        exact h.aligned
      chunk := by
        rw [hheap]
        exact h.chunk
      inside := hg.room
      objects := hobjects
      values := fun o ho f hf => ?_
      unmarked := fun o ho => ?_
      dequeued := fun o ho => ?_ }
  · rcases List.mem_append.1 ho with ho | ho
    · rw [fields_congr (hold o ho).1] at hf
      obtain ⟨j, -, hj, rfl⟩ := h.field_word ho hf
      rw [hsame o ho _ (by omega)]
      exact (h.values o ho _ hf).imp_right (IsValue.mono · (List.subset_append_left _ _))
    · obtain rfl := List.mem_singleton.1 ho
      have := hnew.field_bounds f hf
      have := hnew.bytes_le_words
      exact .inl (hzero f (by omega) (by omega))
  · rw [isMarked, forwardWord_content]
    rcases List.mem_append.1 ho with ho | ho
    · rw [(hold o ho).2, ← forwardWord_content]
      exact h.unmarked o ho
    · rw [List.mem_singleton.1 ho, hg.collector]
      rfl
  · rw [isEnqueued, forwardWord_content]
    rcases List.mem_append.1 ho with ho | ho
    · rw [(hold o ho).2, ← forwardWord_content]
      exact h.dequeued o ho
    · rw [List.mem_singleton.1 ho, hg.collector]
      rfl

/-- Where a value points after a collection. -/
theorem IsValue.image (h : Parsed s os) (hv : IsValue os v) {place : ℕ → ℕ}
    (hkept : isValidHeapPointer s.heap v = true → v - 16 ∈ kept) :
    IsValue (kept.map place) (image s.heap place v) := by
  rcases hv with hodd | ⟨o, ho, rfl⟩
  · rw [image_of_not_valid]
    · exact .inl hodd
    · simp [isValidHeapPointer, hodd]
  · have halign := (h.objects.aligned h.aligned).1 o ho
    have hvalid : isValidHeapPointer s.heap (o + 16) = true := by
      refine h.objects.valid_of_mem ho ?_
      rw [← Bool.not_eq_true, unboxed_iff]
      omega
    have hmem := hkept hvalid
    rw [Nat.add_sub_cancel] at hmem
    rw [image_of_valid hvalid, Nat.add_sub_cancel]
    exact .inr ⟨place o, List.mem_map_of_mem hmem, rfl⟩

/-- After a collection. -/
theorem Parsed.collected (h : Parsed s os) (hc : Collected s os kept additionalSize s')
    (hbegin : 0 < s'.heap.begin) : Parsed s' (kept.map (newPlace s s' kept)) where
  begin_pos := hbegin
  aligned := hc.fresh.aligned
  chunk := hc.chunk
  inside := by
    have := hc.fits
    omega
  objects := hc.objects
  values o' ho' f' hf' := by
    obtain ⟨o, ho, rfl⟩ := List.mem_map.1 ho'
    rw [fields_place (hc.header o ho)] at hf'
    obtain ⟨f, hf, rfl⟩ := List.mem_map.1 hf'
    have hos := hc.sublist.subset ho
    obtain ⟨hlow, hhigh⟩ := (h.objects.sound o hos).field_bounds f hf
    obtain ⟨k, rfl⟩ := Nat.exists_eq_add_of_le (show o ≤ f by omega)
    rw [Nat.add_sub_cancel_left, hc.content o ho k (by omega) (by omega), if_pos hf]
    rcases h.values o hos _ hf with hzero | hv
    · have hinvalid : isValidHeapPointer s.heap 0 ≠ true := by
        have := h.begin_pos
        simp [isValidHeapPointer]
        omega
      refine .inl ?_
      rw [hzero]
      exact if_neg hinvalid
    · refine .inr (IsValue.image h hv fun hvalid => ?_)
      exact hc.closed o ho _ (List.mem_filterMap.2 ⟨_, hf, if_pos hvalid⟩)
  unmarked o' ho' := by
    obtain ⟨o, ho, rfl⟩ := List.mem_map.1 ho'
    exact hc.unmarked o ho
  dequeued o' ho' := by
    obtain ⟨o, ho, rfl⟩ := List.mem_map.1 ho'
    exact hc.dequeued o ho

/-- The new object is a block. -/
theorem Parsed.block (h : Parsed s' (os ++ [s.heap.current]))
    (hg : Grown s t n s') (hzero : ∀ a, s.heap.current + 16 ≤ a → a < s'.heap.current → s'.mem a = 0) :
    Block s' (os ++ [s.heap.current]) t n s.heap.current := by
  have hmem : s.heap.current ∈ os ++ [s.heap.current] := List.mem_append_right os (List.mem_singleton_self _)
  have hcurrent := hg.current
  have hwords : objWords s'.mem s.heap.current = words (t.bytes n) := by
    rw [objWords, objBytes_of_header hg.header]
  refine
    { aligned := (h.objects.aligned h.aligned).1 _ hmem
      begin_le := (h.objects.bounds _ hmem).1
      le_end := hcurrent ▸ h.inside
      apart := fun o ho hne => .inl ?_
      kind := getTypeHeaderPtr_of_header hg.header
      length := by rw [hg.header, len_header t.tag_lt]
      zero := fun a hlow hhigh => hzero a hlow (hcurrent ▸ hhigh) }
  have hpairwise := (List.pairwise_append.1 h.objects.pairwise).2.2
  rcases List.mem_append.1 ho with ho | ho
  · exact hpairwise o ho _ (List.mem_singleton_self _)
  · exact absurd (List.mem_singleton.1 ho) hne

end Parsed

/-! ### Allocations -/

section Alloc

variable {mmap : ℕ → Option ℕ} {s s₁ s' : State} {os kept : List ℕ} {t : LamaType} {n p : ℕ}

theorem LamaType.bytes_pos (t : LamaType) (n : ℕ) : 0 < t.bytes n := by
  have := t.le_bytes n
  omega

/-- The header of the new object is written, and the tag of an s-expression. -/
theorem allocOf_of_alloc (hn : Sized t n)
    (hroom : s₁.heap.current + 8 * words (t.bytes n) ≤ s₁.heap.endPtr)
    (halloc : alloc mmap s (t.bytes n) = some (s₁.bump (words (t.bytes n)), s₁.heap.current)) :
    ∃ s', allocOf t mmap s n = some (s', s₁.heap.current) ∧ Grown s₁ t n s' ∧
      ∀ a, s₁.heap.current + 16 ≤ a → a < s'.heap.current → s'.mem a = 0 := by
  obtain ⟨s', hobject, hgrown, hzero⟩ := allocObject_of_alloc hn.length hn.bytes hroom halloc
  cases t with
  | array => exact ⟨s', hobject, hgrown, hzero⟩
  | closure => exact ⟨s', hobject, hgrown, hzero⟩
  | string => exact ⟨s', hobject, hgrown, hzero⟩
  | sexp =>
    have hcurrent := hgrown.current
    have hwords : 3 ≤ words (LamaType.bytes .sexp n) := by
      simp only [words, LamaType.bytes]
      omega
    refine ⟨{ s' with mem := s'.mem.set (s₁.heap.current + 16) 0 }, ?_, hgrown.write fun a ha => ?_,
      fun a hlow hhigh => ?_⟩
    · simp only [allocOf, allocSexp, hobject, Option.bind_eq_bind, Option.bind_some, Option.pure_def]
    · exact Mem.set_of_ne _ _ (by omega)
    · dsimp only at hhigh ⊢
      by_cases heq : a = s₁.heap.current + 16
      · rw [heq, Mem.set_self]
      · rw [Mem.set_of_ne _ _ heq, hzero a hlow hhigh]

theorem allocOf_of_alloc_none (hn : Sized t n) (halloc : alloc mmap s (t.bytes n) = none) :
    allocOf t mmap s n = none := by
  have hobject : allocObject t mmap s n = none := by
    simp only [allocObject, LamaType.size_eq hn.bytes, halloc, Option.bind_eq_bind, Option.bind_none]
  cases t with
  | array => exact hobject
  | closure => exact hobject
  | string => exact hobject
  | sexp => simp only [allocOf, allocSexp, hobject, Option.bind_eq_bind, Option.bind_none]

/-- A collection keeps the objects that are live. -/
theorem Collected.kept_eq {size : ℕ} (hc : Collected s os kept size s₁) (h : Parsed s os) :
    kept = liveObjects s os := by
  classical
  have hsorted := h.objects.sorted
  refine List.Pairwise.eq_of_mem_iff (hsorted.sublist hc.sublist)
    (hsorted.sublist List.filter_sublist) fun o => ?_
  rw [hc.live, liveObjects, List.mem_filter, decide_eq_true_eq]
  exact ⟨fun hlive => ⟨hc.sublist.subset ((hc.live o).2 hlive), hlive⟩, fun hlive => hlive.2⟩

/-- Where the objects are does not depend on what is put behind them. -/
theorem keptObjects_of_grown {size : ℕ} (hfull : s.heap.endPtr < s.heap.current + 8 * size)
    (hg : Grown s₁ t n s') : keptObjects s s' os size =
      (liveObjects s os).map (newPlace s s₁ (liveObjects s os)) := by
  have hbegin : s'.heap.begin = s₁.heap.begin := by rw [hg.rest]
  rw [keptObjects, if_neg (not_le.2 hfull)]
  refine List.map_congr_left fun o _ => ?_
  rw [newPlace, newPlace, hbegin]

/-- **An allocation** of some kind and length. -/
theorem Parsed.alloc (h : Parsed s os) (hn : Sized t n) (hserves : Serves mmap s os (words (t.bytes n))) :
    (∃ k, mmap (8 * k) = none ∧ allocOf t mmap s n = none) ∨
      ∃ s' p, allocOf t mmap s n = some (s', p) ∧
        Parsed s' (keptObjects s s' os (words (t.bytes n)) ++ [p]) ∧
        Block s' (keptObjects s s' os (words (t.bytes n)) ++ [p]) t n p := by
  by_cases hfits : s.heap.current + 8 * words (t.bytes n) ≤ s.heap.endPtr
  · obtain ⟨s', halloc, hg, hzero⟩ :=
      @allocOf_of_alloc mmap _ _ _ _ hn hfits (alloc_of_room (t.bytes_pos n) hn.bytes hfits)
    have hparsed := h.grown hn.bytes hg hzero
    refine .inr ⟨s', _, halloc, ?_⟩
    rw [keptObjects, if_pos hfits]
    exact ⟨hparsed, hparsed.block hg hzero⟩
  · obtain ⟨hroots, hroomy, hmmap⟩ := hserves.resolve_left hfits
    have hfull := not_le.1 hfits
    rcases collect_spec (h.collectable hroots) hroots.rooted hroomy fun n begin hbegin =>
      (hmmap n begin hbegin).2 with ⟨k, hnone, hcollect⟩ | ⟨kept, s₁, hcollect, hbegin, hc⟩
    · refine .inl ⟨k, hnone, allocOf_of_alloc_none hn ?_⟩
      have hexisting : gcAllocOnExistingHeap s (words (t.bytes n)) = none := if_neg hfits
      simp only [Gc.alloc, bytesToWords_eq (t.bytes_pos n) hn.bytes, hexisting, gcAlloc, hcollect,
        Option.bind_eq_bind, Option.bind_none]
    · obtain ⟨s', halloc, hg, hzero⟩ :=
        allocOf_of_alloc hn hc.fits (alloc_of_collect (t.bytes_pos n) hn.bytes hfull hcollect hc.fits)
      have hparsed := (h.collected hc (hmmap _ _ hbegin).1).grown hn.bytes hg hzero
      refine .inr ⟨s', _, halloc, ?_⟩
      rw [keptObjects_of_grown hfull hg, ← hc.kept_eq h]
      exact ⟨hparsed, hparsed.block hg hzero⟩

/-- `gc_alloc` does not return `NULL`: after the collection there is room. -/
theorem Parsed.retry {size : ℕ} (h : Parsed s os) (hserves : Serves mmap s os size)
    (hfull : s.heap.endPtr < s.heap.current + 8 * size) (hcollect : collect mmap s size = some s₁) :
    (gcAllocOnExistingHeap s₁ size).isSome := by
  obtain ⟨hroots, hroomy, hmmap⟩ := hserves.resolve_left (not_le.2 hfull)
  rcases collect_spec (h.collectable hroots) hroots.rooted hroomy fun n begin hbegin =>
    (hmmap n begin hbegin).2 with ⟨k, -, hnone⟩ | ⟨kept, s₂, hcollect', -, hc⟩
  · rw [hcollect] at hnone
    cases hnone
  · obtain rfl := Option.some.inj (hcollect.symm.trans hcollect')
    rw [gcAllocOnExistingHeap_eq hc.fits]
    rfl

end Alloc

/-! ### All runs -/

section Reachable

variable {s : State} {os : List ℕ}

/-- The heap after `__init`. -/
theorem Parsed.init {k : Kernel} {p : Process} (h : init k s = some p)
    (halign : p.state.heap.begin % 8 = 0) (hbegin : 0 < p.state.heap.begin) : Parsed p.state [] := by
  obtain ⟨begin, -, h⟩ := Option.bind_eq_some_iff.1 h
  cases h
  exact
    { begin_pos := hbegin
      aligned := halign
      chunk := rfl
      inside := Nat.le_add_right _ _
      objects := .nil _
      values := fun o ho => by cases ho
      unmarked := fun o ho => by cases ho
      dequeued := fun o ho => by cases ho }

theorem Reachable.parsed (h : Reachable s os) : Parsed s os := by
  induction h with
  | init hinit halign hbegin => exact .init hinit halign hbegin
  | program _ hheap hmem ih => exact ih.program hheap hmem
  | write _ ho hlow hhigh hv ih => exact ih.write ho hlow hhigh hv
  | allocate _ hn hserves halloc ih =>
    rcases ih.alloc hn hserves with ⟨k, -, hnone⟩ | ⟨s', p, hsome, hparsed, -⟩
    · rw [hnone] at halloc
      cases halloc
    · rw [hsome] at halloc
      cases halloc
      exact hparsed

/-- **The heap in runs of the allocator.**  It can be walked through, and an allocation for which there
is room, or for which a collection can be made, returns a new block, unless there is no memory for the
new heap. -/
theorem heap_runs (h : Reachable s os) :
    (s.heap.begin ≤ s.heap.current ∧ s.heap.current ≤ s.heap.endPtr ∧
      s.heap.endPtr = s.heap.begin + 8 * s.heap.size) ∧
    Walk s.mem s.heap.begin os s.heap.current ∧
    ∀ mmap t n, Sized t n → Serves mmap s os (words (t.bytes n)) →
      (s.heap.endPtr < s.heap.current + 8 * words (t.bytes n) →
        ∀ s₁, collect mmap s (words (t.bytes n)) = some s₁ →
          (gcAllocOnExistingHeap s₁ (words (t.bytes n))).isSome) ∧
      ((∃ k, mmap (8 * k) = none ∧ allocOf t mmap s n = none) ∨
        ∃ s' p, allocOf t mmap s n = some (s', p) ∧
          Reachable s' (keptObjects s s' os (words (t.bytes n)) ++ [p]) ∧
          Block s' (keptObjects s s' os (words (t.bytes n)) ++ [p]) t n p) := by
  have hparsed := h.parsed
  refine ⟨⟨hparsed.objects.le, hparsed.inside, hparsed.chunk⟩, hparsed.objects.walk,
    fun mmap t n hn hserves => ⟨fun hfull s₁ hcollect => hparsed.retry hserves hfull hcollect, ?_⟩⟩
  rcases hparsed.alloc hn hserves with hnone | ⟨s', p, hsome, -, hblock⟩
  · exact .inl hnone
  · exact .inr ⟨s', p, hsome, h.allocate hn hserves hsome, hblock⟩

/-! ### Two arrays -/

/-- The elements of an array at 4096 are itself and a number, and a word of the stack refers to it. -/
def rootedArray (s : State) : State := { s with
  mem := ((s.mem.set 4112 4112).set 4120 15).set 2056 4112
  gcStackTop := 2048
  gcStackBottom := 2064 }

/-- The first of two arrays is in use. -/
structure FirstInUse (s : State) : Prop where
  heap : s.heap = ⟨4096, 4608, 4160, 64⟩
  roots : rootWords s = [2056]
  fixed : fixedWords s = [2056, 2064]
  root : s.mem 2056 = 4112
  bottom : s.mem 2064 = 0
  data : s.startCustomData = s.stopCustomData
  targets : targets s.heap s.mem 4096 = [4096]

/-- Two arrays are made, and the elements of the first one are written. -/
theorem reachable_firstInUse : ∃ s, Reachable s [4096, 4128] ∧ FirstInUse s := by
  have hruns : ∃ s₁ s₂, allocOf .array (fun _ => none) startProcess.state 2 = some (s₁, 4096) ∧
      allocOf .array (fun _ => none) s₁ 2 = some (s₂, 4128) ∧
      s₁.heap.current + 8 * words (LamaType.bytes .array 2) ≤ s₁.heap.endPtr ∧
      s₂.heap.begin = 4096 ∧ 3 < objWords s₂.mem 4096 ∧ 3 < objWords (s₂.mem.set 4112 4112) 4096 ∧
      FirstInUse (rootedArray s₂) :=
    ⟨_, _, rfl, rfl, by decide, rfl, by decide, by decide,
      ⟨rfl, by decide, by decide, rfl, rfl, rfl, by decide⟩⟩
  obtain ⟨s₁, s₂, h₁, h₂, hroom, hbegin, hfour, hfour', huse⟩ := hruns
  have hsized : Sized .array 2 := ⟨by decide, by decide⟩
  have hinit : Reachable startProcess.state [] := .init init_nextPages (by decide) (by decide)
  -- there is room for both
  have hfirst := hinit.allocate hsized (.inl (by decide)) h₁
  rw [keptObjects, if_pos (by decide), List.nil_append] at hfirst
  have hsecond := hfirst.allocate hsized (.inl hroom) h₂
  rw [keptObjects, if_pos hroom] at hsecond
  have hpointer := hsecond.write (o := 4096) (j := 2) (v := 4112) (by decide) le_rfl (by omega)
    fun _ => .inr ⟨4096, by decide, rfl⟩
  have hnumber := hpointer.write (o := 4096) (j := 3) (v := 15) (by decide) (by decide) hfour'
    fun _ => .inl (by decide)
  refine ⟨rootedArray s₂, hnumber.program rfl fun a hlow _ => Mem.set_of_ne _ _ ?_, huse⟩
  dsimp only at hlow
  omega

namespace FirstInUse

theorem valid (h : FirstInUse s) : isValidHeapPointer s.heap (s.mem 2056) = true := by
  rw [h.heap, h.root]
  decide

theorem low (h : FirstInUse s) : ∀ a ∈ [2056, 2064], a + 8 ≤ s.heap.begin := by
  rw [h.heap]
  decide

theorem sub (h : FirstInUse s) : ∀ a ∈ rootWords s, a ∈ [2056, 2064] := by
  rw [h.roots]
  decide

/-- The first array refers to nothing but itself. -/
theorem live (h : FirstInUse s) : liveObjects s [4096, 4128] = [4096] := by
  have hfirst : Live s 4096 := ⟨2056, by rw [h.roots]; decide, h.valid, by rw [h.root]⟩
  have hsecond : ¬ Live s 4128 := by
    rintro ⟨a, ha, -, hreaches⟩
    rw [h.roots, List.mem_singleton] at ha
    rw [ha, h.root] at hreaches
    have hclosed : Closed (Gc.targets s.heap s.mem) {4096} := by
      rintro x rfl y hy
      rw [h.targets] at hy
      exact List.mem_singleton.1 hy
    exact absurd (hclosed.reaches rfl hreaches) (by decide)
  simp [liveObjects, hfirst, hsecond]

theorem validRoots (h : FirstInUse s) : ValidRoots s [4096, 4128] := by
  have hbottom : isValidHeapPointer s.heap (s.mem 2064) = false := by
    rw [h.heap, h.bottom]
    decide
  have hout : ∀ a ∈ [2056, 2064], a < s.heap.begin := fun a ha => by have := h.low a ha; omega
  refine ⟨fun a ha => .inl (hout a (h.sub a ha)), fun a ha _ => ⟨4096, by decide, ?_⟩,
    fun a ha => .inl (hout a (h.fixed ▸ ha)), fun a ha hv => ?_, h.data.le⟩
  · rw [h.roots, List.mem_singleton] at ha
    rw [ha, h.root]
  · rw [h.fixed] at ha
    rw [h.roots]
    rcases List.mem_pair.1 ha with rfl | rfl
    · exact List.mem_singleton_self _
    · rw [hbottom] at hv
      cases hv

/-- A collection can be made for an array of a hundred elements. -/
theorem serves (h : FirstInUse s) (hreach : Reachable s [4096, 4128]) :
    Serves (fun _ => some 8192) s [4096, 4128] (words (LamaType.bytes .array 100)) := by
  refine .inr ⟨h.validRoots, .of_size hreach.parsed.formed (by rw [h.heap]; decide), ?_⟩
  intro n begin hbegin
  obtain rfl := Option.some.inj hbegin
  refine ⟨by decide, by decide, .inr (by rw [h.heap]; decide), fun a ha => .inl ?_⟩
  have hlow := h.low a (ha.elim (h.sub a) fun ha => h.fixed ▸ ha)
  rw [h.heap] at hlow
  exact hlow.trans (by decide)

end FirstInUse

/-- There is no room for an array of a hundred elements.  The collection keeps the array that is in use
and drops the other one, and the new array stands behind it. -/
theorem heap_runs_array : ∃ s s' p, Reachable s [4096, 4128] ∧
    allocOf .array (fun _ => some 8192) s 100 = some (s', p) ∧
      Block s' [s'.heap.begin, p] .array 100 p := by
  obtain ⟨s, hreach, huse⟩ := reachable_firstInUse
  have hfull : ¬ s.heap.current + 8 * words (LamaType.bytes .array 100) ≤ s.heap.endPtr := by
    rw [huse.heap]
    decide
  obtain ⟨-, -, halloc⟩ := heap_runs hreach
  rcases (halloc _ .array 100 ⟨by decide, by decide⟩ (huse.serves hreach)).2 with
    ⟨k, hk, -⟩ | ⟨s', p, hsome, -, hblock⟩
  · cases hk
  · have hplace : newPlace s s' [4096] 4096 = s'.heap.begin := rfl
    rw [keptObjects, if_neg hfull, huse.live, List.map_singleton, hplace] at hblock
    exact ⟨s, s', p, hreach, hsome, hblock⟩

end Reachable

end LamaRv.Gc
