import LamaRv.Runtime.Relocate

/-!
# A whole collection (`gc.c`)

Marking and compacting, one after the other.  The objects that the roots reach stand at the
beginning of the new heap, in their old order, with their contents and with their references to one
another; the roots refer to them.

* `copyHeap`: the first half of `compact_phase`;
* `Fresh`: what `mmap` gives; `Rooted`: the words in which references are updated;
* `Collected`: the state after a collection;
* `copyHeap_spec`, `finish_spec`, `collect_spec`: `mark_phase` and `compact_phase` lead to such a
  state.
-/

namespace LamaRv.Gc

open Marking

/-! ### The code -/

/-- The words of the new heap. -/
def pseudoSize (s : State) (liveSize additionalSize : ℕ) : ℕ :=
  max (nextHeapSize liveSize additionalSize) s.heap.size

/-- `compact_phase` up to the copy of the heap; also the words that are live. -/
def copyHeap (mmap : ℕ → Option ℕ) (s : State) (additionalSize : ℕ) : Option (State × ℕ) := do
  let (m, liveSize) ← computeLocations s.heap s.mem
  let size := pseudoSize s liveSize additionalSize
  let bytes := wordsToBytes size
  let begin ← mmap bytes
  return ({ s with
    mem := (m.clear begin (bytes / 8)).move begin s.heap.begin (wordsToBytes s.heap.size)
    heap :=
      { begin := begin
        endPtr := begin + 8 * size
        current := begin + (s.heap.current - s.heap.begin)
        size := size } }, liveSize)

/-- `mark_phase` and `compact_phase`, as `gc_alloc` calls them. -/
def collect (mmap : ℕ → Option ℕ) (s : State) (additionalSize : ℕ) : Option State := do
  compactPhase mmap (← markPhase s) additionalSize

theorem compactPhase_eq (mmap : ℕ → Option ℕ) (s : State) (additionalSize : ℕ) :
    compactPhase mmap s additionalSize = do
      let (s', liveSize) ← copyHeap mmap s additionalSize
      let s' ← updateReferences s' s.heap
      let s' ← physicallyRelocate s' s.heap
      return { s' with heap := { s'.heap with current := s'.heap.begin + 8 * liveSize } } := by
  unfold compactPhase copyHeap
  cases computeLocations s.heap s.mem with
  | none => rfl
  | some p =>
    obtain ⟨m, liveSize⟩ := p
    simp only [Option.bind_eq_bind, Option.bind_some, Option.pure_def, pseudoSize, Option.bind_assoc]

/-! ### The state before -/

/-- A chunk of its own, apart from the heap and from the words of the roots. -/
structure Fresh (s : State) (begin size : ℕ) : Prop where
  aligned : begin % 8 = 0
  heap : begin + 8 * size ≤ s.heap.begin ∨ s.heap.begin + 8 * s.heap.size ≤ begin
  roots : ∀ a, a ∈ rootWords s ∨ a ∈ fixedWords s → a + 8 ≤ begin ∨ begin + 8 * size ≤ a

/-- The words in which references are updated lie outside the heap, and a pointer in one of them is a
root. -/
structure Rooted (s : State) : Prop where
  outside : ∀ a ∈ fixedWords s, a < s.heap.begin ∨ s.heap.current ≤ a
  marked : ∀ a ∈ fixedWords s, isValidHeapPointer s.heap (s.mem a) = true → a ∈ rootWords s
  data : s.startCustomData ≤ s.stopCustomData

/-! ### The state afterwards -/

/-- Where an object goes, among those that are live. -/
def newPlace (s s' : State) (live : List ℕ) (o : ℕ) : ℕ := placeIn s'.heap.begin s.mem live o

/-- What a word becomes. -/
def moved (s s' : State) (live : List ℕ) (v : ℕ) : ℕ := relocated s.heap s'.heap s.mem live v

/-- The state `s'` after a collection in `s`, with room for some more words: the objects `kept` of the
objects `os` have been moved. -/
structure Collected (s : State) (os kept : List ℕ) (additionalSize : ℕ) (s' : State) : Prop where
  sublist : kept.Sublist os
  live : ∀ o, o ∈ kept ↔ Live s o
  closed : Closed (targets s.heap s.mem) {o | o ∈ kept}
  rest : s' = { s with mem := s'.mem, heap := s'.heap }
  chunk : s'.heap.endPtr = s'.heap.begin + 8 * s'.heap.size
  fresh : Fresh s s'.heap.begin s'.heap.size
  current : s'.heap.current = s'.heap.begin + 8 * totalWords s.mem kept
  room : totalWords s.mem kept + additionalSize ≤ s'.heap.size
  objects : Objects s'.mem s'.heap.begin (kept.map (newPlace s s' kept)) s'.heap.current
  header : ∀ o ∈ kept, s'.mem (newPlace s s' kept o) = s.mem o
  unmarked : ∀ o ∈ kept, isMarked s'.mem (newPlace s s' kept o + 16) = false
  dequeued : ∀ o ∈ kept, isEnqueued s'.mem (newPlace s s' kept o + 16) = false
  content : ∀ o ∈ kept, ∀ k, 16 ≤ k → k + 8 ≤ objBytes s.mem o → s'.mem (newPlace s s' kept o + k) =
    if o + k ∈ fields s.mem o then moved s s' kept (s.mem (o + k)) else s.mem (o + k)
  last : ∀ o ∈ kept, ∀ k, 16 ≤ k → k % 8 = 0 → k < objBytes s.mem o → objBytes s.mem o < k + 8 →
    s'.mem (newPlace s s' kept o + k) % 256 ^ (objBytes s.mem o - k) =
      s.mem (o + k) % 256 ^ (objBytes s.mem o - k)
  roots : ∀ a ∈ fixedWords s, s'.mem a = moved s s' kept (s.mem a)
  frame : ∀ a, a ∉ fixedWords s → (∀ o ∈ os, a ≠ o + 8) →
    a + 8 ≤ s'.heap.begin ∨ s'.heap.begin + 8 * s'.heap.size ≤ a → s'.mem a = s.mem a

/-! ### The phases together -/

section Collect

variable {s : State} {os : List ℕ} {additionalSize begin : ℕ}

open Classical in
/-- The words of the objects that the roots reach. -/
noncomputable def liveWords (s : State) (os : List ℕ) : ℕ := totalWords s.mem (os.filter (Live s ·))

/-- The size of the new heap in bytes is a number of 64 bits. -/
def Roomy (s : State) (os : List ℕ) (additionalSize : ℕ) : Prop :=
  8 * max (2 * liveWords s os + additionalSize) s.heap.size < 2 ^ 64

theorem liveWords_le (hos : Formed s.heap s.mem os) : liveWords s os ≤ s.heap.size := by
  classical
  have := hos.objects.sum_words
  have := @totalWords_filter_le s.mem os (Live s ·)
  have := hos.size
  unfold liveWords
  omega

/-- The words of the objects that have been marked. -/
theorem liveWords_eq {marked : List ℕ} (hlive : ∀ o, o ∈ marked ↔ Live s o) :
    totalWords s.mem (keptOf os marked) = liveWords s os := by
  classical
  rw [liveWords, keptOf]
  congr 1
  exact List.filter_congr fun o _ => by simp only [hlive]

theorem Roomy.of_size (hos : Formed s.heap s.mem os)
    (h : 8 * (2 * s.heap.size + additionalSize) < 2 ^ 64) : Roomy s os additionalSize := by
  have := liveWords_le hos
  unfold Roomy
  omega

/-- There is room for the objects that are kept and for some more words. -/
theorem pseudoSize_spec {liveSize : ℕ}
    (h : 8 * max (2 * liveSize + additionalSize) s.heap.size < 2 ^ 64)
    (hlive : liveSize ≤ s.heap.size) :
    liveSize + additionalSize ≤ pseudoSize s liveSize additionalSize ∧
      liveSize < pseudoSize s liveSize additionalSize ∧
      s.heap.size ≤ pseudoSize s liveSize additionalSize ∧
      8 * pseudoSize s liveSize additionalSize < 2 ^ 64 := by
  have hsize : toSizeT ((liveSize : ℤ) * extraRoomHeapCoefficient + additionalSize) =
      liveSize * 2 + additionalSize := by
    have := toSizeT_natCast (i := liveSize * 2 + additionalSize) (by omega)
    simpa [extraRoomHeapCoefficient] using this
  simp only [pseudoSize, nextHeapSize, hsize, minimumHeapCapacity]
  omega

/-- The copy that `memcpy` makes of the heap. -/
theorem copied_of_move {m₂ : Mem} {marked : List ℕ} {heap' : MemoryChunk} (hos : Formed s.heap s.mem os)
    (hlocated : Located s.heap os s.mem marked m₂)
    (hclosed : Closed (targets s.heap s.mem) {x | x ∈ marked}) (hsize : 8 * s.heap.size < 2 ^ 64)
    (hcurrent : heap'.current = shift s.heap heap' s.heap.current)
    (hle : s.heap.size ≤ heap'.size) (hroom : totalWords s.mem (keptOf os marked) < heap'.size)
    (hfresh : Fresh s heap'.begin heap'.size) :
    Copied s.heap heap' os s.mem marked m₂
      ((m₂.clear heap'.begin heap'.size).move heap'.begin s.heap.begin (wordsToBytes s.heap.size)) where
  formed := hos
  located := hlocated
  closed := hclosed
  current := hcurrent
  size := hle
  room := hroom
  aligned := hfresh.aligned
  apart := hfresh.heap
  copy a h₁ h₂ := by
    have hcur := hos.size
    have hheap := hfresh.heap
    rw [wordsToBytes_eq hsize, shift, move_word (by omega), Mem.clear, if_neg (by omega)]
    congr 1
    omega

/-- Words outside of the new chunk. -/
theorem copy_frame {m₂ : Mem} {a size bytes : ℕ} (hbytes : bytes ≤ 8 * size)
    (ha : a + 8 ≤ begin ∨ begin + 8 * size ≤ a) (src : ℕ) :
    (m₂.clear begin size).move begin src bytes a = m₂ a := by
  rw [move_frame (by omega), Mem.clear, if_neg (by omega)]

/-- What is updated refers to the new heap, which lies apart from the old one. -/
theorem not_valid_relocated {heap' : MemoryChunk} {kept : List ℕ} (hos : Formed s.heap s.mem os)
    (hkept : ∀ o ∈ kept, o ∈ os) (hroom : totalWords s.mem kept < heap'.size)
    (hfresh : Fresh s heap'.begin heap'.size) {v : ℕ}
    (hv : isValidHeapPointer s.heap v = true → v - 16 ∈ kept) :
    isValidHeapPointer s.heap (relocated s.heap heap' s.mem kept v) = false := by
  rw [relocated]
  split_ifs with h
  · have hplace := wordsBefore_add_le (m := s.mem) (hv h)
    have hwords := (hos.objects.sound _ (hkept _ (hv h))).two_le_words
    have hheap := hfresh.heap
    have hcurrent := hos.size
    by_contra hvalid
    simp only [Bool.not_eq_false, isValidHeapPointer, Bool.and_eq_true, decide_eq_true_eq] at hvalid
    unfold placeIn at hvalid
    omega
  · simpa using h

/-- A pointer in a word in which references are updated points to a marked object. -/
theorem Rooted.pointer {marked : List ℕ} (hr : Rooted s) (h : Collectable s os)
    (hlive : ∀ o, o ∈ marked ↔ Live s o) : ∀ a ∈ fixedWords s,
    isValidHeapPointer s.heap (s.mem a) = true → ∃ o ∈ os, o ∈ marked ∧ s.mem a = o + 16 := by
  intro a ha hvalid
  have hroot := hr.marked a ha hvalid
  obtain ⟨o, ho, heq⟩ := h.roots a hroot hvalid
  refine ⟨o, ho, (hlive o).2 ⟨a, hroot, hvalid, ?_⟩, heq⟩
  rw [heq, Nat.add_sub_cancel]

/-- Such a word does not hold a pointer into the old heap any more when it has been updated. -/
theorem Rooted.not_valid {heap' : MemoryChunk} {marked : List ℕ} {a : ℕ} (hr : Rooted s)
    (h : Collectable s os) (hlive : ∀ o, o ∈ marked ↔ Live s o)
    (hroom : totalWords s.mem (keptOf os marked) < heap'.size)
    (hfresh : Fresh s heap'.begin heap'.size) (ha : a ∈ fixedWords s) :
    isValidHeapPointer s.heap (relocated s.heap heap' s.mem (keptOf os marked) (s.mem a)) =
      false := by
  refine not_valid_relocated h.formed (fun o ho => (mem_keptOf.1 ho).1) hroom hfresh fun hvalid => ?_
  obtain ⟨o, ho, hmarked, heq⟩ := hr.pointer h hlive a ha hvalid
  rw [heq, Nat.add_sub_cancel]
  exact mem_keptOf.2 ⟨ho, hmarked⟩

/-- A word outside of the heap has not been touched before references are updated. -/
theorem Located.outside {m₂ : Mem} {marked : List ℕ} {a : ℕ} (h : Located s.heap os s.mem marked m₂)
    (hos : Formed s.heap s.mem os) (ha : a < s.heap.begin ∨ s.heap.current ≤ a) : m₂ a = s.mem a := by
  refine h.state.same a fun o ho heq => ?_
  have := hos.objects.bounds o ho
  have := (hos.objects.sound o ho).two_le_words
  omega

/-- The passes over the copy, which is in place, in the chunk `heap'`. -/
theorem finish_spec {m₂ m₃ : Mem} {marked : List ℕ} {heap' : MemoryChunk} (h : Collectable s os)
    (hr : Rooted s) (hlive : ∀ o, o ∈ marked ↔ Live s o)
    (hcopied : Copied s.heap heap' os s.mem marked m₂ m₃) (hfresh : Fresh s heap'.begin heap'.size)
    (hm₃ : ∀ a, a + 8 ≤ heap'.begin ∨ heap'.begin + 8 * heap'.size ≤ a → m₃ a = m₂ a)
    (hchunk : heap'.endPtr = heap'.begin + 8 * heap'.size)
    (hroom : totalWords s.mem (keptOf os marked) + additionalSize ≤ heap'.size) :
    ∃ m₅ m₆, updateReferences { s with mem := m₃, heap := heap' } s.heap =
        some { s with mem := m₅, heap := heap' } ∧
      physicallyRelocate { s with mem := m₅, heap := heap' } s.heap =
        some { s with mem := m₆, heap := heap' } ∧
      Collected s os (keptOf os marked) additionalSize
        { s with
          mem := m₆
          heap := { heap' with
            current := heap'.begin + 8 * totalWords s.mem (keptOf os marked) } } := by
  have hptr := hr.pointer h hlive
  have hagain : ∀ a, List.Duplicate a (fixedWords s) → isValidHeapPointer s.heap
      (relocated s.heap heap' s.mem (keptOf os marked) (s.mem a)) = false :=
    fun a ha => hr.not_valid h hlive hcopied.room hfresh ha.mem
  obtain ⟨m₅, hupdate, href, hframe⟩ := @updateReferences_spec { s with mem := m₃, heap := heap' }
    s.heap s.mem m₂ os marked hcopied (fun a ha => hfresh.roots a (.inr ha))
    (fun a ha => (hm₃ a (hfresh.roots a (.inr ha))).trans
      (hcopied.located.outside h.formed (hr.outside a ha))) hptr hagain hr.data
  have hcount : os.length < heap'.size + 1 := by
    have := h.formed.length_le
    have := hcopied.size
    omega
  have hread : Readable s.heap heap' os s.mem marked m₅ := href.readable
  obtain ⟨m₆, hloop, hm₆⟩ := relocateLoop_spec h.formed hread hcopied.current hcount
  refine ⟨m₅, m₆, hupdate, ?_, ?_⟩
  · simp only [physicallyRelocate, hloop, Option.bind_eq_bind, Option.bind_some, Option.pure_def]
  have hmoved : ∀ o ∈ keptOf os marked, Sound s.mem o ∧ o ∈ os ∧ o ∈ marked ∧
      Moved (objBytes s.mem o) m₅ (shift s.heap heap' o) m₆
        (placeIn heap'.begin s.mem (keptOf os marked) o) := by
    intro o ho
    obtain ⟨ho, hmarked⟩ := mem_keptOf.1 ho
    exact ⟨h.formed.objects.sound o ho, ho, hmarked, hm₆.moved o ho hmarked⟩
  have houtside : ∀ a, a + 8 ≤ heap'.begin ∨ heap'.begin + 8 * heap'.size ≤ a → m₆ a = m₅ a := by
    intro a ha
    rcases ha with ha | ha
    · exact hm₆.below a (by omega)
    · refine hm₆.ahead a ?_
      have := h.formed.size
      have := hcopied.size
      unfold shift
      omega
  have hcontent : ∀ o ∈ os, o ∈ marked → ∀ k, 16 ≤ k → k + 8 ≤ 8 * objWords s.mem o →
      m₅ (shift s.heap heap' o + k) = if o + k ∈ fields s.mem o then
        relocated s.heap heap' s.mem (keptOf os marked) (s.mem (o + k)) else s.mem (o + k) := by
    intro o ho hmarked k hk hle
    rw [← shift_add (hcopied.begin_le ho)]
    exact href.content o ho hmarked (o + k) ⟨by omega, by omega⟩
  have hheader : ∀ o ∈ keptOf os marked,
      m₆ (placeIn heap'.begin s.mem (keptOf os marked) o) = s.mem o := by
    intro o ho
    obtain ⟨-, ho, -, hmv⟩ := hmoved o ho
    exact hmv.header.trans (hread.header o ho)
  exact
    { sublist := List.filter_sublist
      live := fun o => by
        rw [mem_keptOf, hlive]
        exact and_iff_right_of_imp h.mem_of_live
      closed := fun o ho o' ho' => by
        have hmarked := hcopied.closed o (mem_keptOf.1 ho).2 o' ho'
        exact mem_keptOf.2 ⟨h.formed.mem_of_reaches (mem_keptOf.1 ho).1 (.single ho'), hmarked⟩
      rest := rfl
      chunk := hchunk
      fresh := hfresh
      current := rfl
      room := hroom
      objects := objects_of_places (h.formed.objects.nodup.filter _) heap'.begin fun o ho =>
        ⟨(hmoved o ho).1, hheader o ho⟩
      header := hheader
      unmarked := fun o ho => by
        obtain ⟨-, -, -, hmv⟩ := hmoved o ho
        simp only [isMarked, forwardWord_content, newPlace, hmv.collector, getMarkBit_resetMarkBit]
      dequeued := fun o ho => by
        obtain ⟨-, ho, -, hmv⟩ := hmoved o ho
        have := hread.enqueued o ho
        simp only [isEnqueued, forwardWord_content] at this
        simp only [isEnqueued, forwardWord_content, newPlace, hmv.collector,
          isEnqueuedBit_resetMarkBit, this]
      content := fun o ho k hk hle => by
        obtain ⟨hs, ho, hmarked, hmv⟩ := hmoved o ho
        have := hs.bytes_le_words
        exact (hmv.content k hk hle).trans (hcontent o ho hmarked k hk (by omega))
      last := fun o ho k hk halign hlt hlast => by
        obtain ⟨hs, ho, hmarked, hmv⟩ := hmoved o ho
        have := hs.bytes_le_words
        have hfield : o + k ∉ fields s.mem o := fun hf => by
          have := hs.field_bounds _ hf
          omega
        have hword := hcontent o ho hmarked k hk (by omega)
        rw [if_neg hfield] at hword
        rw [newPlace, hmv.last k hk hlt hlast, hword]
      roots := fun a ha => (houtside a (hfresh.roots a (.inr ha))).trans (href.roots a ha)
      frame := fun a ha hne hout => by
        exact (houtside a hout).trans ((hframe a hout ha).trans
          ((hm₃ a hout).trans (hcopied.located.state.same a hne))) }

/-- The heap is marked and copied, unless there is no memory for the new one. -/
theorem copyHeap_spec {mmap : ℕ → Option ℕ} (h : Collectable s os) (hsize : Roomy s os additionalSize)
    (hmmap : ∀ n begin, mmap (8 * n) = some begin → Fresh s begin n) :
    ∃ m₁ marked, markPhase s = some { s with mem := m₁ } ∧ (∀ o, o ∈ marked ↔ Live s o) ∧
      ((∃ n, mmap (8 * n) = none ∧ copyHeap mmap { s with mem := m₁ } additionalSize = none) ∨
        ∃ m₂ m₃ heap', copyHeap mmap { s with mem := m₁ } additionalSize =
            some ({ s with mem := m₃, heap := heap' }, totalWords s.mem (keptOf os marked)) ∧
          Copied s.heap heap' os s.mem marked m₂ m₃ ∧ mmap (8 * heap'.size) = some heap'.begin ∧
          (∀ a, a + 8 ≤ heap'.begin ∨ heap'.begin + 8 * heap'.size ≤ a → m₃ a = m₂ a) ∧
          heap'.endPtr = heap'.begin + 8 * heap'.size ∧
          totalWords s.mem (keptOf os marked) + additionalSize ≤ heap'.size) := by
  obtain ⟨m₁, marked, hmark, hm₁, hclosed, hlive⟩ := markPhase_spec h
  obtain ⟨m₂, hlocate, hlocated⟩ := computeLocations_spec h.formed hm₁
  refine ⟨m₁, marked, hmark, hlive, ?_⟩
  have hwords : totalWords s.mem (keptOf os marked) ≤ s.heap.size :=
    (liveWords_eq hlive).trans_le (liveWords_le h.formed)
  rw [Roomy, ← liveWords_eq hlive] at hsize
  obtain ⟨hroom, hlt, hle, hpseudo⟩ := @pseudoSize_spec s additionalSize _ hsize hwords
  have hsame : pseudoSize { s with mem := m₁ } = pseudoSize s := rfl
  have hbytes : wordsToBytes s.heap.size = 8 * s.heap.size := wordsToBytes_eq (by omega)
  generalize hn : pseudoSize s (totalWords s.mem (keptOf os marked)) additionalSize = n at *
  have hnbytes : wordsToBytes n = 8 * n := wordsToBytes_eq hpseudo
  have hnwords : 8 * n / 8 = n := Nat.mul_div_cancel_left n (by decide)
  cases hchunk : mmap (8 * n) with
  | none =>
    refine .inl ⟨n, hchunk, ?_⟩
    simp only [copyHeap, hlocate, hsame, hn, hnbytes, hchunk, Option.bind_eq_bind, Option.bind_some,
      Option.bind_none]
  | some begin =>
    have hfresh := hmmap n begin hchunk
    have hmove : ∀ a, a + 8 ≤ begin ∨ begin + 8 * n ≤ a →
        (m₂.clear begin n).move begin s.heap.begin (wordsToBytes s.heap.size) a = m₂ a :=
      fun a ha => copy_frame (by omega) ha _
    refine .inr ⟨m₂, _, ⟨begin, begin + 8 * n, begin + (s.heap.current - s.heap.begin), n⟩, ?_, ?_,
      hchunk, hmove, rfl, hroom⟩
    · simp only [copyHeap, hlocate, hsame, hn, hnbytes, hnwords, hchunk, Option.bind_eq_bind,
        Option.bind_some, Option.pure_def]
    · exact @copied_of_move s os m₂ marked
        ⟨begin, begin + 8 * n, begin + (s.heap.current - s.heap.begin), n⟩ h.formed hlocated hclosed
        (by omega) rfl hle hlt hfresh

/-- **A collection** ends, unless there is no memory for the new heap, and keeps what the roots
reach. -/
theorem collect_spec {mmap : ℕ → Option ℕ} (h : Collectable s os) (hr : Rooted s)
    (hsize : Roomy s os additionalSize)
    (hmmap : ∀ n begin, mmap (8 * n) = some begin → Fresh s begin n) :
    (∃ n, mmap (8 * n) = none ∧ collect mmap s additionalSize = none) ∨
      ∃ kept s', collect mmap s additionalSize = some s' ∧
        mmap (8 * s'.heap.size) = some s'.heap.begin ∧ Collected s os kept additionalSize s' := by
  obtain ⟨m₁, marked, hmark, hlive, hcopy⟩ := copyHeap_spec h hsize hmmap
  have hcollect : collect mmap s additionalSize = compactPhase mmap { s with mem := m₁ } additionalSize := by
    rw [collect, hmark]
    rfl
  rw [hcollect, compactPhase_eq]
  rcases hcopy with ⟨n, hnone, hcopy⟩ | ⟨m₂, m₃, heap', hcopy, hcopied, hbegin, hm₃, hchunk, hroom⟩
  · exact .inl ⟨n, hnone, by rw [hcopy]; rfl⟩
  · obtain ⟨m₅, m₆, hupdate, hmove, hcollected⟩ :=
      finish_spec h hr hlive hcopied (hmmap _ _ hbegin) hm₃ hchunk hroom
    refine .inr ⟨_, _, ?_, hbegin, hcollected⟩
    simp only [hcopy, hupdate, hmove, Option.bind_eq_bind, Option.bind_some, Option.pure_def]

/-- There is memory for the new heap if the kernel has some of that size. -/
theorem collect_isSome {mmap : ℕ → Option ℕ} (h : Collectable s os) (hr : Rooted s)
    (hsize : Roomy s os additionalSize)
    (hmmap : ∀ n begin, mmap (8 * n) = some begin → Fresh s begin n)
    (hmemory : (mmap (8 * pseudoSize s (liveWords s os) additionalSize)).isSome) :
    (collect mmap s additionalSize).isSome := by
  rcases collect_spec h hr hsize hmmap with ⟨-, -, hnone⟩ | ⟨kept, s', hsome, -⟩
  · obtain ⟨m₁, marked, hmark, hlive, hcopy⟩ := copyHeap_spec h hsize hmmap
    obtain ⟨m₁', marked', hmark', hm₁, -, hlive'⟩ := markPhase_spec h
    obtain ⟨m₂, hlocate, -⟩ := computeLocations_spec h.formed hm₁
    have hwords : totalWords s.mem (keptOf os marked') ≤ s.heap.size :=
      (liveWords_eq hlive').trans_le (liveWords_le h.formed)
    rw [Roomy, ← liveWords_eq hlive'] at hsize
    obtain ⟨-, -, -, hpseudo⟩ := @pseudoSize_spec s additionalSize _ hsize hwords
    have hsame : pseudoSize { s with mem := m₁' } = pseudoSize s := rfl
    obtain ⟨begin, hbegin⟩ := Option.isSome_iff_exists.1 hmemory
    rw [← liveWords_eq hlive'] at hbegin
    -- the chunk has been found, so that the collection goes on
    have hchunk : copyHeap mmap { s with mem := m₁' } additionalSize ≠ none := by
      simp only [copyHeap, hlocate, hsame, wordsToBytes_eq hpseudo, hbegin, Option.bind_eq_bind,
        Option.bind_some, Option.pure_def, ne_eq, reduceCtorEq, not_false_eq_true]
    obtain rfl : m₁' = m₁ := congrArg State.mem (Option.some.inj (hmark'.symm.trans hmark))
    rcases hcopy with ⟨-, -, hcopy⟩ | ⟨m₂', m₃, heap', hcopy, hcopied, hbegin', hm₃, hend, hroom⟩
    · exact absurd hcopy hchunk
    · obtain ⟨m₅, m₆, hupdate, hmove, -⟩ :=
        finish_spec h hr hlive hcopied (hmmap _ _ hbegin') hm₃ hend hroom
      rw [collect, hmark, Option.bind_eq_bind, Option.bind_some, compactPhase_eq]
      simp only [hcopy, hupdate, hmove, Option.bind_eq_bind, Option.bind_some, Option.pure_def,
        Option.isSome_some]
  · rw [hsome]
    rfl

end Collect

end LamaRv.Gc
