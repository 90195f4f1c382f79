import LamaRv.Runtime.Mark

/-!
# Compacting (`gc.c`)

The marked objects get new places, one after the other in the order in which they stand.  The heap
is copied to a chunk of its own, where references to the objects become references to the new
places and where the objects are then moved.

* `computeLocations`, `updateReferences`, `physicallyRelocate`, `compactPhase`: the code;
* `wordsBefore`, `placeIn`: the place of an object in the new heap;
* `computeLocations_spec`: the first of the three passes.
-/

namespace LamaRv.Gc

open Marking

/-! ### The code -/

/-- One object in `compute_locations`. -/
def locateObject (s : Mem × ℕ) (headerPtr : ℕ) : Option (Mem × ℕ) := do
  let (m, freePtr) := s
  let objContent ← getObjectContentPtr m headerPtr
  if isMarked m objContent then
    let sz := bytesToWords (← objSizeHeaderPtr m headerPtr)
    return (setForwardAddress m objContent freePtr, freePtr + 8 * sz)
  else return s

/-- `compute_locations`: also how many words the marked objects take. -/
def computeLocations (heap : MemoryChunk) (m : Mem) : Option (Mem × ℕ) := do
  let (m, freePtr) ← forObjects Prod.fst heap locateObject (heap.size + 1) heap.begin (m, heap.begin)
  return (m, (freePtr - heap.begin) / 8)

/-- What a pointer into the old heap becomes: the forward address is found in the copy. -/
def newContent (heap oldHeap : MemoryChunk) (m : Mem) (ptrValue : ℕ) : Option ℕ := do
  let objPtr := heap.begin + (ptrValue - oldHeap.begin)
  let newAddr := heap.begin + (getForwardAddress m objPtr - oldHeap.begin)
  let contentOffset := getHeaderSize (← getTypeRowPtr m objPtr)
  return newAddr + contentOffset

/-- The pointers of a marked object, in `update_references`. -/
def updateField (heap oldHeap : MemoryChunk) (m : Mem) (curField : ℕ) : Option Mem := do
  let fieldValue := m curField
  if fieldValue < oldHeap.begin ∨ fieldValue > oldHeap.current then return m
  else return m.set curField (← newContent heap oldHeap m fieldValue)

/-- One word of `scan_and_fix_region`. -/
def fixWord (heap oldHeap : MemoryChunk) (m : Mem) (ptr : ℕ) : Option Mem := do
  let ptrValue := m ptr
  if isValidPointer ptrValue ∧ oldHeap.begin ≤ ptrValue ∧ ptrValue ≤ oldHeap.current then
    return m.set ptr (← newContent heap oldHeap m ptrValue)
  else return m

/-- Some words, one after the other. -/
def fixWords (heap oldHeap : MemoryChunk) : List ℕ → Mem → Option Mem
  | [], m => some m
  | a :: as, m => do fixWords heap oldHeap as (← fixWord heap oldHeap m a)

def scanAndFixRegion (heap oldHeap : MemoryChunk) (start stop : ℕ) (m : Mem) : Option Mem :=
  fixWords heap oldHeap (wordsBetween start stop) m

/-- Whether `scan_and_fix_region_roots` leaves an extra root to the other two passes. -/
def skipsRoot (s : State) (root : ℕ) : Bool :=
  decide (root ≥ s.gcStackTop) && decide (root < s.gcStackBottom) ||
    decide (root ≤ s.stopCustomData) && decide (root ≥ s.startCustomData)

/-- `scan_and_fix_region_roots`.  The check that the word is a pointer is made first there; it is one
of those of `fixWord`. -/
def scanAndFixRegionRoots (s : State) (oldHeap : MemoryChunk) (m : Mem) : Option Mem :=
  fixWords s.heap oldHeap (s.extraRoots.filter fun root => !skipsRoot s root) m

/-- One object in `update_references`. -/
def updateObject (heap oldHeap : MemoryChunk) (m : Mem) (it : ℕ) : Option Mem := do
  if isMarked m (← getObjectContentPtr m it) then
    forPtrFields id (updateField heap oldHeap) (heap.size + 1) (← fieldBeginIterator m it) m
  else return m

/-- `update_references`, in the new heap.  That the data area is an area is an assertion. -/
def updateReferences (s : State) (oldHeap : MemoryChunk) : Option State := do
  let m ← forObjects id s.heap (updateObject s.heap oldHeap) (s.heap.size + 1) s.heap.begin s.mem
  let m ← scanAndFixRegion s.heap oldHeap (s.gcStackTop + 8) (s.gcStackBottom + 8) m
  let m ← scanAndFixRegionRoots s oldHeap m
  guard (s.stopCustomData ≥ s.startCustomData)
  let m ← scanAndFixRegion s.heap oldHeap s.startCustomData s.stopCustomData m
  return { s with mem := m }

/-- The loop of `physically_relocate`, with some fuel.  The next object is found before this one is
moved. -/
def relocateLoop (heap oldHeap : MemoryChunk) : ℕ → ℕ → Mem → Option Mem
  | 0, _, _ => none
  | n + 1, fromIter, m =>
    if fromIter ≥ heap.current then some m
    else do
      let obj ← getObjectContentPtr m fromIter
      let nextIter ← heapNextObjIterator m fromIter
      if isMarked m obj then
        let dst := heap.begin + (getForwardAddress m obj - oldHeap.begin)
        let m := m.move dst fromIter (← objSizeHeaderPtr m fromIter)
        let m := unmarkObject m (← getObjectContentPtr m dst)
        relocateLoop heap oldHeap n nextIter m
      else relocateLoop heap oldHeap n nextIter m

def physicallyRelocate (s : State) (oldHeap : MemoryChunk) : Option State := do
  return { s with mem := ← relocateLoop s.heap oldHeap (s.heap.size + 1) s.heap.begin s.mem }

/-- The words of the next heap. -/
def nextHeapSize (liveSize additionalSize : ℕ) : ℕ :=
  max (toSizeT (liveSize * extraRoomHeapCoefficient + additionalSize)) minimumHeapCapacity

/-- `compact_phase`.  `mmap` gives zeroed memory of some bytes, or fails, which ends the program. -/
def compactPhase (mmap : ℕ → Option ℕ) (s : State) (additionalSize : ℕ) : Option State := do
  let (m, liveSize) ← computeLocations s.heap s.mem
  let nextHeapPseudoSize := max (nextHeapSize liveSize additionalSize) s.heap.size
  let oldHeap := s.heap
  let bytes := wordsToBytes nextHeapPseudoSize
  let begin ← mmap bytes
  let m := (m.clear begin (bytes / 8)).move begin oldHeap.begin (wordsToBytes oldHeap.size)
  let heap : MemoryChunk :=
    { begin := begin
      endPtr := begin + 8 * nextHeapPseudoSize
      size := nextHeapPseudoSize
      current := begin + (oldHeap.current - oldHeap.begin) }
  let s ← updateReferences { s with mem := m, heap := heap } oldHeap
  let s ← physicallyRelocate s oldHeap
  return { s with heap := { s.heap with current := s.heap.begin + 8 * liveSize } }

/-! ### New places -/

/-- The words of some objects. -/
def totalWords (m : Mem) (os : List ℕ) : ℕ := (os.map (objWords m)).sum

/-- How many words stand before an object among some objects. -/
def wordsBefore (m : Mem) (os : List ℕ) (o : ℕ) : ℕ := totalWords m (os.takeWhile (· ≠ o))

section Places

variable {m m' : Mem} {os xs ys : List ℕ} {a e o o' : ℕ}

@[simp] theorem totalWords_nil : totalWords m [] = 0 := rfl

@[simp] theorem totalWords_cons : totalWords m (o :: os) = objWords m o + totalWords m os := by
  simp [totalWords]

@[simp] theorem totalWords_append : totalWords m (xs ++ ys) = totalWords m xs + totalWords m ys := by
  simp [totalWords]

theorem totalWords_filter_le (p : ℕ → Bool) : totalWords m (os.filter p) ≤ totalWords m os := by
  induction os with
  | nil => exact le_rfl
  | cons o os ih =>
    rw [List.filter_cons]
    split_ifs <;> simp only [totalWords_cons] <;> omega

theorem Objects.sum_words (h : Objects m a os e) : a + 8 * totalWords m os = e := by
  induction h with
  | nil a => simp
  | cons hs _ ih =>
    rw [totalWords_cons]
    omega

theorem wordsBefore_split (h : o ∉ xs) : wordsBefore m (xs ++ o :: ys) o = totalWords m xs := by
  rw [wordsBefore, List.takeWhile_append_of_pos]
  · simp
  · intro x hx
    have : x ≠ o := fun heq => h (heq ▸ hx)
    simpa using this

/-- The words before an object and its own words. -/
theorem wordsBefore_add_le (ho : o ∈ os) : wordsBefore m os o + objWords m o ≤ totalWords m os := by
  obtain ⟨xs, ys, rfl, hxs⟩ := List.eq_append_cons_of_mem ho
  rw [wordsBefore_split hxs, totalWords_append, totalWords_cons]
  omega

/-- Two objects do not share words. -/
theorem wordsBefore_apart (hnodup : os.Nodup) (ho : o ∈ os) (ho' : o' ∈ os) (hne : o ≠ o') :
    wordsBefore m os o + objWords m o ≤ wordsBefore m os o' ∨
      wordsBefore m os o' + objWords m o' ≤ wordsBefore m os o := by
  obtain ⟨xs, ys, rfl, hxs⟩ := List.eq_append_cons_of_mem ho
  rcases List.mem_append.1 ho' with h | h
  · right
    obtain ⟨us, vs, rfl, hus⟩ := List.eq_append_cons_of_mem h
    rw [wordsBefore_split hxs, List.append_assoc, List.cons_append, wordsBefore_split hus,
      totalWords_append, totalWords_cons]
    omega
  · left
    have h := (List.mem_cons.1 h).resolve_left hne.symm
    obtain ⟨us, vs, rfl, hus⟩ := List.eq_append_cons_of_mem h
    have hmem : o' ∉ xs ++ o :: us := by
      rw [← List.cons_append, ← List.append_assoc] at hnodup
      intro h
      exact List.disjoint_of_nodup_append hnodup h List.mem_cons_self
    rw [wordsBefore_split hxs, ← List.cons_append, ← List.append_assoc, wordsBefore_split hmem,
      totalWords_append, totalWords_cons]
    omega

/-- Objects that are kept move down. -/
theorem Objects.wordsBefore_filter_le (h : Objects m a os e) (p : ℕ → Bool) (ho : o ∈ os)
    (hp : p o = true) : a + 8 * wordsBefore m (os.filter p) o ≤ o := by
  obtain ⟨xs, ys, rfl, hxs⟩ := List.eq_append_cons_of_mem ho
  obtain ⟨b, hobjects, hrest⟩ := objects_append.1 h
  obtain rfl : b = o := by cases hrest; rfl
  have hbefore : wordsBefore m ((xs ++ b :: ys).filter p) b = totalWords m (xs.filter p) := by
    rw [List.filter_append, List.filter_cons, if_pos hp]
    exact wordsBefore_split fun h => hxs (List.mem_of_mem_filter h)
  have := hobjects.sum_words
  have := @totalWords_filter_le m xs p
  omega

/-- Objects in a row: the memory `m'` holds each of them where it is placed. -/
theorem objects_of_places (hnodup : os.Nodup) (b : ℕ)
    (h : ∀ o ∈ os, Sound m o ∧ m' (b + 8 * wordsBefore m os o) = m o) :
    Objects m' b (os.map fun o => b + 8 * wordsBefore m os o) (b + 8 * totalWords m os) := by
  have key : ∀ ys xs, os = xs ++ ys → Objects m' (b + 8 * totalWords m xs)
      (ys.map fun o => b + 8 * wordsBefore m os o) (b + 8 * totalWords m os) := by
    intro ys
    induction ys with
    | nil =>
      rintro xs hos
      rw [hos, List.append_nil]
      exact .nil _
    | cons o ys ih =>
      intro xs hos
      have hxs : o ∉ xs := by
        rw [hos] at hnodup
        intro h
        exact List.disjoint_of_nodup_append hnodup h List.mem_cons_self
      have hplace : wordsBefore m os o = totalWords m xs := by rw [hos, wordsBefore_split hxs]
      obtain ⟨hsound, hheader⟩ := h o (by simp [hos])
      rw [hplace] at hheader
      rw [List.map_cons, hplace]
      refine .cons (hsound.congr hheader) ?_
      have := ih (xs ++ [o]) (by rw [hos, List.append_assoc]; rfl)
      rw [totalWords_append, totalWords_cons, totalWords_nil] at this
      rw [objWords_congr hheader, Nat.add_assoc, ← Nat.mul_add]
      exact this
  exact key os [] rfl

end Places

/-! ### Computing the places -/

section ComputeLocations

variable {heap : MemoryChunk} {m₀ m : Mem} {os marked : List ℕ}

/-- The marked objects, in their order. -/
def keptOf (os marked : List ℕ) : List ℕ := os.filter (· ∈ marked)

/-- Where an object goes, in a chunk that begins at `base`. -/
def placeIn (base : ℕ) (m : Mem) (kept : List ℕ) (o : ℕ) : ℕ := base + 8 * wordsBefore m kept o

/-- The marked objects know their places. -/
structure Located (heap : MemoryChunk) (os : List ℕ) (m₀ : Mem) (marked : List ℕ) (m : Mem) : Prop
    where
  state : MarkState os m₀ marked [] m
  forward : ∀ o ∈ os, o ∈ marked →
    getForwardAddress m (o + 16) = placeIn heap.begin m₀ (keptOf os marked) o

/-- The objects that are marked in some memory. -/
def markedOf (m : Mem) (os : List ℕ) : List ℕ := os.filter fun o => isMarked m (o + 16)

/-- After the objects `done`, with the next free place: the marked ones know their places, and besides
forward addresses nothing has changed. -/
structure Placing (heap : MemoryChunk) (os : List ℕ) (m : Mem) (done : List ℕ) (s : Mem × ℕ) :
    Prop where
  same : SameBut os m s.1
  marked : ∀ o ∈ os, isMarked s.1 (o + 16) = isMarked m (o + 16)
  enqueued : ∀ o ∈ os, isEnqueued s.1 (o + 16) = isEnqueued m (o + 16)
  free : s.2 = heap.begin + 8 * totalWords m (markedOf m done)
  forward : ∀ o ∈ markedOf m done, getForwardAddress s.1 (o + 16) =
    placeIn heap.begin m (markedOf m os) o

theorem mem_markedOf {o : ℕ} : o ∈ markedOf m os ↔ o ∈ os ∧ isMarked m (o + 16) = true :=
  List.mem_filter

theorem locateObject_spec (hos : Placed heap m₀ os) {done rest : List ℕ} {o freePtr : ℕ}
    (hsplit : os = done ++ o :: rest) (h : Placing heap os m₀ done (m, freePtr)) :
    ∃ s', locateObject (m, freePtr) o = some s' ∧ s'.1 o = m₀ o ∧
      Placing heap os m₀ (done ++ [o]) s' := by
  obtain ⟨hsame, hmarks, hqueue, hfree, hforward⟩ := h
  dsimp only at hsame hmarks hqueue hfree hforward
  have ho : o ∈ os := by simp [hsplit]
  have hheader := hos.objects.header_of_same hsame ho
  have hsound := (hos.objects.sound o ho).congr hheader
  have hdone : markedOf m₀ (done ++ [o]) = markedOf m₀ done ++ markedOf m₀ [o] := by
    simp [markedOf]
  by_cases hmarked : isMarked m₀ (o + 16) = true
  · have halign : freePtr % 8 = 0 := by
      have := hos.aligned
      omega
    have hlast : markedOf m₀ [o] = [o] := by simp [markedOf, hmarked]
    have hplace : placeIn heap.begin m₀ (markedOf m₀ os) o = freePtr := by
      have hnot : o ∉ markedOf m₀ done := by
        have := hos.objects.nodup
        rw [hsplit] at this
        exact fun h => List.disjoint_of_nodup_append this (List.mem_of_mem_filter h) List.mem_cons_self
      have hkept : markedOf m₀ os = markedOf m₀ done ++ o :: markedOf m₀ rest := by
        simp [markedOf, hsplit, hmarked]
      rw [placeIn, hkept, wordsBefore_split hnot, hfree]
    refine ⟨(setForwardAddress m (o + 16) freePtr, freePtr + 8 * objWords m₀ o), ?_, ?_, ?_, ?_, ?_,
      ?_, ?_⟩
    · simp only [locateObject, hsound.getObjectContentPtr, (hmarks o ho).trans hmarked,
        hsound.objSizeHeaderPtr, Option.bind_eq_bind, Option.bind_some, Option.pure_def, if_true]
      rw [bytesToWords_eq (by have := hsound.le_bytes; omega) hsound.size, ← objWords,
        objWords_congr hheader]
    · exact (frame_setForwardAddress (by omega)).trans hheader
    · intro a ha
      dsimp only
      rw [frame_setForwardAddress (ha o ho), hsame a ha]
    · intro o' ho'
      dsimp only
      rw [isMarked_setForwardAddress halign, hmarks o' ho']
    · intro o' ho'
      dsimp only
      rw [isEnqueued_setForwardAddress halign, hqueue o' ho']
    · rw [hdone, hlast, totalWords_append, totalWords_cons, totalWords_nil]
      dsimp only
      omega
    · intro o' ho'
      dsimp only
      rw [getForwardAddress_setForwardAddress halign]
      split_ifs with heq
      · rw [heq, hplace]
      · rw [hdone, hlast] at ho'
        exact hforward o' ((List.mem_append.1 ho').resolve_right fun h => heq (List.mem_singleton.1 h))
  · have hlast : markedOf m₀ [o] = [] := by simp [markedOf, hmarked]
    have hunmarked : isMarked m (o + 16) = false := by
      rw [hmarks o ho]
      simpa using hmarked
    rw [hlast, List.append_nil] at hdone
    refine ⟨(m, freePtr), ?_, hheader, hsame, hmarks, hqueue, ?_, ?_⟩
    · simp only [locateObject, hsound.getObjectContentPtr, hunmarked, Option.bind_eq_bind,
        Option.bind_some, Option.pure_def, Bool.false_eq_true, if_false]
    · rw [hdone]
      exact hfree
    · rw [hdone]
      exact hforward

/-- The places of the objects that are marked, whatever else the memory holds. -/
theorem computeLocations_places (hos : Placed heap m os) (hlen : os.length ≤ heap.size) :
    ∃ m', computeLocations heap m = some (m', totalWords m (markedOf m os)) ∧
      Placing heap os m os (m', heap.begin + 8 * totalWords m (markedOf m os)) := by
  obtain ⟨⟨m', freePtr⟩, hrun, h⟩ := forObjects_spec Prod.fst
    (P := Placing heap os m) (s := (m, heap.begin)) hos.objects
    (Nat.lt_succ_of_le hlen) (fun done o rest s hsplit h => locateObject_spec hos hsplit h)
    ⟨fun _ _ => rfl, fun _ _ => rfl, fun _ _ => rfl, by simp [markedOf], by simp [markedOf]⟩
  obtain rfl : freePtr = heap.begin + 8 * totalWords m (markedOf m os) := h.free
  refine ⟨m', ?_, h⟩
  have hwords : (heap.begin + 8 * totalWords m (markedOf m os) - heap.begin) / 8 =
      totalWords m (markedOf m os) := by omega
  simp only [computeLocations, hrun, Option.bind_eq_bind, Option.bind_some, Option.pure_def, hwords]

theorem totalWords_congr (h : ∀ o ∈ os, m o = m₀ o) : totalWords m os = totalWords m₀ os := by
  rw [totalWords, totalWords, List.map_congr_left fun o ho => objWords_congr (h o ho)]

theorem computeLocations_spec (hos : Formed heap m₀ os) (hm : MarkState os m₀ marked [] m) :
    ∃ m', computeLocations heap m = some (m', totalWords m₀ (keptOf os marked)) ∧
      Located heap os m₀ marked m' := by
  have hheader : ∀ o ∈ os, m o = m₀ o := fun o ho => hm.same.header hos ho
  have hkept : markedOf m os = keptOf os marked :=
    List.filter_congr fun o ho => by
      rw [Bool.eq_iff_iff, hm.marked o ho, decide_eq_true_eq]
  have hwords {xs : List ℕ} (hxs : ∀ o ∈ xs, o ∈ os) : totalWords m xs = totalWords m₀ xs :=
    totalWords_congr fun o ho => hheader o (hxs o ho)
  obtain ⟨m', hrun, h⟩ := @computeLocations_places heap m os
    ⟨hos.objects.congr hheader, hos.aligned⟩ hos.length_le
  have hkeptWords : totalWords m (keptOf os marked) = totalWords m₀ (keptOf os marked) :=
    hwords fun o ho => List.mem_of_mem_filter ho
  rw [hkept, hkeptWords] at hrun
  refine ⟨m', hrun, ⟨fun a ha => ?_, fun o ho => ?_, fun o ho => ?_⟩, fun o ho hmarked => ?_⟩
  · exact (h.same a ha).trans (hm.same a ha)
  · rw [h.marked o ho, hm.marked o ho]
  · rw [h.enqueued o ho, hm.enqueued o ho]
  · rw [h.forward o (mem_markedOf.2 ⟨ho, (hm.marked o ho).2 hmarked⟩), hkept, placeIn, placeIn,
      wordsBefore, wordsBefore, hwords]
    exact fun x hx => List.mem_of_mem_filter ((List.takeWhile_prefix _).subset hx)

end ComputeLocations

end LamaRv.Gc
