import LamaRv.Runtime.Relocate

/-!
# The sliding move (`gc.c`)

What `compute_locations` and `physically_relocate` do to a heap of any objects, of which any may be
marked: nothing is asked of their fields.

* `Sliding`: the places of the marked objects;
* `CopyOf`: a chunk that holds a copy of the heap;
* `slide_lossless`: the marked objects come to their places as they were.
-/

namespace LamaRv.Gc

/-- The places of some objects: the first is where the heap begins, each ends where the next begins,
they go up, and none is above its object. -/
structure Sliding (heap : MemoryChunk) (m : Mem) (os : List ℕ) (place : ℕ → ℕ) : Prop where
  first : ∀ o ∈ os.head?, place o = heap.begin
  contiguous : os.IsChain fun o o' => place o' = place o + 8 * objWords m o
  increasing : os.Pairwise fun o o' => place o < place o'
  below : ∀ o ∈ os, place o ≤ o

/-- The chunk `heap'` holds what `heap` holds. -/
structure CopyOf (heap : MemoryChunk) (m : Mem) (heap' : MemoryChunk) (m' : Mem) : Prop where
  current : heap'.current = shift heap heap' heap.current
  size : heap.size ≤ heap'.size
  word : ∀ a, heap.begin ≤ a → a + 8 ≤ heap.current → m' (shift heap heap' a) = m a

section Slide

variable {heap heap' : MemoryChunk} {m m₂ m₃ : Mem} {os : List ℕ} {o : ℕ} {place : ℕ → ℕ}

theorem keptOf_markedOf : keptOf os (markedOf m os) = markedOf m os :=
  List.filter_congr fun o ho => by simp [mem_markedOf, ho]

/-- Places that are given by the words before them. -/
theorem Placed.sliding (hos : Placed heap m os)
    (hplace : ∀ o ∈ markedOf m os, place o = placeIn heap.begin m (markedOf m os) o) :
    Sliding heap m (markedOf m os) place := by
  have hnodup : (markedOf m os).Nodup := hos.objects.nodup.filter _
  have hsplit : ∀ xs o ys, markedOf m os = xs ++ o :: ys →
      place o = heap.begin + 8 * totalWords m xs := by
    intro xs o ys h
    have hxs : o ∉ xs := by
      rw [h] at hnodup
      exact fun ho => List.disjoint_of_nodup_append hnodup ho List.mem_cons_self
    rw [hplace o (by simp [h]), placeIn, h, wordsBefore_split hxs]
  have hcontiguous : (markedOf m os).IsChain fun o o' => place o' = place o + 8 * objWords m o := by
    refine List.isChain_iff_forall_rel_of_append_cons_cons.2 fun o o' xs ys h => ?_
    have hnext := hsplit (xs ++ [o]) o' ys (by rw [h, List.append_assoc]; rfl)
    rw [hnext, hsplit xs o (o' :: ys) h, totalWords_append, totalWords_cons, totalWords_nil]
    omega
  refine ⟨?_, hcontiguous, ?_, ?_⟩
  · intro o ho
    obtain ⟨ys, h⟩ := List.head?_eq_some_iff.1 ho
    have := hsplit [] o ys h
    rwa [totalWords_nil, Nat.mul_zero, Nat.add_zero] at this
  · have hup : (markedOf m os).IsChain fun o o' => place o < place o' := by
      refine hcontiguous.imp_of_mem_imp fun o o' ho _ h => ?_
      have := (hos.objects.sound o (mem_markedOf.1 ho).1).two_le_words
      omega
    exact List.pairwise_map.1 (List.isChain_iff_pairwise.1 ((List.isChain_map place).2 hup))
  · intro o ho
    rw [hplace o ho, placeIn]
    exact hos.objects.wordsBefore_filter_le _ (mem_markedOf.1 ho).1 (mem_markedOf.1 ho).2

/-- The copy of a heap whose marked objects know their places. -/
theorem CopyOf.guided (h : CopyOf heap m₂ heap' m₃) (hos : Placed heap m os)
    (hplaced : Placing heap os m os (m₂, heap.begin + 8 * totalWords m (markedOf m os))) :
    Guided heap heap' os m (markedOf m os) m₃ := by
  have hword : ∀ o ∈ os, ∀ k, k + 8 ≤ 16 → m₃ (shift heap heap' o + k) = m₂ (o + k) := by
    intro o ho k hk
    have hbounds := hos.objects.bounds o ho
    have := (hos.objects.sound o ho).two_le_words
    rw [← shift_add hbounds.1]
    exact h.word _ (by omega) (by omega)
  have hcollector : ∀ o ∈ os, m₃ (forwardWord (shift heap heap' o + 16)) = m₂ (forwardWord (o + 16)) := by
    intro o ho
    rw [forwardWord_content, forwardWord_content]
    exact hword o ho 8 le_rfl
  refine ⟨fun o ho => ?_, fun o ho => ?_, fun o ho hmarked => ?_⟩
  · exact (hword o ho 0 (by omega)).trans (hos.objects.header_of_same hplaced.same ho)
  · have hmark : isMarked m₃ (shift heap heap' o + 16) = isMarked m₂ (o + 16) := by
      rw [isMarked, isMarked, hcollector o ho]
    rw [hmark, hplaced.marked o ho, mem_markedOf]
    exact ⟨fun h => ⟨ho, h⟩, And.right⟩
  · rw [keptOf_markedOf, ← hplaced.forward o hmarked, getForwardAddress, getForwardAddress,
      hcollector o ho]

/-- **The sliding move**: `compute_locations` gives the marked objects their places and returns how
many words they take; and in a copy of the heap `physically_relocate` visits every object once, when
nothing from it on has changed, and brings the marked ones to their places as they were, unmarked. -/
theorem slide_lossless (hos : Placed heap m os) (hsize : heap.current ≤ heap.begin + 8 * heap.size) :
    ∃ m₂, computeLocations heap m = some (m₂, totalWords m (markedOf m os)) ∧ SameBut os m m₂ ∧
      Sliding heap m (markedOf m os) (fun o => getForwardAddress m₂ (o + 16)) ∧
      ∀ s : State, CopyOf heap m₂ s.heap s.mem → ∃ visits m₆,
        relocateLogged s.heap heap (s.heap.size + 1) s.heap.begin s.mem = some (visits, m₆) ∧
        physicallyRelocate s heap = some { s with mem := m₆ } ∧
        visits.map Prod.fst = os.map (shift heap s.heap) ∧
        (∀ v ∈ visits, ∀ a, v.1 ≤ a → v.2 a = s.mem a) ∧
        ∀ o ∈ markedOf m os, Moved (objBytes m o) s.mem (shift heap s.heap o) m₆
          (s.heap.begin + (getForwardAddress m₂ (o + 16) - heap.begin)) := by
  have hlen : os.length ≤ heap.size := by
    have := hos.objects.length_le
    omega
  obtain ⟨m₂, hrun, hplaced⟩ := computeLocations_places hos hlen
  refine ⟨m₂, hrun, hplaced.same, hos.sliding hplaced.forward, fun s hcopy => ?_⟩
  have hn : os.length < s.heap.size + 1 := by
    have := hcopy.size
    omega
  obtain ⟨visits, m₆, hloop, hvisits, hahead, hm₆⟩ :=
    relocateLogged_spec hos (hcopy.guided hos hplaced) hcopy.current hn
  refine ⟨visits, m₆, hloop, ?_, hvisits, hahead, fun o ho => ?_⟩
  · have herase := relocateLogged_map s.heap heap (s.heap.size + 1) s.heap.begin s.mem
    rw [hloop, Option.map_some] at herase
    simp only [physicallyRelocate, ← herase, Option.bind_eq_bind, Option.bind_some, Option.pure_def]
  · have hplace : s.heap.begin + (getForwardAddress m₂ (o + 16) - heap.begin) =
        placeIn s.heap.begin m (keptOf os (markedOf m os)) o := by
      rw [hplaced.forward o ho, keptOf_markedOf, placeIn, placeIn, Nat.add_sub_cancel_left]
    rw [hplace]
    exact hm₆.moved o (mem_markedOf.1 ho).1 ho

end Slide

/-- A heap of two strings, of which the second is marked. -/
def slideMem : Mem := fun a =>
  match a with
  | 1024 => 9
  | 1040 => 97
  | 1048 => 17
  | 1056 => 1
  | 1064 => 25442
  | _ => 0

def slideHeap : MemoryChunk := ⟨1024, 1072, 1072, 6⟩

/-- The heap in a chunk of its own. -/
def slideCopy (m : Mem) : State where
  mem a := m (slideHeap.begin + (a - 4096))
  heap := ⟨4096, 4144, 4144, 6⟩
  gcStackTop := 0
  gcStackBottom := 0
  extraRoots := []
  startCustomData := 0
  stopCustomData := 0

theorem slideCopy_mem (m : Mem) {a : ℕ} (ha : slideHeap.begin ≤ a) :
    (slideCopy m).mem (shift slideHeap (slideCopy m).heap a) = m a := by
  have hback : slideHeap.begin + (4096 + (a - slideHeap.begin) - 4096) = a := by omega
  exact congrArg m hback

theorem slide_lossless_strings : ∃ m₂ m₆, computeLocations slideHeap slideMem = some (m₂, 3) ∧
    CopyOf slideHeap m₂ (slideCopy m₂).heap (slideCopy m₂).mem ∧
    physicallyRelocate (slideCopy m₂) slideHeap = some { slideCopy m₂ with mem := m₆ } ∧
    m₆ 4096 = 17 ∧ m₆ (4096 + 16) % 256 ^ 3 = 25442 := by
  have hos : Placed slideHeap slideMem [1024, 1048] := ⟨by decide, by decide⟩
  obtain ⟨m₂, hrun, hsame, hsliding, hmove⟩ := slide_lossless hos (by decide)
  have hkept : markedOf slideMem [1024, 1048] = [1048] := by decide
  have hbytes : objBytes slideMem 1048 = 19 := by decide
  have hwords : totalWords slideMem [1048] = 3 := by decide
  have hcopy : CopyOf slideHeap m₂ (slideCopy m₂).heap (slideCopy m₂).mem :=
    ⟨rfl, Nat.le_refl 6, fun a ha _ => slideCopy_mem m₂ ha⟩
  obtain ⟨visits, m₆, -, hrelocate, -, -, hmoved⟩ := hmove (slideCopy m₂) hcopy
  rw [hkept] at hrun hsliding hmoved
  rw [hwords] at hrun
  have hplace : (slideCopy m₂).heap.begin +
      (getForwardAddress m₂ (1048 + 16) - slideHeap.begin) = 4096 := by
    rw [hsliding.first 1048 rfl, Nat.sub_self]
    rfl
  have h := hmoved 1048 List.mem_cons_self
  rw [hbytes, hplace] at h
  refine ⟨m₂, m₆, hrun, hcopy, hrelocate, ?_, ?_⟩
  · rw [h.header, slideCopy_mem m₂ (by decide), hsame 1048 (by decide)]
    rfl
  · have hlast := h.last 16 (by omega) (by omega) (by omega)
    rw [← shift_add (by decide), slideCopy_mem m₂ (by decide), hsame (1048 + 16) (by decide)] at hlast
    exact hlast

end LamaRv.Gc
