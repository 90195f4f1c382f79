import LamaRv.Runtime.Alloc
import LamaRv.Runtime.Roots

/-!
# Functions of the runtime that allocate (`runtime.c`)

Such a function keeps the words with its arguments among the extra roots while it allocates an object.
The allocation may move what the arguments refer to; the words refer to the new places then.

* `withRoots`: an allocation with some more extra roots;
* `Ready`: a state in which such a function is called;
* `Made`: the state afterwards, with a new object;
* `made_of`: what is written into the new object changes nothing else.
-/

namespace LamaRv.Gc

open Marking

/-- A word as an `aint`. -/
def aint (w : ℕ) : ℤ := (w : ℤ).bmod (2 ^ 64)

/-- `UNBOX`, an arithmetic shift. -/
def unbox (w : ℕ) : ℤ := aint w / 2

/-- `BOX`. -/
def box (x : ℤ) : ℕ := toSizeT (2 * x + 1)

/-- With some more extra roots, which are taken away afterwards. -/
def withRoots (roots : List ℕ) (body : State → Option (State × ℕ)) (s : State) :
    Option (State × ℕ) := do
  let s ← pushExtraRoots roots s
  let (s, r) ← body s
  return (← popExtraRoots roots.reverse s, r)

/-- A state in which a function allocates an object of some words, with the words `roots` among the
extra roots: a collection can be made then, and `roots` lie outside of the heap.  So do the words
`others`, which are not pointers. -/
structure Ready (mmap : ℕ → ℕ) (s : State) (os : List ℕ) (frame : ℕ) (roots others : List ℕ)
    (size : ℕ) : Prop where
  framed : Framed s frame
  nonempty : (s.enter frame).gcStackTop < s.gcStackBottom
  collectable : Collectable (s.during frame roots) os
  areas : RootWords (s.during frame roots)
  rooted : Rooted (s.during frame roots)
  chunk : s.heap.endPtr = s.heap.begin + 8 * s.heap.size
  room : 8 * (2 * s.heap.size + size) < 2 ^ 64
  pool : s.extraRoots.length + roots.length ≤ maxExtraRootsNumber
  heap : ∀ a ∈ roots ++ others, a + 8 ≤ s.heap.begin ∨ s.heap.endPtr ≤ a
  fresh : ∀ k, Fresh (s.during frame roots) (mmap (8 * k)) k
  apart : ∀ a ∈ others, ∀ k, a + 8 ≤ mmap (8 * k) ∨ mmap (8 * k) + 8 * k ≤ a
  plain : ∀ a ∈ others, isValidHeapPointer s.heap (s.mem a) = false

/-- In `s'` there is a new object at `p`, of some kind and length.  What the words `roots` reach is
among the objects `kept`, which have gone to their places; where the roots are is as it was. -/
structure Made (s : State) (t : LamaType) (len : ℕ) (roots kept : List ℕ) (place : ℕ → ℕ) (s' : State)
    (p : ℕ) : Prop where
  kind : getTypeRowPtr s'.mem p = some t
  length : Gc.len (s'.mem (toData p)) = len
  objects : Objects s'.mem s'.heap.begin (kept.map place ++ [toData p]) s'.heap.current
  reach : ∀ a ∈ roots, isValidHeapPointer s.heap (s.mem a) = true →
    ∀ o, Reaches (targets s.heap s.mem) (s.mem a - 16) o → o ∈ kept
  survives : Survives s s' kept place
  rest : s' = { s with mem := s'.mem, heap := s'.heap }

/-- There is room in the heap, or a collection updates the words `roots` that are pointers. -/
def RootsUpdated (s : State) (frame : ℕ) (roots : List ℕ) (size : ℕ) : Prop :=
  s.heap.current + 8 * size ≤ s.heap.endPtr ∨ ∀ a ∈ roots,
    isValidHeapPointer s.heap (s.mem a) = true → a ∈ fixedWords (s.during frame roots)

/-- A boxed number. -/
theorem unbox_box {n : ℕ} (h : n < 2 ^ 62) : unbox (2 * n + 1) = n := by
  have hsmall : aint (2 * n + 1) = 2 * (n : ℤ) + 1 := by
    unfold aint
    push_cast
    exact Int.bmod_eq_of_le (by omega) (by omega)
  rw [unbox, hsmall]
  omega

theorem unbox_boxed {n : ℕ} (h : n < 2 ^ 62) : unbox (box n) = n := by
  have hword : box n = 2 * n + 1 := by
    have := toSizeT_natCast (i := 2 * n + 1) (by omega)
    rw [box, ← this]
    push_cast
    rfl
  rw [hword, unbox_box h]

section Calls

variable {mmap : ℕ → ℕ} {s s₁ s₂ : State} {os kept roots others : List ℕ} {place : ℕ → ℕ}
  {frame size len : ℕ} {t : LamaType} {body : State → Option (State × ℕ)}

@[simp] theorem during_mem (roots : List ℕ) : (s.during frame roots).mem = s.mem := enter_mem

@[simp] theorem during_heap (roots : List ℕ) : (s.during frame roots).heap = s.heap := enter_heap

theorem during_extraRoots (roots : List ℕ) :
    (s.during frame roots).extraRoots = s.extraRoots ++ roots := rfl

theorem Ready.mem_rootWords (h : Ready mmap s os frame roots others size) {a : ℕ} (ha : a ∈ roots) :
    a ∈ rootWords (s.during frame roots) :=
  h.areas.mem_rootWords.2 (.inr (.inl (List.mem_append_right _ ha)))

/-- A pointer in one of the words points to an object. -/
theorem Ready.pointer (h : Ready mmap s os frame roots others size) {a : ℕ} (ha : a ∈ roots)
    (hvalid : isValidHeapPointer s.heap (s.mem a) = true) : ∃ o ∈ os, s.mem a = o + 16 := by
  have hobject := h.collectable.roots a (h.mem_rootWords ha)
  rw [during_mem, during_heap] at hobject
  exact hobject hvalid

theorem withRoots_spec (hroom : s.extraRoots.length + roots.length ≤ maxExtraRootsNumber)
    (hstack : s.gcStackTop < s.gcStackBottom) {r : ℕ}
    (hbody : body { s with extraRoots := s.extraRoots ++ roots } = some (s₂, r))
    (hextra : s₂.extraRoots = s.extraRoots ++ roots) :
    withRoots roots body s = some ({ s₂ with extraRoots := s.extraRoots }, r) := by
  have hpush := pushExtraRoots_spec roots s hroom fun p _ => by omega
  have hpop := popExtraRoots_spec roots s.extraRoots s₂ hextra
  simp only [withRoots, hpush, hbody, hpop, Option.bind_eq_bind, Option.bind_some, Option.pure_def]

theorem withRoots_run (h : Ready mmap s os frame roots others size)
    (hrest : s₂ = { s.during frame roots with mem := s₂.mem, heap := s₂.heap }) {r : ℕ}
    (hbody : body (s.during frame roots) = some (s₂, r)) :
    withRoots roots body (s.enter frame) =
      some ({ s.enter frame with mem := s₂.mem, heap := s₂.heap }, r) := by
  have hduring : { s.enter frame with extraRoots := (s.enter frame).extraRoots ++ roots } =
      s.during frame roots := by rw [enter_extraRoots]; rfl
  have hnonempty := h.nonempty
  have hrun := withRoots_spec (s := s.enter frame) (by rw [enter_extraRoots]; exact h.pool)
    (by rwa [enter_gcStackBottom]) (by rw [hduring]; exact hbody)
    (by rw [hrest, during_extraRoots, enter_extraRoots])
  rw [hrun, hrest]
  rfl

/-- `POST_GC` after the object has been written. -/
theorem Ready.postGc (h : Ready mmap s os frame roots others size) (m : Mem) (heap : MemoryChunk) :
    postGc frame (s.gcStackTop == 0) { s.enter frame with mem := m, heap := heap } =
      some { s with mem := m, heap := heap } := by
  refine (postGc_spec h.framed (t := { s.enter frame with mem := m, heap := heap }) rfl).trans ?_
  simp only [enter_gcStackBottom, enter_startCustomData, enter_stopCustomData, enter_extraRoots]

/-- After a collection the heap is somewhere else. -/
theorem Makes.heap (h : Makes mmap s s₁ place size) : (s₁ = s ∧ place = id) ∨
    s₁.heap.begin = mmap (8 * s₁.heap.size) := by
  obtain ⟨-, heq, hplace⟩ | ⟨-, hbegin⟩ := h
  · exact .inl ⟨heq, hplace⟩
  · exact .inr hbegin

/-- The words lie outside of the heap, also after a collection. -/
theorem Ready.outside (h : Ready mmap s os frame roots others size)
    (hrel : Relocates (s.during frame roots) os kept place s₁)
    (hmakes : Makes mmap (s.during frame roots) s₁ place size) :
    ∀ a ∈ roots ++ others, a + 8 ≤ s₁.heap.begin ∨ s₁.heap.endPtr ≤ a := by
  intro a ha
  obtain ⟨rfl, -⟩ | hbegin := hmakes.heap
  · rw [during_heap]
    exact h.heap a ha
  · rw [hrel.chunk, hbegin]
    rcases List.mem_append.1 ha with ha | ha
    · exact (h.fresh _).roots a (.inl (h.mem_rootWords ha))
    · exact h.apart a ha _

/-- A word that a collection does not update is as it was. -/
theorem Ready.unchanged (h : Ready mmap s os frame roots others size)
    (hrel : Relocates (s.during frame roots) os kept place s₁)
    (hmakes : Makes mmap (s.during frame roots) s₁ place size) {a : ℕ} (ha : a ∈ roots ++ others)
    (hfixed : a ∉ fixedWords (s.during frame roots)) : s₁.mem a = s.mem a := by
  have hheap := h.heap a ha
  have hsize := h.collectable.formed.size
  have hchunk := h.chunk
  rw [hrel.frame a hfixed _ (h.outside hrel hmakes a ha), during_mem]
  intro o ho heq
  have hbounds := h.collectable.formed.objects.bounds o ho
  have hwords := (h.collectable.formed.objects.sound o ho).two_le_words
  rw [during_heap] at hsize hbounds
  omega

/-- A word that is not a pointer is as it was. -/
theorem Ready.other_eq (h : Ready mmap s os frame roots others size)
    (hrel : Relocates (s.during frame roots) os kept place s₁)
    (hmakes : Makes mmap (s.during frame roots) s₁ place size) : ∀ a ∈ others, s₁.mem a = s.mem a := by
  intro a ha
  have hplain := h.plain a ha
  by_cases hfixed : a ∈ fixedWords (s.during frame roots)
  · rw [hrel.roots a hfixed, during_mem, during_heap, image_of_not_valid]
    simp [hplain]
  · exact h.unchanged hrel hmakes (List.mem_append_right _ ha) hfixed

/-- What one of the words is after the allocation. -/
theorem Ready.root_eq (h : Ready mmap s os frame roots others size)
    (hrel : Relocates (s.during frame roots) os kept place s₁)
    (hmakes : Makes mmap (s.during frame roots) s₁ place size) {a : ℕ} (ha : a ∈ roots) :
    s₁.mem a = if a ∈ fixedWords (s.during frame roots) then image s.heap place (s.mem a)
      else s.mem a := by
  by_cases hfixed : a ∈ fixedWords (s.during frame roots)
  · rw [if_pos hfixed, hrel.roots a hfixed, during_mem, during_heap]
  · rw [if_neg hfixed]
    exact h.unchanged hrel hmakes (List.mem_append_left _ ha) hfixed

/-- The words are not touched by the allocation of the object. -/
theorem Ready.grown_eq (h : Ready mmap s os frame roots others size)
    (hrel : Relocates (s.during frame roots) os kept place s₁)
    (hmakes : Makes mmap (s.during frame roots) s₁ place size) (hgrown : Grown s₁ t len s₂) :
    ∀ a ∈ roots ++ others,
      (a < s₁.heap.current ∨ s₂.heap.current ≤ a) ∧ s₂.mem a = s₁.mem a := by
  intro a ha
  have hout := h.outside hrel hmakes a ha
  have hle := hrel.objects.le
  have hroom := hgrown.room
  have hend : s₂.heap.endPtr = s₁.heap.endPtr := by rw [hgrown.rest]
  have hlow : a < s₁.heap.current ∨ s₂.heap.current ≤ a := by omega
  exact ⟨hlow, hgrown.frame a hlow⟩

/-- A function that writes the object that it has allocated. -/
theorem made_of {m : Mem} (h : Ready mmap s os frame roots others size) (hsmall : t.bytes len < 2 ^ 64)
    (hrel : Relocates (s.during frame roots) os kept place s₁) (hgrown : Grown s₁ t len s₂)
    (hm : ∀ a, a < s₁.heap.current + 16 ∨ s₂.heap.current ≤ a → m a = s₂.mem a) :
    Made s t len roots kept place { s with mem := m, heap := s₂.heap } (s₁.heap.current + 16) := by
  have hwritten : Grown s₁ t len { s₂ with mem := m } := hgrown.write hm
  have hdata : toData (s₁.heap.current + 16) = s₁.heap.current := by simp [toData, dataHeaderSz]
  have hsurvives := hrel.survives.congr hrel.objects fun a ha => hwritten.frame a (.inl ha)
  have hheader : m s₁.heap.current = t.tag ||| len <<< 3 := hwritten.header
  refine ⟨?_, ?_, ?_, ?_, ?_, rfl⟩
  · rw [getTypeRowPtr, hdata]
    exact getTypeHeaderPtr_of_header hheader
  · rw [hdata]
    exact (congrArg Gc.len hheader).trans (len_header t.tag_lt)
  · rw [hdata]
    exact hwritten.objects hrel.objects hsmall
  · intro a ha hvalid o hreach
    refine hrel.live o ⟨a, h.mem_rootWords ha, ?_⟩
    rw [during_mem, during_heap]
    exact ⟨hvalid, hreach⟩
  · have hheader := hsurvives.header
    have hcontent := hsurvives.content
    have hlast := hsurvives.last
    rw [during_mem] at hheader hcontent hlast
    rw [during_heap] at hcontent
    exact ⟨hheader, hcontent, hlast⟩

/-- A word that is a pointer and has not been updated by a collection does not point into the new
heap. -/
theorem Ready.not_updated (h : Ready mmap s os frame roots others size)
    (hrel : Relocates (s.during frame roots) os kept place s₁)
    (hbegin : s₁.heap.begin = mmap (8 * s₁.heap.size)) {a : ℕ} (ha : a ∈ roots)
    (hvalid : isValidHeapPointer s.heap (s.mem a) = true) {o : ℕ}
    (ho : s₁.heap.begin ≤ o ∧ o < s₁.heap.endPtr) : s.mem a ≠ o + 16 := by
  intro heq
  have hfresh := (h.fresh s₁.heap.size).heap
  have hsize := h.collectable.formed.size
  obtain ⟨o', ho', heq'⟩ := h.pointer ha hvalid
  obtain rfl : o' = o := by omega
  have hbounds := h.collectable.formed.objects.bounds o' ho'
  have hwords := (h.collectable.formed.objects.sound o' ho').two_le_words
  rw [during_heap] at hfresh hsize hbounds
  rw [hrel.chunk, hbegin] at ho
  omega

/-- The words hold the images of the arguments, with the objects at some places, only if they have been
updated. -/
theorem Made.updated {m : Mem} {kept' : List ℕ} {place' : ℕ → ℕ} {p n : ℕ} {t' : LamaType}
    (hmade : Made s t len roots kept' place' { s with mem := m, heap := s₂.heap } p)
    (h : Ready mmap s os frame roots others size)
    (hrel : Relocates (s.during frame roots) os kept place s₁)
    (hmakes : Makes mmap (s.during frame roots) s₁ place size) (hgrown : Grown s₁ t' n s₂)
    (hroots : ∀ a ∈ roots, s₁.mem a = image s.heap place' (s.mem a)) :
    RootsUpdated s frame roots size := by
  obtain ⟨hfits, -⟩ | ⟨-, hbegin⟩ := id hmakes
  · rw [during_heap] at hfits
    exact .inl hfits
  · refine .inr fun a ha hvalid => ?_
    by_contra hfixed
    have hroot := hroots a ha
    rw [h.root_eq hrel hmakes ha, if_neg hfixed, image_of_valid hvalid] at hroot
    -- the object would be at its new place
    have hkept := hmade.reach a ha hvalid _ .refl
    have hmem := List.mem_append_left [toData p] (List.mem_map_of_mem (f := place') hkept)
    have hbounds := hmade.objects.bounds _ hmem
    have hwords := (hmade.objects.sound _ hmem).two_le_words
    have hroom := hgrown.room
    have hfirst : s₂.heap.begin = s₁.heap.begin := by rw [hgrown.rest]
    have hend : s₂.heap.endPtr = s₁.heap.endPtr := by rw [hgrown.rest]
    dsimp only at hbounds hwords
    exact h.not_updated hrel hbegin ha hvalid ⟨by omega, by omega⟩ hroot

/-- The words hold the images of the arguments if they have been updated. -/
theorem RootsUpdated.image_eq (hup : RootsUpdated s frame roots size)
    (h : Ready mmap s os frame roots others size)
    (hrel : Relocates (s.during frame roots) os kept place s₁)
    (hmakes : Makes mmap (s.during frame roots) s₁ place size) :
    ∀ a ∈ roots, s₁.mem a = image s.heap place (s.mem a) := by
  intro a ha
  rw [h.root_eq hrel hmakes ha]
  split_ifs with hfixed
  · rfl
  · rcases hup with hfits | hup
    · obtain ⟨-, -, rfl⟩ | ⟨hfull, -⟩ := hmakes
      · rw [image_id]
        intro hvalid
        obtain ⟨o, -, heq⟩ := h.pointer ha hvalid
        exact ⟨o, heq⟩
      · rw [during_heap] at hfull
        omega
    · rw [image_of_not_valid]
      exact fun hvalid => hfixed (hup a ha hvalid)

/-- The object that is allocated. -/
theorem Ready.allocates (h : Ready mmap s os frame roots others (words (t.bytes len)))
    (hlen : 8 * len < 2 ^ 64) : ∃ kept place s₁ s₂,
      Relocates (s.during frame roots) os kept place s₁ ∧
      Makes mmap (s.during frame roots) s₁ place (words (t.bytes len)) ∧ Grown s₁ t len s₂ ∧
      (∀ a, s₁.heap.current + 16 ≤ a → a < s₂.heap.current → s₂.mem a = 0) ∧
      allocObject t (fun k => some (mmap k)) (s.during frame roots) len =
        some (s₂, s₁.heap.current) := by
  have hchunk := h.chunk
  have hroom := h.room
  exact allocObject_spec h.collectable h.rooted (by rwa [during_heap]) hlen (by rwa [during_heap])
    h.fresh

theorem Relocates.during_rest (hrel : Relocates (s.during frame roots) os kept place s₁)
    (hgrown : Grown s₁ t len s₂) :
    s₂ = { s.during frame roots with mem := s₂.mem, heap := s₂.heap } := by
  rw [hgrown.rest, hrel.rest]

end Calls

end LamaRv.Gc
