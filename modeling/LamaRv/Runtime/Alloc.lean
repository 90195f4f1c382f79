import LamaRv.Runtime.Collect

/-!
# Allocation and extra roots (`gc.c`, `runtime.c`)

An object is put at the end of the heap; if there is no room, a collection is made first.  The
functions of the runtime keep the pointers that they need afterwards among the extra roots.

* `alloc`, `allocString` and so on, `pushExtraRoot`, `popExtraRoot`, `preGc`, `postGc`: the code;
* `Relocates`: objects that have been moved, or stand where they were;
* `Grown`: a heap with one more object;
* `allocObject_spec`: an allocation moves objects, and then puts a new one behind them.
-/

namespace LamaRv.Gc

open Marking

/-! ### The code -/

/-- `gc_alloc_on_existing_heap`; nothing in place of `NULL`.  The sum of the pointer and the size is not
reduced modulo `2^64`: a size for which it would wrap is refused here. -/
def gcAllocOnExistingHeap (s : State) (size : ℕ) : Option (State × ℕ) :=
  if s.heap.current + 8 * size ≤ s.heap.endPtr then
    let p := s.heap.current
    some ({ s with
      mem := s.mem.clear p size
      heap := { s.heap with current := p + 8 * size } }, p)
  else none

def gcAlloc (mmap : ℕ → Option ℕ) (s : State) (size : ℕ) : Option (State × ℕ) := do
  gcAllocOnExistingHeap (← collect mmap s size) size

/-- `alloc`.  If it fails, the program is killed where the header is written. -/
def alloc (mmap : ℕ → Option ℕ) (s : State) (size : ℕ) : Option (State × ℕ) :=
  let size := bytesToWords size
  match gcAllocOnExistingHeap s size with
  | some r => some r
  | none => gcAlloc mmap s size

/-- What `alloc_string`, `alloc_array` and `alloc_closure` have in common: an object of some kind and
length. -/
def allocObject (t : LamaType) (mmap : ℕ → Option ℕ) (s : State) (len : ℕ) : Option (State × ℕ) := do
  let (s, obj) ← alloc mmap s (t.size len)
  let m := s.mem.set obj (t.tag ||| toSizeT (len <<< 3 : ℕ))
  return ({ s with mem := m.set (obj + 8) 0 }, obj)

def allocString := allocObject .string

def allocArray := allocObject .array

def allocClosure := allocObject .closure

/-- `alloc_sexp`, which also writes the field `tag`. -/
def allocSexp (mmap : ℕ → Option ℕ) (s : State) (members : ℕ) : Option (State × ℕ) := do
  let (s, obj) ← allocObject .sexp mmap s members
  return ({ s with mem := s.mem.set (obj + 16) 0 }, obj)

def maxExtraRootsNumber : ℕ := 32

/-- `push_extra_root`.  The last condition is an assertion. -/
def pushExtraRoot (p : ℕ) (s : State) : Option State := do
  guard (s.extraRoots.length < maxExtraRootsNumber)
  guard (p ≥ s.gcStackTop ∨ p < s.gcStackBottom)
  return { s with extraRoots := s.extraRoots ++ [p] }

/-- `pop_extra_root`. -/
def popExtraRoot (p : ℕ) (s : State) : Option State := do
  let q ← s.extraRoots.getLast?
  guard (q = p)
  return { s with extraRoots := s.extraRoots.dropLast }

/-- Some extra roots, one after the other. -/
def pushExtraRoots : List ℕ → State → Option State
  | [], s => some s
  | p :: ps, s => do pushExtraRoots ps (← pushExtraRoot p s)

def popExtraRoots : List ℕ → State → Option State
  | [], s => some s
  | p :: ps, s => do popExtraRoots ps (← popExtraRoot p s)

/-- `PRE_GC` in a function with some frame address; also `flag`. -/
def preGc (frame : ℕ) (s : State) : Option (State × Bool) := do
  let flag := s.gcStackTop == 0
  let s := if flag then { s with gcStackTop := frame } else s
  guard (s.gcStackTop ≠ 0)
  guard (s.gcStackTop &&& 15 = 0)
  guard (frame ≤ s.gcStackTop)
  return (s, flag)

/-- `POST_GC`. -/
def postGc (frame : ℕ) (flag : Bool) (s : State) : Option State := do
  guard (frame ≤ s.gcStackTop)
  return if flag then { s with gcStackTop := 0 } else s

/-! ### Objects that are moved -/

/-- What a word becomes when the objects of a heap go to their places. -/
def image (heap : MemoryChunk) (place : ℕ → ℕ) (v : ℕ) : ℕ :=
  if isValidHeapPointer heap v then place (v - 16) + 16 else v

/-- The objects `kept` of the state `s` are found in `s'`, at their places, with their contents. -/
structure Survives (s s' : State) (kept : List ℕ) (place : ℕ → ℕ) : Prop where
  header : ∀ o ∈ kept, s'.mem (place o) = s.mem o
  content : ∀ o ∈ kept, ∀ k, 16 ≤ k → k + 8 ≤ objBytes s.mem o → s'.mem (place o + k) =
    if o + k ∈ fields s.mem o then image s.heap place (s.mem (o + k)) else s.mem (o + k)
  last : ∀ o ∈ kept, ∀ k, 16 ≤ k → k % 8 = 0 → k < objBytes s.mem o → objBytes s.mem o < k + 8 →
    s'.mem (place o + k) % 256 ^ (objBytes s.mem o - k) = s.mem (o + k) % 256 ^ (objBytes s.mem o - k)

/-- What the roots of `s` reach is among the objects `kept`, which have gone to their places. -/
structure Relocates (s : State) (os kept : List ℕ) (place : ℕ → ℕ) (s' : State) : Prop where
  mem_os : ∀ o ∈ kept, o ∈ os
  live : ∀ o, Live s o → o ∈ kept
  rest : s' = { s with mem := s'.mem, heap := s'.heap }
  aligned : s'.heap.begin % 8 = 0
  chunk : s'.heap.endPtr = s'.heap.begin + 8 * s'.heap.size
  objects : Objects s'.mem s'.heap.begin (kept.map place) s'.heap.current
  survives : Survives s s' kept place
  roots : ∀ a ∈ fixedWords s, s'.mem a = image s.heap place (s.mem a)
  frame : ∀ a, a ∉ fixedWords s → (∀ o ∈ os, a ≠ o + 8) →
    a + 8 ≤ s'.heap.begin ∨ s'.heap.endPtr ≤ a → s'.mem a = s.mem a

/-- `s'` is `s` with one more object at the end, of some kind and length. -/
structure Grown (s : State) (t : LamaType) (n : ℕ) (s' : State) : Prop where
  rest : s' = { s with
    mem := s'.mem
    heap := { s.heap with current := s.heap.current + 8 * words (t.bytes n) } }
  room : s'.heap.current ≤ s'.heap.endPtr
  header : s'.mem s.heap.current = t.tag ||| n <<< 3
  collector : s'.mem (s.heap.current + 8) = 0
  frame : ∀ a, a < s.heap.current ∨ s'.heap.current ≤ a → s'.mem a = s.mem a

/-! ### Moving nothing, and a collection -/

section Relocates

variable {s s' : State} {os kept : List ℕ} {place : ℕ → ℕ} {additionalSize : ℕ}

theorem image_of_valid {heap : MemoryChunk} {v : ℕ} (h : isValidHeapPointer heap v = true) :
    image heap place v = place (v - 16) + 16 := if_pos h

theorem image_of_not_valid {heap : MemoryChunk} {v : ℕ} (h : isValidHeapPointer heap v ≠ true) :
    image heap place v = v := if_neg h

theorem image_id {heap : MemoryChunk} {v : ℕ}
    (h : isValidHeapPointer heap v = true → ∃ o, v = o + 16) : image heap id v = v := by
  by_cases hvalid : isValidHeapPointer heap v = true
  · obtain ⟨o, rfl⟩ := h hvalid
    rw [image_of_valid hvalid]
    simp
  · exact image_of_not_valid hvalid

/-- Nothing is moved. -/
theorem Relocates.refl (h : Collectable s os) (hr : Rooted s)
    (hchunk : s.heap.endPtr = s.heap.begin + 8 * s.heap.size) : Relocates s os os id s where
  mem_os _ ho := ho
  live _ ho := h.mem_of_live ho
  rest := rfl
  aligned := h.formed.aligned
  chunk := hchunk
  objects := by
    rw [List.map_id]
    exact h.formed.objects
  survives :=
    { header := fun _ _ => rfl
      content := fun o ho k _ _ => by
        by_cases hf : o + k ∈ fields s.mem o
        · rw [if_pos hf, image_id]
          · rfl
          · intro hvalid
            obtain ⟨o', -, heq⟩ := h.formed.pointers o ho _ hf hvalid
            exact ⟨o', heq⟩
        · rw [if_neg hf]
          rfl
      last := fun _ _ _ _ _ _ _ => rfl }
  roots a ha := by
    rw [image_id]
    intro hvalid
    obtain ⟨o, -, heq⟩ := h.roots a (hr.marked a ha hvalid) hvalid
    exact ⟨o, heq⟩
  frame _ _ _ _ := rfl

/-- A collection. -/
theorem Collected.relocates (hc : Collected s os kept additionalSize s') :
    Relocates s os kept (newPlace s s' kept) s' where
  mem_os _ ho := hc.sublist.subset ho
  live _ ho := (hc.live _).2 ho
  rest := hc.rest
  aligned := hc.fresh.aligned
  chunk := hc.chunk
  objects := hc.objects
  survives := ⟨hc.header, hc.content, hc.last⟩
  roots := hc.roots
  frame a ha hne hout := hc.frame a ha hne (by rwa [← hc.chunk])

/-- After a collection there is room for the words that it was made for. -/
theorem Collected.fits (hc : Collected s os kept additionalSize s') :
    s'.heap.current + 8 * additionalSize ≤ s'.heap.endPtr := by
  have := hc.current
  have := hc.room
  have := hc.chunk
  omega

/-- What survives does not depend on words behind the objects. -/
theorem Survives.congr {t : State} (hs : Survives s s' kept place)
    (h : Objects s'.mem s'.heap.begin (kept.map place) s'.heap.current)
    (hmem : ∀ a, a < s'.heap.current → t.mem a = s'.mem a) : Survives s t kept place := by
  have hbound : ∀ o ∈ kept, ∀ k, k < objBytes s.mem o → place o + k < s'.heap.current := by
    intro o ho k hk
    have hplace : place o ∈ kept.map place := List.mem_map_of_mem ho
    have := (h.sound _ hplace).bytes_le_words
    have := h.bounds _ hplace
    rw [objWords_congr (hs.header o ho), objBytes_congr (hs.header o ho)] at *
    omega
  refine ⟨fun o ho => ?_, fun o ho k hk hle => ?_, fun o ho k hk halign hlt hlast => ?_⟩
  · have hpos : 0 < objBytes s.mem o := by
      have := (h.sound _ (List.mem_map_of_mem ho)).le_bytes
      rw [objBytes_congr (hs.header o ho)] at this
      omega
    exact (hmem _ (hbound o ho 0 hpos)).trans (hs.header o ho)
  · rw [hmem _ (hbound o ho k (by omega))]
    exact hs.content o ho k hk hle
  · rw [hmem _ (hbound o ho k hlt)]
    exact hs.last o ho k hk halign hlt hlast

end Relocates

/-! ### One more object -/

section Grown

variable {s s' : State} {os : List ℕ} {t : LamaType} {m : Mem} {n o : ℕ}

theorem LamaType.tag_lt (t : LamaType) : t.tag < 8 := by
  cases t <;> decide

theorem getTypeHeaderPtr_of_header (h : m o = t.tag ||| n <<< 3) : getTypeHeaderPtr m o = some t := by
  rw [getTypeHeaderPtr, h, tag_header t.tag_lt]
  cases t <;> rfl

theorem objBytes_of_header (h : m o = t.tag ||| n <<< 3) : objBytes m o = t.bytes n := by
  rw [objBytes, getTypeHeaderPtr_of_header h, h, len_header t.tag_lt]

theorem Grown.current (hg : Grown s t n s') :
    s'.heap.current = s.heap.current + 8 * words (t.bytes n) := by
  rw [hg.rest]

theorem Grown.objects (hg : Grown s t n s') (hos : Objects s.mem s.heap.begin os s.heap.current)
    (hn : t.bytes n < 2 ^ 64) :
    Objects s'.mem s'.heap.begin (os ++ [s.heap.current]) s'.heap.current := by
  have hbegin : s'.heap.begin = s.heap.begin := by rw [hg.rest]
  have hbytes := objBytes_of_header hg.header
  have hsound : Sound s'.mem s.heap.current :=
    ⟨by rw [getTypeHeaderPtr_of_header hg.header]; rfl, by rwa [hbytes]⟩
  rw [hbegin, objects_append]
  refine ⟨s.heap.current, hos.congr fun o ho => hg.frame o (.inl ?_), .cons hsound ?_⟩
  · have := hos.bounds o ho
    have := (hos.sound o ho).two_le_words
    omega
  · rw [objWords, hbytes, ← hg.current]
    exact .nil _

/-- The contents of the new object are written. -/
theorem Grown.write (hg : Grown s t n s')
    (hm : ∀ a, a < s.heap.current + 16 ∨ s'.heap.current ≤ a → m a = s'.mem a) :
    Grown s t n { s' with mem := m } where
  rest := by
    have := hg.rest
    rw [this]
  room := hg.room
  header := (hm _ (.inl (by omega))).trans hg.header
  collector := (hm _ (.inl (by omega))).trans hg.collector
  frame a ha := by
    have := hg.current
    exact (hm a (by rcases ha with ha | ha <;> [exact .inl (by omega); exact .inr ha])).trans
      (hg.frame a ha)

end Grown

/-! ### The functions -/

section Alloc

variable {s s₁ : State} {os : List ℕ} {mmap : ℕ → ℕ}

/-- The state in which some words have been put at the end of the heap. -/
def State.bump (s : State) (size : ℕ) : State :=
  { s with
    mem := s.mem.clear s.heap.current size
    heap := { s.heap with current := s.heap.current + 8 * size } }

theorem gcAllocOnExistingHeap_eq {size : ℕ} (h : s.heap.current + 8 * size ≤ s.heap.endPtr) :
    gcAllocOnExistingHeap s size = some (s.bump size, s.heap.current) := if_pos h

/-- There is room in the heap. -/
theorem alloc_of_room {mmap : ℕ → Option ℕ} {b : ℕ} (hb : 0 < b) (hb' : b < 2 ^ 64)
    (hfits : s.heap.current + 8 * words b ≤ s.heap.endPtr) :
    alloc mmap s b = some (s.bump (words b), s.heap.current) := by
  simp only [alloc, bytesToWords_eq hb hb', gcAllocOnExistingHeap_eq hfits]

/-- There is room in the heap after a collection. -/
theorem alloc_of_collect {mmap : ℕ → Option ℕ} {b : ℕ} (hb : 0 < b) (hb' : b < 2 ^ 64)
    (hfull : s.heap.endPtr < s.heap.current + 8 * words b) (hcollect : collect mmap s (words b) = some s₁)
    (hroom : s₁.heap.current + 8 * words b ≤ s₁.heap.endPtr) :
    alloc mmap s b = some (s₁.bump (words b), s₁.heap.current) := by
  have hnone : gcAllocOnExistingHeap s (words b) = none := if_neg (not_le.2 hfull)
  simp only [alloc, bytesToWords_eq hb hb', hnone, gcAlloc, hcollect, Option.bind_eq_bind,
    Option.bind_some, gcAllocOnExistingHeap_eq hroom]

/-- The header of the new object is written. -/
theorem allocObject_of_alloc {mmap : ℕ → Option ℕ} {t : LamaType} {n : ℕ} (hn : 8 * n < 2 ^ 64)
    (hbytes : t.bytes n < 2 ^ 64) (hroom : s₁.heap.current + 8 * words (t.bytes n) ≤ s₁.heap.endPtr)
    (halloc : alloc mmap s (t.bytes n) = some (s₁.bump (words (t.bytes n)), s₁.heap.current)) :
    ∃ s', allocObject t mmap s n = some (s', s₁.heap.current) ∧ Grown s₁ t n s' ∧
      ∀ a, s₁.heap.current + 16 ≤ a → a < s'.heap.current → s'.mem a = 0 := by
  have hle := t.le_bytes n
  have hwords : 2 ≤ words (t.bytes n) := by
    unfold words
    omega
  have hheader : toSizeT ((n <<< 3 : ℕ) : ℤ) = n <<< 3 :=
    toSizeT_natCast (by rw [Nat.shiftLeft_eq]; omega)
  refine ⟨_, by
    simp only [allocObject, LamaType.size_eq hbytes, halloc, hheader, Option.bind_eq_bind,
      Option.bind_some, Option.pure_def]; rfl, ⟨rfl, hroom, ?_, Mem.set_self _ _ _, fun a ha => ?_⟩,
    fun a hlow hhigh => ?_⟩
  · exact (Mem.set_of_ne _ _ (by omega)).trans (Mem.set_self _ _ _)
  · dsimp only [State.bump] at ha ⊢
    rw [Mem.set_of_ne _ _ (by omega), Mem.set_of_ne _ _ (by omega), Mem.clear, if_neg (by omega)]
  · dsimp only [State.bump] at hhigh ⊢
    rw [Mem.set_of_ne _ _ (by omega), Mem.set_of_ne _ _ (by omega), Mem.clear, if_pos (by omega)]

/-- Either there is room in the heap, or a collection leads to the state `s₁`. -/
def Makes (mmap : ℕ → ℕ) (s s₁ : State) (place : ℕ → ℕ) (size : ℕ) : Prop :=
  (s.heap.current + 8 * size ≤ s.heap.endPtr ∧ s₁ = s ∧ place = id) ∨
    (s.heap.endPtr < s.heap.current + 8 * size ∧ s₁.heap.begin = mmap (8 * s₁.heap.size))

theorem alloc_spec {b : ℕ} (h : Collectable s os) (hr : Rooted s)
    (hchunk : s.heap.endPtr = s.heap.begin + 8 * s.heap.size) (hb : 0 < b)
    (hsize : 8 * (2 * s.heap.size + words b) < 2 ^ 64) (hmmap : ∀ n, Fresh s (mmap (8 * n)) n) :
    ∃ kept place s₁, Relocates s os kept place s₁ ∧ Makes mmap s s₁ place (words b) ∧
      s₁.heap.current + 8 * words b ≤ s₁.heap.endPtr ∧
      alloc (fun n => some (mmap n)) s b = some (s₁.bump (words b), s₁.heap.current) := by
  have hb' : b < 2 ^ 64 := by
    unfold words at hsize
    omega
  by_cases hfits : s.heap.current + 8 * words b ≤ s.heap.endPtr
  · exact ⟨os, id, s, .refl h hr hchunk, .inl ⟨hfits, rfl, rfl⟩, hfits, alloc_of_room hb hb' hfits⟩
  · rcases @collect_spec s os _ (fun n => some (mmap n)) h hr (.of_size h.formed hsize)
      fun n begin hbegin => Option.some.inj hbegin ▸ hmmap n with
      ⟨n, hnone, -⟩ | ⟨kept, s₁, hcollect, hbegin, hc⟩
    · cases hnone
    have hroom := hc.fits
    exact ⟨kept, newPlace s s₁ kept, s₁, hc.relocates,
      .inr ⟨by omega, (Option.some.inj hbegin).symm⟩, hroom,
      alloc_of_collect hb hb' (by omega) hcollect hroom⟩

/-- **An allocation.** -/
theorem allocObject_spec {t : LamaType} {n : ℕ} (h : Collectable s os) (hr : Rooted s)
    (hchunk : s.heap.endPtr = s.heap.begin + 8 * s.heap.size) (hn : 8 * n < 2 ^ 64)
    (hsize : 8 * (2 * s.heap.size + words (t.bytes n)) < 2 ^ 64)
    (hmmap : ∀ n, Fresh s (mmap (8 * n)) n) :
    ∃ kept place s₁ s', Relocates s os kept place s₁ ∧ Makes mmap s s₁ place (words (t.bytes n)) ∧
      Grown s₁ t n s' ∧ (∀ a, s₁.heap.current + 16 ≤ a → a < s'.heap.current → s'.mem a = 0) ∧
      allocObject t (fun n => some (mmap n)) s n = some (s', s₁.heap.current) := by
  have hle := t.le_bytes n
  obtain ⟨kept, place, s₁, hrel, hmakes, hroom, halloc⟩ := alloc_spec h hr hchunk (by omega) hsize hmmap
  obtain ⟨s', hobject, hgrown, hzero⟩ := allocObject_of_alloc hn (by unfold words at hsize; omega)
    hroom halloc
  exact ⟨kept, place, s₁, s', hrel, hmakes, hgrown, hzero, hobject⟩

end Alloc

/-! ### Extra roots and the top of the stack -/

section Roots

variable {s : State} {frame : ℕ}

/-- The state that `PRE_GC` makes. -/
def State.enter (s : State) (frame : ℕ) : State :=
  if s.gcStackTop = 0 then { s with gcStackTop := frame } else s

/-- What `PRE_GC` asserts, and that the stack has its top below its bottom. -/
structure Framed (s : State) (frame : ℕ) : Prop where
  nonzero : (s.enter frame).gcStackTop ≠ 0
  aligned : (s.enter frame).gcStackTop % 16 = 0
  below : frame ≤ (s.enter frame).gcStackTop
  stack : (s.enter frame).gcStackTop ≤ s.gcStackBottom

/-- A function between `PRE_GC` and `POST_GC`, with some more extra roots. -/
def State.during (s : State) (frame : ℕ) (roots : List ℕ) : State :=
  { s.enter frame with extraRoots := s.extraRoots ++ roots }

@[simp] theorem enter_mem : (s.enter frame).mem = s.mem := by
  unfold State.enter
  split_ifs <;> rfl

@[simp] theorem enter_heap : (s.enter frame).heap = s.heap := by
  unfold State.enter
  split_ifs <;> rfl

@[simp] theorem enter_extraRoots : (s.enter frame).extraRoots = s.extraRoots := by
  unfold State.enter
  split_ifs <;> rfl

@[simp] theorem enter_gcStackBottom : (s.enter frame).gcStackBottom = s.gcStackBottom := by
  unfold State.enter
  split_ifs <;> rfl

@[simp] theorem enter_startCustomData : (s.enter frame).startCustomData = s.startCustomData := by
  unfold State.enter
  split_ifs <;> rfl

@[simp] theorem enter_stopCustomData : (s.enter frame).stopCustomData = s.stopCustomData := by
  unfold State.enter
  split_ifs <;> rfl

theorem preGc_spec (h : Framed s frame) : preGc frame s = some (s.enter frame, s.gcStackTop == 0) := by
  have hstate : (if (s.gcStackTop == 0) = true then { s with gcStackTop := frame } else s) =
      s.enter frame := by
    unfold State.enter
    simp only [beq_iff_eq]
  have haligned : (s.enter frame).gcStackTop &&& 15 = 0 := by
    have := Nat.and_two_pow_sub_one_eq_mod (s.enter frame).gcStackTop 4
    exact this.trans h.aligned
  simp only [preGc, hstate, h.nonzero, haligned, h.below, guard, ne_eq, not_false_eq_true, if_true,
    Option.pure_def, Option.bind_eq_bind, Option.bind_some]

theorem postGc_spec (h : Framed s frame) {t : State}
    (ht : t.gcStackTop = (s.enter frame).gcStackTop) :
    postGc frame (s.gcStackTop == 0) t = some { t with gcStackTop := s.gcStackTop } := by
  have hbelow := h.below
  rw [← ht] at hbelow
  simp only [postGc, hbelow, guard, if_true, Option.pure_def, Option.bind_eq_bind, Option.bind_some]
  by_cases hzero : s.gcStackTop = 0
  · simp [hzero]
  · have htop : t.gcStackTop = s.gcStackTop := by rw [ht, State.enter, if_neg hzero]
    rw [if_neg (by simpa using hzero), ← htop]

/-- A function called between `PRE_GC` and `POST_GC` of another one. -/
theorem preGc_nested (hnonzero : s.gcStackTop ≠ 0) (haligned : s.gcStackTop % 16 = 0)
    (hbelow : frame ≤ s.gcStackTop) : preGc frame s = some (s, false) := by
  have hmask : s.gcStackTop &&& 15 = 0 := by
    have := Nat.and_two_pow_sub_one_eq_mod s.gcStackTop 4
    exact this.trans haligned
  have hflag : (s.gcStackTop == 0) = false := by simpa using hnonzero
  simp only [preGc, hflag, hmask, hnonzero, hbelow, guard, ne_eq, not_false_eq_true, if_true,
    Bool.false_eq_true, if_false, Option.pure_def, Option.bind_eq_bind, Option.bind_some]

theorem postGc_nested (hbelow : frame ≤ s.gcStackTop) : postGc frame false s = some s := by
  simp only [postGc, hbelow, guard, if_true, Bool.false_eq_true, if_false, Option.pure_def,
    Option.bind_eq_bind, Option.bind_some]

theorem pushExtraRoots_spec (ps : List ℕ) (s : State)
    (hroom : s.extraRoots.length + ps.length ≤ maxExtraRootsNumber)
    (hps : ∀ p ∈ ps, p ≥ s.gcStackTop ∨ p < s.gcStackBottom) :
    pushExtraRoots ps s = some { s with extraRoots := s.extraRoots ++ ps } := by
  induction ps generalizing s with
  | nil => simp [pushExtraRoots]
  | cons p ps ih =>
    rw [List.length_cons] at hroom
    have hfree : s.extraRoots.length < maxExtraRootsNumber := by omega
    have hpush : pushExtraRoot p s = some { s with extraRoots := s.extraRoots ++ [p] } := by
      simp only [pushExtraRoot, guard, hfree, hps p List.mem_cons_self, if_true, Option.pure_def,
        Option.bind_eq_bind, Option.bind_some]
    have hrest := ih { s with extraRoots := s.extraRoots ++ [p] }
      (by rw [List.length_append, List.length_singleton]; omega)
      fun q hq => hps q (List.mem_cons_of_mem _ hq)
    simp only [pushExtraRoots, hpush, Option.bind_eq_bind, Option.bind_some, hrest,
      List.append_assoc, List.singleton_append]

theorem popExtraRoots_spec (ps rs : List ℕ) (s : State) (h : s.extraRoots = rs ++ ps) :
    popExtraRoots ps.reverse s = some { s with extraRoots := rs } := by
  induction ps using List.reverseRecOn generalizing s with
  | nil =>
    rw [List.append_nil] at h
    rw [← h]
    rfl
  | append_singleton ps p ih =>
    have hpop : popExtraRoot p s = some { s with extraRoots := rs ++ ps } := by
      simp [popExtraRoot, h, ← List.append_assoc]
    rw [List.reverse_append, List.reverse_singleton, List.singleton_append, popExtraRoots, hpop]
    exact ih _ rfl

end Roots

end LamaRv.Gc
