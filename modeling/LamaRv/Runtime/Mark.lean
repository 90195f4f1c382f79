import LamaRv.Lib.Marking
import LamaRv.Runtime.Objects

/-!
# Marking (`gc.c`)

`mark` searches the objects that a pointer reaches.  The queue of the search takes no memory of its
own: it lives in the forward addresses of the first objects of the heap, which are not in use yet.

* `queueEnqueue`, `queueDequeue`, `mark`: the code;
* `markLogged`: the code with a record of what the queue receives and gives back;
* `MarkState`, `Queue`: the memory in the middle of a search;
* `mark_spec`: the search marks what the pointer reaches, and nothing else in memory changes but the
  words of the collector;
* `mark_exact`: the same of one call, with the run of the queue.
-/

namespace LamaRv.Gc

open Marking

/-! ### The code -/

/-- `queue_enqueue`; also the next `tail_iter`. -/
def queueEnqueue (m : Mem) (tailIter obj : ℕ) : Option (Mem × ℕ) := do
  let tailContent ← getObjectContentPtr m tailIter
  let m := makeEnqueued (setForwardAddress m tailContent obj) obj
  return (m, ← heapNextObjIterator m tailIter)

/-- `queue_dequeue`; also the next `head_iter`, and the value. -/
def queueDequeue (m : Mem) (headIter : ℕ) : Option (Mem × ℕ × ℕ) := do
  let headContent ← getObjectContentPtr m headIter
  let value := getForwardAddress m headContent
  let m := makeDequeued m value
  return (m, ← heapNextObjIterator m headIter, value)

/-- What `mark` does at a field that holds a pointer. -/
def markField (heap : MemoryChunk) (s : Mem × ℕ) (curField : ℕ) : Option (Mem × ℕ) :=
  let (m, tailIter) := s
  let fieldValue := m curField
  if !isValidHeapPointer heap fieldValue || isMarked m fieldValue || isEnqueued m fieldValue then
    some s
  else queueEnqueue m tailIter fieldValue

/-- The `while` loop of `mark`, with some fuel. -/
def markLoop (heap : MemoryChunk) : ℕ → Mem → ℕ → ℕ → Option Mem
  | 0, _, _, _ => none
  | n + 1, m, headIter, tailIter =>
    if headIter = tailIter then some m
    else do
      let (m, headIter, curObj) ← queueDequeue m headIter
      let m := markObject m curObj
      let it ← fieldBeginIterator m (← getObjHeaderPtr m curObj)
      let (m, tailIter) ← forPtrFields Prod.fst (markField heap) (heap.size + 1) it (m, tailIter)
      markLoop heap n m headIter tailIter

/-- `mark`.  There are no more rounds than words in the heap. -/
def mark (heap : MemoryChunk) (m : Mem) (obj : ℕ) : Option Mem :=
  if !isValidHeapPointer heap obj || isMarked m obj then some m
  else do
    let (m, tailIter) ← queueEnqueue m heap.begin obj
    markLoop heap (heap.size + 1) m heap.begin tailIter

/-- One operation of the queue: the object that holds the value, the value, and where the iterator
goes. -/
structure QueueEntry where
  place : ℕ
  value : ℕ
  next : ℕ
  deriving DecidableEq

/-- What the queue has received and what has been taken from it. -/
structure QueueLog where
  entered : List QueueEntry
  taken : List QueueEntry

/-- `markField` with a record. -/
def markFieldLogged (heap : MemoryChunk) (s : (Mem × ℕ) × QueueLog) (curField : ℕ) :
    Option ((Mem × ℕ) × QueueLog) :=
  let ((m, tailIter), log) := s
  let fieldValue := m curField
  if !isValidHeapPointer heap fieldValue || isMarked m fieldValue || isEnqueued m fieldValue then
    some s
  else do
    let (m, next) ← queueEnqueue m tailIter fieldValue
    return ((m, next), { log with entered := log.entered ++ [⟨tailIter, fieldValue, next⟩] })

/-- `markLoop` with a record. -/
def markLoopLogged (heap : MemoryChunk) :
    ℕ → Mem → ℕ → ℕ → QueueLog → Option (Mem × QueueLog)
  | 0, _, _, _, _ => none
  | n + 1, m, headIter, tailIter, log =>
    if headIter = tailIter then some (m, log)
    else do
      let (m, next, curObj) ← queueDequeue m headIter
      let log := { log with taken := log.taken ++ [⟨headIter, curObj, next⟩] }
      let m := markObject m curObj
      let it ← fieldBeginIterator m (← getObjHeaderPtr m curObj)
      let ((m, tailIter), log) ←
        forPtrFields (fun s => s.1.1) (markFieldLogged heap) (heap.size + 1) it ((m, tailIter), log)
      markLoopLogged heap n m next tailIter log

/-- `mark` with a record. -/
def markLogged (heap : MemoryChunk) (m : Mem) (obj : ℕ) : Option (Mem × QueueLog) :=
  if !isValidHeapPointer heap obj || isMarked m obj then some (m, ⟨[], []⟩)
  else do
    let (m, next) ← queueEnqueue m heap.begin obj
    markLoopLogged heap (heap.size + 1) m heap.begin next ⟨[⟨heap.begin, obj, next⟩], []⟩

/-- Call `mark` on the words at some addresses, one after the other. -/
def markRoots (heap : MemoryChunk) : List ℕ → Mem → Option Mem
  | [], m => some m
  | a :: as, m => do markRoots heap as (← mark heap m (m a))

/-- The words that `gc_root_scan_stack` goes through. -/
def stackWords (s : State) : List ℕ := wordsBetween (s.gcStackTop + 8) s.gcStackBottom

/-- The words that `scan_global_area` goes through. -/
def dataWords (s : State) : List ℕ := wordsBetween s.startCustomData s.stopCustomData

def gcRootScanStack (s : State) (m : Mem) : Option Mem := markRoots s.heap (stackWords s) m

def scanExtraRoots (s : State) (m : Mem) : Option Mem := markRoots s.heap s.extraRoots m

def scanGlobalArea (s : State) (m : Mem) : Option Mem := markRoots s.heap (dataWords s) m

def markPhase (s : State) : Option State := do
  let m ← gcRootScanStack s s.mem
  let m ← scanExtraRoots s m
  let m ← scanGlobalArea s m
  return { s with mem := m }

/-! ### The record changes nothing -/

section Erase

variable {heap : MemoryChunk} {m m' : Mem} {log log' : QueueLog}

theorem markFieldLogged_erase {s s' : (Mem × ℕ) × QueueLog} {f : ℕ}
    (h : markFieldLogged heap s f = some s') : markField heap s.1 f = some s'.1 := by
  obtain ⟨⟨m, tailIter⟩, log⟩ := s
  simp only [markFieldLogged] at h
  simp only [markField]
  split_ifs at h ⊢
  · cases h
    rfl
  · obtain ⟨⟨m', next⟩, hrun, h⟩ := Option.bind_eq_some_iff.1 h
    cases h
    exact hrun

theorem markLoopLogged_erase {n headIter tailIter : ℕ}
    (h : markLoopLogged heap n m headIter tailIter log = some (m', log')) :
    markLoop heap n m headIter tailIter = some m' := by
  induction n generalizing m headIter tailIter log with
  | zero => cases h
  | succ n ih =>
    rw [markLoopLogged] at h
    rw [markLoop]
    split_ifs at h ⊢
    · cases h
      rfl
    · obtain ⟨⟨m₁, next, curObj⟩, hdequeue, h⟩ := Option.bind_eq_some_iff.1 h
      obtain ⟨header, hheader, h⟩ := Option.bind_eq_some_iff.1 h
      obtain ⟨it, hit, h⟩ := Option.bind_eq_some_iff.1 h
      obtain ⟨⟨⟨m₂, tailIter₂⟩, log₂⟩, hfields, h⟩ := Option.bind_eq_some_iff.1 h
      have hfields := forPtrFields_erase Prod.fst Prod.fst (fun _ _ _ => markFieldLogged_erase) hfields
      simp only [hdequeue, hheader, hit, hfields, ih h, Option.bind_eq_bind, Option.bind_some]

theorem markLogged_erase {obj : ℕ} (h : markLogged heap m obj = some (m', log)) :
    mark heap m obj = some m' := by
  rw [markLogged] at h
  rw [mark]
  split_ifs at h ⊢
  · cases h
    rfl
  · obtain ⟨⟨m₁, next⟩, henqueue, h⟩ := Option.bind_eq_some_iff.1 h
    simp only [henqueue, markLoopLogged_erase h, Option.bind_eq_bind, Option.bind_some]

end Erase

/-! ### The word of the collector -/

section ForwardWord

variable {m : Mem} {o o' a : ℕ}

@[simp] theorem forwardWord_content (o : ℕ) : forwardWord (o + 16) = o + 8 := by
  simp [forwardWord, toData, dataHeaderSz]

theorem set_forward (v : ℕ) : m.set (o + 8) v (o' + 8) = if o' = o then v else m (o' + 8) := by
  split_ifs with h
  · rw [h, Mem.set_self]
  · exact Mem.set_of_ne _ _ (by omega)

@[simp] theorem isMarked_markObject :
    isMarked (markObject m (o + 16)) (o' + 16) = (o' == o || isMarked m (o' + 16)) := by
  simp only [isMarked, markObject, forwardWord_content, set_forward]
  split_ifs with h <;> simp [h]

@[simp] theorem isEnqueued_markObject :
    isEnqueued (markObject m (o + 16)) (o' + 16) = isEnqueued m (o' + 16) := by
  simp only [isEnqueued, markObject, forwardWord_content, set_forward]
  split_ifs with h <;> simp [h]

@[simp] theorem getForwardAddress_markObject :
    getForwardAddress (markObject m (o + 16)) (o' + 16) = getForwardAddress m (o' + 16) := by
  simp only [getForwardAddress, markObject, forwardWord_content, set_forward]
  split_ifs with h <;> simp [h]

@[simp] theorem isMarked_makeEnqueued :
    isMarked (makeEnqueued m (o + 16)) (o' + 16) = isMarked m (o' + 16) := by
  simp only [isMarked, makeEnqueued, forwardWord_content, set_forward]
  split_ifs with h <;> simp [h]

@[simp] theorem isEnqueued_makeEnqueued :
    isEnqueued (makeEnqueued m (o + 16)) (o' + 16) = (o' == o || isEnqueued m (o' + 16)) := by
  simp only [isEnqueued, makeEnqueued, forwardWord_content, set_forward]
  split_ifs with h <;> simp [h]

@[simp] theorem getForwardAddress_makeEnqueued :
    getForwardAddress (makeEnqueued m (o + 16)) (o' + 16) = getForwardAddress m (o' + 16) := by
  simp only [getForwardAddress, makeEnqueued, forwardWord_content, set_forward]
  split_ifs with h <;> simp [h]

@[simp] theorem isMarked_makeDequeued :
    isMarked (makeDequeued m (o + 16)) (o' + 16) = isMarked m (o' + 16) := by
  simp only [isMarked, makeDequeued, forwardWord_content, set_forward]
  split_ifs with h <;> simp [h]

@[simp] theorem isEnqueued_makeDequeued :
    isEnqueued (makeDequeued m (o + 16)) (o' + 16) = (o' != o && isEnqueued m (o' + 16)) := by
  simp only [isEnqueued, makeDequeued, forwardWord_content, set_forward]
  split_ifs with h <;> simp [h]

@[simp] theorem getForwardAddress_makeDequeued :
    getForwardAddress (makeDequeued m (o + 16)) (o' + 16) = getForwardAddress m (o' + 16) := by
  simp only [getForwardAddress, makeDequeued, forwardWord_content, set_forward]
  split_ifs with h <;> simp [h]

theorem isMarked_setForwardAddress (ha : a % 8 = 0) :
    isMarked (setForwardAddress m (o + 16) a) (o' + 16) = isMarked m (o' + 16) := by
  simp only [isMarked, setForwardAddress, forwardWord_content, set_forward]
  split_ifs with h <;> simp [h, getMarkBit_set ha]

theorem isEnqueued_setForwardAddress (ha : a % 8 = 0) :
    isEnqueued (setForwardAddress m (o + 16) a) (o' + 16) = isEnqueued m (o' + 16) := by
  simp only [isEnqueued, setForwardAddress, forwardWord_content, set_forward]
  split_ifs with h <;> simp [h, isEnqueuedBit_set ha]

theorem getForwardAddress_setForwardAddress (ha : a % 8 = 0) :
    getForwardAddress (setForwardAddress m (o + 16) a) (o' + 16) =
      if o' = o then a else getForwardAddress m (o' + 16) := by
  simp only [getForwardAddress, setForwardAddress, forwardWord_content, set_forward]
  split_ifs with h <;> simp [forwardAddressBits_set ha]

theorem frame_markObject (h : a ≠ o + 8) : markObject m (o + 16) a = m a := by
  rw [markObject, forwardWord_content, Mem.set_of_ne _ _ h]

theorem frame_makeEnqueued (h : a ≠ o + 8) : makeEnqueued m (o + 16) a = m a := by
  rw [makeEnqueued, forwardWord_content, Mem.set_of_ne _ _ h]

theorem frame_makeDequeued (h : a ≠ o + 8) : makeDequeued m (o + 16) a = m a := by
  rw [makeDequeued, forwardWord_content, Mem.set_of_ne _ _ h]

theorem frame_setForwardAddress {v : ℕ} (h : a ≠ o + 8) :
    setForwardAddress m (o + 16) v a = m a := by
  rw [setForwardAddress, forwardWord_content, Mem.set_of_ne _ _ h]

end ForwardWord

/-! ### Heaps -/

/-- The heap holds the objects `os`, and a field that looks like a pointer into it points to the
contents of one of them. -/
structure Formed (heap : MemoryChunk) (m : Mem) (os : List ℕ) : Prop where
  objects : Objects m heap.begin os heap.current
  aligned : heap.begin % 8 = 0
  size : heap.current ≤ heap.begin + 8 * heap.size
  pointers : ∀ o ∈ os, ∀ f ∈ fields m o, isValidHeapPointer heap (m f) = true →
    ∃ o' ∈ os, m f = o' + 16

instance (heap : MemoryChunk) (m : Mem) (os : List ℕ) : Decidable (Formed heap m os) :=
  decidable_of_iff (Objects m heap.begin os heap.current ∧ heap.begin % 8 = 0 ∧
      heap.current ≤ heap.begin + 8 * heap.size ∧ ∀ o ∈ os, ∀ f ∈ fields m o,
        isValidHeapPointer heap (m f) = true → ∃ o' ∈ os, m f = o' + 16)
    ⟨fun h => ⟨h.1, h.2.1, h.2.2.1, h.2.2.2⟩, fun h => ⟨h.objects, h.aligned, h.size, h.pointers⟩⟩

/-- The objects that fields point to. -/
def targetsOf (heap : MemoryChunk) (m : Mem) (fs : List ℕ) : List ℕ :=
  fs.filterMap fun f => if isValidHeapPointer heap (m f) then some (m f - 16) else none

/-- The objects that the fields of an object point to. -/
def targets (heap : MemoryChunk) (m : Mem) (o : ℕ) : List ℕ := targetsOf heap m (fields m o)

/-- The memory is `m₀` but for the words of the collector. -/
def SameBut (os : List ℕ) (m₀ m : Mem) : Prop := ∀ a, (∀ o ∈ os, a ≠ o + 8) → m a = m₀ a

/-- Objects stand one after the other in the heap, at aligned addresses. -/
structure Placed (heap : MemoryChunk) (m : Mem) (os : List ℕ) : Prop where
  objects : Objects m heap.begin os heap.current
  aligned : heap.begin % 8 = 0

section Formed

variable {heap : MemoryChunk} {m₀ m : Mem} {os : List ℕ} {o f : ℕ}

theorem Formed.placed (h : Formed heap m os) : Placed heap m os := ⟨h.objects, h.aligned⟩

theorem Formed.length_le (h : Formed heap m₀ os) : os.length ≤ heap.size := by
  have := h.objects.length_le
  have := h.size
  omega

theorem Formed.fieldCount_le (h : Formed heap m₀ os) (ho : o ∈ os) : fieldCount m₀ o ≤ heap.size := by
  have hs := h.objects.sound o ho
  have hb := h.objects.bounds o ho
  have hw := hs.bytes_le_words
  have hsize := h.size
  rcases Nat.eq_zero_or_pos (fieldCount m₀ o) with h0 | hpos
  · omega
  · -- the last field
    have hlast := hs.field_bounds (fieldStart m₀ o + 8 * (fieldCount m₀ o - 1))
      (List.mem_map.2 ⟨fieldCount m₀ o - 1, List.mem_range.2 (by omega), rfl⟩)
    have hfirst := hs.field_bounds (fieldStart m₀ o + 8 * 0)
      (List.mem_map.2 ⟨0, List.mem_range.2 hpos, rfl⟩)
    omega

/-- A header is not a word of the collector. -/
theorem Objects.header_of_same {a e : ℕ} (hos : Objects m₀ a os e) (h : SameBut os m₀ m)
    (ho : o ∈ os) : m o = m₀ o := by
  refine h o fun o' ho' heq => ?_
  have h₁ := (hos.sound o ho).two_le_words
  have h₂ := (hos.sound o' ho').two_le_words
  have := hos.owner_unique ho ho' (x := o) (by omega) (by omega)
  omega

theorem SameBut.header (h : SameBut os m₀ m) (hos : Formed heap m₀ os) (ho : o ∈ os) :
    m o = m₀ o :=
  hos.objects.header_of_same h ho

/-- Contents are not words of the collector. -/
theorem SameBut.content (h : SameBut os m₀ m) (hos : Formed heap m₀ os) (ho : o ∈ os)
    (hf : o + 16 ≤ f ∧ f < o + 8 * objWords m₀ o) : m f = m₀ f := by
  refine h f fun o' ho' heq => ?_
  have h₂ := (hos.objects.sound o' ho').two_le_words
  have := hos.objects.owner_unique ho ho' (x := f) (by omega) (by omega)
  omega

theorem SameBut.field (h : SameBut os m₀ m) (hos : Formed heap m₀ os) (ho : o ∈ os)
    (hf : f ∈ fields m₀ o) : m f = m₀ f := by
  have hs := hos.objects.sound o ho
  have := hs.field_bounds f hf
  have := hs.bytes_le_words
  exact h.content hos ho (by omega)

theorem SameBut.sound (h : SameBut os m₀ m) (hos : Formed heap m₀ os) (ho : o ∈ os) : Sound m o :=
  (hos.objects.sound o ho).congr (h.header hos ho)

end Formed

/-! ### A search in the heap -/

/-- The memory during a search: the objects `marked` are marked and those on the queue have their
bit; nothing else has changed but forward addresses. -/
structure MarkState (os : List ℕ) (m₀ : Mem) (marked queue : List ℕ) (m : Mem) : Prop where
  same : SameBut os m₀ m
  marked : ∀ o ∈ os, isMarked m (o + 16) = true ↔ o ∈ marked
  enqueued : ∀ o ∈ os, isEnqueued m (o + 16) = true ↔ o ∈ queue

/-- The forward addresses of the objects `carriers` are the contents of the objects on the queue. -/
def Carries (m : Mem) (carriers queue : List ℕ) : Prop :=
  List.Forall₂ (fun c x => getForwardAddress m (c + 16) = x + 16) carriers queue

/-- The queue in memory: `done` have been taken from it, in as many of the first objects; the next
objects hold the queue, and those that follow are free. -/
structure Queue (heap : MemoryChunk) (os : List ℕ) (m₀ : Mem) (done queue : List ℕ) (m : Mem)
    (headIter tailIter : ℕ) : Prop where
  carried : ∃ passed carriers free, os = passed ++ (carriers ++ free) ∧
    passed.length = done.length ∧ Objects m₀ headIter carriers tailIter ∧
    Objects m₀ tailIter free heap.current ∧
    Carries m carriers queue
  nodup : (done ++ queue).Nodup
  subset : ∀ x ∈ done ++ queue, x ∈ os

section Search

variable {heap : MemoryChunk} {m₀ m : Mem} {os done marked queue : List ℕ} {x headIter tailIter : ℕ}

theorem Carries.congr {m' : Mem} {cs : List ℕ} (h : Carries m cs queue)
    (hm : ∀ c ∈ cs, getForwardAddress m' (c + 16) = getForwardAddress m (c + 16)) :
    Carries m' cs queue := by
  unfold Carries at h ⊢
  induction h with
  | nil => exact .nil
  | cons hc _ ih =>
    exact .cons ((hm _ List.mem_cons_self).trans hc) (ih fun c hc => hm c (List.mem_cons_of_mem _ hc))

/-- The objects of the heap take the queue one after the other. -/
theorem queueEnqueue_spec (hos : Formed heap m₀ os) (hm : MarkState os m₀ marked queue m)
    (hq : Queue heap os m₀ done queue m headIter tailIter) (hdone : ∀ y ∈ done, y ∈ marked)
    (hx : x ∈ os) (hxm : x ∉ marked) (hxq : x ∉ queue) :
    ∃ m', queueEnqueue m tailIter (x + 16) = some (m', tailIter + 8 * objWords m₀ tailIter) ∧
      os[(done ++ queue).length]? = some tailIter ∧
      MarkState os m₀ marked (queue ++ [x]) m' ∧
      Queue heap os m₀ done (queue ++ [x]) m' headIter (tailIter + 8 * objWords m₀ tailIter) := by
  obtain ⟨passed, carriers, free, hsplit, hpassed, hcarriers, hfree, hforward⟩ := hq.carried
  have hnodup : (done ++ (queue ++ [x])).Nodup := by
    rw [← List.append_assoc]
    refine List.nodup_append.2 ⟨hq.nodup, List.nodup_singleton x, ?_⟩
    rintro y hy z hz rfl
    obtain rfl := List.mem_singleton.1 hz
    rcases List.mem_append.1 hy with hy | hy
    · exact hxm (hdone _ hy)
    · exact hxq hy
  have hsubset : ∀ y ∈ done ++ (queue ++ [x]), y ∈ os := by
    intro y hy
    rw [← List.append_assoc] at hy
    rcases List.mem_append.1 hy with hy | hy
    · exact hq.subset y hy
    · rwa [List.mem_singleton.1 hy]
  -- there is a free object, because `x` has not been on the queue yet
  obtain ⟨t, free', rfl⟩ : ∃ t free', free = t :: free' := by
    refine List.exists_cons_of_ne_nil fun hnil => ?_
    have hlen := (hnodup.subperm hsubset).length_le
    have := hforward.length_eq
    rw [hsplit, hnil] at hlen
    simp only [List.length_append, List.length_cons, List.length_nil] at hlen
    omega
  have ht : t ∈ os := by simp [hsplit]
  obtain ⟨hts, rfl⟩ : Sound m₀ t ∧ tailIter = t := by
    cases hfree with
    | cons hs _ => exact ⟨hs, rfl⟩
  cases hfree with
  | cons _ hfree =>
    have halign : (x + 16) % 8 = 0 := by
      have := (hos.objects.aligned hos.aligned).1 x hx
      omega
    have hcontent := (hm.same.sound hos ht).getObjectContentPtr
    obtain ⟨m', hm'⟩ : ∃ m', makeEnqueued (setForwardAddress m (tailIter + 16) (x + 16)) (x + 16) = m' :=
      ⟨_, rfl⟩
    have hsame : SameBut os m₀ m' := by
      intro a ha
      rw [← hm', frame_makeEnqueued (ha x hx), frame_setForwardAddress (ha _ ht), hm.same a ha]
    refine ⟨m', ?_, ?_, ⟨hsame, fun o ho => ?_, fun o ho => ?_⟩, ⟨?_, hnodup, hsubset⟩⟩
    · simp only [queueEnqueue, hcontent, hm', (hsame.sound hos ht).heapNextObjIterator,
        Option.bind_eq_bind, Option.bind_some, Option.pure_def, objWords_congr (hsame.header hos ht)]
    · have hcount : (done ++ queue).length = (passed ++ carriers).length := by
        rw [List.length_append, List.length_append, hpassed, hforward.length_eq]
      rw [hcount, hsplit, ← List.append_assoc, List.getElem?_append_right le_rfl, Nat.sub_self]
      rfl
    · rw [← hm', isMarked_makeEnqueued, isMarked_setForwardAddress halign, hm.marked o ho]
    · rw [← hm', isEnqueued_makeEnqueued, isEnqueued_setForwardAddress halign, Bool.or_eq_true,
        hm.enqueued o ho, beq_iff_eq, List.mem_append, List.mem_singleton]
      exact or_comm
    · refine ⟨passed, carriers ++ [tailIter], free', by simp [hsplit], hpassed,
        objects_append.2 ⟨tailIter, hcarriers, .cons hts (.nil _)⟩, hfree, ?_⟩
      have hforward' : ∀ c, getForwardAddress m' (c + 16) =
          if c = tailIter then x + 16 else getForwardAddress m (c + 16) := fun c => by
        rw [← hm', getForwardAddress_makeEnqueued, getForwardAddress_setForwardAddress halign]
      refine List.rel_append (hforward.congr fun c hc => ?_)
        (List.Forall₂.cons ((hforward' tailIter).trans (if_pos rfl)) .nil)
      have hne : c ≠ tailIter := by
        have := hos.objects.nodup
        rw [hsplit] at this
        rintro rfl
        exact List.disjoint_of_nodup_append (List.nodup_append.1 this).2.1 hc List.mem_cons_self
      rw [hforward', if_neg hne]

/-- The queue is empty when the iterators meet. -/
theorem Queue.nil_iff (hq : Queue heap os m₀ done queue m headIter tailIter) :
    headIter = tailIter ↔ queue = [] := by
  obtain ⟨passed, carriers, free, -, -, hcarriers, -, hforward⟩ := hq.carried
  cases hforward with
  | nil =>
    cases hcarriers
    simp
  | cons hc _ =>
    cases hcarriers with
    | cons hs hrest =>
      have := hrest.le
      have := hs.two_le_words
      simp only [List.cons_ne_nil, iff_false]
      omega

/-- Taking an object from the queue and marking it. -/
theorem queueDequeue_spec (hos : Formed heap m₀ os) (hm : MarkState os m₀ marked (x :: queue) m)
    (hq : Queue heap os m₀ done (x :: queue) m headIter tailIter) :
    ∃ m', queueDequeue m headIter = some (m', headIter + 8 * objWords m₀ headIter, x + 16) ∧
      os[done.length]? = some headIter ∧
      MarkState os m₀ (x :: marked) queue (markObject m' (x + 16)) ∧
      Queue heap os m₀ (done ++ [x]) queue (markObject m' (x + 16))
        (headIter + 8 * objWords m₀ headIter) tailIter := by
  obtain ⟨passed, carriers, free, hsplit, hpassed, hcarriers, hfree, hforward⟩ := hq.carried
  cases hforward with
  | @cons c _ carriers _ hc hforward =>
    cases hcarriers with
    | cons hcs hcarriers =>
      have hcos : headIter ∈ os := by simp [hsplit]
      have hx : x ∈ os := hq.subset x (by simp)
      obtain ⟨m', hm'⟩ : ∃ m', makeDequeued m (x + 16) = m' := ⟨_, rfl⟩
      have hsame : SameBut os m₀ m' := fun a ha => by
        rw [← hm', frame_makeDequeued (ha x hx), hm.same a ha]
      have hxq : x ∉ queue := by
        have := (List.nodup_append.1 hq.nodup).2.1
        exact (List.nodup_cons.1 this).1
      refine ⟨m', ?_, ?_, ⟨fun a ha => ?_, fun o ho => ?_, fun o ho => ?_⟩, ⟨?_, ?_, ?_⟩⟩
      · simp only [queueDequeue, (hm.same.sound hos hcos).getObjectContentPtr, hc, hm',
          (hsame.sound hos hcos).heapNextObjIterator, objWords_congr (hsame.header hos hcos),
          Option.bind_eq_bind, Option.bind_some, Option.pure_def]
      · rw [hsplit, ← hpassed, List.getElem?_append_right le_rfl, Nat.sub_self]
        rfl
      · rw [frame_markObject (ha x hx), hsame a ha]
      · rw [isMarked_markObject, ← hm', isMarked_makeDequeued, Bool.or_eq_true, hm.marked o ho,
          beq_iff_eq, List.mem_cons]
      · rw [isEnqueued_markObject, ← hm', isEnqueued_makeDequeued, Bool.and_eq_true, hm.enqueued o ho,
          bne_iff_ne, List.mem_cons]
        constructor
        · rintro ⟨hne, hmem⟩
          exact hmem.resolve_left hne
        · intro hmem
          exact ⟨fun heq => hxq (heq ▸ hmem), .inr hmem⟩
      · refine ⟨passed ++ [headIter], carriers, free, by simp [hsplit], by simp [hpassed], hcarriers,
          hfree, Carries.congr hforward fun c _ => ?_⟩
        rw [getForwardAddress_markObject, ← hm', getForwardAddress_makeDequeued]
      · have := hq.nodup
        rwa [List.append_cons] at this
      · have := hq.subset
        rwa [List.append_cons] at this

/-- A pointer into the heap, in the middle of a search. -/
theorem targetsOf_append_singleton (fs : List ℕ) (f : ℕ) : targetsOf heap m₀ (fs ++ [f]) =
    targetsOf heap m₀ fs ++ if isValidHeapPointer heap (m₀ f) then [m₀ f - 16] else [] := by
  unfold targetsOf
  rw [List.filterMap_append]
  cases h : isValidHeapPointer heap (m₀ f) <;> simp [h]

/-! ### The record of a search -/

/-- The operation that the object at `place` takes part in, for the contents of the object `x`. -/
def queueEntry (m₀ : Mem) (place x : ℕ) : QueueEntry := ⟨place, x + 16, place + 8 * objWords m₀ place⟩

/-- In a search the objects of the heap take the queue one after the other, and give it back in the
same order. -/
structure Recorded (os : List ℕ) (m₀ : Mem) (done queue : List ℕ) (log : QueueLog) : Prop where
  entered : log.entered = List.zipWith (queueEntry m₀) os (done ++ queue)
  taken : log.taken = List.zipWith (queueEntry m₀) os done

theorem zipWith_append_singleton {α β γ : Type*} (f : α → β → γ) {as : List α} {bs : List β} {a : α}
    (b : β) (h : as[bs.length]? = some a) :
    List.zipWith f as (bs ++ [b]) = List.zipWith f as bs ++ [f a b] := by
  induction bs generalizing as with
  | nil =>
    cases as with
    | nil => cases h
    | cons c as =>
      cases h
      simp
  | cons b' bs ih =>
    cases as with
    | nil => cases h
    | cons c as => simp [ih (show as[bs.length]? = some a from h)]

theorem Recorded.enter {log : QueueLog} (h : Recorded os m₀ done queue log)
    (ht : os[(done ++ queue).length]? = some tailIter) :
    Recorded os m₀ done (queue ++ [x])
      { log with entered := log.entered ++
          [⟨tailIter, x + 16, tailIter + 8 * objWords m₀ tailIter⟩] } := by
  refine ⟨?_, h.taken⟩
  rw [← List.append_assoc, zipWith_append_singleton _ _ ht, ← h.entered]
  rfl

theorem Recorded.take {log : QueueLog} (h : Recorded os m₀ done (x :: queue) log)
    (ht : os[done.length]? = some headIter) :
    Recorded os m₀ (done ++ [x]) queue
      { log with taken := log.taken ++
          [⟨headIter, x + 16, headIter + 8 * objWords m₀ headIter⟩] } := by
  refine ⟨?_, ?_⟩
  · rw [h.entered, List.append_cons]
  · rw [zipWith_append_singleton _ _ ht, ← h.taken]
    rfl

/-- One field. -/
theorem markField_spec (hos : Formed heap m₀ os) (hm : MarkState os m₀ marked queue m)
    (hq : Queue heap os m₀ done queue m headIter tailIter) (hdone : ∀ y ∈ done, y ∈ marked)
    {log : QueueLog} (hlog : Recorded os m₀ done queue log)
    {o f : ℕ} (ho : o ∈ os) (hf : f ∈ fields m₀ o) :
    ∃ m' tailIter' log', markFieldLogged heap ((m, tailIter), log) f = some ((m', tailIter'), log') ∧
      MarkState os m₀ marked (if isValidHeapPointer heap (m₀ f) then offer marked queue (m₀ f - 16)
        else queue) m' ∧
      Queue heap os m₀ done (if isValidHeapPointer heap (m₀ f) then offer marked queue (m₀ f - 16)
        else queue) m' headIter tailIter' ∧
      Recorded os m₀ done (if isValidHeapPointer heap (m₀ f) then offer marked queue (m₀ f - 16)
        else queue) log' := by
  have hvalue : m f = m₀ f := hm.same.field hos ho hf
  cases hv : isValidHeapPointer heap (m₀ f) with
  | false =>
    refine ⟨m, tailIter, log, by simp [markFieldLogged, hvalue, hv], ?_⟩
    simpa using ⟨hm, hq, hlog⟩
  | true =>
    obtain ⟨x, hx, hfx⟩ := hos.pointers o ho f hf hv
    rw [hfx] at hv
    simp only [hfx, Nat.add_sub_cancel, if_true, offer]
    by_cases hknown : x ∈ marked ∨ x ∈ queue
    · refine ⟨m, tailIter, log, ?_, by rwa [if_pos hknown], by rwa [if_pos hknown],
        by rwa [if_pos hknown]⟩
      have hbits : (isMarked m (x + 16) || isEnqueued m (x + 16)) = true := by
        rw [Bool.or_eq_true, hm.marked x hx, hm.enqueued x hx]
        exact hknown
      simp [markFieldLogged, hvalue, hfx, Bool.or_assoc, hbits]
    · rw [not_or] at hknown
      obtain ⟨m', hrun, hplace, hm', hq'⟩ := queueEnqueue_spec hos hm hq hdone hx hknown.1 hknown.2
      have hbits : isMarked m (x + 16) = false ∧ isEnqueued m (x + 16) = false := by
        rw [← Bool.not_eq_true, ← Bool.not_eq_true, hm.marked x hx, hm.enqueued x hx]
        exact hknown
      refine ⟨m', _, _, ?_, by rwa [if_neg (not_or.2 hknown)], by rwa [if_neg (not_or.2 hknown)],
        by rw [if_neg (not_or.2 hknown)]; exact hlog.enter hplace⟩
      · simp only [markFieldLogged, hvalue, hfx, hv, hbits, hrun, Bool.not_true, Bool.or_false,
          Bool.false_eq_true, if_false, Option.bind_eq_bind, Option.bind_some, Option.pure_def]

/-- All fields of an object. -/
theorem markFields_spec (hos : Formed heap m₀ os) (hm : MarkState os m₀ marked queue m)
    (hq : Queue heap os m₀ done queue m headIter tailIter) (hdone : ∀ y ∈ done, y ∈ marked)
    {log : QueueLog} (hlog : Recorded os m₀ done queue log) {o : ℕ} (ho : o ∈ os) (t : LamaType) :
    ∃ m' tailIter' log', forPtrFields (fun s => s.1.1) (markFieldLogged heap) (heap.size + 1)
        ⟨t, o, fieldStart m₀ o⟩ ((m, tailIter), log) = some ((m', tailIter'), log') ∧
      MarkState os m₀ marked (enqueue marked queue (targets heap m₀ o)) m' ∧
      Queue heap os m₀ done (enqueue marked queue (targets heap m₀ o)) m' headIter tailIter' ∧
      Recorded os m₀ done (enqueue marked queue (targets heap m₀ o)) log' := by
  have hpass : ∀ fs f q, enqueue marked q (targetsOf heap m₀ (fs ++ [f])) =
      if isValidHeapPointer heap (m₀ f) then offer marked (enqueue marked q (targetsOf heap m₀ fs))
        (m₀ f - 16) else enqueue marked q (targetsOf heap m₀ fs) := by
    intro fs f q
    rw [targetsOf_append_singleton]
    split_ifs
    · exact enqueue_append_singleton
    · rw [List.append_nil]
  obtain ⟨⟨⟨m', tailIter'⟩, log'⟩, hrun, hm', hq', hlog'⟩ :=
    forPtrFields_spec (fun s : (Mem × ℕ) × QueueLog => s.1.1)
    (P := fun fs s => MarkState os m₀ marked (enqueue marked queue (targetsOf heap m₀ fs)) s.1.1 ∧
      Queue heap os m₀ done (enqueue marked queue (targetsOf heap m₀ fs)) s.1.1 headIter s.1.2 ∧
      Recorded os m₀ done (enqueue marked queue (targetsOf heap m₀ fs)) s.2)
    (s := ((m, tailIter), log)) t (hos.objects.sound o ho)
    (Nat.lt_succ_of_le (hos.fieldCount_le ho)) (fun _ _ hs => hs.1.same.header hos ho)
    (fun fs f rest s hfields hs _ => by
      obtain ⟨m', tailIter', log', hrun, hm', hq', hlog'⟩ :=
        markField_spec hos hs.1 hs.2.1 hdone hs.2.2 ho (show f ∈ fields m₀ o by simp [hfields])
      exact ⟨_, hrun, by rwa [hpass], by rwa [hpass], by rwa [hpass]⟩)
    (fun fs f rest s hfields hs hv => by
      have hf : f ∈ fields m₀ o := by simp [hfields]
      have hinvalid : isValidHeapPointer heap (m₀ f) = false := by
        rw [← hs.1.same.field hos ho hf]
        unfold isValidPointer at hv
        simp [isValidHeapPointer, hv]
      rw [hpass, hinvalid]
      simpa using hs)
    ⟨hm, hq, hlog⟩
  exact ⟨m', tailIter', log', hrun, hm', hq', hlog'⟩

variable {before : Set ℕ} {start : ℕ}

/-- The loop ends with an empty queue.  Every round takes another object, so there are not more
rounds than objects. -/
theorem markLoop_spec (hos : Formed heap m₀ os) {n : ℕ} (hm : MarkState os m₀ marked queue m)
    (hq : Queue heap os m₀ done queue m headIter tailIter) (hdone : ∀ y ∈ done, y ∈ marked)
    {log : QueueLog} (hlog : Recorded os m₀ done queue log)
    (hsearch : Search (targets heap m₀) before start marked queue)
    (hn : os.length < n + done.length) :
    ∃ m' marked' done' log', markLoopLogged heap n m headIter tailIter log = some (m', log') ∧
      MarkState os m₀ marked' [] m' ∧ Search (targets heap m₀) before start marked' [] ∧
      done'.Nodup ∧ (∀ y ∈ done', y ∈ os) ∧ Recorded os m₀ done' [] log' := by
  induction n generalizing m marked queue done headIter tailIter log with
  | zero =>
    have := (hq.nodup.subperm hq.subset).length_le
    rw [List.length_append] at this
    omega
  | succ n ih =>
    cases queue with
    | nil =>
      have hnodup := hq.nodup
      have hsubset := hq.subset
      rw [List.append_nil] at hnodup hsubset
      refine ⟨m, marked, done, log, ?_, hm, hsearch, hnodup, hsubset, hlog⟩
      rw [markLoopLogged, if_pos (hq.nil_iff.2 rfl)]
    | cons x queue =>
      have hx : x ∈ os := hq.subset x (by simp)
      obtain ⟨m₁, hdequeue, hplace, hm₁, hq₁⟩ := queueDequeue_spec hos hm hq
      have hsound := hm₁.same.sound hos hx
      obtain ⟨t, hit⟩ := hsound.fieldBeginIterator
      rw [fieldStart_congr (hm₁.same.header hos hx)] at hit
      have hdone₁ : ∀ y ∈ done ++ [x], y ∈ x :: marked := by
        intro y hy
        rcases List.mem_append.1 hy with hy | hy
        · exact List.mem_cons_of_mem _ (hdone y hy)
        · rw [List.mem_singleton.1 hy]
          exact List.mem_cons_self
      obtain ⟨m₂, tail₂, log₂, hfields, hm₂, hq₂, hlog₂⟩ :=
        markFields_spec hos hm₁ hq₁ hdone₁ (hlog.take hplace) hx t
      obtain ⟨m₃, marked₃, done₃, log₃, hloop, hrest⟩ := ih hm₂ hq₂ hdone₁ hlog₂
        (hsearch.step (List.nodup_append.1 hq.nodup).2.1) (by
          rw [List.length_append, List.length_singleton]
          omega)
      refine ⟨m₃, marked₃, done₃, log₃, ?_, hrest⟩
      rw [markLoopLogged, if_neg (fun h => List.cons_ne_nil _ _ (hq.nil_iff.1 h))]
      simp only [hdequeue, hsound.getObjHeaderPtr, hit, hfields, hloop, Option.bind_eq_bind,
        Option.bind_some]

/-- **Marking.**  In a heap in which the marked objects are closed, `mark` marks what a pointer
reaches. -/
theorem markLogged_spec (hos : Formed heap m₀ os) (hm : MarkState os m₀ marked [] m)
    (hclosed : Closed (targets heap m₀) {x | x ∈ marked}) {v : ℕ}
    (hv : isValidHeapPointer heap v = true → ∃ o ∈ os, v = o + 16) :
    ∃ m' marked' done log, markLogged heap m v = some (m', log) ∧ MarkState os m₀ marked' [] m' ∧
      Closed (targets heap m₀) {x | x ∈ marked'} ∧ (∀ x, x ∈ marked' ↔
        x ∈ marked ∨ (isValidHeapPointer heap v = true ∧ Reaches (targets heap m₀) (v - 16) x)) ∧
      done.Nodup ∧ (∀ y ∈ done, y ∈ os) ∧ Recorded os m₀ done [] log := by
  have hnone : Recorded os m₀ [] [] ⟨[], []⟩ := ⟨by simp, by simp⟩
  cases hvalid : isValidHeapPointer heap v with
  | false =>
    exact ⟨m, marked, [], ⟨[], []⟩, by simp [markLogged, hvalid], hm, hclosed, by simp, by simp,
      by simp, hnone⟩
  | true =>
    obtain ⟨o, ho, rfl⟩ := hv hvalid
    simp only [Nat.add_sub_cancel, true_and]
    by_cases homarked : o ∈ marked
    · refine ⟨m, marked, [], ⟨[], []⟩, by simp [markLogged, hvalid, (hm.marked o ho).2 homarked], hm,
        hclosed, fun x => ?_, by simp, by simp, hnone⟩
      exact ⟨.inl, fun hx => hx.elim id fun hx => hclosed.reaches homarked hx⟩
    · have hunmarked : isMarked m (o + 16) = false := by
        rw [← Bool.not_eq_true, hm.marked o ho]
        exact homarked
      have hq : Queue heap os m₀ [] [] m heap.begin heap.begin :=
        ⟨⟨[], [], os, rfl, rfl, .nil _, hos.objects, .nil⟩, List.nodup_nil, by simp⟩
      obtain ⟨m₁, henqueue, hplace, hm₁, hq₁⟩ :=
        queueEnqueue_spec hos hm hq (by simp) ho homarked (by simp)
      obtain ⟨m₂, marked₂, done, log, hloop, hm₂, hsearch, hrun⟩ :=
        markLoop_spec hos hm₁ hq₁ (by simp) (hnone.enter hplace) (Search.init hclosed homarked)
          (Nat.lt_succ_of_le hos.length_le)
      obtain ⟨hclosed₂, hiff⟩ := hsearch.finish
      refine ⟨m₂, marked₂, done, log, ?_, hm₂, hclosed₂, hiff, hrun⟩
      rw [List.nil_append] at hloop
      simp only [markLogged, hvalid, hunmarked, henqueue, hloop, Bool.not_true, Bool.or_false,
        Bool.false_eq_true, if_false, Option.bind_eq_bind, Option.bind_some]

theorem mark_spec (hos : Formed heap m₀ os) (hm : MarkState os m₀ marked [] m)
    (hclosed : Closed (targets heap m₀) {x | x ∈ marked}) {v : ℕ}
    (hv : isValidHeapPointer heap v = true → ∃ o ∈ os, v = o + 16) :
    ∃ m' marked', mark heap m v = some m' ∧ MarkState os m₀ marked' [] m' ∧
      Closed (targets heap m₀) {x | x ∈ marked'} ∧ ∀ x, x ∈ marked' ↔
        x ∈ marked ∨ (isValidHeapPointer heap v = true ∧ Reaches (targets heap m₀) (v - 16) x) := by
  obtain ⟨m', marked', _, _, hrun, hm', hclosed', hiff, -⟩ := markLogged_spec hos hm hclosed hv
  exact ⟨m', marked', markLogged_erase hrun, hm', hclosed', hiff⟩

/-- Marking from some words that do not lie in the heap. -/
theorem markRoots_spec (hos : Formed heap m₀ os) (as : List ℕ) (hm : MarkState os m₀ marked [] m)
    (hclosed : Closed (targets heap m₀) {x | x ∈ marked})
    (has : ∀ a ∈ as, (a < heap.begin ∨ heap.current ≤ a) ∧
      (isValidHeapPointer heap (m₀ a) = true → ∃ o ∈ os, m₀ a = o + 16)) :
    ∃ m' marked', markRoots heap as m = some m' ∧ MarkState os m₀ marked' [] m' ∧
      Closed (targets heap m₀) {x | x ∈ marked'} ∧ ∀ x, x ∈ marked' ↔ x ∈ marked ∨ ∃ a ∈ as,
        isValidHeapPointer heap (m₀ a) = true ∧ Reaches (targets heap m₀) (m₀ a - 16) x := by
  induction as generalizing m marked with
  | nil => exact ⟨m, marked, rfl, hm, hclosed, by simp⟩
  | cons a as ih =>
    obtain ⟨hout, hvalid⟩ := has a List.mem_cons_self
    have hvalue : m a = m₀ a := by
      refine hm.same a fun o ho heq => ?_
      have := hos.objects.bounds o ho
      have := (hos.objects.sound o ho).two_le_words
      omega
    obtain ⟨m₁, marked₁, hmark, hm₁, hclosed₁, hiff₁⟩ := mark_spec hos hm hclosed hvalid
    obtain ⟨m₂, marked₂, hrest, hm₂, hclosed₂, hiff₂⟩ := ih hm₁ hclosed₁ fun a ha =>
      has a (List.mem_cons_of_mem _ ha)
    refine ⟨m₂, marked₂, ?_, hm₂, hclosed₂, fun x => ?_⟩
    · simp only [markRoots, hvalue, hmark, hrest, Option.bind_eq_bind, Option.bind_some]
    · rw [hiff₂, hiff₁]
      simp only [List.mem_cons, exists_eq_or_imp, or_assoc]

end Search

/-! ### The phase -/

/-- The words from which objects are found. -/
def rootWords (s : State) : List ℕ := stackWords s ++ s.extraRoots ++ dataWords s

/-- What the roots reach. -/
def Live (s : State) (o : ℕ) : Prop := ∃ a ∈ rootWords s,
  isValidHeapPointer s.heap (s.mem a) = true ∧ Reaches (targets s.heap s.mem) (s.mem a - 16) o

/-- A heap between two collections: no object is marked or on a queue, and a root that looks like a
pointer into the heap points to the contents of an object. -/
structure Collectable (s : State) (os : List ℕ) : Prop where
  formed : Formed s.heap s.mem os
  unmarked : ∀ o ∈ os, isMarked s.mem (o + 16) = false
  dequeued : ∀ o ∈ os, isEnqueued s.mem (o + 16) = false
  outside : ∀ a ∈ rootWords s, a < s.heap.begin ∨ s.heap.current ≤ a
  roots : ∀ a ∈ rootWords s, isValidHeapPointer s.heap (s.mem a) = true → ∃ o ∈ os, s.mem a = o + 16

/-- What an object reaches are objects. -/
theorem Formed.mem_of_reaches {heap : MemoryChunk} {m : Mem} {os : List ℕ} {o o' : ℕ}
    (h : Formed heap m os) (ho : o ∈ os) (hreach : Reaches (targets heap m) o o') : o' ∈ os := by
  induction hreach with
  | refl => exact ho
  | tail _ hstep ih =>
    obtain ⟨f, hf, hif⟩ := List.mem_filterMap.1 hstep
    split_ifs at hif with hvalid
    cases hif
    obtain ⟨o'', ho'', heq⟩ := h.pointers _ ih f hf hvalid
    rwa [heq, Nat.add_sub_cancel]

theorem Collectable.mem_of_live {s : State} {os : List ℕ} {o : ℕ} (h : Collectable s os)
    (ho : Live s o) : o ∈ os := by
  obtain ⟨a, ha, hvalid, hreach⟩ := ho
  obtain ⟨o', ho', heq⟩ := h.roots a ha hvalid
  rw [heq, Nat.add_sub_cancel] at hreach
  exact h.formed.mem_of_reaches ho' hreach

/-- **The marking phase** marks what the roots reach. -/
theorem markPhase_spec {s : State} {os : List ℕ} (h : Collectable s os) :
    ∃ m marked, markPhase s = some { s with mem := m } ∧ MarkState os s.mem marked [] m ∧
      Closed (targets s.heap s.mem) {x | x ∈ marked} ∧ ∀ o, o ∈ marked ↔ Live s o := by
  have hinit : MarkState os s.mem [] [] s.mem :=
    ⟨fun _ _ => rfl, fun o ho => by simp [h.unmarked o ho], fun o ho => by simp [h.dequeued o ho]⟩
  have hmem : ∀ a ∈ rootWords s, (a < s.heap.begin ∨ s.heap.current ≤ a) ∧
      (isValidHeapPointer s.heap (s.mem a) = true → ∃ o ∈ os, s.mem a = o + 16) := fun a ha =>
    ⟨h.outside a ha, h.roots a ha⟩
  obtain ⟨m₁, marked₁, h₁, hm₁, hclosed₁, hiff₁⟩ := markRoots_spec h.formed (stackWords s) hinit
    (by simp [Closed]) fun a ha => hmem a (by simp [rootWords, ha])
  obtain ⟨m₂, marked₂, h₂, hm₂, hclosed₂, hiff₂⟩ := markRoots_spec h.formed s.extraRoots hm₁
    hclosed₁ fun a ha => hmem a (by simp [rootWords, ha])
  obtain ⟨m₃, marked₃, h₃, hm₃, hclosed₃, hiff₃⟩ := markRoots_spec h.formed (dataWords s) hm₂
    hclosed₂ fun a ha => hmem a (by simp [rootWords, ha])
  refine ⟨m₃, marked₃, ?_, hm₃, hclosed₃, fun o => ?_⟩
  · simp only [markPhase, gcRootScanStack, scanExtraRoots, scanGlobalArea, h₁, h₂, h₃,
      Option.bind_eq_bind, Option.bind_some, Option.pure_def]
  · rw [hiff₃, hiff₂, hiff₁, Live, rootWords]
    simp only [List.not_mem_nil, false_or, List.mem_append, or_and_right, exists_or]

/-! ### One call -/

/-- The run of the queue in one call of `mark`. -/
structure QueueRun (heap : MemoryChunk) (os : List ℕ) (log : QueueLog) : Prop where
  /-- The objects of the heap take the values in the order of their addresses. -/
  order : ∃ rest, os = log.entered.map QueueEntry.place ++ rest
  /-- The values are objects, and none enters twice. -/
  objects : ∀ e ∈ log.entered, ∃ o ∈ os, e.value = o + 16
  once : (log.entered.map QueueEntry.value).Nodup
  /-- Every value is taken from where it was put. -/
  same : log.taken = log.entered
  /-- No iterator goes past the end. -/
  inside : ∀ e ∈ log.entered, e.next ≤ heap.current

theorem Recorded.run {heap : MemoryChunk} {m : Mem} {os done : List ℕ} {log : QueueLog}
    (hos : Formed heap m os) (hnodup : done.Nodup) (hsubset : ∀ y ∈ done, y ∈ os)
    (h : Recorded os m done [] log) : QueueRun heap os log := by
  obtain ⟨places, rest, hsplit, hlen⟩ : ∃ places rest, os = places ++ rest ∧
      places.length = done.length :=
    ⟨os.take done.length, os.drop done.length, (List.take_append_drop _ _).symm,
      List.length_take_of_le (hnodup.subperm hsubset).length_le⟩
  have htaken : log.taken = (places.zip done).map (Function.uncurry (queueEntry m)) := by
    rw [h.taken, hsplit, List.map_uncurry_zip_eq_zipWith]
    conv_lhs => rw [← List.append_nil done]
    rw [List.zipWith_append hlen, List.zipWith_nil_right, List.append_nil]
  have hsame : log.taken = log.entered := by rw [h.taken, h.entered, List.append_nil]
  have hentry : ∀ e ∈ log.entered, ∃ place ∈ os, ∃ x ∈ done, e = queueEntry m place x := by
    intro e he
    rw [← hsame, htaken] at he
    obtain ⟨⟨place, x⟩, hmem, rfl⟩ := List.mem_map.1 he
    obtain ⟨hplace, hx⟩ := List.of_mem_zip hmem
    exact ⟨place, by simp [hsplit, hplace], x, hx, rfl⟩
  refine ⟨⟨rest, ?_⟩, fun e he => ?_, ?_, hsame, fun e he => ?_⟩
  · have hplaces : log.entered.map QueueEntry.place = (places.zip done).map Prod.fst := by
      rw [← hsame, htaken, List.map_map]
      rfl
    rw [hplaces, List.map_fst_zip hlen.le, hsplit]
  · obtain ⟨place, -, x, hx, rfl⟩ := hentry e he
    exact ⟨x, hsubset x hx, rfl⟩
  · have hvalues : log.entered.map QueueEntry.value = ((places.zip done).map Prod.snd).map (· + 16) := by
      rw [← hsame, htaken, List.map_map, List.map_map]
      rfl
    rw [hvalues, List.map_snd_zip hlen.ge]
    exact hnodup.map fun x y hxy => Nat.add_right_cancel hxy
  · obtain ⟨place, hplace, x, -, rfl⟩ := hentry e he
    exact (hos.objects.bounds place hplace).2

/-- **One call of `mark`** ends, marks what the word reaches and nothing else, leaves no object on the
queue and changes only the words of the collector; and the queue stays in the heap. -/
theorem mark_exact {heap : MemoryChunk} {m : Mem} {os : List ℕ} {obj : ℕ} (hos : Formed heap m os)
    (hdequeued : ∀ o ∈ os, isEnqueued m (o + 16) = false)
    (hclosed : Closed (targets heap m) {o | o ∈ os ∧ isMarked m (o + 16) = true})
    (hobj : isValidHeapPointer heap obj = true → ∃ o ∈ os, obj = o + 16) :
    ∃ m' log, mark heap m obj = some m' ∧ markLogged heap m obj = some (m', log) ∧
      (∀ o ∈ os, isMarked m' (o + 16) = true ↔ isMarked m (o + 16) = true ∨
        (isValidHeapPointer heap obj = true ∧ Reaches (targets heap m) (obj - 16) o)) ∧
      (∀ o ∈ os, isEnqueued m' (o + 16) = false) ∧
      (∀ o ∈ os, m' o = m o ∧ ∀ a, o + 16 ≤ a → a < o + 8 * objWords m o → m' a = m a) ∧
      SameBut os m m' ∧ QueueRun heap os log := by
  have hm : MarkState os m (os.filter fun o => isMarked m (o + 16)) [] m :=
    ⟨fun _ _ => rfl, fun o ho => by simp [ho], fun o ho => by simp [hdequeued o ho]⟩
  have hmarked : ∀ o ∈ os, o ∈ os.filter (fun o => isMarked m (o + 16)) ↔
      isMarked m (o + 16) = true := fun o ho => by simp [ho]
  obtain ⟨m', marked', done, log, hrun, hm', -, hiff, hnodup, hsubset, hlog⟩ :=
    markLogged_spec hos hm (by simpa [Closed] using hclosed) hobj
  refine ⟨m', log, markLogged_erase hrun, hrun, fun o ho => ?_, fun o ho => ?_, fun o ho => ?_,
    hm'.same, hlog.run hos hnodup hsubset⟩
  · rw [hm'.marked o ho, hiff, hmarked o ho]
  · rw [← Bool.not_eq_true, hm'.enqueued o ho]
    exact List.not_mem_nil
  · exact ⟨hm'.same.header hos ho, fun a h₁ h₂ => hm'.same.content hos ho ⟨h₁, h₂⟩⟩

/-- A heap of two arrays: the first one refers to the second one and to itself, the second one is
empty and the last object, so that its contents begin where the heap ends. -/
def twoArrays : Mem := fun a =>
  match a with
  | 1024 => 19
  | 1040 => 1072
  | 1048 => 1040
  | 1056 => 3
  | _ => 0

def twoArraysHeap : MemoryChunk := ⟨1024, 1536, 1072, 64⟩

theorem mark_exact_twoArrays : ∃ m', mark twoArraysHeap twoArrays 1040 = some m' ∧
    isMarked m' 1040 = true ∧ isMarked m' 1072 = true := by
  have hos : Formed twoArraysHeap twoArrays [1024, 1056] := by decide
  have hunmarked : ∀ o ∈ [1024, 1056], isMarked twoArrays (o + 16) = false := by decide
  obtain ⟨m', -, hrun, -, hmarked, -⟩ :=
    @mark_exact twoArraysHeap twoArrays [1024, 1056] 1040 hos (by decide)
      (fun o ho => by simp [hunmarked o ho.1] at ho) (fun _ => ⟨1024, by decide, rfl⟩)
  refine ⟨m', hrun, ?_, ?_⟩
  · exact (hmarked 1024 (by decide)).2 (.inr ⟨by decide, .refl⟩)
  · exact (hmarked 1056 (by decide)).2 (.inr ⟨by decide, .single (by decide)⟩)

end LamaRv.Gc
