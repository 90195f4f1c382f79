import LamaRv.Runtime.Compact

/-!
# References in the copy of the heap (`gc.c`)

Between the first and the last pass of the compaction there are two chunks: the old heap, and the
new one with a copy of it.  References in the copy and in the roots become references to the new
places of the objects.

* `shift`: where an address of the old chunk is in the new one; `relocated`: what a word becomes;
* `Copied`: the two chunks; `Updated`: some fields of the copy have been updated;
* `updateReferences_spec`: every field of a marked object, and every root, is relocated.
-/

namespace LamaRv.Gc

open Marking

/-- Where the word at an address of the old chunk is in the new one. -/
def shift (heap heap' : MemoryChunk) (a : ℕ) : ℕ := heap'.begin + (a - heap.begin)

/-- What a word becomes when the objects `kept` move to their places. -/
def relocated (heap heap' : MemoryChunk) (m₀ : Mem) (kept : List ℕ) (v : ℕ) : ℕ :=
  if isValidHeapPointer heap v then placeIn heap'.begin m₀ kept (v - 16) + 16 else v

/-- `heap'` is a chunk of its own with a copy of the located heap. -/
structure Copied (heap heap' : MemoryChunk) (os : List ℕ) (m₀ : Mem) (marked : List ℕ) (m₂ m : Mem) :
    Prop where
  formed : Formed heap m₀ os
  located : Located heap os m₀ marked m₂
  closed : Closed (targets heap m₀) {x | x ∈ marked}
  current : heap'.current = shift heap heap' heap.current
  size : heap.size ≤ heap'.size
  room : totalWords m₀ (keptOf os marked) < heap'.size
  aligned : heap'.begin % 8 = 0
  apart : heap'.begin + 8 * heap'.size ≤ heap.begin ∨ heap.begin + 8 * heap.size ≤ heap'.begin
  copy : ∀ a, heap.begin ≤ a → a + 8 ≤ heap.current → m (shift heap heap' a) = m₂ a

section Copied

variable {heap heap' : MemoryChunk} {m₀ m₂ m₃ m : Mem} {os marked : List ℕ} {o o' f : ℕ}

theorem shift_add {a b : ℕ} (h : heap.begin ≤ a) :
    shift heap heap' (a + b) = shift heap heap' a + b := by
  unfold shift
  omega

theorem shift_inj {a b : ℕ} (ha : heap.begin ≤ a) (hb : heap.begin ≤ b)
    (h : shift heap heap' a = shift heap heap' b) : a = b := by
  unfold shift at h
  omega

/-- Objects that are copied word by word. -/
theorem Objects.shift {a e : ℕ} (h : Objects m₀ a os e) (ha : heap.begin ≤ a)
    (hm : ∀ o ∈ os, m (shift heap heap' o) = m₀ o) :
    Objects m (Gc.shift heap heap' a) (os.map (Gc.shift heap heap')) (Gc.shift heap heap' e) := by
  induction h with
  | nil a => exact .nil _
  | @cons a e os hs _ ih =>
    have hhead := hm a List.mem_cons_self
    refine .cons (hs.congr hhead) ?_
    rw [objWords_congr hhead, ← shift_add ha]
    exact ih (by omega) fun o ho => hm o (List.mem_cons_of_mem _ ho)

theorem fields_shift (ho : heap.begin ≤ o) (hm : m (shift heap heap' o) = m₀ o) :
    fields m (shift heap heap' o) = (fields m₀ o).map (shift heap heap') := by
  rw [fields, fields, fieldCount_congr hm, List.map_map]
  refine List.map_congr_left fun i _ => ?_
  rw [Function.comp_apply, fieldStart, fieldStart, fieldOffset_congr hm, Nat.add_assoc o, shift_add ho,
    Nat.add_assoc]

namespace Copied

variable (h : Copied heap heap' os m₀ marked m₂ m₃)

include h

theorem begin_le (ho : o ∈ os) : heap.begin ≤ o := (h.formed.objects.bounds o ho).1

/-- A word of an object. -/
theorem word (ho : o ∈ os) {a : ℕ} (ha : o ≤ a ∧ a + 8 ≤ o + 8 * objWords m₀ o) :
    m₃ (shift heap heap' a) = m₂ a := by
  have := h.formed.objects.bounds o ho
  exact h.copy a (by omega) (by omega)

theorem header (ho : o ∈ os) : m₃ (shift heap heap' o) = m₀ o := by
  have := (h.formed.objects.sound o ho).two_le_words
  rw [h.word ho (by omega)]
  exact h.located.state.same.header h.formed ho

theorem collectorWord (ho : o ∈ os) : m₃ (shift heap heap' o + 8) = m₂ (o + 8) := by
  have := (h.formed.objects.sound o ho).two_le_words
  rw [← shift_add (h.begin_le ho), h.word ho (by omega)]

theorem content (ho : o ∈ os) {a : ℕ} (ha : o + 16 ≤ a ∧ a + 8 ≤ o + 8 * objWords m₀ o) :
    m₃ (shift heap heap' a) = m₀ a := by
  rw [h.word ho (by omega)]
  exact h.located.state.same.content h.formed ho (by omega)

theorem field_bounds (ho : o ∈ os) (hf : f ∈ fields m₀ o) :
    o + 16 ≤ f ∧ f + 8 ≤ o + 8 * objWords m₀ o := by
  have hs := h.formed.objects.sound o ho
  have := hs.field_bounds f hf
  have := hs.bytes_le_words
  omega

theorem begin_le_field (ho : o ∈ os) (hf : f ∈ fields m₀ o) : heap.begin ≤ f := by
  have := h.begin_le ho
  have := h.field_bounds ho hf
  omega

/-- A field is none of the first two words of an object. -/
theorem field_ne (ho : o ∈ os) (ho' : o' ∈ os) (hf : f ∈ fields m₀ o) {k : ℕ} (hk : k < 16) :
    shift heap heap' o' + k ≠ shift heap heap' f := by
  intro heq
  have hb := h.field_bounds ho hf
  have hw := (h.formed.objects.sound o' ho').two_le_words
  have hbegin := h.begin_le ho
  rw [← shift_add (h.begin_le ho')] at heq
  obtain rfl := shift_inj (by have := h.begin_le ho'; omega) (by omega) heq
  have := h.formed.objects.owner_unique ho ho' (x := o' + k) (by omega) (by omega)
  omega

/-- The copy lies in the new chunk. -/
theorem shift_bounds (ho : o ∈ os) {a : ℕ} (ha : o ≤ a ∧ a < o + 8 * objWords m₀ o) :
    heap'.begin ≤ shift heap heap' a ∧ shift heap heap' a < heap'.begin + 8 * heap'.size := by
  have := h.formed.objects.bounds o ho
  have := h.formed.size
  have := h.size
  unfold shift
  omega

/-- What lies outside the new chunk is not a word of an object. -/
theorem shift_ne {a x : ℕ} (ha : a + 8 ≤ heap'.begin ∨ heap'.begin + 8 * heap'.size ≤ a)
    (ho : o ∈ os) (hx : o ≤ x ∧ x < o + 8 * objWords m₀ o) : shift heap heap' x ≠ a := by
  intro heq
  have := h.shift_bounds ho hx
  omega

theorem header_ne {a k : ℕ} (ha : a + 8 ≤ heap'.begin ∨ heap'.begin + 8 * heap'.size ≤ a)
    (ho : o ∈ os) (hk : k < 16) : shift heap heap' o + k ≠ a := by
  have := (h.formed.objects.sound o ho).two_le_words
  rw [← shift_add (h.begin_le ho)]
  exact h.shift_ne ha ho (by omega)

/-- A pointer in a field of a marked object points to a marked object. -/
theorem pointer (ho : o ∈ os) (hmarked : o ∈ marked) (hf : f ∈ fields m₀ o)
    (hv : isValidHeapPointer heap (m₀ f) = true) : ∃ o' ∈ os, o' ∈ marked ∧ m₀ f = o' + 16 := by
  obtain ⟨o', ho', heq⟩ := h.formed.pointers o ho f hf hv
  refine ⟨o', ho', h.closed o hmarked o' ?_, heq⟩
  refine List.mem_filterMap.2 ⟨f, hf, ?_⟩
  rw [if_pos hv, heq, Nat.add_sub_cancel]

end Copied

/-! ### Words that refer to objects -/

/-- The words `fs`, which stand at the addresses `g`, have been updated; nothing else has changed. -/
structure Updated (heap heap' : MemoryChunk) (m₀ : Mem) (kept : List ℕ) (g : ℕ → ℕ) (m₃ : Mem)
    (fs : List ℕ) (m : Mem) : Prop where
  changed : ∀ f ∈ fs, m (g f) = relocated heap heap' m₀ kept (m₀ f)
  same : ∀ a, (∀ f ∈ fs, a ≠ g f) → m a = m₃ a

/-- What the collector finds in the copies of the objects. -/
structure Readable (heap heap' : MemoryChunk) (os : List ℕ) (m₀ : Mem) (marked : List ℕ) (m : Mem) :
    Prop where
  header : ∀ o ∈ os, m (shift heap heap' o) = m₀ o
  mark : ∀ o ∈ os, isMarked m (shift heap heap' o + 16) = true ↔ o ∈ marked
  enqueued : ∀ o ∈ os, isEnqueued m (shift heap heap' o + 16) = false
  forward : ∀ o ∈ os, o ∈ marked → getForwardAddress m (shift heap heap' o + 16) =
    placeIn heap.begin m₀ (keptOf os marked) o

theorem Copied.readable (h : Copied heap heap' os m₀ marked m₂ m₃) :
    Readable heap heap' os m₀ marked m₃ := by
  have hword : ∀ o ∈ os, m₃ (forwardWord (shift heap heap' o + 16)) = m₂ (forwardWord (o + 16)) := by
    intro o ho
    rw [forwardWord_content, forwardWord_content, h.collectorWord ho]
  refine ⟨fun o ho => h.header ho, fun o ho => ?_, fun o ho => ?_, fun o ho hmarked => ?_⟩
  · rw [isMarked, hword o ho, ← h.located.state.marked o ho, isMarked]
  · have := h.located.state.enqueued o ho
    simp only [List.not_mem_nil, iff_false, Bool.not_eq_true] at this
    rw [isEnqueued, hword o ho, ← this, isEnqueued]
  · rw [getForwardAddress, hword o ho, ← h.located.forward o ho hmarked, getForwardAddress]

/-- Nothing that is found there changes with other words. -/
theorem Readable.congr (h : Readable heap heap' os m₀ marked m₃)
    (hm : ∀ o ∈ os, ∀ k < 16, m (shift heap heap' o + k) = m₃ (shift heap heap' o + k)) :
    Readable heap heap' os m₀ marked m := by
  have hword : ∀ o ∈ os, m (forwardWord (shift heap heap' o + 16)) =
      m₃ (forwardWord (shift heap heap' o + 16)) := by
    intro o ho
    rw [forwardWord_content, hm o ho 8 (by omega)]
  refine ⟨fun o ho => (hm o ho 0 (by omega)).trans (h.header o ho), fun o ho => ?_, fun o ho => ?_,
    fun o ho hmarked => ?_⟩
  · rw [← h.mark o ho, isMarked, isMarked, hword o ho]
  · rw [← h.enqueued o ho, isEnqueued, isEnqueued, hword o ho]
  · rw [← h.forward o ho hmarked, getForwardAddress, getForwardAddress, hword o ho]

/-- The new contents of a marked object. -/
theorem newContent_spec (hos : Formed heap m₀ os) (hm : Readable heap heap' os m₀ marked m)
    (ho : o ∈ os) (hmarked : o ∈ marked) :
    newContent heap' heap m (o + 16) =
      some (placeIn heap'.begin m₀ (keptOf os marked) o + 16) := by
  have hptr : heap'.begin + (o + 16 - heap.begin) = shift heap heap' o + 16 :=
    shift_add (hos.objects.bounds o ho).1
  obtain ⟨t, ht⟩ := Option.isSome_iff_exists.1
    ((hos.objects.sound o ho).congr (hm.header o ho)).type
  have hrow : getTypeRowPtr m (shift heap heap' o + 16) = some t := by
    simp [getTypeRowPtr, toData, dataHeaderSz, ht]
  have hplace : heap'.begin + (placeIn heap.begin m₀ (keptOf os marked) o - heap.begin) =
      placeIn heap'.begin m₀ (keptOf os marked) o := by
    unfold placeIn
    omega
  simp only [newContent, hptr, hm.forward o ho hmarked, hrow, hplace, getHeaderSize, dataHeaderSz,
    Option.bind_eq_bind, Option.bind_some, Option.pure_def]

theorem fixWord_eq (a : ℕ) : fixWord heap' heap m a =
    if isValidHeapPointer heap (m a) then (newContent heap' heap m (m a)).map (m.set a) else some m := by
  have hiff : (isValidPointer (m a) = true ∧ heap.begin ≤ m a ∧ m a ≤ heap.current) ↔
      isValidHeapPointer heap (m a) = true := by
    simp [isValidHeapPointer, isValidPointer, and_assoc]
  simp only [fixWord, hiff]
  split_ifs
  · cases newContent heap' heap m (m a) <;> rfl
  · rfl

/-- A field that holds a pointer is treated like any other word. -/
theorem updateField_eq {a : ℕ} (h : isValidPointer (m a) = true) :
    updateField heap' heap m a = fixWord heap' heap m a := by
  have hiff : (m a < heap.begin ∨ m a > heap.current) ↔ ¬ isValidHeapPointer heap (m a) = true := by
    unfold isValidPointer at h
    simp only [isValidHeapPointer, h, Bool.true_and, Bool.and_eq_true, decide_eq_true_eq]
    omega
  rw [fixWord_eq]
  simp only [updateField, hiff]
  split_ifs
  · cases newContent heap' heap m (m a) <;> rfl
  · rfl

section Updated

variable {g : ℕ → ℕ} {fs : List ℕ}

theorem Updated.nil : Updated heap heap' m₀ (keptOf os marked) g m₃ [] m₃ :=
  ⟨by simp, fun _ _ => rfl⟩

theorem Updated.skip (hm : Updated heap heap' m₀ (keptOf os marked) g m₃ fs m)
    (hf : m (g f) = relocated heap heap' m₀ (keptOf os marked) (m₀ f)) :
    Updated heap heap' m₀ (keptOf os marked) g m₃ (fs ++ [f]) m := by
  refine ⟨fun x hx => ?_, fun a ha => hm.same a fun x hx => ha x (List.mem_append_left _ hx)⟩
  rcases List.mem_append.1 hx with hx | hx
  · exact hm.changed x hx
  · rw [List.mem_singleton.1 hx, hf]

theorem Updated.set (hm : Updated heap heap' m₀ (keptOf os marked) g m₃ fs m)
    (hg : ∀ x ∈ fs, g x = g f → x = f) :
    Updated heap heap' m₀ (keptOf os marked) g m₃ (fs ++ [f])
      (m.set (g f) (relocated heap heap' m₀ (keptOf os marked) (m₀ f))) := by
  refine ⟨fun x hx => ?_, fun a ha => ?_⟩
  · by_cases hxf : x = f
    · rw [hxf, Mem.set_self]
    · have hx : x ∈ fs := by simpa [hxf] using hx
      rw [Mem.set_of_ne _ _ fun h => hxf (hg x hx h), hm.changed x hx]
  · rw [Mem.set_of_ne _ _ (ha f (by simp))]
    exact hm.same a fun x hx => ha x (List.mem_append_left _ hx)

/-- One word, which still is what it was or has been updated to something else than an address in
the old heap. -/
theorem Updated.fixWord (hos : Formed heap m₀ os)
    (hm : Updated heap heap' m₀ (keptOf os marked) g m₃ fs m)
    (hread : Readable heap heap' os m₀ marked m) (hg : ∀ x ∈ fs, g x = g f → x = f)
    (hptr : isValidHeapPointer heap (m₀ f) = true → ∃ o ∈ os, o ∈ marked ∧ m₀ f = o + 16)
    (hvalue : m₃ (g f) = m₀ f) (hagain : f ∉ fs ∨
      isValidHeapPointer heap (relocated heap heap' m₀ (keptOf os marked) (m₀ f)) = false) :
    ∃ m', Gc.fixWord heap' heap m (g f) = some m' ∧
      Updated heap heap' m₀ (keptOf os marked) g m₃ (fs ++ [f]) m' := by
  rw [fixWord_eq]
  by_cases hf : f ∈ fs
  · have hinvalid := hagain.resolve_left fun h => h hf
    rw [hm.changed f hf, hinvalid]
    exact ⟨m, rfl, hm.skip (hm.changed f hf)⟩
  · have hsame : m (g f) = m₀ f := by
      rw [← hvalue]
      exact hm.same _ fun x hx heq => hf (hg x hx heq.symm ▸ hx)
    rw [hsame]
    cases hvalid : isValidHeapPointer heap (m₀ f) with
    | false =>
      refine ⟨m, rfl, hm.skip ?_⟩
      rw [hsame, relocated, hvalid, if_neg Bool.false_ne_true]
    | true =>
      obtain ⟨o, ho, hmarked, heq⟩ := hptr hvalid
      have hnew : newContent heap' heap m (m₀ f) =
          some (relocated heap heap' m₀ (keptOf os marked) (m₀ f)) := by
        rw [relocated, if_pos hvalid, heq, Nat.add_sub_cancel,
          newContent_spec hos hread ho hmarked]
      exact ⟨_, by rw [hnew]; rfl, hm.set hg⟩

end Updated

/-! ### Fields -/

theorem fields_nodup (m : Mem) (o : ℕ) : (fields m o).Nodup := by
  refine List.nodup_range.map fun i j hij => ?_
  omega

/-- No field belongs to two objects. -/
theorem Objects.fields_nodup {a e : ℕ} (h : Objects m a os e) (p : ℕ → Bool) :
    ((os.filter p).flatMap (fields m)).Nodup := by
  rw [List.nodup_flatMap]
  refine ⟨fun o _ => Gc.fields_nodup m o, (h.pairwise.filter p).imp_of_mem fun {o o'} ho ho' hle => ?_⟩
  intro f hf hf'
  have hs := h.sound o (List.mem_of_mem_filter ho)
  have := hs.field_bounds f hf
  have := hs.bytes_le_words
  have := (h.sound o' (List.mem_of_mem_filter ho')).field_bounds f hf'
  omega

/-- Updating fields leaves alone what the collector looks for. -/
theorem Updated.readable {fs : List ℕ} (h : Copied heap heap' os m₀ marked m₂ m₃)
    (hm : Updated heap heap' m₀ (keptOf os marked) (shift heap heap') m₃ fs m)
    (hfs : ∀ f ∈ fs, ∃ o ∈ os, f ∈ fields m₀ o) : Readable heap heap' os m₀ marked m := by
  refine h.readable.congr fun o ho k hk => hm.same _ fun f hf => ?_
  obtain ⟨o', ho', hf⟩ := hfs f hf
  exact h.field_ne ho' ho hf hk

/-- The fields that have been updated when some objects are done. -/
def doneFields (m₀ : Mem) (marked done : List ℕ) : List ℕ :=
  (keptOf done marked).flatMap (fields m₀)

section Objects

variable {done rest fs fs' : List ℕ}

theorem doneFields_of_mem (h : o ∈ marked) :
    doneFields m₀ marked (done ++ [o]) = doneFields m₀ marked done ++ fields m₀ o := by
  simp [doneFields, keptOf, h]

theorem doneFields_of_notMem (h : o ∉ marked) :
    doneFields m₀ marked (done ++ [o]) = doneFields m₀ marked done := by
  simp [doneFields, keptOf, h]

theorem mem_doneFields (hf : f ∈ doneFields m₀ marked done) : ∃ o ∈ done, f ∈ fields m₀ o := by
  obtain ⟨o, ho, hf⟩ := List.mem_flatMap.1 hf
  exact ⟨o, List.mem_of_mem_filter ho, hf⟩

/-- What lies outside the new chunk is not a field. -/
theorem Copied.outside_ne (h : Copied heap heap' os m₀ marked m₂ m₃) {a : ℕ}
    (ha : a + 8 ≤ heap'.begin ∨ heap'.begin + 8 * heap'.size ≤ a) :
    ∀ f ∈ doneFields m₀ marked os, a ≠ shift heap heap' f := by
  intro f hf heq
  obtain ⟨o, ho, hf⟩ := mem_doneFields hf
  have hb := h.field_bounds ho hf
  have := h.shift_bounds ho (a := f) (by omega)
  omega

/-- A field comes only once. -/
theorem Copied.fresh (h : Copied heap heap' os m₀ marked m₂ m₃) (hsplit : os = done ++ o :: rest)
    (hmarked : o ∈ marked) (hfs : fields m₀ o = fs ++ f :: fs') :
    f ∉ doneFields m₀ marked done ++ fs := by
  intro hf
  have hnodup := h.formed.objects.fields_nodup (· ∈ marked)
  have hall : (os.filter (· ∈ marked)).flatMap (fields m₀) =
      (doneFields m₀ marked done ++ fs) ++ f :: (fs' ++ doneFields m₀ marked rest) := by
    simp [doneFields, keptOf, hsplit, hmarked, hfs]
  rw [hall] at hnodup
  exact List.disjoint_of_nodup_append hnodup hf List.mem_cons_self

/-- The fields of a marked object. -/
theorem updateFields_spec (h : Copied heap heap' os m₀ marked m₂ m₃)
    (hsplit : os = done ++ o :: rest) (hmarked : o ∈ marked)
    (hm : Updated heap heap' m₀ (keptOf os marked) (shift heap heap') m₃
      (doneFields m₀ marked done) m) (hheader : m (shift heap heap' o) = m₀ o) (t : LamaType) :
    ∃ m', forPtrFields id (updateField heap' heap) (heap'.size + 1)
        ⟨t, shift heap heap' o, fieldStart m (shift heap heap' o)⟩ m = some m' ∧
      Updated heap heap' m₀ (keptOf os marked) (shift heap heap') m₃
        (doneFields m₀ marked done ++ fields m₀ o) m' := by
  have ho : o ∈ os := by simp [hsplit]
  have hcount : (fields m₀ o).length < heap'.size + 1 := by
    have := h.formed.fieldCount_le ho
    have := h.size
    rw [fields_length]
    omega
  have hbelongs : ∀ fs, (∀ x ∈ fs, x ∈ fields m₀ o) → ∀ x ∈ doneFields m₀ marked done ++ fs,
      ∃ o' ∈ os, x ∈ fields m₀ o' := by
    intro fs hfs x hx
    rcases List.mem_append.1 hx with hx | hx
    · obtain ⟨o', ho', hx⟩ := mem_doneFields hx
      exact ⟨o', by simp [hsplit, ho'], hx⟩
    · exact ⟨o, ho, hfs x hx⟩
  have hinj : ∀ fs, (∀ x ∈ fs, x ∈ fields m₀ o) → ∀ f ∈ fields m₀ o,
      ∀ x ∈ doneFields m₀ marked done ++ fs, shift heap heap' x = shift heap heap' f → x = f := by
    intro fs hfs f hf x hx heq
    obtain ⟨o', ho', hx⟩ := hbelongs fs hfs x hx
    exact shift_inj (h.begin_le_field ho' hx) (h.begin_le_field ho hf) heq
  have hvalue : ∀ f ∈ fields m₀ o, m₃ (shift heap heap' f) = m₀ f := fun f hf =>
    h.content ho (h.field_bounds ho hf)
  have hsound := (h.formed.objects.sound o ho).congr hheader
  obtain ⟨m', hrun, -, hm'⟩ := forPtrFields_map_spec id (m := m)
    (P := fun fs m => (∀ x ∈ fs, x ∈ fields m₀ o) ∧
      Updated heap heap' m₀ (keptOf os marked) (shift heap heap') m₃
        (doneFields m₀ marked done ++ fs) m)
    (shift heap heap') t hsound (fields_shift (h.begin_le ho) hheader) hcount
    (fun fs m' hm' => by
      rw [hheader]
      exact (hm'.2.readable h (hbelongs fs hm'.1)).header o ho)
    (fun fs f fs' m' hfs hm' hv => by
      have hf : f ∈ fields m₀ o := by simp [hfs]
      obtain ⟨m'', hrun, hm''⟩ := hm'.2.fixWord h.formed (hm'.2.readable h (hbelongs fs hm'.1))
        (hinj fs hm'.1 f hf) (h.pointer ho hmarked hf) (hvalue f hf)
        (.inl (h.fresh hsplit hmarked hfs))
      refine ⟨m'', (updateField_eq hv).trans hrun, fun x hx => ?_, by rwa [← List.append_assoc]⟩
      rcases List.mem_append.1 hx with hx | hx
      · exact hm'.1 x hx
      · rwa [List.mem_singleton.1 hx])
    (fun fs f fs' m' hfs hm' hv => by
      have hf : f ∈ fields m₀ o := by simp [hfs]
      have hsame : m' (shift heap heap' f) = m₀ f := by
        rw [← hvalue f hf]
        exact hm'.2.same _ fun x hx heq =>
          h.fresh hsplit hmarked hfs (hinj fs hm'.1 f hf x hx heq.symm ▸ hx)
      have hinvalid : isValidHeapPointer heap (m₀ f) = false := by
        rw [← hsame]
        unfold isValidPointer at hv
        simp only [id] at hv
        simp [isValidHeapPointer, hv]
      refine ⟨fun x hx => ?_, ?_⟩
      · rcases List.mem_append.1 hx with hx | hx
        · exact hm'.1 x hx
        · rwa [List.mem_singleton.1 hx]
      · rw [← List.append_assoc]
        refine hm'.2.skip ?_
        rw [hsame, relocated, hinvalid, if_neg Bool.false_ne_true])
    ⟨by simp, by simpa using hm⟩
  exact ⟨m', hrun, hm'⟩

theorem updateObject_spec (h : Copied heap heap' os m₀ marked m₂ m₃)
    (hsplit : os = done ++ o :: rest)
    (hm : Updated heap heap' m₀ (keptOf os marked) (shift heap heap') m₃
      (doneFields m₀ marked done) m) :
    ∃ m', updateObject heap' heap m (shift heap heap' o) = some m' ∧
      m' (shift heap heap' o) = m₃ (shift heap heap' o) ∧
      Updated heap heap' m₀ (keptOf os marked) (shift heap heap') m₃
        (doneFields m₀ marked (done ++ [o])) m' := by
  have ho : o ∈ os := by simp [hsplit]
  have hread := hm.readable h fun f hf => by
    obtain ⟨o', ho', hf⟩ := mem_doneFields hf
    exact ⟨o', by simp [hsplit, ho'], hf⟩
  have hheader := hread.header o ho
  have hsound := (h.formed.objects.sound o ho).congr hheader
  by_cases hmarked : o ∈ marked
  · obtain ⟨t, hit⟩ := hsound.fieldBeginIterator
    obtain ⟨m', hrun, hm'⟩ := updateFields_spec h hsplit hmarked hm hheader t
    rw [← doneFields_of_mem hmarked] at hm'
    refine ⟨m', ?_, ?_, hm'⟩
    · simp only [updateObject, hsound.getObjectContentPtr, (hread.mark o ho).2 hmarked, hit, hrun,
        Option.bind_eq_bind, Option.bind_some, if_true]
    · rw [h.header ho]
      refine (hm'.readable h fun f hf => ?_).header o ho
      obtain ⟨o', ho', hf⟩ := mem_doneFields hf
      refine ⟨o', ?_, hf⟩
      rcases List.mem_append.1 ho' with ho' | ho'
      · simp [hsplit, ho']
      · rwa [List.mem_singleton.1 ho']
  · have hunmarked : isMarked m (shift heap heap' o + 16) = false := by
      rw [← Bool.not_eq_true, hread.mark o ho]
      exact hmarked
    refine ⟨m, ?_, hheader.trans (h.header ho).symm, ?_⟩
    · simp only [updateObject, hsound.getObjectContentPtr, hunmarked, Option.bind_eq_bind,
        Option.bind_some, Option.pure_def, Bool.false_eq_true, if_false]
    · rwa [doneFields_of_notMem hmarked]

/-- All objects. -/
theorem updateObjects_spec (h : Copied heap heap' os m₀ marked m₂ m₃) :
    ∃ m', forObjects id heap' (updateObject heap' heap) (heap'.size + 1) heap'.begin m₃ = some m' ∧
      Updated heap heap' m₀ (keptOf os marked) (shift heap heap') m₃
        (doneFields m₀ marked os) m' := by
  have hobjects : Objects m₃ (shift heap heap' heap.begin) (os.map (shift heap heap'))
      (shift heap heap' heap.current) :=
    h.formed.objects.shift le_rfl fun o ho => h.header ho
  have hbegin : shift heap heap' heap.begin = heap'.begin := by simp [shift]
  rw [hbegin, ← h.current] at hobjects
  refine forObjects_map_spec id (P := fun done m => Updated heap heap' m₀ (keptOf os marked)
      (shift heap heap') m₃ (doneFields m₀ marked done) m) (shift heap heap') hobjects ?_
    (fun done o rest m hsplit hm => updateObject_spec h hsplit hm) .nil
  have := h.formed.length_le
  have := h.size
  omega

end Objects

/-! ### Roots -/

theorem fixWords_append (xs ys : List ℕ) (m : Mem) :
    fixWords heap' heap (xs ++ ys) m = (fixWords heap' heap xs m).bind (fixWords heap' heap ys) := by
  induction xs generalizing m with
  | nil => rfl
  | cons x xs ih =>
    rw [List.cons_append, fixWords, fixWords]
    cases Gc.fixWord heap' heap m x with
    | none => rfl
    | some m' => exact ih m'

/-- Words that lie outside the new chunk.  One that comes twice must not look like an address in the
old heap any more when it has been updated. -/
theorem fixWords_spec {as : List ℕ} (hos : Formed heap m₀ os)
    (hread : Readable heap heap' os m₀ marked m₃)
    (hout : ∀ a ∈ as, ∀ o ∈ os, ∀ k < 16, shift heap heap' o + k ≠ a)
    (hvalue : ∀ a ∈ as, m₃ a = m₀ a)
    (hptr : ∀ a ∈ as, isValidHeapPointer heap (m₀ a) = true →
      ∃ o ∈ os, o ∈ marked ∧ m₀ a = o + 16)
    (hagain : ∀ a, List.Duplicate a as →
      isValidHeapPointer heap (relocated heap heap' m₀ (keptOf os marked) (m₀ a)) = false) :
    ∃ m', fixWords heap' heap as m₃ = some m' ∧
      Updated heap heap' m₀ (keptOf os marked) id m₃ as m' := by
  have key : ∀ rest done m, as = done ++ rest →
      Updated heap heap' m₀ (keptOf os marked) id m₃ done m →
      ∃ m', fixWords heap' heap rest m = some m' ∧
        Updated heap heap' m₀ (keptOf os marked) id m₃ as m' := by
    intro rest
    induction rest with
    | nil =>
      intro done m hsplit hm
      rw [List.append_nil] at hsplit
      exact ⟨m, rfl, hsplit ▸ hm⟩
    | cons a rest ih =>
      intro done m hsplit hm
      have ha : a ∈ as := by simp [hsplit]
      have hread' := hread.congr fun o ho k hk => hm.same (shift heap heap' o + k) fun x hx =>
        hout x (by simp [hsplit, hx]) o ho k hk
      have hagain' : a ∉ done ∨
          isValidHeapPointer heap (relocated heap heap' m₀ (keptOf os marked) (m₀ a)) = false := by
        by_cases hdone : a ∈ done
        · refine .inr (hagain a ?_)
          rw [List.duplicate_iff_two_le_count, hsplit, List.count_append, List.count_cons_self]
          have := List.count_pos_iff.2 hdone
          omega
        · exact .inl hdone
      obtain ⟨m₁, hfix, hm₁⟩ := hm.fixWord (f := a) hos hread' (fun x _ h => h) (hptr a ha)
        (hvalue a ha) hagain'
      obtain ⟨m₂, hrest, hm₂⟩ := ih (done ++ [a]) m₁ (by rw [hsplit, List.append_assoc]; rfl) hm₁
      refine ⟨m₂, ?_, hm₂⟩
      simp only [fixWords, id] at hfix ⊢
      simp only [hfix, hrest, Option.bind_eq_bind, Option.bind_some]
  exact key as [] m₃ rfl .nil

end Copied

/-- The words in which roots are updated. -/
def fixedWords (s : State) : List ℕ :=
  wordsBetween (s.gcStackTop + 8) (s.gcStackBottom + 8) ++
    (s.extraRoots.filter (fun root => !skipsRoot s root) ++ dataWords s)

/-- The copies of the objects and the roots, with all references updated. -/
structure Referenced (heap heap' : MemoryChunk) (os : List ℕ) (m₀ : Mem) (marked roots : List ℕ)
    (m : Mem) : Prop where
  readable : Readable heap heap' os m₀ marked m
  content : ∀ o ∈ os, o ∈ marked → ∀ a, o + 16 ≤ a ∧ a + 8 ≤ o + 8 * objWords m₀ o →
    m (shift heap heap' a) =
      if a ∈ fields m₀ o then relocated heap heap' m₀ (keptOf os marked) (m₀ a) else m₀ a
  roots : ∀ a ∈ roots, m a = relocated heap heap' m₀ (keptOf os marked) (m₀ a)

/-- **Updating references.** -/
theorem updateReferences_spec {s : State} {heap : MemoryChunk} {m₀ m₂ : Mem} {os marked : List ℕ}
    (h : Copied heap s.heap os m₀ marked m₂ s.mem)
    (hout : ∀ a ∈ fixedWords s, a + 8 ≤ s.heap.begin ∨ s.heap.begin + 8 * s.heap.size ≤ a)
    (hvalue : ∀ a ∈ fixedWords s, s.mem a = m₀ a)
    (hptr : ∀ a ∈ fixedWords s, isValidHeapPointer heap (m₀ a) = true →
      ∃ o ∈ os, o ∈ marked ∧ m₀ a = o + 16)
    (hagain : ∀ a, List.Duplicate a (fixedWords s) →
      isValidHeapPointer heap (relocated heap s.heap m₀ (keptOf os marked) (m₀ a)) = false)
    (hdata : s.startCustomData ≤ s.stopCustomData) :
    ∃ m, updateReferences s heap = some { s with mem := m } ∧
      Referenced heap s.heap os m₀ marked (fixedWords s) m ∧
      ∀ a, a + 8 ≤ s.heap.begin ∨ s.heap.begin + 8 * s.heap.size ≤ a → a ∉ fixedWords s →
        m a = s.mem a := by
  obtain ⟨m₄, hobjects, hm₄⟩ := updateObjects_spec h
  have hdone : ∀ f ∈ doneFields m₀ marked os, ∃ o ∈ os, f ∈ fields m₀ o := fun f hf =>
    mem_doneFields hf
  have hread := hm₄.readable h hdone
  have hfield : ∀ a, a + 8 ≤ s.heap.begin ∨ s.heap.begin + 8 * s.heap.size ≤ a →
      ∀ f ∈ doneFields m₀ marked os, a ≠ shift heap s.heap f := fun a ha => h.outside_ne ha
  have hobject : ∀ a ∈ fixedWords s, ∀ o ∈ os, ∀ x, o ≤ x → x < o + 8 * objWords m₀ o →
      shift heap s.heap x ≠ a := fun a ha o ho x hx hx' => h.shift_ne (hout a ha) ho ⟨hx, hx'⟩
  have hwords : ∀ o ∈ os, ∀ k < 16, ∀ a ∈ fixedWords s, shift heap s.heap o + k ≠ a :=
    fun o ho k hk a ha => h.header_ne (hout a ha) ho hk
  obtain ⟨m₅, hroots, hm₅⟩ := fixWords_spec h.formed hread (fun a ha o ho k hk => hwords o ho k hk a ha)
    (fun a ha => (hm₄.same a (hfield a (hout a ha))).trans (hvalue a ha)) hptr hagain
  refine ⟨m₅, ?_, ⟨?_, ?_, ?_⟩, ?_⟩
  · rw [fixedWords, fixWords_append] at hroots
    obtain ⟨m₆, hstack, hroots⟩ := Option.bind_eq_some_iff.1 hroots
    rw [fixWords_append] at hroots
    obtain ⟨m₇, hextra, hwords⟩ := Option.bind_eq_some_iff.1 hroots
    rw [dataWords] at hwords
    have hassert : (guard (s.stopCustomData ≥ s.startCustomData) : Option Unit) = some () := if_pos hdata
    simp only [updateReferences, hobjects, scanAndFixRegion, hstack, scanAndFixRegionRoots, hextra,
      hassert, hwords, Option.bind_eq_bind, Option.bind_some, Option.pure_def]
  · exact hread.congr fun o ho k hk => hm₅.same _ fun a ha => hwords o ho k hk a ha
  · intro o ho hmarked a ha
    rw [hm₅.same _ fun x hx => hobject x hx o ho a (by omega) (by omega)]
    split_ifs with hf
    · exact hm₄.changed a (List.mem_flatMap.2 ⟨o, by simp [keptOf, ho, hmarked], hf⟩)
    · rw [hm₄.same, h.content ho ha]
      intro f hf' heq
      obtain ⟨o', ho', hf'⟩ := hdone f hf'
      have hle := h.begin_le ho
      obtain rfl := shift_inj (by omega) (h.begin_le_field ho' hf') heq
      have hb := h.field_bounds ho' hf'
      obtain rfl := h.formed.objects.owner_unique ho ho' (x := a) (by omega) (by omega)
      exact hf hf'
  · exact hm₅.changed
  · intro a ha hroot
    rw [hm₅.same a fun x hx heq => hroot (heq ▸ hx), hm₄.same a (hfield a ha)]

end LamaRv.Gc
