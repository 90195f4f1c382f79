import LamaRv.Runtime.Strings

/-!
# Values (`runtime.c`)

What a word stands for is a tree: an integer, an address outside of the heap, or an object whose
fields are trees again.

* `Value`: the trees; `weight`: their size;
* `Represents`: a word stands for a value;
* `Represents.unique`: it stands for one value only;
* `Represents.relocate`: where the objects are moved, the new word stands for the same value.
-/

namespace LamaRv.Gc

open Marking WordBytes

/-- How a function of the runtime ends before it returns. -/
inductive Stop
  | fuel
  | failure (text : String)
  deriving DecidableEq, Repr

/-- `switch` on the tag of an object. -/
def switchTag {α : Type} (tag : ℕ) (string closure array sexp default : α) : α :=
  match tag with
  | 1 => string
  | 7 => closure
  | 3 => array
  | 5 => sexp
  | _ => default

section Switch

variable {α : Type} (string closure array sexp default : α)

@[simp] theorem switchTag_string :
    switchTag LamaType.string.tag string closure array sexp default = string := rfl

@[simp] theorem switchTag_closure :
    switchTag LamaType.closure.tag string closure array sexp default = closure := rfl

@[simp] theorem switchTag_array :
    switchTag LamaType.array.tag string closure array sexp default = array := rfl

@[simp] theorem switchTag_sexp :
    switchTag LamaType.sexp.tag string closure array sexp default = sexp := rfl

end Switch

/-- A value of the language. -/
inductive Value
  | int (n : ℤ)
  | pointer (a : ℕ)
  | string (bytes : List ℕ)
  | array (fields : List Value)
  | sexp (tag : ℤ) (fields : List Value)
  | closure (code : ℕ) (fields : List Value)

namespace Value

mutual

/-- The number of nodes. -/
def weight : Value → ℕ
  | .int _ | .pointer _ | .string _ => 1
  | .array vs | .sexp _ vs | .closure _ vs => weightAll vs + 1

def weightAll : List Value → ℕ
  | [] => 0
  | v :: vs => weight v + weightAll vs

end

mutual

/-- The addresses outside of the heap that occur in a value. -/
def pointers : Value → List ℕ
  | .int _ | .string _ => []
  | .pointer a => [a]
  | .array vs | .sexp _ vs | .closure _ vs => pointersAll vs

def pointersAll : List Value → List ℕ
  | [] => []
  | v :: vs => pointers v ++ pointersAll vs

end

theorem weight_pos (v : Value) : 0 < v.weight := by
  cases v <;> simp [weight]

/-- The bytes before the first zero. -/
def text (bytes : List ℕ) : List ℕ := bytes.takeWhile (· ≠ 0)

end Value

/-- `w` points to an object of some kind and length. -/
def ObjectAt (m : Mem) (os : List ℕ) (t : LamaType) (n w : ℕ) : Prop :=
  ∃ o ∈ os, w = o + 16 ∧ getTypeHeaderPtr m o = some t ∧ len (m o) = n ∧ m o < 2 ^ 64

mutual

/-- A word stands for a value.  The tag of an s-expression has been an integer of the language; code
lies in the half of the address space that programs have. -/
def Represents (heap : MemoryChunk) (m : Mem) (os : List ℕ) : Value → ℕ → Prop
  | .int n, w => w < 2 ^ 64 ∧ unboxed w = true ∧ unbox w = n
  | .pointer a, w => w < 2 ^ 64 ∧ unboxed w = false ∧ isValidHeapPointer heap w = false ∧ w = a
  | .string bytes, w => ObjectAt m os .string bytes.length w ∧ stringBytes m w = bytes ∧
      byteAt m (w + bytes.length) = 0
  | .array vs, w => ObjectAt m os .array vs.length w ∧ RepresentsAll heap m os vs w
  | .sexp t vs, w => ObjectAt m os .sexp vs.length w ∧ aint (m w) = t ∧ -2 ^ 62 ≤ t ∧ t < 2 ^ 62 ∧
      RepresentsAll heap m os vs (w + 8)
  | .closure code vs, w => ObjectAt m os .closure (vs.length + 1) w ∧ m w = code ∧ code < 2 ^ 63 ∧
      RepresentsAll heap m os vs (w + 8)

/-- The words from `a` on stand for values. -/
def RepresentsAll (heap : MemoryChunk) (m : Mem) (os : List ℕ) : List Value → ℕ → Prop
  | [], _ => True
  | v :: vs, a => Represents heap m os v (m a) ∧ RepresentsAll heap m os vs (a + 8)

end

section Objects

variable {heap : MemoryChunk} {m : Mem} {os : List ℕ} {t : LamaType} {n w o : ℕ} {v v' : Value}

theorem ObjectAt.not_unboxed (h : ObjectAt m os t n w) (hos : Placed heap m os) :
    unboxed w = false := by
  obtain ⟨o, ho, rfl, -⟩ := h
  have := (hos.objects.aligned hos.aligned).1 o ho
  rw [← Bool.not_eq_true, unboxed_iff]
  omega

theorem ObjectAt.valid (h : ObjectAt m os t n w) (hos : Placed heap m os) :
    isValidHeapPointer heap w = true := by
  have heven := h.not_unboxed hos
  obtain ⟨o, ho, rfl, -⟩ := h
  exact hos.objects.valid_of_mem ho heven

theorem ObjectAt.len_eq (h : ObjectAt m os t n w) : len (m (toData w)) = n := by
  obtain ⟨o, -, rfl, -, hlen, -⟩ := h
  rwa [toData_add]

theorem ObjectAt.length_lt (h : ObjectAt m os t n w) : n < 2 ^ 61 := by
  obtain ⟨o, -, -, -, rfl, hword⟩ := h
  exact len_lt hword

theorem ObjectAt.type (h : ObjectAt m os t n w) : getTypeHeaderPtr m (toData w) = some t := by
  obtain ⟨o, -, rfl, ht, -⟩ := h
  rwa [toData_add]

/-- The tag in a header of some kind. -/
theorem tag_of_type (h : getTypeHeaderPtr m o = some t) : tag (m o) = t.tag := by
  unfold getTypeHeaderPtr at h
  split at h <;> first | (cases h; assumption) | cases h

theorem ObjectAt.tag (h : ObjectAt m os t n w) : Gc.tag (m (toData w)) = t.tag :=
  tag_of_type h.type

/-- The fields of an object of some kind. -/
theorem mem_fields_array {i : ℕ} (h : getTypeHeaderPtr m o = some .array) (hi : i < len (m o)) :
    o + 16 + 8 * i ∈ fields m o := by
  refine List.mem_map.2 ⟨i, ?_, ?_⟩ <;> simp [fieldStart, fieldOffset, fieldCount, h, hi]

theorem mem_fields_sexp {i : ℕ} (h : getTypeHeaderPtr m o = some .sexp) (hi : i < len (m o)) :
    o + 24 + 8 * i ∈ fields m o := by
  refine List.mem_map.2 ⟨i, ?_, ?_⟩ <;> simp [fieldStart, fieldOffset, fieldCount, h, hi]

theorem mem_fields_closure {i : ℕ} (h : getTypeHeaderPtr m o = some .closure)
    (hi : i + 1 < len (m o)) : o + 24 + 8 * i ∈ fields m o := by
  refine List.mem_map.2 ⟨i, ?_, ?_⟩ <;>
    simp [fieldStart, fieldOffset, fieldCount, h, Nat.lt_sub_of_add_lt hi]

/-- The first word of an s-expression or a closure is not a field. -/
theorem not_mem_fields (h : getTypeHeaderPtr m o = some .sexp ∨
    getTypeHeaderPtr m o = some .closure) : o + 16 ∉ fields m o := by
  intro hf
  obtain ⟨i, -, hi⟩ := List.mem_map.1 hf
  rcases h with h | h <;> simp only [fieldStart, fieldOffset, h] at hi <;> omega

theorem represents_int {n : ℤ} (h : w < 2 ^ 64) (hu : unboxed w = true) (hn : unbox w = n) :
    Represents heap m os (.int n) w := by
  rw [Represents]
  exact ⟨h, hu, hn⟩

theorem represents_string {bytes : List ℕ} (h : ObjectAt m os .string bytes.length w)
    (hbytes : stringBytes m w = bytes) (hzero : byteAt m (w + bytes.length) = 0) :
    Represents heap m os (.string bytes) w := by
  rw [Represents]
  exact ⟨h, hbytes, hzero⟩

/-- The functions of the C library find the bytes before the first zero. -/
theorem textAt_of_bytes {bytes : List ℕ} (h : ObjectAt m os .string bytes.length w)
    (hbytes : stringBytes m w = bytes) (hzero : byteAt m (w + bytes.length) = 0) :
    TextAt m (Value.text bytes) w := by
  have htext := textAt_takeWhile hzero
  rwa [← h.len_eq, ← stringBytes, hbytes] at htext

theorem text_length_le (bytes : List ℕ) : (Value.text bytes).length ≤ bytes.length :=
  (List.takeWhile_prefix _).length_le

/-! ### The kind of a value -/

/-- What the runtime tells words apart by. -/
inductive Kind
  | int
  | pointer
  | object (t : LamaType)

def Value.kind : Value → Kind
  | .int _ => .int
  | .pointer _ => .pointer
  | .string _ => .object .string
  | .array _ => .object .array
  | .sexp _ _ => .object .sexp
  | .closure _ _ => .object .closure

/-- A word of some kind. -/
def HasKind (heap : MemoryChunk) (m : Mem) : Kind → ℕ → Prop
  | .int, w => unboxed w = true
  | .pointer, w => unboxed w = false ∧ isValidHeapPointer heap w = false
  | .object t, w => unboxed w = false ∧ isValidHeapPointer heap w = true ∧
      getTypeHeaderPtr m (toData w) = some t

theorem HasKind.unique {k k' : Kind} (h : HasKind heap m k w) (h' : HasKind heap m k' w) : k = k' := by
  cases k <;> cases k' <;> simp_all [HasKind]

theorem Represents.hasKind (h : Represents heap m os v w) (hos : Placed heap m os) :
    HasKind heap m v.kind w := by
  cases v with
  | int n =>
    rw [Represents] at h
    exact h.2.1
  | pointer a =>
    rw [Represents] at h
    exact ⟨h.2.1, h.2.2.1⟩
  | string | array | sexp | closure =>
    rw [Represents] at h
    exact ⟨h.1.not_unboxed hos, h.1.valid hos, h.1.type⟩

mutual

/-- A word stands for one value only. -/
theorem Represents.unique (hos : Placed heap m os) {v v' : Value} {w : ℕ}
    (h : Represents heap m os v w) (h' : Represents heap m os v' w) : v = v' := by
  have hkind : v.kind = v'.kind := (h.hasKind hos).unique (h'.hasKind hos)
  cases v with
  | int n =>
    cases v' <;> simp only [Value.kind, reduceCtorEq] at hkind
    rw [Represents] at h h'
    rw [← h.2.2, ← h'.2.2]
  | pointer a =>
    cases v' <;> simp only [Value.kind, reduceCtorEq] at hkind
    rw [Represents] at h h'
    rw [← h.2.2.2, ← h'.2.2.2]
  | string bytes =>
    cases v' <;> simp only [Value.kind, reduceCtorEq, Kind.object.injEq] at hkind
    rw [Represents] at h h'
    rw [← h.2.1, ← h'.2.1]
  | array vs =>
    cases v' <;> simp only [Value.kind, reduceCtorEq, Kind.object.injEq] at hkind
    rw [Represents] at h h'
    rw [RepresentsAll.unique hos (h.1.len_eq.symm.trans h'.1.len_eq) h.2 h'.2]
  | sexp t vs =>
    cases v' <;> simp only [Value.kind, reduceCtorEq, Kind.object.injEq] at hkind
    rw [Represents] at h h'
    rw [← h.2.1, ← h'.2.1,
      RepresentsAll.unique hos (h.1.len_eq.symm.trans h'.1.len_eq) h.2.2.2.2 h'.2.2.2.2]
  | closure code vs =>
    cases v' <;> simp only [Value.kind, reduceCtorEq, Kind.object.injEq] at hkind
    rw [Represents] at h h'
    have hlen := h.1.len_eq.symm.trans h'.1.len_eq
    rw [← h.2.1, ← h'.2.1, RepresentsAll.unique hos (by omega) h.2.2.2 h'.2.2.2]

theorem RepresentsAll.unique (hos : Placed heap m os) {vs vs' : List Value} {a : ℕ}
    (hlen : vs.length = vs'.length) (h : RepresentsAll heap m os vs a)
    (h' : RepresentsAll heap m os vs' a) : vs = vs' := by
  cases vs with
  | nil => exact (List.length_eq_zero_iff.1 hlen.symm).symm
  | cons v vs =>
    cases vs' with
    | nil => cases hlen
    | cons v' vs' =>
      rw [RepresentsAll] at h h'
      rw [Represents.unique hos h.1 h'.1, RepresentsAll.unique hos (Nat.succ.inj hlen) h.2 h'.2]

end

end Objects

/-! ### Values that are moved -/

section Relocate

variable {s s' : State} {os kept : List ℕ} {place : ℕ → ℕ} {t : LamaType} {n o f p : ℕ}

/-- What a live object refers to is live. -/
theorem Live.field (h : Live s o) (hf : f ∈ fields s.mem o)
    (hvalid : isValidHeapPointer s.heap (s.mem f) = true) : Live s (s.mem f - 16) := by
  obtain ⟨a, ha, hroot, hreach⟩ := h
  refine ⟨a, ha, hroot, hreach.tail ?_⟩
  exact List.mem_filterMap.2 ⟨f, hf, by rw [if_pos hvalid]⟩

theorem ObjectAt.relocate (h : ObjectAt s.mem os t n p) (hos : Placed s.heap s.mem os)
    (hrel : Relocates s os kept place s')
    (hlive : isValidHeapPointer s.heap p = true → Live s (p - 16)) :
    ObjectAt s'.mem (kept.map place) t n (image s.heap place p) ∧
      ∃ o ∈ kept, o ∈ os ∧ Live s o ∧ p = o + 16 ∧ image s.heap place p = place o + 16 := by
  have hvalid := h.valid hos
  have hlive := hlive hvalid
  obtain ⟨o, ho, rfl, ht, hlen, hword⟩ := h
  rw [Nat.add_sub_cancel] at hlive
  have hkept := hrel.live o hlive
  have hheader := hrel.survives.header o hkept
  have himage : image s.heap place (o + 16) = place o + 16 := by
    rw [image_of_valid hvalid, Nat.add_sub_cancel]
  refine ⟨⟨place o, List.mem_map_of_mem hkept, himage, ?_, ?_, ?_⟩, o, hkept, ho, hlive, rfl, himage⟩
  · rwa [getTypeHeaderPtr_congr hheader]
  · rwa [hheader]
  · rwa [hheader]

mutual

/-- **A value that is moved** is represented by the new word. -/
theorem Represents.relocate (hos : Placed s.heap s.mem os) (hrel : Relocates s os kept place s')
    {v : Value} {p : ℕ} (h : Represents s.heap s.mem os v p)
    (hlive : isValidHeapPointer s.heap p = true → Live s (p - 16))
    (hout : ∀ a ∈ v.pointers, isValidHeapPointer s'.heap a = false) :
    Represents s'.heap s'.mem (kept.map place) v (image s.heap place p) := by
  cases v with
  | int x =>
    rw [Represents] at h ⊢
    rwa [image_of_not_valid (by simp [isValidHeapPointer, h.2.1])]
  | pointer a =>
    rw [Represents] at h ⊢
    rw [image_of_not_valid (by simp [h.2.2.1])]
    exact ⟨h.1, h.2.1, h.2.2.2 ▸ hout a (by simp [Value.pointers]), h.2.2.2⟩
  | string bytes =>
    rw [Represents] at h ⊢
    obtain ⟨hnew, o, hkept, ho, -, rfl, himage⟩ := h.1.relocate hos hrel hlive
    have hlen := h.1.len_eq
    have ht := h.1.type
    rw [toData_add] at hlen ht
    have hbyte {i : ℕ} (hi : i ≤ bytes.length) :
        byteAt s'.mem (place o + 16 + i) = byteAt s.mem (o + 16 + i) :=
      hrel.survives.byte hkept ht ((hos.objects.aligned hos.aligned).1 o ho)
        ((hrel.objects.aligned hrel.aligned).1 _ (List.mem_map_of_mem hkept)) (by omega)
    refine ⟨hnew, ?_, ?_⟩
    · rw [← h.2.1, stringBytes, stringBytes, hnew.len_eq, h.1.len_eq, himage]
      exact List.map_congr_left fun i hi => hbyte (List.mem_range.1 hi).le
    · rw [himage, hbyte le_rfl]
      exact h.2.2
  | array vs =>
    rw [Represents] at h ⊢
    obtain ⟨hnew, o, hkept, ho, ho', rfl, himage⟩ := h.1.relocate hos hrel hlive
    have hlen := h.1.len_eq
    have ht := h.1.type
    rw [toData_add] at hlen ht
    have hbytes : objBytes s.mem o = 16 + 8 * vs.length := by
      rw [objBytes, ht, hlen]
      rfl
    refine ⟨hnew, ?_⟩
    rw [himage]
    refine h.2.relocate hos hrel (fun j hj => ?_) (fun j hj => ?_) hout
    · have hfield := mem_fields_array ht (i := j) (by omega)
      have hcontent := hrel.survives.content o hkept (16 + 8 * j) (by omega) (by omega)
      rw [← Nat.add_assoc, ← Nat.add_assoc, if_pos hfield] at hcontent
      exact hcontent
    · exact ho'.field (mem_fields_array ht (by omega))
  | sexp x vs =>
    rw [Represents] at h ⊢
    obtain ⟨hnew, o, hkept, ho, ho', rfl, himage⟩ := h.1.relocate hos hrel hlive
    have hlen := h.1.len_eq
    have ht := h.1.type
    rw [toData_add] at hlen ht
    have hbytes : objBytes s.mem o = 16 + 8 * (vs.length + 1) := by
      rw [objBytes, ht, hlen]
      rfl
    have hfirst := hrel.survives.content o hkept 16 (by omega) (by omega)
    rw [if_neg (not_mem_fields (.inl ht))] at hfirst
    rw [himage]
    refine ⟨himage ▸ hnew, by rw [hfirst]; exact h.2.1, h.2.2.1, h.2.2.2.1, ?_⟩
    refine h.2.2.2.2.relocate hos hrel (fun j hj => ?_) (fun j hj => ?_) hout
    · have hfield := mem_fields_sexp ht (i := j) (by omega)
      have hcontent := hrel.survives.content o hkept (24 + 8 * j) (by omega) (by omega)
      rw [← Nat.add_assoc, ← Nat.add_assoc, if_pos hfield] at hcontent
      exact hcontent
    · exact ho'.field (mem_fields_sexp ht (by omega))
  | closure code vs =>
    rw [Represents] at h ⊢
    obtain ⟨hnew, o, hkept, ho, ho', rfl, himage⟩ := h.1.relocate hos hrel hlive
    have hlen := h.1.len_eq
    have ht := h.1.type
    rw [toData_add] at hlen ht
    have hbytes : objBytes s.mem o = 16 + 8 * (vs.length + 1) := by
      rw [objBytes, ht, hlen]
      rfl
    have hfirst := hrel.survives.content o hkept 16 (by omega) (by omega)
    rw [if_neg (not_mem_fields (.inr ht))] at hfirst
    rw [himage]
    refine ⟨himage ▸ hnew, by rw [hfirst]; exact h.2.1, h.2.2.1, ?_⟩
    refine h.2.2.2.relocate hos hrel (fun j hj => ?_) (fun j hj => ?_) hout
    · have hfield := mem_fields_closure ht (i := j) (by omega)
      have hcontent := hrel.survives.content o hkept (24 + 8 * j) (by omega) (by omega)
      rw [← Nat.add_assoc, ← Nat.add_assoc, if_pos hfield] at hcontent
      exact hcontent
    · exact ho'.field (mem_fields_closure ht (by omega))

theorem RepresentsAll.relocate (hos : Placed s.heap s.mem os) (hrel : Relocates s os kept place s')
    {vs : List Value} {a b : ℕ} (h : RepresentsAll s.heap s.mem os vs a)
    (hword : ∀ j < vs.length, s'.mem (b + 8 * j) = image s.heap place (s.mem (a + 8 * j)))
    (hlive : ∀ j < vs.length, isValidHeapPointer s.heap (s.mem (a + 8 * j)) = true →
      Live s (s.mem (a + 8 * j) - 16))
    (hout : ∀ a ∈ Value.pointersAll vs, isValidHeapPointer s'.heap a = false) :
    RepresentsAll s'.heap s'.mem (kept.map place) vs b := by
  cases vs with
  | nil => rw [RepresentsAll]; trivial
  | cons v vs =>
    rw [RepresentsAll] at h ⊢
    rw [Value.pointersAll] at hout
    have hhead := hword 0 (Nat.zero_lt_succ _)
    rw [Nat.mul_zero, Nat.add_zero, Nat.add_zero] at hhead
    rw [hhead]
    refine ⟨h.1.relocate hos hrel (hlive 0 (Nat.zero_lt_succ _)) fun a ha =>
      hout a (List.mem_append_left _ ha), ?_⟩
    have hnext (x j : ℕ) : x + 8 + 8 * j = x + 8 * (j + 1) := by omega
    refine h.2.relocate hos hrel (fun j hj => ?_) (fun j hj => ?_) fun a ha =>
      hout a (List.mem_append_right _ ha)
    · rw [hnext, hnext]
      exact hword (j + 1) (Nat.succ_lt_succ hj)
    · rw [hnext]
      exact hlive (j + 1) (Nat.succ_lt_succ hj)

end

end Relocate

end LamaRv.Gc
