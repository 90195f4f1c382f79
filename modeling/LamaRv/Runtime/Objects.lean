import LamaRv.Runtime.Heap
import Mathlib.Data.Nat.Bitwise

/-!
# Objects one after the other

What the functions on headers and on the word of the collector compute, and the two loops of the
collector over memory in which objects stand one after the other.

* `Walk`: the objects that an iterator comes to; `Sound`: objects with a type and a size;
* `fields`: the addresses of the fields that are looked at;
* `forObjects_spec`, `forPtrFields_spec`: the rules of the loops.
-/

namespace LamaRv.Gc

/-! ### Bits -/

section Bits

variable (x y : ℕ)

@[simp] theorem testBit_clearBits (i : ℕ) :
    (clearBits x y).testBit i = (x.testBit i && !y.testBit i) := by
  rw [clearBits, Nat.testBit_xor, Nat.testBit_and]
  cases x.testBit i <;> simp

theorem getMarkBit_eq : getMarkBit x = x.testBit 0 := by
  have := Nat.and_two_pow x 0
  simp only [pow_zero] at this
  rw [getMarkBit, this]
  cases x.testBit 0 <;> rfl

theorem isEnqueuedBit_eq : isEnqueuedBit x = x.testBit 1 := by
  have := Nat.and_two_pow x 1
  simp only [pow_one] at this
  rw [isEnqueuedBit, this]
  cases x.testBit 1 <;> rfl

theorem unboxed_eq : unboxed x = x.testBit 0 := getMarkBit_eq x

theorem unboxed_iff : unboxed x = true ↔ x % 2 = 1 := by
  rw [unboxed_eq, Nat.testBit_zero, decide_eq_true_eq]

theorem testBit_three (i : ℕ) : Nat.testBit 3 i = decide (i < 2) := by
  have : (3 : ℕ) = 2 ^ 2 - 1 := rfl
  rw [this, Nat.testBit_two_pow_sub_one]

theorem testBit_two (i : ℕ) : Nat.testBit 2 i = decide (i = 1) := by
  have : (2 : ℕ) = 2 ^ 1 := rfl
  rw [this, Nat.testBit_two_pow]
  simp [eq_comm]

theorem testBit_one (i : ℕ) : Nat.testBit 1 i = decide (i = 0) := by
  have : (1 : ℕ) = 2 ^ 0 := rfl
  rw [this, Nat.testBit_two_pow]
  simp [eq_comm]

/-- An aligned address has no low bits. -/
theorem testBit_of_aligned {a : ℕ} (h : a % 8 = 0) {i : ℕ} (hi : i < 2) : a.testBit i = false := by
  have : a = a / 8 * 2 ^ 3 := by omega
  rw [this, Nat.testBit_mul_two_pow]
  simp
  omega

@[simp] theorem getMarkBit_setMarkBit : getMarkBit (setMarkBit x) = true := by
  simp [-Nat.testBit_zero, getMarkBit_eq, setMarkBit, testBit_one]

@[simp] theorem isEnqueuedBit_setMarkBit : isEnqueuedBit (setMarkBit x) = isEnqueuedBit x := by
  simp [isEnqueuedBit_eq, setMarkBit, testBit_one]

@[simp] theorem getMarkBit_makeEnqueuedBit : getMarkBit (makeEnqueuedBit x) = getMarkBit x := by
  simp [-Nat.testBit_zero, getMarkBit_eq, makeEnqueuedBit, testBit_two]

@[simp] theorem isEnqueuedBit_makeEnqueuedBit : isEnqueuedBit (makeEnqueuedBit x) = true := by
  simp [isEnqueuedBit_eq, makeEnqueuedBit, testBit_two]

@[simp] theorem getMarkBit_makeDequeuedBit : getMarkBit (makeDequeuedBit x) = getMarkBit x := by
  simp [-Nat.testBit_zero, getMarkBit_eq, makeDequeuedBit, testBit_two]

@[simp] theorem isEnqueuedBit_makeDequeuedBit : isEnqueuedBit (makeDequeuedBit x) = false := by
  simp [isEnqueuedBit_eq, makeDequeuedBit, testBit_two]

@[simp] theorem getMarkBit_resetMarkBit : getMarkBit (resetMarkBit x) = false := by
  simp [-Nat.testBit_zero, getMarkBit_eq, resetMarkBit, testBit_one]

@[simp] theorem isEnqueuedBit_resetMarkBit : isEnqueuedBit (resetMarkBit x) = isEnqueuedBit x := by
  simp [isEnqueuedBit_eq, resetMarkBit, testBit_one]

theorem forwardAddressBits_ext {x y : ℕ} (h : ∀ i, 2 ≤ i → x.testBit i = y.testBit i) :
    forwardAddressBits x = forwardAddressBits y := by
  refine Nat.eq_of_testBit_eq fun i => ?_
  by_cases hi : 2 ≤ i
  · simp [forwardAddressBits, h i hi]
  · have hi : i < 2 := Nat.lt_of_not_le hi
    simp [forwardAddressBits, testBit_three, hi]

@[simp] theorem forwardAddressBits_setMarkBit :
    forwardAddressBits (setMarkBit x) = forwardAddressBits x := by
  refine forwardAddressBits_ext fun i hi => ?_
  simp [setMarkBit, testBit_one]
  omega

@[simp] theorem forwardAddressBits_makeEnqueuedBit :
    forwardAddressBits (makeEnqueuedBit x) = forwardAddressBits x := by
  refine forwardAddressBits_ext fun i hi => ?_
  simp [makeEnqueuedBit, testBit_two]
  omega

@[simp] theorem forwardAddressBits_makeDequeuedBit :
    forwardAddressBits (makeDequeuedBit x) = forwardAddressBits x := by
  refine forwardAddressBits_ext fun i hi => ?_
  simp [makeDequeuedBit, testBit_two]
  omega

variable {x y}

/-- Setting an aligned address. -/
theorem forwardAddressBits_set (h : y % 8 = 0) :
    forwardAddressBits (setForwardAddressBits x y) = y := by
  refine Nat.eq_of_testBit_eq fun i => ?_
  by_cases hi : i < 2
  · simp [forwardAddressBits, setForwardAddressBits, testBit_three, hi, testBit_of_aligned h hi]
  · simp [forwardAddressBits, setForwardAddressBits, testBit_three, hi]

theorem getMarkBit_set (h : y % 8 = 0) : getMarkBit (setForwardAddressBits x y) = getMarkBit x := by
  simp [-Nat.testBit_zero, getMarkBit_eq, setForwardAddressBits, testBit_three, testBit_of_aligned h]

theorem isEnqueuedBit_set (h : y % 8 = 0) :
    isEnqueuedBit (setForwardAddressBits x y) = isEnqueuedBit x := by
  simp [isEnqueuedBit_eq, setForwardAddressBits, testBit_three, testBit_of_aligned h]

/-- The tag and the length in a header. -/
theorem tag_header {t n : ℕ} (ht : t < 8) : tag (t ||| n <<< 3) = t := by
  have h7 : (7 : ℕ) = 2 ^ 3 - 1 := rfl
  rw [tag, h7, Nat.and_two_pow_sub_one_eq_mod, Nat.or_mod_two_pow, Nat.shiftLeft_eq,
    Nat.mul_mod_left, Nat.or_zero]
  exact Nat.mod_eq_of_lt ht

theorem len_header {t n : ℕ} (ht : t < 8) : len (t ||| n <<< 3) = n := by
  refine Nat.eq_of_testBit_eq fun i => ?_
  have h7 : Nat.testBit 7 (3 + i) = false := by
    rw [show (7 : ℕ) = 2 ^ 3 - 1 from rfl, Nat.testBit_two_pow_sub_one]
    simp
  have ht' : Nat.testBit t (3 + i) = false :=
    Nat.testBit_lt_two_pow (ht.trans_le (Nat.pow_le_pow_right (n := 2) (by omega) (Nat.le_add_right 3 i)))
  rw [len, Nat.testBit_shiftRight, testBit_clearBits, Nat.testBit_or, Nat.testBit_shiftLeft, h7, ht']
  simp

end Bits

/-! ### Sizes -/

/-- The size of an object of some type, without wrapping. -/
def LamaType.bytes : LamaType → ℕ → ℕ
  | .array, n => 16 + 8 * n
  | .closure, n => 16 + 8 * n
  | .string, n => 16 + n + 1
  | .sexp, n => 16 + 8 * (n + 1)

theorem LamaType.size_eq {t : LamaType} {n : ℕ} (h : t.bytes n < 2 ^ 64) : t.size n = t.bytes n := by
  cases t <;> simp only [bytes] at h <;>
    simp only [size, bytes, arraySize, closureSize, stringSize, sexpSize, getHeaderSize, dataHeaderSz,
      memberSize] <;>
    rw [← toSizeT_natCast h] <;> push_cast <;> rfl

theorem LamaType.le_bytes (t : LamaType) (n : ℕ) : 16 ≤ t.bytes n := by
  cases t <;> simp only [bytes] <;> omega

/-- `BYTES_TO_WORDS`, without wrapping. -/
def words (bytes : ℕ) : ℕ := (bytes - 1) / 8 + 1

theorem bytesToWords_eq {b : ℕ} (h : 0 < b) (hb : b < 2 ^ 64) : bytesToWords b = words b := by
  rw [bytesToWords, show ((b : ℤ) - 1) = (b - 1 : ℕ) by omega, toSizeT_natCast (by omega), words]

theorem wordsToBytes_eq {w : ℕ} (h : 8 * w < 2 ^ 64) : wordsToBytes w = 8 * w := by
  rw [wordsToBytes, show ((w : ℤ) * 8) = (8 * w : ℕ) by push_cast; ring, toSizeT_natCast h]

/-- The size of the object with its header at `o`. -/
def objBytes (m : Mem) (o : ℕ) : ℕ :=
  match getTypeHeaderPtr m o with
  | some t => t.bytes (len (m o))
  | none => 0

def objWords (m : Mem) (o : ℕ) : ℕ := words (objBytes m o)

/-- The header at `o` has a type, and the size does not wrap. -/
structure Sound (m : Mem) (o : ℕ) : Prop where
  type : (getTypeHeaderPtr m o).isSome
  size : objBytes m o < 2 ^ 64

section Sound

variable {m m' : Mem} {o o' : ℕ}

theorem getTypeHeaderPtr_congr (h : m' o' = m o) : getTypeHeaderPtr m' o' = getTypeHeaderPtr m o := by
  rw [getTypeHeaderPtr, getTypeHeaderPtr, h]

theorem objBytes_congr (h : m' o' = m o) : objBytes m' o' = objBytes m o := by
  rw [objBytes, objBytes, getTypeHeaderPtr_congr h, h]

theorem objWords_congr (h : m' o' = m o) : objWords m' o' = objWords m o := by
  rw [objWords, objWords, objBytes_congr h]

theorem Sound.congr (hs : Sound m o) (h : m' o' = m o) : Sound m' o' :=
  ⟨by rw [getTypeHeaderPtr_congr h]; exact hs.type, by rw [objBytes_congr h]; exact hs.size⟩

theorem Sound.le_bytes (h : Sound m o) : 16 ≤ objBytes m o := by
  obtain ⟨t, ht⟩ := Option.isSome_iff_exists.1 h.type
  rw [objBytes, ht]
  exact t.le_bytes _

theorem Sound.two_le_words (h : Sound m o) : 2 ≤ objWords m o := by
  have := h.le_bytes
  unfold objWords words
  omega

theorem Sound.bytes_le_words (h : Sound m o) :
    objBytes m o ≤ 8 * objWords m o ∧ 8 * objWords m o < objBytes m o + 8 := by
  have := h.le_bytes
  unfold objWords words
  omega

theorem Sound.objSizeHeaderPtr (h : Sound m o) : objSizeHeaderPtr m o = some (objBytes m o) := by
  obtain ⟨t, ht⟩ := Option.isSome_iff_exists.1 h.type
  have hsize := h.size
  rw [objBytes, ht] at hsize ⊢
  simp only [Gc.objSizeHeaderPtr, ht, Option.bind_eq_bind, Option.bind_some, Option.pure_def,
    LamaType.size_eq hsize]

theorem Sound.heapNextObjIterator (h : Sound m o) :
    heapNextObjIterator m o = some (o + 8 * objWords m o) := by
  simp only [Gc.heapNextObjIterator, h.objSizeHeaderPtr, Option.bind_eq_bind, Option.bind_some,
    Option.pure_def, objWords]
  rw [bytesToWords_eq (by have := h.le_bytes; omega) h.size]

theorem Sound.getObjectContentPtr (h : Sound m o) : getObjectContentPtr m o = some (o + 16) := by
  obtain ⟨t, ht⟩ := Option.isSome_iff_exists.1 h.type
  simp [Gc.getObjectContentPtr, ht, getHeaderSize, dataHeaderSz]

theorem Sound.getObjHeaderPtr (h : Sound m o) : getObjHeaderPtr m (o + 16) = some o := by
  obtain ⟨t, ht⟩ := Option.isSome_iff_exists.1 h.type
  simp [Gc.getObjHeaderPtr, getTypeRowPtr, toData, dataHeaderSz, ht, getHeaderSize]

theorem Sound.getEndOfObj (h : Sound m o) : getEndOfObj m o = some (o + objBytes m o) := by
  simp [Gc.getEndOfObj, h.objSizeHeaderPtr]

end Sound

/-! ### Walks -/

/-- From `a` an iterator comes to the objects `os` one after the other, and then to `e`. -/
inductive Walk (m : Mem) : ℕ → List ℕ → ℕ → Prop
  | nil (a : ℕ) : Walk m a [] a
  | cons {a b e : ℕ} {os : List ℕ} : heapNextObjIterator m a = some b → Walk m b os e →
      Walk m a (a :: os) e

/-- From `a` to `e` the memory holds the objects `os`. -/
inductive Objects (m : Mem) : ℕ → List ℕ → ℕ → Prop
  | nil (a : ℕ) : Objects m a [] a
  | cons {a e : ℕ} {os : List ℕ} : Sound m a → Objects m (a + 8 * objWords m a) os e →
      Objects m a (a :: os) e

instance (m : Mem) (o : ℕ) : Decidable (Sound m o) :=
  decidable_of_iff ((getTypeHeaderPtr m o).isSome ∧ objBytes m o < 2 ^ 64)
    ⟨fun h => ⟨h.1, h.2⟩, fun h => ⟨h.type, h.size⟩⟩

theorem objects_nil {m : Mem} {a e : ℕ} : Objects m a [] e ↔ a = e :=
  ⟨fun h => by cases h; rfl, fun h => h ▸ .nil a⟩

theorem objects_cons {m : Mem} {a e o : ℕ} {os : List ℕ} : Objects m a (o :: os) e ↔
    a = o ∧ Sound m o ∧ Objects m (o + 8 * objWords m o) os e := by
  constructor
  · intro h
    cases h with
    | cons hs hrest => exact ⟨rfl, hs, hrest⟩
  · rintro ⟨rfl, hs, hrest⟩
    exact .cons hs hrest

instance decidableObjects (m : Mem) : (a : ℕ) → (os : List ℕ) → (e : ℕ) → Decidable (Objects m a os e)
  | _, [], _ => decidable_of_iff _ objects_nil.symm
  | _, o :: os, e =>
    have := decidableObjects m (o + 8 * objWords m o) os e
    decidable_of_iff _ objects_cons.symm

section Objects

variable {m m' : Mem} {a e o o' : ℕ} {os xs ys : List ℕ}

theorem Objects.walk (h : Objects m a os e) : Walk m a os e := by
  induction h with
  | nil a => exact .nil a
  | cons hs _ ih => exact .cons hs.heapNextObjIterator ih

theorem Objects.congr (h : Objects m a os e) (hm : ∀ o ∈ os, m' o = m o) : Objects m' a os e := by
  induction h with
  | nil a => exact .nil a
  | cons hs _ ih =>
    have hhead := hm _ List.mem_cons_self
    have htail := ih fun o ho => hm o (List.mem_cons_of_mem _ ho)
    rw [← objWords_congr hhead] at htail
    exact .cons (hs.congr hhead) htail

theorem Objects.le (h : Objects m a os e) : a ≤ e := by
  induction h with
  | nil a => exact le_rfl
  | cons hs _ ih => omega

theorem Objects.sound (h : Objects m a os e) : ∀ o ∈ os, Sound m o := by
  induction h with
  | nil a => simp
  | cons hs _ ih => exact List.forall_mem_cons.2 ⟨hs, ih⟩

/-- The objects lie between the ends. -/
theorem Objects.bounds (h : Objects m a os e) :
    ∀ o ∈ os, a ≤ o ∧ o + 8 * objWords m o ≤ e := by
  induction h with
  | nil a => simp
  | cons hs hrest ih =>
    refine List.forall_mem_cons.2 ⟨⟨le_rfl, hrest.le⟩, fun o ho => ?_⟩
    have := ih o ho
    omega

/-- The objects do not overlap. -/
theorem Objects.pairwise (h : Objects m a os e) :
    os.Pairwise fun o o' => o + 8 * objWords m o ≤ o' := by
  induction h with
  | nil a => exact List.Pairwise.nil
  | cons hs hrest ih => exact List.pairwise_cons.2 ⟨fun o ho => (hrest.bounds o ho).1, ih⟩

theorem Objects.aligned (h : Objects m a os e) (ha : a % 8 = 0) :
    (∀ o ∈ os, o % 8 = 0) ∧ e % 8 = 0 := by
  induction h with
  | nil a => exact ⟨by simp, ha⟩
  | cons hs _ ih =>
    obtain ⟨hos, he⟩ := ih (by omega)
    exact ⟨List.forall_mem_cons.2 ⟨ha, hos⟩, he⟩

theorem objects_append : Objects m a (xs ++ ys) e ↔ ∃ b, Objects m a xs b ∧ Objects m b ys e := by
  constructor
  · intro h
    induction xs generalizing a with
    | nil => exact ⟨a, .nil a, h⟩
    | cons x xs ih =>
      cases h with
      | cons hs hrest =>
        obtain ⟨b, hxs, hys⟩ := ih hrest
        exact ⟨b, .cons hs hxs, hys⟩
  · rintro ⟨b, hxs, hys⟩
    induction hxs with
    | nil a => exact hys
    | cons hs _ ih => exact .cons hs (ih hys)

/-- There are at most as many objects as words. -/
theorem Objects.length_le (h : Objects m a os e) : a + 16 * os.length ≤ e := by
  induction h with
  | nil a => simp
  | cons hs _ ih =>
    have := hs.two_le_words
    rw [List.length_cons]
    omega

theorem Objects.nodup (h : Objects m a os e) : os.Nodup := by
  refine h.pairwise.imp_of_mem fun {x y} hx _ hxy heq => ?_
  have := (h.sound x hx).two_le_words
  omega

/-- An address belongs to one object only. -/
theorem Objects.owner_unique (h : Objects m a os e) (ho : o ∈ os) (ho' : o' ∈ os) {x : ℕ}
    (hx : o ≤ x ∧ x < o + 8 * objWords m o) (hx' : o' ≤ x ∧ x < o' + 8 * objWords m o') : o = o' := by
  have key : ∀ {os : List ℕ}, (os.Pairwise fun o o' => o + 8 * objWords m o ≤ o') → o ∈ os →
      o' ∈ os → o = o' := by
    intro os hos ho ho'
    induction hos with
    | nil => cases ho
    | @cons y os hy _ ih =>
      rcases List.mem_cons.1 ho with rfl | h₁ <;> rcases List.mem_cons.1 ho' with rfl | h₂
      · rfl
      · have := hy _ h₂
        omega
      · have := hy _ h₁
        omega
      · exact ih h₁ h₂
  exact key h.pairwise ho ho'

end Objects

/-! ### Fields -/

/-- Where in an object the first field is that is looked at. -/
def fieldOffset (m : Mem) (o : ℕ) : ℕ :=
  match getTypeHeaderPtr m o with
  | some .array => 16
  | some .closure | some .sexp => 24
  | some .string | none => objBytes m o

def fieldStart (m : Mem) (o : ℕ) : ℕ := o + fieldOffset m o

/-- How many fields are looked at: the first word of a closure or an s-expression is not. -/
def fieldCount (m : Mem) (o : ℕ) : ℕ :=
  match getTypeHeaderPtr m o with
  | some .array | some .sexp => len (m o)
  | some .closure => len (m o) - 1
  | some .string | none => 0

/-- The fields that are looked at. -/
def fields (m : Mem) (o : ℕ) : List ℕ :=
  (List.range (fieldCount m o)).map fun i => fieldStart m o + 8 * i

section Fields

variable {m m' : Mem} {o o' : ℕ}

theorem fieldOffset_congr (h : m' o' = m o) : fieldOffset m' o' = fieldOffset m o := by
  simp only [fieldOffset, getTypeHeaderPtr_congr h, objBytes_congr h]

theorem fieldStart_congr (h : m' o = m o) : fieldStart m' o = fieldStart m o := by
  rw [fieldStart, fieldStart, fieldOffset_congr h]

theorem fieldCount_congr (h : m' o' = m o) : fieldCount m' o' = fieldCount m o := by
  simp only [fieldCount, getTypeHeaderPtr_congr h, h]

theorem fields_congr (h : m' o = m o) : fields m' o = fields m o := by
  rw [fields, fields, fieldStart_congr h, fieldCount_congr h]

@[simp] theorem fields_length : (fields m o).length = fieldCount m o := by simp [fields]

theorem Sound.fieldBeginIterator (h : Sound m o) :
    ∃ t, fieldBeginIterator m o = some ⟨t, o, fieldStart m o⟩ := by
  obtain ⟨t, ht⟩ := Option.isSome_iff_exists.1 h.type
  refine ⟨t, ?_⟩
  cases t <;> simp [Gc.fieldBeginIterator, fieldStart, fieldOffset, ht, h.getObjectContentPtr, h.getEndOfObj, memberSize]

/-- An iterator is done when it has passed the fields. -/
theorem Sound.fieldIsDoneIterator (h : Sound m o) (t : LamaType) (i : ℕ) :
    fieldIsDoneIterator m ⟨t, o, fieldStart m o + 8 * i⟩ = some (decide (fieldCount m o ≤ i)) := by
  simp only [Gc.fieldIsDoneIterator, h.getEndOfObj, Option.bind_eq_bind, Option.bind_some,
    Option.pure_def, Option.some.injEq, decide_eq_decide]
  obtain ⟨t, ht⟩ := Option.isSome_iff_exists.1 h.type
  cases t <;> simp only [fieldStart, fieldOffset, fieldCount, objBytes, ht, LamaType.bytes] <;> omega

/-- The fields lie in the contents. -/
theorem Sound.field_bounds (h : Sound m o) : ∀ f ∈ fields m o, o + 16 ≤ f ∧ f + 8 ≤ o + objBytes m o := by
  intro f hf
  obtain ⟨i, hi, rfl⟩ := List.mem_map.1 hf
  have hi := List.mem_range.1 hi
  obtain ⟨t, ht⟩ := Option.isSome_iff_exists.1 h.type
  cases t <;> simp only [fieldStart, fieldOffset, fieldCount, objBytes, ht, LamaType.bytes] at hi ⊢ <;> omega

theorem Sound.field_aligned (h : Sound m o) (ho : o % 8 = 0) : ∀ f ∈ fields m o, f % 8 = 0 := by
  intro f hf
  obtain ⟨i, hi, rfl⟩ := List.mem_map.1 hf
  have hi := List.mem_range.1 hi
  obtain ⟨t, ht⟩ := Option.isSome_iff_exists.1 h.type
  cases t <;> simp only [fieldStart, fieldOffset, fieldCount, objBytes, ht, LamaType.bytes] at hi ⊢ <;> omega

end Fields

/-! ### Loops -/

section Loops

variable {σ : Type} (mem : σ → Mem) {m : Mem} {P : List ℕ → σ → Prop} {s : σ} {n : ℕ}

/-- The loop over the objects `os`, which stand at the addresses `g`: `P` is kept from object to
object, and so is the header of each object. -/
theorem forObjects_map_spec {heap : MemoryChunk} {body : σ → ℕ → Option σ} {os : List ℕ} {a : ℕ}
    (g : ℕ → ℕ) (hobjects : Objects m a (os.map g) heap.current) (hn : os.length < n)
    (hstep : ∀ done o rest s, os = done ++ o :: rest → P done s →
      ∃ s', body s (g o) = some s' ∧ mem s' (g o) = m (g o) ∧ P (done ++ [o]) s') (hs : P [] s) :
    ∃ s', forObjects mem heap body n a s = some s' ∧ P os s' := by
  -- from the middle of the walk
  have key : ∀ (rest done : List ℕ) (n : ℕ) (a : ℕ) (s : σ), os = done ++ rest →
      Objects m a (rest.map g) heap.current → rest.length < n → P done s →
      ∃ s', forObjects mem heap body n a s = some s' ∧ P os s' := by
    intro rest
    induction rest with
    | nil =>
      intro done n a s hos hrest hn hs
      obtain ⟨n, rfl⟩ := Nat.exists_eq_add_one.2 (Nat.zero_lt_of_lt hn)
      have hend : a = heap.current := by cases hrest; rfl
      refine ⟨s, by rw [forObjects, if_pos hend.ge], ?_⟩
      rwa [hos, List.append_nil]
    | cons o rest ih =>
      intro done n a s hos hrest hn hs
      obtain ⟨n, rfl⟩ := Nat.exists_eq_add_one.2 (Nat.zero_lt_of_lt hn)
      cases hrest with
      | cons hsound hrest =>
        have hlt := hrest.le
        have hwords := hsound.two_le_words
        obtain ⟨s₁, hbody, hheader, hs₁⟩ := hstep done o rest s hos hs
        obtain ⟨s₂, hloop, hs₂⟩ := ih (done ++ [o]) n _ s₁ (by rw [hos, List.append_assoc]; rfl) hrest
          (by rw [List.length_cons] at hn; omega) hs₁
        refine ⟨s₂, ?_, hs₂⟩
        rw [forObjects, if_neg (by omega)]
        simp only [hbody, Option.bind_eq_bind, Option.bind_some,
          (hsound.congr hheader).heapNextObjIterator, objWords_congr hheader, hloop]
  exact key os [] n a s rfl hobjects hn hs

theorem forObjects_spec {heap : MemoryChunk} {body : σ → ℕ → Option σ} {os : List ℕ} {a : ℕ}
    (hobjects : Objects m a os heap.current) (hn : os.length < n)
    (hstep : ∀ done o rest s, os = done ++ o :: rest → P done s →
      ∃ s', body s o = some s' ∧ mem s' o = m o ∧ P (done ++ [o]) s') (hs : P [] s) :
    ∃ s', forObjects mem heap body n a s = some s' ∧ P os s' := by
  refine forObjects_map_spec mem id ?_ hn hstep hs
  rwa [List.map_id]

/-- The loop over the fields `fs` of an object, which stand at the addresses `g`. -/
theorem forPtrFields_map_spec {body : σ → ℕ → Option σ} {o : ℕ} {fs : List ℕ} (g : ℕ → ℕ)
    (t : LamaType) (hsound : Sound m o) (hfs : fields m o = fs.map g)
    (hn : fs.length < n) (hheader : ∀ done s, P done s → mem s o = m o)
    (hstep : ∀ done f rest s, fs = done ++ f :: rest → P done s →
      isValidPointer (mem s (g f)) = true → ∃ s', body s (g f) = some s' ∧ P (done ++ [f]) s')
    (hskip : ∀ done f rest s, fs = done ++ f :: rest → P done s →
      isValidPointer (mem s (g f)) = false → P (done ++ [f]) s) (hs : P [] s) :
    ∃ s', forPtrFields mem body n ⟨t, o, fieldStart m o⟩ s = some s' ∧ P fs s' := by
  have hdone : ∀ done s, P done s → ∀ i,
      fieldIsDoneIterator (mem s) ⟨t, o, fieldStart m o + 8 * i⟩ =
        some (decide (fieldCount m o ≤ i)) := by
    intro done s hs i
    have hmem := hheader done s hs
    rw [← fieldStart_congr hmem, ← fieldCount_congr hmem]
    exact (hsound.congr hmem).fieldIsDoneIterator t i
  have hcount : fieldCount m o = fs.length := by rw [← fields_length, hfs, List.length_map]
  have key : ∀ (rest done : List ℕ) (n : ℕ) (s : σ), fs = done ++ rest → rest.length < n →
      P done s → ∃ s', forPtrFields mem body n ⟨t, o, fieldStart m o + 8 * done.length⟩ s = some s' ∧
        P fs s' := by
    intro rest
    induction rest with
    | nil =>
      intro done n s hsplit hn hs
      obtain ⟨n, rfl⟩ := Nat.exists_eq_add_one.2 (Nat.zero_lt_of_lt hn)
      rw [List.append_nil] at hsplit
      refine ⟨s, ?_, hsplit ▸ hs⟩
      simp [forPtrFields, hdone done s hs, hcount, hsplit]
    | cons f rest ih =>
      intro done n s hsplit hn hs
      obtain ⟨n, rfl⟩ := Nat.exists_eq_add_one.2 (Nat.zero_lt_of_lt hn)
      have hlen : fs.length = done.length + (rest.length + 1) := by
        rw [hsplit, List.length_append, List.length_cons]
      have hnext : objNextFieldIterator ⟨t, o, fieldStart m o + 8 * done.length⟩ =
          ⟨t, o, fieldStart m o + 8 * (done ++ [f]).length⟩ := by
        simp [objNextFieldIterator, memberSize]
        omega
      have hf : fieldStart m o + 8 * done.length = g f := by
        have h₁ : (fields m o)[done.length]? = some (g f) := by simp [hfs, hsplit]
        have h₂ : (fields m o)[done.length]? = some (fieldStart m o + 8 * done.length) := by
          simp [fields, List.getElem?_range (show done.length < fieldCount m o by omega)]
        exact Option.some.inj (h₂.symm.trans h₁)
      rw [List.length_cons] at hn
      have hih := fun s => ih (done ++ [f]) n s (by rw [hsplit, List.append_assoc]; rfl) (by omega)
      have hmore : ¬ fieldCount m o ≤ done.length := by omega
      cases hv : isValidPointer (mem s (g f)) with
      | true =>
        obtain ⟨s₁, hbody, hs₁⟩ := hstep done f rest s hsplit hs hv
        obtain ⟨s₂, hloop, hs₂⟩ := hih s₁ hs₁
        rw [← hf] at hv hbody
        refine ⟨s₂, ?_, hs₂⟩
        simp only [forPtrFields, hdone done s hs, hmore, hv, hbody, hnext, hloop,
          Option.bind_eq_bind, Option.bind_some, decide_false, Bool.false_eq_true, if_false, if_true]
      | false =>
        obtain ⟨s₂, hloop, hs₂⟩ := hih s (hskip done f rest s hsplit hs hv)
        rw [← hf] at hv
        refine ⟨s₂, ?_, hs₂⟩
        simp only [forPtrFields, hdone done s hs, hmore, hv, hnext, hloop,
          Option.bind_eq_bind, Option.bind_some, decide_false, Bool.false_eq_true, if_false]
  exact key fs [] n s rfl hn hs

theorem forPtrFields_spec {body : σ → ℕ → Option σ} {o : ℕ} (t : LamaType) (hsound : Sound m o)
    (hn : fieldCount m o < n) (hheader : ∀ done s, P done s → mem s o = m o)
    (hstep : ∀ done f rest s, fields m o = done ++ f :: rest → P done s →
      isValidPointer (mem s f) = true → ∃ s', body s f = some s' ∧ P (done ++ [f]) s')
    (hskip : ∀ done f rest s, fields m o = done ++ f :: rest → P done s →
      isValidPointer (mem s f) = false → P (done ++ [f]) s) (hs : P [] s) :
    ∃ s', forPtrFields mem body n ⟨t, o, fieldStart m o⟩ s = some s' ∧ P (fields m o) s' :=
  forPtrFields_map_spec mem id t hsound (List.map_id _).symm (by rwa [fields_length]) hheader hstep
    hskip hs

/-- A loop whose states carry more than those of another one, which goes on in step with it. -/
theorem forPtrFields_erase {τ : Type} (π : τ → σ) {body : σ → ℕ → Option σ}
    {body' : τ → ℕ → Option τ}
    (hbody : ∀ t f t', body' t f = some t' → body (π t) f = some (π t')) {n : ℕ}
    {it : ObjFieldIterator} {t t' : τ} (h : forPtrFields (fun t => mem (π t)) body' n it t = some t') :
    forPtrFields mem body n it (π t) = some (π t') := by
  induction n generalizing it t with
  | zero => cases h
  | succ n ih =>
    rw [forPtrFields] at h ⊢
    obtain ⟨isDone, hdone, h⟩ := Option.bind_eq_some_iff.1 h
    simp only [hdone, Option.bind_eq_bind, Option.bind_some]
    split_ifs at h ⊢
    · cases h
      rfl
    · obtain ⟨t₁, hrun, h⟩ := Option.bind_eq_some_iff.1 h
      simp only [hbody _ _ _ hrun, Option.bind_some, ih h]
    · exact ih h

end Loops

end LamaRv.Gc
