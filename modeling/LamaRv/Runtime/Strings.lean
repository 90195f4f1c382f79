import LamaRv.Lib.WordBytes
import LamaRv.Runtime.Calls

/-!
# Operations on strings (`runtime.c`)

A string has its length in the header, and its bytes, with a zero behind them, in its contents.  The
operations allocate a string of the right length and copy bytes to it, with functions of the C library
that stop at a zero.

* `lsubstring`, `lclone`, `liInfix4343` and what they call: the code;
* `NewString`: a new string with some bytes; `Returns`: a call that makes one;
* `liInfix4343_iff`, `lsubstring_iff`, `lclone_iff`: when the operations do what they should.
-/

namespace LamaRv.Gc

open Marking WordBytes

/-! ### The code -/

/-- The condition of `ASSERT_STRING`. -/
def assertString (m : Mem) (x : ℕ) : Bool :=
  unboxed x || decide (tag (m (toData x)) = LamaType.string.tag)

/-- `LmakeString` after its assertion, which a boxed length meets. -/
def makeString (mmap : ℕ → Option ℕ) (frame length : ℕ) (s : State) : Option (State × ℕ) := do
  let (s, flag) ← preGc frame s
  let n := unbox length
  let (s, r) ← allocString mmap s (toSizeT n)
  return (← postGc frame flag s, r + 16)

/-- `LmakeString`. -/
def lmakeString (mmap : ℕ → Option ℕ) (frame length : ℕ) (s : State) :
    Option (Except String (State × ℕ)) :=
  if !unboxed length then some (.error "unboxed value expected in makeString\n")
  else (makeString mmap frame length s).map .ok

/-- `Bstring`, with the frames of its own and of `LmakeString`. -/
def bstring (mmap : ℕ → Option ℕ) (frame frame' args : ℕ) (s : State) : Option (State × ℕ) := do
  let n ← strlen s.mem (s.mem args)
  let (s, flag) ← preGc frame s
  let (s, p) ← withRoots [args] (makeString mmap frame' (box n)) s
  let m := strncpy (n + 1) p (s.mem args) s.mem
  return (← postGc frame flag { s with mem := m }, p)

/-- Two strings one after the other, in `Li__Infix_4343`. -/
def copyBoth (m : Mem) (da db d : ℕ) : Mem :=
  let la := len (m (toData da))
  let lb := len (m (toData db))
  let m := strncpy la d da m
  let m := strncpy lb (d + la) db m
  setByte m (d + la + lb) 0

/-- `Li__Infix_4343`. -/
def liInfix4343 (mmap : ℕ → Option ℕ) (frame args : ℕ) (s : State) :
    Option (Except String (State × ℕ)) :=
  if !assertString s.mem (s.mem args) then some (.error "string value expected in ++:1\n")
  else if !assertString s.mem (s.mem (args + 8)) then
    some (.error "string value expected in ++:2\n")
  else do
    let la := len (s.mem (toData (s.mem args)))
    let lb := len (s.mem (toData (s.mem (args + 8))))
    let (s, flag) ← preGc frame s
    let (s, d) ← withRoots [args, args + 8] (allocString mmap · (toSizeT (la + lb))) s
    let m := copyBoth s.mem (s.mem args) (s.mem (args + 8)) (d + 16)
    return .ok (← postGc frame flag { s with mem := m }, d + 16)

/-- The text of `failure` in `Lsubstring`. -/
def substringError (pp ll : ℤ) (length : ℕ) : String :=
  "substring: index out of bounds (position=" ++ toString pp ++ ", length=" ++ toString ll ++
    ", subject length=" ++ toString length ++ ")"

/-- `Lsubstring`. -/
def lsubstring (mmap : ℕ → Option ℕ) (frame args : ℕ) (s : State) :
    Option (Except String (State × ℕ)) :=
  let length := len (s.mem (toData (s.mem args)))
  let pp := unbox (s.mem (args + 8))
  let ll := unbox (s.mem (args + 16))
  if !assertString s.mem (s.mem args) then some (.error "string value expected in substring:1\n")
  else if !unboxed (s.mem (args + 8)) then
    some (.error "unboxed value expected in substring:2\n")
  else if !unboxed (s.mem (args + 16)) then
    some (.error "unboxed value expected in substring:3\n")
  else if toSizeT (pp + ll) ≤ length then do
    let (s, flag) ← preGc frame s
    let (s, r) ← withRoots [args] (allocString mmap · (toSizeT ll)) s
    let m := strncpy (toSizeT ll) (r + 16) (s.mem args + pp).toNat s.mem
    return .ok (← postGc frame flag { s with mem := m }, r + 16)
  else some (.error (substringError pp ll length))

/-- The copy that `Lclone` makes of an object that is not a string: all of its words. -/
def cloneObject (allocate : State → Option (State × ℕ)) (size args : ℕ) (s : State) :
    Option (State × ℕ) := do
  let (s, obj) ← allocate s
  return ({ s with mem := s.mem.move obj (toData (s.mem args)) size }, obj + 16)

/-- `Lclone`, with the frames of its own, of `Bstring` and of `LmakeString`, and the address of the
variable `p` that refers to a string. -/
def lclone (mmap : ℕ → Option ℕ) (frame frame₁ frame₂ args p : ℕ) (s : State) :
    Option (Except String (State × ℕ)) :=
  if unboxed (s.mem args) then some (.ok (s, s.mem args))
  else do
    let (s, flag) ← preGc frame s
    let header := s.mem (toData (s.mem args))
    let l := len header
    let clone : Option (State → Option (State × ℕ)) :=
      match tag header with
      | 1 => some fun s => bstring mmap frame₁ frame₂ p { s with mem := s.mem.set p (s.mem args) }
      | 3 => some (cloneObject (allocArray mmap · l) (arraySize l) args)
      | 7 => some (cloneObject (allocClosure mmap · l) (closureSize l) args)
      | 5 => some (cloneObject (allocSexp mmap · l) (sexpSize l) args)
      | _ => none
    match clone with
    | none => some (.error ("invalid data_header " ++ toString (tag header) ++ " in clone *****\n"))
    | some clone =>
      let (s, res) ← withRoots [args] clone s
      return .ok (← postGc frame flag s, res)

/-! ### Strings in memory -/

/-- The bytes of the string at `v`. -/
def stringBytes (m : Mem) (v : ℕ) : List ℕ :=
  (List.range (len (m (toData v)))).map fun i => byteAt m (v + i)

/-- `v` points to a string among the objects. -/
def StringIn (m : Mem) (os : List ℕ) (v : ℕ) : Prop :=
  ∃ o ∈ os, v = o + 16 ∧ getTypeHeaderPtr m o = some .string

/-- A new string with some bytes; the words `roots` refer to what they referred to. -/
structure NewString (s : State) (bytes roots kept : List ℕ) (place : ℕ → ℕ) (s' : State) (p : ℕ) :
    Prop extends Made s .string bytes.length roots kept place s' p where
  bytes : stringBytes s'.mem p = bytes
  operands : ∀ a ∈ roots, s'.mem a = image s.heap place (s.mem a)

/-- A call comes to an end and makes such a string. -/
def Returns (run : Option (Except String (State × ℕ))) (s : State) (bytes roots : List ℕ) : Prop :=
  ∃ s' p kept place, run = some (.ok (s', p)) ∧ NewString s bytes roots kept place s' p

section Strings

variable {mmap : ℕ → ℕ} {s s' s₁ s₂ : State} {os kept roots others : List ℕ} {place : ℕ → ℕ}
  {frame args n o v size : ℕ} {t : LamaType} {m m' : Mem}

@[simp] theorem toData_add (o : ℕ) : toData (o + 16) = o := by simp [toData, dataHeaderSz]

theorem StringIn.not_unboxed (h : StringIn m os v) (hos : ∀ o ∈ os, o % 8 = 0) :
    unboxed v = false := by
  obtain ⟨o, ho, rfl, -⟩ := h
  have := hos o ho
  rw [← Bool.not_eq_true, unboxed_iff]
  omega

theorem tag_of_string (h : getTypeHeaderPtr m o = some .string) : tag (m o) = 1 := by
  unfold getTypeHeaderPtr at h
  split at h <;> first | assumption | cases h

theorem StringIn.assertString (h : StringIn m os v) : Gc.assertString m v = true := by
  obtain ⟨o, -, rfl, ht⟩ := h
  simp [Gc.assertString, tag_of_string ht, LamaType.tag]

theorem objBytes_of_string (h : getTypeHeaderPtr m o = some .string) :
    objBytes m o = 16 + len (m o) + 1 := by
  rw [objBytes, h]
  rfl

theorem fields_of_string (h : getTypeHeaderPtr m o = some .string) : fields m o = [] := by
  rw [fields, fieldCount, h]
  rfl

/-- The bytes of a string that survives, and the zero behind them. -/
theorem Survives.byte (hs : Survives s s' kept place) (ho : o ∈ kept)
    (ht : getTypeHeaderPtr s.mem o = some .string) (hold : o % 8 = 0) (hnew : place o % 8 = 0) {i : ℕ}
    (hi : i ≤ len (s.mem o)) : byteAt s'.mem (place o + 16 + i) = byteAt s.mem (o + 16 + i) := by
  have hbytes := objBytes_of_string ht
  have hword : place o + 16 + i - (place o + 16 + i) % 8 = place o + (16 + i / 8 * 8) := by omega
  have hword' : o + 16 + i - (o + 16 + i) % 8 = o + (16 + i / 8 * 8) := by omega
  have hbyte : (place o + 16 + i) % 8 = i % 8 := by omega
  have hbyte' : (o + 16 + i) % 8 = i % 8 := by omega
  rw [byteAt, byteAt, hword, hword', hbyte, hbyte']
  by_cases hwhole : 16 + i / 8 * 8 + 8 ≤ objBytes s.mem o
  · rw [hs.content o ho _ (by omega) hwhole, fields_of_string ht, if_neg List.not_mem_nil]
  · -- the last word, of which some bytes belong to the string
    have hlast := hs.last o ho (16 + i / 8 * 8) (by omega) (by omega) (by omega) (by omega)
    refine byteOf_of_mod ?_
    have hdvd : 256 ^ (i % 8 + 1) ∣ 256 ^ (objBytes s.mem o - (16 + i / 8 * 8)) :=
      Nat.pow_dvd_pow 256 (by omega)
    rw [← Nat.mod_mod_of_dvd _ hdvd, hlast, Nat.mod_mod_of_dvd _ hdvd]

/-- A pointer to an object is taken for a pointer. -/
theorem Objects.valid_of_mem {heap : MemoryChunk} (hos : Objects m heap.begin os heap.current)
    (ho : o ∈ os) (heven : unboxed (o + 16) = false) : isValidHeapPointer heap (o + 16) = true := by
  have hbounds := hos.bounds o ho
  have hwords := (hos.sound o ho).two_le_words
  simp only [isValidHeapPointer, heven, Bool.not_false, Bool.true_and, Bool.and_eq_true,
    decide_eq_true_eq]
  omega

theorem StringIn.valid {heap : MemoryChunk} (h : StringIn m os v) (hos : Formed heap m os) :
    isValidHeapPointer heap v = true := by
  have heven := h.not_unboxed (hos.objects.aligned hos.aligned).1
  obtain ⟨o, ho, rfl, -⟩ := h
  exact hos.objects.valid_of_mem ho heven

/-- What a root refers to is kept. -/
theorem Ready.mem_kept (h : Ready mmap s os frame roots others size)
    (hrel : Relocates (s.during frame roots) os kept place s₁) {a : ℕ} (ha : a ∈ roots)
    (hvalid : isValidHeapPointer s.heap (s.mem a) = true) : s.mem a - 16 ∈ kept := by
  refine hrel.live _ ⟨a, h.mem_rootWords ha, ?_⟩
  rw [during_mem, during_heap]
  exact ⟨hvalid, .refl⟩

/-- The memory of the state is the one during the call. -/
theorem Ready.formed (h : Ready mmap s os frame roots others size) : Formed s.heap s.mem os := by
  have hformed := h.collectable.formed
  rwa [during_mem, during_heap] at hformed

/-- The header of an operand is found where the root refers to, updated or not. -/
theorem Ready.header_eq (h : Ready mmap s os frame roots others size)
    (hrel : Relocates (s.during frame roots) os kept place s₁)
    (hmakes : Makes mmap (s.during frame roots) s₁ place size) (hgrown : Grown s₁ t n s₂)
    {a : ℕ} (ha : a ∈ roots) (hstring : StringIn s.mem os (s.mem a)) :
    s₂.mem (toData (s₂.mem a)) = s.mem (toData (s.mem a)) := by
  have hvalid := hstring.valid h.formed
  have hkept := h.mem_kept hrel ha hvalid
  obtain ⟨o, ho, heq, -⟩ := hstring
  rw [heq, Nat.add_sub_cancel] at hkept
  rw [(h.grown_eq hrel hmakes hgrown a (List.mem_append_left _ ha)).2, heq, toData_add,
    h.root_eq hrel hmakes ha]
  split_ifs with hfixed
  · rw [image_of_valid hvalid, heq, Nat.add_sub_cancel, toData_add]
    have hbounds := hrel.objects.bounds _ (List.mem_map_of_mem hkept)
    have hwords := (hrel.objects.sound _ (List.mem_map_of_mem hkept)).two_le_words
    rw [hgrown.frame _ (.inl (by omega)), hrel.survives.header o hkept, during_mem]
  · rw [heq, toData_add]
    have hbounds := h.formed.objects.bounds o ho
    have hwords := (h.formed.objects.sound o ho).two_le_words
    have hsize := h.formed.size
    have hle := hrel.objects.le
    have hroom := hgrown.room
    have hend : s₂.heap.endPtr = s₁.heap.endPtr := by rw [hgrown.rest]
    obtain ⟨rfl, -⟩ | hbegin := hmakes.heap
    · rw [hgrown.frame _ (.inl (by rw [during_heap]; omega)), during_mem]
    · have hfresh := (h.fresh s₁.heap.size).heap
      have hchunk := hrel.chunk
      rw [during_heap, ← hbegin] at hfresh
      rw [hgrown.frame _ (by omega), hrel.frame, during_mem]
      · intro hin
        have hout := h.rooted.outside o hin
        rw [during_heap] at hout
        omega
      · intro o' ho' heq'
        have hbounds' := h.formed.objects.bounds o' ho'
        have hwords' := (h.formed.objects.sound o' ho').two_le_words
        have howner := h.formed.objects.owner_unique ho ho' (x := o) (by omega) (by omega)
        omega
      · omega

/-- The bytes of an operand, if the root has been updated. -/
theorem Ready.bytes_eq (h : Ready mmap s os frame roots others size)
    (hrel : Relocates (s.during frame roots) os kept place s₁)
    (hmakes : Makes mmap (s.during frame roots) s₁ place size) (hgrown : Grown s₁ t n s₂)
    {a : ℕ} (ha : a ∈ roots) (hstring : StringIn s.mem os (s.mem a))
    (hroot : s₁.mem a = image s.heap place (s.mem a)) {i : ℕ}
    (hi : i ≤ len (s.mem (toData (s.mem a)))) :
    byteAt s₂.mem (s₂.mem a + i) = byteAt s.mem (s.mem a + i) ∧
      s₂.mem a + i < s₁.heap.current := by
  have hvalid := hstring.valid h.formed
  have hkept := h.mem_kept hrel ha hvalid
  obtain ⟨o, ho, heq, ht⟩ := hstring
  rw [heq, Nat.add_sub_cancel] at hkept
  rw [heq, toData_add] at hi
  have hplace : place o ∈ kept.map place := List.mem_map_of_mem hkept
  have hold := (h.formed.objects.aligned h.formed.aligned).1 o ho
  have hnew := (hrel.objects.aligned hrel.aligned).1 _ hplace
  have hsurvives := hrel.survives.congr hrel.objects fun x hx => hgrown.frame x (.inl hx)
  have hheader : getTypeHeaderPtr (s.during frame roots).mem o = some .string := by rwa [during_mem]
  have hbyte := hsurvives.byte hkept hheader hold hnew (i := i) (by rwa [during_mem])
  have hbounds := hrel.objects.bounds _ hplace
  have hbytes := (hrel.objects.sound _ hplace).bytes_le_words
  have hsame : objBytes s₁.mem (place o) = objBytes s.mem o := by
    rw [objBytes_congr (hrel.survives.header o hkept), during_mem]
  rw [hsame, objBytes_of_string ht] at hbytes
  rw [(h.grown_eq hrel hmakes hgrown a (List.mem_append_left _ ha)).2, hroot, image_of_valid hvalid,
    heq, Nat.add_sub_cancel, hbyte, during_mem]
  exact ⟨rfl, by omega⟩

/-- A call that allocates a string, copies bytes to it and ends. -/
theorem returns_iff (h : Ready mmap s os frame roots [] size)
    (hsize : size = words (LamaType.string.bytes n))
    (hrel : Relocates (s.during frame roots) os kept place s₁)
    (hmakes : Makes mmap (s.during frame roots) s₁ place size) (hgrown : Grown s₁ .string n s₂)
    (hm : ∀ x, (x % 8 = 0 → x < s₁.heap.current + 16 ∨ s₂.heap.current ≤ x) → m x = s₂.mem x)
    {run : Option (Except String (State × ℕ))} {bytes : List ℕ}
    (hrun : run = some (.ok ({ s with mem := m, heap := s₂.heap }, s₁.heap.current + 16))) :
    Returns run s bytes roots ↔
      RootsUpdated s frame roots size ∧ stringBytes m (s₁.heap.current + 16) = bytes := by
  have hroom := h.room
  have hsmall : LamaType.string.bytes n < 2 ^ 64 := by
    rw [hsize] at hroom
    unfold words at hroom
    omega
  have hmade := made_of h hsmall hrel hgrown (m := m) fun a ha => hm a fun _ => ha
  have hroot : ∀ a ∈ roots, m a = s₁.mem a := by
    intro a ha
    obtain ⟨hout, heq⟩ := h.grown_eq hrel hmakes hgrown a (List.mem_append_left _ ha)
    rw [hm a (by omega), heq]
  have hlength : (stringBytes m (s₁.heap.current + 16)).length = n := by
    rw [stringBytes, List.length_map, List.length_range]
    exact hmade.length
  constructor
  · rintro ⟨s', p, kept', place', hrun', hnew⟩
    rw [hrun] at hrun'
    cases hrun'
    have hnew' := hnew.toMade
    refine ⟨hnew'.updated h hrel hmakes hgrown fun a ha => ?_, hnew.bytes⟩
    rw [← hroot a ha]
    exact hnew.operands a ha
  · rintro ⟨hup, rfl⟩
    refine ⟨_, _, kept, place, hrun, ?_, rfl, fun a ha => ?_⟩
    · rwa [hlength]
    · exact (hroot a ha).trans (hup.image_eq h hrel hmakes a ha)

/-! ### Concatenation -/

/-- The bytes of the new object. -/
theorem stringBytes_eq {r : ℕ} (hheader : m r = LamaType.string.tag ||| n <<< 3) :
    stringBytes m (r + 16) = (List.range n).map fun i => byteAt m (r + 16 + i) := by
  rw [stringBytes, toData_add, hheader, len_header LamaType.string.tag_lt]

theorem map_range_append {α : Type} {f g h : ℕ → α} {k l : ℕ} :
    (List.range (k + l)).map f = (List.range k).map g ++ (List.range l).map h ↔
      (∀ i < k, f i = g i) ∧ ∀ i < l, f (k + i) = h i := by
  rw [List.range_add, List.map_append, List.map_map]
  constructor
  · intro heq
    obtain ⟨h₁, h₂⟩ := List.append_inj heq (by simp)
    exact ⟨fun i hi => List.map_inj_left.1 h₁ i (List.mem_range.2 hi),
      fun i hi => List.map_inj_left.1 h₂ i (List.mem_range.2 hi)⟩
  · rintro ⟨h₁, h₂⟩
    congr 1
    · exact List.map_inj_left.2 fun i hi => h₁ i (List.mem_range.1 hi)
    · exact List.map_inj_left.2 fun i hi => h₂ i (List.mem_range.1 hi)

section CopyBoth

variable {da db d la lb : ℕ} (hla : len (m (toData da)) = la) (hlb : len (m (toData db)) = lb)

include hla hlb

theorem copyBoth_of_out {x : ℕ} (h : x % 8 = 0 → x + 8 ≤ d ∨ d + la + lb + 1 ≤ x) :
    copyBoth m da db d x = m x := by
  rw [copyBoth, hla, hlb, setByte_of_ne (by omega), strncpy_of_out (by omega),
    strncpy_of_out (by omega)]

theorem copyBoth_first (ha : ∀ i < la, da + i < d) {i : ℕ} (hi : i < la) :
    byteAt (copyBoth m da db d) (d + i) = cut (fun j => byteAt m (da + j)) i := by
  rw [copyBoth, hla, hlb, byteAt_setByte_of_ne (by decide) (by omega), byteAt_strncpy_of_out (by omega)]
  exact strncpy_spec (fun j hj => .inl (ha j hj)) i hi

theorem copyBoth_second (hb : ∀ i < lb, db + i < d) {i : ℕ} (hi : i < lb) :
    byteAt (copyBoth m da db d) (d + (la + i)) = cut (fun j => byteAt m (db + j)) i := by
  rw [copyBoth, hla, hlb, byteAt_setByte_of_ne (by decide) (by omega), ← Nat.add_assoc]
  rw [strncpy_spec (fun j hj => .inl (by have := hb j hj; omega)) i hi]
  refine cut_congr fun j hj => byteAt_strncpy_of_out (.inl ?_)
  exact hb j (by omega)

end CopyBoth

/-- **Concatenation** gives the bytes of both operands, if in each of them only zeros come after a
zero. -/
theorem liInfix4343_iff {la lb : ℕ}
    (h : Ready mmap s os frame [args, args + 8] [] (words (LamaType.string.bytes (la + lb))))
    (ha : StringIn s.mem os (s.mem args)) (hb : StringIn s.mem os (s.mem (args + 8)))
    (hla : len (s.mem (toData (s.mem args))) = la)
    (hlb : len (s.mem (toData (s.mem (args + 8)))) = lb) (hlen : 8 * (la + lb) < 2 ^ 64) :
    Returns (liInfix4343 (fun k => some (mmap k)) frame args s) s
        (stringBytes s.mem (s.mem args) ++ stringBytes s.mem (s.mem (args + 8))) [args, args + 8] ↔
      RootsUpdated s frame [args, args + 8] (words (LamaType.string.bytes (la + lb))) ∧
        ZeroTail (fun i => byteAt s.mem (s.mem args + i)) la ∧
        ZeroTail (fun i => byteAt s.mem (s.mem (args + 8) + i)) lb := by
  obtain ⟨kept, place, s₁, s₂, hrel, hmakes, hgrown, -, hbody⟩ := h.allocates hlen
  have hroots : withRoots [args, args + 8] (allocString (fun k => some (mmap k)) · (la + lb))
      (s.enter frame) = _ := withRoots_run h (hrel.during_rest hgrown) hbody
  have hsize : toSizeT ((la : ℤ) + lb) = la + lb := by
    rw [← Nat.cast_add, toSizeT_natCast (by omega)]
  have hla₂ : len (s₂.mem (toData (s₂.mem args))) = la := by
    rw [h.header_eq hrel hmakes hgrown (by simp) ha, hla]
  have hlb₂ : len (s₂.mem (toData (s₂.mem (args + 8)))) = lb := by
    rw [h.header_eq hrel hmakes hgrown (by simp) hb, hlb]
  have hcurrent := hgrown.current
  have hwords : 16 + (la + lb) + 1 ≤ 8 * words (LamaType.string.bytes (la + lb)) := by
    simp only [LamaType.bytes, words]
    omega
  have halign := (hrel.objects.aligned hrel.aligned).2
  have hout : ∀ x, (x % 8 = 0 → x < s₁.heap.current + 16 ∨ s₂.heap.current ≤ x) →
      copyBoth s₂.mem (s₂.mem args) (s₂.mem (args + 8)) (s₁.heap.current + 16) x = s₂.mem x :=
    fun x hx => copyBoth_of_out hla₂ hlb₂ (by omega)
  have hrun : liInfix4343 (fun k => some (mmap k)) frame args s = some (.ok
      ({ s with
          mem := copyBoth s₂.mem (s₂.mem args) (s₂.mem (args + 8)) (s₁.heap.current + 16)
          heap := s₂.heap }, s₁.heap.current + 16)) := by
    simp only [liInfix4343, ha.assertString, hb.assertString, hla, hlb, hsize, hroots,
      preGc_spec h.framed, h.postGc, Option.bind_eq_bind, Option.bind_some, Option.pure_def,
      Bool.not_true, Bool.false_eq_true, if_false]
  rw [returns_iff h rfl hrel hmakes hgrown hout hrun]
  refine and_congr_right fun hup => ?_
  have himage := hup.image_eq h hrel hmakes
  have hbytes₁ := fun i hi =>
    h.bytes_eq hrel hmakes hgrown (by simp) ha (himage args (by simp)) (i := i) hi
  have hbytes₂ := fun i hi =>
    h.bytes_eq hrel hmakes hgrown (by simp) hb (himage (args + 8) (by simp)) (i := i) hi
  rw [hla] at hbytes₁
  rw [hlb] at hbytes₂
  rw [stringBytes_eq ((hout _ fun _ => .inl (by omega)).trans hgrown.header), stringBytes,
    stringBytes, hla, hlb, map_range_append, ← cut_eq_iff, ← cut_eq_iff]
  refine and_congr (forall₂_congr fun i hi => ?_) (forall₂_congr fun i hi => ?_)
  · rw [copyBoth_first hla₂ hlb₂ (fun j hj => by have := (hbytes₁ j (by omega)).2; omega) hi]
    rw [cut_congr fun j hj => (hbytes₁ j (by omega)).1]
  · rw [copyBoth_second hla₂ hlb₂ (fun j hj => by have := (hbytes₂ j (by omega)).2; omega) hi]
    rw [cut_congr fun j hj => (hbytes₂ j (by omega)).1]

/-! ### Substrings -/

/-- What `Lsubstring` should do at a position and with a length. -/
structure IsSubstring (run : Option (Except String (State × ℕ))) (s : State) (args : ℕ) (p l : ℤ) :
    Prop where
  inside : 0 ≤ p ∧ 0 ≤ l ∧ p + l ≤ len (s.mem (toData (s.mem args))) →
    Returns run s (((stringBytes s.mem (s.mem args)).drop p.toNat).take l.toNat) [args]
  outside : ¬ (0 ≤ p ∧ 0 ≤ l ∧ p + l ≤ len (s.mem (toData (s.mem args)))) →
    run = some (.error (substringError p l (len (s.mem (toData (s.mem args))))))

theorem unbox_bounds (w : ℕ) : -2 ^ 62 ≤ unbox w ∧ unbox w < 2 ^ 62 := by
  have h₁ : -2 ^ 63 ≤ aint w := by
    have := Int.le_bmod (x := (w : ℤ)) (m := 2 ^ 64) (by decide)
    unfold aint
    omega
  have h₂ : aint w < 2 ^ 63 := by
    have := Int.bmod_lt (x := (w : ℤ)) (m := 2 ^ 64) (by decide)
    unfold aint
    omega
  unfold unbox
  omega

/-- The comparison of an `aint` with a `size_t`. -/
theorem toSizeT_le_iff {x : ℤ} (h₁ : -2 ^ 63 ≤ x) (h₂ : x < 2 ^ 63) (hn : n < 2 ^ 63) :
    toSizeT x ≤ n ↔ 0 ≤ x ∧ x ≤ n := by
  unfold toSizeT
  omega

theorem len_lt {x : ℕ} (h : x < 2 ^ 64) : len x < 2 ^ 61 := by
  have hle : clearBits x 7 < 2 ^ 64 :=
    Nat.xor_lt_two_pow h (Nat.lt_of_le_of_lt Nat.and_le_left h)
  rw [len, Nat.shiftRight_eq_div_pow]
  omega

/-- A part of the bytes of a string. -/
theorem stringBytes_part {v p l : ℕ} (h : p + l ≤ len (m (toData v))) :
    ((stringBytes m v).drop p).take l = (List.range l).map fun i => byteAt m (v + p + i) := by
  refine List.ext_getElem (by simp [stringBytes]; omega) fun i h₁ h₂ => ?_
  simp [stringBytes, Nat.add_assoc]

/-- Behind its checks `Lsubstring` does not fail. -/
theorem lsubstring_not_error {mmap : ℕ → Option ℕ} (hstring : assertString s.mem (s.mem args) = true)
    (hp : unboxed (s.mem (args + 8)) = true) (hl : unboxed (s.mem (args + 16)) = true)
    (hin : toSizeT (unbox (s.mem (args + 8)) + unbox (s.mem (args + 16))) ≤
      len (s.mem (toData (s.mem args)))) (message : String) :
    lsubstring mmap frame args s ≠ some (.error message) := by
  intro hrun
  simp only [lsubstring, hstring, hp, hl, hin, Bool.not_true, Bool.false_eq_true, if_false,
    if_true] at hrun
  obtain ⟨⟨s₁, flag⟩, -, hrun⟩ := Option.bind_eq_some_iff.1 hrun
  obtain ⟨⟨s₂, r⟩, -, hrun⟩ := Option.bind_eq_some_iff.1 hrun
  obtain ⟨s₃, -, hrun⟩ := Option.bind_eq_some_iff.1 hrun
  cases hrun

/-- **A substring** is right if only zeros come after a zero in it; outside of the string the call
fails, if the sum of position and length is outside. -/
theorem lsubstring_iff {p l : ℤ} (ha : StringIn s.mem os (s.mem args))
    (hword : s.mem (toData (s.mem args)) < 2 ^ 64)
    (hp : unboxed (s.mem (args + 8)) = true) (hl : unboxed (s.mem (args + 16)) = true)
    (hpos : unbox (s.mem (args + 8)) = p) (hlen : unbox (s.mem (args + 16)) = l)
    (h : 0 ≤ p ∧ 0 ≤ l ∧ p + l ≤ len (s.mem (toData (s.mem args))) →
      Ready mmap s os frame [args] [] (words (LamaType.string.bytes l.toNat))) :
    IsSubstring (lsubstring (fun k => some (mmap k)) frame args s) s args p l ↔
      (0 ≤ p ∧ 0 ≤ l ∧ p + l ≤ len (s.mem (toData (s.mem args))) →
        RootsUpdated s frame [args] (words (LamaType.string.bytes l.toNat)) ∧
          ZeroTail (fun i => byteAt s.mem (s.mem args + p.toNat + i)) l.toNat) ∧
      (0 ≤ p + l ∧ p + l ≤ len (s.mem (toData (s.mem args))) → 0 ≤ p ∧ 0 ≤ l) := by
  have hpb := unbox_bounds (s.mem (args + 8))
  have hlb := unbox_bounds (s.mem (args + 16))
  have hn := len_lt hword
  rw [hpos] at hpb
  rw [hlen] at hlb
  have hcheck := toSizeT_le_iff (x := p + l) (n := len (s.mem (toData (s.mem args)))) (by omega)
    (by omega) (by omega)
  have hinside (hvalid : 0 ≤ p ∧ 0 ≤ l ∧ p + l ≤ len (s.mem (toData (s.mem args)))) :
      Returns (lsubstring (fun k => some (mmap k)) frame args s) s
          (((stringBytes s.mem (s.mem args)).drop p.toNat).take l.toNat) [args] ↔
        RootsUpdated s frame [args] (words (LamaType.string.bytes l.toNat)) ∧
          ZeroTail (fun i => byteAt s.mem (s.mem args + p.toNat + i)) l.toNat := by
    have h := h hvalid
    obtain ⟨kept, place, s₁, s₂, hrel, hmakes, hgrown, -, hbody⟩ :=
      h.allocates (t := .string) (by omega)
    have hroots : withRoots [args] (allocString (fun k => some (mmap k)) · l.toNat)
        (s.enter frame) = _ := withRoots_run h (hrel.during_rest hgrown) hbody
    have hsize : toSizeT l = l.toNat := by
      unfold toSizeT
      omega
    have hsrc : ((s₂.mem args : ℤ) + p).toNat = s₂.mem args + p.toNat := by omega
    have hcurrent := hgrown.current
    have hwords : 16 + l.toNat + 1 ≤ 8 * words (LamaType.string.bytes l.toNat) := by
      simp only [LamaType.bytes, words]
      omega
    have halign := (hrel.objects.aligned hrel.aligned).2
    have hout : ∀ x, (x % 8 = 0 → x < s₁.heap.current + 16 ∨ s₂.heap.current ≤ x) →
        strncpy l.toNat (s₁.heap.current + 16) (s₂.mem args + p.toNat) s₂.mem x = s₂.mem x :=
      fun x hx => strncpy_of_out (by omega)
    have hrun : lsubstring (fun k => some (mmap k)) frame args s = some (.ok
        ({ s with
            mem := strncpy l.toNat (s₁.heap.current + 16) (s₂.mem args + p.toNat) s₂.mem
            heap := s₂.heap }, s₁.heap.current + 16)) := by
      simp only [lsubstring, ha.assertString, hp, hl, hpos, hlen, hcheck.2 ⟨by omega, hvalid.2.2⟩,
        hsize, hroots, hsrc, preGc_spec h.framed, h.postGc, Option.bind_eq_bind, Option.bind_some,
        Option.pure_def, Bool.not_true, Bool.false_eq_true, if_false, if_true]
    rw [returns_iff h rfl hrel hmakes hgrown hout hrun]
    refine and_congr_right fun hup => ?_
    have hbytes := fun i hi => h.bytes_eq hrel hmakes hgrown (by simp) ha
      (hup.image_eq h hrel hmakes args (by simp)) (i := i) hi
    rw [stringBytes_eq ((hout _ fun _ => .inl (by omega)).trans hgrown.header),
      stringBytes_part (by omega), List.map_inj_left, ← cut_eq_iff]
    simp only [List.mem_range]
    refine forall₂_congr fun i hi => ?_
    have hapart : ∀ j < l.toNat, s₂.mem args + p.toNat + j < s₁.heap.current + 16 := by
      intro j hj
      have := (hbytes (p.toNat + j) (by omega)).2
      omega
    have hcopy := strncpy_spec (m := s₂.mem) (fun j hj => .inl (hapart j hj)) i hi
    have hcut : cut (fun j => byteAt s₂.mem (s₂.mem args + p.toNat + j)) i =
        cut (fun j => byteAt s.mem (s.mem args + p.toNat + j)) i := by
      refine cut_congr fun j hj => ?_
      have hbyte := (hbytes (p.toNat + j) (by omega)).1
      rwa [← Nat.add_assoc, ← Nat.add_assoc] at hbyte
    rw [hcopy, hcut]
  constructor
  · intro hsub
    refine ⟨fun hvalid => (hinside hvalid).1 (hsub.inside hvalid), fun hin => ?_⟩
    by_contra hbad
    have herror := hsub.outside fun hvalid => hbad ⟨hvalid.1, hvalid.2.1⟩
    exact lsubstring_not_error ha.assertString hp hl
      (by rw [hpos, hlen]; exact hcheck.2 hin) _ herror
  · rintro ⟨hright, hsum⟩
    refine ⟨fun hvalid => (hinside hvalid).2 (hright hvalid), fun hbad => ?_⟩
    have hnot : ¬ toSizeT (p + l) ≤ len (s.mem (toData (s.mem args))) := fun hle => by
      have hin := hcheck.1 hle
      exact hbad ⟨(hsum hin).1, (hsum hin).2, hin.2⟩
    simp only [lsubstring, ha.assertString, hp, hl, hpos, hlen, hnot, Bool.not_true,
      Bool.false_eq_true, if_false]

/-! ### Copies -/

/-- The frame of `Lclone` with its variable `p`, which refers to the string. -/
def State.withLocal (s : State) (p v : ℕ) : State := { s with mem := s.mem.set p v }

theorem during_withLocal {p v : ℕ} : (s.withLocal p v).during frame roots =
    { s.during frame roots with mem := s.mem.set p v } := by
  unfold State.during State.enter State.withLocal
  split_ifs <;> rfl

theorem withLocal_enter {p v : ℕ} :
    (s.withLocal p v).enter frame = (s.enter frame).withLocal p v := by
  unfold State.enter State.withLocal
  split_ifs <;> rfl

theorem Framed.of_withLocal {p v : ℕ} (h : Framed (s.withLocal p v) frame) : Framed s frame := by
  obtain ⟨hnonzero, haligned, hbelow, hstack⟩ := h
  rw [withLocal_enter] at hnonzero haligned hbelow hstack
  exact ⟨hnonzero, haligned, hbelow, hstack⟩

/-- `Bstring` in `Lclone`. -/
theorem bstring_run {p k r frame₁ frame₂ : ℕ} (h : Ready mmap s os frame [args, p] [] size)
    (hstrlen : strlen s.mem (s.mem p) = some k) (hk : k < 2 ^ 62) (hf₁ : frame₁ ≤ frame)
    (hf₂ : frame₂ ≤ frame)
    (hrest : s₂ = { s.during frame [args, p] with mem := s₂.mem, heap := s₂.heap })
    (hbody : allocObject .string (fun k => some (mmap k)) (s.during frame [args, p]) k = some (s₂, r)) :
    bstring (fun k => some (mmap k)) frame₁ frame₂ p (s.during frame [args]) =
      some ({ s.during frame [args] with
        mem := strncpy (k + 1) (r + 16) (s₂.mem p) s₂.mem
        heap := s₂.heap }, r + 16) := by
  have hframed := h.framed
  have hbelow := hframed.below
  have htop : ∀ roots, (s.during frame roots).gcStackTop = (s.enter frame).gcStackTop := fun _ => rfl
  have htop₂ : s₂.gcStackTop = (s.enter frame).gcStackTop := by rw [hrest, htop]
  have hmake : makeString (fun k => some (mmap k)) frame₂ (box k) (s.during frame [args, p]) =
      some (s₂, r + 16) := by
    have hpre : preGc frame₂ (s.during frame [args, p]) = some (s.during frame [args, p], false) :=
      preGc_nested hframed.nonzero hframed.aligned (by rw [htop]; omega)
    have hpost : postGc frame₂ false s₂ = some s₂ := postGc_nested (by omega)
    have hsize : toSizeT (unbox (box k)) = k := by rw [unbox_boxed hk, toSizeT_natCast (by omega)]
    simp only [makeString, hpre, hsize, allocString, hbody, hpost, Option.bind_eq_bind,
      Option.bind_some, Option.pure_def]
  have hpush : { s.during frame [args] with extraRoots := (s.during frame [args]).extraRoots ++ [p] } =
      s.during frame [args, p] := by
    simp only [State.during, List.append_assoc, List.cons_append, List.nil_append]
  have hpool : (s.during frame [args]).extraRoots.length + [p].length ≤ maxExtraRootsNumber := by
    have hpool := h.pool
    simp only [State.during, List.length_append, List.length_cons, List.length_nil] at hpool ⊢
    omega
  have hnonempty : (s.during frame [args]).gcStackTop < (s.during frame [args]).gcStackBottom := by
    have hnonempty := h.nonempty
    simpa [State.during] using hnonempty
  have hroots := withRoots_spec hpool hnonempty (by rw [hpush]; exact hmake)
    (by rw [hrest]; simp [State.during])
  have hpre : preGc frame₁ (s.during frame [args]) = some (s.during frame [args], false) :=
    preGc_nested hframed.nonzero hframed.aligned (by rw [htop]; omega)
  simp only [bstring, during_mem, hstrlen, hpre, hroots, Option.bind_eq_bind, Option.bind_some]
  rw [postGc_nested (by dsimp only; omega), hrest]
  rfl

/-- The first zero in a string. -/
theorem exists_strlen {v n : ℕ} (hzero : byteAt m (v + n) = 0) :
    ∃ k ≤ n, byteAt m (v + k) = 0 ∧ ∀ j < k, byteAt m (v + j) ≠ 0 := by
  have hex : ∃ k, byteAt m (v + k) = 0 := ⟨n, hzero⟩
  exact ⟨Nat.find hex, Nat.find_min' hex hzero, Nat.find_spec hex, fun j hj => Nat.find_min hex hj⟩

/-- `Lclone` of a string. -/
theorem lclone_run {p k r frame₁ frame₂ : ℕ}
    (h : Ready mmap (s.withLocal p (s.mem args)) os frame [args, p] [] size)
    (hboxed : unboxed (s.mem args) = false) (htag : tag (s.mem (toData (s.mem args))) = 1)
    (hstrlen : strlen (s.withLocal p (s.mem args)).mem (s.mem args) = some k) (hk : k < 2 ^ 62)
    (hf₁ : frame₁ ≤ frame) (hf₂ : frame₂ ≤ frame)
    (hrest : s₂ = { (s.withLocal p (s.mem args)).during frame [args, p] with
      mem := s₂.mem, heap := s₂.heap })
    (hbody : allocObject .string (fun k => some (mmap k))
      ((s.withLocal p (s.mem args)).during frame [args, p]) k = some (s₂, r)) :
    lclone (fun k => some (mmap k)) frame frame₁ frame₂ args p s = some (.ok
      ({ s.withLocal p (s.mem args) with
        mem := strncpy (k + 1) (r + 16) (s₂.mem p) s₂.mem
        heap := s₂.heap }, r + 16)) := by
  have hlocal : (s.withLocal p (s.mem args)).mem p = s.mem args := Mem.set_self _ _ _
  have hbstring := bstring_run h (by rw [hlocal]; exact hstrlen) hk hf₁ hf₂ hrest hbody
  rw [during_withLocal] at hbstring
  have hframed := h.framed.of_withLocal
  have hpool : (s.enter frame).extraRoots.length + [args].length ≤ maxExtraRootsNumber := by
    have hpool := h.pool
    simp only [State.withLocal, enter_extraRoots, List.length_cons, List.length_nil] at hpool ⊢
    omega
  have hnonempty : (s.enter frame).gcStackTop < (s.enter frame).gcStackBottom := by
    have hnonempty := h.nonempty
    rw [withLocal_enter] at hnonempty
    rwa [enter_gcStackBottom]
  have hbody : bstring (fun k => some (mmap k)) frame₁ frame₂ p
      { s.during frame [args] with mem := s.mem.set p (s.mem args) } = _ := hbstring
  have hroots : withRoots [args] (fun s => bstring (fun k => some (mmap k)) frame₁ frame₂ p
      { s with mem := s.mem.set p (s.mem args) }) (s.enter frame) =
      some ({ s.enter frame with
        mem := strncpy (k + 1) (r + 16) (s₂.mem p) s₂.mem
        heap := s₂.heap }, r + 16) :=
    (withRoots_spec hpool hnonempty (by rw [enter_extraRoots, enter_mem]; exact hbody)
      (by simp [State.during])).trans rfl
  have hpost := postGc_spec hframed (t := { s.enter frame with
    mem := strncpy (k + 1) (r + 16) (s₂.mem p) s₂.mem
    heap := s₂.heap }) rfl
  simp only [lclone, hboxed, preGc_spec hframed, enter_mem, htag, hroots, hpost,
    Option.bind_eq_bind, Option.bind_some, Bool.false_eq_true, if_false, State.withLocal]
  simp

theorem Ready.mono {size' : ℕ} (h : Ready mmap s os frame roots others size) (hle : size' ≤ size) :
    Ready mmap s os frame roots others size' :=
  { h with room := by have := h.room; omega }

/-- The variable lies outside of the heap. -/
theorem Ready.withLocal_eq {p v a : ℕ}
    (h : Ready mmap (s.withLocal p v) os frame [args, p] others size)
    (ha : s.heap.begin ≤ a ∧ a < s.heap.endPtr) : (s.withLocal p v).mem a = s.mem a := by
  have hheap : p + 8 ≤ s.heap.begin ∨ s.heap.endPtr ≤ p := h.heap p (by simp)
  have hne : a ≠ p := by omega
  exact s.mem.set_of_ne v hne

/-- The string is as it was, whatever the variable holds. -/
theorem Ready.withLocal_string {p v : ℕ}
    (h : Ready mmap (s.withLocal p v) os frame [args, p] others size) (ha : StringIn s.mem os v) :
    StringIn (s.withLocal p v).mem os v ∧
      (s.withLocal p v).mem (toData v) = s.mem (toData v) ∧
      ∀ i ≤ len (s.mem (toData v)), byteAt (s.withLocal p v).mem (v + i) = byteAt s.mem (v + i) := by
  obtain ⟨o, ho, rfl, ht⟩ := ha
  have hbounds := h.formed.objects.bounds o ho
  have hsound := h.formed.objects.sound o ho
  have hsize := h.formed.size
  have hwords := hsound.two_le_words
  have hheap : (s.withLocal p (o + 16)).heap = s.heap := rfl
  have hchunk := h.chunk
  rw [hheap] at hbounds hsize hchunk
  have hheader : (s.withLocal p (o + 16)).mem o = s.mem o := h.withLocal_eq (by omega)
  have ht' : getTypeHeaderPtr (s.withLocal p (o + 16)).mem o = some .string := by
    rw [getTypeHeaderPtr, hheader]
    exact ht
  have hbytes := hsound.bytes_le_words
  rw [objBytes_of_string ht', hheader] at hbytes
  refine ⟨⟨o, ho, rfl, ht'⟩, by rw [toData_add, hheader], fun i hi => ?_⟩
  rw [toData_add] at hi
  have halign := (h.formed.objects.aligned h.formed.aligned).1 o ho
  rw [byteAt, byteAt, h.withLocal_eq (by omega)]

/-- **A copy** is right if no byte of the string is zero. -/
theorem lclone_iff {p frame₁ frame₂ : ℕ} (hn : len (s.mem (toData (s.mem args))) = n)
    (h : Ready mmap (s.withLocal p (s.mem args)) os frame [args, p] []
      (words (LamaType.string.bytes n)))
    (ha : StringIn s.mem os (s.mem args)) (hword : s.mem (toData (s.mem args)) < 2 ^ 64)
    (hzero : byteAt s.mem (s.mem args + n) = 0) (hf₁ : frame₁ ≤ frame) (hf₂ : frame₂ ≤ frame) :
    Returns (lclone (fun k => some (mmap k)) frame frame₁ frame₂ args p s)
        (s.withLocal p (s.mem args)) (stringBytes s.mem (s.mem args)) [args, p] ↔
      RootsUpdated (s.withLocal p (s.mem args)) frame [args, p] (words (LamaType.string.bytes n)) ∧
        ∀ i < n, byteAt s.mem (s.mem args + i) ≠ 0 := by
  have hlen := len_lt hword
  rw [hn] at hlen
  obtain ⟨k, hk, hkzero, hfirst⟩ := exists_strlen hzero
  obtain ⟨ha', hheader, hsame⟩ := h.withLocal_string ha
  have hlocal : (s.withLocal p (s.mem args)).mem p = s.mem args := Mem.set_self _ _ _
  rw [hn] at hsame
  have hstrlen : strlen (s.withLocal p (s.mem args)).mem (s.mem args) = some k := by
    refine strlen_spec (by omega) (by rw [hsame k hk, hkzero]) fun j hj => ?_
    rw [hsame j (by omega)]
    exact hfirst j hj
  have hboxed := ha.not_unboxed (h.formed.objects.aligned h.formed.aligned).1
  have htag : tag (s.mem (toData (s.mem args))) = 1 := by
    obtain ⟨o, -, heq, ht⟩ := ha
    rw [heq, toData_add, tag_of_string ht]
  -- the new string has the length up to the first zero
  have hready : Ready mmap (s.withLocal p (s.mem args)) os frame [args, p] []
      (words (LamaType.string.bytes k)) :=
    h.mono (by simp only [LamaType.bytes, words]; omega)
  obtain ⟨kept, place, s₁, s₂, hrel, hmakes, hgrown, -, hbody⟩ :=
    hready.allocates (t := .string) (by omega)
  have hrun := lclone_run hready hboxed htag hstrlen (by omega) hf₁ hf₂ (hrel.during_rest hgrown)
    hbody
  have hcurrent := hgrown.current
  have hwords : 16 + k + 1 ≤ 8 * words (LamaType.string.bytes k) := by
    simp only [LamaType.bytes, words]
    omega
  have halign := (hrel.objects.aligned hrel.aligned).2
  have hout : ∀ x, (x % 8 = 0 → x < s₁.heap.current + 16 ∨ s₂.heap.current ≤ x) →
      strncpy (k + 1) (s₁.heap.current + 16) (s₂.mem p) s₂.mem x = s₂.mem x :=
    fun x hx => strncpy_of_out (by omega)
  rw [returns_iff hready rfl hrel hmakes hgrown hout hrun]
  have hnew := stringBytes_eq ((hout _ fun _ => .inl (by omega)).trans hgrown.header)
  rw [hnew, stringBytes, hn]
  constructor
  · rintro ⟨hup, hbytes⟩
    obtain rfl : k = n := by simpa using congrArg List.length hbytes
    exact ⟨hup, hfirst⟩
  · rintro ⟨hup, hnonzero⟩
    obtain rfl : k = n := by
      by_contra hne
      exact hnonzero k (by omega) hkzero
    refine ⟨hup, List.map_inj_left.2 fun i hi => ?_⟩
    have himage := hup.image_eq hready hrel hmakes p (by simp)
    have hbyte := fun i hi => hready.bytes_eq hrel hmakes hgrown (a := p) (by simp)
      (by rw [hlocal]; exact ha') himage (i := i) hi
    rw [hlocal, hheader, hn] at hbyte
    have hi := List.mem_range.1 hi
    rw [strncpy_spec (fun j hj => .inl (by have := (hbyte j (by omega)).2; omega)) i (by omega)]
    have hsource : ∀ j ≤ i, byteAt s₂.mem (s₂.mem p + j) = byteAt s.mem (s.mem args + j) := by
      intro j hj
      rw [(hbyte j (by omega)).1, hsame j (by omega)]
    rw [cut_congr hsource]
    exact cut_of_nonzero fun j hj => hfirst j (by omega)

/-- **When the operations on strings are exact.** -/
theorem strings_exact :
    (∀ la lb : ℕ,
      Ready mmap s os frame [args, args + 8] [] (words (LamaType.string.bytes (la + lb))) →
      StringIn s.mem os (s.mem args) → StringIn s.mem os (s.mem (args + 8)) →
      len (s.mem (toData (s.mem args))) = la → len (s.mem (toData (s.mem (args + 8)))) = lb →
      8 * (la + lb) < 2 ^ 64 →
      (Returns (liInfix4343 (fun k => some (mmap k)) frame args s) s
          (stringBytes s.mem (s.mem args) ++ stringBytes s.mem (s.mem (args + 8)))
          [args, args + 8] ↔
        RootsUpdated s frame [args, args + 8] (words (LamaType.string.bytes (la + lb))) ∧
          ZeroTail (fun i => byteAt s.mem (s.mem args + i)) la ∧
          ZeroTail (fun i => byteAt s.mem (s.mem (args + 8) + i)) lb)) ∧
    (∀ p l : ℤ, StringIn s.mem os (s.mem args) → s.mem (toData (s.mem args)) < 2 ^ 64 →
      unboxed (s.mem (args + 8)) = true → unboxed (s.mem (args + 16)) = true →
      unbox (s.mem (args + 8)) = p → unbox (s.mem (args + 16)) = l →
      (0 ≤ p ∧ 0 ≤ l ∧ p + l ≤ len (s.mem (toData (s.mem args))) →
        Ready mmap s os frame [args] [] (words (LamaType.string.bytes l.toNat))) →
      (IsSubstring (lsubstring (fun k => some (mmap k)) frame args s) s args p l ↔
        (0 ≤ p ∧ 0 ≤ l ∧ p + l ≤ len (s.mem (toData (s.mem args))) →
          RootsUpdated s frame [args] (words (LamaType.string.bytes l.toNat)) ∧
            ZeroTail (fun i => byteAt s.mem (s.mem args + p.toNat + i)) l.toNat) ∧
        (0 ≤ p + l ∧ p + l ≤ len (s.mem (toData (s.mem args))) → 0 ≤ p ∧ 0 ≤ l))) ∧
    (∀ p frame₁ frame₂ : ℕ, len (s.mem (toData (s.mem args))) = n →
      Ready mmap (s.withLocal p (s.mem args)) os frame [args, p] []
        (words (LamaType.string.bytes n)) →
      StringIn s.mem os (s.mem args) → s.mem (toData (s.mem args)) < 2 ^ 64 →
      byteAt s.mem (s.mem args + n) = 0 → frame₁ ≤ frame → frame₂ ≤ frame →
      (Returns (lclone (fun k => some (mmap k)) frame frame₁ frame₂ args p s)
          (s.withLocal p (s.mem args)) (stringBytes s.mem (s.mem args)) [args, p] ↔
        RootsUpdated (s.withLocal p (s.mem args)) frame [args, p]
            (words (LamaType.string.bytes n)) ∧
          ∀ i < n, byteAt s.mem (s.mem args + i) ≠ 0)) :=
  ⟨fun _ _ => liInfix4343_iff, fun _ _ => lsubstring_iff, fun _ _ _ => lclone_iff⟩

end Strings

/-! ### Strings in a full heap -/

/-- Two strings of two bytes, of which the second one begins with a zero, and vectors that refer to
them. -/
def stringMem : Mem := fun a =>
  match a with
  | 1024 | 1048 => 17
  | 1040 => 25185
  | 1064 => 25088
  | 8208 | 8232 | 8240 | 8248 | 8272 => 1040
  | 8256 | 8264 => 1064
  | 8216 | 8224 | 8288 => 3
  | 8280 => 2 ^ 64 - 1
  | _ => 0

def stringState : State where
  mem := stringMem
  heap := ⟨1024, 1072, 1072, 6⟩
  gcStackTop := 0
  gcStackBottom := 4112
  extraRoots := []
  startCustomData := 8184
  stopCustomData := 8192

/-- The vectors, with the variable of the copy. -/
def stringRoots : List (List ℕ) := [[8208], [8208, 8248], [8232, 8240], [8256, 8264]]

theorem stringState_ready {roots : List ℕ} {size : ℕ} (hroots : roots ∈ stringRoots)
    (hsize : 8 * (12 + size) < 2 ^ 64) :
    Ready (fun _ => 16384) stringState [1024, 1048] 4096 roots [] size := by
  have hformed : Formed stringState.heap stringMem [1024, 1048] := by decide
  have hbits : ∀ o ∈ [1024, 1048], isMarked stringMem (o + 16) = false ∧
      isEnqueued stringMem (o + 16) = false := by decide
  have hwords : ∀ roots ∈ stringRoots, ∀ a ∈ rootWords (stringState.during 4096 roots),
      1072 ≤ a ∧ a + 8 ≤ 16384 ∧ (isValidHeapPointer stringState.heap (stringMem a) = true →
        ∃ o ∈ [1024, 1048], stringMem a = o + 16) := by decide
  have hfixed : ∀ roots ∈ stringRoots, ∀ a ∈ fixedWords (stringState.during 4096 roots),
      1072 ≤ a ∧ a + 8 ≤ 16384 ∧ (isValidHeapPointer stringState.heap (stringMem a) = true →
        a ∈ rootWords (stringState.during 4096 roots)) := by decide
  have hvector : ∀ roots ∈ stringRoots, 0 + roots.length ≤ 32 ∧
      ∀ a ∈ roots, a % 8 = 0 ∧ 1072 ≤ a := by decide
  have hdata : 8184 ≤ 8192 := by decide
  have htop : 4096 % 8 = 0 := by decide
  have hbottom : 4112 % 8 = 0 := by decide
  have hstart : 8184 % 8 = 0 := by decide
  have hstop : 8192 % 8 = 0 := by decide
  have hbelow : 1024 + 8 * 6 ≤ 16384 := by decide
  exact
    { framed := by constructor <;> decide
      nonempty := by decide
      collectable := ⟨hformed, fun o ho => (hbits o ho).1, fun o ho => (hbits o ho).2,
        fun a ha => .inr (hwords roots hroots a ha).1, fun a ha => (hwords roots hroots a ha).2.2⟩
      areas := ⟨fun a ha => .inr (hfixed roots hroots a ha).1, hdata, htop, hbottom, hstart, hstop,
        fun a ha => ((hvector roots hroots).2 a ha).1⟩
      rooted := ⟨fun a ha => .inr (hfixed roots hroots a ha).1,
        fun a ha => (hfixed roots hroots a ha).2.2, hdata⟩
      chunk := rfl
      room := hsize
      pool := (hvector roots hroots).1
      heap := fun a ha => by
        rw [List.append_nil] at ha
        exact .inr ((hvector roots hroots).2 a ha).2
      fresh := fun k => ⟨rfl, .inr hbelow, fun a ha => .inl (by
        rcases ha with ha | ha
        · exact (hwords roots hroots a ha).2.1
        · exact (hfixed roots hroots a ha).2.1)⟩
      apart := by simp
      plain := by simp }

/-- The variable of the copy refers to the first string already. -/
theorem stringState_withLocal : stringState.withLocal 8248 (stringState.mem 8208) = stringState := by
  have hmem : stringMem.set 8248 (stringMem 8208) = stringMem := Function.update_eq_self 8248 stringMem
  exact congrArg (fun m => { stringState with mem := m }) hmem

/-- The three operations on the first string. -/
theorem strings_exact_ab :
    Returns (liInfix4343 (fun _ => some 16384) 4096 8232 stringState) stringState
      [97, 98, 97, 98] [8232, 8240] ∧
    IsSubstring (lsubstring (fun _ => some 16384) 4096 8208 stringState) stringState 8208 1 1 ∧
    Returns (lclone (fun _ => some 16384) 4096 4000 3904 8208 8248 stringState)
      stringState [97, 98] [8208, 8248] := by
  have hfirst : StringIn stringState.mem [1024, 1048] 1040 := ⟨1024, by decide, by decide, by decide⟩
  have hspec {args n : ℕ} := @strings_exact (fun _ => 16384) stringState [1024, 1048] 4096 args n
  refine ⟨?_, ?_, ?_⟩
  · have hconcat := (@hspec 8232 0).1 2 2
      (stringState_ready (by decide) (by decide)) hfirst hfirst (by decide) (by decide) (by decide)
    exact hconcat.2 ⟨.inr (by decide), by decide, by decide⟩
  · have hsub := (@hspec 8208 0).2.1 1 1 hfirst (by decide) (by decide) (by decide)
      (by decide) (by decide) fun _ => stringState_ready (by decide) (by decide)
    exact hsub.2 ⟨fun _ => ⟨.inr (by decide), by decide⟩, by decide⟩
  · have hclone := (@hspec 8208 2).2.2 8248 4000 3904 (by decide)
      (by rw [stringState_withLocal]; exact stringState_ready (by decide) (by decide)) hfirst
      (by decide) (by decide) (by decide) (by decide)
    rw [stringState_withLocal] at hclone
    exact hclone.2 ⟨.inr (by decide), by decide⟩

/-- The second string twice, and the substring of one byte before the first string. -/
theorem not_strings_exact :
    ¬ Returns (liInfix4343 (fun _ => some 16384) 4096 8256 stringState) stringState
      (stringBytes stringState.mem 1064 ++ stringBytes stringState.mem 1064) [8256, 8264] ∧
    ¬ IsSubstring (lsubstring (fun _ => some 16384) 4096 8272 stringState) stringState 8272 (-1)
      1 := by
  have hfirst : StringIn stringState.mem [1024, 1048] 1040 := ⟨1024, by decide, by decide, by decide⟩
  have hsecond : StringIn stringState.mem [1024, 1048] 1064 :=
    ⟨1048, by decide, by decide, by decide⟩
  constructor
  · intro hreturns
    have hconcat := @liInfix4343_iff (fun _ => 16384) stringState [1024, 1048] 4096 8256 2 2
      (stringState_ready (by decide) (by decide)) hsecond hsecond (by decide) (by decide) (by decide)
    exact absurd (hconcat.1 hreturns).2.1 (by decide)
  · intro hsub
    have hspec := @lsubstring_iff (fun _ => 16384) stringState [1024, 1048] 4096 8272 (-1) 1 hfirst
      (by decide) (by decide) (by decide) (by decide) (by decide)
      fun hvalid => absurd hvalid.1 (by decide)
    exact absurd ((hspec.1 hsub).2 (by decide)) (by decide)

end LamaRv.Gc
