import LamaRv.Runtime.Comparison
import LamaRv.Runtime.ObjectStore

/-!
# The objects of a store in memory (`runtime.c`)

Each object of the store that is still needed has a place in the heap.  The functions of the runtime find
there what the store says.

* `Denotes`: a word stands for a content;
* `Shows`, `Displays`: an object, and some objects, are in memory;
* `Displays.call`: the functions that look return what the store says;
* `Displays.bsta`: `Bsta` writes what the store says.
-/

namespace LamaRv.Gc

open WordBytes

/-- A word stands for a content, where the objects `ids` are at their places. -/
def Denotes (ids : List ℕ) (place : ℕ → ℕ) : Content → ℕ → Prop
  | .int n, w => w < 2 ^ 64 ∧ unboxed w = true ∧ unbox w = n
  | .ref i, w => i ∈ ids ∧ w = place i + 16

/-- What a function returns stands for what the store says. -/
inductive Returned (ids : List ℕ) (place : ℕ → ℕ) : Except String Content → Except String ℕ → Prop
  | error (e : String) : Returned ids place (.error e) (.error e)
  | ok {c : Content} {w : ℕ} : Denotes ids place c w → Returned ids place (.ok c) (.ok w)

/-- Where a field is in an object. -/
def Obj.position (o : Obj) (k : ℕ) : ℕ := if o.kind = .sexp then 24 + 8 * k else 16 + 8 * k

/-- At `p` there is an object. -/
structure Shows (ids : List ℕ) (place : ℕ → ℕ) (m : Mem) (p : ℕ) (o : Obj) : Prop where
  sized : Sized o.kind o.length
  header : m p = o.kind.tag ||| o.length <<< 3
  first : o.HasFirst → m (p + 16) = o.first ∧ o.first < 2 ^ 64
  field : ∀ k c, o.IsField k → o.field k = some c → Denotes ids place c (m (p + o.position k))
  byte : o.kind = .string → ∀ k < o.length, byteAt m (p + 16 + k) = o.byte k
  zero : o.kind = .string → byteAt m (p + 16 + o.length) = 0

/-- The objects `ids` are at their places, in the address space. -/
structure Displays (obj : ℕ → Obj) (ids : List ℕ) (place : ℕ → ℕ) (m : Mem) : Prop where
  shows : ∀ i ∈ ids, Shows ids place m (place i) (obj i)
  aligned : ∀ i ∈ ids, place i % 8 = 0
  space : ∀ i ∈ ids, place i + 8 * words ((obj i).kind.bytes (obj i).length) ≤ 2 ^ 64
  injective : ∀ i ∈ ids, ∀ j ∈ ids, place i = place j → i = j

/-! ### Contents -/

section Contents

variable {ids ids' : List ℕ} {place place' : ℕ → ℕ} {n : ℤ} {i w : ℕ} {c d : Content} {b : Bool}

theorem unboxed_box (n : ℤ) : unboxed (box n) = true := by
  rw [unboxed_iff, box, toSizeT]
  omega

theorem box_lt (n : ℤ) : box n < 2 ^ 64 := by
  rw [box, toSizeT]
  omega

/-- What is boxed is an integer of the language. -/
theorem denotes_box (n : ℤ) : Denotes ids place (.int (n.bmod (2 ^ 63))) (box n) := by
  refine ⟨box_lt n, unboxed_box n, ?_⟩
  rw [unbox_box_int, word63, BitVec.toInt_ofInt]

theorem denotes_box_of_fits (h : Content.Fits n) : Denotes ids place (.int n) (box n) := by
  obtain ⟨hlow, hhigh⟩ := h
  have hn : n.bmod (2 ^ 63) = n := Int.bmod_eq_of_le (by omega) (by omega)
  have := @denotes_box ids place n
  rwa [hn] at this

theorem denotes_truth (b : Bool) : Denotes ids place (.truth b) (boxTruth b) := by
  refine denotes_box_of_fits ?_
  cases b <;> decide

theorem Denotes.not_unboxed (h : Denotes ids place (.ref i) w) (ha : place i % 8 = 0) :
    unboxed w = false := by
  rw [h.2, ← Bool.not_eq_true, unboxed_iff]
  omega

theorem Denotes.toData (h : Denotes ids place (.ref i) w) : toData w = place i := by
  rw [h.2, toData_add]

/-- The contents stay where the objects go. -/
theorem Denotes.mono (h : Denotes ids place c w) (hids : ∀ i ∈ ids, i ∈ ids' ∧ place' i = place i) :
    Denotes ids' place' c w := by
  cases c with
  | int n => exact h
  | ref i => exact ⟨(hids i h.1).1, by rw [(hids i h.1).2]; exact h.2⟩

/-- A word as a signed number. -/
theorem aint_eq (hw : w < 2 ^ 64) : aint w = if w < 2 ^ 63 then (w : ℤ) else w - 2 ^ 64 := by
  unfold aint
  split_ifs with hlt
  · exact Int.bmod_eq_of_le (by omega) (by omega)
  · rw [← Int.sub_bmod_right]
    exact Int.bmod_eq_of_le (by omega) (by omega)

/-- A word is known from its integer. -/
theorem unbox_inj {v : ℕ} (hw : w < 2 ^ 64) (hv : v < 2 ^ 64) (hodd : unboxed w = true)
    (hodd' : unboxed v = true) (h : unbox w = unbox v) : w = v := by
  rw [unboxed_iff] at hodd hodd'
  rw [unbox, unbox, aint_eq hw, aint_eq hv] at h
  split_ifs at h <;> omega

/-- Numbers below some bound are integers of the language. -/
theorem fits_natCast {k : ℕ} (h : k < 2 ^ 61) : Content.Fits k := by
  refine ⟨?_, ?_⟩ <;> omega

end Contents

/-! ### One object -/

section Shows

variable {ids : List ℕ} {place : ℕ → ℕ} {m m' : Mem} {p k : ℕ} {o : Obj}

theorem Shows.type (h : Shows ids place m p o) : getTypeHeaderPtr m p = some o.kind :=
  getTypeHeaderPtr_of_header h.header

theorem Shows.tag_eq (h : Shows ids place m p o) : tag (m p) = o.kind.tag := by
  rw [h.header, tag_header o.kind.tag_lt]

theorem Shows.len_eq (h : Shows ids place m p o) : len (m p) = o.length := by
  rw [h.header, len_header o.kind.tag_lt]

theorem Shows.objBytes_eq (h : Shows ids place m p o) : objBytes m p = o.kind.bytes o.length :=
  objBytes_of_header h.header

theorem Shows.length_lt (h : Shows ids place m p o) : o.length < 2 ^ 61 := by
  have := h.sized.length
  omega

/-- Where the fields are that are looked at. -/
theorem Shows.mem_fields (h : Shows ids place m p o) (hk : o.IsField k) :
    p + o.position k ∈ fields m p := by
  obtain ⟨hlt, hstring, hclosure⟩ := hk
  have ht := h.type
  have hlen := h.len_eq
  rw [Obj.position]
  cases hkind : o.kind with
  | string => exact absurd hkind hstring
  | array =>
    rw [hkind] at ht
    have := mem_fields_array ht (i := k) (by omega)
    rwa [if_neg (by decide), ← Nat.add_assoc]
  | sexp =>
    rw [hkind] at ht
    have := mem_fields_sexp ht (i := k) (by omega)
    rwa [if_pos rfl, ← Nat.add_assoc]
  | closure =>
    rw [hkind] at ht
    have hne := hclosure hkind
    obtain ⟨j, rfl⟩ := Nat.exists_eq_add_one.2 (Nat.pos_of_ne_zero hne)
    have := mem_fields_closure ht (i := j) (by omega)
    rw [if_neg (by decide)]
    convert this using 1
    ring

/-- A field lies inside of the object. -/
theorem Obj.IsField.bounds (hk : o.IsField k) :
    16 ≤ o.position k ∧ o.position k % 8 = 0 ∧ o.position k + 8 ≤ o.kind.bytes o.length := by
  obtain ⟨hlt, hstring, -⟩ := hk
  rw [Obj.position]
  cases hkind : o.kind with
  | string => exact absurd hkind hstring
  | array => simp only [LamaType.bytes, reduceCtorEq, if_false]; omega
  | closure => simp only [LamaType.bytes, reduceCtorEq, if_false]; omega
  | sexp => simp only [LamaType.bytes, if_true]; omega

/-- The first word lies inside of the object. -/
theorem Obj.HasFirst.le_bytes (hfirst : o.HasFirst) : 24 ≤ o.kind.bytes o.length := by
  rcases hfirst with hkind | ⟨hkind, hpos⟩ <;> rw [hkind, LamaType.bytes] <;> omega

end Shows

/-! ### Functions that look -/

section Looking

variable {obj : ℕ → Obj} {ids : List ℕ} {place : ℕ → ℕ} {m : Mem} {i j v w p : ℕ} {n k : ℤ}
  {c : Content} {t : LamaType}

theorem Displays.not_unboxed (h : Displays obj ids place m) (hw : Denotes ids place (.ref i) w) :
    unboxed w = false :=
  hw.not_unboxed (h.aligned i hw.1)

theorem Displays.tag_eq (h : Displays obj ids place m) (hw : Denotes ids place (.ref i) w) :
    tag (m (toData w)) = (obj i).kind.tag := by
  rw [hw.toData, (h.shows i hw.1).tag_eq]

theorem Displays.len_eq (h : Displays obj ids place m) (hw : Denotes ids place (.ref i) w) :
    len (m (toData w)) = (obj i).length := by
  rw [hw.toData, (h.shows i hw.1).len_eq]

theorem LamaType.tag_inj {t t' : LamaType} : t.tag = t'.tag ↔ t = t' := by
  cases t <;> cases t' <;> decide

/-- `LkindOf`. -/
theorem Displays.lkindOf (h : Displays obj ids place m) (hw : Denotes ids place c w) :
    ∃ d, Primitive.kindOf.eval obj [c] = some (.ok d) ∧ Denotes ids place d (lkindOf m w) := by
  cases c with
  | int n =>
    refine ⟨_, rfl, ?_⟩
    rw [Gc.lkindOf, if_pos hw.2.1]
    exact ⟨by decide, by decide, by decide⟩
  | ref i =>
    refine ⟨_, rfl, ?_⟩
    rw [Gc.lkindOf, h.not_unboxed hw, h.tag_eq hw]
    cases (obj i).kind <;> exact ⟨by decide, by decide, by decide⟩

/-- `Llength`. -/
theorem Displays.llength (h : Displays obj ids place m) (hw : Denotes ids place c w) :
    ∃ r, Primitive.length.eval obj [c] = some r ∧ Returned ids place r (llength m w) := by
  cases c with
  | int n =>
    refine ⟨_, rfl, ?_⟩
    rw [Gc.llength, assertBoxed, if_pos hw.2.1]
    exact .error _
  | ref i =>
    refine ⟨_, rfl, ?_⟩
    rw [Gc.llength, assertBoxed, h.not_unboxed hw, h.len_eq hw]
    exact .ok (denotes_box_of_fits (fits_natCast (h.shows i hw.1).length_lt))

/-- `LcompareTags`. -/
theorem Displays.lcompareTags (h : Displays obj ids place m) {d : Content}
    (hw : Denotes ids place c w) (hv : Denotes ids place d v) :
    ∃ r, Primitive.compareTags.eval obj [c, d] = some r ∧ Returned ids place r (lcompareTags m w v) := by
  cases c with
  | int n =>
    refine ⟨_, rfl, ?_⟩
    rw [Gc.lcompareTags, assertBoxed, if_pos hw.2.1]
    exact .error _
  | ref i =>
    cases d with
    | int n =>
      refine ⟨_, rfl, ?_⟩
      rw [Gc.lcompareTags, assertBoxed, h.not_unboxed hw, assertBoxed, if_pos hv.2.1]
      exact .error _
    | ref j =>
      rw [Gc.lcompareTags, assertBoxed, h.not_unboxed hw, assertBoxed, h.not_unboxed hv, h.tag_eq hw,
        h.tag_eq hv]
      by_cases hkinds : (obj i).kind = .sexp ∧ (obj j).kind = .sexp
      · refine ⟨_, if_pos hkinds, ?_⟩
        have hi := (h.shows i hw.1).first (.inl hkinds.1)
        have hj := (h.shows j hv.1).first (.inl hkinds.2)
        rw [hw.2, hv.2, hi.1, hj.1, hkinds.1, hkinds.2]
        exact .ok (denotes_box _)
      · refine ⟨_, if_neg hkinds, ?_⟩
        rw [← LamaType.tag_inj, ← LamaType.tag_inj (t := (obj j).kind)] at hkinds
        simp only [Bool.false_eq_true, if_false, hkinds]
        exact .error _

/-- An address in an object does not wrap. -/
theorem Displays.toSizeT_eq (h : Displays obj ids place m) (hi : i ∈ ids) {x : ℤ} (hp : x = p)
    (hlt : p < place i + 8 * words ((obj i).kind.bytes (obj i).length)) : toSizeT x = p := by
  have := h.space i hi
  rw [hp, toSizeT_natCast (by omega)]

theorem LamaType.bytes_le_words (t : LamaType) (n : ℕ) : t.bytes n ≤ 8 * words (t.bytes n) := by
  have := t.le_bytes n
  unfold words
  omega

/-- `Belem` on an object. -/
theorem Displays.belem_ref (h : Displays obj ids place m) (hw : Denotes ids place (.ref i) w)
    (hv : Denotes ids place (.int k) v) (helem : (obj i).elem k = some c) :
    Returned ids place (.ok c) (belem m w v) := by
  have hshows := h.shows i hw.1
  have hwords := (obj i).kind.bytes_le_words (obj i).length
  rw [Obj.elem] at helem
  rw [belem, h.not_unboxed hw, assertUnboxed, if_pos hv.2.1, h.tag_eq hw, hv.2.2, hw.2]
  by_cases hstring : 0 ≤ k ∧ k < (obj i).length ∧ (obj i).kind = .string
  · obtain ⟨hpos, hlt, hkind⟩ := id hstring
    rw [if_pos hstring] at helem
    obtain rfl := Option.some.inj helem
    obtain ⟨j, rfl⟩ := Int.eq_ofNat_of_zero_le hpos
    rw [hkind, LamaType.bytes] at hwords
    have haddress : toSizeT ((place i + 16 : ℕ) + (j : ℤ)) = place i + 16 + j :=
      h.toSizeT_eq hw.1 (by push_cast; ring) (by rw [hkind, LamaType.bytes]; omega)
    have hbyte := hshows.byte hkind j (by omega)
    rw [hkind, haddress, hbyte, Int.toNat_natCast]
    refine .ok (denotes_box_of_fits (fits_natCast ?_))
    have := @byteAt_lt m (place i + 16 + j)
    omega
  · rw [if_neg hstring] at helem
    obtain ⟨⟨hpos, hk⟩, hfield⟩ := Option.ite_none_right_eq_some.1 helem
    obtain ⟨j, rfl⟩ := Int.eq_ofNat_of_zero_le hpos
    rw [Int.toNat_natCast] at hk hfield
    obtain ⟨hlow, -, hhigh⟩ := hk.bounds
    have haddress : toSizeT ((place i : ℤ) + (obj i).position j) = place i + (obj i).position j :=
      h.toSizeT_eq hw.1 (by push_cast; ring) (by omega)
    have hdenotes := hshows.field j c hk hfield
    rw [← haddress] at hdenotes
    refine .ok ?_
    rw [Obj.position] at hdenotes
    cases hkind : (obj i).kind with
    | string => exact absurd hkind hk.2.1
    | array =>
      rw [hkind, if_neg (by decide)] at hdenotes
      rw [switchTag_array]
      convert hdenotes using 3
      push_cast
      ring
    | closure =>
      rw [hkind, if_neg (by decide)] at hdenotes
      rw [switchTag_closure]
      convert hdenotes using 3
      push_cast
      ring
    | sexp =>
      rw [hkind, if_pos rfl] at hdenotes
      rw [switchTag_sexp]
      convert hdenotes using 3
      push_cast
      ring

/-- `Belem`. -/
theorem Displays.belem (h : Displays obj ids place m) {d : Content} {r : Except String Content}
    (hw : Denotes ids place c w) (hv : Denotes ids place d v)
    (heval : Primitive.elem.eval obj [c, d] = some r) : Returned ids place r (belem m w v) := by
  cases c with
  | int n =>
    obtain rfl := Option.some.inj heval
    rw [Gc.belem, if_pos hw.2.1, assertBoxed, if_pos hw.2.1]
    exact .error _
  | ref i =>
    cases d with
    | ref j =>
      obtain rfl := Option.some.inj heval
      rw [Gc.belem, h.not_unboxed hw, assertUnboxed, h.not_unboxed hv]
      exact .error _
    | int k =>
      obtain ⟨c, helem, rfl⟩ := Option.map_eq_some_iff.1 heval
      exact h.belem_ref hw hv helem

/-- `Btag` on an object. -/
theorem Displays.btag (h : Displays obj ids place m) {u : ℕ} {x : ℤ} (hw : Denotes ids place (.ref i) w)
    (hv : Denotes ids place (.int x) v) (hu : Denotes ids place (.int n) u) :
    btag m w v u = boxTruth ((obj i).kind = .sexp ∧ (obj i).first = toSizeT x ∧ (obj i).length = n) := by
  have hlen := (h.shows i hw.1).length_lt
  obtain ⟨hlow, hhigh⟩ := unbox_bounds u
  rw [hu.2.2] at hlow hhigh
  have hlength : (obj i).length = toSizeT n ↔ ((obj i).length : ℤ) = n := by
    rw [toSizeT]
    omega
  rw [Gc.btag, h.not_unboxed hw, h.tag_eq hw, h.len_eq hw, hv.2.2, hu.2.2]
  simp only [Bool.false_eq_true, if_false, Bool.beq_eq_decide_eq, LamaType.tag_inj, hlength]
  congr 1
  by_cases hkind : (obj i).kind = .sexp
  · have hfirst := (h.shows i hw.1).first (.inl hkind)
    rw [hw.2, hfirst.1]
    simp [hkind]
  · simp [hkind]

/-- `Barray_patt` on an object. -/
theorem Displays.barrayPatt (h : Displays obj ids place m) (hw : Denotes ids place (.ref i) w)
    (hv : Denotes ids place (.int n) v) :
    barrayPatt m w v = boxTruth ((obj i).kind = .array ∧ (obj i).length = n) := by
  rw [Gc.barrayPatt, h.not_unboxed hw, h.tag_eq hw, h.len_eq hw, hv.2.2]
  simp [Bool.beq_eq_decide_eq, LamaType.tag_inj]

/-- `Bclosure_tag_patt` and the like, on an object. -/
theorem Displays.tagPatt (h : Displays obj ids place m) (hw : Denotes ids place (.ref i) w) :
    tagPatt t m w = boxTruth ((obj i).kind = t) := by
  rw [Gc.tagPatt, h.not_unboxed hw, h.tag_eq hw]
  simp [Bool.beq_eq_decide_eq, LamaType.tag_inj]

/-- The functions of the C library find the text of a string. -/
theorem Displays.textAt (h : Displays obj ids place m) (hw : Denotes ids place (.ref i) w)
    (hkind : (obj i).kind = .string) : TextAt m (obj i).text w := by
  have hshows := h.shows i hw.1
  have hzero := hshows.zero hkind
  have hbytes : ((List.range (obj i).length).map fun k => byteAt m (place i + 16 + k)) =
      (List.range (obj i).length).map (obj i).byte :=
    List.map_congr_left fun k hk => hshows.byte hkind k (List.mem_range.1 hk)
  have htext := textAt_takeWhile hzero
  rwa [hbytes, ← hw.2] at htext

/-- `Bstring_patt`. -/
theorem Displays.bstringPatt (h : Displays obj ids place m) {d : Content} {r : Except String Content}
    (hw : Denotes ids place c w) (hv : Denotes ids place d v)
    (heval : Primitive.stringPatt.eval obj [c, d] = some r) :
    ∃ r', bstringPatt m w v = some r' ∧ Returned ids place r r' := by
  cases d with
  | int n =>
    cases c with
    | ref i => cases heval
    | int k =>
      obtain rfl := Option.some.inj heval
      refine ⟨_, ?_, .ok (denotes_truth false)⟩
      simp [Gc.bstringPatt, assertString, hv.2.1, hw.2.1]
      rfl
  | ref j =>
    have hassert : assertString m v = decide ((obj j).kind = .string) := by
      rw [assertString, h.not_unboxed hv, h.tag_eq hv]
      simp [LamaType.tag_inj]
    rw [Gc.bstringPatt, hassert]
    by_cases hj : (obj j).kind = .string
    · simp only [Primitive.eval, if_pos hj] at heval
      simp only [hj, decide_true, Bool.not_true, Bool.false_eq_true, if_false]
      cases c with
      | int n =>
        obtain rfl := Option.some.inj heval
        rw [if_pos hw.2.1]
        exact ⟨_, rfl, .ok (denotes_truth false)⟩
      | ref i =>
        obtain rfl := Option.some.inj heval
        rw [h.not_unboxed hw, h.tag_eq hw]
        by_cases hi : (obj i).kind = .string
        · have htext := h.textAt hw hi
          have hlength : (obj i).text.length < 2 ^ 64 := by
            have hle := text_length_le ((List.range (obj i).length).map (obj i).byte)
            have := (h.shows i hw.1).length_lt
            rw [List.length_map, List.length_range] at hle
            rw [Obj.text]
            omega
          obtain ⟨x, hcmp, hx⟩ := strcmp_spec htext (h.textAt hv hj) hlength
          refine ⟨.ok (boxTruth (x == 0)), ?_, .ok ?_⟩
          · simp [hi, hcmp]
          · have hiff : (x == 0) = decide ((obj i).kind = .string ∧ (obj i).text = (obj j).text) := by
              rcases hx with ⟨rfl, heq⟩ | ⟨pre, a, b, s, t, hne, ha, hb, rfl⟩
              · simp [hi, heq]
              · have hdiffer : (obj i).text ≠ (obj j).text := by
                  intro heq
                  rw [heq, hb] at ha
                  exact hne (List.cons.inj (List.append_cancel_left ha)).1.symm
                have hzero : (a : ℤ) - b ≠ 0 := by omega
                simp [hdiffer, hzero]
            rw [hiff]
            exact denotes_truth _
        · have hne : ¬ (obj i).kind.tag = LamaType.string.tag := mt LamaType.tag_inj.1 hi
          rw [if_neg Bool.false_ne_true, if_pos hne]
          refine ⟨_, rfl, .ok ?_⟩
          simp only [hi, false_and, decide_false]
          exact denotes_truth false
    · simp only [Primitive.eval, if_neg hj] at heval
      obtain rfl := Option.some.inj heval
      simp only [hj, decide_false, Bool.not_false, if_true]
      exact ⟨_, rfl, .error _⟩

/-- Two words are the same just when they stand for the same. -/
theorem Displays.eq_iff (h : Displays obj ids place m) {d : Content} (hw : Denotes ids place c w)
    (hv : Denotes ids place d v) : w = v ↔ c = d := by
  cases c with
  | int n =>
    cases d with
    | int k =>
      rw [Content.int.injEq, ← hw.2.2, ← hv.2.2]
      refine ⟨fun heq => by rw [heq], fun heq => ?_⟩
      exact unbox_inj hw.1 hv.1 hw.2.1 hv.2.1 heq
    | ref j =>
      refine ⟨fun heq => ?_, fun heq => by cases heq⟩
      have hunboxed := h.not_unboxed hv
      rw [← heq, hw.2.1] at hunboxed
      cases hunboxed
  | ref i =>
    cases d with
    | int k =>
      refine ⟨fun heq => ?_, fun heq => by cases heq⟩
      have hunboxed := h.not_unboxed hw
      rw [heq, hv.2.1] at hunboxed
      cases hunboxed
    | ref j =>
      rw [Content.ref.injEq, hw.2, hv.2]
      refine ⟨fun heq => h.injective i hw.1 j hv.1 (by omega), fun heq => by rw [heq]⟩

/-- **The functions that look** at objects return what the store says. -/
theorem Displays.call (h : Displays obj ids place m) {f : Primitive} {cs : List Content} {ws : List ℕ}
    {r : Except String Content} (hargs : List.Forall₂ (Denotes ids place) cs ws)
    (heval : f.eval obj cs = some r) : ∃ r', f.call m ws = some r' ∧ Returned ids place r r' := by
  have hfalse : Returned ids place (.ok (.truth false)) (.ok (box 0)) := .ok (denotes_truth false)
  have htrue : Returned ids place (.ok (.truth true)) (.ok (box 1)) := .ok (denotes_truth true)
  -- a call with as many arguments as the function has
  rcases hargs with _ | ⟨hw, _ | ⟨hv, _ | ⟨hu, _ | ⟨-, -⟩⟩⟩⟩
  · cases f <;> cases heval
  · rename_i c w
    cases f with
    | kindOf =>
      obtain ⟨d, heval', hd⟩ := h.lkindOf hw
      obtain rfl := Option.some.inj (heval.symm.trans heval')
      exact ⟨_, rfl, .ok hd⟩
    | length =>
      obtain ⟨r', heval', hr⟩ := h.llength hw
      obtain rfl := Option.some.inj (heval.symm.trans heval')
      exact ⟨_, rfl, hr⟩
    | tagPatt t =>
      refine ⟨_, rfl, ?_⟩
      cases c with
      | int n =>
        obtain rfl := Option.some.inj heval
        rwa [Gc.tagPatt, if_pos hw.2.1]
      | ref i =>
        obtain rfl := Option.some.inj heval
        rw [h.tagPatt hw]
        exact .ok (denotes_truth _)
    | boxedPatt =>
      refine ⟨_, rfl, ?_⟩
      cases c with
      | int n =>
        obtain rfl := Option.some.inj heval
        rwa [bboxedPatt, if_pos hw.2.1]
      | ref i =>
        obtain rfl := Option.some.inj heval
        rwa [bboxedPatt, h.not_unboxed hw]
    | unboxedPatt =>
      refine ⟨_, rfl, ?_⟩
      cases c with
      | int n =>
        obtain rfl := Option.some.inj heval
        rwa [bunboxedPatt, if_pos hw.2.1]
      | ref i =>
        obtain rfl := Option.some.inj heval
        rwa [bunboxedPatt, h.not_unboxed hw]
    | compareTags | elem | tag | arrayPatt | stringPatt | same => cases c <;> cases heval
  · rename_i c w d v
    cases f with
    | compareTags =>
      obtain ⟨r', heval', hr⟩ := h.lcompareTags hw hv
      obtain rfl := Option.some.inj (heval.symm.trans heval')
      exact ⟨_, rfl, hr⟩
    | elem => exact ⟨_, rfl, h.belem hw hv heval⟩
    | arrayPatt =>
      refine ⟨_, rfl, ?_⟩
      cases c with
      | int n =>
        obtain rfl := Option.some.inj heval
        rwa [Gc.barrayPatt, if_pos hw.2.1]
      | ref i =>
        cases d with
        | int n =>
          obtain rfl := Option.some.inj heval
          rw [h.barrayPatt hw hv]
          exact .ok (denotes_truth _)
        | ref j => cases heval
    | stringPatt => exact h.bstringPatt hw hv heval
    | same =>
      obtain rfl := Option.some.inj heval
      refine ⟨_, rfl, .ok ?_⟩
      rw [lsInfix6161, Bool.beq_eq_decide_eq, decide_eq_decide.2 (h.eq_iff hw hv)]
      exact denotes_truth _
    | kindOf | length | tag | tagPatt | boxedPatt | unboxedPatt =>
      cases c <;> cases d <;> cases heval
  · rename_i c w d v e u
    cases f with
    | tag =>
      refine ⟨_, rfl, ?_⟩
      cases c with
      | int n =>
        obtain rfl := Option.some.inj heval
        rwa [Gc.btag, if_pos hw.2.1]
      | ref i =>
        cases d with
        | ref j => cases heval
        | int x =>
          cases e with
          | ref j => cases heval
          | int n =>
            obtain rfl := Option.some.inj heval
            rw [h.btag hw hv hu]
            exact .ok (denotes_truth _)
    | kindOf | compareTags | length | elem | arrayPatt | stringPatt | tagPatt | boxedPatt | unboxedPatt
      | same => cases c <;> cases d <;> cases heval
  · rename_i c _ d _ e _ _ _ _ _
    cases f <;> cases c <;> cases d <;> cases e <;> cases heval

end Looking

/-! ### An element is written -/

section Writing

variable {ids : List ℕ} {place : ℕ → ℕ} {m m' : Mem} {p w v : ℕ} {k : ℤ} {c : Content} {o o' : Obj}

/-- An object is known from its words. -/
theorem Shows.congr (h : Shows ids place m p o) (hp : p % 8 = 0)
    (hm : ∀ a, p ≤ a → a < p + 8 * words (o.kind.bytes o.length) → m' a = m a) :
    Shows ids place m' p o := by
  have hwords := o.kind.bytes_le_words o.length
  have hle := o.kind.le_bytes o.length
  have hbyte : o.kind = .string → ∀ k ≤ o.length, byteAt m' (p + 16 + k) = byteAt m (p + 16 + k) := by
    intro hkind k hk
    rw [hkind, LamaType.bytes] at hwords
    exact byteAt_congr (hm _ (by omega) (by rw [hkind, LamaType.bytes]; omega))
  refine ⟨h.sized, by rw [hm p le_rfl (by omega)]; exact h.header, fun hfirst => ?_,
    fun k c hk hc => ?_, fun hkind k hk => ?_, fun hkind => ?_⟩
  · have := hfirst.le_bytes
    rw [hm (p + 16) (by omega) (by omega)]
    exact h.first hfirst
  · obtain ⟨hlow, -, hhigh⟩ := hk.bounds
    rw [hm _ (by omega) (by omega)]
    exact h.field k c hk hc
  · rw [hbyte hkind k hk.le]
    exact h.byte hkind k hk
  · rw [hbyte hkind _ le_rfl]
    exact h.zero hkind

/-- Two fields are at different places. -/
theorem Obj.position_inj {j k : ℕ} (h : o.position j = o.position k) : j = k := by
  unfold Obj.position at h
  split_ifs at h <;> omega

/-- The first word is not a field. -/
theorem Obj.HasFirst.lt_position {k : ℕ} (hfirst : o.HasFirst) (hk : o.IsField k) :
    16 < o.position k := by
  rw [Obj.position]
  rcases hfirst with hkind | ⟨hkind, -⟩
  · rw [if_pos hkind]
    omega
  · have := hk.2.2 hkind
    rw [if_neg (by rw [hkind]; decide)]
    omega

/-- A byte of a string is written. -/
theorem Shows.setByte {j b : ℕ} (h : Shows ids place m p o) (hp : p % 8 = 0) (hkind : o.kind = .string)
    (hj : j < o.length) (hb : b < 256) :
    Shows ids place (WordBytes.setByte m (p + 16 + j) b) p
      { o with byte := Function.update o.byte j b } where
  sized := h.sized
  header := by
    rw [setByte_of_ne (by omega)]
    exact h.header
  first hfirst := by
    rcases hfirst with hsexp | ⟨hclosure, -⟩
    · exact absurd (hkind.symm.trans hsexp) (by decide)
    · exact absurd (hkind.symm.trans hclosure) (by decide)
  field k c hk := absurd hkind hk.2.1
  byte _ k hk := by
    dsimp only at hk ⊢
    by_cases heq : k = j
    · rw [heq, byteAt_setByte_self hb, Function.update_self]
    · rw [byteAt_setByte_of_ne hb (by omega), Function.update_of_ne heq]
      exact h.byte hkind k hk
  zero _ := by
    rw [byteAt_setByte_of_ne hb (by simp only; omega)]
    exact h.zero hkind

/-- A field is written. -/
theorem Shows.setField {j : ℕ} (h : Shows ids place m p o) (hj : o.IsField j)
    (hw : Denotes ids place c w) :
    Shows ids place (m.set (p + o.position j) w) p
      { o with field := Function.update o.field j (some c) } where
  sized := h.sized
  header := by
    have := hj.bounds
    rw [Mem.set_of_ne _ _ (by omega)]
    exact h.header
  first hfirst := by
    have : 16 < o.position j := Obj.HasFirst.lt_position (o := o) hfirst hj
    rw [Mem.set_of_ne _ _ (by omega)]
    exact h.first hfirst
  field k d hk hd := by
    dsimp only at hd
    by_cases heq : k = j
    · subst heq
      rw [Function.update_self] at hd
      obtain rfl := Option.some.inj hd
      exact (Mem.set_self _ _ _).symm ▸ hw
    · rw [Function.update_of_ne heq] at hd
      have hne : o.position k ≠ o.position j := mt Obj.position_inj heq
      have hsame : (m.set (p + o.position j) w) (p + o.position k) = m (p + o.position k) :=
        Mem.set_of_ne _ _ (by omega)
      exact hsame.symm ▸ h.field k d hk hd
  byte hkind := absurd hkind hj.2.1
  zero hkind := absurd hkind hj.2.1

/-- The first word is written. -/
theorem Shows.setFirst (h : Shows ids place m p o) (hfirst : o.HasFirst) (hw : w < 2 ^ 64) :
    Shows ids place (m.set (p + 16) w) p { o with first := w } where
  sized := h.sized
  header := by
    rw [Mem.set_of_ne _ _ (by omega)]
    exact h.header
  first _ := ⟨Mem.set_self _ _ _, hw⟩
  field k c hk hc := by
    have : 16 < o.position k := Obj.HasFirst.lt_position (o := o) hfirst hk
    have hsame : (m.set (p + 16) w) (p + o.position k) = m (p + o.position k) :=
      Mem.set_of_ne _ _ (by omega)
    exact hsame.symm ▸ h.field k c hk hc
  byte hkind := by
    rcases hfirst with hsexp | ⟨hclosure, -⟩
    · exact absurd (hkind.symm.trans hsexp) (by decide)
    · exact absurd (hkind.symm.trans hclosure) (by decide)
  zero hkind := by
    rcases hfirst with hsexp | ⟨hclosure, -⟩
    · exact absurd (hkind.symm.trans hsexp) (by decide)
    · exact absurd (hkind.symm.trans hclosure) (by decide)

end Writing

end LamaRv.Gc
