import LamaRv.Runtime.Contents

/-!
# Strings and copies on a store (`runtime.c`)

The bytes of strings are copied with functions of the C library, which stop at a zero.  The arguments are
strings of the store, and the copies are made after an allocation that may have moved them.

* `Allocated.string`: where a string is after the allocation;
* `Models.lmakeString`, `Models.bstring`, `Models.liInfix4343`, `Models.lsubstring`: new strings;
* `Models.lclone`, `Models.lclone_string`: copies of objects.
-/

namespace LamaRv.Gc

open WordBytes

section Copies

variable {mmap : ℕ → Option ℕ} {A : Session} {ids : List ℕ} {place : ℕ → ℕ} {s s₂ : State} {m : Mem}
  {frame frame' frame'' n p a b i j k w args : ℕ} {roots asides : List ℕ} {t : LamaType}
  {c : Content}

/-! ### Strings -/

/-- An integer is known from its word. -/
theorem Denotes.eq_box {x : ℤ} (h : Denotes ids place (.int x) w) : w = box x := by
  obtain ⟨hlow, hhigh⟩ := unbox_bounds w
  rw [h.2.2] at hlow hhigh
  have hbox : Denotes ids place (.int x) (box x) := denotes_box_of_fits ⟨hlow, hhigh⟩
  exact unbox_inj h.1 hbox.1 h.2.1 hbox.2.1 (h.2.2.trans hbox.2.2.symm)

/-- A string is assumed to be one. -/
theorem Models.assertString_eq (h : Models A.toStore ids place s) (hw : Denotes ids place (.ref i) w) :
    assertString s.mem w = decide ((A.obj i).kind = .string) := by
  rw [assertString, h.displays.not_unboxed hw, h.displays.tag_eq hw]
  simp [LamaType.tag_inj]

/-- Where a string is after an allocation, and what is in it. -/
theorem Allocated.string (h : Allocated A s frame roots asides t n ids place s₂ p) (hi : i < A.count)
    (ha : a ∈ A.live frame roots) (hvar : A.var a = some (.ref i)) (hkind : (A.obj i).kind = .string) :
    s₂.mem a = place i + 16 ∧ len (s₂.mem (place i)) = (A.obj i).length ∧
      (∀ k < (A.obj i).length, byteAt s₂.mem (place i + 16 + k) = (A.obj i).byte k) ∧
      byteAt s₂.mem (place i + 16 + (A.obj i).length) = 0 ∧ place i + 16 + (A.obj i).length < p := by
  obtain ⟨hids, hword⟩ := (h.var ha hvar).2
  have hshows := h.shows hids hi.ne
  have hbefore := h.before hids hi.ne
  rw [hkind, LamaType.bytes, words] at hbefore
  exact ⟨hword, hshows.len_eq, hshows.byte hkind, hshows.zero hkind, by omega⟩

/-- A call allocates a string and writes its bytes. -/
theorem Models.bytes {run : Option (Except String (State × ℕ))} {byte : ℕ → ℕ}
    (write : Mem → ℕ → Mem) (h : Models A.toStore ids place s) (ht : Told A s) (hs : Sized .string n)
    (hc : Calls mmap A s frame roots asides (words (LamaType.string.bytes n)))
    (hrun : ∀ s₂ p, s₂ = { s.during frame roots with mem := s₂.mem, heap := s₂.heap } →
      allocString mmap (s.during frame roots) n = some (s₂, p) →
      run = some (.ok ({ s with mem := write s₂.mem p, heap := s₂.heap }, p + 16)))
    (hwrite : ∀ ids place s₂ p, Allocated A s frame roots asides .string n ids place s₂ p →
      p % 8 = 0 ∧ p + 16 + n < s₂.heap.current →
      (∀ b, (b % 8 = 0 → b + 8 ≤ p + 16 ∨ p + 16 + n < b) → write s₂.mem p b = s₂.mem b) ∧
        (∀ k < n, byteAt (write s₂.mem p) (p + 16 + k) = byte k) ∧
        byteAt (write s₂.mem p) (p + 16 + n) = 0) :
    Gives run A s frame roots asides (.ofBytes n byte) := by
  refine h.gives write ht hs hc hrun (fun k hk => absurd rfl hk.2.1) fun ids' place' s₂ p ha => ?_
  have haligned := ha.aligned
  have hcurrent := ha.current
  have hcurrent' := (ha.models.parsed.objects.aligned ha.models.parsed.aligned).2
  have hlast : p + 16 + n < s₂.heap.current := by
    rw [LamaType.bytes, words] at hcurrent
    omega
  obtain ⟨hframe, hbytes, hzero⟩ := hwrite ids' place' s₂ p ha ⟨haligned, hlast⟩
  refine ⟨fun b hb => hframe b fun hmod => by omega, ?_⟩
  exact shows_ofBytes hs ((hframe p fun _ => .inl (by omega)).trans ha.header) hbytes hzero

/-- `LmakeString`. -/
theorem Models.lmakeString (h : Models A.toStore ids place s) (ht : Told A s) (hs : Sized .string n)
    (hc : Calls mmap A s frame [] asides (words (LamaType.string.bytes n)))
    (hw : Denotes ids place (.int n) w) :
    Gives (Gc.lmakeString mmap frame w s) A s frame [] asides (.new .string n) := by
  have hn := hs.length
  refine h.gives (fun m _ => m) ht hs hc (fun s₂ p hrest hbody => ?_)
    (fun k hk => absurd rfl hk.2.1) fun ids' place' s₂ p ha => ⟨fun _ _ => rfl, ?_⟩
  · rw [during_nil] at hrest hbody
    rw [Gc.lmakeString, hw.2.1, hw.eq_box, makeString_run hc.toEnters (by omega) hrest hbody]
    rfl
  · have hshows := ha.models.shows _ ha.known
    rwa [Session.grow_count, ha.place_eq] at hshows

/-- `Li__Infix_4343`. -/
theorem Models.liInfix4343 (h : Models A.toStore ids place s) (ht : Told A s)
    (hfst : A.var args = some (.ref i)) (hsnd : A.var (args + 8) = some (.ref j))
    (hi : (A.obj i).kind = .string) (hj : (A.obj j).kind = .string)
    (hs : Sized .string ((A.obj i).length + (A.obj j).length))
    (hc : Calls mmap A s frame [args, args + 8] asides
      (words (LamaType.string.bytes ((A.obj i).length + (A.obj j).length)))) :
    Gives (Gc.liInfix4343 mmap frame args s) A s frame [args, args + 8] asides
      (.ofBytes ((A.obj i).length + (A.obj j).length)
        (appended (A.obj i).length (A.obj i).byte (A.obj j).byte)) := by
  have hn := hs.length
  have hptr := (h.var _ _ hfst).2
  have hptr' := (h.var _ _ hsnd).2
  have hlen := h.displays.len_eq hptr
  have hlen' := h.displays.len_eq hptr'
  have hsize : toSizeT (((A.obj i).length : ℤ) + (A.obj j).length) =
      (A.obj i).length + (A.obj j).length := by
    rw [← Nat.cast_add, toSizeT_natCast (by omega)]
  refine h.bytes (fun m r => copyBoth m (m args) (m (args + 8)) (r + 16)) ht hs hc
    (fun s₂ p hrest hbody => ?_) fun ids' place' s₂ p ha ⟨haligned, hlast⟩ => ?_
  · have hroots := hc.withRoots (allocString mmap · ((A.obj i).length + (A.obj j).length))
      (by rw [← hrest]; exact hbody)
    simp only [Gc.liInfix4343, h.assertString_eq hptr, h.assertString_eq hptr', hi, hj, hlen, hlen',
      hsize, preGc_spec hc.framed, hroots, hc.postGc, decide_true, Bool.not_true, Bool.false_eq_true,
      if_false, Option.bind_eq_bind, Option.bind_some, Option.pure_def]
  · obtain ⟨hword, hla, hbyte, -, hbefore⟩ :=
      ha.string (h.ref_lt hfst) (Session.mem_live (by simp)) hfst hi
    obtain ⟨hword', hlb, hbyte', -, hbefore'⟩ :=
      ha.string (h.ref_lt hsnd) (Session.mem_live (by simp)) hsnd hj
    have hla' : len (s₂.mem (toData (s₂.mem args))) = (A.obj i).length := by rw [hword, toData_add, hla]
    have hlb' : len (s₂.mem (toData (s₂.mem (args + 8)))) = (A.obj j).length := by
      rw [hword', toData_add, hlb]
    refine ⟨fun b hb => copyBoth_of_out hla' hlb' (by omega), fun k hk => ?_, ?_⟩
    · rw [appended]
      by_cases hfirst : k < (A.obj i).length
      · rw [if_pos hfirst, copyBoth_first hla' hlb' (fun k hk => by omega) hfirst, hword]
        exact cut_congr fun l hl => hbyte l (by omega)
      · obtain ⟨l, rfl⟩ := Nat.exists_eq_add_of_le (not_lt.1 hfirst)
        have hl : l < (A.obj j).length := by omega
        rw [if_neg hfirst, Nat.add_sub_cancel_left,
          copyBoth_second hla' hlb' (fun k hk => by omega) hl, hword']
        exact cut_congr fun l hl => hbyte' l (by omega)
    · rw [copyBoth, hla', hlb', ← Nat.add_assoc, byteAt_setByte_self (by decide)]

/-- Nothing but zeros is in a new string. -/
theorem Allocated.byte_zero (h : Allocated A s frame roots asides t n ids place s₂ p) (hlow : p + 16 ≤ b)
    (hhigh : b < s₂.heap.current) : byteAt s₂.mem b = 0 := by
  have haligned := h.aligned
  rw [byteAt, h.zero _ (by omega) (by omega), byteOf, Nat.zero_div]

/-- `Lsubstring`, inside of the string. -/
theorem Models.lsubstring {x y : ℤ} (h : Models A.toStore ids place s) (ht : Told A s)
    (hvar : A.var args = some (.ref i)) (hkind : (A.obj i).kind = .string)
    (hp : Denotes ids place (.int x) (s.mem (args + 8)))
    (hl : Denotes ids place (.int y) (s.mem (args + 16))) (hx : 0 ≤ x) (hy : 0 ≤ y)
    (hin : x + y ≤ (A.obj i).length) (hs : Sized .string y.toNat)
    (hc : Calls mmap A s frame [args] asides (words (LamaType.string.bytes y.toNat))) :
    Gives (Gc.lsubstring mmap frame args s) A s frame [args] asides
      (.ofBytes y.toNat (cut fun k => (A.obj i).byte (x.toNat + k))) := by
  have hptr := (h.var _ _ hvar).2
  have hlen := h.displays.len_eq hptr
  have hsized := ((h.shows i hptr.1).sized).length
  have hcheck : toSizeT (x + y) ≤ (A.obj i).length :=
    (toSizeT_le_iff (by omega) (by omega) (by omega)).2 ⟨by omega, hin⟩
  have hsize : toSizeT y = y.toNat := by
    unfold toSizeT
    omega
  refine h.bytes (fun m r => strncpy y.toNat (r + 16) (m args + x).toNat m) ht hs hc
    (fun s₂ p hrest hbody => ?_) fun ids' place' s₂ p ha ⟨haligned, hlast⟩ => ?_
  · have hroots := hc.withRoots (allocString mmap · y.toNat) (by rw [← hrest]; exact hbody)
    simp only [Gc.lsubstring, h.assertString_eq hptr, hkind, hp.2.1, hp.2.2, hl.2.1, hl.2.2, hlen,
      hcheck, hsize, preGc_spec hc.framed, hroots, hc.postGc, decide_true, Bool.not_true,
      Bool.false_eq_true, if_false, if_true, Option.bind_eq_bind, Option.bind_some, Option.pure_def]
  · obtain ⟨hword, -, hbyte, -, hbefore⟩ :=
      ha.string (h.ref_lt hvar) (Session.mem_live (by simp)) hvar hkind
    have hsrc : (s₂.mem args + x).toNat = place' i + 16 + x.toNat := by omega
    refine ⟨fun b hb => strncpy_of_out (by omega), fun k hk => ?_, ?_⟩
    · rw [strncpy_spec (fun j hj => .inl (by omega)) k hk, hsrc]
      exact cut_congr fun l hl => by rw [Nat.add_assoc _ x.toNat l, hbyte _ (by omega)]
    · rw [byteAt_strncpy_of_out (.inr le_rfl)]
      exact ha.byte_zero (by omega) hlast

/-! ### Strings of the C library -/

/-- Its bytes are not zero, up to the zero at the end. -/
theorem bytes_nonzero_of_textAt {text : List ℕ} {v : ℕ} (h : TextAt m text v) (hk : k < text.length) :
    byteAt m (v + k) = text.getD k 0 ∧ text.getD k 0 ≠ 0 := by
  induction text generalizing v k with
  | nil => exact absurd hk (Nat.not_lt_zero k)
  | cons x xs ih =>
    obtain ⟨hx, hhead, hrest⟩ := h
    cases k with
    | zero => exact ⟨hhead, hx⟩
    | succ k =>
      have hnext : v + (k + 1) = v + 1 + k := by omega
      rw [hnext, List.getD_cons_succ]
      exact ih hrest (Nat.lt_of_succ_lt_succ hk)

theorem byte_zero_of_textAt {text : List ℕ} {v : ℕ} (h : TextAt m text v) :
    byteAt m (v + text.length) = 0 := by
  induction text generalizing v with
  | nil => exact h
  | cons x xs ih =>
    have hnext : v + (xs.length + 1) = v + 1 + xs.length := by omega
    rw [List.length_cons, hnext]
    exact ih h.2.2

/-- It depends on its words only. -/
theorem textAt_congr {m' : Mem} {text : List ℕ} {v : ℕ} (h : TextAt m text v)
    (hsame : ∀ k ≤ text.length, byteAt m' (v + k) = byteAt m (v + k)) : TextAt m' text v := by
  induction text generalizing v with
  | nil => exact (hsame 0 le_rfl).trans h
  | cons x xs ih =>
    refine ⟨h.1, (hsame 0 (Nat.zero_le _)).trans h.2.1, ih h.2.2 fun k hk => ?_⟩
    have hnext : v + 1 + k = v + (k + 1) := by omega
    rw [hnext]
    exact hsame (k + 1) (Nat.succ_le_succ hk)

/-- The copy of a text. -/
theorem strncpy_textAt {text : List ℕ} {v : ℕ} (dst : ℕ) (h : TextAt m text v)
    (hout : ∀ k ≤ text.length, v + k < dst ∨ dst + (text.length + 1) ≤ v + k) :
    (∀ k < text.length, byteAt (strncpy (text.length + 1) dst v m) (dst + k) = text.getD k 0) ∧
      byteAt (strncpy (text.length + 1) dst v m) (dst + text.length) = 0 := by
  have hspec : ∀ k < text.length + 1, byteAt (strncpy (text.length + 1) dst v m) (dst + k) =
      cut (fun j => byteAt m (v + j)) k := strncpy_spec fun k hk => hout k (Nat.le_of_lt_succ hk)
  have hcut : ∀ k ≤ text.length, cut (fun j => byteAt m (v + j)) k = byteAt m (v + k) := fun k hk =>
    cut_of_nonzero fun j hj => by
      obtain ⟨hbyte, hne⟩ := bytes_nonzero_of_textAt h (k := j) (by omega)
      rwa [hbyte]
  refine ⟨fun k hk => ?_, ?_⟩
  · rw [hspec k (by omega), hcut k hk.le]
    exact (bytes_nonzero_of_textAt h hk).1
  · rw [hspec _ (Nat.lt_succ_self _), hcut _ le_rfl]
    exact byte_zero_of_textAt h

/-- `Bstring`. -/
theorem Models.bstring {text : List ℕ} (h : Models A.toStore ids place s) (ht : Told A s)
    (hs : Sized .string text.length) (hle : frame' ≤ frame) (htext : TextAt s.mem text (s.mem args))
    (hargs : args ∈ asides ∧ Still s frame [args] args)
    (hwords : ∀ k ≤ text.length, s.mem args + k - (s.mem args + k) % 8 ∈ asides ∧
      Still s frame [args] (s.mem args + k - (s.mem args + k) % 8))
    (hc : Calls mmap A s frame [args] asides (words (LamaType.string.bytes text.length))) :
    Gives ((Gc.bstring mmap frame frame' args s).map .ok) A s frame [args] asides
      (.ofBytes text.length fun k => text.getD k 0) := by
  have hn := hs.length
  have hstrlen : strlen s.mem (s.mem args) = some text.length := strlenLoop_of_textAt htext (by omega)
  refine h.bytes (fun m r => strncpy (text.length + 1) (r + 16) (m args) m) ht hs hc
    (fun s₂ p hrest hbody => ?_) fun ids' place' s₂ p ha ⟨haligned, hlast⟩ => ?_
  · rw [bstring_nested hc.toEnters (by omega) hle hstrlen hrest hbody]
    rfl
  · have hcurrent' := (ha.models.parsed.objects.aligned ha.models.parsed.aligned).2
    have hword : s₂.mem args = s.mem args := ha.still args hargs.1 hargs.2
    -- the text is where it was
    have hmoved : TextAt s₂.mem text (s₂.mem args) := by
      rw [hword]
      exact textAt_congr htext fun k hk => byteAt_congr (ha.still _ (hwords k hk).1 (hwords k hk).2)
    have hout : ∀ k ≤ text.length, s₂.mem args + k < p + 16 ∨
        p + 16 + (text.length + 1) ≤ s₂.mem args + k := fun k hk => by
      have := ha.outside_ne (ha.outside _ (hwords k hk).1)
      rw [hword]
      omega
    obtain ⟨hbytes, hzero⟩ := strncpy_textAt _ hmoved hout
    exact ⟨fun b hb => strncpy_of_out (by omega), hbytes, hzero⟩

/-! ### Copies of objects -/

/-- The words of the fields. -/
theorem Obj.IsField.position_bounds {o : Obj} (h : o.IsField k) :
    16 ≤ o.position k ∧ o.position k + 8 ≤ o.kind.bytes o.length := by
  obtain ⟨hlt, hstring, -⟩ := h
  unfold Obj.position
  cases hkind : o.kind with
  | string => exact absurd hkind hstring
  | array | closure | sexp =>
    simp only [LamaType.bytes, reduceCtorEq, if_false, if_true]
    omega

/-- `Lclone` of an object with fields. -/
theorem lclone_object {s₂ : State} {q : ℕ} (h : Enters s frame [args])
    (hboxed : unboxed (s.mem args) = false)
    (htag : tag (s.mem (toData (s.mem args))) = t.tag) (hlen : len (s.mem (toData (s.mem args))) = n)
    (hstring : t ≠ .string) (hbytes : t.bytes n < 2 ^ 64)
    (hrest : s₂ = { s.during frame [args] with mem := s₂.mem, heap := s₂.heap })
    (hbody : allocOf t mmap (s.during frame [args]) n = some (s₂, q)) :
    Gc.lclone mmap frame frame' frame'' args p s = some (.ok
      ({ s with mem := s₂.mem.move q (toData (s₂.mem args)) (t.bytes n), heap := s₂.heap }, q + 16)) := by
  have hclone : cloneObject (allocOf t mmap · n) (t.size n) args (s.during frame [args]) = some
      ({ s.during frame [args] with
        mem := s₂.mem.move q (toData (s₂.mem args)) (t.bytes n), heap := s₂.heap }, q + 16) := by
    rw [LamaType.size_eq hbytes]
    simp only [cloneObject, hbody, Option.bind_eq_bind, Option.bind_some, Option.pure_def]
    conv_lhs => rw [hrest]
  have hroots := h.withRoots _ hclone
  have hpost := h.postGc (s₂.mem.move q (toData (s₂.mem args)) (t.bytes n)) s₂.heap
  cases t with
  | string => exact absurd rfl hstring
  | array | sexp | closure =>
    simp only [allocOf, LamaType.size] at hroots
    simp only [LamaType.tag] at htag
    simp only [Gc.lclone, hboxed, preGc_spec h.framed, enter_mem, htag, hlen, hroots, hpost,
      Option.bind_eq_bind, Option.bind_some, Option.pure_def, Bool.false_eq_true, if_false]

/-- `Lclone` of an object with fields. -/
theorem Models.lclone (h : Models A.toStore ids place s) (ht : Told A s)
    (hvar : A.var args = some (.ref i)) (hkind : (A.obj i).kind ≠ .string)
    (hc : Calls mmap A s frame [args] asides (words ((A.obj i).kind.bytes (A.obj i).length))) :
    Gives (Gc.lclone mmap frame frame' frame'' args p s) A s frame [args] asides (A.obj i) := by
  have hptr := (h.var _ _ hvar).2
  have hs := (h.shows i hptr.1).sized
  have hbytes := hs.bytes
  obtain ⟨ids', place', s₂, q, halloc, ha⟩ := h.called ht hs hc
  obtain ⟨hids, hword⟩ := (ha.var (Session.mem_live (by simp)) hvar).2
  have hne : i ≠ A.count := (h.ref_lt hvar).ne
  have hmem : place' i ∈ ids'.map place' := Models.mem_os hids
  have hshows := ha.shows hids hne
  have hbefore := ha.before hids hne
  have hcurrent := ha.current
  have hsixteen := (A.obj i).kind.le_bytes (A.obj i).length
  have hwords : (A.obj i).kind.bytes (A.obj i).length ≤
      8 * words ((A.obj i).kind.bytes (A.obj i).length) := by
    unfold words
    omega
  refine ⟨ids', place', s₂.mem.move q (place' i) ((A.obj i).kind.bytes (A.obj i).length), s₂.heap, ?_, ?_,
    ha.known, ha.outside⟩
  · rw [lclone_object hc.toEnters (h.displays.not_unboxed hptr) (h.displays.tag_eq hptr)
      (h.displays.len_eq hptr) hkind (by omega) ha.rest halloc, hword, toData_add, ha.place_eq]
  -- the new object has the words of the old one
  have hcopy : ∀ k, k + 8 ≤ (A.obj i).kind.bytes (A.obj i).length →
      s₂.mem.move q (place' i) ((A.obj i).kind.bytes (A.obj i).length) (q + k) = s₂.mem (place' i + k) :=
    fun k hk => move_word hk
  have hcollector := hcopy 8 (by omega)
  have hcopied : Shows ids' place' (s₂.mem.move q (place' i) ((A.obj i).kind.bytes (A.obj i).length)) q
      (A.obj i) := by
    refine ⟨hs, (hcopy 0 (by omega)).trans hshows.header, fun hf => ?_, fun k c hk hck => ?_,
      fun h => absurd h hkind, fun h => absurd h hkind⟩
    · rw [hcopy 16 hf.le_bytes]
      exact hshows.first hf
    · rw [hcopy _ hk.position_bounds.2]
      exact hshows.field k c hk hck
  have hheader := hcopied.header.trans ha.header.symm
  refine ha.finish h.scanned (fun b hb => move_frame (by omega)) hheader ?_ ?_ (fun f hf => ?_) hcopied
  · rw [isMarked, forwardWord_content, hcollector, ← forwardWord_content]
    exact ha.models.parsed.unmarked _ hmem
  · rw [isEnqueued, forwardWord_content, hcollector, ← forwardWord_content]
    exact ha.models.parsed.dequeued _ hmem
  · rw [← fields_congr hheader] at hf
    obtain ⟨k, hk, rfl⟩ := hcopied.exists_field hf
    rw [hcopy _ hk.position_bounds.2]
    exact ha.models.parsed.values _ hmem _ (hshows.mem_fields hk)

theorem Enters.of_withMem (h : Enters { s with mem := m } frame roots) : Enters s frame roots := by
  refine ⟨h.framed.of_withMem, ?_, h.pool⟩
  have hnonempty := h.nonempty
  rwa [enter_withMem] at hnonempty

theorem during_withMem (m : Mem) : ({ s with mem := m } : State).during frame roots =
    { s.during frame roots with mem := m } := by
  unfold State.during
  rw [enter_withMem]

/-- `Lclone` of a string, after its variable has been written. -/
theorem lclone_text {s₀ s₂ : State} {v q : ℕ} (h : Enters s frame [args, v])
    (hwritten : s = { s₀ with mem := s₀.mem.set v (s₀.mem args) })
    (hboxed : unboxed (s₀.mem args) = false) (htag : tag (s₀.mem (toData (s₀.mem args))) = 1)
    (hle : frame' ≤ frame) (hle' : frame'' ≤ frame') (hn : n < 2 ^ 62)
    (hstrlen : strlen s.mem (s.mem v) = some n)
    (hrest : s₂ = { s.during frame [args, v] with mem := s₂.mem, heap := s₂.heap })
    (hbody : allocString mmap (s.during frame [args, v]) n = some (s₂, q)) :
    Gc.lclone mmap frame frame' frame'' args v s₀ = some (.ok
      ({ s with mem := strncpy (n + 1) (q + 16) (s₂.mem v) s₂.mem, heap := s₂.heap }, q + 16)) := by
  have hnested : Enters (s.during frame [args]) frame' [v] := Enters.nested [args] [v] h hle
  have hduring : (s.during frame [args]).during frame' [v] = s.during frame [args, v] :=
    during_during (Enters.left [args] [v] h)
  have hbstring := bstring_nested hnested hn hle' (by rw [during_mem]; exact hstrlen)
    (by rw [hduring]; exact hrest) (by rw [hduring]; exact hbody)
  have hstate : { s₀.during frame [args] with
      mem := (s₀.during frame [args]).mem.set v ((s₀.during frame [args]).mem args) } =
      s.during frame [args] := by
    rw [hwritten, during_mem]
    exact (during_withMem _).symm
  have henters : Enters s₀ frame [args] := by
    have hleft := Enters.left [args] [v] h
    rw [hwritten] at hleft
    exact hleft.of_withMem
  have hcall : Gc.bstring mmap frame' frame'' v { s₀.during frame [args] with
      mem := (s₀.during frame [args]).mem.set v ((s₀.during frame [args]).mem args) } = some
      ({ s₀.during frame [args] with
        mem := strncpy (n + 1) (q + 16) (s₂.mem v) s₂.mem, heap := s₂.heap }, q + 16) := by
    rw [hstate, hbstring, hwritten, during_withMem]
  have hroots := henters.withRoots
    (fun s => Gc.bstring mmap frame' frame'' v { s with mem := s.mem.set v (s.mem args) }) hcall
  have hpost := henters.postGc (strncpy (n + 1) (q + 16) (s₂.mem v) s₂.mem) s₂.heap
  simp only [Gc.lclone, hboxed, preGc_spec henters.framed, enter_mem, htag, hroots, hpost,
    Option.bind_eq_bind, Option.bind_some, Option.pure_def, Bool.false_eq_true, if_false]
  rw [hwritten]

/-- `Lclone` of a string, after its variable has been written. -/
theorem Models.lclone_string {s₀ : State} {v : ℕ} (h : Models A.toStore ids place s) (ht : Told A s)
    (hvar : A.var args = some (.ref i)) (hvar' : A.var v = some (.ref i))
    (hkind : (A.obj i).kind = .string) (hwritten : s = { s₀ with mem := s₀.mem.set v (s₀.mem args) })
    (hword : s₀.mem args = s.mem args)
    (hheader : s₀.mem (toData (s.mem args)) = s.mem (toData (s.mem args)))
    (hle : frame' ≤ frame) (hle' : frame'' ≤ frame') (hs : Sized .string (A.obj i).text.length)
    (hc : Calls mmap A s frame [args, v] asides (words (LamaType.string.bytes (A.obj i).text.length))) :
    Gives (Gc.lclone mmap frame frame' frame'' args v s₀) A s frame [args, v] asides
      (.ofBytes (A.obj i).text.length (A.obj i).byte) := by
  have hn := hs.length
  have hptr := (h.var _ _ hvar).2
  have hptr' := (h.var _ _ hvar').2
  have hstrlen : strlen s.mem (s.mem v) = some (A.obj i).text.length :=
    strlenLoop_of_textAt (h.displays.textAt hptr' hkind) (by omega)
  have htag : tag (s.mem (toData (s.mem args))) = 1 := by
    rw [h.displays.tag_eq hptr, hkind]
    rfl
  refine h.bytes (fun m r => strncpy ((A.obj i).text.length + 1) (r + 16) (m v) m) ht hs hc
    (fun s₂ p hrest hbody => ?_) fun ids' place' s₂ p ha ⟨haligned, hlast⟩ => ?_
  · exact lclone_text hc.toEnters hwritten (by rw [hword]; exact h.displays.not_unboxed hptr)
      (by rw [hword, hheader]; exact htag) hle hle' (by omega) hstrlen hrest hbody
  · have hcurrent' := (ha.models.parsed.objects.aligned ha.models.parsed.aligned).2
    obtain ⟨hids, hword'⟩ := (ha.var (Session.mem_live (by simp)) hvar').2
    have hne : i ≠ A.count := (h.ref_lt hvar').ne
    have hbefore := ha.before hids hne
    have hobj : ((A.during frame [args, v]).grow (.new .string (A.obj i).text.length)).obj i = A.obj i :=
      Session.grow_of_ne hne
    have htext := ha.models.displays.textAt (i := i) ⟨hids, hword'⟩ (by rw [hobj]; exact hkind)
    rw [hobj] at htext
    have hlength : (A.obj i).text.length ≤ (A.obj i).length := by
      have hle : (A.obj i).text.length ≤ ((List.range (A.obj i).length).map (A.obj i).byte).length :=
        (List.takeWhile_sublist _).length_le
      rwa [List.length_map, List.length_range] at hle
    rw [hkind, LamaType.bytes, words] at hbefore
    obtain ⟨hbytes, hzero⟩ := strncpy_textAt (p + 16) htext fun k hk => .inl (by omega)
    refine ⟨fun b hb => strncpy_of_out (by omega), fun k hk => ?_, hzero⟩
    rw [hbytes k hk, ← (bytes_nonzero_of_textAt htext hk).1, hword']
    exact (ha.shows hids hne).byte hkind k (by omega)

end Copies

end LamaRv.Gc
