import LamaRv.Runtime.Shown

/-!
# No program sees the collector (`gc.c`, `runtime.c`)

Memory and the store of objects that never move stand in a relation that every operation keeps, also
where an allocation collects garbage and moves what is left.  So a program gets the same answers from
both.

* `Models`: memory holds what a store says of the objects that are still there;
* `Models.collected`, `Models.grown`, `Models.write`: what happens to memory keeps the relation;
* `perform_refines`: every operation keeps it, and gives the same answer;
* `program_refines`: so does every run of a program.
-/

namespace LamaRv.Gc

open Interaction WordBytes

/-- A word outside of the heap. -/
def Outside (s : State) (a : ℕ) : Prop := a < s.heap.begin ∨ s.heap.endPtr ≤ a

instance decidableOutside (s : State) (a : ℕ) : Decidable (Outside s a) :=
  inferInstanceAs (Decidable (a < s.heap.begin ∨ s.heap.endPtr ≤ a))

/-- Memory holds the objects `ids` of a store at their places, and the variables. -/
structure Models (A : Store) (ids : List ℕ) (place : ℕ → ℕ) (s : State) : Prop where
  parsed : Parsed s (ids.map place)
  space : s.heap.endPtr ≤ 2 ^ 64
  known : ∀ i ∈ ids, i < A.count
  shows : ∀ i ∈ ids, Shows ids place s.mem (place i) (A.obj i)
  var : ∀ a c, A.var a = some c → Outside s a ∧ Denotes ids place c (s.mem a)
  scanned : A.scanned = rootWords s
  data : A.data = dataWords s

/-- Some of the objects of a store are in memory. -/
def Backs (A : Store) (s : State) : Prop := ∃ ids place, Models A ids place s

/-- A collection can be made for some words: the words that are scanned and those that are updated lie
outside of the objects; a word without a content that looks like a pointer points to an object; what looks
like a pointer is scanned just where it is updated; the kernel has a chunk of its own for the new heap. -/
structure Collects (mmap : ℕ → Option ℕ) (A : Store) (s : State) (os : List ℕ) (size : ℕ) : Prop where
  outside : ∀ a, a ∈ rootWords s ∨ a ∈ fixedWords s → a < s.heap.begin ∨ s.heap.current ≤ a
  strays : ∀ a ∈ rootWords s, A.var a = none → isValidHeapPointer s.heap (s.mem a) = true →
    ∃ o ∈ os, s.mem a = o + 16
  edges : ∀ a, isValidHeapPointer s.heap (s.mem a) = true → (a ∈ rootWords s ↔ a ∈ fixedWords s)
  data : s.startCustomData ≤ s.stopCustomData
  roomy : Roomy s os size
  memory : (mmap (8 * pseudoSize s (liveWords s os) size)).isSome
  fresh : ∀ n begin, mmap (8 * n) = some begin →
    0 < begin ∧ begin + 8 * n ≤ 2 ^ 64 ∧ Fresh s begin n

/-- What an operation relies on: a variable that is written lies outside of the heap; one that gets a new
object is scanned; where there is no room for it, a collection can be made. -/
def Hosts (kernel : State → ℕ → Option ℕ) : Op → Store → State → Prop
  | .int x _, _, s | .move x _, _, s | .call x _ _, _, s | .sta x _ _ _, _, s => Outside s x
  | .alloc x t n, A, s => Outside s x ∧ x ∈ rootWords s ∧
    (s.heap.endPtr < s.heap.current + 8 * words (t.bytes n) →
      ∀ ids place, Models A ids place s →
        Collects (kernel s) A s (ids.map place) (words (t.bytes n)))
  | .first _ _, _, _ | .scan _ _ _, _, _ => True

section Models

variable {A : Store} {ids : List ℕ} {place : ℕ → ℕ} {s s' : State} {a i w x : ℕ} {c : Content}

theorem Models.nodup (h : Models A ids place s) : (ids.map place).Nodup := h.parsed.objects.nodup

theorem Models.mem_os (hi : i ∈ ids) : place i ∈ ids.map place := List.mem_map_of_mem hi

theorem Models.aligned (h : Models A ids place s) (hi : i ∈ ids) : place i % 8 = 0 :=
  (h.parsed.objects.aligned h.parsed.aligned).1 _ (Models.mem_os hi)

theorem Models.objWords_eq (h : Models A ids place s) (hi : i ∈ ids) :
    objWords s.mem (place i) = words ((A.obj i).kind.bytes (A.obj i).length) := by
  rw [objWords, (h.shows i hi).objBytes_eq]

theorem Models.bounds (h : Models A ids place s) (hi : i ∈ ids) : s.heap.begin ≤ place i ∧
    place i + 8 * words ((A.obj i).kind.bytes (A.obj i).length) ≤ s.heap.current := by
  rw [← h.objWords_eq hi]
  exact h.parsed.objects.bounds _ (Models.mem_os hi)

theorem Models.injective (h : Models A ids place s) {j : ℕ} (hi : i ∈ ids) (hj : j ∈ ids)
    (heq : place i = place j) : i = j :=
  List.inj_on_of_nodup_map h.nodup hi hj heq

/-- The functions that look find the objects. -/
theorem Models.displays (h : Models A ids place s) : Displays A.obj ids place s.mem where
  shows := h.shows
  aligned _ hi := h.aligned hi
  space i hi := by
    have := h.bounds hi
    have := h.parsed.inside
    have := h.space
    omega
  injective _ hi _ hj := h.injective hi hj

/-- The words of two objects are different. -/
theorem Models.apart (h : Models A ids place s) {j b : ℕ} (hi : i ∈ ids) (hj : j ∈ ids) (hne : i ≠ j)
    (ha : place i ≤ a ∧ a < place i + 8 * words ((A.obj i).kind.bytes (A.obj i).length))
    (hb : place j ≤ b ∧ b < place j + 8 * words ((A.obj j).kind.bytes (A.obj j).length)) : a ≠ b := by
  rintro rfl
  rw [← h.objWords_eq hi] at ha
  rw [← h.objWords_eq hj] at hb
  exact hne (h.injective hi hj
    (h.parsed.objects.owner_unique (Models.mem_os hi) (Models.mem_os hj) ha hb))

theorem Denotes.isValue (h : Denotes ids place c w) : IsValue (ids.map place) w := by
  cases c with
  | int n => exact .inl h.2.1
  | ref i => exact .inr ⟨place i, Models.mem_os h.1, h.2⟩

/-- A word gives the answer that its content gives. -/
theorem Models.answer_eq (h : Models A ids place s) (hw : Denotes ids place c w) : c.answer = answer w := by
  cases c with
  | int n => rw [Content.answer, answer, if_pos hw.2.1, hw.2.2]
  | ref i =>
    rw [Content.answer, answer, h.displays.not_unboxed hw]
    rfl

/-! ### Words outside of the heap -/

/-- Words outside of the heap change, and other words are scanned. -/
theorem Models.program (h : Models A ids place s) {B : Store} (hheap : s'.heap = s.heap)
    (hmem : ∀ a, s.heap.begin ≤ a → a < s.heap.current → s'.mem a = s.mem a) (hcount : B.count = A.count)
    (hobj : B.obj = A.obj) (hvar : ∀ a c, B.var a = some c → Outside s a ∧ Denotes ids place c (s'.mem a))
    (hscanned : B.scanned = rootWords s') (hdata : B.data = dataWords s') : Models B ids place s' where
  parsed := h.parsed.program hheap hmem
  space := hheap ▸ h.space
  known i hi := hcount ▸ h.known i hi
  shows i hi := by
    have hbounds := h.bounds hi
    rw [hobj]
    exact (h.shows i hi).congr (h.aligned hi) fun a hlow hhigh => hmem a (by omega) (by omega)
  var a c ha := by
    rw [Outside, hheap]
    exact hvar a c ha
  scanned := hscanned
  data := hdata

/-- A variable gets a content. -/
theorem Models.assign (h : Models A ids place s) (hx : Outside s x) (hw : Denotes ids place c w) :
    Models (A.assign x c).1 ids place (s.assign x w).1 := by
  have hinside := h.parsed.inside
  refine h.program rfl (fun a hlow hhigh => ?_) rfl rfl (fun a d ha => ?_) h.scanned h.data
  · unfold Outside at hx
    exact Mem.set_of_ne _ _ (by omega)
  · simp only [Store.assign] at ha
    simp only [State.assign]
    by_cases heq : a = x
    · subst heq
      rw [Function.update_self] at ha
      obtain rfl := Option.some.inj ha
      rw [Mem.set_self]
      exact ⟨hx, hw⟩
    · rw [Function.update_of_ne heq] at ha
      rw [Mem.set_of_ne _ _ heq]
      exact h.var a d ha

/-- An assignment gives the same answer. -/
theorem Models.agree_assign (h : Models A ids place s) (hx : Outside s x) (hw : Denotes ids place c w) :
    Agree Backs (.ok (A.assign x c) : Except String _) (.ok (s.assign x w)) := by
  have hanswer : (s.assign x w).2 = c.answer := (h.answer_eq hw).symm
  have hpair : s.assign x w = ((s.assign x w).1, c.answer) := Prod.ext rfl hanswer
  rw [hpair]
  exact .ok ⟨ids, place, h.assign hx hw⟩

/-! ### Objects are written -/

/-- A word of an object is written. -/
theorem Models.write (h : Models A ids place s) {j : ℕ} {o : Obj} (hi : i ∈ ids) (hlow : 2 ≤ j)
    (hhigh : j < words ((A.obj i).kind.bytes (A.obj i).length))
    (hvalue : place i + 8 * j ∈ fields s.mem (place i) → IsValue (ids.map place) w)
    (hshows : Shows ids place (s.mem.set (place i + 8 * j) w) (place i) o) :
    Models (A.setObj i o) ids place { s with mem := s.mem.set (place i + 8 * j) w } where
  parsed := h.parsed.write (Models.mem_os hi) hlow (by rwa [h.objWords_eq hi]) hvalue
  space := h.space
  known := h.known
  shows i' hi' := by
    by_cases heq : i' = i
    · subst heq
      simpa only [Store.setObj, Function.update_self] using hshows
    · simp only [Store.setObj, Function.update_of_ne heq]
      refine (h.shows i' hi').congr (h.aligned hi') fun a hlow' hhigh' => Mem.set_of_ne _ _ ?_
      exact h.apart hi' hi heq ⟨hlow', hhigh'⟩ ⟨by omega, by omega⟩
  var a c ha := by
    have hbounds := h.bounds hi
    have hinside := h.parsed.inside
    obtain ⟨hout, hdenotes⟩ := h.var a c ha
    unfold Outside at hout
    refine ⟨hout, ?_⟩
    dsimp only
    rwa [Mem.set_of_ne _ _ (by omega)]
  scanned := h.scanned
  data := h.data

/-- A string has no fields. -/
theorem Shows.fields_nil {m : Mem} {p : ℕ} {o : Obj} (h : Shows ids place m p o)
    (hkind : o.kind = .string) : fields m p = [] :=
  fields_of_string (by rw [h.type, hkind])

/-- `Bsta` on an object. -/
theorem Models.bsta (h : Models A ids place s) {v : ℕ} {k : ℤ} {o : Obj} (hi : i ∈ ids)
    (hput : (A.obj i).put k c = some o) (hv : Denotes ids place (.int k) v)
    (hw : Denotes ids place c w) : ∃ m, bsta s.mem (place i + 16) v w = .ok (m, w) ∧
      Models (A.setObj i o) ids place { s with mem := m } := by
  have hshows := h.shows i hi
  have hdisplays := h.displays
  have hwords := (A.obj i).kind.bytes_le_words (A.obj i).length
  have hptr : Denotes ids place (.ref i) (place i + 16) := ⟨hi, rfl⟩
  have haligned := h.aligned hi
  rw [Obj.put.eq_def] at hput
  rw [Gc.bsta, if_pos hv.2.1, assertBoxed, hdisplays.not_unboxed hptr, hdisplays.tag_eq hptr, hv.2.2]
  by_cases hstring : 0 ≤ k ∧ k < (A.obj i).length ∧ (A.obj i).kind = .string
  · obtain ⟨hpos, hlt, hkind⟩ := id hstring
    rw [if_pos hstring] at hput
    cases c with
    | ref j => cases hput
    | int n =>
      obtain rfl := Option.some.inj hput
      obtain ⟨j, rfl⟩ := Int.eq_ofNat_of_zero_le hpos
      rw [hkind, LamaType.bytes] at hwords
      have haddress : toSizeT ((place i + 16 : ℕ) + (j : ℤ)) = place i + 16 + j :=
        hdisplays.toSizeT_eq hi (by push_cast; ring) (by rw [hkind, LamaType.bytes]; omega)
      have htag : (A.obj i).kind.tag = LamaType.string.tag := congrArg _ hkind
      refine ⟨_, rfl, ?_⟩
      rw [htag, switchTag_string, haddress, hw.2.2, Int.toNat_natCast]
      -- the byte lies in one word of the object
      have hword : place i + 16 + j - (place i + 16 + j) % 8 = place i + 8 * ((16 + j) / 8) := by omega
      have hset := hshows.setByte haligned hkind (j := j) (b := (n % 256).toNat) (by omega) (by omega)
      rw [setByte, hword] at hset ⊢
      refine h.write hi (by omega) ?_ (fun hf => ?_) hset
      · rw [hkind, LamaType.bytes]
        omega
      · rw [hshows.fields_nil hkind] at hf
        cases hf
  · rw [if_neg hstring] at hput
    obtain ⟨⟨hpos, hk⟩, hput⟩ := Option.ite_none_right_eq_some.1 hput
    obtain rfl := Option.some.inj hput
    obtain ⟨j, rfl⟩ := Int.eq_ofNat_of_zero_le hpos
    rw [Int.toNat_natCast] at hk ⊢
    obtain ⟨hlow, hmod, hhigh⟩ := hk.bounds
    have haddress : toSizeT ((place i : ℤ) + (A.obj i).position j) = place i + (A.obj i).position j :=
      hdisplays.toSizeT_eq hi (by push_cast; ring) (by omega)
    have hposition : (A.obj i).position j = 8 * ((A.obj i).position j / 8) := by omega
    have hset := hshows.setField hk hw
    have hmodels := h.write (i := i) (w := w) hi (j := (A.obj i).position j / 8) (by omega) (by omega)
      (fun _ => hw.isValue) (by rwa [← hposition])
    rw [← hposition, ← haddress] at hmodels
    refine ⟨_, rfl, ?_⟩
    rw [Obj.position] at hmodels
    cases hkind : (A.obj i).kind with
    | string => exact absurd hkind hk.2.1
    | array =>
      rw [hkind, if_neg (by decide)] at hmodels
      rw [switchTag_array]
      convert hmodels using 4
      push_cast
      ring
    | closure =>
      rw [hkind, if_neg (by decide)] at hmodels
      rw [switchTag_closure]
      convert hmodels using 4
      push_cast
      ring
    | sexp =>
      rw [hkind, if_pos rfl] at hmodels
      rw [switchTag_sexp]
      convert hmodels using 4
      push_cast
      ring

/-- The first word of an object is written. -/
theorem Models.first (h : Models A ids place s) (hi : i ∈ ids) (hfirst : (A.obj i).HasFirst)
    (hw : w < 2 ^ 64) : Models (A.setObj i { A.obj i with first := w }) ids place
      { s with mem := s.mem.set (place i + 16) w } := by
  have hshows := h.shows i hi
  have hle := hfirst.le_bytes
  have hwords := (A.obj i).kind.bytes_le_words (A.obj i).length
  refine h.write (j := 2) hi le_rfl (by omega) (fun hf => ?_) (hshows.setFirst hfirst hw)
  · -- the first word is not a field
    have hnot : place i + 16 ∉ fields s.mem (place i) := by
      refine not_mem_fields ?_
      rw [hshows.type]
      exact hfirst.imp (congrArg some) fun hclosure => congrArg some hclosure.1
    exact absurd hf hnot

/-! ### Objects are allocated and moved -/

/-- The variables that are not scanned lose their contents. -/
def Store.forget (A : Store) : Store := { A with var := fun a => if a ∈ A.scanned then A.var a else none }

theorem Store.forget_grow (A : Store) (o : Obj) : A.forget.grow o = A.grow o := by
  have hvar : (fun a => if a ∈ A.scanned then A.forget.var a else none) =
      fun a => if a ∈ A.scanned then A.var a else none := by
    funext a
    by_cases ha : a ∈ A.scanned
    · simp only [if_pos ha, Store.forget]
    · simp only [if_neg ha]
  rw [Store.grow, Store.grow, Store.mk.injEq]
  exact ⟨rfl, rfl, hvar, rfl, rfl⟩

/-- A new object in memory. -/
theorem shows_new {t : LamaType} {n p : ℕ} (hs : Sized t n) (hheader : s.mem p = t.tag ||| n <<< 3)
    (hp : p % 8 = 0) (hzero : ∀ a, p + 16 ≤ a → a < p + 8 * words (t.bytes n) → s.mem a = 0) :
    Shows ids place s.mem p (.new t n) := by
  have hwords := t.bytes_le_words n
  have hbyte : t = .string → ∀ k ≤ n, byteAt s.mem (p + 16 + k) = 0 := by
    rintro rfl k hk
    rw [LamaType.bytes] at hwords hzero
    rw [byteAt, hzero _ (by omega) (by omega), byteOf, Nat.zero_div]
  refine ⟨hs, hheader, fun hfirst => ?_, fun k c _ hc => (by cases hc), fun ht k hk => hbyte ht k hk.le,
    fun ht => hbyte ht n le_rfl⟩
  have hle : 24 ≤ t.bytes n := Obj.HasFirst.le_bytes (o := .new t n) hfirst
  rw [hzero _ le_rfl (by omega)]
  exact ⟨rfl, Nat.two_pow_pos 64⟩

/-- There is one more object. -/
theorem Models.grown (h : Models A ids place s) {t : LamaType} {n : ℕ} (hs : Sized t n)
    (hg : Grown s t n s') (hzero : ∀ a, s.heap.current + 16 ≤ a → a < s'.heap.current → s'.mem a = 0) :
    Models (A.grow (.new t n)) (ids ++ [A.count])
      (Function.update place A.count s.heap.current) s' := by
  have hheap : s'.heap = { s.heap with current := s.heap.current + 8 * words (t.bytes n) } :=
    congrArg State.heap hg.rest
  have hcurrent := hg.current
  have hroots : rootWords s' = rootWords s := by rw [hg.rest]; rfl
  have hdata : dataWords s' = dataWords s := by rw [hg.rest]; rfl
  have hold : ∀ i ∈ ids, Function.update place A.count s.heap.current i = place i := by
    intro i hi
    have := h.known i hi
    exact Function.update_of_ne (by omega) _ _
  have hmap : (ids ++ [A.count]).map (Function.update place A.count s.heap.current) =
      ids.map place ++ [s.heap.current] := by
    rw [List.map_append, List.map_congr_left hold, List.map_singleton, Function.update_self]
  have hmono {c : Content} {w : ℕ} (hw : Denotes ids place c w) :
      Denotes (ids ++ [A.count]) (Function.update place A.count s.heap.current) c w :=
    hw.mono fun i hi => ⟨List.mem_append_left _ hi, hold i hi⟩
  have hparsed := h.parsed.grown hs.bytes hg hzero
  refine
    { parsed := by rwa [hmap]
      space := by
        rw [hheap]
        exact h.space
      known := fun i hi => ?_
      shows := fun i hi => ?_
      var := fun a c ha => ?_
      scanned := h.scanned.trans hroots.symm
      data := h.data.trans hdata.symm }
  · rcases List.mem_append.1 hi with hi | hi
    · exact (h.known i hi).trans (Nat.lt_succ_self _)
    · rw [List.mem_singleton.1 hi]
      exact Nat.lt_succ_self _
  · rcases List.mem_append.1 hi with hi | hi
    · have hbounds := h.bounds hi
      have hne : i ≠ A.count := (h.known i hi).ne
      have hshows : Shows ids place s'.mem (place i) (A.obj i) :=
        (h.shows i hi).congr (h.aligned hi) fun a _ ha => hg.frame a (.inl (by omega))
      simp only [Store.grow, Store.setObj, Function.update_of_ne hne]
      exact { hshows with field := fun k c hk hc => hmono (hshows.field k c hk hc) }
    · obtain rfl := List.mem_singleton.1 hi
      simp only [Store.grow, Store.setObj, Function.update_self]
      have haligned := (hparsed.objects.aligned hparsed.aligned).1 s.heap.current
        (List.mem_append_right _ (List.mem_singleton_self _))
      exact shows_new hs hg.header haligned fun a hlow hhigh => hzero a hlow (by omega)
  · have hroom := hg.room
    have hinside := h.parsed.objects.le
    obtain ⟨-, ha⟩ := Option.ite_none_right_eq_some.1 ha
    obtain ⟨hout, hw⟩ := h.var a c ha
    unfold Outside at hout
    rw [hheap] at hroom
    dsimp only at hroom
    have hout' : a < s.heap.current ∨ s'.heap.current ≤ a := by
      rw [hcurrent]
      omega
    rw [Outside, hheap, hg.frame a hout']
    exact ⟨hout, hmono hw⟩

/-- The roots can be relied upon. -/
theorem Collects.validRoots {mmap : ℕ → Option ℕ} {size : ℕ} (hc : Collects mmap A s (ids.map place) size)
    (h : Models A ids place s) : ValidRoots s (ids.map place) where
  outside a ha := hc.outside a (.inl ha)
  pointers a ha hvalid := by
    cases hvar : A.var a with
    | none => exact hc.strays a ha hvar hvalid
    | some c => exact h.parsed.pointer (.inr (h.var a c hvar).2.isValue) hvalid
  rooted := ⟨fun a ha => hc.outside a (.inr ha), fun a ha hvalid => (hc.edges a hvalid).2 ha, hc.data⟩

/-- What stands for an object looks like a pointer. -/
theorem Models.valid (h : Models A ids place s) (hi : i ∈ ids) :
    isValidHeapPointer s.heap (place i + 16) = true :=
  h.parsed.objects.valid_of_mem (Models.mem_os hi) (h.displays.not_unboxed ⟨hi, rfl⟩)

/-- An integer does not. -/
theorem Denotes.not_valid {n : ℤ} {heap : MemoryChunk} (h : Denotes ids place (.int n) w) :
    isValidHeapPointer heap w = false := by
  simp [isValidHeapPointer, h.2.1]

/-- **A collection** leaves what the variables that are scanned are about. -/
theorem Models.collected (h : Models A ids place s) {kept : List ℕ} {size : ℕ}
    (hroots : ValidRoots s (ids.map place))
    (hedges : ∀ a ∈ rootWords s, isValidHeapPointer s.heap (s.mem a) = true → a ∈ fixedWords s)
    (hc : Collected s (ids.map place) kept size s') (hbegin : 0 < s'.heap.begin)
    (hspace : s'.heap.endPtr ≤ 2 ^ 64) :
    Models A.forget (ids.filter fun i => decide (place i ∈ kept))
      (fun i => newPlace s s' kept (place i)) s' := by
  have hsame := hc.sameGraph (h.parsed.collectable hroots) hedges
  have hrootWords : rootWords s' = rootWords s := by rw [hc.rest]; rfl
  have hdata : dataWords s' = dataWords s := by rw [hc.rest]; rfl
  have hkept : (ids.filter fun i => decide (place i ∈ kept)).map place = kept := by
    have hsorted := h.parsed.objects.sorted
    refine List.Pairwise.eq_of_mem_iff (hsorted.sublist (List.filter_sublist.map _))
      (hsorted.sublist hc.sublist) fun o => ?_
    rw [List.mem_map]
    refine ⟨fun ⟨i, hi, heq⟩ => ?_, fun ho => ?_⟩
    · rw [← heq]
      exact of_decide_eq_true (List.mem_filter.1 hi).2
    · obtain ⟨i, hi, rfl⟩ := List.mem_map.1 (hc.sublist.subset ho)
      exact ⟨i, List.mem_filter.2 ⟨hi, decide_eq_true ho⟩, rfl⟩
  have hmap : (ids.filter fun i => decide (place i ∈ kept)).map (fun i => newPlace s s' kept (place i)) =
      kept.map (newPlace s s' kept) := by
    have hboth := congrArg (List.map (newPlace s s' kept)) hkept
    rw [List.map_map] at hboth
    exact hboth
  -- a word that goes on to stand for its content
  have hdenotes : ∀ {c : Content} {w w' : ℕ}, Denotes ids place c w →
      (isValidHeapPointer s.heap w = true → w - 16 ∈ kept) →
      w' = image s.heap (newPlace s s' kept) w →
      Denotes (ids.filter fun i => decide (place i ∈ kept)) (fun i => newPlace s s' kept (place i)) c w' := by
    rintro c w w' hw hlive rfl
    cases c with
    | int n => rwa [image_of_not_valid (by rw [hw.not_valid]; decide)]
    | ref i =>
      obtain ⟨hi, rfl⟩ := hw
      have hlive := hlive (h.valid hi)
      rw [Nat.add_sub_cancel] at hlive
      rw [image_of_valid (h.valid hi), Nat.add_sub_cancel]
      exact ⟨List.mem_filter.2 ⟨hi, decide_eq_true hlive⟩, rfl⟩
  refine
    { parsed := by
        rw [hmap]
        exact h.parsed.collected hc hbegin
      space := hspace
      known := fun i hi => h.known i (List.mem_filter.1 hi).1
      shows := fun i hi => ?_
      var := fun a c ha => ?_
      scanned := h.scanned.trans hrootWords.symm
      data := h.data.trans hdata.symm }
  · change Shows _ _ _ _ (A.obj i)
    obtain ⟨hi, hkeep⟩ := List.mem_filter.1 hi
    have hkeep := of_decide_eq_true hkeep
    have hshows := h.shows i hi
    have hbytes := hshows.objBytes_eq
    refine ⟨hshows.sized, (hsame.header _ hkeep).trans hshows.header, fun hfirst => ?_,
      fun k c hk hc' => ?_, fun hkind k hk => ?_, fun hkind => ?_⟩
    · have hnot : place i + 16 ∉ fields s.mem (place i) := by
        refine not_mem_fields ?_
        rw [hshows.type]
        exact hfirst.imp (congrArg some) fun hclosure => congrArg some hclosure.1
      have hle : 24 ≤ objBytes s.mem (place i) := hfirst.le_bytes.trans_eq hbytes.symm
      rw [hsame.word _ hkeep 16 le_rfl (by omega) fun hf => absurd hf hnot]
      exact hshows.first hfirst
    · obtain ⟨hlow, -, hhigh⟩ := hk.bounds
      have hfield := hshows.mem_fields hk
      have hcontent := hc.content _ hkeep ((A.obj i).position k) hlow (by omega)
      rw [if_pos hfield] at hcontent
      refine hdenotes (hshows.field k c hk hc') (fun hvalid => ?_) hcontent
      exact hc.closed _ hkeep _ (List.mem_filterMap.2 ⟨_, hfield, if_pos hvalid⟩)
    · rw [hsame.byte _ hkeep (by rw [hshows.type, hkind]) k (by rw [hshows.len_eq]; omega)]
      exact hshows.byte hkind k hk
    · rw [hsame.byte _ hkeep (by rw [hshows.type, hkind]) _ (by rw [hshows.len_eq])]
      exact hshows.zero hkind
  · obtain ⟨hscanned, ha⟩ := Option.ite_none_right_eq_some.1 ha
    rw [h.scanned] at hscanned
    refine ⟨?_, hdenotes (h.var a c ha).2 (fun hvalid => ?_) (hsame.roots a hscanned)⟩
    · have := hc.fresh.roots a (.inl hscanned)
      have := hc.chunk
      unfold Outside
      omega
    · exact (hc.live _).2 ⟨a, hscanned, hvalid, .refl⟩

/-- The variables that are not scanned are forgotten. -/
theorem Models.forget (h : Models A ids place s) : Models A.forget ids place s :=
  { h with var := fun a c ha => h.var a c (Option.ite_none_right_eq_some.1 ha).2 }

/-- There is room in the heap, or a collection has been made in a new one. -/
def Cleared (mmap : ℕ → Option ℕ) (s : State) (os : List ℕ) (size : ℕ) (s₁ : State) : Prop :=
  s₁ = s ∨ s.heap.endPtr < s.heap.current + 8 * size ∧
    mmap (8 * s₁.heap.size) = some s₁.heap.begin ∧ ∃ kept, Collected s os kept size s₁

/-- An allocation puts a new object behind those that are left. -/
theorem Models.allocated (h : Models A ids place s) {mmap : ℕ → Option ℕ} {t : LamaType} {n : ℕ}
    (hs : Sized t n)
    (hcollects : s.heap.endPtr < s.heap.current + 8 * words (t.bytes n) →
      Collects mmap A s (ids.map place) (words (t.bytes n))) :
    ∃ s₁ s' ids₁ place₁, allocOf t mmap s n = some (s', s₁.heap.current) ∧
      Cleared mmap s (ids.map place) (words (t.bytes n)) s₁ ∧ Models A.forget ids₁ place₁ s₁ ∧
      Grown s₁ t n s' ∧ ∀ a, s₁.heap.current + 16 ≤ a → a < s'.heap.current → s'.mem a = 0 := by
  by_cases hfits : s.heap.current + 8 * words (t.bytes n) ≤ s.heap.endPtr
  · obtain ⟨s', halloc, hg, hzero⟩ :=
      @allocOf_of_alloc mmap _ _ _ _ hs hfits (alloc_of_room (t.bytes_pos n) hs.bytes hfits)
    exact ⟨s, s', ids, place, halloc, .inl rfl, h.forget, hg, hzero⟩
  · have hfull := not_le.1 hfits
    have hc := hcollects hfull
    have hroots := hc.validRoots h
    have hfresh := fun n begin hbegin => (hc.fresh n begin hbegin).2.2
    have hcollectable := h.parsed.collectable hroots
    have hsome := collect_isSome hcollectable hroots.rooted hc.roomy hfresh hc.memory
    rcases collect_spec hcollectable hroots.rooted hc.roomy hfresh with
      ⟨-, -, hnone⟩ | ⟨kept, s₁, hcollect, hbegin, hcollected⟩
    · rw [hnone] at hsome
      cases hsome
    · obtain ⟨hpos, hspace, hfresh⟩ := hc.fresh _ _ hbegin
      obtain ⟨s', halloc, hg, hzero⟩ := allocOf_of_alloc hs hcollected.fits
        (alloc_of_collect (t.bytes_pos n) hs.bytes hfull hcollect hcollected.fits)
      have hmodels := h.collected hroots (fun a ha hvalid => (hc.edges a hvalid).1 ha) hcollected hpos
        (by rwa [hcollected.chunk])
      exact ⟨s₁, s', _, _, halloc, .inr ⟨hfull, hbegin, kept, hcollected⟩, hmodels, hg, hzero⟩

/-- A word that is scanned lies outside of the new heap. -/
theorem Cleared.outside {mmap : ℕ → Option ℕ} {os : List ℕ} {size : ℕ} {s₁ : State}
    (hc : Cleared mmap s os size s₁) (hx : Outside s x) (hroot : x ∈ rootWords s) : Outside s₁ x := by
  rcases hc with rfl | ⟨-, -, kept, hcollected⟩
  · exact hx
  · have := hcollected.fresh.roots x (.inl hroot)
    have := hcollected.chunk
    unfold Outside
    omega

theorem Grown.outside {t : LamaType} {n : ℕ} (hg : Grown s t n s') (hx : Outside s x) :
    Outside s' x := by
  rw [Outside, hg.rest]
  exact hx

/-- An allocation for a variable that is scanned. -/
theorem Models.alloc (h : Models A ids place s) {mmap : ℕ → Option ℕ} {t : LamaType} {n : ℕ}
    (hs : Sized t n) (hx : Outside s x) (hroot : x ∈ rootWords s)
    (hcollects : s.heap.endPtr < s.heap.current + 8 * words (t.bytes n) →
      Collects mmap A s (ids.map place) (words (t.bytes n))) :
    ∃ s' p ids' place', allocOf t mmap s n = some (s', p) ∧ Models (A.grow (.new t n)) ids' place' s' ∧
      Outside s' x ∧ Denotes ids' place' (.ref A.count) (p + 16) := by
  obtain ⟨s₁, s', ids₁, place₁, halloc, hcleared, hmodels, hg, hzero⟩ := h.allocated hs hcollects
  have hgrown := hmodels.grown hs hg hzero
  rw [Store.forget_grow] at hgrown
  have hcount : A.forget.count = A.count := rfl
  refine ⟨s', _, _, _, halloc, hgrown, hg.outside (hcleared.outside hx hroot),
    List.mem_append_right _ (List.mem_singleton_self _), ?_⟩
  rw [hcount, Function.update_self]

/-! ### Operations and programs -/

/-- The contents of some variables. -/
theorem Models.args (h : Models A ids place s) {ys : List ℕ} {cs : List Content}
    (hcs : ys.mapM A.var = some cs) : List.Forall₂ (Denotes ids place) cs (ys.map s.mem) := by
  induction ys generalizing cs with
  | nil =>
    obtain rfl := Option.some.inj hcs
    exact .nil
  | cons y ys ih =>
    rw [List.mapM_cons] at hcs
    obtain ⟨c, hc, hcs⟩ := Option.bind_eq_some_iff.1 hcs
    obtain ⟨cs', hcs', hcs⟩ := Option.bind_eq_some_iff.1 hcs
    obtain rfl := Option.some.inj hcs
    exact .cons (h.var y c hc).2 (ih hcs')

/-- Other words are scanned. -/
theorem Models.scan (h : Models A ids place s) (top bottom : ℕ) (extra : List ℕ) :
    Models { A with scanned := wordsBetween (top + 8) bottom ++ extra ++ A.data } ids place
      { s with gcStackTop := top, gcStackBottom := bottom, extraRoots := extra } := by
  refine h.program rfl (fun a _ _ => rfl) rfl rfl h.var ?_ h.data
  simp only [h.data]
  rfl

end Models

/-- **Every operation** on memory keeps to the store, and gives the same answer. -/
theorem perform_refines (kernel : State → ℕ → Option ℕ) :
    Refines Store.perform (State.perform kernel) (Hosts kernel) Backs := by
  rintro op A s r ⟨ids, place, h⟩ hhosts hperform
  cases op with
  | int x n =>
    obtain ⟨hfits, rfl⟩ := Option.ite_some_none_eq_some.1 hperform
    exact ⟨_, rfl, h.agree_assign hhosts (denotes_box_of_fits hfits)⟩
  | move x y =>
    obtain ⟨c, hc, rfl⟩ := Option.map_eq_some_iff.1 hperform
    exact ⟨_, rfl, h.agree_assign hhosts (h.var y c hc).2⟩
  | call x f ys =>
    obtain ⟨cs, hcs, hcall⟩ := Option.bind_eq_some_iff.1 hperform
    obtain ⟨r₁, heval, hr⟩ := Option.bind_eq_some_iff.1 hcall
    obtain rfl := Option.some.inj hr
    obtain ⟨r₂, hcall, hreturned⟩ := h.displays.call (h.args hcs) heval
    refine ⟨_, by rw [State.perform, hcall]; rfl, ?_⟩
    cases hreturned with
    | error e => exact .error e
    | ok hw => exact h.agree_assign hhosts hw
  | sta x y z v =>
    simp only [Store.perform] at hperform
    split at hperform
    · rename_i hy hz hv
      obtain rfl := Option.some.inj hperform
      refine ⟨_, ?_, .error _⟩
      rw [State.perform, bsta, if_pos (h.var z _ hz).2.2.1, assertBoxed, if_pos (h.var y _ hy).2.2.1]
      rfl
    · rename_i i k c hy hz hv
      obtain ⟨o, hput, rfl⟩ := Option.map_eq_some_iff.1 hperform
      obtain ⟨hi, hptr⟩ := (h.var y _ hy).2
      obtain ⟨m, hbsta, hmodels⟩ := h.bsta hi hput (h.var z _ hz).2 (h.var v _ hv).2
      refine ⟨_, by rw [State.perform, hptr, hbsta], ?_⟩
      exact hmodels.agree_assign hhosts (h.var v _ hv).2
    · cases hperform
  | alloc x t n =>
    obtain ⟨hs, rfl⟩ := Option.ite_some_none_eq_some.1 hperform
    obtain ⟨hx, hroot, hcollects⟩ := hhosts
    obtain ⟨s', p, ids', place', halloc, hmodels, hx', hnew⟩ :=
      h.alloc hs hx hroot fun hfull => hcollects hfull ids place h
    exact ⟨_, by rw [State.perform, halloc]; rfl, hmodels.agree_assign hx' hnew⟩
  | first y w =>
    simp only [Store.perform] at hperform
    split at hperform
    · rename_i i hy
      obtain ⟨⟨hfirst, hw⟩, rfl⟩ := Option.ite_some_none_eq_some.1 hperform
      obtain ⟨hi, hptr⟩ := (h.var y _ hy).2
      refine ⟨_, rfl, ?_⟩
      rw [hptr]
      exact .ok ⟨ids, place, h.first hi hfirst hw⟩
    · cases hperform
  | scan top bottom extra =>
    obtain rfl := Option.some.inj hperform
    exact ⟨_, rfl, .ok ⟨ids, place, h.scan top bottom extra⟩⟩

/-- The store after `__init`. -/
def Store.initial (s : State) : Store where
  count := 0
  obj _ := .new .array 0
  var _ := none
  scanned := rootWords s
  data := dataWords s

/-- There are no objects yet. -/
theorem backs_initial {k : Kernel} {s₀ : State} {p : Process} (hinit : init k s₀ = some p)
    (halign : p.state.heap.begin % 8 = 0) (hbegin : 0 < p.state.heap.begin)
    (hspace : p.state.heap.endPtr ≤ 2 ^ 64) : Backs (.initial p.state) p.state :=
  ⟨[], id,
    { parsed := .init hinit halign hbegin
      space := hspace
      known := fun i hi => by cases hi
      shows := fun i hi => by cases hi
      var := fun a c ha => by cases ha
      scanned := rfl
      data := rfl }⟩

/-- **No program sees the collector.**  From `__init` on, whatever a program does next on the answers so
far, it gets the answers of a store in which no object moves or goes away, also where allocations collect
garbage. -/
theorem program_refines {k : Kernel} {s₀ : State} {p : Process} (hinit : init k s₀ = some p)
    (halign : p.state.heap.begin % 8 = 0) (hbegin : 0 < p.state.heap.begin)
    (hspace : p.state.heap.endPtr ≤ 2 ^ 64) {kernel : State → ℕ → Option ℕ}
    {next : List (Option ℤ) → Option Op} {n : ℕ} {r : Except String (Store × List (Option ℤ))}
    (hmeets : Meets Store.perform (State.perform kernel) (Hosts kernel) next n (.initial p.state) p.state [])
    (hrun : run Store.perform next n (.initial p.state) [] = some r) :
    ∃ r', run (State.perform kernel) next n p.state [] = some r' ∧ Agree Backs r r' := by
  exact (perform_refines kernel).run (backs_initial hinit halign hbegin hspace) hmeets hrun

/-! ### A program that makes garbage collect -/

/-- Two arrays, the second of which has no room beside the first one. -/
def twoArraysProgram (answers : List (Option ℤ)) : Option Op :=
  [.scan 0 0 [2048, 2056, 2072], .int 2056 0, .int 2072 0, .alloc 2048 .array 1, .int 2064 7,
    .sta 2064 2048 2056 2064, .alloc 2072 .array 100, .call 2064 .elem [2048, 2056]][answers.length]?

/-- A kernel that puts the new heap behind the old one. -/
def behindHeap (s : State) (bytes : ℕ) : Option ℕ :=
  if bytes ≤ 4096 then some (s.heap.begin + 8 * s.heap.size) else none

/-- The size of the new heap is bounded by that of the old one. -/
theorem pseudoSize_le {s : State} {liveSize additionalSize : ℕ} (hlive : liveSize ≤ s.heap.size)
    (hsize : 2 * s.heap.size + additionalSize < 2 ^ 64) :
    pseudoSize s liveSize additionalSize ≤ 2 * s.heap.size + additionalSize + 64 := by
  have hwords : toSizeT ((liveSize : ℤ) * extraRoomHeapCoefficient + additionalSize) =
      liveSize * 2 + additionalSize := by
    have := toSizeT_natCast (i := liveSize * 2 + additionalSize) (by omega)
    simpa [extraRoomHeapCoefficient] using this
  simp only [pseudoSize, nextHeapSize, hwords, minimumHeapCapacity]
  omega

/-- With the roots in some words below the heap, a collection can be made for a hundred elements. -/
theorem collects_behindHeap {A : Store} {s s₀ : State} {ids W U : List ℕ} {place : ℕ → ℕ} {size : ℕ}
    (h : Models A ids place s) (hheap : s₀.heap = s.heap) (hroots : rootWords s = W)
    (hfixed : fixedWords s = U) (hlow : ∀ a ∈ W ++ U, a + 8 ≤ 4096)
    (hvar : ∀ a ∈ W, (A.var a).isSome ∨ isValidHeapPointer s.heap (s.mem a) = false)
    (hsub : ∀ a ∈ W, a ∈ U) (hedges : ∀ a ∈ U, a ∈ W ∨ isValidHeapPointer s.heap (s.mem a) = false)
    (hdata : s.startCustomData ≤ s.stopCustomData) (hbegin : s.heap.begin = 4096)
    (hcount : s.heap.size = 64) (hsize : size ≤ 102) :
    Collects (behindHeap s₀) A s (ids.map place) size where
  outside a ha := by
    rw [hroots, hfixed, ← List.mem_append] at ha
    have := hlow a ha
    omega
  strays a ha hnone hvalid := by
    rw [hroots] at ha
    rcases hvar a ha with hsome | hnot
    · rw [hnone] at hsome
      cases hsome
    · rw [hnot] at hvalid
      cases hvalid
  edges a hvalid := by
    rw [hroots, hfixed]
    refine ⟨hsub a, fun ha => (hedges a ha).resolve_right fun hnot => ?_⟩
    rw [hnot] at hvalid
    cases hvalid
  data := hdata
  roomy := .of_size h.parsed.formed (by rw [hcount]; omega)
  memory := by
    have hlive := liveWords_le h.parsed.formed
    have hle : pseudoSize s (liveWords s (ids.map place)) size ≤ 2 * s.heap.size + size + 64 :=
      pseudoSize_le hlive (by rw [hcount]; omega)
    rw [behindHeap, if_pos (by omega)]
    rfl
  fresh n begin hchunk := by
    obtain ⟨hbytes, rfl⟩ := Option.ite_some_none_eq_some.1 hchunk
    rw [hheap, hbegin, hcount]
    refine ⟨by omega, by omega, by decide, .inr (by rw [hbegin, hcount]), fun a ha => ?_⟩
    rw [hroots, hfixed, ← List.mem_append] at ha
    have := hlow a ha
    omega

/-- The element that has been written is found after the array has been moved. -/
theorem program_refines_twoArrays : ∃ s,
    run (State.perform behindHeap) twoArraysProgram 8 startProcess.state [] =
      some (.ok (s, [none, some 0, some 0, none, some 7, some 7, none, some 7])) := by
  have hanswers : (run Store.perform twoArraysProgram 8 (.initial startProcess.state) []).map
      (fun r => r.toOption.map Prod.snd) =
        some (some [none, some 0, some 0, none, some 7, some 7, none, some 7]) := by decide +kernel
  have hmeets : Meets Store.perform (State.perform behindHeap) (Hosts behindHeap) twoArraysProgram 8
      (.initial startProcess.state) startProcess.state [] := by
    refine .step rfl trivial (a := none) (by decide +kernel) (by decide +kernel) ?_
    refine .step rfl ?_ (a := some 0) (by decide +kernel) (by decide +kernel) ?_
    · exact of_decide_eq_true (p := Outside _ _) (by decide +kernel)
    refine .step rfl ?_ (a := some 0) (by decide +kernel) (by decide +kernel) ?_
    · exact of_decide_eq_true (p := Outside _ _) (by decide +kernel)
    refine .step rfl ⟨?_, ?_, ?_⟩ (a := none) (by decide +kernel) (by decide +kernel) ?_
    · decide +kernel
    · decide +kernel
    · exact fun hfull => absurd hfull (by decide +kernel)
    refine .step rfl ?_ (a := some 7) (by decide +kernel) (by decide +kernel) ?_
    · exact of_decide_eq_true (p := Outside _ _) (by decide +kernel)
    refine .step rfl ?_ (a := some 7) (by decide +kernel) (by decide +kernel) ?_
    · exact of_decide_eq_true (p := Outside _ _) (by decide +kernel)
    -- here the first array is moved
    refine .step rfl ⟨?_, ?_, fun _ ids place h => ?_⟩ (a := none) (by decide +kernel) (by decide +kernel) ?_
    · decide +kernel
    · decide +kernel
    · exact collects_behindHeap (W := [2048, 2056, 2072]) (U := [2048, 2056, 2072]) h rfl (by decide +kernel)
        (by decide +kernel) (by decide) (by decide +kernel) (by decide) (by decide +kernel)
        (by decide +kernel) (by decide +kernel) (by decide +kernel) le_rfl
    refine .step rfl ?_ (a := some 7) (by decide +kernel) (by decide +kernel) trivial
    exact of_decide_eq_true (p := Outside _ _) (by decide +kernel)
  obtain ⟨r, hrun, hr⟩ := Option.map_eq_some_iff.1 hanswers
  obtain ⟨r', hrun', hagree⟩ := program_refines init_nextPages (by decide) (by decide) (by decide)
    hmeets hrun
  cases hagree with
  | error e => cases hr
  | ok hbacks =>
    obtain rfl := Option.some.inj hr
    exact ⟨_, hrun'⟩

end LamaRv.Gc
