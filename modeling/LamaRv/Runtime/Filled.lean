import LamaRv.Runtime.Makers

/-!
# New objects and their contents (`runtime.c`)

A function that makes an object allocates it, which may move the others, and writes its contents then.
The arguments are read after the allocation, from words that have been scanned.

* `Parsed.fill`, `Models.fill`: the contents of an object are written;
* `Calls`: what a function that allocates relies on;
* `Allocated`: memory with a new object, before its contents are written; `Models.called`: that it is so;
* `Allocated.finish`: the store and memory afterwards.
-/

namespace LamaRv.Gc

open WordBytes

/-! ### The contents of an object are written -/

section Fill

variable {A : Store} {ids : List ℕ} {place : ℕ → ℕ} {s : State} {m : Mem} {i o : ℕ} {os : List ℕ}

/-- The contents of an object are written. -/
theorem Parsed.fill (h : Parsed s os) (ho : o ∈ os)
    (hframe : ∀ a, a < o ∨ o + 8 * objWords s.mem o ≤ a → m a = s.mem a) (hheader : m o = s.mem o)
    (hmarked : isMarked m (o + 16) = false) (hqueued : isEnqueued m (o + 16) = false)
    (hvalues : ∀ f ∈ fields s.mem o, m f = 0 ∨ IsValue os (m f)) : Parsed { s with mem := m } os := by
  have hother : ∀ o' ∈ os, o' ≠ o → ∀ k, k < 8 * objWords s.mem o' → m (o' + k) = s.mem (o' + k) := by
    intro o' ho' hne k hk
    refine hframe _ ?_
    by_contra hin
    exact hne (h.objects.owner_unique ho' ho (x := o' + k) ⟨by omega, by omega⟩ ⟨by omega, by omega⟩)
  have hsame : ∀ o' ∈ os, m o' = s.mem o' := by
    intro o' ho'
    by_cases heq : o' = o
    · rw [heq, hheader]
    · have := (h.objects.sound o' ho').two_le_words
      exact hother o' ho' heq 0 (by omega)
  have hcollector : ∀ o' ∈ os, o' ≠ o → m (o' + 8) = s.mem (o' + 8) := fun o' ho' hne => by
    have := (h.objects.sound o' ho').two_le_words
    exact hother o' ho' hne 8 (by omega)
  refine
    { begin_pos := h.begin_pos
      aligned := h.aligned
      chunk := h.chunk
      inside := h.inside
      objects := h.objects.congr hsame
      values := fun o' ho' f hf => ?_
      unmarked := fun o' ho' => ?_
      dequeued := fun o' ho' => ?_ }
  · rw [fields_congr (hsame o' ho')] at hf
    by_cases heq : o' = o
    · exact hvalues f (heq ▸ hf)
    · obtain ⟨j, -, hj, rfl⟩ := h.field_word ho' hf
      dsimp only
      rw [hother o' ho' heq _ (by omega)]
      exact h.values o' ho' _ hf
  · by_cases heq : o' = o
    · rw [heq]
      exact hmarked
    · rw [isMarked, forwardWord_content]
      refine (congrArg getMarkBit (hcollector o' ho' heq)).trans ?_
      rw [← forwardWord_content]
      exact h.unmarked o' ho'
  · by_cases heq : o' = o
    · rw [heq]
      exact hqueued
    · rw [isEnqueued, forwardWord_content]
      refine (congrArg isEnqueuedBit (hcollector o' ho' heq)).trans ?_
      rw [← forwardWord_content]
      exact h.dequeued o' ho'

/-- The contents of an object of the store are written. -/
theorem Models.fill (h : Models A ids place s) {b : Obj} (hi : i ∈ ids)
    (hframe : ∀ a, a < place i ∨ place i + 8 * words ((A.obj i).kind.bytes (A.obj i).length) ≤ a →
      m a = s.mem a)
    (hheader : m (place i) = s.mem (place i)) (hmarked : isMarked m (place i + 16) = false)
    (hqueued : isEnqueued m (place i + 16) = false)
    (hvalues : ∀ f ∈ fields s.mem (place i), m f = 0 ∨ IsValue (ids.map place) (m f))
    (hshows : Shows ids place m (place i) b) : Models (A.setObj i b) ids place { s with mem := m } where
  parsed := by
    refine h.parsed.fill (Models.mem_os hi) ?_ hheader hmarked hqueued hvalues
    rwa [h.objWords_eq hi]
  space := h.space
  known := h.known
  shows j hj := by
    by_cases heq : j = i
    · subst heq
      simpa only [Store.setObj, Function.update_self] using hshows
    · simp only [Store.setObj, Function.update_of_ne heq]
      refine (h.shows j hj).congr (h.aligned hj) fun a hlow hhigh => hframe a ?_
      by_contra hin
      exact h.apart hj hi heq ⟨hlow, hhigh⟩ (b := a) ⟨by omega, by omega⟩ rfl
  var a c ha := by
    have hbounds := h.bounds hi
    have hinside := h.parsed.inside
    obtain ⟨hout, hdenotes⟩ := h.var a c ha
    unfold Outside at hout
    refine ⟨hout, ?_⟩
    dsimp only
    rwa [hframe a (by omega)]
  scanned := h.scanned
  data := h.data

end Fill

/-! ### Objects in memory -/

section Shows

variable {ids : List ℕ} {place : ℕ → ℕ} {m : Mem} {p n first : ℕ} {t : LamaType}
  {field : ℕ → Option Content} {byte : ℕ → ℕ}

/-- An object with fields. -/
theorem shows_ofFields (hs : Sized t n) (ht : t ≠ .string) (hheader : m p = t.tag ||| n <<< 3)
    (hfirst : (Obj.ofFields t n first field).HasFirst → m (p + 16) = first ∧ first < 2 ^ 64)
    (hfield : ∀ k c, (Obj.ofFields t n first field).IsField k → field k = some c →
      Denotes ids place c (m (p + (Obj.ofFields t n first field).position k))) :
    Shows ids place m p (.ofFields t n first field) :=
  ⟨hs, hheader, hfirst, hfield, fun h => absurd h ht, fun h => absurd h ht⟩

/-- A string. -/
theorem shows_ofBytes (hs : Sized .string n) (hheader : m p = LamaType.string.tag ||| n <<< 3)
    (hbyte : ∀ k < n, byteAt m (p + 16 + k) = byte k) (hzero : byteAt m (p + 16 + n) = 0) :
    Shows ids place m p (.ofBytes n byte) := by
  refine ⟨hs, hheader, fun h => ?_, fun k c h => absurd rfl h.2.1, fun _ => hbyte, fun _ => hzero⟩
  have hkind : (Obj.ofBytes n byte).kind = .string := rfl
  rcases h with h | ⟨h, -⟩
  · exact absurd (hkind.symm.trans h) (by decide)
  · exact absurd (hkind.symm.trans h) (by decide)

end Shows

/-! ### Calls -/

/-- The assertions of `PRE_GC` and of the pool of extra roots. -/
structure Enters (s : State) (frame : ℕ) (roots : List ℕ) : Prop where
  framed : Framed s frame
  nonempty : (s.enter frame).gcStackTop < s.gcStackBottom
  pool : s.extraRoots.length + roots.length ≤ maxExtraRootsNumber

/-- What a function that makes an object of some words relies on: where there is no room, a collection
can be made; the words `asides`, which are outside of the heap, are apart from a new one. -/
structure Calls (mmap : ℕ → Option ℕ) (A : Session) (s : State) (frame : ℕ) (roots asides : List ℕ)
    (size : ℕ) : Prop extends Enters s frame roots where
  collects : s.heap.endPtr < s.heap.current + 8 * size → ∀ ids place,
    Models (A.during frame roots) ids place (s.during frame roots) →
      Collects mmap (A.during frame roots) (s.during frame roots)
        (ids.map place) size
  outside : ∀ a ∈ asides, Outside s a
  apart : ∀ a ∈ asides, ∀ n begin, mmap (8 * n) = some begin → a + 8 ≤ begin ∨ begin + 8 * n ≤ a

/-- A collection leaves a word alone. -/
def Still (s : State) (frame : ℕ) (roots : List ℕ) (a : ℕ) : Prop :=
  a ∈ fixedWords (s.during frame roots) → isValidHeapPointer s.heap (s.mem a) = false

/-- Memory with a new object at `p`, behind the others, with nothing but zeros in it. -/
structure Allocated (A : Session) (s : State) (frame : ℕ) (roots asides : List ℕ) (t : LamaType)
    (n : ℕ) (ids : List ℕ) (place : ℕ → ℕ) (s₂ : State) (p : ℕ) : Prop where
  models : Models ((A.during frame roots).grow (.new t n)) ids place s₂
  rest : s₂ = { s.during frame roots with mem := s₂.mem, heap := s₂.heap }
  known : A.count ∈ ids
  place_eq : place A.count = p
  current : p + 8 * words (t.bytes n) = s₂.heap.current
  header : s₂.mem p = t.tag ||| n <<< 3
  collector : s₂.mem (p + 8) = 0
  zero : ∀ a, p + 16 ≤ a → a < s₂.heap.current → s₂.mem a = 0
  outside : ∀ a ∈ asides, Outside s₂ a
  still : ∀ a ∈ asides, Still s frame roots a → s₂.mem a = s.mem a

/-- What the program has told the collector is as a session has it. -/
structure Told (A : Session) (s : State) : Prop where
  top : s.gcStackTop = A.top
  bottom : s.gcStackBottom = A.bottom
  extra : s.extraRoots = A.extra

section Calls

variable {mmap : ℕ → Option ℕ} {A : Session} {ids : List ℕ} {place : ℕ → ℕ} {s s₂ : State}
  {frame n p a : ℕ} {roots asides : List ℕ} {t : LamaType} {m : Mem} {o : Obj} {c : Content}

theorem Told.live_eq (h : Told A s) (hdata : A.data = dataWords s) :
    A.live frame roots = rootWords (s.during frame roots) := by
  have henter : (s.enter frame).gcStackTop = if A.top = 0 then frame else A.top := by
    rw [State.enter, h.top]
    split_ifs
    · rfl
    · exact h.top
  have hwords : dataWords (s.during frame roots) = dataWords s := by
    simp only [dataWords, State.during, enter_startCustomData, enter_stopCustomData]
  rw [rootWords, hwords, stackWords, Session.live, hdata, ← h.extra, ← henter, ← h.bottom]
  simp only [State.during, enter_gcStackBottom]

/-- Between `PRE_GC` and `POST_GC`. -/
theorem Models.during (h : Models A.toStore ids place s) (ht : Told A s) :
    Models (A.during frame roots) ids place (s.during frame roots) := by
  refine h.program (by simp) (fun a _ _ => by simp) rfl rfl (fun a c ha => ?_) (ht.live_eq h.data) ?_
  · rw [during_mem]
    exact h.var a c ha
  · simp only [dataWords, State.during, enter_startCustomData, enter_stopCustomData]
    exact h.data

/-- After `POST_GC`. -/
theorem Models.resume {B : Store} (frame : ℕ) (roots : List ℕ) (h : Models B ids place s₂)
    (hrest : s₂ = { s.during frame roots with mem := s₂.mem, heap := s₂.heap })
    (hscanned : A.scanned = rootWords s) :
    Models { B with scanned := A.scanned } ids place { s with mem := s₂.mem, heap := s₂.heap } := by
  have hdata : dataWords s₂ = dataWords s := by
    rw [hrest]
    simp only [dataWords, State.during, enter_startCustomData, enter_stopCustomData]
  exact h.program rfl (fun a _ _ => rfl) rfl rfl (fun a c ha => h.var a c ha) hscanned
    (h.data.trans hdata)

/-- A word outside of the heap and apart from a new one. -/
theorem Cleared.aside {os : List ℕ} {size : ℕ} {s₁ : State} (hc : Cleared mmap s os size s₁)
    (ha : Outside s a)
    (hapart : ∀ n begin, mmap (8 * n) = some begin → a + 8 ≤ begin ∨ begin + 8 * n ≤ a) :
    Outside s₁ a := by
  rcases hc with rfl | ⟨-, hbegin, kept, hcollected⟩
  · exact ha
  · have := hapart _ _ hbegin
    have := hcollected.chunk
    unfold Outside
    omega

/-- Such a word is left alone. -/
theorem Cleared.still {size : ℕ} {s₁ : State} (hc : Cleared mmap s (ids.map place) size s₁)
    (hparsed : Parsed s (ids.map place)) (ha : Outside s a)
    (hapart : ∀ n begin, mmap (8 * n) = some begin → a + 8 ≤ begin ∨ begin + 8 * n ≤ a)
    (hstill : a ∈ fixedWords s → isValidHeapPointer s.heap (s.mem a) = false) :
    s₁.mem a = s.mem a := by
  rcases hc with rfl | ⟨-, hbegin, kept, hcollected⟩
  · rfl
  · by_cases hfixed : a ∈ fixedWords s
    · rw [hcollected.roots a hfixed, moved, relocated, hstill hfixed]
      rfl
    · refine hcollected.frame a hfixed (fun o ho heq => ?_) (hapart _ _ hbegin)
      have := hparsed.objects.bounds o ho
      have := (hparsed.objects.sound o ho).two_le_words
      have := hparsed.inside
      unfold Outside at ha
      omega

/-- **A function of the runtime allocates.** -/
theorem Models.called (h : Models A.toStore ids place s) (ht : Told A s) (hs : Sized t n)
    (hc : Calls mmap A s frame roots asides (words (t.bytes n))) : ∃ ids' place' s₂ p,
      allocOf t mmap (s.during frame roots) n = some (s₂, p) ∧
        Allocated A s frame roots asides t n ids' place' s₂ p := by
  have hduring : Models (A.during frame roots) ids place (s.during frame roots) := h.during ht
  have hheap : (s.during frame roots).heap = s.heap := during_heap roots
  have hmem : (s.during frame roots).mem = s.mem := during_mem roots
  obtain ⟨s₁, s', ids₁, place₁, halloc, hcleared, hmodels, hg, hzero⟩ :=
    hduring.allocated hs fun hfull => hc.collects (by rwa [hheap] at hfull) ids place hduring
  have hgrown := hmodels.grown hs hg hzero
  rw [Store.forget_grow] at hgrown
  have hrest₁ : s₁ = { s.during frame roots with mem := s₁.mem, heap := s₁.heap } := by
    rcases hcleared with rfl | ⟨-, -, kept, hcollected⟩
    · rfl
    · exact hcollected.rest
  have hout : ∀ a ∈ asides, Outside (s.during frame roots) a := fun a ha => by
    rw [Outside, hheap]
    exact hc.outside a ha
  refine ⟨_, _, s', s₁.heap.current, halloc, hgrown, ?_,
    List.mem_append_right _ (List.mem_singleton_self _), Function.update_self _ _ _, hg.current.symm,
    hg.header, hg.collector, hzero, fun a ha => ?_, fun a ha hstill => ?_⟩
  · rw [hg.rest, hrest₁]
  · exact hg.outside (hcleared.aside (hout a ha) (hc.apart a ha))
  · have hsame := hcleared.still hduring.parsed (hout a ha) (hc.apart a ha) (by rwa [hheap, hmem])
    have hout₁ := hcleared.aside (hout a ha) (hc.apart a ha)
    have hle := hmodels.parsed.objects.le
    have hroom := hg.room
    have hend : s'.heap.endPtr = s₁.heap.endPtr := by rw [hg.rest]
    unfold Outside at hout₁
    rw [hg.frame a (by omega), hsame, hmem]

/-- An object that a variable refers to is not a new one. -/
theorem Models.ref_lt {A : Store} (h : Models A ids place s) {i : ℕ} (ha : A.var a = some (.ref i)) :
    i < A.count :=
  h.known i (h.var a _ ha).2.1

/-- Where the fields are. -/
theorem Shows.exists_field (h : Shows ids place m p o) {f : ℕ} (hf : f ∈ fields m p) :
    ∃ k, o.IsField k ∧ f = p + o.position k := by
  have ht := h.type
  have hlen := h.len_eq
  obtain ⟨i, hi, rfl⟩ := List.mem_map.1 hf
  rw [List.mem_range, fieldCount, ht, hlen] at hi
  rw [fieldStart, fieldOffset, ht]
  cases hkind : o.kind with
  | string =>
    rw [hkind] at hi
    exact absurd hi (Nat.not_lt_zero i)
  | array =>
    rw [hkind] at hi
    refine ⟨i, ⟨hi, by rw [hkind]; decide, fun h => absurd (hkind.symm.trans h) (by decide)⟩, ?_⟩
    rw [Obj.position, hkind]
    simp only [reduceCtorEq, if_false]
    omega
  | sexp =>
    rw [hkind] at hi
    refine ⟨i, ⟨hi, by rw [hkind]; decide, fun h => absurd (hkind.symm.trans h) (by decide)⟩, ?_⟩
    rw [Obj.position, hkind]
    simp only [if_true]
    omega
  | closure =>
    rw [hkind] at hi
    have hlt : i + 1 < o.length := Nat.add_lt_of_lt_sub hi
    refine ⟨i + 1, ⟨hlt, by rw [hkind]; decide, fun _ => Nat.succ_ne_zero i⟩, ?_⟩
    rw [Obj.position, hkind]
    simp only [reduceCtorEq, if_false]
    omega

theorem LamaType.two_le_words (t : LamaType) (n : ℕ) : 2 ≤ words (t.bytes n) := by
  have := t.le_bytes n
  unfold words
  omega

/-- The new object in the store. -/
theorem Session.grow_count : ((A.during frame roots).grow o).obj A.count = o :=
  Function.update_self _ _ _

/-- The other objects in the store. -/
theorem Session.grow_of_ne {i : ℕ} (hi : i ≠ A.count) :
    ((A.during frame roots).grow o).obj i = A.obj i := Function.update_of_ne hi _ _

namespace Allocated

variable (h : Allocated A s frame roots asides t n ids place s₂ p)

include h

theorem aligned : p % 8 = 0 := h.place_eq ▸ h.models.aligned h.known

theorem inside : s₂.heap.begin ≤ p ∧ s₂.heap.current ≤ s₂.heap.endPtr ∧ s₂.heap.endPtr ≤ 2 ^ 64 :=
  ⟨h.place_eq ▸ (h.models.bounds h.known).1, h.models.parsed.inside, h.models.space⟩

/-- A word outside of the heap is not in the new object. -/
theorem outside_ne (ha : Outside s₂ a) : a < p ∨ s₂.heap.current ≤ a := by
  have := h.inside
  unfold Outside at ha
  omega

/-- The other objects are before the new one. -/
theorem before {i : ℕ} (hi : i ∈ ids) (hne : i ≠ A.count) :
    place i + 8 * words ((A.obj i).kind.bytes (A.obj i).length) ≤ p := by
  have hbounds := h.models.bounds hi
  have htwo := t.two_le_words n
  have hnew : (Obj.new t n).kind.bytes (Obj.new t n).length = t.bytes n := rfl
  have happart : ∀ x, place i ≤ x ∧ x < place i + 8 * words ((A.obj i).kind.bytes (A.obj i).length) →
      ¬ (p ≤ x ∧ x < p + 8 * words (t.bytes n)) := by
    intro x hx hx'
    refine h.models.apart hi h.known hne (a := x) (b := x) ?_ ?_ rfl
    · rwa [Session.grow_of_ne hne]
    · rwa [Session.grow_count, hnew, h.place_eq]
  rw [Session.grow_of_ne hne, ← h.current] at hbounds
  by_contra hover
  by_cases hle : place i ≤ p
  · exact happart p ⟨hle, by omega⟩ ⟨le_rfl, by omega⟩
  · have hwords := (A.obj i).kind.two_le_words (A.obj i).length
    exact happart (place i) ⟨le_rfl, by omega⟩ ⟨by omega, by omega⟩

/-- The other objects are in memory. -/
theorem shows {i : ℕ} (hi : i ∈ ids) (hne : i ≠ A.count) : Shows ids place s₂.mem (place i) (A.obj i) :=
  Session.grow_of_ne hne ▸ h.models.shows i hi

/-- A variable that is scanned. -/
theorem var (ha : a ∈ A.live frame roots) (hc : A.var a = some c) :
    Outside s₂ a ∧ Denotes ids place c (s₂.mem a) := by
  refine h.models.var a c ?_
  exact (if_pos ha).trans hc

/-- The contents of the new object are written, and the function returns. -/
theorem finish (hscanned : A.scanned = rootWords s)
    (hframe : ∀ a, a < p ∨ s₂.heap.current ≤ a → m a = s₂.mem a) (hheader : m p = s₂.mem p)
    (hmarked : isMarked m (p + 16) = false) (hqueued : isEnqueued m (p + 16) = false)
    (hvalues : ∀ f ∈ fields s₂.mem p, m f = 0 ∨ IsValue (ids.map place) (m f))
    (hshows : Shows ids place m p o) :
    Models (A.make frame roots o).toStore ids place { s with mem := m, heap := s₂.heap } := by
  have hplace := h.place_eq
  have hnew : (Obj.new t n).kind.bytes (Obj.new t n).length = t.bytes n := rfl
  have hfill := h.models.fill (b := o) (m := m) h.known
    (by rw [Session.grow_count, hnew, hplace, h.current]; exact hframe) (by rwa [hplace])
    (by rwa [hplace]) (by rwa [hplace]) (by rwa [hplace]) (by rwa [hplace])
  have hstore : (A.make frame roots o).toStore =
      { ((A.during frame roots).grow (.new t n)).setObj A.count o with scanned := A.scanned } := by
    simp only [Session.make, Session.during, Store.grow, Store.setObj, Function.update_idem]
  rw [hstore]
  refine hfill.resume frame roots ?_ hscanned
  dsimp only
  conv_lhs => rw [h.rest]

/-- The same for an object with all of its fields. -/
theorem finish_full (hscanned : A.scanned = rootWords s)
    (hfull : ∀ k, o.IsField k → (o.field k).isSome)
    (hframe : ∀ a, a < p + 16 ∨ s₂.heap.current ≤ a → m a = s₂.mem a)
    (hshows : Shows ids place m p o) :
    Models (A.make frame roots o).toStore ids place { s with mem := m, heap := s₂.heap } := by
  have hheader : m p = s₂.mem p := hframe p (.inl (by omega))
  have hcollector : m (p + 8) = 0 := (hframe (p + 8) (.inl (by omega))).trans h.collector
  refine h.finish hscanned (fun a ha => hframe a (by omega)) hheader ?_ ?_
    (fun f hf => .inr ?_) hshows
  · rw [isMarked, forwardWord_content, hcollector]
    rfl
  · rw [isEnqueued, forwardWord_content, hcollector]
    rfl
  · rw [← fields_congr hheader] at hf
    obtain ⟨k, hk, rfl⟩ := hshows.exists_field hf
    obtain ⟨c, hc⟩ := Option.isSome_iff_exists.1 (hfull k hk)
    exact (hshows.field k c hk hc).isValue

end Allocated

end Calls

end LamaRv.Gc
