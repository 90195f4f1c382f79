import LamaRv.Runtime.Calls

/-!
# Constructors of arrays, s-expressions and closures (`runtime.c`)

The arguments are in a vector outside the stack of the program.  They are extra roots while the object
is allocated, which may move what they refer to; the fields are read from the vector afterwards.

* `barray`, `bsexp`, `bclosure`: the code, by way of `construct`;
* `Constructed`: the new object, and the state that it is in;
* `constructors_spec`: the constructors are right, but for an argument right behind the data area.
-/

namespace LamaRv.Gc

open Marking

/-! ### The code -/

/-- The addresses of some words. -/
def wordAddrs (p n : ℕ) : List ℕ := (List.range n).map fun i => p + 8 * i

/-- Some words. -/
def wordsAt (m : Mem) (p n : ℕ) : List ℕ := (wordAddrs p n).map m

/-- The loop that copies arguments to fields. -/
def copyWords (m : Mem) (dst src : ℕ) : ℕ → Mem
  | 0 => m
  | n + 1 =>
    let m := copyWords m dst src n
    m.set (dst + 8 * n) (m (src + 8 * n))

/-- Allocate an object and write it. -/
def allocateAndWrite (allocate : State → Option (State × ℕ)) (write : Mem → ℕ → Mem) (s : State) :
    Option (State × ℕ) := do
  let (s, r) ← allocate s
  return ({ s with mem := write s.mem r }, r)

/-- What the constructors have in common: the words at `roots` are extra roots while an object is
allocated and written. -/
def construct (frame : ℕ) (roots : List ℕ) (allocate : State → Option (State × ℕ))
    (write : Mem → ℕ → Mem) (s : State) : Option (State × ℕ) := do
  let (s, flag) ← preGc frame s
  let (s, r) ← withRoots roots (allocateAndWrite allocate write) s
  return (← postGc frame flag s, r + 16)

/-- `Barray`. -/
def barray (mmap : ℕ → Option ℕ) (frame args bn : ℕ) : State → Option (State × ℕ) :=
  let n := unbox bn
  construct frame (wordAddrs args n.toNat) (allocArray mmap · (toSizeT n)) fun m r =>
    copyWords m (r + 16) args n.toNat

/-- `Bsexp`.  The last argument is the tag. -/
def bsexp (mmap : ℕ → Option ℕ) (frame args bn : ℕ) : State → Option (State × ℕ) :=
  let n := unbox bn
  let fieldsCnt := n - 1
  construct frame (wordAddrs args fieldsCnt.toNat) (allocSexp mmap · (toSizeT fieldsCnt)) fun m r =>
    let m := m.set (r + 16) 0
    let m := copyWords m (r + 24) args fieldsCnt.toNat
    m.set (r + 16) (toSizeT (unbox (m (args + 8 * fieldsCnt.toNat))))

/-- `Bclosure`.  The first argument is the code pointer. -/
def bclosure (mmap : ℕ → Option ℕ) (frame args bn : ℕ) : State → Option (State × ℕ) :=
  let n := unbox bn
  construct frame (wordAddrs (args + 8) n.toNat) (allocClosure mmap · (toSizeT (n + 1))) fun m r =>
    let m := m.set (r + 16) (m args)
    copyWords m (r + 24) (args + 8) n.toNat

/-! ### Words -/

section Words

variable {m m' : Mem} {p dst src n : ℕ}

theorem mem_wordAddrs {a : ℕ} : a ∈ wordAddrs p n ↔ ∃ i < n, a = p + 8 * i := by
  simp only [wordAddrs, List.mem_map, List.mem_range, eq_comm]

@[simp] theorem wordsAt_length : (wordsAt m p n).length = n := by simp [wordsAt, wordAddrs]

theorem wordsAt_congr (h : ∀ a ∈ wordAddrs p n, m' a = m a) : wordsAt m' p n = wordsAt m p n :=
  List.map_congr_left h

theorem wordsAt_succ : wordsAt m p (n + 1) = wordsAt m p n ++ [m (p + 8 * n)] := by
  simp [wordsAt, wordAddrs, List.range_succ]

theorem wordsAt_cons : wordsAt m p (1 + n) = m p :: wordsAt m (p + 8) n := by
  have hshift : ∀ i, p + 8 * (i + 1) = p + 8 + 8 * i := fun i => by omega
  simp [wordsAt, wordAddrs, Nat.add_comm 1, List.range_succ_eq_map, Function.comp_def, hshift]

theorem copyWords_frame {a : ℕ} (h : a < dst ∨ dst + 8 * n ≤ a) : copyWords m dst src n a = m a := by
  induction n with
  | zero => rfl
  | succ n ih =>
    rw [copyWords, Mem.set_of_ne _ _ (by omega)]
    exact ih (by omega)

/-- Words that lie apart from their copies. -/
theorem copyWords_spec (h : ∀ a ∈ wordAddrs src n, a < dst ∨ dst + 8 * n ≤ a) :
    wordsAt (copyWords m dst src n) dst n = wordsAt m src n := by
  induction n with
  | zero => rfl
  | succ n ih =>
    have hsub : ∀ a ∈ wordAddrs src n, a ∈ wordAddrs src (n + 1) := by
      intro a ha
      obtain ⟨i, hi, rfl⟩ := mem_wordAddrs.1 ha
      exact mem_wordAddrs.2 ⟨i, by omega, rfl⟩
    have hlast := h (src + 8 * n) (mem_wordAddrs.2 ⟨n, by omega, rfl⟩)
    have hih := ih fun a ha => by
      have := h a (hsub a ha)
      omega
    rw [wordsAt_succ, wordsAt_succ, ← hih]
    congr 1
    · refine wordsAt_congr fun a ha => ?_
      obtain ⟨i, hi, rfl⟩ := mem_wordAddrs.1 ha
      rw [copyWords, Mem.set_of_ne _ _ (by omega)]
    · rw [copyWords, Mem.set_self, copyWords_frame (by omega)]

end Words

/-! ### What a constructor does -/

/-- The new object holds the words `pre` and then the arguments. -/
structure Constructed (s : State) (t : LamaType) (len : ℕ) (pre : List ℕ) (args n : ℕ)
    (kept : List ℕ) (place : ℕ → ℕ) (s' : State) (p : ℕ) : Prop extends
    Made s t len (wordAddrs args n) kept place s' p where
  contents : wordsAt s'.mem p (pre.length + n) =
    pre ++ (wordsAt s.mem args n).map (image s.heap place)

/-- A call comes to an end and makes such an object. -/
def Constructs (run : Option (State × ℕ)) (s : State) (t : LamaType) (len : ℕ) (pre : List ℕ)
    (args n : ℕ) : Prop :=
  ∃ s' p kept place, run = some (s', p) ∧ Constructed s t len pre args n kept place s' p

/-- There is room in the heap, or no argument that is a pointer lies right behind the data area. -/
def ArgsClear (s : State) (args n size : ℕ) : Prop :=
  s.heap.current + 8 * size ≤ s.heap.endPtr ∨ ∀ a ∈ wordAddrs args n,
    isValidHeapPointer s.heap (s.mem a) = true → a = s.stopCustomData → a = s.gcStackBottom

/-- How a new object is written: the `k` words `pre`, and then the words at `args`. -/
structure Writes (write : Mem → ℕ → Mem) (args n : ℕ) (others : List ℕ) (pre : Mem → List ℕ) (k : ℕ) :
    Prop where
  length : ∀ m, (pre m).length = k
  congr : ∀ m m', (∀ a ∈ others, m' a = m a) → pre m' = pre m
  contents : ∀ m r, (∀ a ∈ wordAddrs args n ++ others, a < r + 16 ∨ r + 16 + 8 * (k + n) ≤ a) →
    wordsAt (write m r) (r + 16) (k + n) = pre m ++ wordsAt m args n
  frame : ∀ m r a, a < r + 16 ∨ r + 16 + 8 * (k + n) ≤ a → write m r a = m a

/-- How a new object is allocated. -/
def Allocates (mmap : ℕ → ℕ) (allocate : State → Option (State × ℕ)) (s : State) (os : List ℕ)
    (t : LamaType) (len : ℕ) : Prop :=
  ∃ kept place s₁ s₂, Relocates s os kept place s₁ ∧ Makes mmap s s₁ place (words (t.bytes len)) ∧
    Grown s₁ t len s₂ ∧ allocate s = some (s₂, s₁.heap.current)

section Construct

variable {mmap : ℕ → ℕ} {s s₁ s₂ : State} {os kept others : List ℕ} {place : ℕ → ℕ}
  {frame args n size len k : ℕ} {t : LamaType} {allocate : State → Option (State × ℕ)}
  {write : Mem → ℕ → Mem} {pre : Mem → List ℕ}

/-- Which arguments are updated by a collection, if they lie outside of the stack. -/
theorem Ready.fixed_iff (h : Ready mmap s os frame (wordAddrs args n) others size) {a : ℕ}
    (ha : a ∈ wordAddrs args n) (hstack : a < (s.enter frame).gcStackTop ∨ s.gcStackBottom ≤ a) :
    a ∈ fixedWords (s.during frame (wordAddrs args n)) ↔
      (a = s.stopCustomData → a = s.gcStackBottom) := by
  have hextra : a ∈ (s.during frame (wordAddrs args n)).extraRoots := List.mem_append_right _ ha
  have halign := h.areas.extra a hextra
  have hnonempty := h.nonempty
  have htop := h.areas.top
  have hbottom := h.areas.bottom
  have hdata := h.areas.data
  have hfixed := h.areas.mem_fixedWords (a := a)
  simp only [State.during, enter_gcStackBottom, enter_startCustomData, enter_stopCustomData] at *
  rw [hfixed]
  constructor
  · rintro (hin | ⟨-, hskip⟩ | hin) heq
    · omega
    · omega
    · omega
  · intro hstop
    by_cases hin : a = s.gcStackBottom
    · exact .inl ⟨by omega, by omega, halign⟩
    · by_cases hword : s.startCustomData ≤ a ∧ a < s.stopCustomData
      · exact .inr (.inr ⟨hword.1, hword.2, halign⟩)
      · refine .inr (.inl ⟨hextra, ?_⟩)
        have hne : a ≠ s.stopCustomData := fun heq => hin (hstop heq)
        omega

theorem Ready.argsClear_iff (h : Ready mmap s os frame (wordAddrs args n) others size)
    (hstack : ∀ a ∈ wordAddrs args n, a < (s.enter frame).gcStackTop ∨ s.gcStackBottom ≤ a) :
    RootsUpdated s frame (wordAddrs args n) size ↔ ArgsClear s args n size :=
  or_congr Iff.rfl (forall₂_congr fun a ha => imp_congr_right fun _ => h.fixed_iff ha (hstack a ha))

/-- What is written is right if the arguments have been updated. -/
theorem construct_contents (h : Ready mmap s os frame (wordAddrs args n) others size)
    (hw : Writes write args n others pre k) (hlen : t.bytes len = 16 + 8 * (k + n))
    (hrel : Relocates (s.during frame (wordAddrs args n)) os kept place s₁)
    (hmakes : Makes mmap (s.during frame (wordAddrs args n)) s₁ place size)
    (hgrown : Grown s₁ t len s₂) (f : ℕ → ℕ) :
    wordsAt (write s₂.mem s₁.heap.current) (s₁.heap.current + 16) (k + n) =
        pre s.mem ++ (wordsAt s.mem args n).map f ↔
      ∀ a ∈ wordAddrs args n, s₁.mem a = f (s.mem a) := by
  have hgrow := h.grown_eq hrel hmakes hgrown
  have hcurrent := hgrown.current
  have hwords : words (t.bytes len) = 2 + (k + n) := by
    rw [hlen, words]
    omega
  have hpre : pre s₂.mem = pre s.mem := by
    refine hw.congr _ _ fun a ha => ?_
    rw [(hgrow a (List.mem_append_right _ ha)).2, h.other_eq hrel hmakes a ha]
  rw [hw.contents _ _ fun a ha => by
    have := (hgrow a ha).1
    omega, hpre, List.append_cancel_left_eq, wordsAt, wordsAt, List.map_map, List.map_inj_left]
  refine forall₂_congr fun a ha => ?_
  rw [(hgrow a (List.mem_append_left _ ha)).2]
  rfl

/-- A constructor is right exactly if the arguments are updated by a collection, or there is none. -/
theorem construct_iff (h : Ready mmap s os frame (wordAddrs args n) others (words (t.bytes len)))
    (hstack : ∀ a ∈ wordAddrs args n, a < (s.enter frame).gcStackTop ∨ s.gcStackBottom ≤ a)
    (hw : Writes write args n others pre k) (hlen : t.bytes len = 16 + 8 * (k + n))
    (halloc : Allocates mmap allocate (s.during frame (wordAddrs args n)) os t len) :
    Constructs (construct frame (wordAddrs args n) allocate write s) s t len (pre s.mem) args n ↔
      ArgsClear s args n (words (t.bytes len)) := by
  have hroom := h.room
  have hsmall : t.bytes len < 2 ^ 64 := by
    unfold words at hroom
    omega
  obtain ⟨kept, place, s₁, s₂, hrel, hmakes, hgrown, hrun⟩ := halloc
  have hcurrent := hgrown.current
  have hwords : words (t.bytes len) = 2 + (k + n) := by
    rw [hlen, words]
    omega
  have hrest := hrel.during_rest hgrown
  have hmade := made_of h hsmall hrel hgrown (m := write s₂.mem s₁.heap.current) fun a ha =>
    hw.frame _ _ a (by omega)
  have hbody : allocateAndWrite allocate write (s.during frame (wordAddrs args n)) =
      some ({ s₂ with mem := write s₂.mem s₁.heap.current }, s₁.heap.current) := by
    simp only [allocateAndWrite, hrun, Option.bind_eq_bind, Option.bind_some, Option.pure_def]
  have hroots := withRoots_run h (by rw [hrest]) hbody
  have hconstruct : construct frame (wordAddrs args n) allocate write s = some
      ({ s with mem := write s₂.mem s₁.heap.current, heap := s₂.heap }, s₁.heap.current + 16) := by
    simp only [construct, preGc_spec h.framed, hroots, Option.bind_eq_bind, Option.bind_some,
      h.postGc, Option.pure_def]
  have hcontents := construct_contents h hw hlen hrel hmakes hgrown
  rw [← h.argsClear_iff hstack]
  constructor
  · rintro ⟨s', p, kept', place', hrun', hc⟩
    rw [hconstruct] at hrun'
    cases hrun'
    refine hc.updated h hrel hmakes hgrown ((hcontents _).1 ?_)
    rw [← hw.length s.mem]
    exact hc.contents
  · intro hup
    refine ⟨_, _, kept, place, hconstruct, hmade, ?_⟩
    rw [hw.length]
    exact (hcontents _).2 (hup.image_eq h hrel hmakes)

end Construct

/-! ### The three constructors -/

section Constructors

variable {mmap : ℕ → ℕ} {s : State} {os : List ℕ} {frame args n : ℕ}

theorem writes_array : Writes (fun m r => copyWords m (r + 16) args n) args n [] (fun _ => []) 0 where
  length _ := rfl
  congr _ _ _ := rfl
  contents m r h := by
    rw [Nat.zero_add] at h ⊢
    exact copyWords_spec fun a ha => h a (List.mem_append_left _ ha)
  frame m r a h := copyWords_frame (by omega)

theorem writes_closure : Writes (fun m r => copyWords (m.set (r + 16) (m args)) (r + 24) (args + 8) n)
    (args + 8) n [args] (fun m => [m args]) 1 where
  length _ := rfl
  congr _ _ h := by rw [h args (by simp)]
  contents m r h := by
    have hfields : ∀ a ∈ wordAddrs (args + 8) n, a < r + 24 ∨ r + 24 + 8 * n ≤ a := fun a ha => by
      have := h a (List.mem_append_left _ ha)
      omega
    rw [wordsAt_cons, copyWords_frame (by omega), Mem.set_self, copyWords_spec hfields,
      List.singleton_append]
    congr 1
    refine wordsAt_congr fun a ha => Mem.set_of_ne _ _ ?_
    have := h a (List.mem_append_left _ ha)
    omega
  frame m r a h := by rw [copyWords_frame (by omega), Mem.set_of_ne _ _ (by omega)]

theorem writes_sexp : Writes (fun m r =>
      let m := copyWords (m.set (r + 16) 0) (r + 24) args n
      m.set (r + 16) (toSizeT (unbox (m (args + 8 * n)))))
    args n [args + 8 * n] (fun m => [toSizeT (unbox (m (args + 8 * n)))]) 1 where
  length _ := rfl
  congr _ _ h := by rw [h (args + 8 * n) (by simp)]
  contents m r h := by
    have hfields : ∀ a ∈ wordAddrs args n, a < r + 24 ∨ r + 24 + 8 * n ≤ a := fun a ha => by
      have := h a (List.mem_append_left _ ha)
      omega
    have htag := h (args + 8 * n) (by simp)
    have hcopy : wordsAt (copyWords (m.set (r + 16) 0) (r + 24) args n) (r + 24) n = wordsAt m args n := by
      rw [copyWords_spec hfields]
      refine wordsAt_congr fun a ha => Mem.set_of_ne _ _ ?_
      have := h a (List.mem_append_left _ ha)
      omega
    rw [wordsAt_cons, Mem.set_self, copyWords_frame (by omega), Mem.set_of_ne _ _ (by omega),
      List.singleton_append, ← hcopy]
    congr 1
    refine wordsAt_congr fun a ha => Mem.set_of_ne _ _ ?_
    obtain ⟨i, hi, rfl⟩ := mem_wordAddrs.1 ha
    omega
  frame m r a h := by
    rw [Mem.set_of_ne _ _ (by omega), copyWords_frame (by omega), Mem.set_of_ne _ _ (by omega)]

/-- The objects that the constructors allocate. -/
theorem Ready.allocates_object {t : LamaType} {len : ℕ} {others : List ℕ}
    (h : Ready mmap s os frame (wordAddrs args n) others (words (t.bytes len)))
    (hlen : 8 * len < 2 ^ 64) : Allocates mmap (allocObject t (fun k => some (mmap k)) · len)
      (s.during frame (wordAddrs args n)) os t len := by
  obtain ⟨kept, place, s₁, s₂, hrel, hmakes, hgrown, -, hrun⟩ := h.allocates hlen
  exact ⟨kept, place, s₁, s₂, hrel, hmakes, hgrown, hrun⟩

theorem Allocates.sexp {len : ℕ} (h : Allocates mmap (allocObject .sexp (fun k => some (mmap k)) · len)
    s os .sexp len) : Allocates mmap (allocSexp (fun k => some (mmap k)) · len) s os .sexp len := by
  obtain ⟨kept, place, s₁, s₂, hrel, hmakes, hgrown, hrun⟩ := h
  have hcurrent := hgrown.current
  have hwords : words (LamaType.sexp.bytes len) = 3 + len := by
    simp only [LamaType.bytes, words]
    omega
  refine ⟨kept, place, s₁, { s₂ with mem := s₂.mem.set (s₁.heap.current + 16) 0 }, hrel, hmakes,
    hgrown.write fun a ha => Mem.set_of_ne _ _ (by omega), ?_⟩
  simp only [allocSexp, hrun, Option.bind_eq_bind, Option.bind_some, Option.pure_def]

theorem Ready.le_pool {others : List ℕ} {size : ℕ}
    (h : Ready mmap s os frame (wordAddrs args n) others size) : n ≤ 32 := by
  have := h.pool
  simp only [wordAddrs, List.length_map, List.length_range, maxExtraRootsNumber] at this
  omega

/-- The vector of the arguments lies outside of the stack. -/
def OffStack (s : State) (frame args n : ℕ) : Prop :=
  ∀ a ∈ wordAddrs args n, a < (s.enter frame).gcStackTop ∨ s.gcStackBottom ≤ a

theorem barray_iff
    (h : Ready mmap s os frame (wordAddrs args n) [] (words (LamaType.array.bytes n)))
    (hstack : OffStack s frame args n) :
    Constructs (barray (fun k => some (mmap k)) frame args (2 * n + 1) s) s .array n [] args n ↔
      ArgsClear s args n (words (LamaType.array.bytes n)) := by
  have hn := h.le_pool
  have hbn : unbox (2 * n + 1) = n := unbox_box (by omega)
  have hiff := construct_iff h hstack writes_array (by simp [LamaType.bytes])
    (h.allocates_object (by omega))
  rw [barray, hbn, toSizeT_natCast (by omega), Int.toNat_natCast]
  exact hiff

theorem bsexp_iff (h : Ready mmap s os frame (wordAddrs args n) [args + 8 * n]
      (words (LamaType.sexp.bytes n))) (hstack : OffStack s frame args n) :
    Constructs (bsexp (fun k => some (mmap k)) frame args (2 * (n + 1) + 1) s) s .sexp n
        [toSizeT (unbox (s.mem (args + 8 * n)))] args n ↔
      ArgsClear s args n (words (LamaType.sexp.bytes n)) := by
  have hn := h.le_pool
  have hbn : unbox (2 * (n + 1) + 1) = (n + 1 : ℕ) := unbox_box (by omega)
  have hfields : ((n + 1 : ℕ) : ℤ) - 1 = n := by omega
  have hiff := construct_iff h hstack writes_sexp (by simp [LamaType.bytes]; omega)
    (h.allocates_object (by omega)).sexp
  rw [bsexp, hbn, hfields, toSizeT_natCast (by omega), Int.toNat_natCast]
  exact hiff

theorem bclosure_iff (h : Ready mmap s os frame (wordAddrs (args + 8) n) [args]
      (words (LamaType.closure.bytes (n + 1)))) (hstack : OffStack s frame (args + 8) n) :
    Constructs (bclosure (fun k => some (mmap k)) frame args (2 * n + 1) s) s .closure (n + 1)
        [s.mem args] (args + 8) n ↔
      ArgsClear s (args + 8) n (words (LamaType.closure.bytes (n + 1))) := by
  have hn := h.le_pool
  have hbn : unbox (2 * n + 1) = n := unbox_box (by omega)
  have hlen : (n : ℤ) + 1 = (n + 1 : ℕ) := by omega
  have hiff := construct_iff h hstack writes_closure (by simp [LamaType.bytes]; omega)
    (h.allocates_object (by omega))
  rw [bclosure, hbn, hlen, toSizeT_natCast (by omega), Int.toNat_natCast]
  exact hiff

/-- **The constructors** make the object that they should exactly if there is room in the heap or no
argument that is a pointer lies right behind the data area. -/
theorem constructors_spec :
    (Ready mmap s os frame (wordAddrs args n) [] (words (LamaType.array.bytes n)) →
      OffStack s frame args n →
      (Constructs (barray (fun k => some (mmap k)) frame args (2 * n + 1) s) s .array n [] args n ↔
        ArgsClear s args n (words (LamaType.array.bytes n)))) ∧
    (Ready mmap s os frame (wordAddrs args n) [args + 8 * n] (words (LamaType.sexp.bytes n)) →
      OffStack s frame args n →
      (Constructs (bsexp (fun k => some (mmap k)) frame args (2 * (n + 1) + 1) s) s .sexp n
          [toSizeT (unbox (s.mem (args + 8 * n)))] args n ↔
        ArgsClear s args n (words (LamaType.sexp.bytes n)))) ∧
    (Ready mmap s os frame (wordAddrs (args + 8) n) [args]
        (words (LamaType.closure.bytes (n + 1))) → OffStack s frame (args + 8) n →
      (Constructs (bclosure (fun k => some (mmap k)) frame args (2 * n + 1) s) s .closure (n + 1)
          [s.mem args] (args + 8) n ↔
        ArgsClear s (args + 8) n (words (LamaType.closure.bytes (n + 1))))) :=
  ⟨barray_iff, bsexp_iff, bclosure_iff⟩

end Constructors

/-! ### Vectors in a full heap -/

/-- The two arrays, and vectors whose first fields refer to the first one of them. -/
def vectorMem : Mem := fun a =>
  match a with
  | 8192 | 8208 | 8232 => 1040
  | 8216 => 7
  | 8224 => 512
  | a => twoArrays a

def vectorState : State where
  mem := vectorMem
  heap := ⟨1024, 1072, 1072, 6⟩
  gcStackTop := 0
  gcStackBottom := 4112
  extraRoots := []
  startCustomData := 8184
  stopCustomData := 8192

theorem vectorState_ready {args size : ℕ} {others : List ℕ} (hargs : args ∈ [8192, 8208, 8232])
    (hothers : others ⊆ [8216, 8224]) (hsize : 8 * (12 + size) < 2 ^ 64) :
    Ready (fun _ => 16384) vectorState [1024, 1056] 4096 (wordAddrs args 1) others size := by
  have hformed : Formed vectorState.heap vectorMem [1024, 1056] := by decide
  have hbits : ∀ o ∈ [1024, 1056], isMarked vectorMem (o + 16) = false ∧
      isEnqueued vectorMem (o + 16) = false := by decide
  have hroots : ∀ args ∈ [8192, 8208, 8232],
      ∀ a ∈ rootWords (vectorState.during 4096 (wordAddrs args 1)), 1072 ≤ a ∧ a + 8 ≤ 16384 ∧
        (isValidHeapPointer vectorState.heap (vectorMem a) = true →
          ∃ o ∈ [1024, 1056], vectorMem a = o + 16) := by decide
  have hfixed : ∀ args ∈ [8192, 8208, 8232],
      ∀ a ∈ fixedWords (vectorState.during 4096 (wordAddrs args 1)), 1072 ≤ a ∧ a + 8 ≤ 16384 ∧
        (isValidHeapPointer vectorState.heap (vectorMem a) = true →
          a ∈ rootWords (vectorState.during 4096 (wordAddrs args 1))) := by decide
  have hvector : ∀ args ∈ [8192, 8208, 8232], ∀ a ∈ wordAddrs args 1,
      a % 8 = 0 ∧ 4112 ≤ a := by decide
  have hpool : ∀ args ∈ [8192, 8208, 8232], 0 + (wordAddrs args 1).length ≤ 32 := by decide
  have hplain : ∀ a ∈ [8216, 8224], isValidHeapPointer vectorState.heap (vectorMem a) = false ∧
      1072 ≤ a ∧ a + 8 ≤ 16384 := by decide
  have hdata : 8184 ≤ 8192 := by decide
  have htop : 4096 % 8 = 0 := by decide
  have hbottom : 4112 % 8 = 0 := by decide
  have hstart : 8184 % 8 = 0 := by decide
  have hstop : 8192 % 8 = 0 := by decide
  have hbelow : 1024 + 8 * 6 ≤ 16384 := by decide
  exact
    { framed := by constructor <;> decide
      nonempty := by decide
      collectable := ⟨hformed, fun o ho => (hbits o ho).1, fun o ho => (hbits o ho).2,
        fun a ha => .inr (hroots args hargs a ha).1, fun a ha => (hroots args hargs a ha).2.2⟩
      areas := ⟨fun a ha => .inr (hfixed args hargs a ha).1, hdata, htop, hbottom, hstart, hstop,
        fun a ha => (hvector args hargs a ha).1⟩
      rooted := ⟨fun a ha => .inr (hfixed args hargs a ha).1,
        fun a ha => (hfixed args hargs a ha).2.2, hdata⟩
      chunk := rfl
      room := hsize
      pool := hpool args hargs
      heap := fun a ha => by
        rcases List.mem_append.1 ha with ha | ha
        · have := (hvector args hargs a ha).2
          exact .inr (le_trans (by decide) this)
        · exact .inr (hplain a (hothers ha)).2.1
      fresh := fun k => ⟨rfl, .inr hbelow, fun a ha => .inl (by
        rcases ha with ha | ha
        · exact (hroots args hargs a ha).2.1
        · exact (hfixed args hargs a ha).2.1)⟩
      apart := fun a ha k => .inl (hplain a (hothers ha)).2.2
      plain := fun a ha => (hplain a (hothers ha)).1 }

theorem vectorState_offStack : ∀ args ∈ [8192, 8208, 8232], OffStack vectorState 4096 args 1 := by
  unfold OffStack
  decide

/-- The three constructors with a vector behind the data area, in a full heap. -/
theorem constructors_spec_vector :
    Constructs (barray (fun _ => some 16384) 4096 8208 3 vectorState) vectorState .array 1 [] 8208 1 ∧
    Constructs (bsexp (fun _ => some 16384) 4096 8208 5 vectorState) vectorState .sexp 1 [3] 8208 1 ∧
    Constructs (bclosure (fun _ => some 16384) 4096 8224 3 vectorState) vectorState .closure 2 [512]
      8232 1 := by
  have hspec {args : ℕ} := @constructors_spec (fun _ => 16384) vectorState [1024, 1056] 4096 args 1
  refine ⟨?_, ?_, ?_⟩
  · exact (hspec.1 (vectorState_ready (by decide) (by decide) (by decide)) (vectorState_offStack _ (by decide))).2 (.inr (by decide))
  · have htag : toSizeT (unbox (vectorMem (8208 + 8 * 1))) = 3 := by decide
    have hsexp := (@hspec 8208).2.1 (vectorState_ready (by decide) (by decide) (by decide))
      (vectorState_offStack _ (by decide))
    have htags : vectorState.mem (8208 + 8 * 1) = vectorMem (8208 + 8 * 1) := rfl
    rw [htags, htag] at hsexp
    exact hsexp.2 (.inr (by decide))
  · exact (hspec.2.2 (vectorState_ready (by decide) (by decide) (by decide)) (vectorState_offStack _ (by decide))).2 (.inr (by decide))

/-- An array of one field, whose argument lies right behind the data area. -/
theorem not_constructs_array :
    ¬ Constructs (barray (fun _ => some 16384) 4096 8192 3 vectorState) vectorState .array 1 [] 8192
      1 := by
  intro hconstructs
  have hclear := (@barray_iff (fun _ => 16384) vectorState [1024, 1056] 4096 8192 1
    (vectorState_ready (by decide) (by decide) (by decide)) (vectorState_offStack _ (by decide))).1
    hconstructs
  exact absurd hclear (by unfold ArgsClear; decide)

end LamaRv.Gc
