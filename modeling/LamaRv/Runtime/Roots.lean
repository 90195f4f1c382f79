import LamaRv.Runtime.Collect

/-!
# The words of the roots (`gc.c`)

The roots are found twice in a collection: when they are marked, and when references are updated.
The two walks go through the same words but at the ends of the areas.  The word at
`__gc_stack_bottom` is only in the second walk; an extra root at `__gc_stack_top` or at
`__stop_custom_data` is only in the first one.

* `fixWordLogged`, `updateReferencesLogged`, `collectLogged`: the code with a record of the words that
  are rewritten;
* `RootWords`: where the areas may lie;
* `EdgesClear`: what the words at the ends of the areas must not hold;
* `roots_agree`: the words of the first walk that hold a pointer are those that are rewritten.
-/

namespace LamaRv.Gc

open Marking

/-! ### The code, with a record -/

/-- `fixWord`, with the word if it is rewritten. -/
def fixWordLogged (heap oldHeap : MemoryChunk) (m : Mem) (ptr : ℕ) : Option (Mem × List ℕ) := do
  let ptrValue := m ptr
  if isValidPointer ptrValue ∧ oldHeap.begin ≤ ptrValue ∧ ptrValue ≤ oldHeap.current then
    return (m.set ptr (← newContent heap oldHeap m ptrValue), [ptr])
  else return (m, [])

/-- `fixWords`, with the words that are rewritten. -/
def fixWordsLogged (heap oldHeap : MemoryChunk) : List ℕ → Mem → Option (Mem × List ℕ)
  | [], m => some (m, [])
  | a :: as, m => do
    let (m, here) ← fixWordLogged heap oldHeap m a
    let (m, rest) ← fixWordsLogged heap oldHeap as m
    return (m, here ++ rest)

/-- `updateReferences`, with the roots that are rewritten. -/
def updateReferencesLogged (s : State) (oldHeap : MemoryChunk) : Option (State × List ℕ) := do
  let m ← forObjects id s.heap (updateObject s.heap oldHeap) (s.heap.size + 1) s.heap.begin s.mem
  let (m, stack) ←
    fixWordsLogged s.heap oldHeap (wordsBetween (s.gcStackTop + 8) (s.gcStackBottom + 8)) m
  let (m, extra) ←
    fixWordsLogged s.heap oldHeap (s.extraRoots.filter fun root => !skipsRoot s root) m
  guard (s.stopCustomData ≥ s.startCustomData)
  let (m, data) ← fixWordsLogged s.heap oldHeap (dataWords s) m
  return ({ s with mem := m }, stack ++ (extra ++ data))

/-- `collect`, with the roots that are rewritten. -/
def collectLogged (mmap : ℕ → Option ℕ) (s : State) (additionalSize : ℕ) :
    Option (State × List ℕ) := do
  let s₁ ← markPhase s
  let (s₂, liveSize) ← copyHeap mmap s₁ additionalSize
  let (s₃, rewritten) ← updateReferencesLogged s₂ s₁.heap
  let s₄ ← physicallyRelocate s₃ s₁.heap
  return ({ s₄ with heap := { s₄.heap with current := s₄.heap.begin + 8 * liveSize } }, rewritten)

/-! ### The record changes nothing -/

section Erase

variable {heap heap' : MemoryChunk} {m m' : Mem} {log : List ℕ}

theorem fixWordLogged_erase (m : Mem) (a : ℕ) :
    (fixWordLogged heap' heap m a).map Prod.fst = fixWord heap' heap m a := by
  simp only [fixWordLogged, fixWord]
  split_ifs
  · cases newContent heap' heap m (m a) <;> rfl
  · rfl

theorem fixWordsLogged_erase (as : List ℕ) (m : Mem) :
    (fixWordsLogged heap' heap as m).map Prod.fst = fixWords heap' heap as m := by
  induction as generalizing m with
  | nil => rfl
  | cons a as ih =>
    rw [fixWordsLogged, fixWords, ← fixWordLogged_erase]
    cases fixWordLogged heap' heap m a with
    | none => rfl
    | some p =>
      obtain ⟨m₁, here⟩ := p
      simp only [Option.bind_eq_bind, Option.bind_some, Option.map_some, ← ih]
      cases fixWordsLogged heap' heap as m₁ <;> rfl

theorem fixWordsLogged_append (xs ys : List ℕ) (m : Mem) :
    fixWordsLogged heap' heap (xs ++ ys) m = do
      let (m, log) ← fixWordsLogged heap' heap xs m
      let (m, log') ← fixWordsLogged heap' heap ys m
      return (m, log ++ log') := by
  induction xs generalizing m with
  | nil =>
    simp only [List.nil_append, fixWordsLogged, Option.bind_eq_bind, Option.bind_some,
      Option.pure_def, Prod.mk.eta, Option.bind_fun_some]
  | cons x xs ih =>
    rw [List.cons_append, fixWordsLogged, fixWordsLogged]
    simp only [ih, Option.bind_eq_bind, Option.pure_def, Option.bind_assoc, Option.bind_some,
      List.append_assoc]

/-- The three walks are one, through all words in which references are updated. -/
theorem updateReferencesLogged_eq {s : State} (h : s.startCustomData ≤ s.stopCustomData) :
    updateReferencesLogged s heap = do
      let m ← forObjects id s.heap (updateObject s.heap heap) (s.heap.size + 1) s.heap.begin s.mem
      let (m, log) ← fixWordsLogged s.heap heap (fixedWords s) m
      return ({ s with mem := m }, log) := by
  have hassert : (guard (s.stopCustomData ≥ s.startCustomData) : Option Unit) = some () := if_pos h
  simp only [updateReferencesLogged, fixedWords, fixWordsLogged_append, hassert, Option.bind_eq_bind,
    Option.bind_some, Option.pure_def, Option.bind_assoc]

theorem updateReferencesLogged_erase (s : State) :
    (updateReferencesLogged s heap).map Prod.fst = updateReferences s heap := by
  simp only [updateReferencesLogged, updateReferences, scanAndFixRegion, scanAndFixRegionRoots,
    dataWords, ← fixWordsLogged_erase, Option.bind_eq_bind, Option.pure_def, Option.map_bind,
    Option.bind_map, Function.comp_def, Option.map_some]

theorem collectLogged_erase (mmap : ℕ → Option ℕ) (s : State) (additionalSize : ℕ) :
    (collectLogged mmap s additionalSize).map Prod.fst = collect mmap s additionalSize := by
  simp only [collectLogged, collect, compactPhase_eq, ← updateReferencesLogged_erase,
    Option.bind_eq_bind, Option.pure_def, Option.map_bind, Option.bind_map, Function.comp_def,
    Option.map_some]

end Erase

/-! ### What is recorded -/

section Log

variable {heap heap' : MemoryChunk} {m m' : Mem} {as log : List ℕ}

theorem fixWordLogged_eq (a : ℕ) : fixWordLogged heap' heap m a =
    if isValidHeapPointer heap (m a) then
      (newContent heap' heap m (m a)).map fun v => (m.set a v, [a])
    else some (m, []) := by
  have hiff : (isValidPointer (m a) = true ∧ heap.begin ≤ m a ∧ m a ≤ heap.current) ↔
      isValidHeapPointer heap (m a) = true := by
    simp [isValidHeapPointer, isValidPointer, and_assoc]
  simp only [fixWordLogged, hiff]
  split_ifs
  · cases newContent heap' heap m (m a) <;> rfl
  · rfl

/-- One word is recorded if it holds a pointer into the old heap. -/
theorem fixWordLogged_cases {a : ℕ} (h : fixWordLogged heap' heap m a = some (m', log)) :
    (isValidHeapPointer heap (m a) = true ∧ log = [a] ∧ ∃ v, m' = m.set a v) ∨
      (isValidHeapPointer heap (m a) = false ∧ log = [] ∧ m' = m) := by
  rw [fixWordLogged_eq] at h
  split_ifs at h with hvalid
  · obtain ⟨v, -, h⟩ := Option.map_eq_some_iff.1 h
    cases h
    exact .inl ⟨hvalid, rfl, v, rfl⟩
  · cases h
    exact .inr ⟨by simpa using hvalid, rfl, rfl⟩

/-- The words that are recorded are those that hold a pointer into the old heap at the start. -/
theorem mem_fixWordsLogged (h : fixWordsLogged heap' heap as m = some (m', log)) (x : ℕ) :
    x ∈ log ↔ x ∈ as ∧ isValidHeapPointer heap (m x) = true := by
  induction as generalizing m log with
  | nil =>
    cases h
    simp
  | cons a as ih =>
    rw [fixWordsLogged] at h
    obtain ⟨⟨m₁, here⟩, hhere, h⟩ := Option.bind_eq_some_iff.1 h
    obtain ⟨⟨m₂, rest⟩, hrest, h⟩ := Option.bind_eq_some_iff.1 h
    cases h
    rw [List.mem_append, ih hrest, List.mem_cons]
    obtain ⟨hvalid, rfl, v, rfl⟩ | ⟨hvalid, rfl, rfl⟩ := fixWordLogged_cases hhere
    · by_cases hxa : x = a
      · simp [hxa, hvalid]
      · simp [hxa]
    · by_cases hxa : x = a
      · simp [hxa, hvalid]
      · simp [hxa]

/-- No word is recorded twice, if a word that comes again does not hold a pointer into the old heap
then. -/
theorem nodup_fixWordsLogged (h : fixWordsLogged heap' heap as m = some (m', log))
    (hagain : ∀ done a rest m₁, as = done ++ a :: rest → fixWords heap' heap done m = some m₁ →
      a ∈ done → isValidHeapPointer heap (m₁ a) = false) : log.Nodup := by
  induction as using List.reverseRecOn generalizing m' log with
  | nil =>
    cases h
    exact List.nodup_nil
  | append_singleton as a ih =>
    rw [fixWordsLogged_append] at h
    obtain ⟨⟨m₁, done⟩, hdone, h⟩ := Option.bind_eq_some_iff.1 h
    obtain ⟨⟨m₂, last⟩, hlast, h⟩ := Option.bind_eq_some_iff.1 h
    cases h
    rw [fixWordsLogged] at hlast
    obtain ⟨⟨m₂, here⟩, hhere, hlast⟩ := Option.bind_eq_some_iff.1 hlast
    cases hlast
    have hnodup : done.Nodup := ih hdone fun done' x rest m₃ hsplit =>
      hagain done' x (rest ++ [a]) m₃ (by rw [hsplit, List.append_assoc]; rfl)
    obtain ⟨hvalid, rfl, v, rfl⟩ | ⟨hvalid, rfl, rfl⟩ := fixWordLogged_cases hhere
    · have hrun : fixWords heap' heap as m = some m₁ := by rw [← fixWordsLogged_erase, hdone]; rfl
      refine List.nodup_append.2 ⟨hnodup, by simp, fun x hx y hy hxy => ?_⟩
      obtain rfl : y = a := by simpa using hy
      have hmem := ((mem_fixWordsLogged hdone x).1 hx).1
      rw [hagain as y [] m₁ rfl hrun (hxy ▸ hmem)] at hvalid
      exact Bool.noConfusion hvalid
    · simpa using hnodup

end Log

/-! ### The ends of the areas -/

/-- The words in which roots are looked for: they are words, and lie outside the heap. -/
structure RootWords (s : State) : Prop where
  outside : ∀ a ∈ fixedWords s, a < s.heap.begin ∨ s.heap.current ≤ a
  data : s.startCustomData ≤ s.stopCustomData
  top : s.gcStackTop % 8 = 0
  bottom : s.gcStackBottom % 8 = 0
  start : s.startCustomData % 8 = 0
  stop : s.stopCustomData % 8 = 0
  extra : ∀ a ∈ s.extraRoots, a % 8 = 0

/-- No word that only one of the two walks goes through has some property. -/
structure EdgesClear (s : State) (holds : ℕ → Prop) : Prop where
  bottom : s.gcStackTop < s.gcStackBottom → holds s.gcStackBottom →
    s.gcStackBottom ∈ s.extraRoots ∨ s.gcStackBottom ∈ dataWords s
  top : s.gcStackTop ∈ s.extraRoots → s.gcStackTop < s.gcStackBottom → holds s.gcStackTop →
    s.gcStackTop ∈ dataWords s
  stop : s.stopCustomData ∈ s.extraRoots → holds s.stopCustomData →
    s.stopCustomData ∈ wordsBetween (s.gcStackTop + 8) (s.gcStackBottom + 8)

theorem mem_wordsBetween {start stop a : ℕ} :
    a ∈ wordsBetween start stop ↔ start ≤ a ∧ a < stop ∧ a % 8 = start % 8 := by
  constructor
  · intro h
    obtain ⟨i, hi, rfl⟩ := List.mem_map.1 h
    have := List.mem_range.1 hi
    omega
  · rintro ⟨hle, hlt, hmod⟩
    exact List.mem_map.2 ⟨(a - start) / 8, List.mem_range.2 (by omega), by omega⟩

theorem skipsRoot_iff {s : State} {a : ℕ} : skipsRoot s a = true ↔
    (s.gcStackTop ≤ a ∧ a < s.gcStackBottom) ∨
      (a ≤ s.stopCustomData ∧ s.startCustomData ≤ a) := by
  simp [skipsRoot]

section RootWords

variable {s : State} (h : RootWords s) {a : ℕ}

include h

theorem RootWords.mem_dataWords :
    a ∈ dataWords s ↔ s.startCustomData ≤ a ∧ a < s.stopCustomData ∧ a % 8 = 0 := by
  rw [dataWords, mem_wordsBetween, h.start]

/-- The words of the first walk. -/
theorem RootWords.mem_rootWords : a ∈ rootWords s ↔
    (s.gcStackTop + 8 ≤ a ∧ a < s.gcStackBottom ∧ a % 8 = 0) ∨
      a ∈ s.extraRoots ∨ (s.startCustomData ≤ a ∧ a < s.stopCustomData ∧ a % 8 = 0) := by
  have htop := h.top
  have hfirst : (s.gcStackTop + 8) % 8 = 0 := by omega
  rw [rootWords, List.mem_append, List.mem_append, stackWords, h.mem_dataWords, mem_wordsBetween,
    or_assoc, hfirst]

/-- The words of the second walk. -/
theorem RootWords.mem_fixedWords : a ∈ fixedWords s ↔
    (s.gcStackTop + 8 ≤ a ∧ a < s.gcStackBottom + 8 ∧ a % 8 = 0) ∨
      (a ∈ s.extraRoots ∧ ¬ ((s.gcStackTop ≤ a ∧ a < s.gcStackBottom) ∨
        (a ≤ s.stopCustomData ∧ s.startCustomData ≤ a))) ∨
      (s.startCustomData ≤ a ∧ a < s.stopCustomData ∧ a % 8 = 0) := by
  have htop := h.top
  have hfirst : (s.gcStackTop + 8) % 8 = 0 := by omega
  rw [fixedWords, List.mem_append, List.mem_append, List.mem_filter, h.mem_dataWords,
    mem_wordsBetween, hfirst, Bool.not_eq_true', ← Bool.not_eq_true, skipsRoot_iff]

end RootWords

/-- The two walks go through the same words of some kind if there is none of them at the ends. -/
theorem edgesClear_iff {s : State} (h : RootWords s) (holds : ℕ → Prop) :
    (∀ a, holds a → (a ∈ rootWords s ↔ a ∈ fixedWords s)) ↔ EdgesClear s holds := by
  have htop := h.top
  have hbottom := h.bottom
  have hstop := h.stop
  have hdata := h.data
  have hfirst : (s.gcStackTop + 8) % 8 = 0 := by omega
  constructor
  · intro hsame
    refine ⟨fun hlt hholds => ?_, fun hextra hlt hholds => ?_, fun hextra hholds => ?_⟩
    · have hin := (hsame _ hholds).2 (h.mem_fixedWords.2 (.inl ⟨by omega, by omega, hbottom⟩))
      rcases h.mem_rootWords.1 hin with hstack | hextra | hin
      · omega
      · exact .inl hextra
      · exact .inr (h.mem_dataWords.2 hin)
    · have hin := (hsame _ hholds).1 (h.mem_rootWords.2 (.inr (.inl hextra)))
      rcases h.mem_fixedWords.1 hin with hstack | ⟨-, hskip⟩ | hin
      · omega
      · omega
      · exact h.mem_dataWords.2 hin
    · have hin := (hsame _ hholds).1 (h.mem_rootWords.2 (.inr (.inl hextra)))
      rcases h.mem_fixedWords.1 hin with hstack | ⟨-, hskip⟩ | hin
      · rw [mem_wordsBetween, hfirst]
        exact hstack
      · omega
      · omega
  · rintro ⟨hbot, htop', hstop'⟩ a hholds
    rw [h.mem_rootWords, h.mem_fixedWords]
    constructor
    · rintro (hstack | hextra | hin)
      · exact .inl ⟨hstack.1, by omega, hstack.2.2⟩
      · have halign := h.extra a hextra
        by_cases hskip : (s.gcStackTop ≤ a ∧ a < s.gcStackBottom) ∨
            (a ≤ s.stopCustomData ∧ s.startCustomData ≤ a)
        · by_cases hstack : s.gcStackTop + 8 ≤ a ∧ a < s.gcStackBottom + 8
          · exact .inl ⟨hstack.1, hstack.2, halign⟩
          · by_cases hin : s.startCustomData ≤ a ∧ a < s.stopCustomData
            · exact .inr (.inr ⟨hin.1, hin.2, halign⟩)
            · -- the first word of the stack, or the word after the data
              by_cases hend : a = s.gcStackTop
              · subst hend
                rcases (by omega : s.gcStackTop < s.gcStackBottom ∨
                  s.gcStackTop = s.stopCustomData) with hlt | heq
                · exact .inr (.inr (h.mem_dataWords.1 (htop' hextra hlt hholds)))
                · have hlast := hstop' (heq ▸ hextra) (heq ▸ hholds)
                  rw [mem_wordsBetween, hfirst] at hlast
                  omega
              · obtain rfl : a = s.stopCustomData := by omega
                have hlast := hstop' hextra hholds
                rw [mem_wordsBetween, hfirst] at hlast
                exact .inl hlast
        · exact .inr (.inl ⟨hextra, hskip⟩)
      · exact .inr (.inr hin)
    · rintro (hstack | ⟨hextra, -⟩ | hin)
      · by_cases hlt : a < s.gcStackBottom
        · exact .inl ⟨hstack.1, hlt, hstack.2.2⟩
        · obtain rfl : a = s.gcStackBottom := by omega
          rcases hbot (by omega) hholds with hextra | hin
          · exact .inr (.inl hextra)
          · exact .inr (.inr (h.mem_dataWords.1 hin))
      · exact .inr (.inl hextra)
      · exact .inr (.inr hin)

/-! ### The roots in a collection -/

/-- What a collection does to the words of the roots: those that hold a pointer into the heap are
rewritten, each one once, to where the object has gone. -/
structure RewritesRoots (s s' : State) (kept rewritten : List ℕ) : Prop where
  once : ∀ a, rewritten.count a =
    if a ∈ rootWords s ∧ isValidHeapPointer s.heap (s.mem a) = true then 1 else 0
  referent : ∀ a ∈ rewritten, s'.mem a = newPlace s s' kept (s.mem a - 16) + 16
  same : ∀ a, a ∈ rootWords s ∨ a ∈ fixedWords s → a ∉ rewritten → s'.mem a = s.mem a

/-- A collection in `s` comes to an end and does so. -/
def CollectsRoots (mmap : ℕ → ℕ) (s : State) (os : List ℕ) (additionalSize : ℕ) : Prop :=
  ∃ kept s' rewritten, collectLogged (fun n => some (mmap n)) s additionalSize = some (s', rewritten) ∧
    Collected s os kept additionalSize s' ∧ RewritesRoots s s' kept rewritten

section Collection

variable {s : State} {os : List ℕ} {additionalSize : ℕ} {mmap : ℕ → ℕ}

/-- A collection up to the roots: the copy of the heap has been updated, and the roots are as they
were. -/
theorem collectLogged_ready (h : Collectable s os) (hr : RootWords s)
    (hsize : 8 * (2 * s.heap.size + additionalSize) < 2 ^ 64)
    (hmmap : ∀ n, Fresh s (mmap (8 * n)) n) :
    ∃ marked heap' m₂ m₃ m₄, (∀ o, o ∈ marked ↔ Live s o) ∧ Fresh s heap'.begin heap'.size ∧
      Copied s.heap heap' os s.mem marked m₂ m₃ ∧ Readable s.heap heap' os s.mem marked m₄ ∧
      (∀ a ∈ fixedWords s, m₄ a = s.mem a) ∧
      collectLogged (fun n => some (mmap n)) s additionalSize = do
        let (m, log) ← fixWordsLogged heap' s.heap (fixedWords s) m₄
        let s' ← physicallyRelocate { s with mem := m, heap := heap' } s.heap
        return ({ s' with heap := { s'.heap with
          current := s'.heap.begin + 8 * totalWords s.mem (keptOf os marked) } }, log) := by
  obtain ⟨m₁, marked, hmark, hlive, hcopy⟩ := @copyHeap_spec s os _ (fun n => some (mmap n)) h
    (.of_size h.formed hsize)
    fun n begin hbegin => by
      cases hbegin
      exact hmmap n
  rcases hcopy with ⟨n, hnone, -⟩ | ⟨m₂, m₃, heap', hcopy, hcopied, hbegin, hm₃, -, -⟩
  · cases hnone
  have hfresh : Fresh s heap'.begin heap'.size := Option.some.inj hbegin ▸ hmmap _
  obtain ⟨m₄, hobjects, hm₄⟩ := updateObjects_spec hcopied
  refine ⟨marked, heap', m₂, m₃, m₄, hlive, hfresh, hcopied,
    hm₄.readable hcopied fun f hf => mem_doneFields hf, fun a ha => ?_, ?_⟩
  · have hout := hfresh.roots a (.inr ha)
    calc m₄ a = m₃ a := hm₄.same a (hcopied.outside_ne hout)
      _ = m₂ a := hm₃ a hout
      _ = s.mem a := hcopied.located.outside h.formed (hr.outside a ha)
  · have hfixed : fixedWords { s with mem := m₃, heap := heap' } = fixedWords s := rfl
    have hupdate := @updateReferencesLogged_eq s.heap { s with mem := m₃, heap := heap' } hr.data
    simp only [hobjects, hfixed, Option.bind_eq_bind, Option.bind_some] at hupdate
    simp only [collectLogged, hmark, hcopy, hupdate, Option.bind_eq_bind, Option.bind_some,
      Option.pure_def, Option.bind_assoc]

/-- The words that are rewritten are those of the second walk that hold a pointer. -/
theorem mem_rewritten (h : Collectable s os) (hr : RootWords s)
    (hsize : 8 * (2 * s.heap.size + additionalSize) < 2 ^ 64)
    (hmmap : ∀ n, Fresh s (mmap (8 * n)) n) {s' : State} {rewritten : List ℕ}
    (hrun : collectLogged (fun n => some (mmap n)) s additionalSize = some (s', rewritten)) (a : ℕ) :
    a ∈ rewritten ↔ a ∈ fixedWords s ∧ isValidHeapPointer s.heap (s.mem a) = true := by
  obtain ⟨marked, heap', m₂, m₃, m₄, -, -, -, -, hsame, hcollect⟩ :=
    collectLogged_ready h hr hsize hmmap
  rw [hcollect] at hrun
  obtain ⟨⟨m₅, log⟩, hlog, hrun⟩ := Option.bind_eq_some_iff.1 hrun
  obtain ⟨s₆, -, hrun⟩ := Option.bind_eq_some_iff.1 hrun
  cases hrun
  rw [mem_fixWordsLogged hlog]
  refine and_congr_right fun ha => ?_
  rw [hsame a ha]

/-- No word is rewritten twice. -/
theorem nodup_rewritten (h : Collectable s os) (hr : RootWords s) (hroots : Rooted s)
    (hsize : 8 * (2 * s.heap.size + additionalSize) < 2 ^ 64)
    (hmmap : ∀ n, Fresh s (mmap (8 * n)) n) {s' : State} {rewritten : List ℕ}
    (hrun : collectLogged (fun n => some (mmap n)) s additionalSize = some (s', rewritten)) :
    rewritten.Nodup := by
  obtain ⟨marked, heap', m₂, m₃, m₄, hlive, hfresh, hcopied, hread, hsame, hcollect⟩ :=
    collectLogged_ready h hr hsize hmmap
  rw [hcollect] at hrun
  obtain ⟨⟨m₅, log⟩, hlog, hrun⟩ := Option.bind_eq_some_iff.1 hrun
  obtain ⟨s₆, -, hrun⟩ := Option.bind_eq_some_iff.1 hrun
  cases hrun
  have hptr := hroots.pointer h hlive
  have hnew := fun a ha => hroots.not_valid h hlive hcopied.room hfresh (a := a) ha
  refine nodup_fixWordsLogged hlog fun done a rest m hsplit hdone ha => ?_
  have hmem : ∀ x ∈ done, x ∈ fixedWords s := fun x hx => by simp [hsplit, hx]
  -- the words that have been walked through have been updated
  obtain ⟨m', hrun, hm'⟩ := fixWords_spec h.formed hread
    (fun x hx o ho k hk => hcopied.header_ne (hfresh.roots x (.inr (hmem x hx))) ho hk)
    (fun x hx => hsame x (hmem x hx)) (fun x hx => hptr x (hmem x hx))
    (fun x hx => hnew x (hmem x hx.mem))
  rw [hdone] at hrun
  cases hrun
  have hchanged : m a = relocated s.heap heap' s.mem (keptOf os marked) (s.mem a) := hm'.changed a ha
  rw [hchanged]
  exact hnew a (hmem a ha)

/-- A root that is left out is as it was. -/
theorem Collected.root_same {s' : State} {kept : List ℕ} {a : ℕ}
    (hc : Collected s os kept additionalSize s') (h : Collectable s os) (ha : a ∈ rootWords s)
    (hfixed : a ∉ fixedWords s) : s'.mem a = s.mem a := by
  refine hc.frame a hfixed (fun o ho heq => ?_) (hc.fresh.roots a (.inl ha))
  have := h.formed.objects.bounds o ho
  have := (h.formed.objects.sound o ho).two_le_words
  have := h.outside a ha
  omega

/-- In a collection the roots that hold a pointer are rewritten exactly if no other word, and no root
that is left out, holds one. -/
theorem collectsRoots_iff (h : Collectable s os) (hr : RootWords s)
    (hsize : 8 * (2 * s.heap.size + additionalSize) < 2 ^ 64)
    (hmmap : ∀ n, Fresh s (mmap (8 * n)) n) : CollectsRoots mmap s os additionalSize ↔
      EdgesClear s fun a => isValidHeapPointer s.heap (s.mem a) = true := by
  rw [← edgesClear_iff hr]
  constructor
  · rintro ⟨kept, s', rewritten, hrun, -, hrewrites⟩ a hvalid
    have hcount := hrewrites.once a
    have hmem := mem_rewritten h hr hsize hmmap hrun a
    simp only [hvalid, and_true] at hcount hmem
    have hroot : a ∈ rewritten ↔ a ∈ rootWords s := by
      rw [← List.count_pos_iff, hcount]
      by_cases ha : a ∈ rootWords s <;> simp [ha]
    exact hroot.symm.trans hmem
  · intro hsame
    have hroots : Rooted s :=
      ⟨hr.outside, fun a ha hvalid => (hsame a hvalid).2 ha, hr.data⟩
    rcases @collect_spec s os _ (fun n => some (mmap n)) h hroots (.of_size h.formed hsize) fun n begin hbegin => by
      cases hbegin
      exact hmmap n with ⟨n, hnone, -⟩ | ⟨kept, s', hcollect, -, hcollected⟩
    · cases hnone
    rw [← collectLogged_erase] at hcollect
    obtain ⟨⟨s', rewritten⟩, hrun, heq⟩ := Option.map_eq_some_iff.1 hcollect
    cases heq
    have hmem := mem_rewritten h hr hsize hmmap hrun
    have hnodup := nodup_rewritten h hr hroots hsize hmmap hrun
    refine ⟨kept, s', rewritten, hrun, hcollected, fun a => ?_, fun a ha => ?_, fun a ha hnot => ?_⟩
    · rw [hnodup.count]
      refine if_congr ?_ rfl rfl
      rw [hmem]
      exact and_congr_left fun hvalid => (hsame a hvalid).symm
    · obtain ⟨hfixed, hvalid⟩ := (hmem a).1 ha
      rw [hcollected.roots a hfixed, moved, relocated, if_pos hvalid, newPlace]
    · by_cases hfixed : a ∈ fixedWords s
      · have hinvalid : ¬ isValidHeapPointer s.heap (s.mem a) = true := fun hvalid =>
          hnot ((hmem a).2 ⟨hfixed, hvalid⟩)
        rw [hcollected.roots a hfixed, moved, relocated, if_neg hinvalid]
      · exact hcollected.root_same h (ha.resolve_right hfixed) hfixed

/-- **Marking and updating the roots** go through the same words exactly if no word is at an end of
the areas, and the roots that hold a pointer are rewritten exactly if no word there holds one. -/
theorem roots_agree (h : Collectable s os) (hr : RootWords s)
    (hsize : 8 * (2 * s.heap.size + additionalSize) < 2 ^ 64)
    (hmmap : ∀ n, Fresh s (mmap (8 * n)) n) :
    (((∀ a, a ∈ rootWords s ↔ a ∈ fixedWords s) ∧ CollectsRoots mmap s os additionalSize) ↔
      EdgesClear s fun _ => True) ∧
    (CollectsRoots mmap s os additionalSize ↔
      EdgesClear s fun a => isValidHeapPointer s.heap (s.mem a) = true) := by
  have hiff := collectsRoots_iff h hr hsize hmmap
  refine ⟨⟨fun ⟨hsame, _⟩ => ?_, fun hclear => ?_⟩, hiff⟩
  · exact (edgesClear_iff hr _).1 fun a _ => hsame a
  · have hsame := (edgesClear_iff hr _).2 hclear
    refine ⟨fun a => hsame a trivial, hiff.2 ?_⟩
    exact (edgesClear_iff hr _).1 fun a _ => hsame a trivial

end Collection

/-! ### Two arrays and an extra root -/

/-- The first of the two arrays is referred to by the word at some address. -/
def rootAt (root : ℕ) : Mem := fun a => if a = root then 1040 else twoArrays a

/-- An extra root at some address, and a stack of two words. -/
def rootState (root : ℕ) : State where
  mem := rootAt root
  heap := twoArraysHeap
  gcStackTop := 4096
  gcStackBottom := 4112
  extraRoots := [root]
  startCustomData := 8192
  stopCustomData := 8192

theorem rootState_collectable : ∀ root ∈ [4096, 4104], Collectable (rootState root) [1024, 1056] := by
  have hformed : ∀ root ∈ [4096, 4104], Formed twoArraysHeap (rootAt root) [1024, 1056] := by decide
  have hbits : ∀ root ∈ [4096, 4104], ∀ o ∈ [1024, 1056],
      isMarked (rootAt root) (o + 16) = false ∧ isEnqueued (rootAt root) (o + 16) = false := by decide
  have hroots : ∀ root ∈ [4096, 4104], ∀ a ∈ rootWords (rootState root), 1072 ≤ a ∧
      (isValidHeapPointer twoArraysHeap (rootAt root a) = true →
        ∃ o ∈ [1024, 1056], rootAt root a = o + 16) := by decide
  intro root h
  exact ⟨hformed root h, fun o ho => (hbits root h o ho).1, fun o ho => (hbits root h o ho).2,
    fun a ha => .inr (hroots root h a ha).1, fun a ha => (hroots root h a ha).2⟩

theorem rootState_words : ∀ root ∈ [4096, 4104], RootWords (rootState root) := by
  have hout : ∀ root ∈ [4096, 4104], ∀ a ∈ fixedWords (rootState root), 1072 ≤ a := by decide
  have hextra : ∀ root ∈ [4096, 4104], root % 8 = 0 := by decide
  intro root h
  have htop : 4096 % 8 = 0 := by decide
  have hbottom : 4112 % 8 = 0 := by decide
  have hdata : 8192 % 8 = 0 := by decide
  exact ⟨fun a ha => .inr (hout root h a ha), le_rfl, htop, hbottom, hdata, hdata,
    fun a ha => (List.mem_singleton.1 ha) ▸ hextra root h⟩

theorem rootState_fresh : ∀ root ∈ [4096, 4104], ∀ n, Fresh (rootState root) 16384 n := by
  have hlow : ∀ root ∈ [4096, 4104],
      ∀ a ∈ rootWords (rootState root) ++ fixedWords (rootState root), a + 8 ≤ 16384 := by decide
  intro root h n
  have hheap : 1024 + 8 * 64 ≤ 16384 := by decide
  exact ⟨rfl, .inr hheap, fun a ha => .inl (hlow root h a (List.mem_append.2 ha))⟩

/-- An extra root in the stack is rewritten. -/
theorem roots_agree_stack : CollectsRoots (fun _ => 16384) (rootState 4104) [1024, 1056] 4 := by
  have hroot : 4104 ∈ [4096, 4104] := by decide
  refine (roots_agree (rootState_collectable _ hroot) (rootState_words _ hroot) (by decide)
    (rootState_fresh _ hroot)).2.2 ⟨?_, ?_, ?_⟩ <;> decide

/-- An extra root at the top of the stack is marked, but it is not rewritten. -/
theorem not_collectsRoots_top : 4096 ∈ rootWords (rootState 4096) ∧
    4096 ∉ fixedWords (rootState 4096) ∧
    ¬ CollectsRoots (fun _ => 16384) (rootState 4096) [1024, 1056] 4 := by
  have hroot : 4096 ∈ [4096, 4104] := by decide
  refine ⟨by decide, by decide, fun hcollects => ?_⟩
  have hclear := (collectsRoots_iff (rootState_collectable _ hroot) (rootState_words _ hroot)
    (by decide) (rootState_fresh _ hroot)).1 hcollects
  have hdata := hclear.top (by decide) (by decide) (by decide)
  exact absurd hdata (by decide)

end LamaRv.Gc
