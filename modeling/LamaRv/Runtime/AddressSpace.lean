import LamaRv.Lib.Pages
import LamaRv.Runtime.Alloc

/-!
# The address space of the heap (`gc.c`)

Each collection maps a new chunk and unmaps the old one.  The chunk is mapped with its size in bytes,
but unmapped with its size in words.

* `Kernel`: what `mmap` gives; `Process`: a state with the pages that are mapped for heap chunks;
* `init`, `compactPhaseMapped`, `shutdown`: the code with its calls of `mmap` and `munmap`;
* `Step`: what happens between `__init` and `__shutdown`;
* `Exact`: the mapped pages are those of the current chunk;
* `leakFree_of_releases`, `leakFree_iff`: what is unmapped must lie in one page.
-/

namespace LamaRv.Gc

open Pages

/-! ### The code -/

/-- The choices of the kernel: the address of a new region, beside the pages that are mapped. -/
structure Kernel where
  page : ℕ
  mmap : Finset ℕ → ℕ → Option ℕ

/-- A new region begins with a page, is fresh, and lies in the address space. -/
structure Kernel.Lawful (k : Kernel) : Prop where
  page_pos : 0 < k.page
  page_lt : k.page < 2 ^ 64
  aligned : ∀ {used n a}, k.mmap used n = some a → a % k.page = 0
  fresh : ∀ {used n a}, k.mmap used n = some a → Disjoint (region k.page a n) used
  bound : ∀ {used n a}, k.mmap used n = some a → a + n < 2 ^ 64

/-- A state and the pages that are mapped for chunks of the heap. -/
structure Process where
  state : State
  pages : Finset ℕ

/-- `munmap`. -/
def munmap (page : ℕ) (pages : Finset ℕ) (a n : ℕ) : Finset ℕ := pages \ region page a n

def initHeapSize : ℕ := minimumHeapCapacity

/-- `__init`. -/
def init (k : Kernel) (s : State) : Option Process := do
  let spaceSize := wordsToBytes initHeapSize
  let begin ← k.mmap ∅ spaceSize
  return {
    state := { s with
      mem := s.mem.clear begin initHeapSize
      heap :=
        { begin := begin
          endPtr := begin + 8 * initHeapSize
          size := initHeapSize
          current := begin }
      extraRoots := [] }
    pages := region k.page begin spaceSize }

/-- `compact_phase` with its calls of `mmap`, for the new chunk, and of `munmap`, for the old one. -/
def compactPhaseMapped (k : Kernel) (p : Process) (additionalSize : ℕ) : Option Process := do
  let s ← compactPhase (k.mmap p.pages) p.state additionalSize
  let pages := p.pages ∪ region k.page s.heap.begin (wordsToBytes s.heap.size)
  return { state := s, pages := munmap k.page pages p.state.heap.begin p.state.heap.size }

/-- `mark_phase` and `compact_phase`. -/
def collectMapped (k : Kernel) (p : Process) (additionalSize : ℕ) : Option Process := do
  compactPhaseMapped k { p with state := ← markPhase p.state } additionalSize

/-- `__shutdown`. -/
def shutdown (page : ℕ) (p : Process) : Process where
  state := { p.state with heap := ⟨0, 0, 0, 0⟩, gcStackTop := 0, gcStackBottom := 0 }
  pages := munmap page p.pages p.state.heap.begin p.state.heap.size

/-- What happens to a process: the program does something that is not about the chunk of the heap, or
an object is put into the heap, or the heap is collected; the chunk that is unmapped then is `ok`. -/
inductive Step (k : Kernel) (ok : MemoryChunk → Prop) : Process → Process → Prop
  | program {p : Process} {s : State} : s.heap = p.state.heap → Step k ok p { p with state := s }
  | allocate {p : Process} {s : State} {size ptr : ℕ} :
      gcAllocOnExistingHeap p.state size = some (s, ptr) → Step k ok p { p with state := s }
  | collect {p p' : Process} {additionalSize : ℕ} : ok p.state.heap →
      collectMapped k p additionalSize = some p' → Step k ok p p'

/-! ### What is claimed -/

/-- The mapped pages are those between the two ends of the heap; a pointer has 64 bits. -/
def Exact (page : ℕ) (p : Process) : Prop :=
  p.pages = covering page p.state.heap.begin (toSizeT p.state.heap.endPtr)

/-- In all states of a run, and after `__shutdown` at its end. -/
def LeakFree (page : ℕ) (ps : List Process) : Prop :=
  (∀ p ∈ ps, Exact page p) ∧ ∀ p ∈ ps.getLast?, (shutdown page p).pages = ∅

/-- A chunk that lies in one page. -/
def Small (page : ℕ) (heap : MemoryChunk) : Prop := 8 * heap.size ≤ page

/-- All chunks that are unmapped are small. -/
def Releases (k : Kernel) (ps : List Process) : Prop :=
  ps.IsChain (Step k (Small k.page)) ∧ ∀ p ∈ ps.getLast?, Small k.page p.state.heap

/-! ### The chunk -/

section Chunk

variable {k : Kernel} {p p' : Process} {s s' : State} {mmap : ℕ → Option ℕ} {additionalSize : ℕ}

theorem markPhase_heap (h : markPhase s = some s') : s'.heap = s.heap := by
  obtain ⟨m₁, -, h⟩ := Option.bind_eq_some_iff.1 h
  obtain ⟨m₂, -, h⟩ := Option.bind_eq_some_iff.1 h
  obtain ⟨m₃, -, h⟩ := Option.bind_eq_some_iff.1 h
  exact Option.some.inj h ▸ rfl

theorem updateReferences_heap {oldHeap : MemoryChunk} (h : updateReferences s oldHeap = some s') :
    s'.heap = s.heap := by
  obtain ⟨m₁, -, h⟩ := Option.bind_eq_some_iff.1 h
  obtain ⟨m₂, -, h⟩ := Option.bind_eq_some_iff.1 h
  obtain ⟨m₃, -, h⟩ := Option.bind_eq_some_iff.1 h
  obtain ⟨-, -, h⟩ := Option.bind_eq_some_iff.1 h
  obtain ⟨m₄, -, h⟩ := Option.bind_eq_some_iff.1 h
  exact Option.some.inj h ▸ rfl

theorem physicallyRelocate_heap {oldHeap : MemoryChunk} (h : physicallyRelocate s oldHeap = some s') :
    s'.heap = s.heap := by
  obtain ⟨m, -, h⟩ := Option.bind_eq_some_iff.1 h
  exact Option.some.inj h ▸ rfl

theorem copyHeap_chunk {liveSize : ℕ} (h : copyHeap mmap s additionalSize = some (s', liveSize)) :
    mmap (wordsToBytes s'.heap.size) = some s'.heap.begin ∧
      s'.heap.endPtr = s'.heap.begin + 8 * s'.heap.size := by
  obtain ⟨⟨m, n⟩, -, h⟩ := Option.bind_eq_some_iff.1 h
  obtain ⟨begin, hmmap, h⟩ := Option.bind_eq_some_iff.1 h
  obtain ⟨rfl, -⟩ := Prod.mk.inj (Option.some.inj h)
  exact ⟨hmmap, rfl⟩

/-- The new chunk is the region that has been mapped. -/
theorem compactPhase_chunk (h : compactPhase mmap s additionalSize = some s') :
    mmap (wordsToBytes s'.heap.size) = some s'.heap.begin ∧
      s'.heap.endPtr = s'.heap.begin + 8 * s'.heap.size := by
  rw [compactPhase_eq] at h
  obtain ⟨⟨s₁, liveSize⟩, hcopy, hrest⟩ := Option.bind_eq_some_iff.1 h
  obtain ⟨s₂, hupdate, hrest⟩ := Option.bind_eq_some_iff.1 hrest
  obtain ⟨s₃, hmove, hrest⟩ := Option.bind_eq_some_iff.1 hrest
  have hheap : s₃.heap = s₁.heap := (physicallyRelocate_heap hmove).trans (updateReferences_heap hupdate)
  have hchunk := copyHeap_chunk hcopy
  rw [← hheap] at hchunk
  rw [← Option.some.inj hrest]
  exact hchunk

/-- The chunk of the heap begins with a page and lies in the address space. -/
structure Chunked (page : ℕ) (p : Process) : Prop where
  aligned : p.state.heap.begin % page = 0
  chunk : p.state.heap.endPtr = p.state.heap.begin + 8 * p.state.heap.size
  bound : p.state.heap.begin + wordsToBytes p.state.heap.size < 2 ^ 64

theorem wordsToBytes_mod (n : ℕ) : wordsToBytes n = 8 * n % 2 ^ 64 := by
  unfold wordsToBytes toSizeT
  omega

/-- The pages of the chunk, when it has been mapped with as many bytes as it has. -/
theorem Chunked.exact_iff (h : Chunked k.page p) (hk : k.Lawful) : Exact k.page p ↔
    p.pages = region k.page p.state.heap.begin (wordsToBytes p.state.heap.size) := by
  have hbound := h.bound
  have hend : toSizeT p.state.heap.endPtr =
      p.state.heap.begin + wordsToBytes p.state.heap.size := by
    rw [h.chunk]
    rw [wordsToBytes_mod] at hbound ⊢
    unfold toSizeT
    omega
  rw [Exact, hend, covering_add hk.page_pos h.aligned]

theorem init_spec (hk : k.Lawful) (h : init k s = some p) : Chunked k.page p ∧ Exact k.page p := by
  obtain ⟨begin, hmmap, h⟩ := Option.bind_eq_some_iff.1 h
  have hchunked : Chunked k.page p := by
    rw [← Option.some.inj h]
    exact ⟨hk.aligned hmmap, rfl, hk.bound hmmap⟩
  refine ⟨hchunked, (hchunked.exact_iff hk).2 ?_⟩
  rw [← Option.some.inj h]

/-- What a collection maps and unmaps. -/
theorem collectMapped_spec (h : collectMapped k p additionalSize = some p') :
    k.mmap p.pages (wordsToBytes p'.state.heap.size) = some p'.state.heap.begin ∧
      p'.state.heap.endPtr = p'.state.heap.begin + 8 * p'.state.heap.size ∧
      p'.pages = munmap k.page
        (p.pages ∪ region k.page p'.state.heap.begin (wordsToBytes p'.state.heap.size))
        p.state.heap.begin p.state.heap.size := by
  obtain ⟨s, hmark, h⟩ := Option.bind_eq_some_iff.1 h
  obtain ⟨s', hcompact, h⟩ := Option.bind_eq_some_iff.1 h
  obtain ⟨hmmap, hchunk⟩ := compactPhase_chunk hcompact
  rw [← Option.some.inj h]
  exact ⟨hmmap, hchunk, by rw [markPhase_heap hmark]⟩

theorem collectMapped_chunked (hk : k.Lawful) (h : collectMapped k p additionalSize = some p') :
    Chunked k.page p' := by
  obtain ⟨hmmap, hchunk, -⟩ := collectMapped_spec h
  exact ⟨hk.aligned hmmap, hchunk, hk.bound hmmap⟩

theorem Small.bytes (hk : k.Lawful) (h : Small k.page p.state.heap) :
    wordsToBytes p.state.heap.size = 8 * p.state.heap.size :=
  wordsToBytes_eq (h.trans_lt hk.page_lt)

/-- A small chunk is unmapped as a whole. -/
theorem collectMapped_exact (hk : k.Lawful) (hp : Chunked k.page p) (hexact : Exact k.page p)
    (hsmall : Small k.page p.state.heap) (h : collectMapped k p additionalSize = some p') :
    Exact k.page p' := by
  obtain ⟨hmmap, -, hpages⟩ := collectMapped_spec h
  rw [(collectMapped_chunked hk h).exact_iff hk, hpages, munmap]
  have hold : p.pages = region k.page p.state.heap.begin p.state.heap.size := by
    rw [(hp.exact_iff hk).1 hexact, hsmall.bytes hk, region_of_le _ hsmall]
  have hfresh := hk.fresh hmmap
  rw [hold] at hfresh ⊢
  exact Finset.union_sdiff_cancel_left hfresh.symm

/-- Of a larger chunk a page remains. -/
theorem page_remains (hk : k.Lawful) (hp : Chunked k.page p) (hexact : Exact k.page p)
    (hsmall : ¬ Small k.page p.state.heap) (hsize : 8 * p.state.heap.size < 2 ^ 64) :
    ∃ q ∈ p.pages, q ∉ region k.page p.state.heap.begin p.state.heap.size := by
  have hmore := count_lt hk.page_pos (not_le.1 hsmall)
  obtain ⟨hmem, hnot⟩ := region_diff_ne_empty p.state.heap.begin hmore
  refine ⟨_, ?_, hnot⟩
  rw [(hp.exact_iff hk).1 hexact, wordsToBytes_eq hsize]
  exact hmem

theorem collectMapped_leaks (hk : k.Lawful) (hp : Chunked k.page p) (hexact : Exact k.page p)
    (hsmall : ¬ Small k.page p.state.heap) (hsize : 8 * p.state.heap.size < 2 ^ 64)
    (h : collectMapped k p additionalSize = some p') : ¬ Exact k.page p' := by
  obtain ⟨hmmap, -, hpages⟩ := collectMapped_spec h
  obtain ⟨q, hmem, hnot⟩ := page_remains hk hp hexact hsmall hsize
  intro hexact'
  rw [(collectMapped_chunked hk h).exact_iff hk] at hexact'
  have hq : q ∈ p'.pages := by
    rw [hpages, munmap]
    exact Finset.mem_sdiff.2 ⟨Finset.mem_union_left _ hmem, hnot⟩
  rw [hexact'] at hq
  exact Finset.disjoint_left.1 (hk.fresh hmmap) hq hmem

theorem shutdown_of_small (hk : k.Lawful) (hp : Chunked k.page p) (hexact : Exact k.page p)
    (hsmall : Small k.page p.state.heap) : (shutdown k.page p).pages = ∅ := by
  rw [shutdown, munmap, (hp.exact_iff hk).1 hexact, hsmall.bytes hk, region_of_le _ hsmall,
    Finset.sdiff_self]

theorem small_of_shutdown (hk : k.Lawful) (hp : Chunked k.page p) (hexact : Exact k.page p)
    (hsize : 8 * p.state.heap.size < 2 ^ 64) (h : (shutdown k.page p).pages = ∅) :
    Small k.page p.state.heap := by
  by_contra hsmall
  obtain ⟨q, hmem, hnot⟩ := page_remains hk hp hexact hsmall hsize
  have hq : q ∈ (shutdown k.page p).pages := Finset.mem_sdiff.2 ⟨hmem, hnot⟩
  rw [h] at hq
  exact Finset.notMem_empty q hq

end Chunk

/-! ### Runs -/

section Run

variable {k : Kernel} {ok : MemoryChunk → Prop} {p p' : Process} {ps : List Process} {s s' : State}

theorem gcAllocOnExistingHeap_chunk {size ptr : ℕ} (h : gcAllocOnExistingHeap s size = some (s', ptr)) :
    s'.heap.begin = s.heap.begin ∧ s'.heap.endPtr = s.heap.endPtr ∧ s'.heap.size = s.heap.size := by
  unfold gcAllocOnExistingHeap at h
  split_ifs at h
  obtain ⟨rfl, -⟩ := Prod.mk.inj (Option.some.inj h)
  exact ⟨rfl, rfl, rfl⟩

/-- A step that keeps the chunk keeps what holds of it. -/
theorem Chunked.of_same (hp : Chunked k.page p)
    (h : s.heap.begin = p.state.heap.begin ∧ s.heap.endPtr = p.state.heap.endPtr ∧
      s.heap.size = p.state.heap.size) : Chunked k.page { p with state := s } := by
  obtain ⟨hbegin, hend, hsize⟩ := h
  refine ⟨?_, ?_, ?_⟩
  · rw [hbegin]
    exact hp.aligned
  · rw [hbegin, hend, hsize]
    exact hp.chunk
  · rw [hbegin, hsize]
    exact hp.bound

theorem Exact.of_same (hp : Exact k.page p)
    (h : s.heap.begin = p.state.heap.begin ∧ s.heap.endPtr = p.state.heap.endPtr ∧
      s.heap.size = p.state.heap.size) : Exact k.page { p with state := s } := by
  obtain ⟨hbegin, hend, -⟩ := h
  rw [Exact, hbegin, hend]
  exact hp

theorem Step.chunked (hk : k.Lawful) (hp : Chunked k.page p) (h : Step k ok p p') :
    Chunked k.page p' := by
  cases h with
  | program hheap => exact hp.of_same ⟨by rw [hheap], by rw [hheap], by rw [hheap]⟩
  | allocate halloc => exact hp.of_same (gcAllocOnExistingHeap_chunk halloc)
  | collect _ hcollect => exact collectMapped_chunked hk hcollect

theorem Step.exact (hk : k.Lawful) (hp : Chunked k.page p) (hexact : Exact k.page p)
    (h : Step k (Small k.page) p p') : Exact k.page p' := by
  cases h with
  | program hheap => exact hexact.of_same ⟨by rw [hheap], by rw [hheap], by rw [hheap]⟩
  | allocate halloc => exact hexact.of_same (gcAllocOnExistingHeap_chunk halloc)
  | collect hsmall hcollect => exact collectMapped_exact hk hp hexact hsmall hcollect

/-- A step that leaves no page behind has unmapped a small chunk, if any. -/
theorem Step.small (hk : k.Lawful) (hp : Chunked k.page p) (hexact : Exact k.page p)
    (hexact' : Exact k.page p') (hsize : 8 * p.state.heap.size < 2 ^ 64) (h : Step k ok p p') :
    Step k (Small k.page) p p' := by
  cases h with
  | program hheap => exact .program hheap
  | allocate halloc => exact .allocate halloc
  | collect _ hcollect =>
    refine .collect ?_ hcollect
    by_contra hsmall
    exact collectMapped_leaks hk hp hexact hsmall hsize hcollect hexact'

theorem run_chunked (hk : k.Lawful) (hp : Chunked k.page p) (hrun : (p :: ps).IsChain (Step k ok)) :
    ∀ p' ∈ p :: ps, Chunked k.page p' := by
  induction ps generalizing p with
  | nil => simpa using hp
  | cons p₁ ps ih =>
    obtain ⟨hstep, hrest⟩ := List.isChain_cons_cons.1 hrun
    exact List.forall_mem_cons.2 ⟨hp, ih (hstep.chunked hk hp) hrest⟩

theorem run_exact (hk : k.Lawful) (hp : Chunked k.page p) (hexact : Exact k.page p)
    (hrun : (p :: ps).IsChain (Step k (Small k.page))) : ∀ p' ∈ p :: ps, Exact k.page p' := by
  induction ps generalizing p with
  | nil => simpa using hexact
  | cons p₁ ps ih =>
    obtain ⟨hstep, hrest⟩ := List.isChain_cons_cons.1 hrun
    exact List.forall_mem_cons.2 ⟨hexact, ih (hstep.chunked hk hp) (hstep.exact hk hp hexact) hrest⟩

theorem run_small (hk : k.Lawful) (hp : Chunked k.page p) (hrun : (p :: ps).IsChain (Step k ok))
    (hexact : ∀ p' ∈ p :: ps, Exact k.page p')
    (hsize : ∀ p' ∈ p :: ps, 8 * p'.state.heap.size < 2 ^ 64) :
    (p :: ps).IsChain (Step k (Small k.page)) := by
  induction ps generalizing p with
  | nil => exact List.isChain_singleton p
  | cons p₁ ps ih =>
    obtain ⟨hstep, hrest⟩ := List.isChain_cons_cons.1 hrun
    obtain ⟨hexact₀, hexact₁⟩ := List.forall_mem_cons.1 hexact
    obtain ⟨hsize₀, hsize₁⟩ := List.forall_mem_cons.1 hsize
    exact List.isChain_cons_cons.2
      ⟨hstep.small hk hp hexact₀ (hexact₁ p₁ List.mem_cons_self) hsize₀,
        ih (hstep.chunked hk hp) hrest hexact₁ hsize₁⟩

/-- An allocation is made of such steps. -/
theorem alloc_steps {size ptr : ℕ} (h : alloc (k.mmap p.pages) p.state size = some (s', ptr)) :
    ∃ pages, Relation.ReflTransGen (Step k fun _ => True) p { state := s', pages := pages } := by
  rw [alloc] at h
  rcases hroom : gcAllocOnExistingHeap p.state (bytesToWords size) with _ | ⟨s₁, ptr₁⟩
  · rw [hroom] at h
    obtain ⟨s₁, hcollect, halloc⟩ := Option.bind_eq_some_iff.1 h
    obtain ⟨s₂, hmark, hcompact⟩ := Option.bind_eq_some_iff.1 hcollect
    have hmapped : ∃ pages, collectMapped k p (bytesToWords size) =
        some { state := s₁, pages := pages } := by
      simp only [collectMapped, hmark, compactPhaseMapped, hcompact, Option.bind_eq_bind,
        Option.bind_some, Option.pure_def]
      exact ⟨_, rfl⟩
    obtain ⟨pages, hmapped⟩ := hmapped
    exact ⟨pages, .tail (.single (.collect trivial hmapped)) (.allocate halloc)⟩
  · rw [hroom] at h
    obtain ⟨rfl, rfl⟩ := Prod.mk.inj (Option.some.inj h)
    exact ⟨p.pages, .single (.allocate hroom)⟩

/-- **The address space of the heap**: in a run from `__init` in which every chunk that is unmapped is
small, the mapped pages are always those of the current chunk, and none remains after `__shutdown`;
and where sizes in bytes do not overflow, every other run leaves pages behind. -/
theorem leakFree_iff (hk : k.Lawful) (hinit : init k s = some p)
    (hrun : (p :: ps).IsChain (Step k fun _ => True)) :
    (Releases k (p :: ps) → LeakFree k.page (p :: ps)) ∧
      ((∀ p' ∈ p :: ps, 8 * p'.state.heap.size < 2 ^ 64) →
        (LeakFree k.page (p :: ps) ↔ Releases k (p :: ps))) := by
  obtain ⟨hp, hexact⟩ := init_spec hk hinit
  have hchunked := run_chunked hk hp hrun
  have henough : Releases k (p :: ps) → LeakFree k.page (p :: ps) := by
    rintro ⟨hsteps, hlast⟩
    have hall := run_exact hk hp hexact hsteps
    refine ⟨hall, fun p' hp' => ?_⟩
    have hmem := List.mem_of_getLast? hp'
    exact shutdown_of_small hk (hchunked p' hmem) (hall p' hmem) (hlast p' hp')
  refine ⟨henough, fun hsize => ⟨fun h => ?_, henough⟩⟩
  obtain ⟨hall, hshutdown⟩ := h
  refine ⟨run_small hk hp hrun hall hsize, fun p' hp' => ?_⟩
  have hmem := List.mem_of_getLast? hp'
  exact small_of_shutdown hk (hchunked p' hmem) (hall p' hmem) (hsize p' hmem) (hshutdown p' hp')

end Run

/-! ### A heap that grows -/

/-- A kernel that gives the pages one after the other. -/
def nextPages : Kernel where
  page := 4096
  mmap used n :=
    if 4096 * (used.sup id + 1) + n < 2 ^ 64 then some (4096 * (used.sup id + 1)) else none

theorem nextPages_lawful : nextPages.Lawful := by
  have hplace : ∀ {used n a}, nextPages.mmap used n = some a →
      a = 4096 * (used.sup id + 1) ∧ a + n < 2 ^ 64 := by
    intro used n a h
    obtain ⟨hbound, rfl⟩ := Option.ite_some_none_eq_some.1 h
    exact ⟨rfl, hbound⟩
  refine ⟨by decide, by decide, fun h => ?_, fun {used n a} h => ?_, fun h => (hplace h).2⟩
  · rw [(hplace h).1]
    exact Nat.mul_mod_right _ _
  · refine Finset.disjoint_left.2 fun q hq hused => ?_
    have hle : q ≤ used.sup id := Finset.le_sup (f := id) hused
    have hfirst : a / nextPages.page = used.sup id + 1 := by
      rw [(hplace h).1]
      exact Nat.mul_div_cancel_left _ (by decide)
    rw [region, hfirst, Finset.mem_Ico] at hq
    omega

def emptyState : State where
  mem _ := 0
  heap := ⟨0, 0, 0, 0⟩
  gcStackTop := 0
  gcStackBottom := 0
  extraRoots := []
  startCustomData := 0
  stopCustomData := 0

/-- After `__init`. -/
def startProcess : Process where
  state := { emptyState with
    mem := emptyState.mem.clear 4096 64
    heap := ⟨4096, 4608, 4096, 64⟩ }
  pages := {1}

theorem init_nextPages : init nextPages emptyState = some startProcess := by
  rfl

/-- After a string of 7999 bytes has been made, to which nothing refers. -/
def stringProcess : Process where
  state := { emptyState with
    mem := fun a => if a = 8192 then 63993 else 0
    heap := ⟨8192, 16208, 16208, 1002⟩ }
  pages := {2, 3}

/-- The mapped pages and the chunk. -/
def Process.view (p : Process) : Finset ℕ × ℕ × ℕ × ℕ × ℕ :=
  (p.pages, p.state.heap.begin, p.state.heap.endPtr, p.state.heap.current, p.state.heap.size)

theorem leakFree_iff_start : ∃ p, collectMapped nextPages startProcess 100 = some p ∧
    p.state.heap.size = 100 ∧ LeakFree 4096 [startProcess, p] := by
  have hview : (collectMapped nextPages startProcess 100).map Process.view =
      some ({2}, 8192, 8992, 8192, 100) := by decide
  obtain ⟨p, hcollect, hp⟩ := Option.map_eq_some_iff.1 hview
  simp only [Process.view, Prod.mk.injEq] at hp
  obtain ⟨-, -, -, -, hsize⟩ := hp
  have hstart : startProcess.state.heap.size = 64 := rfl
  have hrun : [startProcess, p].IsChain (Step nextPages fun _ => True) :=
    List.isChain_pair.2 (.collect trivial hcollect)
  have hiff := (leakFree_iff nextPages_lawful init_nextPages hrun).2 fun p' hp' => by
    rcases List.mem_pair.1 hp' with rfl | rfl
    · rw [hstart]
      omega
    · rw [hsize]
      omega
  refine ⟨p, hcollect, hsize, hiff.2 ⟨List.isChain_pair.2 (.collect ?_ hcollect), ?_⟩⟩
  · exact (by decide : 8 * 64 ≤ 4096)
  · intro p' hp'
    obtain rfl : p = p' := Option.some.inj hp'
    rw [Small, hsize]
    decide

/-- The second string of this size is allocated in a process that keeps a page of the chunk of the
first. -/
theorem not_leakFree : ¬ ∀ k : Kernel, k.Lawful → ∀ s p ps, init k s = some p →
    (p :: ps).IsChain (Step k fun _ => True) → LeakFree k.page (p :: ps) := by
  intro h
  have hview₁ : (collectMapped nextPages startProcess 1002).map Process.view =
      some ({2, 3}, 8192, 16208, 8192, 1002) := by decide
  have hview₂ : (collectMapped nextPages stringProcess 1002).map Process.view =
      some ({3, 4, 5}, 16384, 24400, 16384, 1002) := by decide
  obtain ⟨⟨s₁, pages₁⟩, hcollect₁, hp₁⟩ := Option.map_eq_some_iff.1 hview₁
  obtain ⟨p₂, hcollect₂, hp₂⟩ := Option.map_eq_some_iff.1 hview₂
  simp only [Process.view, Prod.mk.injEq] at hp₁ hp₂
  obtain ⟨rfl, hbegin₁, hend₁, hcurrent₁, hsize₁⟩ := hp₁
  obtain ⟨hpages₂, hbegin₂, hend₂, -, -⟩ := hp₂
  have halloc : gcAllocOnExistingHeap s₁ 1002 = some ({ s₁ with
      mem := s₁.mem.clear 8192 1002
      heap := ⟨8192, 16208, 16208, 1002⟩ }, 8192) := by
    obtain ⟨m, ⟨begin, endPtr, current, size⟩, top, bottom, roots, start, stop⟩ := s₁
    dsimp only at hbegin₁ hend₁ hcurrent₁ hsize₁
    subst hbegin₁ hend₁ hcurrent₁ hsize₁
    have hroom : 8192 + 8 * 1002 = 16208 := by omega
    simp only [gcAllocOnExistingHeap, hroom, le_refl, if_true]
  have hrun : [startProcess, _, _, stringProcess, p₂].IsChain (Step nextPages fun _ => True) :=
    .cons_cons (.collect trivial hcollect₁) <| .cons_cons (.allocate halloc) <|
      .cons_cons (.program rfl) <| List.isChain_pair.2 (.collect trivial hcollect₂)
  have hexact := (h nextPages nextPages_lawful emptyState _ _ init_nextPages hrun).1 p₂ (by simp)
  rw [Exact, hpages₂, hbegin₂, hend₂] at hexact
  exact absurd hexact (by decide)

end LamaRv.Gc
