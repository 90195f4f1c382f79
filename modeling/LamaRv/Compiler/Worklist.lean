import LamaRv.Compiler.Flow

/-!
# Runs of the worklist

The two loops of `emit` as one machine that emits one instruction at a time, with a log of the
calls of `emit_code`, the newest first.  Between two rounds of the outer loop the list of the
instructions still to emit is empty.

* `Run`: the states of this machine;
* `reaches_iff`: between rounds they are the states of the outer loop;
* `Round.wellFounded`: the outer loop ends, whatever entries it takes.
-/

namespace LamaRv

open Rv64 CodeBuffer Compiler

/-- One call of `emit_code`. -/
structure Emission where
  offset : ℕ
  inst : Instruction
  before : Compiler
  after : Compiler

/-- The states of the two loops, with the calls so far and the instructions still to emit in the
current round. -/
inductive Run (m : Module) : List Emission → List (ℕ × Instruction) → Compiler → Prop
  | start {c} : start m = .ok c → Run m [] [] c
  | stale {log c offset height} : Run m log [] c → c.todo.lookup offset = some height →
      (takeEntry c offset height).shouldEmit offset = .ok false →
      Run m log [] (takeEntry c offset height)
  | take {log c offset height} : Run m log [] c → c.todo.lookup offset = some height →
      (takeEntry c offset height).shouldEmit offset = .ok true →
      Run m log (m.instructions.suffix offset) (takeEntry c offset height)
  | last {log offset inst rest c c₁ c₂} : Run m log ((offset, inst) :: rest) c →
      openInst c offset inst = .ok c₁ → inst.emitCode c₁ = .ok c₂ → inst.isTerminator = true →
      Run m (⟨offset, inst, c₁, c₂⟩ :: log) [] (c₂.emit (emitComment "============"))
  | next {log offset inst rest c c₁ c₂} : Run m log ((offset, inst) :: rest) c →
      openInst c offset inst = .ok c₁ → inst.emitCode c₁ = .ok c₂ → inst.isTerminator = false →
      Run m (⟨offset, inst, c₁, c₂⟩ :: log) rest c₂

/-- `emit` ends in the state `c` with no failed check, after the calls in `log`. -/
def Completes (m : Module) (log : List Emission) (c : Compiler) : Prop :=
  Run m log [] c ∧ c.todo = ∅

/-! ### One call of `emit_code` -/

/-- The lines before the code of an instruction: the label of an offset is emitted once. -/
structure Opened (c : Compiler) (o : ℕ) (c₁ : Compiler) : Prop where
  st : c₁.st = c.st
  frame : c₁.currentFrame = c.currentFrame
  todo : c₁.todo = c.todo
  globalsCount : c₁.globalsCount = c.globalsCount
  done : (c.done.lookup o = none ∧ c₁.done = c.done.insert o c.st.top ∧
      ∃ x, c₁.cb = c.cb ++ [.label (labelForIp o), .comment x]) ∨
    (c.done.lookup o = some c.st.top ∧ c₁.done = c.done ∧
      ∃ x y, c₁.cb = c.cb ++ [.comment x, .comment y])

theorem openInst_ok {c c₁ : Compiler} {o : ℕ} {i : Instruction} (h : openInst c o i = .ok c₁) :
    Opened c o c₁ := by
  simp only [openInst, instBegin, bind_ok, check_ok, return_ok] at h
  obtain ⟨c₂, ⟨-, heq, rfl⟩, text, -, rfl⟩ := h
  cases hl : c.done.lookup o with
  | none =>
    simp only [emplace_of_none _ hl] at heq ⊢
    exact ⟨rfl, rfl, rfl, rfl, .inl ⟨hl, rfl, "-> " ++ text, by simp [emit, emitLabel, emitComment]⟩⟩
  | some w =>
    simp only [emplace_of_some _ hl] at heq ⊢
    subst heq
    exact ⟨rfl, rfl, rfl, rfl, .inr ⟨hl, rfl, labelForIp o, "-> " ++ text,
      by simp [emit, emitComment]⟩⟩

namespace Opened

variable {c c₁ : Compiler} {o : ℕ}

theorem done_self (h : Opened c o c₁) : c₁.done.lookup o = some c.st.top := by
  rcases h.done with ⟨-, hd, -⟩ | ⟨hl, hd, -⟩
  · rw [hd, AList.lookup_insert]
  · rw [hd, hl]

theorem done_of_ne (h : Opened c o c₁) {k : ℕ} (hk : k ≠ o) :
    c₁.done.lookup k = c.done.lookup k := by
  rcases h.done with ⟨-, hd, -⟩ | ⟨-, hd, -⟩
  · rw [hd, AList.lookup_insert_ne hk]
  · rw [hd]

/-- A height once recorded stays. -/
theorem done_mono (h : Opened c o c₁) {k v : ℕ} (hk : c.done.lookup k = some v) :
    c₁.done.lookup k = some v := by
  by_cases hko : k = o
  · subst hko
    rw [h.done_self]
    rcases h.done with ⟨hl, -⟩ | ⟨hl, -⟩
    · rw [hl] at hk
      cases hk
    · rw [← hl, hk]
  · rw [h.done_of_ne hko, hk]

end Opened

/-- `should_emit` says yes where nothing has been emitted. -/
theorem shouldEmit_true {c : Compiler} {o : ℕ} (h : c.shouldEmit o = .ok true) :
    c.done.lookup o = none := by
  unfold shouldEmit at h
  cases hd : c.done.lookup o with
  | none => rfl
  | some w =>
    simp only [hd, bind_ok, return_ok] at h
    obtain ⟨-, -, h⟩ := h
    cases h

/-- `should_emit` says no where something has been emitted at the same height. -/
theorem shouldEmit_false {c : Compiler} {o : ℕ} (h : c.shouldEmit o = .ok false) :
    c.done.lookup o = some c.st.top := by
  unfold shouldEmit at h
  cases hd : c.done.lookup o with
  | none => simp [hd] at h
  | some w =>
    simp only [hd, bind_ok, check_ok, return_ok] at h
    obtain ⟨-, rfl, -⟩ := h
    rfl

/-! ### The start -/

/-- The labels of the data section. -/
def Module.headerLabels (m : Module) : List String :=
  "globals" :: "fname" :: (List.range m.strings.length).map (fun i : ℕ => "string_" ++ formatInt i)

theorem addPublics_ok {publics : List (String × ℕ)} {c c' : Compiler}
    (h : publics.foldlM (fun c s => c.addJumpTarget s.2 0) c = .ok c') :
    c'.currentFrame = c.currentFrame ∧ Grows c c' [] [] (publics.map fun s => (s.2, 0)) := by
  induction publics generalizing c with
  | nil =>
    cases h
    exact ⟨rfl, Grows.of_eq rfl rfl rfl rfl⟩
  | cons s publics ih =>
    simp only [List.foldlM_cons, bind_ok] at h
    obtain ⟨c₁, h₁, h⟩ := h
    obtain ⟨-, hf, -, hg⟩ := addJumpTarget_ok h₁
    obtain ⟨hf', hg'⟩ := ih h
    exact ⟨hf'.trans hf, hg.trans hg'⟩

theorem labelsOf_strings (strs : List String) (k : ℕ) :
    labelsOf ((strs.zipIdx k).flatMap fun p => [.label ("string_" ++ formatInt p.2), .asciz p.1]) =
      (List.range' k strs.length).map (fun i : ℕ => "string_" ++ formatInt i) ∧
    jumpsOf ((strs.zipIdx k).flatMap fun p => [.label ("string_" ++ formatInt p.2), .asciz p.1]) =
      [] := by
  induction strs generalizing k with
  | nil => exact ⟨rfl, rfl⟩
  | cons s strs ih =>
    simp only [List.zipIdx_cons, List.flatMap_cons, labelsOf_append, jumpsOf_append, (ih (k + 1)).1,
      (ih (k + 1)).2, List.length_cons, List.range'_succ]
    exact ⟨rfl, rfl⟩

/-- The state before the outer loop. -/
theorem start_ok {m : Module} {c : Compiler} (h : start m = .ok c) :
    c.done = ∅ ∧ c.currentFrame = none ∧ c.globalsCount = m.globalAreaSize ∧
      labelsOf c.cb = m.headerLabels ∧ jumpsOf c.cb = [] ∧
      (∀ s ∈ m.publicSymbols, c.todo.lookup s.2 = some 0) ∧
      ∀ k v, c.todo.lookup k = some v → ∃ name, (name, k) ∈ m.publicSymbols := by
  simp only [start, bind_ok, check_ok] at h
  obtain ⟨-, -, h⟩ := h
  obtain ⟨hf, hg⟩ := addPublics_ok h
  obtain ⟨T, hT, hlabels, hjumps⟩ := hg.text
  have hdone : c.done = ∅ := hg.done
  refine ⟨hdone, hf, hg.globalsCount, ?_, ?_, ?_, ?_⟩
  · obtain ⟨hs, -⟩ := labelsOf_strings m.strings 0
    rw [hT, labelsOf_append, hlabels, List.append_nil]
    simp only [header, emit, labelsOf_append, hs, Module.headerLabels, List.range_eq_range']
    simp [labelsOf]
  · obtain ⟨-, hs⟩ := labelsOf_strings m.strings 0
    rw [hT, jumpsOf_append, hjumps, List.append_nil]
    simp only [header, emit, jumpsOf_append, hs]
    simp [jumpsOf]
  · intro s hs
    rcases hg.noted (s.2, 0) (List.mem_map.2 ⟨s, hs, rfl⟩) with hd | ht
    · rw [hdone, AList.lookup_empty] at hd
      cases hd
    · exact ht
  · intro k v hk
    rcases hg.gains k v hk with ht | hm
    · rw [show (header _).todo = ∅ from rfl, AList.lookup_empty] at ht
      cases ht
    · obtain ⟨s, hs, heq⟩ := List.mem_map.1 hm
      cases heq
      exact ⟨s.1, hs⟩

/-! ### The machine and the loops -/

section

variable {m : Module}

/-- The rest of an inner loop that ends is run by the machine. -/
theorem Run.finishChunk {es : List (ℕ × Instruction)} {log : List Emission} {c c' : Compiler}
    (h : Run m log es c) (hc : emitChunk es c = .ok c') : ∃ log', Run m log' [] c' := by
  induction es generalizing log c with
  | nil =>
    cases hc
    exact ⟨log, h⟩
  | cons e rest ih =>
    obtain ⟨o, i⟩ := e
    simp only [emitChunk, bind_ok] at hc
    obtain ⟨c₁, hopen, c₂, hcode, hc⟩ := hc
    cases ht : i.isTerminator with
    | true =>
      simp only [ht, if_true, return_ok] at hc
      exact hc ▸ ⟨_, h.last hopen hcode ht⟩
    | false =>
      simp only [ht, Bool.false_eq_true, if_false] at hc
      exact ih (h.next hopen hcode ht) hc

/-- In the middle of a round the machine has the rest of an inner loop before it. -/
theorem Run.inChunk {es : List (ℕ × Instruction)} {log : List Emission} {c : Compiler}
    (h : Run m log es c) : (es = [] ∧ Reaches m c) ∨ ∃ c₀ o height, Reaches m c₀ ∧
      c₀.todo.lookup o = some height ∧ (takeEntry c₀ o height).shouldEmit o = .ok true ∧
      emitChunk (m.instructions.suffix o) (takeEntry c₀ o height) = emitChunk es c := by
  -- a state between rounds is reached by the outer loop
  have between : ∀ {c}, ((([] : List (ℕ × Instruction)) = [] ∧ Reaches m c) ∨ ∃ c₀ o height,
      Reaches m c₀ ∧ c₀.todo.lookup o = some height ∧
      (takeEntry c₀ o height).shouldEmit o = .ok true ∧
      emitChunk (m.instructions.suffix o) (takeEntry c₀ o height) = emitChunk [] c) →
      Reaches m c := by
    rintro c (⟨-, h⟩ | ⟨c₀, o, height, ⟨s, hs, hr⟩, hl, hs', he⟩)
    · exact h
    · exact ⟨s, hs, hr.tail (.chunk hl hs' he)⟩
  induction h with
  | start h => exact .inl ⟨rfl, _, h, .refl⟩
  | stale _ hl hs ih =>
    obtain ⟨s, hs', hr⟩ := between ih
    exact .inl ⟨rfl, s, hs', hr.tail (.stale hl hs)⟩
  | take _ hl hs ih => exact .inr ⟨_, _, _, between ih, hl, hs, rfl⟩
  | last _ hopen hcode ht ih =>
    rcases ih with ⟨h, -⟩ | ⟨c₀, o, height, hr, hl, hs, he⟩
    · cases h
    · refine .inr ⟨c₀, o, height, hr, hl, hs, he.trans ?_⟩
      simp [emitChunk, hopen, hcode, ht, bind, Except.bind, pure, Except.pure]
  | next _ hopen hcode ht ih =>
    rcases ih with ⟨h, -⟩ | ⟨c₀, o, height, hr, hl, hs, he⟩
    · cases h
    · refine .inr ⟨c₀, o, height, hr, hl, hs, he.trans ?_⟩
      simp [emitChunk, hopen, hcode, ht, bind, Except.bind]

/-- The machine between rounds is the outer loop. -/
theorem reaches_iff {c : Compiler} : Reaches m c ↔ ∃ log, Run m log [] c := by
  constructor
  · rintro ⟨s, hs, hr⟩
    induction hr with
    | refl => exact ⟨[], .start hs⟩
    | tail _ hround ih =>
      obtain ⟨log, hrun⟩ := ih
      cases hround with
      | stale hl hs => exact ⟨log, hrun.stale hl hs⟩
      | chunk hl hs he => exact (hrun.take hl hs).finishChunk he
  · rintro ⟨log, hrun⟩
    rcases hrun.inChunk with ⟨-, h⟩ | ⟨c₀, o, height, ⟨s, hs, hr⟩, hl, hs', he⟩
    · exact h
    · exact ⟨s, hs, hr.tail (.chunk hl hs' he)⟩

theorem emits_iff {c : Compiler} : Emits m c ↔ ∃ log, Completes m log c := by
  unfold Emits Completes
  rw [reaches_iff, exists_and_right]

/-! ### Termination -/

/-- What an inner loop does to `done`. -/
theorem emitChunk_done {es : List (ℕ × Instruction)} {c c' : Compiler}
    (h : emitChunk es c = .ok c') :
    (∀ k v, c.done.lookup k = some v → c'.done.lookup k = some v) ∧
      ∀ p ∈ es.head?, c'.done.lookup p.1 = some c.st.top := by
  induction es generalizing c with
  | nil =>
    cases h
    exact ⟨fun _ _ h => h, by simp⟩
  | cons e rest ih =>
    obtain ⟨o, i⟩ := e
    simp only [emitChunk, bind_ok] at h
    obtain ⟨c₁, hopen, c₂, hcode, h⟩ := h
    have hop := openInst_ok hopen
    have hdone := (emitCode_ok hcode).grows.done
    have hrest : ∀ k v, c₂.done.lookup k = some v → c'.done.lookup k = some v := by
      split_ifs at h with ht
      · cases h
        exact fun _ _ h => h
      · exact (ih h).1
    refine ⟨fun k v hk => hrest k v ?_, ?_⟩
    · rw [hdone]
      exact hop.done_mono hk
    · rintro p ⟨⟩
      refine hrest _ _ ?_
      rw [hdone]
      exact hop.done_self

/-- How many instructions have not been emitted. -/
def undone (m : Module) (c : Compiler) : ℕ :=
  (m.instructions.entries.filter (fun p => c.done.lookup p.1 = none)).length

/-- The measure of the outer loop: first the instructions not emitted, then the entries left. -/
def measure (m : Module) (c : Compiler) : ℕ ×ₗ ℕ :=
  toLex (undone m c, c.todo.entries.length)

theorem todo_erase_length {t : OffsetMap} {o height : ℕ} (h : t.lookup o = some height) :
    (t.erase o).entries.length < t.entries.length := by
  have hmem : o ∈ t.keys := AList.mem_keys.1 (AList.lookup_isSome.1 (by rw [h]; rfl))
  have hkeys := congrArg List.length (AList.keys_erase o t)
  rw [List.length_erase_of_mem hmem] at hkeys
  have hpos := List.length_pos_of_mem hmem
  simp only [AList.keys, List.keys, List.length_map] at hkeys hpos
  omega

theorem Round.measure_lt {c c' : Compiler} (h : Round m c c') : measure m c' < measure m c := by
  cases h with
  | stale hl hs =>
    exact Prod.Lex.toLex_lt_toLex.2 (.inr ⟨rfl, todo_erase_length hl⟩)
  | @chunk o height _ hl hs he =>
    obtain ⟨hmono, hhead⟩ := emitChunk_done he
    have hnew : c.done.lookup o = none :=
      shouldEmit_true (c := takeEntry c o height) hs
    cases hsuf : m.instructions.suffix o with
    | nil =>
      rw [hsuf] at he
      cases he
      exact Prod.Lex.toLex_lt_toLex.2 (.inr ⟨rfl, todo_erase_length hl⟩)
    | cons e rest =>
      obtain ⟨o', i⟩ := e
      obtain ⟨rfl, hat⟩ := InstMap.at?_of_suffix_eq hsuf
      refine Prod.Lex.toLex_lt_toLex.2 (.inl ?_)
      have hsub : (m.instructions.entries.filter (fun p => c'.done.lookup p.1 = none)).Sublist
          (m.instructions.entries.filter (fun p => c.done.lookup p.1 = none)) := by
        refine List.monotone_filter_right _ fun p hp => ?_
        simp only [decide_eq_true_eq] at hp ⊢
        cases hd : c.done.lookup p.1 with
        | none => rfl
        | some w =>
          rw [hmono _ _ hd] at hp
          cases hp
      refine lt_of_le_of_ne hsub.length_le fun heq => ?_
      have hmem : (o', i) ∈ m.instructions.entries.filter (fun p => c.done.lookup p.1 = none) :=
        List.mem_filter.2 ⟨InstMap.mem_of_at? hat, by simpa using hnew⟩
      rw [← hsub.eq_of_length heq] at hmem
      have hnone := (List.mem_filter.1 hmem).2
      have hsome := hhead (o', i) (by rw [hsuf]; rfl)
      simp only [decide_eq_true_eq] at hnone
      rw [hnone] at hsome
      cases hsome

/-- The outer loop ends, whatever entries it takes. -/
theorem Round.wellFounded (m : Module) : WellFounded (fun c' c => Round m c c') :=
  Subrelation.wf (fun h => h.measure_lt) (InvImage.wf (measure m) wellFounded_lt)

end

end LamaRv
