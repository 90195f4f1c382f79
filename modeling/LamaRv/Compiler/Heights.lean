import LamaRv.Compiler.Worklist

/-!
# Heights of the symbolic stack

The emitter goes over each instruction once and checks the heights it meets against the two maps.
A height that is promised at an offset (recorded in `done`, noted in `todo`, or that of the
instruction about to be emitted) stays promised until it is recorded, so all the edges of the
control flow agree when the worklist is empty.

* `Promised`, `Promised.step`: a promise survives every step of the worklist;
* `HeightInv`: the invariant of a run;
* `heights_agree`: the analysis is sound.
-/

namespace LamaRv

open Rv64 CodeBuffer Compiler

variable {m : Module}

/-- The height at `t` is recorded, noted, or that of the instruction to emit next. -/
def Promised (es : List (ℕ × Instruction)) (c : Compiler) (t height : ℕ) : Prop :=
  c.done.lookup t = some height ∨ c.todo.lookup t = some height ∨
    ∃ i rest, es = (t, i) :: rest ∧ c.st.top = height

section Promised

variable {c c₁ c₂ : Compiler} {t v o height : ℕ} {i j : Instruction}
  {rest : List (ℕ × Instruction)}

theorem Promised.of_maps {es : List (ℕ × Instruction)}
    (h : c₂.done.lookup t = some v ∨ c₂.todo.lookup t = some v) : Promised es c₂ t v :=
  h.elim .inl fun h => .inr (.inl h)

/-- A call of `emit_code` keeps a promise in the maps. -/
theorem Promised.emit (h : Promised ((o, i) :: rest) c t v) (hop : Opened c o c₁)
    (heff : i.Effect c₁ c₂) : c₂.done.lookup t = some v ∨ c₂.todo.lookup t = some v := by
  rcases h with h | h | ⟨_, _, heq, h⟩
  · exact .inl (by rw [heff.grows.done]; exact hop.done_mono h)
  · exact .inr (heff.grows.keeps _ _ (by rw [hop.todo]; exact h))
  · cases heq
    exact .inl (by rw [heff.grows.done, hop.done_self, h])

/-- Dropping a stale entry keeps a promise. -/
theorem Promised.stale (h : Promised [] c t v) (hl : c.todo.lookup o = some height)
    (hs : (takeEntry c o height).shouldEmit o = .ok false) :
    Promised [] (takeEntry c o height) t v := by
  rcases h with h | h | ⟨_, _, heq, -⟩
  · exact .inl h
  · by_cases hto : t = o
    · subst hto
      have hv : height = v := by
        rw [hl] at h
        exact Option.some.inj h
      exact .inl (hv ▸ shouldEmit_false hs)
    · exact .inr (.inl ((AList.lookup_erase_ne hto).trans h))
  · cases heq

/-- Starting a round keeps a promise at an offset of the map. -/
theorem Promised.take (h : Promised [] c t v) (hl : c.todo.lookup o = some height)
    (ht : m.instructions.at? t = some j) :
    Promised (m.instructions.suffix o) (takeEntry c o height) t v := by
  rcases h with h | h | ⟨_, _, heq, -⟩
  · exact .inl h
  · by_cases hto : t = o
    · subst hto
      obtain ⟨rest, hrest⟩ := InstMap.suffix_of_at? ht
      rw [hl] at h
      exact .inr (.inr ⟨j, rest, hrest, Option.some.inj h⟩)
    · exact .inr (.inl ((AList.lookup_erase_ne hto).trans h))
  · cases heq

end Promised

/-- What holds of the heights all through a run. -/
structure HeightInv (m : Module) (log : List Emission) (es : List (ℕ × Instruction))
    (c : Compiler) : Prop where
  suffix : es <:+ m.instructions.entries
  inst : ∀ e ∈ log, m.instructions.at? e.offset = some e.inst
  effect : ∀ e ∈ log, e.inst.Effect e.before e.after
  before : ∀ e ∈ log, c.done.lookup e.offset = some e.before.st.top
  publics : ∀ s ∈ m.publicSymbols, (∃ j, m.instructions.at? s.2 = some j) → Promised es c s.2 0
  targets : ∀ e ∈ log, ∀ p ∈ e.inst.targets e.after.st.top,
    (∃ j, m.instructions.at? p.1 = some j) → Promised es c p.1 p.2
  next : ∀ e ∈ log, e.inst.isTerminator = false → ∀ n, m.instructions.next? e.offset = some n →
    Promised es c n e.after.st.top

section Emit

variable {log : List Emission} {o : ℕ} {i : Instruction} {rest es : List (ℕ × Instruction)}
  {c c₁ c₂ c₃ : Compiler}

/-- A call of `emit_code` keeps the invariant; `c₃` is `c₂` up to its text, and `es` is what
remains of the round. -/
theorem HeightInv.emit (h : HeightInv m log ((o, i) :: rest) c) (hop : Opened c o c₁)
    (heff : i.Effect c₁ c₂) (hsuf : es <:+ m.instructions.entries)
    (hdone : c₃.done = c₂.done) (htodo : c₃.todo = c₂.todo)
    (hnext : i.isTerminator = false → es = rest ∧ c₃ = c₂) :
    HeightInv m (⟨o, i, c₁, c₂⟩ :: log) es c₃ := by
  have hat : m.instructions.at? o = some i := InstMap.at?_of_suffix h.suffix
  have keep : ∀ {t v}, Promised ((o, i) :: rest) c t v → Promised es c₃ t v := by
    intro t v hp
    refine Promised.of_maps ?_
    rw [hdone, htodo]
    exact hp.emit hop heff
  refine ⟨hsuf, ?_, ?_, ?_, fun s hs hj => keep (h.publics s hs hj), ?_, ?_⟩
  · rintro e (_ | ⟨_, he⟩)
    · exact hat
    · exact h.inst e he
  · rintro e (_ | ⟨_, he⟩)
    · exact heff
    · exact h.effect e he
  · rintro e (_ | ⟨_, he⟩)
    · rw [hdone, heff.grows.done, hop.done_self, hop.st]
    · rw [hdone, heff.grows.done]
      exact hop.done_mono (h.before e he)
  · rintro e (_ | ⟨_, he⟩) p hp hj
    · refine Promised.of_maps ?_
      rw [hdone, htodo]
      exact heff.grows.noted p hp
    · exact keep (h.targets e he p hp hj)
  · rintro e (_ | ⟨_, he⟩) ht n hn
    · obtain ⟨rfl, rfl⟩ := hnext ht
      have hrest := InstMap.next?_of_suffix h.suffix
      rw [hn] at hrest
      cases es with
      | nil => cases hrest
      | cons p rest' =>
        cases hrest
        exact .inr (.inr ⟨p.2, rest', rfl, rfl⟩)
    · exact keep (h.next e he ht n hn)

end Emit

theorem Run.heightInv {log : List Emission} {es : List (ℕ × Instruction)} {c : Compiler}
    (h : Run m log es c) : HeightInv m log es c := by
  induction h with
  | start h =>
    obtain ⟨-, -, -, -, -, htodo, -⟩ := start_ok h
    exact ⟨List.nil_suffix, by simp, by simp, by simp,
      fun s hs _ => .inr (.inl (htodo s hs)), by simp, by simp⟩
  | stale _ hl hs ih =>
    exact ⟨List.nil_suffix, ih.inst, ih.effect, ih.before,
      fun s hs' hj => (ih.publics s hs' hj).stale hl hs,
      fun e he p hp hj => (ih.targets e he p hp hj).stale hl hs,
      fun e he ht n hn => (ih.next e he ht n hn).stale hl hs⟩
  | take _ hl _ ih =>
    refine ⟨InstMap.suffix_isSuffix _ _, ih.inst, ih.effect, ih.before, ?_, ?_, ?_⟩
    · rintro s hs ⟨j, hj⟩
      exact (ih.publics s hs ⟨j, hj⟩).take hl hj
    · rintro e he p hp ⟨j, hj⟩
      exact (ih.targets e he p hp ⟨j, hj⟩).take hl hj
    · intro e he ht n hn
      obtain ⟨j, hj⟩ := InstMap.at?_of_next? hn
      exact (ih.next e he ht n hn).take hl hj
  | last _ hopen hcode ht ih =>
    exact ih.emit (openInst_ok hopen) (emitCode_ok hcode) List.nil_suffix rfl rfl
      (fun hf => absurd ht (by simp [hf]))
  | next _ hopen hcode ht ih =>
    exact ih.emit (openInst_ok hopen) (emitCode_ok hcode)
      ((List.suffix_cons _ _).trans ih.suffix) rfl rfl (fun _ => ⟨rfl, rfl⟩)

/-- When the worklist is empty a promise is in `done`. -/
theorem Completes.done_of_promised {log : List Emission} {c : Compiler} (h : Completes m log c)
    {t v : ℕ} (hp : Promised [] c t v) : c.done.lookup t = some v := by
  rcases hp with hp | hp | ⟨_, _, heq, -⟩
  · exact hp
  · rw [h.2, AList.lookup_empty] at hp
    cases hp
  · cases heq

section Completes

variable {log : List Emission} {c : Compiler} {e : Emission} {n t : ℕ}

theorem Completes.done_succ (h : Completes m log c) (he : e ∈ log) (hsucc : m.Succ e.offset n)
    (hj : ∃ j, m.instructions.at? n = some j) : c.done.lookup n = some e.after.st.top := by
  have inv := h.1.heightInv
  have hat := inv.inst e he
  cases hsucc with
  | fall hat' ht hn =>
    rw [hat] at hat'
    cases hat'
    exact h.done_of_promised (inv.next e he ht n hn)
  | jump hat' ht =>
    rw [hat] at hat'
    cases hat'
    refine h.done_of_promised (inv.targets e he (n, e.after.st.top) ?_ hj)
    simp [Instruction.targets, ht]

theorem Completes.done_call (h : Completes m log c) (he : e ∈ log)
    (hcall : e.inst.callTarget = some t) (hj : ∃ j, m.instructions.at? t = some j) :
    c.done.lookup t = some 0 := by
  refine h.done_of_promised (h.1.heightInv.targets e he (t, 0) ?_ hj)
  simp [Instruction.targets, hcall]

theorem Completes.done_public (h : Completes m log c) {s : String × ℕ} (hs : s ∈ m.publicSymbols)
    (hj : ∃ j, m.instructions.at? s.2 = some j) : c.done.lookup s.2 = some 0 :=
  h.done_of_promised (h.1.heightInv.publics s hs hj)

end Completes

/-- **The heights agree.**  When the worklist ends without a failed check: every emission of an
instruction is at the recorded height of its offset; the height after it is the recorded height
of each of its successors in the map; and the emitted calls' targets and the public symbols that
are in the map are recorded with height zero. -/
theorem heights_agree {log : List Emission} {c : Compiler} (h : Completes m log c) :
    (∀ e ∈ log, c.done.lookup e.offset = some e.before.st.top) ∧
    (∀ e ∈ log, ∀ n, m.Succ e.offset n → (∃ j, m.instructions.at? n = some j) →
      c.done.lookup n = some e.after.st.top) ∧
    (∀ e ∈ log, ∀ t argc, e.inst = .call (.inr t) argc → (∃ j, m.instructions.at? t = some j) →
      c.done.lookup t = some 0) ∧
    (∀ s ∈ m.publicSymbols, (∃ j, m.instructions.at? s.2 = some j) →
      c.done.lookup s.2 = some 0) := by
  refine ⟨h.1.heightInv.before, fun e he n hsucc hj => h.done_succ he hsucc hj, ?_,
    fun s hs hj => h.done_public hs hj⟩
  intro e he t argc hcall hj
  exact h.done_call he (by rw [hcall]; rfl) hj

/-! ### Two programs -/

/-- A program with a loop and a call. -/
def loopAndCall : Module where
  filename := "loop.bc"
  instructions := ⟨[(0, .beginInst (.inl "main") 2 0), (9, .const 7),
    (14, .conditionalJump 9 true), (19, .const 5), (24, .call (.inr 34) 1), (33, .endInst),
    (34, .beginInst (.inr 34) 1 0), (43, .load ⟨.arg, 0⟩), (48, .endInst)], by decide⟩
  strings := []
  globalAreaSize := 0
  publicSymbols := [("main", 0)]

theorem loopAndCall_emits : ∃ c, Emits loopAndCall c :=
  ⟨_, ⟨_, rfl, .tail (.single (@Round.chunk _ _ 0 0 _ rfl rfl rfl))
    (@Round.chunk _ _ 34 0 _ rfl rfl rfl)⟩, rfl⟩

theorem heights_agree_loopAndCall : ∃ log c, Completes loopAndCall log c ∧
    c.done.lookup 0 = some 0 ∧ ∀ e ∈ log, c.done.lookup e.offset = some e.before.st.top := by
  obtain ⟨c, hc⟩ := loopAndCall_emits
  obtain ⟨log, hlog⟩ := emits_iff.1 hc
  obtain ⟨hbefore, -, -, hpublic⟩ := heights_agree hlog
  exact ⟨log, c, hlog, hpublic ("main", 0) (by simp [loopAndCall]) ⟨_, rfl⟩, hbefore⟩

/-- A program with a recursive function that nothing else calls. -/
def deadFunction : Module where
  filename := "dead.bc"
  instructions := ⟨[(0, .beginInst (.inl "main") 2 0), (9, .const 1), (14, .endInst),
    (15, .beginInst (.inr 15) 0 0), (24, .call (.inr 15) 0), (33, .endInst)], by decide⟩
  strings := []
  globalAreaSize := 0
  publicSymbols := [("main", 0)]

/-- A call that is never emitted has no effect on the heights: its target need not be recorded,
though it is an offset of the map. -/
theorem deadFunction_unrecorded :
    ¬ ∀ (m : Module) (log : List Emission) (c : Compiler), Completes m log c →
      ∀ o t argc, m.instructions.at? o = some (.call (.inr t) argc) →
        (∃ j, m.instructions.at? t = some j) → c.done.lookup t = some 0 := by
  intro h
  have hemits : ∃ c, Emits deadFunction c ∧ c.done.lookup 15 = none :=
    ⟨_, ⟨⟨_, rfl, .single (@Round.chunk _ _ 0 0 _ rfl rfl rfl)⟩, rfl⟩, rfl⟩
  obtain ⟨c, hc, hnone⟩ := hemits
  obtain ⟨log, hlog⟩ := emits_iff.1 hc
  have hsome := h deadFunction log c hlog 24 15 0 rfl ⟨_, rfl⟩
  rw [hnone] at hsome
  cases hsome

end LamaRv
