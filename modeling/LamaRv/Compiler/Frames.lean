import LamaRv.Compiler.Heights

/-!
# The current frame

`current_frame` is one slot for all functions: `BEGIN` sets it, and every other instruction reads
what the instruction emitted just before it left there.  So an instruction is compiled under the
frame of its function exactly when the worklist comes to it from an instruction of a function with
the same frame; the order of a hash table does not provide for that.

* `Module.Owns`: the function that an instruction belongs to;
* `FunctionOrder`: the orders of emission that keep to functions;
* `own_frame_iff`: these are the orders in which every instruction finds its own frame;
* `frame_of_other_function`: a program and an order that is not one of them.
-/

namespace LamaRv

open Rv64 CodeBuffer Compiler

variable {m : Module}

/-- The instruction at `b` is a `BEGIN`. -/
def Module.BeginAt (m : Module) (b : ℕ) : Prop :=
  ∃ i, m.instructions.at? b = some i ∧ i.isBegin = true

/-- The instruction at `o` belongs to the function that begins at `b`. -/
def Module.Owns (m : Module) (b o : ℕ) : Prop := m.BeginAt b ∧ m.Flow b o

/-- Every instruction belongs to one function. -/
def Module.EachOwned (m : Module) : Prop :=
  ∀ o i, m.instructions.at? o = some i → ∃! b, m.Owns b o

/-- The frame that the `BEGIN` at `b` sets. -/
def Module.frameAt (m : Module) (b : ℕ) : Option FrameInfo :=
  (m.instructions.at? b).bind fun i => i.frameAfter none

/-- `emit_code` of the instruction `i` at `o` runs in the state `c` under the frame of its
function.  A `BEGIN` sets the frame itself. -/
def InOwnFrame (m : Module) (o : ℕ) (i : Instruction) (c : Compiler) : Prop :=
  i.isBegin = false → ∀ b, m.Owns b o → c.currentFrame = m.frameAt b

/-- The functions of the two instructions have the same frame. -/
def Module.SameFrame (m : Module) (o o' : ℕ) : Prop :=
  ∀ b b', m.Owns b o → m.Owns b' o' → m.frameAt b = m.frameAt b'

/-- Control falls through from `o` to `o'`. -/
def Module.Falls (m : Module) (o o' : ℕ) : Prop :=
  ∃ i, m.instructions.at? o = some i ∧ i.isTerminator = false ∧ m.instructions.next? o = some o'

/-- The offsets, the newest first, are in an order that keeps to functions: where a round of the
worklist starts, there is a `BEGIN` or an instruction of a function with the same frame as that
of the instruction emitted just before. -/
def FunctionOrder (m : Module) : List ℕ → Prop
  | [] => True
  | o :: os => FunctionOrder m os ∧
      (m.BeginAt o ∨ ∃ o', os.head? = some o' ∧ (m.Falls o' o ∨ m.SameFrame o o'))

/-! ### Functions and frames -/

theorem Module.EachOwned.unique (hm : m.EachOwned) {b b' o : ℕ} {i : Instruction}
    (hat : m.instructions.at? o = some i) (h : m.Owns b o) (h' : m.Owns b' o) : b = b' :=
  (hm o i hat).unique h h'

theorem Module.BeginAt.owns_self {b : ℕ} (h : m.BeginAt b) : m.Owns b b := ⟨h, .refl⟩

/-- A `BEGIN` sets the same frame whatever the frame before. -/
theorem frameAfter_of_isBegin {i : Instruction} (h : i.isBegin = true) (f : Option FrameInfo) :
    i.frameAfter f = i.frameAfter none := by
  cases i <;> first | rfl | cases h

/-- Other instructions keep the frame. -/
theorem frameAfter_of_not_isBegin {i : Instruction} (h : i.isBegin = false)
    (f : Option FrameInfo) : i.frameAfter f = f := by
  cases i <;> first | rfl | cases h

theorem Module.BeginAt.frameAt_isSome {b : ℕ} (h : m.BeginAt b) : ∃ f, m.frameAt b = some f := by
  obtain ⟨i, hat, hi⟩ := h
  unfold Module.frameAt
  rw [hat]
  cases i <;> first | exact ⟨_, rfl⟩ | cases hi

/-- Falling through stays in the function. -/
theorem Module.Falls.owns {b o o' : ℕ} (h : m.Falls o o') (hb : m.Owns b o) : m.Owns b o' := by
  obtain ⟨i, hat, ht, hn⟩ := h
  exact ⟨hb.1, hb.2.tail (.fall hat ht hn)⟩

/-- Between two calls of `emit_code` the frame stays. -/
theorem Run.frame_eq {log : List Emission} {es : List (ℕ × Instruction)} {c : Compiler}
    (h : Run m log es c) : c.currentFrame = log.head?.bind (·.after.currentFrame) := by
  induction h with
  | start h => exact (start_ok h).2.1
  | stale _ _ _ ih => exact ih
  | take _ _ _ ih => exact ih
  | last _ _ _ _ _ => rfl
  | next _ _ _ _ _ => rfl

section Order

variable {log : List Emission} {o : ℕ} {i : Instruction} {rest : List (ℕ × Instruction)}
  {c c₁ : Compiler}

/-- After an emission under its own frame the frame is that of its function. -/
theorem frame_after_emission (hm : m.EachOwned) {e : Emission} {b : ℕ}
    (hat : m.instructions.at? e.offset = some e.inst) (heff : e.inst.Effect e.before e.after)
    (hown : InOwnFrame m e.offset e.inst e.before) (hb : m.Owns b e.offset) :
    e.after.currentFrame = m.frameAt b := by
  cases hi : e.inst.isBegin with
  | true =>
    have hself : m.Owns e.offset e.offset := Module.BeginAt.owns_self ⟨_, hat, hi⟩
    rw [hm.unique hat hb hself, heff.frame, frameAfter_of_isBegin hi, Module.frameAt, hat]
    rfl
  | false => rw [heff.frame, frameAfter_of_not_isBegin hi, hown hi b hb]

/-- One call of `emit_code`: when all calls so far found their own frame, the next one does just
when its offset continues the order. -/
theorem own_frame_step (hm : m.EachOwned) (hrun : Run m log ((o, i) :: rest) c)
    (hopen : openInst c o i = .ok c₁)
    (hlog : ∀ e ∈ log, InOwnFrame m e.offset e.inst e.before) :
    InOwnFrame m o i c₁ ↔ (m.BeginAt o ∨ ∃ o', (log.map (·.offset)).head? = some o' ∧
      (m.Falls o' o ∨ m.SameFrame o o')) := by
  have hat := InstMap.at?_of_suffix hrun.heightInv.suffix
  have hframe : c₁.currentFrame = log.head?.bind (·.after.currentFrame) := by
    rw [(openInst_ok hopen).frame, hrun.frame_eq]
  obtain ⟨b, hb, -⟩ := hm o i hat
  cases hi : i.isBegin with
  | true => exact ⟨fun _ => .inl ⟨i, hat, hi⟩, fun _ h => by rw [hi] at h; cases h⟩
  | false =>
    have hnot : ¬ m.BeginAt o := by
      rintro ⟨j, hj, hbegin⟩
      rw [hat] at hj
      cases hj
      rw [hi] at hbegin
      cases hbegin
    cases log with
    | nil =>
      obtain ⟨f, hf⟩ := hb.1.frameAt_isSome
      constructor
      · intro h
        have := h hi b hb
        rw [hframe, hf] at this
        cases this
      · rintro (h | ⟨o', h, -⟩)
        · exact absurd h hnot
        · cases h
    | cons e log =>
      have hinst := hrun.heightInv.inst e List.mem_cons_self
      have hafter : ∀ b', m.Owns b' e.offset → c₁.currentFrame = m.frameAt b' := by
        intro b' hb'
        rw [hframe]
        exact frame_after_emission hm hinst (hrun.heightInv.effect e List.mem_cons_self)
          (hlog e List.mem_cons_self) hb'
      obtain ⟨b', hb', -⟩ := hm e.offset e.inst hinst
      constructor
      · intro h
        refine .inr ⟨e.offset, rfl, .inr fun x x' hx hx' => ?_⟩
        rw [← h hi x hx, hafter x' hx']
      · rintro (h | ⟨o', h, h'⟩)
        · exact absurd h hnot
        · cases h
          intro _ x hx
          rw [hafter b' hb']
          rcases h' with hfall | hsame
          · rw [hm.unique hat (hfall.owns hb') hx]
          · exact (hsame x b' hx hb').symm

end Order

/-- All calls so far found their own frame just when they came in an order that keeps to
functions. -/
theorem Run.own_frames_iff (hm : m.EachOwned) {log : List Emission}
    {es : List (ℕ × Instruction)} {c : Compiler} (h : Run m log es c) :
    (∀ e ∈ log, InOwnFrame m e.offset e.inst e.before) ↔
      FunctionOrder m (log.map (·.offset)) := by
  have step : ∀ {log o i rest c c₁ c₂}, Run m log ((o, i) :: rest) c → openInst c o i = .ok c₁ →
      ((∀ e ∈ log, InOwnFrame m e.offset e.inst e.before) ↔
        FunctionOrder m (log.map (·.offset))) →
      ((∀ e ∈ (⟨o, i, c₁, c₂⟩ : Emission) :: log, InOwnFrame m e.offset e.inst e.before) ↔
        FunctionOrder m (o :: log.map (·.offset))) := by
    intro log o i rest c c₁ c₂ hrun hopen ih
    rw [List.forall_mem_cons, FunctionOrder, ← ih, and_comm]
    exact and_congr_right fun hlog => own_frame_step hm hrun hopen hlog
  induction h with
  | start _ => simp [FunctionOrder]
  | stale _ _ _ ih => exact ih
  | take _ _ _ ih => exact ih
  | last hrun hopen _ _ ih => exact step hrun hopen ih
  | next hrun hopen _ _ ih => exact step hrun hopen ih

/-- **Own frames.**  In a module whose instructions belong to one function each, and for every
order in which entries are taken: up to a call of `emit_code` all calls, this one included, run
under the frame of the function of their instruction if and only if the offsets came in an order
that keeps to functions. -/
theorem own_frame_iff (hm : m.EachOwned) {log : List Emission} {o : ℕ} {i : Instruction}
    {rest : List (ℕ × Instruction)} {c c₁ : Compiler} (hrun : Run m log ((o, i) :: rest) c)
    (hopen : openInst c o i = .ok c₁) :
    ((∀ e ∈ log, InOwnFrame m e.offset e.inst e.before) ∧ InOwnFrame m o i c₁) ↔
      FunctionOrder m (o :: log.map (·.offset)) := by
  rw [FunctionOrder, ← hrun.own_frames_iff hm]
  exact and_congr_right fun hlog => own_frame_step hm hrun hopen hlog

/-! ### A program with two functions -/

/-- `main` branches after it has called a function with one local variable. -/
def twoFunctions : Module where
  filename := "two.bc"
  instructions := ⟨[(0, .beginInst (.inl "main") 2 0), (9, .const 1),
    (14, .conditionalJump 29 true), (19, .call (.inr 35) 0), (28, .endInst), (29, .const 1),
    (34, .endInst), (35, .beginInst (.inr 35) 0 1), (44, .const 1), (49, .endInst)], by decide⟩
  strings := []
  globalAreaSize := 0
  publicSymbols := [("main", 0)]

theorem twoFunctions_succ {o o' : ℕ} (h : twoFunctions.Succ o o') : o < 35 ↔ o' < 35 := by
  cases h with
  | fall hat ht hn =>
    have hmem := InstMap.mem_of_at? hat
    simp only [twoFunctions, List.mem_cons, Prod.mk.injEq, List.not_mem_nil, or_false] at hmem
    rcases hmem with ⟨rfl, rfl⟩ | ⟨rfl, rfl⟩ | ⟨rfl, rfl⟩ | ⟨rfl, rfl⟩ | ⟨rfl, rfl⟩ | ⟨rfl, rfl⟩ |
      ⟨rfl, rfl⟩ | ⟨rfl, rfl⟩ | ⟨rfl, rfl⟩ | ⟨rfl, rfl⟩ <;> cases ht <;> cases hn <;> decide
  | jump hat ht =>
    have hmem := InstMap.mem_of_at? hat
    simp only [twoFunctions, List.mem_cons, Prod.mk.injEq, List.not_mem_nil, or_false] at hmem
    rcases hmem with ⟨rfl, rfl⟩ | ⟨rfl, rfl⟩ | ⟨rfl, rfl⟩ | ⟨rfl, rfl⟩ | ⟨rfl, rfl⟩ | ⟨rfl, rfl⟩ |
      ⟨rfl, rfl⟩ | ⟨rfl, rfl⟩ | ⟨rfl, rfl⟩ | ⟨rfl, rfl⟩ <;> cases ht
    decide

theorem twoFunctions_flow {o o' : ℕ} (h : twoFunctions.Flow o o') : o < 35 ↔ o' < 35 := by
  induction h with
  | refl => rfl
  | tail _ hs ih => rw [ih, twoFunctions_succ hs]

theorem twoFunctions_beginAt {b : ℕ} (h : twoFunctions.BeginAt b) : b = 0 ∨ b = 35 := by
  obtain ⟨i, hat, hi⟩ := h
  have hmem := InstMap.mem_of_at? hat
  simp only [twoFunctions, List.mem_cons, Prod.mk.injEq, List.not_mem_nil, or_false] at hmem
  rcases hmem with ⟨rfl, rfl⟩ | ⟨-, rfl⟩ | ⟨-, rfl⟩ | ⟨-, rfl⟩ | ⟨-, rfl⟩ | ⟨-, rfl⟩ |
    ⟨-, rfl⟩ | ⟨rfl, rfl⟩ | ⟨-, rfl⟩ | ⟨-, rfl⟩
  · exact .inl rfl
  all_goals first | exact .inr rfl | cases hi

theorem twoFunctions_main14 : twoFunctions.Flow 0 14 :=
  .tail (.single (.fall (i := .beginInst (.inl "main") 2 0) rfl rfl rfl))
    (.fall (i := .const 1) rfl rfl rfl)

theorem twoFunctions_main29 : twoFunctions.Flow 0 29 :=
  twoFunctions_main14.tail (.jump (i := .conditionalJump 29 true) rfl rfl)

theorem twoFunctions_each_owned : twoFunctions.EachOwned := by
  have main9 : twoFunctions.Flow 0 9 := .single (.fall rfl rfl rfl)
  have main19 := twoFunctions_main14.tail (show twoFunctions.Succ 14 19 from .fall rfl rfl rfl)
  have main28 := main19.tail (show twoFunctions.Succ 19 28 from .fall rfl rfl rfl)
  have main34 := twoFunctions_main29.tail (show twoFunctions.Succ 29 34 from .fall rfl rfl rfl)
  have callee44 : twoFunctions.Flow 35 44 := .single (.fall rfl rfl rfl)
  have callee49 := callee44.tail (show twoFunctions.Succ 44 49 from .fall rfl rfl rfl)
  have main : ∀ o, o < 35 → twoFunctions.Flow 0 o → ∃! b, twoFunctions.Owns b o := by
    intro o ho hflow
    refine ⟨0, ⟨⟨_, rfl, rfl⟩, hflow⟩, ?_⟩
    rintro b ⟨hb, hflow'⟩
    rcases twoFunctions_beginAt hb with rfl | rfl
    · rfl
    · exact absurd ((twoFunctions_flow hflow').2 ho) (by decide)
  have callee : ∀ o, ¬ o < 35 → twoFunctions.Flow 35 o → ∃! b, twoFunctions.Owns b o := by
    intro o ho hflow
    refine ⟨35, ⟨⟨_, rfl, rfl⟩, hflow⟩, ?_⟩
    rintro b ⟨hb, hflow'⟩
    rcases twoFunctions_beginAt hb with rfl | rfl
    · exact absurd ((twoFunctions_flow hflow').1 (by decide)) ho
    · rfl
  intro o i hat
  have hmem := InstMap.mem_of_at? hat
  simp only [twoFunctions, List.mem_cons, Prod.mk.injEq, List.not_mem_nil, or_false] at hmem
  rcases hmem with ⟨rfl, -⟩ | ⟨rfl, -⟩ | ⟨rfl, -⟩ | ⟨rfl, -⟩ | ⟨rfl, -⟩ | ⟨rfl, -⟩ | ⟨rfl, -⟩ |
    ⟨rfl, -⟩ | ⟨rfl, -⟩ | ⟨rfl, -⟩
  · exact main _ (by decide) .refl
  · exact main _ (by decide) main9
  · exact main _ (by decide) twoFunctions_main14
  · exact main _ (by decide) main19
  · exact main _ (by decide) main28
  · exact main _ (by decide) twoFunctions_main29
  · exact main _ (by decide) main34
  · exact callee _ (by decide) .refl
  · exact callee _ (by decide) callee44
  · exact callee _ (by decide) callee49

/-- The second call of `emit_code`, after the `BEGIN` of `main`. -/
theorem own_frame_iff_twoFunctions : ∃ log c c₁ rest, Run twoFunctions log ((9, .const 1) :: rest) c ∧
    openInst c 9 (.const 1) = .ok c₁ ∧
    (((∀ e ∈ log, InOwnFrame twoFunctions e.offset e.inst e.before) ∧
      InOwnFrame twoFunctions 9 (.const 1) c₁) ↔
        FunctionOrder twoFunctions (9 :: log.map (·.offset))) := by
  have hstart : ∃ c, start twoFunctions = .ok c ∧ c.todo.lookup 0 = some 0 ∧
      (takeEntry c 0 0).shouldEmit 0 = .ok true ∧ ∃ c₁ c₂ c₃,
      openInst (takeEntry c 0 0) 0 (.beginInst (.inl "main") 2 0) = .ok c₁ ∧
      (Instruction.beginInst (.inl "main") 2 0).emitCode c₁ = .ok c₂ ∧
      openInst c₂ 9 (.const 1) = .ok c₃ :=
    ⟨_, rfl, rfl, rfl, _, _, _, rfl, rfl, rfl⟩
  obtain ⟨c, hc, hl, hs, c₁, c₂, c₃, hopen, hcode, hopen'⟩ := hstart
  have hrun := ((Run.start hc).take hl hs).next hopen hcode rfl
  exact ⟨_, _, c₃, _, hrun, hopen', own_frame_iff twoFunctions_each_owned hrun hopen'⟩

/-- The callee is compiled between the two parts of `main`, and the second part is compiled under
the frame of the callee. -/
theorem frame_of_other_function :
    ¬ ∀ (m : Module), m.EachOwned → ∀ (log : List Emission) (o : ℕ) (i : Instruction)
      (rest : List (ℕ × Instruction)) (c c₁ : Compiler), Run m log ((o, i) :: rest) c →
      openInst c o i = .ok c₁ → InOwnFrame m o i c₁ := by
  intro h
  have hreach : ∃ c, Reaches twoFunctions c ∧ c.todo.lookup 29 = some 1 ∧
      (takeEntry c 29 1).shouldEmit 29 = .ok true ∧
      ∃ c₁, openInst (takeEntry c 29 1) 29 (.const 1) = .ok c₁ ∧
        c₁.currentFrame = twoFunctions.frameAt 35 :=
    ⟨_, ⟨_, rfl, .tail (.single (@Round.chunk _ _ 0 0 _ rfl rfl rfl))
      (@Round.chunk _ _ 35 0 _ rfl rfl rfl)⟩, rfl, rfl, _, rfl, rfl⟩
  obtain ⟨c, hc, hl, hs, c₁, hopen, hframe⟩ := hreach
  obtain ⟨log, hrun⟩ := reaches_iff.1 hc
  have hown := h twoFunctions twoFunctions_each_owned log 29 (.const 1) _ _ c₁ (hrun.take hl hs)
    hopen rfl 0 ⟨⟨_, rfl, rfl⟩, twoFunctions_main29⟩
  rw [hframe] at hown
  exact absurd (congrArg (Option.map FrameInfo.localsCount) hown) (by decide)

end LamaRv
