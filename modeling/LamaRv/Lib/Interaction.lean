import Mathlib.Data.Nat.Notation

/-!
# Machines that answer

A machine performs instructions one after the other.  What is performed next depends on the answers so
far, which is all that a program sees.  Where two machines agree at each instruction, no program can tell
them apart.

* `Machine`, `run`: instructions and runs;
* `Agree`: the same message, or the same answers and related states;
* `Refines`: where the first machine promises something, the second one does it;
* `Refines.run`: then it does so in whole runs;
* `Meets.step`: the conditions of a run, one instruction after the other.
-/

namespace Interaction

variable {ι ε ω α σ τ : Type*}

/-- What a machine does at an instruction: it promises nothing, or it stops with a message, or it goes on
and gives an answer. -/
abbrev Machine (ι ε ω σ : Type*) := ι → σ → Option (Except ε (σ × ω))

/-- At most some instructions, each one chosen by the answers before it. -/
def run (M : Machine ι ε ω σ) (next : List ω → Option ι) :
    ℕ → σ → List ω → Option (Except ε (σ × List ω))
  | 0, s, answers => some (.ok (s, answers))
  | n + 1, s, answers =>
    match next answers with
    | none => some (.ok (s, answers))
    | some i =>
      match M i s with
      | none => none
      | some (.error e) => some (.error e)
      | some (.ok (s', a)) => run M next n s' (answers ++ [a])

/-- The same message, or the same answers and related states. -/
inductive Agree (R : σ → τ → Prop) : Except ε (σ × α) → Except ε (τ × α) → Prop
  | error (e : ε) : Agree R (.error e) (.error e)
  | ok {s : σ} {t : τ} {a : α} : R s t → Agree R (.ok (s, a)) (.ok (t, a))

/-- Under some conditions the second machine does what the first one promises. -/
def Refines (M : Machine ι ε ω σ) (N : Machine ι ε ω τ) (C : ι → σ → τ → Prop) (R : σ → τ → Prop) :
    Prop :=
  ∀ i s t r, R s t → C i s t → M i s = some r → ∃ r', N i t = some r' ∧ Agree R r r'

/-- The conditions are met at each instruction of a run. -/
def Meets (M : Machine ι ε ω σ) (N : Machine ι ε ω τ) (C : ι → σ → τ → Prop)
    (next : List ω → Option ι) : ℕ → σ → τ → List ω → Prop
  | 0, _, _, _ => True
  | n + 1, s, t, answers => ∀ i, next answers = some i → C i s t ∧
      ∀ s' t' a, M i s = some (.ok (s', a)) → N i t = some (.ok (t', a)) →
        Meets M N C next n s' t' (answers ++ [a])

section Runs

variable {M : Machine ι ε ω σ} {N : Machine ι ε ω τ} {C : ι → σ → τ → Prop} {R : σ → τ → Prop}
  {next : List ω → Option ι}

/-- **Whole runs.**  What the first machine promises of a run, the second one does. -/
theorem Refines.run (h : Refines M N C R) {n : ℕ} {s : σ} {t : τ} {answers : List ω}
    {r : Except ε (σ × List ω)} (hst : R s t) (hmeets : Meets M N C next n s t answers)
    (hrun : Interaction.run M next n s answers = some r) :
    ∃ r', Interaction.run N next n t answers = some r' ∧ Agree R r r' := by
  induction n generalizing s t answers with
  | zero =>
    obtain rfl := Option.some.inj hrun
    exact ⟨_, rfl, .ok hst⟩
  | succ n ih =>
    unfold Interaction.run at hrun ⊢
    cases hnext : next answers with
    | none =>
      rw [hnext] at hrun
      obtain rfl := Option.some.inj hrun
      exact ⟨_, rfl, .ok hst⟩
    | some i =>
      obtain ⟨hC, hafter⟩ := hmeets i hnext
      simp only [hnext] at hrun ⊢
      cases hM : M i s with
      | none =>
        rw [hM] at hrun
        cases hrun
      | some r₁ =>
        obtain ⟨r₂, hN, hagree⟩ := h i s t r₁ hst hC hM
        simp only [hM] at hrun
        simp only [hN]
        cases hagree with
        | error e =>
          obtain rfl := Option.some.inj hrun
          exact ⟨_, rfl, .error e⟩
        | ok hst' => exact ih hst' (hafter _ _ _ hM hN) hrun

/-- The state after an instruction. -/
def exec (M : Machine ι ε ω σ) (i : ι) (s : σ) : σ :=
  match M i s with
  | some (.ok (s', _)) => s'
  | _ => s

/-- The answer of an instruction. -/
def ask (M : Machine ι ε ω σ) (i : ι) (s : σ) : Option ω :=
  match M i s with
  | some (.ok (_, a)) => some a
  | _ => none

theorem eq_of_ask {i : ι} {s : σ} {a : ω} (h : ask M i s = some a) :
    M i s = some (.ok (exec M i s, a)) := by
  unfold ask at h
  unfold exec
  split at h
  · rename_i heq
    rw [heq, Option.some.inj h]
  · cases h

/-- The conditions are met at the next instruction, which both machines answer, and after it. -/
theorem Meets.step {n : ℕ} {i : ι} {s : σ} {t : τ} {a : ω} {answers : List ω}
    (hnext : next answers = some i) (hC : C i s t) (hM : ask M i s = some a) (hN : ask N i t = some a)
    (h : Meets M N C next n (exec M i s) (exec N i t) (answers ++ [a])) :
    Meets M N C next (n + 1) s t answers := by
  intro j hj
  obtain rfl := Option.some.inj (hnext.symm.trans hj)
  refine ⟨hC, fun s' t' b hM' hN' => ?_⟩
  obtain ⟨rfl, rfl⟩ := Prod.mk.inj (Except.ok.inj (Option.some.inj ((eq_of_ask hM).symm.trans hM')))
  obtain ⟨rfl, -⟩ := Prod.mk.inj (Except.ok.inj (Option.some.inj ((eq_of_ask hN).symm.trans hN')))
  exact h

end Runs

end Interaction
