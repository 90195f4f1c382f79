import Mathlib.Logic.Relation
import Mathlib.Data.Nat.Notation
import Mathlib.Tactic.Choose

/-!
# Simulations

A step relation simulates another one when it matches each step by one or more of its own.  Then it
matches runs, and it runs forever when the other one does.

* `Simulates`: each step is matched;
* `Forever`: an infinite run;
* `Simulates.run`, `Simulates.forever`: runs are matched.
-/

namespace Simulations

open Relation

variable {α β : Type*} {R : α → α → Prop} {S : β → β → Prop} {M : α → β → Prop}

/-- `S` matches each step of `R` by one or more steps, along `M`. -/
def Simulates (R : α → α → Prop) (S : β → β → Prop) (M : α → β → Prop) : Prop :=
  ∀ a a' b, M a b → R a a' → ∃ b', TransGen S b b' ∧ M a' b'

/-- An infinite run. -/
def Forever (R : α → α → Prop) (a : α) : Prop := ∃ f : ℕ → α, f 0 = a ∧ ∀ n, R (f n) (f (n + 1))

/-- A predicate that can always make a step gives an infinite run. -/
theorem Forever.of_step {P : α → Prop} (hstep : ∀ a, P a → ∃ a', R a a' ∧ P a') {a : α} (ha : P a) :
    Forever R a := by
  choose f hf using fun x : {a // P a} => hstep x.1 x.2
  let g : ℕ → {a // P a} := fun n => n.rec ⟨a, ha⟩ fun _ x => ⟨f x, (hf x).2⟩
  exact ⟨fun n => (g n).1, rfl, fun n => (hf (g n)).1⟩

theorem Forever.step {a : α} (h : Forever R a) : ∃ a', R a a' ∧ Forever R a' := by
  obtain ⟨f, rfl, hf⟩ := h
  exact ⟨f 1, hf 0, fun n => f (n + 1), rfl, fun n => hf (n + 1)⟩

/-- A run that leads to an infinite run makes an infinite run with it. -/
theorem Forever.head {a b : α} (hab : ReflTransGen R a b) (h : Forever R b) : Forever R a := by
  refine Forever.of_step (P := fun x => ∃ y, ReflTransGen R x y ∧ Forever R y) ?_ ⟨b, hab, h⟩
  rintro x ⟨y, hxy, hy⟩
  rcases hxy.cases_head with rfl | ⟨z, hxz, hzy⟩
  · obtain ⟨z, hxz, hz⟩ := hy.step
    exact ⟨z, hxz, z, .refl, hz⟩
  · exact ⟨z, hxz, y, hzy, hy⟩

/-- Infinitely many runs that are not empty make an infinite run. -/
theorem Forever.of_transGen {a : α} (h : Forever (TransGen R) a) : Forever R a := by
  -- on the way to a state from which there are infinitely many such runs
  refine Forever.of_step (P := fun x => ∃ y, ReflTransGen R x y ∧ Forever (TransGen R) y) ?_
    ⟨a, .refl, h⟩
  rintro x ⟨y, hxy, hy⟩
  rcases hxy.cases_head with rfl | ⟨z, hxz, hzy⟩
  · obtain ⟨w, hw, hforever⟩ := hy.step
    obtain ⟨z, hxz, hzw⟩ := TransGen.head'_iff.1 hw
    exact ⟨z, hxz, w, hzw, hforever⟩
  · exact ⟨z, hxz, y, hzy, hy⟩

namespace Simulates

/-- Runs are matched. -/
theorem run (h : Simulates R S M) {a a' : α} {b : β} (hM : M a b) (hrun : ReflTransGen R a a') :
    ∃ b', ReflTransGen S b b' ∧ M a' b' := by
  induction hrun with
  | refl => exact ⟨b, .refl, hM⟩
  | tail _ hstep ih =>
    obtain ⟨b', hb, hM'⟩ := ih
    obtain ⟨b'', hb', hM''⟩ := h _ _ _ hM' hstep
    exact ⟨b'', hb.trans hb'.to_reflTransGen, hM''⟩

/-- Infinite runs are matched. -/
theorem forever (h : Simulates R S M) {a : α} {b : β} (hM : M a b) (hrun : Forever R a) :
    Forever S b := by
  refine Forever.of_transGen (Forever.of_step (P := fun y => ∃ x, M x y ∧ Forever R x) ?_ ⟨a, hM, hrun⟩)
  rintro y ⟨x, hxy, hx⟩
  obtain ⟨x', hstep, hx'⟩ := hx.step
  obtain ⟨y', hy', hM'⟩ := h _ _ _ hxy hstep
  exact ⟨y', hy', x', hM', hx'⟩

end Simulates

end Simulations
