import Mathlib.Data.List.Basic
import Mathlib.Data.Nat.Basic

/-!
# Readers of tokens

A reader takes tokens off the front of its input and may have more state than that.  It is local when
it takes a prefix of the input and does the same whatever follows this prefix; the usual combinators
keep this.

* `Source`: the states that have an input and a position in it;
* `Takes`, `Local`: a reader and the tokens that it takes;
* `Items`: a reader that is called again and again;
* `Blind`: a reader that does not look at a part of its state.
-/

namespace Readers

/-- The states with an input, and the number of tokens before it. -/
class Source (σ : Type) (β : outParam Type) where
  input : σ → List β
  position : σ → ℕ
  feed : List β → σ → σ
  input_feed : ∀ bs s, input (feed bs s) = bs
  position_feed : ∀ bs s, position (feed bs s) = position s
  feed_input : ∀ s, feed (input s) s = s
  feed_feed : ∀ bs cs s, feed bs (feed cs s) = feed bs s

attribute [simp] Source.input_feed Source.position_feed Source.feed_input Source.feed_feed

variable {σ β ε α γ : Type}

section Local

variable [Source σ β]

open Source

/-- The reader takes just these tokens, whatever follows them. -/
structure Takes (p : StateT σ (Except ε) α) (s : σ) (bs : List β) (a : α) (s' : σ) : Prop where
  position : position s' = position s + bs.length
  run : ∀ more, p.run (feed (bs ++ more) s) = .ok (a, feed more s')

/-- What the reader does depends on a prefix of its input, and this it takes. -/
def Local (p : StateT σ (Except ε) α) : Prop :=
  ∀ s a s', p.run s = .ok (a, s') → ∃ bs, input s = bs ++ input s' ∧ Takes p s bs a s'

variable {p : StateT σ (Except ε) α} {s s' s₁ s₂ : σ} {bs cs : List β} {a b : α}

theorem Local.pure (a : α) : Local (ε := ε) (pure a : StateT σ (Except ε) α) := by
  intro s b s' h
  obtain ⟨rfl, rfl⟩ := Prod.mk.inj (Except.ok.inj h)
  exact ⟨[], rfl, rfl, fun more => rfl⟩

theorem Local.throw (e : ε) : Local (throw e : StateT σ (Except ε) α) := by
  intro s a s' h
  cases h

theorem Local.bind {q : α → StateT σ (Except ε) γ} (hp : Local p) (hq : ∀ a, Local (q a)) :
    Local (p >>= q) := by
  intro s c s' h
  rw [StateT.run_bind] at h
  cases hrun : p.run s with
  | error e =>
    rw [hrun] at h
    cases h
  | ok r =>
    obtain ⟨a, s₁⟩ := r
    rw [hrun] at h
    obtain ⟨bs, hbs, htakes⟩ := hp s a s₁ hrun
    obtain ⟨cs, hcs, hnext⟩ := hq a s₁ c s' h
    refine ⟨bs ++ cs, by rw [hbs, hcs, List.append_assoc], ?_, fun more => ?_⟩
    · rw [hnext.position, htakes.position, List.length_append, Nat.add_assoc]
    · rw [StateT.run_bind, List.append_assoc, htakes.run]
      exact hnext.run more

/-- A look at the state, if it is not one at the input. -/
theorem Local.get_bind {q : σ → StateT σ (Except ε) γ} (hq : ∀ s, Local (q s))
    (hfeed : ∀ bs s, q (feed bs s) = q s) : Local (get >>= q) := by
  intro s c s' h
  obtain ⟨bs, hbs, htakes⟩ := hq s s c s' h
  refine ⟨bs, hbs, htakes.position, fun more => ?_⟩
  have hrun := htakes.run more
  rw [← hfeed (bs ++ more) s] at hrun
  exact hrun

/-- A change of the state that leaves the input and the position alone. -/
theorem Local.modify {g : σ → σ} (hfeed : ∀ bs s, g (feed bs s) = feed bs (g s))
    (hposition : ∀ s, position (g s) = position s) :
    Local (ε := ε) (modify g : StateT σ (Except ε) PUnit) := by
  intro s u s' h
  obtain ⟨rfl, rfl⟩ := Prod.mk.inj (Except.ok.inj h)
  have hinput : input (g s) = input s := by
    conv_lhs => rw [← feed_input s, hfeed, input_feed]
  exact ⟨[], hinput.symm, hposition s, fun more => by
    rw [List.nil_append, ← hfeed]
    rfl⟩

end Local

/-! ### A reader that is called again and again -/

section Items

variable [Source σ β]

open Source

/-- The items that a reader gives up to its first look that gives none, with the positions where they
start. -/
inductive Items (p : StateT σ (Except ε) (Option α)) : σ → List (ℕ × α) → σ → Prop
  | stop {s s'} : p.run s = .ok (none, s') → Items p s [] s'
  | item {s s₁ s' a as} : p.run s = .ok (some a, s₁) → Items p s₁ as s' →
      Items p s ((position s, a) :: as) s'

variable {p : StateT σ (Except ε) (Option α)} {s s' : σ} {as pre post : List (ℕ × α)} {n : ℕ} {a : α}

/-- The reader stands at a place of the input that another state has. -/
def Within (s s₁ : σ) : Prop :=
  position s ≤ position s₁ ∧ input s₁ = (input s).drop (position s₁ - position s)

theorem Local.within {p : StateT σ (Except ε) γ} {c : γ} (hp : Local p) (h : p.run s = .ok (c, s')) :
    Within s s' := by
  obtain ⟨bs, hbs, htakes⟩ := hp s c s' h
  have hposition := htakes.position
  refine ⟨by omega, ?_⟩
  rw [hbs, hposition, Nat.add_sub_cancel_left, List.drop_left]

section Along

variable {I : List (ℕ × α) → σ → Prop} {before : List (ℕ × α)}
  (hstep : ∀ as s a s', I as s → p.run s = .ok (some a, s') → I (as ++ [(position s, a)]) s')

include hstep

/-- An item in the middle, and what holds along the items before it. -/
theorem Items.split (h : Items p s (pre ++ (n, a) :: post) s') (hI : I before s) : ∃ s₁ s₂,
    position s₁ = n ∧ I (before ++ pre) s₁ ∧ p.run s₁ = .ok (some a, s₂) ∧ Items p s₂ post s' := by
  induction pre generalizing s before with
  | nil =>
    cases h with
    | item hrun hrest => exact ⟨_, _, rfl, by rwa [List.append_nil], hrun, hrest⟩
  | cons x pre ih =>
    cases h with
    | item hrun hrest =>
      obtain ⟨s₁, s₂, hn, hI', hitem, hpost⟩ := ih hrest (hstep _ _ _ _ hI hrun)
      rw [List.append_assoc] at hI'
      exact ⟨s₁, s₂, hn, hI', hitem, hpost⟩

/-- What holds along the items holds at the stop. -/
theorem Items.last (h : Items p s as s') (hI : I before s) :
    ∃ s₁, I (before ++ as) s₁ ∧ p.run s₁ = .ok (none, s') := by
  induction h generalizing before with
  | stop hrun => exact ⟨_, by rwa [List.append_nil], hrun⟩
  | item hrun _ ih =>
    obtain ⟨s₁, hI', hstop⟩ := ih (hstep _ _ _ _ hI hrun)
    rw [List.append_assoc] at hI'
    exact ⟨s₁, hI', hstop⟩

end Along

/-- There are not more items than tokens. -/
theorem Items.length_le (hp : Local p)
    (hpos : ∀ s a s', p.run s = .ok (some a, s') → position s < position s') (h : Items p s as s') :
    as.length ≤ (input s).length := by
  induction h with
  | stop => exact Nat.zero_le _
  | item hrun _ ih =>
    have hlt := hpos _ _ _ hrun
    obtain ⟨bs, hbs, htakes⟩ := hp _ _ _ hrun
    have hposition := htakes.position
    rw [hbs, List.length_append, List.length_cons]
    omega

end Items

/-! ### What a reader does not look at -/

section Blind

/-- From related states the reader has related results. -/
def Blind (S : σ → σ → Prop) (R : α → α → Prop) (p : StateT σ (Except ε) α) : Prop :=
  ∀ s t a s', S s t → p.run s = .ok (a, s') → ∃ b t', p.run t = .ok (b, t') ∧ R a b ∧ S s' t'

variable {S : σ → σ → Prop} {R : α → α → Prop} {T : γ → γ → Prop} {p : StateT σ (Except ε) α}

theorem Blind.pure {a : α} (h : R a a) : Blind (ε := ε) S R (pure a) := by
  intro s t b s' hs hrun
  obtain ⟨rfl, rfl⟩ := Prod.mk.inj (Except.ok.inj hrun)
  exact ⟨a, t, rfl, h, hs⟩

theorem Blind.throw (e : ε) : Blind S R (throw e : StateT σ (Except ε) α) := by
  intro s t a s' _ hrun
  cases hrun

theorem Blind.bind {q : α → StateT σ (Except ε) γ} (hp : Blind S Eq p) (hq : ∀ a, Blind S T (q a)) :
    Blind S T (p >>= q) := by
  intro s t c s' hs hrun
  rw [StateT.run_bind] at hrun
  cases hfirst : p.run s with
  | error e =>
    rw [hfirst] at hrun
    cases hrun
  | ok r =>
    obtain ⟨a, s₁⟩ := r
    rw [hfirst] at hrun
    obtain ⟨b, t₁, hfirst', rfl, hs₁⟩ := hp s t a s₁ hs hfirst
    obtain ⟨d, t', hnext, hT, hs'⟩ := hq a s₁ t₁ c s' hs₁ hrun
    refine ⟨d, t', ?_, hT, hs'⟩
    rw [StateT.run_bind, hfirst']
    exact hnext

end Blind

end Readers
