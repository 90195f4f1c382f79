import Mathlib.Logic.Relation
import Mathlib.Tactic

/-!
# Marking a graph with a queue

Breadth-first search in a graph that is given by the successors of its nodes: take the first node
of the queue, mark it, and put those of its successors on the queue that are neither marked nor on
it yet.

* `Reaches`: paths; `enqueue`: one round for the successors;
* `Search`: what holds from round to round; `Search.step`, `Search.finish`: the marked nodes are
  those that were marked before and those that the start reaches.
-/

namespace Marking

variable {α : Type*} (succ : α → List α)

/-- There is a path. -/
abbrev Reaches : α → α → Prop := Relation.ReflTransGen fun x y => y ∈ succ x

/-- With a marked node all its successors are marked. -/
def Closed (marked : Set α) : Prop := ∀ x ∈ marked, ∀ y ∈ succ x, y ∈ marked

/-- A closed set has with a node all that the node reaches. -/
theorem Closed.reaches {succ : α → List α} {marked : Set α} {x y : α} (h : Closed succ marked)
    (hx : x ∈ marked) (hxy : Reaches succ x y) : y ∈ marked := by
  induction hxy with
  | refl => exact hx
  | tail _ hstep ih => exact h _ ih _ hstep

/-- Put a node on the queue, unless it is marked or on the queue. -/
def offer [DecidableEq α] (marked queue : List α) (y : α) : List α :=
  if y ∈ marked ∨ y ∈ queue then queue else queue ++ [y]

/-- Put nodes on the queue, one after the other. -/
def enqueue [DecidableEq α] (marked queue ys : List α) : List α := ys.foldl (offer marked) queue

section Enqueue

variable [DecidableEq α] {marked queue ys : List α} {x y : α}

@[simp] theorem enqueue_nil : enqueue marked queue [] = queue := rfl

theorem enqueue_append_singleton :
    enqueue marked queue (ys ++ [y]) = offer marked (enqueue marked queue ys) y := by
  simp [enqueue]

theorem mem_offer : x ∈ offer marked queue y ↔ x ∈ queue ∨ (x = y ∧ y ∉ marked) := by
  unfold offer
  split_ifs with h
  · constructor
    · exact .inl
    · rintro (hx | ⟨rfl, hy⟩)
      · exact hx
      · exact h.resolve_left hy
  · rw [List.mem_append, List.mem_singleton]
    exact ⟨fun hx => hx.imp_right fun hx => ⟨hx, fun hy => h (.inl hy)⟩, fun hx => hx.imp_right And.left⟩

theorem mem_enqueue : x ∈ enqueue marked queue ys ↔ x ∈ queue ∨ (x ∈ ys ∧ x ∉ marked) := by
  induction ys using List.reverseRecOn with
  | nil => simp
  | append_singleton ys y ih =>
    rw [enqueue_append_singleton, mem_offer, ih, List.mem_append, List.mem_singleton]
    constructor
    · rintro ((hx | ⟨hx, hm⟩) | ⟨rfl, hm⟩)
      · exact .inl hx
      · exact .inr ⟨.inl hx, hm⟩
      · exact .inr ⟨.inr rfl, hm⟩
    · rintro (hx | ⟨hx | rfl, hm⟩)
      · exact .inl (.inl hx)
      · exact .inl (.inr ⟨hx, hm⟩)
      · exact .inr ⟨rfl, hm⟩

end Enqueue

/-- A search from `start`, with `before` marked before. -/
structure Search (before : Set α) (start : α) (marked queue : List α) : Prop where
  kept : ∀ x ∈ before, x ∈ marked
  started : start ∈ marked ∨ start ∈ queue
  sound : ∀ x, x ∈ marked ∨ x ∈ queue → x ∈ before ∨ Reaches succ start x
  explored : ∀ x ∈ marked, ∀ y ∈ succ x, y ∈ marked ∨ y ∈ queue
  waiting : ∀ x ∈ queue, x ∉ marked

namespace Search

variable {succ : α → List α} {before : Set α} {start x : α} {marked queue : List α}

/-- The beginning: a closed set is marked and the start is on the queue. -/
theorem init (h : Closed succ {x | x ∈ marked}) (hstart : start ∉ marked) :
    Search succ {x | x ∈ marked} start marked [start] where
  kept _ hx := hx
  started := .inr (List.mem_singleton.2 rfl)
  sound x hx := hx.imp id fun hx => by rw [List.mem_singleton.1 hx]
  explored x hx y hy := .inl (h x hx y hy)
  waiting x hx := List.mem_singleton.1 hx ▸ hstart

/-- One round. -/
theorem step [DecidableEq α] (h : Search succ before start marked (x :: queue)) (hqueue : (x :: queue).Nodup) :
    Search succ before start (x :: marked) (enqueue (x :: marked) queue (succ x)) where
  kept y hy := List.mem_cons_of_mem _ (h.kept y hy)
  started := by
    rcases h.started with hs | hs
    · exact .inl (List.mem_cons_of_mem _ hs)
    · rcases List.mem_cons.1 hs with rfl | hs
      · exact .inl List.mem_cons_self
      · exact .inr (mem_enqueue.2 (.inl hs))
  sound y hy := by
    have hx : x ∈ before ∨ Reaches succ start x := h.sound x (.inr List.mem_cons_self)
    rcases hy with hy | hy
    · rcases List.mem_cons.1 hy with rfl | hy
      · exact hx
      · exact h.sound y (.inl hy)
    · rcases mem_enqueue.1 hy with hy | ⟨hy, hm⟩
      · exact h.sound y (.inr (List.mem_cons_of_mem _ hy))
      · -- a node on the queue is not marked, so it is none of `before`
        rcases hx with hb | hr
        · exact absurd (h.kept x hb) (h.waiting x List.mem_cons_self)
        · exact .inr (hr.tail hy)
  explored y hy z hz := by
    rcases List.mem_cons.1 hy with rfl | hy
    · by_cases hm : z ∈ y :: marked
      · exact .inl hm
      · exact .inr (mem_enqueue.2 (.inr ⟨hz, hm⟩))
    · rcases h.explored y hy z hz with hm | hq
      · exact .inl (List.mem_cons_of_mem _ hm)
      · rcases List.mem_cons.1 hq with rfl | hq
        · exact .inl List.mem_cons_self
        · exact .inr (mem_enqueue.2 (.inl hq))
  waiting y hy := by
    rcases mem_enqueue.1 hy with hq | ⟨-, hm⟩
    · intro hm
      rcases List.mem_cons.1 hm with heq | hm
      · exact (List.nodup_cons.1 hqueue).1 (heq ▸ hq)
      · exact h.waiting y (List.mem_cons_of_mem _ hq) hm
    · exact hm

/-- The end: the queue is empty. -/
theorem finish (h : Search succ before start marked []) :
    Closed succ {x | x ∈ marked} ∧
      ∀ x, x ∈ marked ↔ x ∈ before ∨ Reaches succ start x := by
  have hclosed : Closed succ {x | x ∈ marked} := fun x hx y hy =>
    (h.explored x hx y hy).resolve_right (List.not_mem_nil)
  have hstart : start ∈ marked := h.started.resolve_right List.not_mem_nil
  refine ⟨hclosed, fun x => ⟨fun hx => h.sound x (.inl hx), ?_⟩⟩
  rintro (hx | hx)
  · exact h.kept x hx
  · exact hclosed.reaches hstart hx

end Search

end Marking
