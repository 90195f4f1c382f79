import LamaRv.Compiler.EmitSpec

/-!
# Control flow of a module

The successors of an instruction within its function, and the instructions that the emitter can
come to from the public symbols.

* `InstMap.next?`: the offset after another one in the map;
* `Module.Succ`: fall-through and jumps; `Module.Flow`: its reflexive transitive closure;
* `Module.Reachable`: from a public symbol through fall-through, jumps and calls.
-/

namespace LamaRv

namespace InstMap

variable {m : InstMap} {o n : ℕ} {i j : Instruction} {rest : List (ℕ × Instruction)}

/-- The offset of the next instruction. -/
def next? (m : InstMap) (o : ℕ) : Option ℕ := (m.suffix o)[1]?.map (·.1)

theorem suffix_isSuffix (m : InstMap) (o : ℕ) : m.suffix o <:+ m.entries :=
  List.dropWhile_suffix _

/-- A suffix of the entries starts at the offset of its head. -/
theorem suffix_eq (h : (o, i) :: rest <:+ m.entries) : m.suffix o = (o, i) :: rest := by
  obtain ⟨pre, hpre⟩ := h
  have hsorted := m.sorted
  rw [← hpre, List.pairwise_append] at hsorted
  have hlt : ∀ p ∈ pre, p.1 ≠ o := by
    intro p hp
    have := hsorted.2.2 p hp (o, i) (by simp)
    exact this.ne
  unfold suffix
  rw [← hpre, List.dropWhile_append_of_pos (by simpa using hlt), List.dropWhile_cons_of_neg (by simp)]

theorem at?_of_mem (h : (o, i) ∈ m.entries) : m.at? o = some i := by
  obtain ⟨pre, rest, hpre⟩ := List.append_of_mem h
  have hsorted := m.sorted
  rw [hpre, List.pairwise_append] at hsorted
  have hlt : ∀ p ∈ pre, p.1 ≠ o := by
    intro p hp
    have := hsorted.2.2 p hp (o, i) (by simp)
    exact this.ne
  unfold at?
  rw [hpre]
  clear hpre hsorted h
  induction pre with
  | nil => simp
  | cons p pre ih =>
    have hp : (o == p.1) = false := by simpa using (hlt p (by simp)).symm
    rw [List.cons_append, List.lookup_cons, hp]
    exact ih (fun q hq => hlt q (by simp [hq]))

theorem mem_of_at? (h : m.at? o = some i) : (o, i) ∈ m.entries := by
  unfold at? at h
  rw [List.lookup_eq_some_iff] at h
  obtain ⟨pre, rest, hpre, -⟩ := h
  rw [hpre]
  simp

theorem suffix_of_at? (h : m.at? o = some i) : ∃ rest, m.suffix o = (o, i) :: rest := by
  obtain ⟨pre, rest, hpre⟩ := List.append_of_mem (mem_of_at? h)
  exact ⟨rest, suffix_eq ⟨pre, hpre.symm⟩⟩

/-- The head of a suffix of the entries. -/
theorem at?_of_suffix (h : (o, i) :: rest <:+ m.entries) : m.at? o = some i :=
  at?_of_mem (h.subset (by simp))

theorem next?_of_suffix (h : (o, i) :: rest <:+ m.entries) : m.next? o = rest.head?.map (·.1) := by
  unfold next?
  rw [suffix_eq h]
  cases rest <;> rfl

/-- The next offset is in the map. -/
theorem at?_of_next? (h : m.next? o = some n) : ∃ j, m.at? n = some j := by
  unfold next? at h
  obtain ⟨⟨n', j⟩, hj, rfl⟩ := Option.map_eq_some_iff.1 h
  exact ⟨j, at?_of_mem ((suffix_isSuffix m o).subset (List.mem_of_getElem? hj))⟩

theorem at?_of_suffix_eq (h : m.suffix o = (n, j) :: rest) : n = o ∧ m.at? o = some j := by
  have hn : n = o := by
    have hhead := List.head?_dropWhile_not (fun p : ℕ × Instruction => decide (p.1 ≠ o)) m.entries
    unfold suffix at h
    rw [h] at hhead
    simpa using hhead
  subst hn
  exact ⟨rfl, at?_of_suffix (h ▸ suffix_isSuffix m n)⟩

end InstMap

namespace Module

variable {m : Module}

/-- `o'` follows `o` within a function. -/
inductive Succ (m : Module) (o o' : ℕ) : Prop
  | fall {i} : m.instructions.at? o = some i → i.isTerminator = false →
      m.instructions.next? o = some o' → Succ m o o'
  | jump {i} : m.instructions.at? o = some i → i.jumpTarget = some o' → Succ m o o'

/-- Control can flow from `o` to `o'` within a function. -/
def Flow (m : Module) : ℕ → ℕ → Prop := Relation.ReflTransGen m.Succ

/-- What the emitter can come to from the public symbols. -/
inductive Reachable (m : Module) : ℕ → Prop
  | isPublic {name o} : (name, o) ∈ m.publicSymbols → Reachable m o
  | succ {o o'} : Reachable m o → m.Succ o o' → Reachable m o'
  | call {o i t} : Reachable m o → m.instructions.at? o = some i → i.callTarget = some t →
      Reachable m t

end Module

end LamaRv
