import LamaRv.Compiler.Heights

/-!
# What the worklist emits

The emitted instructions are those reachable from the public symbols, and the labels of the
output are the labels of the data section, one label for each emitted offset and the names of the
emitted functions.

* `ReachInv`: the invariant of a run; `Run.begins`: functions are emitted once;
* `Module.Linked`: what the labels need of a module;
* `Completes.emitted_iff`, `Completes.count_labelForIp`, `Completes.count_public`: what stands in the
  output when the worklist has ended.
-/

namespace LamaRv

open Rv64 CodeBuffer Compiler

variable {m : Module}

/-- The labels of the text: the data section, the emitted offsets, the names of the functions. -/
def labelsOfRun (m : Module) (log : List Emission) (c : Compiler) : List String :=
  m.headerLabels ++ (c.done.keys.map labelForIp ++ log.flatMap (·.inst.nameLabels))

/-- What holds of the emitted instructions all through a run. -/
structure ReachInv (m : Module) (log : List Emission) (es : List (ℕ × Instruction))
    (c : Compiler) : Prop where
  done : ∀ k, k ∈ c.done ↔ ∃ e ∈ log, e.offset = k
  reach : ∀ e ∈ log, m.Reachable e.offset
  todo : ∀ k v, c.todo.lookup k = some v → m.Reachable k
  head : ∀ p ∈ es.head?, m.Reachable p.1
  fresh : ∀ p ∈ es.head?, p.1 ∉ c.done ∨
    ∃ e ∈ log, e.inst.isTerminator = false ∧ m.instructions.next? e.offset = some p.1
  labels : (labelsOf c.cb).Perm (labelsOfRun m log c)
  jumps : ∀ l ∈ jumpsOf c.cb, ∃ e ∈ log, ∃ t, e.inst.jumpTarget = some t ∧ l = labelForIp t

section Emit

variable {log : List Emission} {o : ℕ} {i : Instruction} {rest es : List (ℕ × Instruction)}
  {c c₁ c₂ c₃ : Compiler}

theorem Opened.mem_done (h : Opened c o c₁) (k : ℕ) : k ∈ c₁.done ↔ k = o ∨ k ∈ c.done := by
  rcases h.done with ⟨-, hd, -⟩ | ⟨hl, hd, -⟩
  · rw [hd, AList.mem_insert]
  · rw [hd]
    refine ⟨.inr, ?_⟩
    rintro (rfl | hk)
    · exact AList.lookup_isSome.1 (by rw [hl]; rfl)
    · exact hk

/-- The labels that a call of `emit_code` adds. -/
theorem labels_emit (h : (labelsOf c.cb).Perm (labelsOfRun m log c)) (hop : Opened c o c₁)
    (heff : i.Effect c₁ c₂) :
    (labelsOf c₂.cb).Perm (labelsOfRun m (⟨o, i, c₁, c₂⟩ :: log) c₂) := by
  obtain ⟨T, hT, hlabels, -⟩ := heff.grows.text
  have hkeys : (labelsOf c₁.cb).Perm
      (m.headerLabels ++ (c₁.done.keys.map labelForIp ++ log.flatMap (·.inst.nameLabels))) := by
    rcases hop.done with ⟨hl, hd, x, hx⟩ | ⟨-, hd, x, y, hx⟩
    · have hnot : o ∉ c.done.keys := fun hk => (AList.lookup_eq_none.1 hl) (AList.mem_keys.2 hk)
      rw [hx, hd, AList.keys_insert, List.erase_of_not_mem hnot, labelsOf_append, List.map_cons,
        List.cons_append]
      refine (List.perm_append_comm.trans (h.cons _)).trans ?_
      exact List.perm_middle.symm
    · rw [hx, hd, labelsOf_append]
      have hno : labelsOf [.comment x, .comment y] = [] := rfl
      rw [hno, List.append_nil]
      exact h
  rw [hT, labelsOf_append, hlabels]
  unfold labelsOfRun
  rw [heff.grows.done, List.flatMap_cons]
  refine (hkeys.append_right _).trans ?_
  rw [List.append_assoc, List.append_assoc]
  exact ((List.perm_append_comm.append_left _).append_left _)

theorem ReachInv.emit (h : ReachInv m log ((o, i) :: rest) c) (hat : m.instructions.at? o = some i)
    (hop : Opened c o c₁) (heff : i.Effect c₁ c₂) (hdone : c₃.done = c₂.done)
    (htodo : c₃.todo = c₂.todo) (hlabels : labelsOf c₃.cb = labelsOf c₂.cb)
    (hjumps : jumpsOf c₃.cb = jumpsOf c₂.cb)
    (hnext : ∀ p ∈ es.head?, i.isTerminator = false ∧ m.instructions.next? o = some p.1) :
    ReachInv m (⟨o, i, c₁, c₂⟩ :: log) es c₃ := by
  have hreach : m.Reachable o := h.head (o, i) rfl
  refine ⟨?_, ?_, ?_, ?_, ?_, ?_, ?_⟩
  · intro k
    rw [hdone, heff.grows.done, hop.mem_done, h.done k]
    simp [eq_comm]
  · rintro e (_ | ⟨_, he⟩)
    · exact hreach
    · exact h.reach e he
  · intro k v hk
    rw [htodo] at hk
    rcases heff.grows.gains k v hk with hk | hk
    · rw [hop.todo] at hk
      exact h.todo k v hk
    · simp only [Instruction.targets, List.mem_append, List.mem_map, Option.mem_toList,
        Prod.mk.injEq] at hk
      rcases hk with ⟨t, ht, rfl, -⟩ | ⟨t, ht, rfl, -⟩
      · exact hreach.succ (.jump hat ht)
      · exact hreach.call hat ht
  · intro p hp
    obtain ⟨ht, hn⟩ := hnext p hp
    exact hreach.succ (.fall hat ht hn)
  · intro p hp
    obtain ⟨ht, hn⟩ := hnext p hp
    exact .inr ⟨_, List.mem_cons_self, ht, hn⟩
  · rw [hlabels]
    have := labels_emit h.labels hop heff
    unfold labelsOfRun at this ⊢
    rwa [hdone]
  · intro l hl
    rw [hjumps] at hl
    obtain ⟨T, hT, -, hT'⟩ := heff.grows.text
    rw [hT, jumpsOf_append, hT', List.mem_append] at hl
    rcases hl with hl | hl
    · have hl : l ∈ jumpsOf c.cb := by
        rcases hop.done with ⟨-, -, x, hx⟩ | ⟨-, -, x, y, hx⟩ <;>
          simpa [hx, jumpsOf] using hl
      obtain ⟨e, he, hl⟩ := h.jumps l hl
      exact ⟨e, List.mem_cons_of_mem _ he, hl⟩
    · obtain ⟨t, ht, rfl⟩ := List.mem_map.1 hl
      exact ⟨_, List.mem_cons_self, t, by simpa using ht, rfl⟩

end Emit

/-- What is left in `todo` was there. -/
theorem lookup_takeEntry {c : Compiler} {o height k v : ℕ}
    (h : (takeEntry c o height).todo.lookup k = some v) : c.todo.lookup k = some v := by
  have h : (c.todo.erase o).lookup k = some v := h
  by_cases hko : k = o
  · subst hko
    rw [AList.lookup_erase] at h
    cases h
  · rwa [AList.lookup_erase_ne hko] at h

theorem Run.reachInv {log : List Emission} {es : List (ℕ × Instruction)} {c : Compiler}
    (h : Run m log es c) : ReachInv m log es c := by
  induction h with
  | start h =>
    obtain ⟨hdone, -, -, hlabels, hjumps, -, htodo⟩ := start_ok h
    refine ⟨?_, by simp, ?_, by simp, by simp, ?_, by simp [hjumps]⟩
    · simp [hdone]
    · intro k v hk
      obtain ⟨name, hname⟩ := htodo k v hk
      exact .isPublic hname
    · simp [hlabels, labelsOfRun, hdone]
  | stale _ hl hs ih =>
    exact ⟨ih.done, ih.reach, fun k v hk => ih.todo k v (lookup_takeEntry hk), by simp, by simp,
      ih.labels, ih.jumps⟩
  | @take log c offset height _ hl hs ih =>
    have hhead : ∀ p ∈ (m.instructions.suffix offset).head?, p.1 = offset := by
      rintro ⟨n, j⟩ hp
      cases hsuf : m.instructions.suffix offset with
      | nil =>
        rw [hsuf] at hp
        cases hp
      | cons q rest =>
        rw [hsuf] at hp
        cases hp
        exact (InstMap.at?_of_suffix_eq hsuf).1
    refine ⟨ih.done, ih.reach, fun k v hk => ih.todo k v (lookup_takeEntry hk), ?_, ?_,
      ih.labels, ih.jumps⟩
    · intro p hp
      rw [hhead p hp]
      exact ih.todo _ _ hl
    · intro p hp
      rw [hhead p hp]
      exact .inl (AList.lookup_eq_none.1 (shouldEmit_true (c := takeEntry c offset height) hs))
  | last hrun hopen hcode ht ih =>
    exact ih.emit (InstMap.at?_of_suffix hrun.heightInv.suffix) (openInst_ok hopen)
      (emitCode_ok hcode) rfl rfl (by simp [emit, emitComment, labelsOf])
      (by simp [emit, emitComment, jumpsOf]) (by simp)
  | next hrun hopen hcode ht ih =>
    refine ih.emit (InstMap.at?_of_suffix hrun.heightInv.suffix) (openInst_ok hopen)
      (emitCode_ok hcode) rfl rfl rfl rfl ?_
    intro p hp
    refine ⟨ht, ?_⟩
    rw [InstMap.next?_of_suffix hrun.heightInv.suffix, hp]
    rfl

/-! ### Functions are emitted once -/

/-- No path falls through into a function. -/
def Module.NoFallIntoBegin (m : Module) : Prop :=
  ∀ o n i j, m.Reachable o → m.instructions.at? o = some i → i.isTerminator = false →
    m.instructions.next? o = some n → m.instructions.at? n = some j → j.isBegin = false

theorem Run.begins {log : List Emission} {es : List (ℕ × Instruction)} {c : Compiler}
    (h : Run m log es c) (hfall : m.NoFallIntoBegin) :
    ∀ o j, m.instructions.at? o = some j → j.isBegin = true →
      (log.map (·.offset)).count o ≤ 1 := by
  -- a function that is about to be emitted has not been emitted
  have step : ∀ {log o i rest c}, Run m log ((o, i) :: rest) c →
      (∀ o j, m.instructions.at? o = some j → j.isBegin = true →
        (log.map (·.offset)).count o ≤ 1) →
      ∀ o' j, m.instructions.at? o' = some j → j.isBegin = true →
        (o :: log.map (·.offset)).count o' ≤ 1 := by
    intro log o i rest c hrun ih o' j hj hbegin
    by_cases hoo : o = o'
    · subst hoo
      rcases hrun.reachInv.fresh (o, i) rfl with hnew | ⟨e, he, ht, hn⟩
      · have hnot : o ∉ log.map (·.offset) := by
          intro hmem
          obtain ⟨e, he, heq⟩ := List.mem_map.1 hmem
          exact hnew ((hrun.reachInv.done o).2 ⟨e, he, heq⟩)
        rw [List.count_cons_self, List.count_eq_zero_of_not_mem hnot]
      · have := hfall e.offset o e.inst j (hrun.reachInv.reach e he) (hrun.heightInv.inst e he) ht
          hn hj
        rw [hbegin] at this
        cases this
    · rw [List.count_cons_of_ne hoo]
      exact ih o' j hj hbegin
  induction h with
  | start _ => simp
  | stale _ _ _ ih => exact ih
  | take _ _ _ ih => exact ih
  | last hrun _ _ _ ih => exact step hrun ih
  | next hrun _ _ _ ih => exact step hrun ih

/-! ### Labels -/

/-- What the labels need of a module.  `targets`: jumps and calls lead to instructions; `publics`
and `names`: the functions that carry a name are those at the public symbols (this is how the
reader makes them); `distinct` and `fresh`: the public names differ from each other and from the
labels that the compiler makes. -/
structure Module.Linked (m : Module) : Prop where
  targets : ∀ o i t, m.instructions.at? o = some i → (i.jumpTarget = some t ∨ i.callTarget = some t) →
    ∃ j, m.instructions.at? t = some j
  publics : ∀ name o, (name, o) ∈ m.publicSymbols →
    ∃ argc locc, m.instructions.at? o = some (.beginInst (.inl name) argc locc)
  names : ∀ name o argc locc, m.instructions.at? o = some (.beginInst (.inl name) argc locc) →
    (name, o) ∈ m.publicSymbols
  distinct : (m.publicSymbols.map Prod.fst).Nodup
  fresh : ∀ s ∈ m.publicSymbols, s.1 ∉ m.headerLabels ∧ (∀ o, s.1 ≠ labelForIp o) ∧
    ∀ o, s.1 ≠ "closure@" ++ formatHex10 o

theorem Module.Linked.at?_of_reachable (hm : m.Linked) {o : ℕ} (h : m.Reachable o) :
    ∃ j, m.instructions.at? o = some j := by
  cases h with
  | isPublic hp =>
    obtain ⟨argc, locc, hat⟩ := hm.publics _ _ hp
    exact ⟨_, hat⟩
  | succ _ hs =>
    cases hs with
    | fall _ _ hn => exact InstMap.at?_of_next? hn
    | jump hat ht => exact hm.targets _ _ _ hat (.inl ht)
  | call _ hat ht => exact hm.targets _ _ _ hat (.inr ht)

/-- The labels of the data section are not labels of offsets. -/
theorem labelForIp_not_mem_headerLabels (o : ℕ) : labelForIp o ∉ m.headerLabels := by
  intro h
  rcases List.mem_cons.1 h with h | h
  · exact append_ne_append (p := ".lbc_") (q := "globals") (formatHex o) "" (by decide) (by decide)
      (by decide) (by rw [String.append_empty]; exact h)
  rcases List.mem_cons.1 h with h | h
  · exact append_ne_append (p := ".lbc_") (q := "fname") (formatHex o) "" (by decide) (by decide)
      (by decide) (by rw [String.append_empty]; exact h)
  obtain ⟨k, -, h⟩ := List.mem_map.1 h
  exact append_ne_append _ _ (by decide) (by decide) (by decide) h

/-- A label made of one that is not the name of a function. -/
theorem labelForIp_not_mem_nameLabels (hm : m.Linked) {e : Emission} (o : ℕ)
    (hat : m.instructions.at? e.offset = some e.inst) : labelForIp o ∉ e.inst.nameLabels := by
  intro h
  cases hi : e.inst with
  | beginInst id argc locc =>
    rw [hi] at h hat
    cases id with
    | inl name =>
      obtain rfl := List.mem_singleton.1 h
      exact (hm.fresh _ (hm.names _ _ _ _ hat)).2.1 o rfl
    | inr _ => cases h
  | cBegin offset argc locc =>
    rw [hi] at h
    exact append_ne_append _ _ (by decide) (by decide) (by decide) (List.mem_singleton.1 h)
  | _ =>
    rw [hi] at h
    cases h

/-- The name of a public function is the label of its own instruction only. -/
theorem count_nameLabels (hm : m.Linked) {e : Emission} {name : String} {o : ℕ}
    (hs : (name, o) ∈ m.publicSymbols) (hat : m.instructions.at? e.offset = some e.inst) :
    e.inst.nameLabels.count name = if e.offset = o then 1 else 0 := by
  obtain ⟨argc, locc, hbegin⟩ := hm.publics _ _ hs
  by_cases ho : e.offset = o
  · rw [ho, hbegin] at hat
    rw [if_pos ho, ← Option.some.inj hat]
    exact List.count_singleton_self
  · rw [if_neg ho]
    refine List.count_eq_zero_of_not_mem fun hmem => ho ?_
    cases hi : e.inst with
    | beginInst id argc' locc' =>
      rw [hi] at hmem hat
      cases id with
      | inl name' =>
        obtain rfl := List.mem_singleton.1 hmem
        have hs' := hm.names _ _ _ _ hat
        exact congrArg Prod.snd (List.inj_on_of_nodup_map hm.distinct hs' hs rfl)
      | inr _ => cases hmem
    | cBegin offset argc' locc' =>
      rw [hi] at hmem
      exact absurd (List.mem_singleton.1 hmem) ((hm.fresh _ hs).2.2 offset)
    | _ =>
      rw [hi] at hmem
      cases hmem

theorem count_flatMap_nameLabels {log : List Emission} {name : String} {o : ℕ}
    (h : ∀ e ∈ log, e.inst.nameLabels.count name = if e.offset = o then 1 else 0) :
    (log.flatMap (·.inst.nameLabels)).count name = (log.map (·.offset)).count o := by
  induction log with
  | nil => rfl
  | cons e log ih =>
    rw [List.flatMap_cons, List.count_append, h e List.mem_cons_self, List.map_cons, List.count_cons,
      ih fun e' he' => h e' (List.mem_cons_of_mem _ he')]
    simp only [beq_iff_eq]
    omega

section Complete

variable {log : List Emission} {c : Compiler}

/-- The emitted instructions are the reachable ones. -/
theorem Completes.emitted_iff (h : Completes m log c) (hm : m.Linked) (o : ℕ) :
    (∃ e ∈ log, e.offset = o) ↔ m.Reachable o := by
  constructor
  · rintro ⟨e, he, rfl⟩
    exact h.1.reachInv.reach e he
  · intro hr
    have recorded : ∀ {o v}, c.done.lookup o = some v → ∃ e ∈ log, e.offset = o := fun hv =>
      (h.1.reachInv.done _).1 (AList.lookup_isSome.1 (by rw [hv]; rfl))
    induction hr with
    | isPublic hs =>
      exact recorded (h.done_public hs (hm.at?_of_reachable (.isPublic hs)))
    | succ hr hs ih =>
      obtain ⟨e, he, rfl⟩ := ih
      exact recorded (h.done_succ he hs (hm.at?_of_reachable (hr.succ hs)))
    | call hr hat ht ih =>
      obtain ⟨e, he, rfl⟩ := ih
      have hinst := h.1.heightInv.inst e he
      rw [hat] at hinst
      cases hinst
      exact recorded (h.done_call he ht (hm.at?_of_reachable (hr.call hat ht)))

/-- Each emitted offset has one label. -/
theorem Completes.count_labelForIp (h : Completes m log c) (hm : m.Linked) {o : ℕ}
    (ho : m.Reachable o) : (labelsOf c.cb).count (labelForIp o) = 1 := by
  have hnames : labelForIp o ∉ log.flatMap (·.inst.nameLabels) := by
    intro hmem
    obtain ⟨e, he, hmem⟩ := List.mem_flatMap.1 hmem
    exact labelForIp_not_mem_nameLabels hm o (h.1.heightInv.inst e he) hmem
  have hdone : o ∈ c.done.keys :=
    AList.mem_keys.1 ((h.1.reachInv.done o).2 ((h.emitted_iff hm o).2 ho))
  have hinj : Function.Injective labelForIp := fun _ _ => labelForIp_inj
  rw [h.1.reachInv.labels.count_eq, labelsOfRun, List.count_append, List.count_append,
    List.count_eq_zero_of_not_mem (labelForIp_not_mem_headerLabels o),
    List.count_eq_zero_of_not_mem hnames, List.count_map_of_injective _ _ hinj,
    List.count_eq_one_of_mem c.done.keys_nodup hdone]

/-- Each public symbol has one label. -/
theorem Completes.count_public (h : Completes m log c) (hm : m.Linked) (hfall : m.NoFallIntoBegin)
    {s : String × ℕ} (hs : s ∈ m.publicSymbols) : (labelsOf c.cb).count s.1 = 1 := by
  obtain ⟨name, o⟩ := s
  obtain ⟨hheader, hlabel, -⟩ := hm.fresh _ hs
  obtain ⟨argc, locc, hat⟩ := hm.publics _ _ hs
  have hoffsets : name ∉ c.done.keys.map labelForIp := by
    intro hmem
    obtain ⟨k, -, hk⟩ := List.mem_map.1 hmem
    exact hlabel k hk.symm
  have hone : (log.map (·.offset)).count o = 1 := by
    refine le_antisymm (h.1.begins hfall o _ hat rfl) (List.count_pos_iff.2 ?_)
    obtain ⟨e, he, heq⟩ := (h.emitted_iff hm o).2 (.isPublic hs)
    exact List.mem_map.2 ⟨e, he, heq⟩
  rw [h.1.reachInv.labels.count_eq, labelsOfRun, List.count_append, List.count_append,
    List.count_eq_zero_of_not_mem hheader, List.count_eq_zero_of_not_mem hoffsets,
    count_flatMap_nameLabels fun e he => count_nameLabels hm hs (h.1.heightInv.inst e he), hone]

/-- A reachable offset has a label. -/
theorem Completes.mem_labels (h : Completes m log c) (hm : m.Linked) {o : ℕ}
    (ho : m.Reachable o) : labelForIp o ∈ labelsOf c.cb :=
  List.count_pos_iff.1 (by rw [h.count_labelForIp hm ho]; exact Nat.one_pos)

end Complete

end LamaRv
