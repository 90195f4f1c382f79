import LamaRv.Compiler.OutputText

/-!
# The labels of the output

When the worklist ends, the emitted instructions are the reachable ones, and the text that has been
printed defines what is called and jumped to, each label once.

* `worklist_complete`: the worklist ends and is complete;
* `plain_labels_fail`: names without a function, names of the data section, and strings with newlines.
-/

namespace LamaRv

open Rv64 CodeBuffer Compiler AsmText

variable {m : Module} {log : List Emission} {c : Compiler}

theorem Completes.outputLabels (h : Completes m log c) (hm : m.Printable) :
    m.outputLabels c = labelsOf c.cb := h.1.outputLabels hm

/-- **The worklist ends and is complete.**  Whatever entries the outer loop takes, it ends.  When
it ends without a failed check, for a linked module in which no path falls through into a
function, the emitted instructions are the reachable ones.  When moreover its names and strings add
nothing to the labels, the text of the output defines the label of each of them once, and that of each
public symbol, and it defines the labels of the emitted jumps, branches and calls. -/
theorem worklist_complete (m : Module) :
    WellFounded (fun c' c => Round m c c') ∧
    ∀ log c, Completes m log c → m.Linked → m.NoFallIntoBegin →
      (∀ o, (∃ e ∈ log, e.offset = o) ↔ m.Reachable o) ∧
      (m.Printable →
        (∀ o, m.Reachable o → (m.outputLabels c).count (labelForIp o) = 1) ∧
        (∀ s ∈ m.publicSymbols, (m.outputLabels c).count s.1 = 1) ∧
        (∀ l ∈ jumpsOf c.cb, l ∈ m.outputLabels c) ∧
        (∀ e ∈ log, ∀ t argc, e.inst = .call (.inr t) argc → labelForIp t ∈ m.outputLabels c)) := by
  refine ⟨Round.wellFounded m, fun log c h hm hfall => ⟨h.emitted_iff hm, fun hprint => ?_⟩⟩
  rw [h.outputLabels hprint]
  refine ⟨fun o ho => h.count_labelForIp hm ho, fun s hs => h.count_public hm hfall hs, ?_, ?_⟩
  · intro l hl
    obtain ⟨e, he, t, ht, rfl⟩ := h.1.reachInv.jumps l hl
    exact h.mem_labels hm ((h.1.reachInv.reach e he).succ (.jump (h.1.heightInv.inst e he) ht))
  · intro e he t argc hcall
    refine h.mem_labels hm ((h.1.reachInv.reach e he).call (h.1.heightInv.inst e he) ?_)
    rw [hcall]
    rfl

/-! ### Programs -/

theorem loopAndCall_linked : loopAndCall.Linked where
  targets := by
    intro o i t hat ht
    have hmem := InstMap.mem_of_at? hat
    simp only [loopAndCall, List.mem_cons, Prod.mk.injEq, List.not_mem_nil, or_false] at hmem
    rcases hmem with ⟨-, rfl⟩ | ⟨-, rfl⟩ | ⟨-, rfl⟩ | ⟨-, rfl⟩ | ⟨-, rfl⟩ | ⟨-, rfl⟩ | ⟨-, rfl⟩ |
      ⟨-, rfl⟩ | ⟨-, rfl⟩ <;>
      simp only [Instruction.jumpTarget, Instruction.callTarget, reduceCtorEq, or_self,
        Option.some.injEq, or_false, false_or] at ht
    all_goals
      subst ht
      exact ⟨_, rfl⟩
  publics := by
    intro name o hs
    obtain ⟨rfl, rfl⟩ := Prod.mk.inj (List.mem_singleton.1 hs)
    exact ⟨2, 0, rfl⟩
  names := by
    intro name o argc locc hat
    have hmem := InstMap.mem_of_at? hat
    simp [loopAndCall] at hmem
    simp [loopAndCall, hmem]
  distinct := List.nodup_singleton _
  fresh := by
    intro s hs
    rw [List.mem_singleton.1 hs]
    exact ⟨by decide, fun o => (labelForIp_ne_main o).symm, fun o => (closure_ne_main _).symm⟩

theorem loopAndCall_noFall : loopAndCall.NoFallIntoBegin := by
  intro o n i j _ hat ht hn hj
  have hmem := InstMap.mem_of_at? hat
  simp only [loopAndCall, List.mem_cons, Prod.mk.injEq, List.not_mem_nil, or_false] at hmem
  rcases hmem with ⟨rfl, rfl⟩ | ⟨rfl, rfl⟩ | ⟨rfl, rfl⟩ | ⟨rfl, rfl⟩ | ⟨rfl, rfl⟩ | ⟨rfl, rfl⟩ |
    ⟨rfl, rfl⟩ | ⟨rfl, rfl⟩ | ⟨rfl, rfl⟩ <;> cases ht <;> cases hn <;> cases hj <;> rfl

theorem loopAndCall_printable : loopAndCall.Printable where
  texts := by decide
  instructions := by
    intro o i hat
    have hmem := InstMap.mem_of_at? hat
    simp only [loopAndCall, List.mem_cons, Prod.mk.injEq, List.not_mem_nil, or_false] at hmem
    rcases hmem with ⟨-, rfl⟩ | ⟨-, rfl⟩ | ⟨-, rfl⟩ | ⟨-, rfl⟩ | ⟨-, rfl⟩ | ⟨-, rfl⟩ | ⟨-, rfl⟩ |
      ⟨-, rfl⟩ | ⟨-, rfl⟩ <;> first | trivial | exact show Symbol _ by decide

theorem worklist_complete_loopAndCall : ∃ log c, Completes loopAndCall log c ∧
    (loopAndCall.outputLabels c).count "main" = 1 ∧ ∀ l ∈ jumpsOf c.cb, l ∈ loopAndCall.outputLabels c := by
  obtain ⟨c, hc⟩ := loopAndCall_emits
  obtain ⟨log, hlog⟩ := emits_iff.1 hc
  obtain ⟨-, hlabels⟩ :=
    (worklist_complete loopAndCall).2 log c hlog loopAndCall_linked loopAndCall_noFall
  obtain ⟨-, hpublic, hjumps, -⟩ := hlabels loopAndCall_printable
  exact ⟨log, c, hlog, hpublic ("main", 0) (List.mem_singleton.2 rfl), hjumps⟩

/-- What a symbol table and an instruction map can satisfy without any relation between the names
and the functions. -/
structure Module.Plain (m : Module) : Prop where
  targets : ∀ o i t, m.instructions.at? o = some i → (i.jumpTarget = some t ∨ i.callTarget = some t) →
    ∃ j, m.instructions.at? t = some j
  publics : ∀ s ∈ m.publicSymbols, ∃ j, m.instructions.at? s.2 = some j
  distinct : (m.publicSymbols.map Prod.fst).Nodup
  ends : ∀ o i, m.instructions.at? o = some i → i.isTerminator = false →
    ∃ n, m.instructions.next? o = some n
  noFall : m.NoFallIntoBegin

/-- A public symbol at a jump. -/
def symbolAtJump : Module where
  filename := "jump.bc"
  instructions := ⟨[(0, .jump 0)], by decide⟩
  strings := []
  globalAreaSize := 0
  publicSymbols := [("main", 0)]

/-- A public function with the name of a label of the data section. -/
def symbolGlobals : Module where
  filename := "globals.bc"
  instructions := ⟨[(0, .beginInst (.inl "globals") 0 0), (9, .const 1), (14, .endInst)], by decide⟩
  strings := []
  globalAreaSize := 0
  publicSymbols := [("globals", 0)]

theorem symbolAtJump_plain : symbolAtJump.Plain where
  targets := by
    intro o i t hat ht
    obtain ⟨rfl, rfl⟩ := Prod.mk.inj (List.mem_singleton.1 (InstMap.mem_of_at? hat))
    rcases ht with ht | ht <;> cases ht
    exact ⟨_, rfl⟩
  publics := by
    intro s hs
    rw [List.mem_singleton.1 hs]
    exact ⟨_, rfl⟩
  distinct := List.nodup_singleton _
  ends := by
    intro o i hat ht
    obtain ⟨rfl, rfl⟩ := Prod.mk.inj (List.mem_singleton.1 (InstMap.mem_of_at? hat))
    cases ht
  noFall := by
    intro o n i j _ hat ht
    obtain ⟨rfl, rfl⟩ := Prod.mk.inj (List.mem_singleton.1 (InstMap.mem_of_at? hat))
    cases ht

theorem symbolGlobals_plain : symbolGlobals.Plain where
  targets := by
    intro o i t hat ht
    have hmem := InstMap.mem_of_at? hat
    simp only [symbolGlobals, List.mem_cons, Prod.mk.injEq, List.not_mem_nil, or_false] at hmem
    rcases hmem with ⟨-, rfl⟩ | ⟨-, rfl⟩ | ⟨-, rfl⟩ <;> rcases ht with ht | ht <;> cases ht
  publics := by
    intro s hs
    rw [List.mem_singleton.1 hs]
    exact ⟨_, rfl⟩
  distinct := List.nodup_singleton _
  ends := by
    intro o i hat ht
    have hmem := InstMap.mem_of_at? hat
    simp only [symbolGlobals, List.mem_cons, Prod.mk.injEq, List.not_mem_nil, or_false] at hmem
    rcases hmem with ⟨rfl, rfl⟩ | ⟨rfl, rfl⟩ | ⟨rfl, rfl⟩
    · exact ⟨_, rfl⟩
    · exact ⟨_, rfl⟩
    · cases ht
  noFall := by
    intro o n i j _ hat ht hn hj
    have hmem := InstMap.mem_of_at? hat
    simp only [symbolGlobals, List.mem_cons, Prod.mk.injEq, List.not_mem_nil, or_false] at hmem
    rcases hmem with ⟨rfl, rfl⟩ | ⟨rfl, rfl⟩ | ⟨rfl, rfl⟩ <;> cases ht <;> cases hn <;> cases hj <;> rfl

/-- A string that looks like a line with a label. -/
def stringLabel : Module where
  filename := "string.bc"
  instructions := ⟨[(0, .beginInst (.inl "f") 0 0), (9, .string 0 "x\n.lbc_0x0:"), (14, .endInst)],
    by decide⟩
  strings := ["x\n.lbc_0x0:"]
  globalAreaSize := 0
  publicSymbols := [("f", 0)]

theorem symbolAtJump_printable : symbolAtJump.Printable where
  texts := by decide
  instructions := by
    intro o i hat
    obtain ⟨rfl, rfl⟩ := Prod.mk.inj (List.mem_singleton.1 (InstMap.mem_of_at? hat))
    trivial

theorem symbolGlobals_printable : symbolGlobals.Printable where
  texts := by decide
  instructions := by
    intro o i hat
    have hmem := InstMap.mem_of_at? hat
    simp only [symbolGlobals, List.mem_cons, Prod.mk.injEq, List.not_mem_nil, or_false] at hmem
    rcases hmem with ⟨-, rfl⟩ | ⟨-, rfl⟩ | ⟨-, rfl⟩ <;> first | trivial | exact show Symbol _ by decide

theorem stringLabel_plain : stringLabel.Plain where
  targets := by
    intro o i t hat ht
    have hmem := InstMap.mem_of_at? hat
    simp only [stringLabel, List.mem_cons, Prod.mk.injEq, List.not_mem_nil, or_false] at hmem
    rcases hmem with ⟨-, rfl⟩ | ⟨-, rfl⟩ | ⟨-, rfl⟩ <;> rcases ht with ht | ht <;> cases ht
  publics := by
    intro s hs
    rw [List.mem_singleton.1 hs]
    exact ⟨_, rfl⟩
  distinct := List.nodup_singleton _
  ends := by
    intro o i hat ht
    have hmem := InstMap.mem_of_at? hat
    simp only [stringLabel, List.mem_cons, Prod.mk.injEq, List.not_mem_nil, or_false] at hmem
    rcases hmem with ⟨rfl, rfl⟩ | ⟨rfl, rfl⟩ | ⟨rfl, rfl⟩
    · exact ⟨_, rfl⟩
    · exact ⟨_, rfl⟩
    · cases ht
  noFall := by
    intro o n i j _ hat ht hn hj
    have hmem := InstMap.mem_of_at? hat
    simp only [stringLabel, List.mem_cons, Prod.mk.injEq, List.not_mem_nil, or_false] at hmem
    rcases hmem with ⟨rfl, rfl⟩ | ⟨rfl, rfl⟩ | ⟨rfl, rfl⟩ <;> cases ht <;> cases hn <;> cases hj <;> rfl

theorem stringLabel_linked : stringLabel.Linked where
  targets := stringLabel_plain.targets
  publics := by
    intro name o hs
    obtain ⟨rfl, rfl⟩ := Prod.mk.inj (List.mem_singleton.1 hs)
    exact ⟨0, 0, rfl⟩
  names := by
    intro name o argc locc hat
    have hmem := InstMap.mem_of_at? hat
    simp [stringLabel] at hmem
    simp [stringLabel, hmem]
  distinct := stringLabel_plain.distinct
  fresh := by
    intro s hs
    rw [List.mem_singleton.1 hs]
    refine ⟨by decide, fun o => ?_, fun o => ?_⟩
    · exact append_ne_append (p := "f") "" (formatHex o) (by decide) (by decide) (by decide)
    · exact append_ne_append (p := "f") "" (formatHex10 o) (by decide) (by decide) (by decide)

/-- The comment with the string defines the label of the function a second time. -/
theorem stringLabel_twice : ∃ log c, Completes stringLabel log c ∧
    2 ≤ (stringLabel.outputLabels c).count (labelForIp 0) := by
  have hemits : ∃ c, Emits stringLabel c ∧ c.cb.take 13 = stringLabel.headerLines ∧
      (c.cb.drop 13)[19]? = some (.comment "-> STRING\tx\n.lbc_0x0:") ∧
      (∀ l ∈ (c.cb.drop 13).take 19, PrintableLine l) ∧
      (∀ l ∈ (c.cb.drop 13).drop 20, PrintableLine l) ∧
      labelForIp 0 ∈ labelsOf ((c.cb.drop 13).take 19) :=
    ⟨_, ⟨⟨_, rfl, .single (@Round.chunk _ _ 0 0 _ rfl rfl rfl)⟩, rfl⟩, by decide +kernel⟩
  obtain ⟨c, hc, hheader, hcomment, h₁, h₂, hfirst⟩ := hemits
  obtain ⟨log, hlog⟩ := emits_iff.1 hc
  refine ⟨log, c, hlog, ?_⟩
  have hcb : c.cb = stringLabel.headerLines ++ ((c.cb.drop 13).take 19 ++
      .comment "-> STRING\tx\n.lbc_0x0:" :: (c.cb.drop 13).drop 20) := by
    obtain ⟨hlt, hget⟩ := List.getElem?_eq_some_iff.1 hcomment
    rw [← hheader, ← hget, List.getElem_cons_drop, List.take_append_drop, List.take_append_drop]
  rw [outputLabels_of_comment (a := "-> STRING\tx".toList) (s := (labelForIp 0).toList) (by decide) hcb
    h₁ h₂ (by decide +kernel) (by decide) (symbol_labelForIp 0), String.ofList_toList,
    List.count_append, List.count_append, List.count_cons_self]
  have hone := List.count_pos_iff.2 hfirst
  omega

/-- Without a relation between public names and functions the label of a public symbol can be
missing, and with functions at the public symbols it can still be defined twice.  In a linked module
the label of an offset can be defined twice, by the text of a string. -/
theorem plain_labels_fail :
    (¬ ∀ (m : Module) (log : List Emission) (c : Compiler), Completes m log c → m.Plain →
      ∀ s ∈ m.publicSymbols, (m.outputLabels c).count s.1 = 1) ∧
    (¬ ∀ (m : Module) (log : List Emission) (c : Compiler), Completes m log c → m.Plain →
      (∀ name o, (name, o) ∈ m.publicSymbols →
        ∃ argc locc, m.instructions.at? o = some (.beginInst (.inl name) argc locc)) →
      ∀ s ∈ m.publicSymbols, (m.outputLabels c).count s.1 = 1) ∧
    ¬ ∀ (m : Module) (log : List Emission) (c : Compiler), Completes m log c → m.Plain → m.Linked →
      ∀ o, m.Reachable o → (m.outputLabels c).count (labelForIp o) = 1 := by
  refine ⟨fun h => ?_, fun h => ?_, fun h => ?_⟩
  · have hemits : ∃ c, Emits symbolAtJump c ∧ (labelsOf c.cb).count "main" = 0 :=
      ⟨_, ⟨⟨_, rfl, .single (@Round.chunk _ _ 0 0 _ rfl rfl rfl)⟩, rfl⟩, rfl⟩
    obtain ⟨c, hc, hzero⟩ := hemits
    obtain ⟨log, hlog⟩ := emits_iff.1 hc
    have hone := h _ log c hlog symbolAtJump_plain ("main", 0) (List.mem_singleton.2 rfl)
    rw [hlog.outputLabels symbolAtJump_printable, hzero] at hone
    cases hone
  · have hemits : ∃ c, Emits symbolGlobals c ∧ (labelsOf c.cb).count "globals" = 2 :=
      ⟨_, ⟨⟨_, rfl, .single (@Round.chunk _ _ 0 0 _ rfl rfl rfl)⟩, rfl⟩, rfl⟩
    obtain ⟨c, hc, htwo⟩ := hemits
    obtain ⟨log, hlog⟩ := emits_iff.1 hc
    have hone := h _ log c hlog symbolGlobals_plain (by
      intro name o hs
      obtain ⟨rfl, rfl⟩ := Prod.mk.inj (List.mem_singleton.1 hs)
      exact ⟨0, 0, rfl⟩) ("globals", 0) (List.mem_singleton.2 rfl)
    rw [hlog.outputLabels symbolGlobals_printable, htwo] at hone
    cases hone
  · obtain ⟨log, c, hlog, htwice⟩ := stringLabel_twice
    have hone := h _ log c hlog stringLabel_plain stringLabel_linked 0
      (.isPublic (List.mem_singleton.2 rfl) : stringLabel.Reachable 0)
    omega

end LamaRv
