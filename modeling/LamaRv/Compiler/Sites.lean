import LamaRv.Compiler.Completeness
import LamaRv.Compiler.Frames
import LamaRv.Lib.Rv64Pieces

/-!
# Where the code of an instruction stands

Each call of `emit_code` leaves its lines, with the two lines that open the instruction, at one
place of the output.  Falling through and jumping lead from such a place to another one.

* `SiteInv`: the invariant of a run of the worklist;
* `Completes.fall`, `Completes.target`: where the code after an instruction stands;
* `FunctionCode`: the code of a function; `FunctionCode.run`: what holds in its runs.
-/

namespace LamaRv

open Rv64 CodeBuffer Compiler

variable {m : Module}

namespace Emission

/-- The line at which the code of an instruction begins, with the lines that open it. -/
def site (e : Emission) : ℕ := e.before.cb.length - 2

/-- The code of an instruction. -/
def lines (e : Emission) : List Line := e.after.cb.drop e.site

/-- The code of `e'` follows that of `e` with nothing in between. -/
structure Precedes (e e' : Emission) : Prop where
  site : e'.site = e.after.cb.length
  st : e'.before.st = e.after.st
  frame : e'.before.currentFrame = e.after.currentFrame

/-- The two lines that open an instruction: its label, or a comment, and its text. -/
def Opens (e : Emission) (x : Line) : Prop := ∃ T y, e.before.cb = T ++ [x, .comment y]

theorem Opens.site {e : Emission} {x : Line} (h : e.Opens x) : e.before.cb.length = e.site + 2 := by
  obtain ⟨T, y, hT⟩ := h
  simp [Emission.site, hT]

end Emission

/-- What holds of the places all through a run of the worklist. -/
structure SiteInv (m : Module) (log : List Emission) (es : List (ℕ × Instruction))
    (c : Compiler) : Prop where
  code : ∀ e ∈ log, e.inst.emitCode e.before = .ok e.after
  text : ∀ e ∈ log, e.after.cb <+: c.cb
  opened : ∀ e ∈ log, e.Opens (.label (labelForIp e.offset)) ∨ ∃ t, e.Opens (.comment t)
  labelled : ∀ k ∈ c.done, ∃ e ∈ log, e.offset = k ∧ e.Opens (.label (labelForIp k))
  apart : log.Pairwise fun e e' => e'.after.cb.length ≤ e.site
  next : ∀ e ∈ log, e.inst.isTerminator = false → ∀ n, m.instructions.next? e.offset = some n →
    (∃ i rest, es = (n, i) :: rest ∧ c = e.after) ∨ ∃ e' ∈ log, e'.offset = n ∧ e.Precedes e'

section Emit

variable {log : List Emission} {o : ℕ} {i : Instruction} {rest es : List (ℕ × Instruction)}
  {c c₁ c₂ c₃ : Compiler}

/-- The text that an opened instruction stands after. -/
theorem Opened.text (h : Opened c o c₁) : ∃ x y, c₁.cb = c.cb ++ [x, .comment y] ∧
    ((x = .label (labelForIp o) ∧ c.done.lookup o = none) ∨
      (∃ t, x = .comment t) ∧ ∃ v, c.done.lookup o = some v) := by
  rcases h.done with ⟨hl, -, y, hy⟩ | ⟨hl, -, x, y, hy⟩
  · exact ⟨_, y, hy, .inl ⟨rfl, hl⟩⟩
  · exact ⟨_, y, hy, .inr ⟨⟨x, rfl⟩, _, hl⟩⟩

theorem SiteInv.emit (h : SiteInv m log ((o, i) :: rest) c) (hat : ((o, i) :: rest) <:+ m.instructions.entries)
    (hop : Opened c o c₁) (hcode : i.emitCode c₁ = .ok c₂) (hdone : c₃.done = c₂.done)
    (htext : c₂.cb <+: c₃.cb) (hnext : i.isTerminator = false → es = rest ∧ c₃ = c₂) :
    SiteInv m (⟨o, i, c₁, c₂⟩ :: log) es c₃ := by
  have hgrows := (emitCode_ok hcode).grows
  obtain ⟨U, hU, -⟩ := hgrows.text
  obtain ⟨x, y, hx, hkind⟩ := hop.text
  have hopens : Emission.Opens ⟨o, i, c₁, c₂⟩ x := ⟨c.cb, y, hx⟩
  have hsite : Emission.site ⟨o, i, c₁, c₂⟩ = c.cb.length := by simp [Emission.site, hx]
  have hpre : c.cb <+: c₃.cb := by
    refine (List.IsPrefix.trans ?_ htext)
    rw [hU, hx, List.append_assoc]
    exact List.prefix_append _ _
  refine ⟨?_, ?_, ?_, ?_, ?_, ?_⟩
  · rintro e (_ | ⟨_, he⟩)
    · exact hcode
    · exact h.code e he
  · rintro e (_ | ⟨_, he⟩)
    · exact htext
    · exact (h.text e he).trans hpre
  · rintro e (_ | ⟨_, he⟩)
    · rcases hkind with ⟨rfl, -⟩ | ⟨⟨t, rfl⟩, -⟩
      · exact .inl hopens
      · exact .inr ⟨t, hopens⟩
    · exact h.opened e he
  · intro k hk
    rw [hdone, hgrows.done, hop.mem_done] at hk
    have old : k ∈ c.done → ∃ e ∈ (⟨o, i, c₁, c₂⟩ : Emission) :: log, e.offset = k ∧
        e.Opens (.label (labelForIp k)) := by
      intro hk
      obtain ⟨e, he, hek⟩ := h.labelled k hk
      exact ⟨e, List.mem_cons_of_mem _ he, hek⟩
    rcases hk with rfl | hk
    · rcases hkind with ⟨rfl, -⟩ | ⟨-, v, hv⟩
      · exact ⟨_, List.mem_cons_self, rfl, hopens⟩
      · exact old (AList.lookup_isSome.1 (by rw [hv]; rfl))
    · exact old hk
  · refine List.pairwise_cons.2 ⟨fun e he => ?_, h.apart⟩
    rw [hsite]
    exact (h.text e he).length_le
  · rintro e (_ | ⟨_, he⟩) ht n hn
    · obtain ⟨rfl, rfl⟩ := hnext ht
      rw [InstMap.next?_of_suffix hat] at hn
      cases es with
      | nil => cases hn
      | cons p es' =>
        cases hn
        exact .inl ⟨p.2, es', rfl, rfl⟩
    · rcases h.next e he ht n hn with ⟨j, rest', heq, rfl⟩ | ⟨e', he', hprec⟩
      · cases heq
        exact .inr ⟨_, List.mem_cons_self, rfl, hsite, hop.st, hop.frame⟩
      · exact .inr ⟨e', List.mem_cons_of_mem _ he', hprec⟩

end Emit

theorem Run.siteInv {log : List Emission} {es : List (ℕ × Instruction)} {c : Compiler}
    (h : Run m log es c) : SiteInv m log es c := by
  induction h with
  | start h =>
    obtain ⟨hdone, -⟩ := start_ok h
    refine ⟨by simp, by simp, by simp, fun k hk => ?_, .nil, by simp⟩
    rw [hdone] at hk
    exact absurd hk (AList.notMem_empty k)
  | stale _ _ _ ih =>
    exact ⟨ih.code, ih.text, ih.opened, ih.labelled, ih.apart, fun e he ht n hn =>
      (ih.next e he ht n hn).elim (fun ⟨_, _, heq, _⟩ => by cases heq) .inr⟩
  | take _ _ _ ih =>
    exact ⟨ih.code, ih.text, ih.opened, ih.labelled, ih.apart, fun e he ht n hn =>
      (ih.next e he ht n hn).elim (fun ⟨_, _, heq, _⟩ => by cases heq) .inr⟩
  | last hrun hopen hcode ht ih =>
    exact ih.emit hrun.heightInv.suffix (openInst_ok hopen) hcode rfl (List.prefix_append _ _)
      (fun hf => absurd ht (by simp [hf]))
  | next hrun hopen hcode ht ih =>
    exact ih.emit hrun.heightInv.suffix (openInst_ok hopen) hcode rfl (List.prefix_refl _)
      (fun _ => ⟨rfl, rfl⟩)

/-! ### Places in the finished output -/

/-- A label that is defined once stands at one line. -/
theorem label_unique {T : Text} {l : String} {p q : ℕ} (h : (labelsOf T).count l = 1)
    (hp : T[p]? = some (.label l)) (hq : T[q]? = some (.label l)) : p = q := by
  have key : ∀ {p q : ℕ}, T[p]? = some (.label l) → T[q]? = some (.label l) → ¬ p < q := by
    intro p q hp hq hlt
    have hleft : l ∈ labelsOf (T.take q) :=
      mem_labelsOf.2 (List.mem_of_getElem? (i := p) (by rwa [List.getElem?_take_of_lt hlt]))
    have hright : l ∈ labelsOf (T.drop q) :=
      mem_labelsOf.2 (List.mem_of_getElem? (i := 0) (by rwa [List.getElem?_drop, Nat.add_zero]))
    rw [← List.take_append_drop q T, labelsOf_append, List.count_append] at h
    have h₁ := List.count_pos_iff.2 hleft
    have h₂ := List.count_pos_iff.2 hright
    omega
  exact le_antisymm (Nat.not_lt.1 (key hq hp)) (Nat.not_lt.1 (key hp hq))

section Completes

variable {log : List Emission} {c : Compiler} {e e' : Emission}

/-- The code of an instruction is the two lines that open it and what `emit_code` appended. -/
theorem Completes.lines (h : Completes m log c) (he : e ∈ log) : ∃ x y U,
    e.after.cb = e.before.cb ++ U ∧ e.lines = x :: .comment y :: U ∧
      e.before.cb.length = e.site + 2 ∧
      (x = .label (labelForIp e.offset) ∨ ∃ t, x = .comment t) := by
  obtain ⟨U, hU, -⟩ := (emitCode_ok (h.1.siteInv.code e he)).grows.text
  have key : ∀ x, e.Opens x → ∃ y, e.lines = x :: .comment y :: U := by
    rintro x ⟨T, y, hT⟩
    refine ⟨y, ?_⟩
    have hsite : e.site = T.length := by simp [Emission.site, hT]
    rw [Emission.lines, hU, hT, hsite, List.append_assoc, List.drop_left]
    rfl
  rcases h.1.siteInv.opened e he with hx | ⟨t, hx⟩
  · obtain ⟨y, hy⟩ := key _ hx
    exact ⟨_, y, U, hU, hy, hx.site, .inl rfl⟩
  · obtain ⟨y, hy⟩ := key _ hx
    exact ⟨_, y, U, hU, hy, hx.site, .inr ⟨t, rfl⟩⟩

theorem Completes.codeAt (h : Completes m log c) (he : e ∈ log) : CodeAt c.cb e.site e.lines := by
  obtain ⟨V, hV⟩ := h.1.siteInv.text e he
  obtain ⟨x, y, U, hU, -, hlen, -⟩ := h.lines he
  have hsite : e.site ≤ e.after.cb.length := by
    rw [hU, List.length_append]
    omega
  have hcode := codeAt_append_right (e.after.cb.take e.site) e.lines
  rw [Emission.lines, List.take_append_drop, List.length_take_of_le hsite] at hcode
  exact hV ▸ hcode.append V

theorem Completes.site_add_length (h : Completes m log c) (he : e ∈ log) :
    e.site + e.lines.length = e.after.cb.length := by
  obtain ⟨x, y, U, hU, hl, hlen, -⟩ := h.lines he
  rw [hl, hU, List.length_append, hlen]
  simp only [List.length_cons]
  omega

/-- Straight code at the start of an instruction runs, with any steps that include those of straight
lines. -/
theorem Completes.runs {E : Env} {K : Calls} {R : Config → Config → Prop} {U V : List Line}
    (h : Completes m log c) (he : e ∈ log) (hcode : e.after.cb = e.before.cb ++ (U ++ V))
    (hU : ∀ l ∈ U, l.straight)
    (hR : ∀ {a b l}, c.cb[a.pc]? = some l → l.straight → BodyStep E K c.cb a b → R a b) (s : State) :
    Relation.ReflTransGen R ⟨e.site, s⟩ ⟨e.site + 2 + U.length, execLines E.sym U s⟩ ∧
      CodeAt c.cb (e.site + 2 + U.length) V := by
  obtain ⟨x, y, U', hU', hlines, -, hx⟩ := h.lines he
  obtain rfl : U' = U ++ V := List.append_cancel_left (hU'.symm.trans hcode)
  have hat := h.codeAt he
  rw [hlines, show x :: .comment y :: (U ++ V) = [x, .comment y] ++ U ++ V by simp] at hat
  have hopen : ∀ l ∈ [x, .comment y], l.straight := by
    rcases hx with rfl | ⟨t, rfl⟩ <;> simp [Line.straight]
  have hnop : execLines E.sym [x, .comment y] s = s := by
    rcases hx with rfl | ⟨t, rfl⟩ <;> rfl
  have hlen : e.site + ([x, .comment y] ++ U).length = e.site + 2 + U.length := by
    simp only [List.length_append, List.length_cons, List.length_nil]
    omega
  have hrun := bodySteps_lines (E := E) (K := K) (s := s) hat.left
    (List.forall_mem_append.2 ⟨hopen, hU⟩) hR
  have hright := hat.right
  rw [execLines_append, hnop, hlen] at hrun
  rw [hlen] at hright
  exact ⟨hrun, hright⟩

/-- The places of two calls of `emit_code` are apart. -/
theorem Completes.eq_of_overlap (h : Completes m log c) (he : e ∈ log) (he' : e' ∈ log)
    (h₁ : e.site < e'.after.cb.length) (h₂ : e'.site < e.after.cb.length) : e = e' := by
  have key : ∀ {l : List Emission} {e e' : Emission},
      (l.Pairwise fun e e' => e'.after.cb.length ≤ e.site) → e ∈ l → e' ∈ l →
      e.site < e'.after.cb.length → e'.site < e.after.cb.length → e = e' := by
    intro l e e' hl he he' h₁ h₂
    induction hl with
    | nil => cases he
    | @cons a l ha hl ih =>
      rcases List.mem_cons.1 he with rfl | hl₁ <;> rcases List.mem_cons.1 he' with rfl | hl₂
      · rfl
      · have := ha _ hl₂
        omega
      · have := ha _ hl₁
        omega
      · exact ih hl₁ hl₂
  exact key h.1.siteInv.apart he he' h₁ h₂

/-- The pieces of the output: the places of all calls of `emit_code`. -/
def Completes.pieces (h : Completes m log c) : Pieces c.cb {e // e ∈ log} where
  start e := e.1.site
  code e := e.1.lines
  nonempty e := by
    obtain ⟨x, y, U, -, hl, -⟩ := h.lines e.2
    rw [hl]
    exact List.cons_ne_nil _ _
  codeAt e := h.codeAt e.2

/-- The instruction of an emission is that of the map. -/
theorem Completes.inst_at {o : ℕ} {i : Instruction} (h : Completes m log c) (he : e ∈ log)
    (ho : e.offset = o) (hat : m.instructions.at? o = some i) : e.inst = i := by
  subst ho
  exact Option.some.inj ((h.1.heightInv.inst e he).symm.trans hat)

/-- After an instruction that is no terminator stands the next one. -/
theorem Completes.fall {n : ℕ} (h : Completes m log c) (he : e ∈ log)
    (ht : e.inst.isTerminator = false) (hn : m.instructions.next? e.offset = some n) :
    ∃ e' ∈ log, e'.offset = n ∧ e.Precedes e' := by
  rcases h.1.siteInv.next e he ht n hn with ⟨_, _, heq, -⟩ | h
  · cases heq
  · exact h

/-- A reachable instruction stands where its label is. -/
theorem Completes.at_label {t q : ℕ} (h : Completes m log c) (hm : m.Linked) (ht : m.Reachable t)
    (hq : labelPos c.cb (labelForIp t) = some q) : ∃ e ∈ log, e.offset = t ∧ e.site = q := by
  obtain ⟨e', he', heq⟩ := (h.emitted_iff hm t).2 ht
  obtain ⟨e, he, rfl, hopens⟩ := h.1.siteInv.labelled t
    ((h.1.reachInv.done t).2 ⟨e', he', heq⟩)
  refine ⟨e, he, rfl, label_unique (h.count_labelForIp hm ht) ?_ (labelPos_spec hq)⟩
  obtain ⟨T, y, hT⟩ := hopens
  obtain ⟨x, y', U, hU, hl, -⟩ := h.lines he
  have hsite : e.site = T.length := by simp [Emission.site, hT]
  have hx : e.lines.head? = some (.label (labelForIp e.offset)) := by
    rw [Emission.lines, hU, hT, hsite, List.append_assoc, List.drop_left]
    rfl
  rw [hl] at hx
  have hcode := h.codeAt he
  rw [hl] at hcode
  exact hcode.head.trans hx

/-- The target of a jump stands where its label is. -/
theorem Completes.target {t q : ℕ} (h : Completes m log c) (hm : m.Linked) (he : e ∈ log)
    (ht : e.inst.jumpTarget = some t) (hq : labelPos c.cb (labelForIp t) = some q) :
    ∃ e' ∈ log, e'.offset = t ∧ e'.site = q :=
  h.at_label hm ((h.1.reachInv.reach e he).succ (.jump (h.1.heightInv.inst e he) ht)) hq

end Completes

/-! ### Runs of a function -/

/-- The function that begins at `b` with the frame `f`: control comes to no other `BEGIN` and does
not run off the end of the module. -/
structure Module.Function (m : Module) (b : ℕ) (f : FrameInfo) : Prop where
  begins : m.BeginAt b
  frame : m.frameAt b = some f
  entered : ∀ o o', m.Flow b o → m.Succ o o' → ¬ m.BeginAt o'
  ends : ∀ o i, m.Flow b o → m.instructions.at? o = some i → i.isTerminator = false →
    ∃ n, m.instructions.next? o = some n

/-- The code of the function that begins with the emission `e₀`, in the finished output. -/
structure FunctionCode (m : Module) (log : List Emission) (c : Compiler) (f : FrameInfo)
    (e₀ : Emission) : Prop where
  completes : Completes m log c
  linked : m.Linked
  function : m.Function e₀.offset f
  begins : e₀ ∈ log

namespace FunctionCode

variable {log : List Emission} {c : Compiler} {f : FrameInfo} {e e₀ : Emission}

/-- The emissions of the function. -/
def Emits (m : Module) (log : List Emission) (e₀ e : Emission) : Prop :=
  e ∈ log ∧ m.Flow e₀.offset e.offset

theorem isBegin (h : FunctionCode m log c f e₀) : e₀.inst.isBegin = true := by
  obtain ⟨i, hat, hi⟩ := h.function.begins
  have hinst := h.completes.1.heightInv.inst e₀ h.begins
  rw [hat] at hinst
  rwa [← Option.some.inj hinst]

theorem not_begin (h : FunctionCode m log c f e₀) {o : ℕ} (ho : m.Flow e₀.offset o)
    (he : e ∈ log) (hs : m.Succ o e.offset) : e.inst.isBegin = false := by
  cases hi : e.inst.isBegin with
  | false => rfl
  | true => exact absurd ⟨e.inst, h.completes.1.heightInv.inst e he, hi⟩ (h.function.entered o _ ho hs)

/-- The two lines that open the function. -/
theorem opening (h : FunctionCode m log c f e₀) (E : Env) (K : Calls) (s : State) :
    ∀ k < 2, ∃ l, c.cb[e₀.site + k]? = some l ∧ l.straight ∧
      BodyStep E K c.cb ⟨e₀.site + k, s⟩ ⟨e₀.site + k + 1, s⟩ := by
  obtain ⟨x, y, U, -, hlines, -, hx⟩ := h.completes.lines h.begins
  have hcode := h.completes.codeAt h.begins
  rw [hlines] at hcode
  intro k hk
  obtain rfl | rfl : k = 0 ∨ k = 1 := by omega
  · refine ⟨x, hcode.head, ?_⟩
    have hstraight : x.straight ∧ x.exec E.sym s = s := by
      rcases hx with rfl | ⟨t, rfl⟩ <;> exact ⟨rfl, rfl⟩
    have hstep := BodyStep.straight (E := E) (K := K) (s := s) hcode.head hstraight.1
    rw [hstraight.2] at hstep
    exact ⟨hstraight.1, hstep⟩
  · exact ⟨.comment y, hcode.tail.head, rfl, .straight hcode.tail.head rfl⟩

/-- No other instruction stands at these lines. -/
theorem eq_of_opening (h : FunctionCode m log c f e₀) {k : ℕ} (hk : k < 2) (he : e ∈ log)
    (hsite : e.site = e₀.site + k) : e = e₀ := by
  have hlen : ∀ {e}, e ∈ log → e.site + 2 ≤ e.after.cb.length := by
    intro e he
    obtain ⟨x, y, U, -, hlines, -⟩ := h.completes.lines he
    rw [← h.completes.site_add_length he, hlines]
    simp
  have := hlen he
  have := hlen h.begins
  exact h.completes.eq_of_overlap he h.begins (by omega) (by omega)

variable {E : Env} {K : Emission → Calls} {R : Config → Config → Prop} {A : State → Prop}
  {B : ℕ → State → Prop} {Q : Emission → State → Line → State → Prop}

/-- The assertion at the place of `e`: `A` at the `BEGIN`, `B` at the other instructions of the
function. -/
def Asserted (m : Module) (e₀ : Emission) (A : State → Prop) (B : ℕ → State → Prop)
    (e : Emission) (s : State) : Prop :=
  m.Flow e₀.offset e.offset ∧ ((e = e₀ ∧ A s) ∨ (e.inst.isBegin = false ∧ B e.offset s))

/-- The rules of the code of a function: that of its `BEGIN` is safe from `A`, that of each other
instruction is safe from `B`, when the run goes on there. -/
structure Rules (m : Module) (log : List Emission) (e₀ : Emission) (E : Env) (K : Emission → Calls)
    (R : Config → Config → Prop) (A : State → Prop) (B : ℕ → State → Prop)
    (Q : Emission → State → Line → State → Prop) : Prop where
  begins : ∀ U s, e₀.after.cb = e₀.before.cb ++ U → A s →
    Safe E.sym (K e₀) (Q e₀ s) (fun _ _ => False)
      (fun s' => ∀ n, m.instructions.next? e₀.offset = some n → B n s') U s
  body : ∀ e, Emits m log e₀ e → e.inst.isBegin = false → ∀ U s cfg,
    e.after.cb = e.before.cb ++ U → B e.offset s → R ⟨e.site, s⟩ cfg →
    Safe E.sym (K e) (Q e s)
      (fun l s' => ∃ t, e.inst.jumpTarget = some t ∧ l = labelForIp t ∧ B t s')
      (fun s' => e.inst.isTerminator = false ∧
        ∀ n, m.instructions.next? e.offset = some n → B n s') U s

/-- The pieces of the output are safe when the rules hold. -/
theorem Rules.safe (h : FunctionCode m log c f e₀) (hrules : Rules m log e₀ E K R A B Q)
    (i : {e // e ∈ log}) (s : State) (cfg : Config) (hi : Asserted m e₀ A B i.1 s)
    (hstep : R ⟨h.completes.pieces.start i, s⟩ cfg) :
    Safe E.sym (K i.1) (Q i.1 s) (h.completes.pieces.Jumps fun i => Asserted m e₀ A B i.1)
      (h.completes.pieces.Falls (fun i => Asserted m e₀ A B i.1) i) (h.completes.pieces.code i) s := by
  obtain ⟨e, he⟩ := i
  obtain ⟨x, y, U, hU, hlines, -, hx⟩ := h.completes.lines he
  have hinst := h.completes.1.heightInv.inst e he
  obtain ⟨hflow : m.Flow e₀.offset e.offset, hcase⟩ := hi
  -- the code falls through to the next instruction of the function
  have hfall : ∀ s', e.inst.isTerminator = false →
      (∀ n, m.instructions.next? e.offset = some n → B n s') →
      h.completes.pieces.Falls (fun i => Asserted m e₀ A B i.1) ⟨e, he⟩ s' := by
    intro s' ht hB
    obtain ⟨n, hn⟩ := h.function.ends _ _ hflow hinst ht
    obtain ⟨e', he', rfl, hprec⟩ := h.completes.fall he ht hn
    have hs : m.Succ e.offset e'.offset := .fall hinst ht hn
    refine ⟨⟨e', he'⟩, ?_, hflow.tail hs, .inr ⟨h.not_begin hflow he' hs, hB _ hn⟩⟩
    exact hprec.site.trans (h.completes.site_add_length he).symm
  -- and jumps to an instruction of the function
  have hjump : ∀ l s', (∃ t, e.inst.jumpTarget = some t ∧ l = labelForIp t ∧ B t s') →
      h.completes.pieces.Jumps (fun i => Asserted m e₀ A B i.1) l s' := by
    rintro _ s' ⟨t, ht, rfl, hB⟩ q hq
    obtain ⟨e', he', rfl, hsite⟩ := h.completes.target h.linked he ht hq
    have hs : m.Succ e.offset e'.offset := .jump hinst ht
    exact ⟨⟨e', he'⟩, hsite, hflow.tail hs, .inr ⟨h.not_begin hflow he' hs, hB⟩⟩
  have hopen : ∀ l ∈ [x, Line.comment y], l.straight := by
    rcases hx with rfl | ⟨t, rfl⟩ <;> simp [Line.straight]
  have hnop : execLines E.sym [x, Line.comment y] s = s := by
    rcases hx with rfl | ⟨t, rfl⟩ <;> rfl
  show Safe E.sym (K e) (Q e s) _ _ e.lines s
  rw [hlines, show x :: Line.comment y :: U = [x, Line.comment y] ++ U from rfl, safe_append hopen,
    hnop]
  rcases hcase with ⟨rfl, hA⟩ | ⟨hnot, hB⟩
  · have hterm : e.inst.isTerminator = false := by
      have := h.isBegin
      revert this
      cases e.inst <;> simp [Instruction.isBegin, Instruction.isTerminator]
    exact (hrules.begins U s hU hA).mono (fun _ _ h => h) (fun _ _ h => h.elim) fun s' =>
      hfall s' hterm
  · exact (hrules.body e ⟨he, hflow⟩ hnot U s cfg hU hB hstep).mono (fun _ _ h => h) hjump
      fun s' h => hfall s' h.1 h.2

/-- **Runs of a function.**  A run starts at one of the lines that open the function, where its
labels stand.  At every call and at every `ret` of the run the rule of the instruction holds. -/
theorem run (h : FunctionCode m log c f e₀) (hrules : Rules m log e₀ E K R A B Q)
    (hR : ∀ e ∈ log, ∀ a b, R a b → e.site ≤ a.pc → a.pc < e.after.cb.length →
      BodyStep E (K e) c.cb a b)
    {s : State} {p : ℕ} {cfg : Config} {l : Line} (hA : A s)
    (hopen : ∀ k < 2, R ⟨e₀.site + k, s⟩ ⟨e₀.site + k + 1, s⟩)
    (hp : e₀.site ≤ p ∧ p ≤ e₀.site + 2) (hrun : Relation.ReflTransGen R ⟨p, s⟩ cfg)
    (hl : c.cb[cfg.pc]? = some l) (hkind : l = .ret ∨ ∃ name, l = .call name) :
    ∃ e, Emits m log e₀ e ∧ ∃ t, Relation.ReflTransGen R ⟨e₀.site, s⟩ ⟨e.site, t⟩ ∧
      Relation.ReflTransGen R ⟨e.site, t⟩ cfg ∧ Q e t l cfg.st := by
  have hentry : Relation.ReflTransGen R ⟨e₀.site, s⟩ ⟨p, s⟩ := by
    have h0 := hopen 0 (by decide)
    have h1 := hopen 1 (by decide)
    obtain rfl | rfl | rfl : p = e₀.site ∨ p = e₀.site + 1 ∨ p = e₀.site + 2 := by omega
    · exact .refl
    · exact .single h0
    · exact .tail (.single h0) h1
  have hR' : h.completes.pieces.StepsIn E (fun i => K i.1) R := by
    rintro ⟨e, he⟩ a b hab h₁ h₂
    refine hR e he a b hab h₁ ?_
    rwa [← h.completes.site_add_length he]
  obtain ⟨⟨e, he⟩, t, hreach, ⟨hflow, -⟩, hin, hwithin⟩ := h.completes.pieces.run
    (P := fun i => Asserted m e₀ A B i.1) (Q := fun i => Q i.1) (i := ⟨e₀, h.begins⟩) hR'
    (hrules.safe h) ⟨.refl, .inl ⟨rfl, hA⟩⟩ (hentry.trans hrun)
  refine ⟨e, ⟨he, hflow⟩, t, hreach, hin, ?_⟩
  rcases hwithin with rfl | ⟨k, hk, hpc, hsafe⟩
  · -- the first line of a piece is a label or a comment
    obtain ⟨x, y, U, -, hlines, -, hx⟩ := h.completes.lines he
    have hcode := h.completes.codeAt he
    rw [hlines] at hcode
    obtain rfl := Option.some.inj (hcode.head.symm.trans hl)
    rcases hx with rfl | ⟨z, rfl⟩ <;> rcases hkind with hkind | ⟨name, hkind⟩ <;> cases hkind
  · have hline := h.completes.pieces.codeAt ⟨e, he⟩ k hk
    rw [← hpc, hl] at hline
    rw [List.drop_eq_getElem_cons hk] at hsafe
    rw [List.getElem?_eq_getElem hk] at hline
    rw [← Option.some.inj hline] at hsafe
    rcases hkind with rfl | ⟨name, rfl⟩
    · exact hsafe
    · exact hsafe.1

end FunctionCode

end LamaRv
