import LamaRv.Compiler.BodyCode
import LamaRv.Compiler.FrameWords

/-!
# Alignment at calls

The runtime checks that `sp` is a multiple of sixteen where it is called.  A call sequence skips
the spilled words, saves sixteen registers and adds a word for the alignment, which it computes
from the locals, the spilled words and the argument words.

Two things go wrong.  In `main` the call of `__init` comes before the locals are allocated, though
they are counted.  And the spilled words are counted again after the call: when their number has
changed by an odd one, `sp` is off by a word from there on.

* `CallEntry.aligned`, `CallExit.misaligned`: one call sequence;
* `EvenStep`: steps in which a call leaves the parity of the spilled words;
* `aligned_at_calls`: runs of such steps.
-/

namespace LamaRv

open ByteMemory Rv64 CodeBuffer Compiler

variable {m : Module} {log : List Emission} {c : Compiler} {f : FrameInfo} {e₀ : Emission}

/-! ### Addresses modulo sixteen -/

section Mod

theorem toNat_add_ofInt_emod (a : Word) (i : ℤ) :
    ((a + BitVec.ofInt 64 i).toNat : ℤ) % 16 = (a.toNat + i) % 16 := by
  rw [BitVec.toNat_add, BitVec.toNat_ofInt]
  have := Int.emod_nonneg i (b := 2 ^ 64) (by decide)
  push_cast
  omega

theorem toNat_below_emod (a : Word) (k : ℕ) :
    ((below a k).toNat : ℤ) % 16 = (a.toNat - 8 * k) % 16 := by
  rw [below_eq_ofInt, toNat_add_ofInt_emod, ← sub_eq_add_neg]

theorem toNat_add_toInt_emod (a : Word) (x : ℤ) :
    ((a + BitVec.ofInt 64 (toInt x)).toNat : ℤ) % 16 = (a.toNat + x) % 16 := by
  obtain ⟨-, -, k, hk⟩ := toInt_spec x
  rw [toNat_add_ofInt_emod, hk]
  omega

theorem bodySp_emod (locc : ℕ) (a : Word) :
    ((bodySp locc a).toNat : ℤ) % 16 = (a.toNat - 8 * locc) % 16 := by
  rw [bodySp, toNat_add_toInt_emod, wordSize]
  omega

end Mod

/-! ### One call sequence -/

section Sequence

variable {st : SymbolicStack} {argc : ℕ} {opt : Option ℤ} {locals : ℕ} {s t : State}

theorem callAlignment_eq (locals spilled total : ℕ) :
    (if callAlignment locals spilled total then 1 else 0) = (locals + spilled + (total - 8)) % 2 := by
  have hover : (if total > 8 then total - 8 else 0) = total - 8 := by
    split_ifs <;> omega
  unfold callAlignment
  rw [hover]
  by_cases h : (locals + spilled + (total - 8)) % 2 = 1
  · simp [h]
  · simp only [h, decide_false, Bool.false_eq_true, if_false]
    omega

/-- From the `sp` of the body of a function the call is aligned. -/
theorem CallEntry.aligned (h : CallEntry st argc opt
      (callAlignment locals st.spilledCount (argc + opt.toList.length)) s t)
    (hs : (s.get Register.sp).toNat % 16 = 8 * (locals % 2)) :
    (t.get Register.sp).toNat % 16 = 0 := by
  have hbase := toNat_add_toInt_emod (s.get Register.sp) (-st.spilledCount * wordSize)
  have hsp := toNat_below_emod (saveBase s st.spilledCount) (16 +
    (if callAlignment locals st.spilledCount (argc + opt.toList.length) then 1 else 0) +
    (argc + opt.toList.length - 8))
  rw [← h.sp, callAlignment_eq] at hsp
  unfold saveBase wordSize at *
  omega

/-- After an aligned call `sp` is off by a word when the number of spilled words has changed by an
odd one. -/
theorem CallExit.misaligned {total n before after : ℕ}
    (h : CallExit total (callAlignment locals before total) n after s t)
    (hs : (s.get Register.sp).toNat % 16 = 0) :
    (t.get Register.sp).toNat % 16 = 8 * ((locals + before + after) % 2) := by
  have hdrop : dropBase total (callAlignment locals before total) s = s.get Register.sp +
      BitVec.ofInt 64 (toInt ((total - 8 : ℕ) * wordSize)) +
      BitVec.ofInt 64 (8 * ((locals + before + (total - 8)) % 2 : ℕ)) := by
    have hzero : toInt ((0 : ℕ) * wordSize) = 0 := by
      rw [Nat.cast_zero, zero_mul]
      exact toInt_of_mem (by omega) (by omega)
    unfold dropBase
    rw [← callAlignment_eq]
    congr 1
    · split_ifs with h8
      · rfl
      · rw [show total - 8 = 0 by omega, hzero]
        rfl
    · cases callAlignment locals before total <;> rfl
  have h₁ := toNat_add_toInt_emod (s.get Register.sp) ((total - 8 : ℕ) * wordSize)
  have h₂ := toNat_add_ofInt_emod (s.get Register.sp +
    BitVec.ofInt 64 (toInt ((total - 8 : ℕ) * wordSize)))
    (8 * ((locals + before + (total - 8)) % 2 : ℕ))
  have h₃ := toNat_add_ofInt_emod (dropBase total (callAlignment locals before total) s) 128
  have h₄ := toNat_add_toInt_emod (dropBase total (callAlignment locals before total) s +
    BitVec.ofInt 64 128) (after * wordSize)
  have hsp : t.get Register.sp = dropBase total (callAlignment locals before total) s +
    BitVec.ofInt 64 128 + BitVec.ofInt 64 (toInt (after * wordSize)) := h.sp
  rw [← hdrop] at h₂
  rw [← hsp] at h₄
  unfold wordSize at *
  omega

end Sequence

/-! ### Runs -/

/-- The call of the instruction changes the number of spilled words by an even number. -/
def Emission.EvenSpill (e : Emission) : Prop :=
  SymbolicStack.spilledCount ⟨e.before.st.top + e.inst.pushes⟩ % 2 = e.after.st.spilledCount % 2

/-- A step of a function in which a call changes the number of spilled words by an even number. -/
def EvenStep (log : List Emission) (E : Env) (K : Calls) (T : Text) (a b : Config) : Prop :=
  BodyStep E K T a b ∧ ∀ e ∈ log, e.site ≤ a.pc → a.pc < e.after.cb.length →
    ∀ l, T[a.pc]? = some (.call l) → e.EvenSpill

/-- The called functions give `sp` back, and the one that reports a failed match does not
return. -/
structure KeepsSp (K : Calls) : Prop where
  sp : ∀ l s s', K l s s' → s'.get Register.sp = s.get Register.sp
  failure : ∀ s s', ¬ K "Bmatch_failure" s s'

/-- Every instruction of the function is compiled under its frame. -/
def OwnFrames (m : Module) (log : List Emission) (f : FrameInfo) (e₀ : Emission) : Prop :=
  ∀ e, FunctionCode.Emits m log e₀ e → e.inst.isBegin = false → e.before.currentFrame = some f

/-- `sp` in the body of a function with so many locals. -/
def BodyAligned (locals : ℕ) (s : State) : Prop :=
  (s.get Register.sp).toNat % 16 = 8 * (locals % 2)

/-- The rule of a line: a call is aligned. -/
def CallAligned (l : Line) (s : State) : Prop :=
  ∀ name, l = .call name → (s.get Register.sp).toNat % 16 = 0

/-- The calls that an instruction steps over. -/
def EvenCalls (K : Calls) (e : Emission) : Calls := fun l s s' => K l s s' ∧ e.EvenSpill

section Runs

variable {E : Env} {K : Calls} {e : Emission} {s : State}

theorem sp_not_mem_workRegs : Register.sp ∉ workRegs := by decide

theorem BodyAligned.quiet {T : List Line} (h : BodyAligned f.localsCount s) (hT : Quiet T)
    (sym : String → Word) : BodyAligned f.localsCount (execLines sym T s) := by
  unfold BodyAligned
  rw [hT.get_exec sym sp_not_mem_workRegs]
  exact h

/-- The call of an instruction. -/
theorem BodyAligned.call (hK : KeepsSp K) {x y : Compiler} {callee : FunctionId} {argc : ℕ}
    {opt : Option ℤ} {J : String → State → Prop} {F : State → Prop} {U V : List Line}
    (h : BodyAligned f.localsCount s) (hcall : x.compileCall callee argc opt = .ok y)
    (hf : x.currentFrame = some f) (hU : y.cb = x.cb ++ U)
    (heven : e.EvenSpill → x.st.spilledCount % 2 = y.st.spilledCount % 2)
    (hF : ∀ t label v u, (∀ name, callee = .inl name → label = name) → K label t u →
      BodyAligned f.localsCount v → Safe E.sym (EvenCalls K e) CallAligned J F V v) :
    Safe E.sym (EvenCalls K e) CallAligned J F (U ++ V) s := by
  obtain ⟨-, hafter, -⟩ := compileCall_ok hcall
  refine safe_compileCall hcall hf hU (fun t label ht name _ => ht.aligned h) ?_
  intro t label ra u v hname ht hk hv
  refine hF _ label v u hname hk.1 ?_
  have hu : (u.get Register.sp).toNat % 16 = 0 := by
    rw [hK.sp _ _ _ hk.1, State.get_set_of_ne _ _ (by decide)]
    exact ht.aligned h
  have heven := heven hk.2
  simp only [SymbolicStack.spilledCount_eq] at heven hv
  have := hv.misaligned hu
  unfold BodyAligned
  omega

/-- The prologue makes room for the locals. -/
theorem BodyAligned.prologue (hs : (s.get Register.sp).toNat % 16 = 0) (sym : String → Word)
    (locals : ℕ) : BodyAligned locals (execLines sym (prologue locals) s) := by
  have := bodySp_emod locals (s.get Register.sp)
  unfold BodyAligned
  rw [(exec_prologue_pointers sym locals s).2]
  omega

/-- `main` is compiled at height zero. -/
theorem FunctionCode.main_height (h : FunctionCode m log c f e₀) (hmain : f.functionName = "main") :
    e₀.before.st.top = 0 := by
  have hinst := h.completes.1.heightInv.inst e₀ h.begins
  have hframe := h.function.frame
  rw [Module.frameAt, hinst] at hframe
  -- only a function that carries a name is called so
  have hpublic : ("main", e₀.offset) ∈ m.publicSymbols := by
    cases hi : e₀.inst with
    | beginInst id argc locc =>
      rw [hi] at hframe hinst
      obtain rfl := Option.some.inj hframe
      cases id with
      | inl name =>
        obtain rfl : name = "main" := hmain
        exact h.linked.names _ _ _ _ hinst
      | inr offset => exact absurd hmain (labelForIp_ne_main offset)
    | cBegin offset argc locc =>
      rw [hi] at hframe
      obtain rfl := Option.some.inj hframe
      exact absurd hmain (closure_ne_main _)
    | _ =>
      have hbegin := h.isBegin
      rw [hi] at hbegin
      cases hbegin
  have hbefore := h.completes.1.heightInv.before e₀ h.begins
  exact Option.some.inj (hbefore.symm.trans (h.completes.done_public hpublic ⟨_, hinst⟩))

/-- The code of a `BEGIN` is safe when the prologue leads to what is needed at its end, from the entry
and in `main` from every return of `__init`, which is called with an empty symbolic stack. -/
theorem FunctionCode.safe_begin (h : FunctionCode m log c f e₀) {U : List Line}
    (hU : e₀.after.cb = e₀.before.cb ++ U) {C : Calls} {R : Line → State → Prop}
    {J : String → State → Prop} {P : State → Prop} {alignment : Bool}
    (halign : callAlignment f.localsCount 0 0 = alignment)
    (hprologue : P (execLines E.sym (prologue f.localsCount) s))
    (hentry : f.functionName = "main" → ∀ t label,
      CallEntry ⟨0⟩ 0 none alignment (execLines E.sym (emitLabel "main" ++ premain) s) t →
      R (.call label) t)
    (hreturn : f.functionName = "main" → ∀ t label ra u v,
      CallEntry ⟨0⟩ 0 none alignment (execLines E.sym (emitLabel "main" ++ premain) s) t →
      C label (t.set raReg ra) u → CallExit 0 alignment 0 0 u v →
      P (execLines E.sym (prologue f.localsCount) v)) : Safe E.sym C R J P U s := by
  obtain ⟨g, hg, hcode⟩ := emitCode_begin (h.completes.1.siteInv.code e₀ h.begins) h.isBegin
  have hframe := h.function.frame
  rw [Module.frameAt, h.completes.1.heightInv.inst e₀ h.begins] at hframe
  obtain rfl : g = f := Option.some.inj (hg.symm.trans hframe)
  have hstraight := (ops_prologue g.localsCount).straight
  cases hcode with
  | plain L _ hL hcb =>
    obtain rfl := List.append_cancel_left (hU.symm.trans hcb)
    have hLs : ∀ l ∈ L, l.straight := by
      rcases hL with rfl | ⟨n, rfl⟩ <;> simp [Line.straight]
    have hnop : execLines E.sym L s = s := by
      rcases hL with rfl | ⟨n, rfl⟩ <;> rfl
    rw [safe_append hLs, safe_of_straight hstraight, hnop]
    exact hprologue
  | main x y hname hx hst hxf hcall hcb _ =>
    obtain ⟨V, hV, -⟩ := (compileCall_ok hcall).2.2.2.text
    rw [hcb, hV, hx, List.append_assoc, List.append_assoc] at hU
    obtain rfl := List.append_cancel_left hU
    have hopen : ∀ l ∈ emitLabel "main" ++ premain, l.straight := by
      simp [emitLabel, premain, Line.straight]
    have hempty : x.st = ⟨0⟩ := SymbolicStack.ext (by rw [hst, h.main_height hname])
    rw [safe_append hopen]
    refine safe_compileCall hcall hxf hV (fun t label ht => ?_) fun t label ra u v _ ht hk hv => ?_
    · rw [hempty] at ht
      exact hentry hname t label (halign ▸ ht)
    · rw [hempty] at ht hv
      rw [safe_of_straight hstraight]
      exact hreturn hname t label ra u v (halign ▸ ht) hk (halign ▸ hv)

/-- The code of the `BEGIN` leads from an aligned `sp` to that of the body. -/
theorem aligned_begin (h : FunctionCode m log c f e₀) (hK : KeepsSp K)
    (hmain : f.functionName = "main" → f.localsCount % 2 = 0) {U : List Line}
    (hU : e₀.after.cb = e₀.before.cb ++ U) (hs : (s.get Register.sp).toNat % 16 = 0)
    (J : String → State → Prop) :
    Safe E.sym (EvenCalls K e₀) CallAligned J (BodyAligned f.localsCount) U s := by
  have hsp : (execLines E.sym (emitLabel "main" ++ premain) s).get Register.sp =
      s.get Register.sp := by
    simp [emitLabel, premain, Op.exec, Register.sp]
  have haligned : f.functionName = "main" → ∀ {t}, CallEntry ⟨0⟩ 0 none
      (callAlignment f.localsCount 0 0) (execLines E.sym (emitLabel "main" ++ premain) s) t →
      (t.get Register.sp).toNat % 16 = 0 := by
    intro hname t ht
    have heven := hmain hname
    exact CallEntry.aligned ht (by rw [hsp]; omega)
  refine h.safe_begin hU rfl (.prologue hs _ _) (fun hname t _ ht _ _ => haligned hname ht) ?_
  intro hname t label ra u v ht hk hv
  have heven := hmain hname
  have hu : (u.get Register.sp).toNat % 16 = 0 := by
    rw [hK.sp _ _ _ hk.1, State.get_set_of_ne _ _ (by decide)]
    exact haligned hname ht
  have hv := CallExit.misaligned hv hu
  exact .prologue (by omega) _ _

/-- The code of every other instruction keeps the alignment of the body. -/
theorem aligned_body (h : FunctionCode m log c f e₀) (hown : OwnFrames m log f e₀)
    (hK : KeepsSp K) (he : FunctionCode.Emits m log e₀ e) (hb : e.inst.isBegin = false)
    {U : List Line} (hU : e.after.cb = e.before.cb ++ U) (hs : BodyAligned f.localsCount s) :
    Safe E.sym (EvenCalls K e) CallAligned
      (fun l s' => ∃ t, e.inst.jumpTarget = some t ∧ l = labelForIp t ∧
        BodyAligned f.localsCount s')
      (fun s' => e.inst.isTerminator = false ∧ BodyAligned f.localsCount s') U s := by
  have hemit := h.completes.1.siteInv.code e he.1
  have hframe := hown e he hb
  by_cases hend : e.inst = .endInst
  · -- the code of `END` calls nothing
    rw [hend] at hemit
    obtain ⟨g, -, -, hcb⟩ := emitEnd_code hemit
    obtain rfl := List.append_cancel_left (hU.symm.trans hcb)
    have hstraight : ∀ l ∈ symbEmitMvToReg 10 (SymbolicStack.loc (e.before.st.top - 1)) ++
        epilogue g.localsCount ++ (if g.functionName = "main" then postmain else []), l.straight := by
      refine Ops.straight ?_
      split_ifs <;> simp
    rw [safe_append hstraight]
    exact fun name h => nomatch h
  cases emitCode_body hemit hb hend with
  | straight T hcb hq ht _ =>
    obtain rfl := List.append_cancel_left (hU.symm.trans hcb)
    rw [safe_of_straight hq.straight]
    exact ⟨ht, hs.quiet hq _⟩
  | jump t T ht hcb =>
    obtain rfl := List.append_cancel_left (hU.symm.trans hcb)
    exact ⟨t, ht, rfl, hs⟩
  | branch t eq a b T V ht hterm hcb hq _ hq' _ =>
    obtain rfl := List.append_cancel_left (hU.symm.trans hcb)
    rw [safe_append hq.straight]
    refine ⟨fun _ => ⟨t, ht, rfl, hs.quiet hq _⟩, fun _ => ?_⟩
    rw [safe_of_straight hq'.straight]
    exact ⟨hterm, (hs.quiet hq _).quiet hq' _⟩
  | call x callee argc opt T hx hq _ htop hxf hcall _ _ hfail =>
    obtain ⟨V, hV, -⟩ := (compileCall_ok hcall).2.2.2.text
    rw [hV, hx, List.append_assoc] at hU
    obtain rfl := List.append_cancel_left hU
    rw [safe_append hq.straight, ← List.append_nil V]
    refine BodyAligned.call (f := f) hK (hs.quiet hq _) hcall (hxf.trans hframe) hV ?_ ?_
    · intro heven
      unfold Emission.EvenSpill at heven
      rwa [← htop] at heven
    · intro t label v u hname hk hv
      refine ⟨?_, hv⟩
      cases hterm : e.inst.isTerminator with
      | false => rfl
      | true =>
        rw [hname _ (hfail hterm)] at hk
        exact absurd hk (hK.failure _ _)

/-- In a piece the steps are those of a function whose calls change the number of spilled words by
an even number. -/
theorem EvenStep.bodyStep {a b : Config} {T : Text} (h : EvenStep log E K T a b) (he : e ∈ log)
    (h₁ : e.site ≤ a.pc) (h₂ : a.pc < e.after.cb.length) : BodyStep E (EvenCalls K e) T a b := by
  obtain ⟨hstep, heven⟩ := h
  cases hstep with
  | straight hl hs => exact .straight hl hs
  | jump hl hp => exact .jump hl hp
  | taken hl hp heq => exact .taken hl hp heq
  | skipped hl hne => exact .skipped hl hne
  | call hl hk => exact .call hl ⟨hk, heven e he h₁ h₂ _ hl⟩

/-- A straight line is such a step. -/
theorem EvenStep.of_straight {a b : Config} {T : Text} {l : Line} (hl : T[a.pc]? = some l)
    (hs : l.straight) (h : BodyStep E K T a b) : EvenStep log E K T a b := by
  refine ⟨h, fun e _ _ _ name hcall => ?_⟩
  obtain rfl := Option.some.inj (hl.symm.trans hcall)
  cases hs

end Runs

/-- **Alignment at calls.**  A run of the code of a function, from an aligned `sp` at one of the
lines that open it, in which every call that is stepped over changes the number of spilled words
by an even number: at every call of the run `sp` is a multiple of sixteen, if the function is not
`main` or has an even number of locals. -/
theorem aligned_at_calls {E : Env} {K : Calls} {s : State} {p : ℕ} {cfg : Config} {l : String}
    (h : FunctionCode m log c f e₀) (hown : OwnFrames m log f e₀) (hK : KeepsSp K)
    (hmain : f.functionName = "main" → f.localsCount % 2 = 0)
    (hs : (s.get Register.sp).toNat % 16 = 0) (hp : e₀.site ≤ p ∧ p ≤ e₀.site + 2)
    (hrun : Relation.ReflTransGen (EvenStep log E K c.cb) ⟨p, s⟩ cfg)
    (hl : c.cb[cfg.pc]? = some (.call l)) : (cfg.st.get Register.sp).toNat % 16 = 0 := by
  have hrules : FunctionCode.Rules m log e₀ E (EvenCalls K) (EvenStep log E K c.cb)
      (fun s => (s.get Register.sp).toNat % 16 = 0) (fun _ => BodyAligned f.localsCount)
      (fun _ _ => CallAligned) := by
    constructor
    · intro U s hU hs
      exact (aligned_begin h hK hmain hU hs (fun _ _ => False)).mono (fun _ _ h => h)
        (fun _ _ h => h) fun _ h _ _ => h
    · intro e he hb U s _ hU hs _
      exact (aligned_body h hown hK he hb hU hs).mono (fun _ _ h => h) (fun _ _ h => h)
        fun _ h => ⟨h.1, fun _ _ => h.2⟩
  have hopen : ∀ k < 2, EvenStep log E K c.cb ⟨e₀.site + k, s⟩ ⟨e₀.site + k + 1, s⟩ := by
    intro k hk
    obtain ⟨x, hx, hstraight, hstep⟩ := h.opening E K s k hk
    exact .of_straight hx hstraight hstep
  obtain ⟨e, -, t, -, -, hcall⟩ := h.run hrules (fun e he a b hab => hab.bodyStep he) hs hopen hp hrun
    hl (.inr ⟨l, rfl⟩)
  exact hcall l rfl

/-! ### The call in `main` -/

/-- The code of a `main` up to its prologue: the call of `__init` between straight lines. -/
theorem FunctionCode.main_lines (h : FunctionCode m log c f e₀) (hmain : f.functionName = "main") :
    ∃ A B, e₀.lines = A ++ .call "__init" :: (B ++ prologue f.localsCount) ∧
      (∀ l ∈ A, l.straight) ∧ (∀ l ∈ B, l.straight) ∧ ∀ sym s,
        (∃ t, t.get Register.sp = s.get Register.sp ∧ CallEntry e₀.before.st 0 none
          (callAlignment f.localsCount e₀.before.st.spilledCount 0) t (execLines sym A s)) ∧
        CallExit 0 (callAlignment f.localsCount e₀.before.st.spilledCount 0) e₀.before.st.top
          (e₀.before.st.top + 1 - 15) s (execLines sym B s) := by
  obtain ⟨g, hg, hcode⟩ := emitCode_begin (h.completes.1.siteInv.code e₀ h.begins) h.isBegin
  have hframe := h.function.frame
  rw [Module.frameAt, h.completes.1.heightInv.inst e₀ h.begins] at hframe
  obtain rfl : g = f := Option.some.inj (hg.symm.trans hframe)
  cases hcode with
  | plain L hne => exact absurd hmain hne
  | main x y _ hx hst hxf hcall hcb _ =>
    obtain ⟨-, g', before, label, after, hf', hname, htext, hbefore, hafter, hexec⟩ :=
      compileCall_split hcall
    obtain rfl : g = g' := Option.some.inj (hxf.symm.trans hf')
    obtain rfl := hname _ rfl
    obtain ⟨z, w, U, hU, hlines, -, hz⟩ := h.completes.lines h.begins
    obtain rfl : U = emitLabel "main" ++ premain ++ (before ++ .call "__init" :: after) ++
        prologue g.localsCount := by
      refine List.append_cancel_left (hU.symm.trans ?_)
      rw [hcb, htext, hx]
      simp only [List.append_assoc]
    have hopen : ∀ l ∈ [z, .comment w] ++ (emitLabel "main" ++ premain), l.straight := by
      rcases hz with rfl | ⟨q, rfl⟩ <;> simp [emitLabel, premain, Line.straight]
    rw [hst] at hexec
    refine ⟨[z, .comment w] ++ (emitLabel "main" ++ premain) ++ before, after, ?_,
      List.forall_mem_append.2 ⟨hopen, hbefore⟩, hafter, fun sym s => ⟨?_, (hexec sym s).2⟩⟩
    · rw [hlines]
      simp only [List.append_assoc, List.cons_append, List.nil_append]
    · refine ⟨execLines sym ([z, .comment w] ++ (emitLabel "main" ++ premain)) s, ?_, ?_⟩
      · rcases hz with rfl | ⟨q, rfl⟩ <;> simp [emitLabel, premain, Op.exec, Register.sp]
      · rw [execLines_append]
        exact (hexec sym _).1

/-- `main` comes to the call of `__init` with the `sp` of its entry. -/
theorem FunctionCode.reaches_init {E : Env} {K : Calls} (h : FunctionCode m log c f e₀)
    (hmain : f.functionName = "main") (s : State) :
    ∃ t cfg, t.get Register.sp = s.get Register.sp ∧
      Relation.ReflTransGen (EvenStep log E K c.cb) ⟨e₀.site, s⟩ cfg ∧
      c.cb[cfg.pc]? = some (.call "__init") ∧
      CallEntry e₀.before.st 0 none (callAlignment f.localsCount e₀.before.st.spilledCount 0) t
        cfg.st := by
  obtain ⟨A, B, hlines, hA, -, hexec⟩ := h.main_lines hmain
  have hat := h.completes.codeAt h.begins
  rw [hlines] at hat
  obtain ⟨⟨t, hsp, hentry⟩, -⟩ := hexec E.sym s
  exact ⟨t, _, hsp, bodySteps_lines (E := E) (K := K) hat.left hA .of_straight, hat.right.head, hentry⟩

/-- `main` runs through its `BEGIN`, with any steps that include those of straight lines and the call
of `__init`. -/
theorem FunctionCode.passes_begin {E : Env} {K : Calls} {ret : State → State}
    {R : Config → Config → Prop} (h : FunctionCode m log c f e₀) (hmain : f.functionName = "main")
    (hK : ∀ t, K "__init" t (ret t))
    (hstraight : ∀ {a b l}, c.cb[a.pc]? = some l → l.straight → BodyStep E K c.cb a b → R a b)
    (hcall : ∀ {a b}, c.cb[a.pc]? = some (.call "__init") → e₀.site ≤ a.pc →
      a.pc < e₀.after.cb.length → BodyStep E K c.cb a b → R a b) (s : State) :
    ∃ t B, Relation.ReflTransGen R ⟨e₀.site, s⟩
        ⟨e₀.after.cb.length, execLines E.sym (B ++ prologue f.localsCount) (ret t)⟩ ∧
      ∀ sym s, CallExit 0 (callAlignment f.localsCount e₀.before.st.spilledCount 0) e₀.before.st.top
        (e₀.before.st.top + 1 - 15) s (execLines sym B s) := by
  obtain ⟨A, B, hlines, hA, hB, hexec⟩ := h.main_lines hmain
  have hat := h.completes.codeAt h.begins
  have hend := h.completes.site_add_length h.begins
  rw [hlines] at hat hend
  have hlen : e₀.site + A.length + 1 + (B ++ prologue f.localsCount).length =
      e₀.after.cb.length := by
    simp only [← hend, List.length_append, List.length_cons]
    omega
  have hstep : R ⟨e₀.site + A.length, execLines E.sym A s⟩ ⟨e₀.site + A.length + 1, ret _⟩ :=
    hcall hat.right.head (Nat.le_add_right _ _) (by dsimp only; omega) (.call hat.right.head (hK _))
  have hrest : ∀ l ∈ B ++ prologue f.localsCount, l.straight :=
    List.forall_mem_append.2 ⟨hB, (ops_prologue f.localsCount).straight⟩
  have hrun := (bodySteps_lines (E := E) (K := K) hat.left hA hstraight).trans
    ((Relation.ReflTransGen.single hstep).trans
      (bodySteps_lines (E := E) (K := K) hat.right.tail hrest hstraight))
  rw [hlen] at hrun
  exact ⟨_, B, hrun, fun sym s => (hexec sym s).2⟩

/-- A program with `main` only, which has some locals and one instruction. -/
def mainWithLocals (locals : ℕ) (body : Instruction) : Module where
  filename := "main.bc"
  instructions := ⟨[(0, .beginInst (.inl "main") 2 locals), (9, body), (14, .endInst)], by simp⟩
  strings := []
  globalAreaSize := 0
  publicSymbols := [("main", 0)]

section MainWithLocals

variable (locals : ℕ) (body : Instruction)

theorem mainWithLocals_mem {o : ℕ} {i : Instruction}
    (h : (mainWithLocals locals body).instructions.at? o = some i) :
    (o = 0 ∧ i = .beginInst (.inl "main") 2 locals) ∨ (o = 9 ∧ i = body) ∨
      (o = 14 ∧ i = .endInst) := by
  simpa [mainWithLocals] using InstMap.mem_of_at? h

variable {body} (hbody : body = .const 1 ∨ body = .builtinRead)

include hbody

theorem mainWithLocals_linked : (mainWithLocals locals body).Linked where
  targets := by
    intro o i t hat ht
    rcases mainWithLocals_mem locals body hat with ⟨-, rfl⟩ | ⟨-, rfl⟩ | ⟨-, rfl⟩ <;>
      rcases hbody with rfl | rfl <;> rcases ht with ht | ht <;> cases ht
  publics := by
    intro name o hs
    obtain ⟨rfl, rfl⟩ := Prod.mk.inj (List.mem_singleton.1 hs)
    exact ⟨2, locals, rfl⟩
  names := by
    intro name o argc locc hat
    rcases mainWithLocals_mem locals body hat with ⟨rfl, h⟩ | ⟨-, h⟩ | ⟨-, h⟩
    · exact List.mem_singleton.2 (by cases h; rfl)
    · rcases hbody with rfl | rfl <;> cases h
    · cases h
  distinct := List.nodup_singleton _
  fresh := by
    intro s hs
    rw [List.mem_singleton.1 hs]
    exact ⟨by simp [Module.headerLabels, mainWithLocals], fun o => (labelForIp_ne_main o).symm,
      fun o => (closure_ne_main _).symm⟩

theorem mainWithLocals_function : (mainWithLocals locals body).Function 0 ⟨"main", locals, 2⟩ where
  begins := ⟨_, rfl, rfl⟩
  frame := rfl
  entered := by
    rintro o o' - hs ⟨j, hat', hj⟩
    have h0 : o' = 0 := by
      rcases mainWithLocals_mem locals body hat' with ⟨rfl, -⟩ | ⟨-, rfl⟩ | ⟨-, rfl⟩
      · rfl
      · rcases hbody with rfl | rfl <;> cases hj
      · cases hj
    cases hs with
    | fall hat _ hn =>
      rcases mainWithLocals_mem locals body hat with ⟨rfl, -⟩ | ⟨rfl, -⟩ | ⟨rfl, -⟩ <;> cases hn <;>
        cases h0
    | jump hat ht =>
      rcases mainWithLocals_mem locals body hat with ⟨-, rfl⟩ | ⟨-, rfl⟩ | ⟨-, rfl⟩ <;>
        rcases hbody with rfl | rfl <;> cases ht
  ends := by
    intro o i _ hat ht
    rcases mainWithLocals_mem locals body hat with ⟨rfl, -⟩ | ⟨rfl, -⟩ | ⟨-, rfl⟩
    · exact ⟨9, rfl⟩
    · exact ⟨14, rfl⟩
    · cases ht

/-- The code of `main`: the frame and the heights at which it is compiled. -/
theorem mainWithLocals_code : ∃ log c e₀,
    FunctionCode (mainWithLocals locals body) log c ⟨"main", locals, 2⟩ e₀ ∧
      (∀ e ∈ log, e.inst.isBegin = false → e.before.currentFrame = some ⟨"main", locals, 2⟩) ∧
      ∀ e ∈ log, e.before.st.top ≤ 2 ∧ (e.inst.isBegin = true → e.before.st.top = 0) := by
  have hrun : ∃ c, start (mainWithLocals locals body) = .ok c ∧ c.todo.lookup 0 = some 0 ∧
      (takeEntry c 0 0).shouldEmit 0 = .ok true ∧ ∃ c₁ c₂ c₃ c₄ c₅ c₆,
      openInst (takeEntry c 0 0) 0 (.beginInst (.inl "main") 2 locals) = .ok c₁ ∧
      (Instruction.beginInst (.inl "main") 2 locals).emitCode c₁ = .ok c₂ ∧
      openInst c₂ 9 body = .ok c₃ ∧ body.emitCode c₃ = .ok c₄ ∧
      openInst c₄ 14 .endInst = .ok c₅ ∧ Instruction.endInst.emitCode c₅ = .ok c₆ ∧
      c₆.todo = ∅ ∧ c₁.st.top = 0 ∧ c₃.st.top = 1 ∧ c₅.st.top = 2 ∧
      c₃.currentFrame = some ⟨"main", locals, 2⟩ ∧ c₅.currentFrame = some ⟨"main", locals, 2⟩ := by
    rcases hbody with rfl | rfl
    all_goals
      exact ⟨_, rfl, rfl, rfl, _, _, _, _, _, _, rfl, rfl, rfl, rfl, rfl, rfl, rfl, rfl, rfl, rfl, rfl,
        rfl⟩
  have hterm : body.isTerminator = false ∧ body.isBegin = false := by
    rcases hbody with rfl | rfl <;> exact ⟨rfl, rfl⟩
  obtain ⟨c, hc, hl, hs, c₁, c₂, c₃, c₄, c₅, c₆, hopen, hcode, hopen', hcode', hopen'', hcode'', htodo,
    htop, htop₃, htop₅, hf, hf'⟩ := hrun
  have hrun := ((((Run.start hc).take hl hs).next hopen hcode rfl).next hopen' hcode' hterm.1).last
    hopen'' hcode'' rfl
  refine ⟨_, _, ⟨0, .beginInst (.inl "main") 2 locals, c₁, c₂⟩, ⟨⟨hrun, htodo⟩,
    mainWithLocals_linked locals hbody, mainWithLocals_function locals hbody, by simp⟩, ?_, ?_⟩
  · intro e he hb
    simp only [List.mem_cons, List.not_mem_nil, or_false] at he
    rcases he with rfl | rfl | rfl
    · exact hf'
    · exact hf
    · cases hb
  · intro e he
    simp only [List.mem_cons, List.not_mem_nil, or_false] at he
    rcases he with rfl | rfl | rfl
    · exact ⟨htop₅.le, nofun⟩
    · refine ⟨htop₃.le.trans (by decide), fun hbegin => ?_⟩
      rw [hterm.2] at hbegin
      cases hbegin
    · exact ⟨htop.le.trans (by decide), fun _ => htop⟩

theorem mainWithLocals_begins {log : List Emission} {c : Compiler} {f : FrameInfo} {e₀ : Emission}
    (h : FunctionCode (mainWithLocals locals body) log c f e₀) :
    e₀.offset = 0 ∧ e₀.inst = .beginInst (.inl "main") 2 locals := by
  have hb := h.isBegin
  rcases mainWithLocals_mem locals body (h.completes.1.heightInv.inst e₀ h.begins) with
    h | ⟨-, h⟩ | ⟨-, h⟩
  · exact h
  · rw [h] at hb
    rcases hbody with rfl | rfl <;> cases hb
  · rw [h] at hb
    cases hb

end MainWithLocals

/-- Every function gives `sp` back; the one that reports a failed match does not return. -/
def returning : Calls := fun l s s' =>
  l ≠ "Bmatch_failure" ∧ s'.get Register.sp = s.get Register.sp

theorem returning_keepsSp : KeepsSp returning :=
  ⟨fun _ _ _ h => h.2, fun _ _ h => h.1 rfl⟩

/-- An environment. -/
def someEnv : Env := ⟨fun _ => 0, fun _ => 0, fun _ _ _ => False⟩

/-- `main` reads a number: the run steps over the call of `__init` and comes to that of `Lread`. -/
theorem mainReads_reaches (s : State) : ∃ log c e₀ cfg,
    FunctionCode (mainWithLocals 0 .builtinRead) log c ⟨"main", 0, 2⟩ e₀ ∧
      OwnFrames (mainWithLocals 0 .builtinRead) log ⟨"main", 0, 2⟩ e₀ ∧
      Relation.ReflTransGen (EvenStep log someEnv returning c.cb) ⟨e₀.site, s⟩ cfg ∧
      c.cb[cfg.pc]? = some (.call "Lread") := by
  obtain ⟨log, c, e₀, h, hown, hheights⟩ := mainWithLocals_code 0
    (show Instruction.builtinRead = .const 1 ∨ Instruction.builtinRead = .builtinRead from .inr rfl)
  have h0 := mainWithLocals_begins 0 (.inr rfl) h
  -- the call of `__init` leaves the number of spilled words at zero
  have heven : e₀.EvenSpill := by
    have hbefore := (hheights e₀ h.begins).2 h.isBegin
    have hafter := (emitCode_ok (h.completes.1.siteInv.code e₀ h.begins)).height
    rw [hbefore, h0.2] at hafter
    rw [Emission.EvenSpill, hbefore, h0.2, SymbolicStack.ext hafter]
    rfl
  have hinit (t : State) : returning "__init" t t := ⟨by decide, rfl⟩
  obtain ⟨t, B, hrun, -⟩ := h.passes_begin (R := EvenStep log someEnv returning c.cb) rfl hinit
    (fun hl hstraight hstep => .of_straight hl hstraight hstep)
    (fun _ h₁ h₂ hstep => ⟨hstep, fun e he h₁' h₂' _ _ => by
      rwa [h.completes.eq_of_overlap he h.begins (by omega) (by omega)]⟩) s
  -- the read
  obtain ⟨e₁, he₁, ho₁, hsite₁, -, -⟩ := h.completes.fall (n := 9) h.begins (by rw [h0.2]; rfl)
    (by rw [h0.1]; rfl)
  have hi₁ : e₁.inst = .builtinRead := h.completes.inst_at he₁ ho₁ rfl
  have hemit : e₁.before.compileCall (.inl "Lread") 0 = .ok e₁.after := by
    have := h.completes.1.siteInv.code e₁ he₁
    rwa [hi₁] at this
  obtain ⟨-, -, before, label, after, -, hname, hcb, hbefore, -⟩ := compileCall_split hemit
  obtain rfl := hname _ rfl
  obtain ⟨hrun₁, hat⟩ := h.completes.runs (E := someEnv) (K := returning) he₁ hcb hbefore
    (R := EvenStep log someEnv returning c.cb)
    (fun hl hstraight hstep => EvenStep.of_straight hl hstraight hstep)
    (execLines someEnv.sym (B ++ prologue 0) t)
  rw [hsite₁] at hrun₁ hat
  exact ⟨log, c, e₀, _, h, fun e he => hown e he.1, hrun.trans hrun₁, hat.head⟩

/-- The call of `Lread` behind that of `__init`, in a `main` without locals. -/
theorem aligned_at_calls_main : ∃ (c : Compiler) (cfg : Config),
    Emits (mainWithLocals 0 .builtinRead) c ∧ c.cb[cfg.pc]? = some (.call "Lread") ∧
      (cfg.st.get Register.sp).toNat % 16 = 0 := by
  obtain ⟨log, c, e₀, cfg, h, hown, hrun, hl⟩ := mainReads_reaches ⟨fun _ => 0, fun _ => 0⟩
  exact ⟨c, cfg, emits_iff.2 ⟨log, h.completes⟩, hl, aligned_at_calls h hown returning_keepsSp
    (fun _ => rfl) rfl ⟨le_rfl, Nat.le_add_right _ _⟩ hrun hl⟩

/-- In a `main` with one local the call of `__init` is off by a word. -/
theorem main_misaligned : ¬ ∀ (m : Module) (log : List Emission) (c : Compiler) (f : FrameInfo)
    (e₀ : Emission) (E : Env) (K : Calls) (s : State) (p : ℕ) (cfg : Config) (l : String),
    FunctionCode m log c f e₀ → OwnFrames m log f e₀ → KeepsSp K →
    (s.get Register.sp).toNat % 16 = 0 → e₀.site ≤ p ∧ p ≤ e₀.site + 2 →
    Relation.ReflTransGen (BodyStep E K c.cb) ⟨p, s⟩ cfg → c.cb[cfg.pc]? = some (.call l) →
    (cfg.st.get Register.sp).toNat % 16 = 0 := by
  intro hall
  obtain ⟨log, c, e₀, h, hown, hheights⟩ := mainWithLocals_code 1 (.inl rfl)
  obtain ⟨t, cfg, hsp, hrun, hl, hentry⟩ := h.reaches_init (E := someEnv) (K := returning) rfl
    ⟨fun _ => 0, fun _ => 0⟩
  have hzero := hall _ log c _ e₀ someEnv returning ⟨fun _ => 0, fun _ => 0⟩ e₀.site cfg _ h
    (fun e he => hown e he.1) returning_keepsSp rfl ⟨le_rfl, Nat.le_add_right _ _⟩
    (hrun.lift id fun _ _ h => h.1) hl
  have hst : e₀.before.st = ⟨0⟩ := SymbolicStack.ext ((hheights e₀ h.begins).2 h.isBegin)
  rw [hst] at hentry
  have hbase := toNat_add_toInt_emod (t.get Register.sp) (-(SymbolicStack.spilledCount ⟨0⟩) * wordSize)
  have hcall := toNat_below_emod (saveBase t (SymbolicStack.spilledCount ⟨0⟩)) 17
  have hpc : cfg.st.get Register.sp = below (saveBase t (SymbolicStack.spilledCount ⟨0⟩)) 17 := hentry.sp
  rw [← hpc] at hcall
  have hspilled : SymbolicStack.spilledCount ⟨0⟩ = 0 := rfl
  have ht : (t.get Register.sp).toNat = 0 := by rw [hsp]; rfl
  unfold saveBase wordSize at *
  rw [hspilled] at hbase hcall
  omega

end LamaRv
