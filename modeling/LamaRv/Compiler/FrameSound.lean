import LamaRv.Compiler.Contract

/-!
# Soundness of the frame

The words of a frame should not overlap, and a function should write to its own words only: a word at
or above the `sp` of the entry, where the frame of the caller is, should keep its value.

* `CallerWord`: the words of the caller; `CallerStep`: steps that are to keep one;
* `KeepsCallerWords`: all runs of functions of some size keep them;
* `FrameIsSound`: the words of the frame and those of the caller are safe;
* `frameIsSound_iff`: when this is so.
-/

namespace LamaRv

open ByteMemory Rv64 CodeBuffer Compiler

/-! ### Words of the caller -/

/-- A word at or above the `sp` of the entry that is apart from the arguments in memory.  (Above means
that it is nearer than `2 ^ 61` bytes, since addresses wrap around.) -/
structure CallerWord (locc argc : ℕ) (a x : Word) : Prop where
  above : (x - a).toNat < 2 ^ 61
  args : ∀ j y, 8 ≤ j → j < argc → FrameWord.Stored locc argc a (.arg j) y → Apart y x

/-- An `ST` of the body names a local or an argument of the function; a store to a global or through a
pointer does not hit the word. -/
def Emission.Spares (f : FrameInfo) (x : Word) (e : Emission) (s : State) : Prop :=
  match e.inst with
  | .store ⟨.localVar, i⟩ => 0 ≤ i ∧ i < f.localsCount
  | .store ⟨.arg, j⟩ => 0 ≤ j ∧ j < f.argsCount
  | .store ⟨.global, _⟩ | .storeStack => ∀ y ∈ e.inst.storedAt e.before.st s, Apart y x
  | _ => True

/-- A step of a function, when the instruction that begins there spares the word and the function that
is called there keeps the contract. -/
structure CallerStep (log : List Emission) (f : FrameInfo) (x : Word) (E : Env) (K : Calls) (T : Text)
    (a b : Config) : Prop where
  step : BodyStep E K T a b
  spares : ∀ e ∈ log, e.inst.isBegin = false → e.site = a.pc → e.Spares f x a.st
  callee : ∀ e ∈ log, e.site ≤ a.pc → a.pc < e.after.cb.length →
    ∀ l, T[a.pc]? = some (.call l) → KeepsContract (e.inst.callArgs - 8) a.st b.st

/-- The symbolic stack of a function stays at or below a height, with what the instructions push for
their calls. -/
def HeightBound (m : Module) (log : List Emission) (e₀ : Emission) (height : ℕ) : Prop :=
  ∀ e, FunctionCode.Emits m log e₀ e →
    e.before.st.top + e.inst.pushes ≤ height ∧ e.after.st.top ≤ height

/-- A function with so many locals and arguments, and with a symbolic stack of so many slots at most,
never changes a word of its caller: at each of its calls and when it returns the word is as it was at
the entry.  In `main` the word is not the variable of the runtime in which `fp` is noted. -/
def KeepsCallerWords (locc argc height : ℕ) : Prop :=
  ∀ (m : Module) (log : List Emission) (c : Compiler) (f : FrameInfo) (e₀ : Emission) (E : Env)
    (K : Calls) (s₀ : State) (x : Word) (p : ℕ) (cfg : Config) (l : Line),
    FunctionCode m log c f e₀ → f.localsCount = locc → f.argsCount = argc →
    HeightBound m log e₀ height → (∀ s s', ¬ K "Bmatch_failure" s s') →
    CallerWord locc argc (s₀.get Register.sp) x →
    (f.functionName = "main" → Apart (E.sym "__gc_stack_bottom") x) → e₀.site ≤ p ∧ p ≤ e₀.site + 2 →
    Relation.ReflTransGen (CallerStep log f x E K c.cb) ⟨p, s₀⟩ cfg → c.cb[cfg.pc]? = some l →
    (l = .ret ∨ ∃ name, l = .call name) → cfg.st.load x = s₀.load x

/-- The words of a frame are loaded from where they are stored, do not overlap and, except for the
arguments, are strictly below the `sp` of the entry; an argument in memory is where a caller with its
operands in registers has put it; and no run changes a word of the caller. -/
structure FrameIsSound (locc argc height : ℕ) : Prop where
  agree : ∀ a w x y, FrameWord.Used locc argc height w → w.Loaded locc argc a x →
    w.Stored locc argc a y → x = y
  apart : ∀ a w w' x y, FrameWord.Used locc argc height w → FrameWord.Used locc argc height w' →
    w ≠ w' → w.Stored locc argc a x → w'.Stored locc argc a y → Apart x y
  below : ∀ a w x, FrameWord.Used locc argc height w → (∀ j, w ≠ .arg j) → w.Stored locc argc a x →
    0 < (a - x).toNat ∧ (a - x).toNat < 2 ^ 63
  args : ∀ (c c' : Compiler) (callee : FunctionId) (before after : List Line) (label : String),
    c.compileCall callee argc = .ok c' → c.st.top ≤ 15 →
    c'.cb = c.cb ++ (before ++ Line.call label :: after) → (∀ l ∈ before, l.straight) →
    ∀ (sym : String → Word) (s t : State) (v : List Word), v.length = argc → Operands c.st.top v s →
      t = execLines sym before s → ∀ j x, 8 ≤ j → j < argc →
      (FrameWord.arg j).Loaded locc argc (t.get Register.sp) x → t.load x = v.getD j 0
  keeps : KeepsCallerWords locc argc height

/-! ### Runs that keep a word -/

section Runs

variable {m : Module} {log : List Emission} {c : Compiler} {f : FrameInfo} {e e₀ : Emission}
  {E : Env} {K : Calls} {s₀ s t : State} {x : Word}

/-- In the body of a function without locals: `sp` is below the saved registers, and the word is as it
was at the entry. -/
structure KeptWord (x : Word) (s₀ s : State) : Prop where
  sp : s.get Register.sp = below (s₀.get Register.sp) 12
  load : s.load x = s₀.load x

/-- The calls that a step goes over. -/
def KeepingCalls (K : Calls) (e : Emission) : Calls := fun l s s' =>
  K l s s' ∧ KeepsContract (e.inst.callArgs - 8) s s'

theorem CallerStep.bodyStep {a b : Config} {T : Text} (h : CallerStep log f x E K T a b) (he : e ∈ log)
    (h₁ : e.site ≤ a.pc) (h₂ : a.pc < e.after.cb.length) : BodyStep E (KeepingCalls K e) T a b := by
  obtain ⟨hstep, -, hcallee⟩ := h
  cases hstep with
  | straight hl hs => exact .straight hl hs
  | jump hl hp => exact .jump hl hp
  | taken hl hp heq => exact .taken hl hp heq
  | skipped hl hne => exact .skipped hl hne
  | call hl hk => exact .call hl ⟨hk, (hcallee e he h₁ h₂ _ hl).set_ra⟩

/-- The lines that open a function. -/
theorem CallerStep.opening (h : FunctionCode m log c f e₀) (s : State) {k : ℕ} (hk : k < 2) :
    CallerStep log f x E K c.cb ⟨e₀.site + k, s⟩ ⟨e₀.site + k + 1, s⟩ := by
  obtain ⟨l, hl, hstraight, hstep⟩ := h.opening E K s k hk
  refine ⟨hstep, fun e he hb hsite => ?_, fun e _ _ _ l' hl' => ?_⟩
  · rw [h.eq_of_opening hk he hsite, h.isBegin] at hb
    cases hb
  · obtain rfl := Option.some.inj (hl.symm.trans hl')
    cases hstraight

/-- The prologue of a function without locals stores below the `sp` of the entry. -/
theorem exec_prologue_kept (sym : String → Word) (hsp : s.get Register.sp = s₀.get Register.sp)
    (hload : s.load x = s₀.load x) (hx : (x - s₀.get Register.sp).toNat < 2 ^ 61) :
    KeptWord x s₀ (execLines sym (prologue 0) s) := by
  constructor
  · rw [(exec_prologue_pointers sym 0 s).2, bodySp, hsp, ← add_toInt_neg _ (by decide)]
    rfl
  · rw [← hload, State.load, State.load, prologue_eq, execLines_append]
    refine load_congr fun i hi => ?_
    simp only [emitMv, emitAddi, emitIType, execLines_append, execLines_cons, execLines_nil,
      Line.exec_op, Op.exec, State.mem_set]
    refine mem_exec_stores sym Register.sp _ s fun p hp => ?_
    obtain ⟨⟨r, k⟩, hmem, rfl⟩ := List.mem_map.1 hp
    obtain ⟨hk1, hk, -⟩ := List.mem_zipIdx hmem
    have hlen : Register.saved.length = 12 := rfl
    have haddr : s.get Register.sp + BitVec.ofInt 64 (toInt (-((k : ℕ) + (0 : ℕ)) * wordSize)) =
        below (s₀.get Register.sp) k := by
      rw [hsp, ← add_toInt_neg _ (show k < 2 ^ 28 by omega), Nat.cast_zero, add_zero]
    simp only
    rw [haddr, above_byte_sub (by omega) hi (by omega)]
    omega

/-- A call with the operands in registers keeps `sp` and the word. -/
theorem CallExit.kept {st : SymbolicStack} {argc total n spilled : ℕ} {opt : Option ℤ} {alignment : Bool}
    {ra : Word} {u v : State} (htotal : total = argc + opt.toList.length) (hst : st.top ≤ 15)
    (hargc : argc ≤ 15) (ht : CallEntry st argc opt alignment s t)
    (hu : KeepsContract (total - 8) (t.set Register.ra ra) u)
    (hv : CallExit total alignment n spilled u v) (hspilled : spilled = 0)
    (hx : (x - s.get Register.sp).toNat < 2 ^ 62) :
    v.get Register.sp = s.get Register.sp ∧ v.load x = s.load x := by
  subst hspilled
  have hopt : opt.toList.length ≤ 1 := by cases opt <;> simp
  exact ⟨CallExit.get_sp hst hargc htotal ht hu hv,
    CallExit.load_caller htotal ht hu hv (saveBase_of_le hst s) hx (by omega)⟩

/-- The code of the `BEGIN` leads from the entry into the body. -/
theorem kept_begin (h : FunctionCode m log c f e₀) (hlocals : f.localsCount = 0)
    (hx : (x - s₀.get Register.sp).toNat < 2 ^ 61)
    (hbottom : f.functionName = "main" → Apart (E.sym "__gc_stack_bottom") x) {U : List Line}
    (hU : e₀.after.cb = e₀.before.cb ++ U) (J : String → State → Prop) :
    Safe E.sym (KeepingCalls K e₀) (fun _ s => s.load x = s₀.load x) J (KeptWord x s₀) U s₀ := by
  obtain ⟨s, hs⟩ : ∃ s, execLines E.sym (emitLabel "main" ++ premain) s₀ = s := ⟨_, rfl⟩
  have hsp : s.get Register.sp = s₀.get Register.sp := by
    rw [← hs]
    simp [emitLabel, premain, Op.exec, show Register.sp ≠ 5 by decide]
  have hload : f.functionName = "main" → s.load x = s₀.load x := by
    intro hname
    rw [← hs]
    simp only [emitLabel, premain, List.cons_append, List.nil_append, execLines_cons, execLines_nil,
      Line.exec_label, Line.exec_op, Op.exec, State.load_set]
    exact State.load_store_of_apart _ _ (hbottom hname)
  refine h.safe_begin hU rfl ?_ (fun hname t label ht => ?_) fun hname w label ra u v hw hk hv => ?_
  · rw [hlocals]
    exact exec_prologue_kept _ rfl rfl hx
  · rw [hs] at ht
    have hsaves : saveBase s (SymbolicStack.spilledCount ⟨0⟩) = s.get Register.sp :=
      saveBase_of_le (by decide) s
    exact (ht.load_caller hsaves (by rw [hsp]; omega) (by simp)).trans (hload hname)
  · rw [hs] at hw
    have hkeeps := hk.2
    rw [Instruction.callArgs_of_isBegin h.isBegin] at hkeeps
    obtain ⟨hspv, hloadv⟩ := CallExit.kept rfl (by decide) (by decide) hw hkeeps hv rfl (x := x)
      (by rw [hsp]; omega)
    rw [hlocals]
    exact exec_prologue_kept _ (hspv.trans hsp) (hloadv.trans (hload hname)) hx

/-- In register slots the own code of an instruction does not store to the word. -/
theorem storedAt_apart {i : Instruction} {c' : Compiler} (hemit : i.emitCode e.before = .ok c')
    (hi : e.inst = i) (hlocals : f.localsCount = 0) (hargs : f.argsCount ≤ 8)
    (htop : e.before.st.top ≤ 15) (hafter : c'.st.top ≤ 15) (hspares : e.Spares f x s) :
    ∀ p ∈ i.store? e.before.st, Apart (p.1.value s + BitVec.ofInt 64 (toInt p.2)) x := by
  have hheight := (emitCode_ok hemit).height
  intro p hp
  unfold Emission.Spares Instruction.storedAt at hspares
  rw [hi] at hspares
  cases i with
  | const value =>
    have hlt : e.before.st.top < 15 := by
      have hlast : c'.st.top = e.before.st.top + 1 := hheight
      omega
    rw [Instruction.store?, loc_of_lt hlt] at hp
    cases hp
  | binop op =>
    rw [Instruction.store?, loc_of_lt (by omega)] at hp
    cases hp
  | storeStack => exact hspares _ (Option.mem_map.2 ⟨p, hp, rfl⟩)
  | store loc =>
    obtain ⟨kind, k⟩ := loc
    cases kind with
    | global => exact hspares _ (Option.mem_map.2 ⟨p, hp, rfl⟩)
    | localVar =>
      obtain ⟨h0, hk⟩ : 0 ≤ k ∧ k < f.localsCount := hspares
      omega
    | arg =>
      obtain ⟨h0, hk⟩ : 0 ≤ k ∧ k < f.argsCount := hspares
      rw [Instruction.store?, if_pos (by omega)] at hp
      cases hp
    | captured | other => cases hp
  | _ => cases hp

/-- The code of every other instruction of a function without locals and without arguments in memory
keeps the word, in register slots. -/
theorem kept_body (h : FunctionCode m log c f e₀) (hlocals : f.localsCount = 0) (hargs : f.argsCount ≤ 8)
    (hK : ∀ s s', ¬ K "Bmatch_failure" s s') (hx : (x - s₀.get Register.sp).toNat < 2 ^ 61)
    (he : e ∈ log) (hheight : e.before.st.top + e.inst.pushes ≤ 15 ∧ e.after.st.top ≤ 15)
    (hb : e.inst.isBegin = false) {U : List Line} (hU : e.after.cb = e.before.cb ++ U)
    (hs : KeptWord x s₀ s) (hspares : e.Spares f x s) :
    Safe E.sym (KeepingCalls K e) (fun _ s => s.load x = s₀.load x)
      (fun l s' => ∃ t, e.inst.jumpTarget = some t ∧ l = labelForIp t ∧ KeptWord x s₀ s')
      (fun s' => e.inst.isTerminator = false ∧ KeptWord x s₀ s') U s := by
  have hemit := h.completes.1.siteInv.code e he
  have hnone : ∀ {T}, Quiet T → NoStores T → KeptWord x s₀ (execLines E.sym T s) := by
    intro T hq hn
    refine ⟨by rw [hq.get_exec E.sym (by decide), hs.sp], ?_⟩
    rw [State.load, hn.mem_exec]
    exact hs.load
  by_cases hend : e.inst = .endInst
  · rw [hend] at hemit
    obtain ⟨g, -, -, hcb⟩ := emitEnd_code hemit
    obtain rfl := List.append_cancel_left (hU.symm.trans hcb)
    have hpost : NoStores (if g.functionName = "main" then postmain else []) := by
      split_ifs <;> simp [postmain]
    have hstraight : ∀ l ∈ symbEmitMvToReg 10 (SymbolicStack.loc (e.before.st.top - 1)) ++
        epilogue g.localsCount ++ (if g.functionName = "main" then postmain else []), l.straight := by
      refine Ops.straight ?_
      split_ifs <;> simp
    rw [safe_append hstraight]
    show State.load _ x = _
    rw [State.load, (noStores_append.2 ⟨noStores_end _ _, hpost⟩).mem_exec]
    exact hs.load
  cases emitCode_body hemit hb hend with
  | straight T hcb hq ht hn =>
    obtain rfl := List.append_cancel_left (hU.symm.trans hcb)
    rw [safe_of_straight hq.straight]
    refine ⟨ht, by rw [hq.get_exec E.sym (by decide), hs.sp], ?_⟩
    exact (hn E.sym s x fun p hp =>
      storedAt_apart hemit rfl hlocals hargs (by omega) hheight.2 hspares p hp).trans hs.load
  | jump t T ht hcb =>
    obtain rfl := List.append_cancel_left (hU.symm.trans hcb)
    exact ⟨t, ht, rfl, hs⟩
  | branch t eq a b T V ht hterm hcb hq hn hq' hn' =>
    obtain rfl := List.append_cancel_left (hU.symm.trans hcb)
    rw [safe_append hq.straight]
    refine ⟨fun _ => ⟨t, ht, rfl, hnone hq hn⟩, fun _ => ?_⟩
    rw [safe_of_straight hq'.straight, ← execLines_append]
    exact ⟨hterm, hnone (writesOnly_append.2 ⟨hq, hq'⟩) (noStores_append.2 ⟨hn, hn'⟩)⟩
  | call y callee argc opt T hy hq hn hytop hyf hcall hargc hiscall hfail =>
    obtain ⟨hle, htop, -, hgrows⟩ := compileCall_ok hcall
    obtain ⟨V, hV, -⟩ := hgrows.text
    rw [hV, hy, List.append_assoc] at hU
    obtain rfl := List.append_cancel_left hU
    obtain ⟨g, -, -, -, -, -, -, hg, -⟩ := compileCall_parts hcall
    have hkept := hnone hq hn
    obtain ⟨t, ht⟩ : ∃ t, execLines E.sym T s = t := ⟨_, rfl⟩
    rw [ht] at hkept
    have hxt : (x - t.get Register.sp).toNat < 2 ^ 62 := by
      have := above_byte_sub (a := s₀.get Register.sp) (x := x) (i := 0) (k := 12) (by omega)
        (by omega) (by omega)
      rw [hkept.sp]
      simp only [BitVec.add_zero] at this
      omega
    have hopt : opt.toList.length ≤ 1 := by cases opt <;> simp
    rw [safe_append hq.straight, ht, ← List.append_nil V]
    refine safe_compileCall hcall hg hV (fun w label hw => ?_) ?_
    · exact (hw.load_caller (saveBase_of_le (by omega) t) hxt (by omega)).trans hkept.load
    · intro w label ra u v hname hw hcalled hv
      have hkeeps := hcalled.2
      rw [← hargc] at hkeeps
      obtain ⟨hspv, hloadv⟩ := CallExit.kept rfl (by omega) (by omega) hw hkeeps hv (by omega) hxt
      refine ⟨?_, hspv.trans hkept.sp, hloadv.trans hkept.load⟩
      cases hterm : e.inst.isTerminator with
      | false => rfl
      | true =>
        rw [hname _ (hfail hterm)] at hcalled
        exact absurd hcalled.1 (hK _ _)

end Runs

/-- A function without locals whose arguments and operands are in registers keeps the words of its
caller. -/
theorem keepsCallerWords {argc height : ℕ} (hargc : argc ≤ 8) (hheight : height ≤ 15) :
    KeepsCallerWords 0 argc height := by
  intro m log c f e₀ E K s₀ x p cfg l h hlocals hargs hbound hK hx hbottom hp hrun hl hkind
  have hrules : FunctionCode.Rules m log e₀ E (KeepingCalls K) (CallerStep log f x E K c.cb)
      (· = s₀) (fun _ => KeptWord x s₀) (fun _ _ _ s => s.load x = s₀.load x) := by
    constructor
    · rintro U s hU rfl
      exact (kept_begin h hlocals hx.above hbottom hU (fun _ _ => False)).mono (fun _ _ h => h)
        (fun _ _ h => h) fun _ h _ _ => h
    · intro e he hb U s cfg hU hs hstep
      obtain ⟨hbefore, hafter⟩ := hbound e he
      exact (kept_body h hlocals (by omega) hK hx.above he.1 ⟨by omega, by omega⟩ hb hU hs
        (hstep.spares e he.1 hb rfl)).mono (fun _ _ h => h) (fun _ _ h => h)
        fun _ h => ⟨h.1, fun _ _ => h.2⟩
  obtain ⟨e, -, t, -, -, hload⟩ := h.run hrules (fun e he a b hab => hab.bodyStep he) rfl
    (fun _ hk => CallerStep.opening h s₀ hk) hp hrun hl hkind
  exact hload

/-! ### When the frame is sound -/

section Sound

variable {locc argc height : ℕ}

theorem apart_irrefl (a : Word) : ¬ Apart a a := by
  rintro ⟨h, -⟩
  rw [BitVec.sub_self] at h
  exact absurd h (by decide)

/-- The first spilled word is the last saved register. -/
theorem FrameIsSound.height_le (h : FrameIsSound locc argc height) : height ≤ 15 := by
  by_contra hlt
  have hspill : FrameWord.Used locc argc height (.spill 0) := show 0 < height - 15 by omega
  have hsaved : FrameWord.Used locc argc height (.saved 12) := ⟨by decide, by decide⟩
  have hapart := h.apart 0 _ _ _ _ hspill hsaved (by simp)
    (FrameWord.exists_stored hspill (by simp)) (FrameWord.exists_stored hsaved (by simp))
  have hsame : (FrameWord.spill 0).storeAddr locc 0 = (FrameWord.saved 12).storeAddr locc 0 := by
    have hzero : toInt (-((0 : ℕ) : ℤ) * wordSize) = 0 := toInt_of_mem (by decide) (by decide)
    simp only [FrameWord.storeAddr, operandAddr, FrameWord.storeOperand, hzero, bodySp, if_true]
    rw [show ((12 : ℕ) : ℤ) + locc = locc + 12 by push_cast; ring]
    exact BitVec.add_zero _
  rw [hsame] at hapart
  exact apart_irrefl _ hapart

/-- The first local is the word at the `sp` of the entry. -/
theorem FrameIsSound.no_locals (h : FrameIsSound locc argc height) : locc = 0 := by
  by_contra hne
  have hlocal : FrameWord.Used locc argc height (.localVar 0) := show 0 < locc by omega
  have hbelow := (h.below 0 _ _ hlocal (by simp) (FrameWord.exists_stored hlocal (by simp))).1
  have hzero : toInt (-((0 : ℕ) : ℤ) * wordSize) = 0 := toInt_of_mem (by decide) (by decide)
  simp only [FrameWord.storeAddr, operandAddr, FrameWord.storeOperand, hzero,
    if_neg (show Register.fp ≠ Register.sp by decide)] at hbelow
  exact absurd hbelow (by decide)

/-- The tenth argument is loaded and stored at different places. -/
theorem FrameIsSound.argc_le_nine (h : FrameIsSound locc argc height) : argc ≤ 9 := by
  by_contra hlt
  have harg : FrameWord.Used locc argc height (.arg 9) := ⟨by decide, by omega⟩
  have hagree := h.agree 0 _ _ _ harg (FrameWord.exists_loaded harg (by simp))
    (FrameWord.exists_stored harg (by simp))
  have hload : toInt (((9 : ℕ) : ℤ) - 8) = 1 := toInt_of_mem (by decide) (by decide)
  have hstore : toInt ((((9 : ℕ) : ℤ) - 8) * wordSize) = 8 := toInt_of_mem (by decide) (by decide)
  simp only [FrameWord.loadAddr, FrameWord.storeAddr, operandAddr, FrameWord.storeOperand,
    FrameWord.loadOperand, hload, hstore, if_neg (show Register.fp ≠ Register.sp by decide)] at hagree
  exact absurd hagree (by decide)

/-- Of nine arguments the first one is in memory. -/
theorem FrameIsSound.argc_ne_nine (h : FrameIsSound locc argc height) : argc ≠ 9 := by
  rintro rfl
  obtain ⟨c', hc'⟩ : ∃ c', (inFrame 9).compileCall (.inr 35) 9 = .ok c' := ⟨_, rfl⟩
  obtain ⟨hv, f, before, label, after, -, -, htext, hstraight, hexec⟩ := compileCall_exec hc'
  obtain ⟨s, hs⟩ := @exists_operands 9 [1, 3, 5, 7, 9, 11, 13, 15, 17] (by decide) (by decide)
  have harg : FrameWord.Used locc 9 height (.arg 8) := ⟨by decide, by decide⟩
  have hload := h.args (inFrame 9) c' (.inr 35) before after label hc' (by decide) htext hstraight
    (fun _ => 0) s _ _ rfl hs rfl 8 _ (by decide) (by decide) (FrameWord.exists_loaded harg (by simp))
  have hfirst := CallEntry.outgoing (v := [1, 3, 5, 7, 9, 11, 13, 15, 17]) (j := 0)
    (hexec (fun _ => 0) s).1 (by decide) (by decide) hs (by decide)
  have hzero : toInt (((8 : ℕ) : ℤ) - 8) = 0 := toInt_of_mem (by decide) (by decide)
  simp only [FrameWord.loadAddr, operandAddr, FrameWord.loadOperand, hzero,
    if_neg (show Register.fp ≠ Register.sp by decide)] at hload
  exact absurd (hfirst.symm.trans hload) (by decide)

/-- **When the words of a frame are sound**: in a function without locals whose arguments and operands
are all in registers. -/
theorem frameIsSound_iff (locc argc height : ℕ) :
    FrameIsSound locc argc height ↔ locc = 0 ∧ argc ≤ 8 ∧ height ≤ 15 := by
  constructor
  · intro h
    have hle := h.argc_le_nine
    have hne := h.argc_ne_nine
    exact ⟨h.no_locals, by omega, h.height_le⟩
  · rintro ⟨rfl, hargc, hheight⟩
    -- the only words are those of the saved registers
    have hsaved : ∀ w, FrameWord.Used 0 argc height w → ∃ i, 1 ≤ i ∧ i ≤ 12 ∧ w = .saved i ∧
        ∀ a, w.loadAddr 0 a = w.storeAddr 0 a ∧ w.storeAddr 0 a = below a i := by
      intro w hw
      cases w with
      | localVar i => exact absurd hw (Nat.not_lt_zero i)
      | arg j =>
        obtain ⟨h8, hj⟩ : 8 ≤ j ∧ j < argc := hw
        omega
      | spill k =>
        have hk : k < height - 15 := hw
        omega
      | saved i =>
        obtain ⟨h1, h12⟩ : 1 ≤ i ∧ i ≤ 12 := hw
        refine ⟨i, h1, h12, rfl, fun a => ⟨rfl, ?_⟩⟩
        simp only [FrameWord.storeAddr, operandAddr, FrameWord.storeOperand,
          if_neg (show Register.fp ≠ Register.sp by decide), Nat.cast_zero, add_zero]
        exact add_toInt_neg a (by omega)
    refine ⟨?_, ?_, ?_, ?_, keepsCallerWords hargc hheight⟩
    · intro a w x y hw hx hy
      obtain ⟨i, -, -, -, haddr⟩ := hsaved w hw
      rw [hx.eq hw, hy.eq hw, (haddr a).1]
    · intro a w w' x y hw hw' hne hx hy
      rw [hx.eq hw, hy.eq hw']
      obtain ⟨i, -, hi, rfl, haddr⟩ := hsaved w hw
      obtain ⟨i', -, hi', rfl, haddr'⟩ := hsaved w' hw'
      rw [(haddr a).2, (haddr' a).2]
      exact below_apart a (fun heq => hne (by rw [heq])) (by omega) (by omega)
    · intro a w x hw _ hx
      rw [hx.eq hw]
      obtain ⟨i, h1, hi, -, haddr⟩ := hsaved w hw
      rw [(haddr a).2]
      unfold below
      constructor <;> bv_omega
    · intro _ _ _ _ _ _ _ _ _ _ _ _ _ _ _ _ _ j _ h8 hj
      omega

/-- With one local the frame reaches the word at the `sp` of the entry. -/
theorem local_in_caller : ¬ ∀ locc argc height, FrameIsSound locc argc height :=
  fun h => absurd (h 1 0 0).no_locals (by decide)

end Sound

end LamaRv
