import LamaRv.Compiler.Emit

/-!
# What the emitters do to the compiler

One lemma for each emitter says everything later proofs use: how the symbolic stack moves, which
frame is current, which labels the new lines define and jump to, and which targets are noted.
No later proof unfolds an emitter for these.

* `Grows`: the part of the state that only grows, with what was added;
* `Instruction.arity`, `Instruction.frameAfter`, `Instruction.targets`: the effect of an
  instruction;
* `emitCode_ok`: the effect is what `emitCode` does.
-/

namespace LamaRv

open Rv64 CodeBuffer Compiler

/-! ### The lines of a text -/

/-- The labels that a text defines. -/
def labelsOf (T : Text) : List String :=
  T.filterMap fun l => match l with
    | .label n => some n
    | _ => none

/-- The labels that the jumps and branches of a text mention. -/
def jumpsOf (T : Text) : List String :=
  T.filterMap fun l => match l with
    | .j n => some n
    | .branch _ _ _ n => some n
    | _ => none

@[simp] theorem labelsOf_append (S T : Text) : labelsOf (S ++ T) = labelsOf S ++ labelsOf T :=
  List.filterMap_append

@[simp] theorem jumpsOf_append (S T : Text) : jumpsOf (S ++ T) = jumpsOf S ++ jumpsOf T :=
  List.filterMap_append

theorem mem_labelsOf {T : Text} {n : String} : n ∈ labelsOf T ↔ Line.label n ∈ T := by
  unfold labelsOf
  rw [List.mem_filterMap]
  constructor
  · rintro ⟨l, hl, h⟩
    cases l with
    | label m => cases h; exact hl
    | _ => cases h
  · exact fun h => ⟨_, h, rfl⟩

/-- All lines are fall-through instructions. -/
def Ops (T : Text) : Prop := ∀ l ∈ T, ∃ o, l = .op o

@[simp] theorem ops_nil : Ops [] := by simp [Ops]

@[simp] theorem ops_append {S T : Text} : Ops (S ++ T) ↔ Ops S ∧ Ops T := List.forall_mem_append

@[simp] theorem ops_singleton (o : Op) : Ops [.op o] := by simp [Ops]

theorem ops_flatMap {α : Type} {xs : List α} {f : α → Text} (h : ∀ x, Ops (f x)) :
    Ops (xs.flatMap f) := by
  intro l hl
  obtain ⟨x, -, hx⟩ := List.mem_flatMap.1 hl
  exact h x l hx

theorem Ops.labelsOf {T : Text} (h : Ops T) : labelsOf T = [] := by
  unfold LamaRv.labelsOf
  rw [List.filterMap_eq_nil_iff]
  intro l hl
  obtain ⟨o, rfl⟩ := h l hl
  rfl

theorem Ops.jumpsOf {T : Text} (h : Ops T) : jumpsOf T = [] := by
  unfold LamaRv.jumpsOf
  rw [List.filterMap_eq_nil_iff]
  intro l hl
  obtain ⟨o, rfl⟩ := h l hl
  rfl

theorem Ops.straight {T : Text} (h : Ops T) : ∀ l ∈ T, l.straight := by
  intro l hl
  obtain ⟨o, rfl⟩ := h l hl
  rfl

/-! ### The lines of the emitters -/

section Lines

variable (r s : Reg) (a b d : Loc) (i : ℤ)

@[simp] theorem ops_toReg : Ops (toReg a r).1 := by
  cases a <;> simp [toReg, emitLd]

@[simp] theorem ops_emitLi : Ops (emitLi r i) := ops_singleton _

@[simp] theorem ops_emitLd : Ops (emitLd r s i) := ops_singleton _

@[simp] theorem ops_emitSd : Ops (emitSd r s i) := ops_singleton _

@[simp] theorem ops_emitAddi : Ops (emitAddi r s i) := ops_singleton _

@[simp] theorem ops_emitSrai : Ops (emitSrai r s i) := ops_singleton _

@[simp] theorem ops_emitMv : Ops (emitMv r s) := ops_singleton _

@[simp] theorem ops_emitRType (op : RType) (t : Reg) : Ops (emitRType op r s t) := ops_singleton _

@[simp] theorem ops_emitIType (op : IType) : Ops (emitIType op r s i) := ops_singleton _

@[simp] theorem ops_symbEmitRType (op : RType) : Ops (symbEmitRType op d a b) := by
  unfold symbEmitRType
  cases d <;> simp

@[simp] theorem ops_symbEmitIType (op : IType) : Ops (symbEmitIType op d a i) := by
  simp [symbEmitIType]

@[simp] theorem ops_symbEmitPseudoType (op : Pseudo) : Ops (symbEmitPseudoType op d a) := by
  simp [symbEmitPseudoType, emitPseudoType]

@[simp] theorem ops_symbEmitLi : Ops (symbEmitLi d i) := by simp [symbEmitLi]

@[simp] theorem ops_symbEmitLd : Ops (symbEmitLd d a i) := by simp [symbEmitLd]

@[simp] theorem ops_symbEmitSd : Ops (symbEmitSd d a i) := by simp [symbEmitSd]

@[simp] theorem ops_symbEmitLa (l : String) : Ops (symbEmitLa d l) := by simp [symbEmitLa]

@[simp] theorem ops_symbEmitMv : Ops (symbEmitMv d a) := by simp [symbEmitMv]

@[simp] theorem ops_symbEmitMvToReg : Ops (symbEmitMvToReg r a) := by simp [symbEmitMvToReg]

@[simp] theorem ops_symbEmitMvFromReg : Ops (symbEmitMvFromReg d r) := by simp [symbEmitMvFromReg]

@[simp] theorem ops_binopLines (op : BinopKind) : Ops (binopLines op d a b) := by
  cases op <;> simp [binopLines, symbEmitEq, symbEmitNeq, symbEmitSle, symbEmitSge]

@[simp] theorem ops_pushReg : Ops (pushReg r) := by simp [pushReg]

@[simp] theorem ops_saveCaller (n : ℕ) : Ops (saveCaller n) := by
  simp [saveCaller, ops_flatMap]

@[simp] theorem ops_restoreCaller (n : ℕ) : Ops (restoreCaller n) := by
  simp [restoreCaller, ops_flatMap]

@[simp] theorem ops_prologue (n : ℕ) : Ops (prologue n) := by simp [prologue, ops_flatMap]

@[simp] theorem ops_epilogue (n : ℕ) : Ops (epilogue n) := by simp [epilogue, ops_flatMap]

@[simp] theorem ops_premain : Ops premain := by
  rw [premain, ← List.singleton_append, ops_append]
  exact ⟨ops_singleton _, ops_singleton _⟩

@[simp] theorem ops_postmain : Ops postmain := ops_singleton _

end Lines

/-! ### Growth -/

/-- From `c` to `c'` the lines grew by some that define the labels `defs` and jump to the labels
`uses`, `done` stayed, and `todo` gained at most the pairs `targets`, all of which are noted. -/
structure Grows (c c' : Compiler) (defs uses : List String) (targets : List (ℕ × ℕ)) : Prop where
  globalsCount : c'.globalsCount = c.globalsCount
  done : c'.done = c.done
  text : ∃ T, c'.cb = c.cb ++ T ∧ labelsOf T = defs ∧ jumpsOf T = uses
  keeps : ∀ k v, c.todo.lookup k = some v → c'.todo.lookup k = some v
  gains : ∀ k v, c'.todo.lookup k = some v → c.todo.lookup k = some v ∨ (k, v) ∈ targets
  noted : ∀ p ∈ targets, c'.done.lookup p.1 = some p.2 ∨ c'.todo.lookup p.1 = some p.2

namespace Grows

variable {c c' c'' : Compiler} {d d' u u' : List String} {t t' : List (ℕ × ℕ)}

/-- New lines, and a new symbolic stack. -/
theorem finish (c : Compiler) (st : SymbolicStack) (T : Text) :
    Grows c (Compiler.finish c st T) (labelsOf T) (jumpsOf T) [] :=
  ⟨rfl, rfl, ⟨T, rfl, rfl, rfl⟩, fun _ _ h => h, fun _ _ h => .inl h, by simp⟩

theorem emit (c : Compiler) (T : Text) : Grows c (c.emit T) (labelsOf T) (jumpsOf T) [] :=
  finish c c.st T

theorem finishOps (c : Compiler) (st : SymbolicStack) {T : Text} (h : Ops T) :
    Grows c (Compiler.finish c st T) [] [] [] := by
  have := finish c st T
  rwa [h.labelsOf, h.jumpsOf] at this

theorem emitOps (c : Compiler) {T : Text} (h : Ops T) : Grows c (c.emit T) [] [] [] :=
  finishOps c c.st h

theorem finishLast (c : Compiler) (st : SymbolicStack) {T : Text} (h : Ops T) (L : Text) :
    Grows c (Compiler.finish c st (T ++ L)) (labelsOf L) (jumpsOf L) [] := by
  have := finish c st (T ++ L)
  rwa [labelsOf_append, jumpsOf_append, h.labelsOf, h.jumpsOf] at this

theorem finishCall (c : Compiler) (st : SymbolicStack) (label : String) {T : Text} (h : Ops T) :
    Grows c (Compiler.finish c st (emitCall label ++ T)) [] [] [] := by
  have := finish c st (emitCall label ++ T)
  rwa [labelsOf_append, jumpsOf_append, h.labelsOf, h.jumpsOf] at this

/-- Only the symbolic stack and the frame change. -/
theorem of_eq (h₁ : c'.globalsCount = c.globalsCount) (h₂ : c'.done = c.done) (h₃ : c'.cb = c.cb)
    (h₄ : c'.todo = c.todo) : Grows c c' [] [] [] :=
  ⟨h₁, h₂, ⟨[], by simp [h₃], rfl, rfl⟩, fun _ _ h => h₄ ▸ h, fun _ _ h => .inl (h₄ ▸ h), by simp⟩

theorem trans (h : Grows c c' d u t) (h' : Grows c' c'' d' u' t') :
    Grows c c'' (d ++ d') (u ++ u') (t ++ t') := by
  obtain ⟨T, hT, hd, hu⟩ := h.text
  obtain ⟨T', hT', hd', hu'⟩ := h'.text
  refine ⟨h'.globalsCount.trans h.globalsCount, h'.done.trans h.done,
    ⟨T ++ T', by rw [hT', hT, List.append_assoc], by simp [hd, hd'], by simp [hu, hu']⟩,
    fun k v hk => h'.keeps k v (h.keeps k v hk), ?_, ?_⟩
  · intro k v hk
    rcases h'.gains k v hk with hk | hk
    · rcases h.gains k v hk with hk | hk
      · exact .inl hk
      · exact .inr (List.mem_append_left _ hk)
    · exact .inr (List.mem_append_right _ hk)
  · intro p hp
    rcases List.mem_append.1 hp with hp | hp
    · rcases h.noted p hp with hp | hp
      · exact .inl (h'.done ▸ hp)
      · exact .inr (h'.keeps _ _ hp)
    · exact h'.noted p hp

end Grows

theorem emplace_lookup (m : OffsetMap) (k v : ℕ) :
    (emplace m k v).1.lookup k = some (emplace m k v).2.1 := by
  unfold emplace
  cases h : m.lookup k with
  | none => simp
  | some w => simpa using h

theorem emplace_lookup_ne (m : OffsetMap) {k k' : ℕ} (v : ℕ) (h : k' ≠ k) :
    (emplace m k v).1.lookup k' = m.lookup k' := by
  unfold emplace
  cases m.lookup k with
  | none => simp [AList.lookup_insert_ne h]
  | some w => rfl

/-- A key that is there keeps its value. -/
theorem emplace_of_some {m : OffsetMap} {k w : ℕ} (v : ℕ) (h : m.lookup k = some w) :
    emplace m k v = (m, w, false) := by
  simp [emplace, h]

theorem emplace_of_none {m : OffsetMap} {k : ℕ} (v : ℕ) (h : m.lookup k = none) :
    emplace m k v = (m.insert k v, v, true) := by
  simp [emplace, h]

/-- A noted target. -/
theorem addJumpTarget_ok {c c' : Compiler} {offset height : ℕ}
    (h : c.addJumpTarget offset height = .ok c') :
    c'.st = c.st ∧ c'.currentFrame = c.currentFrame ∧
      (∃ T, c'.cb = c.cb ++ T ∧ ∀ l ∈ T, ∃ x, l = .comment x) ∧
      Grows c c' [] [] [(offset, height)] := by
  unfold addJumpTarget at h
  cases hd : c.done.lookup offset with
  | some w =>
    simp only [hd, bind_ok, check_ok, return_ok] at h
    obtain ⟨-, rfl, rfl⟩ := h
    refine ⟨rfl, rfl, ⟨[], by simp, by simp⟩, rfl, rfl, ⟨[], by simp, rfl, rfl⟩, fun _ _ h => h,
      fun _ _ h => .inl h, ?_⟩
    intro p hp
    rw [List.mem_singleton.1 hp]
    exact .inl hd
  | none =>
    simp only [hd, bind_ok, check_ok, return_ok] at h
    obtain ⟨-, heq, rfl⟩ := h
    refine ⟨rfl, rfl, ⟨_, rfl, by simp [emitComment]⟩, rfl, rfl, ⟨_, rfl, rfl, rfl⟩, ?_, ?_, ?_⟩
    · intro k v hk
      have hk : c.todo.lookup k = some v := hk
      by_cases hko : k = offset
      · subst hko
        simpa [emit, emplace_of_some _ hk] using hk
      · rw [← hk]
        exact emplace_lookup_ne _ _ hko
    · intro k v hk
      by_cases hko : k = offset
      · subst hko
        have := emplace_lookup c.todo k height
        rw [show (emplace c.todo k height).2.1 = height from heq] at this
        have hk : (emplace c.todo k height).1.lookup k = some v := hk
        rw [this] at hk
        cases hk
        exact .inr (by simp)
      · exact .inl ((emplace_lookup_ne _ _ hko).symm.trans hk)
    · intro p hp
      rw [List.mem_singleton.1 hp]
      have := emplace_lookup c.todo offset height
      rw [show (emplace c.todo offset height).2.1 = height from heq] at this
      exact .inr this

/-! ### Calls -/

theorem placeArgs_ok {is : List ℕ} {st st' : SymbolicStack} {T : Text}
    (h : placeArgs is st = .ok (T, st')) :
    is.length ≤ st.top ∧ st'.top = st.top - is.length ∧ Ops T := by
  induction is generalizing st T with
  | nil =>
    cases h
    simp
  | cons i is ih =>
    simp only [placeArgs, bind_ok, return_ok, Prod.exists] at h
    obtain ⟨r, -, loc, st₁, hpop, T₁, st₂, hrec, h⟩ := h
    cases h
    obtain ⟨hpos, -, rfl⟩ := SymbolicStack.pop_ok hpop
    obtain ⟨hle, htop, hops⟩ := ih hrec
    refine ⟨?_, ?_, by simp [hops]⟩ <;> simp only [List.length_cons] at * <;> omega

theorem pushArgs_ok {n : ℕ} {st st' : SymbolicStack} {T : Text}
    (h : pushArgs n st = .ok (T, st')) : n ≤ st.top ∧ st'.top = st.top - n ∧ Ops T := by
  induction n generalizing st T with
  | zero =>
    cases h
    simp
  | succ n ih =>
    simp only [pushArgs, bind_ok, return_ok, Prod.exists] at h
    obtain ⟨loc, st₁, hpop, T₁, st₂, hrec, h⟩ := h
    cases h
    obtain ⟨hpos, -, rfl⟩ := SymbolicStack.pop_ok hpop
    obtain ⟨hle, htop, hops⟩ := ih hrec
    refine ⟨?_, ?_, by simp [hops]⟩ <;> simp only at * <;> omega

/-- The jump target that a call notes. -/
def callTargets : FunctionId → List (ℕ × ℕ)
  | .inl _ => []
  | .inr offset => [(offset, 0)]

theorem calleeLabel_ok {c c' : Compiler} {callee : FunctionId} {label : String}
    (h : c.calleeLabel callee = .ok (c', label)) :
    c'.st = c.st ∧ c'.currentFrame = c.currentFrame ∧ Grows c c' [] [] (callTargets callee) := by
  cases callee with
  | inl name =>
    cases h
    exact ⟨rfl, rfl, Grows.of_eq rfl rfl rfl rfl⟩
  | inr offset =>
    simp only [calleeLabel, bind_ok, return_ok] at h
    obtain ⟨c₁, h₁, h⟩ := h
    cases h
    obtain ⟨hst, hf, -, hg⟩ := addJumpTarget_ok h₁
    exact ⟨hst, hf, hg⟩

/-- The line that sets the extra argument. -/
def setExtra : Option ℤ → List Line
  | some imm => emitLi 10 imm
  | none => []

/-- The lines of a call before the call itself. -/
def callBefore (spilled : ℕ) (optArg : Option ℤ) (alignment : Bool) (moves pushes : List Line) :
    List Line :=
  saveCaller spilled ++ setExtra optArg ++ moves ++
    (if alignment then emitAddi Register.sp Register.sp (-wordSize) else []) ++ pushes

/-- The lines of a call after the call itself; `argc` counts the extra argument. -/
def callAfter (argc : ℕ) (alignment : Bool) (result : Loc) (spilled : ℕ) : List Line :=
  (if argc > 8 then emitAddi Register.sp Register.sp ((argc - 8 : ℕ) * wordSize) else []) ++
    (if alignment then emitAddi Register.sp Register.sp wordSize else []) ++
    symbEmitMvFromReg result 10 ++ restoreCaller spilled

theorem ops_callBefore {spilled : ℕ} {optArg : Option ℤ} {alignment : Bool}
    {moves pushes : List Line} (hm : Ops moves) (hp : Ops pushes) :
    Ops (callBefore spilled optArg alignment moves pushes) := by
  cases optArg <;> cases alignment <;> simp [callBefore, setExtra, hm, hp]

@[simp] theorem ops_callAfter (argc : ℕ) (alignment : Bool) (result : Loc) (spilled : ℕ) :
    Ops (callAfter argc alignment result spilled) := by
  unfold callAfter
  cases alignment <;> split_ifs <;> simp

/-- A call, taken apart. -/
theorem compileCall_parts {c c' : Compiler} {callee : FunctionId} {argc : ℕ} {opt : Option ℤ}
    (h : c.compileCall callee argc opt = .ok c') :
    ∃ f moves st₁ pushes st₂ c₁ label, c.currentFrame = some f ∧
      placeArgs (argRegs opt.toList.length (argc + opt.toList.length)) c.st = .ok (moves, st₁) ∧
      pushArgs (argc + opt.toList.length - 8) st₁ = .ok (pushes, st₂) ∧
      (c.emit (callBefore c.st.spilledCount opt
        (callAlignment f.localsCount c.st.spilledCount (argc + opt.toList.length))
        moves pushes)).calleeLabel callee = .ok (c₁, label) ∧
      c' = c₁.finish ⟨st₂.top + 1⟩ (emitCall label ++ callAfter (argc + opt.toList.length)
        (callAlignment f.localsCount c.st.spilledCount (argc + opt.toList.length))
        (SymbolicStack.loc st₂.top) (SymbolicStack.spilledCount ⟨st₂.top + 1⟩)) := by
  have hopt : (if opt.isSome then 1 else 0) = opt.toList.length := by cases opt <;> rfl
  simp only [compileCall, bind_ok, return_ok, Prod.exists, hopt] at h
  obtain ⟨f, hf, moves, st₁, hplace, pushes, st₂, hpush, c₁, label, hlabel, rfl⟩ := h
  refine ⟨f, moves, st₁, pushes, st₂, c₁, label, ?_, hplace, hpush, ?_, ?_⟩
  · unfold Compiler.frame at hf
    cases hc : c.currentFrame with
    | none => simp [hc] at hf
    | some g =>
      simp only [hc, Except.ok.injEq] at hf
      rw [hf]
  · cases opt <;> exact hlabel
  · simp only [finish, SymbolicStack.alloc, callAfter, List.append_assoc]

theorem compileCall_ok {c c' : Compiler} {callee : FunctionId} {argc : ℕ} {opt : Option ℤ}
    (h : c.compileCall callee argc opt = .ok c') :
    argc ≤ c.st.top ∧ c'.st.top = c.st.top - argc + 1 ∧ c'.currentFrame = c.currentFrame ∧
      Grows c c' [] [] (callTargets callee) := by
  obtain ⟨f, moves, st₁, pushes, st₂, c₁, label, -, hplace, hpush, hlabel, rfl⟩ :=
    compileCall_parts h
  obtain ⟨hle₁, htop₁, hops₁⟩ := placeArgs_ok hplace
  obtain ⟨hle₂, htop₂, hops₂⟩ := pushArgs_ok hpush
  obtain ⟨hst, hf, hg⟩ := calleeLabel_ok hlabel
  have hlen : (argRegs opt.toList.length (argc + opt.toList.length)).length +
      (argc + opt.toList.length - 8) = argc := by
    simp only [argRegs, List.length_reverse, List.length_range']
    cases opt <;> simp <;> omega
  refine ⟨by omega, ?_, hf, ?_⟩
  · show st₂.top + 1 = _
    omega
  · have hbefore := (Grows.emitOps c (ops_callBefore hops₁ hops₂)).trans hg
    simpa using hbefore.trans (Grows.finishCall c₁ ⟨st₂.top + 1⟩ label (ops_callAfter _ _ _ _))

/-! ### Instructions -/

namespace Instruction

/-- How many slots an instruction pops and pushes. The call of `__init` leaves its result in a
slot that nothing pops. -/
def arity : Instruction → ℕ × ℕ
  | load ⟨.other _ _, _⟩ => (0, 0)
  | const _ | string _ _ | load _ | builtinRead => (0, 1)
  | sExpression _ size => (size, 1)
  | storeStack | elem | binop _ => (2, 1)
  | storeArray => (3, 1)
  | conditionalJump _ _ | drop | endInst => (1, 0)
  | duplicate => (1, 2)
  | swap => (2, 2)
  | tag _ _ | fail _ _ | store _ | builtinWrite | builtinLength | builtinString => (1, 1)
  | builtinArray len => (len, 1)
  | call _ argc => (argc, 1)
  | beginInst (.inl name) _ _ => (0, if name = "main" then 1 else 0)
  | _ => (0, 0)

/-- The height of the symbolic stack after an instruction. -/
def heightAfter (i : Instruction) (height : ℕ) : ℕ := height - i.arity.1 + i.arity.2

/-- The name that `emitBegin` gives a function. -/
def label : FunctionId → String
  | .inl name => name
  | .inr offset => labelForIp offset

/-- The frame after an instruction. -/
def frameAfter (f : Option FrameInfo) : Instruction → Option FrameInfo
  | beginInst id argc locc => some ⟨label id, locc, argc⟩
  | cBegin offset argc locc => some ⟨"closure@" ++ formatHex10 offset, locc, argc⟩
  | _ => f

/-- The instructions that set the current frame. -/
def isBegin : Instruction → Bool
  | beginInst _ _ _ | cBegin _ _ _ => true
  | _ => false

/-- The labels that the code of an instruction defines. -/
def nameLabels : Instruction → List String
  | beginInst (.inl name) _ _ => [name]
  | cBegin offset _ _ => ["closure@" ++ formatHex10 offset]
  | _ => []

/-- The target of a jump. -/
def jumpTarget : Instruction → Option ℕ
  | jump target | conditionalJump target _ => some target
  | _ => none

/-- The target of a call. -/
def callTarget : Instruction → Option ℕ
  | call (.inr target) _ => some target
  | _ => none

/-- The targets that an instruction notes, with their heights; `height` is the height after the
instruction. -/
def targets (i : Instruction) (height : ℕ) : List (ℕ × ℕ) :=
  i.jumpTarget.toList.map (·, height) ++ i.callTarget.toList.map (·, 0)

end Instruction

/-- Texts that start differently are different. -/
theorem append_ne_append {p q : String} (s t : String) (hp : p.toList.head? ≠ q.toList.head?)
    (hp0 : p.toList ≠ []) (hq0 : q.toList ≠ []) : p ++ s ≠ q ++ t := by
  intro h
  have h := congrArg (fun x => x.toList.head?) h
  simp only [String.toList_append, List.head?_append_of_ne_nil _ hp0,
    List.head?_append_of_ne_nil _ hq0] at h
  exact hp h

theorem labelForIp_ne_main (ip : ℕ) : labelForIp ip ≠ "main" := by
  have h := append_ne_append (p := ".lbc_") (q := "main") (formatHex ip) "" (by decide) (by decide)
    (by decide)
  rwa [String.append_empty] at h

theorem closure_ne_main (s : String) : "closure@" ++ s ≠ "main" := by
  have h := append_ne_append (p := "closure@") (q := "main") s "" (by decide) (by decide) (by decide)
  rwa [String.append_empty] at h

theorem labelForIp_inj {a b : ℕ} (h : labelForIp a = labelForIp b) : a = b := by
  have h := congrArg String.toList h
  simp only [labelForIp, String.toList_append] at h
  exact formatHex_inj (String.toList_inj.1 (List.append_cancel_left h))

/-- The effect of an instruction's code on the compiler. -/
structure Instruction.Effect (i : Instruction) (c c' : Compiler) : Prop where
  pops : i.arity.1 ≤ c.st.top
  height : c'.st.top = i.heightAfter c.st.top
  frame : c'.currentFrame = i.frameAfter c.currentFrame
  grows : Grows c c' i.nameLabels (i.jumpTarget.toList.map labelForIp) (i.targets c'.st.top)

section Effect

variable {c c' : Compiler}

theorem emitStoreStack_ok (h : emitStoreStack c = .ok c') : Instruction.storeStack.Effect c c' := by
  simp only [emitStoreStack, bind_ok, return_ok, Prod.exists] at h
  obtain ⟨loc, st, hpop, loc', st', hpop', rfl⟩ := h
  obtain ⟨hpos, -, rfl⟩ := SymbolicStack.pop_ok hpop
  obtain ⟨hpos', -, rfl⟩ := SymbolicStack.pop_ok hpop'
  simp only at hpos'
  refine ⟨?_, ?_, rfl, Grows.finishOps _ _ (by simp)⟩
  · show 2 ≤ c.st.top
    omega
  · show c.st.top - 1 - 1 + 1 = c.st.top - 2 + 1
    omega

theorem emitJump_ok {target : ℕ} (h : emitJump c target = .ok c') :
    (Instruction.jump target).Effect c c' := by
  obtain ⟨hst, hf, -, hg⟩ := addJumpTarget_ok h
  have hst : c'.st = c.st := hst
  refine ⟨Nat.zero_le _, by rw [hst]; rfl, hf, ?_⟩
  rw [hst]
  exact (Grows.emit c (emitJ (labelForIp target))).trans hg

theorem emitConditionalJump_ok {target : ℕ} {zero : Bool}
    (h : emitConditionalJump c target zero = .ok c') :
    (Instruction.conditionalJump target zero).Effect c c' := by
  simp only [emitConditionalJump, bind_ok, Prod.exists] at h
  obtain ⟨loc, st, hpop, h⟩ := h
  obtain ⟨hpos, -, rfl⟩ := SymbolicStack.pop_ok hpop
  obtain ⟨hst, hf, -, hg⟩ := addJumpTarget_ok h
  have htop : c'.st.top = c.st.top - 1 := by rw [hst]; rfl
  refine ⟨hpos, htop, hf, ?_⟩
  rw [htop]
  exact (Grows.finishLast c _ (by simp) (emitCj zero _ Register.zero (labelForIp target))).trans hg

theorem emitSwap_ok (h : emitSwap c = .ok c') : Instruction.swap.Effect c c' := by
  simp only [emitSwap, bind_ok, return_ok, Prod.exists] at h
  obtain ⟨loc, st, hpop, loc', hpeek, rfl⟩ := h
  obtain ⟨hpos, -, rfl⟩ := SymbolicStack.pop_ok hpop
  obtain ⟨hpos', -⟩ := SymbolicStack.peek_ok hpeek
  simp only at hpos'
  refine ⟨?_, ?_, rfl, Grows.finishOps _ _ (by simp)⟩
  · show 2 ≤ c.st.top
    omega
  · show c.st.top - 1 + 1 = c.st.top - 2 + 2
    omega

theorem emitDuplicate_ok (h : emitDuplicate c = .ok c') : Instruction.duplicate.Effect c c' := by
  simp only [emitDuplicate, bind_ok, return_ok] at h
  obtain ⟨src, hpeek, rfl⟩ := h
  obtain ⟨hpos, -⟩ := SymbolicStack.peek_ok hpeek
  refine ⟨hpos, ?_, rfl, Grows.finishOps _ _ (by simp)⟩
  show c.st.top + 1 = c.st.top - 1 + 2
  omega

theorem emitBinop_ok {op : BinopKind} (h : emitBinop c op = .ok c') :
    (Instruction.binop op).Effect c c' := by
  simp only [emitBinop, bind_ok, return_ok, Prod.exists] at h
  obtain ⟨loc, st, hpop, loc', st', hpop', rfl⟩ := h
  obtain ⟨hpos, -, rfl⟩ := SymbolicStack.pop_ok hpop
  obtain ⟨hpos', -, rfl⟩ := SymbolicStack.pop_ok hpop'
  simp only at hpos'
  refine ⟨?_, ?_, rfl, Grows.finishOps _ _ (by simp)⟩
  · show 2 ≤ c.st.top
    omega
  · show c.st.top - 1 - 1 + 1 = c.st.top - 2 + 1
    omega

theorem emitLoad_ok {loc : LocationEntry} (h : emitLoad c loc = .ok c') :
    (Instruction.load loc).Effect c c' := by
  have key : (Instruction.load loc).arity = (0, 1) → ∀ T, Ops T →
      (Instruction.load loc).Effect c (finish c ⟨c.st.top + 1⟩ T) := by
    intro harity T hT
    refine ⟨?_, ?_, rfl, Grows.finishOps _ _ hT⟩
    · rw [harity]
      exact Nat.zero_le _
    · rw [Instruction.heightAfter, harity]
      rfl
  obtain ⟨kind, index⟩ := loc
  cases kind with
  | global =>
    simp only [emitLoad, bind_ok, return_ok] at h
    obtain ⟨-, -, off, -, rfl⟩ := h
    exact key rfl _ (by simp)
  | localVar =>
    simp only [emitLoad, bind_ok, return_ok] at h
    obtain ⟨-, -, -, -, off, -, rfl⟩ := h
    exact key rfl _ (by simp)
  | arg =>
    simp only [emitLoad, bind_ok] at h
    obtain ⟨-, -, -, -, h⟩ := h
    split_ifs at h
    · simp only [bind_ok, return_ok] at h
      obtain ⟨r, -, rfl⟩ := h
      exact key rfl _ (by simp)
    · cases h
      exact key rfl _ (by simp)
  | captured => cases h
  | other m hm =>
    cases h
    exact ⟨Nat.zero_le _, rfl, rfl, Grows.of_eq rfl rfl rfl rfl⟩

theorem emitStore_ok {loc : LocationEntry} (h : emitStore c loc = .ok c') :
    (Instruction.store loc).Effect c c' := by
  obtain ⟨kind, index⟩ := loc
  simp only [emitStore, bind_ok] at h
  obtain ⟨value, hpeek, h⟩ := h
  obtain ⟨hpos, -⟩ := SymbolicStack.peek_ok hpeek
  have key : ∀ T, Ops T → (Instruction.store ⟨kind, index⟩).Effect c (c.emit T) :=
    fun T hT => ⟨hpos, (Nat.sub_add_cancel hpos).symm, rfl, Grows.emitOps _ hT⟩
  cases kind with
  | global =>
    simp only [bind_ok, return_ok] at h
    obtain ⟨off, -, rfl⟩ := h
    exact key _ (by simp)
  | localVar =>
    simp only [bind_ok, return_ok] at h
    obtain ⟨off, -, rfl⟩ := h
    exact key _ (by simp)
  | arg =>
    simp only at h
    split_ifs at h
    · simp only [bind_ok, return_ok] at h
      obtain ⟨r, -, rfl⟩ := h
      exact key _ (by simp)
    · simp only [bind_ok, return_ok] at h
      obtain ⟨off, -, rfl⟩ := h
      exact key _ (by simp)
  | captured => cases h
  | other m hm =>
    cases h
    exact ⟨hpos, (Nat.sub_add_cancel hpos).symm, rfl, Grows.of_eq rfl rfl rfl rfl⟩

theorem emitEnd_ok (h : emitEnd c = .ok c') : Instruction.endInst.Effect c c' := by
  unfold emitEnd at h
  cases hf : c.currentFrame with
  | none => simp [hf] at h
  | some f =>
    simp only [hf, bind_ok, return_ok, Prod.exists] at h
    obtain ⟨loc, st, hpop, rfl⟩ := h
    obtain ⟨hpos, -, rfl⟩ := SymbolicStack.pop_ok hpop
    have hops : Ops (if f.functionName = "main" then postmain else []) := by
      split_ifs <;> simp
    exact ⟨hpos, rfl, rfl, Grows.finishLast c _ (by simp [hops]) emitRet⟩

/-- The part of `emitBegin` between the name label and the prologue. -/
theorem enterFrame_ok {x y : Compiler} {name : String} {argc locc : ℕ}
    (hx : x = { c with currentFrame := some ⟨name, locc, argc⟩ })
    (h : (if name = "main" then (x.emit premain).compileCall (.inl "__init") 0 else .ok x) = .ok y) :
    y.st.top = c.st.top + (if name = "main" then 1 else 0) ∧
      y.currentFrame = some ⟨name, locc, argc⟩ ∧ Grows c y [] [] [] := by
  have hframe : Grows c x [] [] [] := by
    rw [hx]
    exact Grows.of_eq rfl rfl rfl rfl
  split_ifs at h with hmain
  · obtain ⟨-, htop, hf, hg⟩ := compileCall_ok h
    rw [if_pos hmain]
    refine ⟨?_, ?_, (hframe.trans (Grows.emitOps _ ops_premain)).trans hg⟩
    · rw [htop, hx]
      rfl
    · rw [hf, hx]
      rfl
  · cases h
    rw [if_neg hmain]
    exact ⟨by rw [hx]; rfl, by rw [hx], hframe⟩

theorem emitBegin_ok {id : FunctionId} {argc locc : ℕ} (h : emitBegin c id argc locc = .ok c') :
    c'.st.top = c.st.top + (if Instruction.label id = "main" then 1 else 0) ∧
      c'.currentFrame = some ⟨Instruction.label id, locc, argc⟩ ∧
      Grows c c' (id.elim (fun name => [name]) (fun _ => [])) [] [] := by
  have key : ∀ (x : Compiler) (name : String), ((if name = "main" then
        (emit { x with currentFrame := some ⟨name, locc, argc⟩ } premain).compileCall
          (.inl "__init") 0
      else .ok { x with currentFrame := some ⟨name, locc, argc⟩ }) >>=
        fun y => pure (y.emit (prologue locc))) = .ok c' →
      c'.st.top = x.st.top + (if name = "main" then 1 else 0) ∧
      c'.currentFrame = some ⟨name, locc, argc⟩ ∧ Grows x c' [] [] [] := by
    intro x name hx
    simp only [bind_ok, return_ok] at hx
    obtain ⟨y, hy, rfl⟩ := hx
    obtain ⟨htop, hf, hg⟩ := enterFrame_ok (c := x) rfl hy
    exact ⟨htop, hf, hg.trans (Grows.emitOps y (ops_prologue locc))⟩
  cases id with
  | inr offset =>
    refine key c (labelForIp offset) ?_
    rw [← h]
    simp only [emitBegin, if_neg (labelForIp_ne_main offset)]
    rfl
  | inl name =>
    obtain ⟨htop, hf, hg⟩ := key (c.emit (emitLabel name)) name (by
      rw [← h]
      by_cases hm : name = "main"
      · simp only [emitBegin, if_pos hm]
      · simp only [emitBegin, if_neg hm]
        rfl)
    exact ⟨htop, hf, (Grows.emit c (emitLabel name)).trans hg⟩

/-- A call after some pushed constants. -/
theorem pushed_call_ok {i : Instruction} {x : Compiler} {callee : FunctionId} {k argc : ℕ}
    {opt : Option ℤ} (h : x.compileCall callee argc opt = .ok c')
    (hx : x.st.top = c.st.top + k) (hf : x.currentFrame = c.currentFrame)
    (hg : Grows c x [] [] []) (hk : k ≤ argc) (ha : i.arity = (argc - k, 1))
    (hframe : i.frameAfter c.currentFrame = c.currentFrame) (hn : i.nameLabels = [])
    (hj : i.jumpTarget = none) (ht : i.callTarget.toList.map (·, 0) = callTargets callee) :
    i.Effect c c' := by
  obtain ⟨hle, htop, hf', hg'⟩ := compileCall_ok h
  refine ⟨by rw [ha]; omega, ?_, by rw [hf', hf, hframe], ?_⟩
  · rw [htop, Instruction.heightAfter, ha]
    show _ = c.st.top - (argc - k) + 1
    omega
  · rw [hn, hj, Instruction.targets, hj, ht]
    exact hg.trans hg'

theorem pushLi_spec (c : Compiler) (imm : ℤ) : (pushLi c imm).st.top = c.st.top + 1 ∧
    (pushLi c imm).currentFrame = c.currentFrame ∧ Grows c (pushLi c imm) [] [] [] :=
  ⟨rfl, rfl, Grows.finishOps _ _ (by simp)⟩

theorem pushLa_spec (c : Compiler) (label : String) : (pushLa c label).st.top = c.st.top + 1 ∧
    (pushLa c label).currentFrame = c.currentFrame ∧ Grows c (pushLa c label) [] [] [] :=
  ⟨rfl, rfl, Grows.finishOps _ _ (by simp)⟩

/-- `emitCode` has the effect of the instruction. -/
theorem emitCode_ok {i : Instruction} (h : i.emitCode c = .ok c') : i.Effect c c' := by
  have self : Grows c c [] [] [] := Grows.of_eq rfl rfl rfl rfl
  cases i with
  | const value =>
    cases h
    refine ⟨Nat.zero_le _, rfl, rfl, Grows.finishOps _ _ ?_⟩
    cases SymbolicStack.loc c.st.top <;> simp
  | string ind str =>
    obtain ⟨ht, hf, hg⟩ := pushLa_spec c ("string_" ++ formatInt ind)
    exact pushed_call_ok h ht hf hg le_rfl rfl rfl rfl rfl rfl
  | sExpression name size =>
    simp only [Instruction.emitCode, emitSExpression, bind_ok] at h
    obtain ⟨hash, -, h⟩ := h
    obtain ⟨ht, hf, hg⟩ := pushLi_spec c hash
    exact pushed_call_ok h ht hf hg (by omega) rfl rfl rfl rfl rfl
  | storeStack => exact emitStoreStack_ok h
  | storeArray => exact pushed_call_ok (k := 0) h rfl rfl self (by omega) rfl rfl rfl rfl rfl
  | jump target => exact emitJump_ok h
  | conditionalJump target zero => exact emitConditionalJump_ok h
  | drop =>
    simp only [Instruction.emitCode, bind_ok, return_ok, Prod.exists] at h
    obtain ⟨loc, st, hpop, rfl⟩ := h
    obtain ⟨hpos, -, rfl⟩ := SymbolicStack.pop_ok hpop
    exact ⟨hpos, rfl, rfl, Grows.of_eq rfl rfl rfl rfl⟩
  | duplicate => exact emitDuplicate_ok h
  | swap => exact emitSwap_ok h
  | elem => exact pushed_call_ok (k := 0) h rfl rfl self (by omega) rfl rfl rfl rfl rfl
  | beginInst id argc locc =>
    obtain ⟨htop, hf, hg⟩ := emitBegin_ok h
    cases id with
    | inl name => exact ⟨Nat.zero_le _, htop, hf, hg⟩
    | inr offset =>
      rw [if_neg (show Instruction.label (.inr offset) ≠ "main" from labelForIp_ne_main offset)]
        at htop
      exact ⟨Nat.zero_le _, htop, hf, hg⟩
  | cBegin offset argc locc =>
    have h : emitBegin c (.inl ("closure@" ++ formatHex10 offset)) argc locc = .ok c' := h
    obtain ⟨htop, hf, hg⟩ := emitBegin_ok h
    rw [if_neg (show Instruction.label (.inl _) ≠ "main" from closure_ne_main _)] at htop
    exact ⟨Nat.zero_le _, htop, hf, hg⟩
  | endInst => exact emitEnd_ok h
  | call callee argc =>
    refine pushed_call_ok (k := 0) h rfl rfl self (by omega) rfl rfl rfl rfl ?_
    cases callee <;> rfl
  | tag name size =>
    have h : emitTag c name size = .ok c' := h
    simp only [emitTag, bind_ok] at h
    obtain ⟨hash, -, h⟩ := h
    obtain ⟨ht, hf, hg⟩ := pushLi_spec c hash
    obtain ⟨ht', hf', hg'⟩ := pushLi_spec (pushLi c hash) (boxSum size 0)
    exact pushed_call_ok (k := 2) h (by omega) (hf'.trans hf) (hg.trans hg') (by omega) rfl rfl rfl
      rfl rfl
  | fail l col =>
    obtain ⟨ht, hf, hg⟩ := pushLa_spec c "fname"
    obtain ⟨ht', hf', hg'⟩ := pushLi_spec (pushLa c "fname") (boxSum l 0)
    obtain ⟨ht'', hf'', hg''⟩ := pushLi_spec (pushLi (pushLa c "fname") (boxSum l 0)) (boxSum col 0)
    exact pushed_call_ok (k := 3) h (by omega) (hf''.trans (hf'.trans hf))
      ((hg.trans hg').trans hg'') (by omega) rfl rfl rfl rfl rfl
  | line l =>
    cases h
    exact ⟨Nat.zero_le _, rfl, rfl, Grows.emit c (emitComment _)⟩
  | binop op => exact emitBinop_ok h
  | load loc => exact emitLoad_ok h
  | store loc => exact emitStore_ok h
  | builtinRead => exact pushed_call_ok (k := 0) h rfl rfl self (by omega) rfl rfl rfl rfl rfl
  | builtinWrite => exact pushed_call_ok (k := 0) h rfl rfl self (by omega) rfl rfl rfl rfl rfl
  | builtinLength => exact pushed_call_ok (k := 0) h rfl rfl self (by omega) rfl rfl rfl rfl rfl
  | builtinString => exact pushed_call_ok (k := 0) h rfl rfl self (by omega) rfl rfl rfl rfl rfl
  | builtinArray len => exact pushed_call_ok (k := 0) h rfl rfl self (by omega) rfl rfl rfl rfl rfl
  | _ => cases h

end Effect

end LamaRv
