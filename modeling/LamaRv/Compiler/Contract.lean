import LamaRv.Compiler.Alignment
import LamaRv.Compiler.CallTransparent
import LamaRv.Compiler.FrameWords

/-!
# The contract of a compiled function

`BEGIN` saves the callee-saved registers in words below the locals and `END` restores them from
there, so a function gives them back when nothing writes these words or `fp` in between.

It does not hold of every function.  `main` calls `__init` before its `BEGIN` has saved anything,
and the result goes to `s1`.  The first spilled operand shares its word with the last saved
register, and calls at which operands are spilled move `sp`, up to the saved words and beyond.  A
store to a local that is out of range, or through a pointer, can hit them too.

* `Framed`: the states in the body of a function;
* `KeepsContract`: what a called function promises;
* `ContractStep`: steps on which nothing hits the frame;
* `contract_kept`: runs of such steps up to a `ret`.
-/

namespace LamaRv

open ByteMemory Rv64 CodeBuffer Compiler

variable {m : Module} {log : List Emission} {c : Compiler} {f : FrameInfo} {e₀ : Emission}

/-- The word in which `BEGIN` saves the callee-saved register number `i` of a function with so
many locals, for the `sp` of the entry. -/
def savedWord (locals : ℕ) (a : Word) (i : ℕ) : Word := below a (locals + 1 + i)

/-- `s` is a state in the body of a function that was entered in the state `s₀`.  Nothing is said of
`sp`, which the calls may have moved. -/
structure Framed (locals : ℕ) (s₀ s : State) : Prop where
  fp : s.get Register.fp = s₀.get Register.sp
  saved : ∀ i (h : i < Register.saved.length),
    s.load (savedWord locals (s₀.get Register.sp) i) = s₀.get Register.saved[i]

/-- A function that was entered in `s₀` returns in `s`: `sp` and the callee-saved registers. -/
structure Returned (s₀ s : State) : Prop where
  sp : s.get Register.sp = s₀.get Register.sp
  saved : ∀ r ∈ Register.saved, s.get r = s₀.get r

section Frame

variable {locals : ℕ} {s₀ s t u v : State} (sym : String → Word)

/-! ### Saving and restoring -/

/-- The prologue saves the callee-saved registers. -/
theorem exec_prologue_framed (hlocals : locals + 12 < 2 ^ 28) (h : Returned s₀ s) :
    Framed locals s₀ (execLines sym (prologue locals) s) := by
  obtain ⟨hfp, -⟩ := exec_prologue_pointers sym locals s
  refine ⟨hfp.trans h.sp, fun i hi => ?_⟩
  have haddr : ∀ k < 13, s.get Register.sp + BitVec.ofInt 64 (toInt (-((k : ℕ) + locals) * wordSize)) =
      below (s₀.get Register.sp) (locals + k) := by
    intro k hk
    rw [h.sp, ← add_toInt_neg _ (show locals + k < 2 ^ 28 by omega)]
    push_cast
    rw [add_comm (locals : ℤ)]
  have happart : ((Register.saved.zipIdx 1).map fun p => (p.1, toInt (-(p.2 + locals) * wordSize))).Pairwise
      fun p q => Apart (s.get Register.sp + BitVec.ofInt 64 p.2)
        (s.get Register.sp + BitVec.ofInt 64 q.2) := by
    rw [List.pairwise_map, List.pairwise_iff_getElem]
    intro i j hi hj hij
    rw [List.length_zipIdx, show Register.saved.length = 12 from rfl] at hi hj
    simp only [List.getElem_zipIdx]
    rw [haddr _ (by omega), haddr _ (by omega)]
    exact below_apart _ (by omega) (by omega) (by omega)
  have hload := load_exec_stores sym Register.sp _ s happart
    (Register.saved[i], toInt (-((1 + i : ℕ) + locals) * wordSize))
    (List.mem_map.2 ⟨(Register.saved[i], 1 + i),
      List.mk_add_mem_zipIdx_iff_getElem?.2 (by simp), rfl⟩)
  have haddr' := haddr (1 + i) (by
    have : i < 12 := hi
    omega)
  dsimp only at hload
  rw [haddr', h.saved _ (List.getElem_mem hi)] at hload
  rw [prologue_eq, execLines_append, savedWord, ← hload, Nat.add_assoc locals]
  simp only [emitMv, emitAddi, emitIType, execLines_append, execLines_cons, execLines_nil,
    Line.exec_op, Op.exec, State.load_set]

/-- The value that a function returns for the value of an operand. -/
def returnValue (f : FrameInfo) (v : Word) : Word :=
  if f.functionName = "main" then v.sshiftRight 1 else v

/-- The code of `END` gives back what the prologue saved, and the operand. -/
theorem exec_end (hlocals : f.localsCount + 12 < 2 ^ 28) (h : Framed f.localsCount s₀ t) (l : Loc) :
    Returned s₀ (execLines sym (symbEmitMvToReg 10 l ++ epilogue f.localsCount ++
        (if f.functionName = "main" then postmain else [])) t) ∧
      (execLines sym (symbEmitMvToReg 10 l ++ epilogue f.localsCount ++
        (if f.functionName = "main" then postmain else [])) t).get 10 = returnValue f (l.value t) := by
  have hzero : toInt 0 = 0 := toInt_of_mem (by omega) (by omega)
  -- the result
  obtain ⟨hmem, hother, hval⟩ := exec_toReg sym l (show Register.temp2 ≠ 0 by decide) t
  obtain ⟨t₁, ht₁⟩ : ∃ t₁, execLines sym (symbEmitMvToReg 10 l) t = t₁ := ⟨_, rfl⟩
  have hmem₁ : t₁.mem = t.mem := by
    rw [← ht₁]
    simp only [symbEmitMvToReg, execLines_append, execLines_cons, execLines_nil, Line.exec_op,
      Op.exec, State.mem_set, hmem]
  have hfp₁ : t₁.get Register.fp = s₀.get Register.sp := by
    rw [← ht₁, ← h.fp, ← hother Register.fp (by decide)]
    simp only [symbEmitMvToReg, execLines_append, execLines_cons, execLines_nil, Line.exec_op,
      Op.exec]
    exact State.get_set_of_ne _ _ (by decide)
  have hres₁ : t₁.get 10 = l.value t := by
    rw [← ht₁, ← hval]
    simp only [symbEmitMvToReg, execLines_append, execLines_cons, execLines_nil, Line.exec_op,
      Op.exec]
    exact State.get_set_self _ _ (by decide)
  -- the epilogue
  obtain ⟨t₂, ht₂⟩ : ∃ t₂, t₁.set Register.sp (s₀.get Register.sp) = t₂ := ⟨_, rfl⟩
  have hsp₂ : t₂.get Register.sp = s₀.get Register.sp := by
    rw [← ht₂, State.get_set_self _ _ (by decide)]
  obtain ⟨t₃, ht₃⟩ : ∃ t₃, execLines sym (epilogue f.localsCount) t₁ = t₃ := ⟨_, rfl⟩
  obtain ⟨-, hkeep, hload⟩ := exec_restoreBelow sym Register.saved f.localsCount t₂
    (by simp only [Register.saved, List.length_cons, List.length_nil]; omega) (by decide) (by decide)
    (by decide) _ rfl
  have hepilogue : execLines sym ((Register.saved.zipIdx 1).flatMap fun p =>
      emitLd p.1 Register.sp (-(p.2 + f.localsCount) * wordSize)) t₂ = t₃ := by
    rw [← ht₃, ← ht₂, epilogue, execLines_append, ← hfp₁]
    simp only [emitMv, emitAddi, emitIType, execLines_cons, execLines_nil, Line.exec_op, Op.exec,
      IType.eval, hzero]
    congr 2
    exact (BitVec.add_zero _).symm
  rw [hepilogue] at hkeep hload
  have hret₃ : Returned s₀ t₃ := by
    refine ⟨by rw [hkeep _ (by decide), hsp₂], fun r hr => ?_⟩
    obtain ⟨i, hi, rfl⟩ := List.getElem_of_mem hr
    rw [hload i hi, hsp₂, ← h.saved i hi, State.load, State.load, ← ht₂, State.mem_set, hmem₁, savedWord]
    congr 2
    omega
  have hres₃ : t₃.get 10 = l.value t := by
    rw [hkeep _ (by decide), ← ht₂, State.get_set_of_ne _ _ (by decide), hres₁]
  -- the shift
  rw [execLines_append, execLines_append, ht₁, ht₃]
  unfold returnValue
  split_ifs with hmain
  · have hone : toInt 1 = 1 := toInt_of_mem (by omega) (by omega)
    simp only [postmain, emitSrai, emitIType, execLines_cons, execLines_nil, Line.exec_op, Op.exec,
      IType.eval, hone, hres₃]
    refine ⟨⟨?_, fun r hr => ?_⟩, State.get_set_self _ _ (by decide)⟩
    · rw [State.get_set_of_ne _ _ (by decide), hret₃.sp]
    · have hne : ∀ r ∈ Register.saved, r ≠ 10 := by decide
      rw [State.get_set_of_ne _ _ (hne r hr), hret₃.saved r hr]
  · exact ⟨hret₃, hres₃⟩

/-! ### Calls -/

/-- The called function gives back `sp` and the callee-saved registers, and the memory above its
arguments and the words that the call sequence saved. -/
structure KeepsContract (outgoing : ℕ) (s s' : State) : Prop where
  sp : s'.get Register.sp = s.get Register.sp
  saved : ∀ r ∈ Register.saved, s'.get r = s.get r
  mem : ∀ b, (b - s.get Register.sp).toNat < 2 ^ 63 →
    8 * (outgoing + 16) ≤ (b - s.get Register.sp).toNat → s'.mem b = s.mem b

variable {st : SymbolicStack} {argc n spilled : ℕ} {opt : Option ℤ} {alignment : Bool} {ra : Word}

/-- Up to its call a call sequence writes below the word at which it starts to save only. -/
theorem CallEntry.load_caller (ht : CallEntry st argc opt alignment s t) {x base : Word}
    (hbase : saveBase s st.spilledCount = base) (hx : (x - base).toNat < 2 ^ 62)
    (hsmall : argc + opt.toList.length < 2 ^ 58) : t.load x = s.load x := by
  obtain ⟨vs, hlen, hmem, -⟩ := ht.mem
  -- the arguments
  rw [State.load, hmem, hbase]
  refine (State.load_pushes_of_apart _ vs fun i hi => ?_).trans ?_
  · rw [get_spReg_set_sp, below_below]
    exact below_apart_of_above hx (by omega) (by split_ifs <;> omega)
  -- the saved registers
  · rw [State.load_set, savedState, hbase]
    refine (State.load_pushes_of_apart _ _ fun i hi => ?_).trans (State.load_set _ _ _ _)
    rw [List.length_map, savedRegs_length] at hi
    rw [get_spReg_set_sp]
    exact below_apart_of_above hx (by omega) (by omega)

/-- The function that is called writes below this word, too. -/
theorem CallExit.load_caller {total : ℕ} (htotal : total = argc + opt.toList.length)
    (ht : CallEntry st argc opt alignment s t)
    (hu : KeepsContract (total - 8) (t.set Register.ra ra) u)
    (hv : CallExit total alignment n spilled u v) {x base : Word}
    (hbase : saveBase s st.spilledCount = base) (hx : (x - base).toNat < 2 ^ 62)
    (hsmall : total < 2 ^ 58) : v.load x = s.load x := by
  have hsp : (t.set Register.ra ra).get Register.sp =
      below base (16 + (if alignment then 1 else 0) + (total - 8)) := by
    rw [State.get_set_of_ne _ _ (by decide), ht.sp, ← htotal, hbase]
  rw [← ht.load_caller hbase hx (htotal ▸ hsmall), State.load, State.load, hv.mem]
  refine load_congr fun i hi => ?_
  have hbyte : ∀ m < 2 ^ 59, (x + BitVec.ofNat 64 i - below base m).toNat =
      (x - base).toNat + i + 8 * m := fun m hm => above_byte_sub hx hi hm
  rw [hu.mem, State.mem_set]
  · rw [hsp, hbyte _ (by split_ifs <;> omega)]
    split_ifs <;> omega
  · rw [hsp, hbyte _ (by split_ifs <;> omega)]
    split_ifs <;> omega

/-- A word above the one at which a call sequence starts to save. -/
theorem CallExit.load_above {total : ℕ} (htotal : total = argc + opt.toList.length)
    (ht : CallEntry st argc opt alignment s t)
    (hu : KeepsContract (total - 8) (t.set Register.ra ra) u)
    (hv : CallExit total alignment n spilled u v) {a : Word} {j k : ℕ}
    (hbase : saveBase s st.spilledCount = below a k) (hj : j ≤ k) (hk : k + total < 2 ^ 58) :
    v.load (below a j) = s.load (below a j) := by
  have hsub : below a j - below a k = BitVec.ofNat 64 (8 * (k - j)) := by
    simpa using below_byte_sub a 0 hj
  refine CallExit.load_caller htotal ht hu hv hbase ?_ (by omega)
  rw [hsub, BitVec.toNat_ofNat]
  omega

/-- The callee-saved registers after a call, other than the one of the result. -/
theorem CallExit.get_saved {total : ℕ} (ht : CallEntry st argc opt alignment s t)
    (hu : KeepsContract (total - 8) (t.set Register.ra ra) u)
    (hv : CallExit total alignment n spilled u v) {r : Reg} (hr : r ∈ Register.saved) :
    v.get r = if SymbolicStack.loc n = .register r then u.get 10 else s.get r := by
  have hfar : ∀ r ∈ Register.saved, r ∉ savedRegs ∧ r ≠ Register.sp ∧ r ≠ Register.ra ∧
      r ∉ Register.args ∧ r ≠ Register.temp1 ∧ r ≠ Register.temp2 := by decide
  obtain ⟨h1, h2, h3, h4, h5, h6⟩ := hfar r hr
  rw [hv.other r h1 h2, hu.saved r hr, State.get_set_of_ne _ _ h3, ht.other r h4 h2 h5 h6]

/-- With the operands in registers a call sequence starts to save at `sp`. -/
theorem saveBase_of_le (hst : st.top ≤ 15) (s : State) :
    saveBase s st.spilledCount = s.get Register.sp := by
  rw [SymbolicStack.spilledCount_eq, show st.top - 15 = 0 by omega, saveBase,
    add_toInt_neg _ (by omega), below_zero]

/-- `sp` comes back after a call with the operands in registers. -/
theorem CallExit.get_sp {total : ℕ} (hst : st.top ≤ 15) (hargc : argc ≤ 15)
    (htotal : total = argc + opt.toList.length) (ht : CallEntry st argc opt alignment s t)
    (hu : KeepsContract (total - 8) (t.set Register.ra ra) u) (hv : CallExit total alignment n 0 u v) :
    v.get Register.sp = s.get Register.sp := by
  have hopt : opt.toList.length ≤ 1 := by cases opt <;> simp
  have hbase := saveBase_of_le hst s
  have husp : u.get Register.sp = below (s.get Register.sp)
      (16 + (if alignment then 1 else 0) + (total - 8)) := by
    rw [hu.sp, State.get_set_of_ne _ _ (by decide), ht.sp, hbase, htotal]
  have hdrop : dropBase total alignment u = below (s.get Register.sp) 16 :=
    dropBase_eq (by omega) husp
  rw [hv.sp, hdrop, below_add _ le_rfl, Nat.sub_self, below_zero, add_toInt _ (by omega)]
  exact BitVec.add_zero _

/-- The frame after a call that starts to save below the saved registers. -/
theorem Framed.call {total k : ℕ} (h : Framed locals s₀ s) (htotal : total = argc + opt.toList.length)
    (ht : CallEntry st argc opt alignment s t)
    (hu : KeepsContract (total - 8) (t.set Register.ra ra) u)
    (hv : CallExit total alignment n spilled u v)
    (hbase : saveBase s st.spilledCount = below (s₀.get Register.sp) k) (hlocals : locals + 12 ≤ k)
    (hk : k + total < 2 ^ 58) : Framed locals s₀ v := by
  refine ⟨?_, fun i hi => ?_⟩
  · have hne : SymbolicStack.loc n ≠ .register Register.fp := by
      intro hn
      exact (workRegs_avoid _ (work_loc n _ hn)).2.2.2.2 rfl
    rw [CallExit.get_saved ht hu hv (by decide), if_neg hne, h.fp]
  · have hi12 : i < 12 := hi
    rw [← h.saved i hi, savedWord]
    exact CallExit.load_above htotal ht hu hv hbase (by omega) hk

end Frame

/-! ### Stores -/

/-- The address of the word that the own code of an instruction stores to. -/
def Instruction.storedAt (i : Instruction) (st : SymbolicStack) (s : State) : Option Word :=
  (i.store? st).map fun p => p.1.value s + BitVec.ofInt 64 (toInt p.2)

/-! ### Steps -/

/-- What an instruction of the body needs: it does not store to a word of the saved registers, a call
starts to save below them, and an `END` is compiled under the frame of the function. -/
structure Fine (f : FrameInfo) (s₀ : State) (e : Emission) (s : State) : Prop where
  store : ∀ a ∈ e.inst.storedAt e.before.st s, ∀ i < 12,
    Apart a (savedWord f.localsCount (s₀.get Register.sp) i)
  call : e.inst.isCall = true → ∃ k, f.localsCount + 12 ≤ k ∧ k + e.inst.callArgs < 2 ^ 58 ∧
    saveBase s (e.before.st.top + e.inst.pushes - 15) = below (s₀.get Register.sp) k
  frame : e.inst = .endInst → e.before.currentFrame = some f

/-- What a call needs of the called function: the contract, and in `BEGIN`, before anything has been
saved, that it returns what the slot of the result holds. -/
def Emission.Returns (e : Emission) (s s' : State) : Prop :=
  KeepsContract (e.inst.callArgs - 8) s s' ∧
    (e.inst.isBegin = true → s'.get 10 = (SymbolicStack.loc e.before.st.top).value s)

/-- A step of the function that was entered in `s₀`, when the instruction that begins there is fine
and the function that is called there keeps the contract. -/
structure ContractStep (log : List Emission) (f : FrameInfo) (s₀ : State) (E : Env) (K : Calls)
    (T : Text) (a b : Config) : Prop where
  step : BodyStep E K T a b
  fine : ∀ e ∈ log, e.inst.isBegin = false → e.site = a.pc → Fine f s₀ e a.st
  callee : ∀ e ∈ log, e.site ≤ a.pc → a.pc < e.after.cb.length →
    ∀ l, T[a.pc]? = some (.call l) → e.Returns a.st b.st

/-- The calls that an instruction steps over. -/
def ReturningCalls (K : Calls) (e : Emission) : Calls := fun l s s' => K l s s' ∧ e.Returns s s'

/-- The rule of a line: a `ret` belongs to an `END`, returns to the entry, and the result is that of
the operand at the top at the start of the `END`. -/
def RetRule (f : FrameInfo) (s₀ : State) (e : Emission) (t : State) (l : Line) (s : State) : Prop :=
  l = .ret → e.inst = .endInst ∧ Returned s₀ s ∧
    s.get 10 = returnValue f ((SymbolicStack.loc (e.before.st.top - 1)).value t)

section Steps

variable {E : Env} {K : Calls} {e : Emission} {s₀ s t : State}

theorem KeepsContract.set_ra {n : ℕ} {v : Word} (h : KeepsContract n s t) :
    KeepsContract n (s.set raReg v) t := by
  have hget : ∀ r, r ≠ raReg → (s.set raReg v).get r = s.get r := fun r hr =>
    State.get_set_of_ne _ _ hr
  have hne : ∀ r ∈ Register.saved, r ≠ raReg := by decide
  refine ⟨?_, fun r hr => ?_, fun b h₁ h₂ => ?_⟩
  · rw [hget _ (by decide), h.sp]
  · rw [hget _ (hne r hr), h.saved r hr]
  · rw [hget _ (by decide)] at h₁ h₂
    rw [State.mem_set, h.mem b h₁ h₂]

theorem Emission.Returns.set_ra {v : Word} (h : e.Returns s t) : e.Returns (s.set raReg v) t := by
  obtain ⟨hkeeps, hbegin⟩ := h
  have hget : ∀ r, r ≠ raReg → (s.set raReg v).get r = s.get r := fun r hr =>
    State.get_set_of_ne _ _ hr
  refine ⟨hkeeps.set_ra, fun hi => ?_⟩
  rw [hbegin hi]
  refine (loc_value_congr (State.mem_set _ _ _) (hget _ (by decide)) (fun r hr => ?_) _).symm
  exact hget r (regs_avoid r hr).2.1

theorem Emission.returns_of_set_ra {v : Word} (h : e.Returns (s.set raReg v) t) : e.Returns s t := by
  have := h.set_ra (v := s.get raReg)
  rwa [State.set_set, State.set_get] at this

/-- In a piece the steps are those of a function whose calls keep the contract. -/
theorem ContractStep.bodyStep {a b : Config} {T : Text} (h : ContractStep log f s₀ E K T a b)
    (he : e ∈ log) (h₁ : e.site ≤ a.pc) (h₂ : a.pc < e.after.cb.length) :
    BodyStep E (ReturningCalls K e) T a b := by
  obtain ⟨hstep, -, hcallee⟩ := h
  cases hstep with
  | straight hl hs => exact .straight hl hs
  | jump hl hp => exact .jump hl hp
  | taken hl hp heq => exact .taken hl hp heq
  | skipped hl hne => exact .skipped hl hne
  | call hl hk => exact .call hl ⟨hk, (hcallee e he h₁ h₂ _ hl).set_ra⟩

/-- The frame after quiet code that keeps the saved registers. -/
theorem Framed.quiet {locals : ℕ} {T : List Line} {sym : String → Word} (h : Framed locals s₀ s)
    (hT : Quiet T) (hload : ∀ i < 12,
      (execLines sym T s).load (savedWord locals (s₀.get Register.sp) i) =
        s.load (savedWord locals (s₀.get Register.sp) i)) :
    Framed locals s₀ (execLines sym T s) := by
  refine ⟨?_, fun i hi => ?_⟩
  · rw [hT.get_exec sym (by decide), h.fp]
  · rw [hload i hi, h.saved i hi]

theorem Framed.noStores {locals : ℕ} {T : List Line} {sym : String → Word} (h : Framed locals s₀ s)
    (hT : Quiet T) (hn : NoStores T) : Framed locals s₀ (execLines sym T s) :=
  h.quiet hT fun i _ => by rw [State.load, State.load, hn.mem_exec]

/-- The code of the `BEGIN` leads from the entry into the frame. -/
theorem contract_begin (h : FunctionCode m log c f e₀) (hlocals : f.localsCount + 12 < 2 ^ 28)
    {U : List Line} (hU : e₀.after.cb = e₀.before.cb ++ U) (t : State) (J : String → State → Prop) :
    Safe E.sym (ReturningCalls K e₀) (RetRule f s₀ e₀ t) J (Framed f.localsCount s₀) U s₀ := by
  refine h.safe_begin hU rfl (exec_prologue_framed _ hlocals ⟨rfl, fun _ _ => rfl⟩)
    (fun _ _ _ _ h => by cases h) fun hname w label ra u v hw hk hv => ?_
  obtain ⟨s, hs⟩ : ∃ s, execLines E.sym (emitLabel "main" ++ premain) s₀ = s := ⟨_, rfl⟩
  have hget : ∀ r, r ≠ 5 → s.get r = s₀.get r := by
    intro r hr
    rw [← hs]
    simp [emitLabel, premain, Op.exec, hr]
  rw [hs] at hw
  obtain ⟨hkeeps, hresult⟩ := hk.2
  rw [Instruction.callArgs_of_isBegin h.isBegin] at hkeeps
  have hsp := CallExit.get_sp (by decide) (by decide) rfl hw hkeeps hv
  -- the slot of the result keeps its value
  have hslot : u.get 10 = s.get (slotReg 0) := by
    rw [hresult h.isBegin, h.main_height hname, loc_of_lt (by omega), Loc.value,
      State.get_set_of_ne _ _ (by decide)]
    exact hw.other _ (by decide) (by decide) (by decide) (by decide)
  refine exec_prologue_framed _ hlocals ⟨hsp.trans (hget _ (by decide)), fun r hr => ?_⟩
  have hne : ∀ r ∈ Register.saved, r ≠ 5 := by decide
  rw [CallExit.get_saved hw hkeeps hv hr, loc_of_lt (by omega), ← hget r (hne r hr)]
  split_ifs with heq
  · rw [hslot, Loc.register.inj heq]
  · rfl

/-- The code of every other instruction keeps the frame, and an `END` returns. -/
theorem contract_body (h : FunctionCode m log c f e₀) (hlocals : f.localsCount + 12 < 2 ^ 28)
    (hK : ∀ s s', ¬ K "Bmatch_failure" s s') (he : FunctionCode.Emits m log e₀ e)
    (hb : e.inst.isBegin = false) {U : List Line} (hU : e.after.cb = e.before.cb ++ U)
    (hs : Framed f.localsCount s₀ s) (hfine : Fine f s₀ e s) :
    Safe E.sym (ReturningCalls K e) (RetRule f s₀ e s)
      (fun l s' => ∃ t, e.inst.jumpTarget = some t ∧ l = labelForIp t ∧ Framed f.localsCount s₀ s')
      (fun s' => e.inst.isTerminator = false ∧ Framed f.localsCount s₀ s') U s := by
  have hemit := h.completes.1.siteInv.code e he.1
  by_cases hend : e.inst = .endInst
  · have hcode := hemit
    rw [hend] at hcode
    obtain ⟨g, hg, -, hcb⟩ := emitEnd_code hcode
    obtain rfl : g = f := Option.some.inj (hg.symm.trans (hfine.frame hend))
    obtain rfl := List.append_cancel_left (hU.symm.trans hcb)
    have hstraight : ∀ l ∈ symbEmitMvToReg 10 (SymbolicStack.loc (e.before.st.top - 1)) ++
        epilogue g.localsCount ++ (if g.functionName = "main" then postmain else []), l.straight := by
      refine Ops.straight ?_
      split_ifs <;> simp
    rw [safe_append hstraight]
    intro _
    exact ⟨hend, exec_end E.sym hlocals hs _⟩
  cases emitCode_body hemit hb hend with
  | straight T hcb hq ht hn =>
    obtain rfl := List.append_cancel_left (hU.symm.trans hcb)
    rw [safe_of_straight hq.straight]
    refine ⟨ht, hs.quiet hq fun i hi => hn E.sym s _ fun p hp => ?_⟩
    exact hfine.store _ (Option.mem_map.2 ⟨p, hp, rfl⟩) i hi
  | jump t T ht hcb =>
    obtain rfl := List.append_cancel_left (hU.symm.trans hcb)
    exact ⟨t, ht, rfl, hs⟩
  | branch t eq a b T V ht hterm hcb hq hn hq' hn' =>
    obtain rfl := List.append_cancel_left (hU.symm.trans hcb)
    rw [safe_append hq.straight]
    refine ⟨fun _ => ⟨t, ht, rfl, hs.noStores hq hn⟩, fun _ => ?_⟩
    rw [safe_of_straight hq'.straight]
    exact ⟨hterm, (hs.noStores hq hn).noStores hq' hn'⟩
  | call x callee argc opt T hx hq hn hxtop hxf hcall hargs hiscall hfail =>
    obtain ⟨V, hV, -⟩ := (compileCall_ok hcall).2.2.2.text
    rw [hV, hx, List.append_assoc] at hU
    obtain rfl := List.append_cancel_left hU
    obtain ⟨g, -, -, -, -, -, -, hg, -⟩ := compileCall_parts hcall
    obtain ⟨k, hk, hsum, hbase⟩ := hfine.call hiscall
    rw [← hargs] at hsum
    -- the operands that the instruction pushes do not move `sp`
    have hbase' : saveBase (execLines E.sym T s) x.st.spilledCount =
        below (s₀.get Register.sp) k := by
      rw [← hbase, SymbolicStack.spilledCount_eq, hxtop, saveBase, saveBase,
        hq.get_exec E.sym (by decide)]
    rw [safe_append hq.straight, ← List.append_nil V]
    refine safe_compileCall hcall hg hV (fun _ _ _ h => by cases h) ?_
    intro w label ra u v hname hw hcalled hv
    refine ⟨?_, ?_⟩
    · cases hterm : e.inst.isTerminator with
      | false => rfl
      | true =>
        rw [hname _ (hfail hterm)] at hcalled
        exact absurd hcalled.1 (hK _ _)
    · have hkeeps := hcalled.2.1
      rw [← hargs] at hkeeps
      exact (hs.noStores hq hn).call rfl hw hkeeps hv hbase' hk hsum

/-- The lines that open a function. -/
theorem ContractStep.opening (h : FunctionCode m log c f e₀) (s : State) {k : ℕ} (hk : k < 2) :
    ContractStep log f s₀ E K c.cb ⟨e₀.site + k, s⟩ ⟨e₀.site + k + 1, s⟩ := by
  obtain ⟨x, hx, hstraight, hstep⟩ := h.opening E K s k hk
  refine ⟨hstep, fun e he hb hsite => ?_, fun e _ _ _ l hl => ?_⟩
  · rw [h.eq_of_opening hk he hsite, h.isBegin] at hb
    cases hb
  · obtain rfl := Option.some.inj (hx.symm.trans hl)
    cases hstraight

end Steps

/-- **The contract.**  A run of the code of a function from one of the lines that open it, on which
every instruction is fine and every called function keeps the contract: when it comes to a `ret`,
it has come to an `END` before, `sp` and the callee-saved registers are those of the entry, and `a0`
is what the operand at the top was at the start of that `END`, shifted in `main`. -/
theorem contract_kept {E : Env} {K : Calls} {s₀ : State} {p : ℕ} {cfg : Config}
    (h : FunctionCode m log c f e₀) (hlocals : f.localsCount + 12 < 2 ^ 28)
    (hK : ∀ s s', ¬ K "Bmatch_failure" s s') (hp : e₀.site ≤ p ∧ p ≤ e₀.site + 2)
    (hrun : Relation.ReflTransGen (ContractStep log f s₀ E K c.cb) ⟨p, s₀⟩ cfg)
    (hret : c.cb[cfg.pc]? = some .ret) :
    Returned s₀ cfg.st ∧ ∃ e t, FunctionCode.Emits m log e₀ e ∧ e.inst = .endInst ∧
      Relation.ReflTransGen (ContractStep log f s₀ E K c.cb) ⟨e₀.site, s₀⟩ ⟨e.site, t⟩ ∧
      Relation.ReflTransGen (ContractStep log f s₀ E K c.cb) ⟨e.site, t⟩ cfg ∧
      cfg.st.get 10 = returnValue f ((SymbolicStack.loc (e.before.st.top - 1)).value t) := by
  have hrules : FunctionCode.Rules m log e₀ E (ReturningCalls K) (ContractStep log f s₀ E K c.cb)
      (· = s₀) (fun _ => Framed f.localsCount s₀) (RetRule f s₀) := by
    constructor
    · rintro U s hU rfl
      exact (contract_begin h hlocals hU s (fun _ _ => False)).mono (fun _ _ h => h)
        (fun _ _ h => h) fun _ h _ _ => h
    · intro e he hb U s cfg hU hs hstep
      have hfine := hstep.fine e he.1 hb rfl
      exact (contract_body h hlocals hK he hb hU hs hfine).mono (fun _ _ h => h) (fun _ _ h => h)
        fun _ h => ⟨h.1, fun _ _ => h.2⟩
  obtain ⟨e, he, t, hreach, hin, hrule⟩ := h.run hrules (fun e he a b hab => hab.bodyStep he) rfl
    (fun _ hk => ContractStep.opening h s₀ hk) hp hrun hret (.inl rfl)
  obtain ⟨hend, hreturned, hresult⟩ := hrule rfl
  exact ⟨hreturned, e, t, he, hend, hreach, hin, hresult⟩

/-! ### Runs of a `main` -/

section Main

variable {locals : ℕ} {E : Env} {K : Calls} {ret : State → State}

/-- `main` runs through its `BEGIN`, and the prologue saves what the call has left. -/
theorem FunctionCode.runs_begin (h : FunctionCode m log c f e₀) (hmain : f.functionName = "main")
    (hlocals : f.localsCount + 12 < 2 ^ 28) (hK : ∀ t, K "__init" t (ret t)) (s : State) :
    ∃ t u v, Relation.ReflTransGen (BodyStep E K c.cb) ⟨e₀.site, s⟩ ⟨e₀.after.cb.length, v⟩ ∧
      u.get (slotReg 0) = (ret t).get 10 ∧ Framed f.localsCount u v := by
  obtain ⟨t, B, hrun, hexec⟩ := h.passes_begin hmain hK (fun _ _ h => h) (fun _ _ _ h => h) s
  obtain ⟨u, hu⟩ : ∃ u, execLines E.sym B (ret t) = u := ⟨_, rfl⟩
  rw [execLines_append, hu] at hrun
  refine ⟨t, u, _, hrun, ?_, exec_prologue_framed E.sym hlocals ⟨rfl, fun _ _ => rfl⟩⟩
  have hexit := hexec E.sym (ret t)
  rw [hu, h.main_height hmain] at hexit
  rw [hexit.other _ (by decide) (by decide), if_pos (loc_of_lt (by omega))]

/-- A `main` that returns at once runs to its `ret`, and there `s1` is what `__init` returned. -/
theorem mainWithLocals_runs (hlocals : locals + 12 < 2 ^ 28)
    (h : FunctionCode (mainWithLocals locals (.const 1)) log c ⟨"main", locals, 2⟩ e₀)
    (hown : ∀ e ∈ log, e.inst.isBegin = false → e.before.currentFrame = some ⟨"main", locals, 2⟩)
    (hheights : ∀ e ∈ log, e.before.st.top ≤ 2)
    (hK : ∀ t, K "__init" t (ret t)) (s : State) :
    ∃ t cfg, Relation.ReflTransGen (BodyStep E K c.cb) ⟨e₀.site, s⟩ cfg ∧
      c.cb[cfg.pc]? = some .ret ∧ cfg.st.get (slotReg 0) = (ret t).get 10 := by
  obtain ⟨t, u, v, hbegin, hs1, hframed⟩ := h.runs_begin (E := E) rfl hlocals hK s
  have hcode := h.completes.1.siteInv.code
  have h0 := mainWithLocals_begins locals (.inl rfl) h
  -- the `CONST`
  obtain ⟨e₁, he₁, ho₁, hsite₁, -, -⟩ := h.completes.fall (n := 9) h.begins (by rw [h0.2]; rfl)
    (by rw [h0.1]; rfl)
  have hi₁ : e₁.inst = .const 1 := h.completes.inst_at he₁ ho₁ rfl
  obtain ⟨T, hT, hq, hn⟩ : ∃ T, e₁.after.cb = e₁.before.cb ++ T ∧ Quiet T ∧ NoStores T := by
    have hemit : e₁.before.emitConst 1 = .ok e₁.after := by
      have := hcode e₁ he₁
      rwa [hi₁] at this
    have hloc := loc_of_lt (show e₁.before.st.top < 15 by have := hheights e₁ he₁; omega)
    have hwork := work_loc e₁.before.st.top _ hloc
    unfold emitConst SymbolicStack.alloc at hemit
    rw [hloc] at hemit
    rw [← Except.ok.inj hemit]
    exact ⟨_, rfl, quiet_emitLi.2 hwork, noStores_emitLi⟩
  obtain ⟨hrun₁, -⟩ := h.completes.runs (E := E) (K := K) (V := []) he₁ (by simpa using hT)
    hq.straight (fun _ _ h => h) v
  have hframed₁ : Framed locals u (execLines E.sym T v) := hframed.noStores hq hn
  have hend₁ : e₁.site + 2 + T.length = e₁.after.cb.length := by
    obtain ⟨-, -, -, -, -, hlen, -⟩ := h.completes.lines he₁
    rw [hT, List.length_append, hlen]
  -- the `END`
  obtain ⟨e₂, he₂, ho₂, hsite₂, -, -⟩ := h.completes.fall (n := 14) he₁ (by rw [hi₁]; rfl)
    (by rw [ho₁]; rfl)
  have hi₂ : e₂.inst = .endInst := h.completes.inst_at he₂ ho₂ rfl
  have hemit₂ : emitEnd e₂.before = .ok e₂.after := by
    have := hcode e₂ he₂
    rwa [hi₂] at this
  obtain ⟨g, hg, -, hcb⟩ := emitEnd_code hemit₂
  obtain rfl := Option.some.inj ((hown e₂ he₂ (by rw [hi₂]; rfl)).symm.trans hg)
  obtain ⟨hrun₂, hret⟩ := h.completes.runs (E := E) (K := K) he₂ hcb
    (Ops.straight (by simp)) (fun _ _ h => h) (execLines E.sym T v)
  have hreturned := (exec_end (f := ⟨"main", locals, 2⟩) E.sym hlocals hframed₁
    (SymbolicStack.loc (e₂.before.st.top - 1))).1
  rw [hend₁, hsite₁] at hrun₁
  rw [hsite₂] at hrun₂
  refine ⟨t, _, hbegin.trans (hrun₁.trans hrun₂), hsite₂ ▸ hret.head, ?_⟩
  rw [hreturned.saved _ (by decide), hs1]

end Main

/-- Every function returns this value. -/
def returningValue (value : State → Word) : Calls := fun l s s' =>
  l ≠ "Bmatch_failure" ∧ s' = s.set 10 (value s)

theorem returningValue_init (value : State → Word) (t : State) :
    returningValue value "__init" t (t.set 10 (value t)) := ⟨by decide, rfl⟩

theorem returningValue_keeps (value : State → Word) {l : String} {s s' : State} (outgoing : ℕ)
    (h : returningValue value l s s') : KeepsContract outgoing s s' ∧ s'.get 10 = value s := by
  obtain ⟨-, rfl⟩ := h
  have hne : ∀ r ∈ Register.saved, r ≠ 10 := by decide
  exact ⟨⟨State.get_set_of_ne _ _ (by decide), fun r hr => State.get_set_of_ne _ _ (hne r hr),
    fun _ _ _ => by rw [State.mem_set]⟩, State.get_set_self _ _ (by decide)⟩

/-- Every register holds its number. -/
def numbered : State := ⟨fun r => BitVec.ofNat 64 r.val, fun _ => 0⟩

/-- A `main` whose `__init` returns what `s1` holds. -/
theorem contract_kept_main : ∃ (log : List Emission) (c : Compiler) (cfg : Config),
    Completes (mainWithLocals 0 (.const 1)) log c ∧ c.cb[cfg.pc]? = some .ret ∧ Returned numbered cfg.st := by
  obtain ⟨log, c, e₀, h, hown, hheights⟩ := mainWithLocals_code 0 (.inl rfl)
  obtain ⟨t, cfg, hrun, hret, -⟩ := mainWithLocals_runs (E := someEnv)
    (K := returningValue fun s => s.get (slotReg 0)) (by omega) h hown
    (fun e he => (hheights e he).1) (returningValue_init _) numbered
  refine ⟨log, c, cfg, h.completes, hret, ?_⟩
  refine (contract_kept h (by decide) (fun s s' h => h.1 rfl) ⟨le_rfl, Nat.le_add_right _ _⟩
    (hrun.lift id fun a b hab => ⟨hab, fun e he hb _ => ?_, fun e he _ _ l hl => ?_⟩) hret).1
  · have hloc := loc_of_lt (show e.before.st.top < 15 by have := (hheights e he).1; omega)
    rcases mainWithLocals_mem 0 _ (h.completes.1.heightInv.inst e he) with ⟨-, hi⟩ | ⟨-, hi⟩ | ⟨-, hi⟩
    · rw [hi] at hb
      cases hb
    · refine ⟨fun a ha => ?_, ?_, ?_⟩ <;> rw [hi] at *
      · rw [Instruction.storedAt, Instruction.store?, hloc] at ha
        cases ha
      · rintro ⟨⟩
      · rintro ⟨⟩
    · refine ⟨?_, ?_, fun _ => hown e he hb⟩ <;> rw [hi]
      · rintro _ ⟨⟩
      · rintro ⟨⟩
  · cases hab with
    | call hl' hk =>
      obtain ⟨hkeeps, hvalue⟩ := returningValue_keeps _ (e.inst.callArgs - 8) hk
      refine Emission.returns_of_set_ra ⟨hkeeps, fun hbegin => ?_⟩
      rw [(hheights e he).2 hbegin, loc_of_lt (by omega)]
      exact hvalue
    | straight hl' hs =>
      obtain rfl := Option.some.inj (hl'.symm.trans hl)
      cases hs
    | jump hl' | taken hl' | skipped hl' => cases Option.some.inj (hl'.symm.trans hl)

/-- In a `main` whose `__init` returns zero `s1` is not given back. -/
theorem contract_broken_main : ¬ ∀ (m : Module) (log : List Emission) (c : Compiler) (f : FrameInfo)
    (e₀ : Emission) (E : Env) (K : Calls) (s₀ : State) (cfg : Config), FunctionCode m log c f e₀ →
    (∀ l s s', K l s s' → ∀ outgoing, KeepsContract outgoing s s') →
    Relation.ReflTransGen (BodyStep E K c.cb) ⟨e₀.site, s₀⟩ cfg → c.cb[cfg.pc]? = some .ret →
    Returned s₀ cfg.st := by
  intro hall
  obtain ⟨log, c, e₀, h, hown, hheights⟩ := mainWithLocals_code 0 (.inl rfl)
  obtain ⟨t, cfg, hrun, hret, hs1⟩ := mainWithLocals_runs (E := someEnv)
    (K := returningValue fun _ => 0) (by omega) h hown (fun e he => (hheights e he).1)
    (returningValue_init _) ⟨fun _ => 1, fun _ => 0⟩
  have hsaved := (hall _ log c _ e₀ someEnv _ _ cfg h
    (fun _ _ _ hk outgoing => (returningValue_keeps _ outgoing hk).1) hrun hret).saved (slotReg 0)
    (by decide)
  rw [hs1, State.get_set_self _ _ (by decide)] at hsaved
  exact absurd hsaved (by decide)

end LamaRv
