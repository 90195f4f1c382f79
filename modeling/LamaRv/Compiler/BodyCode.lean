import LamaRv.Compiler.CallExec
import LamaRv.Compiler.Sites

/-!
# The shapes of the code

The code of an instruction between `BEGIN` and `END` is straight, or jumps, or branches, or is a
call after some straight lines.  Outside of the call sequences it writes slot registers, argument
registers and the two temporaries only.

* `Quiet`: straight code that writes no other register;
* `BodyCode`, `emitCode_body`: the shapes;
* `emitBegin_code`, `emitEnd_code`: the code of `BEGIN` and of `END`;
* `safe_compileCall`: running a call sequence.
-/

namespace LamaRv

open ByteMemory Rv64 CodeBuffer Compiler

/-- The registers that the code of an instruction writes outside of a call sequence. -/
def workRegs : List Reg := regs ++ [Register.temp1, Register.temp2] ++ Register.args

/-- Straight code that writes these registers only. -/
abbrev Quiet (T : List Line) : Prop := WritesOnly workRegs T

/-- A location whose register, if it is one, is among these. -/
def Loc.Work (l : Loc) : Prop := ∀ r, l = .register r → r ∈ workRegs

theorem workRegs_avoid : ∀ r ∈ workRegs, r ≠ 0 ∧ r ≠ Register.ra ∧ r ≠ Register.sp ∧
    r ≠ Register.gp ∧ r ≠ Register.fp := by
  decide

@[simp] theorem work_loc (k : ℕ) : (SymbolicStack.loc k).Work := by
  intro r hr
  by_cases hk : k < 15
  · rw [loc_of_lt hk] at hr
    cases hr
    exact List.mem_append_left _ (List.mem_append_left _ (slotReg_mem hk))
  · rw [loc_of_ge (by omega)] at hr
    cases hr

@[simp] theorem work_register {r : Reg} : (Loc.register r).Work ↔ r ∈ workRegs := by
  simp [Loc.Work]

@[simp] theorem work_memory (k : ℕ) : (Loc.memory k).Work := nofun

@[simp] theorem temp1_mem_workRegs : Register.temp1 ∈ workRegs := by decide

@[simp] theorem temp2_mem_workRegs : Register.temp2 ∈ workRegs := by decide

/-! ### Quiet lines -/

section Lines

variable {a b d : Loc} {r s t : Reg} {i : ℤ}

@[simp] theorem quiet_toReg (h : t ∈ workRegs) : Quiet (toReg a t).1 := by
  cases a <;> simp [toReg, emitLd, Op.dst?, h]

@[simp] theorem noStores_toReg : NoStores (toReg a t).1 := by
  cases a <;> simp [toReg, emitLd, Op.isStore]

theorem toReg_mem (ha : a.Work) (h : t ∈ workRegs) : (toReg a t).2 ∈ workRegs := by
  cases a with
  | register r => exact ha r rfl
  | memory k => exact h

@[simp] theorem quiet_emitRType (op : RType) : Quiet (emitRType op r s t) ↔ r ∈ workRegs := by
  simp [emitRType, Op.dst?]

@[simp] theorem quiet_emitIType (op : IType) : Quiet (emitIType op r s i) ↔ r ∈ workRegs := by
  simp [emitIType, Op.dst?]

@[simp] theorem quiet_emitSrai : Quiet (emitSrai r s i) ↔ r ∈ workRegs := by
  simp [emitSrai]

@[simp] theorem quiet_emitLi : Quiet (emitLi r i) ↔ r ∈ workRegs := by
  simp [emitLi, Op.dst?]

@[simp] theorem quiet_emitLd : Quiet (emitLd r s i) ↔ r ∈ workRegs := by
  simp [emitLd, Op.dst?]

@[simp] theorem quiet_emitSd : Quiet (emitSd r s i) := by
  simp [emitSd, Op.dst?]

@[simp] theorem quiet_symbEmitRType (op : RType) (hd : d.Work) (ha : a.Work) :
    Quiet (symbEmitRType op d a b) := by
  unfold symbEmitRType
  cases d with
  | register d => simpa using hd
  | memory k => simp [toReg_mem ha]

@[simp] theorem quiet_symbEmitIType (op : IType) (hd : d.Work) : Quiet (symbEmitIType op d a i) := by
  simp [symbEmitIType, toReg_mem hd]

@[simp] theorem quiet_symbEmitPseudoType (op : Pseudo) (hd : d.Work) :
    Quiet (symbEmitPseudoType op d a) := by
  simp [symbEmitPseudoType, emitPseudoType, Op.dst?, toReg_mem hd]

@[simp] theorem quiet_symbEmitLi (hd : d.Work) : Quiet (symbEmitLi d i) := by
  simp [symbEmitLi, toReg_mem hd]

@[simp] theorem quiet_symbEmitLa (hd : d.Work) (l : String) : Quiet (symbEmitLa d l) := by
  simp [symbEmitLa, Op.dst?, toReg_mem hd]

@[simp] theorem quiet_symbEmitLd (hd : d.Work) : Quiet (symbEmitLd d a i) := by
  simp [symbEmitLd, toReg_mem hd]

@[simp] theorem quiet_symbEmitSd : Quiet (symbEmitSd d a i) := by
  simp [symbEmitSd]

@[simp] theorem quiet_symbEmitMv (hd : d.Work) : Quiet (symbEmitMv d a) := by
  simp [symbEmitMv, Op.dst?, toReg_mem hd]

@[simp] theorem quiet_symbEmitMvToReg (hr : r ∈ workRegs) : Quiet (symbEmitMvToReg r a) := by
  simp [symbEmitMvToReg, Op.dst?, hr]

@[simp] theorem quiet_symbEmitMvFromReg (hd : d.Work) : Quiet (symbEmitMvFromReg d r) := by
  simp [symbEmitMvFromReg, Op.dst?, toReg_mem hd]

@[simp] theorem quiet_binopLines (op : BinopKind) (hd : d.Work) (ha : a.Work) (hb : b.Work) :
    Quiet (binopLines op d a b) := by
  cases op <;> simp [binopLines, symbEmitEq, symbEmitNeq, symbEmitSle, symbEmitSge, hd, ha, hb]

theorem quiet_comments {T : List Line} (h : ∀ l ∈ T, ∃ x, l = .comment x) : Quiet T := by
  intro l hl
  obtain ⟨x, rfl⟩ := h l hl
  exact ⟨rfl, by simp⟩

/-! ### Lines without stores -/

@[simp] theorem noStores_emitRType (op : RType) : NoStores (emitRType op r s t) := noStores_op.2 rfl

@[simp] theorem noStores_emitIType (op : IType) : NoStores (emitIType op r s i) := noStores_op.2 rfl

@[simp] theorem noStores_emitSrai : NoStores (emitSrai r s i) := noStores_op.2 rfl

@[simp] theorem noStores_emitLi : NoStores (emitLi r i) := noStores_op.2 rfl

@[simp] theorem noStores_emitLd : NoStores (emitLd r s i) := noStores_op.2 rfl

@[simp] theorem noStores_symbEmitRType (op : RType) :
    NoStores (symbEmitRType op (.register r) a b) := by
  simp [symbEmitRType]

@[simp] theorem noStores_symbEmitIType (op : IType) : NoStores (symbEmitIType op d a i) := by
  simp [symbEmitIType]

@[simp] theorem noStores_symbEmitPseudoType (op : Pseudo) : NoStores (symbEmitPseudoType op d a) := by
  simp [symbEmitPseudoType, emitPseudoType, Op.isStore]

@[simp] theorem noStores_symbEmitLi : NoStores (symbEmitLi d i) := by simp [symbEmitLi]

@[simp] theorem noStores_symbEmitLa (l : String) : NoStores (symbEmitLa d l) := by
  simp [symbEmitLa, Op.isStore]

@[simp] theorem noStores_symbEmitLd : NoStores (symbEmitLd d a i) := by simp [symbEmitLd]

@[simp] theorem noStores_symbEmitMv : NoStores (symbEmitMv d a) := by simp [symbEmitMv, Op.isStore]

@[simp] theorem noStores_symbEmitMvToReg : NoStores (symbEmitMvToReg r a) := by
  simp [symbEmitMvToReg, Op.isStore]

@[simp] theorem noStores_symbEmitMvFromReg : NoStores (symbEmitMvFromReg d r) := by
  simp [symbEmitMvFromReg, Op.isStore]

@[simp] theorem noStores_binopLines (op : BinopKind) :
    NoStores (binopLines op (.register r) a b) := by
  cases op <;> simp [binopLines, symbEmitEq, symbEmitNeq, symbEmitSle, symbEmitSge]

end Lines

/-! ### Shapes -/

namespace Instruction

/-- How many operands an instruction pushes before its call. -/
def pushes : Instruction → ℕ
  | string _ _ | sExpression _ _ => 1
  | tag _ _ => 2
  | fail _ _ => 3
  | _ => 0

/-- How many arguments a call passes, with those that the instruction adds itself. -/
def callArgs : Instruction → ℕ
  | string _ _ | builtinLength | builtinString | builtinWrite => 1
  | sExpression _ size => size + 2
  | storeArray | tag _ _ => 3
  | elem => 2
  | fail _ _ => 4
  | builtinArray len => len + 1
  | call _ argc => argc
  | _ => 0

theorem callArgs_of_isBegin {i : Instruction} (h : i.isBegin = true) : i.callArgs = 0 := by
  cases i <;> first | rfl | cases h

/-- Whether the code of an instruction is a call. -/
def isCall : Instruction → Bool
  | string _ _ | sExpression _ _ | storeArray | elem | call _ _ | tag _ _ | fail _ _ => true
  | builtinRead | builtinWrite | builtinLength | builtinString | builtinArray _ => true
  | _ => false

/-- The base and the offset of the word that the own code of an instruction stores to. -/
def store? (i : Instruction) (st : SymbolicStack) : Option (Loc × ℤ) :=
  match i with
  | const _ =>
      match SymbolicStack.loc st.top with
      | .memory k => some (.register Register.fp, -k * wordSize)
      | .register _ => none
  | binop _ =>
      match SymbolicStack.loc (st.top - 2) with
      | .memory k => some (.register Register.sp, -k * wordSize)
      | .register _ => none
  | storeStack => some (SymbolicStack.loc (st.top - 2), 0)
  | store ⟨.global, k⟩ => some (.register Register.gp, k * wordSize)
  | store ⟨.localVar, k⟩ => some (.register Register.fp, -k * wordSize)
  | store ⟨.arg, k⟩ => if k < 8 then none else some (.register Register.fp, (k - 8) * wordSize)
  | _ => none

end Instruction

/-- The lines store at most to one word, given by a location and an offset from its value. -/
def StoresOnly (w : Option (Loc × ℤ)) (T : List Line) : Prop :=
  ∀ sym s b, (∀ p ∈ w, Apart (p.1.value s + BitVec.ofInt 64 (toInt p.2)) b) →
    (execLines sym T s).load b = s.load b

/-- The code from `c` to `c'` of an instruction other than `BEGIN` and `END`. -/
inductive BodyCode (i : Instruction) (c c' : Compiler) : Prop
  | straight (T : List Line) : c'.cb = c.cb ++ T → Quiet T → i.isTerminator = false →
      StoresOnly (i.store? c.st) T → BodyCode i c c'
  | jump (t : ℕ) (T : List Line) : i.jumpTarget = some t →
      c'.cb = c.cb ++ .j (labelForIp t) :: T → BodyCode i c c'
  | branch (t : ℕ) (eq : Bool) (a b : Reg) (T U : List Line) : i.jumpTarget = some t →
      i.isTerminator = false → c'.cb = c.cb ++ (T ++ .branch eq a b (labelForIp t) :: U) →
      Quiet T → NoStores T → Quiet U → NoStores U → BodyCode i c c'
  | call (x : Compiler) (callee : FunctionId) (argc : ℕ) (opt : Option ℤ) (T : List Line) :
      x.cb = c.cb ++ T → Quiet T → NoStores T → x.st.top = c.st.top + i.pushes →
      x.currentFrame = c.currentFrame → x.compileCall callee argc opt = .ok c' →
      argc + opt.toList.length = i.callArgs → i.isCall = true →
      (i.isTerminator = true → callee = .inl "Bmatch_failure") → BodyCode i c c'

section Shapes

variable {c c' : Compiler}

theorem noStores_comments {T : List Line} (h : ∀ l ∈ T, ∃ x, l = .comment x) : NoStores T := by
  intro l hl o ho
  obtain ⟨x, rfl⟩ := h l hl
  cases ho

theorem storesOnly_of_noStores {T : List Line} (h : NoStores T) (w : Option (Loc × ℤ)) :
    StoresOnly w T := by
  intro sym s b _
  rw [State.load, State.load, h.mem_exec]

/-- One store, between lines that do not store and that keep its base. -/
theorem storesOnly_sd {S T : List Line} {r base : Reg} {i : ℤ} (hS : NoStores S) (hq : Quiet S)
    (hbase : base ∉ workRegs) (hT : NoStores T) :
    StoresOnly (some (.register base, i)) (S ++ emitSd r base i ++ T) := by
  intro sym s b hb
  rw [execLines_append, execLines_append]
  refine (storesOnly_of_noStores hT none sym _ b (by simp)).trans ?_
  refine (State.load_store_of_apart _ _ ?_).trans (storesOnly_of_noStores hS none sym s b (by simp))
  have hb := hb _ rfl
  rwa [Loc.value, ← hq.get_exec sym hbase] at hb

/-- A store through a location. -/
theorem storesOnly_symbEmitSd (j k : ℕ) (off : ℤ) :
    StoresOnly (some (SymbolicStack.loc k, off))
      (symbEmitSd (SymbolicStack.loc j) (SymbolicStack.loc k) off) := by
  intro sym s b hb
  have hb := hb _ rfl
  obtain ⟨hmem₁, hother₁, -⟩ := exec_toReg sym (SymbolicStack.loc j)
    (show Register.temp1 ≠ 0 by decide) s
  obtain ⟨t, ht⟩ : ∃ t, execLines sym (toReg (SymbolicStack.loc j) Register.temp1).1 s = t := ⟨_, rfl⟩
  rw [ht] at hmem₁ hother₁
  obtain ⟨hmem₂, -, hval⟩ := exec_toReg sym (SymbolicStack.loc k)
    (show Register.temp2 ≠ 0 by decide) t
  have hk : (SymbolicStack.loc k).value t = (SymbolicStack.loc k).value s :=
    loc_value_congr hmem₁ (hother₁ _ (by decide))
      (fun r hr => hother₁ r (regs_avoid r hr).2.2.2.2.2.1) k
  simp only [symbEmitSd, emitSd, execLines_append, execLines_cons, execLines_nil, Line.exec_op, Op.exec,
    ht, hval, hk]
  refine (State.load_store_of_apart _ _ hb).trans ?_
  rw [State.load, State.load, hmem₂, hmem₁]

theorem emitConst_body {value : ℤ} (h : c.emitConst value = .ok c') :
    BodyCode (.const value) c c' := by
  unfold emitConst at h
  cases h
  refine .straight _ rfl ?_ rfl ?_
  · cases hl : SymbolicStack.loc c.st.top with
    | register r => simpa using work_loc c.st.top r hl
    | memory k => simp
  · simp only [Instruction.store?]
    cases SymbolicStack.loc c.st.top with
    | register r => exact storesOnly_of_noStores noStores_emitLi _
    | memory k =>
      have := storesOnly_sd (r := Register.temp1) (i := -k * wordSize) (T := [])
        (noStores_emitLi (r := Register.temp1) (i := value)) (by simp)
        (show Register.fp ∉ workRegs by decide) noStores_nil
      rwa [List.append_nil] at this

theorem emitStoreStack_body (h : c.emitStoreStack = .ok c') : BodyCode .storeStack c c' := by
  simp only [emitStoreStack, bind_ok, return_ok, Prod.exists] at h
  obtain ⟨l₁, st₁, hpop₁, l₂, st₂, hpop₂, rfl⟩ := h
  obtain ⟨-, rfl, rfl⟩ := SymbolicStack.pop_ok hpop₁
  obtain ⟨hpos, rfl, -⟩ := SymbolicStack.pop_ok hpop₂
  simp only at hpos
  refine .straight _ rfl quiet_symbEmitSd rfl ?_
  rw [Instruction.store?, show c.st.top - 2 = c.st.top - 1 - 1 by omega]
  exact storesOnly_symbEmitSd _ _ _

theorem emitJump_body {target : ℕ} (h : c.emitJump target = .ok c') :
    BodyCode (.jump target) c c' := by
  obtain ⟨-, -, ⟨T, hT, -⟩, -⟩ := addJumpTarget_ok h
  exact .jump target T rfl (by rw [hT]; simp [emit, emitJ])

theorem emitConditionalJump_body {target : ℕ} {zero : Bool}
    (h : c.emitConditionalJump target zero = .ok c') :
    BodyCode (.conditionalJump target zero) c c' := by
  simp only [emitConditionalJump, bind_ok, Prod.exists] at h
  obtain ⟨l, st, hpop, h⟩ := h
  obtain ⟨-, rfl, -⟩ := SymbolicStack.pop_ok hpop
  obtain ⟨-, -, ⟨U, hU, hcomments⟩, -⟩ := addJumpTarget_ok h
  have hreg := toReg_mem (work_loc (c.st.top - 1)) temp1_mem_workRegs
  refine .branch target zero (toReg (SymbolicStack.loc (c.st.top - 1)) Register.temp1).2
    Register.zero ((toReg (SymbolicStack.loc (c.st.top - 1)) Register.temp1).1 ++
      emitSrai (toReg (SymbolicStack.loc (c.st.top - 1)) Register.temp1).2
        (toReg (SymbolicStack.loc (c.st.top - 1)) Register.temp1).2 1) U rfl rfl ?_
    (by simp [hreg]) (by simp) (quiet_comments hcomments) (noStores_comments hcomments)
  rw [hU]
  simp only [finish, emit, emitCj, List.append_assoc, List.cons_append, List.nil_append]

theorem emitSwap_body (h : c.emitSwap = .ok c') : BodyCode .swap c c' := by
  simp only [emitSwap, bind_ok, return_ok, Prod.exists] at h
  obtain ⟨a, st, hpop, b, hpeek, rfl⟩ := h
  obtain ⟨-, rfl, rfl⟩ := SymbolicStack.pop_ok hpop
  obtain ⟨-, rfl⟩ := SymbolicStack.peek_ok hpeek
  exact .straight _ rfl (by simp) rfl (storesOnly_of_noStores (by simp) _)

theorem emitDuplicate_body (h : c.emitDuplicate = .ok c') : BodyCode .duplicate c c' := by
  simp only [emitDuplicate, bind_ok, return_ok] at h
  obtain ⟨src, -, rfl⟩ := h
  exact .straight _ rfl (quiet_symbEmitMv (work_loc _)) rfl (storesOnly_of_noStores noStores_symbEmitMv _)

theorem emitLoad_body {loc : LocationEntry} (h : c.emitLoad loc = .ok c') :
    BodyCode (.load loc) c c' := by
  have hd := work_loc c.st.top
  obtain ⟨kind, index⟩ := loc
  cases kind with
  | global =>
    simp only [emitLoad, bind_ok, return_ok] at h
    obtain ⟨-, -, off, -, rfl⟩ := h
    exact .straight _ rfl (quiet_symbEmitLd hd) rfl (storesOnly_of_noStores noStores_symbEmitLd _)
  | localVar =>
    simp only [emitLoad, bind_ok, return_ok] at h
    obtain ⟨-, -, -, -, off, -, rfl⟩ := h
    exact .straight _ rfl (quiet_symbEmitLd hd) rfl (storesOnly_of_noStores noStores_symbEmitLd _)
  | arg =>
    simp only [emitLoad, bind_ok] at h
    obtain ⟨-, -, -, -, h⟩ := h
    split_ifs at h
    · simp only [bind_ok, return_ok] at h
      obtain ⟨r, -, rfl⟩ := h
      exact .straight _ rfl (quiet_symbEmitMvFromReg hd) rfl
        (storesOnly_of_noStores noStores_symbEmitMvFromReg _)
    · cases h
      exact .straight _ rfl (quiet_symbEmitLd hd) rfl (storesOnly_of_noStores noStores_symbEmitLd _)
  | captured => cases h
  | other m hm =>
    cases h
    exact .straight [] (List.append_nil _).symm (by simp) rfl (storesOnly_of_noStores noStores_nil _)

theorem emitStore_body {loc : LocationEntry} (h : c.emitStore loc = .ok c') :
    BodyCode (.store loc) c c' := by
  obtain ⟨kind, index⟩ := loc
  simp only [emitStore, bind_ok] at h
  obtain ⟨value, hpeek, h⟩ := h
  obtain ⟨-, rfl⟩ := SymbolicStack.peek_ok hpeek
  -- a store relative to a register that keeps its value
  have key : ∀ (base : Reg) (off : ℤ), base ∉ workRegs →
      StoresOnly (some (.register base, off))
        (symbEmitSd (SymbolicStack.loc (c.st.top - 1)) (.register base) off) := by
    intro base off hbase
    have := storesOnly_sd (r := (toReg (SymbolicStack.loc (c.st.top - 1)) Register.temp1).2)
      (i := off) (T := []) (noStores_toReg (a := SymbolicStack.loc (c.st.top - 1)))
      (quiet_toReg temp1_mem_workRegs) hbase noStores_nil
    rw [List.append_nil] at this
    simpa [symbEmitSd, toReg] using this
  cases kind with
  | global =>
    simp only [bind_ok, return_ok, mulInt, check_ok] at h
    obtain ⟨off, ⟨-, -, rfl⟩, rfl⟩ := h
    exact .straight _ rfl quiet_symbEmitSd rfl (key _ _ (by decide))
  | localVar =>
    simp only [bind_ok, return_ok, mulInt, check_ok] at h
    obtain ⟨off, ⟨-, -, rfl⟩, rfl⟩ := h
    exact .straight _ rfl quiet_symbEmitSd rfl (key _ _ (by decide))
  | arg =>
    simp only at h
    split_ifs at h with hindex
    · simp only [bind_ok, return_ok] at h
      obtain ⟨r, -, rfl⟩ := h
      exact .straight _ rfl (quiet_symbEmitMvFromReg (work_loc _)) rfl
        (storesOnly_of_noStores noStores_symbEmitMvFromReg _)
    · simp only [bind_ok, return_ok, mulInt, check_ok] at h
      obtain ⟨off, ⟨-, -, rfl⟩, rfl⟩ := h
      refine .straight _ rfl quiet_symbEmitSd rfl ?_
      rw [Instruction.store?, if_neg hindex]
      exact key _ _ (by decide)
  | captured => cases h
  | other m hm =>
    cases h
    exact .straight [] (List.append_nil _).symm (by simp) rfl (storesOnly_of_noStores noStores_nil _)

/-- The lines of an operator are a three-register operation and lines that do not store; a number
without a name has none. -/
theorem binopLines_split (op : BinopKind) (d a b : Loc) : binopLines op d a b = [] ∨ ∃ insn x y T,
    binopLines op d a b = symbEmitRType insn d x y ++ T ∧ NoStores T ∧ (x = a ∨ x = b) := by
  cases op with
  | other m hm => exact .inl rfl
  | lessEqual | greaterEqual => exact .inr ⟨_, a, b, _, rfl, noStores_symbEmitIType _, .inl rfl⟩
  | equal | notEqual => exact .inr ⟨_, b, a, _, rfl, noStores_symbEmitPseudoType _, .inr rfl⟩
  | _ => exact .inr ⟨_, a, b, [], (List.append_nil _).symm, noStores_nil, .inl rfl⟩

theorem emitBinop_body {op : BinopKind} (h : c.emitBinop op = .ok c') :
    BodyCode (.binop op) c c' := by
  simp only [emitBinop, bind_ok, return_ok, Prod.exists] at h
  obtain ⟨l₁, st₁, hpop₁, l₂, st₂, hpop₂, rfl⟩ := h
  obtain ⟨-, rfl, rfl⟩ := SymbolicStack.pop_ok hpop₁
  obtain ⟨hpos, rfl, rfl⟩ := SymbolicStack.pop_ok hpop₂
  simp only at hpos
  refine .straight _ rfl (by simp [SymbolicStack.alloc]) rfl ?_
  simp only [SymbolicStack.alloc, Instruction.store?, show c.st.top - 1 - 1 = c.st.top - 2 by omega]
  cases hl : SymbolicStack.loc (c.st.top - 2) with
  | register r => exact storesOnly_of_noStores (by simp) _
  | memory k =>
    obtain hnil | ⟨insn, x, y, T, hT, hn, hx⟩ := binopLines_split op (.memory k) (.memory k)
      (SymbolicStack.loc (c.st.top - 1))
    · rw [hnil]
      exact storesOnly_of_noStores (by simp) _
    have hwork : x.Work := by
      rcases hx with rfl | rfl
      · rw [← hl]
        exact work_loc _
      · exact work_loc _
    rw [hT]
    have := storesOnly_sd (r := (toReg x Register.temp1).2) (i := -k * wordSize)
      (S := symbEmitIType .srai (.memory k) (.memory k) 1 ++
        symbEmitIType .srai (SymbolicStack.loc (c.st.top - 1)) (SymbolicStack.loc (c.st.top - 1)) 1 ++
        ((toReg x Register.temp1).1 ++ (toReg y Register.temp2).1 ++
          emitRType insn (toReg x Register.temp1).2 (toReg x Register.temp1).2
            (toReg y Register.temp2).2))
      (T := T ++ symbEmitIType .slli (.memory k) (.memory k) 1 ++
        symbEmitIType .addi (.memory k) (.memory k) 1) (by simp) (by simp [toReg_mem hwork])
      (show Register.sp ∉ workRegs by decide) (by simp [hn])
    simpa only [symbEmitRType, List.append_assoc] using this

theorem pushLi_body (c : Compiler) (imm : ℤ) : ∃ T, (c.pushLi imm).cb = c.cb ++ T ∧ Quiet T ∧
    NoStores T ∧ (c.pushLi imm).st.top = c.st.top + 1 ∧
    (c.pushLi imm).currentFrame = c.currentFrame :=
  ⟨_, rfl, quiet_symbEmitLi (work_loc _), noStores_symbEmitLi, rfl, rfl⟩

theorem pushLa_body (c : Compiler) (label : String) : ∃ T, (c.pushLa label).cb = c.cb ++ T ∧
    Quiet T ∧ NoStores T ∧ (c.pushLa label).st.top = c.st.top + 1 ∧
    (c.pushLa label).currentFrame = c.currentFrame :=
  ⟨_, rfl, quiet_symbEmitLa (work_loc _) label, noStores_symbEmitLa label, rfl, rfl⟩

/-- A call without pushed operands. -/
theorem BodyCode.plainCall {i : Instruction} {callee : FunctionId} {argc : ℕ} {opt : Option ℤ}
    (h : c.compileCall callee argc opt = .ok c') (hp : i.pushes = 0)
    (ha : argc + opt.toList.length = i.callArgs) (hc : i.isCall = true)
    (ht : i.isTerminator = false) : BodyCode i c c' :=
  .call c callee argc opt [] (by simp) (by simp) (by simp) (by rw [hp]; rfl) rfl h ha hc
    fun h => absurd h (by simp [ht])

/-- The code of every instruction has one of the shapes. -/
theorem emitCode_body {i : Instruction} (h : i.emitCode c = .ok c') (hb : i.isBegin = false)
    (he : i ≠ .endInst) : BodyCode i c c' := by
  cases i with
  | const value => exact emitConst_body h
  | string ind str =>
    obtain ⟨T, hT, hq, hn, htop, hf⟩ := pushLa_body c ("string_" ++ formatInt ind)
    exact .call _ _ _ _ T hT hq hn htop hf h rfl rfl fun h => by cases h
  | sExpression name size =>
    simp only [Instruction.emitCode, emitSExpression, bind_ok] at h
    obtain ⟨hash, -, h⟩ := h
    obtain ⟨T, hT, hq, hn, htop, hf⟩ := pushLi_body c hash
    exact .call _ _ _ _ T hT hq hn htop hf h rfl rfl fun h => by cases h
  | storeStack => exact emitStoreStack_body h
  | storeArray | elem | builtinRead | builtinWrite | builtinLength | builtinString =>
    exact .plainCall h rfl rfl rfl rfl
  | builtinArray len => exact .plainCall h rfl rfl rfl rfl
  | call callee argc => exact .plainCall h rfl rfl rfl rfl
  | jump target => exact emitJump_body h
  | conditionalJump target zero => exact emitConditionalJump_body h
  | drop =>
    simp only [Instruction.emitCode, bind_ok, return_ok, Prod.exists] at h
    obtain ⟨loc, st, -, rfl⟩ := h
    exact .straight [] (by simp) (by simp) rfl (storesOnly_of_noStores noStores_nil _)
  | duplicate => exact emitDuplicate_body h
  | swap => exact emitSwap_body h
  | beginInst | cBegin => cases hb
  | endInst => exact absurd rfl he
  | tag name size =>
    have h : emitTag c name size = .ok c' := h
    simp only [emitTag, bind_ok] at h
    obtain ⟨hash, -, h⟩ := h
    obtain ⟨T, hT, hq, hn, htop, hf⟩ := pushLi_body c hash
    obtain ⟨T', hT', hq', hn', htop', hf'⟩ := pushLi_body (pushLi c hash) (boxSum size 0)
    refine .call _ _ _ _ (T ++ T') ?_ (by simp [hq, hq']) (by simp [hn, hn']) ?_ (hf'.trans hf) h
      rfl rfl fun h => by cases h
    · rw [hT', hT, List.append_assoc]
    · rw [htop', htop]
      rfl
  | fail l col =>
    obtain ⟨T, hT, hq, hn, htop, hf⟩ := pushLa_body c "fname"
    obtain ⟨T', hT', hq', hn', htop', hf'⟩ := pushLi_body (pushLa c "fname") (boxSum l 0)
    obtain ⟨U, hU, hq'', hn'', htop'', hf''⟩ :=
      pushLi_body (pushLi (pushLa c "fname") (boxSum l 0)) (boxSum col 0)
    refine .call _ _ _ _ (T ++ (T' ++ U)) ?_ (by simp [hq, hq', hq'']) (by simp [hn, hn', hn'']) ?_
      (hf''.trans (hf'.trans hf)) h rfl rfl fun _ => rfl
    · rw [hU, hT', hT, List.append_assoc, List.append_assoc]
    · rw [htop'', htop', htop]
      rfl
  | line l =>
    cases h
    exact .straight _ rfl writesOnly_comment rfl
      (storesOnly_of_noStores (noStores_comments (by simp [emitComment])) _)
  | binop op => exact emitBinop_body h
  | load loc => exact emitLoad_body h
  | store loc => exact emitStore_body h
  | _ => cases h

/-! ### `BEGIN` and `END` -/

/-- The code of a `BEGIN`: the name of the function, in `main` a call, and the prologue. -/
inductive BeginCode (f : FrameInfo) (c c' : Compiler) : Prop
  | plain (L : List Line) : f.functionName ≠ "main" → (L = [] ∨ ∃ n, L = [.label n]) →
      c'.cb = c.cb ++ (L ++ prologue f.localsCount) → BeginCode f c c'
  | main (x y : Compiler) : f.functionName = "main" →
      x.cb = c.cb ++ (emitLabel "main" ++ premain) → x.st = c.st → x.currentFrame = some f →
      x.compileCall (.inl "__init") 0 = .ok y → c'.cb = y.cb ++ prologue f.localsCount →
      c'.st = y.st → BeginCode f c c'

theorem emitBegin_code {id : FunctionId} {argc locc : ℕ} (h : emitBegin c id argc locc = .ok c') :
    BeginCode ⟨Instruction.label id, locc, argc⟩ c c' := by
  cases id with
  | inr offset =>
    simp only [emitBegin, if_neg (labelForIp_ne_main offset)] at h
    cases h
    exact .plain [] (labelForIp_ne_main offset) (.inl rfl) rfl
  | inl name =>
    by_cases hmain : name = "main"
    · subst hmain
      simp only [emitBegin, if_true, bind_ok, return_ok] at h
      obtain ⟨y, hy, rfl⟩ := h
      refine .main _ y rfl ?_ ?_ ?_ hy rfl rfl <;> simp [emit, Instruction.label]
    · simp only [emitBegin, if_neg hmain] at h
      cases h
      exact .plain (emitLabel name) hmain (.inr ⟨name, rfl⟩) (by simp [emit])

theorem emitCode_begin {i : Instruction} (h : i.emitCode c = .ok c') (hb : i.isBegin = true) :
    ∃ f, i.frameAfter none = some f ∧ BeginCode f c c' := by
  cases i with
  | beginInst id argc locc => exact ⟨_, rfl, emitBegin_code h⟩
  | cBegin offset argc locc =>
    have h : emitBegin c (.inl ("closure@" ++ formatHex10 offset)) argc locc = .ok c' := h
    exact ⟨_, rfl, emitBegin_code h⟩
  | _ => cases hb

/-- The code of an `END`: the result, the epilogue, and in `main` the shift of the result. -/
theorem emitEnd_code (h : emitEnd c = .ok c') : ∃ f, c.currentFrame = some f ∧ 0 < c.st.top ∧
    c'.cb = c.cb ++ (symbEmitMvToReg 10 (SymbolicStack.loc (c.st.top - 1)) ++
      epilogue f.localsCount ++ (if f.functionName = "main" then postmain else []) ++ emitRet) := by
  unfold emitEnd at h
  cases hf : c.currentFrame with
  | none => simp [hf] at h
  | some f =>
    simp only [hf, bind_ok, return_ok, Prod.exists] at h
    obtain ⟨loc, st, hpop, rfl⟩ := h
    obtain ⟨hpos, rfl, -⟩ := SymbolicStack.pop_ok hpop
    exact ⟨f, rfl, hpos, rfl⟩

end Shapes

/-! ### What `END` writes -/

/-- The registers that the code of an `END` writes. -/
def endRegs : List Reg := [10, Register.temp2, Register.sp] ++ Register.saved

theorem epilogue_lines {locc : ℕ} {l : Line} (h : l ∈ epilogue locc) :
    ∃ o, l = .op o ∧ o.isStore = false ∧ ∀ r ∈ o.dst?, r ∈ endRegs := by
  rw [epilogue, List.mem_append] at h
  rcases h with h | h
  · obtain rfl := List.mem_singleton.1 h
    exact ⟨_, rfl, rfl, by simp [Op.dst?, endRegs]⟩
  · obtain ⟨p, hp, h⟩ := List.mem_flatMap.1 h
    obtain rfl := List.mem_singleton.1 h
    refine ⟨_, rfl, rfl, fun r hr => ?_⟩
    cases hr
    exact List.mem_append_right _ (List.fst_mem_of_mem_zipIdx hp)

theorem writesOnly_end (l : Loc) (locc : ℕ) :
    WritesOnly endRegs (symbEmitMvToReg 10 l ++ epilogue locc) := by
  rw [writesOnly_append]
  constructor
  · rw [symbEmitMvToReg, writesOnly_append]
    constructor
    · cases l <;> simp [toReg, emitLd, Op.dst?, endRegs]
    · simp [Op.dst?, endRegs]
  · intro x hx
    obtain ⟨o, rfl, -, hdst⟩ := epilogue_lines hx
    exact ⟨rfl, fun o' ho' => Line.op.inj ho' ▸ hdst⟩

theorem noStores_end (l : Loc) (locc : ℕ) : NoStores (symbEmitMvToReg 10 l ++ epilogue locc) := by
  rw [noStores_append]
  constructor
  · simp [symbEmitMvToReg, Op.isStore]
  · intro x hx o' ho'
    obtain ⟨o, rfl, hstore, -⟩ := epilogue_lines hx
    exact Line.op.inj ho' ▸ hstore

/-! ### Running a call sequence -/

section Call

variable {sym : String → Word} {K : Calls} {Q : Line → State → Prop} {J : String → State → Prop}
  {F : State → Prop}

/-- A call sequence is safe when its call is, in the state in which the function is called, and
what is needed at its end holds after every return. -/
theorem safe_compileCall {x c' : Compiler} {callee : FunctionId} {argc : ℕ} {opt : Option ℤ}
    {f : FrameInfo} {U V : List Line} {s : State} (h : x.compileCall callee argc opt = .ok c')
    (hf : x.currentFrame = some f) (hU : c'.cb = x.cb ++ U)
    (hQ : ∀ t label, CallEntry x.st argc opt
      (callAlignment f.localsCount x.st.spilledCount (argc + opt.toList.length)) s t →
      Q (.call label) t)
    (hF : ∀ t label ra u v, (∀ name, callee = .inl name → label = name) →
      CallEntry x.st argc opt
        (callAlignment f.localsCount x.st.spilledCount (argc + opt.toList.length)) s t →
      K label (t.set raReg ra) u →
      CallExit (argc + opt.toList.length)
        (callAlignment f.localsCount x.st.spilledCount (argc + opt.toList.length))
        (x.st.top - argc) (x.st.top - argc + 1 - 15) u v → Safe sym K Q J F V v) :
    Safe sym K Q J F (U ++ V) s := by
  obtain ⟨-, f', before, label, after, hf', hname, htext, hbefore, hafter, hexec⟩ :=
    compileCall_split h
  obtain rfl : f = f' := Option.some.inj (hf.symm.trans hf')
  obtain rfl : U = before ++ .call label :: after := List.append_cancel_left (hU.symm.trans htext)
  rw [List.append_assoc, safe_append hbefore, List.cons_append]
  refine ⟨hQ _ _ (hexec sym s).1, fun ra u hk => ?_⟩
  rw [safe_append hafter]
  exact hF _ label ra u _ hname (hexec sym s).1 hk (hexec sym u).2

end Call

end LamaRv
