import LamaRv.Compiler.Sites

/-!
# Immediates in the emitted text

An `addi`, a `xori`, a load and a store have room for an immediate of twelve bits.  Nothing in the
compiler compares an offset with this range.

* `Encodable`: a line whose immediate has room;
* `Instruction.Fits`: the offsets in the code of an instruction are in the range, at a height of the
  symbolic stack and in a frame;
* `immediates_encodable_iff`: the finished output has room for its immediates just when all instructions
  fit where they were emitted.
-/

namespace LamaRv

open Rv64 CodeBuffer Compiler

/-! ### Lines -/

/-- The immediates of twelve bits. -/
def Imm12 (x : ℤ) : Prop := -2048 ≤ x ∧ x ≤ 2047

instance : DecidablePred Imm12 := fun _ => inferInstanceAs (Decidable (_ ∧ _))

/-- The immediate of an `addi`, a `xori`, a load or a store is one of them. -/
@[simp] def Encodable : Line → Prop
  | .op (.itype .addi _ _ imm) | .op (.itype .xori _ _ imm) => Imm12 imm
  | .op (.ld _ _ off) | .op (.sd _ _ off) => Imm12 off
  | _ => True

/-- All lines of a text are encodable. -/
def AllEncodable (T : Text) : Prop := ∀ l ∈ T, Encodable l

/-! ### Instructions -/

/-- An offset, passed as an `int`, is encodable. -/
def OffsetFits (off : ℤ) : Prop := Imm12 (toInt off)

/-- The spill word of slot `k`, if it is not a register, can be accessed. -/
def SlotFits (k : ℕ) : Prop := 15 ≤ k → OffsetFits (-(k - 15 : ℕ) * wordSize)

/-- A call at some height, with its arguments on the symbolic stack and an additional one before
them. -/
structure CallFits (height argc addArg : ℕ) : Prop where
  skip : OffsetFits (-(height - 15 : ℕ) * wordSize)
  args : ∀ k, height - argc ≤ k → k < height → SlotFits k
  drop : 8 < argc + addArg → OffsetFits ((argc + addArg - 8 : ℕ) * wordSize)
  result : SlotFits (height - argc)
  unskip : OffsetFits ((height - argc + 1 - 15 : ℕ) * wordSize)

/-- The places of the callee-saved registers below the locals. -/
def FrameFits (locc : ℕ) : Prop := ∀ i : ℕ, 1 ≤ i → i ≤ 12 → OffsetFits (-(i + locc) * wordSize)

/-- The variable can be accessed.  An argument on the stack is loaded from its index in bytes. -/
def LoadFits (loc : LocationEntry) : Prop :=
  match loc.kind with
  | .global => OffsetFits (loc.index * wordSize)
  | .localVar => OffsetFits (-loc.index * wordSize)
  | .arg => 8 ≤ loc.index → OffsetFits (toSizeT loc.index - 8)
  | .captured | .other _ _ => True

def StoreFits (loc : LocationEntry) : Prop :=
  match loc.kind with
  | .global => OffsetFits (loc.index * wordSize)
  | .localVar => OffsetFits (-loc.index * wordSize)
  | .arg => 8 ≤ loc.index → OffsetFits ((loc.index - 8) * wordSize)
  | .captured | .other _ _ => True

/-- The offsets in the code of an instruction, at some height and in a frame. -/
@[simp] def Instruction.Fits (height : ℕ) (frame : Option FrameInfo) : Instruction → Prop
  | .load ⟨.other _ _, _⟩ | .store ⟨.other _ _, _⟩ => True
  | .const _ => SlotFits height
  | .string _ _ => SlotFits height ∧ CallFits (height + 1) 1 0
  | .sExpression _ size => SlotFits height ∧ CallFits (height + 1) (size + 1) 1
  | .storeStack => SlotFits (height - 1) ∧ SlotFits (height - 2)
  | .storeArray => CallFits height 3 0
  | .conditionalJump _ _ => SlotFits (height - 1)
  | .duplicate => SlotFits (height - 1) ∧ SlotFits height
  | .swap => SlotFits (height - 1) ∧ SlotFits (height - 2)
  | .elem => CallFits height 2 0
  | .cBegin _ _ locc | .beginInst (.inr _) _ locc => FrameFits locc
  | .beginInst (.inl name) _ locc => (name = "main" → CallFits height 0 0) ∧ FrameFits locc
  | .endInst => SlotFits (height - 1) ∧ ∀ f, frame = some f → FrameFits f.localsCount
  | .tag _ _ => SlotFits height ∧ SlotFits (height + 1) ∧ CallFits (height + 2) 3 0
  | .fail _ _ =>
      SlotFits height ∧ SlotFits (height + 1) ∧ SlotFits (height + 2) ∧ CallFits (height + 3) 4 0
  | .load loc => SlotFits height ∧ LoadFits loc
  | .store loc => SlotFits (height - 1) ∧ StoreFits loc
  | .builtinLength | .builtinString | .builtinWrite => CallFits height 1 0
  | .builtinArray len => CallFits height len 1
  | .builtinRead => CallFits height 0 0
  | .call _ argc => CallFits height argc 0
  | .binop _ => SlotFits (height - 1) ∧ SlotFits (height - 2)
  | _ => True

/-! ### Texts -/

section Texts

variable {T U : Text}

@[simp] theorem allEncodable_nil : AllEncodable [] := by simp [AllEncodable]

@[simp] theorem allEncodable_cons {l : Line} : AllEncodable (l :: T) ↔ Encodable l ∧ AllEncodable T :=
  List.forall_mem_cons

@[simp] theorem allEncodable_append : AllEncodable (T ++ U) ↔ AllEncodable T ∧ AllEncodable U :=
  List.forall_mem_append

@[simp] theorem allEncodable_ite {p : Prop} [Decidable p] :
    AllEncodable (if p then T else []) ↔ (p → AllEncodable T) := by
  by_cases hp : p <;> simp [hp]

theorem allEncodable_flatMap {α : Type} {xs : List α} {f : α → Text} :
    AllEncodable (xs.flatMap f) ↔ ∀ x ∈ xs, AllEncodable (f x) := by
  simp only [AllEncodable, List.mem_flatMap]
  exact ⟨fun h x hx l hl => h l ⟨x, hx, hl⟩, fun h l ⟨x, hx, hl⟩ => h x hx l hl⟩

end Texts

/-! ### The lines of the emitters -/

/-- A location in memory can be accessed. -/
def LocFits : Loc → Prop
  | .memory k => OffsetFits (-k * wordSize)
  | .register _ => True

@[simp] theorem locFits_register (r : Reg) : LocFits (.register r) := trivial

@[simp] theorem locFits_loc {k : ℕ} : LocFits (SymbolicStack.loc k) ↔ SlotFits k := by
  by_cases hk : 15 ≤ k
  · rw [loc_of_ge hk]
    exact ⟨fun h _ => h, fun h => h hk⟩
  · rw [loc_of_lt (by omega)]
    exact ⟨fun _ hge => absurd hge hk, fun _ => trivial⟩

section Lines

variable (r s : Reg) (a b d : Loc) (i : ℤ)

theorem offsetFits_of_le {x : ℤ} (h : Imm12 x) : OffsetFits x := by
  have hint := toInt_of_mem (x := x) (by have := h.1; omega) (by have := h.2; omega)
  rw [OffsetFits, hint]
  exact h

@[simp] theorem allEncodable_emitLi : AllEncodable (emitLi r i) := by simp [emitLi, Encodable]

@[simp] theorem allEncodable_emitLd : AllEncodable (emitLd r s i) ↔ OffsetFits i := by
  simp [emitLd, Encodable, OffsetFits]

@[simp] theorem allEncodable_emitSd : AllEncodable (emitSd r s i) ↔ OffsetFits i := by
  simp [emitSd, Encodable, OffsetFits]

@[simp] theorem allEncodable_emitAddi : AllEncodable (emitAddi r s i) ↔ OffsetFits i := by
  simp [emitAddi, emitIType, Encodable, OffsetFits]

@[simp] theorem allEncodable_emitSrai : AllEncodable (emitSrai r s i) := by
  simp [emitSrai, emitIType, Encodable]

@[simp] theorem allEncodable_emitMv : AllEncodable (emitMv r s) := by
  simp [emitMv, offsetFits_of_le (show Imm12 0 by decide)]

@[simp] theorem allEncodable_toReg : AllEncodable (toReg a r).1 ↔ LocFits a := by
  cases a <;> simp [toReg, LocFits]

@[simp] theorem allEncodable_symbEmitRType (op : RType) :
    AllEncodable (symbEmitRType op d a b) ↔ LocFits a ∧ LocFits b ∧ LocFits d := by
  cases d <;> simp [symbEmitRType, emitRType, Encodable, LocFits]

/-- An immediate of one, in a shift or not. -/
@[simp] theorem allEncodable_symbEmitIType_one (op : IType) :
    AllEncodable (symbEmitIType op d a 1) ↔ LocFits d ∧ LocFits a := by
  have hone : Imm12 (toInt 1) := offsetFits_of_le (by decide)
  cases op <;> simp [symbEmitIType, emitIType, Encodable, hone]

@[simp] theorem allEncodable_symbEmitPseudoType (op : Pseudo) :
    AllEncodable (symbEmitPseudoType op d a) ↔ LocFits d ∧ LocFits a := by
  simp [symbEmitPseudoType, emitPseudoType, Encodable]

@[simp] theorem allEncodable_symbEmitLi : AllEncodable (symbEmitLi d i) ↔ LocFits d := by
  simp [symbEmitLi]

@[simp] theorem allEncodable_symbEmitLd :
    AllEncodable (symbEmitLd d a i) ↔ LocFits d ∧ LocFits a ∧ OffsetFits i := by
  simp [symbEmitLd]

@[simp] theorem allEncodable_symbEmitSd :
    AllEncodable (symbEmitSd d a i) ↔ LocFits d ∧ LocFits a ∧ OffsetFits i := by
  simp [symbEmitSd]

@[simp] theorem allEncodable_symbEmitLa (l : String) : AllEncodable (symbEmitLa d l) ↔ LocFits d := by
  simp [symbEmitLa, Encodable]

@[simp] theorem allEncodable_symbEmitMv :
    AllEncodable (symbEmitMv d a) ↔ LocFits a ∧ LocFits d := by
  simp [symbEmitMv, Encodable]

@[simp] theorem allEncodable_symbEmitMvToReg : AllEncodable (symbEmitMvToReg r a) ↔ LocFits a := by
  simp [symbEmitMvToReg, Encodable]

@[simp] theorem allEncodable_symbEmitMvFromReg :
    AllEncodable (symbEmitMvFromReg d r) ↔ LocFits d := by
  simp [symbEmitMvFromReg, Encodable]

theorem allEncodable_binopLines (op : BinopKind) : AllEncodable (binopLines op d a b) ↔
    (∃ n h, op = .other n h) ∨ LocFits a ∧ LocFits b ∧ LocFits d := by
  cases op <;> simp [binopLines, symbEmitEq, symbEmitNeq, symbEmitSle, symbEmitSge] <;> tauto

/-! ### Frames -/

@[simp] theorem offsetFits_word : OffsetFits wordSize := offsetFits_of_le (by decide)

@[simp] theorem offsetFits_neg_word : OffsetFits (-wordSize) := offsetFits_of_le (by decide)

@[simp] theorem allEncodable_pushReg : AllEncodable (pushReg r) := by simp [pushReg]

theorem allEncodable_saveCaller (n : ℕ) :
    AllEncodable (saveCaller n) ↔ OffsetFits (-n * wordSize) := by
  simp [saveCaller, allEncodable_flatMap]

theorem allEncodable_restoreCaller (n : ℕ) :
    AllEncodable (restoreCaller n) ↔ OffsetFits (n * wordSize) := by
  have hzero : OffsetFits 0 := offsetFits_of_le (by decide)
  have hargs : OffsetFits (8 * wordSize) := offsetFits_of_le (by decide)
  have htemp : ∀ p ∈ Register.temp.zipIdx 1, OffsetFits (-((p.2 : ℤ) + 1) * wordSize) := by
    intro p hp
    refine offsetFits_of_le ?_
    revert p
    decide
  simp only [restoreCaller, allEncodable_append, allEncodable_flatMap, allEncodable_emitLd,
    allEncodable_emitAddi, hzero, hargs, offsetFits_word, offsetFits_neg_word]
  simpa using fun _ => htemp

/-- The indices of the callee-saved registers. -/
theorem forall_saved {P : ℕ → Prop} :
    (∀ p ∈ Register.saved.zipIdx 1, P p.2) ↔ ∀ i, 1 ≤ i → i ≤ 12 → P i := by
  constructor
  · intro h i h₁ h₂
    have hlt : i - 1 < Register.saved.length := by simp only [Register.saved, List.length_cons]; omega
    refine h (Register.saved.get ⟨i - 1, hlt⟩, i) ?_
    rw [List.mem_zipIdx_iff_le_and_getElem?_sub]
    exact ⟨h₁, List.getElem?_eq_getElem hlt⟩
  · rintro h ⟨r, i⟩ hp
    have hi := List.snd_lt_of_mem_zipIdx hp
    have hi' := List.le_snd_of_mem_zipIdx hp
    exact h i hi' (by simp [Register.saved] at hi; omega)

theorem allEncodable_prologue (locc : ℕ) : AllEncodable (prologue locc) ↔ FrameFits locc := by
  simp only [prologue, allEncodable_append, allEncodable_flatMap, allEncodable_emitSd,
    allEncodable_emitMv, allEncodable_emitAddi, and_true]
  rw [forall_saved (P := fun i => OffsetFits (-((i : ℤ) + locc) * wordSize))]
  constructor
  · exact fun h => h.1
  · intro h
    refine ⟨h, ?_⟩
    have hlast := h 12 (by omega) (by omega)
    rwa [add_comm (locc : ℤ)]

theorem allEncodable_epilogue (locc : ℕ) : AllEncodable (epilogue locc) ↔ FrameFits locc := by
  simp only [epilogue, allEncodable_append, allEncodable_flatMap, allEncodable_emitLd,
    allEncodable_emitMv, true_and]
  exact forall_saved (P := fun i => OffsetFits (-((i : ℤ) + locc) * wordSize))

end Lines

/-! ### Calls -/

section Calls

variable {c c' : Compiler} {i : Instruction}

/-- The topmost slot and those below it. -/
theorem forall_slots {P : ℕ → Prop} {m n : ℕ} (h : m < n) :
    (P (n - 1) ∧ ∀ k, m ≤ k → k < n - 1 → P k) ↔ ∀ k, m ≤ k → k < n → P k := by
  constructor
  · rintro ⟨htop, hrest⟩ k h₁ h₂
    by_cases hk : k = n - 1
    · rwa [hk]
    · exact hrest k h₁ (by omega)
  · intro hall
    exact ⟨hall _ (by omega) (by omega), fun k h₁ h₂ => hall k h₁ (by omega)⟩

theorem placeArgs_encodable {is : List ℕ} {st st' : SymbolicStack} {T : Text}
    (h : placeArgs is st = .ok (T, st')) :
    AllEncodable T ↔ ∀ k, st'.top ≤ k → k < st.top → SlotFits k := by
  induction is generalizing st T with
  | nil =>
    cases h
    simp only [allEncodable_nil, true_iff]
    intro k h₁ h₂
    omega
  | cons i is ih =>
    simp only [placeArgs, bind_ok, return_ok, Prod.exists] at h
    obtain ⟨r, -, loc, st₁, hpop, T₁, st₂, hrec, h⟩ := h
    cases h
    obtain ⟨hpos, rfl, rfl⟩ := SymbolicStack.pop_ok hpop
    have hle := (placeArgs_ok hrec).2.1
    rw [allEncodable_append, allEncodable_symbEmitMvToReg, locFits_loc, ih hrec]
    exact forall_slots (by dsimp only at hle; omega)

theorem pushArgs_encodable {n : ℕ} {st st' : SymbolicStack} {T : Text}
    (h : pushArgs n st = .ok (T, st')) :
    AllEncodable T ↔ ∀ k, st'.top ≤ k → k < st.top → SlotFits k := by
  induction n generalizing st T with
  | zero =>
    cases h
    simp only [allEncodable_nil, true_iff]
    intro k h₁ h₂
    omega
  | succ n ih =>
    simp only [pushArgs, bind_ok, return_ok, Prod.exists] at h
    obtain ⟨loc, st₁, hpop, T₁, st₂, hrec, h⟩ := h
    cases h
    obtain ⟨hpos, rfl, rfl⟩ := SymbolicStack.pop_ok hpop
    have hle := (pushArgs_ok hrec).2.1
    rw [allEncodable_append, allEncodable_append, allEncodable_toReg, locFits_loc, ih hrec]
    simp only [allEncodable_pushReg, and_true]
    exact forall_slots (by dsimp only at hle; omega)

theorem addJumpTarget_encodable {offset height : ℕ} (h : c.addJumpTarget offset height = .ok c') :
    AllEncodable c'.cb ↔ AllEncodable c.cb := by
  unfold Compiler.addJumpTarget at h
  split at h
  · simp only [bind_ok, return_ok] at h
    obtain ⟨-, -, rfl⟩ := h
    simp [Compiler.emit, emitComment, Encodable]
  · simp only [bind_ok, return_ok] at h
    obtain ⟨-, -, rfl⟩ := h
    rfl

theorem calleeLabel_encodable {callee : FunctionId} {label : String}
    (h : c.calleeLabel callee = .ok (c', label)) : AllEncodable c'.cb ↔ AllEncodable c.cb := by
  cases callee with
  | inl name =>
    cases h
    rfl
  | inr offset =>
    simp only [calleeLabel, bind_ok, return_ok] at h
    obtain ⟨c₁, h₁, h⟩ := h
    cases h
    exact addJumpTarget_encodable h₁

/-- A call. -/
theorem compileCall_encodable {callee : FunctionId} {argc : ℕ} {opt : Option ℤ}
    (h : c.compileCall callee argc opt = .ok c') :
    AllEncodable c'.cb ↔ AllEncodable c.cb ∧ CallFits c.st.top argc opt.toList.length := by
  have htop := (compileCall_ok h).2.1
  have hargc := (compileCall_ok h).1
  obtain ⟨f, moves, st₁, pushes, st₂, c₁, label, -, hplace, hpush, hlabel, rfl⟩ :=
    compileCall_parts h
  have hmoves := placeArgs_encodable hplace
  have hpushes := pushArgs_encodable hpush
  have hle₁ := (placeArgs_ok hplace).2.1
  have hle₂ := (pushArgs_ok hpush).2.1
  have hst₂ : st₂.top = c.st.top - argc := Nat.succ.inj htop
  have hset : AllEncodable (setExtra opt) := by cases opt <;> simp [setExtra]
  have hcode := calleeLabel_encodable hlabel
  simp only [Compiler.finish, Compiler.emit, callBefore, callAfter, allEncodable_append, hcode,
    allEncodable_saveCaller, allEncodable_restoreCaller, hset, hmoves, hpushes,
    SymbolicStack.spilledCount_eq, allEncodable_symbEmitMvFromReg, locFits_loc, allEncodable_ite,
    allEncodable_emitAddi, offsetFits_word, offsetFits_neg_word, emitCall, allEncodable_cons,
    Encodable, allEncodable_nil, hst₂]
  constructor
  · rintro ⟨⟨hcb, ⟨⟨⟨hskip, -⟩, hin⟩, -⟩, hon⟩, -, ⟨⟨hdrop, -⟩, hresult⟩, hunskip⟩
    refine ⟨hcb, hskip, fun k h₁ h₂ => ?_, hdrop, hresult, hunskip⟩
    by_cases hk : st₁.top ≤ k
    · exact hin k hk h₂
    · exact hon k h₁ (by omega)
  · rintro ⟨hcb, hskip, hargs, hdrop, hresult, hunskip⟩
    exact ⟨⟨hcb, ⟨⟨⟨hskip, trivial⟩, fun k h₁ h₂ => hargs k (by omega) h₂⟩, fun _ => trivial⟩,
      fun k h₁ h₂ => hargs k h₁ (by omega)⟩, ⟨trivial, trivial⟩,
      ⟨⟨hdrop, fun _ => trivial⟩, hresult⟩, hunskip⟩

/-! ### Instructions -/

/-- What `i` adds is encodable if it fits. -/
def Instruction.Adds (i : Instruction) (c c' : Compiler) : Prop :=
  AllEncodable c'.cb ↔ AllEncodable c.cb ∧ i.Fits c.st.top c.currentFrame

theorem Instruction.Adds.out (h : i.Adds c c') :
    AllEncodable c'.cb ↔ AllEncodable c.cb ∧ i.Fits c.st.top c.currentFrame := h

theorem emitStoreStack_encodable (h : emitStoreStack c = .ok c') :
    Instruction.storeStack.Adds c c' := by
  simp only [emitStoreStack, bind_ok, return_ok, Prod.exists] at h
  obtain ⟨loc, st, hpop, loc', st', hpop', rfl⟩ := h
  obtain ⟨hpos, rfl, rfl⟩ := SymbolicStack.pop_ok hpop
  obtain ⟨hpos', rfl, rfl⟩ := SymbolicStack.pop_ok hpop'
  have hzero : OffsetFits 0 := offsetFits_of_le (by decide)
  simp [Instruction.Adds, Instruction.Fits, finish, emit, hzero, Nat.sub_sub]

theorem emitJump_encodable {target : ℕ} (h : emitJump c target = .ok c') :
    (Instruction.jump target).Adds c c' := by
  rw [Instruction.Adds, addJumpTarget_encodable h]
  simp [Instruction.Fits, emit, emitJ, Encodable]

theorem emitConditionalJump_encodable {target : ℕ} {zero : Bool}
    (h : emitConditionalJump c target zero = .ok c') :
    (Instruction.conditionalJump target zero).Adds c c' := by
  simp only [emitConditionalJump, bind_ok, Prod.exists] at h
  obtain ⟨loc, st, hpop, h⟩ := h
  obtain ⟨hpos, rfl, rfl⟩ := SymbolicStack.pop_ok hpop
  rw [Instruction.Adds, addJumpTarget_encodable h]
  simp [Instruction.Fits, finish, emit, emitCj, Encodable]

theorem emitSwap_encodable (h : emitSwap c = .ok c') : Instruction.swap.Adds c c' := by
  simp only [emitSwap, bind_ok, return_ok, Prod.exists] at h
  obtain ⟨loc, st, hpop, loc', hpeek, rfl⟩ := h
  obtain ⟨hpos, rfl, rfl⟩ := SymbolicStack.pop_ok hpop
  obtain ⟨hpos', rfl⟩ := SymbolicStack.peek_ok hpeek
  simp only [Instruction.Adds, Instruction.Fits, finish, emit, allEncodable_append,
    allEncodable_symbEmitMv, allEncodable_symbEmitMvToReg, allEncodable_symbEmitMvFromReg,
    locFits_loc, Nat.sub_sub]
  tauto

theorem emitDuplicate_encodable (h : emitDuplicate c = .ok c') :
    Instruction.duplicate.Adds c c' := by
  simp only [emitDuplicate, bind_ok, return_ok] at h
  obtain ⟨src, hpeek, rfl⟩ := h
  obtain ⟨hpos, rfl⟩ := SymbolicStack.peek_ok hpeek
  simp [Instruction.Adds, Instruction.Fits, finish, emit, SymbolicStack.alloc]

theorem emitBinop_encodable {op : BinopKind} (h : emitBinop c op = .ok c') :
    (Instruction.binop op).Adds c c' := by
  simp only [emitBinop, bind_ok, return_ok, Prod.exists] at h
  obtain ⟨loc, st, hpop, loc', st', hpop', rfl⟩ := h
  obtain ⟨hpos, rfl, rfl⟩ := SymbolicStack.pop_ok hpop
  obtain ⟨hpos', rfl, rfl⟩ := SymbolicStack.pop_ok hpop'
  simp only [Instruction.Adds, Instruction.Fits, finish, emit, SymbolicStack.alloc,
    allEncodable_append, allEncodable_symbEmitIType_one, allEncodable_binopLines, locFits_loc,
    Nat.sub_sub]
  tauto

theorem mulInt_ok {x y z : ℤ} (h : mulInt x y = .ok z) : z = x * y := by
  simp only [mulInt, bind_ok, return_ok] at h
  obtain ⟨-, -, rfl⟩ := h
  rfl

theorem emitLoad_encodable {loc : LocationEntry} (h : emitLoad c loc = .ok c') :
    (Instruction.load loc).Adds c c' := by
  obtain ⟨kind, index⟩ := loc
  cases kind with
  | global =>
    simp only [emitLoad, bind_ok, return_ok] at h
    obtain ⟨-, -, off, hoff, rfl⟩ := h
    rw [mulInt_ok hoff]
    simp [Instruction.Adds, Instruction.Fits, LoadFits, finish, emit, SymbolicStack.alloc]
  | localVar =>
    simp only [emitLoad, bind_ok, return_ok] at h
    obtain ⟨-, -, -, -, off, hoff, rfl⟩ := h
    rw [mulInt_ok hoff]
    simp [Instruction.Adds, Instruction.Fits, LoadFits, finish, emit, SymbolicStack.alloc]
  | arg =>
    simp only [emitLoad, bind_ok] at h
    obtain ⟨-, -, -, -, h⟩ := h
    split_ifs at h with hreg
    · simp only [bind_ok, return_ok] at h
      obtain ⟨r, -, rfl⟩ := h
      have hnot : ¬ 8 ≤ index := Int.not_le.2 hreg
      simp [Instruction.Adds, Instruction.Fits, LoadFits, finish, emit, SymbolicStack.alloc, hnot]
    · cases h
      have hstack : 8 ≤ index := Int.not_lt.1 hreg
      simp [Instruction.Adds, Instruction.Fits, LoadFits, finish, emit, SymbolicStack.alloc, hstack]
  | captured => cases h
  | other m hm =>
    cases h
    simp [Instruction.Adds]

theorem emitStore_encodable {loc : LocationEntry} (h : emitStore c loc = .ok c') :
    (Instruction.store loc).Adds c c' := by
  obtain ⟨kind, index⟩ := loc
  simp only [emitStore, bind_ok] at h
  obtain ⟨value, hpeek, h⟩ := h
  obtain ⟨hpos, rfl⟩ := SymbolicStack.peek_ok hpeek
  cases kind with
  | global =>
    simp only [bind_ok, return_ok] at h
    obtain ⟨off, hoff, rfl⟩ := h
    rw [mulInt_ok hoff]
    simp [Instruction.Adds, Instruction.Fits, StoreFits, emit]
  | localVar =>
    simp only [bind_ok, return_ok] at h
    obtain ⟨off, hoff, rfl⟩ := h
    rw [mulInt_ok hoff]
    simp [Instruction.Adds, Instruction.Fits, StoreFits, emit]
  | arg =>
    simp only at h
    split_ifs at h with hreg
    · simp only [bind_ok, return_ok] at h
      obtain ⟨r, -, rfl⟩ := h
      have hnot : ¬ 8 ≤ index := Int.not_le.2 hreg
      simp [Instruction.Adds, Instruction.Fits, StoreFits, emit, hnot]
    · simp only [bind_ok, return_ok] at h
      obtain ⟨off, hoff, rfl⟩ := h
      have hstack : 8 ≤ index := Int.not_lt.1 hreg
      rw [mulInt_ok hoff]
      simp [Instruction.Adds, Instruction.Fits, StoreFits, emit, hstack]
  | captured => cases h
  | other m hm =>
    cases h
    simp [Instruction.Adds]

theorem emitEnd_encodable (h : emitEnd c = .ok c') : Instruction.endInst.Adds c c' := by
  unfold emitEnd at h
  cases hf : c.currentFrame with
  | none => simp [hf] at h
  | some f =>
    simp only [hf, bind_ok, return_ok, Prod.exists] at h
    obtain ⟨loc, st, hpop, rfl⟩ := h
    obtain ⟨hpos, rfl, rfl⟩ := SymbolicStack.pop_ok hpop
    have hmain : AllEncodable (if f.functionName = "main" then postmain else []) := by
      simp [postmain]
    simp [Instruction.Adds, Instruction.Fits, finish, emit, hf, hmain, allEncodable_epilogue, emitRet,
      Encodable]

/-- The prologue, behind the call of `__init` in `main`. -/
theorem enterFrame_encodable {x : Compiler} {name : String} {locc : ℕ}
    (h : ((if name = "main" then (x.emit premain).compileCall (.inl "__init") 0 else .ok x) >>=
      fun y => pure (y.emit (prologue locc))) = .ok c') :
    AllEncodable c'.cb ↔ AllEncodable x.cb ∧
      (name = "main" → CallFits x.st.top 0 0) ∧ FrameFits locc := by
  simp only [bind_ok, return_ok] at h
  obtain ⟨y, hy, rfl⟩ := h
  simp only [emit, allEncodable_append, allEncodable_prologue]
  split_ifs at hy with hmain
  · have hpre : AllEncodable premain := by simp [premain, Encodable]
    rw [compileCall_encodable hy]
    simp [emit, hpre, hmain, and_assoc]
  · cases hy
    simp [hmain]

theorem emitBegin_encodable {id : FunctionId} {argc locc : ℕ}
    (h : emitBegin c id argc locc = .ok c') : AllEncodable c'.cb ↔ AllEncodable c.cb ∧
      (Instruction.label id = "main" → CallFits c.st.top 0 0) ∧ FrameFits locc := by
  cases id with
  | inr offset =>
    refine @enterFrame_encodable c' { c with currentFrame := some ⟨labelForIp offset, locc, argc⟩ }
      (labelForIp offset) locc ?_
    rw [← h]
    simp only [emitBegin, if_neg (labelForIp_ne_main offset)]
    rfl
  | inl name =>
    have hframe := @enterFrame_encodable c'
      { c.emit (emitLabel name) with currentFrame := some ⟨name, locc, argc⟩ } name locc (by
        rw [← h]
        by_cases hm : name = "main"
        · simp only [emitBegin, if_pos hm]
        · simp only [emitBegin, if_neg hm]
          rfl)
    rw [hframe]
    simp [emit, emitLabel, Encodable, Instruction.label]

theorem pushLi_encodable (imm : ℤ) :
    AllEncodable (pushLi c imm).cb ↔ AllEncodable c.cb ∧ SlotFits c.st.top := by
  simp [pushLi, finish, emit, SymbolicStack.alloc]

theorem pushLa_encodable (label : String) :
    AllEncodable (pushLa c label).cb ↔ AllEncodable c.cb ∧ SlotFits c.st.top := by
  simp [pushLa, finish, emit, SymbolicStack.alloc]

/-- **The code of an instruction** is encodable just when the instruction fits. -/
theorem emitCode_encodable (h : i.emitCode c = .ok c') : i.Adds c c' := by
  cases i with
  | const value =>
    cases h
    simp only [Instruction.Adds, Instruction.Fits, finish, emit, allEncodable_append, ← locFits_loc]
    cases SymbolicStack.loc c.st.top <;> simp [LocFits]
  | string ind str =>
    have h := compileCall_encodable (show (pushLa c _).compileCall _ 1 = .ok c' from h)
    rwa [pushLa_encodable, and_assoc] at h
  | sExpression name size =>
    simp only [Instruction.emitCode, emitSExpression, bind_ok] at h
    obtain ⟨hash, -, h⟩ := h
    have h := compileCall_encodable h
    rwa [pushLi_encodable, and_assoc] at h
  | storeStack => exact emitStoreStack_encodable h
  | jump target => exact emitJump_encodable h
  | conditionalJump target zero => exact emitConditionalJump_encodable h
  | drop =>
    simp only [Instruction.emitCode, bind_ok, return_ok, Prod.exists] at h
    obtain ⟨loc, st, hpop, rfl⟩ := h
    simp [Instruction.Adds, Instruction.Fits]
  | duplicate => exact emitDuplicate_encodable h
  | swap => exact emitSwap_encodable h
  | beginInst id argc locc =>
    have h := emitBegin_encodable h
    cases id with
    | inl name => exact h
    | inr offset =>
      simp only [Instruction.label, labelForIp_ne_main, false_implies, true_and] at h
      exact h
  | cBegin offset argc locc =>
    have h : emitBegin c (.inl ("closure@" ++ formatHex10 offset)) argc locc = .ok c' := h
    have h := emitBegin_encodable h
    simp only [Instruction.label, closure_ne_main, false_implies, true_and] at h
    exact h
  | endInst => exact emitEnd_encodable h
  | tag name size =>
    have h : emitTag c name size = .ok c' := h
    simp only [emitTag, bind_ok] at h
    obtain ⟨hash, -, h⟩ := h
    have h := compileCall_encodable h
    rwa [pushLi_encodable, pushLi_encodable, and_assoc, and_assoc] at h
  | fail l col =>
    have h := compileCall_encodable
      (show (pushLi (pushLi (pushLa c _) _) _).compileCall _ 4 = .ok c' from h)
    rwa [pushLi_encodable, pushLi_encodable, pushLa_encodable, and_assoc, and_assoc, and_assoc] at h
  | line l =>
    cases h
    simp [Instruction.Adds, Instruction.Fits, emit, emitComment, Encodable]
  | binop op => exact emitBinop_encodable h
  | load loc => exact emitLoad_encodable h
  | store loc => exact emitStore_encodable h
  | storeArray | elem | call _ _ | builtinRead | builtinWrite | builtinLength | builtinString
  | builtinArray _ => exact compileCall_encodable h
  | _ => cases h

end Calls

/-! ### Runs -/

section Runs

variable {m : Module} {log : List Emission} {es : List (ℕ × Instruction)} {c : Compiler}

/-- An instruction fits where it was emitted. -/
def Emission.Fits (e : Emission) : Prop := e.inst.Fits e.before.st.top e.before.currentFrame

theorem openInst_encodable {c₁ : Compiler} {o : ℕ} {i : Instruction} (h : openInst c o i = .ok c₁) :
    AllEncodable c₁.cb ↔ AllEncodable c.cb := by
  rcases (openInst_ok h).done with ⟨-, -, x, hx⟩ | ⟨-, -, x, y, hx⟩
  · simp [hx, Encodable]
  · simp [hx, Encodable]

theorem addPublics_encodable {publics : List (String × ℕ)} {c' : Compiler}
    (h : publics.foldlM (fun c s => c.addJumpTarget s.2 0) c = .ok c') :
    AllEncodable c'.cb ↔ AllEncodable c.cb := by
  induction publics generalizing c with
  | nil =>
    cases h
    rfl
  | cons s publics ih =>
    simp only [List.foldlM_cons, bind_ok] at h
    obtain ⟨c₁, h₁, h⟩ := h
    exact (ih h).trans (addJumpTarget_encodable h₁)

theorem start_encodable (h : start m = .ok c) : AllEncodable c.cb := by
  simp only [start, bind_ok, check_ok] at h
  obtain ⟨-, -, h⟩ := h
  rw [addPublics_encodable h]
  simp [header, emit, allEncodable_flatMap, Encodable]

/-- The text of a run is encodable just when all instructions emitted so far fit. -/
theorem Run.encodable_iff (h : Run m log es c) : AllEncodable c.cb ↔ ∀ e ∈ log, e.Fits := by
  induction h with
  | start h => simp [start_encodable h]
  | stale _ _ _ ih => exact ih
  | take _ _ _ ih => exact ih
  | last _ hopen hcode _ ih =>
    simp only [emit, allEncodable_append]
    rw [(emitCode_encodable hcode).out, openInst_encodable hopen, ih, List.forall_mem_cons]
    simp [emitComment, Encodable, Emission.Fits, and_comm]
  | next _ hopen hcode _ ih =>
    rw [(emitCode_encodable hcode).out, openInst_encodable hopen, ih, List.forall_mem_cons]
    exact and_comm

/-- **Immediates.**  When the worklist ends without a failed check: the immediates of the output are
encodable just when every instruction fits, at the height and in the frame with which it was emitted. -/
theorem immediates_encodable_iff (h : Completes m log c) :
    (∀ l ∈ c.cb, Encodable l) ↔
      ∀ e ∈ log, e.inst.Fits e.before.st.top e.before.currentFrame :=
  h.1.encodable_iff

end Runs

/-! ### Two programs -/

theorem immediates_encodable_iff_loopAndCall : ∃ log c, Completes loopAndCall log c ∧
    ((∀ l ∈ c.cb, Encodable l) ↔
      ∀ e ∈ log, e.inst.Fits e.before.st.top e.before.currentFrame) := by
  obtain ⟨c, hc⟩ := loopAndCall_emits
  obtain ⟨log, hlog⟩ := emits_iff.1 hc
  exact ⟨log, c, hlog, immediates_encodable_iff hlog⟩

/-- A function with many local variables. -/
def manyLocals : Module where
  filename := "locals.bc"
  instructions := ⟨[(0, .beginInst (.inl "f") 0 245), (9, .const 1), (14, .endInst)], by decide⟩
  strings := []
  globalAreaSize := 0
  publicSymbols := [("f", 0)]

/-- The prologue moves `sp` by more than an immediate can hold. -/
theorem manyLocals_not_encodable : ∃ c, Emits manyLocals c ∧ ¬ ∀ l ∈ c.cb, Encodable l := by
  refine ⟨_, ⟨⟨_, rfl, .single (@Round.chunk _ _ 0 0 _ rfl rfl rfl)⟩, rfl⟩, fun h => ?_⟩
  have hline := h (.op (.itype .addi 2 2 (toInt (-((245 : ℕ) + 12) * wordSize))))
    (List.mem_of_getElem? (i := 28) rfl)
  have hint := toInt_of_mem (x := -((245 : ℕ) + 12) * wordSize) (by decide) (by decide)
  simp only [Encodable, hint] at hline
  exact absurd hline (by decide)

end LamaRv
