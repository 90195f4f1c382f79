import LamaRv.Compiler.CallExec

/-!
# Symbolic locations as storage

A symbolic location is a place that can be read and written: a register, or a word below `sp`.
The methods `symb_emit_*` are meant to be operations on such places.  Here each of them is
compared with its operation: the code has to change the memory and the registers as the operation
does, but for the two temporaries.

* `Loc.read`, `Loc.write`: the places;
* `SymbEmit`: the methods with their operands; `lines`: their code; `apply`: their operation;
* `Refines`: the code does what the operation does, in every state;
* `refines_iff`: when it does.
-/

namespace LamaRv

open ByteMemory Rv64 CodeBuffer Compiler

/-! ### Places -/

namespace Loc

/-- A register that has no other use, or a spilled word whose offset is an `int`. -/
def Proper : Loc → Prop
  | .register r => r ≠ 0 ∧ r ≠ Register.sp ∧ r ≠ Register.temp1 ∧ r ≠ Register.temp2
  | .memory k => k < 2 ^ 28

def read (s : State) : Loc → Word
  | .register r => s.get r
  | .memory k => s.load (below (s.get Register.sp) k)

def write (s : State) (v : Word) : Loc → State
  | .register r => s.set r v
  | .memory k => s.store (below (s.get Register.sp) k) v

variable {l l' : Loc}

theorem get_sp_write (h : l.Proper) (s : State) (v : Word) :
    (l.write s v).get Register.sp = s.get Register.sp := by
  cases l with
  | register r => exact State.get_set_of_ne _ _ h.2.1.symm
  | memory k => rfl

@[simp] theorem read_write_self (h : l.Proper) (s : State) (v : Word) : l.read (l.write s v) = v := by
  cases l with
  | register r => exact State.get_set_self _ _ h.1
  | memory k => exact State.load_store_self _ _ _

/-- A place keeps its value when another one is written. -/
theorem read_write_of_ne (h : l.Proper) (h' : l'.Proper) (hne : l ≠ l') (s : State) (v : Word) :
    l.read (l'.write s v) = l.read s := by
  cases l with
  | register r =>
    cases l' with
    | register r' => exact State.get_set_of_ne _ _ fun heq => hne (by rw [heq])
    | memory k' => rfl
  | memory k =>
    rw [read, get_sp_write h', read]
    cases l' with
    | register r' => exact State.load_set _ _ _ _
    | memory k' =>
      have hkk : k' ≠ k := fun heq => hne (by rw [heq])
      exact State.load_store_of_apart _ _
        (below_apart _ hkk (lt_trans h' (by decide)) (lt_trans h (by decide)))

/-- Writing the value that is there already. -/
theorem write_read (l : Loc) (s : State) : l.write s (l.read s) = s := by
  cases l with
  | register r => exact State.set_get s r
  | memory k =>
    rw [write, read, State.load, State.store, store_load]

theorem exists_read_eq (h : l.Proper) (x : Word) : ∃ s : State, l.read s = x :=
  ⟨_, read_write_self h ⟨fun _ => 0, fun _ => 0⟩ x⟩

/-- Two places can hold any two words, whatever `sp` is. -/
theorem exists_read (h : l.Proper) (h' : l'.Proper) (hne : l ≠ l') (sp x y : Word) :
    ∃ s : State, s.get Register.sp = sp ∧ l.read s = x ∧ l'.read s = y := by
  refine ⟨l'.write (l.write ⟨fun _ => sp, fun _ => 0⟩ x) y, ?_, ?_, read_write_self h' _ _⟩
  · rw [get_sp_write h', get_sp_write h]
    rfl
  · rw [read_write_of_ne h h' hne, read_write_self h]

/-- A word far away from the spilled words. -/
theorem apart_far {j : ℕ} (h : j < 2 ^ 28) :
    Apart (BitVec.ofNat 64 (2 ^ 40)) (below (BitVec.ofNat 64 (2 ^ 50)) j) := by
  unfold below
  constructor <;> bv_omega

end Loc

/-! ### The methods -/

/-- A call of a method `symb_emit_*`. -/
inductive SymbEmit
  | rType (insn : RType) (dst src1 src2 : Loc)
  | iType (insn : IType) (dst src : Loc) (imm : ℤ)
  | pseudoType (insn : Pseudo) (dst src : Loc)
  | li (dst : Loc) (imm : ℤ)
  | la (dst : Loc) (label : String)
  | ld (dst base : Loc) (off : ℤ)
  | sd (src base : Loc) (off : ℤ)
  | mvToReg (dst : Reg) (src : Loc)
  | mvFromReg (dst : Loc) (src : Reg)
  | mv (dst src : Loc)
  | eq (dst src1 src2 : Loc)
  | neq (dst src1 src2 : Loc)
  | sle (dst src1 src2 : Loc)
  | sge (dst src1 src2 : Loc)

namespace SymbEmit

/-- The code. -/
def lines : SymbEmit → List Line
  | rType insn dst src1 src2 => symbEmitRType insn dst src1 src2
  | iType insn dst src imm => symbEmitIType insn dst src imm
  | pseudoType insn dst src => symbEmitPseudoType insn dst src
  | li dst imm => symbEmitLi dst imm
  | la dst label => symbEmitLa dst label
  | ld dst base off => symbEmitLd dst base off
  | sd src base off => symbEmitSd src base off
  | mvToReg dst src => symbEmitMvToReg dst src
  | mvFromReg dst src => symbEmitMvFromReg dst src
  | mv dst src => symbEmitMv dst src
  | eq dst src1 src2 => symbEmitEq dst src1 src2
  | neq dst src1 src2 => symbEmitNeq dst src1 src2
  | sle dst src1 src2 => symbEmitSle dst src1 src2
  | sge dst src1 src2 => symbEmitSge dst src1 src2

/-- The operation: the result goes to the place `dst`, or to the addressed word. -/
def apply (sym : String → Word) (s : State) : SymbEmit → State
  | rType insn dst src1 src2 => dst.write s (insn.eval (src1.read s) (src2.read s))
  | iType insn dst src imm => dst.write s (insn.eval (src.read s) (toInt imm))
  | pseudoType insn dst src => dst.write s (insn.eval (src.read s))
  | li dst imm => dst.write s (BitVec.ofInt 64 (toInt imm))
  | la dst label => dst.write s (sym label)
  | ld dst base off => dst.write s (s.load (base.read s + BitVec.ofInt 64 (toInt off)))
  | sd src base off => s.store (base.read s + BitVec.ofInt 64 (toInt off)) (src.read s)
  | mvToReg dst src => s.set dst (src.read s)
  | mvFromReg dst src => dst.write s (s.get src)
  | mv dst src => dst.write s (src.read s)
  | eq dst src1 src2 => dst.write s (ofBool (src1.read s == src2.read s))
  | neq dst src1 src2 => dst.write s (ofBool (src1.read s != src2.read s))
  | sle dst src1 src2 => dst.write s (ofBool ((src1.read s).sle (src2.read s)))
  | sge dst src1 src2 => dst.write s (ofBool ((src2.read s).sle (src1.read s)))

/-- The places of a call. -/
def places : SymbEmit → List Loc
  | rType _ dst src1 src2 | eq dst src1 src2 | neq dst src1 src2 | sle dst src1 src2
  | sge dst src1 src2 => [dst, src1, src2]
  | iType _ dst src _ | pseudoType _ dst src | mv dst src => [dst, src]
  | li dst _ | la dst _ | mvFromReg dst _ => [dst]
  | ld dst base _ => [dst, base]
  | sd src base _ => [src, base]
  | mvToReg _ src => [src]

end SymbEmit

/-- Two states are equal but for the temporaries. -/
structure EqualButTemps (s t : State) : Prop where
  mem : s.mem = t.mem
  regs : ∀ r, r ≠ Register.temp1 → r ≠ Register.temp2 → s.get r = t.get r

/-- The code changes a state as the operation does.  (A register given as such may be a temporary;
it gets the result nevertheless.) -/
def SymbEmit.Refines (e : SymbEmit) : Prop :=
  ∀ (sym : String → Word) (s : State),
    EqualButTemps (execLines sym e.lines s) (e.apply sym s) ∧
    ∀ dst src, e = .mvToReg dst src → (execLines sym e.lines s).get dst = (e.apply sym s).get dst

namespace EqualButTemps

variable {s t : State}

theorem trans {u : State} (h : EqualButTemps s t) (h' : EqualButTemps t u) : EqualButTemps s u :=
  ⟨h.mem.trans h'.mem, fun r h1 h2 => (h.regs r h1 h2).trans (h'.regs r h1 h2)⟩

theorem set (h : EqualButTemps s t) (r : Reg) (v : Word) : EqualButTemps (s.set r v) (t.set r v) := by
  refine ⟨by rw [State.mem_set, State.mem_set, h.mem], fun q h1 h2 => ?_⟩
  by_cases hq : q = r
  · subst hq
    by_cases h0 : q = 0
    · rw [h0, State.get_zero, State.get_zero]
    · rw [State.get_set_self _ _ h0, State.get_set_self _ _ h0]
  · rw [State.get_set_of_ne _ _ hq, State.get_set_of_ne _ _ hq, h.regs q h1 h2]

theorem store (h : EqualButTemps s t) (a v : Word) : EqualButTemps (s.store a v) (t.store a v) :=
  ⟨by rw [State.mem_store, State.mem_store, h.mem], h.regs⟩

theorem read (h : EqualButTemps s t) {l : Loc} (hl : l.Proper) : l.read s = l.read t := by
  cases l with
  | register r => exact h.regs r hl.2.2.1 hl.2.2.2
  | memory k =>
    rw [Loc.read, Loc.read, State.load, State.load, h.mem, h.regs _ (by decide) (by decide)]

theorem write (h : EqualButTemps s t) (l : Loc) (v : Word) :
    EqualButTemps (l.write s v) (l.write t v) := by
  cases l with
  | register r => exact h.set r v
  | memory k =>
    rw [Loc.write, Loc.write, h.regs _ (by decide) (by decide)]
    exact h.store _ v

end EqualButTemps

variable (sym : String → Word) (s : State) {l a b : Loc}

/-! ### Loading the operands -/

theorem value_eq_read (h : l.Proper) : l.value s = l.read s := by
  cases l with
  | register r => rfl
  | memory k => rw [Loc.value, Loc.read, add_toInt_neg _ h]

theorem equal_load (l : Loc) {t : Reg} (ht : t = Register.temp1 ∨ t = Register.temp2) :
    EqualButTemps (execLines sym (toReg l t).1 s) s := by
  have ht0 : t ≠ 0 := by rcases ht with rfl | rfl <;> decide
  obtain ⟨hmem, hregs, -⟩ := exec_toReg sym l ht0 s
  refine ⟨hmem, fun r h1 h2 => hregs r ?_⟩
  rcases ht with rfl | rfl
  · exact h1
  · exact h2

/-- A place is loaded into a temporary, or is a register already. -/
theorem exec_toReg_read (h : l.Proper) {t : Reg} (ht : t = Register.temp1 ∨ t = Register.temp2) :
    EqualButTemps (execLines sym (toReg l t).1 s) s ∧
    (∀ r ≠ t, (execLines sym (toReg l t).1 s).get r = s.get r) ∧
    (execLines sym (toReg l t).1 s).get (toReg l t).2 = l.read s := by
  have ht0 : t ≠ 0 := by rcases ht with rfl | rfl <;> decide
  obtain ⟨-, hregs, hval⟩ := exec_toReg sym l ht0 s
  exact ⟨equal_load sym s l ht, hregs, hval.trans (value_eq_read s h)⟩

/-- Both operands are loaded; the second load does not disturb the first. -/
theorem exec_toReg_reads (ha : a.Proper) (hb : b.Proper) :
    EqualButTemps (execLines sym (toReg b Register.temp2).1
      (execLines sym (toReg a Register.temp1).1 s)) s ∧
    (execLines sym (toReg b Register.temp2).1 (execLines sym (toReg a Register.temp1).1 s)).get
      (toReg a Register.temp1).2 = a.read s ∧
    (execLines sym (toReg b Register.temp2).1 (execLines sym (toReg a Register.temp1).1 s)).get
      (toReg b Register.temp2).2 = b.read s := by
  obtain ⟨hsame, -, hval⟩ := exec_toReg_read sym s ha (Or.inl rfl)
  obtain ⟨hsame', hother', hval'⟩ := exec_toReg_read sym
    (execLines sym (toReg a Register.temp1).1 s) hb (Or.inr rfl)
  have hne : (toReg a Register.temp1).2 ≠ Register.temp2 := by
    cases a with
    | register r => exact ha.2.2.2
    | memory k => exact show Register.temp1 ≠ Register.temp2 by decide
  refine ⟨hsame'.trans hsame, ?_, ?_⟩
  · rw [hother' _ hne, hval]
  · rw [hval', hsame.read hb]

/-! ### Results in a register -/

section Register

variable {d : Reg}

theorem rType_register (insn : RType) (ha : a.Proper) (hb : b.Proper) :
    EqualButTemps (execLines sym (symbEmitRType insn (.register d) a b) s)
      (s.set d (insn.eval (a.read s) (b.read s))) := by
  obtain ⟨hsame, hval1, hval2⟩ := exec_toReg_reads sym s ha hb
  have hexec : execLines sym (symbEmitRType insn (.register d) a b) s =
      (execLines sym (toReg b Register.temp2).1 (execLines sym (toReg a Register.temp1).1 s)).set d
        (insn.eval (a.read s) (b.read s)) := by
    rw [← hval1, ← hval2, symbEmitRType, execLines_append, execLines_append]
    rfl
  rw [hexec]
  exact hsame.set d _

theorem iType_register (insn : IType) (ha : a.Proper) (imm : ℤ) :
    EqualButTemps (execLines sym (symbEmitIType insn (.register d) a imm) s)
      (s.set d (insn.eval (a.read s) (toInt imm))) := by
  obtain ⟨hsame, -, hval⟩ := exec_toReg_read sym s ha (Or.inr rfl)
  have hexec : execLines sym (symbEmitIType insn (.register d) a imm) s =
      (execLines sym (toReg a Register.temp2).1 s).set d (insn.eval (a.read s) (toInt imm)) := by
    rw [← hval, symbEmitIType, execLines_append]
    rfl
  rw [hexec]
  exact hsame.set d _

theorem pseudoType_register (insn : Pseudo) (ha : a.Proper) :
    EqualButTemps (execLines sym (symbEmitPseudoType insn (.register d) a) s)
      (s.set d (insn.eval (a.read s))) := by
  obtain ⟨hsame, -, hval⟩ := exec_toReg_read sym s ha (Or.inr rfl)
  have hexec : execLines sym (symbEmitPseudoType insn (.register d) a) s =
      (execLines sym (toReg a Register.temp2).1 s).set d (insn.eval (a.read s)) := by
    rw [← hval, symbEmitPseudoType, execLines_append]
    rfl
  rw [hexec]
  exact hsame.set d _

theorem ld_register (ha : a.Proper) (off : ℤ) :
    EqualButTemps (execLines sym (symbEmitLd (.register d) a off) s)
      (s.set d (s.load (a.read s + BitVec.ofInt 64 (toInt off)))) := by
  obtain ⟨hsame, -, hval⟩ := exec_toReg_read sym s ha (Or.inr rfl)
  have hexec : execLines sym (symbEmitLd (.register d) a off) s =
      (execLines sym (toReg a Register.temp2).1 s).set d
        (s.load (a.read s + BitVec.ofInt 64 (toInt off))) := by
    rw [← hval, State.load, ← hsame.mem, symbEmitLd, execLines_append]
    rfl
  rw [hexec]
  exact hsame.set d _

theorem mv_register (ha : a.Proper) :
    EqualButTemps (execLines sym (symbEmitMv (.register d) a) s) (s.set d (a.read s)) := by
  obtain ⟨hsame, -, hval⟩ := exec_toReg_read sym s ha (Or.inl rfl)
  have hexec : execLines sym (symbEmitMv (.register d) a) s =
      (execLines sym (toReg a Register.temp1).1 s).set d (a.read s) := by
    rw [← hval, symbEmitMv, execLines_append, execLines_append]
    rfl
  rw [hexec]
  exact hsame.set d _

/-- A move to a register gives it the value, also when it is a temporary. -/
theorem exec_mvToReg (ha : a.Proper) (d : Reg) : ∃ u, EqualButTemps u s ∧
    execLines sym (symbEmitMvToReg d a) s = u.set d (a.read s) := by
  obtain ⟨hsame, -, hval⟩ := exec_toReg_read sym s ha (Or.inr rfl)
  refine ⟨_, hsame, ?_⟩
  rw [← hval, symbEmitMvToReg, execLines_append]
  rfl

theorem exec_sd (ha : a.Proper) (hb : b.Proper) (off : ℤ) :
    EqualButTemps (execLines sym (symbEmitSd a b off) s)
      (s.store (b.read s + BitVec.ofInt 64 (toInt off)) (a.read s)) := by
  obtain ⟨hsame, hval1, hval2⟩ := exec_toReg_reads sym s ha hb
  have hexec : execLines sym (symbEmitSd a b off) s =
      (execLines sym (toReg b Register.temp2).1 (execLines sym (toReg a Register.temp1).1 s)).store
        (b.read s + BitVec.ofInt 64 (toInt off)) (a.read s) := by
    rw [← hval1, ← hval2, symbEmitSd, execLines_append, execLines_append]
    rfl
  rw [hexec]
  exact hsame.store _ _

/-- A three-register operation followed by one on its result. -/
theorem two_steps (hd : d ≠ 0) {T T' : List Line} {x y : Word}
    (h : EqualButTemps (execLines sym T s) (s.set d x))
    (h' : ∀ u, u.get d = x → EqualButTemps (execLines sym T' u) (u.set d y))
    (hd1 : d ≠ Register.temp1) (hd2 : d ≠ Register.temp2) :
    EqualButTemps (execLines sym (T ++ T') s) (s.set d y) := by
  have hx : (execLines sym T s).get d = x := by
    rw [h.regs d hd1 hd2, State.get_set_self _ _ hd]
  have hset := (h' _ hx).trans (h.set d y)
  rwa [State.set_set, ← execLines_append] at hset

end Register

/-! ### Results in memory -/

section Memory

variable {k : ℕ}

theorem EqualButTemps.refl : EqualButTemps s s := ⟨rfl, fun _ _ _ => rfl⟩

theorem EqualButTemps.read_of_write {s t : State} {v : Word} (h : EqualButTemps t (l.write s v))
    (hl : l.Proper) : l.read t = v :=
  (h.read hl).trans (Loc.read_write_self hl s v)

theorem equal_set_temp1 (v : Word) : EqualButTemps (s.set Register.temp1 v) s :=
  ⟨State.mem_set _ _ _, fun _ h1 _ => State.get_set_of_ne _ _ h1⟩

theorem equal_set_temp2 (v : Word) : EqualButTemps (s.set Register.temp2 v) s :=
  ⟨State.mem_set _ _ _, fun _ _ h2 => State.get_set_of_ne _ _ h2⟩

/-- The three-register method leaves the result in the register of the first operand as well. -/
theorem exec_rType_memory (insn : RType) (hk : (Loc.memory k).Proper) (ha : a.Proper) (hb : b.Proper)
    {v : Word} (hv : insn.eval (a.read s) (b.read s) = v) :
    ∃ u, EqualButTemps u s ∧ execLines sym (symbEmitRType insn (.memory k) a b) s =
      (Loc.memory k).write (u.set (toReg a Register.temp1).2 v) v := by
  obtain ⟨hsame, hval1, hval2⟩ := exec_toReg_reads sym s ha hb
  refine ⟨_, hsame, ?_⟩
  obtain ⟨h0, hsp⟩ : (toReg a Register.temp1).2 ≠ 0 ∧ (toReg a Register.temp1).2 ≠ Register.sp := by
    cases a with
    | register r => exact ⟨ha.1, ha.2.1⟩
    | memory j =>
      exact show Register.temp1 ≠ 0 ∧ Register.temp1 ≠ Register.sp by decide
  simp only [symbEmitRType, execLines_append, emitRType, emitSd, execLines_cons, execLines_nil,
    Line.exec_op, Op.exec, hval1, hval2, hv, Loc.write]
  rw [State.get_set_of_ne _ _ hsp.symm, State.get_set_self _ _ h0, add_toInt_neg _ hk]

/-- A first operand in memory is loaded into a temporary, so nothing else is disturbed. -/
theorem rType_memory (insn : RType) (hk : (Loc.memory k).Proper) (ha : a.Proper) (hb : b.Proper) {j : ℕ}
    (hj : a = .memory j) {v : Word} (hv : insn.eval (a.read s) (b.read s) = v) :
    EqualButTemps (execLines sym (symbEmitRType insn (.memory k) a b) s)
      ((Loc.memory k).write s v) := by
  obtain ⟨u, hsame, hexec⟩ := exec_rType_memory sym s insn hk ha hb hv
  rw [hexec, hj]
  exact ((equal_set_temp1 u v).trans hsame).write _ v

/-- The result is in its place, also after lines that change only temporaries. -/
theorem read_rType_memory (insn : RType) (hk : (Loc.memory k).Proper) (ha : a.Proper) (hb : b.Proper)
    {T : List Line} (hT : ∀ u, EqualButTemps (execLines sym T u) u) :
    (Loc.memory k).read (execLines sym (symbEmitRType insn (.memory k) a b ++ T) s) =
      insn.eval (a.read s) (b.read s) := by
  obtain ⟨u, -, hexec⟩ := exec_rType_memory sym s insn hk ha hb rfl
  rw [execLines_append, (hT _).read hk, hexec, Loc.read_write_self hk]

/-- The register of a first operand gets the result. -/
theorem get_rType_memory (insn : RType) (hk : (Loc.memory k).Proper) {r : Reg} (hr : (Loc.register r).Proper)
    (hb : b.Proper) {T : List Line} (hT : ∀ u, EqualButTemps (execLines sym T u) u) :
    (execLines sym (symbEmitRType insn (.memory k) (.register r) b ++ T) s).get r =
      insn.eval (s.get r) (b.read s) := by
  obtain ⟨u, -, hexec⟩ := exec_rType_memory sym s insn hk hr hb rfl
  rw [execLines_append, (hT _).regs r hr.2.2.1 hr.2.2.2, hexec]
  exact State.get_set_self _ _ hr.1

/-! The other methods load the old value of a place in memory and put the result into the
temporary that holds it. -/

theorem iType_memory (insn : IType) (a : Loc) (imm : ℤ) :
    EqualButTemps (execLines sym (symbEmitIType insn (.memory k) a imm) s) s := by
  rw [symbEmitIType, execLines_append, execLines_append]
  exact (equal_set_temp1 _ _).trans ((equal_load _ _ a (Or.inr rfl)).trans (equal_load _ _ _ (Or.inl rfl)))

theorem pseudoType_memory (insn : Pseudo) (a : Loc) :
    EqualButTemps (execLines sym (symbEmitPseudoType insn (.memory k) a) s) s := by
  rw [symbEmitPseudoType, execLines_append, execLines_append]
  exact (equal_set_temp1 _ _).trans ((equal_load _ _ a (Or.inr rfl)).trans (equal_load _ _ _ (Or.inl rfl)))

theorem ld_memory (a : Loc) (off : ℤ) :
    EqualButTemps (execLines sym (symbEmitLd (.memory k) a off) s) s := by
  rw [symbEmitLd, execLines_append, execLines_append]
  exact (equal_set_temp1 _ _).trans ((equal_load _ _ a (Or.inr rfl)).trans (equal_load _ _ _ (Or.inl rfl)))

theorem li_memory (imm : ℤ) : EqualButTemps (execLines sym (symbEmitLi (.memory k) imm) s) s := by
  rw [symbEmitLi, execLines_append]
  exact (equal_set_temp1 _ _).trans (equal_load _ _ _ (Or.inl rfl))

theorem la_memory (label : String) :
    EqualButTemps (execLines sym (symbEmitLa (.memory k) label) s) s := by
  rw [symbEmitLa, execLines_append]
  exact (equal_set_temp1 _ _).trans (equal_load _ _ _ (Or.inl rfl))

theorem mvFromReg_memory (r : Reg) :
    EqualButTemps (execLines sym (symbEmitMvFromReg (.memory k) r) s) s := by
  rw [symbEmitMvFromReg, execLines_append]
  exact (equal_set_temp2 _ _).trans (equal_load _ _ _ (Or.inr rfl))

theorem mv_memory (a : Loc) : EqualButTemps (execLines sym (symbEmitMv (.memory k) a) s) s := by
  rw [symbEmitMv, execLines_append, execLines_append]
  exact (equal_set_temp2 _ _).trans ((equal_load _ _ _ (Or.inr rfl)).trans (equal_load _ _ a (Or.inl rfl)))

end Memory

/-! ### The exact condition -/

def Loc.InRegister (l : Loc) : Prop := ∃ r, l = .register r

def Loc.InMemory (l : Loc) : Prop := ∃ k, l = .memory k

/-- When the code is right: the result goes to a register, with few exceptions. -/
def SymbEmit.Sound : SymbEmit → Prop
  | rType insn dst src1 src2 =>
      dst.InRegister ∨ src1.InMemory ∨ src1 = src2 ∧ (insn = .and ∨ insn = .or)
  | iType insn dst src imm => dst.InRegister ∨ dst = src ∧ ∀ x, insn.eval x (toInt imm) = x
  | neq dst src1 src2 => dst.InRegister ∨ src1 = src2 ∧ src1.InMemory
  | mv dst src => dst.InRegister ∨ dst = src
  | pseudoType _ dst _ | li dst _ | la dst _ | ld dst _ _ | mvFromReg dst _ | eq dst _ _
  | sle dst _ _ | sge dst _ _ => dst.InRegister
  | sd _ _ _ | mvToReg _ _ => True

namespace SymbEmit

variable {e : SymbEmit} {dst : Loc}

theorem refines_of_equal (h : ∀ sym s, EqualButTemps (execLines sym e.lines s) (e.apply sym s))
    (hne : ∀ d src, e ≠ .mvToReg d src) : e.Refines :=
  fun sym s => ⟨h sym s, fun d src heq => absurd heq (hne d src)⟩

/-- Code that changes only temporaries does not write its result. -/
theorem not_refines_of_unchanged (hdst : dst.Proper) {v : Word}
    (hlines : EqualButTemps (execLines sym e.lines s) s) (happly : e.apply sym s = dst.write s v)
    (hne : v ≠ dst.read s) : ¬ e.Refines := by
  intro h
  have hsame := (h sym s).1
  rw [happly] at hsame
  exact hne ((hsame.read_of_write hdst).symm.trans (hlines.read hdst))

/-- The result of a register instruction is always its first operand. -/
theorem keeps_first_iff {insn : RType} {r : Reg} (ha : (Loc.register r).Proper) (hb : b.Proper) :
    (∀ s : State, insn.eval (s.get r) (b.read s) = s.get r) ↔
      Loc.register r = b ∧ (insn = .and ∨ insn = .or) := by
  constructor
  · intro hall
    have hrb : Loc.register r = b := by
      by_contra hne
      obtain ⟨s, -, h1, h2⟩ := Loc.exists_read ha hb hne 0 5 2
      have hs := hall s
      rw [h2, show s.get r = 5 from h1] at hs
      revert hs
      cases insn <;> decide
    subst hrb
    obtain ⟨s, h2⟩ := Loc.exists_read_eq ha 2
    have hs := hall s
    rw [h2, show s.get r = 2 from h2] at hs
    refine ⟨rfl, ?_⟩
    cases insn <;> first | exact Or.inl rfl | exact Or.inr rfl | exact absurd hs (by decide)
  · rintro ⟨rfl, rfl | rfl⟩ s
    · exact BitVec.and_self
    · exact BitVec.or_self

theorem rType_iff {insn : RType} (hd : dst.Proper) (ha : a.Proper) (hb : b.Proper) :
    (rType insn dst a b).Refines ↔ (rType insn dst a b).Sound := by
  cases dst with
  | register d =>
    refine iff_of_true (refines_of_equal (fun sym s => ?_) (by simp)) (Or.inl ⟨d, rfl⟩)
    exact rType_register sym s insn ha hb
  | memory k =>
    cases a with
    | memory j =>
      refine iff_of_true (refines_of_equal (fun sym s => ?_) (by simp)) (Or.inr (Or.inl ⟨j, rfl⟩))
      exact rType_memory sym s insn hd ha hb rfl rfl
    | register r =>
      have hsound : (rType insn (.memory k) (.register r) b).Sound ↔
          Loc.register r = b ∧ (insn = .and ∨ insn = .or) := by
        constructor
        · rintro (⟨d, hd⟩ | ⟨j, hj⟩ | h)
          · cases hd
          · cases hj
          · exact h
        · exact fun h => Or.inr (Or.inr h)
      rw [hsound, ← keeps_first_iff ha hb]
      constructor
      · intro h s
        have hget := (h (fun _ => 0) s).1.regs r ha.2.2.1 ha.2.2.2
        have hcode := @get_rType_memory (fun _ => 0) s b k insn hd r ha hb [] EqualButTemps.refl
        rw [List.append_nil] at hcode
        exact hcode.symm.trans hget
      · intro hall
        refine refines_of_equal (fun sym s => ?_) (by simp)
        obtain ⟨u, hsame, hexec⟩ := exec_rType_memory sym s insn hd ha hb (hall s)
        have hu : u.set r (s.get r) = u := by
          rw [← hsame.regs r ha.2.2.1 ha.2.2.2, State.set_get]
        show EqualButTemps (execLines sym (symbEmitRType insn (.memory k) (.register r) b) s)
          ((Loc.memory k).write s (insn.eval (s.get r) (b.read s)))
        rw [hexec, hall s]
        exact (hu.symm ▸ hsame : EqualButTemps (u.set r (s.get r)) s).write _ _

theorem iType_iff {insn : IType} {imm : ℤ} (hd : dst.Proper) (ha : a.Proper) :
    (iType insn dst a imm).Refines ↔ (iType insn dst a imm).Sound := by
  cases dst with
  | register d =>
    refine iff_of_true (refines_of_equal (fun sym s => ?_) (by simp)) (Or.inl ⟨d, rfl⟩)
    exact iType_register sym s insn ha imm
  | memory k =>
    constructor
    · intro h
      refine Or.inr ?_
      by_cases hda : Loc.memory k = a
      · subst hda
        refine ⟨rfl, fun x => ?_⟩
        by_contra hx
        obtain ⟨s, hs⟩ := Loc.exists_read_eq hd x
        refine not_refines_of_unchanged (fun _ => 0) s hd (iType_memory _ s insn (.memory k) imm) rfl
          ?_ h
        rwa [hs]
      · exfalso
        obtain ⟨s, -, h1, h2⟩ := Loc.exists_read hd ha hda 0 (insn.eval 0 (toInt imm) + 1) 0
        refine not_refines_of_unchanged (fun _ => 0) s hd (iType_memory _ _ insn _ imm) rfl ?_ h
        rw [h1, h2]
        bv_omega
    · rintro (⟨d, hd⟩ | ⟨rfl, hid⟩)
      · cases hd
      · refine refines_of_equal (fun sym s => ?_) (by simp)
        have happly : (iType insn (.memory k) (.memory k) imm).apply sym s = s := by
          rw [apply, hid, Loc.write_read]
        rw [happly]
        exact iType_memory sym s insn (.memory k) imm

theorem mv_iff (hd : dst.Proper) (ha : a.Proper) : (mv dst a).Refines ↔ (mv dst a).Sound := by
  cases dst with
  | register d =>
    refine iff_of_true (refines_of_equal (fun sym s => ?_) (by simp)) (Or.inl ⟨d, rfl⟩)
    exact mv_register sym s ha
  | memory k =>
    constructor
    · intro h
      refine Or.inr ?_
      by_contra hda
      obtain ⟨s, -, h1, h2⟩ := Loc.exists_read hd ha hda 0 1 0
      refine not_refines_of_unchanged (fun _ => 0) s hd (mv_memory _ _ _) rfl ?_ h
      rw [h1, h2]
      decide
    · rintro (⟨d, hd⟩ | rfl)
      · cases hd
      · refine refines_of_equal (fun sym s => ?_) (by simp)
        have happly : (mv (.memory k) (.memory k)).apply sym s = s := by
          rw [apply, Loc.write_read]
        rw [happly]
        exact mv_memory sym s (.memory k)

/-- A word loaded through a place can differ from the word of a spilled slot. -/
theorem exists_load_ne {k : ℕ} (hk : (Loc.memory k).Proper) (ha : a.Proper) (off : ℤ) :
    ∃ s : State, s.load (a.read s + BitVec.ofInt 64 off) ≠ (Loc.memory k).read s := by
  let s := a.write ⟨fun _ => BitVec.ofNat 64 (2 ^ 50), fun _ => 0⟩
    (BitVec.ofNat 64 (2 ^ 40) - BitVec.ofInt 64 off)
  let t := s.store (BitVec.ofNat 64 (2 ^ 40)) ((Loc.memory k).read s + 1)
  have hsp : s.get Register.sp = BitVec.ofNat 64 (2 ^ 50) := Loc.get_sp_write ha _ _
  have hkeep : ∀ l : Loc, l.Proper → l.read t = l.read s := by
    intro l hl
    cases l with
    | register r => rfl
    | memory j =>
      have hload := State.load_store_of_apart s ((Loc.memory k).read s + 1) (Loc.apart_far hl)
      rwa [← hsp] at hload
  have haddr : a.read t + BitVec.ofInt 64 off = BitVec.ofNat 64 (2 ^ 40) := by
    rw [hkeep a ha, Loc.read_write_self ha, BitVec.sub_add_cancel]
  refine ⟨t, ?_⟩
  rw [haddr, hkeep _ hk, State.load_store_self]
  bv_omega

/-! ### Methods made of two -/

theorem ofBool_ne_five (b : Bool) : ofBool b ≠ 5 := by
  cases b <;> decide

theorem ofBool_ne_not (b : Bool) : ofBool b ≠ ofBool (!b) := by
  cases b <;> decide

theorem beq_sub (x y : Word) : (y - x == 0) = (x == y) := by
  rw [Bool.eq_iff_iff, beq_iff_eq, beq_iff_eq]
  bv_omega

theorem ofBool_xor_one (b : Bool) : ofBool b ^^^ BitVec.ofInt 64 (toInt 1) = ofBool (!b) := by
  rw [toInt_of_mem (by decide) (by decide)]
  cases b <;> decide

theorem eq_register {d : Reg} (hd : (Loc.register d).Proper) (ha : a.Proper) (hb : b.Proper) :
    EqualButTemps (execLines sym (symbEmitEq (.register d) a b) s)
      (s.set d (ofBool (a.read s == b.read s))) := by
  refine two_steps sym s hd.1 (rType_register sym s .sub hb ha) (fun u hu => ?_) hd.2.2.1 hd.2.2.2
  rw [← beq_sub, ← show u.get d = b.read s - a.read s from hu]
  exact pseudoType_register sym u .seqz hd

theorem neq_register {d : Reg} (hd : (Loc.register d).Proper) (ha : a.Proper) (hb : b.Proper) :
    EqualButTemps (execLines sym (symbEmitNeq (.register d) a b) s)
      (s.set d (ofBool (a.read s != b.read s))) := by
  refine two_steps sym s hd.1 (rType_register sym s .sub hb ha) (fun u hu => ?_) hd.2.2.1 hd.2.2.2
  rw [bne, ← beq_sub, ← show u.get d = b.read s - a.read s from hu]
  exact pseudoType_register sym u .snez hd

theorem sle_register {d : Reg} (hd : (Loc.register d).Proper) (ha : a.Proper) (hb : b.Proper) :
    EqualButTemps (execLines sym (symbEmitSle (.register d) a b) s)
      (s.set d (ofBool ((a.read s).sle (b.read s)))) := by
  refine two_steps sym s hd.1 (rType_register sym s .sgt ha hb) (fun u hu => ?_) hd.2.2.1 hd.2.2.2
  rw [BitVec.sle_eq_not_slt, ← ofBool_xor_one, ← show u.get d = ofBool _ from hu]
  exact iType_register sym u .xori hd 1

theorem sge_register {d : Reg} (hd : (Loc.register d).Proper) (ha : a.Proper) (hb : b.Proper) :
    EqualButTemps (execLines sym (symbEmitSge (.register d) a b) s)
      (s.set d (ofBool ((b.read s).sle (a.read s)))) := by
  refine two_steps sym s hd.1 (rType_register sym s .slt ha hb) (fun u hu => ?_) hd.2.2.1 hd.2.2.2
  rw [BitVec.sle_eq_not_slt, ← ofBool_xor_one, ← show u.get d = ofBool _ from hu]
  exact iType_register sym u .xori hd 1

/-- The second part of such a method does not write its result to memory, so the place has the
result of the first part. -/
theorem not_refines_of_first {insn : RType} {k : ℕ} {c c' : Loc} {T : List Line} {v : Word}
    (hk : (Loc.memory k).Proper) (hc : c.Proper) (hc' : c'.Proper)
    (hlines : e.lines = symbEmitRType insn (.memory k) c c' ++ T)
    (hT : ∀ u, EqualButTemps (execLines sym T u) u)
    (happly : e.apply sym s = (Loc.memory k).write s v) (hne : insn.eval (c.read s) (c'.read s) ≠ v) :
    ¬ e.Refines := by
  intro h
  have hsame := (h sym s).1
  rw [happly, hlines] at hsame
  exact hne ((read_rType_memory sym s insn hk hc hc' hT).symm.trans (hsame.read_of_write hk))

theorem sle_iff (hd : dst.Proper) (ha : a.Proper) (hb : b.Proper) :
    (sle dst a b).Refines ↔ (sle dst a b).Sound := by
  cases dst with
  | register d =>
    exact iff_of_true (refines_of_equal (fun sym s => sle_register sym s hd ha hb) (by simp)) ⟨d, rfl⟩
  | memory k =>
    refine iff_of_false ?_ (by rintro ⟨d, hd⟩; cases hd)
    refine not_refines_of_first (fun _ => 0) ⟨fun _ => 0, fun _ => 0⟩ hd ha hb rfl
      (fun u => iType_memory _ u .xori _ 1) rfl ?_
    rw [BitVec.sle_eq_not_slt]
    exact ofBool_ne_not _

theorem sge_iff (hd : dst.Proper) (ha : a.Proper) (hb : b.Proper) :
    (sge dst a b).Refines ↔ (sge dst a b).Sound := by
  cases dst with
  | register d =>
    exact iff_of_true (refines_of_equal (fun sym s => sge_register sym s hd ha hb) (by simp)) ⟨d, rfl⟩
  | memory k =>
    refine iff_of_false ?_ (by rintro ⟨d, hd⟩; cases hd)
    refine not_refines_of_first (fun _ => 0) ⟨fun _ => 0, fun _ => 0⟩ hd ha hb rfl
      (fun u => iType_memory _ u .xori _ 1) rfl ?_
    rw [BitVec.sle_eq_not_slt]
    exact ofBool_ne_not _

theorem eq_iff (hd : dst.Proper) (ha : a.Proper) (hb : b.Proper) :
    (eq dst a b).Refines ↔ (eq dst a b).Sound := by
  cases dst with
  | register d =>
    exact iff_of_true (refines_of_equal (fun sym s => eq_register sym s hd ha hb) (by simp)) ⟨d, rfl⟩
  | memory k =>
    refine iff_of_false ?_ (by rintro ⟨d, hd⟩; cases hd)
    by_cases hab : a = b
    · subst hab
      refine not_refines_of_first (fun _ => 0) ⟨fun _ => 0, fun _ => 0⟩ hd ha ha rfl
        (fun u => pseudoType_memory _ u .seqz _) rfl ?_
      rw [RType.eval, BitVec.sub_self, beq_self_eq_true]
      decide
    · obtain ⟨s, -, h1, h2⟩ := Loc.exists_read ha hb hab 0 2 7
      refine not_refines_of_first (fun _ => 0) s hd hb ha rfl
        (fun u => pseudoType_memory _ u .seqz _) rfl ?_
      rw [h1, h2]
      decide

theorem neq_iff (hd : dst.Proper) (ha : a.Proper) (hb : b.Proper) :
    (neq dst a b).Refines ↔ (neq dst a b).Sound := by
  cases dst with
  | register d =>
    exact iff_of_true (refines_of_equal (fun sym s => neq_register sym s hd ha hb) (by simp))
      (Or.inl ⟨d, rfl⟩)
  | memory k =>
    constructor
    · intro h
      refine Or.inr ?_
      have hab : a = b := by
        by_contra hab
        obtain ⟨s, -, h1, h2⟩ := Loc.exists_read ha hb hab 0 2 7
        refine not_refines_of_first (fun _ => 0) s hd hb ha rfl
          (fun u => pseudoType_memory _ u .snez _) rfl ?_ h
        rw [h1, h2]
        decide
      subst hab
      refine ⟨rfl, ?_⟩
      cases a with
      | memory j => exact ⟨j, rfl⟩
      | register r =>
        exfalso
        obtain ⟨s, h2⟩ := Loc.exists_read_eq ha 2
        have hT : ∀ u, EqualButTemps
            (execLines (fun _ => 0) (symbEmitPseudoType .snez (.memory k) (.memory k)) u) u :=
          fun u => pseudoType_memory _ u .snez (.memory k)
        have hcode := get_rType_memory (fun _ => 0) s .sub hd ha ha hT
        have hget := (h (fun _ => 0) s).1.regs r ha.2.2.1 ha.2.2.2
        have heq : State.get s r - s.get r = s.get r := hcode.symm.trans hget
        rw [show s.get r = 2 from h2] at heq
        exact absurd heq (by decide)
    · rintro (⟨d, hd⟩ | ⟨rfl, j, hj⟩)
      · cases hd
      · refine refines_of_equal (fun sym s => ?_) (by simp)
        have hzero : (neq (.memory k) a a).apply sym s = (Loc.memory k).write s 0 := by
          rw [apply, bne_self_eq_false]
          rfl
        have hfirst := rType_memory sym s .sub hd ha ha hj (BitVec.sub_self _)
        rw [hzero, lines, symbEmitNeq, execLines_append]
        exact (pseudoType_memory _ _ .snez (.memory k)).trans hfirst

/-- A method that never writes its result to memory. -/
theorem inRegister_iff (hd : dst.Proper) {value : (String → Word) → State → Word}
    (hregister : ∀ d, dst = .register d → ∀ sym s,
      EqualButTemps (execLines sym e.lines s) (s.set d (value sym s)))
    (hmemory : ∀ k, dst = .memory k → ∀ sym s, EqualButTemps (execLines sym e.lines s) s)
    (happly : ∀ sym s, e.apply sym s = dst.write s (value sym s))
    (hne : ∀ k, dst = .memory k → ∃ sym s, value sym s ≠ dst.read s)
    (hmv : ∀ d src, e ≠ .mvToReg d src) : e.Refines ↔ dst.InRegister := by
  cases dst with
  | register d =>
    refine iff_of_true (refines_of_equal (fun sym s => ?_) hmv) ⟨d, rfl⟩
    rw [happly]
    exact hregister d rfl sym s
  | memory k =>
    obtain ⟨sym, s, hs⟩ := hne k rfl
    refine iff_of_false ?_ (by rintro ⟨d, hd⟩; cases hd)
    exact not_refines_of_unchanged sym s hd (hmemory k rfl sym s) (happly sym s) hs

theorem pseudoType_iff {insn : Pseudo} (hd : dst.Proper) (ha : a.Proper) :
    (pseudoType insn dst a).Refines ↔ dst.InRegister := by
  refine inRegister_iff hd ?_ ?_ (fun _ _ => rfl) ?_ (by simp)
  · rintro d rfl sym s
    exact pseudoType_register sym s insn ha
  · rintro k rfl sym s
    exact pseudoType_memory sym s insn a
  · rintro k rfl
    obtain ⟨s, hs⟩ := Loc.exists_read_eq hd 5
    refine ⟨fun _ => 0, s, ?_⟩
    rw [hs]
    cases insn <;> exact ofBool_ne_five _

theorem li_iff {imm : ℤ} (hd : dst.Proper) : (li dst imm).Refines ↔ dst.InRegister := by
  refine inRegister_iff hd ?_ ?_ (fun _ _ => rfl) ?_ (by simp)
  · rintro d rfl sym s
    exact EqualButTemps.refl _
  · rintro k rfl sym s
    exact li_memory sym s imm
  · rintro k rfl
    obtain ⟨s, hs⟩ := Loc.exists_read_eq hd (BitVec.ofInt 64 (toInt imm) + 1)
    refine ⟨fun _ => 0, s, ?_⟩
    rw [hs]
    bv_omega

theorem la_iff {label : String} (hd : dst.Proper) : (la dst label).Refines ↔ dst.InRegister := by
  refine inRegister_iff hd ?_ ?_ (fun _ _ => rfl) ?_ (by simp)
  · rintro d rfl sym s
    exact EqualButTemps.refl _
  · rintro k rfl sym s
    exact la_memory sym s label
  · rintro k rfl
    obtain ⟨s, hs⟩ := Loc.exists_read_eq hd 1
    refine ⟨fun _ => 0, s, ?_⟩
    rw [hs]
    exact show (0 : Word) ≠ 1 by decide

theorem ld_iff {off : ℤ} (hd : dst.Proper) (ha : a.Proper) :
    (ld dst a off).Refines ↔ dst.InRegister := by
  refine inRegister_iff hd ?_ ?_ (fun _ _ => rfl) ?_ (by simp)
  · rintro d rfl sym s
    exact ld_register sym s ha off
  · rintro k rfl sym s
    exact ld_memory sym s a off
  · rintro k rfl
    obtain ⟨s, hs⟩ := exists_load_ne hd ha (toInt off)
    exact ⟨fun _ => 0, s, hs⟩

theorem mvFromReg_iff {r : Reg} (hd : dst.Proper) : (mvFromReg dst r).Refines ↔ dst.InRegister := by
  refine inRegister_iff hd ?_ ?_ (fun _ _ => rfl) ?_ (by simp)
  · rintro d rfl sym s
    exact EqualButTemps.refl _
  · rintro k rfl sym s
    exact mvFromReg_memory sym s r
  · rintro k rfl
    let s : State := ⟨fun _ => 0, fun _ => 0⟩
    refine ⟨fun _ => 0, (Loc.memory k).write s (s.get r + 1), ?_⟩
    rw [Loc.read_write_self hd]
    show s.get r ≠ s.get r + 1
    bv_omega

/-- **When a method does what its operation does**: for all operands that are places, exactly when
it is `Sound`. -/
theorem refines_iff {e : SymbEmit} (h : ∀ l ∈ e.places, l.Proper) : e.Refines ↔ e.Sound := by
  cases e with
  | rType | eq | neq | sle | sge =>
    simp only [places, List.forall_mem_cons] at h
    obtain ⟨hd, ha, hb, -⟩ := h
    first
      | exact rType_iff hd ha hb
      | exact eq_iff hd ha hb
      | exact neq_iff hd ha hb
      | exact sle_iff hd ha hb
      | exact sge_iff hd ha hb
  | iType | pseudoType | mv | ld =>
    simp only [places, List.forall_mem_cons] at h
    obtain ⟨hd, ha, -⟩ := h
    first
      | exact iType_iff hd ha
      | exact pseudoType_iff hd ha
      | exact mv_iff hd ha
      | exact ld_iff hd ha
  | li dst imm => exact li_iff (h dst List.mem_cons_self)
  | la dst label => exact la_iff (h dst List.mem_cons_self)
  | mvFromReg dst r => exact mvFromReg_iff (h dst List.mem_cons_self)
  | sd a b off =>
    simp only [places, List.forall_mem_cons] at h
    refine iff_of_true (refines_of_equal (fun sym s => ?_) (by simp)) trivial
    exact exec_sd sym s h.1 h.2.1 off
  | mvToReg d a =>
    refine iff_of_true (fun sym s => ?_) trivial
    obtain ⟨u, hsame, hexec⟩ := exec_mvToReg sym s (h a List.mem_cons_self) d
    rw [lines, hexec, apply]
    refine ⟨hsame.set d _, ?_⟩
    rintro d' src heq
    cases heq
    by_cases h0 : d = 0
    · rw [h0, State.get_zero, State.get_zero]
    · rw [State.get_set_self _ _ h0, State.get_set_self _ _ h0]

/-- A comparison of two spilled operands with the result in a register. -/
theorem refines_iff_spilled : (sle (.register 9) (.memory 0) (.memory 1)).Refines ↔
    (sle (.register 9) (.memory 0) (.memory 1)).Sound :=
  @refines_iff (sle (.register 9) (.memory 0) (.memory 1)) (by
    simp only [places, List.forall_mem_cons, Loc.Proper]
    exact ⟨by decide, by decide, by decide, by simp⟩)

/-- Adding to a spilled operand loses the sum. -/
theorem sum_lost_in_temporary :
    ¬ ∀ e : SymbEmit, (∀ l ∈ e.places, l.Proper) → e.Refines := by
  intro h
  have hk : (Loc.memory 0).Proper := by
    show 0 < 2 ^ 28
    decide
  have hall := h (iType .addi (.memory 0) (.memory 0) 1) (by
    simp only [places, List.forall_mem_cons]
    exact ⟨hk, hk, by simp⟩)
  obtain ⟨s, hs⟩ := Loc.exists_read_eq hk 0
  refine not_refines_of_unchanged (fun _ => 0) s hk (iType_memory _ s .addi (.memory 0) 1) rfl ?_ hall
  rw [hs, toInt_of_mem (by decide) (by decide)]
  decide

end SymbEmit

end LamaRv
