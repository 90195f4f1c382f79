import LamaRv.Compiler.StackOps

/-!
# Variables

Where `LD` reads a variable and where `ST` writes it.

* `Variable`: the globals, the locals and the arguments;
* `exec_loadVar`, `exec_storeVar`: the code of the two instructions, in register slots;
* `StoreLaws`: what is stored is loaded again, and nothing else changes;
* `storeLaws_iff`: when this is so.
-/

namespace LamaRv

open ByteMemory Rv64 CodeBuffer Compiler

/-- A variable that instructions can name. -/
inductive Variable
  | global (i : ℕ)
  | localVar (i : ℕ)
  | arg (i : ℕ)
  deriving DecidableEq

namespace Variable

def entry : Variable → LocationEntry
  | global i => ⟨.global, i⟩
  | localVar i => ⟨.localVar, i⟩
  | arg i => ⟨.arg, i⟩

/-- The variable exists, in the function that the compiler is in. -/
def InRange (c : Compiler) (f : FrameInfo) : Variable → Prop
  | global i => i < c.globalsCount
  | localVar i => i < f.localsCount
  | arg i => i < f.argsCount

/-- What `LD` reads. -/
def loaded (s : State) : Variable → Word
  | global i => s.load (s.get Register.gp + BitVec.ofNat 64 (8 * i))
  | localVar i => s.load (below (s.get Register.fp) i)
  | arg i => if i < 8 then s.get (argReg i) else s.load (s.get Register.fp + BitVec.ofNat 64 (i - 8))

/-- What `ST` does with the value in the register `r`. -/
def stored (r : Reg) (s : State) : Variable → State
  | global i => s.store (s.get Register.gp + BitVec.ofNat 64 (8 * i)) (s.get r)
  | localVar i => s.store (below (s.get Register.fp) i) (s.get r)
  | arg i =>
      if i < 8 then s.set r (s.get (argReg i))
      else s.store (s.get Register.fp + BitVec.ofNat 64 (8 * (i - 8))) (s.get r)

end Variable

/-- A compiler in a function, with all its areas small enough for the offsets to be `int`s. -/
structure InFunction (c : Compiler) (f : FrameInfo) : Prop where
  frame : c.currentFrame = some f
  globals : c.globalsCount < 2 ^ 28
  locals : f.localsCount < 2 ^ 28
  args : f.argsCount < 2 ^ 28

section Code

variable {c : Compiler} {f : FrameInfo} {x : Variable}

theorem mulInt_natCast {i : ℕ} (h : i < 2 ^ 28) : mulInt i wordSize = .ok (i * wordSize) := by
  unfold mulInt check
  rw [if_pos (by unfold wordSize; omega)]
  rfl

theorem mulInt_neg_natCast {i : ℕ} (h : i < 2 ^ 28) : mulInt (-i) wordSize = .ok (-i * wordSize) := by
  unfold mulInt check
  rw [if_pos (by unfold wordSize; omega)]
  rfl

theorem register_arg_ok {i : ℕ} (h : i < 8) : Register.arg i = .ok (argReg i) := if_pos h

/-- `LD` puts the value into the new slot. -/
theorem exec_loadVar (hc : InFunction c f) (hx : x.InRange c f) (htop : c.st.top < 15) :
    ∃ c', (Instruction.load x.entry).emitCode c = .ok c' ∧ c'.st = ⟨c.st.top + 1⟩ ∧
      InFunction c' f ∧ c'.globalsCount = c.globalsCount ∧
      ∀ sym s, execLines sym (added c c') s = s.set (slotReg c.st.top) (x.loaded s) := by
  have hinfun : ∀ st T, InFunction (finish c st T) f := fun st T =>
    ⟨hc.frame, hc.globals, hc.locals, hc.args⟩
  have hframe : c.frame = .ok f := by rw [Compiler.frame, hc.frame]
  cases x with
  | global i =>
    have hi : i < 2 ^ 28 := lt_trans hx hc.globals
    refine ⟨finish c ⟨c.st.top + 1⟩ (symbEmitLd (SymbolicStack.loc c.st.top) (.register Register.gp)
      (i * wordSize)), ?_, rfl, hinfun _ _, rfl, fun sym s => ?_⟩
    · simp only [Instruction.emitCode, emitLoad, Variable.entry, bind_ok, check_ok,
        toSizeT_natCast (show i < 2 ^ 64 by omega), return_ok]
      exact ⟨(), hx, _, mulInt_natCast hi, rfl⟩
    · rw [added_finish, loc_of_lt htop, exec_symbEmitLd, add_toInt _ hi]
      rfl
  | localVar i =>
    have hi : i < 2 ^ 28 := lt_trans hx hc.locals
    refine ⟨finish c ⟨c.st.top + 1⟩ (symbEmitLd (SymbolicStack.loc c.st.top) (.register Register.fp)
      (-i * wordSize)), ?_, rfl, hinfun _ _, rfl, fun sym s => ?_⟩
    · simp only [Instruction.emitCode, emitLoad, Variable.entry, bind_ok, check_ok,
        toSizeT_natCast (show i < 2 ^ 64 by omega), return_ok]
      exact ⟨f, hframe, (), hx, _, mulInt_neg_natCast hi, rfl⟩
    · rw [added_finish, loc_of_lt htop, exec_symbEmitLd, add_toInt_neg _ hi]
      rfl
  | arg i =>
    have hi : i < 2 ^ 28 := lt_trans hx hc.args
    have hsize := toSizeT_natCast (show i < 2 ^ 64 by omega)
    by_cases h8 : i < 8
    · refine ⟨finish c ⟨c.st.top + 1⟩ (symbEmitMvFromReg (SymbolicStack.loc c.st.top) (argReg i)), ?_,
        rfl, hinfun _ _, rfl, fun sym s => ?_⟩
      · simp only [Instruction.emitCode, emitLoad, Variable.entry, bind_ok, check_ok, hsize,
          if_pos (show (i : ℤ) < 8 by omega), return_ok]
        exact ⟨f, hframe, (), hx, _, register_arg_ok h8, rfl⟩
      · rw [added_finish, loc_of_lt htop, exec_symbEmitMvFromReg, Variable.loaded, if_pos h8]
    · refine ⟨finish c ⟨c.st.top + 1⟩ (symbEmitLd (SymbolicStack.loc c.st.top) (.register Register.fp)
        ((i : ℤ) - 8)), ?_, rfl, hinfun _ _, rfl, fun sym s => ?_⟩
      · simp only [Instruction.emitCode, emitLoad, Variable.entry, bind_ok, check_ok, hsize,
          if_neg (show ¬ (i : ℤ) < 8 by omega), return_ok]
        exact ⟨f, hframe, (), hx, rfl⟩
      · rw [added_finish, loc_of_lt htop, exec_symbEmitLd, Variable.loaded, if_neg h8,
          toInt_of_mem (by omega) (by omega), show ((i : ℤ) - 8) = ((i - 8 : ℕ) : ℤ) by omega,
          BitVec.ofInt_natCast]

/-- `ST` leaves the symbolic stack alone. -/
theorem exec_storeVar (hc : InFunction c f) (hx : x.InRange c f) (hpos : 0 < c.st.top)
    (htop : c.st.top ≤ 15) :
    ∃ c', (Instruction.store x.entry).emitCode c = .ok c' ∧ c'.st = c.st ∧ InFunction c' f ∧
      c'.globalsCount = c.globalsCount ∧
      ∀ sym s, execLines sym (added c c') s = x.stored (slotReg (c.st.top - 1)) s := by
  have hinfun : ∀ T, InFunction (c.emit T) f := fun T => ⟨hc.frame, hc.globals, hc.locals, hc.args⟩
  have hpeek : c.st.peek = .ok (.register (slotReg (c.st.top - 1))) := by
    rw [SymbolicStack.peek_of_pos hpos, loc_of_lt (by omega)]
  cases x with
  | global i =>
    have hi : i < 2 ^ 28 := lt_trans hx hc.globals
    refine ⟨c.emit (symbEmitSd (.register (slotReg (c.st.top - 1))) (.register Register.gp)
      (i * wordSize)), ?_, rfl, hinfun _, rfl, fun sym s => ?_⟩
    · simp only [Instruction.emitCode, emitStore, Variable.entry, bind_ok, return_ok]
      exact ⟨_, hpeek, _, mulInt_natCast hi, rfl⟩
    · rw [added_emit, exec_symbEmitSd, add_toInt _ hi]
      rfl
  | localVar i =>
    have hi : i < 2 ^ 28 := lt_trans hx hc.locals
    refine ⟨c.emit (symbEmitSd (.register (slotReg (c.st.top - 1))) (.register Register.fp)
      (-i * wordSize)), ?_, rfl, hinfun _, rfl, fun sym s => ?_⟩
    · simp only [Instruction.emitCode, emitStore, Variable.entry, bind_ok, return_ok]
      exact ⟨_, hpeek, _, mulInt_neg_natCast hi, rfl⟩
    · rw [added_emit, exec_symbEmitSd, add_toInt_neg _ hi]
      rfl
  | arg i =>
    have hi : i < 2 ^ 28 := lt_trans hx hc.args
    have hsize := toSizeT_natCast (show i < 2 ^ 64 by omega)
    by_cases h8 : i < 8
    · refine ⟨c.emit (symbEmitMvFromReg (.register (slotReg (c.st.top - 1))) (argReg i)), ?_, rfl,
        hinfun _, rfl, fun sym s => ?_⟩
      · simp only [Instruction.emitCode, emitStore, Variable.entry, bind_ok, hsize,
          if_pos (show (i : ℤ) < 8 by omega), return_ok]
        exact ⟨_, hpeek, _, register_arg_ok h8, rfl⟩
      · rw [added_emit, exec_symbEmitMvFromReg, Variable.stored, if_pos h8]
    · have hcast : ((i : ℤ) - 8) = ((i - 8 : ℕ) : ℤ) := by omega
      refine ⟨c.emit (symbEmitSd (.register (slotReg (c.st.top - 1))) (.register Register.fp)
        ((i - 8 : ℕ) * wordSize)), ?_, rfl, hinfun _, rfl, fun sym s => ?_⟩
      · simp only [Instruction.emitCode, emitStore, Variable.entry, bind_ok,
          if_neg (show ¬ (i : ℤ) < 8 by omega), return_ok, hcast]
        exact ⟨_, hpeek, _, mulInt_natCast (by omega), rfl⟩
      · rw [added_emit, exec_symbEmitSd, add_toInt _ (by omega), Variable.stored, if_neg h8]

end Code

/-! ### The laws of stores -/

/-- No byte of the frame that a variable can be in belongs to a global. -/
def GlobalsApart (c : Compiler) (f : FrameInfo) (s : State) : Prop :=
  ∀ i < c.globalsCount, ∀ b < 8 * (f.localsCount + f.argsCount + 1),
    8 ≤ (below (s.get Register.fp) f.localsCount + BitVec.ofNat 64 b -
      (s.get Register.gp + BitVec.ofNat 64 (8 * i))).toNat

/-- After `ST x` of the value in the register `r`: the top is still that value, `LD x` loads it, `LD y` loads
what it would have loaded before, and of two stores the last one counts. -/
structure StoreLawsAt (r : Reg) (x y : Variable) (s : State) : Prop where
  top : (x.stored r s).get r = s.get r
  same : x.loaded (x.stored r s) = s.get r
  other : y ≠ x → y.loaded (x.stored r s) = y.loaded s
  last : ∀ w, x.loaded (x.stored r ((x.stored r s).set r w)) = w

/-- The laws, for the code of the instructions. -/
def StoreLaws (c : Compiler) (f : FrameInfo) (x y : Variable) : Prop :=
  ∃ c₁ c₂ c₃ c₄ c₅ c₆, (Instruction.store x.entry).emitCode c = .ok c₁ ∧
    (Instruction.load x.entry).emitCode c₁ = .ok c₂ ∧
    (Instruction.load y.entry).emitCode c₁ = .ok c₃ ∧
    (Instruction.load y.entry).emitCode c = .ok c₄ ∧
    (Instruction.store x.entry).emitCode c₁ = .ok c₅ ∧
    (Instruction.load x.entry).emitCode c₅ = .ok c₆ ∧
    ∀ (sym : String → Word) (s s₁ : State), GlobalsApart c f s →
      s₁ = execLines sym (added c c₁) s →
      s₁.get (slotReg (c.st.top - 1)) = s.get (slotReg (c.st.top - 1)) ∧
      (execLines sym (added c₁ c₂) s₁).get (slotReg c.st.top) = s.get (slotReg (c.st.top - 1)) ∧
      (y ≠ x → (execLines sym (added c₁ c₃) s₁).get (slotReg c.st.top) =
        (execLines sym (added c c₄) s).get (slotReg c.st.top)) ∧
      ∀ w, (execLines sym (added c₅ c₆) (execLines sym (added c₁ c₅)
        (s₁.set (slotReg (c.st.top - 1)) w))).get (slotReg c.st.top) = w

/-- A variable that keeps what is stored: an argument has to be the ninth. -/
def Variable.Kept : Variable → Prop
  | arg i => i = 8
  | _ => True

/-- `LD y` reads a byte that `ST x` writes. -/
def Variable.Overlaps : Variable → Variable → Prop
  | localVar i, arg j => i = 0 ∧ 8 ≤ j ∧ j < 16
  | arg _, localVar j => j = 0
  | arg _, arg j => 8 < j ∧ j < 16
  | _, _ => False

section Laws

variable {c : Compiler} {f : FrameInfo} {x y : Variable} {s : State}

theorem Variable.InRange.congr {c' : Compiler} (h : x.InRange c f)
    (heq : c'.globalsCount = c.globalsCount) : x.InRange c' f := by
  cases x with
  | global i => exact lt_of_lt_of_eq h heq.symm
  | localVar i => exact h
  | arg i => exact h

/-- The laws of the code are laws about reading and writing the variables. -/
theorem storeLaws_iff_at (hc : InFunction c f) (hx : x.InRange c f) (hy : y.InRange c f)
    (hpos : 0 < c.st.top) (htop : c.st.top < 15) : StoreLaws c f x y ↔
      ∀ s, GlobalsApart c f s → StoreLawsAt (slotReg (c.st.top - 1)) x y s := by
  obtain ⟨c₁, h₁, hst₁, hf₁, hg₁, he₁⟩ := exec_storeVar hc hx hpos htop.le
  have hx₁ : x.InRange c₁ f := hx.congr hg₁
  obtain ⟨c₂, h₂, -, -, -, he₂⟩ := exec_loadVar hf₁ hx₁ (hst₁ ▸ htop)
  obtain ⟨c₃, h₃, -, -, -, he₃⟩ := exec_loadVar hf₁ (hy.congr hg₁) (hst₁ ▸ htop)
  obtain ⟨c₄, h₄, -, -, -, he₄⟩ := exec_loadVar hc hy htop
  obtain ⟨c₅, h₅, hst₅, hf₅, hg₅, he₅⟩ := exec_storeVar hf₁ hx₁ (hst₁ ▸ hpos) (hst₁ ▸ htop.le)
  obtain ⟨c₆, h₆, -, -, -, he₆⟩ := exec_loadVar hf₅ (hx₁.congr hg₅) (hst₅ ▸ hst₁ ▸ htop)
  rw [hst₁] at he₂ he₃ he₅
  rw [hst₅, hst₁] at he₆
  have hnew : slotReg c.st.top ≠ 0 := slotReg_ne_zero htop
  constructor
  · rintro ⟨d₁, d₂, d₃, d₄, d₅, d₆, e₁, e₂, e₃, e₄, e₅, e₆, hall⟩ s hs
    obtain rfl := Except.ok.inj (h₁.symm.trans e₁)
    obtain rfl := Except.ok.inj (h₂.symm.trans e₂)
    obtain rfl := Except.ok.inj (h₃.symm.trans e₃)
    obtain rfl := Except.ok.inj (h₄.symm.trans e₄)
    obtain rfl := Except.ok.inj (h₅.symm.trans e₅)
    obtain rfl := Except.ok.inj (h₆.symm.trans e₆)
    obtain ⟨htop', hsame, hother, hlast⟩ := hall (fun _ => 0) s _ hs rfl
    simp only [he₁, he₂, he₃, he₄, he₅, he₆, State.get_set_self _ _ hnew] at htop' hsame hother hlast
    exact ⟨htop', hsame, hother, hlast⟩
  · intro hall
    refine ⟨c₁, c₂, c₃, c₄, c₅, c₆, h₁, h₂, h₃, h₄, h₅, h₆, ?_⟩
    rintro sym s s₁ hs rfl
    obtain ⟨htop', hsame, hother, hlast⟩ := hall s hs
    simp only [he₁, he₂, he₃, he₄, he₅, he₆, State.get_set_self _ _ hnew]
    exact ⟨htop', hsame, hother, hlast⟩

/-! #### Addresses -/

/-- The address that `LD` uses for a variable in memory. -/
def Variable.addr (s : State) : Variable → Word
  | global i => s.get Register.gp + BitVec.ofNat 64 (8 * i)
  | localVar i => below (s.get Register.fp) i
  | arg i => s.get Register.fp + BitVec.ofNat 64 (i - 8)

theorem Variable.Kept.stored_eq (h : x.Kept) (r : Reg) (s : State) :
    x.stored r s = s.store (x.addr s) (s.get r) := by
  cases x with
  | global i => rfl
  | localVar i => rfl
  | arg i =>
    obtain rfl : i = 8 := h
    rfl

theorem Variable.Kept.loaded_eq (h : x.Kept) (s : State) : x.loaded s = s.load (x.addr s) := by
  cases x with
  | global i => rfl
  | localVar i => rfl
  | arg i =>
    obtain rfl : i = 8 := h
    rfl

/-- A byte of a local or of an argument in memory, counted from the lowest local. -/
theorem frame_byte (hc : InFunction c f) (hy : y.InRange c f) (hglobal : ∀ i, y ≠ .global i)
    (hreg : ∀ i < 8, y ≠ .arg i) {k : ℕ} (hk : k < 8) :
    ∃ b < 8 * (f.localsCount + f.argsCount + 1), y.addr s + BitVec.ofNat 64 k =
      below (s.get Register.fp) f.localsCount + BitVec.ofNat 64 b := by
  have hL := hc.locals
  have hA := hc.args
  cases y with
  | global i => exact absurd rfl (hglobal i)
  | localVar i =>
    have hi : i < f.localsCount := hy
    refine ⟨8 * (f.localsCount - i) + k, by omega, ?_⟩
    unfold Variable.addr below
    bv_omega
  | arg i =>
    have hi : i < f.argsCount := hy
    have h8 : ¬ i < 8 := fun h => hreg i h rfl
    refine ⟨8 * f.localsCount + (i - 8) + k, by omega, ?_⟩
    unfold Variable.addr below
    bv_omega

/-- `LD y` reads no byte that `ST x` writes. -/
theorem far_of_not_overlaps (hc : InFunction c f) (hs : GlobalsApart c f s) (hx : x.InRange c f)
    (hy : y.InRange c f) (hkept : x.Kept) (hreg : ∀ i < 8, y ≠ .arg i) (hne : y ≠ x)
    (hover : ¬ x.Overlaps y) {k : ℕ} (hk : k < 8) :
    8 ≤ (y.addr s + BitVec.ofNat 64 k - x.addr s).toNat := by
  have hG := hc.globals
  have hL := hc.locals
  have hA := hc.args
  by_cases hxg : ∃ i, x = .global i
  · obtain ⟨i, rfl⟩ := hxg
    have hi : i < c.globalsCount := hx
    by_cases hyg : ∃ j, y = .global j
    · obtain ⟨j, rfl⟩ := hyg
      have hj : j < c.globalsCount := hy
      have hij : j ≠ i := fun heq => hne (by rw [heq])
      unfold Variable.addr
      bv_omega
    · obtain ⟨b, hb, heq⟩ := frame_byte (s := s) hc hy (fun j hj => hyg ⟨j, hj⟩) hreg hk
      rw [heq]
      exact hs i hi b hb
  · have hxreg : ∀ i < 8, x ≠ .arg i := by
      rintro i hi rfl
      have h8 : i = 8 := hkept
      omega
    by_cases hyg : ∃ j, y = .global j
    · obtain ⟨j, rfl⟩ := hyg
      have hj : j < c.globalsCount := hy
      by_contra hlt
      -- the byte is then a byte of the variable of the frame
      have hbyte : (Variable.global j).addr s + BitVec.ofNat 64 k = x.addr s +
          BitVec.ofNat 64 ((Variable.global j).addr s + BitVec.ofNat 64 k - x.addr s).toNat := by
        bv_omega
      obtain ⟨b, hb, heq⟩ := frame_byte (s := s) (y := x) hc hx (fun i hi => hxg ⟨i, hi⟩) hxreg
        (Nat.not_le.1 hlt)
      have hfar := hs j hj b hb
      rw [← heq, ← hbyte] at hfar
      unfold Variable.addr at hfar
      bv_omega
    · cases x with
      | global i => exact absurd ⟨i, rfl⟩ hxg
      | localVar i =>
        have hi : i < f.localsCount := hx
        cases y with
        | global j => exact absurd ⟨j, rfl⟩ hyg
        | localVar j =>
          have hj : j < f.localsCount := hy
          have hij : j ≠ i := fun heq => hne (by rw [heq])
          unfold Variable.addr below
          bv_omega
        | arg j =>
          have hj : j < f.argsCount := hy
          have h8 : ¬ j < 8 := fun h => hreg j h rfl
          have hov : ¬ (i = 0 ∧ 8 ≤ j ∧ j < 16) := hover
          unfold Variable.addr below
          bv_omega
      | arg i =>
        obtain rfl : i = 8 := hkept
        cases y with
        | global j => exact absurd ⟨j, rfl⟩ hyg
        | localVar j =>
          have hj : j < f.localsCount := hy
          have hov : ¬ j = 0 := hover
          unfold Variable.addr below
          bv_omega
        | arg j =>
          have hj : j < f.argsCount := hy
          have h8 : ¬ j < 8 := fun h => hreg j h rfl
          have hij : j ≠ 8 := fun heq => hne (by rw [heq])
          have hov : ¬ (8 < j ∧ j < 16) := hover
          unfold Variable.addr
          bv_omega

theorem Variable.loaded_eq (hreg : ∀ i < 8, y ≠ .arg i) (s : State) : y.loaded s = s.load (y.addr s) := by
  cases y with
  | global i => rfl
  | localVar i => rfl
  | arg i =>
    have h8 : ¬ i < 8 := fun h => hreg i h rfl
    rw [Variable.loaded, if_neg h8, Variable.addr]

theorem Variable.addr_store (a v : Word) : y.addr (s.store a v) = y.addr s := by
  cases y <;> rfl

/-! #### The laws hold -/

theorem storeLawsAt_of_kept {r : Reg} (hr : r ∈ regs) (hc : InFunction c f) (hx : x.InRange c f)
    (hy : y.InRange c f) (hs : GlobalsApart c f s) (hkept : x.Kept) (hover : ¬ x.Overlaps y) :
    StoreLawsAt r x y s := by
  obtain ⟨h0, -, -, hgp, hfp, -⟩ := regs_avoid r hr
  refine ⟨?_, ?_, fun hne => ?_, fun w => ?_⟩
  · rw [hkept.stored_eq, State.get_store]
  · rw [hkept.loaded_eq, hkept.stored_eq, Variable.addr_store, State.load_store_self]
  · rw [hkept.stored_eq]
    by_cases hreg : ∃ i < 8, y = .arg i
    · obtain ⟨i, hi, rfl⟩ := hreg
      rw [Variable.loaded, Variable.loaded, if_pos hi, if_pos hi, State.get_store]
    · have hreg' : ∀ i < 8, y ≠ .arg i := fun i hi heq => hreg ⟨i, hi, heq⟩
      rw [Variable.loaded_eq hreg', Variable.loaded_eq hreg', Variable.addr_store]
      refine load_congr fun k hk => ?_
      rw [State.mem_store]
      exact store_of_le (far_of_not_overlaps hc hs hx hy hkept hreg' hne hover hk)
  · rw [hkept.loaded_eq, hkept.stored_eq, hkept.stored_eq, Variable.addr_store,
      State.load_store_self, State.get_set_self _ _ h0]

/-! #### The laws fail -/

/-- A state with far-apart areas, an empty memory and a value in the register `r`. -/
def apartState (r : Reg) (v : Word) : State :=
  (((⟨fun _ => 0, fun _ => 0⟩ : State).set Register.fp (BitVec.ofNat 64 (2 ^ 50))).set Register.gp
    (BitVec.ofNat 64 (2 ^ 40))).set r v

section Fail

variable {r : Reg} {v : Word}

theorem apartState_load (a : Word) : (apartState r v).load a = 0 := by
  rw [apartState, State.load_set, State.load_set, State.load_set]
  exact load_zero a

theorem apartState_mem (a : Word) : (apartState r v).mem a = 0 := by
  rw [apartState, State.mem_set, State.mem_set, State.mem_set]

theorem apartState_globalsApart (hr : r ∈ regs) (hc : InFunction c f) :
    GlobalsApart c f (apartState r v) := by
  obtain ⟨-, -, -, hgp, hfp, -⟩ := regs_avoid r hr
  have hG := hc.globals
  have hL := hc.locals
  have hA := hc.args
  intro i hi b hb
  have hgf : Register.fp ≠ Register.gp := by decide
  rw [apartState, State.get_set_of_ne _ _ hfp.symm, State.get_set_of_ne _ _ hgp.symm,
    State.get_set_of_ne _ _ hgf, State.get_set_self _ _ (by decide), State.get_set_self _ _ (by decide)]
  unfold below
  bv_omega

/-- The first byte of a word that begins inside the stored one. -/
theorem loaded_ne_zero (hkept : x.Kept) (hreg : ∀ i < 8, y ≠ .arg i)
    (hlt : (y.addr s - x.addr s).toNat < 8) (hv : s.get r = -1) : y.loaded (x.stored r s) ≠ 0 := by
  intro hzero
  have hbyte := byteOf_load (x.stored r s).mem (y.addr (x.stored r s)) (k := 0) (by omega)
  rw [Variable.loaded_eq hreg, State.load] at hzero
  rw [hzero, hkept.stored_eq, Variable.addr_store, State.mem_store, hv] at hbyte
  have hall : ∀ j < 8, byteOf (-1) j ≠ byteOf 0 0 := by decide
  refine hall _ hlt ?_
  rw [hbyte, show y.addr s + BitVec.ofNat 64 0 = y.addr s by simp, store, if_pos hlt]

theorem args_ne_pointers : ∀ r ∈ Register.args, r ≠ Register.gp ∧ r ≠ Register.fp := by
  decide

/-- `LD` of an argument after the ninth begins below the word that `ST` writes. -/
theorem arg_words_apart (a : Word) {d : ℕ} (h : 1 ≤ d) (h' : d < 2 ^ 28) :
    8 ≤ (a + BitVec.ofNat 64 d + BitVec.ofNat 64 0 - (a + BitVec.ofNat 64 (8 * d))).toNat := by
  have hsub : ∀ x y : Word, a + x + BitVec.ofNat 64 0 - (a + y) = x - y := by
    intro x y
    bv_omega
  rw [hsub, BitVec.toNat_sub, BitVec.toNat_ofNat, BitVec.toNat_ofNat,
    Nat.mod_eq_of_lt (show d < 2 ^ 64 by omega), Nat.mod_eq_of_lt (show 8 * d < 2 ^ 64 by omega),
    Nat.mod_eq_of_lt (show 2 ^ 64 - 8 * d + d < 2 ^ 64 by omega)]
  omega

theorem kept_of_laws (hr : r ∈ regs) (hc : InFunction c f)
    (h : ∀ s, GlobalsApart c f s → StoreLawsAt r x y s) (hx : x.InRange c f) : x.Kept := by
  obtain ⟨h0, -, -, hgp, hfp, -, -, hargs⟩ := regs_avoid r hr
  cases x with
  | global i => trivial
  | localVar i => trivial
  | arg i =>
    have hi : i < f.argsCount := hx
    have hA := hc.args
    by_contra hne
    have hne : i ≠ 8 := hne
    by_cases h8 : i < 8
    · have htop := (h (apartState r 1) (apartState_globalsApart hr hc)).top
      have hra : argReg i ≠ r := fun heq => hargs (heq ▸ argReg_mem h8)
      have harg : (apartState r 1).get (argReg i) = 0 := by
        obtain ⟨hag, haf⟩ := args_ne_pointers _ (argReg_mem h8)
        rw [apartState, State.get_set_of_ne _ _ hra, State.get_set_of_ne _ _ hag,
          State.get_set_of_ne _ _ haf]
        exact ite_self _
      rw [Variable.stored, if_pos h8, State.get_set_self _ _ h0, harg, apartState,
        State.get_set_self _ _ h0] at htop
      exact absurd htop (by decide)
    · have hsame := (h (apartState r 1) (apartState_globalsApart hr hc)).same
      have hget : (apartState r 1).get r = 1 := State.get_set_self _ _ h0
      have hbyte := byteOf_load ((Variable.arg i).stored r (apartState r 1)).mem
        (((Variable.arg i).stored r (apartState r 1)).get Register.fp + BitVec.ofNat 64 (i - 8))
        (k := 0) (by omega)
      rw [Variable.loaded, if_neg h8, State.load, hget] at hsame
      rw [hsame, Variable.stored, if_neg h8, State.get_store, State.mem_store, store_of_le,
        apartState_mem] at hbyte
      · exact absurd hbyte (by decide)
      · exact arg_words_apart _ (by omega) (by omega)

/-- Of overlapping variables the one that is read begins in the word that is written. -/
theorem overlaps_spec (hc : InFunction c f) (hy : y.InRange c f) (hkept : x.Kept)
    (hover : x.Overlaps y) (s : State) :
    y ≠ x ∧ (∀ i < 8, y ≠ .arg i) ∧ (y.addr s - x.addr s).toNat < 8 := by
  have hA := hc.args
  cases x with
  | global i => exact absurd hover id
  | localVar i =>
    cases y with
    | global j => exact absurd hover id
    | localVar j => exact absurd hover id
    | arg j =>
      obtain ⟨rfl, h8, h16⟩ : i = 0 ∧ 8 ≤ j ∧ j < 16 := hover
      refine ⟨by simp, ?_, ?_⟩
      · rintro i hi heq
        cases heq
        omega
      · simp only [Variable.addr, below_zero]
        bv_omega
  | arg i =>
    obtain rfl : i = 8 := hkept
    cases y with
    | global j => exact absurd hover id
    | localVar j =>
      obtain rfl : j = 0 := hover
      refine ⟨by simp, by simp, ?_⟩
      simp only [Variable.addr, below_zero]
      bv_omega
    | arg j =>
      obtain ⟨h8, h16⟩ : 8 < j ∧ j < 16 := hover
      refine ⟨?_, ?_, ?_⟩
      · rintro heq
        cases heq
        omega
      · rintro i hi heq
        cases heq
        omega
      · unfold Variable.addr
        bv_omega

theorem not_overlaps_of_laws (hr : r ∈ regs) (hc : InFunction c f)
    (h : ∀ s, GlobalsApart c f s → StoreLawsAt r x y s) (hx : x.InRange c f) (hy : y.InRange c f) :
    ¬ x.Overlaps y := by
  intro hover
  have hkept := kept_of_laws hr hc h hx
  obtain ⟨h0, -⟩ := regs_avoid r hr
  have hlaw := (h (apartState r (-1)) (apartState_globalsApart hr hc)).other
  obtain ⟨hne, hreg, hlt⟩ := overlaps_spec hc hy hkept hover (apartState r (-1))
  refine loaded_ne_zero hkept hreg hlt (State.get_set_self _ _ h0) ?_
  rw [hlaw hne, Variable.loaded_eq hreg, apartState_load]

end Fail

/-- **When the laws of stores hold**: for a global or a local, or the ninth argument, unless the other
variable overlaps it. -/
theorem storeLaws_iff (hc : InFunction c f) (hx : x.InRange c f) (hy : y.InRange c f)
    (hpos : 0 < c.st.top) (htop : c.st.top < 15) :
    StoreLaws c f x y ↔ x.Kept ∧ ¬ x.Overlaps y := by
  have hr : slotReg (c.st.top - 1) ∈ regs := slotReg_mem (by omega)
  rw [storeLaws_iff_at hc hx hy hpos htop]
  constructor
  · exact fun h => ⟨kept_of_laws hr hc h hx, not_overlaps_of_laws hr hc h hx hy⟩
  · exact fun h s hs => storeLawsAt_of_kept hr hc hx hy hs h.1 h.2

end Laws

/-- The compiler in a function with two locals and two arguments, with a value on the stack. -/
def inSmallFunction : Compiler :=
  { inFrame 1 with globalsCount := 2, currentFrame := some ⟨"f", 2, 2⟩ }

theorem inSmallFunction_spec : InFunction inSmallFunction ⟨"f", 2, 2⟩ :=
  ⟨rfl, by decide, by decide, by decide⟩

theorem storeLaws_iff_small : StoreLaws inSmallFunction ⟨"f", 2, 2⟩ (.localVar 0) (.global 1) ↔
    (Variable.localVar 0).Kept ∧ ¬ (Variable.localVar 0).Overlaps (.global 1) :=
  @storeLaws_iff inSmallFunction ⟨"f", 2, 2⟩ (.localVar 0) (.global 1) inSmallFunction_spec
    (by decide : 0 < 2) (by decide : 1 < 2) (by decide) (by decide)

/-- A store to an argument in a register copies the argument to the top instead. -/
theorem argument_not_stored : ¬ ∀ (c : Compiler) (f : FrameInfo) (x y : Variable), InFunction c f →
    x.InRange c f → y.InRange c f → 0 < c.st.top → c.st.top < 15 → StoreLaws c f x y := by
  intro h
  have h0 : (Variable.arg 0).InRange inSmallFunction ⟨"f", 2, 2⟩ := (by decide : 0 < 2)
  have h1 : (Variable.arg 1).InRange inSmallFunction ⟨"f", 2, 2⟩ := (by decide : 1 < 2)
  have hlaws := h inSmallFunction ⟨"f", 2, 2⟩ (.arg 0) (.arg 1) inSmallFunction_spec h0 h1
    (by decide) (by decide)
  rw [storeLaws_iff_at inSmallFunction_spec h0 h1 (by decide) (by decide)] at hlaws
  exact absurd (kept_of_laws (slotReg_mem (by decide)) inSmallFunction_spec hlaws h0)
    (by decide : ¬ 0 = 8)

end LamaRv
