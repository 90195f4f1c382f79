import LamaRv.Compiler.CodeExec
import LamaRv.Compiler.Locations

/-!
# Constants and stack instructions

`CONST`, `DUP`, `SWAP` and `STI` change the operand stack only.  The compiler changes the height of
the symbolic stack, so the code has to bring each value to the place that the new height assigns
to it.

* `stackOf`: the operands that a state holds, the top first;
* `follows_iff`: when the code of `DUP`, `SWAP` and `STI` moves the operands as the stack machine
  does;
* `constIsExact_iff`: when the code of `CONST` leaves the literal in its place.
-/

namespace LamaRv

open ByteMemory Rv64 CodeBuffer Compiler

/-! ### Operands -/

theorem loc_proper {k : ℕ} (h : k < 2 ^ 28) : (SymbolicStack.loc k).Proper := by
  by_cases hk : k < 15
  · rw [loc_of_lt hk]
    obtain ⟨h0, -, hsp, -, -, ht1, ht2, -⟩ := regs_avoid _ (slotReg_mem hk)
    exact ⟨h0, hsp, ht1, ht2⟩
  · rw [loc_of_ge (by omega)]
    exact show k - 15 < 2 ^ 28 by omega

theorem loc_ne {j k : ℕ} (h : j ≠ k) : SymbolicStack.loc j ≠ SymbolicStack.loc k := by
  by_cases hj : j < 15
  · by_cases hk : k < 15
    · rw [loc_of_lt hj, loc_of_lt hk]
      exact fun heq => slotReg_ne hj hk h (Loc.register.inj heq)
    · rw [loc_of_lt hj, loc_of_ge (by omega)]
      simp
  · by_cases hk : k < 15
    · rw [loc_of_ge (by omega), loc_of_lt hk]
      simp
    · rw [loc_of_ge (by omega), loc_of_ge (by omega)]
      intro heq
      have := Loc.memory.inj heq
      omega

/-- The operands of a symbolic stack of some height, the top first. -/
def stackOf : ℕ → State → List Word
  | 0, _ => []
  | n + 1, s => (SymbolicStack.loc n).read s :: stackOf n s

theorem stackOf_congr {n : ℕ} {s s' : State}
    (h : ∀ k < n, (SymbolicStack.loc k).read s' = (SymbolicStack.loc k).read s) :
    stackOf n s' = stackOf n s := by
  induction n with
  | zero => rfl
  | succ n ih => rw [stackOf, stackOf, h n (by omega), ih fun k hk => h k (by omega)]

/-! ### `DUP`, `SWAP` and `STI` -/

/-- The order in which the two arguments of `symb_emit_mv` are evaluated in `Duplicate`; C++ leaves
it open. -/
inductive ArgOrder
  | leftToRight
  | rightToLeft

/-- `Duplicate` with either order of the arguments `alloc()` and `peek()`. -/
def Compiler.emitDuplicateIn (c : Compiler) : ArgOrder → Except String Compiler
  | .rightToLeft => emitDuplicate c
  | .leftToRight => do
      let (dst, st) := c.st.alloc
      let src ← st.peek
      return finish c st (symbEmitMv dst src)

/-- The instructions that move operands. -/
inductive Shuffle
  | duplicate
  | swap
  | storeStack

namespace Shuffle

def emitCode (order : ArgOrder) (c : Compiler) : Shuffle → Except String Compiler
  | duplicate => c.emitDuplicateIn order
  | swap => c.emitSwap
  | storeStack => c.emitStoreStack

/-- The operands that the instruction needs. -/
def arity : Shuffle → ℕ
  | duplicate => 1
  | swap | storeStack => 2

/-- The stack machine. -/
def onStack : Shuffle → List Word → Option (List Word)
  | duplicate, v :: vs => some (v :: v :: vs)
  | swap, v :: w :: vs => some (w :: v :: vs)
  | storeStack, v :: _ :: vs => some (v :: vs)
  | _, _ => none

/-- The code moves the operands as the stack machine does, and `STI` stores the value at the
reference. -/
def Follows (op : Shuffle) (order : ArgOrder) (c : Compiler) : Prop :=
  ∃ c', op.emitCode order c = .ok c' ∧ ∀ (sym : String → Word) (s : State),
    op.onStack (stackOf c.st.top s) = some (stackOf c'.st.top (execLines sym (added c c') s)) ∧
    ∀ v p vs, op = storeStack → stackOf c.st.top s = v :: p :: vs →
      (execLines sym (added c c') s).load p = v

/-- When it does. -/
def Right : Shuffle → ArgOrder → ℕ → Prop
  | duplicate, .rightToLeft, height => height ≤ 14
  | duplicate, .leftToRight, _ => False
  | swap, _, height => height ≤ 15
  | storeStack, _, _ => False

section

variable {op : Shuffle} {order : ArgOrder} {c : Compiler} {n height : ℕ} {T : List Line}

theorem follows_iff_of_emit (h : op.emitCode order c = .ok (finish c ⟨height⟩ T)) :
    op.Follows order c ↔ ∀ (sym : String → Word) (s : State),
      op.onStack (stackOf c.st.top s) = some (stackOf height (execLines sym T s)) ∧
      ∀ v p vs, op = storeStack → stackOf c.st.top s = v :: p :: vs →
        (execLines sym T s).load p = v := by
  constructor
  · rintro ⟨c', hc', hall⟩
    obtain rfl : finish c ⟨height⟩ T = c' := Except.ok.inj (h.symm.trans hc')
    simpa only [added_finish, finish_st] using hall
  · intro hall
    refine ⟨_, h, ?_⟩
    simpa only [added_finish, finish_st] using hall

/-! #### Duplicating -/

theorem emitDuplicateIn_rightToLeft (h : c.st.top = n + 1) :
    duplicate.emitCode .rightToLeft c =
      .ok (finish c ⟨n + 2⟩ (symbEmitMv (SymbolicStack.loc (n + 1)) (SymbolicStack.loc n))) := by
  simp only [emitCode, emitDuplicateIn, emitDuplicate, SymbolicStack.peek, SymbolicStack.alloc, h,
    if_pos (Nat.succ_pos n), Nat.add_sub_cancel]
  rfl

theorem emitDuplicateIn_leftToRight (h : c.st.top = n + 1) :
    duplicate.emitCode .leftToRight c =
      .ok (finish c ⟨n + 2⟩ (symbEmitMv (SymbolicStack.loc (n + 1)) (SymbolicStack.loc (n + 1)))) := by
  simp only [emitCode, emitDuplicateIn, SymbolicStack.peek, SymbolicStack.alloc, h,
    if_pos (Nat.succ_pos (n + 1)), Nat.add_sub_cancel]
  rfl

/-- Code that leaves all places alone does not duplicate. -/
theorem not_follows_duplicate (hn : n + 1 < 2 ^ 28) (htop : c.st.top = n + 1)
    (h : duplicate.emitCode order c = .ok (finish c ⟨n + 2⟩ T))
    (hT : ∀ sym s, EqualButTemps (execLines sym T s) s) : ¬ duplicate.Follows order c := by
  rw [follows_iff_of_emit h]
  intro hall
  obtain ⟨s, -, h0, h1⟩ := Loc.exists_read (loc_proper (k := n) (by omega)) (loc_proper hn)
    (loc_ne (by omega)) 0 0 1
  have hstack := (hall (fun _ => 0) s).1
  rw [htop, stackOf, onStack, stackOf, h0, (hT _ _).read (loc_proper hn), h1] at hstack
  have hhead := (List.cons.inj (Option.some.inj hstack)).1
  exact absurd hhead (by decide)

theorem follows_duplicate (hn : n + 1 < 15) (htop : c.st.top = n + 1) :
    duplicate.Follows .rightToLeft c := by
  rw [follows_iff_of_emit (emitDuplicateIn_rightToLeft htop)]
  refine fun sym s => ⟨?_, by simp⟩
  have hsame := mv_register sym s (d := slotReg (n + 1)) (loc_proper (k := n) (by omega))
  rw [← loc_of_lt hn] at hsame
  have hnew : (SymbolicStack.loc (n + 1)).read
      (execLines sym (symbEmitMv (SymbolicStack.loc (n + 1)) (SymbolicStack.loc n)) s) =
      (SymbolicStack.loc n).read s := by
    rw [hsame.read (loc_proper (by omega)), loc_of_lt hn]
    exact State.get_set_self _ _ (slotReg_ne_zero hn)
  have hold : stackOf (n + 1)
      (execLines sym (symbEmitMv (SymbolicStack.loc (n + 1)) (SymbolicStack.loc n)) s) =
      stackOf (n + 1) s := by
    refine stackOf_congr fun k hk => ?_
    rw [hsame.read (loc_proper (by omega)), loc_of_lt (show k < 15 by omega)]
    exact State.get_set_of_ne _ _ (slotReg_ne (by omega) hn (by omega))
  rw [htop, stackOf, onStack, stackOf, hnew, hold]
  rfl

/-! #### Exchanging -/

theorem emitSwap_eq (h : c.st.top = n + 2) : swap.emitCode order c = .ok (finish c ⟨n + 2⟩
    (symbEmitMvToReg Register.temp1 (SymbolicStack.loc (n + 1)) ++
      symbEmitMv (SymbolicStack.loc (n + 1)) (SymbolicStack.loc n) ++
      symbEmitMvFromReg (SymbolicStack.loc n) Register.temp1)) := by
  simp only [emitCode, emitSwap, SymbolicStack.pop, SymbolicStack.peek, SymbolicStack.push, h,
    if_pos (Nat.succ_pos (n + 1))]
  rfl

/-- The three moves in registers. -/
theorem exec_swap (sym : String → Word) (s : State) (hn : n + 1 < 15) :
    execLines sym (symbEmitMvToReg Register.temp1 (SymbolicStack.loc (n + 1)) ++
      symbEmitMv (SymbolicStack.loc (n + 1)) (SymbolicStack.loc n) ++
      symbEmitMvFromReg (SymbolicStack.loc n) Register.temp1) s =
      ((s.set Register.temp1 (s.get (slotReg (n + 1)))).set (slotReg (n + 1))
        (s.get (slotReg n))).set (slotReg n) (s.get (slotReg (n + 1))) := by
  obtain ⟨-, -, ht, -⟩ := slotReg_avoid (show n < 15 by omega)
  obtain ⟨-, -, ht', -⟩ := slotReg_avoid hn
  rw [loc_of_lt hn, loc_of_lt (show n < 15 by omega), execLines_append, execLines_append,
    exec_symbEmitMvToReg, exec_symbEmitMv, exec_symbEmitMvFromReg, State.get_set_of_ne _ _ ht,
    State.get_set_of_ne _ _ ht'.symm, State.get_set_self _ _ (by decide)]

theorem follows_swap (hn : n + 1 < 15) (htop : c.st.top = n + 2) : swap.Follows order c := by
  rw [follows_iff_of_emit (emitSwap_eq htop)]
  refine fun sym s => ⟨?_, by simp⟩
  have hab : slotReg (n + 1) ≠ slotReg n := slotReg_ne hn (by omega) (by omega)
  have hnew : (SymbolicStack.loc (n + 1)).read
      (((s.set Register.temp1 (s.get (slotReg (n + 1)))).set (slotReg (n + 1))
        (s.get (slotReg n))).set (slotReg n) (s.get (slotReg (n + 1)))) =
      (SymbolicStack.loc n).read s := by
    rw [loc_of_lt hn, loc_of_lt (show n < 15 by omega), Loc.read, State.get_set_of_ne _ _ hab,
      State.get_set_self _ _ (slotReg_ne_zero hn), Loc.read]
  have hnew' : (SymbolicStack.loc n).read
      (((s.set Register.temp1 (s.get (slotReg (n + 1)))).set (slotReg (n + 1))
        (s.get (slotReg n))).set (slotReg n) (s.get (slotReg (n + 1)))) =
      (SymbolicStack.loc (n + 1)).read s := by
    rw [loc_of_lt hn, loc_of_lt (show n < 15 by omega), Loc.read,
      State.get_set_self _ _ (slotReg_ne_zero (by omega)), Loc.read]
  have hold : stackOf n (((s.set Register.temp1 (s.get (slotReg (n + 1)))).set (slotReg (n + 1))
      (s.get (slotReg n))).set (slotReg n) (s.get (slotReg (n + 1)))) = stackOf n s := by
    refine stackOf_congr fun k hk => ?_
    obtain ⟨-, -, ht, -⟩ := slotReg_avoid (show k < 15 by omega)
    rw [loc_of_lt (show k < 15 by omega), Loc.read, Loc.read,
      State.get_set_of_ne _ _ (slotReg_ne (by omega) (by omega) (by omega)),
      State.get_set_of_ne _ _ (slotReg_ne (by omega) hn (by omega)), State.get_set_of_ne _ _ ht]
  rw [exec_swap sym s hn, htop]
  simp only [stackOf, onStack, hnew, hnew', hold]

/-- A top slot in memory keeps its value. -/
theorem not_follows_swap (hn : n + 1 < 2 ^ 28) (hn' : 15 ≤ n + 1) (htop : c.st.top = n + 2) :
    ¬ swap.Follows order c := by
  rw [follows_iff_of_emit (emitSwap_eq htop)]
  intro hall
  have hpn : (SymbolicStack.loc n).Proper := loc_proper (by omega)
  have hpn' : (SymbolicStack.loc (n + 1)).Proper := loc_proper hn
  obtain ⟨s, -, h0, h1⟩ := Loc.exists_read hpn hpn' (loc_ne (by omega)) 0 0 1
  have hstack := (hall (fun _ => 0) s).1
  -- none of the three moves writes the top slot
  obtain ⟨u, hu, hexec⟩ := exec_mvToReg (fun _ => 0) s hpn' Register.temp1
  have hfirst : EqualButTemps (execLines (fun _ => 0)
      (symbEmitMvToReg Register.temp1 (SymbolicStack.loc (n + 1))) s) s := by
    rw [hexec]
    exact (equal_set_temp1 _ _).trans hu
  have hsecond : ∀ t, EqualButTemps (execLines (fun _ => 0)
      (symbEmitMv (SymbolicStack.loc (n + 1)) (SymbolicStack.loc n)) t) t := by
    intro t
    rw [loc_of_ge hn']
    exact mv_memory _ t _
  have hthird : ∀ t, (SymbolicStack.loc (n + 1)).read (execLines (fun _ => 0)
      (symbEmitMvFromReg (SymbolicStack.loc n) Register.temp1) t) =
      (SymbolicStack.loc (n + 1)).read t := by
    intro t
    by_cases hreg : n < 15
    · rw [loc_of_lt hreg, exec_symbEmitMvFromReg]
      have hne : SymbolicStack.loc (n + 1) ≠ .register (slotReg n) := by
        rw [← loc_of_lt hreg]
        exact loc_ne (by omega)
      exact Loc.read_write_of_ne hpn' (loc_of_lt hreg ▸ hpn) hne t _
    · rw [loc_of_ge (show 15 ≤ n by omega)]
      exact (mvFromReg_memory _ t _).read hpn'
  rw [htop] at hstack
  simp only [stackOf, onStack, execLines_append, hthird, (hsecond _).read hpn', hfirst.read hpn',
    h0, h1] at hstack
  have hhead := (List.cons.inj (Option.some.inj hstack)).1
  exact absurd hhead (by decide)

/-! #### Storing -/

theorem emitStoreStack_eq (h : c.st.top = n + 2) : storeStack.emitCode order c =
    .ok (finish c ⟨n + 1⟩ (symbEmitSd (SymbolicStack.loc (n + 1)) (SymbolicStack.loc n) 0)) := by
  simp only [emitCode, emitStoreStack, SymbolicStack.pop, SymbolicStack.push, h,
    if_pos (Nat.succ_pos (n + 1))]
  rfl

/-- The reference is left at the top, not the value. -/
theorem not_follows_storeStack (hn : n + 1 < 2 ^ 28) (htop : c.st.top = n + 2) :
    ¬ storeStack.Follows order c := by
  rw [follows_iff_of_emit (emitStoreStack_eq htop)]
  intro hall
  have hpn : (SymbolicStack.loc n).Proper := loc_proper (by omega)
  have hpn' : (SymbolicStack.loc (n + 1)).Proper := loc_proper hn
  obtain ⟨s, hsp, h0, h1⟩ := Loc.exists_read hpn hpn' (loc_ne (by omega))
    (BitVec.ofNat 64 (2 ^ 50)) (BitVec.ofNat 64 (2 ^ 40)) 7
  have hstack := (hall (fun _ => 0) s).1
  have hsame := exec_sd (fun _ => 0) s hpn' hpn 0
  have hoff : ∀ a : Word, a + BitVec.ofInt 64 (toInt 0) = a := by
    intro a
    rw [toInt_of_mem (by decide) (by decide)]
    exact BitVec.add_zero a
  rw [hoff, h0, h1] at hsame
  have hkept : (SymbolicStack.loc n).read (s.store (BitVec.ofNat 64 (2 ^ 40)) 7) =
      BitVec.ofNat 64 (2 ^ 40) := by
    by_cases hreg : n < 15
    · rw [loc_of_lt hreg] at h0 ⊢
      exact h0
    · rw [loc_of_ge (show 15 ≤ n by omega), Loc.read, hsp] at h0
      rw [loc_of_ge (show 15 ≤ n by omega), Loc.read, State.get_store, hsp,
        State.load_store_of_apart _ _ (Loc.apart_far (by omega)), h0]
  rw [htop] at hstack
  simp only [stackOf, onStack, hsame.read hpn, h0, h1, hkept] at hstack
  have hhead := (List.cons.inj (Option.some.inj hstack)).1
  exact absurd hhead (by decide)

/-- **When the code moves the operands as the stack machine does.** -/
theorem follows_iff (op : Shuffle) (order : ArgOrder) (harity : op.arity ≤ c.st.top)
    (htop : c.st.top < 2 ^ 28) : op.Follows order c ↔ op.Right order c.st.top := by
  cases op with
  | duplicate =>
    obtain ⟨n, hn⟩ := Nat.exists_eq_add_of_le' (show 1 ≤ c.st.top from harity)
    cases order with
    | leftToRight =>
      refine iff_of_false ?_ id
      refine not_follows_duplicate (by omega) hn (emitDuplicateIn_leftToRight hn) fun sym s => ?_
      by_cases hreg : n + 1 < 15
      · rw [loc_of_lt hreg, exec_symbEmitMv, State.set_get]
        exact EqualButTemps.refl s
      · rw [loc_of_ge (by omega)]
        exact mv_memory sym s _
    | rightToLeft =>
      by_cases hreg : n + 1 < 15
      · exact iff_of_true (follows_duplicate hreg hn) (show c.st.top ≤ 14 by omega)
      · refine iff_of_false ?_ (show ¬ c.st.top ≤ 14 by omega)
        refine not_follows_duplicate (by omega) hn (emitDuplicateIn_rightToLeft hn) fun sym s => ?_
        rw [loc_of_ge (show 15 ≤ n + 1 by omega)]
        exact mv_memory sym s _
  | swap =>
    obtain ⟨n, hn⟩ := Nat.exists_eq_add_of_le' (show 2 ≤ c.st.top from harity)
    by_cases hreg : n + 1 < 15
    · exact iff_of_true (follows_swap hreg hn) (show c.st.top ≤ 15 by omega)
    · exact iff_of_false (not_follows_swap (by omega) (by omega) hn) (show ¬ c.st.top ≤ 15 by omega)
  | storeStack =>
    obtain ⟨n, hn⟩ := Nat.exists_eq_add_of_le' (show 2 ≤ c.st.top from harity)
    exact iff_of_false (not_follows_storeStack (by omega) hn) id

theorem follows_iff_inFrame : swap.Follows .rightToLeft (inFrame 2) ↔ swap.Right .rightToLeft 2 :=
  @follows_iff (inFrame 2) swap .rightToLeft (by decide) (by decide)

/-- `STI` leaves the reference at the top. -/
theorem reference_left : ¬ ∀ (op : Shuffle) (order : ArgOrder) (c : Compiler),
    op.arity ≤ c.st.top → c.st.top < 2 ^ 28 → op.Follows order c :=
  fun h => not_follows_storeStack (by decide) rfl
    (h storeStack .rightToLeft (inFrame 2) (by decide) (by decide))

end

end Shuffle

/-! ### `CONST` -/

/-- From `s` to `s'` a function with `locc` locals and `height` operands keeps its variables, its
saved registers and its operands. -/
structure KeepsFrame (locc height : ℕ) (s s' : State) : Prop where
  pointers : ∀ r ∈ [Register.sp, Register.fp, Register.gp, Register.ra], s'.get r = s.get r
  locals : ∀ i < locc, s'.load (below (s.get Register.fp) i) = s.load (below (s.get Register.fp) i)
  saved : ∀ i, 1 ≤ i → i ≤ 12 →
    s'.load (below (s.get Register.fp) (locc + i)) = s.load (below (s.get Register.fp) (locc + i))
  args : ∀ r ∈ Register.args, s'.get r = s.get r
  stackArgs : ∀ b < 2 ^ 31,
    s'.mem (s.get Register.fp + BitVec.ofNat 64 b) = s.mem (s.get Register.fp + BitVec.ofNat 64 b)
  operands : ∀ k < height, (SymbolicStack.loc k).read s' = (SymbolicStack.loc k).read s

/-- In the body of a function with `locc` locals the code of `CONST` leaves the literal, boxed, at
the top and changes nothing else that the function uses; and the instruction prints the literal. -/
def ConstIsExact (c : Compiler) (locc : ℕ) (literal : ℤ) : Prop :=
  ∃ c' l, (Instruction.ofLiteral literal).emitCode c = .ok c' ∧ c'.st.peek = .ok l ∧
    (∀ (sym : String → Word) (s : State),
      s.get Register.sp = below (s.get Register.fp) (locc + 12) →
      l.read (execLines sym (added c c') s) = BitVec.ofInt 64 (2 * literal + 1) ∧
      KeepsFrame locc c.st.top s (execLines sym (added c c') s)) ∧
    (Instruction.ofLiteral literal).print = .ok ("CONST\t" ++ formatInt literal)

section Const

variable {c : Compiler} {literal : ℤ} {locc : ℕ}

/-- Writing a slot register above the operands. -/
theorem KeepsFrame.set {height : ℕ} (h : height < 15) (locc : ℕ) (s : State) (v : Word) :
    KeepsFrame locc height s (s.set (slotReg height) v) := by
  obtain ⟨-, hra, hsp, hgp, hfp, -, -, hargs⟩ := regs_avoid _ (slotReg_mem h)
  refine ⟨?_, fun _ _ => State.load_set _ _ _ _, fun _ _ _ => State.load_set _ _ _ _, ?_, ?_, ?_⟩
  · simp only [List.forall_mem_cons]
    exact ⟨State.get_set_of_ne _ _ hsp.symm, State.get_set_of_ne _ _ hfp.symm,
      State.get_set_of_ne _ _ hgp.symm, State.get_set_of_ne _ _ hra.symm, by simp⟩
  · exact fun r hr => State.get_set_of_ne _ _ fun heq => hargs (heq ▸ hr)
  · exact fun b _ => congrFun (State.mem_set _ _ _) _
  · intro k hk
    rw [loc_of_lt (show k < 15 by omega)]
    exact State.get_set_of_ne _ _ (slotReg_ne (by omega) h (by omega))

theorem emitConst_register (h : c.st.top < 15) :
    (Instruction.ofLiteral literal).emitCode c =
      .ok (finish c ⟨c.st.top + 1⟩ (emitLi (slotReg c.st.top) (toInt (2 * literal + 1)))) := by
  simp only [Instruction.ofLiteral, Instruction.emitCode, emitConst, SymbolicStack.alloc, loc_of_lt h]

theorem emitConst_memory (h : 15 ≤ c.st.top) :
    (Instruction.ofLiteral literal).emitCode c =
      .ok (finish c ⟨c.st.top + 1⟩ (emitLi Register.temp1 (toInt (2 * literal + 1)) ++
        emitSd Register.temp1 Register.fp (-(c.st.top - 15 : ℕ) * wordSize))) := by
  simp only [Instruction.ofLiteral, Instruction.emitCode, emitConst, SymbolicStack.alloc, loc_of_ge h]

theorem toInt_toInt (x : ℤ) : toInt (toInt x) = toInt x :=
  toInt_of_mem (toInt_spec x).1 (toInt_spec x).2.1

/-- The word of a boxed literal, when it is not cut off. -/
theorem ofInt_toInt_eq_iff (h₁ : -2 ^ 31 ≤ literal) (h₂ : literal < 2 ^ 31) :
    BitVec.ofInt 64 (toInt (2 * literal + 1)) = BitVec.ofInt 64 (2 * literal + 1) ↔
      -2 ^ 30 ≤ literal ∧ literal < 2 ^ 30 := by
  obtain ⟨hlo, hhi, -⟩ := toInt_spec (2 * literal + 1)
  constructor
  · intro heq
    have hint := congrArg BitVec.toInt heq
    rw [BitVec.toInt_ofInt, BitVec.toInt_ofInt, Int.bmod_eq_of_le (by omega) (by omega),
      Int.bmod_eq_of_le (by omega) (by omega)] at hint
    omega
  · rintro ⟨hlo', hhi'⟩
    rw [toInt_of_mem (by omega) (by omega)]

/-- A state in the body of a function with `locc` locals. -/
def emptyFrame (locc : ℕ) : State :=
  (⟨fun _ => 0, fun _ => 0⟩ : State).set Register.sp (below 0 (locc + 12))

theorem emptyFrame_fp (locc : ℕ) : (emptyFrame locc).get Register.fp = 0 :=
  State.get_set_of_ne _ _ (by decide)

theorem emptyFrame_sp (locc : ℕ) :
    (emptyFrame locc).get Register.sp = below ((emptyFrame locc).get Register.fp) (locc + 12) := by
  rw [emptyFrame_fp]
  exact get_spReg_set_sp _ _

/-- A spilled slot is not where `CONST` stores. -/
theorem exec_const_memory {sym : String → Word} {k : ℕ} {value : ℤ} (hlocc : locc + 12 < 2 ^ 28)
    (hk : k < 2 ^ 28) : (Loc.memory k).read (execLines sym (emitLi Register.temp1 value ++
      emitSd Register.temp1 Register.fp (-k * wordSize)) (emptyFrame locc)) = 0 := by
  have hload : ∀ a, (emptyFrame locc).load a = 0 := by
    intro a
    rw [emptyFrame, State.load_set]
    exact load_zero a
  have htemp : Register.sp ≠ Register.temp1 ∧ Register.fp ≠ Register.temp1 := by decide
  have hsp := emptyFrame_sp locc
  rw [emptyFrame_fp] at hsp
  simp only [execLines_append, emitLi, emitSd, execLines_cons, execLines_nil, Line.exec_op, Op.exec,
    Loc.read, State.get_store]
  rw [State.get_set_of_ne _ _ htemp.1, State.get_set_of_ne _ _ htemp.2, emptyFrame_fp, hsp,
    add_toInt_neg _ hk, below_below, State.load_store_of_apart, State.load_set, hload]
  exact below_apart _ (by omega) (by omega) (by omega)

/-- **When `CONST` is exact**: the boxed literal is an `int` and the slot is a register. -/
theorem constIsExact_iff (hlocc : locc + 12 < 2 ^ 28) (htop : c.st.top < 2 ^ 28)
    (h₁ : -2 ^ 31 ≤ literal) (h₂ : literal < 2 ^ 31) :
    ConstIsExact c locc literal ↔ (-2 ^ 30 ≤ literal ∧ literal < 2 ^ 30) ∧ c.st.top < 15 := by
  by_cases hreg : c.st.top < 15
  · have hpeek : (⟨c.st.top + 1⟩ : SymbolicStack).peek = .ok (.register (slotReg c.st.top)) := by
      rw [SymbolicStack.peek_of_pos (Nat.succ_pos _), ← loc_of_lt hreg]
      rfl
    have hvalue : ∀ sym s, (Loc.register (slotReg c.st.top)).read (execLines sym
        (emitLi (slotReg c.st.top) (toInt (2 * literal + 1))) s) =
        BitVec.ofInt 64 (toInt (2 * literal + 1)) := by
      intro sym s
      rw [emitLi, toInt_toInt]
      exact State.get_set_self _ _ (slotReg_ne_zero hreg)
    rw [and_iff_left hreg, ← ofInt_toInt_eq_iff h₁ h₂]
    constructor
    · rintro ⟨c', l, hemit, hl, hall, -⟩
      obtain rfl := Except.ok.inj ((emitConst_register hreg).symm.trans hemit)
      obtain rfl : Loc.register (slotReg c.st.top) = l := Except.ok.inj (hpeek.symm.trans hl)
      have hs := hall (fun _ => 0)
        ((Loc.register Register.sp).write ⟨fun _ => 0, fun _ => 0⟩ (below 0 (locc + 12)))
        (get_spReg_set_sp _ _)
      rw [added_finish, hvalue] at hs
      exact hs.1
    · intro heq
      refine ⟨_, _, emitConst_register hreg, hpeek, fun sym s _ => ?_, ?_⟩
      · rw [added_finish, hvalue]
        exact ⟨heq, KeepsFrame.set hreg locc s _⟩
      · obtain ⟨hlo, hhi⟩ := (ofInt_toInt_eq_iff h₁ h₂).1 heq
        have hprint : (2 * literal + 1) % 2 = 1 ∧ (2 * literal + 1) / 2 = literal := by omega
        rw [Instruction.ofLiteral, toInt_of_mem (by omega) (by omega)]
        simp only [Instruction.print, check, hprint, if_true]
        rfl
  · refine iff_of_false ?_ (fun h => hreg h.2)
    rintro ⟨c', l, hemit, hl, hall, -⟩
    obtain rfl := Except.ok.inj ((emitConst_memory (by omega)).symm.trans hemit)
    have hpeek : (⟨c.st.top + 1⟩ : SymbolicStack).peek = .ok (.memory (c.st.top - 15)) := by
      rw [SymbolicStack.peek_of_pos (Nat.succ_pos _), ← loc_of_ge (by omega)]
      rfl
    obtain rfl : Loc.memory (c.st.top - 15) = l := Except.ok.inj (hpeek.symm.trans hl)
    have hs := (hall (fun _ => 0) (emptyFrame locc) (emptyFrame_sp locc)).1
    rw [added_finish, exec_const_memory (by omega) (by omega)] at hs
    have hint := congrArg BitVec.toInt hs
    rw [BitVec.toInt_ofInt, Int.bmod_eq_of_le (by omega) (by omega)] at hint
    have hzero : (0 : Word).toInt = 0 := rfl
    omega

theorem constIsExact_iff_inFrame : ConstIsExact (inFrame 3) 0 (-5) ↔
    (-2 ^ 30 ≤ (-5 : ℤ) ∧ (-5 : ℤ) < 2 ^ 30) ∧ (inFrame 3).st.top < 15 :=
  constIsExact_iff (by decide) (by decide) (by decide) (by decide)

/-- A literal whose boxed form is not an `int`. -/
theorem literal_cut_off : ¬ ∀ (c : Compiler) (locc : ℕ) (literal : ℤ), locc + 12 < 2 ^ 28 →
    c.st.top < 2 ^ 28 → -2 ^ 31 ≤ literal → literal < 2 ^ 31 → ConstIsExact c locc literal := by
  intro h
  obtain ⟨c', l, hemit, -, -, hprint⟩ := h (inFrame 0) 0 (2 ^ 30) (by decide) (by decide) (by decide)
    (by decide)
  have hint : toInt (2 * 2 ^ 30 + 1) = -(2 ^ 31) + 1 := by
    unfold toInt
    decide
  rw [Instruction.ofLiteral, hint] at hprint
  revert hprint
  decide

end Const

end LamaRv
