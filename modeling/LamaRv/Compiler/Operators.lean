import LamaRv.Compiler.CodeExec
import LamaRv.Runtime.Infix

/-!
# Operators and their functions

The code of an operator and the runtime function that stands for it are compared through the
stack machine: both compute what the machine computes, except that the code of `&&` and `!!`
works on the bits of its operands.

* `compute_wide`: the code of the other operators;
* `OperatorAgrees`: the code leaves the word that the function returns;
* `operatorAgrees_iff`: when it does.
-/

namespace LamaRv

open ByteMemory Rv64 CodeBuffer Compiler TaggedInt

section Compute

variable {v w : Int63}

/-- The code of an operator computes what the stack machine computes. -/
theorem compute_wide {op : BinopKind} {r : Int63} (hand : op ≠ .and) (hor : op ≠ .or)
    (h : op.eval v w = some r) : op.compute (wide v) (wide w) <<< 1 + 1 = tagged r := by
  cases op with
  | and => exact absurd rfl hand
  | or => exact absurd rfl hor
  | div =>
    simp only [BinopKind.eval] at h
    split_ifs at h with hw
    have hwide : wide w ≠ 0 := fun h0 => hw (wide_inj.1 h0)
    rw [← Option.some.inj h, ← tag_sdiv, BinopKind.compute, if_neg hwide]
  | rem =>
    simp only [BinopKind.eval] at h
    split_ifs at h with hw
    have hwide : wide w ≠ 0 := fun h0 => hw (wide_inj.1 h0)
    rw [← Option.some.inj h, ← tag_srem, BinopKind.compute, if_neg hwide]
  | add => rw [← Option.some.inj h, ← tag_add, BinopKind.compute]
  | sub => rw [← Option.some.inj h, ← tag_sub, BinopKind.compute]
  | mul => rw [← Option.some.inj h, ← tag_mul, BinopKind.compute]
  | lessThan => rw [← Option.some.inj h, ← tag_ofBool, BinopKind.compute, slt_wide]
  | greaterThan => rw [← Option.some.inj h, ← tag_ofBool, BinopKind.compute, slt_wide]
  | lessEqual =>
    rw [← Option.some.inj h, ← tag_ofBool, BinopKind.compute, ofBool_xor_one, not_slt_wide]
  | greaterEqual =>
    rw [← Option.some.inj h, ← tag_ofBool, BinopKind.compute, ofBool_xor_one, not_slt_wide]
  | equal => rw [← Option.some.inj h, ← tag_ofBool, BinopKind.compute, beq_wide]
  | notEqual =>
    rw [← Option.some.inj h, ← tag_ofBool, BinopKind.compute, bne, beq_wide]
    rfl
  | other m hm => cases h

theorem wide_eq_signExtend (v : Int63) : wide v = v.signExtend 64 := by
  rw [wide, BitVec.signExtend]

/-- The code of `&&` and of `!!` works on the bits. -/
theorem compute_and : BinopKind.and.compute (wide v) (wide w) <<< 1 + 1 = tagged (v &&& w) := by
  rw [BinopKind.compute, wide_eq_signExtend, wide_eq_signExtend, ← BitVec.signExtend_and,
    ← wide_eq_signExtend, wide, tag_ofInt, BitVec.ofInt_toInt]

theorem compute_or : BinopKind.or.compute (wide v) (wide w) <<< 1 + 1 = tagged (v ||| w) := by
  rw [BinopKind.compute, wide_eq_signExtend, wide_eq_signExtend, ← BitVec.signExtend_or,
    ← wide_eq_signExtend, wide, tag_ofInt, BitVec.ofInt_toInt]

end Compute

/-! ### Bits as truth values -/

section Bits

variable {v w : Int63}

/-- The bits of an operator are its truth value: one operand of `&&` is false or both have the
lowest bit in common and no other, and both operands of `!!` are `0` or `1`.  A number without a name
has no function to agree with. -/
def BinopKind.BitsAgree : BinopKind → Int63 → Int63 → Prop
  | .and, v, w => v = 0 ∨ w = 0 ∨ v &&& w = 1
  | .or, v, w => (v = 0 ∨ v = 1) ∧ (w = 0 ∨ w = 1)
  | .other _ _, _, _ => False
  | _, _, _ => True

theorem and_zero_eq (v : Int63) : v &&& 0 = 0 := BitVec.and_zero

theorem and_eq_truth_iff : v &&& w = ofTruth (v != 0 && w != 0) ↔ BinopKind.and.BitsAgree v w := by
  by_cases hv : v = 0
  · subst hv
    exact iff_of_true BitVec.zero_and (Or.inl rfl)
  by_cases hw : w = 0
  · subst hw
    refine iff_of_true ?_ (Or.inr (Or.inl rfl))
    rw [and_zero_eq, bne_self_eq_false, Bool.and_false]
    rfl
  have htruth : (v != 0 && w != 0) = true := by
    rw [bne_iff_ne.2 hv, bne_iff_ne.2 hw]
    rfl
  rw [htruth]
  constructor
  · exact fun h => Or.inr (Or.inr h)
  · rintro (h | h | h)
    · exact absurd h hv
    · exact absurd h hw
    · exact h

/-- An integer whose bits are among those of `1`. -/
theorem eq_zero_or_one (h : v &&& 1 = v) : v = 0 ∨ v = 1 := by
  have hbit : v &&& 1 = (BitVec.ofBool (v.getLsbD 0)).setWidth 63 :=
    BitVec.and_one_eq_setWidth_ofBool_getLsbD
  rw [← h, hbit]
  cases v.getLsbD 0
  · exact Or.inl rfl
  · exact Or.inr rfl

theorem or_eq_truth_iff : v ||| w = ofTruth (v != 0 || w != 0) ↔ BinopKind.or.BitsAgree v w := by
  constructor
  · intro h
    have hor : v ||| w = 0 ∨ v ||| w = 1 := by
      rw [h]
      cases v != 0 || w != 0
      · exact Or.inl rfl
      · exact Or.inr rfl
    have hv : v &&& (v ||| w) = v := by
      ext i hi
      simp only [BitVec.getElem_and, BitVec.getElem_or]
      grind
    have hw : w &&& (v ||| w) = w := by
      ext i hi
      simp only [BitVec.getElem_and, BitVec.getElem_or]
      grind
    rcases hor with h0 | h1
    · rw [h0, and_zero_eq] at hv hw
      exact ⟨Or.inl hv.symm, Or.inl hw.symm⟩
    · rw [h1] at hv hw
      exact ⟨eq_zero_or_one hv, eq_zero_or_one hw⟩
  · rintro ⟨rfl | rfl, rfl | rfl⟩ <;> decide

end Bits

/-! ### Agreement -/

/-- The code of an operator, executed on two integers in register slots, leaves in the result
slot what the function of the operator returns for them. -/
def OperatorAgrees (c : Compiler) (op : BinopKind) (v w : Int63) : Prop :=
  ∃ c' l, (Instruction.binop op).emitCode c = .ok c' ∧ c'.st.peek = .ok l ∧
    ∀ (sym : String → Word) (s : State), s.get (slotReg (c.st.top - 2)) = tagged v →
      s.get (slotReg (c.st.top - 1)) = tagged w →
      op.synonym (tagged v) (tagged w) = .ok (l.value (execLines sym (added c c') s))

section Agree

variable {c : Compiler} {op : BinopKind} {v w : Int63}

theorem exists_emitBinop (h : 2 ≤ c.st.top) (op : BinopKind) :
    ∃ c', c.emitBinop op = .ok c' := by
  have hpop : (⟨c.st.top - 1⟩ : SymbolicStack).pop =
      .ok (SymbolicStack.loc (c.st.top - 1 - 1), ⟨c.st.top - 1 - 1⟩) :=
    SymbolicStack.pop_of_pos (by simp only; omega)
  unfold emitBinop
  simp only [bind_ok, return_ok, Prod.exists, SymbolicStack.pop_of_pos (show 0 < c.st.top by omega)]
  exact ⟨_, _, _, rfl, _, _, hpop, rfl⟩

/-- The code and the function agree when they compute the same word. -/
theorem operatorAgrees_iff_compute (h2 : 2 ≤ c.st.top) (h15 : c.st.top ≤ 15) :
    OperatorAgrees c op v w ↔
      op.synonym (tagged v) (tagged w) = .ok (op.compute (wide v) (wide w) <<< 1 + 1) := by
  obtain ⟨c', hemit⟩ := exists_emitBinop h2 op
  obtain ⟨-, hst, -⟩ := exec_emitBinop (fun _ => 0) hemit h15 ⟨fun _ => 0, fun _ => 0⟩
  have hpeek : c'.st.peek = .ok (.register (slotReg (c.st.top - 2))) := by
    rw [hst, SymbolicStack.peek_of_pos (by simp only; omega), loc_of_lt (by simp only; omega)]
    rfl
  have hvalue : ∀ (sym : String → Word) (s : State), s.get (slotReg (c.st.top - 2)) = tagged v →
      s.get (slotReg (c.st.top - 1)) = tagged w →
      (Loc.register (slotReg (c.st.top - 2))).value (execLines sym (added c c') s) =
        op.compute (wide v) (wide w) <<< 1 + 1 := by
    intro sym s hv hw
    obtain ⟨-, -, hexec⟩ := exec_emitBinop sym hemit h15 s
    rw [hexec, Loc.value, State.get_set_self _ _ (slotReg_ne_zero (by omega)), hv, hw, untag, untag]
  constructor
  · rintro ⟨d, l, hd, hl, hagree⟩
    obtain rfl : c' = d := Except.ok.inj (hemit.symm.trans hd)
    obtain rfl : Loc.register (slotReg (c.st.top - 2)) = l := Except.ok.inj (hpeek.symm.trans hl)
    obtain ⟨s, hs⟩ := exists_operands [tagged v, tagged w] h2 h15
    have hv : s.get (slotReg (c.st.top - 2)) = tagged v := hs 0 (by simp)
    have hw : s.get (slotReg (c.st.top - 1)) = tagged w := by
      rw [show c.st.top - 1 = c.st.top - 2 + 1 by omega]
      exact hs 1 (by simp)
    rw [hagree (fun _ => 0) s hv hw, hvalue (fun _ => 0) s hv hw]
  · intro h
    refine ⟨c', _, hemit, hpeek, fun sym s hv hw => ?_⟩
    rw [h, hvalue sym s hv hw]

/-- **When an operator and its function agree**: always, but for `&&` and `!!`, whose code works on
the bits of the operands. -/
theorem operatorAgrees_iff (h2 : 2 ≤ c.st.top) (h15 : c.st.top ≤ 15)
    (hw : op = .div ∨ op = .rem → w ≠ 0) : OperatorAgrees c op v w ↔ op.BitsAgree v w := by
  rw [operatorAgrees_iff_compute h2 h15]
  by_cases hand : op = .and
  · subst hand
    rw [synonym_tagged rfl, compute_and, Except.ok.injEq, tagged_injective.eq_iff, eq_comm]
    exact and_eq_truth_iff
  by_cases hor : op = .or
  · subst hor
    rw [synonym_tagged rfl, compute_or, Except.ok.injEq, tagged_injective.eq_iff, eq_comm]
    exact or_eq_truth_iff
  by_cases hother : ∃ m hm, op = .other m hm
  · obtain ⟨m, hm, rfl⟩ := hother
    exact iff_of_false (fun h => by cases h) id
  have hbits : op.BitsAgree v w := by
    cases op with
    | other m hm => exact absurd ⟨m, hm, rfl⟩ hother
    | and => exact absurd rfl hand
    | or => exact absurd rfl hor
    | _ => trivial
  have heval : ∃ r, op.eval v w = some r := by
    cases op with
    | other m hm => exact absurd ⟨m, hm, rfl⟩ hother
    | div => exact ⟨_, if_neg (hw (Or.inl rfl))⟩
    | rem => exact ⟨_, if_neg (hw (Or.inr rfl))⟩
    | _ => exact ⟨_, rfl⟩
  obtain ⟨r, hr⟩ := heval
  refine iff_of_true ?_ hbits
  rw [synonym_tagged hr, compute_wide hand hor hr]

theorem operatorAgrees_iff_inFrame : OperatorAgrees (inFrame 2) .div 7 2 ↔ BinopKind.div.BitsAgree 7 2 :=
  operatorAgrees_iff (by decide) (by decide) (by decide)

/-- `1 && 2` is `0` in the code and `1` in the function. -/
theorem conjunction_of_one_and_two : ¬ ∀ (c : Compiler) (op : BinopKind) (v w : Int63),
    1 ≤ op.number ∧ op.number ≤ 13 → 2 ≤ c.st.top → c.st.top ≤ 15 → (op = .div ∨ op = .rem → w ≠ 0) →
    OperatorAgrees c op v w := by
  intro h
  have hagree := h (inFrame 2) .and 1 2 (by decide) (by decide) (by decide) (by decide)
  rw [operatorAgrees_iff_compute (by decide) (by decide), synonym_tagged rfl, compute_and,
    Except.ok.injEq, tagged_injective.eq_iff] at hagree
  exact absurd hagree (by decide)

end Agree

end LamaRv
