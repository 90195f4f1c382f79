import LamaRv.Runtime.Sexp

/-!
# Constructor names

`SEXP` and `TAG` pass the boxed hash of a constructor name as an immediate, which is an `int`, so
the runtime sees the hash modulo `2^31`, as a signed number.  A name of up to five characters
survives; of longer ones only the last five characters and one bit more.

* `exec_emitSExpression`, `exec_emitTag`: what the runtime functions get;
* `constructor_names_iff`: which names survive, and which tests answer right.
-/

namespace LamaRv

open ByteMemory Rv64 CodeBuffer Compiler

/-- The value that unboxing an immediate gives. -/
def immediateValue (imm : ℤ) : Word := BitVec.ofInt 64 (toInt imm / 2)

theorem unbox_immediate (imm : ℤ) : unbox (BitVec.ofInt 64 (toInt imm)) = immediateValue imm := by
  obtain ⟨h1, h2, -⟩ := toInt_spec imm
  exact unbox_ofInt (by omega) (by omega)

theorem toInt_immediateValue (imm : ℤ) : (immediateValue imm).toInt = toInt imm / 2 := by
  obtain ⟨h1, h2, -⟩ := toInt_spec imm
  rw [immediateValue, BitVec.toInt_ofInt, Int.bmod_eq_of_le (by omega) (by omega)]

/-- Boxed numbers have the same value as immediates when they agree modulo `2^31`. -/
theorem immediateValue_eq_iff (x y : ℕ) :
    immediateValue (2 * x + 1) = immediateValue (2 * y + 1) ↔ x % 2 ^ 31 = y % 2 ^ 31 := by
  obtain ⟨hx1, hx2, kx, hx⟩ := toInt_spec (2 * x + 1)
  obtain ⟨hy1, hy2, ky, hy⟩ := toInt_spec (2 * y + 1)
  rw [← BitVec.toInt_inj, toInt_immediateValue, toInt_immediateValue]
  omega

/-- The immediate of a small boxed number is the number. -/
theorem immediateValue_of_lt {x : ℕ} (h : x < 2 ^ 30) :
    immediateValue (2 * x + 1) = BitVec.ofNat 64 x := by
  rw [immediateValue, toInt_of_mem (by omega) (by omega), ← BitVec.ofInt_natCast]
  congr 1
  omega

/-! ### The emitted calls -/

/-- The lines between two states of the compiler call a runtime function; `P` holds of every
state in which it is called and the state from which that was reached. -/
def CallsRuntime (c c' : Compiler) (name : String)
    (P : (String → Word) → State → State → Prop) : Prop :=
  ∃ before after, c'.cb = c.cb ++ (before ++ Line.call name :: after) ∧ (∀ l ∈ before, l.straight) ∧
    ∀ sym s, P sym s (execLines sym before s)

theorem CallsRuntime.unique {c c' : Compiler} {name : String}
    {P Q : (String → Word) → State → State → Prop} (h : CallsRuntime c c' name P)
    (h' : CallsRuntime c c' name Q) : CallsRuntime c c' name fun sym s t => P sym s t ∧ Q sym s t := by
  obtain ⟨before, after, htext, hstraight, hp⟩ := h
  obtain ⟨before', after', htext', hstraight', hq⟩ := h'
  rw [htext] at htext'
  obtain ⟨rfl, rfl⟩ := split_unique (List.append_cancel_left htext') hstraight hstraight'
  exact ⟨before, after, htext, hstraight, fun sym s => ⟨hp sym s, hq sym s⟩⟩

theorem CallsRuntime.mono {c c' : Compiler} {name : String}
    {P Q : (String → Word) → State → State → Prop} (h : CallsRuntime c c' name P)
    (hpq : ∀ sym s t, P sym s t → Q sym s t) : CallsRuntime c c' name Q := by
  obtain ⟨before, after, htext, hstraight, hp⟩ := h
  exact ⟨before, after, htext, hstraight, fun sym s => hpq sym s _ (hp sym s)⟩

/-- Some state leads to the call. -/
theorem CallsRuntime.exists {c c' : Compiler} {name : String}
    {P : (String → Word) → State → State → Prop} (h : CallsRuntime c c' name P) (s : State) :
    ∃ sym t, P sym s t := by
  obtain ⟨before, after, -, -, hp⟩ := h
  exact ⟨fun _ => 0, _, hp _ s⟩

/-- A call of a runtime function, by its entry state. -/
theorem callsRuntime_compileCall {c c' : Compiler} {name : String} {argc : ℕ} {opt : Option ℤ}
    (h : c.compileCall (.inl name) argc opt = .ok c') :
    argc ≤ c.st.top ∧ CallsRuntime c c' name fun _ s t => ∃ alignment,
      CallEntry c.st argc opt alignment s t := by
  obtain ⟨hle, f, before, label, after, -, hname, htext, hstraight, hexec⟩ := compileCall_exec h
  obtain rfl := hname name rfl
  exact ⟨hle, before, after, htext, hstraight, fun sym s => ⟨_, (hexec sym s).1⟩⟩

@[simp] theorem pushLi_top (c : Compiler) (imm : ℤ) : (c.pushLi imm).st.top = c.st.top + 1 := rfl

theorem pushLi_cb (c : Compiler) (imm : ℤ) :
    (c.pushLi imm).cb = c.cb ++ symbEmitLi (SymbolicStack.loc c.st.top) imm := rfl

/-- An immediate that is pushed before. -/
theorem CallsRuntime.pushLi {c c' : Compiler} {name : String} {imm : ℤ}
    {P : (String → Word) → State → State → Prop} (htop : c.st.top < 15)
    (h : CallsRuntime (Compiler.pushLi c imm) c' name P) : CallsRuntime c c' name fun sym s t =>
      P sym (s.set (slotReg c.st.top) (BitVec.ofInt 64 (toInt imm))) t := by
  obtain ⟨before, after, htext, hstraight, hp⟩ := h
  refine ⟨symbEmitLi (SymbolicStack.loc c.st.top) imm ++ before, after, ?_, ?_, fun sym s => ?_⟩
  · rw [htext, pushLi_cb, List.append_assoc, List.append_assoc]
  · intro l hl
    rcases List.mem_append.1 hl with hl | hl
    · exact (ops_symbEmitLi _ _).straight l hl
    · exact hstraight l hl
  · rw [execLines_append, loc_of_lt htop, exec_symbEmitLi]
    exact hp sym _

/-- With all arguments in registers a call writes its save area only. -/
theorem CallEntry.load_of_apart {st : SymbolicStack} {argc : ℕ} {opt : Option ℤ} {alignment : Bool}
    {s t : State} (h : CallEntry st argc opt alignment s t) (hst : st.top ≤ 15)
    (hargs : argc + opt.toList.length ≤ 8) {a : Word}
    (ha : ∀ j < 16, Apart (below (s.get Register.sp) (j + 1)) a) : t.load a = s.load a := by
  obtain ⟨vs, hlen, hmem, -⟩ := h.mem
  have hvs : vs = [] := List.eq_nil_of_length_eq_zero (by omega)
  have hbase : saveBase s st.spilledCount = s.get Register.sp := by
    rw [SymbolicStack.spilledCount_eq, show st.top - 15 = 0 by omega, saveBase,
      add_toInt_neg _ (by omega), below_zero]
  rw [State.load, hmem, hvs, State.pushes_nil, State.mem_set, savedState, hbase]
  refine (State.load_pushes_of_apart _ _ ?_).trans (State.load_set _ _ _ _)
  intro j hj
  rw [get_spReg_set_sp]
  exact ha j hj

/-- What `RVBsexp` gets: the number of its arguments, and the hash as the last one. -/
theorem exec_emitSExpression {c c' : Compiler} {name : String} {size : ℕ}
    (h : c.emitSExpression name size = .ok c') (hname : IsTagName name.toList)
    (htop : c.st.top < 15) (hsize : size + 2 ≤ 8) :
    CallsRuntime c c' "RVBsexp" fun _ _ t =>
      param t 0 = BitVec.ofInt 64 (toInt (boxSum size 1)) ∧
      vaArg t size =
        BitVec.ofInt 64 (toInt (2 * pack (name.toList.take maxSexpTaglen) + 1)) := by
  unfold emitSExpression at h
  rw [ltagHash_eq hname] at h
  obtain ⟨hle, hcall⟩ := callsRuntime_compileCall h
  rw [pushLi_top] at hle
  refine (hcall.pushLi htop).mono ?_
  rintro sym s t ⟨alignment, hentry⟩
  have hmin : min (size + 1) (8 - (some (boxSum size 1)).toList.length) = size + 1 := by
    simp
    omega
  have hargs := hentry.args (by rw [pushLi_top]; omega) size (by rw [hmin]; omega)
  rw [hmin, pushLi_top, show c.st.top + 1 - (size + 1) + size = c.st.top by omega,
    State.get_set_self _ _ (regs_avoid _ (slotReg_mem htop)).1] at hargs
  refine ⟨hentry.extra _ rfl, ?_⟩
  rw [vaArg, param, if_pos (by omega), Nat.add_comm]
  exact hargs

/-- What `Btag` gets: the operand, the hash and the number of fields; memory apart from the save
area is as before. -/
theorem exec_emitTag {d d' : Compiler} {tag : String} {size : ℕ}
    (h : d.emitTag tag size = .ok d') (htag : IsTagName tag.toList) (htop : d.st.top ≤ 13) :
    0 < d.st.top ∧ CallsRuntime d d' "Btag" fun _ s t =>
      param t 0 = s.get (slotReg (d.st.top - 1)) ∧
      param t 1 = BitVec.ofInt 64 (toInt (2 * pack (tag.toList.take maxSexpTaglen) + 1)) ∧
      param t 2 = BitVec.ofInt 64 (toInt (2 * size + 1)) ∧
      ∀ a, (∀ j < 16, Apart (below (s.get Register.sp) (j + 1)) a) → t.load a = s.load a := by
  unfold emitTag at h
  rw [ltagHash_eq htag] at h
  obtain ⟨hle, hcall⟩ := callsRuntime_compileCall h
  rw [pushLi_top, pushLi_top] at hle
  refine ⟨by omega, ((hcall.pushLi (by rw [pushLi_top]; omega)).pushLi (by omega)).mono ?_⟩
  rintro sym s t ⟨alignment, hentry⟩
  have hargs : ∀ i < 3, param t i = ((s.set (slotReg d.st.top)
      (BitVec.ofInt 64 (toInt (2 * pack (tag.toList.take maxSexpTaglen) + 1)))).set
      (slotReg (d.st.top + 1)) (BitVec.ofInt 64 (toInt (boxSum size 0)))).get
      (slotReg (d.st.top - 1 + i)) := by
    intro i hi
    have h := hentry.args (by rw [pushLi_top, pushLi_top]; omega) i hi
    simp only [Option.toList_none, List.length_nil, Nat.zero_add, pushLi_top] at h
    rw [show d.st.top + 1 + 1 - min 3 (8 - 0) + i = d.st.top - 1 + i by omega] at h
    rw [param, if_pos (by omega)]
    exact h
  have hne : ∀ k < 15, slotReg k ≠ 0 := fun k hk => (regs_avoid _ (slotReg_mem hk)).1
  have hinj : ∀ j < 15, ∀ k < 15, j ≠ k → slotReg j ≠ slotReg k :=
    fun j hj k hk hjk heq => hjk (slotReg_inj hj hk heq)
  refine ⟨?_, ?_, ?_, fun a ha => ?_⟩
  · rw [hargs 0 (by omega), State.get_set_of_ne _ _ (hinj _ (by omega) _ (by omega) (by omega)),
      State.get_set_of_ne _ _ (hinj _ (by omega) _ (by omega) (by omega)), Nat.add_zero]
  · rw [hargs 1 (by omega), State.get_set_of_ne _ _ (hinj _ (by omega) _ (by omega) (by omega)),
      Nat.sub_add_cancel (by omega), State.get_set_self _ _ (hne _ (by omega))]
  · rw [hargs 2 (by omega), show d.st.top - 1 + 2 = d.st.top + 1 by omega,
      State.get_set_self _ _ (hne _ (by omega)), boxSum, add_zero]
  · have hsp : ∀ k < 15, Register.sp ≠ slotReg k :=
      fun k hk => (slotReg_avoid hk).1.symm
    have hload := hentry.load_of_apart (by simp only [pushLi_top]; omega) (by decide) (a := a)
    simp only [pushLi_top] at hload
    rw [State.get_set_of_ne _ _ (hsp _ (by omega)), State.get_set_of_ne _ _ (hsp _ (by omega))]
      at hload
    rw [hload ha, State.load_set, State.load_set]

/-! ### Names -/

/-- The tag of the object that `SEXP` builds decodes to the first ten characters of its name. -/
def NameSurvives (c c' : Compiler) (name : String) : Prop :=
  CallsRuntime c c' "RVBsexp" fun _ _ t => ∀ relocate,
    deHash (rvBsexp relocate t).tag.toInt = some (name.toList.take maxSexpTaglen)

/-- `TAG` on an object that `SEXP` built answers `answer`. -/
def TagAnswers (c c' d d' : Compiler) (answer : Prop) [Decidable answer] : Prop :=
  CallsRuntime c c' "RVBsexp" fun _ _ t => ∀ relocate,
    CallsRuntime d d' "Btag" fun _ s u =>
      HoldsSexp u.mem (s.get (slotReg (d.st.top - 1))) (rvBsexp relocate t) →
        btag u.mem (param u 0) (param u 1) (param u 2) = box (ofBool answer)

/-- The object that `SEXP` builds. -/
theorem rvBsexp_eq {t : State} {size : ℕ} (hsize : size + 2 ≤ 8) {hash : ℤ}
    (hcount : param t 0 = BitVec.ofInt 64 (toInt (boxSum size 1)))
    (hhash : vaArg t size = BitVec.ofInt 64 (toInt hash)) (relocate : Word → Word) :
    (rvBsexp relocate t).dataHeader = sexpTag ||| BitVec.ofNat 64 size <<< 3 ∧
      (rvBsexp relocate t).tag = immediateValue hash := by
  have hn : unbox (param t 0) = BitVec.ofNat 64 (size + 1) := by
    rw [hcount, unbox_immediate, immediateValue, boxSum, toInt_of_mem (by omega) (by omega),
      ← BitVec.ofInt_natCast]
    congr 1
    omega
  have hfields : BitVec.ofNat 64 (size + 1) - 1 = BitVec.ofNat 64 size := by
    bv_omega
  have hint : ∀ k < 8, (BitVec.ofNat 64 k).toInt.toNat = k := by decide
  refine ⟨?_, ?_⟩
  · simp only [rvBsexp, bsexp, hn, hfields, allocSexp]
  · simp only [rvBsexp, bsexp, hn, hfields, hint size (by omega), hint (size + 1) (by omega)]
    rw [List.getD_eq_getElem?_getD, List.getElem?_map, List.getElem?_range (by omega),
      Option.map_some, Option.getD_some, hhash, unbox_immediate]

/-- A name survives when it is short. -/
theorem nameSurvives_iff {c c' : Compiler} {name : String} {size : ℕ}
    (h : c.emitSExpression name size = .ok c') (hname : IsTagName name.toList)
    (htop : c.st.top < 15) (hsize : size + 2 ≤ 8) :
    NameSurvives c c' name ↔ name.toList.length ≤ 5 := by
  have hcall := exec_emitSExpression h hname htop hsize
  constructor
  · intro hsurvives
    obtain ⟨sym, t, hback, hcount, hhash⟩ := (hsurvives.unique hcall).exists ⟨fun _ => 0, fun _ => 0⟩
    have hback := hback id
    rw [(rvBsexp_eq hsize hcount hhash id).2, toInt_immediateValue] at hback
    obtain ⟨-, hlt, -⟩ := toInt_spec (2 * pack (name.toList.take maxSexpTaglen) + 1)
    have hlen := deHashLoop_length (k := 5) hback (by omega)
    rw [List.length_take, List.length_nil, maxSexpTaglen] at hlen
    omega
  · intro hlen
    refine hcall.mono fun sym s t ht relocate => ?_
    have htake : name.toList.take maxSexpTaglen = name.toList :=
      List.take_of_length_le (hlen.trans (by decide))
    have hlt : pack name.toList < 2 ^ 30 :=
      (pack_lt hname.alphabet).trans_le (Nat.pow_le_pow_right (by decide) hlen)
    rw [(rvBsexp_eq hsize ht.1 ht.2 relocate).2, htake, immediateValue_of_lt hlt,
      ← BitVec.ofInt_natCast, BitVec.toInt_ofInt, Int.bmod_eq_of_le (by omega) (by omega)]
    exact deHash_pack hname (hlen.trans (by decide))

/-- What `TAG` answers on an object that `SEXP` built. -/
theorem btag_rvBsexp {t u : State} {p : Word} {name tag : String} {m n : ℕ}
    (hname : IsTagName name.toList) (htag : IsTagName tag.toList) (hm : m + 2 ≤ 8) (hn : n < 2 ^ 31)
    {relocate : Word → Word} (hcount : param t 0 = BitVec.ofInt 64 (toInt (boxSum m 1)))
    (hhash : vaArg t m = BitVec.ofInt 64 (toInt (2 * pack (name.toList.take maxSexpTaglen) + 1)))
    (hholds : HoldsSexp u.mem p (rvBsexp relocate t)) :
    btag u.mem p (BitVec.ofInt 64 (toInt (2 * pack (tag.toList.take maxSexpTaglen) + 1)))
      (BitVec.ofInt 64 (toInt (2 * n + 1))) =
        box (ofBool (SameTail name.toList tag.toList ∧ m = n)) := by
  obtain ⟨hheader, htagField⟩ := rvBsexp_eq hm hcount hhash relocate
  obtain ⟨h1, h2⟩ := header_ofNat m (by omega)
  rw [btag_eq hholds, hheader, htagField, h1, h2, unbox_immediate, unbox_immediate,
    ← immediateValue_of_lt (x := m) (by omega)]
  congr 2
  rw [Bool.eq_iff_iff]
  simp only [Bool.and_eq_true, beq_iff_eq, decide_eq_true_eq, immediateValue_eq_iff,
    pack_mod_eq_iff hname.alphabet htag.alphabet, true_and]
  rw [Nat.mod_eq_of_lt (show m < 2 ^ 31 by omega), Nat.mod_eq_of_lt hn]

/-- Some state has an object in a register, apart from the save area of a call. -/
theorem exists_holdsSexp (o : Sexp) {r : Reg} (hr : r ≠ 0) (hsp : r ≠ Register.sp) :
    ∃ s : State, HoldsSexp s.mem (s.get r) o ∧ ∀ j < 16,
      Apart (below (s.get Register.sp) (j + 1)) (s.get r) ∧
      Apart (below (s.get Register.sp) (j + 1)) (s.get r - 16) := by
  obtain ⟨s, hs⟩ : ∃ s : State, s = ((⟨fun _ => 0, fun _ => 0⟩ : State).set r (below 0 100)).store
    (below 0 102) o.dataHeader := ⟨_, rfl⟩
  have hlow : below 0 100 - 16 = below 0 102 := by
    unfold below
    decide
  refine ⟨s.store (below 0 100) o.tag, ?_, fun j hj => ?_⟩
  · rw [State.get_store, hs, State.get_store, State.get_set_self _ _ hr]
    refine ⟨by unfold below; decide, ?_, load_store_self _ _ _⟩
    rw [hlow]
    refine (load_store_of_apart _ (below_apart 0 (by decide) (by decide) (by decide))).trans ?_
    exact load_store_self _ _ _
  · rw [State.get_store, State.get_store, hs, State.get_store, State.get_store,
      State.get_set_self _ _ hr, State.get_set_of_ne _ _ hsp.symm, hlow]
    exact ⟨below_apart 0 (by omega) (by omega) (by decide),
      below_apart 0 (by omega) (by omega) (by decide)⟩

/-- A test answers right when the names differ in the part that survives, or not at all in their
first ten characters. -/
theorem tagAnswers_iff {c c' d d' : Compiler} {name tag : String} {m n : ℕ}
    (hsexp : c.emitSExpression name m = .ok c') (htest : d.emitTag tag n = .ok d')
    (hname : IsTagName name.toList) (htag : IsTagName tag.toList) (hc : c.st.top < 15)
    (hd : d.st.top ≤ 13) (hm : m + 2 ≤ 8) (hn : n < 2 ^ 31) :
    TagAnswers c c' d d'
        (name.toList.take maxSexpTaglen = tag.toList.take maxSexpTaglen ∧ m = n) ↔
      (SameTail name.toList tag.toList → m = n →
        name.toList.take maxSexpTaglen = tag.toList.take maxSexpTaglen) := by
  have hbuild := exec_emitSExpression hsexp hname hc hm
  obtain ⟨hpos, hcall⟩ := exec_emitTag htest htag hd
  have hsame : name.toList.take maxSexpTaglen = tag.toList.take maxSexpTaglen →
      SameTail name.toList tag.toList := by
    intro h
    rw [← pack_mod_eq_iff hname.alphabet htag.alphabet, h]
  constructor
  · intro hanswers htail hmn
    obtain ⟨-, t, hanswer, hcount, hhash⟩ :=
      (hanswers.unique hbuild).exists ⟨fun _ => 0, fun _ => 0⟩
    have hslot : d.st.top - 1 < 15 := by omega
    obtain ⟨s, hholds, hapart⟩ := exists_holdsSexp (rvBsexp id t)
      (regs_avoid _ (slotReg_mem hslot)).1 (slotReg_avoid hslot).1
    -- the object is still there when `Btag` is called
    obtain ⟨before, after, -, -, hboth⟩ := (hanswer id).unique hcall
    obtain ⟨hbtag, h0, h1, h2, hmem⟩ := hboth (fun _ => 0) s
    have hholds' : HoldsSexp (execLines (fun _ => 0) before s).mem (s.get (slotReg (d.st.top - 1)))
        (rvBsexp id t) :=
      ⟨hholds.boxed, (hmem _ fun j hj => (hapart j hj).2).trans hholds.header,
        (hmem _ fun j hj => (hapart j hj).1).trans hholds.tag⟩
    have hright := hbtag hholds'
    rw [h0, h1, h2, btag_rvBsexp hname htag hm hn hcount hhash hholds'] at hright
    have := box_injective hright
    rw [decide_eq_decide] at this
    exact (this.1 ⟨htail, hmn⟩).1
  · intro h
    refine hbuild.mono fun sym s t ht relocate => hcall.mono fun sym' s' u hu hholds => ?_
    rw [hu.1, hu.2.1, hu.2.2.1]
    rw [btag_rvBsexp hname htag hm hn ht.1 ht.2 hholds]
    congr 2
    rw [decide_eq_decide]
    exact ⟨fun h' => ⟨h h'.1 h'.2, h'.2⟩, fun h' => ⟨hsame h'.1, h'.2⟩⟩

/-- With all arguments in registers, the constructor's name survives when it has at most five
characters, and a test answers right when names with the same tail are not confused. -/
theorem constructor_names_iff {c c' d d' : Compiler} {name tag : String} {m n : ℕ}
    (hsexp : c.emitSExpression name m = .ok c') (htest : d.emitTag tag n = .ok d')
    (hname : IsTagName name.toList) (htag : IsTagName tag.toList) (hc : c.st.top < 15)
    (hd : d.st.top ≤ 13) (hm : m + 2 ≤ 8) (hn : n < 2 ^ 31) :
    (NameSurvives c c' name ↔ name.toList.length ≤ 5) ∧
      (TagAnswers c c' d d'
          (name.toList.take maxSexpTaglen = tag.toList.take maxSexpTaglen ∧ m = n) ↔
        (SameTail name.toList tag.toList → m = n →
          name.toList.take maxSexpTaglen = tag.toList.take maxSexpTaglen)) :=
  ⟨nameSurvives_iff hsexp hname hc hm, tagAnswers_iff hsexp htest hname htag hc hd hm hn⟩

/-- A short name survives. -/
theorem constructor_names_iff_cons :
    ∃ c' d', (inFrame 2).emitSExpression "Cons" 2 = .ok c' ∧ (inFrame 1).emitTag "Nil" 2 = .ok d' ∧
      NameSurvives (inFrame 2) c' "Cons" ∧ TagAnswers (inFrame 2) c' (inFrame 1) d'
        ("Cons".toList.take maxSexpTaglen = "Nil".toList.take maxSexpTaglen ∧ 2 = 2) := by
  have hcons : IsTagName "Cons".toList := .of_all (by decide) (by decide) (by decide)
  have hnil : IsTagName "Nil".toList := .of_all (by decide) (by decide) (by decide)
  obtain ⟨c', hc'⟩ : ∃ c', (inFrame 2).emitSExpression "Cons" 2 = .ok c' := by
    unfold emitSExpression
    rw [ltagHash_eq hcons]
    exact ⟨_, rfl⟩
  obtain ⟨d', hd'⟩ : ∃ d', (inFrame 1).emitTag "Nil" 2 = .ok d' := by
    unfold emitTag
    rw [ltagHash_eq hnil]
    exact ⟨_, rfl⟩
  obtain ⟨h1, h2⟩ := constructor_names_iff hc' hd' hcons hnil (by decide) (by decide) (by decide)
    (by decide)
  exact ⟨c', d', hc', hd', h1.2 (by decide), h2.2 (by decide)⟩

/-- A name of six characters does not. -/
theorem branch_lost :
    ∃ c', (inFrame 0).emitSExpression "Branch" 0 = .ok c' ∧ ¬ NameSurvives (inFrame 0) c' "Branch" := by
  have hbranch : IsTagName "Branch".toList := .of_all (by decide) (by decide) (by decide)
  obtain ⟨c', hc'⟩ : ∃ c', (inFrame 0).emitSExpression "Branch" 0 = .ok c' := by
    unfold emitSExpression
    rw [ltagHash_eq hbranch]
    exact ⟨_, rfl⟩
  refine ⟨c', hc', fun h => ?_⟩
  exact absurd ((nameSurvives_iff hc' hbranch (by decide) (by decide)).1 h) (by decide)

end LamaRv
