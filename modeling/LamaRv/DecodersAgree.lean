import LamaRv.Decoders

/-!
# The two decoders agree

The regression tests compare the lines of `disasm` with those of `bcdump`.  Here the two are
compared on every code section that is a sequence of encoded instructions and a stop.

* `SameFrom`: from two places the decoders print the same lines;
* `decodersAgree_iff`: the code sections on which they print the same lines.
-/

namespace LamaRv

open Code

variable {f : Bytefile} {o k : ℕ} {rest : List Byte} {strings : List String}

/-- The disassembler spells `!!` as itself and the reader as `||`; a literal that does not survive
boxing is another number for the reader. -/
def Code.Plain : Code → Prop
  | binop op _ => op ≠ .or
  | const c => -2 ^ 30 ≤ c.toInt ∧ c.toInt < 2 ^ 30
  | _ => True

theorem formatInt_ne_of_neg {a b : ℤ} (ha : a < 0) (hb : 0 ≤ b) :
    formatInt a ≠ formatInt b := by
  obtain ⟨m, rfl⟩ := Int.eq_negSucc_of_lt_zero ha
  obtain ⟨n, rfl⟩ := Int.eq_ofNat_of_zero_le hb
  intro h
  have h := congrArg String.toList h
  have hn : (formatInt (n : ℤ)).toList = Nat.toDigits 10 n := by
    show (Nat.repr n).toList = _
    simp [Nat.repr]
  have hm : (formatInt (Int.negSucc m)).toList = '-' :: Nat.toDigits 10 (m + 1) := by
    show ("-" ++ Nat.repr (m + 1)).toList = _
    simp [Nat.repr]
  rw [hn, hm] at h
  have hmem : '-' ∈ Nat.toDigits 10 n := h ▸ List.mem_cons_self
  have := Nat.isDigit_of_mem_toDigits (by decide) (by decide) hmem
  exact absurd this (by decide)

theorem literal_eq_iff (c : BitVec 32) :
    formatInt c.toInt = formatInt (toInt (2 * c.toInt + 1) / 2) ↔
      -2 ^ 30 ≤ c.toInt ∧ c.toInt < 2 ^ 30 := by
  obtain ⟨h1, h2, m, hm⟩ := toInt_spec (2 * c.toInt + 1)
  have hlo := @BitVec.le_toInt 32 c
  have hhi := @BitVec.toInt_lt 32 c
  constructor
  · intro h
    by_contra hout
    -- What is cut off turns the sign.
    rcases lt_or_ge c.toInt 0 with hc | hc
    · exact formatInt_ne_of_neg hc (by omega) h
    · exact formatInt_ne_of_neg (by omega) hc h.symm
  · intro h
    rw [show toInt (2 * c.toInt + 1) / 2 = c.toInt by omega]

theorem text_eq_iff {i : Code} (hbegin : ¬ i.IsBegin) (name : String) :
    i.text f disasmSpelling name = i.text f dumpSpelling "" ↔ i.Plain := by
  cases i with
  | beginInst argc locc => exact absurd trivial hbegin
  | binop op named =>
    simp only [Code.text, String.append_right_inj, Code.Plain]
    cases op with
    | other m h => exact absurd named (by simp only [BinopKind.number]; omega)
    | _ => decide
  | const c =>
    simp only [Code.text, String.append_right_inj]
    exact literal_eq_iff c
  | _ => simp [Code.text, Code.Plain]

/-- The bytes of a code section before its stop. -/
def encodeAll (is : List Code) : List Byte := is.flatMap Code.encode

instance : DecidablePred Code.IsBegin := fun i => by
  cases i <;> unfold Code.IsBegin <;> infer_instance

/-- The offsets of the `BEGIN`s of a code section that starts at `o`. -/
def beginOffsets (o : ℕ) : List Code → List ℕ
  | [] => []
  | i :: is =>
      if i.IsBegin then o :: beginOffsets (o + i.encode.length) is
      else beginOffsets (o + i.encode.length) is

/-- The `BEGIN`s from offset `o` on belong to the public symbols `ps` in turn. -/
def BeginsPublic (o : ℕ) (is : List Code) (ps : List (ℤ × ℤ)) : Prop :=
  ∀ x ∈ (beginOffsets o is).zip ps, x.2.2 = x.1

/-- With a bound on the rounds, the two loops print the same lines. -/
def SameFrom (f : Bytefile) (fuel : ℕ) (c : Cursor) (r : InstReader) : Prop :=
  ∃ lines c' r', (Disasm.loop f fuel).run c = .ok (lines, c') ∧
    (dumpLoop f fuel).run r = .ok (lines, r')

theorem run_disasm_loop {i : Code} (hi : i.InTable f) {name : String}
    (hname : Disasm.publicNames f o (List.range f.publics.length) = .ok name) (n : ℕ) (c : Cursor)
    (ls : List String) :
    (Disasm.loop f (n + 1)).run ⟨o, i.encode ++ rest⟩ = .ok (ls, c) ↔
      ∃ lines, (Disasm.loop f n).run ⟨o + i.encode.length, rest⟩ = .ok (lines, c) ∧
        ls = (formatHex10 o ++ ":\t" ++ i.text f disasmSpelling name) :: lines := by
  have hopcode := run_readByte o i.opcode (i.operands ++ rest)
  have hhigh : high i.opcode ≠ 15 := by
    cases i with
    | binop op named => exact (high_composed (by decide) (by omega)).trans_ne (by decide)
    | patt type named => exact (high_composed (by decide) (by omega)).trans_ne (by decide)
    | ld loc index named | st loc index named =>
      exact (high_composed (by decide) (by omega)).trans_ne (by decide)
    | cJmp zero target => cases zero <;> simp [opcode, high]
    | _ => simp [opcode, high, composed]
  rw [show i.encode ++ rest = i.opcode :: (i.operands ++ rest) from rfl]
  simp only [Disasm.loop, StateT.run_bind, hopcode, ok_bind, run_get, if_neg hhigh,
    run_disasm_text hi hname, Nat.add_sub_cancel]
  cases (Disasm.loop f n).run ⟨o + i.encode.length, rest⟩ with
  | error e => simp [bind, Except.bind]
  | ok p =>
    obtain ⟨lines, c'⟩ := p
    simp only [ok_bind, run_return, Except.ok.injEq, Prod.mk.injEq]
    constructor
    · rintro ⟨rfl, rfl⟩
      exact ⟨lines, ⟨rfl, rfl⟩, rfl⟩
    · rintro ⟨_, ⟨rfl, rfl⟩, rfl⟩
      exact ⟨rfl, rfl⟩

theorem run_dumpLoop {inst : Instruction} {r r₁ : InstReader} {t : String}
    (hread : (InstReader.readInst f).run r = .ok (some inst, r₁)) (hprint : inst.print = .ok t)
    (n : ℕ) (r' : InstReader) (ls : List String) :
    (dumpLoop f (n + 1)).run r = .ok (ls, r') ↔
      ∃ lines, (dumpLoop f n).run r₁ = .ok (lines, r') ∧
        ls = (formatHex10 r.cursor.offset ++ ":\t" ++ t) :: lines := by
  simp only [dumpLoop, StateT.run_bind, run_get_reader, hread, ok_bind, hprint, run_liftOk]
  cases (dumpLoop f n).run r₁ with
  | error e => simp [bind, Except.bind]
  | ok p =>
    obtain ⟨lines, c'⟩ := p
    simp only [ok_bind, run_return, Except.ok.injEq, Prod.mk.injEq]
    constructor
    · rintro ⟨rfl, rfl⟩
      exact ⟨lines, ⟨rfl, rfl⟩, rfl⟩
    · rintro ⟨_, ⟨rfl, rfl⟩, rfl⟩
      exact ⟨rfl, rfl⟩

/-- One round of both loops. -/
theorem SameFrom.cons_iff {i : Code} (hi : i.InTable f) {name t : String} {inst : Instruction}
    {r₁ : InstReader} (hname : Disasm.publicNames f o (List.range f.publics.length) = .ok name)
    (hread : (InstReader.readInst f).run ⟨⟨o, i.encode ++ rest⟩, k, strings⟩ = .ok (some inst, r₁))
    (hprint : inst.print = .ok t) (n : ℕ) :
    SameFrom f (n + 1) ⟨o, i.encode ++ rest⟩ ⟨⟨o, i.encode ++ rest⟩, k, strings⟩ ↔
      i.text f disasmSpelling name = t ∧ SameFrom f n ⟨o + i.encode.length, rest⟩ r₁ := by
  simp only [SameFrom, run_disasm_loop hi hname, run_dumpLoop hread hprint]
  constructor
  · rintro ⟨_, c', r', ⟨lines, hd, rfl⟩, ⟨lines', hr, heq⟩⟩
    obtain ⟨hline, rfl⟩ := List.cons.inj heq
    exact ⟨by simpa using hline, lines, c', r', hd, hr⟩
  · rintro ⟨htext, lines, c', r', hd, hr⟩
    exact ⟨_, c', r', ⟨lines, hd, rfl⟩, ⟨lines, hr, by rw [htext]⟩⟩


theorem not_sameFrom_of_error {r : InstReader} {e : String} (c : Cursor) (n : ℕ)
    (hread : (InstReader.readInst f).run r = .error e) : ¬ SameFrom f (n + 1) c r := by
  rintro ⟨lines, c', r', -, h⟩
  simp only [dumpLoop, StateT.run_bind, run_get_reader, hread, ok_bind] at h
  cases h

theorem run_readInst_stop {stop : Byte} (hstop : high stop = 15) :
    (InstReader.readInst f).run ⟨⟨o, stop :: rest⟩, k, strings⟩ =
      .ok (none, ⟨⟨o + 1, rest⟩, k, strings⟩) := by
  unfold InstReader.readInst
  simp only [StateT.run_bind, run_monadLift (run_readByte _ _ _), ok_bind, hstop]
  unfold high at hstop
  split
  all_goals first | omega | rfl

theorem sameFrom_stop {stop : Byte} (hstop : high stop = 15) (n : ℕ) :
    SameFrom f (n + 1) ⟨o, stop :: rest⟩ ⟨⟨o, stop :: rest⟩, k, strings⟩ := by
  refine ⟨[formatHex10 o ++ ":\t" ++ "<end>"], ⟨o + 1, rest⟩, ⟨⟨o + 1, rest⟩, k, strings⟩, ?_, ?_⟩
  · simp only [Disasm.loop, StateT.run_bind, run_readByte, ok_bind, run_get, if_pos hstop, run_return,
      Nat.add_sub_cancel]
  · simp only [dumpLoop, StateT.run_bind, run_get_reader, run_readInst_stop hstop, ok_bind, run_return]

theorem beginsPublic_of_not_begin {i : Code} {is : List Code} {ps : List (ℤ × ℤ)} (h : ¬ i.IsBegin) :
    BeginsPublic o (i :: is) ps ↔ BeginsPublic (o + i.encode.length) is ps := by
  unfold BeginsPublic
  rw [beginOffsets, if_neg h]

theorem beginsPublic_cons {i : Code} {is : List Code} {p : ℤ × ℤ} {ps : List (ℤ × ℤ)}
    (h : i.IsBegin) :
    BeginsPublic o (i :: is) (p :: ps) ↔ p.2 = o ∧ BeginsPublic (o + i.encode.length) is ps := by
  unfold BeginsPublic
  rw [beginOffsets, if_pos h]
  simp

theorem beginsPublic_nil {is : List Code} : BeginsPublic o is [] := by
  simp [BeginsPublic]

/-- At a `BEGIN` the disassembler looks the offset up, and the reader counts.  The public symbols that
the reader has passed lie before it. -/
theorem sameFrom_begin_iff (hf : f.Sound) {argc locc : Operand} {is : List Code} (n : ℕ)
    (hbefore : ∀ p ∈ f.publics.take k, p.2 < o)
    (ih : ∀ k, (∀ p ∈ f.publics.take k, p.2 < o + (beginInst argc locc).encode.length) →
      (SameFrom f n ⟨o + (beginInst argc locc).encode.length, rest⟩
          ⟨⟨o + (beginInst argc locc).encode.length, rest⟩, k, strings⟩ ↔
        (∀ i ∈ is, i.Plain) ∧
          BeginsPublic (o + (beginInst argc locc).encode.length) is (f.publics.drop k))) :
    SameFrom f (n + 1) ⟨o, (beginInst argc locc).encode ++ rest⟩
        ⟨⟨o, (beginInst argc locc).encode ++ rest⟩, k, strings⟩ ↔
      (∀ i ∈ is, i.Plain) ∧ BeginsPublic o (beginInst argc locc :: is) (f.publics.drop k) := by
  have htable : (beginInst argc locc).InTable f := trivial
  cases hp : f.publics[k]? with
  | some p =>
    obtain ⟨hk, hget⟩ := List.getElem?_eq_some_iff.1 hp
    rw [List.drop_eq_getElem_cons hk, hget,
      beginsPublic_cons (show (beginInst argc locc).IsBegin from trivial)]
    have hread := @run_readInst_public f o rest k strings hf argc locc p hp
    by_cases ho : p.2 = o
    · rw [if_pos ho] at hread
      rw [SameFrom.cons_iff htable (hf.publicNames_self hp ho) hread rfl, ih (k + 1)]
      · simp [Code.text, ho, publicComment, String.append_assoc]
      · intro q hq
        rw [List.take_add_one, hp] at hq
        rcases List.mem_append.1 hq with hq | hq
        · have := hbefore q hq
          omega
        · have : q = p := by simpa using hq
          subst this
          simp [encode]
          omega
    · rw [if_neg ho] at hread
      simp [ho, not_sameFrom_of_error _ n hread]
  | none =>
    have hk : f.publics.length ≤ k := List.getElem?_eq_none_iff.1 hp
    have hnone := hf.publicNames_none (o := o) fun p h => by
      have := hbefore p (by rwa [List.take_of_length_le hk])
      omega
    have hread := @run_readInst_private f o rest k strings argc locc hk
    rw [SameFrom.cons_iff htable hnone hread rfl, ih (k + 1)]
    · rw [List.drop_eq_nil_of_le hk, List.drop_eq_nil_of_le (by omega)]
      simp [Code.text, beginsPublic_nil]
    · intro p h
      rw [List.take_of_length_le (by omega)] at h
      have := hbefore p (by rwa [List.take_of_length_le hk])
      omega

theorem sameFrom_iff (hf : f.Sound) {stop : Byte} (hstop : high stop = 15) (tail : List Byte)
    (is : List Code) (htable : ∀ i ∈ is, i.InTable f) {n : ℕ} (hn : is.length < n)
    (hbefore : ∀ p ∈ f.publics.take k, p.2 < o) :
    SameFrom f n ⟨o, encodeAll is ++ stop :: tail⟩
        ⟨⟨o, encodeAll is ++ stop :: tail⟩, k, strings⟩ ↔
      (∀ i ∈ is, i.Plain) ∧ BeginsPublic o is (f.publics.drop k) := by
  induction is generalizing o k strings n with
  | nil =>
    obtain ⟨n, rfl⟩ : ∃ m, n = m + 1 := ⟨n - 1, by simp at hn; omega⟩
    simp [encodeAll, sameFrom_stop hstop, BeginsPublic, beginOffsets]
  | cons i is ih =>
    obtain ⟨n, rfl⟩ : ∃ m, n = m + 1 := ⟨n - 1, by simp at hn; omega⟩
    have hi := htable i (by simp)
    have ih := fun k strings => @ih (o + i.encode.length) k strings
      (fun i h => htable i (by simp [h])) n (by simpa using hn)
    have hcode : encodeAll (i :: is) ++ stop :: tail =
        i.encode ++ (encodeAll is ++ stop :: tail) := by
      simp [encodeAll]
    rw [hcode]
    by_cases hbegin : i.IsBegin
    · cases i with
      | beginInst argc locc =>
        rw [@sameFrom_begin_iff _ _ _ _ _ hf argc locc is n hbefore fun k h =>
          ih k strings (by exact_mod_cast h)]
        simp [Code.Plain]
      | _ => exact hbegin.elim
    · obtain ⟨strings', hread⟩ :=
        @run_readInst f o (encodeAll is ++ stop :: tail) k strings i hi hbegin
      have hname := hf.publicNames o [] f.publics rfl
      rw [List.length_nil, ← List.range_eq_range'] at hname
      rw [SameFrom.cons_iff hi hname hread (print_instruction hbegin _), text_eq_iff hbegin,
        ih k strings', beginsPublic_of_not_begin hbegin]
      · simp [and_assoc]
      · intro p hp
        have := hbefore p hp
        omega

theorem Bytefile.Sound.forM_notePublic (hf : f.Sound) {is : List ℕ}
    (h : ∀ i ∈ is, i < f.publics.length) :
    is.forM (InstReader.notePublic f) = .ok () := by
  induction is with
  | nil => rfl
  | cons i is ih =>
    have hp := List.getElem?_eq_getElem (h i (by simp))
    have hnote : InstReader.notePublic f i = .ok () := by
      simp only [InstReader.notePublic, hf.getPublicOffset hp, hf.getPublicName hp, ok_bind]
      rfl
    have hrest := ih fun j hj => h j (by simp [hj])
    show (InstReader.notePublic f i >>= fun _ => is.forM (InstReader.notePublic f)) = _
    rw [hnote, ok_bind, hrest]

theorem Bytefile.Sound.new (hf : f.Sound) : InstReader.new f = .ok ⟨⟨0, f.code⟩, 0, []⟩ := by
  simp only [InstReader.new, hf.forM_notePublic fun i h => List.mem_range.1 h, ok_bind]
  rfl

/-- The two decoders print the same lines. -/
def DecodersAgree (f : Bytefile) : Prop :=
  ∃ lines, disassemble f = .ok lines ∧ dump f = .ok lines

theorem decodersAgree_iff_sameFrom (hf : f.Sound) :
    DecodersAgree f ↔ SameFrom f (f.code.length + 1) ⟨0, f.code⟩ ⟨⟨0, f.code⟩, 0, []⟩ := by
  unfold DecodersAgree SameFrom disassemble dump
  simp only [hf.new, ok_bind]
  constructor
  · rintro ⟨lines, hd, hr⟩
    obtain ⟨⟨ls, c'⟩, hloop, hls⟩ := bind_ok.1 hd
    obtain ⟨⟨ls', r'⟩, hdump, hls'⟩ := bind_ok.1 hr
    cases return_ok.1 hls
    cases return_ok.1 hls'
    exact ⟨_, c', r', hloop, hdump⟩
  · rintro ⟨lines, c', r', hd, hr⟩
    refine ⟨lines, ?_, ?_⟩
    · exact congrArg (· >>= fun p => pure p.1) hd
    · exact congrArg (· >>= fun p => pure p.1) hr

theorem encode_pos (i : Code) : 1 ≤ i.encode.length := by simp [encode]

theorem length_le_encodeAll (is : List Code) : is.length ≤ (encodeAll is).length := by
  induction is with
  | nil => simp
  | cons i is ih =>
    have := encode_pos i
    simp only [encodeAll, List.flatMap_cons, List.length_cons, List.length_append] at ih ⊢
    omega

/-- The two decoders agree exactly when no instruction is spelled in two ways and the first functions
of the code are the public ones. -/
theorem decodersAgree_iff {f : Bytefile} (hf : f.Sound) {is : List Code} {stop : Byte}
    {tail : List Byte} (hcode : f.code = encodeAll is ++ stop :: tail) (hstop : high stop = 15)
    (htable : ∀ i ∈ is, i.InTable f) :
    DecodersAgree f ↔ (∀ i ∈ is, i.Plain) ∧ BeginsPublic 0 is f.publics := by
  have hlength : is.length < f.code.length + 1 := by
    have := length_le_encodeAll is
    simp only [hcode, List.length_append]
    omega
  rw [decodersAgree_iff_sameFrom hf]
  have h := @sameFrom_iff f 0 0 [] hf stop hstop tail is htable _ hlength (by simp)
  rw [← hcode] at h
  simpa using h

/-- The code of a function that makes a string. -/
def sample : List Code :=
  [beginInst ⟨0, by decide⟩ ⟨0, by decide⟩, const 7, string ⟨1, by decide⟩, endInst]

/-- The file. -/
def sampleFile : Bytefile where
  stringtab := [109, 97, 105, 110, 0]
  publics := [(0, 0)]
  code := encodeAll sample ++ [255]

/-- A string and a small literal in a public function. -/
theorem decodersAgree_iff_sample : DecodersAgree sampleFile := by
  have hcode : sampleFile.code = encodeAll sample ++ 255 :: [] := rfl
  have htable : ∀ i ∈ sample, i.InTable sampleFile := by
    simp [sample, InTable, sampleFile, Operand.value]
  refine (decodersAgree_iff ⟨by decide, by decide, by decide⟩ hcode (by decide) htable).2 ⟨?_, ?_⟩
  · simp [sample, Code.Plain]
  · simp [sample, BeginsPublic, beginOffsets, IsBegin, sampleFile]

/-- The operator `!!` has two spellings. -/
theorem disjunction_spelled_twice :
    ¬ ∀ (f : Bytefile) (is : List Code) (stop : Byte) (tail : List Byte), f.Sound →
      f.code = encodeAll is ++ stop :: tail → high stop = 15 → (∀ i ∈ is, i.InTable f) →
      DecodersAgree f := by
  intro h
  obtain ⟨lines, hd, hr⟩ := h ⟨[], [], [13, 255]⟩ [binop .or] 255 []
    ⟨by simp, by simp, by simp⟩ rfl (by decide) (by simp [InTable])
  have hd' : disassemble ⟨[], [], [13, 255]⟩ =
      .ok ["0x00000000:\tBINOP\t!!", "0x00000001:\t<end>"] := by rfl
  have hr' : dump ⟨[], [], [13, 255]⟩ =
      .ok ["0x00000000:\tBINOP\t||", "0x00000001:\t<end>"] := by rfl
  have heq := Except.ok.inj ((hd'.symm.trans hd).trans (hr.symm.trans hr'))
  exact absurd heq (by decide)

end LamaRv
