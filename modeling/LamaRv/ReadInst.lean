import LamaRv.Decoders
import LamaRv.Lib.Readers

/-!
# Reading one instruction (`read.cpp`)

What `read_inst` does in any state of the reader, on any bytes.

* `local_readInst`: it takes a prefix of the code, and what follows this prefix does not matter;
* `noted_readInst`: a string is appended to the strings, a function is counted, and the first functions
  get the names of the public symbols;
* `blind_readInst`: apart from these numbers and names, what has been read before does not matter.
-/

namespace LamaRv

open Readers

/-- The position of a reader is its offset. -/
instance Cursor.source : Source Cursor Byte where
  input c := c.rest
  position c := c.offset
  feed bs c := ⟨c.offset, bs⟩
  input_feed _ _ := rfl
  position_feed _ _ := rfl
  feed_input _ := rfl
  feed_feed _ _ _ := rfl

instance InstReader.source : Source InstReader Byte where
  input r := r.cursor.rest
  position r := r.cursor.offset
  feed bs r := { r with cursor := ⟨r.cursor.offset, bs⟩ }
  input_feed _ _ := rfl
  position_feed _ _ := rfl
  feed_input _ := rfl
  feed_feed _ _ _ := rfl

theorem local_readByte : Local readByte := by
  intro c b c' h
  obtain ⟨o, rest⟩ := c
  cases rest with
  | nil => cases h
  | cons x rest =>
    obtain ⟨rfl, rfl⟩ := Prod.mk.inj (Except.ok.inj h)
    exact ⟨[x], rfl, rfl, fun more => rfl⟩

theorem local_readInt : Local readInt :=
  local_readByte.bind fun _ => local_readByte.bind fun _ => local_readByte.bind fun _ =>
    local_readByte.bind fun _ => .pure _

/-- A reading of the cursor alone. -/
theorem run_liftCursor {α : Type} {x : Read α} {r r' : InstReader} {a : α} :
    (liftM x : InstReader.M α).run r = .ok (a, r') ↔
      ∃ c, x.run r.cursor = .ok (a, c) ∧ r' = { r with cursor := c } := by
  have hrun : (liftM x : InstReader.M α).run r =
      (x.run r.cursor >>= fun p => .ok (p.1, { r with cursor := p.2 })) := rfl
  rw [hrun, bind_ok]
  constructor
  · rintro ⟨⟨b, c⟩, hx, h⟩
    obtain ⟨rfl, rfl⟩ := Prod.mk.inj (Except.ok.inj h)
    exact ⟨c, hx, rfl⟩
  · rintro ⟨c, hx, rfl⟩
    exact ⟨(a, c), hx, rfl⟩

theorem local_liftCursor {α : Type} {x : Read α} (hx : Local x) : Local (liftM x : InstReader.M α) := by
  intro r a r' h
  obtain ⟨c, hrun, rfl⟩ := run_liftCursor.1 h
  obtain ⟨bs, hbs, htakes⟩ := hx _ _ _ hrun
  exact ⟨bs, hbs, htakes.position, fun more => run_liftCursor.2 ⟨_, htakes.run more, rfl⟩⟩

section Reader

variable {f : Bytefile}

/-- A computation that does not look at the reader. -/
theorem run_liftExcept {α : Type} {y : Except String α} {r r' : InstReader} {a : α} :
    (liftM y : InstReader.M α).run r = .ok (a, r') ↔ y = .ok a ∧ r' = r := by
  cases y with
  | error e =>
    constructor
    · intro h
      cases h
    · rintro ⟨h, -⟩
      cases h
  | ok b =>
    rw [run_liftOk, Except.ok.injEq, Prod.mk.injEq, Except.ok.injEq, eq_comm (a := r)]

theorem local_liftExcept {α : Type} (x : Except String α) : Local (liftM x : InstReader.M α) := by
  cases x with
  | error e => exact Local.throw e
  | ok a => exact Local.pure a

theorem local_readSize : Local InstReader.readSize :=
  (local_liftCursor local_readInt).bind fun _ => .pure _

theorem local_readString : Local (InstReader.readString f) :=
  (local_liftCursor local_readInt).bind fun _ => local_liftExcept _

theorem local_readStringAt (pos : ℤ) : Local (InstReader.readStringAt f pos) := by
  unfold InstReader.readStringAt
  split
  · exact local_readString
  · exact local_liftExcept _

theorem local_readLoc : Local InstReader.readLoc :=
  (local_liftCursor local_readByte).bind fun _ => (local_liftCursor local_readInt).bind fun _ =>
    .pure _

theorem local_times {α : Type} {x : InstReader.M α} (hx : Local x) (n : ℕ) :
    Local (InstReader.times x n) := by
  induction n with
  | zero => exact .pure []
  | succ n ih => exact hx.bind fun _ => ih.bind fun _ => .pure _

/-- An instruction is read off a prefix of the code, whatever follows it. -/
theorem local_readInst : Local (InstReader.readInst f) := by
  have hload := local_readLoc
  unfold InstReader.readInst
  refine (local_liftCursor local_readByte).bind fun x => ?_
  dsimp only
  repeat' with_reducible first
      | exact .pure _
      | exact .throw _
      | exact local_liftCursor local_readInt
      | exact local_readSize
      | exact local_readString
      | exact local_readStringAt _
      | exact local_times hload _
      | exact local_liftExcept _
      | exact .modify (fun _ _ => rfl) fun _ => rfl
      | refine Local.get_bind (fun _ => ?_) fun _ _ => rfl
      | refine Local.bind ?_ fun _ => ?_
      | split

/-! ### What an instruction leaves in the reader -/

/-- The strings and the number of functions are as before, and the result is of some kind. -/
def KeepsCounts {α : Type} (P : α → Prop) (x : InstReader.M α) : Prop :=
  ∀ r a r', x.run r = .ok (a, r') → P a ∧ r'.strings = r.strings ∧ r'.functionIndex = r.functionIndex

section KeepsCounts

variable {α γ : Type} {P : α → Prop} {Q : γ → Prop} {x : InstReader.M α}

/-- A reading that leaves the counts alone. -/
abbrev Uncounting (x : InstReader.M α) : Prop := KeepsCounts (fun _ => True) x

theorem KeepsCounts.pure {a : α} (h : P a) : KeepsCounts P (pure a) := by
  intro r b r' hrun
  obtain ⟨rfl, rfl⟩ := Prod.mk.inj (Except.ok.inj hrun)
  exact ⟨h, rfl, rfl⟩

theorem KeepsCounts.throw (e : String) : KeepsCounts P (throw e) := by
  intro r a r' hrun
  cases hrun

theorem KeepsCounts.bind {y : α → InstReader.M γ} (hx : Uncounting x) (hy : ∀ a, KeepsCounts Q (y a)) :
    KeepsCounts Q (x >>= y) := by
  intro r c r' hrun
  rw [StateT.run_bind, bind_ok] at hrun
  obtain ⟨⟨a, r₁⟩, hfirst, hnext⟩ := hrun
  obtain ⟨-, hstrings, hindex⟩ := hx r a r₁ hfirst
  obtain ⟨hQ, hstrings', hindex'⟩ := hy a r₁ c r' hnext
  exact ⟨hQ, hstrings'.trans hstrings, hindex'.trans hindex⟩

theorem KeepsCounts.liftCursor (y : Read α) : Uncounting (liftM y : InstReader.M α) := by
  intro r a r' hrun
  obtain ⟨c, -, rfl⟩ := run_liftCursor.1 hrun
  exact ⟨trivial, rfl, rfl⟩

theorem KeepsCounts.liftExcept (y : Except String α) : Uncounting (liftM y : InstReader.M α) := by
  cases y with
  | error e => exact KeepsCounts.throw e
  | ok a => exact KeepsCounts.pure trivial

theorem KeepsCounts.readSize : Uncounting InstReader.readSize :=
  (KeepsCounts.liftCursor _).bind fun _ => .pure trivial

theorem KeepsCounts.readString : Uncounting (InstReader.readString f) :=
  (KeepsCounts.liftCursor _).bind fun _ => .liftExcept _

theorem KeepsCounts.readStringAt (pos : ℤ) : Uncounting (InstReader.readStringAt f pos) := by
  unfold InstReader.readStringAt
  split
  · exact .readString
  · exact .liftExcept _

theorem KeepsCounts.readLoc : Uncounting InstReader.readLoc :=
  (KeepsCounts.liftCursor _).bind fun _ => (KeepsCounts.liftCursor _).bind fun _ =>
    .pure trivial

theorem KeepsCounts.times (hx : Uncounting x) (n : ℕ) : Uncounting (InstReader.times x n) := by
  induction n with
  | zero => exact .pure trivial
  | succ n ih => exact hx.bind fun _ => ih.bind fun _ => .pure trivial

end KeepsCounts

/-- The instructions that count neither as a string nor as a function. -/
def Instruction.Uncounted : Instruction → Prop
  | .string _ _ | .beginInst _ _ _ => False
  | _ => True

/-- What the reader has noted after an instruction. -/
def Noted (f : Bytefile) (r r' : InstReader) : Instruction → Prop
  | .string ind str => ind = r.strings.length ∧ r'.strings = r.strings ++ [str] ∧
      r'.functionIndex = r.functionIndex
  | .beginInst id _ _ => r'.strings = r.strings ∧ r'.functionIndex = r.functionIndex + 1 ∧
      if r.functionIndex < f.publics.length then
        f.getPublicOffset r.functionIndex = .ok r.cursor.offset ∧
          ∃ name, f.getPublicName r.functionIndex = .ok name ∧ id = .inl name
      else id = .inr r.cursor.offset
  | _ => r'.strings = r.strings ∧ r'.functionIndex = r.functionIndex

theorem Noted.of_uncounted {r r' : InstReader} {i : Instruction} (hi : i.Uncounted)
    (hstrings : r'.strings = r.strings) (hindex : r'.functionIndex = r.functionIndex) :
    Noted f r r' i := by
  cases i with
  | string ind str => exact hi.elim
  | beginInst id argc locc => exact hi.elim
  | _ => exact ⟨hstrings, hindex⟩

theorem run_bind_ok {α γ : Type} {x : InstReader.M α} {y : α → InstReader.M γ} {r r' : InstReader}
    {c : γ} :
    (x >>= y).run r = .ok (c, r') ↔ ∃ a r₁, x.run r = .ok (a, r₁) ∧ (y a).run r₁ = .ok (c, r') := by
  rw [StateT.run_bind, bind_ok, Prod.exists]

theorem KeepsCounts.noted {y : InstReader.M (Option Instruction)} {r r₁ r' : InstReader}
    {x : Option Instruction}
    (hy : KeepsCounts (fun x => ∀ i, x = some i → i.Uncounted) y) (h : y.run r₁ = .ok (x, r'))
    (hstrings : r₁.strings = r.strings) (hindex : r₁.functionIndex = r.functionIndex) :
    (∀ i, x = some i → Noted f r r' i) ∧ (x = none → r'.strings = r.strings) := by
  obtain ⟨hkind, hstrings', hindex'⟩ := hy _ _ _ h
  have hstrings'' := hstrings'.trans hstrings
  exact ⟨fun i hi => .of_uncounted (hkind i hi) hstrings'' (hindex'.trans hindex), fun _ => hstrings''⟩

theorem readByte_offset {c c' : Cursor} {x : Byte} (h : readByte.run c = .ok (x, c')) :
    c'.offset = c.offset + 1 := by
  obtain ⟨o, rest⟩ := c
  cases rest with
  | nil => cases h
  | cons b rest =>
    obtain ⟨-, rfl⟩ := Prod.mk.inj (Except.ok.inj h)
    rfl

/-- An instruction is noted where it counts. -/
theorem noted_readInst {r r' : InstReader} {x : Option Instruction}
    (h : (InstReader.readInst f).run r = .ok (x, r')) :
    (∀ i, x = some i → Noted f r r' i) ∧ (x = none → r'.strings = r.strings) := by
  have hloc := KeepsCounts.readLoc
  unfold InstReader.readInst at h
  obtain ⟨b, r₁, hb, h⟩ := run_bind_ok.1 h
  obtain ⟨c, hbyte, rfl⟩ := run_liftCursor.1 hb
  clear hb
  rename_i hwhole
  clear hwhole
  dsimp only at h
  by_cases h17 : b.toNat = 17
  · simp only [h17] at h
    obtain ⟨n, r₂, hn, h⟩ := run_bind_ok.1 h
    obtain ⟨c', -, rfl⟩ := run_liftCursor.1 hn
    obtain ⟨str, r₃, hstr, h⟩ := run_bind_ok.1 h
    obtain ⟨-, hstrings, hindex⟩ := KeepsCounts.readStringAt n _ _ _ hstr
    obtain ⟨hi, rfl⟩ := Prod.mk.inj (Except.ok.inj h)
    subst hi
    refine ⟨fun i hi => ?_, fun hi => by cases hi⟩
    obtain rfl := Option.some.inj hi
    refine ⟨?_, congrArg (· ++ [str]) hstrings, hindex⟩
    simp [hstrings]
  by_cases h82 : b.toNat = 82
  · simp only [h82, StateT.run_bind, run_get_reader, run_modify, ok_bind] at h
    obtain ⟨⟨argc, r₂⟩, hargc, h⟩ := bind_ok.1 h
    obtain ⟨-, hstrings, hindex⟩ := KeepsCounts.readSize _ _ _ hargc
    obtain ⟨⟨locc, r₃⟩, hlocc, h⟩ := bind_ok.1 h
    obtain ⟨-, hstrings', hindex'⟩ := KeepsCounts.readSize _ _ _ hlocc
    have hoffset : c.offset - 1 = r.cursor.offset := by
      rw [readByte_offset hbyte, Nat.add_sub_cancel]
    rw [hoffset] at h
    split at h
    next hpublic =>
      obtain ⟨p, r₄, hp, h⟩ := run_bind_ok.1 h
      obtain ⟨hoffset', rfl⟩ := run_liftExcept.1 hp
      obtain ⟨u, r₅, hu, h⟩ := run_bind_ok.1 h
      obtain ⟨hcheck, rfl⟩ := run_liftExcept.1 hu
      obtain ⟨name, r₆, hname, h⟩ := run_bind_ok.1 h
      obtain ⟨hname', rfl⟩ := run_liftExcept.1 hname
      obtain ⟨hi, rfl⟩ := Prod.mk.inj (Except.ok.inj h)
      subst hi
      refine ⟨fun i hi => ?_, fun hi => by cases hi⟩
      obtain rfl := Option.some.inj hi
      refine ⟨hstrings'.trans hstrings, hindex'.trans hindex, ?_⟩
      rw [if_pos hpublic, hoffset', check_ok.1 hcheck]
      exact ⟨rfl, name, hname', rfl⟩
    next hpublic =>
      obtain ⟨hi, rfl⟩ := Prod.mk.inj (Except.ok.inj h)
      subst hi
      refine ⟨fun i hi => ?_, fun hi => by cases hi⟩
      obtain rfl := Option.some.inj hi
      refine ⟨hstrings'.trans hstrings, hindex'.trans hindex, ?_⟩
      rw [if_neg hpublic]
  -- every other opcode is made of readings that leave the counts alone
  refine KeepsCounts.noted ?_ h rfl rfl
  repeat' with_reducible first
      | exact absurd ‹_› h17
      | exact absurd ‹_› h82
      | refine KeepsCounts.pure ?_
      | exact .throw _
      | exact .liftCursor _
      | exact .liftExcept _
      | exact .readSize
      | exact .readString
      | exact .times hloc _
      | refine KeepsCounts.bind ?_ fun _ => ?_
      | split
  all_goals rintro k ⟨⟩
  all_goals exact trivial

/-! ### What an instruction does not depend on -/

/-- The same instruction, up to the number of a string and the identity of a function. -/
def Instruction.Alike : Instruction → Instruction → Prop
  | .string _ str, j => ∃ ind, j = .string ind str
  | .beginInst _ argc locc, j => ∃ id, j = .beginInst id argc locc
  | i, j => j = i

/-- A reader at the same place that has passed all public symbols. -/
def Passed (f : Bytefile) (r t : InstReader) : Prop :=
  r.cursor = t.cursor ∧ f.publics.length ≤ t.functionIndex

theorem Instruction.Alike.refl (i : Instruction) : i.Alike i := by
  cases i with
  | string ind str => exact ⟨ind, rfl⟩
  | beginInst id argc locc => exact ⟨id, rfl⟩
  | _ => rfl

section Blind

variable {α : Type}

theorem blind_liftCursor (y : Read α) : Blind (Passed f) Eq (liftM y : InstReader.M α) := by
  rintro r t a r' ⟨hcursor, hindex⟩ hrun
  obtain ⟨c, hy, rfl⟩ := run_liftCursor.1 hrun
  rw [hcursor] at hy
  exact ⟨a, _, run_liftCursor.2 ⟨c, hy, rfl⟩, rfl, rfl, hindex⟩

theorem blind_liftExcept (y : Except String α) : Blind (Passed f) Eq (liftM y : InstReader.M α) := by
  cases y with
  | error e => exact Blind.throw e
  | ok a => exact Blind.pure rfl

theorem blind_readSize : Blind (Passed f) Eq InstReader.readSize :=
  (blind_liftCursor _).bind fun _ => .pure rfl

theorem blind_readString : Blind (Passed f) Eq (InstReader.readString f) :=
  (blind_liftCursor _).bind fun _ => blind_liftExcept _

theorem blind_readStringAt (pos : ℤ) : Blind (Passed f) Eq (InstReader.readStringAt f pos) := by
  unfold InstReader.readStringAt
  split
  · exact blind_readString
  · exact blind_liftExcept _

theorem blind_readLoc : Blind (Passed f) Eq InstReader.readLoc :=
  (blind_liftCursor _).bind fun _ => (blind_liftCursor _).bind fun _ => .pure rfl

theorem blind_times {x : InstReader.M α} (hx : Blind (Passed f) Eq x) (n : ℕ) :
    Blind (Passed f) Eq (InstReader.times x n) := by
  induction n with
  | zero => exact .pure rfl
  | succ n ih => exact hx.bind fun _ => ih.bind fun _ => .pure rfl

/-- An instruction does not depend on what the reader has noted. -/
theorem blind_readInst : Blind (Passed f) (Option.Rel Instruction.Alike) (InstReader.readInst f) := by
  have hloc : Blind (Passed f) Eq InstReader.readLoc := blind_readLoc
  unfold InstReader.readInst
  refine (blind_liftCursor _).bind fun b => ?_
  dsimp only
  by_cases h17 : b.toNat = 17
  · simp only [h17]
    refine (blind_liftCursor _).bind fun n => (blind_readStringAt n).bind fun str => ?_
    rintro r t x r' ⟨hcursor, hindex⟩ hrun
    obtain ⟨rfl, rfl⟩ := Prod.mk.inj (Except.ok.inj hrun)
    exact ⟨_, _, rfl, .some ⟨_, rfl⟩, hcursor, hindex⟩
  by_cases h82 : b.toNat = 82
  · simp only [h82]
    rintro r t x r' ⟨hcursor, hindex⟩ hrun
    simp only [StateT.run_bind, run_get_reader, run_modify, ok_bind] at hrun ⊢
    obtain ⟨⟨argc, r₁⟩, hargc, hrun⟩ := bind_ok.1 hrun
    obtain ⟨⟨locc, r₂⟩, hlocc, hrun⟩ := bind_ok.1 hrun
    have hpassed : Passed f { r with functionIndex := r.functionIndex + 1 }
        { t with functionIndex := t.functionIndex + 1 } := ⟨hcursor, Nat.le_succ_of_le hindex⟩
    obtain ⟨_, t₁, hargc', rfl, hpassed⟩ := blind_readSize _ _ _ _ hpassed hargc
    obtain ⟨_, t₂, hlocc', rfl, hpassed⟩ := blind_readSize _ _ _ _ hpassed hlocc
    have hresult : (∃ id, x = some (.beginInst id argc locc)) ∧ r' = r₂ := by
      split at hrun
      next =>
        obtain ⟨_, _, hp, hrun⟩ := run_bind_ok.1 hrun
        obtain ⟨-, rfl⟩ := run_liftExcept.1 hp
        obtain ⟨_, _, hu, hrun⟩ := run_bind_ok.1 hrun
        obtain ⟨-, rfl⟩ := run_liftExcept.1 hu
        obtain ⟨name, _, hname, hrun⟩ := run_bind_ok.1 hrun
        obtain ⟨-, rfl⟩ := run_liftExcept.1 hname
        obtain ⟨rfl, rfl⟩ := Prod.mk.inj (Except.ok.inj hrun)
        exact ⟨⟨.inl name, rfl⟩, rfl⟩
      next =>
        obtain ⟨rfl, rfl⟩ := Prod.mk.inj (Except.ok.inj hrun)
        exact ⟨⟨_, rfl⟩, rfl⟩
    obtain ⟨⟨id, rfl⟩, rfl⟩ := hresult
    refine ⟨some (.beginInst (.inr (t.cursor.offset - 1)) argc locc), t₂, ?_, .some ⟨_, rfl⟩, hpassed⟩
    rw [hargc', ok_bind, hlocc', ok_bind, if_neg hindex.not_gt]
    rfl
  repeat' with_reducible first
      | exact absurd ‹_› h17
      | exact absurd ‹_› h82
      | refine Blind.pure ?_
      | exact .throw _
      | exact blind_liftCursor _
      | exact blind_liftExcept _
      | exact blind_readSize
      | exact blind_readString
      | exact blind_times hloc _
      | refine Blind.bind ?_ fun _ => ?_
      | split
  all_goals first
    | exact .none
    | exact .some (.refl _)

end Blind

end Reader

end LamaRv
