import Mathlib.Tactic

/-!
# The characters of an assembler text

How an assembler cuts a text: statements end at newlines, a comment goes from `#` to the end of the
line, a string literal stands between quotes and has escapes with a backslash.  A character is a byte
here.

* `scan`: the tokens of a text;
* `literal_iff`: a literal has the bytes that stand between its quotes just when none of them is a quote
  or a backslash;
* `blank_iff`: what comes behind a comment sign is blank just when all lines behind it are;
* `labelsIn`: the labels that a text defines, with one lemma for each kind of line.
-/

namespace AsmText

def quote : Char := Char.ofNat 34

def backslash : Char := Char.ofNat 92

/-- Where the assembler is. -/
inductive Mode
  | code
  | comment
  | literal
  /-- Behind a backslash. -/
  | escape
  /-- Behind a backslash and some digits. -/
  | octal (digits value : ℕ)
  /-- Behind `\x` and some digits. -/
  | hex (value : ℕ)
  deriving DecidableEq, Repr

/-- What the assembler reads. -/
inductive Token
  | code (c : Char)
  | newline
  | opening
  | byte (c : Char)
  | closing
  deriving DecidableEq, Repr

/-- What a character behind a backslash stands for, if it begins no number. -/
def unescape (c : Char) : Char :=
  if c = 'b' then Char.ofNat 8 else if c = 'f' then Char.ofNat 12 else if c = 'n' then '\n'
  else if c = 'r' then '\r' else if c = 't' then '\t' else if c = 'v' then Char.ofNat 11 else c

def digitValue (c : Char) : ℕ := c.toNat - 48

def hexValue (c : Char) : Option ℕ :=
  if c.isDigit then some (c.toNat - 48)
  else if 'a' ≤ c ∧ c ≤ 'f' then some (c.toNat - 87)
  else if 'A' ≤ c ∧ c ≤ 'F' then some (c.toNat - 55)
  else none

/-- The byte of a number. -/
def byteOf (value : ℕ) : Token := .byte (Char.ofNat (value % 256))

/-- A character in a literal. -/
def readLiteral (c : Char) : List Token × Mode :=
  if c = quote then ([.closing], .code) else if c = backslash then ([], .escape)
  else ([.byte c], .literal)

/-- One character. -/
def read (mode : Mode) (c : Char) : List Token × Mode :=
  match mode with
  | .code =>
      if c = quote then ([.opening], .literal) else if c = '#' then ([], .comment)
      else if c = '\n' then ([.newline], .code) else ([.code c], .code)
  | .comment => if c = '\n' then ([.newline], .code) else ([], .comment)
  | .literal => readLiteral c
  | .escape =>
      if c.isDigit then ([], .octal 1 (digitValue c))
      else if c = 'x' ∨ c = 'X' then ([], .hex 0)
      else ([.byte (unescape c)], .literal)
  | .octal digits value =>
      if c.isDigit ∧ digits < 3 then ([], .octal (digits + 1) (8 * value + digitValue c))
      else (byteOf value :: (readLiteral c).1, (readLiteral c).2)
  | .hex value =>
      match hexValue c with
      | some d => ([], .hex (16 * value + d))
      | none => (byteOf value :: (readLiteral c).1, (readLiteral c).2)

/-- The tokens of a text. -/
def scan : Mode → List Char → List Token
  | _, [] => []
  | mode, c :: cs => (read mode c).1 ++ scan (read mode c).2 cs

/-- Where the assembler is after a text. -/
def modeAfter : Mode → List Char → Mode
  | mode, [] => mode
  | mode, c :: cs => modeAfter (read mode c).2 cs

section Scan

variable {mode : Mode} {s t : List Char} {c : Char}

@[simp] theorem scan_nil : scan mode [] = [] := rfl

@[simp] theorem modeAfter_nil : modeAfter mode [] = mode := rfl

theorem scan_cons : scan mode (c :: s) = (read mode c).1 ++ scan (read mode c).2 s := rfl

theorem scan_append : scan mode (s ++ t) = scan mode s ++ scan (modeAfter mode s) t := by
  induction s generalizing mode with
  | nil => rfl
  | cons c s ih => rw [List.cons_append, scan_cons, scan_cons, ih, List.append_assoc]; rfl

theorem modeAfter_append : modeAfter mode (s ++ t) = modeAfter (modeAfter mode s) t := by
  induction s generalizing mode with
  | nil => rfl
  | cons c s ih => exact ih

end Scan

/-! ### Code -/

/-- No character has a meaning of its own. -/
def Plain (s : List Char) : Prop := ∀ c ∈ s, c ≠ quote ∧ c ≠ '#' ∧ c ≠ '\n'

instance (s : List Char) : Decidable (Plain s) := List.decidableBAll _ _

theorem plain_append {s t : List Char} : Plain (s ++ t) ↔ Plain s ∧ Plain t := List.forall_mem_append

theorem read_plain {c : Char} (h : c ≠ quote ∧ c ≠ '#' ∧ c ≠ '\n') :
    read .code c = ([.code c], .code) := by
  simp [read, h]

theorem scan_plain {s : List Char} (h : Plain s) :
    scan .code s = s.map .code ∧ modeAfter .code s = .code := by
  induction s with
  | nil => exact ⟨rfl, rfl⟩
  | cons c s ih =>
    have hread := read_plain (h c List.mem_cons_self)
    obtain ⟨htokens, hmode⟩ := ih fun d hd => h d (List.mem_cons_of_mem c hd)
    rw [scan_cons, modeAfter, hread, htokens]
    exact ⟨rfl, hmode⟩

/-! ### Literals -/

/-- No quote and no backslash. -/
def Clean (s : List Char) : Prop := quote ∉ s ∧ backslash ∉ s

instance (s : List Char) : Decidable (Clean s) := inferInstanceAs (Decidable (_ ∧ _))

theorem scan_clean {s : List Char} (h : Clean s) :
    scan .literal s = s.map .byte ∧ modeAfter .literal s = .literal := by
  induction s with
  | nil => exact ⟨rfl, rfl⟩
  | cons c s ih =>
    have hquote : c ≠ quote := fun heq => h.1 (heq ▸ List.mem_cons_self)
    have hbackslash : c ≠ backslash := fun heq => h.2 (heq ▸ List.mem_cons_self)
    have hread : read .literal c = ([.byte c], .literal) := by
      simp [read, readLiteral, hquote, hbackslash]
    obtain ⟨htokens, hmode⟩ := ih ⟨fun hq => h.1 (List.mem_cons_of_mem c hq),
      fun hb => h.2 (List.mem_cons_of_mem c hb)⟩
    rw [scan_cons, modeAfter, hread, htokens]
    exact ⟨rfl, hmode⟩

/-- How many characters of a literal, at least, stand for a byte that has not been read. -/
def pending : Mode → ℕ
  | .octal _ _ | .hex _ => 2
  | _ => 1

/-- In a literal. -/
def InLiteral : Mode → Prop
  | .code | .comment => False
  | _ => True

/-- One character of a literal that is not a quote. -/
theorem read_pending {mode : Mode} {c : Char} (hmode : InLiteral mode) (hc : c ≠ quote) :
    ∃ w : List Char, (read mode c).1 = w.map .byte ∧ InLiteral (read mode c).2 ∧
      w.length + pending (read mode c).2 ≤ pending mode + 1 := by
  have hplain : ∃ w : List Char, (readLiteral c).1 = w.map .byte ∧ InLiteral (readLiteral c).2 ∧
      w.length + pending (readLiteral c).2 ≤ 2 := by
    by_cases hb : c = backslash
    · have hread : readLiteral c = ([], .escape) := by rw [readLiteral, if_neg hc, if_pos hb]
      exact ⟨[], by rw [hread]; rfl, by rw [hread]; trivial, by rw [hread]; simp [pending]⟩
    · have hread : readLiteral c = ([.byte c], .literal) := by
        rw [readLiteral, if_neg hc, if_neg hb]
      exact ⟨[c], by rw [hread]; rfl, by rw [hread]; trivial, by rw [hread]; simp [pending]⟩
  have hnumber (value : ℕ) : ∃ w : List Char,
      byteOf value :: (readLiteral c).1 = w.map .byte ∧ InLiteral (readLiteral c).2 ∧
        w.length + pending (readLiteral c).2 ≤ 3 := by
    obtain ⟨w, hw, hin, hlength⟩ := hplain
    refine ⟨Char.ofNat (value % 256) :: w, by rw [hw]; rfl, hin, ?_⟩
    rw [List.length_cons]
    omega
  cases mode with
  | code => cases hmode
  | comment => cases hmode
  | literal => exact hplain
  | escape =>
    simp only [read]
    split_ifs
    · exact ⟨[], rfl, trivial, by simp [pending]⟩
    · exact ⟨[], rfl, trivial, by simp [pending]⟩
    · exact ⟨[unescape c], rfl, trivial, by simp [pending]⟩
  | octal digits value =>
    simp only [read]
    split_ifs
    · exact ⟨[], rfl, trivial, by simp [pending]⟩
    · exact hnumber value
  | hex value =>
    simp only [read]
    split
    · exact ⟨[], rfl, trivial, by simp [pending]⟩
    · exact hnumber value

/-- Some characters of a literal with no quote. -/
theorem scan_pending {mode : Mode} {a : List Char} (hmode : InLiteral mode) (ha : quote ∉ a) :
    ∃ w : List Char, scan mode a = w.map .byte ∧ InLiteral (modeAfter mode a) ∧
      w.length + pending (modeAfter mode a) ≤ pending mode + a.length := by
  induction a generalizing mode with
  | nil => exact ⟨[], rfl, hmode, by simp⟩
  | cons c a ih =>
    have hc : c ≠ quote := fun heq => ha (heq ▸ List.mem_cons_self)
    obtain ⟨w, hw, hin, hlength⟩ := read_pending hmode hc
    obtain ⟨w', hw', hin', hlength'⟩ := ih hin fun hq => ha (List.mem_cons_of_mem c hq)
    refine ⟨w ++ w', by rw [scan_cons, hw, hw', List.map_append], hin', ?_⟩
    rw [List.length_append, List.length_cons]
    show _ + pending (modeAfter (read mode c).2 a) ≤ _
    omega

/-- At a quote the literal ends, or the quote is one of its bytes. -/
theorem scan_quote {mode : Mode} {t : List Char} (hmode : InLiteral mode) :
    ∃ i < pending mode, (scan mode (quote :: t))[i]? = some .closing ∨
      (scan mode (quote :: t))[i]? = some (.byte quote) := by
  have hread : readLiteral quote = ([.closing], .code) := rfl
  cases mode with
  | code => cases hmode
  | comment => cases hmode
  | literal => exact ⟨0, by simp [pending], .inl rfl⟩
  | escape => exact ⟨0, by simp [pending], .inr rfl⟩
  | octal digits value =>
    refine ⟨1, by simp [pending], .inl ?_⟩
    have hdigit : quote.isDigit = false := rfl
    simp [scan_cons, read, hread, hdigit]
  | hex value => exact ⟨1, by simp [pending], .inl rfl⟩

/-- Behind a backslash something is read too early. -/
theorem scan_escaped {a t : List Char} (ha : quote ∉ a) (hb : backslash ∈ a) :
    ∃ i < a.length, (scan .literal (a ++ quote :: t))[i]? = some .closing ∨
      (scan .literal (a ++ quote :: t))[i]? = some (.byte quote) := by
  obtain ⟨p, u, rfl, hp⟩ := List.eq_append_cons_of_mem hb
  have hclean : Clean p := ⟨fun hq => ha (List.mem_append_left _ hq), hp⟩
  have hu : quote ∉ u := fun hq => ha (List.mem_append_right _ (List.mem_cons_of_mem _ hq))
  obtain ⟨w, hw, hin, hlength⟩ := scan_pending (show InLiteral .escape from trivial) hu
  obtain ⟨i, hi, htoken⟩ := scan_quote (t := t) hin
  have hescape : read .literal backslash = ([], .escape) := rfl
  have htokens : scan .literal (p ++ backslash :: u ++ quote :: t) =
      (p ++ w).map .byte ++ scan (modeAfter .escape u) (quote :: t) := by
    rw [List.append_assoc, scan_append, (scan_clean hclean).1, (scan_clean hclean).2,
      List.cons_append, scan_cons, hescape, List.nil_append, scan_append, hw, List.map_append,
      List.append_assoc]
  refine ⟨p.length + w.length + i, ?_, ?_⟩
  · simp only [List.length_append, List.length_cons]
    have hone : pending .escape = 1 := rfl
    omega
  · rw [htokens, List.getElem?_append_right (by simp), List.length_map, List.length_append,
      Nat.add_sub_cancel_left]
    exact htoken

theorem bytes_ne {a : List Char} {tokens : List Token} {i : ℕ} (ha : quote ∉ a) (hi : i < a.length) :
    ¬ ((a.map Token.byte ++ tokens)[i]? = some .closing ∨
      (a.map Token.byte ++ tokens)[i]? = some (.byte quote)) := by
  have hget : (a.map Token.byte ++ tokens)[i]? = some (.byte a[i]) := by
    rw [List.getElem?_append_left (by simpa using hi), List.getElem?_map,
      List.getElem?_eq_getElem hi]
    rfl
  rw [hget]
  rintro (h | h)
  · cases h
  · refine ha ?_
    rw [Option.some.injEq, Token.byte.injEq] at h
    rw [← h]
    exact List.getElem_mem hi

/-- **A literal** has the bytes between its quotes just when they are clean. -/
theorem literal_iff {s t : List Char} {tokens : List Token} :
    scan .literal (s ++ quote :: t) = s.map .byte ++ .closing :: tokens ↔
      Clean s ∧ scan .code t = tokens := by
  have hclose : read .literal quote = ([.closing], .code) := rfl
  have hclean (h : Clean s) :
      scan .literal (s ++ quote :: t) = s.map .byte ++ .closing :: scan .code t := by
    rw [scan_append, (scan_clean h).1, (scan_clean h).2, scan_cons, hclose, List.singleton_append]
  constructor
  · intro h
    have hquote : quote ∉ s := by
      intro hq
      obtain ⟨a, b, rfl, ha⟩ := List.eq_append_cons_of_mem hq
      rw [List.append_assoc, List.cons_append, List.map_append, List.append_assoc] at h
      by_cases hb : backslash ∈ a
      · obtain ⟨i, hi, htoken⟩ := scan_escaped (t := b ++ quote :: t) ha hb
        rw [h] at htoken
        exact bytes_ne ha hi htoken
      · rw [scan_append, (scan_clean ⟨ha, hb⟩).1, (scan_clean ⟨ha, hb⟩).2, scan_cons, hclose] at h
        cases List.append_cancel_left h
    have hs : Clean s := by
      refine ⟨hquote, fun hb => ?_⟩
      obtain ⟨i, hi, htoken⟩ := scan_escaped (t := t) hquote hb
      rw [h] at htoken
      exact bytes_ne hquote hi htoken
    rw [hclean hs] at h
    exact ⟨hs, by simpa using h⟩
  · rintro ⟨hs, rfl⟩
    exact hclean hs

/-! ### Comments -/

/-- Nothing but white space. -/
def Token.Blank : Token → Prop
  | .code c => c.isWhitespace = true
  | .newline => True
  | _ => False

@[simp] theorem blank_code {c : Char} : (Token.code c).Blank ↔ c.isWhitespace = true := Iff.rfl

@[simp] theorem blank_newline : Token.newline.Blank := trivial

/-- Nothing but white space before a comment sign. -/
def BlankLine (line : List Char) : Prop := ∀ c ∈ line.takeWhile (· ≠ '#'), c.isWhitespace = true

instance (line : List Char) : Decidable (BlankLine line) := List.decidableBAll _ _

/-- A text has no effect behind a comment sign: all of its lines but the first are blank. -/
def Quiet (s : List Char) : Prop := ∀ line ∈ (s.splitOn '\n').tail, BlankLine line

instance (s : List Char) : Decidable (Quiet s) := List.decidableBAll _ _

theorem scan_comment {s : List Char} (h : '\n' ∉ s) :
    scan .comment s = [] ∧ modeAfter .comment s = .comment := by
  induction s with
  | nil => exact ⟨rfl, rfl⟩
  | cons c s ih =>
    have hread : read .comment c = ([], .comment) := by
      have hc : c ≠ '\n' := fun heq => h (heq ▸ List.mem_cons_self)
      simp [read, hc]
    obtain ⟨htokens, hmode⟩ := ih fun hn => h (List.mem_cons_of_mem c hn)
    rw [scan_cons, modeAfter, hread, htokens]
    exact ⟨rfl, hmode⟩

/-- One line, up to its newline, and what comes behind it. -/
theorem blank_line_iff {l t : List Char} (hl : '\n' ∉ l) :
    (∀ x ∈ scan .code (l ++ '\n' :: t), x.Blank) ↔ BlankLine l ∧ ∀ x ∈ scan .code t, x.Blank := by
  induction l with
  | nil =>
    have hread : read .code '\n' = ([.newline], .code) := rfl
    simp [scan_cons, hread, BlankLine]
  | cons c l ih =>
    have hc : c ≠ '\n' := fun heq => hl (heq ▸ List.mem_cons_self)
    have hl' : '\n' ∉ l := fun hn => hl (List.mem_cons_of_mem c hn)
    have hend : read .comment '\n' = ([.newline], .code) := rfl
    rw [List.cons_append, scan_cons]
    by_cases hcomment : c = '#'
    · have hread : read .code c = ([], .comment) := by rw [hcomment]; rfl
      rw [hread, List.nil_append, scan_append, (scan_comment hl').1, (scan_comment hl').2, scan_cons,
        hend]
      simp [BlankLine, hcomment]
    · by_cases hquote : c = quote
      · have hread : read .code c = ([.opening], .literal) := if_pos hquote
        rw [hread, List.singleton_append, List.forall_mem_cons]
        constructor
        · exact fun h => absurd h.1 id
        · rintro ⟨hblank, -⟩
          have hspace := hblank quote (by simp [hquote, show quote ≠ '#' by decide])
          exact absurd hspace (by decide)
      · have hread : read .code c = ([.code c], .code) := read_plain ⟨hquote, hcomment, hc⟩
        rw [hread, List.singleton_append, List.forall_mem_cons, ih hl', ← and_assoc]
        refine and_congr_left fun _ => ?_
        simp [BlankLine, hcomment]

theorem blank_lines_iff {s t : List Char} : (∀ x ∈ scan .code (s ++ '\n' :: t), x.Blank) ↔
    (∀ line ∈ s.splitOn '\n', BlankLine line) ∧ ∀ x ∈ scan .code t, x.Blank := by
  induction hlength : s.length using Nat.strong_induction_on generalizing s with
  | h n ih =>
    by_cases hn : '\n' ∈ s
    · obtain ⟨l, s', rfl, hl⟩ := List.eq_append_cons_of_mem hn
      rw [List.append_assoc, List.cons_append, blank_line_iff hl, List.splitOn_append_cons_self,
        List.splitOn_eq_singleton hl, List.singleton_append, List.forall_mem_cons, and_assoc,
        ih s'.length (by simp at hlength; omega) rfl]
    · rw [blank_line_iff hn, List.splitOn_eq_singleton hn, List.forall_mem_singleton]

/-- **A comment**, up to a newline that ends it, and what comes behind it. -/
theorem blank_iff {s t : List Char} : (∀ x ∈ scan .comment (s ++ '\n' :: t), x.Blank) ↔
    Quiet s ∧ ∀ x ∈ scan .code t, x.Blank := by
  have hend : read .comment '\n' = ([.newline], .code) := rfl
  by_cases hn : '\n' ∈ s
  · obtain ⟨l, s', rfl, hl⟩ := List.eq_append_cons_of_mem hn
    rw [List.append_assoc, List.cons_append, scan_append, (scan_comment hl).1, (scan_comment hl).2,
      scan_cons, hend, Quiet, List.splitOn_append_cons_self, List.splitOn_eq_singleton hl]
    simp only [List.nil_append, List.singleton_append, List.forall_mem_cons, blank_newline, true_and,
      List.tail_cons]
    exact blank_lines_iff
  · rw [scan_append, (scan_comment hn).1, (scan_comment hn).2, scan_cons, hend, Quiet,
      List.splitOn_eq_singleton hn]
    simp

/-! ### Labels -/

/-- One token: the labels that it ends, and what has been read of the statement.  A label is what stands
before a colon; blanks do not count. -/
def readLabel (word : List Char) : Token → List (List Char) × List Char
  | .code c =>
      if c = ':' then ([word], []) else if c = ';' then ([], [])
      else if c.isWhitespace then ([], word) else ([], word ++ [c])
  | .newline => ([], [])
  | .byte c => ([], word ++ [c])
  | .opening | .closing => ([], word)

/-- The labels that some tokens define. -/
def labels : List Char → List Token → List (List Char)
  | _, [] => []
  | word, x :: xs => (readLabel word x).1 ++ labels (readLabel word x).2 xs

/-- What has been read of a statement after some tokens. -/
def wordAfter : List Char → List Token → List Char
  | word, [] => word
  | word, x :: xs => wordAfter (readLabel word x).2 xs

/-- The labels that a text defines. -/
def labelsIn (s : List Char) : List (List Char) := labels [] (scan .code s)

/-- A character that ends no statement and no label, and begins no comment and no literal. -/
def Ordinary (c : Char) : Prop := c ≠ quote ∧ c ≠ '#' ∧ c ≠ '\n' ∧ c ≠ ':' ∧ c ≠ ';'

instance : DecidablePred Ordinary := fun _ => inferInstanceAs (Decidable (_ ∧ _))

/-- A statement with no label. -/
def Statement (s : List Char) : Prop := ∀ c ∈ s, Ordinary c

instance (s : List Char) : Decidable (Statement s) := List.decidableBAll _ _

/-- A name. -/
def Symbol (s : List Char) : Prop := ∀ c ∈ s, Ordinary c ∧ c.isWhitespace = false

instance (s : List Char) : Decidable (Symbol s) := List.decidableBAll _ _

theorem Symbol.statement {s : List Char} (h : Symbol s) : Statement s := fun c hc => (h c hc).1

@[simp] theorem statement_nil : Statement [] := by simp [Statement]

@[simp] theorem statement_cons {c : Char} {s : List Char} :
    Statement (c :: s) ↔ Ordinary c ∧ Statement s := List.forall_mem_cons

@[simp] theorem statement_append {s t : List Char} : Statement (s ++ t) ↔ Statement s ∧ Statement t :=
  List.forall_mem_append

@[simp] theorem symbol_append {s t : List Char} : Symbol (s ++ t) ↔ Symbol s ∧ Symbol t :=
  List.forall_mem_append

theorem Statement.plain {s : List Char} (h : Statement s) : Plain s := by
  intro c hc
  obtain ⟨hquote, hcomment, hnewline, -⟩ := h c hc
  exact ⟨hquote, hcomment, hnewline⟩

theorem labels_append (word : List Char) (xs ys : List Token) :
    labels word (xs ++ ys) = labels word xs ++ labels (wordAfter word xs) ys := by
  induction xs generalizing word with
  | nil => rfl
  | cons x xs ih => rw [List.cons_append, labels, labels, ih, List.append_assoc]; rfl

/-- The tokens of a statement. -/
theorem labels_statement {s : List Char} (h : Statement s) (word : List Char) :
    labels word (s.map .code) = [] := by
  induction s generalizing word with
  | nil => rfl
  | cons c s ih =>
    obtain ⟨-, -, -, hcolon, hsemicolon⟩ := h c List.mem_cons_self
    have hnone : (readLabel word (.code c)).1 = [] := by
      simp only [readLabel, if_neg hcolon, if_neg hsemicolon]
      split_ifs <;> rfl
    rw [List.map_cons, labels, hnone, List.nil_append]
    exact ih (fun d hd => h d (List.mem_cons_of_mem c hd)) _

theorem wordAfter_symbol {s : List Char} (h : Symbol s) (word : List Char) :
    wordAfter word (s.map .code) = word ++ s := by
  induction s generalizing word with
  | nil => simp [wordAfter]
  | cons c s ih =>
    obtain ⟨⟨-, -, -, hcolon, hsemicolon⟩, hspace⟩ := h c List.mem_cons_self
    have hread : (readLabel word (.code c)).2 = word ++ [c] := by
      simp [readLabel, hcolon, hsemicolon, hspace]
    rw [List.map_cons, wordAfter, hread, ih fun d hd => h d (List.mem_cons_of_mem c hd),
      List.append_assoc]
    rfl

/-- The bytes of a literal. -/
theorem labels_bytes (s : List Char) (word : List Char) : labels word (s.map .byte) = [] := by
  induction s generalizing word with
  | nil => rfl
  | cons c s ih =>
    rw [List.map_cons, labels]
    exact ih _

theorem labels_blank {xs : List Token} (h : ∀ x ∈ xs, x.Blank) :
    labels [] xs = [] ∧ wordAfter [] xs = [] := by
  induction xs with
  | nil => exact ⟨rfl, rfl⟩
  | cons x xs ih =>
    have hread : readLabel [] x = ([], []) := by
      have hx := h x List.mem_cons_self
      cases x with
      | code c =>
        have hspace : c.isWhitespace = true := hx
        by_cases hcolon : c = ':'
        · rw [hcolon] at hspace
          cases hspace
        · simp [readLabel, hcolon, hspace]
      | newline => rfl
      | opening | byte _ | closing => cases hx
    obtain ⟨hlabels, hword⟩ := ih fun y hy => h y (List.mem_cons_of_mem x hy)
    rw [labels, wordAfter, hread, hlabels]
    exact ⟨rfl, hword⟩

/-- The rest of a line with a statement. -/
theorem labels_line {s t word : List Char} (h : Statement s) :
    labels word (scan .code (s ++ '\n' :: t)) = labelsIn t := by
  have hnewline : scan .code ('\n' :: t) = .newline :: scan .code t := rfl
  rw [scan_append, (scan_plain h.plain).1, (scan_plain h.plain).2, hnewline, labels_append,
    labels_statement h]
  rfl

/-- A line with a statement. -/
theorem labelsIn_line {s t : List Char} (h : Statement s) : labelsIn (s ++ '\n' :: t) = labelsIn t :=
  labels_line h

/-- A name and a colon, and what comes behind them. -/
theorem labels_label {s : List Char} {xs : List Token} (h : Symbol s) :
    labels [] (s.map .code ++ .code ':' :: xs) = s :: labels [] xs := by
  have hcolon : readLabel s (.code ':') = ([s], []) := rfl
  rw [labels_append, labels_statement h.statement, wordAfter_symbol h, List.nil_append,
    List.nil_append, labels, hcolon]
  rfl

/-- A line with a label. -/
theorem labelsIn_label {s t : List Char} (h : Symbol s) :
    labelsIn (s ++ ':' :: '\n' :: t) = s :: labelsIn t := by
  have htext : scan .code (':' :: '\n' :: t) = .code ':' :: .newline :: scan .code t := rfl
  rw [labelsIn, scan_append, (scan_plain h.statement.plain).1, (scan_plain h.statement.plain).2, htext,
    labels_label h]
  rfl

/-- Blank tokens do not come from inside a literal. -/
theorem modeAfter_of_blank {s : List Char} {mode : Mode} (hmode : mode = .code ∨ mode = .comment)
    (h : ∀ x ∈ scan mode s, x.Blank) : modeAfter mode s = .code ∨ modeAfter mode s = .comment := by
  induction s generalizing mode with
  | nil => exact hmode
  | cons c s ih =>
    rw [scan_cons, List.forall_mem_append] at h
    refine ih ?_ h.2
    rcases hmode with rfl | rfl
    · by_cases hquote : c = quote
      · have hread : read .code c = ([.opening], .literal) := if_pos hquote
        rw [hread] at h
        exact absurd (h.1 .opening List.mem_cons_self) id
      · simp only [read, if_neg hquote]
        split_ifs <;> simp
    · simp only [read]
      split_ifs <;> simp

/-- **A comment** that shows a quiet text defines no label. -/
theorem labelsIn_comment {s t : List Char} (h : Quiet s) :
    labelsIn ('#' :: (s ++ '\n' :: t)) = labelsIn t := by
  have hblank : ∀ x ∈ scan .comment (s ++ ['\n']), x.Blank := blank_iff.2 ⟨h, by simp⟩
  have hread : read .code '#' = ([], .comment) := rfl
  have hend : modeAfter .comment (s ++ ['\n']) = .code := by
    rw [scan_append, List.forall_mem_append] at hblank
    rw [modeAfter_append]
    rcases modeAfter_of_blank (.inr rfl) hblank.1 with hmode | hmode <;> rw [hmode] <;> rfl
  rw [labelsIn, scan_cons, hread, List.nil_append, show s ++ '\n' :: t = s ++ ['\n'] ++ t by simp,
    scan_append, hend, labels_append, (labels_blank hblank).1, (labels_blank hblank).2]
  rfl

/-- A text without newlines is quiet. -/
theorem quiet_of_not_mem {s : List Char} (h : '\n' ∉ s) : Quiet s := by
  rw [Quiet, List.splitOn_eq_singleton h]
  simp

/-- Before a quiet text there can stand another one, in the same line. -/
theorem Quiet.append_left {s t : List Char} (hs : '\n' ∉ s) (h : Quiet t) : Quiet (s ++ t) := by
  have hall := (blank_iff (t := [])).2 ⟨h, by simp⟩
  refine ((blank_iff (t := [])).1 ?_).1
  rw [List.append_assoc, scan_append, (scan_comment hs).1, (scan_comment hs).2]
  exact hall

end AsmText
