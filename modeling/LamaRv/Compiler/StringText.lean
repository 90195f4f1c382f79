import LamaRv.Compiler.Sites
import LamaRv.Lib.AsmText

/-!
# Strings in the emitted text (`compiler.h`, `lama_rv.cpp`)

A string comes to the output at two places: between the quotes of the data section, and in the comment
that shows its instruction.  It is printed as it is.

* `headerText`, `stringComments`: these parts of the output, as characters;
* `Assembled`: the assembler reads the strings and nothing else of them;
* `strings_assembled_iff`: it does just when the strings have no quotes and no backslashes, and what
  stands behind the newlines of a commented string is blank.
-/

namespace LamaRv

open AsmText

/-! ### The code -/

/-- What `header` prints before the number of globals. -/
def sectionText : List Char :=
  (".section .rodata\n.section custom_data,\"aw\",@progbits\n.fill 128, 8, 1\n.data\nglobals:\n" ++
    ".fill ").toList

/-- What `header` prints between the number of globals and the strings. -/
def alignText : List Char := ", 8, 0\n.align 8\n".toList

/-- What `header` prints before the strings. -/
def dataText (globalsCount : ℕ) : List Char :=
  sectionText ++ (formatInt globalsCount).toList ++ alignText

/-- The definition of a string. -/
def definitionText (label str : String) : List Char :=
  (label ++ ": .asciz \"" ++ str ++ "\"\n").toList

/-- The names of the strings, with the strings. -/
def stringTab (strs : List String) : List (String × String) :=
  strs.zipIdx.map fun p => ("string_" ++ formatInt p.2, p.1)

/-- What `header` prints after the strings. -/
def codeText : List Char := "\n.text\n.global main\n".toList

/-- The text that `header` prints. -/
def headerText (filename : String) (strs : List String) (globalsCount : ℕ) : List Char :=
  dataText globalsCount ++ definitionText "fname" filename ++
    (stringTab strs).flatMap (fun p => definitionText p.1 p.2) ++ codeText

/-- The comment with the text of an instruction, as `emit` prints it. -/
def instComment (i : Instruction) : List Char :=
  match i.print with
  | .ok disasm => ("# " ++ ("-> " ++ disasm) ++ "\n").toList
  | .error _ => []

/-- The string of a `STRING` instruction. -/
def Instruction.string? : Instruction → Option String
  | .string _ str => some str
  | _ => none

/-- The comments of the `STRING` instructions that have been emitted. -/
def stringComments (log : List Emission) : List Char :=
  (log.reverse.filter fun e => e.inst.string?.isSome).flatMap fun e => instComment e.inst

/-! ### What the assembler should read -/

/-- The label, the directive and the bytes of a string, behind which `.asciz` puts a zero. -/
def definitionTokens (label str : String) : List Token :=
  (label ++ ": .asciz ").toList.map .code ++ .opening :: str.toList.map .byte ++ [.closing, .newline]

/-- The tokens of the data section. -/
def headerTokens (filename : String) (strs : List String) (globalsCount : ℕ) : List Token :=
  scan .code (dataText globalsCount) ++ definitionTokens "fname" filename ++
    (stringTab strs).flatMap (fun p => definitionTokens p.1 p.2) ++ scan .code codeText

/-- The assembler reads the header, in which the labels stand for the bytes of the strings, and in the
comments nothing. -/
def Assembled (filename : String) (strs : List String) (globalsCount : ℕ) (comments : List Char) :
    Prop :=
  ∃ ws, scan .code (headerText filename strs globalsCount ++ comments) =
    headerTokens filename strs globalsCount ++ ws ∧ ∀ x ∈ ws, x.Blank

/-! ### The header -/

theorem plain_formatInt (n : ℕ) : Plain (formatInt n).toList := by
  intro c hc
  have hdigit : c.isDigit = true := by
    have htext : (formatInt n).toList = Nat.toDigits 10 n := by
      simp [formatInt, Int.repr_eq_if, Nat.repr]
    rw [htext] at hc
    exact Nat.isDigit_of_mem_toDigits (by omega) le_rfl hc
  refine ⟨?_, ?_, ?_⟩ <;> rintro rfl <;> exact absurd hdigit (by decide)

theorem modeAfter_dataText (n : ℕ) : modeAfter .code (dataText n) = .code := by
  have hfirst : modeAfter .code sectionText = .code := by decide +kernel
  have hlast : modeAfter .code alignText = .code := by decide +kernel
  rw [dataText, modeAfter_append, modeAfter_append, hfirst, (scan_plain (plain_formatInt n)).2, hlast]

theorem modeAfter_codeText : modeAfter .code codeText = .code := by decide +kernel

/-- The definition of one string, and what comes behind it. -/
theorem definition_iff {label str : String} {t : List Char} {tokens : List Token}
    (hlabel : Plain label.toList) :
    scan .code (definitionText label str ++ t) = definitionTokens label str ++ tokens ↔
      Clean str.toList ∧ scan .code t = tokens := by
  have hplain : Plain (label ++ ": .asciz ").toList := by
    rw [String.toList_append]
    exact plain_append.2 ⟨hlabel, by decide⟩
  have htext : definitionText label str ++ t =
      (label ++ ": .asciz ").toList ++ quote :: (str.toList ++ quote :: ('\n' :: t)) := by
    have hopen : ": .asciz \"".toList = ": .asciz ".toList ++ [quote] := by decide
    have hclose : "\"\n".toList = [quote, '\n'] := by decide
    simp only [definitionText, String.toList_append, hopen, hclose, List.append_assoc,
      List.cons_append, List.nil_append]
  have hquote : read .code quote = ([.opening], .literal) := rfl
  have hnewline : scan .code ('\n' :: t) = .newline :: scan .code t := rfl
  have hexpected : definitionTokens label str ++ tokens =
      (label ++ ": .asciz ").toList.map .code ++
        .opening :: (str.toList.map .byte ++ .closing :: (.newline :: tokens)) := by
    simp [definitionTokens]
  rw [htext, hexpected, scan_append, (scan_plain hplain).1, (scan_plain hplain).2, scan_cons, hquote,
    List.append_right_inj, List.singleton_append, List.cons.injEq, literal_iff, hnewline,
    List.cons.injEq]
  simp only [true_and]

theorem plain_stringTab {strs : List String} {p : String × String} (hp : p ∈ stringTab strs) :
    Plain p.1.toList := by
  obtain ⟨q, -, rfl⟩ := List.mem_map.1 hp
  rw [String.toList_append]
  exact plain_append.2 ⟨by decide, plain_formatInt q.2⟩

theorem stringTab_strings (strs : List String) : (stringTab strs).map Prod.snd = strs := by
  rw [stringTab, List.map_map]
  exact List.zipIdx_map_fst 0 strs

/-- The definitions of some strings. -/
theorem definitions_iff {defs : List (String × String)} {t : List Char} {tokens : List Token}
    (hdefs : ∀ p ∈ defs, Plain p.1.toList) :
    scan .code (defs.flatMap (fun p => definitionText p.1 p.2) ++ t) =
        defs.flatMap (fun p => definitionTokens p.1 p.2) ++ tokens ↔
      (∀ p ∈ defs, Clean p.2.toList) ∧ scan .code t = tokens := by
  induction defs with
  | nil => simp
  | cons p defs ih =>
    rw [List.flatMap_cons, List.flatMap_cons, List.append_assoc, List.append_assoc,
      definition_iff (hdefs p List.mem_cons_self), ih fun q hq => hdefs q (List.mem_cons_of_mem p hq),
      List.forall_mem_cons, and_assoc]

/-- **The header** is read as it should just when the file name and the strings are clean. -/
theorem header_iff {filename : String} {strs : List String} {globalsCount : ℕ} {t : List Char}
    {tokens : List Token} :
    scan .code (headerText filename strs globalsCount ++ t) =
        headerTokens filename strs globalsCount ++ tokens ↔
      (∀ s ∈ filename :: strs, Clean s.toList) ∧ scan .code t = tokens := by
  have hname : Plain "fname".toList := by decide
  have hclean : (∀ p ∈ stringTab strs, Clean p.2.toList) ↔ ∀ s ∈ strs, Clean s.toList := by
    rw [← List.forall_mem_map (f := Prod.snd) (P := fun s : String => Clean s.toList), stringTab_strings]
  rw [headerText, headerTokens, List.append_assoc, List.append_assoc, List.append_assoc, scan_append,
    modeAfter_dataText, List.append_assoc, List.append_assoc, List.append_assoc, List.append_right_inj,
    definition_iff hname, definitions_iff fun p => plain_stringTab, scan_append, modeAfter_codeText,
    List.append_right_inj, List.forall_mem_cons, hclean, and_assoc]

/-! ### The comments -/

/-- The comment of a `STRING` instruction, and what comes behind it. -/
theorem instComment_iff {i : Instruction} {str : String} {t : List Char} (hi : i.string? = some str) :
    (∀ x ∈ scan .code (instComment i ++ t), x.Blank) ↔
      AsmText.Quiet str.toList ∧ ∀ x ∈ scan .code t, x.Blank := by
  cases i with
  | string ind str' =>
    cases hi
    have htext : instComment (.string ind str) ++ t =
        '#' :: (" -> STRING\t".toList ++ (str.toList ++ '\n' :: t)) := by
      simp [instComment, Instruction.print]
    have hprefix := scan_comment (s := " -> STRING\t".toList) (by decide)
    have hread : read .code '#' = ([], .comment) := rfl
    rw [htext, scan_cons, hread, List.nil_append, scan_append, hprefix.1, hprefix.2, List.nil_append]
    exact blank_iff
  | _ => cases hi

/-- The strings of the emitted instructions. -/
def shownStrings (log : List Emission) : List String := log.filterMap fun e => e.inst.string?

theorem comments_iff {es : List Emission} : (∀ x ∈ scan .code
      ((es.filter fun e => e.inst.string?.isSome).flatMap fun e => instComment e.inst), x.Blank) ↔
    ∀ s ∈ shownStrings es, AsmText.Quiet s.toList := by
  induction es with
  | nil => simp [shownStrings]
  | cons e es ih =>
    cases hi : e.inst.string? with
    | none => simpa [shownStrings, hi] using ih
    | some str =>
      have hshown : shownStrings (e :: es) = str :: shownStrings es := by
        rw [shownStrings, List.filterMap_cons, hi]
        rfl
      rw [List.filter_cons_of_pos (by simp [hi]), List.flatMap_cons, instComment_iff hi, ih, hshown,
        List.forall_mem_cons]

/-- **Strings in the output.**  The assembler reads the strings of the data section, and nothing of
those in the comments, just when no string has a quote or a backslash and the lines of a commented
string, but the first, are blank. -/
theorem strings_assembled_iff (m : Module) (log : List Emission) :
    Assembled m.filename m.strings m.globalAreaSize (stringComments log) ↔
      (∀ s ∈ m.filename :: m.strings, Clean s.toList) ∧
        ∀ s ∈ shownStrings log, AsmText.Quiet s.toList := by
  have hshown : (∀ s ∈ shownStrings log.reverse, AsmText.Quiet s.toList) ↔
      ∀ s ∈ shownStrings log, AsmText.Quiet s.toList := by
    simp only [shownStrings, List.filterMap_reverse, List.mem_reverse]
  rw [← hshown, ← comments_iff]
  constructor
  · rintro ⟨ws, htokens, hblank⟩
    obtain ⟨hclean, rfl⟩ := header_iff.1 htokens
    exact ⟨hclean, hblank⟩
  · rintro ⟨hclean, hblank⟩
    exact ⟨_, header_iff.2 ⟨hclean, rfl⟩, hblank⟩

/-! ### Runs -/

theorem openInst_comment {c c₁ : Compiler} {o : ℕ} {i : Instruction} (h : openInst c o i = .ok c₁) :
    ∃ T disasm, i.print = .ok disasm ∧ c₁.cb = T ++ [.comment ("-> " ++ disasm)] := by
  simp only [openInst, bind_ok, return_ok] at h
  obtain ⟨c₂, -, disasm, hprint, rfl⟩ := h
  exact ⟨c₂.cb, disasm, hprint, rfl⟩

/-- The code of an instruction stands behind the comment with its text. -/
theorem Run.comment {m : Module} {log : List Emission} {es : List (ℕ × Instruction)} {c : Compiler}
    (h : Run m log es c) : ∀ e ∈ log, ∃ T disasm, e.before.cb = T ++ [.comment ("-> " ++ disasm)] ∧
      instComment e.inst = ("# " ++ ("-> " ++ disasm) ++ "\n").toList := by
  have hstep {c c₁ : Compiler} {o : ℕ} {i : Instruction} (h : openInst c o i = .ok c₁) :
      ∃ T disasm, c₁.cb = T ++ [.comment ("-> " ++ disasm)] ∧
        instComment i = ("# " ++ ("-> " ++ disasm) ++ "\n").toList := by
    obtain ⟨T, disasm, hprint, hcb⟩ := openInst_comment h
    exact ⟨T, disasm, hcb, by rw [instComment, hprint]⟩
  induction h with
  | start => simp
  | stale _ _ _ ih => exact ih
  | take _ _ _ ih => exact ih
  | last _ hopen _ _ ih => exact List.forall_mem_cons.2 ⟨hstep hopen, ih⟩
  | next _ hopen _ _ ih => exact List.forall_mem_cons.2 ⟨hstep hopen, ih⟩

/-- A program with a string of one quote. -/
def quoteProgram : Module where
  filename := "quote.bc"
  instructions := ⟨[(0, .beginInst (.inl "main") 2 0), (9, .string 0 "\""), (14, .endInst)], by decide⟩
  strings := ["\""]
  globalAreaSize := 0
  publicSymbols := [("main", 0)]

/-- The label of the string does not stand for a quote. -/
theorem quoteProgram_not_assembled : ∃ log c, Completes quoteProgram log c ∧
    ¬ Assembled quoteProgram.filename quoteProgram.strings quoteProgram.globalAreaSize
      (stringComments log) := by
  have hemits : ∃ c, Emits quoteProgram c :=
    ⟨_, ⟨_, rfl, .single (@Round.chunk _ _ 0 0 _ rfl rfl rfl)⟩, rfl⟩
  obtain ⟨c, hc⟩ := hemits
  obtain ⟨log, hlog⟩ := emits_iff.1 hc
  refine ⟨log, c, hlog, ?_⟩
  rintro ⟨ws, htokens, -⟩
  have hclean := (header_iff.1 htokens).1 "\"" (by simp [quoteProgram])
  exact absurd hclean (by decide)

end LamaRv
