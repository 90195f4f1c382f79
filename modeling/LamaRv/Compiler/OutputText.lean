import LamaRv.Compiler.StringText

/-!
# The output as characters (`code_buffer.h`, `compiler.h`)

What the methods of `CodeBuffer` print, and the labels that an assembler finds in it.  Names and
strings of the module are printed as they are, so they can define labels of their own.

* `Module.output`: the text that `emit` prints;
* `Module.Printable`: the names and strings of a module that add nothing to the labels;
* `Run.printable`: all lines of a run are printable then;
* `Run.outputLabels`: the labels of the text are those of the lines.
-/

namespace LamaRv

open Rv64 CodeBuffer Compiler AsmText

/-! ### The code -/

/-- `Register::to_string`. -/
def regName (r : Reg) : String :=
  ["zero", "ra", "sp", "gp", "tp", "t0", "t1", "t2", "fp", "s1", "a0", "a1", "a2", "a3", "a4", "a5",
    "a6", "a7", "s2", "s3", "s4", "s5", "s6", "s7", "s8", "s9", "s10", "s11", "t3", "t4", "t5",
    "t6"].getD r ""

def rtypeName : RType → String
  | .add => "add" | .sub => "sub" | .slt => "slt" | .sgt => "sgt" | .or => "or" | .and => "and"
  | .srl => "srl" | .sra => "sra" | .sll => "sll" | .mul => "mul" | .div => "div" | .rem => "rem"

def itypeName : IType → String
  | .addi => "addi" | .slti => "slti" | .srai => "srai" | .slli => "slli" | .ori => "ori"
  | .xori => "xori" | .andi => "andi"

def pseudoName : Pseudo → String
  | .seqz => "seqz" | .snez => "snez"

/-- The text of an instruction.  (`premain` and `postmain` have blanks where the others have tabs.) -/
def opText : Op → String
  | .rtype insn dst src1 src2 =>
      rtypeName insn ++ "\t" ++ regName dst ++ ",\t" ++ regName src1 ++ ",\t" ++ regName src2
  | .itype insn dst src imm =>
      itypeName insn ++ "\t" ++ regName dst ++ ",\t" ++ regName src ++ ",\t" ++ formatInt imm
  | .pseudo insn dst src => pseudoName insn ++ "\t" ++ regName dst ++ ",\t" ++ regName src
  | .mv dst src => "mv\t" ++ regName dst ++ ",\t" ++ regName src
  | .li dst imm => "li\t" ++ regName dst ++ ",\t" ++ formatInt imm
  | .la dst label => "la\t" ++ regName dst ++ ",\t" ++ label
  | .ld dst base off => "ld\t" ++ regName dst ++ ",\t" ++ formatInt off ++ "(" ++ regName base ++ ")"
  | .sd src base off => "sd\t" ++ regName src ++ ",\t" ++ formatInt off ++ "(" ++ regName base ++ ")"
  | .sdLabel src label temp => "sd " ++ regName src ++ ", " ++ label ++ ", " ++ regName temp

/-- The text of a line. -/
def lineText : Line → String
  | .label name => name ++ ":"
  | .comment text => "# " ++ text
  | .directive text => text
  | .asciz text => ".asciz \"" ++ text ++ "\""
  | .op o => opText o
  | .call label => "call\t" ++ label
  | .ret => "ret"
  | .j label => "j " ++ label
  | .branch onEq src1 src2 label =>
      (if onEq then "beq" else "bne") ++ "\t" ++ regName src1 ++ ",\t" ++ regName src2 ++ ",\t" ++ label

/-- `CodeBuffer::emit`. -/
def printLine (l : Line) : List Char := (lineText l).toList ++ ['\n']

/-- The lines of the data section. -/
def Module.headerLines (m : Module) : Text :=
  (header { filename := m.filename, strs := m.strings, globalsCount := m.globalAreaSize }).cb

/-- The text that `emit` prints when it ends in the state `c`. -/
def Module.output (m : Module) (c : Compiler) : List Char :=
  headerText m.filename m.strings m.globalAreaSize ++
    (c.cb.drop m.headerLines.length).flatMap printLine ++ ['\n']

/-- The labels of the output. -/
def Module.outputLabels (m : Module) (c : Compiler) : List String :=
  (labelsIn (m.output c)).map String.ofList

/-! ### Names and strings -/

/-- The names and strings of an instruction, in its code and in the comment that shows it, add nothing
to the labels. -/
def Instruction.Printable : Instruction → Prop
  | .string _ str => AsmText.Quiet str.toList
  | .sExpression name _ | .tag name _ => '\n' ∉ name.toList
  | .beginInst (.inl name) _ _ | .call (.inl name) _ => Symbol name.toList
  | _ => True

/-- The names and strings of a module add nothing to the labels. -/
structure Module.Printable (m : Module) : Prop where
  texts : ∀ s ∈ m.filename :: m.strings, Clean s.toList
  instructions : ∀ o i, m.instructions.at? o = some i → i.Printable

/-! ### Numbers -/

theorem symbol_digit : ∀ k < 16, Ordinary (Nat.digitChar k) ∧ (Nat.digitChar k).isWhitespace = false := by
  decide

theorem symbol_toDigits {b n : ℕ} (hb : 1 < b) (hle : b ≤ 16) : Symbol (Nat.toDigits b n) := by
  induction n using Nat.strongRecOn with
  | ind n ih =>
    have hlast : Symbol [Nat.digitChar (n % b)] := by
      intro c hc
      rw [List.mem_singleton.1 hc]
      exact symbol_digit _ (by have := Nat.mod_lt n (by omega : b > 0); omega)
    rw [Nat.toDigits_eq_if hb]
    split_ifs with hn
    · rwa [Nat.mod_eq_of_lt hn] at hlast
    · exact symbol_append.2 ⟨ih _ (Nat.div_lt_self (by omega) hb), hlast⟩

@[simp] theorem symbol_formatInt (x : ℤ) : Symbol (formatInt x).toList := by
  have hdigits (n : ℕ) : Symbol (Nat.toDigits 10 n) := symbol_toDigits (by decide) (by decide)
  have hminus : Symbol "-".toList := by decide
  rw [formatInt, Int.toString_eq_repr, Int.repr_eq_if]
  split_ifs
  · rw [Nat.repr, String.toList_ofList]
    exact hdigits _
  · have hnat : Symbol (Nat.repr (-x).toNat).toList := by
      rw [Nat.repr, String.toList_ofList]
      exact hdigits _
    rw [String.toList_append]
    exact symbol_append.2 ⟨hminus, hnat⟩

theorem symbol_hexDigits (n : ℕ) : Symbol (hexDigits n).toList := by
  rw [hexDigits, String.toList_ofList]
  exact symbol_toDigits (by decide) le_rfl

@[simp] theorem symbol_formatHex (n : ℕ) : Symbol (formatHex n).toList := by
  rw [formatHex, String.toList_append]
  exact symbol_append.2 ⟨by decide, symbol_hexDigits n⟩

@[simp] theorem symbol_formatHex10 (n : ℕ) : Symbol (formatHex10 n).toList := by
  have hzeros (k : ℕ) : Symbol (String.ofList (List.replicate k '0')).toList := by
    intro c hc
    rw [String.toList_ofList] at hc
    rw [List.eq_of_mem_replicate hc]
    decide
  rw [formatHex10, String.toList_append, String.toList_append]
  exact symbol_append.2 ⟨symbol_append.2 ⟨by decide, hzeros _⟩, symbol_hexDigits n⟩

@[simp] theorem symbol_labelForIp (o : ℕ) : Symbol (labelForIp o).toList := by
  rw [labelForIp, String.toList_append]
  exact symbol_append.2 ⟨by decide, symbol_formatHex o⟩

/-! ### Lines -/

/-- The assembler finds no label in the text of a line but the one that the line stands for. -/
@[simp] def PrintableLine : Line → Prop
  | .label name | .call name | .j name | .branch _ _ _ name | .op (.la _ name)
  | .op (.sdLabel _ name _) => Symbol name.toList
  | .comment text => AsmText.Quiet text.toList
  | .directive _ | .asciz _ => False
  | _ => True

instance : DecidablePred PrintableLine := fun l => match l with
  | .label name | .call name | .j name | .branch _ _ _ name | .op (.la _ name)
  | .op (.sdLabel _ name _) => inferInstanceAs (Decidable (Symbol name.toList))
  | .comment text => inferInstanceAs (Decidable (AsmText.Quiet text.toList))
  | .directive _ | .asciz _ => isFalse id
  | .ret | .op (.rtype _ _ _ _) | .op (.itype _ _ _ _) | .op (.pseudo _ _ _) | .op (.mv _ _)
  | .op (.li _ _) | .op (.ld _ _ _) | .op (.sd _ _ _) => isTrue trivial

/-- All lines of a text are printable. -/
def AllPrintable (T : Text) : Prop := ∀ l ∈ T, PrintableLine l

theorem statement_regName : ∀ r, Statement (regName r).toList := by decide

theorem statement_rtypeName (insn : RType) : Statement (rtypeName insn).toList := by
  cases insn <;> decide

theorem statement_itypeName (insn : IType) : Statement (itypeName insn).toList := by
  cases insn <;> decide

theorem statement_pseudoName (insn : Pseudo) : Statement (pseudoName insn).toList := by
  cases insn <;> decide

theorem statement_opText {o : Op} (h : PrintableLine (.op o)) : Statement (opText o).toList := by
  have hint (x : ℤ) : Statement (formatInt x).toList := (symbol_formatInt x).statement
  have hname {s : String} (hs : Symbol s.toList) : Statement s.toList := hs.statement
  cases o with
  | la dst label | sdLabel src label temp =>
    simp [opText, Ordinary, quote, statement_regName, hname h]
  | _ =>
    simp [opText, Ordinary, quote, statement_rtypeName, statement_itypeName, statement_pseudoName,
      statement_regName, hint]

/-- **A line**, and what comes behind it. -/
theorem labelsIn_printLine {l : Line} {t : List Char} (h : PrintableLine l) :
    labelsIn (printLine l ++ t) = (labelsOf [l]).map String.toList ++ labelsIn t := by
  have hstatement {s : String} (hs : Statement s.toList) (hline : lineText l = s) :
      labelsIn (printLine l ++ t) = labelsIn t := by
    rw [printLine, hline, List.append_assoc]
    exact labelsIn_line hs
  cases l with
  | label name =>
    have htext : printLine (.label name) ++ t = name.toList ++ ':' :: '\n' :: t := by
      simp [printLine, lineText]
    rw [htext, labelsIn_label h]
    rfl
  | comment text =>
    have hquiet : AsmText.Quiet (' ' :: text.toList) := Quiet.append_left (s := [' ']) (by decide) h
    have htext : printLine (.comment text) ++ t = '#' :: ((' ' :: text.toList) ++ '\n' :: t) := by
      simp [printLine, lineText]
    rw [htext, labelsIn_comment hquiet]
    rfl
  | directive | asciz => cases h
  | op o => exact hstatement (statement_opText h) rfl
  | call name =>
    refine hstatement (s := "call\t" ++ name) ?_ rfl
    rw [String.toList_append]
    exact statement_append.2 ⟨by decide, Symbol.statement h⟩
  | ret => exact hstatement (s := "ret") (by decide) rfl
  | j name =>
    refine hstatement (s := "j " ++ name) ?_ rfl
    rw [String.toList_append]
    exact statement_append.2 ⟨by decide, Symbol.statement h⟩
  | branch onEq r₁ r₂ name =>
    refine hstatement (s := lineText (.branch onEq r₁ r₂ name)) ?_ rfl
    have hinsn : Statement (if onEq then "beq" else "bne").toList := by cases onEq <;> decide
    simp [lineText, hinsn, Ordinary, quote, statement_regName, Symbol.statement h]

/-- The lines behind the data section. -/
theorem labelsIn_lines {T : Text} {t : List Char} (h : AllPrintable T) :
    labelsIn (T.flatMap printLine ++ t) = (labelsOf T).map String.toList ++ labelsIn t := by
  induction T with
  | nil => rfl
  | cons l T ih =>
    have hlabels : labelsOf (l :: T) = labelsOf [l] ++ labelsOf T := labelsOf_append [l] T
    rw [List.flatMap_cons, List.append_assoc, labelsIn_printLine (h l List.mem_cons_self),
      ih fun l' hl' => h l' (List.mem_cons_of_mem l hl'), hlabels, List.map_append, List.append_assoc]

/-! ### The data section -/

theorem labelsIn_dataText (n : ℕ) (t : List Char) :
    labelsIn (dataText n ++ t) = "globals".toList :: labelsIn t := by
  have hlabels : labels [] (scan .code sectionText) = ["globals".toList] := by decide +kernel
  have hword : wordAfter [] (scan .code sectionText) = ".fill".toList := by decide +kernel
  have hmode : modeAfter .code sectionText = .code := by decide +kernel
  have hfill : Statement ((formatInt n).toList ++ ", 8, 0".toList) :=
    statement_append.2 ⟨(symbol_formatInt n).statement, by decide⟩
  have halign : Statement ".align 8".toList := by decide
  have htext : alignText = ", 8, 0".toList ++ '\n' :: (".align 8".toList ++ ['\n']) := by decide
  have hrest : (formatInt n).toList ++ (alignText ++ t) =
      ((formatInt n).toList ++ ", 8, 0".toList) ++ '\n' :: (".align 8".toList ++ '\n' :: t) := by
    rw [htext]
    simp only [List.append_assoc, List.cons_append, List.nil_append]
  rw [labelsIn, dataText, List.append_assoc, List.append_assoc, scan_append, hmode, labels_append,
    hlabels, hword, hrest, labels_line hfill, labelsIn_line halign]
  rfl

/-- The definition of a clean string. -/
theorem labelsIn_definition {label str : String} {t : List Char} (hlabel : Symbol label.toList)
    (hstr : Clean str.toList) :
    labelsIn (definitionText label str ++ t) = label.toList :: labelsIn t := by
  have htokens := (definition_iff (t := t) hlabel.statement.plain).2 ⟨hstr, rfl⟩
  have hcode : (label ++ ": .asciz ").toList.map Token.code =
      label.toList.map .code ++ .code ':' :: (" .asciz ".toList.map .code) := by
    rw [String.toList_append, List.map_append]
    rfl
  have hasciz : labels [] (" .asciz ".toList.map .code) = [] := labels_statement (by decide) []
  have hbytes (word : List Char) (xs : List Token) :
      labels word (str.toList.map .byte ++ .closing :: .newline :: xs) = labels [] xs := by
    rw [labels_append, labels_bytes]
    rfl
  rw [labelsIn, htokens, definitionTokens, hcode, List.append_assoc, List.append_assoc,
    List.append_assoc, List.cons_append, labels_label hlabel, labels_append, hasciz, List.nil_append,
    List.cons_append, labels]
  simp only [List.cons_append, List.nil_append, hbytes]
  rfl

theorem labelsIn_definitions {defs : List (String × String)} {t : List Char}
    (hlabels : ∀ p ∈ defs, Symbol p.1.toList) (hstrs : ∀ p ∈ defs, Clean p.2.toList) :
    labelsIn (defs.flatMap (fun p => definitionText p.1 p.2) ++ t) =
      defs.map (fun p => p.1.toList) ++ labelsIn t := by
  induction defs with
  | nil => rfl
  | cons p defs ih =>
    rw [List.flatMap_cons, List.append_assoc,
      labelsIn_definition (hlabels p List.mem_cons_self) (hstrs p List.mem_cons_self),
      ih (fun q hq => hlabels q (List.mem_cons_of_mem p hq))
        fun q hq => hstrs q (List.mem_cons_of_mem p hq)]
    rfl

theorem labelsIn_codeText (t : List Char) : labelsIn (codeText ++ t) = labelsIn t := by
  have htext : codeText ++ t =
      [] ++ '\n' :: (".text".toList ++ '\n' :: (".global main".toList ++ '\n' :: t)) := by
    have hcode : codeText = [] ++ '\n' :: (".text".toList ++ '\n' :: (".global main".toList ++ ['\n'])) := by
      decide
    rw [hcode]
    simp only [List.append_assoc, List.cons_append, List.nil_append]
  rw [htext, labelsIn_line statement_nil, labelsIn_line (by decide), labelsIn_line (by decide)]

/-- **The data section** defines its labels, when the file name and the strings are clean. -/
theorem labelsIn_header {m : Module} {t : List Char} (h : ∀ s ∈ m.filename :: m.strings, Clean s.toList) :
    labelsIn (headerText m.filename m.strings m.globalAreaSize ++ t) =
      m.headerLabels.map String.toList ++ labelsIn t := by
  have hsymbols : ∀ p ∈ stringTab m.strings, Symbol p.1.toList := by
    intro p hp
    obtain ⟨q, -, rfl⟩ := List.mem_map.1 hp
    rw [String.toList_append]
    exact symbol_append.2 ⟨by decide, symbol_formatInt _⟩
  have hclean : ∀ p ∈ stringTab m.strings, Clean p.2.toList := by
    intro p hp
    refine h _ (List.mem_cons_of_mem _ ?_)
    rw [← stringTab_strings m.strings]
    exact List.mem_map_of_mem hp
  have hlabels : (stringTab m.strings).map (fun p => p.1.toList) =
      ((List.range m.strings.length).map fun i : ℕ => "string_" ++ formatInt i).map String.toList := by
    rw [List.range_eq_range', ← List.zipIdx_map_snd 0 m.strings, stringTab, List.map_map, List.map_map,
      List.map_map]
    rfl
  rw [headerText, List.append_assoc, List.append_assoc, List.append_assoc, labelsIn_dataText,
    labelsIn_definition (by decide) (h _ List.mem_cons_self), labelsIn_definitions hsymbols hclean,
    labelsIn_codeText, hlabels]
  rfl

/-! ### The text of an instruction -/

theorem newline_of_symbol {s : String} (h : Symbol s.toList) : '\n' ∉ s.toList :=
  fun hmem => (h _ hmem).1.2.2.1 rfl

@[simp] theorem newline_formatInt (x : ℤ) : '\n' ∉ (formatInt x).toList :=
  newline_of_symbol (symbol_formatInt x)

@[simp] theorem newline_formatHex10 (n : ℕ) : '\n' ∉ (formatHex10 n).toList :=
  newline_of_symbol (symbol_formatHex10 n)

@[simp] theorem newline_locationText (loc : LocationEntry) : '\n' ∉ loc.text.toList := by
  obtain ⟨kind, index⟩ := loc
  cases kind <;> simp [LocationEntry.text, Location.text]

/-- The comment that shows an instruction. -/
theorem print_quiet {i : Instruction} {disasm : String} (h : i.print = .ok disasm)
    (hi : i.Printable) : AsmText.Quiet ("-> " ++ disasm).toList := by
  rw [String.toList_append]
  refine Quiet.append_left (by decide) ?_
  cases i with
  | string ind str =>
    cases h
    rw [String.toList_append]
    exact Quiet.append_left (by decide) hi
  | const value =>
    simp only [Instruction.print, bind_ok, return_ok] at h
    obtain ⟨-, -, rfl⟩ := h
    exact quiet_of_not_mem (by simp)
  | conditionalJump target zero =>
    cases h
    cases zero <;> exact quiet_of_not_mem (by simp)
  | sExpression name size | tag name size =>
    cases h
    have hname : '\n' ∉ name.toList := hi
    exact quiet_of_not_mem (by simp [hname])
  | beginInst id argc locc | call id argc =>
    cases h
    cases id with
    | inl name =>
      have hname : '\n' ∉ name.toList := newline_of_symbol hi
      exact quiet_of_not_mem (by simp [locToString, hname])
    | inr offset => exact quiet_of_not_mem (by simp [locToString, ipToString])
  | closure offset entries =>
    cases h
    exact quiet_of_not_mem (by simp [ipToString])
  | load loc | store loc =>
    cases h
    exact quiet_of_not_mem (by simp)
  | binop op =>
    cases h
    cases op <;> exact quiet_of_not_mem (by simp [BinopKind.text])
  | patternInst type =>
    cases h
    cases type <;> exact quiet_of_not_mem (by simp [Pattern.text])
  | storeStack | returnInst | swap | loadArray _ _ => cases h
  | _ =>
    cases h
    exact quiet_of_not_mem (by simp)

/-! ### The lines of the emitters -/

section Texts

variable {T U : Text}

@[simp] theorem allPrintable_nil : AllPrintable [] := by simp [AllPrintable]

@[simp] theorem allPrintable_cons {l : Line} :
    AllPrintable (l :: T) ↔ PrintableLine l ∧ AllPrintable T := List.forall_mem_cons

@[simp] theorem allPrintable_append : AllPrintable (T ++ U) ↔ AllPrintable T ∧ AllPrintable U :=
  List.forall_mem_append

theorem allPrintable_flatMap {α : Type} {xs : List α} {f : α → Text} (h : ∀ x, AllPrintable (f x)) :
    AllPrintable (xs.flatMap f) := by
  intro l hl
  obtain ⟨x, -, hx⟩ := List.mem_flatMap.1 hl
  exact h x l hx

end Texts

section Lines

variable (r s : Reg) (a b d : Loc) (i : ℤ)

@[simp] theorem allPrintable_emitLi : AllPrintable (emitLi r i) := by simp [emitLi]

@[simp] theorem allPrintable_emitLd : AllPrintable (emitLd r s i) := by simp [emitLd]

@[simp] theorem allPrintable_emitSd : AllPrintable (emitSd r s i) := by simp [emitSd]

@[simp] theorem allPrintable_emitIType (op : IType) : AllPrintable (emitIType op r s i) := by
  simp [emitIType]

@[simp] theorem allPrintable_toReg : AllPrintable (toReg a r).1 := by cases a <;> simp [toReg]

@[simp] theorem allPrintable_symbEmitRType (op : RType) : AllPrintable (symbEmitRType op d a b) := by
  cases d <;> simp [symbEmitRType, emitRType]

@[simp] theorem allPrintable_symbEmitIType (op : IType) : AllPrintable (symbEmitIType op d a i) := by
  simp [symbEmitIType]

@[simp] theorem allPrintable_symbEmitPseudoType (op : Pseudo) :
    AllPrintable (symbEmitPseudoType op d a) := by
  simp [symbEmitPseudoType, emitPseudoType]

@[simp] theorem allPrintable_symbEmitLi : AllPrintable (symbEmitLi d i) := by simp [symbEmitLi]

@[simp] theorem allPrintable_symbEmitLd : AllPrintable (symbEmitLd d a i) := by simp [symbEmitLd]

@[simp] theorem allPrintable_symbEmitSd : AllPrintable (symbEmitSd d a i) := by simp [symbEmitSd]

theorem allPrintable_symbEmitLa {label : String} (h : Symbol label.toList) :
    AllPrintable (symbEmitLa d label) := by
  simp [symbEmitLa, h]

theorem allPrintable_emitComment {text : String} (h : AsmText.Quiet text.toList) :
    AllPrintable (emitComment text) := by
  simp [emitComment, h]

@[simp] theorem allPrintable_symbEmitMv : AllPrintable (symbEmitMv d a) := by simp [symbEmitMv]

@[simp] theorem allPrintable_symbEmitMvToReg : AllPrintable (symbEmitMvToReg r a) := by
  simp [symbEmitMvToReg]

@[simp] theorem allPrintable_symbEmitMvFromReg : AllPrintable (symbEmitMvFromReg d r) := by
  simp [symbEmitMvFromReg]

@[simp] theorem allPrintable_binopLines (op : BinopKind) : AllPrintable (binopLines op d a b) := by
  cases op <;> simp [binopLines, symbEmitEq, symbEmitNeq, symbEmitSle, symbEmitSge]

@[simp] theorem allPrintable_pushReg : AllPrintable (pushReg r) := by simp [pushReg, emitAddi]

@[simp] theorem allPrintable_saveCaller (n : ℕ) : AllPrintable (saveCaller n) := by
  simp [saveCaller, emitAddi, allPrintable_flatMap]

@[simp] theorem allPrintable_restoreCaller (n : ℕ) : AllPrintable (restoreCaller n) := by
  simp [restoreCaller, emitAddi, allPrintable_flatMap]

@[simp] theorem allPrintable_prologue (n : ℕ) : AllPrintable (prologue n) := by
  simp [prologue, emitMv, emitAddi, allPrintable_flatMap]

@[simp] theorem allPrintable_epilogue (n : ℕ) : AllPrintable (epilogue n) := by
  simp [epilogue, emitMv, emitAddi, allPrintable_flatMap]

@[simp] theorem allPrintable_premain : AllPrintable premain := by
  have hbottom : Symbol "__gc_stack_bottom".toList := by decide
  have hglobals : Symbol "globals".toList := by decide
  rw [premain, allPrintable_cons, allPrintable_cons]
  exact ⟨hbottom, hglobals, allPrintable_nil⟩

@[simp] theorem allPrintable_postmain : AllPrintable postmain := by simp [postmain, emitSrai]

end Lines

/-! ### The code of an instruction -/

/-- The lines that were added are printable. -/
def Added (c c' : Compiler) : Prop := ∃ U, c'.cb = c.cb ++ U ∧ AllPrintable U

namespace Added

variable {c c' c'' : Compiler}

theorem of_eq (h : c'.cb = c.cb) : Added c c' := ⟨[], by simp [h], allPrintable_nil⟩

theorem finish (c : Compiler) (st : SymbolicStack) {U : Text} (h : AllPrintable U) :
    Added c (Compiler.finish c st U) := ⟨U, rfl, h⟩

theorem emit (c : Compiler) {U : Text} (h : AllPrintable U) : Added c (c.emit U) := ⟨U, rfl, h⟩

theorem trans (h : Added c c') (h' : Added c' c'') : Added c c'' := by
  obtain ⟨U, hU, hprint⟩ := h
  obtain ⟨U', hU', hprint'⟩ := h'
  exact ⟨U ++ U', by rw [hU', hU, List.append_assoc], allPrintable_append.2 ⟨hprint, hprint'⟩⟩

end Added

section Emit

variable {c c' : Compiler}

theorem placeArgs_printable {is : List ℕ} {st st' : SymbolicStack} {T : Text}
    (h : placeArgs is st = .ok (T, st')) : AllPrintable T := by
  induction is generalizing st T with
  | nil =>
    cases h
    exact allPrintable_nil
  | cons i is ih =>
    simp only [placeArgs, bind_ok, return_ok, Prod.exists] at h
    obtain ⟨r, -, loc, st₁, -, T₁, st₂, hrec, h⟩ := h
    cases h
    exact allPrintable_append.2 ⟨allPrintable_symbEmitMvToReg _ _, ih hrec⟩

theorem pushArgs_printable {n : ℕ} {st st' : SymbolicStack} {T : Text}
    (h : pushArgs n st = .ok (T, st')) : AllPrintable T := by
  induction n generalizing st T with
  | zero =>
    cases h
    exact allPrintable_nil
  | succ n ih =>
    simp only [pushArgs, bind_ok, return_ok, Prod.exists] at h
    obtain ⟨loc, st₁, -, T₁, st₂, hrec, h⟩ := h
    cases h
    exact allPrintable_append.2 ⟨by simp, ih hrec⟩

theorem addJumpTarget_added {offset height : ℕ} (h : c.addJumpTarget offset height = .ok c') :
    Added c c' := by
  unfold Compiler.addJumpTarget at h
  split at h
  · simp only [bind_ok, return_ok] at h
    obtain ⟨-, -, rfl⟩ := h
    have hhex : '\n' ∉ (formatHex offset).toList := newline_of_symbol (symbol_formatHex offset)
    exact Added.emit c (allPrintable_emitComment (quiet_of_not_mem (by simp [hhex])))
  · simp only [bind_ok, return_ok] at h
    obtain ⟨-, -, rfl⟩ := h
    exact .of_eq rfl

/-- The name of a called function. -/
def SymbolId : FunctionId → Prop
  | .inl name => Symbol name.toList
  | .inr _ => True

theorem calleeLabel_added {callee : FunctionId} {label : String}
    (h : c.calleeLabel callee = .ok (c', label)) (hid : SymbolId callee) :
    Added c c' ∧ Symbol label.toList := by
  cases callee with
  | inl name =>
    cases h
    exact ⟨.of_eq rfl, hid⟩
  | inr offset =>
    simp only [calleeLabel, bind_ok, return_ok] at h
    obtain ⟨c₁, h₁, h⟩ := h
    cases h
    exact ⟨addJumpTarget_added h₁, symbol_labelForIp offset⟩

/-- A call. -/
theorem compileCall_added {callee : FunctionId} {argc : ℕ} {opt : Option ℤ}
    (h : c.compileCall callee argc opt = .ok c') (hid : SymbolId callee) : Added c c' := by
  obtain ⟨f, moves, st₁, pushes, st₂, c₁, label, -, hplace, hpush, hlabel, rfl⟩ :=
    compileCall_parts h
  obtain ⟨hadded, hsymbol⟩ := calleeLabel_added hlabel hid
  have hset : AllPrintable (setExtra opt) := by cases opt <;> simp [setExtra]
  have hif {p : Prop} [Decidable p] {U : Text} (hU : AllPrintable U) :
      AllPrintable (if p then U else []) := by split_ifs <;> simp [hU]
  refine ((Added.emit c ?_).trans hadded).trans (.finish c₁ _ ?_)
  · simp only [callBefore, allPrintable_append, allPrintable_saveCaller, hset,
      placeArgs_printable hplace, pushArgs_printable hpush, true_and, and_true]
    exact hif (by simp [emitAddi])
  · simp only [callAfter, emitCall, allPrintable_append, allPrintable_cons, PrintableLine, hsymbol,
      allPrintable_nil, allPrintable_symbEmitMvFromReg, allPrintable_restoreCaller, true_and, and_true]
    exact ⟨hif (by simp [emitAddi]), hif (by simp [emitAddi])⟩

theorem pushLi_added (c : Compiler) (imm : ℤ) : Added c (pushLi c imm) := .finish c _ (by simp)

theorem pushLa_added (c : Compiler) {label : String} (h : Symbol label.toList) :
    Added c (pushLa c label) := .finish c _ (allPrintable_symbEmitLa _ h)

/-- The prologue, behind the call of `__init` in `main`. -/
theorem enterFrame_added {x : Compiler} {name : String} {locc : ℕ}
    (h : ((if name = "main" then (x.emit premain).compileCall (.inl "__init") 0 else .ok x) >>=
      fun y => pure (y.emit (prologue locc))) = .ok c') : Added x c' := by
  simp only [bind_ok, return_ok] at h
  obtain ⟨y, hy, rfl⟩ := h
  refine Added.trans ?_ (.emit y (by simp))
  split_ifs at hy with hmain
  · have hinit : Symbol "__init".toList := by decide
    exact (Added.emit x allPrintable_premain).trans (compileCall_added hy hinit)
  · cases hy
    exact .of_eq rfl

theorem emitBegin_added {id : FunctionId} {argc locc : ℕ} (h : emitBegin c id argc locc = .ok c')
    (hid : SymbolId id) : Added c c' := by
  cases id with
  | inr offset =>
    refine @enterFrame_added c' { c with currentFrame := some ⟨labelForIp offset, locc, argc⟩ }
      (labelForIp offset) locc ?_
    rw [← h]
    simp only [emitBegin, if_neg (labelForIp_ne_main offset)]
    rfl
  | inl name =>
    have hframe := @enterFrame_added c'
      { c.emit (emitLabel name) with currentFrame := some ⟨name, locc, argc⟩ } name locc (by
        rw [← h]
        by_cases hm : name = "main"
        · simp only [emitBegin, if_pos hm]
        · simp only [emitBegin, if_neg hm]
          rfl)
    have hlabel : AllPrintable (emitLabel name) := by
      have hname : Symbol name.toList := hid
      simp [emitLabel, hname]
    exact (Added.emit c hlabel).trans hframe

theorem emitEnd_added (h : emitEnd c = .ok c') : Added c c' := by
  unfold emitEnd at h
  cases hf : c.currentFrame with
  | none => simp [hf] at h
  | some f =>
    simp only [hf, bind_ok, return_ok, Prod.exists] at h
    obtain ⟨loc, st, -, rfl⟩ := h
    have hmain : AllPrintable (if f.functionName = "main" then postmain else []) := by
      split_ifs <;> simp
    exact .finish c _ (by simp [hmain, emitRet])

theorem emitLoad_added {loc : LocationEntry} (h : emitLoad c loc = .ok c') : Added c c' := by
  obtain ⟨kind, index⟩ := loc
  cases kind with
  | global =>
    simp only [emitLoad, bind_ok, return_ok] at h
    obtain ⟨-, -, off, -, rfl⟩ := h
    exact .finish c _ (by simp)
  | localVar =>
    simp only [emitLoad, bind_ok, return_ok] at h
    obtain ⟨-, -, -, -, off, -, rfl⟩ := h
    exact .finish c _ (by simp)
  | arg =>
    simp only [emitLoad, bind_ok] at h
    obtain ⟨-, -, -, -, h⟩ := h
    split_ifs at h
    · simp only [bind_ok, return_ok] at h
      obtain ⟨r, -, rfl⟩ := h
      exact .finish c _ (by simp)
    · cases h
      exact .finish c _ (by simp)
  | captured => cases h
  | other m hm =>
    cases h
    exact .of_eq rfl

theorem emitStore_added {loc : LocationEntry} (h : emitStore c loc = .ok c') : Added c c' := by
  obtain ⟨kind, index⟩ := loc
  simp only [emitStore, bind_ok] at h
  obtain ⟨value, -, h⟩ := h
  cases kind with
  | global | localVar =>
    simp only [bind_ok, return_ok] at h
    obtain ⟨off, -, rfl⟩ := h
    exact .emit c (by simp)
  | arg =>
    simp only at h
    split_ifs at h
    · simp only [bind_ok, return_ok] at h
      obtain ⟨r, -, rfl⟩ := h
      exact .emit c (by simp)
    · simp only [bind_ok, return_ok] at h
      obtain ⟨off, -, rfl⟩ := h
      exact .emit c (by simp)
  | captured => cases h
  | other m hm =>
    cases h
    exact .of_eq rfl

/-- **The code of an instruction** is printable when its names are. -/
theorem emitCode_added {i : Instruction} (h : i.emitCode c = .ok c') (hi : i.Printable) :
    Added c c' := by
  cases i with
  | const value =>
    cases h
    exact .finish c _ (by cases SymbolicStack.loc c.st.top <;> simp)
  | string ind str =>
    have hlabel : Symbol ("string_" ++ formatInt ind).toList := by
      rw [String.toList_append]
      exact symbol_append.2 ⟨by decide, symbol_formatInt _⟩
    have hcall : SymbolId (.inl "RVBstring") := show Symbol _ by decide
    exact (pushLa_added c hlabel).trans (compileCall_added h hcall)
  | sExpression name size =>
    simp only [Instruction.emitCode, emitSExpression, bind_ok] at h
    obtain ⟨hash, -, h⟩ := h
    have hcall : SymbolId (.inl "RVBsexp") := show Symbol _ by decide
    exact (pushLi_added c hash).trans (compileCall_added h hcall)
  | storeStack =>
    have h : emitStoreStack c = .ok c' := h
    simp only [emitStoreStack, bind_ok, return_ok, Prod.exists] at h
    obtain ⟨loc, st, -, loc', st', -, rfl⟩ := h
    exact .finish c _ (by simp)
  | jump target =>
    exact (Added.emit c (by simp [emitJ])).trans (addJumpTarget_added h)
  | conditionalJump target zero =>
    have h : emitConditionalJump c target zero = .ok c' := h
    simp only [emitConditionalJump, bind_ok, Prod.exists] at h
    obtain ⟨loc, st, -, h⟩ := h
    exact (Added.finish c _ (by simp [emitSrai, emitCj])).trans (addJumpTarget_added h)
  | drop =>
    simp only [Instruction.emitCode, bind_ok, return_ok, Prod.exists] at h
    obtain ⟨loc, st, -, rfl⟩ := h
    exact .of_eq rfl
  | duplicate =>
    have h : emitDuplicate c = .ok c' := h
    simp only [emitDuplicate, bind_ok, return_ok] at h
    obtain ⟨src, -, rfl⟩ := h
    exact .finish c _ (by simp)
  | swap =>
    have h : emitSwap c = .ok c' := h
    simp only [emitSwap, bind_ok, return_ok, Prod.exists] at h
    obtain ⟨loc, st, -, loc', -, rfl⟩ := h
    exact .finish c _ (by simp)
  | beginInst id argc locc =>
    refine emitBegin_added h ?_
    cases id with
    | inl name => exact hi
    | inr offset => trivial
  | cBegin offset argc locc =>
    have h : emitBegin c (.inl ("closure@" ++ formatHex10 offset)) argc locc = .ok c' := h
    refine emitBegin_added h ?_
    show Symbol ("closure@" ++ formatHex10 offset).toList
    rw [String.toList_append]
    exact symbol_append.2 ⟨by decide, symbol_formatHex10 offset⟩
  | endInst => exact emitEnd_added h
  | tag name size =>
    have h : emitTag c name size = .ok c' := h
    simp only [emitTag, bind_ok] at h
    obtain ⟨hash, -, h⟩ := h
    have hcall : SymbolId (.inl "Btag") := show Symbol _ by decide
    exact ((pushLi_added c _).trans (pushLi_added _ _)).trans (compileCall_added h hcall)
  | fail l col =>
    have hname : Symbol "fname".toList := by decide
    have hcall : SymbolId (.inl "Bmatch_failure") := show Symbol _ by decide
    exact (((pushLa_added c hname).trans (pushLi_added _ _)).trans (pushLi_added _ _)).trans
      (compileCall_added h hcall)
  | line l =>
    cases h
    exact .emit c (allPrintable_emitComment (quiet_of_not_mem (by simp)))
  | binop op =>
    have h : emitBinop c op = .ok c' := h
    simp only [emitBinop, bind_ok, return_ok, Prod.exists] at h
    obtain ⟨loc, st, -, loc', st', -, rfl⟩ := h
    exact .finish c _ (by simp)
  | load loc => exact emitLoad_added h
  | store loc => exact emitStore_added h
  | call callee argc =>
    refine compileCall_added h ?_
    cases callee with
    | inl name => exact hi
    | inr offset => trivial
  | storeArray | elem | builtinRead | builtinWrite | builtinLength | builtinString
  | builtinArray _ => exact compileCall_added h (show Symbol _ by decide)
  | _ => cases h

end Emit

/-! ### Runs -/

section Runs

variable {m : Module} {log : List Emission} {es : List (ℕ × Instruction)} {c c' : Compiler}

theorem openInst_added {o : ℕ} {i : Instruction} (h : openInst c o i = .ok c') (hi : i.Printable) :
    Added c c' := by
  simp only [openInst, instBegin, bind_ok, check_ok, return_ok] at h
  obtain ⟨c₁, ⟨-, -, rfl⟩, disasm, hprint, rfl⟩ := h
  have hlabel : Symbol (labelForIp o).toList := symbol_labelForIp o
  have hopen : AllPrintable (if (emplace c.done o c.st.top).2.2 then emitLabel (labelForIp o)
      else emitComment (labelForIp o)) := by
    split_ifs
    · simp [emitLabel]
    · exact allPrintable_emitComment (quiet_of_not_mem (newline_of_symbol hlabel))
  exact (Added.emit { c with done := (emplace c.done o c.st.top).1 } hopen).trans
    (.emit _ (allPrintable_emitComment (print_quiet hprint hi)))

theorem addPublics_added {publics : List (String × ℕ)}
    (h : publics.foldlM (fun c s => c.addJumpTarget s.2 0) c = .ok c') : Added c c' := by
  induction publics generalizing c with
  | nil =>
    cases h
    exact .of_eq rfl
  | cons s publics ih =>
    simp only [List.foldlM_cons, bind_ok] at h
    obtain ⟨c₁, h₁, h⟩ := h
    exact (addJumpTarget_added h₁).trans (ih h)

/-- All lines of a run behind the data section are printable. -/
theorem Run.printable (h : Run m log es c) (hm : m.Printable) :
    ∃ T, c.cb = m.headerLines ++ T ∧ AllPrintable T := by
  have step {c c' : Compiler} (hadded : Added c c')
      (ih : ∃ T, c.cb = m.headerLines ++ T ∧ AllPrintable T) :
      ∃ T, c'.cb = m.headerLines ++ T ∧ AllPrintable T := by
    obtain ⟨T, hT, hprint⟩ := ih
    obtain ⟨U, hU, hprint'⟩ := hadded
    exact ⟨T ++ U, by rw [hU, hT, List.append_assoc], allPrintable_append.2 ⟨hprint, hprint'⟩⟩
  have emitted {log o i rest c c₁ c₂} (hrun : Run m log ((o, i) :: rest) c)
      (hopen : openInst c o i = .ok c₁) (hcode : i.emitCode c₁ = .ok c₂) : Added c c₂ := by
    have hi : i.Printable := hm.instructions o i (InstMap.at?_of_suffix hrun.heightInv.suffix)
    exact (openInst_added hopen hi).trans (emitCode_added hcode hi)
  induction h with
  | start h =>
    simp only [LamaRv.start, bind_ok, check_ok] at h
    obtain ⟨-, -, h⟩ := h
    exact step (addPublics_added h) ⟨[], (List.append_nil _).symm, allPrintable_nil⟩
  | stale _ _ _ ih => exact ih
  | take _ _ _ ih => exact ih
  | last hrun hopen hcode _ ih =>
    have hend : AllPrintable (emitComment "============") :=
      allPrintable_emitComment (quiet_of_not_mem (by decide))
    exact step ((emitted hrun hopen hcode).trans (.emit _ hend)) ih
  | next hrun hopen hcode _ ih => exact step (emitted hrun hopen hcode) ih

theorem labelsOf_headerLines (m : Module) : labelsOf m.headerLines = m.headerLabels := by
  obtain ⟨hstrings, -⟩ := labelsOf_strings m.strings 0
  simp only [Module.headerLines, header, Compiler.emit, labelsOf_append, hstrings,
    Module.headerLabels, List.range_eq_range']
  simp [labelsOf]

/-- The labels of the data section and of the lines behind it. -/
theorem outputLabels_eq {T : Text} (hm : ∀ s ∈ m.filename :: m.strings, Clean s.toList)
    (hT : c.cb = m.headerLines ++ T) : m.outputLabels c =
      m.headerLabels ++ (labelsIn (T.flatMap printLine ++ ['\n'])).map String.ofList := by
  rw [Module.outputLabels, Module.output, hT, List.drop_left, List.append_assoc, labelsIn_header hm,
    List.map_append, List.map_map]
  simp

/-- **The labels of the text** are those of its lines. -/
theorem Run.outputLabels (h : Run m log es c) (hm : m.Printable) :
    m.outputLabels c = labelsOf c.cb := by
  obtain ⟨T, hT, hprint⟩ := h.printable hm
  have hlast : labelsIn ['\n'] = [] := rfl
  rw [outputLabels_eq hm.texts hT, labelsIn_lines hprint, hlast, hT, labelsOf_append,
    labelsOf_headerLines, List.append_nil, List.map_map]
  simp

/-- Behind a newline in a comment there can be a label. -/
theorem outputLabels_of_comment {T₁ T₂ : Text} {text : String} {a s : List Char}
    (hm : ∀ s ∈ m.filename :: m.strings, Clean s.toList)
    (hcb : c.cb = m.headerLines ++ (T₁ ++ .comment text :: T₂)) (h₁ : AllPrintable T₁)
    (h₂ : AllPrintable T₂) (htext : text.toList = a ++ '\n' :: (s ++ [':'])) (ha : '\n' ∉ a)
    (hs : Symbol s) :
    m.outputLabels c = m.headerLabels ++ (labelsOf T₁ ++ String.ofList s :: labelsOf T₂) := by
  have hline : AsmText.Quiet (' ' :: a) :=
    quiet_of_not_mem fun hmem => ha (by simpa using hmem)
  have hcomment (t : List Char) :
      labelsIn (printLine (.comment text) ++ t) = s :: labelsIn t := by
    have hprint : printLine (.comment text) ++ t =
        '#' :: ((' ' :: a) ++ '\n' :: (s ++ ':' :: '\n' :: t)) := by
      simp [printLine, lineText, htext]
    rw [hprint, labelsIn_comment hline, labelsIn_label hs]
  have hlast : labelsIn ['\n'] = [] := rfl
  rw [outputLabels_eq hm hcb, List.flatMap_append, List.append_assoc, labelsIn_lines h₁,
    List.flatMap_cons, List.append_assoc, hcomment, labelsIn_lines h₂, hlast, List.append_nil,
    List.map_append, List.map_cons, List.map_map, List.map_map]
  simp

end Runs

end LamaRv
