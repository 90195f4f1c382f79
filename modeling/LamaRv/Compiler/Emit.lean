import LamaRv.Compiler.Compiler

/-!
# Code generation (`emit.cpp`, `lama_rv.cpp`)

`Instruction.emitCode` is the family of `emit_code` methods.  A product of `int`s that does not
fit in an `int` is undefined behaviour, which the sanitizer of the debug build reports; it is a
failed check here (`mulInt`).

`emit` takes the entries of `todo` in the order of a hash table.  One round of its outer loop
is `Round`, for any entry; its inner loop is `emitChunk`.
-/

namespace LamaRv

open Rv64 CodeBuffer Compiler

/-- `x * y` for `int` operands. -/
def mulInt (x y : ℤ) : Except String ℤ := do
  check (-2 ^ 31 ≤ x * y ∧ x * y < 2 ^ 31) "runtime error: signed integer overflow"
  return x * y

/-- `BOX` of the compiler, as a macro: its argument is not put in brackets. -/
def boxSum (x y : ℤ) : ℤ := 2 * x + y + 1

namespace Compiler

/-- Keep the new symbolic stack and append the lines. -/
def finish (c : Compiler) (st : SymbolicStack) (lines : List Line) : Compiler :=
  { c with st := st }.emit lines

def emitConst (c : Compiler) (value : ℤ) : Except String Compiler :=
  let (loc, st) := c.st.alloc
  .ok (finish c st (match loc with
    | .memory k => emitLi Register.temp1 value ++ emitSd Register.temp1 Register.fp (-k * wordSize)
    | .register r => emitLi r value))

/-- Push an immediate. -/
def pushLi (c : Compiler) (imm : ℤ) : Compiler :=
  let (loc, st) := c.st.alloc
  finish c st (symbEmitLi loc imm)

/-- Push the address of a label. -/
def pushLa (c : Compiler) (label : String) : Compiler :=
  let (loc, st) := c.st.alloc
  finish c st (symbEmitLa loc label)

def emitStoreStack (c : Compiler) : Except String Compiler := do
  let (valueLoc, st) ← c.st.pop
  let (ptrLoc, st) ← st.pop
  return finish c (st.push valueLoc) (symbEmitSd valueLoc ptrLoc 0)

def emitJump (c : Compiler) (target : ℕ) : Except String Compiler :=
  (c.emit (emitJ (labelForIp target))).addJumpTarget target c.st.top

def emitConditionalJump (c : Compiler) (target : ℕ) (zero : Bool) : Except String Compiler := do
  let (loc, st) ← c.st.pop
  let (load, reg) := toReg loc Register.temp1
  let c := finish c st (load ++ emitSrai reg reg 1 ++
    emitCj zero reg Register.zero (labelForIp target))
  c.addJumpTarget target c.st.top

def emitSwap (c : Compiler) : Except String Compiler := do
  let (a, st) ← c.st.pop
  let b ← st.peek
  let temp := Register.temp1
  return finish c (st.push a)
    (symbEmitMvToReg temp a ++ symbEmitMv a b ++ symbEmitMvFromReg b temp)

/-- `Duplicate`: g++ evaluates the arguments of `symb_emit_mv` from right to left. -/
def emitDuplicate (c : Compiler) : Except String Compiler := do
  let src ← c.st.peek
  let (dst, st) := c.st.alloc
  return finish c st (symbEmitMv dst src)

/-- The prologue: save the callee-saved registers below the locals, set `fp`, move `sp`. -/
def prologue (locc : ℕ) : List Line :=
  (Register.saved.zipIdx 1).flatMap
      (fun p => emitSd p.1 Register.sp (-(p.2 + locc) * wordSize)) ++
    emitMv Register.fp Register.sp ++ emitAddi Register.sp Register.sp (-(locc + 12) * wordSize)

def emitBegin (c : Compiler) (id : FunctionId) (argc locc : ℕ) : Except String Compiler := do
  let (c, name) := match id with
    | .inr offset => (c, labelForIp offset)
    | .inl name => (c.emit (emitLabel name), name)
  let c := { c with currentFrame := some ⟨name, locc, argc⟩ }
  let c ← if name = "main" then (c.emit premain).compileCall (.inl "__init") 0 else pure c
  return c.emit (prologue locc)

/-- The epilogue: restore `sp` and the callee-saved registers. -/
def epilogue (locc : ℕ) : List Line :=
  emitMv Register.sp Register.fp ++
    (Register.saved.zipIdx 1).flatMap
      (fun p => emitLd p.1 Register.sp (-(p.2 + locc) * wordSize))

def emitEnd (c : Compiler) : Except String Compiler :=
  match c.currentFrame with
  | none => .error "no current frame in End instruction"
  | some frame => do
      let (loc, st) ← c.st.pop
      return finish c st (symbEmitMvToReg 10 loc ++ epilogue frame.localsCount ++
        (if frame.functionName = "main" then postmain else []) ++ emitRet)

def emitLoad (c : Compiler) (loc : LocationEntry) : Except String Compiler :=
  match loc.kind with
  | .global => do
      check (toSizeT loc.index < c.globalsCount) "global index out of bounds"
      let off ← mulInt loc.index wordSize
      let (dst, st) := c.st.alloc
      return finish c st (symbEmitLd dst (.register Register.gp) off)
  | .localVar => do
      let frame ← c.frame
      check (toSizeT loc.index < frame.localsCount) "local index out of bounds"
      let off ← mulInt (-loc.index) wordSize
      let (dst, st) := c.st.alloc
      return finish c st (symbEmitLd dst (.register Register.fp) off)
  | .arg => do
      let frame ← c.frame
      check (toSizeT loc.index < frame.argsCount) "arg index out of bounds"
      let (dst, st) := c.st.alloc
      if loc.index < 8 then
        let r ← Register.arg (toSizeT loc.index)
        return finish c st (symbEmitMvFromReg dst r)
      else
        return finish c st (symbEmitLd dst (.register Register.fp) (toSizeT loc.index - 8))
  | .captured => .error "Not implemented yet\t"
  -- the switch has no default
  | .other _ _ => .ok c

def emitStore (c : Compiler) (loc : LocationEntry) : Except String Compiler := do
  let value ← c.st.peek
  match loc.kind with
  | .global =>
      let off ← mulInt loc.index wordSize
      return c.emit (symbEmitSd value (.register Register.gp) off)
  | .localVar =>
      let off ← mulInt (-loc.index) wordSize
      return c.emit (symbEmitSd value (.register Register.fp) off)
  | .arg =>
      if loc.index < 8 then
        let r ← Register.arg (toSizeT loc.index)
        return c.emit (symbEmitMvFromReg value r)
      else
        let off ← mulInt (loc.index - 8) wordSize
        return c.emit (symbEmitSd value (.register Register.fp) off)
  | .captured => .error "Not implemented yet\t"
  | .other _ _ => return c

/-- `EMIT_BINOP`: the emitter of each operator. -/
def binopLines (op : BinopKind) (dst a b : Loc) : List Line :=
  match op with
  | .add => symbEmitRType .add dst a b
  | .sub => symbEmitRType .sub dst a b
  | .mul => symbEmitRType .mul dst a b
  | .div => symbEmitRType .div dst a b
  | .lessThan => symbEmitRType .slt dst a b
  | .lessEqual => symbEmitSle dst a b
  | .and => symbEmitRType .and dst a b
  | .or => symbEmitRType .or dst a b
  | .rem => symbEmitRType .rem dst a b
  | .greaterThan => symbEmitRType .sgt dst a b
  | .greaterEqual => symbEmitSge dst a b
  | .equal => symbEmitEq dst a b
  | .notEqual => symbEmitNeq dst a b
  | .other _ _ => []

def emitBinop (c : Compiler) (op : BinopKind) : Except String Compiler := do
  let (secondLoc, st) ← c.st.pop
  let (firstLoc, st) ← st.pop
  let (destLoc, st) := st.alloc
  return finish c st (symbEmitIType .srai firstLoc firstLoc 1 ++
    symbEmitIType .srai secondLoc secondLoc 1 ++ binopLines op destLoc firstLoc secondLoc ++
    symbEmitIType .slli destLoc destLoc 1 ++ symbEmitIType .addi destLoc destLoc 1)

def emitSExpression (c : Compiler) (name : String) (size : ℕ) : Except String Compiler := do
  let hash ← ltagHash name
  (pushLi c hash).compileCall (.inl "RVBsexp") (size + 1) (some (boxSum size 1))

def emitTag (c : Compiler) (tag : String) (size : ℕ) : Except String Compiler := do
  let hash ← ltagHash tag
  (pushLi (pushLi c hash) (boxSum size 0)).compileCall (.inl "Btag") 3

def emitFail (c : Compiler) (line col : ℕ) : Except String Compiler :=
  (pushLi (pushLi (pushLa c "fname") (boxSum line 0)) (boxSum col 0)).compileCall
    (.inl "Bmatch_failure") 4

end Compiler

/-- `emit_code`. -/
def Instruction.emitCode : Instruction → Compiler → Except String Compiler
  | .const value, c => emitConst c value
  | .string ind _, c => (pushLa c ("string_" ++ formatInt ind)).compileCall (.inl "RVBstring") 1
  | .sExpression name size, c => emitSExpression c name size
  | .storeStack, c => emitStoreStack c
  | .storeArray, c => c.compileCall (.inl "Bsta") 3
  | .jump target, c => emitJump c target
  | .conditionalJump target zero, c => emitConditionalJump c target zero
  | .drop, c => do
      let (_, st) ← c.st.pop
      return { c with st := st }
  | .duplicate, c => emitDuplicate c
  | .swap, c => emitSwap c
  | .elem, c => c.compileCall (.inl "Belem") 2
  | .cBegin offset argc locc, c => emitBegin c (.inl ("closure@" ++ formatHex10 offset)) argc locc
  | .beginInst id argc locc, c => emitBegin c id argc locc
  | .endInst, c => emitEnd c
  | .tag name size, c => emitTag c name size
  | .fail l col, c => emitFail c l col
  | .line l, c => .ok (c.emit (emitComment ("LINE " ++ formatInt l)))
  | .load loc, c => emitLoad c loc
  | .store loc, c => emitStore c loc
  | .builtinLength, c => c.compileCall (.inl "Llength") 1
  | .builtinString, c => c.compileCall (.inl "RVLstring") 1
  | .builtinArray len, c => c.compileCall (.inl "RVBarray") len (some (boxSum len 0))
  | .builtinRead, c => c.compileCall (.inl "Lread") 0
  | .builtinWrite, c => c.compileCall (.inl "Lwrite") 1
  | .call callee argc, c => c.compileCall callee argc
  | .binop op, c => emitBinop c op
  | .returnInst, _ | .closure _ _, _ | .callClosure _, _ | .array _, _ | .loadArray _ _, _
  | .patternInst _, _ => .error "Not implemented yet\t"

/-! ### The worklist -/

/-- The instruction map, in the order of the offsets. -/
structure InstMap where
  entries : List (ℕ × Instruction)
  sorted : entries.Pairwise (fun a b => a.1 < b.1)

/-- What `emit` is given. -/
structure Module where
  filename : String
  instructions : InstMap
  strings : List String
  globalAreaSize : ℕ
  /-- The public symbols: name and offset. -/
  publicSymbols : List (String × ℕ)

namespace InstMap

/-- `find(offset)` and everything after it. -/
def suffix (m : InstMap) (offset : ℕ) : List (ℕ × Instruction) :=
  m.entries.dropWhile (·.1 ≠ offset)

/-- The instruction at an offset. -/
def at? (m : InstMap) (offset : ℕ) : Option Instruction := m.entries.lookup offset

end InstMap

/-- The lines before the code of one instruction: its label and its text. -/
def openInst (c : Compiler) (offset : ℕ) (inst : Instruction) : Except String Compiler := do
  let c ← c.instBegin offset
  let disasm ← inst.print
  return c.emit (emitComment ("-> " ++ disasm))

/-- The inner loop: emit instructions up to the next terminator. -/
def emitChunk : List (ℕ × Instruction) → Compiler → Except String Compiler
  | [], c => .ok c
  | (offset, inst) :: rest, c => do
      let c ← openInst c offset inst
      let c ← inst.emitCode c
      if inst.isTerminator then return c.emit (emitComment "============")
      else emitChunk rest c

/-- The state before the outer loop. -/
def start (m : Module) : Except String Compiler := do
  check (m.instructions.entries ≠ []) "Check failed: !instructions.empty() "
  let c : Compiler := { filename := m.filename, strs := m.strings, globalsCount := m.globalAreaSize }
  m.publicSymbols.foldlM (fun c s => c.addJumpTarget s.2 0) c.header

/-- Take the entry at `offset` off `todo`. -/
def takeEntry (c : Compiler) (offset height : ℕ) : Compiler :=
  { c with st := ⟨height⟩, todo := c.todo.erase offset }

/-- One round of the outer loop, for the entry at `offset`. -/
inductive Round (m : Module) (c : Compiler) : Compiler → Prop
  | stale {offset height} : c.todo.lookup offset = some height →
      (takeEntry c offset height).shouldEmit offset = .ok false →
      Round m c (takeEntry c offset height)
  | chunk {offset height c'} : c.todo.lookup offset = some height →
      (takeEntry c offset height).shouldEmit offset = .ok true →
      emitChunk (m.instructions.suffix offset) (takeEntry c offset height) = .ok c' →
      Round m c c'

/-- The states of the outer loop, for any order of the entries. -/
def Reaches (m : Module) (c : Compiler) : Prop :=
  ∃ c₀, start m = .ok c₀ ∧ Relation.ReflTransGen (Round m) c₀ c

/-- `emit` ends in the state `c`, with no failed check. -/
def Emits (m : Module) (c : Compiler) : Prop := Reaches m c ∧ c.todo = ∅

end LamaRv
