import LamaRv.Compiler.CodeBuffer
import LamaRv.Compiler.Instruction
import Mathlib.Data.List.AList

/-!
# The compiler state and its methods (`compiler.h`)

`done` and `todo` map instruction offsets to heights of the symbolic stack: `done` those of the
instructions already emitted, `todo` those of the jump targets and functions still to emit.
-/

namespace LamaRv

open Rv64 CodeBuffer

/-- `std::unordered_map<size_t, size_t>`. -/
abbrev OffsetMap := AList (fun _ : ℕ => ℕ)

/-- `unordered_map::emplace`: the map, the value it now has at the key, and whether it is new. -/
def emplace (m : OffsetMap) (k v : ℕ) : OffsetMap × ℕ × Bool :=
  match m.lookup k with
  | some w => (m, w, false)
  | none => (m.insert k v, v, true)

/-- `Compiler`. -/
structure Compiler where
  filename : String
  currentFrame : Option FrameInfo := none
  st : SymbolicStack := ⟨0⟩
  cb : Text := []
  strs : List String
  globalsCount : ℕ
  done : OffsetMap := ∅
  todo : OffsetMap := ∅

namespace Compiler

/-- Append lines to the output. -/
def emit (c : Compiler) (lines : List Line) : Compiler := { c with cb := c.cb ++ lines }

def labelForIp (ip : ℕ) : String := ".lbc_" ++ formatHex ip

/-- The text after a failed comparison of heights. -/
def atOffset (offset : ℕ) : String := "offset = " ++ formatHex offset

def addJumpTarget (c : Compiler) (offset stackHeight : ℕ) : Except String Compiler :=
  match c.done.lookup offset with
  | none =>
      let c := c.emit (emitComment
        ("Expectings stack height " ++ formatInt stackHeight ++ " at " ++ formatHex offset))
      let (todo, asTodo, _) := emplace c.todo offset stackHeight
      do
        check (asTodo = stackHeight) (atOffset offset)
        return { c with todo := todo }
  | some asDone => do
      check (asDone = stackHeight) (atOffset offset)
      return c

def instBegin (c : Compiler) (offset : ℕ) : Except String Compiler :=
  let stackHeight := c.st.top
  let (done, asDone, inserted) := emplace c.done offset stackHeight
  do
    check (asDone = stackHeight) (atOffset offset)
    let label := labelForIp offset
    return { c with done := done }.emit (if inserted then emitLabel label else emitComment label)

def shouldEmit (c : Compiler) (offset : ℕ) : Except String Bool :=
  match c.done.lookup offset with
  | none => .ok true
  | some emitted => do
      check (emitted = c.st.top) (atOffset offset)
      return false

/-- `current_frame->`, checked by the library in a debug build. -/
def frame (c : Compiler) : Except String FrameInfo :=
  match c.currentFrame with
  | some f => .ok f
  | none => .error "Assertion 'this->_M_is_engaged()' failed."

/-! ### Calls -/

/-- Store a register below `sp` and move `sp` down. -/
def pushReg (r : Reg) : List Line :=
  emitSd r Register.sp (-wordSize) ++ emitAddi Register.sp Register.sp (-wordSize)

/-- The first part of a call: skip the spilled words, save `ra`, the temporaries and the
argument registers. -/
def saveCaller (spilled : ℕ) : List Line :=
  emitAddi Register.sp Register.sp (-spilled * wordSize) ++ pushReg Register.ra ++
    Register.temp.flatMap pushReg ++ Register.args.flatMap pushReg

/-- Pop the symbolic stack into argument registers. -/
def placeArgs : List ℕ → SymbolicStack → Except String (List Line × SymbolicStack)
  | [], st => .ok ([], st)
  | i :: is, st => do
      let r ← Register.arg i
      let (loc, st) ← st.pop
      let (lines, st) ← placeArgs is st
      return (symbEmitMvToReg r loc ++ lines, st)

/-- Pop `n` slots of the symbolic stack and store them below `sp`. -/
def pushArgs : ℕ → SymbolicStack → Except String (List Line × SymbolicStack)
  | 0, st => .ok ([], st)
  | n + 1, st => do
      let (loc, st) ← st.pop
      let (load, r) := toReg loc Register.temp1
      let (lines, st) ← pushArgs n st
      return (load ++ pushReg r ++ lines, st)

/-- `std::views::iota(add_arg, argc) | take(8 - add_arg) | reverse`. -/
def argRegs (addArg argc : ℕ) : List ℕ :=
  (List.range' addArg (min (argc - addArg) (8 - addArg))).reverse

/-- The last part of a call, after the result has been moved to its slot: restore the argument
registers, the temporaries and `ra`. -/
def restoreCaller (spilled : ℕ) : List Line :=
  Register.args.reverse.flatMap
      (fun r => emitLd r Register.sp 0 ++ emitAddi Register.sp Register.sp wordSize) ++
    emitAddi Register.sp Register.sp (8 * wordSize) ++
    (Register.temp.zipIdx 1).flatMap (fun p => emitLd p.1 Register.sp (-(p.2 + 1) * wordSize)) ++
    emitLd Register.ra Register.sp (-wordSize) ++
    emitAddi Register.sp Register.sp (spilled * wordSize)

/-- The callee's label; a bytecode function is noted as a jump target of height zero. -/
def calleeLabel (c : Compiler) : FunctionId → Except String (Compiler × String)
  | .inl name => .ok (c, name)
  | .inr offset => do
      let c ← c.addJumpTarget offset 0
      return (c, labelForIp offset)

/-- Whether `sp` needs one more word to be a multiple of sixteen. -/
def callAlignment (locals spilled argc : ℕ) : Bool :=
  (locals + spilled + (if argc > 8 then argc - 8 else 0)) % 2 = 1

def compileCall (c : Compiler) (callee : FunctionId) (argc : ℕ) (optArg : Option ℤ := none) :
    Except String Compiler := do
  let addArg := if optArg.isSome then 1 else 0
  let argc := argc + addArg
  let frame ← c.frame
  let alignment := callAlignment frame.localsCount c.st.spilledCount argc
  let setOpt := match optArg with
    | some imm => emitLi 10 imm
    | none => []
  let (moves, st₁) ← placeArgs (argRegs addArg argc) c.st
  let (pushes, st₂) ← pushArgs (argc - 8) st₁
  let c := c.emit (saveCaller c.st.spilledCount ++ setOpt ++ moves ++
    (if alignment then emitAddi Register.sp Register.sp (-wordSize) else []) ++ pushes)
  let (c, label) ← c.calleeLabel callee
  let (result, st₃) := st₂.alloc
  return { c with st := st₃ }.emit (emitCall label ++
    (if argc > 8 then emitAddi Register.sp Register.sp ((argc - 8 : ℕ) * wordSize) else []) ++
    (if alignment then emitAddi Register.sp Register.sp wordSize else []) ++
    symbEmitMvFromReg result 10 ++ restoreCaller st₃.spilledCount)

/-! ### The fixed text -/

/-- The data section: the globals, the file name and the strings. -/
def header (c : Compiler) : Compiler :=
  c.emit ([.directive ".section .rodata", .directive ".section custom_data,\"aw\",@progbits",
      .directive ".fill 128, 8, 1", .directive ".data", .label "globals",
      .directive (".fill " ++ formatInt c.globalsCount ++ ", 8, 0"), .directive ".align 8",
      .label "fname", .asciz c.filename] ++
    c.strs.zipIdx.flatMap (fun p => [.label ("string_" ++ formatInt p.2), .asciz p.1]) ++
    [.directive ".text", .directive ".global main"])

def premain : List Line :=
  [.op (.sdLabel Register.fp "__gc_stack_bottom" 5), .op (.la 5 "globals")]

def postmain : List Line := emitSrai 10 10 1

end Compiler

end LamaRv
