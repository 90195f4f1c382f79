import LamaRv.Compiler.SymbStack

/-!
# The code buffer (`code_buffer.h`)

Every method of `CodeBuffer` appends lines to the output; here it is the list of the lines it
appends.  Immediates and offsets are `int` parameters, so whatever the caller passes is
converted first (`toInt`).

The `symb_emit_*` methods take symbolic locations.  A location in memory is first loaded into a
temporary (`toReg`); of all these methods only the three-register form writes the result back
to memory.
-/

namespace LamaRv

open ByteMemory Rv64

namespace CodeBuffer

def emitRType (insn : RType) (dst src1 src2 : Reg) : List Line := [.op (.rtype insn dst src1 src2)]

def emitIType (insn : IType) (dst src : Reg) (imm : ℤ) : List Line :=
  [.op (.itype insn dst src (toInt imm))]

def emitPseudoType (insn : Pseudo) (dst src : Reg) : List Line := [.op (.pseudo insn dst src)]

def emitLd (dst base : Reg) (off : ℤ) : List Line := [.op (.ld dst base (toInt off))]

def emitSd (src base : Reg) (off : ℤ) : List Line := [.op (.sd src base (toInt off))]

def emitLi (dst : Reg) (imm : ℤ) : List Line := [.op (.li dst (toInt imm))]

def emitAddi := emitIType .addi

def emitSrai := emitIType .srai

/-- `emit_mv` prints an `addi`; the symbolic versions print an `mv`. -/
def emitMv (dst src : Reg) : List Line := emitAddi dst src 0

def emitCall (label : String) : List Line := [.call label]

def emitRet : List Line := [.ret]

def emitLabel (label : String) : List Line := [.label label]

/-- One line here, also when the text has newlines.  In the output what stands behind them is code: see
`Module.output`. -/
def emitComment (comment : String) : List Line := [.comment comment]

def emitJ (target : String) : List Line := [.j target]

def emitCj (onEq : Bool) (r1 r2 : Reg) (target : String) : List Line := [.branch onEq r1 r2 target]

/-- A register that holds the location, after the lines that load it. -/
def toReg (loc : Loc) (temp : Reg) : List Line × Reg :=
  match loc with
  | .memory k => (emitLd temp Register.sp (-k * wordSize), temp)
  | .register r => ([], r)

def symbEmitRType (insn : RType) (dst src1 src2 : Loc) : List Line :=
  let (load1, r1) := toReg src1 Register.temp1
  let (load2, r2) := toReg src2 Register.temp2
  match dst with
  | .register d => load1 ++ load2 ++ emitRType insn d r1 r2
  | .memory k => load1 ++ load2 ++ emitRType insn r1 r1 r2 ++ emitSd r1 Register.sp (-k * wordSize)

def symbEmitIType (insn : IType) (dst src : Loc) (imm : ℤ) : List Line :=
  let (load1, d) := toReg dst Register.temp1
  let (load2, r) := toReg src Register.temp2
  load1 ++ load2 ++ emitIType insn d r imm

def symbEmitLi (dst : Loc) (imm : ℤ) : List Line :=
  let (load, d) := toReg dst Register.temp1
  load ++ emitLi d imm

def symbEmitLd (dst base : Loc) (off : ℤ) : List Line :=
  let (load1, d) := toReg dst Register.temp1
  let (load2, b) := toReg base Register.temp2
  load1 ++ load2 ++ emitLd d b off

def symbEmitSd (src base : Loc) (off : ℤ) : List Line :=
  let (load1, r) := toReg src Register.temp1
  let (load2, b) := toReg base Register.temp2
  load1 ++ load2 ++ emitSd r b off

def symbEmitPseudoType (insn : Pseudo) (dst src : Loc) : List Line :=
  let (load1, d) := toReg dst Register.temp1
  let (load2, r) := toReg src Register.temp2
  load1 ++ load2 ++ emitPseudoType insn d r

/-- `symb_emit_mv(Register, SymbolicLocation)`. -/
def symbEmitMvToReg (dst : Reg) (src : Loc) : List Line :=
  let (load, r) := toReg src Register.temp2
  load ++ [.op (.mv dst r)]

/-- `symb_emit_mv(SymbolicLocation, Register)`. -/
def symbEmitMvFromReg (dst : Loc) (src : Reg) : List Line :=
  let (load, d) := toReg dst Register.temp2
  load ++ [.op (.mv d src)]

/-- `symb_emit_mv(SymbolicLocation, SymbolicLocation)`. -/
def symbEmitMv (dst src : Loc) : List Line :=
  let (load1, r) := toReg src Register.temp1
  let (load2, d) := toReg dst Register.temp2
  load1 ++ load2 ++ [.op (.mv d r)]

def symbEmitLa (dst : Loc) (label : String) : List Line :=
  let (load, d) := toReg dst Register.temp1
  load ++ [.op (.la d label)]

def symbEmitEq (dst src1 src2 : Loc) : List Line :=
  symbEmitRType .sub dst src2 src1 ++ symbEmitPseudoType .seqz dst dst

def symbEmitNeq (dst src1 src2 : Loc) : List Line :=
  symbEmitRType .sub dst src2 src1 ++ symbEmitPseudoType .snez dst dst

def symbEmitSle (dst src1 src2 : Loc) : List Line :=
  symbEmitRType .sgt dst src1 src2 ++ symbEmitIType .xori dst dst 1

def symbEmitSge (dst src1 src2 : Loc) : List Line :=
  symbEmitRType .slt dst src1 src2 ++ symbEmitIType .xori dst dst 1

/-! ### In registers -/

section Registers

variable (sym : String → Word) (s : State) (d a b : Reg)

@[simp] theorem exec_symbEmitRType (insn : RType) :
    execLines sym (symbEmitRType insn (.register d) (.register a) (.register b)) s =
      s.set d (insn.eval (s.get a) (s.get b)) := rfl

@[simp] theorem exec_symbEmitIType (insn : IType) (imm : ℤ) :
    execLines sym (symbEmitIType insn (.register d) (.register a) imm) s =
      s.set d (insn.eval (s.get a) (toInt imm)) := rfl

@[simp] theorem exec_symbEmitPseudoType (insn : Pseudo) :
    execLines sym (symbEmitPseudoType insn (.register d) (.register a)) s =
      s.set d (insn.eval (s.get a)) := rfl

@[simp] theorem exec_symbEmitLi (imm : ℤ) :
    execLines sym (symbEmitLi (.register d) imm) s = s.set d (BitVec.ofInt 64 (toInt imm)) := rfl

@[simp] theorem exec_symbEmitLd (off : ℤ) :
    execLines sym (symbEmitLd (.register d) (.register a) off) s =
      s.set d (s.load (s.get a + BitVec.ofInt 64 (toInt off))) := rfl

@[simp] theorem exec_symbEmitSd (off : ℤ) :
    execLines sym (symbEmitSd (.register a) (.register b) off) s =
      s.store (s.get b + BitVec.ofInt 64 (toInt off)) (s.get a) := rfl

@[simp] theorem exec_symbEmitMvToReg :
    execLines sym (symbEmitMvToReg d (.register a)) s = s.set d (s.get a) := rfl

@[simp] theorem exec_symbEmitMvFromReg :
    execLines sym (symbEmitMvFromReg (.register d) a) s = s.set d (s.get a) := rfl

@[simp] theorem exec_symbEmitMv :
    execLines sym (symbEmitMv (.register d) (.register a)) s = s.set d (s.get a) := rfl

end Registers

end CodeBuffer

end LamaRv
