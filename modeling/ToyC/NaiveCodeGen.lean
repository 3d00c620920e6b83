import ToyC.StackFrame

/-!
# The baseline code generator

Every vreg has a slot in the frame of its function, and an instruction loads its operands
from their slots and stores its result there. The definitions follow the methods of the
source's class; the four numbers it keeps for the current function are a `Frame`, and the
text it writes is the list of its items.
-/

namespace ToyC

open Rv32

namespace NaiveCodeGen

/-- The parts of a frame, from below: outgoing stack arguments, the slots of the vregs,
the saved return address. -/
structure Frame where
  outArgArea : Nat
  numVregs : Nat
  raOff : Nat
  frameSize : Nat
  deriving DecidableEq, Repr

/-- The frame of a function. -/
def frameOf (f : IRFunc) : Frame :=
  let outArgArea := f.maxStackArgs * 4
  let raOff := outArgArea + f.numVregs * 4
  { outArgArea, numVregs := f.numVregs, raOff, frameSize := align16 (raOff + 4) }

/-- Where the slot of a vreg is. -/
def Frame.slotOff (fr : Frame) (v : Nat) : Nat := fr.outArgArea + v * 4

def loadOff : XReg → Nat → List Instr := loadOffVia XReg.t6

def storeOff : XReg → Nat → List Instr := storeOffVia XReg.t6

variable (m : IRModule) (fr : Frame)

def loadSlot (reg : XReg) (v : Nat) : List Instr := loadOff reg (fr.slotOff v)

def storeSlot (reg : XReg) (v : Nat) : List Instr := storeOff reg (fr.slotOff v)

def loadVal (val : Val) (reg : XReg) : List Instr :=
  match val with
  | .imm i => [.li reg i]
  | .reg r => loadSlot fr reg r

/-- The instructions of an operation on `t0` and `t1`. -/
def opCode (op : Op) : List Instr :=
  let t0 := XReg.t0
  let t1 := XReg.t1
  match op with
  | .Add => [.alu .add t0 t0 t1]
  | .Sub => [.alu .sub t0 t0 t1]
  | .Mul => [.alu .mul t0 t0 t1]
  | .Div => [.alu .div t0 t0 t1]
  | .Mod => [.alu .rem t0 t0 t1]
  | .Lt => [.alu .slt t0 t0 t1]
  | .Gt => [.alu .slt t0 t1 t0]
  | .Le => [.alu .slt t0 t1 t0, .alui .xori t0 t0 1]
  | .Ge => [.alu .slt t0 t0 t1, .alui .xori t0 t0 1]
  | .Eq => [.alu .sub t0 t0 t1, .seqz t0 t0]
  | .Ne => [.alu .sub t0 t0 t1, .snez t0 t0]
  | _ => []

def emitBinary (inst : Inst) : List Instr :=
  loadVal fr inst.a XReg.t0 ++ loadVal fr inst.b XReg.t1 ++ opCode inst.op ++
    storeSlot fr XReg.t0 (inst.dst.getD 0)

/-- The stack arguments of a call, from slot `k` on and the last one first. -/
def stackArgs : Nat → List Val → List Instr
  | _, [] => []
  | k, v :: vs => stackArgs (k + 1) vs ++ (loadVal fr v XReg.t0 ++ storeOff XReg.t0 (k * 4))

/-- The register arguments of a call, from register `x` on. -/
def regArgs : XReg → List Val → List Instr
  | _, [] => []
  | x, v :: vs => loadVal fr v x ++ regArgs (x + 1) vs

def emitCall (inst : Inst) : List Instr :=
  stackArgs fr 0 (inst.args.drop 8) ++ regArgs fr XReg.a0 (inst.args.take 8) ++
    [.call inst.callee] ++
    match inst.dst with
    | some d => storeSlot fr XReg.a0 d
    | none => []

/-- The code of an instruction. -/
def emitInst (inst : Inst) : List Instr :=
  let dst := inst.dst.getD 0
  match inst.op with
  | .Mv => loadVal fr inst.a XReg.t0 ++ storeSlot fr XReg.t0 dst
  | .LoadGlobal =>
    [.luiHi XReg.t0 (m.globalName inst.gid),
      .lwLo XReg.t0 (m.globalName inst.gid) XReg.t0] ++ storeSlot fr XReg.t0 dst
  | .StoreGlobal =>
    loadVal fr inst.a XReg.t0 ++
      [.luiHi XReg.t1 (m.globalName inst.gid),
        .swLo XReg.t0 (m.globalName inst.gid) XReg.t1]
  | .Neg => loadVal fr inst.a XReg.t0 ++ [.neg XReg.t0 XReg.t0] ++ storeSlot fr XReg.t0 dst
  | .Not => loadVal fr inst.a XReg.t0 ++ [.seqz XReg.t0 XReg.t0] ++ storeSlot fr XReg.t0 dst
  | .Call => emitCall fr inst
  | _ => emitBinary fr inst

/-- The end of a function, without the return itself. -/
def restore : List Instr := loadOff XReg.ra fr.raOff ++ closeFrame fr.frameSize

def emitEpilogue : List Instr := restore fr ++ [.ret]

/-- The code of a terminator. -/
def emitTerm (f : IRFunc) (bb : BasicBlock) : List Instr :=
  match bb.term with
  | .Jmp => [.j (f.label bb.succ0)]
  | .Br =>
    loadVal fr bb.cond XReg.t0 ++ [.bnez XReg.t0 (f.label bb.succ0), .j (f.label bb.succ1)]
  | .Ret => (if bb.retHasVal then loadVal fr bb.retVal XReg.a0 else []) ++ emitEpilogue fr
  | .None => emitEpilogue fr

def emitBlock (f : IRFunc) (bb : BasicBlock) : List Item :=
  .label (f.label bb.id) ::
    (bb.insts.flatMap (emitInst m fr) ++ emitTerm fr f bb).map .instr

/-- Move the incoming parameters, from number `i` on, into their slots. -/
def moveParams : Nat → List Nat → List Instr
  | _, [] => []
  | i, v :: vs =>
    (if i < 8 then storeSlot fr (XReg.a0 + i) v
      else loadOff XReg.t0 (fr.frameSize + (i - 8) * 4) ++ storeSlot fr XReg.t0 v) ++
      moveParams (i + 1) vs

/-- The beginning of a function. -/
def prologue (f : IRFunc) : List Instr :=
  openFrame fr.frameSize ++ storeOff XReg.ra fr.raOff ++
    moveParams fr 0 (f.paramRegs.take f.numParams)

/-- **The code of a function.** -/
def emitFunc (f : IRFunc) : List Item :=
  let fr := frameOf f
  [.globl f.name, .p2align 1, .label f.name] ++ (prologue fr f).map .instr ++
    f.blocks.flatMap (emitBlock m fr f)

end NaiveCodeGen

/-- **The assembly of a module.** -/
def generateAsmNaive (m : IRModule) : List Item :=
  emitData m ++ [.text] ++ m.funcs.flatMap (NaiveCodeGen.emitFunc m)

end ToyC
