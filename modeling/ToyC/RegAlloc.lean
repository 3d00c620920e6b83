import ToyC.IR
import ToyC.Registers
import ToyC.Lib.Dataflow

/-!
# Register allocation

Liveness by iteration over the blocks, the interference graph from one backward walk
through each of them, and a greedy colouring in an order of falling degree that first
tries to give the two ends of a copy one register. A vreg that gets no register gets a
spill slot of its own.

The rows of the source's tables are functions of the vreg. Its sorting routine leaves the
order of equal degrees open, so the order is a parameter (`Sorting`), of which only what
any sorting routine does is known.
-/

namespace ToyC

/-- **The allocation of a function.** -/
structure Allocation where
  reg : Nat → Option XReg := fun _ => none
  spillSlot : Nat → Option Nat := fun _ => none
  numSpills : Nat := 0
  usedCallee : List XReg := []
  isLeaf : Bool := true

/-- A sorting routine: it puts a list in some order. -/
structure Sorting where
  sort : (Nat → Nat → Bool) → List Nat → List Nat
  perm : ∀ lt l, (sort lt l).Perm l

/-! ## Uses and definitions -/

/-- The vregs read by an instruction, with the one its hint names. -/
def Inst.uses (inst : Inst) : List Nat :=
  inst.operands.filterMap Val.reg? ++ inst.magicVreg.toList

/-- Whether an instruction copies a vreg. -/
def Inst.isMove (inst : Inst) : Bool := inst.op == .Mv && inst.a.isReg

/-- The vregs read by a terminator. -/
def BasicBlock.termUses (bb : BasicBlock) : List Nat :=
  match bb.term with
  | .Br => bb.cond.reg?.toList
  | .Ret => if bb.retHasVal then bb.retVal.reg?.toList else []
  | .Jmp | .None => []

/-- Read some vregs in a block, after some were written in it. -/
def useAll (vs : List Nat) (s : Finset Nat × Finset Nat) : Finset Nat × Finset Nat :=
  (s.1 ∪ (vs.toFinset \ s.2), s.2)

/-- The vregs a block reads before it writes them, and those it writes. -/
def BasicBlock.useDef (bb : BasicBlock) : Finset Nat × Finset Nat :=
  useAll bb.termUses (bb.insts.foldl
    (fun s inst =>
      let s := useAll inst.uses s
      (s.1, s.2 ∪ inst.dst.toFinset))
    (∅, ∅))

/-- **Liveness** as a dataflow problem. -/
def IRFunc.liveness (F : IRFunc) : Dataflow.Problem Nat where
  size := F.blocks.length
  succs b := succsOf (F.blockAt b)
  use b := (F.blockAt b).useDef.1
  kill b := (F.blockAt b).useDef.2

/-! ## Interference -/

/-- The interference graph, what crosses a call, and the ends of copies. -/
structure Interference where
  adj : Nat → List Nat := fun _ => []
  callCross : Nat → Bool := fun _ => false
  movePartner : Nat → List Nat := fun _ => []
  isLeaf : Bool := true

namespace Interference

/-- Two vregs interfere. -/
def addInterf (I : Interference) (a b : Nat) : Interference :=
  if a = b then I
  else { I with
    adj := fun x =>
      if x = a then (I.adj x).insert b else if x = b then (I.adj x).insert a else I.adj x }

/-- What an instruction writes interferes with what is live behind it, except with the
source of a copy. -/
def addDef (inst : Inst) (live : List Nat) (I : Interference) : Interference :=
  match inst.dst with
  | none => I
  | some d => live.foldl
      (fun I v =>
        if v = d then I
        else if inst.isMove && inst.a == .reg v then I
        else I.addInterf d v) I

/-- What is live behind a call crosses it, except its result. -/
def addCall (inst : Inst) (live : List Nat) (I : Interference) : Interference :=
  if inst.op = .Call then
    { I with
      isLeaf := false
      callCross := fun v => I.callCross v || (live.contains v && inst.dst != some v) }
  else I

/-- Note the two ends of a copy. -/
def addMove (inst : Inst) (I : Interference) : Interference :=
  match inst.isMove, inst.dst, inst.a with
  | true, some d, .reg a =>
    let partner := fun x => if x = d then I.movePartner x ++ [a] else I.movePartner x
    { I with movePartner := fun x => if x = a then partner x ++ [d] else partner x }
  | _, _, _ => I

/-- **Walk back over an instruction**, with the vregs live behind it. -/
def scanInst (inst : Inst) (s : List Nat × Interference) : List Nat × Interference :=
  (inst.uses.foldl (fun live v => live.insert v) (s.1.filter fun v => inst.dst != some v),
    addMove inst (addCall inst s.1 (addDef inst s.1 s.2)))

/-- Walk back through a block. -/
def scanBlock (bb : BasicBlock) (liveOut : List Nat) (I : Interference) : Interference :=
  (bb.insts.foldr scanInst (bb.termUses.foldl (fun live v => live.insert v) liveOut, I)).2

/-- **The parameters** are written together at the entry: they interfere with one another
and with what is live there. -/
def addParams (liveIn : List Nat) : List Nat → Interference → Interference
  | [], I => I
  | p :: ps, I =>
    addParams liveIn ps (liveIn.foldl (fun I v => I.addInterf p v)
      (ps.foldl (fun I q => I.addInterf p q) I))

end Interference

/-- A set of vregs as the source's row of flags lists it. -/
def IRFunc.row (F : IRFunc) (s : Finset Nat) : List Nat := (List.range F.numVregs).filter (· ∈ s)

/-- **The interference graph of a function.** -/
def IRFunc.interference (F : IRFunc) (L : Dataflow.Facts Nat) : Interference :=
  Interference.addParams (F.row (L.into 0)) F.paramRegs
    ((List.range F.blocks.length).foldl
      (fun I b => Interference.scanBlock (F.blockAt b) (F.row (L.out b)) I) {})

/-! ## Colouring -/

/-- The registers a vreg may get, the preferred ones first. -/
def Interference.allowed (I : Interference) (v : Nat) : List XReg :=
  if I.callCross v then calleeSavedPool else callerSavedPool ++ calleeSavedPool

/-- The register for a vreg, given those of its neighbours: one of a copy's other end if
possible, else the first that is free. -/
def Interference.pick (I : Interference) (reg : Nat → Option XReg) (v : Nat) : Option XReg :=
  let used := (I.adj v).filterMap reg
  let free := fun c => !used.contains c
  ((I.movePartner v).findSome? fun p =>
      (reg p).filter fun c => free c && (I.allowed v).contains c).or
    ((I.allowed v).find? free)

/-- **Colour a vreg**, or give it a spill slot. -/
def Interference.colour (I : Interference) (A : Allocation) (v : Nat) : Allocation :=
  match I.pick A.reg v with
  | some c => { A with reg := Function.update A.reg v (some c) }
  | none =>
    { A with
      spillSlot := Function.update A.spillSlot v (some A.numSpills)
      numSpills := A.numSpills + 1 }

/-- The vregs in the order they are coloured: by falling degree. -/
def Interference.order (I : Interference) (S : Sorting) (nv : Nat) : List Nat :=
  S.sort (fun a b => decide ((I.adj b).length < (I.adj a).length)) (List.range nv)

/-- The callee-saved registers in use. -/
def Allocation.calleeInUse (A : Allocation) (nv : Nat) : List XReg :=
  (List.range 32).filter fun c =>
    isCalleeSaved c && (List.range nv).any fun v => A.reg v == some c

/-- **Allocate the registers of a function.** -/
def allocateRegisters (S : Sorting) (F : IRFunc) (n : Nat) : Outcome Allocation := do
  let L ← F.liveness.solve n
  let I := F.interference L
  let A := (I.order S F.numVregs).foldl I.colour { isLeaf := I.isLeaf }
  .ok { A with usedCallee := A.calleeInUse F.numVregs }

end ToyC
