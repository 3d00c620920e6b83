import ToyC.MagicExact
import ToyC.OptOperands
import ToyC.Optimizer

/-!
# Divisions on the host

The compiler divides too: it folds constants, and it computes magic numbers. A division by zero, and
the signed division of the least number by `-1`, traps on the host and ends the compiler. Here are
the passes once more with each division of the host checked: where it traps, they are stuck. The
other passes and the other parts of the code generator divide nothing, and are used as they are.
-/

namespace ToyC

open Rv32 Pipeline

/-! ## The divisions -/

/-- A signed division of the host traps. -/
def HostTraps (a b : Word) : Prop := b = 0#32 ∨ a = Word.intMin ∧ b = -1

instance (a b : Word) : Decidable (HostTraps a b) := inferInstanceAs (Decidable (_ ∨ _))

/-- A signed quotient of the host. -/
def hostDiv? (a b : Word) : Outcome Word := if HostTraps a b then .stuck else .ok (a.sdiv b)

/-- A signed remainder of the host. -/
def hostMod? (a b : Word) : Outcome Word := if HostTraps a b then .stuck else .ok (a.srem b)

/-- An unsigned quotient of the host. -/
def hostUDiv? (a b : Word) : Outcome Word := if b = 0#32 then .stuck else .ok (a / b)

/-- An unsigned remainder of the host. -/
def hostUMod? (a b : Word) : Outcome Word := if b = 0#32 then .stuck else .ok (a % b)

/-- A quotient of numbers of 64 bits. -/
def hostDiv64? (a b : Nat) : Outcome Nat := if b = 0 then .stuck else .ok (a / b)

/-! ## Constant folding -/

def foldImm? (op : Op) (av bv : Word) : Outcome (Option Word) :=
  match op with
  | .Div =>
    if bv = 0#32 then .ok none
    else do
      let q ← hostDiv? av bv
      .ok (some q)
  | .Mod =>
    if bv = 0#32 then .ok none
    else do
      let r ← hostMod? av bv
      .ok (some r)
  | op => .ok (foldImm op av bv)

def foldInst? (inst : Inst) : Outcome (Option Inst) :=
  match inst.a, inst.b with
  | .imm av, .imm bv =>
    if isBinary inst.op then do
      match ← foldImm? inst.op av bv with
      | some res => .ok (some (inst.toMv (.imm res)))
      | none => .ok (foldAlgebra inst)
    else .ok (foldInst inst)
  | _, _ => .ok (foldInst inst)

/-- An instruction and whether it was rewritten. -/
def foldStep? (inst : Inst) : Outcome (Inst × Bool) := do
  let folded ← foldInst? inst
  .ok (folded.getD inst, folded.isSome)

def foldBlock? (bb : BasicBlock) : Outcome (BasicBlock × Bool) := do
  let steps ← bb.insts.mapM' foldStep?
  .ok ({ bb with insts := steps.map (·.1) }, steps.any (·.2))

/-- **Constant folding**, as the host does it. -/
def constFold? (F : IRFunc) : Outcome (IRFunc × Bool) := do
  let blocks ← F.blocks.mapM' foldBlock?
  .ok ({ F with blocks := blocks.map (·.1) }, blocks.any (·.2))

/-! ## Magic numbers -/

def magicAnc? (d : Word) : Outcome Word := do
  let r ← hostUMod? (magicT d) (magicAd d)
  .ok (magicT d - 1 - r)

def MagicState.start? (d anc : Word) : Outcome MagicState := do
  let two31 : Word := 0x80000000#32
  let q1 ← hostUDiv? two31 anc
  let q2 ← hostUDiv? two31 (magicAd d)
  .ok { p := 31, q1, r1 := two31 - q1 * anc, q2, r2 := two31 - q2 * magicAd d }

def signedMagic? (d : Word) : Outcome (Word × Nat) := do
  let anc ← magicAnc? d
  let start ← MagicState.start? d anc
  let s := MagicState.loop anc (magicAd d) 64 start
  let m := s.q2 + 1
  .ok (if d.slt 0 then -m else m, s.p - 32)

def unsignedMagicFrom? (d : Nat) : List Nat → Outcome (Word × Nat)
  | [] => .ok (0, 0)
  | k :: ks => do
    let m ← hostDiv64? (2 ^ (32 + k) + d - 1) d
    if m < 2 ^ 32 then .ok (BitVec.ofNat 32 m, k) else unsignedMagicFrom? d ks

def unsignedMagic? (d : Word) : Outcome (Word × Nat) := unsignedMagicFrom? d.toNat (List.range 33)

def magicNumber? (c : Word) (isUnsigned : Bool) : Outcome Word := do
  let (magic, _) ← if isUnsigned then unsignedMagic? c else signedMagic? c
  .ok magic

/-! ## Hoisting magic numbers -/

/-- The table of the magic numbers in front of a loop. -/
abbrev MagicHoist := Hoist (Word × Bool)

/-- The vreg of a magic number, which is computed if it has none. -/
def magicRegFor? (s : MagicHoist) (c : Word) (isUnsigned : Bool) : Outcome (Nat × MagicHoist) :=
  match s.regs.lookup (c, isUnsigned) with
  | some r => .ok (r, s)
  | none => do
    let magic ← magicNumber? c isUnsigned
    .ok (s.regFor (c, isUnsigned) magic)

def hintMagic? (s : MagicHoist) (inst : Inst) : Outcome (Inst × MagicHoist) :=
  match inst.b with
  | .reg _ => .ok (inst, s)
  | .imm c =>
    if (inst.op = .Div ∨ inst.op = .Mod) ∧ needsMagic c = true ∧ inst.magicVreg = none then do
      let (r, s) ← magicRegFor? s c inst.unsignedDiv
      .ok ({ inst with magicVreg := some r }, s)
    else .ok (inst, s)

def hintInsts? : MagicHoist → List Inst → Outcome (List Inst × MagicHoist)
  | s, [] => .ok ([], s)
  | s, inst :: insts => do
    let (inst, s) ← hintMagic? s inst
    let (insts, s) ← hintInsts? s insts
    .ok (inst :: insts, s)

def hintBlocks? (L : Finset Nat) :
    Nat → MagicHoist → List BasicBlock → Outcome (List BasicBlock × MagicHoist)
  | _, s, [] => .ok ([], s)
  | b, s, bb :: bbs =>
    if b ∈ L then do
      let (insts, s) ← hintInsts? s bb.insts
      let (bbs, s) ← hintBlocks? L (b + 1) s bbs
      .ok ({ bb with insts } :: bbs, s)
    else do
      let (bbs, s) ← hintBlocks? L (b + 1) s bbs
      .ok (bb :: bbs, s)

def hintLoop? (F : IRFunc) (L : Finset Nat) (pre : Nat) : Outcome IRFunc := do
  let (blocks, s) ← hintBlocks? L 0 { numVregs := F.numVregs } F.blocks
  .ok { F with
    blocks := blocks.modify pre fun bb => { bb with insts := bb.insts ++ s.moved }
    numVregs := s.numVregs }

def hintEdges? (dom : Nat → Finset Nat) (n : Nat) : List (Nat × Nat) → IRFunc → Outcome IRFunc
  | [], F => .ok F
  | (u, v) :: edges, F => do
    let F ← if v ∈ dom u then do
        let L ← loopOf F u v n
        match preheader F L v with
        | none => .ok F
        | some pre => hintLoop? F L pre
      else .ok F
    hintEdges? dom n edges F

/-- **Hoisting the magic numbers**, as the host does it. -/
def hoistMagicDiv? (F : IRFunc) (n : Nat) : Outcome IRFunc :=
  let F := computeCFG F
  if F.blocks.length = 0 then .ok F
  else do
    let dom ← computeDom F n
    hintEdges? dom n F.edges F

/-- What a pass does, as the host does it. -/
def Pass.exec? (n : Nat) (p : Pass) (F : IRFunc) : Outcome (IRFunc × Bool) :=
  match p with
  | .constFold => constFold? F
  | .hoistMagicDiv => do
    let F ← hoistMagicDiv? F n
    .ok (F, false)
  | p => p.exec n F

/-! ## The code generator -/

namespace OptCodeGen

section Emit

variable (m : IRModule) (opt : Bool) (fr : Frame) (A : Allocation)

def emitMagicQuotient? (magicVreg : Option Nat) (isUnsigned : Bool) (q ra : XReg) (c : Word) :
    Outcome (List Instr) :=
  let t := scratch1
  let w := XReg.a7
  if isUnsigned then do
    let (magic, s) ← unsignedMagic? c
    let (code, x) := magicReg fr A magicVreg magic
    .ok (code ++ [.alu .mulhu w ra x] ++
      if 0 < s then [.shift .srli q w s] else if q ≠ w then [.mv q w] else [])
  else do
    let (magic, s) ← signedMagic? c
    let (code, x) := magicReg fr A magicVreg magic
    .ok (code ++ [.alu .mulh w ra x] ++
      (if BitVec.slt 0 c && magic.slt 0 then [.add w w ra]
        else if c.slt 0 && BitVec.slt 0 magic then [.sub w w ra] else []) ++
      (if 0 < s then [.shift .srai w w s] else []) ++
      [.shift .srli t w 31, .add q w t])

def emitDivConst? (magicVreg : Option Nat) (isUnsigned : Bool) (rd ra : XReg) (c : Word) :
    Outcome (List Instr) :=
  let s := scratch1
  if c = 1 then .ok (if rd ≠ ra then [.mv rd ra] else [])
  else if c = -1 then .ok [.neg rd ra]
  else
    match log2pos (absConst c) with
    | some k => .ok (emitPow2Bias s ra k ++ [.add s ra s, .shift .srai rd s k] ++ negIf c rd)
    | none =>
      if c ≠ 0 then emitMagicQuotient? fr A magicVreg isUnsigned rd ra c
      else .ok [.li s c, .alu .div rd ra s]

def emitModConst? (magicVreg : Option Nat) (isUnsigned : Bool) (rd ra : XReg) (c : Word) :
    Outcome (List Instr) :=
  let s := scratch1
  if absConst c = 1 then .ok [.li rd 0]
  else
    match log2pos (absConst c) with
    | some k =>
      .ok (emitPow2Bias s ra k ++
        [.add s ra s, .shift .srai s s k, .shift .slli s s k, .sub rd ra s])
    | none =>
      if isUnsigned then do
        let (magic, sh) ← unsignedMagic? c
        let (code, x) := magicReg fr A magicVreg magic
        let q := if 0 < sh then XReg.a6 else XReg.a7
        .ok (code ++ [.alu .mulhu XReg.a7 ra x] ++
          (if 0 < sh then [.shift .srli XReg.a6 XReg.a7 sh] else []) ++
          emitMulConst XReg.a7 q c ++ [.sub rd ra XReg.a7])
      else do
        let code ← emitMagicQuotient? fr A magicVreg isUnsigned XReg.a6 ra c
        .ok (code ++ emitMulConst XReg.a7 XReg.a6 c ++ [.sub rd ra XReg.a7])

variable (override : Option XReg)

def emitUnary? (dst : Nat) (v : Val) (code : XReg → XReg → Outcome (List Instr)) :
    Outcome (List Instr) := do
  let (load, ra) := toReg fr A v scratch0
  let rd := dstReg A override dst scratch0
  let instrs ← code rd ra
  .ok (load ++ instrs ++ writeBack fr A override dst rd)

/-- The code of an instruction: only the divisions by a constant make the generator divide. -/
def emitInst? (inst : Inst) : Outcome (List Instr) :=
  let unary := emitUnary? fr A override (inst.dst.getD 0) inst.a
  match inst.op, opt, inst.b with
  | .Div, true, .imm c =>
    unary fun rd ra => emitDivConst? fr A inst.magicVreg inst.unsignedDiv rd ra c
  | .Mod, true, .imm c =>
    unary fun rd ra => emitModConst? fr A inst.magicVreg inst.unsignedDiv rd ra c
  | _, _, _ => .ok (emitInst m opt fr A override inst)

variable (f : IRFunc)

def emitTerm? (bb : BasicBlock) (next : Option Nat) (fused retFuse : Option Inst) :
    Outcome (List Instr) :=
  match bb.term, retFuse with
  | .Ret, some inst => do
    let code ← emitInst? m opt fr A (some XReg.a0) inst
    .ok (code ++ emitEpilogue fr A)
  | _, _ => .ok (emitTerm m opt fr A f bb next fused retFuse)

def blockCode? (bb : BasicBlock) (next : Option Nat) : Outcome (List Instr) := do
  let codes ← (plainInsts f bb).mapM' (emitInst? m opt fr A none)
  let term ← emitTerm? m opt fr A f bb next (fusedCmp f bb) (fusedRet f bb)
  .ok (codes.flatten ++ term)

def emitBlocks? : List Nat → Outcome (List Item)
  | [] => .ok []
  | b :: bs => do
    let code ← blockCode? m opt fr A f (f.blockAt b) bs.head?
    let rest ← emitBlocks? bs
    .ok (.label (f.label (f.blockAt b).id) :: code.map .instr ++ rest)

def emitFunc? : Outcome (List Item) := do
  let fr := frameOf A f
  let blocks ← emitBlocks? m opt fr A f (order f)
  .ok ([.globl f.name, .p2align 1, .label f.name] ++ (prologue fr A f).map .instr ++ blocks)

end Emit

def emitFuncs? (S : Sorting) (m : IRModule) (opt : Bool) (n : Nat) :
    List IRFunc → Outcome (List Item)
  | [] => .ok []
  | f :: fs => do
    let A ← allocateRegisters S f n
    let code ← emitFunc? m opt A f
    let rest ← emitFuncs? S m opt n fs
    .ok (code ++ rest)

end OptCodeGen

/-- **The code generator**, as the host does it. -/
def generateAsmOpt? (S : Sorting) (m : IRModule) (opt : Bool) (n : Nat) : Outcome (List Item) := do
  let code ← OptCodeGen.emitFuncs? S m opt n m.funcs
  .ok (emitData m ++ [.text] ++ code)

/-- **The optimizing compiler**, as the host does it. -/
def compile? (S : Sorting) (m : IRModule) (n : Nat) : Outcome (List Item) := do
  let m := inlined m true
  let funcs ← optimizeFuncs (Pass.exec? n) true m.funcs
  generateAsmOpt? S { m with funcs } true n

end ToyC
