import ToyC.IR
import ToyC.Lib.Machine

/-!
# Meaning of the three-address code

A function is executed as a machine, instruction by instruction, against an oracle
that answers its calls; a module is the recursion through that oracle. The state
holds the values of the virtual registers, whose contents at entry – the parameters
apart – are arbitrary (`junk`), and the values of the globals.

A call to a function the module does not have or with a wrong number of arguments, a
result expected of a function that returned none, and a jump out of the function
have no meaning.
-/

namespace ToyC

/-- The contents of the virtual registers. -/
abbrev Regs := Nat → Word

/-- The contents of the globals, by identifier. -/
abbrev Globals := Nat → Word

/-- What is asked of the callee of a call: its name, the arguments and the globals. -/
structure CallArgs where
  name : String
  args : List Word
  globals : Globals

/-- What comes back: the returned value, if there is one, and the globals. -/
abbrev CallResult := Option Word × Globals

/-- What answers the calls of a function. -/
abbrev Callee := Outcome.Oracle CallArgs CallResult

/-- The value a binary operation computes. -/
def Op.eval (op : Op) (a b : Word) : Word :=
  match op with
  | .Add => a + b
  | .Sub => a - b
  | .Mul => a * b
  | .Div => Word.div a b
  | .Mod => Word.rem a b
  | .Lt => Word.ofBool (a.slt b)
  | .Gt => Word.ofBool (b.slt a)
  | .Le => Word.ofBool (!b.slt a)
  | .Ge => Word.ofBool (!a.slt b)
  | .Eq => Word.ofBool (a == b)
  | .Ne => Word.ofBool (a != b)
  | _ => 0#32

/-- The value of an operand. -/
def Val.eval (R : Regs) : Val → Word
  | .imm v => v
  | .reg r => R r

@[simp] theorem Val.eval_imm (R : Regs) (v : Word) : (Val.imm v).eval R = v := rfl

@[simp] theorem Val.eval_reg (R : Regs) (r : Nat) : (Val.reg r).eval R = R r := rfl

/-- Write a register. -/
def Regs.set (R : Regs) (r : Nat) (v : Word) : Regs := fun x => if x = r then v else R x

@[simp] theorem Regs.set_same (R : Regs) (r : Nat) (v : Word) : R.set r v r = v := by
  simp [Regs.set]

theorem Regs.set_of_ne (R : Regs) {r x : Nat} (v : Word) (h : x ≠ r) :
    R.set r v x = R x := by
  simp [Regs.set, h]

/-- Write the register of an instruction that has one. -/
def Regs.write (R : Regs) (dst : Option Nat) (v : Word) : Regs :=
  match dst with
  | none => R
  | some r => R.set r v

@[simp] theorem Regs.write_some (R : Regs) (r : Nat) (v : Word) :
    R.write (some r) v = R.set r v := rfl

/-- Write a global. -/
def Globals.set (G : Globals) (gid : Nat) (v : Word) : Globals :=
  fun x => if x = gid then v else G x

/-- What a call leaves in the register of its result. -/
def Regs.writeResult (R : Regs) (dst : Option Nat) (v : Option Word) : Outcome Regs :=
  match dst, v with
  | none, _ => .ok R
  | some r, some v => .ok (R.set r v)
  | some _, none => .stuck

/-- **Execute an instruction.** -/
def Inst.exec (call : Callee) (inst : Inst) (R : Regs) (G : Globals) :
    Outcome (Regs × Globals) :=
  match inst.op with
  | .Mv => .ok (R.write inst.dst (inst.a.eval R), G)
  | .LoadGlobal => .ok (R.write inst.dst (G inst.gid), G)
  | .StoreGlobal => .ok (R, G.set inst.gid (inst.a.eval R))
  | .Neg => .ok (R.write inst.dst (-inst.a.eval R), G)
  | .Not => .ok (R.write inst.dst (Word.ofBool (inst.a.eval R == 0#32)), G)
  | .Call => do
    let (v, G) ← call ⟨inst.callee, inst.args.map (·.eval R), G⟩
    let R ← R.writeResult inst.dst v
    .ok (R, G)
  | op => .ok (R.write inst.dst (op.eval (inst.a.eval R) (inst.b.eval R)), G)

/-- **A point of an execution**: what is left of the current block, and the
contents of the registers and of the globals. -/
structure Config where
  block : Nat
  rest : List Inst
  regs : Regs
  globals : Globals

/-- The beginning of a block. -/
def IRFunc.start (F : IRFunc) (b : Nat) (R : Regs) (G : Globals) : Config :=
  ⟨b, (F.blockAt b).insts, R, G⟩

namespace IRFunc

/-- Enter a block. -/
def enter (F : IRFunc) (b : Nat) (R : Regs) (G : Globals) :
    Outcome (Config ⊕ CallResult) :=
  match F.blocks[b]? with
  | none => .stuck
  | some bb => .ok (.inl ⟨b, bb.insts, R, G⟩)

/-- Execute the terminator of a block. -/
def execTerm (F : IRFunc) (bb : BasicBlock) (R : Regs) (G : Globals) :
    Outcome (Config ⊕ CallResult) :=
  match bb.term with
  | .Jmp => F.enter bb.succ0 R G
  | .Br => F.enter (if Word.truthy (bb.cond.eval R) then bb.succ0 else bb.succ1) R G
  | .Ret => .ok (.inr (if bb.retHasVal then some (bb.retVal.eval R) else none, G))
  | .None => .stuck

/-- **One step of a function.** -/
def step (F : IRFunc) (call : Callee) (c : Config) : Outcome (Config ⊕ CallResult) :=
  match c.rest with
  | [] =>
    match F.blocks[c.block]? with
    | none => .stuck
    | some bb => F.execTerm bb c.regs c.globals
  | inst :: rest => do
    let (R, G) ← inst.exec call c.regs c.globals
    .ok (.inl ⟨c.block, rest, R, G⟩)

/-- The registers at entry: the parameters in order, the rest as it was. -/
def entryRegs (junk : Regs) : List Nat → List Word → Regs
  | p :: ps, v :: vs => entryRegs (junk.set p v) ps vs
  | _, _ => junk

/-- The first point of an execution. -/
def entry (F : IRFunc) (junk : Regs) (args : List Word) (G : Globals) : Config :=
  F.start 0 (entryRegs junk F.paramRegs args) G

/-- **Run a function** on arguments. -/
def run (F : IRFunc) (call : Callee) (junk : Regs) (n : Nat) (args : List Word)
    (G : Globals) : Outcome CallResult :=
  if args.length = F.paramRegs.length then
    match F.blocks with
    | [] => .stuck
    | bb :: _ => Machine.run (F.step call) n ⟨0, bb.insts, entryRegs junk F.paramRegs args, G⟩
  else .stuck

theorem enter_eq {F : IRFunc} {b : Nat} (hb : b < F.blocks.length) (R : Regs)
    (G : Globals) : F.enter b R G = .ok (.inl (F.start b R G)) := by
  rw [IRFunc.enter, IRFunc.getElem?_blocks hb]
  rfl

theorem enter_of_ge {F : IRFunc} {b : Nat} (hb : ¬ b < F.blocks.length) (R : Regs)
    (G : Globals) : F.enter b R G = .stuck := by
  rw [IRFunc.enter, List.getElem?_eq_none (Nat.le_of_not_lt hb)]

/-- At the end of a block the terminator is executed. -/
theorem step_nil {F : IRFunc} {b : Nat} (hb : b < F.blocks.length) (call : Callee) (R : Regs)
    (G : Globals) : F.step call ⟨b, [], R, G⟩ = F.execTerm (F.blockAt b) R G := by
  simp only [step, IRFunc.getElem?_blocks hb]

theorem step_nil_of_ge {F : IRFunc} {b : Nat} (hb : ¬ b < F.blocks.length) (call : Callee)
    (R : Regs) (G : Globals) : F.step call ⟨b, [], R, G⟩ = .stuck := by
  simp only [step, List.getElem?_eq_none (Nat.le_of_not_lt hb)]

theorem enter_ne_inr {F : IRFunc} {b : Nat} {R : Regs} {G : Globals} {r : CallResult} :
    F.enter b R G ≠ .ok (.inr r) := by
  unfold IRFunc.enter
  split <;> simp

theorem run_eq {F : IRFunc} (call : Callee) (junk : Regs) (n : Nat) {args : List Word}
    (G : Globals) (hlen : args.length = F.paramRegs.length) (hne : F.blocks ≠ []) :
    F.run call junk n args G = Machine.run (F.step call) n (F.entry junk args G) := by
  unfold run
  rw [if_pos hlen]
  cases hb : F.blocks with
  | nil => exact absurd hb hne
  | cons bb bbs => simp [entry, start, IRFunc.blockAt, hb]

end IRFunc

namespace IRModule

/-- The function of a name. -/
def find (m : IRModule) (name : String) : Option IRFunc := m.funcs.find? (·.name == name)

/-- The body of a call. -/
def body (m : IRModule) (junk : Regs) (p : CallArgs) (call : Callee) (n : Nat) :
    Outcome CallResult :=
  match m.find p.name with
  | none => .stuck
  | some F => F.run call junk n p.args p.globals

/-- **Call a function of the module**, to a depth of recursion. -/
def call (m : IRModule) (junk : Regs) (k : Nat) : Callee := Outcome.calls (m.body junk) k

/-- **What a call means**: it returns a result, at some depth of recursion. -/
def Returns (m : IRModule) (junk : Regs) (p : CallArgs) (r : CallResult) : Prop :=
  ∃ k, m.call junk k p = .ok r

/-- **A call that returns with at most so many activations at a time**: its body does, against
an oracle that knows only what calls return with one less. -/
def ReturnsWithin (m : IRModule) (junk : Regs) : Nat → CallArgs → CallResult → Prop
  | 0, _, _ => False
  | d + 1, p, r => ∃ (call : Callee) (n : Nat),
      (∀ q r', call q = .ok r' → m.ReturnsWithin junk d q r') ∧ m.body junk p call n = .ok r

/-- A call that runs on at every depth of recursion. -/
def Diverges (m : IRModule) (junk : Regs) (p : CallArgs) : Prop :=
  ∀ k, m.call junk k p = .timeout

/-- The globals when the program starts. -/
def initialGlobals (m : IRModule) : Globals := fun gid => (m.globals.getD gid {}).init

end IRModule

/-! ## Executions are regular -/

open Outcome

/-- The answer to one instruction depends on the oracle as it should. -/
theorem Inst.exec_regular (inst : Inst) (R : Regs) (G : Globals) :
    Regular fun (call : Callee) _ => inst.exec call R G := by
  cases hop : inst.op
  case Call =>
    simp only [Inst.exec, hop]
    exact (Regular.ask _).bind fun _ => .const _
  all_goals
    simp only [Inst.exec, hop]
    exact .const _

theorem IRFunc.step_regular (F : IRFunc) (c : Config) :
    Regular fun (call : Callee) _ => F.step call c := by
  cases hrest : c.rest with
  | nil =>
    simp only [IRFunc.step, hrest]
    exact .const _
  | cons inst rest =>
    simp only [IRFunc.step, hrest]
    exact (inst.exec_regular c.regs c.globals).bind fun _ => .const _

/-- **A run depends on its calls as a computation does.** -/
theorem IRFunc.run_regular (F : IRFunc) (junk : Regs) (args : List Word) (G : Globals) :
    Regular fun call n => F.run call junk n args G := by
  unfold IRFunc.run
  split
  · split
    · exact .const _
    · exact Regular.loop (fun c => F.step_regular c) _
  · exact .const _

theorem IRModule.body_regular (m : IRModule) (junk : Regs) (p : CallArgs) :
    Regular (m.body junk p) := by
  unfold IRModule.body
  split
  · exact .const _
  · exact IRFunc.run_regular _ junk p.args p.globals

/-- What a call returns is the answer of the limit. -/
theorem IRModule.returns_iff (m : IRModule) (junk : Regs) (p : CallArgs) (r : CallResult) :
    m.Returns junk p r ↔ limit (m.body junk) p = .ok r :=
  (limit_eq_iff (m.body_regular junk) (by simp)).symm

theorem IRModule.diverges_iff (m : IRModule) (junk : Regs) (p : CallArgs) :
    m.Diverges junk p ↔ limit (m.body junk) p = .timeout :=
  (limit_eq_timeout_iff (m.body_regular junk)).symm

/-- **A call that returns, returns within some number of activations**, and conversely. -/
theorem IRModule.returns_iff_within (m : IRModule) (junk : Regs) (p : CallArgs)
    (r : CallResult) : m.Returns junk p r ↔ ∃ d, m.ReturnsWithin junk d p r := by
  constructor
  · rintro ⟨k, hk⟩
    refine ⟨k, ?_⟩
    induction k generalizing p r with
    | zero => cases hk
    | succ k ih => exact ⟨m.call junk k, k, ih, hk⟩
  · rintro ⟨d, hd⟩
    rw [m.returns_iff]
    induction d generalizing p r with
    | zero => exact hd.elim
    | succ d ih =>
      obtain ⟨call, n, hcall, hbody⟩ := hd
      have hle : Values (m.body junk p call n) (m.body junk p (limit (m.body junk)) n) :=
        (m.body_regular junk p).mono precise_values (fun q r' hr => ih q r' (hcall q r' hr))
          (Nat.le_refl n)
      exact (body_limit (m.body_regular junk) p n).values r (hle r hbody)

end ToyC
