import ToyC.IRGenChecked

/-!
# Variables that are read first

The generator gives a local variable its vreg when it lowers the declaration, and it lowers neither
the branches that a constant condition skips nor anything twice. Two things can be read off the
annotated tree, then. One is which variables have a vreg whenever the generator asks for one
(`AStmt.bound`), which depends on the order of the lowering alone. The other is what the paths
through the code do with a variable before they write it (`AStmt.paths`): whether one of them reads
it, and where the others come out. A condition that is not constant may go either way.

The variable is given as a set of symbols `p`, so that a vreg that belongs to no variable can be
looked at as well.
-/

namespace ToyC

section Vars

variable (S : Sema) (p : SymId → Bool)

/-- A variable that lives in a vreg. -/
def isLocal (sym : SymId) : Bool := (S.symbol sym).kind ≠ .GlobalVar

/-! ## Expressions -/

/-- Whether the value of an expression is the vreg of the variable itself. -/
def AExpr.isVar : AExpr → Bool
  | .var note _ sym => !note.isConst && isLocal S sym && p sym
  | .unary note .Plus operand => !note.isConst && operand.isVar
  | _ => false

/-- Whether the jumps of a condition can go to the target for `b`. -/
def AExpr.canBe (b : Bool) : AExpr → Bool
  | .logical note isOr lhs rhs =>
    if note.isConst then decide (note.constValue ≠ 0#32) == b
    else if isOr == b then lhs.canBe b || lhs.canBe (!b) && rhs.canBe b
    else lhs.canBe b && rhs.canBe b
  | .unary note op operand =>
    if note.isConst then decide (note.constValue ≠ 0#32) == b
    else match op with
      | .Not => operand.canBe (!b)
      | .Plus | .Neg => true
  | .number note _ | .var note _ _ | .binary note _ _ _ | .call note _ _ _ =>
    if note.isConst then decide (note.constValue ≠ 0#32) == b else true

mutual
/-- **The code of an expression reads the variable.** -/
def AExpr.reads : AExpr → Bool
  | .number _ _ | .var _ _ _ => false
  | .binary note _ lhs rhs =>
    !note.isConst && (lhs.reads || lhs.isVar S p || (rhs.reads || rhs.isVar S p))
  | .logical note isOr lhs rhs =>
    !note.isConst && (lhs.condReads || lhs.canBe (!isOr) && rhs.condReads)
  | .unary note op operand =>
    !note.isConst && match op with
      | .Plus => operand.reads
      | .Neg | .Not => operand.reads || operand.isVar S p
  | .call note _ args _ => !note.isConst && AExpr.argsRead args
/-- The code of the arguments of a call, or the call. -/
def AExpr.argsRead : List AExpr → Bool
  | [] => false
  | e :: es => e.reads || e.isVar S p || AExpr.argsRead es
/-- The code of a condition. -/
def AExpr.condReads : AExpr → Bool
  | .number _ _ => false
  | .var note name sym => (AExpr.var note name sym).isVar S p
  | .binary note _ lhs rhs =>
    !note.isConst && (lhs.reads || lhs.isVar S p || (rhs.reads || rhs.isVar S p))
  | .logical note isOr lhs rhs =>
    !note.isConst && (lhs.condReads || lhs.canBe (!isOr) && rhs.condReads)
  | .unary note op operand =>
    !note.isConst && match op with
      | .Not => operand.condReads
      | .Plus | .Neg => operand.reads || operand.isVar S p
  | .call note _ args _ => !note.isConst && AExpr.argsRead args
end

/-- The code of an expression reads the variable, or its value is used and is the variable. -/
def AExpr.uses (e : AExpr) : Bool := e.reads S p || e.isVar S p

/-! ## Statements -/

/-- **What the paths through some code do before they write the variable**: one of them reads it,
comes to the end, or leaves by a `break` or a `continue`. -/
structure Paths where
  reads : Bool := false
  passes : Bool := false
  breaks : Bool := false
  continues : Bool := false
  deriving DecidableEq, Repr

namespace Paths

/-- The paths through either of two. -/
def or (a b : Paths) : Paths :=
  ⟨a.reads || b.reads, a.passes || b.passes, a.breaks || b.breaks, a.continues || b.continues⟩

/-- The paths through code that is reached only under a condition. -/
def guard (c : Bool) (a : Paths) : Paths :=
  ⟨c && a.reads, c && a.passes, c && a.breaks, c && a.continues⟩

/-- The paths through one thing after the other. -/
def seq (a b : Paths) : Paths := { a with passes := false }.or (b.guard a.passes)

/-- The paths through a loop with a condition: from the entry on, a turn that writes nothing leads
to where it began. -/
def loop (cond : Bool) (canTrue canFalse : Bool) (body : Paths) : Paths where
  reads := cond || canTrue && body.reads
  passes := canFalse || canTrue && body.breaks

end Paths

mutual
/-- **The paths through a statement.** -/
def AStmt.paths : AStmt → Paths
  | .block ss => AStmt.pathsAll ss
  | .empty => { passes := true }
  | .exprStmt e => { reads := e.reads S p, passes := true }
  | .varDecl isConst _ init sym =>
    if isConst then { passes := true } else { reads := init.uses S p, passes := !p sym }
  | .assign _ sym value => { reads := value.uses S p, passes := !(isLocal S sym && p sym) }
  | .ifStmt cond then_ none =>
    if cond.isConst then
      if cond.constValue ≠ 0#32 then then_.paths else { passes := true }
    else
      ({ reads := cond.condReads S p, passes := cond.canBe false } : Paths).or
        (then_.paths.guard (cond.canBe true))
  | .ifStmt cond then_ (some else_) =>
    if cond.isConst then
      if cond.constValue ≠ 0#32 then then_.paths else else_.paths
    else
      ({ reads := cond.condReads S p } : Paths).or
        ((then_.paths.guard (cond.canBe true)).or (else_.paths.guard (cond.canBe false)))
  | .whileStmt cond body =>
    .loop (cond.condReads S p) (cond.canBe true) (cond.canBe false) body.paths
  | .breakStmt => { breaks := true }
  | .continueStmt => { continues := true }
  | .returnStmt (some value) => { reads := value.uses S p }
  | .returnStmt none => {}
/-- The paths through the statements of a block. -/
def AStmt.pathsAll : List AStmt → Paths
  | [] => { passes := true }
  | s :: ss => s.paths.seq (AStmt.pathsAll ss)
end

end Vars

/-! ## Names that are bound -/

section Bound

variable (S : Sema) (B : List SymId)

mutual
/-- **The local variables an expression names are among some**, but for the parts that are folded. -/
def AExpr.bound : AExpr → Bool
  | .number _ _ => true
  | .var note _ sym => note.isConst || !isLocal S sym || sym ∈ B
  | .binary note _ lhs rhs => note.isConst || lhs.bound && rhs.bound
  | .logical note _ lhs rhs => note.isConst || lhs.bound && rhs.bound
  | .unary note _ operand => note.isConst || operand.bound
  | .call note _ args _ => note.isConst || AExpr.boundAll args
/-- So are those that the arguments of a call name. -/
def AExpr.boundAll : List AExpr → Bool
  | [] => true
  | e :: es => e.bound && AExpr.boundAll es
end

end Bound

mutual
/-- **The local variables that have a vreg behind a statement**, if none is asked for before it
has one. The body of a loop is lowered before the condition. -/
def AStmt.bound (S : Sema) : List SymId → AStmt → Option (List SymId)
  | B, .block ss => AStmt.boundAll S B ss
  | B, .empty | B, .breakStmt | B, .continueStmt | B, .returnStmt none => some B
  | B, .exprStmt e => if e.isName || e.bound S B then some B else none
  | B, .returnStmt (some value) => if value.bound S B then some B else none
  | B, .varDecl isConst _ init sym =>
    if isConst then some B
    else if init.bound S (sym :: B) then some (sym :: B) else none
  | B, .assign _ sym value =>
    if value.bound S B && (!isLocal S sym || sym ∈ B) then some B else none
  | B, .ifStmt cond then_ none =>
    if cond.isConst then
      if cond.constValue ≠ 0#32 then then_.bound S B else some B
    else if cond.bound S B then then_.bound S B else none
  | B, .ifStmt cond then_ (some else_) =>
    if cond.isConst then
      if cond.constValue ≠ 0#32 then then_.bound S B else else_.bound S B
    else if cond.bound S B then do
      let B ← then_.bound S B
      else_.bound S B
    else none
  | B, .whileStmt cond body => do
    let B ← body.bound S B
    if cond.bound S B then some B else none
/-- The same for the statements of a block. -/
def AStmt.boundAll (S : Sema) : List SymId → List AStmt → Option (List SymId)
  | B, [] => some B
  | B, s :: ss => do
    let B ← s.bound S B
    AStmt.boundAll S B ss
end

/-! ## Functions -/

/-- The symbols of the parameters, the last one first. -/
def AFuncDef.paramSyms (fn : AFuncDef) : List SymId := (fn.params.map (·.2)).reverse

/-- **A function reads no variable that may have no value**: the generator finds a vreg for each
variable it asks for, and no path from the entry reads a variable, parameters apart, before it
writes it. -/
structure AFuncDef.Initialised (S : Sema) (fn : AFuncDef) : Prop where
  bound : (fn.body.bound S fn.paramSyms).isSome
  paths : ∀ x, x ∉ fn.paramSyms → (fn.body.paths S (· == x)).reads = false

/-- So does a module. -/
def AModule.Initialised (S : Sema) (m : AModule) : Prop :=
  ∀ fn, .func fn ∈ m.items → fn.Initialised S

end ToyC
