import ToyC.Word

/-!
# Abstract syntax

The parser builds these trees, and the semantic analysis annotates them: it
resolves every name to a symbol and every call to a function, and marks the
expressions it folded to a constant. The source keeps one node type for both
stages, with the annotations left at their defaults by the parser. Here the two
stages are two types, the trees of the parser (`Expr`, `Stmt`, `Module`) and the
annotated ones (`AExpr`, `AStmt`, `AModule`), so that a tree that was not analysed
cannot carry an annotation. The nodes and their fields are otherwise the
source's.

Two pointers of the source become indices. A `Symbol*` is the position of the
symbol in the arena of the analysis, and a `FuncDef*` is a `FuncRef`: the position
of the function among the items of the module together with what the compiler
reads through the pointer, which no stage changes.
-/

namespace ToyC

/-- The binary operators, short-circuit ones apart. -/
inductive BinOp where
  | Add | Sub | Mul | Div | Mod | Lt | Gt | Le | Ge | Eq | Ne
  deriving DecidableEq, Repr, Inhabited

/-- The unary operators. -/
inductive UnOp where
  | Plus | Neg | Not
  deriving DecidableEq, Repr, Inhabited

/-! ## Trees of the parser -/

/-- **Expressions.** The short-circuit operators are kept apart from the other
binary ones. -/
inductive Expr where
  | number (line : Nat) (value : Word)
  | var (line : Nat) (name : String)
  | binary (line : Nat) (op : BinOp) (lhs rhs : Expr)
  | logical (line : Nat) (isOr : Bool) (lhs rhs : Expr)
  | unary (line : Nat) (op : UnOp) (operand : Expr)
  | call (line : Nat) (callee : String) (args : List Expr)
  deriving Repr, Inhabited

/-- **Statements.** -/
inductive Stmt where
  | block (line : Nat) (stmts : List Stmt)
  | empty (line : Nat)
  | exprStmt (line : Nat) (expr : Expr)
  | assign (line : Nat) (name : String) (value : Expr)
  | varDecl (line : Nat) (isConst : Bool) (name : String) (init : Expr)
  | ifStmt (line : Nat) (cond : Expr) (then_ : Stmt) (else_ : Option Stmt)
  | whileStmt (line : Nat) (cond : Expr) (body : Stmt)
  | breakStmt (line : Nat)
  | continueStmt (line : Nat)
  | returnStmt (line : Nat) (value : Option Expr)
  deriving Repr, Inhabited

/-- A function definition. Its body is always a block, whose line and items are
kept here. -/
structure FuncDef where
  returnsVoid : Bool := false
  name : String
  params : List String := []
  bodyLine : Nat := 0
  body : List Stmt := []
  line : Nat := 0
  deriving Repr, Inhabited

/-- The body of a function as the statement the later stages walk. -/
def FuncDef.bodyStmt (fn : FuncDef) : Stmt := .block fn.bodyLine fn.body

/-- A global variable or constant. -/
structure GlobalVar where
  isConst : Bool := false
  name : String
  init : Expr
  line : Nat := 0
  deriving Repr, Inhabited

/-- A top-level item. Their source order is kept. -/
inductive TopLevel where
  | global (g : GlobalVar)
  | func (fn : FuncDef)
  deriving Repr, Inhabited

/-- A compilation unit. -/
structure Module where
  items : List TopLevel := []
  deriving Repr, Inhabited

/-! ## Annotated trees -/

/-- The position of a symbol in the arena of the semantic analysis. -/
abbrev SymId := Nat

/-- What a resolved call knows of its target: where the function stands among
the items of the module, and the parts of its header the compiler reads. -/
structure FuncRef where
  index : Nat
  name : String
  returnsVoid : Bool
  arity : Nat
  deriving DecidableEq, Repr, Inhabited

/-- What the analysis says of an expression node: whether it folds to a
constant, and to which. -/
structure Note where
  isConst : Bool := false
  constValue : Word := 0
  deriving DecidableEq, Repr, Inhabited

/-- The note of a folded node. -/
def Note.const (v : Word) : Note := { isConst := true, constValue := v }

/-- **Annotated expressions.** -/
inductive AExpr where
  | number (note : Note) (value : Word)
  | var (note : Note) (name : String) (sym : SymId)
  | binary (note : Note) (op : BinOp) (lhs rhs : AExpr)
  | logical (note : Note) (isOr : Bool) (lhs rhs : AExpr)
  | unary (note : Note) (op : UnOp) (operand : AExpr)
  | call (note : Note) (callee : String) (args : List AExpr) (target : FuncRef)
  deriving Repr, Inhabited

namespace AExpr

/-- The note of a node. -/
def note : AExpr → Note
  | number n _ | var n _ _ | binary n _ _ _ | logical n _ _ _ | unary n _ _
  | call n _ _ _ => n

/-- Whether the analysis folded the node. -/
def isConst (e : AExpr) : Bool := e.note.isConst

/-- The constant the node folds to, meaningful when `isConst`. -/
def constValue (e : AExpr) : Word := e.note.constValue

end AExpr

/-- **Annotated statements.** -/
inductive AStmt where
  | block (stmts : List AStmt)
  | empty
  | exprStmt (expr : AExpr)
  | assign (name : String) (sym : SymId) (value : AExpr)
  | varDecl (isConst : Bool) (name : String) (init : AExpr) (sym : SymId)
  | ifStmt (cond : AExpr) (then_ : AStmt) (else_ : Option AStmt)
  | whileStmt (cond : AExpr) (body : AStmt)
  | breakStmt
  | continueStmt
  | returnStmt (value : Option AExpr)
  deriving Repr, Inhabited

/-- An annotated function: its parameters carry their symbols. -/
structure AFuncDef where
  returnsVoid : Bool
  name : String
  params : List (String × SymId)
  body : AStmt
  deriving Repr, Inhabited

/-- An annotated global: its symbol, and the value of its initialiser. -/
structure AGlobalVar where
  isConst : Bool
  name : String
  init : AExpr
  sym : SymId
  initValue : Word
  deriving Repr, Inhabited

/-- An annotated top-level item. -/
inductive ATopLevel where
  | global (g : AGlobalVar)
  | func (fn : AFuncDef)
  deriving Repr, Inhabited

/-- An annotated compilation unit. -/
structure AModule where
  items : List ATopLevel
  deriving Repr, Inhabited

end ToyC
