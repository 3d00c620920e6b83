import ToyC.AST
import ToyC.Token
import ToyC.Lib.Chain

/-!
# The recursive-descent parser

The parser of the source keeps the token vector and a cursor; here the cursor
is the list of tokens from it on, so `toks_[pos_]` is the head of the list and
advancing drops it. Reading past the vector is the outcome `fault`, kept apart
from a syntax error, and so is running out of the recursion bound: neither is
ever the answer on a token list that ends in `Eof`.

The binary layers are one loop with different operators and operands, and
each is written under its name in the source as an instance of `Chain.chain`.
The two recursions that pass through a parenthesis or a nested statement are
bounded by the number of tokens left, each level of nesting consuming one.
-/

namespace ToyC

open Chain

/-- How a parse fails: with a message, or by reading outside the token
vector (or past the recursion bound). -/
inductive ParseError where
  | syntaxError (msg : String)
  | fault
  deriving DecidableEq, Repr

/-- The parsers of this module. -/
abbrev P (α : Type) := Parse Token ParseError α

namespace Parser

/-! ## The cursor -/

/-- The token under the cursor. -/
def cur : List Token → Except ParseError Token
  | [] => .error .fault
  | t :: _ => .ok t

/-- The token `off` places ahead, or the last one when there are fewer. -/
def peek (off : Nat) (ts : List Token) : Except ParseError Token :=
  match ts[off]?, ts.getLast? with
  | some t, _ => .ok t
  | none, some t => .ok t
  | none, none => .error .fault

/-- A syntax error at the token under the cursor. -/
def error {α : Type} (msg : String) (ts : List Token) : Except ParseError α := do
  let t ← cur ts
  .error (.syntaxError ("syntax error at " ++ toString t.line ++ ":"
    ++ toString t.col ++ ": " ++ msg))

/-- Consume a token of the kind, or fail naming what was expected. -/
def expect (k : Tok) (what : String) : P Token
  | [] => .error .fault
  | t :: ts =>
    if t.kind = k then .ok (t, ts)
    else error ("expected " ++ what ++ " but found '" ++ tokName t.kind ++ "'") (t :: ts)

/-- Consume a token of the kind if it is there. -/
def accept (k : Tok) : P Bool
  | [] => .error .fault
  | t :: ts => if t.kind = k then .ok (true, ts) else .ok (false, t :: ts)

/-- Consume the token under the cursor, whatever it is. -/
def advance : P Token
  | [] => .error .fault
  | t :: ts => .ok (t, ts)

/-! ## Expressions

`expr` is the parser for an expression nested in parentheses or in an argument
list. -/

/-- The operator a token is at the layer of `||`. -/
def lorOp (t : Token) : Option (Expr → Expr → Expr) :=
  if t.kind = .OrOr then some (.logical t.line true) else none

/-- The operator a token is at the layer of `&&`. -/
def landOp (t : Token) : Option (Expr → Expr → Expr) :=
  if t.kind = .AndAnd then some (.logical t.line false) else none

/-- The operator a token is at the layer of `==` and `!=`. -/
def eqOp (t : Token) : Option (Expr → Expr → Expr) :=
  match t.kind with
  | .Eq => some (.binary t.line .Eq)
  | .Ne => some (.binary t.line .Ne)
  | _ => none

/-- The operator a token is at the layer of the other comparisons. -/
def relOp (t : Token) : Option (Expr → Expr → Expr) :=
  match t.kind with
  | .Lt => some (.binary t.line .Lt)
  | .Gt => some (.binary t.line .Gt)
  | .Le => some (.binary t.line .Le)
  | .Ge => some (.binary t.line .Ge)
  | _ => none

/-- The operator a token is at the layer of `+` and `-`. -/
def addOp (t : Token) : Option (Expr → Expr → Expr) :=
  match t.kind with
  | .Plus => some (.binary t.line .Add)
  | .Minus => some (.binary t.line .Sub)
  | _ => none

/-- The operator a token is at the layer of `*`, `/` and `%`. -/
def mulOp (t : Token) : Option (Expr → Expr → Expr) :=
  match t.kind with
  | .Star => some (.binary t.line .Mul)
  | .Slash => some (.binary t.line .Div)
  | .Percent => some (.binary t.line .Mod)
  | _ => none

/-- The prefix operator a token is. -/
def unaryOp (t : Token) : Option UnOp :=
  match t.kind with
  | .Plus => some .Plus
  | .Minus => some .Neg
  | .Not => some .Not
  | _ => none

/-- The arguments of a call, up to the last one: an expression, then one more
after every comma. -/
def parseArgs (expr : P Expr) : Nat → P (List Expr)
  | 0, _ => .error .fault
  | n + 1, ts => do
    let (e, ts) ← expr ts
    let (more, ts) ← accept .Comma ts
    if more then
      let (es, ts) ← parseArgs expr n ts
      .ok (e :: es, ts)
    else .ok ([e], ts)

/-- The arguments of a call, up to the closing parenthesis. -/
def parseCallArgs (expr : P Expr) : P (List Expr) := fun ts => do
  let next ← cur ts
  if next.kind = .RParen then .ok ([], ts) else parseArgs expr ts.length ts

/-- A number, a parenthesised expression, a call or a variable. -/
def parsePrimary (expr : P Expr) : P Expr
  | [] => .error .fault
  | t :: ts =>
    match t.kind with
    | .Number =>
      let v : Word := BitVec.ofInt 32 t.value
      .ok (.number t.line v, ts)
    | .LParen => do
      let (e, ts) ← expr ts
      let (_, ts) ← expect .RParen "')'" ts
      .ok (e, ts)
    | .Ident => do
      let (isCall, ts) ← accept .LParen ts
      if isCall then
        let (args, ts) ← parseCallArgs expr ts
        let (_, ts) ← expect .RParen "')'" ts
        .ok (.call t.line t.text args, ts)
      else .ok (.var t.line t.text, ts)
    | _ =>
      error ("expected an expression but found '" ++ tokName t.kind ++ "'") (t :: ts)

/-- The prefix operators, outermost first, then a primary expression. The bound
is on their number. -/
def parseUnaryN (expr : P Expr) : Nat → P Expr
  | 0, _ => .error .fault
  | _ + 1, [] => .error .fault
  | n + 1, t :: ts =>
    match unaryOp t with
    | some op => do
      let (operand, ts) ← parseUnaryN expr n ts
      .ok (.unary t.line op operand, ts)
    | none => parsePrimary expr (t :: ts)

/-- A unary expression. -/
def parseUnary (expr : P Expr) : P Expr := fun ts => parseUnaryN expr ts.length ts

/-- `*`, `/` and `%`. -/
def parseMul (expr : P Expr) : P Expr := chain .fault (parseUnary expr) mulOp

/-- `+` and `-`. -/
def parseAdd (expr : P Expr) : P Expr := chain .fault (parseMul expr) addOp

/-- The comparisons other than equality. -/
def parseRel (expr : P Expr) : P Expr := chain .fault (parseAdd expr) relOp

/-- `==` and `!=`, looser than the other comparisons as in C. -/
def parseEq (expr : P Expr) : P Expr := chain .fault (parseRel expr) eqOp

/-- `&&`. -/
def parseLAnd (expr : P Expr) : P Expr := chain .fault (parseEq expr) landOp

/-- `||`. -/
def parseLOr (expr : P Expr) : P Expr := chain .fault (parseLAnd expr) lorOp

/-- An expression, nested at most `n` deep. -/
def parseExprN : Nat → P Expr
  | 0 => fun _ => .error .fault
  | n + 1 => parseLOr (parseExprN n)

/-- **An expression.** Every level of nesting consumes a parenthesis, so the
tokens left bound it. -/
def parseExpr : P Expr := fun ts => parseExprN (ts.length + 1) ts

/-! ## Statements

`stmt` is the parser for a nested statement. -/

/-- The statements of a block, up to the closing brace. -/
def parseItems (stmt : P Stmt) : Nat → P (List Stmt)
  | 0, _ => .error .fault
  | _ + 1, [] => .error .fault
  | n + 1, t :: ts =>
    if t.kind = .RBrace ∨ t.kind = .Eof then .ok ([], t :: ts)
    else do
      let (s, ts) ← stmt (t :: ts)
      let (ss, ts) ← parseItems stmt n ts
      .ok (s :: ss, ts)

/-- A block, returned with the line of the token after its brace. -/
def parseBlock (stmt : P Stmt) : P (Nat × List Stmt) := fun ts => do
  let (_, ts) ← expect .LBrace "'\x7b'" ts
  let first ← cur ts
  let (ss, ts) ← parseItems stmt ts.length ts
  let (_, ts) ← expect .RBrace "'\x7d'" ts
  .ok ((first.line, ss), ts)

/-- A local declaration, on the line given. -/
def parseDeclStmt (line : Nat) : P Stmt := fun ts => do
  let (isConst, ts) ← accept .Kw_const ts
  let (_, ts) ← expect .Kw_int "'int'" ts
  let (name, ts) ← expect .Ident "variable name" ts
  let (_, ts) ← expect .Assign "'=' (declarations must be initialized)" ts
  let (init, ts) ← parseExpr ts
  let (_, ts) ← expect .Semi "';'" ts
  .ok (.varDecl line isConst name.text init, ts)

/-- An `if`, the keyword already consumed. The `else` that follows the branch
belongs to it. -/
def parseIf (stmt : P Stmt) (line : Nat) : P Stmt := fun ts => do
  let (_, ts) ← expect .LParen "'('" ts
  let (cond, ts) ← parseExpr ts
  let (_, ts) ← expect .RParen "')'" ts
  let (then_, ts) ← stmt ts
  let (hasElse, ts) ← accept .Kw_else ts
  if hasElse then
    let (else_, ts) ← stmt ts
    .ok (.ifStmt line cond then_ (some else_), ts)
  else .ok (.ifStmt line cond then_ none, ts)

/-- A `while`, the keyword already consumed. -/
def parseWhile (stmt : P Stmt) (line : Nat) : P Stmt := fun ts => do
  let (_, ts) ← expect .LParen "'('" ts
  let (cond, ts) ← parseExpr ts
  let (_, ts) ← expect .RParen "')'" ts
  let (body, ts) ← stmt ts
  .ok (.whileStmt line cond body, ts)

/-- A `return`, the keyword already consumed. -/
def parseReturn (line : Nat) : P Stmt := fun ts => do
  let next ← cur ts
  if next.kind = .Semi then
    let (_, ts) ← expect .Semi "';'" ts
    .ok (.returnStmt line none, ts)
  else
    let (value, ts) ← parseExpr ts
    let (_, ts) ← expect .Semi "';'" ts
    .ok (.returnStmt line (some value), ts)

/-- An assignment, whose two first tokens the caller has seen, the second of
them already consumed. -/
def parseAssign (line : Nat) (name : String) : P Stmt := fun ts => do
  let (value, ts) ← parseExpr ts
  let (_, ts) ← expect .Semi "';'" ts
  .ok (.assign line name value, ts)

/-- An expression statement. -/
def parseExprStmt (line : Nat) : P Stmt := fun ts => do
  let (e, ts) ← parseExpr ts
  let (_, ts) ← expect .Semi "';'" ts
  .ok (.exprStmt line e, ts)

/-- **A statement**, dispatched on its first token, and for an identifier on
the second: an identifier followed by `=` starts an assignment. -/
def parseStmtStep (stmt : P Stmt) : P Stmt
  | [] => .error .fault
  | t :: ts =>
    match t.kind with
    | .LBrace => do
      let ((_, ss), ts) ← parseBlock stmt (t :: ts)
      .ok (.block t.line ss, ts)
    | .Semi => .ok (.empty t.line, ts)
    | .Kw_const | .Kw_int => parseDeclStmt t.line (t :: ts)
    | .Kw_if => parseIf stmt t.line ts
    | .Kw_while => parseWhile stmt t.line ts
    | .Kw_break => do
      let (_, ts) ← expect .Semi "';'" ts
      .ok (.breakStmt t.line, ts)
    | .Kw_continue => do
      let (_, ts) ← expect .Semi "';'" ts
      .ok (.continueStmt t.line, ts)
    | .Kw_return => parseReturn t.line ts
    | .Ident => do
      let next ← peek 1 (t :: ts)
      if next.kind = .Assign then
        let (_, ts) ← advance ts
        parseAssign t.line t.text ts
      else parseExprStmt t.line (t :: ts)
    | _ => parseExprStmt t.line (t :: ts)

/-- A statement nested at most `n` deep. -/
def parseStmtN : Nat → P Stmt
  | 0 => fun _ => .error .fault
  | n + 1 => parseStmtStep (parseStmtN n)

/-- **A statement.** Every level of nesting consumes a token. -/
def parseStmt : P Stmt := fun ts => parseStmtN ts.length ts

/-! ## Top level -/

/-- The formal parameters, up to the last one. -/
def parseParams : Nat → P (List String)
  | 0, _ => .error .fault
  | n + 1, ts => do
    let (_, ts) ← expect .Kw_int "'int' parameter type" ts
    let (name, ts) ← expect .Ident "parameter name" ts
    let (more, ts) ← accept .Comma ts
    if more then
      let (ps, ts) ← parseParams n ts
      .ok (name.text :: ps, ts)
    else .ok ([name.text], ts)

/-- The formal parameters, up to the closing parenthesis. -/
def parseFormals : P (List String) := fun ts => do
  let next ← cur ts
  if next.kind = .RParen then .ok ([], ts) else parseParams ts.length ts

/-- A function definition from its name on. -/
def parseFuncDef (returnsVoid : Bool) (line : Nat) : P FuncDef := fun ts => do
  let (name, ts) ← expect .Ident "function name" ts
  let (_, ts) ← expect .LParen "'('" ts
  let (params, ts) ← parseFormals ts
  let (_, ts) ← expect .RParen "')'" ts
  let ((bodyLine, body), ts) ← parseBlock parseStmt ts
  .ok ({ returnsVoid, name := name.text, params, bodyLine, body, line }, ts)

/-- The keywords in front of the name of a global. -/
def expectGlobalKeywords (isConst : Bool) : P Token := fun ts =>
  if isConst then do
    let (_, ts) ← expect .Kw_const "'const'" ts
    expect .Kw_int "'int'" ts
  else expect .Kw_int "'int'" ts

/-- A global declaration from its first keyword on. -/
def parseGlobalVar (isConst : Bool) (line : Nat) : P GlobalVar := fun ts => do
  let (_, ts) ← expectGlobalKeywords isConst ts
  let (name, ts) ← expect .Ident "variable name" ts
  let (_, ts) ← expect .Assign "'=' (declarations must be initialized)" ts
  let (init, ts) ← parseExpr ts
  let (_, ts) ← expect .Semi "';'" ts
  .ok ({ isConst, name := name.text, init, line }, ts)

/-- **A top-level item**: `int ID (` starts a function, `int ID` anything else a
global variable. -/
def parseTopLevel : P TopLevel
  | [] => .error .fault
  | t :: ts =>
    match t.kind with
    | .Kw_const => do
      let (g, ts) ← parseGlobalVar true t.line (t :: ts)
      .ok (.global g, ts)
    | .Kw_void => do
      let (fn, ts) ← parseFuncDef true t.line ts
      .ok (.func fn, ts)
    | .Kw_int => do
      let first ← peek 1 (t :: ts)
      if first.kind ≠ .Ident then error "expected identifier after 'int'" (t :: ts)
      else
        let second ← peek 2 (t :: ts)
        if second.kind = .LParen then
          let (fn, ts) ← parseFuncDef false t.line ts
          .ok (.func fn, ts)
        else
          let (g, ts) ← parseGlobalVar false t.line (t :: ts)
          .ok (.global g, ts)
    | _ => error "expected a global declaration or function definition" (t :: ts)

/-- The items up to `Eof`. -/
def parseTopLevels : Nat → List Token → Except ParseError (List TopLevel)
  | 0, _ => .error .fault
  | _ + 1, [] => .error .fault
  | n + 1, t :: ts =>
    if t.kind = .Eof then .ok []
    else do
      let (item, ts) ← parseTopLevel (t :: ts)
      let items ← parseTopLevels n ts
      .ok (item :: items)

/-- **The parser.** -/
def parseModule (ts : List Token) : Except ParseError Module := do
  let items ← parseTopLevels ts.length ts
  .ok { items }

end Parser

end ToyC
