import ToyC.Word

/-!
# Tokens

The token kinds of the lexer and the record the parser reads. A token list as
the lexer produces it ends in its only `Eof` token.
-/

namespace ToyC

/-- The kinds of token. -/
inductive Tok where
  | Ident | Number
  | Kw_int | Kw_void | Kw_const
  | Kw_if | Kw_else | Kw_while
  | Kw_break | Kw_continue | Kw_return
  | LParen | RParen | LBrace | RBrace
  | Semi | Comma | Assign
  | Plus | Minus | Star | Slash | Percent
  | Not
  | Lt | Gt | Le | Ge | Eq | Ne
  | AndAnd | OrOr
  | Eof
  deriving DecidableEq, Repr, Inhabited

/-- A token: its kind, its text, the value of a number (an `int64_t` in the
source) and where it starts. -/
structure Token where
  kind : Tok
  text : String := ""
  value : Int := 0
  line : Nat := 0
  col : Nat := 0
  deriving DecidableEq, Repr, Inhabited

/-- The name of a token kind in an error message. -/
def tokName : Tok → String
  | .Ident => "identifier"
  | .Number => "number"
  | .Kw_int => "int"
  | .Kw_void => "void"
  | .Kw_const => "const"
  | .Kw_if => "if"
  | .Kw_else => "else"
  | .Kw_while => "while"
  | .Kw_break => "break"
  | .Kw_continue => "continue"
  | .Kw_return => "return"
  | .LParen => "("
  | .RParen => ")"
  | .LBrace => "\x7b"
  | .RBrace => "\x7d"
  | .Semi => ";"
  | .Comma => ","
  | .Assign => "="
  | .Plus => "+"
  | .Minus => "-"
  | .Star => "*"
  | .Slash => "/"
  | .Percent => "%"
  | .Not => "!"
  | .Lt => "<"
  | .Gt => ">"
  | .Le => "<="
  | .Ge => ">="
  | .Eq => "=="
  | .Ne => "!="
  | .AndAnd => "&&"
  | .OrOr => "||"
  | .Eof => "<eof>"

/-- **Tokens as the lexer ends them**: their only `Eof` is the last one. -/
def Ended (ts : List Token) : Prop :=
  ∃ body eof, ts = body ++ [eof] ∧ eof.kind = .Eof ∧ ∀ t ∈ body, t.kind ≠ .Eof

theorem Ended.ne_nil {ts : List Token} (h : Ended ts) : ts ≠ [] := by
  obtain ⟨body, eof, rfl, -⟩ := h
  simp

/-- What follows a token other than `Eof` ends in the same way. -/
theorem Ended.tail {t : Token} {ts : List Token} (h : Ended (t :: ts)) (ht : t.kind ≠ .Eof) :
    Ended ts := by
  obtain ⟨body, eof, heq, heof, hbody⟩ := h
  cases body with
  | nil =>
    cases heq
    exact absurd heof ht
  | cons b body =>
    cases heq
    exact ⟨body, eof, rfl, heof, fun t ht => hbody t (List.mem_cons_of_mem _ ht)⟩

end ToyC
