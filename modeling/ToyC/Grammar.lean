import ToyC.AST
import ToyC.Token

/-!
# The ToyC grammar

The grammar of the language definition, as derivations: a token list is
related to every tree one of its derivations builds. The rules are those of the
document, left recursion included, with one change the implementation
announces: equality is a level of its own, below the other comparisons, as in C.

The grammar is ambiguous in one place only, the dangling `else`. The relation
keeps the ambiguity – both readings of `if (a) if (b) x; else y;` are derivable –
and `Stmt.NearestElse` singles out the trees in which every `else` belongs to
the nearest `if` that is still open. What is derivable does not depend on that
choice (`DerivesStmt.exists_nearest`): an `else` that skipped an open `if` can be
handed to it.
-/

namespace ToyC

/-! ## Expressions -/

/-- The expression nonterminals, from the loosest to the tightest. -/
inductive Prec where
  | lOr | lAnd | eq | rel | add | mul | unary | primary
  deriving DecidableEq, Repr

namespace Prec

/-- The nonterminal of the operands, one level tighter. -/
def next : Prec → Option Prec
  | .lOr => some .lAnd
  | .lAnd => some .eq
  | .eq => some .rel
  | .rel => some .add
  | .add => some .mul
  | .mul => some .unary
  | .unary => some .primary
  | .primary => none

/-- The binary operators of a level, with the node each builds from the line of
its token and its operands. -/
def operator : Prec → Tok → Option (Nat → Expr → Expr → Expr)
  | .lOr, .OrOr => some fun line => .logical line true
  | .lAnd, .AndAnd => some fun line => .logical line false
  | .eq, .Eq => some fun line => .binary line .Eq
  | .eq, .Ne => some fun line => .binary line .Ne
  | .rel, .Lt => some fun line => .binary line .Lt
  | .rel, .Gt => some fun line => .binary line .Gt
  | .rel, .Le => some fun line => .binary line .Le
  | .rel, .Ge => some fun line => .binary line .Ge
  | .add, .Plus => some fun line => .binary line .Add
  | .add, .Minus => some fun line => .binary line .Sub
  | .mul, .Star => some fun line => .binary line .Mul
  | .mul, .Slash => some fun line => .binary line .Div
  | .mul, .Percent => some fun line => .binary line .Mod
  | _, _ => none

/-- The prefix operators. -/
def sign : Tok → Option UnOp
  | .Plus => some .Plus
  | .Minus => some .Neg
  | .Not => some .Not
  | _ => none

end Prec

mutual
/-- **Derivations of expressions**, at every level. -/
inductive DerivesExpr : Prec → List Token → Expr → Prop
  | up {p q : Prec} {ts : List Token} {e : Expr} :
      p.next = some q → DerivesExpr q ts e → DerivesExpr p ts e
  | binary {p q : Prec} {ts₁ ts₂ : List Token} {t : Token} {a b e : Expr}
      {mk : Nat → Expr → Expr → Expr} :
      p.next = some q → p.operator t.kind = some mk →
      DerivesExpr p ts₁ a → DerivesExpr q ts₂ b → e = mk t.line a b →
      DerivesExpr p (ts₁ ++ t :: ts₂) e
  | signed {t : Token} {ts : List Token} {op : UnOp} {e : Expr} :
      Prec.sign t.kind = some op → DerivesExpr .unary ts e →
      DerivesExpr .unary (t :: ts) (.unary t.line op e)
  | number {t : Token} : t.kind = .Number →
      DerivesExpr .primary [t]
        (.number t.line (.ofInt 32 t.value))
  | paren {l r : Token} {ts : List Token} {e : Expr} :
      l.kind = .LParen → r.kind = .RParen → DerivesExpr .lOr ts e →
      DerivesExpr .primary (l :: (ts ++ [r])) e
  | var {t : Token} : t.kind = .Ident →
      DerivesExpr .primary [t] (.var t.line t.text)
  | callNone {t l r : Token} :
      t.kind = .Ident → l.kind = .LParen → r.kind = .RParen →
      DerivesExpr .primary [t, l, r] (.call t.line t.text [])
  | call {t l r : Token} {ts : List Token} {args : List Expr} :
      t.kind = .Ident → l.kind = .LParen → r.kind = .RParen → DerivesArgs ts args →
      DerivesExpr .primary (t :: l :: (ts ++ [r]))
        (.call t.line t.text args)
/-- Derivations of a non-empty argument list. -/
inductive DerivesArgs : List Token → List Expr → Prop
  | one {ts : List Token} {e : Expr} : DerivesExpr .lOr ts e → DerivesArgs ts [e]
  | more {ts₁ ts₂ : List Token} {comma : Token} {e : Expr} {es : List Expr} :
      comma.kind = .Comma → DerivesExpr .lOr ts₁ e → DerivesArgs ts₂ es →
      DerivesArgs (ts₁ ++ comma :: ts₂) (e :: es)
end

/-- The tokens an expression can start with. -/
def Tok.startsExpr : Tok → Bool
  | .Number | .LParen | .Ident | .Plus | .Minus | .Not => true
  | _ => false

/-- An expression starts with one of its starting tokens, and in particular is
not empty. -/
theorem DerivesExpr.head {p : Prec} {ts : List Token} {e : Expr} :
    DerivesExpr p ts e → ∃ t us, ts = t :: us ∧ t.kind.startsExpr = true
  | .up _ h => h.head
  | .binary _ _ h _ _ => by
    obtain ⟨t, us, rfl, ht⟩ := h.head
    exact ⟨t, _, rfl, ht⟩
  | @DerivesExpr.signed t ts _ _ hop _ => by
    refine ⟨t, ts, rfl, ?_⟩
    cases hk : t.kind <;> rw [hk] at hop <;> first | rfl | cases hop
  | .number h => ⟨_, _, rfl, by rw [h]; rfl⟩
  | .paren h _ _ => ⟨_, _, rfl, by rw [h]; rfl⟩
  | .var h => ⟨_, _, rfl, by rw [h]; rfl⟩
  | .callNone h _ _ => ⟨_, _, rfl, by rw [h]; rfl⟩
  | .call h _ _ _ => ⟨_, _, rfl, by rw [h]; rfl⟩

theorem DerivesArgs.head {ts : List Token} {es : List Expr} (h : DerivesArgs ts es) :
    ∃ t us, ts = t :: us ∧ t.kind.startsExpr = true := by
  cases h with
  | one h => exact h.head
  | more _ h _ =>
    obtain ⟨t, us, rfl, ht⟩ := h.head
    exact ⟨t, _, rfl, ht⟩

theorem DerivesExpr.ne_nil {p : Prec} {ts : List Token} {e : Expr}
    (h : DerivesExpr p ts e) : ts ≠ [] := by
  obtain ⟨t, us, rfl, -⟩ := h.head
  exact List.cons_ne_nil t us

mutual
/-- No `=` occurs in an expression. -/
theorem DerivesExpr.no_assign {p : Prec} {ts : List Token} {e : Expr} :
    DerivesExpr p ts e → ∀ t ∈ ts, t.kind ≠ .Assign
  | .up _ h => h.no_assign
  | .binary (p := p) (t := op) _ hop h₁ h₂ _ => by
    have hne : op.kind ≠ .Assign := by
      intro hk
      rw [hk] at hop
      cases p <;> cases hop
    simp only [List.mem_append, List.mem_cons]
    rintro t (ht | rfl | ht)
    · exact h₁.no_assign t ht
    · exact hne
    · exact h₂.no_assign t ht
  | @DerivesExpr.signed op _ _ _ hop h => by
    have hne : op.kind ≠ .Assign := by
      intro hk
      rw [hk] at hop
      cases hop
    simp only [List.mem_cons]
    rintro t (rfl | ht)
    · exact hne
    · exact h.no_assign t ht
  | .number h => by simp [h]
  | .paren hl hr h => by
    have := h.no_assign
    simp only [List.mem_cons, List.mem_append, List.not_mem_nil, or_false]
    rintro t (rfl | ht | rfl)
    · simp [hl]
    · exact this t ht
    · simp [hr]
  | .var h => by simp [h]
  | .callNone h hl hr => by simp [h, hl, hr]
  | .call h hl hr ha => by
    have := ha.no_assign
    simp only [List.mem_cons, List.mem_append, List.not_mem_nil, or_false]
    rintro t (rfl | rfl | ht | rfl)
    · simp [h]
    · simp [hl]
    · exact this t ht
    · simp [hr]
/-- No `=` occurs in an argument list. -/
theorem DerivesArgs.no_assign {ts : List Token} {es : List Expr} :
    DerivesArgs ts es → ∀ t ∈ ts, t.kind ≠ .Assign
  | .one h => h.no_assign
  | .more hc h hs => by
    have h₁ := h.no_assign
    have h₂ := hs.no_assign
    simp only [List.mem_append, List.mem_cons]
    rintro t (ht | rfl | ht)
    · exact h₁ t ht
    · simp [hc]
    · exact h₂ t ht
end

/-! ## Statements -/

mutual
/-- **Derivations of statements.** -/
inductive DerivesStmt : List Token → Stmt → Prop
  | block {l r : Token} {ts : List Token} {ss : List Stmt} :
      l.kind = .LBrace → r.kind = .RBrace → DerivesStmts ts ss →
      DerivesStmt (l :: (ts ++ [r])) (.block l.line ss)
  | empty {t : Token} : t.kind = .Semi → DerivesStmt [t] (.empty t.line)
  | exprStmt {t semi : Token} {ts : List Token} {e : Expr} :
      DerivesExpr .lOr (t :: ts) e → semi.kind = .Semi →
      DerivesStmt (t :: (ts ++ [semi])) (.exprStmt t.line e)
  | assign {t eq semi : Token} {ts : List Token} {e : Expr} :
      t.kind = .Ident → eq.kind = .Assign → DerivesExpr .lOr ts e → semi.kind = .Semi →
      DerivesStmt (t :: eq :: (ts ++ [semi])) (.assign t.line t.text e)
  | varDecl {int name eq semi : Token} {ts : List Token} {e : Expr} :
      int.kind = .Kw_int → name.kind = .Ident → eq.kind = .Assign →
      DerivesExpr .lOr ts e → semi.kind = .Semi →
      DerivesStmt (int :: name :: eq :: (ts ++ [semi]))
        (.varDecl int.line false name.text e)
  | constDecl {const int name eq semi : Token} {ts : List Token} {e : Expr} :
      const.kind = .Kw_const → int.kind = .Kw_int → name.kind = .Ident →
      eq.kind = .Assign → DerivesExpr .lOr ts e → semi.kind = .Semi →
      DerivesStmt (const :: int :: name :: eq :: (ts ++ [semi]))
        (.varDecl const.line true name.text e)
  | ifThen {kw l r : Token} {tc ts : List Token} {c : Expr} {s : Stmt} :
      kw.kind = .Kw_if → l.kind = .LParen → r.kind = .RParen →
      DerivesExpr .lOr tc c → DerivesStmt ts s →
      DerivesStmt (kw :: l :: (tc ++ r :: ts)) (.ifStmt kw.line c s none)
  | ifElse {kw l r els : Token} {tc ts₁ ts₂ : List Token} {c : Expr} {s₁ s₂ : Stmt} :
      kw.kind = .Kw_if → l.kind = .LParen → r.kind = .RParen → els.kind = .Kw_else →
      DerivesExpr .lOr tc c → DerivesStmt ts₁ s₁ → DerivesStmt ts₂ s₂ →
      DerivesStmt (kw :: l :: (tc ++ r :: (ts₁ ++ els :: ts₂)))
        (.ifStmt kw.line c s₁ (some s₂))
  | whileStmt {kw l r : Token} {tc ts : List Token} {c : Expr} {s : Stmt} :
      kw.kind = .Kw_while → l.kind = .LParen → r.kind = .RParen →
      DerivesExpr .lOr tc c → DerivesStmt ts s →
      DerivesStmt (kw :: l :: (tc ++ r :: ts)) (.whileStmt kw.line c s)
  | breakStmt {kw semi : Token} : kw.kind = .Kw_break → semi.kind = .Semi →
      DerivesStmt [kw, semi] (.breakStmt kw.line)
  | continueStmt {kw semi : Token} : kw.kind = .Kw_continue → semi.kind = .Semi →
      DerivesStmt [kw, semi] (.continueStmt kw.line)
  | returnNone {kw semi : Token} : kw.kind = .Kw_return → semi.kind = .Semi →
      DerivesStmt [kw, semi] (.returnStmt kw.line none)
  | returnSome {kw semi : Token} {ts : List Token} {e : Expr} :
      kw.kind = .Kw_return → DerivesExpr .lOr ts e → semi.kind = .Semi →
      DerivesStmt (kw :: (ts ++ [semi])) (.returnStmt kw.line (some e))
/-- Derivations of a sequence of statements. -/
inductive DerivesStmts : List Token → List Stmt → Prop
  | nil : DerivesStmts [] []
  | cons {ts₁ ts₂ : List Token} {s : Stmt} {ss : List Stmt} :
      DerivesStmt ts₁ s → DerivesStmts ts₂ ss → DerivesStmts (ts₁ ++ ts₂) (s :: ss)
end

/-- The tokens a statement can start with. -/
def Tok.startsStmt (k : Tok) : Bool :=
  k.startsExpr || match k with
    | .LBrace | .Semi | .Kw_int | .Kw_const | .Kw_if | .Kw_while | .Kw_break
    | .Kw_continue | .Kw_return => true
    | _ => false

/-- A statement starts with one of its starting tokens, and in particular is not
empty. -/
theorem DerivesStmt.head {ts : List Token} {s : Stmt} (h : DerivesStmt ts s) :
    ∃ t us, ts = t :: us ∧ t.kind.startsStmt = true := by
  cases h with
  | block h => exact ⟨_, _, rfl, by rw [h]; rfl⟩
  | empty h => exact ⟨_, _, rfl, by rw [h]; rfl⟩
  | exprStmt h =>
    obtain ⟨t, us, hts, ht⟩ := h.head
    cases hts
    exact ⟨_, _, rfl, by simp [Tok.startsStmt, ht]⟩
  | assign h => exact ⟨_, _, rfl, by rw [h]; rfl⟩
  | varDecl h => exact ⟨_, _, rfl, by rw [h]; rfl⟩
  | constDecl h => exact ⟨_, _, rfl, by rw [h]; rfl⟩
  | ifThen h => exact ⟨_, _, rfl, by rw [h]; rfl⟩
  | ifElse h => exact ⟨_, _, rfl, by rw [h]; rfl⟩
  | whileStmt h => exact ⟨_, _, rfl, by rw [h]; rfl⟩
  | breakStmt h => exact ⟨_, _, rfl, by rw [h]; rfl⟩
  | continueStmt h => exact ⟨_, _, rfl, by rw [h]; rfl⟩
  | returnNone h => exact ⟨_, _, rfl, by rw [h]; rfl⟩
  | returnSome h => exact ⟨_, _, rfl, by rw [h]; rfl⟩

/-! ## Top level -/

/-- Derivations of a non-empty list of formal parameters. -/
inductive DerivesParams : List Token → List String → Prop
  | one {int name : Token} : int.kind = .Kw_int → name.kind = .Ident →
      DerivesParams [int, name] [name.text]
  | more {int name comma : Token} {ts : List Token} {ps : List String} :
      int.kind = .Kw_int → name.kind = .Ident → comma.kind = .Comma →
      DerivesParams ts ps →
      DerivesParams (int :: name :: comma :: ts) (name.text :: ps)

/-- Derivations of what stands between the parentheses of a function. -/
inductive DerivesFormals : List Token → List String → Prop
  | nil : DerivesFormals [] []
  | some {ts : List Token} {ps : List String} :
      DerivesParams ts ps → DerivesFormals ts ps

/-- **Derivations of a top-level item.** A function body is a block, and its
node takes the line of the token after its opening brace. -/
inductive DerivesItem : List Token → TopLevel → Prop
  | varDecl {int name eq semi : Token} {ts : List Token} {e : Expr} :
      int.kind = .Kw_int → name.kind = .Ident → eq.kind = .Assign →
      DerivesExpr .lOr ts e → semi.kind = .Semi →
      DerivesItem (int :: name :: eq :: (ts ++ [semi]))
        (.global { isConst := false, name := name.text, init := e, line := int.line })
  | constDecl {const int name eq semi : Token} {ts : List Token} {e : Expr} :
      const.kind = .Kw_const → int.kind = .Kw_int → name.kind = .Ident →
      eq.kind = .Assign → DerivesExpr .lOr ts e → semi.kind = .Semi →
      DerivesItem (const :: int :: name :: eq :: (ts ++ [semi]))
        (.global { isConst := true, name := name.text, init := e, line := const.line })
  | funcDef {ty name lp rp lb rb first : Token} {tp ts : List Token}
      {params : List String} {body : List Stmt} {returnsVoid : Bool} :
      ty.kind = (if returnsVoid then .Kw_void else .Kw_int) → name.kind = .Ident →
      lp.kind = .LParen → DerivesFormals tp params → rp.kind = .RParen →
      lb.kind = .LBrace → DerivesStmts ts body → rb.kind = .RBrace →
      (ts ++ [rb]).head? = some first →
      DerivesItem (ty :: name :: lp :: (tp ++ rp :: lb :: (ts ++ [rb])))
        (.func { returnsVoid, name := name.text, params, bodyLine := first.line, body,
                 line := ty.line })

/-- A top-level item is not empty, and does not start with `Eof`. -/
theorem DerivesItem.head {ts : List Token} {item : TopLevel} (h : DerivesItem ts item) :
    ∃ t us, ts = t :: us ∧ t.kind ≠ .Eof := by
  cases h with
  | varDecl h => exact ⟨_, _, rfl, by simp [h]⟩
  | constDecl h => exact ⟨_, _, rfl, by simp [h]⟩
  | funcDef h => exact ⟨_, _, rfl, by rw [h]; split <;> exact nofun⟩

/-- Derivations of a sequence of top-level items. -/
inductive DerivesItems : List Token → List TopLevel → Prop
  | nil : DerivesItems [] []
  | cons {ts₁ ts₂ : List Token} {item : TopLevel} {items : List TopLevel} :
      DerivesItem ts₁ item → DerivesItems ts₂ items →
      DerivesItems (ts₁ ++ ts₂) (item :: items)

/-- **Derivations of a compilation unit.** -/
def DerivesModule (ts : List Token) (m : Module) : Prop := DerivesItems ts m.items

/-! ## The nearest `else` -/

namespace Stmt

/-- Whether the statement ends in an `if` that could still take an `else`. -/
def endsOpen : Stmt → Bool
  | .ifStmt _ _ _ none => true
  | .ifStmt _ _ _ (some e) => e.endsOpen
  | .whileStmt _ _ body => body.endsOpen
  | _ => false

mutual
/-- **Every `else` belongs to the nearest open `if`**: no statement between an
`if` and its `else` ends in an `if` that is still open. -/
def NearestElse : Stmt → Prop
  | .block _ ss => NearestElses ss
  | .ifStmt _ _ t none => t.NearestElse
  | .ifStmt _ _ t (some e) => t.endsOpen = false ∧ t.NearestElse ∧ e.NearestElse
  | .whileStmt _ _ body => body.NearestElse
  | _ => True
/-- The same for every statement of a list. -/
def NearestElses : List Stmt → Prop
  | [] => True
  | s :: ss => s.NearestElse ∧ NearestElses ss
end

end Stmt

/-- The same for the body of a function. -/
def TopLevel.NearestElse : TopLevel → Prop
  | .global _ => True
  | .func fn => Stmt.NearestElses fn.body

/-- The same for every function of a module. -/
def Module.NearestElse (m : Module) : Prop := ∀ item ∈ m.items, item.NearestElse

/-! ## What is derivable does not depend on the dangling `else` -/

/-- **An `else` can be handed to an open `if`.** A derivation that ends in an
open `if`, followed by an `else` and a statement, is a derivation of one
statement. -/
theorem DerivesStmt.attach {ts₂ : List Token} {s₂ : Stmt} {els : Token}
    (hels : els.kind = .Kw_else) (h₂ : DerivesStmt ts₂ s₂) (hn₂ : s₂.NearestElse) :
    ∀ {s₁ : Stmt} {ts₁ : List Token}, DerivesStmt ts₁ s₁ → s₁.endsOpen = true →
      s₁.NearestElse → ∃ s, DerivesStmt (ts₁ ++ els :: ts₂) s ∧ s.NearestElse
  | .ifStmt _ c t none, _, h₁, _, hn₁ => by
    cases h₁ with
    | @ifThen kw _ _ _ _ _ _ hk hl hr hc ht =>
      by_cases ho : t.endsOpen = true
      · obtain ⟨s, hs, hn⟩ := DerivesStmt.attach hels h₂ hn₂ ht ho hn₁
        refine ⟨.ifStmt kw.line c s none, ?_, hn⟩
        simpa using DerivesStmt.ifThen hk hl hr hc hs
      · refine ⟨.ifStmt kw.line c t (some s₂), ?_, by simpa using ho, hn₁, hn₂⟩
        simpa using DerivesStmt.ifElse hk hl hr hels hc ht h₂
  | .ifStmt _ c t (some e), _, h₁, hopen, hn₁ => by
    cases h₁ with
    | @ifElse kw _ _ _ _ _ _ _ _ _ hk hl hr he hc ht hs =>
      obtain ⟨hto, htn, hsn⟩ := hn₁
      obtain ⟨s, hs', hn⟩ := DerivesStmt.attach hels h₂ hn₂ hs hopen hsn
      refine ⟨.ifStmt kw.line c t (some s), ?_, hto, htn, hn⟩
      simpa using DerivesStmt.ifElse hk hl hr he hc ht hs'
  | .whileStmt _ c body, _, h₁, hopen, hn₁ => by
    cases h₁ with
    | @whileStmt kw _ _ _ _ _ _ hk hl hr hc hb =>
      obtain ⟨s, hs, hn⟩ := DerivesStmt.attach hels h₂ hn₂ hb hopen hn₁
      refine ⟨.whileStmt kw.line c s, ?_, hn⟩
      simpa using DerivesStmt.whileStmt hk hl hr hc hs
  | .block .., _, _, hopen, _ | .empty _, _, _, hopen, _ | .exprStmt .., _, _, hopen, _
  | .assign .., _, _, hopen, _ | .varDecl .., _, _, hopen, _ | .breakStmt _, _, _, hopen, _
  | .continueStmt _, _, _, hopen, _ | .returnStmt .., _, _, hopen, _ => by cases hopen

mutual
/-- **Every derivable token list has a derivation in which each `else` belongs
to the nearest open `if`.** -/
theorem DerivesStmt.exists_nearest {ts : List Token} {s : Stmt} :
    DerivesStmt ts s → ∃ s', DerivesStmt ts s' ∧ s'.NearestElse
  | .block hl hr hss => by
    obtain ⟨ss', hss', hn⟩ := hss.exists_nearest
    exact ⟨_, .block hl hr hss', hn⟩
  | .empty h => ⟨_, .empty h, trivial⟩
  | .exprStmt he hs => ⟨_, .exprStmt he hs, trivial⟩
  | .assign h₁ h₂ he hs => ⟨_, .assign h₁ h₂ he hs, trivial⟩
  | .varDecl h₁ h₂ h₃ he hs => ⟨_, .varDecl h₁ h₂ h₃ he hs, trivial⟩
  | .constDecl h₁ h₂ h₃ h₄ he hs => ⟨_, .constDecl h₁ h₂ h₃ h₄ he hs, trivial⟩
  | .ifThen hk hl hr hc ht => by
    obtain ⟨t', ht', hn⟩ := ht.exists_nearest
    exact ⟨_, .ifThen hk hl hr hc ht', hn⟩
  | .ifElse hk hl hr he hc ht hs => by
    obtain ⟨t', ht', htn⟩ := ht.exists_nearest
    obtain ⟨s', hs', hsn⟩ := hs.exists_nearest
    by_cases ho : t'.endsOpen = true
    -- the `else` skips an `if` that is open at the end of the branch
    · obtain ⟨u, hu, hun⟩ := DerivesStmt.attach he hs' hsn ht' ho htn
      exact ⟨_, .ifThen hk hl hr hc hu, hun⟩
    · exact ⟨_, .ifElse hk hl hr he hc ht' hs', by simpa using ho, htn, hsn⟩
  | .whileStmt hk hl hr hc hb => by
    obtain ⟨b', hb', hn⟩ := hb.exists_nearest
    exact ⟨_, .whileStmt hk hl hr hc hb', hn⟩
  | .breakStmt h₁ h₂ => ⟨_, .breakStmt h₁ h₂, trivial⟩
  | .continueStmt h₁ h₂ => ⟨_, .continueStmt h₁ h₂, trivial⟩
  | .returnNone h₁ h₂ => ⟨_, .returnNone h₁ h₂, trivial⟩
  | .returnSome h₁ he h₂ => ⟨_, .returnSome h₁ he h₂, trivial⟩
/-- The same for a sequence of statements. -/
theorem DerivesStmts.exists_nearest {ts : List Token} {ss : List Stmt} :
    DerivesStmts ts ss → ∃ ss', DerivesStmts ts ss' ∧ Stmt.NearestElses ss'
  | .nil => ⟨_, .nil, trivial⟩
  | .cons hs hss => by
    obtain ⟨s', hs', hn⟩ := hs.exists_nearest
    obtain ⟨ss', hss', hns⟩ := hss.exists_nearest
    exact ⟨_, .cons hs' hss', hn, hns⟩
end

/-- The same for a top-level item. -/
theorem DerivesItem.exists_nearest {ts : List Token} {item : TopLevel}
    (h : DerivesItem ts item) : ∃ item', DerivesItem ts item' ∧ item'.NearestElse := by
  cases h with
  | varDecl h₁ h₂ h₃ he hs => exact ⟨_, .varDecl h₁ h₂ h₃ he hs, trivial⟩
  | constDecl h₁ h₂ h₃ h₄ he hs => exact ⟨_, .constDecl h₁ h₂ h₃ h₄ he hs, trivial⟩
  | funcDef h₁ h₂ h₃ hp h₄ h₅ hb h₆ hf =>
    obtain ⟨ss', hss', hn⟩ := hb.exists_nearest
    exact ⟨_, .funcDef h₁ h₂ h₃ hp h₄ h₅ hss' h₆ hf, hn⟩

/-- The same for a compilation unit. -/
theorem DerivesModule.exists_nearest {ts : List Token} {m : Module}
    (h : DerivesModule ts m) : ∃ m', DerivesModule ts m' ∧ m'.NearestElse := by
  suffices hl : ∀ {ts items}, DerivesItems ts items →
      ∃ items', DerivesItems ts items' ∧ ∀ item ∈ items', item.NearestElse by
    obtain ⟨items', hd, hn⟩ := hl h
    exact ⟨{ items := items' }, hd, hn⟩
  intro ts items hi
  induction hi with
  | nil => exact ⟨[], .nil, by simp⟩
  | cons hitem _ ih =>
    obtain ⟨item', hitem', hn⟩ := hitem.exists_nearest
    obtain ⟨items', hitems', hns⟩ := ih
    exact ⟨item' :: items', .cons hitem' hitems', by simpa using ⟨hn, hns⟩⟩

end ToyC
