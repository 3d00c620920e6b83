import ToyC.ParserSound

/-!
# The parser finds every derivation

The converse of `ToyC.ParserSound`: on the tokens of a derivation, followed by a
token that does not continue it, the parser stops exactly in front of that token
with the tree of the derivation. What counts as continuing depends on the level:
an expression of some level is continued by the operators of that level and of
every tighter one, and – a variable being the start of a call – by an opening
parenthesis; a statement is continued by an `else` when it ends in an open `if`.

`parseModule_spec` puts the two halves together: the parser succeeds exactly on
the derivable token lists, and its answer is the one derivable tree in which
each `else` belongs to the nearest open `if`.
-/

namespace ToyC

open Chain

/-! ## What continues an expression -/

/-- How tight a level binds. -/
def Prec.rank : Prec → Nat
  | .lOr => 0
  | .lAnd => 1
  | .eq => 2
  | .rel => 3
  | .add => 4
  | .mul => 5
  | .unary => 6
  | .primary => 7

/-- The token continues no expression of a level of rank at least `n`. -/
def StopsFrom (n : Nat) (t : Token) : Prop :=
  t.kind ≠ .LParen ∧ ∀ q : Prec, n ≤ q.rank → q.operator t.kind = none

theorem StopsFrom.mono {m n : Nat} {t : Token} (h : StopsFrom m t) (hmn : m ≤ n) :
    StopsFrom n t :=
  ⟨h.1, fun q hq => h.2 q (Nat.le_trans hmn hq)⟩

/-- A token that is no operator at all continues no expression. -/
theorem StopsFrom.of_kind {n : Nat} {t : Token} (hl : t.kind ≠ .LParen)
    (h : ∀ q : Prec, q.operator t.kind = none) : StopsFrom n t :=
  ⟨hl, fun q _ => h q⟩

theorem stopsFrom_semi {t : Token} (h : t.kind = .Semi) : StopsFrom 0 t :=
  .of_kind (by simp [h]) (by intro q; rw [h]; cases q <;> rfl)

theorem stopsFrom_rParen {t : Token} (h : t.kind = .RParen) : StopsFrom 0 t :=
  .of_kind (by simp [h]) (by intro q; rw [h]; cases q <;> rfl)

theorem stopsFrom_comma {t : Token} (h : t.kind = .Comma) : StopsFrom 0 t :=
  .of_kind (by simp [h]) (by intro q; rw [h]; cases q <;> rfl)

theorem Prec.rank_next {p q : Prec} (h : p.next = some q) : q.rank = p.rank + 1 := by
  cases p <;> cases h <;> rfl

/-- An operator of a level continues no tighter expression. -/
theorem stopsFrom_operator {p : Prec} {t : Token} {mk : Nat → Expr → Expr → Expr}
    (h : p.operator t.kind = some mk) : StopsFrom (p.rank + 1) t := by
  constructor
  · intro hk
    rw [hk] at h
    cases p <;> cases h
  · intro q hq
    cases hk : t.kind <;> rw [hk] at h <;> cases p <;> cases h <;>
      cases q <;> first | rfl | (simp [Prec.rank] at hq)

namespace Parser

/-! ## Expressions -/

theorem opAt_none {p : Prec} {t : Token} (h : p.operator t.kind = none) :
    opAt p t = none := by
  simp [opAt, h]

theorem parseUnaryN_signed {expr : P Expr} {n : Nat} {t : Token} {ts rest : List Token}
    {op : UnOp} {e : Expr} (hop : Prec.sign t.kind = some op)
    (h : parseUnaryN expr n ts = .ok (e, rest)) :
    parseUnaryN expr (n + 1) (t :: ts)
      = .ok (.unary t.line op e, rest) := by
  simp [parseUnaryN, unaryOp_eq, hop, h]

theorem parseUnaryN_primary {expr : P Expr} {n : Nat} {t : Token} {ts : List Token}
    (hop : Prec.sign t.kind = none) :
    parseUnaryN expr (n + 1) (t :: ts) = parsePrimary expr (t :: ts) := by
  simp [parseUnaryN, unaryOp_eq, hop]

/-- A primary expression does not start with a prefix operator. -/
theorem DerivesExpr.primary_head {ts : List Token} {e : Expr}
    (h : DerivesExpr .primary ts e) :
    ∃ t us, ts = t :: us ∧ Prec.sign t.kind = none := by
  cases h with
  | up hq _ => cases hq
  | binary hq => cases hq
  | number h => exact ⟨_, _, rfl, by rw [h]; rfl⟩
  | paren h => exact ⟨_, _, rfl, by rw [h]; rfl⟩
  | var h => exact ⟨_, _, rfl, by rw [h]; rfl⟩
  | callNone h => exact ⟨_, _, rfl, by rw [h]; rfl⟩
  | call h => exact ⟨_, _, rfl, by rw [h]; rfl⟩

/-- The level of the operands of a level; the primary level has none, and its
loop never asks for one. -/
def operandLevel (p : Prec) : Prec := p.next.getD .primary

/-- The parser of a level, having read `ts` as `e`, stands in the loop of the
level in front of `t`. -/
def InLoop (n : Nat) (p : Prec) (ts : List Token) (e : Expr) (t : Token)
    (rest : List Token) : Prop :=
  parseAt (parseExprN n) p (ts ++ t :: rest)
    = chainLoop .fault (parseAt (parseExprN n) (operandLevel p)) (opAt p)
        (t :: rest).length e (t :: rest)

/-- In front of a token that does not continue the level, the loop is over. -/
theorem InLoop.read {n : Nat} {p : Prec} {ts : List Token} {e : Expr} {t : Token}
    {rest : List Token} (h : InLoop n p ts e t rest) (hstop : StopsFrom p.rank t) :
    parseAt (parseExprN n) p (ts ++ t :: rest) = .ok (e, t :: rest) := by
  rw [h, chainLoop_length_stop (opAt_none (hstop.2 p (Nat.le_refl _)))]

/-- A level without binary operators is read as soon as its parser returns. -/
theorem InLoop.of_read {n : Nat} {p : Prec} {ts : List Token} {e : Expr} {t : Token}
    {rest : List Token} (hp : ∀ k, p.operator k = none)
    (h : parseAt (parseExprN n) p (ts ++ t :: rest) = .ok (e, t :: rest)) :
    InLoop n p ts e t rest := by
  rw [InLoop, h, chainLoop_length_stop (opAt_none (hp _))]

/-- **A nested expression is read**, given that its derivation puts the parser
in the loop of the loosest level: nesting costs one level of the bound. -/
theorem parseExprN_read {ts : List Token} {e : Expr}
    (h : ∀ n, ts.length ≤ n → ∀ t rest, StopsFrom 1 t → InLoop n .lOr ts e t rest)
    {n : Nat} (hn : ts.length + 1 ≤ n) {t : Token} (hstop : StopsFrom 0 t)
    (rest : List Token) : parseExprN n (ts ++ t :: rest) = .ok (e, t :: rest) := by
  obtain ⟨n, rfl⟩ : ∃ m, n = m + 1 := ⟨n - 1, by omega⟩
  exact (h n (Nat.le_of_succ_le_succ hn) t rest (hstop.mono (Nat.zero_le _))).read hstop

mutual
/-- **The loop of a level stands behind a derivation of the level**, in front of
any token that continues nothing tighter. -/
theorem inLoop_of_derives {p : Prec} {ts : List Token} {e : Expr} :
    DerivesExpr p ts e → ∀ n, ts.length ≤ n → ∀ t rest, StopsFrom (p.rank + 1) t →
      InLoop n p ts e t rest
  | .up (p := p) (q := q) hq h, n, hn, t, rest, hstop => by
    have hread : parseAt (parseExprN n) q (ts ++ t :: rest) = .ok (e, t :: rest) := by
      rw [← Prec.rank_next hq] at hstop
      exact (inLoop_of_derives h n hn t rest (hstop.mono (Nat.le_succ _))).read hstop
    by_cases hp : p = .unary
    · subst hp
      cases hq
      refine .of_read (by simp [Prec.operator]) ?_
      obtain ⟨u, us, rfl, hu⟩ := DerivesExpr.primary_head h
      show parseUnaryN _ _ _ = _
      rw [List.cons_append, List.length_cons, parseUnaryN_primary hu]
      exact hread
    · rw [InLoop, parseAt_eq_chain _ hq hp, chain_of_operand hread, operandLevel, hq]
      rfl
  | @DerivesExpr.binary p q ts₁ ts₂ op a b _ mk hq hop h₁ h₂ he, n, hn, t, rest, hstop => by
    rw [List.length_append, List.length_cons] at hn
    have hp : p ≠ .unary := by
      rintro rfl
      cases hop
    have hleft : InLoop n p ts₁ a op (ts₂ ++ t :: rest) :=
      inLoop_of_derives h₁ n (by omega) _ _ (stopsFrom_operator hop)
    have hright : parseAt (parseExprN n) q (ts₂ ++ t :: rest) = .ok (b, t :: rest) := by
      rw [← Prec.rank_next hq] at hstop
      exact (inLoop_of_derives h₂ n (by omega) t rest (hstop.mono (Nat.le_succ _))).read hstop
    subst he
    rw [InLoop, operandLevel, hq, Option.getD_some, parseAt_eq_chain _ hq hp] at hleft ⊢
    have hshrinks := (parseAt_sound (parseExprN_sound n) q).shrinks
    have hopAt : opAt p op = some (mk op.line) := by simp [opAt, hop]
    rw [List.append_assoc, List.cons_append]
    exact chain_of_node hshrinks hleft hopAt hright
  | @DerivesExpr.signed op ts sgn e hop h, n, hn, t, rest, hstop => by
    refine .of_read (by simp [Prec.operator]) ?_
    have hread := (inLoop_of_derives h n (Nat.le_of_succ_le hn) t rest hstop).read
      ⟨hstop.1, fun q hq => by
        cases q <;> first | rfl | simp [Prec.rank] at hq⟩
    show parseUnaryN _ _ _ = _
    rw [List.cons_append, List.length_cons]
    exact parseUnaryN_signed hop hread
  | .number h, n, hn, t, rest, hstop => by
    refine .of_read (by simp [Prec.operator]) ?_
    simp [parseAt, parsePrimary, h]
  | @DerivesExpr.paren l r ts e hl hr h, n, hn, t, rest, hstop => by
    refine .of_read (by simp [Prec.operator]) ?_
    have hlen : ts.length + 1 ≤ n := by
      simp only [List.length_cons, List.length_append, List.length_nil] at hn
      omega
    have hread := parseExprN_read (inLoop_of_derives h) hlen (stopsFrom_rParen hr) (t :: rest)
    simp [parseAt, parsePrimary, hl, hr, hread]
  | .var h, n, hn, t, rest, hstop => by
    refine .of_read (by simp [Prec.operator]) ?_
    simp [parseAt, parsePrimary, h, hstop.1]
  | .callNone h hl hr, n, hn, t, rest, hstop => by
    refine .of_read (by simp [Prec.operator]) ?_
    simp [parseAt, parsePrimary, parseCallArgs, h, hl, hr]
  | @DerivesExpr.call f l r ts args h hl hr ha, n, hn, t, rest, hstop => by
    refine .of_read (by simp [Prec.operator]) ?_
    have hlen : ts.length + 1 ≤ n := by
      simp only [List.length_cons, List.length_append, List.length_nil] at hn
      omega
    have hargs := parseArgs_of_derives ha n hlen (ts ++ r :: t :: rest).length (by simp) r hr
      (t :: rest)
    obtain ⟨u, us, hts, hu⟩ := ha.head
    have hcall : parseCallArgs (parseExprN n) (ts ++ r :: t :: rest)
        = .ok (args, r :: t :: rest) := by
      rw [← hargs]
      have hne : u.kind ≠ .RParen := by
        intro hk
        rw [hk] at hu
        cases hu
      simp [parseCallArgs, hts, hne]
    simp [parseAt, parsePrimary, h, hl, hr, hcall]
/-- **The arguments of a call are read**, up to the closing parenthesis. -/
theorem parseArgs_of_derives {ts : List Token} {args : List Expr} :
    DerivesArgs ts args → ∀ n, ts.length + 1 ≤ n → ∀ k, ts.length ≤ k →
      ∀ t : Token, t.kind = .RParen →
      ∀ rest, parseArgs (parseExprN n) k (ts ++ t :: rest) = .ok (args, t :: rest)
  | .one h, n, hn, k, hk, t, ht, rest => by
    have hpos : 0 < _ := List.length_pos_iff.mpr h.ne_nil
    obtain ⟨k, rfl⟩ : ∃ m, k = m + 1 := ⟨k - 1, by omega⟩
    have hread := parseExprN_read (inLoop_of_derives h) hn (stopsFrom_rParen ht) rest
    simp [parseArgs, hread, ht]
  | @DerivesArgs.more ts₁ ts₂ comma e es hc h hs, n, hn, k, hk, t, ht, rest => by
    rw [List.length_append, List.length_cons] at hn hk
    obtain ⟨k, rfl⟩ : ∃ m, k = m + 1 := ⟨k - 1, by omega⟩
    have hread := parseExprN_read (inLoop_of_derives h) (n := n) (by omega)
      (stopsFrom_comma hc) (ts₂ ++ t :: rest)
    have hmore := parseArgs_of_derives hs n (by omega) k (by omega) t ht rest
    simp [parseArgs, hread, hc, hmore]
end

/-- **A derivable expression is read**, in front of a token that continues no
expression. -/
theorem parseExpr_of_derives {ts : List Token} {e : Expr} (h : DerivesExpr .lOr ts e)
    {t : Token} (hstop : StopsFrom 0 t) (rest : List Token) :
    parseExpr (ts ++ t :: rest) = .ok (e, t :: rest) :=
  parseExprN_read (inLoop_of_derives h)
    (Nat.succ_le_succ (by simp)) hstop rest

/-! ## Statements -/

/-- A statement that starts like an expression is dispatched to an assignment
or an expression statement. -/
theorem parseStmtStep_expr {stmt : P Stmt} {t : Token} {ts : List Token}
    (ht : t.kind.startsExpr = true) (hne : ∀ u us, ts = u :: us → u.kind ≠ .Assign) :
    parseStmtStep stmt (t :: ts) = parseExprStmt t.line (t :: ts) := by
  have hpeek : ∃ u, peek 1 (t :: ts) = .ok u ∧ (t.kind = .Ident → u.kind ≠ .Assign) := by
    cases ts with
    | nil => exact ⟨t, rfl, fun h => by rw [h]; exact nofun⟩
    | cons u us => exact ⟨u, rfl, fun _ => hne u us rfl⟩
  obtain ⟨u, hu, hua⟩ := hpeek
  cases hk : t.kind <;> rw [hk] at ht hua <;> cases ht <;>
    simp only [parseStmtStep, hk]
  simp [hu, hua rfl]

/-- What follows an expression statement's first token is no `=`. -/
theorem no_assign_after {t semi : Token} {ts rest : List Token} {e : Expr}
    (h : DerivesExpr .lOr (t :: ts) e) (hs : semi.kind = .Semi) {u : Token}
    {us : List Token} (heq : ts ++ semi :: rest = u :: us) : u.kind ≠ .Assign := by
  cases ts with
  | nil =>
    cases heq
    simp [hs]
  | cons v vs =>
    cases heq
    exact h.no_assign _ (by simp)

/-- The statement parser reads every derivation of at most `n` tokens, in front
of any token that is not an `else` the statement could take. -/
def ReadsUpTo (n : Nat) (stmt : P Stmt) : Prop :=
  ∀ ⦃ts s⦄, DerivesStmt ts s → s.NearestElse → ts.length ≤ n → ∀ t rest,
    (s.endsOpen = true → t.kind ≠ .Kw_else) → stmt (ts ++ t :: rest) = .ok (s, t :: rest)

/-- **The items of a block are read**, up to its closing brace. -/
theorem parseItems_of_derives {n : Nat} {stmt : P Stmt} (hstmt : ReadsUpTo n stmt)
    {ts : List Token} {ss : List Stmt} (h : DerivesStmts ts ss)
    (hnear : Stmt.NearestElses ss) (hn : ts.length ≤ n) {k : Nat} (hk : ts.length + 1 ≤ k)
    {t : Token} (ht : t.kind = .RBrace) (rest : List Token) :
    parseItems stmt k (ts ++ t :: rest) = .ok (ss, t :: rest) := by
  induction ss generalizing ts k with
  | nil =>
    cases h
    obtain ⟨k, rfl⟩ : ∃ m, k = m + 1 := ⟨k - 1, by omega⟩
    simp [parseItems, ht]
  | cons s ss ih =>
    cases h with | @cons ts₁ ts₂ _ _ h hs =>
    rw [List.length_append] at hn hk
    obtain ⟨k, rfl⟩ : ∃ m, k = m + 1 := ⟨k - 1, by omega⟩
    obtain ⟨u, us, hts₁, hu⟩ := h.head
    -- the token after the first statement starts another one, or closes the block
    obtain ⟨v, vs, hnext, hv⟩ : ∃ v vs, ts₂ ++ t :: rest = v :: vs ∧ v.kind ≠ .Kw_else := by
      cases hs with
      | nil => exact ⟨t, rest, rfl, by simp [ht]⟩
      | cons h' _ =>
        obtain ⟨v, vs, rfl, hv⟩ := h'.head
        exact ⟨v, _, rfl, fun hk => by rw [hk] at hv; cases hv⟩
    have hlen : ts₁.length = us.length + 1 := by simp [hts₁]
    have hfirst := hstmt h hnear.1 (by omega) v vs fun _ => hv
    have hrest := ih (k := k) hs hnear.2 (by omega) (by omega)
    rw [hts₁, List.cons_append] at hfirst
    have hne : ¬ (u.kind = .RBrace ∨ u.kind = .Eof) := by
      rintro (hk | hk) <;> rw [hk] at hu <;> cases hu
    rw [List.append_assoc, hnext, hts₁, List.cons_append, parseItems, if_neg hne, hfirst,
      ok_bind, ← hnext]
    simp [hrest]

/-- A block is read, with the line its node takes as the body of a function. -/
theorem parseBlock_of_derives {n : Nat} {stmt : P Stmt} (hstmt : ReadsUpTo n stmt)
    {ts : List Token} {ss : List Stmt} (h : DerivesStmts ts ss)
    (hnear : Stmt.NearestElses ss) (hn : ts.length ≤ n) {l r first : Token}
    (hl : l.kind = .LBrace) (hr : r.kind = .RBrace)
    (hfirst : (ts ++ [r]).head? = some first) (rest : List Token) :
    parseBlock stmt (l :: (ts ++ r :: rest)) = .ok ((first.line, ss), rest) := by
  have hcur : cur (ts ++ r :: rest) = .ok first := by
    cases ts with
    | nil =>
      cases hfirst
      rfl
    | cons u us =>
      cases hfirst
      rfl
  have hitems := parseItems_of_derives hstmt h hnear hn (k := (ts ++ r :: rest).length)
    (by simp) hr rest
  simp only [parseBlock, expect_of_kind hl, ok_bind, hcur, hitems, expect_of_kind hr]

/-- **One level of the statement parser** reads one token more than the level
below. -/
theorem parseStmtStep_reads {n : Nat} {stmt : P Stmt} (hstmt : ReadsUpTo n stmt) :
    ReadsUpTo (n + 1) (parseStmtStep stmt) := by
  intro ts s h hnear hn t rest hopen
  cases h with
  | @block l r ts ss hl hr hss =>
    simp only [List.length_cons, List.length_append, List.length_nil] at hn
    obtain ⟨first, hfirst⟩ : ∃ u, (ts ++ [r]).head? = some u := by
      cases ts <;> exact ⟨_, rfl⟩
    have hblock := parseBlock_of_derives hstmt hss hnear (by omega) hl hr hfirst (t :: rest)
    rw [List.cons_append, List.append_assoc, List.singleton_append]
    simp [parseStmtStep, hl, hblock]
  | empty h => simp [parseStmtStep, h]
  | exprStmt h hs =>
    obtain ⟨u, us, hts, hu⟩ := h.head
    cases hts
    have hread := parseExpr_of_derives h (stopsFrom_semi hs) (t :: rest)
    rw [List.cons_append] at hread
    rw [List.cons_append, List.append_assoc, List.singleton_append,
      parseStmtStep_expr hu fun _ _ => no_assign_after h hs]
    simp [parseExprStmt, hread, hs]
  | assign h₁ h₂ h hs =>
    have hread := parseExpr_of_derives h (stopsFrom_semi hs) (t :: rest)
    simp [parseStmtStep, parseAssign, peek, advance, h₁, h₂, hread, hs]
  | varDecl h₁ h₂ h₃ h hs =>
    have hread := parseExpr_of_derives h (stopsFrom_semi hs) (t :: rest)
    simp [parseStmtStep, parseDeclStmt, h₁, h₂, h₃, hread, hs]
  | constDecl h₁ h₂ h₃ h₄ h hs =>
    have hread := parseExpr_of_derives h (stopsFrom_semi hs) (t :: rest)
    simp [parseStmtStep, parseDeclStmt, h₁, h₂, h₃, h₄, hread, hs]
  | @ifThen kw l r tc ts c s hk hl hr hc h =>
    simp only [List.length_cons, List.length_append] at hn
    have hcond := parseExpr_of_derives hc (stopsFrom_rParen hr) (ts ++ t :: rest)
    have hthen := hstmt h hnear (by omega) t rest fun _ => hopen rfl
    have hne : t.kind ≠ .Kw_else := hopen rfl
    simp [parseStmtStep, parseIf, hk, hl, hr, hcond, hthen, hne]
  | @ifElse kw l r els tc ts₁ ts₂ c s₁ s₂ hk hl hr he hc h₁ h₂ =>
    simp only [List.length_cons, List.length_append] at hn
    obtain ⟨hclosed, hn₁, hn₂⟩ := hnear
    have hcond := parseExpr_of_derives hc (stopsFrom_rParen hr)
      (ts₁ ++ els :: (ts₂ ++ t :: rest))
    -- the branch is closed, so it leaves the `else` alone
    have hthen := hstmt h₁ hn₁ (by omega) els (ts₂ ++ t :: rest)
      fun ho => by rw [hclosed] at ho; cases ho
    have helse := hstmt h₂ hn₂ (by omega) t rest hopen
    simp [parseStmtStep, parseIf, hk, hl, hr, he, hcond, hthen, helse]
  | @whileStmt kw l r tc ts c s hk hl hr hc h =>
    simp only [List.length_cons, List.length_append] at hn
    have hcond := parseExpr_of_derives hc (stopsFrom_rParen hr) (ts ++ t :: rest)
    have hbody := hstmt h hnear (by omega) t rest hopen
    simp [parseStmtStep, parseWhile, hk, hl, hr, hcond, hbody]
  | breakStmt h₁ h₂ => simp [parseStmtStep, h₁, h₂]
  | continueStmt h₁ h₂ => simp [parseStmtStep, h₁, h₂]
  | returnNone h₁ h₂ => simp [parseStmtStep, parseReturn, h₁, h₂]
  | returnSome h₁ h hs =>
    have hread := parseExpr_of_derives h (stopsFrom_semi hs) (t :: rest)
    obtain ⟨u, us, rfl, hu⟩ := h.head
    have hne : u.kind ≠ .Semi := by
      intro hk
      rw [hk] at hu
      cases hu
    rw [List.cons_append] at hread
    simp [parseStmtStep, parseReturn, h₁, hne, hread, hs]

theorem parseStmtN_reads (n : Nat) : ReadsUpTo n (parseStmtN n) := by
  induction n with
  | zero =>
    intro ts s h _ hn
    obtain ⟨u, us, rfl, -⟩ := h.head
    cases hn
  | succ n ih => exact parseStmtStep_reads ih

/-- **A derivable statement is read**, in front of any token that is not an
`else` it could take. -/
theorem parseStmt_reads (n : Nat) : ReadsUpTo n parseStmt :=
  fun _ _ h hnear _ t rest hopen =>
    parseStmtN_reads _ h hnear (by simp) t rest hopen

/-! ## Top level -/

theorem parseParams_of_derives {ts : List Token} {ps : List String}
    (h : DerivesParams ts ps) {n : Nat} (hn : ts.length ≤ n) {t : Token}
    (ht : t.kind = .RParen) (rest : List Token) :
    parseParams n (ts ++ t :: rest) = .ok (ps, t :: rest) := by
  induction h generalizing n with
  | one hi hid =>
    obtain ⟨n, rfl⟩ : ∃ m, n = m + 1 := ⟨n - 1, by simp at hn; omega⟩
    simp [parseParams, hi, hid, ht]
  | more hi hid hc _ ih =>
    simp only [List.length_cons] at hn
    obtain ⟨n, rfl⟩ : ∃ m, n = m + 1 := ⟨n - 1, by omega⟩
    simp [parseParams, hi, hid, hc, ih (n := n) (by omega)]

theorem parseFormals_of_derives {ts : List Token} {ps : List String}
    (h : DerivesFormals ts ps) {t : Token} (ht : t.kind = .RParen) (rest : List Token) :
    parseFormals (ts ++ t :: rest) = .ok (ps, t :: rest) := by
  cases h with
  | nil => simp [parseFormals, ht]
  | some h =>
    have hread := parseParams_of_derives h (n := (ts ++ t :: rest).length) (by simp) ht rest
    have hhead : ∃ u us, ts = u :: us ∧ u.kind = .Kw_int := by
      cases h with
      | one hi _ => exact ⟨_, _, rfl, hi⟩
      | more hi _ _ _ => exact ⟨_, _, rfl, hi⟩
    obtain ⟨u, us, rfl, hu⟩ := hhead
    simp only [List.cons_append] at hread ⊢
    simp [parseFormals, hu, ← hread]

/-- **A derivable item is read**, whatever follows it. -/
theorem parseTopLevel_of_derives {ts : List Token} {item : TopLevel}
    (h : DerivesItem ts item) (hn : item.NearestElse) (rest : List Token) :
    parseTopLevel (ts ++ rest) = .ok (item, rest) := by
  cases h with
  | varDecl h₁ h₂ h₃ he hs =>
    have hread := parseExpr_of_derives he (stopsFrom_semi hs) rest
    simp [parseTopLevel, parseGlobalVar, expectGlobalKeywords, peek, h₁, h₂, h₃, hread, hs]
  | constDecl h₁ h₂ h₃ h₄ he hs =>
    have hread := parseExpr_of_derives he (stopsFrom_semi hs) rest
    simp [parseTopLevel, parseGlobalVar, expectGlobalKeywords, h₁, h₂, h₃, h₄, hread, hs]
  | @funcDef ty name lp rp lb rb first tp ts params body returnsVoid h₁ h₂ h₃ hp h₄ h₅ hb h₆
      hf =>
    have hformals := parseFormals_of_derives hp h₄ (lb :: (ts ++ rb :: rest))
    have hblock := parseBlock_of_derives (parseStmt_reads _) hb hn (Nat.le_refl _) h₅ h₆ hf rest
    have hdef : parseFuncDef returnsVoid ty.line
        (name :: lp :: (tp ++ rp :: lb :: (ts ++ rb :: rest)))
          = .ok ({ returnsVoid, name := name.text, params, bodyLine := first.line, body,
                   line := ty.line }, rest) := by
      simp [parseFuncDef, h₂, h₃, h₄, hformals, hblock]
    cases returnsVoid with
    | true => simp_all [parseTopLevel]
    | false => simp_all [parseTopLevel, peek]

/-- **Derivable items are read**, up to the first `Eof` between two items. -/
theorem parseTopLevels_of_derives {ts : List Token} {items : List TopLevel}
    (h : DerivesItems ts items) (hn : ∀ item ∈ items, item.NearestElse) {n : Nat}
    (hlen : ts.length + 1 ≤ n) {eof : Token} (heof : eof.kind = .Eof) (rest : List Token) :
    parseTopLevels n (ts ++ eof :: rest) = .ok items := by
  induction h generalizing n with
  | nil =>
    obtain ⟨n, rfl⟩ : ∃ m, n = m + 1 := ⟨n - 1, by omega⟩
    simp [parseTopLevels, heof]
  | @cons ts₁ ts₂ item items h _ ih =>
    rw [List.length_append] at hlen
    obtain ⟨n, rfl⟩ : ∃ m, n = m + 1 := ⟨n - 1, by omega⟩
    obtain ⟨u, us, hts, hu⟩ := h.head
    have hpos : 0 < ts₁.length := by simp [hts]
    have hread := parseTopLevel_of_derives h (hn item (by simp)) (ts₂ ++ eof :: rest)
    have hrest := ih (fun i hi => hn i (by simp [hi])) (n := n) (by omega)
    rw [hts, List.cons_append] at hread
    rw [List.append_assoc, hts, List.cons_append, parseTopLevels, if_neg hu, hread, ok_bind]
    simp [hrest]

/-! ## The specification of the parser -/

/-- **The parser accepts exactly the grammar and builds the C parse.** On the
tokens before the only `Eof`, parsing succeeds iff the grammar derives them; and
its result is the tree of the derivation – operators left-associative at their C
precedence, prefix operators tighter and to the right, `ID = Expr ;` an
assignment, as the rules of `DerivesExpr` and `DerivesStmt` say – in which every
`else` belongs to the nearest open `if`. -/
theorem parseModule_spec {body : List Token} {eof : Token} (heof : eof.kind = .Eof)
    (hbody : ∀ t ∈ body, t.kind ≠ .Eof) :
    ((∃ m, parseModule (body ++ [eof]) = .ok m) ↔ ∃ m, DerivesModule body m) ∧
      ∀ m, parseModule (body ++ [eof]) = .ok m ↔
        DerivesModule body m ∧ m.NearestElse := by
  have hmain : ∀ m, parseModule (body ++ [eof]) = .ok m ↔
      DerivesModule body m ∧ m.NearestElse := by
    intro m
    simp only [parseModule, bind_eq_ok]
    constructor
    · rintro ⟨items, hitems, h⟩
      cases h
      obtain ⟨used, eof', rest, heq, hk, hd, hn⟩ := parseTopLevels_sound hitems
      -- the items end at the only `Eof`
      obtain rfl : body = used := by
        rcases List.append_eq_append_iff.mp heq with ⟨a, rfl, ha⟩ | ⟨c, rfl, hc⟩
        · cases a with
          | nil => exact (List.append_nil _).symm
          | cons x xs => simp at ha
        · cases c with
          | nil => exact List.append_nil _
          | cons x xs =>
            cases hc
            exact absurd hk (hbody _ (by simp))
      exact ⟨hd, hn⟩
    · rintro ⟨hd, hn⟩
      exact ⟨m.items, parseTopLevels_of_derives hd hn (by simp) heof [], rfl⟩
  refine ⟨?_, hmain⟩
  constructor
  · rintro ⟨m, hm⟩
    exact ⟨m, ((hmain m).mp hm).1⟩
  · rintro ⟨m, hm⟩
    obtain ⟨m', hm', hn⟩ := hm.exists_nearest
    exact ⟨m', (hmain m').mpr ⟨hm', hn⟩⟩

/-- The tokens of `int main() \x7b if (a) if (b) ; else ; \x7d`, the shortest
program with a dangling `else`. -/
def danglingElse : List Token :=
  [{ kind := .Kw_int }, { kind := .Ident, text := "main" }, { kind := .LParen },
    { kind := .RParen }, { kind := .LBrace },
    { kind := .Kw_if }, { kind := .LParen }, { kind := .Ident, text := "a" },
    { kind := .RParen },
    { kind := .Kw_if }, { kind := .LParen }, { kind := .Ident, text := "b" },
    { kind := .RParen }, { kind := .Semi }, { kind := .Kw_else }, { kind := .Semi },
    { kind := .RBrace }]

/-- The tree in which the `else` belongs to the inner `if`. -/
def danglingElseModule : Module :=
  { items := [.func { name := "main", body :=
      [.ifStmt 0 (.var 0 "a")
        (.ifStmt 0 (.var 0 "b") (.empty 0) (some (.empty 0))) none] }] }

/-- The parser reads the dangling `else` as C does, and so does the grammar once
each `else` goes to the nearest open `if`. -/
theorem parseModule_danglingElse :
    parseModule (danglingElse ++ [{ kind := .Eof }]) = .ok danglingElseModule ∧
      DerivesModule danglingElse danglingElseModule ∧ danglingElseModule.NearestElse :=
  ⟨rfl, ((@parseModule_spec danglingElse { kind := .Eof } rfl (by decide)).2 _).mp rfl⟩

end Parser

end ToyC
