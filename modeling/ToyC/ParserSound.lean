import ToyC.Grammar
import ToyC.Parser

/-!
# The parser builds derivations

Everything the parser returns is derivable: a successful parse splits the
tokens into those it read, from which the grammar derives the tree, and those
it left. For statements the tree is moreover the one that gives every `else` to
the nearest open `if`, and a statement that ends in an open `if` is never
followed by an `else` – the parser would have taken it.
-/

namespace ToyC

open Chain

namespace Parser

/-! ## The cursor operations -/

@[simp] theorem expect_of_kind {k : Tok} {what : String} {t : Token} {ts : List Token}
    (h : t.kind = k) : expect k what (t :: ts) = .ok (t, ts) := by
  simp [expect, h]

theorem error_ne_ok {α : Type} {msg : String} {ts : List Token} {a : α} :
    error msg ts ≠ .ok a := by
  cases ts <;> simp [error, cur, bind, Except.bind]

theorem expect_eq_ok {k : Tok} {what : String} {ts rest : List Token} {t : Token} :
    expect k what ts = .ok (t, rest) ↔ ts = t :: rest ∧ t.kind = k := by
  cases ts with
  | nil => simp [expect]
  | cons u us =>
    by_cases h : u.kind = k
    · rw [expect_of_kind h]
      constructor
      · rintro h'
        cases h'
        exact ⟨rfl, h⟩
      · rintro ⟨h', -⟩
        cases h'
        rfl
    · simp only [expect, if_neg h]
      refine ⟨fun h' => absurd h' error_ne_ok, ?_⟩
      rintro ⟨h', hk⟩
      cases h'
      exact absurd hk h

@[simp] theorem accept_of_kind {k : Tok} {t : Token} {ts : List Token}
    (h : t.kind = k) : accept k (t :: ts) = .ok (true, ts) := by
  simp [accept, h]

@[simp] theorem accept_of_ne {k : Tok} {t : Token} {ts : List Token}
    (h : t.kind ≠ k) : accept k (t :: ts) = .ok (false, t :: ts) := by
  simp [accept, h]

theorem accept_eq_true {k : Tok} {ts rest : List Token} :
    accept k ts = .ok (true, rest) ↔ ∃ t, t.kind = k ∧ ts = t :: rest := by
  cases ts with
  | nil => simp [accept]
  | cons u us =>
    by_cases h : u.kind = k
    · simp [accept, h]
    · simp only [accept, if_neg h, Except.ok.injEq, Prod.mk.injEq, Bool.false_eq_true,
        false_and, List.cons.injEq, false_iff, not_exists, not_and]
      rintro x hx rfl
      exact absurd hx h

theorem accept_eq_false {k : Tok} {ts rest : List Token} :
    accept k ts = .ok (false, rest) ↔
      rest = ts ∧ ∃ t us, ts = t :: us ∧ t.kind ≠ k := by
  cases ts with
  | nil => simp [accept]
  | cons u us =>
    by_cases h : u.kind = k
    · simp [accept, h]
    · simpa [accept, h] using eq_comm

@[simp] theorem cur_cons {t : Token} {ts : List Token} : cur (t :: ts) = .ok t := rfl

theorem cur_eq_ok {t : Token} {ts : List Token} :
    cur ts = .ok t ↔ ∃ us, ts = t :: us := by
  cases ts with
  | nil => simp [cur]
  | cons u us => simp [cur, eq_comm]

/-! ## The operators of the layers are those of the grammar -/

/-- The operators of a level, as the loop of its layer reads them. -/
def opAt (p : Prec) (t : Token) : Option (Expr → Expr → Expr) :=
  (p.operator t.kind).map fun mk => mk t.line

theorem lorOp_eq : lorOp = opAt .lOr := by
  funext t
  unfold lorOp opAt
  cases t.kind <;> rfl

theorem landOp_eq : landOp = opAt .lAnd := by
  funext t
  unfold landOp opAt
  cases t.kind <;> rfl

theorem eqOp_eq : eqOp = opAt .eq := by
  funext t
  unfold eqOp opAt
  cases t.kind <;> rfl

theorem relOp_eq : relOp = opAt .rel := by
  funext t
  unfold relOp opAt
  cases t.kind <;> rfl

theorem addOp_eq : addOp = opAt .add := by
  funext t
  unfold addOp opAt
  cases t.kind <;> rfl

theorem mulOp_eq : mulOp = opAt .mul := by
  funext t
  unfold mulOp opAt
  cases t.kind <;> rfl

theorem unaryOp_eq (t : Token) : unaryOp t = Prec.sign t.kind := by
  unfold unaryOp Prec.sign
  cases t.kind <;> rfl

/-- The parser of a level. -/
def parseAt (expr : P Expr) : Prec → P Expr
  | .lOr => parseLOr expr
  | .lAnd => parseLAnd expr
  | .eq => parseEq expr
  | .rel => parseRel expr
  | .add => parseAdd expr
  | .mul => parseMul expr
  | .unary => parseUnary expr
  | .primary => parsePrimary expr

/-- **Every binary level is the same loop**, over the level below it and with
its own operators. -/
theorem parseAt_eq_chain (expr : P Expr) {p q : Prec} (hq : p.next = some q)
    (hp : p ≠ .unary) : parseAt expr p = chain .fault (parseAt expr q) (opAt p) := by
  cases p <;> cases hq
  · exact congrArg (chain .fault (parseLAnd expr)) lorOp_eq
  · exact congrArg (chain .fault (parseEq expr)) landOp_eq
  · exact congrArg (chain .fault (parseRel expr)) eqOp_eq
  · exact congrArg (chain .fault (parseAdd expr)) relOp_eq
  · exact congrArg (chain .fault (parseMul expr)) addOp_eq
  · exact congrArg (chain .fault (parseUnary expr)) mulOp_eq
  · exact absurd rfl hp

/-! ## Expressions -/

section Expressions

variable {expr : P Expr} (hexpr : Sound expr (DerivesExpr .lOr))

include hexpr

theorem parseArgs_sound (n : Nat) : Sound (parseArgs expr n) DerivesArgs := by
  induction n with
  | zero => intro ts a rest h; cases h
  | succ n ih =>
    intro ts es rest h
    simp only [parseArgs, bind_eq_ok, Prod.exists] at h
    obtain ⟨e, ts₁, he, more, ts₂, hacc, h⟩ := h
    obtain ⟨used, rfl, hde⟩ := hexpr he
    cases more with
    | true =>
      obtain ⟨comma, hk, rfl⟩ := accept_eq_true.mp hacc
      simp only [if_true, bind_eq_ok, Prod.exists] at h
      obtain ⟨es', ts₃, hes, h⟩ := h
      cases h
      obtain ⟨used', rfl, hdes⟩ := ih hes
      exact ⟨used ++ comma :: used', by simp, .more hk hde hdes⟩
    | false =>
      obtain ⟨rfl, -⟩ := accept_eq_false.mp hacc
      cases h
      exact ⟨used, rfl, .one hde⟩

theorem parseCallArgs_sound {ts rest : List Token} {args : List Expr}
    (h : parseCallArgs expr ts = .ok (args, rest)) :
    (args = [] ∧ rest = ts) ∨ ∃ used, ts = used ++ rest ∧ DerivesArgs used args := by
  simp only [parseCallArgs, bind_eq_ok] at h
  obtain ⟨next, -, h⟩ := h
  split at h
  · cases h
    exact .inl ⟨rfl, rfl⟩
  · exact .inr (parseArgs_sound hexpr _ h)

theorem parsePrimary_sound : Sound (parsePrimary expr) (DerivesExpr .primary) := by
  intro ts e rest h
  cases ts with
  | nil => cases h
  | cons t ts =>
    simp only [parsePrimary] at h
    split at h
    next hk =>
      cases h
      exact ⟨[t], rfl, .number hk⟩
    next hk =>
      simp only [bind_eq_ok, Prod.exists] at h
      obtain ⟨e', ts₁, he, r, ts₂, hr, h⟩ := h
      cases h
      obtain ⟨used, rfl, hde⟩ := hexpr he
      obtain ⟨rfl, hrk⟩ := expect_eq_ok.mp hr
      exact ⟨t :: (used ++ [r]), by simp, .paren hk hrk hde⟩
    next hk =>
      simp only [bind_eq_ok, Prod.exists] at h
      obtain ⟨isCall, ts₁, hacc, h⟩ := h
      cases isCall with
      | false =>
        obtain ⟨rfl, -⟩ := accept_eq_false.mp hacc
        cases h
        exact ⟨[t], rfl, .var hk⟩
      | true =>
        obtain ⟨l, hl, rfl⟩ := accept_eq_true.mp hacc
        simp only [if_true, bind_eq_ok, Prod.exists] at h
        obtain ⟨args, ts₂, hargs, r, ts₃, hr, h⟩ := h
        cases h
        obtain ⟨rfl, hrk⟩ := expect_eq_ok.mp hr
        rcases parseCallArgs_sound hexpr hargs with ⟨rfl, rfl⟩ | ⟨used, rfl, hda⟩
        · exact ⟨[t, l, r], rfl, .callNone hk hl hrk⟩
        · exact ⟨t :: l :: (used ++ [r]), by simp, .call hk hl hrk hda⟩
    next => exact absurd h error_ne_ok

theorem parseUnaryN_sound (n : Nat) : Sound (parseUnaryN expr n) (DerivesExpr .unary) := by
  induction n with
  | zero => intro ts a rest h; cases h
  | succ n ih =>
    intro ts e rest h
    cases ts with
    | nil => cases h
    | cons t ts =>
      cases hop : unaryOp t with
      | none =>
        simp only [parseUnaryN, hop] at h
        obtain ⟨used, hts, hd⟩ := parsePrimary_sound hexpr h
        exact ⟨used, hts, .up rfl hd⟩
      | some op =>
        simp only [parseUnaryN, hop, bind_eq_ok, Prod.exists] at h
        obtain ⟨e', ts₁, he, h⟩ := h
        cases h
        obtain ⟨used, rfl, hd⟩ := ih he
        exact ⟨t :: used, rfl, .signed (unaryOp_eq t ▸ hop) hd⟩

theorem parseAt_sound (p : Prec) : Sound (parseAt expr p) (DerivesExpr p) := by
  have step : ∀ {p q : Prec}, p.next = some q → p ≠ .unary →
      Sound (parseAt expr q) (DerivesExpr q) → Sound (parseAt expr p) (DerivesExpr p) := by
    intro p q hq hp ih
    rw [parseAt_eq_chain expr hq hp]
    refine chain_sound ih (fun hd => .up hq hd) ?_
    intro ts₁ a t mk ts₂ b ha hop hb
    obtain ⟨mk', hmk, rfl⟩ := Option.map_eq_some_iff.mp hop
    exact .binary hq hmk ha hb rfl
  have hunary : Sound (parseAt expr .unary) (DerivesExpr .unary) :=
    fun _ _ _ h => parseUnaryN_sound hexpr _ h
  have hmul := step (p := .mul) rfl nofun hunary
  have hadd := step (p := .add) rfl nofun hmul
  have hrel := step (p := .rel) rfl nofun hadd
  have heq := step (p := .eq) rfl nofun hrel
  have hland := step (p := .lAnd) rfl nofun heq
  have hlor := step (p := .lOr) rfl nofun hland
  cases p with
  | lOr => exact hlor
  | lAnd => exact hland
  | eq => exact heq
  | rel => exact hrel
  | add => exact hadd
  | mul => exact hmul
  | unary => exact hunary
  | primary => exact parsePrimary_sound hexpr

end Expressions

theorem parseExprN_sound (n : Nat) : Sound (parseExprN n) (DerivesExpr .lOr) := by
  induction n with
  | zero => intro ts a rest h; cases h
  | succ n ih => exact parseAt_sound ih .lOr

/-- **A parsed expression is derivable.** -/
theorem parseExpr_sound : Sound parseExpr (DerivesExpr .lOr) :=
  fun _ _ _ h => parseExprN_sound _ h

/-! ## Statements -/

/-- What the parser promises of a statement it read: it is derivable, every
`else` in it is where it belongs, and if it could take an `else` then none
follows. -/
def SoundStmt (stmt : P Stmt) : Prop :=
  ∀ ⦃ts s rest⦄, stmt ts = .ok (s, rest) →
    ∃ used, ts = used ++ rest ∧ DerivesStmt used s ∧ s.NearestElse ∧
      (s.endsOpen = true → ∀ t us, rest = t :: us → t.kind ≠ .Kw_else)

section Statements

variable {stmt : P Stmt} (hstmt : SoundStmt stmt)

include hstmt

theorem parseItems_sound (n : Nat) {ts rest : List Token} {ss : List Stmt}
    (h : parseItems stmt n ts = .ok (ss, rest)) :
    ∃ used, ts = used ++ rest ∧ DerivesStmts used ss ∧ Stmt.NearestElses ss := by
  induction n generalizing ts ss with
  | zero => cases h
  | succ n ih =>
    cases ts with
    | nil => cases h
    | cons t ts =>
      simp only [parseItems] at h
      split at h
      · cases h
        exact ⟨[], rfl, .nil, trivial⟩
      · simp only [bind_eq_ok, Prod.exists] at h
        obtain ⟨s, ts₁, hs, ss', ts₂, hss, h⟩ := h
        cases h
        obtain ⟨used, hts, hd, hn, -⟩ := hstmt hs
        obtain ⟨used', rfl, hds, hns⟩ := ih hss
        exact ⟨used ++ used', by simpa using hts, .cons hd hds, hn, hns⟩

theorem parseBlock_sound {ts rest : List Token} {line : Nat} {ss : List Stmt}
    (h : parseBlock stmt ts = .ok ((line, ss), rest)) :
    ∃ l used r first, ts = l :: (used ++ r :: rest) ∧ l.kind = .LBrace ∧
      r.kind = .RBrace ∧ DerivesStmts used ss ∧ Stmt.NearestElses ss ∧
      (used ++ [r]).head? = some first ∧ line = first.line := by
  simp only [parseBlock, bind_eq_ok, Prod.exists] at h
  obtain ⟨l, ts₁, hl, first, hcur, ss', ts₂, hss, r, ts₃, hr, h⟩ := h
  cases h
  obtain ⟨rfl, hlk⟩ := expect_eq_ok.mp hl
  obtain ⟨used, rfl, hd, hn⟩ := parseItems_sound hstmt _ hss
  obtain ⟨rfl, hrk⟩ := expect_eq_ok.mp hr
  refine ⟨l, used, r, first, rfl, hlk, hrk, hd, hn, ?_, rfl⟩
  obtain ⟨us, hus⟩ := cur_eq_ok.mp hcur
  cases used with
  | nil =>
    cases hus
    rfl
  | cons u used =>
    cases hus
    rfl

omit hstmt in
theorem parseDeclStmt_sound {t : Token} {ts rest : List Token} {s : Stmt}
    (h : parseDeclStmt t.line (t :: ts) = .ok (s, rest)) :
    ∃ used, t :: ts = used ++ rest ∧ DerivesStmt used s ∧ s.NearestElse ∧
      s.endsOpen = false := by
  simp only [parseDeclStmt, bind_eq_ok, Prod.exists] at h
  obtain ⟨isConst, ts₁, hacc, int, ts₂, hint, name, ts₃, hname, eq, ts₄, heq, e, ts₅, he,
    semi, ts₆, hsemi, h⟩ := h
  cases h
  obtain ⟨rfl, hik⟩ := expect_eq_ok.mp hint
  obtain ⟨rfl, hnk⟩ := expect_eq_ok.mp hname
  obtain ⟨rfl, hek⟩ := expect_eq_ok.mp heq
  obtain ⟨used, rfl, hd⟩ := parseExpr_sound he
  obtain ⟨rfl, hsk⟩ := expect_eq_ok.mp hsemi
  cases isConst with
  | true =>
    obtain ⟨c, hck, hts⟩ := accept_eq_true.mp hacc
    cases hts
    exact ⟨t :: int :: name :: eq :: (used ++ [semi]), by simp,
      .constDecl hck hik hnk hek hd hsk, trivial, rfl⟩
  | false =>
    obtain ⟨hts, -⟩ := accept_eq_false.mp hacc
    cases hts
    exact ⟨t :: name :: eq :: (used ++ [semi]), by simp,
      .varDecl hik hnk hek hd hsk, trivial, rfl⟩

theorem parseIf_sound {t : Token} {ts rest : List Token} {s : Stmt}
    (ht : t.kind = .Kw_if) (h : parseIf stmt t.line ts = .ok (s, rest)) :
    ∃ used, t :: ts = used ++ rest ∧ DerivesStmt used s ∧ s.NearestElse ∧
      (s.endsOpen = true → ∀ u us, rest = u :: us → u.kind ≠ .Kw_else) := by
  simp only [parseIf, bind_eq_ok, Prod.exists] at h
  obtain ⟨l, ts₁, hl, c, ts₂, hc, r, ts₃, hr, s₁, ts₄, hs₁, hasElse, ts₅, hacc, h⟩ := h
  obtain ⟨rfl, hlk⟩ := expect_eq_ok.mp hl
  obtain ⟨tc, rfl, hdc⟩ := parseExpr_sound hc
  obtain ⟨rfl, hrk⟩ := expect_eq_ok.mp hr
  obtain ⟨used₁, rfl, hd₁, hn₁, ho₁⟩ := hstmt hs₁
  cases hasElse with
  | true =>
    obtain ⟨els, hek, rfl⟩ := accept_eq_true.mp hacc
    simp only [if_true, bind_eq_ok, Prod.exists] at h
    obtain ⟨s₂, ts₆, hs₂, h⟩ := h
    cases h
    obtain ⟨used₂, rfl, hd₂, hn₂, ho₂⟩ := hstmt hs₂
    -- the branch is closed: an open one would have taken the `else` itself
    have hclosed : s₁.endsOpen = false := by
      by_contra hne
      exact ho₁ (by simpa using hne) _ _ rfl hek
    exact ⟨t :: l :: (tc ++ r :: (used₁ ++ els :: used₂)), by simp,
      .ifElse ht hlk hrk hek hdc hd₁ hd₂, ⟨hclosed, hn₁, hn₂⟩, ho₂⟩
  | false =>
    obtain ⟨rfl, u, us, hts, hne⟩ := accept_eq_false.mp hacc
    cases h
    refine ⟨t :: l :: (tc ++ r :: used₁), by simp, .ifThen ht hlk hrk hdc hd₁, hn₁, ?_⟩
    rintro - u' us' rfl
    cases hts
    exact hne

theorem parseWhile_sound {t : Token} {ts rest : List Token} {s : Stmt}
    (ht : t.kind = .Kw_while) (h : parseWhile stmt t.line ts = .ok (s, rest)) :
    ∃ used, t :: ts = used ++ rest ∧ DerivesStmt used s ∧ s.NearestElse ∧
      (s.endsOpen = true → ∀ u us, rest = u :: us → u.kind ≠ .Kw_else) := by
  simp only [parseWhile, bind_eq_ok, Prod.exists] at h
  obtain ⟨l, ts₁, hl, c, ts₂, hc, r, ts₃, hr, s₁, ts₄, hs₁, h⟩ := h
  cases h
  obtain ⟨rfl, hlk⟩ := expect_eq_ok.mp hl
  obtain ⟨tc, rfl, hdc⟩ := parseExpr_sound hc
  obtain ⟨rfl, hrk⟩ := expect_eq_ok.mp hr
  obtain ⟨used₁, rfl, hd₁, hn₁, ho₁⟩ := hstmt hs₁
  exact ⟨t :: l :: (tc ++ r :: used₁), by simp, .whileStmt ht hlk hrk hdc hd₁, hn₁, ho₁⟩

end Statements

theorem parseReturn_sound {t : Token} {ts rest : List Token} {s : Stmt}
    (ht : t.kind = .Kw_return) (h : parseReturn t.line ts = .ok (s, rest)) :
    ∃ used, t :: ts = used ++ rest ∧ DerivesStmt used s ∧ s.NearestElse ∧
      s.endsOpen = false := by
  simp only [parseReturn, bind_eq_ok] at h
  obtain ⟨next, -, h⟩ := h
  split at h
  · simp only [bind_eq_ok, Prod.exists] at h
    obtain ⟨semi, ts₁, hsemi, h⟩ := h
    cases h
    obtain ⟨rfl, hsk⟩ := expect_eq_ok.mp hsemi
    exact ⟨[t, semi], rfl, .returnNone ht hsk, trivial, rfl⟩
  · simp only [bind_eq_ok, Prod.exists] at h
    obtain ⟨e, ts₁, he, semi, ts₂, hsemi, h⟩ := h
    cases h
    obtain ⟨used, rfl, hd⟩ := parseExpr_sound he
    obtain ⟨rfl, hsk⟩ := expect_eq_ok.mp hsemi
    exact ⟨t :: (used ++ [semi]), by simp, .returnSome ht hd hsk, trivial, rfl⟩

theorem parseExprStmt_sound {t : Token} {ts rest : List Token} {s : Stmt}
    (h : parseExprStmt t.line (t :: ts) = .ok (s, rest)) :
    ∃ used, t :: ts = used ++ rest ∧ DerivesStmt used s ∧ s.NearestElse ∧
      s.endsOpen = false := by
  simp only [parseExprStmt, bind_eq_ok, Prod.exists] at h
  obtain ⟨e, ts₁, he, semi, ts₂, hsemi, h⟩ := h
  cases h
  obtain ⟨used, hts, hd⟩ := parseExpr_sound he
  obtain ⟨rfl, hsk⟩ := expect_eq_ok.mp hsemi
  cases used with
  | nil => exact absurd rfl hd.ne_nil
  | cons u used =>
    cases hts
    exact ⟨t :: (used ++ [semi]), by simp, .exprStmt hd hsk, trivial, rfl⟩

/-- One level of the statement parser keeps the promise. -/
theorem parseStmtStep_sound {stmt : P Stmt} (hstmt : SoundStmt stmt) :
    SoundStmt (parseStmtStep stmt) := by
  -- a statement that cannot end in an open `if` owes nothing about what follows
  have closed : ∀ {ts rest : List Token} {s : Stmt},
      (∃ used, ts = used ++ rest ∧ DerivesStmt used s ∧ s.NearestElse ∧
        s.endsOpen = false) →
      ∃ used, ts = used ++ rest ∧ DerivesStmt used s ∧ s.NearestElse ∧
        (s.endsOpen = true → ∀ t us, rest = t :: us → t.kind ≠ .Kw_else) := by
    rintro ts rest s ⟨used, hts, hd, hn, ho⟩
    exact ⟨used, hts, hd, hn, fun h => by rw [ho] at h; cases h⟩
  intro ts s rest h
  cases ts with
  | nil => cases h
  | cons t ts =>
    simp only [parseStmtStep] at h
    split at h
    next hk =>
      simp only [bind_eq_ok, Prod.exists] at h
      obtain ⟨line, ss, ts₁, hb, h⟩ := h
      cases h
      obtain ⟨l, used, r, first, hts, hl, hr, hd, hn, -⟩ := parseBlock_sound hstmt hb
      cases hts
      exact closed ⟨t :: (used ++ [r]), by simp, .block hl hr hd, hn, rfl⟩
    next hk =>
      cases h
      exact closed ⟨[t], rfl, .empty hk, trivial, rfl⟩
    next => exact closed (parseDeclStmt_sound h)
    next => exact closed (parseDeclStmt_sound h)
    next hk => exact parseIf_sound hstmt hk h
    next hk => exact parseWhile_sound hstmt hk h
    next hk =>
      simp only [bind_eq_ok, Prod.exists] at h
      obtain ⟨semi, ts₁, hsemi, h⟩ := h
      cases h
      obtain ⟨rfl, hsk⟩ := expect_eq_ok.mp hsemi
      exact closed ⟨[t, semi], rfl, .breakStmt hk hsk, trivial, rfl⟩
    next hk =>
      simp only [bind_eq_ok, Prod.exists] at h
      obtain ⟨semi, ts₁, hsemi, h⟩ := h
      cases h
      obtain ⟨rfl, hsk⟩ := expect_eq_ok.mp hsemi
      exact closed ⟨[t, semi], rfl, .continueStmt hk hsk, trivial, rfl⟩
    next hk => exact closed (parseReturn_sound hk h)
    next hk =>
      simp only [bind_eq_ok] at h
      obtain ⟨next, hnext, h⟩ := h
      split at h
      next hassign =>
        cases ts with
        | nil =>
          -- the only token is the identifier itself, which is no `=`
          obtain rfl : t = next := by simpa [peek] using hnext
          rw [hk] at hassign
          cases hassign
        | cons eq ts =>
          cases hnext
          simp only [parseAssign, bind_eq_ok, Prod.exists] at h
          obtain ⟨eq', ts', heq, e, ts₁, he, semi, ts₂, hsemi, h⟩ := h
          cases heq
          cases h
          obtain ⟨used, rfl, hd⟩ := parseExpr_sound he
          obtain ⟨rfl, hsk⟩ := expect_eq_ok.mp hsemi
          exact closed ⟨t :: next :: (used ++ [semi]), by simp, .assign hk hassign hd hsk,
            trivial, rfl⟩
      next => exact closed (parseExprStmt_sound h)
    next => exact closed (parseExprStmt_sound h)

theorem parseStmtN_sound (n : Nat) : SoundStmt (parseStmtN n) := by
  induction n with
  | zero => intro ts s rest h; cases h
  | succ n ih => exact parseStmtStep_sound ih

/-- **A parsed statement is derivable**, with every `else` at the nearest open
`if`. -/
theorem parseStmt_sound : SoundStmt parseStmt :=
  fun _ _ _ h => parseStmtN_sound _ h

/-! ## Top level -/

theorem parseParams_sound (n : Nat) : Sound (parseParams n) DerivesParams := by
  induction n with
  | zero => intro ts a rest h; cases h
  | succ n ih =>
    intro ts ps rest h
    simp only [parseParams, bind_eq_ok, Prod.exists] at h
    obtain ⟨int, ts₁, hint, name, ts₂, hname, more, ts₃, hacc, h⟩ := h
    obtain ⟨rfl, hik⟩ := expect_eq_ok.mp hint
    obtain ⟨rfl, hnk⟩ := expect_eq_ok.mp hname
    cases more with
    | true =>
      obtain ⟨comma, hck, rfl⟩ := accept_eq_true.mp hacc
      simp only [if_true, bind_eq_ok, Prod.exists] at h
      obtain ⟨ps', ts₄, hps, h⟩ := h
      cases h
      obtain ⟨used, rfl, hd⟩ := ih hps
      exact ⟨int :: name :: comma :: used, by simp, .more hik hnk hck hd⟩
    | false =>
      obtain ⟨rfl, -⟩ := accept_eq_false.mp hacc
      cases h
      exact ⟨[int, name], rfl, .one hik hnk⟩

theorem parseFormals_sound : Sound parseFormals DerivesFormals := by
  intro ts ps rest h
  simp only [parseFormals, bind_eq_ok] at h
  obtain ⟨next, -, h⟩ := h
  split at h
  · cases h
    exact ⟨[], rfl, .nil⟩
  · obtain ⟨used, hts, hd⟩ := parseParams_sound _ h
    exact ⟨used, hts, .some hd⟩

theorem parseFuncDef_sound {ty : Token} {ts rest : List Token} {returnsVoid : Bool}
    {fn : FuncDef} (h : parseFuncDef returnsVoid ty.line ts = .ok (fn, rest))
    (hty : ty.kind = (if returnsVoid then .Kw_void else .Kw_int)) :
    ∃ used, ty :: ts = used ++ rest ∧ DerivesItem used (.func fn) ∧
      (TopLevel.func fn).NearestElse := by
  simp only [parseFuncDef, bind_eq_ok, Prod.exists] at h
  obtain ⟨name, ts₁, hname, lp, ts₂, hlp, ps, ts₃, hps, rp, ts₄, hrp, line, ss, ts₅, hb, h⟩ := h
  cases h
  obtain ⟨rfl, hnk⟩ := expect_eq_ok.mp hname
  obtain ⟨rfl, hlk⟩ := expect_eq_ok.mp hlp
  obtain ⟨tp, rfl, hdp⟩ := parseFormals_sound hps
  obtain ⟨rfl, hrk⟩ := expect_eq_ok.mp hrp
  obtain ⟨lb, used, rb, first, rfl, hlb, hrb, hd, hn, hfirst, rfl⟩ :=
    parseBlock_sound parseStmt_sound hb
  exact ⟨ty :: name :: lp :: (tp ++ rp :: lb :: (used ++ [rb])), by simp,
    .funcDef hty hnk hlk hdp hrk hlb hd hrb hfirst, hn⟩

theorem parseGlobalVar_sound {isConst : Bool} {t : Token} {ts rest : List Token}
    {g : GlobalVar} (h : parseGlobalVar isConst t.line (t :: ts) = .ok (g, rest)) :
    ∃ used, t :: ts = used ++ rest ∧ DerivesItem used (.global g) := by
  simp only [parseGlobalVar, bind_eq_ok, Prod.exists] at h
  obtain ⟨int, ts₁, hkw, name, ts₂, hname, eq, ts₃, heq, e, ts₄, he, semi, ts₅, hsemi, h⟩ := h
  cases h
  obtain ⟨rfl, hnk⟩ := expect_eq_ok.mp hname
  obtain ⟨rfl, hek⟩ := expect_eq_ok.mp heq
  obtain ⟨used, rfl, hd⟩ := parseExpr_sound he
  obtain ⟨rfl, hsk⟩ := expect_eq_ok.mp hsemi
  cases isConst with
  | true =>
    simp only [expectGlobalKeywords, if_true, bind_eq_ok, Prod.exists] at hkw
    obtain ⟨c, ts₅, hc, hint⟩ := hkw
    obtain ⟨hts, hck⟩ := expect_eq_ok.mp hc
    obtain ⟨rfl, hik⟩ := expect_eq_ok.mp hint
    cases hts
    exact ⟨t :: int :: name :: eq :: (used ++ [semi]), by simp,
      .constDecl hck hik hnk hek hd hsk⟩
  | false =>
    simp only [expectGlobalKeywords, Bool.false_eq_true, if_false] at hkw
    obtain ⟨hts, hik⟩ := expect_eq_ok.mp hkw
    cases hts
    exact ⟨t :: name :: eq :: (used ++ [semi]), by simp, .varDecl hik hnk hek hd hsk⟩

theorem parseTopLevel_sound {ts rest : List Token} {item : TopLevel}
    (h : parseTopLevel ts = .ok (item, rest)) :
    ∃ used, ts = used ++ rest ∧ DerivesItem used item ∧ item.NearestElse := by
  have global : ∀ {isConst : Bool} {t : Token} {ts rest : List Token} {g : GlobalVar},
      parseGlobalVar isConst t.line (t :: ts) = .ok (g, rest) →
      ∃ used, t :: ts = used ++ rest ∧ DerivesItem used (.global g) ∧
        (TopLevel.global g).NearestElse := by
    intro isConst t ts rest g h
    obtain ⟨used, hts, hd⟩ := parseGlobalVar_sound h
    exact ⟨used, hts, hd, trivial⟩
  cases ts with
  | nil => cases h
  | cons t ts =>
    simp only [parseTopLevel] at h
    split at h
    next =>
      simp only [bind_eq_ok, Prod.exists] at h
      obtain ⟨g, ts₁, hg, h⟩ := h
      cases h
      exact global hg
    next hk =>
      simp only [bind_eq_ok, Prod.exists] at h
      obtain ⟨fn, ts₁, hf, h⟩ := h
      cases h
      exact parseFuncDef_sound hf hk
    next hk =>
      simp only [bind_eq_ok] at h
      obtain ⟨first, -, h⟩ := h
      split at h
      · exact absurd h error_ne_ok
      · simp only [bind_eq_ok] at h
        obtain ⟨second, -, h⟩ := h
        split at h
        · simp only [bind_eq_ok, Prod.exists] at h
          obtain ⟨fn, ts₁, hf, h⟩ := h
          cases h
          exact parseFuncDef_sound hf hk
        · simp only [bind_eq_ok, Prod.exists] at h
          obtain ⟨g, ts₁, hg, h⟩ := h
          cases h
          exact global hg
    next => exact absurd h error_ne_ok

/-- **Parsed items are derivable**, and the parser read all tokens before the
first `Eof` that it met between two items. -/
theorem parseTopLevels_sound {n : Nat} {ts : List Token} {items : List TopLevel}
    (h : parseTopLevels n ts = .ok items) :
    ∃ used eof rest, ts = used ++ eof :: rest ∧ eof.kind = .Eof ∧
      DerivesItems used items ∧ ∀ item ∈ items, item.NearestElse := by
  induction n generalizing ts items with
  | zero => cases h
  | succ n ih =>
    cases ts with
    | nil => cases h
    | cons t ts =>
      simp only [parseTopLevels] at h
      split at h
      next hk =>
        cases h
        exact ⟨[], t, ts, rfl, hk, .nil, by simp⟩
      next =>
        simp only [bind_eq_ok, Prod.exists] at h
        obtain ⟨item, ts₁, hitem, items', hitems, h⟩ := h
        cases h
        obtain ⟨used, hts, hd, hn⟩ := parseTopLevel_sound hitem
        obtain ⟨used', eof, rest, rfl, hk, hds, hns⟩ := ih hitems
        exact ⟨used ++ used', eof, rest, by simpa using hts, hk, .cons hd hds,
          by simpa using ⟨hn, hns⟩⟩

end Parser

end ToyC
