import ToyC.Lexer
import ToyC.ParserComplete

/-!
# The parser stays within the tokens

The source reads `toks_[pos_]` without comparing the cursor to the size of the vector. Here a
read behind the last token is the outcome `fault`, and so is a recursion or a loop that runs
out of its bound, which is the number of tokens left. On a token list as the lexer produces it
neither happens, whatever is in front of the last token (`parseModule_safe`).

What keeps the cursor in range is that `Eof` is never consumed: a token is consumed after its
kind has been compared to another one. What makes the loops and recursions end is that each
turn and each level of nesting consumes something. Both are one promise (`Chain.Consumes`),
which every parser here is shown to keep if those it calls do.
-/

namespace ToyC

open Chain

variable {α : Type} {ts : List Token} {t : Token} {m n : Nat}

namespace Parser

/-! ## The cursor -/

theorem error_leaves (msg : String) (t : Token) (ts : List Token) :
    Leaves .fault Ended m (error msg (t :: ts) : Except ParseError (α × List Token)) := by
  simp [Leaves, error, cur]

/-- Looking at the token under the cursor is safe. -/
theorem cur_leaves {f : Token → Except ParseError (α × List Token)} (hts : Ended ts)
    (hf : ∀ t, Leaves .fault Ended m (f t)) : Leaves .fault Ended m (cur ts >>= f) := by
  cases ts with
  | nil => exact absurd rfl hts.ne_nil
  | cons t ts => exact hf t

/-- So is looking ahead: behind the last token the last one is seen. -/
theorem peek_leaves {f : Token → Except ParseError (α × List Token)} (off : Nat) (hts : Ended ts)
    (hf : ∀ t, peek off ts = .ok t → Leaves .fault Ended m (f t)) :
    Leaves .fault Ended m (peek off ts >>= f) := by
  obtain ⟨last, hlast⟩ : ∃ last, ts.getLast? = some last :=
    ⟨_, List.getLast?_eq_some_getLast hts.ne_nil⟩
  have hpeek : ∃ t, peek off ts = .ok t := by
    unfold peek
    cases ts[off]? with
    | some t => exact ⟨t, rfl⟩
    | none => exact ⟨last, by rw [hlast]⟩
  obtain ⟨t, ht⟩ := hpeek
  rw [ht]
  exact hf t ht

/-- **What is expected is not `Eof`**, so it may be consumed. -/
theorem expect_leaves {k : Tok} (what : String) (hk : k ≠ .Eof) (hts : Ended ts)
    (hlen : ts.length ≤ m + 1) : Leaves .fault Ended m (expect k what ts) := by
  cases ts with
  | nil => exact absurd rfl hts.ne_nil
  | cons t ts =>
    simp only [expect]
    split
    · rename_i ht
      exact ⟨hts.tail (ht ▸ hk), Nat.le_of_succ_le_succ hlen⟩
    · exact error_leaves _ t ts

/-- The same behind a token that was consumed. -/
theorem expect_within {k : Tok} (what : String) (hk : k ≠ .Eof) (hts : Ended ts)
    (hlen : ts.length ≤ m) : Leaves .fault Ended m (expect k what ts) :=
  expect_leaves what hk hts (Nat.le_succ_of_le hlen)

theorem accept_leaves {k : Tok} (hk : k ≠ .Eof) (hts : Ended ts) (hlen : ts.length ≤ m) :
    Leaves .fault Ended m (accept k ts) := by
  cases ts with
  | nil => exact absurd rfl hts.ne_nil
  | cons t ts =>
    simp only [accept]
    split
    · rename_i ht
      exact ⟨hts.tail (ht ▸ hk), Nat.le_of_succ_le hlen⟩
    · exact ⟨hts, hlen⟩

/-- A parser that consumes something, where it need not. -/
theorem consumes_within {p : P α} (hp : Consumes .fault Ended n p) (hts : Ended ts)
    (hlen : ts.length ≤ m) (hm : m ≤ n) : Leaves .fault Ended m (p ts) := by
  have hpos := List.length_pos_iff.mpr hts.ne_nil
  exact (hp hts (by omega) (show m - 1 < n by omega)).mono (Nat.sub_le m 1)

/-! ## Expressions -/

section Expressions

variable {expr : P Expr} (hexpr : Consumes .fault Ended n expr)
include hexpr

theorem parseArgs_leaves {k : Nat} (hts : Ended ts) (hlen : ts.length ≤ m) (hm : m ≤ n)
    (hk : ts.length ≤ k) : Leaves .fault Ended m (parseArgs expr k ts) := by
  induction k generalizing ts m with
  | zero => exact absurd (List.length_eq_zero_iff.mp (Nat.le_zero.mp hk)) hts.ne_nil
  | succ k ih =>
    have hpos := List.length_pos_iff.mpr hts.ne_nil
    refine (hexpr hts (show ts.length ≤ ts.length - 1 + 1 by omega) (by omega)).bind
      fun e ts₁ h₁ hle₁ => ?_
    refine (accept_leaves (by decide) h₁ hle₁).bind fun more ts₂ h₂ hle₂ => ?_
    cases more with
    | true =>
      exact (ih h₂ (m := m) (by omega) hm (by omega)).bind fun es rest h hle => ⟨h, hle⟩
    | false => exact ⟨h₂, by omega⟩

theorem parseCallArgs_leaves (hts : Ended ts) (hlen : ts.length ≤ m) (hm : m ≤ n) :
    Leaves .fault Ended m (parseCallArgs expr ts) := by
  refine cur_leaves hts fun next => ?_
  split
  · exact ⟨hts, hlen⟩
  · exact parseArgs_leaves hexpr hts hlen hm (Nat.le_refl _)

/-- **A primary expression**: it consumes a token before the next level of nesting. -/
theorem parsePrimary_consumes : Consumes .fault Ended (n + 1) (parsePrimary expr) := by
  intro ts m hts hlen hm
  cases ts with
  | nil => exact absurd rfl hts.ne_nil
  | cons t ts =>
    have hle : ts.length ≤ m := Nat.le_of_succ_le_succ hlen
    have hm : m ≤ n := Nat.le_of_lt_succ hm
    simp only [parsePrimary]
    split
    next ht => exact ⟨hts.tail (by rw [ht]; decide), hle⟩
    next ht =>
      refine (consumes_within hexpr (hts.tail (by rw [ht]; decide)) hle hm).bind
        fun e ts₁ h₁ hle₁ => ?_
      exact (expect_within _ (by decide) h₁ hle₁).bind
        fun _ rest h hle => ⟨h, hle⟩
    next ht =>
      refine (accept_leaves (by decide) (hts.tail (by rw [ht]; decide)) hle).bind
        fun isCall ts₁ h₁ hle₁ => ?_
      cases isCall with
      | true =>
        refine (parseCallArgs_leaves hexpr h₁ hle₁ hm).bind fun args ts₂ h₂ hle₂ => ?_
        exact (expect_within _ (by decide) h₂ hle₂).bind
          fun _ rest h hle => ⟨h, hle⟩
      | false => exact ⟨h₁, hle₁⟩
    next => exact error_leaves _ t ts

theorem parseUnaryN_leaves {k : Nat} (hts : Ended ts) (hlen : ts.length ≤ m + 1) (hm : m < n + 1)
    (hk : ts.length ≤ k) : Leaves .fault Ended m (parseUnaryN expr k ts) := by
  induction k generalizing ts m with
  | zero => exact absurd (List.length_eq_zero_iff.mp (Nat.le_zero.mp hk)) hts.ne_nil
  | succ k ih =>
    cases ts with
    | nil => exact absurd rfl hts.ne_nil
    | cons t ts =>
      simp only [parseUnaryN]
      cases hop : unaryOp t with
      | none => exact parsePrimary_consumes hexpr hts hlen hm
      | some op =>
        have hts' : Ended ts := hts.tail fun ht => by simp [unaryOp, ht] at hop
        rw [List.length_cons] at hlen hk
        exact (ih hts' (by omega) hm (by omega)).bind fun e rest h hle => ⟨h, hle⟩

theorem parseUnary_consumes : Consumes .fault Ended (n + 1) (parseUnary expr) :=
  fun _ _ hts hlen hm => parseUnaryN_leaves hexpr hts hlen hm (Nat.le_refl _)

/-- **The binary layers**: none of their operators is `Eof`. -/
theorem parseLOr_consumes : Consumes .fault Ended (n + 1) (parseLOr expr) := by
  have hne : ∀ ts, Ended ts → ts ≠ [] := fun ts hts => hts.ne_nil
  have hop : ∀ op : Token → Option (Expr → Expr → Expr),
      (∀ t, t.kind = .Eof → op t = none) →
      ∀ t ts mk, op t = some mk → Ended (t :: ts) → Ended ts := by
    intro op heof t ts mk ht hts
    refine hts.tail fun hk => ?_
    rw [heof t hk] at ht
    cases ht
  refine chain_consumes hne (hop _ fun t ht => by simp [lorOp, ht]) ?_
  refine chain_consumes hne (hop _ fun t ht => by simp [landOp, ht]) ?_
  refine chain_consumes hne (hop _ fun t ht => by simp [eqOp, ht]) ?_
  refine chain_consumes hne (hop _ fun t ht => by simp [relOp, ht]) ?_
  refine chain_consumes hne (hop _ fun t ht => by simp [addOp, ht]) ?_
  refine chain_consumes hne (hop _ fun t ht => by simp [mulOp, ht]) ?_
  exact parseUnary_consumes hexpr

end Expressions

theorem parseExprN_consumes (n : Nat) : Consumes .fault Ended n (parseExprN n) := by
  induction n with
  | zero => exact fun _ _ _ _ hm => absurd hm (Nat.not_lt_zero _)
  | succ n ih => exact parseLOr_consumes ih

/-- **An expression.** -/
theorem parseExpr_consumes (n : Nat) : Consumes .fault Ended n parseExpr := by
  intro ts m hts hlen hm
  have hpos := List.length_pos_iff.mpr hts.ne_nil
  exact (parseExprN_consumes (ts.length + 1) hts (show ts.length ≤ ts.length - 1 + 1 by omega)
    (by omega)).mono (by omega)

/-- An expression, where something was consumed in front of it. -/
theorem parseExpr_leaves (hts : Ended ts) (hlen : ts.length ≤ m) :
    Leaves .fault Ended m (parseExpr ts) :=
  consumes_within (parseExpr_consumes m) hts hlen (Nat.le_refl m)

/-! ## Statements -/

section Statements

variable {stmt : P Stmt} (hstmt : Consumes .fault Ended n stmt)
include hstmt

theorem parseItems_leaves {k : Nat} (hts : Ended ts) (hlen : ts.length ≤ m) (hm : m ≤ n)
    (hk : ts.length ≤ k) : Leaves .fault Ended m (parseItems stmt k ts) := by
  induction k generalizing ts m with
  | zero => exact absurd (List.length_eq_zero_iff.mp (Nat.le_zero.mp hk)) hts.ne_nil
  | succ k ih =>
    cases ts with
    | nil => exact absurd rfl hts.ne_nil
    | cons t ts =>
      simp only [parseItems]
      split
      · exact ⟨hts, hlen⟩
      · rw [List.length_cons] at hlen hk
        refine (hstmt hts (Nat.le_refl _) (by omega)).bind fun s ts₁ h₁ hle₁ => ?_
        exact (ih h₁ (m := m) (by omega) hm (by omega)).bind fun ss rest h hle => ⟨h, hle⟩

theorem parseBlock_leaves (hts : Ended ts) (hlen : ts.length ≤ m + 1) (hm : m ≤ n) :
    Leaves .fault Ended m (parseBlock stmt ts) := by
  refine (expect_leaves _ (by decide) hts hlen).bind fun _ ts₁ h₁ hle₁ => ?_
  refine cur_leaves h₁ fun first => ?_
  refine (parseItems_leaves hstmt h₁ hle₁ hm (Nat.le_refl _)).bind fun ss ts₂ h₂ hle₂ => ?_
  exact (expect_within _ (by decide) h₂ hle₂).bind
    fun _ rest h hle => ⟨h, hle⟩

theorem parseIf_leaves {line : Nat} (hts : Ended ts) (hlen : ts.length ≤ m) (hm : m ≤ n) :
    Leaves .fault Ended m (parseIf stmt line ts) := by
  refine (expect_within _ (by decide) hts hlen).bind fun _ ts₁ h₁ hle₁ => ?_
  refine (parseExpr_leaves h₁ hle₁).bind fun cond ts₂ h₂ hle₂ => ?_
  refine (expect_within _ (by decide) h₂ hle₂).bind fun _ ts₃ h₃ hle₃ => ?_
  refine (consumes_within hstmt h₃ hle₃ hm).bind fun then_ ts₄ h₄ hle₄ => ?_
  refine (accept_leaves (by decide) h₄ hle₄).bind fun hasElse ts₅ h₅ hle₅ => ?_
  cases hasElse with
  | true => exact (consumes_within hstmt h₅ hle₅ hm).bind fun else_ rest h hle => ⟨h, hle⟩
  | false => exact ⟨h₅, hle₅⟩

theorem parseWhile_leaves {line : Nat} (hts : Ended ts) (hlen : ts.length ≤ m) (hm : m ≤ n) :
    Leaves .fault Ended m (parseWhile stmt line ts) := by
  refine (expect_within _ (by decide) hts hlen).bind fun _ ts₁ h₁ hle₁ => ?_
  refine (parseExpr_leaves h₁ hle₁).bind fun cond ts₂ h₂ hle₂ => ?_
  refine (expect_within _ (by decide) h₂ hle₂).bind fun _ ts₃ h₃ hle₃ => ?_
  exact (consumes_within hstmt h₃ hle₃ hm).bind fun body rest h hle => ⟨h, hle⟩

omit hstmt in
theorem parseDeclStmt_leaves {line : Nat} (hts : Ended ts) (hlen : ts.length ≤ m + 1) :
    Leaves .fault Ended m (parseDeclStmt line ts) := by
  refine (accept_leaves (by decide) hts hlen).bind fun isConst ts₁ h₁ hle₁ => ?_
  refine (expect_leaves _ (by decide) h₁ hle₁).bind fun _ ts₂ h₂ hle₂ => ?_
  refine (expect_within _ (by decide) h₂ hle₂).bind fun name ts₃ h₃ hle₃ => ?_
  refine (expect_within _ (by decide) h₃ hle₃).bind fun _ ts₄ h₄ hle₄ => ?_
  refine (parseExpr_leaves h₄ hle₄).bind fun init ts₅ h₅ hle₅ => ?_
  exact (expect_within _ (by decide) h₅ hle₅).bind
    fun _ rest h hle => ⟨h, hle⟩

omit hstmt in
theorem parseReturn_leaves {line : Nat} (hts : Ended ts) (hlen : ts.length ≤ m) :
    Leaves .fault Ended m (parseReturn line ts) := by
  refine cur_leaves hts fun next => ?_
  split
  · exact (expect_within _ (by decide) hts hlen).bind
      fun _ rest h hle => ⟨h, hle⟩
  · refine (parseExpr_leaves hts hlen).bind fun value ts₁ h₁ hle₁ => ?_
    exact (expect_within _ (by decide) h₁ hle₁).bind
      fun _ rest h hle => ⟨h, hle⟩

omit hstmt in
theorem parseAssign_leaves {line : Nat} {name : String} (hts : Ended ts) (hlen : ts.length ≤ m) :
    Leaves .fault Ended m (parseAssign line name ts) := by
  refine (parseExpr_leaves hts hlen).bind fun value ts₁ h₁ hle₁ => ?_
  exact (expect_within _ (by decide) h₁ hle₁).bind
    fun _ rest h hle => ⟨h, hle⟩

omit hstmt in
theorem parseExprStmt_leaves {line : Nat} (hts : Ended ts) (hlen : ts.length ≤ m + 1) :
    Leaves .fault Ended m (parseExprStmt line ts) := by
  refine (parseExpr_consumes (m + 1) hts hlen (Nat.lt_succ_self m)).bind fun e ts₁ h₁ hle₁ => ?_
  exact (expect_within _ (by decide) h₁ hle₁).bind
    fun _ rest h hle => ⟨h, hle⟩

/-- **A statement**: it consumes a token before the next level of nesting. -/
theorem parseStmtStep_consumes : Consumes .fault Ended (n + 1) (parseStmtStep stmt) := by
  intro ts m hts hlen hm
  cases ts with
  | nil => exact absurd rfl hts.ne_nil
  | cons t ts =>
    have hle : ts.length ≤ m := Nat.le_of_succ_le_succ hlen
    have hm : m ≤ n := Nat.le_of_lt_succ hm
    have htail : ∀ {k : Tok}, t.kind = k → k ≠ .Eof → Ended ts := fun hk hne =>
      hts.tail (hk ▸ hne)
    simp only [parseStmtStep]
    split
    next => exact (parseBlock_leaves hstmt hts hlen hm).bind fun _ rest h hle => ⟨h, hle⟩
    next hk => exact ⟨htail hk (by decide), hle⟩
    next => exact parseDeclStmt_leaves hts hlen
    next => exact parseDeclStmt_leaves hts hlen
    next hk => exact parseIf_leaves hstmt (htail hk (by decide)) hle hm
    next hk => exact parseWhile_leaves hstmt (htail hk (by decide)) hle hm
    next hk =>
      exact (expect_within _ (by decide) (htail hk (by decide)) hle).bind
        fun _ rest h hle => ⟨h, hle⟩
    next hk =>
      exact (expect_within _ (by decide) (htail hk (by decide)) hle).bind
        fun _ rest h hle => ⟨h, hle⟩
    next hk => exact parseReturn_leaves (htail hk (by decide)) hle
    next hk =>
      refine peek_leaves 1 hts fun next hnext => ?_
      have hts' := htail hk (by decide)
      split
      · rename_i hassign
        -- The token behind an identifier that is not the last one is there.
        cases ts with
        | nil => exact absurd rfl hts'.ne_nil
        | cons eq ts =>
          cases hnext
          exact parseAssign_leaves (hts'.tail (by rw [hassign]; decide)) (Nat.le_of_succ_le hle)
      · exact parseExprStmt_leaves hts hlen
    next => exact parseExprStmt_leaves hts hlen

end Statements

theorem parseStmtN_consumes (n : Nat) : Consumes .fault Ended n (parseStmtN n) := by
  induction n with
  | zero => exact fun _ _ _ _ hm => absurd hm (Nat.not_lt_zero _)
  | succ n ih => exact parseStmtStep_consumes ih

theorem parseStmt_consumes (n : Nat) : Consumes .fault Ended n parseStmt := by
  intro ts m hts hlen hm
  have hpos := List.length_pos_iff.mpr hts.ne_nil
  exact (parseStmtN_consumes ts.length hts (show ts.length ≤ ts.length - 1 + 1 by omega)
    (by omega)).mono (by omega)

/-! ## Top level -/

theorem parseParams_leaves {k : Nat} (hts : Ended ts) (hlen : ts.length ≤ m)
    (hk : ts.length ≤ k) : Leaves .fault Ended m (parseParams k ts) := by
  induction k generalizing ts m with
  | zero => exact absurd (List.length_eq_zero_iff.mp (Nat.le_zero.mp hk)) hts.ne_nil
  | succ k ih =>
    have hpos := List.length_pos_iff.mpr hts.ne_nil
    refine (expect_leaves _ (by decide) hts (show ts.length ≤ ts.length - 1 + 1 by omega)).bind
      fun _ ts₁ h₁ hle₁ => ?_
    refine (expect_within _ (by decide) h₁ hle₁).bind
      fun name ts₂ h₂ hle₂ => ?_
    refine (accept_leaves (by decide) h₂ hle₂).bind fun more ts₃ h₃ hle₃ => ?_
    cases more with
    | true => exact (ih h₃ (m := m) (by omega) (by omega)).bind fun ps rest h hle => ⟨h, hle⟩
    | false => exact ⟨h₃, by omega⟩

theorem parseFormals_leaves (hts : Ended ts) (hlen : ts.length ≤ m) :
    Leaves .fault Ended m (parseFormals ts) := by
  refine cur_leaves hts fun next => ?_
  split
  · exact ⟨hts, hlen⟩
  · exact parseParams_leaves hts hlen (Nat.le_refl _)

theorem parseFuncDef_leaves {returnsVoid : Bool} {line : Nat} (hts : Ended ts)
    (hlen : ts.length ≤ m) : Leaves .fault Ended m (parseFuncDef returnsVoid line ts) := by
  refine (expect_within _ (by decide) hts hlen).bind
    fun name ts₁ h₁ hle₁ => ?_
  refine (expect_within _ (by decide) h₁ hle₁).bind fun _ ts₂ h₂ hle₂ => ?_
  refine (parseFormals_leaves h₂ hle₂).bind fun params ts₃ h₃ hle₃ => ?_
  refine (expect_within _ (by decide) h₃ hle₃).bind fun _ ts₄ h₄ hle₄ => ?_
  exact (parseBlock_leaves (parseStmt_consumes m) h₄ (Nat.le_succ_of_le hle₄)
    (Nat.le_refl m)).bind fun body rest h hle => ⟨h, hle⟩

theorem expectGlobalKeywords_leaves {isConst : Bool} (hts : Ended ts)
    (hlen : ts.length ≤ m + 1) : Leaves .fault Ended m (expectGlobalKeywords isConst ts) := by
  unfold expectGlobalKeywords
  cases isConst with
  | true =>
    refine (expect_leaves _ (by decide) hts hlen).bind fun _ ts₁ h₁ hle₁ => ?_
    exact expect_within _ (by decide) h₁ hle₁
  | false => exact expect_leaves _ (by decide) hts hlen

theorem parseGlobalVar_leaves {isConst : Bool} {line : Nat} (hts : Ended ts)
    (hlen : ts.length ≤ m + 1) : Leaves .fault Ended m (parseGlobalVar isConst line ts) := by
  refine (expectGlobalKeywords_leaves hts hlen).bind fun _ ts₁ h₁ hle₁ => ?_
  refine (expect_within _ (by decide) h₁ hle₁).bind
    fun name ts₂ h₂ hle₂ => ?_
  refine (expect_within _ (by decide) h₂ hle₂).bind fun _ ts₃ h₃ hle₃ => ?_
  refine (parseExpr_leaves h₃ hle₃).bind fun init ts₄ h₄ hle₄ => ?_
  exact (expect_within _ (by decide) h₄ hle₄).bind
    fun _ rest h hle => ⟨h, hle⟩

theorem parseTopLevel_consumes (n : Nat) : Consumes .fault Ended n parseTopLevel := by
  intro ts m hts hlen _
  cases ts with
  | nil => exact absurd rfl hts.ne_nil
  | cons t ts =>
    have hle : ts.length ≤ m := Nat.le_of_succ_le_succ hlen
    simp only [parseTopLevel]
    split
    next => exact (parseGlobalVar_leaves hts hlen).bind fun _ rest h hle => ⟨h, hle⟩
    next hk =>
      exact (parseFuncDef_leaves (hts.tail (by rw [hk]; decide)) hle).bind
        fun _ rest h hle => ⟨h, hle⟩
    next hk =>
      refine peek_leaves 1 hts fun first _ => ?_
      split
      · exact error_leaves _ t ts
      · refine peek_leaves 2 hts fun second _ => ?_
        split
        · exact (parseFuncDef_leaves (hts.tail (by rw [hk]; decide)) hle).bind
            fun _ rest h hle => ⟨h, hle⟩
        · exact (parseGlobalVar_leaves hts hlen).bind fun _ rest h hle => ⟨h, hle⟩
    next => exact error_leaves _ t ts

theorem parseTopLevels_ne_fault {k : Nat} (hts : Ended ts) (hk : ts.length ≤ k) :
    parseTopLevels k ts ≠ .error .fault := by
  induction k generalizing ts with
  | zero => exact absurd (List.length_eq_zero_iff.mp (Nat.le_zero.mp hk)) hts.ne_nil
  | succ k ih =>
    cases ts with
    | nil => exact absurd rfl hts.ne_nil
    | cons t ts =>
      rw [List.length_cons] at hk
      have hitem := parseTopLevel_consumes (ts.length + 1) hts (Nat.le_refl _)
        (Nat.lt_succ_self _)
      simp only [parseTopLevels]
      split
      · exact fun h => by cases h
      · cases hres : parseTopLevel (t :: ts) with
        | error e =>
          rw [hres] at hitem
          intro h
          cases h
          exact hitem rfl
        | ok r =>
          rw [hres] at hitem
          have hrest := ih hitem.1 (Nat.le_trans hitem.2 (by omega))
          intro h
          cases hitems : parseTopLevels k r.2 with
          | error e =>
            simp only [ok_bind, hitems] at h
            cases h
            exact hrest hitems
          | ok items =>
            simp only [ok_bind, hitems] at h
            cases h

/-- **The parser answers** on tokens as the lexer ends them: with a module or a syntax error. -/
theorem parseModule_ended (hts : Ended ts) :
    (∃ m, parseModule ts = .ok m) ∨ ∃ msg, parseModule ts = .error (.syntaxError msg) := by
  have hne := parseTopLevels_ne_fault hts (Nat.le_refl _)
  unfold parseModule
  cases h : parseTopLevels ts.length ts with
  | ok items => exact .inl ⟨{ items }, rfl⟩
  | error e =>
    cases e with
    | syntaxError msg => exact .inr ⟨msg, rfl⟩
    | fault => exact absurd h hne

/-- On what the lexer returns, for one. -/
theorem parseModule_tokenize {src : List Char} (h : Lexer.tokenize src = .ok ts) :
    (∃ m, parseModule ts = .ok m) ∨ ∃ msg, parseModule ts = .error (.syntaxError msg) := by
  rcases Lexer.tokenize_ended src with ⟨ts', hts', hended⟩ | ⟨msg, hmsg⟩
  · obtain rfl : ts' = ts := Except.ok.inj (hts'.symm.trans h)
    exact parseModule_ended hended
  · rw [hmsg] at h
    cases h

/-- **The parser is total and stays within the tokens**: on any tokens in front of the only `Eof`
it returns a module or a syntax error, and never reads behind the last token, nor runs out of
a bound on its loops and recursions. How deep the recursion gets is bounded by the tokens alone; the
stack of the host, which it needs, is not modelled. -/
theorem parseModule_safe {body : List Token} {eof : Token} (heof : eof.kind = .Eof)
    (hbody : ∀ t ∈ body, t.kind ≠ .Eof) :
    (∃ m, parseModule (body ++ [eof]) = .ok m) ∨
      ∃ msg, parseModule (body ++ [eof]) = .error (.syntaxError msg) :=
  parseModule_ended ⟨body, eof, rfl, heof, hbody⟩

/-- `int main() { if (x) ; else while (1 + f(2, ` and `}`: the text breaks off in an argument. -/
def brokenTokens : List Token :=
  [.Kw_int, .Ident, .LParen, .RParen, .LBrace, .Kw_if, .LParen, .Ident, .RParen, .Semi, .Kw_else,
    .Kw_while, .LParen, .Number, .Plus, .Ident, .LParen, .Number, .Comma, .RBrace].map
    fun kind => { kind }

/-- It is a syntax error. -/
theorem parseModule_safe_broken :
    ∃ msg, parseModule (brokenTokens ++ [{ kind := .Eof }]) = .error (.syntaxError msg) := by
  rcases parseModule_safe (rfl : ({ kind := .Eof } : Token).kind = .Eof)
    (by decide : ∀ t ∈ brokenTokens, t.kind ≠ .Eof) with ⟨m, hm⟩ | hbroken
  · have hnone : ¬(parseModule (brokenTokens ++ [{ kind := .Eof }])).isOk := by decide +kernel
    rw [hm] at hnone
    exact absurd rfl hnone
  · exact hbroken

end Parser

end ToyC
