import ToyC.Lexer
import ToyC.Lib.Outcome

/-!
# Lexing undoes printing

A source text is printed from a list of lexemes by putting separators in front of them, between
them and behind them: white space and comments, with white space first. The lexer reads back
exactly the lexemes, whatever the separators are (`tokenize_render`), and gives every token the
line and column of its first character, which are said here of the text in front of it and not
of the way the lexer counts (`lineOf`, `colOf`).

Since a separator begins with white space, an operator is never followed by a character that
would make a longer one of it, nor a slash by one that would make it a comment; what is left is
to see where every loop of the lexer stops. A comment may contain anything but its end: the
stars of a block comment are a matter of `skipComment_inText`.
-/

namespace ToyC

open Lexer

/-! ## Positions -/

/-- The line of what follows a text. -/
def lineOf (before : List Char) : Nat := before.count '\n' + 1

/-- The column of what follows a text: behind its last line. -/
def colOf (before : List Char) : Nat := (before.reverse.takeWhile (· != '\n')).length + 1

/-- The lexer in the middle of a text. -/
def Lexer.inText (before rest : List Char) : Lexer :=
  { rest, line := lineOf before, col := colOf before }

variable {before rest : List Char} {c : Char}

@[simp] theorem inText_rest (before rest : List Char) :
    (Lexer.inText before rest).rest = rest := rfl

@[simp] theorem inText_eof (before rest : List Char) :
    (Lexer.inText before rest).eof = rest.isEmpty := rfl

@[simp] theorem inText_peek_zero (before rest : List Char) (c : Char) :
    (Lexer.inText before (c :: rest)).peek 0 = c := rfl

@[simp] theorem inText_peek_one (before rest : List Char) (c d : Char) :
    (Lexer.inText before (c :: d :: rest)).peek 1 = d := rfl

/-- **Going on by one character** keeps the position right. -/
@[simp] theorem inText_advance (before rest : List Char) (c : Char) :
    (Lexer.inText before (c :: rest)).advance = Lexer.inText (before ++ [c]) rest := by
  by_cases hc : c = '\n'
  · simp [advance, Lexer.inText, hc, lineOf, colOf]
  · simp [advance, Lexer.inText, hc, lineOf, colOf]

/-- **A loop over the characters that pass a test** stops behind them. -/
theorem advanceWhile_inText {test : Lexer → Bool} {cs : List Char} {n : Nat}
    (hcs : ∀ c ∈ cs, ∀ before rest, test (Lexer.inText before (c :: rest)) = true)
    (hstop : ∀ before, test (Lexer.inText before rest) = false) (hn : cs.length ≤ n) :
    advanceWhile test n (Lexer.inText before (cs ++ rest)) =
      (cs, Lexer.inText (before ++ cs) rest) := by
  induction cs generalizing before n with
  | nil =>
    rw [List.append_nil]
    cases n with
    | zero => rfl
    | succ n => simp [advanceWhile, hstop]
  | cons c cs ih =>
    obtain ⟨n, rfl⟩ : ∃ k, n = k + 1 := ⟨n - 1, by simp at hn; omega⟩
    rw [List.length_cons] at hn
    rw [List.cons_append, advanceWhile, if_pos (hcs c List.mem_cons_self _ _), inText_advance,
      ih (fun d hd => hcs d (List.mem_cons_of_mem _ hd)) (by omega)]
    simp

/-! ## Separators -/

/-- **White space and comments**: to the end of a line, or up to the first end mark. -/
inductive IsTrivia : List Char → Prop where
  | nil : IsTrivia []
  | space {c : Char} {cs : List Char} (hc : isSpace c) (h : IsTrivia cs) : IsTrivia (c :: cs)
  | line {body cs : List Char} (hbody : '\n' ∉ body) (h : IsTrivia cs) :
      IsTrivia ('/' :: '/' :: body ++ '\n' :: cs)
  | block {body cs : List Char} (hbody : ¬ ['*', '/'] <:+: body) (h : IsTrivia cs) :
      IsTrivia ('/' :: '*' :: body ++ '*' :: '/' :: cs)

/-- **A separator** begins with white space. -/
structure Separator where
  text : List Char
  space : ∃ c cs, text = c :: cs ∧ isSpace c
  trivia : IsTrivia text

/-- A block comment ends at its first end mark. -/
theorem skipComment_inText {body : List Char} {n : Nat} (hbody : ¬ ['*', '/'] <:+: body)
    (hn : body.length < n) :
    skipComment n (Lexer.inText before (body ++ '*' :: '/' :: rest)) =
      .ok (Lexer.inText (before ++ body ++ ['*', '/']) rest) := by
  induction body generalizing before n with
  | nil =>
    obtain ⟨n, rfl⟩ : ∃ k, n = k + 1 := ⟨n - 1, by simp at hn; omega⟩
    simp [skipComment]
  | cons c body ih =>
    obtain ⟨n, rfl⟩ : ∃ k, n = k + 1 := ⟨n - 1, by simp at hn; omega⟩
    rw [List.length_cons] at hn
    have hnext : ((Lexer.inText before (c :: body ++ '*' :: '/' :: rest)).peek 0 == '*' &&
        (Lexer.inText before (c :: body ++ '*' :: '/' :: rest)).peek 1 == '/') = false := by
      cases body with
      | nil => simp
      | cons d body =>
        rw [List.cons_append, List.cons_append, inText_peek_zero, inText_peek_one, Bool.eq_false_iff]
        intro h
        obtain ⟨rfl, rfl⟩ : c = '*' ∧ d = '/' := by simpa using h
        exact hbody ⟨[], body, rfl⟩
    rw [skipComment, hnext]
    simp only [List.cons_append, inText_eof, List.isEmpty_cons, Bool.false_eq_true, if_false,
      inText_advance]
    rw [ih (fun h => hbody (List.infix_cons h)) (by omega)]
    simp

/-- **A text starts with no separator**: neither with white space nor with a comment. -/
def StartsToken : List Char → Prop
  | [] => True
  | c :: rest => isSpace c = false ∧ (c = '/' → ∀ d ∈ rest.head?, d ≠ '/' ∧ d ≠ '*')

theorem skipTriviaN_stop {n : Nat} (h : StartsToken rest) :
    skipTriviaN (n + 1) (Lexer.inText before rest) = .ok (Lexer.inText before rest) := by
  cases rest with
  | nil => rfl
  | cons c rest =>
    obtain ⟨hspace, hslash⟩ := h
    rw [skipTriviaN]
    simp only [inText_peek_zero, hspace, Bool.false_eq_true, if_false]
    by_cases hc : c = '/'
    · subst hc
      cases rest with
      | nil => rfl
      | cons d rest =>
        obtain ⟨h₁, h₂⟩ := hslash rfl d rfl
        simp [h₁, h₂]
    · simp [hc]

/-- **White space and comments are skipped**, with as many turns left as there are to spare. -/
theorem skipTriviaN_trivia {sep : List Char} (before rest : List Char) (n j : Nat)
    (hsep : IsTrivia sep) (hn : sep.length + j ≤ n) :
    ∃ k, j ≤ k ∧ skipTriviaN n (Lexer.inText before (sep ++ rest)) =
      skipTriviaN k (Lexer.inText (before ++ sep) rest) := by
  induction hsep generalizing before n with
  | nil => exact ⟨n, by simpa using hn, by simp⟩
  | @space c cs hc _ ih =>
    rw [List.length_cons] at hn
    obtain ⟨n, rfl⟩ : ∃ k, n = k + 1 := ⟨n - 1, by omega⟩
    obtain ⟨k, hk, heq⟩ := ih (before ++ [c]) n (by omega)
    refine ⟨k, hk, ?_⟩
    simp only [List.cons_append, skipTriviaN, inText_peek_zero, hc, if_true, inText_advance]
    rw [heq]
    simp
  | @line body cs hbody _ ih =>
    have hn : cs.length + j ≤ n - 2 ∧ 2 ≤ n := by
      simp at hn
      omega
    obtain ⟨n, rfl⟩ : ∃ k, n = k + 2 := ⟨n - 2, by omega⟩
    obtain ⟨k, hk, heq⟩ := ih (before ++ '/' :: '/' :: body ++ ['\n']) n hn.1
    refine ⟨k, hk, ?_⟩
    -- The loop goes up to the end of the line, which is white space.
    have hloop : (advanceWhile (fun L => !L.eof && L.peek 0 != '\n')
        ('/' :: '/' :: body ++ '\n' :: (cs ++ rest)).length
        (Lexer.inText before ('/' :: '/' :: body ++ '\n' :: (cs ++ rest)))).2 =
          Lexer.inText (before ++ '/' :: '/' :: body) ('\n' :: (cs ++ rest)) := by
      rw [advanceWhile_inText (fun c hc before rest => ?_) (fun before => by simp) (by simp)]
      have hne : c ≠ '\n' := by
        rintro rfl
        simp [hbody] at hc
      simp [hne]
    rw [List.append_assoc, List.cons_append, skipTriviaN]
    simp only [List.cons_append, inText_peek_zero, inText_peek_one, inText_rest] at hloop ⊢
    simp only [show isSpace '/' = false from rfl, Bool.false_eq_true, if_false,
      beq_self_eq_true, Bool.and_self, if_true]
    rw [hloop, skipTriviaN]
    simp only [inText_peek_zero, show isSpace '\n' = true from rfl, if_true, inText_advance]
    rw [heq]
    simp
  | @block body cs hbody _ ih =>
    have hn : cs.length + j ≤ n - 1 ∧ 1 ≤ n := by
      simp at hn
      omega
    obtain ⟨n, rfl⟩ : ∃ k, n = k + 1 := ⟨n - 1, by omega⟩
    obtain ⟨k, hk, heq⟩ := ih (before ++ ['/'] ++ ['*'] ++ body ++ ['*', '/']) n hn.1
    refine ⟨k, hk, ?_⟩
    rw [List.append_assoc, List.cons_append, skipTriviaN]
    simp only [List.cons_append, inText_peek_zero, inText_peek_one, inText_rest, inText_advance]
    simp only [show isSpace '/' = false from rfl, show ('*' == '/') = false from rfl,
      Bool.false_eq_true, if_false, beq_self_eq_true, Bool.and_self, Bool.and_false, if_true]
    rw [skipComment_inText hbody (by simp; omega), ok_bind, heq]
    simp

/-- **A separator is skipped**, up to what follows it. -/
theorem skipTriviaN_inText {sep : List Char} {n : Nat} (hsep : IsTrivia sep) (hn : sep.length < n)
    (hrest : StartsToken rest) :
    skipTriviaN n (Lexer.inText before (sep ++ rest)) =
      .ok (Lexer.inText (before ++ sep) rest) := by
  obtain ⟨k, hk, heq⟩ := skipTriviaN_trivia before rest n 1 hsep hn
  obtain ⟨k, rfl⟩ : ∃ m, k = m + 1 := ⟨k - 1, by omega⟩
  rw [heq, skipTriviaN_stop hrest]

/-! ## Lexemes -/

/-- The kinds of token that have one text, their name. -/
def isFixed : Tok → Bool
  | .Ident | .Number | .Eof => false
  | _ => true

/-- **The texts of a kind of token**: words that are no keyword, digits, or the name of the kind. -/
def IsLexeme (k : Tok) (text : List Char) : Prop :=
  match k with
  | .Eof => False
  | .Ident => (∃ c cs, text = c :: cs ∧ isWordStart c ∧ ∀ d ∈ cs, isWordChar d) ∧
      ∀ k, isFixed k → text ≠ (tokName k).toList
  | .Number => text ≠ [] ∧ ∀ c ∈ text, c.isDigit
  | k => text = (tokName k).toList

/-- **A lexeme**: a kind of token and a text it has. -/
structure Lexeme where
  kind : Tok
  text : List Char
  ok : IsLexeme kind text

/-- The token of a lexeme behind a text. -/
def Lexeme.token (l : Lexeme) (before : List Char) : Token where
  kind := l.kind
  text := String.ofList l.text
  value := if l.kind = .Number then numberValue l.text else 0
  line := lineOf before
  col := colOf before

/-- White space continues no token. -/
theorem isSpace_cases (hc : isSpace c) :
    isWordChar c = false ∧ c.isDigit = false ∧ c ≠ '=' ∧ c ≠ '/' ∧ c ≠ '*' := by
  simp only [isSpace, Bool.or_eq_true, beq_iff_eq] at hc
  rcases hc with ((((rfl | rfl) | rfl) | rfl) | rfl) | rfl <;> decide

/-- **Whether a character behind a lexeme would be read into it**, or would make it a comment. -/
def continues : Tok → Char → Bool
  | .Ident, c | .Kw_int, c | .Kw_void, c | .Kw_const, c | .Kw_if, c | .Kw_else, c | .Kw_while, c
  | .Kw_break, c | .Kw_continue, c | .Kw_return, c => isWordChar c
  | .Number, c => c.isDigit
  | .Assign, c | .Not, c | .Lt, c | .Gt, c => c == '='
  | .Slash, c => c == '/' || c == '*'
  | _, _ => false

/-- **A lexeme ends** in front of a text that does not go on with it. -/
def Lexeme.EndsBefore (l : Lexeme) (rest : List Char) : Prop :=
  ∀ c ∈ rest.head?, continues l.kind c = false

/-- White space ends every lexeme. -/
theorem Lexeme.endsBefore_space (l : Lexeme) (hc : isSpace c) : l.EndsBefore (c :: rest) := by
  intro d hd
  obtain rfl := Option.some.inj hd
  obtain ⟨hword, hdigit, heq, hslash, hstar⟩ := isSpace_cases hc
  cases l.kind <;> simp [continues, hword, hdigit, heq, hslash, hstar]

/-- What the cursor is at, behind the end of a lexeme. -/
theorem peek_eq_false {p : Char → Bool} (hend : ∀ c ∈ rest.head?, p c = false)
    (hzero : p '\x00' = false) : p ((Lexer.inText before rest).peek 0) = false := by
  cases rest with
  | nil => exact hzero
  | cons c rest => exact hend c rfl

/-- **A word** is read to its end. -/
theorem lexToken_word {text cs : List Char} {d : Char} (htext : text = d :: cs)
    (hd : isWordStart d) (hcs : ∀ d ∈ cs, isWordChar d)
    (hend : ∀ c ∈ rest.head?, isWordChar c = false) :
    lexToken (Lexer.inText before (text ++ rest)) =
      .ok ({ kind := (keywords.lookup (String.ofList text)).getD .Ident,
             text := String.ofList text, line := lineOf before, col := colOf before },
        Lexer.inText (before ++ text) rest) := by
  have hword : ∀ e ∈ text, isWordChar e := by
    rw [htext]
    refine List.forall_mem_cons.mpr ⟨?_, hcs⟩
    simp only [isWordStart, isWordChar, Char.isAlphanum, Bool.or_eq_true] at hd ⊢
    exact hd.imp_left .inl
  have hloop : advanceWhile (fun L => isWordChar (L.peek 0)) (text ++ rest).length
      (Lexer.inText before (text ++ rest)) = (text, Lexer.inText (before ++ text) rest) :=
    advanceWhile_inText (fun e he _ _ => hword e he) (fun _ => peek_eq_false hend rfl) (by simp)
  have hpeek : (Lexer.inText before (text ++ rest)).peek 0 = d := by
    rw [htext]
    rfl
  rw [lexToken, hpeek, if_pos hd, inText_rest, hloop]
  rfl

/-- **A number** is read to its end. -/
theorem lexToken_number {text : List Char} (hne : text ≠ []) (htext : ∀ d ∈ text, d.isDigit)
    (hend : ∀ c ∈ rest.head?, c.isDigit = false) :
    lexToken (Lexer.inText before (text ++ rest)) =
      .ok ({ kind := .Number, text := String.ofList text, value := numberValue text,
             line := lineOf before, col := colOf before },
        Lexer.inText (before ++ text) rest) := by
  obtain ⟨d, cs, rfl⟩ := List.exists_cons_of_ne_nil hne
  have hd := htext d List.mem_cons_self
  have hword : isWordStart d = false := by
    have hne : d ≠ '_' := by
      rintro rfl
      exact absurd hd (by decide)
    have halpha : d.isAlpha = (d.isUpper || d.isLower) := rfl
    have hupper : d.isUpper = decide (d.val ≥ 65 ∧ d.val ≤ 90) := rfl
    have hlower : d.isLower = (d.val ≥ 97 && d.val ≤ 122) := rfl
    have hdigit : d.isDigit = (d.val ≥ 48 && d.val ≤ 57) := rfl
    grind [isWordStart]
  have hloop : advanceWhile (fun L => (L.peek 0).isDigit) (d :: cs ++ rest).length
      (Lexer.inText before (d :: cs ++ rest)) =
        (d :: cs, Lexer.inText (before ++ d :: cs) rest) :=
    advanceWhile_inText (fun e he _ _ => htext e he)
      (fun _ => peek_eq_false (p := Char.isDigit) hend rfl) (by simp)
  rw [lexToken, List.cons_append, inText_peek_zero, hword, if_neg Bool.false_ne_true, if_pos hd,
    inText_rest, ← List.cons_append, hloop]
  rfl

/-- **An operator or a punctuation mark**, from what its characters are. -/
theorem lexToken_punct (d : Char) (cs : List Char) {k : Tok} {s : String}
    (hd : isWordStart d = false ∧ d.isDigit = false)
    (hpunct : lexPunct d (Lexer.inText (before ++ [d]) (cs ++ rest)) =
      .ok (k, s, Lexer.inText (before ++ d :: cs) rest)) :
    lexToken (Lexer.inText before (d :: cs ++ rest)) =
      .ok ({ kind := k, text := s, line := lineOf before, col := colOf before },
        Lexer.inText (before ++ d :: cs) rest) := by
  rw [lexToken, List.cons_append, inText_peek_zero, hd.1, hd.2, if_neg Bool.false_ne_true,
    if_neg Bool.false_ne_true, inText_advance, hpunct]
  rfl

/-- The table of the keywords has them under their names. -/
theorem lookup_keywords {text : List Char} (h : ∀ k, isFixed k → text ≠ (tokName k).toList) :
    keywords.lookup (String.ofList text) = none := by
  have hnames : ∀ p ∈ keywords, isFixed p.2 ∧ p.1 = tokName p.2 := by decide
  refine List.lookup_eq_none_iff.mpr fun p hp => ?_
  obtain ⟨hfixed, hname⟩ := hnames p hp
  rw [hname, bne_iff_ne]
  exact fun heq => h p.2 hfixed (by rw [← heq, String.toList_ofList])

/-- **A lexeme is read** to its end. -/
theorem lexToken_lexeme (l : Lexeme) (hend : l.EndsBefore rest) :
    lexToken (Lexer.inText before (l.text ++ rest)) =
      .ok (l.token before, Lexer.inText (before ++ l.text) rest) := by
  obtain ⟨k, text, hok⟩ := l
  -- What a second character would make longer.
  have heq : (∀ d : Char, continues k d = (d == '=')) → ∀ before : List Char,
      ((Lexer.inText before rest).peek 0 == '=') = false := fun hk before =>
    peek_eq_false (p := (· == '=')) (fun d hd => (hk d).symm.trans (hend d hd)) rfl
  cases k with
  | Eof => exact hok.elim
  | Ident =>
    obtain ⟨⟨d, cs, htext, hd, hcs⟩, hfixed⟩ := hok
    rw [lexToken_word htext hd hcs hend, lookup_keywords hfixed]
    rfl
  | Number => exact lexToken_number hok.1 hok.2 hend
  | Kw_int | Kw_void | Kw_const | Kw_if | Kw_else | Kw_while | Kw_break | Kw_continue
  | Kw_return =>
    obtain rfl : text = _ := hok
    exact lexToken_word rfl (by decide) (List.all_eq_true.mp (by decide)) hend
  | LParen =>
    obtain rfl : text = _ := hok
    exact lexToken_punct '(' [] (by decide) rfl
  | RParen =>
    obtain rfl : text = _ := hok
    exact lexToken_punct ')' [] (by decide) rfl
  | LBrace =>
    obtain rfl : text = _ := hok
    exact lexToken_punct '\x7b' [] (by decide) rfl
  | RBrace =>
    obtain rfl : text = _ := hok
    exact lexToken_punct '\x7d' [] (by decide) rfl
  | Semi =>
    obtain rfl : text = _ := hok
    exact lexToken_punct ';' [] (by decide) rfl
  | Comma =>
    obtain rfl : text = _ := hok
    exact lexToken_punct ',' [] (by decide) rfl
  | Plus =>
    obtain rfl : text = _ := hok
    exact lexToken_punct '+' [] (by decide) rfl
  | Minus =>
    obtain rfl : text = _ := hok
    exact lexToken_punct '-' [] (by decide) rfl
  | Star =>
    obtain rfl : text = _ := hok
    exact lexToken_punct '*' [] (by decide) rfl
  | Slash =>
    obtain rfl : text = _ := hok
    exact lexToken_punct '/' [] (by decide) rfl
  | Percent =>
    obtain rfl : text = _ := hok
    exact lexToken_punct '%' [] (by decide) rfl
  | Assign =>
    obtain rfl : text = _ := hok
    exact lexToken_punct '=' [] (by decide) (by simp [lexPunct, oneOrTwo, tokName, heq fun _ => rfl])
  | Not =>
    obtain rfl : text = _ := hok
    exact lexToken_punct '!' [] (by decide) (by simp [lexPunct, oneOrTwo, tokName, heq fun _ => rfl])
  | Lt =>
    obtain rfl : text = _ := hok
    exact lexToken_punct '<' [] (by decide) (by simp [lexPunct, oneOrTwo, tokName, heq fun _ => rfl])
  | Gt =>
    obtain rfl : text = _ := hok
    exact lexToken_punct '>' [] (by decide) (by simp [lexPunct, oneOrTwo, tokName, heq fun _ => rfl])
  | Le =>
    obtain rfl : text = _ := hok
    exact lexToken_punct '<' ['='] (by decide) (by simp [lexPunct, oneOrTwo, tokName])
  | Ge =>
    obtain rfl : text = _ := hok
    exact lexToken_punct '>' ['='] (by decide) (by simp [lexPunct, oneOrTwo, tokName])
  | Eq =>
    obtain rfl : text = _ := hok
    exact lexToken_punct '=' ['='] (by decide) (by simp [lexPunct, oneOrTwo, tokName])
  | Ne =>
    obtain rfl : text = _ := hok
    exact lexToken_punct '!' ['='] (by decide) (by simp [lexPunct, oneOrTwo, tokName])
  | AndAnd =>
    obtain rfl : text = _ := hok
    exact lexToken_punct '&' ['&'] (by decide) (by simp [lexPunct, oneOrTwo, tokName])
  | OrOr =>
    obtain rfl : text = _ := hok
    exact lexToken_punct '|' ['|'] (by decide) (by simp [lexPunct, oneOrTwo, tokName])

/-- In front of white space. -/
theorem lexToken_inText (l : Lexeme) (hc : isSpace c) :
    lexToken (Lexer.inText before (l.text ++ c :: rest)) =
      .ok (l.token before, Lexer.inText (before ++ l.text) (c :: rest)) :=
  lexToken_lexeme l (l.endsBefore_space hc)

/-- A lexeme does not begin with white space, and with a slash only if it is one. -/
theorem Lexeme.exists_head (l : Lexeme) :
    ∃ d cs, l.text = d :: cs ∧ isSpace d = false ∧ (d = '/' → cs = []) := by
  obtain ⟨k, text, hok⟩ := l
  cases k with
  | Eof => exact hok.elim
  | Ident =>
    obtain ⟨⟨d, cs, htext, hd, -⟩, -⟩ := hok
    refine ⟨d, cs, htext, Bool.eq_false_iff.mpr fun hspace => ?_, fun hd' => ?_⟩
    · have hword := (isSpace_cases hspace).1
      simp only [isWordStart, isWordChar, Char.isAlphanum, Bool.or_eq_true,
        Bool.or_eq_false_iff] at hd hword
      simp [hword] at hd
    · subst hd'
      exact absurd hd (by decide)
  | Number =>
    obtain ⟨d, cs, rfl⟩ := List.exists_cons_of_ne_nil hok.1
    have hd := hok.2 d List.mem_cons_self
    refine ⟨d, cs, rfl, Bool.eq_false_iff.mpr fun hspace => ?_, fun hd' => ?_⟩
    · rw [(isSpace_cases hspace).2.1] at hd
      cases hd
    · subst hd'
      exact absurd hd (by decide)
  | _ =>
    obtain rfl : text = _ := hok
    exact ⟨_, _, rfl, by decide, by decide⟩

/-- The lexeme that is a slash. -/
theorem Lexeme.slash (l : Lexeme) (h : l.text = ['/']) : l.kind = .Slash := by
  obtain ⟨k, text, hok⟩ := l
  obtain rfl : text = ['/'] := h
  cases k with
  | Slash => rfl
  | Eof => exact hok.elim
  | Ident =>
    obtain ⟨⟨d, cs, htext, hd, -⟩, -⟩ := hok
    obtain ⟨rfl, -⟩ := List.cons_eq_cons.mp htext
    exact absurd hd (by decide)
  | Number => exact absurd (hok.2 '/' List.mem_cons_self) (by decide)
  | _ => exact absurd (show ['/'] = _ from hok) (by decide)

/-- **A lexeme starts a token**. -/
theorem Lexeme.startsToken (l : Lexeme) (hend : l.EndsBefore rest) :
    StartsToken (l.text ++ rest) := by
  obtain ⟨d, cs, htext, hd, hslash⟩ := l.exists_head
  rw [htext]
  refine ⟨hd, fun h e he => ?_⟩
  obtain rfl := h
  obtain rfl := hslash rfl
  have hcont := hend e he
  rw [l.slash htext] at hcont
  simpa [continues] using hcont

/-- With white space behind it. -/
theorem startsToken_lexeme (l : Lexeme) (hc : isSpace c) : StartsToken (l.text ++ c :: rest) :=
  l.startsToken (l.endsBefore_space hc)

/-! ## The whole text -/

/-- The text of some lexemes, each with the separator behind it. -/
def render (items : List (Lexeme × Separator)) : List Char :=
  items.flatMap fun item => item.1.text ++ item.2.text

/-- The tokens of such a text, behind another one. -/
def tokensFrom (before : List Char) : List (Lexeme × Separator) → List Token
  | [] => [{ kind := .Eof, line := lineOf before, col := colOf before }]
  | (l, s) :: items => l.token before :: tokensFrom (before ++ l.text ++ s.text) items

theorem length_render (items : List (Lexeme × Separator)) :
    items.length ≤ (render items).length := by
  induction items with
  | nil => exact Nat.le_refl _
  | cons item items ih =>
    obtain ⟨c, cs, hs, -⟩ := item.2.space
    have hrender : render (item :: items) = item.1.text ++ item.2.text ++ render items := rfl
    rw [hrender, hs]
    simp
    omega

/-- From a separator on, the tokens of what follows are read. -/
theorem tokenizeN_render (before : List Char) (s : Separator)
    (items : List (Lexeme × Separator)) {n : Nat} (hn : items.length < n) :
    tokenizeN n (Lexer.inText before (s.text ++ render items)) =
      .ok (tokensFrom (before ++ s.text) items) := by
  induction items generalizing before s n with
  | nil =>
    obtain ⟨n, rfl⟩ : ∃ k, n = k + 1 := ⟨n - 1, by simp at hn; omega⟩
    have hend : StartsToken (render []) := trivial
    rw [tokenizeN, skipTrivia, inText_rest,
      skipTriviaN_inText s.trivia (by rw [List.length_append]; omega) hend]
    rfl
  | cons item items ih =>
    obtain ⟨n, rfl⟩ : ∃ k, n = k + 1 := ⟨n - 1, by simp at hn; omega⟩
    obtain ⟨l, t⟩ := item
    obtain ⟨c, cs, ht, hc⟩ := t.space
    have hrender : render ((l, t) :: items) = l.text ++ c :: (cs ++ render items) := by
      show l.text ++ t.text ++ render items = _
      rw [ht]
      simp
    have hnext : c :: (cs ++ render items) = t.text ++ render items := by
      rw [ht]
      rfl
    obtain ⟨d, ds, hl, -⟩ := l.exists_head
    rw [tokenizeN, skipTrivia, inText_rest, hrender,
      skipTriviaN_inText s.trivia (by rw [List.length_append]; omega) (startsToken_lexeme l hc),
      ok_bind, if_neg (by simp [hl]), lexToken_inText l hc, ok_bind, hnext]
    dsimp only
    rw [ih _ t (by simp at hn; omega)]
    rfl

/-- **Lexing undoes printing**, whatever the lexemes and the separators are: the lexer returns
the lexemes in order, each at the line and column of its first character, and then `Eof`. -/
theorem tokenize_render (first : Separator) (items : List (Lexeme × Separator)) :
    tokenize (first.text ++ render items) = .ok (tokensFrom first.text items) := by
  have hlen := length_render items
  exact tokenizeN_render [] first items
    (show items.length < (first.text ++ render items).length + 1 by rw [List.length_append]; omega)

end ToyC
