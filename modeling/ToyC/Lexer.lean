import Mathlib.Algebra.Group.Nat.Defs
import ToyC.Token

/-!
# The lexer

The lexer of the source keeps the text, an index into it and the line and column of the index;
here the index is the list of characters from it on. A `char` of the source is a byte; here it
is a `Char`, of which the first 256 are the bytes and the others play no part.

Every loop is bounded by the number of characters left, each turn consuming one, and to run out
of the bound is the outcome `fault`, kept apart from a lexical error. It is never the answer, and
what the lexer returns ends in its only `Eof` (`tokenize_ended`).
-/

namespace ToyC

/-- How lexing fails: with a message, or by running past the bound of a loop. -/
inductive LexError where
  | lexicalError (msg : String)
  | fault
  deriving DecidableEq, Repr

/-- **The lexer**: the characters from the cursor on, and the line and column of the cursor. -/
structure Lexer where
  rest : List Char
  line : Nat := 1
  col : Nat := 1
  deriving DecidableEq, Repr

namespace Lexer

/-! ## The cursor -/

/-- The character `off` places ahead, or zero behind the end. -/
def peek (L : Lexer) (off : Nat) : Char := L.rest.getD off '\x00'

/-- Whether the cursor is at the end. -/
def eof (L : Lexer) : Bool := L.rest.isEmpty

/-- Go on by one character. -/
def advance (L : Lexer) : Lexer :=
  match L.rest with
  | [] => L
  | c :: cs =>
    if c = '\n' then { rest := cs, line := L.line + 1, col := 1 }
    else { rest := cs, line := L.line, col := L.col + 1 }

/-- A lexical error at the cursor. -/
def error {α : Type} (msg : String) (L : Lexer) : Except LexError α :=
  .error (.lexicalError ("lexical error at " ++ toString L.line ++ ":" ++ toString L.col
    ++ ": " ++ msg))

/-- Go on as long as a test holds, and collect the characters. -/
def advanceWhile (test : Lexer → Bool) : Nat → Lexer → List Char × Lexer
  | 0, L => ([], L)
  | n + 1, L =>
    if test L then
      let (cs, L') := advanceWhile test n L.advance
      (L.peek 0 :: cs, L')
    else ([], L)

/-! ## Between the tokens -/

/-- The characters of white space. -/
def isSpace (c : Char) : Bool :=
  c == ' ' || c == '\t' || c == '\r' || c == '\n' || c == '\x0b' || c == '\x0c'

/-- The rest of a block comment. -/
def skipComment : Nat → Lexer → Except LexError Lexer
  | 0, _ => .error .fault
  | n + 1, L =>
    if L.eof then error "unterminated block comment" L
    else if L.peek 0 == '*' && L.peek 1 == '/' then .ok L.advance.advance
    else skipComment n L.advance

/-- **White space and comments.** -/
def skipTriviaN : Nat → Lexer → Except LexError Lexer
  | 0, _ => .error .fault
  | n + 1, L =>
    let c := L.peek 0
    if isSpace c then skipTriviaN n L.advance
    else if c == '/' && L.peek 1 == '/' then
      skipTriviaN n (advanceWhile (fun L => !L.eof && L.peek 0 != '\n') L.rest.length L).2
    else if c == '/' && L.peek 1 == '*' then do
      let L ← skipComment (L.rest.length + 1) L.advance.advance
      skipTriviaN n L
    else .ok L

def skipTrivia (L : Lexer) : Except LexError Lexer := skipTriviaN (L.rest.length + 1) L

/-! ## Tokens -/

/-- The keywords. -/
def keywords : List (String × Tok) :=
  [("int", .Kw_int), ("void", .Kw_void), ("const", .Kw_const), ("if", .Kw_if),
    ("else", .Kw_else), ("while", .Kw_while), ("break", .Kw_break),
    ("continue", .Kw_continue), ("return", .Kw_return)]

/-- The first character of an identifier or keyword. -/
def isWordStart (c : Char) : Bool := c.isAlpha || c == '_'

/-- The other characters of an identifier or keyword. -/
def isWordChar (c : Char) : Bool := c.isAlphanum || c == '_'

/-- The number some digits are. -/
def decimal (digits : List Char) : Nat := digits.foldl (fun n c => n * 10 + (c.toNat - '0'.toNat)) 0

/-- The number in a `uint64_t`, if it fits. -/
def stoull (digits : List Char) : Option Nat :=
  if decimal digits < 2 ^ 64 then some (decimal digits) else none

/-- **The value of a number**, truncated to 32 bits. Of a number that does not fit in 64 bits the
last ten digits count, which always do. -/
def numberValue (digits : List Char) : Int :=
  let v := (stoull digits).getD (decimal (digits.drop (digits.length - 10)))
  (BitVec.ofNat 32 v).toInt

/-- An operator of one character, or of two if another one follows. -/
def oneOrTwo (second : Char) (two : Tok × String) (one : Except LexError (Tok × String))
    (L : Lexer) : Except LexError (Tok × String × Lexer) :=
  if L.peek 0 == second then .ok (two.1, two.2, L.advance)
  else do
    let (k, s) ← one
    .ok (k, s, L)

/-- **An operator or a punctuation mark** that starts with `c`, from the character behind `c`
on. -/
def lexPunct (c : Char) (L : Lexer) : Except LexError (Tok × String × Lexer) :=
  match c with
  | '(' => .ok (.LParen, "(", L)
  | ')' => .ok (.RParen, ")", L)
  | '\x7b' => .ok (.LBrace, "\x7b", L)
  | '\x7d' => .ok (.RBrace, "\x7d", L)
  | ';' => .ok (.Semi, ";", L)
  | ',' => .ok (.Comma, ",", L)
  | '+' => .ok (.Plus, "+", L)
  | '-' => .ok (.Minus, "-", L)
  | '*' => .ok (.Star, "*", L)
  | '/' => .ok (.Slash, "/", L)
  | '%' => .ok (.Percent, "%", L)
  | '=' => oneOrTwo '=' (.Eq, "==") (.ok (.Assign, "=")) L
  | '!' => oneOrTwo '=' (.Ne, "!=") (.ok (.Not, "!")) L
  | '<' => oneOrTwo '=' (.Le, "<=") (.ok (.Lt, "<")) L
  | '>' => oneOrTwo '=' (.Ge, ">=") (.ok (.Gt, ">")) L
  | '&' => oneOrTwo '&' (.AndAnd, "&&")
      (error "unexpected '&' (bitwise operators are not supported)" L) L
  | '|' => oneOrTwo '|' (.OrOr, "||")
      (error "unexpected '|' (bitwise operators are not supported)" L) L
  | c => error ("unexpected character '" ++ c.toString ++ "'") L

/-- **The token under the cursor**, which is at no white space, comment or end. -/
def lexToken (L : Lexer) : Except LexError (Token × Lexer) :=
  let c := L.peek 0
  if isWordStart c then
    let (id, L') := advanceWhile (fun L => isWordChar (L.peek 0)) L.rest.length L
    let id := String.ofList id
    .ok ({ kind := (keywords.lookup id).getD .Ident, text := id, line := L.line, col := L.col },
      L')
  else if c.isDigit then
    let (num, L') := advanceWhile (fun L => (L.peek 0).isDigit) L.rest.length L
    .ok ({ kind := .Number, text := String.ofList num, value := numberValue num, line := L.line,
           col := L.col }, L')
  else do
    let (k, s, L') ← lexPunct c L.advance
    .ok ({ kind := k, text := s, line := L.line, col := L.col }, L')

/-- The tokens from the cursor on. -/
def tokenizeN : Nat → Lexer → Except LexError (List Token)
  | 0, _ => .error .fault
  | n + 1, L => do
    let L ← skipTrivia L
    if L.eof then .ok [{ kind := .Eof, line := L.line, col := L.col }]
    else do
      let (t, L) ← lexToken L
      let ts ← tokenizeN n L
      .ok (t :: ts)

/-- **The lexer**, on a whole source text. -/
def tokenize (src : List Char) : Except LexError (List Token) :=
  tokenizeN (src.length + 1) { rest := src }

/-! ## The loops end -/

section Ends

variable {L : Lexer} {m n : Nat}

/-- A character under the cursor that is not zero is one of the text. -/
theorem rest_pos (h : L.peek 0 ≠ '\x00') : 0 < L.rest.length := by
  cases hrest : L.rest with
  | nil => simp [peek, hrest] at h
  | cons c cs => exact Nat.succ_pos _

@[simp] theorem length_advance (L : Lexer) : L.advance.rest.length = L.rest.length - 1 := by
  unfold advance
  split
  · simp [*]
  · rename_i c cs hrest
    split <;> simp [hrest]

theorem length_advanceWhile (test : Lexer → Bool) (n : Nat) (L : Lexer) :
    (advanceWhile test n L).2.rest.length ≤ L.rest.length := by
  induction n generalizing L with
  | zero => exact Nat.le_refl _
  | succ n ih =>
    unfold advanceWhile
    split
    · exact Nat.le_trans (ih L.advance) (by simp)
    · exact Nat.le_refl _

/-- A loop whose test holds at first goes on by a character at least. -/
theorem length_advanceWhile_lt (test : Lexer → Bool) (h : test L = true)
    (hpos : 0 < L.rest.length) :
    (advanceWhile test L.rest.length L).2.rest.length < L.rest.length := by
  obtain ⟨k, hk⟩ : ∃ k, L.rest.length = k + 1 := ⟨L.rest.length - 1, by omega⟩
  have hle := length_advanceWhile test k L.advance
  rw [length_advance] at hle
  rw [hk, advanceWhile, if_pos h]
  show (advanceWhile test k L.advance).2.rest.length < k + 1
  omega

/-- **A step of the lexer ends within its bounds**: with a lexical error, or a result as wanted. -/
def Ends {α : Type} (P : α → Prop) : Except LexError α → Prop
  | .ok a => P a
  | .error e => e ≠ .fault

theorem ok_ends {α : Type} {P : α → Prop} {a : α} (h : P a) : Ends P (.ok a) := h

theorem Ends.mono {α : Type} {P Q : α → Prop} {x : Except LexError α} (h : Ends P x)
    (hle : ∀ a, P a → Q a) : Ends Q x := by
  cases x with
  | ok a => exact hle a h
  | error e => exact h

theorem Ends.bind {α β : Type} {P : α → Prop} {Q : β → Prop} {x : Except LexError α}
    {f : α → Except LexError β} (h : Ends P x) (hf : ∀ a, P a → Ends Q (f a)) :
    Ends Q (x >>= f) := by
  cases x with
  | ok a => exact hf a h
  | error e => exact h

theorem error_ends {α : Type} {P : α → Prop} (msg : String) (L : Lexer) :
    Ends P (error msg L) := by
  simp [Ends, error]

theorem skipComment_ends (hn : L.rest.length < n) :
    Ends (·.rest.length ≤ L.rest.length) (skipComment n L) := by
  induction n generalizing L with
  | zero => exact absurd hn (Nat.not_lt_zero _)
  | succ n ih =>
    unfold skipComment
    split
    · exact error_ends _ L
    · rename_i heof
      have hpos : 0 < L.rest.length := by
        cases hrest : L.rest with
        | nil => simp [eof, hrest] at heof
        | cons c cs => exact Nat.succ_pos _
      split
      · show L.advance.advance.rest.length ≤ _
        simp only [length_advance]
        omega
      · exact (ih (L := L.advance) (by simp; omega)).mono fun L' h => Nat.le_trans h (by simp)

theorem skipTriviaN_ends (hn : L.rest.length < n) :
    Ends (·.rest.length ≤ L.rest.length) (skipTriviaN n L) := by
  induction n generalizing L with
  | zero => exact absurd hn (Nat.not_lt_zero _)
  | succ n ih =>
    unfold skipTriviaN
    dsimp only
    split
    · rename_i hspace
      have hpos : 0 < L.rest.length := rest_pos fun h => by
        rw [h] at hspace
        exact absurd hspace (by decide)
      exact (ih (L := L.advance) (by simp; omega)).mono fun L' h => Nat.le_trans h (by simp)
    · split
      · rename_i hline
        have hc : L.peek 0 = '/' := by simp_all
        have hpos : 0 < L.rest.length := rest_pos (by rw [hc]; decide)
        have heof : L.eof = false := by simpa [eof] using List.ne_nil_of_length_pos hpos
        have hlt := length_advanceWhile_lt (fun L => !L.eof && L.peek 0 != '\n') (L := L)
          (by simp [hc, heof]) hpos
        exact (ih (by omega)).mono fun L' h => Nat.le_trans h (Nat.le_of_lt hlt)
      · split
        · rename_i hblock
          have hc : L.peek 0 = '/' := by simp_all
          have hpos : 0 < L.rest.length := rest_pos (by rw [hc]; decide)
          refine (skipComment_ends (L := L.advance.advance) (n := L.rest.length + 1)
            (by simp; omega)).bind fun L' hL' => ?_
          simp only [length_advance] at hL'
          exact (ih (L := L') (by omega)).mono fun L'' h => by omega
        · exact Nat.le_refl _

theorem oneOrTwo_ends {second : Char} {two : Tok × String} {one : Except LexError (Tok × String)}
    (htwo : two.1 ≠ .Eof) (hone : Ends (·.1 ≠ .Eof) one) :
    Ends (fun r => r.1 ≠ .Eof ∧ r.2.2.rest.length ≤ L.rest.length) (oneOrTwo second two one L) := by
  unfold oneOrTwo
  split
  · exact ⟨htwo, by simp⟩
  · exact hone.bind fun r hr => ⟨hr, Nat.le_refl _⟩

theorem lexPunct_ends (c : Char) :
    Ends (fun r => r.1 ≠ .Eof ∧ r.2.2.rest.length ≤ L.rest.length) (lexPunct c L) := by
  unfold lexPunct
  split
  iterate 11 exact ok_ends ⟨nofun, Nat.le_refl _⟩
  iterate 4
    refine oneOrTwo_ends ?_ (ok_ends ?_)
    · decide
    · decide
  iterate 2
    refine oneOrTwo_ends ?_ (error_ends _ L)
    decide
  exact error_ends _ L

theorem word_ne_eof (id : String) : (keywords.lookup id).getD .Ident ≠ .Eof := by
  have hkinds : ∀ p ∈ keywords, p.2 ≠ .Eof := by decide
  cases h : keywords.lookup id with
  | none => decide
  | some k =>
    obtain ⟨l₁, l₂, hmem, -⟩ := List.lookup_eq_some_iff.mp h
    exact hkinds (id, k) (by rw [hmem]; simp)

/-- **A token is not `Eof`**, and takes a character at least. -/
theorem lexToken_ends (h : L.eof = false) :
    Ends (fun r => r.1.kind ≠ .Eof ∧ r.2.rest.length < L.rest.length) (lexToken L) := by
  have hpos : 0 < L.rest.length := by
    refine List.length_pos_iff.mpr fun hnil => ?_
    simp [eof, hnil] at h
  unfold lexToken
  dsimp only
  split
  · rename_i hword
    refine ⟨word_ne_eof _, length_advanceWhile_lt _ ?_ hpos⟩
    · simp only [isWordStart, isWordChar, Char.isAlphanum, Bool.or_eq_true] at hword ⊢
      exact hword.imp_left .inl
  · split
    · rename_i hdigit
      exact ⟨nofun, length_advanceWhile_lt (fun L => (L.peek 0).isDigit) hdigit hpos⟩
    · refine (lexPunct_ends _ (L := L.advance)).bind fun r hr => ⟨hr.1, ?_⟩
      have hle := hr.2
      rw [length_advance] at hle
      show r.2.2.rest.length < _
      omega

/-- **What the lexer returns ends in its only `Eof`**, and it does return, or finds an error. -/
theorem tokenizeN_ends (hn : L.rest.length < n) : Ends Ended (tokenizeN n L) := by
  induction n generalizing L with
  | zero => exact absurd hn (Nat.not_lt_zero _)
  | succ n ih =>
    unfold tokenizeN
    refine (skipTriviaN_ends (Nat.lt_succ_self _)).bind fun L₁ hL₁ => ?_
    split
    · exact ok_ends ⟨[], _, rfl, rfl, by simp⟩
    · rename_i heof
      refine (lexToken_ends (Bool.eq_false_iff.mpr heof)).bind fun r hr => ?_
      refine (ih (L := r.2) (by omega)).bind fun ts hts => ok_ends ?_
      obtain ⟨body, eof, rfl, heof, hbody⟩ := hts
      exact ⟨r.1 :: body, eof, rfl, heof, List.forall_mem_cons.mpr ⟨hr.1, hbody⟩⟩

/-- **The lexer is total**: it returns tokens that end in their only `Eof`, or a lexical error. -/
theorem tokenize_ended (src : List Char) :
    (∃ ts, tokenize src = .ok ts ∧ Ended ts) ∨
      ∃ msg, tokenize src = .error (.lexicalError msg) := by
  have h : Ends Ended (tokenize src) := tokenizeN_ends (Nat.lt_succ_self _)
  cases hres : tokenize src with
  | ok ts =>
    rw [hres] at h
    exact .inl ⟨ts, rfl, h⟩
  | error e =>
    rw [hres] at h
    cases e with
    | lexicalError msg => exact .inr ⟨msg, rfl⟩
    | fault => exact absurd rfl h

end Ends

end Lexer

end ToyC
