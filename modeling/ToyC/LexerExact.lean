import Mathlib.Data.List.TakeWhile
import ToyC.LexerLayout

/-!
# The texts the lexer accepts

Which texts are read as which tokens is said here without the lexer (`Reads`): a text is white space
and comments, a lexeme, and more of the same, and every lexeme is the longest one that stands there
– what follows it does not go on with it (`Lexeme.EndsBefore`). At the end of the text there may be
a comment whose line has no end.

The lexer returns some tokens exactly if the text reads as them (`tokenize_iff`). So every token it
returns is a lexeme of the text at the line and column it claims to be at, nothing of the text is
lost but white space and comments, and any text that can be cut into lexemes is accepted.
-/

namespace ToyC

open Lexer

/-- **White space and comments at the end of a text**, where a line needs no end. -/
def IsLastTrivia (cs : List Char) : Prop :=
  IsTrivia cs ∨ ∃ gap body, cs = gap ++ '/' :: '/' :: body ∧ IsTrivia gap ∧ '\n' ∉ body

/-- **A text reads as some tokens**, behind another one. -/
inductive Reads : List Char → List Char → List Token → Prop where
  | eof {before gap : List Char} (hgap : IsLastTrivia gap) :
      Reads before gap
        [{ kind := .Eof, line := lineOf (before ++ gap), col := colOf (before ++ gap) }]
  | token {before gap rest : List Char} {l : Lexeme} {ts : List Token} (hgap : IsTrivia gap)
      (hend : l.EndsBefore rest) (h : Reads (before ++ gap ++ l.text) rest ts) :
      Reads before (gap ++ (l.text ++ rest)) (l.token (before ++ gap) :: ts)

variable {before rest : List Char}

/-! ## What reads as tokens is accepted -/

/-- The end of a text is skipped. -/
theorem skipTriviaN_last {gap : List Char} {n : Nat} (hgap : IsLastTrivia gap)
    (hn : gap.length < n) :
    skipTriviaN n (Lexer.inText before gap) = .ok (Lexer.inText (before ++ gap) []) := by
  rcases hgap with hgap | ⟨gap, body, rfl, hgap, hbody⟩
  · have hskip : skipTriviaN n (Lexer.inText before (gap ++ [])) = _ :=
      skipTriviaN_inText hgap hn trivial
    rwa [List.append_nil] at hskip
  · obtain ⟨k, hk, heq⟩ := skipTriviaN_trivia before ('/' :: '/' :: body) n 2 hgap
      (by simp at hn; omega)
    obtain ⟨k, rfl⟩ : ∃ m, k = m + 2 := ⟨k - 2, by omega⟩
    have hloop : advanceWhile (fun L => !L.eof && L.peek 0 != '\n')
        ('/' :: '/' :: body).length (Lexer.inText (before ++ gap) ('/' :: '/' :: body ++ [])) =
          ('/' :: '/' :: body, Lexer.inText (before ++ gap ++ '/' :: '/' :: body) []) := by
      refine advanceWhile_inText (fun c hc before rest => ?_) (fun before => by simp)
        (Nat.le_refl _)
      have hne : c ≠ '\n' := by
        rintro rfl
        simp [hbody] at hc
      simp [hne]
    rw [List.append_nil] at hloop
    have hstop : StartsToken [] := trivial
    rw [heq, skipTriviaN]
    simp only [inText_peek_zero, inText_peek_one, inText_rest]
    simp only [show isSpace '/' = false from rfl, Bool.false_eq_true, if_false,
      beq_self_eq_true, Bool.and_self, if_true]
    rw [hloop, skipTriviaN_stop hstop]
    simp

/-- **What reads as tokens is accepted.** -/
theorem Reads.tokenizeN {text : List Char} {ts : List Token} (h : Reads before text ts) {n : Nat}
    (hn : text.length < n) : Lexer.tokenizeN n (Lexer.inText before text) = .ok ts := by
  induction h generalizing n with
  | eof hgap =>
    obtain ⟨n, rfl⟩ : ∃ k, n = k + 1 := ⟨n - 1, by omega⟩
    rw [Lexer.tokenizeN, skipTrivia, inText_rest, skipTriviaN_last hgap (Nat.lt_succ_self _)]
    rfl
  | @token before gap rest l ts hgap hend _ ih =>
    obtain ⟨n, rfl⟩ : ∃ k, n = k + 1 := ⟨n - 1, by omega⟩
    obtain ⟨d, ds, hl, -⟩ := l.exists_head
    have hlen : rest.length < n := by
      simp [hl] at hn
      omega
    rw [Lexer.tokenizeN, skipTrivia, inText_rest, skipTriviaN_inText hgap
      (by rw [List.length_append]; omega) (l.startsToken hend), ok_bind, if_neg (by simp [hl]),
      lexToken_lexeme l hend, ok_bind]
    dsimp only
    rw [ih hlen]
    rfl

/-! ## What is accepted reads as the tokens -/

/-- **A loop over the characters that pass a test**, on any text. -/
theorem advanceWhile_takeWhile {test : Lexer → Bool} {p : Char → Bool}
    (htest : ∀ c before rest, test (Lexer.inText before (c :: rest)) = p c)
    (hend : ∀ before, test (Lexer.inText before []) = false) {n : Nat} (hn : rest.length ≤ n) :
    advanceWhile test n (Lexer.inText before rest) =
      (rest.takeWhile p, Lexer.inText (before ++ rest.takeWhile p) (rest.dropWhile p)) := by
  have hstop : ∀ before, test (Lexer.inText before (rest.dropWhile p)) = false := fun before => by
    cases hd : rest.dropWhile p with
    | nil => exact hend before
    | cons c cs =>
      have hnot := List.head_dropWhile_not p (l := rest) (by simp [hd])
      rw [htest]
      simpa [hd] using hnot
  have hloop : advanceWhile test n (Lexer.inText before (rest.takeWhile p ++ rest.dropWhile p)) =
      (rest.takeWhile p, Lexer.inText (before ++ rest.takeWhile p) (rest.dropWhile p)) :=
    advanceWhile_inText
      (fun c hc before rest => (htest c before rest).trans (List.mem_takeWhile_imp hc)) hstop
      (Nat.le_trans (List.takeWhile_prefix p).length_le hn)
  rwa [List.takeWhile_append_dropWhile] at hloop

/-- A block comment that ends. -/
theorem skipComment_sound {n : Nat} {L : Lexer}
    (h : skipComment n (Lexer.inText before rest) = .ok L) :
    ∃ body rest', rest = body ++ '*' :: '/' :: rest' ∧ ¬ ['*', '/'] <:+: body ∧
      L = Lexer.inText (before ++ body ++ ['*', '/']) rest' := by
  induction n generalizing before rest with
  | zero => cases h
  | succ n ih =>
    cases rest with
    | nil => cases h
    | cons c rest =>
      rw [skipComment] at h
      simp only [inText_eof, List.isEmpty_cons, Bool.false_eq_true, if_false, inText_advance] at h
      split at h
      · rename_i hend
        obtain ⟨hc, hd⟩ := Bool.and_eq_true_iff.mp hend
        obtain rfl : c = '*' := by simpa using hc
        cases rest with
        | nil =>
          exfalso
          simp [peek, Lexer.inText] at hd
        | cons d rest =>
          obtain rfl : d = '/' := by simpa using hd
          cases h
          exact ⟨[], rest, rfl, by simp, by simp⟩
      · rename_i hend
        obtain ⟨body, rest', rfl, hbody, rfl⟩ := ih h
        refine ⟨c :: body, rest', rfl, fun hin => ?_, by simp⟩
        rcases List.infix_cons_iff.mp hin with ⟨tail, heq⟩ | hin
        · obtain ⟨rfl, hrest⟩ := List.cons_eq_cons.mp heq
          rw [← show '/' :: tail = body from hrest] at hend
          exact hend rfl
        · exact hbody hin

theorem IsTrivia.of_newline {cs : List Char} (h : IsTrivia ('\n' :: cs)) : IsTrivia cs := by
  cases h with
  | space _ h => exact h

theorem IsLastTrivia.of_newline {cs : List Char} (h : IsLastTrivia ('\n' :: cs)) :
    IsLastTrivia cs := by
  rcases h with h | ⟨gap, body, heq, hgap, hbody⟩
  · exact .inl h.of_newline
  · cases gap with
    | nil => exact absurd (List.cons_eq_cons.mp heq).1 (by decide)
    | cons c gap =>
      obtain ⟨rfl, rfl⟩ := List.cons_eq_cons.mp heq
      exact .inr ⟨gap, body, rfl, hgap.of_newline, hbody⟩

/-- What may stand in front of a separator may stand in front of the last one. -/
theorem IsLastTrivia.prepend {front cs : List Char}
    (hfront : ∀ gap, IsTrivia gap → IsTrivia (front ++ gap)) (h : IsLastTrivia cs) :
    IsLastTrivia (front ++ cs) := by
  rcases h with h | ⟨gap, body, rfl, hgap, hbody⟩
  · exact .inl (hfront cs h)
  · exact .inr ⟨front ++ gap, body, by simp, hfront gap hgap, hbody⟩

/-- A block comment is a separator by itself. -/
theorem IsTrivia.prepend_block {body gap : List Char} (hbody : ¬ ['*', '/'] <:+: body)
    (h : IsTrivia gap) : IsTrivia ('/' :: '*' :: (body ++ ['*', '/']) ++ gap) := by
  have hblock := IsTrivia.block hbody h
  simpa using hblock

/-- A line with a comment is a separator by itself. -/
theorem IsTrivia.prepend_line {body gap : List Char} (hbody : '\n' ∉ body) (h : IsTrivia gap) :
    IsTrivia ('/' :: '/' :: (body ++ ['\n']) ++ gap) := by
  have hline := IsTrivia.line hbody h
  simpa using hline

/-- **A comment up to the end of its line**, or of the text, and what is skipped behind it. -/
theorem comment_isLastTrivia {text gap rest : List Char}
    (hrest : text.dropWhile (· != '\n') = gap ++ rest) (hstart : StartsToken rest)
    (hlast : IsLastTrivia gap) (hgap : rest ≠ [] → IsTrivia gap) :
    IsLastTrivia ('/' :: '/' :: text.takeWhile (· != '\n') ++ gap) ∧
      (rest ≠ [] → IsTrivia ('/' :: '/' :: text.takeWhile (· != '\n') ++ gap)) := by
  have hbody : '\n' ∉ text.takeWhile (· != '\n') := fun hmem => by
    simpa using List.mem_takeWhile_imp hmem
  -- What the line ends with is its newline.
  have hhead : ∀ c cs, gap ++ rest = c :: cs → c = '\n' := fun c cs heq => by
    have hne := List.head_dropWhile_not (· != '\n') (l := text) (by rw [hrest, heq]; simp)
    simpa [hrest, heq] using hne
  cases gap with
  | nil =>
    cases rest with
    | nil => exact ⟨.inr ⟨[], _, by simp, .nil, hbody⟩, fun hne => absurd rfl hne⟩
    | cons c rest =>
      obtain rfl := hhead c rest rfl
      exact absurd hstart.1 (by decide)
  | cons c gap =>
    obtain rfl := hhead c (gap ++ rest) rfl
    have hline := hlast.of_newline.prepend fun _ => IsTrivia.prepend_line hbody
    refine ⟨by simpa using hline, fun hne => ?_⟩
    have hline := (hgap hne).of_newline.prepend_line hbody
    simpa using hline

/-- **What is skipped** is white space and comments, up to something else. -/
theorem skipTriviaN_sound {n : Nat} {L : Lexer}
    (h : skipTriviaN n (Lexer.inText before rest) = .ok L) :
    ∃ gap rest', rest = gap ++ rest' ∧ L = Lexer.inText (before ++ gap) rest' ∧
      StartsToken rest' ∧ IsLastTrivia gap ∧ (rest' ≠ [] → IsTrivia gap) := by
  induction n generalizing before rest with
  | zero => cases h
  | succ n ih =>
    cases rest with
    | nil =>
      cases h
      exact ⟨[], [], rfl, by simp, trivial, .inl .nil, fun _ => .nil⟩
    | cons c rest =>
      rw [skipTriviaN] at h
      simp only [inText_peek_zero, inText_advance, inText_rest] at h
      split at h
      · rename_i hc
        obtain ⟨gap, rest', rfl, rfl, hstart, hlast, hgap⟩ := ih h
        refine ⟨c :: gap, rest', rfl, by simp, hstart, ?_, fun hne => .space hc (hgap hne)⟩
        rcases hlast with hlast | ⟨gap', body, rfl, hgap', hbody⟩
        · exact .inl (.space hc hlast)
        · exact .inr ⟨c :: gap', body, rfl, .space hc hgap', hbody⟩
      · rename_i hspace
        cases rest with
        | nil =>
          have hstop : StartsToken [c] := ⟨Bool.eq_false_iff.mpr hspace, fun _ d hd => by cases hd⟩
          have hone : (Lexer.inText before [c]).peek 1 = '\x00' := rfl
          rw [hone] at h
          simp only [show ('\x00' == '/') = false from rfl, show ('\x00' == '*') = false from rfl,
            Bool.and_false, Bool.false_eq_true, if_false] at h
          cases h
          exact ⟨[], [c], rfl, by simp, hstop, .inl .nil, fun _ => .nil⟩
        | cons d rest =>
          rw [inText_peek_one] at h
          split at h
          · -- The rest of the line, which is skipped up to its end.
            rename_i hline
            obtain ⟨rfl, rfl⟩ : c = '/' ∧ d = '/' := by simpa using hline
            rw [advanceWhile_takeWhile (p := (· != '\n')) (fun c before rest => by simp)
              (fun before => by simp) (Nat.le_refl _)] at h
            obtain ⟨gap, rest', hrest, rfl, hstart, hlast, hgap⟩ := ih h
            have hrest : rest.dropWhile (· != '\n') = gap ++ rest' := hrest
            obtain ⟨hline, hlines⟩ := comment_isLastTrivia hrest hstart hlast hgap
            refine ⟨_, rest', ?_, by simp, hstart, hline, hlines⟩
            rw [List.append_assoc, ← hrest]
            simp
          · split at h
            · rename_i hblock
              obtain ⟨rfl, rfl⟩ : c = '/' ∧ d = '*' := by simpa using hblock
              obtain ⟨L', hskip, h⟩ := bind_eq_ok.mp h
              rw [inText_advance] at hskip
              obtain ⟨body, rest', rfl, hbody, rfl⟩ := skipComment_sound hskip
              obtain ⟨gap, rest'', rfl, rfl, hstart, hlast, hgap⟩ := ih h
              exact ⟨_, rest'', by simp, by simp, hstart,
                hlast.prepend fun _ => IsTrivia.prepend_block hbody,
                fun hne => (hgap hne).prepend_block hbody⟩
            · rename_i hline hblock
              cases h
              refine ⟨[], _, rfl, by simp, ⟨Bool.eq_false_iff.mpr hspace, ?_⟩, .inl .nil,
                fun _ => .nil⟩
              rintro rfl e he
              obtain rfl := Option.some.inj he
              exact ⟨by simpa using hline, by simpa using hblock⟩

/-- The lexeme of a kind of token that has one text. -/
def Lexeme.fixed (k : Tok) (hk : isFixed k = true) : Lexeme where
  kind := k
  text := (tokName k).toList
  ok := by
    cases k with
    | Ident | Number | Eof => cases hk
    | _ => rfl

/-- The kinds of token that are words are in the table of the keywords, and no others. -/
theorem lookup_keywords_fixed {k : Tok} {d : Char} {cs : List Char}
    (htext : (tokName k).toList = d :: cs) (hk : isFixed k) (hd : isWordStart d) :
    keywords.lookup (tokName k) = some k := by
  cases k with
  | Ident | Number | Eof => cases hk
  | Kw_int | Kw_void | Kw_const | Kw_if | Kw_else | Kw_while | Kw_break | Kw_continue
  | Kw_return => decide
  | _ =>
    obtain ⟨rfl, -⟩ := List.cons_eq_cons.mp htext
    exact absurd hd (by decide)

/-- **A word is a keyword or an identifier**, and goes on as long as its characters do. -/
theorem exists_word {text cs : List Char} {d : Char} (htext : text = d :: cs)
    (hd : isWordStart d) (hcs : ∀ d ∈ cs, isWordChar d) :
    ∃ l : Lexeme, l.text = text ∧ l.kind = (keywords.lookup (String.ofList text)).getD .Ident ∧
      l.kind ≠ .Number ∧ ∀ c, continues l.kind c = isWordChar c := by
  cases hlook : keywords.lookup (String.ofList text) with
  | none =>
    have hfixed : ∀ k, isFixed k → text ≠ (tokName k).toList := fun k hk heq => by
      rw [heq, String.ofList_toList, lookup_keywords_fixed (heq.symm.trans htext) hk hd] at hlook
      cases hlook
    have hne : Tok.Ident ≠ .Number := by decide
    exact ⟨⟨.Ident, text, ⟨d, cs, htext, hd, hcs⟩, hfixed⟩, rfl, rfl, hne, fun _ => rfl⟩
  | some k =>
    have hkeys : ∀ p ∈ keywords, isFixed p.2 = true ∧ p.1 = tokName p.2 ∧ p.2 ≠ .Number := by
      decide
    have hwords : ∀ p ∈ keywords, ∀ c, continues p.2 c = isWordChar c := by
      intro p hp c
      simp only [keywords, List.mem_cons, List.not_mem_nil, or_false] at hp
      rcases hp with rfl | rfl | rfl | rfl | rfl | rfl | rfl | rfl | rfl <;> rfl
    obtain ⟨l₁, l₂, hmem, -⟩ := List.lookup_eq_some_iff.mp hlook
    have hp : (String.ofList text, k) ∈ keywords := by
      rw [hmem]
      simp
    obtain ⟨hk, hname, hne⟩ := hkeys _ hp
    refine ⟨Lexeme.fixed k hk, ?_, rfl, hne, hwords _ hp⟩
    show (tokName k).toList = text
    rw [← show String.ofList text = tokName k from hname, String.toList_ofList]

/-- An operator of one or two characters. -/
theorem oneOrTwo_sound {second : Char} {two : Tok × String} {one : Except LexError (Tok × String)}
    {k : Tok} {s : String} {L : Lexer} (hzero : second ≠ '\x00')
    (h : oneOrTwo second two one (Lexer.inText before rest) = .ok (k, s, L)) :
    (∃ rest', rest = second :: rest' ∧ two = (k, s) ∧
      L = Lexer.inText (before ++ [second]) rest') ∨
    (∀ d ∈ rest.head?, (d == second) = false) ∧ one = .ok (k, s) ∧
      L = Lexer.inText before rest := by
  unfold oneOrTwo at h
  split at h
  · rename_i hpeek
    cases rest with
    | nil => exact absurd (beq_iff_eq.mp hpeek).symm hzero
    | cons c rest =>
      obtain rfl : c = second := by simpa using hpeek
      cases h
      exact .inl ⟨rest, rfl, rfl, by simp⟩
  · rename_i hpeek
    obtain ⟨⟨k', s'⟩, hone, h⟩ := bind_eq_ok.mp h
    cases h
    refine .inr ⟨fun d hd => ?_, hone, rfl⟩
    cases rest with
    | nil => cases hd
    | cons c rest =>
      obtain rfl := Option.some.inj hd
      simpa using hpeek

/-- **An operator or a punctuation mark** that is read is the longest one. -/
theorem lexPunct_sound {k : Tok} {s : String} {L : Lexer} (hstart : StartsToken (c :: rest))
    (h : lexPunct c (Lexer.inText (before ++ [c]) rest) = .ok (k, s, L)) :
    ∃ (l : Lexeme) (rest' : List Char), isFixed l.kind ∧ c :: rest = l.text ++ rest' ∧
      k = l.kind ∧ s = String.ofList l.text ∧ L = Lexer.inText (before ++ l.text) rest' ∧
      l.EndsBefore rest' := by
  unfold lexPunct at h
  split at h
  case h_1 | h_2 | h_3 | h_4 | h_5 | h_6 | h_7 | h_8 | h_9 | h_11 =>
    cases h
    exact ⟨Lexeme.fixed _ rfl, rest, rfl, rfl, rfl, rfl, rfl, fun _ _ => rfl⟩
  case h_10 =>
    cases h
    refine ⟨Lexeme.fixed .Slash rfl, rest, rfl, rfl, rfl, rfl, rfl, fun d hd => ?_⟩
    obtain ⟨hline, hblock⟩ := hstart.2 rfl d hd
    simp [Lexeme.fixed, continues, hline, hblock]
  case h_12 | h_13 | h_14 | h_15 =>
    rcases oneOrTwo_sound (by decide) h with ⟨rest', rfl, heq, rfl⟩ | ⟨hend, heq, rfl⟩
    · cases heq
      exact ⟨Lexeme.fixed _ rfl, rest', rfl, rfl, rfl, rfl, by simp [Lexeme.fixed, tokName],
        fun _ _ => rfl⟩
    · cases heq
      exact ⟨Lexeme.fixed _ rfl, rest, rfl, rfl, rfl, rfl, rfl, hend⟩
  case h_16 | h_17 =>
    rcases oneOrTwo_sound (by decide) h with ⟨rest', rfl, heq, rfl⟩ | ⟨-, heq, -⟩
    · cases heq
      exact ⟨Lexeme.fixed _ rfl, rest', rfl, rfl, rfl, rfl, by simp [Lexeme.fixed, tokName],
        fun _ _ => rfl⟩
    · cases heq
  case h_18 => cases h

/-- **The token under the cursor is the longest lexeme there**. -/
theorem lexToken_sound {t : Token} {L : Lexer} (hstart : StartsToken rest) (hne : rest ≠ [])
    (h : lexToken (Lexer.inText before rest) = .ok (t, L)) :
    ∃ (l : Lexeme) (rest' : List Char), rest = l.text ++ rest' ∧ t = l.token before ∧
      L = Lexer.inText (before ++ l.text) rest' ∧ l.EndsBefore rest' := by
  obtain ⟨c, rest, rfl⟩ := List.exists_cons_of_ne_nil hne
  -- Behind the characters that pass a test there is one that does not.
  have hstop : ∀ p : Char → Bool, ∀ d ∈ ((c :: rest).dropWhile p).head?, p d = false :=
    fun p d hd => by
      have hnone := List.head?_dropWhile_not p (c :: rest)
      rw [Option.mem_def.mp hd] at hnone
      simpa using hnone
  rw [lexToken, inText_peek_zero, inText_rest] at h
  split at h
  · rename_i hword
    have hchar : isWordChar c := by
      simp only [isWordStart, isWordChar, Char.isAlphanum, Bool.or_eq_true] at hword ⊢
      exact hword.imp_left .inl
    rw [advanceWhile_takeWhile (p := isWordChar) (fun _ _ _ => rfl) (fun _ => rfl)
      (Nat.le_refl _)] at h
    cases h
    have htext : (c :: rest).takeWhile isWordChar = c :: rest.takeWhile isWordChar := by
      simp [hchar]
    obtain ⟨l, hl, hkind, hnum, hcont⟩ := exists_word htext hword
      fun d hd => List.mem_takeWhile_imp hd
    refine ⟨l, (c :: rest).dropWhile isWordChar, ?_, ?_, by rw [hl], fun d hd => ?_⟩
    · rw [hl, List.takeWhile_append_dropWhile]
    · rw [Lexeme.token, if_neg hnum, hkind, hl]
      rfl
    · rw [hcont]
      exact hstop isWordChar d hd
  · split at h
    · rename_i hdigit
      rw [advanceWhile_takeWhile (p := Char.isDigit) (fun _ _ _ => rfl) (fun _ => rfl)
        (Nat.le_refl _)] at h
      cases h
      have htext : (c :: rest).takeWhile Char.isDigit ≠ [] := by simp [hdigit]
      exact ⟨⟨.Number, _, htext, fun d hd => List.mem_takeWhile_imp hd⟩,
        (c :: rest).dropWhile Char.isDigit, (List.takeWhile_append_dropWhile).symm, rfl, rfl,
        hstop Char.isDigit⟩
    · rw [inText_advance] at h
      obtain ⟨⟨k, s, L'⟩, hpunct, h⟩ := bind_eq_ok.mp h
      cases h
      obtain ⟨l, rest', hfixed, htext, rfl, rfl, rfl, hend⟩ := lexPunct_sound hstart hpunct
      have hnum : l.kind ≠ .Number := by
        intro hnum
        rw [hnum] at hfixed
        cases hfixed
      refine ⟨l, rest', htext, ?_, rfl, hend⟩
      rw [Lexeme.token, if_neg hnum]
      rfl

/-- **What is accepted reads as the tokens.** -/
theorem tokenizeN_sound {ts : List Token} {n : Nat}
    (h : Lexer.tokenizeN n (Lexer.inText before rest) = .ok ts) : Reads before rest ts := by
  induction n generalizing before rest ts with
  | zero => cases h
  | succ n ih =>
    rw [Lexer.tokenizeN] at h
    obtain ⟨L, hskip, h⟩ := bind_eq_ok.mp h
    obtain ⟨gap, rest, rfl, rfl, hstart, hlast, hgap⟩ := skipTriviaN_sound hskip
    split at h
    · rename_i heof
      obtain rfl : rest = [] := by simpa using heof
      cases h
      rw [List.append_nil]
      exact .eof hlast
    · rename_i heof
      have hne : rest ≠ [] := by simpa using heof
      obtain ⟨⟨t, L⟩, htoken, h⟩ := bind_eq_ok.mp h
      obtain ⟨l, rest, rfl, rfl, rfl, hend⟩ := lexToken_sound hstart hne htoken
      obtain ⟨ts', hts, h⟩ := bind_eq_ok.mp h
      cases h
      exact .token (hgap hne) hend (ih hts)

/-- **The lexer returns some tokens exactly if the text reads as them**: cut at every place into
the longest lexeme there, with white space and comments between the lexemes. -/
theorem tokenize_iff {src : List Char} {ts : List Token} :
    tokenize src = .ok ts ↔ Reads [] src ts :=
  ⟨fun h => tokenizeN_sound h, fun h => h.tokenizeN (Nat.lt_succ_self _)⟩

end ToyC
