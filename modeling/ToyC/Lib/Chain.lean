import ToyC.Lib.Outcome

/-!
# Left-associative operator chains

A grammar rule `A → B | A op B` is left recursive, and a recursive-descent
parser turns it into a loop: read one `B`, and as long as the next token is an
operator of the rule, read another one and build the node with what has been
built so far on its left.

This module is about that loop, over an arbitrary token type, an arbitrary
error type and an arbitrary parser for the operands. `chain_sound` says that
what the loop returns is derivable from the rule, and `chain_of_node` is
the step that carries a derivation backwards through the loop: it does not
speak of the whole derivation, so that a caller whose operands are derived
mutually with the chain can use it inside one induction.

The loop is bounded by the number of tokens left. It never meets that bound
when the operand parser only ever shortens the input (`Shrinks`), which is
what `chainLoop_fuel` says.

The last section is about parsers that never answer `fault`, on inputs that keep an invariant –
that they end in a mark which is never consumed, for one. `Consumes` says so of a parser that
reads something whenever it succeeds; it is the promise that makes loops and recursions end.
-/

namespace Chain

variable {τ α ε : Type}

/-- A parser: it reads a prefix of the tokens, and returns what it built with
the tokens left. -/
abbrev Parse (τ ε α : Type) := List τ → Except ε (α × List τ)

/-- The parser never returns more tokens than it was given. -/
def Shrinks (p : Parse τ ε α) : Prop :=
  ∀ ⦃ts a rest⦄, p ts = .ok (a, rest) → rest.length ≤ ts.length

/-- The loop of a chain: `lhs` is what has been built so far, `op` says which
tokens continue the chain and with which node. Running out of tokens, or of the
bound, is `fault`. -/
def chainLoop (fault : ε) (sub : Parse τ ε α) (op : τ → Option (α → α → α)) :
    Nat → α → Parse τ ε α
  | 0, _, _ => .error fault
  | _ + 1, _, [] => .error fault
  | n + 1, lhs, t :: ts =>
    match op t with
    | none => .ok (lhs, t :: ts)
    | some mk => do
      let (rhs, rest) ← sub ts
      chainLoop fault sub op n (mk lhs rhs) rest

/-- **The chain**: one operand, then the loop, bounded by the tokens left. -/
def chain (fault : ε) (sub : Parse τ ε α) (op : τ → Option (α → α → α)) :
    Parse τ ε α := fun ts => do
  let (lhs, rest) ← sub ts
  chainLoop fault sub op rest.length lhs rest

variable {fault : ε} {sub : Parse τ ε α} {op : τ → Option (α → α → α)}

/-- A token that is no operator of the chain ends the loop. -/
theorem chainLoop_stop {n : Nat} {lhs : α} {t : τ} {ts : List τ} (h : op t = none) :
    chainLoop fault sub op (n + 1) lhs (t :: ts) = .ok (lhs, t :: ts) := by
  simp [chainLoop, h]

/-- An operator followed by an operand takes the loop one node further. -/
theorem chainLoop_step {n : Nat} {lhs rhs : α} {t : τ} {ts rest : List τ}
    {mk : α → α → α} (hop : op t = some mk) (hsub : sub ts = .ok (rhs, rest)) :
    chainLoop fault sub op (n + 1) lhs (t :: ts)
      = chainLoop fault sub op n (mk lhs rhs) rest := by
  simp only [chainLoop, hop, hsub]
  rfl

/-- **The bound is never met**: from as many steps as there are tokens on, the
loop does not depend on the bound. -/
theorem chainLoop_fuel (hs : Shrinks sub) {m n : Nat} {lhs : α} {ts : List τ}
    (hm : ts.length ≤ m) (hmn : m ≤ n) :
    chainLoop fault sub op m lhs ts = chainLoop fault sub op n lhs ts := by
  induction m generalizing n lhs ts with
  | zero =>
    obtain rfl : ts = [] := List.length_eq_zero_iff.mp (Nat.le_zero.mp hm)
    cases n <;> rfl
  | succ m ih =>
    obtain ⟨n, rfl⟩ : ∃ n', n = n' + 1 := ⟨n - 1, by omega⟩
    cases ts with
    | nil => rfl
    | cons t ts =>
      cases hop : op t with
      | none => rw [chainLoop_stop hop, chainLoop_stop hop]
      | some mk =>
        cases hsub : sub ts with
        | error e => simp [chainLoop, hop, hsub, bind, Except.bind]
        | ok r =>
          obtain ⟨rhs, rest⟩ := r
          have hlen : rest.length ≤ ts.length := hs hsub
          rw [List.length_cons] at hm
          rw [chainLoop_step hop hsub, chainLoop_step hop hsub]
          exact ih (by omega) (by omega)

/-! ## The loop and the rule

`D` is what the operands derive and `R` what the chain derives: `R` holds of
every operand, and of a node built from a chain, an operator and an operand. -/

section Rule

variable {D R : List τ → α → Prop}

/-- A parser is sound for a relation when what it returns is related to the
tokens it read, and the tokens it leaves are those that follow. -/
def Sound (p : Parse τ ε α) (D : List τ → α → Prop) : Prop :=
  ∀ ⦃ts a rest⦄, p ts = .ok (a, rest) → ∃ used, ts = used ++ rest ∧ D used a

/-- A sound parser only shortens the input. -/
theorem Sound.shrinks {p : Parse τ ε α} (h : Sound p D) : Shrinks p := by
  intro ts a rest hp
  obtain ⟨used, rfl, -⟩ := h hp
  simp

/-- **The loop builds derivations of the rule**: from a chain already read, it
returns a longer chain. -/
theorem chainLoop_sound (hD : Sound sub D)
    (hstep : ∀ {ts₁ a t mk ts₂ b}, R ts₁ a → op t = some mk → D ts₂ b →
      R (ts₁ ++ t :: ts₂) (mk a b))
    {n : Nat} {before : List τ} {lhs a : α} {ts rest : List τ}
    (hR : R before lhs) (h : chainLoop fault sub op n lhs ts = .ok (a, rest)) :
    ∃ used, ts = used ++ rest ∧ R (before ++ used) a := by
  induction n generalizing before lhs ts with
  | zero => cases h
  | succ n ih =>
    cases ts with
    | nil => cases h
    | cons t ts =>
      cases hop : op t with
      | none =>
        rw [chainLoop_stop hop] at h
        cases h
        exact ⟨[], rfl, by rwa [List.append_nil]⟩
      | some mk =>
        cases hsub : sub ts with
        | error e => simp [chainLoop, hop, hsub, bind, Except.bind] at h
        | ok r =>
          obtain ⟨rhs, rest'⟩ := r
          rw [chainLoop_step hop hsub] at h
          obtain ⟨usedRhs, rfl, hDrhs⟩ := hD hsub
          obtain ⟨used, rfl, hRa⟩ := ih (hstep hR hop hDrhs) h
          exact ⟨t :: usedRhs ++ used, by simp, by simpa using hRa⟩

/-- **A chain is sound for the rule** when its operands are sound. -/
theorem chain_sound (hD : Sound sub D) (hbase : ∀ {ts a}, D ts a → R ts a)
    (hstep : ∀ {ts₁ a t mk ts₂ b}, R ts₁ a → op t = some mk → D ts₂ b →
      R (ts₁ ++ t :: ts₂) (mk a b)) :
    Sound (chain fault sub op) R := by
  intro ts a rest h
  cases hsub : sub ts with
  | error e => simp [chain, hsub, bind, Except.bind] at h
  | ok r =>
    obtain ⟨lhs, rest'⟩ := r
    simp only [chain, hsub, bind, Except.bind] at h
    obtain ⟨used₁, rfl, hDl⟩ := hD hsub
    obtain ⟨used₂, rfl, hRa⟩ := chainLoop_sound hD hstep (hbase hDl) h
    exact ⟨used₁ ++ used₂, by simp, hRa⟩

end Rule

/-- The chain reads an operand and goes on with the loop. -/
theorem chain_of_operand {ts rest : List τ} {a : α} (h : sub ts = .ok (a, rest)) :
    chain fault sub op ts = chainLoop fault sub op rest.length a rest := by
  simp only [chain, h]
  rfl

/-- **One node of a derivation, read by the chain.** If the chain reads its left
part and stands in the loop at the operator, and the operand parser reads the
right part, the chain stands in the loop after the whole node. -/
theorem chain_of_node (hs : Shrinks sub) {ts ts₂ rest : List τ} {t : τ} {a b : α}
    {mk : α → α → α}
    (hleft : chain fault sub op ts
      = chainLoop fault sub op (t :: ts₂).length a (t :: ts₂))
    (hop : op t = some mk) (hright : sub ts₂ = .ok (b, rest)) :
    chain fault sub op ts = chainLoop fault sub op rest.length (mk a b) rest := by
  rw [hleft, List.length_cons, chainLoop_step hop hright]
  exact (chainLoop_fuel hs (Nat.le_refl _) (hs hright)).symm

/-- The loop stops in front of a token that does not continue the chain. -/
theorem chainLoop_length_stop {a : α} {t : τ} {ts : List τ} (h : op t = none) :
    chainLoop fault sub op (t :: ts).length a (t :: ts) = .ok (a, t :: ts) :=
  chainLoop_stop h

/-! ## Parsers that never fault -/

section Consumes

variable {β : Type} {I : List τ → Prop} {m n k : Nat}

/-- **A computation does not fault**, and when it succeeds it leaves at most `m` tokens, which
keep the invariant. -/
def Leaves (fault : ε) (I : List τ → Prop) (m : Nat) (x : Except ε (α × List τ)) : Prop :=
  match x with
  | .ok (_, rest) => I rest ∧ rest.length ≤ m
  | .error e => e ≠ fault

theorem Leaves.mono {x : Except ε (α × List τ)} (h : Leaves fault I m x) (hle : m ≤ k) :
    Leaves fault I k x := by
  cases x with
  | ok r => exact ⟨h.1, Nat.le_trans h.2 hle⟩
  | error e => exact h

/-- **The rule for sequencing.** -/
theorem Leaves.bind {x : Except ε (α × List τ)} {f : α × List τ → Except ε (β × List τ)}
    (hx : Leaves fault I m x)
    (hf : ∀ a rest, I rest → rest.length ≤ m → Leaves fault I k (f (a, rest))) :
    Leaves fault I k (x >>= f) := by
  cases x with
  | ok r => exact hf r.1 r.2 hx.1 hx.2
  | error e => exact hx

/-- **A parser consumes a token or fails**, without fault, on up to `n` tokens. -/
def Consumes (fault : ε) (I : List τ → Prop) (n : Nat) (p : Parse τ ε α) : Prop :=
  ∀ ⦃ts m⦄, I ts → ts.length ≤ m + 1 → m < n → Leaves fault I m (p ts)

variable (hne : ∀ ts, I ts → ts ≠ []) (hop : ∀ t ts mk, op t = some mk → I (t :: ts) → I ts)
include hne hop

/-- The loop of a chain does not fault when its operands consume something. -/
theorem chainLoop_leaves (hsub : Consumes fault I n sub) {lhs : α} {ts : List τ} (hts : I ts)
    (hk : ts.length ≤ k) (hn : ts.length ≤ n) :
    Leaves fault I ts.length (chainLoop fault sub op k lhs ts) := by
  induction k generalizing lhs ts with
  | zero => exact absurd (List.length_eq_zero_iff.mp (Nat.le_zero.mp hk)) (hne ts hts)
  | succ k ih =>
    cases ts with
    | nil => exact absurd rfl (hne [] hts)
    | cons t ts =>
      cases ht : op t with
      | none =>
        rw [chainLoop_stop ht]
        exact ⟨hts, Nat.le_refl _⟩
      | some mk =>
        have hts' := hop t ts mk ht hts
        have hpos := List.length_pos_iff.mpr (hne ts hts')
        rw [List.length_cons] at hk hn ⊢
        simp only [chainLoop, ht]
        refine (hsub hts' (Nat.le_add_of_sub_le (Nat.le_refl _)) (by omega)).bind
          fun rhs rest hrest hlen => ?_
        exact (ih hrest (by omega) (by omega)).mono (by omega)

/-- **A chain consumes something** when its operands do. -/
theorem chain_consumes (hsub : Consumes fault I n sub) :
    Consumes fault I n (chain fault sub op) := by
  intro ts m hts hlen hm
  refine (hsub hts hlen hm).bind fun lhs rest hrest hle => ?_
  exact (chainLoop_leaves hne hop hsub hrest (Nat.le_refl _) (by omega)).mono hle

end Consumes

end Chain
