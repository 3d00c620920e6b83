import ToyC.Lib.Outcome

/-!
# Recursion through an oracle

The meaning of a system of mutually recursive functions is built here from the
meaning of their bodies. A body is executed against an *oracle* that answers its
calls, and with an amount of fuel for its own loops; `calls` then feeds the bodies
their own answers, one level of recursion after the other, and `limit` is what
this converges to.

A body is `Regular` when it uses its oracle and its fuel as a computation does:
a better oracle or more fuel gives a better answer, and every single answer needs
only finitely many answers of the oracle. `Regular` is closed under sequencing and
under loops, so it holds of any body written with them.

`limit_le` is the induction rule: to bound the limit by an oracle, it is enough
that the bodies stay below that oracle when it answers their calls. Two systems
are compared by applying it with the limit of the other one as the bound.
-/

namespace Outcome

variable {P R α β σ ρ : Type}

/-! ## Loops -/

/-- **A loop**: steps until one of them returns a result. Every turn costs one unit
of fuel, and what is left is there for the step itself. -/
def loop (step : Nat → σ → Outcome (σ ⊕ ρ)) : Nat → σ → Outcome ρ
  | 0, _ => timeout
  | n + 1, s => step n s >>= Sum.elim (loop step n) ok

@[simp] theorem loop_zero (step : Nat → σ → Outcome (σ ⊕ ρ)) (s : σ) :
    loop step 0 s = timeout := rfl

theorem loop_succ (step : Nat → σ → Outcome (σ ⊕ ρ)) (n : Nat) (s : σ) :
    loop step (n + 1) s = step n s >>= Sum.elim (loop step n) ok := rfl

/-- **The invariant rule for loops**: what every turn preserves holds where the loop ends. -/
theorem loop_invariant {step : Nat → σ → Outcome (σ ⊕ ρ)} {I : σ → Prop} {Q : ρ → Prop}
    (hstep : ∀ n s s', I s → step n s = .ok (.inl s') → I s')
    (hpost : ∀ n s r, I s → step n s = .ok (.inr r) → Q r) {n : Nat} {s : σ} {r : ρ}
    (hs : I s) (h : loop step n s = .ok r) : Q r := by
  induction n generalizing s with
  | zero => cases h
  | succ n ih =>
    rw [loop_succ] at h
    cases hst : step n s with
    | ok x =>
      rw [hst] at h
      cases x with
      | inl s' => exact ih (hstep n s s' hs hst) h
      | inr r' =>
        cases h
        exact hpost n s r hs hst
    | timeout =>
      rw [hst] at h
      cases h
    | stuck =>
      rw [hst] at h
      cases h

/-- **A loop whose turns lower a count ends.** -/
theorem loop_total {step : Nat → σ → Outcome (σ ⊕ ρ)} {I : σ → Prop} (count : σ → Nat)
    (hstep : ∀ n s, I s → (∃ r, step n s = .ok (.inr r)) ∨
      ∃ s', step n s = .ok (.inl s') ∧ I s' ∧ count s' < count s) {s : σ} (hs : I s) :
    ∃ n r, loop step n s = .ok r := by
  suffices h : ∀ k s, I s → count s < k → ∃ r, loop step k s = .ok r from
    ⟨_, h (count s + 1) s hs (Nat.lt_succ_self _)⟩
  intro k
  induction k with
  | zero => exact fun s _ hk => absurd hk (Nat.not_lt_zero _)
  | succ k ih =>
    intro s hs hk
    rw [loop_succ]
    rcases hstep k s hs with ⟨r, hr⟩ | ⟨s', hs', hI, hlt⟩
    · exact ⟨r, by rw [hr]; rfl⟩
    · obtain ⟨r, hr⟩ := ih s' hI (by omega)
      exact ⟨r, by rw [hs']; exact hr⟩

/-- A loop whose steps have a meaning has one. -/
theorem loop_ne_stuck {step : Nat → σ → Outcome (σ ⊕ ρ)} (h : ∀ n s, step n s ≠ stuck) (n : Nat)
    (s : σ) : loop step n s ≠ stuck := by
  induction n generalizing s with
  | zero => exact fun ht => by cases ht
  | succ n ih =>
    rw [loop_succ]
    refine bind_ne_stuck (h n s) ?_
    rintro (s' | r)
    · exact ih s'
    · exact fun ht => by cases ht

/-- **Loops whose turns do the same** on what they come to. -/
theorem loop_congr {step step' : Nat → σ → Outcome (σ ⊕ ρ)} {I : σ → Prop}
    (hsame : ∀ n s, I s → step' n s = step n s)
    (hstep : ∀ n s s', I s → step n s = .ok (.inl s') → I s') (n : Nat) {s : σ} (hs : I s) :
    loop step' n s = loop step n s := by
  induction n generalizing s with
  | zero => rfl
  | succ n ih =>
    rw [loop_succ, loop_succ, hsame n s hs]
    refine bind_congr_ok fun x hx => ?_
    cases x with
    | inl s' => exact ih (hstep n s s' hs hx)
    | inr r => rfl

/-- A loop respects every order its step respects. -/
theorem loop_le {le : ∀ ⦃α : Type⦄, Outcome α → Outcome α → Prop} (hle : Precise le)
    {step step' : Nat → σ → Outcome (σ ⊕ ρ)}
    (h : ∀ n n' s, n ≤ n' → le (step n s) (step' n' s)) {n n' : Nat} (hn : n ≤ n') (s : σ) :
    le (loop step n s) (loop step' n' s) := by
  induction n generalizing n' s with
  | zero => exact hle.bot _
  | succ n ih =>
    obtain ⟨m, rfl⟩ : ∃ m, n' = m + 1 := ⟨n' - 1, by omega⟩
    rw [loop_succ, loop_succ]
    refine hle.bind (h n m s (by omega)) ?_
    rintro (s' | r)
    · exact ih (by omega) s'
    · exact hle.refl _

/-- More turns do not change where a loop ends. -/
theorem loop_ok_mono {step : σ → Outcome (σ ⊕ ρ)} {n n' : Nat} (hn : n ≤ n') {s : σ} {r : ρ}
    (h : loop (fun _ => step) n s = .ok r) : loop (fun _ => step) n' s = .ok r := by
  have hle := loop_le precise_flat (fun _ _ s _ => precise_flat.refl (step s)) hn s
  rw [hle.eq_of_ne (by rw [h]; simp), h]

/-- **A computation that more fuel does not change** once it has a result. -/
def Steady (f : Nat → Outcome α) : Prop := ∀ ⦃n n' a⦄, n ≤ n' → f n = .ok a → f n' = .ok a

theorem Steady.const (x : Outcome α) : Steady fun _ => x := fun _ _ _ _ h => h

theorem Steady.loop (step : σ → Outcome (σ ⊕ ρ)) (s : σ) :
    Steady fun n => Outcome.loop (fun _ => step) n s := fun _ _ _ hn h => loop_ok_mono hn h

theorem Steady.bind {f : Nat → Outcome α} {g : α → Nat → Outcome β} (hf : Steady f)
    (hg : ∀ a, Steady (g a)) : Steady fun n => f n >>= fun a => g a n := by
  intro n n' b hn h
  obtain ⟨a, ha, hb⟩ := bind_eq_ok.mp h
  exact bind_eq_ok.mpr ⟨a, hf hn ha, hg a hn hb⟩

/-- Two computations that end, one after the other, end. -/
theorem Steady.bind_total {f : Nat → Outcome α} {g : α → Nat → Outcome β} (hf : Steady f)
    (hg : ∀ a, Steady (g a)) (htotal : ∃ n a, f n = .ok a)
    (hrest : ∀ n a, f n = .ok a → ∃ n b, g a n = .ok b) :
    ∃ n b, (f n >>= fun a => g a n) = .ok b := by
  obtain ⟨n, a, ha⟩ := htotal
  obtain ⟨n', b, hb⟩ := hrest n a ha
  exact ⟨max n n', b, bind_eq_ok.mpr
    ⟨a, hf (Nat.le_max_left ..) ha, hg a (Nat.le_max_right ..) hb⟩⟩

/-! ## Regular computations -/

/-- What answers the calls of a body. -/
abbrev Oracle (P R : Type) := P → Outcome R

/-- A sequence of oracles converges: every single answer is final at some point. -/
def Converges (c : Nat → Oracle P R) (d : Oracle P R) : Prop :=
  ∀ p, ∃ k, ∀ j, k ≤ j → c j p = d p

/-- **A computation that uses its oracle and its fuel as one does**: it respects
every order, and depends on finitely many answers of the oracle. -/
structure Regular (f : Oracle P R → Nat → Outcome α) : Prop where
  mono : ∀ {le : ∀ ⦃α : Type⦄, Outcome α → Outcome α → Prop}, Precise le →
    ∀ {c c' : Oracle P R} {n n' : Nat}, (∀ p, le (c p) (c' p)) → n ≤ n' →
      le (f c n) (f c' n')
  continuous : ∀ {c : Nat → Oracle P R} {d : Oracle P R}, Converges c d →
    ∀ n, ∃ k, ∀ j, k ≤ j → f (c j) n = f d n

theorem Regular.const (x : Outcome α) : Regular fun (_ : Oracle P R) _ => x where
  mono hle _ _ _ _ _ _ := hle.refl x
  continuous _ _ := ⟨0, fun _ _ => rfl⟩

/-- Asking the oracle. -/
theorem Regular.ask (p : P) : Regular fun (c : Oracle P R) _ => c p where
  mono _ _ _ _ _ hc _ := hc p
  continuous hconv _ := hconv p

/-- **Sequencing.** -/
theorem Regular.bind {f : Oracle P R → Nat → Outcome α}
    {g : α → Oracle P R → Nat → Outcome β} (hf : Regular f) (hg : ∀ a, Regular (g a)) :
    Regular fun c n => f c n >>= fun a => g a c n where
  mono hle _ _ _ _ hc hn := hle.bind (hf.mono hle hc hn) fun a => (hg a).mono hle hc hn
  continuous {c d} hconv n := by
    obtain ⟨k, hk⟩ := hf.continuous hconv n
    cases hd : f d n with
    | ok a =>
      obtain ⟨k', hk'⟩ := (hg a).continuous hconv n
      refine ⟨max k k', fun j hj => ?_⟩
      rw [hk j (by omega), hd, ok_bind, ok_bind, hk' j (by omega)]
    | timeout =>
      refine ⟨k, fun j hj => ?_⟩
      rw [hk j hj, hd, timeout_bind, timeout_bind]
    | stuck =>
      refine ⟨k, fun j hj => ?_⟩
      rw [hk j hj, hd, stuck_bind, stuck_bind]

/-- **Loops.** -/
theorem Regular.loop {step : σ → Oracle P R → Nat → Outcome (σ ⊕ ρ)}
    (h : ∀ s, Regular (step s)) (s : σ) :
    Regular fun c n => Outcome.loop (fun n s => step s c n) n s where
  mono hle _ _ _ _ hc hn := loop_le hle (fun _ _ s hn => (h s).mono hle hc hn) hn s
  continuous {c d} hconv n := by
    induction n generalizing s with
    | zero => exact ⟨0, fun _ _ => rfl⟩
    | succ n ih =>
      obtain ⟨k, hk⟩ := (h s).continuous hconv n
      cases hd : step s d n with
      | ok a =>
        cases a with
        | inl s' =>
          obtain ⟨k', hk'⟩ := ih s'
          refine ⟨max k k', fun j hj => ?_⟩
          rw [loop_succ, loop_succ, hk j (by omega), hd]
          exact hk' j (by omega)
        | inr r =>
          refine ⟨k, fun j hj => ?_⟩
          rw [loop_succ, loop_succ, hk j hj, hd]
          rfl
      | timeout =>
        refine ⟨k, fun j hj => ?_⟩
        rw [loop_succ, loop_succ, hk j hj, hd, timeout_bind, timeout_bind]
      | stuck =>
        refine ⟨k, fun j hj => ?_⟩
        rw [loop_succ, loop_succ, hk j hj, hd, stuck_bind, stuck_bind]

/-! ## Levels of recursion -/

variable (body : P → Oracle P R → Nat → Outcome R)

/-- **Calls up to a depth of recursion**: beyond it there is no answer. -/
def calls : Nat → Oracle P R
  | 0 => fun _ => timeout
  | k + 1 => fun p => body p (calls k) k

@[simp] theorem calls_zero (p : P) : calls body 0 p = timeout := rfl

theorem calls_succ (k : Nat) (p : P) : calls body (k + 1) p = body p (calls body k) k := rfl

open Classical in
/-- **The meaning of a call**: the answer at any depth that gives one. -/
noncomputable def limit : Oracle P R := fun p =>
  if h : ∃ k, calls body k p ≠ timeout then calls body h.choose p else timeout

variable {body}

/-- A deeper recursion answers at least as much. -/
theorem calls_mono (hreg : ∀ p, Regular (body p)) {k k' : Nat} (hk : k ≤ k') (p : P) :
    Flat (calls body k p) (calls body k' p) := by
  induction k generalizing k' p with
  | zero => exact .inl rfl
  | succ k ih =>
    obtain ⟨m, rfl⟩ : ∃ m, k' = m + 1 := ⟨k' - 1, by omega⟩
    exact (hreg p).mono precise_flat (ih (by omega)) (by omega)

/-- The limit is one of the answers, and the final one. -/
theorem calls_converges (hreg : ∀ p, Regular (body p)) :
    Converges (calls body) (limit body) := by
  intro p
  by_cases h : ∃ k, calls body k p ≠ timeout
  · refine ⟨h.choose, fun j hj => ?_⟩
    rw [limit, dif_pos h]
    exact (calls_mono hreg hj p).eq_of_ne h.choose_spec
  · refine ⟨0, fun j _ => ?_⟩
    rw [limit, dif_neg h]
    exact Classical.not_not.mp fun hne => h ⟨j, hne⟩

theorem calls_flat_limit (hreg : ∀ p, Regular (body p)) (k : Nat) (p : P) :
    Flat (calls body k p) (limit body p) := by
  obtain ⟨k', hk'⟩ := calls_converges hreg p
  rw [← hk' (max k k') (by omega)]
  exact calls_mono hreg (by omega) p

/-- **What a call means is what some depth of recursion answers.** -/
theorem limit_eq_iff (hreg : ∀ p, Regular (body p)) {p : P} {x : Outcome R}
    (hx : x ≠ timeout) : limit body p = x ↔ ∃ k, calls body k p = x := by
  constructor
  · rintro rfl
    obtain ⟨k, hk⟩ := calls_converges hreg p
    exact ⟨k, hk k (Nat.le_refl k)⟩
  · rintro ⟨k, rfl⟩
    exact (calls_flat_limit hreg k p).eq_of_ne hx

/-- A call without meaning runs on at every depth. -/
theorem limit_eq_timeout_iff (hreg : ∀ p, Regular (body p)) {p : P} :
    limit body p = timeout ↔ ∀ k, calls body k p = timeout := by
  constructor
  · intro h k
    rcases calls_flat_limit hreg k p with hk | hk
    · exact hk
    · rw [hk, h]
  · intro h
    obtain ⟨k, hk⟩ := calls_converges hreg p
    rw [← hk k (Nat.le_refl k)]
    exact h k

/-- **The invariant rule for calls**: what the bodies make of good answers is good. -/
theorem calls_invariant {good : P → Outcome R → Prop} (htimeout : ∀ p, good p timeout)
    (hbody : ∀ call n, (∀ p, good p (call p)) → ∀ p, good p (body p call n)) (k : Nat) (p : P) :
    good p (calls body k p) := by
  induction k generalizing p with
  | zero => exact htimeout p
  | succ k ih => exact hbody _ k ih p

/-- So are the answers of the limit. -/
theorem limit_invariant (hreg : ∀ p, Regular (body p)) {good : P → Outcome R → Prop}
    (htimeout : ∀ p, good p timeout)
    (hbody : ∀ call n, (∀ p, good p (call p)) → ∀ p, good p (body p call n)) (p : P) :
    good p (limit body p) := by
  obtain ⟨k, hk⟩ := calls_converges hreg p
  rw [← hk k (Nat.le_refl k)]
  exact calls_invariant htimeout hbody k p

/-- **The limit answers its own calls**: a body executed against it answers what it
answers. -/
theorem body_limit (hreg : ∀ p, Regular (body p)) (p : P) (n : Nat) :
    Flat (body p (limit body) n) (limit body p) := by
  obtain ⟨k, hk⟩ := (hreg p).continuous (calls_converges hreg) n
  rw [← hk (max k n) (by omega)]
  refine precise_flat.trans ?_ (calls_flat_limit hreg (max k n + 1) p)
  rw [calls_succ]
  exact (hreg p).mono precise_flat (fun q => .inr rfl) (by omega)

/-- With enough fuel, it is exactly that answer. -/
theorem exists_body_limit (hreg : ∀ p, Regular (body p)) (p : P) :
    ∃ n, body p (limit body) n = limit body p := by
  obtain ⟨k, hk⟩ := calls_converges hreg p
  refine ⟨k, (body_limit hreg p k).antisymm ?_⟩
  rw [← hk (k + 1) (by omega), calls_succ]
  exact (hreg p).mono precise_flat (calls_flat_limit hreg k) (Nat.le_refl k)

/-- And with any more of it. -/
theorem exists_body_limit_add (hreg : ∀ p, Regular (body p)) (p : P) :
    ∃ k, ∀ n, body p (limit body) (k + n) = limit body p := by
  obtain ⟨k, hk⟩ := exists_body_limit hreg p
  refine ⟨k, fun n => (body_limit hreg p (k + n)).antisymm ?_⟩
  rw [← hk]
  exact (hreg p).mono precise_flat (fun _ => .inr rfl) (Nat.le_add_right k n)

/-- **The induction rule.** An oracle that the bodies stay below, when it answers
their calls, is above the limit. -/
theorem limit_le {le : ∀ ⦃α : Type⦄, Outcome α → Outcome α → Prop} (hle : Precise le)
    (hreg : ∀ p, Regular (body p)) {d : Oracle P R} (h : ∀ p n, le (body p d n) (d p))
    (p : P) : le (limit body p) (d p) := by
  have hcalls : ∀ k p, le (calls body k p) (d p) := by
    intro k
    induction k with
    | zero => exact fun p => hle.bot _
    | succ k ih =>
      exact fun p => hle.trans ((hreg p).mono hle ih (Nat.le_refl k)) (h p k)
  obtain ⟨k, hk⟩ := calls_converges hreg p
  rw [← hk k (Nat.le_refl k)]
  exact hcalls k p

/-- **Two systems mean the same** when the bodies of each stay below the limit of the other. -/
theorem limit_congr {body' : P → Oracle P R → Nat → Outcome R} (hreg : ∀ p, Regular (body p))
    (hreg' : ∀ p, Regular (body' p))
    (h : ∀ p n, Flat (body p (limit body') n) (limit body' p))
    (h' : ∀ p n, Flat (body' p (limit body) n) (limit body p)) : limit body = limit body' :=
  funext fun p => (limit_le precise_flat hreg h p).antisymm (limit_le precise_flat hreg' h' p)

/-! ## Bounded recursion -/

/-- **A call that is answered with at most so many activations at a time**: its body answers,
against an oracle that knows only what is answered with one less. -/
def Within (body : P → Oracle P R → Nat → Outcome R) : Nat → P → R → Prop
  | 0, _, _ => False
  | d + 1, p, r => ∃ (call : Oracle P R) (n : Nat),
      (∀ q r', call q = .ok r' → Within body d q r') ∧ body p call n = .ok r

/-- What has an answer, has one with some number of activations, and conversely. -/
theorem limit_eq_ok_iff_within (hreg : ∀ p, Regular (body p)) {p : P} {r : R} :
    limit body p = .ok r ↔ ∃ d, Within body d p r := by
  rw [limit_eq_iff hreg (by simp)]
  constructor
  · rintro ⟨k, hk⟩
    refine ⟨k, ?_⟩
    induction k generalizing p r with
    | zero => cases hk
    | succ k ih => exact ⟨calls body k, k, fun q r' hq => ih hq, hk⟩
  · rintro ⟨d, hd⟩
    rw [← limit_eq_iff hreg (by simp)]
    induction d generalizing p r with
    | zero => exact hd.elim
    | succ d ih =>
      obtain ⟨call, n, hcall, hbody⟩ := hd
      have hmono := (hreg p).mono precise_values (fun q r' hq => ih (hcall q r' hq)) (Nat.le_refl n)
      exact (body_limit hreg p n).values r (hmono r hbody)

/-- **Bodies that answer what others do**, against the same answers, need no more activations. -/
theorem Within.of_body {body' : P → Oracle P R → Nat → Outcome R}
    (h : ∀ p call n r, body p call n = .ok r → ∃ k, body' p call k = .ok r) {d : Nat} {p : P}
    {r : R} (hd : Within body d p r) : Within body' d p r := by
  induction d generalizing p r with
  | zero => exact hd.elim
  | succ d ih =>
    obtain ⟨call, n, hcall, hbody⟩ := hd
    obtain ⟨k, hk⟩ := h p call n r hbody
    exact ⟨call, k, fun q r' hq => ih (hcall q r' hq), hk⟩

end Outcome
