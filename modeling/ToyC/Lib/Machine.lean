import ToyC.Lib.Recursion

/-!
# Deterministic machines

A machine takes steps from state to state until one of them ends the execution
with a result. `Reaches` relates a computation of a specification to the steps of a
machine that implements it: a value of the specification is matched by some
steps to a state that represents it, and where the specification needs more fuel
than it has, or gets stuck, so does the machine. It composes along the sequencing
of the specification (`Reaches.bind`), which is how a simulation is put together
from those of its parts.
-/

namespace Machine

open Outcome

variable {σ ρ α β : Type}

/-- Run a machine for at most a number of steps. -/
def run (step : σ → Outcome (σ ⊕ ρ)) (n : Nat) (s : σ) : Outcome ρ :=
  Outcome.loop (fun _ => step) n s

variable {step : σ → Outcome (σ ⊕ ρ)}

@[simp] theorem run_zero (s : σ) : run step 0 s = .timeout := rfl

theorem run_succ (n : Nat) (s : σ) :
    run step (n + 1) s = step s >>= Sum.elim (run step n) .ok := rfl

/-- More steps only help. -/
theorem run_mono {n n' : Nat} (hn : n ≤ n') (s : σ) :
    Flat (run step n s) (run step n' s) :=
  loop_le precise_flat (fun _ _ s _ => precise_flat.refl (step s)) hn s

theorem run_timeout_le {n n' : Nat} (hn : n ≤ n') {s : σ} (h : run step n' s = .timeout) :
    run step n s = .timeout := by
  rcases run_mono hn s with h' | h'
  · exact h'
  · rw [h', h]

/-- **The safety rule**: where every step from a state of the invariant has a meaning and stays in
it, no run gets stuck. -/
theorem run_ne_stuck {I : σ → Prop} (hsafe : ∀ s, I s → step s ≠ .stuck)
    (hstep : ∀ s s', I s → step s = .ok (.inl s') → I s') {s : σ} (hs : I s) (n : Nat) :
    run step n s ≠ .stuck := by
  induction n generalizing s with
  | zero => exact fun h => by cases h
  | succ n ih =>
    rw [run_succ]
    cases hst : step s with
    | timeout => exact fun h => by cases h
    | stuck => exact absurd hst (hsafe s hs)
    | ok x =>
      cases x with
      | inl s' => exact ih (hstep s s' hs hst)
      | inr r => exact fun h => by cases h

/-- **Some steps of the machine.** -/
inductive Steps (step : σ → Outcome (σ ⊕ ρ)) : σ → σ → Prop where
  | refl (s : σ) : Steps step s s
  | head {s s' s'' : σ} (h : step s = .ok (.inl s')) (rest : Steps step s' s'') :
      Steps step s s''

theorem Steps.single {s s' : σ} (h : step s = .ok (.inl s')) : Steps step s s' :=
  .head h (.refl s')

theorem Steps.trans {s s' s'' : σ} (h₁ : Steps step s s') (h₂ : Steps step s' s'') :
    Steps step s s'' := by
  induction h₁ with
  | refl => exact h₂
  | head h _ ih => exact .head h (ih h₂)

/-- A run that passes through a state goes on from there as one that starts there. -/
theorem Steps.run {s s' : σ} (h : Steps step s s') :
    ∃ k, ∀ n, Machine.run step (n + k) s = Machine.run step n s' := by
  induction h with
  | refl => exact ⟨0, fun _ => rfl⟩
  | head h _ ih =>
    obtain ⟨k, hk⟩ := ih
    refine ⟨k + 1, fun n => ?_⟩
    rw [← Nat.add_assoc, run_succ, h]
    exact hk n

theorem Steps.run_timeout {s s' : σ} (h : Steps step s s') {n : Nat}
    (ht : Machine.run step n s' = .timeout) : Machine.run step n s = .timeout := by
  obtain ⟨k, hk⟩ := h.run
  exact run_timeout_le (Nat.le_add_right n k) (by rw [hk, ht])

/-- The machine ends with a result. -/
def Ends (step : σ → Outcome (σ ⊕ ρ)) (s : σ) (r : ρ) : Prop :=
  ∃ n, Machine.run step n s = .ok r

theorem Ends.of_step {s : σ} {r : ρ} (h : step s = .ok (.inr r)) : Ends step s r :=
  ⟨1, by rw [run_succ, h]; rfl⟩

theorem Steps.ends {s s' : σ} (h : Steps step s s') {r : ρ} (hr : Ends step s' r) :
    Ends step s r := by
  obtain ⟨k, hk⟩ := h.run
  obtain ⟨n, hn⟩ := hr
  exact ⟨n + k, by rw [hk, hn]⟩

/-! ## Implementing a computation -/

/-- The machine gets stuck. -/
def Sticks (step : σ → Outcome (σ ⊕ ρ)) (s : σ) : Prop :=
  ∃ n, Machine.run step n s = .stuck

theorem Sticks.of_step {s : σ} (h : step s = .stuck) : Sticks step s :=
  ⟨1, by rw [run_succ, h]; rfl⟩

theorem Steps.sticks {s s' : σ} (h : Steps step s s') (hs : Sticks step s') :
    Sticks step s := by
  obtain ⟨k, hk⟩ := h.run
  obtain ⟨n, hn⟩ := hs
  exact ⟨n + k, by rw [hk, hn]⟩

/-- **The machine carries out a computation** from a state, with an amount of fuel. -/
def Reaches (step : σ → Outcome (σ ⊕ ρ)) (n : Nat) (s : σ) (x : Outcome α)
    (post : α → σ → Prop) : Prop :=
  match x with
  | .ok a => ∃ s', Steps step s s' ∧ post a s'
  | .timeout => run step n s = .timeout
  | .stuck => Sticks step s

theorem Reaches.of_post {n : Nat} {s : σ} {a : α} {post : α → σ → Prop} (h : post a s) :
    Reaches step n s (.ok a) post :=
  ⟨s, .refl s, h⟩

/-- A step that the specification takes too, on what it asks for. -/
theorem Reaches.of_step {n : Nat} {s : σ} {x : Outcome α} {f : α → σ} {post : α → σ → Prop}
    (h : step s = x >>= fun a => .ok (.inl (f a))) (hp : ∀ a, x = .ok a → post a (f a)) :
    Reaches step n s x post := by
  cases x with
  | ok a => exact ⟨f a, .single h, hp a rfl⟩
  | timeout =>
    cases n with
    | zero => rfl
    | succ n => rw [Reaches, run_succ, h]; rfl
  | stuck => exact Sticks.of_step h

/-- Steps before a computation belong to it. -/
theorem Reaches.head {n : Nat} {s s' : σ} {x : Outcome α} {post : α → σ → Prop}
    (h : Steps step s s') (hx : Reaches step n s' x post) : Reaches step n s x post := by
  cases x with
  | ok a =>
    obtain ⟨s'', hs, hp⟩ := hx
    exact ⟨s'', h.trans hs, hp⟩
  | timeout => exact h.run_timeout hx
  | stuck => exact h.sticks hx

/-- When something was done before it, a computation may use one more unit of fuel. -/
theorem Reaches.head_succ {n : Nat} {s s' : σ} {x : Outcome α} {post : α → σ → Prop}
    (h : Steps step s s') (hne : s ≠ s') (hx : Reaches step n s' x post) :
    Reaches step (n + 1) s x post := by
  cases x with
  | ok a => exact hx.head h
  | timeout =>
    cases h with
    | refl => exact absurd rfl hne
    | head hstep rest =>
      rw [Reaches, run_succ, hstep]
      exact rest.run_timeout hx
  | stuck => exact h.sticks hx

theorem Reaches.mono {n : Nat} {s : σ} {x : Outcome α} {post post' : α → σ → Prop}
    (h : Reaches step n s x post) (himp : ∀ a s', x = .ok a → post a s' → post' a s') :
    Reaches step n s x post' := by
  cases x with
  | ok a =>
    obtain ⟨s', hs, hp⟩ := h
    exact ⟨s', hs, himp a s' rfl hp⟩
  | timeout => exact h
  | stuck => exact h

/-- **Sequencing.** -/
theorem Reaches.bind {n : Nat} {s : σ} {x : Outcome α} {f : α → Outcome β}
    {mid : α → σ → Prop} {post : β → σ → Prop} (hx : Reaches step n s x mid)
    (hf : ∀ a s', x = .ok a → mid a s' → Reaches step n s' (f a) post) :
    Reaches step n s (x >>= f) post := by
  cases x with
  | ok a =>
    obtain ⟨s', hs, hm⟩ := hx
    exact (hf a s' rfl hm).head hs
  | timeout => exact hx
  | stuck => exact hx

/-- Going on behind a computation, without the specification noticing. -/
theorem Reaches.then_ {n : Nat} {s : σ} {x : Outcome α} {mid post : α → σ → Prop}
    (hx : Reaches step n s x mid)
    (hf : ∀ a s', x = .ok a → mid a s' → Reaches step n s' (.ok a) post) :
    Reaches step n s x post := by
  cases x with
  | ok a =>
    obtain ⟨s', hs, hm⟩ := hx
    exact (hf a s' rfl hm).head hs
  | timeout => exact hx
  | stuck => exact hx

/-- A computation the machine carries out to its end, from its first state. -/
theorem Reaches.flat_run {n : Nat} {s : σ} {x : Outcome ρ}
    (h : Reaches step n s x fun r s' => Ends step s' r) : Flat (run step n s) x := by
  cases x with
  | ok r =>
    obtain ⟨s', hs, hr⟩ := h
    obtain ⟨m, hm⟩ := hs.ends hr
    rcases run_mono (Nat.le_max_left n m) s with h | h
    · exact .inl h
    · refine .inr (h.trans ?_)
      exact ((run_mono (Nat.le_max_right n m) s).eq_of_ne (by simp [hm])).trans hm
  | timeout => exact .inl h
  | stuck =>
    obtain ⟨m, hm⟩ := h
    rcases run_mono (Nat.le_max_left n m) s with h | h
    · exact .inl h
    · refine .inr (h.trans ?_)
      exact ((run_mono (Nat.le_max_right n m) s).eq_of_ne (by simp [hm])).trans hm

/-- What such a computation answers, the machine answers with enough fuel. -/
theorem Reaches.exists_run {n : Nat} {s : σ} {x : Outcome ρ}
    (h : Reaches step n s x fun r s' => Ends step s' r) (hx : x ≠ .timeout) :
    ∃ m, run step m s = x := by
  cases x with
  | ok r =>
    obtain ⟨s', hs, hr⟩ := h
    exact hs.ends hr
  | timeout => exact absurd rfl hx
  | stuck => exact h

/-! ## Two machines in step -/

variable {τ ε : Type}

/-- The observations a machine makes in its first steps. -/
def trace (step : σ → Outcome (σ ⊕ ρ)) (event : σ → Option ε) : Nat → σ → List ε
  | 0, _ => []
  | n + 1, s => (event s).toList ++
      match step s with
      | .ok (.inl s') => trace step event n s'
      | _ => []

/-- Steps that lead to related states or end alike. -/
def StepsAgree (I : σ → τ → Prop) (x : Outcome (σ ⊕ ρ)) (y : Outcome (τ ⊕ ρ)) : Prop :=
  match x, y with
  | .ok (.inl s), .ok (.inl t) => I s t
  | .ok (.inr a), .ok (.inr b) => a = b
  | .timeout, .timeout => True
  | .stuck, .stuck => True
  | _, _ => False

/-- The same question asked by both sides. -/
theorem StepsAgree.bind {I : σ → τ → Prop} {x : Outcome α} {f : α → Outcome (σ ⊕ ρ)}
    {g : α → Outcome (τ ⊕ ρ)} (h : ∀ a, x = .ok a → StepsAgree I (f a) (g a)) :
    StepsAgree I (x >>= f) (x >>= g) := by
  cases x with
  | ok a => exact h a rfl
  | timeout => trivial
  | stuck => trivial

/-- More about where such steps lead. -/
theorem StepsAgree.imp {I J : σ → τ → Prop} {x : Outcome (σ ⊕ ρ)} {y : Outcome (τ ⊕ ρ)}
    (h : StepsAgree I x y) (hJ : ∀ s t, x = .ok (.inl s) → I s t → J s t) : StepsAgree J x y := by
  unfold StepsAgree at h ⊢
  split at h
  · exact hJ _ _ rfl h
  · exact h
  · trivial
  · trivial
  · exact h.elim

/-- **Two machines in step**: related states take related steps. -/
def Lockstep (step : σ → Outcome (σ ⊕ ρ)) (step' : τ → Outcome (τ ⊕ ρ)) (I : σ → τ → Prop) :
    Prop :=
  ∀ s t, I s t → StepsAgree I (step s) (step' t)

section Lockstep

variable {step' : τ → Outcome (τ ⊕ ρ)} {I : σ → τ → Prop}

/-- **They answer alike**, step by step. -/
theorem Lockstep.run (h : Lockstep step step' I) {s : σ} {t : τ} (hI : I s t) (n : Nat) :
    Machine.run step n s = Machine.run step' n t := by
  induction n generalizing s t with
  | zero => rfl
  | succ n ih =>
    have hst := h s t hI
    rw [run_succ, run_succ]
    unfold StepsAgree at hst
    split at hst
    · rename_i heq heq'
      rw [heq, heq']
      exact ih hst
    · rename_i heq heq'
      rw [heq, heq', hst]
      rfl
    · rename_i heq heq'
      rw [heq, heq']
      rfl
    · rename_i heq heq'
      rw [heq, heq']
      rfl
    · exact hst.elim

/-- **They make the same observations.** -/
theorem Lockstep.trace (h : Lockstep step step' I) {event : σ → Option ε}
    {event' : τ → Option ε} (hevent : ∀ s t, I s t → event s = event' t) {s : σ} {t : τ}
    (hI : I s t) (n : Nat) : Machine.trace step event n s = Machine.trace step' event' n t := by
  induction n generalizing s t with
  | zero => rfl
  | succ n ih =>
    have hst := h s t hI
    unfold Machine.trace
    rw [hevent s t hI]
    congr 1
    unfold StepsAgree at hst
    split at hst
    · rename_i heq heq'
      rw [heq, heq']
      exact ih hst
    · rename_i heq heq'
      rw [heq, heq']
    · rename_i heq heq'
      rw [heq, heq']
    · rename_i heq heq'
      rw [heq, heq']
    · exact hst.elim

/-- They stay together. -/
theorem Lockstep.steps (h : Lockstep step step' I) {s s' : σ} {t : τ} (hI : I s t)
    (hs : Steps step s s') : ∃ t', Steps step' t t' ∧ I s' t' := by
  induction hs generalizing t with
  | refl s => exact ⟨t, .refl t, hI⟩
  | head hstep _ ih =>
    have hst := h _ t hI
    rw [hstep] at hst
    unfold StepsAgree at hst
    split at hst
    · rename_i heq heq'
      cases heq
      obtain ⟨t', ht', hI'⟩ := ih hst
      exact ⟨t', .head heq' ht', hI'⟩
    · rename_i heq _
      cases heq
    · rename_i heq _
      cases heq
    · rename_i heq _
      cases heq
    · exact hst.elim

end Lockstep

/-! ## Two machines in big steps -/

section BigSteps

variable {step' : τ → Outcome (τ ⊕ ρ)} {I : σ → τ → Prop}

/-- **One step or more of a machine, as one**: what comes of them. -/
def BigStep (step : σ → Outcome (σ ⊕ ρ)) (s : σ) (x : Outcome (σ ⊕ ρ)) : Prop :=
  ∃ k, ∀ n, run step (k + (n + 1)) s = x >>= Sum.elim (run step n) .ok

/-- **Two machines that keep together in big steps**: what the one answers, the other one does
with enough fuel. -/
theorem run_le_of_bigSteps
    (h : ∀ s t, I s t → ∃ x y, BigStep step s x ∧ BigStep step' t y ∧
      Related (Sum.LiftRel I Eq) x y) {s : σ} {t : τ} (hI : I s t) (n : Nat) :
    ∃ m, Flat (run step n s) (run step' m t) := by
  induction n generalizing s t with
  | zero => exact ⟨0, .inl rfl⟩
  | succ n ih =>
    obtain ⟨x, y, ⟨k, hk⟩, ⟨k', hk'⟩, hxy⟩ := h s t hI
    have hrun : Flat (run step (n + 1) s) (x >>= Sum.elim (run step n) .ok) := by
      rw [← hk n]
      exact run_mono (Nat.le_add_left _ _) s
    cases hxy with
    | ok hxy =>
      cases hxy with
      | inl hI =>
        obtain ⟨m, hm⟩ := ih hI
        refine ⟨k' + (m + 1), precise_flat.trans hrun ?_⟩
        rw [hk' m]
        exact hm
      | inr heq =>
        refine ⟨k' + (0 + 1), precise_flat.trans hrun ?_⟩
        rw [hk' 0, heq]
        exact .inr rfl
    | timeout => exact ⟨0, precise_flat.trans hrun (.inl rfl)⟩
    | stuck =>
      refine ⟨k' + (0 + 1), precise_flat.trans hrun ?_⟩
      rw [hk' 0]
      exact .inr rfl

/-- **A machine that follows another one in big steps**, as long as that one has a meaning: what the
one returns, the other one returns with enough fuel. -/
theorem run_ok_of_bigSteps
    (h : ∀ s t, I s t → ∃ x y, BigStep step s x ∧ BigStep step' t y ∧
      Carried (Sum.LiftRel I Eq) x y) {s : σ} {t : τ} (hI : I s t) {n : Nat} {r : ρ}
    (hr : run step n s = .ok r) : ∃ m, run step' m t = .ok r := by
  induction n generalizing s t with
  | zero => cases hr
  | succ n ih =>
    obtain ⟨x, y, ⟨k, hk⟩, ⟨k', hk'⟩, hxy⟩ := h s t hI
    have hrun : (x >>= Sum.elim (run step n) .ok) = .ok r := by
      rw [← hk n, ← hr]
      exact (run_mono (Nat.le_add_left _ _) s).eq_of_ne (by simp [hr])
    obtain ⟨a, hx, ha⟩ := bind_eq_ok.mp hrun
    obtain ⟨b, hy, hab⟩ := hxy a hx
    cases hab with
    | inl hI =>
      obtain ⟨m, hm⟩ := ih hI ha
      refine ⟨k' + (m + 1), ?_⟩
      rw [hk' m, hy]
      exact hm
    | inr heq =>
      refine ⟨k' + (0 + 1), ?_⟩
      rw [hk' 0, hy, ← heq]
      exact ha

/-- **Two machines that keep together in big steps have the same results.** -/
theorem run_iff_of_bigSteps
    (h : ∀ s t, I s t → ∃ x y, BigStep step s x ∧ BigStep step' t y ∧
      Related (Sum.LiftRel I Eq) x y) {s : σ} {t : τ} (hI : I s t) {x : Outcome ρ}
    (hx : x ≠ .timeout) : (∃ n, run step n s = x) ↔ ∃ m, run step' m t = x := by
  have hback : ∀ t s, I s t → ∃ y x, BigStep step' t y ∧ BigStep step s x ∧
      Related (Sum.LiftRel (fun t s => I s t) Eq) y x := by
    intro t s hI
    obtain ⟨x, y, hs, ht, hxy⟩ := h s t hI
    refine ⟨y, x, ht, hs, hxy.symm.mono ?_⟩
    rintro _ _ (hI | heq)
    · exact .inl hI
    · exact .inr heq.symm
  constructor
  · rintro ⟨n, rfl⟩
    obtain ⟨m, hm⟩ := run_le_of_bigSteps h hI n
    exact ⟨m, hm.eq_of_ne hx⟩
  · rintro ⟨m, rfl⟩
    obtain ⟨n, hn⟩ := run_le_of_bigSteps hback hI m
    exact ⟨n, hn.eq_of_ne hx⟩

end BigSteps

end Machine
