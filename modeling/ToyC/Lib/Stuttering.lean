import ToyC.Lib.Machine

/-!
# Machines that stutter

Two machines that do the same, but not step by step: the first one may take a step that the
second one has nothing to do for, and the second one may take steps ahead of one that both
take. None of these steps is observed. The first machine cannot stutter forever, since each
such step lowers a count.

Then the two machines have the same results (`Stuttering.run_iff`), and each one's
observations are a beginning of the other's (`Stuttering.trace_le`, `Stuttering.trace_ge`).
-/

namespace Machine

variable {σ τ ρ ε : Type}

/-- **Some steps that are not observed.** -/
inductive Quiet (step : σ → Outcome (σ ⊕ ρ)) (event : σ → Option ε) : σ → σ → Prop where
  | refl (s : σ) : Quiet step event s s
  | head {s s' s'' : σ} (h : step s = .ok (.inl s')) (he : event s = none)
      (rest : Quiet step event s' s'') : Quiet step event s s''

section Quiet

variable {step : σ → Outcome (σ ⊕ ρ)} {event : σ → Option ε}

theorem Quiet.steps {s s' : σ} (h : Quiet step event s s') : Steps step s s' := by
  induction h with
  | refl s => exact .refl s
  | head h _ _ ih => exact .head h ih

theorem trace_succ_inl {s s' : σ} (h : step s = .ok (.inl s')) (n : Nat) :
    trace step event (n + 1) s = (event s).toList ++ trace step event n s' := by
  rw [trace, h]

theorem Quiet.trace {s s' : σ} (h : Quiet step event s s') :
    ∃ k, ∀ n, Machine.trace step event (n + k) s = Machine.trace step event n s' := by
  induction h with
  | refl => exact ⟨0, fun _ => rfl⟩
  | head h he _ ih =>
    obtain ⟨k, hk⟩ := ih
    refine ⟨k + 1, fun n => ?_⟩
    rw [← Nat.add_assoc, trace_succ_inl h, he, hk]
    rfl

end Quiet

/-- Steps that agree both go on, or both end with the same answer. -/
theorem StepsAgree.cases {I : σ → τ → Prop} {x : Outcome (σ ⊕ ρ)} {y : Outcome (τ ⊕ ρ)}
    (h : StepsAgree I x y) :
    (∃ s t, x = .ok (.inl s) ∧ y = .ok (.inl t) ∧ I s t) ∨
      ∃ z : Outcome ρ, x = z >>= (fun r => .ok (.inr r)) ∧ y = z >>= fun r => .ok (.inr r) := by
  unfold StepsAgree at h
  split at h
  · exact .inl ⟨_, _, rfl, rfl, h⟩
  · exact .inr ⟨.ok _, rfl, h ▸ rfl⟩
  · exact .inr ⟨.timeout, rfl, rfl⟩
  · exact .inr ⟨.stuck, rfl, rfl⟩
  · exact h.elim

theorem run_succ_end {step : σ → Outcome (σ ⊕ ρ)} {s : σ} {z : Outcome ρ}
    (h : step s = z >>= fun r => .ok (.inr r)) (n : Nat) : run step (n + 1) s = z := by
  rw [run_succ, h]
  cases z <;> rfl

theorem trace_succ_end {step : σ → Outcome (σ ⊕ ρ)} {event : σ → Option ε} {s : σ}
    {z : Outcome ρ} (h : step s = z >>= fun r => .ok (.inr r)) (n : Nat) :
    trace step event (n + 1) s = (event s).toList := by
  show (event s).toList ++ _ = _
  rw [h]
  cases z <;> exact List.append_nil _

/-- **The second machine simulates the first one**, which may stutter. -/
def Stuttering (step : σ → Outcome (σ ⊕ ρ)) (step' : τ → Outcome (τ ⊕ ρ))
    (event : σ → Option ε) (event' : τ → Option ε) (count : σ → Nat) (I : σ → τ → Prop) : Prop :=
  ∀ s t, I s t →
    (∃ s', step s = .ok (.inl s') ∧ event s = none ∧ count s' < count s ∧ I s' t) ∨
    ∃ t', Quiet step' event' t t' ∧ event s = event' t' ∧ StepsAgree I (step s) (step' t')

namespace Stuttering

variable {step : σ → Outcome (σ ⊕ ρ)} {step' : τ → Outcome (τ ⊕ ρ)} {event : σ → Option ε}
  {event' : τ → Option ε} {count : σ → Nat} {I : σ → τ → Prop}

/-- What the first machine answers, the second one answers. -/
theorem run (h : Stuttering step step' event event' count I) {s : σ} {t : τ} (hI : I s t) {n : Nat}
    {x : Outcome ρ} (hx : x ≠ .timeout) (hrun : Machine.run step n s = x) :
    ∃ m, Machine.run step' m t = x := by
  induction n generalizing s t with
  | zero => exact absurd hrun.symm hx
  | succ n ih =>
    rcases h s t hI with ⟨s', hs, -, -, hI'⟩ | ⟨t', hquiet, -, hagree⟩
    · rw [run_succ, hs] at hrun
      exact ih hI' hrun
    · obtain ⟨k, hk⟩ := hquiet.steps.run
      rcases hagree.cases with ⟨s₁, t₁, hs, ht, hI'⟩ | ⟨z, hs, ht⟩
      · rw [run_succ, hs] at hrun
        obtain ⟨m, hm⟩ := ih hI' hrun
        refine ⟨m + 1 + k, ?_⟩
        rw [hk, run_succ, ht]
        exact hm
      · rw [run_succ_end hs] at hrun
        exact ⟨0 + 1 + k, by rw [hk, run_succ_end ht, hrun]⟩

/-- If the first machine runs on forever, so does the second one. -/
theorem run_timeout (h : Stuttering step step' event event' count I) {s : σ} {t : τ} (hI : I s t)
    (hrun : ∀ n, Machine.run step n s = .timeout) (m : Nat) :
    Machine.run step' m t = .timeout := by
  induction m generalizing s t with
  | zero => rfl
  | succ m ih =>
    -- The induction on the count is for the steps the second machine does not take.
    induction hc : count s using Nat.strongRecOn generalizing s with
    | _ c ihc =>
      rcases h s t hI with ⟨s', hs, -, hlt, hI'⟩ | ⟨t', hquiet, -, hagree⟩
      · refine ihc (count s') (hc ▸ hlt) hI' (fun n => ?_) rfl
        have := hrun (n + 1)
        rwa [run_succ, hs] at this
      · refine hquiet.steps.run_timeout ?_
        rcases hagree.cases with ⟨s₁, t₁, hs, ht, hI'⟩ | ⟨z, hs, ht⟩
        · rw [run_succ, ht]
          refine ih hI' fun n => ?_
          have := hrun (n + 1)
          rwa [run_succ, hs] at this
        · rw [run_succ_end ht, ← run_succ_end hs 0]
          exact hrun 1

/-- **They have the same results.** -/
theorem run_iff (h : Stuttering step step' event event' count I) {s : σ} {t : τ} (hI : I s t)
    {x : Outcome ρ} (hx : x ≠ .timeout) :
    (∃ n, Machine.run step n s = x) ↔ ∃ m, Machine.run step' m t = x := by
  refine ⟨fun ⟨n, hn⟩ => h.run hI hx hn, fun ⟨m, hm⟩ => ?_⟩
  by_cases hrun : ∀ n, Machine.run step n s = .timeout
  · exact absurd (hm.symm.trans (h.run_timeout hI hrun m)) hx
  · obtain ⟨n, hn⟩ := not_forall.mp hrun
    obtain ⟨m', hm'⟩ := h.run hI hn rfl
    have heq : Machine.run step' m' t = Machine.run step' m t := by
      rcases Nat.le_total m m' with hle | hle
      · exact (run_mono hle t).eq_of_ne (hm.symm ▸ hx)
      · exact ((run_mono hle t).eq_of_ne (hm'.symm ▸ hn)).symm
    exact ⟨n, by rw [← hm', heq, hm]⟩

/-- **The observations of the first machine** are made by the second one. -/
theorem trace_le (h : Stuttering step step' event event' count I) {s : σ} {t : τ} (hI : I s t)
    (n : Nat) : ∃ m, Machine.trace step event n s <+: Machine.trace step' event' m t := by
  induction n generalizing s t with
  | zero => exact ⟨0, List.nil_prefix⟩
  | succ n ih =>
    rcases h s t hI with ⟨s', hs, he, -, hI'⟩ | ⟨t', hquiet, he, hagree⟩
    · obtain ⟨m, hm⟩ := ih hI'
      exact ⟨m, by rw [trace_succ_inl hs, he]; exact hm⟩
    · obtain ⟨k, hk⟩ := hquiet.trace
      rcases hagree.cases with ⟨s₁, t₁, hs, ht, hI'⟩ | ⟨z, hs, ht⟩
      · obtain ⟨m, hm⟩ := ih hI'
        refine ⟨m + 1 + k, ?_⟩
        rw [hk, trace_succ_inl hs, trace_succ_inl ht, he]
        exact (List.prefix_append_right_inj _).mpr hm
      · have htrace : Machine.trace step event (n + 1) s =
            Machine.trace step' event' (0 + 1 + k) t := by
          rw [hk, trace_succ_end hs, trace_succ_end ht, he]
        exact ⟨0 + 1 + k, htrace ▸ List.prefix_rfl⟩

/-- **The observations of the second machine** are made by the first one. -/
theorem trace_ge (h : Stuttering step step' event event' count I) {s : σ} {t : τ} (hI : I s t)
    (m : Nat) : ∃ n, Machine.trace step' event' m t <+: Machine.trace step event n s := by
  induction m using Nat.strongRecOn generalizing s t with
  | _ m ih =>
    induction hc : count s using Nat.strongRecOn generalizing s with
    | _ c ihc =>
      rcases h s t hI with ⟨s', hs, he, hlt, hI'⟩ | ⟨t', hquiet, he, hagree⟩
      · obtain ⟨n, hn⟩ := ihc (count s') (hc ▸ hlt) hI' rfl
        exact ⟨n + 1, by rw [trace_succ_inl hs, he]; exact hn⟩
      · -- The steps ahead are not observed, and after them there are fewer left.
        have hahead : ∀ t, Quiet step' event' t t' → ∀ j ≤ m,
            ∃ n, Machine.trace step' event' j t <+: Machine.trace step event n s := by
          clear hquiet
          intro t hquiet j hj
          induction hquiet generalizing j with
          | refl t' =>
            cases j with
            | zero => exact ⟨0, List.nil_prefix⟩
            | succ j =>
              rcases hagree.cases with ⟨s₁, t₁, hs, ht, hI'⟩ | ⟨z, hs, ht⟩
              · obtain ⟨n, hn⟩ := ih j (by omega) hI'
                refine ⟨n + 1, ?_⟩
                rw [trace_succ_inl hs, trace_succ_inl ht, he]
                exact (List.prefix_append_right_inj _).mpr hn
              · have htrace : Machine.trace step' event' (j + 1) t' =
                    Machine.trace step event (0 + 1) s := by
                  rw [trace_succ_end hs, trace_succ_end ht, he]
                exact ⟨0 + 1, htrace ▸ List.prefix_rfl⟩
          | head ht he' _ ihq =>
            cases j with
            | zero => exact ⟨0, List.nil_prefix⟩
            | succ j =>
              obtain ⟨n, hn⟩ := ihq he hagree j (by omega)
              exact ⟨n, by rw [trace_succ_inl ht, he']; exact hn⟩
        exact hahead t hquiet m (Nat.le_refl m)

end Stuttering

end Machine
