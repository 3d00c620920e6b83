import Mathlib.Algebra.Order.BigOperators.Group.Finset
import ToyC.Lib.Recursion

/-!
# Backward dataflow by iteration

The facts that flow backwards along the edges of a graph: what holds behind a node is
what holds before one of its successors, and what holds before it is what the node
uses itself, and what holds behind it and is not killed. The equations are solved by
sweeps over the nodes, the last one first, until a sweep changes nothing.

A state of the iteration never claims more than one more visit of a node would
(`Facts.Sound`), so visits only add facts; since there are finitely many to add, the
iteration ends (`Problem.solve_total`), and where it ends the equations hold
(`Problem.solve_eq`). No state claims more than a relation that the flow of facts keeps to
(`Problem.Closed`), so what the iteration ends with is the least solution
(`Problem.solve_least`).
-/

namespace Dataflow

variable {α : Type} [DecidableEq α]

/-- **A backward problem** over the nodes below `size`. -/
structure Problem (α : Type) where
  size : Nat
  succs : Nat → List Nat
  use : Nat → Finset α
  kill : Nat → Finset α

/-- The facts before and behind each node. -/
structure Facts (α : Type) where
  into : Nat → Finset α := fun _ => ∅
  out : Nat → Finset α := fun _ => ∅

namespace Problem

variable (P : Problem α)

/-- What holds behind a node, from what holds before its successors. -/
def outOf (X : Facts α) (b : Nat) : Finset α :=
  (P.succs b).foldr (fun s acc => X.into s ∪ acc) ∅

/-- What holds before a node, from what holds behind it. -/
def intoOf (out : Finset α) (b : Nat) : Finset α := P.use b ∪ (out \ P.kill b)

/-- **Visit a node**: recompute its facts, and note whether they changed. -/
def visit (b : Nat) (s : Facts α × Bool) : Facts α × Bool :=
  let out := P.outOf s.1 b
  let into := P.intoOf out b
  (⟨Function.update s.1.into b into, Function.update s.1.out b out⟩,
    s.2 || out != s.1.out b || into != s.1.into b)

/-- **A sweep** over the nodes, the last one first. -/
def sweep (X : Facts α) : Facts α × Bool := (List.range P.size).foldr P.visit (X, false)

/-- **Sweep until nothing changes.** -/
def solve (n : Nat) : Outcome (Facts α) :=
  Outcome.loop (fun _ X =>
    let (X, changed) := P.sweep X
    .ok (if changed then .inl X else .inr X)) n {}

theorem visit_into (b : Nat) (s : Facts α × Bool) :
    (P.visit b s).1.into = Function.update s.1.into b (P.intoOf (P.outOf s.1 b) b) := rfl

theorem visit_out (b : Nat) (s : Facts α × Bool) :
    (P.visit b s).1.out = Function.update s.1.out b (P.outOf s.1 b) := rfl

/-! ## Where the iteration ends -/

theorem mem_outOf {X : Facts α} {b : Nat} {a : α} :
    a ∈ P.outOf X b ↔ ∃ s ∈ P.succs b, a ∈ X.into s := by
  unfold outOf
  induction P.succs b with
  | nil => simp
  | cons s succs ih =>
    rw [List.foldr_cons, Finset.mem_union, ih]
    simp

/-- The equations of a node. -/
def HoldsAt (X : Facts α) (b : Nat) : Prop :=
  X.out b = P.outOf X b ∧ X.into b = P.intoOf (X.out b) b

/-- A visit that changes nothing found the equations to hold. -/
theorem visit_false {b : Nat} {s : Facts α × Bool} (h : (P.visit b s).2 = false) :
    P.visit b s = s ∧ P.HoldsAt s.1 b := by
  obtain ⟨X, changed⟩ := s
  simp only [visit, Bool.or_eq_false_iff, bne_eq_false_iff_eq] at h
  obtain ⟨⟨rfl, hout⟩, hinto⟩ := h
  refine ⟨?_, hout.symm, ?_⟩
  · simp only [visit, hout, Function.update_eq_self, bne_self_eq_false, Bool.or_false]
    rw [← hout, hinto]
    simp
  · rw [← hout, hinto]

theorem sweep_false {X : Facts α} {bs : List Nat}
    (h : (bs.foldr P.visit (X, false)).2 = false) :
    bs.foldr P.visit (X, false) = (X, false) ∧ ∀ b ∈ bs, P.HoldsAt X b := by
  induction bs with
  | nil => exact ⟨rfl, by simp⟩
  | cons b bs ih =>
    rw [List.foldr_cons] at h ⊢
    obtain ⟨hsame, hat⟩ := P.visit_false h
    rw [hsame] at h ⊢
    obtain ⟨hbs, hall⟩ := ih h
    rw [hbs] at hat ⊢
    refine ⟨rfl, fun b' hb' => ?_⟩
    rcases List.mem_cons.mp hb' with rfl | hb'
    · exact hat
    · exact hall b' hb'

/-- **Where the iteration ends, the equations hold.** -/
theorem solve_eq {n : Nat} {X : Facts α} (h : P.solve n = .ok X) :
    ∀ b < P.size, P.HoldsAt X b := by
  have hloop : ∀ (n : Nat) (Y : Facts α), Outcome.loop (fun _ X =>
      let (X, changed) := P.sweep X
      .ok (if changed then .inl X else .inr X)) n Y = .ok X → ∀ b < P.size, P.HoldsAt X b := by
    intro n
    induction n with
    | zero =>
      intro Y h
      cases h
    | succ n ih =>
      intro Y h b hb
      rw [Outcome.loop_succ] at h
      cases hch : (P.sweep Y).2 with
      | true =>
        simp only [hch, if_true, Outcome.ok_bind, Sum.elim_inl] at h
        exact ih _ h b hb
      | false =>
        simp only [hch, Bool.false_eq_true, if_false, Outcome.ok_bind, Sum.elim_inr] at h
        obtain ⟨hsame, hall⟩ := P.sweep_false hch
        have hX : (P.sweep Y).1 = Y := congrArg Prod.fst hsame
        rw [hX] at h
        cases h
        exact hall b (List.mem_range.mpr hb)
  exact hloop n {} h

/-! ## It ends -/

/-- **A state of the iteration**: no fact without its reason, and all of them from `U`. -/
structure Sound (U : Finset α) (X : Facts α) : Prop where
  out : ∀ b, X.out b ⊆ P.outOf X b
  into : ∀ b, X.into b ⊆ P.intoOf (X.out b) b
  bound : ∀ b, X.into b ⊆ U ∧ X.out b ⊆ U

/-- The number of facts. -/
def count (X : Facts α) : Nat :=
  ∑ b ∈ Finset.range P.size, ((X.into b).card + (X.out b).card)

theorem outOf_mono {X Y : Facts α} (h : ∀ b, X.into b ⊆ Y.into b) (b : Nat) :
    P.outOf X b ⊆ P.outOf Y b := by
  intro a ha
  obtain ⟨s, hs, ha⟩ := P.mem_outOf.mp ha
  exact P.mem_outOf.mpr ⟨s, hs, h s ha⟩

theorem intoOf_mono {X Y : Finset α} (h : X ⊆ Y) (b : Nat) : P.intoOf X b ⊆ P.intoOf Y b :=
  Finset.union_subset_union_right (Finset.sdiff_subset_sdiff h (Finset.Subset.refl _))

omit [DecidableEq α] in
theorem count_lt {X Y : Facts α} (hinto : ∀ b, X.into b ⊆ Y.into b)
    (hout : ∀ b, X.out b ⊆ Y.out b) {b : Nat} (hb : b < P.size)
    (hne : X.into b ≠ Y.into b ∨ X.out b ≠ Y.out b) : P.count X < P.count Y := by
  refine Finset.sum_lt_sum (fun b _ => ?_) ⟨b, Finset.mem_range.mpr hb, ?_⟩
  · exact Nat.add_le_add (Finset.card_le_card (hinto b)) (Finset.card_le_card (hout b))
  · have h₁ := Finset.card_le_card (hinto b)
    have h₂ := Finset.card_le_card (hout b)
    rcases hne with hne | hne
    · have := Finset.card_lt_card ((hinto b).ssubset_of_ne hne)
      omega
    · have := Finset.card_lt_card ((hout b).ssubset_of_ne hne)
      omega

variable {P}

/-- **A visit only adds facts**, and adds some when it notes a change. -/
theorem Sound.visit {U : Finset α} (hU : ∀ b, P.use b ⊆ U) {X : Facts α} (changed : Bool)
    (h : P.Sound U X) {b : Nat} (hb : b < P.size) :
    P.Sound U (P.visit b (X, changed)).1 ∧ P.count X ≤ P.count (P.visit b (X, changed)).1 ∧
      ((P.visit b (X, changed)).2 = true → changed = true ∨
        P.count X < P.count (P.visit b (X, changed)).1) := by
  generalize hY : (P.visit b (X, changed)).1 = Y
  have hYinto : Y.into = Function.update X.into b (P.intoOf (P.outOf X b) b) := by
    rw [← hY, P.visit_into]
  have hYout : Y.out = Function.update X.out b (P.outOf X b) := by
    rw [← hY, P.visit_out]
  have hinto : ∀ b', X.into b' ⊆ Y.into b' := by
    intro b'
    rw [hYinto]
    by_cases hb' : b' = b
    · subst hb'
      rw [Function.update_self]
      exact (h.into b').trans (P.intoOf_mono (h.out b') b')
    · rw [Function.update_of_ne hb']
  have hout : ∀ b', X.out b' ⊆ Y.out b' := by
    intro b'
    rw [hYout]
    by_cases hb' : b' = b
    · subst hb'
      rw [Function.update_self]
      exact h.out b'
    · rw [Function.update_of_ne hb']
  have hle : P.count X ≤ P.count Y := Finset.sum_le_sum fun b' _ =>
    Nat.add_le_add (Finset.card_le_card (hinto b')) (Finset.card_le_card (hout b'))
  have hbound : P.outOf X b ⊆ U := by
    intro a ha
    obtain ⟨s, -, ha⟩ := P.mem_outOf.mp ha
    exact (h.bound s).1 ha
  refine ⟨⟨fun b' => ?_, fun b' => ?_, fun b' => ?_⟩, hle, fun hch => ?_⟩
  · rw [hYout]
    by_cases hb' : b' = b
    · subst hb'
      rw [Function.update_self]
      exact P.outOf_mono hinto b'
    · rw [Function.update_of_ne hb']
      exact (h.out b').trans (P.outOf_mono hinto b')
  · rw [hYinto, hYout]
    by_cases hb' : b' = b
    · subst hb'
      rw [Function.update_self, Function.update_self]
    · rw [Function.update_of_ne hb', Function.update_of_ne hb']
      exact h.into b'
  · rw [hYinto, hYout]
    by_cases hb' : b' = b
    · subst hb'
      rw [Function.update_self, Function.update_self]
      exact ⟨Finset.union_subset (hU b') (Finset.sdiff_subset.trans hbound), hbound⟩
    · rw [Function.update_of_ne hb', Function.update_of_ne hb']
      exact h.bound b'
  · simp only [Problem.visit, Bool.or_eq_true, bne_iff_ne, ne_eq] at hch
    rcases hch with (hch | hne) | hne
    · exact .inl hch
    · refine .inr (P.count_lt hinto hout hb (.inr fun heq => hne ?_))
      rw [heq, hYout, Function.update_self]
    · refine .inr (P.count_lt hinto hout hb (.inl fun heq => hne ?_))
      rw [heq, hYinto, Function.update_self]

/-- **So does a sweep.** -/
theorem Sound.sweep {U : Finset α} (hU : ∀ b, P.use b ⊆ U) {X : Facts α} (h : P.Sound U X) :
    P.Sound U (P.sweep X).1 ∧ ((P.sweep X).2 = true → P.count X < P.count (P.sweep X).1) := by
  have hfold : ∀ bs : List Nat, (∀ b ∈ bs, b < P.size) →
      P.Sound U (bs.foldr P.visit (X, false)).1 ∧
        P.count X ≤ P.count (bs.foldr P.visit (X, false)).1 ∧
        ((bs.foldr P.visit (X, false)).2 = true →
          P.count X < P.count (bs.foldr P.visit (X, false)).1) := by
    intro bs hbs
    induction bs with
    | nil => exact ⟨h, Nat.le_refl _, fun hch => by cases hch⟩
    | cons b bs ih =>
      obtain ⟨hs, hle, hlt⟩ := ih fun b' hb' => hbs b' (List.mem_cons_of_mem _ hb')
      rw [List.foldr_cons]
      obtain ⟨hs', hle', hlt'⟩ := Sound.visit hU (bs.foldr P.visit (X, false)).2 hs
        (hbs b List.mem_cons_self)
      refine ⟨hs', Nat.le_trans hle hle', fun hch => ?_⟩
      rcases hlt' hch with hch | hlt'
      · exact Nat.lt_of_lt_of_le (hlt hch) hle'
      · exact Nat.lt_of_le_of_lt hle hlt'
  obtain ⟨hs, -, hlt⟩ := hfold (List.range P.size) fun b hb => List.mem_range.mp hb
  exact ⟨hs, hlt⟩

theorem Sound.count_le {U : Finset α} {X : Facts α} (h : P.Sound U X) :
    P.count X ≤ P.size * (U.card + U.card) := by
  have hsum : P.count X ≤ ∑ _b ∈ Finset.range P.size, (U.card + U.card) :=
    Finset.sum_le_sum fun b _ =>
      Nat.add_le_add (Finset.card_le_card (h.bound b).1) (Finset.card_le_card (h.bound b).2)
  simpa using hsum

/-- **The iteration ends**, when there are finitely many facts. -/
theorem solve_total {U : Finset α} (hU : ∀ b, P.use b ⊆ U) :
    ∃ n X, P.solve n = .ok X ∧ P.Sound U X := by
  have hstart : P.Sound U {} := ⟨fun _ => by simp, fun _ => by simp, fun _ => by simp⟩
  have hloop : ∀ (k : Nat) (Y : Facts α), P.Sound U Y →
      P.size * (U.card + U.card) - P.count Y ≤ k → ∃ n X, Outcome.loop (fun _ X =>
        let (X, changed) := P.sweep X
        .ok (if changed then .inl X else .inr X)) n Y = .ok X ∧ P.Sound U X := by
    intro k
    induction k with
    | zero =>
      intro Y hY hk
      obtain ⟨hs, hlt⟩ := hY.sweep hU
      have hle := hs.count_le
      have hch : (P.sweep Y).2 = false := Bool.eq_false_iff.mpr fun hch => by
        have := hlt hch
        omega
      refine ⟨1, (P.sweep Y).1, ?_, hs⟩
      rw [Outcome.loop_succ]
      simp [hch]
    | succ k ih =>
      intro Y hY hk
      obtain ⟨hs, hlt⟩ := hY.sweep hU
      have hle := hs.count_le
      cases hch : (P.sweep Y).2 with
      | true =>
        obtain ⟨n, X, hn, hX⟩ := ih (P.sweep Y).1 hs (by have := hlt hch; omega)
        refine ⟨n + 1, X, ?_, hX⟩
        rw [Outcome.loop_succ]
        simpa [hch] using hn
      | false =>
        refine ⟨1, (P.sweep Y).1, ?_, hs⟩
        rw [Outcome.loop_succ]
        simp [hch]
  exact hloop _ {} hstart (Nat.le_refl _)

/-! ## It ends at the least solution -/

/-- **A relation the flow of facts keeps to**: what a node uses holds before it, and so does
what holds behind it and is not killed; what holds before a successor holds behind. -/
structure Closed (P : Problem α) (into out : Nat → α → Prop) : Prop where
  use : ∀ b, ∀ a ∈ P.use b, into b a
  pass : ∀ b a, out b a → a ∉ P.kill b → into b a
  succ : ∀ b, ∀ s ∈ P.succs b, ∀ a, into s a → out b a

/-- The facts of a state are in a relation. -/
structure Within (into out : Nat → α → Prop) (X : Facts α) : Prop where
  into : ∀ b, ∀ a ∈ X.into b, into b a
  out : ∀ b, ∀ a ∈ X.out b, out b a

section Least

variable {into out : Nat → α → Prop}

/-- **A visit keeps to the relation.** -/
theorem Within.visit (hP : P.Closed into out) {s : Facts α × Bool} (h : Within into out s.1)
    (b : Nat) : Within into out (P.visit b s).1 := by
  have hout : ∀ a ∈ P.outOf s.1 b, out b a := by
    intro a ha
    obtain ⟨t, ht, ha⟩ := P.mem_outOf.mp ha
    exact hP.succ b t ht a (h.into t a ha)
  have hinto : ∀ a ∈ P.intoOf (P.outOf s.1 b) b, into b a := by
    intro a ha
    rcases Finset.mem_union.mp ha with ha | ha
    · exact hP.use b a ha
    · obtain ⟨ha, hk⟩ := Finset.mem_sdiff.mp ha
      exact hP.pass b a (hout a ha) hk
  refine ⟨fun b' a ha => ?_, fun b' a ha => ?_⟩
  · by_cases hb : b' = b
    · subst hb
      rw [P.visit_into, Function.update_self] at ha
      exact hinto a ha
    · rw [P.visit_into, Function.update_of_ne hb] at ha
      exact h.into b' a ha
  · by_cases hb : b' = b
    · subst hb
      rw [P.visit_out, Function.update_self] at ha
      exact hout a ha
    · rw [P.visit_out, Function.update_of_ne hb] at ha
      exact h.out b' a ha

/-- **So does a sweep.** -/
theorem Within.sweep (hP : P.Closed into out) {X : Facts α} (h : Within into out X) :
    Within into out (P.sweep X).1 := by
  unfold Problem.sweep
  induction List.range P.size with
  | nil => exact h
  | cons b bs ih => exact ih.visit hP b

/-- **What the iteration ends with is the least solution.** -/
theorem solve_least (hP : P.Closed into out) {n : Nat} {X : Facts α} (h : P.solve n = .ok X) :
    Within into out X := by
  refine Outcome.loop_invariant (I := Within into out) (Q := Within into out)
    (fun n Y Y' hY hstep => ?_) (fun n Y Y' hY hstep => ?_) ⟨by simp, by simp⟩ h
  · dsimp only at hstep
    split at hstep
    · cases hstep
      exact hY.sweep hP
    · cases hstep
  · dsimp only at hstep
    split at hstep
    · cases hstep
    · cases hstep
      exact hY.sweep hP

end Least

end Problem

end Dataflow
