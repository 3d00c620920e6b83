import Mathlib.Algebra.Order.BigOperators.Group.Finset
import Mathlib.Data.List.Chain
import ToyC.Lib.Recursion

/-!
# Dominators and natural loops

A flow graph is given by the predecessors of its nodes, which are the numbers below a size;
the node `0` is its entry. A node dominates another one when the other one is not reached
without it. The sets of dominators are found by iteration, from sets that are too large:
a node is dominated by itself, and by what dominates all its predecessors. The iteration ends
(`dominators_total`), where these equations hold (`dominators_eq`). What the equations say to
dominate a node is on every path to it (`dominators_sound`), whether all nodes are reached or
not; the other way round they have to be, for what is not reached has an empty set of paths,
but may have predecessors that keep its set of dominators small (`dominators_complete`).

An edge to a node that dominates its source closes a loop: the nodes that reach the source
without going through the target, which is its header. They are found by walking back
from the source (`naturalLoop_total`), and they are the least set that is closed under
predecessors, except for those of the header (`naturalLoop_least`).
-/

namespace FlowGraph

variable (preds : Nat → List Nat) (size : Nat)

/-! ## Dominators -/

/-- What dominates a node, from what dominates its predecessors. A node without
predecessors is dominated by itself alone. -/
def domOf (dom : Nat → Finset Nat) (b : Nat) : Finset Nat :=
  insert b (if preds b = [] then ∅
    else (Finset.range size).filter fun v => ∀ p ∈ preds b, v ∈ dom p)

/-- **Visit a node**: recompute its dominators, and note whether they changed. -/
def domVisit (s : (Nat → Finset Nat) × Bool) (b : Nat) : (Nat → Finset Nat) × Bool :=
  (Function.update s.1 b (domOf preds size s.1 b), s.2 || domOf preds size s.1 b != s.1 b)

/-- **A sweep** over the nodes other than the entry. -/
def domSweep (dom : Nat → Finset Nat) : (Nat → Finset Nat) × Bool :=
  (List.range' 1 (size - 1)).foldl (domVisit preds size) (dom, false)

/-- At first everything dominates a node, but the entry alone dominates the entry. -/
def domStart (b : Nat) : Finset Nat := if b = 0 then {0} else Finset.range size

/-- **The dominators**: sweep until nothing changes. -/
def dominators (n : Nat) : Outcome (Nat → Finset Nat) :=
  Outcome.loop (fun _ dom =>
    let (dom, changed) := domSweep preds size dom
    .ok (if changed then .inl dom else .inr dom)) n (domStart size)

section Dominators

variable {preds size}

theorem mem_domOf {dom : Nat → Finset Nat} {b v : Nat} (hv : v ∈ domOf preds size dom b)
    (hne : v ≠ b) : ∀ p ∈ preds b, v ∈ dom p := by
  unfold domOf at hv
  rcases Finset.mem_insert.mp hv with hvb | hv
  · exact absurd hvb hne
  · split at hv
    · exact absurd hv (Finset.notMem_empty v)
    · exact (Finset.mem_filter.mp hv).2

theorem domOf_subset {dom : Nat → Finset Nat} {b : Nat} (hb : b < size) :
    domOf preds size dom b ⊆ Finset.range size := by
  refine Finset.insert_subset (Finset.mem_range.mpr hb) ?_
  split
  · exact Finset.empty_subset _
  · exact Finset.filter_subset _ _

theorem domOf_mono {dom dom' : Nat → Finset Nat} (h : ∀ b, dom b ⊆ dom' b) (b : Nat) :
    domOf preds size dom b ⊆ domOf preds size dom' b := by
  unfold domOf
  refine Finset.insert_subset_insert _ ?_
  split
  · exact Finset.empty_subset _
  · exact Finset.monotone_filter_right _ fun v _ hv p hp => h p (hv p hp)

/-- A visit that changes nothing found the equation to hold. -/
theorem domVisit_false {s : (Nat → Finset Nat) × Bool} {b : Nat}
    (h : (domVisit preds size s b).2 = false) :
    domVisit preds size s b = s ∧ s.1 b = domOf preds size s.1 b := by
  obtain ⟨dom, changed⟩ := s
  simp only [domVisit, Bool.or_eq_false_iff, bne_eq_false_iff_eq] at h
  obtain ⟨rfl, heq⟩ := h
  refine ⟨?_, heq.symm⟩
  simp only [domVisit, heq, Function.update_eq_self, bne_self_eq_false, Bool.or_false]

theorem domSweep_false {bs : List Nat} {s : (Nat → Finset Nat) × Bool}
    (h : (bs.foldl (domVisit preds size) s).2 = false) :
    bs.foldl (domVisit preds size) s = s ∧ ∀ b ∈ bs, s.1 b = domOf preds size s.1 b := by
  induction bs generalizing s with
  | nil => exact ⟨rfl, by simp⟩
  | cons b bs ih =>
    rw [List.foldl_cons] at h ⊢
    obtain ⟨hsame, hall⟩ := ih h
    have hvisit := domVisit_false (by rw [← hsame]; exact h)
    rw [hvisit.1] at hsame hall ⊢
    refine ⟨hsame, fun b' hb' => ?_⟩
    rcases List.mem_cons.mp hb' with rfl | hb'
    · exact hvisit.2
    · exact hall b' hb'

/-- A sweep leaves the entry alone. -/
theorem domSweep_entry (dom : Nat → Finset Nat) : (domSweep preds size dom).1 0 = dom 0 := by
  have hfold : ∀ (bs : List Nat) (s : (Nat → Finset Nat) × Bool), (∀ b ∈ bs, b ≠ 0) →
      (bs.foldl (domVisit preds size) s).1 0 = s.1 0 := by
    intro bs
    induction bs with
    | nil => exact fun s _ => rfl
    | cons b bs ih =>
      intro s hbs
      rw [List.foldl_cons, ih _ fun b' hb' => hbs b' (List.mem_cons_of_mem _ hb')]
      exact Function.update_of_ne (hbs b List.mem_cons_self).symm ..
  refine hfold _ _ fun b hb => ?_
  have := List.mem_range'_1.mp hb
  omega

/-- **Where the iteration ends, the equations hold.** -/
theorem dominators_eq {n : Nat} {dom : Nat → Finset Nat}
    (h : dominators preds size n = .ok dom) :
    dom 0 = {0} ∧ ∀ b < size, b ≠ 0 → dom b = domOf preds size dom b := by
  refine Outcome.loop_invariant (I := fun dom : Nat → Finset Nat => dom 0 = {0})
    (Q := fun dom => dom 0 = {0} ∧ ∀ b < size, b ≠ 0 → dom b = domOf preds size dom b)
    (fun n dom dom' hdom hstep => ?_) (fun n dom dom' hdom hstep => ?_) (by simp [domStart]) h
  · dsimp only at hstep
    split at hstep
    · cases hstep
      exact (domSweep_entry dom).trans hdom
    · cases hstep
  · dsimp only at hstep
    split at hstep
    · cases hstep
    · rename_i hchanged
      cases hstep
      obtain ⟨hsame, hall⟩ := domSweep_false (Bool.eq_false_iff.mpr hchanged)
      have hdom' : (domSweep preds size dom).1 = dom := congrArg Prod.fst hsame
      rw [hdom']
      refine ⟨hdom, fun b hb h0 => hall b (List.mem_range'_1.mpr ?_)⟩
      omega

/-- **A state of the iteration**: another visit of a node would only remove dominators. -/
structure DomState (preds : Nat → List Nat) (size : Nat) (dom : Nat → Finset Nat) : Prop where
  shrink : ∀ b < size, b ≠ 0 → domOf preds size dom b ⊆ dom b

/-- How much there is to lose. -/
def domCount (size : Nat) (dom : Nat → Finset Nat) : Nat :=
  ∑ b ∈ Finset.range size, (dom b).card

/-- **A visit only removes dominators**, and removes some when it notes a change. -/
theorem DomState.visit {s : (Nat → Finset Nat) × Bool} (h : DomState preds size s.1) {b : Nat}
    (hb : b < size) (h0 : b ≠ 0) :
    DomState preds size (domVisit preds size s b).1 ∧
      domCount size (domVisit preds size s b).1 ≤ domCount size s.1 ∧
      ((domVisit preds size s b).2 = true → s.2 = true ∨
        domCount size (domVisit preds size s b).1 < domCount size s.1) := by
  obtain ⟨dom, changed⟩ := s
  show DomState preds size (Function.update dom b (domOf preds size dom b)) ∧
    domCount size (Function.update dom b (domOf preds size dom b)) ≤ domCount size dom ∧
    ((changed || domOf preds size dom b != dom b) = true → changed = true ∨
      domCount size (Function.update dom b (domOf preds size dom b)) < domCount size dom)
  have hle : ∀ c, Function.update dom b (domOf preds size dom b) c ⊆ dom c := by
    intro c
    by_cases hc : c = b
    · subst hc
      rw [Function.update_self]
      exact h.shrink c hb h0
    · rw [Function.update_of_ne hc]
  refine ⟨⟨fun c hc hc0 => ?_⟩, ?_, fun hchanged => ?_⟩
  · refine (domOf_mono hle c).trans ?_
    by_cases hcb : c = b
    · subst hcb
      rw [Function.update_self]
    · rw [Function.update_of_ne hcb]
      exact h.shrink c hc hc0
  · exact Finset.sum_le_sum fun c _ => Finset.card_le_card (hle c)
  · rw [Bool.or_eq_true, bne_iff_ne] at hchanged
    refine hchanged.imp_right fun hne => ?_
    refine Finset.sum_lt_sum (fun c _ => Finset.card_le_card (hle c))
      ⟨b, Finset.mem_range.mpr hb, ?_⟩
    rw [Function.update_self]
    exact Finset.card_lt_card ((h.shrink b hb h0).ssubset_of_ne hne)

/-- **So does a sweep.** -/
theorem DomState.sweep {dom : Nat → Finset Nat} (h : DomState preds size dom) :
    DomState preds size (domSweep preds size dom).1 ∧
      ((domSweep preds size dom).2 = true →
        domCount size (domSweep preds size dom).1 < domCount size dom) := by
  have hfold : ∀ (bs : List Nat) (s : (Nat → Finset Nat) × Bool), (∀ b ∈ bs, b < size ∧ b ≠ 0) →
      DomState preds size s.1 →
      DomState preds size (bs.foldl (domVisit preds size) s).1 ∧
        domCount size (bs.foldl (domVisit preds size) s).1 ≤ domCount size s.1 ∧
        ((bs.foldl (domVisit preds size) s).2 = true → s.2 = true ∨
          domCount size (bs.foldl (domVisit preds size) s).1 < domCount size s.1) := by
    intro bs
    induction bs with
    | nil => exact fun s _ hs => ⟨hs, Nat.le_refl _, .inl⟩
    | cons b bs ih =>
      intro s hbs hs
      obtain ⟨hb, h0⟩ := hbs b List.mem_cons_self
      obtain ⟨hs', hle', hlt'⟩ := hs.visit hb h0
      obtain ⟨hs'', hle, hlt⟩ := ih _ (fun b' hb' => hbs b' (List.mem_cons_of_mem _ hb')) hs'
      rw [List.foldl_cons]
      refine ⟨hs'', hle.trans hle', fun hchanged => ?_⟩
      rcases hlt hchanged with hchanged | hlt
      · exact (hlt' hchanged).imp_right fun hlt' => hle.trans_lt hlt'
      · exact .inr (hlt.trans_le hle')
  obtain ⟨hs, -, hlt⟩ := hfold (List.range' 1 (size - 1)) (dom, false) (fun b hb => by
    have := List.mem_range'_1.mp hb
    omega) h
  exact ⟨hs, fun hchanged => (hlt hchanged).resolve_left Bool.false_ne_true⟩

/-- **The iteration ends.** -/
theorem dominators_total (preds : Nat → List Nat) (size : Nat) :
    ∃ n dom, dominators preds size n = .ok dom := by
  refine Outcome.loop_total (I := DomState preds size) (domCount size) (fun n dom hdom => ?_)
    ⟨fun b hb h0 => ?_⟩
  · obtain ⟨hsweep, hlt⟩ := hdom.sweep
    dsimp only
    split
    · rename_i hchanged
      exact .inr ⟨_, rfl, hsweep, hlt hchanged⟩
    · exact .inl ⟨_, rfl⟩
  · unfold domStart
    rw [if_neg h0]
    exact domOf_subset hb

/-! ## Dominance by paths -/

/-- **A path from the entry** to a node. -/
inductive PathTo (preds : Nat → List Nat) : Nat → List Nat → Prop where
  | entry : PathTo preds 0 [0]
  | snoc {p b : Nat} {path : List Nat} (h : PathTo preds p path) (hp : p ∈ preds b) :
      PathTo preds b (path ++ [b])

/-- **A node dominates another one** when it is on every path to it. -/
def Dominates (preds : Nat → List Nat) (v b : Nat) : Prop := ∀ path, PathTo preds b path → v ∈ path

/-- The paths are those in the sense of lists: they start at the entry, end at the node, and go
from predecessor to successor. -/
theorem pathTo_iff {b : Nat} {path : List Nat} :
    PathTo preds b path ↔
      path.head? = some 0 ∧ path.getLast? = some b ∧ path.IsChain fun p b => p ∈ preds b := by
  constructor
  · intro h
    induction h with
    | entry => exact ⟨rfl, rfl, .singleton 0⟩
    | @snoc p b path h hp ih =>
      obtain ⟨hhead, hlast, hedges⟩ := ih
      refine ⟨by rw [List.head?_append, hhead]; rfl, by simp, hedges.append (.singleton b) ?_⟩
      intro x hx y hy
      obtain rfl : p = x := Option.some.inj (hlast.symm.trans hx)
      obtain rfl : b = y := Option.some.inj hy
      exact hp
  · rintro ⟨hhead, hlast, hedges⟩
    induction path using List.reverseRecOn generalizing b with
    | nil => cases hhead
    | append_singleton init x ih =>
      obtain rfl : x = b := by simpa using hlast
      obtain ⟨hinit, -, hedge⟩ := List.isChain_append.mp hedges
      cases hp : init.getLast? with
      | none =>
        obtain rfl : init = [] := List.getLast?_eq_none_iff.mp hp
        obtain rfl : x = 0 := by simpa using hhead
        exact .entry
      | some p =>
        have hne : init ≠ [] := fun hnil => by simp [hnil] at hp
        rw [List.head?_append_of_ne_nil init hne] at hhead
        exact .snoc (ih hhead hp hinit) (hedge p hp x rfl)

/-- **What the iteration ends with dominates.** -/
theorem dominators_sound (hin : ∀ b p, p ∈ preds b → b < size) {n : Nat} {dom : Nat → Finset Nat}
    (h : dominators preds size n = .ok dom) {v b : Nat} (hv : v ∈ dom b) : Dominates preds v b := by
  obtain ⟨hentry, heq⟩ := dominators_eq h
  intro path hpath
  -- The entry is on every path, and dominated by nothing else.
  have h0 : ∀ {b path}, PathTo preds b path → 0 ∈ path := by
    intro b path hpath
    exact List.mem_of_mem_head? (pathTo_iff.mp hpath).1
  induction hpath with
  | entry => rwa [hentry, Finset.mem_singleton, ← List.mem_singleton] at hv
  | @snoc p b path hpath hp ih =>
    by_cases hb : b = 0
    · rw [hb, hentry, Finset.mem_singleton] at hv
      exact List.mem_append_left _ (hv ▸ h0 hpath)
    · rw [heq b (hin b p hp) hb] at hv
      by_cases hvb : v = b
      · exact List.mem_append_right _ (List.mem_singleton.mpr hvb)
      · exact List.mem_append_left _ (ih (mem_domOf hv hvb p hp))

/-- **The sets are large enough**: what dominates a node is in its set. -/
def Covers (preds : Nat → List Nat) (size : Nat) (dom : Nat → Finset Nat) : Prop :=
  ∀ b < size, ∀ v, Dominates preds v b → v ∈ dom b

section Reachable

variable (hpreds : ∀ b p, p ∈ preds b → p < size)
  (hreach : ∀ b < size, ∃ path, PathTo preds b path)
include hpreds hreach

/-- A node that dominates another one is a node. -/
theorem Dominates.lt {v b : Nat} (hb : b < size) (h : Dominates preds v b) : v < size := by
  obtain ⟨path, hpath⟩ := hreach b hb
  have hmem : ∀ x ∈ path, x < size := by
    clear h
    induction hpath with
    | entry => simpa using hb
    | snoc hpath hp ih =>
      intro x hx
      rcases List.mem_append.mp hx with hx | hx
      · exact ih (hpreds _ _ hp) x hx
      · rwa [List.mem_singleton.mp hx]
  exact hmem v (h path hpath)

/-- **What dominates a node dominates its predecessors**, but for the node itself. -/
theorem Dominates.mem_domOf {dom : Nat → Finset Nat} (hdom : Covers preds size dom) {v b : Nat}
    (hb : b < size) (h0 : b ≠ 0) (h : Dominates preds v b) : v ∈ domOf preds size dom b := by
  by_cases hvb : v = b
  · exact Finset.mem_insert.mpr (.inl hvb)
  · have hsome : preds b ≠ [] := by
      obtain ⟨path, hpath⟩ := hreach b hb
      cases hpath with
      | entry => exact absurd rfl h0
      | snoc _ hp => exact List.ne_nil_of_mem hp
    refine Finset.mem_insert_of_mem ?_
    rw [if_neg hsome]
    refine Finset.mem_filter.mpr ⟨Finset.mem_range.mpr (h.lt hpreds hreach hb), fun p hp => ?_⟩
    refine hdom p (hpreds b p hp) v fun path hpath => ?_
    rcases List.mem_append.mp (h _ (hpath.snoc hp)) with hv | hv
    · exact hv
    · exact absurd (List.mem_singleton.mp hv) hvb

theorem Covers.sweep {dom : Nat → Finset Nat} (hdom : Covers preds size dom) :
    Covers preds size (domSweep preds size dom).1 := by
  have hfold : ∀ (bs : List Nat) (s : (Nat → Finset Nat) × Bool), (∀ b ∈ bs, b < size ∧ b ≠ 0) →
      Covers preds size s.1 → Covers preds size (bs.foldl (domVisit preds size) s).1 := by
    intro bs
    induction bs with
    | nil => exact fun s _ hs => hs
    | cons b bs ih =>
      intro s hbs hs
      obtain ⟨hb, h0⟩ := hbs b List.mem_cons_self
      refine ih _ (fun b' hb' => hbs b' (List.mem_cons_of_mem _ hb')) fun c hc v hv => ?_
      show v ∈ Function.update s.1 b (domOf preds size s.1 b) c
      by_cases hcb : c = b
      · subst hcb
        rw [Function.update_self]
        exact hv.mem_domOf hpreds hreach hs hc h0
      · rw [Function.update_of_ne hcb]
        exact hs c hc v hv
  refine hfold _ _ (fun b hb => ?_) hdom
  have := List.mem_range'_1.mp hb
  omega

/-- **What dominates is found**, where every node is reached. -/
theorem dominators_complete {n : Nat} {dom : Nat → Finset Nat}
    (h : dominators preds size n = .ok dom) : Covers preds size dom := by
  refine Outcome.loop_invariant (I := Covers preds size) (Q := Covers preds size)
    (fun n dom dom' hdom hstep => ?_) (fun n dom dom' hdom hstep => ?_) (fun b hb v hv => ?_) h
  · dsimp only at hstep
    split at hstep
    · cases hstep
      exact hdom.sweep hpreds hreach
    · cases hstep
  · dsimp only at hstep
    split at hstep
    · cases hstep
    · cases hstep
      exact hdom.sweep hpreds hreach
  · unfold domStart
    split
    · rename_i h0
      subst h0
      exact Finset.mem_singleton.mpr (List.mem_singleton.mp (hv [0] .entry))
    · exact Finset.mem_range.mpr (hv.lt hpreds hreach hb)

end Reachable

end Dominators

/-! ## Natural loops -/

/-- The nodes found so far, and those of them whose predecessors were not looked at. -/
abbrev LoopState := Finset Nat × List Nat

/-- A predecessor is found. -/
def loopPush (s : LoopState) (p : Nat) : LoopState :=
  if p ∈ s.1 then s else (insert p s.1, p :: s.2)

/-- Look at the predecessors of the node found last. -/
def loopStep (s : LoopState) : LoopState ⊕ Finset Nat :=
  match s.2 with
  | [] => .inr s.1
  | x :: todo => .inl ((preds x).foldl loopPush (s.1, todo))

/-- **The natural loop** of an edge: the nodes that reach its source without going through its
target. -/
def naturalLoop (u v n : Nat) : Outcome (Finset Nat) :=
  Outcome.loop (fun _ s => .ok (loopStep preds s)) n (if u = v then ({v}, []) else ({u, v}, [u]))

section NaturalLoop

variable {preds size}

/-- A set that has a loop: closed under predecessors, but for those of the header. -/
structure LoopClosed (preds : Nat → List Nat) (u v : Nat) (S : Set Nat) : Prop where
  source : u ∈ S
  header : v ∈ S
  preds : ∀ x ∈ S, x ≠ v → ∀ p ∈ preds x, p ∈ S

/-- **What is pushed by a walk**: of the elements of a list those that were not seen, each once. -/
theorem foldl_push {α σ : Type} {seen : σ → α → Prop} {push : σ → α → σ}
    (hold : ∀ s a, seen s a → push s a = s)
    (hnew : ∀ s a, ¬ seen s a → ∀ b, seen (push s a) b ↔ b = a ∨ seen s b) (l : List α) (s : σ) :
    ∃ new : List α, new.Nodup ∧ (∀ a ∈ new, a ∈ l ∧ ¬ seen s a) ∧
      (∀ a ∈ l, seen s a ∨ a ∈ new) ∧ l.foldl push s = new.foldr (fun a s => push s a) s := by
  induction l generalizing s with
  | nil => exact ⟨[], .nil, by simp, by simp, rfl⟩
  | cons a l ih =>
    rw [List.foldl_cons]
    by_cases ha : seen s a
    · obtain ⟨new, hnodup, hfresh, hall, heq⟩ := ih s
      refine ⟨new, hnodup, fun b hb => ⟨List.mem_cons_of_mem _ (hfresh b hb).1, (hfresh b hb).2⟩,
        fun b hb => ?_, by rw [hold s a ha, heq]⟩
      rcases List.mem_cons.mp hb with rfl | hb
      · exact .inl ha
      · exact hall b hb
    · obtain ⟨new, hnodup, hfresh, hall, heq⟩ := ih (push s a)
      have hseen := hnew s a ha
      refine ⟨new ++ [a], ?_, fun b hb => ?_, fun b hb => ?_, by rw [heq, List.foldr_append]; rfl⟩
      · refine List.nodup_append.mpr ⟨hnodup, List.nodup_singleton a, fun b hb c hc hbc => ?_⟩
        rw [List.mem_singleton.mp hc] at hbc
        exact (hfresh b hb).2 ((hseen b).mpr (.inl hbc))
      · rcases List.mem_append.mp hb with hb | hb
        · obtain ⟨hmem, hnot⟩ := hfresh b hb
          exact ⟨List.mem_cons_of_mem _ hmem, fun h => hnot ((hseen b).mpr (.inr h))⟩
        · rw [List.mem_singleton.mp hb]
          exact ⟨List.mem_cons_self, ha⟩
      · rcases List.mem_cons.mp hb with rfl | hb
        · exact .inr (List.mem_append_right _ (List.mem_singleton_self _))
        · rcases hall b hb with hb | hb
          · rcases (hseen b).mp hb with rfl | hb
            · exact .inr (List.mem_append_right _ (List.mem_singleton_self _))
            · exact .inl hb
          · exact .inr (List.mem_append_left _ hb)

theorem foldl_loopPush (ps : List Nat) (s : LoopState) :
    ∃ new : List Nat, new.Nodup ∧ (∀ p ∈ new, p ∈ ps ∧ p ∉ s.1) ∧
      (∀ p ∈ ps, p ∈ s.1 ∨ p ∈ new) ∧
      ps.foldl loopPush s = (s.1 ∪ new.toFinset, new ++ s.2) := by
  have hold : ∀ (s : LoopState) p, p ∈ s.1 → loopPush s p = s := fun s p hp => if_pos hp
  have hfresh : ∀ (s : LoopState) p, p ∉ s.1 → ∀ q, q ∈ (loopPush s p).1 ↔ q = p ∨ q ∈ s.1 := by
    intro s p hp q
    rw [loopPush, if_neg hp]
    exact Finset.mem_insert
  obtain ⟨new, hnodup, hnew, hall, heq⟩ := foldl_push hold hfresh ps s
  refine ⟨new, hnodup, hnew, hall, heq.trans ?_⟩
  clear hall heq
  induction new with
  | nil => simp
  | cons p new ih =>
    rw [List.forall_mem_cons] at hnew
    obtain ⟨hp, hnodup⟩ := List.nodup_cons.mp hnodup
    rw [List.foldr_cons, ih hnodup hnew.2, loopPush, if_neg (by simp [hnew.1.2, hp])]
    simp

/-- **The walk so far**: what is found is in the loop, and what is missing of it is behind a
node that was not looked at yet. -/
structure Walk (preds : Nat → List Nat) (u v : Nat) (s : LoopState) : Prop where
  source : u ∈ s.1
  header : v ∈ s.1
  found : ∀ x ∈ s.2, x ∈ s.1 ∧ x ≠ v
  closed : ∀ x ∈ s.1, x ≠ v → x ∉ s.2 → ∀ p ∈ preds x, p ∈ s.1
  least : ∀ S, LoopClosed preds u v S → ∀ x ∈ s.1, x ∈ S

theorem Walk.start (u v : Nat) :
    Walk preds u v (if u = v then ({v}, []) else ({u, v}, [u])) := by
  split
  · rename_i huv
    subst huv
    refine ⟨by simp, by simp, by simp, fun x hx hxv => ?_, fun S hS x hx => ?_⟩
    · exact absurd (Finset.mem_singleton.mp hx) hxv
    · rw [Finset.mem_singleton.mp hx]
      exact hS.header
  · rename_i huv
    refine ⟨by simp, by simp, by simpa using huv, fun x hx hxv hxu => ?_, fun S hS x hx => ?_⟩
    · rcases Finset.mem_insert.mp hx with rfl | hx
      · exact absurd (List.mem_singleton_self _) hxu
      · exact absurd (Finset.mem_singleton.mp hx) hxv
    · rcases Finset.mem_insert.mp hx with rfl | hx
      · exact hS.source
      · rw [Finset.mem_singleton.mp hx]
        exact hS.header

theorem Walk.step {u v : Nat} {s : LoopState} (h : Walk preds u v s) {x : Nat} {todo : List Nat}
    (hs : s.2 = x :: todo) : Walk preds u v ((preds x).foldl loopPush (s.1, todo)) := by
  obtain ⟨new, -, hnew, hall, heq⟩ := foldl_loopPush (preds x) (s.1, todo)
  rw [heq]
  have hx := h.found x (hs ▸ List.mem_cons_self)
  refine ⟨Finset.mem_union_left _ h.source, Finset.mem_union_left _ h.header, fun y hy => ?_,
    fun y hy hyv hyt p hp => ?_, fun S hS y hy => ?_⟩
  · rcases List.mem_append.mp hy with hy | hy
    · exact ⟨Finset.mem_union_right _ (List.mem_toFinset.mpr hy),
        fun hyv => (hnew y hy).2 (hyv ▸ h.header)⟩
    · obtain ⟨hmem, hne⟩ := h.found y (hs ▸ List.mem_cons_of_mem _ hy)
      exact ⟨Finset.mem_union_left _ hmem, hne⟩
  · rcases Finset.mem_union.mp hy with hy | hy
    · by_cases hyx : y = x
      · subst hyx
        rcases hall p hp with hp | hp
        · exact Finset.mem_union_left _ hp
        · exact Finset.mem_union_right _ (List.mem_toFinset.mpr hp)
      · refine Finset.mem_union_left _ (h.closed y hy hyv (fun hmem => ?_) p hp)
        rw [hs] at hmem
        rcases List.mem_cons.mp hmem with hmem | hmem
        · exact hyx hmem
        · exact hyt (List.mem_append_right _ hmem)
    · exact absurd (List.mem_append_left _ (List.mem_toFinset.mp hy)) hyt
  · rcases Finset.mem_union.mp hy with hy | hy
    · exact h.least S hS y hy
    · exact hS.preds x (h.least S hS x hx.1) hx.2 y (hnew y (List.mem_toFinset.mp hy)).1

/-- **The loop is the least set** that has its edge and is closed under predecessors, but
for those of the header. -/
theorem naturalLoop_least {u v n : Nat} {L : Finset Nat}
    (h : naturalLoop preds u v n = .ok L) :
    LoopClosed preds u v {x | x ∈ L} ∧ ∀ S, LoopClosed preds u v S → ∀ x ∈ L, x ∈ S := by
  refine Outcome.loop_invariant (I := Walk preds u v)
    (Q := fun L => LoopClosed preds u v {x | x ∈ L} ∧
      ∀ S, LoopClosed preds u v S → ∀ x ∈ L, x ∈ S)
    (fun n s s' hs hstep => ?_) (fun n s L hs hstep => ?_) (Walk.start u v) h
  · unfold loopStep at hstep
    split at hstep
    · cases hstep
    · rename_i x todo heq
      cases hstep
      exact hs.step heq
  · unfold loopStep at hstep
    split at hstep
    · rename_i heq
      cases hstep
      exact ⟨⟨hs.source, hs.header, fun x hx hxv => hs.closed x hx hxv (heq ▸ List.not_mem_nil)⟩,
        hs.least⟩
    · cases hstep

/-- **The walk ends**, in a finite graph. -/
theorem naturalLoop_total {u v : Nat} (hu : u < size) (hv : v < size)
    (hpreds : ∀ x, ∀ p ∈ preds x, p < size) : ∃ n L, naturalLoop preds u v n = .ok L := by
  have hstart : (if u = v then (({v}, []) : LoopState) else ({u, v}, [u])).1 ⊆
      Finset.range size := by
    intro x hx
    have hstart := @Walk.start preds u v
    refine hstart.least (fun x => x ∈ Finset.range size) ⟨?_, ?_, ?_⟩ x hx
    · exact Finset.mem_range.mpr hu
    · exact Finset.mem_range.mpr hv
    · exact fun x _ _ p hp => Finset.mem_range.mpr (hpreds x p hp)
  refine Outcome.loop_total (I := fun s : LoopState => s.1 ⊆ Finset.range size)
    (fun s => 2 * (size - s.1.card) + s.2.length) (fun n s hs => ?_) hstart
  unfold loopStep
  split
  · exact .inl ⟨_, rfl⟩
  · rename_i x todo heq
    obtain ⟨new, hnodup, hnew, -, hfold⟩ := foldl_loopPush (preds x) (s.1, todo)
    rw [hfold]
    have hrange : s.1 ∪ new.toFinset ⊆ Finset.range size := by
      refine Finset.union_subset hs fun p hp => ?_
      exact Finset.mem_range.mpr (hpreds x p (hnew p (List.mem_toFinset.mp hp)).1)
    refine .inr ⟨_, rfl, hrange, ?_⟩
    have hcard : (s.1 ∪ new.toFinset).card = s.1.card + new.length := by
      rw [Finset.card_union_of_disjoint, List.toFinset_card_of_nodup hnodup]
      exact Finset.disjoint_right.mpr fun p hp => (hnew p (List.mem_toFinset.mp hp)).2
    have hle := Finset.card_le_card hrange
    rw [Finset.card_range, hcard] at hle
    show 2 * (size - (s.1 ∪ new.toFinset).card) + (new ++ todo).length < _
    rw [hcard, heq, List.length_append, List.length_cons]
    omega

end NaturalLoop

end FlowGraph
