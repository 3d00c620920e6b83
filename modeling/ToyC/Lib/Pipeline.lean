import ToyC.Lib.Recursion

/-!
# Pipelines of passes

An optimizer calls passes one after the other, some of them in rounds that go on as long as a pass
reports a change. Such a pipeline is a list of *stages* here (`Stage`), over any type of programs
and of passes, and what a call of a pass does is a parameter.

Two things are said about all of its runs. What each call of a pass preserves, the pipeline
preserves (`runStages_rule`), and it ends if each call does (`runStages_total`). And when passes are
replaced by ones that get stuck on some programs, the pipeline gets stuck if and only if one of them
is called with such a program (`runStages_congr`, `runStages_stuck`). The calls a run makes are
those that `StagesAlong` speaks about. An invariant of them is a way to establish it
(`StagesAlong.of_invariant`), and so is one run that ends, for all that have the same results
(`runStages_same`).
-/

namespace Pipeline

open Outcome

variable {P α : Type}

/-- **A stage**: one pass, or up to so many rounds of some passes, each followed by others when
something was changed, and the last one when nothing was. -/
inductive Stage (P : Type) where
  | pass (p : P)
  | rounds (limit : Nat) (body after : List P)
  deriving DecidableEq, Repr

/-! ## Runs -/

section Run

variable (exec : P → α → Outcome (α × Bool))

/-- Some passes, with whether one of them changed anything. -/
def runPasses : List P → α → Outcome (α × Bool)
  | [], x => .ok (x, false)
  | p :: ps, x => do
    let (x, changed) ← exec p x
    let (x, changed') ← runPasses ps x
    .ok (x, changed || changed')

/-- Rounds of passes. -/
def runRounds (body after : List P) : Nat → α → Outcome α
  | 0, x => .ok x
  | k + 1, x => do
    let (x, changed) ← runPasses exec body x
    if changed then do
      let (x, _) ← runPasses exec after x
      runRounds body after k x
    else .ok x

def runStage : Stage P → α → Outcome α
  | .pass p, x => do
    let (x, _) ← exec p x
    .ok x
  | .rounds limit body after, x => runRounds exec body after limit x

/-- **A pipeline.** -/
def runStages : List (Stage P) → α → Outcome α
  | [], x => .ok x
  | s :: ss, x => do
    let x ← runStage exec s x
    runStages ss x

/-! ## What holds of all calls -/

variable (good : P → α → Prop)

def PassesAlong : List P → α → Prop
  | [], _ => True
  | p :: ps, x => good p x ∧ ∀ x' changed, exec p x = .ok (x', changed) → PassesAlong ps x'

def RoundsAlong (body after : List P) : Nat → α → Prop
  | 0, _ => True
  | k + 1, x => PassesAlong exec good body x ∧ ∀ x', runPasses exec body x = .ok (x', true) →
      PassesAlong exec good after x' ∧
        ∀ x'' changed, runPasses exec after x' = .ok (x'', changed) →
          RoundsAlong body after k x''

def StageAlong : Stage P → α → Prop
  | .pass p, x => good p x
  | .rounds limit body after, x => RoundsAlong exec good body after limit x

/-- **Something holds whenever a pass is called**, of the pass and the program it is called
with. -/
def StagesAlong : List (Stage P) → α → Prop
  | [], _ => True
  | s :: ss, x => StageAlong exec good s x ∧ ∀ x', runStage exec s x = .ok x' → StagesAlong ss x'

end Run

/-! ## What the calls preserve -/

section Rule

variable {exec : P → α → Outcome (α × Bool)} {good : P → α → Prop} {R : α → α → Prop}

section

variable (hrefl : ∀ x, R x x) (htrans : ∀ x y z, R x y → R y z → R x z)
  (hstep : ∀ p x x' changed, good p x → exec p x = .ok (x', changed) → R x x')
include hrefl htrans hstep

theorem runPasses_rule {ps : List P} {x x' : α} {changed : Bool} (h : PassesAlong exec good ps x)
    (hrun : runPasses exec ps x = .ok (x', changed)) : R x x' := by
  induction ps generalizing x changed with
  | nil =>
    cases hrun
    exact hrefl _
  | cons p ps ih =>
    obtain ⟨⟨x₁, c⟩, h₁, hrun⟩ := bind_eq_ok.mp hrun
    obtain ⟨⟨x₂, c'⟩, h₂, heq⟩ := bind_eq_ok.mp hrun
    cases heq
    exact htrans _ _ _ (hstep p x x₁ c h.1 h₁) (ih (h.2 x₁ c h₁) h₂)

theorem runRounds_rule {body after : List P} {k : Nat} {x x' : α}
    (h : RoundsAlong exec good body after k x)
    (hrun : runRounds exec body after k x = .ok x') : R x x' := by
  induction k generalizing x with
  | zero =>
    cases hrun
    exact hrefl _
  | succ k ih =>
    obtain ⟨⟨x₁, c⟩, h₁, hrun⟩ := bind_eq_ok.mp hrun
    have hbody := runPasses_rule hrefl htrans hstep h.1 h₁
    cases c with
    | false =>
      cases hrun
      exact hbody
    | true =>
      obtain ⟨hafter, hrest⟩ := h.2 x₁ h₁
      obtain ⟨⟨x₂, c'⟩, h₂, hrun⟩ := bind_eq_ok.mp hrun
      exact htrans _ _ _ hbody (htrans _ _ _ (runPasses_rule hrefl htrans hstep hafter h₂)
        (ih (hrest x₂ c' h₂) hrun))

theorem runStage_rule {s : Stage P} {x x' : α} (h : StageAlong exec good s x)
    (hrun : runStage exec s x = .ok x') : R x x' := by
  cases s with
  | pass p =>
    obtain ⟨⟨x₁, c⟩, h₁, heq⟩ := bind_eq_ok.mp hrun
    cases heq
    exact hstep p x _ c h h₁
  | rounds k body after => exact runRounds_rule hrefl htrans hstep h hrun

/-- **What each call relates, the pipeline relates**: a relation that can be composed. -/
theorem runStages_rule {ss : List (Stage P)} {x x' : α} (h : StagesAlong exec good ss x)
    (hrun : runStages exec ss x = .ok x') : R x x' := by
  induction ss generalizing x with
  | nil =>
    cases hrun
    exact hrefl _
  | cons s ss ih =>
    obtain ⟨x₁, h₁, hrun⟩ := bind_eq_ok.mp hrun
    exact htrans _ _ _ (runStage_rule hrefl htrans hstep h.1 h₁) (ih (h.2 x₁ h₁) hrun)

end

section Invariant

variable {I : α → Prop} (hgood : ∀ p x, I x → good p x)
  (hkeeps : ∀ p x x' changed, I x → exec p x = .ok (x', changed) → I x')
include hgood hkeeps

theorem PassesAlong.of_invariant {ps : List P} {x : α} (hx : I x) : PassesAlong exec good ps x := by
  induction ps generalizing x with
  | nil => trivial
  | cons p ps ih => exact ⟨hgood p x hx, fun x' changed h => ih (hkeeps p x x' changed hx h)⟩

theorem runPasses_invariant {ps : List P} {x x' : α} {changed : Bool} (hx : I x)
    (hrun : runPasses exec ps x = .ok (x', changed)) : I x' :=
  runPasses_rule (R := fun x y => I x → I y) (fun _ => id) (fun _ _ _ h h' hx => h' (h hx))
    (fun p x x' c _ h hx => hkeeps p x x' c hx h)
    (PassesAlong.of_invariant hgood hkeeps hx) hrun hx

theorem StageAlong.of_invariant {s : Stage P} {x : α} (hx : I x) : StageAlong exec good s x := by
  cases s with
  | pass p => exact hgood p x hx
  | rounds k body after =>
    show RoundsAlong exec good body after k x
    induction k generalizing x with
    | zero => trivial
    | succ k ih =>
      refine ⟨.of_invariant hgood hkeeps hx, fun x' hx' => ?_⟩
      have hafter := runPasses_invariant hgood hkeeps hx hx'
      exact ⟨.of_invariant hgood hkeeps hafter, fun x'' _ hx'' =>
        ih (runPasses_invariant hgood hkeeps hafter hx'')⟩

/-- **What an invariant of the calls says, holds at each of them.** -/
theorem StagesAlong.of_invariant {ss : List (Stage P)} {x : α} (hx : I x) :
    StagesAlong exec good ss x := by
  induction ss generalizing x with
  | nil => trivial
  | cons s ss ih =>
    have hs := StageAlong.of_invariant hgood hkeeps (s := s) hx
    exact ⟨hs, fun x' h => ih (runStage_rule (R := fun x y => I x → I y) (fun _ => id)
      (fun _ _ _ h h' hx => h' (h hx)) (fun p x x' c _ h hx => hkeeps p x x' c hx h) hs h hx)⟩

end Invariant

end Rule

/-! ## Pipelines that end -/

section Total

variable {exec : Nat → P → α → Outcome (α × Bool)}

section Steady

variable (hsteady : ∀ p x, Steady fun n => exec n p x)
include hsteady

theorem runPasses_steady (ps : List P) (x : α) : Steady fun n => runPasses (exec n) ps x := by
  induction ps generalizing x with
  | nil => exact .const _
  | cons p ps ih => exact (hsteady p x).bind fun r => (ih r.1).bind fun _ => .const _

theorem runRounds_steady (body after : List P) (k : Nat) (x : α) :
    Steady fun n => runRounds (exec n) body after k x := by
  induction k generalizing x with
  | zero => exact .const _
  | succ k ih =>
    refine (runPasses_steady hsteady body x).bind fun r => ?_
    dsimp only
    split
    · exact (runPasses_steady hsteady after r.1).bind fun r' => ih r'.1
    · exact .const _

theorem runStage_steady (s : Stage P) (x : α) : Steady fun n => runStage (exec n) s x := by
  cases s with
  | pass p => exact (hsteady p x).bind fun _ => .const _
  | rounds k body after => exact runRounds_steady hsteady body after k x

theorem runStages_steady (ss : List (Stage P)) (x : α) :
    Steady fun n => runStages (exec n) ss x := by
  induction ss generalizing x with
  | nil => exact .const _
  | cons s ss ih => exact (runStage_steady hsteady s x).bind ih

variable {I : α → Prop} (htotal : ∀ p x, I x → ∃ n r, exec n p x = .ok r)
  (hkeep : ∀ n p x x' changed, I x → exec n p x = .ok (x', changed) → I x')
include htotal hkeep

theorem runPasses_total (ps : List P) {x : α} (hx : I x) :
    ∃ n r, runPasses (exec n) ps x = .ok r ∧ I r.1 := by
  induction ps generalizing x with
  | nil => exact ⟨0, (x, false), rfl, hx⟩
  | cons p ps ih =>
    obtain ⟨n, ⟨x₁, c⟩, h₁⟩ := htotal p x hx
    obtain ⟨n', ⟨x₂, c'⟩, h₂, hx₂⟩ := ih (hkeep n p x x₁ c hx h₁)
    refine ⟨max n n', (x₂, c || c'), bind_eq_ok.mpr ⟨(x₁, c), ?_, bind_eq_ok.mpr
      ⟨(x₂, c'), ?_, rfl⟩⟩, hx₂⟩
    · exact hsteady p x (Nat.le_max_left ..) h₁
    · exact runPasses_steady hsteady ps x₁ (Nat.le_max_right ..) h₂

theorem runRounds_total (body after : List P) (k : Nat) {x : α} (hx : I x) :
    ∃ n x', runRounds (exec n) body after k x = .ok x' ∧ I x' := by
  induction k generalizing x with
  | zero => exact ⟨0, x, rfl, hx⟩
  | succ k ih =>
    obtain ⟨n₁, ⟨x₁, c⟩, h₁, hx₁⟩ := runPasses_total hsteady htotal hkeep body hx
    cases c with
    | false => exact ⟨n₁, x₁, bind_eq_ok.mpr ⟨(x₁, false), h₁, rfl⟩, hx₁⟩
    | true =>
      obtain ⟨n₂, ⟨x₂, c⟩, h₂, hx₂⟩ := runPasses_total hsteady htotal hkeep after hx₁
      obtain ⟨n₃, x₃, h₃, hx₃⟩ := ih hx₂
      refine ⟨max n₁ (max n₂ n₃), x₃, bind_eq_ok.mpr ⟨(x₁, true), ?_, bind_eq_ok.mpr
        ⟨(x₂, c), ?_, ?_⟩⟩, hx₃⟩
      · exact runPasses_steady hsteady body x (Nat.le_max_left ..) h₁
      · exact runPasses_steady hsteady after x₁
          (Nat.le_trans (Nat.le_max_left ..) (Nat.le_max_right ..)) h₂
      · exact runRounds_steady hsteady body after k x₂
          (Nat.le_trans (Nat.le_max_right ..) (Nat.le_max_right ..)) h₃

/-- **A pipeline ends if each call does**, from programs on which the passes keep that they do. -/
theorem runStages_total (ss : List (Stage P)) {x : α} (hx : I x) :
    ∃ n x', runStages (exec n) ss x = .ok x' ∧ I x' := by
  induction ss generalizing x with
  | nil => exact ⟨0, x, rfl, hx⟩
  | cons s ss ih =>
    obtain ⟨n₁, x₁, h₁, hx₁⟩ : ∃ n x', runStage (exec n) s x = .ok x' ∧ I x' := by
      cases s with
      | pass p =>
        obtain ⟨n, ⟨x', c⟩, h⟩ := htotal p x hx
        exact ⟨n, x', bind_eq_ok.mpr ⟨(x', c), h, rfl⟩, hkeep n p x x' c hx h⟩
      | rounds k body after => exact runRounds_total hsteady htotal hkeep body after k hx
    obtain ⟨n₂, x₂, h₂, hx₂⟩ := ih hx₁
    refine ⟨max n₁ n₂, x₂, bind_eq_ok.mpr ⟨x₁, ?_, ?_⟩, hx₂⟩
    · exact runStage_steady hsteady s x (Nat.le_max_left ..) h₁
    · exact runStages_steady hsteady ss x₁ (Nat.le_max_right ..) h₂

end Steady

end Total

/-! ## Passes with other results -/

section Same

variable {exec exec' : P → α → Outcome (α × Bool)} {good : P → α → Prop}
  (hsame : ∀ p x r r', exec p x = .ok r → exec' p x = .ok r' → r' = r)
include hsame

theorem runPasses_same {ps : List P} {x : α} {r : α × Bool} (h : PassesAlong exec good ps x)
    (hrun : runPasses exec ps x = .ok r) :
    PassesAlong exec' good ps x ∧ ∀ r', runPasses exec' ps x = .ok r' → r' = r := by
  induction ps generalizing x r with
  | nil =>
    cases hrun
    exact ⟨trivial, fun r' h => (Outcome.ok.inj h).symm⟩
  | cons p ps ih =>
    obtain ⟨⟨x₁, c⟩, h₁, hrun⟩ := bind_eq_ok.mp hrun
    obtain ⟨⟨x₂, c'⟩, h₂, heq⟩ := bind_eq_ok.mp hrun
    obtain ⟨halong, hrest⟩ := ih (h.2 x₁ c h₁) h₂
    constructor
    · refine ⟨h.1, fun y d hy => ?_⟩
      obtain ⟨rfl, rfl⟩ := Prod.mk.inj (hsame p x _ _ h₁ hy)
      exact halong
    · intro r' hrun'
      obtain ⟨⟨y₁, d⟩, hy₁, hrun'⟩ := bind_eq_ok.mp hrun'
      obtain ⟨⟨y₂, d'⟩, hy₂, heq'⟩ := bind_eq_ok.mp hrun'
      obtain ⟨rfl, rfl⟩ := Prod.mk.inj (hsame p x _ _ h₁ hy₁)
      obtain ⟨rfl, rfl⟩ := Prod.mk.inj (hrest _ hy₂)
      exact Outcome.ok.inj (heq'.symm.trans heq)

theorem runRounds_same {body after : List P} {k : Nat} {x x' : α}
    (h : RoundsAlong exec good body after k x) (hrun : runRounds exec body after k x = .ok x') :
    RoundsAlong exec' good body after k x ∧
      ∀ y, runRounds exec' body after k x = .ok y → y = x' := by
  induction k generalizing x with
  | zero =>
    cases hrun
    exact ⟨trivial, fun y h => (Outcome.ok.inj h).symm⟩
  | succ k ih =>
    obtain ⟨⟨x₁, c⟩, h₁, hrun⟩ := bind_eq_ok.mp hrun
    obtain ⟨hbody, hbody'⟩ := runPasses_same hsame h.1 h₁
    cases c with
    | false =>
      cases hrun
      refine ⟨⟨hbody, fun y hy => ?_⟩, fun y hrun' => ?_⟩
      · cases hbody' _ hy
      · obtain ⟨r, hr, hrun'⟩ := bind_eq_ok.mp hrun'
        obtain rfl := hbody' r hr
        exact (Outcome.ok.inj hrun').symm
    | true =>
      obtain ⟨⟨x₂, c'⟩, h₂, hrun⟩ := bind_eq_ok.mp hrun
      obtain ⟨hafter, hrest⟩ := h.2 x₁ h₁
      obtain ⟨hafter, hafter'⟩ := runPasses_same hsame hafter h₂
      obtain ⟨hrounds, hrounds'⟩ := ih (hrest x₂ c' h₂) hrun
      refine ⟨⟨hbody, fun y hy => ?_⟩, fun y hrun' => ?_⟩
      · obtain ⟨rfl, -⟩ := Prod.mk.inj (hbody' _ hy)
        refine ⟨hafter, fun z d hz => ?_⟩
        obtain ⟨rfl, rfl⟩ := Prod.mk.inj (hafter' _ hz)
        exact hrounds
      · obtain ⟨r, hr, hrun'⟩ := bind_eq_ok.mp hrun'
        obtain rfl := hbody' r hr
        obtain ⟨r', hr', hrun'⟩ := bind_eq_ok.mp hrun'
        obtain rfl := hafter' r' hr'
        exact hrounds' y hrun'

theorem runStage_same {s : Stage P} {x x' : α} (h : StageAlong exec good s x)
    (hrun : runStage exec s x = .ok x') :
    StageAlong exec' good s x ∧ ∀ y, runStage exec' s x = .ok y → y = x' := by
  cases s with
  | pass p =>
    obtain ⟨r, hr, heq⟩ := bind_eq_ok.mp hrun
    refine ⟨h, fun y hrun' => ?_⟩
    obtain ⟨r', hr', heq'⟩ := bind_eq_ok.mp hrun'
    obtain rfl := hsame p x r r' hr hr'
    exact Outcome.ok.inj (heq'.symm.trans heq)
  | rounds k body after => exact runRounds_same hsame h hrun

/-- **What holds along a pipeline that ends**, holds along it with passes that have no other
results, but may have fewer. -/
theorem runStages_same {ss : List (Stage P)} {x x' : α} (h : StagesAlong exec good ss x)
    (hrun : runStages exec ss x = .ok x') :
    StagesAlong exec' good ss x ∧ ∀ y, runStages exec' ss x = .ok y → y = x' := by
  induction ss generalizing x with
  | nil =>
    cases hrun
    exact ⟨trivial, fun y h => (Outcome.ok.inj h).symm⟩
  | cons s ss ih =>
    obtain ⟨x₁, h₁, hrun⟩ := bind_eq_ok.mp hrun
    obtain ⟨hs, hs'⟩ := runStage_same hsame h.1 h₁
    obtain ⟨hss, hss'⟩ := ih (h.2 x₁ h₁) hrun
    refine ⟨⟨hs, fun y hy => ?_⟩, fun y hrun' => ?_⟩
    · obtain rfl := hs' y hy
      exact hss
    · obtain ⟨y₁, hy₁, hrun'⟩ := bind_eq_ok.mp hrun'
      obtain rfl := hs' y₁ hy₁
      exact hss' y hrun'

end Same

/-! ## Passes that get stuck -/

section Checked

variable {exec exec' : P → α → Outcome (α × Bool)} {good : P → α → Prop}

section NeStuck

variable (hne : ∀ p x, exec p x ≠ .stuck)
include hne

theorem runPasses_ne_stuck (ps : List P) (x : α) : runPasses exec ps x ≠ .stuck := by
  induction ps generalizing x with
  | nil => exact fun h => by cases h
  | cons p ps ih =>
    exact bind_ne_stuck (hne p x) fun r => bind_ne_stuck (ih r.1) fun r' h => by cases h

theorem runRounds_ne_stuck (body after : List P) (k : Nat) (x : α) :
    runRounds exec body after k x ≠ .stuck := by
  induction k generalizing x with
  | zero => exact fun h => by cases h
  | succ k ih =>
    refine bind_ne_stuck (runPasses_ne_stuck hne body x) fun r => ?_
    dsimp only
    split
    · exact bind_ne_stuck (runPasses_ne_stuck hne after r.1) fun r' => ih r'.1
    · exact fun h => by cases h

theorem runStage_ne_stuck (s : Stage P) (x : α) : runStage exec s x ≠ .stuck := by
  cases s with
  | pass p => exact bind_ne_stuck (hne p x) fun r h => by cases h
  | rounds k body after => exact runRounds_ne_stuck hne body after k x

theorem runStages_ne_stuck (ss : List (Stage P)) (x : α) : runStages exec ss x ≠ .stuck := by
  induction ss generalizing x with
  | nil => exact fun h => by cases h
  | cons s ss ih => exact bind_ne_stuck (runStage_ne_stuck hne s x) ih

end NeStuck

section Good

variable (hgood : ∀ p x, good p x → exec' p x = exec p x)
include hgood

theorem runPasses_congr {ps : List P} {x : α} (h : PassesAlong exec good ps x) :
    runPasses exec' ps x = runPasses exec ps x := by
  induction ps generalizing x with
  | nil => rfl
  | cons p ps ih =>
    show (exec' p x >>= _) = (exec p x >>= _)
    rw [hgood p x h.1]
    refine bind_congr_ok fun r hr => ?_
    dsimp only
    rw [ih (h.2 r.1 r.2 hr)]

theorem runRounds_congr {body after : List P} {k : Nat} {x : α}
    (h : RoundsAlong exec good body after k x) :
    runRounds exec' body after k x = runRounds exec body after k x := by
  induction k generalizing x with
  | zero => rfl
  | succ k ih =>
    show (runPasses exec' body x >>= _) = (runPasses exec body x >>= _)
    rw [runPasses_congr hgood h.1]
    refine bind_congr_ok fun r hr => ?_
    obtain ⟨x', changed⟩ := r
    cases changed with
    | false => rfl
    | true =>
      obtain ⟨hafter, hrest⟩ := h.2 x' hr
      show (runPasses exec' after x' >>= _) = (runPasses exec after x' >>= _)
      rw [runPasses_congr hgood hafter]
      exact bind_congr_ok fun r' hr' => ih (hrest r'.1 r'.2 hr')

theorem runStage_congr {s : Stage P} {x : α} (h : StageAlong exec good s x) :
    runStage exec' s x = runStage exec s x := by
  cases s with
  | pass p =>
    show (exec' p x >>= _) = (exec p x >>= _)
    rw [hgood p x h]
  | rounds k body after => exact runRounds_congr hgood h

/-- **Passes that are replaced by ones that do the same** where they are called. -/
theorem runStages_congr {ss : List (Stage P)} {x : α} (h : StagesAlong exec good ss x) :
    runStages exec' ss x = runStages exec ss x := by
  induction ss generalizing x with
  | nil => rfl
  | cons s ss ih =>
    show (runStage exec' s x >>= _) = (runStage exec s x >>= _)
    rw [runStage_congr hgood h.1]
    exact bind_congr_ok fun x' hx' => ih (h.2 x' hx')

variable (hbad : ∀ p x, ¬ good p x → exec' p x = .stuck)
include hbad

theorem runPasses_stuck {ps : List P} {x : α} (h : ¬ PassesAlong exec good ps x) :
    runPasses exec' ps x = .stuck := by
  induction ps generalizing x with
  | nil => exact absurd trivial h
  | cons p ps ih =>
    by_cases hp : good p x
    · show (exec' p x >>= _) = _
      rw [hgood p x hp]
      obtain ⟨x', changed, hx, hps⟩ : ∃ x' changed, exec p x = .ok (x', changed) ∧
          ¬ PassesAlong exec good ps x' := by
        by_contra hall
        exact h ⟨hp, fun x' changed hx => Classical.not_not.mp fun hps =>
          hall ⟨x', changed, hx, hps⟩⟩
      rw [hx, Outcome.ok_bind]
      dsimp only
      rw [ih hps]
      rfl
    · show (exec' p x >>= _) = _
      rw [hbad p x hp]
      rfl

theorem runRounds_stuck {body after : List P} {k : Nat} {x : α}
    (h : ¬ RoundsAlong exec good body after k x) :
    runRounds exec' body after k x = .stuck := by
  induction k generalizing x with
  | zero => exact absurd trivial h
  | succ k ih =>
    show (runPasses exec' body x >>= _) = _
    by_cases hbody : PassesAlong exec good body x
    · obtain ⟨x', hx, hrest⟩ : ∃ x', runPasses exec body x = .ok (x', true) ∧
          ¬ (PassesAlong exec good after x' ∧ ∀ x'' changed,
            runPasses exec after x' = .ok (x'', changed) →
              RoundsAlong exec good body after k x'') := by
        by_contra hall
        exact h ⟨hbody, fun x' hx => Classical.not_not.mp fun hrest => hall ⟨x', hx, hrest⟩⟩
      rw [runPasses_congr hgood hbody, hx, Outcome.ok_bind]
      show (runPasses exec' after x' >>= _) = _
      by_cases hafter : PassesAlong exec good after x'
      · obtain ⟨x'', changed, hx', hk⟩ : ∃ x'' changed,
            runPasses exec after x' = .ok (x'', changed) ∧
              ¬ RoundsAlong exec good body after k x'' := by
          by_contra hall
          exact hrest ⟨hafter, fun x'' changed hx' => Classical.not_not.mp fun hk =>
            hall ⟨x'', changed, hx', hk⟩⟩
        rw [runPasses_congr hgood hafter, hx', Outcome.ok_bind]
        exact ih hk
      · rw [runPasses_stuck hgood hbad hafter]
        rfl
    · rw [runPasses_stuck hgood hbad hbody]
      rfl

theorem runStage_stuck {s : Stage P} {x : α} (h : ¬ StageAlong exec good s x) :
    runStage exec' s x = .stuck := by
  cases s with
  | pass p =>
    show (exec' p x >>= _) = _
    rw [hbad p x h]
    rfl
  | rounds k body after => exact runRounds_stuck hgood hbad h

/-- **Passes that are replaced by ones that get stuck**, on a program one of them is called
with. -/
theorem runStages_stuck {ss : List (Stage P)} {x : α} (h : ¬ StagesAlong exec good ss x) :
    runStages exec' ss x = .stuck := by
  induction ss generalizing x with
  | nil => exact absurd trivial h
  | cons s ss ih =>
    show (runStage exec' s x >>= _) = _
    by_cases hs : StageAlong exec good s x
    · obtain ⟨x', hx, hss⟩ : ∃ x', runStage exec s x = .ok x' ∧
          ¬ StagesAlong exec good ss x' := by
        by_contra hall
        exact h ⟨hs, fun x' hx => Classical.not_not.mp fun hss => hall ⟨x', hx, hss⟩⟩
      rw [runStage_congr hgood hs, hx, Outcome.ok_bind]
      exact ih hss
    · rw [runStage_stuck hgood hbad hs]
      rfl

end Good

end Checked

end Pipeline
