import Mathlib.Tactic.Common

/-!
# Results of fallible steps

Two small vocabularies used throughout. A step that fails with a message is an
`Except`, and `bind_eq_ok` takes a successful sequence of them apart. A step
of an execution has one more way of not returning: it may need more fuel than
it was given. `Outcome` keeps that answer (`timeout`) apart from having no
meaning at all (`stuck`).

Executions are compared in three orders, which differ in what they make of the
two answers without a value: giving more fuel replaces a `timeout` and nothing
else (`Flat`); an implementation may do anything where its specification is stuck
(`UpTo`); and sometimes only values count (`Values`). `Outcome.Precise` is what the
three share and all that the general results need. Outcomes of two programs, with values
of different types, are compared by `Related`, and where only the values of the first
program count, by `Carried`.
-/

section ExceptSteps

variable {ε α β : Type}

/-- What a successful sequence of two steps says of each of them. -/
theorem bind_eq_ok {x : Except ε α} {f : α → Except ε β} {b : β} :
    (x >>= f) = .ok b ↔ ∃ a, x = .ok a ∧ f a = .ok b := by
  cases x with
  | error e => simp [bind, Except.bind]
  | ok a => simp [bind, Except.bind]

/-- A step that succeeds hands its result on. -/
@[simp] theorem ok_bind (a : α) (f : α → Except ε β) :
    ((Except.ok a : Except ε α) >>= f) = f a := rfl

end ExceptSteps

/-- **The outcome of an execution**: a value, more fuel needed, or no meaning. -/
inductive Outcome (α : Type) where
  | ok (a : α)
  | timeout
  | stuck
  deriving DecidableEq, Repr, Inhabited

namespace Outcome

variable {α β : Type}

/-- Go on with the value of an outcome, if there is one. -/
protected def bind (x : Outcome α) (f : α → Outcome β) : Outcome β :=
  match x with
  | ok a => f a
  | timeout => timeout
  | stuck => stuck

instance : Monad Outcome where
  pure := ok
  bind := Outcome.bind

/-- Whether an outcome is a value of some kind can be decided by looking at it. -/
instance decidableExistsOk (x : Outcome α) (p : α → Prop) [DecidablePred p] :
    Decidable (∃ a, x = ok a ∧ p a) :=
  match x with
  | ok a => decidable_of_iff (p a) (by simp)
  | timeout => isFalse (by simp)
  | stuck => isFalse (by simp)

@[simp] theorem ok_bind (a : α) (f : α → Outcome β) : (ok a >>= f) = f a := rfl

@[simp] theorem timeout_bind (f : α → Outcome β) : (timeout >>= f) = timeout := rfl

@[simp] theorem stuck_bind (f : α → Outcome β) : (stuck >>= f) = stuck := rfl

@[simp] theorem pure_eq (a : α) : (pure a : Outcome α) = ok a := rfl

theorem bind_assoc {γ : Type} (x : Outcome α) (f : α → Outcome β) (g : β → Outcome γ) :
    ((x >>= f) >>= g) = x >>= fun a => f a >>= g := by
  cases x <;> rfl

theorem bind_eq_ok {x : Outcome α} {f : α → Outcome β} {b : β} :
    (x >>= f) = ok b ↔ ∃ a, x = ok a ∧ f a = ok b := by
  cases x with
  | ok a => simp
  | timeout => simp
  | stuck => simp

/-- Going on in two ways that agree on the value. -/
theorem bind_congr_ok {x : Outcome α} {f f' : α → Outcome β} (h : ∀ a, x = ok a → f' a = f a) :
    (x >>= f') = (x >>= f) := by
  cases x with
  | ok a => exact h a rfl
  | timeout => rfl
  | stuck => rfl

/-- Two steps in a row do not get stuck if neither does. -/
theorem bind_ne_stuck {x : Outcome α} {f : α → Outcome β} (hx : x ≠ stuck)
    (hf : ∀ a, f a ≠ stuck) : (x >>= f) ≠ stuck := by
  cases x with
  | ok a => exact hf a
  | timeout => exact fun h => by cases h
  | stuck => exact absurd rfl hx

/-! ## Comparing outcomes -/

/-- **More fuel**: a timeout may become anything, any other answer stays. -/
def Flat ⦃α : Type⦄ (x y : Outcome α) : Prop := x = timeout ∨ x = y

/-- **Up to the meaning of the specification** `y`: where it is stuck, anything goes. -/
def UpTo ⦃α : Type⦄ (x y : Outcome α) : Prop := x = timeout ∨ y = stuck ∨ x = y

/-- **Only values count.** -/
def Values ⦃α : Type⦄ (x y : Outcome α) : Prop := ∀ a, x = ok a → y = ok a

/-- **What the orders on outcomes share**: a timeout is least, and going on from
comparable outcomes in comparable ways is comparable. -/
structure Precise (le : ∀ ⦃α : Type⦄, Outcome α → Outcome α → Prop) : Prop where
  refl : ∀ {α : Type} (x : Outcome α), le x x
  trans : ∀ {α : Type} {x y z : Outcome α}, le x y → le y z → le x z
  bot : ∀ {α : Type} (x : Outcome α), le timeout x
  bind : ∀ {α β : Type} {x y : Outcome α} {f g : α → Outcome β},
    le x y → (∀ a, le (f a) (g a)) → le (x >>= f) (y >>= g)

theorem precise_flat : Precise Flat where
  refl x := .inr rfl
  trans := by
    rintro α x y z (rfl | rfl) h
    · exact .inl rfl
    · exact h
  bot x := .inl rfl
  bind := by
    rintro α β x y f g (rfl | rfl) h
    · exact .inl rfl
    · cases x with
      | ok a => exact h a
      | timeout => exact .inl rfl
      | stuck => exact .inr rfl

theorem precise_upTo : Precise UpTo where
  refl x := .inr (.inr rfl)
  trans := by
    rintro α x y z (rfl | rfl | rfl) h
    · exact .inl rfl
    · rcases h with h | h | rfl
      · cases h
      · exact .inr (.inl h)
      · exact .inr (.inl rfl)
    · exact h
  bot x := .inl rfl
  bind := by
    rintro α β x y f g (rfl | rfl | rfl) h
    · exact .inl rfl
    · exact .inr (.inl rfl)
    · cases x with
      | ok a => exact h a
      | timeout => exact .inl rfl
      | stuck => exact .inr (.inl rfl)

theorem precise_values : Precise Values where
  refl x a h := h
  trans h₁ h₂ a h := h₂ a (h₁ a h)
  bot x a h := by cases h
  bind := by
    intro α β x y f g h₁ h₂ b hb
    obtain ⟨a, ha, hb⟩ := bind_eq_ok.mp hb
    rw [h₁ a ha]
    exact h₂ a b hb

/-- Two answers, one with more fuel than the other, are the same once there is one. -/
theorem Flat.eq_of_ne {x y : Outcome α} (h : Flat x y) (hx : x ≠ timeout) : y = x :=
  (h.resolve_left hx).symm

theorem Flat.values {x y : Outcome α} (h : Flat x y) : Values x y := by
  rintro a rfl
  exact h.eq_of_ne (by simp)

theorem Flat.antisymm {x y : Outcome α} (h₁ : Flat x y) (h₂ : Flat y x) : x = y := by
  rcases h₁ with rfl | rfl
  · rcases h₂ with rfl | rfl <;> rfl
  · rfl

/-! ## Outcomes of two programs -/

section Related

variable {γ δ : Type} {rel rel' : α → β → Prop} {x : Outcome α} {y : Outcome β}

/-- **Outcomes of one kind**, with related values where they are values. -/
inductive Related (rel : α → β → Prop) : Outcome α → Outcome β → Prop where
  | ok {a : α} {b : β} (h : rel a b) : Related rel (ok a) (ok b)
  | timeout : Related rel timeout timeout
  | stuck : Related rel stuck stuck

/-- Going on from related outcomes in related ways. -/
theorem Related.bind {ρ : γ → δ → Prop} {f : α → Outcome γ} {g : β → Outcome δ}
    (h : Related rel x y) (hfg : ∀ a b, rel a b → Related ρ (f a) (g b)) :
    Related ρ (x >>= f) (y >>= g) := by
  cases h with
  | ok h => exact hfg _ _ h
  | timeout => exact .timeout
  | stuck => exact .stuck

theorem Related.mono (h : Related rel x y) (himp : ∀ a b, rel a b → rel' a b) :
    Related rel' x y := by
  cases h with
  | ok h => exact .ok (himp _ _ h)
  | timeout => exact .timeout
  | stuck => exact .stuck

theorem Related.symm (h : Related rel x y) : Related (fun b a => rel a b) y x := by
  cases h with
  | ok h => exact .ok h
  | timeout => exact .timeout
  | stuck => exact .stuck

/-- **The values of the one are answered by the other**, with related values; where the one has no
value, nothing is asked. -/
def Carried (rel : α → β → Prop) (x : Outcome α) (y : Outcome β) : Prop :=
  ∀ a, x = ok a → ∃ b, y = ok b ∧ rel a b

theorem Related.carried (h : Related rel x y) : Carried rel x y := by
  rintro a rfl
  cases h with
  | ok h => exact ⟨_, rfl, h⟩

/-- Going on from values that are carried along in a way that carries them on. -/
theorem Carried.bind {ρ : γ → δ → Prop} {f : α → Outcome γ} {g : β → Outcome δ}
    (h : Carried rel x y) (hfg : ∀ a b, rel a b → Carried ρ (f a) (g b)) :
    Carried ρ (x >>= f) (y >>= g) := by
  intro c hc
  obtain ⟨a, ha, hc⟩ := bind_eq_ok.mp hc
  obtain ⟨b, rfl, hab⟩ := h a ha
  exact hfg a b hab c hc

end Related

end Outcome
