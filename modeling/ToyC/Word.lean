import Mathlib.Tactic.Common

/-!
# Machine words

Every value a ToyC program computes is a 32-bit two's-complement integer, and
every level of the compiler – the constant evaluator of the semantic analysis,
the three-address code, the RV32IM target – agrees on what an operator does to
two of them. This module fixes that agreement once.

Division is the one operator where the target and C differ: RV32IM defines the
quotient by zero (all ones) and the quotient of the least integer by `-1` (the
least integer again), and never traps. The definitions below are the
target's, so that the levels can be compared on every pair of operands and not
only on those where C defines a result.
-/

namespace ToyC

/-- **A machine word**: the `int32_t` of the source, read signed by the
comparisons and the division. -/
abbrev Word := BitVec 32

namespace Word

/-- The least signed word, `INT_MIN`. -/
def intMin : Word := 0x80000000#32

/-- The word a C comparison yields. -/
def ofBool (b : Bool) : Word := if b then 1#32 else 0#32

/-- The quotient the `div` instruction computes. -/
def div (a b : Word) : Word := if b = 0#32 then (-1 : Word) else a.sdiv b

/-- The remainder the `rem` instruction computes. -/
def rem (a b : Word) : Word := if b = 0#32 then a else a.srem b

/-- The word `a` reads as a truth value. -/
def truthy (a : Word) : Bool := a != 0#32

@[simp] theorem ofBool_true : ofBool true = 1#32 := rfl

@[simp] theorem ofBool_false : ofBool false = 0#32 := rfl

@[simp] theorem truthy_ofBool (b : Bool) : truthy (ofBool b) = b := by
  cases b <;> rfl

@[simp] theorem truthy_zero : truthy 0#32 = false := rfl

@[simp] theorem truthy_one : truthy 1#32 = true := rfl

theorem truthy_eq_true {a : Word} : truthy a = true ↔ a ≠ 0#32 := by
  simp [truthy]

/-- The quotient of the least integer by `-1` is the least integer, as the
target defines it. -/
example : div intMin (-1) = intMin := by decide

end Word

end ToyC
