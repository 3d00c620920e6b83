import Mathlib.Tactic.IntervalCases

/-!
# Machine registers

The integer registers of the target by their numbers, and the roles the code
generators give them.
-/

namespace ToyC

/-- A register of the target, by its number. -/
abbrev XReg := Nat

namespace XReg

abbrev zero : XReg := 0
abbrev ra : XReg := 1
abbrev sp : XReg := 2
abbrev t0 : XReg := 5
abbrev t1 : XReg := 6
abbrev t2 : XReg := 7
abbrev s0 : XReg := 8
abbrev s1 : XReg := 9
abbrev a0 : XReg := 10
abbrev a6 : XReg := 16
abbrev a7 : XReg := 17
abbrev s2 : XReg := 18
abbrev s3 : XReg := 19
abbrev s4 : XReg := 20
abbrev s5 : XReg := 21
abbrev s6 : XReg := 22
abbrev s7 : XReg := 23
abbrev s8 : XReg := 24
abbrev s9 : XReg := 25
abbrev s10 : XReg := 26
abbrev s11 : XReg := 27
abbrev t3 : XReg := 28
abbrev t4 : XReg := 29
abbrev t5 : XReg := 30
abbrev t6 : XReg := 31

end XReg

open XReg

/-- The registers for values that do not live across a call. -/
def callerSavedPool : List XReg := [t0, t1, t2, t3, t4]

/-- The registers for values that live across a call. -/
def calleeSavedPool : List XReg := [s0, s1, s2, s3, s4, s5, s6, s7, s8, s9, s10, s11]

/-- The registers a function hands back as it found them. -/
def isCalleeSaved (x : XReg) : Bool :=
  x == XReg.s0 || x == XReg.s1 || (decide (XReg.s2 ≤ x) && decide (x ≤ XReg.s11))

/-- The scratch registers, which no value is kept in. -/
abbrev scratch0 : XReg := XReg.t5
abbrev scratch1 : XReg := XReg.t6

theorem isCalleeSaved_of_mem {x : XReg} (h : x ∈ calleeSavedPool) : isCalleeSaved x = true := by
  revert x
  decide

theorem mem_of_isCalleeSaved {x : XReg} (h : isCalleeSaved x = true) : x ∈ calleeSavedPool := by
  have h : (x = 8 ∨ x = 9) ∨ (18 : Nat) ≤ x ∧ x ≤ (27 : Nat) := by
    simpa [isCalleeSaved] using h
  rcases h with (rfl | rfl) | ⟨hlow, hhigh⟩
  · decide
  · decide
  · interval_cases x <;> decide

end ToyC
