import Mathlib.Tactic.Ring
import Mathlib.Tactic.Linarith
import Mathlib.Tactic.Positivity
import Mathlib.Data.Nat.Prime.Basic

/-!
# Division by multiplication

To divide by a fixed number `d` one multiplies by a number a little above `P / d` and
divides by `P`, which a machine does with a shift. With `m * d = P + e` the quotient comes
out too large only where the excess `e`, taken `x` times, makes up for what the remainder of
`x` lacks (`mul_div_eq_iff`); rounded up, it comes out as the quotient and one more on the
same condition (`ceil_mul_div_eq_iff`).

The excess is known for one number, the largest below a bound whose remainder is `d - 1`
(`crit`). If it does no harm there it does none below the bound, for every other remainder
leaves more room (`Exact.mul_excess_lt`).
-/

namespace MagicDivision

variable {d m e P x : Nat}

/-- **When the quotient is exact.** -/
theorem mul_div_eq_iff (hd : 0 < d) (hP : 0 < P) (hm : m * d = P + e) :
    x * m / P = x / d ↔ x * e < (d - x % d) * P := by
  have hr := Nat.mod_lt x hd
  have hx := Nat.div_add_mod x d
  set q := x / d
  set r := x % d
  have hprod : x * m * d = x * P + x * e := by rw [Nat.mul_assoc, hm, Nat.mul_add]
  have hlow : q * P ≤ x * m := by
    refine Nat.le_of_mul_le_mul_right ?_ hd
    rw [hprod, ← hx]
    nlinarith [Nat.zero_le (r * P), Nat.zero_le ((d * q + r) * e)]
  have hupper : x * m < (q + 1) * P ↔ x * e < (d - r) * P := by
    have hsub : (d - r) * P + r * P = d * P := by rw [← Nat.add_mul, Nat.sub_add_cancel hr.le]
    have hxP : x * P = d * q * P + r * P := by rw [← Nat.add_mul, hx]
    have hmul : (q + 1) * P * d = d * q * P + d * P := by ring
    rw [← Nat.mul_lt_mul_right hd, hprod, hmul]
    omega
  rw [← hupper]
  constructor
  · intro h
    have hlt := Nat.lt_mul_div_succ (x * m) hP
    rwa [h, Nat.mul_comm P] at hlt
  · intro h
    exact Nat.div_eq_of_lt_le hlow h

/-- **When the quotient, rounded up, is one more.** -/
theorem ceil_mul_div_eq_iff (hd : 0 < d) (hP : 0 < P) (hx : 0 < x) (hm : m * d = P + e)
    (he : 0 < e) : (x * m + (P - 1)) / P = x / d + 1 ↔ x * e ≤ (d - x % d) * P := by
  have hr := Nat.mod_lt x hd
  have hxd := Nat.div_add_mod x d
  set q := x / d
  set r := x % d
  have hprod : x * m * d = x * P + x * e := by rw [Nat.mul_assoc, hm, Nat.mul_add]
  have hlow : q * P < x * m := by
    refine Nat.lt_of_mul_lt_mul_right (a := d) ?_
    have hpos : 0 < x * e := Nat.mul_pos hx he
    have hqx : q * P * d ≤ x * P := by rw [← hxd]; nlinarith [Nat.zero_le (r * P)]
    omega
  have hupper : x * m ≤ (q + 1) * P ↔ x * e ≤ (d - r) * P := by
    have hsub : (d - r) * P + r * P = d * P := by rw [← Nat.add_mul, Nat.sub_add_cancel hr.le]
    have hxP : x * P = d * q * P + r * P := by rw [← Nat.add_mul, hxd]
    have hmul : (q + 1) * P * d = d * q * P + d * P := by ring
    rw [← Nat.mul_le_mul_right_iff hd, hprod, hmul]
    omega
  rw [← hupper]
  have hstep : (q + 1) * P = q * P + P := by ring
  constructor
  · intro h
    have hlt := Nat.lt_mul_div_succ (x * m + (P - 1)) hP
    rw [h] at hlt
    have : P * (q + 1 + 1) = (q + 1) * P + P := by ring
    omega
  · intro h
    have hnext : (q + 1 + 1) * P = (q + 1) * P + P := by ring
    exact Nat.div_eq_of_lt_le (by omega) (by omega)

/-! ## Powers of two -/

/-- The largest number below a bound whose remainder is `d - 1`. -/
def crit (d t : Nat) : Nat := t - 1 - t % d

/-- A number that is not a power of two divides none. -/
theorem two_pow_mod_pos (h : ∀ k, d ≠ 2 ^ k) (p : Nat) : 0 < 2 ^ p % d := by
  refine Nat.pos_of_ne_zero fun hmod => ?_
  obtain ⟨k, -, hk⟩ := (Nat.dvd_prime_pow Nat.prime_two).mp (Nat.dvd_of_mod_eq_zero hmod)
  exact h k hk

/-- What is missing to the next multiple of `d`. -/
def excess (d P : Nat) : Nat := d - P % d

theorem mult_mul (hd : 0 < d) : (P / d + 1) * d = P + excess d P := by
  have hr := Nat.mod_lt P hd
  have hP := Nat.div_add_mod P d
  have : (P / d + 1) * d = d * (P / d) + d := by ring
  unfold excess
  omega

theorem excess_pos (hd : 0 < d) : 0 < excess d P := Nat.sub_pos_of_lt (Nat.mod_lt P hd)

theorem crit_add_one {t : Nat} (ht : d ≤ t) (hd : 0 < d) : crit d t + 1 = d * (t / d) := by
  have hr := Nat.mod_lt t hd
  have hq := Nat.div_add_mod t d
  unfold crit
  omega

/-- The excess does no harm at the critical number. -/
def Exact (d t P : Nat) : Prop := crit d t * excess d P < P

/-- **It does none below the bound**, and none at it where its remainder is not `d - 1`. -/
theorem Exact.mul_excess_lt {t : Nat} (h : Exact d t P) (ht : d ≤ t) (hd : 2 ≤ d)
    (hx : x < t ∨ x = t ∧ x % d ≠ d - 1) : x * excess d P < (d - x % d) * P := by
  have hr := Nat.mod_lt x (show 0 < d by omega)
  have hcrit := crit_add_one ht (show 0 < d by omega)
  have hq : 1 ≤ t / d := (Nat.one_le_div_iff (by omega)).mpr ht
  have hlow : d ≤ crit d t + 1 := by rw [hcrit]; exact Nat.le_mul_of_pos_right d hq
  unfold Exact at h
  set c := crit d t
  set e := excess d P
  by_cases hxc : x ≤ c
  · calc x * e ≤ c * e := Nat.mul_le_mul_right e hxc
      _ < P := h
      _ ≤ (d - x % d) * P := Nat.le_mul_of_pos_left P (by omega)
  · -- Behind the critical number the remainders start again at zero.
    have hrem : x = c + 1 + x % d ∧ x % d + 2 ≤ d := by
      have hxt : x ≤ t := by omega
      have hdiv : x / d = t / d := by
        refine Nat.le_antisymm (Nat.div_le_div_right hxt) ?_
        rw [Nat.le_div_iff_mul_le (by omega), Nat.mul_comm, ← hcrit]
        omega
      have hxq := Nat.div_add_mod x d
      have htq := Nat.div_add_mod t d
      rw [hdiv] at hxq
      have htr := Nat.mod_lt t (show 0 < d by omega)
      constructor
      · omega
      · rcases hx with hx | ⟨rfl, hx⟩ <;> omega
    have htwo : x * e < 2 * P := by
      calc x * e ≤ 2 * c * e := Nat.mul_le_mul_right e (by omega)
        _ = 2 * (c * e) := by ring
        _ < 2 * P := by omega
    exact htwo.trans_le (Nat.mul_le_mul_right P (by omega))

/-- **Dividing by the multiplier.** -/
theorem Exact.mul_div {t : Nat} (h : Exact d t P) (ht : d ≤ t) (hd : 2 ≤ d) (hP : 0 < P)
    (hx : x < t) : x * (P / d + 1) / P = x / d :=
  (mul_div_eq_iff (by omega) hP (mult_mul (by omega))).mpr (h.mul_excess_lt ht hd (.inl hx))

/-- **Rounding up.** -/
theorem Exact.ceil_mul_div {t : Nat} (h : Exact d t P) (ht : d ≤ t) (hd : 2 ≤ d) (hP : 0 < P)
    (hpos : 0 < x) (hx : x < t ∨ x = t ∧ (x % d ≠ d - 1 ∨ x * excess d P ≤ P)) :
    (x * (P / d + 1) + (P - 1)) / P = x / d + 1 := by
  refine (ceil_mul_div_eq_iff (by omega) hP hpos (mult_mul (by omega))
    (excess_pos (by omega))).mpr ?_
  have hr := Nat.mod_lt x (show 0 < d by omega)
  rcases hx with hx | ⟨hx, hx' | hx'⟩
  · exact (h.mul_excess_lt ht hd (.inl hx)).le
  · exact (h.mul_excess_lt ht hd (.inr ⟨hx, hx'⟩)).le
  · exact hx'.trans (Nat.le_mul_of_pos_left P (by omega))

end MagicDivision
