import ToyC.Magic

/-!
# Are the magic numbers exact?

The unsigned ones are not always. The search for the least shift stops at the first one
whose multiplier fits a word, which is the shift zero for every divisor, and there the
excess of the multiplier is too much for large dividends (`unsignedMagic_exact_iff`).

The signed ones are. The loop goes on as long as the multiplier of the power it has come to
is not exact at the critical dividend, and so stops at one that is. As long as it goes on,
the quotients it doubles are below `2 ^ 31`, so nothing wraps.
-/

namespace ToyC

open Rv32 MagicDivision

/-! ## Unsigned -/

/-- The search stops at once. -/
theorem unsignedMagic_eq {d : Word} (hd : 2 ≤ d.toNat) :
    unsignedMagic d = (BitVec.ofNat 32 ((2 ^ 32 + d.toNat - 1) / d.toNat), 0) := by
  have hlt : (2 ^ (32 + 0) + d.toNat - 1) / d.toNat < 2 ^ 32 := by
    have := d.isLt
    rw [Nat.div_lt_iff_lt_mul (by omega)]
    omega
  unfold unsignedMagic
  rw [List.range_succ_eq_map, List.findSome?_cons]
  simp only [if_pos hlt, Nat.add_zero, Option.getD_some]

theorem mulhu_toNat (a b : Word) :
    (AluOp.mulhu.eval a b).toNat = a.toNat * b.toNat / 2 ^ 32 := by
  have ha := a.isLt
  have hb := b.isLt
  have hlt : a.toNat * b.toNat < 2 ^ 64 := by nlinarith
  have hdiv : a.toNat * b.toNat / 2 ^ 32 < 2 ^ 32 := by
    rw [Nat.div_lt_iff_lt_mul (by omega)]
    omega
  simp only [AluOp.eval, BitVec.toNat_setWidth, BitVec.toNat_ushiftRight, BitVec.toNat_mul,
    Nat.shiftRight_eq_div_pow]
  rw [Nat.mod_eq_of_lt (show a.toNat < 2 ^ 64 by omega),
    Nat.mod_eq_of_lt (show b.toNat < 2 ^ 64 by omega), Nat.mod_eq_of_lt hlt,
    Nat.mod_eq_of_lt hdiv]

/-- On non-negative numbers division is that of the numbers. -/
theorem Word.div_toNat {n d : Word} (hn : n.toNat < 2 ^ 31) (hd : d.toNat < 2 ^ 31)
    (hpos : 0 < d.toNat) : (Word.div n d).toNat = n.toNat / d.toNat := by
  have hne : d ≠ 0#32 := by rintro rfl; simp at hpos
  have hnm : n.msb = false := by rw [BitVec.msb_eq_decide]; simpa using hn
  have hdm : d.msb = false := by rw [BitVec.msb_eq_decide]; simpa using hd
  unfold Word.div
  rw [if_neg hne, BitVec.sdiv_eq, hnm, hdm]
  exact BitVec.toNat_udiv

theorem Word.rem_toNat {n d : Word} (hn : n.toNat < 2 ^ 31) (hd : d.toNat < 2 ^ 31)
    (hpos : 0 < d.toNat) : (Word.rem n d).toNat = n.toNat % d.toNat := by
  have hne : d ≠ 0#32 := by rintro rfl; simp at hpos
  have hnm : n.msb = false := by rw [BitVec.msb_eq_decide]; simpa using hn
  have hdm : d.msb = false := by rw [BitVec.msb_eq_decide]; simpa using hd
  unfold Word.rem
  rw [if_neg hne, BitVec.srem_eq, hnm, hdm]
  exact BitVec.toNat_umod

/-- **What the unsigned sequence computes is the division**: the magic number fits a word,
the high half of the product is the quotient, and what the machine computes is the quotient
and the remainder. -/
structure UnsignedMagicExact (d n : Word) : Prop where
  fits : (2 ^ (32 + (unsignedMagic d).2) + d.toNat - 1) / d.toNat < 2 ^ 32
  quotient : (n.toNat * (unsignedMagic d).1.toNat / 2 ^ 32) >>> (unsignedMagic d).2 =
    n.toNat / d.toNat
  div : AluOp.mulhu.eval n (unsignedMagic d).1 >>> (unsignedMagic d).2 = Word.div n d
  rem : n - (AluOp.mulhu.eval n (unsignedMagic d).1 >>> (unsignedMagic d).2) * d = Word.rem n d

/-- **When the unsigned magic number is exact**: what it exceeds the quotient of `2 ^ 32` by,
taken `n` times, must not make up for what the remainder of `n` lacks. -/
theorem unsignedMagic_exact_iff {d n : Word} (hd : 3 ≤ d.toNat) (hd' : d.toNat < 2 ^ 31)
    (hpow : ∀ k, d.toNat ≠ 2 ^ k) (hn : n.toNat < 2 ^ 31) :
    UnsignedMagicExact d n ↔
      n.toNat * (d.toNat - 2 ^ 32 % d.toNat) < (d.toNat - n.toNat % d.toNat) * 2 ^ 32 := by
  have hpos : 0 < d.toNat := by omega
  -- The divisor does not divide the power, so rounding up is adding one.
  have hmod := two_pow_mod_pos hpow 32
  have hceil : (2 ^ 32 + d.toNat - 1) / d.toNat = 2 ^ 32 / d.toNat + 1 := by
    have hdm := Nat.div_add_mod (2 ^ 32) d.toNat
    have hlt := Nat.mod_lt (2 ^ 32) hpos
    refine Nat.div_eq_of_lt_le ?_ ?_
    · rw [Nat.add_mul, Nat.mul_comm]
      omega
    · rw [Nat.add_mul, Nat.add_mul, Nat.mul_comm (2 ^ 32 / d.toNat)]
      omega
  have hfits : (2 ^ 32 + d.toNat - 1) / d.toNat < 2 ^ 32 := by
    rw [Nat.div_lt_iff_lt_mul hpos]
    omega
  have hmagic := unsignedMagic_eq (show 2 ≤ d.toNat by omega)
  have hM : (unsignedMagic d).1.toNat = 2 ^ 32 / d.toNat + 1 := by
    rw [hmagic, BitVec.toNat_ofNat, Nat.mod_eq_of_lt hfits, hceil]
  have hs : (unsignedMagic d).2 = 0 := by rw [hmagic]
  have hq : (AluOp.mulhu.eval n (unsignedMagic d).1 >>> (unsignedMagic d).2).toNat =
      n.toNat * (2 ^ 32 / d.toNat + 1) / 2 ^ 32 := by
    rw [hs, BitVec.toNat_ushiftRight, mulhu_toNat, hM]
    rfl
  have hiff := mul_div_eq_iff (x := n.toNat) hpos (by decide) (mult_mul (P := 2 ^ 32) hpos)
  unfold excess at hiff
  rw [← hiff]
  constructor
  · intro h
    have := h.quotient
    rwa [hs, hM] at this
  · intro h
    have hdiv : AluOp.mulhu.eval n (unsignedMagic d).1 >>> (unsignedMagic d).2 = Word.div n d :=
      BitVec.eq_of_toNat_eq (by rw [hq, h, Word.div_toNat hn hd' hpos])
    refine ⟨by rw [hs]; exact hfits, by rw [hs, hM]; exact h, hdiv, ?_⟩
    have hdm := Nat.div_add_mod n.toNat d.toNat
    rw [hdiv]
    apply BitVec.eq_of_toNat_eq
    rw [BitVec.toNat_sub, BitVec.toNat_mul, Word.div_toNat hn hd' hpos,
      Word.rem_toNat hn hd' hpos, Nat.mul_comm]
    have hle := Nat.mod_lt n.toNat hpos
    rw [Nat.mod_eq_of_lt (show d.toNat * (n.toNat / d.toNat) < 2 ^ 32 by omega)]
    omega

/-- A dividend that is large enough and just below a multiple of seven. -/
theorem unsignedMagic_seven : ¬ UnsignedMagicExact 7 2147483645 := fun h => by
  have := h.div
  revert this
  decide

theorem unsignedMagic_seven_small : UnsignedMagicExact 7 1000000 := by
  have hpow : ∀ k, (7#32).toNat ≠ 2 ^ k := by
    intro k hk
    have hodd := congrArg (· % 2) hk
    cases k with
    | zero => cases hk
    | succ k => simp [Nat.pow_succ] at hodd
  exact (unsignedMagic_exact_iff (by decide) (by decide) hpow (by decide)).mpr (by decide)

/-! ## Signed: the loop -/

/-- **A divisor that needs a magic number**: neither a power of two nor the negative of
one. -/
structure NeedsMagic (d : Word) : Prop where
  three_le : 3 ≤ absConst d
  not_pow : ∀ k, absConst d ≠ 2 ^ k

/-- Whether no doubling and no increment of the next turn wraps. -/
structure MagicState.NoWrap (s : MagicState) : Prop where
  q1 : 2 * s.q1.toNat + 1 < 2 ^ 32
  r1 : 2 * s.r1.toNat < 2 ^ 32
  q2 : 2 * s.q2.toNat + 1 < 2 ^ 32
  r2 : 2 * s.r2.toNat < 2 ^ 32

/-- The variables are the quotients and remainders of a power of two. -/
structure MagicState.Holds (d : Word) (s : MagicState) : Prop where
  q1 : s.q1.toNat = 2 ^ s.p / (magicAnc d).toNat
  r1 : s.r1.toNat = 2 ^ s.p % (magicAnc d).toNat
  q2 : s.q2.toNat = 2 ^ s.p / absConst d
  r2 : s.r2.toNat = 2 ^ s.p % absConst d

section Loop

variable {d : Word}

theorem NeedsMagic.lt (h : NeedsMagic d) : absConst d < 2 ^ 31 := by
  have hd := d.isLt
  have hint := BitVec.toInt_eq_toNat_cond d
  have hle : absConst d ≤ 2 ^ 31 := by
    unfold absConst
    split at hint <;> omega
  exact Nat.lt_of_le_of_ne hle (h.not_pow 31)

/-- The bound, as a number. -/
theorem magicT_bounds (d : Word) :
    2 ^ 31 ≤ (magicT d).toNat ∧ (magicT d).toNat ≤ 2 ^ 31 + 1 := by
  rw [magicT_toNat]
  split <;> omega

theorem magicAnc_toNat (h : NeedsMagic d) :
    (magicAnc d).toNat = crit (absConst d) (magicT d).toNat := by
  obtain ⟨hlow, -⟩ := magicT_bounds d
  have hlt := h.lt
  have hmod := Nat.mod_lt (magicT d).toNat (show 0 < absConst d by have := h.three_le; omega)
  have ht := (magicT d).isLt
  unfold magicAnc crit
  rw [BitVec.toNat_sub_of_le, BitVec.toNat_sub_of_le, BitVec.toNat_umod, absConst_eq_toNat]
  · rfl
  · rw [BitVec.le_def]
    show 1 ≤ _
    omega
  · rw [BitVec.le_def, BitVec.toNat_umod, absConst_eq_toNat, BitVec.toNat_sub_of_le]
    · show _ ≤ (magicT d).toNat - 1
      omega
    · rw [BitVec.le_def]
      show 1 ≤ _
      omega

theorem magicAnc_bounds (h : NeedsMagic d) :
    absConst d ≤ (magicAnc d).toNat + 1 ∧ (magicAnc d).toNat ≤ 2 ^ 31 := by
  obtain ⟨hlow, hhigh⟩ := magicT_bounds d
  have hlt := h.lt
  have hthree := h.three_le
  have hle : absConst d ≤ (magicT d).toNat := by omega
  have hcrit := crit_add_one hle (show 0 < absConst d by omega)
  rw [← magicAnc_toNat h] at hcrit
  constructor
  · rw [hcrit]
    exact Nat.le_mul_of_pos_right _ (Nat.div_pos hle (by omega))
  · rw [magicAnc_toNat h]
    unfold crit
    omega

/-- Doubling a quotient and a remainder doubles what they are of. -/
theorem doubleDivMod_spec {n q r : Word} {P : Nat} (hn : 0 < n.toNat)
    (hq : q.toNat = P / n.toNat) (hr : r.toNat = P % n.toNat) (hqw : 2 * q.toNat + 1 < 2 ^ 32)
    (hrw : 2 * r.toNat < 2 ^ 32) :
    (doubleDivMod n q r).1.toNat = P * 2 / n.toNat ∧
      (doubleDivMod n q r).2.toNat = P * 2 % n.toNat := by
  have hrlt : r.toNat < n.toNat := by rw [hr]; exact Nat.mod_lt P hn
  have hP : n.toNat * q.toNat + r.toNat = P := by rw [hq, hr]; exact Nat.div_add_mod P n.toNat
  have hq2 : (q * 2).toNat = 2 * q.toNat := by
    rw [BitVec.toNat_mul]
    show q.toNat * 2 % 2 ^ 32 = _
    omega
  have hr2 : (r * 2).toNat = 2 * r.toNat := by
    rw [BitVec.toNat_mul]
    show r.toNat * 2 % 2 ^ 32 = _
    omega
  have hone : (q * 2 + 1).toNat = 2 * q.toNat + 1 := by
    rw [BitVec.toNat_add, hq2]
    show (2 * q.toNat + 1) % 2 ^ 32 = _
    omega
  unfold doubleDivMod
  simp only [BitVec.ule, hr2, decide_eq_true_iff]
  split
  · rename_i hle
    have hsub : (r * 2 - n).toNat = 2 * r.toNat - n.toNat := by
      rw [BitVec.toNat_sub_of_le (by rw [BitVec.le_def, hr2]; exact hle), hr2]
    have hsplit : P * 2 = n.toNat * (2 * q.toNat + 1) + (2 * r.toNat - n.toNat) := by
      rw [← hP, Nat.mul_add]
      ring_nf
      omega
    rw [hone, hsub, hsplit, Nat.mul_add_div hn, Nat.mul_add_mod,
      Nat.div_eq_of_lt (by omega), Nat.mod_eq_of_lt (by omega)]
    exact ⟨rfl, rfl⟩
  · have hsplit : P * 2 = n.toNat * (2 * q.toNat) + 2 * r.toNat := by
      rw [← hP]
      ring
    rw [hq2, hr2, hsplit, Nat.mul_add_div hn, Nat.mul_add_mod,
      Nat.div_eq_of_lt (by omega), Nat.mod_eq_of_lt (by omega)]
    exact ⟨rfl, rfl⟩

/-- **A turn doubles the power.** -/
theorem MagicState.Holds.turn (h : NeedsMagic d) {s : MagicState} (hs : s.Holds d)
    (hw : s.NoWrap) : (s.turn (magicAnc d) (magicAd d)).Holds d := by
  have hthree := h.three_le
  obtain ⟨hanc, -⟩ := magicAnc_bounds h
  have had := absConst_eq_toNat d
  obtain ⟨hq1, hr1⟩ := doubleDivMod_spec (n := magicAnc d) (by omega) hs.q1 hs.r1 hw.q1 hw.r1
  obtain ⟨hq2, hr2⟩ := doubleDivMod_spec (n := magicAd d) (by omega) (had ▸ hs.q2) (had ▸ hs.r2)
    hw.q2 hw.r2
  rw [had] at hq2 hr2
  rw [← Nat.pow_succ] at hq1 hr1 hq2 hr2
  exact ⟨hq1, hr1, hq2, hr2⟩

/-- **The loop goes on as long as the multiplier is not exact.** -/
theorem MagicState.Holds.goesOn_iff (h : NeedsMagic d) {s : MagicState} (hs : s.Holds d) :
    s.goesOn (magicAd d) = true ↔ ¬ Exact (absConst d) (magicT d).toNat (2 ^ s.p) := by
  have hthree := h.three_le
  obtain ⟨hanc, -⟩ := magicAnc_bounds h
  have hpos : 0 < (magicAnc d).toNat := by omega
  have hr2 := Nat.mod_lt (2 ^ s.p) (show 0 < absConst d by omega)
  have hdelta : (magicAd d - s.r2).toNat = excess (absConst d) (2 ^ s.p) := by
    rw [BitVec.toNat_sub_of_le, absConst_eq_toNat, hs.r2]
    · rfl
    · rw [BitVec.le_def, hs.r2, absConst_eq_toNat]
      omega
  have hP := Nat.div_add_mod (2 ^ s.p) (magicAnc d).toNat
  rw [← hs.q1, ← hs.r1] at hP
  have hr1 : s.r1.toNat < (magicAnc d).toNat := by rw [hs.r1]; exact Nat.mod_lt _ hpos
  unfold MagicState.goesOn Exact
  rw [← magicAnc_toNat h, ← hdelta, ← hP]
  simp only [Bool.or_eq_true, Bool.and_eq_true, beq_iff_eq, BitVec.ult, decide_eq_true_iff,
    BitVec.toNat_eq, Nat.not_lt]
  set c := (magicAnc d).toNat
  set e := (magicAd d - s.r2).toNat
  constructor
  · rintro (hlt | ⟨heq, hzero⟩)
    · have : c * (s.q1.toNat + 1) ≤ c * e := Nat.mul_le_mul_left c hlt
      rw [Nat.mul_add, Nat.mul_one] at this
      omega
    · rw [heq, hzero]
      exact Nat.le_refl _
  · intro hle
    rcases Nat.lt_trichotomy s.q1.toNat e with hlt | heq | hgt
    · exact .inl hlt
    · rw [heq] at hle
      exact .inr ⟨heq, show s.r1.toNat = 0 by omega⟩
    · have : c * (e + 1) ≤ c * s.q1.toNat := Nat.mul_le_mul_left c hgt
      rw [Nat.mul_add, Nat.mul_one] at this
      omega

/-- While it goes on, the next turn does not wrap. -/
theorem MagicState.Holds.noWrap (h : NeedsMagic d) {s : MagicState} (hs : s.Holds d)
    (hnot : ¬ Exact (absConst d) (magicT d).toNat (2 ^ s.p)) : s.NoWrap := by
  have hthree := h.three_le
  have hlt := h.lt
  obtain ⟨hanc, hanc'⟩ := magicAnc_bounds h
  have hmod := two_pow_mod_pos h.not_pow s.p
  have hexcess : excess (absConst d) (2 ^ s.p) ≤ absConst d - 1 := by unfold excess; omega
  unfold Exact at hnot
  rw [← magicAnc_toNat h, Nat.not_lt] at hnot
  set c := (magicAnc d).toNat
  set e := excess (absConst d) (2 ^ s.p)
  have hq1 : s.q1.toNat ≤ e := by
    rw [hs.q1]
    exact Nat.div_le_of_le_mul hnot
  have hq2 : s.q2.toNat < c := by
    rw [hs.q2, Nat.div_lt_iff_lt_mul (by omega)]
    refine Nat.lt_of_le_of_lt hnot (Nat.mul_lt_mul_of_pos_left (by omega) (by omega))
  have hr1 : s.r1.toNat < c := by rw [hs.r1]; exact Nat.mod_lt _ (by omega)
  have hr2 : s.r2.toNat < absConst d := by rw [hs.r2]; exact Nat.mod_lt _ (by omega)
  constructor <;> omega

/-- The remainder of a division, computed as the source does. -/
theorem toNat_sub_div_mul (P n : Word) :
    (P - P / n * n).toNat = P.toNat % n.toNat := by
  have hP := P.isLt
  have hle := Nat.div_mul_le_self P.toNat n.toNat
  have hmul : (P / n * n).toNat = P.toNat / n.toNat * n.toNat := by
    rw [BitVec.toNat_mul, BitVec.toNat_udiv, Nat.mod_eq_of_lt (by omega)]
  rw [BitVec.toNat_sub_of_le (by rw [BitVec.le_def, hmul]; exact hle), hmul]
  have := Nat.div_add_mod P.toNat n.toNat
  rw [Nat.mul_comm] at this
  omega

theorem MagicState.start_holds (d : Word) : (MagicState.start d).Holds d := by
  have had := absConst_eq_toNat d
  refine ⟨BitVec.toNat_udiv, toNat_sub_div_mul _ _, ?_, ?_⟩
  · rw [← had]
    exact BitVec.toNat_udiv
  · rw [← had]
    exact toNat_sub_div_mul _ _

theorem MagicState.start_noWrap (h : NeedsMagic d) : (MagicState.start d).NoWrap := by
  have hthree := h.three_le
  have hlt := h.lt
  obtain ⟨hanc, hanc'⟩ := magicAnc_bounds h
  have hs := MagicState.start_holds d
  have hq1 : (MagicState.start d).q1.toNat ≤ 2 ^ 31 / 2 := by
    rw [hs.q1]
    exact Nat.div_le_div_left (by omega) (by decide)
  have hq2 : (MagicState.start d).q2.toNat ≤ 2 ^ 31 / 3 := by
    rw [hs.q2]
    exact Nat.div_le_div_left hthree (by decide)
  have hr1 : (MagicState.start d).r1.toNat < (magicAnc d).toNat := by
    rw [hs.r1]
    exact Nat.mod_lt _ (by omega)
  have hr2 : (MagicState.start d).r2.toNat < absConst d := by
    rw [hs.r2]
    exact Nat.mod_lt _ (by omega)
  constructor <;> omega

/-- The variables after so many turns. -/
def MagicState.nth (d : Word) (k : Nat) : MagicState :=
  (MagicState.turn (magicAnc d) (magicAd d))^[k] (.start d)

theorem MagicState.nth_succ (d : Word) (k : Nat) :
    MagicState.nth d (k + 1) = (MagicState.nth d k).turn (magicAnc d) (magicAd d) :=
  Function.iterate_succ_apply' _ k _

theorem MagicState.nth_p (d : Word) (k : Nat) : (MagicState.nth d k).p = 31 + k := by
  induction k with
  | zero => rfl
  | succ k ih =>
    rw [MagicState.nth_succ]
    show (MagicState.nth d k).p + 1 = _
    rw [ih]
    rfl

/-- The loop leaves after the first turn that lets it. -/
theorem MagicState.loop_eq {anc ad : Word} {s : MagicState} {k n : Nat} (hk : 1 ≤ k) (hn : k ≤ n)
    (hgo : ∀ j, 1 ≤ j → j < k → ((MagicState.turn anc ad)^[j] s).goesOn ad = true)
    (hstop : ((MagicState.turn anc ad)^[k] s).goesOn ad = false) :
    MagicState.loop anc ad n s = (MagicState.turn anc ad)^[k] s := by
  induction n generalizing s k with
  | zero => omega
  | succ n ih =>
    obtain ⟨k, rfl⟩ : ∃ k', k = k' + 1 := ⟨k - 1, by omega⟩
    unfold MagicState.loop
    cases k with
    | zero =>
      rw [Function.iterate_one] at hstop ⊢
      simp [hstop]
    | succ k =>
      have h1 := hgo 1 (by omega) (by omega)
      rw [Function.iterate_one] at h1
      simp only [h1, if_true]
      rw [Function.iterate_succ_apply] at hstop ⊢
      refine ih (by omega) (by omega) (fun j hj hjk => ?_) hstop
      rw [← Function.iterate_succ_apply]
      exact hgo (j + 1) (by omega) (by omega)

/-- **The run of the loop**: it takes `k` turns, none of which wraps, to the first power
whose multiplier is exact. -/
structure MagicState.Run (d : Word) (k : Nat) : Prop where
  pos : 1 ≤ k
  le : k ≤ 31
  holds : ∀ j ≤ k, (MagicState.nth d j).Holds d
  noWrap : ∀ j < k, (MagicState.nth d j).NoWrap
  goesOn : ∀ j, 1 ≤ j → j < k → (MagicState.nth d j).goesOn (magicAd d) = true
  stops : (MagicState.nth d k).goesOn (magicAd d) = false
  exact_ : Exact (absConst d) (magicT d).toNat (2 ^ (31 + k))
  first : ∀ j, 1 ≤ j → j < k → ¬ Exact (absConst d) (magicT d).toNat (2 ^ (31 + j))

/-- At the latest at `2 ^ 62` the multiplier is exact. -/
theorem NeedsMagic.exact (h : NeedsMagic d) :
    Exact (absConst d) (magicT d).toNat (2 ^ (31 + 31)) := by
  have hthree := h.three_le
  have hlt := h.lt
  obtain ⟨-, hanc⟩ := magicAnc_bounds h
  have hmod := two_pow_mod_pos h.not_pow (31 + 31)
  have hexcess : excess (absConst d) (2 ^ (31 + 31)) ≤ 2 ^ 31 - 2 := by unfold excess; omega
  unfold Exact
  rw [← magicAnc_toNat h]
  calc (magicAnc d).toNat * excess (absConst d) (2 ^ (31 + 31))
      ≤ 2 ^ 31 * (2 ^ 31 - 2) := Nat.mul_le_mul hanc hexcess
    _ < 2 ^ (31 + 31) := by decide

/-- **The loop terminates, and nothing wraps on the way.** -/
theorem NeedsMagic.run (h : NeedsMagic d) : ∃ k, MagicState.Run d k := by
  classical
  have hex : ∃ k, 1 ≤ k ∧ Exact (absConst d) (magicT d).toNat (2 ^ (31 + k)) :=
    ⟨31, by decide, h.exact⟩
  obtain ⟨hpos, hexact⟩ := Nat.find_spec hex
  have hle : Nat.find hex ≤ 31 := Nat.find_min' hex ⟨by decide, h.exact⟩
  have hfirst : ∀ j, 1 ≤ j → j < Nat.find hex →
      ¬ Exact (absConst d) (magicT d).toNat (2 ^ (31 + j)) :=
    fun j hj hlt he => Nat.find_min hex hlt ⟨hj, he⟩
  set k := Nat.find hex
  -- What holds before a turn holds behind it, as it does not wrap.
  have hboth : ∀ j ≤ k, (MagicState.nth d j).Holds d ∧
      (j < k → (MagicState.nth d j).NoWrap) := by
    intro j
    induction j with
    | zero => exact fun _ => ⟨MagicState.start_holds d, fun _ => MagicState.start_noWrap h⟩
    | succ j ih =>
      intro hj
      obtain ⟨hs, hw⟩ := ih (by omega)
      have hs' : (MagicState.nth d (j + 1)).Holds d := by
        rw [MagicState.nth_succ]
        exact hs.turn h (hw (by omega))
      refine ⟨hs', fun hlt => hs'.noWrap h ?_⟩
      rw [MagicState.nth_p]
      exact hfirst (j + 1) (by omega) hlt
  have hgo : ∀ j ≤ k, (MagicState.nth d j).goesOn (magicAd d) = true ↔
      ¬ Exact (absConst d) (magicT d).toNat (2 ^ (31 + j)) := by
    intro j hj
    rw [(hboth j hj).1.goesOn_iff h, MagicState.nth_p]
  refine ⟨k, hpos, hle, fun j hj => (hboth j hj).1, fun j hj => (hboth j hj.le).2 hj,
    fun j hj hlt => (hgo j hlt.le).mpr (hfirst j hj hlt), ?_, hexact, hfirst⟩
  rw [← Bool.not_eq_true, hgo k (Nat.le_refl k)]
  exact not_not.mpr hexact

theorem MagicState.Run.loop_eq {k : Nat} (hk : MagicState.Run d k) :
    MagicState.loop (magicAnc d) (magicAd d) 64 (.start d) = MagicState.nth d k :=
  MagicState.loop_eq hk.pos (by have := hk.le; omega) hk.goesOn hk.stops

/-- The multiplier fits a word, and is not the least signed one. -/
theorem MagicState.Run.mult (h : NeedsMagic d) {k : Nat} (hk : MagicState.Run d k) :
    2 ^ (31 + k) / absConst d + 1 < 2 ^ 32 ∧ 2 ^ (31 + k) / absConst d + 1 ≠ 2 ^ 31 := by
  have hthree := h.three_le
  have hlt := h.lt
  obtain ⟨hlow, hhigh⟩ := magicT_bounds d
  have hpos := hk.pos
  have hmul := mult_mul (d := absConst d) (P := 2 ^ (31 + k)) (by omega)
  have hexcess := excess_pos (d := absConst d) (P := 2 ^ (31 + k)) (by omega)
  have hle : excess (absConst d) (2 ^ (31 + k)) ≤ absConst d := Nat.sub_le _ _
  constructor
  · obtain ⟨j, rfl⟩ : ∃ j, k = j + 1 := ⟨k - 1, by omega⟩
    cases j with
    | zero =>
      have : 2 ^ (31 + (0 + 1)) / absConst d ≤ 2 ^ 32 / 3 := Nat.div_le_div_left hthree (by decide)
      omega
    | succ j =>
      -- The power before was not exact, which bounds this one.
      have hbefore := hk.first (j + 1) (by omega) (by omega)
      have hmod := two_pow_mod_pos h.not_pow (31 + (j + 1))
      have hmodlt := Nat.mod_lt (2 ^ (31 + (j + 1))) (show 0 < absConst d by omega)
      unfold Exact at hbefore
      have hcrit := crit_add_one (show absConst d ≤ (magicT d).toNat by omega)
        (show 0 < absConst d by omega)
      have hcrit' : crit (absConst d) (magicT d).toNat + 1 ≤ 2 ^ 31 + 1 := by
        rw [hcrit]
        exact (Nat.mul_div_le _ _).trans hhigh
      have hpow : 2 ^ (31 + (j + 1 + 1)) = 2 ^ (31 + (j + 1)) * 2 := by
        rw [← Nat.pow_succ]
        rfl
      have hdouble : excess (absConst d) (2 ^ (31 + (j + 1 + 1))) ≤
          2 * excess (absConst d) (2 ^ (31 + (j + 1))) := by
        have hm : 2 ^ (31 + (j + 1)) % absConst d * 2 % absConst d =
            2 ^ (31 + (j + 1 + 1)) % absConst d := by
          rw [hpow, Nat.mod_mul_mod]
        unfold excess
        rw [← hm]
        rcases Nat.lt_or_ge (2 ^ (31 + (j + 1)) % absConst d * 2) (absConst d) with hl | hl
        · rw [Nat.mod_eq_of_lt hl]
          omega
        · rw [Nat.mod_eq_sub_mod hl, Nat.mod_eq_of_lt (by omega)]
          omega
      set e := excess (absConst d) (2 ^ (31 + (j + 1)))
      set c := crit (absConst d) (magicT d).toNat
      have he : e ≤ absConst d - 1 := by
        show absConst d - _ ≤ _
        omega
      have hprod : (c + 1) * e ≤ (2 ^ 31 + 1) * (absConst d - 1) := Nat.mul_le_mul hcrit' he
      rw [Nat.add_mul, Nat.one_mul] at hprod
      refine Nat.lt_of_mul_lt_mul_right (a := absConst d) ?_
      rw [hmul]
      omega
  · intro heq
    rw [heq] at hmul
    have hpow : 2 ^ (31 + k) = 2 ^ 31 * 2 ^ k := Nat.pow_add ..
    have hdvd : 2 ^ 31 ∣ excess (absConst d) (2 ^ (31 + k)) := by
      refine (Nat.dvd_add_right (Dvd.intro (2 ^ k) hpow.symm)).mp ?_
      rw [← hmul]
      exact Nat.dvd_mul_right _ _
    have := Nat.le_of_dvd hexcess hdvd
    omega

end Loop

/-! ## Signed: the quotient -/

/-- **The quotient** as the code generator computes it from the magic number and its
shift. -/
def magicQuotient (d n : Word) : Word :=
  let (m, s) := signedMagic d
  let w := AluOp.mulh.eval n m
  let w := if BitVec.slt 0 d && m.slt 0 then w + n
    else if d.slt 0 && BitVec.slt 0 m then w - n else w
  let w := w.sshiftRight s
  w + w >>> 31

/-- The high half of a product is the quotient by `2 ^ 32`, rounded down. -/
theorem mulh_eq (a b : Word) :
    AluOp.mulh.eval a b = BitVec.ofInt 32 (a.toInt * b.toInt / 2 ^ 32) := by
  set z := a.toInt * b.toInt with hz
  have hprod : a.signExtend 64 * b.signExtend 64 = BitVec.ofInt 64 z := by
    rw [hz, BitVec.ofInt_mul]
    rfl
  unfold AluOp.eval
  apply BitVec.eq_of_toNat_eq
  simp only [hprod, BitVec.toNat_setWidth, BitVec.toNat_ushiftRight, Nat.shiftRight_eq_div_pow]
  rw [BitVec.toNat_ofInt, BitVec.toNat_ofInt]
  omega

/-- Whether a word is negative. -/
theorem slt_zero_iff {a : Word} : a.slt 0 = true ↔ a.toInt < 0 := by
  simp [BitVec.slt]

theorem zero_slt_iff {a : Word} : BitVec.slt 0 a = true ↔ 0 < a.toInt := by
  simp [BitVec.slt]

theorem toInt_bounds (a : Word) : -2 ^ 31 ≤ a.toInt ∧ a.toInt < 2 ^ 31 := by
  have := a.isLt
  have hint := BitVec.toInt_eq_toNat_cond a
  split at hint <;> omega

/-- A number that fits a word is the value of the word made of it. -/
theorem toInt_ofInt_of_bounds {z : Int} (hlow : -2 ^ 31 ≤ z) (hhigh : z < 2 ^ 31) :
    (BitVec.ofInt 32 z).toInt = z :=
  BitVec.toInt_ofInt_eq_self (by decide) hlow hhigh

theorem toInt_ofNat_cond {m : Nat} (hm : m < 2 ^ 32) :
    (BitVec.ofNat 32 m).toInt = if m < 2 ^ 31 then (m : Int) else m - 2 ^ 32 := by
  have := BitVec.toInt_eq_toNat_cond (BitVec.ofNat 32 m)
  rw [BitVec.toNat_ofNat, Nat.mod_eq_of_lt hm] at this
  rw [this]
  split <;> split <;> omega

/-- The dividend with the sign of the quotient by a positive number. -/
def signedBy (d n : Word) : Int := if d.slt 0 then -n.toInt else n.toInt

section Quotient

variable {d : Word} {m : Nat}

/-- **The corrected product** is that of the dividend and the multiplier, though the
multiplier may not fit a signed word. -/
theorem corrected_eq (hd : d.toInt ≠ 0) (hm : m < 2 ^ 32) (hm' : m ≠ 2 ^ 31) (hpos : 0 < m)
    (n : Word) :
    (let M := if d.slt 0 then -BitVec.ofNat 32 m else BitVec.ofNat 32 m
      let w := AluOp.mulh.eval n M
      if BitVec.slt 0 d && M.slt 0 then w + n
        else if d.slt 0 && BitVec.slt 0 M then w - n else w) =
      BitVec.ofInt 32 (signedBy d n * m / 2 ^ 32) := by
  have hM := toInt_ofNat_cond hm
  have hadd : ∀ z : Int, BitVec.ofInt 32 (z / 2 ^ 32) + n =
      BitVec.ofInt 32 ((z + n.toInt * 2 ^ 32) / 2 ^ 32) := by
    intro z
    rw [Int.add_mul_ediv_right _ _ (by decide), BitVec.ofInt_add, BitVec.ofInt_toInt]
  have hsub : ∀ z : Int, BitVec.ofInt 32 (z / 2 ^ 32) - n =
      BitVec.ofInt 32 ((z - n.toInt * 2 ^ 32) / 2 ^ 32) := by
    intro z
    have heq : z - n.toInt * 2 ^ 32 = z + (-n.toInt) * 2 ^ 32 := by ring
    rw [heq, Int.add_mul_ediv_right _ _ (by decide), BitVec.ofInt_add, BitVec.ofInt_neg,
      BitVec.ofInt_toInt, BitVec.sub_eq_add_neg]
  unfold signedBy
  by_cases hneg : d.slt 0 = true
  · have hdneg := slt_zero_iff.mp hneg
    have hpos' : BitVec.slt 0 d = false := by
      rw [← Bool.not_eq_true, zero_slt_iff]
      omega
    have hMneg : (-BitVec.ofNat 32 m).toInt = -(BitVec.ofNat 32 m).toInt := by
      refine BitVec.toInt_neg_of_ne_intMin fun h => hm' ?_
      have := congrArg BitVec.toNat h
      rw [BitVec.toNat_ofNat, Nat.mod_eq_of_lt hm] at this
      rw [this]
      rfl
    simp only [hneg, hpos', if_true, Bool.false_and, Bool.true_and, Bool.false_eq_true, if_false]
    rw [mulh_eq, hMneg, hM]
    by_cases hsmall : m < 2 ^ 31
    · rw [if_neg (by rw [zero_slt_iff, hMneg, hM, if_pos hsmall]; omega), if_pos hsmall]
      congr 2
      ring
    · rw [if_pos (by rw [zero_slt_iff, hMneg, hM, if_neg hsmall]; omega), if_neg hsmall, hsub]
      congr 2
      ring
  · have hneg' : d.slt 0 = false := by simpa using hneg
    have hdneg := slt_zero_iff.not.mp hneg
    have hpos' : BitVec.slt 0 d = true := zero_slt_iff.mpr (by omega)
    simp only [hneg', hpos', Bool.false_and, Bool.true_and, Bool.false_eq_true, if_false]
    rw [mulh_eq, hM]
    by_cases hsmall : m < 2 ^ 31
    · rw [if_neg (by rw [slt_zero_iff, hM, if_pos hsmall]; omega), if_pos hsmall]
    · rw [if_pos (by rw [slt_zero_iff, hM, if_neg hsmall]; omega), if_neg hsmall, hadd]
      congr 2
      ring

/-- Adding the sign bit rounds towards zero. -/
theorem add_sign_eq {w : Word} {v : Int} (hw : w.toInt = v) :
    w + w >>> 31 = BitVec.ofInt 32 (v + if v < 0 then 1 else 0) := by
  have hlt := w.isLt
  have hint := BitVec.toInt_eq_toNat_cond w
  have hsign : w >>> 31 = BitVec.ofInt 32 (if v < 0 then 1 else 0) := by
    apply BitVec.eq_of_toNat_eq
    rw [BitVec.toNat_ushiftRight, Nat.shiftRight_eq_div_pow, BitVec.toNat_ofInt]
    split <;> split at hint <;> omega
  rw [hsign, BitVec.ofInt_add, ← hw, BitVec.ofInt_toInt]

/-- Rounding down a negative number is rounding up its opposite. -/
theorem neg_ediv_eq (z : Int) {P : Int} (hP : 0 < P) : -z / P = -((z + (P - 1)) / P) := by
  have h1 := Int.mul_ediv_add_emod (-z) P
  have h2 := Int.emod_nonneg (-z) hP.ne'
  have h3 := Int.emod_lt_of_pos (-z) hP
  set q := -z / P
  set r := -z % P
  have hsplit : z + (P - 1) = (P - 1 - r) + (-q) * P := by linarith
  rw [hsplit, Int.add_mul_ediv_right _ _ hP.ne', Int.ediv_eq_zero_of_lt (by omega) (by omega)]
  omega

/-- **The quotient, rounded towards zero**, from the one rounded down. -/
theorem tdiv_of_exact {ad p t : Nat} (had : 2 ≤ ad) (ht : ad ≤ t) (hex : Exact ad t (2 ^ p))
    {y v : Int} (hv : v = y * ((2 ^ p / ad + 1 : Nat) : Int) / 2 ^ p) (hhigh : y < t)
    (hlow : -t < y ∨ y = -t ∧ (t % ad ≠ ad - 1 ∨ t * excess ad (2 ^ p) ≤ 2 ^ p)) :
    v + (if v < 0 then 1 else 0) = y.tdiv ad := by
  have hP : 0 < 2 ^ p := Nat.two_pow_pos p
  rcases lt_or_ge y 0 with hy | hy
  · obtain ⟨k, rfl⟩ : ∃ k : Nat, y = -k := ⟨y.natAbs, by omega⟩
    have hceil := hex.ceil_mul_div (x := k) ht had hP (by omega) (by
      rcases hlow with h | ⟨h, hrem⟩
      · exact .inl (by omega)
      · obtain rfl : k = t := by omega
        exact .inr ⟨rfl, hrem⟩)
    have hcast : ((k * (2 ^ p / ad + 1) + (2 ^ p - 1) : Nat) : Int) =
        (k : Int) * ((2 ^ p / ad + 1 : Nat) : Int) + (2 ^ p - 1) := by
      push_cast [Nat.cast_sub hP]
      ring
    have hpow : ((2 ^ p : Nat) : Int) = 2 ^ p := by push_cast; rfl
    have hfloor : v = -((k / ad + 1 : Nat) : Int) := by
      rw [hv, Int.neg_mul, neg_ediv_eq _ (by positivity), ← hcast, ← hpow, ← Int.natCast_ediv,
        hceil]
    rw [Int.neg_tdiv, Int.tdiv_eq_ediv_of_nonneg (by omega), ← Int.natCast_ediv]
    generalize k / ad = q at hfloor
    rw [if_pos (by omega)]
    omega
  · obtain ⟨x, rfl⟩ : ∃ x : Nat, y = x := ⟨y.toNat, by omega⟩
    have hdiv := hex.mul_div (x := x) ht had hP (by omega)
    have hfloor : v = ((x / ad : Nat) : Int) := by
      rw [hv, ← hdiv]
      push_cast
      rfl
    rw [Int.tdiv_eq_ediv_of_nonneg (by omega), ← Int.natCast_ediv]
    generalize x / ad = q at hfloor
    rw [if_neg (by omega)]
    omega

theorem signedBy_bounds (d n : Word) :
    signedBy d n < (magicT d).toNat ∧ -2 ^ 31 ≤ signedBy d n ∧
      (d.slt 0 = true → -2 ^ 31 < signedBy d n) := by
  have hn := toInt_bounds n
  rw [magicT_toNat]
  unfold signedBy
  cases d.slt 0 with
  | true => exact ⟨by simp only [if_true]; omega, by simp only [if_true]; omega, fun _ => by
      simp only [if_true]
      omega⟩
  | false => exact ⟨by simp only [Bool.false_eq_true, if_false]; omega, by simpa using hn.1,
      fun h => by cases h⟩

theorem signedBy_tdiv (d n : Word) :
    (signedBy d n).tdiv (absConst d) = n.toInt.tdiv d.toInt := by
  unfold signedBy absConst
  by_cases hneg : d.slt 0 = true
  · have hd := slt_zero_iff.mp hneg
    have habs : (d.toInt.natAbs : Int) = -d.toInt := by omega
    rw [if_pos hneg, habs, Int.tdiv_neg, Int.neg_tdiv, Int.neg_neg]
  · have hd := slt_zero_iff.not.mp hneg
    have habs : (d.toInt.natAbs : Int) = d.toInt := by omega
    rw [if_neg hneg, habs]

theorem sdiv_eq_ofInt (n d : Word) : n.sdiv d = BitVec.ofInt 32 (n.toInt.tdiv d.toInt) := by
  apply BitVec.eq_of_toInt_eq
  rw [BitVec.toInt_sdiv, BitVec.toInt_ofInt]

/-- The dividend of least value makes no exception: where its remainder is the greatest, the
loop takes one turn only. -/
theorem MagicState.Run.least (h : NeedsMagic d) {k : Nat} (hk : MagicState.Run d k)
    (hd : d.slt 0 = false) (hrem : 2 ^ 31 % absConst d = absConst d - 1) :
    2 ^ 31 * excess (absConst d) (2 ^ (31 + k)) ≤ 2 ^ (31 + k) := by
  have hthree := h.three_le
  have hpos := hk.pos
  have ht : (magicT d).toNat = 2 ^ 31 := by
    rw [magicT_toNat, hd]
    rfl
  have hmod : 2 ^ (31 + 1) % absConst d = absConst d - 2 := by
    have hdouble : (absConst d - 1) * 2 = absConst d - 2 + absConst d := by omega
    rw [Nat.pow_succ, ← Nat.mod_mul_mod, hrem, hdouble, Nat.add_mod_right,
      Nat.mod_eq_of_lt (by omega)]
  have hexcess : excess (absConst d) (2 ^ (31 + 1)) = 2 := by
    unfold excess
    omega
  have hone : k = 1 := by
    by_contra hne
    refine hk.first 1 (Nat.le_refl 1) (by omega) ?_
    unfold Exact crit
    rw [hexcess, ht, hrem]
    omega
  subst hone
  rw [hexcess]
  decide

/-- **The quotient is the one the division instruction computes.** -/
theorem magicQuotient_eq (h : NeedsMagic d) (n : Word) : magicQuotient d n = n.sdiv d := by
  obtain ⟨k, hk⟩ := h.run
  have hthree := h.three_le
  have hlt := h.lt
  have hpos := hk.pos
  obtain ⟨hm, hm'⟩ := hk.mult h
  obtain ⟨hhigh, hlow, hlow'⟩ := signedBy_bounds d n
  obtain ⟨htlow, -⟩ := magicT_bounds d
  have hd0 : d.toInt ≠ 0 := by
    intro h0
    unfold absConst at hthree
    rw [h0] at hthree
    exact absurd hthree (by decide)
  have hloop := hk.loop_eq
  have hq2 : (MagicState.nth d k).q2 + 1 =
      BitVec.ofNat 32 (2 ^ (31 + k) / absConst d + 1) := by
    rw [BitVec.ofNat_add, ← MagicState.nth_p d k, ← (hk.holds k (Nat.le_refl k)).q2,
      BitVec.ofNat_toNat, BitVec.setWidth_eq]
    rfl
  have hmagic : signedMagic d =
      (if d.slt 0 then -BitVec.ofNat 32 (2 ^ (31 + k) / absConst d + 1)
        else BitVec.ofNat 32 (2 ^ (31 + k) / absConst d + 1), k - 1) := by
    unfold signedMagic
    simp only [hloop, hq2, MagicState.nth_p]
    congr 1
    omega
  have hcorr := corrected_eq hd0 hm hm' (Nat.succ_pos _) n
  simp only at hcorr
  unfold magicQuotient
  simp only [hmagic]
  rw [hcorr]
  set m := 2 ^ (31 + k) / absConst d + 1 with hmdef
  set y := signedBy d n with hy
  have hyhigh : y ≤ 2 ^ 31 := by
    have := magicT_bounds d
    omega
  have hprod : -2 ^ 31 * (2 ^ 32 - 1) ≤ y * m ∧ y * m ≤ 2 ^ 31 * (2 ^ 32 - 1) := by
    have hm32 : (m : Int) ≤ 2 ^ 32 - 1 := by omega
    constructor <;> nlinarith
  have hw : (BitVec.ofInt 32 (y * m / 2 ^ 32)).toInt = y * m / 2 ^ 32 :=
    toInt_ofInt_of_bounds (by omega) (by omega)
  have hshift : ((BitVec.ofInt 32 (y * m / 2 ^ 32)).sshiftRight (k - 1)).toInt =
      y * m / 2 ^ (31 + k) := by
    have hpow : (2 : Int) ^ 32 * ((2 ^ (k - 1) : Nat) : Int) = 2 ^ (31 + k) := by
      rw [Nat.cast_pow, Nat.cast_ofNat, ← pow_add]
      congr 1
      omega
    rw [BitVec.toInt_sshiftRight, hw, Int.shiftRight_eq_div_pow,
      Int.ediv_ediv_of_nonneg (by decide), hpow]
  have hlast : -((magicT d).toNat : Int) < y ∨ y = -((magicT d).toNat : Int) ∧
      ((magicT d).toNat % absConst d ≠ absConst d - 1 ∨
        (magicT d).toNat * excess (absConst d) (2 ^ (31 + k)) ≤ 2 ^ (31 + k)) := by
    have ht := magicT_toNat d
    cases hneg : d.slt 0 with
    | true =>
      have := hlow' hneg
      exact .inl (by omega)
    | false =>
      rw [hneg] at ht
      rcases lt_or_eq_of_le hlow with hl | hl
      · exact .inl (by rw [ht]; exact hl)
      · refine .inr ⟨by rw [ht, ← hl]; rfl, ?_⟩
        rw [ht]
        by_cases hrem : 2 ^ 31 % absConst d = absConst d - 1
        · exact .inr (hk.least h hneg hrem)
        · exact .inl hrem
  rw [add_sign_eq hshift, tdiv_of_exact (by omega) (by omega) hk.exact_ rfl hhigh hlast,
    hy, signedBy_tdiv, sdiv_eq_ofInt]

end Quotient

/-- **What the signed magic number of a divisor is worth**: the loop ends after some turns, of
which none wraps, nor do the last increment and the negation; the shift is one of a word; and
every quotient is exact. -/
structure SignedMagicExact (d : Word) : Prop where
  loop : ∃ k, 1 ≤ k ∧
    (∀ j, 1 ≤ j → j < k → (MagicState.nth d j).goesOn (magicAd d) = true) ∧
    (MagicState.nth d k).goesOn (magicAd d) = false ∧
    (∀ j < k, (MagicState.nth d j).NoWrap) ∧
    (MagicState.nth d k).q2.toNat + 1 < 2 ^ 32 ∧
    (MagicState.nth d k).q2 + 1 ≠ Word.intMin ∧
    signedMagic d =
      (if d.slt 0 then -((MagicState.nth d k).q2 + 1) else (MagicState.nth d k).q2 + 1,
        (MagicState.nth d k).p - 32)
  shift : (signedMagic d).2 ≤ 31
  quotient : ∀ n, magicQuotient d n = n.sdiv d

/-- The shift fits a word. -/
theorem NeedsMagic.shift_le {d : Word} (h : NeedsMagic d) : (signedMagic d).2 ≤ 31 := by
  obtain ⟨k, hk⟩ := h.run
  have hle := hk.le
  unfold signedMagic
  simp only [hk.loop_eq, MagicState.nth_p]
  omega

/-- **Signed magic division is exact.** -/
theorem signedMagic_exact {d : Word} (h : NeedsMagic d) : SignedMagicExact d := by
  obtain ⟨k, hk⟩ := h.run
  have hle := hk.le
  obtain ⟨hm, hm'⟩ := hk.mult h
  have hq2 := (hk.holds k (Nat.le_refl k)).q2
  rw [MagicState.nth_p] at hq2
  have hmagic : signedMagic d =
      (if d.slt 0 then -((MagicState.nth d k).q2 + 1) else (MagicState.nth d k).q2 + 1,
        (MagicState.nth d k).p - 32) := by
    unfold signedMagic
    simp only [hk.loop_eq]
  refine ⟨⟨k, hk.pos, hk.goesOn, hk.stops, hk.noWrap, by rw [hq2]; exact hm, fun heq => ?_,
    hmagic⟩, ?_, magicQuotient_eq h⟩
  · have hnat := congrArg BitVec.toNat heq
    have hone : ((MagicState.nth d k).q2 + 1).toNat = (MagicState.nth d k).q2.toNat + 1 := by
      rw [BitVec.toNat_add]
      show ((MagicState.nth d k).q2.toNat + 1) % 2 ^ 32 = _
      rw [Nat.mod_eq_of_lt (by rw [hq2]; exact hm)]
    rw [hone, hq2] at hnat
    exact hm' hnat
  · rw [hmagic, MagicState.nth_p]
    show 31 + k - 32 ≤ 31
    omega

theorem needsMagic_neg_seven : NeedsMagic (-7) := by
  refine ⟨by decide, fun k hk => ?_⟩
  have hodd := congrArg (· % 2) hk
  cases k with
  | zero => revert hk; decide
  | succ k => simp [absConst, Nat.pow_succ] at hodd

theorem signedMagic_neg_seven : magicQuotient (-7) 2147483645 = -306783377 := by
  rw [(signedMagic_exact needsMagic_neg_seven).quotient]
  decide

end ToyC
