import ToyC.MagicExact
import ToyC.OptOperands

/-!
# Operations by constants

A product by a constant near a power of two is a shift and at most two more instructions. A
division by a power of two is a shift of the dividend, which is first raised so that the
shift rounds towards zero; any other division is the quotient by a magic number. A remainder
is what the product of the quotient and the divisor leaves.

Each sequence reads its operand for the last time before it writes a register that may be
the operand's, and changes none but its result's and `t6`, `a6` and `a7`.
-/

namespace ToyC

open Rv32

/-! ## Powers of two -/

theorem log2exact_eq_some {v k : Nat} : log2exact v = some k ↔ v = 2 ^ k := by
  unfold log2exact
  constructor
  · intro h
    split at h
    · cases h
    · rename_i hv
      obtain ⟨hv, hand⟩ := not_or.mp hv
      obtain ⟨j, hj⟩ := (Nat.and_sub_one_eq_zero_iff_isPowerOfTwo hv).mp (not_not.mp hand)
      rw [hj, Nat.log2_two_pow] at h
      rw [hj, Option.some.inj h]
  · rintro rfl
    have hne : 2 ^ k ≠ 0 := (Nat.two_pow_pos k).ne'
    have hand := (Nat.and_sub_one_eq_zero_iff_isPowerOfTwo hne).mpr ⟨k, rfl⟩
    rw [if_neg (not_or.mpr ⟨hne, not_not.mpr hand⟩), Nat.log2_two_pow]

theorem log2pos_eq_some {v k : Nat} : log2pos v = some k ↔ v = 2 ^ k ∧ 1 ≤ k := by
  unfold log2pos
  rw [Option.filter_eq_some_iff, log2exact_eq_some, decide_eq_true_iff]

theorem absConst_le (c : Word) : absConst c ≤ 2 ^ 31 := by
  have := toInt_bounds c
  unfold absConst
  omega

/-- An exponent of a number of 32 bits. -/
theorem pow_lt_32 {v k : Nat} (h : v = 2 ^ k) (hv : v ≤ 2 ^ 31 + 1) : k < 32 := by
  refine (Nat.pow_lt_pow_iff_right (a := 2) (by decide)).mp ?_
  rw [← h]
  omega

/-- **A constant and its absolute value.** -/
theorem const_eq (c : Word) :
    c = if c.slt 0 then -BitVec.ofNat 32 (absConst c) else BitVec.ofNat 32 (absConst c) := by
  have hc : c = BitVec.ofInt 32 c.toInt := BitVec.ofInt_toInt.symm
  unfold absConst
  split
  · rename_i hneg
    have hd := slt_zero_iff.mp hneg
    rw [← BitVec.ofInt_natCast, ← BitVec.ofInt_neg]
    conv_lhs => rw [hc]
    congr 1
    omega
  · rename_i hneg
    have hd := slt_zero_iff.not.mp hneg
    rw [← BitVec.ofInt_natCast]
    conv_lhs => rw [hc]
    congr 1
    omega

/-- The absolute value of a constant is one for two constants. -/
theorem absConst_eq_one {c : Word} (h : absConst c = 1) : c = 1 ∨ c = -1 := by
  have hc := const_eq c
  rw [h] at hc
  split at hc
  · exact .inr hc
  · exact .inl hc

/-- **A divisor that no special case covers** needs a magic number. -/
theorem needsMagic_of {c : Word} (h0 : c ≠ 0) (h1 : absConst c ≠ 1)
    (hlog : log2pos (absConst c) = none) : NeedsMagic c := by
  have hpow : ∀ k, absConst c ≠ 2 ^ k := by
    intro k hk
    cases k with
    | zero => exact h1 hk
    | succ k =>
      rw [log2pos_eq_some.mpr ⟨hk, by omega⟩] at hlog
      cases hlog
  refine ⟨?_, hpow⟩
  have hzero : absConst c ≠ 0 := by
    intro h
    refine h0 ?_
    rw [const_eq c, h]
    simp
  have htwo := hpow 1
  omega

theorem shl_eq_mul (x : Word) (k : Nat) : x <<< k = x * BitVec.ofNat 32 (2 ^ k) := by
  apply BitVec.eq_of_toNat_eq
  rw [BitVec.toNat_shiftLeft, BitVec.toNat_mul, BitVec.toNat_ofNat, Nat.shiftLeft_eq,
    Nat.mul_mod_mod]

/-! ## Quotients and remainders -/

/-- **A remainder from the quotient.** -/
theorem Word.rem_eq {c : Word} (hc : c ≠ 0#32) (x : Word) :
    Word.rem x c = x - Word.div x c * c := by
  have htmod : x.srem c = BitVec.ofInt 32 (x.toInt.tmod c.toInt) := by
    rw [← BitVec.toInt_srem, BitVec.ofInt_toInt]
  have hsub : x.toInt.tmod c.toInt = x.toInt + -(x.toInt.tdiv c.toInt * c.toInt) := by
    have := Int.mul_tdiv_add_tmod x.toInt c.toInt
    rw [Int.mul_comm] at this
    omega
  unfold Word.rem Word.div
  rw [if_neg hc, if_neg hc, htmod, hsub, BitVec.ofInt_add, BitVec.ofInt_neg, BitVec.ofInt_mul,
    BitVec.ofInt_toInt, BitVec.ofInt_toInt, ← sdiv_eq_ofInt, BitVec.sub_eq_add_neg]

/-- What a dividend is raised by, so that a shift rounds towards zero. -/
def pow2Bias (x : Word) (k : Nat) : Word := if x.slt 0 then BitVec.ofNat 32 (2 ^ k - 1) else 0

/-- The quotient by a power of two. -/
def pow2Quot (x : Word) (k : Nat) : Word := (x + pow2Bias x k).sshiftRight k

theorem pow2Bias_one (x : Word) : x >>> 31 = pow2Bias x 1 := by
  have hx := x.isLt
  have hint := BitVec.toInt_eq_toNat_cond x
  unfold pow2Bias
  rw [show x.slt 0 = decide (x.toInt < 0) by simp [BitVec.slt]]
  apply BitVec.eq_of_toNat_eq
  rw [BitVec.toNat_ushiftRight, Nat.shiftRight_eq_div_pow]
  simp only [decide_eq_true_iff]
  split
  · show _ = 1
    split at hint <;> omega
  · show _ = 0
    split at hint <;> omega

theorem pow2Bias_eq (x : Word) {k : Nat} (hk : k ≤ 31) :
    x.sshiftRight 31 >>> (32 - k) = pow2Bias x k := by
  have hx := toInt_bounds x
  have hsign : x.sshiftRight 31 = if x.slt 0 then BitVec.allOnes 32 else 0#32 := by
    rw [show x.slt 0 = decide (x.toInt < 0) by simp [BitVec.slt]]
    apply BitVec.eq_of_toInt_eq
    rw [BitVec.toInt_sshiftRight, Int.shiftRight_eq_div_pow]
    simp only [decide_eq_true_iff]
    split
    · show _ = -1
      omega
    · show _ = 0
      omega
  rw [hsign]
  unfold pow2Bias
  split
  · apply BitVec.eq_of_toNat_eq
    have hpow : 2 ^ 32 = 2 ^ (32 - k) * 2 ^ k := by
      rw [← Nat.pow_add]
      congr 1
      omega
    have hlt : 2 ^ k ≤ 2 ^ 31 := Nat.pow_le_pow_right (by decide) hk
    have hpos := Nat.two_pow_pos (32 - k)
    have hkpos := Nat.two_pow_pos k
    rw [BitVec.toNat_ushiftRight, Nat.shiftRight_eq_div_pow, BitVec.toNat_allOnes,
      BitVec.toNat_ofNat, Nat.mod_eq_of_lt (by omega), hpow]
    refine Nat.div_eq_of_lt_le ?_ ?_
    · have : (2 ^ k - 1) * 2 ^ (32 - k) + 2 ^ (32 - k) = 2 ^ (32 - k) * 2 ^ k := by
        rw [← Nat.succ_mul, Nat.mul_comm]
        congr 1
        omega
      omega
    · have : (2 ^ k - 1 + 1) * 2 ^ (32 - k) = 2 ^ (32 - k) * 2 ^ k := by
        rw [Nat.sub_add_cancel hkpos, Nat.mul_comm]
      have hprod := Nat.mul_pos hpos hkpos
      omega
  · simp

/-- **The raised dividend, shifted, is the quotient.** -/
theorem pow2Quot_eq (x : Word) {k : Nat} (hk : k ≤ 31) :
    pow2Quot x k = BitVec.ofInt 32 (x.toInt.tdiv (2 ^ k)) := by
  have hx := toInt_bounds x
  have hP : (0 : Int) < 2 ^ k := by positivity
  have hpow : (2 : Int) ^ k ≤ 2 ^ 31 := by
    have : 2 ^ k ≤ 2 ^ 31 := Nat.pow_le_pow_right (by decide) hk
    exact_mod_cast this
  have hshift : ∀ {w : Word} {z : Int}, w.toInt = z →
      w.sshiftRight k = BitVec.ofInt 32 (z / 2 ^ k) := by
    rintro w _ rfl
    rw [← BitVec.ofInt_toInt (x := w.sshiftRight k), BitVec.toInt_sshiftRight,
      Int.shiftRight_eq_div_pow]
    push_cast
    rfl
  unfold pow2Quot pow2Bias
  rw [show x.slt 0 = decide (x.toInt < 0) by simp [BitVec.slt]]
  simp only [decide_eq_true_iff]
  split
  · rename_i hneg
    have hraised : (x + BitVec.ofNat 32 (2 ^ k - 1)).toInt = x.toInt + (2 ^ k - 1) := by
      have hcast : (((2 ^ k - 1 : Nat) : Int)) = 2 ^ k - 1 := by
        have := Nat.two_pow_pos k
        push_cast [Nat.cast_sub this]
        rfl
      rw [← toInt_ofInt_of_bounds (z := x.toInt + (2 ^ k - 1)) (by omega) (by omega),
        BitVec.ofInt_add, BitVec.ofInt_toInt, ← hcast, BitVec.ofInt_natCast]
    have htdiv : x.toInt.tdiv (2 ^ k) = -(-x.toInt / 2 ^ k) := by
      rw [← Int.tdiv_eq_ediv_of_nonneg (by omega), Int.neg_tdiv, Int.neg_neg]
    rw [hshift hraised, htdiv, neg_ediv_eq _ hP, Int.neg_neg]
  · rename_i hpos
    rw [show x + 0 = x from BitVec.add_zero x, hshift rfl,
      Int.tdiv_eq_ediv_of_nonneg (by omega)]

/-- With the sign of the constant it is the quotient by the constant. -/
theorem div_pow2 {c : Word} {k : Nat} (hc : absConst c = 2 ^ k) (hk : k ≤ 31) (x : Word) :
    (if c.slt 0 then -pow2Quot x k else pow2Quot x k) = Word.div x c := by
  have hne : c ≠ 0#32 := by
    rintro rfl
    have := Nat.two_pow_pos k
    rw [← hc] at this
    exact absurd this (by decide)
  have habs : (absConst c : Int) = 2 ^ k := by rw [hc]; push_cast; rfl
  unfold absConst at habs
  unfold Word.div
  rw [if_neg hne, sdiv_eq_ofInt, pow2Quot_eq x hk]
  by_cases hneg : c.slt 0 = true
  · have hd := slt_zero_iff.mp hneg
    rw [if_pos hneg, ← BitVec.ofInt_neg, ← Int.tdiv_neg]
    congr 2
    omega
  · have hd := slt_zero_iff.not.mp hneg
    rw [if_neg hneg]
    congr 2
    omega

theorem rem_pow2 {c : Word} {k : Nat} (hc : absConst c = 2 ^ k) (hk : k ≤ 31) (x : Word) :
    x - pow2Quot x k <<< k = Word.rem x c := by
  have hne : c ≠ 0#32 := by
    rintro rfl
    have := Nat.two_pow_pos k
    rw [← hc] at this
    exact absurd this (by decide)
  rw [Word.rem_eq hne, ← div_pow2 hc hk, shl_eq_mul, ← hc]
  have hce := const_eq c
  congr 1
  by_cases hneg : c.slt 0 = true
  · rw [if_pos hneg] at hce ⊢
    conv_rhs => rw [hce]
    exact (BitVec.neg_mul_neg ..).symm
  · rw [if_neg hneg] at hce ⊢
    conv_rhs => rw [hce]

namespace OptCodeGen

section Mul

variable {sym : String → BitVec 32} {σ : Data}

/-- Giving a result the sign of the constant. -/
theorem negIf_leaves {rd : XReg} (hrd : rd ≠ 0) {touched : List XReg} (hmem : rd ∈ touched)
    (c : Word) :
    Leaves sym (negIf c rd) σ rd (if c.slt 0 then -σ.get rd else σ.get rd) touched := by
  unfold negIf
  split
  · refine .single ?_ hrd hmem
    show Outcome.ok (σ.set rd (AluOp.sub.eval 0#32 (σ.get rd))) = _
    rw [eval_neg]
  · exact .nil rfl

/-- Code that multiplies by the absolute value, and the sign. -/
theorem mul_sign (x c : Word) {v : Word} (h : v = x * BitVec.ofNat 32 (absConst c)) :
    (if c.slt 0 then -v else v) = x * c := by
  conv_rhs => rw [const_eq c]
  rw [h]
  split
  · exact (BitVec.mul_neg ..).symm
  · rfl

/-- **The product by a constant.** -/
theorem emitMulConst_leaves {rd ra : XReg} (hrd : rd ≠ 0)
    (hra : ra ≠ scratch1) (c : Word) :
    Leaves sym (emitMulConst rd ra c) σ rd (σ.get ra * c) [rd, scratch1] := by
  have hs : scratch1 ≠ 0 := by decide
  unfold emitMulConst
  dsimp only
  by_cases h0 : c = 0
  · rw [if_pos h0, h0]
    exact .single (by simp [Instr.exec]) hrd (by simp)
  rw [if_neg h0]
  by_cases h1 : c = 1
  · rw [if_pos h1, h1]
    split
    · refine .single ?_ hrd (by simp)
      rw [exec_alui rfl, eval_mv]
      simp
    · rename_i heq
      rw [not_not.mp heq]
      exact .nil (by simp)
  rw [if_neg h1]
  by_cases hm1 : c = -1
  · rw [if_pos hm1, hm1]
    refine .single ?_ hrd (by simp)
    show Outcome.ok (σ.set rd (AluOp.sub.eval 0#32 (σ.get ra))) = _
    rw [eval_neg, BitVec.mul_neg, show σ.get ra * 1 = σ.get ra from BitVec.mul_one _]
  rw [if_neg hm1]
  have habs := absConst_le c
  cases hk : log2pos (absConst c) with
  | some k =>
    obtain ⟨hk, -⟩ := log2pos_eq_some.mp hk
    refine .cons (σ.get ra <<< k) (exec_shift (pow_lt_32 hk (by omega)) σ) hrd (by simp)
      fun σ₁ _ hv _ => (negIf_leaves hrd (by simp) c).of_eq ?_
    rw [hv]
    exact mul_sign _ _ (by rw [shl_eq_mul, hk])
  | none =>
  -- The operand is read once more, after the shifted one is in `t6`.
  have hsecond : ∀ {op : AluOp} {k : Nat}, k < 32 →
      op.eval (σ.get ra <<< k) (σ.get ra) = σ.get ra * BitVec.ofNat 32 (absConst c) →
      Leaves sym ([.shift .slli scratch1 ra k, .alu op rd scratch1 ra] ++ negIf c rd) σ rd
        (σ.get ra * c) [rd, scratch1] := by
    intro op k hk hval
    refine .cons (σ.get ra <<< k) (exec_shift hk σ) hs (by simp) fun σ₁ _ hv hkeep => ?_
    have hra₁ : σ₁.get ra = σ.get ra := hkeep ra (by simpa using hra)
    refine .cons (op.eval (σ₁.get scratch1) (σ₁.get ra)) rfl hrd (by simp)
      fun σ₂ _ hv₂ _ => (negIf_leaves hrd (by simp) c).of_eq ?_
    rw [hv₂, hv, hra₁]
    exact mul_sign _ _ hval
  cases hkp : log2pos (absConst c - 1) with
  | some kp =>
    obtain ⟨hkp, -⟩ := log2pos_eq_some.mp hkp
    have hone : absConst c = 2 ^ kp + 1 := by
      have := Nat.two_pow_pos kp
      omega
    refine hsecond (pow_lt_32 hkp (by omega)) ?_
    show σ.get ra <<< kp + σ.get ra = _
    rw [shl_eq_mul, hone, BitVec.ofNat_add, BitVec.mul_add]
    simp
  | none =>
  cases hkm : log2pos (absConst c + 1) with
  | some km =>
    obtain ⟨hkm, -⟩ := log2pos_eq_some.mp hkm
    refine hsecond (pow_lt_32 hkm (by omega)) ?_
    show σ.get ra <<< km - σ.get ra = _
    rw [shl_eq_mul, ← hkm, BitVec.ofNat_add, BitVec.mul_add,
      show σ.get ra * BitVec.ofNat 32 1 = σ.get ra from BitVec.mul_one _, BitVec.add_sub_cancel]
  | none =>
    refine .cons c rfl hs (by simp) fun σ₁ _ hv hkeep => ?_
    refine .single ?_ hrd (by simp)
    show Outcome.ok (σ₁.set rd (σ₁.get ra * σ₁.get scratch1)) = _
    rw [hv, hkeep ra (by simpa using hra)]

end Mul

section Div

variable {sym : String → BitVec 32} {fr : Frame} {A : Allocation} {σ : Data}

/-- The registers the code of a division may change, beside the one of its result. -/
def divTemps : List XReg := [scratch1, XReg.a6, XReg.a7]

theorem emitPow2Bias_leaves {ra : XReg} {k : Nat} (hk1 : 1 ≤ k) (hk : k ≤ 31) :
    Leaves sym (emitPow2Bias scratch1 ra k) σ scratch1 (pow2Bias (σ.get ra) k) [scratch1] := by
  have hs : scratch1 ≠ 0 := by decide
  unfold emitPow2Bias
  split
  · rename_i h1
    rw [h1, ← pow2Bias_one]
    exact .single (exec_shift (by decide) σ) hs (by simp)
  · refine .cons ((σ.get ra).sshiftRight 31) (exec_shift (by decide) σ) hs (by simp)
      fun σ₁ _ hv _ => ?_
    refine (Leaves.single (exec_shift (by omega) σ₁) hs (by simp)).of_eq ?_
    rw [hv]
    exact pow2Bias_eq _ hk

/-- The raised dividend in `t6`, shifted. -/
theorem pow2Quot_leaves {rd ra : XReg} {k : Nat} (hk1 : 1 ≤ k) (hk : k ≤ 31) (hrd : rd ≠ 0)
    (hra : ra ≠ scratch1) :
    Leaves sym (emitPow2Bias scratch1 ra k ++ [.add scratch1 ra scratch1, .shift .srai rd scratch1 k])
      σ rd (pow2Quot (σ.get ra) k) [rd, scratch1] := by
  have hbias : Leaves sym (emitPow2Bias scratch1 ra k) σ scratch1 (pow2Bias (σ.get ra) k)
      [scratch1] := emitPow2Bias_leaves hk1 hk
  refine Does.append hbias fun σ₁ ⟨hmem, hv, hkeep⟩ => ?_
  have hra₁ : σ₁.get ra = σ.get ra := hkeep ra (by simpa using hra)
  have hrest : Leaves sym [.add scratch1 ra scratch1, .shift .srai rd scratch1 k] σ₁ rd
      (pow2Quot (σ.get ra) k) [rd, scratch1] := by
    refine .cons (r := scratch1) (σ.get ra + pow2Bias (σ.get ra) k) ?_ (by decide) (by simp)
      fun σ₂ _ hv₂ _ => ?_
    · show Outcome.ok (σ₁.set scratch1 (σ₁.get ra + σ₁.get scratch1)) = _
      rw [hv, hra₁]
    · refine (Leaves.single (exec_shift (by omega) σ₂) hrd (by simp)).of_eq ?_
      rw [hv₂]
      rfl
  exact Does.mono hrest fun σ₂ ⟨hmem₂, hw, hkeep₂⟩ =>
    ⟨hmem₂.trans hmem, hw, (hkeep.mono (by simp)).trans hkeep₂⟩

/-- **A magic number at hand**: it is not hoisted, or its vreg holds it. -/
def MagicHeld (fr : Frame) (A : Allocation) (σ : Data) (magicVreg : Option Nat) (c : Word) :
    Prop :=
  ∀ v, magicVreg = some v →
    A.Locates v ∧ SlotsAligned fr σ ∧ locs fr A σ v = (signedMagic c).1

/-- A number that is not hoisted, or is in its vreg, in some register. -/
theorem magicReg_leaves_of {magicVreg : Option Nat} {w : Word}
    (h : ∀ v, magicVreg = some v → A.Locates v ∧ SlotsAligned fr σ ∧ locs fr A σ v = w) :
    Leaves sym (magicReg fr A magicVreg w).1 σ (magicReg fr A magicVreg w).2 w
      [scratch1, XReg.a7] := by
  cases magicVreg with
  | none =>
    show Leaves sym [.li scratch1 _] σ scratch1 _ _
    exact .single rfl (by decide) (by simp)
  | some v =>
    obtain ⟨-, hal, hv⟩ := h v rfl
    show Leaves sym (toReg fr A (.reg v) XReg.a7).1 σ _ _ _
    rw [← hv]
    exact (toReg_leaves (v := .reg v) hal (by decide)).mono (by decide)

/-- The magic number in some register. -/
theorem magicReg_leaves {magicVreg : Option Nat} {c : Word} (h : MagicHeld fr A σ magicVreg c) :
    Leaves sym (magicReg fr A magicVreg (signedMagic c).1).1 σ
      (magicReg fr A magicVreg (signedMagic c).1).2 (signedMagic c).1 [scratch1, XReg.a7] :=
  magicReg_leaves_of h

/-- **The quotient by a magic number.** -/
theorem emitMagicQuotient_leaves {magicVreg : Option Nat} {q ra : XReg} {c : Word}
    (hc : NeedsMagic c) (hmagic : MagicHeld fr A σ magicVreg c) (hq : q ≠ 0)
    (hra6 : ra ≠ scratch1) (hra7 : ra ≠ XReg.a7) :
    Leaves sym (emitMagicQuotient fr A magicVreg false q ra c) σ q (Word.div (σ.get ra) c)
      [q, scratch1, XReg.a7] := by
  have hne : c ≠ 0#32 := by
    rintro rfl
    exact absurd hc.three_le (by decide)
  have hdiv : Word.div (σ.get ra) c = magicQuotient c (σ.get ra) := by
    unfold Word.div
    rw [if_neg hne, magicQuotient_eq hc]
  have hshift := hc.shift_le
  have ha7 : XReg.a7 ≠ 0 := by decide
  rw [hdiv]
  unfold emitMagicQuotient magicQuotient
  simp only [Bool.false_eq_true, if_false, List.append_assoc]
  generalize hM : signedMagic c = magic at *
  obtain ⟨M, s⟩ := magic
  have hload := @magicReg_leaves sym _ _ _ _ _ hmagic
  rw [hM] at hload
  dsimp only at hload hshift ⊢
  refine Does.append hload fun σ₁ h₁ => ?_
  obtain ⟨hmem₁, hv₁, hk₁⟩ := h₁
  have hx₁ : σ₁.get ra = σ.get ra := hk₁ ra (by simp [hra6, hra7])
  set x := σ.get ra with hx
  have hprod : Leaves sym [.alu .mulh XReg.a7 ra (magicReg fr A magicVreg M).2] σ₁ XReg.a7
      (AluOp.mulh.eval x M) [XReg.a7] :=
    .single (by simp only [Instr.exec, hx₁, hv₁]) ha7 (by simp)
  refine Does.append hprod fun σ₂ h₂ => ?_
  obtain ⟨hmem₂, hv₂, hk₂⟩ := h₂
  have hx₂ : σ₂.get ra = x := (hk₂ ra (by simpa using hra7)).trans hx₁
  have hcorr : Leaves sym
      (if BitVec.slt 0 c && M.slt 0 then [.add XReg.a7 XReg.a7 ra]
        else if c.slt 0 && BitVec.slt 0 M then [.sub XReg.a7 XReg.a7 ra] else []) σ₂ XReg.a7
      (if BitVec.slt 0 c && M.slt 0 then AluOp.mulh.eval x M + x
        else if c.slt 0 && BitVec.slt 0 M then AluOp.mulh.eval x M - x
        else AluOp.mulh.eval x M) [XReg.a7] := by
    split
    · exact .single (by rw [← hv₂, ← hx₂]; rfl) ha7 (by simp)
    · split
      · exact .single (by rw [← hv₂, ← hx₂]; rfl) ha7 (by simp)
      · exact .nil hv₂
  refine Does.append hcorr fun σ₃ h₃ => ?_
  obtain ⟨hmem₃, hv₃, hk₃⟩ := h₃
  set w := if BitVec.slt 0 c && M.slt 0 then AluOp.mulh.eval x M + x
    else if c.slt 0 && BitVec.slt 0 M then AluOp.mulh.eval x M - x
    else AluOp.mulh.eval x M with hw
  have hsh : Leaves sym (if 0 < s then [.shift .srai XReg.a7 XReg.a7 s] else []) σ₃ XReg.a7
      (w.sshiftRight s) [XReg.a7] := by
    split
    · exact .single (by rw [exec_shift (by omega), hv₃]; rfl) ha7 (by simp)
    · rename_i hs
      obtain rfl : s = 0 := by omega
      exact .nil (by rw [hv₃, BitVec.sshiftRight_zero])
  refine Does.append hsh fun σ₄ h₄ => ?_
  obtain ⟨hmem₄, hv₄, hk₄⟩ := h₄
  have hlast : Leaves sym [.shift .srli scratch1 XReg.a7 31, .add q XReg.a7 scratch1] σ₄ q
      (w.sshiftRight s + w.sshiftRight s >>> 31) [q, scratch1, XReg.a7] := by
    refine .cons (r := scratch1) (w.sshiftRight s >>> 31) ?_ (by decide) (by simp)
      fun σ₅ _ hv₅ hk₅ => ?_
    · rw [exec_shift (by decide), hv₄]
      rfl
    · refine .single ?_ hq (by simp)
      show Outcome.ok (σ₅.set q (σ₅.get XReg.a7 + σ₅.get scratch1)) = _
      rw [hv₅, hk₅ XReg.a7 (by decide), hv₄]
  refine Does.mono hlast fun σ₅ h₅ => ?_
  obtain ⟨hmem₅, hv₅, hk₅⟩ := h₅
  refine ⟨by rw [hmem₅, hmem₄, hmem₃, hmem₂, hmem₁], hv₅, ?_⟩
  exact (hk₁.mono (by simp)).trans ((hk₂.mono (by simp)).trans ((hk₃.mono (by simp)).trans
    ((hk₄.mono (by simp)).trans hk₅)))

/-- **The quotient by a constant.** -/
theorem emitDivConst_leaves {magicVreg : Option Nat} {rd ra : XReg} {c : Word} (hc : c ≠ 0)
    (hmagic : MagicHeld fr A σ magicVreg c) (hrd : rd ≠ 0) (hra6 : ra ≠ scratch1)
    (hra7 : ra ≠ XReg.a7) :
    Leaves sym (emitDivConst fr A magicVreg false rd ra c) σ rd (Word.div (σ.get ra) c)
      [rd, scratch1, XReg.a7] := by
  have habs := absConst_le c
  unfold emitDivConst
  dsimp only
  by_cases h1 : c = 1
  · have hval := div_pow2 (c := c) (k := 0) (by rw [h1]; rfl) (by decide) (σ.get ra)
    have hx : Word.div (σ.get ra) c = σ.get ra := by
      rw [← hval, h1, pow2Quot_eq _ (by decide)]
      simp
    rw [if_pos h1, hx]
    split
    · refine .single ?_ hrd (by simp)
      rw [exec_alui rfl, eval_mv]
    · rename_i heq
      rw [not_not.mp heq]
      exact .nil rfl
  rw [if_neg h1]
  by_cases hm1 : c = -1
  · have hval := div_pow2 (c := c) (k := 0) (by rw [hm1]; rfl) (by decide) (σ.get ra)
    have hx : Word.div (σ.get ra) c = -σ.get ra := by
      rw [← hval, hm1, pow2Quot_eq _ (by decide)]
      simp
    rw [if_pos hm1, hx]
    refine .single ?_ hrd (by simp)
    show Outcome.ok (σ.set rd (AluOp.sub.eval 0#32 (σ.get ra))) = _
    rw [eval_neg]
  rw [if_neg hm1]
  cases hlog : log2pos (absConst c) with
  | some k =>
    obtain ⟨hk, hk1⟩ := log2pos_eq_some.mp hlog
    have hk31 : k ≤ 31 := by
      have := pow_lt_32 hk (by omega)
      omega
    refine Leaves.append (v := pow2Quot (σ.get ra) k)
      ((pow2Quot_leaves hk1 hk31 hrd hra6).mono (by simp)) fun σ₁ _ hv _ => ?_
    refine (negIf_leaves hrd (by simp) c).of_eq ?_
    rw [hv, div_pow2 hk hk31]
  | none =>
    have hneeds := needsMagic_of hc
      (fun h => (absConst_eq_one h).elim h1 hm1) hlog
    simp only [if_pos hc]
    exact emitMagicQuotient_leaves hneeds hmagic hrd hra6 hra7

/-- **The remainder by a constant.** -/
theorem emitModConst_leaves {magicVreg : Option Nat} {rd ra : XReg} {c : Word} (hc : c ≠ 0)
    (hmagic : MagicHeld fr A σ magicVreg c) (hrd : rd ≠ 0) (hra6 : ra ≠ scratch1)
    (hra6' : ra ≠ XReg.a6) (hra7 : ra ≠ XReg.a7) :
    Leaves sym (emitModConst fr A magicVreg false rd ra c) σ rd (Word.rem (σ.get ra) c)
      (rd :: divTemps) := by
  have habs := absConst_le c
  unfold emitModConst divTemps
  dsimp only
  by_cases h1 : absConst c = 1
  · have hx : Word.rem (σ.get ra) c = 0 := by
      rw [← rem_pow2 (k := 0) h1 (by decide), pow2Quot_eq _ (by decide)]
      simp
    rw [if_pos h1, hx]
    exact .single rfl hrd (by simp)
  rw [if_neg h1]
  cases hlog : log2pos (absConst c) with
  | some k =>
    obtain ⟨hk, hk1⟩ := log2pos_eq_some.mp hlog
    have hk31 : k ≤ 31 := by
      have := pow_lt_32 hk (by omega)
      omega
    have hquot : Leaves sym (emitPow2Bias scratch1 ra k ++
        [.add scratch1 ra scratch1, .shift .srai scratch1 scratch1 k]) σ scratch1
        (pow2Quot (σ.get ra) k) [scratch1, scratch1] := pow2Quot_leaves hk1 hk31 (by decide) hra6
    have hrest : ∀ σ₁ : Data, σ₁.get scratch1 = pow2Quot (σ.get ra) k → σ₁.get ra = σ.get ra →
        Leaves sym [.shift .slli scratch1 scratch1 k, .sub rd ra scratch1] σ₁ rd
          (Word.rem (σ.get ra) c) [rd, scratch1, XReg.a6, XReg.a7] := by
      intro σ₁ hv hra₁
      refine .cons (r := scratch1) (pow2Quot (σ.get ra) k <<< k) ?_ (by decide) (by simp)
        fun σ₂ _ hv₂ hk₂ => ?_
      · rw [exec_shift (by omega), hv]
        rfl
      · refine .single ?_ hrd (by simp)
        show Outcome.ok (σ₂.set rd (σ₂.get ra - σ₂.get scratch1)) = _
        rw [hv₂, hk₂ ra (by simpa using hra6), hra₁, rem_pow2 hk hk31]
    have hcode : emitPow2Bias scratch1 ra k ++ [.add scratch1 ra scratch1,
          .shift .srai scratch1 scratch1 k, .shift .slli scratch1 scratch1 k,
          .sub rd ra scratch1] =
        (emitPow2Bias scratch1 ra k ++ [.add scratch1 ra scratch1,
          .shift .srai scratch1 scratch1 k]) ++
          [.shift .slli scratch1 scratch1 k, .sub rd ra scratch1] := by
      simp
    dsimp only
    rw [hcode]
    refine Does.append hquot fun σ₁ ⟨hmem, hv, hkeep⟩ => ?_
    exact Does.mono (hrest σ₁ hv (hkeep ra (by simpa using hra6))) fun σ₂ ⟨hmem₂, hw, hkeep₂⟩ =>
      ⟨hmem₂.trans hmem, hw, (hkeep.mono (by simp)).trans hkeep₂⟩
  | none =>
    have hneeds := needsMagic_of hc h1 hlog
    simp only [Bool.false_eq_true, if_false, List.append_assoc]
    -- The quotient in `a6`, its product in `a7`, and the difference.
    refine Does.append (emitMagicQuotient_leaves hneeds hmagic (by decide) hra6 hra7)
      fun σ₁ ⟨hmem₁, hv₁, hk₁⟩ => ?_
    have hra₁ : σ₁.get ra = σ.get ra := hk₁ ra (by simp [hra6, hra6', hra7])
    refine Does.append (emitMulConst_leaves (by decide) (by decide) c)
      fun σ₂ ⟨hmem₂, hv₂, hk₂⟩ => ?_
    have hra₂ : σ₂.get ra = σ.get ra := (hk₂ ra (by simp [hra6, hra7])).trans hra₁
    have hlast : Leaves sym [.sub rd ra XReg.a7] σ₂ rd (Word.rem (σ.get ra) c) [rd] := by
      refine .single ?_ hrd (by simp)
      show Outcome.ok (σ₂.set rd (σ₂.get ra - σ₂.get XReg.a7)) = _
      rw [hv₂, hv₁, hra₂, Word.rem_eq hc]
    exact Does.mono hlast fun σ₃ ⟨hmem₃, hv₃, hk₃⟩ => ⟨by rw [hmem₃, hmem₂, hmem₁], hv₃,
      (hk₁.mono (by simp)).trans ((hk₂.mono (by simp)).trans (hk₃.mono (by simp)))⟩

/-- **Division and remainder by a constant are lowered correctly.** The result's register may
be the dividend's or that of the magic number. -/
theorem constDivision_correct (F : IRFunc) {magicVreg : Option Nat} {rd ra : XReg} {c : Word}
    (hc : c ≠ 0) (hrd : rd ∈ allocatable ∨ rd = scratch0 ∨ rd = XReg.a0)
    (hra : ra ∈ allocatable ∨ ra = scratch0)
    (hmagic : MagicHeld (frameOf A F) A σ magicVreg c) :
    Leaves sym (emitDivConst (frameOf A F) A magicVreg false rd ra c) σ rd
        (AluOp.div.eval (σ.get ra) c) (rd :: divTemps) ∧
      Leaves sym (emitModConst (frameOf A F) A magicVreg false rd ra c) σ rd
        (AluOp.rem.eval (σ.get ra) c) (rd :: divTemps) := by
  have hrd0 : rd ≠ 0 := by
    rcases hrd with hrd | rfl | rfl
    · exact allocatable_ne hrd (by decide)
    · decide
    · decide
  have hra' : ∀ y ∈ divTemps, ra ≠ y := by
    rcases hra with hra | rfl
    · have hnot : ∀ y ∈ divTemps, y ∉ allocatable := by decide
      exact fun y hy => allocatable_ne hra (hnot y hy)
    · decide
  constructor
  · exact (emitDivConst_leaves hc hmagic hrd0 (hra' _ (by decide)) (hra' _ (by decide))).mono
      (by simp [divTemps])
  · exact emitModConst_leaves hc hmagic hrd0 (hra' _ (by decide)) (hra' _ (by decide))
      (hra' _ (by decide))

/-- Twenty in `t1` divided by seven, whose magic number was hoisted to a vreg in `t0`, the
register of the result. -/
theorem constDivision_correct_hoisted :
    Leaves (fun _ => 0)
      (emitDivConst (frameOf { reg := fun _ => some 5 } {}) { reg := fun _ => some 5 } (some 0)
        false 5 6 7)
      (Data.set ⟨fun _ => 20, fun _ => 0⟩ 5 (signedMagic 7).1) 5 (AluOp.div.eval 20 7)
      (5 :: divTemps) := by
  refine (constDivision_correct (σ := Data.set ⟨fun _ => 20, fun _ => 0⟩ 5 (signedMagic 7).1)
    (A := { reg := fun _ => some 5 }) {} (by decide)
    (.inl (by decide)) (.inl (by decide)) ?_).1
  rintro v ⟨⟩
  exact ⟨.inl ⟨5, by decide, rfl⟩, ⟨by decide, by decide⟩, rfl⟩

end Div

end OptCodeGen

end ToyC
