import ToyC.ConstOps
import ToyC.MagicHints
import ToyC.OptSteps

/-!
# Divisions by constants where they are executed

The generator trusts what the optimizer noted at a division by a constant: the vreg that is to
hold the magic number, and the mark that both operands are non-negative. Where these are right, the
code leaves the quotient or the remainder, whichever of the two sequences it takes
(`Holds.division`). The unsigned sequence takes a multiplication less, and is exact for some
dividends only, so the mark alone is not enough for it.
-/

namespace ToyC

open Rv32

/-- **A division by a constant in order**, with the vregs as they are when it is executed: the
divisor is not zero, the vreg of the hint holds the magic number, and the unsigned sequence is exact
for the dividend, where it is taken. -/
def Inst.DivisionOk (inst : Inst) (R : Regs) : Prop :=
  inst.isDivision → ∀ c, inst.b = .imm c → c ≠ 0 ∧
    (∀ v, inst.magicVreg = some v → R v = magicNumber c inst.unsignedDiv) ∧
    (inst.unsignedDiv = true → NeedsMagic c → UnsignedMagicExact c (inst.a.eval R))

/-- A divisor that needs a magic number is none of the least two. -/
theorem NeedsMagic.two_le {c : Word} (h : NeedsMagic c) : 2 ≤ c.toNat := by
  by_contra hlt
  have hc : c.toNat = (0 : Word).toNat ∨ c.toNat = (1 : Word).toNat := by
    show c.toNat = 0 ∨ c.toNat = 1
    omega
  rcases hc with hc | hc
  · obtain rfl := BitVec.eq_of_toNat_eq hc
    exact absurd h.three_le (by decide)
  · obtain rfl := BitVec.eq_of_toNat_eq hc
    exact absurd h.three_le (by decide)

/-- The unsigned sequence of such a divisor shifts by nothing. -/
theorem NeedsMagic.unsigned {c : Word} (h : NeedsMagic c) :
    unsignedMagic c = ((unsignedMagic c).1, 0) := by
  rw [unsignedMagic_eq h.two_le]

namespace OptCodeGen

section Unsigned

variable {sym : String → BitVec 32} {fr : Frame} {A : Allocation} {σ : Data}
  {magicVreg : Option Nat} {rd ra : XReg} {c : Word}

/-- **The high half of the product** is the quotient, where the sequence is exact. -/
theorem mulhu_leaves (hc : NeedsMagic c) (hexact : UnsignedMagicExact c (σ.get ra))
    (hmagic : ∀ v, magicVreg = some v →
      A.Locates v ∧ SlotsAligned fr σ ∧ locs fr A σ v = (unsignedMagic c).1)
    (hra6 : ra ≠ scratch1) (hra7 : ra ≠ XReg.a7) :
    Leaves sym ((magicReg fr A magicVreg (unsignedMagic c).1).1 ++
        [.alu .mulhu XReg.a7 ra (magicReg fr A magicVreg (unsignedMagic c).1).2]) σ XReg.a7
      (Word.div (σ.get ra) c) [scratch1, XReg.a7] := by
  refine Leaves.append (magicReg_leaves_of hmagic) fun σ₁ _ hv hk => ?_
  have hra : σ₁.get ra = σ.get ra := hk ra (by simp [hra6, hra7])
  refine .single ?_ (by decide) (by simp)
  have hdiv := hexact.div
  rw [congrArg Prod.snd hc.unsigned, BitVec.ushiftRight_zero] at hdiv
  simp only [Instr.exec, hra, hv, hdiv]

/-- **The quotient**, by the unsigned sequence. -/
theorem emitMagicQuotient_unsigned (hc : NeedsMagic c) (hexact : UnsignedMagicExact c (σ.get ra))
    (hmagic : ∀ v, magicVreg = some v →
      A.Locates v ∧ SlotsAligned fr σ ∧ locs fr A σ v = (unsignedMagic c).1)
    (hrd : rd ≠ 0) (hra6 : ra ≠ scratch1) (hra7 : ra ≠ XReg.a7) :
    Leaves sym (emitMagicQuotient fr A magicVreg true rd ra c) σ rd (Word.div (σ.get ra) c)
      [rd, scratch1, XReg.a7] := by
  have hcode : emitMagicQuotient fr A magicVreg true rd ra c =
      (magicReg fr A magicVreg (unsignedMagic c).1).1 ++
        [.alu .mulhu XReg.a7 ra (magicReg fr A magicVreg (unsignedMagic c).1).2] ++
        if rd ≠ XReg.a7 then [.mv rd XReg.a7] else [] := by
    unfold emitMagicQuotient
    rw [hc.unsigned]
    rfl
  rw [hcode]
  refine Leaves.append ((mulhu_leaves hc hexact hmagic hra6 hra7).mono (by simp))
    fun σ₁ _ hv _ => ?_
  split
  · refine .single ?_ hrd (by simp)
    rw [exec_alui rfl, eval_mv, hv]
  · rename_i heq
    rw [not_not.mp heq]
    exact .nil hv

/-- **The remainder**, by the unsigned sequence. -/
theorem emitModConst_unsigned (hc : NeedsMagic c) (hexact : UnsignedMagicExact c (σ.get ra))
    (hmagic : ∀ v, magicVreg = some v →
      A.Locates v ∧ SlotsAligned fr σ ∧ locs fr A σ v = (unsignedMagic c).1)
    (hrd : rd ≠ 0) (hra6 : ra ≠ scratch1) (hra7 : ra ≠ XReg.a7) :
    Leaves sym ((magicReg fr A magicVreg (unsignedMagic c).1).1 ++
        [.alu .mulhu XReg.a7 ra (magicReg fr A magicVreg (unsignedMagic c).1).2] ++
        (emitMulConst XReg.a7 XReg.a7 c ++ [.sub rd ra XReg.a7])) σ rd
      (Word.rem (σ.get ra) c) [rd, scratch1, XReg.a7] := by
  have hne : c ≠ 0 := by
    rintro rfl
    exact absurd hc.three_le (by decide)
  have hprod : Leaves sym ((magicReg fr A magicVreg (unsignedMagic c).1).1 ++
      [.alu .mulhu XReg.a7 ra (magicReg fr A magicVreg (unsignedMagic c).1).2] ++
      emitMulConst XReg.a7 XReg.a7 c) σ XReg.a7 (Word.div (σ.get ra) c * c)
      [scratch1, XReg.a7] := by
    refine Leaves.append (mulhu_leaves hc hexact hmagic hra6 hra7) fun σ₁ _ hv _ => ?_
    rw [← hv]
    exact (emitMulConst_leaves (by decide) (by decide) c).mono (by simp)
  rw [← List.append_assoc]
  refine Does.append hprod fun σ₁ ⟨hmem, hv, hk⟩ => ?_
  have hra : σ₁.get ra = σ.get ra := hk ra (by simp [hra6, hra7])
  have hlast : Leaves sym [.sub rd ra XReg.a7] σ₁ rd (Word.rem (σ.get ra) c) [rd] := by
    refine .single ?_ hrd (by simp)
    show Outcome.ok (σ₁.set rd (σ₁.get ra - σ₁.get XReg.a7)) = _
    rw [hv, hra, Word.rem_eq hne]
  exact Does.mono hlast fun σ₂ ⟨hmem₂, hw, hk₂⟩ =>
    ⟨hmem₂.trans hmem, hw, (hk.mono (by simp)).trans (hk₂.mono (by simp))⟩

end Unsigned

/-! ## Either sequence -/

section Division

variable {img : Image} {m : IRModule} {A : Allocation} {F : IRFunc} {b : BitVec 32} {blk : Nat}
  {rest : List Inst} {inst : Inst} {R : Regs} {G : Globals} {σ : Data} {rd ra : XReg} {c : Word}

/-- **Without a magic number** neither the mark nor the hint matters. -/
theorem constDivision_plain (fr : Frame) (A : Allocation) (rd ra : XReg)
    (hc : c = 1 ∨ c = -1 ∨ ∃ k, log2pos (absConst c) = some k)
    (magicVreg : Option Nat) (marked : Bool) :
    emitDivConst fr A magicVreg marked rd ra c = emitDivConst fr A none false rd ra c ∧
      emitModConst fr A magicVreg marked rd ra c = emitModConst fr A none false rd ra c := by
  unfold emitDivConst emitModConst
  rcases hc with rfl | rfl | ⟨k, hk⟩
  · exact ⟨rfl, rfl⟩
  · exact ⟨rfl, rfl⟩
  · simp only [hk, and_self]

/-- The vreg of a hint is live at the division, so its place holds what it does. -/
theorem Holds.hint (hr : Ready img m A F b) (h : Holds img m A F b ⟨blk, inst :: rest, R, G⟩ σ)
    (hdiv : inst.isDivision) {w : Word} (hw : ∀ v, inst.magicVreg = some v → R v = w) (v : Nat)
    (hv : inst.magicVreg = some v) :
    A.Locates v ∧ SlotsAligned (frameOf A F) σ ∧ locs (frameOf A F) A σ v = w := by
  have hlive : F.LiveAt blk (inst :: rest) v :=
    .read ((Inst.mem_uses_binary hdiv.isBinary).mpr (.inr (.inr hv)))
  exact ⟨hr.placed.locates (h.lt_of_live hr.fits.inRange hlive), h.aligned hr,
    (h.live v hlive).trans (hw v hv)⟩

/-- **The code of a division in order.** It leaves the quotient or the remainder. -/
theorem Holds.division (hr : Ready img m A F b)
    (h : Holds img m A F b ⟨blk, inst :: rest, R, G⟩ σ) (hok : inst.DivisionOk R)
    (hc : inst.b = .imm c) (hrd : rd ∈ scratch0 :: XReg.a0 :: allocatable) (hra : ra ∉ divTemps)
    (hval : σ.get ra = inst.a.eval R) :
    (inst.op = .Div → Leaves img.sym
      (emitDivConst (frameOf A F) A inst.magicVreg inst.unsignedDiv rd ra c) σ rd
      (Word.div (inst.a.eval R) c) (rd :: divTemps)) ∧
    (inst.op = .Mod → Leaves img.sym
      (emitModConst (frameOf A F) A inst.magicVreg inst.unsignedDiv rd ra c) σ rd
      (Word.rem (inst.a.eval R) c) (rd :: divTemps)) := by
  have hrd0 : rd ≠ 0 := by
    rintro rfl
    revert hrd
    decide
  have hra5 : ra ≠ scratch1 := fun h => hra (by simp [divTemps, h])
  have hra6 : ra ≠ XReg.a6 := fun h => hra (by simp [divTemps, h])
  have hra7 : ra ≠ XReg.a7 := fun h => hra (by simp [divTemps, h])
  have htouched : ∀ x ∈ [rd, scratch1, XReg.a7], x ∈ rd :: divTemps := by simp [divTemps]
  -- Both sequences for signed numbers, with a hint for them.
  have hsigned : ∀ {magicVreg : Option Nat}, c ≠ 0 → MagicHeld (frameOf A F) A σ magicVreg c →
      Leaves img.sym (emitDivConst (frameOf A F) A magicVreg false rd ra c) σ rd
          (Word.div (inst.a.eval R) c) (rd :: divTemps) ∧
        Leaves img.sym (emitModConst (frameOf A F) A magicVreg false rd ra c) σ rd
          (Word.rem (inst.a.eval R) c) (rd :: divTemps) := by
    intro magicVreg hne hmagic
    rw [← hval]
    exact ⟨(emitDivConst_leaves hne hmagic hrd0 hra5 hra7).mono htouched,
      emitModConst_leaves hne hmagic hrd0 hra5 hra6 hra7⟩
  suffices hboth : inst.isDivision →
      Leaves img.sym (emitDivConst (frameOf A F) A inst.magicVreg inst.unsignedDiv rd ra c) σ rd
          (Word.div (inst.a.eval R) c) (rd :: divTemps) ∧
        Leaves img.sym (emitModConst (frameOf A F) A inst.magicVreg inst.unsignedDiv rd ra c) σ rd
          (Word.rem (inst.a.eval R) c) (rd :: divTemps) from
    ⟨fun hop => (hboth (.inl hop)).1, fun hop => (hboth (.inr hop)).2⟩
  intro hdiv
  obtain ⟨hne, hhint, hexact⟩ := hok hdiv c hc
  by_cases hplain : c = 1 ∨ c = -1 ∨ ∃ k, log2pos (absConst c) = some k
  · obtain ⟨hdivCode, hmodCode⟩ := constDivision_plain (frameOf A F) A rd ra hplain
      inst.magicVreg inst.unsignedDiv
    rw [hdivCode, hmodCode]
    exact hsigned hne fun v hv => by cases hv
  obtain ⟨h1, hm1, hlog⟩ : c ≠ 1 ∧ c ≠ -1 ∧ log2pos (absConst c) = none := by
    refine ⟨fun h => hplain (.inl h), fun h => hplain (.inr (.inl h)), ?_⟩
    cases hk : log2pos (absConst c) with
    | none => rfl
    | some k => exact absurd (.inr (.inr ⟨k, hk⟩)) hplain
  have habs : absConst c ≠ 1 := fun h => (absConst_eq_one h).elim h1 hm1
  have hneeds := needsMagic_of hne habs hlog
  have hheld := h.hint hr hdiv hhint
  cases hmark : inst.unsignedDiv with
  | false =>
    rw [hmark] at hheld
    exact hsigned hne hheld
  | true =>
    rw [hmark] at hheld
    have hex := hexact hmark hneeds
    rw [← hval] at hex ⊢
    constructor
    · have hcode : emitDivConst (frameOf A F) A inst.magicVreg true rd ra c =
          emitMagicQuotient (frameOf A F) A inst.magicVreg true rd ra c := by
        unfold emitDivConst
        simp only [if_neg h1, if_neg hm1, hlog, if_pos hne]
      rw [hcode]
      exact (emitMagicQuotient_unsigned hneeds hex hheld hrd0 hra5 hra7).mono htouched
    · have hcode : emitModConst (frameOf A F) A inst.magicVreg true rd ra c =
          (magicReg (frameOf A F) A inst.magicVreg (unsignedMagic c).1).1 ++
            [.alu .mulhu XReg.a7 ra
              (magicReg (frameOf A F) A inst.magicVreg (unsignedMagic c).1).2] ++
            (emitMulConst XReg.a7 XReg.a7 c ++ [.sub rd ra XReg.a7]) := by
        unfold emitModConst
        simp only [if_neg habs, hlog, if_true]
        rw [hneeds.unsigned]
        simp
      rw [hcode]
      exact (emitModConst_unsigned hneeds hex hheld hrd0 hra5 hra7).mono htouched

end Division

end OptCodeGen

end ToyC
