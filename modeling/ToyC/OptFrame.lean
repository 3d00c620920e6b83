import ToyC.OptOperands
import ToyC.Interference

/-!
# The frame of the optimizing code generator

The four parts of a frame lie one behind the other (`frameOf_laid`): the outgoing arguments,
the spill slots, the saved registers, and the return address of a function that makes calls.
A function whose allocation says that it makes no call makes none
(`allocateRegisters_isLeaf`).
-/

namespace ToyC

open Rv32

/-! ## Leaf functions -/

namespace Interference

theorem addInterf_isLeaf (I : Interference) (a b : Nat) : (I.addInterf a b).isLeaf = I.isLeaf := by
  unfold addInterf
  split <;> rfl

theorem foldl_isLeaf {α : Type} {f : Interference → α → Interference}
    (hf : ∀ I a, (f I a).isLeaf = I.isLeaf) (as : List α) (I : Interference) :
    (as.foldl f I).isLeaf = I.isLeaf := by
  induction as generalizing I with
  | nil => rfl
  | cons a as ih => rw [List.foldl_cons, ih, hf]

theorem addDef_isLeaf (inst : Inst) (live : List Nat) (I : Interference) :
    (addDef inst live I).isLeaf = I.isLeaf := by
  unfold addDef
  split
  · rfl
  · refine foldl_isLeaf (fun I v => ?_) live I
    split
    · rfl
    · split
      · rfl
      · exact addInterf_isLeaf I _ _

theorem addMove_isLeaf (inst : Inst) (I : Interference) : (addMove inst I).isLeaf = I.isLeaf := by
  unfold addMove
  split <;> rfl

theorem addParams_isLeaf (live ps : List Nat) (I : Interference) :
    (addParams live ps I).isLeaf = I.isLeaf := by
  induction ps generalizing I with
  | nil => rfl
  | cons p ps ih =>
    unfold addParams
    rw [ih, foldl_isLeaf (fun I v => addInterf_isLeaf I p v),
      foldl_isLeaf (fun I q => addInterf_isLeaf I p q)]

/-- A walk back over an instruction notes a call. -/
theorem scanInst_isLeaf (inst : Inst) (s : List Nat × Interference) :
    (scanInst inst s).2.isLeaf = (s.2.isLeaf && inst.op != .Call) := by
  unfold scanInst addCall
  rw [addMove_isLeaf]
  split
  · rename_i hop
    simp [hop]
  · rename_i hop
    simp [hop, addDef_isLeaf]

theorem scanBlock_isLeaf (bb : BasicBlock) (liveOut : List Nat) (I : Interference) :
    (scanBlock bb liveOut I).isLeaf = (I.isLeaf && bb.insts.all (·.op != .Call)) := by
  unfold scanBlock
  generalize bb.termUses.foldl _ liveOut = live
  induction bb.insts with
  | nil => simp
  | cons inst insts ih =>
    rw [List.foldr_cons, scanInst_isLeaf, ih, List.all_cons, Bool.and_assoc,
      Bool.and_comm (insts.all _)]

end Interference

/-- **A function that is taken for a leaf makes no call.** -/
theorem allocateRegisters_isLeaf {S : Sorting} {F : IRFunc} {n : Nat} {A : Allocation}
    (h : allocateRegisters S F n = .ok A) {bb : BasicBlock} (hbb : bb ∈ F.blocks) {inst : Inst}
    (hi : inst ∈ bb.insts) (hop : inst.op = .Call) : A.isLeaf = false := by
  obtain ⟨L, -, h⟩ := Outcome.bind_eq_ok.mp h
  have hblocks : ∀ (bs : List Nat) (I : Interference), (bs.foldl
      (fun I b => Interference.scanBlock (F.blockAt b) (F.row (L.out b)) I) I).isLeaf =
        (I.isLeaf && bs.all fun b => (F.blockAt b).insts.all (·.op != .Call)) := by
    intro bs
    induction bs with
    | nil => simp
    | cons b bs ih =>
      intro I
      rw [List.foldl_cons, ih, Interference.scanBlock_isLeaf, List.all_cons, Bool.and_assoc]
  have hcolour : ∀ (I : Interference) (vs : List Nat) (A : Allocation),
      (vs.foldl I.colour A).isLeaf = A.isLeaf := by
    intro I vs
    induction vs with
    | nil => exact fun _ => rfl
    | cons v vs ih =>
      intro A
      rw [List.foldl_cons, ih]
      unfold Interference.colour
      split <;> rfl
  have hleaf : A.isLeaf = (F.interference L).isLeaf := by
    cases h
    exact hcolour _ _ _
  rw [hleaf]
  unfold IRFunc.interference
  rw [Interference.addParams_isLeaf, hblocks, Bool.and_eq_false_iff]
  refine .inr (List.all_eq_false.mpr ?_)
  obtain ⟨b, hb, rfl⟩ := IRFunc.exists_blockAt hbb
  refine ⟨b, List.mem_range.mpr hb, ?_⟩
  intro hall
  have := List.all_eq_true.mp hall inst hi
  simp [hop] at this

/-- A vreg of the function has a place. -/
theorem Allocation.Placed.locates {A : Allocation} {nv : Nat} (hA : A.Placed nv) {v : Nat}
    (hv : v < nv) : A.Locates v := by
  cases hreg : A.reg v with
  | some x => exact .inl ⟨x, (hA.reg_mem v x hreg).2, hreg⟩
  | none => exact .inr ⟨hreg, hA.placed v hv hreg⟩

/-- The registers that are saved, each once. -/
theorem Allocation.Placed.usedCallee_mem {A : Allocation} {nv : Nat} (hA : A.Placed nv) {x : XReg}
    (hx : x ∈ A.usedCallee) :
    isCalleeSaved x = true := by
  rw [hA.usedCallee] at hx
  have := (List.mem_filter.mp hx).2
  rw [Bool.and_eq_true] at this
  exact this.1

theorem Allocation.Placed.usedCallee_nodup {A : Allocation} {nv : Nat} (hA : A.Placed nv) :
    A.usedCallee.Nodup := by
  rw [hA.usedCallee]
  exact List.nodup_range.filter _

namespace OptCodeGen

/-! ## The parts of a frame -/

/-- **The parts of a frame lie one behind the other.** -/
structure Frame.Laid (fr : Frame) (A : Allocation) : Prop where
  outgoing : 4 ∣ fr.outArgArea
  spill : fr.spillBase = fr.outArgArea
  callee : fr.calleeBase = fr.spillBase + A.numSpills * 4
  ra : fr.raOff = fr.calleeBase + A.usedCallee.length * 4
  size : fr.raOff + (if A.isLeaf then 0 else 4) ≤ fr.frameSize
  dvd : 16 ∣ fr.frameSize

theorem frameOf_laid (A : Allocation) (F : IRFunc) : (frameOf A F).Laid A where
  outgoing := Nat.dvd_mul_left 4 _
  spill := rfl
  callee := rfl
  ra := rfl
  size := le_align16 _
  dvd := align16_dvd _

/-- **A frame in memory**, with so many bytes behind it. -/
structure Frame.At (fr : Frame) (b : BitVec 32) (behind : Nat) : Prop where
  aligned : Aligned b
  fits : b.toNat + fr.frameSize + behind ≤ 2 ^ 32

section Cells

variable {fr : Frame} {A : Allocation} {b : BitVec 32} {behind nv : Nat}

theorem Frame.At.toNat (hb : fr.At b behind) {off : Nat} (hoff : off < fr.frameSize + behind) :
    (cell b off).toNat = b.toNat + off := by
  have := hb.fits
  exact cell_toNat (by omega)

/-- Different words have different addresses. -/
theorem Frame.At.cell_ne (hb : fr.At b behind) {x y : Nat} (hx : x < fr.frameSize + behind)
    (hy : y < fr.frameSize + behind) (hne : x ≠ y) : cell b x ≠ cell b y := by
  intro h
  have h := congrArg BitVec.toNat h
  rw [hb.toNat hx, hb.toNat hy] at h
  omega

/-- **A spill slot lies in the part for spill slots.** -/
theorem spillOff_lt (hfr : fr.Laid A) (hA : A.Placed nv) {v : Nat} (hv : v < nv)
    (hreg : A.reg v = none) :
    4 ∣ spillOff fr A v ∧ fr.spillBase ≤ spillOff fr A v ∧
      spillOff fr A v + 4 ≤ fr.calleeBase := by
  obtain ⟨s, hs⟩ := hA.placed v hv hreg
  obtain ⟨-, hlt, -⟩ := hA.slot_mem v s hs
  have hout := hfr.outgoing
  have hspill := hfr.spill
  have hcallee := hfr.callee
  unfold spillOff
  rw [hs, Option.getD_some]
  omega

theorem Frame.Laid.calleeBase_le (hfr : fr.Laid A) : fr.calleeBase ≤ fr.frameSize := by
  have := hfr.ra
  have := hfr.size
  omega

/-- Different vregs have different slots. -/
theorem spillOff_inj (hA : A.Placed nv) {v w : Nat} (hv : v < nv) (hw : w < nv)
    (hreg : A.reg v = none) (hreg' : A.reg w = none) (h : spillOff fr A v = spillOff fr A w) :
    v = w := by
  obtain ⟨s, hs⟩ := hA.placed v hv hreg
  obtain ⟨s', hs'⟩ := hA.placed w hw hreg'
  unfold spillOff at h
  rw [hs, hs', Option.getD_some, Option.getD_some] at h
  obtain rfl : s = s' := by omega
  exact hA.slot_inj v w s hs hs'

/-- **Writing a spill slot writes its vreg alone.** -/
theorem locs_store (hfr : fr.Laid A) (hA : A.Placed nv) (hb : fr.At b behind) {σ σ' : Data}
    {d v : Nat} (hd : d < nv) (hreg : A.reg d = none) (hv : v < nv) {w : Word}
    (hmem : σ'.mem = (σ.store (cell b (spillOff fr A d)) w).mem)
    (hsp : σ.get XReg.sp = b) (hk : Keeps scratches σ σ') :
    locs fr A σ' v = if v = d then w else locs fr A σ v := by
  have hsp' : σ'.get XReg.sp = b := (hk XReg.sp (by decide)).trans hsp
  have hle := hfr.calleeBase_le
  split
  · rename_i hvd
    rw [hvd, locs_slot hreg, hmem, hsp']
    exact σ.store_mem_self _ _
  · rename_i hvd
    rcases hA.locates hv with ⟨x, hx, hregv⟩ | ⟨hregv, -⟩
    · rw [locs_reg hregv, locs_reg hregv, hk x (notMem_scratches hx)]
    · obtain ⟨-, -, hd'⟩ := spillOff_lt hfr hA hd hreg
      obtain ⟨-, -, hv'⟩ := spillOff_lt hfr hA hv hregv
      rw [locs_slot hregv, locs_slot hregv, hmem, hsp', hsp]
      refine σ.store_mem_of_ne (hb.cell_ne (by omega) (by omega) fun h => hvd ?_) w
      exact spillOff_inj hA hv hd hregv hreg h

/-- Writing the register of a vreg leaves the vregs in other places alone. -/
theorem locs_set {σ : Data} {x : XReg} (hx : x ≠ XReg.sp) {v : Nat} (hv : A.reg v ≠ some x)
    (w : Word) : locs fr A (σ.set x w) v = locs fr A σ v := by
  cases hreg : A.reg v with
  | some y =>
    rw [locs_reg hreg, locs_reg hreg]
    exact σ.get_set_of_ne (fun hyx => hv (hreg.trans (congrArg some hyx))) w
  | none =>
    rw [locs_slot hreg, locs_slot hreg, σ.set_mem, σ.get_set_of_ne hx.symm]

end Cells

/-! ## The end of a function -/

section Restore

variable {sym : String → BitVec 32} {fr : Frame} {A : Allocation} {σ : Data} {b : BitVec 32}
  {nv : Nat}

/-- **Some registers are loaded** from the words where they were saved. -/
theorem restoreRegs_does {xs : List XReg} (hxs : ∀ x ∈ xs, isCalleeSaved x = true)
    (hnodup : xs.Nodup) {off : Nat} (hoff : 4 ∣ off) (hb : Aligned b) (hsp : σ.get XReg.sp = b) :
    Does sym (restoreRegs off xs) σ fun σ' =>
      σ'.mem = σ.mem ∧ (∀ (k : Nat) x, xs[k]? = some x → σ'.get x = σ.mem (cell b (off + k * 4))) ∧
        Keeps (XReg.a7 :: xs) σ σ' := by
  have hne : ∀ {x : XReg}, isCalleeSaved x = true → x ≠ 0 ∧ x ≠ XReg.sp ∧ x ≠ XReg.a7 := by
    intro x hx
    refine ⟨?_, ?_, ?_⟩ <;> rintro rfl <;> cases hx
  induction xs generalizing off σ with
  | nil => exact .nil ⟨rfl, by simp, .refl _ _⟩
  | cons x xs ih =>
    obtain ⟨hx0, hxsp, -⟩ := hne (hxs x List.mem_cons_self)
    obtain ⟨hnot, hnodup⟩ := List.nodup_cons.mp hnodup
    refine Does.append (loadOffVia_does (by decide) (by decide) hx0 hsp (cell_aligned hb hoff))
      fun σ₁ ⟨hmem₁, hv₁, hk₁⟩ => ?_
    have hsp₁ : σ₁.get XReg.sp = b :=
      (hk₁ _ (by simpa using hxsp.symm)).trans hsp
    refine (ih (fun y hy => hxs y (List.mem_cons_of_mem _ hy)) hnodup
      (Nat.dvd_add hoff (Nat.dvd_refl 4)) hsp₁).mono fun σ₂ ⟨hmem₂, hv₂, hk₂⟩ =>
        ⟨hmem₂.trans hmem₁, fun k y hy => ?_, ?_⟩
    · cases k with
      | zero =>
        obtain rfl := Option.some.inj hy
        have hxa7 := (hne (hxs x List.mem_cons_self)).2.2
        rw [hk₂ x (by simpa using ⟨hxa7, hnot⟩), hv₁, Nat.zero_mul, Nat.add_zero]
      | succ k =>
        rw [hv₂ k y hy, hmem₁]
        congr 2
        omega
    · exact (hk₁.mono (by simp)).trans (hk₂.mono fun y hy => by
        rcases List.mem_cons.mp hy with rfl | hy
        · exact List.mem_cons_self
        · exact List.mem_cons_of_mem _ (List.mem_cons_of_mem _ hy))

/-- **The end of a function** loads what was saved and gives the frame back. -/
theorem restore_does (hfr : fr.Laid A) (hA : A.Placed nv) (hb : Aligned b)
    (hsp : σ.get XReg.sp = b) :
    Does sym (restore fr A) σ fun σ' =>
      σ'.mem = σ.mem ∧ σ'.get XReg.sp = cell b fr.frameSize ∧
        (∀ (k : Nat) x, A.usedCallee[k]? = some x →
          σ'.get x = σ.mem (cell b (fr.calleeBase + k * 4))) ∧
        (σ'.get XReg.ra = if A.isLeaf then σ.get XReg.ra else σ.mem (cell b fr.raOff)) ∧
        Keeps (XReg.a7 :: XReg.t6 :: XReg.sp :: XReg.ra :: A.usedCallee) σ σ' := by
  have hcallee : 4 ∣ fr.calleeBase := by
    have := hfr.outgoing
    have := hfr.spill
    have := hfr.callee
    omega
  have hraOff : 4 ∣ fr.raOff := by
    have := hfr.ra
    omega
  have hsaved : ∀ {x : XReg}, x ∈ A.usedCallee → x ≠ XReg.ra ∧ x ≠ XReg.sp ∧ x ≠ XReg.a7 ∧
      x ≠ XReg.t6 := by
    intro x hx
    have := hA.usedCallee_mem hx
    refine ⟨?_, ?_, ?_, ?_⟩ <;> rintro rfl <;> cases this
  have hnot : ∀ {y : XReg}, isCalleeSaved y = false → y ∉ A.usedCallee := fun hy hmem => by
    rw [hA.usedCallee_mem hmem] at hy
    cases hy
  unfold restore
  rw [List.append_assoc]
  refine Does.append (restoreRegs_does (fun x hx => hA.usedCallee_mem hx) hA.usedCallee_nodup
    hcallee hb hsp) fun σ₁ ⟨hmem₁, hv₁, hk₁⟩ => ?_
  have hsp₁ : σ₁.get XReg.sp = b := (hk₁ _ (by simpa using hnot (by decide))).trans hsp
  have hra₁ : σ₁.get XReg.ra = σ.get XReg.ra :=
    hk₁ _ (by simpa using hnot (by decide))
  -- The return address, where it was saved.
  have hreturn : Does sym (if A.isLeaf then [] else loadOff XReg.ra fr.raOff) σ₁ fun σ' =>
      σ'.mem = σ₁.mem ∧
        (σ'.get XReg.ra = if A.isLeaf then σ.get XReg.ra else σ.mem (cell b fr.raOff)) ∧
        Keeps [XReg.ra, XReg.a7] σ₁ σ' := by
    cases A.isLeaf with
    | true => exact .nil ⟨rfl, hra₁, .refl _ _⟩
    | false =>
      refine (loadOffVia_does (by decide) (by decide) (by decide) hsp₁
        (cell_aligned hb hraOff)).mono fun σ₂ ⟨hmem₂, hv₂, hk₂⟩ => ⟨hmem₂, ?_, hk₂⟩
      rw [hv₂, hmem₁]
      rfl
  refine Does.append hreturn fun σ₂ ⟨hmem₂, hra₂, hk₂⟩ => ?_
  have hsp₂ : σ₂.get XReg.sp = b := (hk₂ _ (by decide)).trans hsp₁
  have hclose : Does sym (if 0 < fr.frameSize then closeFrame fr.frameSize else []) σ₂ fun σ' =>
      σ'.mem = σ₂.mem ∧ σ'.get XReg.sp = cell b fr.frameSize ∧
        Keeps [XReg.sp, XReg.t6] σ₂ σ' := by
    split
    · exact closeFrame_does _ hsp₂
    · rename_i hpos
      refine .nil ⟨rfl, ?_, .refl _ _⟩
      rw [hsp₂, Nat.eq_zero_of_not_pos hpos]
      exact (BitVec.add_zero b).symm
  refine hclose.mono fun σ₃ ⟨hmem₃, hsp₃, hk₃⟩ => ⟨?_, hsp₃, fun k x hx => ?_, ?_, ?_⟩
  · rw [hmem₃, hmem₂, hmem₁]
  · obtain ⟨hra, hsp, ha7, ht6⟩ := hsaved (List.mem_of_getElem? hx)
    rw [hk₃ x (by simpa using ⟨hsp, ht6⟩), hk₂ x (by simpa using ⟨hra, ha7⟩), hv₁ k x hx]
  · rw [hk₃ _ (by decide), hra₂]
  · refine (hk₁.mono ?_).trans ((hk₂.mono (by simp)).trans (hk₃.mono (by simp)))
    intro y hy
    rcases List.mem_cons.mp hy with rfl | hy
    · exact List.mem_cons_self
    · simp [hy]

end Restore

end OptCodeGen

end ToyC
