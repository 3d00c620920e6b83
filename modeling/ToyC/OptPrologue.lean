import ToyC.OptFrame
import ToyC.RegAllocSound

/-!
# The parameters at the beginning of a function

The prologue opens the frame, saves registers, and moves the parameters to their places. A
store at an offset that does not fit the instruction goes through `a7` – which is where the
eighth argument is. So that argument is lost when a register is saved, or one of the first
eight parameters is spilled, at such an offset; what comes to its place instead is an address
of the frame (`prologue_does`). The other parameters are safe.
-/

namespace ToyC

open Rv32

namespace OptCodeGen

/-- **What the caller passed** as a parameter, by its number. -/
def incoming (fr : Frame) (b : BitVec 32) (σ : Data) (i : Nat) : Word :=
  if i < 8 then σ.get (XReg.a0 + i) else σ.mem (cell b (fr.frameSize + (i - 8) * 4))

/-- Where the first eight of some parameters are spilled. -/
def spillsOf (fr : Frame) (A : Allocation) (ps : List Nat) : List Nat :=
  (ps.filter fun p => (A.reg p).isNone).map (spillOff fr A)

/-- **The offsets of the stores up to that of the eighth parameter**: the return address, the saved
registers, and the spilled ones of the first eight parameters. -/
def earlyStores (fr : Frame) (A : Allocation) (f : IRFunc) : List Nat :=
  (if A.isLeaf then [] else [fr.raOff]) ++
    (List.range A.usedCallee.length).map (fr.calleeBase + · * 4) ++
    spillsOf fr A (f.paramRegs.take 8)

/-- Whether some offset does not fit an instruction. -/
def Far (offs : List Nat) : Prop := ∃ off ∈ offs, fits12 off = false

section Prologue

variable {sym : String → BitVec 32} {fr : Frame} {A : Allocation} {b : BitVec 32} {nv np : Nat}
  {σ₀ σ : Data}

/-- **The machine in front of the move of a parameter**: the arguments from here on are where
they were, except for the eighth when `a7` was used for an address. -/
structure Arriving (fr : Frame) (b : BitVec 32) (np : Nat) (σ₀ : Data) (i : Nat) (lost : Prop)
    (σ : Data) : Prop where
  sp : σ.get XReg.sp = b
  args : ∀ j, i ≤ j → j < 7 → σ.get (XReg.a0 + j) = σ₀.get (XReg.a0 + j)
  kept : i ≤ 7 → ¬ lost → σ.get XReg.a7 = σ₀.get XReg.a7
  addr : i ≤ 7 → lost → Aligned (σ.get XReg.a7)
  stack : ∀ j, 8 ≤ j → j < np → σ.mem (cell b (fr.frameSize + (j - 8) * 4)) =
    σ₀.mem (cell b (fr.frameSize + (j - 8) * 4))

theorem argReg_ne_a7 : ∀ j : Nat, j < 7 → XReg.a0 + j ∉ [XReg.a7] := by decide

/-- The arguments are not in registers of vregs. -/
theorem ne_argReg {x : XReg} (hx : x ∈ allocatable) : ∀ j : Nat, j < 8 → XReg.a0 + j ≠ x := by
  revert x
  decide

/-- A word behind the frame is not in it. -/
theorem Frame.At.behind_ne (hb : fr.At b ((np - 8) * 4)) {j off : Nat} (hj : 8 ≤ j) (hnp : j < np)
    (hoff : off < fr.frameSize) : cell b (fr.frameSize + (j - 8) * 4) ≠ cell b off :=
  hb.cell_ne (by omega) (by omega) (by omega)

/-- **A store to the frame** on the way. -/
theorem Arriving.store {i : Nat} {lost : Prop} (h : Arriving fr b np σ₀ i lost σ)
    (hb : fr.At b ((np - 8) * 4)) {reg : XReg} {off : Nat} (hoff : off < fr.frameSize)
    (hdvd : 4 ∣ off) :
    Does sym (storeOff reg off) σ fun σ' =>
      Arriving fr b np σ₀ i (lost ∨ fits12 off = false) σ' ∧
        σ'.mem = (σ.store (cell b off)
          (if fits12 off = true ∨ reg ≠ XReg.a7 then σ.get reg else cell b off)).mem ∧
        Keeps [XReg.a7] σ σ' := by
  have hal := cell_aligned hb.aligned hdvd
  refine (storeOffVia_effect (by decide) (by decide) h.sp hal).mono
    fun σ' ⟨hmem, ha7, hk⟩ => ⟨⟨?_, ?_, ?_, ?_, ?_⟩, hmem, hk⟩
  · rw [hk _ (by decide), h.sp]
  · intro j hij hj
    rw [hk _ (argReg_ne_a7 j hj), h.args j hij hj]
  · intro hi hlost
    rw [not_or, Bool.not_eq_false] at hlost
    rw [ha7, if_pos hlost.2, h.kept hi hlost.1]
  · intro hi hlost
    rw [ha7]
    split
    · rename_i hfit
      exact h.addr hi (hlost.resolve_right (by simp [hfit]))
    · exact hal
  · intro j hj hnp
    rw [hmem, σ.store_mem_of_ne (hb.behind_ne hj hnp hoff), h.stack j hj hnp]

/-- The code that moves one parameter. -/
def moveParam (fr : Frame) (A : Allocation) (i v : Nat) : List Instr := moveParams fr A i [v]

theorem moveParams_cons (i v : Nat) (vs : List Nat) :
    moveParams fr A i (v :: vs) = moveParam fr A i v ++ moveParams fr A (i + 1) vs := by
  simp [moveParam, moveParams]

/-- **A parameter has been moved**: its place holds what was passed, unless it is the eighth and that
was lost, and the other places are as they were. -/
structure MovedParam (fr : Frame) (A : Allocation) (b : BitVec 32) (nv np : Nat) (σ₀ : Data)
    (i v : Nat) (lost : Prop) (σ σ' : Data) : Prop where
  arriving : Arriving fr b np σ₀ (i + 1) lost σ'
  held : (i = 7 → ¬ lost) → locs fr A σ' v = incoming fr b σ₀ i
  addr : i = 7 → lost → Aligned (locs fr A σ' v)
  others : ∀ u < nv, u ≠ v → A.loc v ≠ A.loc u → locs fr A σ' u = locs fr A σ u

section Move

variable {i v : Nat} {lost : Prop} {x : XReg}

/-- A register argument into a register. -/
theorem moveParam_reg (hA : A.Placed nv) (hi : i < 8) (hreg : A.reg v = some x)
    (h : Arriving fr b np σ₀ i lost σ) :
    Does sym (moveParam fr A i v) σ fun σ' => MovedParam fr A b nv np σ₀ i v lost σ σ' := by
  obtain ⟨-, hx⟩ := hA.reg_mem v x hreg
  have harg := ne_argReg hx
  have hcode : moveParam fr A i v = [.mv x (XReg.a0 + i)] := by
    simp [moveParam, moveParams, hi, hreg, (harg i hi).symm]
  have hset : ∀ y ≠ x, (σ.set x (σ.get (XReg.a0 + i))).get y = σ.get y := fun y hy =>
    σ.get_set_of_ne hy _
  have hval : (σ.set x (σ.get (XReg.a0 + i))).get x = σ.get (XReg.a0 + i) :=
    σ.get_set_self (allocatable_ne hx (by decide)) _
  have hxsp : x ≠ XReg.sp := allocatable_ne hx (by decide)
  rw [hcode]
  refine .single (σ.set x (σ.get (XReg.a0 + i))) ?_ ⟨⟨?_, ?_, ?_, ?_, h.stack⟩, ?_, ?_, ?_⟩
  · rw [exec_alui rfl, eval_mv]
  · rw [hset _ hxsp.symm, h.sp]
  · intro j hij hj
    rw [hset _ (harg j (by omega)), h.args j (by omega) hj]
  · intro hi7 hlost
    rw [hset _ (harg 7 (by omega)), h.kept (by omega) hlost]
  · intro hi7 hlost
    rw [hset _ (harg 7 (by omega))]
    exact h.addr (by omega) hlost
  · intro hlost
    rw [locs_reg hreg, hval, incoming, if_pos hi]
    by_cases hi7 : i = 7
    · rw [hi7]
      exact h.kept (by omega) (hlost hi7)
    · exact h.args i (by omega) (by omega)
  · intro hi7 hlost
    rw [locs_reg hreg, hval, hi7]
    exact h.addr (by omega) hlost
  · intro u _ _ hne
    refine locs_set hxsp (fun hu => hne ?_) _
    unfold Allocation.loc
    rw [hreg, hu]

/-- A register argument into a spill slot. -/
theorem moveParam_slot (hfr : fr.Laid A) (hA : A.Placed nv) (hb : fr.At b ((np - 8) * 4))
    (hi : i < 8) (hv : v < nv) (hreg : A.reg v = none) (h : Arriving fr b np σ₀ i lost σ) :
    Does sym (moveParam fr A i v) σ fun σ' =>
      MovedParam fr A b nv np σ₀ i v (lost ∨ fits12 (spillOff fr A v) = false) σ σ' := by
  have hsize := hfr.calleeBase_le
  obtain ⟨hdvd, -, hlt⟩ := spillOff_lt hfr hA hv hreg
  have hal := cell_aligned hb.aligned hdvd
  have hcode : moveParam fr A i v = storeOff (XReg.a0 + i) (spillOff fr A v) := by
    simp [moveParam, moveParams, hi, hreg, storeSpill]
  rw [hcode]
  refine (h.store hb (by omega) hdvd).mono fun σ' ⟨harr, hmem, hk⟩ => ⟨⟨harr.sp, ?_, ?_, ?_,
    harr.stack⟩, ?_, ?_, ?_⟩
  · exact fun j hij hj => harr.args j (by omega) hj
  · exact fun hi7 => harr.kept (by omega)
  · exact fun hi7 => harr.addr (by omega)
  all_goals
    have hk' : Keeps scratches σ σ' := hk.mono (by decide)
    have hlocs := fun {u} hu => locs_store (v := u) hfr hA hb hv hreg hu hmem h.sp hk'
  · intro hlost
    rw [hlocs hv, if_pos rfl, incoming, if_pos hi]
    by_cases hi7 : i = 7
    · have hlost := hlost hi7
      rw [not_or, Bool.not_eq_false] at hlost
      rw [if_pos (.inl hlost.2), hi7]
      exact h.kept (by omega) hlost.1
    · have hne : XReg.a0 + i ≠ XReg.a7 := by
        have := argReg_ne_a7 i (by omega)
        simpa using this
      rw [if_pos (.inr hne)]
      exact h.args i (by omega) (by omega)
  · intro hi7 hlost
    rw [hlocs hv, if_pos rfl, hi7]
    split
    · rename_i hfit
      have hfit := hfit.resolve_right (by decide)
      exact h.addr (by omega) (hlost.resolve_right (by simp [hfit]))
    · exact hal
  · intro u hu hne _
    rw [hlocs hu, if_neg hne]

/-- A stack argument into a register. -/
theorem moveParam_load (hfr : fr.Laid A) (hA : A.Placed nv) (hb : fr.At b ((np - 8) * 4))
    (hi : ¬ i < 8) (hnp : i < np) (hreg : A.reg v = some x) (h : Arriving fr b np σ₀ i lost σ) :
    Does sym (moveParam fr A i v) σ fun σ' => MovedParam fr A b nv np σ₀ i v lost σ σ' := by
  obtain ⟨-, hx⟩ := hA.reg_mem v x hreg
  have hcode : moveParam fr A i v = loadOff x (fr.frameSize + (i - 8) * 4) := by
    simp [moveParam, moveParams, hi, hreg]
  have hdvd := hfr.dvd
  have hal : Aligned (cell b (fr.frameSize + (i - 8) * 4)) :=
    cell_aligned hb.aligned (by omega)
  rw [hcode]
  refine (loadOffVia_does (by decide) (by decide) (allocatable_ne hx (by decide)) h.sp hal).mono
    fun σ' ⟨hmem, hval, hk⟩ => ⟨⟨?_, ?_, ?_, ?_, ?_⟩, ?_, ?_, ?_⟩
  · have hsp : XReg.sp ∉ [x, XReg.a7] := by
      have := allocatable_ne hx (y := XReg.sp) (by decide)
      simpa using this.symm
    rw [hk _ hsp, h.sp]
  · intro j hij hj
    omega
  · intro hi7
    omega
  · intro hi7
    omega
  · intro j hj hjnp
    rw [hmem, h.stack j hj hjnp]
  · intro _
    rw [locs_reg hreg, hval, incoming, if_neg hi]
    exact h.stack i (by omega) hnp
  · intro hi7
    omega
  · intro u hu _ hne
    rcases hA.locates hu with ⟨y, hy, hregu⟩ | ⟨hregu, -⟩
    · have hyx : y ≠ x := by
        rintro rfl
        refine hne ?_
        unfold Allocation.loc
        rw [hreg, hregu]
      rw [locs_reg hregu, locs_reg hregu, hk y]
      have := allocatable_ne hy (y := XReg.a7) (by decide)
      simp [hyx, this]
    · have hsp : XReg.sp ∉ [x, XReg.a7] := by
        have := allocatable_ne hx (y := XReg.sp) (by decide)
        simpa using this.symm
      rw [locs_slot hregu, locs_slot hregu, hmem, hk _ hsp]

/-- A stack argument into a spill slot. -/
theorem moveParam_copy (hfr : fr.Laid A) (hA : A.Placed nv) (hb : fr.At b ((np - 8) * 4))
    (hi : ¬ i < 8) (hnp : i < np) (hv : v < nv) (hreg : A.reg v = none)
    (h : Arriving fr b np σ₀ i lost σ) :
    Does sym (moveParam fr A i v) σ fun σ' => MovedParam fr A b nv np σ₀ i v lost σ σ' := by
  have hsize := hfr.calleeBase_le
  obtain ⟨hdvd, -, hlt⟩ := spillOff_lt hfr hA hv hreg
  have hcode : moveParam fr A i v = loadOff scratch0 (fr.frameSize + (i - 8) * 4) ++
      storeOff scratch0 (spillOff fr A v) := by
    simp [moveParam, moveParams, hi, hreg, storeSpill]
  have hframe := hfr.dvd
  have hal : Aligned (cell b (fr.frameSize + (i - 8) * 4)) :=
    cell_aligned hb.aligned (by omega)
  rw [hcode]
  refine (loadOffVia_does (by decide) (by decide) (by decide) h.sp hal).append
    fun σ₁ ⟨hmem₁, hval₁, hk₁⟩ => ?_
  have hsp₁ : σ₁.get XReg.sp = b := by rw [hk₁ _ (by decide), h.sp]
  refine (storeOffVia_does (by decide) (by decide) (.inl (by decide)) hsp₁
    (cell_aligned hb.aligned hdvd)).mono fun σ' ⟨hmem, hk⟩ => ⟨⟨?_, ?_, ?_, ?_, ?_⟩, ?_, ?_, ?_⟩
  · rw [hk _ (by decide), hsp₁]
  · intro j hij hj
    omega
  · intro hi7
    omega
  · intro hi7
    omega
  · intro j hj hjnp
    rw [hmem, σ₁.store_mem_of_ne (hb.behind_ne hj hjnp (by omega)), hmem₁, h.stack j hj hjnp]
  all_goals
    have hlocs := fun {u} hu => locs_store (v := u) hfr hA hb hv hreg hu hmem hsp₁
      (hk.mono (by decide))
  · intro _
    rw [hlocs hv, if_pos rfl, hval₁, incoming, if_neg hi]
    exact h.stack i (by omega) hnp
  · intro hi7
    omega
  · intro u hu hne _
    rw [hlocs hu, if_neg hne]
    exact locs_of_keeps (hA.locates hu) hmem₁ (hk₁.mono (by decide))

end Move

theorem far_append {xs ys : List Nat} : Far (xs ++ ys) ↔ Far xs ∨ Far ys := by
  simp only [Far, List.mem_append, or_and_right, exists_or]

theorem spillsOf_cons (p : Nat) (ps : List Nat) :
    spillsOf fr A (p :: ps) = spillsOf fr A [p] ++ spillsOf fr A ps := by
  unfold spillsOf
  rw [← List.map_append, ← List.filter_append]
  rfl

/-- **The move of one parameter**, in any case. -/
theorem moveParam_does (hfr : fr.Laid A) (hA : A.Placed nv) (hb : fr.At b ((np - 8) * 4))
    {i v : Nat} (hi : i < np) (hv : v < nv) {lost : Prop} (h : Arriving fr b np σ₀ i lost σ) :
    Does sym (moveParam fr A i v) σ fun σ' =>
      MovedParam fr A b nv np σ₀ i v (lost ∨ Far (spillsOf fr A [v])) σ σ' := by
  have hbehind : ¬ i < 8 → ∀ {σ' : Data}, MovedParam fr A b nv np σ₀ i v lost σ σ' →
      MovedParam fr A b nv np σ₀ i v (lost ∨ Far (spillsOf fr A [v])) σ σ' := by
    rintro hi8 σ' ⟨harr, hheld, -, hothers⟩
    refine ⟨⟨harr.sp, harr.args, fun _ => ?_, fun _ => ?_, harr.stack⟩, fun _ => hheld fun _ => ?_,
      fun _ => ?_, hothers⟩
    all_goals omega
  cases hreg : A.reg v with
  | some x =>
    have hfar : (lost ∨ Far (spillsOf fr A [v])) = lost := by
      simp [Far, spillsOf, hreg]
    by_cases hi8 : i < 8
    · rw [hfar]
      exact moveParam_reg hA hi8 hreg h
    · exact (moveParam_load hfr hA hb hi8 hi hreg h).mono fun _ => hbehind hi8
  | none =>
    have hfar : Far (spillsOf fr A [v]) = (fits12 (spillOff fr A v) = false) := by
      simp [Far, spillsOf, hreg]
    by_cases hi8 : i < 8
    · rw [hfar]
      exact moveParam_slot hfr hA hb hi8 hv hreg h
    · exact (moveParam_copy hfr hA hb hi8 hi hv hreg h).mono fun _ => hbehind hi8

/-- **The moves of the parameters.** By induction: what was moved before is not touched, since
the parameters have places of their own. -/
theorem moveParams_does (hfr : fr.Laid A) (hA : A.Placed nv) (hb : fr.At b ((np - 8) * 4))
    {ps : List Nat} (hps : ∀ p ∈ ps, p < nv)
    (hapart : ps.Pairwise fun p q => q ≠ p ∧ A.loc p ≠ A.loc q) {i : Nat}
    (hi : i + ps.length ≤ np) {lost : Prop} (h : Arriving fr b np σ₀ i lost σ) :
    Does sym (moveParams fr A i ps) σ fun σ' =>
      (∀ u < nv, (∀ p ∈ ps, u ≠ p ∧ A.loc p ≠ A.loc u) → locs fr A σ' u = locs fr A σ u) ∧
      ∀ j p, ps[j]? = some p →
        ((i + j = 7 → ¬ (lost ∨ Far (spillsOf fr A (ps.take (j + 1))))) →
          locs fr A σ' p = incoming fr b σ₀ (i + j)) ∧
        (i + j = 7 → lost ∨ Far (spillsOf fr A (ps.take (j + 1))) →
          Aligned (locs fr A σ' p)) := by
  induction ps generalizing i lost σ with
  | nil =>
    refine .nil ⟨fun _ _ _ => rfl, fun j p hp => ?_⟩
    simp at hp
  | cons v ps ih =>
    rw [List.pairwise_cons] at hapart
    rw [List.length_cons] at hi
    have hv := hps v List.mem_cons_self
    rw [moveParams_cons]
    refine (moveParam_does hfr hA hb (by omega) hv h).append fun σ₁ hmoved => ?_
    refine (ih (fun p hp => hps p (List.mem_cons_of_mem _ hp)) hapart.2 (by omega)
      hmoved.arriving).mono fun σ' ⟨hothers, hheld⟩ => ⟨fun u hu hne => ?_, fun j p hp => ?_⟩
    · rw [hothers u hu fun p hp => hne p (List.mem_cons_of_mem _ hp)]
      obtain ⟨huv, hloc⟩ := hne v List.mem_cons_self
      exact hmoved.others u hu huv hloc
    · cases j with
      | zero =>
        rw [List.getElem?_cons_zero] at hp
        cases hp
        have hkeep := hothers v hv fun p hp =>
          ⟨(hapart.1 p hp).1.symm, (hapart.1 p hp).2.symm⟩
        rw [hkeep, List.take_succ_cons, List.take_zero]
        exact ⟨hmoved.held, hmoved.addr⟩
      | succ j =>
        rw [List.getElem?_cons_succ] at hp
        have hfar : (lost ∨ Far (spillsOf fr A ((v :: ps).take (j + 1 + 1)))) =
            ((lost ∨ Far (spillsOf fr A [v])) ∨ Far (spillsOf fr A (ps.take (j + 1)))) := by
          rw [List.take_succ_cons, spillsOf_cons, far_append, or_assoc]
        rw [hfar, ← Nat.add_assoc, Nat.add_right_comm]
        exact hheld j p hp

/-! ## The prologue -/

/-- The saves of some registers. -/
theorem saveRegs_does (hb : fr.At b ((np - 8) * 4)) {xs : List XReg} {off : Nat}
    (hdvd : 4 ∣ off) (hoff : off + xs.length * 4 ≤ fr.frameSize) {lost : Prop}
    (h : Arriving fr b np σ₀ 0 lost σ) :
    Does sym (saveRegs off xs) σ
      (Arriving fr b np σ₀ 0 (lost ∨ Far ((List.range xs.length).map (off + · * 4)))) := by
  induction xs generalizing off lost σ with
  | nil =>
    refine .nil ?_
    simpa [Far] using h
  | cons x xs ih =>
    rw [List.length_cons] at hoff ⊢
    unfold saveRegs
    refine (h.store hb (by omega) hdvd).append fun σ₁ ⟨harr, _, _⟩ => ?_
    refine (ih (by omega) (by omega) harr).mono fun σ' hσ' => ?_
    have hfar : (lost ∨ Far ((List.range (xs.length + 1)).map (off + · * 4))) =
        ((lost ∨ fits12 off = false) ∨ Far ((List.range xs.length).map (off + 4 + · * 4))) := by
      rw [List.range_succ_eq_map, List.map_cons, List.map_map]
      have hmap : ((off + · * 4) ∘ Nat.succ) = (off + 4 + · * 4) := by
        funext k
        simp only [Function.comp_apply, Nat.succ_eq_add_one]
        omega
      rw [hmap, ← List.singleton_append, far_append, or_assoc]
      simp [Far]
    rwa [hfar]

/-- **The parameters after the prologue**: each is in its place, but for the eighth in case it was
lost; then its place holds an address of the frame, which is aligned. -/
theorem prologue_does {F : IRFunc} (hfr : fr.Laid A) (hA : A.Placed F.numVregs)
    (hF : F.InRange) (hnp : F.numParams = F.paramRegs.length)
    (hapart : F.paramRegs.Pairwise fun p q => q ≠ p ∧ A.loc p ≠ A.loc q)
    (hb : fr.At b ((F.numParams - 8) * 4)) (hsp : σ.get XReg.sp = cell b fr.frameSize) :
    Does sym (prologue fr A F) σ fun σ' => ∀ i p, F.paramRegs[i]? = some p →
      ((i = 7 → ¬ Far (earlyStores fr A F)) → locs fr A σ' p = incoming fr b σ i) ∧
        (i = 7 → Far (earlyStores fr A F) → Aligned (locs fr A σ' p)) := by
  have hstart : Does sym (if 0 < fr.frameSize then openFrame fr.frameSize else []) σ
      (Arriving fr b F.numParams σ 0 False) := by
    have harr : ∀ σ' : Data, σ'.mem = σ.mem → σ'.get XReg.sp = b →
        Keeps [XReg.sp, XReg.t6] σ σ' → Arriving fr b F.numParams σ 0 False σ' := by
      intro σ' hmem hsp' hk
      refine ⟨hsp', fun j _ hj => hk _ ?_, fun _ _ => hk _ (by decide), fun _ h => h.elim,
        fun j _ _ => by rw [hmem]⟩
      revert j
      decide
    split
    · exact (openFrame_does fr.frameSize hsp).mono fun σ' ⟨hmem, hsp', hk⟩ => harr σ' hmem hsp' hk
    · rename_i hzero
      obtain h0 : fr.frameSize = 0 := by omega
      refine .nil (harr σ rfl ?_ (.refl _ _))
      rw [hsp, h0]
      exact BitVec.add_zero b
  have hra := hfr.ra
  have hcallee := hfr.callee
  have hspill := hfr.spill
  have hout := hfr.outgoing
  have hsize := hfr.size
  have hsaveRa : ∀ σ₁, Arriving fr b F.numParams σ 0 False σ₁ →
      Does sym (if A.isLeaf then [] else storeOff XReg.ra fr.raOff) σ₁
        (Arriving fr b F.numParams σ 0 (Far (if A.isLeaf then [] else [fr.raOff]))) := by
    intro σ₁ h
    cases hleaf : A.isLeaf with
    | true =>
      refine .nil ?_
      have : Far (if true = true then [] else [fr.raOff]) = False := by simp [Far]
      rwa [this]
    | false =>
      rw [hleaf] at hsize
      have hlt : fr.raOff < fr.frameSize := by
        simp only [Bool.false_eq_true, if_false] at hsize
        omega
      refine (h.store hb hlt (by omega)).mono fun σ' ⟨harr, _, _⟩ => ?_
      have : Far (if false = true then [] else [fr.raOff]) =
          (False ∨ fits12 fr.raOff = false) := by simp [Far]
      rwa [this]
  have htake : F.paramRegs.take F.numParams = F.paramRegs := by rw [hnp, List.take_length]
  unfold prologue
  rw [htake]
  refine ((hstart.append hsaveRa).append fun σ₁ h₁ =>
    saveRegs_does hb (by omega) (by omega) h₁).append fun σ₂ h₂ => ?_
  refine (moveParams_does hfr hA hb hF.params hapart (by omega) h₂).mono
    fun σ' ⟨_, hheld⟩ i p hp => ?_
  have h := hheld i p hp
  have hlost : i = 7 → (Far (earlyStores fr A F) ↔
      (Far (if A.isLeaf then [] else [fr.raOff]) ∨
        Far ((List.range A.usedCallee.length).map (fr.calleeBase + · * 4))) ∨
          Far (spillsOf fr A (F.paramRegs.take (i + 1)))) := by
    rintro rfl
    unfold earlyStores
    rw [far_append, far_append]
  rw [Nat.zero_add] at h
  exact ⟨fun hnot => h.1 fun hi => (hlost hi).not.mp (hnot hi),
    fun hi hfar => h.2 hi ((hlost hi).mp hfar)⟩

end Prologue

/-! ## Which parameters arrive -/

/-- **The arguments survive the prologue**, from a frame at `b`: from every machine at the entry, each
parameter that is live there has been moved to its place. -/
def Delivers (sym : String → BitVec 32) (fr : Frame) (A : Allocation) (b : BitVec 32)
    (F : IRFunc) : Prop :=
  ∀ σ : Data, σ.get XReg.sp = cell b fr.frameSize → Does sym (prologue fr A F) σ fun σ' =>
    ∀ i p, F.paramRegs[i]? = some p → F.LiveAt 0 (F.blockAt 0).insts p →
      locs fr A σ' p = incoming fr b σ i

/-- **The eighth parameter is not live, or is moved before `a7` is needed** for an address. -/
def EighthSafe (fr : Frame) (A : Allocation) (F : IRFunc) : Prop :=
  ∀ p, F.paramRegs[7]? = some p → F.LiveAt 0 (F.blockAt 0).insts p →
    ¬ Far (earlyStores fr A F)

/-- The parameters of a function have places of their own. -/
theorem params_apart {A : Allocation} {F : IRFunc} (hA : A.Valid F)
    (hnodup : F.paramRegs.Nodup) :
    F.paramRegs.Pairwise fun p q => q ≠ p ∧ A.loc p ≠ A.loc q :=
  hnodup.imp_of_mem fun hp hq hne => ⟨hne.symm, hA.params _ hp _ hq hne⟩

/-- **The arguments survive the prologue exactly if the eighth one is safe.** -/
theorem delivers_iff {S : Sorting} {F : IRFunc} {n : Nat} {A : Allocation} (hF : F.InRange)
    (hnp : F.numParams = F.paramRegs.length) (hnodup : F.paramRegs.Nodup)
    (hA : allocateRegisters S F n = .ok A) (sym : String → BitVec 32) {b : BitVec 32}
    (hb : (frameOf A F).At b ((F.numParams - 8) * 4)) :
    Delivers sym (frameOf A F) A b F ↔ EighthSafe (frameOf A F) A F := by
  obtain ⟨hvalid, hplaced⟩ := allocateRegisters_valid hF hA
  have hdoes := fun {σ : Data} (hsp : σ.get XReg.sp = cell b (frameOf A F).frameSize) =>
    @prologue_does sym _ _ _ _ _ (frameOf_laid A F) hplaced hF hnp (params_apart hvalid hnodup) hb hsp
  constructor
  · intro h p hp hlive hfar
    -- An argument that is no address of a word.
    let σ : Data := ⟨fun x => if x = XReg.sp then cell b (frameOf A F).frameSize else 1#32,
      fun _ => 0⟩
    obtain ⟨σ₁, hrun, hheld⟩ := h σ rfl
    obtain ⟨σ₂, hrun', haddr⟩ := hdoes (σ := σ) rfl
    cases hrun.symm.trans hrun'
    have hal := (haddr 7 p hp).2 rfl hfar
    rw [hheld 7 p hp hlive] at hal
    exact absurd hal (by decide : ¬ Aligned 1#32)
  · intro h σ hsp
    refine (hdoes hsp).mono fun σ' hσ' i p hp hlive => (hσ' i p hp).1 ?_
    rintro rfl
    exact h p hp hlive

/-- `int f(int a, …, int h, int i) { return h + i; }`. -/
def nineFunc : IRFunc where
  name := "f"
  numParams := 9
  paramRegs := [0, 1, 2, 3, 4, 5, 6, 7, 8]
  numVregs := 10
  blocks := [{
    insts := [{ op := .Add, dst := some 9, a := .reg 7, b := .reg 8 }]
    term := .Ret
    retHasVal := true
    retVal := .reg 9 }]

theorem delivers_nineFunc : ∃ A, allocateRegisters .insertion nineFunc 9 = .ok A ∧
    (Delivers (fun _ => 0) (frameOf A nineFunc) A 0x8000#32 nineFunc ↔
      EighthSafe (frameOf A nineFunc) A nineFunc) :=
  ⟨_, rfl, delivers_iff (S := .insertion) (n := 9) ⟨by decide, by decide, by decide, by decide⟩ rfl
    (by decide) rfl _ ⟨by decide, by decide⟩⟩

/-- `int f(int a, …, int h) { g(0, …, 0); return h; }`, where `g` has 520 parameters. -/
def farFunc : IRFunc where
  name := "f"
  numParams := 8
  paramRegs := [0, 1, 2, 3, 4, 5, 6, 7]
  numVregs := 8
  blocks := [{
    insts := [{ op := .Call, callee := "g", args := List.replicate 520 (.imm 0) }]
    term := .Ret
    retHasVal := true
    retVal := .reg 7 }]

theorem inRange_farFunc : farFunc.InRange := by
  have huses : ∀ bb ∈ farFunc.blocks, ∀ inst ∈ bb.insts, inst.InRange 8 := by
    intro bb hbb inst hi
    cases List.mem_singleton.mp hbb
    cases List.mem_singleton.mp hi
    refine ⟨fun v hv => ?_, trivial⟩
    change v ∈ (List.replicate 520 (Val.imm 0)).filterMap Val.reg? ++ [] at hv
    rw [List.filterMap_replicate_of_none rfl] at hv
    cases hv
  exact ⟨by decide, huses, by decide, by decide⟩

/-- Its frame is so large that saving the return address takes `a7`: a caller that passes 1 as
the last argument has something else arrive. -/
theorem prologue_farFunc : ∃ A, allocateRegisters .insertion farFunc 9 = .ok A ∧
    farFunc.LiveAt 0 (farFunc.blockAt 0).insts 7 ∧
    ∃ σ : Data, σ.get XReg.sp = cell 0x8000#32 (frameOf A farFunc).frameSize ∧
      σ.get XReg.a7 = 1#32 ∧
      Does (fun _ => 0) (prologue (frameOf A farFunc) A farFunc) σ fun σ' =>
        locs (frameOf A farFunc) A σ' 7 ≠ 1#32 := by
  have hfar : ∃ A, allocateRegisters .insertion farFunc 9 = .ok A ∧
      (frameOf A farFunc).frameSize ≤ 4096 ∧ A.isLeaf = false ∧
        fits12 (frameOf A farFunc).raOff = false := by decide +kernel
  obtain ⟨A, hA, hsize, hleaf, hra⟩ := hfar
  obtain ⟨hvalid, hplaced⟩ := allocateRegisters_valid inRange_farFunc hA
  refine ⟨A, hA, .pass (by decide) (.term (by decide)),
    ⟨fun x => if x = XReg.sp then cell 0x8000#32 (frameOf A farFunc).frameSize else 1#32,
      fun _ => 0⟩, rfl, rfl, ?_⟩
  refine (prologue_does (frameOf_laid A farFunc) hplaced inRange_farFunc rfl
    (params_apart hvalid (by decide)) ⟨by decide, ?_⟩ rfl).mono fun σ' hσ' h => ?_
  · show 0x8000 + _ + 0 ≤ 2 ^ 32
    omega
  · have hal := (hσ' 7 7 rfl).2 rfl ⟨(frameOf A farFunc).raOff, ?_, hra⟩
    · rw [h] at hal
      exact absurd hal (by decide)
    · simp [earlyStores, hleaf]

end OptCodeGen

end ToyC
