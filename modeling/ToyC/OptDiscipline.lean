import ToyC.OptFlow
import ToyC.OptPrologue

/-!
# The frame discipline of the optimizing code generator

On every path from the entry of a function to a return, the function stores to globals and to the
four areas of its frame only, and at the return the stack pointer, the return address and the
callee-saved registers are as they were at the entry. What the code in the body may do is said
once (`Tame`); each method of the generator writes such code, and such code keeps what the
epilogue relies on (`Body`).
-/

namespace ToyC

open Rv32

namespace OptCodeGen

open NaiveCodeGen (globalAddr)

/-! ## The areas of a frame -/

/-- The areas of a frame: outgoing stack arguments, spill slots, saved registers, the saved return
address. -/
inductive Area where
  | outgoing | spill | saved | ra
  deriving DecidableEq, Repr

namespace Area

/-- **A word of an area**, by its offset. -/
def Has (fr : Frame) (A : Allocation) (nv : Nat) (p : Area) (off : Nat) : Prop :=
  match p with
  | outgoing => off + 4 ≤ fr.outArgArea
  | spill => ∃ v < nv, A.reg v = none ∧ off = spillOff fr A v
  | saved => ∃ k < A.usedCallee.length, off = fr.calleeBase + k * 4
  | ra => A.isLeaf = false ∧ off = fr.raOff

/-- Where an area begins. -/
def low (fr : Frame) : Area → Nat
  | outgoing => 0
  | spill => fr.spillBase
  | saved => fr.calleeBase
  | ra => fr.raOff

/-- Where it ends. -/
def high (fr : Frame) : Area → Nat
  | outgoing => fr.outArgArea
  | spill => fr.calleeBase
  | saved => fr.raOff
  | ra => fr.raOff + 4

variable {fr : Frame} {A : Allocation} {nv : Nat} {p q : Area} {off off' : Nat}

theorem Has.bounds (hfr : fr.Laid A) (hA : A.Placed nv) (h : p.Has fr A nv off) :
    p.low fr ≤ off ∧ off + 4 ≤ p.high fr := by
  have hra := hfr.ra
  cases p with
  | outgoing => exact ⟨Nat.zero_le _, h⟩
  | spill =>
    obtain ⟨v, hv, hreg, rfl⟩ := h
    exact (spillOff_lt hfr hA hv hreg).2
  | saved =>
    obtain ⟨k, hk, rfl⟩ := h
    simp only [low, high]
    omega
  | ra =>
    obtain ⟨-, rfl⟩ := h
    exact ⟨Nat.le_refl _, Nat.le_refl _⟩

/-- **The areas are disjoint.** -/
theorem Has.disjoint (hfr : fr.Laid A) (hA : A.Placed nv) (hpq : p ≠ q) (h : p.Has fr A nv off)
    (h' : q.Has fr A nv off') : off + 4 ≤ off' ∨ off' + 4 ≤ off := by
  have hspill := hfr.spill
  have hcallee := hfr.callee
  have hra := hfr.ra
  have hb := h.bounds hfr hA
  have hb' := h'.bounds hfr hA
  cases p <;> cases q <;> first | exact absurd rfl hpq | (simp only [low, high] at hb hb'; omega)

/-- **They lie in the frame.** -/
theorem Has.le_size (hfr : fr.Laid A) (hA : A.Placed nv) (h : p.Has fr A nv off) :
    off + 4 ≤ fr.frameSize := by
  have hspill := hfr.spill
  have hcallee := hfr.callee
  have hra := hfr.ra
  have hsize := hfr.size
  have hb := h.bounds hfr hA
  cases p with
  | ra =>
    obtain ⟨hleaf, rfl⟩ := h
    rw [hleaf] at hsize
    simpa using hsize
  | _ =>
    simp only [low, high] at hb
    omega

/-- Words of an area have addresses of their own. -/
theorem Has.cell_ne {b : BitVec 32} {behind : Nat} (hfr : fr.Laid A) (hA : A.Placed nv)
    (hb : fr.At b behind) (hpq : p ≠ q) (h : p.Has fr A nv off) (h' : q.Has fr A nv off') :
    cell b off ≠ cell b off' := by
  have hdis := h.disjoint hfr hA hpq h'
  have hle := h.le_size hfr hA
  have hle' := h'.le_size hfr hA
  exact hb.cell_ne (by omega) (by omega) (by omega)

end Area

/-! ## The law -/

section Law

variable (img : Image) (m : IRModule) (A : Allocation) (F : IRFunc) (b : BitVec 32)

/-- **Where a function may store**: to a global, and to a word of an area of its frame. -/
def MayStore (a : BitVec 32) : Prop :=
  (∃ gid < m.globals.length, a = globalAddr m img gid) ∨
    ∃ (p : Area) (off : Nat), p.Has (frameOf A F) A F.numVregs off ∧ a = cell b off

/-- **The law of callees**, between the entry and the return: the stack pointer, the return address
and the callee-saved registers are kept, and from the stack pointer on nothing was written but
globals. -/
structure Obeys (σ σ' : Data) : Prop where
  regs : ∀ x, x = XReg.sp ∨ x = XReg.ra ∨ isCalleeSaved x = true → σ'.get x = σ.get x
  mem : ∀ a, (∀ gid < m.globals.length, a ≠ globalAddr m img gid) →
    (σ.get XReg.sp).toNat ≤ a.toNat → σ'.mem a = σ.mem a

/-- **The machine at the entry**, with the stack for a frame at `b` below it. -/
structure Entry (σ₀ : Data) : Prop where
  frame : (frameOf A F).At b ((F.numParams - 8) * 4)
  apart : ∀ gid < m.globals.length, ∀ off < (frameOf A F).frameSize,
    cell b off ≠ globalAddr m img gid
  top : σ₀.get XReg.sp = cell b (frameOf A F).frameSize
  toNat : (σ₀.get XReg.sp).toNat = b.toNat + (frameOf A F).frameSize

/-- **What the body keeps**, for the epilogue to restore. -/
structure Body (σ₀ σ : Data) : Prop where
  sp : σ.get XReg.sp = b
  regs : ∀ x, isCalleeSaved x = true → x ∉ A.usedCallee → σ.get x = σ₀.get x
  saved : ∀ (k : Nat) x, A.usedCallee[k]? = some x →
    σ.mem (cell b ((frameOf A F).calleeBase + k * 4)) = σ₀.get x
  ra : (if A.isLeaf then σ.get XReg.ra else σ.mem (cell b (frameOf A F).raOff)) = σ₀.get XReg.ra
  mem : ∀ a, (∀ gid < m.globals.length, a ≠ globalAddr m img gid) →
    (σ₀.get XReg.sp).toNat ≤ a.toNat → σ.mem a = σ₀.mem a

/-- **The contract of a function**: at the labels of its blocks, what the body keeps. -/
def contract (σ₀ : Data) : Contract where
  sym := img.sym
  store := MayStore img m A F b
  law := Obeys img m
  inv l σ := ∃ blk ∈ order F, l = F.label blk ∧ Body img m A F b σ₀ σ
  ret := Obeys img m σ₀

end Law

/-! ## What the body keeps -/

/-- **The registers the code in the body writes.** -/
def BodyReg (A : Allocation) (x : XReg) : Prop :=
  x ≠ XReg.sp ∧ x ≠ XReg.ra ∧ (isCalleeSaved x = true → x ∈ A.usedCallee)

section Keeping

variable {img : Image} {m : IRModule} {A : Allocation} {F : IRFunc} {b : BitVec 32}
  {σ₀ σ σ' : Data}

theorem bodyReg_of_mem {xs : List XReg}
    (hxs : ∀ x ∈ xs, x ≠ XReg.sp ∧ x ≠ XReg.ra ∧ isCalleeSaved x = false) {x : XReg}
    (hx : x ∈ xs) : BodyReg A x := by
  obtain ⟨hsp, hra, hs⟩ := hxs x hx
  refine ⟨hsp, hra, fun h => ?_⟩
  rw [hs] at h
  cases h

theorem bodyReg_scratch {x : XReg} (hx : x ∈ scratches) : BodyReg A x :=
  bodyReg_of_mem (by decide) hx

theorem bodyReg_arg : ∀ k : Nat, k < 8 → BodyReg A (XReg.a0 + k) := fun k hk =>
  bodyReg_of_mem (by decide)
    (List.mem_map_of_mem (List.mem_range.mpr hk))

/-- The register of a vreg is one of them, since the callee-saved ones in use are saved. -/
theorem bodyReg_reg {nv : Nat} (hA : A.Placed nv) {v : Nat} {x : XReg} (h : A.reg v = some x) :
    BodyReg A x := by
  obtain ⟨hv, hx⟩ := hA.reg_mem v x h
  have hpool : ∀ x ∈ callerSavedPool ++ calleeSavedPool, x ≠ XReg.sp ∧ x ≠ XReg.ra ∧ x < 32 := by
    decide
  obtain ⟨hsp, hra, hlt⟩ := hpool x hx
  refine ⟨hsp, hra, fun hs => ?_⟩
  rw [hA.usedCallee]
  refine List.mem_filter.mpr ⟨List.mem_range.mpr hlt, ?_⟩
  rw [Bool.and_eq_true]
  exact ⟨hs, List.any_eq_true.mpr ⟨v, List.mem_range.mpr hv, by simp [h]⟩⟩

/-- The state of a word of the frame that was saved. -/
theorem Area.has_saved {fr : Frame} {nv k : Nat} {x : XReg} (h : A.usedCallee[k]? = some x) :
    Area.saved.Has fr A nv (fr.calleeBase + k * 4) :=
  ⟨k, (List.getElem?_eq_some_iff.mp h).1, rfl⟩

/-- Writing a register. -/
theorem Body.write (h : Body img m A F b σ₀ σ) {x : XReg} (hx : BodyReg A x)
    (hget : ∀ y, y ≠ x → σ'.get y = σ.get y) (hmem : σ'.mem = σ.mem) :
    Body img m A F b σ₀ σ' where
  sp := (hget _ hx.1.symm).trans h.sp
  regs y hs hy := (hget y (by
    rintro rfl
    exact hy (hx.2.2 hs))).trans (h.regs y hs hy)
  saved k y hy := by
    rw [hmem]
    exact h.saved k y hy
  ra := by
    rw [hget _ hx.2.1.symm, hmem]
    exact h.ra
  mem a ha hle := by
    rw [hmem]
    exact h.mem a ha hle

/-- **Storing to the outgoing area or to a spill slot.** -/
theorem Body.store (h : Body img m A F b σ₀ σ) (he : Entry img m A F b σ₀)
    (hA : A.Placed F.numVregs) {p : Area} (hp : p = .outgoing ∨ p = .spill) {off : Nat}
    (hoff : p.Has (frameOf A F) A F.numVregs off) {w : Word}
    (hmem : σ'.mem = (σ.store (cell b off) w).mem) (hk : Keeps [XReg.a7] σ σ') :
    Body img m A F b σ₀ σ' := by
  have hfr := frameOf_laid A F
  have hne : ∀ {q off'}, q ≠ .outgoing → q ≠ .spill →
      Area.Has (frameOf A F) A F.numVregs q off' → σ'.mem (cell b off') = σ.mem (cell b off') := by
    intro q off' hq hq' hoff'
    rw [hmem, σ.store_mem_of_ne]
    refine hoff'.cell_ne hfr hA he.frame ?_ hoff
    rcases hp with rfl | rfl
    · exact hq
    · exact hq'
  refine ⟨(hk _ (by decide)).trans h.sp, fun y hs hy => ?_, fun k y hy => ?_, ?_, fun a ha hle => ?_⟩
  · refine (hk y fun hmem => ?_).trans (h.regs y hs hy)
    rw [List.mem_singleton.mp hmem] at hs
    cases hs
  · rw [hne (by decide) (by decide) (Area.has_saved hy)]
    exact h.saved k y hy
  · have hra := h.ra
    cases hleaf : A.isLeaf with
    | true =>
      rw [hleaf, if_pos rfl] at hra
      exact (hk XReg.ra (by decide)).trans hra
    | false =>
      rw [hleaf] at hra
      exact (hne (by decide) (by decide) (show Area.Has _ _ _ .ra _ from ⟨hleaf, rfl⟩)).trans hra
  · rw [hmem, σ.store_mem_of_ne, h.mem a ha hle]
    rintro rfl
    have hlt := hoff.le_size hfr hA
    rw [he.frame.toNat (by omega), he.toNat] at hle
    omega

/-- **Storing to a global.** -/
theorem Body.global (h : Body img m A F b σ₀ σ) (he : Entry img m A F b σ₀)
    (hA : A.Placed F.numVregs) {gid : Nat} (hg : gid < m.globals.length) {w : Word}
    (hmem : σ'.mem = (σ.store (globalAddr m img gid) w).mem)
    (hget : ∀ y, σ'.get y = σ.get y) : Body img m A F b σ₀ σ' := by
  have hfr := frameOf_laid A F
  have hne : ∀ {q off}, Area.Has (frameOf A F) A F.numVregs q off →
      σ'.mem (cell b off) = σ.mem (cell b off) := by
    intro q off hoff
    have := hoff.le_size hfr hA
    rw [hmem, σ.store_mem_of_ne (he.apart gid hg off (by omega))]
  refine ⟨(hget _).trans h.sp, fun y hs hy => (hget y).trans (h.regs y hs hy), fun k y hy => ?_, ?_,
    fun a ha hle => ?_⟩
  · rw [hne (Area.has_saved hy)]
    exact h.saved k y hy
  · have hra := h.ra
    cases hleaf : A.isLeaf with
    | true =>
      rw [hleaf, if_pos rfl] at hra
      exact (hget XReg.ra).trans hra
    | false =>
      rw [hleaf] at hra
      exact (hne (show Area.Has _ _ _ .ra _ from ⟨hleaf, rfl⟩)).trans hra
  · rw [hmem, σ.store_mem_of_ne (ha gid hg), h.mem a ha hle]

/-- **A call**, by the law of the callee: the frame lies from its stack pointer on. -/
theorem Body.call (h : Body img m A F b σ₀ σ) (he : Entry img m A F b σ₀)
    (hA : A.Placed F.numVregs) (hleaf : A.isLeaf = false) {w : Word}
    (hlaw : Obeys img m (σ.set XReg.ra w) σ') : Body img m A F b σ₀ σ' := by
  have hfr := frameOf_laid A F
  have hsp : (σ.set XReg.ra w).get XReg.sp = b := (σ.get_set_of_ne (by decide) w).trans h.sp
  have hne : ∀ {q off}, Area.Has (frameOf A F) A F.numVregs q off →
      σ'.mem (cell b off) = σ.mem (cell b off) := by
    intro q off hoff
    have := hoff.le_size hfr hA
    refine hlaw.mem _ (fun gid hg => he.apart gid hg off (by omega)) ?_
    rw [hsp, he.frame.toNat (by omega)]
    exact Nat.le_add_right _ _
  refine ⟨(hlaw.regs _ (.inl rfl)).trans hsp, fun y hs hy => ?_, fun k y hy => ?_, ?_,
    fun a ha hle => ?_⟩
  · refine (hlaw.regs y (.inr (.inr hs))).trans ((σ.get_set_of_ne ?_ w).trans (h.regs y hs hy))
    rintro rfl
    cases hs
  · rw [hne (Area.has_saved hy)]
    exact h.saved k y hy
  · have hra := h.ra
    rw [hleaf] at hra ⊢
    exact (hne (show Area.Has _ _ _ .ra _ from ⟨hleaf, rfl⟩)).trans hra
  · refine (hlaw.mem a ha ?_).trans (h.mem a ha hle)
    rw [hsp]
    rw [he.toNat] at hle
    omega

end Keeping

/-! ## What the code in the body does -/

/-- **Code that may stand in the body**: it writes registers of the body, and stores to the outgoing
area, to spill slots and to globals; where it calls, the return address was saved. -/
inductive Tame (m : IRModule) (A : Allocation) (F : IRFunc) : List Instr → Prop where
  | nil : Tame m A F []
  | compute {i : Instr} {x : XReg} {code : List Instr} (hi : i.rd? = some x) (hx : BodyReg A x)
      (h : Tame m A F code) : Tame m A F (i :: code)
  | store {p : Area} {off : Nat} {code : List Instr} (reg : XReg)
      (hp : p = .outgoing ∨ p = .spill) (hoff : p.Has (frameOf A F) A F.numVregs off)
      (h : Tame m A F code) : Tame m A F (storeOff reg off ++ code)
  | global {gid : Nat} {code : List Instr} (reg : XReg) (hg : gid < m.globals.length)
      (h : Tame m A F code) :
      Tame m A F (.luiHi scratch1 (m.globalName gid) :: .swLo reg (m.globalName gid) scratch1 ::
        code)
  | call {l : String} {code : List Instr} (hleaf : A.isLeaf = false) (h : Tame m A F code) :
      Tame m A F (.call l :: code)

section Guards

variable {img : Image} {m : IRModule} {A : Allocation} {F : IRFunc} {b : BitVec 32}
  {σ₀ σ : Data} {rest : List Item} {code code' : List Instr}

theorem Tame.append (h : Tame m A F code) (h' : Tame m A F code') : Tame m A F (code ++ code') := by
  induction h with
  | nil => exact h'
  | compute hi hx _ ih => exact .compute hi hx ih
  | store reg hp hoff _ ih =>
    rw [List.append_assoc]
    exact .store reg hp hoff ih
  | global reg hg _ ih => exact .global reg hg ih
  | call hleaf _ ih => exact .call hleaf ih

/-- Code that only computes. -/
theorem tame_of_only {xs : List XReg} (h : Only xs code) (hxs : ∀ x ∈ xs, BodyReg A x) :
    Tame m A F code := by
  induction code with
  | nil => exact .nil
  | cons i code ih =>
    obtain ⟨⟨x, hx, hi⟩, h⟩ := (only_cons xs i code).mp h
    exact .compute hi (hxs x hx) (ih h)

/-- **A store to the frame**, of the register's value unless the register is the one for the
address. -/
theorem guards_storeOff {C : Contract} {reg : XReg} {off : Nat} (hsp : σ.get XReg.sp = b)
    (hstore : C.store (cell b off))
    (h : ∀ σ' w, σ'.mem = (σ.store (cell b off) w).mem → (reg ≠ XReg.a7 → w = σ.get reg) →
      Keeps [XReg.a7] σ σ' → C.Guards rest σ') :
    C.Guards ((storeOff reg off).map .instr ++ rest) σ := by
  unfold storeOff storeOffVia
  split
  · have haddr : σ.get XReg.sp + BitVec.ofInt 32 (off : Int) = cell b off := by
      rw [hsp, ofInt_natCast]
      rfl
    refine ⟨fun a ha => ?_, fun σ' hexec => ?_⟩
    · obtain rfl := Option.some.inj ha
      rw [haddr]
      exact hstore
    · simp only [Instr.exec] at hexec
      split at hexec
      · cases hexec
        rw [haddr]
        exact h _ (σ.get reg) rfl (fun _ => rfl) (keeps_store _ _ _)
      · cases hexec
  · refine (Contract.guards_exec rfl).mpr fun σ₁ h₁ => (Contract.guards_exec rfl).mpr fun σ₂ h₂ => ?_
    cases h₁
    cases h₂
    set σ₁ := σ.set XReg.a7 (BitVec.ofNat 32 off) with hσ₁
    set σ₂ := σ₁.set XReg.a7 (AluOp.add.eval (σ₁.get XReg.sp) (σ₁.get XReg.a7)) with hσ₂
    have haddr : σ₂.get XReg.a7 + BitVec.ofInt 32 0 = cell b off := by
      rw [hσ₂, σ₁.get_set_self (by decide), hσ₁, σ.get_set_of_ne (by decide),
        σ.get_set_self (by decide), hsp]
      simp [AluOp.eval, cell]
    refine ⟨fun a ha => ?_, fun σ' hexec => ?_⟩
    · obtain rfl := Option.some.inj ha
      rw [haddr]
      exact hstore
    · simp only [Instr.exec] at hexec
      split at hexec
      · cases hexec
        rw [haddr]
        refine h _ (σ₂.get reg) rfl (fun hreg => ?_) ?_
        · rw [hσ₂, σ₁.get_set_of_ne hreg, hσ₁, σ.get_set_of_ne hreg]
        · exact (keeps_set (by simp) _).trans ((keeps_set (by simp) _).trans (keeps_store _ _ _))
      · cases hexec

/-- **Code of the body keeps what the body keeps**, and to the contract. -/
theorem Tame.guards (he : Entry img m A F b σ₀) (hA : A.Placed F.numVregs) (h : Tame m A F code)
    (hb : Body img m A F b σ₀ σ)
    (hrest : ∀ σ', Body img m A F b σ₀ σ' → (contract img m A F b σ₀).Guards rest σ') :
    (contract img m A F b σ₀).Guards (code.map .instr ++ rest) σ := by
  induction h generalizing σ with
  | nil => exact hrest σ hb
  | @compute i x code hi hx _ ih =>
    refine (Contract.guards_exec hi).mpr fun σ' hexec => ih (hb.write hx (fun y hy => ?_) ?_)
    · refine i.exec_get hexec ?_
      rw [hi]
      exact fun h => hy (Option.some.inj h).symm
    · refine i.exec_mem hexec ?_
      cases i <;> first | rfl | cases hi
  | @store p off code reg hp hoff _ ih =>
    rw [List.map_append, List.append_assoc]
    exact guards_storeOff hb.sp (.inr ⟨p, off, hoff, rfl⟩) fun σ' w hmem _ hk =>
      ih (hb.store he hA hp hoff hmem hk)
  | @global gid code reg hg _ ih =>
    refine (Contract.guards_exec rfl).mpr fun σ₁ h₁ => ?_
    cases h₁
    have hb₁ : Body img m A F b σ₀ (σ.set scratch1 (hi (img.sym (m.globalName gid)))) :=
      hb.write (bodyReg_scratch (by decide)) (fun y hy => σ.get_set_of_ne hy _) rfl
    have haddr : (σ.set scratch1 (hi (img.sym (m.globalName gid)))).get scratch1 +
        lo (img.sym (m.globalName gid)) = globalAddr m img gid := by
      rw [σ.get_set_self (by decide), hi_add_lo]
      rfl
    refine ⟨fun a ha => .inl ⟨gid, hg, ?_⟩, fun σ' hexec => ?_⟩
    · exact (Option.some.inj ha).symm.trans haddr
    · simp only [Instr.exec] at hexec
      split at hexec
      · cases hexec
        set σ₁ := σ.set scratch1 (hi (img.sym (m.globalName gid))) with hσ₁
        have hmem : (σ₁.store (σ₁.get scratch1 + lo (img.sym (m.globalName gid)))
            (σ₁.get reg)).mem = (σ₁.store (globalAddr m img gid) (σ₁.get reg)).mem := by
          rw [haddr]
        exact ih (hb₁.global he hA hg hmem fun _ => rfl)
      · cases hexec
  | call hleaf _ ih => exact fun w σ' hlaw => ih (hb.call he hA hleaf hlaw)

end Guards

/-! ## What the generator writes -/

section Emission

variable {m : IRModule} {A : Allocation} {F : IRFunc} {opt : Bool} {override : Option XReg}
  {inst : Inst}

theorem tame_storeSpill {v : Nat} (hv : v < F.numVregs) (hreg : A.reg v = none) (x : XReg) :
    Tame m A F (storeSpill (frameOf A F) A x v) := by
  have h := Tame.store (m := m) x (.inr rfl)
    (show Area.spill.Has (frameOf A F) A F.numVregs _ from ⟨v, hv, hreg, rfl⟩) .nil
  rwa [List.append_nil] at h

/-- The register for a result. -/
theorem bodyReg_dstReg (hA : A.Placed F.numVregs) (hover : ∀ x, override = some x → x = XReg.a0)
    (v : Nat) : BodyReg A (dstReg A override v scratch0) := by
  unfold dstReg
  cases override with
  | some x =>
    obtain rfl := hover x rfl
    exact bodyReg_arg 0 (by decide)
  | none =>
    cases hreg : A.reg v with
    | some x => exact bodyReg_reg hA hreg
    | none => exact bodyReg_scratch (by decide)

theorem tame_writeBack {v : Nat} (hv : override = none → v < F.numVregs) (x : XReg) :
    Tame m A F (writeBack (frameOf A F) A override v x) := by
  unfold writeBack
  split
  · rename_i h
    rw [Bool.and_eq_true, Option.isNone_iff_eq_none, Option.isNone_iff_eq_none] at h
    exact tame_storeSpill (hv h.1) h.2 x
  · exact .nil

theorem tame_toReg (v : Val) {scratch : XReg} (hs : scratch ∈ scratches) :
    Tame m A F (toReg (frameOf A F) A v scratch).1 := by
  refine tame_of_only (only_toReg v scratch) fun x hx => bodyReg_scratch ?_
  rcases List.mem_cons.mp hx with rfl | hx
  · exact hs
  · rw [List.mem_singleton.mp hx]
    decide

/-- An operation on one operand. -/
theorem tame_emitUnary (hA : A.Placed F.numVregs) (hover : ∀ x, override = some x → x = XReg.a0)
    {dst : Nat} (hdst : override = none → dst < F.numVregs) (v : Val)
    {code : XReg → XReg → List Instr} (hcode : ∀ rd ra, Only (rd :: scratches) (code rd ra)) :
    Tame m A F (emitUnary (frameOf A F) A override dst v code) := by
  unfold emitUnary
  refine ((tame_toReg v (by decide)).append (tame_of_only (hcode _ _) fun x hx => ?_)).append
    (tame_writeBack hdst _)
  rcases List.mem_cons.mp hx with rfl | hx
  · exact bodyReg_dstReg hA hover dst
  · exact bodyReg_scratch hx

/-- An operation on two registers. -/
theorem tame_emitGeneral (hA : A.Placed F.numVregs) (hover : ∀ x, override = some x → x = XReg.a0)
    (hdst : override = none → inst.dst.getD 0 < F.numVregs) :
    Tame m A F (emitGeneral (frameOf A F) A override inst) := by
  unfold emitGeneral
  refine (((tame_toReg _ (by decide)).append (tame_toReg _ (by decide))).append
    (tame_of_only (only_opCode _ _ _ _) fun x hx => ?_)).append (tame_writeBack hdst _)
  rw [List.mem_singleton.mp hx]
  exact bodyReg_dstReg hA hover _

theorem only_alui (iop : ImmOp) (rd ra : XReg) (i : Int) :
    Only (rd :: scratches) [.alui iop rd ra i] := by
  simp [Instr.rd?]

/-- A binary operation. -/
theorem tame_emitBinary (hA : A.Placed F.numVregs) (hover : ∀ x, override = some x → x = XReg.a0)
    (hdst : override = none → inst.dst.getD 0 < F.numVregs) :
    Tame m A F (emitBinary opt (frameOf A F) A override inst) := by
  have hgeneral : Tame m A F (emitGeneral (frameOf A F) A override inst) :=
    tame_emitGeneral hA hover hdst
  have hunary : ∀ (v : Val) {code : XReg → XReg → List Instr},
      (∀ rd ra, Only (rd :: scratches) (code rd ra)) →
      Tame m A F (emitUnary (frameOf A F) A override (inst.dst.getD 0) v code) := fun v _ hcode =>
    tame_emitUnary hA hover hdst v hcode
  have hmul : ∀ c rd ra, Only (rd :: scratches) (emitMulConst rd ra c) := fun c rd ra =>
    (only_emitMulConst rd ra c).mono (by simp [scratches])
  unfold emitBinary
  dsimp only
  split
  · split
    · exact hunary _ fun rd ra => only_alui _ _ _ _
    · exact hunary _ fun rd ra => only_alui _ _ _ _
    · exact hgeneral
  · split
    · exact hunary _ fun rd ra => only_alui _ _ _ _
    · exact hgeneral
  · split
    · exact hunary _ fun rd ra => only_alui _ _ _ _
    · exact hgeneral
  · split
    · exact hunary _ fun rd ra => only_alui _ _ _ _
    · exact hgeneral
  · split
    · exact hunary _ fun rd ra => by simp [Instr.rd?]
    · exact hgeneral
  · split
    · exact hunary _ (hmul _)
    · exact hunary _ (hmul _)
    · exact hgeneral
  · split
    · exact hunary _ fun rd ra =>
        (only_emitDivConst _ _ rd ra _).mono (by simp [divTemps, scratches])
    · exact hgeneral
  · split
    · exact hunary _ fun rd ra =>
        (only_emitModConst _ _ rd ra _).mono (by simp [divTemps, scratches])
    · exact hgeneral
  · exact hgeneral

/-! ### Calls -/

theorem tame_stackArgs {vs : List Val} {k : Nat} (hk : (k + vs.length) * 4 ≤ (frameOf A F).outArgArea) :
    Tame m A F (stackArgs (frameOf A F) A k vs) := by
  induction vs generalizing k with
  | nil => exact .nil
  | cons v vs ih =>
    rw [List.length_cons] at hk
    unfold stackArgs
    refine (ih (by omega)).append
      ((tame_of_only (only_materialize v scratch0) fun x hx => ?_).append ?_)
    · exact bodyReg_scratch ((by decide : ∀ x ∈ [scratch0, XReg.a7], x ∈ scratches) x hx)
    · have h := Tame.store (m := m) (A := A) (F := F) scratch0 (.inl rfl)
        (show Area.outgoing.Has (frameOf A F) A F.numVregs (k * 4) from by
          unfold Area.Has
          omega) .nil
      rwa [List.append_nil] at h

theorem tame_regArgs {vs : List Val} {k : Nat} (hk : k + vs.length ≤ 8) :
    Tame m A F (regArgs (frameOf A F) A (XReg.a0 + k) vs) := by
  induction vs generalizing k with
  | nil => exact .nil
  | cons v vs ih =>
    rw [List.length_cons] at hk
    unfold regArgs
    refine (tame_of_only (only_materialize v _) fun x hx => ?_).append (ih (k := k + 1) (by omega))
    rcases List.mem_cons.mp hx with rfl | hx
    · exact bodyReg_arg k (by omega)
    · rw [List.mem_singleton.mp hx]
      exact bodyReg_scratch (by decide)

theorem tame_callResult (hA : A.Placed F.numVregs) (hover : ∀ x, override = some x → x = XReg.a0)
    (hdst : ∀ d, inst.dst = some d → d < F.numVregs) :
    Tame m A F (callResult (frameOf A F) A override inst.dst) := by
  unfold callResult
  cases hd : inst.dst with
  | none => exact .nil
  | some d =>
    dsimp only
    cases hloc : override.or (A.reg d) with
    | none =>
      exact tame_storeSpill (hdst d hd) (Option.or_eq_none_iff.mp hloc).2 _
    | some x =>
      dsimp only
      split
      · refine .compute (x := x) rfl ?_ .nil
        have h := bodyReg_dstReg hA hover d
        unfold dstReg at h
        rwa [hloc] at h
      · exact .nil

/-- **The code of an instruction is code of the body.** -/
theorem tame_emitInst (hA : A.Placed F.numVregs) (hin : inst.InRange F.numVregs)
    (hgid : inst.op = .LoadGlobal ∨ inst.op = .StoreGlobal → inst.gid < m.globals.length)
    (hleaf : inst.op = .Call → A.isLeaf = false) (hargs : inst.stackArgs ≤ F.maxStackArgs)
    (hover : ∀ x, override = some x → x = XReg.a0) :
    Tame m A F (emitInst m opt (frameOf A F) A override inst) := by
  have hdst : inst.op ≠ .Call → inst.op ≠ .StoreGlobal → override = none →
      inst.dst.getD 0 < F.numVregs := fun hcall hstore _ => by
    obtain ⟨d, hd⟩ := hin.exists_dst hcall hstore
    rw [hd]
    exact hin.dst_lt hd
  have hrd := bodyReg_dstReg hA hover (inst.dst.getD 0)
  unfold emitInst
  cases hop : inst.op with
  | Mv =>
    rw [hop] at hdst
    refine (tame_of_only (only_materialize _ _) fun x hx => ?_).append
      (tame_writeBack (hdst (by simp) (by simp)) _)
    rcases List.mem_cons.mp hx with rfl | hx
    · exact hrd
    · rw [List.mem_singleton.mp hx]
      exact bodyReg_scratch (by decide)
  | LoadGlobal =>
    rw [hop] at hdst
    exact Tame.append (.compute rfl hrd (.compute rfl hrd .nil))
      (tame_writeBack (hdst (by simp) (by simp)) _)
  | StoreGlobal => exact (tame_toReg _ (by decide)).append (.global _ (hgid (.inr hop)) .nil)
  | Neg =>
    rw [hop] at hdst
    exact tame_emitUnary hA hover (hdst (by simp) (by simp)) _ fun rd ra => by simp [Instr.rd?]
  | Not =>
    rw [hop] at hdst
    exact tame_emitUnary hA hover (hdst (by simp) (by simp)) _ fun rd ra => only_alui _ _ _ _
  | Call =>
    have hstack : (0 + (inst.args.drop 8).length) * 4 ≤ (frameOf A F).outArgArea := by
      unfold Inst.stackArgs at hargs
      rw [if_pos hop] at hargs
      show _ ≤ F.maxStackArgs * 4
      rw [List.length_drop]
      omega
    have hreg : 0 + (inst.args.take 8).length ≤ 8 := by
      rw [List.length_take]
      omega
    exact (((tame_stackArgs hstack).append (tame_regArgs hreg)).append
      (.call (hleaf hop) .nil)).append (tame_callResult hA hover fun d hd => hin.dst_lt hd)
  | _ =>
    rw [hop] at hdst
    exact tame_emitBinary hA hover (hdst (by simp) (by simp))

end Emission

/-! ## Blocks keep to the contract -/

/-- **What is known of the code of a function.** -/
structure Emitted (m : IRModule) (A : Allocation) (F : IRFunc) : Prop where
  fits : FuncFits m F
  placed : A.Placed F.numVregs
  leaf : ∀ bb ∈ F.blocks, ∀ inst ∈ bb.insts, inst.op = .Call → A.isLeaf = false

section Blocks

variable {img : Image} {m : IRModule} {opt : Bool} {A : Allocation} {F : IRFunc} {b : BitVec 32}
  {σ₀ σ : Data} {blk : Nat} {bs bs' : List Nat} {items : List Item}

/-- **What ends a block**: code of the body, and then a jump to a successor, a branch, or the end of
the function; a successor that comes next is not jumped to. -/
inductive Ends (m : IRModule) (A : Allocation) (F : IRFunc) (bb : BasicBlock) (next : Option Nat) :
    List Instr → Prop where
  | falls {s : Nat} (hs : s ∈ succsOf bb) (hnext : some s = next) : Ends m A F bb next []
  | jump {s : Nat} (hs : s ∈ succsOf bb) : Ends m A F bb next [.j (F.label s)]
  | branch {code tail : List Instr} {c : Cmp} {x y : XReg} {s : Nat} (hcode : Tame m A F code)
      (hs : s ∈ succsOf bb) (htail : Ends m A F bb next tail) :
      Ends m A F bb next (code ++ .branch c x y (F.label s) :: tail)
  | ret {code : List Instr} (hcode : Tame m A F code) :
      Ends m A F bb next (code ++ emitEpilogue (frameOf A F) A)

/-- The instructions that are emitted by themselves. -/
theorem tame_insts (hE : Emitted m A F) {bb : BasicBlock} (hbb : bb ∈ F.blocks)
    {override : Option XReg} (hover : ∀ x, override = some x → x = XReg.a0) {insts : List Inst}
    (hinsts : ∀ inst ∈ insts, inst ∈ bb.insts) :
    Tame m A F (insts.flatMap (emitInst m opt (frameOf A F) A override)) := by
  induction insts with
  | nil => exact .nil
  | cons inst insts ih =>
    have hi := hinsts inst List.mem_cons_self
    rw [List.flatMap_cons]
    exact (tame_emitInst hE.placed (hE.fits.inRange.insts bb hbb inst hi)
      (hE.fits.gids bb hbb inst hi) (hE.leaf bb hbb inst hi) (IRFunc.stackArgs_le hbb hi)
      hover).append (ih fun i h => hinsts i (List.mem_cons_of_mem _ h))

/-- **The epilogue restores** what the body kept. -/
theorem guards_epilogue (hE : Emitted m A F) (he : Entry img m A F b σ₀)
    (hb : Body img m A F b σ₀ σ) :
    (contract img m A F b σ₀).Guards ((emitEpilogue (frameOf A F) A).map .instr ++ items) σ := by
  unfold emitEpilogue
  rw [List.map_append, List.append_assoc]
  refine Contract.guards_execs only_restore.exists_rd fun σ' hexecs => ?_
  obtain ⟨σ₁, hexecs₁, hmem, hsp, hsaved, hra, hk⟩ :=
    restore_does (frameOf_laid A F) hE.placed he.frame.aligned hb.sp
  cases Outcome.ok.inj (hexecs.symm.trans hexecs₁)
  have hne : ∀ x, isCalleeSaved x = true → x ∉ A.usedCallee →
      x ∉ XReg.a7 :: XReg.t6 :: XReg.sp :: XReg.ra :: A.usedCallee := by
    intro x hs hx hmem
    simp only [List.mem_cons] at hmem
    rcases hmem with rfl | rfl | rfl | rfl | hmem
    · cases hs
    · cases hs
    · cases hs
    · cases hs
    · exact hx hmem
  refine ⟨fun x hx => ?_, fun a ha hle => ?_⟩
  · rcases hx with rfl | rfl | hs
    · rw [hsp, he.top]
    · exact hra.trans hb.ra
    · by_cases hx : x ∈ A.usedCallee
      · obtain ⟨k, hk⟩ := List.getElem?_of_mem hx
        rw [hsaved k x hk, hb.saved k x hk]
      · rw [hk x (hne x hs hx), hb.regs x hs hx]
  · rw [hmem, hb.mem a ha hle]

/-- A block that comes next is fallen into. -/
theorem guards_falls (hf : FuncAt img m opt A F) (hbs : ∀ s ∈ bs, s ∈ order F) {s : Nat}
    (hs : some s = bs.head?) (hb : Body img m A F b σ₀ σ) :
    (contract img m A F b σ₀).Guards (emitBlocks m opt (frameOf A F) A F bs ++ items) σ := by
  obtain ⟨ss, rfl⟩ : ∃ ss, bs = s :: ss := by
    cases bs with
    | nil => cases hs
    | cons s' ss =>
      obtain rfl := Option.some.inj hs
      exact ⟨ss, rfl⟩
  have hmem := hbs s List.mem_cons_self
  exact ⟨s, hmem, by rw [IRFunc.blockAt_id hf.ids (mem_order_lt hmem)], hb⟩

/-- **A branch**, in its three shapes. -/
theorem ends_branch {bb : BasicBlock} {next : Option Nat} {s₀ s₁ : Nat} (hs₀ : s₀ ∈ succsOf bb)
    (hs₁ : s₁ ∈ succsOf bb) {code : String → Bool → List Instr}
    (hcode : ∀ l negate, ∃ loads c x y, code l negate = loads ++ [Instr.branch c x y l] ∧
      Tame m A F loads) :
    Ends m A F bb next (if some s₁ = next then code (F.label s₀) false
      else if some s₀ = next then code (F.label s₁) true
      else code (F.label s₀) false ++ [.j (F.label s₁)]) := by
  have hbranch : ∀ {s negate tail}, s ∈ succsOf bb → Ends m A F bb next tail →
      Ends m A F bb next (code (F.label s) negate ++ tail) := by
    intro s negate tail hs htail
    obtain ⟨loads, c, x, y, hloads, htame⟩ := hcode (F.label s) negate
    rw [hloads, List.append_assoc]
    exact .branch htame hs htail
  split
  · rename_i hnext
    have h := @hbranch s₀ false [] hs₀ (.falls hs₁ hnext)
    rwa [List.append_nil] at h
  · split
    · rename_i hnext
      have h := @hbranch s₁ true [] hs₁ (.falls hs₀ hnext)
      rwa [List.append_nil] at h
    · exact hbranch hs₀ (.jump hs₁)

/-- **The code of a terminator ends a block.** -/
theorem ends_emitTerm (hE : Emitted m A F) {bb : BasicBlock} (hbb : bb ∈ F.blocks)
    (next : Option Nat) :
    Ends m A F bb next
      (emitTerm m opt (frameOf A F) A F bb next (fusedCmp F bb) (fusedRet F bb)) := by
  unfold emitTerm
  cases hterm : bb.term with
  | None => exact .ret .nil
  | Jmp =>
    have hs₀ : bb.succ0 ∈ succsOf bb := by simp [succsOf, hterm]
    dsimp only
    split
    · exact .jump hs₀
    · rename_i hnext
      exact .falls hs₀ (not_not.mp hnext)
  | Br =>
    have hs₀ : bb.succ0 ∈ succsOf bb := by simp [succsOf, hterm]
    have hs₁ : bb.succ1 ∈ succsOf bb := by simp [succsOf, hterm]
    dsimp only
    cases hfused : fusedCmp F bb with
    | some last =>
      unfold fusedCmp at hfused
      rw [if_pos hterm] at hfused
      obtain ⟨-, -, hp⟩ := eq_append_of_filter hfused
      have hop := (Bool.and_eq_true _ _ ▸ hp).1
      refine ends_branch hs₀ hs₁ fun l negate => ?_
      obtain ⟨c, x, y, hcode, -⟩ := emitBranchCmp_eq (A := A) hop last.a last.b l
        negate
      exact ⟨_, c, x, y, hcode, (tame_toReg _ (by decide)).append (tame_toReg _ (by decide))⟩
    | none =>
      have hcode : ∀ (l : String) (negate : Bool), ∃ loads c x y,
          (toReg (frameOf A F) A bb.cond scratch0).1 ++
            [Instr.branch (if negate then .beq else .bne)
              (toReg (frameOf A F) A bb.cond scratch0).2 0 l] =
            loads ++ [Instr.branch c x y l] ∧ Tame m A F loads := fun l negate =>
        ⟨_, _, _, _, rfl, tame_toReg _ (by decide)⟩
      have hends := @ends_branch m A F bb next _ _ hs₀ hs₁ _ hcode
      dsimp only at hends ⊢
      convert hends using 1
      split
      · rfl
      · split
        · rfl
        · rw [List.append_assoc]
          rfl
  | Ret =>
    dsimp only
    refine .ret ?_
    cases hfused : fusedRet F bb with
    | some last =>
      unfold fusedRet at hfused
      split at hfused
      · obtain ⟨init, hinsts, -⟩ := eq_append_of_filter hfused
        have htame : Tame m A F
            ([last].flatMap (emitInst m opt (frameOf A F) A (some XReg.a0))) :=
          tame_insts hE hbb (fun x hx => (Option.some.inj hx).symm) fun i hi => by
            rw [hinsts, List.mem_singleton.mp hi]
            simp
        rwa [List.flatMap_cons, List.flatMap_nil, List.append_nil] at htame
      · cases hfused
    | none =>
      dsimp only
      split
      · refine tame_of_only (only_materialize _ _) fun x hx => ?_
        rcases List.mem_cons.mp hx with rfl | hx
        · exact bodyReg_arg 0 (by decide)
        · rw [List.mem_singleton.mp hx]
          exact bodyReg_scratch (by decide)
      · exact .nil

/-- **What ends a block keeps to the contract.** -/
theorem Ends.guards (hE : Emitted m A F) (hf : FuncAt img m opt A F) (he : Entry img m A F b σ₀)
    (horder : order F = bs ++ blk :: bs') {code : List Instr}
    (h : Ends m A F (F.blockAt blk) bs'.head? code) (hb : Body img m A F b σ₀ σ) :
    (contract img m A F b σ₀).Guards
      (code.map .instr ++ (emitBlocks m opt (frameOf A F) A F bs' ++ items)) σ := by
  have hin : ∀ {s}, s ∈ succsOf (F.blockAt blk) → s ∈ order F := fun hs =>
    succ_mem_order hE.fits.inRange.succs_lt (by rw [horder]; simp) hs
  induction h generalizing σ with
  | falls hs hnext => exact guards_falls hf (fun s hs => by rw [horder]; simp [hs]) hnext hb
  | jump hs => exact ⟨_, hin hs, rfl, hb⟩
  | branch hcode hs _ ih =>
    rw [List.map_append, List.append_assoc]
    exact hcode.guards he hE.placed hb fun σ' hb' => ⟨⟨_, hin hs, rfl, hb'⟩, ih hb'⟩
  | ret hcode =>
    rw [List.map_append, List.append_assoc]
    exact hcode.guards he hE.placed hb fun σ' hb' => guards_epilogue hE he hb'

/-- The code of a block: code of the body, and what ends it. -/
theorem blockCode_eq (hE : Emitted m A F) {bb : BasicBlock} (hbb : bb ∈ F.blocks)
    (next : Option Nat) :
    ∃ code tail, blockCode m opt (frameOf A F) A F bb next = code ++ tail ∧ Tame m A F code ∧
      Ends m A F bb next tail := by
  refine ⟨_, _, rfl, tame_insts hE hbb (fun x hx => by cases hx) fun inst hi => ?_,
    ends_emitTerm hE hbb next⟩
  unfold plainInsts at hi
  split at hi
  · exact List.mem_of_mem_dropLast hi
  · exact hi

/-- **A block keeps to the contract.** -/
theorem guards_blockCode (hE : Emitted m A F) (hf : FuncAt img m opt A F)
    (he : Entry img m A F b σ₀) (horder : order F = bs ++ blk :: bs')
    (hb : Body img m A F b σ₀ σ) :
    (contract img m A F b σ₀).Guards
      ((blockCode m opt (frameOf A F) A F (F.blockAt blk) bs'.head?).map .instr ++
        (emitBlocks m opt (frameOf A F) A F bs' ++ items)) σ := by
  have hmem : blk ∈ order F := by
    rw [horder]
    simp
  have hbb : F.blockAt blk ∈ F.blocks :=
    IRFunc.blockAt_mem (mem_order_lt hmem)
  obtain ⟨code, tail, hcode, htame, hends⟩ := blockCode_eq (m := m) hE hbb bs'.head?
  rw [hcode, List.map_append, List.append_assoc]
  exact htame.guards he hE.placed hb fun σ' hb' => hends.guards hE hf he horder hb'

/-- **What holds at the labels guards the blocks.** -/
theorem contract_valid (hE : Emitted m A F) (hf : FuncAt img m opt A F)
    (he : Entry img m A F b σ₀) : (contract img m A F b σ₀).Valid img := by
  rintro i l σ hi ⟨blk, hmem, rfl, hb⟩
  obtain ⟨bs, bs', horder⟩ := List.append_of_mem hmem
  obtain ⟨j, ht, hat⟩ := hf.block horder
  have hi' : img.At i [.label (F.label blk)] := by
    obtain ⟨hlt, hitem⟩ := List.getElem?_eq_some_iff.mp hi
    refine ⟨img.items.drop (i + 1), ?_⟩
    rw [List.drop_eq_getElem_cons hlt, hitem]
    rfl
  obtain rfl : i = j := Option.some.inj ((hi'.target (hf.once blk hmem)).symm.trans ht)
  obtain ⟨items, hitems⟩ := hat.tail
  rw [← hitems, List.append_assoc]
  exact guards_blockCode hE hf he horder hb

end Blocks

end OptCodeGen

end ToyC
