import ToyC.OptBlocks
import ToyC.OptExec
import ToyC.OptFrame
import ToyC.IRRuns
import ToyC.NaiveCorrect
import ToyC.Lib.Paths

/-!
# The optimized code inside a block

At every point of a function's execution the place of a live vreg holds its value, and the
globals hold theirs (`Holds`). The code of an instruction takes the machine from one such
point to the next. For calls and for divisions by a constant that is an assumption here
(`Given`); for the others it follows from what their code does.
-/

namespace ToyC

open Rv32

namespace OptCodeGen

open NaiveCodeGen (GlobalsPlaced HoldsGlobals globalAddr)

/-! ## Places -/

/-- **One place is written**, and nothing else changes but the registers no vreg is in. -/
structure Writes (p : Place) (w : Word) (σ σ' : Data) : Prop where
  held : p.read σ' = w
  regs : ∀ x, x ∉ scratches → p ≠ .inl x → σ'.get x = σ.get x
  mem : ∀ a, p ≠ .inr a → σ'.mem a = σ.mem a

section Places

variable {p q : Place} {w : Word} {σ σ₁ σ' : Data} {fr : Frame} {A : Allocation}
  {b : BitVec 32} {nv : Nat}

theorem mem_scratches_of_temps {x : XReg} (h : x ∈ temps) : x ∈ scratches := by
  revert x
  decide

theorem Assigns.writes (h : Assigns p w σ σ') : Writes p w σ σ' where
  held := h.held
  regs x hx := h.regs x fun hmem => hx (mem_scratches_of_temps hmem)
  mem := h.mem

/-- Before that, the registers no vreg is in may have changed, and the place itself. -/
theorem Assigns.writes_after (h : Assigns p w σ₁ σ') {rd : XReg} (hmem : σ₁.mem = σ.mem)
    (hk : Keeps (rd :: scratches) σ σ₁) (hrd : rd ∈ scratches ∨ p = .inl rd) :
    Writes p w σ σ' where
  held := h.held
  regs x hx hp := by
    refine (h.writes.regs x hx hp).trans (hk x fun hmem => ?_)
    rcases List.mem_cons.mp hmem with rfl | hmem
    · exact hrd.elim hx hp
    · exact hx hmem
  mem a ha := (h.mem a ha).trans (congrFun hmem a)

/-- What the places of vregs hold afterwards. -/
theorem Writes.read (h : Writes p w σ σ') (hq : ∀ x, q = .inl x → x ∉ scratches) :
    q.read σ' = if p = q then w else q.read σ := by
  split
  · rename_i hpq
    exact hpq ▸ h.held
  · rename_i hpq
    cases q with
    | inl x => exact h.regs x (hq x rfl) hpq
    | inr a => exact h.mem a hpq

/-- **The place of a vreg**, in a frame at an address. -/
def place (fr : Frame) (A : Allocation) (b : BitVec 32) (v : Nat) : Place :=
  match A.reg v with
  | some x => .inl x
  | none => .inr (slotAddr fr A b v)

theorem place_reg {v : Nat} {x : XReg} (h : A.reg v = some x) : place fr A b v = .inl x := by
  unfold place
  rw [h]

theorem place_slot {v : Nat} (h : A.reg v = none) :
    place fr A b v = .inr (slotAddr fr A b v) := by
  unfold place
  rw [h]

theorem locs_eq_read (hsp : σ.get XReg.sp = b) (v : Nat) :
    locs fr A σ v = (place fr A b v).read σ := by
  cases h : A.reg v with
  | some x =>
    rw [locs_reg h, place_reg h]
    rfl
  | none =>
    rw [locs_slot h, place_slot h, hsp]
    rfl

/-- The place of a vreg is no scratch register. -/
theorem place_notMem {v : Nat} (hv : A.Locates v) {x : XReg} (h : place fr A b v = .inl x) :
    x ∈ allocatable := by
  rcases hv with ⟨y, hy, hreg⟩ | ⟨hreg, -⟩
  · rw [place_reg hreg] at h
    exact Sum.inl.inj h ▸ hy
  · rw [place_slot hreg] at h
    cases h

/-- **Vregs in one place have one location.** -/
theorem loc_eq_of_place {behind : Nat} (hfr : fr.Laid A) (hA : A.Placed nv)
    (hb : fr.At b behind) {v u : Nat} (hv : v < nv) (hu : u < nv)
    (h : place fr A b v = place fr A b u) : A.loc v = A.loc u := by
  have hle := hfr.calleeBase_le
  cases hregv : A.reg v with
  | some x =>
    rw [place_reg hregv] at h
    cases hregu : A.reg u with
    | some y =>
      rw [place_reg hregu] at h
      simp only [Allocation.loc, hregv, hregu, Sum.inl.inj h]
    | none =>
      rw [place_slot hregu] at h
      cases h
  | none =>
    rw [place_slot hregv] at h
    cases hregu : A.reg u with
    | some y =>
      rw [place_reg hregu] at h
      cases h
    | none =>
      rw [place_slot hregu] at h
      obtain ⟨-, -, hv'⟩ := spillOff_lt hfr hA hv hregv
      obtain ⟨-, -, hu'⟩ := spillOff_lt hfr hA hu hregu
      have hoff : spillOff fr A v = spillOff fr A u := by
        by_contra hne
        exact hb.cell_ne (by omega) (by omega) hne (Sum.inr.inj h)
      rw [spillOff_inj hA hv hu hregv hregu hoff]

/-- Where the code of an instruction leaves its result. -/
theorem target_eq_place {m : IRModule} {sym : String → BitVec 32} {inst : Inst} {d : Nat}
    (hop : inst.op ≠ .StoreGlobal) (hd : inst.dst = some d) (hsp : σ.get XReg.sp = b) :
    target m sym fr A none inst σ = place fr A b d := by
  unfold target place
  rw [if_neg hop, hd, Option.none_or, Option.getD_some]
  cases A.reg d with
  | some x => rfl
  | none => exact congrArg (fun b => Sum.inr (cell b (spillOff fr A d))) hsp

theorem target_a0 {m : IRModule} {sym : String → BitVec 32} {inst : Inst}
    (hop : inst.op ≠ .StoreGlobal) :
    target m sym fr A (some XReg.a0) inst σ = .inl XReg.a0 := by
  unfold target
  rw [if_neg hop]
  rfl

end Places

/-! ## Points of an execution -/

/-- **A function the generator takes**: indices in range. -/
structure FuncFits (m : IRModule) (F : IRFunc) : Prop where
  inRange : F.InRange
  gids : ∀ bb ∈ F.blocks, ∀ inst ∈ bb.insts,
    inst.op = .LoadGlobal ∨ inst.op = .StoreGlobal → inst.gid < m.globals.length

/-- **Where a function runs**: its frame at an address, with the globals elsewhere. -/
structure Site (img : Image) (m : IRModule) (A : Allocation) (F : IRFunc) (b : BitVec 32) :
    Prop where
  frame : (frameOf A F).At b 0
  globals : GlobalsPlaced m img
  apart : ∀ gid < m.globals.length, ∀ off < (frameOf A F).frameSize,
    cell b off ≠ globalAddr m img gid

/-- A function, its allocation and the place where it runs. -/
structure Ready (img : Image) (m : IRModule) (A : Allocation) (F : IRFunc) (b : BitVec 32) :
    Prop where
  fits : FuncFits m F
  valid : A.Valid F
  placed : A.Placed F.numVregs
  site : Site img m A F b

/-- **A machine that matches a point of a function's execution**: the places of the live vregs
hold their values, and memory holds the globals. -/
structure Holds (img : Image) (m : IRModule) (A : Allocation) (F : IRFunc) (b : BitVec 32)
    (c : Config) (σ : Data) : Prop where
  lt : c.block < F.blocks.length
  done : ∃ done, (F.blockAt c.block).insts = done ++ c.rest
  sp : σ.get XReg.sp = b
  live : ∀ v, F.LiveAt c.block c.rest v → locs (frameOf A F) A σ v = c.regs v
  globals : HoldsGlobals m img c.globals σ.mem

section Holds

variable {img : Image} {m : IRModule} {A : Allocation} {F : IRFunc} {b : BitVec 32}
  {blk : Nat} {rest : List Inst} {inst : Inst} {R : Regs} {G : Globals} {σ σ₁ σ' : Data}

theorem Holds.lt_of_live {c : Config} (h : Holds img m A F b c σ) (hF : F.InRange) {v : Nat}
    (hv : F.LiveAt c.block c.rest v) : v < F.numVregs := by
  obtain ⟨done, hdone⟩ := h.done
  refine hv.lt hF h.lt fun i hi => ?_
  rw [hdone]
  exact List.mem_append_right _ hi

theorem Holds.mem_blocks {c : Config} (h : Holds img m A F b c σ) :
    F.blockAt c.block ∈ F.blocks :=
  IRFunc.blockAt_mem h.lt

/-- The next instruction is one of the block. -/
theorem Holds.mem_insts (h : Holds img m A F b ⟨blk, inst :: rest, R, G⟩ σ) :
    inst ∈ (F.blockAt blk).insts := by
  obtain ⟨done, hdone⟩ := h.done
  rw [hdone]
  simp

theorem Holds.done_tail (h : Holds img m A F b ⟨blk, inst :: rest, R, G⟩ σ) :
    ∃ done, (F.blockAt blk).insts = done ++ rest := by
  obtain ⟨done, hdone⟩ := h.done
  exact ⟨done ++ [inst], by simp [hdone]⟩

theorem Holds.aligned {c : Config} (h : Holds img m A F b c σ) (hr : Ready img m A F b) :
    SlotsAligned (frameOf A F) σ where
  base := Nat.dvd_mul_left 4 _
  sp := by
    rw [h.sp]
    exact hr.site.frame.aligned

/-- The registers no vreg is in do not matter. -/
theorem Holds.of_keeps {c : Config} (h : Holds img m A F b c σ) (hr : Ready img m A F b)
    (hmem : σ'.mem = σ.mem) (hk : Keeps scratches σ σ') : Holds img m A F b c σ' where
  lt := h.lt
  done := h.done
  sp := (hk _ (by decide)).trans h.sp
  live v hv := (locs_of_keeps (hr.placed.locates (h.lt_of_live hr.fits.inRange hv)) hmem hk).trans
    (h.live v hv)
  globals := by
    rw [hmem]
    exact h.globals

/-- Writing the place of a vreg leaves the globals alone. -/
theorem Ready.globals_of_writes (hr : Ready img m A F b) (h : HoldsGlobals m img G σ.mem) {d : Nat}
    (hd : d < F.numVregs) {w : Word} (hw : Writes (place (frameOf A F) A b d) w σ σ') :
    HoldsGlobals m img G σ'.mem := by
  intro gid hg
  rw [hw.mem, h gid hg]
  intro hp
  cases hreg : A.reg d with
  | some x =>
    rw [place_reg hreg] at hp
    cases hp
  | none =>
    rw [place_slot hreg] at hp
    have hle := (frameOf_laid A F).calleeBase_le
    obtain ⟨-, -, hoff⟩ := spillOff_lt (frameOf_laid A F) hr.placed hd hreg
    exact hr.site.apart gid hg _ (by omega) (Sum.inr.inj hp)

/-- **Writing the result of an instruction** to its place, when the vregs live behind the
instruction are in theirs. -/
theorem Holds.write (hr : Ready img m A F b) (h : Holds img m A F b ⟨blk, inst :: rest, R, G⟩ σ)
    {d : Nat} (hd : inst.dst = some d) {w : Word}
    (hmove : inst.isMove = true → w = inst.a.eval R) (hsp : σ₁.get XReg.sp = b)
    (hlive : ∀ v, F.LiveAt blk rest v → v ≠ d → locs (frameOf A F) A σ₁ v = R v) {G' : Globals}
    (hglobals : HoldsGlobals m img G' σ₁.mem)
    (hw : Writes (place (frameOf A F) A b d) w σ₁ σ') :
    Holds img m A F b ⟨blk, rest, R.set d w, G'⟩ σ' := by
  have hF := hr.fits.inRange
  have hdlt : d < F.numVregs := (hF.insts _ h.mem_blocks inst h.mem_insts).dst_lt hd
  have hspreg : place (frameOf A F) A b d ≠ .inl XReg.sp := fun hp => by
    have := place_notMem (hr.placed.locates hdlt) hp
    revert this
    decide
  have hsp' : σ'.get XReg.sp = b := (hw.regs _ (by decide) hspreg).trans hsp
  refine ⟨h.lt, h.done_tail, hsp', fun v hv => ?_, hr.globals_of_writes hglobals hdlt hw⟩
  obtain ⟨done, hdone⟩ := h.done
  have hvlt : v < F.numVregs := hv.lt hF h.lt fun i hi => by
    rw [hdone]
    exact List.mem_append_right _ (List.mem_cons_of_mem _ hi)
  rw [locs_eq_read hsp', hw.read fun x hx =>
    notMem_scratches (place_notMem (hr.placed.locates hvlt) hx)]
  by_cases hvd : v = d
  · rw [if_pos (by rw [hvd]), hvd]
    exact (R.set_same d w).symm
  · show _ = R.set d w v
    rw [R.set_of_ne w hvd, ← hlive v hv hvd, locs_eq_read hsp]
    split
    · -- Only the source of a copy may share the place.
      rename_i hplace
      have hloc := loc_eq_of_place (frameOf_laid A F) hr.placed hr.site.frame hvlt hdlt hplace.symm
      obtain ⟨hm, ha⟩ := hr.valid.writes blk h.lt done inst rest hdone d v hd hv hvd hloc
      rw [← locs_eq_read hsp, hlive v hv hvd, hmove hm, ha]
      rfl
    · rfl

/-- **Writing a global.** -/
theorem Holds.store (hr : Ready img m A F b) (h : Holds img m A F b ⟨blk, inst :: rest, R, G⟩ σ)
    (hd : inst.dst = none) (hg : inst.gid < m.globals.length) {w : Word}
    (hw : Writes (.inr (globalAddr m img inst.gid)) w σ σ') :
    Holds img m A F b ⟨blk, rest, R, G.set inst.gid w⟩ σ' := by
  have hsp' : σ'.get XReg.sp = b := (hw.regs _ (by decide) Sum.inr_ne_inl).trans h.sp
  refine ⟨h.lt, h.done_tail, hsp', fun v hv => ?_, fun gid hgid => ?_⟩
  · have hv' : F.LiveAt blk (inst :: rest) v := .pass (by simp [hd]) hv
    have hvlt := h.lt_of_live hr.fits.inRange hv'
    rw [← h.live v hv', locs_eq_read hsp', locs_eq_read h.sp, hw.read fun x hx =>
      notMem_scratches (place_notMem (hr.placed.locates hvlt) hx), if_neg]
    intro hp
    cases hreg : A.reg v with
    | some x =>
      rw [place_reg hreg] at hp
      cases hp
    | none =>
      rw [place_slot hreg] at hp
      have hle := (frameOf_laid A F).calleeBase_le
      obtain ⟨-, -, hoff⟩ := spillOff_lt (frameOf_laid A F) hr.placed hvlt hreg
      exact hr.site.apart _ hg _ (by omega) (Sum.inr.inj hp).symm
  · show σ'.mem (globalAddr m img gid) = Globals.set G inst.gid w gid
    unfold Globals.set
    split
    · rename_i heq
      rw [heq]
      exact hw.held
    · rename_i hne
      rw [hw.mem _ fun hp => hr.site.globals.distinct gid hgid _ hg hne (Sum.inr.inj hp).symm]
      exact h.globals gid hgid

end Holds

/-! ## Instructions -/

/-- **What is taken as given** for an execution: that the code of a call, up to the jump and back,
leaves the returned value in `a0`, the other live vregs in their places and the globals in
memory, and that the code of a division by a constant leaves the quotient or the remainder in
the register it is meant for. -/
structure Given (img : Image) (m : IRModule) (opt : Bool) (A : Allocation) (F : IRFunc)
    (b : BitVec 32) (call : Callee) (c₀ : Config) : Prop where
  calls : ∀ {blk inst rest R G σ i v G'},
    Machine.Steps (F.step call) c₀ ⟨blk, inst :: rest, R, G⟩ → inst.op = .Call →
    Holds img m A F b ⟨blk, inst :: rest, R, G⟩ σ →
    img.At i ((callArgs (frameOf A F) A inst ++ [Instr.call inst.callee]).map .instr) →
    call ⟨inst.callee, inst.args.map (·.eval R), G⟩ = .ok (v, G') →
    ∃ σ', img.Steps ⟨i, σ⟩ ⟨i + (callArgs (frameOf A F) A inst ++ [Instr.call inst.callee]).length, σ'⟩ ∧
      (∀ w, v = some w → σ'.get XReg.a0 = w) ∧ σ'.get XReg.sp = b ∧
      (∀ u, F.LiveAt blk rest u → inst.dst ≠ some u → locs (frameOf A F) A σ' u = R u) ∧
      HoldsGlobals m img G' σ'.mem
  consts : ∀ {blk inst rest R G σ c rd ra},
    Machine.Steps (F.step call) c₀ ⟨blk, inst :: rest, R, G⟩ → opt = true → inst.b = .imm c →
    Holds img m A F b ⟨blk, inst :: rest, R, G⟩ σ → rd ∈ scratch0 :: XReg.a0 :: allocatable →
    ra ∉ divTemps → σ.get ra = inst.a.eval R →
    (inst.op = .Div → Leaves img.sym
      (emitDivConst (frameOf A F) A inst.magicVreg inst.unsignedDiv rd ra c) σ rd
      (Word.div (inst.a.eval R) c) (rd :: divTemps)) ∧
    (inst.op = .Mod → Leaves img.sym
      (emitModConst (frameOf A F) A inst.magicVreg inst.unsignedDiv rd ra c) σ rd
      (Word.rem (inst.a.eval R) c) (rd :: divTemps))

/-- **The same, where calls are followed by another relation** between points of the machine. -/
structure GivenVia (via : State → State → Prop) (img : Image) (m : IRModule) (opt : Bool)
    (A : Allocation) (F : IRFunc) (b : BitVec 32) (call : Callee) (c₀ : Config) : Prop where
  calls : ∀ {blk inst rest R G σ i v G'},
    Machine.Steps (F.step call) c₀ ⟨blk, inst :: rest, R, G⟩ → inst.op = .Call →
    Holds img m A F b ⟨blk, inst :: rest, R, G⟩ σ →
    img.At i ((callArgs (frameOf A F) A inst ++ [Instr.call inst.callee]).map .instr) →
    call ⟨inst.callee, inst.args.map (·.eval R), G⟩ = .ok (v, G') →
    ∃ σ', via ⟨i, σ⟩
        ⟨i + (callArgs (frameOf A F) A inst ++ [Instr.call inst.callee]).length, σ'⟩ ∧
      (∀ w, v = some w → σ'.get XReg.a0 = w) ∧ σ'.get XReg.sp = b ∧
      (∀ u, F.LiveAt blk rest u → inst.dst ≠ some u → locs (frameOf A F) A σ' u = R u) ∧
      HoldsGlobals m img G' σ'.mem
  consts : ∀ {blk inst rest R G σ c rd ra},
    Machine.Steps (F.step call) c₀ ⟨blk, inst :: rest, R, G⟩ → opt = true → inst.b = .imm c →
    Holds img m A F b ⟨blk, inst :: rest, R, G⟩ σ → rd ∈ scratch0 :: XReg.a0 :: allocatable →
    ra ∉ divTemps → σ.get ra = inst.a.eval R →
    (inst.op = .Div → Leaves img.sym
      (emitDivConst (frameOf A F) A inst.magicVreg inst.unsignedDiv rd ra c) σ rd
      (Word.div (inst.a.eval R) c) (rd :: divTemps)) ∧
    (inst.op = .Mod → Leaves img.sym
      (emitModConst (frameOf A F) A inst.magicVreg inst.unsignedDiv rd ra c) σ rd
      (Word.rem (inst.a.eval R) c) (rd :: divTemps))

theorem Given.via {img : Image} {m : IRModule} {opt : Bool} {A : Allocation} {F : IRFunc}
    {b : BitVec 32} {call : Callee} {c₀ : Config} (h : Given img m opt A F b call c₀) :
    GivenVia img.Steps img m opt A F b call c₀ :=
  ⟨h.calls, h.consts⟩

section Insts

variable {img : Image} {m : IRModule} {opt : Bool} {A : Allocation} {F : IRFunc} {b : BitVec 32}
  {call : Callee} {c₀ : Config} {blk : Nat} {rest : List Inst} {inst : Inst} {R R' : Regs}
  {G G' : Globals} {σ σ' : Data} {override : Option XReg} {via : State → State → Prop}

/-- Executing an instruction other than a call. -/
theorem exec_value (hF : inst.InRange F.numVregs) (hcall : inst.op ≠ .Call)
    (hexec : inst.exec call R G = .ok (R', G')) :
    (inst.op = .StoreGlobal ∧ inst.dst = none ∧ R' = R ∧
        G' = G.set inst.gid (inst.value R G)) ∨
      inst.op ≠ .StoreGlobal ∧ ∃ d, inst.dst = some d ∧ R' = R.set d (inst.value R G) ∧ G' = G := by
  rw [Inst.exec_eq hF, Inst.compute_eq call hcall] at hexec
  by_cases hop : inst.op = .StoreGlobal
  · obtain ⟨-, hdst⟩ := hF
    rw [hop] at hdst
    rw [if_pos hop, hdst] at hexec
    cases hexec
    exact .inl ⟨hop, hdst, rfl, rfl⟩
  · obtain ⟨d, hd⟩ := hF.exists_dst hcall hop
    rw [if_neg hop, hd] at hexec
    cases hexec
    exact .inr ⟨hop, d, hd, rfl, rfl⟩

/-- The operands of the next instruction are in their places. -/
theorem Holds.located (h : Holds img m A F b ⟨blk, inst :: rest, R, G⟩ σ)
    (hr : Ready img m A F b) {v : Val} (hv : v ∈ inst.operands) : ValLocated A v := fun _ hx =>
  hr.placed.locates ((hr.fits.inRange.insts _ h.mem_blocks inst h.mem_insts).1 _
    (Inst.mem_uses hv hx))

theorem Holds.eval (h : Holds img m A F b ⟨blk, inst :: rest, R, G⟩ σ) {v : Val}
    (hv : v ∈ inst.operands) : v.eval (locs (frameOf A F) A σ) = v.eval R :=
  Val.eval_congr fun _ hx => h.live _ (.read (Inst.mem_uses hv hx))

/-- **An instruction that is not given**, by its operation. -/
theorem Holds.selected (hr : Ready img m A F b)
    (h : Holds img m A F b ⟨blk, inst :: rest, R, G⟩ σ) (hsel : Selectable opt A override inst) :
    Does img.sym (emitInst m opt (frameOf A F) A override inst) σ
      (Assigns (target m img.sym (frameOf A F) A override inst σ)
        (inst.value (locs (frameOf A F) A σ) (globalsIn m img.sym σ)) σ) := by
  have hal := h.aligned hr
  have hglobal : inst.op = .LoadGlobal ∨ inst.op = .StoreGlobal →
      Aligned (img.sym (m.globalName inst.gid)) := fun hop =>
    hr.site.globals.aligned _ (hr.fits.gids _ h.mem_blocks inst h.mem_insts hop)
  have hoperands := hsel.operands
  have hrd : inst.op ≠ .StoreGlobal → dstReg A override (inst.dst.getD 0) scratch0 ≠ 0 :=
    fun hop => dstReg_ne_zero hsel.override (hsel.dst hop)
  unfold emitInst Inst.value
  unfold Inst.operands at hoperands
  cases hop : inst.op with
  | Call => exact absurd hop hsel.notCall
  | StoreGlobal =>
    rw [hop] at hoperands
    unfold target
    rw [if_pos hop]
    exact storeGlobal_assigns hal (hoperands _ List.mem_cons_self) (hglobal (.inr hop))
  | Mv =>
    have hstore : inst.op ≠ .StoreGlobal := by simp [hop]
    exact writeBack_assigns hal hstore hsel.override (emitMv_leaves hal (hrd hstore))
  | LoadGlobal =>
    have hstore : inst.op ≠ .StoreGlobal := by simp [hop]
    exact writeBack_assigns hal hstore hsel.override
      (loadGlobal_leaves (hrd hstore) (hglobal (.inl hop)))
  | Neg =>
    have hstore : inst.op ≠ .StoreGlobal := by simp [hop]
    rw [hop] at hoperands
    refine emitUnary_assigns hal hstore hsel (hoperands _ List.mem_cons_self)
      fun σ₁ rd ra hrd _ hra => .single ?_ hrd (by simp)
    show Outcome.ok (σ₁.set rd (AluOp.sub.eval 0#32 (σ₁.get ra))) = _
    rw [eval_neg, hra]
  | Not =>
    have hstore : inst.op ≠ .StoreGlobal := by simp [hop]
    rw [hop] at hoperands
    refine emitUnary_alui hal hstore hsel (hoperands _ List.mem_cons_self) rfl ?_
    rw [eval_seqz]
    rfl
  | _ =>
    rw [hop] at hoperands
    have hbinary : Does img.sym (emitBinary opt (frameOf A F) A override inst) σ
        (Assigns (target m img.sym (frameOf A F) A override inst σ)
          (inst.op.eval (inst.a.eval (locs (frameOf A F) A σ))
            (inst.b.eval (locs (frameOf A F) A σ))) σ) :=
      emitBinary_assigns hal (by rw [hop]; rfl) hsel (hoperands _ List.mem_cons_self)
        (hoperands _ (by simp))
    rw [hop] at hbinary
    exact hbinary

/-- It leaves its value where it belongs. -/
theorem Holds.assigns (hr : Ready img m A F b)
    (h : Holds img m A F b ⟨blk, inst :: rest, R, G⟩ σ) (hcall : inst.op ≠ .Call)
    (hconst : opt = true → inst.op = .Div ∨ inst.op = .Mod → inst.b.isImm = false)
    (hover : ∀ x, override = some x → x = XReg.a0) :
    Does img.sym (emitInst m opt (frameOf A F) A override inst) σ
      (Writes (target m img.sym (frameOf A F) A override inst σ) (inst.value R G) σ) := by
  have hin := hr.fits.inRange.insts _ h.mem_blocks inst h.mem_insts
  have hgid := hr.fits.gids _ h.mem_blocks inst h.mem_insts
  have hsel : Selectable opt A override inst :=
    { notCall := hcall
      notConst := hconst
      operands := fun v hv => h.located hr hv
      dst := fun hop _ => by
        obtain ⟨d, hd⟩ := hin.exists_dst hcall hop
        rw [hd]
        exact hr.placed.locates (hin.dst_lt hd)
      override := hover }
  have hval : inst.value (locs (frameOf A F) A σ) (globalsIn m img.sym σ) = inst.value R G :=
    Inst.value_congr (fun r hr => h.live r (.read hr)) fun hop => h.globals _ (hgid (.inl hop))
  have hcorrect := h.selected hr hsel
  rw [hval] at hcorrect
  exact hcorrect.mono fun _ h => h.writes

/-- **Storing a result** that was computed in the register for it. -/
theorem writeBack_writes {fr : Frame} {w : Word} (h : SlotsAligned fr σ)
    (hop : inst.op ≠ .StoreGlobal) (hover : ∀ x, override = some x → x = XReg.a0)
    (hdst : override = none → A.Locates (inst.dst.getD 0)) (hmem : σ'.mem = σ.mem)
    (hw : σ'.get (dstReg A override (inst.dst.getD 0) scratch0) = w)
    (hk : Keeps (dstReg A override (inst.dst.getD 0) scratch0 :: scratches) σ σ') :
    Does img.sym (writeBack fr A override (inst.dst.getD 0)
        (dstReg A override (inst.dst.getD 0) scratch0)) σ'
      (Writes (target m img.sym fr A override inst σ) w σ) := by
  have hrd := dstReg_mem hover hdst
  have hsp : σ'.get XReg.sp = σ.get XReg.sp := by
    refine hk _ fun hmem => ?_
    have hnot : XReg.sp ∉ scratches ++ scratch0 :: XReg.a0 :: allocatable := by decide
    rcases List.mem_cons.mp hmem with heq | hmem
    · exact hnot (List.mem_append_right _ (heq ▸ hrd))
    · exact hnot (List.mem_append_left _ hmem)
  have hal : SlotsAligned fr σ' := ⟨h.base, hsp.symm ▸ h.sp⟩
  have hnil : Leaves img.sym [] σ' (dstReg A override (inst.dst.getD 0) scratch0) w
      (dstReg A override (inst.dst.getD 0) scratch0 :: temps) := .nil hw
  have hassigns := writeBack_assigns (m := m) hal hop hover hnil
  have htarget : target m img.sym fr A override inst σ' = target m img.sym fr A override inst σ := by
    unfold target
    rw [hsp]
  rw [htarget] at hassigns
  refine hassigns.mono fun σ'' h => h.writes_after hmem hk ?_
  unfold target dstReg
  rw [if_neg hop]
  cases override.or (A.reg (inst.dst.getD 0)) with
  | some x => exact .inr rfl
  | none => exact .inl (by decide)

/-- **A division by a constant**, with its result stored. -/
theorem Holds.const (hr : Ready img m A F b) (hg : GivenVia via img m opt A F b call c₀)
    (h : Holds img m A F b ⟨blk, inst :: rest, R, G⟩ σ)
    (hc₀ : Machine.Steps (F.step call) c₀ ⟨blk, inst :: rest, R, G⟩) (hopt : opt = true)
    (hop : inst.op = .Div ∨ inst.op = .Mod) (himm : inst.b.isImm = true)
    (hover : ∀ x, override = some x → x = XReg.a0) :
    Does img.sym (emitInst m opt (frameOf A F) A override inst) σ
      (Writes (target m img.sym (frameOf A F) A override inst σ) (inst.value R G) σ) := by
  obtain ⟨c, hc⟩ : ∃ c, inst.b = .imm c := by
    cases hb : inst.b with
    | imm c => exact ⟨c, rfl⟩
    | reg r =>
      rw [hb] at himm
      cases himm
  have hin := hr.fits.inRange.insts _ h.mem_blocks inst h.mem_insts
  have hstore : inst.op ≠ .StoreGlobal := by rcases hop with hop | hop <;> simp [hop]
  have hcall : inst.op ≠ .Call := by rcases hop with hop | hop <;> simp [hop]
  have ha : inst.a ∈ inst.operands := by rcases hop with hop | hop <;> simp [Inst.operands, hop]
  have hdst : override = none → A.Locates (inst.dst.getD 0) := fun _ => by
    obtain ⟨d, hd⟩ := hin.exists_dst hcall hstore
    rw [hd]
    exact hr.placed.locates (hin.dst_lt hd)
  set rd := dstReg A override (inst.dst.getD 0) scratch0 with hrd
  have hrdmem : rd ∈ scratch0 :: XReg.a0 :: allocatable := dstReg_mem hover hdst
  have hra : (toReg (frameOf A F) A inst.a scratch0).2 ∉ divTemps := fun hmem => by
    have hne : ∀ y ∈ divTemps, y ∉ allocatable ∧ y ≠ 0 ∧ scratch0 ≠ y := by decide
    obtain ⟨hy, hy0, hs⟩ := hne _ hmem
    exact toReg_ne (h.located hr ha) hy hy0 hs rfl
  -- The dividend, the code, and the store of the result.
  have hunary : ∀ code : XReg → XReg → List Instr,
      (∀ (σ₁ : Data) (ra : XReg), Holds img m A F b ⟨blk, inst :: rest, R, G⟩ σ₁ →
        ra ∉ divTemps → σ₁.get ra = inst.a.eval R →
        Leaves img.sym (code rd ra) σ₁ rd (inst.value R G) (rd :: divTemps)) →
      Does img.sym (emitUnary (frameOf A F) A override (inst.dst.getD 0) inst.a code) σ
        (Writes (target m img.sym (frameOf A F) A override inst σ) (inst.value R G) σ) := by
    intro code hcode
    have hcomputed : Leaves img.sym ((toReg (frameOf A F) A inst.a scratch0).1 ++
        code rd (toReg (frameOf A F) A inst.a scratch0).2) σ rd (inst.value R G)
        (rd :: scratches) := by
      refine Does.append (toReg_leaves (h.aligned hr) (by decide)) fun σ₁ hσ₁ => ?_
      obtain ⟨hmem₁, hv₁, hk₁⟩ := hσ₁
      have h₁ := h.of_keeps hr hmem₁ (hk₁.mono (by decide))
      refine Does.mono (hcode σ₁ _ h₁ hra (hv₁.trans (h.eval ha))) fun σ₂ hσ₂ => ?_
      obtain ⟨hmem₂, hw, hk₂⟩ := hσ₂
      exact ⟨hmem₂.trans hmem₁, hw, (hk₁.mono (by simp [scratches])).trans
        (hk₂.mono (by simp [scratches, divTemps]))⟩
    refine Does.append hcomputed fun σ₁ hσ₁ => ?_
    obtain ⟨hmem₁, hw, hk₁⟩ := hσ₁
    exact writeBack_writes (h.aligned hr) hstore hover hdst hmem₁ hw hk₁
  have hdivMod : ∀ {σ₁ : Data} {ra : XReg}, Holds img m A F b ⟨blk, inst :: rest, R, G⟩ σ₁ →
      ra ∉ divTemps → σ₁.get ra = inst.a.eval R → _ := fun h₁ hra hv =>
    hg.consts hc₀ hopt hc h₁ hrdmem hra hv
  subst hopt
  unfold emitInst
  rcases hop with hop | hop
  · rw [hop]
    unfold emitBinary
    rw [hop, hc]
    refine hunary _ fun σ₁ ra h₁ hra hv => ?_
    refine ((hdivMod h₁ hra hv).1 hop).of_eq ?_
    simp only [Inst.value, hop, hc]
    rfl
  · rw [hop]
    unfold emitBinary
    rw [hop, hc]
    refine hunary _ fun σ₁ ra h₁ hra hv => ?_
    refine ((hdivMod h₁ hra hv).2 hop).of_eq ?_
    simp only [Inst.value, hop, hc]
    rfl

/-- **The code of an instruction other than a call.** -/
theorem Holds.code (hr : Ready img m A F b) (hg : GivenVia via img m opt A F b call c₀)
    (h : Holds img m A F b ⟨blk, inst :: rest, R, G⟩ σ)
    (hc₀ : Machine.Steps (F.step call) c₀ ⟨blk, inst :: rest, R, G⟩) (hcall : inst.op ≠ .Call)
    (hover : ∀ x, override = some x → x = XReg.a0) :
    Does img.sym (emitInst m opt (frameOf A F) A override inst) σ
      (Writes (target m img.sym (frameOf A F) A override inst σ) (inst.value R G) σ) := by
  by_cases hconst : opt = true ∧ (inst.op = .Div ∨ inst.op = .Mod) ∧ inst.b.isImm = true
  · exact h.const hr hg hc₀ hconst.1 hconst.2.1 hconst.2.2 hover
  · refine h.assigns hr hcall (fun hopt hop => ?_) hover
    exact Bool.eq_false_iff.mpr fun himm => hconst ⟨hopt, hop, himm⟩

/-- What the code of a call does behind the jump, where the result has a place of its own. -/
theorem callResult_assigns {sym : String → BitVec 32} {fr : Frame} (h : SlotsAligned fr σ)
    (hsp : σ.get XReg.sp = b) {d : Nat} (hd : A.Locates d) :
    Does sym (callResult fr A none (some d)) σ
      (Assigns (place fr A b d) (σ.get XReg.a0) σ) := by
  unfold callResult
  rcases hd with ⟨x, hx, hreg⟩ | ⟨hreg, -⟩
  · have hxa : x ≠ XReg.a0 := allocatable_ne hx (by decide)
    have hx0 : x ≠ 0 := allocatable_ne hx (by decide)
    simp only [Option.none_or, hreg, if_pos hxa]
    rw [place_reg hreg]
    refine .single (σ.set x (σ.get XReg.a0)) ?_
      ⟨σ.get_set_self hx0 _, fun y _ hy => ?_, fun _ _ => rfl⟩
    · rw [exec_alui rfl, eval_mv]
    · exact σ.get_set_of_ne (fun hyx => hy (congrArg Sum.inl hyx.symm)) _
  · simp only [Option.none_or, hreg]
    rw [place_slot hreg]
    refine (storeOffVia_does (by decide) (by decide) (.inl (by decide)) hsp
      (hsp ▸ h.slot (A := A) d)).mono fun σ' ⟨hmem, hk⟩ => ⟨?_, fun y hy _ => ?_, fun a ha => ?_⟩
    · show σ'.mem _ = _
      rw [hmem]
      exact σ.store_mem_self _ _
    · exact hk y fun hmem => hy ((by decide : ∀ z ∈ [XReg.a7], z ∈ temps) y hmem)
    · rw [hmem]
      exact σ.store_mem_of_ne (fun hax => ha (congrArg Sum.inr hax.symm)) _

/-- **A call**: the machine comes back behind the jump, with what the call leaves. -/
theorem Holds.calls (hg : GivenVia via img m opt A F b call c₀)
    (h : Holds img m A F b ⟨blk, inst :: rest, R, G⟩ σ)
    (hc₀ : Machine.Steps (F.step call) c₀ ⟨blk, inst :: rest, R, G⟩) (hcall : inst.op = .Call)
    (hexec : inst.exec call R G = .ok (R', G')) {i : Nat} {items : List Item}
    (hat : img.At i ((emitInst m opt (frameOf A F) A override inst).map .instr ++ items)) :
    ∃ (v : Option Word) (j : Nat) (σ₁ : Data), R.writeResult inst.dst v = .ok R' ∧
      via ⟨i, σ⟩ ⟨j, σ₁⟩ ∧
      j + (callResult (frameOf A F) A override inst.dst).length =
        i + (emitInst m opt (frameOf A F) A override inst).length ∧
      img.At j ((callResult (frameOf A F) A override inst.dst).map .instr ++ items) ∧
      (∀ w, v = some w → σ₁.get XReg.a0 = w) ∧ σ₁.get XReg.sp = b ∧
      (∀ u, F.LiveAt blk rest u → inst.dst ≠ some u → locs (frameOf A F) A σ₁ u = R u) ∧
      HoldsGlobals m img G' σ₁.mem := by
  have hcode : emitInst m opt (frameOf A F) A override inst =
      (callArgs (frameOf A F) A inst ++ [Instr.call inst.callee]) ++
        callResult (frameOf A F) A override inst.dst := by
    unfold emitInst
    rw [hcall]
    rfl
  unfold Inst.exec at hexec
  simp only [hcall] at hexec
  obtain ⟨⟨v, G₁⟩, hv, hexec⟩ := Outcome.bind_eq_ok.mp hexec
  obtain ⟨R₁, hwrite, hexec⟩ := Outcome.bind_eq_ok.mp hexec
  cases hexec
  rw [hcode, List.map_append, List.append_assoc] at hat
  obtain ⟨hat₁, hat₂⟩ := Image.at_append.mp hat
  obtain ⟨σ₁, hsteps, ha0, hsp, hlive, hglobals⟩ := hg.calls hc₀ hcall h hat₁ hv
  rw [List.length_map] at hat₂
  refine ⟨v, _, σ₁, hwrite, hsteps, ?_, hat₂, ha0, hsp, hlive, hglobals⟩
  rw [hcode, Nat.add_assoc, ← List.length_append]

/-! ## One instruction after the other -/

/-- **The code of an instruction takes the machine to the next point.** -/
theorem Holds.next (hvia : img.Follows via) (hr : Ready img m A F b)
    (hg : GivenVia via img m opt A F b call c₀)
    (h : Holds img m A F b ⟨blk, inst :: rest, R, G⟩ σ)
    (hc₀ : Machine.Steps (F.step call) c₀ ⟨blk, inst :: rest, R, G⟩)
    (hexec : inst.exec call R G = .ok (R', G')) {i : Nat} {items : List Item}
    (hat : img.At i ((emitInst m opt (frameOf A F) A none inst).map .instr ++ items)) :
    ∃ σ', via ⟨i, σ⟩ ⟨i + (emitInst m opt (frameOf A F) A none inst).length, σ'⟩ ∧
      Holds img m A F b ⟨blk, rest, R', G'⟩ σ' := by
  have hin := hr.fits.inRange.insts _ h.mem_blocks inst h.mem_insts
  by_cases hcall : inst.op = .Call
  · obtain ⟨v, j, σ₁, hwrite, hsteps, hlen, hat₁, ha0, hsp, hlive, hglobals⟩ :=
      h.calls hg hc₀ hcall hexec hat
    cases hd : inst.dst with
    | none =>
      rw [hd] at hwrite hlen hlive
      cases hwrite
      exact ⟨σ₁, hlen ▸ hsteps, h.lt, h.done_tail, hsp, fun u hu => hlive u hu (by simp), hglobals⟩
    | some d =>
      rw [hd] at hwrite hlen hlive hat₁
      cases v with
      | none => cases hwrite
      | some w =>
        cases hwrite
        have hal : SlotsAligned (frameOf A F) σ₁ := ⟨(h.aligned hr).base, by
          rw [hsp]
          exact hr.site.frame.aligned⟩
        obtain ⟨σ', hexecs, hassigns⟩ :=
          callResult_assigns hal hsp (hr.placed.locates (hin.dst_lt hd))
        rw [ha0 w rfl] at hassigns
        refine ⟨σ', hlen ▸ hvia.trans hsteps (hvia.execs hat₁ hexecs).1, ?_⟩
        refine h.write hr hd (fun hm => ?_) hsp (fun u hu hud => ?_) hglobals hassigns.writes
        · rw [Inst.isMove, hcall] at hm
          cases hm
        · exact hlive u hu fun h => hud (Option.some.inj h).symm
  · have hdoes : Does img.sym (emitInst m opt (frameOf A F) A none inst) σ _ :=
      h.code hr hg hc₀ hcall fun x hx => by cases hx
    obtain ⟨σ', hexecs, hwrites⟩ := hdoes
    refine ⟨σ', (hvia.execs hat hexecs).1, ?_⟩
    rcases exec_value hin hcall hexec with ⟨hop, hd, rfl, rfl⟩ | ⟨hop, d, hd, rfl, rfl⟩
    · refine h.store hr hd (hr.fits.gids _ h.mem_blocks inst h.mem_insts (.inr hop)) ?_
      have htarget : target m img.sym (frameOf A F) A none inst σ =
          .inr (globalAddr m img inst.gid) := if_pos hop
      rwa [htarget] at hwrites
    · rw [target_eq_place hop hd h.sp] at hwrites
      refine h.write hr hd (fun hm => ?_) h.sp (fun v hv hvd => ?_) h.globals hwrites
      · have hmv : inst.op = .Mv := by
          simp only [Inst.isMove, Bool.and_eq_true, beq_iff_eq] at hm
          exact hm.1
        simp only [Inst.value, hmv]
      · exact h.live v (.pass (by rw [hd]; exact fun h => hvd (Option.some.inj h).symm) hv)

/-- **The last instruction of a block that returns its value**: its code leaves it in `a0`. -/
theorem Holds.into_a0 (hvia : img.Follows via) (hr : Ready img m A F b)
    (hg : GivenVia via img m opt A F b call c₀)
    (h : Holds img m A F b ⟨blk, inst :: rest, R, G⟩ σ)
    (hc₀ : Machine.Steps (F.step call) c₀ ⟨blk, inst :: rest, R, G⟩)
    (hexec : inst.exec call R G = .ok (R', G')) {d : Nat} (hd : inst.dst = some d) {i : Nat}
    {items : List Item}
    (hat : img.At i ((emitInst m opt (frameOf A F) A (some XReg.a0) inst).map .instr ++ items)) :
    ∃ σ', via ⟨i, σ⟩
        ⟨i + (emitInst m opt (frameOf A F) A (some XReg.a0) inst).length, σ'⟩ ∧
      σ'.get XReg.a0 = R' d ∧ σ'.get XReg.sp = b ∧ HoldsGlobals m img G' σ'.mem := by
  have hin := hr.fits.inRange.insts _ h.mem_blocks inst h.mem_insts
  by_cases hcall : inst.op = .Call
  · obtain ⟨v, j, σ₁, hwrite, hsteps, hlen, hat₁, ha0, hsp, -, hglobals⟩ :=
      h.calls hg hc₀ hcall hexec hat
    rw [hd] at hwrite hlen
    cases v with
    | none => cases hwrite
    | some w =>
      cases hwrite
      refine ⟨σ₁, hlen ▸ hsteps, ?_, hsp, hglobals⟩
      rw [ha0 w rfl, Regs.set_same]
  · have hdoes : Does img.sym (emitInst m opt (frameOf A F) A (some XReg.a0) inst) σ _ :=
      h.code hr hg hc₀ hcall fun x hx => (Option.some.inj hx).symm
    obtain ⟨σ', hexecs, hwrites⟩ := hdoes
    refine ⟨σ', (hvia.execs hat hexecs).1, ?_⟩
    rcases exec_value hin hcall hexec with ⟨-, hd', -⟩ | ⟨hop, d', hd', rfl, rfl⟩
    · rw [hd] at hd'
      cases hd'
    · obtain rfl := Option.some.inj (hd.symm.trans hd')
      rw [target_a0 hop] at hwrites
      refine ⟨?_, (hwrites.regs _ (by decide) (by decide)).trans h.sp, fun gid hgid => ?_⟩
      · rw [Regs.set_same]
        exact hwrites.held
      · rw [hwrites.mem _ Sum.inl_ne_inr]
        exact h.globals gid hgid

/-- **Instructions that are emitted by themselves**, one after the other. -/
theorem Holds.insts (hvia : img.Follows via) (hr : Ready img m A F b)
    (hg : GivenVia via img m opt A F b call c₀)
    {insts : List Inst} (h : Holds img m A F b ⟨blk, insts ++ rest, R, G⟩ σ)
    (hc₀ : Machine.Steps (F.step call) c₀ ⟨blk, insts ++ rest, R, G⟩) {events : List Event}
    (hrun : runInsts call insts R G = .ok (R', G', events)) {i : Nat} {items : List Item}
    (hat : img.At i ((insts.flatMap (emitInst m opt (frameOf A F) A none)).map .instr ++ items)) :
    ∃ j σ', via ⟨i, σ⟩ ⟨j, σ'⟩ ∧ img.At j items ∧
      Holds img m A F b ⟨blk, rest, R', G'⟩ σ' ∧
      Machine.Steps (F.step call) c₀ ⟨blk, rest, R', G'⟩ := by
  induction insts generalizing R G σ i events with
  | nil =>
    cases hrun
    exact ⟨i, σ, hvia.refl _, hat, h, hc₀⟩
  | cons inst insts ih =>
    obtain ⟨⟨R₁, G₁⟩, hexec, hrun⟩ := Outcome.bind_eq_ok.mp hrun
    obtain ⟨⟨R₂, G₂, events'⟩, hrun', heq⟩ := Outcome.bind_eq_ok.mp hrun
    cases heq
    rw [List.flatMap_cons, List.map_append, List.append_assoc] at hat
    obtain ⟨σ₁, hsteps, h₁⟩ := h.next hvia hr hg hc₀ hexec hat
    have hstep : F.step call ⟨blk, inst :: (insts ++ rest), R, G⟩ =
        .ok (.inl ⟨blk, insts ++ rest, R₁, G₁⟩) := by
      unfold IRFunc.step
      simp only [hexec, Outcome.ok_bind]
    have hat₁ := (Image.at_append.mp hat).2
    rw [List.length_map] at hat₁
    obtain ⟨j, σ₂, hsteps', hrest⟩ := ih h₁ (hc₀.trans (.single hstep)) hrun' hat₁
    exact ⟨j, σ₂, hvia.trans hsteps hsteps', hrest⟩

end Insts

end OptCodeGen

end ToyC
