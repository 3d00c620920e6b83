import ToyC.NaiveCodeGen
import ToyC.IRReads

/-!
# What the baseline code of an instruction does

The vregs as the slots of a frame hold them (`slots`), and for each piece of code a
generator method writes what it leaves in the registers and in memory. Each statement says
which registers may have changed (`Keeps`) and gives the whole of memory.
-/

namespace ToyC

open Rv32

namespace NaiveCodeGen

/-- The vregs as the slots of a frame hold them. -/
def slots (fr : Frame) (b : BitVec 32) (mem : BitVec 32 → BitVec 32) : Regs :=
  fun v => mem (cell b (fr.slotOff v))

/-- **A frame in its place**: `b` is its lowest address, and it ends within memory, with some
bytes behind it. -/
structure Placed (fr : Frame) (b : BitVec 32) (behind : Nat) : Prop where
  aligned : Aligned b
  fits : b.toNat + fr.frameSize + behind ≤ 2 ^ 32

/-- The parts of a frame lie one behind the other. -/
structure Frame.Laid (fr : Frame) : Prop where
  outgoing : 4 ∣ fr.outArgArea
  ra : fr.raOff = fr.outArgArea + fr.numVregs * 4
  size : fr.raOff + 4 ≤ fr.frameSize
  dvd : 16 ∣ fr.frameSize

theorem frameOf_laid (F : IRFunc) : (frameOf F).Laid where
  outgoing := Nat.dvd_mul_left 4 _
  ra := rfl
  size := le_align16 _
  dvd := align16_dvd _

section Cells

variable {fr : Frame} {b : BitVec 32} {behind : Nat}

theorem Frame.Laid.slot_lt (hfr : fr.Laid) {v : Nat} (hv : v < fr.numVregs) :
    fr.slotOff v + 4 ≤ fr.raOff := by
  rw [hfr.ra]
  unfold Frame.slotOff
  omega

theorem Frame.Laid.slot_dvd (hfr : fr.Laid) (v : Nat) : 4 ∣ fr.slotOff v := by
  have := hfr.outgoing
  unfold Frame.slotOff
  omega

theorem Frame.Laid.ra_dvd (hfr : fr.Laid) : 4 ∣ fr.raOff := by
  have := hfr.outgoing
  rw [hfr.ra]
  omega

theorem Placed.toNat (hb : Placed fr b behind) {off : Nat} (hoff : off < fr.frameSize + behind) :
    (cell b off).toNat = b.toNat + off := by
  have := hb.fits
  exact cell_toNat (by omega)

/-- Different words of a frame have different addresses. -/
theorem Placed.cell_ne (hb : Placed fr b behind) {x y : Nat} (hx : x < fr.frameSize + behind)
    (hy : y < fr.frameSize + behind) (hne : x ≠ y) : cell b x ≠ cell b y := by
  intro h
  have h := congrArg BitVec.toNat h
  rw [hb.toNat hx, hb.toNat hy] at h
  omega

theorem Frame.slotOff_inj {v w : Nat} (h : fr.slotOff v = fr.slotOff w) : v = w := by
  unfold Frame.slotOff at h
  omega

/-- **Writing a slot writes its vreg.** -/
theorem slots_store (hfr : fr.Laid) (hb : Placed fr b behind) {σ : Data} {d v : Nat}
    (hd : d < fr.numVregs) (hv : v < fr.numVregs) (w : Word) :
    slots fr b (σ.store (cell b (fr.slotOff d)) w).mem v = (slots fr b σ.mem).set d w v := by
  have hslot := hfr.slot_lt hd
  have hslot' := hfr.slot_lt hv
  have hsize := hfr.size
  unfold slots
  by_cases hvd : v = d
  · subst hvd
    rw [σ.store_mem_self, Regs.set_same]
  · rw [Regs.set_of_ne _ _ hvd, σ.store_mem_of_ne]
    exact hb.cell_ne (by omega) (by omega) fun h => hvd (Frame.slotOff_inj h)

end Cells

section Access

variable (sym : String → BitVec 32) {fr : Frame} {b : BitVec 32} {σ : Data}

theorem loadSlot_does {reg : XReg} (hfr : fr.Laid) (hal : Aligned b) (hr : reg ≠ 0)
    (hsp : σ.get XReg.sp = b) (v : Nat) :
    Does sym (loadSlot fr reg v) σ fun σ' =>
      σ'.mem = σ.mem ∧ σ'.get reg = slots fr b σ.mem v ∧ Keeps [reg, XReg.t6] σ σ' :=
  loadOffVia_does (by decide) (by decide) hr hsp (cell_aligned hal (hfr.slot_dvd v))

theorem storeSlot_does {reg : XReg} (hfr : fr.Laid) (hal : Aligned b) (hr : reg ≠ XReg.t6)
    (hsp : σ.get XReg.sp = b) (v : Nat) :
    Does sym (storeSlot fr reg v) σ fun σ' =>
      σ'.mem = (σ.store (cell b (fr.slotOff v)) (σ.get reg)).mem ∧ Keeps [XReg.t6] σ σ' :=
  storeOffVia_does (by decide) (by decide) (.inl hr) hsp (cell_aligned hal (hfr.slot_dvd v))

/-- **Loading an operand.** -/
theorem loadVal_does {reg : XReg} (hfr : fr.Laid) (hal : Aligned b) (hr : reg ≠ 0)
    (hsp : σ.get XReg.sp = b) (v : Val) :
    Does sym (loadVal fr v reg) σ fun σ' =>
      σ'.mem = σ.mem ∧ σ'.get reg = v.eval (slots fr b σ.mem) ∧ Keeps [reg, XReg.t6] σ σ' := by
  cases v with
  | imm i => exact .single _ rfl ⟨rfl, σ.get_set_self hr i, keeps_set (by simp) i⟩
  | reg r => exact loadSlot_does sym hfr hal hr hsp r

end Access

/-! ## Operations -/

/-- Whether an operation computes a value from two operands. -/
def isBinary : Op → Bool
  | .Neg | .Not | .Mv | .LoadGlobal | .StoreGlobal | .Call => false
  | _ => true

section Ops

variable {sym : String → BitVec 32} {σ : Data}

/-- An instruction that writes `t0` alone. -/
theorem does_t0 {i : Instr} {w : Word} (h : i.exec sym σ = .ok (σ.set XReg.t0 w)) :
    Does sym [i] σ fun σ' =>
      σ'.mem = σ.mem ∧ σ'.get XReg.t0 = w ∧ Keeps [XReg.t0] σ σ' :=
  .single _ h ⟨rfl, σ.get_set_self (by decide) w, keeps_set (by simp) w⟩

/-- Two of them. -/
theorem does_t0_t0 {i i' : Instr} {w : Word} (w' : Word) (h : i.exec sym σ = .ok (σ.set XReg.t0 w))
    (h' : ∀ σ : Data, σ.get XReg.t0 = w → i'.exec sym σ = .ok (σ.set XReg.t0 w')) :
    Does sym [i, i'] σ fun σ' =>
      σ'.mem = σ.mem ∧ σ'.get XReg.t0 = w' ∧ Keeps [XReg.t0] σ σ' :=
  Does.append (does_t0 h) fun σ₁ ⟨hmem, hw, hk⟩ =>
    (does_t0 (h' σ₁ hw)).mono fun _ ⟨hmem', hw', hk'⟩ =>
      ⟨hmem'.trans hmem, hw', hk.trans hk'⟩

/-- **The code of an operation computes it.** -/
theorem opCode_does {op : Op} (hop : isBinary op = true) :
    Does sym (opCode op) σ fun σ' =>
      σ'.mem = σ.mem ∧ σ'.get XReg.t0 = op.eval (σ.get XReg.t0) (σ.get XReg.t1) ∧
        Keeps [XReg.t0] σ σ' := by
  have himm : ∀ (op : ImmOp) {w w' : Word}, op.eval w (BitVec.ofInt 32 1) = w' →
      ∀ σ : Data, σ.get XReg.t0 = w →
        (Instr.alui op XReg.t0 XReg.t0 1).exec sym σ = .ok (σ.set XReg.t0 w') := by
    rintro op w _ rfl σ rfl
    rfl
  cases op with
  | Add | Sub | Mul | Div | Mod | Lt | Gt => exact does_t0 rfl
  | Le => exact does_t0_t0 _ rfl (himm _ (eval_not _))
  | Ge => exact does_t0_t0 _ rfl (himm _ (eval_not _))
  | Eq =>
    refine does_t0_t0 _ rfl (himm _ ((eval_seqz _).trans ?_))
    exact congrArg flag (sub_beq_zero _ _)
  | Ne =>
    refine does_t0_t0 (Op.Ne.eval (σ.get XReg.t0) (σ.get XReg.t1)) rfl ?_
    rintro σ₁ hw
    show Outcome.ok (σ₁.set XReg.t0 (AluOp.sltu.eval 0#32 (σ₁.get XReg.t0))) = _
    rw [hw, eval_snez]
    refine congrArg (fun b => Outcome.ok (σ₁.set XReg.t0 (flag b))) ?_
    exact congrArg not (sub_beq_zero _ _)
  | _ => cases hop

end Ops

/-! ## Instructions -/

section Insts

variable {sym : String → BitVec 32} {m : IRModule} {fr : Frame} {b : BitVec 32} {σ : Data}

/-- The registers the code of an instruction other than a call may change. -/
def temps : List XReg := [XReg.t0, XReg.t1, XReg.t6]

/-- Code that leaves a value in `t0`, and the store of it to a slot. -/
theorem Does.then_storeSlot {code : List Instr} {w : Word} (hfr : fr.Laid) (hal : Aligned b)
    (hsp : σ.get XReg.sp = b)
    (h : Does sym code σ fun σ' => σ'.mem = σ.mem ∧ σ'.get XReg.t0 = w ∧ Keeps temps σ σ')
    (d : Nat) :
    Does sym (code ++ storeSlot fr XReg.t0 d) σ fun σ' =>
      σ'.mem = (σ.store (cell b (fr.slotOff d)) w).mem ∧ Keeps temps σ σ' := by
  refine h.append fun σ₁ ⟨hmem, hw, hk⟩ => ?_
  have hsp₁ : σ₁.get XReg.sp = b := (hk _ (by decide)).trans hsp
  refine (storeSlot_does sym hfr hal (by decide) hsp₁ d).mono fun σ₂ ⟨hmem₂, hk₂⟩ => ⟨?_, ?_⟩
  · rw [hmem₂, hw]
    unfold Data.store
    rw [hmem]
  · exact hk.trans (hk₂.mono (by decide))

/-- Loading an operand into `t0` and computing on from it. -/
theorem loadVal_then {i : Instr} {w : Word} (hfr : fr.Laid) (hal : Aligned b)
    (hsp : σ.get XReg.sp = b) (v : Val)
    (h : ∀ σ₁ : Data, σ₁.get XReg.t0 = v.eval (slots fr b σ.mem) →
      i.exec sym σ₁ = .ok (σ₁.set XReg.t0 w)) :
    Does sym (loadVal fr v XReg.t0 ++ [i]) σ fun σ' =>
      σ'.mem = σ.mem ∧ σ'.get XReg.t0 = w ∧ Keeps temps σ σ' :=
  (loadVal_does sym hfr hal (by decide) hsp v).append fun σ₁ ⟨hmem, hv, hk⟩ =>
    (does_t0 (h σ₁ hv)).mono fun _ ⟨hmem', hw, hk'⟩ =>
      ⟨hmem'.trans hmem, hw, (hk.mono (by decide)).trans (hk'.mono (by decide))⟩

/-- Both operands of a binary operation, and the operation. -/
theorem binary_does {op : Op} (hop : isBinary op = true) (hfr : fr.Laid) (hal : Aligned b)
    (hsp : σ.get XReg.sp = b) (u v : Val) :
    Does sym (loadVal fr u XReg.t0 ++ loadVal fr v XReg.t1 ++ opCode op) σ fun σ' =>
      σ'.mem = σ.mem ∧
        σ'.get XReg.t0 = op.eval (u.eval (slots fr b σ.mem)) (v.eval (slots fr b σ.mem)) ∧
        Keeps temps σ σ' := by
  have hoperands : Does sym (loadVal fr u XReg.t0 ++ loadVal fr v XReg.t1) σ fun σ' =>
      σ'.mem = σ.mem ∧ σ'.get XReg.t0 = u.eval (slots fr b σ.mem) ∧
        σ'.get XReg.t1 = v.eval (slots fr b σ.mem) ∧ Keeps temps σ σ' := by
    refine (loadVal_does sym hfr hal (by decide) hsp u).append fun σ₁ ⟨hmem, hu, hk⟩ => ?_
    have hsp₁ : σ₁.get XReg.sp = b := (hk _ (by decide)).trans hsp
    refine (loadVal_does sym hfr hal (by decide) hsp₁ v).mono fun σ₂ ⟨hmem₂, hv, hk₂⟩ => ?_
    refine ⟨hmem₂.trans hmem, (hk₂ _ (by decide)).trans hu, by rw [hv, hmem], ?_⟩
    exact (hk.mono (by decide)).trans (hk₂.mono (by decide))
  refine hoperands.append fun σ₁ ⟨hmem, hu, hv, hk⟩ => ?_
  refine (opCode_does hop).mono fun σ₂ ⟨hmem₂, hw, hk₂⟩ => ?_
  rw [hu, hv] at hw
  exact ⟨hmem₂.trans hmem, hw, hk.trans (hk₂.mono (by decide))⟩

/-- **The code of an instruction with a result** stores the value in its slot. -/
theorem emitInst_does {inst : Inst} {call : Callee} {G G' : Globals} {w : Word}
    (hfr : fr.Laid) (hal : Aligned b) (hsp : σ.get XReg.sp = b) (hcall : inst.op ≠ .Call)
    (hglobal : inst.op = .LoadGlobal →
      Aligned (sym (m.globalName inst.gid)) ∧ σ.mem (sym (m.globalName inst.gid)) = G inst.gid)
    (h : inst.compute call (slots fr b σ.mem) G = .ok (some w, G')) :
    G' = G ∧ Does sym (emitInst m fr inst) σ fun σ' =>
      σ'.mem = (σ.store (cell b (fr.slotOff (inst.dst.getD 0))) w).mem ∧ Keeps temps σ σ' := by
  unfold emitInst emitBinary
  unfold Inst.compute at h
  cases hop : inst.op with
  | Call => exact absurd hop hcall
  | StoreGlobal => rw [hop] at h; cases h
  | Mv =>
    rw [hop] at h
    cases h
    refine ⟨rfl, Does.then_storeSlot hfr hal hsp ?_ _⟩
    exact (loadVal_does sym hfr hal (by decide) hsp inst.a).mono fun _ ⟨hmem, hv, hk⟩ =>
      ⟨hmem, hv, hk.mono (by decide)⟩
  | Neg =>
    rw [hop] at h
    cases h
    refine ⟨rfl, Does.then_storeSlot hfr hal hsp (loadVal_then hfr hal hsp inst.a ?_) _⟩
    rintro σ₁ hv
    show Outcome.ok (σ₁.set XReg.t0 (AluOp.sub.eval 0#32 (σ₁.get XReg.t0))) = _
    rw [eval_neg, hv]
  | Not =>
    rw [hop] at h
    cases h
    refine ⟨rfl, Does.then_storeSlot hfr hal hsp (loadVal_then hfr hal hsp inst.a ?_) _⟩
    rintro σ₁ hv
    show Outcome.ok (σ₁.set XReg.t0 (ImmOp.sltiu.eval (σ₁.get XReg.t0) _)) = _
    rw [eval_seqz, hv]
    rfl
  | LoadGlobal =>
    rw [hop] at h
    cases h
    obtain ⟨haligned, hvalue⟩ := hglobal hop
    refine ⟨rfl, Does.then_storeSlot hfr hal hsp ?_ _⟩
    set a := sym (m.globalName inst.gid) with ha
    refine .cons (σ.set XReg.t0 (hi a)) rfl (.single
      ((σ.set XReg.t0 (hi a)).set XReg.t0 (G inst.gid)) ?_
      ⟨rfl, Data.get_set_self _ (by decide) _,
        (keeps_set (by decide) _).trans (keeps_set (by decide) _)⟩)
    have haddr : (σ.set XReg.t0 (hi a)).get XReg.t0 + lo a = a := by
      rw [σ.get_set_self (by decide), hi_add_lo]
    simp only [Instr.exec, ← ha, haddr]
    rw [if_pos haligned, ← hvalue]
    rfl
  | Add | Sub | Mul | Div | Mod | Lt | Gt | Le | Ge | Eq | Ne =>
    rw [hop] at h
    cases h
    exact ⟨rfl, Does.then_storeSlot hfr hal hsp (binary_does rfl hfr hal hsp inst.a inst.b) _⟩

/-- **The code of a global store.** -/
theorem storeGlobal_does {inst : Inst} (hfr : fr.Laid) (hal : Aligned b)
    (hsp : σ.get XReg.sp = b) (hop : inst.op = .StoreGlobal)
    (haligned : Aligned (sym (m.globalName inst.gid))) :
    Does sym (emitInst m fr inst) σ fun σ' =>
      σ'.mem =
        (σ.store (sym (m.globalName inst.gid)) (inst.a.eval (slots fr b σ.mem))).mem ∧
      Keeps temps σ σ' := by
  unfold emitInst
  rw [hop]
  refine (loadVal_does sym hfr hal (by decide) hsp inst.a).append fun σ₁ ⟨hmem, hv, hk⟩ => ?_
  set a := sym (m.globalName inst.gid) with ha
  refine .cons (σ₁.set XReg.t1 (hi a)) rfl (.single
    ((σ₁.set XReg.t1 (hi a)).store a (inst.a.eval (slots fr b σ.mem))) ?_ ⟨?_, ?_⟩)
  · have haddr : (σ₁.set XReg.t1 (hi a)).get XReg.t1 + lo a = a := by
      rw [σ₁.get_set_self (by decide), hi_add_lo]
    simp only [Instr.exec, ← ha, haddr]
    rw [if_pos haligned, σ₁.get_set_of_ne (by decide), hv]
  · unfold Data.store Data.set
    rw [hmem]
  · exact (hk.mono (by decide)).trans ((keeps_set (by decide) _).trans (keeps_store _ _ _))

end Insts

/-! ## Calls -/

section Calls

variable {sym : String → BitVec 32} {fr : Frame} {b : BitVec 32} {behind : Nat}

/-- The registers of an operand are vregs of the function. -/
def ValInRange (fr : Frame) (v : Val) : Prop := ∀ r, v.reg? = some r → r < fr.numVregs

/-- A vreg slot is above the outgoing area. -/
theorem Placed.slot_ne_outgoing (hfr : fr.Laid) (hb : Placed fr b behind) {v k : Nat}
    (hv : v < fr.numVregs) (hk : k * 4 < fr.outArgArea) :
    cell b (fr.slotOff v) ≠ cell b (k * 4) := by
  have hslot := hfr.slot_lt hv
  have hsize := hfr.size
  refine hb.cell_ne (by omega) ?_ ?_
  · unfold Frame.slotOff at hslot
    omega
  · unfold Frame.slotOff
    omega

/-- **The stack arguments** end up in the outgoing area, in order. -/
theorem stackArgs_does (hfr : fr.Laid) (hb : Placed fr b behind) {vs : List Val} {k : Nat}
    {σ : Data} (hsp : σ.get XReg.sp = b) (hk : (k + vs.length) * 4 ≤ fr.outArgArea)
    (hvs : ∀ v ∈ vs, ValInRange fr v) :
    Does sym (stackArgs fr k vs) σ fun σ' =>
      (∀ j v, vs[j]? = some v →
        σ'.mem (cell b ((k + j) * 4)) = v.eval (slots fr b σ.mem)) ∧
      (∀ a, (∀ j < vs.length, a ≠ cell b ((k + j) * 4)) → σ'.mem a = σ.mem a) ∧
      Keeps temps σ σ' := by
  induction vs generalizing k σ with
  | nil => exact .nil ⟨fun j v hj => by simp at hj, fun _ _ => rfl, .refl _ _⟩
  | cons v vs ih =>
    rw [List.length_cons] at hk
    have hlater := ih (k := k + 1) hsp (by omega) fun v hv => hvs v (List.mem_cons_of_mem _ hv)
    refine hlater.append fun σ₁ ⟨hcells, hmem, hkeep⟩ => ?_
    have hsp₁ : σ₁.get XReg.sp = b := (hkeep _ (by decide)).trans hsp
    have hv : v.eval (slots fr b σ₁.mem) = v.eval (slots fr b σ.mem) := by
      refine Val.eval_congr fun r hr => hmem _ fun j hj => ?_
      exact hb.slot_ne_outgoing hfr (hvs v List.mem_cons_self r hr) (by omega)
    refine (loadVal_does sym hfr hb.aligned (by decide) hsp₁ v).append
      fun σ₂ ⟨hmem₂, hw, hkeep₂⟩ => ?_
    have hsp₂ : σ₂.get XReg.sp = b := (hkeep₂ _ (by decide)).trans hsp₁
    have hcell : Aligned (cell b (k * 4)) := cell_aligned hb.aligned (Nat.dvd_mul_left 4 k)
    refine (storeOffVia_does (by decide) (by decide) (.inl (by decide)) hsp₂ hcell).mono
      fun σ₃ ⟨hmem₃, hkeep₃⟩ => ⟨?_, ?_, ?_⟩
    · intro j u hj
      rw [hmem₃]
      cases j with
      | zero =>
        obtain rfl : v = u := by simpa using hj
        rw [Nat.add_zero, σ₂.store_mem_self, hw, hv]
      | succ j =>
        have hj' : vs[j]? = some u := hj
        have hlt := (List.getElem?_eq_some_iff.mp hj').choose
        have hsize := hfr.size
        have hra := hfr.ra
        rw [σ₂.store_mem_of_ne, hmem₂, ← Nat.add_assoc, Nat.add_right_comm]
        · exact hcells j u hj
        · exact hb.cell_ne (by omega) (by omega) (by omega)
    · intro a ha
      rw [hmem₃, σ₂.store_mem_of_ne (by simpa using ha 0 (by simp)), hmem₂]
      refine hmem a fun j hj => ?_
      rw [Nat.add_right_comm, Nat.add_assoc]
      exact ha (j + 1) (by simpa using hj)
    · exact hkeep.trans ((hkeep₂.mono (by decide)).trans (hkeep₃.mono (by decide)))

/-- **The register arguments** end up in the argument registers, in order. -/
theorem regArgs_does (hfr : fr.Laid) (hal : Aligned b) {vs : List Val} {x : Nat} {σ : Data}
    (hsp : σ.get XReg.sp = b) (hx : 10 ≤ x) (hlen : x + vs.length ≤ 18) :
    Does sym (regArgs fr x vs) σ fun σ' =>
      σ'.mem = σ.mem ∧
      (∀ j v, vs[j]? = some v → σ'.get (x + j) = v.eval (slots fr b σ.mem)) ∧
      ∀ y : Nat, y ≠ 31 → (y < x ∨ x + vs.length ≤ y) → σ'.get y = σ.get y := by
  induction vs generalizing x σ with
  | nil => exact .nil ⟨rfl, fun j v hj => by simp at hj, fun _ _ _ => rfl⟩
  | cons v vs ih =>
    rw [List.length_cons] at hlen
    have hx0 : x ≠ 0 := by omega
    refine (loadVal_does sym hfr hal hx0 hsp v).append fun σ₁ ⟨hmem, hv, hkeep⟩ => ?_
    have hkeep : ∀ y : Nat, y ≠ 31 → y ≠ x → σ₁.get y = σ.get y := fun y h31 hyx =>
      hkeep y (by simp [h31, hyx])
    have hsp₁ : σ₁.get XReg.sp = b := (hkeep 2 (by omega) (by omega)).trans hsp
    refine (ih hsp₁ (by omega) (by omega)).mono fun σ₂ ⟨hmem₂, hvs, hkeep₂⟩ => ⟨?_, ?_, ?_⟩
    · rw [hmem₂, hmem]
    · intro j u hj
      cases j with
      | zero =>
        obtain rfl : v = u := by simpa using hj
        rw [Nat.add_zero, hkeep₂ x (by omega) (.inl (by omega)), hv]
      | succ j =>
        rw [← hmem, show x + (j + 1) = x + 1 + j by omega]
        exact hvs j u hj
    · intro y hy hor
      rw [List.length_cons] at hor
      rw [hkeep₂ y hy (by omega), hkeep y hy (by omega)]

end Calls

/-! ## Entry and exit -/

section Frames

variable {sym : String → BitVec 32} {fr : Frame} {b : BitVec 32} {behind : Nat}

theorem argReg_notMem {i : Nat} : i < 8 → XReg.a0 + i ∉ XReg.sp :: temps := by
  revert i
  decide

theorem entryRegs_congr {R R' : Regs} {v : Nat} (h : R v = R' v) :
    ∀ (ps : List Nat) (vs : List Word),
      IRFunc.entryRegs R ps vs v = IRFunc.entryRegs R' ps vs v := by
  intro ps
  induction ps generalizing R R' with
  | nil => exact fun vs => h
  | cons p ps ih =>
    intro vs
    cases vs with
    | nil => exact h
    | cons w vs =>
      refine ih ?_ vs
      unfold Regs.set
      rw [h]

/-- **Where the caller leaves an argument**, from number `i` on: in its register, or behind
the frame. -/
def Incoming (fr : Frame) (b : BitVec 32) (i : Nat) (vs : List Word) (σ : Data) : Prop :=
  ∀ (j : Nat) v, vs[j]? = some v →
    if i + j < 8 then σ.get (XReg.a0 + (i + j)) = v
    else σ.mem (cell b (fr.frameSize + (i + j - 8) * 4)) = v

/-- **The parameters reach their slots.** -/
theorem moveParams_does (hfr : fr.Laid) (hb : Placed fr b behind) {ps : List Nat}
    {vs : List Word} {i : Nat} {σ : Data} (hsp : σ.get XReg.sp = b)
    (hlen : vs.length = ps.length) (hps : ∀ p ∈ ps, p < fr.numVregs)
    (hbehind : (i + ps.length - 8) * 4 ≤ behind) (hin : Incoming fr b i vs σ) :
    Does sym (moveParams fr i ps) σ fun σ' =>
      (∀ v < fr.numVregs,
        slots fr b σ'.mem v = IRFunc.entryRegs (slots fr b σ.mem) ps vs v) ∧
      (∀ a, (∀ v < fr.numVregs, a ≠ cell b (fr.slotOff v)) → σ'.mem a = σ.mem a) ∧
      Keeps temps σ σ' := by
  induction ps generalizing i vs σ with
  | nil =>
    rw [List.length_eq_zero_iff.mp hlen]
    exact .nil ⟨fun _ _ => rfl, fun _ _ => rfl, .refl _ _⟩
  | cons p ps ih =>
    obtain ⟨w, vs, rfl⟩ : ∃ w ws, vs = w :: ws := List.exists_cons_of_length_eq_add_one hlen
    rw [List.length_cons] at hbehind
    have hp := hps p List.mem_cons_self
    have hsize := hfr.size
    have hslot := hfr.slot_lt hp
    -- Whichever way the first parameter comes, it is stored to its slot.
    have hfirst : Does sym
        (if i < 8 then storeSlot fr (XReg.a0 + i) p
          else loadOff XReg.t0 (fr.frameSize + (i - 8) * 4) ++ storeSlot fr XReg.t0 p) σ
        fun σ' => σ'.mem = (σ.store (cell b (fr.slotOff p)) w).mem ∧ Keeps temps σ σ' := by
      have h0 := hin 0 w rfl
      rw [Nat.add_zero] at h0
      split
      · rename_i hi
        rw [if_pos hi] at h0
        have ht6 : (10 + i : Nat) ≠ 31 := by omega
        refine (storeSlot_does sym hfr hb.aligned ht6 hsp p).mono fun σ' ⟨hmem, hk⟩ => ⟨?_, ?_⟩
        · rw [hmem, h0]
        · exact hk.mono (by decide)
      · rename_i hi
        rw [if_neg hi] at h0
        refine Does.then_storeSlot hfr hb.aligned hsp ?_ p
        have hal : Aligned (cell b (fr.frameSize + (i - 8) * 4)) :=
          cell_aligned hb.aligned (by have := hfr.dvd; omega)
        refine (loadOffVia_does (by decide) (by decide) (by decide) hsp hal).mono
          fun σ' ⟨hmem, hw, hk⟩ => ⟨hmem, by rw [hw, h0], hk.mono (by decide)⟩
    refine hfirst.append fun σ₁ ⟨hmem, hkeep⟩ => ?_
    have hsp₁ : σ₁.get XReg.sp = b := (hkeep _ (by decide)).trans hsp
    have hin₁ : Incoming fr b (i + 1) vs σ₁ := by
      intro j v hj
      have h := hin (j + 1) v hj
      rw [← Nat.add_assoc, Nat.add_right_comm] at h
      split
      · rename_i hi
        rw [if_pos hi] at h
        rw [hkeep _ (List.not_mem_of_not_mem_cons (argReg_notMem hi)), h]
      · rename_i hi
        rw [if_neg hi] at h
        have hlt : j < ps.length := by
          have := (List.getElem?_eq_some_iff.mp hj).choose
          simp only [List.length_cons] at hlen
          omega
        rw [hmem, σ.store_mem_of_ne, h]
        exact hb.cell_ne (by omega) (by omega) (by omega)
    refine (ih hsp₁ (Nat.succ.inj hlen) (fun q hq => hps q (List.mem_cons_of_mem _ hq))
      (by omega) hin₁).mono fun σ₂ ⟨hslots, hout, hkeep₂⟩ => ⟨?_, ?_, hkeep.trans hkeep₂⟩
    · intro v hv
      rw [hslots v hv, hmem]
      exact entryRegs_congr (slots_store hfr hb hp hv w) ps vs
    · intro a ha
      rw [hout a ha, hmem, σ.store_mem_of_ne (ha p hp)]

/-- **The prologue** opens the frame, saves the return address and stores the parameters. -/
theorem prologue_does (sym : String → BitVec 32) {F : IRFunc} (hb : Placed (frameOf F) b behind)
    {vs : List Word}
    {σ : Data} (hnum : F.numParams = F.paramRegs.length)
    (hsp : σ.get XReg.sp = cell b (frameOf F).frameSize) (hlen : vs.length = F.paramRegs.length)
    (hps : ∀ p ∈ F.paramRegs, p < F.numVregs) (hbehind : (F.paramRegs.length - 8) * 4 ≤ behind)
    (hin : Incoming (frameOf F) b 0 vs σ) :
    Does sym (prologue (frameOf F) F) σ fun σ' =>
      σ'.get XReg.sp = b ∧ σ'.mem (cell b (frameOf F).raOff) = σ.get XReg.ra ∧
      (∀ v < F.numVregs, slots (frameOf F) b σ'.mem v =
        IRFunc.entryRegs (slots (frameOf F) b σ.mem) F.paramRegs vs v) ∧
      (∀ a, (∀ off < (frameOf F).frameSize, a ≠ cell b off) → σ'.mem a = σ.mem a) ∧
      Keeps (XReg.sp :: temps) σ σ' := by
  have hfr := frameOf_laid F
  have hsize := hfr.size
  unfold prologue
  rw [hnum, List.take_length, List.append_assoc]
  refine (openFrame_does _ hsp).append fun σ₁ ⟨hmem, hsp₁, hk₁⟩ => ?_
  have hra : Aligned (cell b (frameOf F).raOff) := cell_aligned hb.aligned hfr.ra_dvd
  refine (storeOffVia_does (by decide) (by decide) (.inl (by decide)) hsp₁ hra).append
    fun σ₂ ⟨hmem₂, hk₂⟩ => ?_
  have hsp₂ : σ₂.get XReg.sp = b := (hk₂ _ (by decide)).trans hsp₁
  have hin₂ : Incoming (frameOf F) b 0 vs σ₂ := by
    intro j v hj
    have h := hin j v hj
    have hlt := (List.getElem?_eq_some_iff.mp hj).choose
    split
    · rename_i hi
      rw [if_pos hi] at h
      have hk : Keeps (XReg.sp :: temps) σ σ₂ :=
        (hk₁.mono (by decide)).trans (hk₂.mono (by decide))
      rw [hk _ (argReg_notMem hi), h]
    · rename_i hi
      rw [if_neg hi] at h
      rw [hmem₂, σ₁.store_mem_of_ne, hmem, h]
      exact hb.cell_ne (by omega) (by omega) (by omega)
  refine (moveParams_does hfr hb hsp₂ hlen hps (by omega) hin₂).mono
    fun σ₃ ⟨hslots, hout, hk₃⟩ => ⟨?_, ?_, ?_, ?_, ?_⟩
  · exact (hk₃ _ (by decide)).trans hsp₂
  · rw [hout _ fun v hv => ?_, hmem₂, σ₁.store_mem_self, hk₁ _ (by decide)]
    have hslot := hfr.slot_lt hv
    exact hb.cell_ne (by omega) (by omega) (by omega)
  · intro v hv
    rw [hslots v hv]
    refine entryRegs_congr ?_ _ _
    unfold slots
    have hslot := hfr.slot_lt hv
    rw [hmem₂, σ₁.store_mem_of_ne, hmem]
    exact hb.cell_ne (by omega) (by omega) (by omega)
  · intro a ha
    rw [hout a fun v hv => ha _ (by have := hfr.slot_lt hv; omega), hmem₂,
      σ₁.store_mem_of_ne (ha _ (by omega)), hmem]
  · exact (hk₁.mono (by decide)).trans ((hk₂.mono (by decide)).trans (hk₃.mono (by decide)))

/-- **The epilogue** up to the return. -/
theorem restore_does (hfr : fr.Laid) (hal : Aligned b) {σ : Data} (hsp : σ.get XReg.sp = b) :
    Does sym (restore fr) σ fun σ' =>
      σ'.mem = σ.mem ∧ σ'.get XReg.ra = σ.mem (cell b fr.raOff) ∧
      σ'.get XReg.sp = cell b fr.frameSize ∧ Keeps [XReg.ra, XReg.sp, XReg.t6] σ σ' := by
  refine (loadOffVia_does (by decide) (by decide) (by decide) hsp
    (cell_aligned hal hfr.ra_dvd)).append fun σ₁ ⟨hmem, hra, hk⟩ => ?_
  have hsp₁ : σ₁.get XReg.sp = b := (hk _ (by decide)).trans hsp
  refine (closeFrame_does _ hsp₁).mono fun σ₂ ⟨hmem₂, hsp₂, hk₂⟩ => ⟨?_, ?_, hsp₂, ?_⟩
  · rw [hmem₂, hmem]
  · rw [hk₂ _ (by decide), hra]
  · exact (hk.mono (by decide)).trans (hk₂.mono (by decide))

end Frames

end NaiveCodeGen

end ToyC
