import ToyC.OptSteps
import ToyC.RegAllocSound

/-!
# The arguments of a call

The arguments beyond the eighth are placed first, each by way of `t5` into its word at the bottom of
the frame, and then the others into their registers. The register `a7` is needed all along for the
addresses of what is too far away, and it is the register of the eighth argument as well. That does
no harm: no vreg is kept in an argument register, so placing an argument spoils no other
(`regArgs_does`), and the eighth one comes last.

Nothing else of the frame is written: the words of the arguments lie below the spill slots, and there
are as many as the largest call of the function needs (`stackArgs_does`).
-/

namespace ToyC

open Rv32

namespace OptCodeGen

section Args

variable {sym : String → BitVec 32} {fr : Frame} {A : Allocation} {b : BitVec 32} {nv : Nat}
  {σ σ' : Data}

/-- **Only words for outgoing arguments are written**, and no register a vreg may be in. -/
structure OutgoingOnly (fr : Frame) (b : BitVec 32) (σ σ' : Data) : Prop where
  regs : ∀ x ∈ allocatable, σ'.get x = σ.get x
  sp : σ'.get XReg.sp = σ.get XReg.sp
  mem : ∀ a, (∀ off < fr.outArgArea, a ≠ cell b off) → σ'.mem a = σ.mem a

theorem OutgoingOnly.refl (σ : Data) : OutgoingOnly fr b σ σ :=
  ⟨fun _ _ => rfl, rfl, fun _ _ => rfl⟩

theorem OutgoingOnly.trans {σ'' : Data} (h : OutgoingOnly fr b σ σ')
    (h' : OutgoingOnly fr b σ' σ'') : OutgoingOnly fr b σ σ'' :=
  ⟨fun x hx => (h'.regs x hx).trans (h.regs x hx), h'.sp.trans h.sp,
    fun a ha => (h'.mem a ha).trans (h.mem a ha)⟩

/-- Registers alone are written, none that a vreg may be in. -/
theorem OutgoingOnly.of_keeps {touched : List XReg} (hmem : σ'.mem = σ.mem)
    (hk : Keeps touched σ σ') (ht : ∀ x ∈ touched, x ∉ allocatable ∧ x ≠ XReg.sp) :
    OutgoingOnly fr b σ σ' :=
  ⟨fun x hx => hk x fun hmem => (ht x hmem).1 hx, hk XReg.sp fun hmem => (ht _ hmem).2 rfl,
    fun a _ => congrFun hmem a⟩

/-- **Every vreg keeps its value.** -/
theorem OutgoingOnly.locs (h : OutgoingOnly fr b σ σ') (hfr : fr.Laid A) (hA : A.Placed nv)
    (hb : fr.At b 0) (hsp : σ.get XReg.sp = b) {v : Nat} (hv : v < nv) :
    locs fr A σ' v = locs fr A σ v := by
  rcases hA.locates hv with ⟨x, hx, hreg⟩ | ⟨hreg, -⟩
  · rw [locs_reg hreg, locs_reg hreg, h.regs x hx]
  · obtain ⟨-, hlow, hhigh⟩ := spillOff_lt hfr hA hv hreg
    have hle := hfr.calleeBase_le
    have hspill := hfr.spill
    rw [locs_slot hreg, locs_slot hreg, h.sp, hsp]
    refine h.mem _ fun off hoff => hb.cell_ne (by omega) (by omega) ?_
    omega

theorem OutgoingOnly.eval (h : OutgoingOnly fr b σ σ') (hfr : fr.Laid A) (hA : A.Placed nv)
    (hb : fr.At b 0) (hsp : σ.get XReg.sp = b) {v : Val} (hv : ∀ r, v.reg? = some r → r < nv) :
    v.eval (OptCodeGen.locs fr A σ') = v.eval (OptCodeGen.locs fr A σ) :=
  Val.eval_congr fun r hr => h.locs hfr hA hb hsp (hv r hr)

theorem slotsAligned (hfr : fr.Laid A) (hb : fr.At b 0) (hsp : σ.get XReg.sp = b) :
    SlotsAligned fr σ where
  base := hfr.spill ▸ hfr.outgoing
  sp := hsp ▸ hb.aligned

/-- **The stack arguments** from a slot on. -/
theorem stackArgs_does (hfr : fr.Laid A) (hA : A.Placed nv) (hb : fr.At b 0) (vs : List Val)
    {k : Nat} (hk : (k + vs.length) * 4 ≤ fr.outArgArea)
    (hvs : ∀ v ∈ vs, ∀ r, v.reg? = some r → r < nv) (hsp : σ.get XReg.sp = b) :
    Does sym (stackArgs fr A k vs) σ fun σ' => OutgoingOnly fr b σ σ' ∧
      (∀ j v, vs[j]? = some v → σ'.mem (cell b ((k + j) * 4)) = v.eval (locs fr A σ)) ∧
      ∀ a, (∀ j < vs.length, a ≠ cell b ((k + j) * 4)) → σ'.mem a = σ.mem a := by
  have hsize : fr.outArgArea ≤ fr.frameSize := by
    have := hfr.calleeBase_le
    have := hfr.spill
    have := hfr.callee
    omega
  induction vs generalizing k with
  | nil => exact .nil ⟨.refl σ, fun j v hj => by simp at hj, fun _ _ => rfl⟩
  | cons v vs ih =>
    rw [List.length_cons] at hk
    have hcell : ∀ j, j < vs.length → cell b (k * 4) ≠ cell b ((k + 1 + j) * 4) := fun j hj =>
      hb.cell_ne (by omega) (by omega) (by omega)
    refine (ih (by omega) fun v hv => hvs v (List.mem_cons_of_mem _ hv)).append ?_
    rintro σ₁ ⟨hout₁, hargs, hmem₁⟩
    have hsp₁ := hout₁.sp.trans hsp
    have hval : v.eval (locs fr A σ₁) = v.eval (locs fr A σ) :=
      hout₁.eval hfr hA hb hsp (hvs v List.mem_cons_self)
    refine Does.append (materialize_leaves (x := scratch0) (slotsAligned hfr hb hsp₁) (by decide)) ?_
    rintro σ₂ ⟨hmem₂, hreg₂, hk₂⟩
    have hout₂ : OutgoingOnly fr b σ₁ σ₂ := .of_keeps hmem₂ hk₂ (by decide)
    have hal : Aligned (cell b (k * 4)) := cell_aligned hb.aligned (Nat.dvd_mul_left 4 k)
    refine (storeOffVia_does (by decide) (by decide) (.inl (by decide)) (hout₂.sp.trans hsp₁)
      hal).mono ?_
    rintro σ₃ ⟨hmem₃, hk₃⟩
    have hself : σ₃.mem (cell b (k * 4)) = v.eval (locs fr A σ) := by
      rw [hmem₃, σ₂.store_mem_self, hreg₂, hval]
    have hother : ∀ a, a ≠ cell b (k * 4) → σ₃.mem a = σ₁.mem a := fun a ha => by
      rw [hmem₃, σ₂.store_mem_of_ne ha, hmem₂]
    refine ⟨hout₁.trans (hout₂.trans ⟨fun x hx => hk₃ x ?_, hk₃ _ (by decide), fun a ha => ?_⟩),
      fun j w hj => ?_, fun a ha => ?_⟩
    · exact fun hmem => allocatable_ne hx (by decide) (List.mem_singleton.mp hmem)
    · rw [hother a (ha (k * 4) (by omega)), hmem₂]
    · cases j with
      | zero =>
        cases hj
        exact hself
      | succ j =>
        have hj' : vs[j]? = some w := hj
        have hlt : j < vs.length := (List.getElem?_eq_some_iff.mp hj').1
        rw [show k + (j + 1) = k + 1 + j by omega, hother _ (hcell j hlt).symm]
        exact hargs j w hj'
    · rw [hother a (by simpa using ha 0 (Nat.zero_lt_succ _))]
      refine hmem₁ a fun j hj => ?_
      have := ha (j + 1) (Nat.succ_lt_succ hj)
      rwa [show k + (j + 1) = k + 1 + j by omega] at this

/-- The registers that placing arguments may change: those of the arguments, and `a7`, if there are
any. -/
def argTouched (i : Nat) (vs : List Val) : List XReg :=
  if vs = [] then [] else XReg.a7 :: List.range' (XReg.a0 + i) vs.length

theorem mem_argTouched_cons {i : Nat} {v : Val} {vs : List Val} {x : XReg} :
    x ∈ argTouched i (v :: vs) ↔
      x = XReg.a7 ∨ x = XReg.a0 + i ∨ x ∈ argTouched (i + 1) vs := by
  unfold argTouched
  rw [if_neg (List.cons_ne_nil _ _), List.length_cons, List.range'_succ, List.mem_cons,
    List.mem_cons, Nat.add_assoc]
  split
  · rename_i hvs
    rw [hvs]
    simp
  · rw [List.mem_cons]
    tauto

theorem argTouched_apart (i : Nat) (vs : List Val) (hi : i + vs.length ≤ 8) :
    ∀ x ∈ argTouched i vs, x ∉ allocatable ∧ x ≠ XReg.sp := by
  have hargs : ∀ j < 8, XReg.a0 + j ∉ allocatable ∧ XReg.a0 + j ≠ XReg.sp := by decide
  intro x hx
  unfold argTouched at hx
  split at hx
  · cases hx
  · rcases List.mem_cons.mp hx with rfl | hx
    · exact hargs 7 (by decide)
    · obtain ⟨j, hj, rfl⟩ := List.mem_range'.mp hx
      rw [Nat.one_mul, Nat.add_assoc]
      exact hargs (i + j) (Nat.lt_of_lt_of_le (Nat.add_lt_add_left hj i) hi)

/-- **The register arguments** from a register on. -/
theorem regArgs_does (hfr : fr.Laid A) (hA : A.Placed nv) (hb : fr.At b 0) (vs : List Val)
    {i : Nat} (hi : i + vs.length ≤ 8) (hvs : ∀ v ∈ vs, ∀ r, v.reg? = some r → r < nv)
    (hsp : σ.get XReg.sp = b) :
    Does sym (regArgs fr A (XReg.a0 + i) vs) σ fun σ' => σ'.mem = σ.mem ∧
      Keeps (argTouched i vs) σ σ' ∧
      ∀ j v, vs[j]? = some v → σ'.get (XReg.a0 + (i + j)) = v.eval (locs fr A σ) := by
  induction vs generalizing i σ with
  | nil => exact .nil ⟨rfl, .refl _ _, fun j v hj => by simp at hj⟩
  | cons v vs ih =>
    rw [List.length_cons] at hi
    have hne : XReg.a0 + i ≠ 0 := by
      show 10 + i ≠ 0
      omega
    refine Does.append (materialize_leaves (slotsAligned hfr hb hsp) hne) ?_
    rintro σ₁ ⟨hmem₁, hreg₁, hk₁⟩
    have hapart := argTouched_apart i [v] (by simp; omega)
    have hk₁' : Keeps (argTouched i [v]) σ σ₁ := hk₁.mono fun x hx => by
      rcases List.mem_pair.mp hx with rfl | rfl
      · exact mem_argTouched_cons.mpr (.inr (.inl rfl))
      · exact mem_argTouched_cons.mpr (.inl rfl)
    have hout : OutgoingOnly fr b σ σ₁ := .of_keeps hmem₁ hk₁' hapart
    have hsp₁ := hout.sp.trans hsp
    refine (ih (i := i + 1) (by omega) (fun v hv => hvs v (List.mem_cons_of_mem _ hv)) hsp₁).mono ?_
    rintro σ₂ ⟨hmem₂, hk₂, hargs⟩
    refine ⟨hmem₂.trans hmem₁, fun x hx => ?_, fun j w hj => ?_⟩
    · rw [mem_argTouched_cons, not_or, not_or] at hx
      rw [hk₂ x hx.2.2]
      exact hk₁ x (by simp [hx.1, hx.2.1])
    · cases j with
      | zero =>
        cases hj
        -- The eighth argument is the last one, so nothing is placed after it by way of `a7`.
        have hkept : XReg.a0 + i ∉ argTouched (i + 1) vs := by
          unfold argTouched
          split
          · exact List.not_mem_nil
          · rename_i hvs
            have hpos := List.length_pos_iff.mpr hvs
            intro hmem
            rcases List.mem_cons.mp hmem with h | h
            · have : 10 + i = 17 := h
              omega
            · have := (List.mem_range'_1.mp h).1
              have : 10 + (i + 1) ≤ 10 + i := this
              omega
        rw [Nat.add_zero, hk₂ _ hkept]
        exact hreg₁
      | succ j =>
        have hj' : vs[j]? = some w := hj
        have hmem : w ∈ vs := List.mem_of_getElem? hj'
        rw [show i + (j + 1) = i + 1 + j by omega, hargs j w hj']
        exact hout.eval hfr hA hb hsp (hvs w (List.mem_cons_of_mem _ hmem))

/-- What brings the result of a call to its place, which is a register where the generator says so. -/
theorem callResult_does (hfr : fr.Laid A) (hA : A.Placed nv) (hb : fr.At b 0)
    (hsp : σ.get XReg.sp = b) {override : Option XReg}
    (hover : ∀ x, override = some x → x = XReg.a0) {d : Nat} (hd : d < nv) :
    Does sym (callResult fr A override (some d)) σ fun σ' =>
      match override with
      | none => locs fr A σ' d = σ.get XReg.a0
      | some x => σ'.get x = σ.get XReg.a0 := by
  cases override with
  | none =>
    refine (callResult_assigns (slotsAligned hfr hb hsp) hsp (hA.locates hd)).mono fun σ' h => ?_
    have hsp' : σ'.get XReg.sp = b := by
      refine (h.regs XReg.sp (by decide) fun hplace => ?_).trans hsp
      exact absurd (place_notMem (hA.locates hd) hplace) (by decide)
    show locs fr A σ' d = _
    rw [locs_eq_read hsp']
    exact h.held
  | some x =>
    obtain rfl := hover x rfl
    exact .nil rfl

/-- **At the jump of a call**, from a machine `σ` in front of its code: the arguments are where the
callee takes them from, and of the rest of the frame nothing has been written. -/
structure ArgsPlaced (fr : Frame) (A : Allocation) (b : BitVec 32) (nv : Nat) (args : List Val)
    (σ σ' : Data) : Prop where
  sp : σ'.get XReg.sp = b
  regs : ∀ i v, i < 8 → args[i]? = some v → σ'.get (XReg.a0 + i) = v.eval (locs fr A σ)
  stack : ∀ i v, 8 ≤ i → args[i]? = some v →
    σ'.mem (cell b (4 * (i - 8))) = v.eval (locs fr A σ)
  vregs : ∀ v < nv, locs fr A σ' v = locs fr A σ v
  slots : ∀ off, fr.spillBase ≤ off → off < fr.frameSize → σ'.mem (cell b off) = σ.mem (cell b off)
  others : ∀ a, (∀ i, 8 ≤ i → i < args.length → a ≠ cell b (4 * (i - 8))) → σ'.mem a = σ.mem a

theorem callArgs_does (hfr : fr.Laid A) (hA : A.Placed nv) (hb : fr.At b 0) {inst : Inst}
    (hsize : (inst.args.length - 8) * 4 ≤ fr.outArgArea)
    (hargs : ∀ v ∈ inst.args, ∀ r, v.reg? = some r → r < nv) (hsp : σ.get XReg.sp = b) :
    Does sym (callArgs fr A inst) σ (ArgsPlaced fr A b nv inst.args σ) := by
  have hdrop : (inst.args.drop 8).length = inst.args.length - 8 := List.length_drop
  refine (stackArgs_does hfr hA hb (inst.args.drop 8) (k := 0) (by rw [hdrop]; omega)
    (fun v hv => hargs v (List.mem_of_mem_drop hv)) hsp).append ?_
  rintro σ₁ ⟨hout, hstack, hmem₁⟩
  have hsp₁ := hout.sp.trans hsp
  refine (regArgs_does hfr hA hb (inst.args.take 8) (i := 0) (by simp)
    (fun v hv => hargs v (List.mem_of_mem_take hv)) hsp₁).mono ?_
  rintro σ₂ ⟨hmem₂, hk₂, hregs⟩
  have hout₂ : OutgoingOnly fr b σ₁ σ₂ := .of_keeps hmem₂ hk₂ (argTouched_apart _ _ (by simp))
  have hall := hout.trans hout₂
  refine ⟨hall.sp.trans hsp, fun i v hi hv => ?_, fun i v hi hv => ?_,
    fun v hv => hall.locs hfr hA hb hsp hv, fun off hlow hhigh => ?_, fun a ha => ?_⟩
  · have hget : (inst.args.take 8)[i]? = some v := by
      rw [List.getElem?_take_of_lt hi]
      exact hv
    have := hregs i v hget
    rw [Nat.zero_add] at this
    rw [this]
    exact hout.eval hfr hA hb hsp (hargs v (List.mem_of_getElem? hv))
  · have hget : (inst.args.drop 8)[i - 8]? = some v := by
      rw [List.getElem?_drop, show 8 + (i - 8) = i by omega]
      exact hv
    have := hstack (i - 8) v hget
    rw [Nat.zero_add, Nat.mul_comm] at this
    rw [hmem₂]
    exact this
  · refine hall.mem _ fun off' hoff' => hb.cell_ne ?_ ?_ ?_ <;>
      have := hfr.spill <;> omega
  · rw [hmem₂]
    refine hmem₁ a fun j hj => ?_
    have := ha (8 + j) (Nat.le_add_right 8 j) (by omega)
    rwa [show 4 * (8 + j - 8) = (0 + j) * 4 by omega] at this

end Args

/-- **Outgoing arguments are delivered**: for each call of a function, whatever its arguments and
wherever their vregs are, the code in front of the jump takes any machine in the frame to one with
the arguments in place, and the code behind it brings the result to its place. -/
theorem emitCall_delivers {S : Sorting} {F : IRFunc} {n : Nat} {A : Allocation} (hF : F.InRange)
    (hA : allocateRegisters S F n = .ok A) {inst : Inst} (hi : inst ∈ F.insts)
    (hcall : inst.op = .Call) (m : IRModule) (opt : Bool) (sym : String → BitVec 32)
    {b : BitVec 32} (hb : (frameOf A F).At b 0) {override : Option XReg}
    (hover : ∀ x, override = some x → x = XReg.a0) :
    emitInst m opt (frameOf A F) A override inst =
        callArgs (frameOf A F) A inst ++ [.call inst.callee] ++
          callResult (frameOf A F) A override inst.dst ∧
      (∀ σ : Data, σ.get XReg.sp = b →
        Does sym (callArgs (frameOf A F) A inst) σ
          (ArgsPlaced (frameOf A F) A b F.numVregs inst.args σ)) ∧
      ∀ σ : Data, σ.get XReg.sp = b → ∀ d, inst.dst = some d →
        Does sym (callResult (frameOf A F) A override (some d)) σ fun σ' =>
          match override with
          | none => locs (frameOf A F) A σ' d = σ.get XReg.a0
          | some x => σ'.get x = σ.get XReg.a0 := by
  obtain ⟨-, hplaced⟩ := allocateRegisters_valid hF hA
  obtain ⟨bb, hbb, hmem⟩ := List.mem_flatMap.mp hi
  have hin := hF.insts bb hbb inst hmem
  have hlaid := frameOf_laid A F
  refine ⟨by simp only [emitInst, hcall, emitCall], fun σ hsp => ?_, fun σ hsp d hd => ?_⟩
  · have hsize := IRFunc.stackArgs_le hbb hmem
    rw [Inst.stackArgs, if_pos hcall] at hsize
    refine callArgs_does hlaid hplaced hb (Nat.mul_le_mul_right 4 hsize) (fun v hv r hr => ?_) hsp
    exact hin.1 r (Inst.mem_uses (by simpa only [Inst.operands, hcall] using hv) hr)
  · exact callResult_does hlaid hplaced hb hsp hover (hin.dst_lt hd)

/-- The call of `int f(int x, int y) { return g(y, x, 3, 4, 5, 6, 7, x, x); }`. -/
def nineCall : Inst where
  op := .Call
  dst := some 2
  callee := "g"
  args := [.reg 1, .reg 0, .imm 3, .imm 4, .imm 5, .imm 6, .imm 7, .reg 0, .reg 0]

def nineCallFunc : IRFunc where
  name := "f"
  numParams := 2
  paramRegs := [0, 1]
  numVregs := 3
  blocks := [{ insts := [nineCall], term := .Ret, retHasVal := true, retVal := .reg 2 }]

theorem emitCall_delivers_nineCall : ∃ A, allocateRegisters .insertion nineCallFunc 9 = .ok A ∧
    ∀ σ : Data, σ.get XReg.sp = 0x8000#32 →
      Does (fun _ => 0) (callArgs (frameOf A nineCallFunc) A nineCall) σ
        (ArgsPlaced (frameOf A nineCallFunc) A 0x8000#32 3 nineCall.args σ) :=
  ⟨_, rfl, (emitCall_delivers (S := .insertion) (n := 9)
    ⟨by decide, by decide, by decide, by decide⟩ rfl List.mem_cons_self rfl {} true (fun _ => 0)
    ⟨by decide, by decide⟩ (fun _ h => (Option.some.inj h).symm)).2.1⟩

end OptCodeGen

end ToyC
