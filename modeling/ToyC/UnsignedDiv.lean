import ToyC.IRRuns
import ToyC.Magic
import Mathlib.Data.Finset.Card

/-!
# Marking divisions as unsigned

A division of a non-negative number by a constant has shorter code. The pass looks for the
vregs that are not negative: it takes a vreg for one as soon as one instruction that writes it
yields a non-negative number from such operands, and goes over the function until it finds
no more (`SomeNonNeg`). Then it marks the divisions of these vregs.

But a vreg may be written by several instructions. A run never divides a negative number by a
marked division if the dividend was last written by an instruction that yields a non-negative
number (`knownNonNeg`), which nothing in the pass makes sure of (`markUnsignedDiv_nonneg`).
-/

namespace ToyC

/-! ## The pass -/

/-- A power of two. -/
def isPow2 (v : Word) : Bool := BitVec.slt 0 v && v &&& (v - 1) = 0

/-- Whether a division by a constant is done by a magic number. -/
def needsMagic (d : Word) : Bool :=
  let ad := magicAd d
  !ad.slt 3 && !isPow2 ad

/-- Whether an operand is taken for a non-negative number. -/
def valNonNeg (nonNeg : Nat → Bool) (v : Val) : Bool :=
  match v with
  | .imm i => !i.slt 0
  | .reg r => nonNeg r

/-- Whether the result of an instruction is taken for a non-negative number. -/
def nonNegRule (nonNeg : Nat → Bool) (inst : Inst) : Bool :=
  match inst.op with
  | .Mv => valNonNeg nonNeg inst.a
  | .Add | .Mul => valNonNeg nonNeg inst.a && valNonNeg nonNeg inst.b
  | .Sub => valNonNeg nonNeg inst.a && inst.b = .imm 0
  | .Not | .Lt | .Gt | .Le | .Ge | .Eq | .Ne => true
  | _ => false

/-- Whether an instruction is a division by a positive constant that needs a magic number. -/
def isMagicDiv (inst : Inst) : Bool :=
  match inst.op, inst.b with
  | .Div, .imm c | .Mod, .imm c => BitVec.slt 0 c && needsMagic c
  | _, _ => false

/-- The vregs found so far, and whether there were new ones in this sweep. -/
abbrev MarkState := (Nat → Bool) × Bool

/-- The hint of an instruction. -/
def markInst (nonNeg : Nat → Bool) (inst : Inst) : Inst :=
  if isMagicDiv inst && valNonNeg nonNeg inst.a then { inst with unsignedDiv := true } else inst

/-- What an instruction says about its destination. -/
def markStep (nv : Nat) (s : MarkState) (inst : Inst) : MarkState :=
  match inst.dst with
  | none => s
  | some d =>
    if d < nv && nonNegRule s.1 inst && !s.1 d then (Function.update s.1 d true, true) else s

/-- The instructions of a block. -/
def markInsts (nv : Nat) : MarkState → List Inst → List Inst × MarkState
  | s, [] => ([], s)
  | s, inst :: insts =>
    let (insts, s') := markInsts nv (markStep nv s inst) insts
    (markInst s.1 inst :: insts, s')

/-- The blocks of a function. -/
def markBlocks (nv : Nat) : MarkState → List BasicBlock → List BasicBlock × MarkState
  | s, [] => ([], s)
  | s, bb :: bbs =>
    let (insts, s) := markInsts nv s bb.insts
    let (bbs, s) := markBlocks nv s bbs
    ({ bb with insts } :: bbs, s)

/-- One sweep over the function. -/
def markSweep (F : IRFunc) (s : List BasicBlock × (Nat → Bool)) :
    (List BasicBlock × (Nat → Bool)) ⊕ IRFunc :=
  let (blocks, nonNeg, changed) := markBlocks F.numVregs (s.2, false) s.1
  if changed then .inl (blocks, nonNeg) else .inr { F with blocks }

/-- **Mark the divisions of non-negative numbers**: sweeps over the function, until one finds
no new vreg. -/
def markUnsignedDiv (F : IRFunc) (n : Nat) : Outcome IRFunc :=
  if F.numVregs = 0 then .ok F
  else Outcome.loop (fun _ s => .ok (markSweep F s)) n (F.blocks, fun _ => false)

/-! ## What is marked -/

/-- **A vreg the pass takes for non-negative**: it is in every set that has the destination of
each instruction whose result is non-negative by the set. -/
def SomeNonNeg (F : IRFunc) (x : Nat) : Prop :=
  ∀ S : Nat → Bool, (∀ inst ∈ F.insts, ∀ d ∈ inst.dst, d < F.numVregs → nonNegRule S inst = true →
    S d = true) → S x = true

/-- An operand it takes for non-negative. -/
def SomeNonNegVal (F : IRFunc) (v : Val) : Prop :=
  match v with
  | .imm i => i.slt 0 = false
  | .reg r => SomeNonNeg F r

theorem valNonNeg_mono {S T : Nat → Bool} (h : ∀ x, S x = true → T x = true) {v : Val}
    (hv : valNonNeg S v = true) : valNonNeg T v = true := by
  cases v with
  | imm => exact hv
  | reg r => exact h r hv

theorem nonNegRule_mono {S T : Nat → Bool} (h : ∀ x, S x = true → T x = true) {inst : Inst}
    (hr : nonNegRule S inst = true) : nonNegRule T inst = true := by
  unfold nonNegRule at hr ⊢
  cases hop : inst.op with
  | Mv =>
    rw [hop] at hr
    exact valNonNeg_mono h hr
  | Add | Mul =>
    simp only [hop, Bool.and_eq_true] at hr ⊢
    exact ⟨valNonNeg_mono h hr.1, valNonNeg_mono h hr.2⟩
  | Sub =>
    simp only [hop, Bool.and_eq_true] at hr ⊢
    exact ⟨valNonNeg_mono h hr.1, hr.2⟩
  | Not | Lt | Gt | Le | Ge | Eq | Ne => rfl
  | _ =>
    rw [hop] at hr
    cases hr

/-- **An instruction as the pass may have left it.** -/
structure Marked (F : IRFunc) (inst inst' : Inst) : Prop where
  same : inst' = { inst with unsignedDiv := inst'.unsignedDiv }
  hint : inst'.unsignedDiv = true →
    inst.unsignedDiv = true ∨ isMagicDiv inst = true ∧ SomeNonNegVal F inst.a

/-- The same of a block. -/
structure MarkedBlock (F : IRFunc) (bb bb' : BasicBlock) : Prop where
  same : bb' = { bb with insts := bb'.insts }
  insts : List.Forall₂ (Marked F) bb.insts bb'.insts

section Sweep

variable {F : IRFunc} {nv : Nat}

/-- The vregs found so far are those the pass is meant to find. -/
def FoundSome (F : IRFunc) (nonNeg : Nat → Bool) : Prop := ∀ x, nonNeg x = true → SomeNonNeg F x

theorem FoundSome.val {nonNeg : Nat → Bool} (h : FoundSome F nonNeg) {v : Val}
    (hv : valNonNeg nonNeg v = true) : SomeNonNegVal F v := by
  cases v with
  | imm i =>
    show i.slt 0 = false
    simpa [valNonNeg] using hv
  | reg r => exact h r hv

theorem Marked.refl (inst : Inst) : Marked F inst inst := ⟨rfl, fun h => .inl h⟩

/-- An instruction that is marked now. -/
theorem Marked.markInst {nonNeg : Nat → Bool} (h : FoundSome F nonNeg) {inst inst' : Inst}
    (hm : Marked F inst inst') : Marked F inst (markInst nonNeg inst') := by
  unfold ToyC.markInst
  split
  · rename_i hmark
    rw [Bool.and_eq_true, hm.same] at hmark
    refine ⟨?_, fun _ => .inr ⟨hmark.1, h.val hmark.2⟩⟩
    rw [hm.same]
  · exact hm

theorem FoundSome.markStep {s : MarkState} (h : FoundSome F s.1) {inst inst' : Inst}
    (hi : inst ∈ F.insts) (hm : Marked F inst inst') :
    FoundSome F (markStep F.numVregs s inst').1 := by
  have hdst : inst'.dst = inst.dst := by rw [hm.same]
  have hrule : nonNegRule s.1 inst' = nonNegRule s.1 inst := by
    rw [hm.same]
    rfl
  unfold ToyC.markStep
  rw [hdst, hrule]
  cases hd : inst.dst with
  | none => exact h
  | some d =>
    dsimp only
    split
    · rename_i hc
      simp only [Bool.and_eq_true, decide_eq_true_iff] at hc
      intro x hx
      by_cases hxd : x = d
      · subst hxd
        exact fun S hS => hS inst hi x hd hc.1.1 (nonNegRule_mono (fun y hy => h y hy S hS) hc.1.2)
      · exact h x (by simpa [Function.update_of_ne hxd] using hx)
    · exact h

/-- **What a sweep marks was to be marked.** -/
theorem markInsts_marked {insts insts' : List Inst} (hm : List.Forall₂ (Marked F) insts insts')
    (hi : ∀ inst ∈ insts, inst ∈ F.insts) {s : MarkState} (h : FoundSome F s.1) :
    List.Forall₂ (Marked F) insts (markInsts F.numVregs s insts').1 ∧
      FoundSome F (markInsts F.numVregs s insts').2.1 := by
  induction hm generalizing s with
  | nil => exact ⟨.nil, h⟩
  | cons hm _ ih =>
    obtain ⟨hrest, hfound⟩ := ih (fun i hmem => hi i (List.mem_cons_of_mem _ hmem))
      (h.markStep (hi _ List.mem_cons_self) hm)
    exact ⟨.cons (hm.markInst h) hrest, hfound⟩

theorem markBlocks_marked {bbs bbs' : List BasicBlock}
    (hm : List.Forall₂ (MarkedBlock F) bbs bbs') (hi : ∀ bb ∈ bbs, bb ∈ F.blocks) {s : MarkState}
    (h : FoundSome F s.1) :
    List.Forall₂ (MarkedBlock F) bbs (markBlocks F.numVregs s bbs').1 ∧
      FoundSome F (markBlocks F.numVregs s bbs').2.1 := by
  induction hm generalizing s with
  | nil => exact ⟨.nil, h⟩
  | @cons bb bb' _ _ hm _ ih =>
    have hbb := hi bb List.mem_cons_self
    obtain ⟨hinsts, hfound⟩ := markInsts_marked hm.insts
      (fun i hmem => List.mem_flatMap.mpr ⟨bb, hbb, hmem⟩) h
    obtain ⟨hrest, hfound⟩ := ih (fun b hmem => hi b (List.mem_cons_of_mem _ hmem)) hfound
    refine ⟨.cons ⟨?_, hinsts⟩ hrest, hfound⟩
    rw [hm.same]

/-- **The pass marks no more than it is meant to.** -/
theorem markUnsignedDiv_marked {n : Nat} {F' : IRFunc} (h : markUnsignedDiv F n = .ok F') :
    F' = { F with blocks := F'.blocks } ∧ List.Forall₂ (MarkedBlock F) F.blocks F'.blocks := by
  have hstart : List.Forall₂ (MarkedBlock F) F.blocks F.blocks :=
    List.forall₂_same.mpr fun bb _ => ⟨rfl, List.forall₂_same.mpr fun inst _ => .refl inst⟩
  unfold markUnsignedDiv at h
  split at h
  · cases h
    exact ⟨rfl, hstart⟩
  · refine Outcome.loop_invariant
      (I := fun s : List BasicBlock × (Nat → Bool) =>
        List.Forall₂ (MarkedBlock F) F.blocks s.1 ∧ FoundSome F s.2)
      (Q := fun F' => F' = { F with blocks := F'.blocks } ∧
        List.Forall₂ (MarkedBlock F) F.blocks F'.blocks)
      ?_ ?_ ⟨hstart, fun _ hx => absurd hx Bool.false_ne_true⟩ h
    · intro n s s' hs hstep
      obtain ⟨hblocks, hfound⟩ := markBlocks_marked (s := (s.2, false)) hs.1 (fun _ h => h) hs.2
      unfold markSweep at hstep
      dsimp only at hstep
      split at hstep
      · cases hstep
        exact ⟨hblocks, hfound⟩
      · cases hstep
    · intro n s F' hs hstep
      obtain ⟨hblocks, -⟩ := markBlocks_marked (s := (s.2, false)) hs.1 (fun _ h => h) hs.2
      unfold markSweep at hstep
      dsimp only at hstep
      split at hstep
      · cases hstep
      · cases hstep
        exact ⟨rfl, hblocks⟩

end Sweep

/-! ## The sweeps end -/

section Total

variable {nv : Nat}

/-- What happens to the vregs found: none is lost, and a change is a new one. -/
structure MarkState.Grows (nv : Nat) (s s' : MarkState) : Prop where
  keep : ∀ x, s.1 x = true → s'.1 x = true
  new : s'.2 = true → s.2 = true ∨ ∃ d < nv, s.1 d = false ∧ s'.1 d = true

theorem MarkState.Grows.refl (s : MarkState) : s.Grows nv s := ⟨fun _ h => h, .inl⟩

theorem MarkState.Grows.trans {s₁ s₂ s₃ : MarkState} (h : s₁.Grows nv s₂) (h' : s₂.Grows nv s₃) :
    s₁.Grows nv s₃ where
  keep x hx := h'.keep x (h.keep x hx)
  new hnew := by
    rcases h'.new hnew with hnew | ⟨d, hd, hfalse, htrue⟩
    · rcases h.new hnew with hnew | ⟨d, hd, hfalse, htrue⟩
      · exact .inl hnew
      · exact .inr ⟨d, hd, hfalse, h'.keep d htrue⟩
    · refine .inr ⟨d, hd, ?_, htrue⟩
      exact Bool.eq_false_iff.mpr fun htrue' =>
        Bool.false_ne_true (hfalse.symm.trans (h.keep d htrue'))

theorem markStep_grows (s : MarkState) (inst : Inst) : s.Grows nv (markStep nv s inst) := by
  unfold markStep
  split
  · exact .refl s
  · rename_i d _
    split
    · rename_i hc
      simp only [Bool.and_eq_true, decide_eq_true_iff, Bool.not_eq_true'] at hc
      refine ⟨fun x hx => ?_, fun _ => .inr ⟨d, hc.1.1, hc.2, Function.update_self ..⟩⟩
      by_cases hxd : x = d
      · rw [hxd]
        exact Function.update_self ..
      · exact (Function.update_of_ne hxd ..).trans hx
    · exact .refl s

theorem markInsts_grows (insts : List Inst) (s : MarkState) :
    s.Grows nv (markInsts nv s insts).2 := by
  induction insts generalizing s with
  | nil => exact .refl s
  | cons inst insts ih => exact (markStep_grows s inst).trans (ih _)

theorem markBlocks_grows (bbs : List BasicBlock) (s : MarkState) :
    s.Grows nv (markBlocks nv s bbs).2 := by
  induction bbs generalizing s with
  | nil => exact .refl s
  | cons bb bbs ih => exact (markInsts_grows bb.insts s).trans (ih _)

/-- **The pass ends.** -/
theorem markUnsignedDiv_total (F : IRFunc) : ∃ n F', markUnsignedDiv F n = .ok F' := by
  unfold markUnsignedDiv
  by_cases hnv : F.numVregs = 0
  · exact ⟨0, F, if_pos hnv⟩
  · simp only [if_neg hnv]
    refine Outcome.loop_total (I := fun _ => True)
      (fun s : List BasicBlock × (Nat → Bool) =>
        ((Finset.range F.numVregs).filter fun x => s.2 x = false).card)
      (fun n s _ => ?_) trivial
    have hgrows := @markBlocks_grows F.numVregs s.1 (s.2, false)
    unfold markSweep
    dsimp only
    split
    · rename_i hchanged
      refine .inr ⟨_, rfl, trivial, Finset.card_lt_card ?_⟩
      obtain ⟨d, hd, hfalse, htrue⟩ := (hgrows.new hchanged).resolve_left Bool.false_ne_true
      refine Finset.ssubset_iff_of_subset (fun x hx => ?_) |>.mpr ⟨d, ?_, ?_⟩
      · rw [Finset.mem_filter] at hx ⊢
        refine ⟨hx.1, Bool.eq_false_iff.mpr fun htrue => ?_⟩
        exact Bool.false_ne_true (hx.2.symm.trans (hgrows.keep x htrue))
      · exact Finset.mem_filter.mpr ⟨Finset.mem_range.mpr hd, hfalse⟩
      · rw [Finset.mem_filter]
        exact fun h => Bool.false_ne_true (h.2.symm.trans htrue)
    · exact .inl ⟨_, rfl⟩

end Total

/-! ## Runs -/

/-- A number that a word can hold. -/
def Word.Fits (x : Int) : Prop := -2 ^ 31 ≤ x ∧ x < 2 ^ 31

/-- **An instruction without undefined behaviour**: no signed overflow, no division by zero,
and no division of the least number by minus one. -/
def Inst.Defined (inst : Inst) (R : Regs) : Prop :=
  let a := inst.a.eval R
  let b := inst.b.eval R
  match inst.op with
  | .Add => Word.Fits (a.toInt + b.toInt)
  | .Sub => Word.Fits (a.toInt - b.toInt)
  | .Mul => Word.Fits (a.toInt * b.toInt)
  | .Neg => Word.Fits (-a.toInt)
  | .Div | .Mod => b ≠ 0 ∧ ¬ (a = Word.intMin ∧ b = -1)
  | _ => True

/-- **A vreg known to be non-negative** from the instructions executed so far, the latest first:
the last one that wrote it yields a non-negative number from what was known by then. -/
def knownNonNeg : List Inst → Nat → Bool
  | [], _ => false
  | inst :: done, x =>
    if inst.dst = some x then nonNegRule (knownNonNeg done) inst else knownNonNeg done x

/-- **The dividend is known at a division the pass marks**: a division by a positive constant that
needs a magic number, where the pass takes the dividend for non-negative. -/
def DividendKnown (F : IRFunc) (done : List Inst) (c : Config) : Prop :=
  ∀ inst ∈ c.rest.head?, isMagicDiv inst = true →
    ∀ x, inst.a = .reg x → SomeNonNeg F x → knownNonNeg done x = true

section Values

variable {S : Nat → Bool} {R R' : Regs} {G G' : Globals} {call : Callee} {inst : Inst}

theorem valNonNeg_toInt (hS : ∀ x, S x = true → 0 ≤ (R x).toInt) {v : Val}
    (hv : valNonNeg S v = true) : 0 ≤ (v.eval R).toInt := by
  cases v with
  | imm i => simpa [valNonNeg, BitVec.slt] using hv
  | reg r => exact hS r hv

theorem Word.toInt_ofBool_nonneg (b : Bool) : 0 ≤ (Word.ofBool b).toInt := by
  cases b <;> decide

theorem Word.toInt_add_of_fits {a b : Word} (h : Word.Fits (a.toInt + b.toInt)) :
    (a + b).toInt = a.toInt + b.toInt := by
  unfold Word.Fits at h
  rw [BitVec.toInt_add]
  exact Int.bmod_eq_of_le_mul_two (by omega) (by omega)

theorem Word.toInt_mul_of_fits {a b : Word} (h : Word.Fits (a.toInt * b.toInt)) :
    (a * b).toInt = a.toInt * b.toInt := by
  unfold Word.Fits at h
  rw [BitVec.toInt_mul]
  generalize a.toInt * b.toInt = x at h ⊢
  exact Int.bmod_eq_of_le_mul_two (by omega) (by omega)

/-- **The rule is right**: a result taken for non-negative is, when the vregs of the set are. -/
theorem nonNegRule_toInt (hS : ∀ x, S x = true → 0 ≤ (R x).toInt) (hdef : inst.Defined R)
    (hrule : nonNegRule S inst = true) (hexec : inst.exec call R G = .ok (R', G')) {x : Nat}
    (hd : inst.dst = some x) : 0 ≤ (R' x).toInt := by
  have hval : ∀ {w : Word}, Outcome.ok (R.write inst.dst w, G) = .ok (R', G') → R' x = w := by
    intro w h
    rw [hd] at h
    cases h
    exact R.set_same x w
  unfold nonNegRule at hrule
  unfold Inst.Defined at hdef
  unfold Inst.exec at hexec
  cases hop : inst.op with
  | Mv =>
    rw [hop] at hrule hexec
    rw [hval hexec]
    exact valNonNeg_toInt hS hrule
  | Add =>
    simp only [hop, Bool.and_eq_true] at hrule hexec hdef
    have ha := valNonNeg_toInt hS hrule.1
    have hb := valNonNeg_toInt hS hrule.2
    rw [hval hexec, Op.eval, Word.toInt_add_of_fits hdef]
    exact Int.add_nonneg ha hb
  | Mul =>
    simp only [hop, Bool.and_eq_true] at hrule hexec hdef
    have ha := valNonNeg_toInt hS hrule.1
    have hb := valNonNeg_toInt hS hrule.2
    rw [hval hexec, Op.eval, Word.toInt_mul_of_fits hdef]
    exact Int.mul_nonneg ha hb
  | Sub =>
    simp only [hop, Bool.and_eq_true, decide_eq_true_iff] at hrule hexec hdef
    have ha := valNonNeg_toInt hS hrule.1
    rw [hval hexec, Op.eval, hrule.2]
    show 0 ≤ (inst.a.eval R - 0#32).toInt
    rwa [BitVec.sub_zero]
  | Not | Lt | Gt | Le | Ge | Eq | Ne =>
    rw [hop] at hexec
    rw [hval hexec]
    exact Word.toInt_ofBool_nonneg _
  | _ =>
    rw [hop] at hrule
    cases hrule

end Values

section Run

variable {F : IRFunc} {call : Callee} {c₀ c : Config} {done : List Inst}

/-- The steps of a run have no undefined behaviour. -/
def IRFunc.RunDefined (F : IRFunc) (call : Callee) (c₀ : Config) : Prop :=
  ∀ done c, F.Ran call c₀ done c → ∀ inst ∈ c.rest.head?, inst.Defined c.regs

/-- **What is known to be non-negative is.** -/
theorem IRFunc.Ran.known (hdef : F.RunDefined call c₀) (h : F.Ran call c₀ done c) :
    ∀ x, knownNonNeg done x = true → 0 ≤ (c.regs x).toInt := by
  induction h with
  | start => exact fun x hx => absurd hx Bool.false_ne_true
  | @step done c c' h hs ih =>
    have hdef := hdef done c h
    unfold IRFunc.step at hs
    cases hrest : c.rest with
    | nil =>
      simp only [hrest] at hs
      cases hb : F.blocks[c.block]? with
      | none => simp [hb] at hs
      | some bb =>
        simp only [hb] at hs
        obtain ⟨s, -, -, rfl⟩ := IRFunc.execTerm_inl hs
        exact ih
    | cons inst rest =>
      simp only [hrest] at hs
      obtain ⟨⟨R, G⟩, hexec, hs⟩ := Outcome.bind_eq_ok.mp hs
      cases hs
      intro x hx
      show 0 ≤ (R x).toInt
      simp only [List.head?_cons, Option.toList_some, List.singleton_append, knownNonNeg] at hx
      split at hx
      · rename_i hd
        exact nonNegRule_toInt ih (hdef inst (by rw [hrest]; rfl)) hx hexec hd
      · rename_i hd
        rw [Inst.exec_frame hexec hd]
        exact ih x hx

end Run

theorem exists_of_forall₂ {α β : Type} {r : α → β → Prop} {as : List α} {bs : List β}
    (h : List.Forall₂ r as bs) {b : β} (hb : b ∈ bs) : ∃ a ∈ as, r a b := by
  induction h with
  | nil => cases hb
  | cons hr _ ih =>
    rcases List.mem_cons.mp hb with rfl | hb
    · exact ⟨_, List.mem_cons_self, hr⟩
    · obtain ⟨a, ha, hab⟩ := ih hb
      exact ⟨a, List.mem_cons_of_mem _ ha, hab⟩

/-- An instruction with a hint got it from the pass. -/
theorem markUnsignedDiv_hint {F F' : IRFunc} {n : Nat} (h : markUnsignedDiv F n = .ok F')
    (hF : ∀ inst ∈ F.insts, inst.unsignedDiv = false) {inst : Inst} (hi : inst ∈ F'.insts)
    (hhint : inst.unsignedDiv = true) : isMagicDiv inst = true ∧ SomeNonNegVal F inst.a := by
  obtain ⟨bb', hbb', hi⟩ := List.mem_flatMap.mp hi
  obtain ⟨bb, hbb, hm⟩ := exists_of_forall₂ (markUnsignedDiv_marked h).2 hbb'
  obtain ⟨inst₀, hi₀, hm⟩ := exists_of_forall₂ hm.insts hi
  have hfalse := hF inst₀ (List.mem_flatMap.mpr ⟨bb, hbb, hi₀⟩)
  rcases hm.hint hhint with htrue | hmark
  · exact absurd (hfalse.symm.trans htrue) Bool.false_ne_true
  · rw [hm.same]
    exact hmark

/-- **A marked division has a non-negative dividend in every run in which the dividends are
known**: a run without undefined behaviour, where at each division the pass marks the
dividend was last written by an instruction with a result that is not negative. -/
theorem markUnsignedDiv_nonneg {F : IRFunc} (hF : ∀ inst ∈ F.insts, inst.unsignedDiv = false) :
    (∃ n F', markUnsignedDiv F n = .ok F') ∧
      ∀ n F', markUnsignedDiv F n = .ok F' → ∀ call junk args G,
        F'.RunDefined call (F'.entry junk args G) →
        (∀ done c, F'.Ran call (F'.entry junk args G) done c → DividendKnown F done c) →
        ∀ done c, F'.Ran call (F'.entry junk args G) done c → ∀ inst ∈ c.rest.head?,
          inst.unsignedDiv = true → 0 ≤ (inst.a.eval c.regs).toInt := by
  refine ⟨markUnsignedDiv_total F, ?_⟩
  intro n F' h call junk args G hdef hknown done c hran inst hi hhint
  obtain ⟨hdiv, hsome⟩ := markUnsignedDiv_hint h hF (hran.mem_insts hi) hhint
  cases ha : inst.a with
  | imm i =>
    rw [ha] at hsome
    have hi : i.slt 0 = false := hsome
    simpa [BitVec.slt] using hi
  | reg x =>
    rw [ha] at hsome
    exact hran.known hdef x (hknown done c hran inst hi hdiv x ha hsome)

/-! ## A division that is marked -/

/-- `int f() { int x = k; x = l; return x / 3; }`, with the hint at the division or not. -/
def divisionFunc (k l : Word) (hint : Bool) : IRFunc where
  numVregs := 2
  blocks := [{
    insts := [{ op := .Mv, dst := some 0, a := .imm k }, { op := .Mv, dst := some 0, a := .imm l },
      { op := .Div, dst := some 1, a := .reg 0, b := .imm 3, unsignedDiv := hint }]
    term := .Ret
    retHasVal := true
    retVal := .reg 1 }]

/-- The point in front of the division. -/
def atDivision (k l : Word) : Config :=
  ⟨0, ((divisionFunc k l true).blockAt 0).insts.drop 2,
    Regs.set (Regs.set (fun _ => 0) 0 k) 0 l, fun _ => 0⟩

theorem divisionFunc_ran (k l : Word) :
    (divisionFunc k l true).Ran (fun _ => .stuck)
      ((divisionFunc k l true).entry (fun _ => 0) [] fun _ => 0)
      (((divisionFunc k l true).blockAt 0).insts.take 2).reverse (atDivision k l) := by
  have h₀ := @IRFunc.Ran.start (divisionFunc k l true) (fun _ => .stuck)
    ((divisionFunc k l true).entry (fun _ => 0) [] fun _ => 0)
  have h₁ := h₀.step rfl
  exact h₁.step rfl

theorem divisionFunc_defined (k l : Word) :
    (divisionFunc k l true).RunDefined (fun _ => .stuck)
      ((divisionFunc k l true).entry (fun _ => 0) [] fun _ => 0) := by
  intro done c hran inst hi
  have hmem := hran.mem_insts hi
  simp only [divisionFunc, IRFunc.insts, List.flatMap_cons, List.flatMap_nil, List.append_nil,
    List.mem_cons, List.not_mem_nil, or_false] at hmem
  rcases hmem with rfl | rfl | rfl
  · trivial
  · trivial
  · exact ⟨(by decide : (3 : Word) ≠ 0), fun h => absurd h.2 (by decide : (3 : Word) ≠ -1)⟩

theorem markUnsignedDiv_divisionFunc :
    0 ≤ ((Val.reg 0).eval (atDivision 5 7).regs).toInt := by
  refine (markUnsignedDiv_nonneg (F := divisionFunc 5 7 false) (by decide)).2 2
    (divisionFunc 5 7 true) rfl (fun _ => .stuck) (fun _ => 0) [] (fun _ => 0)
    (divisionFunc_defined 5 7) ?_ _ _ (divisionFunc_ran 5 7) _ rfl rfl
  intro done c hran inst hi hdiv x hx _
  obtain ⟨-, hdone⟩ := hran.of_ret rfl
  obtain ⟨rest, hrest⟩ := List.head?_eq_some_iff.mp hi
  rw [hrest] at hdone
  generalize hpre : done.reverse = pre at hdone
  obtain rfl : done = pre.reverse := by rw [← hpre, List.reverse_reverse]
  match pre, hdone with
  | [], h =>
    cases h
    cases hdiv
  | [_], h =>
    cases h
    cases hdiv
  | [_, _], h =>
    cases h
    cases hx
    decide
  | _ :: _ :: _ :: _, h => simp [divisionFunc, IRFunc.blockAt] at h

/-- The division of minus seven is marked, since the vreg was five before. -/
theorem markUnsignedDiv_negative :
    markUnsignedDiv (divisionFunc 5 (-7) false) 2 = .ok (divisionFunc 5 (-7) true) ∧
      (divisionFunc 5 (-7) true).RunDefined (fun _ => .stuck)
        ((divisionFunc 5 (-7) true).entry (fun _ => 0) [] fun _ => 0) ∧
      (divisionFunc 5 (-7) true).Ran (fun _ => .stuck)
        ((divisionFunc 5 (-7) true).entry (fun _ => 0) [] fun _ => 0)
        (((divisionFunc 5 (-7) true).blockAt 0).insts.take 2).reverse (atDivision 5 (-7)) ∧
      ((Val.reg 0).eval (atDivision 5 (-7)).regs).toInt = -7 :=
  ⟨rfl, divisionFunc_defined 5 (-7), divisionFunc_ran 5 (-7), by decide⟩

end ToyC
