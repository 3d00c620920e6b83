import ToyC.ConstOps
import ToyC.HostDivision
import ToyC.IRGen
import ToyC.RegAllocSound

/-!
# When the compiler traps

Two divisions of the host are not guarded. The folder divides two constants whenever the divisor is
not zero, so it traps where the least number is divided by `-1`; and the code generator asks for
the magic number of any divisor of a remainder that is no power of two, so it traps at a remainder
by the constant zero, which copying and propagating constants may produce. Every other division is
safe: a magic number is computed for divisors other than zero, and the two numbers that the
computation divides by are not zero then.

So a run of the compiler ends without a trap if and only if neither comes up: at no call of the
folder is there a division of these two constants, and no function whose code is generated has a
reachable remainder by zero (`compile?_ne_stuck_iff`). The analysis of the source guards the first
division and rejects the second one, but only where both operands are constants in the source.
-/

namespace ToyC

open Rv32 Pipeline

/-! ## Lists of checked steps -/

section Lists

variable {α β : Type} {f : α → Outcome β} {g : α → β} {l : List α}

theorem mapM'_ok (h : ∀ a ∈ l, f a = .ok (g a)) : l.mapM' f = .ok (l.map g) := by
  induction l with
  | nil => rfl
  | cons a l ih =>
    rw [List.mapM'_cons, h a List.mem_cons_self, Outcome.ok_bind,
      ih fun b hb => h b (List.mem_cons_of_mem _ hb)]
    rfl

theorem mapM'_stuck (h : ∀ a ∈ l, f a ≠ .timeout) {a : α} (ha : a ∈ l) (hs : f a = .stuck) :
    l.mapM' f = .stuck := by
  induction l with
  | nil => cases ha
  | cons b l ih =>
    rw [List.mapM'_cons]
    cases hb : f b with
    | ok c =>
      have hmem : a ∈ l := by
        refine (List.mem_cons.mp ha).resolve_left ?_
        rintro rfl
        rw [hb] at hs
        cases hs
      rw [Outcome.ok_bind, ih (fun c hc => h c (List.mem_cons_of_mem _ hc)) hmem]
      rfl
    | timeout => exact absurd hb (h b List.mem_cons_self)
    | stuck => rfl

theorem mapM'_ne_timeout (h : ∀ a ∈ l, f a ≠ .timeout) : l.mapM' f ≠ .timeout := by
  induction l with
  | nil => exact fun ht => by cases ht
  | cons a l ih =>
    have hl := ih fun b hb => h b (List.mem_cons_of_mem _ hb)
    rw [List.mapM'_cons]
    cases ha : f a with
    | ok b =>
      rw [Outcome.ok_bind]
      cases hr : l.mapM' f with
      | ok bs => exact fun ht => by cases ht
      | timeout => exact absurd hr hl
      | stuck => exact fun ht => by cases ht
    | timeout => exact absurd ha (h a List.mem_cons_self)
    | stuck => exact fun ht => by cases ht

end Lists

/-! ## Constant folding -/

/-- **A division that the folder may not do**: of the least number by `-1`, both constants. -/
def Inst.foldTraps (inst : Inst) : Bool :=
  (inst.op = .Div ∨ inst.op = .Mod) ∧ inst.a = .imm Word.intMin ∧ inst.b = .imm (-1)

/-- There is none in a function. -/
def FoldsSafely (F : IRFunc) : Prop := ∀ inst ∈ F.insts, inst.foldTraps = false

theorem hostTraps_iff {a b : Word} (hb : b ≠ 0#32) : HostTraps a b ↔ a = Word.intMin ∧ b = -1 :=
  or_iff_right hb

theorem foldImm?_eq {op : Op} {av bv : Word}
    (h : ¬ ((op = .Div ∨ op = .Mod) ∧ av = Word.intMin ∧ bv = -1)) :
    foldImm? op av bv = .ok (foldImm op av bv) := by
  cases op with
  | Div | Mod =>
    simp only [foldImm?, foldImm]
    by_cases hb : bv = 0#32
    · rw [if_pos hb, if_pos hb]
    · have hsafe : ¬ HostTraps av bv := fun ht => h ⟨by simp, (hostTraps_iff hb).mp ht⟩
      rw [if_neg hb, if_neg hb]
      first
        | rw [hostDiv?, if_neg hsafe]
        | rw [hostMod?, if_neg hsafe]
      rfl
  | _ => rfl

theorem foldInst?_eq {inst : Inst} (h : inst.foldTraps = false) :
    foldInst? inst = .ok (foldInst inst) := by
  unfold foldInst?
  split
  · rename_i av bv ha hb
    split
    · rename_i hbin
      have hsafe : ¬ ((inst.op = .Div ∨ inst.op = .Mod) ∧ av = Word.intMin ∧ bv = -1) := by
        rintro ⟨hop, rfl, rfl⟩
        simp [Inst.foldTraps, hop, ha, hb] at h
      rw [foldImm?_eq hsafe, Outcome.ok_bind, foldInst, if_pos hbin, ha, hb]
      dsimp only
      cases foldImm inst.op av bv <;> rfl
    · rfl
  · rfl

theorem foldInst?_stuck {inst : Inst} (h : inst.foldTraps = true) : foldInst? inst = .stuck := by
  obtain ⟨hop, ha, hb⟩ := of_decide_eq_true h
  unfold foldInst?
  rw [ha, hb]
  rcases hop with hop | hop <;> rw [hop] <;> rfl

theorem foldStep?_eq {inst : Inst} (h : inst.foldTraps = false) :
    foldStep? inst = .ok ((foldInst inst).getD inst, (foldInst inst).isSome) := by
  rw [foldStep?, foldInst?_eq h]
  rfl

theorem foldStep?_stuck {inst : Inst} (h : inst.foldTraps = true) : foldStep? inst = .stuck := by
  rw [foldStep?, foldInst?_stuck h]
  rfl

/-- A block as it is folded. -/
def foldedBlock (bb : BasicBlock) : BasicBlock × Bool :=
  ({ bb with insts := bb.insts.map fun inst => (foldInst inst).getD inst },
    bb.insts.any fun inst => (foldInst inst).isSome)

theorem foldBlock?_eq {bb : BasicBlock} (h : ∀ inst ∈ bb.insts, inst.foldTraps = false) :
    foldBlock? bb = .ok (foldedBlock bb) := by
  rw [foldBlock?, mapM'_ok fun inst hi => foldStep?_eq (h inst hi), Outcome.ok_bind, List.map_map,
    List.any_map]
  rfl

theorem foldStep?_ne_timeout (inst : Inst) : foldStep? inst ≠ .timeout := by
  cases h : inst.foldTraps with
  | false => exact fun ht => by cases (foldStep?_eq h).symm.trans ht
  | true => exact fun ht => by cases (foldStep?_stuck h).symm.trans ht

theorem foldBlock?_stuck {bb : BasicBlock} {inst : Inst} (hi : inst ∈ bb.insts)
    (h : inst.foldTraps = true) : foldBlock? bb = .stuck := by
  rw [foldBlock?, mapM'_stuck (fun inst _ => foldStep?_ne_timeout inst) hi (foldStep?_stuck h)]
  rfl

theorem foldBlock?_ne_timeout (bb : BasicBlock) : foldBlock? bb ≠ .timeout := by
  unfold foldBlock?
  cases h : bb.insts.mapM' foldStep? with
  | ok steps => exact fun ht => by cases ht
  | timeout => exact absurd h (mapM'_ne_timeout fun inst _ => foldStep?_ne_timeout inst)
  | stuck => exact fun ht => by cases ht

theorem IRFunc.mem_insts_blocks {F : IRFunc} {inst : Inst} :
    inst ∈ F.insts ↔ ∃ bb ∈ F.blocks, inst ∈ bb.insts := by
  unfold IRFunc.insts
  rw [List.mem_flatMap]

/-- **The folder, where no such division is.** -/
theorem constFold?_eq {F : IRFunc} (h : FoldsSafely F) : constFold? F = .ok (constFold F) := by
  have hblocks : ∀ bb ∈ F.blocks, foldBlock? bb = .ok (foldedBlock bb) := fun bb hbb =>
    foldBlock?_eq fun inst hi => h inst (F.mem_insts_blocks.mpr ⟨bb, hbb, hi⟩)
  rw [constFold?, mapM'_ok hblocks, Outcome.ok_bind, List.map_map, List.any_map]
  unfold constFold IRFunc.insts
  rw [List.any_flatMap]
  rfl

/-- **The folder, where one is.** -/
theorem constFold?_stuck {F : IRFunc} (h : ¬ FoldsSafely F) : constFold? F = .stuck := by
  obtain ⟨inst, hi, htraps⟩ : ∃ inst ∈ F.insts, inst.foldTraps = true := by
    by_contra hall
    exact h fun inst hi => Bool.eq_false_iff.mpr fun ht => hall ⟨inst, hi, ht⟩
  obtain ⟨bb, hbb, hi⟩ := F.mem_insts_blocks.mp hi
  rw [constFold?, mapM'_stuck (fun bb _ => foldBlock?_ne_timeout bb) hbb
    (foldBlock?_stuck hi htraps)]
  rfl

/-! ## Magic numbers -/

theorem hostUDiv?_eq {a b : Word} (h : b ≠ 0#32) : hostUDiv? a b = .ok (a / b) := if_neg h

theorem magicAd_ne_zero {c : Word} (h : c ≠ 0#32) : magicAd c ≠ 0#32 := by
  intro h0
  have habs := absConst_eq_toNat c
  rw [h0] at habs
  refine h ?_
  rw [const_eq c, ← habs]
  simp

/-- The other number the computation divides by is not zero either. -/
theorem magicAnc_ne_zero {c : Word} (h : c ≠ 0#32) (hlt : absConst c < 2 ^ 31) :
    magicAnc c ≠ 0#32 := by
  obtain ⟨hlow, -⟩ := magicT_bounds c
  have hpos : 0 < (magicAd c).toNat :=
    Nat.pos_of_ne_zero fun h0 => magicAd_ne_zero h (BitVec.eq_of_toNat_eq h0)
  have hmod := Nat.mod_lt (magicT c).toNat hpos
  rw [absConst_eq_toNat] at hpos hmod
  intro h0
  have hanc : (magicAnc c).toNat = 0 := by rw [h0]; rfl
  have hone : (magicT c - 1).toNat = (magicT c).toNat - 1 :=
    BitVec.toNat_sub_of_le (BitVec.le_def.mpr (by show 1 ≤ _; omega))
  have hrem : (magicT c % magicAd c).toNat = (magicT c).toNat % absConst c := by
    rw [BitVec.toNat_umod, absConst_eq_toNat]
  unfold magicAnc at hanc
  rw [BitVec.toNat_sub_of_le (BitVec.le_def.mpr (by rw [hone, hrem]; omega)), hone, hrem] at hanc
  omega

/-- **A signed magic number is computed without a trap.** -/
theorem signedMagic?_eq {c : Word} (h : c ≠ 0#32) (hlt : absConst c < 2 ^ 31) :
    signedMagic? c = .ok (signedMagic c) := by
  have had := magicAd_ne_zero h
  have hanc : magicAnc? c = .ok (magicAnc c) := by
    rw [magicAnc?, hostUMod?, if_neg had]
    rfl
  have hstart : MagicState.start? c (magicAnc c) = .ok (.start c) := by
    rw [MagicState.start?, hostUDiv?_eq (magicAnc_ne_zero h hlt), Outcome.ok_bind,
      hostUDiv?_eq had]
    rfl
  rw [signedMagic?, hanc, Outcome.ok_bind, hstart]
  rfl

theorem unsignedMagicFrom?_eq {d : Nat} (h : d ≠ 0) (ks : List Nat) :
    unsignedMagicFrom? d ks = .ok ((ks.findSome? fun k =>
      let m := (2 ^ (32 + k) + d - 1) / d
      if m < 2 ^ 32 then some (BitVec.ofNat 32 m, k) else none).getD (0, 0)) := by
  induction ks with
  | nil => rfl
  | cons k ks ih =>
    rw [unsignedMagicFrom?, hostDiv64?, if_neg h, Outcome.ok_bind, List.findSome?_cons]
    dsimp only
    by_cases hm : (2 ^ (32 + k) + d - 1) / d < 2 ^ 32
    · rw [if_pos hm, if_pos hm]
      rfl
    · rw [if_neg hm, if_neg hm]
      exact ih

/-- **So is an unsigned one.** -/
theorem unsignedMagic?_eq {c : Word} (h : c ≠ 0#32) :
    unsignedMagic? c = .ok (unsignedMagic c) :=
  unsignedMagicFrom?_eq (fun h0 => h (BitVec.eq_of_toNat_eq h0)) _

theorem magicNumber?_eq {c : Word} (h : c ≠ 0#32) (hlt : absConst c < 2 ^ 31)
    (isUnsigned : Bool) : magicNumber? c isUnsigned = .ok (magicNumber c isUnsigned) := by
  unfold magicNumber? magicNumber
  cases isUnsigned with
  | true =>
    rw [if_pos rfl, if_pos rfl, unsignedMagic?_eq h]
    rfl
  | false =>
    rw [if_neg Bool.false_ne_true, if_neg Bool.false_ne_true, signedMagic?_eq h hlt]
    rfl

/-- What needs a magic number, by the test of the pass, is in the range. -/
theorem needsMagic_bounds {c : Word} (h : needsMagic c = true) :
    c ≠ 0#32 ∧ absConst c < 2 ^ 31 := by
  unfold needsMagic at h
  obtain ⟨hthree, -⟩ := Bool.and_eq_true_iff.mp h
  have habs := absConst_eq_toNat c
  have hint := BitVec.toInt_eq_toNat_cond (magicAd c)
  rw [Bool.not_eq_true', BitVec.slt, decide_eq_false_iff_not] at hthree
  have hge : (3 : Int) ≤ (magicAd c).toInt := by
    have : ((3 : Word)).toInt = 3 := by decide
    omega
  have hlt := (magicAd c).isLt
  constructor
  · rintro rfl
    have : (magicAd 0#32).toInt = 0 := by decide
    omega
  · rw [← habs]
    split at hint <;> omega

/-! ## Hoisting magic numbers -/

theorem hintMagic?_eq (s : MagicHoist) (inst : Inst) :
    hintMagic? s inst = .ok (hintMagic s inst) := by
  unfold hintMagic? hintMagic
  cases inst.b with
  | reg r => rfl
  | imm c =>
    dsimp only
    split
    · rename_i hcond
      obtain ⟨hne, hlt⟩ := needsMagic_bounds hcond.2.1
      unfold magicRegFor?
      cases hl : s.regs.lookup (c, inst.unsignedDiv) with
      | none =>
        dsimp only
        rw [magicNumber?_eq hne hlt, Outcome.ok_bind, Outcome.ok_bind]
      | some r =>
        have hreg : s.regFor (c, inst.unsignedDiv) (magicNumber c inst.unsignedDiv) = (r, s) := by
          rw [Hoist.regFor, hl]
        rw [hreg]
        rfl
    · rfl

theorem hintInsts?_eq (s : MagicHoist) (insts : List Inst) :
    hintInsts? s insts = .ok (hoistInsts hintMagic s insts) := by
  induction insts generalizing s with
  | nil => rfl
  | cons inst insts ih =>
    rw [hintInsts?, hintMagic?_eq, Outcome.ok_bind]
    dsimp only
    rw [ih]
    rfl

theorem hintBlocks?_eq (L : Finset Nat) (b : Nat) (s : MagicHoist) (bbs : List BasicBlock) :
    hintBlocks? L b s bbs = .ok (hoistBlocks hintMagic L b s bbs) := by
  induction bbs generalizing b s with
  | nil => rfl
  | cons bb bbs ih =>
    rw [hintBlocks?, hoistBlocks]
    split
    · rw [hintInsts?_eq, Outcome.ok_bind]
      dsimp only
      rw [ih]
      rfl
    · rw [ih]
      rfl

theorem hintEdges?_eq (dom : Nat → Finset Nat) (n : Nat) (edges : List (Nat × Nat)) (F : IRFunc) :
    hintEdges? dom n edges F = visitEdges (hoistLoop hintMagic) dom n edges F := by
  induction edges generalizing F with
  | nil => rfl
  | cons e edges ih =>
    obtain ⟨u, v⟩ := e
    rw [hintEdges?, visitEdges, visitEdge]
    have hloop : ∀ L pre, hintLoop? F L pre = .ok (hoistLoop hintMagic F L pre) := by
      intro L pre
      rw [hintLoop?, hintBlocks?_eq]
      rfl
    simp only [hloop, ih]
    split
    · cases loopOf F u v n with
      | ok L =>
        simp only [Outcome.ok_bind]
        cases preheader F L v <;> rfl
      | timeout => rfl
      | stuck => rfl
    · rfl

/-- **Hoisting magic numbers never traps.** -/
theorem hoistMagicDiv?_eq (F : IRFunc) (n : Nat) : hoistMagicDiv? F n = hoistMagicDiv F n := by
  unfold hoistMagicDiv? hoistMagicDiv overLoops
  simp only [hintEdges?_eq]

/-! ## The passes -/

/-- **When a pass does not trap**: the folder, on a function without such divisions. -/
def Pass.Safe (p : Pass) (F : IRFunc) : Prop := p = .constFold → FoldsSafely F

theorem Pass.exec?_eq {n : Nat} {p : Pass} {F : IRFunc} (h : p.Safe F) :
    p.exec? n F = p.exec n F := by
  cases p with
  | constFold => exact constFold?_eq (h rfl)
  | hoistMagicDiv =>
    show (hoistMagicDiv? F n >>= _) = _
    rw [hoistMagicDiv?_eq]
    rfl
  | _ => rfl

theorem Pass.exec?_stuck {n : Nat} {p : Pass} {F : IRFunc} (h : ¬ p.Safe F) :
    p.exec? n F = .stuck := by
  obtain ⟨rfl, hfold⟩ := Classical.not_imp.mp h
  exact constFold?_stuck hfold

/-! ## The other answers -/

theorem overLoops_ne_stuck (pass : LoopPass) (F : IRFunc) (n : Nat) :
    overLoops pass F n ≠ .stuck := by
  have hedges : ∀ dom edges F, visitEdges pass dom n edges F ≠ .stuck := by
    intro dom edges
    induction edges with
    | nil => exact fun F h => by cases h
    | cons e edges ih =>
      intro F
      refine Outcome.bind_ne_stuck ?_ ih
      unfold visitEdge
      split
      · refine Outcome.bind_ne_stuck (Outcome.loop_ne_stuck (fun _ _ h => by cases h) _ _) ?_
        intro L
        split <;> exact fun h => by cases h
      · exact fun h => by cases h
  unfold overLoops
  dsimp only
  split
  · exact fun h => by cases h
  · exact Outcome.bind_ne_stuck (Outcome.loop_ne_stuck (fun _ _ h => by cases h) _ _) fun dom =>
      hedges dom _ _

/-- **Nothing else is ever stuck.** -/
theorem Pass.exec_ne_stuck (n : Nat) (p : Pass) (F : IRFunc) : p.exec n F ≠ .stuck := by
  have hunreported : ∀ x : Outcome IRFunc, x ≠ .stuck →
      (x >>= fun F => .ok (F, false)) ≠ .stuck := fun x hx =>
    Outcome.bind_ne_stuck hx fun F h => by cases h
  cases p with
  | constFold | cse | copyProp | constProp | peephole | jumpThreading | unreachableElim =>
    exact fun h => by cases h
  | deadCodeElim => exact hunreported _ (Outcome.loop_ne_stuck (fun _ _ h => by cases h) _ _)
  | markUnsignedDiv =>
    refine hunreported _ ?_
    unfold ToyC.markUnsignedDiv
    split
    · exact fun h => by cases h
    · exact Outcome.loop_ne_stuck (fun _ _ h => by cases h) _ _
  | licm | hoistLoopConstants | hoistMagicDiv | hoistDivModConstants =>
    exact hunreported _ (overLoops_ne_stuck _ F n)

/-! ## The code generator -/

/-- **A remainder by the constant zero.** -/
def Inst.remZero (inst : Inst) : Bool := inst.op = .Mod ∧ inst.b = .imm 0

namespace OptCodeGen

section Emit

variable {m : IRModule} {opt : Bool} {fr : Frame} {A : Allocation}

/-- What the two special cases leave is in the range. -/
theorem absConst_lt_of_log2pos {c : Word} (h : log2pos (absConst c) = none) :
    absConst c < 2 ^ 31 := by
  refine Nat.lt_of_le_of_ne (absConst_le c) fun heq => ?_
  rw [log2pos_eq_some.mpr ⟨heq, by decide⟩] at h
  cases h

theorem emitMagicQuotient?_eq {magicVreg : Option Nat} {isUnsigned : Bool} {q ra : XReg} {c : Word}
    (hc : c ≠ 0#32) (hlt : absConst c < 2 ^ 31) :
    emitMagicQuotient? fr A magicVreg isUnsigned q ra c =
      .ok (emitMagicQuotient fr A magicVreg isUnsigned q ra c) := by
  unfold emitMagicQuotient? emitMagicQuotient
  cases isUnsigned with
  | true =>
    rw [unsignedMagic?_eq hc]
    rfl
  | false =>
    rw [signedMagic?_eq hc hlt]
    rfl

/-- **A quotient by a constant never makes the generator trap**: a zero divisor is left to the
program. -/
theorem emitDivConst?_eq {magicVreg : Option Nat} {isUnsigned : Bool} {rd ra : XReg} {c : Word} :
    emitDivConst? fr A magicVreg isUnsigned rd ra c =
      .ok (emitDivConst fr A magicVreg isUnsigned rd ra c) := by
  unfold emitDivConst? emitDivConst
  dsimp only
  split
  · rfl
  · split
    · rfl
    · cases hlog : log2pos (absConst c) with
      | some k => rfl
      | none =>
        dsimp only
        split
        · rename_i hc
          exact emitMagicQuotient?_eq hc (absConst_lt_of_log2pos hlog)
        · rfl

/-- **A remainder by another constant than zero** does not either. -/
theorem emitModConst?_eq {magicVreg : Option Nat} {isUnsigned : Bool} {rd ra : XReg} {c : Word}
    (hc : c ≠ 0#32) :
    emitModConst? fr A magicVreg isUnsigned rd ra c =
      .ok (emitModConst fr A magicVreg isUnsigned rd ra c) := by
  unfold emitModConst? emitModConst
  dsimp only
  split
  · rfl
  · cases hlog : log2pos (absConst c) with
    | some k => rfl
    | none =>
      cases isUnsigned with
      | true =>
        dsimp only
        rw [unsignedMagic?_eq hc]
        rfl
      | false =>
        simp only [emitMagicQuotient?_eq hc (absConst_lt_of_log2pos hlog)]
        rfl

/-- **A remainder by zero does**: the generator asks for a magic number of zero. -/
theorem emitModConst?_stuck {magicVreg : Option Nat} {isUnsigned : Bool} {rd ra : XReg} :
    emitModConst? fr A magicVreg isUnsigned rd ra 0 = .stuck := by
  cases isUnsigned <;> rfl

variable {override : Option XReg} {inst : Inst}

theorem emitUnary?_eq {dst : Nat} {v : Val} {code : XReg → XReg → List Instr}
    {code? : XReg → XReg → Outcome (List Instr)} (h : ∀ rd ra, code? rd ra = .ok (code rd ra)) :
    emitUnary? fr A override dst v code? = .ok (emitUnary fr A override dst v code) := by
  simp only [emitUnary?, h]
  rfl

theorem emitInst?_eq (h : opt = true → inst.remZero = false) :
    emitInst? m opt fr A override inst = .ok (emitInst m opt fr A override inst) := by
  unfold emitInst?
  dsimp only
  split
  · rename_i c hop hb
    rw [emitUnary?_eq fun rd ra => emitDivConst?_eq, emitInst, hop, emitBinary, hop, hb]
    exact hb
  · rename_i c hop hb
    have hc : c ≠ 0#32 := by
      rintro rfl
      simp [Inst.remZero, hop, hb] at h
    rw [emitUnary?_eq fun rd ra => emitModConst?_eq hc, emitInst, hop, emitBinary, hop, hb]
    exact hb
  · rfl

theorem emitInst?_stuck (h : inst.remZero = true) :
    emitInst? m true fr A override inst = .stuck := by
  obtain ⟨hop, hb⟩ := of_decide_eq_true h
  unfold emitInst?
  rw [hop, hb]
  show emitUnary? fr A override (inst.dst.getD 0) inst.a _ = _
  unfold emitUnary?
  dsimp only
  rw [emitModConst?_stuck]
  rfl

theorem emitInst?_ne_timeout : emitInst? m true fr A override inst ≠ .timeout := by
  cases h : inst.remZero with
  | false => exact fun ht => by cases (emitInst?_eq fun _ => h).symm.trans ht
  | true => exact fun ht => by cases (emitInst?_stuck h).symm.trans ht

variable {f : IRFunc} {bb : BasicBlock} {next : Option Nat}

/-- An instruction of a block is emitted by itself, or it is the comparison of the branch or the
one whose result is returned. -/
theorem mem_plainInsts_or (h : inst ∈ bb.insts) :
    inst ∈ plainInsts f bb ∨ fusedCmp f bb = some inst ∨ fusedRet f bb = some inst := by
  unfold plainInsts
  split
  · rename_i hfused
    rcases List.eq_nil_or_concat' bb.insts with hnil | ⟨init, last, hlast⟩
    · rw [hnil] at h
      cases h
    · have hget : bb.insts.getLast? = some last := by rw [hlast, List.getLast?_append]; rfl
      rw [hlast] at h ⊢
      rw [List.dropLast_concat]
      refine (List.mem_append.mp h).imp id fun hi => ?_
      obtain rfl := List.mem_singleton.mp hi
      rcases Bool.or_eq_true_iff.mp hfused with hcmp | hret
      · obtain ⟨inst', hinst'⟩ := Option.isSome_iff_exists.mp hcmp
        refine .inl ?_
        rw [hinst']
        unfold fusedCmp at hinst'
        split at hinst'
        · rw [hget] at hinst'
          exact (Option.filter_eq_some_iff.mp hinst').1.symm ▸ rfl
        · cases hinst'
      · obtain ⟨inst', hinst'⟩ := Option.isSome_iff_exists.mp hret
        refine .inr ?_
        rw [hinst']
        unfold fusedRet at hinst'
        split at hinst'
        · rw [hget] at hinst'
          exact (Option.filter_eq_some_iff.mp hinst').1.symm ▸ rfl
        · cases hinst'
  · exact .inl h

theorem emitTerm?_eq {fused retFuse : Option Inst}
    (h : opt = true → bb.term = .Ret → ∀ inst ∈ retFuse, inst.remZero = false) :
    emitTerm? m opt fr A f bb next fused retFuse =
      .ok (emitTerm m opt fr A f bb next fused retFuse) := by
  unfold emitTerm?
  split
  · rename_i inst hterm
    rw [emitInst?_eq fun ho => h ho hterm inst rfl, Outcome.ok_bind]
    unfold emitTerm
    rw [hterm]
  · rfl

theorem mem_insts_of_plain (h : inst ∈ plainInsts f bb) : inst ∈ bb.insts := by
  unfold plainInsts at h
  split at h
  · exact List.mem_of_mem_dropLast h
  · exact h

theorem mem_insts_of_fusedRet (h : fusedRet f bb = some inst) : inst ∈ bb.insts := by
  unfold fusedRet at h
  split at h
  · exact List.mem_of_getLast? (Option.filter_eq_some_iff.mp h).1
  · cases h

/-- **The code of a block without remainders by zero.** -/
theorem blockCode?_eq (h : opt = true → ∀ inst ∈ bb.insts, inst.remZero = false) :
    blockCode? m opt fr A f bb next = .ok (blockCode m opt fr A f bb next) := by
  rw [blockCode?, mapM'_ok fun inst hi => emitInst?_eq fun ho => h ho inst (mem_insts_of_plain hi),
    Outcome.ok_bind, emitTerm?_eq fun ho _ inst hi => h ho inst (mem_insts_of_fusedRet hi),
    Outcome.ok_bind, blockCode, List.flatMap_def]

/-- **The code of a block with one.** -/
theorem blockCode?_stuck (hi : inst ∈ bb.insts) (h : inst.remZero = true) :
    blockCode? m true fr A f bb next = .stuck := by
  unfold blockCode?
  rcases mem_plainInsts_or (f := f) hi with hplain | hcmp | hret
  · rw [mapM'_stuck (f := emitInst? m true fr A none) (fun _ _ => emitInst?_ne_timeout) hplain
      (emitInst?_stuck h)]
    rfl
  · unfold fusedCmp at hcmp
    split at hcmp
    · have hlast := (Option.filter_eq_some_iff.mp hcmp).2
      rw [Bool.and_eq_true, (of_decide_eq_true h).1] at hlast
      cases hlast.1
    · cases hcmp
  · have hterm : bb.term = .Ret := by
      unfold fusedRet at hret
      split at hret
      · rename_i hterm
        exact hterm.1
      · cases hret
    have hstuck : emitTerm? m true fr A f bb next (fusedCmp f bb) (fusedRet f bb) = .stuck := by
      unfold emitTerm?
      rw [hterm, hret]
      show (emitInst? m true fr A (some XReg.a0) inst >>= _) = _
      rw [emitInst?_stuck h]
      rfl
    rw [hstuck]
    cases hplain : (plainInsts f bb).mapM' (emitInst? m true fr A none) with
    | ok codes => rfl
    | timeout => exact absurd hplain (mapM'_ne_timeout fun _ _ => emitInst?_ne_timeout)
    | stuck => rfl

/-- **No remainder by zero in a block that is emitted.** -/
def EmitsSafely (f : IRFunc) : Prop :=
  ∀ b ∈ order f, ∀ inst ∈ (f.blockAt b).insts, inst.remZero = false

theorem emitBlocks?_eq {bs : List Nat}
    (h : opt = true → ∀ b ∈ bs, ∀ inst ∈ (f.blockAt b).insts, inst.remZero = false) :
    emitBlocks? m opt fr A f bs = .ok (emitBlocks m opt fr A f bs) := by
  induction bs with
  | nil => rfl
  | cons b bs ih =>
    rw [emitBlocks?, blockCode?_eq fun ho => h ho b List.mem_cons_self, Outcome.ok_bind,
      ih fun ho b hb => h ho b (List.mem_cons_of_mem _ hb)]
    rfl

theorem emitBlocks?_stuck {bs : List Nat} {b : Nat} (hb : b ∈ bs)
    (hi : inst ∈ (f.blockAt b).insts) (h : inst.remZero = true) :
    emitBlocks? m true fr A f bs = .stuck := by
  induction bs with
  | nil => cases hb
  | cons b' bs ih =>
    rw [emitBlocks?]
    by_cases hsafe : ∀ inst ∈ (f.blockAt b').insts, inst.remZero = false
    · have hmem : b ∈ bs := by
        refine (List.mem_cons.mp hb).resolve_left ?_
        rintro rfl
        rw [hsafe inst hi] at h
        cases h
      rw [blockCode?_eq fun _ => hsafe, Outcome.ok_bind, ih hmem]
      rfl
    · obtain ⟨inst', hne⟩ := not_forall.mp hsafe
      obtain ⟨hi', hrem⟩ := Classical.not_imp.mp hne
      rw [blockCode?_stuck hi' (Bool.not_eq_false _ ▸ hrem)]
      rfl

/-- **The code of a function**, if no remainder by zero is emitted. -/
theorem emitFunc?_eq (h : opt = true → EmitsSafely f) :
    emitFunc? m opt A f = .ok (emitFunc m opt A f) := by
  rw [emitFunc?, emitBlocks?_eq h]
  rfl

theorem emitFunc?_stuck (h : ¬ EmitsSafely f) : emitFunc? m true A f = .stuck := by
  obtain ⟨b, hb, inst, hi, hrem⟩ : ∃ b ∈ order f, ∃ inst ∈ (f.blockAt b).insts,
      inst.remZero = true := by
    by_contra hall
    exact h fun b hb inst hi => Bool.eq_false_iff.mpr fun hrem => hall ⟨b, hb, inst, hi, hrem⟩
  rw [emitFunc?, emitBlocks?_stuck hb hi hrem]
  rfl

end Emit

/-- **No remainder by zero is emitted** in any of some functions, one after the other. -/
def FuncsEmitSafely (S : Sorting) (n : Nat) : List IRFunc → Prop
  | [] => True
  | f :: fs => ∀ A, allocateRegisters S f n = .ok A → EmitsSafely f ∧ FuncsEmitSafely S n fs

variable {S : Sorting} {m : IRModule} {opt : Bool} {n : Nat}

theorem allocateRegisters_ne_stuck (f : IRFunc) : allocateRegisters S f n ≠ .stuck :=
  Outcome.bind_ne_stuck (Outcome.loop_ne_stuck (fun _ _ h => by cases h) _ _) fun L h => by cases h

theorem emitFuncs?_eq {fs : List IRFunc} (h : opt = true → FuncsEmitSafely S n fs) :
    emitFuncs? S m opt n fs = emitFuncs S m opt n fs := by
  induction fs with
  | nil => rfl
  | cons f fs ih =>
    rw [emitFuncs?, emitFuncs]
    refine Outcome.bind_congr_ok fun A hA => ?_
    rw [emitFunc?_eq fun ho => (h ho A hA).1, Outcome.ok_bind, ih fun ho => (h ho A hA).2]

theorem emitFuncs?_stuck {fs : List IRFunc} (h : ¬ FuncsEmitSafely S n fs) :
    emitFuncs? S m true n fs = .stuck := by
  induction fs with
  | nil => exact absurd trivial h
  | cons f fs ih =>
    obtain ⟨A, hne⟩ := not_forall.mp h
    obtain ⟨hA, hne⟩ := Classical.not_imp.mp hne
    rw [emitFuncs?, hA, Outcome.ok_bind]
    by_cases hf : EmitsSafely f
    · rw [emitFunc?_eq fun _ => hf, Outcome.ok_bind, ih fun hfs => hne ⟨hf, hfs⟩]
      rfl
    · rw [emitFunc?_stuck hf]
      rfl

theorem emitFuncs_ne_stuck (fs : List IRFunc) : emitFuncs S m true n fs ≠ .stuck := by
  induction fs with
  | nil => exact fun h => by cases h
  | cons f fs ih =>
    exact Outcome.bind_ne_stuck (allocateRegisters_ne_stuck f) fun A =>
      Outcome.bind_ne_stuck ih fun code h => by cases h

theorem funcsEmitSafely_of_all {fs : List IRFunc} (h : ∀ f ∈ fs, EmitsSafely f) :
    FuncsEmitSafely S n fs := by
  induction fs with
  | nil => trivial
  | cons f fs ih =>
    rw [List.forall_mem_cons] at h
    exact fun _ _ => ⟨h.1, ih h.2⟩

/-- Where code is generated for all of the functions, none of it has a remainder by zero. -/
theorem emitsSafely_of_ok {fs : List IRFunc} {code : List Item} (h : FuncsEmitSafely S n fs)
    (hok : emitFuncs S m opt n fs = .ok code) : ∀ f ∈ fs, EmitsSafely f := by
  induction fs generalizing code with
  | nil => exact fun f hf => by cases hf
  | cons f fs ih =>
    obtain ⟨A, hA, hok⟩ := Outcome.bind_eq_ok.mp hok
    obtain ⟨rest, hrest, -⟩ := Outcome.bind_eq_ok.mp hok
    exact List.forall_mem_cons.mpr ⟨(h A hA).1, ih (h A hA).2 hrest⟩

end OptCodeGen

section Asm

variable {S : Sorting} {m : IRModule} {opt : Bool} {n : Nat}

/-- **The code generator, where no remainder by zero is emitted**; without optimization it divides
nothing. -/
theorem generateAsmOpt?_eq (h : opt = true → OptCodeGen.FuncsEmitSafely S n m.funcs) :
    generateAsmOpt? S m opt n = generateAsmOpt S m opt n := by
  rw [generateAsmOpt?, generateAsmOpt, OptCodeGen.emitFuncs?_eq h]

theorem generateAsmOpt?_stuck (h : ¬ OptCodeGen.FuncsEmitSafely S n m.funcs) :
    generateAsmOpt? S m true n = .stuck := by
  rw [generateAsmOpt?, OptCodeGen.emitFuncs?_stuck h]
  rfl

/-- **What the host generates** is the code, and none of it has a remainder by zero. -/
theorem generateAsmOpt?_ok {items : List Item} (h : generateAsmOpt? S m opt n = .ok items) :
    generateAsmOpt S m opt n = .ok items ∧
      (opt = true → ∀ f ∈ m.funcs, OptCodeGen.EmitsSafely f) := by
  have hsafe : opt = true → OptCodeGen.FuncsEmitSafely S n m.funcs := by
    rintro rfl
    by_contra hbad
    rw [generateAsmOpt?_stuck hbad] at h
    cases h
  rw [generateAsmOpt?_eq hsafe] at h
  obtain ⟨code, hcode, -⟩ := Outcome.bind_eq_ok.mp h
  exact ⟨h, fun ho => OptCodeGen.emitsSafely_of_ok (hsafe ho) hcode⟩

end Asm

/-! ## The compiler -/

/-- **Something holds at each call of a pass**, for functions that are optimized one after the
other. -/
def FuncsAlong (exec : Pass → IRFunc → Outcome (IRFunc × Bool)) (good : Pass → IRFunc → Prop)
    (opt : Bool) : List IRFunc → Prop
  | [] => True
  | F :: Fs => StagesAlong exec good (stages opt) F ∧
      ∀ F', runStages exec (stages opt) F = .ok F' → FuncsAlong exec good opt Fs

section Funcs

variable {exec exec' : Pass → IRFunc → Outcome (IRFunc × Bool)} {good : Pass → IRFunc → Prop}
  {n : Nat} {opt : Bool} {Fs : List IRFunc}

/-- **What an invariant of the passes says, holds at each call.** -/
theorem FuncsAlong.of_invariant {I : IRFunc → Prop} (hgood : ∀ p F, I F → good p F)
    (hkeeps : ∀ p F F' changed, I F → exec p F = .ok (F', changed) → I F')
    (hFs : ∀ F ∈ Fs, I F) : FuncsAlong exec good opt Fs := by
  induction Fs with
  | nil => trivial
  | cons F Fs ih =>
    rw [List.forall_mem_cons] at hFs
    exact ⟨.of_invariant hgood hkeeps hFs.1, fun _ _ => ih hFs.2⟩

/-- Passes that are replaced by ones that do the same where they are called. -/
theorem optimizeFuncs_congr (hgood : ∀ p F, good p F → exec' p F = exec p F)
    (h : FuncsAlong exec good opt Fs) :
    optimizeFuncs exec' opt Fs = optimizeFuncs exec opt Fs := by
  induction Fs with
  | nil => rfl
  | cons F Fs ih =>
    rw [optimizeFuncs, optimizeFuncs, runStages_congr hgood h.1]
    exact Outcome.bind_congr_ok fun F' hF' => by rw [ih (h.2 F' hF')]

/-- Passes that are replaced by ones that get stuck. -/
theorem optimizeFuncs_stuck (hgood : ∀ p F, good p F → exec' p F = exec p F)
    (hbad : ∀ p F, ¬ good p F → exec' p F = .stuck) (h : ¬ FuncsAlong exec good opt Fs) :
    optimizeFuncs exec' opt Fs = .stuck := by
  induction Fs with
  | nil => exact absurd trivial h
  | cons F Fs ih =>
    rw [optimizeFuncs]
    by_cases hF : StagesAlong exec good (stages opt) F
    · obtain ⟨F', hne⟩ := not_forall.mp fun hall => h ⟨hF, hall⟩
      obtain ⟨hF', hFs⟩ := Classical.not_imp.mp hne
      rw [runStages_congr hgood hF, hF', Outcome.ok_bind, ih hFs]
      rfl
    · rw [runStages_stuck hgood hbad hF]
      rfl

theorem optimizeFuncs?_eq (h : FuncsAlong (Pass.exec n) Pass.Safe opt Fs) :
    optimizeFuncs (Pass.exec? n) opt Fs = optimizeFuncs (Pass.exec n) opt Fs :=
  optimizeFuncs_congr (fun _ _ => Pass.exec?_eq) h

theorem optimizeFuncs?_stuck (h : ¬ FuncsAlong (Pass.exec n) Pass.Safe opt Fs) :
    optimizeFuncs (Pass.exec? n) opt Fs = .stuck :=
  optimizeFuncs_stuck (fun _ _ => Pass.exec?_eq) (fun _ _ => Pass.exec?_stuck) h

theorem optimizeFuncs_ne_stuck : optimizeFuncs (Pass.exec n) opt Fs ≠ .stuck := by
  induction Fs with
  | nil => exact fun h => by cases h
  | cons F Fs ih =>
    exact Outcome.bind_ne_stuck (runStages_ne_stuck (Pass.exec_ne_stuck n) _ F) fun F' =>
      Outcome.bind_ne_stuck ih fun Fs' h => by cases h

end Funcs

/-- **A run of the compiler in which neither division comes up**, with so much fuel: at each call
of the folder no two constants are divided that it may not divide, and no remainder by zero is
among the instructions that code is generated for. -/
structure SafeRun (S : Sorting) (m : IRModule) (n : Nat) : Prop where
  folds : FuncsAlong (Pass.exec n) Pass.Safe true (inlined m true).funcs
  emits : ∀ m', optimizeIR m true n = .ok m' → OptCodeGen.FuncsEmitSafely S n m'.funcs

section Compiler

variable {S : Sorting} {m : IRModule} {n : Nat}

/-- **Without a trap the host compiles as the passes and the code generator say.** -/
theorem compile?_eq (h : SafeRun S m n) :
    compile? S m n = optimizeIR m true n >>= fun m' => generateAsmOpt S m' true n := by
  unfold compile?
  dsimp only
  rw [optimizeFuncs?_eq h.folds]
  have hemits := h.emits
  unfold optimizeIR at hemits ⊢
  dsimp only at hemits ⊢
  cases hopt : optimizeFuncs (Pass.exec n) true (inlined m true).funcs with
  | ok funcs =>
    rw [hopt] at hemits
    rw [Outcome.ok_bind, Outcome.ok_bind, Outcome.ok_bind, generateAsmOpt?_eq fun _ => hemits _ rfl]
  | timeout => rfl
  | stuck => rfl

/-- **The compiler traps exactly where one of them comes up.** -/
theorem compile?_ne_stuck_iff : compile? S m n ≠ .stuck ↔ SafeRun S m n := by
  constructor
  · intro hne
    have hfolds : FuncsAlong (Pass.exec n) Pass.Safe true (inlined m true).funcs := by
      by_contra hbad
      refine hne ?_
      unfold compile?
      dsimp only
      rw [optimizeFuncs?_stuck hbad]
      rfl
    refine ⟨hfolds, fun m' hm' => ?_⟩
    by_contra hbad
    refine hne ?_
    unfold optimizeIR at hm'
    dsimp only at hm'
    obtain ⟨funcs, hfuncs, heq⟩ := Outcome.bind_eq_ok.mp hm'
    cases heq
    unfold compile?
    dsimp only
    rw [optimizeFuncs?_eq hfolds, hfuncs, Outcome.ok_bind, generateAsmOpt?_stuck hbad]
  · intro h
    rw [compile?_eq h]
    refine Outcome.bind_ne_stuck ?_ fun m' => ?_
    · exact Outcome.bind_ne_stuck optimizeFuncs_ne_stuck fun funcs h => by cases h
    · exact Outcome.bind_ne_stuck (OptCodeGen.emitFuncs_ne_stuck _) fun code h => by cases h

/-- **When the compiler never traps**: exactly when neither division comes up, however long it
runs. -/
theorem compile_traps_iff (S : Sorting) (m : IRModule) :
    (∀ n, compile? S m n ≠ .stuck) ↔ ∀ n, SafeRun S m n :=
  forall_congr' fun _ => compile?_ne_stuck_iff

end Compiler

/-- `int main() { int b = -1; if (b + 1) return (-2147483647 - 1) / b; return 0; }` -/
def overflowModule : Module where
  items := [.func {
    name := "main"
    body := [
      .varDecl 1 false "b" (.unary 1 .Neg (.number 1 1)),
      .ifStmt 1 (.binary 1 .Add (.var 1 "b") (.number 1 1))
        (.returnStmt 1 (some (.binary 1 .Div
          (.binary 1 .Sub (.unary 1 .Neg (.number 1 2147483647)) (.number 1 1)) (.var 1 "b"))))
        none,
      .returnStmt 1 (some (.number 1 0))] }]

/-- `int f(int x) { int b = 0; if (x) return 5 % b; return 1; } int main() { return f(0); }` -/
def remainderModule : Module where
  items := [
    .func {
      name := "f"
      params := ["x"]
      body := [
        .varDecl 1 false "b" (.number 1 0),
        .ifStmt 1 (.var 1 "x")
          (.returnStmt 1 (some (.binary 1 .Mod (.number 1 5) (.var 1 "b")))) none,
        .returnStmt 1 (some (.number 1 1))] },
    .func {
      name := "main"
      body := [.returnStmt 1 (some (.call 1 "f" [.number 1 0]))] }]

/-- **The compiler traps on accepted programs**, at divisions that are never executed: once in the
folder, and once in the code generator. -/
theorem compile_traps :
    (∃ A T, Sema.analyze overflowModule = .ok (A, T) ∧
      ∃ n, compile? .insertion (IRGen.generate T A) n = .stuck) ∧
    (∃ A T, Sema.analyze remainderModule = .ok (A, T) ∧
      ∃ n, compile? .insertion (IRGen.generate T A) n = .stuck) :=
  ⟨⟨_, _, rfl, 6, by decide +kernel⟩, ⟨_, _, rfl, 6, by decide +kernel⟩⟩

end ToyC
