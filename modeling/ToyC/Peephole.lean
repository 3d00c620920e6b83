import ToyC.IRRuns

/-!
# Peephole patterns

The pass goes through a block. It drops an `Mv` of a vreg to itself, and for a negation of a
vreg it looks back for the last definition of that vreg: if that is a negation too, the second
one becomes a copy of what the first one negates. The same is done for `Not`.

It does not look at what was written in between, nor at whether the first negation writes
its own operand; and `Not` yields 0 or 1, so two of them give back only 0 and 1. Where the
operand still has its value at each pair, and is 0 or 1 at each pair of `Not`s
(`PairOk`), the pass preserves the meaning of the block (`peepholeBlock_runInsts`).
-/

namespace ToyC

/-- An `Mv` of a vreg to itself. -/
def isSelfMove (inst : Inst) : Bool :=
  inst.op = .Mv && inst.a.isReg && inst.dst = inst.a.reg?

/-- The vreg a negation or a `Not` reads. -/
def negated? (inst : Inst) : Option Nat :=
  match inst.op with
  | .Neg | .Not => inst.a.reg?
  | _ => none

/-- What a pair of negations is folded to, given the instructions before it, the latest
first. -/
def foldPair (out : List Inst) (inst : Inst) : Option Inst :=
  match negated? inst with
  | none => none
  | some x =>
    match out.find? (·.dst = some x) with
    | none => none
    | some i =>
      if i.op = inst.op ∧ i.a.isReg then some { op := .Mv, dst := inst.dst, a := i.a, b := .imm 0 }
      else none

/-- The instructions of a block behind those in `out`, with whether they changed. -/
def peepholeInsts (out : List Inst) : List Inst → List Inst × Bool
  | [] => ([], false)
  | inst :: insts =>
    if isSelfMove inst then ((peepholeInsts out insts).1, true)
    else
      let folded := foldPair out inst
      let inst := folded.getD inst
      let (insts, changed) := peepholeInsts (inst :: out) insts
      (inst :: insts, folded.isSome || changed)

/-- **The patterns of a block.** -/
def peepholeBlock (bb : BasicBlock) : BasicBlock × Bool :=
  let (insts, changed) := peepholeInsts [] bb.insts
  ({ bb with insts }, changed)

/-- The patterns of a function. -/
def peephole (F : IRFunc) : IRFunc × Bool :=
  ({ F with blocks := F.blocks.map fun bb => (peepholeBlock bb).1 },
    F.blocks.any fun bb => (peepholeBlock bb).2)

/-- What is left of the instructions: some of them, and pairs. -/
theorem peepholeInsts_mem {out insts : List Inst} {inst' : Inst}
    (h : inst' ∈ (peepholeInsts out insts).1) :
    ∃ inst ∈ insts, inst' = inst ∨ ∃ out, foldPair out inst = some inst' := by
  induction insts generalizing out with
  | nil => cases h
  | cons inst insts ih =>
    unfold peepholeInsts at h
    split at h
    · obtain ⟨i, hi, h⟩ := ih h
      exact ⟨i, List.mem_cons_of_mem _ hi, h⟩
    · rcases List.mem_cons.mp h with rfl | h
      · refine ⟨inst, List.mem_cons_self, ?_⟩
        cases hfold : foldPair out inst with
        | none => exact .inl rfl
        | some inst' => exact .inr ⟨out, hfold⟩
      · obtain ⟨i, hi, h⟩ := ih h
        exact ⟨i, List.mem_cons_of_mem _ hi, h⟩

/-- An instruction that neither is a move to itself nor negates is left. -/
theorem peepholeInsts_keeps {out insts : List Inst} {inst : Inst} (h : inst ∈ insts)
    (hself : isSelfMove inst = false) (hneg : negated? inst = none) :
    inst ∈ (peepholeInsts out insts).1 := by
  induction insts generalizing out with
  | nil => cases h
  | cons i insts ih =>
    unfold peepholeInsts
    rcases List.mem_cons.mp h with rfl | h
    · have hfold : foldPair out inst = none := by
        unfold foldPair
        rw [hneg]
      rw [hself, hfold]
      exact List.mem_cons_self
    · split
      · exact ih h
      · exact List.mem_cons_of_mem _ (ih h)

/-! ## Pairs -/

/-- **The vreg a pair is folded to**, from the instructions of the block before the second one,
the latest first: what the first one negates, unless that was folded itself. -/
def foldedTo : List Inst → Inst → Option Nat
  | [], _ => none
  | i :: done, inst =>
    match negated? inst with
    | none => none
    | some x =>
      if isSelfMove i then foldedTo done inst
      else if i.dst = some x then
        if i.op = inst.op ∧ foldedTo done i = none then i.a.reg? else none
      else foldedTo done inst

/-- **A vreg was not written since another one was**, nor by the instruction that wrote that
one. -/
def KeptSince (x y : Nat) : List Inst → Prop
  | [] => True
  | i :: done =>
    if isSelfMove i then KeptSince x y done
    else i.dst ≠ some y ∧ (i.dst = some x ∨ KeptSince x y done)

/-- **A pair that may be folded**: what the first one negates was not written since, and for a
pair of `Not`s it is 0 or 1. -/
def PairOk (done : List Inst) (R : Regs) (inst : Inst) : Prop :=
  ∀ x ∈ negated? inst, ∀ y ∈ foldedTo done inst,
    KeptSince x y done ∧ (inst.op = .Not → R y = 0 ∨ R y = 1)

/-- What is left of the instructions before, the latest first. -/
def emitted : List Inst → List Inst
  | [] => []
  | i :: done =>
    if isSelfMove i then emitted done else (foldPair (emitted done) i).getD i :: emitted done

/-- The copy a pair is folded to. -/
def pairMove (inst : Inst) (y : Nat) : Inst := { op := .Mv, dst := inst.dst, a := .reg y, b := .imm 0 }

theorem foldPair_dst {out : List Inst} {inst mv : Inst} (h : foldPair out inst = some mv) :
    mv.op = .Mv ∧ mv.dst = inst.dst := by
  unfold foldPair at h
  split at h
  · cases h
  · split at h
    · cases h
    · split at h
      · cases h
        exact ⟨rfl, rfl⟩
      · cases h

theorem negated?_op {inst : Inst} {x : Nat} (h : negated? inst = some x) :
    (inst.op = .Neg ∨ inst.op = .Not) ∧ inst.a = .reg x := by
  unfold negated? at h
  have ha : inst.a.reg? = some x → inst.a = .reg x := by
    intro ha
    cases hv : inst.a with
    | imm => rw [hv] at ha; cases ha
    | reg r =>
      rw [hv] at ha
      cases ha
      rfl
  split at h
  · exact ⟨.inl ‹_›, ha h⟩
  · exact ⟨.inr ‹_›, ha h⟩
  · cases h

theorem foldPair_cons_of_ne {out : List Inst} {i inst : Inst} {x : Nat}
    (hx : negated? inst = some x) (hd : i.dst ≠ some x) :
    foldPair (i :: out) inst = foldPair out inst := by
  unfold foldPair
  rw [hx]
  dsimp only
  rw [List.find?_cons_of_neg (by simpa using hd)]

theorem foldPair_cons_of_eq {out : List Inst} {i inst : Inst} {x : Nat}
    (hx : negated? inst = some x) (hd : i.dst = some x) :
    foldPair (i :: out) inst =
      if i.op = inst.op then i.a.reg?.map (pairMove inst) else none := by
  unfold foldPair
  rw [hx]
  dsimp only
  rw [List.find?_cons_of_pos (by simpa using hd)]
  cases ha : i.a <;> simp [ha, Val.isReg, Val.reg?, pairMove]

/-- **The pass folds the pairs it was said to fold.** -/
theorem foldPair_emitted (done : List Inst) (inst : Inst) :
    foldPair (emitted done) inst = (foldedTo done inst).map (pairMove inst) := by
  induction done generalizing inst with
  | nil =>
    unfold foldPair
    cases negated? inst <;> rfl
  | cons i done ih =>
    unfold foldedTo emitted
    cases hx : negated? inst with
    | none =>
      unfold foldPair
      rw [hx]
      rfl
    | some x =>
      by_cases hself : isSelfMove i = true
      · simp only [hself, if_true, ih]
      · simp only [hself, Bool.false_eq_true, if_false]
        cases hf : foldPair (emitted done) i with
        | none =>
          have hnone : foldedTo done i = none := by simpa [ih] using hf
          by_cases hd : i.dst = some x
          · rw [if_pos hd, hnone, Option.getD_none, foldPair_cons_of_eq hx hd]
            by_cases hop : i.op = inst.op <;> simp [hop]
          · rw [if_neg hd, ← ih inst]
            exact foldPair_cons_of_ne hx hd
        | some mv =>
          obtain ⟨hop, hdst⟩ := foldPair_dst hf
          have hsome : foldedTo done i ≠ none := by
            intro hnone
            rw [ih, hnone] at hf
            cases hf
          by_cases hd : i.dst = some x
          · have hne : ¬ mv.op = inst.op := by
              rw [hop]
              rcases (negated?_op hx).1 with h | h <;> simp [h]
            rw [if_pos hd, Option.getD_some, foldPair_cons_of_eq hx (hdst.trans hd), if_neg hne,
              if_neg fun h => hsome h.2]
            rfl
          · rw [if_neg hd, ← ih inst]
            exact foldPair_cons_of_ne hx fun h => hd (hdst.symm.trans h)

/-! ## Their values -/

/-- The value of a negation or a `Not`. -/
def negate (op : Op) (w : Word) : Word := if op = .Neg then -w else Word.ofBool (w == 0#32)

section Values

variable {call : Callee} {inst : Inst} {R R' : Regs} {G G' : Globals}

theorem Inst.exec_negate {x : Nat} (hx : negated? inst = some x) :
    inst.exec call R G = .ok (R.write inst.dst (negate inst.op (R x)), G) := by
  obtain ⟨hop, ha⟩ := negated?_op hx
  unfold Inst.exec
  rcases hop with hop | hop <;> rw [hop, ha] <;> rfl

/-- **Twice is the identity**, for `Not` on 0 and 1. -/
theorem negate_negate {op : Op} (hop : op = .Neg ∨ op = .Not) {w : Word}
    (hw : op = .Not → w = 0 ∨ w = 1) : negate op (negate op w) = w := by
  rcases hop with rfl | rfl
  · exact BitVec.neg_neg
  · rcases hw rfl with rfl | rfl <;> rfl

/-- A self move changes nothing. -/
theorem Inst.exec_selfMove (h : isSelfMove inst = true) : inst.exec call R G = .ok (R, G) := by
  simp only [isSelfMove, Bool.and_eq_true, decide_eq_true_iff] at h
  obtain ⟨⟨hop, ha⟩, hd⟩ := h
  cases hv : inst.a with
  | imm => rw [hv] at ha; cases ha
  | reg r =>
    rw [hv] at hd
    unfold Inst.exec
    rw [hop, hv, show inst.dst = some r from hd]
    refine congrArg (fun R => Outcome.ok (R, G)) (funext fun x => ?_)
    show R.set r (R r) x = R x
    by_cases hx : x = r
    · rw [hx, R.set_same]
    · exact R.set_of_ne _ hx

theorem Inst.event_selfMove (h : isSelfMove inst = true) : inst.event R = none := by
  simp only [isSelfMove, Bool.and_eq_true, decide_eq_true_iff] at h
  unfold Inst.event
  rw [h.1.1]

/-- **The pairs hold**: what the second one of a pair reads is the negation of what the first
one negates, if that is still there. -/
def PairsHold (done : List Inst) (R : Regs) : Prop :=
  ∀ inst x y, negated? inst = some x → foldedTo done inst = some y → KeptSince x y done →
    R x = negate inst.op (R y)

/-- **They go on holding.** -/
theorem PairsHold.exec {done : List Inst} {i : Inst} (h : PairsHold done R)
    (hexec : i.exec call R G = .ok (R', G')) : PairsHold (i :: done) R' := by
  intro inst x y hx hy hkept
  unfold foldedTo at hy
  unfold KeptSince at hkept
  simp only [hx] at hy
  by_cases hself : isSelfMove i = true
  · rw [if_pos hself] at hy hkept
    rw [Inst.exec_selfMove hself] at hexec
    cases hexec
    exact h inst x y hx hy hkept
  · rw [if_neg hself] at hy hkept
    obtain ⟨hdy, hkept⟩ := hkept
    have hy' := Inst.exec_frame hexec hdy
    by_cases hd : i.dst = some x
    · -- The first one of the pair.
      rw [if_pos hd] at hy
      split at hy
      · rename_i hnew
        have hi : negated? i = some y := by
          unfold negated?
          rcases (negated?_op hx).1 with hop | hop <;> rw [hnew.1, hop] <;> exact hy
        rw [hy', ← hnew.1]
        rw [Inst.exec_negate hi, hd] at hexec
        cases hexec
        exact R.set_same x _
      · cases hy
    · rw [if_neg hd] at hy
      rw [Inst.exec_frame hexec hd, hy']
      exact h inst x y hx hy (hkept.resolve_left hd)

end Values

/-! ## The block -/

/-- **Every pair of a run may be folded**: each instruction, in the state it is executed in,
finds what its pair asks for. -/
def PairsOk (call : Callee) : List Inst → List Inst → Regs → Globals → Prop
  | _, [], _, _ => True
  | done, inst :: rest, R, G =>
    PairOk done R inst ∧
      ∀ R' G', inst.exec call R G = .ok (R', G') → PairsOk call (inst :: done) rest R' G'

section Block

variable {call : Callee}

/-- **A folded pair does the same.** -/
theorem pairMove_exec {done : List Inst} {inst : Inst} {y : Nat} {R : Regs} (G : Globals)
    (hR : PairsHold done R) (hok : PairOk done R inst) (hy : foldedTo done inst = some y) :
    (pairMove inst y).exec call R G = inst.exec call R G ∧
      (pairMove inst y).event R = inst.event R := by
  cases hx : negated? inst with
  | none =>
    cases done with
    | nil => cases hy
    | cons i done => simp [foldedTo, hx] at hy
  | some x =>
    obtain ⟨hkept, hbit⟩ := hok x hx y hy
    have hop := (negated?_op hx).1
    constructor
    · rw [Inst.exec_negate hx, hR inst x y hx hy hkept, negate_negate hop hbit]
      rfl
    · unfold Inst.event
      rcases hop with hop | hop <;> rw [hop] <;> rfl

theorem peepholeInsts_run {rest done : List Inst} {R : Regs} {G : Globals}
    (hok : PairsOk call done rest R G) (hR : PairsHold done R) :
    runInsts call (peepholeInsts (emitted done) rest).1 R G = runInsts call rest R G := by
  induction rest generalizing done R G with
  | nil => rfl
  | cons inst rest ih =>
    have hnext : ∀ R' G', inst.exec call R G = .ok (R', G') →
        runInsts call (peepholeInsts (emitted (inst :: done)) rest).1 R' G' =
          runInsts call rest R' G' :=
      fun R' G' hexec => ih (hok.2 R' G' hexec) (hR.exec hexec)
    unfold emitted at hnext
    unfold peepholeInsts
    by_cases hself : isSelfMove inst = true
    · simp only [hself, if_true] at hnext ⊢
      rw [runInsts, Inst.exec_selfMove hself, hnext R G (Inst.exec_selfMove hself),
        Inst.event_selfMove hself]
      dsimp only [Outcome.ok_bind]
      cases runInsts call rest R G <;> rfl
    · simp only [hself, Bool.false_eq_true, if_false] at hnext ⊢
      have hsame : ((foldPair (emitted done) inst).getD inst).exec call R G = inst.exec call R G ∧
          ((foldPair (emitted done) inst).getD inst).event R = inst.event R := by
        rw [foldPair_emitted]
        cases hy : foldedTo done inst with
        | none => exact ⟨rfl, rfl⟩
        | some y => exact pairMove_exec G hR hok.1 hy
      exact runInsts_cons_congr hsame.1 hsame.2 hnext

/-- **Where every pair may be folded, the pass preserves the meaning of the block**: it leaves the
same registers and globals, with the same calls and stores in between. -/
theorem peepholeBlock_runInsts {bb : BasicBlock} {R : Regs} {G : Globals}
    (hok : PairsOk call [] bb.insts R G) :
    runInsts call (peepholeBlock bb).1.insts R G = runInsts call bb.insts R G :=
  peepholeInsts_run hok fun _ _ _ _ h _ => by cases h

end Block

/-- `y = -x; z = -y;`. -/
def negationBlock : BasicBlock where
  insts := [{ op := .Neg, dst := some 1, a := .reg 0 }, { op := .Neg, dst := some 2, a := .reg 1 }]

theorem peepholeBlock_negationBlock :
    runInsts (fun _ => .stuck) (peepholeBlock negationBlock).1.insts (fun _ => 3) (fun _ => 0) =
      runInsts (fun _ => .stuck) negationBlock.insts (fun _ => 3) (fun _ => 0) := by
  refine peepholeBlock_runInsts ⟨?_, fun _ _ _ => ⟨?_, fun _ _ _ => trivial⟩⟩
  · rintro x hx y ⟨⟩
  · rintro x ⟨⟩ y ⟨⟩
    refine ⟨?_, fun h => by cases h⟩
    simp [KeptSince, isSelfMove]

/-- `x = 5; y = !x; z = !y;`: the second negation becomes a copy of five. -/
def notBlock : BasicBlock where
  insts := [{ op := .Mv, dst := some 0, a := .imm 5 }, { op := .Not, dst := some 1, a := .reg 0 },
    { op := .Not, dst := some 2, a := .reg 1 }]

/-- `x = 5; y = -x; x = 7; z = -y;`: the second negation becomes a copy of seven. -/
def redefinedBlock : BasicBlock where
  insts := [{ op := .Mv, dst := some 0, a := .imm 5 }, { op := .Neg, dst := some 1, a := .reg 0 },
    { op := .Mv, dst := some 0, a := .imm 7 }, { op := .Neg, dst := some 2, a := .reg 1 }]

/-- Both blocks leave another value in the last vreg than before. -/
theorem peepholeBlock_not_involution :
    leavesIn notBlock 2 = some 1 ∧ leavesIn (peepholeBlock notBlock).1 2 = some 5 ∧
      leavesIn redefinedBlock 2 = some 5 ∧ leavesIn (peepholeBlock redefinedBlock).1 2 = some 7 := by
  decide

end ToyC
