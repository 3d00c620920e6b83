import ToyC.IRGenBound
import ToyC.Liveness

/-!
# The vregs of generated functions

Everything the generator writes names vregs it has given out: those of variables that have one, and
those of values it has just computed. With the check for the former there is nothing else to show
than that each way of lowering something keeps this (`genFunc?_inRange`), also of code that nothing
reaches.
-/

namespace ToyC

namespace IRGen

/-- **Only vregs that were given out are named.** -/
structure InRange (g : IRGen) : Prop where
  vregs : ∀ sym r, g.irId.lookup sym = some r → r < g.nextVreg
  insts : ∀ bb ∈ g.blocks, ∀ inst ∈ bb.insts, inst.InRange g.nextVreg
  terms : ∀ bb ∈ g.blocks, ∀ r ∈ bb.termUses, r < g.nextVreg

/-- **Lowering some code**: it is still so, and there are no fewer of them. -/
structure Widens (g g' : IRGen) : Prop where
  inRange : g'.InRange
  nextVreg_le : g.nextVreg ≤ g'.nextVreg

section Widens

variable {g g' g'' : IRGen}

theorem Widens.refl (h : g.InRange) : Widens g g := ⟨h, Nat.le_refl _⟩

theorem Widens.trans (h : Widens g g') (h' : Widens g' g'') : Widens g g'' :=
  ⟨h'.inRange, Nat.le_trans h.nextVreg_le h'.nextVreg_le⟩

/-- More vregs. -/
theorem InRange.widen (h : g.InRange) (hblocks : g'.blocks = g.blocks) (hirId : g'.irId = g.irId)
    (hle : g.nextVreg ≤ g'.nextVreg) : g'.InRange where
  vregs sym r hr := Nat.lt_of_lt_of_le (h.vregs sym r (hirId ▸ hr)) hle
  insts bb hbb inst hi := (h.insts bb (hblocks ▸ hbb) inst hi).mono hle
  terms bb hbb r hr := Nat.lt_of_lt_of_le (h.terms bb (hblocks ▸ hbb) r hr) hle

theorem newVreg_widens (h : g.InRange) : Widens g g.newVreg.2 :=
  ⟨h.widen rfl rfl (Nat.le_succ _), Nat.le_succ _⟩

theorem newBlock_widens (h : g.InRange) : Widens g g.newBlock.2 := by
  have hmem : ∀ bb ∈ g.newBlock.2.blocks, bb ∈ g.blocks ∨ bb = { id := g.blocks.length } :=
    fun bb hbb => (List.mem_append.mp hbb).imp_right List.mem_singleton.mp
  refine ⟨⟨h.vregs, fun bb hbb inst hi => ?_, fun bb hbb r hr => ?_⟩, Nat.le_refl _⟩
  · rcases hmem bb hbb with hbb | rfl
    · exact h.insts bb hbb inst hi
    · cases hi
  · rcases hmem bb hbb with hbb | rfl
    · exact h.terms bb hbb r hr
    · cases hr

theorem ensureOpen_widens (h : g.InRange) : Widens g g.ensureOpen := by
  unfold ensureOpen
  split
  · have hnew := newBlock_widens h
    exact ⟨hnew.inRange.widen rfl rfl (Nat.le_refl _), hnew.nextVreg_le⟩
  · exact .refl h

/-- A block of a list, one of which was changed. -/
theorem mem_modify {l : List BasicBlock} {i : Nat} {f : BasicBlock → BasicBlock} {bb : BasicBlock}
    (h : bb ∈ l.modify i f) : bb ∈ l ∨ ∃ bb' ∈ l, bb = f bb' := by
  obtain ⟨j, hj⟩ := List.mem_iff_getElem?.mp h
  rw [List.getElem?_modify] at hj
  cases hlj : l[j]? with
  | none =>
    rw [hlj] at hj
    split at hj <;> cases hj
  | some bb' =>
    have hbb' := List.mem_of_getElem? hlj
    rw [hlj] at hj
    split at hj
    · exact .inr ⟨bb', hbb', (Option.some.inj hj).symm⟩
    · exact .inl ((Option.some.inj hj) ▸ hbb')

theorem emit?_widens (h : g.InRange) {inst : Inst} (hi : inst.InRange g.nextVreg)
    (he : g.emit? inst = some g') : Widens g g' := by
  unfold emit? at he
  split at he
  · cases he
    have ho := ensureOpen_widens h
    refine ⟨⟨ho.inRange.vregs, fun bb hbb inst' hi' => ?_, fun bb hbb r hr => ?_⟩, ho.nextVreg_le⟩
    · rcases mem_modify hbb with hbb | ⟨bb', hbb', rfl⟩
      · exact ho.inRange.insts bb hbb inst' hi'
      · rcases List.mem_append.mp hi' with hi' | hi'
        · exact ho.inRange.insts bb' hbb' inst' hi'
        · obtain rfl := List.mem_singleton.mp hi'
          exact hi.mono ho.nextVreg_le
    · rcases mem_modify hbb with hbb | ⟨bb', hbb', rfl⟩
      · exact ho.inRange.terms bb hbb r hr
      · exact ho.inRange.terms bb' hbb' r hr
  · cases he

theorem close?_widens (h : g.InRange) {f : BasicBlock → BasicBlock}
    (hinsts : ∀ bb, (f bb).insts = bb.insts)
    (hterm : ∀ bb, ∀ r ∈ (f bb).termUses, r < g.nextVreg) (hc : g.close? f = some g') :
    Widens g g' := by
  unfold close? at hc
  split at hc
  · cases hc
    have ho := ensureOpen_widens h
    refine ⟨⟨ho.inRange.vregs, fun bb hbb inst hi => ?_, fun bb hbb r hr => ?_⟩, ho.nextVreg_le⟩
    · rcases mem_modify hbb with hbb | ⟨bb', hbb', rfl⟩
      · exact ho.inRange.insts bb hbb inst hi
      · rw [hinsts] at hi
        exact ho.inRange.insts bb' hbb' inst hi
    · rcases mem_modify hbb with hbb | ⟨bb', hbb', rfl⟩
      · exact ho.inRange.terms bb hbb r hr
      · exact Nat.lt_of_lt_of_le (hterm bb' r hr) ho.nextVreg_le
  · cases hc

theorem Below.lt {k r : Nat} {c : Val} (h : Below k c) (hr : c.reg? = some r) : r < k := by
  cases c with
  | imm => cases hr
  | reg r' =>
    cases hr
    exact h

theorem termJmp?_widens (h : g.InRange) {t : Nat} (hc : g.termJmp? t = some g') : Widens g g' :=
  close?_widens h (f := fun bb => { bb with term := .Jmp, succ0 := t }) (fun _ => rfl)
    (fun _ _ hr => by cases hr) hc

theorem termBr?_widens (h : g.InRange) {c : Val} (hc : Below g.nextVreg c) {t f : Nat}
    (hbr : g.termBr? c t f = some g') : Widens g g' := by
  refine close?_widens h (f := fun bb => { bb with term := .Br, cond := c, succ0 := t, succ1 := f })
    (fun _ => rfl) (fun bb r hr => ?_) hbr
  exact hc.lt (by simpa [BasicBlock.termUses] using hr)

theorem termRet?_widens (h : g.InRange) {hasVal : Bool} {c : Val} (hc : Below g.nextVreg c)
    (hret : g.termRet? hasVal c = some g') : Widens g g' := by
  refine close?_widens h
    (f := fun bb => { bb with term := .Ret, retHasVal := hasVal, retVal := c }) (fun _ => rfl)
    (fun bb r hr => ?_) hret
  cases hasVal with
  | true => exact hc.lt (by simpa [BasicBlock.termUses] using hr)
  | false => cases hr

end Widens

/-! ## Expressions -/

/-- **A way of lowering an expression** names what was given out, and so may be its value. -/
def Keeps (gen : IRGen → Option (Val × IRGen)) : Prop :=
  ∀ ⦃g : IRGen⦄ ⦃r : Val × IRGen⦄, g.InRange → gen g = some r →
    Widens g r.2 ∧ Below r.2.nextVreg r.1

/-- The same for arguments. -/
def KeepsAll (gen : IRGen → Option (List Val × IRGen)) : Prop :=
  ∀ ⦃g : IRGen⦄ ⦃r : List Val × IRGen⦄, g.InRange → gen g = some r →
    Widens g r.2 ∧ ∀ a ∈ r.1, Below r.2.nextVreg a

/-- The same for a condition. -/
def KeepsCond (cond : Nat → Nat → IRGen → Option IRGen) : Prop :=
  ∀ ⦃g g' : IRGen⦄ ⦃t f : Nat⦄, g.InRange → cond t f g = some g' → Widens g g'

/-- The same for a statement. -/
def KeepsIn (stmt : IRGen → Option IRGen) : Prop :=
  ∀ ⦃g g' : IRGen⦄, g.InRange → stmt g = some g' → Widens g g'

theorem Keeps.imm (w : Word) : Keeps fun g => some (.imm w, g) := by
  intro g r h hr
  cases hr
  exact ⟨.refl h, trivial⟩

/-- An instruction with a new vreg for its result. -/
theorem newVreg_emit?_widens {g₀ g g' : IRGen} (h : Widens g₀ g) {inst : Inst}
    (hi : inst.InRange (g.nextVreg + 1)) (he : g.newVreg.2.emit? inst = some g') :
    Widens g₀ g' ∧ Below g'.nextVreg (.reg g.nextVreg) := by
  have hv := newVreg_widens h.inRange
  have he := emit?_widens hv.inRange hi he
  exact ⟨h.trans (hv.trans he), he.nextVreg_le⟩

theorem genVar?_keeps (S : Sema) (sym : SymId) : Keeps (genVar? true S sym) := by
  intro g r h hr
  unfold genVar? at hr
  split at hr
  · obtain ⟨g', hg', hr⟩ := Option.bind_eq_some_iff.mp hr
    cases hr
    exact newVreg_emit?_widens (.refl h) (by simp [Inst.InRange, Inst.uses, Inst.operands]) hg'
  · obtain ⟨r', hr', hr⟩ := Option.bind_eq_some_iff.mp hr
    cases hr
    exact ⟨.refl h, h.vregs sym r' hr'⟩

theorem binary_inRange (op : BinOp) {k d : Nat} {a b : Val} (hd : d < k) (ha : Below k a)
    (hb : Below k b) : ({ op := mapBin op, dst := some d, a, b } : Inst).InRange k := by
  have hab : ∀ r, a.reg? = some r ∨ b.reg? = some r → r < k := fun r hr => hr.elim ha.lt hb.lt
  cases op <;> simpa [Inst.InRange, Inst.uses, Inst.operands, mapBin, hd] using hab

theorem genBinary?_keeps (op : BinOp) {lhs rhs : IRGen → Option (Val × IRGen)} (hl : Keeps lhs)
    (hr : Keeps rhs) : Keeps (genBinary? op lhs rhs) := by
  intro g r h heq
  obtain ⟨r₁, h₁, heq⟩ := Option.bind_eq_some_iff.mp heq
  obtain ⟨r₂, h₂, heq⟩ := Option.bind_eq_some_iff.mp heq
  obtain ⟨g', hg', heq⟩ := Option.bind_eq_some_iff.mp heq
  cases heq
  obtain ⟨hw₁, ha⟩ := hl h h₁
  obtain ⟨hw₂, hb⟩ := hr hw₁.inRange h₂
  have hlt := Nat.lt_succ_self r₂.2.nextVreg
  have hle := Nat.le_of_lt hlt
  exact newVreg_emit?_widens (hw₁.trans hw₂) (binary_inRange op hlt
    (ha.mono (Nat.le_trans hw₂.nextVreg_le hle)) (hb.mono hle)) hg'

theorem genUnary?_keeps (op : UnOp) {operand : IRGen → Option (Val × IRGen)} (ho : Keeps operand) :
    Keeps (genUnary? op operand) := by
  intro g r h heq
  have hemit : ∀ op' : Op, op' = .Neg ∨ op' = .Not → (operand g >>= fun r₁ =>
      r₁.2.newVreg.2.emit? { op := op', dst := some r₁.2.nextVreg, a := r₁.1 } >>= fun g' =>
        some (Val.reg r₁.2.nextVreg, g')) = some r → Widens g r.2 ∧ Below r.2.nextVreg r.1 := by
    intro op' hop heq
    obtain ⟨r₁, h₁, heq⟩ := Option.bind_eq_some_iff.mp heq
    obtain ⟨g', hg', heq⟩ := Option.bind_eq_some_iff.mp heq
    cases heq
    obtain ⟨hw₁, ha⟩ := ho h h₁
    have ha := fun r hr => (ha.mono (Nat.le_succ _)).lt (r := r) hr
    refine newVreg_emit?_widens hw₁ ?_ hg'
    rcases hop with rfl | rfl <;> simpa [Inst.InRange, Inst.uses, Inst.operands] using ha
  cases op with
  | Plus => exact ho h heq
  | Neg => exact hemit .Neg (.inl rfl) heq
  | Not => exact hemit .Not (.inr rfl) heq

theorem genCall?_keeps (target : FuncRef) {args : IRGen → Option (List Val × IRGen)}
    (ha : KeepsAll args) : Keeps (genCall? target args) := by
  intro g r h heq
  rw [genCall?_eq] at heq
  obtain ⟨r₁, h₁, heq⟩ := Option.bind_eq_some_iff.mp heq
  obtain ⟨hw₁, hargs⟩ := ha h h₁
  have huses : ∀ k, r₁.2.nextVreg ≤ k → ∀ a ∈ r₁.1, ∀ r, a.reg? = some r → r < k :=
    fun k hk a ha r hr => ((hargs a ha).mono hk).lt hr
  split at heq
  · obtain ⟨g', hg', heq⟩ := Option.bind_eq_some_iff.mp heq
    cases heq
    refine ⟨hw₁.trans (emit?_widens hw₁.inRange ?_ hg'), trivial⟩
    simpa [Inst.InRange, Inst.uses, Inst.operands] using
      fun r a ha hr => huses _ (Nat.le_refl _) a ha r hr
  · obtain ⟨g', hg', heq⟩ := Option.bind_eq_some_iff.mp heq
    cases heq
    refine newVreg_emit?_widens hw₁ ?_ hg'
    simpa [Inst.InRange, Inst.uses, Inst.operands] using
      fun r a ha hr => huses _ (Nat.le_succ _) a ha r hr

theorem genBranch?_keeps {value : IRGen → Option (Val × IRGen)} (hv : Keeps value) :
    KeepsCond (genBranch? value) := by
  intro g g' t f h heq
  obtain ⟨r, hr, heq⟩ := Option.bind_eq_some_iff.mp heq
  obtain ⟨hw, hc⟩ := hv h hr
  exact hw.trans (termBr?_widens hw.inRange hc heq)

theorem genConstCond?_keeps (w : Word) : KeepsCond (genConstCond? w) :=
  fun _ _ _ _ h heq => termJmp?_widens h heq

/-- Going on in another block. -/
theorem startBlock_widens {g g' : IRGen} (h : Widens g g') (b : Nat) : Widens g (g'.startBlock b) :=
  ⟨h.inRange.widen rfl rfl (Nat.le_refl _), h.nextVreg_le⟩

theorem genLogicalCond?_keeps (isOr : Bool) {lhs rhs : Nat → Nat → IRGen → Option IRGen}
    (hl : KeepsCond lhs) (hr : KeepsCond rhs) : KeepsCond (genLogicalCond? isOr lhs rhs) := by
  intro g g' t f h heq
  rw [genLogicalCond?_eq] at heq
  obtain ⟨g₁, hg₁, heq⟩ := Option.bind_eq_some_iff.mp heq
  have hnew := newBlock_widens h
  have h₁ := hnew.trans (hl hnew.inRange hg₁)
  have h₂ := startBlock_widens h₁ g.newBlock.1
  exact h₂.trans (hr h₂.inRange heq)

theorem genLogical?_keeps {cond : Nat → Nat → IRGen → Option IRGen} (hc : KeepsCond cond) :
    Keeps (genLogical? cond) := by
  intro g r h heq
  obtain ⟨g₁, hg₁, heq⟩ := Option.bind_eq_some_iff.mp heq
  obtain ⟨g₂, hg₂, heq⟩ := Option.bind_eq_some_iff.mp heq
  cases heq
  have hv := newVreg_widens h
  have hb₁ := newBlock_widens hv.inRange
  have hb₂ := newBlock_widens hb₁.inRange
  have hb₃ := newBlock_widens hb₂.inRange
  have h₀ := hb₁.trans (hb₂.trans hb₃)
  have h₁ := h₀.trans (hc hb₃.inRange hg₁)
  have hmv : ∀ (k : Nat) (w : Word), g.nextVreg < k →
      ({ op := .Mv, dst := some g.nextVreg, a := .imm w } : Inst).InRange k := by
    intro k w hk
    simpa [Inst.InRange, Inst.uses, Inst.operands, Val.reg?] using hk
  have h₂ : Widens g₁ g₂ := by
    obtain ⟨g₃, hg₃, heq⟩ := Option.bind_eq_some_iff.mp hg₂
    obtain ⟨g₄, hg₄, heq⟩ := Option.bind_eq_some_iff.mp heq
    obtain ⟨g₅, hg₅, heq⟩ := Option.bind_eq_some_iff.mp heq
    obtain ⟨g₆, hg₆, heq⟩ := Option.bind_eq_some_iff.mp heq
    cases heq
    have hs₁ := startBlock_widens (.refl h₁.inRange) g.newVreg.2.newBlock.1
    have h₃ := hs₁.trans (emit?_widens hs₁.inRange (hmv _ 1 h₁.nextVreg_le) hg₃)
    have h₄ := startBlock_widens (h₃.trans (termJmp?_widens h₃.inRange hg₄))
      g.newVreg.2.newBlock.2.newBlock.1
    have h₅ := h₄.trans (emit?_widens h₄.inRange
      (hmv _ 0 (Nat.lt_of_lt_of_le h₁.nextVreg_le h₄.nextVreg_le)) hg₅)
    exact startBlock_widens (h₅.trans (termJmp?_widens h₅.inRange hg₆)) _
  exact ⟨hv.trans (h₁.trans h₂), Nat.lt_of_lt_of_le h₁.nextVreg_le h₂.nextVreg_le⟩

/-- A folded node names nothing. -/
theorem Keeps.fold {gen : IRGen → Option (Val × IRGen)} (isConst : Bool) (w : Word)
    (h : Keeps gen) : Keeps fun g => if isConst then some (.imm w, g) else gen g := by
  cases isConst with
  | true => exact Keeps.imm w
  | false => exact h

/-- Nor does a folded condition. -/
theorem KeepsCond.fold {cond : Nat → Nat → IRGen → Option IRGen} (isConst : Bool) (w : Word)
    (h : KeepsCond cond) :
    KeepsCond fun t f g => if isConst then genConstCond? w t f g else cond t f g := by
  cases isConst with
  | true => exact genConstCond?_keeps w
  | false => exact h

mutual
/-- **Lowering an expression** names what was given out. -/
theorem genExpr?_keeps (S : Sema) (e : AExpr) : Keeps (genExpr? true S e) := by
  match e with
  | .number note _ =>
    cases hc : note.isConst <;> intro g r h hr <;>
      simp only [genExpr?, hc, if_true, Bool.false_eq_true, if_false] at hr
    · exact Keeps.imm 0 h hr
    · exact Keeps.imm _ h hr
  | .var note _ sym => exact (genVar?_keeps S sym).fold note.isConst _
  | .binary note op lhs rhs =>
    exact (genBinary?_keeps op (genExpr?_keeps S lhs) (genExpr?_keeps S rhs)).fold note.isConst _
  | .logical note isOr lhs rhs =>
    exact (genLogical?_keeps (genLogicalCond?_keeps isOr (genCond?_keeps S lhs)
      (genCond?_keeps S rhs))).fold note.isConst _
  | .unary note op operand =>
    exact (genUnary?_keeps op (genExpr?_keeps S operand)).fold note.isConst _
  | .call note _ args target =>
    exact (genCall?_keeps target (genArgs?_keeps S args)).fold note.isConst _
/-- The same for the arguments of a call. -/
theorem genArgs?_keeps (S : Sema) (es : List AExpr) : KeepsAll (genArgs? true S es) := by
  intro g r h heq
  match es with
  | [] =>
    cases heq
    exact ⟨.refl h, fun a ha => absurd ha List.not_mem_nil⟩
  | e :: es =>
    obtain ⟨r₁, h₁, heq⟩ := Option.bind_eq_some_iff.mp heq
    obtain ⟨r₂, h₂, heq⟩ := Option.bind_eq_some_iff.mp heq
    cases heq
    obtain ⟨hw₁, ha⟩ := genExpr?_keeps S e h h₁
    obtain ⟨hw₂, has⟩ := genArgs?_keeps S es hw₁.inRange h₂
    refine ⟨hw₁.trans hw₂, fun a hmem => ?_⟩
    rcases List.mem_cons.mp hmem with rfl | hmem
    · exact ha.mono hw₂.nextVreg_le
    · exact has a hmem
/-- The same for a condition. -/
theorem genCond?_keeps (S : Sema) (e : AExpr) : KeepsCond (genCond? true S e) := by
  match e with
  | .number note _ => exact (genBranch?_keeps (Keeps.imm 0)).fold note.isConst _
  | .var note _ sym => exact (genBranch?_keeps (genVar?_keeps S sym)).fold note.isConst _
  | .binary note op lhs rhs =>
    exact (genBranch?_keeps (genBinary?_keeps op (genExpr?_keeps S lhs)
      (genExpr?_keeps S rhs))).fold note.isConst _
  | .logical note isOr lhs rhs =>
    exact (genLogicalCond?_keeps isOr (genCond?_keeps S lhs) (genCond?_keeps S rhs)).fold
      note.isConst _
  | .unary note op operand =>
    cases op with
    | Not =>
      have hswap : KeepsCond fun t f => genCond? true S operand f t :=
        fun _ _ _ _ h heq => genCond?_keeps S operand h heq
      exact hswap.fold note.isConst _
    | Plus | Neg =>
      exact (genBranch?_keeps (genUnary?_keeps _ (genExpr?_keeps S operand))).fold note.isConst _
  | .call note _ args target =>
    exact (genBranch?_keeps (genCall?_keeps target (genArgs?_keeps S args))).fold note.isConst _
end

/-! ## Statements -/

/-- A value that is a variable's, and is not used. -/
theorem genExpr?_name_widens (S : Sema) {e : AExpr} (he : e.isName = true) {g : IRGen}
    {r : Val × IRGen} (h : g.InRange) (hr : genExpr? false S e g = some r) : Widens g r.2 := by
  match e with
  | .var note _ sym =>
    simp only [genExpr?] at hr
    split at hr
    · cases hr
      exact .refl h
    · unfold genVar? at hr
      split at hr
      · rename_i hk
        have hk' : genVar? true S sym g = some r := by
          unfold genVar?
          rw [if_pos hk]
          exact hr
        exact (genVar?_keeps S sym h hk').1
      · cases hr
        exact .refl h
  | .unary note .Plus operand =>
    simp only [genExpr?] at hr
    split at hr
    · cases hr
      exact .refl h
    · exact genExpr?_name_widens S (e := operand) he h hr

theorem genAssign?_keeps (S : Sema) (sym : SymId) (value : AExpr) :
    KeepsIn (genAssign? true S sym value) := by
  intro g g' h heq
  obtain ⟨⟨a, g₁⟩, hr, heq⟩ := Option.bind_eq_some_iff.mp heq
  obtain ⟨hw, ha⟩ := genExpr?_keeps S value h hr
  have ha := fun r hr => ha.lt (r := r) hr
  dsimp only at heq hw ha
  split at heq
  · exact hw.trans (emit?_widens hw.inRange
      (by simpa [Inst.InRange, Inst.uses, Inst.operands] using ha) heq)
  · obtain ⟨d, hd, heq⟩ := Option.bind_eq_some_iff.mp heq
    have hd := hw.inRange.vregs sym d hd
    exact hw.trans (emit?_widens hw.inRange
      (by simpa [Inst.InRange, Inst.uses, Inst.operands, hd] using ha) heq)

/-- A new variable. -/
theorem bindVreg_widens {g : IRGen} (h : g.InRange) (sym : SymId) :
    Widens g { g.newVreg.2 with irId := (sym, g.nextVreg) :: g.irId } := by
  have hv := newVreg_widens h
  refine ⟨⟨fun id r hr => ?_, hv.inRange.insts, hv.inRange.terms⟩, hv.nextVreg_le⟩
  replace hr : List.lookup id ((sym, g.nextVreg) :: g.irId) = some r := hr
  rw [List.lookup_cons] at hr
  split at hr
  · cases hr
    exact Nat.lt_succ_self _
  · exact hv.inRange.vregs id r hr

theorem genVarDecl?_keeps (S : Sema) (init : AExpr) (sym : SymId) :
    KeepsIn (genVarDecl? true S init sym) := by
  intro g g' h heq
  obtain ⟨r, hr, heq⟩ := Option.bind_eq_some_iff.mp heq
  have hbind := bindVreg_widens h sym
  obtain ⟨hw, ha⟩ := genExpr?_keeps S init hbind.inRange hr
  have hd : g.nextVreg < r.2.nextVreg := hw.nextVreg_le
  have ha := fun r hr => ha.lt (r := r) hr
  refine hbind.trans (hw.trans (emit?_widens hw.inRange ?_ heq))
  simpa [Inst.InRange, Inst.uses, Inst.operands, newVreg, hd] using ha

section Jumps

variable {cond : Nat → Nat → IRGen → Option IRGen} {then_ else_ body : IRGen → Option IRGen}

theorem genIf?_keeps (hc : KeepsCond cond) (ht : KeepsIn then_) : KeepsIn (genIf? cond then_) := by
  intro g g' h heq
  obtain ⟨g₁, h₁, heq⟩ := Option.bind_eq_some_iff.mp heq
  obtain ⟨g₂, h₂, heq⟩ := Option.bind_eq_some_iff.mp heq
  obtain ⟨g₃, h₃, heq⟩ := Option.bind_eq_some_iff.mp heq
  cases heq
  have hn₁ := newBlock_widens h
  have hn₂ := hn₁.trans (newBlock_widens hn₁.inRange)
  have hw₁ := startBlock_widens (hn₂.trans (hc hn₂.inRange h₁)) g.newBlock.1
  have hw₂ := hw₁.trans (ht hw₁.inRange h₂)
  exact startBlock_widens (hw₂.trans (termJmp?_widens hw₂.inRange h₃)) _

theorem genIfElse?_keeps (hc : KeepsCond cond) (ht : KeepsIn then_) (he : KeepsIn else_) :
    KeepsIn (genIfElse? cond then_ else_) := by
  intro g g' h heq
  obtain ⟨g₁, h₁, heq⟩ := Option.bind_eq_some_iff.mp heq
  obtain ⟨g₂, h₂, heq⟩ := Option.bind_eq_some_iff.mp heq
  obtain ⟨g₃, h₃, heq⟩ := Option.bind_eq_some_iff.mp heq
  obtain ⟨g₄, h₄, heq⟩ := Option.bind_eq_some_iff.mp heq
  obtain ⟨g₅, h₅, heq⟩ := Option.bind_eq_some_iff.mp heq
  cases heq
  have hn₁ := newBlock_widens h
  have hn₂ := hn₁.trans (newBlock_widens hn₁.inRange)
  have hn₃ := hn₂.trans (newBlock_widens hn₂.inRange)
  have hw₁ := startBlock_widens (hn₃.trans (hc hn₃.inRange h₁)) g.newBlock.1
  have hw₂ := hw₁.trans (ht hw₁.inRange h₂)
  have hw₃ := startBlock_widens (hw₂.trans (termJmp?_widens hw₂.inRange h₃))
    g.newBlock.2.newBlock.2.newBlock.1
  have hw₄ := hw₃.trans (he hw₃.inRange h₄)
  exact startBlock_widens (hw₄.trans (termJmp?_widens hw₄.inRange h₅)) _

theorem genWhile?_keeps (hc : KeepsCond cond) (hb : KeepsIn body) :
    KeepsIn (genWhile? cond body) := by
  intro g g' h heq
  obtain ⟨g₁, h₁, heq⟩ := Option.bind_eq_some_iff.mp heq
  obtain ⟨g₂, h₂, heq⟩ := Option.bind_eq_some_iff.mp heq
  obtain ⟨g₃, h₃, heq⟩ := Option.bind_eq_some_iff.mp heq
  obtain ⟨g₄, h₄, heq⟩ := Option.bind_eq_some_iff.mp heq
  cases heq
  have hn₁ := newBlock_widens h
  have hn₂ := hn₁.trans (newBlock_widens hn₁.inRange)
  have hn₃ := hn₂.trans (newBlock_widens hn₂.inRange)
  have hw₁ := hn₃.trans (termJmp?_widens hn₃.inRange h₁)
  have hin : Widens g ((g₁.pushLoop ⟨g.newBlock.2.newBlock.1,
      g.newBlock.2.newBlock.2.newBlock.1⟩).startBlock g.newBlock.1) :=
    ⟨hw₁.inRange.widen rfl rfl (Nat.le_refl _), hw₁.nextVreg_le⟩
  have hw₂ := hin.trans (hb hin.inRange h₂)
  have hw₃ := hw₂.trans (termJmp?_widens hw₂.inRange h₃)
  have hout : Widens g (g₃.popLoop.startBlock g.newBlock.2.newBlock.1) :=
    ⟨hw₃.inRange.widen rfl rfl (Nat.le_refl _), hw₃.nextVreg_le⟩
  exact startBlock_widens (hout.trans (hc hout.inRange h₄)) _

end Jumps

theorem exitLoop?_keeps (target : Loop → Nat) : KeepsIn fun g => g.exitLoop? target := by
  intro g g' h heq
  obtain ⟨loop, -, heq⟩ := Option.bind_eq_some_iff.mp heq
  exact termJmp?_widens h heq

mutual
/-- **Lowering a statement** names what was given out. -/
theorem genStmt?_keeps (S : Sema) (s : AStmt) : KeepsIn (genStmt? true S s) := by
  intro g g' h heq
  match s with
  | .block ss => exact genStmts?_keeps S ss h heq
  | .empty =>
    cases heq
    exact .refl h
  | .exprStmt e =>
    obtain ⟨r, hr, heq⟩ := Option.bind_eq_some_iff.mp heq
    cases heq
    cases he : e.isName with
    | true =>
      rw [he] at hr
      exact genExpr?_name_widens S he h hr
    | false =>
      rw [he] at hr
      exact (genExpr?_keeps S e h hr).1
  | .varDecl isConst _ init sym =>
    cases isConst with
    | true =>
      cases heq
      exact .refl h
    | false => exact genVarDecl?_keeps S init sym h heq
  | .assign _ sym value => exact genAssign?_keeps S sym value h heq
  | .ifStmt cond then_ none =>
    simp only [genStmt?] at heq
    split at heq
    · split at heq
      · exact genStmt?_keeps S then_ h heq
      · cases heq
        exact .refl h
    · exact genIf?_keeps (genCond?_keeps S cond) (genStmt?_keeps S then_) h heq
  | .ifStmt cond then_ (some else_) =>
    simp only [genStmt?] at heq
    split at heq
    · split at heq
      · exact genStmt?_keeps S then_ h heq
      · exact genStmt?_keeps S else_ h heq
    · exact genIfElse?_keeps (genCond?_keeps S cond) (genStmt?_keeps S then_)
        (genStmt?_keeps S else_) h heq
  | .whileStmt cond body =>
    exact genWhile?_keeps (genCond?_keeps S cond) (genStmt?_keeps S body) h heq
  | .breakStmt => exact exitLoop?_keeps _ h heq
  | .continueStmt => exact exitLoop?_keeps _ h heq
  | .returnStmt (some value) =>
    obtain ⟨r, hr, heq⟩ := Option.bind_eq_some_iff.mp heq
    obtain ⟨hw, ha⟩ := genExpr?_keeps S value h hr
    exact hw.trans (termRet?_widens hw.inRange ha heq)
  | .returnStmt none => exact termRet?_widens (c := .imm 0) h trivial heq
/-- The same for the statements of a block. -/
theorem genStmts?_keeps (S : Sema) (ss : List AStmt) : KeepsIn (genStmts? true S ss) := by
  intro g g' h heq
  match ss with
  | [] =>
    cases heq
    exact .refl h
  | s :: ss =>
    obtain ⟨g₁, h₁, heq⟩ := Option.bind_eq_some_iff.mp heq
    have hw := genStmt?_keeps S s h h₁
    exact hw.trans (genStmts?_keeps S ss hw.inRange heq)
end

/-! ## Functions -/

theorem genParams_widens (ps : List (String × SymId)) {g : IRGen} (h : g.InRange) :
    Widens g (genParams ps g).2 ∧ ∀ r ∈ (genParams ps g).1, r < (genParams ps g).2.nextVreg := by
  induction ps generalizing g with
  | nil => exact ⟨.refl h, fun r hr => absurd hr List.not_mem_nil⟩
  | cons p ps ih =>
    have hbind := bindVreg_widens h p.2
    obtain ⟨hw, hps⟩ := ih hbind.inRange
    refine ⟨hbind.trans hw, fun r hr => ?_⟩
    rcases List.mem_cons.mp hr with rfl | hr
    · exact hw.nextVreg_le
    · exact hps r hr

/-- **The registers of a generated function are in range**, where its successors are blocks. -/
theorem genFunc?_inRange {S : Sema} {fn : AFuncDef} {F : IRFunc} (h : genFunc? true S fn = some F)
    (hsuccs : ∀ bb ∈ F.blocks, ∀ s ∈ succsOf bb, s < F.blocks.length) : F.InRange := by
  obtain ⟨g, hg, h⟩ := Option.bind_eq_some_iff.mp h
  obtain rfl := Option.some.inj h
  have hinit : ({ curReturnsVoid := fn.returnsVoid } : IRGen).InRange :=
    ⟨fun _ _ h => (by cases h), fun _ h => (by cases h), fun _ h => (by cases h)⟩
  obtain ⟨hw, hparams⟩ := genParams_widens fn.params hinit
  have hbody : Widens (genParams fn.params { curReturnsVoid := fn.returnsVoid }).2 g := by
    obtain ⟨g₁, h₁, hg⟩ := Option.bind_eq_some_iff.mp hg
    have hn := startBlock_widens (newBlock_widens hw.inRange)
      (genParams fn.params { curReturnsVoid := fn.returnsVoid }).2.newBlock.1
    have hs := hn.trans (genStmt?_keeps S fn.body hn.inRange h₁)
    split at hg
    · cases hg
      exact hs
    · split at hg <;> exact hs.trans (termRet?_widens (c := .imm 0) hs.inRange trivial hg)
  refine ⟨fun r hr => Nat.lt_of_lt_of_le (hparams r hr) hbody.nextVreg_le, fun bb hbb inst hi => ?_,
    fun bb hbb r hr => ?_, hsuccs⟩
  · obtain ⟨b, hb, rfl⟩ := List.mem_mapIdx.mp hbb
    exact hbody.inRange.insts g.blocks[b] (List.getElem_mem hb) inst hi
  · obtain ⟨b, hb, rfl⟩ := List.mem_mapIdx.mp hbb
    exact hbody.inRange.terms g.blocks[b] (List.getElem_mem hb) r hr

end IRGen

end ToyC
