import ToyC.IRGenShape
import ToyC.ReadFirst

/-!
# When the generator finds its vregs

The generator asks for the vreg of a variable wherever the variable is named. With that check it
passes exactly on the trees whose names are bound in the order of the lowering
(`generate?_iff`): the check changes nothing else, and nothing but a declaration gives a
variable its vreg.
-/

namespace ToyC

namespace IRGen

/-- The variables that have a vreg. -/
def keys (g : IRGen) : List SymId := g.irId.map (·.1)

theorem mem_keys {g : IRGen} {sym : SymId} : sym ∈ g.keys ↔ ∃ r, g.irId.lookup sym = some r := by
  unfold keys
  induction g.irId with
  | nil => simp
  | cons p l ih =>
    rw [List.map_cons, List.mem_cons, ih, List.lookup_cons]
    cases h : sym == p.1 with
    | true => simp [eq_of_beq h]
    | false =>
      have hne : sym ≠ p.1 := by simpa using h
      simp [hne]

theorem keys_congr {g g' : IRGen} (h : g'.irId = g.irId) : g'.keys = g.keys :=
  congrArg (·.map (·.1)) h

@[simp] theorem ensureOpen_irId (g : IRGen) : g.ensureOpen.irId = g.irId := by
  unfold ensureOpen
  split <;> rfl

@[simp] theorem emit_irId (g : IRGen) (inst : Inst) : (g.emit inst).irId = g.irId :=
  ensureOpen_irId g

@[simp] theorem close_irId (g : IRGen) (f : BasicBlock → BasicBlock) :
    (g.close f).irId = g.irId :=
  ensureOpen_irId g

theorem irId_of_emit? {g g' : IRGen} {i : Inst} (h : g.emit? i = some g') :
    g'.irId = g.irId := by
  unfold emit? at h
  split at h
  · cases h
    exact emit_irId g i
  · cases h

theorem irId_of_close? {g g' : IRGen} {f : BasicBlock → BasicBlock} (h : g.close? f = some g') :
    g'.irId = g.irId := by
  unfold close? at h
  split at h
  · cases h
    exact close_irId g f
  · cases h

/-! ## Lowering with and without the check -/

/-- **The check for vregs** passes where the names are bound, and lowering gives no variable a
vreg. -/
structure Checks {α : Type} (c : List SymId → Bool) (gen₁ gen₀ : IRGen → Option (α × IRGen)) :
    Prop where
  passes : ∀ g, c g.keys = true → gen₁ g = gen₀ g
  fails : ∀ g, c g.keys = false → gen₁ g = none
  irId : ∀ g r, gen₀ g = some r → r.2.irId = g.irId

/-- The same for a condition. -/
structure ChecksCond (c : List SymId → Bool) (cond₁ cond₀ : Nat → Nat → IRGen → Option IRGen) :
    Prop where
  passes : ∀ t f g, c g.keys = true → cond₁ t f g = cond₀ t f g
  fails : ∀ t f g, c g.keys = false → cond₁ t f g = none
  irId : ∀ t f g g', cond₀ t f g = some g' → g'.irId = g.irId

/-- The same for a statement, which may give variables their vregs. -/
structure ChecksIn (c : List SymId → Option (List SymId)) (stmt₁ stmt₀ : IRGen → Option IRGen) :
    Prop where
  passes : ∀ g B, c g.keys = some B → stmt₁ g = stmt₀ g
  fails : ∀ g, c g.keys = none → stmt₁ g = none
  keys : ∀ g B g', c g.keys = some B → stmt₀ g = some g' → g'.keys = B

section Values

variable {α : Type} {c cl cr : List SymId → Bool}

/-- What asks for nothing. -/
theorem Checks.of_eq {gen : IRGen → Option (α × IRGen)}
    (h : ∀ g r, gen g = some r → r.2.irId = g.irId) : Checks (fun _ => true) gen gen :=
  ⟨fun _ _ => rfl, fun _ hc => (by cases hc), h⟩

theorem Checks.congr {c' : List SymId → Bool} {gen₁ gen₀ : IRGen → Option (α × IRGen)}
    (h : Checks c gen₁ gen₀) (hc : ∀ B, c' B = c B) : Checks c' gen₁ gen₀ := by
  rwa [show c' = c from funext hc]

/-- What comes first decides, and what comes next finds the same vregs. -/
theorem Checks.bind {β : Type} {gen₁ gen₀ : IRGen → Option (α × IRGen)}
    {next₁ next₀ : α → IRGen → Option (β × IRGen)} (h : Checks cl gen₁ gen₀)
    (hnext : ∀ a, Checks cr (next₁ a) (next₀ a)) :
    Checks (fun B => cl B && cr B) (fun g => gen₁ g >>= fun r => next₁ r.1 r.2)
      fun g => gen₀ g >>= fun r => next₀ r.1 r.2 where
  passes g hc := by
    obtain ⟨hl, hr⟩ := Bool.and_eq_true_iff.mp hc
    rw [h.passes g hl]
    cases hg : gen₀ g with
    | none => rfl
    | some r =>
      refine (hnext r.1).passes r.2 ?_
      rw [keys_congr (h.irId g r hg), hr]
  fails g hc := by
    rcases Bool.and_eq_false_iff.mp hc with hl | hr
    · rw [h.fails g hl]
      rfl
    · cases hl : cl g.keys with
      | false =>
        rw [h.fails g hl]
        rfl
      | true =>
        rw [h.passes g hl]
        cases hg : gen₀ g with
        | none => rfl
        | some r =>
          refine (hnext r.1).fails r.2 ?_
          rw [keys_congr (h.irId g r hg), hr]
  irId g r' hr' := by
    obtain ⟨r, hr, hr'⟩ := Option.bind_eq_some_iff.mp hr'
    exact ((hnext r.1).irId r.2 r' hr').trans (h.irId g r hr)

/-- What is made of the value. -/
theorem Checks.map {β : Type} {gen₁ gen₀ : IRGen → Option (α × IRGen)} (h : Checks c gen₁ gen₀)
    (f : α → β) :
    Checks c (fun g => gen₁ g >>= fun r => some (f r.1, r.2))
      fun g => gen₀ g >>= fun r => some (f r.1, r.2) := by
  have hf : ∀ a, Checks (fun _ => true) (fun g : IRGen => some (f a, g)) fun g => some (f a, g) :=
    fun a => Checks.of_eq fun g r hr => by cases hr; rfl
  exact (h.bind hf).congr fun B => (Bool.and_true _).symm

theorem ChecksCond.congr {c' : List SymId → Bool} {cond₁ cond₀ : Nat → Nat → IRGen → Option IRGen}
    (h : ChecksCond c cond₁ cond₀) (hc : ∀ B, c' B = c B) : ChecksCond c' cond₁ cond₀ := by
  rwa [show c' = c from funext hc]

/-- An instruction behind it. -/
theorem Checks.emit {β : Type} {gen₁ gen₀ : IRGen → Option (α × IRGen)} (h : Checks c gen₁ gen₀)
    (pre : IRGen → IRGen) (hpre : ∀ g, (pre g).irId = g.irId) (inst : α → IRGen → Inst)
    (val : α → IRGen → β) :
    Checks c
      (fun g => gen₁ g >>= fun r => (pre r.2).emit? (inst r.1 r.2) >>= fun g' =>
        some (val r.1 r.2, g'))
      fun g => gen₀ g >>= fun r => (pre r.2).emit? (inst r.1 r.2) >>= fun g' =>
        some (val r.1 r.2, g') := by
  have hemit : ∀ a, Checks (fun _ => true)
      (fun g => (pre g).emit? (inst a g) >>= fun g' => some (val a g, g'))
      fun g => (pre g).emit? (inst a g) >>= fun g' => some (val a g, g') := by
    refine fun a => Checks.of_eq fun g r hr => ?_
    obtain ⟨g', hg', hr⟩ := Option.bind_eq_some_iff.mp hr
    cases hr
    have hirId := irId_of_emit? hg'
    rwa [hpre] at hirId
  exact (h.bind hemit).congr fun B => (Bool.and_true _).symm

/-- A condition, and what is lowered behind it in the same state. -/
theorem ChecksCond.bind {cond₁ cond₀ : Nat → Nat → IRGen → Option IRGen}
    {next₁ next₀ : IRGen → Option IRGen} (h : ChecksCond cl cond₁ cond₀)
    (hpasses : ∀ g, cr g.keys = true → next₁ g = next₀ g)
    (hfails : ∀ g, cr g.keys = false → next₁ g = none)
    (t f : Nat) (g : IRGen) :
    ((cl g.keys && cr g.keys) = true → (cond₁ t f g >>= next₁) = (cond₀ t f g >>= next₀)) ∧
      ((cl g.keys && cr g.keys) = false → (cond₁ t f g >>= next₁) = none) := by
  have hkeys : ∀ g', cond₀ t f g = some g' → g'.keys = g.keys := fun g' hg' =>
    keys_congr (h.irId t f g g' hg')
  constructor
  · intro hc
    obtain ⟨hl, hr⟩ := Bool.and_eq_true_iff.mp hc
    rw [h.passes t f g hl]
    cases hg : cond₀ t f g with
    | none => rfl
    | some g' => exact hpasses g' (by rw [hkeys g' hg, hr])
  · intro hc
    cases hl : cl g.keys with
    | false =>
      rw [h.fails t f g hl]
      rfl
    | true =>
      rw [hl, Bool.true_and] at hc
      rw [h.passes t f g hl]
      cases hg : cond₀ t f g with
      | none => rfl
      | some g' => exact hfails g' (by rw [hkeys g' hg, hc])

end Values

/-! ## The ways of emitting a node -/

/-- Naming a variable that lives in a vreg. -/
theorem vregOf?_checks (sym : SymId) :
    Checks (fun B => decide (sym ∈ B)) (fun g => g.vregOf? true sym >>= fun r => some (r, g))
      fun g => g.vregOf? false sym >>= fun r => some (r, g) where
  passes g hc := by
    obtain ⟨r, hr⟩ := mem_keys.mp (of_decide_eq_true hc)
    rw [vregOf?, vregOf?, if_pos rfl, if_neg Bool.false_ne_true, vregOf, hr]
    rfl
  fails g hc := by
    rw [vregOf?, if_pos rfl]
    cases hl : g.irId.lookup sym with
    | none => rfl
    | some r => exact absurd (mem_keys.mpr ⟨r, hl⟩) (of_decide_eq_false hc)
  irId g r hr := by
    cases hr
    rfl

theorem genVar?_checks (S : Sema) (sym : SymId) :
    Checks (fun B => !isLocal S sym || decide (sym ∈ B)) (genVar? true S sym)
      (genVar? false S sym) := by
  by_cases hk : (S.symbol sym).kind = .GlobalVar
  · have heq : ∀ vregs, genVar? vregs S sym = fun g => g.newVreg.2.emit?
        { op := .LoadGlobal, dst := some g.nextVreg, gid := (S.symbol sym).globalId.getD 0 } >>=
          fun g' => some (.reg g.nextVreg, g') := by
      intro vregs
      funext g
      unfold genVar?
      rw [if_pos hk]
      rfl
    rw [heq, heq]
    refine (Checks.of_eq fun g r hr => ?_).congr fun B => by simp [isLocal, hk]
    obtain ⟨g', hg', hr⟩ := Option.bind_eq_some_iff.mp hr
    cases hr
    exact irId_of_emit? (g := g.newVreg.2) hg'
  · have heq : ∀ vregs, genVar? vregs S sym = fun g =>
        (g.vregOf? vregs sym >>= fun r => some (r, g)) >>= fun r => some (.reg r.1, r.2) := by
      intro vregs
      funext g
      unfold genVar?
      rw [if_neg hk]
      cases g.vregOf? vregs sym <;> rfl
    rw [heq, heq]
    exact ((vregOf?_checks sym).map Val.reg).congr fun B => by simp [isLocal, hk]

section Nodes

variable {c cl cr : List SymId → Bool}

theorem genBinary?_checks (op : BinOp) {lhs₁ lhs₀ rhs₁ rhs₀ : IRGen → Option (Val × IRGen)}
    (hl : Checks cl lhs₁ lhs₀) (hr : Checks cr rhs₁ rhs₀) :
    Checks (fun B => cl B && cr B) (genBinary? op lhs₁ rhs₁) (genBinary? op lhs₀ rhs₀) :=
  hl.bind fun la => hr.emit (fun g => g.newVreg.2) (fun _ => rfl)
    (fun lb g => { op := mapBin op, dst := some g.nextVreg, a := la, b := lb })
    fun _ g => Val.reg g.nextVreg

theorem genUnary?_checks (op : UnOp) {operand₁ operand₀ : IRGen → Option (Val × IRGen)}
    (h : Checks c operand₁ operand₀) :
    Checks c (genUnary? op operand₁) (genUnary? op operand₀) := by
  have hemit := fun op' : Op => h.emit (fun g => g.newVreg.2) (fun _ => rfl)
    (fun a g => { op := op', dst := some g.nextVreg, a }) fun _ g => Val.reg g.nextVreg
  cases op with
  | Plus => exact h
  | Neg => exact hemit .Neg
  | Not => exact hemit .Not

theorem genCall?_eq (target : FuncRef) (args : IRGen → Option (List Val × IRGen)) :
    genCall? target args = fun g => args g >>= fun r =>
      if target.returnsVoid then
        r.2.emit? { op := .Call, callee := target.name, args := r.1 } >>= fun g' =>
          some (.imm 0, g')
      else
        r.2.newVreg.2.emit?
          { op := .Call, dst := some r.2.nextVreg, callee := target.name, args := r.1 } >>=
            fun g' => some (.reg r.2.nextVreg, g') := rfl

theorem genCall?_checks (target : FuncRef) {args₁ args₀ : IRGen → Option (List Val × IRGen)}
    (h : Checks c args₁ args₀) : Checks c (genCall? target args₁) (genCall? target args₀) := by
  rw [genCall?_eq, genCall?_eq]
  cases target.returnsVoid with
  | true =>
    exact h.emit (fun g => g) (fun _ => rfl)
      (fun vs _ => { op := .Call, callee := target.name, args := vs }) fun _ _ => Val.imm 0
  | false =>
    exact h.emit (fun g => g.newVreg.2) (fun _ => rfl)
      (fun vs g => { op := .Call, dst := some g.nextVreg, callee := target.name, args := vs })
      fun _ g => Val.reg g.nextVreg

theorem genBranch?_checks {value₁ value₀ : IRGen → Option (Val × IRGen)}
    (h : Checks c value₁ value₀) : ChecksCond c (genBranch? value₁) (genBranch? value₀) where
  passes t f g hc := by
    unfold genBranch?
    rw [h.passes g hc]
  fails t f g hc := by
    unfold genBranch?
    rw [h.fails g hc]
    rfl
  irId t f g g' hg' := by
    obtain ⟨r, hr, hg'⟩ := Option.bind_eq_some_iff.mp hg'
    exact (irId_of_close? hg').trans (h.irId g r hr)

theorem genConstCond?_checks (v : Word) :
    ChecksCond (fun _ => true) (genConstCond? v) (genConstCond? v) :=
  ⟨fun _ _ _ _ => rfl, fun _ _ _ hc => (by cases hc), fun _ _ _ _ h => irId_of_close? h⟩

theorem genLogicalCond?_eq (isOr : Bool) (lhs rhs : Nat → Nat → IRGen → Option IRGen) (t f : Nat)
    (g : IRGen) : genLogicalCond? isOr lhs rhs t f g =
      lhs (if isOr then t else g.newBlock.1) (if isOr then g.newBlock.1 else f) g.newBlock.2 >>=
        fun g' => rhs t f (g'.startBlock g.newBlock.1) := by
  cases isOr <;> rfl

theorem genLogicalCond?_checks (isOr : Bool)
    {lhs₁ lhs₀ rhs₁ rhs₀ : Nat → Nat → IRGen → Option IRGen} (hl : ChecksCond cl lhs₁ lhs₀)
    (hr : ChecksCond cr rhs₁ rhs₀) :
    ChecksCond (fun B => cl B && cr B) (genLogicalCond? isOr lhs₁ rhs₁)
      (genLogicalCond? isOr lhs₀ rhs₀) := by
  refine ⟨fun t f g hc => ?_, fun t f g hc => ?_, fun t f g g' hg' => ?_⟩
  · rw [genLogicalCond?_eq, genLogicalCond?_eq]
    exact (hl.bind (fun g' => hr.passes t f (g'.startBlock g.newBlock.1))
      (fun g' => hr.fails t f (g'.startBlock g.newBlock.1)) _ _ g.newBlock.2).1 hc
  · rw [genLogicalCond?_eq]
    have hpasses : ∀ g' : IRGen, cr g'.keys = true → rhs₁ t f (g'.startBlock g.newBlock.1) =
        rhs₀ t f (g'.startBlock g.newBlock.1) :=
      fun g' => hr.passes t f (g'.startBlock g.newBlock.1)
    exact (hl.bind hpasses (fun g' => hr.fails t f (g'.startBlock g.newBlock.1)) _ _
      g.newBlock.2).2 hc
  · rw [genLogicalCond?_eq] at hg'
    obtain ⟨g₁, hg₁, hg'⟩ := Option.bind_eq_some_iff.mp hg'
    have h₁ : g₁.irId = g.irId := hl.irId _ _ g.newBlock.2 g₁ hg₁
    exact (hr.irId t f _ g' hg').trans h₁

theorem irId_of_genTruth? {res t f e : Nat} {g g' : IRGen} (h : genTruth? res t f e g = some g') :
    g'.irId = g.irId := by
  unfold genTruth? at h
  simp only [Option.bind_eq_bind, Option.bind_eq_some_iff, Option.some.injEq] at h
  obtain ⟨g₁, h₁, g₂, h₂, g₃, h₃, g₄, h₄, rfl⟩ := h
  have h₁ : g₁.irId = g.irId := irId_of_emit? (g := g.startBlock t) h₁
  have h₃ : g₃.irId = g₂.irId := irId_of_emit? (g := g₂.startBlock f) h₃
  calc g₄.irId = g₃.irId := irId_of_close? h₄
    _ = g₂.irId := h₃
    _ = g₁.irId := irId_of_close? h₂
    _ = g.irId := h₁

theorem genLogical?_checks {cond₁ cond₀ : Nat → Nat → IRGen → Option IRGen}
    (h : ChecksCond c cond₁ cond₀) : Checks c (genLogical? cond₁) (genLogical? cond₀) where
  passes g hc := by
    have hpasses := fun t f => h.passes t f g.newVreg.2.newBlock.2.newBlock.2.newBlock.2 hc
    unfold genLogical?
    dsimp only
    rw [hpasses]
  fails g hc := by
    have hfails := fun t f => h.fails t f g.newVreg.2.newBlock.2.newBlock.2.newBlock.2 hc
    unfold genLogical?
    dsimp only
    rw [hfails]
    rfl
  irId g r hr := by
    obtain ⟨g₁, hg₁, hr⟩ := Option.bind_eq_some_iff.mp hr
    obtain ⟨g₂, hg₂, hr⟩ := Option.bind_eq_some_iff.mp hr
    cases hr
    have h₁ : g₁.irId = g.irId :=
      h.irId _ _ g.newVreg.2.newBlock.2.newBlock.2.newBlock.2 g₁ hg₁
    exact (irId_of_genTruth? hg₂).trans h₁

/-- A folded node asks for nothing. -/
theorem Checks.fold {gen₁ gen₀ : IRGen → Option (Val × IRGen)} (isConst : Bool) (v : Val)
    (h : isConst = false → Checks c gen₁ gen₀) :
    Checks (fun B => isConst || c B) (fun g => if isConst then some (v, g) else gen₁ g)
      fun g => if isConst then some (v, g) else gen₀ g := by
  cases isConst with
  | true => exact Checks.of_eq fun g r hr => by cases hr; rfl
  | false => exact h rfl

/-- Nor does a folded condition. -/
theorem ChecksCond.fold {cond₁ cond₀ : Nat → Nat → IRGen → Option IRGen} (isConst : Bool) (v : Word)
    (h : isConst = false → ChecksCond c cond₁ cond₀) :
    ChecksCond (fun B => isConst || c B)
      (fun t f g => if isConst then genConstCond? v t f g else cond₁ t f g)
      fun t f g => if isConst then genConstCond? v t f g else cond₀ t f g := by
  cases isConst with
  | true => exact genConstCond?_checks v
  | false => exact h rfl

/-- Where the targets change places. -/
theorem ChecksCond.swap {cond₁ cond₀ : Nat → Nat → IRGen → Option IRGen}
    (h : ChecksCond c cond₁ cond₀) :
    ChecksCond c (fun t f g => cond₁ f t g) fun t f g => cond₀ f t g :=
  ⟨fun t f => h.passes f t, fun t f => h.fails f t, fun t f => h.irId f t⟩

end Nodes

/-! ## Expressions and conditions -/

mutual
/-- **The generator finds the vregs an expression names** when they are bound. -/
theorem genExpr?_checks (S : Sema) (e : AExpr) :
    Checks (fun B => e.bound S B) (genExpr? true S e) (genExpr? false S e) := by
  match e with
  | .number note _ =>
    refine Checks.of_eq fun g r hr => ?_
    simp only [genExpr?, Option.some.injEq] at hr
    subst hr
    split <;> rfl
  | .var note _ sym =>
    refine (Checks.fold note.isConst (.imm note.constValue) fun _ => genVar?_checks S sym).congr ?_
    exact fun B => Bool.or_assoc ..
  | .binary note op lhs rhs =>
    exact Checks.fold note.isConst _ fun _ =>
      genBinary?_checks op (genExpr?_checks S lhs) (genExpr?_checks S rhs)
  | .logical note isOr lhs rhs =>
    exact Checks.fold note.isConst _ fun _ =>
      genLogical?_checks (genLogicalCond?_checks isOr (genCond?_checks S lhs)
        (genCond?_checks S rhs))
  | .unary note op operand =>
    exact Checks.fold note.isConst _ fun _ => genUnary?_checks op (genExpr?_checks S operand)
  | .call note _ args target =>
    exact Checks.fold note.isConst _ fun _ => genCall?_checks target (genArgs?_checks S args)
/-- So it does those of the arguments of a call. -/
theorem genArgs?_checks (S : Sema) (es : List AExpr) :
    Checks (fun B => AExpr.boundAll S B es) (genArgs? true S es) (genArgs? false S es) := by
  match es with
  | [] => exact Checks.of_eq fun g r hr => by cases hr; rfl
  | e :: es =>
    have hes : ∀ v, Checks (fun B => AExpr.boundAll S B es)
        (fun g => genArgs? true S es g >>= fun r => some (v :: r.1, r.2))
        fun g => genArgs? false S es g >>= fun r => some (v :: r.1, r.2) :=
      fun v => (genArgs?_checks S es).map (v :: ·)
    exact (genExpr?_checks S e).bind hes
/-- So it does those of a condition. -/
theorem genCond?_checks (S : Sema) (e : AExpr) :
    ChecksCond (fun B => e.bound S B) (genCond? true S e) (genCond? false S e) := by
  match e with
  | .number note _ =>
    have hzero : Checks (fun _ => true) (fun g : IRGen => some (Val.imm 0, g))
        fun g => some (Val.imm 0, g) := Checks.of_eq fun g r hr => by cases hr; rfl
    exact (ChecksCond.fold note.isConst _ fun _ => genBranch?_checks hzero).congr
      fun B => (Bool.or_true _).symm
  | .var note _ sym =>
    exact (ChecksCond.fold note.isConst _ fun _ => genBranch?_checks (genVar?_checks S sym)).congr
      fun B => Bool.or_assoc ..
  | .binary note op lhs rhs =>
    exact ChecksCond.fold note.isConst _ fun _ => genBranch?_checks
      (genBinary?_checks op (genExpr?_checks S lhs) (genExpr?_checks S rhs))
  | .logical note isOr lhs rhs =>
    exact ChecksCond.fold note.isConst _ fun _ =>
      genLogicalCond?_checks isOr (genCond?_checks S lhs) (genCond?_checks S rhs)
  | .unary note op operand =>
    cases op with
    | Not => exact ChecksCond.fold note.isConst _ fun _ => (genCond?_checks S operand).swap
    | Plus | Neg =>
      exact ChecksCond.fold note.isConst _ fun _ =>
        genBranch?_checks (genUnary?_checks _ (genExpr?_checks S operand))
  | .call note _ args target =>
    exact ChecksCond.fold note.isConst _ fun _ =>
      genBranch?_checks (genCall?_checks target (genArgs?_checks S args))
end

/-! ## Statements -/

section Statements

variable {c c₁ c₂ : List SymId → Option (List SymId)}

/-- What asks for nothing, and gives no variable a vreg. -/
theorem ChecksIn.of_irId {stmt : IRGen → Option IRGen}
    (h : ∀ g g', stmt g = some g' → g'.irId = g.irId) : ChecksIn some stmt stmt where
  passes _ _ _ := rfl
  fails _ hc := by cases hc
  keys g B g' hc hg' := by
    rw [keys_congr (h g g' hg')]
    exact Option.some.inj hc

theorem ChecksIn.congr {c' : List SymId → Option (List SymId)} {stmt₁ stmt₀ : IRGen → Option IRGen}
    (h : ChecksIn c stmt₁ stmt₀) (hc : ∀ B, c' B = c B) : ChecksIn c' stmt₁ stmt₀ := by
  rwa [show c' = c from funext hc]

/-- One thing after the other. -/
theorem ChecksIn.bind {first₁ first₀ next₁ next₀ : IRGen → Option IRGen}
    (h₁ : ChecksIn c₁ first₁ first₀) (h₂ : ChecksIn c₂ next₁ next₀) :
    ChecksIn (fun B => c₁ B >>= c₂) (fun g => first₁ g >>= next₁) fun g => first₀ g >>= next₀ where
  passes g B' hc := by
    obtain ⟨B, hB, hB'⟩ := Option.bind_eq_some_iff.mp hc
    rw [h₁.passes g B hB]
    cases hg : first₀ g with
    | none => rfl
    | some g' => exact h₂.passes g' B' (by rw [h₁.keys g B g' hB hg, hB'])
  fails g hc := by
    cases hB : c₁ g.keys with
    | none =>
      rw [h₁.fails g hB]
      rfl
    | some B =>
      rw [hB] at hc
      rw [h₁.passes g B hB]
      cases hg : first₀ g with
      | none => rfl
      | some g' => exact h₂.fails g' (by rw [h₁.keys g B g' hB hg]; exact hc)
  keys g B' g'' hc hg'' := by
    obtain ⟨B, hB, hB'⟩ := Option.bind_eq_some_iff.mp hc
    obtain ⟨g', hg', hg''⟩ := Option.bind_eq_some_iff.mp hg''
    exact h₂.keys g' B' g'' (by rw [h₁.keys g B g' hB hg', hB']) hg''

/-- A value, and what is done with it. -/
theorem Checks.bindIn {α : Type} {d : List SymId → Bool} {gen₁ gen₀ : IRGen → Option (α × IRGen)}
    {next₁ next₀ : α → IRGen → Option IRGen} (h : Checks d gen₁ gen₀)
    (hnext : ∀ a, ChecksIn c (next₁ a) (next₀ a)) :
    ChecksIn (fun B => if d B then c B else none) (fun g => gen₁ g >>= fun r => next₁ r.1 r.2)
      fun g => gen₀ g >>= fun r => next₀ r.1 r.2 where
  passes g B hc := by
    obtain ⟨hd, hc⟩ := Option.ite_none_right_eq_some.mp hc
    rw [h.passes g hd]
    cases hg : gen₀ g with
    | none => rfl
    | some r => exact (hnext r.1).passes r.2 B (by rw [keys_congr (h.irId g r hg), hc])
  fails g hc := by
    cases hd : d g.keys with
    | false =>
      rw [h.fails g hd]
      rfl
    | true =>
      rw [if_pos hd] at hc
      rw [h.passes g hd]
      cases hg : gen₀ g with
      | none => rfl
      | some r => exact (hnext r.1).fails r.2 (by rw [keys_congr (h.irId g r hg), hc])
  keys g B g' hc hg' := by
    obtain ⟨hd, hc⟩ := Option.ite_none_right_eq_some.mp hc
    obtain ⟨r, hr, hg'⟩ := Option.bind_eq_some_iff.mp hg'
    exact (hnext r.1).keys r.2 B g' (by rw [keys_congr (h.irId g r hr), hc]) hg'

/-- The jumps of a condition. -/
theorem ChecksCond.jumps {d : List SymId → Bool} {cond₁ cond₀ : Nat → Nat → IRGen → Option IRGen}
    (h : ChecksCond d cond₁ cond₀) (t f : Nat) :
    ChecksIn (fun B => if d B then some B else none) (cond₁ t f) (cond₀ t f) where
  passes g B hc := h.passes t f g (Option.ite_none_right_eq_some.mp hc).1
  fails g hc := by
    refine h.fails t f g (Bool.eq_false_iff.mpr fun hd => ?_)
    rw [if_pos hd] at hc
    cases hc
  keys g B g' hc hg' := by
    obtain ⟨-, hB⟩ := Option.ite_none_right_eq_some.mp hc
    rw [keys_congr (h.irId t f g g' hg')]
    exact Option.some.inj hB

/-- A jump. -/
theorem termJmp?_checks (t : Nat) : ChecksIn some (fun g => g.termJmp? t) fun g => g.termJmp? t :=
  ChecksIn.of_irId fun _ _ h => irId_of_close? h

/-- Code in a block of its own. -/
theorem ChecksIn.startBlock {stmt₁ stmt₀ : IRGen → Option IRGen} (h : ChecksIn c stmt₁ stmt₀)
    (b : Nat) : ChecksIn c (fun g => stmt₁ (g.startBlock b)) fun g => stmt₀ (g.startBlock b) :=
  ⟨fun g => h.passes (g.startBlock b), fun g => h.fails (g.startBlock b),
    fun g => h.keys (g.startBlock b)⟩

/-- Inside a loop. -/
theorem ChecksIn.pushLoop {stmt₁ stmt₀ : IRGen → Option IRGen} (h : ChecksIn c stmt₁ stmt₀)
    (loop : Loop) :
    ChecksIn c (fun g => stmt₁ (g.pushLoop loop)) fun g => stmt₀ (g.pushLoop loop) :=
  ⟨fun g => h.passes (g.pushLoop loop), fun g => h.fails (g.pushLoop loop),
    fun g => h.keys (g.pushLoop loop)⟩

/-- Behind a loop. -/
theorem ChecksIn.popLoop {stmt₁ stmt₀ : IRGen → Option IRGen} (h : ChecksIn c stmt₁ stmt₀) :
    ChecksIn c (fun g => stmt₁ g.popLoop) fun g => stmt₀ g.popLoop :=
  ⟨fun g => h.passes g.popLoop, fun g => h.fails g.popLoop, fun g => h.keys g.popLoop⟩

/-- What comes next goes in a block of its own. -/
theorem startBlock_checks (b : Nat) :
    ChecksIn some (fun g => some (g.startBlock b)) fun g => some (g.startBlock b) :=
  ChecksIn.of_irId fun _ _ h => by cases h; rfl

theorem genAssign?_checks (S : Sema) (sym : SymId) (value : AExpr) :
    ChecksIn
      (fun B => if value.bound S B && (!isLocal S sym || decide (sym ∈ B)) then some B else none)
      (genAssign? true S sym value) (genAssign? false S sym value) := by
  have hstore : ∀ inst : Inst, ChecksIn some (fun g => g.emit? inst) fun g => g.emit? inst :=
    fun inst => ChecksIn.of_irId fun _ _ h => irId_of_emit? h
  by_cases hk : (S.symbol sym).kind = .GlobalVar
  · have heq : ∀ vregs, genAssign? vregs S sym value = fun g => genExpr? vregs S value g >>= fun r =>
        r.2.emit? { op := .StoreGlobal, gid := (S.symbol sym).globalId.getD 0, a := r.1 } := by
      intro vregs
      funext g
      unfold genAssign?
      simp only [hk, if_true]
    rw [heq, heq]
    exact ((genExpr?_checks S value).bindIn fun v => hstore
      { op := .StoreGlobal, gid := (S.symbol sym).globalId.getD 0, a := v }).congr
        fun B => by simp [isLocal, hk]
  · have heq : ∀ vregs, genAssign? vregs S sym value = fun g => genExpr? vregs S value g >>= fun r =>
        (r.2.vregOf? vregs sym >>= fun d => some (d, r.2)) >>= fun d =>
          d.2.emit? { op := .Mv, dst := some d.1, a := r.1 } := by
      intro vregs
      funext g
      unfold genAssign?
      simp only [hk, if_false]
      cases genExpr? vregs S value g with
      | none => rfl
      | some r =>
        simp only [Option.bind_eq_bind, Option.bind_some]
        cases r.2.vregOf? vregs sym <;> rfl
    rw [heq, heq]
    refine ((genExpr?_checks S value).bindIn fun v => (vregOf?_checks sym).bindIn fun d =>
      hstore { op := .Mv, dst := some d, a := v }).congr fun B => ?_
    simp [isLocal, hk, ite_and]

theorem genVarDecl?_checks (S : Sema) (init : AExpr) (sym : SymId) :
    ChecksIn (fun B => if init.bound S (sym :: B) then some (sym :: B) else none)
      (genVarDecl? true S init sym) (genVarDecl? false S init sym) := by
  have h := fun g : IRGen => (genExpr?_checks S init).bindIn fun v =>
    ChecksIn.of_irId fun _ _ h =>
      irId_of_emit? (i := { op := .Mv, dst := some g.nextVreg, a := v }) h
  let bind := fun g : IRGen => { g.newVreg.2 with irId := (sym, g.nextVreg) :: g.irId }
  exact ⟨fun g => (h g).passes (bind g), fun g => (h g).fails (bind g),
    fun g => (h g).keys (bind g)⟩

/-- In front of it some blocks are made. -/
theorem ChecksIn.blocks {ι : Type} {stmt₁ stmt₀ : ι → IRGen → Option IRGen} (i : IRGen → ι)
    (pre : IRGen → IRGen) (hpre : ∀ g, (pre g).irId = g.irId) (h : ∀ j, ChecksIn c (stmt₁ j) (stmt₀ j)) :
    ChecksIn c (fun g => stmt₁ (i g) (pre g)) fun g => stmt₀ (i g) (pre g) where
  passes g B hc := (h (i g)).passes (pre g) B (by rw [keys_congr (hpre g), hc])
  fails g hc := (h (i g)).fails (pre g) (by rw [keys_congr (hpre g), hc])
  keys g B g' hc := (h (i g)).keys (pre g) B g' (by rw [keys_congr (hpre g), hc])

/-- One of two, which the tree decides. -/
theorem ChecksIn.branch {d : List SymId → Option (List SymId)}
    {then₁ then₀ else₁ else₀ : IRGen → Option IRGen} (p : Prop) [Decidable p]
    (ht : ChecksIn c then₁ then₀) (he : ChecksIn d else₁ else₀) :
    ChecksIn (fun B => if p then c B else d B) (fun g => if p then then₁ g else else₁ g)
      fun g => if p then then₀ g else else₀ g := by
  by_cases hp : p
  · simpa only [hp, if_true] using ht
  · simpa only [hp, if_false] using he

section Jumps

variable {d : List SymId → Bool} {cond₁ cond₀ : Nat → Nat → IRGen → Option IRGen}
  {then₁ then₀ else₁ else₀ body₁ body₀ : IRGen → Option IRGen}

theorem genIf?_checks (hc : ChecksCond d cond₁ cond₀) (ht : ChecksIn c then₁ then₀) :
    ChecksIn (fun B => if d B then c B else none) (genIf? cond₁ then₁) (genIf? cond₀ then₀) := by
  have h := fun p : Nat × Nat => (hc.jumps p.1 p.2).bind
    ((ht.startBlock p.1).bind ((termJmp?_checks p.2).bind (startBlock_checks p.2)))
  refine (ChecksIn.blocks (fun g => (g.newBlock.1, g.newBlock.2.newBlock.1))
    (fun g => g.newBlock.2.newBlock.2) (fun _ => rfl) h).congr fun B => ?_
  cases d B <;> simp

theorem genIfElse?_checks {e : List SymId → Option (List SymId)} (hc : ChecksCond d cond₁ cond₀)
    (ht : ChecksIn c then₁ then₀) (he : ChecksIn e else₁ else₀) :
    ChecksIn (fun B => if d B then c B >>= e else none) (genIfElse? cond₁ then₁ else₁)
      (genIfElse? cond₀ then₀ else₀) := by
  have h := fun p : Nat × Nat × Nat => (hc.jumps p.1 p.2.2).bind
    ((ht.startBlock p.1).bind ((termJmp?_checks p.2.1).bind ((he.startBlock p.2.2).bind
      ((termJmp?_checks p.2.1).bind (startBlock_checks p.2.1)))))
  refine (ChecksIn.blocks (fun g => (g.newBlock.1, g.newBlock.2.newBlock.1,
    g.newBlock.2.newBlock.2.newBlock.1)) (fun g => g.newBlock.2.newBlock.2.newBlock.2)
    (fun _ => rfl) h).congr fun B => ?_
  cases d B <;> simp

theorem genWhile?_checks (hc : ChecksCond d cond₁ cond₀) (hb : ChecksIn c body₁ body₀) :
    ChecksIn (fun B => c B >>= fun B => if d B then some B else none) (genWhile? cond₁ body₁)
      (genWhile? cond₀ body₀) := by
  have h := fun p : Nat × Nat × Nat => (termJmp?_checks p.2.1).bind
    (((hb.startBlock p.1).pushLoop ⟨p.2.1, p.2.2⟩).bind ((termJmp?_checks p.2.1).bind
      ((((hc.jumps p.1 p.2.2).startBlock p.2.1).popLoop).bind (startBlock_checks p.2.2))))
  refine (ChecksIn.blocks (fun g => (g.newBlock.1, g.newBlock.2.newBlock.1,
    g.newBlock.2.newBlock.2.newBlock.1)) (fun g => g.newBlock.2.newBlock.2.newBlock.2)
    (fun _ => rfl) h).congr fun B => ?_
  simp

end Jumps

/-- There is a loop to leave, or not, whatever has a vreg. -/
theorem exitLoop?_checks (target : Loop → Nat) :
    ChecksIn some (fun g => g.exitLoop? target) fun g => g.exitLoop? target := by
  refine ChecksIn.of_irId fun g g' h => ?_
  obtain ⟨loop, -, h⟩ := Option.bind_eq_some_iff.mp h
  exact irId_of_close? h

end Statements

mutual
/-- **The generator finds the vregs a statement names** when they are bound. -/
theorem genStmt?_checks (S : Sema) (s : AStmt) :
    ChecksIn (fun B => s.bound S B) (genStmt? true S s) (genStmt? false S s) := by
  match s with
  | .block ss => exact genStmts?_checks S ss
  | .empty => exact ChecksIn.of_irId fun _ _ h => by cases h; rfl
  | .exprStmt e =>
    have hskip : ∀ v : Val, ChecksIn some (fun g : IRGen => some g) fun g => some g :=
      fun _ => ChecksIn.of_irId fun _ _ h => by cases h; rfl
    have h : ∀ vregs, genStmt? vregs S (.exprStmt e) = fun g =>
        genExpr? (vregs && !e.isName) S e g >>= fun r => some r.2 := by
      intro vregs
      funext g
      rw [genStmt?]
    rw [h, h]
    refine ChecksIn.congr (c := fun B => if e.isName || e.bound S B then some B else none) ?_
      fun B => AStmt.bound.eq_def ..
    cases hname : e.isName with
    | true =>
      exact (Checks.of_eq fun g r hr => (genExpr?_checks S e).irId g r hr).bindIn hskip
    | false => exact (genExpr?_checks S e).bindIn hskip
  | .varDecl isConst _ init sym =>
    cases isConst with
    | true => exact ChecksIn.of_irId fun _ _ h => by cases h; rfl
    | false => exact genVarDecl?_checks S init sym
  | .assign _ sym value => exact genAssign?_checks S sym value
  | .ifStmt cond then_ none =>
    have hskip : ChecksIn some (fun g : IRGen => some g) fun g => some g :=
      ChecksIn.of_irId fun _ _ h => by cases h; rfl
    exact (ChecksIn.branch cond.isConst ((genStmt?_checks S then_).branch _ hskip)
      (genIf?_checks (genCond?_checks S cond) (genStmt?_checks S then_)))
  | .ifStmt cond then_ (some else_) =>
    exact (ChecksIn.branch cond.isConst ((genStmt?_checks S then_).branch _
      (genStmt?_checks S else_)) (genIfElse?_checks (genCond?_checks S cond)
        (genStmt?_checks S then_) (genStmt?_checks S else_)))
  | .whileStmt cond body =>
    exact genWhile?_checks (genCond?_checks S cond) (genStmt?_checks S body)
  | .breakStmt => exact exitLoop?_checks _
  | .continueStmt => exact exitLoop?_checks _
  | .returnStmt (some value) =>
    have hret : ∀ v : Val, ChecksIn some (fun g => g.termRet? true v) fun g => g.termRet? true v :=
      fun _ => ChecksIn.of_irId fun _ _ h => irId_of_close? h
    exact (genExpr?_checks S value).bindIn hret
  | .returnStmt none => exact ChecksIn.of_irId fun _ _ h => irId_of_close? h
/-- So it does those of the statements of a block. -/
theorem genStmts?_checks (S : Sema) (ss : List AStmt) :
    ChecksIn (fun B => AStmt.boundAll S B ss) (genStmts? true S ss) (genStmts? false S ss) := by
  match ss with
  | [] => exact ChecksIn.of_irId fun _ _ h => by cases h; rfl
  | s :: ss => exact (genStmt?_checks S s).bind (genStmts?_checks S ss)
end

/-! ## Functions and modules -/

/-- The parameters have the first vregs. -/
theorem genParams_keys (ps : List (String × SymId)) (g : IRGen) :
    (genParams ps g).2.keys = (ps.map (·.2)).reverse ++ g.keys := by
  induction ps generalizing g with
  | nil => rfl
  | cons p ps ih =>
    have hcons : ({ g.newVreg.2 with irId := (p.2, g.nextVreg) :: g.irId } : IRGen).keys =
        p.2 :: g.keys := rfl
    have hps := ih { g.newVreg.2 with irId := (p.2, g.nextVreg) :: g.irId }
    rw [hcons] at hps
    rw [List.map_cons, List.reverse_cons, List.append_assoc, List.singleton_append]
    exact hps

theorem genBody?_checks (S : Sema) (fn : AFuncDef) :
    ChecksIn (fun B => fn.body.bound S B) (genBody? true S fn) (genBody? false S fn) := by
  let finish? : IRGen → Option IRGen := fun g =>
    if g.isSealed then some g
    else if g.curReturnsVoid then g.termRet? false (.imm 0)
    else g.termRet? true (.imm 0)
  have hfinish : ChecksIn some finish? finish? := by
    refine ChecksIn.of_irId fun g g' h => ?_
    simp only [finish?] at h
    split at h
    · cases h
      rfl
    · split at h <;> exact irId_of_close? h
  refine (ChecksIn.blocks (fun g => g.newBlock.1) (fun g => g.newBlock.2) (fun _ => rfl)
    fun b => ((genStmt?_checks S fn.body).startBlock b).bind hfinish).congr fun B => ?_
  exact (bind_pure _).symm

/-- **The generator finds the vregs a function names** when they are bound. -/
theorem genFunc?_eq (S : Sema) (fn : AFuncDef) :
    genFunc? true S fn =
      if (fn.body.bound S fn.paramSyms).isSome then genFunc? false S fn else none := by
  have hkeys : (genParams fn.params { curReturnsVoid := fn.returnsVoid }).2.keys = fn.paramSyms :=
    (genParams_keys _ _).trans (List.append_nil _)
  unfold genFunc?
  cases hB : fn.body.bound S fn.paramSyms with
  | none =>
    rw [← hkeys] at hB
    dsimp only
    rw [(genBody?_checks S fn).fails _ hB]
    rfl
  | some B =>
    rw [← hkeys] at hB
    dsimp only
    rw [(genBody?_checks S fn).passes _ B hB]
    rfl

theorem genFuncs?_iff (S : Sema) (items : List ATopLevel) (fs : List IRFunc) :
    genFuncs? true S items = some fs ↔
      (∀ fn, .func fn ∈ items → (fn.body.bound S fn.paramSyms).isSome) ∧
        genFuncs? false S items = some fs := by
  induction items generalizing fs with
  | nil => simp [genFuncs?]
  | cons item items ih =>
    cases item with
    | global g => simpa [genFuncs?] using ih fs
    | func fn =>
      simp only [genFuncs?, genFunc?_eq, Option.bind_eq_bind, List.mem_cons, ATopLevel.func.injEq,
        Option.bind_eq_some_iff, Option.ite_none_right_eq_some, ih]
      constructor
      · rintro ⟨f, ⟨hfn, hf⟩, fs', ⟨hall, hfs'⟩, hfs⟩
        refine ⟨fun fn' hfn' => ?_, f, hf, fs', hfs', hfs⟩
        rcases hfn' with rfl | hfn'
        · exact hfn
        · exact hall fn' hfn'
      · rintro ⟨hall, f, hf, fs', hfs', hfs⟩
        exact ⟨f, ⟨hall fn (.inl rfl), hf⟩, fs', ⟨fun fn' hfn' => hall fn' (.inr hfn'), hfs'⟩, hfs⟩

/-- **The generator finds the vregs a module names** if and only if they are bound where it does. -/
theorem generate?_iff {m : Module} {m' : AModule} {A : Sema} (h : Sema.analyze m = .ok (m', A))
    (M : IRModule) :
    generate? true A m' = some M ↔
      (∀ fn, .func fn ∈ m'.items → (fn.body.bound A fn.paramSyms).isSome) ∧ M = generate A m' := by
  obtain ⟨regs, S₀, S₁, hregs, -, -, hall, -, rfl⟩ := Sema.analyze_ok h
  obtain ⟨hfs, -⟩ := genFuncs_runs (A := S₁.popScope) (registerItems_loopDepth hregs) hall
  simp only [generate?, Option.bind_eq_bind, Option.bind_eq_some_iff, Option.some.injEq,
    genFuncs?_iff, hfs]
  constructor
  · rintro ⟨fs', ⟨hbound, rfl⟩, rfl⟩
    exact ⟨hbound, rfl⟩
  · rintro ⟨hbound, rfl⟩
    exact ⟨_, ⟨hbound, rfl⟩, rfl⟩

end IRGen

end ToyC
