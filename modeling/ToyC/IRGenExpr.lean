import ToyC.IRGenExec
import ToyC.SourceSemantics

/-!
# The lowering of expressions is correct

What executing the code of an expression does, given what executing the code of its
operands does. `Computes` says of a way of lowering an expression that its code
evaluates the expression: it ends where the next code is written, with the result
in the operand the lowering returned, and touches only vregs that were fresh.
`JumpsTo` says the same of the code of a condition, which ends at one of two blocks.
The lemmas follow the ways of emitting a node; none of them knows the trees.
-/

namespace ToyC

namespace IRGen

open Machine

/-- Registers agree below a bound. -/
def Agree (k : Nat) (R R' : Regs) : Prop := ∀ r < k, R' r = R r

theorem Agree.refl (k : Nat) (R : Regs) : Agree k R R := fun _ _ => rfl

theorem Agree.trans {k k' : Nat} {R₁ R₂ R₃ : Regs} (h₁ : Agree k R₁ R₂) (h₂ : Agree k' R₂ R₃)
    (hk : k ≤ k') : Agree k R₁ R₃ := fun r hr =>
  (h₂ r (Nat.lt_of_lt_of_le hr hk)).trans (h₁ r hr)

theorem Agree.set {k r : Nat} (R : Regs) (v : Word) (hr : k ≤ r) : Agree k R (R.set r v) :=
  fun _ hx => R.set_of_ne v (Nat.ne_of_lt (Nat.lt_of_lt_of_le hx hr))

/-- An operand that is not changed by code that writes fresh vregs only. -/
def Below (k : Nat) : Val → Prop
  | .imm _ => True
  | .reg r => r < k

theorem Below.eval {k : Nat} {v : Val} (hv : Below k v) {R R' : Regs} (h : Agree k R R') :
    v.eval R' = v.eval R := by
  cases v with
  | imm => rfl
  | reg r => exact h r hv

theorem Below.mono {k k' : Nat} {v : Val} (hv : Below k v) (hk : k ≤ k') : Below k' v := by
  cases v with
  | imm => trivial
  | reg r => exact Nat.lt_of_lt_of_le hv hk

section Specs

variable (F : IRFunc) (call : Callee) (n : Nat)

/-- **The code of an expression evaluates it.** -/
def Computes (gen : IRGen → Val × IRGen) (g : IRGen) (R : Regs) (G : Globals)
    (x : Outcome (Word × Globals)) : Prop :=
  Covers F (gen g).2 → Reaches (F.step call) n (g.here F R G) x fun a c =>
    ∃ R', c = (gen g).2.here F R' a.2 ∧ (gen g).2.isSealed = false ∧ Agree g.nextVreg R R' ∧
      Below (gen g).2.nextVreg (gen g).1 ∧ (gen g).1.eval R' = a.1

/-- The same for the arguments of a call. -/
def ComputesAll (gen : IRGen → List Val × IRGen) (g : IRGen) (R : Regs) (G : Globals)
    (x : Outcome (List Word × Globals)) : Prop :=
  Covers F (gen g).2 → Reaches (F.step call) n (g.here F R G) x fun a c =>
    ∃ R', c = (gen g).2.here F R' a.2 ∧ (gen g).2.isSealed = false ∧ Agree g.nextVreg R R' ∧
      (∀ v ∈ (gen g).1, Below (gen g).2.nextVreg v) ∧ (gen g).1.map (·.eval R') = a.1

/-- **The code of a condition jumps where its value says.** -/
def JumpsTo (cond : Nat → Nat → IRGen → IRGen) (t f : Nat) (g : IRGen) (R : Regs)
    (G : Globals) (x : Outcome (Word × Globals)) : Prop :=
  Covers F (cond t f g) → Reaches (F.step call) n (g.here F R G) x fun a c =>
    ∃ R', c = F.start (if Word.truthy a.1 then t else f) R' a.2 ∧ Agree g.nextVreg R R'

end Specs

variable {F : IRFunc} {call : Callee} {n : Nat} {g : IRGen} {R : Regs} {G : Globals}

/-! ## Nodes computed by one instruction -/

/-- An instruction that writes a fresh vreg. -/
theorem emit_computes (hg : g.WF) (hopen : g.isSealed = false) {inst : Inst}
    (hc : Covers F (g.newVreg.2.emit inst))
    {x : Outcome (Word × Globals)}
    (hexec : inst.exec call R G = x >>= fun a => .ok (R.set g.nextVreg a.1, a.2)) :
    Reaches (F.step call) n (g.here F R G) x fun a c =>
      ∃ R', c = (g.newVreg.2.emit inst).here F R' a.2 ∧
        (g.newVreg.2.emit inst).isSealed = false ∧ Agree g.nextVreg R R' ∧
        g.nextVreg < (g.newVreg.2.emit inst).nextVreg ∧ R' g.nextVreg = a.1 := by
  have hv := newVreg_grows (k := 0) hg
  have hstep := step_emit call hv.wf hopen hc R G
  rw [hexec] at hstep
  refine Reaches.of_step (f := fun a => (g.newVreg.2.emit inst).here F (R.set g.nextVreg a.1) a.2)
    ?_ fun a _ => ?_
  · rw [show g.here F R G = g.newVreg.2.here F R G from rfl, hstep, Outcome.bind_assoc]
    rfl
  · refine ⟨_, rfl, emit_isSealed _ _, .set R _ (Nat.le_refl _), ?_, R.set_same _ _⟩
    exact Nat.lt_of_lt_of_le (Nat.lt_succ_self _) (emit_grows (k := 0) hv.wf inst).nextVreg_le

/-- What is known of the code lowered after some expression: it starts with at least as
much written, in an open block, and with the old registers untouched. -/
def After (g : IRGen) (R : Regs) (spec : IRGen → Regs → Globals → Prop) : Prop :=
  ∀ g' R' G', (∀ k, Grows k g g') → g'.isSealed = false → Agree g.nextVreg R R' → spec g' R' G'

theorem genBinary_computes (hg : g.WF) (op : BinOp) {lhs rhs : IRGen → Val × IRGen}
    (hl : Lowers lhs) (hr : Lowers rhs) {x : Outcome (Word × Globals)}
    {y : Globals → Outcome (Word × Globals)} (hx : Computes F call n lhs g R G x)
    (hy : After g R fun g' R' G' => Computes F call n rhs g' R' G' (y G')) :
    Computes F call n (genBinary op lhs rhs) g R G
      (x >>= fun a => y a.2 >>= fun b => .ok (op.eval a.1 b.1, b.2)) := by
  intro hc
  have h₁ := fun k => hl k g hg
  have h₂ := hr 0 _ (h₁ 0).wf
  have h₃ := (newVreg_grows (k := 0) h₂.wf).trans h₂.wf (emit_grows (newVreg_grows (k := 0) h₂.wf).wf
    { op := mapBin op, dst := some (rhs (lhs g).2).2.nextVreg, a := (lhs g).1,
      b := (rhs (lhs g).2).1 })
  have hc₂ := Covers.of_grows hc h₂.wf h₃
  refine (hx (hc₂.of_grows (h₁ 0).wf h₂)).bind ?_
  rintro a _ - ⟨R₁, rfl, hopen₁, hR₁, hbelow, hval⟩
  refine (hy _ R₁ a.2 h₁ hopen₁ hR₁ hc₂).bind ?_
  rintro b _ - ⟨R₂, rfl, hopen₂, hR₂, -, hval'⟩
  have hexec : ∀ (a b : Val) (R : Regs) (G : Globals) (t : Nat),
      Inst.exec call { op := mapBin op, dst := some t, a, b } R G =
        .ok (R.set t (op.eval (a.eval R) (b.eval R)), G) := by
    intro a b R G t
    cases op <;> rfl
  have hemit := emit_computes (n := n) (x := .ok (op.eval a.1 b.1, b.2)) h₂.wf hopen₂ hc (by
    rw [hexec, hbelow.eval hR₂, hval, hval']
    rfl)
  refine hemit.mono ?_
  rintro c _ - ⟨R₃, rfl, hopen₃, hR₃, hlt, hres⟩
  refine ⟨R₃, rfl, hopen₃, ?_, hlt, hres⟩
  exact (hR₁.trans hR₂ (h₁ 0).nextVreg_le).trans hR₃
    (Nat.le_trans (h₁ 0).nextVreg_le h₂.nextVreg_le)

theorem genUnary_computes (hg : g.WF) (op : UnOp) {operand : IRGen → Val × IRGen}
    (ho : Lowers operand) {x : Outcome (Word × Globals)}
    (hx : Computes F call n operand g R G x) :
    Computes F call n (genUnary op operand) g R G
      (x >>= fun a => .ok (op.eval a.1, a.2)) := by
  intro hc
  have h₁ := ho 0 g hg
  by_cases hop : op = .Plus
  · subst hop
    refine (hx hc).bind ?_
    rintro a _ - ⟨R₁, rfl, hopen₁, hR₁, hbelow, hval⟩
    exact .of_post ⟨R₁, rfl, hopen₁, hR₁, hbelow, hval⟩
  · have hgen : genUnary op operand g = (.reg (operand g).2.nextVreg,
        (operand g).2.newVreg.2.emit
          { op := if op = .Neg then .Neg else .Not
            dst := some (operand g).2.nextVreg
            a := (operand g).1 }) := by
      cases op <;> simp_all [genUnary, newVreg]
    have hexec : ∀ (a : Val) (R : Regs) (G : Globals) (t : Nat),
        Inst.exec call { op := if op = .Neg then .Neg else .Not, dst := some t, a } R G =
          .ok (R.set t (op.eval (a.eval R)), G) := by
      intro a R G t
      cases op <;> first | contradiction | rfl
    rw [hgen] at hc
    have h₂ := newVreg_grows (k := 0) h₁.wf
    refine (hx (Covers.of_grows hc h₁.wf (h₂.trans h₁.wf (emit_grows h₂.wf _)))).bind ?_
    rintro a _ - ⟨R₁, rfl, hopen₁, hR₁, hbelow, hval⟩
    simp only [hgen]
    have hemit := emit_computes (n := n) (x := .ok (op.eval a.1, a.2)) h₁.wf hopen₁ hc (by
      rw [hexec, hval]
      rfl)
    refine hemit.mono ?_
    rintro c _ - ⟨R₃, rfl, hopen₃, hR₃, hlt, hres⟩
    exact ⟨R₃, rfl, hopen₃, hR₁.trans hR₃ h₁.nextVreg_le, hlt, hres⟩

theorem genCall_computes (hg : g.WF) (target : FuncRef) {args : IRGen → List Val × IRGen}
    (ha : Lowers args) {x : Outcome (List Word × Globals)}
    (hx : ComputesAll F call n args g R G x) :
    Computes F call n (genCall target args) g R G
      (x >>= fun a => call ⟨target.name, a.1, a.2⟩ >>= fun r =>
        callValue target.returnsVoid r.1 >>= fun v => .ok (v, r.2)) := by
  intro hc
  have h₁ := ha 0 g hg
  cases hv : target.returnsVoid with
  | true =>
    have hgen : genCall target args g = (.imm 0, (args g).2.emit
        { op := .Call, callee := target.name, args := (args g).1 }) := by simp [genCall, hv]
    rw [hgen] at hc
    refine (hx (Covers.of_grows hc h₁.wf (emit_grows (k := 0) h₁.wf _))).bind ?_
    rintro a _ - ⟨R₁, rfl, hopen₁, hR₁, -, hval⟩
    simp only [hgen]
    have hstep := step_emit call h₁.wf hopen₁ hc R₁ a.2
    have hcall : Reaches (F.step call) n ((args g).2.here F R₁ a.2)
        (call ⟨target.name, a.1, a.2⟩) fun r c => c = ((args g).2.emit
          { op := .Call, callee := target.name, args := (args g).1 }).here F R₁ r.2 := by
      refine Reaches.of_step (f := fun r => ((args g).2.emit
        { op := .Call, callee := target.name, args := (args g).1 }).here F R₁ r.2) ?_ fun _ _ => rfl
      rw [hstep]
      show ((call ⟨target.name, (args g).1.map (·.eval R₁), a.2⟩ >>= _) >>= _) = _
      rw [hval]
      cases call ⟨target.name, a.1, a.2⟩ <;> rfl
    refine hcall.bind ?_
    rintro r _ - rfl
    exact .of_post ⟨R₁, rfl, emit_isSealed _ _, hR₁, trivial, rfl⟩
  | false =>
    have hgen : genCall target args g = (.reg (args g).2.nextVreg, (args g).2.newVreg.2.emit
        { op := .Call, dst := some (args g).2.nextVreg, callee := target.name,
          args := (args g).1 }) := by
      simp [genCall, hv, newVreg]
    rw [hgen] at hc
    have h₂ := newVreg_grows (k := 0) h₁.wf
    refine (hx (Covers.of_grows hc h₁.wf (h₂.trans h₁.wf (emit_grows h₂.wf _)))).bind ?_
    rintro a _ - ⟨R₁, rfl, hopen₁, hR₁, -, hval⟩
    simp only [hgen]
    have hemit := emit_computes (n := n) (x := call ⟨target.name, a.1, a.2⟩ >>= fun r =>
        callValue false r.1 >>= fun v => .ok (v, r.2)) h₁.wf hopen₁ hc (by
      rw [← hval]
      show (call ⟨target.name, (args g).1.map (·.eval R₁), a.2⟩ >>= _) = _
      cases hcall : call ⟨target.name, (args g).1.map (·.eval R₁), a.2⟩ with
      | ok r =>
        obtain ⟨v, G'⟩ := r
        cases v <;> rfl
      | timeout => rfl
      | stuck => rfl)
    refine hemit.mono ?_
    rintro c _ - ⟨R₃, rfl, hopen₃, hR₃, hlt, hres⟩
    exact ⟨R₃, rfl, hopen₃, hR₁.trans hR₃ h₁.nextVreg_le, hlt, hres⟩

/-! ## Conditions -/

theorem genBranch_jumpsTo (hg : g.WF) {value : IRGen → Val × IRGen} (hv : Lowers value)
    {t f : Nat} (ht : t < F.blocks.length) (hf : f < F.blocks.length)
    {x : Outcome (Word × Globals)} (hx : Computes F call n value g R G x) :
    JumpsTo F call n (genBranch value) t f g R G x := by
  intro hc
  have h₁ := hv 0 g hg
  have h := hx (Covers.of_grows hc h₁.wf (termBr_grows (k := 0) h₁.wf _ _ _))
  cases x with
  | ok a =>
    obtain ⟨_, hsteps, R₁, rfl, hopen₁, hR₁, -, hval⟩ := h
    refine ⟨_, hsteps.trans (.single (step_termBr _ h₁.wf hopen₁ hc ht hf R₁ a.2)), R₁, ?_, hR₁⟩
    rw [hval]
  | timeout => exact h
  | stuck => exact h

theorem genConstCond_jumpsTo (hg : g.WF) (hopen : g.isSealed = false) (v : Word) {t f : Nat}
    (ht : t < F.blocks.length) (hf : f < F.blocks.length) :
    JumpsTo F call n (genConstCond v) t f g R G (.ok (v, G)) := by
  intro hc
  have hlt : (if v ≠ 0#32 then t else f) < F.blocks.length := by
    split
    · exact ht
    · exact hf
  refine ⟨_, .single (step_termJmp _ hg hopen hc hlt R G), R, ?_, .refl _ _⟩
  congr 1
  by_cases hv : v = 0#32
  · simp [hv]
  · simp [hv, Word.truthy_eq_true.mpr hv]

/-- A negation jumps the other way. -/
theorem JumpsTo.not {cond : Nat → Nat → IRGen → IRGen} {t f : Nat}
    {x : Outcome (Word × Globals)} (hx : JumpsTo F call n cond f t g R G x) :
    JumpsTo F call n (fun t f => cond f t) t f g R G
      (x >>= fun a => .ok (UnOp.Not.eval a.1, a.2)) := by
  intro hc
  refine (hx hc).bind ?_
  rintro a _ - ⟨R₁, rfl, hR₁⟩
  refine .of_post ⟨R₁, ?_, hR₁⟩
  congr 1
  by_cases hv : a.1 = 0#32
  · simp [hv, UnOp.eval]
  · simp [hv, UnOp.eval, Word.truthy_eq_true.mpr hv]

theorem here_newBlock (hg : g.WF) (F : IRFunc) (R : Regs) (G : Globals) :
    g.newBlock.2.here F R G = g.here F R G := by
  show Config.mk g.curBB ((F.blockAt g.curBB).insts.drop
    (g.newBlock.2.blockAt g.curBB).insts.length) R G = _
  rw [newBlock_blockAt_of_lt hg.cur_lt]
  rfl

/-- The value of a short-circuit operator, from those of its operands. -/
def logicalValue (isOr : Bool) (x : Outcome (Word × Globals))
    (y : Globals → Outcome (Word × Globals)) : Outcome (Word × Globals) :=
  x >>= fun a => match shortCircuit isOr a.1 with
    | some v => .ok (v, a.2)
    | none => y a.2 >>= fun b => .ok (Word.ofBool (Word.truthy b.1), b.2)

/-- Such a value is a truth value. -/
theorem logicalValue_bool {isOr : Bool} {x : Outcome (Word × Globals)}
    {y : Globals → Outcome (Word × Globals)} {a : Word × Globals}
    (h : logicalValue isOr x y = .ok a) : a.1 = Word.ofBool (Word.truthy a.1) := by
  obtain ⟨b, -, h⟩ := Outcome.bind_eq_ok.mp h
  cases hs : shortCircuit isOr b.1 with
  | some v =>
    rw [hs] at h
    cases h
    cases isOr <;> cases hv : Word.truthy b.1 <;> simp [shortCircuit, hv] at hs <;>
      subst hs <;> rfl
  | none =>
    rw [hs] at h
    obtain ⟨c, -, h⟩ := Outcome.bind_eq_ok.mp h
    cases h
    rw [Word.truthy_ofBool]

/-- **The jumps of a short-circuit operator.** -/
theorem genLogicalCond_jumpsTo (hg : g.WF) (isOr : Bool)
    {lhs rhs : Nat → Nat → IRGen → IRGen} (hl : Jumps lhs) (hr : Jumps rhs) {t f : Nat}
    {x : Outcome (Word × Globals)} {y : Globals → Outcome (Word × Globals)}
    (hx : ∀ t' f', t' < F.blocks.length → f' < F.blocks.length →
      JumpsTo F call n lhs t' f' g.newBlock.2 R G x)
    (hy : After g R fun g' R' G' => JumpsTo F call n rhs t f g' R' G' (y G'))
    (ht : t < F.blocks.length) (hf : f < F.blocks.length) :
    JumpsTo F call n (genLogicalCond isOr lhs rhs) t f g R G (logicalValue isOr x y) := by
  intro hc
  have hnew := fun k => newBlock_grows (k := k) hg
  have hmid : g.newBlock.2.Reserved g.blocks.length := newBlock_reserved hg
  let t' := if isOr then t else g.blocks.length
  let f' := if isOr then g.blocks.length else f
  have hgen : genLogicalCond isOr lhs rhs t f g =
      rhs t f ((lhs t' f' g.newBlock.2).startBlock g.blocks.length) := by
    cases isOr <;> rfl
  rw [hgen] at hc
  have h₁ := fun k => hl k t' f' _ (hnew k).wf
  have hmid₁ := (h₁ 0).reserved hmid
  have h₂ := fun k => ((hnew k).trans hg (h₁ k)).startBlock (Nat.le_refl _) ((h₁ k).reserved hmid)
  have hc₁ := Covers.of_grows hc (h₂ 0).wf (hr 0 t f _ (h₂ 0).wf)
  have hlt : g.blocks.length < F.blocks.length := Nat.lt_of_lt_of_le hmid₁.lt hc₁.length_le
  have ht' : t' < F.blocks.length := by
    show (if isOr then t else g.blocks.length) < F.blocks.length
    split
    · exact ht
    · exact hlt
  have hf' : f' < F.blocks.length := by
    show (if isOr then g.blocks.length else f) < F.blocks.length
    split
    · exact hlt
    · exact hf
  rw [← here_newBlock hg]
  refine (hx t' f' ht' hf' hc₁.startBlock).bind ?_
  rintro a _ - ⟨R₁, rfl, hR₁⟩
  -- Either the left operand decides, and the jump is the one of the whole, or the
  -- right one is evaluated in the block in between.
  cases hsc : shortCircuit isOr a.1 with
  | some v =>
    refine .of_post ⟨R₁, ?_, hR₁⟩
    congr 1
    cases isOr <;> cases hv : Word.truthy a.1 <;> simp [shortCircuit, hv] at hsc <;>
      subst hsc <;> simp [t', f']
  | none =>
    have htarget : (if Word.truthy a.1 then t' else f') = g.blocks.length := by
      cases isOr <;> cases hv : Word.truthy a.1 <;> simp_all [shortCircuit, t', f']
    rw [htarget, ← here_startBlock hmid₁ F R₁ a.2]
    refine (hy _ R₁ a.2 h₂ rfl hR₁ hc).bind ?_
    rintro b _ - ⟨R₂, rfl, hR₂⟩
    refine .of_post ⟨R₂, by simp, hR₁.trans hR₂ (h₁ 0).nextVreg_le⟩

/-- A block that only sets a register and jumps on. -/
theorem steps_move {b e r : Nat} {v : Word} (hg : (g.startBlock b).WF) (hb : g.Reserved b)
    (hc : Covers F (((g.startBlock b).emit
      { op := .Mv, dst := some r, a := .imm v }).termJmp e))
    (he : e < F.blocks.length) :
    Steps (F.step call) (F.start b R G) (F.start e (R.set r v) G) := by
  have h₁ := emit_grows (k := 0) hg { op := .Mv, dst := some r, a := .imm v }
  have hc₁ := Covers.of_grows hc h₁.wf (termJmp_grows (k := 0) h₁.wf e)
  rw [← here_startBlock hb F R G]
  refine .head (step_emit call hg rfl hc₁ R G) (.single ?_)
  exact step_termJmp _ h₁.wf (emit_isSealed _ _) hc he (R.set r v) G

/-- **The two blocks that set a truth value** do so, and go on behind. -/
theorem steps_genTruth (call : Callee) (hg : g.WF) {res t f e : Nat} (ht : g.Reserved t)
    (hf : g.Reserved f)
    (he : g.Reserved e) (htf : t < f) (hfe : f < e) (hc : Covers F (genTruth res t f e g)) :
    Covers F g ∧ e < F.blocks.length ∧ g.nextVreg ≤ (genTruth res t f e g).nextVreg ∧
      ∀ (v : Bool) (R : Regs) (G : Globals), Steps (F.step call)
        (F.start (if v then t else f) R G)
        ((genTruth res t f e g).here F (R.set res (Word.ofBool v)) G) := by
  have hto₁ := ht.startBlock_wf hg
  have h₁ := emit_grows (k := 0) hto₁ { op := .Mv, dst := some res, a := .imm 1 }
  have h₂ := h₁.trans hto₁ (termJmp_grows h₁.wf e)
  have hf₂ := h₂.reserved (hf.startBlock (Nat.ne_of_lt htf))
  have he₂ := h₂.reserved (he.startBlock (Nat.ne_of_lt (Nat.lt_trans htf hfe)))
  have hto₂ := hf₂.startBlock_wf h₂.wf
  have h₃ := emit_grows (k := 0) hto₂ { op := .Mv, dst := some res, a := .imm 0 }
  have h₄ := h₃.trans hto₂ (termJmp_grows h₃.wf e)
  have he₄ := h₄.reserved (he₂.startBlock (Nat.ne_of_lt hfe))
  have hc₄ := Covers.startBlock (b := e) hc
  have hc₂ := (Covers.of_grows hc₄ hto₂ h₄).startBlock
  have hlt := Nat.lt_of_lt_of_le he₄.lt hc₄.length_le
  refine ⟨(hc₂.of_grows hto₁ h₂).startBlock, hlt, Nat.le_trans h₂.nextVreg_le h₄.nextVreg_le, ?_⟩
  intro v R G
  have hend : ∀ R, (genTruth res t f e g).here F R G = F.start e R G :=
    fun R => here_startBlock he₄ F R G
  rw [hend]
  cases v with
  | true => exact steps_move hto₁ ht hc₂ hlt
  | false => exact steps_move hto₂ hf₂ hc₄ hlt

/-- **The value of a short-circuit operator**: its jumps go to the two blocks that set
the result. -/
theorem genLogical_computes (hg : g.WF) {cond : Nat → Nat → IRGen → IRGen} (hj : Jumps cond)
    {x : Outcome (Word × Globals)} (hbool : ∀ a, x = .ok a → a.1 = Word.ofBool (Word.truthy a.1))
    (hx : ∀ g', (∀ k, Grows k g g') → g'.isSealed = g.isSealed → ∀ t f,
      t < F.blocks.length → f < F.blocks.length → JumpsTo F call n cond t f g' R G x) :
    Computes F call n (genLogical cond) g R G x := by
  intro hc
  have hv := fun k => newVreg_grows (k := k) hg
  have hnew := fun k => (threeBlocks (k := k) (hv k).wf).1
  obtain ⟨-, ht, hf, he⟩ := threeBlocks (k := 0) (hv 0).wf
  have hhere : g.newVreg.2.newBlock.2.newBlock.2.newBlock.2.here F R G = g.here F R G := by
    rw [here_newBlock (twoBlocks (k := 0) (hv 0).wf).1.wf,
      here_newBlock (newBlock_grows (k := 0) (hv 0).wf).wf, here_newBlock (hv 0).wf]
    rfl
  rw [genLogical_eq] at hc
  have h₁ := hj 0 g.blocks.length (g.blocks.length + 1) _ (hnew 0).wf
  obtain ⟨hc₁, hlt, hle, hsteps⟩ := steps_genTruth call h₁.wf (h₁.reserved ht)
    (h₁.reserved hf) (h₁.reserved he) (Nat.lt_succ_self _) (Nat.lt_succ_self _) hc
  have hjump := hx _ (fun k => (hv k).trans hg (hnew k)) rfl _ _
    (Nat.lt_trans (Nat.lt_trans (Nat.lt_succ_self _) (Nat.lt_succ_self _)) hlt)
    (Nat.lt_trans (Nat.lt_succ_self _) hlt) hc₁
  rw [hhere] at hjump
  have hres : g.nextVreg < (genLogical cond g).2.nextVreg := by
    rw [genLogical_eq]
    exact Nat.lt_of_lt_of_le (Nat.lt_succ_self _)
      (Nat.le_trans ((hnew 0).trans (hv 0).wf h₁).nextVreg_le hle)
  cases x with
  | ok a =>
    obtain ⟨_, hto, R₁, rfl, hR₁⟩ := hjump
    refine ⟨_, hto.trans (hsteps (Word.truthy a.1) R₁ a.2),
      R₁.set g.nextVreg (Word.ofBool (Word.truthy a.1)), ?_, ?_, ?_, hres, ?_⟩
    · rw [genLogical_eq]
      rfl
    · rw [genLogical_eq]
      rfl
    · have hR : Agree g.nextVreg R R₁ := fun r hr => hR₁ r (Nat.lt_succ_of_lt hr)
      exact hR.trans (.set R₁ _ (Nat.le_refl _)) (Nat.le_refl _)
    · rw [hbool a rfl]
      simp [genLogical, newVreg]
  | timeout => exact hjump
  | stuck => exact hjump

end IRGen

end ToyC
