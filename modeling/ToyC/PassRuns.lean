import ToyC.InlinedCode
import ToyC.OptBlocks
import ToyC.PassShape

/-!
# What the passes do to a run

A pass is *justified* in a run of a function if what it takes for granted holds wherever the run
comes to rely on it (`Pass.Justified`): that a division it folds does not divide by zero, that the
copies and constants it propagates are still there, that reused results are intact, that folded
pairs are pairs of inverses, and that what it takes for loop-invariant is. Most passes take nothing
for granted.

Then the function has the same results behind the pass as in front of it
(`Pass.exec_sameResults`), so it yields what it did (`Pass.exec_yields`). The run may have its calls
answered by any oracle that knows no more than the one the condition is about, which is what lets
the functions of a module be changed all at once.
-/

namespace ToyC

open Machine Outcome Pipeline

/-- **What a function yields**: its run ends with the result. -/
def IRFunc.Yields (F : IRFunc) (call : Callee) (junk : Regs) (args : List Word) (G : Globals)
    (r : CallResult) : Prop :=
  ∃ n, F.run call junk n args G = .ok r

/-- **Two functions with the same results**, each in its own time. -/
def IRFunc.SameResults (F F' : IRFunc) (call : Callee) (junk : Regs) (args : List Word)
    (G : Globals) : Prop :=
  ∀ x ≠ .timeout, (∃ n, F.run call junk n args G = x) ↔ ∃ n, F'.run call junk n args G = x

/-! ## Runs with less known oracles -/

section Oracle

variable {F : IRFunc} {call call' : Callee} {c₀ : Config}

/-- **What a run does, it does with an oracle that knows more.** -/
theorem IRFunc.Ran.mono (hcall : ∀ q, Values (call q) (call' q)) {done : List Inst} {c : Config}
    (h : F.Ran call c₀ done c) : F.Ran call' c₀ done c := by
  induction h with
  | start => exact .start
  | @step done c c' _ hs ih =>
    exact .step ih ((F.step_regular c).mono precise_values hcall (Nat.le_refl 0) _ hs)

/-- A pair that may be folded, with less to come behind it. -/
theorem PairsOk.mono (hcall : ∀ q, Values (call q) (call' q)) {done rest : List Inst} {R : Regs}
    {G : Globals} (h : PairsOk call' done rest R G) : PairsOk call done rest R G := by
  induction rest generalizing done R G with
  | nil => trivial
  | cons inst rest ih =>
    exact ⟨h.1, fun R' G' hexec => ih (h.2 R' G' ((inst.exec_regular R G).mono precise_values hcall
      (Nat.le_refl 0) _ hexec))⟩

end Oracle

/-! ## What the passes rely on -/

/-- **What a pass relies on in a run.** -/
def Pass.Justified (n : Nat) (p : Pass) (F : IRFunc) (call : Callee) (c₀ : Config) : Prop :=
  match p with
  | .constFold => ∀ done c, F.Ran call c₀ done c → ∀ inst ∈ c.rest.head?,
      (foldInst inst).isSome → inst.DivisorNonzero c.regs
  | .cse => ∀ done c, F.Ran call c₀ done c → ReusesIntact (F.blockAt c.block).insts
  | .copyProp => ∀ done c, F.Ran call c₀ done c → CopiesHold F done c
  | .constProp => ∀ done c, F.Ran call c₀ done c → ConstsHold F done c
  | .peephole => ∀ done c, F.Ran call c₀ done c → c.rest = (F.blockAt c.block).insts →
      PairsOk call [] c.rest c.regs c.globals
  | .licm => LicmSafe F n
  | .jumpThreading | .deadCodeElim | .markUnsignedDiv | .hoistLoopConstants | .hoistMagicDiv
  | .hoistDivModConstants | .unreachableElim => True

theorem Pass.Justified.mono {n : Nat} {p : Pass} {F : IRFunc} {call call' : Callee} {c₀ : Config}
    (hcall : ∀ q, Values (call q) (call' q)) (h : p.Justified n F call' c₀) :
    p.Justified n F call c₀ := by
  cases p with
  | constFold | cse | copyProp | constProp => exact fun done c hran => h done c (hran.mono hcall)
  | peephole => exact fun done c hran hrest => (h done c (hran.mono hcall) hrest).mono hcall
  | _ => exact h

/-! ## Blocks -/

theorem execInsts_eq_runInsts (call : Callee) (insts : List Inst) (R : Regs) (G : Globals) :
    execInsts call insts R G =
      runInsts call insts R G >>= fun p => .ok (p.1, p.2.1) := by
  induction insts generalizing R G with
  | nil => rfl
  | cons inst insts ih =>
    rw [execInsts, runInsts, Outcome.bind_assoc]
    refine congrArg _ (funext fun p => ?_)
    rw [ih, Outcome.bind_assoc]
    rfl

section Blocks

variable {F F' : IRFunc} {call : Callee} {junk : Regs} {args : List Word} {G : Globals}
  {r : CallResult}

/-- A run comes to the end of a block. -/
theorem IRFunc.Ran.execInsts {c₀ : Config} {b : Nat} {insts : List Inst} {R R' : Regs}
    {gs gs' : Globals} {done : List Inst} (h : F.Ran call c₀ done ⟨b, insts, R, gs⟩)
    (hexec : ToyC.execInsts call insts R gs = .ok (R', gs')) :
    ∃ done', F.Ran call c₀ done' ⟨b, [], R', gs'⟩ := by
  induction insts generalizing R gs done with
  | nil =>
    cases hexec
    exact ⟨done, h⟩
  | cons inst insts ih =>
    obtain ⟨⟨R₁, G₁⟩, h₁, hexec⟩ := Outcome.bind_eq_ok.mp hexec
    refine ih (.step h ?_) hexec
    exact Outcome.bind_eq_ok.mpr ⟨(R₁, G₁), h₁, rfl⟩

/-- The right number of arguments, and a block to begin with, in both functions. -/
theorem IRFunc.SameResults.of_run (hparams : F'.paramRegs = F.paramRegs)
    (hlen : F'.blocks.length = F.blocks.length)
    (h : F.blocks ≠ [] → ∀ x ≠ .timeout,
      (∃ n, Machine.run (F.step call) n (F.entry junk args G) = x) ↔
        ∃ m, Machine.run (F'.step call) m (F'.entry junk args G) = x) :
    F.SameResults F' call junk args G := by
  intro x hx
  by_cases hargs : args.length = F.paramRegs.length
  · have hargs' : args.length = F'.paramRegs.length := hparams ▸ hargs
    by_cases hne : F.blocks = []
    · have hne' : F'.blocks = [] := List.eq_nil_of_length_eq_zero (by rw [hlen, hne]; rfl)
      simp only [IRFunc.run, if_pos hargs, if_pos hargs', hne, hne']
    · have hne' : F'.blocks ≠ [] := by
        intro hnil
        exact hne (List.eq_nil_of_length_eq_zero (by rw [← hlen, hnil]; rfl))
      simp only [IRFunc.run_eq call junk _ G hargs hne, IRFunc.run_eq call junk _ G hargs' hne']
      exact h hne x hx
  · have hargs' : ¬ args.length = F'.paramRegs.length := hparams ▸ hargs
    simp only [IRFunc.run, if_neg hargs, if_neg hargs']

/-- **A pass that changes the instructions of the blocks**, so that each block leaves what it did
wherever the run comes to it. -/
theorem IRFunc.SameResults.of_blocks (hflow : SameFlow F F')
    (h : ∀ done c, F.Ran call (F.entry junk args G) done c → c.rest = (F.blockAt c.block).insts →
      ToyC.execInsts call (F'.blockAt c.block).insts c.regs c.globals =
        ToyC.execInsts call c.rest c.regs c.globals) : F.SameResults F' call junk args G := by
  refine .of_run hflow.params hflow.length fun _ x hx => ?_
  let I : Config → Config → Prop := fun c c' =>
    (∃ done, F.Ran call (F.entry junk args G) done c) ∧ c.rest = (F.blockAt c.block).insts ∧
      c' = F'.start c.block c.regs c.globals
  have hentry : I (F.entry junk args G) (F'.entry junk args G) := by
    refine ⟨⟨[], .start⟩, rfl, ?_⟩
    unfold IRFunc.entry
    rw [hflow.params]
    rfl
  have hbig : ∀ c c', I c c' → ∃ x y, BigStep (F.step call) c x ∧ BigStep (F'.step call) c' y ∧
      Related (Sum.LiftRel I Eq) x y := by
    rintro ⟨b, rest, R, gs⟩ _ ⟨⟨done, hran⟩, hrest, rfl⟩
    refine ⟨_, _, F.bigStep_block call b rest R gs,
      F'.bigStep_block call b (F'.blockAt b).insts R gs, ?_⟩
    rw [h done _ hran hrest]
    cases hexec : ToyC.execInsts call rest R gs with
    | timeout => exact .timeout
    | stuck => exact .stuck
    | ok p =>
      obtain ⟨R', gs'⟩ := p
      obtain ⟨done', hend⟩ := hran.execInsts hexec
      simp only [Outcome.ok_bind]
      have hreads : ∀ v ∈ (F.blockAt b).termUses, R' v = R' v := fun _ _ => rfl
      rcases IRFunc.step_end_agree hflow.length (hflow.blocks b) call (G := gs') hreads with
        ⟨r', hr, hr'⟩ | ⟨hr, hr'⟩ | ⟨s, -, -, hr, hr'⟩
      · rw [hr, hr']
        exact .ok (.inr rfl)
      · rw [hr, hr']
        exact .stuck
      · rw [hr, hr']
        exact .ok (.inl ⟨⟨_, .step hend hr⟩, rfl, rfl⟩)
  exact run_iff_of_bigSteps hbig hentry hx

/-- A block whose instructions are changed, when they leave what they did. -/
theorem IRFunc.SameResults.of_map {g : BasicBlock → BasicBlock} (hg : g {} = {})
    (hinsts : ∀ bb, g bb = { bb with insts := (g bb).insts })
    (h : ∀ done c, F.Ran call (F.entry junk args G) done c → c.rest = (F.blockAt c.block).insts →
      runInsts call (g (F.blockAt c.block)).insts c.regs c.globals =
        runInsts call (F.blockAt c.block).insts c.regs c.globals) :
    F.SameResults { F with blocks := F.blocks.map g } call junk args G := by
  have hblock := fun b => IRFunc.blockAt_map (F := F) hg b
  refine .of_blocks (F := F) ⟨rfl, List.length_map _, fun b => by rw [hblock]; exact hinsts _⟩
    fun done c hran hrest => ?_
  rw [hblock, execInsts_eq_runInsts, execInsts_eq_runInsts, h done c hran hrest, hrest]

end Blocks

/-- An instruction in range has the right destination. -/
theorem Inst.InRange.wellFormed {nv : Nat} {inst : Inst} (h : inst.InRange nv) :
    inst.WellFormed := by
  obtain ⟨-, h⟩ := h
  unfold WellFormed
  cases hop : inst.op <;> cases hd : inst.dst <;> rw [hop, hd] at h <;> trivial

/-! ## The passes -/

section Passes

variable {F F' : IRFunc} {call : Callee} {junk : Regs} {args : List Word} {G : Globals}
  {r : CallResult} {n : Nat}

theorem SameBehaviour.sameResults (h : SameBehaviour F F' call junk args G) :
    F.SameResults F' call junk args G := fun x _ => by simp only [h.run]

theorem Equivalent.sameResults (h : Equivalent F F' call junk args G) :
    F.SameResults F' call junk args G := h.run

/-- **Two functions in step.** -/
theorem IRFunc.SameResults.of_lockstep (hparams : F'.paramRegs = F.paramRegs)
    (hlen : F'.blocks.length = F.blocks.length) {I : Config → Config → Prop}
    (h : Lockstep (F.step call) (F'.step call) I)
    (hentry : F.blocks ≠ [] → I (F.entry junk args G) (F'.entry junk args G)) :
    F.SameResults F' call junk args G :=
  .of_run hparams hlen fun hne x _ => by simp only [h.run (hentry hne)]

theorem constFold_sameResults (h : Pass.constFold.Justified n F call (F.entry junk args G)) :
    F.SameResults (constFold F).1 call junk args G := by
  refine SameBehaviour.sameResults (IRFunc.mapInsts_sameBehaviour fun done c hran inst hi => ?_)
  cases hf : foldInst inst with
  | none => exact ⟨rfl, rfl⟩
  | some inst' =>
    exact ⟨foldInst_exec hf (h done c hran inst hi (by rw [hf]; rfl)), foldInst_event hf c.regs⟩

theorem cse_sameResults (hrange : F.InRange)
    (h : Pass.cse.Justified n F call (F.entry junk args G)) :
    F.SameResults (cse F).1 call junk args G :=
  .of_map (g := fun bb => (cseBlock bb).1) rfl (fun _ => rfl) fun done c hran _ =>
    cseInsts_run (fun _ hi => (hrange.inst_inRange hi).wellFormed)
      (show ReusesIntact ([].reverse ++ (F.blockAt c.block).insts) from h done c hran)
      (fun key => by cases key <;> rfl) (fun _ _ h => by cases h) (fun _ _ h => by cases h)

theorem copyProp_sameResults (h : Pass.copyProp.Justified n F call (F.entry junk args G)) :
    F.SameResults (copyProp F).1 call junk args G := by
  refine SameBehaviour.sameResults (Subst.sameBehaviour fun done c hran r hr w hw => ?_)
  simp only [copySubst] at hw
  split at hw
  · rename_i hne
    cases hw
    exact resolve_eq fun l hl => hran.established (h done c hran r hr hne l hl)
  · cases hw

theorem constProp_sameResults (h : Pass.constProp.Justified n F call (F.entry junk args G)) :
    F.SameResults (constProp F).1 call junk args G := by
  refine SameBehaviour.sameResults (Subst.sameBehaviour fun done c hran r hr w hw => ?_)
  obtain ⟨k, hk, rfl⟩ := Option.map_eq_some_iff.mp hw
  exact hran.established (h done c hran r hr k hk)

theorem peephole_sameResults (h : Pass.peephole.Justified n F call (F.entry junk args G)) :
    F.SameResults (peephole F).1 call junk args G :=
  .of_map (g := fun bb => (peepholeBlock bb).1) rfl (fun _ => rfl) fun done c hran hrest =>
    peepholeInsts_run (hrest ▸ h done c hran hrest) fun _ _ _ _ h _ => by cases h

theorem licm_sameResults (hord : F.Ordered)
    (h : Pass.licm.Justified n F call (F.entry junk args G)) (hF' : licm F n = .ok F') :
    F.SameResults F' call junk args G := by
  refine Equivalent.sameResults ((overLoops_rule (P := fun _ => True) hord.inRange hord.ids
    hord.entry trivial ?_ h hF').2.2.2 call junk args G)
  intro F₁ L pre v _ hrange hL hgood
  exact ⟨trivial, sameFlow_licmLoop, inRange_licmLoop hrange, fun call junk args G =>
    (hoisted_licmLoop hgood hL).equivalent hrange hL hgood.canMove junk args G⟩

/-- A jump goes where the branch on the constant went. -/
theorem jumpThreading_sameResults : F.SameResults (jumpThreading F).1 call junk args G := by
  have hblock := fun b => IRFunc.blockAt_map (F := F) (g := fun bb => (threadJump bb).getD bb) rfl b
  have hinsts : ∀ b, ((jumpThreading F).1.blockAt b).insts = (F.blockAt b).insts := by
    intro b
    rw [jumpThreading, hblock]
    cases hthread : threadJump (F.blockAt b) with
    | none => rfl
    | some bb =>
      obtain ⟨c, -, -, rfl⟩ := threadJump_eq_some hthread
      rfl
  have hstart : ∀ b R gs, (jumpThreading F).1.start b R gs = F.start b R gs := by
    intro b R gs
    rw [IRFunc.start, IRFunc.start, hinsts]
  have hlen : (jumpThreading F).1.blocks.length = F.blocks.length := List.length_map _
  have henter : ∀ b R gs, (jumpThreading F).1.enter b R gs = F.enter b R gs := by
    intro b R gs
    by_cases hb : b < F.blocks.length
    · rw [IRFunc.enter_eq hb, IRFunc.enter_eq (hlen ▸ hb), hstart]
    · rw [IRFunc.enter_of_ge hb, IRFunc.enter_of_ge (hlen ▸ hb)]
  have hterm : ∀ bb R gs, (jumpThreading F).1.execTerm ((threadJump bb).getD bb) R gs =
      F.execTerm bb R gs := by
    intro bb R gs
    cases hthread : threadJump bb with
    | none =>
      unfold IRFunc.execTerm
      simp only [henter, Option.getD_none]
    | some bb' =>
      obtain ⟨c, hbr, hcond, rfl⟩ := threadJump_eq_some hthread
      unfold IRFunc.execTerm
      simp only [henter, Option.getD_some, hbr, hcond, Val.eval_imm]
      by_cases hc : c = 0#32 <;> simp [hc, Word.truthy]
  have hstep : (jumpThreading F).1.step call = F.step call := by
    funext c
    unfold IRFunc.step
    cases c.rest with
    | cons inst rest => rfl
    | nil =>
      have hblocks : (jumpThreading F).1.blocks[c.block]? =
          F.blocks[c.block]?.map fun bb => (threadJump bb).getD bb := List.getElem?_map ..
      rw [hblocks]
      cases F.blocks[c.block]? with
      | none => rfl
      | some bb => exact hterm bb c.regs c.globals
  refine .of_run (F := F) rfl hlen fun _ x _ => ?_
  have hentry : (jumpThreading F).1.entry junk args G = F.entry junk args G := hstart 0 _ G
  rw [hstep, hentry]

/-- In a function whose successors are blocks, the walk is the one of the code generator. -/
theorem reachableFrom_eq (hsuccs : ∀ b, ∀ s ∈ succsOf (F.blockAt b), s < F.blocks.length)
    (k : Nat) (stack reached : List Nat) :
    reachableFrom F k (stack, reached) = OptCodeGen.reachLoop F k (stack, reached) := by
  induction k generalizing stack reached with
  | zero => rfl
  | succ k ih =>
    cases stack with
    | nil => rfl
    | cons b stack =>
      have hfilter : (succsOf (F.blockAt b)).filter (· < F.blocks.length) =
          succsOf (F.blockAt b) :=
        List.filter_eq_self.mpr fun s hs => decide_eq_true (hsuccs b s hs)
      unfold reachableFrom OptCodeGen.reachLoop
      rw [hfilter]
      exact ih _ _

/-- Emptying the blocks that nothing reaches is not noticed. -/
theorem unreachableElim_sameResults (hrange : F.InRange) :
    F.SameResults (unreachableElim F) call junk args G := by
  have hlen : (unreachableElim F).blocks.length = F.blocks.length := by simp [unreachableElim]
  have hwalk : F.blocks ≠ [] → OptCodeGen.Walk F []
      (reachableFrom F F.blocks.length ([0], [0])) := by
    intro hne
    rw [reachableFrom_eq hrange.succs_lt]
    exact OptCodeGen.reach_walk hrange.succs_lt (List.length_pos_of_ne_nil hne)
  have hblock : ∀ {b}, b ∈ reachableFrom F F.blocks.length ([0], [0]) →
      (unreachableElim F).blockAt b = F.blockAt b := by
    intro b hb
    unfold IRFunc.blockAt
    rw [List.getD_eq_getElem?_getD, List.getD_eq_getElem?_getD]
    simp only [unreachableElim, List.getElem?_mapIdx]
    cases F.blocks[b]? with
    | none => rfl
    | some bb => simp [hb]
  have hstart : ∀ {b}, b ∈ reachableFrom F F.blocks.length ([0], [0]) → ∀ R gs,
      (unreachableElim F).start b R gs = F.start b R gs := by
    intro b hb R gs
    rw [IRFunc.start, IRFunc.start, hblock hb]
  refine .of_lockstep (F := F) rfl hlen (I := fun c c' => c = c' ∧ F.blocks ≠ [] ∧
    c.block ∈ reachableFrom F F.blocks.length ([0], [0])) ?_
    fun hne => ⟨(hstart (hwalk hne).entry _ G).symm, hne, (hwalk hne).entry⟩
  rintro ⟨b, rest, R, gs⟩ _ ⟨rfl, hne, hmem⟩
  cases rest with
  | cons inst rest => exact StepsAgree.bind fun _ _ => ⟨rfl, hne, hmem⟩
  | nil =>
    have hreads : ∀ v ∈ (F.blockAt b).termUses, R v = R v := fun _ _ => rfl
    rcases IRFunc.step_end_agree hlen (by rw [hblock hmem]) call (G := gs) hreads with
      ⟨r', hr, hr'⟩ | ⟨hr, hr'⟩ | ⟨s, hs, -, hr, hr'⟩
    · rw [hr, hr']
      rfl
    · rw [hr, hr']
      trivial
    · have hsmem := (hwalk hne).closed b hmem List.not_mem_nil s hs
      rw [hr, hr', hstart hsmem]
      exact ⟨rfl, hne, hsmem⟩

/-- A mark says nothing to a run. -/
theorem execInsts_marked {insts insts' : List Inst} (h : List.Forall₂ (Marked F) insts insts')
    (R : Regs) (gs : Globals) : execInsts call insts' R gs = execInsts call insts R gs := by
  induction h generalizing R gs with
  | nil => rfl
  | @cons inst inst' _ _ hm _ ih =>
    have hexec : inst'.exec call R gs = inst.exec call R gs := by
      rw [hm.same]
      rfl
    rw [execInsts, execInsts, hexec]
    exact congrArg _ (funext fun p => ih p.1 p.2)

theorem markUnsignedDiv_sameResults (h : markUnsignedDiv F n = .ok F') :
    F.SameResults F' call junk args G := by
  refine .of_blocks (F := F) (markUnsignedDiv_sameFlow h) fun _ c _ hrest => ?_
  obtain ⟨-, hblocks⟩ := markUnsignedDiv_marked h
  rw [hrest]
  refine execInsts_marked (F := F) ?_ c.regs c.globals
  by_cases hb : c.block < F.blocks.length
  · have hb' : c.block < F'.blocks.length := hblocks.length_eq ▸ hb
    have hm := ((List.forall₂_iff_get.mp hblocks).2 c.block hb hb').insts
    simpa [IRFunc.blockAt, hb, hb'] using hm
  · have hb' : ¬ c.block < F'.blocks.length := hblocks.length_eq ▸ hb
    rw [IRFunc.blockAt_of_ge hb, IRFunc.blockAt_of_ge hb']
    exact .nil

/-- **A run asks only what it comes to ask**: of two oracles with the same answers there, it does
not matter which. -/
theorem IRFunc.run_of_asked {call' : Callee}
    (h : ∀ done c, F.Ran call (F.entry junk args G) done c → ∀ inst ∈ c.rest.head?,
      inst.op = .Call → call' ⟨inst.callee, inst.args.map (·.eval c.regs), c.globals⟩ =
        call ⟨inst.callee, inst.args.map (·.eval c.regs), c.globals⟩) (n : Nat) :
    F.run call' junk n args G = F.run call junk n args G := by
  have hlock : Lockstep (F.step call) (F.step call') fun c c' => c = c' ∧
      ∃ done, F.Ran call (F.entry junk args G) done c := by
    rintro c _ ⟨rfl, done, hran⟩
    have hstep : F.step call' c = F.step call c := by
      unfold IRFunc.step
      cases hrest : c.rest with
      | nil => rfl
      | cons inst rest =>
        have hexec : inst.exec call' c.regs c.globals = inst.exec call c.regs c.globals := by
          cases hop : inst.op with
          | Call =>
            simp only [Inst.exec, hop]
            rw [h done c hran inst (by rw [hrest]; rfl) hop]
          | _ => simp only [Inst.exec, hop]
        dsimp only
        rw [hexec]
    rw [hstep]
    cases hc : F.step call c with
    | timeout => trivial
    | stuck => trivial
    | ok x =>
      cases x with
      | inl c₁ => exact ⟨rfl, _, .step hran hc⟩
      | inr r' => rfl
  by_cases hargs : args.length = F.paramRegs.length
  · by_cases hne : F.blocks = []
    · simp only [IRFunc.run, if_pos hargs, hne]
    · rw [IRFunc.run_eq call junk n G hargs hne, IRFunc.run_eq call' junk n G hargs hne]
      exact (hlock.run ⟨rfl, [], .start⟩ n).symm
  · simp only [IRFunc.run, if_neg hargs]

theorem IRFunc.Yields.of_asked {call' : Callee}
    (h : ∀ done c, F.Ran call (F.entry junk args G) done c → ∀ inst ∈ c.rest.head?,
      inst.op = .Call → call' ⟨inst.callee, inst.args.map (·.eval c.regs), c.globals⟩ =
        call ⟨inst.callee, inst.args.map (·.eval c.regs), c.globals⟩)
    (hF : F.Yields call junk args G r) : F.Yields call' junk args G r :=
  hF.imp fun n hn => (F.run_of_asked h n).trans hn

/-- **Behind a pass that is justified in a run, it has the same result.** The run may know less of
the functions that are called than the one the pass is justified in. -/
theorem Pass.exec_sameResults {p : Pass} {known : Callee} {changed : Bool} (hord : F.Ordered)
    (hp : p.Justified n F known (F.entry junk args G)) (hcall : ∀ q, Values (call q) (known q))
    (h : p.exec n F = .ok (F', changed)) : F.SameResults F' call junk args G := by
  have hp := hp.mono hcall
  cases p with
  | constFold =>
    cases h
    exact constFold_sameResults hp
  | cse =>
    cases h
    exact cse_sameResults hord.inRange hp
  | copyProp =>
    cases h
    exact copyProp_sameResults hp
  | constProp =>
    cases h
    exact constProp_sameResults hp
  | peephole =>
    cases h
    exact peephole_sameResults hp
  | jumpThreading =>
    cases h
    exact jumpThreading_sameResults
  | unreachableElim =>
    cases h
    exact unreachableElim_sameResults hord.inRange
  | deadCodeElim =>
    exact ((deadCodeElim_swept (bind_unreported h)).1.equivalent call junk args G).sameResults
  | markUnsignedDiv => exact markUnsignedDiv_sameResults (bind_unreported h)
  | licm => exact licm_sameResults hord hp (bind_unreported h)
  | hoistLoopConstants =>
    exact (((hoist_ordered hord hoistCmp_sound hoistRel_replaced).2 n F' (bind_unreported h)).2
      call junk args G).sameResults
  | hoistMagicDiv =>
    exact (((hoist_ordered hord hintMagic_sound hoistRel_hinted).2 n F' (bind_unreported h)).2
      call junk args G).sameResults
  | hoistDivModConstants =>
    exact (((hoist_ordered hord hoistDivisor_sound hoistRel_replaced).2 n F' (bind_unreported h)).2
      call junk args G).sameResults

/-- **So it yields what it did.** -/
theorem Pass.exec_yields {p : Pass} {known : Callee} {changed : Bool} (hord : F.Ordered)
    (hp : p.Justified n F known (F.entry junk args G)) (hcall : ∀ q, Values (call q) (known q))
    (h : p.exec n F = .ok (F', changed)) (hF : F.Yields call junk args G r) :
    F'.Yields call junk args G r :=
  (Pass.exec_sameResults hord hp hcall h (.ok r) (by simp)).mp hF

end Passes

end ToyC
