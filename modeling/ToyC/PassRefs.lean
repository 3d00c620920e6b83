import ToyC.OptimizerSound
import ToyC.PlainMode
import ToyC.Progress

/-!
# What the optimizer leaves of a module

A function refers to others by its calls, and to the globals by its loads and stores. The passes
rewrite, move and drop instructions, but an instruction that refers to something stays what it is up
to its operands, and none is made of nothing (`IRFunc.Inherits`). The inliner puts copies of such
instructions into other functions of the module.

So whatever the optimizer makes of a module, its calls still find their functions, with as many
arguments as they take, and its globals exist (`optimizeIR_closed`).
-/

namespace ToyC

open Pipeline

/-! ## References -/

/-- Whether an instruction refers to something outside of its function. -/
def Inst.refers (inst : Inst) : Bool :=
  inst.op = .Call || inst.op = .LoadGlobal || inst.op = .StoreGlobal

/-- **An instruction that refers to the same**, as another one does. -/
structure Inst.SameRef (inst inst' : Inst) : Prop where
  op : inst'.op = inst.op
  gid : inst'.gid = inst.gid
  callee : inst'.callee = inst.callee
  args : inst'.args.length = inst.args.length
  dst : inst'.dst.isSome = inst.dst.isSome

theorem Inst.SameRef.refl (inst : Inst) : inst.SameRef inst := ⟨rfl, rfl, rfl, rfl, rfl⟩

theorem Inst.SameRef.trans {i₁ i₂ i₃ : Inst} (h : i₁.SameRef i₂) (h' : i₂.SameRef i₃) :
    i₁.SameRef i₃ :=
  ⟨h'.op.trans h.op, h'.gid.trans h.gid, h'.callee.trans h.callee, h'.args.trans h.args,
    h'.dst.trans h.dst⟩

/-- **Instructions that refer to nothing that others do not refer to.** -/
def RefersIn (insts insts' : List Inst) : Prop :=
  ∀ inst' ∈ insts', inst'.refers = true → ∃ inst ∈ insts, inst.SameRef inst'

section RefersIn

variable {is js ks : List Inst}

/-- What refers to something is an instruction that there was. -/
theorem RefersIn.of_kept (h : ∀ inst ∈ js, inst.refers = true → inst ∈ is) : RefersIn is js :=
  fun inst hi href => ⟨inst, h inst hi href, .refl inst⟩

theorem RefersIn.of_subset (h : js ⊆ is) : RefersIn is js := .of_kept fun _ hi _ => h hi

theorem RefersIn.refl (is : List Inst) : RefersIn is is := .of_subset (List.Subset.refl is)

theorem RefersIn.trans (h : RefersIn is js) (h' : RefersIn js ks) : RefersIn is ks := by
  intro inst hi href
  obtain ⟨j, hj, hjk⟩ := h' inst hi href
  have hjref : j.refers = true := by
    unfold Inst.refers at href ⊢
    rwa [← hjk.op]
  obtain ⟨i, hi, hij⟩ := h j hj hjref
  exact ⟨i, hi, hij.trans hjk⟩

/-- Instructions that are rewritten one by one. -/
theorem RefersIn.map {f : Inst → Inst} (hf : ∀ inst ∈ is, (f inst).refers = true →
    inst.SameRef (f inst)) : RefersIn is (is.map f) := by
  intro inst' hi href
  obtain ⟨inst, hmem, rfl⟩ := List.mem_map.mp hi
  exact ⟨inst, hmem, hf inst hmem href⟩

end RefersIn

/-- **What a function inherits** from the one it was made of. -/
structure IRFunc.Inherits (F F' : IRFunc) : Prop where
  name : F'.name = F.name
  returnsVoid : F'.returnsVoid = F.returnsVoid
  numParams : F'.numParams = F.numParams
  params : F'.paramRegs = F.paramRegs
  refs : RefersIn F.insts F'.insts

theorem IRFunc.Inherits.refl (F : IRFunc) : F.Inherits F := ⟨rfl, rfl, rfl, rfl, .refl _⟩

theorem IRFunc.Inherits.trans {F₁ F₂ F₃ : IRFunc} (h : F₁.Inherits F₂) (h' : F₂.Inherits F₃) :
    F₁.Inherits F₃ :=
  ⟨h'.name.trans h.name, h'.returnsVoid.trans h.returnsVoid, h'.numParams.trans h.numParams,
    h'.params.trans h.params, h.refs.trans h'.refs⟩

/-! ## The passes -/

section Passes

variable {F F' : IRFunc} {n : Nat}

/-- Blocks that are rewritten one by one. -/
theorem RefersIn.blocks {g : BasicBlock → BasicBlock}
    (hg : ∀ bb ∈ F.blocks, RefersIn bb.insts (g bb).insts) :
    RefersIn F.insts ({ F with blocks := F.blocks.map g } : IRFunc).insts := by
  intro inst' hi href
  obtain ⟨bb', hbb', hi⟩ := List.mem_flatMap.mp hi
  obtain ⟨bb, hbb, rfl⟩ := List.mem_map.mp hbb'
  obtain ⟨inst, hi, hsame⟩ := hg bb hbb inst' hi href
  exact ⟨inst, List.mem_flatMap.mpr ⟨bb, hbb, hi⟩, hsame⟩

theorem constFold_refs : RefersIn F.insts (constFold F).1.insts := by
  refine .blocks (g := fun bb => { bb with insts := bb.insts.map _ }) fun bb _ => .map ?_
  intro inst _ href
  cases h : foldInst inst with
  | none => exact .refl inst
  | some inst' =>
    obtain ⟨-, v, rfl | rfl, -⟩ := foldInst_reads h <;> rw [h] at href <;> cases href

theorem Inst.sameRef_subst (s : Subst) (inst : Inst) : inst.SameRef (inst.subst s) := by
  unfold Inst.subst
  split
  · exact .refl inst
  · exact ⟨rfl, rfl, rfl, List.length_map _, rfl⟩

theorem IRFunc.subst_refs (s : Subst) : RefersIn F.insts (F.subst s).insts :=
  .blocks fun _ _ => .map fun inst _ _ => inst.sameRef_subst s

/-- An instruction stays, or becomes a copy of a remembered result. -/
theorem cseInst_kept (T : CseTables) (inst : Inst) :
    (cseInst T inst).1 = inst ∨ (cseInst T inst).1.op = .Mv := by
  cases hkey : inst.key? with
  | some key =>
    rw [cseInst_key hkey]
    cases T.lookup key with
    | none => exact .inl rfl
    | some t => exact .inr rfl
  | none =>
    cases hop : inst.op with
    | LoadGlobal =>
      unfold cseInst
      rw [hop]
      cases T.availLoad inst.gid with
      | none => exact .inl rfl
      | some t => exact .inr rfl
    | StoreGlobal | Call =>
      unfold cseInst
      rw [hop]
      exact .inl rfl
    | _ =>
      have hne : inst.op ≠ .LoadGlobal ∧ inst.op ≠ .StoreGlobal ∧ inst.op ≠ .Call := by simp [hop]
      rw [cseInst_other hkey hne.1 hne.2.1 hne.2.2]
      exact .inl rfl

theorem cse_refs : RefersIn F.insts (cse F).1.insts := by
  refine .blocks (g := fun bb => (cseBlock bb).1) fun bb _ => .of_kept fun inst' hi href => ?_
  have hall : ∀ (T : CseTables) (insts : List Inst), inst' ∈ (cseInsts T insts).1 →
      inst' ∈ insts := by
    intro T insts hi
    induction insts generalizing T with
    | nil => exact hi
    | cons inst insts ih =>
      rcases List.mem_cons.mp hi with heq | hi
      · replace heq : inst' = (cseInst T inst).1 := heq
        rcases cseInst_kept T inst with hkept | hmv
        · rw [heq, hkept]
          exact List.mem_cons_self
        · simp [Inst.refers, heq, hmv] at href
      · exact List.mem_cons_of_mem _ (ih _ hi)
  exact hall _ _ hi

theorem peephole_refs : RefersIn F.insts (peephole F).1.insts := by
  refine .blocks (g := fun bb => (peepholeBlock bb).1) fun bb _ => .of_kept fun inst' hi href => ?_
  obtain ⟨inst, hi, rfl | ⟨out, h⟩⟩ := peepholeInsts_mem hi
  · exact hi
  · unfold foldPair at h
    split at h
    · cases h
    · split at h
      · cases h
      · split at h
        · cases h
          cases href
        · cases h

theorem jumpThreading_refs : RefersIn F.insts (jumpThreading F).1.insts := by
  refine .blocks (g := fun bb => (threadJump bb).getD bb) fun bb _ => ?_
  cases h : threadJump bb with
  | none => exact .refl _
  | some bb' =>
    obtain ⟨c, -, -, rfl⟩ := threadJump_eq_some h
    exact .refl _

theorem unreachableElim_refs : RefersIn F.insts (unreachableElim F).insts := by
  refine .of_kept fun inst hi _ => ?_
  obtain ⟨bb', hbb', hi⟩ := List.mem_flatMap.mp hi
  obtain ⟨b, hb, rfl⟩ := List.mem_mapIdx.mp hbb'
  refine List.mem_flatMap.mpr ⟨F.blocks[b], List.getElem_mem hb, ?_⟩
  split at hi
  · exact hi
  · cases hi

theorem computeCFG_refs : RefersIn F.insts (computeCFG F).insts := by
  refine .of_kept fun inst hi _ => ?_
  obtain ⟨b, hi⟩ := IRFunc.mem_insts_iff.mp hi
  rw [computeCFG_insts] at hi
  exact IRFunc.mem_insts_iff.mpr ⟨b, hi⟩

theorem licm_refs (h : licm F n = .ok F') : RefersIn F.insts F'.insts :=
  overLoops_keeps (show overLoops licmLoop F n = _ from h)
    (P := fun F₁ => RefersIn F.insts F₁.insts) computeCFG_refs fun F₁ L pre hF₁ =>
      hF₁.trans <| .of_kept fun inst hi _ => by
        obtain ⟨b, hi⟩ := IRFunc.mem_insts_iff.mp hi
        exact List.mem_flatMap.mpr (mem_licmLoop hi)

/-- Loading constants in front of loops. -/
theorem hoist_refs {κ : Type} {value : κ → Word} {step : HoistStep κ}
    {rel : List Inst → Inst → Inst → Prop} (hF : F.Ordered) (hstep : step.Sound value rel)
    (hrel : HoistRel rel) (hsame : ∀ M inst inst', rel M inst inst' → inst.SameRef inst')
    (h : overLoops (hoistLoop step) F n = .ok F') : RefersIn F.insts F'.insts := by
  have hloop : ∀ F₁ F₂ L pre v cs, F₁.InRange → IsLoop F₁ L pre v →
      ConstsLoaded rel F₁ F₂ L pre cs → RefersIn F.insts F₁.insts → RefersIn F.insts F₂.insts := by
    intro F₁ F₂ L pre v cs _ _ hloaded hF₁
    refine hF₁.trans fun inst' hi href => ?_
    obtain ⟨b, hi⟩ := IRFunc.mem_insts_iff.mp hi
    rcases hloaded.mem_insts hi with hi | hi | ⟨-, inst, hi, hr⟩
    · exact ⟨inst', IRFunc.mem_insts_iff.mpr ⟨b, hi⟩, .refl _⟩
    · obtain ⟨_, _, rfl⟩ := mem_constMvs.mp hi
      cases href
    · exact ⟨inst, IRFunc.mem_insts_iff.mpr ⟨b, hi⟩, hsame _ _ _ hr⟩
  exact ((hoistLoops_rule hstep hrel hF.inRange hF.ids hF.entry computeCFG_refs hloop).2 n F' h).1

theorem Inst.Replaced.sameRef {known : Nat → Word → Prop} {inst inst' : Inst}
    (h : inst.Replaced known inst') : inst.SameRef inst' := by
  rw [h.same]
  exact ⟨rfl, rfl, rfl, rfl, rfl⟩

theorem Hinted.sameRef {M : List Inst} {inst inst' : Inst} (h : Hinted M inst inst') :
    inst.SameRef inst' := by
  rcases h with rfl | ⟨-, c, r, -, rfl, -⟩
  · exact .refl _
  · exact ⟨rfl, rfl, rfl, rfl, rfl⟩

theorem SweptTo.refs (h : SweptTo F F') : RefersIn F.insts F'.insts := by
  obtain ⟨p, rfl, -⟩ := h.kept
  refine .of_kept fun inst hi _ => ?_
  obtain ⟨bb', hbb', hi⟩ := List.mem_flatMap.mp hi
  obtain ⟨bb, hbb, rfl⟩ := List.mem_map.mp hbb'
  exact List.mem_flatMap.mpr ⟨bb, hbb, List.mem_of_mem_filter hi⟩

theorem markUnsignedDiv_refs (h : markUnsignedDiv F n = .ok F') : RefersIn F.insts F'.insts := by
  intro inst' hi href
  obtain ⟨bb', hbb', hi⟩ := List.mem_flatMap.mp hi
  obtain ⟨bb, hbb, hmarked⟩ := exists_of_forall₂ (markUnsignedDiv_marked h).2 hbb'
  obtain ⟨inst, hi, hsame⟩ := exists_of_forall₂ hmarked.insts hi
  refine ⟨inst, List.mem_flatMap.mpr ⟨bb, hbb, hi⟩, ?_⟩
  rw [hsame.same]
  exact ⟨rfl, rfl, rfl, rfl, rfl⟩

/-- **Every pass leaves what a function refers to.** -/
theorem Pass.exec_refs {p : Pass} {changed : Bool} (hF : F.Ordered)
    (h : p.exec n F = .ok (F', changed)) : RefersIn F.insts F'.insts := by
  cases p with
  | constFold =>
    cases h
    exact constFold_refs
  | cse =>
    cases h
    exact cse_refs
  | copyProp =>
    cases h
    exact F.subst_refs _
  | constProp =>
    cases h
    exact F.subst_refs _
  | peephole =>
    cases h
    exact peephole_refs
  | jumpThreading =>
    cases h
    exact jumpThreading_refs
  | unreachableElim =>
    cases h
    exact unreachableElim_refs
  | deadCodeElim => exact (deadCodeElim_swept (bind_unreported h)).1.refs
  | markUnsignedDiv => exact markUnsignedDiv_refs (bind_unreported h)
  | licm => exact licm_refs (bind_unreported h)
  | hoistLoopConstants =>
    exact hoist_refs hF hoistCmp_sound hoistRel_replaced (fun _ _ _ h => h.sameRef)
      (bind_unreported h)
  | hoistMagicDiv =>
    exact hoist_refs hF hintMagic_sound hoistRel_hinted (fun _ _ _ h => h.sameRef)
      (bind_unreported h)
  | hoistDivModConstants =>
    exact hoist_refs hF hoistDivisor_sound hoistRel_replaced (fun _ _ _ h => h.sameRef)
      (bind_unreported h)

/-- **Every pass leaves the head of a function.** -/
theorem Pass.exec_head {p : Pass} {changed : Bool} (h : p.exec n F = .ok (F', changed)) :
    F' = { F with blocks := F'.blocks, numVregs := F'.numVregs } := by
  have hloops : ∀ pass : LoopPass, overLoops pass F n = .ok F' →
      (∀ F L pre, pass F L pre = { F with
        blocks := (pass F L pre).blocks, numVregs := (pass F L pre).numVregs }) →
      F' = { F with blocks := F'.blocks, numVregs := F'.numVregs } := fun pass h hpass =>
    overLoops_keeps h (P := fun F₁ => F₁ = { F with blocks := F₁.blocks, numVregs := F₁.numVregs })
      rfl fun F₁ L pre hF₁ => (hpass F₁ L pre).trans (by rw [hF₁])
  cases p with
  | constFold | cse | copyProp | constProp | peephole | jumpThreading | unreachableElim =>
    cases h
    rfl
  | deadCodeElim =>
    obtain ⟨p, rfl, -⟩ := (deadCodeElim_swept (bind_unreported h)).1.kept
    rfl
  | markUnsignedDiv => rw [(markUnsignedDiv_marked (bind_unreported h)).1]
  | licm => exact hloops licmLoop (bind_unreported h) fun _ _ _ => rfl
  | hoistLoopConstants =>
    exact hloops (hoistLoop hoistCmp) (bind_unreported h) fun _ _ _ => rfl
  | hoistMagicDiv => exact hloops (hoistLoop hintMagic) (bind_unreported h) fun _ _ _ => rfl
  | hoistDivModConstants =>
    exact hloops (hoistLoop hoistDivisor) (bind_unreported h) fun _ _ _ => rfl

/-- So a function inherits from what it was. -/
theorem Pass.exec_inherits {p : Pass} {changed : Bool} (hF : F.Ordered)
    (h : p.exec n F = .ok (F', changed)) : F.Inherits F' := by
  have hhead := p.exec_head h
  refine ⟨?_, ?_, ?_, ?_, p.exec_refs hF h⟩ <;> rw [hhead]

/-- So does the function that all the passes make of it. -/
theorem stages_inherits {opt : Bool} (hF : F.Ordered)
    (h : runStages (Pass.exec n) (stages opt) F = .ok F') : F.Inherits F' ∧ F'.Ordered := by
  have halong : StagesAlong (Pass.exec n) (fun _ F => F.Ordered) (stages opt) F :=
    .of_invariant (I := IRFunc.Ordered) (fun _ _ hF => hF)
      (fun _ _ _ _ hF h => Pass.exec_ordered hF h) hF
  exact runStages_rule (R := fun F F' => F.Ordered → F.Inherits F' ∧ F'.Ordered)
    (fun F hF => ⟨.refl F, hF⟩)
    (fun F₁ F₂ F₃ h h' hF => ⟨(h hF).1.trans (h' (h hF).2).1, (h' (h hF).2).2⟩)
    (fun p F F' changed _ h hF => ⟨p.exec_inherits hF h, p.exec_ordered hF h⟩) halong h hF

end Passes

/-! ## Modules -/

section Module

variable {funcs funcs' : List IRFunc} {globals : List IRGlobal}

/-- **A module whose code refers to nothing new**, with the functions there were. -/
theorem IRModule.Closed.of_refs (h : IRModule.Closed ⟨globals, funcs⟩)
    (hheads : ∀ F ∈ funcs, ∃ F' ∈ funcs', F'.name = F.name ∧ F'.returnsVoid = F.returnsVoid ∧
      F'.paramRegs = F.paramRegs)
    (hrefs : ∀ F' ∈ funcs', ∀ inst' ∈ F'.insts, inst'.refers = true →
      ∃ F ∈ funcs, ∃ inst ∈ F.insts, inst.SameRef inst') : IRModule.Closed ⟨globals, funcs'⟩ where
  globals F' hF' inst' hi hop := by
    have href : inst'.refers = true := by
      rcases hop with hop | hop <;> simp [Inst.refers, hop]
    obtain ⟨F, hF, inst, hi, hsame⟩ := hrefs F' hF' inst' hi href
    rw [hsame.op] at hop
    rw [hsame.gid]
    exact h.globals F hF inst hi hop
  calls F' hF' inst' hi hop := by
    obtain ⟨F, hF, inst, hi, hsame⟩ := hrefs F' hF' inst' hi (by simp [Inst.refers, hop])
    rw [hsame.op] at hop
    obtain ⟨G, hG, hname, hlen, hvoid⟩ := h.calls F hF inst hi hop
    obtain ⟨G', hG', hname', hvoid', hparams⟩ := hheads G hG
    refine ⟨G', hG', ?_, ?_, fun hd => ?_⟩
    · rw [hname', hname, hsame.callee]
    · rw [hparams, hlen, hsame.args]
    · rw [hvoid']
      refine hvoid fun hnone => hd ?_
      have hdst := hsame.dst
      rw [hnone] at hdst
      simpa using hdst

/-- **Inlining into one function** refers to nothing new. -/
theorem IRModule.Closed.inlineFunc (h : IRModule.Closed ⟨globals, funcs⟩) {i : Nat}
    (hi : i < funcs.length) :
    IRModule.Closed ⟨globals, funcs.set i (ToyC.inlineFunc funcs i).1⟩ := by
  have hgetD : funcs.getD i {} = funcs[i] := by simp [hi]
  have hcaller : funcs.getD i {} ∈ funcs := hgetD ▸ List.getElem_mem hi
  refine h.of_refs (fun F hF => ?_) fun F' hF' inst' hinst href => ?_
  · obtain ⟨j, hj⟩ := List.getElem?_of_mem hF
    by_cases hij : i = j
    · subst hij
      obtain rfl : funcs.getD i {} = F := by simp [List.getD_eq_getElem?_getD, hj]
      exact ⟨_, List.mem_set hi _, rfl, rfl, rfl⟩
    · refine ⟨F, List.mem_of_getElem? (i := j) ?_, rfl, rfl, rfl⟩
      rw [List.getElem?_set_ne hij, hj]
  · rcases List.mem_or_eq_of_mem_set hF' with hF | rfl
    · exact ⟨F', hF, inst', hinst, .refl _⟩
    · obtain ⟨b, hinst⟩ := IRFunc.mem_insts_iff.mp hinst
      rcases ((inlineFunc_inlinedInto funcs i).insts b).mem hinst with hinst | hmv |
        ⟨i₀, G, vBase, hG, inst, hcopied, rfl⟩
      · exact ⟨_, hcaller, inst', IRFunc.mem_insts_iff.mpr ⟨b, hinst⟩, .refl _⟩
      · simp [Inst.refers, hmv] at href
      · obtain ⟨-, -, -, -, j, -, hj⟩ := inlinedCallee_eq_some hG
        refine ⟨G, List.mem_of_getElem? hj, inst, IRFunc.mem_insts_iff.mpr ⟨0, hcopied⟩, ?_⟩
        exact ⟨rfl, rfl, rfl, List.length_map _, Option.isSome_map⟩

/-- The functions of a module, behind the passes. -/
theorem optimizeFuncs_inherits {opt : Bool} {n : Nat} (hord : ∀ F ∈ funcs, F.Ordered)
    (h : optimizeFuncs (Pass.exec n) opt funcs = .ok funcs') :
    List.Forall₂ (fun F F' => F.Inherits F' ∧ F'.Ordered) funcs funcs' := by
  induction funcs generalizing funcs' with
  | nil =>
    cases h
    exact .nil
  | cons F funcs ih =>
    rw [List.forall_mem_cons] at hord
    obtain ⟨F', hF', h⟩ := Outcome.bind_eq_ok.mp h
    obtain ⟨Fs, hFs, heq⟩ := Outcome.bind_eq_ok.mp h
    cases heq
    exact .cons (stages_inherits hord.1 hF') (ih hord.2 hFs)

/-- **The optimizer leaves a module that is in order**: with the symbols it had, code that refers to
what there is, and functions as the passes find them, with the parameters they had. -/
theorem optimizeIR_inherits {m M : IRModule} {opt : Bool} {n : Nat} (hclosed : m.Closed)
    (hord : ∀ F ∈ m.funcs, F.Ordered) (h : optimizeIR m opt n = .ok M) :
    M.globals = m.globals ∧ M.funcNames = m.funcNames ∧ M.Closed ∧
      ∀ F ∈ M.funcs, F.Ordered ∧
        ∃ F₀ ∈ m.funcs, F.numParams = F₀.numParams ∧ F.paramRegs = F₀.paramRegs := by
  obtain ⟨funcs', hfuncs', heq⟩ := Outcome.bind_eq_ok.mp h
  cases heq
  obtain ⟨hglobals, hnames, hclosed, hord, hparams⟩ : (inlined m opt).globals = m.globals ∧
      (inlined m opt).funcNames = m.funcNames ∧ (inlined m opt).Closed ∧
      (∀ F ∈ (inlined m opt).funcs, F.Ordered) ∧ ∀ F ∈ (inlined m opt).funcs,
        ∃ F₀ ∈ m.funcs, F.numParams = F₀.numParams ∧ F.paramRegs = F₀.paramRegs := by
    cases opt with
    | false => exact ⟨rfl, rfl, hclosed, hord, fun F hF => ⟨F, hF, rfl, rfl⟩⟩
    | true =>
      refine ⟨rfl, ?_, ?_, inlineSweeps_ordered hord 5, ?_⟩
      · refine inlineSweeps_keeps (P := fun Fs => Fs.map (·.name) = m.funcNames)
          (fun Fs i hi hFs => ?_) 5 rfl
        rw [map_name_set hi, hFs]
        show (Fs.getD i {}).name = Fs[i].name
        simp [hi]
      · exact inlineSweeps_keeps (P := fun Fs => IRModule.Closed ⟨m.globals, Fs⟩)
          (fun _ _ hi hFs => hFs.inlineFunc hi) 5 hclosed
      · refine inlineSweeps_keeps (P := fun Fs => ∀ F ∈ Fs, ∃ F₀ ∈ m.funcs,
          F.numParams = F₀.numParams ∧ F.paramRegs = F₀.paramRegs) (fun Fs i hi hFs F hF => ?_) 5
          fun F hF => ⟨F, hF, rfl, rfl⟩
        rcases List.mem_or_eq_of_mem_set hF with hF | rfl
        · exact hFs F hF
        · refine hFs (Fs.getD i {}) ?_
          simp [hi]
  have hall := optimizeFuncs_inherits hord hfuncs'
  have hback : ∀ F' ∈ funcs', ∃ F ∈ (inlined m opt).funcs, F.Inherits F' ∧ F'.Ordered :=
    fun F' hF' => exists_of_forall₂ hall hF'
  refine ⟨hglobals, ?_, hclosed.of_refs (fun F hF => ?_) fun F' hF' inst' hi href => ?_,
    fun F' hF' => ?_⟩
  · rw [← hnames]
    refine Eq.symm (List.forall₂_eq_eq_eq ▸ ?_)
    exact List.forall₂_map_left_iff.mpr (List.forall₂_map_right_iff.mpr
      (hall.imp fun _ _ h => h.1.name.symm))
  · obtain ⟨F', hF', hinh, -⟩ := exists_of_forall₂ (hall.flip) hF
    exact ⟨F', hF', hinh.name, hinh.returnsVoid, hinh.params⟩
  · obtain ⟨F, hF, hinh, -⟩ := hback F' hF'
    obtain ⟨inst, hi, hsame⟩ := hinh.refs inst' hi href
    exact ⟨F, hF, inst, hi, hsame⟩
  · obtain ⟨F, hF, hinh, hord'⟩ := hback F' hF'
    obtain ⟨F₀, hF₀, hnum, hregs⟩ := hparams F hF
    exact ⟨hord', F₀, hF₀, hinh.numParams.trans hnum, hinh.params.trans hregs⟩

end Module

/-! ## Accepted programs -/

section Accepted

open Sema IRGen

variable {m : Module} {m' : AModule} {A : Sema}

/-- The vregs of the parameters. -/
theorem genParams_fst (ps : List (String × SymId)) (g : IRGen) :
    (genParams ps g).1 = List.range' g.nextVreg ps.length := by
  induction ps generalizing g with
  | nil => rfl
  | cons p ps ih =>
    show g.nextVreg :: (genParams ps _).1 = _
    rw [ih]
    rfl

/-- The parameters of generated code have vregs of their own. -/
theorem generate_params_nodup {F : IRFunc} (hF : F ∈ (generate A m').funcs) :
    F.paramRegs.Nodup := by
  obtain ⟨fn, -, rfl⟩ := mem_genFuncs.mp hF
  rw [(genFunc_entry A fn).1, genParams_fst]
  exact List.nodup_range'

/-- What becomes of generated code. -/
theorem optimizeIR_accepted {M₀ M : IRModule} (h : analyze m = .ok (m', A))
    (hgen : generate? true A m' = some M₀) {opt : Bool} {n : Nat}
    (hM : optimizeIR M₀ opt n = .ok M) :
    M.globalNames ++ M.funcNames = m.symbols ∧ M.Closed ∧
      ∀ F ∈ M.funcs, F.Ordered ∧ F.paramRegs.length = F.numParams ∧ F.paramRegs.Nodup := by
  obtain ⟨rfl, hgenerated⟩ := generate_checked h hgen
  obtain ⟨hglobals, hnames, hclosed, hfuncs⟩ :=
    optimizeIR_inherits (generate_closed h) (fun F hF => (hgenerated F hF).2.1) hM
  refine ⟨?_, hclosed, fun F hF => ?_⟩
  · rw [hnames, IRModule.globalNames, hglobals]
    exact generate_symbols h
  · obtain ⟨hordered, F₀, hF₀, hnum, hregs⟩ := hfuncs F hF
    rw [hnum, hregs]
    exact ⟨hordered, generate_params hF₀, generate_params_nodup hF₀⟩

/-- **The optimizer of the host**, over generated code, does what the passes say, unless the folder
traps. -/
theorem optimizeIR?_generated {M₀ : IRModule} (h : analyze m = .ok (m', A))
    (hgen : generate? true A m' = some M₀) {opt : Bool} (hfolds : opt = true → M₀.FoldsSafely)
    (n : Nat) : optimizeIR? M₀ opt n = optimizeIR M₀ opt n := by
  cases opt with
  | false => exact optimizeIR?_plain_eq fun F hF => ((generate_checked h hgen).2 F hF).2.1.counted
  | true => exact optimizeIR?_eq (generate_inlined_ordered h hgen) (hfolds rfl n)

/-- The passes end. -/
theorem optimizeIR_generated {M₀ : IRModule} (h : analyze m = .ok (m', A))
    (hgen : generate? true A m' = some M₀) (opt : Bool) : ∃ n M, optimizeIR M₀ opt n = .ok M := by
  cases opt with
  | false => exact optimizeIR_plain_total M₀
  | true => exact optimizeIR_total (generate_inlined_ordered h hgen)

/-- **The optimizer leaves an accepted program in order**, with `-opt` and without, if the generator
finds a vreg for each variable it names. It ends, unless with `-opt` the folder is given the division
that traps; and its module has the symbols of the source, code that refers to what there is, vregs and
blocks in range, an entry without predecessors, and parameters of their own. -/
theorem optimizeIR_closed {M₀ : IRModule} (h : analyze m = .ok (m', A))
    (hgen : generate? true A m' = some M₀) (opt : Bool) :
    ((∃ n M, optimizeIR? M₀ opt n = .ok M) ↔ (opt = true → M₀.FoldsSafely)) ∧
      ∀ n M, optimizeIR? M₀ opt n = .ok M →
        M.globalNames ++ M.funcNames = m.symbols ∧ M.Closed ∧
          ∀ F ∈ M.funcs, F.Ordered ∧ F.paramRegs.length = F.numParams ∧ F.paramRegs.Nodup := by
  refine ⟨⟨?_, fun hfolds => ?_⟩, fun _ _ hM => optimizeIR_accepted h hgen (optimizeIR?_ok hM)⟩
  · rintro hends rfl
    exact (optimizeIR?_ends_iff (generate_inlined_ordered h hgen)).mp hends
  · simpa only [optimizeIR?_generated h hgen hfolds] using optimizeIR_generated h hgen opt

end Accepted

/-- `int f(int x) { return x + 1; } int main() { return f(2); }`. -/
def callModule : Module where
  items := [
    .func { name := "f", params := ["x"], body :=
      [.returnStmt 1 (some (.binary 1 .Add (.var 1 "x") (.number 1 1)))] },
    .func { name := "main", body := [.returnStmt 2 (some (.call 2 "f" [.number 2 2]))] }]

/-- What the optimizer makes of its code. -/
def callOptimized : IRModule where
  funcs := [
    { name := "f", numParams := 1, paramRegs := [0], numVregs := 2,
      blocks := [{
        insts := [{ op := .Add, dst := some 1, a := .reg 0, b := .imm 1 }]
        term := .Ret
        retHasVal := true
        retVal := .reg 1 }] },
    { name := "main", numVregs := 3,
      blocks := [{ term := .Ret, retHasVal := true, retVal := .imm 3 }] }]

/-- Its call is inlined, and it stays in order. -/
theorem callModule_closed :
    ∃ m' A M₀, Sema.analyze callModule = .ok (m', A) ∧ IRGen.generate? true A m' = some M₀ ∧
      optimizeIR? M₀ true 20 = .ok callOptimized ∧ callOptimized.Closed := by
  have hall : ∃ m' A M₀, Sema.analyze callModule = .ok (m', A) ∧
      IRGen.generate? true A m' = some M₀ ∧ optimizeIR? M₀ true 20 = .ok callOptimized :=
    ⟨_, _, _, rfl, rfl, by decide +kernel⟩
  obtain ⟨m', A, M₀, hA, hgen, hM⟩ := hall
  exact ⟨m', A, M₀, hA, hgen, hM, ((optimizeIR_closed hA hgen true).2 20 _ hM).2.1⟩

end ToyC
