import ToyC.IRGenPaths
import ToyC.IRGenRange
import ToyC.Parser

/-!
# Generated code reads no register without a value

A function that is lowered without asking for a missing vreg names only vregs it has, and reads one
before it is written exactly where the tree has a path that reads a variable first, parameters apart
(`genFunc_readsWritten_iff`). So both hold of all functions of a module if and only if the tree is
`Initialised` (`generate_initialised_iff`). The analysis does not see to that: it makes a variable
visible in the enclosing scope even when its declaration is the whole branch of a conditional.
-/

namespace ToyC

/-! ## No variable -/

section None

variable (S : Sema)

theorem AExpr.isVar_none (e : AExpr) : e.isVar S (fun _ => false) = false := by
  match e with
  | .unary note .Plus operand => simp [AExpr.isVar, AExpr.isVar_none operand]
  | .number _ _ | .var _ _ _ | .binary _ _ _ _ | .logical _ _ _ _ | .unary _ .Neg _
  | .unary _ .Not _ | .call _ _ _ _ => simp [AExpr.isVar]

mutual
/-- **No code reads what is no variable** before it is written. -/
theorem AExpr.reads_none (e : AExpr) : e.reads S (fun _ => false) = false := by
  match e with
  | .number _ _ | .var _ _ _ => rfl
  | .binary note op lhs rhs =>
    simp [AExpr.reads, lhs.reads_none, rhs.reads_none, AExpr.isVar_none]
  | .logical note isOr lhs rhs => simp [AExpr.reads, lhs.condReads_none, rhs.condReads_none]
  | .unary note op operand =>
    cases op <;> simp [AExpr.reads, operand.reads_none, AExpr.isVar_none]
  | .call note _ args _ => simp [AExpr.reads, AExpr.argsRead_none args]
theorem AExpr.argsRead_none (es : List AExpr) : AExpr.argsRead S (fun _ => false) es = false := by
  match es with
  | [] => rfl
  | e :: es => simp [AExpr.argsRead, e.reads_none, AExpr.isVar_none, AExpr.argsRead_none es]
theorem AExpr.condReads_none (e : AExpr) : e.condReads S (fun _ => false) = false := by
  match e with
  | .number _ _ => rfl
  | .var _ _ _ => simp [AExpr.condReads, AExpr.isVar_none]
  | .binary note op lhs rhs =>
    simp [AExpr.condReads, lhs.reads_none, rhs.reads_none, AExpr.isVar_none]
  | .logical note isOr lhs rhs => simp [AExpr.condReads, lhs.condReads_none, rhs.condReads_none]
  | .unary note op operand =>
    cases op <;> simp [AExpr.condReads, operand.reads_none, operand.condReads_none,
      AExpr.isVar_none]
  | .call note _ args _ => simp [AExpr.condReads, AExpr.argsRead_none args]
end

theorem AExpr.uses_none (e : AExpr) : e.uses S (fun _ => false) = false := by
  simp [AExpr.uses, e.reads_none, e.isVar_none]

mutual
theorem AStmt.paths_none (s : AStmt) : (s.paths S (fun _ => false)).reads = false := by
  match s with
  | .block ss => simp [AStmt.paths, AStmt.pathsAll_none ss]
  | .empty | .breakStmt | .continueStmt | .returnStmt none => rfl
  | .exprStmt e => simp [AStmt.paths, e.reads_none]
  | .varDecl isConst _ init _ => cases isConst <;> simp [AStmt.paths, init.uses_none]
  | .assign _ _ value | .returnStmt (some value) => simp [AStmt.paths, value.uses_none]
  | .ifStmt cond then_ none =>
    have ht := then_.paths_none
    simp only [AStmt.paths]
    split
    · split
      · exact ht
      · rfl
    · simp [Paths.or, Paths.guard, cond.condReads_none, ht]
  | .ifStmt cond then_ (some else_) =>
    have ht := then_.paths_none
    have he := else_.paths_none
    simp only [AStmt.paths]
    split
    · split
      · exact ht
      · exact he
    · simp [Paths.or, Paths.guard, cond.condReads_none, ht, he]
  | .whileStmt cond body =>
    simp [AStmt.paths, Paths.loop, cond.condReads_none, body.paths_none]
theorem AStmt.pathsAll_none (ss : List AStmt) :
    (AStmt.pathsAll S (fun _ => false) ss).reads = false := by
  match ss with
  | [] => rfl
  | s :: ss =>
    simp [AStmt.pathsAll, Paths.seq, Paths.or, Paths.guard, s.paths_none, AStmt.pathsAll_none ss]
end

end None

/-! ## Leaving loops -/

namespace IRGen

open Sema

section Exits

variable {A : Sema} {p : SymId → Bool}

mutual
/-- Outside of loops there is none to leave. -/
theorem paths_exits {S S' : Sema} {s : Stmt} {s' : AStmt} (h : analyzeStmt S s = .ok (s', S'))
    (hd : S.loopDepth = 0) :
    (s'.paths A p).breaks = false ∧ (s'.paths A p).continues = false := by
  match s with
  | .block _ ss =>
    simp only [analyzeStmt, bind_eq_ok, Prod.exists] at h
    obtain ⟨ss', S₁, hss, h⟩ := h
    cases h
    exact pathsAll_exits hss hd
  | .empty _ =>
    cases h
    exact ⟨rfl, rfl⟩
  | .exprStmt _ e =>
    simp only [analyzeStmt, bind_eq_ok] at h
    obtain ⟨e', -, h⟩ := h
    cases h
    exact ⟨rfl, rfl⟩
  | .assign line x value =>
    simp only [analyzeStmt, bind_eq_ok] at h
    obtain ⟨s₁, hs₁, h⟩ := h
    cases h
    unfold analyzeAssign at hs₁
    split at hs₁
    · cases hs₁
    · split at hs₁
      · cases hs₁
      · simp only [bind_eq_ok] at hs₁
        obtain ⟨value', -, hs₁⟩ := hs₁
        cases hs₁
        exact ⟨rfl, rfl⟩
  | .varDecl line isConst x init =>
    simp only [analyzeStmt, analyzeVarDecl, bind_eq_ok] at h
    obtain ⟨init', -, h⟩ := h
    split at h
    · split at h
      · cases h
      · cases h
        exact ⟨rfl, rfl⟩
    · cases h
      exact ⟨rfl, rfl⟩
  | .ifStmt _ cond then_ none =>
    simp only [analyzeStmt, bind_eq_ok, Prod.exists] at h
    obtain ⟨cond', -, then', S₁, hthen, h⟩ := h
    cases h
    have ht := paths_exits hthen hd
    simp only [AStmt.paths]
    split
    · split
      · exact ht
      · exact ⟨rfl, rfl⟩
    · simp [Paths.or, Paths.guard, ht]
  | .ifStmt _ cond then_ (some else_) =>
    simp only [analyzeStmt, bind_eq_ok, Prod.exists] at h
    obtain ⟨cond', -, then', S₁, hthen, else', S₂, helse, h⟩ := h
    cases h
    have ht := paths_exits hthen hd
    have he := paths_exits helse ((analyzeStmt_grows hthen).loopDepth.trans hd)
    simp only [AStmt.paths]
    split
    · split
      · exact ht
      · exact he
    · simp [Paths.or, Paths.guard, ht, he]
  | .whileStmt _ cond body =>
    simp only [analyzeStmt, bind_eq_ok, Prod.exists] at h
    obtain ⟨cond', -, body', S₁, hbody, h⟩ := h
    cases h
    exact ⟨rfl, rfl⟩
  | .breakStmt line | .continueStmt line =>
    simp only [analyzeStmt, hd, if_true] at h
    cases h
  | .returnStmt _ none =>
    cases h
    exact ⟨rfl, rfl⟩
  | .returnStmt _ (some value) =>
    simp only [analyzeStmt, bind_eq_ok] at h
    obtain ⟨value', -, h⟩ := h
    cases h
    exact ⟨rfl, rfl⟩
/-- The same for the statements of a block. -/
theorem pathsAll_exits {S S' : Sema} {ss : List Stmt} {ss' : List AStmt}
    (h : analyzeStmts S ss = .ok (ss', S')) (hd : S.loopDepth = 0) :
    (AStmt.pathsAll A p ss').breaks = false ∧ (AStmt.pathsAll A p ss').continues = false := by
  match ss with
  | [] =>
    cases h
    exact ⟨rfl, rfl⟩
  | s :: ss =>
    simp only [analyzeStmts, bind_eq_ok, Prod.exists] at h
    obtain ⟨s', S₁, hs, ss', S₂, hss, h⟩ := h
    cases h
    have h₁ := paths_exits hs hd
    have h₂ := pathsAll_exits hss ((analyzeStmt_grows hs).loopDepth.trans hd)
    simp [AStmt.pathsAll, Paths.seq, Paths.or, Paths.guard, h₁, h₂]
end

end Exits

/-! ## Functions -/

/-- **The vregs of the parameters.** -/
theorem genParams_vregs (ps : List String) {S : Sema} {g : IRGen} (hg : g.WF)
    (hfresh : g.Fresh S.arena.length) :
    (genParams (declareParams S ps).1 g).2.WF ∧
      (genParams (declareParams S ps).1 g).2.Fresh (declareParams S ps).2.arena.length ∧
      Extends S.arena.length (declareParams S ps).2.arena.length g
        (genParams (declareParams S ps).1 g).2 ∧
      ∀ v, v ∈ (genParams (declareParams S ps).1 g).1 ↔ ∃ x ∈ (declareParams S ps).1.map (·.2),
        (genParams (declareParams S ps).1 g).2.irId.lookup x = some v := by
  induction ps generalizing S g with
  | nil =>
    exact ⟨hg, hfresh, .of_lookup (fun _ => rfl) (Nat.le_refl _), by simp [declareParams, genParams]⟩
  | cons p ps ih =>
    obtain ⟨hbind, hsym⟩ := bindVreg_extends hfresh
    have hwf := (bindVreg_grows (k := 0) hg (Nat.zero_le S.arena.length)).wf
    have hlen : (S.declare { kind := .Param, name := p }).2.arena.length = S.arena.length + 1 := by
      simp [declare]
    rw [← hlen] at hbind
    have hle := (declareParams_grows (S.declare { kind := .Param, name := p }).2 ps).length_le
    have hle₁ : S.arena.length ≤ (S.declare { kind := .Param, name := p }).2.arena.length := by
      omega
    obtain ⟨hw, hf, hext, hregs⟩ := ih hwf (hbind.fresh hle₁ hfresh)
    refine ⟨hw, hf, hbind.trans hext hle₁ hle, fun v => ?_⟩
    have hkept := hext.kept _ _ hsym
    constructor
    · intro hv
      rcases List.mem_cons.mp hv with rfl | hv
      · exact ⟨S.arena.length, List.mem_cons_self, hkept⟩
      · obtain ⟨x, hx, hlook⟩ := (hregs v).mp hv
        exact ⟨x, List.mem_cons_of_mem _ hx, hlook⟩
    · rintro ⟨x, hx, hlook⟩
      rcases List.mem_cons.mp hx with rfl | hx
      · exact List.mem_cons.mpr (.inl (Option.some.inj (hlook.symm.trans hkept)))
      · exact List.mem_cons_of_mem _ ((hregs v).mpr ⟨x, hx, hlook⟩)

/-- Nothing is read at the end of a body. -/
theorem live_finish {F : IRFunc} {X : Finset Nat} {v : Nat} {g : IRGen} (hg : g.WF)
    (hopen : g.isSealed = false) (hc : Covers F g.finish) : ¬Live F X v g := by
  intro hv
  unfold finish at hc
  rw [hopen, if_neg Bool.false_ne_true] at hc
  split at hc
  · exact Bool.false_ne_true ((live_termRet hg hopen hc).mp hv).1
  · cases ((live_termRet hg hopen hc).mp hv).2

section Functions

variable {A S S' : Sema} {fn₀ : FuncDef} {fn : AFuncDef}

/-- The generator behind the body of a function. -/
def behindBody (A : Sema) (fn : AFuncDef) : IRGen :=
  genStmt A fn.body (genParams fn.params (entry fn.returnsVoid)).2

/-- The registers and the blocks of a function, and the entry. -/
theorem genFunc_entry (A : Sema) (fn : AFuncDef) :
    (genFunc A fn).paramRegs = (genParams fn.params (entry fn.returnsVoid)).1 ∧
      Covers (genFunc A fn) (behindBody A fn).finish ∧
      ∀ (X : Finset Nat) (v : Nat),
        Live (genFunc A fn) X v (genParams fn.params (entry fn.returnsVoid)).2 ↔
        (genFunc A fn).LiveOutside X 0 ((genFunc A fn).blockAt 0).insts v := by
  refine ⟨?_, covers_computeCFG _ _ ?_, fun X v => ?_⟩
  · have hblocks := genParams_blocks fn.params { curReturnsVoid := fn.returnsVoid } [{ id := 0 }]
    exact (congrArg Prod.fst hblocks).symm
  · show (genBody A fn (genParams fn.params { curReturnsVoid := fn.returnsVoid }).2).blocks = _
    rw [genBody_eq, genParams_entry]
    rfl
  · rw [Live, rest, genParams_snd]
    rfl

/-- **What a generated function reads first**, of a vreg that belongs to some variables. -/
theorem genFunc_live (h : analyzeFunc S fn₀ = .ok (fn, S')) (hdepth : S.loopDepth = 0)
    (hB : (fn.body.bound A fn.paramSyms).isSome) :
    (behindBody A fn).WF ∧
      (∀ v, v ∈ (genFunc A fn).paramRegs ↔
        ∃ x ∈ fn.paramSyms, (behindBody A fn).irId.lookup x = some v) ∧
      ∀ p v, (behindBody A fn).Names p v →
        ((genFunc A fn).LiveAt 0 ((genFunc A fn).blockAt 0).insts v →
          (fn.body.paths A p).reads = true) ∧
        (Named v (behindBody A fn) → (fn.body.paths A p).reads = true →
          (genFunc A fn).LiveAt 0 ((genFunc A fn).blockAt 0).insts v) := by
  obtain ⟨hregs, hcov, hentry⟩ := genFunc_entry A fn
  simp only [analyzeFunc, bind_eq_ok, Prod.exists] at h
  obtain ⟨body, S₁, hbody, h⟩ := h
  cases h
  obtain ⟨B, hB⟩ := Option.isSome_iff_exists.mp hB
  obtain ⟨hw, hfresh, -, hvregs⟩ := genParams_vregs fn₀.params (S := S.pushScope)
    (entry_wf fn₀.returnsVoid) fun _ _ h => by cases h
  have hbinds : (genParams (declareParams S.pushScope fn₀.params).1
      (entry fn₀.returnsVoid)).2.Binds
        ((declareParams S.pushScope fn₀.params).1.map (·.2)).reverse := fun x hx =>
    mem_keys.mp (by rw [genParams_keys]; exact List.mem_append_left _ hx)
  have hwrites := genStmt_writes (A := A) hbody (Nat.zero_le _) _ hw
  have hflows := fun F p v => genStmt_flows (F := F) (p := p) (v := v) hbody hB
  obtain ⟨hext, -, -⟩ := hflows {} (fun _ => false) 0 (X := ∅) hw hfresh hbinds fun _ h => by simp at h
  refine ⟨hwrites.wf, fun v => ?_, fun p v hnames => ?_⟩
  · rw [hregs, hvregs]
    constructor
    · rintro ⟨x, hx, hlook⟩
      exact ⟨x, List.mem_reverse.mpr hx, hext.kept x v hlook⟩
    · rintro ⟨x, hx, hlook⟩
      obtain ⟨r, hr⟩ := hbinds x hx
      cases (hext.kept x r hr).symm.trans hlook
      exact ⟨x, List.mem_reverse.mp hx, hr⟩
  · obtain ⟨-, -, hflow⟩ := hflows _ p v (X := ∅) hw hfresh hbinds fun _ h => by simp at h
    have hopen : (genParams (declareParams S.pushScope fn₀.params).1
        (entry fn₀.returnsVoid)).2.isSealed = false := by
      rw [genParams_snd]
      rfl
    have hcov' := finish_covers hwrites.wf hcov
    have f := hflow hopen hnames hcov'
    obtain ⟨hbreaks, hcontinues⟩ := paths_exits (A := A) (p := p) hbody (by
      rw [(declareParams_grows S.pushScope fn₀.params).loopDepth]
      exact hdepth)
    have hend : ∀ hp : (body.paths A p).passes = true, ¬Live _ ∅ v _ := fun hp =>
      live_finish hwrites.wf (f.opened hp) hcov
    rw [← IRFunc.LiveOutside.iff_liveAt, ← hentry]
    refine ⟨fun hv => ?_, fun hn hv => f.back hn (.inl hv)⟩
    rcases f.live hv with hv | ⟨hp, hv⟩ | ⟨hb, -⟩ | ⟨hc, -⟩
    · exact hv
    · exact absurd hv (hend hp)
    · rw [hbreaks] at hb
      cases hb
    · rw [hcontinues] at hc
      cases hc

/-- A vreg that was given out to a variable belongs to no other. -/
theorem names_of_lookup {g : IRGen} (hg : g.WF) {x : SymId} {v : Nat}
    (h : g.irId.lookup x = some v) : g.Names (· == x) v := by
  intro sym r hr
  rw [beq_iff_eq]
  constructor
  · rintro rfl
    exact Option.some.inj (hr.symm.trans h)
  · rintro rfl
    exact hg.irId_inj sym x r hr h

/-- **A generated function reads what was written** if and only if the tree has no path that reads a
variable first, parameters apart. -/
theorem genFunc_readsWritten_iff (h : analyzeFunc S fn₀ = .ok (fn, S')) (hdepth : S.loopDepth = 0)
    (hB : (fn.body.bound A fn.paramSyms).isSome) :
    (genFunc A fn).ReadsWritten ↔
      ∀ x, x ∉ fn.paramSyms → (fn.body.paths A (· == x)).reads = false := by
  obtain ⟨hwf, hregs, hlive⟩ := genFunc_live h hdepth hB
  constructor
  · intro hF x hx
    by_contra hreads
    rw [Bool.not_eq_false] at hreads
    cases hlook : (behindBody A fn).irId.lookup x with
    | some v =>
      have hnames := names_of_lookup hwf hlook
      obtain ⟨y, hy, hv⟩ := (hregs v).mp (hF v ((hlive _ v hnames).2 (.inl ⟨x, hlook⟩) hreads))
      exact hx (hwf.irId_inj y x v hv hlook ▸ hy)
    | none =>
      -- A variable without a vreg has the number of one that is not given out.
      have hnames : (behindBody A fn).Names (· == x) (behindBody A fn).nextVreg := fun sym r hr => by
        rw [beq_iff_eq]
        constructor
        · rintro rfl
          rw [hlook] at hr
          cases hr
        · rintro rfl
          exact absurd (hwf.irId_lt sym _ hr) (Nat.lt_irrefl _)
      obtain ⟨y, -, hv⟩ := (hregs _).mp
        (hF _ ((hlive _ _ hnames).2 (.inr (Nat.le_refl _)) hreads))
      exact Nat.lt_irrefl _ (hwf.irId_lt y _ hv)
  · intro hall v hv
    by_contra hmem
    by_cases hvar : ∃ x, (behindBody A fn).irId.lookup x = some v
    · obtain ⟨x, hx⟩ := hvar
      have hnames := names_of_lookup hwf hx
      have hreads := (hlive _ v hnames).1 hv
      rw [hall x fun hp => hmem ((hregs v).mpr ⟨x, hp, hx⟩)] at hreads
      cases hreads
    · have hnames : (behindBody A fn).Names (fun _ => false) v := fun sym r hr =>
        iff_of_false Bool.false_ne_true fun heq => hvar ⟨sym, heq ▸ hr⟩
      have hreads := (hlive _ v hnames).1 hv
      rw [AStmt.paths_none] at hreads
      cases hreads

end Functions

/-! ## Modules -/

theorem mem_genFuncs {A : Sema} {items : List ATopLevel} {F : IRFunc} :
    F ∈ genFuncs A items ↔ ∃ fn, .func fn ∈ items ∧ F = genFunc A fn := by
  induction items with
  | nil => simp [genFuncs]
  | cons item items ih => cases item <;> simp [genFuncs, ih]

/-- The functions of a module were analysed outside of loops, with tables in order. -/
theorem analyze_func {m : Module} {m' : AModule} {A : Sema} (h : analyze m = .ok (m', A))
    {fn : AFuncDef} (hfn : .func fn ∈ m'.items) :
    ∃ S S' fn₀, analyzeFunc S fn₀ = .ok (fn, S') ∧ S.loopDepth = 0 ∧ S.InOrder := by
  obtain ⟨regs, S₀, S₁, hregs, -, -, hall, -, -⟩ := analyze_ok h
  have hdepth := registerItems_loopDepth hregs
  have hin : S₀.InOrder := registerItems_inOrder hregs ⟨by simp [pushScope], by simp [pushScope]⟩
  clear hregs
  generalize m'.items = items at hall hfn
  induction hall with
  | nil => cases hfn
  | cons hitem _ ih =>
    rcases List.mem_cons.mp hfn with heq | hfn
    · cases hitem with
      | global g => cases heq
      | func grows body later =>
        cases heq
        exact ⟨_, _, _, body, grows.loopDepth.trans hdepth, grows.inOrder hin⟩
    · exact ih hfn

/-- The functions of an accepted module are at different places if they have different names. -/
theorem analyze_name_inj {m : Module} {m' : AModule} {A : Sema} (h : analyze m = .ok (m', A))
    {i j : Nat} {fn fn' : AFuncDef}
    (hi : m'.items[i]? = some (.func fn)) (hj : m'.items[j]? = some (.func fn'))
    (hname : fn.name = fn'.name) : i = j := by
  obtain ⟨regs, S₀, S₁, -, -, htab, hall, -, -⟩ := analyze_ok h
  have hfunc : ∀ {i : Nat} {fn : AFuncDef}, m'.items[i]? = some (.func fn) →
      ∃ fn₀ : FuncDef, regs[i]? = some (.func fn₀) ∧ fn.name = fn₀.name := by
    intro i fn hi
    rcases forall₂_getElem? hall i with ⟨-, hn⟩ | ⟨reg, item, hreg, hitem, hR⟩
    · rw [hn] at hi
      cases hi
    · obtain rfl := Option.some.inj (hitem.symm.trans hi)
      cases hR with
      | @func fn₀ _ S S' _ body _ =>
        refine ⟨fn₀, hreg, ?_⟩
        simp only [analyzeFunc, bind_eq_ok, Prod.exists] at body
        obtain ⟨_, _, -, body⟩ := body
        cases body
        rfl
  obtain ⟨fn₀, hreg, heq⟩ := hfunc hi
  obtain ⟨fn₀', hreg', heq'⟩ := hfunc hj
  obtain ⟨r, hr, rfl⟩ := htab.funcs_complete hreg
  obtain ⟨r', hr', rfl⟩ := htab.funcs_complete hreg'
  rw [← heq, hname, heq', hr'] at hr
  exact congrArg _ (Option.some.inj hr).symm

theorem genFuncs_names_nodup {A : Sema} {items : List ATopLevel}
    (h : ∀ (i j : Nat) (fn fn' : AFuncDef), items[i]? = some (.func fn) →
      items[j]? = some (.func fn') → fn.name = fn'.name → i = j) :
    ((genFuncs A items).map (·.name)).Nodup := by
  induction items with
  | nil => exact List.nodup_nil
  | cons item items ih =>
    have hrest := ih fun i j fn fn' hi hj hname =>
      Nat.succ.inj (h (i + 1) (j + 1) fn fn' hi hj hname)
    cases item with
    | global g => exact hrest
    | func fn =>
      refine List.nodup_cons.mpr ⟨fun hmem => ?_, hrest⟩
      obtain ⟨F, hF, hname⟩ := List.mem_map.mp hmem
      obtain ⟨fn', hfn', rfl⟩ := mem_genFuncs.mp hF
      obtain ⟨j, hj⟩ := List.mem_iff_getElem?.mp hfn'
      exact absurd (h 0 (j + 1) fn fn' rfl hj hname.symm) (by simp)

/-- **Generated code names only registers that exist, and reads none that has no value, if and only
if the tree is initialised**: the generator finds a vreg for each variable it names, all operands,
results, conditions and returned values are among the vregs of their function, and on each path from
the entry a register is written before it is read; this is so of all functions of an accepted module
exactly when no variable is named whose declaration was not lowered before, and no path reads one
before it writes it. -/
theorem generate_initialised_iff {m : Module} {m' : AModule} {A : Sema}
    (h : analyze m = .ok (m', A)) :
    (∃ M, generate? true A m' = some M ∧ ∀ F ∈ M.funcs, F.InRange ∧ F.ReadsWritten) ↔
      m'.Initialised A := by
  constructor
  · rintro ⟨M, hM, hF⟩ fn hfn
    obtain ⟨hbound, rfl⟩ := (generate?_iff h M).mp hM
    obtain ⟨S, S', fn₀, hfunc, hdepth, -⟩ := analyze_func h hfn
    refine ⟨hbound fn hfn, (genFunc_readsWritten_iff hfunc hdepth (hbound fn hfn)).mp ?_⟩
    exact (hF _ (mem_genFuncs.mpr ⟨fn, hfn, rfl⟩)).2
  · intro hinit
    refine ⟨_, (generate?_iff h _).mpr ⟨fun fn hfn => (hinit fn hfn).bound, rfl⟩, fun F hF => ?_⟩
    obtain ⟨fn, hfn, rfl⟩ := mem_genFuncs.mp hF
    obtain ⟨S, S', fn₀, hfunc, hdepth, -⟩ := analyze_func h hfn
    have hbound := (hinit fn hfn).bound
    obtain ⟨hruns, hgraph⟩ := genFunc_runs (A := A) hfunc hdepth
    have hchecked : genFunc? true A fn = some (genFunc A fn) := by
      rw [genFunc?_eq, if_pos hbound, hruns]
    exact ⟨genFunc?_inRange hchecked hgraph.succs,
      (genFunc_readsWritten_iff hfunc hdepth hbound).mpr (hinit fn hfn).paths⟩

/-- A loop that counts a variable down. -/
def countModule : Module where
  items := [.func { name := "main", body :=
    [.varDecl 2 false "x" (.number 2 3),
      .whileStmt 3 (.var 3 "x") (.assign 3 "x" (.binary 3 .Sub (.var 3 "x") (.number 3 1))),
      .returnStmt 4 (some (.var 4 "x"))] }]

/-- Its variable has a value wherever it is read. -/
theorem countModule_initialised :
    ∃ m' A, analyze countModule = .ok (m', A) ∧
      ∃ M, generate? true A m' = some M ∧ ∀ F ∈ M.funcs, F.InRange ∧ F.ReadsWritten := by
  refine ⟨_, _, rfl, (generate_initialised_iff (m := countModule) rfl).mpr fun fn hfn => ?_⟩
  obtain rfl := ATopLevel.func.inj (List.mem_singleton.mp hfn)
  refine ⟨by decide, fun x _ => ?_⟩
  cases x with
  | zero => decide +kernel
  | succ n => rfl

/-- The tokens of `int main() \x7b if (0) int x = 1; return x; \x7d`: the declaration is a branch
that is never lowered. -/
def prunedDecl : List Token :=
  [{ kind := .Kw_int }, { kind := .Ident, text := "main" }, { kind := .LParen },
    { kind := .RParen }, { kind := .LBrace },
    { kind := .Kw_if }, { kind := .LParen }, { kind := .Number }, { kind := .RParen },
    { kind := .Kw_int }, { kind := .Ident, text := "x" }, { kind := .Assign },
    { kind := .Number, value := 1 }, { kind := .Semi },
    { kind := .Kw_return }, { kind := .Ident, text := "x" }, { kind := .Semi },
    { kind := .RBrace }, { kind := .Eof }]

/-- The tokens of `int main() \x7b int c = f(); if (c) int x = 1; return x; \x7d`, behind a function
`f` that returns 0: the declaration is a branch that is not taken. -/
def skippedDecl : List Token :=
  [{ kind := .Kw_int }, { kind := .Ident, text := "f" }, { kind := .LParen },
    { kind := .RParen }, { kind := .LBrace },
    { kind := .Kw_return }, { kind := .Number }, { kind := .Semi }, { kind := .RBrace },
    { kind := .Kw_int }, { kind := .Ident, text := "main" }, { kind := .LParen },
    { kind := .RParen }, { kind := .LBrace },
    { kind := .Kw_int }, { kind := .Ident, text := "c" }, { kind := .Assign },
    { kind := .Ident, text := "f" }, { kind := .LParen }, { kind := .RParen }, { kind := .Semi },
    { kind := .Kw_if }, { kind := .LParen }, { kind := .Ident, text := "c" }, { kind := .RParen },
    { kind := .Kw_int }, { kind := .Ident, text := "x" }, { kind := .Assign },
    { kind := .Number, value := 1 }, { kind := .Semi },
    { kind := .Kw_return }, { kind := .Ident, text := "x" }, { kind := .Semi },
    { kind := .RBrace }, { kind := .Eof }]

/-- **Accepted programs make the generator name a register that does not exist, or read one that
has no value.** -/
theorem generate_uninitialised :
    (∃ m m' A, Parser.parseModule prunedDecl = .ok m ∧ analyze m = .ok (m', A) ∧
      generate? true A m' = none) ∧
    (∃ m m' A, Parser.parseModule skippedDecl = .ok m ∧ analyze m = .ok (m', A) ∧
      ∃ M, generate? true A m' = some M ∧ ∃ F ∈ M.funcs, F.name = "main" ∧ ¬F.ReadsWritten) := by
  refine ⟨⟨_, _, _, rfl, rfl, by decide +kernel⟩, ⟨_, _, _, rfl, rfl, _, rfl, _, .tail _ (.head _),
    rfl, fun h => ?_⟩⟩
  -- Vreg 2 is that of `x`: the branch around its declaration leads to the `return`.
  have hlive := h 2 (.pass (by decide) (.pass (by decide)
    (.succ (List.mem_cons_of_mem _ List.mem_cons_self) (.term (by decide)))))
  exact absurd hlive (by decide)

end IRGen

end ToyC
