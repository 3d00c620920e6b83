import ToyC.IRGenStmt
import ToyC.SemaItems

/-!
# The front end preserves the meaning of a module

A function is run as its body is, between the entry of the parameters and the return
that the generator adds behind a body that can be left at its end. The two meanings of
a module are limits of the same kind, over the functions of the source and over those
of the three-address code, so each is bounded by the other once a body is executed the
same way against the same answers of its callees.
-/

namespace ToyC

namespace IRGen

open Sema Machine

/-! ## Parameters -/

/-- A new variable, with its vreg and its value. -/
theorem Ready.bindVar {voids : Voids} {A S : Sema} {g : IRGen} {R : Regs} {env : Env}
    (h : Ready voids A S g R env) {sym : Symbol} (hc : sym.isConst = false)
    (hk : sym.kind ≠ .GlobalVar) (hA : (S.declare sym).2.arena <+: A.arena) (v : Word) :
    Ready voids A (S.declare sym).2
      { g.newVreg.2 with irId := (S.arena.length, g.nextVreg) :: g.irId }
      (R.set g.nextVreg v) (env.declare sym.name (.var v)) := by
  have hbind := bindVreg_grows (k := S.arena.length) h.wf (Nat.le_refl _)
  refine ⟨h.static.grows (grows_declare S sym) hA, hbind.wf, h.opened, h.depth, ?_⟩
  rw [declare_scopes]
  refine (h.env.of_irId h.static.inOrder h.wf hbind.irId (.set R v (Nat.le_refl _))).declare
    sym.name ⟨by rw [symbol_declare hA, hc], by rwa [symbol_declare hA], g.nextVreg, ?_,
      R.set_same _ _⟩
  simp

/-- **The entry of the parameters.** -/
theorem genParams_ready {voids : Voids} {A : Sema} {ps : List String} :
    ∀ {S : Sema} {g : IRGen} {R : Regs} {env : Env} {args : List Word},
      args.length = ps.length → Ready voids A S g R env →
      (declareParams S ps).2.arena <+: A.arena →
      Ready voids A (declareParams S ps).2 (genParams (declareParams S ps).1 g).2
        (IRFunc.entryRegs R (genParams (declareParams S ps).1 g).1 args)
        (bindParams env ps args) := by
  induction ps with
  | nil =>
    intro S g R env args hlen h hA
    rw [List.length_eq_zero_iff.mp hlen]
    exact h
  | cons p ps ih =>
    intro S g R env args hlen h hA
    cases args with
    | nil => cases hlen
    | cons v vs =>
      have hA₁ := prefix_of_grows (declareParams_grows (S.declare { kind := .Param, name := p }).2
        ps) hA
      exact ih (Nat.succ.inj hlen) (h.bindVar rfl (by simp) hA₁ v) hA

/-- The parameters only take vregs, whatever blocks there are. -/
theorem genParams_blocks (ps : List (String × SymId)) (g : IRGen) (blocks : List BasicBlock) :
    genParams ps { g with blocks } =
      ((genParams ps g).1, { (genParams ps g).2 with blocks }) := by
  induction ps generalizing g with
  | nil => rfl
  | cons p ps ih =>
    have h := ih { g.newVreg.2 with irId := (p.2, g.nextVreg) :: g.irId }
    unfold genParams
    exact congrArg (fun q : List Nat × IRGen => (g.nextVreg :: q.1, q.2)) h

theorem genParams_snd (ps : List (String × SymId)) (g : IRGen) :
    (genParams ps g).2 = { g with
      nextVreg := (genParams ps g).2.nextVreg
      irId := (genParams ps g).2.irId } := by
  induction ps generalizing g with
  | nil => rfl
  | cons p ps ih => exact ih _

theorem genParams_length (ps : List (String × SymId)) (g : IRGen) :
    (genParams ps g).1.length = ps.length := by
  induction ps generalizing g with
  | nil => rfl
  | cons p ps ih => exact congrArg (· + 1) (ih _)

theorem declareParams_length (S : Sema) (ps : List String) :
    (declareParams S ps).1.length = ps.length := by
  induction ps generalizing S with
  | nil => rfl
  | cons p ps ih => exact congrArg (· + 1) (ih _)

/-! ## Functions -/

/-- The generator at the entry of a function: one block, still empty. -/
def entry (returnsVoid : Bool) : IRGen :=
  { curReturnsVoid := returnsVoid, blocks := [{ id := 0 }] }

theorem entry_wf (returnsVoid : Bool) : (entry returnsVoid).WF where
  cur_lt := Nat.zero_lt_one
  opened _ := rfl
  irId_lt id r h := by cases h
  irId_inj id id' r h := by cases h
  loops_lt l h := by cases h

/-- The state the body of a function is lowered in. -/
theorem genParams_entry (ps : List (String × SymId)) (returnsVoid : Bool) :
    (genParams ps { curReturnsVoid := returnsVoid }).2.newBlock.2.startBlock
        (genParams ps { curReturnsVoid := returnsVoid }).2.newBlock.1 =
      (genParams ps (entry returnsVoid)).2 := by
  have hentry := genParams_blocks ps { curReturnsVoid := returnsVoid } [{ id := 0 }]
  rw [show entry returnsVoid = { ({ curReturnsVoid := returnsVoid } : IRGen) with
    blocks := [{ id := 0 }] } from rfl, hentry, genParams_snd ps { curReturnsVoid := returnsVoid }]
  rfl

/-- A function that contains the blocks of the generator, whatever their predecessor
lists say. -/
theorem covers_computeCFG (F : IRFunc) (g : IRGen) (h : F.blocks = g.blocks) :
    Covers (computeCFG F) g := by
  have hblock : ∀ b < g.blocks.length,
      (computeCFG F).blockAt b = { g.blockAt b with preds := predsOf F.blocks b } := by
    intro b hb
    simp [IRFunc.blockAt, computeCFG, IRGen.blockAt, h, hb]
  refine ⟨by simp [computeCFG, h], fun b hb => ?_, fun b hb _ => ⟨_, hblock b hb⟩⟩
  exact (congrArg (·.insts) (hblock b hb)).symm ▸ List.prefix_rfl

/-- The end the generator gives to a body. -/
def finish (g : IRGen) : IRGen :=
  if g.isSealed then g
  else if g.curReturnsVoid then g.termRet false (.imm 0)
  else g.termRet true (.imm 0)

theorem genBody_eq (A : Sema) (fn : AFuncDef) (g : IRGen) :
    genBody A fn g =
      (genStmt A fn.body (g.newBlock.2.startBlock g.newBlock.1)).finish := rfl

theorem finish_covers {F : IRFunc} {g : IRGen} (hg : g.WF) (h : Covers F g.finish) :
    Covers F g := by
  unfold finish at h
  split at h
  · exact h
  · split at h <;> exact h.of_grows hg (termRet_grows (k := 0) hg _ _)

/-- A body that is left at its end returns 0, or nothing from a `void` function. -/
theorem ends_finish {F : IRFunc} {call : Callee} {g : IRGen} (hg : g.WF)
    (hopen : g.isSealed = false) (hc : Covers F g.finish) (R : Regs) (G : Globals) :
    Ends (F.step call) (g.here F R G) (if g.curReturnsVoid then none else some 0#32, G) := by
  cases hv : g.curReturnsVoid with
  | true =>
    simp only [finish, hopen, hv, Bool.false_eq_true, if_false, if_true] at hc
    exact Ends.of_step (step_termRet _ hg hopen hc R G)
  | false =>
    simp only [finish, hopen, hv, Bool.false_eq_true, if_false] at hc
    exact Ends.of_step (step_termRet _ hg hopen hc R G)

/-- **The code of a function runs it.** -/
theorem genFunc_reaches {voids : Voids} (call : Callee) {A S S' : Sema} {fn : FuncDef}
    {fn' : AFuncDef} (h : analyzeFunc S fn = .ok (fn', S'))
    (hd : Stmts.declsInBlocks fn.body = true) (hst : Static voids A S)
    (hA : S'.arena <+: A.arena) (hdepth : S.loopDepth = 0) {globals : List (String × Binding)}
    (henv : ∀ g R, EnvRel A g R S.scopes [globals]) (n : Nat) (junk : Regs) {args : List Word}
    (hlen : args.length = fn.params.length) (G : Globals) :
    (genFunc A fn').blocks ≠ [] ∧ Reaches ((genFunc A fn').step call) n
      ((genFunc A fn').start 0 (IRFunc.entryRegs junk (genFunc A fn').paramRegs args) G)
      (execStmt voids call n fn.bodyStmt (bindParams [[], globals] fn.params args) G >>= fun a =>
        fn.returned a.1 >>= fun v => .ok (v, a.2))
      fun r c => Ends ((genFunc A fn').step call) c r := by
  simp only [analyzeFunc, bind_eq_ok, Prod.exists] at h
  obtain ⟨body, S₁, hbody, h⟩ := h
  cases h
  have hready := genParams_ready (R := junk) (g := entry fn.returnsVoid) hlen
    ⟨⟨⟨hst.inOrder.pushScope, hst.arena⟩, hst.funcs⟩, entry_wf _, rfl, hdepth,
      .cons .nil (henv _ _)⟩ (prefix_of_grows (analyzeStmt_grows hbody) hA)
  obtain ⟨hregs, -⟩ := Prod.mk.inj (genParams_blocks (declareParams S.pushScope fn.params).1
    { curReturnsVoid := fn.returnsVoid } [{ id := 0 }])
  have hgen := genParams_entry (declareParams S.pushScope fn.params).1 fn.returnsVoid
  have hcur := genParams_snd (declareParams S.pushScope fn.params).1 (entry fn.returnsVoid)
  generalize hfn : genFunc A _ = F
  have hparams : F.paramRegs =
      (genParams (declareParams S.pushScope fn.params).1 (entry fn.returnsVoid)).1 := by
    rw [← hfn]
    exact hregs.symm
  rw [← hparams] at hready
  generalize (genParams (declareParams S.pushScope fn.params).1 (entry fn.returnsVoid)).2 = g
    at hready hgen hcur
  have hcov : Covers F (genStmt A body g).finish := by
    rw [← hfn]
    refine covers_computeCFG _ _ ?_
    show (genBody A _ _).blocks = _
    rw [genBody_eq, ← hgen]
  have hw := genStmt_writes (A := A) hbody (Nat.le_refl _) g hready.wf
  have hstart : g.here F (IRFunc.entryRegs junk F.paramRegs args) G =
      F.start 0 (IRFunc.entryRegs junk F.paramRegs args) G := by
    rw [hcur]
    rfl
  have hne : F.blocks ≠ [] := List.ne_nil_of_length_pos
    (Nat.lt_of_le_of_lt (Nat.zero_le _)
      (Nat.lt_of_lt_of_le hw.wf.cur_lt (finish_covers hw.wf hcov).length_le))
  refine ⟨hne, ?_⟩
  rw [← hstart]
  have hloops : g.loops = [] := by
    rw [hcur]
    rfl
  refine (genStmt_executes hbody hd hready.static hA n g _ _ G hready
    (finish_covers hw.wf hcov)).bind ?_
  rintro ⟨flow, G'⟩ c - hx
  cases flow with
  | normal env' =>
    obtain ⟨R', rfl, hopen', -⟩ := hx
    have hv : (genStmt A body g).curReturnsVoid = fn.returnsVoid := by
      rw [hw.returnsVoid, hcur]
      rfl
    refine .of_post ?_
    rw [← hv]
    exact ends_finish hw.wf hopen' hcov R' G'
  | brk env' | cont env' =>
    obtain ⟨l, ls, R', hl, -⟩ := hx
    rw [hloops] at hl
    cases hl
  | ret v => exact .of_post hx

/-! ## Globals -/

/-- **The globals entered so far**, in the tables and in the source. -/
structure GlobalsAt (A S : Sema) (scope : List (String × Binding)) (inits : List Word) :
    Prop where
  inOrder : S.InOrder
  env : ∀ g R, EnvRel A g R S.scopes [scope]
  count : S.globalCount = inits.length
  depth : S.loopDepth = 0

theorem registerItems_arena {items : List TopLevel} :
    ∀ {S S' : Sema} {index : Nat} {regs : List Registered},
      registerItems S index items = .ok (regs, S') → S.arena <+: S'.arena := by
  induction items with
  | nil =>
    intro S S' index regs h
    cases h
    exact List.prefix_rfl
  | cons item items ih =>
    intro S S' index regs h
    cases item with
    | global g =>
      simp only [registerItems, bind_eq_ok, Prod.exists] at h
      obtain ⟨g', S₁, hg, regs₁, S₂, hitems, h⟩ := h
      cases h
      obtain ⟨e, sym, -, -, -, -, harena, -⟩ := analyzeGlobal_ok hg
      exact List.IsPrefix.trans ⟨[sym], harena.symm⟩ (ih hitems)
    | func fn =>
      simp only [registerItems, bind_eq_ok, Prod.exists] at h
      obtain ⟨S₁, hf, regs₁, S₂, hitems, h⟩ := h
      cases h
      obtain ⟨-, hS⟩ := registerFunc_ok hf
      have harena := ih hitems
      rwa [hS] at harena

/-- **A global is entered** on both sides, with the value of its initialiser. -/
theorem GlobalsAt.global {A S S' : Sema} {scope : List (String × Binding)} {inits : List Word}
    {g : GlobalVar} {g' : AGlobalVar} (h : GlobalsAt A S scope inits)
    (hg : analyzeGlobal S g = .ok (g', S')) (hA : S'.arena <+: A.arena) :
    evalExpr (fun _ => false) (fun _ => .stuck) [scope] g.init (fun _ => 0#32) =
        .ok (g'.initValue, fun _ => 0#32) ∧
      g'.isConst = g.isConst ∧
      (g.isConst = false → (A.symbol g'.sym).globalId = some inits.length) ∧
      GlobalsAt A S'
        ((g.name, if g.isConst then .const g'.initValue else .global inits.length) :: scope)
        (if g.isConst then inits else inits ++ [g'.initValue]) := by
  obtain ⟨e, sym, he, hc, hname, rfl, harena, hscopes, -, hdepth, htrue, hfalse⟩ :=
    analyzeGlobal_ok hg
  have hplaced : Placed A S := ⟨h.inOrder, List.IsPrefix.trans ⟨[sym], harena.symm⟩ hA⟩
  have hsym : A.symbol S.arena.length = sym := by
    obtain ⟨rest, hrest⟩ := hA
    rw [Sema.symbol, ← hrest, harena]
    simp
  refine ⟨analyzeExpr_const hplaced (h.env default default) _ g.init he hc, rfl, ?_,
    analyzeGlobal_inOrder hg h.inOrder, fun gen R => ?_, ?_, hdepth.trans h.depth⟩
  · intro hconst
    show (A.symbol S.arena.length).globalId = _
    rw [hsym, (hfalse hconst).2.2.1, h.count]
  · rw [hscopes]
    refine (h.env gen R).declare g.name ?_
    cases hconst : g.isConst with
    | true => exact ⟨by rw [hsym, (htrue hconst).2.1], by rw [hsym, (htrue hconst).2.2.1]⟩
    | false =>
      obtain ⟨hk, hc', hid, -⟩ := hfalse hconst
      exact ⟨by rw [hsym, hc'], by rw [hsym, hk], by rw [hsym, hid, h.count]⟩
  · cases hconst : g.isConst with
    | true => rw [(htrue hconst).2.2.2, h.count]; rfl
    | false => rw [(hfalse hconst).2.2.2, h.count]; simp

/-- **The globals of a module**: the first pass and the source enter the same ones, and the
generator gives them the values of their initialisers. -/
theorem registerItems_globals {A : Sema} {items : List TopLevel} :
    ∀ {S S' : Sema} {index : Nat} {regs : List Registered} {scope : List (String × Binding)}
      {inits : List Word}, registerItems S index items = .ok (regs, S') →
      S'.arena <+: A.arena → GlobalsAt A S scope inits →
      ∃ scope' inits', declareGlobals scope inits items = .ok (scope', inits') ∧
        inits <+: inits' ∧ GlobalsAt A S' scope' inits' ∧
        ∀ {S₀ S₁ : Sema} {items' : List ATopLevel}, List.Forall₂ (Analyzed S₀ S₁) regs items' →
          ∀ globals : List IRGlobal, globals.length = inits'.length → ∀ i,
            ((genGlobals A items' globals).getD i {}).init =
              if inits.length ≤ i then inits'.getD i 0#32 else (globals.getD i {}).init := by
  induction items with
  | nil =>
    intro S S' index regs scope inits h hA hat
    cases h
    refine ⟨scope, inits, rfl, List.prefix_rfl, hat, fun hall globals hlen i => ?_⟩
    cases hall
    split
    · rename_i hi
      show (globals.getD i {}).init = _
      simp [List.getElem?_eq_none (hlen ▸ hi), List.getElem?_eq_none hi]
    · rfl
  | cons item items ih =>
    intro S S' index regs scope inits h hA hat
    cases item with
    | global g =>
      simp only [registerItems, bind_eq_ok, Prod.exists] at h
      obtain ⟨g', S₂, hg, regs₁, S₃, hitems, h⟩ := h
      cases h
      obtain ⟨heval, hconst, hid, hat'⟩ :=
        hat.global hg (List.IsPrefix.trans (registerItems_arena hitems) hA)
      obtain ⟨scope', inits', hdecl, hpre, hat₂, hgen⟩ := ih hitems hA hat'
      refine ⟨scope', inits', ?_, ?_, hat₂, fun hall globals hlen i => ?_⟩
      · simp only [declareGlobals, heval, Outcome.ok_bind]
        cases hc : g.isConst with
        | true =>
          rw [hc] at hdecl
          exact hdecl
        | false =>
          rw [hc] at hdecl
          exact hdecl
      · refine List.IsPrefix.trans ?_ hpre
        split
        · exact List.prefix_rfl
        · exact List.prefix_append _ _
      · cases hall with
        | cons hitem hall =>
          cases hitem
          cases hc : g.isConst with
          | true =>
            rw [hc, if_pos rfl] at hgen
            simp only [genGlobals, hconst, hc, if_true]
            exact hgen hall globals hlen i
          | false =>
            rw [hc, if_neg (by simp)] at hgen hpre
            simp only [genGlobals, hconst, hc, Bool.false_eq_true, if_false, hid hc]
            rw [hgen hall _ (by simpa using hlen) i, List.length_append]
            obtain ⟨rest, rfl⟩ := hpre
            have hlt : inits.length < globals.length := by
              rw [hlen]
              simp
            rcases Nat.lt_trichotomy i inits.length with hi | rfl | hi
            · rw [if_neg (by simp; omega), if_neg (by omega)]
              simp [Nat.ne_of_gt hi]
            · rw [if_neg (by simp), if_pos (Nat.le_refl _)]
              simp [hlt]
            · rw [if_pos (by simp; omega), if_pos (by omega)]
    | func fn =>
      simp only [registerItems, bind_eq_ok, Prod.exists] at h
      obtain ⟨S₂, hf, regs₁, S₃, hitems, h⟩ := h
      cases h
      obtain ⟨-, hS₂⟩ := registerFunc_ok hf
      have hat₁ : GlobalsAt A S₂ scope inits := by
        rw [hS₂]
        exact ⟨⟨hat.inOrder.lt, hat.inOrder.nodup⟩, hat.env, hat.count, hat.depth⟩
      obtain ⟨scope', inits', hdecl, hpre, hat₂, hgen⟩ := ih hitems hA hat₁
      refine ⟨scope', inits', hdecl, hpre, hat₂, fun hall globals hlen i => ?_⟩
      cases hall with
      | cons hfn hall =>
        cases hfn
        exact hgen hall globals hlen i

/-! ## Modules -/

/-- **The functions of a name correspond**, or neither module has one. -/
theorem find_generate {A S₀ S₁ : Sema} {items : List TopLevel} {regs : List Registered}
    {items' : List ATopLevel} (hof : List.Forall₂ Registered.Of items regs)
    (hall : List.Forall₂ (Analyzed S₀ S₁) regs items') (name : String) :
    (({ items } : Module).find name = none ∧
        (genFuncs A items').find? (·.name == name) = none) ∨
      ∃ fn fn' S S', ({ items } : Module).find name = some fn ∧ .func fn ∈ items ∧
        (genFuncs A items').find? (·.name == name) = some (genFunc A fn') ∧
        Sema.Grows S₀ [] S ∧ analyzeFunc S fn = .ok (fn', S') ∧ Sema.Grows S' [] S₁ := by
  induction hof generalizing items' with
  | nil =>
    cases hall
    exact .inl ⟨rfl, rfl⟩
  | @cons item reg items regs hitem _ ih =>
    cases hall with
    | @cons _ item' _ items' hitem' hall =>
      have ih := ih hall
      cases hitem with
      | global hname =>
        cases hitem'
        refine ih.imp id ?_
        rintro ⟨fn, fn', S, S', hfind, hmem, hrest⟩
        exact ⟨fn, fn', S, S', hfind, List.mem_cons_of_mem _ hmem, hrest⟩
      | @func fn =>
        cases hitem' with
        | @func _ fn' S S' hgrows hbody hlater =>
          have hname : (genFunc A fn').name = fn.name := by
            simp only [analyzeFunc, bind_eq_ok, Prod.exists] at hbody
            obtain ⟨body, S₂, -, hbody⟩ := hbody
            cases hbody
            rfl
          cases hn : fn.name == name with
          | true =>
            refine .inr ⟨fn, fn', S, S', ?_, List.mem_cons_self, ?_, hgrows, hbody, hlater⟩
            · simp only [Module.find, List.findSome?_cons, hn, if_true]
            · exact List.find?_cons_of_pos (by rw [hname, hn])
          | false =>
            have hfind : ({ items := .func fn :: items } : Module).find name =
                ({ items } : Module).find name := by
              simp only [Module.find, List.findSome?_cons, hn, Bool.false_eq_true, if_false]
            have hgen : (genFuncs A (.func fn' :: items')).find? (·.name == name) =
                (genFuncs A items').find? (·.name == name) :=
              List.find?_cons_of_neg (by rw [hname, hn]; simp)
            rw [hfind, hgen]
            refine ih.imp id ?_
            rintro ⟨fn₁, fn₁', S, S', hfind, hmem, hrest⟩
            exact ⟨fn₁, fn₁', S, S', hfind, List.mem_cons_of_mem _ hmem, hrest⟩

/-- **The functions of the tables are those of the module.** -/
theorem voids_eq {m : Module} {regs : List Registered} {S : Sema}
    (hof : List.Forall₂ Registered.Of m.items regs) (htab : ItemTable regs S) {c : String}
    {r : FuncRef} (h : S.funcs.lookup c = some r) : r.name = c ∧ r.returnsVoid = m.voids c := by
  obtain ⟨fn, hreg, rfl, hr⟩ := htab.funcs_sound h
  refine ⟨by rw [hr], ?_⟩
  have hitem := (registered_func_iff hof r.index fn).mpr hreg
  have hfind : m.find fn.name = some fn := by
    cases hf : m.find fn.name with
    | none =>
      have hnone := List.findSome?_eq_none_iff.mp hf _ (List.mem_of_getElem? hitem)
      simp at hnone
    | some fn₁ =>
      obtain ⟨item, hmem, hsome⟩ := List.exists_of_findSome?_eq_some hf
      obtain ⟨j, hj⟩ := List.getElem?_of_mem hmem
      cases item with
      | global g => cases hsome
      | func fn₂ =>
        obtain ⟨heq, rfl⟩ : fn₂.name = fn.name ∧ fn₂ = fn₁ := by simpa using hsome
        -- A name is registered once.
        obtain ⟨r', hr', rfl⟩ := htab.funcs_complete ((registered_func_iff hof j fn₂).mp hj)
        rw [heq, h] at hr'
        cases hr'
        rw [hitem] at hj
        cases hj
        rfl
  rw [Module.voids, hfind, hr]

/-- **A function of the source and its code run alike**, against the same answers of
their callees. -/
theorem genFunc_run {voids : Voids} (call : Callee) {A S S' : Sema} {fn : FuncDef}
    {fn' : AFuncDef} (h : analyzeFunc S fn = .ok (fn', S'))
    (hd : Stmts.declsInBlocks fn.body = true) (hst : Static voids A S)
    (hA : S'.arena <+: A.arena) (hdepth : S.loopDepth = 0) (globals : List (String × Binding))
    (henv : ∀ g R, EnvRel A g R S.scopes [globals]) (n : Nat) (junk : Regs) (args : List Word)
    (G : Globals) :
    Outcome.Flat ((genFunc A fn').run call junk n args G) (fn.run voids globals call n args G) ∧
      (fn.run voids globals call n args G ≠ .timeout →
        ∃ k, (genFunc A fn').run call junk k args G = fn.run voids globals call n args G) := by
  have hparams : (genFunc A fn').paramRegs.length = fn.params.length := by
    simp only [analyzeFunc, bind_eq_ok, Prod.exists] at h
    obtain ⟨body, S₁, -, h⟩ := h
    cases h
    exact (genParams_length _ _).trans (declareParams_length _ _)
  by_cases hlen : args.length = fn.params.length
  · obtain ⟨hne, hreach⟩ :=
      genFunc_reaches call h hd hst hA hdepth henv n junk hlen G
    have hrun : ∀ k, (genFunc A fn').run call junk k args G =
        Machine.run ((genFunc A fn').step call) k ((genFunc A fn').start 0
          (IRFunc.entryRegs junk (genFunc A fn').paramRegs args) G) := by
      intro k
      rw [IRFunc.run, if_pos (hlen.trans hparams.symm), IRFunc.start, IRFunc.blockAt]
      cases hb : (genFunc A fn').blocks with
      | nil => exact absurd hb hne
      | cons bb bbs => rfl
    rw [FuncDef.run, if_pos hlen]
    simp only [hrun]
    exact ⟨hreach.flat_run, hreach.exists_run⟩
  · rw [FuncDef.run, if_neg hlen]
    simp only [IRFunc.run, hparams, if_neg hlen]
    exact ⟨.inr rfl, fun _ => ⟨0, trivial⟩⟩

end IRGen

/-- **Declarations stand only among the items of a block**, in every function of the
module. -/
def Module.declsInBlocks (m : Module) : Bool :=
  m.items.all fun
    | .func fn => Stmts.declsInBlocks fn.body
    | .global _ => true

namespace IRGen

open Sema

/-- **The bodies of a module and of its code answer alike**, against the same answers of
their callees. -/
theorem generate_body {m : Module} {m' : AModule} {A : Sema} (h : analyze m = .ok (m', A))
    (hd : m.declsInBlocks = true) (junk : Regs) :
    (generate A m').initialGlobals = m.initialGlobals ∧
      ∀ (p : CallArgs) (call : Callee) (n : Nat),
        Outcome.Flat ((generate A m').body junk p call n) (m.body p call n) ∧
          (m.body p call n ≠ .timeout →
            ∃ k, (generate A m').body junk p call k = m.body p call n) := by
  obtain ⟨regs, S₀, S₁, hregs, hof, htab, hall, hgrows, rfl⟩ := analyze_ok h
  have hA₀ : S₀.arena <+: S₁.popScope.arena := prefix_of_grows hgrows List.prefix_rfl
  have hinit : GlobalsAt S₁.popScope ({} : Sema).pushScope [] [] :=
    ⟨⟨by simp [Sema.pushScope], by simp [Sema.pushScope]⟩, fun _ _ => .cons .nil .nil, rfl, rfl⟩
  obtain ⟨scope, inits, hdecl, -, hat, hgen⟩ := registerItems_globals hregs hA₀ hinit
  constructor
  · funext gid
    have hinit := hgen hall (List.replicate S₁.popScope.globalCount {})
      (by rw [List.length_replicate]; exact hgrows.globalCount.trans hat.count) gid
    rw [if_pos (show ([] : List Word).length ≤ gid from Nat.zero_le gid)] at hinit
    rw [Module.initialGlobals, hdecl]
    exact hinit
  · intro p call n
    unfold IRModule.body Module.body
    rcases find_generate (A := S₁.popScope) hof hall p.name with
      ⟨hfind, hfind'⟩ | ⟨fn, fn', S, S', hfind, hmem, hfind', hS, hbody, hS'⟩
    · rw [show m.find p.name = none from hfind,
        show (generate S₁.popScope m').find p.name = none from hfind']
      exact ⟨.inr rfl, fun _ => ⟨0, rfl⟩⟩
    · rw [show m.find p.name = some fn from hfind,
        show (generate S₁.popScope m').find p.name = some (genFunc S₁.popScope fn') from hfind']
      have hA' : S'.arena <+: S₁.popScope.arena := prefix_of_grows hS' List.prefix_rfl
      have hst : Static m.voids S₁.popScope S₀ :=
        ⟨⟨hat.inOrder, hA₀⟩, fun c r hr => voids_eq hof htab hr⟩
      have hrun := genFunc_run call hbody (List.all_eq_true.mp hd _ hmem)
        (hst.grows hS (prefix_of_grows (analyzeFunc_grows hbody) hA')) hA'
        (hS.loopDepth.trans hat.depth) scope
        (fun g R => by rw [hS.scopes_eq]; exact hat.env g R) n junk p.args p.globals
      simp only [hdecl, Outcome.ok_bind]
      exact hrun

/-- **Analysis and generation preserve the meaning of a module.** Calling any function on
any arguments and globals returns the same result, or runs on for ever, in the source and
in the three-address code, whatever the vregs hold at entry; and the globals start with the
same values. -/
theorem generate_correct {m : Module} {m' : AModule} {A : Sema} (h : analyze m = .ok (m', A))
    (hd : m.declsInBlocks = true) (junk : Regs) :
    (∀ p r, m.Returns p r ↔ (generate A m').Returns junk p r) ∧
      (∀ p, m.Diverges p ↔ (generate A m').Diverges junk p) ∧
      m.initialGlobals = (generate A m').initialGlobals := by
  obtain ⟨hinit, hbody⟩ := generate_body h hd junk
  have hle : ∀ p, Outcome.Flat (Outcome.limit m.body p)
      (Outcome.limit ((generate A m').body junk) p) := by
    refine Outcome.limit_le Outcome.precise_flat m.body_regular fun p n => ?_
    by_cases ht : m.body p (Outcome.limit ((generate A m').body junk)) n = .timeout
    · exact .inl ht
    · obtain ⟨k, hk⟩ := (hbody p _ n).2 ht
      rw [← hk]
      exact Outcome.body_limit ((generate A m').body_regular junk) p k
  have hge : ∀ p, Outcome.Flat (Outcome.limit ((generate A m').body junk) p)
      (Outcome.limit m.body p) :=
    Outcome.limit_le Outcome.precise_flat ((generate A m').body_regular junk) fun p n =>
      Outcome.precise_flat.trans (hbody p _ n).1 (Outcome.body_limit m.body_regular p n)
  have heq := fun p => (hle p).antisymm (hge p)
  refine ⟨fun p r => ?_, fun p => ?_, hinit.symm⟩
  · rw [m.returns_iff, IRModule.returns_iff, heq]
  · rw [m.diverges_iff, IRModule.diverges_iff, heq]

/-- A loop left by `break` out of a condition with a side effect. -/
def breakModule : Module where
  items := [
    .global { name := "n", init := .unary 1 .Neg (.number 1 1) },
    .func { name := "next", body :=
      [.assign 2 "n" (.binary 2 .Add (.var 2 "n") (.number 2 1)),
        .returnStmt 2 (some (.var 2 "n"))] },
    .func { name := "main", body :=
      [.whileStmt 4 (.number 4 1) (.block 4
          [.ifStmt 5 (.logical 5 true (.binary 5 .Eq (.call 5 "next" []) (.number 5 2))
              (.number 5 0)) (.breakStmt 5) none]),
        .returnStmt 7 (some (.var 7 "n"))] }]

/-- Its code stops when the source does. -/
theorem breakModule_generate_returns :
    ∃ m' A, analyze breakModule = .ok (m', A) ∧
      ∃ r, (generate A m').Returns (fun _ => 7) ⟨"main", [], breakModule.initialGlobals⟩ r ∧
        r.1 = some 2#32 :=
  ⟨_, _, rfl, _, ((generate_correct (m := breakModule) rfl (by decide) _).1 _ _).mp ⟨6, rfl⟩,
    rfl⟩

end IRGen

end ToyC
