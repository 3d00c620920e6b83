import ToyC.ConstExpr
import ToyC.IRGenExpr

/-!
# Names, symbols and registers

The meaning of the source looks names up in a stack of scopes that holds values; the
analysis looks them up in a stack of scopes that holds symbols, and the generated
code finds the values of the variables in their vregs. `EnvRel` ties the three: the
stacks have the same shape and names, and every entry of the one stands for what the
symbol of the other does (`BindRel`). It is kept by everything that happens to the
stacks, and by code that writes fresh registers only.
-/

namespace ToyC

namespace IRGen

open Sema

/-- **What a symbol stands for**, under the final tables `A`, the vregs of the generator
and the contents of the registers. -/
def BindRel (A : Sema) (g : IRGen) (R : Regs) (id : SymId) : Binding → Prop
  | .const v => (A.symbol id).isConst = true ∧ (A.symbol id).constValue = v
  | .var v => (A.symbol id).isConst = false ∧ (A.symbol id).kind ≠ .GlobalVar ∧
      ∃ r, g.irId.lookup id = some r ∧ R r = v
  | .global gid => (A.symbol id).isConst = false ∧ (A.symbol id).kind = .GlobalVar ∧
      (A.symbol id).globalId = some gid

/-- An entry of a scope of the analysis and one of the source. -/
def EntryRel (A : Sema) (g : IRGen) (R : Regs) (p : String × SymId) (q : String × Binding) :
    Prop :=
  p.1 = q.1 ∧ BindRel A g R p.2 q.2

/-- **The scopes of the analysis and those of the source.** -/
abbrev EnvRel (A : Sema) (g : IRGen) (R : Regs) (scopes : List Scope) (env : Env) : Prop :=
  List.Forall₂ (List.Forall₂ (EntryRel A g R)) scopes env

section Lookup

variable {A : Sema} {g : IRGen} {R : Regs}

theorem lookup_scope {scope : Scope} {benv : List (String × Binding)}
    (h : List.Forall₂ (EntryRel A g R) scope benv) (x : String) :
    (scope.lookup x = none ∧ benv.lookup x = none) ∨
      ∃ id b, scope.lookup x = some id ∧ benv.lookup x = some b ∧ BindRel A g R id b := by
  induction h with
  | nil => exact .inl ⟨rfl, rfl⟩
  | @cons p q _ _ hpq _ ih =>
    obtain ⟨y, id⟩ := p
    obtain ⟨y', b⟩ := q
    obtain ⟨rfl, hbind⟩ := hpq
    rw [List.lookup_cons, List.lookup_cons]
    cases x == y with
    | true => exact .inr ⟨id, b, rfl, rfl, hbind⟩
    | false => exact ih

/-- **A name resolves on both sides or on neither**, and to the same thing. -/
theorem EnvRel.lookup {scopes : List Scope} {env : Env} (h : EnvRel A g R scopes env)
    (x : String) :
    (scopes.findSome? (fun scope => scope.lookup x) = none ∧ env.lookup x = none) ∨
      ∃ id b, scopes.findSome? (fun scope => scope.lookup x) = some id ∧
        env.lookup x = some b ∧ BindRel A g R id b := by
  induction h with
  | nil => exact .inl ⟨rfl, rfl⟩
  | @cons scope benv scopes env hscope _ ih =>
    unfold Env.lookup at ih ⊢
    rw [List.findSome?_cons, List.findSome?_cons]
    rcases lookup_scope hscope x with ⟨h₁, h₂⟩ | ⟨id, b, h₁, h₂, hb⟩
    · rw [h₁, h₂]
      exact ih
    · rw [h₁, h₂]
      exact .inr ⟨id, b, rfl, rfl, hb⟩

end Lookup

/-- What the generator and the registers may do without changing what is in scope. -/
theorem EnvRel.mono {A : Sema} {g g' : IRGen} {R R' : Regs} {scopes : List Scope} {env : Env}
    (h : EnvRel A g R scopes env) (hg : g.WF)
    (hid : ∀ scope ∈ scopes, ∀ p ∈ scope, g'.irId.lookup p.2 = g.irId.lookup p.2)
    (hR : Agree g.nextVreg R R') : EnvRel A g' R' scopes env := by
  induction h with
  | nil => exact .nil
  | @cons scope benv scopes env hscope _ ih =>
    refine .cons ?_ (ih fun sc hsc => hid sc (List.mem_cons_of_mem _ hsc))
    have hid' := hid scope List.mem_cons_self
    clear ih hid
    induction hscope with
    | nil => exact .nil
    | @cons p q scope benv hpq _ ih =>
      refine .cons ⟨hpq.1, ?_⟩ (ih fun p hp => hid' p (List.mem_cons_of_mem _ hp))
      obtain ⟨-, hbind⟩ := hpq
      cases hq : q.2 with
      | const v =>
        rw [hq] at hbind
        exact hbind
      | global gid =>
        rw [hq] at hbind
        exact hbind
      | var v =>
        rw [hq] at hbind
        obtain ⟨hc, hk, r, hr, hv⟩ := hbind
        exact ⟨hc, hk, r, by rw [hid' p List.mem_cons_self, hr],
          by rw [hR r (hg.irId_lt p.2 r hr), hv]⟩

/-- A declaration on both sides. -/
theorem EnvRel.declare {A : Sema} {g : IRGen} {R : Regs} {scopes : List Scope} {env : Env}
    (h : EnvRel A g R scopes env) (x : String) {id : SymId} {b : Binding}
    (hb : BindRel A g R id b) :
    EnvRel A g R (extendTop [(x, id)] scopes) (env.declare x b) := by
  cases h with
  | nil => exact .nil
  | cons hscope hrest => exact .cons (.cons ⟨rfl, hb⟩ hscope) hrest

/-! ## Assignment -/

section Assign

variable {A : Sema} {g : IRGen} {R : Regs}

theorem BindRel.set_of_ne (hg : g.WF) {id id' r : Nat} {b : Binding} {v : Word}
    (h : BindRel A g R id b) (hr : g.irId.lookup id' = some r) (hne : id ≠ id') :
    BindRel A g (R.set r v) id b := by
  cases b with
  | const w => exact h
  | global gid => exact h
  | var w =>
    obtain ⟨hc, hk, r', hr', hv⟩ := h
    refine ⟨hc, hk, r', hr', ?_⟩
    rw [R.set_of_ne v, hv]
    rintro rfl
    exact hne (hg.irId_inj id id' r' hr' hr)

/-- A register of another symbol is not in this scope. -/
theorem scope_set_of_not_mem (hg : g.WF) {id' r : Nat} {v : Word} {scope : Scope}
    {benv : List (String × Binding)} (h : List.Forall₂ (EntryRel A g R) scope benv)
    (hr : g.irId.lookup id' = some r) (hnot : id' ∉ scope.map Prod.snd) :
    List.Forall₂ (EntryRel A g (R.set r v)) scope benv := by
  induction h with
  | nil => exact .nil
  | @cons p q scope benv hpq _ ih =>
    rw [List.map_cons, List.mem_cons, not_or] at hnot
    exact .cons ⟨hpq.1, hpq.2.set_of_ne hg hr (Ne.symm hnot.1)⟩ (ih hnot.2)

theorem scopes_set_of_not_mem (hg : g.WF) {id' r : Nat} {v : Word} {scopes : List Scope}
    {env : Env} (h : EnvRel A g R scopes env) (hr : g.irId.lookup id' = some r)
    (hnot : id' ∉ scopes.flatten.map Prod.snd) : EnvRel A g (R.set r v) scopes env := by
  induction h with
  | nil => exact .nil
  | cons hscope _ ih =>
    rw [List.flatten_cons, List.map_append, List.mem_append, not_or] at hnot
    exact .cons (scope_set_of_not_mem hg hscope hr hnot.1) (ih hnot.2)

/-- Assigning in the scope that declares the name. -/
theorem assignIn_scope (hg : g.WF) {id r : Nat} {v : Word} {x : String} {scope : Scope}
    {benv : List (String × Binding)} (h : List.Forall₂ (EntryRel A g R) scope benv)
    (hx : scope.lookup x = some id) (hr : g.irId.lookup id = some r)
    (hc : (A.symbol id).isConst = false) (hk : (A.symbol id).kind ≠ .GlobalVar)
    (hnd : (scope.map Prod.snd).Nodup) :
    List.Forall₂ (EntryRel A g (R.set r v)) scope (Env.assignIn x v benv) := by
  induction h with
  | nil => cases hx
  | @cons p q scope benv hpq hrest ih =>
    rw [List.lookup_cons] at hx
    rw [List.map_cons, List.nodup_cons] at hnd
    have hname : p.1 = q.1 := hpq.1
    unfold Env.assignIn
    cases hxp : x == p.1 with
    | true =>
      rw [hxp] at hx
      cases hx
      rw [← hname, hxp, if_pos rfl]
      exact .cons ⟨rfl, hc, hk, r, hr, R.set_same r v⟩
        (scope_set_of_not_mem hg hrest hr hnd.1)
    | false =>
      rw [hxp] at hx
      rw [← hname, hxp, if_neg (by simp)]
      have hne : p.2 ≠ id := by
        rintro rfl
        obtain ⟨l₁, l₂, hl, -⟩ := List.lookup_eq_some_iff.mp hx
        exact hnd.1 (List.mem_map.mpr ⟨(x, p.2), by rw [hl]; simp, rfl⟩)
      exact .cons ⟨rfl, hpq.2.set_of_ne hg hr hne⟩ (ih hx hnd.2)

/-- **An assignment to a local variable** is a write of its vreg. -/
theorem EnvRel.assign (hg : g.WF) {id r : Nat} {v : Word} {x : String} {scopes : List Scope}
    {env : Env} (h : EnvRel A g R scopes env)
    (hx : scopes.findSome? (fun scope => scope.lookup x) = some id)
    (hr : g.irId.lookup id = some r) (hc : (A.symbol id).isConst = false)
    (hk : (A.symbol id).kind ≠ .GlobalVar) (hnd : (scopes.flatten.map Prod.snd).Nodup) :
    EnvRel A g (R.set r v) scopes (env.assign x v) := by
  induction h with
  | nil => cases hx
  | @cons scope benv scopes env hscope hrest ih =>
    rw [List.flatten_cons, List.map_append, List.nodup_append] at hnd
    obtain ⟨hnd₁, hnd₂, hdisj⟩ := hnd
    rw [List.findSome?_cons] at hx
    unfold Env.assign
    rcases lookup_scope hscope x with ⟨h₁, h₂⟩ | ⟨id', b, h₁, h₂, hb⟩
    · rw [h₁] at hx
      rw [h₂]
      have hmem : id ∈ scopes.flatten.map Prod.snd := by
        obtain ⟨sc, hsc, hlook⟩ := List.exists_of_findSome?_eq_some hx
        obtain ⟨l₁, l₂, hl, -⟩ := List.lookup_eq_some_iff.mp hlook
        exact List.mem_map.mpr ⟨(x, id), List.mem_flatten.mpr ⟨sc, hsc, by rw [hl]; simp⟩, rfl⟩
      exact .cons (scope_set_of_not_mem hg hscope hr fun hin => hdisj id hin id hmem rfl)
        (ih hx hnd₂)
    · rw [h₁] at hx
      cases hx
      rw [h₂]
      have hmem : id ∈ scope.map Prod.snd := by
        obtain ⟨l₁, l₂, hl, -⟩ := List.lookup_eq_some_iff.mp h₁
        exact List.mem_map.mpr ⟨(x, id), by rw [hl]; simp, rfl⟩
      exact .cons (assignIn_scope hg hscope h₁ hr hc hk hnd₁)
        (scopes_set_of_not_mem hg hrest hr fun hin => hdisj id hmem id hin rfl)

end Assign

/-! ## Constants -/

/-- **The tables at a point of the analysis** are in order, and begin the final ones. -/
structure Placed (A S : Sema) : Prop where
  inOrder : S.InOrder
  arena : S.arena <+: A.arena

/-- A symbol in scope is the same under the final tables. -/
theorem Placed.symbol {A S : Sema} (h : Placed A S) {x : String} {id : SymId}
    (hx : S.lookup x = some id) : S.symbol id = A.symbol id := by
  obtain ⟨sc, hsc, hlook⟩ := List.exists_of_findSome?_eq_some hx
  obtain ⟨l₁, l₂, hl, -⟩ := List.lookup_eq_some_iff.mp hlook
  have hlt : id < S.arena.length := h.inOrder.lt sc hsc (x, id) (by rw [hl]; simp)
  obtain ⟨rest, hrest⟩ := h.arena
  rw [Sema.symbol, Sema.symbol, ← hrest, List.getD_eq_getElem?_getD, List.getD_eq_getElem?_getD,
    List.getElem?_append_left hlt]

/-- Inside a body, the functions are known by their names too. -/
structure Static (voids : Voids) (A S : Sema) : Prop extends Placed A S where
  funcs : ∀ c r, S.funcs.lookup c = some r → r.name = c ∧ r.returnsVoid = voids c

theorem Static.grows {voids : Voids} {A S S' : Sema} {names : List String}
    (h : Static voids A S) (hgrows : Sema.Grows S names S') (harena : S'.arena <+: A.arena) :
    Static voids A S' :=
  ⟨⟨hgrows.inOrder h.inOrder, harena⟩, by rw [hgrows.funcs]; exact h.funcs⟩

/-- What the entries stand for has the values of the constants. -/
theorem EnvRel.constantsHold {A S : Sema} {g : IRGen} {R : Regs} {env : Env} (hst : Placed A S)
    (henv : EnvRel A g R S.scopes env) : S.ConstantsHold env := by
  intro x id hx hc
  rcases henv.lookup x with ⟨hnone, -⟩ | ⟨id', b, hx', hb, hbind⟩
  · rw [show S.lookup x = none from hnone] at hx
    cases hx
  · obtain rfl : id' = id := Option.some.inj (hx'.symm.trans hx)
    rw [hst.symbol hx] at hc ⊢
    cases b with
    | const v => rw [hb, hbind.2]
    | var v => simp [hbind.1] at hc
    | global gid => simp [hbind.1] at hc

/-- **What folds to a constant evaluates to it**, and changes nothing. -/
theorem analyzeExpr_const {voids : Voids} {call : Callee} {A S : Sema} {g : IRGen} {R : Regs}
    {env : Env} (hst : Placed A S) (henv : EnvRel A g R S.scopes env) (G : Globals) (e : Expr)
    {e' : AExpr} (h : analyzeExpr S e = .ok e') (hc : e'.isConst = true) :
    evalExpr voids call env e G = .ok (e'.constValue, G) :=
  evalExpr_of_const (henv.constantsHold hst) h hc

/-! ## Expressions in scope -/

/-- Code that declares nothing and writes fresh vregs keeps what is in scope. -/
theorem EnvRel.after {A : Sema} {g g' : IRGen} {R R' : Regs} {scopes : List Scope} {env : Env}
    (h : EnvRel A g R scopes env) (hg : g.WF) (hgrows : ∀ k, Grows k g g')
    (hR : Agree g.nextVreg R R') : EnvRel A g' R' scopes env :=
  h.mono hg (fun _ _ p _ => (hgrows (p.2 + 1)).irId p.2 (Nat.lt_succ_self _)) hR

/-- **Both lowerings of an expression are correct**, wherever its names are in scope. -/
structure Lowered (voids : Voids) (F : IRFunc) (call : Callee) (n : Nat) (A S : Sema)
    (e : Expr) (e' : AExpr) : Prop where
  value : ∀ {g : IRGen} {R : Regs} {env : Env} {G : Globals}, g.WF → g.isSealed = false →
    EnvRel A g R S.scopes env →
      Computes F call n (genExpr A e') g R G (evalExpr voids call env e G)
  jumps : ∀ {g : IRGen} {R : Regs} {env : Env} {G : Globals} {t f : Nat}, g.WF →
    g.isSealed = false → EnvRel A g R S.scopes env →
    t < F.blocks.length → f < F.blocks.length →
      JumpsTo F call n (genCond A e') t f g R G (evalExpr voids call env e G)

section Lowered

variable {voids : Voids} {F : IRFunc} {call : Callee} {n : Nat} {A S : Sema}

/-- A constant is lowered to an immediate and to a jump. -/
theorem Lowered.const (hst : Static voids A S) {e : Expr} {e' : AExpr}
    (h : analyzeExpr S e = .ok e') (hc : e'.isConst = true) :
    Lowered voids F call n A S e e' where
  value {g R env G} hg hopen henv hcov := by
    rw [analyzeExpr_const hst.toPlaced henv G e h hc]
    rw [genExpr_const hc g]
    exact .of_post ⟨R, rfl, hopen, .refl _ _, trivial, rfl⟩
  jumps {g R env G t f} hg hopen henv ht hf := by
    have hgen : genCond A e' = genConstCond e'.constValue := by
      funext t f g
      rw [genCond_eq, if_pos hc]
    rw [analyzeExpr_const hst.toPlaced henv G e h hc, hgen]
    exact genConstCond_jumpsTo hg hopen _ ht hf

/-- Where a condition is no short-circuit operator and no negation, its jumps follow its
value. -/
theorem Lowered.of_value {e : Expr} {e' : AExpr} (hgen : genCond A e' = genBranch (genExpr A e'))
    (hv : ∀ {g : IRGen} {R : Regs} {env : Env} {G : Globals}, g.WF → g.isSealed = false →
      EnvRel A g R S.scopes env →
        Computes F call n (genExpr A e') g R G (evalExpr voids call env e G)) :
    Lowered voids F call n A S e e' where
  value := hv
  jumps hg hopen henv ht hf := by
    rw [hgen]
    exact genBranch_jumpsTo hg (genExpr_lowers A e') ht hf (hv hg hopen henv)

/-- The value of a variable is in its vreg, that of a global in memory. -/
theorem genVar_computes (hst : Static voids A S) {x : String} {id : SymId} {line : Nat}
    (hx : S.lookup x = some id) (hc : (S.symbol id).isConst = false) {g : IRGen} {R : Regs}
    {env : Env} {G : Globals} (hg : g.WF) (hopen : g.isSealed = false)
    (henv : EnvRel A g R S.scopes env) :
    Computes F call n (genVar A id) g R G (evalExpr voids call env (.var line x) G) := by
  intro hcov
  rw [hst.symbol hx] at hc
  rcases henv.lookup x with ⟨hnone, -⟩ | ⟨id', b, hx', hb, hbind⟩
  · rw [show S.lookup x = none from hnone] at hx
    cases hx
  · rw [show S.lookup x = some id' from hx'] at hx
    cases hx
    simp only [evalExpr, readName, hb]
    cases b with
    | const v =>
      rw [hbind.1] at hc
      cases hc
    | var v =>
      obtain ⟨-, hk, r, hr, hv⟩ := hbind
      have hgen : genVar A id g = (.reg r, g) := by
        rw [genVar, if_neg hk, vregOf, hr]
        rfl
      simp only [hgen]
      exact .of_post ⟨R, rfl, hopen, .refl _ _, hg.irId_lt id r hr, hv⟩
    | global gid =>
      obtain ⟨-, hk, hid⟩ := hbind
      have hgen : genVar A id g = (.reg g.nextVreg,
          g.newVreg.2.emit { op := .LoadGlobal, dst := some g.nextVreg, gid }) := by
        rw [genVar, if_pos hk, hid]
        rfl
      rw [hgen] at hcov
      simp only [hgen]
      exact emit_computes (x := .ok (G gid, G)) hg hopen hcov rfl

mutual
/-- **The lowering of an expression is correct.** -/
theorem genExpr_lowered (hst : Static voids A S) {e : Expr} {e' : AExpr}
    (h : analyzeExpr S e = .ok e') : Lowered voids F call n A S e e' := by
  by_cases hconst : e'.isConst = true
  · exact .const hst h hconst
  match e with
  | .number line v =>
    cases h
    exact absurd rfl hconst
  | .var line x =>
    simp only [analyzeExpr] at h
    cases hx : S.lookup x with
    | none =>
      rw [hx] at h
      cases h
    | some id =>
      rw [hx] at h
      cases h
      have hc : (S.symbol id).isConst = false := by
        cases hk : (S.symbol id).isConst with
        | false => rfl
        | true => simp [AExpr.isConst, AExpr.note, Note.const, hk] at hconst
      have hgen : genExpr A (.var {} x id) = genVar A id := by
        funext g
        simp [genExpr]
      simp only [hc, Bool.false_eq_true, if_false]
      refine .of_value ?_ fun hg hopen henv => ?_
      · funext t f g
        rw [genCond_eq]
        rfl
      · rw [hgen]
        exact genVar_computes hst hx hc hg hopen henv
  | .binary line op lhs rhs =>
    simp only [analyzeExpr, bind_eq_ok] at h
    obtain ⟨lhs', hl, rhs', hr, h⟩ := h
    have ihl := genExpr_lowered hst hl
    have ihr := genExpr_lowered hst hr
    split at h
    · split at h
      · cases h
      · cases h
        exact absurd rfl hconst
    · cases h
      have hgen : genExpr A (.binary {} op lhs' rhs') =
          genBinary op (genExpr A lhs') (genExpr A rhs') := by
        funext g
        simp [genExpr]
      refine .of_value ?_ fun {g R env G} hg hopen henv => ?_
      · funext t f g
        rw [genCond_eq]
        rfl
      · rw [hgen]
        exact genBinary_computes hg op (genExpr_lowers A lhs') (genExpr_lowers A rhs')
          (ihl.value hg hopen henv) fun g' R' G' hgrows hopen' hR =>
            ihr.value (hgrows 0).wf hopen' (henv.after hg hgrows hR)
  | .logical line isOr lhs rhs =>
    simp only [analyzeExpr, bind_eq_ok] at h
    obtain ⟨lhs', hl, rhs', hr, h⟩ := h
    have ihl := genExpr_lowered hst hl
    have ihr := genExpr_lowered hst hr
    cases h
    have hnote : ∀ note : Note, note.isConst = false → Lowered voids F call n A S
        (.logical line isOr lhs rhs) (.logical note isOr lhs' rhs') := by
      intro note hnote
      have hgen : genExpr A (.logical note isOr lhs' rhs') =
          genLogical (genLogicalCond isOr (genCond A lhs') (genCond A rhs')) := by
        funext g
        simp [genExpr, hnote]
      have hgen' : genCond A (.logical note isOr lhs' rhs') =
          genLogicalCond isOr (genCond A lhs') (genCond A rhs') := by
        funext t f g
        simp [genCond, hnote]
      have hjumps : ∀ {g : IRGen} {R : Regs} {env : Env} {G : Globals} {t f : Nat}, g.WF →
          g.isSealed = false → EnvRel A g R S.scopes env →
          t < F.blocks.length → f < F.blocks.length →
          JumpsTo F call n (genLogicalCond isOr (genCond A lhs') (genCond A rhs')) t f g R G
            (evalExpr voids call env (.logical line isOr lhs rhs) G) := by
        intro g R env G t f hg hopen henv ht hf
        have hnew := fun k => newBlock_grows (k := k) hg
        refine genLogicalCond_jumpsTo hg isOr (genCond_jumps A lhs') (genCond_jumps A rhs')
          (fun t' f' ht' hf' => ?_) (fun g' R' G' hgrows hopen' hR => ?_) ht hf
        · exact ihl.jumps (hnew 0).wf hopen (henv.after hg hnew (.refl _ _)) ht' hf'
        · exact ihr.jumps (hgrows 0).wf hopen' (henv.after hg hgrows hR) ht hf
      constructor
      · intro g R env G hg hopen henv
        rw [hgen]
        refine genLogical_computes hg (genLogicalCond_jumps isOr (genCond_jumps A lhs')
          (genCond_jumps A rhs')) (fun a ha => ?_) fun g' hgrows hopen' t f ht hf => ?_
        · exact logicalValue_bool ha
        · exact hjumps (hgrows 0).wf (hopen'.trans hopen) (henv.after hg hgrows (.refl _ _)) ht hf
      · intro g R env G t f hg hopen henv ht hf
        rw [hgen']
        exact hjumps hg hopen henv ht hf
    exact hnote _ (Bool.not_eq_true _ ▸ hconst)
  | .unary line op operand =>
    simp only [analyzeExpr, bind_eq_ok] at h
    obtain ⟨operand', ho, h⟩ := h
    have ih := genExpr_lowered hst ho
    have hk : operand'.isConst = false := by
      cases hk : operand'.isConst with
      | false => rfl
      | true =>
        rw [hk] at h
        cases h
        exact absurd rfl hconst
    simp only [hk, Bool.false_eq_true, if_false] at h
    cases h
    have hgen : genExpr A (.unary {} op operand') = genUnary op (genExpr A operand') := by
      funext g
      simp [genExpr]
    have hvalue : ∀ {g : IRGen} {R : Regs} {env : Env} {G : Globals}, g.WF →
        g.isSealed = false → EnvRel A g R S.scopes env →
        Computes F call n (genExpr A (.unary {} op operand')) g R G
          (evalExpr voids call env (.unary line op operand) G) := by
      intro g R env G hg hopen henv
      rw [hgen]
      exact genUnary_computes hg op (genExpr_lowers A operand') (ih.value hg hopen henv)
    cases op with
    | Not =>
      refine ⟨hvalue, fun {g R env G t f} hg hopen henv ht hf => ?_⟩
      have hgen' : genCond A (.unary {} .Not operand') = fun t f => genCond A operand' f t := by
        funext t f g
        simp [genCond]
      rw [hgen']
      exact (ih.jumps hg hopen henv hf ht).not
    | Plus | Neg =>
      refine .of_value ?_ hvalue
      funext t f g
      rw [genCond_eq]
      rfl
  | .call line callee args =>
    simp only [analyzeExpr] at h
    split at h
    · cases h
    · rename_i target htarget
      split at h
      · cases h
      · simp only [bind_eq_ok] at h
        obtain ⟨args', ha, h⟩ := h
        cases h
        obtain ⟨hname, hvoid⟩ := hst.funcs callee target htarget
        have hgen : genExpr A (.call {} callee args' target) =
            genCall target (genArgs A args') := by
          funext g
          simp [genExpr]
        refine .of_value ?_ fun {g R env G} hg hopen henv => ?_
        · funext t f g
          rw [genCond_eq]
          rfl
        · rw [hgen]
          have hcall := genCall_computes hg target (genArgs_lowers A args')
            (genArgs_computesAll hst ha (G := G) hg hopen henv)
          rw [hname, hvoid] at hcall
          exact hcall
/-- The same for the arguments of a call. -/
theorem genArgs_computesAll (hst : Static voids A S) {es : List Expr} {es' : List AExpr}
    (h : analyzeArgs S es = .ok es') {g : IRGen} {R : Regs} {env : Env} {G : Globals}
    (hg : g.WF) (hopen : g.isSealed = false) (henv : EnvRel A g R S.scopes env) :
    ComputesAll F call n (genArgs A es') g R G (evalArgs voids call env es G) := by
  match es with
  | [] =>
    cases h
    intro _
    exact .of_post ⟨R, rfl, hopen, .refl _ _, by simp [genArgs], rfl⟩
  | e :: es =>
    simp only [analyzeArgs, bind_eq_ok] at h
    obtain ⟨e', he, es', hes, h⟩ := h
    cases h
    intro hc
    have h₁ := fun k => genExpr_lowers A e' k g hg
    have h₂ := genArgs_lowers A es' 0 _ (h₁ 0).wf
    refine ((genExpr_lowered hst he).value hg hopen henv (hc.of_grows (h₁ 0).wf h₂)).bind ?_
    rintro a _ - ⟨R₁, rfl, hopen₁, hR₁, hbelow, hval⟩
    refine (genArgs_computesAll hst hes (h₁ 0).wf hopen₁ (henv.after hg h₁ hR₁) hc).bind ?_
    rintro b _ - ⟨R₂, rfl, hopen₂, hR₂, hbelow', hval'⟩
    refine .of_post ⟨R₂, rfl, hopen₂, hR₁.trans hR₂ (h₁ 0).nextVreg_le, ?_, ?_⟩
    · intro v hv
      rcases List.mem_cons.mp hv with rfl | hv
      · exact hbelow.mono h₂.nextVreg_le
      · exact hbelow' v hv
    · show (genExpr A e' g).1.eval R₂ :: _ = _
      rw [hbelow.eval hR₂, hval, hval']
end

end Lowered

end IRGen

end ToyC
