import ToyC.DeclOrder
import ToyC.IRGenInit

/-!
# Functions of one block

A function that is lowered to one block has no loops, and no branches but those that a constant
condition decides. Such code comes to its statements in the order in which they are lowered. So a
variable that has a vreg when the generator asks for it has a value as well: it was declared before,
and its declaration writes the vreg, or it is a parameter.

Hence a function of one block reads what it wrote, if the generator finds the vregs it names
(`genFunc_readsWritten_of_one`). These are the functions that are inlined.
-/

namespace ToyC

/-! ## Expressions -/

section Exprs

variable {S : Sema} {B : List SymId} {p : SymId → Bool}

/-- **An expression does not come to a variable**, neither its code nor where its value is used. -/
structure AExpr.Unread (S : Sema) (p : SymId → Bool) (e : AExpr) : Prop where
  isVar : e.isVar S p = false
  reads : e.reads S p = false
  condReads : e.condReads S p = false

mutual
/-- **What is bound, but not named, is not read.** -/
theorem AExpr.unread (e : AExpr) (he : e.bound S B = true)
    (hB : ∀ x ∈ B, x ∈ e.syms → p x = false) : e.Unread S p := by
  match e with
  | .number _ _ => exact ⟨rfl, rfl, rfl⟩
  | .var note name sym =>
    have hvar : (AExpr.var note name sym).isVar S p = false := by
      simp only [AExpr.bound, Bool.or_eq_true, decide_eq_true_eq] at he
      rcases he with (hc | hlocal) | hmem
      · simp [AExpr.isVar, hc]
      · simp only [Bool.not_eq_true'] at hlocal
        simp [AExpr.isVar, hlocal]
      · simp [AExpr.isVar, hB sym hmem List.mem_cons_self]
    exact ⟨hvar, rfl, hvar⟩
  | .binary note op lhs rhs =>
    rcases Bool.or_eq_true_iff.mp he with hc | he
    · constructor <;> simp [AExpr.isVar, AExpr.reads, AExpr.condReads, hc]
    · obtain ⟨hl, hr⟩ := Bool.and_eq_true_iff.mp he
      have ihl := lhs.unread hl fun x hx h => hB x hx (List.mem_append_left _ h)
      have ihr := rhs.unread hr fun x hx h => hB x hx (List.mem_append_right _ h)
      constructor <;> simp [AExpr.isVar, AExpr.reads, AExpr.condReads, ihl.isVar, ihl.reads,
        ihr.isVar, ihr.reads]
  | .logical note isOr lhs rhs =>
    rcases Bool.or_eq_true_iff.mp he with hc | he
    · constructor <;> simp [AExpr.isVar, AExpr.reads, AExpr.condReads, hc]
    · obtain ⟨hl, hr⟩ := Bool.and_eq_true_iff.mp he
      have ihl := lhs.unread hl fun x hx h => hB x hx (List.mem_append_left _ h)
      have ihr := rhs.unread hr fun x hx h => hB x hx (List.mem_append_right _ h)
      constructor <;> simp [AExpr.isVar, AExpr.reads, AExpr.condReads, ihl.condReads,
        ihr.condReads]
  | .unary note op operand =>
    rcases Bool.or_eq_true_iff.mp he with hc | he
    · constructor <;> cases op <;> simp [AExpr.isVar, AExpr.reads, AExpr.condReads, hc]
    · have ih := operand.unread he hB
      constructor <;> cases op <;> simp [AExpr.isVar, AExpr.reads, AExpr.condReads, ih.isVar,
        ih.reads, ih.condReads]
  | .call note name args target =>
    rcases Bool.or_eq_true_iff.mp he with hc | he
    · constructor <;> simp [AExpr.isVar, AExpr.reads, AExpr.condReads, hc]
    · have ih := AExpr.argsUnread args he hB
      constructor <;> simp [AExpr.isVar, AExpr.reads, AExpr.condReads, ih]
theorem AExpr.argsUnread (es : List AExpr) (he : AExpr.boundAll S B es = true)
    (hB : ∀ x ∈ B, x ∈ AExprs.syms es → p x = false) : AExpr.argsRead S p es = false := by
  match es with
  | [] => rfl
  | e :: es =>
    obtain ⟨he, hes⟩ := Bool.and_eq_true_iff.mp he
    have ih := e.unread he fun x hx h => hB x hx (List.mem_append_left _ h)
    have ihs := AExpr.argsUnread es hes fun x hx h => hB x hx (List.mem_append_right _ h)
    simp [AExpr.argsRead, ih.isVar, ih.reads, ihs]
end

/-- A bare name that is not used is not read. -/
theorem AExpr.reads_of_isName {e : AExpr} (he : e.isName = true) : e.reads S p = false := by
  match e with
  | .var _ _ _ => rfl
  | .unary note .Plus operand =>
    simp [AExpr.reads, operand.reads_of_isName (show operand.isName = true from he)]
  | .number _ _ | .binary _ _ _ _ | .logical _ _ _ _ | .unary _ .Neg _ | .unary _ .Not _
  | .call _ _ _ _ => cases he

/-- Code that is bound by variables that are not looked for. -/
theorem AExpr.uses_of_bound {e : AExpr} (he : e.bound S B = true) (hB : ∀ x ∈ B, p x = false) :
    e.uses S p = false := by
  have h := e.unread he fun x hx _ => hB x hx
  rw [AExpr.uses, h.reads, h.isVar]
  rfl

end Exprs

/-! ## Statements -/

namespace IRGen

open Sema

/-- A declaration is new to the expression it is initialised with. -/
theorem not_mem_syms {S : Sema} (hS : S.InOrder) {e : Expr} {e' : AExpr}
    (h : analyzeExpr S e = .ok e') : S.arena.length ∉ e'.syms := by
  intro hmem
  have hlook : some S.arena.length ∈ e.names.map S.lookup :=
    (analyzeExpr_resolves h).syms ▸ List.mem_map_of_mem hmem
  obtain ⟨x, -, hx⟩ := List.mem_map.mp hlook
  obtain ⟨scope, hscope, hlookup⟩ := List.exists_of_findSome?_eq_some hx
  obtain ⟨l₁, l₂, hl, -⟩ := List.lookup_eq_some_iff.mp hlookup
  exact Nat.lt_irrefl _ (hS.lt scope hscope (x, S.arena.length) (by rw [hl]; simp))

/-- Code that goes on in a block of its own has added one. -/
theorem Grows.length_lt {k : Nat} {g g' : IRGen} (h : Grows k g g')
    (hcur : g.blocks.length ≤ g'.curBB) : g.blocks.length < g'.blocks.length :=
  Nat.lt_of_le_of_lt hcur h.wf.cur_lt

theorem genIf_length {k : Nat} {cond : Nat → Nat → IRGen → IRGen} {then_ : IRGen → IRGen}
    (hc : Jumps cond) (ht : Writes k then_) {g : IRGen} (hg : g.WF) :
    g.blocks.length < (genIf cond then_ g).blocks.length := by
  refine (genIf_writes hc ht g hg).length_lt ?_
  rw [genIf_eq]
  exact Nat.le_succ _

theorem genIfElse_length {k : Nat} {cond : Nat → Nat → IRGen → IRGen} {then_ else_ : IRGen → IRGen}
    (hc : Jumps cond) (ht : Writes k then_) (he : Writes k else_) {g : IRGen} (hg : g.WF) :
    g.blocks.length < (genIfElse cond then_ else_ g).blocks.length := by
  refine (genIfElse_writes hc ht he g hg).length_lt ?_
  rw [genIfElse_eq]
  exact Nat.le_succ _

theorem genWhile_length {k : Nat} {cond : Nat → Nat → IRGen → IRGen} {body : IRGen → IRGen}
    (hc : Jumps cond) (hb : Writes k body) {g : IRGen} (hg : g.WF) :
    g.blocks.length < (genWhile cond body g).blocks.length := by
  refine (genWhile_writes hc hb g hg).length_lt ?_
  rw [genWhile_eq]
  exact Nat.le_add_right _ 2

/-- **Paths that do not come to a variable**, and where they come out it is not among those that are
bound. -/
structure Avoids (p : SymId → Bool) (P : Paths) (B : List SymId) : Prop where
  reads : P.reads = false
  passes : P.passes = true → ∀ x ∈ B, p x = false

section Stmts

variable {A : Sema} {p : SymId → Bool}

mutual
/-- **A statement that adds no block** does not read what is not bound. -/
theorem genStmt_avoids {S S' : Sema} {s : Stmt} {s' : AStmt} (h : analyzeStmt S s = .ok (s', S'))
    (hS : S.InOrder) {B B' : List SymId} (hB : s'.bound A B = some B')
    (hp : ∀ x ∈ B, p x = false) {g : IRGen} (hg : g.WF)
    (hlen : (genStmt A s' g).blocks.length ≤ g.blocks.length) : Avoids p (s'.paths A p) B' := by
  match s with
  | .block _ ss =>
    simp only [analyzeStmt, bind_eq_ok, Prod.exists] at h
    obtain ⟨ss', S₁, hss, h⟩ := h
    cases h
    exact genStmts_avoids hss hS.pushScope hB hp hg hlen
  | .empty _ =>
    cases h
    cases hB
    exact ⟨rfl, fun _ => hp⟩
  | .exprStmt _ e =>
    simp only [analyzeStmt, bind_eq_ok] at h
    obtain ⟨e', -, h⟩ := h
    cases h
    obtain ⟨he, hB⟩ := Option.ite_none_right_eq_some.mp hB
    cases hB
    refine ⟨?_, fun _ => hp⟩
    rcases Bool.or_eq_true_iff.mp he with he | he
    · exact AExpr.reads_of_isName he
    · exact (e'.unread he fun x hx _ => hp x hx).reads
  | .assign line x value =>
    simp only [analyzeStmt, bind_eq_ok] at h
    obtain ⟨s₁, hs₁, h⟩ := h
    cases h
    unfold analyzeAssign at hs₁
    split at hs₁
    · cases hs₁
    · split at hs₁
      · cases hs₁
      · simp only [bind_eq_ok] at hs₁
        obtain ⟨value', -, hs₁⟩ := hs₁
        cases hs₁
        obtain ⟨hbound, hB⟩ := Option.ite_none_right_eq_some.mp hB
        cases hB
        exact ⟨AExpr.uses_of_bound (Bool.and_eq_true_iff.mp hbound).1 hp, fun _ => hp⟩
  | .varDecl line isConst x init =>
    simp only [analyzeStmt, analyzeVarDecl, bind_eq_ok] at h
    obtain ⟨init', hinit, h⟩ := h
    split at h
    · split at h
      · cases h
      · cases h
        cases hB
        exact ⟨rfl, fun _ => hp⟩
    · cases h
      obtain ⟨hbound, hB⟩ := Option.ite_none_right_eq_some.mp hB
      cases hB
      have hunread := init'.unread (p := p) hbound fun y hy hmem => by
        rcases List.mem_cons.mp hy with rfl | hy
        · exact absurd hmem (not_mem_syms hS hinit)
        · exact hp y hy
      refine ⟨by simp [AStmt.paths, AExpr.uses, hunread.reads, hunread.isVar], fun hpass => ?_⟩
      exact List.forall_mem_cons.mpr ⟨by simpa [AStmt.paths] using hpass, hp⟩
  | .ifStmt _ cond then_ none =>
    simp only [analyzeStmt, bind_eq_ok, Prod.exists] at h
    obtain ⟨cond', -, then', S₁, hthen, h⟩ := h
    cases h
    simp only [genStmt, AStmt.bound, AStmt.paths] at hlen hB ⊢
    split at hlen
    · rename_i hc
      rw [if_pos hc] at hB ⊢
      split at hlen
      · rename_i hv
        rw [if_pos hv] at hB ⊢
        exact genStmt_avoids hthen hS hB hp hg hlen
      · rename_i hv
        rw [if_neg hv] at hB ⊢
        cases hB
        exact ⟨rfl, fun _ => hp⟩
    · exact absurd (genIf_length (genCond_jumps A cond') (genStmt_writes hthen (Nat.zero_le _)) hg)
        (Nat.not_lt.mpr hlen)
  | .ifStmt _ cond then_ (some else_) =>
    simp only [analyzeStmt, bind_eq_ok, Prod.exists] at h
    obtain ⟨cond', -, then', S₁, hthen, else', S₂, helse, h⟩ := h
    cases h
    simp only [genStmt, AStmt.bound, AStmt.paths] at hlen hB ⊢
    split at hlen
    · rename_i hc
      rw [if_pos hc] at hB ⊢
      split at hlen
      · rename_i hv
        rw [if_pos hv] at hB ⊢
        exact genStmt_avoids hthen hS hB hp hg hlen
      · rename_i hv
        rw [if_neg hv] at hB ⊢
        exact genStmt_avoids helse ((analyzeStmt_grows hthen).inOrder hS) hB hp hg hlen
    · exact absurd (genIfElse_length (genCond_jumps A cond') (genStmt_writes hthen (Nat.zero_le _))
        (genStmt_writes helse (Nat.zero_le _)) hg) (Nat.not_lt.mpr hlen)
  | .whileStmt _ cond body =>
    simp only [analyzeStmt, bind_eq_ok, Prod.exists] at h
    obtain ⟨cond', -, body', S₁, hbody, h⟩ := h
    cases h
    exact absurd (genWhile_length (genCond_jumps A cond') (genStmt_writes hbody (Nat.zero_le _)) hg)
      (Nat.not_lt.mpr hlen)
  | .breakStmt line | .continueStmt line =>
    simp only [analyzeStmt] at h
    split at h
    · cases h
    · cases h
      exact ⟨rfl, fun hpass => (by cases hpass)⟩
  | .returnStmt _ none =>
    cases h
    exact ⟨rfl, fun hpass => (by cases hpass)⟩
  | .returnStmt _ (some value) =>
    simp only [analyzeStmt, bind_eq_ok] at h
    obtain ⟨value', -, h⟩ := h
    cases h
    obtain ⟨hbound, -⟩ := Option.ite_none_right_eq_some.mp hB
    exact ⟨AExpr.uses_of_bound hbound hp, fun hpass => (by cases hpass)⟩
/-- The same for the statements of a block. -/
theorem genStmts_avoids {S S' : Sema} {ss : List Stmt} {ss' : List AStmt}
    (h : analyzeStmts S ss = .ok (ss', S')) (hS : S.InOrder) {B B' : List SymId}
    (hB : AStmt.boundAll A B ss' = some B') (hp : ∀ x ∈ B, p x = false) {g : IRGen} (hg : g.WF)
    (hlen : (genStmts A ss' g).blocks.length ≤ g.blocks.length) :
    Avoids p (AStmt.pathsAll A p ss') B' := by
  match ss with
  | [] =>
    cases h
    cases hB
    exact ⟨rfl, fun _ => hp⟩
  | s :: ss =>
    simp only [analyzeStmts, bind_eq_ok, Prod.exists] at h
    obtain ⟨s', S₁, hs, ss', S₂, hss, h⟩ := h
    cases h
    obtain ⟨B₁, hB₁, hB⟩ := Option.bind_eq_some_iff.mp hB
    have h₁ := genStmt_writes (A := A) hs (Nat.zero_le _) g hg
    have h₂ := genStmts_writes (A := A) hss (Nat.zero_le _) _ h₁.wf
    have hfirst := genStmt_avoids hs hS hB₁ hp hg (h₂.length_le.trans hlen)
    cases hpass : (s'.paths A p).passes with
    | false =>
      exact ⟨by simp [AStmt.pathsAll, Paths.seq, Paths.or, Paths.guard, hfirst.reads, hpass],
        fun h => by simp [AStmt.pathsAll, Paths.seq, Paths.or, Paths.guard, hpass] at h⟩
    | true =>
      have hrest := genStmts_avoids hss ((analyzeStmt_grows hs).inOrder hS) hB
        (hfirst.passes hpass) h₁.wf (hlen.trans h₁.length_le)
      exact ⟨by simp [AStmt.pathsAll, Paths.seq, Paths.or, Paths.guard, hfirst.reads, hrest.reads],
        fun h => hrest.passes (by
          simpa [AStmt.pathsAll, Paths.seq, Paths.or, Paths.guard, hpass] using h)⟩
end

end Stmts

/-! ## Functions -/

/-- A body is closed in its last block. -/
theorem finish_length_le {g : IRGen} (hg : g.WF) : g.blocks.length ≤ g.finish.blocks.length := by
  unfold finish
  split
  · exact Nat.le_refl _
  · split <;> exact (termRet_grows (k := 0) hg _ _).length_le

/-- **A function of one block reads what it wrote**, if the generator finds the vregs it names. -/
theorem genFunc_readsWritten_of_one {A S S' : Sema} {fn₀ : FuncDef} {fn : AFuncDef}
    (h : analyzeFunc S fn₀ = .ok (fn, S')) (hdepth : S.loopDepth = 0) (hS : S.InOrder)
    (hB : (fn.body.bound A fn.paramSyms).isSome) (hone : (genFunc A fn).blocks.length = 1) :
    (genFunc A fn).ReadsWritten := by
  refine (genFunc_readsWritten_iff h hdepth hB).mpr fun x hx => ?_
  obtain ⟨-, hcov, -⟩ := genFunc_entry A fn
  have hlen : (behindBody A fn).finish.blocks.length ≤ 1 := hone ▸ hcov.length_le
  obtain ⟨B, hB⟩ := Option.isSome_iff_exists.mp hB
  simp only [analyzeFunc, bind_eq_ok, Prod.exists] at h
  obtain ⟨body, S₁, hbody, h⟩ := h
  cases h
  obtain ⟨hg, -⟩ := genParams_vregs fn₀.params (S := S.pushScope) (entry_wf fn₀.returnsVoid)
    fun _ _ h => by cases h
  have hwrites := genStmt_writes (A := A) hbody (Nat.zero_le _) _ hg
  have havoids := genStmt_avoids (p := (· == x)) hbody
    ((declareParams_grows S.pushScope fn₀.params).inOrder hS.pushScope) hB ?_ hg ?_
  · exact havoids.reads
  · exact fun y hy => beq_false_of_ne fun heq => hx (heq ▸ hy)
  · refine (finish_length_le hwrites.wf).trans (hlen.trans (Nat.le_of_eq ?_))
    rw [genParams_snd]
    rfl

end IRGen

end ToyC
