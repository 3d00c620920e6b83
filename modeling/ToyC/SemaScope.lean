import ToyC.Sema

/-!
# What the analysis does to its tables

Analysing a statement only adds: symbols at the end of the arena, declarations
in the innermost scope. `Grows` states this once, with the names declared, and
`analyzeStmt_grows` proves it of every statement; what a name resolves to after
a statement follows from it (`Grows.lookup`).
-/

namespace ToyC

/-! ## The names a statement declares -/

mutual
/-- The names a statement declares in the scope it stands in, newest first. A
block declares none; the branch of an `if` or the body of a `while` that is a bare
declaration does. -/
def Stmt.binds : Stmt → List String
  | .varDecl _ _ name _ => [name]
  | .ifStmt _ _ then_ none => then_.binds
  | .ifStmt _ _ then_ (some else_) => else_.binds ++ then_.binds
  | .whileStmt _ _ body => body.binds
  | _ => []
/-- The same for the statements of a block. -/
def Stmts.binds : List Stmt → List String
  | [] => []
  | s :: ss => Stmts.binds ss ++ s.binds
end

namespace Sema

/-! ## Growth -/

/-- Add declarations to the innermost scope of a stack. -/
def extendTop (added : Scope) : List Scope → List Scope
  | [] => []
  | scope :: outer => (added ++ scope) :: outer

@[simp] theorem extendTop_nil (scopes : List Scope) : extendTop [] scopes = scopes := by
  cases scopes <;> rfl

theorem extendTop_extendTop (a b : Scope) (scopes : List Scope) :
    extendTop a (extendTop b scopes) = extendTop (a ++ b) scopes := by
  cases scopes with
  | nil => rfl
  | cons scope outer => simp [extendTop]

/-- **The tables after an analysis step**: new symbols at the end of the arena,
the names declared in the innermost scope, and nothing else. -/
structure Grows (S : Sema) (names : List String) (S' : Sema) : Prop where
  funcs : S'.funcs = S.funcs
  globalCount : S'.globalCount = S.globalCount
  loopDepth : S'.loopDepth = S.loopDepth
  arena : ∃ syms, S'.arena = S.arena ++ syms
  scopes : ∃ added : Scope, S'.scopes = extendTop added S.scopes ∧
    added.map Prod.fst = names ∧ (added.map Prod.snd).Nodup ∧
    ∀ p ∈ added, S.arena.length ≤ p.2 ∧ p.2 < S'.arena.length

theorem Grows.refl (S : Sema) : Grows S [] S :=
  ⟨rfl, rfl, rfl, ⟨[], by simp⟩, [], by simp, rfl, by simp, by simp⟩

theorem Grows.length_le {S S' : Sema} {names : List String} (h : Grows S names S') :
    S.arena.length ≤ S'.arena.length := by
  obtain ⟨syms, hs⟩ := h.arena
  simp [hs]

theorem Grows.trans {S₁ S₂ S₃ : Sema} {a b : List String} (h₁ : Grows S₁ a S₂)
    (h₂ : Grows S₂ b S₃) : Grows S₁ (b ++ a) S₃ := by
  refine ⟨h₂.funcs.trans h₁.funcs, h₂.globalCount.trans h₁.globalCount,
    h₂.loopDepth.trans h₁.loopDepth, ?_, ?_⟩
  · obtain ⟨s₁, hs₁⟩ := h₁.arena
    obtain ⟨s₂, hs₂⟩ := h₂.arena
    exact ⟨s₁ ++ s₂, by rw [hs₂, hs₁, List.append_assoc]⟩
  · obtain ⟨a₁, hsc₁, hn₁, hnd₁, hid₁⟩ := h₁.scopes
    obtain ⟨a₂, hsc₂, hn₂, hnd₂, hid₂⟩ := h₂.scopes
    refine ⟨a₂ ++ a₁, ?_, by rw [List.map_append, hn₁, hn₂], ?_, ?_⟩
    · rw [hsc₂, hsc₁, extendTop_extendTop]
    · rw [List.map_append, List.nodup_append]
      refine ⟨hnd₂, hnd₁, fun i hi j hj => ?_⟩
      obtain ⟨p, hp, rfl⟩ := List.mem_map.mp hi
      obtain ⟨q, hq, rfl⟩ := List.mem_map.mp hj
      exact (Nat.ne_of_lt (Nat.lt_of_lt_of_le (hid₁ q hq).2 (hid₂ p hp).1)).symm
    · intro p hp
      rcases List.mem_append.mp hp with hp | hp
      · obtain ⟨hlo, hhi⟩ := hid₂ p hp
        exact ⟨Nat.le_trans h₁.length_le hlo, hhi⟩
      · obtain ⟨hlo, hhi⟩ := hid₁ p hp
        exact ⟨hlo, Nat.lt_of_lt_of_le hhi h₂.length_le⟩

/-- Declaring a symbol. -/
theorem grows_declare (S : Sema) (sym : Symbol) :
    Grows S [sym.name] (S.declare sym).2 := by
  refine ⟨rfl, rfl, rfl, ⟨[sym], rfl⟩, [(sym.name, S.arena.length)], ?_, rfl, by simp, ?_⟩
  · unfold declare extendTop
    cases S.scopes <;> rfl
  · simp [declare]

/-- What happens in an inner scope is gone when it is left. -/
theorem Grows.popScope {S S' : Sema} {names : List String}
    (h : Grows S.pushScope names S') : Grows S [] S'.popScope := by
  obtain ⟨added, hsc, -⟩ := h.scopes
  refine ⟨h.funcs, h.globalCount, h.loopDepth, h.arena, [], ?_, rfl, by simp, by simp⟩
  simp only [Sema.popScope, hsc, pushScope, extendTop, List.tail_cons]
  cases S.scopes <;> rfl

theorem Grows.scopes_ne_nil {S S' : Sema} {names : List String} (h : Grows S names S')
    (hne : S.scopes ≠ []) : S'.scopes ≠ [] := by
  obtain ⟨added, hsc, -⟩ := h.scopes
  rw [hsc]
  cases hs : S.scopes with
  | nil => exact absurd hs hne
  | cons scope outer => exact List.cons_ne_nil _ _

/-- A step that declares nothing leaves the scopes as they are. -/
theorem Grows.scopes_eq {S S' : Sema} (h : Grows S [] S') : S'.scopes = S.scopes := by
  obtain ⟨added, hsc, hn, -⟩ := h.scopes
  rw [hsc, List.map_eq_nil_iff.mp hn, extendTop_nil]

/-- Only the innermost scope changes. -/
theorem Grows.scopes_tail {S S' : Sema} {names : List String} (h : Grows S names S') :
    S'.scopes.tail = S.scopes.tail := by
  obtain ⟨added, hsc, -⟩ := h.scopes
  rw [hsc]
  cases S.scopes <;> rfl

/-- **Tables in order**: what is in scope is in the arena, each symbol once. -/
structure InOrder (S : Sema) : Prop where
  lt : ∀ scope ∈ S.scopes, ∀ p ∈ scope, p.2 < S.arena.length
  nodup : (S.scopes.flatten.map Prod.snd).Nodup

theorem InOrder.pushScope {S : Sema} (h : S.InOrder) : S.pushScope.InOrder := by
  refine ⟨fun scope hs p hp => ?_, by simpa [Sema.pushScope] using h.nodup⟩
  rcases List.mem_cons.mp hs with rfl | hs
  · cases hp
  · exact h.lt scope hs p hp

theorem Grows.inOrder {S S' : Sema} {names : List String} (h : Grows S names S')
    (hS : S.InOrder) : S'.InOrder := by
  obtain ⟨added, hsc, -, hnd, hid⟩ := h.scopes
  cases hs : S.scopes with
  | nil =>
    rw [hs] at hsc
    exact ⟨by simp [hsc, extendTop], by simp [hsc, extendTop]⟩
  | cons scope outer =>
    rw [hs] at hsc
    have hlt : ∀ sc ∈ scope :: outer, ∀ p ∈ sc, p.2 < S.arena.length := by
      rw [← hs]
      exact hS.lt
    have hnd₀ : ((scope :: outer).flatten.map Prod.snd).Nodup := by
      rw [← hs]
      exact hS.nodup
    constructor
    · rw [hsc]
      intro sc hsc' p hp
      rcases List.mem_cons.mp hsc' with rfl | hmem
      · rcases List.mem_append.mp hp with hp | hp
        · exact (hid p hp).2
        · exact Nat.lt_of_lt_of_le (hlt scope List.mem_cons_self p hp) h.length_le
      · exact Nat.lt_of_lt_of_le (hlt sc (List.mem_cons_of_mem _ hmem) p hp) h.length_le
    · rw [hsc, extendTop, List.flatten_cons, List.append_assoc, List.map_append,
        ← List.flatten_cons, List.nodup_append]
      refine ⟨hnd, hnd₀, fun i hi j hj => ?_⟩
      obtain ⟨p, hp, rfl⟩ := List.mem_map.mp hi
      obtain ⟨q, hq, rfl⟩ := List.mem_map.mp hj
      obtain ⟨sc, hsc', hq⟩ := List.mem_flatten.mp hq
      exact (Nat.ne_of_lt (Nat.lt_of_lt_of_le (hlt sc hsc' q hq) (hid p hp).1)).symm

/-! ## Resolution after a step -/

/-- A lookup in two lists of declarations tries the first, then the second. -/
theorem lookup_append {α β : Type} [BEq α] (x : α) (a b : List (α × β)) :
    (a ++ b).lookup x = (a.lookup x).or (b.lookup x) := by
  induction a with
  | nil => rfl
  | cons p a ih =>
    obtain ⟨k, v⟩ := p
    simp only [List.cons_append, List.lookup_cons, ih]
    cases x == k <;> rfl

/-- **Resolution after a step**: a name declared by it resolves to what it
declared, any other name as before. -/
theorem Grows.lookup {S S' : Sema} {names : List String} (h : Grows S names S')
    (hne : S.scopes ≠ []) (x : String) :
    (x ∈ names ∧ ∃ id, S'.lookup x = some id ∧ S.arena.length ≤ id ∧
        id < S'.arena.length) ∨
      (x ∉ names ∧ S'.lookup x = S.lookup x) := by
  obtain ⟨added, hsc, rfl, -, hid⟩ := h.scopes
  obtain ⟨scope, outer, hs⟩ := List.exists_cons_of_ne_nil hne
  have hlook : S'.lookup x = (added.lookup x).or (S.lookup x) := by
    simp only [Sema.lookup, hsc, hs, extendTop, List.findSome?_cons, lookup_append]
    cases added.lookup x <;> rfl
  cases hx : added.lookup x with
  | none =>
    refine .inr ⟨?_, by rw [hlook, hx]; rfl⟩
    rw [List.lookup_eq_none_iff] at hx
    intro hmem
    obtain ⟨p, hp, rfl⟩ := List.mem_map.mp hmem
    simpa using hx p hp
  | some id =>
    obtain ⟨l₁, l₂, hl, -⟩ := List.lookup_eq_some_iff.mp hx
    have hmem : (x, id) ∈ added := by
      rw [hl]
      simp
    exact .inl ⟨List.mem_map_of_mem hmem, id, by rw [hlook, hx]; rfl, hid _ hmem⟩

/-! ## Every statement grows the tables -/

theorem analyzeVarDecl_grows {S S' : Sema} {line : Nat} {isConst : Bool} {name : String}
    {init : Expr} {s' : AStmt} (h : analyzeVarDecl S line isConst name init = .ok (s', S')) :
    Grows S [name] S' := by
  simp only [analyzeVarDecl, bind_eq_ok] at h
  obtain ⟨e, -, h⟩ := h
  cases isConst with
  | true =>
    by_cases hc : e.isConst = true
    · simp only [if_true, hc, Bool.not_true, Bool.false_eq_true, if_false] at h
      cases h
      exact grows_declare S
        { kind := .Const, name, isConst := true, constValue := e.constValue }
    · simp [hc, error] at h
  | false =>
    simp only [Bool.false_eq_true, if_false] at h
    cases h
    exact grows_declare S { kind := .LocalVar, name }

mutual
/-- **Analysing a statement grows the tables** by the names it declares. -/
theorem analyzeStmt_grows {S S' : Sema} {s : Stmt} {s' : AStmt}
    (h : analyzeStmt S s = .ok (s', S')) : Grows S s.binds S' := by
  match s with
  | .block _ ss =>
    simp only [analyzeStmt, bind_eq_ok, Prod.exists] at h
    obtain ⟨ss', S₁, hss, h⟩ := h
    cases h
    exact (analyzeStmts_grows hss).popScope
  | .empty _ =>
    cases h
    exact .refl S
  | .exprStmt _ e =>
    simp only [analyzeStmt, bind_eq_ok] at h
    obtain ⟨e', -, h⟩ := h
    cases h
    exact .refl S
  | .assign line name value =>
    simp only [analyzeStmt, bind_eq_ok] at h
    obtain ⟨s', -, h⟩ := h
    cases h
    exact .refl S
  | .varDecl line isConst name init => exact analyzeVarDecl_grows h
  | .ifStmt _ cond then_ none =>
    simp only [analyzeStmt, bind_eq_ok, Prod.exists] at h
    obtain ⟨cond', -, then', S₁, hthen, h⟩ := h
    cases h
    show Grows S then_.binds S'
    exact analyzeStmt_grows hthen
  | .ifStmt _ cond then_ (some else_) =>
    simp only [analyzeStmt, bind_eq_ok, Prod.exists] at h
    obtain ⟨cond', -, then', S₁, hthen, else', S₂, helse, h⟩ := h
    cases h
    exact (analyzeStmt_grows hthen).trans (analyzeStmt_grows helse)
  | .whileStmt _ cond body =>
    simp only [analyzeStmt, bind_eq_ok, Prod.exists] at h
    obtain ⟨cond', -, body', S₁, hbody, h⟩ := h
    cases h
    have hg := analyzeStmt_grows hbody
    exact ⟨hg.funcs, hg.globalCount, by simp [hg.loopDepth], hg.arena, hg.scopes⟩
  | .breakStmt line | .continueStmt line =>
    simp only [analyzeStmt] at h
    split at h
    · cases h
    · cases h
      exact .refl S
  | .returnStmt _ none =>
    cases h
    exact .refl S
  | .returnStmt _ (some value) =>
    simp only [analyzeStmt, bind_eq_ok] at h
    obtain ⟨value', -, h⟩ := h
    cases h
    exact .refl S
/-- The same for the statements of a block. -/
theorem analyzeStmts_grows {S S' : Sema} {ss : List Stmt} {ss' : List AStmt}
    (h : analyzeStmts S ss = .ok (ss', S')) : Grows S (Stmts.binds ss) S' := by
  match ss with
  | [] =>
    cases h
    exact .refl S
  | s :: ss =>
    simp only [analyzeStmts, bind_eq_ok, Prod.exists] at h
    obtain ⟨s', S₁, hs, ss', S₂, hss, h⟩ := h
    cases h
    exact (analyzeStmt_grows hs).trans (analyzeStmts_grows hss)
end

/-- Declaring the parameters of a function. -/
theorem declareParams_grows (S : Sema) (ps : List String) :
    Grows S ps.reverse (declareParams S ps).2 := by
  induction ps generalizing S with
  | nil => exact .refl S
  | cons p ps ih =>
    rw [List.reverse_cons]
    exact (grows_declare S { kind := .Param, name := p }).trans (ih _)

/-- Analysing a function leaves the scopes as they were. -/
theorem analyzeFunc_grows {S S' : Sema} {fn : FuncDef} {fn' : AFuncDef}
    (h : analyzeFunc S fn = .ok (fn', S')) : Grows S [] S' := by
  simp only [analyzeFunc, bind_eq_ok, Prod.exists] at h
  obtain ⟨body, S₁, hbody, h⟩ := h
  cases h
  exact ((declareParams_grows S.pushScope fn.params).trans
    (analyzeStmt_grows hbody)).popScope

end Sema

end ToyC
