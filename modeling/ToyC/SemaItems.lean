import ToyC.SemaScope

/-!
# The two passes over the items of a module

The first pass enters the globals and the functions of a module in the tables;
`ItemTable` says what the tables hold once a list of items is entered, and
`registerItems_table` that the pass gets there. The second pass walks the same
items and only replaces the functions by their analysed forms; it never loses
or moves an entry, so each body is analysed under the complete tables.
-/

namespace ToyC

namespace Sema

/-! ## Single items -/

/-- An item and what the first pass leaves of it. -/
inductive Registered.Of : TopLevel → Registered → Prop where
  | global {g : GlobalVar} {g' : AGlobalVar} (name : g'.name = g.name) :
      Registered.Of (.global g) (.global g')
  | func {fn : FuncDef} : Registered.Of (.func fn) (.func fn)

/-- The table of functions, and the counter of globals, are not read by the
resolution of a name. -/
theorem analyzeGlobal_ok {S S' : Sema} {g : GlobalVar} {g' : AGlobalVar}
    (h : analyzeGlobal S g = .ok (g', S')) :
    ∃ e sym, analyzeExpr S g.init = .ok e ∧ e.isConst = true ∧ sym.name = g.name ∧
      g' = { isConst := g.isConst, name := g.name, init := e, sym := S.arena.length,
             initValue := e.constValue } ∧
      S'.arena = S.arena ++ [sym] ∧
      S'.scopes = extendTop [(g.name, S.arena.length)] S.scopes ∧
      S'.funcs = S.funcs ∧ S'.loopDepth = S.loopDepth ∧
      (g.isConst = true → sym.kind = .Const ∧ sym.isConst = true ∧
        sym.constValue = e.constValue ∧ S'.globalCount = S.globalCount) ∧
      (g.isConst = false → sym.kind = .GlobalVar ∧ sym.isConst = false ∧
        sym.globalId = some S.globalCount ∧ S'.globalCount = S.globalCount + 1) := by
  simp only [analyzeGlobal, bind_eq_ok] at h
  obtain ⟨e, he, h⟩ := h
  by_cases hc : e.isConst = true
  · simp only [hc, Bool.not_true, Bool.false_eq_true, if_false] at h
    have hscopes : ∀ (S : Sema) (sym : Symbol),
        (S.declare sym).2.scopes = extendTop [(sym.name, S.arena.length)] S.scopes := by
      intro S sym
      unfold declare extendTop
      cases S.scopes <;> rfl
    cases hg : g.isConst with
    | true =>
      simp only [hg, if_true] at h
      cases h
      exact ⟨e,
        { kind := .Const, name := g.name, isConst := true, constValue := e.constValue },
        he, hc, rfl, rfl, rfl, hscopes _ _, rfl, rfl,
        fun _ => ⟨rfl, rfl, rfl, rfl⟩, fun h => absurd h (by simp)⟩
    | false =>
      simp only [hg, Bool.false_eq_true, if_false] at h
      cases h
      exact ⟨e, { kind := .GlobalVar, name := g.name, globalId := some S.globalCount },
        he, hc, rfl, rfl, rfl, hscopes _ _, rfl, rfl,
        fun h => absurd h (by simp), fun _ => ⟨rfl, rfl, rfl, rfl⟩⟩
  · simp [hc, error] at h

/-- What a successful registration of a function says, and what it changes. -/
theorem registerFunc_ok {S S' : Sema} {index : Nat} {fn : FuncDef}
    (h : registerFunc S index fn = .ok S') :
    S.funcs.lookup fn.name = none ∧
      S' = { S with funcs := (fn.name, FuncRef.mk index fn.name fn.returnsVoid
        fn.params.length) :: S.funcs } := by
  unfold registerFunc at h
  split at h
  · cases h
  · split at h
    · cases h
    · cases h
      rename_i hnew _
      exact ⟨Option.not_isSome_iff_eq_none.mp hnew, rfl⟩

/-- The tables stay in order. -/
theorem analyzeGlobal_inOrder {S S' : Sema} {g : GlobalVar} {g' : AGlobalVar}
    (h : analyzeGlobal S g = .ok (g', S')) (hS : S.InOrder) : S'.InOrder := by
  obtain ⟨e, sym, -, -, -, -, harena, hscopes, hfuncs, hdepth, -⟩ := analyzeGlobal_ok h
  -- The number of the globals plays no part in the order.
  have hgrows : Grows { S with globalCount := S'.globalCount } [g.name] S' :=
    ⟨hfuncs, rfl, hdepth, ⟨[sym], harena⟩, [(g.name, S.arena.length)], hscopes, rfl, by simp,
      by simp [harena]⟩
  exact hgrows.inOrder ⟨hS.lt, hS.nodup⟩

theorem registerItems_inOrder {items : List TopLevel} :
    ∀ {S S' : Sema} {index : Nat} {regs : List Registered},
      registerItems S index items = .ok (regs, S') → S.InOrder → S'.InOrder := by
  induction items with
  | nil =>
    intro S S' index regs h hS
    cases h
    exact hS
  | cons item items ih =>
    intro S S' index regs h hS
    cases item with
    | global g =>
      simp only [registerItems, bind_eq_ok, Prod.exists] at h
      obtain ⟨g', S₁, hg, regs₁, S₂, hitems, h⟩ := h
      cases h
      exact ih hitems (analyzeGlobal_inOrder hg hS)
    | func fn =>
      simp only [registerItems, bind_eq_ok, Prod.exists] at h
      obtain ⟨S₁, hf, regs₁, S₂, hitems, h⟩ := h
      cases h
      obtain ⟨-, rfl⟩ := registerFunc_ok hf
      exact ih hitems ⟨hS.lt, hS.nodup⟩

/-! ## The first pass -/

/-- **The tables once a list of items is entered.** A name resolves to the last
global that declares it, different globals have different symbols, and the table
of functions holds exactly the functions, each at its own position. -/
structure ItemTable (regs : List Registered) (S : Sema) : Prop where
  scopes : ∃ scope, S.scopes = [scope]
  lookup_sound : ∀ {x : String} {id : SymId}, S.lookup x = some id →
    ∃ (j : Nat) (g : AGlobalVar), regs[j]? = some (.global g) ∧ g.sym = id ∧ g.name = x
  lookup_last : ∀ {j : Nat} {g : AGlobalVar}, regs[j]? = some (.global g) →
    ∃ (j' : Nat) (g' : AGlobalVar), j ≤ j' ∧ regs[j']? = some (.global g') ∧
      S.lookup g.name = some g'.sym
  sym_lt : ∀ {j : Nat} {g : AGlobalVar}, regs[j]? = some (.global g) → g.sym < S.arena.length
  sym_inj : ∀ {j j' : Nat} {g g' : AGlobalVar}, regs[j]? = some (.global g) →
    regs[j']? = some (.global g') → g.sym = g'.sym → j = j'
  funcs_sound : ∀ {c : String} {r : FuncRef}, S.funcs.lookup c = some r →
    ∃ fn : FuncDef, regs[r.index]? = some (.func fn) ∧ fn.name = c ∧
      r = FuncRef.mk r.index fn.name fn.returnsVoid fn.params.length
  funcs_complete : ∀ {j : Nat} {fn : FuncDef}, regs[j]? = some (.func fn) →
    ∃ r, S.funcs.lookup fn.name = some r ∧ r.index = j

theorem itemTable_nil : ItemTable [] ({} : Sema).pushScope where
  scopes := ⟨[], rfl⟩
  lookup_sound h := by cases h
  lookup_last h := by cases h
  sym_lt h := by cases h
  sym_inj h := by cases h
  funcs_sound h := by cases h
  funcs_complete h := by cases h

/-- What stands at a position of a list with one more element. -/
theorem getElem?_snoc {α : Type} {l : List α} {a b : α} {j : Nat} :
    (l ++ [a])[j]? = some b ↔ l[j]? = some b ∨ (j = l.length ∧ a = b) := by
  rcases Nat.lt_trichotomy j l.length with hj | rfl | hj
  · rw [List.getElem?_append_left hj]
    exact ⟨.inl, fun h => h.resolve_right fun h => absurd h.1 (Nat.ne_of_lt hj)⟩
  · simp
  · rw [List.getElem?_eq_none (by simp; omega), List.getElem?_eq_none (by omega)]
    simp
    omega

/-- **Entering a global.** -/
theorem ItemTable.global {regs : List Registered} {S S' : Sema} {g : GlobalVar}
    {g' : AGlobalVar} (h : ItemTable regs S) (hg : analyzeGlobal S g = .ok (g', S')) :
    ItemTable (regs ++ [.global g']) S' := by
  obtain ⟨e, sym, -, -, -, rfl, harena, hscopes, hfuncs, -, -, -⟩ := analyzeGlobal_ok hg
  obtain ⟨scope, hscope⟩ := h.scopes
  have hlook : ∀ x, S'.lookup x =
      if x == g.name then some S.arena.length else S.lookup x := by
    intro x
    simp only [Sema.lookup, hscopes, hscope, extendTop, List.findSome?_cons,
      List.cons_append, List.nil_append, List.lookup_cons]
    cases x == g.name <;> rfl
  have hlen : S'.arena.length = S.arena.length + 1 := by rw [harena]; simp
  refine ⟨⟨_, by rw [hscopes, hscope]; rfl⟩, ?_, ?_, ?_, ?_, ?_, ?_⟩
  · intro x id hx
    rw [hlook] at hx
    split at hx
    · rename_i heq
      cases hx
      exact ⟨regs.length, _, getElem?_snoc.mpr (.inr ⟨rfl, rfl⟩), rfl,
        (eq_of_beq heq).symm⟩
    · obtain ⟨j, g₀, hj, hrest⟩ := h.lookup_sound hx
      exact ⟨j, g₀, getElem?_snoc.mpr (.inl hj), hrest⟩
  · intro j g₀ hj
    rw [hlook]
    by_cases heq : (g₀.name == g.name) = true
    · rw [if_pos heq]
      refine ⟨regs.length, _, ?_, getElem?_snoc.mpr (.inr ⟨rfl, rfl⟩), rfl⟩
      have := (List.getElem?_eq_some_iff.mp hj).1
      simp at this
      omega
    · rw [if_neg heq]
      rcases getElem?_snoc.mp hj with hj | ⟨-, hj⟩
      · obtain ⟨j', g₁, hle, hj', hx⟩ := h.lookup_last hj
        exact ⟨j', g₁, hle, getElem?_snoc.mpr (.inl hj'), hx⟩
      · cases hj
        simp at heq
  · intro j g₀ hj
    rcases getElem?_snoc.mp hj with hj | ⟨-, hj⟩
    · exact Nat.lt_of_lt_of_le (h.sym_lt hj) (by omega)
    · cases hj
      simp [hlen]
  · intro j j' g₀ g₁ hj hj' hsym
    rcases getElem?_snoc.mp hj with hj | ⟨rfl, heq⟩ <;>
      rcases getElem?_snoc.mp hj' with hj' | ⟨rfl, heq'⟩
    · exact h.sym_inj hj hj' hsym
    · cases heq'
      exact absurd (h.sym_lt hj) (by simp [hsym])
    · cases heq
      exact absurd (h.sym_lt hj') (by simp [← hsym])
    · rfl
  · intro c r hr
    rw [hfuncs] at hr
    obtain ⟨fn, hfn, hrest⟩ := h.funcs_sound hr
    exact ⟨fn, getElem?_snoc.mpr (.inl hfn), hrest⟩
  · intro j fn hj
    rw [hfuncs]
    rcases getElem?_snoc.mp hj with hj | ⟨-, hj⟩
    · exact h.funcs_complete hj
    · cases hj

/-- **Entering a function.** -/
theorem ItemTable.func {regs : List Registered} {S S' : Sema} {fn : FuncDef}
    (h : ItemTable regs S) (hf : registerFunc S regs.length fn = .ok S') :
    ItemTable (regs ++ [.func fn]) S' := by
  obtain ⟨hnew, rfl⟩ := registerFunc_ok hf
  have hglob : ∀ {j : Nat} {g : AGlobalVar},
      (regs ++ [.func fn])[j]? = some (.global g) → regs[j]? = some (.global g) := by
    intro j g hj
    rcases getElem?_snoc.mp hj with hj | ⟨-, hj⟩
    · exact hj
    · cases hj
  refine ⟨h.scopes, ?_, ?_, fun hj => h.sym_lt (hglob hj),
    fun hj hj' => h.sym_inj (hglob hj) (hglob hj'), ?_, ?_⟩
  · intro x id hx
    obtain ⟨j, g, hj, hrest⟩ := h.lookup_sound (x := x) hx
    exact ⟨j, g, getElem?_snoc.mpr (.inl hj), hrest⟩
  · intro j g hj
    obtain ⟨j', g', hle, hj', hx⟩ := h.lookup_last (hglob hj)
    exact ⟨j', g', hle, getElem?_snoc.mpr (.inl hj'), hx⟩
  · intro c r hr
    simp only [List.lookup_cons] at hr
    split at hr
    · rename_i heq
      cases hr
      exact ⟨fn, getElem?_snoc.mpr (.inr ⟨rfl, rfl⟩), (eq_of_beq heq).symm, rfl⟩
    · obtain ⟨fn₀, hfn₀, hrest⟩ := h.funcs_sound hr
      exact ⟨fn₀, getElem?_snoc.mpr (.inl hfn₀), hrest⟩
  · intro j fn₀ hj
    simp only [List.lookup_cons]
    rcases getElem?_snoc.mp hj with hj | ⟨rfl, heq⟩
    · obtain ⟨r, hr, hrest⟩ := h.funcs_complete hj
      have hne : (fn₀.name == fn.name) = false := by
        rw [beq_eq_false_iff_ne]
        intro heq
        rw [heq, hnew] at hr
        cases hr
      exact ⟨r, by rw [hne]; exact hr, hrest⟩
    · cases heq
      exact ⟨_, by rw [beq_self_eq_true], rfl⟩

/-- **The first pass enters the items**, in order, behind those already entered. -/
theorem registerItems_table {items : List TopLevel} :
    ∀ {S S' : Sema} {regs regs' : List Registered}, ItemTable regs S →
      registerItems S regs.length items = .ok (regs', S') →
      List.Forall₂ Registered.Of items regs' ∧ ItemTable (regs ++ regs') S' := by
  induction items with
  | nil =>
    intro S S' regs regs' h hr
    cases hr
    exact ⟨.nil, by rwa [List.append_nil]⟩
  | cons item items ih =>
    intro S S' regs regs' h hr
    cases item with
    | global g =>
      simp only [registerItems, bind_eq_ok, Prod.exists] at hr
      obtain ⟨g', S₁, hg, regs₁, S₂, hitems, hr⟩ := hr
      cases hr
      have hlen : regs.length + 1 = (regs ++ [Registered.global g']).length := by simp
      rw [hlen] at hitems
      obtain ⟨hof, htab⟩ := ih (h.global hg) hitems
      have hname : g'.name = g.name := by
        obtain ⟨e, sym, -, -, -, rfl, -⟩ := analyzeGlobal_ok hg
        rfl
      exact ⟨.cons (.global hname) hof, by rwa [List.append_assoc] at htab⟩
    | func fn =>
      simp only [registerItems, bind_eq_ok, Prod.exists] at hr
      obtain ⟨S₁, hf, regs₁, S₂, hitems, hr⟩ := hr
      cases hr
      have hlen : regs.length + 1 = (regs ++ [Registered.func fn]).length := by simp
      rw [hlen] at hitems
      obtain ⟨hof, htab⟩ := ih (h.func hf) hitems
      exact ⟨.cons .func hof, by rwa [List.append_assoc] at htab⟩

/-- What stands at a position of two lists related element by element. -/
theorem forall₂_getElem? {α β : Type} {R : α → β → Prop} {l₁ : List α} {l₂ : List β}
    (h : List.Forall₂ R l₁ l₂) (i : Nat) :
    (l₁[i]? = none ∧ l₂[i]? = none) ∨
      ∃ a b, l₁[i]? = some a ∧ l₂[i]? = some b ∧ R a b := by
  induction h generalizing i with
  | nil => exact .inl ⟨rfl, rfl⟩
  | cons hab _ ih =>
    cases i with
    | zero => exact .inr ⟨_, _, rfl, rfl, hab⟩
    | succ i => simpa using ih i

/-- The functions among the items are those the first pass leaves for the second. -/
theorem registered_func_iff {items : List TopLevel} {regs : List Registered}
    (h : List.Forall₂ Registered.Of items regs) (i : Nat) (fn : FuncDef) :
    items[i]? = some (.func fn) ↔ regs[i]? = some (.func fn) := by
  rcases forall₂_getElem? h i with ⟨hn, hn'⟩ | ⟨item, reg, hitem, hreg, hR⟩
  · simp [hn, hn']
  · rw [hitem, hreg]
    cases hR <;> simp

/-- The globals among the items keep their names. -/
theorem registered_global_iff {items : List TopLevel} {regs : List Registered}
    (h : List.Forall₂ Registered.Of items regs) (i : Nat) (x : String) :
    (∃ g, items[i]? = some (.global g) ∧ g.name = x) ↔
      ∃ g, regs[i]? = some (.global g) ∧ g.name = x := by
  rcases forall₂_getElem? h i with ⟨hn, hn'⟩ | ⟨item, reg, hitem, hreg, hR⟩
  · simp [hn, hn']
  · rw [hitem, hreg]
    cases hR with
    | global hname => simp [hname]
    | func => simp

/-! ## The second pass -/

/-- A registered item and its analysed form, when the second pass runs over
tables that grow from `S₀` to `S₁` by nothing but symbols. -/
inductive Analyzed (S₀ S₁ : Sema) : Registered → ATopLevel → Prop where
  | global (g : AGlobalVar) : Analyzed S₀ S₁ (.global g) (.global g)
  | func {fn : FuncDef} {fn' : AFuncDef} {S S' : Sema} (grows : Grows S₀ [] S)
      (body : analyzeFunc S fn = .ok (fn', S')) (later : Grows S' [] S₁) :
      Analyzed S₀ S₁ (.func fn) (.func fn')

/-- **The second pass analyses every body under the complete tables.** -/
theorem analyzeBodies_analyzed {S₀ : Sema} {regs : List Registered} :
    ∀ {S S' : Sema} {items : List ATopLevel}, Grows S₀ [] S →
      analyzeBodies S regs = .ok (items, S') →
      List.Forall₂ (Analyzed S₀ S') regs items ∧ Grows S [] S' := by
  induction regs with
  | nil =>
    intro S S' items hgrows h
    cases h
    exact ⟨.nil, .refl S⟩
  | cons reg regs ih =>
    intro S S' items hgrows h
    cases reg with
    | global g =>
      simp only [analyzeBodies, bind_eq_ok, Prod.exists] at h
      obtain ⟨items₁, S₁, hitems, h⟩ := h
      cases h
      obtain ⟨hall, hg⟩ := ih hgrows hitems
      exact ⟨.cons (.global g) hall, hg⟩
    | func fn =>
      simp only [analyzeBodies, bind_eq_ok, Prod.exists] at h
      obtain ⟨fn', S₁, hfn, items₁, S₂, hitems, h⟩ := h
      cases h
      have hfunc := analyzeFunc_grows hfn
      obtain ⟨hall, hg⟩ := ih (hgrows.trans hfunc) hitems
      exact ⟨.cons (.func hgrows hfn hg) hall, hfunc.trans hg⟩

/-- **An accepted module**, taken apart: the items after the first pass, the
tables they are entered in, and the analysed items. -/
theorem analyze_ok {m : Module} {m' : AModule} {S' : Sema}
    (h : analyze m = .ok (m', S')) :
    ∃ regs S₀ S₁, registerItems ({} : Sema).pushScope 0 m.items = .ok (regs, S₀) ∧
      List.Forall₂ Registered.Of m.items regs ∧ ItemTable regs S₀ ∧
      List.Forall₂ (Analyzed S₀ S₁) regs m'.items ∧ Grows S₀ [] S₁ ∧ S' = S₁.popScope := by
  simp only [analyze, bind_eq_ok, Prod.exists] at h
  obtain ⟨regs, S₀, hregs, h⟩ := h
  split at h
  · cases h
  · simp only [bind_eq_ok, Prod.exists] at h
    obtain ⟨items, S₁, hitems, h⟩ := h
    cases h
    obtain ⟨hof, htab⟩ := registerItems_table itemTable_nil hregs
    obtain ⟨hall, hgrows⟩ := analyzeBodies_analyzed (.refl S₀) hitems
    exact ⟨regs, S₀, S₁, hregs, hof, htab, hall, hgrows, rfl⟩

end Sema

end ToyC
