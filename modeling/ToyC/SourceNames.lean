import ToyC.AsmLabels
import ToyC.IRGenClosed
import ToyC.LexerExact
import ToyC.ParserSound

/-!
# The names of a program

The assembly of a program defines a symbol for each of its globals that is not constant, and for
each of its functions, under the names of the source (`Module.symbols`). That these are the names in
the generated code is a matter of the numbers of the globals: the analysis counts them in the order
in which they are declared, and the generator puts each at its number (`generate_symbols`).

A name is the text of an identifier, which begins with a letter or an underscore. So it is never the
label of a block, which begins with a dot (`parseModule_isName`).
-/

namespace ToyC

/-- The name of an item. -/
def TopLevel.name : TopLevel → String
  | .global g => g.name
  | .func fn => fn.name

/-- The name of a global that has a place in memory. -/
def TopLevel.globalName? : TopLevel → Option String
  | .global g => if g.isConst then none else some g.name
  | .func _ => none

/-- The name of a function. -/
def TopLevel.funcName? : TopLevel → Option String
  | .global _ => none
  | .func fn => some fn.name

/-- **The symbols that the assembly of a module defines.** -/
def Module.symbols (m : Module) : List String :=
  m.items.filterMap TopLevel.globalName? ++ m.items.filterMap TopLevel.funcName?

theorem Module.exists_item {m : Module} {n : String} (h : n ∈ m.symbols) :
    ∃ item ∈ m.items, item.name = n := by
  rcases List.mem_append.mp h with h | h
  · obtain ⟨item, hitem, hn⟩ := List.mem_filterMap.mp h
    refine ⟨item, hitem, ?_⟩
    cases item with
    | global g =>
      simp only [TopLevel.globalName?, Option.ite_none_left_eq_some] at hn
      exact Option.some.inj hn.2
    | func fn => cases hn
  · obtain ⟨item, hitem, hn⟩ := List.mem_filterMap.mp h
    refine ⟨item, hitem, ?_⟩
    cases item with
    | global g => cases hn
    | func fn => exact Option.some.inj hn

/-! ## Names are identifiers -/

/-- The text of an identifier. -/
theorem Lexeme.isName {l : Lexeme} (h : l.kind = .Ident) (before : List Char) :
    IsName (l.token before).text := by
  obtain ⟨k, text, hok⟩ := l
  obtain rfl : k = .Ident := h
  obtain ⟨⟨c, cs, rfl, hc, -⟩, -⟩ := hok
  intro hdot
  rw [Lexeme.token, String.toList_ofList] at hdot
  obtain rfl := Option.some.inj hdot
  exact absurd hc (by decide)

/-- **The identifiers of a text.** -/
theorem Reads.isName {before text : List Char} {ts : List Token} (h : Reads before text ts) :
    ∀ t ∈ ts, t.kind = .Ident → IsName t.text := by
  induction h with
  | eof _ =>
    intro t ht hk
    obtain rfl := List.mem_singleton.mp ht
    cases hk
  | token _ _ _ ih => exact List.forall_mem_cons.mpr ⟨fun hk => Lexeme.isName hk _, ih⟩

/-- An item has the name that one of its tokens spells. -/
theorem DerivesItem.exists_name {ts : List Token} {item : TopLevel} (h : DerivesItem ts item) :
    ∃ t ∈ ts, t.kind = .Ident ∧ t.text = item.name := by
  cases h with
  | varDecl _ hname => exact ⟨_, by simp, hname, rfl⟩
  | constDecl _ _ hname => exact ⟨_, by simp, hname, rfl⟩
  | funcDef _ hname => exact ⟨_, by simp, hname, rfl⟩

theorem DerivesItems.exists_name {ts : List Token} {items : List TopLevel}
    (h : DerivesItems ts items) :
    ∀ item ∈ items, ∃ t ∈ ts, t.kind = .Ident ∧ t.text = item.name := by
  induction h with
  | nil => exact fun item hitem => by cases hitem
  | cons hitem _ ih =>
    refine List.forall_mem_cons.mpr ⟨?_, fun item hmem => ?_⟩
    · obtain ⟨t, ht, hk⟩ := hitem.exists_name
      exact ⟨t, List.mem_append_left _ ht, hk⟩
    · obtain ⟨t, ht, hk⟩ := ih item hmem
      exact ⟨t, List.mem_append_right _ ht, hk⟩

/-- **The names of a text that is parsed.** -/
theorem parseModule_isName {src : List Char} {ts : List Token} {m : Module}
    (hts : Lexer.tokenize src = .ok ts) (hm : Parser.parseModule ts = .ok m) :
    ∀ n ∈ m.symbols, IsName n := by
  intro n hn
  obtain ⟨item, hitem, rfl⟩ := Module.exists_item hn
  unfold Parser.parseModule at hm
  obtain ⟨items, hitems, heq⟩ := bind_eq_ok.mp hm
  cases heq
  obtain ⟨used, eof, rest, rfl, -, hderives, -⟩ := Parser.parseTopLevels_sound hitems
  obtain ⟨t, ht, hk, htext⟩ := hderives.exists_name item hitem
  rw [← htext]
  have hreads : Reads [] src _ := tokenizeN_sound hts
  exact hreads.isName t (List.mem_append_left _ ht) hk

/-! ## The names in the generated code -/

namespace IRGen

open Sema

/-- **The globals from a number on**: the generator puts the globals of some items behind the ones
it has, as many as the analysis counts. -/
theorem registerItems_names {A : Sema} {items : List TopLevel} :
    ∀ {S S' : Sema} {index : Nat} {regs : List Registered},
      registerItems S index items = .ok (regs, S') → S'.arena <+: A.arena →
      ∃ k, S'.globalCount = S.globalCount + k ∧
        ∀ {S₀ S₁ : Sema} {items' : List ATopLevel}, List.Forall₂ (Analyzed S₀ S₁) regs items' →
          ∀ globals : List IRGlobal, globals.length = S.globalCount → ∀ places : List IRGlobal,
            places.length = k → ∃ globals',
              genGlobals A items' (globals ++ places) = globals ++ globals' ∧
                globals'.map (·.name) = items.filterMap TopLevel.globalName? := by
  induction items with
  | nil =>
    intro S S' index regs h hA
    cases h
    refine ⟨0, rfl, fun hall globals _ places hplaces => ?_⟩
    cases hall
    obtain rfl := List.length_eq_zero_iff.mp hplaces
    exact ⟨[], rfl, rfl⟩
  | cons item items ih =>
    intro S S' index regs h hA
    cases item with
    | global g =>
      simp only [registerItems, bind_eq_ok, Prod.exists] at h
      obtain ⟨g', S₂, hg, regs₁, S₃, hitems, h⟩ := h
      cases h
      obtain ⟨k, hk, hgen⟩ := ih hitems hA
      obtain ⟨e, sym, -, -, -, rfl, harena, -, -, -, hconst, hvar⟩ := analyzeGlobal_ok hg
      cases hc : g.isConst with
      | true =>
        obtain ⟨-, -, -, hcount⟩ := hconst hc
        refine ⟨k, by rw [hk, hcount], fun hall globals hlen places hplaces => ?_⟩
        cases hall with
        | cons hitem hall =>
          cases hitem
          obtain ⟨globals', heq, hnames⟩ :=
            hgen hall globals (hlen.trans hcount.symm) places hplaces
          refine ⟨globals', ?_, ?_⟩
          · simp only [genGlobals, if_true]
            exact heq
          · rw [hnames, List.filterMap_cons_none (by simp [TopLevel.globalName?, hc])]
      | false =>
        obtain ⟨-, -, hid, hcount⟩ := hvar hc
        have hsymbol : (A.symbol S.arena.length).globalId = some S.globalCount := by
          obtain ⟨rest, hrest⟩ := List.IsPrefix.trans (registerItems_arena hitems) hA
          rw [Sema.symbol, ← hrest, harena]
          simpa using hid
        refine ⟨k + 1, by rw [hk, hcount]; omega, fun hall globals hlen places hplaces => ?_⟩
        obtain ⟨place, places, rfl⟩ := List.exists_cons_of_length_eq_add_one hplaces
        cases hall with
        | cons hitem hall =>
          cases hitem
          obtain ⟨globals', heq, hnames⟩ :=
            hgen hall (globals ++ [{ name := g.name, init := e.constValue }])
              (by rw [List.length_append, hlen, hcount]; rfl) places (Nat.succ.inj hplaces)
          refine ⟨{ name := g.name, init := e.constValue } :: globals', ?_, ?_⟩
          · simp only [genGlobals, Bool.false_eq_true, if_false, hsymbol, Option.getD_some]
            rw [← hlen]
            simpa using heq
          · have hsome : TopLevel.globalName? (.global g) = some g.name := by
              simp [TopLevel.globalName?, hc]
            rw [List.map_cons, hnames, List.filterMap_cons_some hsome]
    | func fn =>
      simp only [registerItems, bind_eq_ok, Prod.exists] at h
      obtain ⟨S₂, hf, regs₁, S₃, hitems, h⟩ := h
      cases h
      obtain ⟨-, hS₂⟩ := registerFunc_ok hf
      obtain ⟨k, hk, hgen⟩ := ih hitems hA
      refine ⟨k, by rw [hk, hS₂], fun hall globals hlen places hplaces => ?_⟩
      cases hall with
      | cons hfn hall =>
        cases hfn
        exact hgen hall globals (hlen.trans (by rw [hS₂])) places hplaces

/-- The functions, in the order of the source. -/
theorem genFuncs_funcNames {A S₀ S₁ : Sema} {items : List TopLevel} {regs : List Registered}
    {items' : List ATopLevel} (hof : List.Forall₂ Registered.Of items regs)
    (hall : List.Forall₂ (Analyzed S₀ S₁) regs items') :
    (genFuncs A items').map (·.name) = items.filterMap TopLevel.funcName? := by
  induction hof generalizing items' with
  | nil =>
    cases hall
    rfl
  | cons hitem _ ih =>
    cases hall with
    | cons hitem' hall =>
      have ih := ih hall
      cases hitem with
      | global =>
        cases hitem' with
        | global => exact ih
      | @func fn =>
        cases hitem' with
        | func _ hbody _ =>
          obtain ⟨hname, -⟩ := analyzeFunc_shape hbody
          have hsome : TopLevel.funcName? (.func fn) = some fn.name := rfl
          rw [List.filterMap_cons_some hsome, ← ih, ← hname]
          rfl

/-- **The generated code defines the symbols of the source.** -/
theorem generate_symbols {m : Module} {m' : AModule} {A : Sema} (h : analyze m = .ok (m', A)) :
    (generate A m').globalNames ++ (generate A m').funcNames = m.symbols := by
  obtain ⟨regs, S₀, S₁, hregs, hof, -, hall, hgrows, rfl⟩ := analyze_ok h
  obtain ⟨syms, harena⟩ := hgrows.arena
  have hA : S₀.arena <+: S₁.popScope.arena := ⟨syms, harena.symm⟩
  obtain ⟨k, hk, hgen⟩ := registerItems_names hregs hA
  have hcount : S₁.popScope.globalCount = k := by
    rw [← Nat.zero_add k]
    exact hgrows.globalCount.trans hk
  obtain ⟨globals, heq, hglobals⟩ := hgen hall [] rfl (List.replicate k {}) List.length_replicate
  have hnames : (generate S₁.popScope m').globalNames = m.items.filterMap TopLevel.globalName? := by
    rw [← hglobals, ← List.nil_append globals, ← heq, ← hcount]
    rfl
  have hfuncs : (generate S₁.popScope m').funcNames = m.items.filterMap TopLevel.funcName? :=
    genFuncs_funcNames hof hall
  rw [hnames, hfuncs, Module.symbols]

end IRGen

end ToyC
