import ToyC.OptimizerSound
import ToyC.Progress

/-!
# The optimizer adds nothing

Where its passes are justified, the optimizer preserves the results of a program
(`optimizeIR_returns`). That says nothing of a program that runs on for ever: it might return
something behind the passes.

It does not. A justified pass leaves a function the same results, not only those it had, with any
oracle that knows no more than the one the pass is justified in. One of these is the oracle that is
stuck wherever the program does not come to ask (`askedOr`): with it, too, the function asks what it
asked before, or it would be stuck. So the answers of the program are an oracle that the optimized
functions stay below, where they come to ask, and thus they are what these answer
(`IRModule.limit_of_preserved`).

Behind the optimizer, a call returns a result if and only if it does in the source, and runs on for
ever if and only if it does there (`optimizeIR_exact`).
-/

namespace ToyC

open Machine Outcome Pipeline

/-! ## Functions -/

section Preserved

variable {asked : CallArgs → Prop} {known : Callee} {junk : Regs} {n : Nat}

/-- **What is preserved of a function**: its name, its order, and its results in the activations that
are asked for, with any oracle that knows no more than a certain one. -/
structure Preserved (asked : CallArgs → Prop) (known : Callee) (junk : Regs) (F F' : IRFunc) :
    Prop where
  name : F'.name = F.name
  ordered : F.Ordered → F'.Ordered
  results : F.Ordered → ∀ q, asked q → q.name = F.name → ∀ call : Callee,
    (∀ q', Values (call q') (known q')) → F.SameResults F' call junk q.args q.globals

theorem Preserved.refl (F : IRFunc) : Preserved asked known junk F F :=
  ⟨rfl, id, fun _ _ _ _ _ _ _ _ => Iff.rfl⟩

theorem Preserved.trans {F₁ F₂ F₃ : IRFunc} (h : Preserved asked known junk F₁ F₂)
    (h' : Preserved asked known junk F₂ F₃) : Preserved asked known junk F₁ F₃ where
  name := h'.name.trans h.name
  ordered hord := h'.ordered (h.ordered hord)
  results hord q hq hname call hcall x hx :=
    (h.results hord q hq hname call hcall x hx).trans
      (h'.results (h.ordered hord) q hq (hname.trans h.name.symm) call hcall x hx)

/-- What is preserved is kept. -/
theorem Preserved.kept {F F' : IRFunc} (h : Preserved asked known junk F F') :
    Kept asked known junk F F' where
  name := h.name
  ordered := h.ordered
  yields hord q hq hname call hcall r hF :=
    (h.results hord q hq hname call hcall (.ok r) (by simp)).mp hF

/-- What a justified pass preserves. -/
theorem Pass.exec_preserved {p : Pass} {F F' : IRFunc} {changed : Bool}
    (hp : p.JustifiedIn asked known junk n F) (h : p.exec n F = .ok (F', changed)) :
    Preserved asked known junk F F' where
  name := Pass.exec_name h
  ordered hord := Pass.exec_ordered hord h
  results hord q hq hname _ hcall := Pass.exec_sameResults hord (hp q hq hname) hcall h

/-- **What the passes preserve of the functions of a module**, when each call of a pass is
justified. -/
theorem optimizeFuncs_preserved {opt : Bool} {Fs Fs' : List IRFunc}
    (hgood : FuncsAlong (Pass.exec n) (Pass.JustifiedIn asked known junk n) opt Fs)
    (h : optimizeFuncs (Pass.exec n) opt Fs = .ok Fs') :
    List.Forall₂ (Preserved asked known junk) Fs Fs' := by
  induction Fs generalizing Fs' with
  | nil =>
    cases h
    exact .nil
  | cons F Fs ih =>
    obtain ⟨F', hF', h⟩ := bind_eq_ok.mp h
    obtain ⟨Fs'', hFs'', heq⟩ := bind_eq_ok.mp h
    cases heq
    exact .cons (runStages_rule Preserved.refl (fun _ _ _ => Preserved.trans)
      (fun p _ _ _ hp hexec => Pass.exec_preserved hp hexec) hgood.1 hF')
      (ih (hgood.2 F' hF') hFs'')

/-- The function of a name, behind the passes. -/
theorem find?_preserved {Fs Fs' : List IRFunc}
    (h : List.Forall₂ (Preserved asked known junk) Fs Fs') {name : String} {F : IRFunc}
    (hF : Fs.find? (·.name == name) = some F) :
    ∃ F', Fs'.find? (·.name == name) = some F' ∧ Preserved asked known junk F F' := by
  induction h with
  | nil => cases hF
  | @cons G G' Gs Gs' hkept _ ih =>
    rw [List.find?_cons] at hF
    rw [List.find?_cons, hkept.name]
    cases hname : G.name == name with
    | true =>
      rw [hname] at hF
      cases hF
      exact ⟨G', rfl, hkept⟩
    | false =>
      rw [hname] at hF
      exact ih hF

end Preserved

/-! ## Modules -/

section Modules

variable {m m' : IRModule} {junk : Regs} {p : CallArgs}

/-- What an oracle answers where it is asked; elsewhere it is stuck. -/
noncomputable def askedOr (asked : CallArgs → Prop) (call : Callee) : Callee :=
  open Classical in fun q => if asked q then call q else .stuck

theorem askedOr_values {asked : CallArgs → Prop} (call : Callee) (q : CallArgs) :
    Values (askedOr asked call q) (call q) := by
  intro r hr
  unfold askedOr at hr
  split at hr
  · exact hr
  · cases hr

/-- **The optimized functions stay below the answers of the program**, where it comes to ask. -/
theorem IRModule.body_of_preserved (hord : ∀ F ∈ m.funcs, F.Ordered)
    (h : List.Forall₂ (Preserved (m.Activates junk p) (limit (m.body junk)) junk) m.funcs m'.funcs)
    (q : CallArgs) (n : Nat) :
    UpTo (m'.body junk q (askedOr (m.Activates junk p) (limit (m.body junk))) n)
      (askedOr (m.Activates junk p) (limit (m.body junk)) q) := by
  by_cases hq : m.Activates junk p q
  · have hask : ∀ q, m.Activates junk p q →
        askedOr (m.Activates junk p) (limit (m.body junk)) q = limit (m.body junk) q :=
      fun q hq => if_pos hq
    rw [hask q hq]
    cases hF : m.find q.name with
    | none =>
      obtain ⟨k, hk⟩ := exists_body_limit (m.body_regular junk) q
      rw [IRModule.body, hF] at hk
      exact .inr (.inl hk.symm)
    | some F =>
      obtain ⟨F', hF', hpres⟩ := find?_preserved h hF
      have hname : F.name = q.name := by simpa using List.find?_some hF
      have hbody' : ∀ call n, m'.body junk q call n = F'.run call junk n q.args q.globals := by
        intro call n
        rw [IRModule.body, show m'.find q.name = some F' from hF']
      have hbody : ∀ call n, m.body junk q call n = F.run call junk n q.args q.globals := by
        intro call n
        rw [IRModule.body, hF]
      refine or_iff_not_imp_left.mpr fun hx => .inr ?_
      rw [hbody'] at hx ⊢
      obtain ⟨k, hk⟩ := (hpres.results (hord F (List.mem_of_find?_eq_some hF)) q hq hname.symm _
        (askedOr_values (limit (m.body junk))) _ hx).mpr ⟨n, rfl⟩
      have hlimit := body_limit (m.body_regular junk) q k
      rw [hbody, ← F.run_of_asked (fun done c hran inst hinst hop =>
        hask _ (.call hq hF hran hinst hop)), hk] at hlimit
      exact (hlimit.eq_of_ne hx).symm
  · exact .inr (.inl (if_neg hq))

/-- **A call means what it did**, when everything of the functions of the module is preserved that
its activations rely on, and it has a meaning. -/
theorem IRModule.limit_of_preserved (hord : ∀ F ∈ m.funcs, F.Ordered)
    (h : List.Forall₂ (Preserved (m.Activates junk p) (limit (m.body junk)) junk) m.funcs m'.funcs)
    (hp : limit (m.body junk) p ≠ .stuck) : limit (m'.body junk) p = limit (m.body junk) p := by
  have hbelow := limit_le precise_upTo (m'.body_regular junk) (IRModule.body_of_preserved hord h) p
  rw [askedOr, if_pos .root] at hbelow
  rcases hbelow with htimeout | hstuck | heq
  · cases hx : limit (m.body junk) p with
    | timeout => exact htimeout
    | stuck => exact absurd hx hp
    | ok r =>
      have hret := IRModule.returns_of_kept hord (h.imp fun _ _ => Preserved.kept)
        ((m.returns_iff junk p r).mpr hx)
      exact (m'.returns_iff junk p r).mp hret
  · exact absurd hstuck hp
  · exact heq

end Modules

/-! ## Accepted programs -/

section Accepted

open Sema IRGen

variable {m : Module} {m' : AModule} {A : Sema}

/-- **The optimizer is exact in the runs in which its passes are justified.** For an accepted program
whose declarations stand in blocks, that names no variable without a value and returns values where
it should, and a call of one of its functions with as many arguments as it has parameters: where the
optimizer ends, the call returns a result behind it if and only if it does in the source, and runs on
for ever if and only if it does there. -/
theorem optimizeIR_exact (h : analyze m = .ok (m', A)) (hd : m.declsInBlocks = true)
    (hinit : m'.Initialised A) (hret : m.returnsValues = true) {p : CallArgs} {fn : FuncDef}
    (hfind : m.find p.name = some fn) (hlen : p.args.length = fn.params.length) {n : Nat}
    {M : IRModule} (hM : optimizeIR? (generate A m') true n = .ok M) {junk : Regs}
    (hjust : (generate A m').PassesJustified n junk p) :
    (∀ r, m.Returns p r ↔ M.Returns junk p r) ∧ (m.Diverges p ↔ M.Diverges junk p) := by
  have hlinked := generate_linked h hinit (generate_fits h hret).values
  obtain ⟨Fs, hFs, heq⟩ := Outcome.bind_eq_ok.mp (optimizeIR?_ok hM)
  have hinlined : limit ((inlined (generate A m') true).body junk) p = limit m.body p := by
    rw [generate_limit h hd junk]
    exact (congrFun ((hlinked.inlineSweeps 5).2 (generate A m').globals junk) p).symm
  have hlimit : limit (M.body junk) p = limit m.body p := by
    rw [← hinlined, ← Outcome.ok.inj heq]
    refine IRModule.limit_of_preserved (generate_inlined_ordered h (hinit.generates h))
      (optimizeFuncs_preserved hjust hFs) ?_
    rw [hinlined]
    exact (analyze_answers h hd hret hfind hlen).1
  constructor
  · intro r
    rw [m.returns_iff, M.returns_iff, hlimit]
  · rw [m.diverges_iff, M.diverges_iff, hlimit]

end Accepted

/-! ## A program that runs on for ever -/

/-- `int main() { return main(); }`. -/
def againModule : Module where
  items := [.func { name := "main", body := [.returnStmt 1 (some (.call 1 "main" []))] }]

/-- The code of its `main`, which no pass changes. -/
def againFunc : IRFunc where
  name := "main"
  numVregs := 1
  blocks := [{
    insts := [{ op := .Call, dst := some 0, callee := "main" }]
    term := .Ret
    retHasVal := true
    retVal := .reg 0 }]

/-- It calls itself, and again. -/
theorem againModule_diverges (G : Globals) : againModule.Diverges ⟨"main", [], G⟩ := by
  rw [Module.diverges_iff, limit_eq_timeout_iff againModule.body_regular]
  intro k
  induction k with
  | zero => rfl
  | succ k ih =>
    rw [calls_succ]
    generalize calls againModule.body k = call at ih
    simp [Module.body, againModule, Module.find, FuncDef.run, FuncDef.bodyStmt, execStmt, execStmts,
      evalExpr, evalArgs, declareGlobals, ih]

theorem againFunc_justified (n : Nat) (p : Pass) (call : Callee) (junk : Regs) (args : List Word)
    (G : Globals) : p.Justified n againFunc call (againFunc.entry junk args G) := by
  have hrest : ∀ {done c}, againFunc.Ran call (againFunc.entry junk args G) done c →
      c.block = 0 ∧ ∀ inst ∈ c.rest, inst = { op := .Call, dst := some 0, callee := "main" } := by
    intro done c hran
    obtain ⟨hblock, hdone⟩ := hran.of_ret rfl
    have heq : done.reverse ++ c.rest = [{ op := .Call, dst := some 0, callee := "main" }] := hdone
    exact ⟨hblock, fun inst hi =>
      List.mem_singleton.mp (heq ▸ List.mem_append_right done.reverse hi)⟩
  cases p with
  | constFold =>
    intro done c hran inst hi hfold
    rw [(hrest hran).2 inst (List.mem_of_mem_head? hi)] at hfold
    cases hfold
  | cse =>
    intro done c hran done' inst rest heq key hkey
    rw [(hrest hran).1] at heq
    have hi : inst ∈ (againFunc.blockAt 0).insts := heq ▸ by simp
    rw [List.mem_singleton.mp hi] at hkey
    cases hkey
  | copyProp => exact fun done c _ r _ hr => absurd rfl hr
  | constProp => exact fun done c _ r _ k hk => (by cases hk)
  | peephole =>
    intro done c hran hc
    rw [hc, (hrest hran).1]
    exact ⟨fun x hx => (by cases hx), fun _ _ _ => trivial⟩
  | licm => exact fun _ _ => trivial
  | _ => trivial

/-- Behind the optimizer it still does. -/
theorem againModule_exact : ∃ m' A M, Sema.analyze againModule = .ok (m', A) ∧
    optimizeIR? (IRGen.generate A m') true 20 = .ok M ∧
    M.Diverges (fun _ => 0) ⟨"main", [], fun _ => 0⟩ := by
  have hall : ∃ m' A M, Sema.analyze againModule = .ok (m', A) ∧ m'.Initialised A ∧
      IRGen.generate A m' = { funcs := [againFunc] } ∧
      optimizeIR? (IRGen.generate A m') true 20 = .ok M := by
    refine ⟨_, _, { funcs := [againFunc] }, rfl, fun fn hfn => ?_, by decide +kernel,
      by decide +kernel⟩
    obtain rfl := ATopLevel.func.inj (List.mem_singleton.mp hfn)
    exact ⟨by decide +kernel, fun _ _ => rfl⟩
  obtain ⟨m', A, M, hA, hinit, hgen, hM⟩ := hall
  have hjust : (IRGen.generate A m').PassesJustified 20 (fun _ => 0) ⟨"main", [], fun _ => 0⟩ := by
    have hfuncs : (inlined (IRGen.generate A m') true).funcs = [againFunc] := by
      rw [hgen]
      decide +kernel
    have hsame : ∀ (p : Pass) F changed, p.exec 20 againFunc = .ok (F, changed) → F = againFunc := by
      intro p F changed h
      have hall : ∃ r, p.exec 20 againFunc = .ok r ∧ r.1 = againFunc := by
        cases p <;> decide +kernel
      obtain ⟨r, hr, heq⟩ := hall
      rw [← heq, Outcome.ok.inj (hr.symm.trans h)]
    unfold IRModule.PassesJustified
    rw [hfuncs]
    refine ⟨StagesAlong.of_invariant (I := (· = againFunc)) ?_ ?_ rfl, fun _ _ => trivial⟩
    · rintro p _ rfl q - -
      exact againFunc_justified 20 p _ _ _ _
    · rintro p _ F changed rfl h
      exact hsame p F changed h
  exact ⟨m', A, M, hA, hM, (optimizeIR_exact hA (by decide) hinit (by decide) rfl rfl hM hjust).2.mp
    (againModule_diverges _)⟩

end ToyC
