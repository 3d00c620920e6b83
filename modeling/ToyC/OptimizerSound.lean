import ToyC.HostOptimizer
import ToyC.InliningRuns
import ToyC.OneBlock
import ToyC.PassRuns

/-!
# The optimizer and the runs of a program

The optimizer as a whole does not preserve what a program computes: copies and constants are
propagated past assignments. What it does preserve are the runs in which each pass is justified, and
that is said here of whole programs.

A run of a program consists of the activations it leads to (`IRModule.Activates`), each a run of a
function against the answers of the others. A pass is to be justified in those of the function it is
called with; nothing is asked of functions the run does not come to. Then what was yielded in these
activations is still yielded behind all passes (`Kept`), for oracles that know less than everything,
and by induction on how deep the activations are nested the program returns what it did
(`IRModule.returns_of_kept`).
-/

namespace ToyC

open Machine Outcome Pipeline

/-! ## Activations -/

/-- **The calls that a call leads to**: itself, and each call its activations come to. -/
inductive IRModule.Activates (m : IRModule) (junk : Regs) (p : CallArgs) : CallArgs → Prop where
  | root : m.Activates junk p p
  | call {q : CallArgs} {F : IRFunc} {done : List Inst} {c : Config} {inst : Inst}
      (caller : m.Activates junk p q) (func : m.find q.name = some F)
      (reached : F.Ran (limit (m.body junk)) (F.entry junk q.args q.globals) done c)
      (next : inst ∈ c.rest.head?) (isCall : inst.op = .Call) :
      m.Activates junk p ⟨inst.callee, inst.args.map (·.eval c.regs), c.globals⟩

/-! ## Functions -/

section Kept

variable {asked : CallArgs → Prop} {known : Callee} {junk : Regs} {n : Nat}

/-- **A pass is justified in the activations of a function.** -/
def Pass.JustifiedIn (asked : CallArgs → Prop) (known : Callee) (junk : Regs) (n : Nat) (p : Pass)
    (F : IRFunc) : Prop :=
  ∀ q, asked q → q.name = F.name → p.Justified n F known (F.entry junk q.args q.globals)

/-- **What is kept of a function**: its name, its order, and what its activations yield with any
oracle that knows no more than a certain one. -/
structure Kept (asked : CallArgs → Prop) (known : Callee) (junk : Regs) (F F' : IRFunc) : Prop where
  name : F'.name = F.name
  ordered : F.Ordered → F'.Ordered
  yields : F.Ordered → ∀ q, asked q → q.name = F.name → ∀ call : Callee,
    (∀ q', Values (call q') (known q')) → ∀ r,
      F.Yields call junk q.args q.globals r → F'.Yields call junk q.args q.globals r

theorem Kept.refl (F : IRFunc) : Kept asked known junk F F :=
  ⟨rfl, id, fun _ _ _ _ _ _ _ => id⟩

theorem Kept.trans {F₁ F₂ F₃ : IRFunc} (h : Kept asked known junk F₁ F₂)
    (h' : Kept asked known junk F₂ F₃) : Kept asked known junk F₁ F₃ where
  name := h'.name.trans h.name
  ordered hord := h'.ordered (h.ordered hord)
  yields hord q hq hname call hcall r hr :=
    h'.yields (h.ordered hord) q hq (hname.trans h.name.symm) call hcall r
      (h.yields hord q hq hname call hcall r hr)

/-- What a justified pass keeps. -/
theorem Pass.exec_kept {p : Pass} {F F' : IRFunc} {changed : Bool}
    (hp : p.JustifiedIn asked known junk n F) (h : p.exec n F = .ok (F', changed)) :
    Kept asked known junk F F' where
  name := Pass.exec_name h
  ordered hord := Pass.exec_ordered hord h
  yields hord q hq hname _ hcall _ := Pass.exec_yields hord (hp q hq hname) hcall h

/-- **What the passes keep of the functions of a module**, when each call of a pass is justified. -/
theorem optimizeFuncs_kept {opt : Bool} {Fs Fs' : List IRFunc}
    (hgood : FuncsAlong (Pass.exec n) (Pass.JustifiedIn asked known junk n) opt Fs)
    (h : optimizeFuncs (Pass.exec n) opt Fs = .ok Fs') :
    List.Forall₂ (Kept asked known junk) Fs Fs' := by
  induction Fs generalizing Fs' with
  | nil =>
    cases h
    exact .nil
  | cons F Fs ih =>
    obtain ⟨F', hF', h⟩ := bind_eq_ok.mp h
    obtain ⟨Fs'', hFs'', heq⟩ := bind_eq_ok.mp h
    cases heq
    exact .cons (runStages_rule Kept.refl (fun _ _ _ => Kept.trans)
      (fun p _ _ _ hp hexec => Pass.exec_kept hp hexec) hgood.1 hF') (ih (hgood.2 F' hF') hFs'')

end Kept

/-! ## Modules -/

section Modules

variable {m m' : IRModule} {junk : Regs} {p : CallArgs}

/-- What an oracle answers where it is asked, and nothing elsewhere. -/
noncomputable def onlyAsked (asked : CallArgs → Prop) (call : Callee) : Callee :=
  open Classical in fun q => if asked q then call q else .timeout

theorem onlyAsked_values {asked : CallArgs → Prop} {call known : Callee} {q : CallArgs}
    (h : asked q → Values (call q) (known q)) : Values (onlyAsked asked call q) (known q) := by
  intro r hr
  unfold onlyAsked at hr
  split at hr
  · exact h ‹_› r hr
  · cases hr

/-- The function of a name, behind the passes. -/
theorem find?_kept {asked : CallArgs → Prop} {known : Callee} {Fs Fs' : List IRFunc}
    (h : List.Forall₂ (Kept asked known junk) Fs Fs') {name : String} {F : IRFunc}
    (hF : Fs.find? (·.name == name) = some F) :
    ∃ F', Fs'.find? (·.name == name) = some F' ∧ Kept asked known junk F F' := by
  induction h with
  | nil => cases hF
  | @cons G G' Gs Gs' hkept _ ih =>
    rw [List.find?_cons] at hF
    rw [List.find?_cons, hkept.name]
    cases hname : G.name == name with
    | true =>
      rw [hname] at hF
      cases hF
      exact ⟨G', rfl, hkept⟩
    | false =>
      rw [hname] at hF
      exact ih hF

/-- **A call returns what it did**, when of the functions of the module everything is kept that its
activations rely on. -/
theorem IRModule.returns_of_kept (hord : ∀ F ∈ m.funcs, F.Ordered)
    (hkept : List.Forall₂ (Kept (m.Activates junk p) (limit (m.body junk)) junk) m.funcs m'.funcs)
    {r : CallResult} (h : m.Returns junk p r) : m'.Returns junk p r := by
  obtain ⟨d, hd⟩ := (m.returns_iff_within junk p r).mp h
  suffices hall : ∀ d q r, m.Activates junk p q → m.ReturnsWithin junk d q r →
      limit (m'.body junk) q = .ok r from (m'.returns_iff junk p r).mpr (hall d p r .root hd)
  intro d
  induction d with
  | zero => exact fun _ _ _ h => h.elim
  | succ d ih =>
    intro q r hq hwithin
    obtain ⟨call, n, hcall, hbody⟩ := hwithin
    have hknown : ∀ q', Values (call q') (limit (m.body junk) q') := fun q' r' hr' =>
      (m.returns_iff junk q' r').mp ((m.returns_iff_within junk q' r').mpr ⟨d, hcall q' r' hr'⟩)
    unfold IRModule.body at hbody
    cases hF : m.find q.name with
    | none =>
      rw [hF] at hbody
      cases hbody
    | some F =>
      rw [hF] at hbody
      obtain ⟨F', hF', hk⟩ := find?_kept hkept hF
      have hname : F.name = q.name := by simpa using List.find?_some hF
      have hasked : F.Yields (onlyAsked (m.Activates junk p) call) junk q.args q.globals r := by
        refine IRFunc.Yields.of_asked (fun done c hran inst hinst hop => ?_) ⟨n, hbody⟩
        exact if_pos (.call hq hF (hran.mono hknown) hinst hop)
      obtain ⟨k, hk⟩ := hk.yields (hord F (List.mem_of_find?_eq_some hF)) q hq hname.symm
        _ (fun q' => onlyAsked_values fun _ => hknown q') r hasked
      have hrun := (F'.run_regular junk q.args q.globals).mono precise_values
        (fun q' => onlyAsked_values fun hq' r' hr' => ih q' r' hq' (hcall q' r' hr'))
        (Nat.le_refl k) r hk
      have hbody' : m'.body junk q (limit (m'.body junk)) k = .ok r := by
        unfold IRModule.body
        rw [show m'.find q.name = some F' from hF']
        exact hrun
      exact (body_limit (m'.body_regular junk) q k).values r hbody'

end Modules

/-! ## Inlined functions -/

/-- Inlining keeps the order of the functions. -/
theorem inlineSweeps_ordered {funcs : List IRFunc} (hord : ∀ F ∈ funcs, F.Ordered) (k : Nat) :
    ∀ F ∈ inlineSweeps k funcs, F.Ordered := by
  refine inlineSweeps_keeps (P := fun Fs => ∀ F ∈ Fs, F.Ordered) (fun Fs i hi hFs F hF => ?_) k hord
  rcases List.mem_or_eq_of_mem_set hF with hF | rfl
  · exact hFs F hF
  · have hgetD : Fs.getD i {} = Fs[i] := by simp [hi]
    have hcaller : (Fs.getD i {}).Ordered := hFs _ (hgetD ▸ List.getElem_mem hi)
    refine hcaller.of_flow (inlineFunc_inlinedInto Fs i).flow
      (inlineFunc_inRange (fun inst G hG => ?_) hcaller.inRange)
    obtain ⟨hop, hinl, -, -, j, -, hj⟩ := inlinedCallee_eq_some hG
    exact ⟨hop, hinl, (hFs G (List.mem_of_getElem? hj)).inRange⟩

/-! ## Generated modules -/

section Generated

open Sema IRGen

variable {m : Module} {m' : AModule} {A : Sema}

/-- The parameters of a generated function. -/
theorem generate_params {F : IRFunc} (hF : F ∈ (generate A m').funcs) :
    F.paramRegs.length = F.numParams := by
  obtain ⟨fn, -, rfl⟩ := mem_genFuncs.mp hF
  exact (congrArg List.length (genFunc_entry A fn).1).trans (genParams_length _ _)

theorem IRFunc.GraphOk.ordered {F : IRFunc} (hgraph : F.GraphOk) (hrange : F.InRange) :
    F.Ordered := by
  refine ⟨hrange, hgraph.ids, List.eq_nil_iff_forall_not_mem.mpr fun p hp => ?_⟩
  have hs := (mem_predsOf hgraph.ids).mp hp
  have hp' := IRFunc.getElem?_blocks (IRFunc.lt_of_mem_succsOf hs)
  exact hgraph.entry _ (List.mem_of_getElem? hp') hs

/-- **A generated function**, if the generator finds the vregs it names: it is ordered, and if it has
one block it reads what it wrote. -/
theorem generate_checked {M : IRModule} (h : analyze m = .ok (m', A))
    (hgen : generate? true A m' = some M) :
    M = generate A m' ∧ ∀ F ∈ M.funcs, F.GraphOk ∧ F.Ordered ∧
      (F.blocks.length = 1 → F.ReadsWritten) := by
  obtain ⟨hbound, rfl⟩ := (generate?_iff h M).mp hgen
  refine ⟨rfl, fun F hF => ?_⟩
  obtain ⟨fn, hfn, rfl⟩ := mem_genFuncs.mp hF
  obtain ⟨S, S', fn₀, hfunc, hdepth, hS⟩ := analyze_func h hfn
  obtain ⟨hruns, hgraph⟩ := genFunc_runs (A := A) hfunc hdepth
  have hchecked : genFunc? true A fn = some (genFunc A fn) := by
    rw [genFunc?_eq, if_pos (hbound fn hfn), hruns]
  exact ⟨hgraph, hgraph.ordered (genFunc?_inRange hchecked hgraph.succs),
    genFunc_readsWritten_of_one hfunc hdepth hS (hbound fn hfn)⟩

/-- The generator finds them, if the source names no variable without a value. -/
theorem AModule.Initialised.generates (hinit : m'.Initialised A) (h : analyze m = .ok (m', A)) :
    generate? true A m' = some (generate A m') :=
  (generate?_iff h _).mpr ⟨fun fn hfn => (hinit fn hfn).bound, rfl⟩

/-- **A generated function**, if the source names no variable without a value. -/
theorem generate_func (h : analyze m = .ok (m', A)) (hinit : m'.Initialised A) :
    ∀ F ∈ (generate A m').funcs, F.InRange ∧ F.ReadsWritten ∧ F.GraphOk := by
  intro F hF
  obtain ⟨hgraph, hord, -⟩ := (generate_checked h (hinit.generates h)).2 F hF
  obtain ⟨fn, hfn, rfl⟩ := mem_genFuncs.mp hF
  obtain ⟨S, S', fn₀, hfunc, hdepth, -⟩ := analyze_func h hfn
  exact ⟨hord.inRange, (genFunc_readsWritten_iff hfunc hdepth (hinit fn hfn).bound).mpr
    (hinit fn hfn).paths, hgraph⟩

/-- **What the optimizer finds in a generated module**, if the source names no variable without a
value, and returns values where they are used. -/
theorem generate_linked (h : analyze m = .ok (m', A)) (hinit : m'.Initialised A)
    (hvalues : (generate A m').ValuesReturned) : Linked (generate A m').funcs := by
  have hfunc := generate_func h hinit
  exact IRModule.linked (genFuncs_names_nodup fun i j fn fn' => analyze_name_inj h)
    (fun F hmem => ⟨(hfunc F hmem).1, generate_params hmem, (hfunc F hmem).2.1⟩) hvalues

theorem generate_inlined_ordered {M : IRModule} (h : analyze m = .ok (m', A))
    (hgen : generate? true A m' = some M) : ∀ F ∈ (inlined M true).funcs, F.Ordered :=
  inlineSweeps_ordered (fun F hF => ((generate_checked h hgen).2 F hF).2.1) 5

/-- **Inlining into a generated module keeps the calls that return.** -/
theorem generate_inlined_returns {M : IRModule} (h : analyze m = .ok (m', A))
    (hgen : generate? true A m' = some M) {junk : Regs} {p : CallArgs} {r : CallResult}
    (hr : M.Returns junk p r) : (inlined M true).Returns junk p r := by
  obtain ⟨rfl, hfuncs⟩ := generate_checked h hgen
  exact inlineSweeps_returns (genFuncs_names_nodup fun i j fn fn' => analyze_name_inj h)
    (fun F hF => ⟨(hfuncs F hF).2.1.inRange, generate_params hF⟩)
    (fun F hF => (hfuncs F hF).2.2) 5 hr

end Generated

/-! ## The optimizer -/

/-- **All passes are justified in a run**: each call of a pass, in the activations of the function
it is called with. -/
def IRModule.PassesJustified (m : IRModule) (n : Nat) (junk : Regs) (p : CallArgs) : Prop :=
  FuncsAlong (Pass.exec n)
    (Pass.JustifiedIn ((inlined m true).Activates junk p) (limit ((inlined m true).body junk))
      junk n)
    true (inlined m true).funcs

/-- **What the optimizer makes of a generated module** returns what the module did, in activations
where each pass finds what it relies on. -/
theorem returns_of_optimizeIR {m : Module} {m' : AModule} {A : Sema} {M₀ M : IRModule} {n : Nat}
    (h : Sema.analyze m = .ok (m', A)) (hgen : IRGen.generate? true A m' = some M₀)
    (hM : optimizeIR M₀ true n = .ok M) {junk : Regs} {p : CallArgs} {r : CallResult}
    (hjust : M₀.PassesJustified n junk p) (hr : M₀.Returns junk p r) : M.Returns junk p r := by
  obtain ⟨Fs, hFs, heq⟩ := bind_eq_ok.mp hM
  cases heq
  exact IRModule.returns_of_kept (generate_inlined_ordered h hgen) (optimizeFuncs_kept hjust hFs)
    (generate_inlined_returns h hgen hr)

/-- A `main` that is one block. -/
def mainFunc (insts : List Inst) (v : Val) : IRFunc where
  name := "main"
  numVregs := 2
  blocks := [{ insts, term := .Ret, retHasVal := true, retVal := v }]

/-- No pair is folded among moves. -/
theorem pairsOk_moves {call : Callee} {done rest : List Inst} (h : ∀ inst ∈ rest, inst.op = .Mv)
    (R : Regs) (G : Globals) : PairsOk call done rest R G := by
  induction rest generalizing done R G with
  | nil => trivial
  | cons inst rest ih =>
    rw [List.forall_mem_cons] at h
    refine ⟨fun x hx => ?_, fun R' G' _ => ih h.2 R' G'⟩
    simp only [negated?, h.1] at hx
    cases hx

/-- In a block of moves, each pass is justified if the copies and the constants hold. -/
theorem mainFunc_justified {insts : List Inst} {v : Val} (hmoves : ∀ inst ∈ insts, inst.op = .Mv)
    (hcopies : ∀ k ≤ insts.length, ∀ R G, CopiesHold (mainFunc insts v) (insts.take k).reverse
      ⟨0, insts.drop k, R, G⟩)
    (hconsts : ∀ k ≤ insts.length, ∀ R G, ConstsHold (mainFunc insts v) (insts.take k).reverse
      ⟨0, insts.drop k, R, G⟩)
    (n : Nat) (p : Pass) (call : Callee) (junk : Regs) (args : List Word) (G : Globals) :
    p.Justified n (mainFunc insts v) call ((mainFunc insts v).entry junk args G) := by
  have hrest : ∀ {done c},
      (mainFunc insts v).Ran call ((mainFunc insts v).entry junk args G) done c →
      c.block = 0 ∧ ∀ inst ∈ c.rest, inst.op = .Mv := by
    intro done c hran
    obtain ⟨hblock, hdone⟩ := hran.of_ret rfl
    have heq : done.reverse ++ c.rest = insts := hdone
    exact ⟨hblock, fun inst hi => hmoves inst (heq ▸ List.mem_append_right _ hi)⟩
  cases p with
  | constFold =>
    intro done c hran inst hi _ hop
    rw [(hrest hran).2 inst (List.mem_of_mem_head? hi)] at hop
    rcases hop with hop | hop <;> cases hop
  | cse =>
    intro done c hran done' inst rest heq key hkey
    rw [(hrest hran).1] at heq
    have hop := hmoves inst ((show insts = _ from heq) ▸ by simp)
    simp [Inst.key?, hop, isBinary] at hkey
  | copyProp => exact fun done c => IRFunc.Ran.of_prefixes (F := mainFunc insts v) rfl hcopies
  | constProp => exact fun done c => IRFunc.Ran.of_prefixes (F := mainFunc insts v) rfl hconsts
  | peephole => exact fun done c hran _ => pairsOk_moves (hrest hran).2 c.regs c.globals
  | licm => exact fun _ _ => trivial
  | _ => trivial

/-- What the passes make of its `main`. -/
def copiesFuncs : List IRFunc :=
  let a : Inst := { op := .Mv, dst := some 0, a := .imm 5 }
  let b : Inst := { op := .Mv, dst := some 1, a := .reg 0 }
  [mainFunc [a, b] (.reg 1), mainFunc [a, b] (.reg 0), mainFunc [a, b] (.imm 5),
    mainFunc [a] (.reg 0), mainFunc [a] (.imm 5), mainFunc [] (.imm 5)]

theorem copiesFuncs_justified {F : IRFunc} (hF : F ∈ copiesFuncs) (n : Nat) (p : Pass)
    (call : Callee) (junk : Regs) (args : List Word) (G : Globals) :
    p.Justified n F call (F.entry junk args G) := by
  simp only [copiesFuncs, List.mem_cons, List.not_mem_nil, or_false] at hF
  rcases hF with rfl | rfl | rfl | rfl | rfl | rfl
  all_goals
    refine mainFunc_justified (by decide) (fun k hk R G => ?_) (fun k hk R G => ?_) n p call junk
      args G
    · change CopiesHold _ _ ⟨0, _, fun _ => 0, fun _ => 0⟩
      revert k
      decide
    · change ConstsHold _ _ ⟨0, _, fun _ => 0, fun _ => 0⟩
      revert k
      decide

theorem copiesFuncs_closed {F F' : IRFunc} {p : Pass} {n : Nat} {changed : Bool}
    (hF : F ∈ copiesFuncs) (h : p.exec n F = .ok (F', changed)) : F' ∈ copiesFuncs := by
  have hall : ∀ F ∈ copiesFuncs, ∃ r, p.exec 20 F = .ok r ∧ r.1 ∈ copiesFuncs := by
    cases p <;> decide +kernel
  obtain ⟨r, hr, hmem⟩ := hall F hF
  obtain rfl := Pass.exec_same hr h
  exact hmem

/-- Its copies and constants hold wherever they are propagated. -/
theorem copies_passesJustified :
    IRModule.PassesJustified { funcs := copiesFuncs.take 1 } 20 (fun _ => 7)
      ⟨"main", [], fun _ => 0⟩ := by
  have hfuncs : (inlined { funcs := copiesFuncs.take 1 } true).funcs = copiesFuncs.take 1 := by
    decide +kernel
  unfold IRModule.PassesJustified
  rw [hfuncs]
  refine ⟨StagesAlong.of_invariant (I := (· ∈ copiesFuncs)) ?_ ?_ List.mem_cons_self,
    fun _ _ => trivial⟩
  · exact fun p F hF q _ _ => copiesFuncs_justified hF 20 p _ _ _ _
  · exact fun p F F' changed hF h => copiesFuncs_closed hF h

end ToyC
