import ToyC.IRGenClosed
import ToyC.IRGenCorrect
import ToyC.InliningSound

/-!
# Accepted programs do not get stuck

The three-address code has no meaning where it calls a function that does not exist or with too few
arguments, waits for a value of a function that returns none, or leaves its blocks. In a module
whose calls fit (`IRModule.Closed`), whose graphs are in order and whose functions return the values
they are asked for, none of this happens: along a run of a function the block is one that a path
leads to, and what is left of it is left of its instructions (`IRFunc.Inside`), and by induction on
the depth of the calls each of them has an answer (`IRModule.Fits.answers`).

By the equivalence of the source with its code this is a property of the source: the analysis
rejects every program that would get stuck, but for a function without a value that is asked for
one. A call then returns or runs on for ever (`analyze_progress`).
-/

namespace ToyC

open Machine Outcome

/-- **A module that fits together.** -/
structure IRModule.Fits (m : IRModule) : Prop where
  names : m.funcNames.Nodup
  closed : m.Closed
  graphs : ∀ F ∈ m.funcs, F.GraphOk
  values : m.ValuesReturned

/-- **A right answer** to a call: not stuck, and a value if the function returns one. -/
def IRModule.Answered (m : IRModule) (p : CallArgs) (x : Outcome CallResult) : Prop :=
  ∀ F, m.find p.name = some F → p.args.length = F.paramRegs.length →
    x ≠ .stuck ∧ ∀ r, x = .ok r → F.ReturnsValue → r.1 ≠ none

/-- **A point inside a function**: a path leads to the block, and the rest of it is to be done. -/
structure IRFunc.Inside (F : IRFunc) (c : Config) : Prop where
  path : ∃ path, F.PathTo c.block path
  lt : c.block < F.blocks.length
  suffix : c.rest <:+ (F.blockAt c.block).insts

section Inside

variable {m : IRModule} {F : IRFunc} {call : Callee} {c c' : Config}

/-- A path goes on to a successor. -/
theorem IRFunc.PathTo.snoc {b s : Nat} {path : List Nat} (h : F.PathTo b path)
    (hs : s ∈ succsOf (F.blockAt b)) : F.PathTo s (path ++ [s]) := by
  obtain ⟨hhead, hlast, hpath⟩ := h
  refine ⟨by simp [hhead], by simp, List.isChain_append.mpr ⟨hpath, List.isChain_singleton s, ?_⟩⟩
  intro x hx y hy
  rw [hlast] at hx
  cases hx
  cases hy
  exact hs

/-- Entering a successor. -/
theorem IRFunc.Inside.enter (hg : F.GraphOk) (hc : F.Inside c) {s : Nat}
    (hs : s ∈ succsOf (F.blockAt c.block)) {R : Regs} {G : Globals} :
    ∃ c', F.enter s R G = .ok (.inl c') ∧ F.Inside c' := by
  have hlt := hg.succs _ (IRFunc.blockAt_mem hc.lt) s hs
  obtain ⟨path, hpath⟩ := hc.path
  exact ⟨F.start s R G, IRFunc.enter_eq hlt R G, ⟨_, hpath.snoc hs⟩, hlt, List.suffix_rfl⟩

/-- **The end of a block** leads on, or out of the function with a value if it returns one. -/
theorem IRFunc.Inside.term (hg : F.GraphOk) (hc : F.Inside c) (R : Regs) (G : Globals) :
    (∃ c', F.execTerm (F.blockAt c.block) R G = .ok (.inl c') ∧ F.Inside c') ∨
      ∃ r, F.execTerm (F.blockAt c.block) R G = .ok (.inr r) ∧ (F.ReturnsValue → r.1 ≠ none) := by
  have hmem := IRFunc.blockAt_mem hc.lt
  unfold IRFunc.execTerm
  rcases hg.ended _ hmem with hterm | hterm | hterm
  · rw [hterm]
    exact .inl (hc.enter hg (by simp [succsOf, hterm]))
  · rw [hterm]
    refine .inl (hc.enter hg ?_)
    split <;> simp [succsOf, hterm]
  · rw [hterm]
    refine .inr ⟨_, rfl, fun hvalue => ?_⟩
    obtain ⟨path, hpath⟩ := hc.path
    rw [if_pos (hvalue _ path hpath hterm)]
    exact Option.some_ne_none _

/-- **An instruction has a meaning** where calls are answered. -/
theorem IRModule.Fits.exec (hm : m.Fits) (hF : F ∈ m.funcs)
    (hcall : ∀ p, m.Answered p (call p)) {inst : Inst} (hi : inst ∈ F.insts) (R : Regs)
    (G : Globals) : inst.exec call R G ≠ .stuck := by
  unfold Inst.exec
  cases hop : inst.op with
  | Call =>
    obtain ⟨F', hF', hname, hlen, -⟩ := hm.closed.calls F hF inst hi hop
    have hfind : m.find inst.callee = some F' := hname ▸ find?_name hm.names hF'
    obtain ⟨hne, hvalue⟩ := hcall ⟨inst.callee, inst.args.map (·.eval R), G⟩ F' hfind
      (by rw [List.length_map, hlen])
    dsimp only
    cases hx : call ⟨inst.callee, inst.args.map (·.eval R), G⟩ with
    | timeout => exact fun h => by cases h
    | stuck => exact absurd hx hne
    | ok r =>
      rw [Outcome.ok_bind]
      unfold Regs.writeResult
      cases hd : inst.dst with
      | none => exact fun h => by cases h
      | some d =>
        have hret := hm.values F hF inst hi hop (by rw [hd]; exact Option.some_ne_none d) F' hF'
          hname
        obtain ⟨v, hv⟩ := Option.ne_none_iff_exists'.mp (hvalue r hx hret)
        rw [hv]
        exact fun h => by cases h
  | _ => exact fun h => by cases h

/-- **A step inside a function** has a meaning. -/
theorem IRModule.Fits.step (hm : m.Fits) (hF : F ∈ m.funcs)
    (hcall : ∀ p, m.Answered p (call p)) (hc : F.Inside c) :
    F.step call c ≠ .stuck ∧ (∀ c', F.step call c = .ok (.inl c') → F.Inside c') ∧
      ∀ r, F.step call c = .ok (.inr r) → F.ReturnsValue → r.1 ≠ none := by
  obtain ⟨b, rest, R, G⟩ := c
  cases rest with
  | nil =>
    rw [IRFunc.step_nil hc.lt]
    rcases hc.term (hm.graphs F hF) R G with ⟨c₁, h, hin⟩ | ⟨r, h, hr⟩
    · rw [h]
      refine ⟨fun h => (by cases h), fun c' h => ?_, fun _ h => (by cases h)⟩
      cases h
      exact hin
    · rw [h]
      refine ⟨fun h => (by cases h), fun _ h => (by cases h), fun r' h => ?_⟩
      cases h
      exact hr
  | cons inst rest =>
    have hi : inst ∈ F.insts :=
      IRFunc.mem_insts_iff.mpr ⟨b, hc.suffix.mem List.mem_cons_self⟩
    have hne := hm.exec hF hcall hi R G
    unfold IRFunc.step
    dsimp only
    cases hx : inst.exec call R G with
    | timeout => exact ⟨fun h => (by cases h), fun _ h => (by cases h), fun _ h => (by cases h)⟩
    | stuck => exact absurd hx hne
    | ok x =>
      refine ⟨fun h => (by cases h), fun c' h => ?_, fun _ h => (by cases h)⟩
      cases h
      exact ⟨hc.path, hc.lt, (List.suffix_cons inst rest).trans hc.suffix⟩

/-- **A run of a function answers its call**, where its own calls are answered. -/
theorem IRModule.Fits.body (hm : m.Fits) (hcall : ∀ p, m.Answered p (call p)) (junk : Regs)
    (p : CallArgs) (n : Nat) : m.Answered p (m.body junk p call n) := by
  intro F hfind hlen
  have hF : F ∈ m.funcs := List.mem_of_find?_eq_some hfind
  have hne := (hm.graphs F hF).nonempty
  unfold IRModule.body
  rw [hfind]
  dsimp only
  rw [IRFunc.run_eq call junk n p.globals hlen hne]
  have hentry : F.Inside (F.entry junk p.args p.globals) :=
    ⟨⟨[0], rfl, rfl, List.isChain_singleton 0⟩, List.length_pos_iff.mpr hne, List.suffix_rfl⟩
  constructor
  · exact run_ne_stuck (fun c hc => (hm.step hF hcall hc).1)
      (fun c c' hc => (hm.step hF hcall hc).2.1 c') hentry n
  · intro r hr hvalue
    exact loop_invariant (Q := fun r => r.1 ≠ none)
      (fun _ c c' hc => (hm.step hF hcall hc).2.1 c')
      (fun _ c r hc h => (hm.step hF hcall hc).2.2 r h hvalue) hentry hr

/-- **Every call is answered**, in a module that fits together. -/
theorem IRModule.Fits.answers (hm : m.Fits) (junk : Regs) (p : CallArgs) :
    m.Answered p (limit (m.body junk) p) :=
  limit_invariant (m.body_regular junk)
    (fun _ _ _ _ => ⟨fun h => (by cases h), fun _ h => by cases h⟩)
    (fun _ n hcall q => hm.body hcall junk q n) p

end Inside

/-! ## Accepted programs -/

namespace IRGen

open Sema

section Accepted

variable {m : Module} {m' : AModule} {A : Sema}

/-- **The code of an accepted module fits together**, if no function with a value returns without
one. -/
theorem generate_fits (h : analyze m = .ok (m', A)) (hret : m.returnsValues = true) :
    (generate A m').Fits := by
  have hnames : (generate A m').funcNames.Nodup :=
    genFuncs_names_nodup fun i j fn fn' => analyze_name_inj h
  refine ⟨hnames, generate_closed h, fun F hF => ?_, fun F hF inst hi hop hd G hG hname => ?_⟩
  · obtain ⟨fn, hfn, rfl⟩ := mem_genFuncs.mp hF
    obtain ⟨S, S', fn₀, hfunc, hdepth, -⟩ := analyze_func h hfn
    exact (genFunc_runs (A := A) hfunc hdepth).2
  · obtain ⟨G', hG', hname', -, hvalue⟩ := (generate_closed h).calls F hF inst hi hop
    obtain rfl : G = G' := List.inj_on_of_nodup_map hnames hG hG' (hname.trans hname'.symm)
    intro b path _ hterm
    have hb : b < G.blocks.length := by
      by_contra hb
      rw [IRFunc.blockAt_of_ge hb] at hterm
      cases hterm
    exact generate_returnsValue h hret hG (hvalue hd) (IRFunc.blockAt_mem hb) hterm

/-- The source and its code answer alike. -/
theorem generate_limit (h : analyze m = .ok (m', A)) (hd : m.declsInBlocks = true) (junk : Regs)
    (p : CallArgs) : limit m.body p = limit ((generate A m').body junk) p := by
  have hbody := (generate_body h hd junk).2
  have hreg := (generate A m').body_regular junk
  refine Flat.antisymm (limit_le precise_flat m.body_regular (fun p n => ?_) p)
    (limit_le precise_flat hreg (fun p n => ?_) p)
  · by_cases ht : m.body p (limit ((generate A m').body junk)) n = .timeout
    · exact .inl ht
    · obtain ⟨k, hk⟩ := (hbody p _ n).2 ht
      rw [← hk]
      exact body_limit hreg p k
  · exact precise_flat.trans (hbody p _ n).1 (body_limit m.body_regular p n)

/-- A function of the source, and its code. -/
theorem generate_find (h : analyze m = .ok (m', A)) {name : String} {fn : FuncDef}
    (hfind : m.find name = some fn) :
    ∃ F, (generate A m').find name = some F ∧ F.paramRegs.length = fn.params.length ∧
      F.returnsVoid = fn.returnsVoid := by
  obtain ⟨regs, S₀, S₁, -, hof, -, hall, -, rfl⟩ := analyze_ok h
  rcases find_generate (A := S₁.popScope) hof hall name with
    ⟨hnone, -⟩ | ⟨fn₁, fn', S, S', hfind', -, hF, -, hfn, -⟩
  · rw [show m.find name = none from hnone] at hfind
    cases hfind
  · obtain rfl : fn₁ = fn := Option.some.inj ((show m.find name = _ from hfind').symm.trans hfind)
    obtain ⟨-, hparams, hvoid⟩ := analyzeFunc_shape hfn
    exact ⟨_, hF, by rw [(genFunc_entry _ _).1, genParams_length, hparams], hvoid⟩

/-- The answer to a call of an accepted program. -/
theorem analyze_answers (h : analyze m = .ok (m', A)) (hd : m.declsInBlocks = true)
    (hret : m.returnsValues = true) {p : CallArgs} {fn : FuncDef} (hfind : m.find p.name = some fn)
    (hlen : p.args.length = fn.params.length) :
    limit m.body p ≠ .stuck ∧
      ∀ r, limit m.body p = .ok r → fn.returnsVoid = false → r.1 ≠ none := by
  obtain ⟨F, hF, hparams, hvoid⟩ := generate_find h hfind
  obtain ⟨hne, hvalue⟩ :=
    (generate_fits h hret).answers (fun _ => 0) p F hF (hlen.trans hparams.symm)
  rw [generate_limit h hd (fun _ => 0)]
  refine ⟨hne, fun r hx hv => hvalue r hx fun b path _ hterm => ?_⟩
  have hb : b < F.blocks.length := by
    by_contra hb
    rw [IRFunc.blockAt_of_ge hb] at hterm
    cases hterm
  exact generate_returnsValue h hret (List.mem_of_find?_eq_some hF) (hvoid.trans hv)
    (IRFunc.blockAt_mem hb) hterm

/-- **An accepted program does not get stuck**: any call of one of its functions, with as many
arguments as it has parameters, returns – with a value, if the function is not `void` – or runs on
for ever. The functions that are not `void` must not return without a value, which the analysis does
not check. -/
theorem analyze_progress (h : analyze m = .ok (m', A)) (hd : m.declsInBlocks = true)
    (hret : m.returnsValues = true) {p : CallArgs} {fn : FuncDef} (hfind : m.find p.name = some fn)
    (hlen : p.args.length = fn.params.length) :
    (∃ r, m.Returns p r ∧ (fn.returnsVoid = false → r.1 ≠ none)) ∨ m.Diverges p := by
  obtain ⟨hne, hvalue⟩ := analyze_answers h hd hret hfind hlen
  simp only [m.returns_iff, m.diverges_iff]
  cases hx : limit m.body p with
  | timeout => exact .inr rfl
  | stuck => exact absurd hx hne
  | ok r => exact .inl ⟨r, rfl, hvalue r hx⟩

end Accepted

/-- A program with a loop, from its beginning. -/
theorem breakModule_progress :
    (∃ r, breakModule.Returns ⟨"main", [], breakModule.initialGlobals⟩ r ∧ r.1 ≠ none) ∨
      breakModule.Diverges ⟨"main", [], breakModule.initialGlobals⟩ := by
  obtain ⟨r, hr, hvalue⟩ | hdiv := analyze_progress (m := breakModule) rfl (by decide) (by decide)
    (p := ⟨"main", [], breakModule.initialGlobals⟩) rfl rfl
  · exact .inl ⟨r, hr, hvalue rfl⟩
  · exact .inr hdiv

end IRGen

end ToyC
