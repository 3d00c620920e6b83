import ToyC.IRRuns
import ToyC.Lib.FlowGraph

/-!
# Going over the loops of a function

Several passes look for loops in the same way. They go over the edges of the function; where
the target of an edge dominates the source, the edge closes a loop. If the loop has a
*preheader* – its header has one predecessor outside, which does nothing but jump there –
the pass moves something to it. The passes differ in what they move, which is a parameter
here (`overLoops`).

What makes this sound is that such a loop is entered through its preheader alone
(`IsLoop`), and that the function does not start in it. The blocks that are not reachable have
predecessor lists too, so this is not only about the blocks on some path: it follows from the
equations of the dominators (`isLoop_of_preheader`).
-/

namespace ToyC

open FlowGraph

/-! ## Looking for loops -/

/-- The dominators of the blocks. A function without blocks has no entry; the passes return
before they come here. -/
def computeDom (F : IRFunc) (n : Nat) : Outcome (Nat → Finset Nat) :=
  dominators (fun b => (F.blockAt b).preds) F.blocks.length n

/-- The natural loop of an edge. -/
def loopOf (F : IRFunc) (u v n : Nat) : Outcome (Finset Nat) :=
  naturalLoop (fun b => (F.blockAt b).preds) u v n

/-- **The preheader** of a loop: the only predecessor of the header outside, if it ends with
a jump there. -/
def preheader (F : IRFunc) (L : Finset Nat) (v : Nat) : Option Nat :=
  match (F.blockAt v).preds.filter (· ∉ L) with
  | [pre] =>
    if (F.blockAt pre).term = .Jmp ∧ (F.blockAt pre).succ0 = v then some pre else none
  | _ => none

/-- The edges of a function, in the order of the blocks. -/
def IRFunc.edges (F : IRFunc) : List (Nat × Nat) :=
  (List.range F.blocks.length).flatMap fun u => (succsOf (F.blockAt u)).map fun v => (u, v)

/-- What a pass does to a loop with a preheader. -/
abbrev LoopPass := IRFunc → Finset Nat → Nat → IRFunc

/-- **One edge**: if it closes a loop that has a preheader, the loop is changed. -/
def visitEdge (pass : LoopPass) (dom : Nat → Finset Nat) (n : Nat) (F : IRFunc) (u v : Nat) :
    Outcome IRFunc :=
  if v ∈ dom u then do
    let L ← loopOf F u v n
    match preheader F L v with
    | none => .ok F
    | some pre => .ok (pass F L pre)
  else .ok F

/-- All edges. -/
def visitEdges (pass : LoopPass) (dom : Nat → Finset Nat) (n : Nat) :
    List (Nat × Nat) → IRFunc → Outcome IRFunc
  | [], F => .ok F
  | (u, v) :: edges, F => do
    let F ← visitEdge pass dom n F u v
    visitEdges pass dom n edges F

/-- **Go over the loops of a function.** None of the passes changes the edges. -/
def overLoops (pass : LoopPass) (F : IRFunc) (n : Nat) : Outcome IRFunc :=
  let F := computeCFG F
  if F.blocks.length = 0 then .ok F
  else do
    let dom ← computeDom F n
    visitEdges pass dom n F.edges F

/-! ## Functions with the same blocks, but for the instructions -/

/-- **The flow of control is the same**: two functions differ in the instructions of their
blocks, and in what the code generator needs to know. -/
structure SameFlow (F F' : IRFunc) : Prop where
  params : F'.paramRegs = F.paramRegs
  length : F'.blocks.length = F.blocks.length
  blocks : ∀ b, F'.blockAt b = { F.blockAt b with insts := (F'.blockAt b).insts }

namespace SameFlow

variable {F F' F'' : IRFunc}

theorem refl (F : IRFunc) : SameFlow F F := ⟨rfl, rfl, fun _ => rfl⟩

theorem trans (h : SameFlow F F') (h' : SameFlow F' F'') : SameFlow F F'' :=
  ⟨h'.params.trans h.params, h'.length.trans h.length, fun b => by
    rw [h'.blocks b, h.blocks b]⟩

theorem preds (h : SameFlow F F') (b : Nat) : (F'.blockAt b).preds = (F.blockAt b).preds := by
  rw [h.blocks b]

theorem term (h : SameFlow F F') (b : Nat) : (F'.blockAt b).term = (F.blockAt b).term := by
  rw [h.blocks b]

theorem succsOf (h : SameFlow F F') (b : Nat) :
    succsOf (F'.blockAt b) = succsOf (F.blockAt b) := by
  rw [h.blocks b]
  rfl

theorem termUses (h : SameFlow F F') (b : Nat) :
    (F'.blockAt b).termUses = (F.blockAt b).termUses := by
  rw [h.blocks b]
  rfl

theorem loopOf (h : SameFlow F F') (u v n : Nat) : loopOf F' u v n = loopOf F u v n := by
  unfold ToyC.loopOf
  rw [funext h.preds]

end SameFlow

/-- A function with other instructions in range is in range. -/
theorem IRFunc.InRange.of_sameFlow {F F' : IRFunc} (hF : F.InRange) (h : SameFlow F F')
    (hnv : F.numVregs ≤ F'.numVregs)
    (hinsts : ∀ b, ∀ inst ∈ (F'.blockAt b).insts, inst.InRange F'.numVregs) : F'.InRange := by
  refine ⟨?_, ?_, ?_, ?_⟩
  · rw [h.params]
    exact fun p hp => (hF.params p hp).trans_le hnv
  · intro bb hbb inst hi
    obtain ⟨b, -, rfl⟩ := IRFunc.exists_blockAt hbb
    exact hinsts b inst hi
  · intro bb hbb v hv
    obtain ⟨b, -, rfl⟩ := IRFunc.exists_blockAt hbb
    rw [h.termUses] at hv
    exact (hF.termUses_lt hv).trans_le hnv
  · intro bb hbb s hs
    obtain ⟨b, -, rfl⟩ := IRFunc.exists_blockAt hbb
    rw [h.succsOf] at hs
    rw [h.length]
    exact hF.succs_lt b s hs

/-! ## Predecessors -/

/-- **The predecessor lists are right**, and the entry has none. -/
structure IRFunc.Wired (F : IRFunc) : Prop where
  preds : ∀ b p, p ∈ (F.blockAt b).preds ↔ b ∈ succsOf (F.blockAt p) ∧ b < F.blocks.length
  entry : (F.blockAt 0).preds = []

/-- A block that does not exist has no successors. -/
theorem IRFunc.lt_of_mem_succsOf {F : IRFunc} {b p : Nat} (h : b ∈ succsOf (F.blockAt p)) :
    p < F.blocks.length := by
  by_contra hp
  rw [IRFunc.blockAt_of_ge hp] at h
  cases h

theorem IRFunc.Wired.of_sameFlow {F F' : IRFunc} (h : F.Wired) (hF : SameFlow F F') : F'.Wired where
  preds b p := by
    rw [hF.preds, hF.succsOf, hF.length]
    exact h.preds b p
  entry := (hF.preds 0).trans h.entry

theorem mem_predsOf {F : IRFunc} (hid : F.blocks.map (·.id) = List.range F.blocks.length)
    {b p : Nat} : p ∈ predsOf F.blocks b ↔ b ∈ succsOf (F.blockAt p) := by
  simp only [predsOf, List.mem_flatMap, List.mem_map, List.mem_filter, beq_iff_eq]
  constructor
  · rintro ⟨bb, hbb, s, ⟨hs, rfl⟩, rfl⟩
    obtain ⟨k, hk, rfl⟩ := IRFunc.exists_blockAt hbb
    rw [IRFunc.blockAt_id hid hk]
    exact hs
  · intro h
    have hp := IRFunc.lt_of_mem_succsOf h
    exact ⟨F.blockAt p, IRFunc.blockAt_mem hp, b, ⟨h, rfl⟩, IRFunc.blockAt_id hid hp⟩

/-- **Blocks that are numbered in order, with none before the first**: two functions with the same
edges are both so or both not. -/
theorem numbered_of_same {F F' : IRFunc} (hlen : F'.blocks.length = F.blocks.length)
    (hids : ∀ b, (F'.blockAt b).id = (F.blockAt b).id)
    (hsuccs : ∀ b, succsOf (F'.blockAt b) = succsOf (F.blockAt b))
    (hid : F.blocks.map (·.id) = List.range F.blocks.length)
    (hentry : predsOf F.blocks 0 = []) :
    F'.blocks.map (·.id) = List.range F'.blocks.length ∧ predsOf F'.blocks 0 = [] := by
  have hid' : F'.blocks.map (·.id) = List.range F'.blocks.length := by
    refine List.ext_getElem (by simp) fun b hb _ => ?_
    rw [List.length_map] at hb
    have := (hids b).trans (IRFunc.blockAt_id hid (hlen ▸ hb))
    simpa [IRFunc.blockAt, hb] using this
  refine ⟨hid', List.eq_nil_iff_forall_not_mem.mpr fun p hp => ?_⟩
  rw [mem_predsOf hid', hsuccs, ← mem_predsOf hid, hentry] at hp
  cases hp

theorem blockAt_computeCFG {F : IRFunc} {b : Nat} (hb : b < F.blocks.length) :
    (computeCFG F).blockAt b = { F.blockAt b with preds := predsOf F.blocks b } := by
  simp [computeCFG, IRFunc.blockAt, hb]

theorem blockAt_computeCFG_of_ge {F : IRFunc} {b : Nat} (hb : ¬ b < F.blocks.length) :
    (computeCFG F).blockAt b = F.blockAt b := by
  have hb' : ¬ b < (computeCFG F).blocks.length := by simpa [computeCFG] using hb
  rw [IRFunc.blockAt_of_ge hb, IRFunc.blockAt_of_ge hb']

@[simp] theorem length_computeCFG (F : IRFunc) :
    (computeCFG F).blocks.length = F.blocks.length := by
  simp [computeCFG]

theorem succsOf_computeCFG (F : IRFunc) (b : Nat) :
    succsOf ((computeCFG F).blockAt b) = succsOf (F.blockAt b) := by
  by_cases hb : b < F.blocks.length
  · rw [blockAt_computeCFG hb]
    rfl
  · rw [blockAt_computeCFG_of_ge hb]

/-- **Recomputing the predecessor lists makes them right.** -/
theorem wired_computeCFG {F : IRFunc} (hid : F.blocks.map (·.id) = List.range F.blocks.length)
    (hentry : predsOf F.blocks 0 = []) : (computeCFG F).Wired where
  preds b p := by
    rw [succsOf_computeCFG, length_computeCFG]
    by_cases hb : b < F.blocks.length
    · rw [blockAt_computeCFG hb]
      exact (mem_predsOf hid).trans (and_iff_left hb).symm
    · rw [blockAt_computeCFG_of_ge hb]
      simp [IRFunc.blockAt, hb]
  entry := by
    by_cases hb : 0 < F.blocks.length
    · rw [blockAt_computeCFG hb]
      exact hentry
    · rw [blockAt_computeCFG_of_ge hb, IRFunc.blockAt_of_ge hb]

/-! ## Dominators -/

/-- A path from the entry to a block. -/
def IRFunc.PathTo (F : IRFunc) (b : Nat) (path : List Nat) : Prop :=
  path.head? = some 0 ∧ path.getLast? = some b ∧ F.IsPath path

section Dominators

variable {F : IRFunc} (hid : F.blocks.map (·.id) = List.range F.blocks.length)
  (hsuccs : ∀ bb ∈ F.blocks, ∀ s ∈ succsOf bb, s < F.blocks.length)
include hid hsuccs

/-- The predecessor lists have the edges of the function. -/
theorem mem_preds_computeCFG {b p : Nat} :
    p ∈ ((computeCFG F).blockAt b).preds ↔ b ∈ succsOf (F.blockAt p) := by
  by_cases hb : b < F.blocks.length
  · rw [blockAt_computeCFG hb]
    exact mem_predsOf hid
  · rw [blockAt_computeCFG_of_ge hb, IRFunc.blockAt_of_ge hb]
    refine iff_of_false List.not_mem_nil fun hs => hb ?_
    have hp := IRFunc.getElem?_blocks (IRFunc.lt_of_mem_succsOf hs)
    exact hsuccs _ (List.mem_of_getElem? hp) b hs

theorem pathTo_computeCFG (b : Nat) (path : List Nat) :
    FlowGraph.PathTo (fun b => ((computeCFG F).blockAt b).preds) b path ↔ F.PathTo b path := by
  rw [pathTo_iff]
  exact and_congr_right fun _ => and_congr_right fun _ =>
    List.IsChain.iff fun p b => mem_preds_computeCFG hid hsuccs

/-- **`computeDom` computes dominators**: the iteration ends, and what it has for a block is on
every path to the block from the entry; where all blocks are reached, that is all there is on
every path. -/
theorem computeDom_dominates :
    (∃ n dom, computeDom (computeCFG F) n = .ok dom) ∧
      ∀ n dom, computeDom (computeCFG F) n = .ok dom → ∀ b < F.blocks.length, ∀ v,
        (v ∈ dom b → ∀ path, F.PathTo b path → v ∈ path) ∧
          ((∀ c < F.blocks.length, ∃ path, F.PathTo c path) →
            (∀ path, F.PathTo b path → v ∈ path) → v ∈ dom b) := by
  have hedge := fun b p => mem_preds_computeCFG hid hsuccs (b := b) (p := p)
  have hpaths := pathTo_computeCFG hid hsuccs
  have hfrom : ∀ b p, p ∈ ((computeCFG F).blockAt b).preds → p < F.blocks.length :=
    fun b p hp => IRFunc.lt_of_mem_succsOf ((hedge b p).mp hp)
  have hto : ∀ b p, p ∈ ((computeCFG F).blockAt b).preds → b < F.blocks.length := by
    intro b p hp
    have hat := IRFunc.getElem?_blocks (hfrom b p hp)
    exact hsuccs _ (List.mem_of_getElem? hat) b ((hedge b p).mp hp)
  refine ⟨dominators_total _ _, fun n dom hdom b hb v => ⟨fun hv path hpath => ?_, ?_⟩⟩
  · rw [computeDom, length_computeCFG] at hdom
    exact dominators_sound hto hdom hv path ((hpaths b path).mpr hpath)
  · intro hreach hv
    rw [computeDom, length_computeCFG] at hdom
    refine dominators_complete hfrom (fun c hc => ?_) hdom b hb v fun path hpath => ?_
    · obtain ⟨path, hpath⟩ := hreach c hc
      exact ⟨path, (hpaths c path).mpr hpath⟩
    · exact hv path ((hpaths b path).mp hpath)

end Dominators

/-- `if (c) x(); else y();` and, with no way to it, a block that jumps to the first branch. -/
def detourFunc : IRFunc where
  blocks := [{ id := 0, term := .Br, cond := .reg 0, succ0 := 1, succ1 := 2 },
    { id := 1, term := .Jmp, succ0 := 3 }, { id := 2, term := .Jmp, succ0 := 3 },
    { id := 3, term := .Ret }, { id := 4, term := .Jmp, succ0 := 1 }]

theorem computeDom_detourFunc :
    ∃ n dom, computeDom (computeCFG detourFunc) n = .ok dom ∧
      ∀ v ∈ dom 3, ∀ path, detourFunc.PathTo 3 path → v ∈ path := by
  obtain ⟨⟨n, dom, hdom⟩, hsound⟩ := computeDom_dominates (F := detourFunc) (by decide) (by decide)
  exact ⟨n, dom, hdom, fun v hv => (hsound n dom hdom 3 (by decide) v).1 hv⟩

/-- The entry is on every path to the first branch, but no longer in its set. -/
example : (match computeDom (computeCFG detourFunc) 3 with
    | .ok dom => decide (dom 1 = {1} ∧ dom 2 = {0, 2} ∧ dom 3 = {3})
    | _ => false) = true := by decide +kernel

/-! ## Loops -/

/-- **A loop with a preheader**: it is entered through the preheader alone. -/
structure IsLoop (F : IRFunc) (L : Finset Nat) (pre v : Nat) : Prop where
  entry : 0 ∉ L
  outside : pre ∉ L
  pre_lt : pre < F.blocks.length
  jump : (F.blockAt pre).term = .Jmp
  target : (F.blockAt pre).succ0 = v
  entered : ∀ b, ∀ s ∈ succsOf (F.blockAt b), s ∈ L → b ∈ L ∨ b = pre ∧ s = v

/-- **What is found to be a loop with a preheader is one.** -/
theorem isLoop_of_preheader {F : IRFunc} (hF : F.Wired) {dom : Nat → Finset Nat} {n u v pre : Nat}
    (hdom : computeDom F n = .ok dom) (hu : v ∈ succsOf (F.blockAt u))
    (hv : v < F.blocks.length) (huv : v ∈ dom u) {m : Nat} {L : Finset Nat}
    (hL : loopOf F u v m = .ok L) (hpre : preheader F L v = some pre) : IsLoop F L pre v := by
  obtain ⟨hclosed, hleast⟩ := naturalLoop_least hL
  obtain ⟨hentry, hdom⟩ := dominators_eq hdom
  have hv0 : v ≠ 0 := by
    rintro rfl
    have := (hF.preds 0 u).mpr ⟨hu, hv⟩
    rw [hF.entry] at this
    cases this
  -- The header dominates what is in the loop.
  have hmem : ∀ x ∈ L, x < F.blocks.length ∧ v ∈ dom x := by
    refine hleast (fun x => x < F.blocks.length ∧ v ∈ dom x) ⟨?_, ?_, ?_⟩
    · exact ⟨IRFunc.lt_of_mem_succsOf hu, huv⟩
    · refine ⟨hv, ?_⟩
      rw [hdom v hv hv0]
      exact Finset.mem_insert_self ..
    · rintro x ⟨hx, hvx⟩ hne p hp
      refine ⟨IRFunc.lt_of_mem_succsOf ((hF.preds x p).mp hp).1, ?_⟩
      have hx0 : x ≠ 0 := by
        rintro rfl
        rw [hF.entry] at hp
        cases hp
      rw [hdom x hx hx0] at hvx
      exact mem_domOf hvx (Ne.symm hne) p hp
  unfold preheader at hpre
  split at hpre
  · rename_i pre' hfilter
    split at hpre
    · rename_i hjump
      cases hpre
      have hin : pre ∈ (F.blockAt v).preds.filter (· ∉ L) := by
        rw [hfilter]
        exact List.mem_singleton_self _
      obtain ⟨hpred, hout⟩ := List.mem_filter.mp hin
      refine ⟨fun h0 => ?_, by simpa using hout, ?_, hjump.1, hjump.2, fun b s hs hsL => ?_⟩
      · have := (hmem 0 h0).2
        rw [hentry] at this
        exact hv0 (Finset.mem_singleton.mp this)
      · exact IRFunc.lt_of_mem_succsOf ((hF.preds v pre).mp hpred).1
      · have hb : b ∈ (F.blockAt s).preds := (hF.preds s b).mpr ⟨hs, (hmem s hsL).1⟩
        by_cases hsv : s = v
        · subst hsv
          refine or_iff_not_imp_left.mpr fun hbL => ⟨?_, rfl⟩
          have hbf : b ∈ (F.blockAt s).preds.filter (· ∉ L) :=
            List.mem_filter.mpr ⟨hb, by simpa using hbL⟩
          rw [hfilter] at hbf
          exact List.mem_singleton.mp hbf
        · exact .inl (hclosed.preds s hsL hsv b hb)
    · cases hpre
  · cases hpre

/-! ## What the passes have in common -/

section Visit

variable {pass : LoopPass} {dom : Nat → Finset Nat} {n : Nat}

/-- **Every loop the pass comes to is as it should be**: at each edge that closes a loop with a
preheader, the function as it is then, the loop, the preheader and the header. -/
def EachLoop (good : IRFunc → Finset Nat → Nat → Nat → Prop) (pass : LoopPass)
    (dom : Nat → Finset Nat) (n : Nat) : List (Nat × Nat) → IRFunc → Prop
  | [], _ => True
  | (u, v) :: edges, F =>
    (∀ L pre, v ∈ dom u → loopOf F u v n = .ok L → preheader F L v = some pre → good F L pre v) ∧
      ∀ F', visitEdge pass dom n F u v = .ok F' → EachLoop good pass dom n edges F'

/-- The function after an edge: as before, or with the loop changed. -/
theorem visitEdge_cases {F F' : IRFunc} {u v : Nat} (h : visitEdge pass dom n F u v = .ok F') :
    F' = F ∨ ∃ L pre, v ∈ dom u ∧ loopOf F u v n = .ok L ∧ preheader F L v = some pre ∧
      F' = pass F L pre := by
  unfold visitEdge at h
  split at h
  · rename_i huv
    obtain ⟨L, hL, h⟩ := Outcome.bind_eq_ok.mp h
    split at h
    · cases h
      exact .inl rfl
    · rename_i pre hpre
      cases h
      exact .inr ⟨L, pre, huv, hL, hpre, rfl⟩
  · cases h
    exact .inl rfl

/-- **The rule for passes over loops**: what every change of a loop preserves, the pass
preserves. -/
theorem visitEdges_rule {good : IRFunc → Finset Nat → Nat → Nat → Prop}
    {P : IRFunc → Prop} {edges : List (Nat × Nat)}
    (hpass : ∀ F u v L pre, P F → (u, v) ∈ edges → v ∈ dom u → loopOf F u v n = .ok L →
      preheader F L v = some pre → good F L pre v → P (pass F L pre))
    {F F' : IRFunc} (hF : P F) (hgood : EachLoop good pass dom n edges F)
    (h : visitEdges pass dom n edges F = .ok F') : P F' := by
  induction edges generalizing F with
  | nil =>
    cases h
    exact hF
  | cons e edges ih =>
    obtain ⟨u, v⟩ := e
    obtain ⟨F₁, hF₁, h⟩ := Outcome.bind_eq_ok.mp h
    refine ih (fun F u v L pre hP hmem => hpass F u v L pre hP (List.mem_cons_of_mem _ hmem))
      ?_ (hgood.2 F₁ hF₁) h
    rcases visitEdge_cases hF₁ with rfl | ⟨L, pre, huv, hL, hpre, rfl⟩
    · exact hF
    · exact hpass F u v L pre hF List.mem_cons_self huv hL hpre (hgood.1 L pre huv hL hpre)

theorem IRFunc.mem_edges {F : IRFunc} {u v : Nat} :
    (u, v) ∈ F.edges ↔ v ∈ succsOf (F.blockAt u) := by
  simp only [IRFunc.edges, List.mem_flatMap, List.mem_range, List.mem_map, Prod.mk.injEq]
  constructor
  · rintro ⟨u', -, v', hv, rfl, rfl⟩
    exact hv
  · exact fun h => ⟨u, IRFunc.lt_of_mem_succsOf h, v, h, rfl, rfl⟩

/-- **All loops are found**, with enough fuel. -/
theorem exists_loopOf {F : IRFunc} (hF : F.Wired) {edges : List (Nat × Nat)}
    (hedges : ∀ e ∈ edges, e.1 < F.blocks.length ∧ e.2 < F.blocks.length) :
    ∃ N, ∀ n ≥ N, ∀ e ∈ edges, ∃ L, loopOf F e.1 e.2 n = .ok L := by
  induction edges with
  | nil => exact ⟨0, fun _ _ _ he => by cases he⟩
  | cons e edges ih =>
    obtain ⟨N, hN⟩ := ih fun e' he' => hedges e' (List.mem_cons_of_mem _ he')
    obtain ⟨hu, hv⟩ := hedges e List.mem_cons_self
    obtain ⟨M, L, hL⟩ := naturalLoop_total hu hv
      fun x p hp => IRFunc.lt_of_mem_succsOf ((hF.preds x p).mp hp).1
    refine ⟨max M N, fun n hn e' he' => ?_⟩
    rcases List.mem_cons.mp he' with rfl | he'
    · exact ⟨L, Outcome.loop_ok_mono (by omega) hL⟩
    · exact hN n (by omega) e' he'

theorem visitEdges_total (hpass : ∀ F L pre, SameFlow F (pass F L pre)) {F₀ F : IRFunc}
    (hF : SameFlow F₀ F) {edges : List (Nat × Nat)}
    (hloops : ∀ e ∈ edges, ∃ L, loopOf F₀ e.1 e.2 n = .ok L) :
    ∃ F', visitEdges pass dom n edges F = .ok F' := by
  induction edges generalizing F with
  | nil => exact ⟨F, rfl⟩
  | cons e edges ih =>
    obtain ⟨u, v⟩ := e
    obtain ⟨F₁, hF₁, hsame⟩ : ∃ F₁, visitEdge pass dom n F u v = .ok F₁ ∧ SameFlow F₀ F₁ := by
      obtain ⟨L, hL⟩ := hloops (u, v) List.mem_cons_self
      unfold visitEdge
      rw [hF.loopOf u v n, hL]
      split
      · rw [Outcome.ok_bind]
        split
        · exact ⟨F, rfl, hF⟩
        · exact ⟨_, rfl, hF.trans (hpass F L _)⟩
      · exact ⟨F, rfl, hF⟩
    obtain ⟨F', hF'⟩ := ih hsame fun e' he' => hloops e' (List.mem_cons_of_mem _ he')
    exact ⟨F', by unfold visitEdges; rw [hF₁]; exact hF'⟩

/-- More fuel does not change what the pass yields. -/
theorem visitEdges_steady (pass : LoopPass) (dom : Nat → Finset Nat) (edges : List (Nat × Nat))
    (F : IRFunc) : Outcome.Steady fun n => visitEdges pass dom n edges F := by
  induction edges generalizing F with
  | nil => exact .const _
  | cons e edges ih =>
    refine .bind (f := fun n => visitEdge pass dom n F e.1 e.2) ?_ fun F' => ih F'
    unfold visitEdge
    split
    · refine .bind (.loop _ _) fun L => ?_
      split <;> exact .const _
    · exact .const _

theorem overLoops_steady (pass : LoopPass) (F : IRFunc) : Outcome.Steady (overLoops pass F) := by
  unfold overLoops
  dsimp only
  split
  · exact .const _
  · exact .bind (.loop _ _) fun dom => visitEdges_steady pass dom _ _

/-- **A pass over the loops ends.** -/
theorem overLoops_total (hpass : ∀ F L pre, SameFlow F (pass F L pre)) {F : IRFunc}
    (hid : F.blocks.map (·.id) = List.range F.blocks.length) (hentry : predsOf F.blocks 0 = [])
    (hsuccs : ∀ b, ∀ s ∈ succsOf (F.blockAt b), s < F.blocks.length) :
    ∃ n F', overLoops pass F n = .ok F' := by
  have hwired := wired_computeCFG hid hentry
  have hedges : ∀ e ∈ (computeCFG F).edges,
      e.1 < (computeCFG F).blocks.length ∧ e.2 < (computeCFG F).blocks.length := by
    intro e he
    have hmem := IRFunc.mem_edges.mp he
    refine ⟨IRFunc.lt_of_mem_succsOf hmem, ?_⟩
    rw [succsOf_computeCFG] at hmem
    rw [length_computeCFG]
    exact hsuccs _ _ hmem
  obtain ⟨N, hN⟩ := exists_loopOf hwired hedges
  obtain ⟨M, dom, hdom⟩ := dominators_total (fun b => ((computeCFG F).blockAt b).preds)
    (computeCFG F).blocks.length
  have hdom' : computeDom (computeCFG F) (max M N) = .ok dom :=
    Outcome.loop_ok_mono (Nat.le_max_left M N) hdom
  obtain ⟨F', hF'⟩ := visitEdges_total hpass (SameFlow.refl _)
    (hN (max M N) (Nat.le_max_right M N))
  refine ⟨max M N, ?_⟩
  unfold overLoops
  dsimp only
  split
  · exact ⟨_, rfl⟩
  · exact ⟨F', by rw [hdom']; exact hF'⟩

end Visit

end ToyC
