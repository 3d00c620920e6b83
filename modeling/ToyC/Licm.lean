import ToyC.Hoisting

/-!
# Loop-invariant code motion

The pass moves instructions of a loop to its preheader. An instruction is taken for invariant
if some instruction outside the loop writes each vreg it reads, or one that was moved before
it. Whether the loop writes it as well is not asked, and of the result nothing is asked at
all.

So the pass moves `i = i + 1` out of a loop that counts with `i`, and an assignment in a loop
that is executed no time. It preserves the meaning of a function where, in each loop it comes
to, what is taken for invariant is (`LoopSafe`, `licm_equivalent`).
-/

namespace ToyC

/-! ## The pass -/

/-- Whether an operand is no vreg, or one that is defined outside. -/
def valOutside (defined : Nat → Bool) (v : Val) : Bool :=
  match v with
  | .imm _ => true
  | .reg r => defined r

/-- **Whether an instruction is taken for invariant.** -/
def isInvariant (defined : Nat → Bool) (inst : Inst) : Bool :=
  match inst.dst, inst.op with
  | none, _ => false
  | some _, .Mv | some _, .Neg | some _, .Not => valOutside defined inst.a
  | some _, op => isBinary op && (valOutside defined inst.a && valOutside defined inst.b)

/-- An instruction is moved: what it writes is defined outside from then on. -/
def defineDst (defined : Nat → Bool) (inst : Inst) : Nat → Bool :=
  match inst.dst with
  | none => defined
  | some d => Function.update defined d true

/-- The instructions of a block of the loop: what is kept, what is moved, and what is defined
outside then. -/
def licmInsts : (Nat → Bool) → List Inst → List Inst × List Inst × (Nat → Bool)
  | defined, [] => ([], [], defined)
  | defined, inst :: insts =>
    if isInvariant defined inst then
      let (kept, moved, defined) := licmInsts (defineDst defined inst) insts
      (kept, inst :: moved, defined)
    else
      let (kept, moved, defined) := licmInsts defined insts
      (inst :: kept, moved, defined)

/-- The blocks from a number on: what is left of them, and what is moved. -/
def licmBlocks (L : Finset Nat) : Nat → (Nat → Bool) → List BasicBlock →
    List BasicBlock × List Inst
  | _, _, [] => ([], [])
  | b, defined, bb :: bbs =>
    if b ∈ L then
      let (kept, moved, defined) := licmInsts defined bb.insts
      let (bbs, moved') := licmBlocks L (b + 1) defined bbs
      ({ bb with insts := kept } :: bbs, moved ++ moved')
    else
      let (bbs, moved) := licmBlocks L (b + 1) defined bbs
      (bb :: bbs, moved)

/-- What is defined outside of a loop. -/
def definedOutside (F : IRFunc) (L : Finset Nat) (x : Nat) : Bool :=
  (List.range F.blocks.length).any fun b =>
    b ∉ L && (F.blockAt b).insts.any fun inst => inst.dst = some x

/-- A loop with its preheader. -/
def licmLoop : LoopPass := fun F L pre =>
  let (blocks, moved) := licmBlocks L 0 (definedOutside F L) F.blocks
  { F with blocks := blocks.modify pre fun bb => { bb with insts := bb.insts ++ moved } }

/-- **Loop-invariant code motion.** -/
def licm (F : IRFunc) (n : Nat) : Outcome IRFunc := overLoops licmLoop F n

/-! ## When it may be done -/

/-- The instructions that are taken for invariant, of those of a loop. -/
def invariants : (Nat → Bool) → List Inst → List Inst
  | _, [] => []
  | defined, inst :: insts =>
    if isInvariant defined inst then inst :: invariants (defineDst defined inst) insts
    else invariants defined insts

/-- The other ones. -/
def variants : (Nat → Bool) → List Inst → List Inst
  | _, [] => []
  | defined, inst :: insts =>
    if isInvariant defined inst then variants (defineDst defined inst) insts
    else inst :: variants defined insts

/-- The instructions of a loop, in the order of the text. -/
def loopInsts (L : Finset Nat) (blocks : List (BasicBlock × Nat)) : List Inst :=
  blocks.flatMap fun bb => if bb.2 ∈ L then bb.1.insts else []

/-- **What is taken for invariant in a loop can be moved**: none of these instructions reads its
own result or writes what an earlier one reads or writes, the other instructions of the loop
do not either, and no result is needed at the header. -/
structure LoopSafe (F : IRFunc) (L : Finset Nat) (pre v : Nat) : Prop where
  self : ∀ m ∈ invariants (definedOutside F L) (loopInsts L F.blocks.zipIdx),
    ∀ x ∈ m.dst, x ∉ m.uses
  ordered : (invariants (definedOutside F L) (loopInsts L F.blocks.zipIdx)).Pairwise
    fun m m' => m'.Spares m
  kept : ∀ inst ∈ variants (definedOutside F L) (loopInsts L F.blocks.zipIdx),
    ∀ m ∈ invariants (definedOutside F L) (loopInsts L F.blocks.zipIdx), inst.Spares m
  dead : ∀ m ∈ invariants (definedOutside F L) (loopInsts L F.blocks.zipIdx),
    ∀ x ∈ m.dst, ¬ F.LiveAt v (F.blockAt v).insts x

/-- **The loops the pass comes to are safe**, each in the function as it is then. -/
def LicmSafe (F : IRFunc) (n : Nat) : Prop :=
  ∀ dom, computeDom (computeCFG F) n = .ok dom →
    EachLoop LoopSafe licmLoop dom n (computeCFG F).edges (computeCFG F)

/-! ## What is moved -/

section Insts

variable {defined : Nat → Bool} {insts : List Inst}

theorem isInvariant_movable {inst : Inst} (h : isInvariant defined inst = true) :
    inst.movable = true := by
  unfold isInvariant at h
  unfold Inst.movable
  cases hd : inst.dst <;> cases hop : inst.op <;> simp [hd, hop, isBinary] at h ⊢

theorem invariants_movable : ∀ m ∈ invariants defined insts, m.movable = true := by
  induction insts generalizing defined with
  | nil => exact fun m hm => by cases hm
  | cons inst insts ih =>
    intro m hm
    unfold invariants at hm
    split at hm
    · rename_i hinv
      rcases List.mem_cons.mp hm with rfl | hm
      · exact isInvariant_movable hinv
      · exact ih m hm
    · exact ih m hm

/-- What is defined outside behind some instructions of the loop. -/
def definedAfter (defined : Nat → Bool) (insts : List Inst) : Nat → Bool :=
  (invariants defined insts).foldl defineDst defined

theorem licmInsts_eq : licmInsts defined insts =
    (variants defined insts, invariants defined insts, definedAfter defined insts) := by
  induction insts generalizing defined with
  | nil => rfl
  | cons inst insts ih =>
    unfold licmInsts variants definedAfter invariants
    split
    · rw [ih]
      rfl
    · rw [ih]
      rfl

theorem split_append (insts' : List Inst) :
    invariants defined (insts ++ insts') =
        invariants defined insts ++ invariants (definedAfter defined insts) insts' ∧
      variants defined (insts ++ insts') =
        variants defined insts ++ variants (definedAfter defined insts) insts' := by
  induction insts generalizing defined with
  | nil => exact ⟨rfl, rfl⟩
  | cons inst insts ih =>
    unfold definedAfter
    rw [List.cons_append]
    by_cases hinv : isInvariant defined inst = true
    · simp only [invariants, variants, if_pos hinv]
      exact ⟨congrArg (inst :: ·) ih.1, ih.2⟩
    · simp only [invariants, variants, if_neg hinv]
      exact ⟨ih.1, congrArg (inst :: ·) ih.2⟩

/-- What is left of the instructions when the invariant ones are moved. -/
theorem moved_variants {M : List Inst} (hinv : ∀ m ∈ invariants defined insts, m ∈ M)
    (hvar : ∀ inst ∈ variants defined insts, ∀ m ∈ M, inst.Spares m) :
    Moved M insts (variants defined insts) := by
  induction insts generalizing defined with
  | nil => exact .nil
  | cons inst insts ih =>
    unfold invariants at hinv
    unfold variants at hvar ⊢
    split
    · rename_i h
      rw [if_pos h] at hinv hvar
      exact .move (hinv inst List.mem_cons_self)
        (ih (fun m hm => hinv m (List.mem_cons_of_mem _ hm)) hvar)
    · rename_i h
      rw [if_neg h] at hinv hvar
      exact .keep (.refl (hvar inst List.mem_cons_self))
        (ih hinv fun i hi => hvar i (List.mem_cons_of_mem _ hi))

theorem variants_subset : variants defined insts ⊆ insts := by
  induction insts generalizing defined with
  | nil => exact fun _ h => h
  | cons inst insts ih =>
    unfold variants
    split
    · exact fun i hi => List.mem_cons_of_mem _ (ih hi)
    · exact List.cons_subset_cons inst ih

theorem invariants_subset : invariants defined insts ⊆ insts := by
  induction insts generalizing defined with
  | nil => exact fun _ h => h
  | cons inst insts ih =>
    unfold invariants
    split
    · exact List.cons_subset_cons inst ih
    · exact fun i hi => List.mem_cons_of_mem _ (ih hi)

end Insts

/-! ## The blocks -/

section Blocks

variable {L : Finset Nat} {bbs : List BasicBlock}

theorem loopInsts_cons (b : Nat) (bb : BasicBlock) :
    loopInsts L ((bb :: bbs).zipIdx b) =
      (if b ∈ L then bb.insts else []) ++ loopInsts L (bbs.zipIdx (b + 1)) := by
  rw [List.zipIdx_cons]
  rfl

/-- **What is moved** is what is taken for invariant. -/
theorem licmBlocks_moved (b : Nat) (defined : Nat → Bool) :
    (licmBlocks L b defined bbs).2 = invariants defined (loopInsts L (bbs.zipIdx b)) := by
  induction bbs generalizing b defined with
  | nil => rfl
  | cons bb bbs ih =>
    rw [loopInsts_cons]
    unfold licmBlocks
    split
    · rw [licmInsts_eq, (split_append _).1, ← ih]
    · exact ih (b + 1) defined

theorem licmBlocks_length (b : Nat) (defined : Nat → Bool) :
    (licmBlocks L b defined bbs).1.length = bbs.length := by
  induction bbs generalizing b defined with
  | nil => rfl
  | cons bb bbs ih =>
    unfold licmBlocks
    split
    · rw [licmInsts_eq]
      exact congrArg (· + 1) (ih (b + 1) _)
    · exact congrArg (· + 1) (ih (b + 1) _)

/-- **What becomes of a block.** -/
theorem licmBlocks_getD (b : Nat) (defined : Nat → Bool) (k : Nat) :
    let bb := bbs.getD k {}
    let bb' := (licmBlocks L b defined bbs).1.getD k {}
    bb' = { bb with insts := bb'.insts } ∧ (b + k ∉ L → bb'.insts = bb.insts) ∧
      bb'.insts ⊆ bb.insts := by
  induction bbs generalizing b defined k with
  | nil => exact ⟨rfl, fun _ => rfl, fun _ h => h⟩
  | cons bb bbs ih =>
    unfold licmBlocks
    split
    · rename_i hb
      rw [licmInsts_eq]
      cases k with
      | zero => exact ⟨rfl, fun hnot => absurd hb hnot, variants_subset⟩
      | succ k =>
        have := ih (b + 1) (definedAfter defined bb.insts) k
        rwa [Nat.add_right_comm] at this
    · cases k with
      | zero => exact ⟨rfl, fun _ => rfl, fun _ h => h⟩
      | succ k =>
        have := ih (b + 1) defined k
        rwa [Nat.add_right_comm] at this

/-- **What is left of a block of the loop.** -/
theorem licmBlocks_insts {M : List Inst} (b : Nat) (defined : Nat → Bool)
    (hinv : ∀ m ∈ invariants defined (loopInsts L (bbs.zipIdx b)), m ∈ M)
    (hvar : ∀ inst ∈ variants defined (loopInsts L (bbs.zipIdx b)), ∀ m ∈ M, inst.Spares m)
    (k : Nat) (hk : b + k ∈ L) :
    Moved M (bbs.getD k {}).insts ((licmBlocks L b defined bbs).1.getD k {}).insts := by
  induction bbs generalizing b defined k with
  | nil => exact .nil
  | cons bb bbs ih =>
    rw [loopInsts_cons] at hinv hvar
    unfold licmBlocks
    by_cases hb : b ∈ L
    · rw [if_pos hb, (split_append _).1] at hinv
      rw [if_pos hb, (split_append _).2] at hvar
      rw [if_pos hb, licmInsts_eq]
      cases k with
      | zero =>
        exact moved_variants (fun m hm => hinv m (List.mem_append_left _ hm))
          fun i hi => hvar i (List.mem_append_left _ hi)
      | succ k =>
        exact ih (b + 1) _ (fun m hm => hinv m (List.mem_append_right _ hm))
          (fun i hi => hvar i (List.mem_append_right _ hi)) k (by rwa [Nat.add_right_comm])
    · rw [if_neg hb] at hinv hvar ⊢
      cases k with
      | zero => exact absurd hk hb
      | succ k => exact ih (b + 1) _ hinv hvar k (by rwa [Nat.add_right_comm])

end Blocks

/-! ## A loop -/

section Loop

variable {F : IRFunc} {L : Finset Nat} {pre v : Nat}

theorem blockAt_licmLoop (b : Nat) :
    (licmLoop F L pre).blockAt b =
      let bb := (licmBlocks L 0 (definedOutside F L) F.blocks).1.getD b {}
      if b = pre ∧ b < F.blocks.length then
        { bb with insts := bb.insts ++
            invariants (definedOutside F L) (loopInsts L F.blocks.zipIdx) }
      else bb := by
  have hlen : (licmBlocks L 0 (definedOutside F L) F.blocks).1.length = F.blocks.length :=
    licmBlocks_length 0 (definedOutside F L)
  unfold licmLoop IRFunc.blockAt
  rw [← licmBlocks_moved]
  simp only [List.getD_eq_getElem?_getD, List.getElem?_modify]
  by_cases hb : b < F.blocks.length
  · rw [List.getElem?_eq_getElem (hlen ▸ hb)]
    by_cases hpre : b = pre
    · simp [hpre.symm, hb]
    · simp [Ne.symm hpre, hpre]
  · rw [List.getElem?_eq_none (hlen ▸ Nat.le_of_not_lt hb)]
    simp [hb]

theorem sameFlow_licmLoop : SameFlow F (licmLoop F L pre) where
  params := rfl
  length := by simp [licmLoop, licmBlocks_length]
  blocks b := by
    have hbb := (@licmBlocks_getD L F.blocks 0 (definedOutside F L) b).1
    rw [blockAt_licmLoop]
    dsimp only at hbb ⊢
    split
    · rw [hbb]
      rfl
    · exact hbb

/-- **What the pass does to a safe loop is to move instructions that can be moved.** -/
theorem hoisted_licmLoop (h : LoopSafe F L pre v) (hL : IsLoop F L pre v) :
    Hoisted F (licmLoop F L pre) L pre
      (invariants (definedOutside F L) (loopInsts L F.blocks.zipIdx)) where
  flow := sameFlow_licmLoop
  loop b hb := by
    have hne : ¬ (b = pre ∧ b < F.blocks.length) := fun hpre => hL.outside (hpre.1 ▸ hb)
    rw [blockAt_licmLoop]
    simp only [if_neg hne]
    exact licmBlocks_insts 0 _ (fun _ hm => hm) h.kept b ((Nat.zero_add b).symm ▸ hb)
  preheader := by
    rw [blockAt_licmLoop]
    simp only [hL.pre_lt, and_self, if_true]
    rw [(licmBlocks_getD 0 (definedOutside F L) pre).2.1 ((Nat.zero_add pre).symm ▸ hL.outside)]
    rfl
  others b hb hpre := by
    rw [blockAt_licmLoop]
    simp only [if_neg (show ¬ (b = pre ∧ b < F.blocks.length) from fun h => hpre h.1)]
    exact (licmBlocks_getD 0 (definedOutside F L) b).2.1 ((Nat.zero_add b).symm ▸ hb)

theorem LoopSafe.canMove (h : LoopSafe F L pre v) :
    CanMove F (invariants (definedOutside F L) (loopInsts L F.blocks.zipIdx)) v :=
  ⟨invariants_movable, h.self, h.ordered, h.dead⟩

theorem mem_loopInsts {inst : Inst} (h : inst ∈ loopInsts L F.blocks.zipIdx) :
    ∃ bb ∈ F.blocks, inst ∈ bb.insts := by
  obtain ⟨⟨bb, b⟩, hbb, hi⟩ := List.mem_flatMap.mp h
  split at hi
  · exact ⟨bb, List.fst_mem_of_mem_zipIdx hbb, hi⟩
  · cases hi

/-- The instructions behind the pass were there before. -/
theorem mem_licmLoop {b : Nat} {inst : Inst} (hi : inst ∈ ((licmLoop F L pre).blockAt b).insts) :
    ∃ bb ∈ F.blocks, inst ∈ bb.insts := by
  have hkept : ∀ inst ∈ ((licmBlocks L 0 (definedOutside F L) F.blocks).1.getD b {}).insts,
      ∃ bb ∈ F.blocks, inst ∈ bb.insts := by
    intro inst hi
    have hi := (licmBlocks_getD 0 (definedOutside F L) b).2.2 hi
    have hb : b < F.blocks.length := by
      by_contra hb
      simp [List.getElem?_eq_none (Nat.le_of_not_lt hb)] at hi
    exact ⟨_, IRFunc.blockAt_mem hb, hi⟩
  rw [blockAt_licmLoop] at hi
  dsimp only at hi
  split at hi
  · rcases List.mem_append.mp hi with hi | hi
    · exact hkept inst hi
    · exact mem_loopInsts (invariants_subset hi)
  · exact hkept inst hi

theorem inRange_licmLoop (hF : F.InRange) : (licmLoop F L pre).InRange := by
  refine hF.of_sameFlow sameFlow_licmLoop (Nat.le_refl _) fun b inst hi => ?_
  obtain ⟨bb, hbb, hi⟩ := mem_licmLoop hi
  exact hF.insts bb hbb inst hi

end Loop

/-! ## The function -/

section Function

variable {F : IRFunc} {call : Callee}

theorem step_computeCFG : (computeCFG F).step call = F.step call := by
  have henter : ∀ b R G, (computeCFG F).enter b R G = F.enter b R G := by
    intro b R G
    unfold IRFunc.enter computeCFG
    simp only [List.getElem?_mapIdx]
    cases F.blocks[b]? <;> rfl
  funext c
  unfold IRFunc.step
  cases c.rest with
  | cons inst rest => rfl
  | nil =>
    have hblock : (computeCFG F).blocks[c.block]? =
        F.blocks[c.block]?.map fun bb => { bb with preds := predsOf F.blocks c.block } := by
      unfold computeCFG
      rw [List.getElem?_mapIdx]
    rw [hblock]
    cases F.blocks[c.block]? with
    | none => rfl
    | some bb =>
      simp only [Option.map_some, IRFunc.execTerm, henter]

/-- Recomputing the predecessor lists has no effect on the meaning. -/
theorem equivalent_computeCFG (junk : Regs) (args : List Word) (G : Globals) :
    Equivalent F (computeCFG F) call junk args G := by
  have hentry : (computeCFG F).entry junk args G = F.entry junk args G := by
    unfold IRFunc.entry IRFunc.start
    by_cases hb : 0 < F.blocks.length
    · rw [blockAt_computeCFG hb]
      rfl
    · rw [blockAt_computeCFG_of_ge hb]
      rfl
  refine ⟨rfl, fun x _ => ?_, fun _ n => ⟨n, ?_⟩, fun _ n => ⟨n, ?_⟩⟩
  · have hrun : ∀ n, (computeCFG F).run call junk n args G = F.run call junk n args G := fun n =>
      IRFunc.run_congr rfl (length_computeCFG F) (by rw [step_computeCFG, hentry])
    simp only [hrun]
  · rw [step_computeCFG, hentry]
  · rw [step_computeCFG, hentry]

theorem inRange_computeCFG (hF : F.InRange) : (computeCFG F).InRange := by
  have hat : ∀ bb ∈ (computeCFG F).blocks, ∃ bb₀ ∈ F.blocks, ∃ preds, bb = { bb₀ with preds } := by
    intro bb hbb
    obtain ⟨b, hb, rfl⟩ := List.mem_mapIdx.mp hbb
    exact ⟨F.blocks[b], List.getElem_mem hb, _, rfl⟩
  refine ⟨hF.params, fun bb hbb => ?_, fun bb hbb => ?_, fun bb hbb => ?_⟩
  · obtain ⟨bb₀, hbb₀, preds, rfl⟩ := hat bb hbb
    exact hF.insts bb₀ hbb₀
  · obtain ⟨bb₀, hbb₀, preds, rfl⟩ := hat bb hbb
    exact hF.terms bb₀ hbb₀
  · obtain ⟨bb₀, hbb₀, preds, rfl⟩ := hat bb hbb
    rw [length_computeCFG]
    exact hF.succs bb₀ hbb₀

/-- **The rule for passes over loops**: a pass that keeps the flow of control, and preserves the
meaning at each loop it comes to, preserves the meaning of the function, and whatever else is
preserved at each loop. -/
theorem overLoops_rule {pass : LoopPass} {good : IRFunc → Finset Nat → Nat → Nat → Prop}
    {P : IRFunc → Prop} {n : Nat} {F' : IRFunc} (hF : F.InRange)
    (hid : F.blocks.map (·.id) = List.range F.blocks.length)
    (hentry : predsOf F.blocks 0 = []) (hstart : P (computeCFG F))
    (hpass : ∀ F₁ L pre v, P F₁ → F₁.InRange → IsLoop F₁ L pre v → good F₁ L pre v →
      P (pass F₁ L pre) ∧ SameFlow F₁ (pass F₁ L pre) ∧ (pass F₁ L pre).InRange ∧
        ∀ call junk args G, Equivalent F₁ (pass F₁ L pre) call junk args G)
    (hgood : ∀ dom, computeDom (computeCFG F) n = .ok dom →
      EachLoop good pass dom n (computeCFG F).edges (computeCFG F))
    (h : overLoops pass F n = .ok F') :
    P F' ∧ SameFlow (computeCFG F) F' ∧ F'.InRange ∧
      ∀ call junk args G, Equivalent F F' call junk args G := by
  unfold overLoops at h
  dsimp only at h
  have hinit : P (computeCFG F) ∧ SameFlow (computeCFG F) (computeCFG F) ∧
      (computeCFG F).InRange ∧ ∀ call junk args G, Equivalent F (computeCFG F) call junk args G :=
    ⟨hstart, .refl _, inRange_computeCFG hF, fun _ => equivalent_computeCFG⟩
  split at h
  · cases h
    exact hinit
  · obtain ⟨dom, hdom, h⟩ := Outcome.bind_eq_ok.mp h
    have hwired := wired_computeCFG hid hentry
    refine visitEdges_rule (P := fun F₁ => P F₁ ∧ SameFlow (computeCFG F) F₁ ∧ F₁.InRange ∧
        ∀ call junk args G, Equivalent F F₁ call junk args G) ?_ hinit (hgood dom hdom) h
    rintro F₁ u v L pre ⟨hP, hflow, hrange, hequiv⟩ he huv hloop hpre hok
    have hdom₁ : computeDom F₁ n = .ok dom := by
      unfold computeDom
      rw [funext hflow.preds, hflow.length]
      exact hdom
    have hu : v ∈ succsOf (F₁.blockAt u) := hflow.succsOf u ▸ IRFunc.mem_edges.mp he
    have hL := isLoop_of_preheader (hwired.of_sameFlow hflow) hdom₁ hu
      (hrange.succs_lt u v hu) huv hloop hpre
    obtain ⟨hP', hflow', hrange', hequiv'⟩ := hpass F₁ L pre v hP hrange hL hok
    exact ⟨hP', hflow.trans hflow', hrange', fun call junk args G =>
      (hequiv call junk args G).trans (hequiv' call junk args G)⟩

/-- **Loop-invariant code motion ends, and preserves the meaning of a function** where the
loops it comes to are safe: in any number of turns of the loops, the function returns the same
and makes the same calls and stores. -/
theorem licm_equivalent (hF : F.InRange)
    (hid : F.blocks.map (·.id) = List.range F.blocks.length)
    (hentry : predsOf F.blocks 0 = []) :
    (∃ n F', licm F n = .ok F') ∧
      ∀ n F', licm F n = .ok F' → LicmSafe F n → ∀ call junk args G,
        Equivalent F F' call junk args G := by
  refine ⟨overLoops_total (fun _ _ _ => sameFlow_licmLoop) hid hentry hF.succs_lt, ?_⟩
  intro n F' h hsafe call junk args G
  refine (overLoops_rule (P := fun _ => True) hF hid hentry trivial ?_ hsafe h).2.2.2
    call junk args G
  intro F₁ L pre v _ hrange hL hgood
  exact ⟨trivial, sameFlow_licmLoop, inRange_licmLoop hrange, fun call junk args G =>
    (hoisted_licmLoop hgood hL).equivalent hrange hL hgood.canMove junk args G⟩

end Function

/-! ## A loop with an invariant instruction, and one with none -/

/-- `int f(int n) { int k = 7; while (n > 0) { int y = k * k; n = n - y; } return n; }`. -/
def squareFunc : IRFunc where
  numParams := 1
  paramRegs := [0]
  numVregs := 5
  blocks := [
    { id := 0, insts := [{ op := .Mv, dst := some 1, a := .imm 7 }], term := .Jmp, succ0 := 1 },
    { id := 1, insts := [{ op := .Gt, dst := some 2, a := .reg 0, b := .imm 0 }], term := .Br,
      cond := .reg 2, succ0 := 2, succ1 := 3 },
    { id := 2, insts := [{ op := .Mul, dst := some 3, a := .reg 1, b := .reg 1 },
        { op := .Sub, dst := some 4, a := .reg 0, b := .reg 3 },
        { op := .Mv, dst := some 0, a := .reg 4 }], term := .Jmp, succ0 := 1 },
    { id := 3, term := .Ret, retHasVal := true, retVal := .reg 0 }]

/-- Its only loop is safe: the pass moves the product, whose result is read in the loop alone. -/
theorem loopSafe_squareFunc : LoopSafe (computeCFG squareFunc) {2, 1} 0 1 := by
  have hinv : invariants (definedOutside (computeCFG squareFunc) {2, 1})
      (loopInsts {2, 1} (computeCFG squareFunc).blocks.zipIdx) =
        [{ op := .Mul, dst := some 3, a := .reg 1, b := .reg 1 }] := by decide
  have hvar : variants (definedOutside (computeCFG squareFunc) {2, 1})
      (loopInsts {2, 1} (computeCFG squareFunc).blocks.zipIdx) =
        [{ op := .Gt, dst := some 2, a := .reg 0, b := .imm 0 },
          { op := .Sub, dst := some 4, a := .reg 0, b := .reg 3 },
          { op := .Mv, dst := some 0, a := .reg 4 }] := by decide
  constructor
  · rw [hinv]
    intro m hm x hx
    cases List.mem_singleton.mp hm
    cases hx
    decide
  · rw [hinv]
    exact List.pairwise_singleton _ _
  · rw [hinv, hvar]
    intro inst hi m hm x hx
    cases List.mem_singleton.mp hm
    simp only [List.mem_cons, List.not_mem_nil, or_false] at hi
    rcases hi with rfl | rfl | rfl <;> cases hx <;> decide
  · rw [hinv]
    intro m hm x hx hlive
    cases List.mem_singleton.mp hm
    cases hx
    have := hlive.mem_bound (fun _ => [0, 1, 2]) (by decide) (by decide)
    revert this
    decide

theorem licmSafe_squareFunc : LicmSafe squareFunc 9 := by
  intro dom hdom
  have hdoms : ∃ dom, computeDom (computeCFG squareFunc) 9 = .ok dom ∧
      1 ∉ dom 0 ∧ 2 ∉ dom 1 ∧ 3 ∉ dom 1 := by decide
  obtain ⟨dom', hdom', h₁, h₂, h₃⟩ := hdoms
  obtain rfl : dom = dom' := Outcome.ok.inj (hdom.symm.trans hdom')
  have hskip : ∀ u v edges, v ∉ dom u →
      EachLoop LoopSafe licmLoop dom 9 edges (computeCFG squareFunc) →
      EachLoop LoopSafe licmLoop dom 9 ((u, v) :: edges) (computeCFG squareFunc) := by
    intro u v edges huv h
    refine ⟨fun _ _ hmem => absurd hmem huv, fun F' hF' => ?_⟩
    unfold visitEdge at hF'
    rw [if_neg huv] at hF'
    cases hF'
    exact h
  refine hskip 0 1 _ h₁ (hskip 1 2 _ h₂ (hskip 1 3 _ h₃
    ⟨fun L pre _ hL hpre => ?_, fun _ _ => trivial⟩))
  have hloop : loopOf (computeCFG squareFunc) 2 1 9 = .ok {2, 1} := rfl
  cases hL.symm.trans hloop
  have hpre' : preheader (computeCFG squareFunc) {2, 1} 1 = some 0 := by decide
  cases hpre.symm.trans hpre'
  exact loopSafe_squareFunc

theorem licm_squareFunc : ∃ F', licm squareFunc 9 = .ok F' ∧
    (F'.blockAt 0).insts.length = 2 ∧
    Equivalent squareFunc F' (fun _ => .stuck) (fun _ => 0) [100] fun _ => 0 :=
  ⟨_, rfl, rfl, (licm_equivalent ⟨by decide, by decide, by decide, by decide⟩ (by decide)
    (by decide)).2 9 _ rfl licmSafe_squareFunc _ _ _ _⟩

/-- `int f(int n) { int i = 0; while (i < n) i = i + 1; return i; }`: the pass moves the
addition and the assignment to the front of the loop. -/
def countFunc : IRFunc where
  numParams := 1
  paramRegs := [0]
  numVregs := 4
  blocks := [
    { id := 0, insts := [{ op := .Mv, dst := some 1, a := .imm 0 }], term := .Jmp, succ0 := 1 },
    { id := 1, insts := [{ op := .Lt, dst := some 2, a := .reg 1, b := .reg 0 }], term := .Br,
      cond := .reg 2, succ0 := 2, succ1 := 3 },
    { id := 2, insts := [{ op := .Add, dst := some 3, a := .reg 1, b := .imm 1 },
        { op := .Mv, dst := some 1, a := .reg 3 }], term := .Jmp, succ0 := 1 },
    { id := 3, term := .Ret, retHasVal := true, retVal := .reg 1 }]

/-- So it returns 1 instead of 0. -/
theorem licm_countFunc :
    countFunc.ReadsWritten ∧ predsOf countFunc.blocks 0 = [] ∧
      countFunc.run (fun _ => .stuck) (fun _ => 0) 9 [0] (fun _ => 0) = .ok (some 0, fun _ => 0) ∧
      ∃ F', licm countFunc 9 = .ok F' ∧
        F'.run (fun _ => .stuck) (fun _ => 0) 9 [0] (fun _ => 0) = .ok (some 1, fun _ => 0) :=
  ⟨IRFunc.readsWritten_of_bound (fun b => if b = 1 then [0, 1, 2] else [0, 1]) (by decide)
    (by decide) (by decide), by decide, rfl, _, rfl, rfl⟩

end ToyC
