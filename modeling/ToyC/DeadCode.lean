import ToyC.Hoisting

/-!
# Dead code elimination

A value that nothing reads need not be computed. The pass counts how often each vreg is read in
the whole function – by operands, arguments, conditions, returned values and by the hint for the
code generator – and drops the instructions whose result is not read at all; calls and stores of
globals stay. What was dropped read vregs too, so the pass counts again until there is nothing to
drop.

In the end the instructions that are gone are exactly those whose result is not read in what is
left, and the function does what it did (`deadCodeElim_correct`). Nothing is asked of the function:
a vreg that is read before it is written has some value or other, in both runs the same.
-/

namespace ToyC

open Machine

/-- **What a function reads**: an entry for each place that reads a vreg. -/
def IRFunc.reads (F : IRFunc) : List Nat :=
  F.blocks.flatMap fun bb => bb.insts.flatMap Inst.uses ++ bb.termUses

/-- Whether an instruction does more than to compute a value. -/
def sideEffect (inst : Inst) : Bool := inst.op = .Call || inst.op = .StoreGlobal

/-- Whether an instruction is dropped when these are the vregs that are read. -/
def isDead (reads : List Nat) (inst : Inst) : Bool :=
  !sideEffect inst && match inst.dst with
    | some d => reads.count d == 0
    | none => false

/-- Keep some of the instructions of a function. -/
def IRFunc.keep (F : IRFunc) (p : Inst → Bool) : IRFunc :=
  { F with blocks := F.blocks.map fun bb => { bb with insts := bb.insts.filter p } }

/-- One sweep, with whether it dropped anything. -/
def deadSweep (F : IRFunc) : IRFunc × Bool :=
  (F.keep fun inst => !isDead F.reads inst, F.insts.any (isDead F.reads))

/-- **The pass**: sweeps until one drops nothing. -/
def deadCodeElim (F : IRFunc) (n : Nat) : Outcome IRFunc :=
  Outcome.loop (fun _ F =>
    let (F', changed) := deadSweep F
    .ok (if changed then .inl F' else .inr F')) n F

/-! ## Dropping instructions -/

theorem isDead_iff {reads : List Nat} {inst : Inst} :
    isDead reads inst = true ↔ sideEffect inst = false ∧ ∃ d, inst.dst = some d ∧ d ∉ reads := by
  unfold isDead
  rw [Bool.and_eq_true, Bool.not_eq_true']
  refine and_congr_right fun _ => ?_
  cases hd : inst.dst with
  | none => simp
  | some d => simp [List.count_eq_zero]

/-- What is dead stays dead when less is read. -/
theorem isDead_mono {reads reads' : List Nat} (h : reads' ⊆ reads) {inst : Inst}
    (hdead : isDead reads inst = true) : isDead reads' inst = true := by
  obtain ⟨hside, d, hd, hnot⟩ := isDead_iff.mp hdead
  exact isDead_iff.mpr ⟨hside, d, hd, fun hmem => hnot (h hmem)⟩

section Keep

variable {F : IRFunc} {p : Inst → Bool}

theorem IRFunc.blockAt_keep (b : Nat) :
    (F.keep p).blockAt b = { F.blockAt b with insts := (F.blockAt b).insts.filter p } :=
  IRFunc.blockAt_map rfl b

theorem IRFunc.sameFlow_keep : SameFlow F (F.keep p) where
  params := rfl
  length := List.length_map _
  blocks b := by rw [blockAt_keep]

theorem IRFunc.keep_keep (q : Inst → Bool) :
    (F.keep p).keep q = F.keep fun inst => p inst && q inst := by
  unfold IRFunc.keep
  rw [List.map_map]
  congr 2
  funext bb
  simp only [Function.comp_apply, List.filter_filter]
  congr 2
  funext inst
  exact Bool.and_comm _ _

theorem IRFunc.insts_keep : (F.keep p).insts = F.insts.filter p := by
  unfold IRFunc.insts IRFunc.keep
  rw [List.flatMap_map, List.filter_flatMap]

/-- **Less is read.** -/
theorem IRFunc.reads_keep : (F.keep p).reads ⊆ F.reads := by
  unfold IRFunc.reads IRFunc.keep
  rw [List.flatMap_map]
  intro r hr
  obtain ⟨bb, hbb, hr⟩ := List.mem_flatMap.mp hr
  refine List.mem_flatMap.mpr ⟨bb, hbb, ?_⟩
  rcases List.mem_append.mp hr with hr | hr
  · obtain ⟨inst, hi, hr⟩ := List.mem_flatMap.mp hr
    exact List.mem_append_left _ (List.mem_flatMap.mpr ⟨inst, List.mem_of_mem_filter hi, hr⟩)
  · exact List.mem_append_right _ hr

end Keep

/-- Whoever is read by an instruction of the function is read. -/
theorem IRFunc.uses_subset_reads {F : IRFunc} {bb : BasicBlock} (hbb : bb ∈ F.blocks) {inst : Inst}
    (hi : inst ∈ bb.insts) : inst.uses ⊆ F.reads := fun _ hr =>
  List.mem_flatMap.mpr ⟨bb, hbb, List.mem_append_left _ (List.mem_flatMap.mpr ⟨inst, hi, hr⟩)⟩

theorem IRFunc.termUses_subset_reads {F : IRFunc} {bb : BasicBlock} (hbb : bb ∈ F.blocks) :
    bb.termUses ⊆ F.reads := fun _ hr =>
  List.mem_flatMap.mpr ⟨bb, hbb, List.mem_append_right _ hr⟩

/-! ## What a sweep preserves -/

/-- A dead instruction computes a value, and that is all. -/
theorem Inst.exec_of_dead {reads : List Nat} {inst : Inst} (h : isDead reads inst = true)
    (call : Callee) (R : Regs) (G : Globals) :
    ∃ R', inst.exec call R G = .ok (R', G) ∧ (∀ r ∈ reads, R' r = R r) ∧ inst.event R = none := by
  obtain ⟨hside, d, hd, hnot⟩ := isDead_iff.mp h
  have hwrite : ∀ w, ∀ r ∈ reads, R.write inst.dst w r = R r := by
    intro w r hr
    rw [hd, Regs.write_some]
    exact R.set_of_ne w fun hrd => hnot (hrd ▸ hr)
  unfold sideEffect at hside
  unfold Inst.exec Inst.event
  cases hop : inst.op with
  | Call | StoreGlobal =>
    rw [hop] at hside
    cases hside
  | _ => exact ⟨_, rfl, hwrite _, rfl⟩

/-- **Points of both runs**: the second function has the same before it, but for what was dropped,
and what is read has the same values. -/
structure SweptPoint (F : IRFunc) (c c' : Config) : Prop where
  block : c'.block = c.block
  globals : c'.globals = c.globals
  rest : c'.rest = c.rest.filter fun inst => !isDead F.reads inst
  suffix : c.rest <:+ (F.blockAt c.block).insts
  regs : ∀ r ∈ F.reads, c.regs r = c'.regs r

section Sweep

variable {F : IRFunc} {call : Callee}

/-- **The simulation**: the run of the function as it was does what was dropped, and that is not
seen. -/
theorem deadSweep_stuttering :
    Stuttering (F.step call) ((deadSweep F).1.step call) Config.event Config.event
      (fun c => c.rest.length) (SweptPoint F) := by
  rintro ⟨_, rest, R, _⟩ ⟨b, _, R', G⟩ ⟨hblock, hglobals, hrest, hsuffix, hregs⟩
  dsimp only at hblock hglobals hrest hsuffix hregs
  subst hblock hglobals hrest
  have hblockAt : (deadSweep F).1.blocks[b]? =
      F.blocks[b]?.map fun bb => { bb with insts := bb.insts.filter (!isDead F.reads ·) } :=
    List.getElem?_map ..
  cases rest with
  | nil =>
    refine .inr ⟨_, .refl _, rfl, ?_⟩
    simp only [IRFunc.step, List.filter_nil, hblockAt]
    cases hb : F.blocks[b]? with
    | none => trivial
    | some bb =>
      have hbb := List.mem_of_getElem? hb
      have hflow : SameFlow F (deadSweep F).1 := IRFunc.sameFlow_keep
      simp only [Option.map_some]
      rcases IRFunc.execTerm_agree hflow.length (bb.insts.filter (!isDead F.reads ·)) (G := G)
          fun r hr => hregs r (IRFunc.termUses_subset_reads hbb hr) with
        ⟨r, hr, hr'⟩ | ⟨hr, hr'⟩ | ⟨s, -, -, hr, hr'⟩
      · rw [hr, hr']
        rfl
      · rw [hr, hr']
        trivial
      · rw [hr, hr']
        refine ⟨rfl, rfl, ?_, List.suffix_rfl, hregs⟩
        show ((deadSweep F).1.blockAt s).insts = _
        rw [deadSweep, IRFunc.blockAt_keep]
        rfl
  | cons inst rest =>
    have hmem : inst ∈ (F.blockAt b).insts := hsuffix.mem List.mem_cons_self
    have hsuffix' := (List.suffix_cons inst rest).trans hsuffix
    cases hdead : isDead F.reads inst with
    | true =>
      obtain ⟨R₁, hexec, hsame, hevent⟩ := Inst.exec_of_dead hdead call R G
      refine .inl ⟨⟨b, rest, R₁, G⟩, ?_, hevent, Nat.lt_succ_self _,
        rfl, rfl, ?_, hsuffix', fun r hr => (hsame r hr).trans (hregs r hr)⟩
      · simp only [IRFunc.step, hexec, Outcome.ok_bind]
      · rw [List.filter_cons_of_neg (by simp [hdead])]
    | false =>
      have hbb : F.blockAt b ∈ F.blocks := by
        by_cases hb : b < F.blocks.length
        · exact IRFunc.blockAt_mem hb
        · rw [IRFunc.blockAt_of_ge hb] at hmem
          cases hmem
      have huses : ∀ r ∈ inst.uses, r ∈ F.reads := fun r hr =>
        IRFunc.uses_subset_reads hbb hmem hr
      rw [List.filter_cons_of_pos (by simp [hdead])]
      refine .inr ⟨_, .refl _, Inst.event_congr fun r hr => hregs r (huses r hr), ?_⟩
      simp only [IRFunc.step]
      rcases Inst.exec_agreeOn call G huses hregs with
        ⟨R₁, R₁', G₁, hR, hR', hagree⟩ | ⟨hR, hR'⟩ | ⟨hR, hR'⟩
      · rw [hR, hR']
        exact ⟨rfl, rfl, rfl, hsuffix', hagree⟩
      · rw [hR, hR']
        trivial
      · rw [hR, hR']
        trivial

/-- **A sweep preserves the meaning of a function.** -/
theorem deadSweep_equivalent (junk : Regs) (args : List Word) (G : Globals) :
    Equivalent F (deadSweep F).1 call junk args G := by
  refine .of_stuttering rfl IRFunc.sameFlow_keep.length deadSweep_stuttering ?_
  refine ⟨rfl, rfl, ?_, List.suffix_rfl, fun _ _ => rfl⟩
  show ((deadSweep F).1.blockAt 0).insts = _
  rw [deadSweep, IRFunc.blockAt_keep]
  rfl

end Sweep

/-! ## The sweeps end -/

/-- A sweep that drops nothing leaves the function as it is. -/
theorem deadSweep_of_not_changed {F : IRFunc} (h : (deadSweep F).2 = false) :
    (deadSweep F).1 = F := by
  have hall : ∀ inst ∈ F.insts, isDead F.reads inst = false := by
    simpa [deadSweep] using h
  have hblocks : F.blocks.map (fun bb =>
      { bb with insts := bb.insts.filter fun inst => !isDead F.reads inst }) = F.blocks := by
    refine (List.map_congr_left fun bb hbb => ?_).trans (List.map_id _)
    have hinsts : (bb.insts.filter fun inst => !isDead F.reads inst) = bb.insts := by
      refine List.filter_eq_self.mpr fun inst hi => ?_
      rw [hall inst (List.mem_flatMap.mpr ⟨bb, hbb, hi⟩)]
      rfl
    rw [hinsts]
    rfl
  exact congrArg (fun blocks => { F with blocks := blocks }) hblocks

/-- A sweep that drops something makes the function smaller. -/
theorem deadSweep_lt {F : IRFunc} (h : (deadSweep F).2 = true) :
    (deadSweep F).1.insts.length < F.insts.length := by
  obtain ⟨inst, hi, hdead⟩ := List.any_eq_true.mp h
  rw [deadSweep, IRFunc.insts_keep]
  refine List.length_filter_lt_length_iff_exists.mpr ⟨inst, hi, ?_⟩
  rw [hdead]
  exact Bool.false_ne_true

theorem deadCodeElim_total (F : IRFunc) : ∃ n F', deadCodeElim F n = .ok F' := by
  refine Outcome.loop_total (I := fun _ => True) (fun F : IRFunc => F.insts.length)
    (fun n F _ => ?_) trivial
  dsimp only
  split
  · rename_i hchanged
    exact .inr ⟨_, rfl, trivial, deadSweep_lt hchanged⟩
  · exact .inl ⟨_, rfl⟩

/-- **What the sweeps have done so far**: some instructions are gone, all of them dead in what is
left, and the function does what it did. -/
structure SweptTo (F F' : IRFunc) : Prop where
  kept : ∃ p, F' = F.keep p ∧ ∀ inst, p inst = false → isDead F'.reads inst = true
  equivalent : ∀ call junk args G, Equivalent F F' call junk args G

theorem SweptTo.refl (F : IRFunc) : SweptTo F F where
  kept := by
    refine ⟨fun _ => true, ?_, fun _ h => absurd h Bool.false_ne_true.symm⟩
    simp [IRFunc.keep]
  equivalent _ _ _ _ := .refl F

theorem SweptTo.sweep {F F₁ : IRFunc} (h : SweptTo F F₁) : SweptTo F (deadSweep F₁).1 where
  kept := by
    obtain ⟨p, hF₁, hdead⟩ := h.kept
    have hmono : ∀ {inst}, isDead F₁.reads inst = true →
        isDead (deadSweep F₁).1.reads inst = true := isDead_mono IRFunc.reads_keep
    refine ⟨fun inst => p inst && !isDead F₁.reads inst, ?_, fun inst hinst => ?_⟩
    · rw [← IRFunc.keep_keep, ← hF₁]
      rfl
    · rcases Bool.and_eq_false_iff.mp hinst with hp | hnow
      · exact hmono (hdead inst hp)
      · exact hmono (by simpa using hnow)
  equivalent call junk args G :=
    (h.equivalent call junk args G).trans (deadSweep_equivalent junk args G)

/-- Where the sweeps end, nothing that is left is dead. -/
theorem deadCodeElim_swept {F F' : IRFunc} {n : Nat} (h : deadCodeElim F n = .ok F') :
    SweptTo F F' ∧ ∀ inst ∈ F'.insts, isDead F'.reads inst = false := by
  refine Outcome.loop_invariant (I := SweptTo F)
    (Q := fun F' => SweptTo F F' ∧ ∀ inst ∈ F'.insts, isDead F'.reads inst = false)
    ?_ ?_ (.refl F) h
  · intro n F₁ F₂ hF₁ hstep
    dsimp only at hstep
    split at hstep
    · cases hstep
      exact hF₁.sweep
    · cases hstep
  · intro n F₁ F₂ hF₁ hstep
    dsimp only at hstep
    split at hstep
    · cases hstep
    · rename_i hchanged
      have hsame := deadSweep_of_not_changed (Bool.eq_false_iff.mpr hchanged)
      cases hstep
      rw [hsame]
      refine ⟨hF₁, ?_⟩
      simpa [deadSweep] using hchanged

/-- **Dead code elimination is sound and complete**: it ends; the function returns what it did,
with the same calls and stores of globals; what it drops is neither a call nor a store of a global
and has a result that is not read any more; and of the rest every result is read. -/
theorem deadCodeElim_correct (F : IRFunc) :
    (∃ n F', deadCodeElim F n = .ok F') ∧
      ∀ n F', deadCodeElim F n = .ok F' →
        (∀ call junk args G, Equivalent F F' call junk args G) ∧
        ∃ kept, F' = F.keep kept ∧
          (∀ inst ∈ F.insts, kept inst = false →
            sideEffect inst = false ∧ ∃ d, inst.dst = some d ∧ d ∉ F'.reads) ∧
          ∀ inst ∈ F'.insts, sideEffect inst = false → ∀ d ∈ inst.dst, d ∈ F'.reads := by
  refine ⟨deadCodeElim_total F, fun n F' h => ?_⟩
  obtain ⟨hswept, hall⟩ := deadCodeElim_swept h
  obtain ⟨kept, hF', hdead⟩ := hswept.kept
  refine ⟨hswept.equivalent, kept, hF', fun inst _ hk => isDead_iff.mp (hdead inst hk), ?_⟩
  intro inst hi hside d hd
  by_contra hnot
  have htrue := isDead_iff.mpr ⟨hside, d, hd, hnot⟩
  exact Bool.false_ne_true ((hall inst hi).symm.trans htrue)

end ToyC
