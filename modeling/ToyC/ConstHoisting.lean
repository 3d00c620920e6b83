import ToyC.Licm
import ToyC.UnsignedDiv

/-!
# Constants in front of a loop

Three passes load constants in the preheader of a loop: the bounds the loop compares with, its
divisors, and the magic numbers of its divisions. They keep a table of the constants they have
loaded, with the vreg of each, and change the instructions of the loop to use these vregs. What
they do to an instruction is a parameter here (`hoistLoop`).

All the vregs are new, so nothing else writes them, and each is written in front of the loop.
This is what makes its value known in the whole loop (`HoldsIn`): in any run, it is the constant
(`HoldsIn.regs`). And so the function does the same as before (`ConstsLoaded.equivalent`).
-/

namespace ToyC

/-! ## The passes -/

/-- The instruction that loads a constant. -/
def constMv (r : Nat) (c : Word) : Inst := { op := .Mv, dst := some r, a := .imm c }

/-- **What a pass has loaded in front of a loop**: the vreg of each key, the instructions that
load them, and the number of vregs of the function now. -/
structure Hoist (κ : Type) where
  regs : List (κ × Nat) := []
  moved : List Inst := []
  numVregs : Nat

/-- How a pass changes an instruction of a loop. -/
abbrev HoistStep (κ : Type) := Hoist κ → Inst → Inst × Hoist κ

section Pass

variable {κ : Type}

/-- **The vreg of a constant**: the one it has, or a new one. -/
def Hoist.regFor [BEq κ] (s : Hoist κ) (key : κ) (c : Word) : Nat × Hoist κ :=
  match s.regs.lookup key with
  | some r => (r, s)
  | none =>
    (s.numVregs, {
      regs := (key, s.numVregs) :: s.regs
      moved := s.moved ++ [constMv s.numVregs c]
      numVregs := s.numVregs + 1 })

/-- The instructions of a block. -/
def hoistInsts (step : HoistStep κ) : Hoist κ → List Inst → List Inst × Hoist κ
  | s, [] => ([], s)
  | s, inst :: insts =>
    let (inst, s) := step s inst
    let (insts, s) := hoistInsts step s insts
    (inst :: insts, s)

/-- The blocks from a number on. -/
def hoistBlocks (step : HoistStep κ) (L : Finset Nat) :
    Nat → Hoist κ → List BasicBlock → List BasicBlock × Hoist κ
  | _, s, [] => ([], s)
  | b, s, bb :: bbs =>
    if b ∈ L then
      let (insts, s) := hoistInsts step s bb.insts
      let (bbs, s) := hoistBlocks step L (b + 1) s bbs
      ({ bb with insts } :: bbs, s)
    else
      let (bbs, s) := hoistBlocks step L (b + 1) s bbs
      (bb :: bbs, s)

/-- **A loop with its preheader.** -/
def hoistLoop (step : HoistStep κ) : LoopPass := fun F L pre =>
  let (blocks, s) := hoistBlocks step L 0 { numVregs := F.numVregs } F.blocks
  { F with
    blocks := blocks.modify pre fun bb => { bb with insts := bb.insts ++ s.moved }
    numVregs := s.numVregs }

end Pass

/-! ## The table -/

/-- The loads of some constants in consecutive vregs. -/
def constMvs (nv : Nat) (cs : List Word) : List Inst := cs.mapIdx fun i c => constMv (nv + i) c

theorem mem_constMvs {nv : Nat} {cs : List Word} {m : Inst} :
    m ∈ constMvs nv cs ↔ ∃ i, ∃ h : i < cs.length, m = constMv (nv + i) cs[i] := by
  unfold constMvs
  rw [List.mem_mapIdx]
  exact exists_congr fun i => exists_congr fun h => eq_comm

theorem constMvs_concat (nv : Nat) (cs : List Word) (c : Word) :
    constMvs nv (cs ++ [c]) = constMvs nv cs ++ [constMv (nv + cs.length) c] := by
  unfold constMvs
  rw [List.mapIdx_concat]

/-- The vreg of a constant is new. -/
theorem dst_of_mem_constMvs {nv : Nat} {cs : List Word} {m : Inst} (h : m ∈ constMvs nv cs) :
    ∃ r c, m = constMv r c ∧ nv ≤ r ∧ r < nv + cs.length := by
  obtain ⟨i, hi, rfl⟩ := mem_constMvs.mp h
  exact ⟨nv + i, cs[i], rfl, Nat.le_add_right nv i, Nat.add_lt_add_left hi nv⟩

/-- No two constants have the same vreg. -/
theorem eq_of_mem_constMvs {nv : Nat} {cs : List Word} {m m' : Inst} (h : m ∈ constMvs nv cs)
    (h' : m' ∈ constMvs nv cs) (hdst : m.dst = m'.dst) : m = m' := by
  obtain ⟨i, hi, rfl⟩ := mem_constMvs.mp h
  obtain ⟨j, hj, rfl⟩ := mem_constMvs.mp h'
  obtain rfl : i = j := Nat.add_left_cancel (Option.some.inj hdst)
  rfl

/-- **The table is right**: the vregs are new, and each is loaded with the constant of its key. -/
structure Hoist.Ok {κ : Type} (value : κ → Word) (nv : Nat) (s : Hoist κ) : Prop where
  regs : ∀ p ∈ s.regs, constMv p.2 (value p.1) ∈ s.moved
  moved : ∃ cs, s.moved = constMvs nv cs ∧ s.numVregs = nv + cs.length

section Table

variable {κ : Type} {value : κ → Word} {nv : Nat} {s : Hoist κ}

theorem Hoist.Ok.start (value : κ → Word) (nv : Nat) : Hoist.Ok value nv { numVregs := nv } :=
  ⟨fun _ h => (by cases h), ⟨[], rfl, rfl⟩⟩

/-- **The vreg of a constant is loaded with it.** -/
theorem Hoist.Ok.regFor [BEq κ] [LawfulBEq κ] (h : s.Ok value nv) (key : κ) :
    (s.regFor key (value key)).2.Ok value nv ∧ s.moved ⊆ (s.regFor key (value key)).2.moved ∧
      constMv (s.regFor key (value key)).1 (value key) ∈ (s.regFor key (value key)).2.moved := by
  unfold Hoist.regFor
  cases hlook : s.regs.lookup key with
  | some r =>
    obtain ⟨l₁, l₂, hl, -⟩ := List.lookup_eq_some_iff.mp hlook
    exact ⟨h, List.Subset.refl _, h.regs (key, r) (hl ▸ List.mem_append_right _ List.mem_cons_self)⟩
  | none =>
    obtain ⟨cs, hcs, hnv⟩ := h.moved
    have hnew : constMv s.numVregs (value key) ∈ s.moved ++ [constMv s.numVregs (value key)] :=
      List.mem_append_right _ (List.mem_singleton_self _)
    refine ⟨⟨fun p hp => ?_, ⟨cs ++ [value key], ?_, ?_⟩⟩, List.subset_append_left _ _, hnew⟩
    · rcases List.mem_cons.mp hp with rfl | hp
      · exact hnew
      · exact List.mem_append_left _ (h.regs p hp)
    · rw [constMvs_concat, ← hcs, ← hnv]
    · simp only [List.length_append, List.length_singleton]
      omega

/-- **What a pass makes of an instruction** is right, for what it has loaded. -/
def HoistStep.Sound (step : HoistStep κ) (value : κ → Word)
    (rel : List Inst → Inst → Inst → Prop) : Prop :=
  ∀ nv s inst, s.Ok value nv → (step s inst).2.Ok value nv ∧
    s.moved ⊆ (step s inst).2.moved ∧ rel (step s inst).2.moved inst (step s inst).1

variable {step : HoistStep κ} {rel : List Inst → Inst → Inst → Prop}

/-- What it makes of the instructions of a block. -/
theorem hoistInsts_sound (hstep : step.Sound value rel)
    (hmono : ∀ M M' inst inst', M ⊆ M' → rel M inst inst' → rel M' inst inst')
    (insts : List Inst) (h : s.Ok value nv) :
    (hoistInsts step s insts).2.Ok value nv ∧ s.moved ⊆ (hoistInsts step s insts).2.moved ∧
      List.Forall₂ (rel (hoistInsts step s insts).2.moved) insts (hoistInsts step s insts).1 := by
  induction insts generalizing s with
  | nil => exact ⟨h, List.Subset.refl _, .nil⟩
  | cons inst insts ih =>
    obtain ⟨hok, hsub, hrel⟩ := hstep nv s inst h
    obtain ⟨hok', hsub', hrels⟩ := ih hok
    exact ⟨hok', List.Subset.trans hsub hsub', .cons (hmono _ _ _ _ hsub' hrel) hrels⟩

/-- **What it makes of the blocks.** -/
theorem hoistBlocks_sound (hstep : step.Sound value rel)
    (hmono : ∀ M M' inst inst', M ⊆ M' → rel M inst inst' → rel M' inst inst') (L : Finset Nat)
    (b : Nat) (bbs : List BasicBlock) (h : s.Ok value nv) :
    let r := hoistBlocks step L b s bbs
    r.2.Ok value nv ∧ s.moved ⊆ r.2.moved ∧ r.1.length = bbs.length ∧
      ∀ k, r.1.getD k {} = { bbs.getD k {} with insts := (r.1.getD k {}).insts } ∧
        (b + k ∉ L → (r.1.getD k {}).insts = (bbs.getD k {}).insts) ∧
        (b + k ∈ L → List.Forall₂ (rel r.2.moved) (bbs.getD k {}).insts
          (r.1.getD k {}).insts) := by
  induction bbs generalizing b s with
  | nil => exact ⟨h, List.Subset.refl _, rfl, fun k => ⟨rfl, fun _ => rfl, fun _ => .nil⟩⟩
  | cons bb bbs ih =>
    unfold hoistBlocks
    by_cases hb : b ∈ L
    · obtain ⟨hok, hsub, hrel⟩ := hoistInsts_sound hstep hmono bb.insts h
      obtain ⟨hok', hsub', hlen, hat⟩ := ih (b + 1) hok
      simp only [if_pos hb]
      refine ⟨hok', List.Subset.trans hsub hsub', congrArg (· + 1) hlen, fun k => ?_⟩
      cases k with
      | zero =>
        exact ⟨rfl, fun hnot => absurd hb hnot, fun _ => hrel.imp fun _ _ => hmono _ _ _ _ hsub'⟩
      | succ k =>
        have := hat k
        rwa [Nat.add_right_comm] at this
    · obtain ⟨hok', hsub', hlen, hat⟩ := ih (b + 1) h
      simp only [if_neg hb]
      refine ⟨hok', hsub', congrArg (· + 1) hlen, fun k => ?_⟩
      cases k with
      | zero => exact ⟨rfl, fun _ => rfl, fun hin => absurd hin hb⟩
      | succ k =>
        have := hat k
        rwa [Nat.add_right_comm] at this

end Table

/-! ## A loop -/

/-- **A function with constants loaded in front of a loop**, which the instructions of the loop
may use. -/
structure ConstsLoaded (rel : List Inst → Inst → Inst → Prop) (F F' : IRFunc) (L : Finset Nat)
    (pre : Nat) (cs : List Word) : Prop where
  flow : SameFlow F F'
  numVregs : F'.numVregs = F.numVregs + cs.length
  loop : ∀ b ∈ L, List.Forall₂ (rel (constMvs F.numVregs cs)) (F.blockAt b).insts
    (F'.blockAt b).insts
  preheader : (F'.blockAt pre).insts = (F.blockAt pre).insts ++ constMvs F.numVregs cs
  others : ∀ b ∉ L, b ≠ pre → (F'.blockAt b).insts = (F.blockAt b).insts

section Loop

variable {κ : Type} {value : κ → Word} {step : HoistStep κ}
  {rel : List Inst → Inst → Inst → Prop} {F F' : IRFunc} {L : Finset Nat} {pre v : Nat}

theorem blockAt_hoistLoop (hlen : (hoistBlocks step L 0 { numVregs := F.numVregs }
      F.blocks).1.length = F.blocks.length) (b : Nat) :
    (hoistLoop step F L pre).blockAt b =
      let r := hoistBlocks step L 0 { numVregs := F.numVregs } F.blocks
      let bb := r.1.getD b {}
      if b = pre ∧ b < F.blocks.length then { bb with insts := bb.insts ++ r.2.moved }
      else bb := by
  unfold hoistLoop IRFunc.blockAt
  simp only [List.getD_eq_getElem?_getD, List.getElem?_modify]
  by_cases hb : b < F.blocks.length
  · rw [List.getElem?_eq_getElem (hlen ▸ hb)]
    by_cases hpre : b = pre
    · simp [hpre.symm, hb]
    · simp [Ne.symm hpre, hpre]
  · rw [List.getElem?_eq_none (hlen ▸ Nat.le_of_not_lt hb)]
    simp [hb]

theorem sameFlow_hoistLoop (hstep : step.Sound value rel)
    (hmono : ∀ M M' inst inst', M ⊆ M' → rel M inst inst' → rel M' inst inst') :
    SameFlow F (hoistLoop step F L pre) := by
  obtain ⟨-, -, hlen, hat⟩ := hoistBlocks_sound hstep hmono L 0 F.blocks
    (Hoist.Ok.start value F.numVregs)
  refine ⟨rfl, by simp [hoistLoop, hlen], fun b => ?_⟩
  rw [blockAt_hoistLoop hlen]
  dsimp only
  split
  · rw [(hat b).1]
    rfl
  · exact (hat b).1

/-- **What a pass does to a loop.** -/
theorem hoistLoop_loaded (hstep : step.Sound value rel)
    (hmono : ∀ M M' inst inst', M ⊆ M' → rel M inst inst' → rel M' inst inst')
    (hL : IsLoop F L pre v) : ∃ cs, ConstsLoaded rel F (hoistLoop step F L pre) L pre cs := by
  obtain ⟨hok, -, hlen, hat⟩ := hoistBlocks_sound hstep hmono L 0 F.blocks
    (Hoist.Ok.start value F.numVregs)
  obtain ⟨cs, hcs, hnv⟩ := hok.moved
  have hblock := fun b => @blockAt_hoistLoop _ step F L pre hlen b
  have hzero : ∀ b, 0 + b = b := Nat.zero_add
  rw [hcs] at hat
  refine ⟨cs, sameFlow_hoistLoop hstep hmono, hnv, fun b hb => ?_, ?_, fun b hb hpre => ?_⟩
  · have hne : ¬ (b = pre ∧ b < F.blocks.length) := fun hpre => hL.outside (hpre.1 ▸ hb)
    rw [hblock]
    simp only [if_neg hne]
    exact (hat b).2.2 ((hzero b).symm ▸ hb)
  · rw [hblock]
    simp only [hL.pre_lt, and_self, if_true, hcs]
    rw [(hat pre).2.1 ((hzero pre).symm ▸ hL.outside)]
    rfl
  · rw [hblock]
    simp only [if_neg (show ¬ (b = pre ∧ b < F.blocks.length) from fun h => hpre h.1)]
    exact (hat b).2.1 ((hzero b).symm ▸ hb)

/-- **What may become of an instruction of the loop**: it is in range, does the same when the
constants are loaded, and is left alone if it loads a constant itself. -/
structure HoistRel (rel : List Inst → Inst → Inst → Prop) : Prop where
  mono : ∀ M M' inst inst', M ⊆ M' → rel M inst inst' → rel M' inst inst'
  range : ∀ nv cs inst inst', inst.InRange nv → rel (constMvs nv cs) inst inst' →
    inst'.InRange (nv + cs.length)
  stands : ∀ nv cs inst inst', inst.InRange nv → rel (constMvs nv cs) inst inst' →
    StandsFor (constMvs nv cs) inst inst'
  const : ∀ M r c inst', rel M (constMv r c) inst' → inst' = constMv r c

variable {cs : List Word}

theorem constMv_movable (r : Nat) (c : Word) : (constMv r c).movable = true := rfl

theorem Inst.Settled.const {r : Nat} {c : Word} {R : Regs} (h : (constMv r c).Settled R) :
    R r = c := by
  have := h (fun _ => .stuck) fun _ => 0
  unfold Inst.exec constMv at this
  have hset : R.set r c = R := congrArg Prod.fst (Outcome.ok.inj this)
  rw [← hset]
  exact R.set_same r c

/-- **Constants can be loaded in front of a loop**, in new vregs. -/
theorem canMove_constMvs (hF : F.InRange) (hv : v < F.blocks.length) :
    CanMove F (constMvs F.numVregs cs) v where
  movable m hm := by
    obtain ⟨r, c, rfl, -⟩ := dst_of_mem_constMvs hm
    exact constMv_movable r c
  self m hm x _ hx := by
    obtain ⟨r, c, rfl, -⟩ := dst_of_mem_constMvs hm
    cases hx
  ordered := by
    unfold constMvs
    rw [List.pairwise_iff_getElem]
    intro i j hi hj hij x hx
    rw [List.getElem_mapIdx] at hx ⊢
    cases hx
    refine ⟨fun h => ?_, fun h => by cases h⟩
    have := Option.some.inj h
    omega
  dead m hm x hx hlive := by
    obtain ⟨r, c, rfl, hr, -⟩ := dst_of_mem_constMvs hm
    cases hx
    exact absurd (hlive.lt hF hv fun _ hi => hi) (Nat.not_lt_of_le hr)

namespace ConstsLoaded

/-- Where the instructions of a block come from. -/
theorem mem_insts (h : ConstsLoaded rel F F' L pre cs) {b : Nat} {inst' : Inst}
    (hi : inst' ∈ (F'.blockAt b).insts) :
    inst' ∈ (F.blockAt b).insts ∨ inst' ∈ constMvs F.numVregs cs ∨
      b ∈ L ∧ ∃ inst ∈ (F.blockAt b).insts, rel (constMvs F.numVregs cs) inst inst' := by
  by_cases hb : b ∈ L
  · exact .inr (.inr ⟨hb, exists_of_forall₂ (h.loop b hb) hi⟩)
  · by_cases hpre : b = pre
    · rw [hpre, h.preheader] at hi
      rw [hpre]
      exact (List.mem_append.mp hi).imp id .inl
    · rw [h.others b hb hpre] at hi
      exact .inl hi

theorem hoisted (h : ConstsLoaded rel F F' L pre cs) (hrel : HoistRel rel) (hF : F.InRange) :
    Hoisted F F' L pre (constMvs F.numVregs cs) where
  flow := h.flow
  loop b hb := by
    have hin : ∀ inst ∈ (F.blockAt b).insts, inst.InRange F.numVregs := fun _ => hF.inst_inRange
    have hstands : ∀ {insts insts' : List Inst}, (∀ inst ∈ insts, inst.InRange F.numVregs) →
        List.Forall₂ (rel (constMvs F.numVregs cs)) insts insts' →
        Moved (constMvs F.numVregs cs) insts insts' := by
      intro insts insts' hin hall
      induction hall with
      | nil => exact .nil
      | cons hr _ ih =>
        exact .keep (hrel.stands _ _ _ _ (hin _ List.mem_cons_self) hr)
          (ih fun inst hi => hin inst (List.mem_cons_of_mem _ hi))
    exact hstands hin (h.loop b hb)
  preheader := h.preheader
  others := h.others

/-- **The function does the same.** -/
theorem equivalent (h : ConstsLoaded rel F F' L pre cs) (hrel : HoistRel rel) (hF : F.InRange)
    (hL : IsLoop F L pre v) (call : Callee) (junk : Regs) (args : List Word) (G : Globals) :
    Equivalent F F' call junk args G := by
  have hv : v < F.blocks.length := hF.succs_lt pre v (by
    unfold succsOf
    rw [hL.jump, hL.target]
    exact List.mem_singleton_self v)
  exact (h.hoisted hrel hF).equivalent hF hL (canMove_constMvs hF hv) junk args G

theorem inRange (h : ConstsLoaded rel F F' L pre cs) (hrel : HoistRel rel) (hF : F.InRange) :
    F'.InRange := by
  have hle : F.numVregs ≤ F'.numVregs := h.numVregs ▸ Nat.le_add_right ..
  refine hF.of_sameFlow h.flow hle fun b inst' hi => ?_
  rcases h.mem_insts hi with hi | hi | ⟨-, inst, hi, hr⟩
  · exact (hF.inst_inRange hi).mono hle
  · obtain ⟨r, c, rfl, -, hr⟩ := dst_of_mem_constMvs hi
    exact ⟨fun x hx => (by cases hx), h.numVregs ▸ hr⟩
  · rw [h.numVregs]
    exact hrel.range _ _ _ _ (hF.inst_inRange hi) hr

end ConstsLoaded

end Loop

/-! ## Where a vreg holds a constant -/

/-- **A vreg that holds a constant in a block**: nothing but loads of the constant write it, and
one of them stands in front of a loop the block is in. -/
structure IRFunc.HoldsIn (F : IRFunc) (b r : Nat) (c : Word) : Prop where
  only : ∀ b', ∀ inst ∈ (F.blockAt b').insts, inst.dst = some r → inst = constMv r c
  loaded : ∃ L pre v, IsLoop F L pre v ∧ b ∈ L ∧ constMv r c ∈ (F.blockAt pre).insts

/-- **In any run, it holds the constant there.** -/
theorem IRFunc.HoldsIn.regs {F : IRFunc} {b r : Nat} {c : Word} (h : F.HoldsIn b r c)
    {call : Callee} {junk : Regs} {args : List Word} {G : Globals} {done : List Inst}
    {cfg : Config} (hran : F.Ran call (F.entry junk args G) done cfg) (hb : cfg.block = b) :
    cfg.regs r = c := by
  obtain ⟨L, pre, v, hL, hbL, hmv⟩ := h.loaded
  -- In the preheader the load may still be to come.
  have hinv : (cfg.block ∈ L → cfg.regs r = c) ∧
      (cfg.block = pre → constMv r c ∈ cfg.rest ∨ cfg.regs r = c) := by
    clear hb
    induction hran with
    | start =>
      refine ⟨fun h0 => absurd h0 hL.entry, fun h0 => .inl ?_⟩
      rw [← h0] at hmv
      exact hmv
    | @step done c₀ c' hran hs ih =>
      have hsuffix := hran.suffix
      unfold IRFunc.step at hs
      cases hrest : c₀.rest with
      | nil =>
        rw [hrest] at hs ih
        cases hblock : F.blocks[c₀.block]? with
        | none => simp [hblock] at hs
        | some bb =>
          simp only [hblock] at hs
          have hbb : F.blockAt c₀.block = bb := by simp [IRFunc.blockAt, hblock]
          obtain ⟨s, hsucc, -, rfl⟩ := IRFunc.execTerm_inl hs
          refine ⟨fun hsL => ?_, fun hspre => .inl ?_⟩
          · rcases hL.entered c₀.block s (hbb ▸ hsucc) hsL with hin | ⟨hin, -⟩
            · exact ih.1 hin
            · exact (ih.2 hin).resolve_left (List.not_mem_nil)
          · rw [← hspre] at hmv
            exact hmv
      | cons inst rest =>
        rw [hrest] at hs ih hsuffix
        obtain ⟨⟨R, G'⟩, hexec, hs⟩ := Outcome.bind_eq_ok.mp hs
        cases hs
        have hload : inst = constMv r c → R r = c := by
          rintro rfl
          cases hexec
          exact c₀.regs.set_same r c
        have hkeep : c₀.regs r = c → R r = c := by
          intro hr
          by_cases hd : inst.dst = some r
          · exact hload (h.only _ inst (hsuffix.mem List.mem_cons_self) hd)
          · rw [Inst.exec_frame hexec hd]
            exact hr
        refine ⟨fun hin => hkeep (ih.1 hin), fun hin => ?_⟩
        rcases ih.2 hin with hmem | hr
        · rcases List.mem_cons.mp hmem with heq | hmem
          · exact .inr (hload heq.symm)
          · exact .inl hmem
        · exact .inr (hkeep hr)
  exact hinv.1 (hb ▸ hbL)

/-- **The edges are the same**: two functions differ in the instructions of their blocks and in
what their terminators read. -/
structure SameEdges (F F' : IRFunc) : Prop where
  length : F'.blocks.length = F.blocks.length
  term : ∀ b, (F'.blockAt b).term = (F.blockAt b).term
  succ0 : ∀ b, (F'.blockAt b).succ0 = (F.blockAt b).succ0
  succ1 : ∀ b, (F'.blockAt b).succ1 = (F.blockAt b).succ1

theorem SameFlow.sameEdges {F F' : IRFunc} (h : SameFlow F F') : SameEdges F F' :=
  ⟨h.length, h.term, fun b => by rw [h.blocks b], fun b => by rw [h.blocks b]⟩

theorem SameEdges.succsOf {F F' : IRFunc} (h : SameEdges F F') (b : Nat) :
    succsOf (F'.blockAt b) = succsOf (F.blockAt b) := by
  unfold ToyC.succsOf
  rw [h.term, h.succ0, h.succ1]

theorem IsLoop.of_sameEdges {F F' : IRFunc} {L : Finset Nat} {pre v : Nat} (hL : IsLoop F L pre v)
    (h : SameEdges F F') : IsLoop F' L pre v where
  entry := hL.entry
  outside := hL.outside
  pre_lt := h.length ▸ hL.pre_lt
  jump := (h.term pre).trans hL.jump
  target := (h.succ0 pre).trans hL.target
  entered b s hs := hL.entered b s (h.succsOf b ▸ hs)

namespace ConstsLoaded

variable {rel : List Inst → Inst → Inst → Prop} {F F' : IRFunc} {L : Finset Nat} {pre v : Nat}
  {cs : List Word} {b r : Nat} {c : Word}

/-- A load of a constant stays. -/
theorem constMv_mem (h : ConstsLoaded rel F F' L pre cs) (hrel : HoistRel rel)
    (hi : constMv r c ∈ (F.blockAt b).insts) : constMv r c ∈ (F'.blockAt b).insts := by
  by_cases hb : b ∈ L
  · obtain ⟨inst', hi', hr⟩ := exists_of_forall₂ (h.loop b hb).flip hi
    exact hrel.const _ _ _ _ hr ▸ hi'
  · by_cases hpre : b = pre
    · rw [hpre] at hi
      rw [hpre, h.preheader]
      exact List.mem_append_left _ hi
    · rw [h.others b hb hpre]
      exact hi

/-- **A vreg that holds a constant still does.** -/
theorem holdsIn (h : ConstsLoaded rel F F' L pre cs) (hrel : HoistRel rel) (hF : F.InRange)
    (hr : F.HoldsIn b r c) : F'.HoldsIn b r c where
  only b' inst' hi hd := by
    rcases h.mem_insts hi with hi | hi | ⟨-, inst, hi, hinst⟩
    · exact hr.only b' inst' hi hd
    · obtain ⟨L₀, pre₀, v₀, -, -, hload⟩ := hr.loaded
      obtain ⟨r', c', rfl, hr', -⟩ := dst_of_mem_constMvs hi
      cases hd
      exact absurd ((hF.inst_inRange hload).dst_lt rfl) (Nat.not_lt_of_le hr')
    · obtain rfl := hr.only b' inst hi
        ((hrel.stands _ _ _ _ (hF.inst_inRange hi) hinst).dst.symm.trans hd)
      exact hrel.const _ _ _ _ hinst
  loaded := by
    obtain ⟨L₀, pre₀, v₀, hL₀, hb, hload⟩ := hr.loaded
    exact ⟨L₀, pre₀, v₀, hL₀.of_sameEdges h.flow.sameEdges, hb, h.constMv_mem hrel hload⟩

/-- **A new vreg holds its constant in the loop.** -/
theorem holdsIn_new (h : ConstsLoaded rel F F' L pre cs) (hrel : HoistRel rel) (hF : F.InRange)
    (hL : IsLoop F L pre v) (hb : b ∈ L) (hmem : constMv r c ∈ constMvs F.numVregs cs) :
    F'.HoldsIn b r c where
  only b' inst' hi hd := by
    obtain ⟨r', c', heq, hr, -⟩ := dst_of_mem_constMvs hmem
    cases heq
    rcases h.mem_insts hi with hi | hi | ⟨-, inst, hi, hinst⟩
    · exact absurd ((hF.inst_inRange hi).dst_lt hd) (Nat.not_lt_of_le hr)
    · exact eq_of_mem_constMvs hi hmem hd
    · have hdst := (hrel.stands _ _ _ _ (hF.inst_inRange hi) hinst).dst
      exact absurd ((hF.inst_inRange hi).dst_lt (hdst.symm.trans hd)) (Nat.not_lt_of_le hr)
  loaded := ⟨L, pre, v, hL.of_sameEdges h.flow.sameEdges, hb, by
    rw [h.preheader]
    exact List.mem_append_right _ hmem⟩

end ConstsLoaded

/-! ## A function -/

theorem eachLoop_true {pass : LoopPass} {dom : Nat → Finset Nat} {n : Nat}
    (edges : List (Nat × Nat)) (F : IRFunc) :
    EachLoop (fun _ _ _ _ => True) pass dom n edges F := by
  induction edges generalizing F with
  | nil => trivial
  | cons e edges ih => exact ⟨fun _ _ _ _ _ => trivial, fun F' _ => ih F'⟩

section Function

variable {κ : Type} {value : κ → Word} {step : HoistStep κ}
  {rel : List Inst → Inst → Inst → Prop} {F : IRFunc}

/-- **The rule for these passes**: they end and preserve the meaning of the function, and what is
preserved when constants are loaded in front of a loop they preserve. -/
theorem hoistLoops_rule (hstep : step.Sound value rel) (hrel : HoistRel rel) (hF : F.InRange)
    (hid : F.blocks.map (·.id) = List.range F.blocks.length)
    (hentry : predsOf F.blocks 0 = []) {P : IRFunc → Prop} (hstart : P (computeCFG F))
    (hP : ∀ F₁ F₂ L pre v cs, F₁.InRange → IsLoop F₁ L pre v →
      ConstsLoaded rel F₁ F₂ L pre cs → P F₁ → P F₂) :
    (∃ n F', overLoops (hoistLoop step) F n = .ok F') ∧
      ∀ n F', overLoops (hoistLoop step) F n = .ok F' →
        P F' ∧ SameFlow (computeCFG F) F' ∧ F'.InRange ∧
          ∀ call junk args G, Equivalent F F' call junk args G := by
  refine ⟨overLoops_total (fun _ _ _ => sameFlow_hoistLoop hstep hrel.mono) hid hentry
    hF.succs_lt, fun n F' h => ?_⟩
  refine overLoops_rule hF hid hentry hstart ?_ (fun dom _ => eachLoop_true _ _) h
  intro F₁ L pre v hP₁ hrange hL _
  obtain ⟨cs, hloaded⟩ := hoistLoop_loaded hstep hrel.mono hL
  exact ⟨hP _ _ _ _ _ _ hrange hL hloaded hP₁, hloaded.flow, hloaded.inRange hrel hrange,
    fun call junk args G => hloaded.equivalent hrel hrange hL call junk args G⟩

end Function

end ToyC
