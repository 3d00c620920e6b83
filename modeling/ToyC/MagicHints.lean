import ToyC.ConstFold
import ToyC.DeadCode
import ToyC.LoopConstants
import ToyC.Peephole
import ToyC.Propagation

/-!
# The hint of a division

The magic number of a division in a loop is loaded in front of the loop, and the vreg it is in is
noted at the division, as a hint for the code generator. The passes that follow do not know of the
hint. They hoist the divisor as well, put it back when it is small, and rewrite and drop
instructions, so what the code generator finds in the end is a hint beside a divisor it may not
have been computed for.

It was computed for this one. Wherever a hint stands, its vreg holds the magic number of a constant
that either is the divisor, or is in the vreg that is the divisor (`HintRight`). All these vregs
are written by the loads of their constants alone, so a propagated constant can be no other one,
and the loads are not dropped as long as the hint reads them (`magicHints_right`).
-/

namespace ToyC

/-! ## The passes -/

/-- The magic number of a division by a constant. -/
def magicNumber (c : Word) (isUnsigned : Bool) : Word :=
  if isUnsigned then (unsignedMagic c).1 else (signedMagic c).1

/-- A division by a constant that needs a magic number, and has none yet. -/
def hintMagic : HoistStep (Word × Bool) := fun s inst =>
  match inst.b with
  | .reg _ => (inst, s)
  | .imm c =>
    if (inst.op = .Div ∨ inst.op = .Mod) ∧ needsMagic c = true ∧ inst.magicVreg = none then
      let (r, s) := s.regFor (c, inst.unsignedDiv) (magicNumber c inst.unsignedDiv)
      ({ inst with magicVreg := some r }, s)
    else (inst, s)

/-- **Hoist the magic numbers of divisions.** -/
def hoistMagicDiv (F : IRFunc) (n : Nat) : Outcome IRFunc := overLoops (hoistLoop hintMagic) F n

/-- **One round of the final clean-up**, with whether it changed anything. -/
def cleanRound (F : IRFunc) : IRFunc × Bool :=
  let (F, folded) := constFold F
  let (F, consts) := constProp F
  let (F, copies) := copyProp F
  let (F, peeped) := peephole F
  (F, folded || consts || copies || peeped)

/-- **From the marks to the clean-up**, with a number of rounds. -/
def magicPhase (rounds : Nat) (F : IRFunc) (n : Nat) : Outcome IRFunc := do
  let F ← markUnsignedDiv F n
  let F ← hoistMagicDiv F n
  let F ← hoistDivModConstants F n
  let F ← deadCodeElim F n
  deadCodeElim ((fun F => (cleanRound F).1)^[rounds] F) n

/-! ## Hints that are right -/

/-- A division or a remainder. -/
def Inst.isDivision (inst : Inst) : Prop := inst.op = .Div ∨ inst.op = .Mod

/-- **The hint of an instruction is right** in a block: its vreg holds the magic number of the
divisor there, whether the divisor is a constant or is in a vreg. -/
def HintRight (F : IRFunc) (b : Nat) (inst : Inst) : Prop :=
  inst.isDivision → ∀ m ∈ inst.magicVreg, ∃ c,
    F.HoldsIn b m (magicNumber c inst.unsignedDiv) ∧
      (inst.b = .imm c ∨ ∃ r, inst.b = .reg r ∧ F.HoldsIn b r c)

/-- So are all hints. -/
def HintsRight (F : IRFunc) : Prop := ∀ b, ∀ inst ∈ (F.blockAt b).insts, HintRight F b inst

theorem HintRight.mono {F F' : IRFunc} {b : Nat} {inst : Inst} (h : HintRight F b inst)
    (hF : ∀ r c, F.HoldsIn b r c → F'.HoldsIn b r c) : HintRight F' b inst := by
  intro hdiv m hm
  obtain ⟨c, hmagic, hb⟩ := h hdiv m hm
  exact ⟨c, hF m _ hmagic, hb.imp id fun ⟨r, hr, hc⟩ => ⟨r, hr, hF r c hc⟩⟩

theorem Inst.isDivision.isBinary {inst : Inst} (h : inst.isDivision) : isBinary inst.op = true := by
  rcases h with h | h <;> rw [h] <;> rfl

/-! ## Loading constants -/

/-- **An instruction as the pass that hoists the magic numbers may leave it.** -/
def Hinted (M : List Inst) (inst inst' : Inst) : Prop :=
  inst' = inst ∨ inst.isDivision ∧ ∃ c r, inst.b = .imm c ∧
    inst' = { inst with magicVreg := some r } ∧ LoadedBy M r (magicNumber c inst.unsignedDiv)

theorem hoistRel_hinted : HoistRel Hinted where
  mono M M' inst inst' hM h :=
    h.imp id fun ⟨hdiv, c, r, hb, heq, hr⟩ => ⟨hdiv, c, r, hb, heq, hM hr⟩
  const M r c inst' h := h.resolve_right fun ⟨hdiv, _⟩ => by rcases hdiv with h | h <;> cases h
  range nv cs inst inst' hin h := by
    rcases h with rfl | ⟨hdiv, c, r, -, rfl, hr⟩
    · exact hin.mono (Nat.le_add_right ..)
    · have hin' := hin.mono (Nat.le_add_right nv cs.length)
      obtain ⟨r', c', heq, -, hlt⟩ := dst_of_mem_constMvs hr
      cases heq
      have hbin : isBinary ({ inst with magicVreg := some r } : Inst).op = true := hdiv.isBinary
      refine ⟨fun x hx => ?_, hin'.2⟩
      rcases (Inst.mem_uses_binary hbin).mp hx with hx | hx | hx
      · exact hin'.1 x ((Inst.mem_uses_binary hdiv.isBinary).mpr (.inl hx))
      · exact hin'.1 x ((Inst.mem_uses_binary hdiv.isBinary).mpr (.inr (.inl hx)))
      · cases hx
        exact hlt
  stands nv cs inst inst' hin h := by
    have hdst : inst'.dst = inst.dst := by
      rcases h with rfl | ⟨-, c, r, -, rfl, -⟩ <;> rfl
    have hspares : ∀ m ∈ constMvs nv cs, inst'.Spares m := by
      intro m hm x hx
      obtain ⟨r, c, rfl, hr, -⟩ := dst_of_mem_constMvs hm
      refine ⟨fun heq => ?_, fun hx => by cases hx⟩
      cases heq
      exact absurd (hin.dst_lt (hdst ▸ hx)) (Nat.not_lt_of_le hr)
    rcases h with rfl | ⟨hdiv, c, r, -, rfl, -⟩
    · exact .refl hspares
    · have hbin : isBinary ({ inst with magicVreg := some r } : Inst).op = true := hdiv.isBinary
      exact ⟨rfl, hspares,
        fun R _ call G => (Inst.exec_binary hbin).trans (Inst.exec_binary hdiv.isBinary).symm,
        fun R _ => (Inst.event_binary hbin R).trans (Inst.event_binary hdiv.isBinary R).symm⟩

theorem hintMagic_sound : hintMagic.Sound (fun key => magicNumber key.1 key.2) Hinted := by
  intro nv s inst h
  unfold hintMagic
  cases hb : inst.b with
  | reg r => exact ⟨h, List.Subset.refl _, .inl rfl⟩
  | imm c =>
    dsimp only
    split
    · rename_i hcond
      obtain ⟨hok, hsub, hmem⟩ := h.regFor (c, inst.unsignedDiv)
      exact ⟨hok, hsub, .inr ⟨hcond.1, c, _, hb, by rw [hb], hmem⟩⟩
    · exact ⟨h, List.Subset.refl _, .inl rfl⟩

section Loaded

variable {F F' : IRFunc} {L : Finset Nat} {pre v : Nat} {cs : List Word}

/-- **Loading constants leaves the hints right**, if it does at each instruction it changes. -/
theorem HintsRight.loaded {rel : List Inst → Inst → Inst → Prop}
    (h : ConstsLoaded rel F F' L pre cs) (hrel : HoistRel rel) (hrange : F.InRange)
    (hchange : ∀ b ∈ L, ∀ inst ∈ (F.blockAt b).insts, ∀ inst',
      rel (constMvs F.numVregs cs) inst inst' → HintRight F' b inst → HintRight F' b inst')
    (hF : HintsRight F) : HintsRight F' := by
  intro b inst' hi
  have hold : ∀ inst ∈ (F.blockAt b).insts, HintRight F' b inst := fun inst hi =>
    (hF b inst hi).mono fun r c hr => h.holdsIn hrel hrange hr
  rcases h.mem_insts hi with hi | hi | ⟨hb, inst, hi, hr⟩
  · exact hold inst' hi
  · obtain ⟨r, c, rfl, -⟩ := dst_of_mem_constMvs hi
    exact fun _ m hm => by cases hm
  · exact hchange b hb inst hi inst' hr (hold inst hi)

theorem HintsRight.hinted (h : ConstsLoaded Hinted F F' L pre cs) (hrange : F.InRange)
    (hL : IsLoop F L pre v) (hF : HintsRight F) : HintsRight F' := by
  refine hF.loaded h hoistRel_hinted hrange fun b hb inst _ inst' hr hright => ?_
  rcases hr with rfl | ⟨-, c, r, hc, rfl, hload⟩
  · exact hright
  · intro _ m hm
    cases hm
    exact ⟨c, h.holdsIn_new hoistRel_hinted hrange hL hb hload, .inl hc⟩

theorem HintsRight.replaced (h : ConstsLoaded (fun M => Inst.Replaced (LoadedBy M)) F F' L pre cs)
    (hrange : F.InRange) (hL : IsLoop F L pre v) (hF : HintsRight F) : HintsRight F' := by
  refine hF.loaded h hoistRel_replaced hrange fun b hb inst _ inst' hr hright hdiv m hm => ?_
  have hdiv' : inst.isDivision := by
    unfold Inst.isDivision
    rw [← hr.op_eq]
    exact hdiv
  rw [hr.same] at hm ⊢
  obtain ⟨c, hmagic, hdivisor⟩ := hright hdiv' m hm
  refine ⟨c, hmagic, ?_⟩
  rcases hr.b with hsame | ⟨r, c', hc', hr', hload⟩
  · rw [hsame]
    exact hdivisor
  · rcases hdivisor with hc | ⟨r, hr, -⟩
    · cases hc.symm.trans hc'
      exact .inr ⟨r, hr', h.holdsIn_new hoistRel_replaced hrange hL hb hload⟩
    · cases hr.symm.trans hc'

end Loaded

/-! ## Rewriting and dropping -/

/-- **An instruction as the clean-up may leave it**: a load of a constant stays, and a hint stands
beside the divisor it stood beside, unless that was a vreg with a known constant and is the
constant now. -/
structure Tidied (F : IRFunc) (inst inst' : Inst) : Prop where
  dst : inst'.dst = inst.dst
  const : ∀ r c, inst = constMv r c → inst' = constMv r c
  hint : inst'.isDivision → inst.isDivision ∧ inst'.magicVreg = inst.magicVreg ∧
    inst'.unsignedDiv = inst.unsignedDiv
  imm : inst'.isDivision → ∀ c, inst.b = .imm c → inst'.b = .imm c
  reg : inst'.isDivision → ∀ r b c, inst.b = .reg r → F.HoldsIn b r c →
    inst'.b = .imm c ∨ inst'.b = .reg r

theorem Tidied.refl {F : IRFunc} (inst : Inst) : Tidied F inst inst :=
  ⟨rfl, fun _ _ h => h, fun h => ⟨h, rfl, rfl⟩, fun _ _ h => h, fun _ _ _ _ h _ => .inr h⟩

/-- An instruction that is no division any more. -/
theorem Tidied.of_not_division {F : IRFunc} {inst inst' : Inst} (hdst : inst'.dst = inst.dst)
    (hconst : ∀ r c, inst ≠ constMv r c) (hdiv : ¬inst'.isDivision) : Tidied F inst inst' :=
  ⟨hdst, fun r c h => absurd h (hconst r c), fun h => absurd h hdiv, fun h => absurd h hdiv,
    fun h => absurd h hdiv⟩

/-- **A function as the clean-up may leave it**: the loads of constants are still there, if their
vregs are read. -/
structure TidiesTo (F F' : IRFunc) : Prop where
  edges : SameEdges F F'
  insts : ∀ b, ∀ inst' ∈ (F'.blockAt b).insts, ∃ inst ∈ (F.blockAt b).insts, Tidied F inst inst'
  loads : ∀ b r c, constMv r c ∈ (F.blockAt b).insts → r ∈ F'.reads →
    constMv r c ∈ (F'.blockAt b).insts

section Tidy

variable {F F' : IRFunc}

/-- A vreg that holds a constant still does, if it is read. -/
theorem TidiesTo.holdsIn (h : TidiesTo F F') {b r : Nat} {c : Word} (hr : F.HoldsIn b r c)
    (hread : r ∈ F'.reads) : F'.HoldsIn b r c where
  only b' inst' hi hd := by
    obtain ⟨inst, hi, ht⟩ := h.insts b' inst' hi
    exact ht.const r c (hr.only b' inst hi (ht.dst.symm.trans hd))
  loaded := by
    obtain ⟨L, pre, v, hL, hb, hload⟩ := hr.loaded
    exact ⟨L, pre, v, hL.of_sameEdges h.edges, hb, h.loads pre r c hload hread⟩

/-- **The clean-up leaves the hints right.** -/
theorem TidiesTo.hintsRight (h : TidiesTo F F') (hF : HintsRight F) : HintsRight F' := by
  intro b inst' hi' hdiv m hm
  obtain ⟨inst, hi, ht⟩ := h.insts b inst' hi'
  obtain ⟨hdiv₀, hmagic, hunsigned⟩ := ht.hint hdiv
  obtain ⟨c, hholds, hb⟩ := hF b inst hi hdiv₀ m (hmagic ▸ hm)
  have hread : ∀ r ∈ inst'.uses, r ∈ F'.reads := by
    intro r hr
    have hmem := IRFunc.mem_insts_iff.mpr ⟨b, hi'⟩
    obtain ⟨bb, hbb, hi'⟩ := List.mem_flatMap.mp hmem
    exact IRFunc.uses_subset_reads hbb hi' hr
  have huses : ∀ {r}, inst'.b.reg? = some r ∨ inst'.magicVreg = some r → r ∈ F'.reads :=
    fun hr => hread _ ((Inst.mem_uses_binary hdiv.isBinary).mpr (.inr hr))
  refine ⟨c, ?_, ?_⟩
  · rw [hunsigned]
    exact h.holdsIn hholds (huses (.inr hm))
  · rcases hb with hb | ⟨r, hb, hr⟩
    · exact .inl (ht.imm hdiv c hb)
    · rcases ht.reg hdiv r b c hb hr with hb' | hb'
      · exact .inl hb'
      · exact .inr ⟨r, hb', h.holdsIn hr (huses (.inl (by rw [hb']; rfl)))⟩

/-- Instructions that are rewritten one by one. -/
theorem TidiesTo.of_map {f : Inst → Inst} (hedges : SameEdges F F')
    (hinsts : ∀ b, (F'.blockAt b).insts = (F.blockAt b).insts.map f)
    (h : ∀ inst, Tidied F inst (f inst)) : TidiesTo F F' where
  edges := hedges
  insts b inst' hi := by
    rw [hinsts] at hi
    obtain ⟨inst, hmem, rfl⟩ := List.mem_map.mp hi
    exact ⟨inst, hmem, h inst⟩
  loads b r c hi _ := by
    rw [hinsts]
    exact List.mem_map.mpr ⟨_, hi, (h _).const r c rfl⟩

theorem constFold_tidies (F : IRFunc) : TidiesTo F (constFold F).1 := by
  refine .of_map (f := fun inst => (foldInst inst).getD inst) ?_ (fun b => ?_) fun inst => ?_
  · refine ⟨List.length_map _, fun b => ?_, fun b => ?_, fun b => ?_⟩ <;>
      rw [constFold, IRFunc.blockAt_mapInsts]
  · rw [constFold, IRFunc.blockAt_mapInsts]
  · cases hfold : foldInst inst with
    | none => exact .refl inst
    | some inst' =>
      obtain ⟨v, hv⟩ := foldInst_fields hfold
      refine .of_not_division ?_ (fun r c hconst => ?_) fun hdiv => ?_
      · rcases hv with rfl | rfl <;> rfl
      · rw [hconst] at hfold
        cases hfold
      · rcases hv with rfl | rfl <;> rcases hdiv with hdiv | hdiv <;> cases hdiv

/-- Operands that are replaced all over the function, where vregs that hold a constant are
replaced by that, if at all. -/
theorem subst_tidies {s : Subst}
    (hs : ∀ r b c, F.HoldsIn b r c → s r = none ∨ s r = some (.imm c)) :
    TidiesTo F (F.subst s) := by
  refine .of_map (f := (·.subst s)) ?_ (fun b => ?_) fun inst => ?_
  · refine ⟨List.length_map _, fun b => ?_, fun b => ?_, fun b => ?_⟩ <;>
      rw [IRFunc.blockAt_subst] <;> rfl
  · rw [IRFunc.blockAt_subst]
    rfl
  · unfold Inst.subst
    split
    · exact .refl inst
    · rename_i hop
      refine ⟨rfl, fun r c h => absurd (by rw [h]; rfl) hop, fun h => ⟨h, rfl, rfl⟩,
        fun _ c hc => ?_, fun _ r b c hr hholds => ?_⟩
      · simp [hc, Subst.apply]
      · rcases hs r b c hholds with hnone | hsome
        · exact .inr (by simp [hr, Subst.apply, hnone])
        · exact .inl (by simp [hr, Subst.apply, hsome])

/-- Nothing but a load of its constant writes a vreg that holds one. -/
theorem IRFunc.HoldsIn.eq_of_mem {b r : Nat} {c : Word} (h : F.HoldsIn b r c) {inst : Inst}
    (hi : inst ∈ F.insts) (hd : inst.dst = some r) : inst.a = .imm c := by
  obtain ⟨b', hi⟩ := IRFunc.mem_insts_iff.mp hi
  rw [h.only b' inst hi hd]
  rfl

theorem constProp_tidies (F : IRFunc) : TidiesTo F (constProp F).1 := by
  refine subst_tidies fun r b c hr => ?_
  unfold constSubst
  cases hc : constMap F r with
  | none => exact .inl rfl
  | some c' =>
    obtain ⟨inst, hi, -, hd, ha⟩ := constMap_mem hc
    cases ha.symm.trans (hr.eq_of_mem hi hd)
    exact .inr rfl

theorem copyProp_tidies (F : IRFunc) : TidiesTo F (copyProp F).1 := by
  refine subst_tidies fun r b c hr => .inl ?_
  have hnone : copyMap F r = none := by
    cases hc : copyMap F r with
    | none => rfl
    | some y =>
      obtain ⟨inst, hi, -, hd, ha⟩ := copyMap_mem hc
      cases ha.symm.trans (hr.eq_of_mem hi hd)
  unfold copySubst resolve
  simp [hnone]

theorem peephole_tidies (F : IRFunc) : TidiesTo F (peephole F).1 := by
  have hblock : ∀ b, (peephole F).1.blockAt b = (peepholeBlock (F.blockAt b)).1 :=
    IRFunc.blockAt_map rfl
  refine ⟨⟨List.length_map _, fun b => ?_, fun b => ?_, fun b => ?_⟩, fun b inst' hi => ?_,
    fun b r c hi _ => ?_⟩
  · rw [hblock]
    rfl
  · rw [hblock]
    rfl
  · rw [hblock]
    rfl
  · rw [hblock] at hi
    obtain ⟨inst, hmem, rfl | ⟨out, hfold⟩⟩ := peepholeInsts_mem hi
    · exact ⟨_, hmem, .refl _⟩
    · obtain ⟨hop, hd⟩ := foldPair_dst hfold
      refine ⟨inst, hmem, .of_not_division hd (fun r c hconst => ?_) fun hdiv => ?_⟩
      · rw [hconst] at hfold
        cases hfold
      · rcases hdiv with hdiv | hdiv <;> cases hop.symm.trans hdiv
  · rw [hblock]
    exact peepholeInsts_keeps hi rfl rfl

theorem deadCodeElim_tidies {n : Nat} (h : deadCodeElim F n = .ok F') : TidiesTo F F' := by
  obtain ⟨p, rfl, hdead⟩ := (deadCodeElim_swept h).1.kept
  refine ⟨IRFunc.sameFlow_keep.sameEdges, fun b inst' hi => ?_, fun b r c hi hread => ?_⟩
  · rw [IRFunc.blockAt_keep] at hi
    exact ⟨inst', List.mem_of_mem_filter hi, .refl _⟩
  · rw [IRFunc.blockAt_keep]
    refine List.mem_filter.mpr ⟨hi, ?_⟩
    by_contra hp
    obtain ⟨-, d, hd, hnot⟩ := isDead_iff.mp (hdead _ (Bool.eq_false_iff.mpr hp))
    cases hd
    exact hnot hread

theorem cleanRound_hintsRight (hF : HintsRight F) : HintsRight (cleanRound F).1 :=
  (peephole_tidies _).hintsRight ((copyProp_tidies _).hintsRight
    ((constProp_tidies _).hintsRight ((constFold_tidies _).hintsRight hF)))

end Tidy

/-! ## The phase -/

section Phase

variable {F F' : IRFunc} {n : Nat}

/-- Marking divisions changes nothing but the marks. -/
theorem markUnsignedDiv_sameFlow (h : markUnsignedDiv F n = .ok F') : SameFlow F F' := by
  obtain ⟨hF', hblocks⟩ := markUnsignedDiv_marked h
  have hlen : F'.blocks.length = F.blocks.length := hblocks.length_eq.symm
  refine ⟨by rw [hF'], hlen, fun b => ?_⟩
  by_cases hb : b < F.blocks.length
  · have := ((List.forall₂_iff_get.mp hblocks).2 b hb (hlen ▸ hb)).same
    simpa [IRFunc.blockAt, hb, hlen ▸ hb] using this
  · rw [IRFunc.blockAt_of_ge hb, IRFunc.blockAt_of_ge (hlen ▸ hb)]

theorem markUnsignedDiv_insts (h : markUnsignedDiv F n = .ok F') {b : Nat} {inst' : Inst}
    (hi : inst' ∈ (F'.blockAt b).insts) : ∃ inst ∈ (F.blockAt b).insts, Marked F inst inst' := by
  obtain ⟨-, hblocks⟩ := markUnsignedDiv_marked h
  have hlen : F'.blocks.length = F.blocks.length := hblocks.length_eq.symm
  by_cases hb : b < F.blocks.length
  · have hb' : b < F'.blocks.length := hlen ▸ hb
    have hm := (List.forall₂_iff_get.mp hblocks).2 b hb hb'
    have hi' : inst' ∈ (F'.blocks.get ⟨b, hb'⟩).insts := by
      simpa [IRFunc.blockAt, hb'] using hi
    obtain ⟨inst, hmem, hr⟩ := exists_of_forall₂ hm.insts hi'
    exact ⟨inst, by simpa [IRFunc.blockAt, hb] using hmem, hr⟩
  · rw [IRFunc.blockAt_of_ge (hlen ▸ hb)] at hi
    cases hi

theorem markUnsignedDiv_inRange (hF : F.InRange) (h : markUnsignedDiv F n = .ok F') :
    F'.InRange := by
  obtain ⟨hF', -⟩ := markUnsignedDiv_marked h
  have hnv : F'.numVregs = F.numVregs := by rw [hF']
  refine hF.of_sameFlow (markUnsignedDiv_sameFlow h) hnv.ge fun b inst' hi => ?_
  obtain ⟨inst, hi, hm⟩ := markUnsignedDiv_insts h hi
  have hin := hF.inst_inRange hi
  rw [hm.same, hnv]
  exact ⟨hin.1, hin.2⟩

theorem markUnsignedDiv_steady (F : IRFunc) : Outcome.Steady (markUnsignedDiv F) := by
  unfold markUnsignedDiv
  split
  · exact .const _
  · exact .loop _ _

theorem deadCodeElim_steady (F : IRFunc) : Outcome.Steady (deadCodeElim F) := .loop _ _

/-- **Hoisting the magic numbers ends, preserves the meaning of a function, and leaves its hints
right.** -/
theorem hoistMagicDiv_hintsRight (hF : F.InRange)
    (hid : F.blocks.map (·.id) = List.range F.blocks.length)
    (hentry : predsOf F.blocks 0 = []) (hhints : HintsRight (computeCFG F)) :
    (∃ n F', hoistMagicDiv F n = .ok F') ∧
      ∀ n F', hoistMagicDiv F n = .ok F' →
        HintsRight F' ∧ SameFlow (computeCFG F) F' ∧ F'.InRange ∧
          ∀ call junk args G, Equivalent F F' call junk args G :=
  hoistLoops_rule hintMagic_sound hoistRel_hinted hF hid hentry hhints
    fun _ _ _ _ _ _ hrange hL hloaded h => h.hinted hloaded hrange hL

/-- **So does hoisting the divisors.** -/
theorem hoistDivModConstants_hintsRight (hF : F.InRange)
    (hid : F.blocks.map (·.id) = List.range F.blocks.length)
    (hentry : predsOf F.blocks 0 = []) (hhints : HintsRight (computeCFG F)) :
    (∃ n F', hoistDivModConstants F n = .ok F') ∧
      ∀ n F', hoistDivModConstants F n = .ok F' →
        HintsRight F' ∧ SameFlow (computeCFG F) F' ∧ F'.InRange ∧
          ∀ call junk args G, Equivalent F F' call junk args G :=
  hoistLoops_rule hoistDivisor_sound hoistRel_replaced hF hid hentry hhints
    fun _ _ _ _ _ _ hrange hL hloaded h => h.replaced hloaded hrange hL

theorem computeCFG_insts (F : IRFunc) (b : Nat) :
    ((computeCFG F).blockAt b).insts = (F.blockAt b).insts := by
  by_cases hb : b < F.blocks.length
  · rw [blockAt_computeCFG hb]
  · rw [blockAt_computeCFG_of_ge hb]

theorem computeCFG_sameEdges (F : IRFunc) : SameEdges F (computeCFG F) := by
  refine ⟨length_computeCFG F, fun b => ?_, fun b => ?_, fun b => ?_⟩ <;>
    by_cases hb : b < F.blocks.length <;>
    first | rw [blockAt_computeCFG hb] | rw [blockAt_computeCFG_of_ge hb]

theorem HintsRight.computeCFG (h : HintsRight F) : HintsRight (computeCFG F) := by
  intro b inst hi
  rw [computeCFG_insts] at hi
  refine (h b inst hi).mono fun r c hr => ⟨fun b' inst hi hd => ?_, ?_⟩
  · rw [computeCFG_insts] at hi
    exact hr.only b' inst hi hd
  · obtain ⟨L, pre, v, hL, hb, hload⟩ := hr.loaded
    refine ⟨L, pre, v, hL.of_sameEdges (computeCFG_sameEdges F), hb, ?_⟩
    rw [computeCFG_insts]
    exact hload

/-- The passes in front of the clean-up. -/
theorem magicPhase_rule (rounds : Nat) (hF : F.InRange)
    (hid : F.blocks.map (·.id) = List.range F.blocks.length)
    (hentry : predsOf F.blocks 0 = []) (hnone : ∀ inst ∈ F.insts, inst.magicVreg = none) :
    (∃ n F', magicPhase rounds F n = .ok F') ∧
      ∀ n F', magicPhase rounds F n = .ok F' → HintsRight F' := by
  have hmarked : ∀ n F₁, markUnsignedDiv F n = .ok F₁ →
      F₁.InRange ∧ (F₁.blocks.map (·.id) = List.range F₁.blocks.length ∧
        predsOf F₁.blocks 0 = []) ∧ HintsRight (computeCFG F₁) := by
    intro n F₁ h
    have hflow := markUnsignedDiv_sameFlow h
    refine ⟨markUnsignedDiv_inRange hF h, numbered_of_same hflow.length
      (fun b => by rw [hflow.blocks b]) hflow.succsOf hid hentry, HintsRight.computeCFG ?_⟩
    intro b inst' hi _ m hm
    obtain ⟨inst, hi, hmark⟩ := markUnsignedDiv_insts h hi
    rw [hmark.same, hnone inst (IRFunc.mem_insts_iff.mpr ⟨b, hi⟩)] at hm
    cases hm
  have hnumbered : ∀ {F₁ F₂ : IRFunc}, SameFlow (computeCFG F₁) F₂ →
      F₁.blocks.map (·.id) = List.range F₁.blocks.length → predsOf F₁.blocks 0 = [] →
      F₂.blocks.map (·.id) = List.range F₂.blocks.length ∧ predsOf F₂.blocks 0 = [] := by
    intro F₁ F₂ hflow hid hentry
    refine numbered_of_same (hflow.length.trans (length_computeCFG F₁)) (fun b => ?_) (fun b => ?_)
      hid hentry
    · rw [hflow.blocks b]
      by_cases hb : b < F₁.blocks.length
      · rw [blockAt_computeCFG hb]
      · rw [blockAt_computeCFG_of_ge hb]
    · rw [hflow.succsOf, succsOf_computeCFG]
  have hrounds : ∀ (k : Nat) (F₁ : IRFunc), HintsRight F₁ →
      HintsRight ((fun F => (cleanRound F).1)^[k] F₁) := by
    intro k
    induction k with
    | zero => exact fun _ h => h
    | succ k ih => exact fun F₁ h => ih _ (cleanRound_hintsRight h)
  unfold magicPhase
  constructor
  · refine Outcome.Steady.bind_total (markUnsignedDiv_steady F) (fun F₁ => ?_)
      (markUnsignedDiv_total F) fun n₁ F₁ h₁ => ?_
    · refine .bind (overLoops_steady _ F₁) fun F₂ => .bind (overLoops_steady _ F₂) fun F₃ =>
        .bind (deadCodeElim_steady F₃) fun F₄ => deadCodeElim_steady _
    · obtain ⟨hrange₁, ⟨hid₁, hentry₁⟩, hright₁⟩ := hmarked n₁ F₁ h₁
      obtain ⟨htotal₂, hrule₂⟩ := hoistMagicDiv_hintsRight hrange₁ hid₁ hentry₁ hright₁
      refine Outcome.Steady.bind_total (overLoops_steady _ F₁) (fun F₂ => ?_) htotal₂
        fun n₂ F₂ h₂ => ?_
      · exact .bind (overLoops_steady _ F₂) fun F₃ =>
          .bind (deadCodeElim_steady F₃) fun F₄ => deadCodeElim_steady _
      · obtain ⟨hright₂, hflow₂, hrange₂, -⟩ := hrule₂ n₂ F₂ h₂
        obtain ⟨hid₂, hentry₂⟩ := hnumbered hflow₂ hid₁ hentry₁
        obtain ⟨htotal₃, -⟩ :=
          hoistDivModConstants_hintsRight hrange₂ hid₂ hentry₂ hright₂.computeCFG
        exact Outcome.Steady.bind_total (overLoops_steady _ F₂)
          (fun F₃ => .bind (deadCodeElim_steady F₃) fun F₄ => deadCodeElim_steady _) htotal₃
          fun n₃ F₃ _ => Outcome.Steady.bind_total (deadCodeElim_steady F₃)
            (fun F₄ => deadCodeElim_steady _) (deadCodeElim_total F₃)
            fun n₄ F₄ _ => deadCodeElim_total _
  · intro n F' h
    obtain ⟨F₁, h₁, h⟩ := Outcome.bind_eq_ok.mp h
    obtain ⟨F₂, h₂, h⟩ := Outcome.bind_eq_ok.mp h
    obtain ⟨F₃, h₃, h⟩ := Outcome.bind_eq_ok.mp h
    obtain ⟨F₄, h₄, h⟩ := Outcome.bind_eq_ok.mp h
    obtain ⟨hrange₁, ⟨hid₁, hentry₁⟩, hright₁⟩ := hmarked n F₁ h₁
    obtain ⟨hright₂, hflow₂, hrange₂, -⟩ :=
      (hoistMagicDiv_hintsRight hrange₁ hid₁ hentry₁ hright₁).2 n F₂ h₂
    obtain ⟨hid₂, hentry₂⟩ := hnumbered hflow₂ hid₁ hentry₁
    obtain ⟨hright₃, -⟩ :=
      (hoistDivModConstants_hintsRight hrange₂ hid₂ hentry₂ hright₂.computeCFG).2 n F₃ h₃
    exact (deadCodeElim_tidies h).hintsRight
      (hrounds rounds F₄ ((deadCodeElim_tidies h₄).hintsRight hright₃))

/-- **A hint that is there when the code is generated is right**: in every run of the function after
the passes, at every division by a constant that has a hint, the vreg of the hint holds the magic
number of the constant, the unsigned or the signed one as the mark says. -/
theorem magicHints_right (rounds : Nat) (hF : F.InRange)
    (hid : F.blocks.map (·.id) = List.range F.blocks.length)
    (hentry : predsOf F.blocks 0 = []) (hnone : ∀ inst ∈ F.insts, inst.magicVreg = none) :
    (∃ n F', magicPhase rounds F n = .ok F') ∧
      ∀ n F', magicPhase rounds F n = .ok F' → ∀ call junk args G done c,
        F'.Ran call (F'.entry junk args G) done c → ∀ inst ∈ c.rest.head?,
          inst.op = .Div ∨ inst.op = .Mod → ∀ d, inst.b = .imm d →
            ∀ m, inst.magicVreg = some m →
              c.regs m = if inst.unsignedDiv then (unsignedMagic d).1 else (signedMagic d).1 := by
  obtain ⟨htotal, hright⟩ := magicPhase_rule rounds hF hid hentry hnone
  refine ⟨htotal, fun n F' h call junk args G done c hran inst hi hdiv d hd m hm => ?_⟩
  have hmem : inst ∈ (F'.blockAt c.block).insts := hran.suffix.mem (List.mem_of_mem_head? hi)
  obtain ⟨d', hholds, hb⟩ := hright n F' h c.block inst hmem hdiv m hm
  rcases hb with hb | ⟨r, hb, -⟩
  · cases hd.symm.trans hb
    exact hholds.regs hran rfl
  · cases hd.symm.trans hb

end Phase

/-- What becomes of `while (n > 9) n = n / 7;`: the magic number is in a vreg, and the divisor is
back in its place. -/
def hintedFunc : IRFunc where
  numParams := 1
  paramRegs := [0]
  numVregs := 5
  blocks := [
    { id := 0, insts := [constMv 3 0x92492493], term := .Jmp, succ0 := 1 },
    { id := 1, insts := [{ op := .Gt, dst := some 1, a := .reg 2, b := .imm 9 }], term := .Br,
      cond := .reg 1, succ0 := 2, succ1 := 3, preds := [0, 2] },
    { id := 2, insts := [
        { op := .Div, dst := some 2, a := .reg 2, b := .imm 7, magicVreg := some 3 }],
      term := .Jmp, succ0 := 1, preds := [1] },
    { id := 3, term := .Ret, retHasVal := true, retVal := .reg 2, preds := [1] }]

theorem magicHints_shrinkFunc :
    magicPhase 1 shrinkFunc 9 = .ok hintedFunc ∧
      (Regs.set (Regs.set (fun _ => 100) 3 0x92492493) 1 1) 3 = (signedMagic 7).1 := by
  have h := (magicHints_right (F := shrinkFunc) 1 ⟨by decide, by decide, by decide, by decide⟩
    (by decide) (by decide) (by decide)).2 9 hintedFunc rfl (fun _ => .stuck) (fun _ => 100) [100]
    fun _ => 0
  have h₀ := @IRFunc.Ran.start hintedFunc (fun _ => .stuck)
    (hintedFunc.entry (fun _ => 100) [100] fun _ => 0)
  have h₁ := h₀.step rfl
  have h₂ := h₁.step rfl
  have h₃ := h₂.step rfl
  have h₄ := h₃.step rfl
  exact ⟨rfl, (h _ _ h₄ _ rfl (.inl rfl) 7 rfl 3 rfl)⟩

end ToyC
