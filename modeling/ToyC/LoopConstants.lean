import ToyC.ConstHoisting

/-!
# Hoisting the constants of comparisons and divisions

The first pass loads what a loop compares with in front of it, the second what it divides by.
In the loop stand the new vregs then (`Inst.Replaced`), and both functions do the same
(`hoistConstants_preserves`).

An instruction in nested loops is changed at the first loop that has a preheader, since a vreg is
no constant any more; that it may be the inner one does not matter, as the vreg holds the constant
in all of it.
-/

namespace ToyC

/-! ## The passes -/

/-- **An operand**: a constant that is wanted is replaced by its vreg. -/
def tryHoist (wanted : Word → Bool) (operand : Val) (s : Hoist Word) : Val × Hoist Word :=
  match operand with
  | .reg r => (.reg r, s)
  | .imm c =>
    if wanted c then
      let (r, s) := s.regFor c c
      (.reg r, s)
    else (.imm c, s)

/-- A comparison, with the constants it compares but zero. -/
def hoistCmp : HoistStep Word := fun s inst =>
  if isCmp inst.op then
    let (a, s) := tryHoist (· ≠ 0) inst.a s
    let (b, s) := tryHoist (· ≠ 0) inst.b s
    ({ inst with a, b }, s)
  else (inst, s)

/-- **Hoist the constants a loop compares with.** -/
def hoistLoopConstants (F : IRFunc) (n : Nat) : Outcome IRFunc := overLoops (hoistLoop hoistCmp) F n

/-- A division, with its divisor: not one that `constFold` takes care of, nor a power of two. -/
def hoistDivisor : HoistStep Word := fun s inst =>
  if inst.op = .Div ∨ inst.op = .Mod then
    let (b, s) := tryHoist (fun c => c ≠ 0 && !(c = 1 || c = -1) && !isPow2 c) inst.b s
    ({ inst with b }, s)
  else (inst, s)

/-- **Hoist the constants a loop divides by.** -/
def hoistDivModConstants (F : IRFunc) (n : Nat) : Outcome IRFunc :=
  overLoops (hoistLoop hoistDivisor) F n

/-! ## What becomes of an instruction -/

/-- **An operand that is replaced**, if at all, by a vreg that is known to hold it. -/
def Val.Replaced (known : Nat → Word → Prop) (v v' : Val) : Prop :=
  v' = v ∨ ∃ r c, v = .imm c ∧ v' = .reg r ∧ known r c

/-- **An instruction whose operands are replaced**, if at all. -/
structure Inst.Replaced (known : Nat → Word → Prop) (inst inst' : Inst) : Prop where
  same : inst' = { inst with a := inst'.a, b := inst'.b }
  op : inst' = inst ∨ isBinary inst.op = true
  a : inst.a.Replaced known inst'.a
  b : inst.b.Replaced known inst'.b

section Replaced

variable {known known' : Nat → Word → Prop} {v v' v'' : Val} {inst inst' inst'' : Inst}

theorem Val.Replaced.refl (v : Val) : v.Replaced known v := .inl rfl

theorem Val.Replaced.mono (h : v.Replaced known v') (hk : ∀ r c, known r c → known' r c) :
    v.Replaced known' v' :=
  h.imp id fun ⟨r, c, hv, hv', hr⟩ => ⟨r, c, hv, hv', hk r c hr⟩

/-- What is replaced is not replaced again. -/
theorem Val.Replaced.trans (h : v.Replaced known v') (h' : v'.Replaced known v'') :
    v.Replaced known v'' := by
  rcases h with rfl | ⟨r, c, rfl, rfl, hr⟩
  · exact h'
  · rcases h' with rfl | ⟨r', c', hc, -⟩
    · exact .inr ⟨r, c, rfl, rfl, hr⟩
    · cases hc

theorem Val.Replaced.eval {R : Regs} (h : v.Replaced known v')
    (hk : ∀ r c, known r c → R r = c) : v'.eval R = v.eval R := by
  rcases h with rfl | ⟨r, c, rfl, rfl, hr⟩
  · rfl
  · exact hk r c hr

theorem Inst.Replaced.refl (inst : Inst) : inst.Replaced known inst :=
  ⟨rfl, .inl rfl, .refl _, .refl _⟩

theorem Inst.Replaced.mono (h : inst.Replaced known inst') (hk : ∀ r c, known r c → known' r c) :
    inst.Replaced known' inst' :=
  ⟨h.same, h.op, h.a.mono hk, h.b.mono hk⟩

theorem Inst.Replaced.op_eq (h : inst.Replaced known inst') : inst'.op = inst.op := by
  rw [h.same]

theorem Inst.Replaced.dst_eq (h : inst.Replaced known inst') : inst'.dst = inst.dst := by
  rw [h.same]

theorem Inst.Replaced.trans (h : inst.Replaced known inst') (h' : inst'.Replaced known inst'') :
    inst.Replaced known inst'' where
  same := by
    rw [h'.same, h.same]
  op := by
    rcases h.op with rfl | hop
    · exact h'.op
    · exact .inr hop
  a := h.a.trans h'.a
  b := h.b.trans h'.b

/-- A load of a constant is not changed. -/
theorem Inst.Replaced.const {r : Nat} {c : Word} (h : (constMv r c).Replaced known inst') :
    inst' = constMv r c :=
  h.op.resolve_right fun hop => by cases hop

/-- The vregs of an operand. -/
theorem Val.Replaced.reg {r : Nat} (h : v.Replaced known v') (hr : v'.reg? = some r) :
    v.reg? = some r ∨ ∃ c, known r c := by
  rcases h with rfl | ⟨r', c, rfl, rfl, hk⟩
  · exact .inl hr
  · cases hr
    exact .inr ⟨c, hk⟩

end Replaced

/-- The vregs that are loaded with constants by some instructions. -/
abbrev LoadedBy (M : List Inst) (r : Nat) (c : Word) : Prop := constMv r c ∈ M

/-- **Replacing constants by the vregs they are loaded in** is what a loop may be changed by. -/
theorem hoistRel_replaced : HoistRel fun M => Inst.Replaced (LoadedBy M) where
  mono M M' inst inst' hM h := h.mono fun r c hr => hM hr
  const M r c inst' h := h.const
  range nv cs inst inst' hin h := by
    rcases h.op with rfl | hop
    · exact hin.mono (Nat.le_add_right ..)
    · have hreg : ∀ {v v' : Val} {r : Nat}, v.Replaced (LoadedBy (constMvs nv cs)) v' →
          v'.reg? = some r → (v.reg? = some r → r < nv) → r < nv + cs.length := by
        intro v v' r hv hr hlt
        rcases hv.reg hr with hr | ⟨c, hc⟩
        · exact (hlt hr).trans_le (Nat.le_add_right ..)
        · obtain ⟨r', c', heq, -, hlt⟩ := dst_of_mem_constMvs hc
          cases heq
          exact hlt
      refine ⟨fun r hr => ?_, ?_⟩
      · rw [Inst.mem_uses_binary (h.op_eq ▸ hop)] at hr
        have huses := fun hr => hin.1 r ((Inst.mem_uses_binary hop).mpr hr)
        rcases hr with hr | hr | hr
        · exact hreg h.a hr fun hr => huses (.inl hr)
        · exact hreg h.b hr fun hr => huses (.inr (.inl hr))
        · rw [h.same] at hr
          exact (huses (.inr (.inr hr))).trans_le (Nat.le_add_right ..)
      · have hdst := (hin.mono (Nat.le_add_right nv cs.length)).2
        rw [h.op_eq, h.dst_eq]
        exact hdst
  stands nv cs inst inst' hin h := by
    have hspares : ∀ m ∈ constMvs nv cs, inst'.Spares m := by
      intro m hm x hx
      obtain ⟨r, c, rfl, hr, -⟩ := dst_of_mem_constMvs hm
      refine ⟨fun heq => ?_, fun hx => by cases hx⟩
      cases heq
      exact absurd (hin.dst_lt (h.dst_eq ▸ hx)) (Nat.not_lt_of_le hr)
    rcases h.op with rfl | hop
    · exact .refl hspares
    · have hop' : isBinary inst'.op = true := h.op_eq ▸ hop
      have hknown : ∀ R, (∀ m ∈ constMvs nv cs, m.Settled R) →
          ∀ r c, LoadedBy (constMvs nv cs) r c → R r = c :=
        fun R hR r c hr => (hR _ hr).const
      refine ⟨h.dst_eq, hspares, fun R hR call G => ?_, fun R _ => ?_⟩
      · rw [Inst.exec_binary hop', Inst.exec_binary hop, h.op_eq, h.dst_eq,
          h.a.eval (hknown R hR), h.b.eval (hknown R hR)]
      · rw [Inst.event_binary hop', Inst.event_binary hop]

/-! ## What the passes do -/

theorem tryHoist_sound (wanted : Word → Bool) (v : Val) {nv : Nat} {s : Hoist Word}
    (h : s.Ok id nv) :
    (tryHoist wanted v s).2.Ok id nv ∧ s.moved ⊆ (tryHoist wanted v s).2.moved ∧
      v.Replaced (LoadedBy (tryHoist wanted v s).2.moved) (tryHoist wanted v s).1 := by
  unfold tryHoist
  cases v with
  | reg r => exact ⟨h, List.Subset.refl _, .refl _⟩
  | imm c =>
    dsimp only
    split
    · obtain ⟨hok, hsub, hmem⟩ := h.regFor c
      exact ⟨hok, hsub, .inr ⟨_, c, rfl, rfl, hmem⟩⟩
    · exact ⟨h, List.Subset.refl _, .refl _⟩

theorem hoistCmp_sound : hoistCmp.Sound id fun M => Inst.Replaced (LoadedBy M) := by
  intro nv s inst h
  unfold hoistCmp
  split
  · rename_i hop
    obtain ⟨hok, hsub, ha⟩ := tryHoist_sound (· ≠ 0) inst.a h
    obtain ⟨hok', hsub', hb⟩ := tryHoist_sound (· ≠ 0) inst.b hok
    refine ⟨hok', List.Subset.trans hsub hsub', rfl, .inr ?_, ha.mono fun _ _ hr => hsub' hr, hb⟩
    cases ho : inst.op <;> first | rfl | (rw [ho] at hop; cases hop)
  · exact ⟨h, List.Subset.refl _, .refl _⟩

theorem hoistDivisor_sound : hoistDivisor.Sound id fun M => Inst.Replaced (LoadedBy M) := by
  intro nv s inst h
  unfold hoistDivisor
  split
  · rename_i hop
    obtain ⟨hok, hsub, hb⟩ := tryHoist_sound
      (fun c => c ≠ 0 && !(c = 1 || c = -1) && !isPow2 c) inst.b h
    refine ⟨hok, hsub, rfl, .inr ?_, .refl _, hb⟩
    rcases hop with hop | hop <;> rw [hop] <;> rfl
  · exact ⟨h, List.Subset.refl _, .refl _⟩

/-! ## The functions -/

/-- **The text after the passes**: at the place of each instruction stands the same, with
constants replaced by vregs that hold them there, and behind the instructions of a block stand
loads of constants. -/
def ConstsReplaced (F F' : IRFunc) : Prop :=
  ∀ b, (F.blockAt b).insts.length ≤ (F'.blockAt b).insts.length ∧
    ∀ (k : Nat) inst', (F'.blockAt b).insts[k]? = some inst' →
      (∃ inst, (F.blockAt b).insts[k]? = some inst ∧ inst.Replaced (F'.HoldsIn b) inst') ∨
        (F.blockAt b).insts[k]? = none ∧ ∃ r c, inst' = constMv r c

theorem ConstsReplaced.computeCFG (F : IRFunc) : ConstsReplaced F (computeCFG F) := by
  intro b
  have hinsts : ((ToyC.computeCFG F).blockAt b).insts = (F.blockAt b).insts := by
    by_cases hb : b < F.blocks.length
    · rw [blockAt_computeCFG hb]
    · rw [blockAt_computeCFG_of_ge hb]
  rw [hinsts]
  exact ⟨Nat.le_refl _, fun k inst hi => .inl ⟨inst, hi, .refl _⟩⟩

/-- One loop. -/
theorem ConstsReplaced.loaded {F F₁ F₂ : IRFunc} {L : Finset Nat} {pre v : Nat} {cs : List Word}
    (h : ConstsReplaced F F₁) (hrange : F₁.InRange) (hL : IsLoop F₁ L pre v)
    (hloaded : ConstsLoaded (fun M => Inst.Replaced (LoadedBy M)) F₁ F₂ L pre cs) :
    ConstsReplaced F F₂ := by
  intro b
  obtain ⟨hlen, hat⟩ := h b
  have hold : ∀ r c, F₁.HoldsIn b r c → F₂.HoldsIn b r c := fun r c hr =>
    hloaded.holdsIn hoistRel_replaced hrange hr
  have hkept : ∀ (k : Nat) inst', (F₁.blockAt b).insts[k]? = some inst' →
      (∃ inst, (F.blockAt b).insts[k]? = some inst ∧ inst.Replaced (F₂.HoldsIn b) inst') ∨
        (F.blockAt b).insts[k]? = none ∧ ∃ r c, inst' = constMv r c := fun k inst' hi =>
    (hat k inst' hi).imp (fun ⟨inst, hk, hr⟩ => ⟨inst, hk, hr.mono hold⟩) id
  by_cases hb : b ∈ L
  · obtain ⟨hlen', hall⟩ := List.forall₂_iff_get.mp (hloaded.loop b hb)
    refine ⟨hlen.trans hlen'.le, fun k inst₂ hi => ?_⟩
    obtain ⟨hk, rfl⟩ := List.getElem?_eq_some_iff.mp hi
    have hrel := hall k (hlen' ▸ hk) hk
    rcases hkept k _ (List.getElem?_eq_getElem (hlen' ▸ hk)) with
      ⟨inst, hinst, hr⟩ | ⟨hnone, r, c, hr⟩
    · refine .inl ⟨inst, hinst, hr.trans (hrel.mono fun r c hmem => ?_)⟩
      exact hloaded.holdsIn_new hoistRel_replaced hrange hL hb hmem
    · rw [List.get_eq_getElem, hr] at hrel
      exact .inr ⟨hnone, r, c, hrel.const⟩
  · by_cases hpre : b = pre
    · rw [hpre] at hlen hkept ⊢
      rw [hloaded.preheader, List.length_append]
      refine ⟨hlen.trans (Nat.le_add_right ..), fun k inst' hi => ?_⟩
      by_cases hk : k < (F₁.blockAt pre).insts.length
      · rw [List.getElem?_append_left hk] at hi
        exact hkept k inst' hi
      · rw [List.getElem?_append_right (Nat.le_of_not_lt hk)] at hi
        obtain ⟨r, c, rfl, -⟩ := dst_of_mem_constMvs (List.mem_of_getElem? hi)
        exact .inr ⟨List.getElem?_eq_none (hlen.trans (Nat.le_of_not_lt hk)), r, c, rfl⟩
    · rw [hloaded.others b hb hpre]
      exact ⟨hlen, hkept⟩

/-- **What hoisting constants must do to a function**: the function does the same as before, and
where an instruction executes that had a constant for an operand and has a vreg instead, the
vreg holds the constant. -/
structure ConstsHoisted (F F' : IRFunc) : Prop where
  equivalent : ∀ call junk args G, Equivalent F F' call junk args G
  flow : SameFlow (computeCFG F) F'
  operands : ∀ call junk args G done c, F'.Ran call (F'.entry junk args G) done c →
    ∀ before inst' rest, (F'.blockAt c.block).insts = before ++ inst' :: rest →
      c.rest = inst' :: rest →
        (∃ inst, (F.blockAt c.block).insts[before.length]? = some inst ∧
          inst.Replaced (fun r w => c.regs r = w) inst') ∨
        (F.blockAt c.block).insts[before.length]? = none ∧ ∃ r w, inst' = constMv r w

/-- **Hoisting constants preserves the meaning of a function**: both passes end, the function
does the same as before, and each vreg that was put in the place of a constant holds it when the
instruction is executed. -/
theorem hoistConstants_preserves {F : IRFunc} (hF : F.InRange)
    (hid : F.blocks.map (·.id) = List.range F.blocks.length)
    (hentry : predsOf F.blocks 0 = []) :
    ∀ pass ∈ [hoistLoopConstants, hoistDivModConstants],
      (∃ n F', pass F n = .ok F') ∧ ∀ n F', pass F n = .ok F' → ConstsHoisted F F' := by
  have hpass : ∀ step : HoistStep Word, (step.Sound id fun M => Inst.Replaced (LoadedBy M)) →
      (∃ n F', overLoops (hoistLoop step) F n = .ok F') ∧
        ∀ n F', overLoops (hoistLoop step) F n = .ok F' → ConstsHoisted F F' := by
    intro step hstep
    obtain ⟨htotal, hrule⟩ := hoistLoops_rule (P := ConstsReplaced F) hstep hoistRel_replaced hF hid
      hentry (.computeCFG F) fun _ _ _ _ _ _ hrange hL hloaded h => h.loaded hrange hL hloaded
    refine ⟨htotal, fun n F' h => ?_⟩
    obtain ⟨hreplaced, hflow, -, hequiv⟩ := hrule n F' h
    refine ⟨hequiv, hflow, fun call junk args G done c hran before inst' rest htext _ => ?_⟩
    refine ((hreplaced c.block).2 before.length inst' ?_).imp ?_ id
    · rw [htext, List.getElem?_append_right (Nat.le_refl _), Nat.sub_self]
      rfl
    · rintro ⟨inst, hk, hr⟩
      exact ⟨inst, hk, hr.mono fun r w hr => hr.regs hran rfl⟩
  intro pass hmem
  rcases List.mem_pair.mp hmem with rfl | rfl
  · exact hpass hoistCmp hoistCmp_sound
  · exact hpass hoistDivisor hoistDivisor_sound

/-! ## A loop that compares and divides -/

/-- `int f(int n) { while (n > 9) n = n / 7; return n; }`. -/
def shrinkFunc : IRFunc where
  numParams := 1
  paramRegs := [0]
  numVregs := 3
  blocks := [
    { id := 0, term := .Jmp, succ0 := 1 },
    { id := 1, insts := [{ op := .Gt, dst := some 1, a := .reg 0, b := .imm 9 }], term := .Br,
      cond := .reg 1, succ0 := 2, succ1 := 3 },
    { id := 2, insts := [{ op := .Div, dst := some 2, a := .reg 0, b := .imm 7 },
        { op := .Mv, dst := some 0, a := .reg 2 }], term := .Jmp, succ0 := 1 },
    { id := 3, term := .Ret, retHasVal := true, retVal := .reg 0 }]

theorem hoistConstants_shrinkFunc :
    (∃ F', hoistLoopConstants shrinkFunc 9 = .ok F' ∧
      (F'.blockAt 0).insts = [constMv 3 9] ∧ ConstsHoisted shrinkFunc F') ∧
    ∃ F', hoistDivModConstants shrinkFunc 9 = .ok F' ∧
      (F'.blockAt 0).insts = [constMv 3 7] ∧ ConstsHoisted shrinkFunc F' :=
  have h := hoistConstants_preserves (F := shrinkFunc)
    ⟨by decide, by decide, by decide, by decide⟩ (by decide) (by decide)
  ⟨⟨_, rfl, rfl, (h _ List.mem_cons_self).2 9 _ rfl⟩,
    _, rfl, rfl, (h _ (List.mem_cons_of_mem _ List.mem_cons_self)).2 9 _ rfl⟩

end ToyC
