import ToyC.InlinedCode
import ToyC.AsmLabels

/-!
# Inlining preserves meaning

The limit of a module's bodies answers a call as the body of the callee does, for the module before
and after calls were inlined into one function, since that function is not inlined into itself. So
the two limits are below each other and the same (`Linked.limit_set`), and sweeps only repeat this:
what inlining relies on, which is that every function reads its own vregs only and the parameters
first, stays (`Linked.set`). Recursion, mutual or not, needs no argument of its own.
-/

namespace ToyC

open Machine Outcome

/-! ## What inlining relies on stays -/

section Kept

theorem readFirst_append {is js : List Inst} {behind : Nat → Prop} {v : Nat} :
    readFirst (is ++ js) behind v ↔ readFirst is (readFirst js behind) v := by
  induction is with
  | nil => exact Iff.rfl
  | cons inst is ih => exact or_congr Iff.rfl (and_congr Iff.rfl ih)

theorem readFirst_mono {insts : List Inst} {P Q : Nat → Prop} (hPQ : ∀ v, P v → Q v) {v : Nat}
    (h : readFirst insts P v) : readFirst insts Q v := by
  induction insts with
  | nil => exact hPQ v h
  | cons inst insts ih => exact h.imp id fun h => ⟨h.1, ih h.2⟩

@[simp] theorem operands_cloneInst (vBase : Nat) (inst : Inst) :
    (cloneInst vBase inst).operands = inst.operands.map (cloneVal vBase) := by
  unfold Inst.operands cloneInst
  cases inst.op <;> rfl

theorem cloneVal_reg? {vBase : Nat} {a : Val} {v : Nat} :
    (cloneVal vBase a).reg? = some v ↔ ∃ u, a.reg? = some u ∧ v = u + vBase := by
  cases a with
  | imm i => simp [cloneVal, Val.reg?]
  | reg r => simp [cloneVal, Val.reg?, eq_comm]

variable {vBase : Nat} {v : Nat}

theorem mem_inlineParams {ps : List Nat} {as : List Val} {inst : Inst}
    (h : inst ∈ inlineParams vBase ps as) :
    ∃ p ∈ ps, ∃ a ∈ as, inst = { op := .Mv, dst := some (p + vBase), a } := by
  obtain ⟨k, hk⟩ := List.mem_iff_getElem?.mp h
  obtain ⟨p, a, hp, ha, rfl⟩ := List.getElem?_zipWith_eq_some.mp hk
  exact ⟨p, List.mem_of_getElem? hp, a, List.mem_of_getElem? ha, rfl⟩

/-- What the copies of some parameters and arguments read first. -/
theorem readFirst_inlineParams {ps : List Nat} {as : List Val} {P : Nat → Prop}
    (hlen : as.length = ps.length) (h : readFirst (inlineParams vBase ps as) P v) :
    (∃ a ∈ as, a.reg? = some v) ∨ P v ∧ ∀ p ∈ ps, v ≠ p + vBase := by
  induction ps generalizing as with
  | nil =>
    obtain rfl := List.eq_nil_of_length_eq_zero hlen
    exact .inr ⟨h, by simp⟩
  | cons p ps ih =>
    obtain ⟨a, as, rfl⟩ := List.exists_cons_of_length_eq_add_one hlen
    rcases h with ⟨a', ha', hv⟩ | ⟨hne, h⟩
    · obtain rfl := List.mem_singleton.mp ha'
      exact .inl ⟨a', List.mem_cons_self, hv⟩
    · rcases ih (Nat.succ_inj.mp hlen) h with ⟨a', ha', hv⟩ | ⟨hP, hps⟩
      · exact .inl ⟨a', List.mem_cons_of_mem _ ha', hv⟩
      · refine .inr ⟨hP, List.forall_mem_cons.mpr ⟨?_, hps⟩⟩
        rintro rfl
        exact hne rfl

/-- What the copy of a body reads first is a copy of what the body does, or read behind it. -/
theorem readFirst_cloneInsts {insts : List Inst} {B P : Nat → Prop}
    (h : readFirst (insts.map (cloneInst vBase)) (fun v => (∃ u, v = u + vBase ∧ B u) ∨ P v) v) :
    (∃ u, v = u + vBase ∧ readFirst insts B u) ∨ P v := by
  induction insts with
  | nil => exact h
  | cons inst insts ih =>
    rcases h with ⟨a, ha, hv⟩ | ⟨hne, h⟩
    · rw [operands_cloneInst, List.mem_map] at ha
      obtain ⟨a, ha, rfl⟩ := ha
      obtain ⟨u, hu, rfl⟩ := cloneVal_reg?.mp hv
      exact .inl ⟨u, rfl, .inl ⟨a, ha, hu⟩⟩
    · rcases ih h with ⟨u, rfl, hu⟩ | hP
      · refine .inl ⟨u, rfl, .inr ⟨fun hd => hne ?_, hu⟩⟩
        simp [cloneInst, hd]
      · exact .inr hP

/-- What the assignment of the result reads first. -/
theorem readFirst_inlineResult {bb : BasicBlock} {dst : Option Nat} {P : Nat → Prop}
    (hterm : bb.term = .Ret) (hret : dst ≠ none → bb.retHasVal = true)
    (h : readFirst (inlineResult vBase bb dst) P v) :
    (∃ u, v = u + vBase ∧ u ∈ bb.termUses) ∨ dst ≠ some v ∧ P v := by
  cases dst with
  | none => exact .inr ⟨by simp, h⟩
  | some d =>
    have hhas := hret (by simp)
    simp only [inlineResult, hhas, if_true] at h
    rcases h with ⟨a, ha, hv⟩ | h
    · obtain rfl := List.mem_singleton.mp ha
      obtain ⟨u, hu, rfl⟩ := cloneVal_reg?.mp hv
      exact .inl ⟨u, rfl, by simp [BasicBlock.termUses, hterm, hhas, hu]⟩
    · exact .inr h

/-- **Code with calls inlined reads first what it did.** -/
theorem Inlined.readFirst {callee : Inst → Option IRFunc} (hok : CalleeOk callee) {nv : Nat}
    {is js : List Inst} (h : Inlined callee nv is js) (hvalue : ValuesReturned callee is)
    {behind : Nat → Prop} (hread : ToyC.readFirst js behind v) : ToyC.readFirst is behind v := by
  induction h generalizing v with
  | nil => exact hread
  | keep _ _ ih =>
    exact hread.imp id fun h => ⟨h.1, ih (fun i hi => hvalue i (List.mem_cons_of_mem _ hi)) h.2⟩
  | @inline inst is js G vBase hG _ _ ih =>
    obtain ⟨hop, -, hlen, hinl⟩ := hok.call inst G hG
    have hcont := hok.contained inst G hG
    have htake : G.paramRegs.take G.numParams = G.paramRegs :=
      List.take_of_length_le (Nat.le_of_eq hcont.params)
    have hrest : ∀ v, ToyC.readFirst js behind v → ToyC.readFirst is behind v := fun _ =>
      ih fun i hi => hvalue i (List.mem_cons_of_mem _ hi)
    rw [inlineCall, htake, readFirst_append, readFirst_append, readFirst_append] at hread
    have hresult : ∀ v,
        ToyC.readFirst (inlineResult vBase (G.blockAt 0) inst.dst) (ToyC.readFirst js behind) v →
          (∃ u, v = u + vBase ∧ u ∈ (G.blockAt 0).termUses) ∨
            inst.dst ≠ some v ∧ ToyC.readFirst js behind v := fun _ =>
      readFirst_inlineResult (inlinable_blocks hinl).2 (hvalue inst List.mem_cons_self G hG)
    rcases readFirst_inlineParams (hlen.trans hcont.params.symm) hread with ⟨a, ha, hv⟩ | ⟨hv, hne⟩
    · exact .inl ⟨a, by simpa [Inst.operands, hop] using ha, hv⟩
    · rcases readFirst_cloneInsts (readFirst_mono hresult hv) with ⟨u, rfl, hu⟩ | ⟨hd, hv⟩
      · exact absurd rfl (hne u (hcont.reads u hu))
      · exact .inr ⟨hd, hrest v hv⟩

/-- A copy has its vregs in range. -/
theorem cloneInst_inRange {k : Nat} {inst : Inst} (h : inst.InRange k) :
    (cloneInst vBase inst).InRange (vBase + k) := by
  obtain ⟨huses, hdst⟩ := h
  constructor
  · intro v hv
    rcases List.mem_append.mp hv with hv | hv
    · obtain ⟨a', ha', hv⟩ := List.mem_filterMap.mp hv
      rw [operands_cloneInst, List.mem_map] at ha'
      obtain ⟨a, ha, rfl⟩ := ha'
      obtain ⟨u, hu, rfl⟩ := cloneVal_reg?.mp hv
      have := huses u (Inst.mem_uses ha hu)
      omega
    · have := huses v (List.mem_append_right _ hv)
      omega
  · have hset : ∀ d, d < k → d + vBase < vBase + k := fun d hd => by omega
    unfold cloneInst
    cases hop : inst.op <;> cases hd : inst.dst <;> rw [hop, hd] at hdst <;>
      first | exact hdst | exact hset _ hdst | exact hdst.elim | cases hdst

/-- An assignment has, if its vregs are. -/
theorem mv_inRange {k d : Nat} {a : Val} (hd : d < k) (ha : ∀ r, a.reg? = some r → r < k) :
    ({ op := .Mv, dst := some d, a } : Inst).InRange k := by
  refine ⟨fun v hv => ?_, hd⟩
  simp only [Inst.uses, Inst.operands, List.filterMap_cons, List.filterMap_nil] at hv
  cases hr : a.reg? with
  | none => simp [hr] at hv
  | some r =>
    obtain rfl : v = r := by simpa [hr] using hv
    exact ha v hr

/-- **What a call is replaced by has its vregs in range.** -/
theorem inlineCall_inRange {G : IRFunc} (hG : G.InRange) (hinl : inlinable G = true)
    {inst : Inst} (hop : inst.op = .Call) (hrange : inst.InRange vBase) :
    ∀ i ∈ inlineCall G vBase inst, i.InRange (vBase + G.numVregs) := by
  intro i hi
  have hterms := hG.terms _ (List.mem_of_getElem? (inlinable_blocks hinl).1)
  rcases List.mem_append.mp hi with hi | hi
  · rcases List.mem_append.mp hi with hi | hi
    · obtain ⟨p, hp, a, ha, rfl⟩ := mem_inlineParams hi
      have hp := hG.params p (List.mem_of_mem_take hp)
      refine mv_inRange (by omega) fun r hr => ?_
      have := hrange.1 r (Inst.mem_uses (by simpa [Inst.operands, hop] using ha) hr)
      omega
    · obtain ⟨j, hj, rfl⟩ := List.mem_map.mp hi
      exact cloneInst_inRange (hG.inst_inRange hj)
  · unfold inlineResult at hi
    split at hi
    · cases hi
    · rename_i d hd
      split at hi
      · rename_i hhas
        obtain rfl := List.mem_singleton.mp hi
        have hd := hrange.dst_lt hd
        refine mv_inRange (by omega) fun r hr => ?_
        obtain ⟨u, hu, rfl⟩ := cloneVal_reg?.mp hr
        have := hterms u (by simp [BasicBlock.termUses, (inlinable_blocks hinl).2, hhas, hu])
        omega
      · cases hi

section InRange

variable {callee : Inst → Option IRFunc} (hcallee : ∀ inst G, callee inst = some G →
  inst.op = .Call ∧ inlinable G = true ∧ G.InRange)
include hcallee

theorem inlineInsts_inRange {n : Nat} {insts : List Inst}
    (hrange : ∀ inst ∈ insts, inst.InRange n) :
    ∀ i ∈ (inlineInsts callee n insts).1, i.InRange (inlineInsts callee n insts).2.1 := by
  induction insts generalizing n with
  | nil => exact fun i hi => by cases hi
  | cons inst insts ih =>
    rw [List.forall_mem_cons] at hrange
    unfold inlineInsts
    split
    · rename_i G h
      have hle := (inlineInsts_inlined callee insts (Nat.le_refl (n + G.numVregs))).2
      have hrest := ih (n := n + G.numVregs) fun i hi => (hrange.2 i hi).mono (by omega)
      intro i hi
      rcases List.mem_append.mp hi with hi | hi
      · obtain ⟨hop, hinl, hG⟩ := hcallee inst G h
        exact (inlineCall_inRange hG hinl hop hrange.1 i hi).mono hle
      · exact hrest i hi
    · have hle := (inlineInsts_inlined callee insts (Nat.le_refl n)).2
      have hrest := ih hrange.2
      intro i hi
      rcases List.mem_cons.mp hi with rfl | hi
      · exact hrange.1.mono hle
      · exact hrest i hi

theorem inlineBlocks_inRange {n : Nat} {bbs : List BasicBlock}
    (hrange : ∀ bb ∈ bbs, ∀ inst ∈ bb.insts, inst.InRange n) :
    n ≤ (inlineBlocks callee n bbs).2.1 ∧ ∀ bb ∈ (inlineBlocks callee n bbs).1,
      ∀ i ∈ bb.insts, i.InRange (inlineBlocks callee n bbs).2.1 := by
  induction bbs generalizing n with
  | nil => exact ⟨Nat.le_refl n, fun bb hbb => by cases hbb⟩
  | cons bb bbs ih =>
    rw [List.forall_mem_cons] at hrange
    have hle := (inlineInsts_inlined callee bb.insts (Nat.le_refl n)).2
    have hinsts := inlineInsts_inRange hcallee hrange.1
    obtain ⟨hle', hrest⟩ := ih fun bb' hbb' i hi => (hrange.2 bb' hbb' i hi).mono hle
    refine ⟨Nat.le_trans hle hle', fun bb' hbb' => ?_⟩
    rcases List.mem_cons.mp hbb' with rfl | hbb'
    · exact fun i hi => (hinsts i hi).mono hle'
    · exact hrest bb' hbb'

end InRange

/-- An instruction of it is one it had, an assignment, or a copy of one of a callee. -/
theorem Inlined.mem {callee : Inst → Option IRFunc} {nv : Nat} {is js : List Inst}
    (h : Inlined callee nv is js) {inst : Inst} (hi : inst ∈ js) :
    inst ∈ is ∨ inst.op = .Mv ∨ ∃ i G vBase, callee i = some G ∧ ∃ j ∈ (G.blockAt 0).insts,
      inst = cloneInst vBase j := by
  induction h with
  | nil => exact .inl hi
  | keep _ _ ih =>
    rcases List.mem_cons.mp hi with rfl | hi
    · exact .inl List.mem_cons_self
    · exact (ih hi).imp_left (List.mem_cons_of_mem _)
  | @inline i is js G vBase hG _ _ ih =>
    rcases List.mem_append.mp hi with hi | hi
    · refine .inr ?_
      rcases List.mem_append.mp hi with hi | hi
      · rcases List.mem_append.mp hi with hi | hi
        · obtain ⟨p, -, a, -, rfl⟩ := mem_inlineParams hi
          exact .inl rfl
        · obtain ⟨j, hj, rfl⟩ := List.mem_map.mp hi
          exact .inr ⟨i, G, vBase, hG, j, hj, rfl⟩
      · unfold inlineResult at hi
        split at hi
        · cases hi
        · split at hi
          · obtain rfl := List.mem_singleton.mp hi
            exact .inl rfl
          · cases hi
    · exact (ih hi).imp_left (List.mem_cons_of_mem _)

/-- **The vregs of a function are still in range** when calls were inlined into it. -/
theorem inlineFunc_inRange {funcs : List IRFunc} {i : Nat}
    (hcallee : ∀ inst G, inlinedCallee funcs i inst = some G →
      inst.op = .Call ∧ inlinable G = true ∧ G.InRange)
    (hF : (funcs.getD i {}).InRange) : (inlineFunc funcs i).1.InRange := by
  obtain ⟨hle, hinsts⟩ := inlineBlocks_inRange hcallee hF.insts
  refine hF.of_sameFlow (inlineFunc_inlinedInto funcs i).flow hle fun b inst hi => ?_
  by_cases hb : b < (inlineFunc funcs i).1.blocks.length
  · exact hinsts _ (IRFunc.blockAt_mem hb) inst hi
  · rw [IRFunc.blockAt_of_ge hb] at hi
    cases hi

/-- **They are still its own.** -/
theorem contained_inlineFunc {funcs : List IRFunc} {i : Nat}
    (hok : CalleeOk (inlinedCallee funcs i)) (hF : (funcs.getD i {}).Contained)
    (hvalue : ∀ b, ValuesReturned (inlinedCallee funcs i) ((funcs.getD i {}).blockAt b).insts) :
    (inlineFunc funcs i).1.Contained := by
  have hinto := inlineFunc_inlinedInto funcs i
  refine ⟨inlineFunc_inRange (fun inst G hG => ?_) hF.inRange, hF.params, fun v hv => ?_⟩
  · obtain ⟨hop, -, -, hinl⟩ := hok.call inst G hG
    exact ⟨hop, hinl, (hok.contained inst G hG).inRange⟩
  · rw [hinto.flow.termUses] at hv
    exact hF.reads v ((hinto.insts 0).readFirst hok (hvalue 0) hv)

end Kept

/-! ## Sweeps -/

/-- **What inlining into one function keeps**, all the sweeps keep. -/
theorem inlineSweeps_keeps {P : List IRFunc → Prop}
    (hset : ∀ funcs i, i < funcs.length → P funcs → P (funcs.set i (inlineFunc funcs i).1)) (k : Nat)
    {funcs : List IRFunc} (h : P funcs) : P (inlineSweeps k funcs) := by
  have hfrom : ∀ k i funcs, P funcs → P (inlineFrom k i funcs).1 := by
    intro k
    induction k with
    | zero => exact fun _ _ h => h
    | succ k ih =>
      intro i funcs h
      refine ih (i + 1) (funcs.set i (inlineFunc funcs i).1) ?_
      by_cases hi : i < funcs.length
      · exact hset funcs i hi h
      · rwa [List.set_eq_of_length_le (Nat.le_of_not_lt hi)]
  induction k generalizing funcs with
  | zero => exact h
  | succ k ih =>
    unfold inlineSweeps
    dsimp only
    split
    · exact ih (hfrom _ _ _ h)
    · exact hfrom _ _ _ h

/-! ## A module -/

/-- **What inlining relies on in a module**, and keeps: functions with names and vregs of their own,
and one that is expected to return a value does, if it is one block. -/
structure Linked (funcs : List IRFunc) : Prop where
  names : (funcs.map (·.name)).Nodup
  contained : ∀ F ∈ funcs, F.Contained
  values : ∀ F ∈ funcs, ∀ b, ∀ inst ∈ (F.blockAt b).insts, inst.op = .Call → inst.dst ≠ none →
    ∀ G ∈ funcs, G.name = inst.callee → (G.blockAt 0).term = .Ret →
      (G.blockAt 0).retHasVal = true

section Module

variable {funcs : List IRFunc} {i : Nat} {F' : IRFunc}

/-- The callee that is inlined is another function with the name. -/
theorem inlinedCallee_eq_some {inst : Inst} {G : IRFunc}
    (h : inlinedCallee funcs i inst = some G) : inst.op = .Call ∧ inlinable G = true ∧
      inst.args.length = G.numParams ∧ inst.callee = G.name ∧ ∃ j ≠ i, funcs[j]? = some G := by
  unfold inlinedCallee at h
  split at h
  · rename_i hop
    split at h
    · cases h
    · rename_i j hj
      obtain ⟨⟨hne, hinl, hlen⟩, heq⟩ := Option.ite_none_right_eq_some.mp h
      obtain rfl := Option.some.inj heq
      have hmem := List.mem_of_find?_eq_some hj
      rw [List.mem_reverse, List.mem_range] at hmem
      have hname : (funcs.getD j {}).name = inst.callee := by simpa using List.find?_some hj
      exact ⟨hop, hinl, hlen, hname.symm, j, hne, by simp [hmem]⟩
  · cases h

theorem Linked.calleeOk (h : Linked funcs) : CalleeOk (inlinedCallee funcs i) where
  call inst G hG := by
    obtain ⟨hop, hinl, hlen, hname, -⟩ := inlinedCallee_eq_some hG
    exact ⟨hop, hname, hlen, hinl⟩
  contained inst G hG := by
    obtain ⟨-, -, -, -, j, -, hj⟩ := inlinedCallee_eq_some hG
    exact h.contained G (List.mem_of_getElem? hj)

theorem Linked.valuesReturned (h : Linked funcs) {F : IRFunc} (hF : F ∈ funcs) (b : Nat) :
    ValuesReturned (inlinedCallee funcs i) (F.blockAt b).insts := by
  intro inst hi G hG hd
  obtain ⟨hop, hinl, -, hname, j, -, hj⟩ := inlinedCallee_eq_some hG
  exact h.values F hF b inst hi hop hd G (List.mem_of_getElem? hj) hname.symm
    (inlinable_blocks hinl).2

/-- Looking up a name where one function was replaced by another of its name. -/
theorem find?_set (hi : i < funcs.length) (hname : F'.name = funcs[i].name) (x : String) :
    (funcs.set i F').find? (·.name == x) = funcs.find? (·.name == x) ∨
      funcs.find? (·.name == x) = some funcs[i] ∧
        (funcs.set i F').find? (·.name == x) = some F' := by
  induction funcs generalizing i with
  | nil => cases hi
  | cons G funcs ih =>
    cases i with
    | zero =>
      rw [List.set_cons_zero, List.find?_cons, List.find?_cons, show F'.name = G.name from hname]
      cases hx : G.name == x with
      | true => exact .inr ⟨rfl, rfl⟩
      | false => exact .inl rfl
    | succ i =>
      rw [List.set_cons_succ, List.find?_cons, List.find?_cons]
      cases hx : G.name == x with
      | true => exact .inl rfl
      | false => exact ih (Nat.lt_of_succ_lt_succ hi) hname

theorem find?_name (h : (funcs.map (·.name)).Nodup) {G : IRFunc} (hG : G ∈ funcs) :
    funcs.find? (·.name == G.name) = some G := by
  cases hfind : funcs.find? (·.name == G.name) with
  | none => simpa using List.find?_eq_none.mp hfind G hG
  | some G' =>
    have hname : G'.name = G.name := by simpa using List.find?_some hfind
    exact congrArg some (List.inj_on_of_nodup_map h (List.mem_of_find?_eq_some hfind) hG hname)

/-- **The limit answers the calls that are inlined** as the bodies of the callees do, before a
function was changed and after. -/
theorem answersAs_limit {m : IRModule} (hm : (m.funcs.map (·.name)).Nodup)
    (hG : ∀ inst G, inlinedCallee funcs i inst = some G → G ∈ m.funcs) (junk : Regs) :
    AnswersAs (inlinedCallee funcs i) (limit (m.body junk)) junk := by
  intro inst G hcallee args gs hlen
  obtain ⟨-, hinl, -, hname, -⟩ := inlinedCallee_eq_some hcallee
  obtain ⟨k, hk⟩ := exists_body_limit_add (m.body_regular junk) ⟨inst.callee, args, gs⟩
  obtain ⟨k', hk'⟩ := G.run_inlinable hinl hlen (limit (m.body junk)) junk gs
  have hfind : m.find inst.callee = some G := by
    rw [hname]
    exact find?_name hm (hG inst G hcallee)
  rw [← hk (k' + 1), ← hk' k, show k + (k' + 1) = k' + (k + 1) by omega, IRModule.body]
  simp only [hfind]

theorem map_name_set (hi : i < funcs.length) (hname : F'.name = funcs[i].name) :
    (funcs.set i F').map (·.name) = funcs.map (·.name) := by
  refine List.ext_getElem? fun k => ?_
  rw [List.getElem?_map, List.getElem?_map, List.getElem?_set]
  split
  · rename_i hk
    subst hk
    rw [List.getElem?_eq_getElem hi]
    simp [hname]
  · rfl

/-- **What inlining relies on stays** when calls are inlined into one function. -/
theorem Linked.set (h : Linked funcs) (hi : i < funcs.length) :
    Linked (funcs.set i (inlineFunc funcs i).1) := by
  have hgetD : funcs.getD i {} = funcs[i] := by simp [hi]
  have hF : funcs.getD i {} ∈ funcs := by
    rw [hgetD]
    exact List.getElem_mem hi
  have hinto := inlineFunc_inlinedInto funcs i
  have hmem : ∀ F ∈ funcs.set i (inlineFunc funcs i).1, F ∈ funcs ∨ F = (inlineFunc funcs i).1 :=
    fun F hF => List.mem_or_eq_of_mem_set hF
  have hret : ∀ inst : Inst, inst.op = .Call → inst.dst ≠ none →
      (∀ G ∈ funcs, G.name = inst.callee → (G.blockAt 0).term = .Ret →
        (G.blockAt 0).retHasVal = true) →
      ∀ G ∈ funcs.set i (inlineFunc funcs i).1, G.name = inst.callee → (G.blockAt 0).term = .Ret →
        (G.blockAt 0).retHasVal = true := by
    intro inst hop hd hall G hG hname hterm
    rcases hmem G hG with hG | rfl
    · exact hall G hG hname hterm
    · rw [hinto.flow.blocks 0] at hterm ⊢
      exact hall _ hF (hinto.name.symm.trans hname) hterm
  refine ⟨?_, fun F hF' => ?_, fun F hF' b inst hinst hop hd => hret inst hop hd ?_⟩
  · rw [map_name_set hi (hinto.name.trans (congrArg _ hgetD))]
    exact h.names
  · rcases hmem F hF' with hF' | rfl
    · exact h.contained F hF'
    · exact contained_inlineFunc h.calleeOk (h.contained _ hF) (h.valuesReturned hF)
  · rcases hmem F hF' with hF' | rfl
    · exact h.values F hF' b inst hinst hop hd
    · rcases (hinto.insts b).mem hinst with hinst | hmv | ⟨i₀, G, vBase, hG, j, hj, rfl⟩
      · exact h.values _ hF b inst hinst hop hd
      · rw [hmv] at hop
        cases hop
      · obtain ⟨-, -, -, -, k, -, hk⟩ := inlinedCallee_eq_some hG
        refine h.values G (List.mem_of_getElem? hk) 0 j hj hop fun hd' => hd ?_
        simp [cloneInst, hd']

/-- The bodies of a module stay below the limit of another one, whose function of some name does
what the first one's does. -/
theorem body_le_limit {m m' : IRModule} {F : IRFunc} {junk : Regs} {p : CallArgs}
    (hfind : m'.find p.name = m.find p.name ∨ m.find p.name = some F ∧ m'.find p.name = some F')
    (hrun : ∀ n, ∃ k, Flat (F.run (limit (m'.body junk)) junk n p.args p.globals)
      (F'.run (limit (m'.body junk)) junk k p.args p.globals)) (n : Nat) :
    Flat (m.body junk p (limit (m'.body junk)) n) (limit (m'.body junk) p) := by
  have hlimit := body_limit (m'.body_regular junk) p
  rcases hfind with hsame | ⟨hF, hF'⟩
  · have hbody : m.body junk p (limit (m'.body junk)) n =
        m'.body junk p (limit (m'.body junk)) n := by
      unfold IRModule.body
      rw [hsame]
    rw [hbody]
    exact hlimit n
  · obtain ⟨k, hk⟩ := hrun n
    have hbody : m.body junk p (limit (m'.body junk)) n =
        F.run (limit (m'.body junk)) junk n p.args p.globals := by
      rw [IRModule.body, hF]
    have hbody' : m'.body junk p (limit (m'.body junk)) k =
        F'.run (limit (m'.body junk)) junk k p.args p.globals := by
      rw [IRModule.body, hF']
    rw [hbody]
    exact precise_flat.trans hk (hbody' ▸ hlimit k)

/-- **Inlining into one function changes no call of the module.** -/
theorem Linked.limit_set (h : Linked funcs) (hi : i < funcs.length) (globals : List IRGlobal)
    (junk : Regs) :
    limit (IRModule.body ⟨globals, funcs⟩ junk) =
      limit (IRModule.body ⟨globals, funcs.set i (inlineFunc funcs i).1⟩ junk) := by
  have hgetD : funcs.getD i {} = funcs[i] := by simp [hi]
  have hF : funcs[i] ∈ funcs := List.getElem_mem hi
  have hinto := inlineFunc_inlinedInto funcs i
  rw [hgetD] at hinto
  have hset := h.set hi
  have hcallee : ∀ inst G, inlinedCallee funcs i inst = some G →
      G ∈ funcs ∧ G ∈ funcs.set i (inlineFunc funcs i).1 := by
    intro inst G hG
    obtain ⟨-, -, -, -, j, hne, hj⟩ := inlinedCallee_eq_some hG
    refine ⟨List.mem_of_getElem? hj, List.mem_of_getElem? (i := j) ?_⟩
    rw [List.getElem?_set_ne hne.symm, hj]
  have hrun := fun (m : IRModule)
      (hm : AnswersAs (inlinedCallee funcs i) (limit (m.body junk)) junk) =>
    hinto.run_le (h.contained _ hF).inRange (fun b => h.valuesReturned hF b) h.calleeOk hm
  have hfind : ∀ x, IRModule.find ⟨globals, funcs.set i (inlineFunc funcs i).1⟩ x =
        IRModule.find ⟨globals, funcs⟩ x ∨
      IRModule.find ⟨globals, funcs⟩ x = some funcs[i] ∧
        IRModule.find ⟨globals, funcs.set i (inlineFunc funcs i).1⟩ x =
          some (inlineFunc funcs i).1 :=
    find?_set hi hinto.name
  refine limit_congr (IRModule.body_regular _ junk) (IRModule.body_regular _ junk) ?_ ?_
  · refine fun p n => body_le_limit (hfind p.name) (fun n => ?_) n
    exact (hrun _ (answersAs_limit hset.names (fun inst G hG => (hcallee inst G hG).2) junk)
      p.args p.globals n).1
  · refine fun p n => body_le_limit ((hfind p.name).imp Eq.symm And.symm) (fun n => ?_) n
    exact (hrun _ (answersAs_limit h.names (fun inst G hG => (hcallee inst G hG).1) junk)
      p.args p.globals n).2

/-- **Sweeps keep all of this.** -/
theorem Linked.inlineSweeps (h : Linked funcs) (k : Nat) :
    Linked (ToyC.inlineSweeps k funcs) ∧ ∀ globals junk,
      limit (IRModule.body ⟨globals, funcs⟩ junk) =
        limit (IRModule.body ⟨globals, ToyC.inlineSweeps k funcs⟩ junk) := by
  refine inlineSweeps_keeps (P := fun Fs => Linked Fs ∧ ∀ globals junk,
    limit (IRModule.body ⟨globals, funcs⟩ junk) = limit (IRModule.body ⟨globals, Fs⟩ junk))
    (fun Fs i hi hFs => ⟨hFs.1.set hi, fun globals junk => ?_⟩) k ⟨h, fun _ _ => rfl⟩
  exact (hFs.2 globals junk).trans (hFs.1.limit_set hi globals junk)

end Module

/-! ## The pass -/

/-- What is read first in the first block is live at the entry. -/
theorem IRFunc.liveAt_of_readFirst {F : IRFunc} {b : Nat} {insts : List Inst} {v : Nat}
    (h : readFirst insts (· ∈ (F.blockAt b).termUses) v) : F.LiveAt b insts v := by
  induction insts with
  | nil => exact .term h
  | cons inst insts ih =>
    rcases h with ⟨a, ha, hv⟩ | ⟨hne, h⟩
    · exact .read (Inst.mem_uses ha hv)
    · exact .pass hne (ih h)

/-- **A function that returns a value**: every return that can be reached has one. -/
def IRFunc.ReturnsValue (F : IRFunc) : Prop :=
  ∀ b path, F.PathTo b path → (F.blockAt b).term = .Ret → (F.blockAt b).retHasVal = true

/-- **The calls for a value get one**: the functions they name return a value. -/
def IRModule.ValuesReturned (m : IRModule) : Prop :=
  ∀ F ∈ m.funcs, ∀ inst ∈ F.insts, inst.op = .Call → inst.dst ≠ none →
    ∀ G ∈ m.funcs, G.name = inst.callee → G.ReturnsValue

/-- What inlining relies on, in terms of the paths of the functions. -/
theorem IRModule.linked {m : IRModule} (hnames : m.funcNames.Nodup)
    (hfuncs : ∀ F ∈ m.funcs, F.InRange ∧ F.paramRegs.length = F.numParams ∧ F.ReadsWritten)
    (hvalues : m.ValuesReturned) : Linked m.funcs := by
  refine ⟨hnames, fun F hF => ?_, fun F hF b inst hi hop hd G hG hname hterm => ?_⟩
  · obtain ⟨hrange, hparams, hwritten⟩ := hfuncs F hF
    exact ⟨hrange, hparams, fun v hv => hwritten v (IRFunc.liveAt_of_readFirst hv)⟩
  · refine hvalues F hF inst (IRFunc.mem_insts_iff.mpr ⟨b, hi⟩) hop hd G hG hname 0 [0] ?_ hterm
    exact ⟨rfl, rfl, List.isChain_singleton 0⟩

/-- **Inlining preserves meaning**: in a module whose functions have names of their own and read no
vreg before it is written, and whose calls expect a value only of functions that return one, a call
returns with a result before the pass if and only if it does after it. -/
theorem inlineFunctions_returns {m : IRModule} (hnames : m.funcNames.Nodup)
    (hfuncs : ∀ F ∈ m.funcs, F.InRange ∧ F.paramRegs.length = F.numParams ∧ F.ReadsWritten)
    (hvalues : ∀ F ∈ m.funcs, ∀ inst ∈ F.insts, inst.op = .Call → inst.dst ≠ none →
      ∀ G ∈ m.funcs, G.name = inst.callee → G.ReturnsValue)
    (junk : Regs) (p : CallArgs) (r : CallResult) :
    m.Returns junk p r ↔ (inlineFunctions m).Returns junk p r := by
  have hlinked := m.linked hnames hfuncs hvalues
  rw [m.returns_iff, IRModule.returns_iff, (hlinked.inlineSweeps 5).2 m.globals junk]
  rfl

/-- `int twice(int x) { x = x + x; return x; }`. -/
def twiceFunc : IRFunc where
  name := "twice"
  numParams := 1
  paramRegs := [0]
  numVregs := 2
  blocks := [{
    insts := [{ op := .Add, dst := some 1, a := .reg 0, b := .reg 0 },
      { op := .Mv, dst := some 0, a := .reg 1 }]
    term := .Ret
    retHasVal := true
    retVal := .reg 0 }]

/-- `int main() { return twice(twice(3)); }`. -/
def twiceMain : IRFunc where
  name := "main"
  numVregs := 2
  blocks := [{
    insts := [{ op := .Call, dst := some 0, callee := "twice", args := [.imm 3] },
      { op := .Call, dst := some 1, callee := "twice", args := [.reg 0] }]
    term := .Ret
    retHasVal := true
    retVal := .reg 1 }]

/-- Behind the pass, the calls of `twice` are gone and the value is what it was. -/
theorem inlineFunctions_returns_twice :
    (inlineFunctions { funcs := [twiceFunc, twiceMain] }).Returns (fun _ => 0)
      ⟨"main", [], fun _ => 0⟩ (some 12, fun _ => 0) := by
  have hret : ∀ F ∈ [twiceFunc, twiceMain], F.ReturnsValue := by
    intro F hF b path _ hterm
    by_cases hb : b < F.blocks.length
    · have hall : ∀ F ∈ [twiceFunc, twiceMain], ∀ b < F.blocks.length,
          (F.blockAt b).retHasVal = true := by decide
      exact hall F hF b hb
    · rw [IRFunc.blockAt_of_ge hb] at hterm
      cases hterm
  refine (inlineFunctions_returns (by decide) ?_ (fun _ _ _ _ _ _ G hG _ => hret G hG) _ _ _).mp
    ⟨9, rfl⟩
  have hwritten : twiceFunc.ReadsWritten ∧ twiceMain.ReadsWritten :=
    ⟨IRFunc.readsWritten_of_bound (fun _ => [0]) (by decide) (by decide) (by decide),
      IRFunc.readsWritten_of_bound (fun _ => [1]) (by decide) (by decide) (by decide)⟩
  intro F hF
  rcases List.mem_pair.mp hF with rfl | rfl
  · exact ⟨by constructor <;> decide, rfl, hwritten.1⟩
  · exact ⟨by constructor <;> decide, rfl, hwritten.2⟩

end ToyC
