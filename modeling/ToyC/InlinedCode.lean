import ToyC.Inlining
import ToyC.IRRuns
import ToyC.Loops

/-!
# Code with calls inlined

An inlined call is compared with the call it replaces against an oracle that answers the call as
the body of the callee does (`AnswersAs`). Since the callee is one block, its body is straight-line
code; the copy of it in the caller runs on the same values in other vregs (`cloneInsts_related`), as
far as they are read before they are written, and the rest of the caller's vregs keep their values.
So the caller does in big steps, block by block, what it did before (`InlinedInto.run_le`).
-/

namespace ToyC

open Machine Outcome

/-! ## Straight-line code -/

/-- Execute some instructions. -/
def execInsts (call : Callee) : List Inst → Regs → Globals → Outcome (Regs × Globals)
  | [], R, G => .ok (R, G)
  | inst :: insts, R, G => inst.exec call R G >>= fun p => execInsts call insts p.1 p.2

theorem execInsts_append (call : Callee) (is js : List Inst) (R : Regs) (G : Globals) :
    execInsts call (is ++ js) R G =
      execInsts call is R G >>= fun p => execInsts call js p.1 p.2 := by
  induction is generalizing R G with
  | nil => rfl
  | cons inst is ih =>
    rw [List.cons_append, execInsts, execInsts, Outcome.bind_assoc]
    exact congrArg _ (funext fun p => ih p.1 p.2)

/-- **A block is a big step**: its instructions, and what its end makes of the result. -/
theorem IRFunc.bigStep_block (F : IRFunc) (call : Callee) (b : Nat) (insts : List Inst) (R : Regs)
    (G : Globals) :
    BigStep (F.step call) ⟨b, insts, R, G⟩
      (execInsts call insts R G >>= fun p => F.step call ⟨b, [], p.1, p.2⟩) := by
  refine ⟨insts.length, fun n => ?_⟩
  induction insts generalizing R G with
  | nil =>
    rw [List.length_nil, Nat.zero_add, run_succ]
    rfl
  | cons inst insts ih =>
    rw [List.length_cons, Nat.succ_add, run_succ]
    have hstep : F.step call ⟨b, inst :: insts, R, G⟩ =
        inst.exec call R G >>= fun p => .ok (.inl ⟨b, insts, p.1, p.2⟩) := rfl
    rw [hstep, execInsts, Outcome.bind_assoc, Outcome.bind_assoc, Outcome.bind_assoc]
    exact congrArg _ (funext fun p => (ih p.1 p.2).trans (Outcome.bind_assoc _ _ _))

/-- A function that may be inlined is one block, which returns. -/
theorem inlinable_blocks {G : IRFunc} (hG : inlinable G = true) :
    G.blocks[0]? = some (G.blockAt 0) ∧ (G.blockAt 0).term = .Ret := by
  simp only [inlinable, Bool.and_eq_true, decide_eq_true_eq] at hG
  exact ⟨IRFunc.getElem?_blocks (by omega), hG.1.1.2⟩

/-- **What the body of a one-block function does.** -/
def IRFunc.runBlock (G : IRFunc) (call : Callee) (junk : Regs) (args : List Word) (gs : Globals) :
    Outcome CallResult :=
  execInsts call (G.blockAt 0).insts (IRFunc.entryRegs junk G.paramRegs args) gs >>= fun p =>
    .ok (if (G.blockAt 0).retHasVal then some ((G.blockAt 0).retVal.eval p.1) else none, p.2)

/-- With enough fuel, that is what running the function does. -/
theorem IRFunc.run_inlinable {G : IRFunc} (hG : inlinable G = true) {args : List Word}
    (hlen : args.length = G.paramRegs.length) (call : Callee) (junk : Regs) (gs : Globals) :
    ∃ k, ∀ n, G.run call junk (k + (n + 1)) args gs = G.runBlock call junk args gs := by
  obtain ⟨hblock, hterm⟩ := inlinable_blocks hG
  have hne : G.blocks ≠ [] := by
    rintro hnil
    rw [hnil] at hblock
    cases hblock
  have hend : ∀ R gs', G.step call ⟨0, [], R, gs'⟩ =
      .ok (.inr (if (G.blockAt 0).retHasVal then some ((G.blockAt 0).retVal.eval R) else none,
        gs')) := by
    intro R gs'
    simp only [IRFunc.step, hblock, IRFunc.execTerm, hterm]
  obtain ⟨k, hk⟩ := G.bigStep_block call 0 (G.blockAt 0).insts
    (IRFunc.entryRegs junk G.paramRegs args) gs
  refine ⟨k, fun n => ?_⟩
  rw [IRFunc.run_eq call junk _ gs hlen hne]
  refine (hk n).trans ?_
  rw [Outcome.bind_assoc]
  exact congrArg _ (funext fun p => by rw [hend]; rfl)

/-! ## The copy of the body -/

/-- **What some code reads before it writes it**, from what is read behind it. -/
def readFirst : List Inst → (Nat → Prop) → Nat → Prop
  | [], behind, v => behind v
  | inst :: rest, behind, v =>
    (∃ a ∈ inst.operands, a.reg? = some v) ∨ inst.dst ≠ some v ∧ readFirst rest behind v

/-- **The copy of the callee's state**: what counts of its vregs has its value in the caller, and
the caller's own vregs are as they were. -/
structure Copied (vBase : Nat) (S : Nat → Prop) (R₀ R R' : Regs) : Prop where
  vregs : ∀ v, S v → R' (v + vBase) = R v
  below : ∀ v < vBase, R' v = R₀ v

section Clone

variable {vBase : Nat} {R₀ R R' : Regs} {S : Nat → Prop}

theorem Copied.mono {T : Nat → Prop} (h : Copied vBase S R₀ R R') (hT : ∀ v, T v → S v) :
    Copied vBase T R₀ R R' :=
  ⟨fun v hv => h.vregs v (hT v hv), h.below⟩

theorem cloneVal_eval (h : Copied vBase S R₀ R R') {a : Val} (ha : ∀ v, a.reg? = some v → S v) :
    (cloneVal vBase a).eval R' = a.eval R := by
  cases a with
  | imm i => rfl
  | reg r => exact h.vregs r (ha r rfl)

/-- A result is written to the copy of its vreg. -/
theorem Copied.set {T : Nat → Prop} (h : Copied vBase S R₀ R R') {d : Nat}
    (hT : ∀ v, v ≠ d → T v → S v) (w : Word) :
    Copied vBase T R₀ (R.set d w) (R'.set (d + vBase) w) where
  vregs v hv := by
    by_cases hd : v = d
    · subst hd
      rw [R'.set_same, R.set_same]
    · rw [R.set_of_ne w hd, R'.set_of_ne w (by omega)]
      exact h.vregs v (hT v hd hv)
  below v hv := by
    rw [R'.set_of_ne w (by omega)]
    exact h.below v hv

/-- **An instruction and its copy** do the same. -/
theorem cloneInst_related (call : Callee) {inst : Inst} {rest : List Inst} {behind : Nat → Prop}
    (hstore : inst.op = .StoreGlobal → inst.dst = none) (gs : Globals)
    (h : Copied vBase (readFirst (inst :: rest) behind) R₀ R R') :
    Related (fun p p' => Copied vBase (readFirst rest behind) R₀ p.1 p'.1 ∧ p'.2 = p.2)
      (inst.exec call R gs) ((cloneInst vBase inst).exec call R' gs) := by
  have heval : ∀ a ∈ inst.operands, (cloneVal vBase a).eval R' = a.eval R := fun a ha =>
    cloneVal_eval h fun v hv => .inl ⟨a, ha, hv⟩
  have hset : ∀ d, inst.dst = some d → ∀ w, Copied vBase (readFirst rest behind) R₀
      (R.set d w) (R'.set (d + vBase) w) := fun d hd w =>
    h.set (fun v hv hread => .inr ⟨fun hv' => hv (Option.some.inj (hv'.symm.trans hd)), hread⟩) w
  have hkeep : inst.dst = none → Copied vBase (readFirst rest behind) R₀ R R' := fun hd =>
    ⟨fun v hv => h.vregs v (.inr ⟨by simp [hd], hv⟩), h.below⟩
  have hwrite : ∀ w, Copied vBase (readFirst rest behind) R₀ (R.write inst.dst w)
      (R'.write (inst.dst.map (· + vBase)) w) := by
    intro w
    cases hd : inst.dst with
    | none => exact hkeep hd
    | some d => exact hset d hd w
  unfold Inst.exec cloneInst
  unfold Inst.operands at heval
  cases hop : inst.op with
  | Call =>
    rw [hop] at heval
    have hargs : (inst.args.map (cloneVal vBase)).map (·.eval R') = inst.args.map (·.eval R) := by
      rw [List.map_map]
      exact List.map_congr_left heval
    simp only [hargs]
    cases call ⟨inst.callee, inst.args.map (·.eval R), gs⟩ with
    | timeout => exact .timeout
    | stuck => exact .stuck
    | ok a =>
      obtain ⟨v, gs'⟩ := a
      cases hd : inst.dst with
      | none => exact .ok ⟨hkeep hd, rfl⟩
      | some d =>
        cases v with
        | none => exact .stuck
        | some w => exact .ok ⟨hset d hd w, rfl⟩
  | LoadGlobal => exact .ok ⟨hwrite _, rfl⟩
  | StoreGlobal =>
    rw [hop] at heval
    refine .ok ⟨hkeep (hstore hop), ?_⟩
    simp only [heval inst.a List.mem_cons_self]
  | Mv | Neg | Not =>
    rw [hop] at heval
    simp only [heval inst.a List.mem_cons_self]
    exact .ok ⟨hwrite _, rfl⟩
  | _ =>
    rw [hop] at heval
    simp only [heval inst.a List.mem_cons_self,
      heval inst.b (List.mem_cons_of_mem _ List.mem_cons_self)]
    exact .ok ⟨hwrite _, rfl⟩

/-- **A body and its copy** do the same. -/
theorem cloneInsts_related (call : Callee) {insts : List Inst} {behind : Nat → Prop}
    (hstore : ∀ inst ∈ insts, inst.op = .StoreGlobal → inst.dst = none) (gs : Globals)
    (h : Copied vBase (readFirst insts behind) R₀ R R') :
    Related (fun p p' => Copied vBase behind R₀ p.1 p'.1 ∧ p'.2 = p.2)
      (execInsts call insts R gs) (execInsts call (insts.map (cloneInst vBase)) R' gs) := by
  induction insts generalizing R R' gs with
  | nil => exact .ok ⟨h, rfl⟩
  | cons inst insts ih =>
    rw [List.forall_mem_cons] at hstore
    refine (cloneInst_related call hstore.1 gs h).bind fun p p' hp => ?_
    obtain ⟨hcopied, hgs⟩ := hp
    rw [hgs]
    exact ih hstore.2 p.2 hcopied

/-- **The arguments are assigned** to the copies of the parameters. -/
theorem inlineParams_exec (call : Callee) (gs : Globals) {ps : List Nat} {as : List Val}
    (hlen : as.length = ps.length) (has : ∀ a ∈ as, ∀ r, a.reg? = some r → r < vBase)
    (h : Copied vBase S R₀ R R') :
    ∃ R₁, execInsts call (inlineParams vBase ps as) R' gs = .ok (R₁, gs) ∧
      Copied vBase (fun v => v ∈ ps ∨ S v) R₀
        (IRFunc.entryRegs R ps (as.map (·.eval R₀))) R₁ := by
  induction ps generalizing as R R' S with
  | nil =>
    obtain rfl := List.eq_nil_of_length_eq_zero hlen
    exact ⟨R', rfl, h.mono fun v hv => hv.resolve_left List.not_mem_nil⟩
  | cons p ps ih =>
    obtain ⟨a, as, rfl⟩ := List.exists_cons_of_length_eq_add_one hlen
    rw [List.forall_mem_cons] at has
    have ha : a.eval R' = a.eval R₀ := Val.eval_congr fun r hr => h.below r (has.1 r hr)
    have hset : Copied vBase (fun v => v = p ∨ S v) R₀ (R.set p (a.eval R₀))
        (R'.set (p + vBase) (a.eval R₀)) :=
      h.set (fun v hv hS => hS.resolve_left hv) _
    obtain ⟨R₁, hexec, hcopied⟩ := ih (Nat.succ_inj.mp hlen) has.2 hset
    refine ⟨R₁, ?_, hcopied.mono fun v hv => ?_⟩
    · show execInsts call _ (R'.set (p + vBase) (a.eval R')) gs = _
      rw [ha]
      exact hexec
    · rcases hv with hv | hv
      · exact (List.mem_cons.mp hv).elim (fun h => .inr (.inl h)) .inl
      · exact .inr (.inr hv)

end Clone

/-! ## One call -/

/-- A store has no result. -/
theorem Inst.InRange.dst_none {nv : Nat} {inst : Inst} (h : inst.InRange nv)
    (hop : inst.op = .StoreGlobal) : inst.dst = none := by
  obtain ⟨-, h⟩ := h
  rw [hop] at h
  exact h

/-- **A function whose vregs are its own**: they are in range, there is one for each parameter, and
its first block reads no other before it writes it. -/
structure IRFunc.Contained (F : IRFunc) : Prop where
  inRange : F.InRange
  params : F.paramRegs.length = F.numParams
  reads : ∀ v, readFirst (F.blockAt 0).insts (· ∈ (F.blockAt 0).termUses) v → v ∈ F.paramRegs

/-- **States of the caller** that agree on its own vregs. -/
def Agrees (nv : Nat) (p p' : Regs × Globals) : Prop := (∀ v < nv, p'.1 v = p.1 v) ∧ p'.2 = p.2

/-- **An inlined call does what the call did**, if that is what the body of the callee does. -/
theorem inlineCall_related {G : IRFunc} (hG : G.Contained) (hinl : inlinable G = true)
    {call : Callee} {junk : Regs} {inst : Inst} (hop : inst.op = .Call)
    (hcall : ∀ args gs, args.length = G.paramRegs.length →
      call ⟨inst.callee, args, gs⟩ = G.runBlock call junk args gs)
    (hlen : inst.args.length = G.numParams)
    (hret : inst.dst ≠ none → (G.blockAt 0).retHasVal = true) {nv vBase : Nat}
    (hrange : inst.InRange nv) (hnv : nv ≤ vBase) {R R' : Regs} (gs : Globals)
    (hR : ∀ v < nv, R' v = R v) :
    Related (Agrees nv) (inst.exec call R gs) (execInsts call (inlineCall G vBase inst) R' gs) := by
  have hargs : ∀ a ∈ inst.args, ∀ r, a.reg? = some r → r < nv := fun a ha r hr =>
    hrange.1 r (Inst.mem_uses (by simpa [Inst.operands, hop] using ha) hr)
  have hlen' : inst.args.length = G.paramRegs.length := hlen.trans hG.params.symm
  have hvalues : inst.args.map (·.eval R) = inst.args.map (·.eval R') :=
    List.map_congr_left fun a ha => Val.eval_congr fun r hr => (hR r (hargs a ha r hr)).symm
  have hnone : Copied vBase (fun _ => False) R' junk R' := ⟨fun _ hv => hv.elim, fun _ _ => rfl⟩
  obtain ⟨R₁, hexec, hcopied⟩ := inlineParams_exec call gs hlen'
    (fun a ha r hr => (hargs a ha r hr).trans_le hnv) hnone
  have hbody := cloneInsts_related call (fun inst hi hs => (hG.inRange.inst_inRange hi).dst_none hs)
    gs (hcopied.mono fun v hv => .inl (hG.reads v hv))
  have hleft : inst.exec call R gs = execInsts call (G.blockAt 0).insts
      (IRFunc.entryRegs junk G.paramRegs (inst.args.map (·.eval R'))) gs >>= fun p =>
        R.writeResult inst.dst (if (G.blockAt 0).retHasVal then
          some ((G.blockAt 0).retVal.eval p.1) else none) >>= fun R => .ok (R, p.2) := by
    unfold Inst.exec
    simp only [hop, hvalues]
    rw [hcall _ _ (by rw [List.length_map, hlen']), IRFunc.runBlock, Outcome.bind_assoc]
    rfl
  have htake : G.paramRegs.take G.numParams = G.paramRegs :=
    List.take_of_length_le (Nat.le_of_eq hG.params)
  rw [hleft, inlineCall, htake, List.append_assoc, execInsts_append, hexec, Outcome.ok_bind,
    execInsts_append]
  refine hbody.bind fun p p' hp => ?_
  obtain ⟨hp, hgs⟩ := hp
  cases hd : inst.dst with
  | none =>
    refine .ok ⟨fun v hv => ?_, hgs⟩
    rw [hp.below v (hv.trans_le hnv), hR v hv]
  | some d =>
    have hhas := hret (by simp [hd])
    have hterm := (inlinable_blocks hinl).2
    have hval : (cloneVal vBase (G.blockAt 0).retVal).eval p'.1 = (G.blockAt 0).retVal.eval p.1 :=
      cloneVal_eval hp fun v hv => by simp [BasicBlock.termUses, hterm, hhas, hv]
    simp only [inlineResult, hhas, if_true]
    refine .ok ⟨fun v hv => ?_, hgs⟩
    show p'.1.set d ((cloneVal vBase (G.blockAt 0).retVal).eval p'.1) v =
      R.set d ((G.blockAt 0).retVal.eval p.1) v
    rw [hval]
    by_cases hvd : v = d
    · rw [hvd, Regs.set_same, Regs.set_same]
    · rw [Regs.set_of_ne _ _ hvd, Regs.set_of_ne _ _ hvd, hp.below v (hv.trans_le hnv), hR v hv]

/-! ## A piece of code -/

/-- **Code with some calls inlined**, the copies of the callees' vregs behind some number of the
caller's. -/
inductive Inlined (callee : Inst → Option IRFunc) (nv : Nat) : List Inst → List Inst → Prop where
  | nil : Inlined callee nv [] []
  | keep {inst : Inst} {is js : List Inst} (h : callee inst = none)
      (hrest : Inlined callee nv is js) : Inlined callee nv (inst :: is) (inst :: js)
  | inline {inst : Inst} {is js : List Inst} {G : IRFunc} {vBase : Nat} (h : callee inst = some G)
      (hv : nv ≤ vBase) (hrest : Inlined callee nv is js) :
      Inlined callee nv (inst :: is) (inlineCall G vBase inst ++ js)

section Code

variable {callee : Inst → Option IRFunc} {nv n : Nat}

/-- That is what the pass makes of a piece of code. -/
theorem inlineInsts_inlined (callee : Inst → Option IRFunc) (insts : List Inst) (hn : nv ≤ n) :
    Inlined callee nv insts (inlineInsts callee n insts).1 ∧
      n ≤ (inlineInsts callee n insts).2.1 := by
  induction insts generalizing n with
  | nil => exact ⟨.nil, Nat.le_refl n⟩
  | cons inst insts ih =>
    unfold inlineInsts
    split
    · rename_i G h
      obtain ⟨hinl, hle⟩ := ih (n := n + G.numVregs) (by omega)
      exact ⟨.inline h hn hinl, Nat.le_trans (Nat.le_add_right n _) hle⟩
    · rename_i h
      obtain ⟨hinl, hle⟩ := ih hn
      exact ⟨.keep h hinl, hle⟩

/-- **What may be inlined**: calls, with the right number of arguments, of functions whose vregs are
their own. -/
structure CalleeOk (callee : Inst → Option IRFunc) : Prop where
  call : ∀ inst G, callee inst = some G → inst.op = .Call ∧ inst.callee = G.name ∧
    inst.args.length = G.numParams ∧ inlinable G = true
  contained : ∀ inst G, callee inst = some G → G.Contained

/-- **An expected value is returned** by what is inlined. -/
def ValuesReturned (callee : Inst → Option IRFunc) (insts : List Inst) : Prop :=
  ∀ inst ∈ insts, ∀ G, callee inst = some G → inst.dst ≠ none → (G.blockAt 0).retHasVal = true

/-- **An oracle that answers the inlined calls** as the bodies of the callees do. -/
def AnswersAs (callee : Inst → Option IRFunc) (call : Callee) (junk : Regs) : Prop :=
  ∀ inst G, callee inst = some G → ∀ args gs, args.length = G.paramRegs.length →
    call ⟨inst.callee, args, gs⟩ = G.runBlock call junk args gs

/-- **Code with calls inlined does what it did.** -/
theorem Inlined.related {call : Callee} {junk : Regs} (hok : CalleeOk callee)
    (hanswer : AnswersAs callee call junk) {is js : List Inst} (h : Inlined callee nv is js)
    (hvalue : ValuesReturned callee is) (hrange : ∀ inst ∈ is, inst.InRange nv) {R R' : Regs}
    (gs : Globals) (hR : ∀ v < nv, R' v = R v) :
    Related (Agrees nv) (execInsts call is R gs) (execInsts call js R' gs) := by
  induction h generalizing R R' gs with
  | nil => exact .ok ⟨hR, rfl⟩
  | @keep inst is js _ _ ih =>
    rw [List.forall_mem_cons] at hrange
    have hrest : ValuesReturned callee is := fun i hi => hvalue i (List.mem_cons_of_mem _ hi)
    have hexec : Related (Agrees nv) (inst.exec call R gs) (inst.exec call R' gs) := by
      rcases inst.exec_agreeOn (S := (· < nv)) call gs hrange.1.1 (fun v hv => (hR v hv).symm) with
        ⟨R₁, R₁', gs₁, h₁, h₁', hagree⟩ | ⟨h₁, h₁'⟩ | ⟨h₁, h₁'⟩
      · rw [h₁, h₁']
        exact .ok ⟨fun v hv => (hagree v hv).symm, rfl⟩
      · rw [h₁, h₁']
        exact .timeout
      · rw [h₁, h₁']
        exact .stuck
    refine hexec.bind fun p p' hp => ?_
    rw [hp.2]
    exact ih hrest hrange.2 p.2 hp.1
  | @inline inst is js G vBase hG hv _ ih =>
    rw [List.forall_mem_cons] at hrange
    have hrest : ValuesReturned callee is := fun i hi => hvalue i (List.mem_cons_of_mem _ hi)
    obtain ⟨hop, -, hlen, hinl⟩ := hok.call inst G hG
    rw [execInsts, execInsts_append]
    refine (inlineCall_related (hok.contained inst G hG) hinl hop (hanswer inst G hG) hlen
      (hvalue inst List.mem_cons_self G hG) hrange.1 hv gs hR).bind fun p p' hp => ?_
    rw [hp.2]
    exact ih hrest hrange.2 p.2 hp.1

end Code

/-! ## A function -/

/-- **A function with some of its calls inlined.** -/
structure InlinedInto (callee : Inst → Option IRFunc) (F F' : IRFunc) : Prop where
  name : F'.name = F.name
  numParams : F'.numParams = F.numParams
  flow : SameFlow F F'
  insts : ∀ b, Inlined callee F.numVregs (F.blockAt b).insts (F'.blockAt b).insts

section Function

variable {callee : Inst → Option IRFunc}

theorem inlineBlocks_spec (callee : Inst → Option IRFunc) (bbs : List BasicBlock) {nv n : Nat}
    (hn : nv ≤ n) :
    (inlineBlocks callee n bbs).1.length = bbs.length ∧
      ∀ b, ((inlineBlocks callee n bbs).1.getD b {} =
          { bbs.getD b {} with insts := ((inlineBlocks callee n bbs).1.getD b {}).insts }) ∧
        Inlined callee nv (bbs.getD b {}).insts
          ((inlineBlocks callee n bbs).1.getD b {}).insts := by
  induction bbs generalizing n with
  | nil => exact ⟨rfl, fun b => ⟨by simp [inlineBlocks], by simpa [inlineBlocks] using .nil⟩⟩
  | cons bb bbs ih =>
    obtain ⟨hinl, hle⟩ := inlineInsts_inlined callee bb.insts hn
    obtain ⟨hlen, hblocks⟩ := ih (Nat.le_trans hn hle)
    refine ⟨congrArg (· + 1) hlen, fun b => ?_⟩
    cases b with
    | zero => exact ⟨rfl, hinl⟩
    | succ b => exact hblocks b

/-- That is what the pass makes of the function with a number. -/
theorem inlineFunc_inlinedInto (funcs : List IRFunc) (i : Nat) :
    InlinedInto (inlinedCallee funcs i) (funcs.getD i {}) (inlineFunc funcs i).1 := by
  obtain ⟨hlen, hblocks⟩ := inlineBlocks_spec (inlinedCallee funcs i) (funcs.getD i {}).blocks
    (Nat.le_refl (funcs.getD i {}).numVregs)
  exact ⟨rfl, rfl, ⟨rfl, hlen, fun b => (hblocks b).1⟩, fun b => (hblocks b).2⟩

variable {F F' : IRFunc} {call : Callee} {junk : Regs}

/-- The two functions at the start of a block, with the same values of the caller's own vregs. -/
def AtBlock (F F' : IRFunc) (c c' : Config) : Prop :=
  ∃ b R R' gs, c = F.start b R gs ∧ c' = F'.start b R' gs ∧ ∀ v < F.numVregs, R' v = R v

/-- At the end of a block both go on at the same one, or return the same. -/
theorem InlinedInto.step_end (h : InlinedInto callee F F') (hF : F.InRange) (b : Nat)
    {p p' : Regs × Globals} (hp : Agrees F.numVregs p p') :
    Related (Sum.LiftRel (AtBlock F F') Eq) (F.step call ⟨b, [], p.1, p.2⟩)
      (F'.step call ⟨b, [], p'.1, p'.2⟩) := by
  have hterm : ∀ r ∈ (F.blockAt b).termUses, p.1 r = p'.1 r := fun r hr =>
    (hp.1 r (hF.termUses_lt hr)).symm
  rw [← hp.2]
  rcases IRFunc.step_end_agree h.flow.length (h.flow.blocks b) call hterm with
    ⟨r, h₁, h₂⟩ | ⟨h₁, h₂⟩ | ⟨s, -, -, h₁, h₂⟩
  · rw [h₁, h₂]
    exact .ok (.inr rfl)
  · rw [h₁, h₂]
    exact .stuck
  · rw [h₁, h₂]
    exact .ok (.inl ⟨s, p.1, p'.1, _, rfl, rfl, hp.1⟩)

/-- **Block by block both do the same.** -/
theorem InlinedInto.bigSteps (h : InlinedInto callee F F') (hF : F.InRange)
    (hvalue : ∀ b, ValuesReturned callee (F.blockAt b).insts) (hok : CalleeOk callee)
    (hanswer : AnswersAs callee call junk) {c c' : Config} (hc : AtBlock F F' c c') :
    ∃ x y, BigStep (F.step call) c x ∧ BigStep (F'.step call) c' y ∧
      Related (Sum.LiftRel (AtBlock F F') Eq) x y := by
  obtain ⟨b, R, R', gs, rfl, rfl, hR⟩ := hc
  refine ⟨_, _, F.bigStep_block call b (F.blockAt b).insts R gs,
    F'.bigStep_block call b (F'.blockAt b).insts R' gs, ?_⟩
  exact ((h.insts b).related hok hanswer (hvalue b) (fun inst hi => hF.inst_inRange hi) gs hR).bind
    fun p p' hp => h.step_end hF b hp

/-- **The function with calls inlined does what it did**, in its own time. -/
theorem InlinedInto.run_le (h : InlinedInto callee F F') (hF : F.InRange)
    (hvalue : ∀ b, ValuesReturned callee (F.blockAt b).insts) (hok : CalleeOk callee)
    (hanswer : AnswersAs callee call junk) (args : List Word) (gs : Globals) (n : Nat) :
    (∃ m, Flat (F.run call junk n args gs) (F'.run call junk m args gs)) ∧
      ∃ m, Flat (F'.run call junk n args gs) (F.run call junk m args gs) := by
  by_cases hargs : args.length = F.paramRegs.length
  · by_cases hne : F.blocks = []
    · have hne' : F'.blocks = [] := List.eq_nil_of_length_eq_zero (by rw [h.flow.length, hne]; rfl)
      simp only [IRFunc.run, hne, hne', h.flow.params]
      exact ⟨⟨0, .inr rfl⟩, 0, .inr rfl⟩
    · have hne' : F'.blocks ≠ [] := by
        intro hnil
        exact hne (List.eq_nil_of_length_eq_zero (by rw [← h.flow.length, hnil]; rfl))
      have hstart : AtBlock F F' (F.entry junk args gs) (F'.entry junk args gs) :=
        ⟨0, _, _, gs, rfl, rfl, fun v _ => by rw [h.flow.params]⟩
      simp only [IRFunc.run_eq call junk _ gs hargs hne,
        IRFunc.run_eq call junk _ gs (hargs.trans (congrArg _ h.flow.params.symm)) hne']
      constructor
      · exact run_le_of_bigSteps (fun c c' hc => h.bigSteps hF hvalue hok hanswer hc) hstart n
      · refine run_le_of_bigSteps (I := fun c' c => AtBlock F F' c c') (fun c' c hc => ?_) hstart n
        obtain ⟨x, y, hx, hy, hxy⟩ := h.bigSteps hF hvalue hok hanswer hc
        refine ⟨y, x, hy, hx, hxy.symm.mono fun a b hab => ?_⟩
        cases hab with
        | inl hI => exact .inl hI
        | inr heq => exact .inr heq.symm
  · simp only [IRFunc.run, h.flow.params, if_neg hargs]
    exact ⟨⟨0, .inr rfl⟩, 0, .inr rfl⟩

end Function

end ToyC
