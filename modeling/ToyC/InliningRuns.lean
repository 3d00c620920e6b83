import ToyC.InliningSound
import ToyC.RegAllocSound

/-!
# Inlining and the runs of a call

That inlining preserves the meaning of a module is an equality of limits (`Linked.inlineSweeps`), and
it needs that every function reads what it wrote, and that an expected value is always returned. Of a
call that *returns* more can be said: no matter what stands in functions that it does not come to,
and whether a value would be missing where none is asked for.

What must not happen is that an inlined body reads a vreg before it writes it, since in its caller
there is something else in the vreg. Only functions of one block are inlined. So a call is looked at
that returns whatever is in the vregs of these (`IRModule.AlwaysWithin`); if they read what they
wrote, that is any call that returns (`IRModule.ReturnsWithin.always`). Where such a call is inlined,
the body has the answer that the call had (`Inlined.carried`), and the caller returns what it did,
again whatever is in the vregs. By induction on how deep the calls are nested this is kept when calls
are inlined into one function (`IRModule.AlwaysWithin.set`), hence by the sweeps
(`inlineSweeps_returns`).
-/

namespace ToyC

open Machine Outcome

/-! ## A body that returns whatever is in its vregs -/

/-- **A function that reads what it wrote does not depend on what was in its vregs**: over locations,
these are not there at all. -/
theorem IRFunc.ReadsWritten.run_junk {F : IRFunc} (hR : F.ReadsWritten) (hF : F.InRange)
    (call : Callee) (junk junk' : Regs) (n : Nat) (args : List Word) (G : Globals) :
    F.run call junk n args G = F.run call junk' n args G := by
  obtain ⟨k, A, hA⟩ := allocateRegisters_total .insertion F
  have hsound := (allocateRegisters_valid hF hA).1.sound hF hR
  exact (hsound.run call (fun _ _ => 0#32) junk (fun _ => 0#32) n args G).symm.trans
    (hsound.run call (fun _ _ => 0#32) junk' (fun _ => 0#32) n args G)

/-- What a function that may be inlined returns, its one block does. -/
theorem IRFunc.runBlock_of_run {G : IRFunc} (hinl : inlinable G = true) {call : Callee} {junk : Regs}
    {n : Nat} {args : List Word} {gs : Globals} {r : CallResult}
    (h : G.run call junk n args gs = .ok r) : G.runBlock call junk args gs = .ok r := by
  have hlen : args.length = G.paramRegs.length := by
    by_contra hne
    rw [IRFunc.run, if_neg hne] at h
    cases h
  obtain ⟨k, hk⟩ := G.run_inlinable hinl hlen call junk gs
  rw [← hk n, ← h]
  exact ((G.run_regular junk args gs).mono precise_flat (fun _ => precise_flat.refl _)
    (by omega : n ≤ k + (n + 1))).eq_of_ne (by simp [h])

section Code

variable {call call' : Callee} {nv vBase : Nat} {R R' : Regs}

/-- **An instruction from states that agree**, against an oracle that knows more. -/
theorem Inst.exec_carried {inst : Inst} (hcall : ∀ q, Values (call q) (call' q))
    (hrange : inst.InRange nv) (gs : Globals) (hR : ∀ v < nv, R' v = R v) :
    Carried (Agrees nv) (inst.exec call R gs) (inst.exec call' R' gs) := by
  rintro ⟨R₁, gs₁⟩ h
  rcases inst.exec_agreeOn (S := (· < nv)) call gs hrange.1 (fun v hv => (hR v hv).symm) with
    ⟨R₂, R₂', gs₂, h₁, h₂, hagree⟩ | ⟨h₁, -⟩ | ⟨h₁, -⟩
  · cases h₁.symm.trans h
    refine ⟨(R₂', gs₁), ?_, fun v hv => (hagree v hv).symm, rfl⟩
    exact (inst.exec_regular R' gs).mono precise_values hcall (Nat.le_refl 0) _ h₂
  · cases h₁.symm.trans h
  · cases h₁.symm.trans h

/-- **An inlined call has the answer that the call had**, if the body of the callee returns it
whatever is in its vregs. -/
theorem inlineCall_carried {G : IRFunc} (hG : G.InRange) (hparams : G.paramRegs.length = G.numParams)
    {inst : Inst} (hop : inst.op = .Call)
    (hlen : inst.args.length = G.numParams)
    (hcall : ∀ args gs r, call ⟨inst.callee, args, gs⟩ = .ok r →
      ∀ junk, G.runBlock call' junk args gs = .ok r)
    (hrange : inst.InRange nv) (hnv : nv ≤ vBase) (gs : Globals) (hR : ∀ v < nv, R' v = R v) :
    Carried (Agrees nv) (inst.exec call R gs) (execInsts call' (inlineCall G vBase inst) R' gs) := by
  rintro ⟨R₁, gs₁⟩ h
  have hargs : ∀ a ∈ inst.args, ∀ r, a.reg? = some r → r < nv := fun a ha r hr =>
    hrange.1 r (Inst.mem_uses (by simpa [Inst.operands, hop] using ha) hr)
  have hvalues : inst.args.map (·.eval R) = inst.args.map (·.eval R') :=
    List.map_congr_left fun a ha => Val.eval_congr fun r hr => (hR r (hargs a ha r hr)).symm
  obtain ⟨v, hanswer, hwrite⟩ : ∃ v, call ⟨inst.callee, inst.args.map (·.eval R'), gs⟩ =
      .ok (v, gs₁) ∧ R.writeResult inst.dst v = .ok R₁ := by
    unfold Inst.exec at h
    simp only [hop, hvalues] at h
    obtain ⟨⟨v, gs₂⟩, hanswer, h⟩ := bind_eq_ok.mp h
    obtain ⟨R₂, hwrite, heq⟩ := bind_eq_ok.mp h
    cases heq
    exact ⟨v, hanswer, hwrite⟩
  -- The body runs in the caller's vregs, and these are as good as any.
  have hall : Copied vBase (fun _ => True) R' (fun v => R' (v + vBase)) R' :=
    ⟨fun _ _ => rfl, fun _ _ => rfl⟩
  obtain ⟨R₂, hexec, hcopied⟩ := inlineParams_exec call' gs (hlen.trans hparams.symm)
    (fun a ha r hr => (hargs a ha r hr).trans_le hnv) hall
  obtain ⟨⟨R₃, gs₃⟩, hbody, hresult⟩ := bind_eq_ok.mp (hcall _ _ _ hanswer fun v => R' (v + vBase))
  have hrelated : Related (fun p p' => Copied vBase (fun _ => True) R' p.1 p'.1 ∧ p'.2 = p.2)
      (execInsts call' (G.blockAt 0).insts (IRFunc.entryRegs (fun v => R' (v + vBase)) G.paramRegs
        (inst.args.map (·.eval R'))) gs)
      (execInsts call' ((G.blockAt 0).insts.map (cloneInst vBase)) R₂ gs) :=
    cloneInsts_related call' (fun inst hi hs => (hG.inst_inRange hi).dst_none hs) gs
      (hcopied.mono fun v _ => .inr trivial)
  obtain ⟨⟨R₄, gs₄⟩, hclone, hcopied', hgs⟩ := hrelated.carried _ hbody
  have hgs : gs₄ = gs₃ := hgs
  have hbelow : ∀ v < vBase, R₄ v = R' v := hcopied'.below
  obtain ⟨rfl, rfl⟩ := Prod.mk.inj (Outcome.ok.inj hresult)
  have htake : G.paramRegs.take G.numParams = G.paramRegs :=
    List.take_of_length_le (Nat.le_of_eq hparams)
  rw [inlineCall, htake, List.append_assoc, execInsts_append, hexec, Outcome.ok_bind,
    execInsts_append, hclone, Outcome.ok_bind, hgs]
  cases hd : inst.dst with
  | none =>
    rw [hd] at hwrite
    cases hwrite
    refine ⟨_, rfl, fun v hv => ?_, rfl⟩
    show R₄ v = R v
    rw [hbelow v (hv.trans_le hnv), hR v hv]
  | some d =>
    rw [hd] at hwrite
    cases hhas : (G.blockAt 0).retHasVal with
    | false =>
      rw [hhas, if_neg Bool.false_ne_true] at hwrite
      cases hwrite
    | true =>
      rw [hhas, if_pos rfl] at hwrite
      cases hwrite
      have hval : (cloneVal vBase (G.blockAt 0).retVal).eval R₄ = (G.blockAt 0).retVal.eval R₃ :=
        cloneVal_eval hcopied' fun _ _ => trivial
      simp only [inlineResult, hhas, if_true]
      refine ⟨_, rfl, fun v hv => ?_, rfl⟩
      show R₄.set d ((cloneVal vBase (G.blockAt 0).retVal).eval R₄) v =
        R.set d ((G.blockAt 0).retVal.eval R₃) v
      rw [hval]
      by_cases hvd : v = d
      · rw [hvd, Regs.set_same, Regs.set_same]
      · rw [Regs.set_of_ne _ _ hvd, Regs.set_of_ne _ _ hvd, hbelow v (hv.trans_le hnv), hR v hv]

/-! ## A function -/

/-- **What may be inlined into a function**, and has the answers of the calls. -/
structure Answering (callee : Inst → Option IRFunc) (call call' : Callee) : Prop where
  calls : ∀ inst G, callee inst = some G → inst.op = .Call ∧ inst.args.length = G.numParams
  vregs : ∀ inst G, callee inst = some G → G.InRange ∧ G.paramRegs.length = G.numParams
  answers : ∀ inst G, callee inst = some G → ∀ args gs r, call ⟨inst.callee, args, gs⟩ = .ok r →
    ∀ junk, G.runBlock call' junk args gs = .ok r

variable {callee : Inst → Option IRFunc}

/-- **Code with calls inlined follows the code it was made of**, as long as that has a meaning. -/
theorem Inlined.carried (hcall : ∀ q, Values (call q) (call' q))
    (hans : Answering callee call call') {is js : List Inst} (h : Inlined callee nv is js)
    (hrange : ∀ inst ∈ is, inst.InRange nv) (gs : Globals) (hR : ∀ v < nv, R' v = R v) :
    Carried (Agrees nv) (execInsts call is R gs) (execInsts call' js R' gs) := by
  induction h generalizing R R' gs with
  | nil => exact fun p hp => ⟨(R', gs), rfl, by cases hp; exact ⟨hR, rfl⟩⟩
  | @keep inst is js _ _ ih =>
    rw [List.forall_mem_cons] at hrange
    refine (Inst.exec_carried hcall hrange.1 gs hR).bind fun p p' hp => ?_
    rw [hp.2]
    exact ih hrange.2 p.2 hp.1
  | @inline inst is js G vBase hG hv _ ih =>
    rw [List.forall_mem_cons] at hrange
    obtain ⟨hop, hlen⟩ := hans.calls inst G hG
    obtain ⟨hrangeG, hparams⟩ := hans.vregs inst G hG
    rw [execInsts, execInsts_append]
    refine (inlineCall_carried hrangeG hparams hop hlen (hans.answers inst G hG) hrange.1 hv gs
      hR).bind fun p p' hp => ?_
    rw [hp.2]
    exact ih hrange.2 p.2 hp.1

/-- **A function with calls inlined returns what it did.** -/
theorem InlinedInto.run_ok {F F' : IRFunc} (h : InlinedInto callee F F') (hF : F.InRange)
    (hcall : ∀ q, Values (call q) (call' q)) (hans : Answering callee call call') {junk : Regs}
    {n : Nat} {args : List Word} {gs : Globals} {r : CallResult}
    (hr : F.run call junk n args gs = .ok r) : ∃ m, F'.run call' junk m args gs = .ok r := by
  have hlen : args.length = F.paramRegs.length := by
    by_contra hne
    rw [IRFunc.run, if_neg hne] at hr
    cases hr
  have hne : F.blocks ≠ [] := by
    intro hnil
    simp [IRFunc.run, hnil] at hr
  have hne' : F'.blocks ≠ [] := by
    intro hnil
    exact hne (List.eq_nil_of_length_eq_zero (by rw [← h.flow.length, hnil]; rfl))
  have hstart : AtBlock F F' (F.entry junk args gs) (F'.entry junk args gs) :=
    ⟨0, _, _, gs, rfl, rfl, fun v _ => by rw [h.flow.params]⟩
  have hbig : ∀ c c', AtBlock F F' c c' → ∃ x y, BigStep (F.step call) c x ∧
      BigStep (F'.step call') c' y ∧ Carried (Sum.LiftRel (AtBlock F F') Eq) x y := by
    rintro _ _ ⟨b, R, R', gs, rfl, rfl, hR⟩
    refine ⟨_, _, F.bigStep_block call b (F.blockAt b).insts R gs,
      F'.bigStep_block call' b (F'.blockAt b).insts R' gs, ?_⟩
    refine ((h.insts b).carried hcall hans (fun inst hi => hF.inst_inRange hi) gs hR).bind
      fun p p' hp => ?_
    have hend : Related (Sum.LiftRel (AtBlock F F') Eq) (F.step call' ⟨b, [], p.1, p.2⟩)
        (F'.step call' ⟨b, [], p'.1, p'.2⟩) := h.step_end hF b hp
    exact hend.carried
  rw [IRFunc.run_eq call junk n gs hlen hne] at hr
  obtain ⟨m, hm⟩ := run_ok_of_bigSteps hbig hstart hr
  refine ⟨m, ?_⟩
  rw [IRFunc.run_eq call' junk m gs (hlen.trans (congrArg _ h.flow.params.symm)) hne']
  exact hm

end Code

/-! ## Modules -/

/-- **A call that returns within so many activations, whatever is in the vregs** of the functions of
one block. -/
def IRModule.AlwaysWithin (m : IRModule) (junk : Regs) : Nat → CallArgs → CallResult → Prop
  | 0, _, _ => False
  | d + 1, p, r => ∃ call : Callee, (∀ q r', call q = .ok r' → m.AlwaysWithin junk d q r') ∧
      ∃ F, m.find p.name = some F ∧ ∀ junk', (junk' = junk ∨ F.blocks.length = 1) →
        ∃ n, F.run call junk' n p.args p.globals = .ok r

section Modules

variable {m : IRModule} {junk : Regs} {d : Nat} {p : CallArgs} {r : CallResult}

theorem IRModule.AlwaysWithin.mono {d' : Nat} (h : m.AlwaysWithin junk d p r) (hd : d ≤ d') :
    m.AlwaysWithin junk d' p r := by
  induction d generalizing d' p r with
  | zero => exact h.elim
  | succ d ih =>
    obtain ⟨d', rfl⟩ : ∃ k, d' = k + 1 := ⟨d' - 1, by omega⟩
    obtain ⟨call, hcall, hbody⟩ := h
    exact ⟨call, fun q r' hq => ih (hcall q r' hq) (Nat.le_of_succ_le_succ hd), hbody⟩

/-- Such a call returns. -/
theorem IRModule.AlwaysWithin.returnsWithin (h : m.AlwaysWithin junk d p r) :
    m.ReturnsWithin junk d p r := by
  induction d generalizing p r with
  | zero => exact h.elim
  | succ d ih =>
    obtain ⟨call, hcall, F, hF, hrun⟩ := h
    obtain ⟨n, hn⟩ := hrun junk (.inl rfl)
    refine ⟨call, n, fun q r' hq => ih (hcall q r' hq), ?_⟩
    rw [IRModule.body, hF]
    exact hn

/-- **Conversely, a call that returns is such a call**, if the functions of one block read what they
wrote. -/
theorem IRModule.ReturnsWithin.always (hrange : ∀ F ∈ m.funcs, F.InRange)
    (hone : ∀ F ∈ m.funcs, F.blocks.length = 1 → F.ReadsWritten)
    (h : m.ReturnsWithin junk d p r) : m.AlwaysWithin junk d p r := by
  induction d generalizing p r with
  | zero => exact h.elim
  | succ d ih =>
    obtain ⟨call, n, hcall, hbody⟩ := h
    unfold IRModule.body at hbody
    cases hF : m.find p.name with
    | none =>
      rw [hF] at hbody
      cases hbody
    | some F =>
      rw [hF] at hbody
      have hmem : F ∈ m.funcs := List.mem_of_find?_eq_some hF
      refine ⟨call, fun q r' hq => ih (hcall q r' hq), F, hF, fun junk' hjunk => ⟨n, ?_⟩⟩
      rcases hjunk with rfl | hlen
      · exact hbody
      · rw [(hone F hmem hlen).run_junk (hrange F hmem) call junk' junk]
        exact hbody

/-- **What is known of such calls**, as an oracle. -/
noncomputable def IRModule.known (m : IRModule) (junk : Regs) (d : Nat) : Callee :=
  open Classical in fun q =>
    if h : ∃ r, m.AlwaysWithin junk d q r then .ok h.choose else .timeout

theorem IRModule.known_eq_ok {q : CallArgs} :
    m.known junk d q = .ok r ↔ m.AlwaysWithin junk d q r := by
  unfold IRModule.known
  constructor
  · intro h
    split at h
    · rename_i hex
      cases h
      exact hex.choose_spec
    · cases h
  · intro h
    have hex : ∃ r, m.AlwaysWithin junk d q r := ⟨r, h⟩
    rw [dif_pos hex]
    have h₁ := (m.returns_iff junk q _).mp
      ((m.returns_iff_within junk q _).mpr ⟨d, hex.choose_spec.returnsWithin⟩)
    have h₂ := (m.returns_iff junk q r).mp
      ((m.returns_iff_within junk q r).mpr ⟨d, h.returnsWithin⟩)
    exact h₁.symm.trans h₂

end Modules

section Sweeps

variable {funcs : List IRFunc} {globals : List IRGlobal} {junk : Regs} {d : Nat} {p : CallArgs}
  {r : CallResult}

/-- **Inlining into one function keeps the calls that return.** -/
theorem IRModule.AlwaysWithin.set (hnames : (funcs.map (·.name)).Nodup)
    (hfuncs : ∀ F ∈ funcs, F.InRange ∧ F.paramRegs.length = F.numParams) {i : Nat}
    (hi : i < funcs.length) (h : IRModule.AlwaysWithin ⟨globals, funcs⟩ junk d p r) :
    IRModule.AlwaysWithin ⟨globals, funcs.set i (inlineFunc funcs i).1⟩ junk d p r := by
  have hgetD : funcs.getD i {} = funcs[i] := by simp [hi]
  have hinto := inlineFunc_inlinedInto funcs i
  rw [hgetD] at hinto
  let m' : IRModule := ⟨globals, funcs.set i (inlineFunc funcs i).1⟩
  have hnames' : (m'.funcs.map (·.name)).Nodup := by
    show ((funcs.set i (inlineFunc funcs i).1).map (·.name)).Nodup
    rwa [map_name_set hi hinto.name]
  induction d generalizing p r with
  | zero => exact h.elim
  | succ d ih =>
    obtain ⟨call, hcall, F, hF, hrun⟩ := h
    have hknown : ∀ q, Values (call q) (m'.known junk d q) := fun q r' hq =>
      IRModule.known_eq_ok.mpr (ih (hcall q r' hq))
    refine ⟨m'.known junk d, fun q r' hq => IRModule.known_eq_ok.mp hq, ?_⟩
    rcases find?_set hi hinto.name p.name with hsame | ⟨hFi, hF'⟩
    · refine ⟨F, hsame.trans hF, fun junk' hjunk => ?_⟩
      obtain ⟨n, hn⟩ := hrun junk' hjunk
      exact ⟨n, (F.run_regular junk' p.args p.globals).mono precise_values hknown (Nat.le_refl n) r hn⟩
    · obtain rfl : F = funcs[i] := Option.some.inj (hF.symm.trans hFi)
      refine ⟨_, hF', fun junk' hjunk => ?_⟩
      rw [hinto.flow.length] at hjunk
      obtain ⟨n, hn⟩ := hrun junk' hjunk
      refine hinto.run_ok (hfuncs _ (List.getElem_mem hi)).1 hknown ⟨fun inst G hG => ?_,
        fun inst G hG => ?_, fun inst G hG args gs r' hq junk'' => ?_⟩ hn
      · obtain ⟨hop, -, hlen, -⟩ := inlinedCallee_eq_some hG
        exact ⟨hop, hlen⟩
      · obtain ⟨-, -, -, -, j, -, hj⟩ := inlinedCallee_eq_some hG
        exact hfuncs G (List.mem_of_getElem? hj)
      · -- The callee is not the function that is changed, and has the answer with the same oracle.
        obtain ⟨-, hinl, -, hname, j, hne, hj⟩ := inlinedCallee_eq_some hG
        have hmem : G ∈ m'.funcs := List.mem_of_getElem? (i := j) (by
          show (funcs.set i (inlineFunc funcs i).1)[j]? = _
          rw [List.getElem?_set_ne hne.symm, hj])
        have halways := ih (hcall ⟨inst.callee, args, gs⟩ r' hq)
        cases d with
        | zero => exact halways.elim
        | succ d =>
          obtain ⟨call₂, hcall₂, G', hG', hrun₂⟩ := halways
          rw [hname] at hG'
          obtain rfl : G' = G := Option.some.inj (hG'.symm.trans (find?_name hnames' hmem))
          have hone : G'.blocks.length = 1 := by
            simp only [inlinable, Bool.and_eq_true, decide_eq_true_eq] at hinl
            exact hinl.1.1.1
          obtain ⟨k, hk⟩ := hrun₂ junk'' (.inr hone)
          refine G'.runBlock_of_run hinl (n := k) ?_
          refine (G'.run_regular junk'' args gs).mono precise_values (fun q r'' hq' => ?_)
            (Nat.le_refl k) r' hk
          exact IRModule.known_eq_ok.mpr ((hcall₂ q r'' hq').mono (Nat.le_succ d))

/-- **What inlining into one function relies on**, besides. -/
theorem inlineFunc_set_ok (hfuncs : ∀ F ∈ funcs, F.InRange ∧ F.paramRegs.length = F.numParams)
    {i : Nat} (hi : i < funcs.length) :
    ∀ F ∈ funcs.set i (inlineFunc funcs i).1, F.InRange ∧ F.paramRegs.length = F.numParams := by
  intro F hF
  rcases List.mem_or_eq_of_mem_set hF with hF | rfl
  · exact hfuncs F hF
  · have hgetD : funcs.getD i {} = funcs[i] := by simp [hi]
    obtain ⟨hrange, hparams⟩ := hfuncs (funcs.getD i {}) (hgetD ▸ List.getElem_mem hi)
    refine ⟨inlineFunc_inRange (fun inst G hG => ?_) hrange, hparams⟩
    obtain ⟨hop, hinl, -, -, j, -, hj⟩ := inlinedCallee_eq_some hG
    exact ⟨hop, hinl, (hfuncs G (List.mem_of_getElem? hj)).1⟩

/-- **A call that returns, returns behind the sweeps.** The functions have names of their own, and
vregs in range; and those of one block read what they wrote. -/
theorem inlineSweeps_returns (hnames : (funcs.map (·.name)).Nodup)
    (hfuncs : ∀ F ∈ funcs, F.InRange ∧ F.paramRegs.length = F.numParams)
    (hone : ∀ F ∈ funcs, F.blocks.length = 1 → F.ReadsWritten) (k : Nat)
    (h : IRModule.Returns ⟨globals, funcs⟩ junk p r) :
    IRModule.Returns ⟨globals, inlineSweeps k funcs⟩ junk p r := by
  obtain ⟨d, hd⟩ := (IRModule.returns_iff_within _ junk p r).mp h
  have halways := hd.always (fun F hF => (hfuncs F hF).1) hone
  have hkept := inlineSweeps_keeps (P := fun Fs => (Fs.map (·.name)).Nodup ∧
    (∀ F ∈ Fs, F.InRange ∧ F.paramRegs.length = F.numParams) ∧
      IRModule.AlwaysWithin ⟨globals, Fs⟩ junk d p r) (fun Fs i hi hFs => ?_) k
    ⟨hnames, hfuncs, halways⟩
  · exact (IRModule.returns_iff_within _ junk p r).mpr ⟨d, hkept.2.2.returnsWithin⟩
  · obtain ⟨hnames, hfuncs, halways⟩ := hFs
    refine ⟨?_, inlineFunc_set_ok hfuncs hi, halways.set hnames hfuncs hi⟩
    have hgetD : Fs.getD i {} = Fs[i] := by simp [hi]
    rwa [map_name_set hi ((inlineFunc_inlinedInto Fs i).name.trans (congrArg _ hgetD))]

end Sweeps

end ToyC
