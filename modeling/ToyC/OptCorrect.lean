import ToyC.OptConvention
import ToyC.OptimizerSound

/-!
# The optimizing code generator is correct

A function's execution goes from block to block, and its code with it (`block_goesVia`), until it
returns; there the frame discipline says that the law of callees was obeyed, so the caller finds what
it relied on (`Stacked.obeys`). The answers of callees are known by induction on the number
of activations the stack has room for, as for the baseline generator. What is new is that nothing is
known of calls the program does not come to, since divisions by constants have to be in order in the
activations of the program alone (`IRModule.DivisionsOk`).
-/

namespace ToyC

open Rv32 Machine

/-! ## Runs of three-address code -/

section Runs

variable {F : IRFunc} {call : Callee} {c₀ c c' : Config} {done : List Inst}

/-- Steps of a run have their history. -/
theorem IRFunc.Ran.of_steps (h : F.Ran call c₀ done c) (hs : Steps (F.step call) c c') :
    ∃ done', F.Ran call c₀ done' c' := by
  induction hs generalizing done with
  | refl => exact ⟨done, h⟩
  | head hstep _ ih => exact ih (.step h hstep)

/-- **A run that returns comes to the end of its block**, and goes on from there. -/
theorem run_block {b n : Nat} {insts : List Inst} {R : Regs} {G : Globals} {r : CallResult}
    (h : run (F.step call) n ⟨b, insts, R, G⟩ = .ok r) :
    ∃ R' G' events k x, k < n ∧ runInsts call insts R G = .ok (R', G', events) ∧
      Steps (F.step call) ⟨b, insts, R, G⟩ ⟨b, [], R', G'⟩ ∧
      F.step call ⟨b, [], R', G'⟩ = .ok x ∧ Sum.elim (run (F.step call) k) .ok x = .ok r := by
  induction insts generalizing n R G with
  | nil =>
    cases n with
    | zero => cases h
    | succ n =>
      rw [run_succ] at h
      obtain ⟨x, hx, hrest⟩ := Outcome.bind_eq_ok.mp h
      refine ⟨R, G, [], n, x, Nat.lt_succ_self n, rfl, .refl _, hx, ?_⟩
      cases x with
      | inl c => exact hrest
      | inr r' => exact hrest
  | cons inst insts ih =>
    cases n with
    | zero => cases h
    | succ n =>
      rw [run_succ] at h
      obtain ⟨x, hx, hrest⟩ := Outcome.bind_eq_ok.mp h
      have hstep := hx
      simp only [IRFunc.step] at hx
      obtain ⟨⟨R₁, G₁⟩, hexec, hx⟩ := Outcome.bind_eq_ok.mp hx
      cases hx
      obtain ⟨R', G', events, k, x, hk, hinsts, hsteps, hx, hr⟩ := ih hrest
      refine ⟨R', G', (inst.event R).toList ++ events, k, x, Nat.lt_succ_of_lt hk, ?_,
        .head hstep hsteps, hx, hr⟩
      rw [runInsts, hexec]
      simp only [Outcome.ok_bind, hinsts]

end Runs

/-- **Divisions by constants are in order** in every activation that a call leads to. -/
def IRModule.DivisionsOk (m : IRModule) (junk : Regs) (p : CallArgs) : Prop :=
  ∀ q F done c, m.Activates junk p q → m.find q.name = some F →
    F.Ran (Outcome.limit (m.body junk)) (F.entry junk q.args q.globals) done c →
    ∀ inst ∈ c.rest.head?, inst.DivisionOk c.regs

/-- Divisions that nothing was noted at are in order. -/
theorem divisionsOk_of_insts {m : IRModule} {junk : Regs} {p : CallArgs}
    (h : ∀ F ∈ m.funcs, ∀ inst ∈ F.insts, inst.isDivision → inst.b ≠ .imm 0 ∧
      inst.magicVreg = none ∧ inst.unsignedDiv = false) : m.DivisionsOk junk p := by
  intro q F done c _ hF hran inst hinst hdiv d hd
  obtain ⟨hne, hmagic, hunsigned⟩ :=
    h F (List.mem_of_find?_eq_some hF) inst (hran.mem_insts hinst) hdiv
  refine ⟨fun h0 => hne (by rw [hd, h0]), fun v hv => ?_, fun hu => ?_⟩
  · rw [hmagic] at hv
    cases hv
  · rw [hunsigned] at hu
    cases hu

namespace OptCodeGen

open NaiveCodeGen (AtCall AfterCall GlobalsPlaced HoldsGlobals GlobalsApart globalAddr ModuleOk)

/-! ## A function's execution -/

section Function

variable {img : Image} {m : IRModule} {opt : Bool} {A : Allocation} {F : IRFunc} {b : BitVec 32}
  {call : Callee} {c₀ : Config} {via : State → State → Prop} {σ₀ σ : Data} {low room : Nat}

/-- What is given for an execution is given for the rest of it. -/
theorem GivenVia.mono (h : GivenVia via img m opt A F b call c₀) {c : Config}
    (hc : Steps (F.step call) c₀ c) : GivenVia via img m opt A F b call c :=
  ⟨fun hs => h.calls (hc.trans hs), fun hs => h.consts (hc.trans hs)⟩

/-- **The code of a function follows its execution**, from the label of a block to a return, with the
value in `a0`. -/
theorem run_goesVia (hvia : img.Follows via) (hr : Ready img m A F b) (hf : FuncAt img m opt A F)
    (hg : GivenVia via img m opt A F b call c₀) {n blk i : Nat} {R : Regs} {G : Globals}
    (hc₀ : Steps (F.step call) c₀ (F.start blk R G)) (hblk : blk ∈ order F)
    (ht : img.target (F.label blk) = some i) (h : Holds img m A F b (F.start blk R G) σ)
    {r : CallResult} (hrun : run (F.step call) n (F.start blk R G) = .ok r) :
    ∃ s, via ⟨i, σ⟩ s ∧ img.items[s.pc]? = some (.instr .ret) ∧
      (∀ w, r.1 = some w → s.data.get XReg.a0 = w) ∧ HoldsGlobals m img r.2 s.data.mem := by
  induction n using Nat.strong_induction_on generalizing blk i R G σ with
  | _ n ih =>
    obtain ⟨R', G', events, k, x, hk, hinsts, hsteps, hx, hrest⟩ := run_block hrun
    obtain ⟨bs, bs', horder⟩ := List.append_of_mem hblk
    obtain ⟨i', ht', hat⟩ := hf.block horder
    obtain rfl : i = i' := Option.some.inj (ht.symm.trans ht')
    have hstep := hx
    rw [IRFunc.step_nil (show blk < F.blocks.length from h.lt)] at hx
    have hended : (F.blockAt blk).term ≠ .None := by
      intro hterm
      unfold IRFunc.execTerm at hx
      rw [hterm] at hx
      cases hx
    obtain ⟨s, hgo, hs⟩ := block_goesVia hvia hr hf (hg.mono hc₀) horder hended h hinsts hat.tail
    replace hgo := hvia.trans (hvia.label hat σ) hgo
    rw [hx] at hs
    cases x with
    | inr r' =>
      obtain ⟨v, G₁⟩ := r'
      cases hrest
      exact ⟨s, hgo, hs⟩
    | inl c =>
      obtain ⟨t, hsucc, hlt, rfl⟩ := IRFunc.execTerm_inl hx
      obtain ⟨s, σ₁⟩ := s
      obtain ⟨s', hgo', hret⟩ := ih k hk ((hc₀.trans hsteps).trans (.single hstep))
        (succ_mem_order hr.fits.inRange.succs_lt hblk hsucc) hs.1 hs.2 hrest
      exact ⟨s', hvia.trans hgo hgo', hret⟩

/-- **A path that returns obeyed the law**, and wrote nothing below the stack it was given. -/
theorem Stacked.obeys {i : Nat} {s : State} (hs : Stacked img m A F σ₀ b low room)
    (hE : Emitted m A F) (hf : FuncAt img m opt A F) (hne : 0 < F.blocks.length)
    (hat : img.At i (funcCode m opt A F)) (hpath : img.Path (Lowered img m low) ⟨i, σ₀⟩ s)
    (hret : img.items[s.pc]? = some (.instr .ret)) : Lowered img m low σ₀ s.data := by
  have hguards : ∀ {s₁ ins}, img.Path (Lowered img m low) ⟨i, σ₀⟩ s₁ →
      img.items[s₁.pc]? = some (.instr ins) →
      (contract img m A F b σ₀).Guards (img.items.drop s₁.pc) s₁.data := by
    intro s₁ ins hpath hi
    refine (guards_path hE hf hne hs.entry hat (hpath.mono fun h => h.obeys)).resolve_right ?_
    rintro rfl
    cases hat.head.symm.trans hi
  refine ⟨(hguards hpath hret).ret hret, fun a ha hlt => ?_⟩
  refine Image.Path.mem (fun a => (∀ gid < m.globals.length, a ≠ globalAddr m img gid) ∧
    a.toNat < low) (fun h a ha => h.mem a ha.1 ha.2) ?_ hpath ⟨ha, hlt⟩
  rintro s₁ hpath₁ ins a hi hstore ⟨ha, hlt⟩
  rcases (hguards hpath₁ hi).store rfl hi hstore with ⟨gid, hg, rfl⟩ | ⟨p, off, hoff, rfl⟩
  · exact ha gid hg rfl
  · have := hoff.le_size (frameOf_laid A F) hE.placed
    rw [hs.frame.toNat (by omega)] at hlt
    have := hs.above
    omega

end Function

/-! ## Calls of functions -/

section Correct

variable {S : Sorting} {m : IRModule} {opt : Bool} {n : Nat} {img : Image}

/-- **A function whose parameters arrive**: they are different vregs, and the eighth is safe. -/
def ParamsSafe (S : Sorting) (n : Nat) (F : IRFunc) : Prop :=
  F.paramRegs.Nodup ∧ ∀ A, allocateRegisters S F n = .ok A → EighthSafe (frameOf A F) A F

/-- **The code of a function** is found under its name. -/
theorem target_func (hm : ModuleOk m) (hcode : generateAsmOpt S m opt n = .ok img.items)
    {F : IRFunc} (hF : F ∈ m.funcs) :
    ∃ A i, allocateRegisters S F n = .ok A ∧ FuncAt img m opt A F ∧
      img.target F.name = some i ∧ img.At i (funcCode m opt A F) := by
  have hids : ∀ F ∈ m.funcs, F.blocks.map (·.id) = List.range F.blocks.length :=
    fun F hF => (hm.funcs F hF).ids
  obtain ⟨A, hA, hf⟩ := generateAsmOpt_funcAt hm.named hids hcode hF
  obtain ⟨i, hat⟩ := hf.func
  refine ⟨A, i, hA, hf, Image.At.target hat ?_, hat⟩
  obtain ⟨As, hAs, hitems⟩ := generateAsmOpt_eq hcode
  have hid : ∀ f ∈ m.funcs, (order f).map (fun b => (f.blockAt b).id) = order f := fun f hf =>
    (List.map_congr_left fun b hb => IRFunc.blockAt_id (hids f hf) (mem_order_lt hb)).trans
      (List.map_id _)
  have hnodup := codeLabels_nodup (fun f => (order f).map fun b => (f.blockAt b).id) hm.named
    fun f hf => (hid f hf).symm ▸ order_nodup
  obtain ⟨-, -, hdisj⟩ := List.nodup_append.mp hm.distinct
  have hglobal : m.globalNames.count F.name = 0 := List.count_eq_zero.mpr fun hmem =>
    hdisj _ hmem _ (List.mem_map_of_mem hF) rfl
  have hmem : F.name ∈
      m.funcs.flatMap (·.codeLabels fun f => (order f).map fun b => (f.blockAt b).id) :=
    List.mem_flatMap.mpr ⟨_, hF, List.mem_cons_self⟩
  rw [hitems, labels_append, labels_append, labels_emitData, labels_zipWith hAs.length_eq,
    List.count_append, List.count_append, hglobal, List.count_eq_one_of_mem hnodup hmem]
  rfl

/-- **A module, and its assembly, linked.** -/
structure Assembled (S : Sorting) (m : IRModule) (opt : Bool) (n : Nat) (img : Image) : Prop where
  ok : ModuleOk m
  safe : ∀ F ∈ m.funcs, ParamsSafe S n F
  code : generateAsmOpt S m opt n = .ok img.items
  linked : img.Linked
  globals : GlobalsPlaced m img

/-- **A function that returns** is matched by the machine, with room for its frame and for the calls
it makes. -/
theorem Assembled.afterCall (hm : Assembled S m opt n img) {F : IRFunc} (hF : F ∈ m.funcs)
    {p : CallArgs} (hname : F.name = p.name) {space room : Nat} {s : State}
    (hs : AtCall m img space p s) (hspace : maxFrame S m n + room ≤ space) {call : Callee}
    (hcallee : ∀ q r, call q = .ok r → (∃ F' ∈ m.funcs, F'.name = q.name) ∧
      ∀ s, AtCall m img room q s → ∃ s', img.Steps s s' ∧ AfterCall m img room r s s')
    {junk : Regs} (hdiv : opt = true → ∀ c,
      Steps (F.step call) (F.entry junk p.args p.globals) c →
      ∀ inst ∈ c.rest.head?, inst.DivisionOk c.regs)
    {k : Nat} {r : CallResult} (hrun : F.run call junk k p.args p.globals = .ok r) :
    ∃ s', img.Steps s s' ∧ AfterCall m img space r s s' := by
  have hok := hm.ok.funcs F hF
  obtain ⟨hnodup, hsafe⟩ := hm.safe F hF
  have hlen : p.args.length = F.paramRegs.length := by
    by_contra hne
    rw [IRFunc.run, if_neg hne] at hrun
    cases hrun
  have hne : F.blocks ≠ [] := by
    intro hnil
    rw [IRFunc.run, if_pos hlen, hnil] at hrun
    cases hrun
  rw [IRFunc.run_eq _ _ _ _ hlen hne] at hrun
  have hpos := List.length_pos_of_ne_nil hne
  obtain ⟨A, i, hA, hf, htarget, hat⟩ := target_func hm.ok hm.code hF
  obtain ⟨i₀, σ₀⟩ := s
  obtain rfl : i = i₀ := by
    rw [hname] at htarget
    exact Option.some.inj (htarget.symm.trans hs.pc)
  have hsize := le_maxFrame (m := m) hF hA
  obtain ⟨b, hst⟩ : ∃ b, Stacked img m A F σ₀ b ((σ₀.get XReg.sp).toNat - space) room :=
    stacked_of_atCall hs (hlen.trans hok.params.symm) (by omega)
  obtain ⟨hvalid, hplaced⟩ := allocateRegisters_valid hok.inRange hA
  have hfits : FuncFits m F := ⟨hok.inRange, hok.gids⟩
  have hr : Ready img m A F b := ⟨hfits, hvalid, hplaced, hst.site hm.globals⟩
  -- The prologue, to the first block.
  obtain ⟨σ₁, hexecs, hholds⟩ := hst.enter hs hA hok.inRange hpos hok.params hnodup
    hok.readsWritten (hsafe A hA) hlen junk
  have hvia := follows_via img m ((σ₀.get XReg.sp).toNat - space)
  obtain ⟨hgo₁, hat₁⟩ := hvia.execs hat.tail hexecs
  obtain ⟨bs, horder⟩ := order_eq_cons hok.inRange.succs_lt hpos
  have hentry : 0 ∈ order F := by
    rw [horder]
    exact List.mem_cons_self
  have htarget₁ : img.target (F.label 0) = some (i + 1 + (prologue (frameOf A F) A F).length) := by
    rw [horder] at hat₁
    unfold emitBlocks emitBlock at hat₁
    rw [IRFunc.blockAt_id hok.ids hpos] at hat₁
    exact hat₁.target (hf.once 0 hentry)
  -- The blocks, to a return.
  have hgiven : GivenVia (Via img m ((σ₀.get XReg.sp).toNat - space)) img m opt A F b call
      (F.entry junk p.args p.globals) := by
    refine ⟨fun _ hop h hat hcall => ?_, fun hsteps hopt hc h hrd hra hval => ?_⟩
    · refine hst.calls hr hm.linked (fun F' hF' => ?_) hcallee hop h hat hcall
      obtain ⟨-, t, -, -, ht, -⟩ := target_func hm.ok hm.code hF'
      exact ⟨t, ht⟩
    · exact h.division hr (hdiv hopt _ hsteps _ rfl) hc hrd hra hval
  obtain ⟨s, hgo₂, hret, hvalue, hglobals⟩ :=
    run_goesVia hvia hr hf hgiven (.refl _) hentry htarget₁ hholds hrun
  obtain ⟨hsteps, hpath⟩ := hvia.trans (hvia.trans (hvia.label hat σ₀) hgo₁) hgo₂
  -- The law was obeyed, so the return leads behind the call.
  have hE : Emitted m A F := ⟨hfits, hplaced, fun bb hbb inst hi hop =>
    allocateRegisters_isLeaf hA hbb hi hop⟩
  have hlaw := hst.obeys hE hf hpos hat hpath hret
  obtain ⟨t, ht⟩ := Option.isSome_iff_exists.mp hs.ra
  have hra : s.data.get XReg.ra = σ₀.get XReg.ra := hlaw.obeys.regs _ (.inr (.inl rfl))
  have hback : img.step s = .ok (.inl ⟨t, s.data⟩) := by
    have ht' : img.itemAt (s.data.get 1) = some t := (congrArg _ hra).trans ht
    unfold Image.step
    rw [hret]
    simp only [ht']
  refine ⟨⟨t, s.data⟩, hsteps.trans (.single hback), ht, hvalue, hglobals, hlaw.obeys.regs,
    fun a ha hout => ?_⟩
  rcases hout with hlt | hle
  · exact hlaw.mem a ha hlt
  · exact hlaw.obeys.mem a ha hle

/-- **A call that returns** is matched by the machine, with room on the stack for so many
activations as it needs. -/
theorem Assembled.afterCall_of_returnsWithin (hm : Assembled S m opt n img) {junk : Regs}
    {p : CallArgs} (hdiv : opt = true → m.DivisionsOk junk p) {d : Nat} {q : CallArgs}
    (hq : m.Activates junk p q) {r : CallResult} (h : m.ReturnsWithin junk d q r) {s : State}
    (hs : AtCall m img (d * maxFrame S m n) q s) :
    ∃ s', img.Steps s s' ∧ AfterCall m img (d * maxFrame S m n) r s s' := by
  induction d generalizing q r s with
  | zero => exact h.elim
  | succ d ih =>
    obtain ⟨call, k, hcall, hbody⟩ := h
    have hknown : ∀ q', Outcome.Values (call q') (Outcome.limit (m.body junk) q') :=
      fun q' r' hr' => (m.returns_iff junk q' r').mp
        ((m.returns_iff_within junk q' r').mpr ⟨d, hcall q' r' hr'⟩)
    unfold IRModule.body at hbody
    cases hfind : m.find q.name with
    | none =>
      rw [hfind] at hbody
      cases hbody
    | some F =>
      rw [hfind] at hbody
      have hF : F ∈ m.funcs := List.mem_of_find?_eq_some hfind
      have hname : F.name = q.name := by simpa using List.find?_some hfind
      -- Only the calls it comes to are asked for.
      obtain ⟨k', hk'⟩ : F.Yields (onlyAsked (m.Activates junk p) call) junk q.args q.globals r := by
        refine IRFunc.Yields.of_asked (fun done c hran inst hinst hop => ?_) ⟨k, hbody⟩
        exact if_pos (.call hq hfind (hran.mono hknown) hinst hop)
      have hasked : ∀ q', Outcome.Values (onlyAsked (m.Activates junk p) call q')
          (Outcome.limit (m.body junk) q') := fun q' => onlyAsked_values fun _ => hknown q'
      rw [Nat.succ_mul] at hs ⊢
      have hroom : maxFrame S m n + d * maxFrame S m n ≤ d * maxFrame S m n + maxFrame S m n :=
        Nat.le_of_eq (Nat.add_comm _ _)
      refine hm.afterCall hF hname hs hroom (fun q' r' hr' => ?_) (fun hopt c hsteps => ?_) hk'
      · unfold onlyAsked at hr'
        split at hr'
        · rename_i hq'
          refine ⟨?_, fun s hs => ih hq' (hcall q' r' hr') hs⟩
          have hwithin := hcall q' r' hr'
          cases d with
          | zero => exact hwithin.elim
          | succ d =>
            obtain ⟨_, _, -, hbody'⟩ := hwithin
            unfold IRModule.body at hbody'
            split at hbody'
            · cases hbody'
            · rename_i F' hfind'
              exact ⟨F', List.mem_of_find?_eq_some hfind', by simpa using List.find?_some hfind'⟩
        · cases hr'
      · obtain ⟨done, hran⟩ := IRFunc.Ran.of_steps .start hsteps
        exact hdiv hopt q F done c hq hfind (hran.mono hasked)

/-- **The optimizing code generator is correct.** Whenever a call returns, the machine executes the
assembly from any call of the function to the return, with the returned value in `a0`, the globals as
they should be, and the registers of the caller as they were. The stack must have room for as many
frames as the call has activations at a time; and where divisions by constants are replaced, the
divisions the call comes to must be marked as they are. -/
theorem generateAsmOpt_correct (hm : Assembled S m opt n img) {junk : Regs} {p : CallArgs}
    (hdiv : opt = true → m.DivisionsOk junk p) {r : CallResult} (h : m.Returns junk p r) :
    (∃ d, m.ReturnsWithin junk d p r) ∧
      ∀ d, m.ReturnsWithin junk d p r → ∀ s, AtCall m img (d * maxFrame S m n) p s →
        ∃ s', img.Steps s s' ∧ AfterCall m img (d * maxFrame S m n) r s s' :=
  ⟨(m.returns_iff_within junk p r).mp h, fun _ hd _ hs =>
    hm.afterCall_of_returnsWithin hdiv .root hd hs⟩

end Correct

/-- `int x = 0; int f(int a) { x = a; return a / 7; } int main() { return f(30) - 1; }` -/
def seventhModule : IRModule where
  globals := [{ name := "x" }]
  funcs := [
    { name := "f"
      numParams := 1
      paramRegs := [0]
      numVregs := 2
      blocks := [{
        insts := [{ op := .StoreGlobal, a := .reg 0 },
          { op := .Div, dst := some 1, a := .reg 0, b := .imm 7 }]
        term := .Ret
        retHasVal := true
        retVal := .reg 1 }] },
    { name := "main"
      numVregs := 2
      blocks := [{
        insts := [{ op := .Call, dst := some 0, callee := "f", args := [.imm 30] },
          { op := .Sub, dst := some 1, a := .reg 0, b := .imm 1 }]
        term := .Ret
        retHasVal := true
        retVal := .reg 1 }] }]

/-- Its assembly, linked: every item takes four bytes, and the global is at 256. -/
def seventhImage : Image where
  items := match generateAsmOpt .insertion seventhModule true 9 with
    | .ok items => items
    | _ => []
  addr i := BitVec.ofNat 32 (4 * i)
  itemAt a := some (a.toNat / 4)
  sym _ := 256#32

/-- The machine in front of `main`, with a stack that ends at 4096 and memory all zero. -/
def seventhState : State where
  pc := 22
  data := ⟨fun x => if x = XReg.sp then 4096#32 else 0#32, fun _ => 0#32⟩

theorem seventhModule_assembled : Assembled .insertion seventhModule true 9 seventhImage where
  ok := by
    refine ⟨⟨by decide, by decide⟩, by decide, fun F hF => ?_⟩
    rcases List.mem_cons.mp hF with rfl | hF
    · refine ⟨by constructor <;> decide, rfl, rfl, by decide, ?_⟩
      exact IRFunc.readsWritten_of_bound (fun _ => [1]) (by decide) (by decide) (by decide)
    · obtain rfl := List.mem_singleton.mp hF
      refine ⟨by constructor <;> decide, rfl, rfl, by decide, ?_⟩
      exact IRFunc.readsWritten_of_bound (fun _ => [1]) (by decide) (by decide) (by decide)
  safe := by
    intro F hF
    have hparams : ∀ F ∈ seventhModule.funcs, F.paramRegs.Nodup ∧ F.paramRegs[7]? = none := by
      decide
    obtain ⟨hnodup, hnone⟩ := hparams F hF
    refine ⟨hnodup, fun A _ p hp => ?_⟩
    rw [hnone] at hp
    cases hp
  code := rfl
  linked := by
    intro i l hi
    have hlt : i < 33 := (List.getElem?_eq_some_iff.mp hi).choose
    show some ((BitVec.ofNat 32 (4 * (i + 1))).toNat / 4) = some (i + 1)
    rw [BitVec.toNat_ofNat, Nat.mod_eq_of_lt (by omega)]
    congr 1
    omega
  globals := by
    constructor
    · decide
    · intro gid hgid gid' hgid' hne
      have : seventhModule.globals.length = 1 := rfl
      omega

/-- `f` is a leaf, so `main` has two activations at a time. -/
theorem seventhModule_returnsWithin : seventhModule.ReturnsWithin (fun _ => 0) 2
    ⟨"main", [], fun _ => 0⟩ (some 3, Globals.set (fun _ => 0) 0 30) := by
  refine ⟨fun q => if q.name = "f" then seventhModule.body (fun _ => 0) q (fun _ => .timeout) 3
    else .timeout, 4, fun q r hq => ?_, rfl⟩
  beta_reduce at hq
  split at hq
  · exact ⟨fun _ => .timeout, 3, fun _ _ h => (by cases h), hq⟩
  · cases hq

/-- The machine divides by multiplying. -/
theorem seventhModule_runs : ∃ s', seventhImage.Steps seventhState s' ∧
    s'.data.get XReg.a0 = 3#32 ∧ s'.data.mem 256#32 = 30#32 := by
  have hat : AtCall seventhModule seventhImage (2 * maxFrame .insertion seventhModule 9)
      ⟨"main", [], fun _ => 0⟩ seventhState := by
    have hmax : maxFrame .insertion seventhModule 9 = 16 := by decide +kernel
    rw [hmax]
    refine ⟨by decide +kernel, by decide, by decide, by decide, ?_, ?_, fun _ _ => rfl, rfl⟩
    · exact fun gid _ => .inl (show (256#32).toNat < _ by decide)
    · intro j v hj
      simp at hj
  have hdiv : seventhModule.DivisionsOk (fun _ => 0) ⟨"main", [], fun _ => 0⟩ :=
    divisionsOk_of_insts (by
      unfold Inst.isDivision
      decide)
  obtain ⟨-, hrun⟩ := generateAsmOpt_correct seventhModule_assembled (fun _ => hdiv)
    ((seventhModule.returns_iff_within _ _ _).mpr ⟨2, seventhModule_returnsWithin⟩)
  obtain ⟨s', hsteps, hafter⟩ := hrun 2 seventhModule_returnsWithin seventhState hat
  exact ⟨s', hsteps, hafter.value 3#32 rfl, hafter.globals 0 (by decide)⟩

end OptCodeGen

end ToyC
