import ToyC.IRReads
import ToyC.Interference
import Mathlib.Data.List.Sort

/-!
# Register allocation is sound

The function is executed once more, with its values in the locations of an allocation
in place of the vregs. The parameters are written to their locations one after the
other, and a call leaves arbitrary values in the registers that are not callee-saved. As
long as the allocation respects liveness, the two executions go in step: at every point,
the location of a live vreg holds its value (`Matches`). So they return the same, make the
same calls and write the same globals, and two live vregs in one location have one value.
-/

namespace ToyC

open Machine

/-! ## Execution over locations -/

/-- The contents of the locations. -/
abbrev Store := Loc → Word

/-- The vregs as the locations hold them. -/
def Allocation.view (A : Allocation) (P : Store) : Regs := fun v => P (A.loc v)

/-- A call leaves anything in the registers that are not callee-saved. -/
def Store.clobber (P : Store) (havoc : XReg → Word) : Store
  | .reg x => if isCalleeSaved x then P (.reg x) else havoc x
  | .slot s => P (.slot s)

/-- Write the result of an instruction to its location. -/
def Store.writeResult (P : Store) (dst : Option Loc) (v : Option Word) : Outcome Store :=
  match dst, v with
  | none, _ => .ok P
  | some l, some v => .ok (Function.update P l v)
  | some _, none => .stuck

/-- Execute an instruction over locations. -/
def Inst.execOn (A : Allocation) (call : Callee) (havoc : XReg → Word) (inst : Inst)
    (P : Store) (G : Globals) : Outcome (Store × Globals) := do
  let (v, G) ← inst.compute call (A.view P) G
  let P := if inst.op = .Call then P.clobber havoc else P
  let P ← P.writeResult (inst.dst.map A.loc) v
  .ok (P, G)

/-- **A point of an execution over locations**, with the number of calls made. -/
structure AConfig where
  block : Nat
  rest : List Inst
  store : Store
  globals : Globals
  calls : Nat

/-- The same of an execution over locations. -/
def AConfig.event (A : Allocation) (c : AConfig) : Option Event :=
  c.rest.head?.bind (·.event (A.view c.store))

namespace IRFunc

variable (F : IRFunc)

/-- **One step over locations.** The `k`-th call leaves `havoc k`. -/
def stepOn (A : Allocation) (call : Callee) (havoc : Nat → XReg → Word) (c : AConfig) :
    Outcome (AConfig ⊕ CallResult) :=
  match c.rest with
  | [] =>
    match F.blocks[c.block]? with
    | none => .stuck
    | some bb => do
      let x ← F.execTerm bb (A.view c.store) c.globals
      .ok (x.map (fun c' => ⟨c'.block, c'.rest, c.store, c'.globals, c.calls⟩) id)
  | inst :: rest => do
    let (P, G) ← inst.execOn A call (havoc c.calls) c.store c.globals
    .ok (.inl ⟨c.block, rest, P, G, if inst.op = .Call then c.calls + 1 else c.calls⟩)

/-- The locations at entry: the parameters in order, the rest as it was. -/
def entryStore (A : Allocation) (P : Store) : List Nat → List Word → Store
  | p :: ps, v :: vs => entryStore A (Function.update P (A.loc p) v) ps vs
  | _, _ => P

/-- The first point of an execution over locations. -/
def entryOn (A : Allocation) (P : Store) (args : List Word) (G : Globals) : AConfig :=
  ⟨0, (F.blockAt 0).insts, entryStore A P F.paramRegs args, G, 0⟩

/-- **Run a function over the locations of an allocation.** -/
def runOn (A : Allocation) (call : Callee) (havoc : Nat → XReg → Word) (P : Store) (n : Nat)
    (args : List Word) (G : Globals) : Outcome CallResult :=
  if args.length = F.paramRegs.length then
    match F.blocks with
    | [] => .stuck
    | _ :: _ => Machine.run (F.stepOn A call havoc) n (F.entryOn A P args G)
  else .stuck

end IRFunc

/-- **An allocation under which a function behaves as it does over vregs**, whatever its
callees answer, whatever they leave in the registers, and whatever the locations hold at
first. -/
structure Allocation.Sound (A : Allocation) (F : IRFunc) : Prop where
  run : ∀ (call : Callee) havoc junk P n args G,
    F.runOn A call havoc P n args G = F.run call junk n args G
  events : ∀ (call : Callee) havoc junk P n (args : List Word) G,
    args.length = F.paramRegs.length →
    trace (F.stepOn A call havoc) (AConfig.event A) n (F.entryOn A P args G) =
      trace (F.step call) Config.event n (F.entry junk args G)
  shared : ∀ (call : Callee) junk (args : List Word) G, args.length = F.paramRegs.length →
    ∀ c, Steps (F.step call) (F.entry junk args G) c →
      ∀ v w, F.LiveAt c.block c.rest v → F.LiveAt c.block c.rest w → A.loc v = A.loc w →
        c.regs v = c.regs w

/-! ## In step -/

/-- **Two executions that match**: at the same point, with the value of every live vreg in
its location. -/
structure Matches (A : Allocation) (F : IRFunc) (c : Config) (p : AConfig) : Prop where
  block : p.block = c.block
  rest : p.rest = c.rest
  globals : p.globals = c.globals
  lt : c.block < F.blocks.length
  done : ∃ done, (F.blockAt c.block).insts = done ++ c.rest
  live : ∀ v, F.LiveAt c.block c.rest v → A.view p.store v = c.regs v

/-- **Writing a result keeps the live values in place.** -/
theorem Allocation.Valid.write {A : Allocation} {F : IRFunc} (hA : A.Valid F) {b : Nat}
    (hb : b < F.blocks.length) {done rest : List Inst} {inst : Inst}
    (hi : (F.blockAt b).insts = done ++ inst :: rest) {R : Regs} {P : Store}
    (hlive : ∀ v, F.LiveAt b (inst :: rest) v → A.view P v = R v) (havoc : XReg → Word)
    {w : Word} (hmove : inst.isMove = true → w = inst.a.eval R) {v : Nat}
    (hv : F.LiveAt b rest v) :
    A.view (match inst.dst with
      | none => if inst.op = .Call then P.clobber havoc else P
      | some d => Function.update (if inst.op = .Call then P.clobber havoc else P) (A.loc d) w) v =
      (R.write inst.dst w) v := by
  have hkeep : inst.dst ≠ some v →
      (if inst.op = .Call then P.clobber havoc else P) (A.loc v) = R v := by
    intro hd
    rw [← hlive v (.pass hd hv)]
    split
    · rename_i hop
      unfold Allocation.view
      cases hl : A.loc v with
      | slot s => rfl
      | reg x =>
        have hreg : A.reg v = some x := by
          unfold Allocation.loc at hl
          split at hl <;> cases hl
          assumption
        simp [Store.clobber, hA.calls b hb done inst rest hi hop v hv hd x hreg]
    · rfl
  cases hd : inst.dst with
  | none =>
    rw [hd] at hkeep
    exact hkeep (by simp)
  | some d =>
    rw [hd] at hkeep
    unfold Allocation.view
    by_cases hvd : v = d
    · subst hvd
      simp
    · show (Function.update (_ : Store) (A.loc d) w) (A.loc v) = R.set d w v
      rw [R.set_of_ne w hvd]
      by_cases hloc : A.loc v = A.loc d
      · -- Only the source of a copy may share the location.
        obtain ⟨hm, ha⟩ := hA.writes b hb done inst rest hi d v hd hv hvd hloc
        rw [hloc, Function.update_self, hmove hm, ha]
        rfl
      · rw [Function.update_of_ne hloc]
        exact hkeep fun heq => hvd (Option.some.inj heq).symm

/-- **The two executions go in step.** -/
theorem Allocation.Valid.lockstep {A : Allocation} {F : IRFunc} (hA : A.Valid F)
    (hF : F.InRange) (call : Callee) (havoc : Nat → XReg → Word) :
    Lockstep (F.step call) (F.stepOn A call havoc) (Matches A F) := by
  rintro ⟨b, rest, R, G⟩ ⟨b', rest', P, G', k⟩ ⟨hb, hr, hG, hlt, ⟨done, hdone⟩, hlive⟩
  obtain rfl : b = b' := hb.symm
  obtain rfl : rest = rest' := hr.symm
  obtain rfl : G = G' := hG.symm
  have hmem : F.blockAt b ∈ F.blocks := IRFunc.blockAt_mem hlt
  cases rest with
  | nil =>
    have hread : ∀ r ∈ (F.blockAt b).termUses, R r = A.view P r := fun r hr =>
      (hlive r (.term hr)).symm
    simp only [IRFunc.step, IRFunc.stepOn, IRFunc.getElem?_blocks hlt]
    rcases IRFunc.execTerm_congr (F := F) (G := G) hread with
      ⟨r, h, h'⟩ | ⟨h, h'⟩ | ⟨s, hs, hslt, h, h'⟩
    · rw [h, h']
      rfl
    · rw [h, h']
      trivial
    · rw [h, h']
      exact ⟨rfl, rfl, rfl, hslt, ⟨[], rfl⟩, fun v hv => hlive v (.succ hs hv)⟩
  | cons inst rest =>
    have hin := hF.insts _ hmem inst (by rw [hdone]; simp)
    have hread : ∀ r ∈ inst.uses, A.view P r = R r := fun r hr => hlive r (.read hr)
    simp only [IRFunc.step, IRFunc.stepOn, Inst.exec_eq hin, Inst.execOn,
      Inst.compute_congr hread, Outcome.bind_assoc]
    refine StepsAgree.bind fun a ha => ?_
    have hmove : ∀ w, a.1 = some w → inst.isMove = true → w = inst.a.eval R := by
      intro w hw hm
      have hop : inst.op = .Mv := by
        simp only [Inst.isMove, Bool.and_eq_true, beq_iff_eq] at hm
        exact hm.1
      rw [Inst.compute, hop] at ha
      cases ha
      exact (Option.some.inj hw).symm
    have hdone' : ∃ done, (F.blockAt b).insts = done ++ rest := ⟨done ++ [inst], by simp [hdone]⟩
    cases hd : inst.dst with
    | none =>
      have hwrite := fun v hv => hA.write hlt hdone hlive (havoc k)
        (fun _ => (rfl : inst.a.eval R = inst.a.eval R)) (v := v) hv
      rw [hd] at hwrite
      exact ⟨rfl, rfl, rfl, hlt, hdone', hwrite⟩
    | some d =>
      cases hw : a.1 with
      | none => trivial
      | some w =>
        have hwrite := fun v hv => hA.write hlt hdone hlive (havoc k) (hmove w hw) (v := v) hv
        rw [hd] at hwrite
        exact ⟨rfl, rfl, rfl, hlt, hdone', hwrite⟩

/-- **The parameters reach their locations.** -/
theorem entryStore_eq {A : Allocation} {v : Nat} {ps : List Nat} :
    ∀ {args : List Word} {P : Store} {R : Regs}, args.length = ps.length →
      (∀ p ∈ ps, A.loc p = A.loc v → p = v) → v ∈ ps ∨ P (A.loc v) = R v →
      IRFunc.entryStore A P ps args (A.loc v) = IRFunc.entryRegs R ps args v := by
  induction ps with
  | nil =>
    intro args P R hlen hinj hv
    rw [List.length_eq_zero_iff.mp hlen]
    exact hv.resolve_left (by simp)
  | cons p ps ih =>
    intro args P R hlen hinj hv
    cases args with
    | nil => cases hlen
    | cons w args =>
      refine ih (Nat.succ.inj hlen) (fun q hq => hinj q (List.mem_cons_of_mem _ hq)) ?_
      by_cases hpv : p = v
      · subst hpv
        exact .inr (by simp)
      · have hloc : A.loc v ≠ A.loc p := fun heq => hpv (hinj p List.mem_cons_self heq.symm)
        refine hv.imp (fun hv => (List.mem_cons.mp hv).resolve_left (Ne.symm hpv)) fun hv => ?_
        rw [Function.update_of_ne hloc, hv, R.set_of_ne w (Ne.symm hpv)]

theorem Allocation.Valid.matches_entry {A : Allocation} {F : IRFunc} (hA : A.Valid F)
    (hR : F.ReadsWritten) (hne : 0 < F.blocks.length) (junk : Regs) (P : Store)
    {args : List Word} (hlen : args.length = F.paramRegs.length) (G : Globals) :
    Matches A F (F.entry junk args G) (F.entryOn A P args G) where
  block := rfl
  rest := rfl
  globals := rfl
  lt := hne
  done := ⟨[], rfl⟩
  live v hv := by
    have hmem := hR v hv
    refine entryStore_eq hlen (fun p hp heq => ?_) (.inl hmem)
    by_contra hpv
    exact hA.params p hp v hmem hpv heq

/-- Nothing is live in a function without blocks. -/
theorem IRFunc.not_liveAt_of_empty {F : IRFunc} (hb : F.blocks = []) {b v : Nat} :
    ¬ F.LiveAt b [] v := by
  have hblock : F.blockAt b = {} := by simp [IRFunc.blockAt, hb]
  intro h
  cases h with
  | term h => simp [hblock, BasicBlock.termUses] at h
  | succ hs _ => simp [hblock, succsOf] at hs

/-- **An allocation that respects liveness is sound.** -/
theorem Allocation.Valid.sound {A : Allocation} {F : IRFunc} (hA : A.Valid F) (hF : F.InRange)
    (hR : F.ReadsWritten) : A.Sound F where
  run call havoc junk P n args G := by
    unfold IRFunc.run IRFunc.runOn
    split
    · rename_i hlen
      cases hb : F.blocks with
      | nil => rfl
      | cons bb bbs =>
        have hm := hA.matches_entry hR (by rw [hb]; exact Nat.succ_pos _) junk P hlen G
        have hrun := (hA.lockstep hF call havoc).run hm n
        refine hrun.symm.trans ?_
        simp [IRFunc.entry, IRFunc.start, IRFunc.blockAt, hb]
    · rfl
  events call havoc junk P n args G hlen := by
    by_cases hb : F.blocks = []
    · cases n with
      | zero => rfl
      | succ n => simp [trace, IRFunc.entry, IRFunc.entryOn, IRFunc.start, IRFunc.blockAt,
          IRFunc.step, IRFunc.stepOn, Config.event, AConfig.event, hb]
    · have hm := hA.matches_entry hR (List.length_pos_of_ne_nil hb) junk P hlen G
      refine ((hA.lockstep hF call havoc).trace (fun c p hm => ?_) hm n).symm
      unfold Config.event AConfig.event
      rw [hm.rest]
      cases hrest : c.rest with
      | nil => rfl
      | cons inst rest =>
        refine Inst.event_congr fun r hr => ?_
        exact (hm.live r (by rw [hrest]; exact .read hr)).symm
  shared call junk args G hlen c hc v w hv hw hloc := by
    by_cases hb : F.blocks = []
    · have hnil : (F.entry junk args G).rest = [] := by
        simp [IRFunc.entry, IRFunc.start, IRFunc.blockAt, hb]
      cases hc with
      | refl =>
        rw [hnil] at hv
        exact absurd hv (IRFunc.not_liveAt_of_empty hb)
      | head h _ => simp [IRFunc.step, hnil, hb] at h
    · have hm := hA.matches_entry hR (List.length_pos_of_ne_nil hb) junk (fun _ => 0#32) hlen G
      obtain ⟨p, -, hp⟩ := (hA.lockstep hF call fun _ _ => 0#32).steps hm hc
      rw [← hp.live v hv, ← hp.live w hw, Allocation.view, Allocation.view, hloc]

/-- **Register allocation is sound.** On a function in range whose reads are preceded by
writes the allocator answers, and under what it answers the function behaves over
locations as it does over vregs. -/
theorem allocateRegisters_sound (S : Sorting) {F : IRFunc} (hF : F.InRange)
    (hR : F.ReadsWritten) :
    (∃ n A, allocateRegisters S F n = .ok A) ∧
      ∀ n A, allocateRegisters S F n = .ok A → A.Sound F :=
  ⟨allocateRegisters_total S F, fun _ _ h => (allocateRegisters_valid hF h).1.sound hF hR⟩

/-- Insertion sort is a sorting routine. -/
def Sorting.insertion : Sorting where
  sort lt l := l.insertionSort fun a b => lt a b = true
  perm _ l := List.perm_insertionSort _ l

/-- `int f(int x) { return x + g(x); }`: its parameter lives across the call. -/
def crossFunc : IRFunc where
  name := "f"
  numParams := 1
  paramRegs := [0]
  numVregs := 3
  blocks := [{
    insts := [{ op := .Call, dst := some 1, callee := "g", args := [.reg 0] },
      { op := .Add, dst := some 2, a := .reg 0, b := .reg 1 }]
    term := .Ret
    retHasVal := true
    retVal := .reg 2 }]

theorem crossFunc_sound :
    ∃ n A, allocateRegisters .insertion crossFunc n = .ok A ∧ A.Sound crossFunc := by
  have hR : crossFunc.ReadsWritten :=
    IRFunc.readsWritten_of_bound (fun _ => [2]) (by decide) (by decide) (by decide)
  obtain ⟨⟨n, A, hA⟩, hsound⟩ :=
    allocateRegisters_sound .insertion (F := crossFunc) (by constructor <;> decide) hR
  exact ⟨n, A, hA, hsound n A hA⟩

end ToyC
