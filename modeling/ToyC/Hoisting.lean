import ToyC.Loops
import ToyC.Lib.Stuttering

/-!
# Moving instructions to a preheader

Instructions are executed in front of a loop that were, or were not, executed in it. The
function with the moved instructions runs ahead of the other one in the preheader, and behind
it in the loop, so they do not do the same in the same number of steps: `Equivalent`
compares results and observations only.

The argument is about the state in the loop. A moved instruction is *settled* there
(`Inst.Settled`): to execute it once more would change nothing. That is so when the preheader
is left, and stays so, if nothing in the loop writes what the instruction reads or writes.
So whoever leaves it out in the loop has the result already. Outside, the result must not be
needed (`CanMove`).
-/

namespace ToyC

open Machine

/-! ## Equivalent functions -/

/-- **Two functions that do the same, each in its own time**: they return the same, with the
same globals, or both do not, and the calls and stores of globals that the one makes, the other
one makes in the same order. -/
structure Equivalent (F F' : IRFunc) (call : Callee) (junk : Regs) (args : List Word)
    (G : Globals) : Prop where
  params : F'.paramRegs = F.paramRegs
  run : ∀ x ≠ .timeout,
    (∃ n, F.run call junk n args G = x) ↔ ∃ n, F'.run call junk n args G = x
  events_le : args.length = F.paramRegs.length → ∀ n, ∃ m,
    trace (F.step call) Config.event n (F.entry junk args G) <+:
      trace (F'.step call) Config.event m (F'.entry junk args G)
  events_ge : args.length = F.paramRegs.length → ∀ m, ∃ n,
    trace (F'.step call) Config.event m (F'.entry junk args G) <+:
      trace (F.step call) Config.event n (F.entry junk args G)

namespace Equivalent

variable {F F' F'' : IRFunc} {call : Callee} {junk : Regs} {args : List Word} {G : Globals}

theorem refl (F : IRFunc) : Equivalent F F call junk args G :=
  ⟨rfl, fun _ _ => Iff.rfl, fun _ n => ⟨n, List.prefix_rfl⟩, fun _ n => ⟨n, List.prefix_rfl⟩⟩

theorem trans (h : Equivalent F F' call junk args G) (h' : Equivalent F' F'' call junk args G) :
    Equivalent F F'' call junk args G where
  params := h'.params.trans h.params
  run x hx := (h.run x hx).trans (h'.run x hx)
  events_le hlen n := by
    obtain ⟨m, hm⟩ := h.events_le hlen n
    obtain ⟨k, hk⟩ := h'.events_le (h.params ▸ hlen) m
    exact ⟨k, hm.trans hk⟩
  events_ge hlen n := by
    obtain ⟨m, hm⟩ := h'.events_ge (h.params ▸ hlen) n
    obtain ⟨k, hk⟩ := h.events_ge hlen m
    exact ⟨k, hm.trans hk⟩

/-- A simulation that may stutter. -/
theorem of_stuttering (hparams : F'.paramRegs = F.paramRegs)
    (hlen : F'.blocks.length = F.blocks.length) {count : Config → Nat}
    {I : Config → Config → Prop}
    (h : Stuttering (F.step call) (F'.step call) Config.event Config.event count I)
    (hI : I (F.entry junk args G) (F'.entry junk args G)) : Equivalent F F' call junk args G where
  params := hparams
  run x hx := by
    by_cases hargs : args.length = F.paramRegs.length
    · by_cases hne : F.blocks = []
      · have hne' : F'.blocks = [] := List.eq_nil_of_length_eq_zero (by rw [hlen, hne]; rfl)
        simp only [IRFunc.run, hne, hne', hparams]
      · have hne' : F'.blocks ≠ [] := by
          intro h
          exact hne (List.eq_nil_of_length_eq_zero (by rw [← hlen, h]; rfl))
        simp only [IRFunc.run_eq call junk _ G hargs hne,
          IRFunc.run_eq call junk _ G (hargs.trans (congrArg _ hparams.symm)) hne']
        exact h.run_iff hI hx
    · simp only [IRFunc.run, hparams, if_neg hargs]
  events_le _ n := h.trace_le hI n
  events_ge _ n := h.trace_ge hI n

end Equivalent

/-! ## One instruction from two states -/

/-- **An instruction from states with the same values of what it reads**: it does the same, and
leaves the same value where the states agreed and where it writes. -/
theorem Inst.exec_agree {nv : Nat} {inst : Inst} (hnv : inst.InRange nv) (call : Callee)
    {R R' : Regs} (G : Globals) (h : ∀ r ∈ inst.uses, R r = R' r) :
    (∃ R₁ R₁' G₁, inst.exec call R G = .ok (R₁, G₁) ∧ inst.exec call R' G = .ok (R₁', G₁) ∧
        ∀ x, (inst.dst ≠ some x → R x = R' x) → R₁ x = R₁' x) ∨
      (inst.exec call R G = .timeout ∧ inst.exec call R' G = .timeout) ∨
      (inst.exec call R G = .stuck ∧ inst.exec call R' G = .stuck) := by
  rw [Inst.exec_eq hnv, Inst.exec_eq hnv, ← Inst.compute_congr h]
  cases inst.compute call R G with
  | timeout => exact .inr (.inl ⟨rfl, rfl⟩)
  | stuck => exact .inr (.inr ⟨rfl, rfl⟩)
  | ok a =>
    obtain ⟨w, G₁⟩ := a
    cases hd : inst.dst with
    | none => exact .inl ⟨R, R', G₁, rfl, rfl, fun x hx => hx (by simp)⟩
    | some d =>
      cases w with
      | none => exact .inr (.inr ⟨rfl, rfl⟩)
      | some w =>
        refine .inl ⟨R.set d w, R'.set d w, G₁, rfl, rfl, fun x hx => ?_⟩
        by_cases hxd : x = d
        · rw [hxd, Regs.set_same, Regs.set_same]
        · rw [R.set_of_ne w hxd, R'.set_of_ne w hxd]
          exact hx fun h => hxd (Option.some.inj h).symm

/-- **An instruction that can be executed early**: it has a result, of vregs alone. -/
def Inst.movable (inst : Inst) : Bool :=
  inst.dst.isSome && (isBinary inst.op || inst.op = .Mv || inst.op = .Neg || inst.op = .Not)

theorem Inst.exec_movable {inst : Inst} (h : inst.movable = true) :
    ∃ d, inst.dst = some d ∧
      ∀ call R G, inst.exec call R G = .ok (R.set d (inst.value R fun _ => 0), G) := by
  obtain ⟨hdst, hop⟩ := Bool.and_eq_true_iff.mp h
  obtain ⟨d, hd⟩ := Option.isSome_iff_exists.mp hdst
  refine ⟨d, hd, fun call R G => ?_⟩
  unfold Inst.exec Inst.value
  cases ho : inst.op <;> first
    | (rw [hd]; rfl)
    | simp [ho, isBinary] at hop

/-- It is not observed. -/
theorem Inst.event_movable {inst : Inst} (h : inst.movable = true) (R : Regs) :
    inst.event R = none := by
  unfold Inst.movable at h
  unfold Inst.event
  cases hop : inst.op <;> first
    | rfl
    | simp [hop, isBinary] at h

/-- **To execute the instruction would change nothing.** -/
def Inst.Settled (inst : Inst) (R : Regs) : Prop := ∀ call G, inst.exec call R G = .ok (R, G)

/-- What an instruction writes is neither read nor written by another one. -/
def Inst.Spares (inst m : Inst) : Prop := ∀ x ∈ inst.dst, m.dst ≠ some x ∧ x ∉ m.uses

section Settled

variable {m : Inst} {R R' : Regs} {G G' : Globals} {call : Callee}

/-- It does not depend on other vregs. -/
theorem Inst.Settled.congr (hm : m.movable = true) (h : m.Settled R)
    (hR : ∀ x, m.dst = some x ∨ x ∈ m.uses → R x = R' x) : m.Settled R' := by
  intro call G
  obtain ⟨d, hd, hexec⟩ := Inst.exec_movable hm
  have hold := h call G
  rw [hexec] at hold
  have hsame : (R.set d (m.value R fun _ => 0)) d = R d :=
    congrFun (congrArg Prod.fst (Outcome.ok.inj hold)) d
  rw [Regs.set_same] at hsame
  rw [hexec, ← Inst.value_congr (fun r hr => hR r (.inr hr)) fun _ => rfl, hsame, hR d (.inl hd)]
  congr 2
  funext x
  by_cases hx : x = d
  · rw [hx, Regs.set_same]
  · rw [Regs.set_of_ne _ _ hx]

/-- An instruction that spares it leaves it settled. -/
theorem Inst.Settled.exec (hm : m.movable = true) (h : m.Settled R) {inst : Inst}
    (hspares : inst.Spares m) (hexec : inst.exec call R G = .ok (R', G')) : m.Settled R' :=
  h.congr hm fun x hx => (Inst.exec_frame hexec fun hd => by
    obtain ⟨hdst, huses⟩ := hspares x hd
    exact hx.elim hdst huses).symm

/-- **An instruction is settled by executing it**, if it does not read its result. -/
theorem Inst.settled_of_exec (hm : m.movable = true) (hself : ∀ x ∈ m.dst, x ∉ m.uses)
    (hexec : m.exec call R G = .ok (R', G')) : m.Settled R' := by
  intro call' G'
  obtain ⟨d, hd, heq⟩ := Inst.exec_movable hm
  rw [heq] at hexec
  cases hexec
  have hread : ∀ r ∈ m.uses, R r = R.set d (m.value R fun _ => 0) r := by
    intro r hr
    refine (R.set_of_ne _ ?_).symm
    rintro rfl
    exact hself r hd hr
  rw [heq, ← Inst.value_congr hread fun _ => rfl]
  congr 2
  funext x
  by_cases hx : x = d
  · rw [hx, Regs.set_same, Regs.set_same]
  · rw [Regs.set_of_ne _ _ hx]

end Settled

/-! ## Moving -/

/-- **An instruction that may stand for another one** in the loop, when the moved ones are
settled: it does the same, and does not touch them. -/
structure StandsFor (M : List Inst) (inst inst' : Inst) : Prop where
  dst : inst'.dst = inst.dst
  spares : ∀ m ∈ M, inst'.Spares m
  exec : ∀ R, (∀ m ∈ M, m.Settled R) → ∀ call G, inst'.exec call R G = inst.exec call R G
  event : ∀ R, (∀ m ∈ M, m.Settled R) → inst'.event R = inst.event R

/-- An instruction that stays. -/
theorem StandsFor.refl {M : List Inst} {inst : Inst} (h : ∀ m ∈ M, inst.Spares m) :
    StandsFor M inst inst :=
  ⟨rfl, h, fun _ _ _ _ => rfl, fun _ _ => rfl⟩

/-- **What is left of some instructions** of the loop, when some of them are moved. -/
inductive Moved (M : List Inst) : List Inst → List Inst → Prop where
  | nil : Moved M [] []
  | keep {inst inst' : Inst} {insts insts' : List Inst} (h : StandsFor M inst inst')
      (rest : Moved M insts insts') : Moved M (inst :: insts) (inst' :: insts')
  | move {inst : Inst} {insts insts' : List Inst} (h : inst ∈ M)
      (rest : Moved M insts insts') : Moved M (inst :: insts) insts'

/-- **Instructions that can be moved in front of a loop**: they are executed there in an order
in which none spoils what was done before, and their results are not needed at the header. -/
structure CanMove (F : IRFunc) (M : List Inst) (v : Nat) : Prop where
  movable : ∀ m ∈ M, m.movable = true
  self : ∀ m ∈ M, ∀ x ∈ m.dst, x ∉ m.uses
  ordered : M.Pairwise fun m m' => m'.Spares m
  dead : ∀ m ∈ M, ∀ x ∈ m.dst, ¬ F.LiveAt v (F.blockAt v).insts x

/-- **A function with instructions moved** from a loop to its preheader. -/
structure Hoisted (F F' : IRFunc) (L : Finset Nat) (pre : Nat) (M : List Inst) : Prop where
  flow : SameFlow F F'
  loop : ∀ b ∈ L, Moved M (F.blockAt b).insts (F'.blockAt b).insts
  preheader : (F'.blockAt pre).insts = (F.blockAt pre).insts ++ M
  others : ∀ b ∉ L, b ≠ pre → (F'.blockAt b).insts = (F.blockAt b).insts

/-- **Points of both runs**: in the loop the moved instructions are settled, and what is live
has the same values. -/
structure AtSamePoint (F : IRFunc) (L : Finset Nat) (pre : Nat) (M : List Inst)
    (c c' : Config) : Prop where
  block : c'.block = c.block
  globals : c'.globals = c.globals
  suffix : c.rest <:+ (F.blockAt c.block).insts
  lt : c.block < F.blocks.length
  live : ∀ x, F.LiveAt c.block c.rest x → c.regs x = c'.regs x
  inside : c.block ∈ L → Moved M c.rest c'.rest ∧ ∀ m ∈ M, m.Settled c'.regs
  outside : c.block ∉ L → c'.rest = c.rest ++ if c.block = pre then M else []

section Simulation

variable {F F' : IRFunc} {L : Finset Nat} {pre v : Nat} {M : List Inst} {call : Callee}

/-- **The moved instructions are settled** when they were executed one after the other. -/
theorem quiet_preheader (hM : CanMove F M v) (b : Nat) (R : Regs) (G : Globals) :
    ∃ R', Quiet (F'.step call) Config.event ⟨b, M, R, G⟩ ⟨b, [], R', G⟩ ∧
      (∀ m ∈ M, m.Settled R') ∧ ∀ x, (∀ m ∈ M, m.dst ≠ some x) → R' x = R x := by
  have hrun : ∀ (todo done : List Inst) (R : Regs), done ++ todo = M → (∀ m ∈ done, m.Settled R) →
      ∃ R', Quiet (F'.step call) Config.event ⟨b, todo, R, G⟩ ⟨b, [], R', G⟩ ∧
        (∀ m ∈ M, m.Settled R') ∧ ∀ x, (∀ m ∈ M, m.dst ≠ some x) → R' x = R x := by
    intro todo
    induction todo with
    | nil =>
      intro done R heq hdone
      rw [List.append_nil] at heq
      exact ⟨R, .refl _, heq ▸ hdone, fun _ _ => rfl⟩
    | cons inst todo ih =>
      intro done R heq hdone
      have hmem : inst ∈ M := heq ▸ List.mem_append_right _ List.mem_cons_self
      have hmov := hM.movable inst hmem
      obtain ⟨d, hd, hexec⟩ := Inst.exec_movable hmov
      have hordered := hM.ordered
      rw [← heq, List.pairwise_append] at hordered
      obtain ⟨R', hquiet, hsettled, hframe⟩ := ih (done ++ [inst])
        (R.set d (inst.value R fun _ => 0)) (by rw [List.append_assoc]; exact heq) fun m hm => by
          rcases List.mem_append.mp hm with hm | hm
          · have hmM : m ∈ M := heq ▸ List.mem_append_left _ hm
            exact (hdone m hm).exec (hM.movable m hmM)
              (hordered.2.2 m hm inst List.mem_cons_self) (hexec call R G)
          · rw [List.mem_singleton.mp hm]
            exact Inst.settled_of_exec hmov (hM.self inst hmem) (hexec call R G)
      refine ⟨R', .head ?_ ?_ hquiet, hsettled, fun x hx => ?_⟩
      · show (inst.exec call R G >>= fun a => Outcome.ok (Sum.inl (⟨b, todo, a.1, a.2⟩ : Config))) = _
        rw [hexec]
        rfl
      · exact Inst.event_movable hmov R
      · rw [hframe x hx]
        exact R.set_of_ne _ fun hxd => hx inst hmem (hxd ▸ hd)
  exact hrun M [] R rfl fun _ hm => by cases hm

/-- Both runs enter a block. -/
theorem AtSamePoint.start (h : Hoisted F F' L pre M) {s : Nat} (hs : s < F.blocks.length)
    {R R' : Regs} {G : Globals} (hlive : ∀ x, F.LiveAt s (F.blockAt s).insts x → R x = R' x)
    (hsettled : s ∈ L → ∀ m ∈ M, m.Settled R') :
    AtSamePoint F L pre M (F.start s R G) (F'.start s R' G) := by
  refine ⟨rfl, rfl, List.suffix_rfl, hs, hlive, fun hL => ⟨h.loop s hL, hsettled hL⟩, fun hL => ?_⟩
  show (F'.blockAt s).insts = (F.blockAt s).insts ++ _
  split
  · rename_i hspre
    rw [show s = pre from hspre]
    exact h.preheader
  · rename_i hspre
    rw [List.append_nil]
    exact h.others s hL hspre

/-- Both runs are at the end of a block. -/
theorem AtSamePoint.execTerm (h : Hoisted F F' L pre M) {b : Nat} {R R' : Regs} {G : Globals}
    (hlive : ∀ x, F.LiveAt b [] x → R x = R' x)
    (hnext : ∀ s ∈ succsOf (F.blockAt b),
      (∀ x, F.LiveAt s (F.blockAt s).insts x → R x = R' x) ∧
        (s ∈ L → ∀ m ∈ M, m.Settled R')) :
    StepsAgree (AtSamePoint F L pre M) (F.execTerm (F.blockAt b) R G)
      (F'.execTerm (F'.blockAt b) R' G) := by
  rw [h.flow.blocks b]
  rcases IRFunc.execTerm_agree h.flow.length (F'.blockAt b).insts (R := R)
      (G := G) fun r hr => hlive r (.term hr) with
    ⟨r, hr, hr'⟩ | ⟨hr, hr'⟩ | ⟨s, hs, hlt, hr, hr'⟩
  · rw [hr, hr']
    rfl
  · rw [hr, hr']
    trivial
  · rw [hr, hr']
    exact start h hlt (hnext s hs).1 (hnext s hs).2

/-- Both runs execute an instruction. -/
theorem AtSamePoint.exec {c c' : Config} (h : AtSamePoint F L pre M c c') {nv : Nat}
    {inst inst' : Inst} {rest rest' : List Inst} (hrest : c.rest = inst :: rest)
    (hnv : inst.InRange nv) (hexec : inst'.exec call c'.regs c.globals =
      inst.exec call c'.regs c.globals)
    (hnext : ∀ R R' G, inst'.exec call c'.regs c.globals = .ok (R', G) →
      (∀ x, F.LiveAt c.block rest x → R x = R' x) →
        AtSamePoint F L pre M ⟨c.block, rest, R, G⟩ ⟨c.block, rest', R', G⟩) :
    StepsAgree (AtSamePoint F L pre M)
      (inst.exec call c.regs c.globals >>= fun a =>
        (.ok (.inl ⟨c.block, rest, a.1, a.2⟩) : Outcome (Config ⊕ CallResult)))
      (inst'.exec call c'.regs c.globals >>= fun a =>
        .ok (.inl ⟨c.block, rest', a.1, a.2⟩)) := by
  have hlive := h.live
  rw [hrest] at hlive
  rw [hexec]
  rcases Inst.exec_agree hnv call c.globals fun r hr => hlive r (.read hr) with
    ⟨R₁, R₁', G₁, hR, hR', hagree⟩ | ⟨hR, hR'⟩ | ⟨hR, hR'⟩
  · rw [hR, hR']
    refine hnext R₁ R₁' G₁ (hexec.trans hR') fun x hx => hagree x fun hd => ?_
    exact hlive x (.pass hd hx)
  · rw [hR, hR']
    trivial
  · rw [hR, hR']
    trivial

/-- **The simulation**: the run of the function as it was may do a moved instruction in the
loop, and the other one does them all at the end of the preheader. -/
theorem Hoisted.stuttering (h : Hoisted F F' L pre M) (hF : F.InRange) (hL : IsLoop F L pre v)
    (hM : CanMove F M v) :
    Stuttering (F.step call) (F'.step call) Config.event Config.event (fun c => c.rest.length)
      (AtSamePoint F L pre M) := by
  intro c c' hI
  obtain ⟨b', rest', R', G'⟩ := c'
  obtain rfl : b' = c.block := hI.block
  obtain rfl : G' = c.globals := hI.globals
  have hblock := IRFunc.getElem?_blocks hI.lt
  have hblock' := IRFunc.getElem?_blocks (h.flow.length ▸ hI.lt)
  have hstepEnd : c.rest = [] → F.step call c = F.execTerm (F.blockAt c.block) c.regs c.globals := by
    intro hrest
    simp only [IRFunc.step, hrest, hblock]
  have hstepEnd' : ∀ R'', F'.step call ⟨c.block, [], R'', c.globals⟩ =
      F'.execTerm (F'.blockAt c.block) R'' c.globals := by
    intro R''
    simp only [IRFunc.step, hblock']
  cases hrest : c.rest with
  | cons inst rest =>
    have hstep : F.step call c = inst.exec call c.regs c.globals >>= fun a =>
        .ok (.inl ⟨c.block, rest, a.1, a.2⟩) := by
      simp only [IRFunc.step, hrest]
    have hevent : c.event = inst.event c.regs := by
      simp [Config.event, hrest]
    have hsuffix : inst :: rest <:+ (F.blockAt c.block).insts := hrest ▸ hI.suffix
    have hnv : inst.InRange F.numVregs :=
      hF.insts _ (List.mem_of_getElem? hblock) inst (hsuffix.mem List.mem_cons_self)
    have hsuffix' := (List.suffix_cons inst rest).trans hsuffix
    have hlive := hI.live
    rw [hrest] at hlive
    have hread : ∀ r ∈ inst.uses, c.regs r = R' r := fun r hr => hlive r (.read hr)
    by_cases hb : c.block ∈ L
    · obtain ⟨hmoved, hsettled⟩ := hI.inside hb
      rw [hrest] at hmoved
      cases hmoved with
      | keep hstands hmoved =>
        refine .inr ⟨_, .refl _, ?_, ?_⟩
        · rw [hevent, Inst.event_congr hread]
          exact (hstands.event R' hsettled).symm
        · rw [hstep]
          refine hI.exec hrest hnv (hstands.exec R' hsettled call c.globals)
            fun R₁ R₁' G₁ hexec hlive' => ⟨rfl, rfl, hsuffix', hI.lt, hlive', fun _ => ?_,
              fun hout => absurd hb hout⟩
          exact ⟨hmoved, fun m hm => (hsettled m hm).exec (hM.movable m hm)
            (hstands.spares m hm) hexec⟩
      | move hmem hmoved =>
        obtain ⟨d, -, hexec⟩ := Inst.exec_movable (hM.movable inst hmem)
        refine .inl ⟨⟨c.block, rest, c.regs.set d (inst.value c.regs fun _ => 0), c.globals⟩,
          by rw [hstep, hexec]; rfl, ?_, ?_, ?_⟩
        · rw [hevent]
          exact Inst.event_movable (hM.movable inst hmem) _
        · show rest.length < c.rest.length
          rw [hrest]
          exact Nat.lt_succ_self _
        · refine ⟨rfl, rfl, hsuffix', hI.lt, fun x hx => ?_, fun _ => ⟨hmoved, hsettled⟩,
            fun hout => absurd hb hout⟩
          -- The other run has the result already: to compute it there would change nothing.
          rcases Inst.exec_agree hnv call c.globals hread with
            ⟨R₁, R₁', G₁, hR, hR', hagree⟩ | ⟨hR, -⟩ | ⟨hR, -⟩
          · rw [hexec] at hR
            rw [hsettled inst hmem call c.globals] at hR'
            cases hR
            cases hR'
            exact hagree x fun hd => hlive x (.pass hd hx)
          · cases hR.symm.trans (hexec ..)
          · cases hR.symm.trans (hexec ..)
    · obtain rfl : rest' = c.rest ++ if c.block = pre then M else [] := hI.outside hb
      refine .inr ⟨_, .refl _, ?_, ?_⟩
      · rw [hevent, Inst.event_congr hread]
        simp [Config.event, hrest]
      · rw [hstep]
        simp only [IRFunc.step, hrest, List.cons_append]
        exact hI.exec hrest hnv rfl fun R₁ R₁' G₁ _ hlive' =>
          ⟨rfl, rfl, hsuffix', hI.lt, hlive', fun hin => absurd hin hb, fun _ => rfl⟩
  | nil =>
    have hlive := hI.live
    rw [hrest] at hlive
    have hevent : c.event = none := by simp [Config.event, hrest]
    have hsucc : ∀ s ∈ succsOf (F.blockAt c.block), ∀ x,
        F.LiveAt s (F.blockAt s).insts x → c.regs x = R' x :=
      fun s hs x hx => hlive x (.succ hs hx)
    by_cases hb : c.block ∈ L
    · obtain ⟨hmoved, hsettled⟩ := hI.inside hb
      rw [hrest] at hmoved
      cases hmoved
      refine .inr ⟨_, .refl _, hevent, ?_⟩
      rw [hstepEnd hrest, hstepEnd']
      exact AtSamePoint.execTerm h hlive fun s hs => ⟨hsucc s hs, fun _ => hsettled⟩
    · obtain rfl : rest' = c.rest ++ if c.block = pre then M else [] := hI.outside hb
      rw [hrest, List.nil_append]
      by_cases hpre : c.block = pre
      · rw [if_pos hpre]
        obtain ⟨R'', hquiet, hsettled, hframe⟩ :=
          quiet_preheader hM c.block R' c.globals
        refine .inr ⟨_, hquiet, hevent, ?_⟩
        rw [hstepEnd hrest, hstepEnd']
        -- The only successor is the header, where the moved results are not needed.
        have hsuccs : succsOf (F.blockAt c.block) = [v] := by
          rw [hpre]
          unfold succsOf
          rw [hL.jump, hL.target]
        have huses : (F.blockAt c.block).termUses = [] := by
          rw [hpre]
          simp [BasicBlock.termUses, hL.jump]
        have hheader : ∀ x, F.LiveAt v (F.blockAt v).insts x → c.regs x = R'' x := by
          intro x hx
          rw [hframe x fun m hm hd => hM.dead m hm x hd hx]
          exact hsucc v (by rw [hsuccs]; exact List.mem_singleton_self v) x hx
        refine AtSamePoint.execTerm h (fun x hx => ?_) fun s hs => ?_
        · cases hx with
          | term hx =>
            rw [huses] at hx
            cases hx
          | succ hs hx =>
            rw [hsuccs] at hs
            rw [List.mem_singleton.mp hs] at hx
            exact hheader x hx
        · rw [hsuccs] at hs
          rw [List.mem_singleton.mp hs]
          exact ⟨hheader, fun _ => hsettled⟩
      · rw [if_neg hpre]
        refine .inr ⟨_, .refl _, hevent, ?_⟩
        rw [hstepEnd hrest, hstepEnd']
        refine AtSamePoint.execTerm h hlive fun s hs => ⟨hsucc s hs, fun hsL => ?_⟩
        rcases hL.entered c.block s hs hsL with hin | ⟨hin, -⟩
        · exact absurd hin hb
        · exact absurd hin hpre

/-- **Moving instructions that can be moved preserves the meaning of a function.** -/
theorem Hoisted.equivalent (h : Hoisted F F' L pre M) (hF : F.InRange) (hL : IsLoop F L pre v)
    (hM : CanMove F M v) (junk : Regs) (args : List Word) (G : Globals) :
    Equivalent F F' call junk args G := by
  refine .of_stuttering h.flow.params h.flow.length (h.stuttering hF hL hM) ?_
  unfold IRFunc.entry
  rw [h.flow.params]
  exact .start h (Nat.zero_lt_of_lt hL.pre_lt) (fun _ _ => rfl) fun h0 => absurd h0 hL.entry

end Simulation

end ToyC
