import ToyC.IRReads

/-!
# Runs with their history

What the optimizer may assume at a point of a run depends on the instructions executed
before: a copy still holds when neither of its two vregs was written since. `Ran` is a run
together with these instructions, the latest first, and `Established` is what they say
about a copy or a constant.

Two functions that do the same step by step have the `SameBehaviour`.
-/

namespace ToyC

open Machine

/-- The instructions of a function, in the order of the text. -/
def IRFunc.insts (F : IRFunc) : List Inst := F.blocks.flatMap (·.insts)

theorem IRFunc.mem_insts_iff {F : IRFunc} {inst : Inst} :
    inst ∈ F.insts ↔ ∃ b, inst ∈ (F.blockAt b).insts := by
  constructor
  · intro hi
    obtain ⟨bb, hbb, hi⟩ := List.mem_flatMap.mp hi
    obtain ⟨b, -, rfl⟩ := IRFunc.exists_blockAt hbb
    exact ⟨b, hi⟩
  · rintro ⟨b, hi⟩
    by_cases hb : b < F.blocks.length
    · exact List.mem_flatMap.mpr ⟨_, IRFunc.blockAt_mem hb, hi⟩
    · rw [IRFunc.blockAt_of_ge hb] at hi
      cases hi

/-- **A run with its history**: the points it comes through, each with the instructions
executed before, the latest first. -/
inductive IRFunc.Ran (F : IRFunc) (call : Callee) (c₀ : Config) : List Inst → Config → Prop where
  | start : F.Ran call c₀ [] c₀
  | step {done : List Inst} {c c' : Config} (h : F.Ran call c₀ done c)
      (hs : F.step call c = .ok (.inl c')) : F.Ran call c₀ (c.rest.head?.toList ++ done) c'

/-- **A vreg was last assigned this operand**: of the instructions that wrote the vreg or
what the operand reads, the last one is the `Mv` of the operand to the vreg. -/
def Established (x : Nat) (v : Val) : List Inst → Prop
  | [] => False
  | i :: done =>
    i.op = .Mv ∧ i.dst = some x ∧ i.a = v ∨
      i.dst ≠ some x ∧ (∀ r ∈ v.reg?, i.dst ≠ some r) ∧ Established x v done

instance Established.decidable (x : Nat) (v : Val) : ∀ done, Decidable (Established x v done)
  | [] => .isFalse id
  | _ :: done =>
    have := Established.decidable x v done
    inferInstanceAs (Decidable (_ ∨ _))

/-- **Two functions that do the same**: in any number of steps they return the same, with the
same globals, and make the same calls and stores of globals in the same order. -/
structure SameBehaviour (F F' : IRFunc) (call : Callee) (junk : Regs) (args : List Word)
    (G : Globals) : Prop where
  run : ∀ n, F'.run call junk n args G = F.run call junk n args G
  events : args.length = F.paramRegs.length → ∀ n,
    trace (F'.step call) Config.event n (F'.entry junk args G) =
      trace (F.step call) Config.event n (F.entry junk args G)

/-- A function runs as another one does, if its machine does. -/
theorem IRFunc.run_congr {F F' : IRFunc} {call : Callee} {junk : Regs} {args : List Word}
    {G : Globals} {n : Nat} (hparams : F'.paramRegs = F.paramRegs)
    (hlen : F'.blocks.length = F.blocks.length)
    (h : Machine.run (F'.step call) n (F'.entry junk args G) =
      Machine.run (F.step call) n (F.entry junk args G)) :
    F'.run call junk n args G = F.run call junk n args G := by
  by_cases hargs : args.length = F.paramRegs.length
  · have hargs' : args.length = F'.paramRegs.length := hparams ▸ hargs
    by_cases hne : F.blocks = []
    · have hnil : F'.blocks = [] := List.eq_nil_of_length_eq_zero (by rw [hlen, hne]; rfl)
      simp [IRFunc.run, hargs, hne, hnil]
    · have hne' : F'.blocks ≠ [] := by
        intro hnil
        exact hne (List.eq_nil_of_length_eq_zero (by rw [← hlen, hnil]; rfl))
      rw [IRFunc.run_eq call junk n G hargs hne, IRFunc.run_eq call junk n G hargs' hne', h]
  · unfold IRFunc.run
    rw [if_neg hargs, if_neg (hparams ▸ hargs)]

/-- **Functions that take related steps do the same.** -/
theorem SameBehaviour.of_lockstep {F F' : IRFunc} {call : Callee} {junk : Regs} {args : List Word}
    {G : Globals} (hparams : F'.paramRegs = F.paramRegs)
    (hlen : F'.blocks.length = F.blocks.length) {I : Config → Config → Prop}
    (h : Lockstep (F.step call) (F'.step call) I) (hevent : ∀ c c', I c c' → c.event = c'.event)
    (hentry : I (F.entry junk args G) (F'.entry junk args G)) :
    SameBehaviour F F' call junk args G where
  run n := IRFunc.run_congr hparams hlen (h.run hentry n).symm
  events _ n := (h.trace hevent hentry n).symm

/-! ## One step of a run -/

/-- A terminator that goes on goes on at the start of a successor. -/
theorem IRFunc.execTerm_inl {F : IRFunc} {bb : BasicBlock} {R : Regs} {G : Globals} {c : Config}
    (h : F.execTerm bb R G = .ok (.inl c)) :
    ∃ s ∈ succsOf bb, s < F.blocks.length ∧ c = F.start s R G := by
  rcases execTerm_congr (F := F) (R := R) (G := G) fun _ _ => rfl with
    ⟨r, hr, -⟩ | ⟨hr, -⟩ | ⟨s, hs, hlt, hr, -⟩
  · cases hr.symm.trans h
  · cases hr.symm.trans h
  · cases hr.symm.trans h
    exact ⟨s, hs, hlt, rfl⟩

/-- **An instruction writes its destination alone.** -/
theorem Inst.exec_frame {inst : Inst} {call : Callee} {R R' : Regs} {G G' : Globals}
    (h : inst.exec call R G = .ok (R', G')) {x : Nat} (hx : inst.dst ≠ some x) : R' x = R x := by
  have hwrite : ∀ w, (R.write inst.dst w) x = R x := by
    intro w
    cases hd : inst.dst with
    | none => rfl
    | some d => exact R.set_of_ne w fun hxd => hx (by rw [hd, hxd])
  unfold Inst.exec at h
  split at h
  case h_6 =>
    obtain ⟨⟨v, G₁⟩, -, h⟩ := Outcome.bind_eq_ok.mp h
    obtain ⟨R₁, hR₁, h⟩ := Outcome.bind_eq_ok.mp h
    cases h
    unfold Regs.writeResult at hR₁
    split at hR₁
    · cases hR₁
      rfl
    · rename_i d v hd
      cases hR₁
      exact R.set_of_ne v fun hxd => hx (by rw [hd, hxd])
    · cases hR₁
  all_goals
    cases h
    first | rfl | exact hwrite _

/-- A copy or a constant that was established still holds. -/
theorem Established.exec {x : Nat} {v : Val} {inst : Inst} {done : List Inst} {call : Callee}
    {R R' : Regs} {G G' : Globals} (h : Established x v (inst :: done))
    (hR : Established x v done → R x = v.eval R)
    (hexec : inst.exec call R G = .ok (R', G')) : R' x = v.eval R' := by
  rcases h with ⟨hop, hd, hv⟩ | ⟨hd, hread, h⟩
  · have hR' : R' = R.set x (v.eval R) := by
      unfold Inst.exec at hexec
      rw [hop, hd, hv] at hexec
      cases hexec
      rfl
    rw [hR', R.set_same]
    cases v with
    | imm i => rfl
    | reg y =>
      by_cases hy : y = x
      · rw [hy]
        exact (R.set_same x _).symm
      · exact (R.set_of_ne _ hy).symm
  · rw [Inst.exec_frame hexec hd, hR h]
    exact Val.eval_congr fun r hr => (Inst.exec_frame hexec (hread r hr)).symm

/-- **What a run established holds.** -/
theorem IRFunc.Ran.established {F : IRFunc} {call : Callee} {c₀ c : Config} {done : List Inst}
    (h : F.Ran call c₀ done c) {x : Nat} {v : Val} (he : Established x v done) :
    c.regs x = v.eval c.regs := by
  induction h with
  | start => exact he.elim
  | @step done c c' h hs ih =>
    unfold IRFunc.step at hs
    cases hrest : c.rest with
    | nil =>
      simp only [hrest] at hs he
      have hregs : c'.regs = c.regs := by
        cases hb : F.blocks[c.block]? with
        | none => simp [hb] at hs
        | some bb =>
          simp only [hb] at hs
          obtain ⟨s, -, -, rfl⟩ := IRFunc.execTerm_inl hs
          rfl
      rw [hregs]
      exact ih he
    | cons inst rest =>
      simp only [hrest] at hs he
      obtain ⟨⟨R, G⟩, hexec, hs⟩ := Outcome.bind_eq_ok.mp hs
      cases hs
      exact he.exec ih hexec

/-- The instructions a run still has before it are the last ones of the block. -/
theorem IRFunc.Ran.suffix {F : IRFunc} {call : Callee} {b : Nat} {R : Regs} {G : Globals}
    {c : Config} {done : List Inst} (h : F.Ran call (F.start b R G) done c) :
    c.rest <:+ (F.blockAt c.block).insts := by
  induction h with
  | start => exact List.suffix_rfl
  | @step done c c' _ hs ih =>
    unfold IRFunc.step at hs
    cases hrest : c.rest with
    | nil =>
      simp only [hrest] at hs
      cases hb : F.blocks[c.block]? with
      | none => simp [hb] at hs
      | some bb =>
        simp only [hb] at hs
        obtain ⟨s, -, -, rfl⟩ := IRFunc.execTerm_inl hs
        exact List.suffix_rfl
    | cons inst rest =>
      simp only [hrest] at hs
      obtain ⟨a, -, hs⟩ := Outcome.bind_eq_ok.mp hs
      cases hs
      rw [hrest] at ih
      exact (List.suffix_cons inst rest).trans ih

/-- The next instruction of a run is one of the function. -/
theorem IRFunc.Ran.mem_insts {F : IRFunc} {call : Callee} {b : Nat} {R : Regs} {G : Globals}
    {c : Config} {done : List Inst} (h : F.Ran call (F.start b R G) done c) {inst : Inst}
    (hi : inst ∈ c.rest.head?) : inst ∈ F.insts := by
  exact IRFunc.mem_insts_iff.mpr ⟨c.block, h.suffix.mem (List.mem_of_mem_head? hi)⟩

/-- In a function whose first block returns, the history is what was executed of it. -/
theorem IRFunc.Ran.of_ret {F : IRFunc} (hterm : (F.blockAt 0).term = .Ret) {call : Callee}
    {junk : Regs} {args : List Word} {G : Globals} {c : Config} {done : List Inst}
    (h : F.Ran call (F.entry junk args G) done c) :
    c.block = 0 ∧ done.reverse ++ c.rest = (F.blockAt 0).insts := by
  induction h with
  | start => exact ⟨rfl, rfl⟩
  | @step done c c' _ hs ih =>
    obtain ⟨hblock, hdone⟩ := ih
    unfold IRFunc.step at hs
    cases hrest : c.rest with
    | nil =>
      simp only [hrest, hblock] at hs
      cases hb : F.blocks[0]? with
      | none => simp [hb] at hs
      | some bb =>
        have hbb : F.blockAt 0 = bb := by simp [IRFunc.blockAt, hb]
        simp only [hb] at hs
        unfold IRFunc.execTerm at hs
        rw [← hbb, hterm] at hs
        cases hs
    | cons inst rest =>
      simp only [hrest] at hs
      obtain ⟨a, -, hs⟩ := Outcome.bind_eq_ok.mp hs
      cases hs
      refine ⟨hblock, ?_⟩
      rw [← hdone, hrest]
      simp

/-! ## Straight-line code -/

/-- **Run some instructions**: the registers and globals they leave, and what they let the
outside see. -/
def runInsts (call : Callee) : List Inst → Regs → Globals → Outcome (Regs × Globals × List Event)
  | [], R, G => .ok (R, G, [])
  | inst :: insts, R, G => do
    let (R', G') ← inst.exec call R G
    let (R'', G'', events) ← runInsts call insts R' G'
    .ok (R'', G'', (inst.event R).toList ++ events)

/-- Running one piece of code behind another. -/
theorem runInsts_append {call : Callee} {is js : List Inst} {R R'' : Regs} {G G'' : Globals}
    {events : List Event} (h : runInsts call (is ++ js) R G = .ok (R'', G'', events)) :
    ∃ R' G' es es', runInsts call is R G = .ok (R', G', es) ∧
      runInsts call js R' G' = .ok (R'', G'', es') ∧ events = es ++ es' := by
  induction is generalizing R G events with
  | nil => exact ⟨R, G, [], events, rfl, h, rfl⟩
  | cons i is ih =>
    obtain ⟨⟨R₁, G₁⟩, hexec, h⟩ := Outcome.bind_eq_ok.mp h
    obtain ⟨⟨R₂, G₂, events'⟩, hrun, heq⟩ := Outcome.bind_eq_ok.mp h
    cases heq
    obtain ⟨R', G', es, es', hrun₁, hrun₂, rfl⟩ := ih hrun
    refine ⟨R', G', (i.event R).toList ++ es, es', ?_, hrun₂, (List.append_assoc ..).symm⟩
    unfold runInsts
    simp only [hexec, Outcome.ok_bind, hrun₁]

/-- **An instruction with the right destination**: a store has none, a call may have one, and
the others do. -/
def Inst.WellFormed (inst : Inst) : Prop :=
  match inst.op with
  | .StoreGlobal => inst.dst = none
  | .Call => True
  | _ => inst.dst.isSome

instance (inst : Inst) : Decidable inst.WellFormed :=
  decidable_of_iff ((inst.op = .StoreGlobal → inst.dst = none) ∧
      (inst.op ≠ .StoreGlobal → inst.op ≠ .Call → inst.dst.isSome)) (by
    unfold Inst.WellFormed
    split <;> simp_all)

theorem Inst.WellFormed.exists_dst {inst : Inst} (h : inst.WellFormed)
    (hcall : inst.op ≠ .Call) (hstore : inst.op ≠ .StoreGlobal) : ∃ d, inst.dst = some d := by
  unfold WellFormed at h
  split at h
  · exact absurd ‹_› hstore
  · exact absurd ‹_› hcall
  · exact Option.isSome_iff_exists.mp h

/-- A step of both runs of two pieces of code. -/
theorem runInsts_cons_congr {call : Callee} {i j : Inst} {is js : List Inst} {R : Regs}
    {G : Globals} (hexec : j.exec call R G = i.exec call R G) (hevent : j.event R = i.event R)
    (h : ∀ R' G', i.exec call R G = .ok (R', G') →
      runInsts call js R' G' = runInsts call is R' G') :
    runInsts call (j :: js) R G = runInsts call (i :: is) R G := by
  unfold runInsts
  rw [hexec, hevent]
  cases hi : i.exec call R G with
  | ok a => simp only [Outcome.ok_bind, h a.1 a.2 hi]
  | timeout => rfl
  | stuck => rfl

/-- What a block leaves in a vreg, when all are zero at first. -/
def leavesIn (bb : BasicBlock) (r : Nat) : Option Word :=
  match runInsts (fun _ => .stuck) bb.insts (fun _ => 0) (fun _ => 0) with
  | .ok (R, _, _) => some (R r)
  | _ => none

end ToyC
