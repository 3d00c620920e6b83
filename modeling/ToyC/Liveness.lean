import ToyC.RegAlloc

/-!
# Liveness

A vreg is live at a point of a function when some path from there reads it before it is
written. This is what the allocator must know about; what it computes is the solution of
dataflow equations, once for each block and refined by a walk back through the
instructions. The two agree: the solution at the entry of a block is what is live there
(`IRFunc.liveness_exact`), which a path from block to block witnesses
(`IRFunc.liveAt_iff_path`).
-/

namespace ToyC

/-! ## Functions in range -/

/-- **The registers of an instruction are in range**, and it has a result where its
operation has one. -/
def Inst.InRange (nv : Nat) (inst : Inst) : Prop :=
  (∀ v ∈ inst.uses, v < nv) ∧
    match inst.op, inst.dst with
    | .StoreGlobal, d => d = none
    | .Call, none => True
    | _, some d => d < nv
    | _, none => False

instance (nv : Nat) (inst : Inst) : Decidable (inst.InRange nv) :=
  have : Decidable (match inst.op, inst.dst with
      | .StoreGlobal, d => d = none
      | .Call, none => True
      | _, some d => d < nv
      | _, none => False) := by
    split <;> infer_instance
  inferInstanceAs (Decidable (_ ∧ _))

theorem Inst.InRange.dst_lt {nv : Nat} {inst : Inst} (h : inst.InRange nv) {d : Nat}
    (hd : inst.dst = some d) : d < nv := by
  obtain ⟨-, h⟩ := h
  rw [hd] at h
  cases hop : inst.op <;> rw [hop] at h <;> first | exact h | cases h

theorem Inst.InRange.exists_dst {nv : Nat} {inst : Inst} (h : inst.InRange nv)
    (hcall : inst.op ≠ .Call) (hstore : inst.op ≠ .StoreGlobal) : ∃ d, inst.dst = some d := by
  obtain ⟨-, h⟩ := h
  cases hd : inst.dst with
  | some d => exact ⟨d, rfl⟩
  | none =>
    rw [hd] at h
    cases hop : inst.op with
    | Call => exact absurd hop hcall
    | StoreGlobal => exact absurd hop hstore
    | _ =>
      rw [hop] at h
      exact h.elim

theorem Inst.InRange.mono {nv nv' : Nat} {inst : Inst} (h : inst.InRange nv) (hle : nv ≤ nv') :
    inst.InRange nv' := by
  obtain ⟨huses, h⟩ := h
  refine ⟨fun v hv => (huses v hv).trans_le hle, ?_⟩
  cases hop : inst.op <;> cases hd : inst.dst <;> rw [hop, hd] at h <;>
    first | exact h | exact Nat.lt_of_lt_of_le h hle

/-- **The register and successor indices of a function are in range.** -/
structure IRFunc.InRange (F : IRFunc) : Prop where
  params : ∀ p ∈ F.paramRegs, p < F.numVregs
  insts : ∀ bb ∈ F.blocks, ∀ inst ∈ bb.insts, inst.InRange F.numVregs
  terms : ∀ bb ∈ F.blocks, ∀ v ∈ bb.termUses, v < F.numVregs
  succs : ∀ bb ∈ F.blocks, ∀ b ∈ succsOf bb, b < F.blocks.length

/-- The successors of any block are blocks. -/
theorem IRFunc.InRange.succs_lt {F : IRFunc} (hF : F.InRange) (b : Nat) :
    ∀ s ∈ succsOf (F.blockAt b), s < F.blocks.length := by
  intro s hs
  by_cases hb : b < F.blocks.length
  · exact hF.succs _ (IRFunc.blockAt_mem hb) s hs
  · simp [IRFunc.blockAt_of_ge hb, succsOf] at hs

theorem IRFunc.InRange.inst_inRange {F : IRFunc} (hF : F.InRange) {b : Nat} {inst : Inst}
    (hi : inst ∈ (F.blockAt b).insts) : inst.InRange F.numVregs := by
  by_cases hb : b < F.blocks.length
  · exact hF.insts _ (IRFunc.blockAt_mem hb) inst hi
  · simp [IRFunc.blockAt_of_ge hb] at hi

theorem IRFunc.InRange.termUses_lt {F : IRFunc} (hF : F.InRange) {b v : Nat}
    (hv : v ∈ (F.blockAt b).termUses) : v < F.numVregs := by
  by_cases hb : b < F.blocks.length
  · exact hF.terms _ (IRFunc.blockAt_mem hb) v hv
  · rw [IRFunc.blockAt_of_ge hb] at hv
    cases hv

/-- **A vreg is live at a point**: some path from the point reads it before it is
written. -/
inductive IRFunc.LiveAt (F : IRFunc) : Nat → List Inst → Nat → Prop where
  | read {b : Nat} {inst : Inst} {rest : List Inst} {v : Nat} (h : v ∈ inst.uses) :
      LiveAt F b (inst :: rest) v
  | pass {b : Nat} {inst : Inst} {rest : List Inst} {v : Nat} (h : inst.dst ≠ some v)
      (hrest : LiveAt F b rest v) : LiveAt F b (inst :: rest) v
  | term {b v : Nat} (h : v ∈ (F.blockAt b).termUses) : LiveAt F b [] v
  | succ {b s v : Nat} (hs : s ∈ succsOf (F.blockAt b))
      (h : LiveAt F s (F.blockAt s).insts v) : LiveAt F b [] v

/-- **Every read is preceded by a write** on each path from the entry, where the
parameters are written: nothing else is live there. -/
def IRFunc.ReadsWritten (F : IRFunc) : Prop :=
  ∀ v, F.LiveAt 0 (F.blockAt 0).insts v → v ∈ F.paramRegs

/-! ## The sets of a block -/

/-- What is live in front of some instructions, from what is live behind them. -/
def liveBefore (insts : List Inst) (live : Nat → Prop) (v : Nat) : Prop :=
  match insts with
  | [] => live v
  | inst :: rest => v ∈ inst.uses ∨ inst.dst ≠ some v ∧ liveBefore rest live v

theorem IRFunc.liveAt_iff (F : IRFunc) (b : Nat) (rest : List Inst) (v : Nat) :
    F.LiveAt b rest v ↔ liveBefore rest (F.LiveAt b []) v := by
  induction rest with
  | nil => exact Iff.rfl
  | cons inst rest ih =>
    constructor
    · rintro (h | ⟨h, hrest⟩)
      · exact .inl h
      · exact .inr ⟨h, ih.mp hrest⟩
    · rintro (h | ⟨h, hrest⟩)
      · exact .read h
      · exact .pass h (ih.mpr hrest)

theorem liveBefore_mono {insts : List Inst} {live live' : Nat → Prop} {v : Nat}
    (h : live v → live' v) (hv : liveBefore insts live v) : liveBefore insts live' v := by
  induction insts with
  | nil => exact h hv
  | cons inst rest ih => exact hv.imp id fun hv => ⟨hv.1, ih hv.2⟩

/-- **What is live in front of some instructions** is what they read before they write it, and
what is live behind them and not written. -/
theorem liveBefore_iff {insts : List Inst} {live : Nat → Prop} {v : Nat} :
    liveBefore insts live v ↔ liveBefore insts (fun _ => False) v ∨
      live v ∧ ∀ inst ∈ insts, inst.dst ≠ some v := by
  induction insts with
  | nil => simp [liveBefore]
  | cons inst rest ih =>
    rw [liveBefore, liveBefore, ih, List.forall_mem_cons]
    tauto

/-- The vregs read first, and those written, with one more instruction. -/
def useInst (s : Finset Nat × Finset Nat) (inst : Inst) : Finset Nat × Finset Nat :=
  ((useAll inst.uses s).1, (useAll inst.uses s).2 ∪ inst.dst.toFinset)

/-- **The scan over instructions**, after some vregs were read and some written. -/
theorem mem_scan (insts : List Inst) (s : Finset Nat × Finset Nat) (v : Nat) :
    (v ∈ (insts.foldl useInst s).1 ↔
        v ∈ s.1 ∨ v ∉ s.2 ∧ liveBefore insts (fun _ => False) v) ∧
      (v ∈ (insts.foldl useInst s).2 ↔ v ∈ s.2 ∨ ∃ inst ∈ insts, inst.dst = some v) := by
  induction insts generalizing s with
  | nil => simp [liveBefore]
  | cons inst rest ih =>
    obtain ⟨ihUse, ihDef⟩ := ih (useInst s inst)
    rw [List.foldl_cons, ihUse, ihDef, liveBefore, List.exists_mem_cons_iff]
    simp only [useInst, useAll, Finset.mem_union, Finset.mem_sdiff, List.mem_toFinset,
      Option.mem_toFinset, Option.mem_def]
    constructor <;> tauto

/-- **The forward scan of a block finds the same**: what it reads first, and what is live
behind it and not written in it. -/
theorem BasicBlock.mem_useDef {bb : BasicBlock} {live : Nat → Prop} {v : Nat} :
    liveBefore bb.insts (fun v => v ∈ bb.termUses ∨ live v) v ↔
      v ∈ bb.useDef.1 ∨ live v ∧ v ∉ bb.useDef.2 := by
  obtain ⟨huse, hdef⟩ := mem_scan bb.insts (∅, ∅) v
  rw [liveBefore_iff, show bb.useDef = useAll bb.termUses (bb.insts.foldl useInst (∅, ∅)) from rfl]
  simp only [useAll, Finset.mem_union, Finset.mem_sdiff, List.mem_toFinset, huse, hdef,
    Finset.notMem_empty, false_or, not_false_eq_true, true_and, not_exists, not_and]
  tauto

/-! ## Checking that reads are preceded by writes -/

/-- What is live in front of some instructions, as a list. -/
def liveInList (insts : List Inst) (live : List Nat) : List Nat :=
  insts.foldr (fun inst live => inst.uses ++ live.filter (inst.dst ≠ some ·)) live

theorem mem_liveInList {insts : List Inst} {live : List Nat} {v : Nat} :
    v ∈ liveInList insts live ↔ liveBefore insts (· ∈ live) v := by
  induction insts with
  | nil => exact Iff.rfl
  | cons inst rest ih =>
    show v ∈ inst.uses ++ (liveInList rest live).filter _ ↔ _
    rw [List.mem_append, List.mem_filter, ih, decide_eq_true_iff, and_comm]
    exact Iff.rfl

/-- **A bound on what is live** at the ends of the blocks that the blocks keep bounds what is
live anywhere. -/
theorem IRFunc.LiveAt.mem_bound {F : IRFunc} (out : Nat → List Nat)
    (hterm : ∀ b < F.blocks.length, (F.blockAt b).termUses ⊆ out b)
    (hsucc : ∀ b < F.blocks.length, ∀ s ∈ succsOf (F.blockAt b),
      liveInList (F.blockAt s).insts (out s) ⊆ out b) {b v : Nat} {rest : List Inst}
    (h : F.LiveAt b rest v) : v ∈ liveInList rest (out b) := by
  induction h with
  | read h => exact mem_liveInList.mpr (.inl h)
  | pass h _ ih => exact mem_liveInList.mpr (.inr ⟨h, mem_liveInList.mp ih⟩)
  | @term b v h =>
    by_cases hb : b < F.blocks.length
    · exact hterm b hb h
    · simp [IRFunc.blockAt_of_ge hb, BasicBlock.termUses] at h
  | @succ b s v hs _ ih =>
    by_cases hb : b < F.blocks.length
    · exact hsucc b hb s hs ih
    · simp [IRFunc.blockAt_of_ge hb, succsOf] at hs

/-- Such a bound is enough to see that reads are preceded by writes. -/
theorem IRFunc.readsWritten_of_bound {F : IRFunc} (out : Nat → List Nat)
    (hterm : ∀ b < F.blocks.length, (F.blockAt b).termUses ⊆ out b)
    (hsucc : ∀ b < F.blocks.length, ∀ s ∈ succsOf (F.blockAt b),
      liveInList (F.blockAt s).insts (out s) ⊆ out b)
    (hentry : liveInList (F.blockAt 0).insts (out 0) ⊆ F.paramRegs) : F.ReadsWritten :=
  fun _ hv => hentry (hv.mem_bound out hterm hsucc)

/-! ## The solution of the equations -/

/-- What is live behind the terminator of a block, as the solution has it. -/
def IRFunc.liveBehind (F : IRFunc) (L : Dataflow.Facts Nat) (b v : Nat) : Prop :=
  v ∈ (F.blockAt b).termUses ∨ v ∈ L.out b

/-- Nothing is live at the entry of a block that does not exist. -/
theorem IRFunc.LiveAt.block_lt {F : IRFunc} {b v : Nat} (h : F.LiveAt b (F.blockAt b).insts v) :
    b < F.blocks.length := by
  by_contra hb
  rw [IRFunc.liveAt_iff, IRFunc.blockAt_of_ge hb] at h
  rcases (show F.LiveAt b [] v from h) with - | - | h | ⟨hs, -⟩
  · simp [IRFunc.blockAt_of_ge hb, BasicBlock.termUses] at h
  · simp [IRFunc.blockAt_of_ge hb, succsOf] at hs

/-- What is live in a block is in front of it in the solution. -/
theorem IRFunc.mem_into {F : IRFunc} {L : Dataflow.Facts Nat} {b v : Nat}
    (hL : F.liveness.HoldsAt L b) (h : liveBefore (F.blockAt b).insts (F.liveBehind L b) v) :
    v ∈ L.into b := by
  rw [hL.2]
  rcases BasicBlock.mem_useDef.mp h with hu | ⟨ho, hk⟩
  · exact Finset.mem_union_left _ hu
  · exact Finset.mem_union_right _ (Finset.mem_sdiff.mpr ⟨ho, hk⟩)

/-- **What is live is in the solution.** -/
theorem IRFunc.LiveAt.mem {F : IRFunc} {L : Dataflow.Facts Nat}
    (hL : ∀ b < F.blocks.length, F.liveness.HoldsAt L b) {b v : Nat} {rest : List Inst}
    (h : F.LiveAt b rest v) (hb : b < F.blocks.length) : liveBefore rest (F.liveBehind L b) v := by
  induction h with
  | read h => exact .inl h
  | pass h _ ih => exact .inr ⟨h, ih hb⟩
  | term h => exact .inl h
  | @succ b s v hs h ih =>
    have hslt := h.block_lt
    refine .inr ?_
    rw [(hL b hb).1]
    exact (Dataflow.Problem.mem_outOf _).mpr ⟨s, hs, IRFunc.mem_into (hL s hslt) (ih hslt)⟩

/-- A live vreg is in range. -/
theorem IRFunc.LiveAt.lt {F : IRFunc} (hF : F.InRange) {b v : Nat} {rest : List Inst}
    (h : F.LiveAt b rest v) (hb : b < F.blocks.length)
    (hrest : ∀ inst ∈ rest, inst ∈ (F.blockAt b).insts) : v < F.numVregs := by
  have hmem : ∀ {b}, b < F.blocks.length → F.blockAt b ∈ F.blocks := fun hb =>
    IRFunc.blockAt_mem hb
  induction h with
  | read h => exact (hF.insts _ (hmem hb) _ (hrest _ List.mem_cons_self)).1 _ h
  | pass _ _ ih => exact ih hb fun inst hi => hrest inst (List.mem_cons_of_mem _ hi)
  | term h => exact hF.terms _ (hmem hb) _ h
  | succ hs _ ih => exact ih (hF.succs _ (hmem hb) _ hs) fun _ hi => hi

/-- **The equations are solved** after enough sweeps. -/
theorem IRFunc.liveness_total (F : IRFunc) : ∃ n L, F.liveness.solve n = .ok L := by
  have huse : ∀ b, F.liveness.use b ⊆ (Finset.range F.blocks.length).biUnion F.liveness.use := by
    intro b v hv
    by_cases hb : b < F.blocks.length
    · exact Finset.mem_biUnion.mpr ⟨b, Finset.mem_range.mpr hb, hv⟩
    · have hv : v ∈ (F.blockAt b).useDef.1 := hv
      rw [IRFunc.blockAt_of_ge hb] at hv
      cases hv
  obtain ⟨n, L, h, -⟩ := Dataflow.Problem.solve_total huse
  exact ⟨n, L, h⟩

/-- **Liveness keeps to the flow of the equations.** -/
theorem IRFunc.closed_liveAt (F : IRFunc) :
    F.liveness.Closed (fun b v => F.LiveAt b (F.blockAt b).insts v)
      (fun b v => ∃ s ∈ succsOf (F.blockAt b), F.LiveAt s (F.blockAt s).insts v) := by
  have hblock : ∀ b v, v ∈ (F.blockAt b).useDef.1 ∨
      (∃ s ∈ succsOf (F.blockAt b), F.LiveAt s (F.blockAt s).insts v) ∧
        v ∉ (F.blockAt b).useDef.2 → F.LiveAt b (F.blockAt b).insts v := by
    intro b v h
    have hbefore : liveBefore (F.blockAt b).insts (fun v => v ∈ (F.blockAt b).termUses ∨
        ∃ s ∈ succsOf (F.blockAt b), F.LiveAt s (F.blockAt s).insts v) v :=
      BasicBlock.mem_useDef.mpr h
    refine (F.liveAt_iff b _ v).mpr (liveBefore_mono ?_ hbefore)
    rintro (h | ⟨s, hs, h⟩)
    · exact .term h
    · exact .succ hs h
  exact ⟨fun b v hv => hblock b v (.inl hv), fun b v h hk => hblock b v (.inr ⟨h, hk⟩),
    fun b s hs v h => ⟨s, hs, h⟩⟩

/-! ## Liveness by paths -/

/-- A path from a block on, through blocks that do not write a vreg, to a block that reads it
before it writes it. -/
def IRFunc.ReadOnPath (F : IRFunc) (b v : Nat) : Prop :=
  ∃ path c, (path ++ [c]).head? = some b ∧ F.IsPath (path ++ [c]) ∧
    (∀ p ∈ path, ∀ inst ∈ (F.blockAt p).insts, inst.dst ≠ some v) ∧
    liveBefore (F.blockAt c).insts (· ∈ (F.blockAt c).termUses) v

/-- Such a path goes on from a successor, or ends in the block. -/
theorem IRFunc.readOnPath_iff {F : IRFunc} {b v : Nat} :
    F.ReadOnPath b v ↔ liveBefore (F.blockAt b).insts
      (fun v => v ∈ (F.blockAt b).termUses ∨ ∃ s ∈ succsOf (F.blockAt b), F.ReadOnPath s v) v := by
  constructor
  · rintro ⟨path, c, hhead, hpath, hkeep, hread⟩
    cases path with
    | nil =>
      obtain rfl : c = b := Option.some.inj hhead
      exact liveBefore_mono .inl hread
    | cons p path =>
      obtain rfl : p = b := Option.some.inj hhead
      refine liveBefore_iff.mpr (.inr ⟨.inr ?_, hkeep p List.mem_cons_self⟩)
      obtain ⟨s, rest, hs⟩ : ∃ s rest, path ++ [c] = s :: rest :=
        List.exists_cons_of_ne_nil (by simp)
      unfold IRFunc.IsPath at hpath
      rw [List.cons_append, hs, List.isChain_cons_cons, ← hs] at hpath
      exact ⟨s, hpath.1, path, c, by rw [hs]; rfl, hpath.2,
        fun q hq => hkeep q (List.mem_cons_of_mem _ hq), hread⟩
  · intro h
    rcases liveBefore_iff.mp h with h | ⟨h | ⟨s, hs, path, c, hhead, hpath, hkeep, hread⟩, hb⟩
    · exact ⟨[], b, rfl, .singleton b, by simp, liveBefore_mono False.elim h⟩
    · exact ⟨[], b, rfl, .singleton b, by simp, liveBefore_iff.mpr (.inr ⟨h, hb⟩)⟩
    · obtain ⟨rest, hcons⟩ : ∃ rest, path ++ [c] = s :: rest := List.head?_eq_some_iff.mp hhead
      refine ⟨b :: path, c, rfl, ?_, List.forall_mem_cons.mpr ⟨hb, hkeep⟩, hread⟩
      unfold IRFunc.IsPath at hpath ⊢
      rw [List.cons_append, hcons, List.isChain_cons_cons, ← hcons]
      exact ⟨hs, hpath⟩

/-- **Liveness is a path to a read.** -/
theorem IRFunc.liveAt_iff_path {F : IRFunc} {b v : Nat} :
    F.LiveAt b (F.blockAt b).insts v ↔ F.ReadOnPath b v := by
  constructor
  · have hat : ∀ {b rest v}, F.LiveAt b rest v → liveBefore rest
        (fun v => v ∈ (F.blockAt b).termUses ∨
          ∃ s ∈ succsOf (F.blockAt b), F.ReadOnPath s v) v := by
      intro b rest v h
      induction h with
      | read h => exact .inl h
      | pass h _ ih => exact .inr ⟨h, ih⟩
      | term h => exact .inl h
      | succ hs _ ih => exact .inr ⟨_, hs, IRFunc.readOnPath_iff.mpr ih⟩
    exact fun h => IRFunc.readOnPath_iff.mpr (hat h)
  · rintro ⟨path, c, hhead, hpath, hkeep, hread⟩
    induction path generalizing b with
    | nil =>
      obtain rfl : c = b := Option.some.inj hhead
      exact (F.liveAt_iff c _ v).mpr (liveBefore_mono .term hread)
    | cons p path ih =>
      obtain rfl : p = b := Option.some.inj hhead
      obtain ⟨s, rest, hs⟩ : ∃ s rest, path ++ [c] = s :: rest :=
        List.exists_cons_of_ne_nil (by simp)
      unfold IRFunc.IsPath at hpath
      rw [List.cons_append, hs, List.isChain_cons_cons, ← hs] at hpath
      have hlive := ih (b := s) (by rw [hs]; rfl) hpath.2
        fun q hq => hkeep q (List.mem_cons_of_mem _ hq)
      exact (F.liveAt_iff p _ v).mpr
        (liveBefore_iff.mpr (.inr ⟨.succ hpath.1 hlive, hkeep p List.mem_cons_self⟩))

/-- **The iteration ends, and its result is liveness**: what it has in front of a block is what
some path from there reads before writing it, and behind the block what is in front of one of
its successors. -/
theorem IRFunc.liveness_exact (F : IRFunc) :
    (∃ n L, F.liveness.solve n = .ok L) ∧
      ∀ n L, F.liveness.solve n = .ok L → ∀ b < F.blocks.length, ∀ v,
        (v ∈ L.into b ↔ F.ReadOnPath b v) ∧
          (v ∈ L.out b ↔ ∃ s ∈ succsOf (F.blockAt b), v ∈ L.into s) := by
  refine ⟨F.liveness_total, fun n L hL b hb v => ⟨?_, ?_⟩⟩
  · rw [← IRFunc.liveAt_iff_path]
    have hat := Dataflow.Problem.solve_eq _ hL
    exact ⟨(Dataflow.Problem.solve_least F.closed_liveAt hL).into b v,
      fun h => IRFunc.mem_into (hat b hb) (h.mem hat hb)⟩
  · rw [(Dataflow.Problem.solve_eq _ hL b hb).1]
    exact Dataflow.Problem.mem_outOf _

end ToyC
