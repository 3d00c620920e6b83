import ToyC.Liveness

/-!
# The allocation respects liveness

What the interference graph holds once it is built: a vreg that an instruction writes
interferes with every other one live behind the instruction, the source of a copy
apart; what is live across a call is marked; and the parameters interfere with one
another. The colouring then keeps what interferes apart. `Allocation.Valid` says the
outcome in terms of liveness and of locations only, and is all the simulation of the
allocated code needs.
-/

namespace ToyC

/-! ## Locations -/

/-- **Where a value is kept**: in a register or in a spill slot. -/
inductive Loc where
  | reg (x : XReg)
  | slot (s : Nat)
  deriving DecidableEq, Repr, Inhabited

/-- The location of a vreg. -/
def Allocation.loc (A : Allocation) (v : Nat) : Loc :=
  match A.reg v with
  | some x => .reg x
  | none => .slot ((A.spillSlot v).getD 0)

/-- **An allocation that respects the liveness of a function.** -/
structure Allocation.Valid (A : Allocation) (F : IRFunc) : Prop where
  writes : ∀ b < F.blocks.length, ∀ done inst rest,
    (F.blockAt b).insts = done ++ inst :: rest → ∀ d v, inst.dst = some d →
      F.LiveAt b rest v → v ≠ d → A.loc v = A.loc d → inst.isMove = true ∧ inst.a = .reg v
  calls : ∀ b < F.blocks.length, ∀ done inst rest,
    (F.blockAt b).insts = done ++ inst :: rest → inst.op = .Call → ∀ v, F.LiveAt b rest v →
      inst.dst ≠ some v → ∀ x, A.reg v = some x → isCalleeSaved x = true
  params : ∀ p ∈ F.paramRegs, ∀ q ∈ F.paramRegs, p ≠ q → A.loc p ≠ A.loc q

namespace Interference

/-! ## Building the graph -/

/-- Interference goes both ways. -/
def Symm (I : Interference) : Prop := ∀ v w, w ∈ I.adj v → v ∈ I.adj w

/-- **A graph with more in it.** -/
structure Grows (I I' : Interference) : Prop where
  adj : ∀ v w, w ∈ I.adj v → w ∈ I'.adj v
  callCross : ∀ v, I.callCross v = true → I'.callCross v = true
  symm : I.Symm → I'.Symm

theorem Grows.refl (I : Interference) : Grows I I := ⟨fun _ _ h => h, fun _ h => h, id⟩

theorem Grows.trans {I₁ I₂ I₃ : Interference} (h₁ : Grows I₁ I₂) (h₂ : Grows I₂ I₃) :
    Grows I₁ I₃ :=
  ⟨fun v w h => h₂.adj v w (h₁.adj v w h), fun v h => h₂.callCross v (h₁.callCross v h),
    fun h => h₂.symm (h₁.symm h)⟩

/-- What the steps of a loop add, the loop adds. -/
theorem grows_foldl {α : Type} {f : Interference → α → Interference}
    (hf : ∀ I a, Grows I (f I a)) (as : List α) (I : Interference) : Grows I (as.foldl f I) := by
  induction as generalizing I with
  | nil => exact .refl I
  | cons a as ih => exact (hf I a).trans (ih (f I a))

/-- An edge that one step of a loop adds is there in the end. -/
theorem mem_adj_foldl {α : Type} {f : Interference → α → Interference}
    (hf : ∀ I a, Grows I (f I a)) {as : List α} {a : α} (ha : a ∈ as) {v w : Nat}
    (hadd : ∀ I, w ∈ (f I a).adj v) (I : Interference) : w ∈ (as.foldl f I).adj v := by
  induction as generalizing I with
  | nil => cases ha
  | cons a' as ih =>
    rcases List.mem_cons.mp ha with rfl | ha
    · exact (grows_foldl hf as _).adj v w (hadd I)
    · exact ih ha (f I a')

theorem mem_addInterf {I : Interference} {a b v w : Nat} :
    w ∈ (I.addInterf a b).adj v ↔
      w ∈ I.adj v ∨ a ≠ b ∧ ((v = a ∧ w = b) ∨ (v = b ∧ w = a)) := by
  unfold addInterf
  by_cases hab : a = b
  · simp [hab]
  · rw [if_neg hab]
    show w ∈ (if v = a then _ else if v = b then _ else _) ↔ _
    by_cases hva : v = a
    · subst hva
      rw [if_pos rfl, List.mem_insert_iff]
      constructor
      · rintro (rfl | h)
        · exact .inr ⟨hab, .inl ⟨rfl, rfl⟩⟩
        · exact .inl h
      · rintro (h | ⟨-, ⟨-, rfl⟩ | ⟨rfl, -⟩⟩)
        · exact .inr h
        · exact .inl rfl
        · exact absurd rfl hab
    · rw [if_neg hva]
      by_cases hvb : v = b
      · subst hvb
        rw [if_pos rfl, List.mem_insert_iff]
        constructor
        · rintro (rfl | h)
          · exact .inr ⟨hab, .inr ⟨rfl, rfl⟩⟩
          · exact .inl h
        · rintro (h | ⟨-, ⟨h, -⟩ | ⟨-, rfl⟩⟩)
          · exact .inr h
          · exact absurd h hva
          · exact .inl rfl
      · simp [hva, hvb]

theorem addInterf_grows (I : Interference) (a b : Nat) : Grows I (I.addInterf a b) where
  adj v w h := mem_addInterf.mpr (.inl h)
  callCross v h := by
    unfold addInterf
    split <;> exact h
  symm hI v w h := by
    rw [mem_addInterf] at h ⊢
    rcases h with h | ⟨hab, ⟨rfl, rfl⟩ | ⟨rfl, rfl⟩⟩
    · exact .inl (hI v w h)
    · exact .inr ⟨hab, .inr ⟨rfl, rfl⟩⟩
    · exact .inr ⟨hab, .inl ⟨rfl, rfl⟩⟩

theorem addInterf_mem (I : Interference) {a b : Nat} (h : a ≠ b) :
    b ∈ (I.addInterf a b).adj a :=
  mem_addInterf.mpr (.inr ⟨h, .inl ⟨rfl, rfl⟩⟩)

/-- The step of `addDef` for one vreg. -/
theorem addDef_step_grows (inst : Inst) (d : Nat) (I : Interference) (v : Nat) :
    Grows I (if v = d then I else if inst.isMove && inst.a == .reg v then I
      else I.addInterf d v) := by
  split
  · exact .refl I
  · split
    · exact .refl I
    · exact addInterf_grows I d v

theorem addDef_grows (inst : Inst) (live : List Nat) (I : Interference) :
    Grows I (addDef inst live I) := by
  unfold addDef
  split
  · exact .refl I
  · exact grows_foldl (addDef_step_grows inst _) live I

/-- **The result of an instruction interferes** with what is live behind it. -/
theorem mem_addDef {inst : Inst} {live : List Nat} {d v : Nat} (hd : inst.dst = some d)
    (hv : v ∈ live) (hne : v ≠ d) (hmove : ¬ (inst.isMove = true ∧ inst.a = .reg v))
    (I : Interference) : v ∈ (addDef inst live I).adj d := by
  unfold addDef
  rw [hd]
  refine mem_adj_foldl (addDef_step_grows inst d) hv (fun I => ?_) I
  rw [if_neg hne, if_neg (by simpa using hmove)]
  exact addInterf_mem I (Ne.symm hne)

theorem addCall_grows (inst : Inst) (live : List Nat) (I : Interference) :
    Grows I (addCall inst live I) := by
  unfold addCall
  split
  · exact ⟨fun _ _ h => h, fun v h => by simp [h], id⟩
  · exact .refl I

theorem addMove_grows (inst : Inst) (I : Interference) : Grows I (addMove inst I) := by
  unfold addMove
  split
  · exact ⟨fun _ _ h => h, fun _ h => h, id⟩
  · exact .refl I

theorem scanInst_grows (inst : Inst) (s : List Nat × Interference) :
    Grows s.2 (scanInst inst s).2 :=
  (addDef_grows inst s.1 s.2).trans
    ((addCall_grows inst s.1 _).trans (addMove_grows inst _))

theorem mem_insertAll {vs live : List Nat} {v : Nat} :
    v ∈ vs.foldl (fun live v => live.insert v) live ↔ v ∈ vs ∨ v ∈ live := by
  induction vs generalizing live with
  | nil => simp
  | cons w vs ih =>
    rw [List.foldl_cons, ih, List.mem_insert_iff, List.mem_cons]
    tauto

theorem mem_scanInst {inst : Inst} {s : List Nat × Interference} {v : Nat} :
    v ∈ (scanInst inst s).1 ↔ v ∈ inst.uses ∨ inst.dst ≠ some v ∧ v ∈ s.1 := by
  show v ∈ inst.uses.foldl _ _ ↔ _
  rw [mem_insertAll, List.mem_filter, bne_iff_ne, and_comm]

/-- **What a graph must say of the instructions of a block**, for what is live behind
them. -/
structure Covers (I : Interference) (insts : List Inst) (live : Nat → Prop) : Prop where
  writes : ∀ done inst rest, insts = done ++ inst :: rest → ∀ d v, inst.dst = some d →
    liveBefore rest live v → v ≠ d → ¬ (inst.isMove = true ∧ inst.a = .reg v) → v ∈ I.adj d
  calls : ∀ done inst rest, insts = done ++ inst :: rest → inst.op = .Call → ∀ v,
    liveBefore rest live v → inst.dst ≠ some v → I.callCross v = true

theorem Covers.mono {I I' : Interference} {insts : List Inst} {live : Nat → Prop}
    (h : Covers I insts live) (hI : Grows I I') : Covers I' insts live where
  writes done inst rest hi d v hd hv hne hm :=
    hI.adj d v (h.writes done inst rest hi d v hd hv hne hm)
  calls done inst rest hi hop v hv hd := hI.callCross v (h.calls done inst rest hi hop v hv hd)

/-- **The walk through a block** finds what is live in front of it, and covers it. -/
theorem scan_covers (insts : List Inst) (live : List Nat) (I : Interference) :
    Grows I (insts.foldr scanInst (live, I)).2 ∧
      (∀ v, v ∈ (insts.foldr scanInst (live, I)).1 ↔ liveBefore insts (· ∈ live) v) ∧
      Covers (insts.foldr scanInst (live, I)).2 insts (· ∈ live) := by
  induction insts with
  | nil =>
    refine ⟨.refl I, fun v => Iff.rfl, ⟨fun done inst rest h => ?_, fun done inst rest h => ?_⟩⟩
    · simp at h
    · simp at h
  | cons inst insts ih =>
    obtain ⟨hgrows, hmem, hcov⟩ := ih
    rw [List.foldr_cons]
    generalize insts.foldr scanInst (live, I) = s at hgrows hmem hcov
    have hstep := scanInst_grows inst s
    have hcov' := hcov.mono hstep
    refine ⟨hgrows.trans hstep, fun v => ?_, ⟨?_, ?_⟩⟩
    · rw [mem_scanInst, hmem]
      exact Iff.rfl
    · intro done inst' rest hi d v hd hv hne hm
      cases done with
      | nil =>
        cases hi
        refine ((addCall_grows inst s.1 _).trans (addMove_grows inst _)).adj d v ?_
        exact mem_addDef hd ((hmem v).mpr hv) hne hm s.2
      | cons _ done =>
        cases hi
        exact hcov'.writes done inst' rest rfl d v hd hv hne hm
    · intro done inst' rest hi hop v hv hd
      cases done with
      | nil =>
        cases hi
        refine (addMove_grows inst _).callCross v ?_
        simp only [addCall, hop, if_true]
        simp [(hmem v).mpr hv, hd]
      | cons _ done =>
        cases hi
        exact hcov'.calls done inst' rest rfl hop v hv hd

theorem scanBlock_covers (bb : BasicBlock) (liveOut : List Nat) (I : Interference) :
    Grows I (scanBlock bb liveOut I) ∧
      Covers (scanBlock bb liveOut I) bb.insts fun v => v ∈ bb.termUses ∨ v ∈ liveOut := by
  obtain ⟨hgrows, -, hcov⟩ :=
    scan_covers bb.insts (bb.termUses.foldl (fun live v => live.insert v) liveOut) I
  refine ⟨hgrows, ?_⟩
  have hlive : (fun v => v ∈ bb.termUses ∨ v ∈ liveOut) =
      (· ∈ bb.termUses.foldl (fun live v => live.insert v) liveOut) :=
    funext fun v => propext mem_insertAll.symm
  rw [hlive]
  exact hcov

/-! ## Parameters -/

theorem addParams_grows (liveIn : List Nat) (ps : List Nat) (I : Interference) :
    Grows I (addParams liveIn ps I) := by
  induction ps generalizing I with
  | nil => exact .refl I
  | cons p ps ih =>
    exact ((grows_foldl (fun I q => addInterf_grows I p q) ps I).trans
      (grows_foldl (fun I v => addInterf_grows I p v) liveIn _)).trans (ih _)

/-- **The parameters interfere** with one another. -/
theorem addParams_mem (liveIn : List Nat) {ps : List Nat} (I : Interference) (hI : I.Symm)
    {p q : Nat} (hp : p ∈ ps) (hq : q ∈ ps) (hne : p ≠ q) :
    q ∈ (addParams liveIn ps I).adj p := by
  induction ps generalizing I with
  | nil => cases hp
  | cons r ps ih =>
    have hg₁ := grows_foldl (fun I q => addInterf_grows I r q) ps I
    have hg₂ := grows_foldl (fun I v => addInterf_grows I r v) liveIn
      (ps.foldl (fun I q => I.addInterf r q) I)
    have hsymm := hg₂.symm (hg₁.symm hI)
    have hr : ∀ q ∈ ps, q ≠ r →
        q ∈ (liveIn.foldl (fun I v => I.addInterf r v)
          (ps.foldl (fun I q => I.addInterf r q) I)).adj r := fun q hq hqr =>
      hg₂.adj r q (mem_adj_foldl (fun I q => addInterf_grows I r q) hq
        (fun I => addInterf_mem I (Ne.symm hqr)) I)
    have hg₃ := addParams_grows liveIn ps (liveIn.foldl (fun I v => I.addInterf r v)
      (ps.foldl (fun I q => I.addInterf r q) I))
    rcases List.mem_cons.mp hp with rfl | hp'
    · rcases List.mem_cons.mp hq with rfl | hq'
      · exact absurd rfl hne
      · exact hg₃.adj _ _ (hr q hq' (Ne.symm hne))
    · rcases List.mem_cons.mp hq with rfl | hq'
      · exact hg₃.adj _ _ (hsymm _ _ (hr p hp' hne))
      · exact ih _ hsymm hp' hq'

/-! ## Colouring -/

/-- A register that is picked is allowed and not taken. -/
theorem pick_spec {I : Interference} {reg : Nat → Option XReg} {v : Nat} {c : XReg}
    (h : I.pick reg v = some c) :
    c ∈ I.allowed v ∧ ∀ w ∈ I.adj v, reg w ≠ some c := by
  have hused : ∀ c, (!((I.adj v).filterMap reg).contains c) = true →
      ∀ w ∈ I.adj v, reg w ≠ some c := by
    intro c hc w hw hreg
    have hmem : c ∈ (I.adj v).filterMap reg := List.mem_filterMap.mpr ⟨w, hw, hreg⟩
    simp [hmem] at hc
  unfold pick at h
  rcases Option.or_eq_some_iff.mp h with h | ⟨-, h⟩
  · obtain ⟨p, -, hp⟩ := List.exists_of_findSome?_eq_some h
    obtain ⟨-, hp⟩ := Option.filter_eq_some_iff.mp hp
    rw [Bool.and_eq_true] at hp
    exact ⟨by simpa using hp.2, hused c hp.1⟩
  · exact ⟨List.mem_of_find?_eq_some h, hused c (List.find?_some (p := fun c =>
      !((I.adj v).filterMap reg).contains c) h)⟩

/-- **The colouring so far**, of the vregs in `done`. -/
structure Coloured (I : Interference) (done : List Nat) (A : Allocation) : Prop where
  reg_mem : ∀ v c, A.reg v = some c → v ∈ done ∧ c ∈ I.allowed v
  slot_mem : ∀ v s, A.spillSlot v = some s → v ∈ done ∧ s < A.numSpills ∧ A.reg v = none
  apart : ∀ v w c, w ∈ I.adj v → v ≠ w → A.reg v = some c → A.reg w ≠ some c
  slot_inj : ∀ v w s, A.spillSlot v = some s → A.spillSlot w = some s → v = w
  placed : ∀ v ∈ done, A.reg v = none → ∃ s, A.spillSlot v = some s

theorem coloured_nil (I : Interference) (isLeaf : Bool) : Coloured I [] { isLeaf } where
  reg_mem v c h := by cases h
  slot_mem v s h := by cases h
  apart v w c _ _ h := by cases h
  slot_inj v w s h := by cases h
  placed v h := by cases h

/-- **Colouring one more vreg.** -/
theorem Coloured.colour {I : Interference} (hI : I.Symm) {done : List Nat} {A : Allocation}
    (h : Coloured I done A) {v : Nat} (hv : v ∉ done) :
    Coloured I (v :: done) (I.colour A v) := by
  unfold Interference.colour
  cases hpick : I.pick A.reg v with
  | some c =>
    obtain ⟨hallowed, hfree⟩ := pick_spec hpick
    have hreg : ∀ w, Function.update A.reg v (some c) w = if w = v then some c else A.reg w :=
      fun w => Function.update_apply A.reg v (some c) w
    refine ⟨fun w c' hw => ?_, fun w s hw => ?_, fun w u c' hu hne hw => ?_, h.slot_inj,
      fun w hw hnone => ?_⟩
    · replace hw : Function.update A.reg v (some c) w = some c' := hw
      rw [hreg] at hw
      split at hw
      · rename_i heq
        cases hw
        subst heq
        exact ⟨List.mem_cons_self, hallowed⟩
      · exact ⟨List.mem_cons_of_mem _ (h.reg_mem w c' hw).1, (h.reg_mem w c' hw).2⟩
    · obtain ⟨hmem, hlt, hnone⟩ := h.slot_mem w s hw
      refine ⟨List.mem_cons_of_mem _ hmem, hlt, ?_⟩
      show Function.update A.reg v (some c) w = none
      rw [hreg, if_neg (by rintro rfl; exact hv hmem), hnone]
    · show Function.update A.reg v (some c) u ≠ some c'
      replace hw : Function.update A.reg v (some c) w = some c' := hw
      rw [hreg] at hw ⊢
      split at hw <;> rename_i hwv
      · cases hw
        subst hwv
        rw [if_neg (Ne.symm hne)]
        exact hfree u hu
      · split <;> rename_i huv
        · subst huv
          intro heq
          cases heq
          exact hfree w (hI _ _ hu) hw
        · exact h.apart w u c' hu hne hw
    · replace hnone : Function.update A.reg v (some c) w = none := hnone
      rw [hreg] at hnone
      split at hnone
      · cases hnone
      · rename_i hwv
        exact h.placed w ((List.mem_cons.mp hw).resolve_left hwv) hnone
  | none =>
    have hslot : ∀ w, Function.update A.spillSlot v (some A.numSpills) w =
        if w = v then some A.numSpills else A.spillSlot w :=
      fun w => Function.update_apply A.spillSlot v (some A.numSpills) w
    have hnone : A.reg v = none := by
      cases hr : A.reg v with
      | none => rfl
      | some c => exact absurd (h.reg_mem v c hr).1 hv
    refine ⟨fun w c hw => ⟨List.mem_cons_of_mem _ (h.reg_mem w c hw).1, (h.reg_mem w c hw).2⟩,
      fun w s hw => ?_, h.apart, fun w u s hw hu => ?_, fun w hw hr => ?_⟩
    · replace hw : Function.update A.spillSlot v (some A.numSpills) w = some s := hw
      rw [hslot] at hw
      split at hw
      · rename_i heq
        cases hw
        subst heq
        exact ⟨List.mem_cons_self, Nat.lt_succ_self _, hnone⟩
      · obtain ⟨hmem, hlt, hr⟩ := h.slot_mem w s hw
        exact ⟨List.mem_cons_of_mem _ hmem, Nat.lt_succ_of_lt hlt, hr⟩
    · replace hw : Function.update A.spillSlot v (some A.numSpills) w = some s := hw
      replace hu : Function.update A.spillSlot v (some A.numSpills) u = some s := hu
      rw [hslot] at hw hu
      -- The fresh slot is behind all those in use.
      split at hw <;> rename_i hwv <;> split at hu <;> rename_i huv
      · rw [hwv, huv]
      · cases hw
        exact absurd (h.slot_mem u _ hu).2.1 (Nat.lt_irrefl _)
      · cases hu
        exact absurd (h.slot_mem w _ hw).2.1 (Nat.lt_irrefl _)
      · exact h.slot_inj w u s hw hu
    · show ∃ s, Function.update A.spillSlot v (some A.numSpills) w = some s
      rw [hslot]
      split
      · exact ⟨_, rfl⟩
      · rename_i hwv
        exact h.placed w ((List.mem_cons.mp hw).resolve_left hwv) hr

/-- **Colouring all of them**, each once. -/
theorem Coloured.foldl {I : Interference} (hI : I.Symm) {order done : List Nat}
    {A : Allocation} (h : Coloured I done A) (hnd : order.Nodup) (hdisj : ∀ v ∈ order, v ∉ done) :
    ∃ done', (∀ v, v ∈ done' ↔ v ∈ order ∨ v ∈ done) ∧
      Coloured I done' (order.foldl I.colour A) := by
  induction order generalizing done A with
  | nil => exact ⟨done, by simp, h⟩
  | cons v order ih =>
    rw [List.nodup_cons] at hnd
    obtain ⟨done', hmem, hcol⟩ := ih (h.colour hI (hdisj v List.mem_cons_self)) hnd.2
      fun w hw hd => (List.mem_cons.mp hd).elim (fun heq => hnd.1 (heq ▸ hw))
        (hdisj w (List.mem_cons_of_mem _ hw))
    refine ⟨done', fun w => ?_, hcol⟩
    rw [hmem, List.mem_cons, List.mem_cons]
    tauto

/-- What interferes is kept apart. -/
theorem Coloured.loc_ne {I : Interference} {done : List Nat} {A : Allocation}
    (h : Coloured I done A) {v w : Nat} (hv : v ∈ done) (hw : w ∈ done) (hadj : w ∈ I.adj v)
    (hne : v ≠ w) : A.loc v ≠ A.loc w := by
  unfold Allocation.loc
  cases hrv : A.reg v with
  | some c =>
    cases hrw : A.reg w with
    | some c' =>
      intro heq
      cases heq
      exact h.apart v w c hadj hne hrv hrw
    | none => exact Loc.noConfusion
  | none =>
    cases hrw : A.reg w with
    | some c' => exact Loc.noConfusion
    | none =>
      obtain ⟨s, hs⟩ := h.placed v hv hrv
      obtain ⟨s', hs'⟩ := h.placed w hw hrw
      rw [hs, hs']
      intro heq
      cases heq
      exact hne (h.slot_inj v w s hs hs')

end Interference

/-! ## The allocator -/

/-- **The graph of a function** covers its blocks and its parameters. -/
theorem IRFunc.interference_spec (F : IRFunc) (L : Dataflow.Facts Nat) :
    (F.interference L).Symm ∧
      (∀ b < F.blocks.length, (F.interference L).Covers (F.blockAt b).insts fun v =>
        v ∈ (F.blockAt b).termUses ∨ v ∈ F.row (L.out b)) ∧
      ∀ p ∈ F.paramRegs, ∀ q ∈ F.paramRegs, p ≠ q → q ∈ (F.interference L).adj p := by
  have hblocks : ∀ (bs : List Nat) (I : Interference),
      Interference.Grows I (bs.foldl
        (fun I b => Interference.scanBlock (F.blockAt b) (F.row (L.out b)) I) I) ∧
      ∀ b ∈ bs, (bs.foldl (fun I b =>
          Interference.scanBlock (F.blockAt b) (F.row (L.out b)) I) I).Covers
        (F.blockAt b).insts fun v => v ∈ (F.blockAt b).termUses ∨ v ∈ F.row (L.out b) := by
    intro bs
    induction bs with
    | nil => exact fun I => ⟨.refl I, by simp⟩
    | cons b bs ih =>
      intro I
      obtain ⟨hg, hc⟩ := Interference.scanBlock_covers (F.blockAt b) (F.row (L.out b)) I
      obtain ⟨hg', hc'⟩ := ih (Interference.scanBlock (F.blockAt b) (F.row (L.out b)) I)
      refine ⟨hg.trans hg', fun b' hb' => ?_⟩
      rcases List.mem_cons.mp hb' with rfl | hb'
      · exact hc.mono hg'
      · exact hc' b' hb'
  obtain ⟨hg, hc⟩ := hblocks (List.range F.blocks.length) {}
  have hsymm := hg.symm fun v w h => by cases h
  have hparams := Interference.addParams_grows (F.row (L.into 0)) F.paramRegs
    ((List.range F.blocks.length).foldl
      (fun I b => Interference.scanBlock (F.blockAt b) (F.row (L.out b)) I) {})
  refine ⟨hparams.symm hsymm, fun b hb => (hc b (List.mem_range.mpr hb)).mono hparams,
    fun p hp q hq hne => ?_⟩
  exact Interference.addParams_mem _ _ hsymm hp hq hne

/-- **Where the values of a function may be**: in registers of the two pools, or in spill
slots of their own. -/
structure Allocation.Placed (A : Allocation) (nv : Nat) : Prop where
  reg_mem : ∀ v c, A.reg v = some c → v < nv ∧ c ∈ callerSavedPool ++ calleeSavedPool
  slot_mem : ∀ v s, A.spillSlot v = some s → v < nv ∧ s < A.numSpills ∧ A.reg v = none
  slot_inj : ∀ v w s, A.spillSlot v = some s → A.spillSlot w = some s → v = w
  placed : ∀ v < nv, A.reg v = none → ∃ s, A.spillSlot v = some s
  usedCallee : A.usedCallee = A.calleeInUse nv

/-- **The allocator respects liveness.** -/
theorem allocateRegisters_valid {S : Sorting} {F : IRFunc} (hF : F.InRange) {n : Nat}
    {A : Allocation} (h : allocateRegisters S F n = .ok A) :
    A.Valid F ∧ A.Placed F.numVregs := by
  obtain ⟨L, hL, h⟩ := Outcome.bind_eq_ok.mp h
  have hat := Dataflow.Problem.solve_eq _ hL
  obtain ⟨hsymm, hcov, hparams⟩ := F.interference_spec L
  generalize F.interference L = I at h hsymm hcov hparams
  have hperm : (I.order S F.numVregs).Perm (List.range F.numVregs) := S.perm _ _
  obtain ⟨done, hdone, hcol⟩ := (Interference.coloured_nil I I.isLeaf).foldl hsymm
    (hperm.nodup_iff.mpr List.nodup_range) (by simp)
  have hmem : ∀ v, v ∈ done ↔ v < F.numVregs := fun v => by
    rw [hdone, hperm.mem_iff, List.mem_range]
    simp
  cases h
  have hblock : ∀ b < F.blocks.length, F.blockAt b ∈ F.blocks := fun b hb =>
    IRFunc.blockAt_mem hb
  have hrest : ∀ {insts done rest : List Inst} {inst : Inst}, insts = done ++ inst :: rest →
      ∀ i ∈ rest, i ∈ insts := by
    rintro _ done rest inst rfl i hi
    exact List.mem_append_right _ (List.mem_cons_of_mem _ hi)
  -- What is live is live in the walk through its block.
  have hlive : ∀ b < F.blocks.length, ∀ {done rest : List Inst} {inst : Inst} {v : Nat},
      (F.blockAt b).insts = done ++ inst :: rest → F.LiveAt b rest v → v < F.numVregs ∧
        liveBefore rest (fun v => v ∈ (F.blockAt b).termUses ∨ v ∈ F.row (L.out b)) v := by
    intro b hb done rest inst v hi hv
    have hlt := hv.lt hF hb (hrest hi)
    refine ⟨hlt, liveBefore_mono (fun hv => hv.imp id fun ho => ?_) (hv.mem hat hb)⟩
    exact List.mem_filter.mpr ⟨List.mem_range.mpr hlt, by simpa using ho⟩
  refine ⟨⟨?_, ?_, ?_⟩, ?_⟩
  · intro b hb before inst rest hi d v hd hv hne heq
    obtain ⟨hlt, hv⟩ := hlive b hb hi hv
    have hdlt := (hF.insts _ (hblock b hb) inst (by rw [hi]; simp)).dst_lt hd
    by_contra hmove
    have hadj := (hcov b hb).writes before inst rest hi d v hd hv hne hmove
    exact hcol.loc_ne ((hmem d).mpr hdlt) ((hmem v).mpr hlt) hadj (Ne.symm hne) heq.symm
  · intro b hb before inst rest hi hop v hv hd x hx
    obtain ⟨hlt, hv⟩ := hlive b hb hi hv
    have hcross := (hcov b hb).calls before inst rest hi hop v hv hd
    have hallowed := (hcol.reg_mem v x hx).2
    rw [Interference.allowed, if_pos hcross] at hallowed
    exact isCalleeSaved_of_mem hallowed
  · intro p hp q hq hne
    exact hcol.loc_ne ((hmem p).mpr (hF.params p hp)) ((hmem q).mpr (hF.params q hq))
      (hparams p hp q hq hne) hne
  · refine ⟨fun v c hv => ?_, fun v s hv => ?_, hcol.slot_inj, fun v hv => ?_, rfl⟩
    · obtain ⟨hd, hallowed⟩ := hcol.reg_mem v c hv
      refine ⟨(hmem v).mp hd, ?_⟩
      unfold Interference.allowed at hallowed
      split at hallowed
      · exact List.mem_append_right _ hallowed
      · exact hallowed
    · obtain ⟨hd, hlt, hnone⟩ := hcol.slot_mem v s hv
      exact ⟨(hmem v).mp hd, hlt, hnone⟩
    · exact hcol.placed v ((hmem v).mpr hv)

/-- More fuel changes nothing. -/
theorem allocateRegisters_mono {S : Sorting} {F : IRFunc} {n n' : Nat} (hn : n ≤ n')
    {A : Allocation} (h : allocateRegisters S F n = .ok A) : allocateRegisters S F n' = .ok A := by
  obtain ⟨L, hL, h⟩ := Outcome.bind_eq_ok.mp h
  rw [allocateRegisters, show F.liveness.solve n' = .ok L from Outcome.loop_ok_mono hn hL]
  exact h

/-- The allocator answers. -/
theorem allocateRegisters_total (S : Sorting) (F : IRFunc) :
    ∃ n A, allocateRegisters S F n = .ok A := by
  obtain ⟨n, L, hL⟩ := F.liveness_total
  have h : ∃ A, allocateRegisters S F n = .ok A := by
    rw [allocateRegisters, hL]
    exact ⟨_, rfl⟩
  exact ⟨n, h⟩

end ToyC
