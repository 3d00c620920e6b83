import ToyC.Optimizer

/-!
# What the passes keep

Each pass relies on what the one before it has left: that the vregs and the successors are in range,
that the blocks are numbered in order, and that nothing jumps back to the first one
(`IRFunc.Ordered`). All of them keep this, whatever the function computes, so that each ends where it
is called (`Pass.exec_total`) and the optimizer does (`optimizeIR_total`).
-/

namespace ToyC

open Pipeline

/-- **A function as the passes find it.** -/
structure IRFunc.Ordered (F : IRFunc) : Prop where
  inRange : F.InRange
  ids : F.blocks.map (·.id) = List.range F.blocks.length
  entry : predsOf F.blocks 0 = []

/-- **What may become of a block**: its number stays, no edge is new, and its vregs are in range. -/
structure BlockFits (nv : Nat) (bb bb' : BasicBlock) : Prop where
  id : bb'.id = bb.id
  succs : succsOf bb' ⊆ succsOf bb
  insts : ∀ inst ∈ bb'.insts, inst.InRange nv
  terms : ∀ v ∈ bb'.termUses, v < nv

section Blocks

variable {F F' : IRFunc}

theorem IRFunc.Ordered.block (hF : F.Ordered) {b : Nat} (hb : b < F.blocks.length) :
    BlockFits F.numVregs (F.blockAt b) (F.blockAt b) :=
  have hmem := IRFunc.blockAt_mem hb
  ⟨rfl, List.Subset.refl _, hF.inRange.insts _ hmem, hF.inRange.terms _ hmem⟩

/-- **Changing the blocks one by one** keeps the order. -/
theorem IRFunc.Ordered.of_blocks (hF : F.Ordered) (hparams : F'.paramRegs = F.paramRegs)
    (hnv : F.numVregs ≤ F'.numVregs) (hlen : F'.blocks.length = F.blocks.length)
    (h : ∀ b < F.blocks.length, BlockFits F'.numVregs (F.blockAt b) (F'.blockAt b)) :
    F'.Ordered := by
  have hat : ∀ bb ∈ F'.blocks, ∃ b < F.blocks.length, bb = F'.blockAt b := by
    intro bb hbb
    obtain ⟨b, hb, rfl⟩ := IRFunc.exists_blockAt hbb
    exact ⟨b, hlen ▸ hb, rfl⟩
  have hids : F'.blocks.map (·.id) = List.range F'.blocks.length := by
    refine List.ext_getElem (by simp) fun b hb _ => ?_
    rw [List.length_map] at hb
    have := (h b (hlen ▸ hb)).id.trans (IRFunc.blockAt_id hF.ids (hlen ▸ hb))
    simpa [IRFunc.blockAt, hb] using this
  refine ⟨⟨?_, ?_, ?_, ?_⟩, hids, List.eq_nil_iff_forall_not_mem.mpr fun p hp => ?_⟩
  · rw [hparams]
    exact fun p hp => (hF.inRange.params p hp).trans_le hnv
  · intro bb hbb
    obtain ⟨b, hb, rfl⟩ := hat bb hbb
    exact (h b hb).insts
  · intro bb hbb
    obtain ⟨b, hb, rfl⟩ := hat bb hbb
    exact (h b hb).terms
  · intro bb hbb s hs
    obtain ⟨b, hb, rfl⟩ := hat bb hbb
    rw [hlen]
    exact hF.inRange.succs_lt b s ((h b hb).succs hs)
  · have hs := (mem_predsOf hids).mp hp
    have hp' := (h p (hlen ▸ IRFunc.lt_of_mem_succsOf hs)).succs hs
    rw [← mem_predsOf hF.ids, hF.entry] at hp'
    cases hp'

/-- The same edges. -/
theorem IRFunc.Ordered.of_sameFlow (hF : F.Ordered) (h : SameFlow (computeCFG F) F')
    (hrange : F'.InRange) : F'.Ordered := by
  have hid : ∀ b, (F'.blockAt b).id = (F.blockAt b).id := by
    intro b
    rw [h.blocks b]
    by_cases hb : b < F.blocks.length
    · rw [blockAt_computeCFG hb]
    · rw [blockAt_computeCFG_of_ge hb]
  obtain ⟨hids, hentry⟩ := numbered_of_same (h.length.trans (length_computeCFG F)) hid
    (fun b => (h.succsOf b).trans (succsOf_computeCFG F b)) hF.ids hF.entry
  exact ⟨hrange, hids, hentry⟩

theorem IRFunc.Ordered.map (hF : F.Ordered) {g : BasicBlock → BasicBlock} (hg : g {} = {})
    (h : ∀ b < F.blocks.length, BlockFits F.numVregs (F.blockAt b) (g (F.blockAt b))) :
    ({ F with blocks := F.blocks.map g } : IRFunc).Ordered :=
  hF.of_blocks rfl (Nat.le_refl _) (List.length_map _) fun b hb => by
    rw [IRFunc.blockAt_map hg]
    exact h b hb

end Blocks

/-! ## Instructions -/

section Insts

variable {nv : Nat} {inst inst' : Inst}

theorem Inst.InRange.val_lt (h : inst.InRange nv) {v : Val} (hv : v ∈ inst.operands) {r : Nat}
    (hr : v.reg? = some r) : r < nv := h.1 r (Inst.mem_uses hv hr)

/-- **An instruction that writes the same vreg** and reads vregs in range. -/
theorem Inst.InRange.of_uses (h : inst.InRange nv) (hd : inst'.dst = inst.dst)
    (hop : inst'.op = inst.op ∨ inst'.op ≠ .StoreGlobal ∧ inst.dst.isSome)
    (huses : ∀ r ∈ inst'.uses, r < nv) : inst'.InRange nv := by
  refine ⟨huses, ?_⟩
  rcases hop with hop | ⟨hop, hsome⟩
  · rw [hop, hd]
    exact h.2
  · obtain ⟨d, hdst⟩ := Option.isSome_iff_exists.mp hsome
    rw [hd, hdst]
    cases ho : inst'.op with
    | StoreGlobal => exact absurd ho hop
    | _ => exact h.dst_lt hdst

/-- A copy of an operand, or a negation, with the result of an instruction that has one. -/
theorem Inst.InRange.copy (h : inst.InRange nv) (hsome : inst.dst.isSome)
    (hd : inst'.dst = inst.dst) (hop : inst'.op = .Mv ∨ inst'.op = .Neg)
    (ha : ∀ r, inst'.a.reg? = some r → r < nv)
    (hmagic : inst'.magicVreg = none ∨ inst'.magicVreg = inst.magicVreg) : inst'.InRange nv := by
  refine h.of_uses hd (.inr ⟨?_, hsome⟩) fun r hr => ?_
  · rcases hop with hop | hop <;> rw [hop] <;> decide
  · rcases List.mem_append.mp hr with hr | hr
    · have hoperands : inst'.operands = [inst'.a] := by
        unfold Inst.operands
        rcases hop with hop | hop <;> rw [hop]
      rw [hoperands] at hr
      obtain ⟨v, hv, hr⟩ := List.mem_filterMap.mp hr
      rw [List.mem_singleton.mp hv] at hr
      exact ha r hr
    · rcases hmagic with hmagic | hmagic
      · simp [hmagic] at hr
      · exact h.1 r (List.mem_append_right _ (hmagic ▸ hr))

end Insts

/-! ## The passes on blocks -/

/-- What an instruction is rewritten to reads what it did, or less. -/
theorem foldInst_reads {inst inst' : Inst} (h : foldInst inst = some inst') :
    (isBinary inst.op = true ∨ inst.op = .Neg ∨ inst.op = .Not) ∧
      ∃ v, (inst' = inst.toMv v ∨ inst' = inst.toNeg v) ∧
        ((∃ w, v = .imm w) ∨ isBinary inst.op = true ∧ (v = inst.a ∨ v = inst.b)) := by
  have halgebra : ∀ {inst'}, isBinary inst.op = true → foldAlgebra inst = some inst' →
      ∃ v, (inst' = inst.toMv v ∨ inst' = inst.toNeg v) ∧
        ((∃ w, v = .imm w) ∨ isBinary inst.op = true ∧ (v = inst.a ∨ v = inst.b)) := by
    intro inst' hbin h
    unfold foldAlgebra at h
    split at h <;> (repeat' split at h) <;> first
      | (cases h; exact ⟨_, .inl rfl, .inl ⟨_, rfl⟩⟩)
      | (cases h; exact ⟨_, .inl rfl, .inr ⟨hbin, .inl rfl⟩⟩)
      | (cases h; exact ⟨_, .inl rfl, .inr ⟨hbin, .inr rfl⟩⟩)
      | (cases h; exact ⟨_, .inr rfl, .inr ⟨hbin, .inl rfl⟩⟩)
      | (cases h; exact ⟨_, .inr rfl, .inr ⟨hbin, .inr rfl⟩⟩)
      | cases h
  unfold foldInst at h
  split at h
  · rename_i hbin
    refine ⟨.inl hbin, ?_⟩
    split at h
    · split at h
      · cases h
        exact ⟨_, .inl rfl, .inl ⟨_, rfl⟩⟩
      · exact halgebra hbin h
    · exact halgebra hbin h
  · split at h
    · rename_i hop _
      cases h
      exact ⟨.inr (.inl hop), _, .inl rfl, .inl ⟨_, rfl⟩⟩
    · rename_i hop _
      cases h
      exact ⟨.inr (.inr hop), _, .inl rfl, .inl ⟨_, rfl⟩⟩
    · cases h

/-- A binary operation reads its two operands. -/
theorem Inst.operands_binary {inst : Inst} (h : isBinary inst.op = true) :
    inst.operands = [inst.a, inst.b] := by
  unfold Inst.operands
  cases hop : inst.op <;> first | rfl | (rw [hop] at h; cases h)

/-- What computes a value has a vreg for it. -/
theorem Inst.InRange.dst_isSome {nv : Nat} {inst : Inst} (h : inst.InRange nv)
    (hop : isBinary inst.op = true ∨ inst.op = .Neg ∨ inst.op = .Not) : inst.dst.isSome := by
  obtain ⟨d, hd⟩ := h.exists_dst (fun hc => by rw [hc] at hop; simp [isBinary] at hop)
    fun hs => by rw [hs] at hop; simp [isBinary] at hop
  rw [hd]
  rfl

theorem foldInst_inRange {nv : Nat} {inst inst' : Inst} (hin : inst.InRange nv)
    (h : foldInst inst = some inst') : inst'.InRange nv := by
  obtain ⟨hop, v, hinst', hv⟩ := foldInst_reads h
  have hreads : ∀ r, v.reg? = some r → r < nv := by
    rintro r hr
    rcases hv with ⟨w, rfl⟩ | ⟨hbin, hv⟩
    · cases hr
    · refine hin.val_lt ?_ hr
      rw [Inst.operands_binary hbin]
      rcases hv with rfl | rfl <;> simp
  refine hin.copy (hin.dst_isSome hop) ?_ ?_ ?_ (.inr ?_) <;> rcases hinst' with rfl | rfl
  · rfl
  · rfl
  · exact .inl rfl
  · exact .inr rfl
  · exact hreads
  · exact hreads
  · rfl
  · rfl

/-- The operands behind a replacement. -/
theorem Inst.operands_subst {s : Subst} {inst : Inst} (h : inst.op ≠ .Mv) :
    (inst.subst s).operands = inst.operands.map s.apply := by
  unfold Inst.operands Inst.subst
  rw [if_neg h]
  cases inst.op <;> rfl

section Passes

variable {F : IRFunc}

theorem constFold_ordered (hF : F.Ordered) : (constFold F).1.Ordered := by
  refine hF.of_blocks rfl (Nat.le_refl _) (List.length_map _) fun b hb => ?_
  have hblock := hF.block hb
  rw [constFold, IRFunc.blockAt_mapInsts]
  refine ⟨rfl, List.Subset.refl _, fun inst' hi => ?_, hblock.terms⟩
  obtain ⟨inst, hmem, rfl⟩ := List.mem_map.mp hi
  cases hfold : foldInst inst with
  | none => exact hblock.insts inst hmem
  | some inst' => exact foldInst_inRange (hblock.insts inst hmem) hfold

/-- Replacing operands by operands in range. -/
theorem IRFunc.Ordered.subst (hF : F.Ordered) {s : Subst}
    (hs : ∀ x v r, s x = some v → v.reg? = some r → r < F.numVregs) : (F.subst s).Ordered := by
  have hval : ∀ {v : Val} {r : Nat}, (∀ r', v.reg? = some r' → r' < F.numVregs) →
      (s.apply v).reg? = some r → r < F.numVregs := by
    intro v r hv hr
    cases v with
    | imm w => cases hr
    | reg x =>
      unfold Subst.apply at hr
      cases hx : s x with
      | none =>
        simp only [hx, Option.getD_none] at hr
        exact hv r hr
      | some w =>
        simp only [hx, Option.getD_some] at hr
        exact hs x w r hx hr
  refine hF.of_blocks rfl (Nat.le_refl _) (List.length_map _) fun b hb => ?_
  have hblock := hF.block hb
  rw [IRFunc.blockAt_subst]
  refine ⟨rfl, List.Subset.refl _, fun inst' hi => ?_, fun v hv => ?_⟩
  · obtain ⟨inst, hmem, rfl⟩ := List.mem_map.mp hi
    have hin := hblock.insts inst hmem
    by_cases hmv : inst.op = .Mv
    · rw [Inst.subst, if_pos hmv]
      exact hin
    · have hsame : (inst.subst s).dst = inst.dst ∧ (inst.subst s).magicVreg = inst.magicVreg := by
        rw [Inst.subst, if_neg hmv]
        exact ⟨rfl, rfl⟩
      refine hin.of_uses hsame.1 (.inl Inst.subst_op) fun r hr => ?_
      rcases List.mem_append.mp hr with hr | hr
      · rw [Inst.operands_subst hmv] at hr
        obtain ⟨v', hv', hr⟩ := List.mem_filterMap.mp hr
        obtain ⟨v, hv, rfl⟩ := List.mem_map.mp hv'
        exact hval (fun r' hr' => hin.val_lt hv hr') hr
      · exact hin.1 r (List.mem_append_right _ (hsame.2 ▸ hr))
  · have hterms := hblock.terms
    unfold BasicBlock.termUses BasicBlock.subst at hv
    unfold BasicBlock.termUses at hterms
    cases hterm : (F.blockAt b).term with
    | Br =>
      simp only [hterm, if_true] at hv hterms
      exact hval (fun r' hr' => hterms r' (Option.mem_toList.mpr hr')) (Option.mem_toList.mp hv)
    | Ret =>
      simp only [hterm, true_and] at hv hterms
      cases hret : (F.blockAt b).retHasVal with
      | false => simp [hret] at hv
      | true =>
        simp only [hret, if_true] at hv hterms
        exact hval (fun r' hr' => hterms r' (Option.mem_toList.mpr hr')) (Option.mem_toList.mp hv)
    | Jmp | None => simp [hterm] at hv

theorem resolve_mem (copies : Nat → Option Nat) (n v : Nat) :
    resolve copies n v = v ∨ ∃ x, copies x = some (resolve copies n v) := by
  induction n generalizing v with
  | zero => exact .inl rfl
  | succ n ih =>
    unfold resolve
    cases hv : copies v with
    | none => exact .inl rfl
    | some w =>
      dsimp only
      rcases ih w with h | h
      · exact .inr ⟨v, by rw [h, hv]⟩
      · exact .inr h

theorem copyProp_ordered (hF : F.Ordered) : (copyProp F).1.Ordered := by
  refine hF.subst fun x v r hx hr => ?_
  unfold copySubst at hx
  dsimp only at hx
  split at hx
  · rename_i hne
    cases hx
    cases hr
    obtain ⟨y, hy⟩ := (resolve_mem (copyMap F) 64 x).resolve_left hne
    obtain ⟨inst, hi, hop, -, ha⟩ := copyMap_mem hy
    obtain ⟨b, hi⟩ := IRFunc.mem_insts_iff.mp hi
    refine (hF.inRange.inst_inRange hi).val_lt (v := inst.a) ?_ (by rw [ha]; rfl)
    simp [Inst.operands, hop]
  · cases hx

theorem constProp_ordered (hF : F.Ordered) : (constProp F).1.Ordered := by
  refine hF.subst fun x v r hx hr => ?_
  obtain ⟨k, -, rfl⟩ := Option.map_eq_some_iff.mp hx
  cases hr

end Passes

/-! ## Common subexpressions and pairs -/

/-- **The tables name vregs in range.** -/
structure CseTables.Below (k : Nat) (T : CseTables) : Prop where
  exprs : ∀ key t, T.lookup key = some t → t < k
  loads : ∀ g t, T.availLoad g = some t → t < k

section Cse

variable {k : Nat} {T T' : CseTables} {inst : Inst}

/-- Entries are dropped. -/
theorem CseTables.Below.of_le (h : T.Below k)
    (hexprs : ∀ key t, T'.lookup key = some t → T.lookup key = some t)
    (hloads : ∀ g t, T'.availLoad g = some t → T.availLoad g = some t) : T'.Below k :=
  ⟨fun key t ht => h.exprs key t (hexprs key t ht), fun g t ht => h.loads g t (hloads g t ht)⟩

theorem CseTables.Below.killDst (h : T.Below k) (inst : Inst) : (T.killDst inst).Below k :=
  h.of_le (fun key t ht => by
    rw [lookup_killDst] at ht
    exact (Option.ite_none_left_eq_some.mp ht).2) fun g t ht => (killDst_availLoad ht).1

theorem CseTables.Below.killVals (h : T.Below k) (vs : List Val) :
    (vs.foldl (fun T v => T.killVal v) T).Below k :=
  h.of_le (fun key t ht => by
    rw [lookup_killVals] at ht
    exact (Option.ite_none_left_eq_some.mp ht).2) fun g t ht => killVals_availLoad ht

theorem CseTables.Below.record (h : T.Below k) (key : CseKey) {dst : Option Nat}
    (hd : ∀ d ∈ dst, d < k) : (T.record key dst).Below k where
  exprs key' t ht := by
    rw [lookup_record] at ht
    split at ht
    · exact hd t ht
    · exact h.exprs key' t ht
  loads g t ht := h.loads g t (by cases key <;> exact ht)

theorem CseTables.Below.load (h : T.Below k) (g : Nat) {dst : Option Nat}
    (hd : ∀ d ∈ dst, d < k) :
    ({ T with availLoad := Function.update T.availLoad g dst } : CseTables).Below k where
  exprs key t ht := h.exprs key t (by cases key <;> exact ht)
  loads g' t ht := by
    by_cases hg : g' = g
    · subst hg
      exact hd t (by simpa using ht)
    · exact h.loads g' t (by simpa [Function.update_of_ne hg] using ht)

/-- The copy of a remembered result is in range. -/
theorem cseMove_inRange (hin : inst.InRange k) (hsome : inst.dst.isSome) {t : Nat} (ht : t < k) :
    (cseMove inst t).InRange k :=
  hin.copy hsome rfl (.inl rfl) (fun r hr => by cases hr; exact ht) (.inl rfl)

/-- **What becomes of an instruction is in range**, and so are the tables behind it. -/
theorem cseInst_inRange (hT : T.Below k) (hin : inst.InRange k) :
    (cseInst T inst).1.InRange k ∧ (cseInst T inst).2.2.Below k := by
  have hdst : ∀ d ∈ inst.dst, d < k := fun d hd => hin.dst_lt hd
  have hkill := hT.killDst inst
  cases hkey : inst.key? with
  | some key =>
    rw [cseInst_key hkey]
    cases ht : T.lookup key with
    | none => exact ⟨hin, hkill.record key hdst⟩
    | some t =>
      obtain ⟨hstore, hcall⟩ := Inst.key?_op hkey
      obtain ⟨d, hd⟩ := hin.exists_dst hcall hstore
      exact ⟨cseMove_inRange hin (by rw [hd]; rfl) (hT.exprs key t ht), hkill⟩
  | none =>
    cases hop : inst.op with
    | LoadGlobal =>
      unfold cseInst
      rw [hop]
      cases hg : T.availLoad inst.gid with
      | none => exact ⟨hin, hkill.load _ hdst⟩
      | some t =>
        obtain ⟨d, hd⟩ := hin.exists_dst (by simp [hop]) (by simp [hop])
        exact ⟨cseMove_inRange hin (by rw [hd]; rfl) (hT.loads _ t hg), hkill⟩
    | StoreGlobal =>
      unfold cseInst
      rw [hop]
      have hnone : ∀ d ∈ (none : Option Nat), d < k := fun d hd => by cases hd
      exact ⟨hin, (hT.load inst.gid hnone).killVals [inst.a]⟩
    | Call =>
      unfold cseInst
      rw [hop]
      refine ⟨hin, (CseTables.Below.killVals ?_ inst.args).killDst inst⟩
      exact hT.of_le (fun key t ht => by cases key <;> exact ht) fun g t ht => by cases ht
    | _ =>
      have hne : inst.op ≠ .LoadGlobal ∧ inst.op ≠ .StoreGlobal ∧ inst.op ≠ .Call := by simp [hop]
      rw [cseInst_other hkey hne.1 hne.2.1 hne.2.2]
      exact ⟨hin, hkill⟩

theorem cseInsts_inRange {insts : List Inst} (hT : T.Below k)
    (hin : ∀ inst ∈ insts, inst.InRange k) : ∀ inst ∈ (cseInsts T insts).1, inst.InRange k := by
  induction insts generalizing T with
  | nil => exact fun inst hi => by cases hi
  | cons inst insts ih =>
    rw [List.forall_mem_cons] at hin
    obtain ⟨hfirst, hbelow⟩ := cseInst_inRange hT hin.1
    exact List.forall_mem_cons.mpr ⟨hfirst, ih hbelow hin.2⟩

end Cse

/-- What a pair is folded to is in range. -/
theorem foldPair_inRange {k : Nat} {out : List Inst} {inst inst' : Inst}
    (hout : ∀ i ∈ out, i.InRange k) (hin : inst.InRange k) (h : foldPair out inst = some inst') :
    inst'.InRange k := by
  unfold foldPair at h
  split at h
  · cases h
  · rename_i x hx
    have hop := (negated?_op hx).1
    split at h
    · cases h
    · rename_i i hfind
      split at h
      · rename_i hsame
        cases h
        have hi := hout i (List.mem_of_find?_eq_some hfind)
        refine hin.copy (hin.dst_isSome (.inr hop)) rfl (.inl rfl) (fun r hr => ?_) (.inl rfl)
        refine hi.val_lt (v := i.a) ?_ hr
        unfold Inst.operands
        rw [hsame.1]
        rcases hop with hop | hop <;> rw [hop] <;> exact List.mem_cons_self
      · cases h

theorem peepholeInsts_inRange {k : Nat} {out insts : List Inst} (hout : ∀ i ∈ out, i.InRange k)
    (hin : ∀ i ∈ insts, i.InRange k) : ∀ i ∈ (peepholeInsts out insts).1, i.InRange k := by
  induction insts generalizing out with
  | nil => exact fun i hi => by cases hi
  | cons inst insts ih =>
    rw [List.forall_mem_cons] at hin
    unfold peepholeInsts
    split
    · exact ih hout hin.2
    · have hfirst : ((foldPair out inst).getD inst).InRange k := by
        cases hfold : foldPair out inst with
        | none => exact hin.1
        | some inst' => exact foldPair_inRange hout hin.1 hfold
      exact List.forall_mem_cons.mpr
        ⟨hfirst, ih (List.forall_mem_cons.mpr ⟨hfirst, hout⟩) hin.2⟩

section Passes

variable {F F' : IRFunc} {n : Nat}

theorem cse_ordered (hF : F.Ordered) : (cse F).1.Ordered :=
  hF.map (g := fun bb => (cseBlock bb).1) rfl fun _ hb =>
    have hblock := hF.block hb
    ⟨rfl, List.Subset.refl _, cseInsts_inRange
      ⟨fun key t ht => (by cases key <;> cases ht), fun _ _ ht => (by cases ht)⟩ hblock.insts,
      hblock.terms⟩

theorem peephole_ordered (hF : F.Ordered) : (peephole F).1.Ordered :=
  hF.map (g := fun bb => (peepholeBlock bb).1) rfl fun _ hb =>
    have hblock := hF.block hb
    ⟨rfl, List.Subset.refl _, peepholeInsts_inRange (fun _ hi => by cases hi) hblock.insts,
      hblock.terms⟩

/-- A branch on a constant, and the jump it becomes. -/
theorem threadJump_eq_some {bb bb' : BasicBlock} (h : threadJump bb = some bb') :
    ∃ c, bb.term = .Br ∧ bb.cond = .imm c ∧ bb' = { bb with
      term := .Jmp
      succ0 := if c ≠ 0#32 then bb.succ0 else bb.succ1
      succ1 := 0
      cond := .imm 0 } := by
  unfold threadJump at h
  split at h
  · rename_i c hterm hcond
    exact ⟨c, hterm, hcond, (Option.some.inj h).symm⟩
  · cases h

theorem jumpThreading_ordered (hF : F.Ordered) : (jumpThreading F).1.Ordered := by
  refine hF.map (g := fun bb => (threadJump bb).getD bb) rfl fun b hb => ?_
  have hblock := hF.block hb
  cases hthread : threadJump (F.blockAt b) with
  | none => exact hblock
  | some bb' =>
    obtain ⟨c, hterm, -, rfl⟩ := threadJump_eq_some hthread
    refine ⟨rfl, fun s hs => ?_, hblock.insts, fun v hv => by simp [BasicBlock.termUses] at hv⟩
    have hs : s = if c ≠ 0#32 then (F.blockAt b).succ0 else (F.blockAt b).succ1 := by
      simpa [succsOf] using hs
    simp only [hs, succsOf, hterm]
    split <;> simp

theorem unreachableElim_ordered (hF : F.Ordered) : (unreachableElim F).Ordered := by
  refine hF.of_blocks rfl (Nat.le_refl _) (by simp [unreachableElim]) fun b hb => ?_
  have hblock := hF.block hb
  have hat : (unreachableElim F).blockAt b = F.blockAt b ∨
      (unreachableElim F).blockAt b = { F.blockAt b with insts := [] } := by
    have hmap : (unreachableElim F).blockAt b =
        if b ∈ reachableFrom F F.blocks.length ([0], [0]) then F.blockAt b
        else { F.blockAt b with insts := [] } := by
      simp [unreachableElim, IRFunc.blockAt, hb]
    rw [hmap]
    split
    · exact .inl rfl
    · exact .inr rfl
  rcases hat with hat | hat <;> rw [hat]
  · exact hblock
  · exact ⟨rfl, List.Subset.refl _, fun _ hi => (by cases hi), hblock.terms⟩

/-! ## The other passes -/

theorem IRFunc.Ordered.of_flow (hF : F.Ordered) (h : SameFlow F F') (hrange : F'.InRange) :
    F'.Ordered := by
  obtain ⟨hids, hentry⟩ := numbered_of_same h.length (fun b => by rw [h.blocks b]) h.succsOf hF.ids
    hF.entry
  exact ⟨hrange, hids, hentry⟩

theorem deadCodeElim_ordered (hF : F.Ordered) (h : deadCodeElim F n = .ok F') : F'.Ordered := by
  obtain ⟨p, rfl, -⟩ := (deadCodeElim_swept h).1.kept
  refine hF.of_flow IRFunc.sameFlow_keep (hF.inRange.of_sameFlow IRFunc.sameFlow_keep
    (Nat.le_refl _) fun b inst hi => ?_)
  rw [IRFunc.blockAt_keep] at hi
  exact hF.inRange.inst_inRange (List.mem_of_mem_filter hi)

theorem markUnsignedDiv_ordered (hF : F.Ordered) (h : markUnsignedDiv F n = .ok F') :
    F'.Ordered :=
  hF.of_flow (markUnsignedDiv_sameFlow h) (markUnsignedDiv_inRange hF.inRange h)

/-- The code motion keeps the order also where it does not keep the meaning. -/
theorem licm_ordered (hF : F.Ordered) (h : licm F n = .ok F') : F'.Ordered := by
  unfold licm overLoops at h
  dsimp only at h
  have hrange := inRange_computeCFG hF.inRange
  split at h
  · cases h
    exact hF.of_sameFlow (.refl _) hrange
  · obtain ⟨dom, -, h⟩ := Outcome.bind_eq_ok.mp h
    obtain ⟨hflow, hrange'⟩ := visitEdges_rule
      (P := fun F₁ => SameFlow (computeCFG F) F₁ ∧ F₁.InRange)
      (fun F₁ u v L pre hF₁ _ _ _ _ _ =>
        ⟨hF₁.1.trans sameFlow_licmLoop, inRange_licmLoop hF₁.2⟩)
      ⟨.refl _, hrange⟩ (eachLoop_true _ _) h
    exact hF.of_sameFlow hflow hrange'

/-- **Loading constants in front of the loops**: it ends, and keeps the order and the meaning. -/
theorem hoist_ordered {κ : Type} {value : κ → Word} {step : HoistStep κ}
    {rel : List Inst → Inst → Inst → Prop} (hF : F.Ordered) (hstep : step.Sound value rel)
    (hrel : HoistRel rel) :
    (∃ n F', overLoops (hoistLoop step) F n = .ok F') ∧
      ∀ n F', overLoops (hoistLoop step) F n = .ok F' →
        F'.Ordered ∧ ∀ call junk args G, Equivalent F F' call junk args G := by
  obtain ⟨htotal, hrule⟩ := hoistLoops_rule (P := fun _ => True) hstep hrel hF.inRange hF.ids
    hF.entry trivial fun _ _ _ _ _ _ _ _ _ _ => trivial
  refine ⟨htotal, fun n F' h => ?_⟩
  obtain ⟨-, hflow, hrange, hequiv⟩ := hrule n F' h
  exact ⟨hF.of_sameFlow hflow hrange, hequiv⟩

end Passes

/-! ## The optimizer -/

/-- A pass that reports no change. -/
theorem bind_unreported {x : Outcome IRFunc} {F' : IRFunc} {changed : Bool}
    (h : (x >>= fun F => Outcome.ok (F, false)) = .ok (F', changed)) : x = .ok F' := by
  obtain ⟨F₁, hF₁, heq⟩ := Outcome.bind_eq_ok.mp h
  cases heq
  exact hF₁

section Exec

variable {n : Nat} {F F' : IRFunc} {changed : Bool}

/-- **Every pass keeps the order.** -/
theorem Pass.exec_ordered {p : Pass} (hF : F.Ordered) (h : p.exec n F = .ok (F', changed)) :
    F'.Ordered := by
  cases p with
  | constFold =>
    cases h
    exact constFold_ordered hF
  | cse =>
    cases h
    exact cse_ordered hF
  | copyProp =>
    cases h
    exact copyProp_ordered hF
  | constProp =>
    cases h
    exact constProp_ordered hF
  | peephole =>
    cases h
    exact peephole_ordered hF
  | jumpThreading =>
    cases h
    exact jumpThreading_ordered hF
  | unreachableElim =>
    cases h
    exact unreachableElim_ordered hF
  | deadCodeElim => exact deadCodeElim_ordered hF (bind_unreported h)
  | markUnsignedDiv => exact markUnsignedDiv_ordered hF (bind_unreported h)
  | licm => exact licm_ordered hF (bind_unreported h)
  | hoistLoopConstants =>
    exact ((hoist_ordered hF hoistCmp_sound hoistRel_replaced).2 n F' (bind_unreported h)).1
  | hoistMagicDiv =>
    exact ((hoist_ordered hF hintMagic_sound hoistRel_hinted).2 n F' (bind_unreported h)).1
  | hoistDivModConstants =>
    exact ((hoist_ordered hF hoistDivisor_sound hoistRel_replaced).2 n F' (bind_unreported h)).1

/-- **Every pass ends.** -/
theorem Pass.exec_total (p : Pass) (hF : F.Ordered) : ∃ n r, p.exec n F = .ok r := by
  have hends : ∀ {x : Nat → Outcome IRFunc}, (∃ n F', x n = .ok F') →
      ∃ n r, (x n >>= fun F => Outcome.ok (F, false)) = .ok r := by
    rintro x ⟨n, F', hx⟩
    exact ⟨n, (F', false), by rw [hx]; rfl⟩
  cases p with
  | constFold | cse | copyProp | constProp | peephole | jumpThreading | unreachableElim =>
    exact ⟨0, _, rfl⟩
  | deadCodeElim => exact hends (deadCodeElim_total F)
  | markUnsignedDiv => exact hends (markUnsignedDiv_total F)
  | licm =>
    exact hends (overLoops_total (fun _ _ _ => sameFlow_licmLoop) hF.ids hF.entry
      hF.inRange.succs_lt)
  | hoistLoopConstants => exact hends (hoist_ordered hF hoistCmp_sound hoistRel_replaced).1
  | hoistMagicDiv => exact hends (hoist_ordered hF hintMagic_sound hoistRel_hinted).1
  | hoistDivModConstants => exact hends (hoist_ordered hF hoistDivisor_sound hoistRel_replaced).1

theorem Pass.exec_steady (p : Pass) (F : IRFunc) : Outcome.Steady fun n => p.exec n F := by
  cases p with
  | constFold | cse | copyProp | constProp | peephole | jumpThreading | unreachableElim =>
    exact .const _
  | deadCodeElim => exact (deadCodeElim_steady F).bind fun _ => .const _
  | markUnsignedDiv => exact (markUnsignedDiv_steady F).bind fun _ => .const _
  | licm => exact (overLoops_steady licmLoop F).bind fun _ => .const _
  | hoistLoopConstants => exact (overLoops_steady (hoistLoop hoistCmp) F).bind fun _ => .const _
  | hoistMagicDiv => exact (overLoops_steady (hoistLoop hintMagic) F).bind fun _ => .const _
  | hoistDivModConstants =>
    exact (overLoops_steady (hoistLoop hoistDivisor) F).bind fun _ => .const _

/-- **What a pass keeps at one loop**, it keeps. -/
theorem overLoops_keeps {pass : LoopPass} (h : overLoops pass F n = .ok F') {P : IRFunc → Prop}
    (hF : P (computeCFG F)) (hpass : ∀ F L pre, P F → P (pass F L pre)) : P F' := by
  unfold overLoops at h
  dsimp only at h
  split at h
  · cases h
    exact hF
  · obtain ⟨dom, -, h⟩ := Outcome.bind_eq_ok.mp h
    exact visitEdges_rule (fun F₁ u v L pre hF₁ _ _ _ _ _ => hpass F₁ L pre hF₁) hF
      (eachLoop_true _ _) h

/-- The name of a function, for one. -/
theorem overLoops_name {pass : LoopPass} (h : overLoops pass F n = .ok F')
    (hpass : ∀ F L pre, (pass F L pre).name = F.name) : F'.name = F.name :=
  overLoops_keeps h (P := fun F₁ => F₁.name = F.name) rfl fun F₁ L pre hF₁ =>
    (hpass F₁ L pre).trans hF₁

/-- **Every pass keeps the name of a function.** -/
theorem Pass.exec_name {p : Pass} (h : p.exec n F = .ok (F', changed)) : F'.name = F.name := by
  cases p with
  | constFold | cse | copyProp | constProp | peephole | jumpThreading | unreachableElim =>
    cases h
    rfl
  | deadCodeElim =>
    obtain ⟨p, rfl, -⟩ := (deadCodeElim_swept (bind_unreported h)).1.kept
    rfl
  | markUnsignedDiv => rw [(markUnsignedDiv_marked (bind_unreported h)).1]
  | licm =>
    exact overLoops_name (show overLoops licmLoop F n = _ from bind_unreported h) fun _ _ _ => rfl
  | hoistLoopConstants =>
    exact overLoops_name (show overLoops (hoistLoop hoistCmp) F n = _ from bind_unreported h)
      fun _ _ _ => rfl
  | hoistMagicDiv =>
    exact overLoops_name (show overLoops (hoistLoop hintMagic) F n = _ from bind_unreported h)
      fun _ _ _ => rfl
  | hoistDivModConstants =>
    exact overLoops_name (show overLoops (hoistLoop hoistDivisor) F n = _ from bind_unreported h)
      fun _ _ _ => rfl

end Exec

theorem optimizeFuncs_steady (opt : Bool) (Fs : List IRFunc) :
    Outcome.Steady fun n => optimizeFuncs (Pass.exec n) opt Fs := by
  induction Fs with
  | nil => exact .const _
  | cons F Fs ih =>
    have hF := runStages_steady Pass.exec_steady (stages opt) F
    exact hF.bind fun _ => ih.bind fun _ => .const _

/-- The functions of a module are optimized, one after the other, if each can be. -/
theorem optimizeFuncs_ends {opt : Bool} {Fs : List IRFunc}
    (hFs : ∀ F ∈ Fs, ∃ n F', runStages (Pass.exec n) (stages opt) F = .ok F') :
    ∃ n Fs', optimizeFuncs (Pass.exec n) opt Fs = .ok Fs' := by
  induction Fs with
  | nil => exact ⟨0, [], rfl⟩
  | cons F Fs ih =>
    rw [List.forall_mem_cons] at hFs
    obtain ⟨n, F', hF'⟩ := hFs.1
    obtain ⟨n', Fs', hFs'⟩ := ih hFs.2
    refine ⟨max n n', F' :: Fs', Outcome.bind_eq_ok.mpr ⟨F', ?_, Outcome.bind_eq_ok.mpr
      ⟨Fs', ?_, rfl⟩⟩⟩
    · exact runStages_steady Pass.exec_steady (stages opt) F (Nat.le_max_left ..) hF'
    · exact optimizeFuncs_steady opt Fs (Nat.le_max_right ..) hFs'

theorem optimizeFuncs_total (opt : Bool) {Fs : List IRFunc} (hFs : ∀ F ∈ Fs, F.Ordered) :
    ∃ n Fs', optimizeFuncs (Pass.exec n) opt Fs = .ok Fs' := by
  refine optimizeFuncs_ends fun F hF => ?_
  obtain ⟨n, F', hF', -⟩ := runStages_total Pass.exec_steady (I := IRFunc.Ordered)
    (fun p _ => p.exec_total) (fun _ _ _ _ _ => Pass.exec_ordered) (stages opt) (hFs F hF)
  exact ⟨n, F', hF'⟩

/-- **The optimizer ends.** -/
theorem optimizeIR_total {m : IRModule} {opt : Bool} (hm : ∀ F ∈ (inlined m opt).funcs, F.Ordered) :
    ∃ n M, optimizeIR m opt n = .ok M := by
  obtain ⟨n, Fs, hFs⟩ := optimizeFuncs_total opt hm
  exact ⟨n, _, Outcome.bind_eq_ok.mpr ⟨Fs, hFs, rfl⟩⟩

end ToyC
