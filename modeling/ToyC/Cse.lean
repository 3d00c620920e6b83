import ToyC.IRRuns

/-!
# Common subexpressions of a block

The pass goes through a block and remembers, for each expression computed so far, the vreg of
its result; where the expression is computed again, the result is copied. Three tables are
kept, of binary operations, of negations, and of loads of globals. What is remembered of an
operation is dropped when one of its operands is written, but not when the result is, and an
instruction that writes one of its own operands is remembered as well. What is remembered
of a load is dropped when the result is written, when the global is, and at a call.

So the loads are right, and an operation is where its result is still intact (`Intact`):
where that is so at every reuse, the pass preserves the meaning of the block
(`cseBlock_runInsts`).
-/

namespace ToyC

/-- A binary expression. -/
structure BinKey where
  op : Op
  a : Val
  b : Val
  deriving DecidableEq, Repr

def makeKey (inst : Inst) : BinKey := ⟨inst.op, inst.a, inst.b⟩

/-- **The tables**: the results of the binary operations, of the unary ones, and of the
loads. -/
structure CseTables where
  avail : BinKey → Option Nat := fun _ => none
  availUnary : Op × Nat → Option Nat := fun _ => none
  availLoad : Nat → Option Nat := fun _ => none

namespace CseTables

/-- A vreg is written. -/
def killDef (d : Nat) (T : CseTables) : CseTables where
  avail k := if k.a = .reg d ∨ k.b = .reg d then none else T.avail k
  availUnary k := if k.2 = d then none else T.availUnary k
  availLoad g := (T.availLoad g).filter (· ≠ d)

/-- The destination of an instruction is written. -/
def killDst (inst : Inst) (T : CseTables) : CseTables :=
  match inst.dst with
  | none => T
  | some d => T.killDef d

/-- An operand that is a vreg is treated as written. -/
def killVal (v : Val) (T : CseTables) : CseTables :=
  match v with
  | .imm _ => T
  | .reg r => T.killDef r

end CseTables

/-- The copy of a remembered result. -/
def cseMove (inst : Inst) (r : Nat) : Inst := { op := .Mv, dst := inst.dst, a := .reg r }

/-- **One instruction**: what becomes of it, whether it changed, and the tables behind it. -/
def cseInst (T : CseTables) (inst : Inst) : Inst × Bool × CseTables :=
  let T' := T.killDst inst
  match inst.op, inst.a with
  | .LoadGlobal, _ =>
    match T.availLoad inst.gid with
    | some r => (cseMove inst r, true, T')
    | none => (inst, false, { T' with availLoad := Function.update T'.availLoad inst.gid inst.dst })
  | .StoreGlobal, v =>
    let T := { T with availLoad := Function.update T.availLoad inst.gid none }
    (inst, false, T.killVal v)
  | .Call, _ =>
    let T := { T with availLoad := fun _ => none }
    (inst, false, (inst.args.foldl (fun T v => T.killVal v) T).killDst inst)
  | .Neg, .reg r | .Not, .reg r =>
    match T.availUnary (inst.op, r) with
    | some t => (cseMove inst t, true, T')
    | none =>
      (inst, false, { T' with availUnary := Function.update T'.availUnary (inst.op, r) inst.dst })
  | op, v =>
    if isBinary op && (v.isReg || inst.b.isReg) then
      match T.avail (makeKey inst) with
      | some t => (cseMove inst t, true, T')
      | none => (inst, false, { T' with avail := Function.update T'.avail (makeKey inst) inst.dst })
    else (inst, false, T')

/-- The instructions of a block, one after the other. -/
def cseInsts : CseTables → List Inst → List Inst × Bool
  | _, [] => ([], false)
  | T, inst :: insts =>
    let (inst, changed, T) := cseInst T inst
    let (insts, changed') := cseInsts T insts
    (inst :: insts, changed || changed')

/-- **Remove the common subexpressions of a block.** -/
def cseBlock (bb : BasicBlock) : BasicBlock × Bool :=
  let (insts, changed) := cseInsts {} bb.insts
  ({ bb with insts }, changed)

/-! ## What is remembered -/

/-- An expression the first two tables have entries for. -/
inductive CseKey where
  | binary (key : BinKey)
  | unary (op : Op) (r : Nat)
  deriving DecidableEq, Repr

namespace CseKey

/-- The operands of an expression. -/
def operands : CseKey → List Val
  | binary key => [key.a, key.b]
  | unary _ r => [.reg r]

/-- The value of an expression. -/
def eval (R : Regs) : CseKey → Word
  | binary key => key.op.eval (key.a.eval R) (key.b.eval R)
  | unary .Neg r => -R r
  | unary _ r => Word.ofBool (R r == 0#32)

/-- Whether an expression reads a vreg. -/
def Reads (key : CseKey) (r : Nat) : Prop := .reg r ∈ key.operands

instance (key : CseKey) (r : Nat) : Decidable (key.Reads r) :=
  inferInstanceAs (Decidable (_ ∈ _))

theorem eval_congr {key : CseKey} {R R' : Regs} (h : ∀ r, key.Reads r → R' r = R r) :
    key.eval R' = key.eval R := by
  have hval : ∀ v ∈ key.operands, v.eval R' = v.eval R := by
    intro v hv
    cases v with
    | imm => rfl
    | reg r => exact h r hv
  cases key with
  | binary key =>
    show key.op.eval _ _ = key.op.eval _ _
    rw [hval key.a List.mem_cons_self, hval key.b (by simp [operands])]
  | unary op r =>
    have hr : R' r = R r := hval (.reg r) List.mem_cons_self
    unfold eval
    split <;> simp_all

end CseKey

/-- The entry for an expression. -/
def CseTables.lookup (T : CseTables) : CseKey → Option Nat
  | .binary key => T.avail key
  | .unary op r => T.availUnary (op, r)

/-- The expression of an instruction the first two tables are for. -/
def Inst.key? (inst : Inst) : Option CseKey :=
  match inst.op, inst.a with
  | .Neg, .reg r | .Not, .reg r => some (.unary inst.op r)
  | op, v => if isBinary op && (v.isReg || inst.b.isReg) then some (.binary (makeKey inst)) else none

/-- **An instruction makes the pass forget an expression**: it writes one of its operands,
or is a store or a call that reads one. -/
def Inst.Kills (inst : Inst) (key : CseKey) : Prop :=
  (∃ d ∈ inst.dst, key.Reads d) ∨
    (inst.op = .StoreGlobal ∧ inst.a ∈ key.operands ∧ inst.a.isReg) ∨
    inst.op = .Call ∧ ∃ v ∈ inst.args, v ∈ key.operands ∧ v.isReg

instance (inst : Inst) (key : CseKey) : Decidable (inst.Kills key) :=
  have : Decidable (∃ d ∈ inst.dst, key.Reads d) := Option.decidableExistsMem _
  inferInstanceAs (Decidable (_ ∨ _ ∨ _))

/-- **The result that is remembered of an expression** behind some instructions, the latest
first: that of the first one that computed it, until it is forgotten. -/
def remembered (key : CseKey) : List Inst → Option Nat
  | [] => none
  | inst :: done =>
    if inst.key? = some key ∧ remembered key done = none then inst.dst
    else if inst.Kills key then none
    else remembered key done

/-- **What is remembered is intact**: the instruction that computed the expression wrote none
of its operands, and none behind it wrote the result. -/
def Intact (key : CseKey) : List Inst → Prop
  | [] => True
  | inst :: done =>
    if inst.key? = some key ∧ remembered key done = none then ∀ d ∈ inst.dst, ¬ key.Reads d
    else (∀ t ∈ remembered key done, inst.dst ≠ some t) ∧ Intact key done

/-! ## The tables hold what is remembered -/

namespace CseTables

variable {T : CseTables} {key : CseKey}

/-- Enter the result of an expression. -/
def record (T : CseTables) (key : CseKey) (dst : Option Nat) : CseTables :=
  match key with
  | .binary key => { T with avail := Function.update T.avail key dst }
  | .unary op r => { T with availUnary := Function.update T.availUnary (op, r) dst }

theorem lookup_record {key' : CseKey} {dst : Option Nat} :
    (T.record key' dst).lookup key = if key' = key then dst else T.lookup key := by
  cases key <;> cases key' <;>
    simp [record, lookup, Function.update_apply, eq_comm]

theorem lookup_killDef {d : Nat} :
    (T.killDef d).lookup key = if key.Reads d then none else T.lookup key := by
  cases key with
  | binary key => simp [lookup, killDef, CseKey.Reads, CseKey.operands, eq_comm]
  | unary op r => simp [lookup, killDef, CseKey.Reads, CseKey.operands, eq_comm]

theorem lookup_killDst {inst : Inst} :
    (T.killDst inst).lookup key =
      if ∃ d ∈ inst.dst, key.Reads d then none else T.lookup key := by
  unfold killDst
  cases inst.dst with
  | none => simp
  | some d => simp [lookup_killDef]

theorem lookup_killVal {v : Val} :
    (T.killVal v).lookup key =
      if v ∈ key.operands ∧ v.isReg then none else T.lookup key := by
  cases v with
  | imm => simp [killVal, Val.isReg]
  | reg r =>
    refine lookup_killDef.trans (if_congr ?_ rfl rfl)
    exact (and_iff_left rfl).symm

theorem lookup_killVals {vs : List Val} :
    (vs.foldl (fun T v => T.killVal v) T).lookup key =
      if ∃ v ∈ vs, v ∈ key.operands ∧ v.isReg then none else T.lookup key := by
  induction vs generalizing T with
  | nil => simp
  | cons v vs ih =>
    rw [List.foldl_cons, ih, lookup_killVal]
    simp only [List.exists_mem_cons_iff]
    split <;> split <;> simp_all

end CseTables

section Steps

variable {T : CseTables} {inst : Inst} {key : CseKey}

/-- **An expression** is copied where its result is remembered, and remembered where not. -/
theorem cseInst_key (h : inst.key? = some key) :
    cseInst T inst =
      match T.lookup key with
      | some t => (cseMove inst t, true, T.killDst inst)
      | none => (inst, false, (T.killDst inst).record key inst.dst) := by
  unfold Inst.key? at h
  unfold cseInst
  cases hop : inst.op with
  | Neg | Not =>
    rw [hop] at h
    cases ha : inst.a with
    | imm =>
      rw [ha] at h
      cases h
    | reg r =>
      rw [ha] at h
      obtain rfl := Option.some.inj h
      show (match T.availUnary (_, r) with | some t => _ | none => _) = _
      cases ht : T.availUnary (_, r) with
      | none => simp only [CseTables.lookup, ht, CseTables.record]
      | some t => simp only [CseTables.lookup, ht]
  | LoadGlobal | StoreGlobal | Call | Mv =>
    rw [hop] at h
    cases h
  | _ =>
    rw [hop] at h
    simp only [isBinary, Bool.true_and] at h ⊢
    split at h
    · rename_i hreg
      obtain rfl := Option.some.inj h
      rw [if_pos hreg]
      cases ht : T.avail (makeKey inst) with
      | none => simp only [CseTables.lookup, ht, CseTables.record]
      | some t => simp only [CseTables.lookup, ht]
    · cases h

/-- What no table is for stays, and its destination is written. -/
theorem cseInst_other (h : inst.key? = none) (hload : inst.op ≠ .LoadGlobal)
    (hstore : inst.op ≠ .StoreGlobal) (hcall : inst.op ≠ .Call) :
    cseInst T inst = (inst, false, T.killDst inst) := by
  unfold Inst.key? at h
  unfold cseInst
  cases hop : inst.op with
  | LoadGlobal => exact absurd hop hload
  | StoreGlobal => exact absurd hop hstore
  | Call => exact absurd hop hcall
  | Mv => rfl
  | Neg | Not =>
    rw [hop] at h
    cases ha : inst.a with
    | imm => rfl
    | reg r =>
      rw [ha] at h
      cases h
  | _ =>
    rw [hop] at h
    simp only [isBinary, Bool.true_and] at h ⊢
    split at h
    · cases h
    · rename_i hreg
      rw [if_neg hreg]

theorem Inst.key?_op (h : inst.key? = some key) : inst.op ≠ .StoreGlobal ∧ inst.op ≠ .Call := by
  constructor <;>
  · intro hop
    unfold Inst.key? at h
    rw [hop] at h
    cases h

/-- An expression kills what reads its result. -/
theorem Inst.kills_of_key (h : inst.key? = some key) (key' : CseKey) :
    inst.Kills key' ↔ ∃ d ∈ inst.dst, key'.Reads d := by
  have hop := Inst.key?_op h
  simp [Inst.Kills, hop.1, hop.2]

/-- Any other instruction has no effect on the tables but the kills. -/
theorem cseInst_lookup_of_key_none (h : inst.key? = none) (hw : inst.WellFormed) :
    (cseInst T inst).2.2.lookup key = if inst.Kills key then none else T.lookup key := by
  have hkills : inst.op ≠ .StoreGlobal → inst.op ≠ .Call →
      ((T.killDst inst).lookup key = if inst.Kills key then none else T.lookup key) := by
    intro hstore hcall
    rw [CseTables.lookup_killDst]
    exact if_congr (by simp [Inst.Kills, hstore, hcall]) rfl rfl
  cases hop : inst.op with
  | LoadGlobal =>
    have hk := hkills (by simp [hop]) (by simp [hop])
    unfold cseInst
    rw [hop]
    cases T.availLoad inst.gid with
    | none => cases key <;> exact hk
    | some r => exact hk
  | StoreGlobal =>
    unfold Inst.WellFormed at hw
    unfold cseInst
    rw [hop] at hw ⊢
    refine CseTables.lookup_killVal.trans ?_
    have hiff : inst.a ∈ key.operands ∧ inst.a.isReg ↔ inst.Kills key := by
      simp [Inst.Kills, hop, hw]
    cases key <;> exact if_congr hiff rfl rfl
  | Call =>
    unfold cseInst
    rw [hop]
    refine CseTables.lookup_killDst.trans ?_
    rw [CseTables.lookup_killVals]
    have hiff : inst.Kills key ↔
        (∃ d ∈ inst.dst, key.Reads d) ∨ ∃ v ∈ inst.args, v ∈ key.operands ∧ v.isReg := by
      simp [Inst.Kills, hop]
    rw [if_congr hiff rfl rfl]
    cases key <;> split <;> split <;> simp_all [CseTables.lookup]
  | _ =>
    have hne : inst.op ≠ .LoadGlobal ∧ inst.op ≠ .StoreGlobal ∧ inst.op ≠ .Call := by simp [hop]
    rw [cseInst_other h hne.1 hne.2.1 hne.2.2]
    exact hkills hne.2.1 hne.2.2

/-- **The tables hold what is remembered.** -/
theorem cseInst_lookup {done : List Inst} (hT : ∀ key, T.lookup key = remembered key done)
    (hw : inst.WellFormed) (key : CseKey) :
    (cseInst T inst).2.2.lookup key = remembered key (inst :: done) := by
  unfold remembered
  cases hkey : inst.key? with
  | none =>
    rw [if_neg (by simp), cseInst_lookup_of_key_none hkey hw, hT]
  | some key' =>
    rw [cseInst_key hkey, hT]
    have hkills := Inst.kills_of_key hkey key
    cases ht : remembered key' done with
    | none =>
      simp only [CseTables.lookup_record, CseTables.lookup_killDst, hT]
      by_cases heq : key' = key
      · subst heq
        simp [ht]
      · have hne : ¬ (some key' = some key ∧ remembered key done = none) := by simp [heq]
        rw [if_neg heq, if_neg hne, if_congr hkills rfl rfl]
    | some t =>
      have hne : ¬ (some key' = some key ∧ remembered key done = none) := by
        rintro ⟨heq, hnone⟩
        simp_all
      simp only [CseTables.lookup_killDst, hT]
      rw [if_neg hne, if_congr hkills rfl rfl]

end Steps

/-! ## Their values -/

section Values

variable {call : Callee} {inst : Inst} {key : CseKey} {R R' : Regs} {G G' : Globals}

/-- The operation of an expression. -/
theorem Inst.exec_key (h : inst.key? = some key) :
    inst.exec call R G = .ok (R.write inst.dst (key.eval R), G) := by
  unfold Inst.key? at h
  unfold Inst.exec
  cases hop : inst.op with
  | Neg | Not =>
    rw [hop] at h
    cases ha : inst.a with
    | imm =>
      rw [ha] at h
      cases h
    | reg r =>
      rw [ha] at h
      obtain rfl := Option.some.inj h
      rfl
  | LoadGlobal | StoreGlobal | Call | Mv =>
    rw [hop] at h
    cases h
  | _ =>
    rw [hop] at h
    simp only [isBinary, Bool.true_and] at h
    split at h
    · obtain rfl := Option.some.inj h
      simp only [CseKey.eval, makeKey, hop]
    · cases h

theorem Inst.event_key (h : inst.key? = some key) : inst.event R = none := by
  have hop := Inst.key?_op h
  unfold Inst.event
  split
  · exact absurd ‹_› hop.1
  · exact absurd ‹_› hop.2
  · rfl

/-- **What is remembered and intact has the value of the expression.** -/
theorem Intact.exec {done : List Inst}
    (hR : ∀ t, remembered key done = some t → Intact key done → R t = key.eval R)
    (hexec : inst.exec call R G = .ok (R', G')) {t : Nat}
    (ht : remembered key (inst :: done) = some t) (hi : Intact key (inst :: done)) :
    R' t = key.eval R' := by
  unfold remembered at ht
  unfold Intact at hi
  by_cases hnew : inst.key? = some key ∧ remembered key done = none
  · -- The instruction computes it, and its operands stay as they were.
    rw [if_pos hnew] at ht hi
    have heq : key.eval R' = key.eval R := CseKey.eval_congr fun r hr =>
      Inst.exec_frame hexec fun hd => hi r hd hr
    rw [Inst.exec_key hnew.1, ht] at hexec
    cases hexec
    rw [heq]
    exact R.set_same t _
  · rw [if_neg hnew] at ht hi
    split at ht
    · cases ht
    · rename_i hkill
      have heq : key.eval R' = key.eval R := CseKey.eval_congr fun r hr =>
        Inst.exec_frame hexec fun hd => hkill (.inl ⟨r, hd, hr⟩)
      rw [heq, Inst.exec_frame hexec (hi.1 t ht)]
      exact hR t ht hi.2

/-- The tables hold loaded values. -/
def CseTables.LoadsHold (T : CseTables) (R : Regs) (G : Globals) : Prop :=
  ∀ g r, T.availLoad g = some r → R r = G g

theorem CseTables.killDef_availLoad {T : CseTables} {d g r : Nat}
    (h : (T.killDef d).availLoad g = some r) : T.availLoad g = some r ∧ r ≠ d := by
  have h := Option.filter_eq_some_iff.mp h
  exact ⟨h.1, by simpa using h.2⟩

theorem CseTables.killDst_availLoad {T : CseTables} {g r : Nat}
    (h : (T.killDst inst).availLoad g = some r) : T.availLoad g = some r ∧ inst.dst ≠ some r := by
  unfold killDst at h
  cases hd : inst.dst with
  | none =>
    rw [hd] at h
    exact ⟨h, by simp⟩
  | some d =>
    rw [hd] at h
    obtain ⟨h, hne⟩ := killDef_availLoad h
    exact ⟨h, by simpa using hne.symm⟩

theorem CseTables.killVal_availLoad {T : CseTables} {v : Val} {g r : Nat}
    (h : (T.killVal v).availLoad g = some r) : T.availLoad g = some r := by
  cases v with
  | imm => exact h
  | reg d => exact (killDef_availLoad h).1

theorem CseTables.killVals_availLoad {T : CseTables} {vs : List Val} {g r : Nat}
    (h : (vs.foldl (fun T v => T.killVal v) T).availLoad g = some r) :
    T.availLoad g = some r := by
  induction vs generalizing T with
  | nil => exact h
  | cons v vs ih => exact killVal_availLoad (ih h)

/-- An instruction that neither stores nor calls leaves the globals. -/
theorem Inst.exec_globals (hstore : inst.op ≠ .StoreGlobal) (hcall : inst.op ≠ .Call)
    (h : inst.exec call R G = .ok (R', G')) : G' = G := by
  unfold Inst.exec at h
  split at h
  case h_3 => exact absurd ‹_› hstore
  case h_6 => exact absurd ‹_› hcall
  all_goals
    cases h
    rfl

/-- **The table of the loads is right.** -/
theorem CseTables.LoadsHold.exec {T : CseTables} (hT : T.LoadsHold R G)
    (hexec : inst.exec call R G = .ok (R', G')) : (cseInst T inst).2.2.LoadsHold R' G' := by
  -- What only drops the entries of the destination.
  have hdrop : inst.op ≠ .StoreGlobal → inst.op ≠ .Call → (T.killDst inst).LoadsHold R' G' := by
    intro hstore hcall g r hg
    obtain ⟨hg, hne⟩ := killDst_availLoad hg
    rw [Inst.exec_globals hstore hcall hexec, Inst.exec_frame hexec hne]
    exact hT g r hg
  cases hkey : inst.key? with
  | some key =>
    have hop := Inst.key?_op hkey
    rw [cseInst_key hkey]
    cases T.lookup key with
    | some t => exact hdrop hop.1 hop.2
    | none => cases key <;> exact hdrop hop.1 hop.2
  | none =>
    cases hop : inst.op with
    | LoadGlobal =>
      have hold := hdrop (by simp [hop]) (by simp [hop])
      unfold cseInst
      rw [hop]
      cases T.availLoad inst.gid with
      | some r => exact hold
      | none =>
        intro g r hg
        by_cases hgid : g = inst.gid
        · have hdst : inst.dst = some r := by simpa [hgid] using hg
          unfold Inst.exec at hexec
          rw [hop, hdst] at hexec
          cases hexec
          rw [hgid]
          exact R.set_same r _
        · exact hold g r (by simpa [Function.update_of_ne hgid] using hg)
    | StoreGlobal =>
      unfold Inst.exec at hexec
      rw [hop] at hexec
      cases hexec
      unfold cseInst
      rw [hop]
      intro g r hg
      have hg := killVal_availLoad hg
      by_cases hgid : g = inst.gid
      · simp [hgid] at hg
      · rw [hT g r (by simpa [Function.update_of_ne hgid] using hg)]
        simp [Globals.set, hgid]
    | Call =>
      unfold cseInst
      rw [hop]
      intro g r hg
      cases killVals_availLoad (killDst_availLoad hg).1
    | _ =>
      have hne : inst.op ≠ .LoadGlobal ∧ inst.op ≠ .StoreGlobal ∧ inst.op ≠ .Call := by simp [hop]
      rw [cseInst_other hkey hne.1 hne.2.1 hne.2.2]
      exact hdrop hne.2.1 hne.2.2

end Values

/-! ## The block -/

section Block

variable {call : Callee}

/-- **What replaces an instruction does the same**, if what is remembered is intact. -/
theorem cseInst_exec {T : CseTables} {inst : Inst} {R : Regs} {G : Globals}
    (hloads : T.LoadsHold R G)
    (hkey : ∀ key t, inst.key? = some key → T.lookup key = some t → R t = key.eval R) :
    (cseInst T inst).1.exec call R G = inst.exec call R G ∧
      (cseInst T inst).1.event R = inst.event R := by
  cases hk : inst.key? with
  | some key =>
    rw [cseInst_key hk, Inst.exec_key hk, Inst.event_key hk]
    cases ht : T.lookup key with
    | none => exact ⟨Inst.exec_key hk, Inst.event_key hk⟩
    | some t =>
      rw [← hkey key t hk ht]
      exact ⟨rfl, rfl⟩
  | none =>
    cases hop : inst.op with
    | LoadGlobal =>
      unfold cseInst
      rw [hop]
      cases hg : T.availLoad inst.gid with
      | none => exact ⟨rfl, rfl⟩
      | some r =>
        constructor
        · show Outcome.ok (R.write inst.dst (R r), G) = _
          rw [hloads _ r hg]
          unfold Inst.exec
          rw [hop]
        · unfold Inst.event
          rw [hop]
          rfl
    | StoreGlobal | Call =>
      unfold cseInst
      rw [hop]
      exact ⟨rfl, rfl⟩
    | _ =>
      have hne : inst.op ≠ .LoadGlobal ∧ inst.op ≠ .StoreGlobal ∧ inst.op ≠ .Call := by simp [hop]
      rw [cseInst_other hk hne.1 hne.2.1 hne.2.2]
      exact ⟨rfl, rfl⟩

/-- **Every reuse is of an intact result**: where an instruction computes an expression that is
remembered, the first computation of it wrote none of its operands, and nothing between the
two wrote its result. -/
def ReusesIntact (insts : List Inst) : Prop :=
  ∀ done inst rest, insts = done.reverse ++ inst :: rest →
    ∀ key, inst.key? = some key → (remembered key done).isSome → Intact key done

theorem cseInsts_run {rest : List Inst} {T : CseTables} {done : List Inst} {R : Regs}
    {G : Globals} (hw : ∀ inst ∈ rest, inst.WellFormed)
    (hsafe : ReusesIntact (done.reverse ++ rest))
    (hT : ∀ key, T.lookup key = remembered key done) (hloads : T.LoadsHold R G)
    (hR : ∀ key t, remembered key done = some t → Intact key done → R t = key.eval R) :
    runInsts call (cseInsts T rest).1 R G = runInsts call rest R G := by
  induction rest generalizing T done R G with
  | nil => rfl
  | cons inst rest ih =>
    have hwi := hw inst List.mem_cons_self
    have hsame : (cseInst T inst).1.exec call R G = inst.exec call R G ∧
        (cseInst T inst).1.event R = inst.event R := cseInst_exec hloads fun key t hk ht => by
      rw [hT] at ht
      exact hR key t ht (hsafe done inst rest rfl key hk (by rw [ht]; rfl))
    refine runInsts_cons_congr hsame.1 hsame.2 fun R' G' hexec => ?_
    refine ih (fun i hi => hw i (List.mem_cons_of_mem _ hi)) ?_ (cseInst_lookup hT hwi)
      (hloads.exec hexec) fun key t ht hi => Intact.exec (hR key) hexec ht hi
    simpa using hsafe

/-- **Where every reuse is of an intact result, the pass preserves the meaning of the
block**: it leaves the same registers and globals, with the same calls and stores in between. -/
theorem cseBlock_runInsts {bb : BasicBlock} (hw : ∀ inst ∈ bb.insts, inst.WellFormed)
    (hsafe : ReusesIntact bb.insts) (call : Callee) (R : Regs) (G : Globals) :
    runInsts call (cseBlock bb).1.insts R G = runInsts call bb.insts R G :=
  cseInsts_run hw (show ReusesIntact ([].reverse ++ bb.insts) from hsafe)
    (fun key => by cases key <;> rfl)
    (fun _ _ h => by cases h) (fun _ _ h => by cases h)

end Block

/-- `y = x + 1; z = x + 1;`: the second sum becomes a copy of the first. -/
def reuseBlock : BasicBlock where
  insts := [{ op := .Add, dst := some 1, a := .reg 0, b := .imm 1 },
    { op := .Add, dst := some 2, a := .reg 0, b := .imm 1 }]

theorem cseBlock_reuseBlock :
    runInsts (fun _ => .stuck) (cseBlock reuseBlock).1.insts (fun _ => 0) (fun _ => 0) =
      runInsts (fun _ => .stuck) reuseBlock.insts (fun _ => 0) (fun _ => 0) := by
  refine cseBlock_runInsts (by decide) ?_ _ _ _
  intro done inst rest h key hkey _
  generalize hpre : done.reverse = pre at h
  obtain rfl : done = pre.reverse := by rw [← hpre, List.reverse_reverse]
  match pre, h with
  | [], h => trivial
  | [_], h =>
    cases h
    obtain rfl := Option.some.inj hkey
    show Intact _ [_]
    rw [Intact, if_pos (by decide)]
    decide
  | _ :: _ :: _, h => simp [reuseBlock] at h

/-- `y = x + 1; y = 5; z = x + 1;`: the second sum becomes a copy of five. -/
def overwrittenBlock : BasicBlock where
  insts := [{ op := .Add, dst := some 1, a := .reg 0, b := .imm 1 },
    { op := .Mv, dst := some 1, a := .imm 5 },
    { op := .Add, dst := some 2, a := .reg 0, b := .imm 1 }]

/-- `x = x + 1; z = x + 1;`: the second sum becomes a copy of the first. -/
def incrementBlock : BasicBlock where
  insts := [{ op := .Add, dst := some 0, a := .reg 0, b := .imm 1 },
    { op := .Add, dst := some 2, a := .reg 0, b := .imm 1 }]

/-- Both blocks leave another value in the last vreg than before. -/
theorem cseBlock_not_intact :
    leavesIn overwrittenBlock 2 = some 1 ∧ leavesIn (cseBlock overwrittenBlock).1 2 = some 5 ∧
      leavesIn incrementBlock 2 = some 2 ∧ leavesIn (cseBlock incrementBlock).1 2 = some 1 := by
  decide

end ToyC
