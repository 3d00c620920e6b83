import ToyC.Cse

/-!
# Commuted expressions

The comment on the key of a binary expression says that commutative operations are normalised,
and the hash of a key is: a sum or a product has one hash for both orders of its operands. But a
bucket of the table is searched with the equality of keys, which tells the two orders apart, and
`makeKey` takes the operands as they come. So `a + b` is never found for `b + a`: the second of two
commuted operations is replaced where its own order of the operands was computed before, and only
there (`cseBlock_commuted_iff`).
-/

namespace ToyC

/-- Whether the order of the operands makes no difference. -/
def isCommutative (op : Op) : Bool :=
  match op with
  | .Add | .Mul => true
  | _ => false

/-! ## The tables in the middle of a block -/

/-- The tables behind some instructions. -/
def cseTables (T : CseTables) (insts : List Inst) : CseTables :=
  insts.foldl (fun T inst => (cseInst T inst).2.2) T

/-- What becomes of an instruction depends on the tables behind those in front of it. -/
theorem cseInsts_getElem? (T : CseTables) (pre : List Inst) (inst : Inst) (post : List Inst) :
    (cseInsts T (pre ++ inst :: post)).1[pre.length]? =
      some (cseInst (cseTables T pre) inst).1 := by
  induction pre generalizing T with
  | nil => rfl
  | cons i pre ih => exact ih (cseInst T i).2.2

/-- They hold what is remembered. -/
theorem lookup_cseTables {pre : List Inst} (hw : ∀ inst ∈ pre, inst.WellFormed) (key : CseKey) :
    (cseTables {} pre).lookup key = remembered key pre.reverse := by
  have hfrom : ∀ (T : CseTables) (done : List Inst),
      (∀ key, T.lookup key = remembered key done) →
      (cseTables T pre).lookup key = remembered key (pre.reverse ++ done) := by
    induction pre with
    | nil => exact fun T done hT => hT key
    | cons i pre ih =>
      obtain ⟨hwi, hw⟩ := List.forall_mem_cons.mp hw
      intro T done hT
      rw [List.reverse_cons, List.append_assoc]
      exact ih hw _ _ (cseInst_lookup hT hwi)
  have hempty := hfrom {} [] fun key => by cases key <;> rfl
  rwa [List.append_nil] at hempty

/-- **Where nothing makes the pass forget an expression**, its result is the one remembered from
before, or that of the first instruction that computes it. -/
theorem remembered_append {key : CseKey} {later done : List Inst}
    (hw : ∀ inst ∈ later, inst.WellFormed) (hkeep : ∀ inst ∈ later, ¬ inst.Kills key) :
    remembered key (later.reverse ++ done) =
      (remembered key done).or ((later.find? (·.key? = some key)).bind (·.dst)) := by
  induction later generalizing done with
  | nil => simp
  | cons i later ih =>
    obtain ⟨hwi, hw⟩ := List.forall_mem_cons.mp hw
    obtain ⟨hki, hkeep⟩ := List.forall_mem_cons.mp hkeep
    rw [List.reverse_cons, List.append_assoc]
    refine (ih hw hkeep).trans ?_
    rw [List.singleton_append, remembered, if_neg hki, List.find?_cons]
    by_cases hkey : i.key? = some key
    · obtain ⟨d, hd⟩ : ∃ d, i.dst = some d := by
        have hop := Inst.key?_op hkey
        exact hwi.exists_dst hop.2 hop.1
      cases remembered key done with
      | none => simp [hkey, hd]
      | some t => simp [hkey]
    · simp [hkey]

/-! ## Two commuted operations -/

/-- **A vreg holds the value of an operation** behind some instructions: wherever they start and
whatever their calls answer. -/
def HoldsValue (insts : List Inst) (r : Nat) (op : Op) (a b : Val) : Prop :=
  ∀ call R G R' G' events, runInsts call insts R G = .ok (R', G', events) →
    R' r = op.eval (a.eval R') (b.eval R')

/-- An instruction is an operation on two operands. -/
def Inst.Computes (inst : Inst) (t : Nat) (op : Op) (a b : Val) : Prop :=
  inst.op = op ∧ inst.dst = some t ∧ inst.a = a ∧ inst.b = b

instance (inst : Inst) (t : Nat) (op : Op) (a b : Val) : Decidable (inst.Computes t op a b) :=
  inferInstanceAs (Decidable (_ ∧ _))

theorem Inst.Computes.key? {inst : Inst} {t : Nat} {op : Op} {a b : Val}
    (h : inst.Computes t op a b) (hop : isCommutative op) (hreg : a.isReg ∨ b.isReg) :
    inst.key? = some (.binary ⟨op, a, b⟩) := by
  obtain ⟨rfl, -, rfl, rfl⟩ := h
  unfold Inst.key?
  cases hinst : inst.op with
  | Add | Mul =>
    show (if (inst.a.isReg || inst.b.isReg) = true then _ else _) = _
    rw [if_pos (by simpa using hreg), makeKey, hinst]
  | _ =>
    rw [hinst] at hop
    cases hop

section Commuted

variable {bb : BasicBlock} {pre mid post : List Inst} {first second : Inst} {op : Op} {a b : Val}
  {t₁ t₂ : Nat}

/-- **The second of two commuted operations is replaced by a copy of a vreg that holds the value
iff** the pass remembers `b op a`, with the operands in this order, from before the first of
them, or the first instruction from there on that computes it does so before the second, and
the vreg of that result still holds the value. -/
theorem cseBlock_commuted_iff (hw : ∀ inst ∈ bb.insts, inst.WellFormed)
    (hbb : bb.insts = pre ++ first :: mid ++ second :: post) (hop : isCommutative op)
    (hfirst : first.Computes t₁ op a b) (hsecond : second.Computes t₂ op b a)
    (hreg : a.isReg ∨ b.isReg) (ht₁ : a ≠ .reg t₁ ∧ b ≠ .reg t₁)
    (hmid : ∀ inst ∈ mid, inst.op ≠ .Call ∧ inst.op ≠ .StoreGlobal ∧
      ∀ d ∈ inst.dst, a ≠ .reg d ∧ b ≠ .reg d ∧ t₁ ≠ d) :
    (∃ r, (cseBlock bb).1.insts[(pre ++ first :: mid).length]? = some (cseMove second r) ∧
        HoldsValue (pre ++ first :: mid) r op a b) ↔
      ∃ r, (remembered (.binary ⟨op, b, a⟩) pre.reverse).or
          (((first :: mid).find? (·.key? = some (.binary ⟨op, b, a⟩))).bind (·.dst)) = some r ∧
        HoldsValue (pre ++ first :: mid) r op a b := by
  rw [hbb] at hw
  have hfront : ∀ inst ∈ pre ++ first :: mid, inst.WellFormed := fun i hi =>
    hw i (List.mem_append_left _ hi)
  -- Neither the first operation nor what is behind it writes an operand.
  have hkeep : ∀ inst ∈ first :: mid, ¬ inst.Kills (.binary ⟨op, b, a⟩) := by
    refine List.forall_mem_cons.mpr ⟨?_, fun i hi hkills => ?_⟩
    · rw [Inst.kills_of_key (hfirst.key? hop hreg), hfirst.2.1]
      rintro ⟨d, hd, hread⟩
      obtain rfl := Option.some.inj hd
      rcases List.mem_pair.mp hread with hread | hread
      · exact ht₁.2 hread.symm
      · exact ht₁.1 hread.symm
    · obtain ⟨hcall, hstore, hdst⟩ := hmid i hi
      rcases hkills with ⟨d, hd, hread⟩ | ⟨hop, -⟩ | ⟨hop, -⟩
      · rcases List.mem_pair.mp hread with hread | hread
        · exact (hdst d hd).2.1 hread.symm
        · exact (hdst d hd).1 hread.symm
      · exact hstore hop
      · exact hcall hop
  have hlookup : (cseTables {} (pre ++ first :: mid)).lookup (.binary ⟨op, b, a⟩) =
      (remembered (.binary ⟨op, b, a⟩) pre.reverse).or
        (((first :: mid).find? (·.key? = some (.binary ⟨op, b, a⟩))).bind (·.dst)) := by
    rw [lookup_cseTables hfront, List.reverse_append]
    exact remembered_append (fun i hi => hfront i (List.mem_append_right _ hi)) hkeep
  have hat : (cseBlock bb).1.insts[(pre ++ first :: mid).length]? =
      some (cseInst (cseTables {} (pre ++ first :: mid)) second).1 := by
    show (cseInsts {} bb.insts).1[_]? = _
    rw [hbb]
    exact cseInsts_getElem? {} _ second post
  rw [hat, cseInst_key (hsecond.key? hop hreg.symm), hlookup]
  refine exists_congr fun r => and_congr_left fun _ => ?_
  cases (remembered (.binary ⟨op, b, a⟩) pre.reverse).or
      (((first :: mid).find? (·.key? = some (.binary ⟨op, b, a⟩))).bind (·.dst)) with
  | none =>
    refine iff_of_false (fun h => ?_) (fun h => by cases h)
    have hmv : op = .Mv := hsecond.1.symm.trans (congrArg Inst.op (Option.some.inj h))
    rw [hmv] at hop
    cases hop
  | some t => simp [cseMove]

end Commuted

/-- `u = y + x; v = x + y; w = y + x;`: the last sum becomes a copy of the first. -/
def sumsBlock : BasicBlock where
  insts := [{ op := .Add, dst := some 2, a := .reg 1, b := .reg 0 },
    { op := .Add, dst := some 3, a := .reg 0, b := .reg 1 },
    { op := .Add, dst := some 4, a := .reg 1, b := .reg 0 }]

theorem cseBlock_sumsBlock :
    ∃ r, (cseBlock sumsBlock).1.insts[2]? =
        some (cseMove { op := .Add, dst := some 4, a := .reg 1, b := .reg 0 } r) ∧
      HoldsValue (sumsBlock.insts.take 2) r .Add (.reg 0) (.reg 1) := by
  have hfirst : Inst.Computes { op := .Add, dst := some 3, a := .reg 0, b := .reg 1 } 3 .Add
      (.reg 0) (.reg 1) := by decide
  have hsecond : Inst.Computes { op := .Add, dst := some 4, a := .reg 1, b := .reg 0 } 4 .Add
      (.reg 1) (.reg 0) := by decide
  have hbb : sumsBlock.insts = sumsBlock.insts.take 1 ++ _ :: [] ++ _ :: [] := rfl
  refine (cseBlock_commuted_iff (by decide) hbb rfl hfirst hsecond (.inl rfl) (by decide)
    (by simp)).mpr ⟨2, rfl, fun call R G R' G' events h => ?_⟩
  cases h
  exact BitVec.add_comm (R 1) (R 0)

/-- `u = x + y; v = y + x;`: the second sum stays. -/
def commutedBlock : BasicBlock where
  insts := [{ op := .Add, dst := some 2, a := .reg 0, b := .reg 1 },
    { op := .Add, dst := some 3, a := .reg 1, b := .reg 0 }]

/-- Both instructions are in one block, with nothing in between, and the second is no copy. -/
theorem cseBlock_commutedBlock :
    ¬ ∃ r, (cseBlock commutedBlock).1.insts[1]? =
        some (cseMove { op := .Add, dst := some 3, a := .reg 1, b := .reg 0 } r) ∧
      HoldsValue (commutedBlock.insts.take 1) r .Add (.reg 0) (.reg 1) := by
  rintro ⟨r, h, -⟩
  have hstays : (cseBlock commutedBlock).1.insts[1]? =
      some { op := .Add, dst := some 3, a := .reg 1, b := .reg 0 } := by decide
  rw [hstays] at h
  cases congrArg Inst.op (Option.some.inj h)

end ToyC
