import ToyC.IRRuns

/-!
# Copy propagation and constant propagation

Both passes collect what the `Mv` instructions of a function assign, and then replace vregs
all over the function: by the vreg they were copied from, through chains of such copies, or
by a constant. A vreg may have many assignments, of which the map keeps the last one in the
text, and neither pass asks whether that one still holds where the vreg is read.

So they do not preserve the meaning of a function. They do preserve a run in which every
copy they rely on still holds at the point where they rely on it (`copyProp_sameBehaviour`,
`constProp_sameBehaviour`). That much is true of any replacement of operands by operands
of the same value (`Subst.sameBehaviour`).
-/

namespace ToyC

open Machine

/-! ## Replacing operands -/

/-- What vregs are replaced by, for those that are. -/
abbrev Subst := Nat → Option Val

namespace Subst

variable (s : Subst)

/-- Replace an operand. -/
def apply (v : Val) : Val :=
  match v with
  | .imm i => .imm i
  | .reg r => (s r).getD (.reg r)

/-- Whether an operand is replaced. -/
def hits (v : Val) : Bool :=
  match v with
  | .imm _ => false
  | .reg r => (s r).isSome

end Subst

/-- Replace the operands of an instruction, unless it is an `Mv`. -/
def Inst.subst (s : Subst) (inst : Inst) : Inst :=
  if inst.op = .Mv then inst
  else { inst with a := s.apply inst.a, b := s.apply inst.b, args := inst.args.map s.apply }

/-- Replace the operands of a block. -/
def BasicBlock.subst (s : Subst) (bb : BasicBlock) : BasicBlock :=
  { bb with
    insts := bb.insts.map (·.subst s)
    cond := if bb.term = .Br then s.apply bb.cond else bb.cond
    retVal := if bb.term = .Ret ∧ bb.retHasVal then s.apply bb.retVal else bb.retVal }

/-- Replace the operands of a function. -/
def IRFunc.subst (s : Subst) (F : IRFunc) : IRFunc :=
  { F with blocks := F.blocks.map (·.subst s) }

/-- Whether anything in a function is replaced. -/
def IRFunc.substHits (s : Subst) (F : IRFunc) : Bool :=
  F.blocks.any fun bb =>
    bb.insts.any (fun inst => inst.op ≠ .Mv &&
      (s.hits inst.a || s.hits inst.b || inst.args.any s.hits)) ||
    (bb.term = .Br && s.hits bb.cond) ||
    (bb.term = .Ret && bb.retHasVal && s.hits bb.retVal)

/-! ## The passes -/

/-- What a vreg was copied from, by the last copy to it in the text. -/
def copyMap (F : IRFunc) : Nat → Option Nat :=
  F.insts.foldl (fun copies inst =>
    match inst.op, inst.dst, inst.a with
    | .Mv, some d, .reg r => Function.update copies d (some r)
    | _, _, _ => copies) fun _ => none

/-- The constant a vreg was assigned, by the last such assignment in the text. Only
constants that fit an immediate count. -/
def constMap (F : IRFunc) : Nat → Option Word :=
  F.insts.foldl (fun consts inst =>
    match inst.op, inst.dst, inst.a with
    | .Mv, some d, .imm i =>
      if -2048 ≤ i.toInt ∧ i.toInt ≤ 2047 then Function.update consts d (some i) else consts
    | _, _, _ => consts) fun _ => none

/-- What is in a map that is collected from some instructions was there before, or is from one of
them. -/
theorem foldl_collect_mem {α : Type} {step : (Nat → Option α) → Inst → Nat → Option α}
    {P : Inst → Nat → α → Prop}
    (hstep : ∀ m inst, step m inst = m ∨
      ∃ x y, step m inst = Function.update m x (some y) ∧ P inst x y) {x : Nat} {y : α}
    (insts : List Inst) (m : Nat → Option α) (h : insts.foldl step m x = some y) :
    m x = some y ∨ ∃ inst ∈ insts, P inst x y := by
  induction insts generalizing m with
  | nil => exact .inl h
  | cons inst insts ih =>
    rcases ih (step m inst) h with h | ⟨i, hi, h⟩
    · rcases hstep m inst with hsame | ⟨x', y', hnew, hP⟩
      · exact .inl (hsame ▸ h)
      · rw [hnew] at h
        by_cases hx : x = x'
        · rw [hx, Function.update_self] at h
          cases h
          exact .inr ⟨inst, List.mem_cons_self, hx ▸ hP⟩
        · rw [Function.update_of_ne hx] at h
          exact .inl h
    · exact .inr ⟨i, List.mem_cons_of_mem _ hi, h⟩

theorem copyMap_mem {F : IRFunc} {x y : Nat} (h : copyMap F x = some y) :
    ∃ inst ∈ F.insts, inst.op = .Mv ∧ inst.dst = some x ∧ inst.a = .reg y := by
  refine (foldl_collect_mem (P := fun inst x y => inst.op = .Mv ∧ inst.dst = some x ∧
    inst.a = .reg y) (fun m inst => ?_) F.insts _ h).resolve_left fun h => by cases h
  split
  · rename_i d r hop hd ha
    exact .inr ⟨d, r, rfl, hop, hd, ha⟩
  · exact .inl rfl

theorem constMap_mem {F : IRFunc} {x : Nat} {c : Word} (h : constMap F x = some c) :
    ∃ inst ∈ F.insts, inst.op = .Mv ∧ inst.dst = some x ∧ inst.a = .imm c := by
  refine (foldl_collect_mem (P := fun inst x c => inst.op = .Mv ∧ inst.dst = some x ∧
    inst.a = .imm c) (fun m inst => ?_) F.insts _ h).resolve_left fun h => by cases h
  split
  · rename_i d i hop hd ha
    split
    · exact .inr ⟨d, i, rfl, hop, hd, ha⟩
    · exact .inl rfl
  · exact .inl rfl

/-- Follow copies, for at most so many steps. -/
def resolve (copies : Nat → Option Nat) : Nat → Nat → Nat
  | 0, v => v
  | n + 1, v =>
    match copies v with
    | none => v
    | some w => resolve copies n w

/-- The copies that are followed. -/
def links (copies : Nat → Option Nat) : Nat → Nat → List (Nat × Nat)
  | 0, _ => []
  | n + 1, v =>
    match copies v with
    | none => []
    | some w => (v, w) :: links copies n w

/-- What copy propagation replaces. -/
def copySubst (F : IRFunc) : Subst := fun v =>
  let r := resolve (copyMap F) 64 v
  if r ≠ v then some (.reg r) else none

/-- What constant propagation replaces. -/
def constSubst (F : IRFunc) : Subst := fun v => (constMap F v).map .imm

/-- **Copy propagation**, with whether it changed anything. -/
def copyProp (F : IRFunc) : IRFunc × Bool :=
  (F.subst (copySubst F), F.substHits (copySubst F))

/-- **Constant propagation**, with whether it changed anything. -/
def constProp (F : IRFunc) : IRFunc × Bool :=
  (F.subst (constSubst F), F.substHits (constSubst F))

/-! ## Replacing operands by others of the same value -/

/-- The vregs that may be replaced in the next step of a run. -/
def IRFunc.replaceable (F : IRFunc) (c : Config) : List Nat :=
  match c.rest with
  | [] => (F.blockAt c.block).termUses
  | inst :: _ => if inst.op = .Mv then [] else inst.operands.filterMap Val.reg?

section Values

variable {s : Subst} {R : Regs}

theorem Subst.eval_apply {v : Val} (h : ∀ r w, v.reg? = some r → s r = some w → R r = w.eval R) :
    (s.apply v).eval R = v.eval R := by
  cases v with
  | imm i => rfl
  | reg r =>
    cases hs : s r with
    | none => simp [apply, hs]
    | some w => simp [apply, hs, h r w rfl hs]

variable {inst : Inst}

/-- The operands of an instruction keep their values. -/
theorem Inst.eval_subst
    (h : ∀ r ∈ inst.operands.filterMap Val.reg?, ∀ w, s r = some w → R r = w.eval R) :
    ∀ v ∈ inst.operands, (s.apply v).eval R = v.eval R :=
  fun _ hv => Subst.eval_apply fun r w hr hs => h r (List.mem_filterMap.mpr ⟨_, hv, hr⟩) w hs

@[simp] theorem Inst.subst_op : (inst.subst s).op = inst.op := by
  unfold subst
  split <;> rfl

/-- **Then it does the same.** -/
theorem Inst.exec_subst (call : Callee) (G : Globals)
    (h : ∀ r ∈ (if inst.op = .Mv then [] else inst.operands.filterMap Val.reg?),
      ∀ w, s r = some w → R r = w.eval R) :
    (inst.subst s).exec call R G = inst.exec call R G := by
  by_cases hmv : inst.op = .Mv
  · unfold subst
    rw [if_pos hmv]
  · rw [if_neg hmv] at h
    have heval := eval_subst h
    unfold Inst.operands at heval
    unfold subst Inst.exec
    rw [if_neg hmv]
    cases hop : inst.op with
    | Call =>
      rw [hop] at heval
      have hargs : (inst.args.map s.apply).map (·.eval R) = inst.args.map (·.eval R) := by
        rw [List.map_map]
        exact List.map_congr_left heval
      simp only [hargs]
    | LoadGlobal => rfl
    | Mv => exact absurd hop hmv
    | _ =>
      rw [hop] at heval
      simp [heval]

theorem Inst.event_subst
    (h : ∀ r ∈ (if inst.op = .Mv then [] else inst.operands.filterMap Val.reg?),
      ∀ w, s r = some w → R r = w.eval R) :
    (inst.subst s).event R = inst.event R := by
  by_cases hmv : inst.op = .Mv
  · unfold subst
    rw [if_pos hmv]
  · rw [if_neg hmv] at h
    have heval := eval_subst h
    unfold Inst.operands at heval
    unfold subst Inst.event
    rw [if_neg hmv]
    cases hop : inst.op with
    | Call =>
      rw [hop] at heval
      have hargs : (inst.args.map s.apply).map (·.eval R) = inst.args.map (·.eval R) := by
        rw [List.map_map]
        exact List.map_congr_left heval
      simp only [hargs]
    | StoreGlobal =>
      rw [hop] at heval
      simp [heval]
    | _ => rfl

end Values

section Function

variable {s : Subst} {F : IRFunc}

theorem IRFunc.blockAt_subst (b : Nat) : (F.subst s).blockAt b = (F.blockAt b).subst s :=
  IRFunc.blockAt_map rfl b

theorem IRFunc.start_subst (b : Nat) (R : Regs) (G : Globals) :
    (F.subst s).start b R G =
      { F.start b R G with rest := (F.start b R G).rest.map (·.subst s) } := by
  unfold IRFunc.start
  rw [blockAt_subst]
  rfl

/-- A point of the function and the same point after the replacement. -/
def Subst.Same (s : Subst) (c c' : Config) : Prop := c' = { c with rest := c.rest.map (·.subst s) }

theorem IRFunc.enter_subst (b : Nat) (R : Regs) (G : Globals) :
    StepsAgree (s.Same) (F.enter b R G) ((F.subst s).enter b R G) := by
  unfold IRFunc.enter IRFunc.subst
  rw [List.getElem?_map]
  cases F.blocks[b]? with
  | none => trivial
  | some bb => rfl

/-- **Then a terminator does the same.** -/
theorem IRFunc.execTerm_subst {bb : BasicBlock} {R : Regs} (G : Globals)
    (h : ∀ r ∈ bb.termUses, ∀ w, s r = some w → R r = w.eval R) :
    StepsAgree s.Same (F.execTerm bb R G) ((F.subst s).execTerm (bb.subst s) R G) := by
  unfold IRFunc.execTerm
  cases hterm : bb.term with
  | None => simp only [BasicBlock.subst, hterm]; trivial
  | Jmp =>
    simp only [BasicBlock.subst, hterm]
    exact enter_subst _ R G
  | Br =>
    have hcond : (s.apply bb.cond).eval R = bb.cond.eval R := Subst.eval_apply fun r w hr hs =>
      h r (by simp [BasicBlock.termUses, hterm, hr]) w hs
    simp only [BasicBlock.subst, hterm, if_true, hcond]
    exact enter_subst _ R G
  | Ret =>
    simp only [BasicBlock.subst, hterm, true_and]
    cases hret : bb.retHasVal with
    | false => rfl
    | true =>
      have hval : (s.apply bb.retVal).eval R = bb.retVal.eval R := Subst.eval_apply fun r w hr hs =>
        h r (by simp [BasicBlock.termUses, hterm, hret, hr]) w hs
      simp only [if_true, hval]
      rfl

/-- **A replacement by operands of the same value** changes nothing: in a run in which every
vreg that may be replaced has the value of what replaces it. -/
theorem Subst.sameBehaviour {call : Callee} {junk : Regs} {args : List Word} {G : Globals}
    (h : ∀ done c, F.Ran call (F.entry junk args G) done c → ∀ r ∈ F.replaceable c, ∀ w,
      s r = some w → c.regs r = w.eval c.regs) :
    SameBehaviour F (F.subst s) call junk args G := by
  let I : Config → Config → Prop := fun c c' =>
    s.Same c c' ∧ ∃ done, F.Ran call (F.entry junk args G) done c
  have hentry : I (F.entry junk args G) ((F.subst s).entry junk args G) :=
    ⟨IRFunc.start_subst 0 _ G, [], .start⟩
  have hlock : Lockstep (F.step call) ((F.subst s).step call) I := by
    rintro c _ ⟨rfl, done, hran⟩
    have hstep : StepsAgree s.Same (F.step call c)
        ((F.subst s).step call { c with rest := c.rest.map (·.subst s) }) := by
      have hread := h done c hran
      unfold IRFunc.replaceable at hread
      unfold IRFunc.step
      cases hrest : c.rest with
      | nil =>
        rw [hrest] at hread
        have hblocks : (F.subst s).blocks[c.block]? = F.blocks[c.block]?.map (·.subst s) :=
          List.getElem?_map ..
        simp only [List.map_nil, hblocks]
        cases hb : F.blocks[c.block]? with
        | none => trivial
        | some bb =>
          have hblock : F.blockAt c.block = bb := by
            simp [IRFunc.blockAt, hb]
          rw [hblock] at hread
          exact IRFunc.execTerm_subst c.globals hread
      | cons inst rest =>
        rw [hrest] at hread
        simp only [List.map_cons, Inst.exec_subst call c.globals hread]
        exact StepsAgree.bind fun _ _ => rfl
    refine hstep.imp fun c' _ hc' hsame => ⟨hsame, _, .step hran hc'⟩
  have hevent : ∀ c c', I c c' → c.event = c'.event := by
    rintro c _ ⟨rfl, done, hran⟩
    have hread := h done c hran
    unfold IRFunc.replaceable at hread
    unfold Config.event
    cases hrest : c.rest with
    | nil => rfl
    | cons inst rest =>
      rw [hrest] at hread
      exact (Inst.event_subst hread).symm
  exact .of_lockstep rfl (List.length_map _) hlock hevent hentry

end Function

/-! ## Copies that still hold -/

/-- What a chain of copies leads to has the same value, if each copy holds. -/
theorem resolve_eq {copies : Nat → Option Nat} {R : Regs} {n v : Nat}
    (h : ∀ l ∈ links copies n v, R l.1 = R l.2) : R v = R (resolve copies n v) := by
  induction n generalizing v with
  | zero => rfl
  | succ n ih =>
    unfold links at h
    unfold resolve
    cases hv : copies v with
    | none => rfl
    | some w =>
      rw [hv] at h
      exact (h (v, w) List.mem_cons_self).trans (ih fun l hl => h l (List.mem_cons_of_mem _ hl))

/-- **The copies hold** on which copy propagation relies at a point: of the instructions
executed so far, each copy of the chain of a vreg that is replaced there was the last one to
write one of its two vregs. -/
def CopiesHold (F : IRFunc) (done : List Inst) (c : Config) : Prop :=
  ∀ r ∈ F.replaceable c, resolve (copyMap F) 64 r ≠ r →
    ∀ l ∈ links (copyMap F) 64 r, Established l.1 (.reg l.2) done

/-- **The constants hold** on which constant propagation relies at a point: of the
instructions executed so far, the assignment of the constant was the last one to write the vreg
that is replaced. -/
def ConstsHold (F : IRFunc) (done : List Inst) (c : Config) : Prop :=
  ∀ r ∈ F.replaceable c, ∀ k ∈ constMap F r, Established r (.imm k) done

instance (F : IRFunc) (done : List Inst) (c : Config) : Decidable (CopiesHold F done c) :=
  inferInstanceAs (Decidable (∀ r ∈ F.replaceable c, _ → _))

instance (F : IRFunc) (done : List Inst) (c : Config) : Decidable (ConstsHold F done c) :=
  have (r : Nat) : Decidable (∀ k ∈ constMap F r, Established r (.imm k) done) :=
    Option.decidableForallMem _
  inferInstanceAs (Decidable (∀ r ∈ F.replaceable c, _))

section Sound

variable {F : IRFunc} {call : Callee} {junk : Regs} {args : List Word} {G : Globals}

/-- **Copy propagation preserves the runs in which the copies hold.** -/
theorem copyProp_sameBehaviour
    (h : ∀ done c, F.Ran call (F.entry junk args G) done c → CopiesHold F done c) :
    SameBehaviour F (copyProp F).1 call junk args G := by
  refine Subst.sameBehaviour fun done c hran r hr w hw => ?_
  unfold copySubst at hw
  dsimp only at hw
  split at hw
  · rename_i hne
    cases hw
    exact resolve_eq fun l hl => hran.established (h done c hran r hr hne l hl)
  · cases hw

/-- **Constant propagation preserves the runs in which the constants hold.** -/
theorem constProp_sameBehaviour
    (h : ∀ done c, F.Ran call (F.entry junk args G) done c → ConstsHold F done c) :
    SameBehaviour F (constProp F).1 call junk args G := by
  refine Subst.sameBehaviour fun done c hran r hr w hw => ?_
  obtain ⟨k, hk, rfl⟩ := Option.map_eq_some_iff.mp hw
  exact hran.established (h done c hran r hr k hk)

end Sound

/-- In a function that is one block, a property of the points of its runs can be checked at each
instruction. -/
theorem IRFunc.Ran.of_prefixes {F : IRFunc} (hterm : (F.blockAt 0).term = .Ret)
    {P : List Inst → Config → Prop}
    (hP : ∀ n ≤ (F.blockAt 0).insts.length, ∀ R G, P ((F.blockAt 0).insts.take n).reverse
      ⟨0, (F.blockAt 0).insts.drop n, R, G⟩)
    {call : Callee} {junk : Regs} {args : List Word} {G : Globals} {c : Config}
    {done : List Inst} (h : F.Ran call (F.entry junk args G) done c) : P done c := by
  obtain ⟨b, rest, R, G⟩ := c
  obtain ⟨rfl, hdone⟩ := h.of_ret hterm
  have hlen : done.length ≤ (F.blockAt 0).insts.length := by
    rw [← hdone, List.length_append, List.length_reverse]
    exact Nat.le_add_right ..
  have h := hP done.length hlen R G
  rw [← hdone, ← List.length_reverse, List.take_left, List.drop_left, List.reverse_reverse] at h
  exact h

/-! ## A function where they hold, and one where they do not -/

/-- `int f(int x) { int b = x; int c = 7; return b + c; }`. -/
def copyFunc : IRFunc where
  numParams := 1
  paramRegs := [0]
  numVregs := 4
  blocks := [{
    insts := [{ op := .Mv, dst := some 1, a := .reg 0 }, { op := .Mv, dst := some 2, a := .imm 7 },
      { op := .Add, dst := some 3, a := .reg 1, b := .reg 2 }]
    term := .Ret
    retHasVal := true
    retVal := .reg 3 }]

theorem copyProp_copyFunc :
    SameBehaviour copyFunc (copyProp copyFunc).1 (fun _ => .stuck) (fun _ => 0) [5] fun _ => 0 :=
  copyProp_sameBehaviour fun _ _ => IRFunc.Ran.of_prefixes rfl (P := CopiesHold copyFunc) (by
    intro n hn R G
    change CopiesHold copyFunc _ ⟨0, _, fun _ => 0, fun _ => 0⟩
    revert n
    decide)

theorem constProp_copyFunc :
    SameBehaviour copyFunc (constProp copyFunc).1 (fun _ => .stuck) (fun _ => 0) [5] fun _ => 0 :=
  constProp_sameBehaviour fun _ _ => IRFunc.Ran.of_prefixes rfl (P := ConstsHold copyFunc) (by
    intro n hn R G
    change ConstsHold copyFunc _ ⟨0, _, fun _ => 0, fun _ => 0⟩
    revert n
    decide)

/-- `int f() { int a = 5; int b = a; a = 7; return b; }`: the copy is replaced by `a`, which has
another value by then. -/
def staleFunc : IRFunc where
  numVregs := 2
  blocks := [{
    insts := [{ op := .Mv, dst := some 0, a := .imm 5 }, { op := .Mv, dst := some 1, a := .reg 0 },
      { op := .Mv, dst := some 0, a := .imm 7 }]
    term := .Ret
    retHasVal := true
    retVal := .reg 1 }]

theorem staleFunc_readsWritten : staleFunc.ReadsWritten :=
  IRFunc.readsWritten_of_bound (fun _ => [1]) (by decide) (by decide) (by decide)

/-- It returns another value after copy propagation. -/
theorem copyProp_staleFunc :
    staleFunc.ReadsWritten ∧
      staleFunc.run (fun _ => .stuck) (fun _ => 0) 4 [] (fun _ => 0) =
        .ok (some 5, fun _ => 0) ∧
      (copyProp staleFunc).1.run (fun _ => .stuck) (fun _ => 0) 4 [] (fun _ => 0) =
        .ok (some 7, fun _ => 0) :=
  ⟨staleFunc_readsWritten, rfl, rfl⟩

/-- `int f(int x) { int a = 5; a = x; return a; }`: its variable is taken for a constant. -/
def reassignedFunc : IRFunc where
  numParams := 1
  paramRegs := [0]
  numVregs := 2
  blocks := [{
    insts := [{ op := .Mv, dst := some 1, a := .imm 5 }, { op := .Mv, dst := some 1, a := .reg 0 }]
    term := .Ret
    retHasVal := true
    retVal := .reg 1 }]

/-- It returns another value after constant propagation. -/
theorem constProp_reassignedFunc :
    reassignedFunc.ReadsWritten ∧
      reassignedFunc.run (fun _ => .stuck) (fun _ => 0) 3 [9] (fun _ => 0) =
        .ok (some 9, fun _ => 0) ∧
      (constProp reassignedFunc).1.run (fun _ => .stuck) (fun _ => 0) 3 [9] (fun _ => 0) =
        .ok (some 5, fun _ => 0) :=
  ⟨IRFunc.readsWritten_of_bound (fun _ => [1]) (by decide) (by decide) (by decide), rfl, rfl⟩

end ToyC
