import ToyC.IRSemantics
import ToyC.Liveness

/-!
# What instructions read and compute

An instruction evaluates its operands, computes a value and writes it to its register.
The first two parts are the same wherever the registers are kept, so they are split off
here, with the observation that they depend on the vregs that liveness says are read.
-/

namespace ToyC

/-- **What an instruction computes** from the values of the vregs: the value of its result,
if there is one, and the globals. -/
def Inst.compute (call : Callee) (inst : Inst) (R : Regs) (G : Globals) :
    Outcome (Option Word × Globals) :=
  match inst.op with
  | .Mv => .ok (some (inst.a.eval R), G)
  | .LoadGlobal => .ok (some (G inst.gid), G)
  | .StoreGlobal => .ok (none, G.set inst.gid (inst.a.eval R))
  | .Neg => .ok (some (-inst.a.eval R), G)
  | .Not => .ok (some (Word.ofBool (inst.a.eval R == 0#32)), G)
  | .Call => call ⟨inst.callee, inst.args.map (·.eval R), G⟩
  | op => .ok (some (op.eval (inst.a.eval R) (inst.b.eval R)), G)

/-- **The value an instruction other than a call computes**: of its result, or for a store
the one that is stored. -/
def Inst.value (inst : Inst) (R : Regs) (G : Globals) : Word :=
  match inst.op with
  | .Mv | .StoreGlobal => inst.a.eval R
  | .LoadGlobal => G inst.gid
  | .Neg => -inst.a.eval R
  | .Not => Word.ofBool (inst.a.eval R == 0#32)
  | op => op.eval (inst.a.eval R) (inst.b.eval R)

/-- It is what the instruction computes in the semantics. -/
theorem Inst.compute_eq {inst : Inst} (call : Callee) (hcall : inst.op ≠ .Call) (R : Regs)
    (G : Globals) :
    inst.compute call R G =
      if inst.op = .StoreGlobal then .ok (none, G.set inst.gid (inst.value R G))
      else .ok (some (inst.value R G), G) := by
  unfold Inst.compute Inst.value
  cases hop : inst.op with
  | Call => exact absurd hop hcall
  | _ => rfl

/-- What an instruction lets the outside see. -/
inductive Event where
  | store (gid : Nat) (v : Word)
  | call (name : String) (args : List Word)
  deriving DecidableEq, Repr

/-- The observation of an instruction. -/
def Inst.event (inst : Inst) (R : Regs) : Option Event :=
  match inst.op with
  | .StoreGlobal => some (.store inst.gid (inst.a.eval R))
  | .Call => some (.call inst.callee (inst.args.map (·.eval R)))
  | _ => none

/-- What the next step of an execution lets the outside see. -/
def Config.event (c : Config) : Option Event := c.rest.head?.bind (·.event c.regs)

/-! ## Reading operands -/

theorem Val.eval_congr {v : Val} {R R' : Regs} (h : ∀ r, v.reg? = some r → R r = R' r) :
    v.eval R = v.eval R' := by
  cases v with
  | imm => rfl
  | reg r => exact h r rfl

theorem Inst.mem_uses {inst : Inst} {v : Val} {r : Nat} (hv : v ∈ inst.operands)
    (hr : v.reg? = some r) : r ∈ inst.uses :=
  List.mem_append_left _ (List.mem_filterMap.mpr ⟨v, hv, hr⟩)

/-- The operands of an instruction have the same values where what it reads has. -/
theorem Inst.eval_operands_congr {inst : Inst} {R R' : Regs} (h : ∀ r ∈ inst.uses, R r = R' r) :
    ∀ v ∈ inst.operands, v.eval R = v.eval R' :=
  fun _ hv => Val.eval_congr fun r hr => h r (mem_uses hv hr)

/-- **What an instruction computes depends on what it reads.** -/
theorem Inst.compute_congr {call : Callee} {inst : Inst} {R R' : Regs} {G : Globals}
    (h : ∀ r ∈ inst.uses, R r = R' r) : inst.compute call R G = inst.compute call R' G := by
  have heval := eval_operands_congr h
  unfold Inst.compute
  unfold Inst.operands at heval
  cases hop : inst.op with
  | Call =>
    rw [hop] at heval
    simp only [List.map_congr_left heval]
  | LoadGlobal => rfl
  | _ =>
    rw [hop] at heval
    simp [heval]

/-- So does its value, with the global it reads. -/
theorem Inst.value_congr {inst : Inst} {R R' : Regs} {G G' : Globals}
    (h : ∀ r ∈ inst.uses, R r = R' r) (hG : inst.op = .LoadGlobal → G inst.gid = G' inst.gid) :
    inst.value R G = inst.value R' G' := by
  have heval := eval_operands_congr h
  unfold Inst.value
  unfold Inst.operands at heval
  cases hop : inst.op with
  | Call => rfl
  | LoadGlobal => exact hG hop
  | _ =>
    rw [hop] at heval
    simp [heval]

/-- So does what it lets the outside see. -/
theorem Inst.event_congr {inst : Inst} {R R' : Regs} (h : ∀ r ∈ inst.uses, R r = R' r) :
    inst.event R = inst.event R' := by
  have heval := eval_operands_congr h
  unfold Inst.event
  unfold Inst.operands at heval
  cases hop : inst.op with
  | Call =>
    rw [hop] at heval
    simp only [List.map_congr_left heval]
  | StoreGlobal =>
    rw [hop] at heval
    simp only [heval inst.a List.mem_cons_self]
  | _ => rfl

/-! ## Binary operations -/

section Binary

variable {inst : Inst}

/-- A binary operation writes its value. -/
theorem Inst.exec_binary {call : Callee} {R : Regs} {G : Globals} (h : isBinary inst.op = true) :
    inst.exec call R G = .ok (R.write inst.dst (inst.op.eval (inst.a.eval R) (inst.b.eval R)), G) := by
  unfold Inst.exec
  cases hop : inst.op <;> first | rfl | (rw [hop] at h; cases h)

/-- It is not observed. -/
theorem Inst.event_binary (h : isBinary inst.op = true) (R : Regs) : inst.event R = none := by
  unfold Inst.event
  cases hop : inst.op <;> first | rfl | (rw [hop] at h; cases h)

/-- It reads its two operands, and what the hint says. -/
theorem Inst.mem_uses_binary (h : isBinary inst.op = true) {r : Nat} :
    r ∈ inst.uses ↔ inst.a.reg? = some r ∨ inst.b.reg? = some r ∨ inst.magicVreg = some r := by
  have hoperands : inst.operands = [inst.a, inst.b] := by
    unfold Inst.operands
    cases hop : inst.op <;> first | rfl | (rw [hop] at h; cases h)
  unfold Inst.uses
  rw [hoperands]
  simp [or_assoc]

end Binary

/-! ## Two states -/

/-- **An instruction from states that agree on what it reads, and maybe more**: it does the same, and
leaves states that agree as much. -/
theorem Inst.exec_agreeOn {S : Nat → Prop} {inst : Inst} (call : Callee) {R R' : Regs} (G : Globals)
    (hread : ∀ r ∈ inst.uses, S r) (h : ∀ r, S r → R r = R' r) :
    (∃ R₁ R₁' G₁, inst.exec call R G = .ok (R₁, G₁) ∧ inst.exec call R' G = .ok (R₁', G₁) ∧
        ∀ r, S r → R₁ r = R₁' r) ∨
      (inst.exec call R G = .timeout ∧ inst.exec call R' G = .timeout) ∨
      (inst.exec call R G = .stuck ∧ inst.exec call R' G = .stuck) := by
  have heval := eval_operands_congr fun r hr => h r (hread r hr)
  have hset : ∀ (d : Nat) w r, S r → R.set d w r = R'.set d w r := by
    intro d w r hr
    unfold Regs.set
    rw [h r hr]
  have hwrite : ∀ w r, S r → R.write inst.dst w r = R'.write inst.dst w r := by
    intro w r hr
    cases inst.dst with
    | none => exact h r hr
    | some d => exact hset d w r hr
  unfold Inst.exec
  unfold Inst.operands at heval
  cases hop : inst.op with
  | Call =>
    rw [hop] at heval
    simp only [List.map_congr_left heval]
    cases call ⟨inst.callee, inst.args.map (·.eval R'), G⟩ with
    | timeout => exact .inr (.inl ⟨rfl, rfl⟩)
    | stuck => exact .inr (.inr ⟨rfl, rfl⟩)
    | ok a =>
      obtain ⟨v, G₁⟩ := a
      cases inst.dst with
      | none => exact .inl ⟨R, R', G₁, rfl, rfl, h⟩
      | some d =>
        cases v with
        | none => exact .inr (.inr ⟨rfl, rfl⟩)
        | some w => exact .inl ⟨_, _, G₁, rfl, rfl, hset d w⟩
  | LoadGlobal => exact .inl ⟨_, _, G, rfl, rfl, hwrite _⟩
  | StoreGlobal =>
    rw [hop] at heval
    exact .inl ⟨R, R', _, rfl, by simp [heval], h⟩
  | Mv | Neg | Not =>
    rw [hop] at heval
    rw [heval inst.a List.mem_cons_self]
    exact .inl ⟨_, _, G, rfl, rfl, hwrite _⟩
  | _ =>
    rw [hop] at heval
    rw [heval inst.a List.mem_cons_self, heval inst.b (List.mem_cons_of_mem _ List.mem_cons_self)]
    exact .inl ⟨_, _, G, rfl, rfl, hwrite _⟩

/-- **The same terminator in two functions**, with the same values of what it reads: both return
the same, or have no meaning, or go on at the same successor. -/
theorem IRFunc.execTerm_agree {F F' : IRFunc} (hlen : F'.blocks.length = F.blocks.length)
    {bb : BasicBlock} (insts : List Inst) {R R' : Regs} {G : Globals}
    (h : ∀ r ∈ bb.termUses, R r = R' r) :
    (∃ r, F.execTerm bb R G = .ok (.inr r) ∧
        F'.execTerm { bb with insts } R' G = .ok (.inr r)) ∨
      (F.execTerm bb R G = .stuck ∧ F'.execTerm { bb with insts } R' G = .stuck) ∨
      ∃ s ∈ succsOf bb, s < F.blocks.length ∧
        F.execTerm bb R G = .ok (.inl (F.start s R G)) ∧
        F'.execTerm { bb with insts } R' G = .ok (.inl (F'.start s R' G)) := by
  have henter : ∀ t ∈ succsOf bb,
      (F.enter t R G = .stuck ∧ F'.enter t R' G = .stuck) ∨
      ∃ s ∈ succsOf bb, s < F.blocks.length ∧ F.enter t R G = .ok (.inl (F.start s R G)) ∧
        F'.enter t R' G = .ok (.inl (F'.start s R' G)) := by
    intro s hs
    by_cases hlt : s < F.blocks.length
    · exact .inr ⟨s, hs, hlt, IRFunc.enter_eq hlt R G, IRFunc.enter_eq (hlen ▸ hlt) R' G⟩
    · exact .inl ⟨IRFunc.enter_of_ge hlt R G, IRFunc.enter_of_ge (hlen ▸ hlt) R' G⟩
  unfold IRFunc.execTerm
  cases hterm : bb.term with
  | None => exact .inr (.inl ⟨rfl, rfl⟩)
  | Jmp => exact .inr (henter bb.succ0 (by simp [succsOf, hterm]))
  | Br =>
    have hcond : bb.cond.eval R = bb.cond.eval R' := Val.eval_congr fun r hr =>
      h r (by simp [BasicBlock.termUses, hterm, hr])
    simp only [hcond]
    refine .inr (henter _ ?_)
    split <;> simp [succsOf, hterm]
  | Ret =>
    refine .inl ⟨_, rfl, ?_⟩
    cases hret : bb.retHasVal with
    | false => rfl
    | true =>
      have hval : bb.retVal.eval R = bb.retVal.eval R' := Val.eval_congr fun r hr =>
        h r (by simp [BasicBlock.termUses, hterm, hret, hr])
      simp only [hval, if_true]

/-- **A terminator depends on what it reads.** -/
theorem IRFunc.execTerm_congr {F : IRFunc} {bb : BasicBlock} {R R' : Regs} {G : Globals}
    (h : ∀ r ∈ bb.termUses, R r = R' r) :
    (∃ r, F.execTerm bb R G = .ok (.inr r) ∧ F.execTerm bb R' G = .ok (.inr r)) ∨
      (F.execTerm bb R G = .stuck ∧ F.execTerm bb R' G = .stuck) ∨
      ∃ s ∈ succsOf bb, s < F.blocks.length ∧
        F.execTerm bb R G = .ok (.inl (F.start s R G)) ∧
        F.execTerm bb R' G = .ok (.inl (F.start s R' G)) :=
  execTerm_agree rfl bb.insts h

/-- **The end of the same block in two functions**, with the same values of what its terminator
reads. -/
theorem IRFunc.step_end_agree {F F' : IRFunc} (hlen : F'.blocks.length = F.blocks.length) {b : Nat}
    (hblock : F'.blockAt b = { F.blockAt b with insts := (F'.blockAt b).insts }) (call : Callee)
    {R R' : Regs} {G : Globals} (h : ∀ r ∈ (F.blockAt b).termUses, R r = R' r) :
    (∃ r, F.step call ⟨b, [], R, G⟩ = .ok (.inr r) ∧
        F'.step call ⟨b, [], R', G⟩ = .ok (.inr r)) ∨
      (F.step call ⟨b, [], R, G⟩ = .stuck ∧ F'.step call ⟨b, [], R', G⟩ = .stuck) ∨
      ∃ s ∈ succsOf (F.blockAt b), s < F.blocks.length ∧
        F.step call ⟨b, [], R, G⟩ = .ok (.inl (F.start s R G)) ∧
        F'.step call ⟨b, [], R', G⟩ = .ok (.inl (F'.start s R' G)) := by
  by_cases hb : b < F.blocks.length
  · rw [IRFunc.step_nil hb, IRFunc.step_nil (hlen ▸ hb), hblock]
    exact IRFunc.execTerm_agree hlen _ h
  · exact .inr (.inl ⟨IRFunc.step_nil_of_ge hb call R G,
      IRFunc.step_nil_of_ge (hlen ▸ hb) call R' G⟩)

/-- Executing an instruction of a function in range is computing and writing its result. -/
theorem Inst.exec_eq {nv : Nat} {inst : Inst} (h : inst.InRange nv) (call : Callee) (R : Regs)
    (G : Globals) :
    inst.exec call R G = inst.compute call R G >>= fun a =>
      R.writeResult inst.dst a.1 >>= fun R => .ok (R, a.2) := by
  obtain ⟨-, h⟩ := h
  unfold Inst.exec Inst.compute
  cases hop : inst.op <;> cases hd : inst.dst <;> rw [hop, hd] at h <;>
    first | rfl | cases h

end ToyC
