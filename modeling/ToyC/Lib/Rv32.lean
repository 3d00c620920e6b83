import ToyC.Lib.Machine

/-!
# Assembly for RV32IM

A program as the assembler reads it, and the machine that executes it. The items of the
text are numbered, and the program counter is such a number; what a return address looks
like in a register, and where a symbol lies in memory, the linker decides (`Image`).
Memory holds words at aligned addresses.

A pseudo-instruction that stands for one base instruction is defined as that instruction.
`li` and `call`, which stand for two, and a branch, which the assembler turns into a
branch over a jump where its label is too far away, are executed as one.
-/

namespace Rv32

/-- A register, by its number. -/
abbrev Reg := Nat

/-- Operations on two registers. -/
inductive AluOp where
  | add | sub | mul | mulh | mulhu | div | rem | slt | sltu
  deriving DecidableEq, Repr, Inhabited

/-- Operations on a register and a 12-bit immediate. -/
inductive ImmOp where
  | addi | slti | sltiu | xori
  deriving DecidableEq, Repr, Inhabited

/-- Shifts by a constant. -/
inductive ShiftOp where
  | slli | srli | srai
  deriving DecidableEq, Repr, Inhabited

/-- The conditions of branches. -/
inductive Cmp where
  | beq | bne | blt | bge
  deriving DecidableEq, Repr, Inhabited

/-- An instruction. The address of a load or a store is a register and an offset, or a
register and the low part of a symbol's address. -/
inductive Instr where
  | alu (op : AluOp) (rd rs₁ rs₂ : Reg)
  | alui (op : ImmOp) (rd rs : Reg) (imm : Int)
  | shift (op : ShiftOp) (rd rs : Reg) (by_ : Nat)
  | li (rd : Reg) (imm : BitVec 32)
  | luiHi (rd : Reg) (sym : String)
  | lw (rd : Reg) (off : Int) (rs : Reg)
  | lwLo (rd : Reg) (sym : String) (rs : Reg)
  | sw (rs₂ : Reg) (off : Int) (rs : Reg)
  | swLo (rs₂ : Reg) (sym : String) (rs : Reg)
  | branch (c : Cmp) (rs₁ rs₂ : Reg) (label : String)
  | j (label : String)
  | call (label : String)
  | ret
  deriving DecidableEq, Repr, Inhabited

namespace Instr

/-! ## Pseudo-instructions -/

abbrev add (rd rs₁ rs₂ : Reg) : Instr := .alu .add rd rs₁ rs₂
abbrev sub (rd rs₁ rs₂ : Reg) : Instr := .alu .sub rd rs₁ rs₂
abbrev addi (rd rs : Reg) (imm : Int) : Instr := .alui .addi rd rs imm
abbrev mv (rd rs : Reg) : Instr := .alui .addi rd rs 0
abbrev neg (rd rs : Reg) : Instr := .alu .sub rd 0 rs
abbrev seqz (rd rs : Reg) : Instr := .alui .sltiu rd rs 1
abbrev snez (rd rs : Reg) : Instr := .alu .sltu rd 0 rs
abbrev beqz (rs : Reg) (label : String) : Instr := .branch .beq rs 0 label
abbrev bnez (rs : Reg) (label : String) : Instr := .branch .bne rs 0 label

end Instr

/-- An item of an assembly file. -/
inductive Item where
  | instr (i : Instr)
  | label (name : String)
  | globl (name : String)
  | p2align (n : Nat)
  | word (w : BitVec 32)
  | data
  | text
  deriving DecidableEq, Repr, Inhabited

/-- The label an item defines. -/
def Item.label? : Item → Option String
  | label l => some l
  | _ => none

/-- The labels of a file, in order. -/
def labels (items : List Item) : List String := items.filterMap Item.label?

@[simp] theorem labels_nil : labels [] = [] := rfl

@[simp] theorem labels_cons (x : Item) (items : List Item) :
    labels (x :: items) = x.label?.toList ++ labels items := by
  cases h : x.label? <;> simp [labels, h]

@[simp] theorem labels_append (xs ys : List Item) : labels (xs ++ ys) = labels xs ++ labels ys :=
  List.filterMap_append

@[simp] theorem labels_instr (code : List Instr) : labels (code.map .instr) = [] := by
  induction code with
  | nil => rfl
  | cons i code ih => simp [ih, Item.label?]

theorem labels_flatMap {α : Type} (f : α → List Item) (as : List α) :
    labels (as.flatMap f) = as.flatMap fun a => labels (f a) := by
  induction as with
  | nil => rfl
  | cons a as ih => rw [List.flatMap_cons, labels_append, ih, List.flatMap_cons]

/-- The label an instruction jumps to, calls apart. -/
def Instr.dest? : Instr → Option String
  | .branch _ _ _ l | .j l => some l
  | _ => none

/-- The labels some code jumps to. -/
def dests (code : List Instr) : List String := code.filterMap Instr.dest?

@[simp] theorem dests_nil : dests [] = [] := rfl

@[simp] theorem dests_cons (i : Instr) (code : List Instr) :
    dests (i :: code) = i.dest?.toList ++ dests code := by
  cases h : i.dest? <;> simp [dests, h]

@[simp] theorem dests_append (code code' : List Instr) :
    dests (code ++ code') = dests code ++ dests code' :=
  List.filterMap_append

/-- The labels a file jumps to. -/
def jumps (items : List Item) : List String :=
  items.flatMap fun
    | .instr i => i.dest?.toList
    | _ => []

@[simp] theorem jumps_append (xs ys : List Item) : jumps (xs ++ ys) = jumps xs ++ jumps ys :=
  List.flatMap_append

@[simp] theorem jumps_instr (code : List Instr) : jumps (code.map .instr) = dests code := by
  induction code with
  | nil => rfl
  | cons i code ih =>
    rw [dests_cons, ← ih]
    rfl

/-! ## What instructions compute -/

/-- Whether a number is a 12-bit signed immediate. -/
def isImm12 (x : Int) : Bool := decide (-2048 ≤ x) && decide (x ≤ 2047)

/-- The word a comparison yields. -/
def flag (b : Bool) : BitVec 32 := if b then 1#32 else 0#32

/-- The value of an operation on two registers. -/
def AluOp.eval : AluOp → BitVec 32 → BitVec 32 → BitVec 32
  | .add, a, b => a + b
  | .sub, a, b => a - b
  | .mul, a, b => a * b
  | .mulh, a, b => ((a.signExtend 64 * b.signExtend 64) >>> 32).setWidth 32
  | .mulhu, a, b => ((a.setWidth 64 * b.setWidth 64) >>> 32).setWidth 32
  | .div, a, b => if b = 0#32 then (-1 : BitVec 32) else a.sdiv b
  | .rem, a, b => if b = 0#32 then a else a.srem b
  | .slt, a, b => flag (a.slt b)
  | .sltu, a, b => flag (a.ult b)

/-- The value of an operation on a register and an immediate. -/
def ImmOp.eval : ImmOp → BitVec 32 → BitVec 32 → BitVec 32
  | .addi, a, b => a + b
  | .slti, a, b => flag (a.slt b)
  | .sltiu, a, b => flag (a.ult b)
  | .xori, a, b => a ^^^ b

/-- The value of a shift. -/
def ShiftOp.eval : ShiftOp → BitVec 32 → Nat → BitVec 32
  | .slli, a, n => a <<< n
  | .srli, a, n => a >>> n
  | .srai, a, n => a.sshiftRight n

/-- Whether a branch is taken. -/
def Cmp.eval : Cmp → BitVec 32 → BitVec 32 → Bool
  | .beq, a, b => a == b
  | .bne, a, b => a != b
  | .blt, a, b => a.slt b
  | .bge, a, b => !a.slt b

/-- The low part of an address, which a load or a store adds. -/
def lo (a : BitVec 32) : BitVec 32 := (a.setWidth 12).signExtend 32

/-- The high part of an address, which `lui` loads. -/
def hi (a : BitVec 32) : BitVec 32 := ((a + 0x800#32) >>> 12) <<< 12

/-- **The two parts of an address** make up the address. -/
theorem hi_add_lo (a : BitVec 32) : hi a + lo a = a := by
  have ha := a.isLt
  have hmsb : (a.setWidth 12).msb = decide (2048 ≤ a.toNat % 4096) := by
    rw [BitVec.msb_eq_decide, BitVec.toNat_setWidth]
  unfold hi lo
  apply BitVec.eq_of_toNat_eq
  simp only [BitVec.toNat_add, BitVec.toNat_shiftLeft, BitVec.toNat_ushiftRight,
    BitVec.toNat_signExtend, hmsb, BitVec.toNat_setWidth, Nat.shiftRight_eq_div_pow,
    Nat.shiftLeft_eq, BitVec.toNat_ofNat, decide_eq_true_iff]
  split <;> omega

/-! ## Data -/

/-- The contents of the registers and of memory. -/
structure Data where
  regs : Reg → BitVec 32
  mem : BitVec 32 → BitVec 32

namespace Data

/-- Read a register. Register zero reads as zero. -/
def get (σ : Data) (r : Reg) : BitVec 32 := if r = 0 then 0#32 else σ.regs r

/-- Write a register. -/
def set (σ : Data) (r : Reg) (v : BitVec 32) : Data :=
  { σ with regs := fun x => if x = r then v else σ.regs x }

/-- Write a word of memory. -/
def store (σ : Data) (a v : BitVec 32) : Data :=
  { σ with mem := fun x => if x = a then v else σ.mem x }

@[simp] theorem set_mem (σ : Data) (r : Reg) (v : BitVec 32) : (σ.set r v).mem = σ.mem := rfl

theorem get_set_self (σ : Data) {r : Reg} (hr : r ≠ 0) (v : BitVec 32) : (σ.set r v).get r = v := by
  simp [get, set, hr]

theorem get_set_of_ne (σ : Data) {r x : Reg} (hx : x ≠ r) (v : BitVec 32) :
    (σ.set r v).get x = σ.get x := by
  simp [get, set, hx]

@[simp] theorem store_mem_self (σ : Data) (a v : BitVec 32) : (σ.store a v).mem a = v := by
  simp [store]

theorem store_mem_of_ne (σ : Data) {a x : BitVec 32} (hx : x ≠ a) (v : BitVec 32) :
    (σ.store a v).mem x = σ.mem x := by
  simp [store, hx]

end Data

/-- An address of a word. -/
def Aligned (a : BitVec 32) : Prop := a.toNat % 4 = 0

instance (a : BitVec 32) : Decidable (Aligned a) := inferInstanceAs (Decidable (_ = _))

/-! ## Execution -/

/-- **A linked program**: the items, the addresses behind them as a return address has
them, the item at a return address, and the addresses of the symbols. -/
structure Image where
  items : List Item
  addr : Nat → BitVec 32
  itemAt : BitVec 32 → Option Nat
  sym : String → BitVec 32

/-- Execute an instruction that does not jump. An immediate out of range, which the
assembler refuses, and an address that is not aligned have no meaning. -/
def Instr.exec (sym : String → BitVec 32) (i : Instr) (σ : Data) : Outcome Data :=
  match i with
  | .alu op rd rs₁ rs₂ => .ok (σ.set rd (op.eval (σ.get rs₁) (σ.get rs₂)))
  | .alui op rd rs imm =>
    if isImm12 imm then .ok (σ.set rd (op.eval (σ.get rs) (BitVec.ofInt 32 imm))) else .stuck
  | .shift op rd rs n => if n < 32 then .ok (σ.set rd (op.eval (σ.get rs) n)) else .stuck
  | .li rd imm => .ok (σ.set rd imm)
  | .luiHi rd s => .ok (σ.set rd (hi (sym s)))
  | .lw rd off rs =>
    let a := σ.get rs + BitVec.ofInt 32 off
    if isImm12 off ∧ Aligned a then .ok (σ.set rd (σ.mem a)) else .stuck
  | .lwLo rd s rs =>
    let a := σ.get rs + lo (sym s)
    if Aligned a then .ok (σ.set rd (σ.mem a)) else .stuck
  | .sw rs₂ off rs =>
    let a := σ.get rs + BitVec.ofInt 32 off
    if isImm12 off ∧ Aligned a then .ok (σ.store a (σ.get rs₂)) else .stuck
  | .swLo rs₂ s rs =>
    let a := σ.get rs + lo (sym s)
    if Aligned a then .ok (σ.store a (σ.get rs₂)) else .stuck
  | _ => .stuck

/-- Execute instructions that do not jump, one after the other. -/
def execs (sym : String → BitVec 32) : List Instr → Data → Outcome Data
  | [], σ => .ok σ
  | i :: code, σ => i.exec sym σ >>= execs sym code

/-- A point of an execution. -/
structure State where
  pc : Nat
  data : Data

namespace Image

variable (img : Image)

/-- **The item of a label**, which the assembler takes only where there is one. -/
def target (l : String) : Option Nat :=
  if (labels img.items).count l = 1 then img.items.findIdx? (·.label? == some l) else none

/-- Go on at a label. -/
def goto (l : String) (σ : Data) : Outcome (State ⊕ Empty) :=
  match img.target l with
  | some i => .ok (.inl ⟨i, σ⟩)
  | none => .stuck

/-- **One step of the machine.** -/
def step (s : State) : Outcome (State ⊕ Empty) :=
  match img.items[s.pc]? with
  | some (.label _) => .ok (.inl ⟨s.pc + 1, s.data⟩)
  | some (.instr i) =>
    match i with
    | .branch c rs₁ rs₂ l =>
      if c.eval (s.data.get rs₁) (s.data.get rs₂) then img.goto l s.data
      else .ok (.inl ⟨s.pc + 1, s.data⟩)
    | .j l => img.goto l s.data
    | .call l => img.goto l (s.data.set 1 (img.addr (s.pc + 1)))
    | .ret =>
      match img.itemAt (s.data.get 1) with
      | some i => .ok (.inl ⟨i, s.data⟩)
      | none => .stuck
    | i => do
      let σ ← i.exec img.sym s.data
      .ok (.inl ⟨s.pc + 1, σ⟩)
  | _ => .stuck

/-- **The linker's part**: what a call leaves in the register leads back behind it. -/
def Linked : Prop :=
  ∀ i l, img.items[i]? = some (.instr (.call l)) → img.itemAt (img.addr (i + 1)) = some (i + 1)

/-- Some steps of the machine. -/
abbrev Steps (s s' : State) : Prop := Machine.Steps img.step s s'

/-- Some items stand at a place of the program. -/
def At (i : Nat) (items : List Item) : Prop := items <+: img.items.drop i

end Image

/-! ## Places -/

namespace Image

variable {img : Image} {i : Nat}

theorem at_append {xs ys : List Item} :
    img.At i (xs ++ ys) ↔ img.At i xs ∧ img.At (i + xs.length) ys := by
  unfold At
  rw [← List.drop_drop]
  constructor
  · rintro ⟨t, ht⟩
    rw [← ht]
    simp [List.append_assoc]
  · rintro ⟨⟨t, ht⟩, h⟩
    rw [← ht, List.drop_left] at h
    rw [← ht]
    exact (List.prefix_append_right_inj xs).mpr h

theorem At.left {xs ys : List Item} (h : img.At i (xs ++ ys)) : img.At i xs :=
  (at_append.mp h).1

theorem At.head {x : Item} {xs : List Item} (h : img.At i (x :: xs)) :
    img.items[i]? = some x := by
  obtain ⟨t, ht⟩ := h
  rw [← Nat.add_zero i, ← List.getElem?_drop, ← ht]
  rfl

theorem At.tail {x : Item} {xs : List Item} (h : img.At i (x :: xs)) : img.At (i + 1) xs :=
  (at_append.mp (show img.At i ([x] ++ xs) from h)).2

/-- **A label is found where it stands**, when no other item has it. -/
theorem target_eq {before rest : List Item} {l : String}
    (h : img.items = before ++ .label l :: rest) (hcount : (labels img.items).count l = 1) :
    img.target l = some before.length ∧ img.At before.length (.label l :: rest) := by
  constructor
  · unfold target
    rw [if_pos hcount, h, List.findIdx?_append, List.findIdx?_cons]
    rw [h, labels_append, List.count_append, labels_cons, Item.label?, Option.toList_some,
      List.singleton_append, List.count_cons_self] at hcount
    have hnone : before.findIdx? (·.label? == some l) = none := by
      rw [List.findIdx?_eq_none_iff]
      intro x hx
      by_contra hl
      have hmem : l ∈ labels before :=
        List.mem_filterMap.mpr ⟨x, hx, by simpa using hl⟩
      have := List.count_pos_iff.mpr hmem
      omega
    rw [hnone, if_pos (by simp [Item.label?]), Option.none_or, Option.map_some, Nat.zero_add]
  · unfold At
    have hdrop : img.items.drop before.length = .label l :: rest := by rw [h, List.drop_left]
    exact hdrop ▸ List.prefix_rfl

/-- The same, from the place where it stands. -/
theorem At.target {rest : List Item} {l : String} (hat : img.At i (.label l :: rest))
    (hcount : (labels img.items).count l = 1) : img.target l = some i := by
  obtain ⟨t, ht⟩ := hat
  have hlen : i < img.items.length := by
    by_contra h
    rw [List.drop_eq_nil_of_le (Nat.le_of_not_lt h)] at ht
    cases ht
  have hitems : img.items = img.items.take i ++ .label l :: (rest ++ t) := by
    rw [← List.cons_append, ht, List.take_append_drop]
  have htarget := (target_eq hitems hcount).1
  rwa [List.length_take_of_le (Nat.le_of_lt hlen)] at htarget

/-! ## Steps -/

variable {σ σ' : Data}

/-- An instruction that does not jump. -/
theorem step_exec {ins : Instr} (hi : img.items[i]? = some (.instr ins))
    (h : ins.exec img.sym σ = .ok σ') : img.step ⟨i, σ⟩ = .ok (.inl ⟨i + 1, σ'⟩) := by
  unfold step
  rw [hi]
  cases ins with
  | branch | j | call | ret => cases h
  | _ => simp only [h, Outcome.ok_bind]

/-- **Straight-line code.** -/
theorem At.execs {code : List Instr} {rest : List Item} (hat : img.At i (code.map .instr ++ rest))
    (h : Rv32.execs img.sym code σ = .ok σ') :
    img.Steps ⟨i, σ⟩ ⟨i + code.length, σ'⟩ ∧ img.At (i + code.length) rest := by
  induction code generalizing i σ with
  | nil =>
    cases h
    exact ⟨.refl _, hat⟩
  | cons ins code ih =>
    obtain ⟨σ₁, h₁, h⟩ := Outcome.bind_eq_ok.mp h
    obtain ⟨hs, hat'⟩ := ih (At.tail hat) h
    rw [List.length_cons, ← Nat.add_assoc, Nat.add_right_comm]
    exact ⟨.head (step_exec hat.head h₁) hs, hat'⟩

theorem At.label {l : String} {rest : List Item} (hat : img.At i (.label l :: rest)) (σ : Data) :
    img.Steps ⟨i, σ⟩ ⟨i + 1, σ⟩ := by
  refine .single ?_
  unfold step
  rw [hat.head]

/-- A jump. -/
theorem At.j {l : String} {rest : List Item} (hat : img.At i (.instr (.j l) :: rest)) {t : Nat}
    (ht : img.target l = some t) (σ : Data) : img.Steps ⟨i, σ⟩ ⟨t, σ⟩ := by
  refine .single ?_
  unfold step
  rw [hat.head]
  simp only [goto, ht]

/-- A branch that is taken. -/
theorem At.branch {c : Cmp} {a b : Reg} {l : String} {rest : List Item}
    (hat : img.At i (.instr (.branch c a b l) :: rest)) {t : Nat} (ht : img.target l = some t)
    (hc : c.eval (σ.get a) (σ.get b) = true) : img.Steps ⟨i, σ⟩ ⟨t, σ⟩ := by
  refine .single ?_
  unfold step
  rw [hat.head]
  simp only [hc, if_true, goto, ht]

/-- A branch that is not taken. -/
theorem At.branch_not {c : Cmp} {a b : Reg} {l : String} {rest : List Item}
    (hat : img.At i (.instr (.branch c a b l) :: rest))
    (hc : c.eval (σ.get a) (σ.get b) = false) : img.Steps ⟨i, σ⟩ ⟨i + 1, σ⟩ := by
  refine .single ?_
  unfold step
  rw [hat.head]
  simp [hc]

/-- A call. -/
theorem At.call {l : String} {rest : List Item} (hat : img.At i (.instr (.call l) :: rest))
    {t : Nat} (ht : img.target l = some t) (σ : Data) :
    img.Steps ⟨i, σ⟩ ⟨t, σ.set 1 (img.addr (i + 1))⟩ := by
  refine .single ?_
  unfold step
  rw [hat.head]
  simp only [goto, ht]

/-- A return. -/
theorem At.ret {rest : List Item} (hat : img.At i (.instr .ret :: rest)) {t : Nat}
    (ht : img.itemAt (σ.get 1) = some t) : img.Steps ⟨i, σ⟩ ⟨t, σ⟩ := by
  refine .single ?_
  unfold step
  rw [hat.head]
  simp only [ht]

end Image

/-! ## What code does -/

/-- **Code that does not jump runs through** and leaves what is asked of it. -/
def Does (sym : String → BitVec 32) (code : List Instr) (σ : Data) (post : Data → Prop) : Prop :=
  ∃ σ', execs sym code σ = .ok σ' ∧ post σ'

/-- The registers that some code may have changed. -/
def Keeps (touched : List Reg) (σ σ' : Data) : Prop := ∀ x, x ∉ touched → σ'.get x = σ.get x

section Does

variable {sym : String → BitVec 32} {σ σ' : Data} {post : Data → Prop}

theorem execs_append (code code' : List Instr) (σ : Data) :
    execs sym (code ++ code') σ = execs sym code σ >>= execs sym code' := by
  induction code generalizing σ with
  | nil => rfl
  | cons i code ih =>
    show (i.exec sym σ >>= execs sym (code ++ code')) = (i.exec sym σ >>= execs sym code) >>= _
    rw [Outcome.bind_assoc]
    congr 1
    funext σ
    exact ih σ

theorem Does.nil (h : post σ) : Does sym [] σ post := ⟨σ, rfl, h⟩

/-- **Sequencing.** -/
theorem Does.append {code code' : List Instr} {mid : Data → Prop} (h : Does sym code σ mid)
    (h' : ∀ σ', mid σ' → Does sym code' σ' post) : Does sym (code ++ code') σ post := by
  obtain ⟨σ₁, h₁, hm⟩ := h
  obtain ⟨σ₂, h₂, hp⟩ := h' σ₁ hm
  exact ⟨σ₂, by rw [execs_append, h₁]; exact h₂, hp⟩

/-- One instruction. -/
theorem Does.cons {i : Instr} {code : List Instr} (σ₁ : Data) (h : i.exec sym σ = .ok σ₁)
    (h' : Does sym code σ₁ post) : Does sym (i :: code) σ post := by
  obtain ⟨σ₂, h₂, hp⟩ := h'
  exact ⟨σ₂, by rw [execs, h]; exact h₂, hp⟩

theorem Does.single {i : Instr} (σ₁ : Data) (h : i.exec sym σ = .ok σ₁) (hp : post σ₁) :
    Does sym [i] σ post :=
  .cons σ₁ h (.nil hp)

theorem Does.mono {code : List Instr} {post' : Data → Prop} (h : Does sym code σ post)
    (himp : ∀ σ', post σ' → post' σ') : Does sym code σ post' := by
  obtain ⟨σ', h, hp⟩ := h
  exact ⟨σ', h, himp σ' hp⟩

theorem Keeps.refl (touched : List Reg) (σ : Data) : Keeps touched σ σ := fun _ _ => rfl

theorem Keeps.trans {touched : List Reg} {σ₁ σ₂ σ₃ : Data} (h₁ : Keeps touched σ₁ σ₂)
    (h₂ : Keeps touched σ₂ σ₃) : Keeps touched σ₁ σ₃ :=
  fun x hx => (h₂ x hx).trans (h₁ x hx)

theorem Keeps.mono {touched touched' : List Reg} (h : Keeps touched σ σ')
    (hsub : ∀ x ∈ touched, x ∈ touched') : Keeps touched' σ σ' :=
  fun x hx => h x fun hmem => hx (hsub x hmem)

theorem keeps_set {touched : List Reg} {r : Reg} (h : r ∈ touched) (v : BitVec 32) :
    Keeps touched σ (σ.set r v) :=
  fun x hx => σ.get_set_of_ne (by rintro rfl; exact hx h) v

theorem keeps_store (touched : List Reg) (a v : BitVec 32) : Keeps touched σ (σ.store a v) :=
  fun _ _ => rfl

/-! ## Code that computes a value -/

/-- **Code that leaves a value in a register**, and memory as it was. -/
def Leaves (sym : String → BitVec 32) (code : List Instr) (σ : Data) (rd : Reg) (w : BitVec 32)
    (touched : List Reg) : Prop :=
  Does sym code σ fun σ' => σ'.mem = σ.mem ∧ σ'.get rd = w ∧ Keeps touched σ σ'

section Leaves

variable {rd : Reg} {w : BitVec 32} {touched : List Reg}

/-- No code. -/
theorem Leaves.nil (h : σ.get rd = w) : Leaves sym [] σ rd w touched :=
  Does.nil ⟨rfl, h, .refl _ _⟩

/-- One instruction. -/
theorem Leaves.single {i : Instr} (h : i.exec sym σ = .ok (σ.set rd w)) (hrd : rd ≠ 0)
    (hmem : rd ∈ touched) : Leaves sym [i] σ rd w touched :=
  Does.single _ h ⟨rfl, σ.get_set_self hrd w, keeps_set hmem w⟩

/-- **Computing on from a value.** -/
theorem Leaves.append {code code' : List Instr} {r : Reg} {v : BitVec 32}
    (h : Leaves sym code σ r v touched)
    (h' : ∀ σ', σ'.mem = σ.mem → σ'.get r = v → Keeps touched σ σ' →
      Leaves sym code' σ' rd w touched) : Leaves sym (code ++ code') σ rd w touched :=
  Does.append h fun σ₁ ⟨hmem, hv, hk⟩ => (h' σ₁ hmem hv hk).mono fun _ ⟨hmem', hw, hk'⟩ =>
    ⟨hmem'.trans hmem, hw, hk.trans hk'⟩

/-- One instruction, and computing on from its value. -/
theorem Leaves.cons {i : Instr} {code : List Instr} {r : Reg} (v : BitVec 32)
    (h : i.exec sym σ = .ok (σ.set r v)) (hr : r ≠ 0) (hmem : r ∈ touched)
    (h' : ∀ σ', σ'.mem = σ.mem → σ'.get r = v → Keeps [r] σ σ' →
      Leaves sym code σ' rd w touched) : Leaves sym (i :: code) σ rd w touched := by
  have hrest := h' (σ.set r v) rfl (σ.get_set_self hr v) (keeps_set (List.mem_singleton_self r) v)
  exact Does.cons _ h (Does.mono hrest fun _ ⟨hm, hw, hk⟩ => ⟨hm, hw, (keeps_set hmem v).trans hk⟩)

theorem Leaves.mono {code : List Instr} {touched' : List Reg} (h : Leaves sym code σ rd w touched)
    (hsub : ∀ x ∈ touched, x ∈ touched') : Leaves sym code σ rd w touched' :=
  Does.mono h fun _ ⟨hmem, hw, hk⟩ => ⟨hmem, hw, hk.mono hsub⟩

theorem Leaves.of_eq {code : List Instr} {w' : BitVec 32} (h : Leaves sym code σ rd w touched)
    (hw : w = w') : Leaves sym code σ rd w' touched :=
  hw ▸ h

end Leaves

/-- A shift by less than the width. -/
theorem exec_shift {op : ShiftOp} {rd rs : Reg} {n : Nat} (h : n < 32) (σ : Data) :
    (Instr.shift op rd rs n).exec sym σ = .ok (σ.set rd (op.eval (σ.get rs) n)) :=
  if_pos h

/-- An operation with an immediate that fits. -/
theorem exec_alui {op : ImmOp} {rd rs : Reg} {imm : Int} (h : isImm12 imm = true) (σ : Data) :
    (Instr.alui op rd rs imm).exec sym σ =
      .ok (σ.set rd (op.eval (σ.get rs) (BitVec.ofInt 32 imm))) :=
  if_pos h

/-! ## The pseudo-instructions -/

/-- Comparing by a difference. -/
theorem sub_beq_zero (a b : BitVec 32) : (a - b == 0#32) = (a == b) := by
  rw [Bool.eq_iff_iff, beq_iff_eq, beq_iff_eq]
  bv_omega

theorem eval_mv (a : BitVec 32) : ImmOp.addi.eval a (BitVec.ofInt 32 0) = a := by
  simp [ImmOp.eval]

theorem eval_neg (a : BitVec 32) : AluOp.sub.eval 0#32 a = -a := by
  simp [AluOp.eval]

theorem eval_seqz (a : BitVec 32) : ImmOp.sltiu.eval a (BitVec.ofInt 32 1) = flag (a == 0#32) := by
  refine congrArg flag ?_
  rw [Bool.eq_iff_iff]
  simp only [BitVec.ult, decide_eq_true_iff, beq_iff_eq, BitVec.toNat_eq]
  exact Nat.lt_one_iff

theorem eval_not (b : Bool) : ImmOp.xori.eval (flag b) (BitVec.ofInt 32 1) = flag (!b) := by
  cases b <;> rfl

theorem eval_snez (a : BitVec 32) : AluOp.sltu.eval 0#32 a = flag (a != 0#32) := by
  refine congrArg flag ?_
  rw [Bool.eq_iff_iff]
  simp only [BitVec.ult, decide_eq_true_iff, bne_iff_ne, ne_eq, BitVec.toNat_eq]
  exact Nat.pos_iff_ne_zero

end Does

end Rv32
