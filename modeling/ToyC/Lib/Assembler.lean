import ToyC.Lib.Rv32
import Mathlib.Algebra.Group.Nat.Defs
import Mathlib.Data.List.Nodup

/-!
# What an assembler takes

An instruction has an encoding if its registers exist and its immediates are in range, and a file
is assembled if all of its instructions have one, no label is defined twice, and every symbol is
a label of the file (`Assembles`).

Of such a file the machine executes every instruction it comes to. It can only be stuck at an access
that is not aligned, at a return to an address that is none of the file's, or where it has left the
code (`Assembles.trap`).
-/

namespace Rv32

/-! ## Instructions -/

namespace Instr

/-- The registers of an instruction. -/
@[simp] def regs : Instr → List Reg
  | .alu _ rd rs₁ rs₂ => [rd, rs₁, rs₂]
  | .alui _ rd rs _ | .shift _ rd rs _ | .lw rd _ rs | .lwLo rd _ rs => [rd, rs]
  | .li rd _ | .luiHi rd _ => [rd]
  | .sw rs₂ _ rs | .swLo rs₂ _ rs => [rs₂, rs]
  | .branch _ rs₁ rs₂ _ => [rs₁, rs₂]
  | .j _ | .call _ | .ret => []

/-- Whether the immediate of an instruction is in range. -/
@[simp] def immFits : Instr → Bool
  | .alui _ _ _ imm => isImm12 imm
  | .lw _ off _ | .sw _ off _ => isImm12 off
  | .shift _ _ _ n => decide (n < 32)
  | _ => true

/-- **Whether an instruction has an encoding.** -/
def encodable (i : Instr) : Bool := i.regs.all (decide <| · < 32) && i.immFits

@[simp] theorem encodable_iff {i : Instr} :
    i.encodable = true ↔ (∀ r ∈ i.regs, r < 32) ∧ i.immFits = true := by
  simp [encodable]

/-- The symbol an instruction refers to. -/
@[simp] def sym? : Instr → Option String
  | .luiHi _ s | .lwLo _ s _ | .swLo _ s _ => some s
  | .branch _ _ _ l | .j l | .call l => some l
  | _ => none

end Instr

namespace Instr

/-- The address an instruction accesses. -/
def addr? (sym : String → BitVec 32) (i : Instr) (σ : Data) : Option (BitVec 32) :=
  match i with
  | .lw _ off rs | .sw _ off rs => some (σ.get rs + BitVec.ofInt 32 off)
  | .lwLo _ s rs | .swLo _ s rs => some (σ.get rs + lo (sym s))
  | _ => none

/-- An instruction that does not jump. -/
def straight : Instr → Bool
  | .branch .. | .j _ | .call _ | .ret => false
  | _ => true

/-- **An instruction is executed** if its immediate fits and its address is aligned. -/
theorem exec_ne_stuck {sym : String → BitVec 32} {i : Instr} {σ : Data}
    (hstraight : i.straight = true) (hfits : i.immFits = true)
    (haddr : ∀ a, i.addr? sym σ = some a → Aligned a) : i.exec sym σ ≠ .stuck := by
  intro hstuck
  cases i with
  | branch | j | call | ret => cases hstraight
  | alu | li | luiHi => cases hstuck
  | alui => cases (if_pos hfits).symm.trans hstuck
  | shift => cases (if_pos (of_decide_eq_true hfits)).symm.trans hstuck
  | lw | sw => cases (if_pos ⟨hfits, haddr _ rfl⟩).symm.trans hstuck
  | lwLo | swLo => cases (if_pos (haddr _ rfl)).symm.trans hstuck

end Instr

/-! ## Code -/

/-- **Code that is assembled** where there are these symbols. -/
def Takes (syms : List String) (code : List Instr) : Prop :=
  ∀ i ∈ code, i.encodable = true ∧ ∀ s ∈ i.sym?, s ∈ syms

section Takes

variable {syms : List String} {code code' : List Instr}

@[simp] theorem takes_nil : Takes syms [] := fun _ hi => absurd hi List.not_mem_nil

@[simp] theorem takes_cons {i : Instr} :
    Takes syms (i :: code) ↔ (i.encodable = true ∧ ∀ s ∈ i.sym?, s ∈ syms) ∧ Takes syms code := by
  simp [Takes]

@[simp] theorem takes_append : Takes syms (code ++ code') ↔ Takes syms code ∧ Takes syms code' := by
  unfold Takes
  constructor
  · exact fun h => ⟨fun i hi => h i (List.mem_append_left _ hi),
      fun i hi => h i (List.mem_append_right _ hi)⟩
  · rintro ⟨h, h'⟩ i hi
    exact (List.mem_append.mp hi).elim (h i) (h' i)

theorem takes_flatMap {α : Type} {f : α → List Instr} {as : List α}
    (h : ∀ a ∈ as, Takes syms (f a)) : Takes syms (as.flatMap f) := by
  intro i hi
  obtain ⟨a, ha, hi⟩ := List.mem_flatMap.mp hi
  exact h a ha i hi

end Takes

/-! ## Files -/

/-- The instruction an item is. -/
@[simp] def Item.instr? : Item → Option Instr
  | instr i => some i
  | _ => none

/-- The code of a file. -/
def code (items : List Item) : List Instr := items.filterMap Item.instr?

@[simp] theorem code_nil : code [] = [] := rfl

@[simp] theorem code_cons (x : Item) (items : List Item) :
    code (x :: items) = x.instr?.toList ++ code items := by
  cases x <;> rfl

@[simp] theorem code_append (xs ys : List Item) : code (xs ++ ys) = code xs ++ code ys :=
  List.filterMap_append

@[simp] theorem code_instr (is : List Instr) : code (is.map .instr) = is := by
  induction is with
  | nil => rfl
  | cons i is ih => exact congrArg (i :: ·) ih

theorem code_flatMap {α : Type} (f : α → List Item) (as : List α) :
    code (as.flatMap f) = as.flatMap fun a => code (f a) := by
  induction as with
  | nil => rfl
  | cons a as ih => rw [List.flatMap_cons, code_append, ih, List.flatMap_cons]

theorem mem_code {items : List Item} {i : Instr} : i ∈ code items ↔ .instr i ∈ items := by
  unfold code
  rw [List.mem_filterMap]
  constructor
  · rintro ⟨x, hx, heq⟩
    cases x with
    | instr j =>
      cases heq
      exact hx
    | _ => cases heq
  · exact fun h => ⟨_, h, rfl⟩

/-- **A file that is assembled.** -/
structure Assembles (items : List Item) : Prop where
  labels : (labels items).Nodup
  code : Takes (Rv32.labels items) (code items)

namespace Image

variable {img : Image} {s : State}

/-- **Where the machine may be stuck** in a file that is assembled. -/
inductive Trap (img : Image) (s : State) : Prop where
  | outside (h : ∀ i, img.items[s.pc]? ≠ some (.instr i))
    (h' : ∀ l, img.items[s.pc]? ≠ some (.label l))
  | ret (h : img.items[s.pc]? = some (.instr .ret)) (h' : img.itemAt (s.data.get 1) = none)
  | misaligned (i : Instr) (a : BitVec 32) (h : img.items[s.pc]? = some (.instr i))
    (ha : i.addr? img.sym s.data = some a) (h' : ¬ Aligned a)

/-- A label that is defined once has an item. -/
theorem exists_target (h : (labels img.items).Nodup) {l : String} (hl : l ∈ labels img.items) :
    ∃ i, img.target l = some i := by
  obtain ⟨x, hx, hlabel⟩ := List.mem_filterMap.mp hl
  unfold target
  rw [if_pos (List.count_eq_one_of_mem h hl)]
  cases hidx : img.items.findIdx? (·.label? == some l) with
  | some i => exact ⟨i, rfl⟩
  | none =>
    have hno := List.findIdx?_eq_none_iff.mp hidx x hx
    rw [hlabel] at hno
    simp at hno

theorem goto_ne_stuck (h : (labels img.items).Nodup) {l : String} (hl : l ∈ labels img.items)
    (σ : Data) : img.goto l σ ≠ .stuck := by
  obtain ⟨i, hi⟩ := exists_target h hl
  simp [goto, hi]

end Image

/-- **The machine executes what is assembled**, but for the traps. -/
theorem Assembles.trap {img : Image} (h : Assembles img.items) {s : State}
    (hstuck : img.step s = .stuck) : img.Trap s := by
  unfold Image.step at hstuck
  cases hx : img.items[s.pc]? with
  | none => exact .outside (fun i hi => by simp [hx] at hi) fun l hl => by simp [hx] at hl
  | some x =>
    rw [hx] at hstuck
    cases x with
    | label l => cases hstuck
    | instr i =>
      obtain ⟨henc, hsym⟩ := h.code i (mem_code.mpr (List.mem_of_getElem? hx))
      have hfits : i.immFits = true := (Instr.encodable_iff.mp henc).2
      have hgoto : ∀ l, i.sym? = some l → ∀ σ, img.goto l σ ≠ .stuck := fun l hl =>
        Image.goto_ne_stuck h.labels (hsym l hl)
      have hexec : i.straight = true →
          (i.exec img.sym s.data >>= fun σ => .ok (.inl ⟨s.pc + 1, σ⟩)) =
            (.stuck : Outcome (State ⊕ Empty)) → img.Trap s := by
        intro hstraight heq
        by_contra hno
        have hne : i.exec img.sym s.data ≠ .stuck :=
          Instr.exec_ne_stuck hstraight hfits fun a ha =>
            by_contra fun hal => hno (.misaligned i a hx ha hal)
        cases he : i.exec img.sym s.data with
        | stuck => exact hne he
        | _ =>
          rw [he] at heq
          cases heq
      cases i with
      | branch c rs₁ rs₂ l =>
        dsimp only at hstuck
        split at hstuck
        · exact absurd hstuck (hgoto l rfl _)
        · cases hstuck
      | j l => exact absurd hstuck (hgoto l rfl _)
      | call l => exact absurd hstuck (hgoto l rfl _)
      | ret =>
        refine .ret hx ?_
        cases hret : img.itemAt (s.data.get 1) with
        | none => rfl
        | some i =>
          simp only [hret] at hstuck
          cases hstuck
      | _ => exact hexec rfl hstuck
    | _ => exact .outside (fun i hi => by simp [hx] at hi) fun l hl => by simp [hx] at hl

/-! ## Layout -/

/-- **Where a label is**, if every item of the file takes four bytes. -/
def labelAddr (items : List Item) (l : String) : BitVec 32 :=
  BitVec.ofNat 32 (4 * items.findIdx (·.label? == some l))

section Layout

variable {items : List Item} {l l' : String}

theorem labelAddr_aligned : Aligned (labelAddr items l) := by
  unfold Aligned labelAddr
  rw [BitVec.toNat_ofNat]
  omega

/-- The place of a label that is defined once. -/
theorem findIdx_label (h : (labels items).Nodup) {i : Nat} (hi : items[i]? = some (.label l)) :
    items.findIdx (·.label? == some l) = i := by
  obtain ⟨hlt, hget⟩ := List.getElem?_eq_some_iff.mp hi
  refine (List.findIdx_eq hlt).mpr ⟨by simp [hget, Item.label?], fun j hj => ?_⟩
  have hsplit : items = items.take i ++ .label l :: items.drop (i + 1) := by
    rw [← hget, List.getElem_cons_drop, List.take_append_drop]
  rw [hsplit, labels_append, labels_cons] at h
  obtain ⟨-, -, hdisj⟩ := List.nodup_append.mp h
  by_contra hlabel
  refine hdisj l (List.mem_filterMap.mpr ⟨items[j], ?_, by simpa using hlabel⟩) l
    (by simp [Item.label?]) rfl
  exact List.mem_take_iff_getElem.mpr ⟨j, by omega, rfl⟩

/-- A label of the file is at one of its items. -/
theorem exists_findIdx (hl : l ∈ labels items) :
    ∃ i, items.findIdx (·.label? == some l) = i ∧ items[i]? = some (.label l) := by
  obtain ⟨x, hx, hlabel⟩ := List.mem_filterMap.mp hl
  have hlt : items.findIdx (·.label? == some l) < items.length :=
    List.findIdx_lt_length_of_exists ⟨x, hx, by simp [hlabel]⟩
  refine ⟨_, rfl, ?_⟩
  have hp := List.findIdx_getElem (w := hlt)
  rw [List.getElem?_eq_getElem hlt]
  cases hitem : items[items.findIdx (·.label? == some l)] with
  | label l' =>
    rw [hitem] at hp
    simpa [Item.label?] using hp
  | _ =>
    rw [hitem] at hp
    simp [Item.label?] at hp

variable (hsize : 4 * items.length ≤ 2 ^ 32)

include hsize

/-- A label of the file is below its end. -/
theorem labelAddr_lt (hl : l ∈ labels items) : (labelAddr items l).toNat < 4 * items.length := by
  obtain ⟨i, hidx, hi⟩ := exists_findIdx hl
  have hlt := (List.getElem?_eq_some_iff.mp hi).choose
  unfold labelAddr
  rw [hidx, BitVec.toNat_ofNat, Nat.mod_eq_of_lt (by omega)]
  omega

/-- **Labels are at different addresses.** -/
theorem labelAddr_inj (hl : l ∈ labels items) (hl' : l' ∈ labels items)
    (h : labelAddr items l = labelAddr items l') : l = l' := by
  obtain ⟨i, hidx, hi⟩ := exists_findIdx hl
  obtain ⟨i', hidx', hi'⟩ := exists_findIdx hl'
  have hlt := (List.getElem?_eq_some_iff.mp hi).choose
  have hlt' := (List.getElem?_eq_some_iff.mp hi').choose
  have heq := congrArg BitVec.toNat h
  unfold labelAddr at heq
  rw [hidx, hidx', BitVec.toNat_ofNat, BitVec.toNat_ofNat, Nat.mod_eq_of_lt (by omega),
    Nat.mod_eq_of_lt (by omega)] at heq
  obtain rfl : i = i' := by omega
  simpa [hi] using hi'

end Layout

end Rv32
