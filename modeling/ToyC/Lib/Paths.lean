import ToyC.Lib.Rv32
import Mathlib.Logic.Relation

/-!
# Paths through assembly code

A path goes from instruction to instruction, either way at a branch, and over a call in one
step, of which only the law is known that callees obey. What the machine does between a call and a
return is a path (`PathStep.of_step`).

What a piece of code must satisfy for a path to keep to a contract – what it stores to, what
holds at labels and at returns – is computed backwards through the code, from label to label
(`Contract.Guards`). If the assertion of every label guards what follows it, every path keeps
to the contract (`Contract.Guards.path`).
-/

namespace Rv32

/-- **The address an instruction stores to.** -/
def Instr.storeAddr (sym : String → BitVec 32) (i : Instr) (σ : Data) : Option (BitVec 32) :=
  match i with
  | .sw _ off rs => some (σ.get rs + BitVec.ofInt 32 off)
  | .swLo _ s rs => some (σ.get rs + lo (sym s))
  | _ => none

/-- The register an instruction writes. -/
def Instr.rd? : Instr → Option Reg
  | .alu _ rd _ _ | .alui _ rd _ _ | .shift _ rd _ _ | .li rd _ | .luiHi rd _ | .lw rd _ _
  | .lwLo rd _ _ => some rd
  | _ => none

section Frame

variable {sym : String → BitVec 32} {i : Instr} {σ σ' : Data}

/-- An instruction that stores nothing leaves memory alone. -/
theorem Instr.exec_mem (h : i.exec sym σ = .ok σ') (hi : i.storeAddr sym σ = none) :
    σ'.mem = σ.mem := by
  cases i with
  | alu | li | luiHi =>
    cases h
    rfl
  | alui | shift | lw | lwLo =>
    simp only [exec] at h
    split at h
    · cases h
      rfl
    · cases h
  | sw | swLo => cases hi
  | branch | j | call | ret => cases h

/-- **An instruction writes one word of memory.** -/
theorem Instr.exec_mem_of_ne (h : i.exec sym σ = .ok σ') {a : BitVec 32}
    (ha : i.storeAddr sym σ ≠ some a) : σ'.mem a = σ.mem a := by
  cases i with
  | sw | swLo =>
    simp only [exec] at h
    split at h
    · cases h
      exact σ.store_mem_of_ne (fun heq => ha (congrArg some heq.symm)) _
    · cases h
  | _ => rw [exec_mem h rfl]

/-- **An instruction writes one register.** -/
theorem Instr.exec_get (h : i.exec sym σ = .ok σ') {x : Reg} (hx : i.rd? ≠ some x) :
    σ'.get x = σ.get x := by
  have hset : ∀ {rd : Reg} (v : BitVec 32), some rd ≠ some x → (σ.set rd v).get x = σ.get x :=
    fun v hne => σ.get_set_of_ne (fun h => hne (congrArg some h.symm)) v
  cases i with
  | alu | li | luiHi =>
    cases h
    exact hset _ hx
  | alui | shift | lw | lwLo =>
    simp only [exec] at h
    split at h
    · cases h
      exact hset _ hx
    · cases h
  | sw | swLo =>
    simp only [exec] at h
    split at h
    · cases h
      rfl
    · cases h
  | branch | j | call | ret => cases h

/-- **Code that only computes**: every instruction writes one of some registers. -/
def Only (xs : List Reg) (code : List Instr) : Prop := ∀ i ∈ code, ∃ x ∈ xs, i.rd? = some x

@[simp] theorem only_nil (xs : List Reg) : Only xs [] := by simp [Only]

@[simp] theorem only_cons (xs : List Reg) (i : Instr) (code : List Instr) :
    Only xs (i :: code) ↔ (∃ x ∈ xs, i.rd? = some x) ∧ Only xs code := by
  simp [Only]

@[simp] theorem only_append (xs : List Reg) (code code' : List Instr) :
    Only xs (code ++ code') ↔ Only xs code ∧ Only xs code' := by
  unfold Only
  simp only [List.mem_append]
  exact ⟨fun h => ⟨fun i hi => h i (.inl hi), fun i hi => h i (.inr hi)⟩,
    fun h i hi => hi.elim (h.1 i) (h.2 i)⟩

theorem Only.mono {xs ys : List Reg} {code : List Instr} (h : Only xs code)
    (hsub : ∀ x ∈ xs, x ∈ ys) : Only ys code := fun i hi =>
  let ⟨x, hx, hrd⟩ := h i hi
  ⟨x, hsub x hx, hrd⟩

theorem Only.exists_rd {xs : List Reg} {code : List Instr} (h : Only xs code) :
    ∀ i ∈ code, ∃ rd, i.rd? = some rd := fun i hi =>
  let ⟨x, _, hrd⟩ := h i hi
  ⟨x, hrd⟩

/-- Such code does not jump. -/
theorem Only.dests {xs : List Reg} {code : List Instr} (h : Only xs code) : dests code = [] := by
  refine List.filterMap_eq_nil_iff.mpr fun i hi => ?_
  obtain ⟨x, -, hrd⟩ := h i hi
  cases i <;> first | rfl | cases hrd

/-- Code that never writes a register leaves it alone. -/
theorem execs_get {code : List Instr} (h : execs sym code σ = .ok σ') {x : Reg}
    (hx : ∀ i ∈ code, i.rd? ≠ some x) : σ'.get x = σ.get x := by
  induction code generalizing σ with
  | nil =>
    cases h
    rfl
  | cons i code ih =>
    obtain ⟨σ₁, hi, h⟩ := Outcome.bind_eq_ok.mp h
    rw [ih h fun j hj => hx j (List.mem_cons_of_mem _ hj), i.exec_get hi (hx i List.mem_cons_self)]

end Frame

namespace Image

variable (img : Image) (law : Data → Data → Prop)

/-! ## Paths -/

/-- **One step of a path.** The law relates the machine at the entry of a callee to the machine
when it has returned. -/
inductive PathStep : State → State → Prop where
  | label {i : Nat} {l : String} {σ : Data} (hi : img.items[i]? = some (.label l)) :
      PathStep ⟨i, σ⟩ ⟨i + 1, σ⟩
  | exec {i : Nat} {ins : Instr} {σ σ' : Data} (hi : img.items[i]? = some (.instr ins))
      (h : ins.exec img.sym σ = .ok σ') : PathStep ⟨i, σ⟩ ⟨i + 1, σ'⟩
  | taken {i t : Nat} {c : Cmp} {x y : Reg} {l : String} {σ : Data}
      (hi : img.items[i]? = some (.instr (.branch c x y l))) (ht : img.target l = some t) :
      PathStep ⟨i, σ⟩ ⟨t, σ⟩
  | notTaken {i : Nat} {c : Cmp} {x y : Reg} {l : String} {σ : Data}
      (hi : img.items[i]? = some (.instr (.branch c x y l))) : PathStep ⟨i, σ⟩ ⟨i + 1, σ⟩
  | jump {i t : Nat} {l : String} {σ : Data} (hi : img.items[i]? = some (.instr (.j l)))
      (ht : img.target l = some t) : PathStep ⟨i, σ⟩ ⟨t, σ⟩
  | call {i : Nat} {l : String} {σ σ' : Data} (hi : img.items[i]? = some (.instr (.call l)))
      (h : law (σ.set 1 (img.addr (i + 1))) σ') : PathStep ⟨i, σ⟩ ⟨i + 1, σ'⟩

/-- **A path.** -/
abbrev Path : State → State → Prop := Relation.ReflTransGen (img.PathStep law)

variable {img law}

/-- A label is found where it stands. -/
theorem items_target {l : String} {t : Nat} (h : img.target l = some t) :
    img.items[t]? = some (.label l) := by
  unfold target at h
  split at h
  · obtain ⟨ht, hl, -⟩ := List.findIdx?_eq_some_iff_getElem.mp h
    rw [List.getElem?_eq_getElem ht]
    cases hitem : img.items[t] <;> simp [hitem, Item.label?] at hl
    rw [hl]
  · cases h

/-- **A step of the machine** that is neither a call nor a return is one of a path. -/
theorem PathStep.of_step {s s' : State} (h : img.step s = .ok (.inl s'))
    (hcall : ∀ l, img.items[s.pc]? ≠ some (.instr (.call l)))
    (hret : img.items[s.pc]? ≠ some (.instr .ret)) : img.PathStep law s s' := by
  obtain ⟨i, σ⟩ := s
  have hgoto : ∀ {l s'}, img.goto l σ = .ok (.inl s') →
      ∃ t, img.target l = some t ∧ s' = ⟨t, σ⟩ := by
    intro l s' h
    unfold goto at h
    split at h
    · rename_i t ht
      cases h
      exact ⟨t, ht, rfl⟩
    · cases h
  unfold step at h
  split at h
  · rename_i l hi
    cases h
    exact .label hi
  · rename_i ins hi
    split at h
    · split at h
      · obtain ⟨t, ht, rfl⟩ := hgoto h
        exact .taken hi ht
      · cases h
        exact .notTaken hi
    · obtain ⟨t, ht, rfl⟩ := hgoto h
      exact .jump hi ht
    · exact absurd hi (hcall _)
    · exact absurd hi hret
    · obtain ⟨σ', hexec, h⟩ := Outcome.bind_eq_ok.mp h
      cases h
      exact .exec hi hexec
  · cases h

/-! ## Relations that follow the machine -/

/-- **A relation that follows the machine**, but for its calls and returns. -/
structure Follows (img : Image) (via : State → State → Prop) : Prop where
  refl : ∀ s, via s s
  trans : ∀ {s s' s''}, via s s' → via s' s'' → via s s''
  step : ∀ {s s'}, img.step s = .ok (.inl s') →
    (∀ l, img.items[s.pc]? ≠ some (.instr (.call l))) → img.items[s.pc]? ≠ some (.instr .ret) →
    via s s'

theorem follows_steps : img.Follows img.Steps :=
  ⟨.refl, .trans, fun h _ _ => .single h⟩

theorem follows_path : img.Follows (img.Path law) :=
  ⟨fun _ => .refl, .trans, fun h hcall hret => .single (.of_step h hcall hret)⟩

/-- Following both. -/
theorem Follows.and {via via' : State → State → Prop} (h : img.Follows via)
    (h' : img.Follows via') : img.Follows fun s s' => via s s' ∧ via' s s' where
  refl s := ⟨h.refl s, h'.refl s⟩
  trans hs hs' := ⟨h.trans hs.1 hs'.1, h'.trans hs.2 hs'.2⟩
  step hs hcall hret := ⟨h.step hs hcall hret, h'.step hs hcall hret⟩

section Follows

variable {via : State → State → Prop} {i : Nat} {σ σ' : Data} {rest : List Item} {l : String}
  {t : Nat}

/-- One item that is neither a call nor a return. -/
theorem Follows.item (h : img.Follows via) {x : Item} (hat : img.At i (x :: rest))
    (hcall : ∀ l, x ≠ .instr (.call l)) (hret : x ≠ .instr .ret) {s' : State}
    (hstep : img.step ⟨i, σ⟩ = .ok (.inl s')) : via ⟨i, σ⟩ s' :=
  h.step hstep (fun l hi => hcall l (Option.some.inj (hat.head.symm.trans hi)))
    fun hi => hret (Option.some.inj (hat.head.symm.trans hi))

/-- **Straight-line code.** -/
theorem Follows.execs (h : img.Follows via) {code : List Instr}
    (hat : img.At i (code.map .instr ++ rest)) (hexecs : Rv32.execs img.sym code σ = .ok σ') :
    via ⟨i, σ⟩ ⟨i + code.length, σ'⟩ ∧ img.At (i + code.length) rest := by
  induction code generalizing i σ with
  | nil =>
    cases hexecs
    exact ⟨h.refl _, hat⟩
  | cons ins code ih =>
    obtain ⟨σ₁, hexec, hexecs⟩ := Outcome.bind_eq_ok.mp hexecs
    obtain ⟨hs, hat'⟩ := ih (At.tail hat) hexecs
    rw [List.length_cons, ← Nat.add_assoc, Nat.add_right_comm]
    refine ⟨h.trans (h.item hat ?_ ?_ (step_exec hat.head hexec)) hs, hat'⟩
    · rintro l ⟨⟩
      cases hexec
    · rintro ⟨⟩
      cases hexec

theorem Follows.label (h : img.Follows via) (hat : img.At i (.label l :: rest)) (σ : Data) :
    via ⟨i, σ⟩ ⟨i + 1, σ⟩ := by
  refine h.item hat (by simp) (by simp) ?_
  unfold Image.step
  rw [hat.head]

/-- A jump. -/
theorem Follows.j (h : img.Follows via) (hat : img.At i (.instr (.j l) :: rest))
    (ht : img.target l = some t) (σ : Data) : via ⟨i, σ⟩ ⟨t, σ⟩ := by
  refine h.item hat (by simp) (by simp) ?_
  unfold Image.step
  rw [hat.head]
  simp only [goto, ht]

/-- A branch that is taken. -/
theorem Follows.branch (h : img.Follows via) {c : Cmp} {a b : Reg}
    (hat : img.At i (.instr (.branch c a b l) :: rest)) (ht : img.target l = some t)
    (hc : c.eval (σ.get a) (σ.get b) = true) : via ⟨i, σ⟩ ⟨t, σ⟩ := by
  refine h.item hat (by simp) (by simp) ?_
  unfold Image.step
  rw [hat.head]
  simp only [hc, if_true, goto, ht]

/-- A branch that is not taken. -/
theorem Follows.branch_not (h : img.Follows via) {c : Cmp} {a b : Reg}
    (hat : img.At i (.instr (.branch c a b l) :: rest))
    (hc : c.eval (σ.get a) (σ.get b) = false) : via ⟨i, σ⟩ ⟨i + 1, σ⟩ := by
  refine h.item hat (by simp) (by simp) ?_
  unfold Image.step
  rw [hat.head]
  simp [hc]

end Follows

/-- A path under a law that says more. -/
theorem Path.mono {law' : Data → Data → Prop} (hlaw : ∀ {σ σ'}, law σ σ' → law' σ σ')
    {s s' : State} (h : img.Path law s s') : img.Path law' s s' := by
  refine Relation.ReflTransGen.mono (fun s s' hstep => ?_) _ _ h
  cases hstep with
  | label hi => exact .label hi
  | exec hi hexec => exact .exec hi hexec
  | taken hi ht => exact .taken hi ht
  | notTaken hi => exact .notTaken hi
  | jump hi ht => exact .jump hi ht
  | call hi h => exact .call hi (hlaw h)

/-- **What is not stored to on a path is kept**, if the callees keep it. -/
theorem Path.mem (kept : BitVec 32 → Prop)
    (hlaw : ∀ {σ σ'}, law σ σ' → ∀ a, kept a → σ'.mem a = σ.mem a) {s s' : State}
    (hstore : ∀ s₁, img.Path law s s₁ → ∀ i a, img.items[s₁.pc]? = some (.instr i) →
      i.storeAddr img.sym s₁.data = some a → ¬ kept a)
    (h : img.Path law s s') {a : BitVec 32} (ha : kept a) : s'.data.mem a = s.data.mem a := by
  induction h with
  | refl => rfl
  | @tail s₁ s₂ hpath hstep ih =>
    refine Eq.trans ?_ ih
    cases hstep with
    | label | taken | notTaken | jump => rfl
    | exec hi hexec => exact Instr.exec_mem_of_ne hexec fun h => hstore _ hpath _ _ hi h ha
    | call hi h => exact hlaw h a ha

/-- **What is not jumped to is come to from in front.** -/
theorem Path.last {s₀ : State} {i : Nat} {σ' : Data} (h : img.Path law s₀ ⟨i + 1, σ'⟩)
    (h₀ : s₀.pc ≠ i + 1) (hlabel : ∀ l, img.items[i + 1]? ≠ some (.label l)) {ins : Instr}
    (hi : img.items[i]? = some (.instr ins)) {rd : Reg} (hins : ins.rd? = some rd) :
    ∃ σ, img.Path law s₀ ⟨i, σ⟩ ∧ ins.exec img.sym σ = .ok σ' := by
  rcases Relation.ReflTransGen.cases_tail h with rfl | ⟨s, hs, hstep⟩
  · exact absurd rfl h₀
  · cases hstep with
    | label hi' =>
      rw [hi] at hi'
      cases hi'
    | exec hi' hexec =>
      rw [hi] at hi'
      cases hi'
      exact ⟨_, hs, hexec⟩
    | taken hi' ht => exact absurd (items_target ht) (hlabel _)
    | notTaken hi' =>
      rw [hi] at hi'
      cases hi'
      cases hins
    | jump hi' ht => exact absurd (items_target ht) (hlabel _)
    | call hi' =>
      rw [hi] at hi'
      cases hi'
      cases hins

/-- **Straight-line code is come to from its beginning.** -/
theorem Path.execs {code : List Instr} {rest : List Item} {s₀ : State} {i : Nat}
    (hat : img.At i (code.map .instr ++ rest)) (hrest : ∀ l rest', rest ≠ .label l :: rest')
    (hne : rest ≠ []) (h₀ : ∀ k ≤ code.length, 0 < k → s₀.pc ≠ i + k)
    (hcode : ∀ ins ∈ code, ∃ rd, ins.rd? = some rd) {σ' : Data}
    (h : img.Path law s₀ ⟨i + code.length, σ'⟩) :
    ∃ σ, img.Path law s₀ ⟨i, σ⟩ ∧ img.Path law ⟨i, σ⟩ ⟨i + code.length, σ'⟩ ∧
      Rv32.execs img.sym code σ = .ok σ' := by
  induction code generalizing i with
  | nil => exact ⟨σ', h, .refl, rfl⟩
  | cons ins code ih =>
    have hnext : ∀ l, img.items[i + 1]? ≠ some (.label l) := by
      intro l hl
      cases code with
      | nil =>
        obtain ⟨x, rest', rfl⟩ := List.exists_cons_of_ne_nil hne
        have hx := (At.head (At.tail hat)).symm.trans hl
        exact hrest l rest' (by rw [Option.some.inj hx])
      | cons ins' code =>
        have hx := (At.head (At.tail hat)).symm.trans hl
        cases hx
    have hpc : i + (ins :: code).length = i + 1 + code.length := by
      rw [List.length_cons]
      omega
    rw [hpc] at h ⊢
    obtain ⟨σ₁, hpath, hrun, hexecs⟩ := ih (At.tail hat)
      (fun k hk hpos => by
        have := h₀ (k + 1) (Nat.succ_le_succ hk) (Nat.succ_pos k)
        omega)
      (fun j hj => hcode j (List.mem_cons_of_mem _ hj)) h
    obtain ⟨rd, hrd⟩ := hcode ins List.mem_cons_self
    obtain ⟨σ, hσ, hexec⟩ := Path.last hpath (h₀ 1 (Nat.succ_le_succ (Nat.zero_le _)) Nat.one_pos)
      hnext (At.head hat) hrd
    refine ⟨σ, hσ, .head (.exec (At.head hat) hexec) hrun, ?_⟩
    rw [Rv32.execs, hexec]
    exact hexecs

/-- **Code that is not left** but by a return: it ends in a jump or a return, and jumps to labels of
its own. -/
structure Closed (code : List Item) : Prop where
  last : ∃ i, code.getLast? = some (.instr i) ∧ (i = .ret ∨ ∃ l, i = .j l)
  jumps : ∀ l ∈ jumps code, l ∈ labels code

/-- **A path does not leave such code.** -/
theorem Closed.path {before code after : List Item} (hclosed : Closed code)
    (hitems : img.items = before ++ code ++ after) {s s' : State} (h : img.Path law s s')
    (hs : before.length ≤ s.pc ∧ s.pc < before.length + code.length) :
    before.length ≤ s'.pc ∧ s'.pc < before.length + code.length := by
  have hget : ∀ k < code.length, img.items[before.length + k]? = code[k]? := by
    intro k hk
    rw [hitems, List.append_assoc, List.getElem?_append_right (Nat.le_add_right _ _),
      Nat.add_sub_cancel_left, List.getElem?_append_left hk]
  induction h with
  | refl => exact hs
  | @tail s₁ s' _ hstep ih =>
    obtain ⟨k, hk, hpc⟩ : ∃ k < code.length, s₁.pc = before.length + k :=
      ⟨s₁.pc - before.length, by omega, by omega⟩
    have hitem : img.items[s₁.pc]? = code[k]? := hpc ▸ hget k hk
    -- An item that is neither a jump nor a return is not the last one.
    have hnext : (∀ i, code[k]? = some (.instr i) → i ≠ .ret ∧ ∀ l, i ≠ .j l) →
        before.length ≤ s₁.pc + 1 ∧ s₁.pc + 1 < before.length + code.length := by
      intro hne
      obtain ⟨i, hi, hlast⟩ := hclosed.last
      rw [List.getLast?_eq_getElem?] at hi
      have hlt : k ≠ code.length - 1 := by
        rintro rfl
        obtain ⟨hret, hj⟩ := hne i hi
        rcases hlast with rfl | ⟨l, rfl⟩
        · exact hret rfl
        · exact hj l rfl
      omega
    -- A label that is jumped to is one of the code.
    have htarget : ∀ {i l t}, code[k]? = some (.instr i) → i.dest? = some l →
        img.target l = some t → before.length ≤ t ∧ t < before.length + code.length := by
      intro i l t hi hl ht
      have hmem : l ∈ labels code := hclosed.jumps l
        (List.mem_flatMap.mpr ⟨_, List.mem_of_getElem? hi, by simp [hl]⟩)
      obtain ⟨item, hlabel, hlabel'⟩ := List.mem_filterMap.mp hmem
      obtain ⟨j, hj, hcode⟩ := List.getElem_of_mem hlabel
      have hat : img.At (before.length + j) [.label l] := by
        have hx := hget j hj
        rw [List.getElem?_eq_getElem hj, hcode] at hx
        obtain ⟨hlt, hx⟩ := List.getElem?_eq_some_iff.mp hx
        refine ⟨img.items.drop (before.length + j + 1), ?_⟩
        rw [List.drop_eq_getElem_cons hlt, hx]
        cases item <;> simp [Item.label?] at hlabel'
        rw [hlabel']
        rfl
      have hcount : (labels img.items).count l = 1 := by
        by_contra hcount
        unfold Image.target at ht
        rw [if_neg hcount] at ht
        cases ht
      obtain rfl := Option.some.inj (ht.symm.trans (hat.target hcount))
      omega
    cases hstep with
    | label hi =>
      refine hnext fun i hi' => ?_
      cases (hitem.symm.trans hi).symm.trans hi'
    | exec hi hexec =>
      refine hnext fun i hi' => ?_
      cases (hitem.symm.trans hi).symm.trans hi'
      refine ⟨?_, fun l => ?_⟩ <;> rintro rfl <;> cases hexec
    | taken hi ht => exact htarget (hitem.symm.trans hi) rfl ht
    | notTaken hi =>
      refine hnext fun i hi' => ?_
      cases (hitem.symm.trans hi).symm.trans hi'
      exact ⟨by simp, by simp⟩
    | jump hi ht => exact htarget (hitem.symm.trans hi) rfl ht
    | call hi =>
      refine hnext fun i hi' => ?_
      cases (hitem.symm.trans hi).symm.trans hi'
      exact ⟨by simp, by simp⟩

end Image

/-- **Every return comes behind some code.** -/
def RetsBehind (code : List Instr) (items : List Item) : Prop :=
  ∀ pre post, items = pre ++ .instr .ret :: post → ∃ pre', pre = pre' ++ code.map .instr

section RetsBehind

variable {code : List Instr} {xs ys : List Item}

theorem retsBehind_of_notMem (h : .instr .ret ∉ xs) : RetsBehind code xs := by
  rintro pre post rfl
  exact absurd (List.mem_append_right _ List.mem_cons_self) h

theorem RetsBehind.append (hxs : RetsBehind code xs) (hys : RetsBehind code ys) :
    RetsBehind code (xs ++ ys) := by
  intro pre post h
  rcases List.append_eq_append_iff.mp h with ⟨pre₂, rfl, hys'⟩ | ⟨rest, rfl, hrest⟩
  · obtain ⟨pre', rfl⟩ := hys pre₂ post hys'
    exact ⟨xs ++ pre', (List.append_assoc _ _ _).symm⟩
  · cases rest with
    | nil =>
      obtain ⟨pre', hpre'⟩ := hys [] post hrest.symm
      exact ⟨pre, by rw [(List.append_eq_nil_iff.mp hpre'.symm).2, List.append_nil]⟩
    | cons x rest =>
      obtain ⟨rfl, -⟩ := List.cons.inj hrest
      exact hxs pre rest rfl

end RetsBehind

/-! ## Contracts -/

/-- **A contract of some code**: the addresses it may store to, the law of its callees, what holds at
labels, and what it is to make sure of at returns. -/
structure Contract where
  sym : String → BitVec 32
  store : BitVec 32 → Prop
  law : Data → Data → Prop
  inv : String → Data → Prop
  ret : Data → Prop

namespace Contract

variable (C : Contract)

/-- **The condition under which code keeps to a contract**, up to the labels that are come to. -/
def Guards : List Item → Data → Prop
  | .label l :: _, σ => C.inv l σ
  | .instr i :: rest, σ =>
    match i with
    | .branch _ _ _ l => C.inv l σ ∧ Guards rest σ
    | .j l => C.inv l σ
    | .call _ => ∀ w σ', C.law (σ.set 1 w) σ' → Guards rest σ'
    | .ret => C.ret σ
    | i => (∀ a, i.storeAddr C.sym σ = some a → C.store a) ∧
        ∀ σ', i.exec C.sym σ = .ok σ' → Guards rest σ'
  | _, _ => True

/-- What holds at a label guards what follows it. -/
def Valid (img : Image) : Prop :=
  ∀ i l σ, img.items[i]? = some (.label l) → C.inv l σ → C.Guards (img.items.drop (i + 1)) σ

variable {C}

section Guards

variable {σ : Data} {rest : List Item}

theorem guards_exec {i : Instr} {rd : Reg} (hi : i.rd? = some rd) :
    C.Guards (.instr i :: rest) σ ↔ ∀ σ', i.exec C.sym σ = .ok σ' → C.Guards rest σ' := by
  cases i with
  | alu | alui | shift | li | luiHi | lw | lwLo => simp [Guards, Instr.storeAddr]
  | _ => cases hi

/-- **Straight-line code** that stores nothing. -/
theorem guards_execs {code : List Instr} (hcode : ∀ i ∈ code, ∃ rd, i.rd? = some rd)
    (h : ∀ σ', execs C.sym code σ = .ok σ' → C.Guards rest σ') :
    C.Guards (code.map .instr ++ rest) σ := by
  induction code generalizing σ with
  | nil => exact h σ rfl
  | cons i code ih =>
    obtain ⟨rd, hrd⟩ := hcode i List.mem_cons_self
    refine (guards_exec hrd).mpr fun σ₁ hexec => ?_
    refine ih (fun j hj => hcode j (List.mem_cons_of_mem _ hj)) fun σ' hσ' => h σ' ?_
    rw [execs, hexec]
    exact hσ'

/-- **What such code does when it is run**: it stores where it may, and guards what is behind it. -/
theorem Guards.execs {code : List Instr} (h : C.Guards (code.map .instr ++ rest) σ) {σ' : Data}
    (hexecs : execs C.sym code σ = .ok σ') :
    C.Guards rest σ' ∧ ∀ a, ¬ C.store a → σ'.mem a = σ.mem a := by
  induction code generalizing σ with
  | nil =>
    cases hexecs
    exact ⟨h, fun _ _ => rfl⟩
  | cons i code ih =>
    obtain ⟨σ₁, hexec, hexecs⟩ := Outcome.bind_eq_ok.mp hexecs
    have hi : (∀ a, i.storeAddr C.sym σ = some a → C.store a) ∧
        C.Guards (code.map .instr ++ rest) σ₁ := by
      cases i with
      | branch | j | call | ret => cases hexec
      | _ => exact ⟨h.1, h.2 _ hexec⟩
    obtain ⟨hrest, hmem⟩ := ih hi.2 hexecs
    refine ⟨hrest, fun a ha => (hmem a ha).trans ?_⟩
    exact Instr.exec_mem_of_ne hexec fun h => ha (hi.1 a h)

end Guards

section Path

variable {img : Image} {s s' : State}

/-- One step keeps to the contract. -/
theorem Guards.step (hsym : C.sym = img.sym) (hvalid : C.Valid img)
    (h : C.Guards (img.items.drop s.pc) s.data) (hstep : img.PathStep C.law s s') :
    C.Guards (img.items.drop s'.pc) s'.data := by
  have hdrop : ∀ {i x}, img.items[i]? = some x →
      img.items.drop i = x :: img.items.drop (i + 1) := by
    intro i x hi
    obtain ⟨hlt, rfl⟩ := List.getElem?_eq_some_iff.mp hi
    exact List.drop_eq_getElem_cons hlt
  have htarget : ∀ {l t σ}, img.target l = some t → C.inv l σ →
      C.Guards (img.items.drop t) σ := by
    intro l t σ ht hinv
    rw [hdrop (Image.items_target ht)]
    exact hinv
  cases hstep with
  | label hi =>
    rw [hdrop hi] at h
    exact hvalid _ _ _ hi h
  | @exec i ins σ σ' hi hexec =>
    rw [hdrop hi] at h
    rw [← hsym] at hexec
    cases ins with
    | branch | j | call | ret => cases hexec
    | _ => exact h.2 _ hexec
  | taken hi ht =>
    rw [hdrop hi] at h
    exact htarget ht h.1
  | notTaken hi =>
    rw [hdrop hi] at h
    exact h.2
  | jump hi ht =>
    rw [hdrop hi] at h
    exact htarget ht h
  | call hi hlaw =>
    rw [hdrop hi] at h
    exact h _ _ hlaw

/-- **A path keeps to the contract.** -/
theorem Guards.path (hsym : C.sym = img.sym) (hvalid : C.Valid img)
    (h : C.Guards (img.items.drop s.pc) s.data) (hpath : img.Path C.law s s') :
    C.Guards (img.items.drop s'.pc) s'.data := by
  induction hpath with
  | refl => exact h
  | tail _ hstep ih => exact ih.step hsym hvalid hstep

/-- What it stores to. -/
theorem Guards.store (hsym : C.sym = img.sym) (h : C.Guards (img.items.drop s.pc) s.data)
    {i : Instr} (hi : img.items[s.pc]? = some (.instr i)) {a : BitVec 32}
    (ha : i.storeAddr img.sym s.data = some a) : C.store a := by
  obtain ⟨hlt, hitem⟩ := List.getElem?_eq_some_iff.mp hi
  rw [List.drop_eq_getElem_cons hlt, hitem] at h
  rw [← hsym] at ha
  cases i with
  | sw | swLo => exact h.1 a ha
  | _ => cases ha

/-- What holds when it returns. -/
theorem Guards.ret (h : C.Guards (img.items.drop s.pc) s.data)
    (hi : img.items[s.pc]? = some (.instr .ret)) : C.ret s.data := by
  obtain ⟨hlt, hitem⟩ := List.getElem?_eq_some_iff.mp hi
  rw [List.drop_eq_getElem_cons hlt, hitem] at h
  exact h

end Path

end Contract

end Rv32
