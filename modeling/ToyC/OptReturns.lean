import ToyC.OptDiscipline
import ToyC.OptJumps

/-!
# The returns of the optimizing code generator

The prologue saves what the epilogue restores, so the body begins with what it is to keep
(`guards_prologue`). A path does not leave the code of a function but by a return (`closed_funcCode`),
and every return comes behind an epilogue (`retsBehind_funcCode`); so a path that returns comes to
that epilogue first, which leaves `a0` alone. Together these are the frame discipline
(`frame_discipline`).
-/

namespace ToyC

open Rv32

namespace OptCodeGen

open NaiveCodeGen (globalAddr)

/-! ## The prologue -/

section Prologue

variable {img : Image} {m : IRModule} {opt : Bool} {A : Allocation} {F : IRFunc} {b : BitVec 32}
  {σ₀ σ : Data} {items : List Item}

/-- **The machine while registers are saved**: the first `k` of them are, and the return address. -/
structure Saving (img : Image) (m : IRModule) (A : Allocation) (F : IRFunc) (b : BitVec 32)
    (σ₀ : Data) (k : Nat) (σ : Data) : Prop where
  sp : σ.get XReg.sp = b
  regs : ∀ x, x = XReg.ra ∨ isCalleeSaved x = true → σ.get x = σ₀.get x
  saved : ∀ j < k, ∀ x, A.usedCallee[j]? = some x →
    σ.mem (cell b ((frameOf A F).calleeBase + j * 4)) = σ₀.get x
  ra : A.isLeaf = false → σ.mem (cell b (frameOf A F).raOff) = σ₀.get XReg.ra
  mem : ∀ a, (∀ gid < m.globals.length, a ≠ globalAddr m img gid) →
    (σ₀.get XReg.sp).toNat ≤ a.toNat → σ.mem a = σ₀.mem a

/-- When all are, the body has what it is to keep. -/
theorem Saving.body (h : Saving img m A F b σ₀ A.usedCallee.length σ) :
    Body img m A F b σ₀ σ where
  sp := h.sp
  regs x hs _ := h.regs x (.inr hs)
  saved k x hx := h.saved k (List.getElem?_eq_some_iff.mp hx).1 x hx
  ra := by
    cases hleaf : A.isLeaf with
    | true => exact h.regs _ (.inl rfl)
    | false => exact h.ra hleaf
  mem := h.mem

/-- The words behind the frame are not in it. -/
theorem Entry.behind (he : Entry img m A F b σ₀) {off : Nat} (hoff : off < (frameOf A F).frameSize)
    {a : BitVec 32} (ha : (σ₀.get XReg.sp).toNat ≤ a.toNat) : a ≠ cell b off := by
  rintro rfl
  rw [he.frame.toNat (by omega), he.toNat] at ha
  omega

/-- **One more register is saved.** -/
theorem Saving.next (he : Entry img m A F b σ₀) (hA : A.Placed F.numVregs) {k : Nat} {x : XReg}
    (hx : A.usedCallee[k]? = some x) (h : Saving img m A F b σ₀ k σ) {σ' : Data} {w : Word}
    (hmem : σ'.mem = (σ.store (cell b ((frameOf A F).calleeBase + k * 4)) w).mem)
    (hw : x ≠ XReg.a7 → w = σ.get x) (hk : Keeps [XReg.a7] σ σ') :
    Saving img m A F b σ₀ (k + 1) σ' := by
  have hfr := frameOf_laid A F
  have hs := hA.usedCallee_mem (List.mem_of_getElem? hx)
  have hhas : ∀ {j y}, A.usedCallee[j]? = some y →
      (frameOf A F).calleeBase + j * 4 < (frameOf A F).frameSize := fun hy => by
    have := (Area.has_saved hy).le_size hfr hA
    omega
  refine ⟨(hk _ (by decide)).trans h.sp, fun y hy => ?_, fun j hj y hy => ?_, fun hleaf => ?_,
    fun a ha hle => ?_⟩
  · refine (hk y fun hmem => ?_).trans (h.regs y hy)
    rw [List.mem_singleton.mp hmem] at hy
    rcases hy with hy | hy <;> cases hy
  · rw [hmem]
    rcases Nat.lt_succ_iff_lt_or_eq.mp hj with hj | rfl
    · have := hhas hx
      have := hhas hy
      rw [σ.store_mem_of_ne (he.frame.cell_ne (by omega) (by omega) (by omega)), h.saved j hj y hy]
    · obtain rfl := Option.some.inj (hx.symm.trans hy)
      rw [σ.store_mem_self, hw, h.regs x (.inr hs)]
      rintro rfl
      cases hs
  · rw [hmem, σ.store_mem_of_ne, h.ra hleaf]
    exact Area.Has.cell_ne hfr hA he.frame (by decide)
      (show Area.ra.Has _ _ F.numVregs _ from ⟨hleaf, rfl⟩) (Area.has_saved hx)
  · rw [hmem, σ.store_mem_of_ne (he.behind (hhas hx) hle), h.mem a ha hle]

/-- **The saves of the registers.** -/
theorem guards_saveRegs (he : Entry img m A F b σ₀) (hA : A.Placed F.numVregs) {xs : List XReg}
    {k : Nat} (hxs : A.usedCallee.drop k = xs) (h : Saving img m A F b σ₀ k σ)
    (hrest : ∀ σ', Body img m A F b σ₀ σ' → (contract img m A F b σ₀).Guards items σ') :
    (contract img m A F b σ₀).Guards
      ((saveRegs ((frameOf A F).calleeBase + k * 4) xs).map .instr ++ items) σ := by
  induction xs generalizing k σ with
  | nil =>
    refine hrest σ (Saving.body ⟨h.sp, h.regs, fun j hj => h.saved j ?_, h.ra, h.mem⟩)
    have := List.drop_eq_nil_iff.mp hxs
    omega
  | cons x xs ih =>
    have hx : A.usedCallee[k]? = some x := by
      rw [← Nat.add_zero k, ← List.getElem?_drop, hxs]
      rfl
    unfold saveRegs
    rw [List.map_append, List.append_assoc]
    refine guards_storeOff h.sp (.inr ⟨.saved, _, Area.has_saved hx, rfl⟩)
      fun σ' w hmem hw hk => ?_
    have hnext := ih (k := k + 1) (by rw [← List.drop_drop, hxs]; rfl) (h.next he hA hx hmem hw hk)
    rwa [Nat.add_mul, Nat.one_mul, ← Nat.add_assoc] at hnext

/-- **The moves of the parameters** are code of the body. -/
theorem tame_moveParams (hA : A.Placed F.numVregs) {ps : List Nat} (hps : ∀ p ∈ ps, p < F.numVregs)
    (i : Nat) : Tame m A F (moveParams (frameOf A F) A i ps) := by
  have hload : ∀ (x : XReg) off, BodyReg A x → Tame m A F (loadOff x off) := by
    intro x off hx
    refine tame_of_only (only_loadOffVia _ _ _) fun y hy => ?_
    rcases List.mem_cons.mp hy with rfl | hy
    · exact hx
    · rw [List.mem_singleton.mp hy]
      exact bodyReg_scratch (by decide)
  induction ps generalizing i with
  | nil => exact .nil
  | cons v ps ih =>
    have hv := hps v List.mem_cons_self
    unfold moveParams
    refine Tame.append ?_ (ih (fun p hp => hps p (List.mem_cons_of_mem _ hp)) (i + 1))
    split
    · split
      · rename_i x hreg
        split
        · exact .compute (x := x) rfl (bodyReg_reg hA hreg) .nil
        · exact .nil
      · rename_i hreg
        exact tame_storeSpill hv hreg _
    · dsimp only
      split
      · rename_i x hreg
        exact hload x _ (bodyReg_reg hA hreg)
      · rename_i hreg
        exact (hload _ _ (bodyReg_scratch (by decide))).append (tame_storeSpill hv hreg _)

/-- **The prologue saves** what the epilogue is to restore. -/
theorem guards_prologue (hA : A.Placed F.numVregs) (hparams : ∀ p ∈ F.paramRegs, p < F.numVregs)
    (he : Entry img m A F b σ₀)
    (hrest : ∀ σ', Body img m A F b σ₀ σ' → (contract img m A F b σ₀).Guards items σ') :
    (contract img m A F b σ₀).Guards ((prologue (frameOf A F) A F).map .instr ++ items) σ₀ := by
  have hfr := frameOf_laid A F
  -- The frame is opened.
  have hopen : ∀ {rest}, (∀ σ', σ'.get XReg.sp = b → σ'.mem = σ₀.mem →
        Keeps [XReg.sp, XReg.t6] σ₀ σ' → (contract img m A F b σ₀).Guards rest σ') →
      (contract img m A F b σ₀).Guards ((if 0 < (frameOf A F).frameSize then
        openFrame (frameOf A F).frameSize else []).map .instr ++ rest) σ₀ := by
    intro rest hrest
    split
    · refine Contract.guards_execs (only_openFrame _).exists_rd fun σ' hexecs => ?_
      obtain ⟨σ₁, hexecs₁, hmem, hsp, hk⟩ := openFrame_does _ he.top
      cases Outcome.ok.inj (hexecs.symm.trans hexecs₁)
      exact hrest σ' hsp hmem hk
    · rename_i hzero
      refine hrest σ₀ ?_ rfl (.refl _ _)
      rw [he.top, Nat.eq_zero_of_not_pos hzero]
      exact BitVec.add_zero b
  -- The return address is saved.
  have hra : ∀ {rest σ}, σ.get XReg.sp = b → σ.mem = σ₀.mem → Keeps [XReg.sp, XReg.t6] σ₀ σ →
      (∀ σ', Saving img m A F b σ₀ 0 σ' → (contract img m A F b σ₀).Guards rest σ') →
      (contract img m A F b σ₀).Guards ((if A.isLeaf then [] else
        storeOff XReg.ra (frameOf A F).raOff).map .instr ++ rest) σ := by
    intro rest σ hsp hmem hk hrest
    have hregs : ∀ x, x = XReg.ra ∨ isCalleeSaved x = true → x ∉ [XReg.sp, XReg.t6, XReg.a7] := by
      intro x hx hmem
      simp only [List.mem_cons, List.not_mem_nil, or_false] at hmem
      rcases hmem with rfl | rfl | rfl <;> rcases hx with hx | hx <;> cases hx
    have hkeep : ∀ {σ'}, Keeps [XReg.sp, XReg.t6, XReg.a7] σ₀ σ' →
        ∀ x, x = XReg.ra ∨ isCalleeSaved x = true → σ'.get x = σ₀.get x := fun hk x hx =>
      hk x (hregs x hx)
    cases hleaf : A.isLeaf with
    | true =>
      refine hrest σ ⟨hsp, hkeep (hk.mono (by simp)), fun j hj => absurd hj (Nat.not_lt_zero j),
        fun h => ?_, fun a _ _ => by rw [hmem]⟩
      rw [hleaf] at h
      cases h
    | false =>
      have hhas : Area.ra.Has (frameOf A F) A F.numVregs (frameOf A F).raOff := ⟨hleaf, rfl⟩
      have hlt := hhas.le_size hfr hA
      refine guards_storeOff hsp (.inr ⟨.ra, _, hhas, rfl⟩) fun σ' w hmem' hw hk' =>
        hrest σ' ⟨(hk' _ (by decide)).trans hsp, hkeep ?_, fun j hj => absurd hj (Nat.not_lt_zero j),
          fun _ => ?_, fun a _ ha => ?_⟩
      · exact (hk.mono (by simp)).trans (hk'.mono (by simp))
      · rw [hmem', σ.store_mem_self, hw (by decide), hk _ (by decide)]
      · rw [hmem', σ.store_mem_of_ne (he.behind (by omega) ha), hmem]
  unfold prologue
  simp only [List.map_append, List.append_assoc]
  refine hopen fun σ₁ hsp₁ hmem₁ hk₁ => hra hsp₁ hmem₁ hk₁ fun σ₂ h₂ => ?_
  have hmove : Tame m A F (moveParams (frameOf A F) A 0 (F.paramRegs.take F.numParams)) :=
    tame_moveParams hA (fun p hp => hparams p (List.mem_of_mem_take hp)) 0
  have hsave := guards_saveRegs he hA (k := 0) rfl h₂ fun σ₃ h₃ => hmove.guards he hA h₃ hrest
  rwa [Nat.zero_mul, Nat.add_zero] at hsave

end Prologue

/-! ## Where the code returns -/

section Returns

variable {m : IRModule} {opt : Bool} {A : Allocation} {F : IRFunc}

/-- Code of the body does not return. -/
theorem Tame.ret_notMem {code : List Instr} (h : Tame m A F code) : Instr.ret ∉ code := by
  induction h with
  | nil => exact List.not_mem_nil
  | @compute i x code hi _ _ ih =>
    rw [List.mem_cons, not_or]
    refine ⟨?_, ih⟩
    rintro rfl
    cases hi
  | @store p off code reg _ _ _ ih =>
    rw [List.mem_append, not_or]
    refine ⟨?_, ih⟩
    unfold storeOff storeOffVia
    split <;> simp
  | global reg _ _ ih => simp [ih]
  | call _ _ ih => simp [ih]

/-- Code of the body has no return to come behind anything. -/
theorem Tame.retsBehind {code : List Instr} (h : Tame m A F code) (code' : List Instr) :
    RetsBehind code' (code.map .instr) :=
  retsBehind_of_notMem (by simpa using h.ret_notMem)

/-- **A return is at the end of an epilogue.** -/
theorem Ends.retsBehind {bb : BasicBlock} {next : Option Nat} {code : List Instr}
    (h : Ends m A F bb next code) : RetsBehind (restore (frameOf A F) A) (code.map .instr) := by
  induction h with
  | falls | jump => exact retsBehind_of_notMem (by simp)
  | @branch code tail c x y s hcode _ _ ih =>
    rw [List.append_cons, List.map_append, List.map_append]
    exact ((hcode.retsBehind _).append (retsBehind_of_notMem (by simp))).append ih
  | @ret code hcode =>
    rw [List.map_append]
    refine (hcode.retsBehind _).append fun pre post h => ?_
    unfold emitEpilogue at h
    rw [List.map_append] at h
    have hnot : Item.instr .ret ∉ (restore (frameOf A F) A).map Item.instr := by
      intro hmem
      obtain ⟨i, hi, heq⟩ := List.mem_map.mp hmem
      obtain ⟨x, -, hrd⟩ := only_restore i hi
      cases heq
      cases hrd
    rcases List.append_eq_append_iff.mp h with ⟨rest, hpre, hrest⟩ | ⟨rest, hrestore, hrest⟩
    · cases rest with
      | nil => exact ⟨[], by rw [hpre, List.append_nil, List.nil_append]⟩
      | cons x rest =>
        have := (List.cons.inj hrest).2
        simp at this
    · cases rest with
      | nil => exact ⟨[], by rw [hrestore, List.append_nil, List.nil_append]⟩
      | cons x rest =>
        refine absurd ?_ hnot
        rw [hrestore, (List.cons.inj hrest).1]
        simp

/-- What ends the last block ends in a jump or a return. -/
theorem Ends.last {bb : BasicBlock} {code : List Instr} (h : Ends m A F bb none code) :
    ∃ code' i, code = code' ++ [i] ∧ (i = .ret ∨ ∃ l, i = .j l) := by
  induction h with
  | falls _ hnext => cases hnext
  | jump hs => exact ⟨[], _, rfl, .inr ⟨_, rfl⟩⟩
  | branch _ _ _ ih =>
    obtain ⟨code', i, rfl, hi⟩ := ih
    exact ⟨_, i, by rw [← List.cons_append, ← List.append_assoc], hi⟩
  | @ret code _ => exact ⟨code ++ restore (frameOf A F) A, .ret, by simp [emitEpilogue], .inl rfl⟩

theorem emitBlock_closed (hE : Emitted m A F) {blk : Nat} (hblk : blk < F.blocks.length)
    (next : Option Nat) :
    RetsBehind (restore (frameOf A F) A)
        (emitBlock m opt (frameOf A F) A F (F.blockAt blk) next) ∧
      (next = none → ∃ code i, emitBlock m opt (frameOf A F) A F (F.blockAt blk) next =
        code ++ [.instr i] ∧ (i = .ret ∨ ∃ l, i = .j l)) := by
  obtain ⟨code, tail, hcode, htame, hends⟩ := blockCode_eq (m := m) hE
    (IRFunc.blockAt_mem hblk) next
  unfold emitBlock
  rw [hcode, List.map_append]
  refine ⟨?_, ?_⟩
  · exact RetsBehind.append (retsBehind_of_notMem (show _ ∉ [Item.label _] from by simp))
      ((htame.retsBehind _).append hends.retsBehind)
  · rintro rfl
    obtain ⟨tail', i, rfl, hi⟩ := hends.last
    exact ⟨.label (F.label (F.blockAt blk).id) :: (code.map .instr ++ tail'.map .instr), i,
      by simp, hi⟩

/-- **The blocks of a function**: every return comes behind an epilogue, and at the end there is a
jump or a return. -/
theorem emitBlocks_closed (hE : Emitted m A F) {bs : List Nat}
    (hbs : ∀ blk ∈ bs, blk < F.blocks.length) :
    RetsBehind (restore (frameOf A F) A) (emitBlocks m opt (frameOf A F) A F bs) ∧
      (bs ≠ [] → ∃ code i, emitBlocks m opt (frameOf A F) A F bs = code ++ [.instr i] ∧
        (i = .ret ∨ ∃ l, i = .j l)) := by
  induction bs with
  | nil => exact ⟨retsBehind_of_notMem List.not_mem_nil, fun h => absurd rfl h⟩
  | cons blk bs ih =>
    obtain ⟨hrets, hlast⟩ := ih fun b hb => hbs b (List.mem_cons_of_mem _ hb)
    obtain ⟨hrets₀, hlast₀⟩ :=
      emitBlock_closed (m := m) hE (hbs blk List.mem_cons_self) bs.head?
    unfold emitBlocks
    refine ⟨hrets₀.append hrets, fun _ => ?_⟩
    cases bs with
    | nil =>
      obtain ⟨code, i, hcode, hi⟩ := hlast₀ rfl
      exact ⟨code, i, by rw [hcode]; exact List.append_nil _, hi⟩
    | cons blk' bs =>
      obtain ⟨code, i, hcode, hi⟩ := hlast (List.cons_ne_nil _ _)
      exact ⟨_, i, by rw [hcode, ← List.append_assoc], hi⟩

/-- **The code of a function from its label on.** -/
def funcCode (m : IRModule) (opt : Bool) (A : Allocation) (F : IRFunc) : List Item :=
  .label F.name :: ((prologue (frameOf A F) A F).map .instr ++
    emitBlocks m opt (frameOf A F) A F (order F))

theorem emitFunc_eq : emitFunc m opt A F = [.globl F.name, .p2align 1] ++ funcCode m opt A F := by
  unfold emitFunc funcCode
  rw [List.append_assoc]
  rfl

/-- **Every return of a function comes behind an epilogue.** -/
theorem retsBehind_funcCode (hE : Emitted m A F) :
    RetsBehind (restore (frameOf A F) A) (funcCode m opt A F) := by
  have hstore : ∀ x off, Instr.ret ∉ storeOff x off := by
    intro x off
    unfold storeOff storeOffVia
    split <;> simp
  have hsave : ∀ (xs : List XReg) off, Instr.ret ∉ saveRegs off xs := by
    intro xs
    induction xs with
    | nil => exact fun _ => List.not_mem_nil
    | cons x xs ih =>
      intro off
      unfold saveRegs
      rw [List.mem_append, not_or]
      exact ⟨hstore _ _, ih _⟩
  have hopen : Instr.ret ∉ openFrame (frameOf A F).frameSize := by
    unfold openFrame
    split <;> simp
  have hmove : Tame m A F (moveParams (frameOf A F) A 0 (F.paramRegs.take F.numParams)) :=
    tame_moveParams hE.placed (fun p hp => hE.fits.inRange.params p (List.mem_of_mem_take hp)) 0
  have hprologue : Instr.ret ∉ prologue (frameOf A F) A F := by
    unfold prologue
    simp only [List.mem_append, not_or]
    refine ⟨⟨⟨?_, ?_⟩, hsave _ _⟩, hmove.ret_notMem⟩
    · split
      · exact hopen
      · exact List.not_mem_nil
    · split
      · exact List.not_mem_nil
      · exact hstore _ _
  have hbegin : RetsBehind (restore (frameOf A F) A)
      (.label F.name :: (prologue (frameOf A F) A F).map .instr) :=
    retsBehind_of_notMem (by simpa using hprologue)
  exact hbegin.append (emitBlocks_closed hE fun blk hblk => mem_order_lt hblk).1

/-- **A function is not left but by a return.** -/
theorem closed_funcCode (hE : Emitted m A F)
    (hids : F.blocks.map (·.id) = List.range F.blocks.length) (hne : 0 < F.blocks.length) :
    Image.Closed (funcCode m opt A F) := by
  have hsuccs := hE.fits.inRange.succs_lt
  refine ⟨?_, fun l hl => ?_⟩
  · obtain ⟨bs, horder⟩ := order_eq_cons hsuccs hne
    obtain ⟨code, i, hcode, hi⟩ := (emitBlocks_closed (m := m) hE
      fun blk hblk => mem_order_lt hblk).2 (by rw [horder]; exact List.cons_ne_nil _ _)
    refine ⟨i, ?_, hi⟩
    unfold funcCode
    rw [hcode, ← List.append_assoc, ← List.cons_append, List.getLast?_concat]
  · obtain ⟨s, hs, rfl⟩ := jumps_emitFunc (m := m) hsuccs (by
      rw [emitFunc_eq]
      exact hl)
    unfold funcCode
    rw [labels_cons, labels_append, labels_instr, labels_emitBlocks]
    have hid := IRFunc.blockAt_id hids (mem_order_lt hs)
    exact List.mem_append_right _ (List.mem_map.mpr ⟨s, hs, by rw [hid]⟩)

end Returns

/-! ## The frame discipline -/

/-- **A frame with areas of their own**: they are disjoint and lie in the frame, a spill slot belongs to
one vreg, and the frame is a multiple of 16 bytes. -/
structure AreasApart (A : Allocation) (F : IRFunc) : Prop where
  disjoint : ∀ {p q : Area} {off off'}, p ≠ q → p.Has (frameOf A F) A F.numVregs off →
    q.Has (frameOf A F) A F.numVregs off' → off + 4 ≤ off' ∨ off' + 4 ≤ off
  inside : ∀ {p : Area} {off}, p.Has (frameOf A F) A F.numVregs off →
    off + 4 ≤ (frameOf A F).frameSize
  slots : ∀ {v w}, v < F.numVregs → w < F.numVregs → A.reg v = none → A.reg w = none →
    spillOff (frameOf A F) A v = spillOff (frameOf A F) A w → v = w
  dvd : 16 ∣ (frameOf A F).frameSize

theorem areasApart {A : Allocation} {F : IRFunc} (hA : A.Placed F.numVregs) : AreasApart A F where
  disjoint hpq h h' := h.disjoint (frameOf_laid A F) hA hpq h'
  inside h := h.le_size (frameOf_laid A F) hA
  slots hv hw hreg hreg' h := spillOff_inj hA hv hw hreg hreg' h
  dvd := (frameOf_laid A F).dvd

/-- **A stack argument lies behind the frame**, and the prologue moves it to the place of its
parameter. -/
def StackArgsArrive (sym : String → BitVec 32) (A : Allocation) (F : IRFunc) (b : BitVec 32)
    (σ₀ : Data) : Prop :=
  Does sym (prologue (frameOf A F) A F) σ₀ fun σ => ∀ i p, F.paramRegs[i]? = some p → 8 ≤ i →
    locs (frameOf A F) A σ p = σ₀.mem (cell b ((frameOf A F).frameSize + 4 * (i - 8)))

/-- **A return in order**: it comes behind an epilogue that the path came to, `a0` is as it was
there, and the law of callees is obeyed. -/
def Returns (img : Image) (m : IRModule) (A : Allocation) (F : IRFunc) (s₀ s : State) : Prop :=
  Obeys img m s₀.data s.data ∧ ∃ j σ, img.At j ((emitEpilogue (frameOf A F) A).map .instr) ∧
    img.Path (Obeys img m) s₀ ⟨j, σ⟩ ∧ img.Path (Obeys img m) ⟨j, σ⟩ s ∧
    s.data.get XReg.a0 = σ.get XReg.a0

section Discipline

variable {img : Image} {m : IRModule} {opt : Bool} {A : Allocation} {F : IRFunc} {b : BitVec 32}
  {σ₀ : Data} {i : Nat} {s : State}

theorem stackArgsArrive (hfits : FuncFits m F) (hvalid : A.Valid F) (hA : A.Placed F.numVregs)
    (hnp : F.numParams = F.paramRegs.length) (hnodup : F.paramRegs.Nodup)
    (he : Entry img m A F b σ₀) : StackArgsArrive img.sym A F b σ₀ := by
  refine (prologue_does (frameOf_laid A F) hA hfits.inRange hnp (params_apart hvalid hnodup)
    he.frame he.top).mono fun σ hσ i p hp hi => ?_
  rw [(hσ i p hp).1 (fun h => absurd h (by omega)), incoming, if_neg (by omega), Nat.mul_comm]

/-- **A path keeps to the contract** of its function. -/
theorem guards_path (hE : Emitted m A F) (hf : FuncAt img m opt A F) (hne : 0 < F.blocks.length)
    (he : Entry img m A F b σ₀) (hat : img.At i (funcCode m opt A F))
    (hpath : img.Path (Obeys img m) ⟨i, σ₀⟩ s) :
    ((contract img m A F b σ₀).Guards (img.items.drop s.pc) s.data ∨ s = ⟨i, σ₀⟩) := by
  rcases Relation.ReflTransGen.cases_head hpath with rfl | ⟨s₁, hstep, hpath⟩
  · exact .inr rfl
  · refine .inl ?_
    have hvalid : (contract img m A F b σ₀).Valid img := contract_valid hE hf he
    obtain rfl : s₁ = ⟨i + 1, σ₀⟩ := by
      have hlabel := hat.head
      cases hstep with
      | label hi => rfl
      | exec hi | taken hi | notTaken hi | jump hi | call hi => cases hlabel.symm.trans hi
    obtain ⟨items, hitems⟩ := hat.tail
    obtain ⟨bs, horder⟩ := order_eq_cons hE.fits.inRange.succs_lt hne
    refine Contract.Guards.path rfl hvalid ?_ hpath
    show (contract img m A F b σ₀).Guards (img.items.drop (i + 1)) σ₀
    rw [← hitems, List.append_assoc]
    refine guards_prologue hE.placed hE.fits.inRange.params he fun σ' hb => ?_
    exact guards_falls (s := 0) hf (fun _ h => h) (by rw [horder]; rfl) hb

/-- **A path that is about to return** has come through an epilogue. -/
theorem path_epilogue (hE : Emitted m A F) (hf : FuncAt img m opt A F) (hne : 0 < F.blocks.length)
    (hat : img.At i (funcCode m opt A F)) (hpath : img.Path (Obeys img m) ⟨i, σ₀⟩ s)
    (hret : img.items[s.pc]? = some (.instr .ret)) :
    ∃ j σ, img.At j ((emitEpilogue (frameOf A F) A).map .instr) ∧
      img.Path (Obeys img m) ⟨i, σ₀⟩ ⟨j, σ⟩ ∧ img.Path (Obeys img m) ⟨j, σ⟩ s ∧
      s.data.get XReg.a0 = σ.get XReg.a0 := by
  obtain ⟨s, σ'⟩ := s
  -- The return is one of the function.
  obtain ⟨after, hafter⟩ := hat
  have hlen : i ≤ img.items.length := by
    by_contra h
    rw [List.drop_eq_nil_of_le (by omega)] at hafter
    cases hafter
  have hitems : img.items = img.items.take i ++ funcCode m opt A F ++ after := by
    rw [List.append_assoc, hafter, List.take_append_drop]
  have htake : (img.items.take i).length = i := List.length_take_of_le hlen
  have hpos : 0 < (funcCode m opt A F).length := by simp [funcCode]
  obtain ⟨hlow, hhigh⟩ := (closed_funcCode (m := m) hE hf.ids hne).path hitems hpath
    (by rw [htake]; exact ⟨Nat.le_refl i, Nat.lt_add_of_pos_right hpos⟩)
  rw [htake] at hlow hhigh
  dsimp only at hlow hhigh hret
  have hitem : (funcCode m opt A F)[s - i]? = some (.instr .ret) := by
    rw [← hret, hitems, List.append_assoc, List.getElem?_append_right (by rw [htake]; exact hlow),
      htake, List.getElem?_append_left (by omega)]
  -- So there is an epilogue in front of it.
  obtain ⟨hlt, hitem⟩ := List.getElem?_eq_some_iff.mp hitem
  have hsplit := List.take_append_drop (s - i) (funcCode m opt A F)
  rw [List.drop_eq_getElem_cons hlt, hitem] at hsplit
  obtain ⟨pre, hpre⟩ := retsBehind_funcCode (m := m) hE _ _ hsplit.symm
  have hs : s = i + pre.length + (restore (frameOf A F) A).length := by
    have := congrArg List.length hpre
    rw [List.length_take, List.length_append, List.length_map] at this
    omega
  have hat : img.At (i + pre.length) ((restore (frameOf A F) A).map .instr ++
      .instr .ret :: (funcCode m opt A F).drop (s - i + 1)) := by
    refine ⟨after, ?_⟩
    have hdrop : img.items.drop (i + pre.length) = (funcCode m opt A F ++ after).drop pre.length := by
      rw [hafter, List.drop_drop]
    rw [hdrop]
    conv_rhs => rw [← hsplit, hpre]
    simp
  obtain ⟨σ, hto, hfrom, hexecs⟩ := Image.Path.execs hat (by simp) (List.cons_ne_nil _ _)
    (fun k _ hk => by
      show i ≠ _
      omega)
    only_restore.exists_rd (hs ▸ hpath)
  refine ⟨_, σ, ?_, hto, hs ▸ hfrom, execs_get hexecs fun ins hins h => ?_⟩
  · have hat' := (Image.at_append.mp (show img.At (i + pre.length)
      ((emitEpilogue (frameOf A F) A).map .instr ++ (funcCode m opt A F).drop (s - i + 1)) by
        simpa [emitEpilogue] using hat)).1
    exact hat'
  · obtain ⟨x, hx, hrd⟩ := only_restore ins hins
    rw [hrd] at h
    obtain rfl := Option.some.inj h
    simp only [List.mem_cons] at hx
    rcases hx with h | h | h | h | h
    · cases h
    · cases h
    · cases h
    · cases h
    · cases hE.placed.usedCallee_mem h

end Discipline

/-- **The frame discipline.** The areas of the frame of a function are disjoint and lie in the frame, a
spill slot belongs to one vreg, and the size of the frame is a multiple of 16; the stack
arguments lie behind the frame. On every path from the label of the function, on which callees obey
the law, the function stores to globals and to the areas of its frame only; and when the path comes
to a return, the law is obeyed, and `a0` is what it was before the epilogue. -/
theorem frame_discipline {S : Sorting} {m : IRModule} {opt : Bool} {n : Nat} {img : Image}
    (hm : m.FuncsNamed) (hids : ∀ F ∈ m.funcs, F.blocks.map (·.id) = List.range F.blocks.length)
    (hfits : ∀ F ∈ m.funcs, FuncFits m F) (hne : ∀ F ∈ m.funcs, 0 < F.blocks.length)
    (hcode : generateAsmOpt S m opt n = .ok img.items) :
    ∀ F ∈ m.funcs, ∃ A, allocateRegisters S F n = .ok A ∧ AreasApart A F ∧
      (∃ i, img.At i (funcCode m opt A F)) ∧
      ∀ b σ₀ i, Entry img m A F b σ₀ → img.At i (funcCode m opt A F) →
        (F.numParams = F.paramRegs.length → F.paramRegs.Nodup →
          StackArgsArrive img.sym A F b σ₀) ∧
        ∀ s, img.Path (Obeys img m) ⟨i, σ₀⟩ s →
          (∀ ins a, img.items[s.pc]? = some (.instr ins) →
            ins.storeAddr img.sym s.data = some a → MayStore img m A F b a) ∧
          (img.items[s.pc]? = some (.instr .ret) → Returns img m A F ⟨i, σ₀⟩ s) := by
  intro F hF
  obtain ⟨A, hA, hf⟩ := generateAsmOpt_funcAt hm hids hcode hF
  obtain ⟨hvalid, hplaced⟩ := allocateRegisters_valid (hfits F hF).inRange hA
  have hE : Emitted m A F := ⟨hfits F hF, hplaced, fun bb hbb inst hi hop =>
    allocateRegisters_isLeaf hA hbb hi hop⟩
  refine ⟨A, hA, areasApart hplaced, hf.func, fun b σ₀ i he hat => ⟨fun hnp hnodup =>
    stackArgsArrive (hfits F hF) hvalid hplaced hnp hnodup he, fun s hpath => ?_⟩⟩
  have hlabel : ∀ {ins}, img.items[i]? ≠ some (.instr ins) := fun h => by
    cases hat.head.symm.trans h
  rcases guards_path hE hf (hne F hF) he hat hpath with hguards | rfl
  · exact ⟨fun ins a hi ha => hguards.store rfl hi ha, fun hi =>
      ⟨hguards.ret hi, path_epilogue hE hf (hne F hF) hat hpath hi⟩⟩
  · exact ⟨fun ins a hi => absurd hi hlabel, fun hi => absurd hi hlabel⟩

/-- `int f(int n) { return f(n) + n; }` -/
def callFunc : IRFunc where
  name := "f"
  numParams := 1
  paramRegs := [0]
  numVregs := 3
  blocks := [{
    insts := [{ op := .Call, dst := some 1, callee := "f", args := [.reg 0] },
      { op := .Add, dst := some 2, a := .reg 1, b := .reg 0 }]
    term := .Ret
    retHasVal := true
    retVal := .reg 2 }]

/-- Its assembly. -/
def callImage : Image where
  items := [.text, .globl "f", .p2align 1, .label "f",
    .instr (.addi XReg.sp XReg.sp (-16)), .instr (.sw XReg.ra 4 XReg.sp),
    .instr (.sw XReg.s0 0 XReg.sp), .instr (.mv XReg.s0 XReg.a0), .label ".Lf_0",
    .instr (.mv XReg.a0 XReg.s0), .instr (.call "f"), .instr (.mv XReg.t0 XReg.a0),
    .instr (.add XReg.a0 XReg.t0 XReg.s0), .instr (.lw XReg.s0 0 XReg.sp),
    .instr (.lw XReg.ra 4 XReg.sp), .instr (.addi XReg.sp XReg.sp 16), .instr .ret]
  addr _ := 0x200
  itemAt _ := none
  sym _ := 0

theorem generateAsmOpt_callFunc :
    generateAsmOpt .insertion { funcs := [callFunc] } true 9 = .ok callImage.items := rfl

/-- The machine at its entry, with the stack at `0x8000` and 5 as the argument. -/
def callEntry : Data :=
  ⟨fun x => if x = XReg.sp then 0x8000 else if x = XReg.ra then 0x100 else
    if x = XReg.a0 then 5 else 0, fun _ => 0⟩

/-- A path over a callee that returns 7. -/
theorem path_callFunc : ∃ σ, callImage.Path (Obeys callImage { funcs := [callFunc] })
    ⟨3, callEntry⟩ ⟨16, σ⟩ :=
  have hlaw : ∀ σ : Data, Obeys callImage { funcs := [callFunc] } σ (σ.set XReg.a0 7) := fun σ =>
    ⟨fun x hx => σ.get_set_of_ne (by
      rintro rfl
      rcases hx with hx | hx | hx <;> cases hx) 7, fun _ _ _ => rfl⟩
  ⟨_, .head (.label rfl) <| .head (.exec rfl rfl) <| .head (.exec rfl rfl) <|
    .head (.exec rfl rfl) <| .head (.exec rfl rfl) <| .head (.label rfl) <|
    .head (.exec rfl rfl) <| .head (.call rfl (hlaw _)) <| .head (.exec rfl rfl) <|
    .head (.exec rfl rfl) <| .head (.exec rfl rfl) <| .head (.exec rfl rfl) <|
    .head (.exec rfl rfl) .refl⟩

/-- When the path returns, the stack pointer, the return address and `s0` are those of the entry. -/
theorem frame_discipline_callFunc : ∃ A σ, allocateRegisters .insertion callFunc 9 = .ok A ∧
    callImage.Path (Obeys callImage { funcs := [callFunc] }) ⟨3, callEntry⟩ ⟨16, σ⟩ ∧
    Returns callImage { funcs := [callFunc] } A callFunc ⟨3, callEntry⟩ ⟨16, σ⟩ := by
  have h := @frame_discipline .insertion { funcs := [callFunc] } true 9 callImage
    ⟨by decide, by decide⟩ (by decide)
    (fun F hmem => by
      obtain rfl := List.mem_singleton.mp hmem
      exact ⟨⟨by decide, by decide, by decide, by decide⟩, by decide⟩)
    (by decide) generateAsmOpt_callFunc
  obtain ⟨A, hA, -, -, h⟩ := h callFunc (List.mem_singleton_self _)
  obtain rfl := Outcome.ok.inj hA
  obtain ⟨σ, hpath⟩ := path_callFunc
  obtain ⟨-, h⟩ := h 0x7ff0 callEntry 3 ⟨⟨by decide, by decide⟩, by simp, rfl, rfl⟩ ⟨[], rfl⟩
  exact ⟨_, σ, rfl, hpath, (h _ hpath).2 rfl⟩

end OptCodeGen

end ToyC
