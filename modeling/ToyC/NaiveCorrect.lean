import ToyC.NaiveExec
import ToyC.AsmLabels

/-!
# The baseline code generator is correct

The assembly of a module is executed from a call of one of its functions. At every point
of a function's execution the slot of a live vreg holds its value, the globals hold theirs,
the frame holds the return address, and nothing but the globals and the stack below the
caller was written (`Running`). One instruction of the three-address code is matched by
the code emitted for it; the code of a call runs up to the callee, whose own
execution is known by induction on the number of activations the stack has room for.
-/

namespace ToyC

open Rv32

namespace NaiveCodeGen

/-! ## What the generator may assume -/

/-- **A function the generator takes**: indices in range, block ids equal to indices, every
read preceded by a write. -/
structure FuncOk (m : IRModule) (F : IRFunc) : Prop where
  inRange : F.InRange
  params : F.numParams = F.paramRegs.length
  ids : F.blocks.map (·.id) = List.range F.blocks.length
  gids : ∀ bb ∈ F.blocks, ∀ inst ∈ bb.insts,
    inst.op = .LoadGlobal ∨ inst.op = .StoreGlobal → inst.gid < m.globals.length
  readsWritten : F.ReadsWritten

theorem FuncOk.block_id {m : IRModule} {F : IRFunc} (h : FuncOk m F) {b : Nat}
    (hb : b < F.blocks.length) : (F.blockAt b).id = b :=
  IRFunc.blockAt_id h.ids hb

/-- **A module the generator takes**: names of its own for every function and global. -/
structure ModuleOk (m : IRModule) : Prop where
  named : m.FuncsNamed
  distinct : (m.globalNames ++ m.funcNames).Nodup
  funcs : ∀ F ∈ m.funcs, FuncOk m F

/-! ## Finding the code -/

section Layout

variable {m : IRModule} {img : Image}

theorem labels_emitFunc (F : IRFunc) :
    labels (emitFunc m F) = F.codeLabels fun F => F.blocks.map (·.id) := by
  unfold emitFunc IRFunc.codeLabels
  simp only [labels_append, labels_cons, labels_nil, labels_instr, Item.label?,
    Option.toList_none, Option.toList_some, List.nil_append, List.append_nil,
    List.singleton_append, labels_flatMap, emitBlock]
  rw [← List.flatMap_pure_eq_map, ← List.flatMap_pure_eq_map, List.flatMap_assoc]
  rfl

theorem labels_generateAsmNaive :
    labels (generateAsmNaive m) =
      m.globalNames ++ m.funcs.flatMap (·.codeLabels fun F => F.blocks.map (·.id)) := by
  unfold generateAsmNaive
  simp only [labels_append, labels_cons, labels_nil, Item.label?, Option.toList_none,
    List.append_nil, labels_emitData, labels_flatMap, labels_emitFunc]

/-- **No label is defined twice.** -/
theorem labels_nodup (hm : ModuleOk m) : (labels (generateAsmNaive m)).Nodup := by
  rw [labels_generateAsmNaive, List.nodup_append]
  obtain ⟨hglobals, -, hdisj⟩ := List.nodup_append.mp hm.distinct
  refine ⟨hglobals, codeLabels_nodup _ hm.named fun F hF => ?_, ?_⟩
  · rw [(hm.funcs F hF).ids]
    exact List.nodup_range
  · intro n hn l hl hnl
    subst hnl
    exact globalName_notMem_codeLabels _ hm.named hn (fun h => hdisj n hn n h rfl) hl

/-- What stands in the output behind a label is found under it. -/
theorem target_of_mem (hm : ModuleOk m) (himg : img.items = generateAsmNaive m)
    {code : List Item} {l : String} (before after : List Item)
    (h : generateAsmNaive m = before ++ (.label l :: code) ++ after) :
    ∃ i, img.target l = some i ∧ img.At i (.label l :: code) := by
  have hitems : img.items = before ++ .label l :: (code ++ after) := by
    rw [himg, h]
    simp
  have hcount : (labels img.items).count l = 1 := by
    refine List.count_eq_one_of_mem (himg ▸ labels_nodup hm) ?_
    rw [hitems]
    simp [Item.label?]
  obtain ⟨ht, hat⟩ := img.target_eq hitems hcount
  exact ⟨_, ht, (Image.at_append.mp (show img.At _ ((.label l :: code) ++ after) from hat)).1⟩

/-- **The code of a function** is found under its name. -/
theorem target_func (hm : ModuleOk m) (himg : img.items = generateAsmNaive m) {F : IRFunc}
    (hF : F ∈ m.funcs) :
    ∃ i, img.target F.name = some i ∧
      img.At i (.label F.name :: ((prologue (frameOf F) F).map .instr ++
        F.blocks.flatMap (emitBlock m (frameOf F) F))) := by
  obtain ⟨fs, fs', hfs⟩ := List.append_of_mem hF
  refine target_of_mem hm himg
    (emitData m ++ [.text] ++ fs.flatMap (emitFunc m) ++ [.globl F.name, .p2align 1])
    (fs'.flatMap (emitFunc m)) ?_
  unfold generateAsmNaive
  rw [hfs]
  simp [emitFunc]

/-- **The code of a block** is found under its label. -/
theorem target_block (hm : ModuleOk m) (himg : img.items = generateAsmNaive m) {F : IRFunc}
    (hF : F ∈ m.funcs) {b : Nat} (hb : b < F.blocks.length) :
    ∃ i, img.target (F.label b) = some i ∧
      img.At i (emitBlock m (frameOf F) F (F.blockAt b)) := by
  obtain ⟨fs, fs', hfs⟩ := List.append_of_mem hF
  have hid : (F.blockAt b).id = b := (hm.funcs F hF).block_id hb
  unfold emitBlock
  rw [hid]
  refine target_of_mem hm himg
    (emitData m ++ [.text] ++ fs.flatMap (emitFunc m) ++
      [.globl F.name, .p2align 1, .label F.name] ++ (prologue (frameOf F) F).map .instr ++
      (F.blocks.take b).flatMap (emitBlock m (frameOf F) F))
    ((F.blocks.drop (b + 1)).flatMap (emitBlock m (frameOf F) F) ++
      fs'.flatMap (emitFunc m)) ?_
  have hfunc : emitFunc m F = [.globl F.name, .p2align 1, .label F.name] ++
      (prologue (frameOf F) F).map .instr ++
      ((F.blocks.take b).flatMap (emitBlock m (frameOf F) F) ++
        (emitBlock m (frameOf F) F (F.blockAt b) ++
          (F.blocks.drop (b + 1)).flatMap (emitBlock m (frameOf F) F))) := by
    rw [← List.flatMap_cons, ← List.flatMap_append, ← F.blocks_eq hb]
    rfl
  unfold generateAsmNaive
  rw [hfs, List.flatMap_append, List.flatMap_cons, hfunc]
  simp [emitBlock, hid]

end Layout

/-! ## The machine around a call -/

variable (m : IRModule) (img : Image)

/-- The address of a global. -/
def globalAddr (gid : Nat) : BitVec 32 := img.sym (m.globalName gid)

/-- **Where the linker puts the globals**: at aligned addresses of their own. -/
structure GlobalsPlaced : Prop where
  aligned : ∀ gid < m.globals.length, Aligned (globalAddr m img gid)
  distinct : ∀ gid < m.globals.length, ∀ gid' < m.globals.length, gid ≠ gid' →
    globalAddr m img gid ≠ globalAddr m img gid'

/-- Memory holds the globals. -/
def HoldsGlobals (G : Globals) (mem : BitVec 32 → BitVec 32) : Prop :=
  ∀ gid < m.globals.length, mem (globalAddr m img gid) = G gid

/-- The globals are not between two addresses. -/
def GlobalsApart (low high : Nat) : Prop :=
  ∀ gid < m.globals.length,
    (globalAddr m img gid).toNat < low ∨ high ≤ (globalAddr m img gid).toNat

/-- Nothing was written but globals and what lies between two addresses. -/
def WritesWithin (low high : Nat) (mem mem' : BitVec 32 → BitVec 32) : Prop :=
  ∀ a, (∀ gid < m.globals.length, a ≠ globalAddr m img gid) →
    a.toNat < low ∨ high ≤ a.toNat → mem' a = mem a

/-- The largest frame of a module. -/
def maxFrame : Nat := m.funcs.foldl (fun n F => max n (frameOf F).frameSize) 0

theorem le_maxFrame {F : IRFunc} (hF : F ∈ m.funcs) : (frameOf F).frameSize ≤ maxFrame m :=
  le_foldl_of_mem (f := fun n F => max n (frameOf F).frameSize) (fun n _ => Nat.le_max_left n _)
    hF (fun n => Nat.le_max_right n _) 0

/-- **The machine at a call**: in front of the function, with the arguments and the globals in
place, an address to return to, and so many bytes of stack below the caller's frame. -/
structure AtCall (space : Nat) (p : CallArgs) (s : State) : Prop where
  pc : img.target p.name = some s.pc
  aligned : 16 ∣ (s.data.get XReg.sp).toNat
  room : space ≤ (s.data.get XReg.sp).toNat
  behind : (s.data.get XReg.sp).toNat + (p.args.length - 8) * 4 ≤ 2 ^ 32
  apart : GlobalsApart m img ((s.data.get XReg.sp).toNat - space) (s.data.get XReg.sp).toNat
  args : ∀ (j : Nat) v, p.args[j]? = some v →
    if j < 8 then s.data.get (XReg.a0 + j) = v
    else s.data.mem (cell (s.data.get XReg.sp) ((j - 8) * 4)) = v
  globals : HoldsGlobals m img p.globals s.data.mem
  ra : (img.itemAt (s.data.get XReg.ra)).isSome

/-- **The machine when the call has returned**: behind it, with the returned value in `a0` and
the globals in place; the stack pointer, the return address and the callee-saved registers
as they were, and nothing written but globals and the stack below the caller's frame. -/
structure AfterCall (space : Nat) (r : CallResult) (s s' : State) : Prop where
  pc : img.itemAt (s.data.get XReg.ra) = some s'.pc
  value : ∀ v, r.1 = some v → s'.data.get XReg.a0 = v
  globals : HoldsGlobals m img r.2 s'.data.mem
  regs : ∀ x, x = XReg.sp ∨ x = XReg.ra ∨ isCalleeSaved x = true →
    s'.data.get x = s.data.get x
  mem : WritesWithin m img ((s.data.get XReg.sp).toNat - space) (s.data.get XReg.sp).toNat
    s.data.mem s'.data.mem

/-! ## Inside a function -/

/-- **The frame of a function** on the stack of its call. -/
structure Framed (F : IRFunc) (σ₀ : Data) (b : BitVec 32) (low : Nat) : Prop where
  top : σ₀.get XReg.sp = cell b (frameOf F).frameSize
  toNat : (σ₀.get XReg.sp).toNat = b.toNat + (frameOf F).frameSize
  aligned : 16 ∣ b.toNat
  above : low ≤ b.toNat
  apart : GlobalsApart m img low (σ₀.get XReg.sp).toNat

/-- **What stays true throughout a function's execution**, from the machine `σ₀` at its call,
with its frame at `b` and the stack down to `low` at its disposal. -/
structure Intact (F : IRFunc) (σ₀ : Data) (b : BitVec 32) (low : Nat) (G : Globals)
    (σ : Data) : Prop where
  sp : σ.get XReg.sp = b
  saved : ∀ x, isCalleeSaved x = true → σ.get x = σ₀.get x
  ra : σ.mem (cell b (frameOf F).raOff) = σ₀.get XReg.ra
  globals : HoldsGlobals m img G σ.mem
  mem : WritesWithin m img low (σ₀.get XReg.sp).toNat σ₀.mem σ.mem

/-- **A point of a function's execution.** The slots of the live vregs hold their values. -/
structure Running (F : IRFunc) (σ₀ : Data) (b : BitVec 32) (low : Nat) (c : Config)
    (s : State) : Prop where
  lt : c.block < F.blocks.length
  done : ∃ done, (F.blockAt c.block).insts = done ++ c.rest
  code : img.At s.pc ((c.rest.flatMap (emitInst m (frameOf F)) ++
    emitTerm (frameOf F) F (F.blockAt c.block)).map .instr)
  intact : Intact m img F σ₀ b low c.globals s.data
  live : ∀ v, F.LiveAt c.block c.rest v → slots (frameOf F) b s.data.mem v = c.regs v

section Running

variable {m img}
variable {F : IRFunc} {σ₀ σ σ' : Data} {b : BitVec 32} {low : Nat} {G : Globals}

theorem Framed.placed (hf : Framed m img F σ₀ b low) : Placed (frameOf F) b 0 where
  aligned := by
    have := hf.aligned
    unfold Aligned
    omega
  fits := by
    have := (σ₀.get XReg.sp).isLt
    have := hf.toNat
    omega

/-- A word of the frame is no global. -/
theorem Framed.cell_ne_global (hf : Framed m img F σ₀ b low) {off : Nat}
    (hoff : off < (frameOf F).frameSize) {gid : Nat} (hg : gid < m.globals.length) :
    cell b off ≠ globalAddr m img gid := by
  intro h
  have h := congrArg BitVec.toNat h
  rw [hf.placed.toNat (by omega)] at h
  have := hf.toNat
  have := hf.above
  rcases hf.apart gid hg with h' | h' <;> omega

/-- The registers a function must not change. -/
def SameSaved (σ σ' : Data) : Prop :=
  ∀ x, x = XReg.sp ∨ isCalleeSaved x = true → σ'.get x = σ.get x

theorem SameSaved.of_keeps {touched : List XReg} (h : Keeps touched σ σ')
    (ht : ∀ x ∈ touched, x ≠ XReg.sp ∧ isCalleeSaved x = false) : SameSaved σ σ' := by
  refine fun x hx => h x fun hmem => ?_
  obtain ⟨hsp, hs⟩ := ht x hmem
  rcases hx with rfl | hx
  · exact hsp rfl
  · rw [hs] at hx
    cases hx

theorem sameSaved_of_temps (h : Keeps temps σ σ') : SameSaved σ σ' :=
  .of_keeps h (by decide)

theorem Intact.of_mem (h : Intact m img F σ₀ b low G σ) (hmem : σ'.mem = σ.mem)
    (hs : SameSaved σ σ') : Intact m img F σ₀ b low G σ' where
  sp := (hs _ (.inl rfl)).trans h.sp
  saved x hx := (hs x (.inr hx)).trans (h.saved x hx)
  ra := by rw [hmem, h.ra]
  globals := by rw [hmem]; exact h.globals
  mem := by rw [hmem]; exact h.mem

/-- Writing a word of the frame below the return address. -/
theorem Intact.store_cell (h : Intact m img F σ₀ b low G σ) (hf : Framed m img F σ₀ b low)
    {off : Nat} (hoff : off < (frameOf F).raOff) {w : Word}
    (hmem : σ'.mem = (σ.store (cell b off) w).mem) (hs : SameSaved σ σ') :
    Intact m img F σ₀ b low G σ' := by
  have hsize := (frameOf_laid F).size
  refine .of_mem (σ := σ.store (cell b off) w) ⟨h.sp, h.saved, ?_, ?_, ?_⟩ hmem hs
  · rw [σ.store_mem_of_ne, h.ra]
    exact hf.placed.cell_ne (by omega) (by omega) (by omega)
  · intro gid hg
    rw [σ.store_mem_of_ne (hf.cell_ne_global (by omega) hg).symm, h.globals gid hg]
  · intro a hg ha
    rw [σ.store_mem_of_ne, h.mem a hg ha]
    rintro rfl
    rw [hf.placed.toNat (by omega)] at ha
    have := hf.toNat
    have := hf.above
    omega

/-- Writing a global. -/
theorem Intact.store_global (h : Intact m img F σ₀ b low G σ) (hf : Framed m img F σ₀ b low)
    (hg : GlobalsPlaced m img) {gid : Nat} (hgid : gid < m.globals.length) {w : Word}
    (hmem : σ'.mem = (σ.store (globalAddr m img gid) w).mem) (hs : SameSaved σ σ') :
    Intact m img F σ₀ b low (G.set gid w) σ' := by
  have hsize := (frameOf_laid F).size
  refine .of_mem (σ := σ.store (globalAddr m img gid) w) ⟨h.sp, h.saved, ?_, ?_, ?_⟩ hmem hs
  · rw [σ.store_mem_of_ne (hf.cell_ne_global (by omega) hgid), h.ra]
  · intro gid' hg'
    unfold Globals.set
    split
    · rename_i heq
      rw [heq, σ.store_mem_self]
    · rename_i hne
      rw [σ.store_mem_of_ne (hg.distinct gid' hg' gid hgid hne), h.globals gid' hg']
  · intro a hga ha
    rw [σ.store_mem_of_ne (hga gid hgid), h.mem a hga ha]

/-- **Writing the result of an instruction** to its slot. -/
theorem live_store (hF : F.InRange) (hf : Framed m img F σ₀ b low) {blk : Nat} {inst : Inst}
    {rest : List Inst} {R : Regs} (hlt : blk < F.blocks.length)
    (hdone : ∃ done, (F.blockAt blk).insts = done ++ inst :: rest)
    (hlive : ∀ v, inst.dst ≠ some v → F.LiveAt blk rest v →
      slots (frameOf F) b σ.mem v = R v)
    {d : Nat} (hd : inst.dst = some d) {w : Word}
    (hmem : σ'.mem = (σ.store (cell b ((frameOf F).slotOff d)) w).mem) {v : Nat}
    (hv : F.LiveAt blk rest v) : slots (frameOf F) b σ'.mem v = R.set d w v := by
  obtain ⟨done, hdone⟩ := hdone
  have hbb : F.blockAt blk ∈ F.blocks := IRFunc.blockAt_mem hlt
  have hdlt : d < F.numVregs :=
    (hF.insts _ hbb inst (by rw [hdone]; simp)).dst_lt hd
  have hvlt : v < F.numVregs := hv.lt hF hlt fun i hi => by
    rw [hdone]
    exact List.mem_append_right _ (List.mem_cons_of_mem _ hi)
  rw [hmem, slots_store (frameOf_laid F) hf.placed hdlt hvlt]
  by_cases hvd : v = d
  · rw [hvd, Regs.set_same, Regs.set_same]
  · rw [Regs.set_of_ne _ _ hvd, Regs.set_of_ne _ _ hvd]
    exact hlive v (by rw [hd]; exact fun h => hvd (Option.some.inj h).symm) hv

/-- **An instruction other than a call** is matched by its code. -/
theorem Running.inst (hm : ModuleOk m) (hF : F ∈ m.funcs) (hg : GlobalsPlaced m img)
    (hf : Framed m img F σ₀ b low) {blk : Nat} {inst : Inst} {rest : List Inst} {R : Regs}
    {s : State} (h : Running m img F σ₀ b low ⟨blk, inst :: rest, R, G⟩ s)
    (hcall : inst.op ≠ .Call) {call : Callee} {R' : Regs} {G' : Globals}
    (hexec : inst.exec call R G = .ok (R', G')) :
    ∃ s', img.Steps s s' ∧ Running m img F σ₀ b low ⟨blk, rest, R', G'⟩ s' := by
  obtain ⟨i, σ⟩ := s
  obtain ⟨hlt, ⟨done, hdone⟩, hcode, hintact, hlive⟩ := h
  have hok := hm.funcs F hF
  have hbb : F.blockAt blk ∈ F.blocks := IRFunc.blockAt_mem hlt
  have hmem : inst ∈ (F.blockAt blk).insts := by rw [hdone]; simp
  have hin := hok.inRange.insts _ hbb inst hmem
  have hread : ∀ r ∈ inst.uses, R r = slots (frameOf F) b σ.mem r := fun r hr =>
    (hlive r (.read hr)).symm
  have hdone' : ∃ done, (F.blockAt blk).insts = done ++ rest := ⟨done ++ [inst], by simp [hdone]⟩
  rw [Inst.exec_eq hin, Inst.compute_congr hread] at hexec
  obtain ⟨⟨v, G₁⟩, hcomp, hexec⟩ := Outcome.bind_eq_ok.mp hexec
  obtain ⟨R₁, hwrite, hexec⟩ := Outcome.bind_eq_ok.mp hexec
  obtain ⟨rfl, rfl⟩ : R₁ = R' ∧ G₁ = G' := by simpa using hexec
  rw [List.flatMap_cons, List.append_assoc, List.map_append] at hcode
  -- Whatever the code does to the data, the machine then stands behind it.
  have hsteps : ∀ {σ'}, execs img.sym (emitInst m (frameOf F) inst) σ = .ok σ' →
      Intact m img F σ₀ b low G₁ σ' →
      (∀ v, F.LiveAt blk rest v → slots (frameOf F) b σ'.mem v = R₁ v) →
      ∃ s', img.Steps ⟨i, σ⟩ s' ∧ Running m img F σ₀ b low ⟨blk, rest, R₁, G₁⟩ s' := by
    intro σ' hexecs hi hl
    obtain ⟨hs, hat⟩ := Image.At.execs hcode hexecs
    exact ⟨_, hs, hlt, hdone', hat, hi, hl⟩
  by_cases hop : inst.op = .StoreGlobal
  · have hgid := hok.gids _ hbb inst hmem (.inr hop)
    obtain ⟨σ', hexecs, hmem', hk⟩ := storeGlobal_does (m := m) (frameOf_laid F)
      hf.placed.aligned hintact.sp hop (hg.aligned _ hgid)
    obtain ⟨-, hin⟩ := hin
    rw [hop] at hin
    rw [hin] at hwrite
    cases hwrite
    rw [Inst.compute, hop] at hcomp
    cases hcomp
    refine hsteps hexecs (hintact.store_global hf hg hgid hmem' (sameSaved_of_temps hk)) ?_
    intro v hv
    refine Eq.trans ?_ (hlive v (.pass (by rw [hin]; simp) hv))
    have hvlt : v < F.numVregs := hv.lt hok.inRange hlt fun i hi => by
      rw [hdone]
      exact List.mem_append_right _ (List.mem_cons_of_mem _ hi)
    have hslot := (frameOf_laid F).slot_lt hvlt
    have hsize := (frameOf_laid F).size
    unfold slots
    rw [hmem']
    exact σ.store_mem_of_ne (hf.cell_ne_global (by omega) hgid) _
  · obtain ⟨d, hd⟩ := hin.exists_dst hcall hop
    obtain ⟨w, rfl⟩ : ∃ w, v = some w := by
      rw [hd] at hwrite
      cases v with
      | some w => exact ⟨w, rfl⟩
      | none => cases hwrite
    have hglobal : inst.op = .LoadGlobal → Aligned (img.sym (m.globalName inst.gid)) ∧
        σ.mem (img.sym (m.globalName inst.gid)) = G inst.gid := fun hop =>
      have hgid := hok.gids _ hbb inst hmem (.inl hop)
      ⟨hg.aligned _ hgid, hintact.globals _ hgid⟩
    obtain ⟨rfl, σ', hexecs, hmem', hk⟩ := emitInst_does (m := m) (frameOf_laid F)
      hf.placed.aligned hintact.sp hcall hglobal hcomp
    rw [hd] at hwrite hmem'
    cases hwrite
    rw [Option.getD_some] at hmem'
    have hdlt : d < F.numVregs := hin.dst_lt hd
    have hslot := (frameOf_laid F).slot_lt (v := d) hdlt
    refine hsteps hexecs (hintact.store_cell hf (by omega) hmem' (sameSaved_of_temps hk)) ?_
    exact fun v hv => live_store hok.inRange hf hlt ⟨done, hdone⟩
      (fun v hd hv => hlive v (.pass hd hv)) hd hmem' hv

/-! ## Calls -/

/-- Writing the outgoing area. -/
theorem Intact.of_outgoing (h : Intact m img F σ₀ b low G σ) (hf : Framed m img F σ₀ b low)
    (hmem : ∀ a, (∀ j, j * 4 < (frameOf F).outArgArea → a ≠ cell b (j * 4)) →
      σ'.mem a = σ.mem a)
    (hs : SameSaved σ σ') : Intact m img F σ₀ b low G σ' := by
  have hfr := frameOf_laid F
  have hsize := hfr.size
  have hra := hfr.ra
  refine ⟨(hs _ (.inl rfl)).trans h.sp, fun x hx => (hs x (.inr hx)).trans (h.saved x hx),
    ?_, ?_, ?_⟩
  · rw [hmem _ fun j hj => hf.placed.cell_ne (by omega) (by omega) (by omega), h.ra]
  · intro gid hg
    rw [hmem _ fun j hj => (hf.cell_ne_global (by omega) hg).symm, h.globals gid hg]
  · intro a hg ha
    rw [hmem a, h.mem a hg ha]
    rintro j hj rfl
    rw [hf.placed.toNat (by omega)] at ha
    have := hf.toNat
    have := hf.above
    omega

/-- What a callee leaves of the frame of its caller. -/
theorem Intact.after_call (h : Intact m img F σ₀ b low G σ) (hf : Framed m img F σ₀ b low)
    {space : Nat} (hroom : low + space ≤ b.toNat) {r : CallResult} {s s' : State} {ret : Word}
    (hs : s.data = σ.set XReg.ra ret) (ha : AfterCall m img space r s s') :
    Intact m img F σ₀ b low r.2 s'.data ∧
      ∀ off < (frameOf F).frameSize, s'.data.mem (cell b off) = σ.mem (cell b off) := by
  have hsize := (frameOf_laid F).size
  have hget : ∀ x, x ≠ XReg.ra → s.data.get x = σ.get x := fun x hx => by
    rw [hs, σ.get_set_of_ne hx]
  have hsp : s.data.get XReg.sp = b := (hget _ (by decide)).trans h.sp
  have hmem : s.data.mem = σ.mem := by
    rw [hs]
    rfl
  have hwithin : ∀ a, (∀ gid < m.globals.length, a ≠ globalAddr m img gid) →
      a.toNat < b.toNat - space ∨ b.toNat ≤ a.toNat → s'.data.mem a = σ.mem a := by
    intro a hg hor
    rw [← hmem]
    exact ha.mem a hg (by rw [hsp]; exact hor)
  have hcells : ∀ off < (frameOf F).frameSize, s'.data.mem (cell b off) = σ.mem (cell b off) := by
    intro off hoff
    refine hwithin _ (fun gid hg => hf.cell_ne_global hoff hg) (.inr ?_)
    rw [hf.placed.toNat (by omega)]
    omega
  refine ⟨⟨?_, ?_, ?_, ha.globals, ?_⟩, hcells⟩
  · rw [ha.regs _ (.inl rfl), hsp]
  · intro x hx
    rw [ha.regs x (.inr (.inr hx)), hget x (by rintro rfl; cases hx), h.saved x hx]
  · rw [hcells _ (by omega), h.ra]
  · intro a hg hor
    have := hf.toNat
    rw [hwithin a hg (by omega), h.mem a hg hor]

/-- The code behind a call: the result goes to its slot, if there is one. -/
def keepResult (fr : Frame) : Option Nat → List Instr
  | some d => storeSlot fr XReg.a0 d
  | none => []

/-- **A call** is matched by the code that passes the arguments, the execution of the callee,
and the store of its result. -/
theorem Running.call (hm : ModuleOk m) (himg : img.items = generateAsmNaive m)
    (hlink : img.Linked) (hF : F ∈ m.funcs) (hf : Framed m img F σ₀ b low) {space : Nat}
    (hroom : low + space ≤ b.toNat) {call : Callee}
    (hcallee : ∀ q r, call q = .ok r → (∃ F' ∈ m.funcs, F'.name = q.name) ∧
      ∀ s, AtCall m img space q s → ∃ s', img.Steps s s' ∧ AfterCall m img space r s s')
    {blk : Nat} {inst : Inst} {rest : List Inst} {R : Regs} {s : State}
    (h : Running m img F σ₀ b low ⟨blk, inst :: rest, R, G⟩ s) (hop : inst.op = .Call)
    {R' : Regs} {G' : Globals} (hexec : inst.exec call R G = .ok (R', G')) :
    ∃ s', img.Steps s s' ∧ Running m img F σ₀ b low ⟨blk, rest, R', G'⟩ s' := by
  obtain ⟨i, σ⟩ := s
  obtain ⟨hlt, ⟨done, hdone⟩, hcode, hintact, hlive⟩ := h
  have hok := hm.funcs F hF
  have hfr := frameOf_laid F
  have hsize := hfr.size
  have hbb : F.blockAt blk ∈ F.blocks := IRFunc.blockAt_mem hlt
  have hmem : inst ∈ (F.blockAt blk).insts := by rw [hdone]; simp
  have hargs : inst.args.length - 8 ≤ F.maxStackArgs := by
    have := IRFunc.stackArgs_le hbb hmem
    rwa [Inst.stackArgs, if_pos hop] at this
  have houtgoing : (frameOf F).outArgArea = F.maxStackArgs * 4 := rfl
  have huse : ∀ v ∈ inst.args, ∀ r, v.reg? = some r → r ∈ inst.uses := fun v hv r hr =>
    Inst.mem_uses (by unfold Inst.operands; rw [hop]; exact hv) hr
  have hrange : ∀ v ∈ inst.args, ValInRange (frameOf F) v := fun v hv r hr =>
    (hok.inRange.insts _ hbb inst hmem).1 r (huse v hv r hr)
  have hvalue : ∀ v ∈ inst.args, v.eval (slots (frameOf F) b σ.mem) = v.eval R := fun v hv =>
    Val.eval_congr fun r hr => hlive r (.read (huse v hv r hr))
  rw [Inst.exec, hop] at hexec
  obtain ⟨⟨v, G₁⟩, hres, hexec⟩ := Outcome.bind_eq_ok.mp hexec
  obtain ⟨R₁, hwrite, hexec⟩ := Outcome.bind_eq_ok.mp hexec
  obtain ⟨rfl, rfl⟩ : R₁ = R' ∧ G₁ = G' := by simpa using hexec
  obtain ⟨⟨F', hF', hname⟩, hbody⟩ := hcallee _ _ hres
  obtain ⟨t, htarget, -⟩ := target_func hm himg hF'
  -- The code in front of the call passes the arguments.
  have hpass : Does img.sym (stackArgs (frameOf F) 0 (inst.args.drop 8) ++
      regArgs (frameOf F) XReg.a0 (inst.args.take 8)) σ fun σ₁ =>
      (∀ (j : Nat) v, inst.args[j]? = some v → if j < 8 then σ₁.get (XReg.a0 + j) = v.eval R
        else σ₁.mem (cell b ((j - 8) * 4)) = v.eval R) ∧
      (∀ a, (∀ j, j * 4 < (frameOf F).outArgArea → a ≠ cell b (j * 4)) →
        σ₁.mem a = σ.mem a) ∧ SameSaved σ σ₁ := by
    refine (stackArgs_does hfr hf.placed (k := 0) hintact.sp (by simp; omega)
      fun v hv => hrange v (List.mem_of_mem_drop hv)).append fun σ₁ h₁ => ?_
    obtain ⟨hcells, hout, hk⟩ := h₁
    have hsp₁ : σ₁.get XReg.sp = b := (hk _ (by decide)).trans hintact.sp
    have hout : ∀ a, (∀ j, j * 4 < (frameOf F).outArgArea → a ≠ cell b (j * 4)) →
        σ₁.mem a = σ.mem a := fun a ha => hout a fun j hj => by
      rw [Nat.zero_add]
      refine ha j ?_
      rw [List.length_drop] at hj
      omega
    have hlen : (inst.args.take 8).length ≤ 8 := by simp
    refine (regArgs_does (x := 10) hfr hf.placed.aligned hsp₁ (Nat.le_refl 10)
      (Nat.add_le_add_left hlen 10)).mono fun σ₂ h₂ => ?_
    obtain ⟨hmem₂, hregs, hk₂⟩ := h₂
    refine ⟨?_, ?_, ?_⟩
    · intro j v hj
      have hv := List.mem_of_getElem? hj
      split
      · rename_i hj8
        rw [hregs j v (by rw [List.getElem?_take, if_pos hj8, hj]), ← hvalue v hv]
        refine Val.eval_congr fun r hr => hout _ fun k hk => ?_
        exact hf.placed.slot_ne_outgoing hfr (hrange v hv r hr) hk
      · rename_i hj8
        rw [hmem₂, ← hvalue v hv, ← hcells (j - 8) v ?_, Nat.zero_add]
        rw [List.getElem?_drop, ← hj]
        congr 1
        omega
    · intro a ha
      rw [hmem₂, hout a ha]
    · intro x hx
      obtain ⟨h31, hbound, htemps⟩ : x ≠ 31 ∧ (x < 10 ∨ 18 ≤ x) ∧ x ∉ temps := by
        rcases hx with rfl | hx
        · decide
        · exact (by decide : ∀ x ∈ calleeSavedPool, x ≠ 31 ∧ (x < 10 ∨ 18 ≤ x) ∧ x ∉ temps) x
            (mem_of_isCalleeSaved hx)
      rw [hk₂ x h31 (hbound.imp id fun h => Nat.le_trans (Nat.add_le_add_left hlen 10) h),
        hk x htemps]
  obtain ⟨σ₁, hexecs, hpassed, hout, hsame⟩ := hpass
  have hintact₁ := hintact.of_outgoing hf hout hsame
  set keep := keepResult (frameOf F) inst.dst with hkeep
  set tail := rest.flatMap (emitInst m (frameOf F)) ++ emitTerm (frameOf F) F (F.blockAt blk)
    with htail
  have hcode' : img.At i ((stackArgs (frameOf F) 0 (inst.args.drop 8) ++
      regArgs (frameOf F) XReg.a0 (inst.args.take 8)).map .instr ++
      .instr (.call inst.callee) :: (keep.map .instr ++ tail.map .instr)) := by
    have h : emitInst m (frameOf F) inst = stackArgs (frameOf F) 0 (inst.args.drop 8) ++
        regArgs (frameOf F) XReg.a0 (inst.args.take 8) ++ [.call inst.callee] ++ keep := by
      rw [emitInst, hop]
      rfl
    simpa [List.flatMap_cons, h, htail] using hcode
  obtain ⟨hsteps₁, hat₁⟩ := Image.At.execs hcode' hexecs
  set i₁ := i + (stackArgs (frameOf F) 0 (inst.args.drop 8) ++
    regArgs (frameOf F) XReg.a0 (inst.args.take 8)).length with hi₁
  rw [hname] at htarget
  have hsteps₂ := Image.At.call hat₁ htarget σ₁
  -- There the callee finds what it expects.
  set σ₂ := σ₁.set XReg.ra (img.addr (i₁ + 1)) with hσ₂
  have hget : ∀ x, x ≠ XReg.ra → σ₂.get x = σ₁.get x := fun x hx => σ₁.get_set_of_ne hx _
  have hsp₂ : σ₂.get XReg.sp = b := (hget _ (by decide)).trans hintact₁.sp
  have hra₂ : img.itemAt (σ₂.get XReg.ra) = some (i₁ + 1) := by
    rw [σ₁.get_set_self (by decide)]
    exact hlink i₁ _ hat₁.head
  have hat : AtCall m img space ⟨inst.callee, inst.args.map (·.eval R), G⟩ ⟨t, σ₂⟩ := by
    refine ⟨htarget, ?_, ?_, ?_, ?_, ?_, hintact₁.globals, by rw [hra₂]; rfl⟩
    · rw [hsp₂]
      exact hf.aligned
    · rw [hsp₂]
      omega
    · rw [hsp₂, List.length_map]
      have := (σ₀.get XReg.sp).isLt
      have := hf.toNat
      have := hfr.ra
      omega
    · rw [hsp₂]
      intro gid hg
      have := hf.toNat
      have := hf.apart gid hg
      omega
    · intro j w hj
      rw [List.getElem?_map] at hj
      obtain ⟨v, hv, rfl⟩ := Option.map_eq_some_iff.mp hj
      have h := hpassed j v hv
      rw [hsp₂]
      split
      · rename_i hj8
        rw [if_pos hj8] at h
        rw [hget _ ?_, h]
        exact (by decide : ∀ j < 8, XReg.a0 + j ≠ XReg.ra) j hj8
      · rename_i hj8
        rw [if_neg hj8] at h
        exact h
  obtain ⟨s', hsteps₃, hafter⟩ := hbody _ hat
  obtain ⟨hintact₃, hcells⟩ := hintact₁.after_call hf hroom (s := ⟨t, σ₂⟩) rfl hafter
  obtain ⟨i₃, σ₃⟩ := s'
  obtain rfl : i₁ + 1 = i₃ := Option.some.inj (hra₂.symm.trans hafter.pc)
  have hslots : ∀ r, F.LiveAt blk rest r → inst.dst ≠ some r →
      slots (frameOf F) b σ₃.mem r = R r := by
    intro r hr hd
    have hrlt : r < F.numVregs := hr.lt hok.inRange hlt fun i hi => by
      rw [hdone]
      exact List.mem_append_right _ (List.mem_cons_of_mem _ hi)
    have hslot := hfr.slot_lt (v := r) hrlt
    refine Eq.trans ?_ (hlive r (.pass hd hr))
    unfold slots
    rw [hcells _ (by omega), hout _ fun k hk => hf.placed.slot_ne_outgoing hfr hrlt hk]
  have hdone' : ∃ done, (F.blockAt blk).insts = done ++ rest := ⟨done ++ [inst], by simp [hdone]⟩
  have hsteps := (hsteps₁.trans hsteps₂).trans hsteps₃
  have hat₃ := hat₁.tail
  -- The result goes to its slot, if there is one.
  cases hd : inst.dst with
  | none =>
    rw [hd] at hkeep hwrite
    cases hwrite
    rw [hkeep] at hat₃
    exact ⟨_, hsteps, hlt, hdone', hat₃, hintact₃, fun r hr => hslots r hr (by simp [hd])⟩
  | some d =>
    rw [hd] at hkeep hwrite
    cases v with
    | none => cases hwrite
    | some w =>
      cases hwrite
      have hdlt : d < F.numVregs := (hok.inRange.insts _ hbb inst hmem).dst_lt hd
      have hslot := hfr.slot_lt (v := d) hdlt
      have ha0 : XReg.a0 ≠ XReg.t6 := by decide
      obtain ⟨σ₄, hexecs₄, hmem₄, hk₄⟩ :=
        storeSlot_does (img.sym) hfr hf.placed.aligned ha0 hintact₃.sp d
      rw [hafter.value w rfl] at hmem₄
      rw [hkeep] at hat₃
      obtain ⟨hsteps₄, hat₄⟩ := Image.At.execs hat₃ hexecs₄
      refine ⟨_, hsteps.trans hsteps₄, hlt, hdone', hat₄, ?_, ?_⟩
      · exact hintact₃.store_cell hf (by omega) hmem₄
          (.of_keeps hk₄ (by decide))
      · exact fun r hr => live_store hok.inRange hf hlt ⟨done, hdone⟩
          (fun r hd hr => hslots r hr hd) hd hmem₄ hr

/-! ## The ends of blocks -/

/-- **Entering a block.** -/
theorem enter_block (hm : ModuleOk m) (himg : img.items = generateAsmNaive m) (hF : F ∈ m.funcs)
    {t : Nat} (ht : t < F.blocks.length) {R : Regs} (hi : Intact m img F σ₀ b low G σ)
    (hlive : ∀ v, F.LiveAt t (F.blockAt t).insts v → slots (frameOf F) b σ.mem v = R v) :
    ∃ i s', img.target (F.label t) = some i ∧ img.Steps ⟨i, σ⟩ s' ∧
      Running m img F σ₀ b low (F.start t R G) s' := by
  obtain ⟨i, htarget, hat⟩ := target_block hm himg hF ht
  have hid : (F.blockAt t).id = t := (hm.funcs F hF).block_id ht
  exact ⟨i, _, htarget, Image.At.label hat σ, ht, ⟨[], rfl⟩, hat.tail, hi, hlive⟩

/-- **A jump or a branch** is matched by its code. -/
theorem Running.jump (hm : ModuleOk m) (himg : img.items = generateAsmNaive m)
    (hF : F ∈ m.funcs) (hf : Framed m img F σ₀ b low) {blk : Nat} {R : Regs} {s : State}
    (h : Running m img F σ₀ b low ⟨blk, [], R, G⟩ s) {c : Config}
    (hexec : F.execTerm (F.blockAt blk) R G = .ok (.inl c)) :
    ∃ s', img.Steps s s' ∧ Running m img F σ₀ b low c s' := by
  obtain ⟨i, σ⟩ := s
  obtain ⟨hlt, hdone, hcode, hintact, hlive⟩ := h
  have hbb : F.blockAt blk ∈ F.blocks := IRFunc.blockAt_mem hlt
  have hsuccs := (hm.funcs F hF).inRange.succs _ hbb
  have henter : ∀ t ∈ succsOf (F.blockAt blk), ∀ {σ'}, Intact m img F σ₀ b low G σ' →
      σ'.mem = σ.mem → F.enter t R G = .ok (.inl c) → ∃ i s', img.target (F.label t) = some i ∧
        img.Steps ⟨i, σ'⟩ s' ∧ Running m img F σ₀ b low c s' := by
    intro t ht σ' hi hmem hc
    rw [IRFunc.enter_eq (hsuccs t ht)] at hc
    obtain rfl : F.start t R G = c := by simpa using hc
    exact enter_block hm himg hF (hsuccs t ht) hi fun v hv => by
      rw [hmem]
      exact hlive v (.succ ht hv)
  rw [List.flatMap_nil, List.nil_append] at hcode
  unfold emitTerm at hcode
  unfold IRFunc.execTerm at hexec
  cases hterm : (F.blockAt blk).term with
  | None => rw [hterm] at hexec; cases hexec
  | Ret => rw [hterm] at hexec; cases hexec
  | Jmp =>
    rw [hterm] at hexec hcode
    obtain ⟨j, s', htarget, hs, hr⟩ :=
      henter _ (by simp [succsOf, hterm]) hintact rfl hexec
    exact ⟨s', (Image.At.j hcode htarget σ).trans hs, hr⟩
  | Br =>
    rw [hterm] at hexec hcode
    rw [List.map_append] at hcode
    have ht0 : XReg.t0 ≠ 0 := by decide
    obtain ⟨σ₁, hexecs, hmem, hcond, hk⟩ := loadVal_does img.sym (frameOf_laid F)
      hf.placed.aligned ht0 hintact.sp (F.blockAt blk).cond
    have hi₁ := hintact.of_mem hmem (.of_keeps hk (by decide))
    have hcond : σ₁.get XReg.t0 = (F.blockAt blk).cond.eval R := by
      rw [hcond]
      refine Val.eval_congr fun r hr => hlive r (.term ?_)
      simp [BasicBlock.termUses, hterm, hr]
    obtain ⟨hsteps, hat⟩ := Image.At.execs hcode hexecs
    have htruthy : Cmp.bne.eval (σ₁.get XReg.t0) (σ₁.get 0) =
        Word.truthy ((F.blockAt blk).cond.eval R) := by
      rw [hcond]
      rfl
    cases htr : Word.truthy ((F.blockAt blk).cond.eval R) with
    | true =>
      simp only [htr, if_true] at hexec
      obtain ⟨j, s', htarget, hs, hr⟩ :=
        henter _ (by simp [succsOf, hterm]) hi₁ hmem hexec
      exact ⟨s', (hsteps.trans (Image.At.branch hat htarget (htruthy.trans htr))).trans hs, hr⟩
    | false =>
      simp only [htr, Bool.false_eq_true, if_false] at hexec
      obtain ⟨j, s', htarget, hs, hr⟩ :=
        henter _ (by simp [succsOf, hterm]) hi₁ hmem hexec
      have hnot := Image.At.branch_not hat (htruthy.trans htr)
      exact ⟨s', ((hsteps.trans hnot).trans (Image.At.j hat.tail htarget σ₁)).trans hs, hr⟩

/-- **A return** is matched by its code, which gives the frame back. -/
theorem Running.ret (hf : Framed m img F σ₀ b low) (hra : (img.itemAt (σ₀.get XReg.ra)).isSome)
    {space : Nat} (hlow : low = (σ₀.get XReg.sp).toNat - space) {blk : Nat} {R : Regs} {s : State}
    (h : Running m img F σ₀ b low ⟨blk, [], R, G⟩ s) {r : CallResult}
    (hexec : F.execTerm (F.blockAt blk) R G = .ok (.inr r)) (i₀ : Nat) :
    ∃ s', img.Steps s s' ∧ AfterCall m img space r ⟨i₀, σ₀⟩ s' := by
  obtain ⟨i, σ⟩ := s
  obtain ⟨hlt, hdone, hcode, hintact, hlive⟩ := h
  rw [List.flatMap_nil, List.nil_append] at hcode
  unfold emitTerm at hcode
  unfold IRFunc.execTerm at hexec
  cases hterm : (F.blockAt blk).term with
  | None => rw [hterm] at hexec; cases hexec
  | Jmp => rw [hterm] at hexec; exact absurd hexec IRFunc.enter_ne_inr
  | Br => rw [hterm] at hexec; exact absurd hexec IRFunc.enter_ne_inr
  | Ret =>
    rw [hterm] at hexec hcode
    cases hexec
    -- The value, if there is one, is in `a0` before the frame is given back.
    have hvalue : Does img.sym
        (if (F.blockAt blk).retHasVal then loadVal (frameOf F) (F.blockAt blk).retVal XReg.a0
          else []) σ fun σ₁ => σ₁.mem = σ.mem ∧ Keeps [XReg.a0, XReg.t6] σ σ₁ ∧
        ((F.blockAt blk).retHasVal = true →
          σ₁.get XReg.a0 = (F.blockAt blk).retVal.eval R) := by
      split
      · rename_i hv
        refine (loadVal_does img.sym (frameOf_laid F) hf.placed.aligned (by decide) hintact.sp _).mono
          fun σ₁ h₁ => ?_
        obtain ⟨hmem, hw, hk⟩ := h₁
        refine ⟨hmem, hk, fun _ => ?_⟩
        rw [hw]
        refine Val.eval_congr fun r hr => hlive r (.term ?_)
        simp [BasicBlock.termUses, hterm, hv, hr]
      · rename_i hv
        exact .nil ⟨rfl, .refl _ _, fun h => absurd h hv⟩
    have hrestore : Does img.sym ((if (F.blockAt blk).retHasVal then
          loadVal (frameOf F) (F.blockAt blk).retVal XReg.a0 else []) ++ restore (frameOf F)) σ
        fun σ₂ => σ₂.mem = σ.mem ∧ σ₂.get XReg.ra = σ₀.get XReg.ra ∧
          σ₂.get XReg.sp = σ₀.get XReg.sp ∧
          (∀ x, isCalleeSaved x = true → σ₂.get x = σ₀.get x) ∧
          ((F.blockAt blk).retHasVal = true →
            σ₂.get XReg.a0 = (F.blockAt blk).retVal.eval R) := by
      refine hvalue.append fun σ₁ h₁ => ?_
      obtain ⟨hmem, hk, hv⟩ := h₁
      have hi₁ := hintact.of_mem hmem (.of_keeps hk (by decide))
      refine (restore_does (frameOf_laid F) hf.placed.aligned hi₁.sp).mono fun σ₂ h₂ => ?_
      obtain ⟨hmem₂, hra₂, hsp₂, hk₂⟩ := h₂
      refine ⟨hmem₂.trans hmem, ?_, ?_, ?_, ?_⟩
      · rw [hra₂, hi₁.ra]
      · rw [hsp₂, hf.top]
      · intro x hx
        rw [hk₂ x, hi₁.saved x hx]
        exact (by decide : ∀ x ∈ calleeSavedPool, x ∉ [XReg.ra, XReg.sp, XReg.t6]) x
          (mem_of_isCalleeSaved hx)
      · exact fun h => (hk₂ _ (by decide)).trans (hv h)
    obtain ⟨σ₂, hexecs, hmem, hra₂, hsp, hsaved, hret⟩ := hrestore
    unfold emitEpilogue at hcode
    rw [← List.append_assoc, List.map_append] at hcode
    obtain ⟨hsteps, hat⟩ := Image.At.execs hcode hexecs
    obtain ⟨t, ht⟩ := Option.isSome_iff_exists.mp hra
    refine ⟨_, hsteps.trans (Image.At.ret hat (t := t) (by rw [hra₂, ht])), ht, ?_, ?_, ?_, ?_⟩
    · intro v hv
      cases hhas : (F.blockAt blk).retHasVal with
      | false => rw [hhas] at hv; cases hv
      | true =>
        rw [hhas] at hv
        cases hv
        exact hret hhas
    · intro gid hg
      rw [hmem]
      exact hintact.globals gid hg
    · rintro x (rfl | rfl | hx)
      · exact hsp
      · exact hra₂
      · exact hsaved x hx
    · rw [← hlow, hmem]
      exact hintact.mem

end Running

/-! ## Calls of functions -/

section Correct

variable {m : IRModule} {img : Image}

/-- **A function's execution** is matched from any point of it to its return. -/
theorem Running.run (hm : ModuleOk m) (himg : img.items = generateAsmNaive m)
    (hlink : img.Linked) (hg : GlobalsPlaced m img) {F : IRFunc} (hF : F ∈ m.funcs)
    {σ₀ : Data} {b : BitVec 32} {low space room : Nat} (hf : Framed m img F σ₀ b low)
    (hra : (img.itemAt (σ₀.get XReg.ra)).isSome)
    (hlow : low = (σ₀.get XReg.sp).toNat - space) (hroom : low + room ≤ b.toNat) {call : Callee}
    (hcallee : ∀ q r, call q = .ok r → (∃ F' ∈ m.funcs, F'.name = q.name) ∧
      ∀ s, AtCall m img room q s → ∃ s', img.Steps s s' ∧ AfterCall m img room r s s')
    {n : Nat} {c : Config} {s : State} (h : Running m img F σ₀ b low c s) {r : CallResult}
    (hrun : Machine.run (F.step call) n c = .ok r) (i₀ : Nat) :
    ∃ s', img.Steps s s' ∧ AfterCall m img space r ⟨i₀, σ₀⟩ s' := by
  induction n generalizing c s with
  | zero => cases hrun
  | succ n ih =>
    obtain ⟨blk, rest, R, G⟩ := c
    rw [Machine.run_succ] at hrun
    obtain ⟨x, hx, hrest⟩ := Outcome.bind_eq_ok.mp hrun
    cases rest with
    | nil =>
      simp only [IRFunc.step, IRFunc.getElem?_blocks h.lt] at hx
      cases x with
      | inr r' =>
        obtain rfl : r' = r := by simpa using hrest
        exact h.ret hf hra hlow hx i₀
      | inl c =>
        obtain ⟨s', hs, hr⟩ := h.jump hm himg hF hf hx
        obtain ⟨s'', hs', ha⟩ := ih hr hrest
        exact ⟨s'', hs.trans hs', ha⟩
    | cons inst rest =>
      simp only [IRFunc.step] at hx
      obtain ⟨⟨R', G'⟩, hexec, hx⟩ := Outcome.bind_eq_ok.mp hx
      cases hx
      have hnext : ∃ s', img.Steps s s' ∧ Running m img F σ₀ b low ⟨blk, rest, R', G'⟩ s' := by
        by_cases hop : inst.op = .Call
        · exact h.call hm himg hlink hF hf hroom hcallee hop hexec
        · exact h.inst hm hF hg hf hop hexec
      obtain ⟨s', hs, hr⟩ := hnext
      obtain ⟨s'', hs', ha⟩ := ih hr hrest
      exact ⟨s'', hs.trans hs', ha⟩

/-- The value of a parameter does not depend on what was there before. -/
theorem entryRegs_of_mem {R R' : Regs} {v : Nat} {ps : List Nat} {vs : List Word} (hv : v ∈ ps)
    (hlen : vs.length = ps.length) :
    IRFunc.entryRegs R ps vs v = IRFunc.entryRegs R' ps vs v := by
  induction ps generalizing R R' vs with
  | nil => cases hv
  | cons p ps ih =>
    obtain ⟨w, vs, rfl⟩ : ∃ w ws, vs = w :: ws := List.exists_cons_of_length_eq_add_one hlen
    by_cases hmem : v ∈ ps
    · exact ih hmem (Nat.succ.inj hlen)
    · obtain rfl : v = p := (List.mem_cons.mp hv).resolve_right hmem
      refine entryRegs_congr ?_ ps vs
      rw [Regs.set_same, Regs.set_same]

/-- **A call that returns** is matched by the machine, with room on the stack for so many
activations as it needs. -/
theorem afterCall_of_returnsWithin (hm : ModuleOk m) (himg : img.items = generateAsmNaive m)
    (hlink : img.Linked) (hg : GlobalsPlaced m img) {junk : Regs} {d : Nat} {p : CallArgs}
    {r : CallResult} (h : m.ReturnsWithin junk d p r) {s : State}
    (hs : AtCall m img (d * maxFrame m) p s) :
    ∃ s', img.Steps s s' ∧ AfterCall m img (d * maxFrame m) r s s' := by
  induction d generalizing p r s with
  | zero => exact h.elim
  | succ d ih =>
    obtain ⟨call, n, hcall, hbody⟩ := h
    unfold IRModule.body at hbody
    split at hbody
    · cases hbody
    rename_i F hfind
    have hF : F ∈ m.funcs := List.mem_of_find?_eq_some hfind
    have hname : F.name = p.name := by simpa using List.find?_some hfind
    have hok := hm.funcs F hF
    obtain ⟨i₀, σ₀⟩ := s
    obtain ⟨hpc, haligned, hspace, hbehind, hapart, hargs, hglobals, hra⟩ := hs
    rw [Nat.succ_mul] at hspace hapart ⊢
    have hframe := le_maxFrame m hF
    have hfr := frameOf_laid F
    have hlen : p.args.length = F.paramRegs.length := by
      by_contra hne
      rw [IRFunc.run, if_neg hne] at hbody
      cases hbody
    have hne : F.blocks ≠ [] := by
      intro hnil
      rw [IRFunc.run, if_pos hlen, hnil] at hbody
      cases hbody
    rw [IRFunc.run_eq _ _ _ _ hlen hne] at hbody
    -- The frame of the function lies right below that of its caller.
    set sp := σ₀.get XReg.sp with hsp
    set b := BitVec.ofNat 32 (sp.toNat - (frameOf F).frameSize) with hb
    have hbnat : b.toNat + (frameOf F).frameSize = sp.toNat := by
      rw [hb, BitVec.toNat_ofNat, Nat.mod_eq_of_lt (by have := sp.isLt; omega)]
      omega
    have htop : cell b (frameOf F).frameSize = sp := by
      refine BitVec.eq_of_toNat_eq ?_
      rw [cell_toNat (by have := sp.isLt; omega), hbnat]
    have hdvd := hfr.dvd
    have hf : Framed m img F σ₀ b (sp.toNat - (d * maxFrame m + maxFrame m)) :=
      ⟨htop.symm, hbnat.symm, by omega, by omega, hapart⟩
    have hplaced : Placed (frameOf F) b ((p.args.length - 8) * 4) :=
      ⟨hf.placed.aligned, by rw [hbnat]; exact hbehind⟩
    -- The prologue runs through to the first block.
    obtain ⟨i, htarget, hat⟩ := target_func hm himg hF
    obtain rfl : i = i₀ := by
      rw [hname, hpc] at htarget
      exact (Option.some.inj htarget).symm
    have hin : Incoming (frameOf F) b 0 p.args σ₀ := by
      intro j v hj
      have h := hargs j v hj
      rw [Nat.zero_add, ← cell_cell, htop]
      exact h
    obtain ⟨σ₁, hexecs, hsp₁, hra₁, hslots, hout, hk⟩ :=
      prologue_does img.sym hplaced hok.params (hsp.symm.trans htop.symm) hlen
        hok.inRange.params (by rw [hlen]) hin
    obtain ⟨hsteps, hat₁⟩ := Image.At.execs hat.tail hexecs
    have hpos := List.length_pos_of_ne_nil hne
    have hblocks : F.blocks = F.blockAt 0 :: F.blocks.drop 1 := by
      simpa using F.blocks_eq hpos
    rw [hblocks, List.flatMap_cons, emitBlock, hok.block_id hpos] at hat₁
    have hblock := Image.At.label (Image.At.left hat₁) σ₁
    have hcode := (Image.At.left hat₁).tail
    have houtside : ∀ a, (∀ off < (frameOf F).frameSize, a ≠ cell b off) → σ₁.mem a = σ₀.mem a :=
      hout
    have hrunning : Running m img F σ₀ b (sp.toNat - (d * maxFrame m + maxFrame m))
        (F.entry junk p.args p.globals)
        ⟨i + 1 + (prologue (frameOf F) F).length + 1, σ₁⟩ := by
      refine ⟨hpos, ⟨[], rfl⟩, hcode, ⟨hsp₁, ?_, hra₁, ?_, ?_⟩, ?_⟩
      · intro x hx
        refine hk x ((by decide : ∀ x ∈ calleeSavedPool, x ∉ XReg.sp :: temps) x
          (mem_of_isCalleeSaved hx))
      · intro gid hgid
        rw [houtside _ fun off hoff => (hf.cell_ne_global hoff hgid).symm]
        exact hglobals gid hgid
      · intro a _ ha
        refine houtside a ?_
        rintro off hoff rfl
        rw [hplaced.toNat (by omega), ← hsp] at ha
        omega
      · intro v hv
        have hparam := hok.readsWritten v hv
        rw [hslots v (hok.inRange.params v hparam)]
        exact entryRegs_of_mem hparam hlen
    have hcallee : ∀ q r, call q = .ok r → (∃ F' ∈ m.funcs, F'.name = q.name) ∧
        ∀ s, AtCall m img (d * maxFrame m) q s →
          ∃ s', img.Steps s s' ∧ AfterCall m img (d * maxFrame m) r s s' := by
      intro q r hq
      refine ⟨?_, fun s hs => ih (hcall q r hq) hs⟩
      have hq := hcall q r hq
      cases d with
      | zero => exact hq.elim
      | succ d =>
        obtain ⟨_, _, -, hq⟩ := hq
        unfold IRModule.body at hq
        split at hq
        · cases hq
        · rename_i F' hfind'
          exact ⟨F', List.mem_of_find?_eq_some hfind', by simpa using List.find?_some hfind'⟩
    obtain ⟨s', hs', hafter⟩ := hrunning.run hm himg hlink hg hF hf hra rfl (by omega) hcallee
      hbody i
    have hname := Image.At.label hat σ₀
    exact ⟨s', (hname.trans hsteps).trans (hblock.trans hs'), hafter⟩

/-- **The baseline code generator is correct.** Whenever a call returns, the machine executes
its assembly from any call of the function to the return, with the returned value in `a0`,
the globals as they should be, and the registers of the caller as they were. The stack must
have room for as many frames as the call has activations at a time. -/
theorem generateAsmNaive_correct (hm : ModuleOk m) (himg : img.items = generateAsmNaive m)
    (hlink : img.Linked) (hg : GlobalsPlaced m img) {junk : Regs} {p : CallArgs}
    {r : CallResult} (h : m.Returns junk p r) :
    (∃ d, m.ReturnsWithin junk d p r) ∧
      ∀ d, m.ReturnsWithin junk d p r → ∀ s, AtCall m img (d * maxFrame m) p s →
        ∃ s', img.Steps s s' ∧ AfterCall m img (d * maxFrame m) r s s' :=
  ⟨(m.returns_iff_within junk p r).mp h, fun _ hd _ hs =>
    afterCall_of_returnsWithin hm himg hlink hg hd hs⟩

end Correct

/-- `int x = 0; int f(int a) { x = a; return a + a; } int main() { return f(3) - 1; }` -/
def twiceModule : IRModule where
  globals := [{ name := "x" }]
  funcs := [
    { name := "f"
      numParams := 1
      paramRegs := [0]
      numVregs := 2
      blocks := [{
        insts := [{ op := .StoreGlobal, a := .reg 0 },
          { op := .Add, dst := some 1, a := .reg 0, b := .reg 0 }]
        term := .Ret
        retHasVal := true
        retVal := .reg 1 }] },
    { name := "main"
      numVregs := 2
      blocks := [{
        insts := [{ op := .Call, dst := some 0, callee := "f", args := [.imm 3] },
          { op := .Sub, dst := some 1, a := .reg 0, b := .imm 1 }]
        term := .Ret
        retHasVal := true
        retVal := .reg 1 }] }]

/-- The module, linked: every item takes four bytes, and the global is at 256. -/
def twiceImage : Image where
  items := generateAsmNaive twiceModule
  addr i := BitVec.ofNat 32 (4 * i)
  itemAt a := some (a.toNat / 4)
  sym _ := 256#32

/-- The machine in front of `main`, with a stack that ends at 4096 and memory all zero. -/
def twiceState : State where
  pc := 26
  data := { regs := fun x => if x = XReg.sp then 4096#32 else 0#32, mem := fun _ => 0#32 }

theorem twiceModule_ok : ModuleOk twiceModule := by
  refine ⟨⟨by decide, by decide⟩, by decide, fun F hF => ?_⟩
  rcases List.mem_cons.mp hF with rfl | hF
  · refine ⟨by constructor <;> decide, rfl, rfl, by decide, ?_⟩
    exact IRFunc.readsWritten_of_bound (fun _ => [1]) (by decide) (by decide) (by decide)
  · obtain rfl := List.mem_singleton.mp hF
    refine ⟨by constructor <;> decide, rfl, rfl, by decide, ?_⟩
    exact IRFunc.readsWritten_of_bound (fun _ => [1]) (by decide) (by decide) (by decide)

/-- `f` is a leaf, so `main` has two activations at a time. -/
theorem twiceModule_returnsWithin : twiceModule.ReturnsWithin (fun _ => 0) 2
    ⟨"main", [], fun _ => 0⟩ (some 5, Globals.set (fun _ => 0) 0 3) := by
  refine ⟨fun q => if q.name = "f" then twiceModule.body (fun _ => 0) q (fun _ => .timeout) 3
    else .timeout, 4, fun q r hq => ?_, rfl⟩
  beta_reduce at hq
  split at hq
  · exact ⟨fun _ => .timeout, 3, fun _ _ h => (by cases h), hq⟩
  · cases hq

theorem twiceModule_runs : ∃ s', twiceImage.Steps twiceState s' ∧
    s'.data.get XReg.a0 = 5#32 ∧ s'.data.mem 256#32 = 3#32 := by
  have hlink : twiceImage.Linked := by
    intro i l hi
    have hlt : i < 41 := (List.getElem?_eq_some_iff.mp hi).choose
    show some ((BitVec.ofNat 32 (4 * (i + 1))).toNat / 4) = some (i + 1)
    rw [BitVec.toNat_ofNat, Nat.mod_eq_of_lt (by omega)]
    congr 1
    omega
  have hg : GlobalsPlaced twiceModule twiceImage := by
    constructor
    · decide
    · intro gid hgid gid' hgid' hne
      have : twiceModule.globals.length = 1 := rfl
      omega
  have hat : AtCall twiceModule twiceImage (2 * maxFrame twiceModule)
      ⟨"main", [], fun _ => 0⟩ twiceState := by
    refine ⟨by decide +kernel, by decide, by decide, by decide, ?_, ?_, fun _ _ => rfl, rfl⟩
    · exact fun gid _ => .inl (show (256#32).toNat < _ by decide)
    · intro j v hj
      simp at hj
  obtain ⟨-, hrun⟩ := generateAsmNaive_correct twiceModule_ok rfl hlink hg
    ((twiceModule.returns_iff_within _ _ _).mpr ⟨2, twiceModule_returnsWithin⟩)
  obtain ⟨s', hsteps, hafter⟩ := hrun 2 twiceModule_returnsWithin twiceState hat
  exact ⟨s', hsteps, hafter.value 5#32 rfl, hafter.globals 0 (by decide)⟩

end NaiveCodeGen

end ToyC
