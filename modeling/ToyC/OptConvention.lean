import ToyC.OptCalls
import ToyC.OptReturns
import ToyC.OptDivision

/-!
# The calling convention of the optimized code

A call is entered and left as by the code of the baseline generator, whose convention is reused here
(`NaiveCodeGen.AtCall`, `NaiveCodeGen.AfterCall`); only the frames are smaller. Two things are to be
known of what the machine does in between: that its steps lead there, and that they form a path on
which every callee keeps to the law, since the frame discipline is about such paths. So both are
followed at a time (`Via`).

At the entry of a function the prologue brings the parameters to their places
(`Stacked.enter`). In front of a call the arguments are placed as the callee expects them, and when it
returns the vregs that are still live are where they were: in registers it has to preserve, or in
slots above its stack (`Stacked.calls`).
-/

namespace ToyC

open Rv32

namespace OptCodeGen

open NaiveCodeGen (AtCall AfterCall GlobalsPlaced HoldsGlobals GlobalsApart globalAddr)

/-! ## The law -/

section Law

variable (img : Image) (m : IRModule) (low : Nat)

/-- **The law of callees, and nothing written below an address** but globals. -/
structure Lowered (σ σ' : Data) : Prop where
  obeys : Obeys img m σ σ'
  mem : ∀ a, (∀ gid < m.globals.length, a ≠ globalAddr m img gid) → a.toNat < low →
    σ'.mem a = σ.mem a

/-- **The machine gets there**, and by a path on which callees keep to the law. -/
def Via (s s' : State) : Prop := img.Steps s s' ∧ img.Path (Lowered img m low) s s'

theorem follows_via : img.Follows (Via img m low) :=
  Image.follows_steps.and Image.follows_path

variable {img m low}

/-- A call that has returned kept to the law. -/
theorem lowered_of_afterCall {space : Nat} {r : CallResult} {s s' : State}
    (h : AfterCall m img space r s s') (hlow : low ≤ (s.data.get XReg.sp).toNat - space) :
    Lowered img m low s.data s'.data where
  obeys := ⟨h.regs, fun a ha hle => h.mem a ha (.inr hle)⟩
  mem a ha hlt := h.mem a ha (.inl (Nat.lt_of_lt_of_le hlt hlow))

/-- **A call**, by what the callee does. -/
theorem Via.call {i t : Nat} {l : String} {σ σ' : Data} {rest : List Item}
    (hat : img.At i (.instr (.call l) :: rest)) (ht : img.target l = some t)
    (hsteps : img.Steps ⟨t, σ.set XReg.ra (img.addr (i + 1))⟩ ⟨i + 1, σ'⟩)
    (hlaw : Lowered img m low (σ.set XReg.ra (img.addr (i + 1))) σ') :
    Via img m low ⟨i, σ⟩ ⟨i + 1, σ'⟩ :=
  ⟨(Image.At.call hat ht σ).trans hsteps, .single (.call hat.head hlaw)⟩

end Law

/-! ## Frames -/

section Frames

variable (S : Sorting) (m : IRModule) (n : Nat)

/-- The bytes of the frame of a function, under its allocation. -/
def frameBytes (F : IRFunc) : Nat :=
  match allocateRegisters S F n with
  | .ok A => (frameOf A F).frameSize
  | _ => 0

/-- The largest frame of a module. -/
def maxFrame : Nat := m.funcs.foldl (fun k F => max k (frameBytes S n F)) 0

variable {S m n}

theorem le_maxFrame {F : IRFunc} (hF : F ∈ m.funcs) {A : Allocation}
    (hA : allocateRegisters S F n = .ok A) : (frameOf A F).frameSize ≤ maxFrame S m n := by
  have hbytes : frameBytes S n F = (frameOf A F).frameSize := by
    unfold frameBytes
    rw [hA]
  rw [← hbytes]
  exact le_foldl_of_mem (f := fun k F => max k (frameBytes S n F)) (fun k _ => Nat.le_max_left k _)
    hF (fun k => Nat.le_max_right k _) 0

end Frames

/-- **An activation on the stack**: its frame right below that of the caller, which is free down to
`low`, and room for further ones below it. -/
structure Stacked (img : Image) (m : IRModule) (A : Allocation) (F : IRFunc) (σ₀ : Data)
    (b : BitVec 32) (low room : Nat) : Prop where
  entry : Entry img m A F b σ₀
  aligned : 16 ∣ b.toNat
  above : low + room ≤ b.toNat
  apart : GlobalsApart m img low (σ₀.get XReg.sp).toNat

section Stacked

variable {img : Image} {m : IRModule} {A : Allocation} {F : IRFunc} {σ₀ σ σ' : Data}
  {b : BitVec 32} {low room : Nat}

theorem Stacked.frame (h : Stacked img m A F σ₀ b low room) : (frameOf A F).At b 0 :=
  ⟨h.entry.frame.aligned, Nat.le_trans (Nat.add_le_add_left (Nat.zero_le _) _) h.entry.frame.fits⟩

theorem Stacked.site (h : Stacked img m A F σ₀ b low room) (hg : GlobalsPlaced m img) :
    Site img m A F b :=
  ⟨h.frame, hg, h.entry.apart⟩

/-- **At a call there is an activation**, if the stack has room for its frame. -/
theorem stacked_of_atCall {space : Nat} {p : CallArgs} {i : Nat}
    (h : AtCall m img space p ⟨i, σ₀⟩) (hlen : p.args.length = F.numParams)
    (hspace : (frameOf A F).frameSize + room ≤ space) :
    ∃ b, Stacked img m A F σ₀ b ((σ₀.get XReg.sp).toNat - space) room := by
  obtain ⟨-, haligned, hroom, hbehind, hapart, -, -, -⟩ := h
  dsimp only at haligned hroom hbehind hapart
  set sp := σ₀.get XReg.sp with hsp
  set b := BitVec.ofNat 32 (sp.toNat - (frameOf A F).frameSize) with hb
  have hlt := sp.isLt
  have hbnat : b.toNat + (frameOf A F).frameSize = sp.toNat := by
    rw [hb, BitVec.toNat_ofNat, Nat.mod_eq_of_lt (by omega)]
    omega
  have htop : sp = cell b (frameOf A F).frameSize := by
    refine BitVec.eq_of_toNat_eq ?_
    rw [cell_toNat (by omega), hbnat]
  have hdvd := (frameOf_laid A F).dvd
  have hal : 16 ∣ b.toNat := by omega
  refine ⟨b, ⟨⟨?_, ?_⟩, fun gid hg off hoff heq => ?_, htop, hbnat.symm⟩, hal, by omega, hapart⟩
  · show b.toNat % 4 = 0
    omega
  · rw [hbnat, ← hlen]
    exact hbehind
  · have := hapart gid hg
    rw [← heq, cell_toNat (by omega)] at this
    omega

/-! ## The beginning of a function -/

/-- **The prologue writes the frame alone.** -/
theorem prologue_keeps (hA : A.Placed F.numVregs) (hF : F.InRange) (hne : 0 < F.blocks.length)
    (he : Entry img m A F b σ₀)
    (hexecs : execs img.sym (prologue (frameOf A F) A F) σ₀ = .ok σ) :
    σ.get XReg.sp = b ∧
      ∀ a, (∀ off < (frameOf A F).frameSize, a ≠ cell b off) → σ.mem a = σ₀.mem a := by
  -- The contract of the function in a module without globals.
  let m₀ : IRModule := { m with globals := [] }
  have he₀ : Entry img m₀ A F b σ₀ :=
    ⟨he.frame, fun _ h => absurd h (Nat.not_lt_zero _), he.top, he.toNat⟩
  obtain ⟨bs, horder⟩ := order_eq_cons hF.succs_lt hne
  have hguards : (contract img m₀ A F b σ₀).Guards
      ((prologue (frameOf A F) A F).map .instr ++ [.label (F.label 0)]) σ₀ :=
    guards_prologue hA hF.params he₀ fun σ' hbody =>
      ⟨0, by rw [horder]; exact List.mem_cons_self, rfl, hbody⟩
  obtain ⟨⟨_, _, _, hbody⟩, hmem⟩ := hguards.execs hexecs
  refine ⟨hbody.sp, fun a ha => hmem a ?_⟩
  rintro (⟨gid, hg, -⟩ | ⟨p, off, hoff, rfl⟩)
  · exact absurd hg (Nat.not_lt_zero gid)
  · have := hoff.le_size (frameOf_laid A F) hA
    exact ha off (by omega) rfl

/-- The value of a parameter is the argument in its place. -/
theorem entryRegs_getElem? {R : Regs} {ps : List Nat} {vs : List Word} (hps : ps.Nodup) {i p : Nat}
    {w : Word} (hp : ps[i]? = some p) (hw : vs[i]? = some w) : IRFunc.entryRegs R ps vs p = w := by
  have hkeep : ∀ {ps : List Nat} {vs : List Word} {R : Regs}, p ∉ ps →
      IRFunc.entryRegs R ps vs p = R p := by
    intro ps
    induction ps with
    | nil => exact fun _ => rfl
    | cons q ps ih =>
      intro vs R hmem
      cases vs with
      | nil => rfl
      | cons v vs =>
        rw [List.mem_cons, not_or] at hmem
        exact (ih hmem.2).trans (R.set_of_ne v hmem.1)
  induction ps generalizing R vs i with
  | nil => simp at hp
  | cons q ps ih =>
    obtain ⟨hq, hps⟩ := List.nodup_cons.mp hps
    cases vs with
    | nil => simp at hw
    | cons v vs =>
      cases i with
      | zero =>
        cases hp
        cases hw
        exact (hkeep hq).trans (R.set_same p w)
      | succ i => exact ih hps hp hw

/-- **A function is entered.** From a call the prologue comes to the first block, where the
parameters that are live have their arguments. -/
theorem Stacked.enter {S : Sorting} {n space : Nat} {p : CallArgs} {i : Nat}
    (hs : Stacked img m A F σ₀ b low room) (h : AtCall m img space p ⟨i, σ₀⟩)
    (hA : allocateRegisters S F n = .ok A) (hF : F.InRange) (hne : 0 < F.blocks.length)
    (hnp : F.numParams = F.paramRegs.length) (hnodup : F.paramRegs.Nodup)
    (hwritten : F.ReadsWritten) (hsafe : EighthSafe (frameOf A F) A F)
    (hlen : p.args.length = F.paramRegs.length) (junk : Regs) :
    Does img.sym (prologue (frameOf A F) A F) σ₀
      (Holds img m A F b (F.entry junk p.args p.globals)) := by
  obtain ⟨hvalid, hplaced⟩ := allocateRegisters_valid hF hA
  have hmoved : Does img.sym (prologue (frameOf A F) A F) σ₀ _ :=
    prologue_does (frameOf_laid A F) hplaced hF hnp (params_apart hvalid hnodup) hs.entry.frame
      hs.entry.top
  obtain ⟨σ, hexecs, hheld⟩ := hmoved
  obtain ⟨hsp, hmem⟩ := prologue_keeps hplaced hF hne hs.entry hexecs
  refine ⟨σ, hexecs, hne, ⟨[], rfl⟩, hsp, fun v hv => ?_, fun gid hg => ?_⟩
  · obtain ⟨j, hj, hv'⟩ := List.getElem_of_mem (hwritten v hv)
    have hp : F.paramRegs[j]? = some v := List.getElem?_eq_some_iff.mpr ⟨hj, hv'⟩
    obtain ⟨w, hw⟩ : ∃ w, p.args[j]? = some w := ⟨_, List.getElem?_eq_getElem (hlen ▸ hj)⟩
    have harg := h.args j w hw
    show _ = IRFunc.entryRegs junk F.paramRegs p.args v
    have hin := (hheld j v hp).1 (by
      rintro rfl
      exact hsafe v hp hv)
    rw [hin, entryRegs_getElem? hnodup hp hw, incoming, ← cell_cell, ← hs.entry.top]
    split at harg
    · rename_i hj8
      rw [if_pos hj8]
      exact harg
    · rename_i hj8
      rw [if_neg hj8]
      exact harg
  · rw [hmem _ fun off hoff => (hs.entry.apart gid hg off hoff).symm]
    exact h.globals gid hg

/-! ## Calls -/

/-- **What the law keeps of an activation**: the vregs in registers that are to be preserved, and
those on the stack. -/
theorem Obeys.locs {nv : Nat} (h : Obeys img m σ σ') (hA : A.Placed nv) (hsite : Site img m A F b)
    (hsp : σ.get XReg.sp = b) {v : Nat} (hv : v < nv)
    (hsaved : ∀ x, A.reg v = some x → isCalleeSaved x = true) :
    locs (frameOf A F) A σ' v = locs (frameOf A F) A σ v := by
  rcases hA.locates hv with ⟨x, -, hreg⟩ | ⟨hreg, -⟩
  · rw [locs_reg hreg, locs_reg hreg, h.regs x (.inr (.inr (hsaved x hreg)))]
  · have hfr := frameOf_laid A F
    obtain ⟨-, -, hlt⟩ := spillOff_lt hfr hA hv hreg
    have hle := hfr.calleeBase_le
    rw [locs_slot hreg, locs_slot hreg, h.regs XReg.sp (.inl rfl), hsp]
    refine h.mem _ (fun gid hg => hsite.apart gid hg _ (by omega)) ?_
    rw [hsp]
    unfold slotAddr
    rw [hsite.frame.toNat (by omega)]
    exact Nat.le_add_right _ _

/-- **The code of a call** does what the callee does. -/
theorem Stacked.calls {call : Callee} (hs : Stacked img m A F σ₀ b low room)
    (hr : Ready img m A F b) (hlink : img.Linked)
    (htarget : ∀ F' ∈ m.funcs, ∃ t, img.target F'.name = some t)
    (hcallee : ∀ q r, call q = .ok r → (∃ F' ∈ m.funcs, F'.name = q.name) ∧
      ∀ s, AtCall m img room q s → ∃ s', img.Steps s s' ∧ AfterCall m img room r s s')
    {blk : Nat} {inst : Inst} {rest : List Inst} {R : Regs} {G G' : Globals} {i : Nat}
    {v : Option Word} (hop : inst.op = .Call)
    (h : Holds img m A F b ⟨blk, inst :: rest, R, G⟩ σ)
    (hat : img.At i ((callArgs (frameOf A F) A inst ++ [Instr.call inst.callee]).map .instr))
    (hcall : call ⟨inst.callee, inst.args.map (·.eval R), G⟩ = .ok (v, G')) :
    ∃ σ', Via img m low ⟨i, σ⟩
        ⟨i + (callArgs (frameOf A F) A inst ++ [Instr.call inst.callee]).length, σ'⟩ ∧
      (∀ w, v = some w → σ'.get XReg.a0 = w) ∧ σ'.get XReg.sp = b ∧
      (∀ u, F.LiveAt blk rest u → inst.dst ≠ some u → locs (frameOf A F) A σ' u = R u) ∧
      HoldsGlobals m img G' σ'.mem := by
  have hfr := frameOf_laid A F
  have hin := hr.fits.inRange.insts _ h.mem_blocks inst h.mem_insts
  have hsize := IRFunc.stackArgs_le h.mem_blocks h.mem_insts
  rw [Inst.stackArgs, if_pos hop] at hsize
  have harea : (inst.args.length - 8) * 4 ≤ (frameOf A F).outArgArea := Nat.mul_le_mul_right 4 hsize
  have hfits : (frameOf A F).outArgArea ≤ (frameOf A F).frameSize := by
    have := hfr.spill
    have := hfr.callee
    have := hfr.calleeBase_le
    omega
  -- The arguments are placed, and the callee is jumped to.
  have hargs : Does img.sym (callArgs (frameOf A F) A inst) σ
      (ArgsPlaced (frameOf A F) A b F.numVregs inst.args σ) :=
    callArgs_does hfr hr.placed hs.frame harea
      (fun a ha r hr' => hin.1 r (Inst.mem_uses (by simpa only [Inst.operands, hop] using ha) hr'))
      h.sp
  obtain ⟨σ₁, hexecs, hplaced⟩ := hargs
  rw [List.map_append] at hat
  obtain ⟨hvia₁, hat₁⟩ := (follows_via img m low).execs hat hexecs
  obtain ⟨⟨F', hF', hname⟩, hrun⟩ := hcallee _ _ hcall
  obtain ⟨t, ht⟩ := htarget F' hF'
  rw [hname] at ht
  set i₁ := i + (callArgs (frameOf A F) A inst).length with hi₁
  set σ₂ := σ₁.set XReg.ra (img.addr (i₁ + 1)) with hσ₂
  have hget : ∀ x, x ≠ XReg.ra → σ₂.get x = σ₁.get x := fun x hx => σ₁.get_set_of_ne hx _
  have hsp₂ : σ₂.get XReg.sp = b := (hget _ (by decide)).trans hplaced.sp
  have hra₂ : img.itemAt (σ₂.get XReg.ra) = some (i₁ + 1) := by
    rw [σ₁.get_set_self (by decide)]
    exact hlink i₁ _ hat₁.head
  have hbound := hs.frame.fits
  -- There the callee finds what it expects.
  have hatCall : AtCall m img room ⟨inst.callee, inst.args.map (·.eval R), G⟩ ⟨t, σ₂⟩ := by
    refine ⟨ht, ?_, ?_, ?_, ?_, fun j w hj => ?_, fun gid hg => ?_, by rw [hra₂]; rfl⟩
    · rw [hsp₂]
      exact hs.aligned
    · rw [hsp₂]
      have := hs.above
      omega
    · rw [hsp₂, List.length_map]
      omega
    · rw [hsp₂]
      intro gid hg
      have := hs.apart gid hg
      have := hs.above
      have := hs.entry.toNat
      omega
    · rw [List.getElem?_map] at hj
      obtain ⟨a, ha, rfl⟩ := Option.map_eq_some_iff.mp hj
      have heval : a.eval (locs (frameOf A F) A σ) = a.eval R :=
        h.eval (by simpa only [Inst.operands, hop] using List.mem_of_getElem? ha)
      rw [hsp₂]
      split
      · rename_i hj8
        rw [hget _ ?_, hplaced.regs j a hj8 ha, heval]
        exact (by decide : ∀ j < 8, XReg.a0 + j ≠ XReg.ra) j hj8
      · rename_i hj8
        have := hplaced.stack j a (by omega) ha
        rw [heval, Nat.mul_comm] at this
        exact this
    · refine (hplaced.others _ fun j _ hj => ?_).trans (h.globals gid hg)
      exact (hr.site.apart gid hg _ (by omega)).symm
  obtain ⟨⟨i₃, σ₃⟩, hsteps, hafter⟩ := hrun _ hatCall
  obtain rfl : i₁ + 1 = i₃ := Option.some.inj (hra₂.symm.trans hafter.pc)
  have hlaw : Lowered img m low σ₂ σ₃ := lowered_of_afterCall hafter (by
    show low ≤ (σ₂.get XReg.sp).toNat - room
    rw [hsp₂]
    have := hs.above
    omega)
  have hvia := (follows_via img m low).trans hvia₁ (Via.call hat₁ ht hsteps hlaw)
  refine ⟨σ₃, ?_, hafter.value, (hlaw.obeys.regs _ (.inl rfl)).trans hsp₂, fun u hu hd => ?_,
    hafter.globals⟩
  · rw [List.length_append, List.length_singleton, ← Nat.add_assoc]
    exact hvia
  · -- A vreg that lives across the call is in a register that is preserved, or on the stack.
    have hlive : F.LiveAt blk (inst :: rest) u := .pass hd hu
    have hlt := h.lt_of_live hr.fits.inRange hlive
    obtain ⟨done, hdone⟩ := h.done
    have hsaved := hr.valid.calls blk h.lt done inst rest hdone hop u hu hd
    rw [hlaw.obeys.locs hr.placed hr.site hsp₂ hlt hsaved]
    refine Eq.trans ?_ ((hplaced.vregs u hlt).trans (h.live u hlive))
    exact locs_set (by decide)
      (fun hreg => absurd (hr.placed.reg_mem u XReg.ra hreg).2 (by decide)) _

end Stacked

end OptCodeGen

end ToyC
