import ToyC.HostSafety
import ToyC.OptBlocks
import ToyC.PassShape

/-!
# The optimizer on the host

The passes look vregs and blocks up in tables, by their numbers, and check few of these. Dead code
elimination counts how often each vreg is read in a table with an entry for every vreg of the
function; a vreg that is not one of them, such as the `-1` that the generator takes for a variable
without a vreg, is looked up all the same. Here is the optimizer with these accesses checked as well
as the divisions (`optimizeIR?`).

Where it ends, it has done what the passes say (`optimizeIR?_ok`). Without optimization it does what
they say if the vregs are counted (`optimizeIR?_plain_eq`), and else it gets stuck. With optimization,
nothing is looked up out of range in functions that are ordered; what is left are the divisions of
the folder, and it ends exactly if none of them traps (`optimizeIR?_ends_iff`). So the compiler comes
to an assembly exactly if it does not trap (`compile?_ends_iff`).
-/

namespace ToyC

open Outcome Pipeline Rv32

/-! ## Tables -/

/-- **Dead code elimination finds what it looks up**: the vregs that are read, and the results of
what it may drop. -/
def IRFunc.Counted (F : IRFunc) : Prop :=
  (∀ v ∈ F.reads, v < F.numVregs) ∧
    ∀ inst ∈ F.insts, sideEffect inst = false → ∀ d ∈ inst.dst, d < F.numVregs

instance (F : IRFunc) : Decidable F.Counted := inferInstanceAs (Decidable (_ ∧ _))

/-- **The passes over loops find what they look up**, in a function whose vregs and blocks are in
range. Not all of them look at all of it. -/
def IRFunc.Indexed (F : IRFunc) : Prop :=
  ((∀ v ∈ F.reads, v < F.numVregs) ∧ ∀ inst ∈ F.insts, ∀ d ∈ inst.dst, d < F.numVregs) ∧
    ∀ bb ∈ F.blocks, bb.id < F.blocks.length ∧ ∀ b ∈ succsOf bb, b < F.blocks.length

instance (F : IRFunc) : Decidable F.Indexed := inferInstanceAs (Decidable (_ ∧ _))

/-! ## The passes -/

def deadSweep? (F : IRFunc) : Outcome (IRFunc × Bool) :=
  if F.Counted then .ok (deadSweep F) else .stuck

/-- **Dead code elimination**, as the host does it. -/
def deadCodeElim? (F : IRFunc) (n : Nat) : Outcome IRFunc :=
  Outcome.loop (fun _ F => do
    let (F', changed) ← deadSweep? F
    .ok (if changed then .inl F' else .inr F')) n F

/-- **What a pass does, with its tables.** The other passes have none, or check what they look up. -/
def Pass.checked (n : Nat) (p : Pass) (F : IRFunc) : Outcome (IRFunc × Bool) :=
  match p with
  | .deadCodeElim => do
    let F ← deadCodeElim? F n
    .ok (F, false)
  | .licm | .hoistLoopConstants | .hoistMagicDiv | .hoistDivModConstants =>
    if F.Indexed then p.exec? n F else .stuck
  | p => p.exec? n F

/-- **The optimizer**, as the host does it. -/
def optimizeIR? (m : IRModule) (opt : Bool) (n : Nat) : Outcome IRModule := do
  let m := inlined m opt
  let funcs ← optimizeFuncs (Pass.checked n) opt m.funcs
  .ok { m with funcs }

/-! ## Dead code elimination -/

section DeadCode

variable {F F' : IRFunc} {n : Nat}

theorem IRFunc.Counted.keep (h : F.Counted) (p : Inst → Bool) : (F.keep p).Counted := by
  refine ⟨fun v hv => h.1 v (IRFunc.reads_keep hv), fun inst hi => h.2 inst ?_⟩
  rw [IRFunc.insts_keep] at hi
  exact List.mem_of_mem_filter hi

/-- **The table serves all sweeps**, if it serves the first one. -/
theorem deadCodeElim?_eq (h : F.Counted) : deadCodeElim? F n = deadCodeElim F n := by
  refine loop_congr (I := IRFunc.Counted) (fun _ F hF => ?_) (fun _ F F' hF hstep => ?_) n h
  · rw [deadSweep?, if_pos hF]
    rfl
  · dsimp only at hstep
    split at hstep
    · cases hstep
      exact hF.keep _
    · cases hstep

theorem deadCodeElim?_stuck (h : ¬ F.Counted) : deadCodeElim? F (n + 1) = .stuck := by
  rw [deadCodeElim?, loop_succ, deadSweep?, if_neg h]
  rfl

theorem counted_of_ok (h : deadCodeElim? F n = .ok F') : F.Counted := by
  by_contra hbad
  cases n with
  | zero => cases h
  | succ n => cases (deadCodeElim?_stuck hbad).symm.trans h

theorem IRFunc.Counted.deadCodeElim (hF : F.Counted) (h : deadCodeElim F n = .ok F') :
    F'.Counted := by
  obtain ⟨p, rfl, -⟩ := (deadCodeElim_swept h).1.kept
  exact hF.keep p

end DeadCode

/-! ## Calls of passes -/

section Exec

variable {p : Pass} {n : Nat} {F F' : IRFunc} {changed : Bool}

theorem Pass.exec?_eq_or_stuck (n : Nat) (p : Pass) (F : IRFunc) :
    p.exec? n F = p.exec n F ∨ p.exec? n F = .stuck := by
  by_cases h : p.Safe F
  · exact .inl (Pass.exec?_eq h)
  · exact .inr (Pass.exec?_stuck h)

/-- Dead code elimination does what it should, where it finds what it looks up. -/
theorem IRFunc.Counted.checked_eq (hF : F.Counted) :
    Pass.checked n .deadCodeElim F = Pass.exec n .deadCodeElim F := by
  show (deadCodeElim? F n >>= _) = (ToyC.deadCodeElim F n >>= _)
  rw [deadCodeElim?_eq hF]

/-- **A pass on the host does what it should, or is stuck.** -/
theorem Pass.checked_eq_or_stuck (n : Nat) (p : Pass) (F : IRFunc) :
    p.checked n F = p.exec n F ∨ p.checked n F = .stuck := by
  have hindexed : ∀ {x y : Outcome (IRFunc × Bool)}, x = y ∨ x = .stuck →
      (if F.Indexed then x else .stuck) = y ∨ (if F.Indexed then x else .stuck) = .stuck := by
    intro x y h
    split
    · exact h
    · exact .inr rfl
  cases p with
  | deadCodeElim =>
    by_cases hF : F.Counted
    · exact .inl hF.checked_eq
    · cases n with
      | zero => exact .inl rfl
      | succ n =>
        right
        show (deadCodeElim? F (n + 1) >>= _) = _
        rw [deadCodeElim?_stuck hF]
        rfl
  | licm | hoistLoopConstants | hoistMagicDiv | hoistDivModConstants =>
    exact hindexed (Pass.exec?_eq_or_stuck n _ F)
  | constFold | cse | copyProp | constProp | peephole | jumpThreading | markUnsignedDiv
  | unreachableElim =>
    simp only [Pass.checked]
    exact Pass.exec?_eq_or_stuck n _ F

theorem IRFunc.Ordered.indexed (hF : F.Ordered) : F.Indexed := by
  refine ⟨⟨fun v hv => ?_, fun inst hi d hd => ?_⟩, fun bb hbb => ⟨?_, hF.inRange.succs bb hbb⟩⟩
  · obtain ⟨bb, hbb, hv⟩ := List.mem_flatMap.mp hv
    rcases List.mem_append.mp hv with hv | hv
    · obtain ⟨inst, hi, hv⟩ := List.mem_flatMap.mp hv
      exact (hF.inRange.insts bb hbb inst hi).1 v hv
    · exact hF.inRange.terms bb hbb v hv
  · obtain ⟨bb, hbb, hi⟩ := F.mem_insts_blocks.mp hi
    exact (hF.inRange.insts bb hbb inst hi).dst_lt hd
  · have hid : bb.id ∈ F.blocks.map (·.id) := List.mem_map_of_mem hbb
    rw [hF.ids] at hid
    exact List.mem_range.mp hid

theorem IRFunc.Ordered.counted (hF : F.Ordered) : F.Counted :=
  ⟨hF.indexed.1.1, fun inst hi _ => hF.indexed.1.2 inst hi⟩

/-- **In an ordered function nothing is out of range.** -/
theorem Pass.checked_eq (hF : F.Ordered) : p.checked n F = p.exec? n F := by
  cases p with
  | deadCodeElim => exact hF.counted.checked_eq
  | licm | hoistLoopConstants | hoistMagicDiv | hoistDivModConstants => exact if_pos hF.indexed
  | constFold | cse | copyProp | constProp | peephole | jumpThreading | markUnsignedDiv
  | unreachableElim => rfl

theorem Pass.exec?_ordered (hF : F.Ordered) (h : p.exec? n F = .ok (F', changed)) : F'.Ordered := by
  rcases p.exec?_eq_or_stuck n F with heq | hstuck
  · exact Pass.exec_ordered hF (heq ▸ h)
  · cases hstuck.symm.trans h

end Exec

/-! ## The optimizer -/

/-- **The folder never divides the least number by `-1`**, at whatever call of it the optimizer comes
to. -/
def IRModule.FoldsSafely (m : IRModule) : Prop :=
  ∀ n, FuncsAlong (Pass.exec n) Pass.Safe true (inlined m true).funcs

section Optimizer

variable {m M : IRModule} {opt : Bool} {n : Nat}

/-- So it is where the compiler does not trap. -/
theorem IRModule.FoldsSafely.of_ne_stuck {S : Sorting} (h : ∀ n, compile? S m n ≠ .stuck) :
    m.FoldsSafely :=
  fun n => (compile?_ne_stuck_iff.mp (h n)).folds

/-- **Where the optimizer of the host ends**, it has done what the passes say. -/
theorem optimizeIR?_ok (h : optimizeIR? m opt n = .ok M) : optimizeIR m opt n = .ok M := by
  obtain ⟨Fs, hFs, heq⟩ := bind_eq_ok.mp h
  refine bind_eq_ok.mpr ⟨Fs, ?_, heq⟩
  by_cases hgood : FuncsAlong (Pass.exec n) (fun p F => p.checked n F = p.exec n F) opt
      (inlined m opt).funcs
  · rw [← hFs]
    exact (optimizeFuncs_congr (fun _ _ h => h) hgood).symm
  · have hstuck := optimizeFuncs_stuck (fun _ _ h => h)
      (fun p F hne => (p.checked_eq_or_stuck n F).resolve_left hne) hgood
    cases hstuck.symm.trans hFs

/-- Over ordered functions only the divisions are left. -/
theorem optimizeFuncs_checked {Fs : List IRFunc} (hFs : ∀ F ∈ Fs, F.Ordered) :
    optimizeFuncs (Pass.checked n) opt Fs = optimizeFuncs (Pass.exec? n) opt Fs :=
  optimizeFuncs_congr (fun _ _ hF => Pass.checked_eq hF)
    (.of_invariant (I := IRFunc.Ordered) (fun _ _ hF => hF)
      (fun _ _ _ _ hF h => Pass.exec?_ordered hF h) hFs)

/-- **The optimizer of the host**, over ordered functions, where the folder may do its divisions. -/
theorem optimizeIR?_eq (hord : ∀ F ∈ (inlined m true).funcs, F.Ordered)
    (hfolds : FuncsAlong (Pass.exec n) Pass.Safe true (inlined m true).funcs) :
    optimizeIR? m true n = optimizeIR m true n := by
  unfold optimizeIR? optimizeIR
  dsimp only
  rw [optimizeFuncs_checked hord, optimizeFuncs?_eq hfolds]

/-- Fuel changes no result. -/
theorem Pass.exec_same {n' : Nat} {p : Pass} {F : IRFunc} {r r' : IRFunc × Bool}
    (h : p.exec n F = .ok r) (h' : p.exec n' F = .ok r') : r' = r := by
  have h₁ := p.exec_steady F (Nat.le_max_left n n') h
  have h₂ := p.exec_steady F (Nat.le_max_right n n') h'
  exact Outcome.ok.inj (h₂.symm.trans h₁)

/-- **What holds at the calls of a run that ends**, holds at those of a run with any other fuel. -/
theorem FuncsAlong.of_ok {good : Pass → IRFunc → Prop} {Fs Fs' : List IRFunc}
    (h : FuncsAlong (Pass.exec n) good opt Fs)
    (hok : optimizeFuncs (Pass.exec n) opt Fs = .ok Fs') (n' : Nat) :
    FuncsAlong (Pass.exec n') good opt Fs := by
  induction Fs generalizing Fs' with
  | nil => trivial
  | cons F Fs ih =>
    obtain ⟨F₁, hF₁, hok⟩ := bind_eq_ok.mp hok
    obtain ⟨Fs₁, hFs₁, -⟩ := bind_eq_ok.mp hok
    obtain ⟨halong, hsame⟩ := runStages_same (fun _ _ _ _ => Pass.exec_same) h.1 hF₁
    refine ⟨halong, fun F' hF' => ?_⟩
    obtain rfl := hsame F' hF'
    exact ih (h.2 _ hF₁) hFs₁

/-- **When the optimizer ends on the host**, over ordered functions: exactly if the folder may do its
divisions. -/
theorem optimizeIR?_ends_iff (hord : ∀ F ∈ (inlined m true).funcs, F.Ordered) :
    (∃ n M, optimizeIR? m true n = .ok M) ↔ m.FoldsSafely := by
  constructor
  · rintro ⟨n, M, h⟩
    obtain ⟨Fs, hFs, -⟩ := bind_eq_ok.mp h
    rw [optimizeFuncs_checked hord] at hFs
    have hsafe : FuncsAlong (Pass.exec n) Pass.Safe true (inlined m true).funcs := by
      by_contra hbad
      cases (optimizeFuncs?_stuck hbad).symm.trans hFs
    rw [optimizeFuncs?_eq hsafe] at hFs
    exact hsafe.of_ok hFs
  · intro hfolds
    obtain ⟨n, M, hM⟩ := optimizeIR_total hord
    exact ⟨n, M, (optimizeIR?_eq hord (hfolds n)).trans hM⟩

/-! ### Without optimization -/

/-- What is called without optimization. -/
theorem funcsAlong_plain {Fs : List IRFunc} (hFs : ∀ F ∈ Fs, F.Counted) :
    FuncsAlong (Pass.exec n) (fun p F => p = .deadCodeElim ∧ F.Counted) false Fs := by
  induction Fs with
  | nil => trivial
  | cons F Fs ih =>
    rw [List.forall_mem_cons] at hFs
    refine ⟨⟨⟨rfl, hFs.1⟩, fun F' h => ⟨⟨rfl, ?_⟩, fun _ _ => trivial⟩⟩, fun _ _ => ih hFs.2⟩
    obtain ⟨⟨F₁, changed⟩, hexec, heq⟩ := bind_eq_ok.mp h
    cases heq
    exact hFs.1.deadCodeElim (bind_unreported hexec)

theorem optimizeIR?_plain_eq (hm : ∀ F ∈ m.funcs, F.Counted) :
    optimizeIR? m false n = optimizeIR m false n := by
  have hexec : ∀ (p : Pass) F, p = .deadCodeElim ∧ F.Counted → p.checked n F = p.exec n F := by
    rintro _ F ⟨rfl, hF⟩
    exact hF.checked_eq
  have hfuncs : optimizeFuncs (Pass.checked n) false m.funcs =
      optimizeFuncs (Pass.exec n) false m.funcs := optimizeFuncs_congr hexec (funcsAlong_plain hm)
  exact congrArg (· >>= _) hfuncs

/-- A function is counted if the host gets through it. -/
theorem counted_of_optimizeFuncs {Fs Fs' : List IRFunc}
    (h : optimizeFuncs (Pass.checked n) false Fs = .ok Fs') : ∀ F ∈ Fs, F.Counted := by
  induction Fs generalizing Fs' with
  | nil => exact fun F hF => by cases hF
  | cons F Fs ih =>
    obtain ⟨F', hF', h⟩ := bind_eq_ok.mp h
    obtain ⟨Fs'', hFs'', -⟩ := bind_eq_ok.mp h
    obtain ⟨F₁, hfirst, -⟩ := bind_eq_ok.mp hF'
    obtain ⟨⟨F₂, changed⟩, hexec, -⟩ := bind_eq_ok.mp hfirst
    exact List.forall_mem_cons.mpr ⟨counted_of_ok (bind_unreported hexec), ih hFs''⟩

end Optimizer

/-! ## The compiler -/

section Compiler

variable {S : Sorting} {m : IRModule} {n : Nat}

theorem optimizeIR_steady (m : IRModule) (opt : Bool) :
    Outcome.Steady fun n => optimizeIR m opt n :=
  (optimizeFuncs_steady opt _).bind fun _ => .const _

/-- **A compiler that comes to an assembly does not trap**, with more fuel or with less. -/
theorem compile?_ne_stuck_of_ok {items : List Item} (h : compile? S m n = .ok items) (n' : Nat) :
    compile? S m n' ≠ .stuck := by
  have hsafe : SafeRun S m n := compile?_ne_stuck_iff.mp (by simp [h])
  rw [compile?_eq hsafe] at h
  obtain ⟨M, hM, hitems⟩ := bind_eq_ok.mp h
  obtain ⟨Fs, hFs, -⟩ := bind_eq_ok.mp hM
  obtain ⟨code, hcode, -⟩ := bind_eq_ok.mp hitems
  refine compile?_ne_stuck_iff.mpr ⟨hsafe.folds.of_ok hFs n', fun M' hM' => ?_⟩
  have h₁ := optimizeIR_steady m true (Nat.le_max_left n n') hM
  have h₂ := optimizeIR_steady m true (Nat.le_max_right n n') hM'
  obtain rfl := Outcome.ok.inj (h₁.symm.trans h₂)
  exact OptCodeGen.funcsEmitSafely_of_all (OptCodeGen.emitsSafely_of_ok (hsafe.emits M hM) hcode)

/-- **The compiler comes to an assembly exactly if it never traps**, for modules whose functions are
ordered; and then the assembly is the same with any more fuel. -/
theorem compile?_ends_iff (hord : ∀ F ∈ (inlined m true).funcs, F.Ordered) :
    (∃ n items, ∀ n', n ≤ n' → compile? S m n' = .ok items) ↔ ∀ n, compile? S m n ≠ .stuck := by
  constructor
  · rintro ⟨n, items, h⟩
    exact compile?_ne_stuck_of_ok (h n (Nat.le_refl n))
  intro hne
  obtain ⟨n₁, M, hM⟩ := optimizeIR_total hord
  obtain ⟨n₂, items, hitems⟩ := OptCodeGen.generateAsmOpt_total S M true
  refine ⟨max n₁ n₂, items, fun n' hn => ?_⟩
  rw [compile?_eq (compile?_ne_stuck_iff.mp (hne n'))]
  refine bind_eq_ok.mpr ⟨M, ?_, hitems n' (Nat.le_trans (Nat.le_max_right ..) hn)⟩
  exact optimizeIR_steady m true (Nat.le_trans (Nat.le_max_left ..) hn) hM

end Compiler

end ToyC
