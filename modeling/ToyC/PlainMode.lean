import ToyC.NaiveCorrect
import ToyC.OptimizerSound
import ToyC.SourceNames

/-!
# Without optimizations

Without `-opt` the optimizer does nothing but to drop dead code, twice, and this it does to any
module whose vregs it finds without changing what a call means: what returns returns the same, and
what runs on for ever still does (`optimizeIR_plain`).

What it leaves can be handed to either code generator (`plain_ok`). For this a function that reads
no vreg before it is written must still do so, where some of the writes are gone: they were of vregs
that nothing reads.
-/

namespace ToyC

open Outcome Pipeline

/-! ## What the code generators ask for is kept -/

section Keep

variable {F F' : IRFunc} {p : Inst → Bool}

/-- Dropped instructions that do not write a vreg do not matter for it. -/
theorem liveBefore_filter {insts : List Inst} {live : Nat → Prop} {v : Nat}
    (hp : ∀ inst, p inst = false → inst.dst ≠ some v) (h : liveBefore (insts.filter p) live v) :
    liveBefore insts live v := by
  induction insts with
  | nil => exact h
  | cons inst insts ih =>
    cases hi : p inst with
    | true =>
      rw [List.filter_cons_of_pos hi] at h
      exact h.imp id fun h => ⟨h.1, ih h.2⟩
    | false =>
      rw [List.filter_cons_of_neg (by simp [hi])] at h
      exact .inr ⟨hp inst hi, ih h⟩

/-- **A vreg that is live in what is left was live**, if no write of it is dropped. -/
theorem IRFunc.LiveAt.of_keep {b v : Nat} {rest : List Inst}
    (hp : ∀ inst, p inst = false → inst.dst ≠ some v) (h : (F.keep p).LiveAt b rest v) :
    F.LiveAt b rest v := by
  rw [F.liveAt_iff]
  induction h with
  | read h => exact .inl h
  | pass h _ ih => exact .inr ⟨h, ih hp⟩
  | term h =>
    rw [blockAt_keep] at h
    exact .term h
  | succ hs _ ih =>
    rw [blockAt_keep] at hs ih
    exact .succ hs ((F.liveAt_iff _ _ _).mpr (liveBefore_filter hp (ih hp)))

/-- At the beginning of a block. -/
theorem IRFunc.LiveAt.of_keep_start {b v : Nat} (hp : ∀ inst, p inst = false → inst.dst ≠ some v)
    (h : (F.keep p).LiveAt b ((F.keep p).blockAt b).insts v) :
    F.LiveAt b (F.blockAt b).insts v := by
  have hlive := h.of_keep hp
  rw [blockAt_keep] at hlive
  exact (F.liveAt_iff _ _ _).mpr (liveBefore_filter hp ((F.liveAt_iff _ _ _).mp hlive))

/-- What is live is read somewhere. -/
theorem IRFunc.LiveAt.mem_reads {b v : Nat} {rest : List Inst} (h : F.LiveAt b rest v)
    (hrest : rest ⊆ (F.blockAt b).insts) : v ∈ F.reads := by
  have hlt : ∀ {b : Nat}, (F.blockAt b).insts ≠ [] ∨ (F.blockAt b).termUses ≠ [] →
      b < F.blocks.length := by
    intro b h
    by_contra hge
    rw [IRFunc.blockAt_of_ge hge] at h
    rcases h with h | h <;> exact h rfl
  induction h with
  | read h =>
    have hmem := hrest List.mem_cons_self
    exact uses_subset_reads (blockAt_mem (hlt (.inl (List.ne_nil_of_mem hmem)))) hmem h
  | pass _ _ ih => exact ih fun _ hi => hrest (List.mem_cons_of_mem _ hi)
  | term h => exact termUses_subset_reads (blockAt_mem (hlt (.inr (List.ne_nil_of_mem h)))) h
  | succ _ _ ih => exact ih (List.Subset.refl _)

/-- **Sweeps keep that reads are preceded by writes.** -/
theorem SweptTo.readsWritten (h : SweptTo F F') (hF : F.ReadsWritten) : F'.ReadsWritten := by
  obtain ⟨p, rfl, hdead⟩ := h.kept
  intro v hv
  refine hF v (hv.of_keep_start fun inst hi hd => ?_)
  obtain ⟨-, d, hd', hnot⟩ := isDead_iff.mp (hdead inst hi)
  obtain rfl := Option.some.inj (hd.symm.trans hd')
  exact hnot (hv.mem_reads (List.Subset.refl _))

end Keep

/-! ## Functions that do the same -/

/-- **A function and one that stands for it**: under the same name, and equivalent whatever answers
the calls. -/
structure StandsIn (F F' : IRFunc) : Prop where
  name : F'.name = F.name
  equivalent : ∀ call junk args G, Equivalent F F' call junk args G

section Modules

variable {m m' : IRModule}

theorem find?_standsIn {Fs Fs' : List IRFunc} (h : List.Forall₂ StandsIn Fs Fs') (name : String) :
    (Fs.find? (·.name == name) = none ∧ Fs'.find? (·.name == name) = none) ∨
      ∃ F F', Fs.find? (·.name == name) = some F ∧ Fs'.find? (·.name == name) = some F' ∧
        StandsIn F F' := by
  induction h with
  | nil => exact .inl ⟨rfl, rfl⟩
  | @cons F F' Fs Fs' hF _ ih =>
    rw [List.find?_cons, List.find?_cons, hF.name]
    cases F.name == name with
    | true => exact .inr ⟨F, F', rfl, rfl, hF⟩
    | false => exact ih

theorem names_standsIn {Fs Fs' : List IRFunc} (h : List.Forall₂ StandsIn Fs Fs') :
    Fs'.map (·.name) = Fs.map (·.name) := by
  induction h with
  | nil => rfl
  | cons hF _ ih => rw [List.map_cons, List.map_cons, hF.name, ih]

/-- **The bodies of a call**, in two modules whose functions do the same: what the one answers, so
does the other. -/
theorem IRModule.body_standsIn (h : List.Forall₂ StandsIn m.funcs m'.funcs) (junk : Regs)
    (p : CallArgs) (call : Callee) {x : Outcome CallResult} (hx : x ≠ .timeout) :
    (∃ n, m.body junk p call n = x) ↔ ∃ n, m'.body junk p call n = x := by
  unfold IRModule.body IRModule.find
  rcases find?_standsIn h p.name with ⟨hF, hF'⟩ | ⟨F, F', hF, hF', hsame⟩
  · rw [hF, hF']
  · rw [hF, hF']
    exact (hsame.equivalent call junk p.args p.globals).run x hx

/-- **A module whose functions do the same means the same.** -/
theorem IRModule.limit_standsIn (h : List.Forall₂ StandsIn m.funcs m'.funcs) (junk : Regs) :
    limit (m.body junk) = limit (m'.body junk) := by
  refine limit_congr (m.body_regular junk) (m'.body_regular junk) (fun p n => ?_) fun p n => ?_
  · by_cases hx : m.body junk p (limit (m'.body junk)) n = .timeout
    · exact .inl hx
    · obtain ⟨k, hk⟩ := (IRModule.body_standsIn h junk p _ hx).mp ⟨n, rfl⟩
      rw [← hk]
      exact body_limit (m'.body_regular junk) p k
  · by_cases hx : m'.body junk p (limit (m.body junk)) n = .timeout
    · exact .inl hx
    · obtain ⟨k, hk⟩ := (IRModule.body_standsIn h junk p _ hx).mpr ⟨n, rfl⟩
      rw [← hk]
      exact body_limit (m.body_regular junk) p k

end Modules

/-! ## The optimizer -/

section Plain

variable {m M : IRModule} {n : Nat}

/-- **What the plain optimizer does with a function**: twice, it drops the dead code. -/
theorem runStages_plain_iff {F F' : IRFunc} :
    runStages (Pass.exec n) (stages false) F = .ok F' ↔
      ∃ F₁, deadCodeElim F n = .ok F₁ ∧ deadCodeElim F₁ n = .ok F' := by
  have hpass : ∀ {F F' : IRFunc}, runStage (Pass.exec n) (.pass .deadCodeElim) F = .ok F' ↔
      deadCodeElim F n = .ok F' := by
    intro F F'
    constructor
    · intro h
      obtain ⟨⟨F₁, changed⟩, hexec, heq⟩ := Outcome.bind_eq_ok.mp h
      cases heq
      exact bind_unreported hexec
    · intro h
      refine Outcome.bind_eq_ok.mpr ⟨(F', false), ?_, rfl⟩
      exact Outcome.bind_eq_ok.mpr ⟨F', h, rfl⟩
  constructor
  · intro h
    obtain ⟨F₁, h₁, h⟩ := Outcome.bind_eq_ok.mp h
    obtain ⟨F₂, h₂, heq⟩ := Outcome.bind_eq_ok.mp h
    cases heq
    exact ⟨F₁, hpass.mp h₁, hpass.mp h₂⟩
  · rintro ⟨F₁, h₁, h₂⟩
    exact Outcome.bind_eq_ok.mpr
      ⟨F₁, hpass.mpr h₁, Outcome.bind_eq_ok.mpr ⟨F', hpass.mpr h₂, rfl⟩⟩

theorem SweptTo.trans {F F₁ F' : IRFunc} (h : SweptTo F F₁) (h' : SweptTo F₁ F') :
    SweptTo F F' where
  kept := by
    obtain ⟨p, rfl, hp⟩ := h.kept
    obtain ⟨q, rfl, hq⟩ := h'.kept
    refine ⟨fun inst => p inst && q inst, IRFunc.keep_keep q, fun inst hinst => ?_⟩
    rcases Bool.and_eq_false_iff.mp hinst with hinst | hinst
    · exact isDead_mono IRFunc.reads_keep (hp inst hinst)
    · exact hq inst hinst
  equivalent call junk args G :=
    (h.equivalent call junk args G).trans (h'.equivalent call junk args G)

theorem SweptTo.standsIn {F F' : IRFunc} (h : SweptTo F F') : StandsIn F F' where
  name := by
    obtain ⟨p, rfl, -⟩ := h.kept
    rfl
  equivalent := h.equivalent

/-- **What the plain optimizer makes of a module.** -/
theorem optimizeIR_plain_eq (h : optimizeIR m false n = .ok M) :
    ∃ Fs, M = { m with funcs := Fs } ∧ List.Forall₂ SweptTo m.funcs Fs := by
  obtain ⟨Fs, hFs, heq⟩ := Outcome.bind_eq_ok.mp h
  cases heq
  refine ⟨Fs, rfl, ?_⟩
  clear h
  change optimizeFuncs (Pass.exec n) false m.funcs = .ok Fs at hFs
  generalize m.funcs = Gs at hFs
  induction Gs generalizing Fs with
  | nil =>
    cases hFs
    exact .nil
  | cons F Gs ih =>
    obtain ⟨F', hF', hFs⟩ := Outcome.bind_eq_ok.mp hFs
    obtain ⟨Fs, hGs, heq⟩ := Outcome.bind_eq_ok.mp hFs
    cases heq
    obtain ⟨F₁, h₁, h₂⟩ := runStages_plain_iff.mp hF'
    exact .cons ((deadCodeElim_swept h₁).1.trans (deadCodeElim_swept h₂).1) (ih Fs hGs)

/-- **Without `-opt` the passes end**, for any module. -/
theorem optimizeIR_plain_total (m : IRModule) : ∃ n M, optimizeIR m false n = .ok M := by
  have hends : ∀ F ∈ m.funcs, ∃ n F', runStages (Pass.exec n) (stages false) F = .ok F' := by
    intro F _
    obtain ⟨n₁, F₁, h₁⟩ := deadCodeElim_total F
    obtain ⟨n₂, F₂, h₂⟩ := deadCodeElim_total F₁
    have h₁' := deadCodeElim_steady F (Nat.le_max_left n₁ n₂) h₁
    have h₂' := deadCodeElim_steady F₁ (Nat.le_max_right n₁ n₂) h₂
    exact ⟨max n₁ n₂, F₂, runStages_plain_iff.mpr ⟨F₁, h₁', h₂'⟩⟩
  obtain ⟨n, Fs, hFs⟩ := optimizeFuncs_ends hends
  exact ⟨n, _, Outcome.bind_eq_ok.mpr ⟨Fs, hFs, rfl⟩⟩

/-- **Without `-opt` the optimizer changes no meaning.** It ends for the modules in which every vreg
that is read, and every result that may be dropped, is one of its function, and for no others; and
then a call returns a result behind it if and only if it did, and runs on for ever if and only if it
did. -/
theorem optimizeIR_plain (m : IRModule) :
    ((∃ n M, optimizeIR? m false n = .ok M) ↔ ∀ F ∈ m.funcs, F.Counted) ∧
      ∀ n M, optimizeIR? m false n = .ok M → M.initialGlobals = m.initialGlobals ∧
        ∀ junk p, (∀ r, m.Returns junk p r ↔ M.Returns junk p r) ∧
          (m.Diverges junk p ↔ M.Diverges junk p) := by
  refine ⟨⟨?_, fun hm => ?_⟩, fun n M h => ?_⟩
  · rintro ⟨n, M, h⟩
    obtain ⟨Fs, hFs, -⟩ := bind_eq_ok.mp h
    exact counted_of_optimizeFuncs hFs
  · obtain ⟨n, M, hM⟩ := optimizeIR_plain_total m
    exact ⟨n, M, (optimizeIR?_plain_eq hm).trans hM⟩
  · obtain ⟨Fs, rfl, hswept⟩ := optimizeIR_plain_eq (optimizeIR?_ok h)
    refine ⟨rfl, fun junk p => ?_⟩
    have hlimit : limit (m.body junk) = limit (IRModule.body { m with funcs := Fs } junk) :=
      IRModule.limit_standsIn (hswept.imp fun _ _ => SweptTo.standsIn) junk
    constructor
    · intro r
      rw [m.returns_iff, IRModule.returns_iff, hlimit]
    · rw [m.diverges_iff, IRModule.diverges_iff, hlimit]

end Plain

/-! ## What the code generators are given -/

section Given

open NaiveCodeGen IRGen

variable {m : Module} {m' : AModule} {A : Sema}

/-- **A generated module**, of a source that names no variable without a value, and no two of whose
symbols are the same. -/
theorem generate_ok (h : Sema.analyze m = .ok (m', A)) (hinit : m'.Initialised A)
    (hnames : m.symbols.Nodup) (hname : ∀ n ∈ m.symbols, IsName n) : ModuleOk (generate A m') := by
  have hsymbols := generate_symbols h
  refine ⟨⟨?_, ?_⟩, ?_, fun F hF => ?_⟩
  · rw [← hsymbols] at hnames
    exact (List.nodup_append.mp hnames).2.1
  · rwa [hsymbols]
  · rwa [hsymbols]
  · obtain ⟨hrange, hwritten, hgraph⟩ := generate_func h hinit F hF
    refine ⟨hrange, (generate_params hF).symm, hgraph.ids, fun bb hbb inst hi hop => ?_, hwritten⟩
    exact (generate_closed h).globals F hF inst (List.mem_flatMap.mpr ⟨bb, hbb, hi⟩) hop

/-- **Sweeps leave a function that the generators take.** -/
theorem NaiveCodeGen.FuncOk.swept {m m' : IRModule} {F F' : IRFunc}
    (h : FuncOk m F) (hs : SweptTo F F') (hglobals : m'.globals = m.globals) : FuncOk m' F' := by
  have hwritten := hs.readsWritten h.readsWritten
  obtain ⟨p, rfl, -⟩ := hs.kept
  refine ⟨?_, h.params, ?_, ?_, hwritten⟩
  · refine h.inRange.of_sameFlow IRFunc.sameFlow_keep (Nat.le_refl _) fun b inst hi => ?_
    rw [IRFunc.blockAt_keep] at hi
    exact h.inRange.inst_inRange (List.mem_of_mem_filter hi)
  · unfold IRFunc.keep
    rw [List.map_map, List.length_map]
    exact h.ids
  · intro bb hbb inst hi hop
    obtain ⟨bb₀, hbb₀, rfl⟩ := List.mem_map.mp hbb
    rw [hglobals]
    exact h.gids bb₀ hbb₀ inst (List.mem_of_mem_filter hi) hop

/-- **So does the plain optimizer**, of all of a module. -/
theorem plain_ok {m M : IRModule} {n : Nat} (hm : ModuleOk m) (h : optimizeIR m false n = .ok M) :
    ModuleOk M := by
  obtain ⟨Fs, rfl, hswept⟩ := optimizeIR_plain_eq h
  have hnames : Fs.map (·.name) = m.funcs.map (·.name) :=
    names_standsIn (hswept.imp fun _ _ => SweptTo.standsIn)
  refine ⟨⟨?_, ?_⟩, ?_, fun F' hF' => ?_⟩
  · show (Fs.map (·.name)).Nodup
    rw [hnames]
    exact hm.named.nodup
  · show ∀ n ∈ m.globalNames ++ Fs.map (·.name), IsName n
    rw [hnames]
    exact hm.named.isName
  · show (m.globalNames ++ Fs.map (·.name)).Nodup
    rw [hnames]
    exact hm.distinct
  · obtain ⟨F, hF, hs⟩ := exists_of_forall₂ hswept hF'
    exact (hm.funcs F hF).swept hs rfl

end Given

end ToyC
