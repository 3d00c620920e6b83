import ToyC.OptCorrect
import ToyC.ParserSafe
import ToyC.PassRefs

/-!
# The compiler

`main` runs the text through the lexer, the parser and the semantic analysis, and what they accept
through the generator of the three-address code, the optimizer and one of the two code generators.
Of its arguments it looks for `-opt`, and which code generator it takes is a matter of the
environment.

It ends with a message for every text that it does not accept, and with an assembly for a program
that it accepts, unless it traps (`compile_ends`). And without `-opt` the assembly does what the
source says, whichever generator it is from: each call that returns in the
source is executed by the machine from the call to the return, on a stack that has room for as many
frames as the source has activations at a time (`compile_correct`). So a program that is loaded and
started leaves what its `main` returns in `a0` (`program_correct`). With `-opt` this is so of the
runs in which the passes find what they rely on (`compile_opt_correct`).
-/

namespace ToyC

open Rv32

/-! ## The driver -/

/-- How a phase fails. -/
inductive CompileError where
  | lexer (e : LexError)
  | parser (e : ParseError)
  | sema (msg : String)
  deriving DecidableEq, Repr

/-- The message that is printed, if it is one. -/
def CompileError.message? : CompileError → Option String
  | .lexer (.lexicalError msg) | .parser (.syntaxError msg) | .sema msg => some ("error: " ++ msg)
  | .lexer .fault | .parser .fault => none

/-- **The front end**: the module, and its analysis. -/
def frontEnd (src : List Char) : Except CompileError (Module × AModule × Sema) := do
  let tokens ← (Lexer.tokenize src).mapError .lexer
  let mod ← (Parser.parseModule tokens).mapError .parser
  let (m, A) ← (Sema.analyze mod).mapError .sema
  .ok (mod, m, A)

/-- **The code generator**: the naive one, if the environment asks for it. -/
def generateAsm (S : Sorting) (naive : Bool) (m : IRModule) (opt : Bool) (n : Nat) :
    Outcome (List Item) :=
  if naive then .ok (generateAsmNaive m) else generateAsmOpt? S m opt n

/-- **The back end.** Where the generator names a variable that has no vreg, it writes `-1` for one,
and the passes look that up: what comes of it is not followed. -/
def backEnd (S : Sorting) (naive opt : Bool) (n : Nat) (A : Sema) (m : AModule) :
    Outcome (List Item) :=
  match IRGen.generate? true A m with
  | none => .stuck
  | some m => do
    let m ← optimizeIR? m opt n
    generateAsm S naive m opt n

/-- **The compiler**: `main`, from its arguments and its input to the assembly. -/
def compile (S : Sorting) (naive : Bool) (args : List String) (n : Nat) (src : List Char) :
    Except CompileError (Outcome (List Item)) := do
  let (_, m, A) ← frontEnd src
  .ok (backEnd S naive (args.contains "-opt") n A m)

/-! ## It ends -/

section Ends

variable {m : Module} {m' : AModule} {A : Sema}

/-- **What the front end accepts**, phase by phase. -/
theorem frontEnd_ok {src : List Char} (h : frontEnd src = .ok (m, m', A)) :
    ∃ ts, Lexer.tokenize src = .ok ts ∧ Parser.parseModule ts = .ok m ∧
      Sema.analyze m = .ok (m', A) := by
  unfold frontEnd at h
  cases hts : Lexer.tokenize src with
  | error e =>
    rw [hts] at h
    cases h
  | ok ts =>
    rw [hts] at h
    refine ⟨ts, rfl, ?_⟩
    cases hm : Parser.parseModule ts with
    | error e =>
      change ((Parser.parseModule ts).mapError _ >>= _) = _ at h
      rw [hm] at h
      cases h
    | ok mod =>
      change ((Parser.parseModule ts).mapError _ >>= _) = _ at h
      rw [hm] at h
      change ((Sema.analyze mod).mapError _ >>= _) = _ at h
      cases hA : Sema.analyze mod with
      | error msg =>
        rw [hA] at h
        cases h
      | ok r =>
        rw [hA] at h
        cases h
        exact ⟨rfl, hA⟩

/-- **The front end accepts a text, or has a message.** -/
theorem frontEnd_ends (src : List Char) :
    (∃ r, frontEnd src = .ok r) ∨ ∃ e msg, frontEnd src = .error e ∧ e.message? = some msg := by
  unfold frontEnd
  rcases Lexer.tokenize_ended src with ⟨ts, hts, -⟩ | ⟨msg, hmsg⟩
  · rw [hts]
    change (∃ r, ((Parser.parseModule ts).mapError _ >>= _) = .ok r) ∨
      ∃ e msg, ((Parser.parseModule ts).mapError _ >>= _) = .error e ∧ _
    rcases Parser.parseModule_tokenize hts with ⟨mod, hmod⟩ | ⟨msg, hmsg⟩
    · rw [hmod]
      change (∃ r, ((Sema.analyze mod).mapError _ >>= _) = .ok r) ∨
        ∃ e msg, ((Sema.analyze mod).mapError _ >>= _) = .error e ∧ _
      cases Sema.analyze mod with
      | ok r => exact .inl ⟨_, rfl⟩
      | error msg => exact .inr ⟨_, _, rfl, rfl⟩
    · rw [hmsg]
      exact .inr ⟨_, _, rfl, rfl⟩
  · rw [hmsg]
    exact .inr ⟨_, _, rfl, rfl⟩

/-- **With the optimizing code generator the back end is the compiler whose traps are known.** -/
theorem backEnd_eq_compile? {M₀ : IRModule} (h : Sema.analyze m = .ok (m', A))
    (hgen : IRGen.generate? true A m' = some M₀) (S : Sorting) (n : Nat) :
    backEnd S false true n A m' = compile? S M₀ n := by
  unfold backEnd compile? optimizeIR?
  rw [hgen]
  dsimp only
  rw [optimizeFuncs_checked (generate_inlined_ordered h hgen)]
  cases optimizeFuncs (Pass.exec? n) true (inlined M₀ true).funcs <;> rfl

/-- **When the back end ends.** -/
theorem backEnd_ends_iff {M₀ : IRModule} (h : Sema.analyze m = .ok (m', A))
    (hgen : IRGen.generate? true A m' = some M₀) (S : Sorting) (naive opt : Bool) :
    (∃ n items, ∀ n', n ≤ n' → backEnd S naive opt n' A m' = .ok items) ↔
      (opt = true → M₀.FoldsSafely ∧ (naive = false → ∀ n, compile? S M₀ n ≠ .stuck)) := by
  have hback : ∀ n, backEnd S naive opt n A m' = optimizeIR? M₀ opt n >>= fun M =>
      generateAsm S naive M opt n := by
    intro n
    unfold backEnd
    rw [hgen]
  have hends : (opt = true → M₀.FoldsSafely) → (∀ M n, generateAsm S naive M opt n =
      if naive then .ok (generateAsmNaive M) else generateAsmOpt S M opt n) →
      ∃ n items, ∀ n', n ≤ n' → backEnd S naive opt n' A m' = .ok items := by
    intro hfolds hasm
    obtain ⟨n₁, M, hM⟩ := optimizeIR_generated h hgen opt
    obtain ⟨n₂, items, hitems⟩ := OptCodeGen.generateAsmOpt_total S M opt
    refine ⟨max n₁ n₂, if naive then generateAsmNaive M else items, fun n' hn => ?_⟩
    rw [hback, optimizeIR?_generated h hgen hfolds]
    refine Outcome.bind_eq_ok.mpr ⟨M, ?_, ?_⟩
    · exact optimizeIR_steady M₀ opt (Nat.le_trans (Nat.le_max_left ..) hn) hM
    · rw [hasm, hitems n' (Nat.le_trans (Nat.le_max_right ..) hn)]
      cases naive <;> rfl
  cases opt with
  | false =>
    refine iff_of_true (hends (fun ho => by cases ho) fun M n => ?_) fun ho => by cases ho
    rw [generateAsm, generateAsmOpt?_eq fun ho => by cases ho]
  | true =>
    cases naive with
    | true =>
      refine ⟨fun hex _ => ⟨?_, fun hn => by cases hn⟩, fun hfolds => hends (fun ho => (hfolds ho).1)
        fun _ _ => rfl⟩
      obtain ⟨n, items, hitems⟩ := hex
      obtain ⟨M, hM, -⟩ := Outcome.bind_eq_ok.mp ((hback n).symm.trans (hitems n (Nat.le_refl n)))
      exact (optimizeIR?_ends_iff (generate_inlined_ordered h hgen)).mp ⟨n, M, hM⟩
    | false =>
      have hends : (∃ n items, ∀ n', n ≤ n' → backEnd S false true n' A m' = .ok items) ↔
          ∀ n, compile? S M₀ n ≠ .stuck := by
        simp only [backEnd_eq_compile? h hgen]
        exact compile?_ends_iff (generate_inlined_ordered h hgen)
      exact hends.trans ⟨fun hne _ => ⟨.of_ne_stuck hne, fun _ => hne⟩, fun hne => (hne rfl).2 rfl⟩

/-- **The compiler ends** with a message for every text that it does not accept. For a program that
it accepts, and for which the generator finds a vreg for each variable that is named, it ends with an
assembly exactly if it does not trap; without `-opt` it never does. More fuel changes nothing. That
the stack of the host is deep enough for the nesting of the text is taken for granted. -/
theorem compile_ends (S : Sorting) (naive : Bool) (args : List String) (src : List Char) :
    (∃ e msg, e.message? = some msg ∧ ∀ n, compile S naive args n src = .error e) ∨
      ∃ m m' A, frontEnd src = .ok (m, m', A) ∧ ∀ M₀, IRGen.generate? true A m' = some M₀ →
        ((∃ n items, ∀ n', n ≤ n' → compile S naive args n' src = .ok (.ok items)) ↔
          ("-opt" ∈ args → M₀.FoldsSafely ∧
            (naive = false → ∀ n, compile? S M₀ n ≠ .stuck))) := by
  rcases frontEnd_ends src with ⟨⟨m, m', A⟩, hfront⟩ | ⟨e, msg, hfront, hmsg⟩
  · refine .inr ⟨m, m', A, hfront, fun M₀ hgen => ?_⟩
    obtain ⟨ts, -, -, hA⟩ := frontEnd_ok hfront
    have hcompile : ∀ n, compile S naive args n src =
        .ok (backEnd S naive (args.contains "-opt") n A m') := by
      intro n
      unfold compile
      rw [hfront]
      rfl
    simp only [hcompile, Except.ok.injEq, backEnd_ends_iff hA hgen, List.contains_iff_mem]
  · refine .inl ⟨e, msg, hmsg, fun n => ?_⟩
    unfold compile
    rw [hfront]
    rfl

end Ends

/-- `int g=3;int main(){g=g+2;return g;}`. -/
def counterText : List Char :=
  ['i', 'n', 't', ' ', 'g', '=', '3', ';', 'i', 'n', 't', ' ', 'm', 'a', 'i', 'n', '(', ')', '{',
    'g', '=', 'g', '+', '2', ';', 'r', 'e', 't', 'u', 'r', 'n', ' ', 'g', ';', '}']

/-- The front end accepts it. -/
theorem frontEnd_counter {m : Module} {m' : AModule} {A : Sema}
    (h : frontEnd counterText = .ok (m, m', A)) : m'.Initialised A ∧ m.returnsValues = true := by
  have hall : ∃ r, frontEnd counterText = .ok r ∧ r.2.1.Initialised r.2.2 ∧
      r.1.returnsValues = true := by
    refine ⟨_, rfl, fun fn hfn => ?_, by decide +kernel⟩
    rcases List.mem_cons.mp hfn with heq | hfn
    · cases heq
    · obtain rfl := ATopLevel.func.inj (List.mem_singleton.mp hfn)
      refine ⟨by decide +kernel, fun x _ => ?_⟩
      rcases x with _ | x
      · decide +kernel
      · rfl
  obtain ⟨r, hr, hinit, hvalues⟩ := hall
  obtain rfl := Except.ok.inj (hr.symm.trans h)
  exact ⟨hinit, hvalues⟩

/-- Its assembly with `-opt`. -/
def counterOptItems : List Item :=
  [.data, .globl "g", .p2align 2, .label "g", .word 3, .text, .globl "main", .p2align 1,
    .label "main", .label ".Lmain_0", .instr (.luiHi XReg.t0 "g"),
    .instr (.lwLo XReg.t0 "g" XReg.t0), .instr (.alui .addi XReg.t0 XReg.t0 2),
    .instr (.luiHi XReg.t6 "g"), .instr (.swLo XReg.t0 "g" XReg.t6), .instr (.luiHi XReg.a0 "g"),
    .instr (.lwLo XReg.a0 "g" XReg.a0), .instr .ret]

/-- The compiler comes to an assembly, with `-opt` and the optimizing code generator. -/
theorem counter_ends :
    ∃ n items, ∀ n', n ≤ n' → compile .insertion false ["-opt"] n' counterText = .ok (.ok items) := by
  have hall : ∃ m m' A M₀, frontEnd counterText = .ok (m, m', A) ∧
      IRGen.generate? true A m' = some M₀ ∧ compile? .insertion M₀ 20 = .ok counterOptItems :=
    ⟨_, _, _, _, rfl, rfl, by decide +kernel⟩
  obtain ⟨m, m', A, M₀, hfront, hgen, hitems⟩ := hall
  rcases compile_ends .insertion false ["-opt"] counterText with
    ⟨e, msg, -, herr⟩ | ⟨m₁, m₁', A₁, hfront₁, hends⟩
  · cases herr 0
  · cases hfront.symm.trans hfront₁
    have hne := compile?_ne_stuck_of_ok hitems
    exact (hends M₀ hgen).mpr fun _ => ⟨.of_ne_stuck hne, fun _ => hne⟩

/-! ## A compilation -/

/-- **What the compiler comes to on the way**, if it gets to an assembly. -/
structure Compilation (S : Sorting) (naive opt : Bool) (n : Nat) (src : List Char) where
  mod : Module
  analyzed : AModule
  sema : Sema
  ir : IRModule
  items : List Item
  front : frontEnd src = .ok (mod, analyzed, sema)
  lowered : IRGen.generate? true sema analyzed = some (IRGen.generate sema analyzed)
  optimized : optimizeIR? (IRGen.generate sema analyzed) opt n = .ok ir
  generated : generateAsm S naive ir opt n = .ok items

namespace Compilation

variable {S : Sorting} {naive opt : Bool} {n : Nat} {src : List Char}

/-- The optimizer has done what the passes say. -/
theorem optimizes (c : Compilation S naive opt n src) :
    optimizeIR (IRGen.generate c.sema c.analyzed) opt n = .ok c.ir := optimizeIR?_ok c.optimized

/-- The largest frame of a function. -/
def frameBytes (c : Compilation S naive opt n src) : Nat :=
  if naive then NaiveCodeGen.maxFrame c.ir else OptCodeGen.maxFrame S c.ir n

/-- **What the compiler leaves to the programmer**: declarations stand in blocks, no variable is read
without a value, and no two symbols of the program are the same. The optimizing code generator may
also lose the eighth argument of a function, where its frame is too large. -/
structure Proper (c : Compilation S naive opt n src) : Prop where
  decls : c.mod.declsInBlocks = true
  initialised : c.analyzed.Initialised c.sema
  symbols : c.mod.symbols.Nodup
  eighths : naive = false → ∀ F ∈ c.ir.funcs, ∀ A, allocateRegisters S F n = .ok A →
    OptCodeGen.EighthSafe (OptCodeGen.frameOf A F) A F

/-- **What the assembler and the linker make of the output.** -/
structure LinkedAs (c : Compilation S naive opt n src) (img : Image) : Prop where
  items : img.items = c.items
  linked : img.Linked
  globals : NaiveCodeGen.GlobalsPlaced c.ir img

end Compilation

/-! ## Bounded recursion -/

/-- **A call of the source that returns with at most so many activations at a time.** -/
def Module.ReturnsWithin (m : Module) : Nat → CallArgs → CallResult → Prop := Outcome.Within m.body

theorem Module.returns_iff_within (m : Module) (p : CallArgs) (r : CallResult) :
    m.Returns p r ↔ ∃ d, m.ReturnsWithin d p r := by
  rw [m.returns_iff]
  exact Outcome.limit_eq_ok_iff_within m.body_regular

theorem IRModule.returnsWithin_iff (m : IRModule) (junk : Regs) (d : Nat) (p : CallArgs)
    (r : CallResult) : m.ReturnsWithin junk d p r ↔ Outcome.Within (m.body junk) d p r := by
  induction d generalizing p r with
  | zero => exact Iff.rfl
  | succ d ih =>
    unfold IRModule.ReturnsWithin Outcome.Within
    simp only [ih]

section Within

variable {m : Module} {m' : AModule} {A : Sema}

/-- The code of a call has as many activations as its source. -/
theorem IRGen.generate_within (h : Sema.analyze m = .ok (m', A)) (hd : m.declsInBlocks = true)
    (junk : Regs) {d : Nat} {p : CallArgs} {r : CallResult} (hr : m.ReturnsWithin d p r) :
    (generate A m').ReturnsWithin junk d p r := by
  rw [IRModule.returnsWithin_iff]
  refine Outcome.Within.of_body (fun p call n r hbody => ?_) hr
  obtain ⟨k, hk⟩ := ((generate_body h hd junk).2 p call n).2 (by simp [hbody])
  exact ⟨k, hk.trans hbody⟩

/-- So has the code behind the plain optimizer. -/
theorem plain_within {m M : IRModule} {n : Nat} (h : optimizeIR m false n = .ok M) (junk : Regs)
    {d : Nat} {p : CallArgs} {r : CallResult} (hr : m.ReturnsWithin junk d p r) :
    M.ReturnsWithin junk d p r := by
  obtain ⟨Fs, rfl, hswept⟩ := optimizeIR_plain_eq h
  rw [IRModule.returnsWithin_iff] at hr ⊢
  refine hr.of_body fun p call n r hbody => ?_
  exact (IRModule.body_standsIn (hswept.imp fun _ _ => SweptTo.standsIn) junk p call (by simp)).mp
    ⟨n, hbody⟩

end Within

/-! ## What the generators find -/

namespace Compilation

open NaiveCodeGen (AtCall AfterCall ModuleOk)

variable {S : Sorting} {naive opt : Bool} {n : Nat} {src : List Char} {junk : Regs} {d : Nat}
  {p : CallArgs} {r : CallResult} {img : Image} {s : State}

/-- **A call of the code that returns is executed**, whichever generator the assembly is from. -/
theorem afterCall_of_given (c : Compilation S naive opt n src) (hc : c.Proper) (hok : ModuleOk c.ir)
    (hnodup : ∀ F ∈ c.ir.funcs, F.paramRegs.Nodup) (himg : c.LinkedAs img)
    (hdiv : opt = true → c.ir.DivisionsOk junk p) (hr : c.ir.ReturnsWithin junk d p r)
    (hs : AtCall c.ir img (d * c.frameBytes) p s) :
    ∃ s', img.Steps s s' ∧ AfterCall c.ir img (d * c.frameBytes) r s s' := by
  have hgen := c.generated
  unfold generateAsm at hgen
  unfold frameBytes at hs ⊢
  cases naive with
  | true =>
    have hitems : img.items = generateAsmNaive c.ir := by
      rw [himg.items]
      exact (Outcome.ok.inj hgen).symm
    exact NaiveCodeGen.afterCall_of_returnsWithin hok hitems himg.linked himg.globals hr hs
  | false =>
    have hasm : OptCodeGen.Assembled S c.ir opt n img := by
      refine ⟨hok, fun F hF => ⟨hnodup F hF, hc.eighths rfl F hF⟩, ?_, himg.linked, himg.globals⟩
      rw [himg.items]
      exact (generateAsmOpt?_ok hgen).1
    exact hasm.afterCall_of_returnsWithin hdiv .root hr hs

/-! ## Without `-opt` -/

/-- **What the code generator is given** without `-opt`. -/
theorem plain_given (c : Compilation S naive false n src) (hc : c.Proper) :
    ModuleOk c.ir ∧ ∀ F ∈ c.ir.funcs, F.paramRegs.Nodup := by
  obtain ⟨ts, hts, hmod, hA⟩ := frontEnd_ok c.front
  have hok := generate_ok hA hc.initialised hc.symbols (parseModule_isName hts hmod)
  refine ⟨plain_ok hok c.optimizes, fun F' hF' => ?_⟩
  obtain ⟨Fs, heq, hswept⟩ := optimizeIR_plain_eq c.optimizes
  rw [heq] at hF'
  obtain ⟨F, hF, hs⟩ := exists_of_forall₂ hswept hF'
  have hparams : F'.paramRegs = F.paramRegs := by
    obtain ⟨p, rfl, -⟩ := hs.kept
    rfl
  rw [hparams]
  exact generate_params_nodup hF

/-- A call of the source that returns is executed. -/
theorem afterCall_of_returnsWithin (c : Compilation S naive false n src) (hc : c.Proper)
    (himg : c.LinkedAs img) (hr : c.mod.ReturnsWithin d p r)
    (hs : AtCall c.ir img (d * c.frameBytes) p s) :
    ∃ s', img.Steps s s' ∧ AfterCall c.ir img (d * c.frameBytes) r s s' := by
  obtain ⟨ts, -, -, hA⟩ := frontEnd_ok c.front
  obtain ⟨hok, hnodup⟩ := c.plain_given hc
  have hwithin := plain_within c.optimizes (fun _ => 0) (IRGen.generate_within hA hc.decls _ hr)
  exact c.afterCall_of_given hc hok hnodup himg (fun h => (by cases h)) hwithin hs

/-- **The compiler is correct** without `-opt`, with either code generator. Whenever a call of the
source returns, the machine executes the assembly from any call of the function to the return, with
the returned value in `a0`, the globals as they should be, and the registers of the caller as they
were. The stack must have room for as many frames as the source has activations at a time. -/
theorem compile_correct (c : Compilation S naive false n src) (hc : c.Proper)
    (himg : c.LinkedAs img) :
    (∀ p r, c.mod.Returns p r ↔ ∃ d, c.mod.ReturnsWithin d p r) ∧
      ∀ d p r, c.mod.ReturnsWithin d p r → ∀ s, AtCall c.ir img (d * c.frameBytes) p s →
        ∃ s', img.Steps s s' ∧ AfterCall c.ir img (d * c.frameBytes) r s s' :=
  ⟨c.mod.returns_iff_within, fun _ _ _ hr _ hs => c.afterCall_of_returnsWithin hc himg hr hs⟩

/-! ## With `-opt` -/

/-- **What the code generator is given** with `-opt`: the optimizer leaves everything in order but
that a vreg is written before it is read. -/
theorem opt_given (c : Compilation S naive opt n src) (hc : c.Proper)
    (hwritten : ∀ F ∈ c.ir.funcs, F.ReadsWritten) :
    ModuleOk c.ir ∧ ∀ F ∈ c.ir.funcs, F.paramRegs.Nodup := by
  obtain ⟨ts, hts, hmod, hA⟩ := frontEnd_ok c.front
  obtain ⟨hsymbols, hclosed, hfuncs⟩ := optimizeIR_accepted hA c.lowered c.optimizes
  have hnodup : (c.ir.globalNames ++ c.ir.funcNames).Nodup := hsymbols ▸ hc.symbols
  refine ⟨⟨⟨(List.nodup_append.mp hnodup).2.1, ?_⟩, hnodup, fun F hF => ?_⟩, fun F hF =>
    (hfuncs F hF).2.2⟩
  · rw [hsymbols]
    exact parseModule_isName hts hmod
  · obtain ⟨hord, hparams, -⟩ := hfuncs F hF
    refine ⟨hord.inRange, hparams.symm, hord.ids, fun bb hbb inst hi hop => ?_, hwritten F hF⟩
    exact hclosed.globals F hF inst (List.mem_flatMap.mpr ⟨bb, hbb, hi⟩) hop

/-- A call that returns in the source returns behind the passes, where they are justified. -/
theorem returns_of_justified (c : Compilation S naive true n src) (hc : c.Proper)
    (hjust : (IRGen.generate c.sema c.analyzed).PassesJustified n junk p)
    (h : c.mod.Returns p r) : c.ir.Returns junk p r := by
  obtain ⟨ts, -, -, hA⟩ := frontEnd_ok c.front
  rw [c.mod.returns_iff, IRGen.generate_limit hA hc.decls junk] at h
  exact returns_of_optimizeIR hA c.lowered c.optimizes hjust ((IRModule.returns_iff _ _ _ _).mpr h)

/-- **The compiler is correct with `-opt`, in the runs its passes are right about.** Where each pass
finds what it relies on in the activations of a call, the marks of the divisions hold in them, and
the passes leave no vreg that is read before it is written, a call that returns in the source is
executed by the machine from the call to the return. The stack must have room for as many frames as
the optimized code has activations at a time. -/
theorem compile_opt_correct (c : Compilation S naive true n src) (hc : c.Proper)
    (hwritten : ∀ F ∈ c.ir.funcs, F.ReadsWritten) (himg : c.LinkedAs img)
    (hjust : (IRGen.generate c.sema c.analyzed).PassesJustified n junk p)
    (hdiv : c.ir.DivisionsOk junk p) (h : c.mod.Returns p r) :
    (∃ d, c.ir.ReturnsWithin junk d p r) ∧
      ∀ d, c.ir.ReturnsWithin junk d p r → ∀ s, AtCall c.ir img (d * c.frameBytes) p s →
        ∃ s', img.Steps s s' ∧ AfterCall c.ir img (d * c.frameBytes) r s s' := by
  obtain ⟨hok, hnodup⟩ := c.opt_given hc hwritten
  refine ⟨?_, fun d hd s hs => c.afterCall_of_given hc hok hnodup himg (fun _ => hdiv) hd hs⟩
  exact (c.ir.returns_iff_within junk p r).mp (c.returns_of_justified hc hjust h)

end Compilation

/-! ## A program that is started -/

/-- **What the loader does with the data section**: the word behind a label is at its address. -/
def Loaded (img : Image) (mem : BitVec 32 → BitVec 32) : Prop :=
  ∀ i l w, img.items[i]? = some (.label l) → img.items[i + 1]? = some (.word w) →
    mem (img.sym l) = w

/-- The globals have their initial values when the program is loaded. -/
theorem holdsGlobals_of_loaded {m : IRModule} {img : Image} {mem : BitVec 32 → BitVec 32}
    {code : List Item} (hitems : img.items = emitData m ++ code) (h : Loaded img mem) :
    NaiveCodeGen.HoldsGlobals m img m.initialGlobals mem := by
  intro gid hgid
  obtain ⟨gs, g, gs', hglobals, hlen⟩ :
      ∃ gs g gs', m.globals = gs ++ g :: gs' ∧ gs.length = gid :=
    ⟨m.globals.take gid, m.globals[gid], m.globals.drop (gid + 1), by simp, by simp; omega⟩
  have hget : m.globals.getD gid {} = g := by simp [hglobals, ← hlen]
  obtain ⟨before, after, hat⟩ :
      ∃ before after, img.items = before ++ .label g.name :: .word g.init :: after := by
    let entry (g : IRGlobal) : List Item :=
      [.globl g.name, .p2align 2, .label g.name, .word g.init]
    refine ⟨.data :: gs.flatMap entry ++ [.globl g.name, .p2align 2], gs'.flatMap entry ++ code, ?_⟩
    have hne : m.globals.isEmpty = false := by simp [hglobals]
    rw [hitems, emitData, hne, if_neg Bool.false_ne_true, hglobals, List.flatMap_append,
      List.flatMap_cons]
    simp [entry]
  unfold NaiveCodeGen.globalAddr IRModule.globalName IRModule.initialGlobals
  rw [hget]
  exact h before.length g.name g.init (by simp [hat]) (by simp [hat])

/-- **The function that is started** takes no arguments and returns a value. -/
theorem registerItems_main {items : List TopLevel} :
    ∀ {S S' : Sema} {index : Nat} {regs : List Sema.Registered},
      Sema.registerItems S index items = .ok (regs, S') →
      ∀ fn, .func fn ∈ items → fn.name = "main" → fn.returnsVoid = false ∧ fn.params = [] := by
  induction items with
  | nil => exact fun _ fn hfn => by cases hfn
  | cons item items ih =>
    intro S S' index regs h fn hfn hmain
    cases item with
    | global g =>
      simp only [Sema.registerItems, bind_eq_ok, Prod.exists] at h
      obtain ⟨g', S₁, -, regs₁, S₂, hitems, -⟩ := h
      rcases List.mem_cons.mp hfn with heq | hfn
      · cases heq
      · exact ih hitems fn hfn hmain
    | func fn' =>
      simp only [Sema.registerItems, bind_eq_ok, Prod.exists] at h
      obtain ⟨S₁, hf, regs₁, S₂, hitems, -⟩ := h
      rcases List.mem_cons.mp hfn with heq | hfn
      · cases heq
        unfold Sema.registerFunc at hf
        split at hf
        · cases hf
        · split at hf
          · cases hf
          · rename_i hnot
            simpa [hmain] using hnot
      · exact ih hitems fn hfn hmain

theorem analyze_main {m : Module} {m' : AModule} {A : Sema} (h : Sema.analyze m = .ok (m', A)) :
    ∃ fn, m.find "main" = some fn ∧ fn.returnsVoid = false ∧ fn.params = [] := by
  simp only [Sema.analyze, bind_eq_ok, Prod.exists] at h
  obtain ⟨regs, S, hregs, h⟩ := h
  split at h
  · cases h
  · rename_i hsome
    obtain ⟨hof, htable⟩ := Sema.registerItems_table Sema.itemTable_nil hregs
    obtain ⟨r, hr⟩ : ∃ r, S.funcs.lookup "main" = some r := by
      cases hr : S.funcs.lookup "main" with
      | none => simp [hr] at hsome
      | some r => exact ⟨r, rfl⟩
    obtain ⟨fn, hfn, hname, -⟩ := htable.funcs_sound hr
    have hmem : .func fn ∈ m.items :=
      List.mem_of_getElem? ((Sema.registered_func_iff hof r.index fn).mpr hfn)
    cases hfind : m.find "main" with
    | none =>
      rw [Module.find, List.findSome?_eq_none_iff] at hfind
      have hnone := hfind _ hmem
      simp [hname] at hnone
    | some fn' =>
      obtain ⟨item, hitem, heq⟩ := List.exists_of_findSome?_eq_some hfind
      cases item with
      | global g => cases heq
      | func fn₁ =>
        obtain ⟨hname', heq⟩ := Option.ite_none_right_eq_some.mp heq
        cases heq
        exact ⟨fn', rfl, registerItems_main hregs fn' hitem (by simpa using hname')⟩

namespace Compilation

open NaiveCodeGen (AtCall GlobalsApart HoldsGlobals)

variable {S : Sorting} {naive : Bool} {n : Nat} {src : List Char}

/-- **A program that is loaded and started**: in front of `main`, with so many bytes of stack, which
the globals are not in, and an address to return to. -/
structure Started (c : Compilation S naive false n src) (img : Image) (space : Nat) (s : State) :
    Prop where
  loaded : Loaded img s.data.mem
  pc : img.target "main" = some s.pc
  aligned : 16 ∣ (s.data.get XReg.sp).toNat
  room : space ≤ (s.data.get XReg.sp).toNat
  apart : GlobalsApart c.ir img ((s.data.get XReg.sp).toNat - space) (s.data.get XReg.sp).toNat
  ra : (img.itemAt (s.data.get XReg.ra)).isSome

/-- The assembly begins with the data. -/
theorem items_eq (c : Compilation S naive false n src) : ∃ code, c.items = emitData c.ir ++ code := by
  have h := c.generated
  unfold generateAsm at h
  cases naive with
  | true =>
    rw [← Outcome.ok.inj h]
    exact ⟨_, List.append_assoc ..⟩
  | false =>
    obtain ⟨As, -, hitems⟩ := OptCodeGen.generateAsmOpt_eq (generateAsmOpt?_ok h).1
    exact ⟨_, hitems.trans (List.append_assoc ..)⟩

/-- The code begins with the globals of the source. -/
theorem initialGlobals (c : Compilation S naive false n src) (hd : c.mod.declsInBlocks = true) :
    c.ir.initialGlobals = c.mod.initialGlobals := by
  obtain ⟨ts, -, -, hA⟩ := frontEnd_ok c.front
  obtain ⟨Fs, heq, -⟩ := optimizeIR_plain_eq c.optimizes
  rw [heq]
  exact (IRGen.generate_body hA hd fun _ => 0).1

/-- A program that is started is called. -/
theorem Started.atCall {c : Compilation S naive false n src} {img : Image} {space : Nat} {s : State}
    (h : c.Started img space s) (hd : c.mod.declsInBlocks = true) (hitems : img.items = c.items) :
    AtCall c.ir img space ⟨"main", [], c.mod.initialGlobals⟩ s := by
  obtain ⟨code, hcode⟩ := c.items_eq
  refine ⟨h.pc, h.aligned, h.room, ?_, h.apart, ?_, ?_, h.ra⟩
  · have := (s.data.get XReg.sp).isLt
    simp only [List.length_nil]
    omega
  · intro j v hj
    cases hj
  · rw [← c.initialGlobals hd]
    exact holdsGlobals_of_loaded (hitems.trans hcode) h.loaded

/-- **A compiled program does what its source says**, without `-opt` and with either code generator.
In the source its `main` runs on for ever, or it returns a value. And where it returns a value, a
program that is started, with as many frames of stack as the source has activations at a time,
returns as well, with this value in `a0` and with the globals as the source leaves them. -/
theorem program_correct (c : Compilation S naive false n src) (hc : c.Proper)
    (hret : c.mod.returnsValues = true) {img : Image} (himg : c.LinkedAs img) :
    (c.mod.Diverges ⟨"main", [], c.mod.initialGlobals⟩ ∨
        ∃ d v G, c.mod.ReturnsWithin d ⟨"main", [], c.mod.initialGlobals⟩ (some v, G)) ∧
      ∀ d v G, c.mod.ReturnsWithin d ⟨"main", [], c.mod.initialGlobals⟩ (some v, G) →
        ∀ s, c.Started img (d * c.frameBytes) s → ∃ s', img.Steps s s' ∧
          img.itemAt (s.data.get XReg.ra) = some s'.pc ∧ s'.data.get XReg.a0 = v ∧
          HoldsGlobals c.ir img G s'.data.mem := by
  constructor
  · obtain ⟨ts, -, -, hA⟩ := frontEnd_ok c.front
    obtain ⟨fn, hfind, hvoid, hparams⟩ := analyze_main hA
    obtain ⟨hne, hvalue⟩ := IRGen.analyze_answers hA hc.decls hret
      (p := ⟨"main", [], c.mod.initialGlobals⟩) hfind (by rw [hparams]; rfl)
    cases hx : Outcome.limit c.mod.body ⟨"main", [], c.mod.initialGlobals⟩ with
    | timeout => exact .inl ((c.mod.diverges_iff _).mpr hx)
    | stuck => exact absurd hx hne
    | ok r =>
      obtain ⟨v, hv⟩ := Option.ne_none_iff_exists'.mp (hvalue r hx hvoid)
      obtain ⟨value, G⟩ := r
      cases hv
      obtain ⟨d, hd⟩ := (c.mod.returns_iff_within _ _).mp ((c.mod.returns_iff _ _).mpr hx)
      exact .inr ⟨d, v, G, hd⟩
  · intro d v G hd s hs
    obtain ⟨s', hsteps, hafter⟩ :=
      c.afterCall_of_returnsWithin hc himg hd (hs.atCall hc.decls himg.items)
    exact ⟨s', hsteps, hafter.pc, hafter.value v rfl, hafter.globals⟩

/-- **An image without gaps**: every item takes four bytes, from the address 0 on. -/
def flatImage (items : List Item) (sym : String → BitVec 32) : Image where
  items := items
  addr i := BitVec.ofNat 32 (4 * i)
  itemAt a := some (a.toNat / 4)
  sym := sym

theorem flatImage_linked {items : List Item} (sym : String → BitVec 32)
    (h : items.length < 2 ^ 30) : (flatImage items sym).Linked := by
  intro i l hi
  have hlt : i < items.length := (List.getElem?_eq_some_iff.mp hi).choose
  show some ((BitVec.ofNat 32 (4 * (i + 1))).toNat / 4) = some (i + 1)
  rw [BitVec.toNat_ofNat, Nat.mod_eq_of_lt (by omega)]
  congr 1
  omega

/-- The assembly of `counterText`. -/
def counterItems : List Item :=
  [.data, .globl "g", .p2align 2, .label "g", .word 3, .text, .globl "main", .p2align 1,
    .label "main", .instr (.alui .addi XReg.sp XReg.sp (-16)), .instr (.sw XReg.ra 12 XReg.sp),
    .label ".Lmain_0", .instr (.luiHi XReg.t0 "g"), .instr (.lwLo XReg.t0 "g" XReg.t0),
    .instr (.sw XReg.t0 0 XReg.sp), .instr (.lw XReg.t0 0 XReg.sp), .instr (.li XReg.t1 2),
    .instr (.alu .add XReg.t0 XReg.t0 XReg.t1), .instr (.sw XReg.t0 4 XReg.sp),
    .instr (.lw XReg.t0 4 XReg.sp), .instr (.luiHi XReg.t1 "g"),
    .instr (.swLo XReg.t0 "g" XReg.t1), .instr (.luiHi XReg.t0 "g"),
    .instr (.lwLo XReg.t0 "g" XReg.t0), .instr (.sw XReg.t0 8 XReg.sp),
    .instr (.lw XReg.a0 8 XReg.sp), .instr (.lw XReg.ra 12 XReg.sp),
    .instr (.alui .addi XReg.sp XReg.sp 16), .instr .ret]

/-- Its image, with the global at 256. -/
def counterImage : Image := flatImage counterItems fun _ => 256#32

/-- The machine in front of its `main`, with a stack that ends at 4096. -/
def counterState : State where
  pc := 8
  data := {
    regs := fun x => if x = XReg.sp then 4096#32 else 0#32
    mem := fun a => if a = 256#32 then 3#32 else 0#32 }

/-- It is compiled without `-opt`, by the naive code generator. -/
theorem counter_compilation : ∃ c : Compilation .insertion true false 9 counterText,
    c.Proper ∧ c.mod.returnsValues = true ∧ c.LinkedAs counterImage ∧
      c.mod.ReturnsWithin 1 ⟨"main", [], c.mod.initialGlobals⟩ (some 5, c.mod.initialGlobals.set 0 5) ∧
      c.Started counterImage (1 * c.frameBytes) counterState ∧
      NaiveCodeGen.globalAddr c.ir counterImage 0 = 256#32 ∧ 0 < c.ir.globals.length := by
  refine ⟨⟨_, _, _, _, _, rfl, rfl, rfl, rfl⟩, ⟨by decide +kernel, (frontEnd_counter rfl).1,
    by decide +kernel, fun h => (by cases h)⟩, (frontEnd_counter rfl).2, ⟨rfl, ?_, ?_⟩, ?_, ?_, rfl,
    Nat.one_pos⟩
  · exact flatImage_linked _ (by decide)
  · refine ⟨fun _ _ => show (256#32).toNat % 4 = 0 from rfl, fun gid hgid gid' hgid' hne => ?_⟩
    have hgid : gid < 1 := hgid
    have hgid' : gid' < 1 := hgid'
    omega
  · exact ⟨fun _ => .timeout, 9, fun _ _ h => (by cases h), rfl⟩
  · refine ⟨fun i l w hl hw => ?_, by decide +kernel, by decide, by decide, fun gid _ => ?_, rfl⟩
    · rcases i with _ | _ | _ | _ | i
      iterate 3 cases hw
      · cases hw
        rfl
      · have hmem : .word w ∈ counterItems.drop 5 := List.mem_of_getElem? (i := i) (by
          rw [List.getElem?_drop, Nat.add_comm]
          exact hw)
        simp [counterItems] at hmem
    · exact .inl (show (256#32).toNat < _ by decide)

/-- It returns 5, and gives the stack back. -/
theorem counter_correct : ∃ s', counterImage.Steps counterState s' ∧
    s'.data.get XReg.a0 = 5#32 ∧ s'.data.get XReg.sp = 4096#32 := by
  obtain ⟨c, hc, -, himg, hret, hs, -, -⟩ := counter_compilation
  have hat := hs.atCall hc.decls himg.items
  obtain ⟨s', hsteps, hafter⟩ := (compile_correct c hc himg).2 1 _ _ hret counterState hat
  exact ⟨s', hsteps, hafter.value 5#32 rfl, hafter.regs XReg.sp (.inl rfl)⟩

/-- Its global is 5 at the end. -/
theorem counter_program : ∃ s', counterImage.Steps counterState s' ∧
    s'.data.get XReg.a0 = 5#32 ∧ s'.data.mem 256#32 = 5#32 := by
  obtain ⟨c, hc, hvalues, himg, hret, hs, haddr, hglobals⟩ := counter_compilation
  obtain ⟨s', hsteps, -, ha0, hmem⟩ := (program_correct c hc hvalues himg).2 1 _ _ hret _ hs
  refine ⟨s', hsteps, ha0, ?_⟩
  rw [← haddr]
  exact hmem 0 hglobals

/-- `int main(){int a=5;int b=a;return b;}`. -/
def copiesText : List Char :=
  ['i', 'n', 't', ' ', 'm', 'a', 'i', 'n', '(', ')', '{', 'i', 'n', 't', ' ', 'a', '=', '5', ';',
    'i', 'n', 't', ' ', 'b', '=', 'a', ';', 'r', 'e', 't', 'u', 'r', 'n', ' ', 'b', ';', '}']

/-- Its assembly with `-opt`, and the image of it. -/
def copiesImage : Image :=
  flatImage [.text, .globl "main", .p2align 1, .label "main", .label ".Lmain_0",
    .instr (.li XReg.a0 5), .instr .ret] fun _ => 0#32

/-- It is compiled with `-opt`, by the optimizing code generator. -/
theorem copies_compilation : ∃ c : Compilation .insertion false true 20 copiesText,
    c.Proper ∧ c.LinkedAs copiesImage ∧
      IRGen.generate c.sema c.analyzed = { funcs := copiesFuncs.take 1 } ∧
      c.ir = { funcs := [mainFunc [] (.imm 5)] } ∧ c.frameBytes = 0 ∧
      c.mod.Returns ⟨"main", [], fun _ => 0⟩ (some 5, fun _ => 0) := by
  refine ⟨⟨_, _, _, { funcs := [mainFunc [] (.imm 5)] }, copiesImage.items, rfl, rfl,
    by decide +kernel, by decide +kernel⟩, ⟨by decide +kernel, fun fn hfn => ?_, by decide +kernel,
    fun _ F hF A _ p hp => ?_⟩, ⟨rfl, flatImage_linked _ (by decide), ?_⟩, by decide +kernel, rfl,
    by decide +kernel, ⟨9, rfl⟩⟩
  · obtain rfl := ATopLevel.func.inj (List.mem_singleton.mp hfn)
    refine ⟨by decide +kernel, fun x _ => ?_⟩
    rcases x with _ | _ | x
    · decide +kernel
    · decide +kernel
    · rfl
  · obtain rfl := List.mem_singleton.mp hF
    cases hp
  · exact ⟨fun gid hgid => absurd hgid (Nat.not_lt_zero gid), fun gid hgid => absurd hgid
      (Nat.not_lt_zero gid)⟩

/-- The machine returns what the copies are of. -/
theorem copies_correct : ∃ s', copiesImage.Steps
      ⟨3, ⟨fun x => if x = XReg.sp then 4096#32 else 0#32, fun _ => 0#32⟩⟩ s' ∧
    s'.data.get XReg.a0 = 5#32 := by
  obtain ⟨c, hc, himg, hgen, hir, hframe, hreturns⟩ := copies_compilation
  have hjust : (IRGen.generate c.sema c.analyzed).PassesJustified 20 (fun _ => 7)
      ⟨"main", [], fun _ => 0⟩ := by
    rw [hgen]
    exact copies_passesJustified
  have hdiv : c.ir.DivisionsOk (fun _ => 7) ⟨"main", [], fun _ => 0⟩ := by
    rw [hir]
    refine divisionsOk_of_insts fun F hF inst hi => ?_
    obtain rfl := List.mem_singleton.mp hF
    cases hi
  have hwritten : ∀ F ∈ c.ir.funcs, F.ReadsWritten := by
    rw [hir]
    intro F hF
    obtain rfl := List.mem_singleton.mp hF
    exact IRFunc.readsWritten_of_bound (fun _ => []) (by decide) (by decide) (by decide)
  obtain ⟨⟨d, hd⟩, hrun⟩ := compile_opt_correct c hc hwritten himg hjust hdiv hreturns
  have hat : NaiveCodeGen.AtCall c.ir copiesImage (d * c.frameBytes) ⟨"main", [], fun _ => 0⟩
      ⟨3, ⟨fun x => if x = XReg.sp then 4096#32 else 0#32, fun _ => 0#32⟩⟩ := by
    rw [hframe, hir]
    refine ⟨by decide +kernel, by decide, Nat.zero_le _, by decide, ?_, ?_, ?_, rfl⟩
    · exact fun gid hgid => absurd hgid (Nat.not_lt_zero gid)
    · intro j v hj
      cases hj
    · exact fun gid hgid => absurd hgid (Nat.not_lt_zero gid)
  obtain ⟨s', hsteps, hafter⟩ := hrun d hd _ hat
  exact ⟨s', hsteps, hafter.value 5#32 rfl⟩

end Compilation

end ToyC
