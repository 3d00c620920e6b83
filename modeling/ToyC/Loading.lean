import ToyC.Compiler
import ToyC.Encoding

/-!
# From the text to a running program

That the compiler is correct is said of an image of its assembly, and of a machine that is started
with it. Here is that there are such. The assembler takes what the compiler prints if and only if
no two symbols of the program are the same (`assembles_iff`). What it takes is laid out item after
item, and if this leaves room for a stack, it is loaded and started, and returns what `main` returns
in the source (`loaded_correct`).
-/

namespace ToyC

open Rv32

/-! ## What is linked -/

/-- The name of a global. -/
theorem IRModule.globalNames_getElem? {m : IRModule} {gid : Nat} (h : gid < m.globals.length) :
    m.globalNames[gid]? = some (m.globalName gid) := by
  simp [IRModule.globalName, IRModule.globalNames, h]

/-- A function of a module is a symbol of it. -/
theorem Module.mem_symbols_of_find {m : Module} {name : String} {fn : FuncDef}
    (h : m.find name = some fn) : name ∈ m.symbols := by
  obtain ⟨item, hitem, heq⟩ := List.exists_of_findSome?_eq_some h
  cases item with
  | global g => cases heq
  | func fn' =>
    obtain ⟨hname, -⟩ := Option.ite_none_right_eq_some.mp heq
    have hname : fn'.name = name := by simpa using hname
    exact List.mem_append_right _ (List.mem_filterMap.mpr ⟨_, hitem, congrArg some hname⟩)

namespace Compilation

open NaiveCodeGen (HoldsGlobals)

variable {S : Sorting} {naive opt : Bool} {n : Nat} {src : List Char}

/-- **What the code generator is given can be linked**, and has the symbols of the source. -/
theorem linkable (c : Compilation S naive opt n src) :
    c.ir.Linkable ∧ c.ir.globalNames ++ c.ir.funcNames = c.mod.symbols := by
  obtain ⟨ts, hts, hmod, hA⟩ := frontEnd_ok c.front
  obtain ⟨hsymbols, hclosed, hfuncs⟩ := optimizeIR_accepted hA c.lowered c.optimizes
  refine ⟨⟨?_, hclosed, fun F hF => (hfuncs F hF).1.ids, fun F hF b =>
    (hfuncs F hF).1.inRange.succs_lt b⟩, hsymbols⟩
  rw [hsymbols]
  exact parseModule_isName hts hmod

/-! ## Assembling -/

/-- The labels of the assembly are distinct, and its code is encoded, if no two symbols of the
program are the same. -/
theorem assembles_iff_nodup (c : Compilation S naive opt n src) :
    Assembles c.items ↔ c.mod.symbols.Nodup := by
  obtain ⟨hlink, hsymbols⟩ := c.linkable
  have hgen := c.generated
  unfold generateAsm at hgen
  rw [← hsymbols]
  cases naive with
  | true =>
    rw [← Outcome.ok.inj hgen]
    exact generateAsmNaive_assembles hlink
  | false =>
    obtain ⟨hgen, hsafe⟩ := generateAsmOpt?_ok hgen
    exact generateAsmOpt_assembles hlink hsafe hgen

/-- **The assembler takes what the compiler prints**, with either code generator and with `-opt` or
without, if and only if no two symbols of the program are the same. The machine is then stuck only
where an address is not aligned, where a return finds no place in the file, and outside of the
code. -/
theorem assembles_iff (c : Compilation S naive opt n src) :
    (Assembles c.items ↔ c.mod.symbols.Nodup) ∧
      (c.mod.symbols.Nodup → ∀ img : Image, img.items = c.items →
        ∀ s, img.step s = .stuck → img.Trap s) := by
  have hiff := c.assembles_iff_nodup
  refine ⟨hiff, fun hnodup img himg s hs => Assembles.trap ?_ hs⟩
  rw [himg]
  exact hiff.mpr hnodup

/-- The assembler takes what becomes of the copies. -/
theorem copies_assembles : Assembles copiesImage.items := by
  obtain ⟨c, hc, himg, -⟩ := copies_compilation
  rw [himg.items]
  exact (assembles_iff c).1.mpr hc.symbols

/-! ## Linking -/

/-- The labels of the assembly, with some blocks of each function. -/
theorem labels_eq (c : Compilation S naive opt n src) :
    ∃ ids, labels c.items = c.ir.globalNames ++ c.ir.funcs.flatMap (·.codeLabels ids) := by
  have hgen := c.generated
  unfold generateAsm at hgen
  cases naive with
  | true =>
    rw [← Outcome.ok.inj hgen]
    exact ⟨_, NaiveCodeGen.labels_generateAsmNaive⟩
  | false =>
    obtain ⟨As, hAs, heq⟩ := OptCodeGen.generateAsmOpt_eq (generateAsmOpt?_ok hgen).1
    refine ⟨fun F => (OptCodeGen.order F).map fun b => (F.blockAt b).id, ?_⟩
    rw [heq, labels_append, labels_append, labels_emitData,
      OptCodeGen.labels_zipWith hAs.length_eq]
    simp only [labels_cons, Item.label?, Option.toList_none, labels_nil, List.append_nil]

/-- A global has a label. -/
theorem globalName_mem (c : Compilation S naive opt n src) {gid : Nat}
    (h : gid < c.ir.globals.length) : c.ir.globalName gid ∈ labels c.items := by
  obtain ⟨ids, hlabels⟩ := c.labels_eq
  rw [hlabels]
  exact List.mem_append_left _ (List.mem_of_getElem? (IRModule.globalNames_getElem? h))

/-- **The image of a compilation**: its items one after the other. -/
def image (c : Compilation S naive opt n src) : Image := flatImage c.items (labelAddr c.items)

/-- **The linker places what is assembled**, if it is less than the memory. -/
theorem linkedAs (c : Compilation S naive opt n src)
    (hnodup : c.mod.symbols.Nodup) (hsize : 4 * c.items.length < 2 ^ 32) : c.LinkedAs c.image := by
  obtain ⟨-, hsymbols⟩ := c.linkable
  rw [← hsymbols] at hnodup
  refine ⟨rfl, flatImage_linked _ (by omega), fun gid _ => labelAddr_aligned, ?_⟩
  intro gid hgid gid' hgid' hne heq
  have hsame : c.ir.globalName gid = c.ir.globalName gid' :=
    labelAddr_inj (by omega) (c.globalName_mem hgid) (c.globalName_mem hgid') heq
  have hlt : gid < c.ir.globalNames.length := by simpa [IRModule.globalNames] using hgid
  refine hne ((List.getElem?_inj hlt (List.nodup_append.mp hnodup).1).mp ?_)
  rw [IRModule.globalNames_getElem? hgid, IRModule.globalNames_getElem? hgid', hsame]

/-! ## Starting -/

/-- **Memory with the data of a file**: behind each label, what stands there. -/
def dataMem (items : List Item) (a : BitVec 32) : BitVec 32 :=
  match items[a.toNat / 4 + 1]? with
  | some (.word w) => w
  | _ => 0#32

/-- **The machine when a file is loaded**: at an item, with the data in memory, a stack that begins
16 bytes below the end of memory, and 0 in the other registers. -/
def startState (items : List Item) (pc : Nat) : State :=
  ⟨pc, ⟨fun x => if x = XReg.sp then -16 else 0#32, dataMem items⟩⟩

/-- A compiled program can be loaded and started, if no two of its symbols are the same and its
assembly leaves so many bytes of memory for a stack. -/
theorem started (c : Compilation S naive false n src) (hnodup : c.mod.symbols.Nodup) {space : Nat}
    (hsize : 4 * c.items.length + space + 16 ≤ 2 ^ 32) :
    c.LinkedAs c.image ∧ ∃ pc, c.Started c.image space (startState c.items pc) := by
  have hlinked := c.linkedAs hnodup (by omega)
  obtain ⟨hlink, hsymbols⟩ := c.linkable
  obtain ⟨ids, hlabels⟩ := c.labels_eq
  have hlabels_nodup : (labels c.items).Nodup :=
    (c.assembles_iff_nodup.mpr hnodup).labels
  refine ⟨hlinked, ?_⟩
  obtain ⟨ts, -, -, hA⟩ := frontEnd_ok c.front
  obtain ⟨fn, hfind, -, -⟩ := analyze_main hA
  have hmain : "main" ∈ labels c.items := by
    have hmem := Module.mem_symbols_of_find hfind
    rw [← hsymbols] at hmem
    rw [hlabels]
    refine (List.mem_append.mp hmem).elim (List.mem_append_left _) fun hmem => ?_
    exact List.mem_append_right _ ((funcNames_sublist_codeLabels ids c.ir.funcs).subset hmem)
  obtain ⟨pc, hpc⟩ : ∃ pc, c.image.target "main" = some pc :=
    Image.exists_target hlabels_nodup hmain
  have hsp : ((startState c.items pc).data.get XReg.sp).toNat = 2 ^ 32 - 16 := rfl
  refine ⟨pc, fun i l w hl hw => ?_, hpc, ?_, ?_, fun gid hgid => .inl ?_, rfl⟩
  · have hlt := (List.getElem?_eq_some_iff.mp hl).choose
    have hlt : i < c.items.length := hlt
    show dataMem c.items (labelAddr c.items l) = w
    unfold dataMem labelAddr
    rw [findIdx_label hlabels_nodup hl, BitVec.toNat_ofNat, Nat.mod_eq_of_lt (by omega),
      Nat.mul_div_cancel_left i (by decide), show c.items[i + 1]? = some (.word w) from hw]
  · rw [hsp]
    decide
  · rw [hsp]
    omega
  · rw [hsp]
    have hlt : (labelAddr c.items (c.ir.globalName gid)).toNat < 4 * c.items.length :=
      labelAddr_lt (by omega) (c.globalName_mem hgid)
    show (labelAddr c.items (c.ir.globalName gid)).toNat < _
    omega

/-- **A program that returns a value can be run**, compiled without `-opt` and with either code
generator. If its assembly leaves room for as many frames as the source has activations at a time,
the image is what the linker makes of it, the machine that is loaded with it stands in front of
`main`, and it returns with the value in `a0` and with the globals as the source leaves them. -/
theorem loaded_correct (c : Compilation S naive false n src) (hc : c.Proper) {d : Nat} {v : Word}
    {G : Globals}
    (hret : c.mod.ReturnsWithin d ⟨"main", [], c.mod.initialGlobals⟩ (some v, G))
    (hsize : 4 * c.items.length + d * c.frameBytes + 16 ≤ 2 ^ 32) :
    c.LinkedAs c.image ∧ ∃ pc s', c.Started c.image (d * c.frameBytes) (startState c.items pc) ∧
      c.image.Steps (startState c.items pc) s' ∧ s'.data.get XReg.a0 = v ∧
      HoldsGlobals c.ir c.image G s'.data.mem := by
  obtain ⟨himg, pc, hs⟩ := c.started hc.symbols hsize
  obtain ⟨s', hsteps, hafter⟩ :=
    c.afterCall_of_returnsWithin hc himg hret (hs.atCall hc.decls himg.items)
  exact ⟨himg, pc, s', hs, hsteps, hafter.value v rfl, hafter.globals⟩

/-- The counter can be run. -/
theorem counter_loaded : ∃ c : Compilation .insertion true false 9 counterText,
    ∃ pc s', c.image.Steps (startState c.items pc) s' ∧ s'.data.get XReg.a0 = 5#32 := by
  obtain ⟨c, hc, -, himg, hret, hs, -, -⟩ := counter_compilation
  have hroom : 1 * c.frameBytes ≤ 4096 := hs.room
  have hlength : c.items.length = 29 := by
    rw [← himg.items]
    rfl
  obtain ⟨-, pc, s', -, hsteps, ha0, -⟩ := loaded_correct c hc hret (by omega)
  exact ⟨c, pc, s', hsteps, ha0⟩

end Compilation

end ToyC
