import ToyC.OptCodeGen
import ToyC.Interference
import ToyC.AsmLabels
import ToyC.Lib.FlowGraph

/-!
# The blocks that are emitted

The optimizing code generator emits the blocks that can be reached, in index order. They are
found by a walk from the first block, which the source runs until its stack is empty and the
model for as many steps as there are blocks; that is enough (`reachLoop_spec`), since a block comes
on the stack once. So every successor of an emitted block is emitted as well
(`succ_mem_order`), and a label that is jumped to is there, once (`labels_nodup`).
-/

namespace ToyC

open Rv32

/-- **A block that can be reached** from the first one. -/
inductive IRFunc.Reachable (F : IRFunc) : Nat → Prop where
  | entry : F.Reachable 0
  | succ {b s : Nat} (h : F.Reachable b) (hs : s ∈ succsOf (F.blockAt b)) : F.Reachable s

namespace OptCodeGen

/-! ## The walk -/

/-- What a visit adds is new, and comes on the stack. -/
theorem visit_spec (ss : List Nat) (stack reached : List Nat) :
    ∃ new : List Nat, new.Nodup ∧ (∀ s ∈ new, s ∈ ss ∧ s ∉ reached) ∧
      (∀ s ∈ ss, s ∈ new ∨ s ∈ reached) ∧
      visit ss (stack, reached) = (new ++ stack, new ++ reached) := by
  let push (st : List Nat × List Nat) (s : Nat) : List Nat × List Nat :=
    if s ∈ st.2 then st else (s :: st.1, s :: st.2)
  have hold : ∀ st s, s ∈ st.2 → push st s = st := fun st s hs => if_pos hs
  have hfresh : ∀ st s, s ∉ st.2 → ∀ t, t ∈ (push st s).2 ↔ t = s ∨ t ∈ st.2 := by
    intro st s hs t
    simp only [push, if_neg hs]
    exact List.mem_cons
  obtain ⟨new, hnodup, hnew, hall, heq⟩ := FlowGraph.foldl_push hold hfresh ss (stack, reached)
  refine ⟨new, hnodup, hnew, fun s hs => (hall s hs).symm, Eq.trans heq ?_⟩
  clear hall heq
  induction new with
  | nil => rfl
  | cons s new ih =>
    rw [List.forall_mem_cons] at hnew
    obtain ⟨hs, hnodup⟩ := List.nodup_cons.mp hnodup
    have hnot : s ∉ new ++ reached := by simp [hs, hnew.1.2]
    rw [List.foldr_cons, ih hnodup hnew.2]
    exact if_neg hnot

/-- **The walk so far**: what was reached can be reached, and its successors were reached
unless it is still on the stack. -/
structure Walk (f : IRFunc) (stack reached : List Nat) : Prop where
  nodup : reached.Nodup
  lt : ∀ b ∈ reached, b < f.blocks.length
  found : ∀ b ∈ reached, f.Reachable b
  onStack : ∀ b ∈ stack, b ∈ reached
  closed : ∀ b ∈ reached, b ∉ stack → ∀ s ∈ succsOf (f.blockAt b), s ∈ reached
  entry : 0 ∈ reached

section Reach

variable {f : IRFunc}

theorem Walk.step (hsuccs : ∀ b, ∀ s ∈ succsOf (f.blockAt b), s < f.blocks.length) {b : Nat}
    {stack reached : List Nat} (h : Walk f (b :: stack) reached) {new : List Nat}
    (hnodup : new.Nodup) (hnew : ∀ s ∈ new, s ∈ succsOf (f.blockAt b) ∧ s ∉ reached)
    (hall : ∀ s ∈ succsOf (f.blockAt b), s ∈ new ∨ s ∈ reached) :
    Walk f (new ++ stack) (new ++ reached) := by
  have hb := h.onStack b List.mem_cons_self
  refine ⟨?_, ?_, ?_, ?_, ?_, List.mem_append_right _ h.entry⟩
  · exact List.nodup_append.mpr ⟨hnodup, h.nodup, fun a ha c hc hac => (hnew a ha).2 (hac ▸ hc)⟩
  · intro s hs
    rcases List.mem_append.mp hs with hs | hs
    · exact hsuccs b s (hnew s hs).1
    · exact h.lt s hs
  · intro s hs
    rcases List.mem_append.mp hs with hs | hs
    · exact .succ (h.found b hb) (hnew s hs).1
    · exact h.found s hs
  · intro s hs
    rcases List.mem_append.mp hs with hs | hs
    · exact List.mem_append_left _ hs
    · exact List.mem_append_right _ (h.onStack s (List.mem_cons_of_mem _ hs))
  · intro c hc hstack s hs
    rcases List.mem_append.mp hc with hc | hc
    · exact absurd (List.mem_append_left _ hc) hstack
    · by_cases hcb : c = b
      · subst hcb
        exact List.mem_append.mpr (hall s hs)
      · refine List.mem_append_right _ (h.closed c hc (fun hmem => ?_) s hs)
        rcases List.mem_cons.mp hmem with hmem | hmem
        · exact hcb hmem
        · exact hstack (List.mem_append_right _ hmem)

/-- **The walk ends with an empty stack**: it has taken a block off the stack for each that
is reached and not on it. -/
theorem reachLoop_spec (hsuccs : ∀ b, ∀ s ∈ succsOf (f.blockAt b), s < f.blocks.length) (n : Nat)
    {stack reached : List Nat} (h : Walk f stack reached)
    (hn : f.blocks.length + stack.length ≤ n + reached.length) :
    Walk f [] (reachLoop f n (stack, reached)) := by
  induction n generalizing stack reached with
  | zero =>
    have hle : reached.length ≤ f.blocks.length := by
      have hsub : reached ⊆ List.range f.blocks.length := fun b hb =>
        List.mem_range.mpr (h.lt b hb)
      have := (h.nodup.subperm hsub).length_le
      rwa [List.length_range] at this
    have hnil : stack = [] := List.eq_nil_of_length_eq_zero (by omega)
    subst hnil
    exact h
  | succ n ih =>
    cases stack with
    | nil => exact h
    | cons b stack =>
      obtain ⟨new, hnodup, hnew, hall, heq⟩ := visit_spec (succsOf (f.blockAt b)) stack reached
      unfold reachLoop
      rw [heq]
      refine ih (h.step hsuccs hnodup hnew hall) ?_
      rw [List.length_cons] at hn
      rw [List.length_append, List.length_append]
      omega

/-- The walk from the first block. -/
theorem reach_walk (hsuccs : ∀ b, ∀ s ∈ succsOf (f.blockAt b), s < f.blocks.length)
    (hne : 0 < f.blocks.length) : Walk f [] (reach f) := by
  refine reachLoop_spec hsuccs f.blocks.length ⟨by simp, ?_, ?_, by simp, ?_, by simp⟩ (by simp)
  · intro b hb
    rw [List.mem_singleton.mp hb]
    exact hne
  · intro b hb
    rw [List.mem_singleton.mp hb]
    exact .entry
  · exact fun b hb hstack => absurd hb hstack

/-! ## The order -/

theorem order_nodup : (order f).Nodup := List.nodup_range.filter _

theorem mem_order_lt {b : Nat} (h : b ∈ order f) : b < f.blocks.length :=
  List.mem_range.mp (List.mem_filter.mp h).1

/-- The first block is emitted. -/
theorem zero_mem_order (hsuccs : ∀ b, ∀ s ∈ succsOf (f.blockAt b), s < f.blocks.length)
    (hne : 0 < f.blocks.length) : 0 ∈ order f :=
  List.mem_filter.mpr ⟨List.mem_range.mpr hne, decide_eq_true (reach_walk hsuccs hne).entry⟩

/-- **A successor of an emitted block is emitted.** -/
theorem succ_mem_order (hsuccs : ∀ b, ∀ s ∈ succsOf (f.blockAt b), s < f.blocks.length) {b s : Nat}
    (hb : b ∈ order f) (hs : s ∈ succsOf (f.blockAt b)) : s ∈ order f := by
  have hwalk := reach_walk hsuccs (Nat.zero_lt_of_lt (mem_order_lt hb))
  have hmem := of_decide_eq_true (List.mem_filter.mp hb).2
  exact List.mem_filter.mpr ⟨List.mem_range.mpr (hsuccs b s hs),
    decide_eq_true (hwalk.closed b hmem (List.not_mem_nil) s hs)⟩

/-- **The blocks that are emitted are those that can be reached.** -/
theorem mem_order_iff (hsuccs : ∀ b, ∀ s ∈ succsOf (f.blockAt b), s < f.blocks.length)
    (hne : 0 < f.blocks.length) {b : Nat} : b ∈ order f ↔ f.Reachable b := by
  constructor
  · exact fun h => (reach_walk hsuccs hne).found b (of_decide_eq_true (List.mem_filter.mp h).2)
  · intro h
    induction h with
    | entry => exact zero_mem_order hsuccs hne
    | succ _ hs ih => exact succ_mem_order hsuccs ih hs

/-- The first block comes first. -/
theorem order_eq_cons (hsuccs : ∀ b, ∀ s ∈ succsOf (f.blockAt b), s < f.blocks.length)
    (hne : 0 < f.blocks.length) : ∃ bs, order f = 0 :: bs := by
  obtain ⟨k, hk⟩ : ∃ k, f.blocks.length = k + 1 := ⟨f.blocks.length - 1, by omega⟩
  have hmem := (reach_walk hsuccs hne).entry
  unfold order
  rw [hk, List.range_succ_eq_map, List.filter_cons, if_pos (by simpa using hmem)]
  exact ⟨_, rfl⟩

end Reach

/-! ## Labels -/

section Labels

variable {m : IRModule} {opt : Bool}

/-- The code of some blocks ends with that of the last ones. -/
theorem emitBlocks_append (fr : Frame) (A : Allocation) (f : IRFunc) (bs bs' : List Nat) :
    ∃ before, emitBlocks m opt fr A f (bs ++ bs') = before ++ emitBlocks m opt fr A f bs' := by
  induction bs with
  | nil => exact ⟨[], rfl⟩
  | cons b bs ih =>
    obtain ⟨before, hbefore⟩ := ih
    refine ⟨emitBlock m opt fr A f (f.blockAt b) (bs ++ bs').head? ++ before, ?_⟩
    rw [List.append_assoc, ← hbefore]
    rfl

theorem labels_emitBlocks (fr : Frame) (A : Allocation) (f : IRFunc) (bs : List Nat) :
    labels (emitBlocks m opt fr A f bs) = bs.map fun b => f.label (f.blockAt b).id := by
  induction bs with
  | nil => rfl
  | cons b bs ih =>
    unfold emitBlocks emitBlock
    rw [labels_append, labels_cons, labels_instr, ih]
    rfl

theorem labels_emitFunc (A : Allocation) (f : IRFunc) :
    labels (emitFunc m opt A f) = f.codeLabels fun f => (order f).map fun b => (f.blockAt b).id := by
  unfold emitFunc IRFunc.codeLabels
  simp only [labels_append, labels_cons, labels_nil, labels_instr, Item.label?,
    Option.toList_none, Option.toList_some, List.nil_append, List.append_nil,
    List.singleton_append, labels_emitBlocks, List.map_map]
  rfl

/-- **The functions of the output**, each with its allocation. -/
theorem emitFuncs_eq {S : Sorting} {n : Nat} {fs : List IRFunc} {code : List Item}
    (h : emitFuncs S m opt n fs = .ok code) :
    ∃ As : List Allocation, List.Forall₂ (fun f A => allocateRegisters S f n = .ok A) fs As ∧
      code = (List.zipWith (emitFunc m opt) As fs).flatten := by
  induction fs generalizing code with
  | nil =>
    cases h
    exact ⟨[], .nil, rfl⟩
  | cons f fs ih =>
    obtain ⟨A, hA, h⟩ := Outcome.bind_eq_ok.mp h
    obtain ⟨rest, hrest, h⟩ := Outcome.bind_eq_ok.mp h
    cases h
    obtain ⟨As, hAs, rfl⟩ := ih hrest
    exact ⟨A :: As, .cons hA hAs, rfl⟩

theorem labels_zipWith {fs : List IRFunc} {As : List Allocation}
    (hlen : fs.length = As.length) :
    labels (List.zipWith (emitFunc m opt) As fs).flatten =
      fs.flatMap (·.codeLabels fun f => (order f).map fun b => (f.blockAt b).id) := by
  induction fs generalizing As with
  | nil =>
    cases As with
    | nil => rfl
    | cons A As => cases hlen
  | cons f fs ih =>
    cases As with
    | nil => cases hlen
    | cons A As =>
      rw [List.zipWith_cons_cons, List.flatten_cons, labels_append, labels_emitFunc,
        ih (Nat.succ.inj hlen), List.flatMap_cons]

/-- **The assembly of a module**: the data, and behind it the functions, each with its
allocation. -/
theorem generateAsmOpt_eq {S : Sorting} {n : Nat} {items : List Item}
    (h : generateAsmOpt S m opt n = .ok items) :
    ∃ As : List Allocation,
      List.Forall₂ (fun f A => allocateRegisters S f n = .ok A) m.funcs As ∧
      items = emitData m ++ [.text] ++ (List.zipWith (emitFunc m opt) As m.funcs).flatten := by
  obtain ⟨code, hcode, h⟩ := Outcome.bind_eq_ok.mp h
  cases h
  obtain ⟨As, hAs, rfl⟩ := emitFuncs_eq hcode
  exact ⟨As, hAs, rfl⟩

/-- The allocator answers for all functions, and with more fuel the same. -/
theorem emitFuncs_total (S : Sorting) (fs : List IRFunc) :
    ∃ n code, ∀ n', n ≤ n' → emitFuncs S m opt n' fs = .ok code := by
  induction fs with
  | nil => exact ⟨0, [], fun _ _ => rfl⟩
  | cons f fs ih =>
    obtain ⟨n₁, A, hA⟩ := allocateRegisters_total S f
    obtain ⟨n₂, code, hrest⟩ := ih
    refine ⟨max n₁ n₂, emitFunc m opt A f ++ code, fun n' hn => ?_⟩
    unfold emitFuncs
    rw [allocateRegisters_mono (Nat.le_trans (Nat.le_max_left _ _) hn) hA,
      hrest n' (Nat.le_trans (Nat.le_max_right _ _) hn)]
    rfl

/-- **The generator answers** for every module. -/
theorem generateAsmOpt_total (S : Sorting) (m : IRModule) (opt : Bool) :
    ∃ n items, ∀ n', n ≤ n' → generateAsmOpt S m opt n' = .ok items := by
  obtain ⟨n, code, hcode⟩ := @emitFuncs_total m opt S m.funcs
  refine ⟨n, emitData m ++ [.text] ++ code, fun n' hn => ?_⟩
  unfold generateAsmOpt
  rw [hcode n' hn]
  rfl

end Labels

/-! ## Where the code stands -/

/-- **The code of a function in a program**: it stands somewhere, its blocks are numbered in
order, and the labels of those that are emitted are defined once. -/
structure FuncAt (img : Image) (m : IRModule) (opt : Bool) (A : Allocation) (F : IRFunc) :
    Prop where
  code : ∃ before after, img.items = before ++ emitFunc m opt A F ++ after
  ids : F.blocks.map (·.id) = List.range F.blocks.length
  once : ∀ b ∈ order F, (labels img.items).count (F.label b) = 1

/-- **No label of a block is defined twice** in the assembly of a module whose functions have
names of their own. -/
theorem generateAsmOpt_funcAt {S : Sorting} {m : IRModule} {opt : Bool} {n : Nat} {img : Image}
    (hm : m.FuncsNamed) (hids : ∀ F ∈ m.funcs, F.blocks.map (·.id) = List.range F.blocks.length)
    (h : generateAsmOpt S m opt n = .ok img.items) {F : IRFunc} (hF : F ∈ m.funcs) :
    ∃ A, allocateRegisters S F n = .ok A ∧ FuncAt img m opt A F := by
  obtain ⟨As, hAs, hitems⟩ := generateAsmOpt_eq h
  have hlabels := congrArg labels hitems
  rw [labels_append, labels_append, labels_emitData, labels_zipWith hAs.length_eq] at hlabels
  obtain ⟨i, hi, rfl⟩ := List.getElem_of_mem hF
  have hiA : i < As.length := hAs.length_eq ▸ hi
  refine ⟨As[i], hAs.get hi hiA, ?_, hids _ hF, fun b hb => ?_⟩
  · have hzip : i < (List.zipWith (emitFunc m opt) As m.funcs).length := by
      rw [List.length_zipWith]
      exact Nat.lt_min.mpr ⟨hiA, hi⟩
    have hsplit := List.take_append_drop i (List.zipWith (emitFunc m opt) As m.funcs)
    rw [List.drop_eq_getElem_cons hzip, List.getElem_zipWith] at hsplit
    rw [hitems, ← hsplit, List.flatten_append, List.flatten_cons]
    exact ⟨emitData m ++ [.text] ++ (List.take i (List.zipWith (emitFunc m opt) As m.funcs)).flatten,
      (List.drop (i + 1) (List.zipWith (emitFunc m opt) As m.funcs)).flatten, by simp⟩
  · have hid : ∀ f ∈ m.funcs, (order f).map (fun b => (f.blockAt b).id) = order f := fun f hf =>
      (List.map_congr_left fun b hb => IRFunc.blockAt_id (hids f hf) (mem_order_lt hb)).trans
        (List.map_id _)
    have hnodup := codeLabels_nodup (fun f => (order f).map fun b => (f.blockAt b).id) hm
      fun f hf => (hid f hf).symm ▸ order_nodup
    have hglobal : m.globalNames.count (m.funcs[i].label b) = 0 :=
      List.count_eq_zero.mpr fun hmem =>
        (hm.isName _ (List.mem_append_left _ hmem)).ne_label _ _ rfl
    have hmem : m.funcs[i].label b ∈
        m.funcs.flatMap (·.codeLabels fun f => (order f).map fun b => (f.blockAt b).id) := by
      refine List.mem_flatMap.mpr ⟨_, hF, List.mem_cons_of_mem _ (List.mem_map_of_mem ?_)⟩
      show b ∈ (order m.funcs[i]).map fun b => (m.funcs[i].blockAt b).id
      rw [hid _ hF]
      exact hb
    rw [hlabels, List.count_append, List.count_append, hglobal,
      List.count_eq_one_of_mem hnodup hmem]
    rfl

namespace FuncAt

variable {img : Image} {m : IRModule} {opt : Bool} {A : Allocation} {F : IRFunc}

/-- **The beginning of a function**, and its blocks behind it. -/
theorem func (h : FuncAt img m opt A F) :
    ∃ i, img.At i (.label F.name :: ((prologue (frameOf A F) A F).map .instr ++
      emitBlocks m opt (frameOf A F) A F (order F))) := by
  obtain ⟨before, after, hitems⟩ := h.code
  refine ⟨(before ++ [Item.globl F.name, .p2align 1]).length, after, ?_⟩
  rw [hitems]
  unfold emitFunc
  simp [List.append_assoc, ← List.drop_drop]

/-- **An emitted block** is found under its label, with the blocks that follow behind it. -/
theorem block (h : FuncAt img m opt A F) {bs bs' : List Nat} {b : Nat}
    (horder : order F = bs ++ b :: bs') :
    ∃ i, img.target (F.label b) = some i ∧
      img.At i (.label (F.label b) ::
        ((blockCode m opt (frameOf A F) A F (F.blockAt b) bs'.head?).map .instr ++
          emitBlocks m opt (frameOf A F) A F bs')) := by
  obtain ⟨i, hat⟩ := h.func
  obtain ⟨before, hbefore⟩ := @emitBlocks_append m opt (frameOf A F) A F bs (b :: bs')
  have hb : b ∈ order F := by
    rw [horder]
    simp
  rw [horder, hbefore] at hat
  have hat := (Image.at_append.mp (Image.at_append.mp hat.tail).2).2
  unfold emitBlocks emitBlock at hat
  rw [IRFunc.blockAt_id h.ids (mem_order_lt hb)] at hat
  exact ⟨_, hat.target (h.once b hb), hat⟩

end FuncAt

end OptCodeGen

end ToyC
