import ToyC.StackFrame
import Mathlib.Data.List.Nodup

/-!
# The labels of the output

The label of a block is made of the name of its function and its number. The number has
no underscore in it, so the two can be read off the label again, and no two blocks of a
module share one. As names are identifiers, which do not begin with a dot, no name is the
label of a block either.
-/

namespace ToyC

open Rv32

/-- Two words cut at their last underscore. -/
theorem append_underscore_inj {xs xs' ys ys' : List Char} (hy : '_' ∉ ys) (hy' : '_' ∉ ys')
    (h : xs ++ '_' :: ys = xs' ++ '_' :: ys') : xs = xs' ∧ ys = ys' := by
  have hend : ∀ {as zs zs' : List Char}, '_' ∉ zs → '_' :: zs = as ++ '_' :: zs' → as = [] := by
    intro as zs zs' hz heq
    cases as with
    | nil => rfl
    | cons a as =>
      obtain ⟨-, rfl⟩ := List.cons_eq_cons.mp heq
      exact absurd (by simp) hz
  rcases List.append_eq_append_iff.mp h with ⟨as, hxs, heq⟩ | ⟨as, hxs, heq⟩
  · obtain rfl := hend hy heq
    exact ⟨by simpa using hxs.symm, by simpa using heq⟩
  · obtain rfl := hend hy' heq
    exact ⟨by simpa using hxs, by simpa using heq.symm⟩

theorem IRFunc.label_toList (F : IRFunc) (b : Nat) :
    (F.label b).toList = '.' :: 'L' :: (F.name.toList ++ '_' :: Nat.toDigits 10 b) := by
  simp [IRFunc.label, String.toList_append, Nat.toList_repr]

/-- **A label names one block of one function.** -/
theorem IRFunc.label_inj {F F' : IRFunc} {b b' : Nat} (h : F.label b = F'.label b') :
    F.name = F'.name ∧ b = b' := by
  have h := congrArg String.toList h
  rw [IRFunc.label_toList, IRFunc.label_toList, List.cons_inj_right, List.cons_inj_right] at h
  obtain ⟨hname, hdigits⟩ := append_underscore_inj Nat.underscore_not_in_toDigits
    Nat.underscore_not_in_toDigits h
  refine ⟨String.toList_inj.mp hname, ?_⟩
  rw [← Nat.ofDigitChars_ten_toDigits (n := b), hdigits, Nat.ofDigitChars_ten_toDigits]

/-- A name as the lexer makes it: it does not begin with a dot. -/
def IsName (n : String) : Prop := n.toList.head? ≠ some '.'

instance (n : String) : Decidable (IsName n) := inferInstanceAs (Decidable (_ ≠ _))

theorem IsName.ne_label {n : String} (hn : IsName n) (F : IRFunc) (b : Nat) : n ≠ F.label b := by
  rintro rfl
  exact hn (by rw [IRFunc.label_toList]; rfl)

/-- The names of the functions of a module. -/
def IRModule.funcNames (m : IRModule) : List String := m.funcs.map (·.name)

/-- The names of the globals of a module. -/
def IRModule.globalNames (m : IRModule) : List String := m.globals.map (·.name)

/-- **The functions of a module have names of their own.** -/
structure IRModule.FuncsNamed (m : IRModule) : Prop where
  nodup : m.funcNames.Nodup
  isName : ∀ n ∈ m.globalNames ++ m.funcNames, IsName n

section Labels

variable {m : IRModule} (ids : IRFunc → List Nat)

/-- The labels of the code of a function that has some of its blocks. -/
def IRFunc.codeLabels (F : IRFunc) : List String := F.name :: (ids F).map F.label

/-- **The labels of the code are distinct.** -/
theorem codeLabels_nodup (hm : m.FuncsNamed) (hids : ∀ F ∈ m.funcs, (ids F).Nodup) :
    (m.funcs.flatMap (·.codeLabels ids)).Nodup := by
  rw [List.nodup_flatMap]
  have hname : ∀ F ∈ m.funcs, IsName F.name := fun F hF =>
    hm.isName _ (List.mem_append_right _ (List.mem_map_of_mem hF))
  constructor
  · intro F hF
    refine List.nodup_cons.mpr ⟨fun hmem => ?_, (hids F hF).map fun b b' h => (F.label_inj h).2⟩
    obtain ⟨b, -, hb⟩ := List.mem_map.mp hmem
    exact (hname F hF).ne_label F b hb.symm
  · have hpair : m.funcs.Pairwise fun F F' => F.name ≠ F'.name := List.pairwise_map.mp hm.nodup
    refine hpair.imp_of_mem fun {F F'} hF hF' hne => ?_
    intro l hl hl'
    rcases List.mem_cons.mp hl with rfl | hl
    · rcases List.mem_cons.mp hl' with h | hl'
      · exact hne h
      · obtain ⟨b, -, hb⟩ := List.mem_map.mp hl'
        exact (hname F hF).ne_label F' b hb.symm
    · obtain ⟨b, -, rfl⟩ := List.mem_map.mp hl
      rcases List.mem_cons.mp hl' with h | hl'
      · exact (hname F' hF').ne_label F b h.symm
      · obtain ⟨b', -, hb'⟩ := List.mem_map.mp hl'
        exact hne (IRFunc.label_inj hb').1.symm

/-- A name of a global is no label of the code, when no function has it either. -/
theorem globalName_notMem_codeLabels (hm : m.FuncsNamed) {n : String} (hn : n ∈ m.globalNames)
    (hfuncs : n ∉ m.funcNames) : n ∉ m.funcs.flatMap (·.codeLabels ids) := by
  intro hmem
  obtain ⟨F, hF, hl⟩ := List.mem_flatMap.mp hmem
  rcases List.mem_cons.mp hl with rfl | hl
  · exact hfuncs (List.mem_map_of_mem hF)
  · obtain ⟨b, -, hb⟩ := List.mem_map.mp hl
    exact (hm.isName _ (List.mem_append_left _ hn)).ne_label F b hb.symm

end Labels

/-- The labels of the data section are the names of the globals. -/
theorem labels_emitData (m : IRModule) : labels (emitData m) = m.globalNames := by
  unfold emitData IRModule.globalNames
  cases h : m.globals with
  | nil => rfl
  | cons g gs =>
    show labels ((g :: gs).flatMap _) = _
    rw [labels_flatMap]
    induction g :: gs with
    | nil => rfl
    | cons g gs ih => rw [List.flatMap_cons, ih]; rfl

end ToyC
