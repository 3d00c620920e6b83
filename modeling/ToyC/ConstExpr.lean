import ToyC.IRGen
import ToyC.Watched

/-!
# Compile-time constants

The analysis folds expressions as it goes up the tree, and what it folds is lost: a condition that
is a constant decides which branch is lowered at all, a constant expression statement leaves no
code, and a name of a constant becomes its value. Nothing is lost by that (`analyzeExpr_constant`).
A folded expression evaluates to what it was folded to in every state in which the constants in
scope have their values, and it does so without calling a function, reading a variable or dividing
by zero – although the operand that a short-circuit operator skips may do all of these.
-/

namespace ToyC

open Sema

/-- Folding a binary operator computes its value. -/
theorem evalBin_eq {op : BinOp} {a b v : Word} (h : evalBin op a b = some v) :
    op.eval a b = v := by
  have hmin : BitVec.sdiv Word.intMin (-1) = Word.intMin := by decide
  have hmin' : BitVec.srem Word.intMin (-1) = 0#32 := by decide
  cases op with
  | Div | Mod =>
    simp only [evalBin] at h
    split at h
    · cases h
    · rename_i hb
      split at h
      · rename_i hab
        obtain ⟨rfl, rfl⟩ := hab
        cases h
        first | exact hmin | exact hmin'
      · cases h
        simp [BinOp.eval, Word.div, Word.rem, hb]
  | _ =>
    cases h
    rfl

theorem evalUn_eq (op : UnOp) (a : Word) : evalUn op a = op.eval a := by
  cases op with
  | Not => by_cases h : a = 0#32 <;> simp [evalUn, UnOp.eval, Word.ofBool, h]
  | _ => rfl

/-- **A state of the source in which the constants have their values**: where a name means a
constant for the analysis, it means that constant. -/
def Sema.ConstantsHold (S : Sema) (env : Env) : Prop :=
  ∀ x id, S.lookup x = some id → (S.symbol id).isConst = true →
    env.lookup x = some (.const (S.symbol id).constValue)

/-! ## What folds -/

section Fold

variable {p : Permits} {voids : Voids} {call : Callee} {S : Sema} {env : Env}

/-- A binary operator that folds may be computed, and has the value it folds to. -/
theorem Permits.eval_of_evalBin {op : BinOp} {a b v : Word} (h : evalBin op a b = some v) :
    p.eval op a b = .ok v := by
  have hb : (op.divides && b == 0#32) = false := by
    cases op with
    | Div | Mod =>
      simp only [evalBin] at h
      split at h
      · cases h
      · rename_i hb
        simp [hb]
    | _ => rfl
  unfold Permits.eval
  rw [hb, Bool.false_and, if_neg Bool.false_ne_true, evalBin_eq h]

/-- **What folds to a constant evaluates to it**, whatever is forbidden, and changes nothing. -/
theorem watchExpr_of_const (henv : S.ConstantsHold env) (G : Globals) :
    ∀ (e : Expr) {e' : AExpr}, analyzeExpr S e = .ok e' → e'.isConst = true →
      watchExpr p voids call env e G = .ok (e'.constValue, G)
  | .number line v, e', h, hc => by
    cases h
    rfl
  | .var line x, e', h, hc => by
    simp only [analyzeExpr] at h
    split at h
    · cases h
    · rename_i id hx
      cases h
      cases hk : (S.symbol id).isConst with
      | false => simp [AExpr.isConst, AExpr.note, hk] at hc
      | true =>
        simp [watchExpr, Permits.readName, henv x id hx hk, AExpr.constValue, AExpr.note,
          Note.const]
  | .binary line op lhs rhs, e', h, hc => by
    simp only [analyzeExpr, bind_eq_ok] at h
    obtain ⟨lhs', hl, rhs', hr, h⟩ := h
    split at h
    · rename_i hconst
      rw [Bool.and_eq_true] at hconst
      split at h
      · cases h
      · rename_i v hv
        cases h
        simp only [watchExpr, watchExpr_of_const henv G lhs hl hconst.1,
          watchExpr_of_const henv G rhs hr hconst.2, Outcome.ok_bind, Permits.eval_of_evalBin hv]
        rfl
    · cases h
      cases hc
  | .logical line isOr lhs rhs, e', h, hc => by
    simp only [analyzeExpr, bind_eq_ok] at h
    obtain ⟨lhs', hl, rhs', hr, h⟩ := h
    cases h
    cases hlc : lhs'.isConst with
    | false =>
      simp only [hlc, Bool.false_eq_true, if_false] at hc
      cases hc
    | true =>
      simp only [hlc, if_true] at hc ⊢
      simp only [watchExpr, watchExpr_of_const henv G lhs hl hlc, Outcome.ok_bind, shortCircuit]
      generalize lhs'.constValue = a at hc ⊢
      -- The left operand decides, or the right one is a constant too.
      by_cases hdec : (isOr = true ∧ a ≠ 0#32) ∨ (isOr = false ∧ a = 0#32)
      · rcases hdec with ⟨rfl, ha⟩ | ⟨rfl, rfl⟩
        · simp only [if_true, Word.truthy_eq_true.mpr ha]
          simp [ha, AExpr.constValue, AExpr.note, Note.const]
        · rfl
      · have hrc : rhs'.isConst = true := by
          by_contra hrc
          cases isOr <;> simp_all [AExpr.isConst, AExpr.note]
        rw [watchExpr_of_const henv G rhs hr hrc]
        generalize rhs'.constValue = b
        simp only [hrc, if_true]
        cases isOr with
        | true =>
          have ha : a = 0#32 := by simpa using hdec
          subst ha
          by_cases hb : b = 0#32
          · simp [hb, AExpr.constValue, AExpr.note, Note.const]
          · simp [hb, AExpr.constValue, AExpr.note, Note.const, Word.truthy_eq_true.mpr hb]
        | false =>
          have ha : a ≠ 0#32 := by simpa using hdec
          by_cases hb : b = 0#32
          · simp [hb, ha, AExpr.constValue, AExpr.note, Note.const, Word.truthy_eq_true.mpr ha]
          · simp [hb, ha, AExpr.constValue, AExpr.note, Note.const, Word.truthy_eq_true.mpr ha,
              Word.truthy_eq_true.mpr hb]
  | .unary line op operand, e', h, hc => by
    simp only [analyzeExpr, bind_eq_ok] at h
    obtain ⟨operand', ho, h⟩ := h
    cases h
    cases hk : operand'.isConst with
    | false =>
      simp only [hk, Bool.false_eq_true, if_false] at hc
      cases hc
    | true =>
      simp only [watchExpr, watchExpr_of_const henv G operand ho hk, Outcome.ok_bind,
        AExpr.constValue, AExpr.note, if_true, Note.const, evalUn_eq]
  | .call line callee args, e', h, hc => by
    simp only [analyzeExpr] at h
    split at h
    · cases h
    · split at h
      · cases h
      · simp only [bind_eq_ok] at h
        obtain ⟨args', -, h⟩ := h
        cases h
        cases hc

/-- The same without a watch. -/
theorem evalExpr_of_const (henv : S.ConstantsHold env) {e : Expr} {e' : AExpr}
    (h : analyzeExpr S e = .ok e') (hc : e'.isConst = true) {G : Globals} :
    evalExpr voids call env e G = .ok (e'.constValue, G) :=
  watchExpr_values (p := .none) (fun q => Outcome.precise_values.refl (call q)) env e G _
    (watchExpr_of_const henv G e h hc)

end Fold

/-! ## What becomes of them -/

/-- **Compile-time constants are right.** A folded expression evaluates to what it was folded to,
in every state in which the constants in scope have their values, and even when no function is
there to be called, no variable may be read and no divisor may be zero. So nothing is lost where
the lowering takes the constant instead: of a conditional only the branch that is taken is lowered,
an expression statement leaves no code, and a value becomes an immediate. -/
theorem analyzeExpr_constant {S : Sema} {e : Expr} {e' : AExpr} (h : analyzeExpr S e = .ok e')
    (hc : e'.isConst = true) {env : Env} (henv : S.ConstantsHold env) :
    (∀ voids G, watchExpr .none voids (fun _ => .stuck) env e G = .ok (e'.constValue, G)) ∧
      (∀ voids call G, evalExpr voids call env e G = .ok (e'.constValue, G)) ∧
      (∀ voids call n line then_ else_ G,
        execStmt voids call n (.ifStmt line e then_ else_) env G =
          if Word.truthy e'.constValue then execStmt voids call n then_ env G
          else match else_ with
            | some else_ => execStmt voids call n else_ env G
            | none => .ok (.normal env, G)) ∧
      (∀ A then_ else_ g, IRGen.genStmt A (.ifStmt e' then_ else_) g =
        if Word.truthy e'.constValue then IRGen.genStmt A then_ g
        else match else_ with
          | some else_ => IRGen.genStmt A else_ g
          | none => g) ∧
      (∀ voids call n line G,
        execStmt voids call n (.exprStmt line e) env G = .ok (.normal env, G)) ∧
      (∀ A g, IRGen.genStmt A (.exprStmt e') g = g) ∧
      ∀ A g, IRGen.genExpr A e' g = (.imm e'.constValue, g) := by
  have heval : ∀ voids call G, evalExpr voids call env e G = .ok (e'.constValue, G) :=
    fun voids call G => evalExpr_of_const henv h hc
  refine ⟨fun voids G => watchExpr_of_const henv G e h hc, heval, ?_, ?_, ?_, ?_,
    fun A g => IRGen.genExpr_const hc g⟩
  · intro voids call n line then_ else_ G
    cases else_ <;> simp only [execStmt, heval, Outcome.ok_bind]
  · intro A then_ else_ g
    cases else_ <;> by_cases hv : e'.constValue = 0#32 <;>
      simp [IRGen.genStmt, hc, hv, Word.truthy]
  · intro voids call n line G
    simp only [execStmt, heval, Outcome.ok_bind]
  · intro A g
    simp only [IRGen.genStmt, IRGen.genExpr_const hc]

/-- `N == 3 || f(1 / x)`, with what the analysis says of it where `N` is the constant 3. -/
def skippedExpr : Expr :=
  .logical 1 true (.binary 1 .Eq (.var 1 "N") (.number 1 3))
    (.call 1 "f" [.binary 1 .Div (.number 1 1) (.var 1 "x")])

def skippedTree : AExpr :=
  .logical (.const 1) true
    (.binary (.const 1) .Eq (.var (.const 3) "N" 0) (.number (.const 3) 3))
    (.call {} "f" [.binary {} .Div (.number (.const 1) 1) (.var {} "x" 1)] ⟨0, "f", false, 1⟩)

/-- It is 1 although `x` is zero and nobody knows what `f` does. -/
theorem analyzeExpr_constant_skipped :
    evalExpr (fun _ => false) (fun _ => .stuck) [[("x", .var 0), ("N", .const 3)]] skippedExpr
      (fun _ => 0) = .ok (1, fun _ => 0) := by
  refine (analyzeExpr_constant (S := {
    arena := [{ kind := .Const, name := "N", isConst := true, constValue := 3 }, { name := "x" }]
    scopes := [[("x", 1), ("N", 0)]]
    funcs := [("f", ⟨0, "f", false, 1⟩)] }) (e := skippedExpr)
    (rfl : _ = Except.ok skippedTree) rfl ?_).2.1 _ _ _
  intro x id hx hconst
  by_cases hxx : x = "x"
  · subst hxx
    cases hx
    cases hconst
  · by_cases hxN : x = "N"
    · subst hxN
      cases hx
      rfl
    · have hx' : (x == "x") = false := beq_eq_false_iff_ne.mpr hxx
      have hN : (x == "N") = false := beq_eq_false_iff_ne.mpr hxN
      simp [Sema.lookup, List.lookup_cons, hx', hN] at hx

end ToyC
