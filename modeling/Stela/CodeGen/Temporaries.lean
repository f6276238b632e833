import Stela.CodeGen.NestedConditions
import Stela.CodeGen.GenerateStat

/-!
# What the code of an expression leaves

The temporaries with destructors that it leaves to the innermost scope, and whether it has any instructions.
-/

namespace Stela.CodeGen

open Stela.Syntax GenerateExpr
open Blocks (tree elemTrees)

/-! ## Temporaries -/

/-- A prvalue of which a part is used is put into an object, which has a destructor. -/
def materializes (expr : AExpr) : Bool :=
  classifyValue expr == .prvalue && hasDtor expr.exprType

mutual

/-- The code leaves a temporary with a destructor to the scope. -/
def leaves : AExpr → Bool
  | .binary _ lhs _ rhs => leaves lhs || leaves rhs
  | .ternary _ cond troo fols => leaves cond || (leaves troo || leaves fols)
  | .unary _ _ expr | .make _ expr _ => leaves expr
  | .member _ object _ => leaves object || materializes object
  | .subscript _ object index => leaves object || (materializes object || leaves index)
  | .callPtr _ func args => leaves func || leavesArgs (funcParams func.exprType) args
  | .callFunc _ func args => leavesArgs func.params args
  | .callMethod _ func self args => leaves self || leavesArgs func.params args
  | .callBtn _ func args => leavesArgs (btnParams func args) args
  | .array _ exprs | .initList _ exprs => leavesElems exprs
  | .ident _ _ _ | .funcRef _ _ | .string _ _ | .char _ _ | .number _ _ | .bool _ _ | .lambda _ _ => false

def leavesArgs : List (ParamRef × Ty) → List AExpr → Bool
  | _ :: params, arg :: args => leaves arg || leavesArgs params args
  | _, _ => false

def leavesElems : List AExpr → Bool
  | [] => false
  | expr :: exprs => leaves expr || leavesElems exprs

end

theorem destroys_append (objs objs' : List Object) : destroys (objs ++ objs') = (destroys objs || destroys objs') :=
  List.any_append

theorem destroys_reverse (objs : List Object) : destroys objs.reverse = destroys objs :=
  List.any_reverse

/-- A computation of the generator adds a temporary with a destructor, or none. -/
def Leaves {α : Type} (m : Gen α) (b : Bool) : Prop :=
  ∀ s, destroys (m.run s).2.temps = (destroys s.temps || b)

theorem leaves_pure {α : Type} (a : α) : Leaves (pure a) false :=
  fun _ ↦ (Bool.or_false _).symm

theorem leaves_bind {α β : Type} {m : Gen α} {f : α → Gen β} {b b' : Bool} (h : Leaves m b) (h' : ∀ a, Leaves (f a) b') :
    Leaves (m >>= f) (b || b') := by
  intro s
  calc destroys ((f (m.run s).1).run (m.run s).2).2.temps = (destroys (m.run s).2.temps || b') := h' _ _
    _ = (destroys s.temps || (b || b')) := by rw [h s, Bool.or_assoc]

/-- What comes after adds no more. -/
theorem leaves_done {α β : Type} {m : Gen α} {f : α → Gen β} {b : Bool} (h : Leaves m b) (h' : ∀ a, Leaves (f a) false) :
    Leaves (m >>= f) b :=
  Bool.or_false b ▸ leaves_bind h h'

theorem leaves_alloc {β : Type} {f : ℕ → Gen β} {b : Bool} (h : ∀ n, Leaves (f n) b) : Leaves (alloc >>= f) b :=
  fun s ↦ h s.next ⟨s.next + 1, s.temps⟩

theorem leaves_pushTemp (obj : Object) : Leaves (pushTemp obj) (hasDtor obj.type) := by
  intro s
  change destroys (s.temps ++ [obj]) = _
  rw [destroys_append]
  simp [destroys]

theorem leaves_intoResult (type : Ty) (result : Bool) (code : Code) : Leaves (intoResult type result code) false := by
  unfold intoResult
  split
  · exact leaves_pure _
  · exact leaves_alloc fun _ ↦ leaves_pure _

theorem leaves_genCall (result : Bool) (expr : AExpr) (code : Code) : Leaves (genCall result expr code) false := by
  unfold genCall
  split
  · exact leaves_pure _
  · exact leaves_intoResult _ _ _

theorem leaves_visitParam (param : ParamRef × Ty) (expr : AExpr) {visit : Bool → Gen Code} {b : Bool}
    (h : ∀ result, Leaves (visit result) b) : Leaves (visitParam param expr visit) b := by
  unfold visitParam
  split
  · exact leaves_done (h false) fun _ ↦ leaves_pure _
  · split
    · exact leaves_done (h false) fun _ ↦ leaves_pure _
    · exact leaves_alloc fun _ ↦ leaves_done (h true) fun _ ↦ leaves_pure _

theorem leaves_materialize (expr : AExpr) {visit : Bool → Gen Code} {b : Bool} (h : ∀ result, Leaves (visit result) b) :
    Leaves (materialize expr visit) (b || materializes expr) := by
  unfold materialize materializes
  by_cases hcat : classifyValue expr = .prvalue
  · rw [if_pos hcat, hcat]
    refine leaves_alloc fun n ↦ leaves_bind (h true) fun code ↦ leaves_done ?_ fun _ ↦ leaves_pure _
    exact leaves_pushTemp ⟨n, expr.exprType⟩
  · rw [if_neg hcat, beq_false_of_ne hcat, Bool.false_and, Bool.or_false]
    exact h false

mutual

theorem visit_leaves : (expr : AExpr) → (result : Bool) → Leaves (visit expr result) (leaves expr)
  | .binary _ lhs oper rhs, result => by
    rw [visit, leaves]
    split <;>
      exact leaves_bind (visit_leaves lhs false) fun _ ↦ leaves_done (visit_leaves rhs false) fun _ ↦ leaves_pure _
  | .unary _ _ expr, result => by
    rw [visit]
    exact leaves_done (visit_leaves expr false) fun _ ↦ leaves_pure _
  | .callPtr _ func args, result => by
    rw [visit, leaves]
    refine leaves_bind (visit_leaves func false) fun _ ↦ leaves_done (visitParams_leaves _ args) fun _ ↦ ?_
    exact leaves_genCall _ _ _
  | .callFunc _ func args, result => by
    rw [visit]
    exact leaves_done (visitParams_leaves func.params args) fun _ ↦ leaves_genCall _ _ _
  | .callMethod _ func self args, result => by
    rw [visit, leaves]
    refine leaves_bind (leaves_visitParam _ self (visit_leaves self)) fun _ ↦ ?_
    exact leaves_done (visitParams_leaves func.params args) fun _ ↦ leaves_genCall _ _ _
  | .callBtn _ func args, result => by
    rw [visit]
    exact leaves_done (visitParams_leaves (btnParams func args) args) fun _ ↦ leaves_pure _
  | .member _ object _, result => by
    rw [visit, leaves]
    exact leaves_done (leaves_materialize object (visit_leaves object)) fun _ ↦ leaves_pure _
  | .subscript _ object index, result => by
    rw [visit, leaves, ← Bool.or_assoc]
    refine leaves_bind (leaves_materialize object (visit_leaves object)) fun _ ↦ ?_
    exact leaves_done (visit_leaves index false) fun _ ↦ leaves_pure _
  | .ident _ _ none, result | .ident _ _ (some _), result | .char _ _, result | .number _ _, result
  | .bool _ _, result => by
    rw [visit]
    exact leaves_pure _
  | .funcRef _ _, result | .string _ _, result | .lambda _ _, result => by
    rw [visit]
    exact leaves_intoResult _ _ _
  | .ternary info cond troo fols, result => by
    rw [visit, leaves]
    have hbranches (result : Bool) {k : Code → Code → Code} : Leaves (do
        let trooCode ← visit troo result
        let folsCode ← visit fols result
        return k trooCode folsCode) (leaves troo || leaves fols) :=
      leaves_bind (visit_leaves troo result) fun _ ↦ leaves_done (visit_leaves fols result) fun _ ↦ leaves_pure _
    refine leaves_bind (visit_leaves cond false) fun condCode ↦ ?_
    split
    · exact hbranches true
    · split
      · exact hbranches false
      · split
        · exact hbranches false
        · exact leaves_alloc fun n ↦ hbranches true
  | .make info expr cast, result => by
    rw [visit]
    split
    · exact visit_leaves expr result
    · refine leaves_done (visit_leaves expr false) fun code ↦ ?_
      split <;> exact leaves_pure _
  | .array _ exprs, result => by
    rw [visit]
    exact leaves_done (visitElems_leaves exprs) fun _ ↦ leaves_intoResult _ _ _
  | .initList _ exprs, result => by
    rw [visit]
    exact leaves_done (visitElems_leaves exprs) fun _ ↦ leaves_done (leaves_intoResult _ _ _) fun _ ↦ leaves_pure _

theorem visitParams_leaves : (params : List (ParamRef × Ty)) → (args : List AExpr) →
    Leaves (visitParams params args) (leavesArgs params args)
  | [], [] | [], _ :: _ | _ :: _, [] => leaves_pure _
  | param :: params, arg :: args => by
    rw [visitParams]
    refine leaves_bind (leaves_visitParam param arg (visit_leaves arg)) fun _ ↦ ?_
    exact leaves_done (visitParams_leaves params args) fun _ ↦ leaves_pure _

theorem visitElems_leaves : (exprs : List AExpr) → Leaves (visitElems exprs) (leavesElems exprs)
  | [] => leaves_pure _
  | expr :: exprs => by
    rw [visitElems]
    exact leaves_bind (visit_leaves expr true) fun _ ↦ leaves_done (visitElems_leaves exprs) fun _ ↦ leaves_pure _

end

theorem createReturnObject_leaves (movable : ℕ → Bool) (expr : AExpr) :
    Leaves (createReturnObject movable expr) (leaves expr) := by
  unfold createReturnObject generateExpr
  split
  · exact leaves_done (visit_leaves expr false) fun _ ↦ leaves_pure _
  · split
    · exact leaves_done (visit_leaves expr false) fun _ ↦ leaves_pure _
    · exact visit_leaves expr true

theorem generateBoolExpr_leaves (expr : AExpr) : Leaves (generateBoolExpr expr) (leaves expr) :=
  leaves_done (visit_leaves expr false) fun _ ↦ leaves_pure _

theorem generate_leaves (movable : ℕ → Bool) (use : Use) (expr : AExpr) :
    Leaves (use.generate movable expr) (leaves expr) := by
  cases use with
  | cond => exact generateBoolExpr_leaves expr
  | init type =>
    unfold Use.generate
    dsimp only
    split
    · exact fun s ↦ generateBoolExpr_leaves expr s
    · exact visit_leaves expr true
  | global | swich | case => exact visit_leaves expr true
  | dst | src | call => exact visit_leaves expr false
  | ret => exact createReturnObject_leaves movable expr

/-! ## Instructions -/

/-- Without a result address there is nothing to be done. -/
def silent : AExpr → Bool
  | .ident _ _ none | .char _ _ | .number _ _ | .bool _ _ => true
  | .make _ expr false => silent expr
  | .ident _ _ (some _) | .make _ _ true | .binary _ _ _ _ | .unary _ _ _ | .callPtr _ _ _ | .callFunc _ _ _
  | .callMethod _ _ _ _ | .callBtn _ _ _ | .member _ _ _ | .subscript _ _ _ | .funcRef _ _ | .ternary _ _ _ _
  | .string _ _ | .array _ _ | .initList _ _ | .lambda _ _ => false

theorem silent_leaves : (expr : AExpr) → silent expr = true → leaves expr = false
  | .ident _ _ _, _ | .char _ _, _ | .number _ _, _ | .bool _ _, _ => rfl
  | .make _ expr false, h => silent_leaves expr h

theorem emits_intoResult (type : Ty) (result : Bool) {code : Code} (h : (tree code true).emits = true) :
    Yields (intoResult type result code) fun code ↦ (tree code result).emits = true := by
  unfold intoResult
  cases result with
  | true => exact yields_pure h
  | false => exact yields_bind_any fun n ↦ yields_pure (by simp [tree, Blocks.Tree.emits, Blocks.Tree.emitss, h])

theorem emits_storeValueAsResult (result : Bool) (code : Code) :
    (tree (storeValueAsResult result code) result).emits = (result || (tree code false).emits) := by
  cases result <;> rfl

theorem emits_constructResultFromValue (result : Bool) (expr : AExpr) (code : Code) :
    (tree (constructResultFromValue result expr code) result).emits = (result || (tree code false).emits) := by
  cases result <;> rfl

theorem emits_call (result : Bool) (target : Target) (ret : Ty) (args : List Code) (dtors : List Object) :
    (tree (.call target ret args dtors) result).emits = true := rfl

theorem emits_genCall (result : Bool) (expr : AExpr) (target : Target) (ret : Ty) (args : List Code) (dtors : List Object) :
    Yields (genCall result expr (.call target ret args dtors)) fun code ↦ (tree code result).emits = true := by
  unfold genCall
  split
  · exact yields_pure (by rw [emits_constructResultFromValue, emits_call, Bool.or_true])
  · exact emits_intoResult _ _ rfl

theorem yields_any {α β : Type} {m : Gen α} {f : α → β} {P : β → Prop} (h : ∀ a, P (f a)) :
    Yields (do return f (← m)) P :=
  yields_bind_any fun a ↦ yields_pure (h a)

theorem yields_visitElems_length : (exprs : List AExpr) → Yields (visitElems exprs) fun codes ↦ codes.length = exprs.length
  | [] => yields_pure rfl
  | expr :: exprs => by
    rw [visitElems]
    exact yields_bind_any fun code ↦ yields_bind (yields_visitElems_length exprs) fun codes hlength ↦
      yields_pure (congrArg (· + 1) hlength)

/-- A value that is not of a builtin type is converted by a call. -/
theorem emits_convertToBool {expr : AExpr} (h : isBtnType expr.exprType = false) (code : Code) :
    (tree (convertToBool expr code) false).emits = true := by
  have hbool : isBoolType expr.exprType = false := by
    unfold isBoolType
    unfold isBtnType at h
    cases htype : expr.exprType.concreteType <;> simp_all
  unfold convertToBool
  rw [if_neg (Bool.eq_false_iff.mp hbool)]
  rfl

/-- There are instructions if there is a result address. -/
theorem visit_emits : (expr : AExpr) → (result : Bool) →
    Yields (visit expr result) fun code ↦ (tree code result).emits = (result || !silent expr)
  | .binary _ lhs oper rhs, result => by
    rw [visit, silent, Bool.not_false, Bool.or_true]
    split <;> refine yields_bind_any fun l ↦ yields_bind_any fun r ↦ yields_pure ?_ <;>
      rw [emits_storeValueAsResult] <;> exact Bool.or_true result
  | .unary _ oper expr, result => by
    rw [visit, silent, Bool.not_false, Bool.or_true]
    refine yields_bind_any fun code ↦ yields_pure ?_
    rw [emits_storeValueAsResult]
    exact Bool.or_true result
  | .callPtr _ func args, result => by
    rw [visit, silent, Bool.not_false, Bool.or_true]
    exact yields_bind_any fun _ ↦ yields_bind_any fun _ ↦ emits_genCall _ _ _ _ _ _
  | .callFunc _ func args, result => by
    rw [visit, silent, Bool.not_false, Bool.or_true]
    exact yields_bind_any fun _ ↦ emits_genCall _ _ _ _ _ _
  | .callMethod _ func self args, result => by
    rw [visit, silent, Bool.not_false, Bool.or_true]
    exact yields_bind_any fun _ ↦ yields_bind_any fun _ ↦ emits_genCall _ _ _ _ _ _
  | .callBtn _ func args, result => by
    rw [visit, silent, Bool.not_false, Bool.or_true]
    refine yields_bind_any fun _ ↦ yields_pure ?_
    rw [emits_constructResultFromValue, emits_call, Bool.or_true]
  | .member _ object _, result => by
    rw [visit, silent, Bool.not_false, Bool.or_true]
    refine yields_bind_any fun _ ↦ yields_pure ?_
    rw [emits_constructResultFromValue]
    exact Bool.or_true result
  | .subscript _ object index, result => by
    rw [visit, silent, Bool.not_false, Bool.or_true]
    refine yields_bind_any fun _ ↦ yields_bind_any fun _ ↦ yields_pure ?_
    rw [emits_constructResultFromValue]
    exact Bool.or_true result
  | .ident _ _ none, result => by
    rw [visit]
    exact yields_pure (emits_constructResultFromValue _ _ _)
  | .ident _ _ (some _), result => by
    rw [visit]
    exact yields_pure (emits_constructResultFromValue _ _ _)
  | .char _ _, result | .number _ _, result | .bool _ _, result => by
    rw [visit]
    exact yields_pure (emits_storeValueAsResult _ _)
  | .funcRef _ _, result | .lambda _ _, result => by
    rw [visit, silent, Bool.not_false, Bool.or_true]
    exact emits_intoResult _ _ rfl
  | .string _ value, result => by
    rw [visit, silent, Bool.not_false, Bool.or_true]
    refine emits_intoResult _ _ ?_
    split <;> rfl
  | .ternary info cond troo fols, result => by
    rw [visit, silent, Bool.not_false, Bool.or_true]
    refine yields_bind_any fun condCode ↦ ?_
    split
    · exact yields_bind_any fun _ ↦ yields_any fun _ ↦ rfl
    · split
      · exact yields_bind_any fun _ ↦ yields_any fun _ ↦ rfl
      · split
        · exact yields_bind_any fun _ ↦ yields_any fun _ ↦ rfl
        · exact yields_bind_any fun n ↦ yields_bind_any fun _ ↦ yields_any fun _ ↦ rfl
  | .make _ expr false, result => by
    rw [visit, silent]
    exact visit_emits expr result
  | .make info expr true, result => by
    rw [visit, silent, Bool.not_false, Bool.or_true]
    refine yields_bind_any fun code ↦ ?_
    split
    · next h =>
      refine yields_pure ?_
      rw [emits_storeValueAsResult, emits_convertToBool (Bool.not_eq_true' _ ▸ h.2), Bool.or_true]
    · refine yields_pure ?_
      rw [emits_storeValueAsResult]
      exact Bool.or_true result
  | .array _ exprs, result => by
    rw [visit, silent, Bool.not_false, Bool.or_true]
    refine yields_bind_any fun codes ↦ emits_intoResult _ _ ?_
    split <;> rfl
  | .initList info exprs, result => by
    rw [visit, silent, Bool.not_false, Bool.or_true]
    refine yields_bind (yields_visitElems_length exprs) fun codes hlength ↦ ?_
    have hcode : (tree (if exprs.isEmpty then .defConstruct info.exprType else .initList codes) true).emits = true := by
      cases exprs with
      | nil => rfl
      | cons expr exprs =>
        obtain ⟨code, codes, rfl⟩ := List.exists_cons_of_length_eq_add_one hlength
        rfl
    refine yields_bind (emits_intoResult info.exprType result hcode) fun code hcode ↦ yields_pure ?_
    split
    · rfl
    · exact hcode

end Stela.CodeGen
