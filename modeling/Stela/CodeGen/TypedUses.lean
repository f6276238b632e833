import Stela.CodeGen.ProgramUses
import Stela.Semantic.ExprTyping

/-!
# The full expressions of an accepted program are typed

Every expression that the generator evaluates has been given an entry by the analysis, also where an assignment
has been lowered; the destination of an assignment is mutable.
-/

namespace Stela.CodeGen.TypedUses

open Stela.Syntax Semantic ExprTyping InferType Traverse LowerExpressions ProgramUses Library.Except

/-- The analysis gives the expression an entry. -/
def WellTyped (expr : AExpr) : Prop :=
  ∃ etype, Typed (fun _ ↦ True) (fun _ ↦ True) expr etype

def AllWellTyped (exprs : List AExpr) : Prop :=
  ∃ types, TypedAll (fun _ ↦ True) (fun _ ↦ True) exprs types

theorem wellTyped_of_checked {expr : AExpr} {type : Option Ty} {etype : ExprType}
    (h : Checked (Typed (fun _ ↦ True) (fun _ ↦ True) expr) type etype) : WellTyped expr := by
  obtain ⟨etype', htyped, -⟩ := exists_typed_of_checked h
  exact ⟨etype', htyped⟩

/-- The entry of a full expression; only what is mutable is assigned to. -/
def TypedUse (use : Use) (expr : AExpr) : Prop :=
  ∃ etype, Typed (fun _ ↦ True) (fun _ ↦ True) expr etype ∧ (use = .dst → etype.mut_ = .var)

theorem TypedUse.wellTyped {use : Use} {expr : AExpr} (h : TypedUse use expr) : WellTyped expr := by
  obtain ⟨etype, htyped, -⟩ := h
  exact ⟨etype, htyped⟩

theorem WellTyped.typedUse {use : Use} {expr : AExpr} (h : WellTyped expr) (huse : use ≠ .dst) : TypedUse use expr := by
  obtain ⟨etype, htyped⟩ := h
  exact ⟨etype, htyped, fun hdst ↦ absurd hdst huse⟩

/-- Every full expression of the list is typed. -/
abbrev UsesTyped (uses : List (Use × AExpr)) : Prop :=
  AllUses (fun _ expr ↦ WellTyped expr) uses

mutual

theorem mentions_anything : (expr : Expr) → Mentions (fun _ ↦ True) (fun _ ↦ True) expr
  | .binary lhs _ rhs => ⟨mentions_anything lhs, mentions_anything rhs⟩
  | .unary _ expr => mentions_anything expr
  | .call func args => ⟨mentions_anything func, mentionsAll_anything args⟩
  | .member object _ _ => ⟨mentions_anything object, fun _ _ ↦ trivial⟩
  | .subscript object index => ⟨mentions_anything object, mentions_anything index⟩
  | .ident _ _ => fun _ _ ↦ trivial
  | .ternary cond troo fols => ⟨mentions_anything cond, mentions_anything troo, mentions_anything fols⟩
  | .make _ expr => ⟨trivial, mentions_anything expr⟩
  | .array exprs | .initList exprs => mentionsAll_anything exprs
  | .lambda _ _ _ | .string _ | .char _ | .number _ | .bool _ => trivial

theorem mentionsAll_anything : (exprs : List Expr) → MentionsAll (fun _ ↦ True) (fun _ ↦ True) exprs
  | [] => trivial
  | expr :: exprs => ⟨mentions_anything expr, mentionsAll_anything exprs⟩

end

theorem passes_anything : Passes fun _ ↦ True :=
  ⟨trivial, fun _ _ ↦ trivial, fun _ _ _ _ ↦ trivial⟩

/-- What `getExprType` leaves is typed, whatever the names stand for. -/
theorem getExprType_checked {expr : Expr} {type : Option Ty} {expr' : AExpr} {etype : ExprType}
    (h : getExprType expr type = .ok (expr', etype)) :
    Checked (Typed (fun _ ↦ True) (fun _ ↦ True) expr') type etype :=
  getExprType_typed passes_anything (mentions_anything expr) (fun _ _ ↦ trivial) h

theorem getExprType_wellTyped {expr : Expr} {type : Option Ty} {expr' : AExpr} {etype : ExprType}
    (h : getExprType expr type = .ok (expr', etype)) : WellTyped expr' :=
  wellTyped_of_checked (getExprType_checked h)

theorem initType_wellTyped {type : Option Ty} {expr : Expr} {type' : Ty} {expr' : AExpr}
    (h : initType type expr = .ok (type', expr')) : WellTyped expr' := by
  simp only [initType, bind_eq_ok] at h
  obtain ⟨_, -, ⟨expr'', etype⟩, hexpr, _, -, h⟩ := h
  cases h
  exact getExprType_wellTyped hexpr

theorem builtinOperand_eq_ok {type : Ty} {message : String} {value : BtnType}
    (h : builtinOperand type message = .ok value) : type.concreteType = .btn value := by
  unfold builtinOperand at h
  split at h
  · rename_i hvalue
    cases h
    exact hvalue
  · cases h

theorem boolOp_convert (oper : AssignOp) : (convert oper).boolOp = false := by
  cases oper <;> rfl

theorem compOp_convert (oper : AssignOp) : (convert oper).compOp = false := by
  cases oper <;> rfl

/-- The operation of a lowered assignment is typed: it is on builtin values and does not compare. -/
theorem wellTyped_lowered {dst src : AExpr} {dtype : ExprType} {oper : BinOp} {value : BtnType}
    (hdst : Typed (fun _ ↦ True) (fun _ ↦ True) dst dtype) (hsrc : WellTyped src) (hbool : oper.boolOp = false)
    (hcomp : oper.compOp = false) (hvalue : dtype.type.concreteType = .btn value) :
    WellTyped (.binary ⟨none, dst.exprType⟩ dst oper src) := by
  obtain ⟨stype, hsrc⟩ := hsrc
  refine ⟨_, rfl, dtype, stype, ?_, ?_, ?_, ?_⟩
  · rw [hbool]
    exact hdst
  · rw [hbool]
    exact hsrc
  · simp [hcomp]
  · intro _
    rw [typed_exprType hdst] at hvalue
    exact ⟨value, hvalue⟩

theorem numberType_getOne {value : BtnType} (h : value.isArithType = true) : numberType (getOne value) = value := by
  cases value <;> first | rfl | cases h

theorem visitAsgn_typed {asgn : Asgn Expr} {asgn' : Asgn AExpr} (h : visitAsgn asgn = .ok asgn') :
    AllUses TypedUse (asgnUses (lowerAsgn asgn')) := by
  cases asgn with
  | compAssign dst oper src =>
    simp only [visitAsgn, bind_eq_ok, require_eq_ok] at h
    obtain ⟨⟨dst', dtype⟩, hdst, ⟨src', stype⟩, hsrc, value, hvalue, _, -, _, -, _, hmut, h⟩ := h
    cases h
    have hdst' := getExprType_checked hdst
    have hbinary := wellTyped_lowered hdst' (getExprType_wellTyped hsrc) (boolOp_convert oper) (compOp_convert oper)
      (builtinOperand_eq_ok hvalue)
    exact allUses_cons.mpr ⟨⟨dtype, hdst', fun _ ↦ by simpa using hmut⟩,
      allUses_cons.mpr ⟨hbinary.typedUse (by simp), allUses_nil⟩⟩
  | incrDecr expr incr =>
    simp only [visitAsgn, bind_eq_ok, require_eq_ok] at h
    obtain ⟨⟨expr', etype⟩, hexpr, _, hmut, value, hvalue, _, harith, h⟩ := h
    cases h
    have hexpr' := getExprType_checked hexpr
    have hconcrete := builtinOperand_eq_ok hvalue
    have htype : expr'.exprType.concreteType = .btn value := by
      rw [← typed_exprType hexpr']
      exact hconcrete
    have hone : WellTyped (.number ⟨none, expr'.exprType⟩ (getOne (builtinOf expr'.exprType))) := by
      refine ⟨_, rfl, ?_⟩
      simp only [builtinOf, htype, numberType_getOne harith]
    have hbool : BinOp.boolOp (if incr then .add else .sub) = false := by cases incr <;> rfl
    have hcomp : BinOp.compOp (if incr then .add else .sub) = false := by cases incr <;> rfl
    have hbinary := wellTyped_lowered hexpr' hone hbool hcomp hconcrete
    exact allUses_cons.mpr ⟨⟨etype, hexpr', fun _ ↦ by simpa using hmut⟩,
      allUses_cons.mpr ⟨hbinary.typedUse (by simp), allUses_nil⟩⟩
  | assign dst src =>
    simp only [visitAsgn, bind_eq_ok, require_eq_ok] at h
    obtain ⟨⟨dst', dtype⟩, hdst, ⟨src', stype⟩, hsrc, _, hmut, h⟩ := h
    cases h
    exact allUses_cons.mpr ⟨⟨dtype, getExprType_checked hdst, fun _ ↦ by simpa using hmut⟩,
      allUses_cons.mpr ⟨(getExprType_wellTyped hsrc).typedUse (by simp), allUses_nil⟩⟩
  | declAssign name expr =>
    simp only [visitAsgn, bind_eq_ok] at h
    obtain ⟨⟨type', expr'⟩, hinit, h⟩ := h
    cases h
    exact allUses_cons.mpr ⟨(initType_wellTyped hinit).typedUse (by simp), allUses_nil⟩
  | callAssign call =>
    simp only [visitAsgn, bind_eq_ok] at h
    obtain ⟨⟨call', etype⟩, hcall, _, -, h⟩ := h
    cases h
    exact allUses_cons.mpr ⟨(getExprType_wellTyped hcall).typedUse (by simp), allUses_nil⟩

theorem inferred_typedUse : Inferred TypedUse where
  cond h := by
    obtain ⟨⟨expr'', etype⟩, hexpr, h⟩ := bind_eq_ok.mp h
    cases h
    exact (getExprType_wellTyped hexpr).typedUse nofun
  init h := ⟨(initType_wellTyped h).typedUse nofun, (initType_wellTyped h).typedUse nofun⟩
  asgn := visitAsgn_typed
  swich h := (getExprType_wellTyped h).typedUse nofun
  other h := ⟨(getExprType_wellTyped h).typedUse nofun, (getExprType_wellTyped h).typedUse nofun⟩

theorem usesTyped_of_typedUse {uses : List (Use × AExpr)} (h : AllUses TypedUse uses) : UsesTyped uses :=
  fun use expr hmem ↦ (h use expr hmem).wellTyped

end Stela.CodeGen.TypedUses
