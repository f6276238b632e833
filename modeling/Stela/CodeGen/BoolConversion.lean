import Stela.CodeGen.Meaning
import Stela.CodeGen.ProgramUses

/-!
# Conversions to bool: the generator against the analysis

The analysis leaves no trace of a conversion, so the generator finds it again at each place where an
expression is evaluated. It does so for conditions, for the operands of boolean operators, for `make` and
for initialised locals; everywhere else a converted expression is evaluated as it is. The main result,
`generate_converts_iff`, says exactly which programs are compiled with their conversions.
-/

namespace Stela.CodeGen.BoolConversion

open Stela.Syntax Semantic Semantic.InferType Semantic.Conversions Semantic.Traverse LowerExpressions
open Library.Except ProgramUses

/-! ## Expressions -/

mutual

/-- No converted expression stands as a branch of a ternary, an element of an array literal or a field
of an initialiser list. -/
def Converts : AExpr → Prop
  | .binary _ lhs _ rhs => Converts lhs ∧ Converts rhs
  | .unary _ _ expr => Converts expr
  | .callPtr _ func args => Converts func ∧ ConvertsArgs args
  | .callFunc _ _ args => ConvertsArgs args
  | .callMethod _ _ self args => Converts self ∧ ConvertsArgs args
  | .callBtn _ _ args => ConvertsArgs args
  | .member _ object _ => Converts object
  | .subscript _ object index => Converts object ∧ Converts index
  | .ternary _ cond troo fols =>
      Converts cond ∧ (Converts troo ∧ isConverted troo = false) ∧ Converts fols ∧ isConverted fols = false
  | .make _ expr _ => Converts expr
  | .array _ exprs => ConvertsAll exprs
  | .initList _ exprs => ConvertsAll exprs
  | .ident _ _ _ | .funcRef _ _ | .string _ _ | .char _ _ | .number _ _ | .bool _ _ | .lambda _ _ => True

def ConvertsArgs : List AExpr → Prop
  | [] => True
  | arg :: args => Converts arg ∧ ConvertsArgs args

def ConvertsAll : List AExpr → Prop
  | [] => True
  | expr :: exprs => (Converts expr ∧ isConverted expr = false) ∧ ConvertsAll exprs

end

theorem isBoolType_of_isConverted {expr : AExpr} (h : isConverted expr = true) :
    isBoolType expr.exprType = false := by
  obtain ⟨type, -, hconverts⟩ : ∃ type, expr.expectedType = some type ∧ convertsToBool type expr.exprType = true := by
    simpa [isConverted, Option.any_eq_true] using h
  exact (isBoolType_of_converts hconverts).2

theorem convertedMeaning_inj {expr : AExpr} {a b : Meaning} :
    convertedMeaning expr a = convertedMeaning expr b ↔ a = b := by
  unfold convertedMeaning
  split <;> simp

/-- An operand is evaluated with its conversion. -/
theorem operandMeaning_of_operand {bool : Bool} {expr : AExpr} (h : Operand bool expr) (meaning : Meaning) :
    operandMeaning bool expr meaning = convertedMeaning expr meaning := by
  rw [Operand] at h
  cases bool with
  | false => simp [operandMeaning, convertedMeaning, h]
  | true => cases htype : isBoolType expr.exprType <;>
      simp [operandMeaning, boolMeaning, convertedMeaning, h, htype]

theorem convertedMeaning_of_operand {expr : AExpr} (h : Operand false expr) (meaning : Meaning) :
    convertedMeaning expr meaning = meaning :=
  (operandMeaning_of_operand h meaning).symm

/-- The code of an expression that is not a bool does not end with a conversion. -/
theorem computed_ne_toBool {type : Ty} {arg : Meaning} : (expr : AExpr) → Analysed expr →
    isBoolType expr.exprType = false → computed expr ≠ .toBool type arg
  | .make info expr cast, h, hbool => by
    change isBoolType info.exprType = false at hbool
    cases cast with
    | true => simp [computed, hbool]
    | false =>
      simpa [computed] using computed_ne_toBool expr h.1 ((h.2.retyped rfl).trans hbool)
  | .ident _ _ captureIndex, _, _ => by cases captureIndex <;> simp [computed]
  | .string _ value, _, _ => by cases value <;> simp [computed]
  | .array _ exprs, _, _ | .initList _ exprs, _, _ => by cases exprs <;> simp [computed]
  | .binary _ _ _ _, _, _ | .unary _ _ _, _, _ | .callPtr _ _ _, _, _ | .callFunc _ _ _, _, _
  | .callMethod _ _ _ _, _, _ | .callBtn _ _ _, _, _ | .member _ _ _, _, _ | .subscript _ _ _, _, _
  | .funcRef _ _, _, _ | .ternary _ _ _ _, _, _ | .char _ _, _, _ | .number _ _, _, _ | .bool _ _, _, _
  | .lambda _ _, _, _ => by simp [computed]

/-- Nor is such an expression a conversion. -/
theorem exprMeaning_ne_toBool {type : Ty} {arg : Meaning} : (expr : AExpr) → Analysed expr →
    isBoolType expr.exprType = false → exprMeaning expr ≠ .toBool type arg
  | .make info expr cast, h, hbool => by
    change isBoolType info.exprType = false at hbool
    have hconverted : isConverted expr = false := by
      by_contra hc
      have := (h.2.converted (by simpa using hc)).2.1
      simp [hbool] at this
    cases cast with
    | true => simp [exprMeaning, hconverted]
    | false =>
      simpa [exprMeaning, convertedMeaning, hconverted] using
        exprMeaning_ne_toBool expr h.1 ((h.2.retyped rfl).trans hbool)
  | .ident _ _ captureIndex, _, _ => by cases captureIndex <;> simp [exprMeaning]
  | .string _ value, _, _ => by cases value <;> simp [exprMeaning]
  | .array _ exprs, _, _ | .initList _ exprs, _, _ => by cases exprs <;> simp [exprMeaning]
  | .binary _ _ _ _, _, _ | .unary _ _ _, _, _ | .callPtr _ _ _, _, _ | .callFunc _ _ _, _, _
  | .callMethod _ _ _ _, _, _ | .callBtn _ _ _, _, _ | .member _ _ _, _, _ | .subscript _ _ _, _, _
  | .funcRef _ _, _, _ | .ternary _ _ _ _, _, _ | .char _ _, _, _ | .number _ _, _, _ | .bool _ _, _, _
  | .lambda _ _, _, _ => by simp [exprMeaning]

/-- Code that leaves out the conversion of an expression is right when there is none. -/
theorem computed_eq_converted_iff {expr : AExpr} (hanalysed : Analysed expr)
    (h : computed expr = exprMeaning expr ↔ Converts expr) :
    computed expr = convertedMeaning expr (exprMeaning expr) ↔ Converts expr ∧ isConverted expr = false := by
  cases hc : isConverted expr with
  | false => simpa [convertedMeaning, hc] using h
  | true =>
    simpa [convertedMeaning, hc] using computed_ne_toBool expr hanalysed (isBoolType_of_isConverted hc)

mutual

/-- The code of an expression contains exactly its conversions if and only if `Converts` holds of it. -/
theorem computed_eq_exprMeaning_iff : (expr : AExpr) → Analysed expr →
    (computed expr = exprMeaning expr ↔ Converts expr)
  | .binary _ lhs oper rhs, h => by
    simp [computed, exprMeaning, Converts, operandMeaning_of_operand h.1.2, operandMeaning_of_operand h.2.2,
      convertedMeaning_inj, computed_eq_exprMeaning_iff lhs h.1.1, computed_eq_exprMeaning_iff rhs h.2.1]
  | .unary _ oper expr, h => by
    simp [computed, exprMeaning, Converts, operandMeaning_of_operand h.2, convertedMeaning_inj,
      computed_eq_exprMeaning_iff expr h.1]
  | .callPtr _ func args, h => by
    simp [computed, exprMeaning, Converts, convertedMeaning_of_operand h.1.2,
      computed_eq_exprMeaning_iff func h.1.1, computedAll_eq_args args h.2.1]
  | .callFunc _ func args, h => by
    simp [computed, exprMeaning, Converts, computedAll_eq_args args h.1]
  | .callMethod _ func self args, h => by
    simp [computed, exprMeaning, Converts, convertedMeaning_of_operand h.1.2,
      computed_eq_exprMeaning_iff self h.1.1, computedAll_eq_args args h.2.1]
  | .callBtn _ func args, h => by
    simp [computed, exprMeaning, Converts, computedAll_eq_args args h]
  | .member _ object index, h => by
    simp [computed, exprMeaning, Converts, convertedMeaning_of_operand h.2,
      computed_eq_exprMeaning_iff object h.1]
  | .subscript _ object index, h => by
    simp [computed, exprMeaning, Converts, convertedMeaning_of_operand h.1.2, convertedMeaning_of_operand h.2.2,
      computed_eq_exprMeaning_iff object h.1.1, computed_eq_exprMeaning_iff index h.2.1]
  | .ternary _ cond troo fols, h => by
    have hcond : boolMeaning cond (computed cond) = convertedMeaning cond (computed cond) :=
      operandMeaning_of_operand h.1.2 _
    simp only [computed, exprMeaning, Converts, hcond, convertedMeaning_inj, Meaning.node.injEq, List.cons.injEq,
      and_true, true_and, computed_eq_exprMeaning_iff cond h.1.1,
      computed_eq_converted_iff h.2.1 (computed_eq_exprMeaning_iff troo h.2.1),
      computed_eq_converted_iff h.2.2 (computed_eq_exprMeaning_iff fols h.2.2)]
  | .make info expr cast, h => by
    have ih := computed_eq_exprMeaning_iff expr h.1
    cases hc : isConverted expr with
    | true =>
      obtain ⟨rfl, htype, hbtn⟩ := h.2.converted hc
      simp [computed, exprMeaning, Converts, convertedMeaning, boolMeaning, hc, htype, hbtn,
        isBoolType_of_isConverted hc, ih]
    | false =>
      cases cast with
      | false => simpa [computed, exprMeaning, Converts, convertedMeaning, hc] using ih
      | true => simpa [computed, exprMeaning, Converts, hc, h.2.casted hc rfl] using ih
  | .array _ exprs, h => by
    cases exprs with
    | nil => simp [computed, exprMeaning, Converts, ConvertsAll]
    | cons expr exprs =>
      simpa [computed, exprMeaning, Converts] using computedAll_eq_elems (expr :: exprs) h
  | .initList _ exprs, h => by
    cases exprs with
    | nil => simp [computed, exprMeaning, Converts, ConvertsAll]
    | cons expr exprs =>
      simpa [computed, exprMeaning, Converts] using computedAll_eq_elems (expr :: exprs) h
  | .ident _ _ captureIndex, _ => by cases captureIndex <;> simp [computed, exprMeaning, Converts]
  | .funcRef _ _, _ | .string _ _, _ | .char _ _, _ | .number _ _, _ | .bool _ _, _ | .lambda _ _, _ => by
    simp [computed, exprMeaning, Converts]

theorem computedAll_eq_args : (args : List AExpr) → AnalysedArgs args →
    (computedAll args = exprMeanings args ↔ ConvertsArgs args)
  | [], _ => by simp [computedAll, exprMeanings, ConvertsArgs]
  | arg :: args, h => by
    simp [computedAll, exprMeanings, ConvertsArgs, convertedMeaning_of_operand h.1.2,
      computed_eq_exprMeaning_iff arg h.1.1, computedAll_eq_args args h.2]

theorem computedAll_eq_elems : (exprs : List AExpr) → AnalysedAll exprs →
    (computedAll exprs = exprMeanings exprs ↔ ConvertsAll exprs)
  | [], _ => by simp [computedAll, exprMeanings, ConvertsAll]
  | expr :: exprs, h => by
    simp only [computedAll, exprMeanings, ConvertsAll, List.cons.injEq, computedAll_eq_elems exprs h.2,
      computed_eq_converted_iff h.1 (computed_eq_exprMeaning_iff expr h.1)]

end

/-! ## Full expressions -/

/-- What the analysis ensures of an expression and its use. -/
structure Fits (use : Use) (expr : AExpr) : Prop where
  analysed : Analysed expr
  cond : use = .cond → Operand true expr
  init : ∀ type, use = .init type → isConverted expr = true → isBoolCast type expr.exprType = true
  unexpected : use = .swich ∨ use = .dst ∨ use = .call → isConverted expr = false

/-- Where an expression is evaluated with its own conversion: in a condition, and in the initialiser of a
local whose type and whose initialiser's type tell. -/
def ConvertsUse : Use → AExpr → Prop
  | .cond, _ => True
  | .init type, expr => isBoolCast type expr.exprType = isConverted expr
  | .global, expr | .swich, expr | .case, expr | .dst, expr | .src, expr | .call, expr | .ret, expr =>
      isConverted expr = false

def useComputed (use : Use) (expr : AExpr) : Meaning :=
  match use with
  | .cond => boolMeaning expr (computed expr)
  | .init type =>
      if isBoolCast type expr.exprType then boolMeaning expr (computed expr) else computed expr
  | _ => computed expr

theorem generateExpr_computes {expr : AExpr} (h : Analysed expr) (result : Bool) :
    Computes (GenerateExpr.generateExpr expr result) (computed expr) :=
  visit_computes expr h result

theorem generateBoolExpr_computes {expr : AExpr} (h : Analysed expr) :
    Computes (GenerateExpr.generateBoolExpr expr) (boolMeaning expr (computed expr)) :=
  yields_bind (visit_computes expr h false) fun code hcode ↦ yields_pure (by simp [hcode])

theorem createReturnObject_computes {movable : ℕ → Bool} {expr : AExpr} (h : Analysed expr) :
    Computes (createReturnObject movable expr) (computed expr) := by
  unfold createReturnObject
  split
  · refine yields_bind (generateExpr_computes h false) fun code hcode ↦ yields_pure ?_
    split <;> simpa [Code.meaning] using hcode
  · split
    · exact yields_bind (generateExpr_computes h false) fun code hcode ↦ yields_pure (by simpa [Code.meaning] using hcode)
    · exact generateExpr_computes h true

theorem generate_computes (movable : ℕ → Bool) {expr : AExpr} (h : Analysed expr) :
    (use : Use) → Computes (use.generate movable expr) (useComputed use expr)
  | .cond => generateBoolExpr_computes h
  | .init type => by
    unfold Use.generate useComputed
    dsimp only
    split
    · exact yields_bind (generateBoolExpr_computes h) fun code hcode ↦ yields_pure (by simpa [Code.meaning] using hcode)
    · exact generateExpr_computes h true
  | .global | .swich | .case => generateExpr_computes h true
  | .dst | .src | .call => generateExpr_computes h false
  | .ret => createReturnObject_computes h

/-- The code of a full expression contains exactly its conversions if and only if `Converts` and
`ConvertsUse` hold of it. -/
theorem useComputed_eq_iff {expr : AExpr} : {use : Use} → Fits use expr →
    (useComputed use expr = convertedMeaning expr (exprMeaning expr) ↔ Converts expr ∧ ConvertsUse use expr)
  | .cond, h => by
    have hcond : boolMeaning expr (computed expr) = convertedMeaning expr (computed expr) :=
      operandMeaning_of_operand (h.cond rfl) _
    simp [useComputed, ConvertsUse, hcond, convertedMeaning_inj, computed_eq_exprMeaning_iff expr h.analysed]
  | .init type, h => by
    have ih := computed_eq_exprMeaning_iff expr h.analysed
    cases hcast : isBoolCast type expr.exprType with
    | false =>
      have hc : isConverted expr = false := by
        by_contra hc
        exact absurd (h.init type rfl (by simpa using hc)) (by simp [hcast])
      simpa [useComputed, ConvertsUse, convertedMeaning, hcast, hc] using ih
    | true =>
      have hbool : isBoolType expr.exprType = false := by
        simp only [isBoolCast, Bool.and_eq_true, Bool.not_eq_true'] at hcast
        exact hcast.2
      cases hc : isConverted expr with
      | true => simpa [useComputed, ConvertsUse, convertedMeaning, boolMeaning, hcast, hc, hbool] using ih
      | false =>
        have hne : exprMeaning expr ≠ .toBool expr.exprType (computed expr) :=
          exprMeaning_ne_toBool expr h.analysed hbool
        simpa [useComputed, ConvertsUse, convertedMeaning, boolMeaning, hcast, hc, hbool] using hne.symm
  | .global, h | .swich, h | .case, h | .dst, h | .src, h | .call, h | .ret, h =>
    computed_eq_converted_iff h.analysed (computed_eq_exprMeaning_iff expr h.analysed)

/-! ## Statements -/

/-- Every full expression of the list fits its use. -/
def AllFit (uses : List (Use × AExpr)) : Prop :=
  ∀ use expr, (use, expr) ∈ uses → Fits use expr

theorem getExprType_none {expr : Expr} {expr' : AExpr} {etype : ExprType}
    (h : getExprType expr none = .ok (expr', etype)) :
    Analysed expr' ∧ isConverted expr' = false ∧ etype.type = expr'.exprType := by
  obtain ⟨hentered, htype⟩ := visitExprCheck_none (visit_analysed expr _ _) h
  exact ⟨hentered.analysed, operand_of_unexpected hentered.expected, htype⟩

theorem getExprType_some {expr : Expr} {type : Ty} {expr' : AExpr} {etype : ExprType}
    (h : getExprType expr (some type) = .ok (expr', etype)) :
    Analysed expr' ∧ isConverted expr' = convertsToBool type expr'.exprType := by
  obtain ⟨hentered, -⟩ := visitExprCheck_some (visit_analysed expr _ _) h
  exact ⟨hentered.analysed, isConverted_of_entered hentered⟩

/-- An expression that is used where nothing looks at its type. -/
theorem fits_of_analysed {use : Use} {expr : AExpr} (h : Analysed expr)
    (huse : use = .global ∨ use = .case ∨ use = .src ∨ use = .ret) : Fits use expr := by
  rcases huse with rfl | rfl | rfl | rfl <;> exact ⟨h, nofun, nofun, by simp⟩

theorem fits_of_unconverted {use : Use} {expr : AExpr} (h : Analysed expr) (hc : isConverted expr = false)
    (huse : use ≠ .cond) : Fits use expr :=
  ⟨h, fun hcond ↦ absurd hcond huse, fun _ _ hc' ↦ by simp [hc] at hc', fun _ ↦ hc⟩

theorem visitCond_fits {expr : Expr} {expr' : AExpr} (h : visitCond expr = .ok expr') : Fits .cond expr' := by
  obtain ⟨⟨expr'', etype⟩, hexpr, h⟩ := bind_eq_ok.mp h
  cases h
  obtain ⟨hentered, haccepted⟩ := visitExprCheck_some (visit_analysed expr _ _) hexpr
  exact ⟨hentered.analysed, fun _ ↦ operand_of_accepted hentered haccepted, nofun, by simp⟩

theorem initType_fits {type : Option Ty} {expr : Expr} {type' : Ty} {expr' : AExpr}
    (h : initType type expr = .ok (type', expr')) :
    Fits (.init type') expr' ∧ (type = none → isConverted expr' = false) := by
  simp only [initType, bind_eq_ok] at h
  obtain ⟨_, -, ⟨expr'', etype⟩, hexpr, _, -, h⟩ := h
  cases h
  cases type with
  | none =>
    obtain ⟨hanalysed, hc, -⟩ := getExprType_none hexpr
    exact ⟨fits_of_unconverted hanalysed hc (by simp), fun _ ↦ hc⟩
  | some type =>
    obtain ⟨hanalysed, hc⟩ := getExprType_some hexpr
    refine ⟨⟨hanalysed, by simp, ?_, by simp⟩, by simp⟩
    intro _ huse hc'
    cases huse
    rw [hc] at hc'
    simp [isBoolCast, isBoolType_of_converts hc']

theorem builtinOperand_eq_ok {type : Ty} {message : String} {value : BtnType}
    (h : builtinOperand type message = .ok value) : type.concreteType = .btn value := by
  unfold builtinOperand at h
  split at h
  · rename_i hvalue
    cases h
    exact hvalue
  · cases h

theorem boolOp_convert (oper : AssignOp) : (LowerExpressions.convert oper).boolOp = false := by
  cases oper <;> rfl

/-- The source of a compound assignment is never converted: there is none on `bool`. -/
theorem compAssign_unconverted {oper : AssignOp} {type etype : Ty} {value : BtnType}
    (htype : type.concreteType = .btn value) (hvalid : oper.validOp value = true) :
    convertsToBool type etype = false := by
  by_contra hc
  obtain ⟨-, hbool, -⟩ := convertsToBool_iff.mp (by simpa using hc)
  have hvalue : value = .bool := by
    simpa [htype] using concreteType_of_compare_bool _ hbool
  subst hvalue
  cases oper <;> simp [AssignOp.validOp, BtnType.isArithType, BtnType.isBitwiseType] at hvalid

theorem visitAsgn_fits {asgn : Asgn Expr} {asgn' : Asgn AExpr} (h : visitAsgn asgn = .ok asgn') :
    AllUses Fits (asgnUses (lowerAsgn asgn')) := by
  cases asgn with
  | compAssign dst oper src =>
    simp only [visitAsgn, bind_eq_ok, require_eq_ok] at h
    obtain ⟨⟨dst', dtype⟩, hdst, ⟨src', stype⟩, hsrc, value, hvalue, _, -, _, hvalid, _, -, h⟩ := h
    cases h
    obtain ⟨hdst, hdc, -⟩ := getExprType_none hdst
    obtain ⟨hsrc, hsc⟩ := getExprType_some hsrc
    rw [compAssign_unconverted (builtinOperand_eq_ok hvalue) hvalid] at hsc
    refine allUses_cons.mpr ⟨fits_of_unconverted hdst hdc (by simp), allUses_cons.mpr ⟨?_, allUses_nil⟩⟩
    refine fits_of_analysed ⟨⟨hdst, ?_⟩, hsrc, ?_⟩ (.inr (.inr (.inl rfl)))
    · simp [Operand, boolOp_convert, hdc]
    · simp [Operand, boolOp_convert, hsc]
  | incrDecr expr incr =>
    simp only [visitAsgn, bind_eq_ok, require_eq_ok] at h
    obtain ⟨⟨expr', etype⟩, hexpr, _, -, value, hvalue, _, -, h⟩ := h
    cases h
    obtain ⟨hexpr, hc, -⟩ := getExprType_none hexpr
    refine allUses_cons.mpr ⟨fits_of_unconverted hexpr hc (by simp), allUses_cons.mpr ⟨?_, allUses_nil⟩⟩
    have hoper : BinOp.boolOp (if incr then .add else .sub) = false := by cases incr <;> rfl
    refine fits_of_analysed ⟨⟨hexpr, ?_⟩, trivial, ?_⟩ (.inr (.inr (.inl rfl)))
    · simp [Operand, hoper, hc]
    · simp [Operand, hoper, isConverted, AExpr.expectedType, AExpr.info]
  | assign dst src =>
    simp only [visitAsgn, bind_eq_ok] at h
    obtain ⟨⟨dst', dtype⟩, hdst, ⟨src', stype⟩, hsrc, _, -, h⟩ := h
    cases h
    obtain ⟨hdst, hdc, -⟩ := getExprType_none hdst
    obtain ⟨hsrc, -⟩ := getExprType_some hsrc
    exact allUses_cons.mpr ⟨fits_of_unconverted hdst hdc (by simp),
      allUses_cons.mpr ⟨fits_of_analysed hsrc (.inr (.inr (.inl rfl))), allUses_nil⟩⟩
  | declAssign name expr =>
    simp only [visitAsgn, bind_eq_ok] at h
    obtain ⟨⟨type', expr'⟩, hinit, h⟩ := h
    cases h
    obtain ⟨hfits, hc⟩ := initType_fits hinit
    exact allUses_cons.mpr ⟨fits_of_unconverted hfits.analysed (hc rfl) (by simp), allUses_nil⟩
  | callAssign call =>
    simp only [visitAsgn, bind_eq_ok] at h
    obtain ⟨⟨call', etype⟩, hcall, _, -, h⟩ := h
    cases h
    obtain ⟨hcall, hc, -⟩ := getExprType_none hcall
    exact allUses_cons.mpr ⟨fits_of_unconverted hcall hc (by simp), allUses_nil⟩

theorem inferred_fits : Inferred Fits where
  cond := visitCond_fits
  init hinit := by
    have hfits := (initType_fits hinit).1
    exact ⟨hfits, fits_of_analysed hfits.analysed (.inl rfl)⟩
  asgn := visitAsgn_fits
  swich hexpr := by
    obtain ⟨hanalysed, hc, -⟩ := getExprType_none hexpr
    exact fits_of_unconverted hanalysed hc nofun
  other := by
    intro expr type expr' etype hexpr
    have hanalysed := (visitExprCheck_entered (visit_analysed expr _ _) hexpr).analysed
    exact ⟨fits_of_analysed hanalysed (by simp), fits_of_analysed hanalysed (by simp)⟩

/-! ## Programs -/

/-- The full expressions of a program: the initialisers of its globals, and those of its lowered bodies. -/
def programUses (program : Program AExpr) : List (Use × AExpr) :=
  program.globals.flatMap globalUses ++ program.bodies.flatMap fun body ↦ nodesUses (lowerNodes body.nodes)

theorem traverse_fits {program : Program Expr} {analysed : Program AExpr} (h : Traverse.traverse program = .ok analysed) :
    AllFit (programUses analysed) := by
  obtain ⟨hglobals, hbodies⟩ := traverse_uses inferred_fits h
  intro use expr hmem
  rcases List.mem_append.mp hmem with hmem | hmem
  · obtain ⟨decl, hdecl, hmem⟩ := List.mem_flatMap.mp hmem
    exact hglobals decl hdecl use expr hmem
  · obtain ⟨body, hbody, hmem⟩ := List.mem_flatMap.mp hmem
    exact hbodies body hbody use expr hmem

/-- The code of a full expression, wherever it is generated, contains exactly the conversions that the
analysis has accepted. -/
def GeneratesConversions (use : Use) (expr : AExpr) : Prop :=
  ∀ movable, Computes (use.generate movable expr) (convertedMeaning expr (exprMeaning expr))

theorem generatesConversions_iff {use : Use} {expr : AExpr} (h : Fits use expr) :
    GeneratesConversions use expr ↔ Converts expr ∧ ConvertsUse use expr := by
  rw [← useComputed_eq_iff h]
  constructor
  · intro hgen
    exact ((generate_computes (fun _ ↦ false) h.analysed use) {}).symm.trans (hgen (fun _ ↦ false) {})
  · intro heq movable s
    exact (generate_computes movable h.analysed use s).trans heq

/-! ## A condition and a returned closure -/

def closureType : Ty := .func [] (some (.btn .void))

/-- A parameter of a function type. -/
def closureExpr : Expr := .ident "g" [.object 0 ⟨closureType, .let_, .val⟩ none]

/-- `func f(g: func()) -> bool { if (g) return true; return false; }` -/
def testsClosure : Program Expr where
  globals := []
  bodies := [⟨[(.val, closureType)], some boolType,
    [.fi closureExpr (.ret (some (.bool true))) none, .ret (some (.bool false))]⟩]

/-- `func f(g: func()) -> bool { return g; }` -/
def returnsClosure : Program Expr where
  globals := []
  bodies := [⟨[(.val, closureType)], some boolType, [.ret (some closureExpr)]⟩]

end Stela.CodeGen.BoolConversion
