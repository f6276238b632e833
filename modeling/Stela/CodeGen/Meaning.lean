import Stela.CodeGen.FullExpressions
import Stela.Semantic.Conversions

/-!
# What an expression computes

An expression computes a tree of operations; the calls of `clo_bool` and `usr_bool` are nodes of their
own. The tree of a piece of code is read off the code, the tree of an analysed expression has a
conversion wherever the analysis accepted one. `computed` is the tree of the code that the generator
emits for an expression (`visit_computes`).
-/

namespace Stela.CodeGen

open Stela.Syntax Semantic.Conversions GenerateExpr

inductive Op where
  | literal (value : Literal)
  | var (definition : ℕ)
  | capture (index : ℕ)
  | binary (oper : BinOp)
  | unary (oper : UnOp)
  | cast (type : Ty)
  | call (target : Target)
  | member (index : ℕ)
  | subscript
  | ternary
  | default (type : Ty)
  | funRef (func : FuncSym)
  | string (value : List UInt8)
  | array
  | initList
  | lambda (lam : ℕ)

inductive Meaning where
  | node (op : Op) (args : List Meaning)
  | toBool (type : Ty) (arg : Meaning)

mutual

/-- What the code computes: the addresses that values are kept at do not matter. -/
def Code.meaning : Code → Meaning
  | .const value => .node (.literal value) []
  | .var definition => .node (.var definition) []
  | .capture index => .node (.capture index) []
  | .load code | .slot _ _ code | .store code | .construct _ _ code => code.meaning
  | .binary oper _ lhs rhs => .node (.binary oper) [lhs.meaning, rhs.meaning]
  | .shortCircuit oper lhs rhs => .node (.binary oper) [lhs.meaning, rhs.meaning]
  | .unary oper operand => .node (.unary oper) [operand.meaning]
  | .cast type operand => .node (.cast type) [operand.meaning]
  | .convert type operand _ => .toBool type operand.meaning
  | .member object index => .node (.member index) [object.meaning]
  | .subscript object index => .node .subscript [object.meaning, index.meaning]
  | .call target _ args _ => .node (.call target) (codeMeanings args)
  | .ternary cond troo fols => .node .ternary [cond.meaning, troo.meaning, fols.meaning]
  | .defConstruct type => .node (.default type) []
  | .funCtor func => .node (.funRef func) []
  | .string value => .node (.string value) []
  | .array elems => .node .array (codeMeanings elems)
  | .initList fields => .node .initList (codeMeanings fields)
  | .lambda lam => .node (.lambda lam) []

def codeMeanings : List Code → List Meaning
  | [] => []
  | code :: codes => code.meaning :: codeMeanings codes

end

/-- The implicit conversion of an expression, where the analysis accepted one. -/
def convertedMeaning (expr : AExpr) (meaning : Meaning) : Meaning :=
  if isConverted expr then .toBool expr.exprType meaning else meaning

mutual

/-- What an analysed expression computes, before its own conversion. -/
def exprMeaning : AExpr → Meaning
  | .binary _ lhs oper rhs =>
      .node (.binary oper) [convertedMeaning lhs (exprMeaning lhs), convertedMeaning rhs (exprMeaning rhs)]
  | .unary _ oper expr => .node (.unary oper) [convertedMeaning expr (exprMeaning expr)]
  | .callPtr _ func args => .node (.call .closure) (convertedMeaning func (exprMeaning func) :: exprMeanings args)
  | .callFunc _ func args => .node (.call (.func func)) (exprMeanings args)
  | .callMethod _ func self args =>
      .node (.call (.func func)) (convertedMeaning self (exprMeaning self) :: exprMeanings args)
  | .callBtn _ func args => .node (.call (.btnFunc func)) (exprMeanings args)
  | .member _ object index => .node (.member index) [convertedMeaning object (exprMeaning object)]
  | .subscript _ object index =>
      .node .subscript [convertedMeaning object (exprMeaning object), convertedMeaning index (exprMeaning index)]
  | .ident _ definition none => .node (.var definition) []
  | .ident _ _ (some index) => .node (.capture index) []
  | .funcRef _ func => .node (.funRef func) []
  | .ternary _ cond troo fols =>
      .node .ternary [convertedMeaning cond (exprMeaning cond), convertedMeaning troo (exprMeaning troo),
        convertedMeaning fols (exprMeaning fols)]
  | .make info expr cast =>
      -- casting the result of a conversion does not change it
      if cast && !isConverted expr then .node (.cast info.exprType) [exprMeaning expr]
      else convertedMeaning expr (exprMeaning expr)
  | .string info value => if value.isEmpty then .node (.default info.exprType) [] else .node (.string value) []
  | .char _ value => .node (.literal (.char value)) []
  | .number _ value => .node (.literal (.number value)) []
  | .bool _ value => .node (.literal (.bool value)) []
  | .array info exprs =>
      if exprs.isEmpty then .node (.default info.exprType) [] else .node .array (exprMeanings exprs)
  | .initList info exprs =>
      if exprs.isEmpty then .node (.default info.exprType) [] else .node .initList (exprMeanings exprs)
  | .lambda _ lam => .node (.lambda lam) []

/-- What the expressions of a list compute, conversions included. -/
def exprMeanings : List AExpr → List Meaning
  | [] => []
  | expr :: exprs => convertedMeaning expr (exprMeaning expr) :: exprMeanings exprs

end

/-! ## The tree of the generated code -/

/-- What `visitBool` makes of a value. -/
def boolMeaning (expr : AExpr) (meaning : Meaning) : Meaning :=
  if isBoolType expr.exprType then meaning else .toBool expr.exprType meaning

def operandMeaning (bool : Bool) (expr : AExpr) (meaning : Meaning) : Meaning :=
  if bool then boolMeaning expr meaning else meaning

mutual

/-- The tree of the code that the generator emits for an expression. -/
def computed : AExpr → Meaning
  | .binary _ lhs oper rhs =>
      .node (.binary oper)
        [operandMeaning oper.boolOp lhs (computed lhs), operandMeaning oper.boolOp rhs (computed rhs)]
  | .unary _ oper expr => .node (.unary oper) [operandMeaning oper.boolOp expr (computed expr)]
  | .callPtr _ func args => .node (.call .closure) (computed func :: computedAll args)
  | .callFunc _ func args => .node (.call (.func func)) (computedAll args)
  | .callMethod _ func self args => .node (.call (.func func)) (computed self :: computedAll args)
  | .callBtn _ func args => .node (.call (.btnFunc func)) (computedAll args)
  | .member _ object index => .node (.member index) [computed object]
  | .subscript _ object index => .node .subscript [computed object, computed index]
  | .ident _ definition none => .node (.var definition) []
  | .ident _ _ (some index) => .node (.capture index) []
  | .funcRef _ func => .node (.funRef func) []
  | .ternary _ cond troo fols => .node .ternary [boolMeaning cond (computed cond), computed troo, computed fols]
  | .make info expr cast =>
      if !cast then computed expr
      else if isBoolType info.exprType && !isBtnType expr.exprType then boolMeaning expr (computed expr)
      else .node (.cast info.exprType) [computed expr]
  | .string info value => if value.isEmpty then .node (.default info.exprType) [] else .node (.string value) []
  | .char _ value => .node (.literal (.char value)) []
  | .number _ value => .node (.literal (.number value)) []
  | .bool _ value => .node (.literal (.bool value)) []
  | .array info exprs =>
      if exprs.isEmpty then .node (.default info.exprType) [] else .node .array (computedAll exprs)
  | .initList info exprs =>
      if exprs.isEmpty then .node (.default info.exprType) [] else .node .initList (computedAll exprs)
  | .lambda _ lam => .node (.lambda lam) []

def computedAll : List AExpr → List Meaning
  | [] => []
  | expr :: exprs => computed expr :: computedAll exprs

end

/-! ## The generator computes it -/

/-- Every result of a computation of the generator, from any state, satisfies a predicate. -/
def Yields {α : Type} (m : Gen α) (P : α → Prop) : Prop :=
  ∀ s, P (m s).1

theorem yields_pure {α : Type} {a : α} {P : α → Prop} (h : P a) : Yields (pure a) P :=
  fun _ ↦ h

theorem yields_bind {α β : Type} {m : Gen α} {f : α → Gen β} {P : α → Prop} {Q : β → Prop}
    (hm : Yields m P) (hf : ∀ a, P a → Yields (f a) Q) : Yields (m >>= f) Q :=
  fun s ↦ hf _ (hm s) _

/-- What an allocation or the registration of a temporary yields does not matter. -/
theorem yields_bind_any {α β : Type} {m : Gen α} {f : α → Gen β} {Q : β → Prop}
    (hf : ∀ a, Yields (f a) Q) : Yields (m >>= f) Q :=
  fun _ ↦ hf _ _

/-- The code of an expression computes the given tree. -/
abbrev Computes (m : Gen Code) (meaning : Meaning) : Prop :=
  Yields m fun code ↦ code.meaning = meaning

attribute [local simp] Code.meaning

theorem computes_intoResult {type : Ty} {result : Bool} {code : Code} {meaning : Meaning}
    (h : code.meaning = meaning) : Computes (intoResult type result code) meaning := by
  unfold intoResult
  split
  · exact yields_pure h
  · exact yields_bind_any fun _ ↦ yields_pure (by simpa [Code.meaning] using h)

@[simp] theorem meaning_storeValueAsResult (result : Bool) (code : Code) :
    (storeValueAsResult result code).meaning = code.meaning := by
  cases result <;> simp [storeValueAsResult, Code.meaning]

@[simp] theorem meaning_constructResultFromValue (result : Bool) (expr : AExpr) (code : Code) :
    (constructResultFromValue result expr code).meaning = code.meaning := by
  cases result <;> simp [constructResultFromValue, Code.meaning]

@[simp] theorem meaning_loadValue (expr : AExpr) (code : Code) : (loadValue expr code).meaning = code.meaning := by
  unfold loadValue
  split <;> simp [Code.meaning]

@[simp] theorem meaning_convertToBool (expr : AExpr) (code : Code) :
    (convertToBool expr code).meaning = boolMeaning expr code.meaning := by
  unfold convertToBool boolMeaning
  split
  · split <;> simp [Code.meaning]
  · simp [Code.meaning]

theorem computes_genCall {result : Bool} {expr : AExpr} {code : Code} {meaning : Meaning}
    (h : code.meaning = meaning) : Computes (genCall result expr code) meaning := by
  unfold genCall
  split
  · exact yields_pure (by simpa using h)
  · exact computes_intoResult h

theorem computes_visitParam {param : ParamRef × Ty} {expr : AExpr} {visit : Bool → Gen Code} {meaning : Meaning}
    (h : ∀ result, Computes (visit result) meaning) :
    Yields (visitParam param expr visit) fun visited ↦ visited.1.meaning = meaning := by
  unfold visitParam
  split
  · exact yields_bind (h false) fun code hcode ↦ yields_pure hcode
  · split
    · refine yields_bind (h false) fun code hcode ↦ yields_pure ?_
      dsimp only
      split <;> simpa [Code.meaning] using hcode
    · refine yields_bind_any fun n ↦ yields_bind (h true) fun code hcode ↦ yields_pure ?_
      simpa [Code.meaning] using hcode

theorem computes_materialize {expr : AExpr} {visit : Bool → Gen Code} {meaning : Meaning}
    (h : ∀ result, Computes (visit result) meaning) : Computes (materialize expr visit) meaning := by
  unfold materialize
  split
  · refine yields_bind_any fun n ↦ yields_bind (h true) fun code hcode ↦ yields_bind_any fun _ ↦ yields_pure ?_
    simpa [Code.meaning] using hcode
  · exact h false

theorem length_btnParams (func : BtnFunc) (args : List AExpr) : (btnParams func args).length = args.length := by
  cases args <;> simp [btnParams]

mutual

/-- The code of an analysed expression computes its tree, with or without a result address. -/
theorem visit_computes : (expr : AExpr) → Analysed expr → (result : Bool) → Computes (visit expr result) (computed expr)
  | .binary _ lhs oper rhs, h, result => by
    rw [visit]
    by_cases hoper : oper.boolOp = true
    · rw [if_pos hoper]
      refine yields_bind (visit_computes lhs h.1.1 false) fun l hl ↦ ?_
      refine yields_bind (visit_computes rhs h.2.1 false) fun r hr ↦ yields_pure ?_
      simp [Code.meaning, computed, operandMeaning, hoper, hl, hr]
    · rw [if_neg hoper]
      refine yields_bind (visit_computes lhs h.1.1 false) fun l hl ↦ ?_
      refine yields_bind (visit_computes rhs h.2.1 false) fun r hr ↦ yields_pure ?_
      simp [Code.meaning, computed, operandMeaning, hoper, hl, hr]
  | .unary _ oper expr, h, result => by
    rw [visit]
    refine yields_bind (visit_computes expr h.1 false) fun code hcode ↦ yields_pure ?_
    cases oper <;> simp [Code.meaning, computed, operandMeaning, UnOp.boolOp, hcode]
  | .callPtr info func args, h, result => by
    obtain ⟨⟨hfunc, -⟩, hargs, params, ret, htype, hlength⟩ := h
    rw [visit]
    refine yields_bind (visit_computes func hfunc false) fun code hcode ↦ ?_
    refine yields_bind (visitParams_computes (funcParams func.exprType) args hargs (by rw [htype]; exact hlength))
      fun codes hcodes ↦ computes_genCall ?_
    simp [Code.meaning, codeMeanings, computed, hcode, hcodes]
  | .callFunc info func args, h, result => by
    rw [visit]
    refine yields_bind (visitParams_computes func.params args h.1 h.2) fun codes hcodes ↦ computes_genCall ?_
    simp [Code.meaning, computed, hcodes]
  | .callMethod info func self args, h, result => by
    rw [visit]
    refine yields_bind (computes_visitParam (visit_computes self h.1.1)) fun code hcode ↦ ?_
    refine yields_bind (visitParams_computes func.params args h.2.1 h.2.2) fun codes hcodes ↦ computes_genCall ?_
    simp [Code.meaning, codeMeanings, computed, hcode, hcodes]
  | .callBtn info func args, h, result => by
    rw [visit]
    refine yields_bind (visitParams_computes (btnParams func args) args h (length_btnParams func args))
      fun codes hcodes ↦ yields_pure ?_
    simp [Code.meaning, computed, hcodes]
  | .member info object index, h, result => by
    rw [visit]
    refine yields_bind (computes_materialize (visit_computes object h.1)) fun code hcode ↦ yields_pure ?_
    simp [Code.meaning, computed, hcode]
  | .subscript info object index, h, result => by
    rw [visit]
    refine yields_bind (computes_materialize (visit_computes object h.1.1)) fun code hcode ↦ ?_
    refine yields_bind (visit_computes index h.2.1 false) fun icode hicode ↦ yields_pure ?_
    simp [Code.meaning, computed, hcode, hicode]
  | .ident info definition captureIndex, _, result => by
    cases captureIndex with
    | none =>
      rw [visit]
      exact yields_pure (by simp [Code.meaning, computed])
    | some index =>
      rw [visit]
      exact yields_pure (by simp [Code.meaning, computed])
  | .funcRef info func, _, result => by
    rw [visit]
    exact computes_intoResult (by simp [Code.meaning, computed])
  | .ternary info cond troo fols, h, result => by
    rw [visit]
    refine yields_bind (visit_computes cond h.1.1 false) fun c hc ↦ ?_
    split
    · refine yields_bind (visit_computes troo h.2.1 true) fun t ht ↦ ?_
      refine yields_bind (visit_computes fols h.2.2 true) fun f hf ↦ yields_pure ?_
      simp [Code.meaning, computed, hc, ht, hf]
    · split
      · refine yields_bind (visit_computes troo h.2.1 false) fun t ht ↦ ?_
        refine yields_bind (visit_computes fols h.2.2 false) fun f hf ↦ yields_pure ?_
        simp [Code.meaning, computed, hc, ht, hf]
      · split
        · refine yields_bind (visit_computes troo h.2.1 false) fun t ht ↦ ?_
          refine yields_bind (visit_computes fols h.2.2 false) fun f hf ↦ yields_pure ?_
          simp [Code.meaning, computed, hc, ht, hf]
        · refine yields_bind_any fun n ↦ yields_bind (visit_computes troo h.2.1 true) fun t ht ↦ ?_
          refine yields_bind (visit_computes fols h.2.2 true) fun f hf ↦ yields_pure ?_
          simp [Code.meaning, computed, hc, ht, hf]
  | .make info expr cast, h, result => by
    rw [visit]
    cases cast with
    | false => simpa [computed] using visit_computes expr h.1 result
    | true =>
      refine yields_bind (visit_computes expr h.1 false) fun code hcode ↦ ?_
      split
      · rename_i hbool
        exact yields_pure (by simp_all [computed])
      · rename_i hbool
        refine yields_pure ?_
        simp only [meaning_storeValueAsResult, Code.meaning, meaning_loadValue, hcode, computed, Bool.not_true,
          Bool.false_eq_true, if_false, Bool.and_eq_true]
        rw [if_neg hbool]
  | .string info value, _, result => by
    rw [visit]
    refine computes_intoResult ?_
    cases value <;> simp [Code.meaning, computed]
  | .char _ _, _, _ | .number _ _, _, _ | .bool _ _, _, _ => by
    rw [visit]
    exact yields_pure (by simp [Code.meaning, computed])
  | .array info exprs, h, result => by
    rw [visit]
    refine yields_bind (visitElems_computes exprs h) fun codes hcodes ↦ computes_intoResult ?_
    cases exprs <;> simp [Code.meaning, computed, hcodes]
  | .initList info exprs, h, result => by
    rw [visit]
    refine yields_bind (visitElems_computes exprs h) fun codes hcodes ↦ ?_
    refine yields_bind (computes_intoResult rfl) fun code hcode ↦ yields_pure ?_
    split <;> cases exprs <;> simp [Code.meaning, computed, hcode, hcodes]
  | .lambda info lam, _, result => by
    rw [visit]
    exact computes_intoResult (by simp [Code.meaning, computed])

theorem visitParams_computes : (params : List (ParamRef × Ty)) → (args : List AExpr) → AnalysedArgs args →
    params.length = args.length →
      Yields (visitParams params args) fun visited ↦ codeMeanings visited.1 = computedAll args
  | [], [], _, _ => yields_pure rfl
  | [], _ :: _, _, hlength | _ :: _, [], _, hlength => by cases hlength
  | param :: params, arg :: args, h, hlength => by
    rw [visitParams]
    refine yields_bind (computes_visitParam (visit_computes arg h.1.1)) fun code hcode ↦ ?_
    refine yields_bind (visitParams_computes params args h.2 (by simpa using hlength)) fun codes hcodes ↦
      yields_pure ?_
    simp [codeMeanings, computedAll, hcode, hcodes]

theorem visitElems_computes : (exprs : List AExpr) → AnalysedAll exprs →
    Yields (visitElems exprs) fun codes ↦ codeMeanings codes = computedAll exprs
  | [], _ => yields_pure rfl
  | expr :: exprs, h => by
    rw [visitElems]
    refine yields_bind (visit_computes expr h.1 true) fun code hcode ↦ ?_
    refine yields_bind (visitElems_computes exprs h.2) fun codes hcodes ↦ yields_pure ?_
    simp [codeMeanings, computedAll, hcode, hcodes]

end

end Stela.CodeGen
