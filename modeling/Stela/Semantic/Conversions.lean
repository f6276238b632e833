import Stela.Semantic.Traverse
import Stela.CodeGen.Categories
import Stela.Library.Except

/-!
# Where semantic analysis converts to bool

An expression is converted implicitly where `bool` is expected of it and its type, which is not `bool`,
is convertible. The analysis leaves no trace of the conversion but the two types of the node. `Analysed`
collects what every analysed expression satisfies about them.
-/

namespace Stela.Semantic.Conversions

open Stela.Syntax Stela.CodeGen InferType Library.Except

/-- The analysis has accepted the expression by converting it to `bool`. -/
def isConverted (expr : AExpr) : Bool :=
  expr.expectedType.any fun type ↦ convertsToBool type expr.exprType

/-- An operand that must be a `bool` is one or is converted; any other operand is left alone. -/
def Operand (bool : Bool) (expr : AExpr) : Prop :=
  isConverted expr = (bool && !isBoolType expr.exprType)

/-- `make` casts what is converted, and otherwise only casts builtin types. -/
structure MakeOperand (type : Ty) (expr : AExpr) (cast : Bool) : Prop where
  converted : isConverted expr = true → cast = true ∧ isBoolType type = true ∧ isBtnType expr.exprType = false
  casted : isConverted expr = false → cast = true → isBtnType expr.exprType = true
  retyped : cast = false → isBoolType expr.exprType = isBoolType type

mutual

def Analysed : AExpr → Prop
  | .binary _ lhs oper rhs =>
      (Analysed lhs ∧ Operand oper.boolOp lhs) ∧ Analysed rhs ∧ Operand oper.boolOp rhs
  | .unary _ oper expr => Analysed expr ∧ Operand oper.boolOp expr
  | .callPtr _ func args =>
      (Analysed func ∧ Operand false func) ∧ AnalysedArgs args ∧
        ∃ params ret, func.exprType = .func params ret ∧ params.length = args.length
  | .callFunc _ func args => AnalysedArgs args ∧ func.params.length = args.length
  | .callMethod _ func self args =>
      (Analysed self ∧ Operand false self) ∧ AnalysedArgs args ∧ func.params.length = args.length
  | .callBtn _ _ args => AnalysedArgs args
  | .member _ object _ => Analysed object ∧ Operand false object
  | .subscript _ object index => (Analysed object ∧ Operand false object) ∧ Analysed index ∧ Operand false index
  | .ternary _ cond troo fols => (Analysed cond ∧ Operand true cond) ∧ Analysed troo ∧ Analysed fols
  | .make info expr cast => Analysed expr ∧ MakeOperand info.exprType expr cast
  | .array _ exprs => AnalysedAll exprs
  | .initList _ exprs => AnalysedAll exprs
  | .ident _ _ _ | .funcRef _ _ | .string _ _ | .char _ _ | .number _ _ | .bool _ _ | .lambda _ _ => True

def AnalysedArgs : List AExpr → Prop
  | [] => True
  | arg :: args => (Analysed arg ∧ Operand false arg) ∧ AnalysedArgs args

def AnalysedAll : List AExpr → Prop
  | [] => True
  | expr :: exprs => Analysed expr ∧ AnalysedAll exprs

end

@[simp] theorem analysed_setExpected (type : Option Ty) (expr : AExpr) :
    Analysed (expr.setExpected type) ↔ Analysed expr := by
  cases expr <;> simp only [AExpr.setExpected, Analysed]

/-! ## The types involved -/

theorem lookupStrongType_eq_btn {type : Ty} {value : BtnType} (h : type.lookupStrongType = .btn value) :
    type.concreteType = .btn value := by
  induction type using Ty.lookupStrongType.induct with
  | case1 => simp [Ty.lookupStrongType] at h
  | case2 _ _ _ ih => exact ih (by simpa [Ty.lookupStrongType] using h)
  | case3 type hstrong hweak =>
    cases type with
    | named name decl strong type => cases strong <;> simp_all
    | _ => simp_all [Ty.lookupStrongType, Ty.concreteType]

/-- What compares equal to `bool` has the concrete type `bool`. -/
theorem concreteType_of_compare_bool : (type : Ty) → compareTypes type boolType = true →
    type.concreteType = .btn .bool
  | .btn value, h => by simpa [compareTypes, boolType, Ty.lookupStrongType, Ty.concreteType] using h
  | .named _ _ false type, h => concreteType_of_compare_bool type (by simpa [compareTypes] using h)
  | .named _ _ true _, h | .array _, h | .func _ _, h | .struct _, h | .user _ _ _ _, h => by
    simp [compareTypes, boolType, Ty.lookupStrongType] at h

theorem isBoolType_iff {type : Ty} : isBoolType type = true ↔ type.concreteType = .btn .bool := by
  unfold isBoolType
  split <;> simp_all

theorem isBoolType_of_compare_bool {type : Ty} (h : compareTypes type boolType = true) : isBoolType type = true :=
  isBoolType_iff.mpr (concreteType_of_compare_bool _ h)

theorem isBoolType_of_bool_compare {type : Ty} (h : compareTypes boolType type = true) : isBoolType type = true := by
  refine isBoolType_iff.mpr (lookupStrongType_eq_btn ?_)
  simp only [boolType, compareTypes] at h
  split at h
  · simp_all
  · cases h

theorem isBtnType_of_convertible {type : Ty} (h : convertibleToBool type = true) : isBtnType type = false := by
  unfold convertibleToBool at h
  unfold isBtnType
  split at h <;> simp_all

theorem isBoolType_of_convertible {type : Ty} (h : convertibleToBool type = true) : isBoolType type = false := by
  unfold convertibleToBool at h
  unfold isBoolType
  split at h <;> simp_all

theorem convertsToBool_iff {type etype : Ty} : convertsToBool type etype = true ↔
    compareTypes type etype = false ∧ compareTypes type boolType = true ∧ convertibleToBool etype = true := by
  simp [convertsToBool]

theorem isBoolType_of_converts {type etype : Ty} (h : convertsToBool type etype = true) :
    isBoolType type = true ∧ isBoolType etype = false := by
  obtain ⟨-, hbool, hconv⟩ := convertsToBool_iff.mp h
  exact ⟨isBoolType_of_compare_bool hbool, isBoolType_of_convertible hconv⟩

/-! ## Sub-expressions -/

def VisitedAnalysed : Visited → Prop
  | .expr expr etype => Analysed expr ∧ expr.expectedType = none ∧ etype.type = expr.exprType
  | .member object _ _ _ => Analysed object ∧ object.expectedType = none
  | .func _ _ | .btnFunc _ => True

theorem visitedAnalysed_setLetVal {expr : AExpr} (h : Analysed expr) (hexpected : expr.expectedType = none) :
    VisitedAnalysed (setLetVal expr) :=
  ⟨h, hexpected, rfl⟩

theorem operand_of_unexpected {expr : AExpr} (h : expr.expectedType = none) : Operand false expr := by
  simp [Operand, isConverted, h]

theorem leaveSubExpr_eq_ok {visited : Visited} {expr : AExpr} {etype : ExprType} :
    leaveSubExpr visited = .ok (expr, etype) ↔ visited = .expr expr etype := by
  cases visited <;> simp [leaveSubExpr, pure, Except.pure, throw, throwThe, MonadExceptOf.throw]

/-- An expression after it was visited with an expected type. -/
structure Entered (type : Option Ty) (expr : AExpr) : Prop where
  analysed : Analysed expr
  expected : expr.expectedType = type

theorem visitExprNoCheck_eq_ok {visited : Check Visited} {type : Option Ty} {expr : AExpr} {etype : ExprType}
    (hvisited : ∀ v, visited = .ok v → VisitedAnalysed v)
    (h : visitExprNoCheck visited type = .ok (expr, etype)) :
    Entered type expr ∧ etype.type = expr.exprType := by
  simp only [visitExprNoCheck, bind_eq_ok] at h
  obtain ⟨v, hv, ⟨expr', etype'⟩, hleave, h⟩ := h
  cases h
  obtain rfl := leaveSubExpr_eq_ok.mp hleave
  obtain ⟨hexpr, -, htype⟩ := hvisited _ hv
  exact ⟨⟨by simpa using hexpr, by simp⟩, by simpa using htype⟩

/-- The type that a check against an expected type reports. -/
def Accepted (type : Ty) (expr : AExpr) (etype : ExprType) : Prop :=
  (compareTypes type expr.exprType = true ∧ etype.type = expr.exprType) ∨
    (convertsToBool type expr.exprType = true ∧ etype.type = boolType)

theorem visitExprCheck_none {visited : Check Visited} {expr : AExpr} {etype : ExprType}
    (hvisited : ∀ v, visited = .ok v → VisitedAnalysed v)
    (h : visitExprCheck visited none = .ok (expr, etype)) :
    Entered none expr ∧ etype.type = expr.exprType := by
  simp only [visitExprCheck, bind_eq_ok] at h
  obtain ⟨⟨expr', etype'⟩, hcheck, h⟩ := h
  cases h
  exact visitExprNoCheck_eq_ok hvisited hcheck

theorem visitExprCheck_some {visited : Check Visited} {type : Ty} {expr : AExpr} {etype : ExprType}
    (hvisited : ∀ v, visited = .ok v → VisitedAnalysed v)
    (h : visitExprCheck visited (some type) = .ok (expr, etype)) :
    Entered (some type) expr ∧ Accepted type expr etype := by
  simp only [visitExprCheck, bind_eq_ok] at h
  obtain ⟨⟨expr', etype'⟩, hcheck, h⟩ := h
  obtain ⟨hentered, htype⟩ := visitExprNoCheck_eq_ok hvisited hcheck
  simp only at h
  split at h
  · rename_i hcompare
    cases h
    exact ⟨hentered, .inl ⟨htype ▸ hcompare, htype⟩⟩
  · split at h
    · rename_i hconverts
      cases h
      exact ⟨hentered, .inr ⟨htype ▸ hconverts, rfl⟩⟩
    · cases h

theorem visitExprCheck_entered {visited : Check Visited} {type : Option Ty} {expr : AExpr} {etype : ExprType}
    (hvisited : ∀ v, visited = .ok v → VisitedAnalysed v)
    (h : visitExprCheck visited type = .ok (expr, etype)) : Entered type expr := by
  cases type with
  | none => exact (visitExprCheck_none hvisited h).1
  | some type => exact (visitExprCheck_some hvisited h).1

theorem isConverted_of_entered {type : Ty} {expr : AExpr} (h : Entered (some type) expr) :
    isConverted expr = convertsToBool type expr.exprType := by
  simp [isConverted, h.expected]

theorem operand_of_accepted {expr : AExpr} {etype : ExprType} (hentered : Entered (some boolType) expr)
    (haccepted : Accepted boolType expr etype) : Operand true expr := by
  rw [Operand, isConverted_of_entered hentered]
  obtain ⟨hcompare, -⟩ | ⟨hconverts, -⟩ := haccepted
  · simp [convertsToBool, hcompare, isBoolType_of_bool_compare hcompare]
  · simp [hconverts, (isBoolType_of_converts hconverts).2]

/-- An operand that is checked against `bool`, or against nothing. -/
theorem operand_of_check {visited : Check Visited} (bool : Bool) {expr : AExpr} {etype : ExprType}
    (hvisited : ∀ v, visited = .ok v → VisitedAnalysed v)
    (h : visitExprCheck visited (if bool then some boolType else none) = .ok (expr, etype)) :
    Analysed expr ∧ Operand bool expr := by
  cases bool with
  | false =>
    have hentered := (visitExprCheck_none hvisited h).1
    exact ⟨hentered.analysed, operand_of_unexpected hentered.expected⟩
  | true =>
    obtain ⟨hentered, haccepted⟩ := visitExprCheck_some hvisited h
    exact ⟨hentered.analysed, operand_of_accepted hentered haccepted⟩

/-! ## The nodes -/

theorem leaveBinary_eq_ok {lhs rhs : AExpr × ExprType} {oper : BinOp} {v : Visited}
    (h : leaveBinary lhs oper rhs = .ok v) : ∃ type, v = setLetVal (.binary ⟨none, type⟩ lhs.1 oper rhs.1) := by
  simp only [leaveBinary, bind_eq_ok] at h
  obtain ⟨_, -, type, -, h⟩ := h
  cases h
  exact ⟨type, rfl⟩

theorem leaveUnary_eq_ok {oper : UnOp} {expr : AExpr × ExprType} {v : Visited}
    (h : leaveUnary oper expr = .ok v) : v = setLetVal (.unary ⟨none, expr.2.type⟩ oper expr.1) := by
  unfold leaveUnary at h
  split at h
  · split at h
    · cases h
      rfl
    · cases h
  · cases h

theorem leaveSubscript_eq_ok {object index : AExpr × ExprType} {v : Visited}
    (h : leaveSubscript object index = .ok v) :
    ∃ type, v = .expr (.subscript ⟨none, type⟩ object.1 index.1) (fieldType object.2 type) := by
  unfold leaveSubscript at h
  split at h
  · split at h
    · split at h
      · cases h
        exact ⟨_, rfl⟩
      · cases h
    · cases h
  · cases h

theorem leaveTernary_eq_ok {cond troo fols : AExpr × ExprType} {v : Visited}
    (h : leaveTernary cond troo fols = .ok v) :
    ∃ etype : ExprType, etype.type = troo.2.type ∧
      v = .expr (.ternary ⟨none, troo.2.type⟩ cond.1 troo.1 fols.1) etype := by
  simp only [leaveTernary, bind_eq_ok] at h
  obtain ⟨_, -, h⟩ := h
  cases h
  exact ⟨⟨troo.2.type, commonMut troo.2.mut_ fols.2.mut_, commonRef troo.2.ref fols.2.ref⟩, rfl, rfl⟩

theorem lookupMember_eq_ok {object : AExpr} {etype : ExprType} {name : String} {v : Visited}
    (h : lookupMember object etype name = .ok v) :
    ∃ type index, v = .expr (.member ⟨none, type⟩ object index) (fieldType etype type) := by
  simp only [lookupMember, bind_eq_ok] at h
  obtain ⟨⟨index, type⟩, -, h⟩ := h
  cases h
  exact ⟨type, index, rfl⟩

theorem leaveArray_eq_ok {exprs : List AExpr} {type : Ty} {v : Visited} (h : leaveArray exprs type = .ok v) :
    ∃ elem, v = setLetVal (.array ⟨none, .array elem⟩ exprs) := by
  simp only [leaveArray, bind_eq_ok] at h
  obtain ⟨_, -, h⟩ := h
  cases h
  exact ⟨_, rfl⟩

theorem findOverload_eq_ok {name : String} {expType : Ty} : {symbols : List Symbol} → {v : Visited} →
    findOverload name expType symbols = .ok v → ∃ type func, v = setLetVal (.funcRef ⟨none, type⟩ func)
  | [], _, h => by cases h
  | .func func :: symbols, v, h => by
    simp only [findOverload, bind_eq_ok] at h
    obtain ⟨funcType, -, h⟩ := h
    split at h
    · cases h
      exact ⟨_, _, rfl⟩
    · exact findOverload_eq_ok h
  | .object _ _ _ :: _, _, h | .btnFunc _ :: _, _, h | .typeAlias :: _, _, h => by cases h

theorem pushFunPtr_eq_ok {name : String} {symbols : List Symbol} {expType : Option Ty} {v : Visited}
    (h : pushFunPtr name symbols expType = .ok v) : ∃ type func, v = setLetVal (.funcRef ⟨none, type⟩ func) := by
  unfold pushFunPtr at h
  split at h
  · simp only [bind_eq_ok] at h
    obtain ⟨funcType, -, _, -, h⟩ := h
    cases h
    exact ⟨funcType, _, rfl⟩
  · cases h
  · exact findOverload_eq_ok h

theorem lookupIdent_analysed {name : String} {symbols : List Symbol} {call : Bool} {expected : Option Ty}
    {v : Visited} (h : lookupIdent name symbols call expected = .ok v) : VisitedAnalysed v := by
  unfold lookupIdent at h
  split at h
  · cases h
  · cases h
    refine ⟨trivial, rfl, ?_⟩
    split <;> rfl
  · split at h
    · cases h
      trivial
    · obtain ⟨type, func, rfl⟩ := pushFunPtr_eq_ok h
      exact visitedAnalysed_setLetVal trivial rfl
  · split at h
    · cases h
      trivial
    · cases h
  · cases h

theorem length_of_compatParams {params args : List ExprType} (h : compatParams params args = true) :
    params.length = args.length := by
  simp only [compatParams, Bool.and_eq_true, beq_iff_eq] at h
  exact h.1

theorem lookupFun_params {name : String} {receiver : Option ExprType} {args : List (AExpr × ExprType)} :
    {symbols : List Symbol} → {func : FuncSym} →
    lookupFun name receiver (args.map Prod.snd) symbols = .ok func →
      func.params.length = (args.map Prod.fst).length
  | [], _, h | .object _ _ _ :: _, _, h | .btnFunc _ :: _, _, h | .typeAlias :: _, _, h => by cases h
  | .func func :: symbols, _, h => by
    rw [lookupFun] at h
    split at h
    · rename_i hcompat
      cases h
      simpa using length_of_compatParams hcompat.2
    · exact lookupFun_params h

theorem callMember_analysed {object : AExpr} {receiver : ExprType} {name : String} {symbols : List Symbol}
    {args : List (AExpr × ExprType)} {v : Visited} (hobject : Analysed object) (hexpected : object.expectedType = none)
    (hargs : AnalysedArgs (args.map Prod.fst)) (h : callMember object receiver name symbols args = .ok v) :
    VisitedAnalysed v := by
  simp only [callMember, bind_eq_ok] at h
  obtain ⟨_, -, func, hfunc, h⟩ := h
  split at h
  · cases h
  · cases h
    exact visitedAnalysed_setLetVal
      ⟨⟨hobject, operand_of_unexpected hexpected⟩, hargs, lookupFun_params hfunc⟩ rfl

theorem callName_analysed {name : String} {symbols : List Symbol} {args : List (AExpr × ExprType)} {v : Visited}
    (hargs : AnalysedArgs (args.map Prod.fst)) (h : callName name symbols args = .ok v) : VisitedAnalysed v := by
  simp only [callName, bind_eq_ok] at h
  obtain ⟨_, -, func, hfunc, h⟩ := h
  split at h
  · cases h
  · cases h
    exact visitedAnalysed_setLetVal ⟨hargs, lookupFun_params hfunc⟩ rfl

theorem callObject_analysed {func : AExpr} {etype : ExprType} {args : List (AExpr × ExprType)} {v : Visited}
    (hfunc : VisitedAnalysed (.expr func etype)) (hargs : AnalysedArgs (args.map Prod.fst))
    (h : callObject func etype args = .ok v) : VisitedAnalysed v := by
  obtain ⟨hfunc, hexpected, htype⟩ := hfunc
  unfold callObject at h
  split at h
  · rename_i params ret hparams
    simp only [bind_eq_ok, require_eq_ok] at h
    obtain ⟨_, -, _, hcompat, h⟩ := h
    split at h
    · cases h
    · obtain ⟨_, -, h⟩ := bind_eq_ok.mp h
      cases h
      have hlength : params.length = (args.map Prod.fst).length := by
        simpa using length_of_compatParams hcompat
      exact visitedAnalysed_setLetVal
        ⟨⟨hfunc, operand_of_unexpected hexpected⟩, hargs, params, _, htype ▸ hparams, hlength⟩ rfl
  · cases h

theorem lookupFunc_analysed {callee v : Visited} {args : List (AExpr × ExprType)}
    (hcallee : VisitedAnalysed callee) (hargs : AnalysedArgs (args.map Prod.fst))
    (h : lookupFunc callee args = .ok v) : VisitedAnalysed v := by
  cases callee with
  | expr func etype => exact callObject_analysed hcallee hargs h
  | func name symbols => exact callName_analysed hargs h
  | btnFunc func =>
    simp only [lookupFunc, bind_eq_ok] at h
    obtain ⟨ret, -, h⟩ := h
    cases h
    exact visitedAnalysed_setLetVal hargs rfl
  | member object receiver name symbols => exact callMember_analysed hcallee.1 hcallee.2 hargs h

theorem visitExprNoCheckBool_eq_ok {visited : Check Visited} {type : Ty} {expr : AExpr} {etype : ExprType}
    (hvisited : ∀ v, visited = .ok v → VisitedAnalysed v)
    (h : visitExprNoCheckBool visited type = .ok (expr, etype)) :
    Entered (some type) expr ∧
      etype.type = (if convertsToBool type expr.exprType then boolType else expr.exprType) := by
  simp only [visitExprNoCheckBool, bind_eq_ok] at h
  obtain ⟨⟨expr', etype'⟩, hcheck, h⟩ := h
  obtain ⟨hentered, htype⟩ := visitExprNoCheck_eq_ok hvisited hcheck
  simp only at h
  split at h
  · rename_i hconverts
    cases h
    exact ⟨hentered, by rw [← htype, if_pos hconverts]; rfl⟩
  · rename_i hconverts
    cases h
    exact ⟨hentered, by rw [← htype, if_neg hconverts]⟩

theorem isCast_bool {type : Ty} (h : isBoolType type = true) : isCast type boolType = true := by
  simp [isCast, isBoolType_iff.mp h, boolType, Ty.concreteType, validCast]

theorem isBtnType_of_isCast {dst src : Ty} (h : isCast dst src = true) : isBtnType src = true := by
  unfold isCast at h
  unfold isBtnType
  split at h <;> simp_all

/-- Concrete types that compare equal are both `bool` or neither is. -/
theorem isBoolType_of_compare_concrete {a b : Ty} (h : compareTypes a.concreteType b.concreteType = true) :
    isBoolType a = isBoolType b := by
  rw [Bool.eq_iff_iff, isBoolType_iff, isBoolType_iff]
  constructor
  · intro ha
    rw [ha] at h
    simpa [Ty.concreteType_concreteType] using isBoolType_iff.mp (isBoolType_of_bool_compare h)
  · intro hb
    rw [hb] at h
    simpa [Ty.concreteType_concreteType] using concreteType_of_compare_bool _ h

theorem leaveMake_analysed {type : Ty} {expr : AExpr} {etype : ExprType} {v : Visited}
    (hentered : Entered (some type) expr)
    (htype : etype.type = (if convertsToBool type expr.exprType then boolType else expr.exprType))
    (h : leaveMake type (expr, etype) = .ok v) : VisitedAnalysed v := by
  have hconverted : isConverted expr = convertsToBool type expr.exprType := isConverted_of_entered hentered
  have hcast : convertsToBool type expr.exprType = true → isCast type etype.type = true := by
    intro hconverts
    rw [htype, if_pos hconverts]
    exact isCast_bool (isBoolType_of_converts hconverts).1
  simp only [leaveMake] at h
  split at h
  · rename_i hcasts
    cases h
    refine visitedAnalysed_setLetVal ⟨hentered.analysed, ?_, ?_, nofun⟩ rfl
    · intro hc
      rw [hconverted] at hc
      exact ⟨rfl, (isBoolType_of_converts hc).1, isBtnType_of_convertible (convertsToBool_iff.mp hc).2.2⟩
    · intro hc _
      rw [hconverted] at hc
      rw [htype, hc] at hcasts
      exact isBtnType_of_isCast hcasts
  · rename_i hcasts
    split at h
    · rename_i hcompare
      cases h
      have hc : convertsToBool type expr.exprType = false := by
        simpa using mt hcast hcasts
      rw [htype, hc] at hcompare
      refine visitedAnalysed_setLetVal ⟨hentered.analysed, ?_, nofun, fun _ ↦ isBoolType_of_compare_concrete hcompare⟩ rfl
      intro hc'
      simp [hconverted, hc] at hc'
    · cases h

/-! ## The visitor -/

mutual

/-- Whatever a visit leaves on the expression stack is analysed. -/
theorem visit_analysed : (expr : Expr) → (call : Bool) → (expected : Option Ty) → (v : Visited) →
    visit expr call expected = .ok v → VisitedAnalysed v
  | .binary lhs oper rhs, _, _, v, h => by
    simp only [visit, bind_eq_ok] at h
    obtain ⟨⟨lhs', ltype⟩, hlhs, ⟨rhs', rtype⟩, hrhs, h⟩ := h
    obtain ⟨type, rfl⟩ := leaveBinary_eq_ok h
    exact visitedAnalysed_setLetVal
      ⟨operand_of_check _ (visit_analysed lhs _ _) hlhs, operand_of_check _ (visit_analysed rhs _ _) hrhs⟩ rfl
  | .unary oper expr, _, _, v, h => by
    simp only [visit, bind_eq_ok] at h
    obtain ⟨⟨expr', etype⟩, hexpr, h⟩ := h
    obtain rfl := leaveUnary_eq_ok h
    exact visitedAnalysed_setLetVal (operand_of_check _ (visit_analysed expr _ _) hexpr) rfl
  | .call func args, _, _, v, h => by
    simp only [visit, bind_eq_ok] at h
    obtain ⟨callee, hcallee, args', hargs, h⟩ := h
    exact lookupFunc_analysed (visit_analysed func _ _ _ hcallee) (argTypes_analysed args args' hargs) h
  | .member object name symbols, call, expected, v, h => by
    simp only [visit, bind_eq_ok] at h
    obtain ⟨visited, hvisited, ⟨object', etype⟩, hleave, h⟩ := h
    obtain rfl := leaveSubExpr_eq_ok.mp hleave
    obtain ⟨hobject, hexpected, -⟩ := visit_analysed object _ _ _ hvisited
    simp only at h
    split at h
    · cases h
      exact ⟨hobject, hexpected⟩
    · obtain ⟨type, index, rfl⟩ := lookupMember_eq_ok h
      exact ⟨⟨hobject, operand_of_unexpected hexpected⟩, rfl, rfl⟩
  | .subscript object index, _, _, v, h => by
    simp only [visit, bind_eq_ok] at h
    obtain ⟨⟨object', otype⟩, hobject, ⟨index', itype⟩, hindex, h⟩ := h
    obtain ⟨type, rfl⟩ := leaveSubscript_eq_ok h
    exact ⟨⟨operand_of_check false (visit_analysed object _ _) hobject,
      operand_of_check false (visit_analysed index _ _) hindex⟩, rfl, rfl⟩
  | .ident name symbols, _, _, v, h => lookupIdent_analysed h
  | .ternary cond troo fols, _, _, v, h => by
    simp only [visit, bind_eq_ok] at h
    obtain ⟨⟨cond', ctype⟩, hcond, ⟨troo', ttype⟩, htroo, ⟨fols', ftype⟩, hfols, h⟩ := h
    obtain ⟨etype, htype, rfl⟩ := leaveTernary_eq_ok h
    exact ⟨⟨operand_of_check true (visit_analysed cond _ _) hcond,
      (visitExprCheck_entered (visit_analysed troo _ _) htroo).analysed,
      (visitExprCheck_entered (visit_analysed fols _ _) hfols).analysed⟩, rfl, htype⟩
  | .make type expr, _, _, v, h => by
    simp only [visit, bind_eq_ok] at h
    obtain ⟨_, -, ⟨expr', etype⟩, hexpr, h⟩ := h
    obtain ⟨hentered, htype⟩ := visitExprNoCheckBool_eq_ok (visit_analysed expr _ _) hexpr
    exact leaveMake_analysed hentered htype h
  | .string _, _, _, v, h | .number _, _, _, v, h | .bool _, _, _, v, h => by
    cases h
    exact visitedAnalysed_setLetVal trivial rfl
  | .char value, _, _, v, h => by
    simp only [visit] at h
    split at h
    · cases h
      exact visitedAnalysed_setLetVal trivial rfl
    · cases h
  | .array [], _, _, v, h => by
    simp only [visit, bind_eq_ok] at h
    obtain ⟨elem, -, h⟩ := h
    cases elem with
    | none => cases h
    | some elem =>
      cases h
      exact visitedAnalysed_setLetVal trivial rfl
  | .array (expr :: exprs), _, _, v, h => by
    simp only [visit, bind_eq_ok] at h
    obtain ⟨elem, -, ⟨expr', etype⟩, hexpr, exprs', hexprs, h⟩ := h
    obtain ⟨_, rfl⟩ := leaveArray_eq_ok h
    exact visitedAnalysed_setLetVal
      ⟨(visitExprCheck_entered (visit_analysed expr _ _) hexpr).analysed, visitElems_analysed elem etype.type exprs exprs' hexprs⟩ rfl
  | .initList _, _, none, v, h => by
    cases h
  | .initList [], _, some type, v, h => by
    cases h
    exact visitedAnalysed_setLetVal trivial rfl
  | .initList (expr :: exprs), _, some type, v, h => by
    simp only [visit, bind_eq_ok] at h
    obtain ⟨fields, -, _, -, _, -, exprs', hexprs, h⟩ := h
    cases h
    exact visitedAnalysed_setLetVal (visitFields_analysed (expr :: exprs) fields exprs' hexprs) rfl
  | .lambda lam params ret, _, _, v, h => by
    simp only [visit, bind_eq_ok] at h
    obtain ⟨_, -, _, -, h⟩ := h
    cases h
    exact visitedAnalysed_setLetVal trivial rfl

theorem argTypes_analysed : (args : List Expr) → (args' : List (AExpr × ExprType)) →
    argTypes args = .ok args' → AnalysedArgs (args'.map Prod.fst)
  | [], _, h => by
    cases h
    trivial
  | arg :: args, _, h => by
    simp only [argTypes, bind_eq_ok] at h
    obtain ⟨⟨arg', atype⟩, harg, args', hargs, h⟩ := h
    cases h
    exact ⟨operand_of_check false (visit_analysed arg _ _) harg, argTypes_analysed args args' hargs⟩

theorem visitElems_analysed : (elem : Option Ty) → (type : Ty) → (exprs : List Expr) → (exprs' : List AExpr) →
    visitElems elem type exprs = .ok exprs' → AnalysedAll exprs'
  | _, _, [], _, h => by
    cases h
    trivial
  | elem, type, expr :: exprs, _, h => by
    simp only [visitElems, bind_eq_ok] at h
    obtain ⟨⟨expr', etype⟩, hexpr, _, -, exprs', hexprs, h⟩ := h
    cases h
    exact ⟨(visitExprNoCheck_eq_ok (visit_analysed expr _ _) hexpr).1.analysed,
      visitElems_analysed elem type exprs exprs' hexprs⟩

theorem visitFields_analysed : (exprs : List Expr) → (fields : List (String × Ty)) → (exprs' : List AExpr) →
    visitFields exprs fields = .ok exprs' → AnalysedAll exprs'
  | [], _, _, h => by
    cases h
    trivial
  | _ :: _, [], _, h => by
    cases h
    trivial
  | expr :: exprs, (_, type) :: fields, _, h => by
    simp only [visitFields, bind_eq_ok] at h
    obtain ⟨⟨expr', etype⟩, hexpr, exprs', hexprs, h⟩ := h
    cases h
    exact ⟨(visitExprCheck_entered (visit_analysed expr _ _) hexpr).analysed,
      visitFields_analysed exprs fields exprs' hexprs⟩

end

end Stela.Semantic.Conversions
