import Stela.CodeGen.Categories
import Stela.Semantic.BuiltinSymbols

/-!
# Code generation for expressions

`generate expr.cpp`. The code of an expression is the tree of the instructions and calls that the
visitor emits, operands before the node that uses them. Some code computes a value or an address; other
code constructs an object at the result address it is given (`resultAddr`), which `slot` provides: it
evaluates its code into an `alloca` of its own and yields the address.
-/

namespace Stela.CodeGen

open Stela.Syntax

/-- `Object`: an `alloca` and the type it is destroyed at. -/
structure Object where
  slot : ℕ
  type : Ty

inductive Literal where
  | char (value : UInt8)
  | number (value : Number)
  | bool (value : Bool)

/-- What a call instruction calls; a closure is the first argument of its call. -/
inductive Target where
  | closure
  | func (func : FuncSym)
  | btnFunc (func : BtnFunc)

/-- The code of an expression. -/
inductive Code where
  -- values and addresses
  | const (value : Literal)
  | var (definition : ℕ)
  | capture (index : ℕ)
  | load (addr : Code)
  | binary (oper : BinOp) (type : Ty) (lhs rhs : Code)
  | shortCircuit (oper : BinOp) (lhs rhs : Code)
  | unary (oper : UnOp) (operand : Code)
  | cast (type : Ty) (operand : Code)
  /-- A call of `clo_bool` or `usr_bool`. -/
  | convert (type : Ty) (operand : Code) (dtors : List Object)
  | member (object : Code) (index : ℕ)
  | subscript (object index : Code)
  | slot (n : ℕ) (type : Ty) (init : Code)
  -- either
  | call (target : Target) (ret : Ty) (args : List Code) (dtors : List Object)
  | ternary (cond troo fols : Code)
  -- objects at the result address
  | store (value : Code)
  | construct (type : Ty) (cat : ValueCat) (src : Code)
  | defConstruct (type : Ty)
  | funCtor (func : FuncSym)
  | string (value : List UInt8)
  | array (elems : List Code)
  | initList (fields : List Code)
  | lambda (lam : ℕ)

/-- The object that a prvalue was evaluated into. -/
def Code.object (type : Ty) : Code → List Object
  | slot n _ _ => [⟨n, type⟩]
  | _ => []

namespace GenerateExpr

/-- The next `alloca`, and the temporaries to destroy at the end of the full expression. -/
structure State where
  next : ℕ := 0
  temps : List Object := []

abbrev Gen := StateM State

def alloc : Gen ℕ :=
  modifyGet fun s ↦ (s.next, { s with next := s.next + 1 })

def pushTemp (obj : Object) : Gen Unit :=
  modify fun s ↦ { s with temps := s.temps ++ [obj] }

/-- Code that constructs an object, into a new `alloca` when there is no result address. -/
def intoResult (type : Ty) (result : Bool) (code : Code) : Gen Code :=
  if result then return code
  else return .slot (← alloc) type code

def storeValueAsResult (result : Bool) (value : Code) : Code :=
  if result then .store value else value

def constructResultFromValue (result : Bool) (expr : AExpr) (value : Code) : Code :=
  if result then .construct expr.exprType (classifyValue expr) value else value

/-- `visitValue`, once the expression was visited. -/
def loadValue (expr : AExpr) (code : Code) : Code :=
  if glvalue (classifyValue expr) ∧ isTriviallyCopyable expr.exprType then .load code else code

def prvalueObject (expr : AExpr) (code : Code) : List Object :=
  if classifyValue expr = .prvalue then code.object expr.exprType else []

/-- `convertToBool`; with it, `visitBool` once the expression was visited. -/
def convertToBool (expr : AExpr) (code : Code) : Code :=
  if isBoolType expr.exprType then
    if glvalue (classifyValue expr) then .load code else code
  else .convert expr.exprType code (prvalueObject expr code)

/-- `visitParam`: the argument, and the object to destroy after the call. -/
def visitParam (param : ParamRef × Ty) (expr : AExpr) (visit : Bool → Gen Code) :
    Gen (Code × Option Object) := do
  if param.1 = .ref then
    return (← visit false, none)
  else if isTriviallyCopyable param.2 then
    let code ← visit false
    return (if glvalue (classifyValue expr) then .load code else code, none)
  else
    let n ← alloc
    return (.slot n param.2 (← visit true), some ⟨n, param.2⟩)

/-- `genCall`. The function returns through a pointer unless its return type is trivially copyable. -/
def genCall (result : Bool) (expr : AExpr) (code : Code) : Gen Code :=
  if isTriviallyCopyable expr.exprType then return constructResultFromValue result expr code
  else intoResult expr.exprType result code

/-- The vector `dtors` of `callExtFunc`: the first argument shares the entry of the receiver. -/
def extMethodDtors (self : Option Object) : List (Option Object) → List (Option Object)
  | some arg :: args => some arg :: args
  | none :: args => self :: args
  | [] => [self]

def materialize (expr : AExpr) (visit : Bool → Gen Code) : Gen Code := do
  if classifyValue expr = .prvalue then
    let n ← alloc
    let code ← visit true
    pushTemp ⟨n, expr.exprType⟩
    return .slot n expr.exprType code
  else visit false

def funcParams : Ty → List (ParamRef × Ty)
  | .func params _ => params
  | _ => []

/-- The parameters of a builtin function on the given arguments. -/
def btnParams (func : BtnFunc) (args : List AExpr) : List (ParamRef × Ty) :=
  match args with
  | [] => []
  | arr :: rest =>
      ((if func = .capacity ∨ func = .size then .val else .ref), arr.exprType.concreteType) ::
        rest.map fun arg ↦ (.val, arg.exprType)

mutual

/-- The visitor; `result` tells whether there is a result address. -/
def visit : AExpr → Bool → Gen Code
  | .binary _ lhs oper rhs, result => do
      if oper.boolOp then
        let lhsCode ← visit lhs false
        let rhsCode ← visit rhs false
        return storeValueAsResult result (.shortCircuit oper (convertToBool lhs lhsCode) (convertToBool rhs rhsCode))
      else
        let lhsCode ← visit lhs false
        let rhsCode ← visit rhs false
        return storeValueAsResult result
          (.binary oper lhs.exprType (loadValue lhs lhsCode) (loadValue rhs rhsCode))
  | .unary _ oper expr, result => do
      let code ← visit expr false
      return storeValueAsResult result
        (.unary oper (if oper = .bool_not then convertToBool expr code else loadValue expr code))
  | .callPtr info func args, result => do
      let funcCode ← visit func false
      let (codes, dtors) ← visitParams (funcParams func.exprType) args
      genCall result (.callPtr info func args)
        (.call .closure info.exprType (funcCode :: codes) (dtors.reduceOption ++ prvalueObject func funcCode))
  | .callFunc info func args, result => do
      let (codes, dtors) ← visitParams func.params args
      genCall result (.callFunc info func args) (.call (.func func) info.exprType codes dtors.reduceOption)
  | .callMethod info func self args, result => do
      let (selfCode, selfDtor) ← visitParam (func.receiver.getD (.val, self.exprType)) self (visit self)
      let (codes, dtors) ← visitParams func.params args
      let dtors := if func.external then extMethodDtors selfDtor dtors else selfDtor :: dtors
      genCall result (.callMethod info func self args)
        (.call (.func func) info.exprType (selfCode :: codes) dtors.reduceOption)
  | .callBtn info func args, result => do
      let (codes, dtors) ← visitParams (btnParams func args) args
      return constructResultFromValue result (.callBtn info func args)
        (.call (.btnFunc func) info.exprType codes dtors.reduceOption)
  | .member info object index, result => do
      let code ← materialize object (visit object)
      return constructResultFromValue result (.member info object index) (.member code index)
  | .subscript info object index, result => do
      let objectCode ← materialize object (visit object)
      let indexCode ← visit index false
      return constructResultFromValue result (.subscript info object index)
        (.subscript objectCode (loadValue index indexCode))
  | .ident info definition captureIndex, result =>
      return constructResultFromValue result (.ident info definition captureIndex)
        (match captureIndex with
        | none => .var definition
        | some index => .capture index)
  | .funcRef info func, result => intoResult info.exprType result (.funCtor func)
  | .ternary info cond troo fols, result => do
      let condCode ← visit cond false
      if result then
        let trooCode ← visit troo true
        let folsCode ← visit fols true
        return .ternary (convertToBool cond condCode) trooCode folsCode
      else if classifyValue troo = .lvalue ∧ classifyValue fols = .lvalue then
        let trooCode ← visit troo false
        let folsCode ← visit fols false
        return .ternary (convertToBool cond condCode) trooCode folsCode
      else if isTriviallyCopyable info.exprType then
        let trooCode ← visit troo false
        let folsCode ← visit fols false
        return .ternary (convertToBool cond condCode) (loadValue troo trooCode) (loadValue fols folsCode)
      else
        let n ← alloc
        let trooCode ← visit troo true
        let folsCode ← visit fols true
        return .slot n info.exprType (.ternary (convertToBool cond condCode) trooCode folsCode)
  | .make info expr cast, result => do
      if !cast then visit expr result
      else
        let code ← visit expr false
        if isBoolType info.exprType ∧ !isBtnType expr.exprType then
          return storeValueAsResult result (convertToBool expr code)
        else return storeValueAsResult result (.cast info.exprType (loadValue expr code))
  | .string info value, result =>
      intoResult info.exprType result (if value.isEmpty then .defConstruct info.exprType else .string value)
  | .char _ value, result => return storeValueAsResult result (.const (.char value))
  | .number _ value, result => return storeValueAsResult result (.const (.number value))
  | .bool _ value, result => return storeValueAsResult result (.const (.bool value))
  | .array info exprs, result => do
      let codes ← visitElems exprs
      intoResult info.exprType result (if exprs.isEmpty then .defConstruct info.exprType else .array codes)
  | .initList info exprs, result => do
      let codes ← visitElems exprs
      let code ← intoResult info.exprType result
        (if exprs.isEmpty then .defConstruct info.exprType else .initList codes)
      return if !result ∧ isTriviallyCopyable info.exprType then .load code else code
  | .lambda info lam, result => intoResult info.exprType result (.lambda lam)

/-- The loop of `pushArgs`. -/
def visitParams : List (ParamRef × Ty) → List AExpr → Gen (List Code × List (Option Object))
  | param :: params, arg :: args => do
      let (code, dtor) ← visitParam param arg (visit arg)
      let (codes, dtors) ← visitParams params args
      return (code :: codes, dtor :: dtors)
  | _, _ => return ([], [])

/-- The elements of an array literal, or the fields of an initialiser list, each into its place. -/
def visitElems : List AExpr → Gen (List Code)
  | [] => return []
  | expr :: exprs => do
      let code ← visit expr true
      return code :: (← visitElems exprs)

end

/-! ## The generators of full expressions -/

/-- `generateExpr`. -/
def generateExpr (expr : AExpr) (result : Bool) : Gen Code :=
  visit expr result

/-- `generateBoolExpr`. -/
def generateBoolExpr (expr : AExpr) : Gen Code := do
  return convertToBool expr (← visit expr false)

end GenerateExpr

end Stela.CodeGen
