import Stela.Semantic.BuiltinSymbols

/-!
# Inference of expression types

`infer type.cpp`, with `expr lookup.cpp` for the names in an expression. A visit fills in the nodes and
pushes one entry on the expression stack, which is its result here: an expression with its type or,
directly under a pending call, the function or method that is about to be called. `expected` is the
field of the visitor; it is only replaced when a sub-expression is entered, so the callee of a call and
the object of a member see the type that was expected of the whole.
-/

namespace Stela.Semantic.InferType

open Stela.Syntax

def boolType : Ty := .btn .bool

/-- The entry that a visit leaves on the expression stack. -/
inductive Visited where
  | expr (expr : AExpr) (etype : ExprType)
  | func (name : String) (symbols : List Symbol)
  | btnFunc (func : BtnFunc)
  | member (object : AExpr) (receiver : ExprType) (name : String) (symbols : List Symbol)

/-- `leaveSubExpr` asserts that the entry is an expression. -/
def leaveSubExpr : Visited → Check (AExpr × ExprType)
  | .expr expr etype => return (expr, etype)
  | _ => throw .assertion

/-- Push a node that is not assignable. -/
def setLetVal (expr : AExpr) : Visited :=
  .expr expr (makeLetVal expr.exprType)

/-! ## Checks against the expected type -/

def convertibleToBool (type : Ty) : Bool :=
  match type.concreteType with
  | .func _ _ => true
  | .user _ _ _ ctors => ctors.boolConv.addr != UserCtor.none
  | _ => false

/-- Whether an expression is implicitly converted: it does not have the expected type, `bool`. -/
def convertsToBool (type etype : Ty) : Bool :=
  !compareTypes type etype && (compareTypes type boolType && convertibleToBool etype)

def visitExprNoCheck (visited : Check Visited) (type : Option Ty) : Check (AExpr × ExprType) := do
  let (expr, etype) ← leaveSubExpr (← visited)
  return (expr.setExpected type, etype)

def visitExprNoCheckBool (visited : Check Visited) (type : Ty) : Check (AExpr × ExprType) := do
  let (expr, etype) ← visitExprNoCheck visited (some type)
  if convertsToBool type etype.type then return (expr, makeLetVal boolType)
  else return (expr, etype)

def visitExprCheck (visited : Check Visited) (type : Option Ty) : Check (AExpr × ExprType) := do
  let (expr, etype) ← visitExprNoCheck visited type
  match type with
  | none => return (expr, etype)
  | some type =>
      if compareTypes type etype.type then return (expr, etype)
      else if convertsToBool type etype.type then return (expr, makeLetVal boolType)
      else fatal s!"Expected {typeDesc type} but got {typeDesc etype.type}"

/-! ## Names -/

/-- `lookupFun`, among the symbols of the nearest scope that binds the name. -/
def lookupFun (name : String) (receiver : Option ExprType) (args : List ExprType) :
    List Symbol → Check FuncSym
  | [] => fatal s!"No matching call to function \"{name}\""
  | .func func :: symbols =>
      if compatReceiver (func.receiver.map convert) receiver ∧ compatParams (func.params.map convert) args then
        return func
      else lookupFun name receiver args symbols
  | _ :: _ => fatal s!"Calling \"{name}\" but it is not a function"

/-- The call of a method; it asserts that the return type is known. -/
def callMember (object : AExpr) (receiver : ExprType) (name : String) (symbols : List Symbol)
    (args : List (AExpr × ExprType)) : Check Visited := do
  require (!symbols.isEmpty) s!"Use of undefined symbol \"{name}\""
  let func ← lookupFun name (some receiver) (args.map Prod.snd) symbols
  match func.ret with
  | none => throw .assertion
  | some ret => return setLetVal (.callMethod ⟨none, ret⟩ func object (args.map Prod.fst))

/-- The call of a function by its name. -/
def callName (name : String) (symbols : List Symbol) (args : List (AExpr × ExprType)) : Check Visited := do
  require (!symbols.isEmpty) s!"Use of undefined symbol \"{name}\""
  let func ← lookupFun name none (args.map Prod.snd) symbols
  match func.ret with
  | none => fatal s!"Return type of function \"{name}\" cannot be deduced"
  | some ret => return setLetVal (.callFunc ⟨none, ret⟩ func (args.map Prod.fst))

/-- The call of an expression. Its type is not looked up: an alias of a function type does not count as
a function type here. -/
def callObject (func : AExpr) (etype : ExprType) (args : List (AExpr × ExprType)) : Check Visited :=
  match etype.type with
  | .func params ret => do
      validateParams params
      require (compatParams (params.map convert) (args.map Prod.snd)) "No matching call to function object"
      match ret with
      | none => throw .assertion
      | some ret => do
          validateType ret
          return setLetVal (.callPtr ⟨none, ret⟩ func (args.map Prod.fst))
  | _ => fatal "Calling an expression but it is not a function object"

/-- `lookupFunc`: the call, from its callee and its arguments. -/
def lookupFunc (callee : Visited) (args : List (AExpr × ExprType)) : Check Visited :=
  match callee with
  | .member object receiver name symbols => callMember object receiver name symbols args
  | .func name symbols => callName name symbols args
  | .btnFunc func => do
      let ret ← callBtnFunc func (args.map Prod.snd)
      return setLetVal (.callBtn ⟨none, ret⟩ func (args.map Prod.fst))
  | .expr func etype => callObject func etype args

/-- `addressOfFunc` and `getFuncType`. -/
def addressOfFunc (func : FuncSym) : Check Ty :=
  if func.external then fatal "Cannot take the address of an external function"
  else if func.receiver.isSome then fatal "Cannot take address of method"
  else return .func func.params func.nodeRet

/-- The loop of `pushFunPtr` over the overloads of a function. -/
def findOverload (name : String) (expType : Ty) : List Symbol → Check Visited
  | [] => fatal s!"No overload of function \"{name}\" matches signature"
  | .func func :: symbols => do
      let funcType ← addressOfFunc func
      if compareTypes expType funcType then return setLetVal (.funcRef ⟨none, funcType⟩ func)
      else findOverload name expType symbols
  | _ :: _ => throw .assertion

/-- `pushFunPtr`. -/
def pushFunPtr (name : String) (symbols : List Symbol) (expType : Option Ty) : Check Visited :=
  match symbols, expType with
  | [.func func], expType => do
      let funcType ← addressOfFunc func
      require (expType.all fun type ↦ compareTypes type funcType)
        s!"Function \"{name}\" does not match signature"
      return setLetVal (.funcRef ⟨none, funcType⟩ func)
  | _, none => fatal s!"Ambiguous reference to overloaded function \"{name}\""
  | symbols, some expType => findOverload name expType symbols

/-- `lookupIdent`; `call` tells whether a call is on top of the expression stack. -/
def lookupIdent (name : String) (symbols : List Symbol) (call : Bool) (expected : Option Ty) : Check Visited :=
  match symbols with
  | [] => fatal s!"Use of undefined symbol \"{name}\""
  | .object definition etype captureIndex :: _ =>
      let pushed := if captureIndex.isSome then makeVarVal etype.type else etype
      return .expr (.ident ⟨none, etype.type⟩ definition captureIndex) pushed
  | .func _ :: _ => if call then return .func name symbols else pushFunPtr name symbols expected
  | .btnFunc func :: _ =>
      if call then return .btnFunc func
      else fatal s!"Reference to builtin function \"{name}\" must be called"
  | .typeAlias :: _ => fatal s!"Expected variable or function but found type \"{name}\""

/-- `lookupField`: the index and the type of the field. -/
def lookupField (type : Ty) (name : String) (fields : List (String × Ty)) : Check (ℕ × Ty) :=
  match fields.findIdx? fun field ↦ field.1 == name with
  | none => fatal s!"No field \"{name}\" found in {typeDesc type}"
  | some index =>
      match fields[index]? with
      | none => throw .unreachable
      | some field => return (index, field.2)

def memberType (type : Ty) (name : String) : Check (ℕ × Ty) :=
  match type.concreteType with
  | .btn .void => fatal s!"Cannot access field \"{name}\" of void expression"
  | .struct fields => lookupField type name fields
  | .user fields _ _ _ => lookupField type name (fields.map fun field ↦ (field.1, field.2.1))
  | _ => fatal s!"Cannot access field \"{name}\" of {typeDesc type}"

/-- `lookupMember`, when the member is not being called. -/
def lookupMember (object : AExpr) (etype : ExprType) (name : String) : Check Visited := do
  let (index, type) ← memberType etype.type name
  return .expr (.member ⟨none, type⟩ object index) (fieldType etype type)

/-! ## Nodes -/

/-- The type of a binary expression whose operands have the given types. -/
def binaryType (oper : BinOp) (lhs rhs : Ty) : Check Ty :=
  if oper.compOp then do
    validComp lhs
    return boolType
  else match lhs.concreteType, rhs.concreteType with
    | .btn builtinLeft, .btn builtinRight =>
        match validBinOp oper builtinLeft builtinRight with
        | some retType => return .btn retType
        | none => fatal s!"Invalid operands to binary expression {oper.opName}"
    | _, _ => fatal s!"Invalid operands to binary expression {oper.opName}"

def leaveBinary (lhs : AExpr × ExprType) (oper : BinOp) (rhs : AExpr × ExprType) : Check Visited := do
  require (compareTypes lhs.2.type rhs.2.type)
    s!"Operands to binary expression {oper.opName} must have same type"
  let type ← binaryType oper lhs.2.type rhs.2.type
  return setLetVal (.binary ⟨none, type⟩ lhs.1 oper rhs.1)

def leaveUnary (oper : UnOp) (expr : AExpr × ExprType) : Check Visited :=
  match expr.2.type.concreteType with
  | .btn builtin =>
      if oper.validOp builtin then return setLetVal (.unary ⟨none, expr.2.type⟩ oper expr.1)
      else fatal s!"Invalid operand to unary expression {oper.opName}"
  | _ => fatal s!"Invalid operand to unary expression {oper.opName}"

def leaveSubscript (object index : AExpr × ExprType) : Check Visited :=
  match index.2.type.concreteType with
  | .btn builtinIdx =>
      if validSubscript builtinIdx then
        match object.2.type.concreteType with
        | .array elem =>
            let type := elem.lookupStrongType
            return .expr (.subscript ⟨none, type⟩ object.1 index.1) (fieldType object.2 type)
        | _ => fatal "Subscripted value is not an array"
      else fatal "Invalid subscript index"
  | _ => fatal "Invalid subscript index"

def leaveTernary (cond troo fols : AExpr × ExprType) : Check Visited := do
  require (compareTypes troo.2.type fols.2.type) "Branches of ternary have different types"
  return .expr (.ternary ⟨none, troo.2.type⟩ cond.1 troo.1 fols.1)
    ⟨troo.2.type, commonMut troo.2.mut_ fols.2.mut_, commonRef troo.2.ref fols.2.ref⟩

/-- Whether `make` casts between builtin types. -/
def isCast (dst src : Ty) : Bool :=
  match dst.concreteType, src.concreteType with
  | .btn dst, .btn src => validCast dst src
  | _, _ => false

def leaveMake (type : Ty) (expr : AExpr × ExprType) : Check Visited :=
  if isCast type expr.2.type then return setLetVal (.make ⟨none, type⟩ expr.1 true)
  else if compareTypes expr.2.type.concreteType type.concreteType then
    return setLetVal (.make ⟨none, type⟩ expr.1 false)
  else fatal s!"Cannot make {typeDesc type} from {typeDesc expr.2.type}"

/-- The element type that an array literal is expected to have. -/
def expectedElem : Option Ty → Check (Option Ty)
  | none => return none
  | some expected =>
      match expected.concreteType with
      | .array elem => return some elem.lookupStrongType
      | _ => fatal s!"Array literal cannot initialize {typeDesc expected}"

def leaveEmptyArray : Option Ty → Check Visited
  | none => fatal "Could not infer type of empty array"
  | some elem => return setLetVal (.array ⟨none, .array elem⟩ [])

def leaveArray (exprs : List AExpr) (type : Ty) : Check Visited := do
  require (!type.lookupStrongType.isVoid) "Array element type cannot be void"
  return setLetVal (.array ⟨none, .array type.lookupStrongType⟩ exprs)

/-- The fields that an initialiser list initialises. -/
def structFields (type : Ty) : Check (List (String × Ty)) :=
  match type.concreteType with
  | .struct fields => return fields
  | _ => fatal "Initializer list can only initialize structs"

def numberType : Number → BtnType
  | .byte _ => .byte
  | .char _ => .char
  | .real _ => .real
  | .sint _ => .sint
  | .uint _ => .uint

mutual

/-- The visitor; `call` tells whether a call is on top of the expression stack. -/
def visit : Expr → Bool → Option Ty → Check Visited
  | .binary lhs oper rhs, _, _ => do
      let expType := if oper.boolOp then some boolType else none
      let lhs ← visitExprCheck (visit lhs false expType) expType
      let rhs ← visitExprCheck (visit rhs false expType) expType
      leaveBinary lhs oper rhs
  | .unary oper expr, _, _ => do
      let expType := if oper.boolOp then some boolType else none
      let expr ← visitExprCheck (visit expr false expType) expType
      leaveUnary oper expr
  | .call func args, _, expected => do
      let callee ← visit func true expected
      let args ← argTypes args
      lookupFunc callee args
  | .member object name symbols, call, expected => do
      let (object, etype) ← leaveSubExpr (← visit object false expected)
      if call then return .member object etype name symbols
      else lookupMember object etype name
  | .subscript object index, _, _ => do
      let object ← visitExprCheck (visit object false none) none
      let index ← visitExprCheck (visit index false none) none
      leaveSubscript object index
  | .ident name symbols, call, expected => lookupIdent name symbols call expected
  | .ternary cond troo fols, _, expected => do
      let cond ← visitExprCheck (visit cond false (some boolType)) (some boolType)
      let troo ← visitExprCheck (visit troo false expected) expected
      let fols ← visitExprCheck (visit fols false expected) expected
      leaveTernary cond troo fols
  | .make type expr, _, _ => do
      validateType type
      let expr ← visitExprNoCheckBool (visit expr false (some type)) type
      leaveMake type expr
  | .string value, _, _ => return setLetVal (.string ⟨none, stringType⟩ value)
  | .char value, _, _ =>
      match value with
      | [value] => return setLetVal (.char ⟨none, .btn .char⟩ value)
      | _ => fatal "Character literal must be one character"
  | .number value, _, _ => return setLetVal (.number ⟨none, .btn (numberType value)⟩ value)
  | .bool value, _, _ => return setLetVal (.bool ⟨none, boolType⟩ value)
  | .array [], _, expected => do
      let elem ← expectedElem expected
      leaveEmptyArray elem
  | .array (expr :: exprs), _, expected => do
      let elem ← expectedElem expected
      let (expr, etype) ← visitExprCheck (visit expr false elem) elem
      let exprs ← visitElems elem etype.type exprs
      leaveArray (expr :: exprs) etype.type
  | .initList _, _, none => fatal "Could not infer type of init list"
  | .initList [], _, some type => return setLetVal (.initList ⟨none, type⟩ [])
  | .initList (expr :: exprs), _, some type => do
      let fields ← structFields type
      require (exprs.length + 1 ≤ fields.length) "Too many expressions in initializer list"
      require (fields.length ≤ exprs.length + 1) "Too few expressions in initializer list"
      let exprs ← visitFields (expr :: exprs) fields
      return setLetVal (.initList ⟨none, type⟩ exprs)
  | .lambda lam params ret, _, _ => do
      validateType ret
      validateParams params
      return setLetVal (.lambda ⟨none, .func params (some ret)⟩ lam)

/-- `argTypes`: every argument is visited by a visitor of its own. -/
def argTypes : List Expr → Check (List (AExpr × ExprType))
  | [] => return []
  | arg :: args => do
      let arg ← visitExprCheck (visit arg false none) none
      return arg :: (← argTypes args)

/-- The elements of an array literal after the first, whose type is given. -/
def visitElems (elem : Option Ty) (type : Ty) : List Expr → Check (List AExpr)
  | [] => return []
  | expr :: exprs => do
      let (expr, etype) ← visitExprNoCheck (visit expr false elem) elem
      require (compareTypes type etype.type) "Unmatching types in array literal"
      return expr :: (← visitElems elem type exprs)

def visitFields : List Expr → List (String × Ty) → Check (List AExpr)
  | expr :: exprs, (_, type) :: fields => do
      let (expr, _) ← visitExprCheck (visit expr false (some type)) (some type)
      return expr :: (← visitFields exprs fields)
  | _, _ => return []

end

/-- `getExprType`. -/
def getExprType (expr : Expr) (type : Option Ty) : Check (AExpr × ExprType) :=
  visitExprCheck (visit expr false type) type

end Stela.Semantic.InferType
