import Stela.Semantic.InferType

/-!
# The expression stack

`expr stack.cpp`, what `expr lookup.cpp` does with the stack, and the visitor of `infer type.cpp` on top of them. A
visit pushes entries, and what a name or a call means is told by the entries below; of the expressions on the
stack only one has its type recorded.
-/

namespace Stela.Semantic.ExprStack

open Stela.Syntax

inductive ExprKind
  | call
  | expr
  | subexpr
  | member
  | func
  | btn_func
  deriving DecidableEq

/-- `ExprStack::Expr`. -/
structure Entry where
  kind : ExprKind
  name : String := ""

/-- The fields of the visitor, of its `ExprLookup` and of its `ExprStack`; the newest entry comes first. -/
structure Visitor where
  exprs : List Entry := []
  exprType : Option ExprType := none
  expType : Option Ty := none
  expected : Option Ty := none

/-- How a visit stops: where semantic analysis stops, or at an assertion about the stack. -/
inductive Fault
  | check (stop : Stop)
  | stack

abbrev Visit := StateT Visitor (Except Fault)

variable {α : Type}

def lift (c : Check α) : Visit α := fun v ↦
  match c with
  | .ok a => .ok (a, v)
  | .error stop => .error (.check stop)

/-! ## The stack -/

def push (entry : Entry) : Visit Unit := modify fun v ↦ { v with exprs := entry :: v.exprs }

def pushCall : Visit Unit := push ⟨.call, ""⟩

def pushExpr (type : ExprType) : Visit Unit :=
  modify fun v ↦ { v with exprs := ⟨.expr, ""⟩ :: v.exprs, exprType := some type }

def pushMember (name : String) : Visit Unit := push ⟨.member, name⟩

def pushFunc (name : String) : Visit Unit := push ⟨.func, name⟩

def pushBtnFunc (name : String) : Visit Unit := push ⟨.btn_func, name⟩

/-- The recorded type, which is null once a sub-expression has been left. -/
def recorded : Visit ExprType := do
  match (← get).exprType with
  | some type => return type
  | none => throw .stack

def pushMemberExpr (type : Ty) : Visit Unit := do pushExpr (fieldType (← recorded) type)

def top : Visit ExprKind := do
  match (← get).exprs with
  | [] => throw .stack
  | entry :: _ => return entry.kind

/-- An expression whose member is a field. -/
def memVarExpr (kind : ExprKind) : List Entry → Bool
  | [e, e'] => e.kind = kind && e'.kind = .member
  | e :: e' :: e'' :: _ => e.kind = kind && e'.kind = .member && e''.kind ≠ .call
  | _ => false

/-- An expression whose member is about to be called. -/
def memFunExpr (kind : ExprKind) : List Entry → Bool
  | e :: e' :: e'' :: _ => e.kind = kind && e'.kind = .member && e''.kind = .call
  | _ => false

def call (kind : ExprKind) : List Entry → Bool
  | e :: e' :: _ => e.kind = kind && e'.kind = .call
  | _ => false

def popName (kind : ExprKind) : Visit String := do
  match (← get).exprs with
  | [] => throw .stack
  | entry :: exprs =>
      if entry.kind = kind then
        modify fun v ↦ { v with exprs := exprs }
        return entry.name
      else throw .stack

def pop (kind : ExprKind) : Visit Unit := do let _ ← popName kind

def popCall : Visit Unit := pop .call

def popMember : Visit String := popName .member

def popFunc : Visit String := popName .func

def popBtnFunc : Visit String := popName .btn_func

def popExpr : Visit ExprType := do
  pop .expr
  recorded

def setExpr (type : ExprType) : Visit Unit := do
  if (← top) = .expr then throw .stack
  else pushExpr type

def enterSubExpr : Visit Unit := push ⟨.subexpr, ""⟩

def leaveSubExpr : Visit ExprType := do
  pop .expr
  pop .subexpr
  let type ← recorded
  modify fun v ↦ { v with exprType := none }
  return type

def topType : Visit Ty := do
  if (← top) = .expr then return (← recorded).type
  else throw .stack

/-! ## Lookup -/

/-- What is known of a node once it has been visited: the node, or for a callee whether it is a name or a member of
an object. -/
inductive Node
  | expr (expr : AExpr)
  | name
  | method (object : AExpr)

/-- `FuncCall::definition`. -/
inductive Declaration
  | func (func : FuncSym)
  | btnFunc (func : BtnFunc)

section

-- the symbols that a name is bound to in the nearest scope that binds it
variable (scope : String → List Symbol)

def lookupFun (name : String) (receiver : Option ExprType) (args : List ExprType) : Check FuncSym := do
  require (!(scope name).isEmpty) s!"Use of undefined symbol \"{name}\""
  InferType.lookupFun name receiver args (scope name)

def popCallPushRet (func : FuncSym) (ret : Ty) : Visit (Option Declaration) := do
  popCall
  pushExpr (makeLetVal ret)
  return some (.func func)

/-- The call of a method. -/
def callMember (args : List ExprType) : Visit (Option Declaration) := do
  let receiver ← popExpr
  let name ← popMember
  let func ← lift (lookupFun scope name (some receiver) args)
  match func.ret with
  | none => lift (throw .assertion)
  | some ret => popCallPushRet func ret

/-- The call of a function by its name. -/
def callName (args : List ExprType) : Visit (Option Declaration) := do
  let name ← popFunc
  let func ← lift (lookupFun scope name none args)
  match func.ret with
  | none => lift (fatal s!"Return type of function \"{name}\" cannot be deduced")
  | some ret => popCallPushRet func ret

/-- The call of a builtin function, which is looked up once more. -/
def callBtn (args : List ExprType) : Visit (Option Declaration) := do
  let name ← popBtnFunc
  match scope name with
  | .btnFunc func :: _ =>
      popCall
      let ret ← lift (callBtnFunc func args)
      pushExpr (makeLetVal ret)
      return some (.btnFunc func)
  | _ => throw .stack

/-- The call of an expression. -/
def callObject (args : List ExprType) : Visit (Option Declaration) := do
  let expr ← popExpr
  popCall
  match expr.type with
  | .func params ret =>
      lift (validateParams params)
      lift (require (compatParams (params.map convert) args) "No matching call to function object")
      match ret with
      | none => lift (throw .assertion)
      | some ret =>
          lift (validateType ret)
          pushExpr (makeLetVal ret)
          return none
  | _ => lift (fatal "Calling an expression but it is not a function object")

def lookupFunc (args : List ExprType) : Visit (Option Declaration) := do
  let exprs := (← get).exprs
  if memFunExpr .expr exprs then callMember scope args
  else if call .func exprs then callName scope args
  else if call .btn_func exprs then callBtn scope args
  else if call .expr exprs then callObject args
  else throw .stack

/-- The index and the type of the field. -/
def lookupField : Visit (Option (ℕ × Ty)) := do
  let etype ← popExpr
  let name ← popMember
  let (index, type) ← lift (InferType.memberType etype.type name)
  pushMemberExpr type
  return some (index, type)

/-- Nothing is done when the member is about to be called. -/
def lookupMember : Visit (Option (ℕ × Ty)) := do
  if memVarExpr .expr (← get).exprs then lookupField
  else return none

/-- Push an expression that has been made without the stack. -/
def pushVisited (visited : Check InferType.Visited) (push : ExprType → Visit Unit) : Visit Node := do
  match ← lift visited with
  | .expr expr etype =>
      push etype
      return .expr expr
  | _ => throw .stack

def pushFunPtr (name : String) (symbols : List Symbol) : Visit Node := do
  pushVisited (InferType.pushFunPtr name symbols (← get).expType) pushExpr

def lookupIdent (name : String) (symbols : List Symbol) : Visit Node := do
  match symbols with
  | [] => lift (fatal s!"Use of undefined symbol \"{name}\"")
  | .object definition etype captureIndex :: _ =>
      pushExpr (if captureIndex.isSome then makeVarVal etype.type else etype)
      return .expr (.ident ⟨none, etype.type⟩ definition captureIndex)
  | .func _ :: _ =>
      if (← top) = .call then
        pushFunc name
        return .name
      else pushFunPtr name symbols
  | .btnFunc _ :: _ =>
      if (← top) = .call then
        pushBtnFunc name
        return .name
      else lift (fatal s!"Reference to builtin function \"{name}\" must be called")
  | .typeAlias :: _ => lift (fatal s!"Expected variable or function but found type \"{name}\"")

/-! ## The visitor -/

/-- A node has been visited and its type is pushed. -/
def leave (visited : Check InferType.Visited) : Visit Node := pushVisited visited setExpr

def visitExprNoCheck (visit : Visit Node) (type : Option Ty) : Visit (AExpr × ExprType) := do
  enterSubExpr
  let oldExpected := (← get).expected
  modify fun v ↦ { v with expected := type }
  let node ← visit
  modify fun v ↦ { v with expected := oldExpected }
  let etype ← leaveSubExpr
  match node with
  | .expr expr => return (expr.setExpected type, etype)
  | _ => throw .stack

def visitExprNoCheckBool (visit : Visit Node) (type : Ty) : Visit (AExpr × ExprType) := do
  let (expr, etype) ← visitExprNoCheck visit (some type)
  if InferType.convertsToBool type etype.type then return (expr, makeLetVal InferType.boolType)
  else return (expr, etype)

def visitExprCheck (visit : Visit Node) (type : Option Ty) : Visit (AExpr × ExprType) := do
  let (expr, etype) ← visitExprNoCheck visit type
  match type with
  | none => return (expr, etype)
  | some type =>
      if compareTypes type etype.type then return (expr, etype)
      else if InferType.convertsToBool type etype.type then return (expr, makeLetVal InferType.boolType)
      else lift (fatal s!"Expected {typeDesc type} but got {typeDesc etype.type}")

/-- A visitor of its own. -/
def fresh (m : Visit α) : Visit α := fun v ↦ (fun r ↦ (r.1, v)) <$> m {}

/-- The node of a call, whose definition is null when an expression is called. -/
def callNode (callee : Node) (args : List AExpr) (type : Ty) : Option Declaration → Visit Node
  | some (.func func) =>
      match callee with
      | .method object => return .expr (.callMethod ⟨none, type⟩ func object args)
      | _ => return .expr (.callFunc ⟨none, type⟩ func args)
  | some (.btnFunc func) => return .expr (.callBtn ⟨none, type⟩ func args)
  | none =>
      match callee with
      | .expr func => return .expr (.callPtr ⟨none, type⟩ func args)
      | _ => throw .stack

/-- The node of a member, once its object has been visited and the member looked up. -/
def memberNode : Node → Option (ℕ × Ty) → Visit Node
  | .expr object, some (index, type) => return .expr (.member ⟨none, type⟩ object index)
  | .expr object, none => return .method object
  | _, _ => throw .stack

mutual

def visit : Expr → Visit Node
  | .binary lhs oper rhs => do
      let expType := if oper.boolOp then some InferType.boolType else none
      let lhs ← visitExprCheck (visit lhs) expType
      let rhs ← visitExprCheck (visit rhs) expType
      leave (InferType.leaveBinary lhs oper rhs)
  | .unary oper expr => do
      let expType := if oper.boolOp then some InferType.boolType else none
      let expr ← visitExprCheck (visit expr) expType
      leave (InferType.leaveUnary oper expr)
  | .call func args => do
      pushCall
      let callee ← visit func
      let args ← argTypes args
      let definition ← lookupFunc scope (args.map Prod.snd)
      let type ← topType
      callNode callee (args.map Prod.fst) type definition
  | .member object name _ => do
      pushMember name
      let node ← visit object
      let field ← lookupMember
      memberNode node field
  | .subscript object index => do
      let object ← visitExprCheck (visit object) none
      let index ← visitExprCheck (visit index) none
      leave (InferType.leaveSubscript object index)
  | .ident name symbols => do
      modify fun v ↦ { v with expType := v.expected }
      lookupIdent name symbols
  | .ternary cond troo fols => do
      let cond ← visitExprCheck (visit cond) (some InferType.boolType)
      let troo ← visitExprCheck (visit troo) (← get).expected
      let fols ← visitExprCheck (visit fols) (← get).expected
      leave (InferType.leaveTernary cond troo fols)
  | .make type expr => do
      lift (validateType type)
      let expr ← visitExprNoCheckBool (visit expr) type
      leave (InferType.leaveMake type expr)
  | .string value => leave (return InferType.setLetVal (.string ⟨none, stringType⟩ value))
  | .char value =>
      match value with
      | [value] => leave (return InferType.setLetVal (.char ⟨none, .btn .char⟩ value))
      | _ => lift (fatal "Character literal must be one character")
  | .number value => leave (return InferType.setLetVal (.number ⟨none, .btn (InferType.numberType value)⟩ value))
  | .bool value => leave (return InferType.setLetVal (.bool ⟨none, InferType.boolType⟩ value))
  | .array [] => do
      let elem ← lift (InferType.expectedElem (← get).expected)
      leave (InferType.leaveEmptyArray elem)
  | .array (expr :: exprs) => do
      let elem ← lift (InferType.expectedElem (← get).expected)
      let (expr, etype) ← visitExprCheck (visit expr) elem
      let exprs ← visitElems elem etype.type exprs
      leave (InferType.leaveArray (expr :: exprs) etype.type)
  -- the expected type is moved out of the visitor
  | .initList [] => do
      match (← get).expected with
      | none => lift (fatal "Could not infer type of init list")
      | some type =>
          modify fun v ↦ { v with expected := none }
          leave (return InferType.setLetVal (.initList ⟨none, type⟩ []))
  | .initList (expr :: exprs) => do
      match (← get).expected with
      | none => lift (fatal "Could not infer type of init list")
      | some type =>
          let fields ← lift (InferType.structFields type)
          lift (require (exprs.length + 1 ≤ fields.length) "Too many expressions in initializer list")
          lift (require (fields.length ≤ exprs.length + 1) "Too few expressions in initializer list")
          let exprs ← visitFields (expr :: exprs) fields
          modify fun v ↦ { v with expected := none }
          leave (return InferType.setLetVal (.initList ⟨none, type⟩ exprs))
  | .lambda lam params ret => do
      lift (validateType ret)
      lift (validateParams params)
      leave (return InferType.setLetVal (.lambda ⟨none, .func params (some ret)⟩ lam))

def argTypes : List Expr → Visit (List (AExpr × ExprType))
  | [] => return []
  | arg :: args => do
      let arg ← fresh (visitExprCheck (visit arg) none)
      return arg :: (← argTypes args)

def visitElems (elem : Option Ty) (type : Ty) : List Expr → Visit (List AExpr)
  | [] => return []
  | expr :: exprs => do
      let (expr, etype) ← visitExprNoCheck (visit expr) elem
      lift (require (compareTypes type etype.type) "Unmatching types in array literal")
      return expr :: (← visitElems elem type exprs)

def visitFields : List Expr → List (String × Ty) → Visit (List AExpr)
  | expr :: exprs, (_, type) :: fields => do
      let (expr, _) ← visitExprCheck (visit expr) (some type)
      return expr :: (← visitFields exprs fields)
  | _, _ => return []

end

def getExprType (expr : Expr) (type : Option Ty) : Except Fault (AExpr × ExprType) :=
  Prod.fst <$> visitExprCheck (visit scope expr) type {}

end

end Stela.Semantic.ExprStack
