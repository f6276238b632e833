import Stela.CodeGen.FullExpressions

/-!
# Code generation for statements

`generate stat.cpp`, up to the blocks. The code of a statement is the tree of the expressions that it evaluates,
with the objects that it destroys at each point. The visitor keeps a stack of scopes; an object that has been
constructed is registered in the innermost one, and `destroy` destroys what the scopes from some index on hold.
-/

namespace Stela.CodeGen

open Stela.Syntax

/-- Whether `LifetimeExpr::destroy` emits a call. -/
def hasDtor (type : Ty) : Bool :=
  match type.concreteType with
  | .btn _ => false
  | .user _ _ _ ctors => ctors.dtor.addr != UserCtor.trivial
  | _ => true

/-- The code of an expression, and the objects that are destroyed after it. -/
structure FullCode where
  code : Code
  dtors : List Object

/-- Destroying the objects emits something. -/
def destroys (objs : List Object) : Bool :=
  objs.any fun obj ↦ hasDtor obj.type

inductive AsgnCode where
  /-- Without initialiser the object is default constructed. -/
  | var (obj : Object) (init : Option FullCode)
  | assign (type : Ty) (cat : ValueCat) (dst : Code) (src : FullCode)
  | call (call : FullCode)
  | none

/-- The object that a case compares with. -/
structure CheckCode where
  obj : Object
  init : FullCode

/-- The code of a statement. A switch has one check (none for the default case) and one body for each case. -/
inductive StatCode where
  | block (nodes : List StatCode)
  | fi (cond : FullCode) (body : StatCode) (elseBody : Option StatCode)
  | swich (obj : Object) (value : Code) (checks : List (Option CheckCode)) (bodies : List StatCode)
      (alwaysReturns : Bool) (dtors : List Object)
  | terminate (dtors : List Object)
  | brake (dtors : List Object)
  | continu (dtors : List Object)
  | ret (value : Option (Ty × Code)) (dtors : List Object)
  | wile (cond : FullCode) (body : StatCode)
  | four (init : AsgnCode) (cond : FullCode) (incr : AsgnCode) (body : StatCode) (dtors : List Object)
  | asgn (code : AsgnCode)

/-- The code of a function: the arguments that are stored in objects, the argument through which an object is
returned, and the statements. -/
structure BodyCode where
  params : List (ℕ × Object)
  retArg : ℕ
  nodes : List StatCode

namespace GenerateStat

/-- The next `alloca`, and the scopes from the innermost one outwards. -/
structure State where
  next : ℕ := 0
  scopes : List (List Object) := []

abbrev Gen := StateM State

def alloc : Gen ℕ :=
  modifyGet fun s ↦ (s.next, { s with next := s.next + 1 })

/-- The index of the new scope. -/
def enterScope : Gen ℕ :=
  modifyGet fun s ↦ (s.scopes.length, { s with scopes := [] :: s.scopes })

def leaveScope : Gen Unit :=
  modify fun s ↦ { s with scopes := s.scopes.tail }

def pushObj (obj : Object) : Gen Unit :=
  modify fun s ↦ { s with scopes := (s.scopes.headD [] ++ [obj]) :: s.scopes.tail }

/-- The objects of the scopes from the given index on, in the order in which they are destroyed. -/
def destroy (index : ℕ) : Gen (List Object) := do
  let scopes := (← get).scopes
  return (scopes.take (scopes.length - index)).flatMap List.reverse

/-- After a switch; nothing gets there if it always returns. -/
def destroyUnless (alwaysReturns : Bool) (index : ℕ) : Gen (List Object) :=
  if alwaysReturns then return [] else destroy index

section Visitor

variable (movable : ℕ → Bool)

/-- The temporaries of an expression are registered in the innermost scope. -/
def genExpr (use : Use) (expr : AExpr) : Gen Code :=
  modifyGet fun s ↦
    let (code, t) := (use.generate movable expr).run ⟨s.next, s.scopes.headD []⟩
    (code, ⟨t.next, t.temps :: s.scopes.tail⟩)

/-- An expression in a scope of its own. -/
def genFull (use : Use) (expr : AExpr) : Gen FullCode := do
  let exprScope ← enterScope
  let code ← genExpr movable use expr
  let dtors ← destroy exprScope
  leaveScope
  return ⟨code, dtors⟩

def equalTo (expr : AExpr) : Gen CheckCode := do
  let exprScope ← enterScope
  let obj : Object := ⟨← alloc, expr.exprType⟩
  let code ← genExpr movable .case expr
  pushObj obj
  let dtors ← destroy exprScope
  leaveScope
  return ⟨obj, code, dtors⟩

def genInit (type : Ty) : Option AExpr → Gen (Option FullCode)
  | none => return none
  | some expr => some <$> genFull movable (.init type) expr

def insertVar (type : Ty) (expr : Option AExpr) : Gen AsgnCode := do
  let obj : Object := ⟨← alloc, type⟩
  let init ← genInit movable type expr
  pushObj obj
  return .var obj init

/-- The other assignments have been lowered. -/
def visitAsgn : Asgn AExpr → Gen AsgnCode
  | .assign dst src => do
      let exprScope ← enterScope
      let dstCode ← genExpr movable .dst dst
      let srcCode ← genExpr movable .src src
      let dtors ← destroy exprScope
      leaveScope
      return .assign dst.exprType (classifyValue src) dstCode ⟨srcCode, dtors⟩
  | .declAssign _ expr => insertVar movable expr.exprType (some expr)
  | .callAssign call => .call <$> genFull movable .call call
  | .compAssign _ _ _ | .incrDecr _ _ => return .none

def visitOptAsgn : Option (Asgn AExpr) → Gen AsgnCode
  | none => return .none
  | some asgn => visitAsgn movable asgn

def visitDecl : Decl AExpr → Gen AsgnCode
  | .var _ type none => insertVar movable (type.getD (.btn .void)) none
  | .var _ type (some expr) | .let_ _ type expr => insertVar movable (type.getD expr.exprType) (some expr)
  | .typeAlias _ _ _ => return .none

/-- The comparisons of `emitCaseChecks`. -/
def visitChecks : List (SwitchCase AExpr) → Gen (List (Option CheckCode))
  | [] => return []
  | .mk none _ :: cases => return none :: (← visitChecks cases)
  | .mk (some expr) _ :: cases => do
      let check ← equalTo movable expr
      return some check :: (← visitChecks cases)

mutual

/-- The visitor; `scopeIndex` is the field of `FlowData`. -/
def visit : Stat AExpr → ℕ → Gen StatCode
  | .block nodes, scopeIndex => do
      let _ ← enterScope
      let codes ← visitNodes nodes scopeIndex
      leaveScope
      return .block codes
  | .fi cond body none, scopeIndex => do
      let condCode ← genFull movable .cond cond
      let bodyCode ← visit body scopeIndex
      return .fi condCode bodyCode none
  | .fi cond body (some elseBody), scopeIndex => do
      let condCode ← genFull movable .cond cond
      let bodyCode ← visit body scopeIndex
      let elseCode ← visit elseBody scopeIndex
      return .fi condCode bodyCode (some elseCode)
  | .swich expr cases alwaysReturns, _ => do
      let exprScope ← enterScope
      let obj : Object := ⟨← alloc, expr.exprType⟩
      let value ← genExpr movable .swich expr
      if cases.isEmpty then
        let dtors ← destroy exprScope
        leaveScope
        return .swich obj value [] [] alwaysReturns dtors
      else
        let caseScope := (← get).scopes.length
        let checks ← visitChecks movable cases
        let bodies ← visitBodies cases caseScope
        let dtors ← destroyUnless alwaysReturns exprScope
        leaveScope
        return .swich obj value checks bodies alwaysReturns dtors
  | .terminate, _ => do
      let dtors ← destroy ((← get).scopes.length - 1)
      return .terminate dtors
  | .brake, scopeIndex => .brake <$> destroy scopeIndex
  | .continu, scopeIndex => .continu <$> destroy scopeIndex
  | .ret none, _ => .ret none <$> destroy 0
  | .ret (some expr), _ => do
      let code ← genExpr movable .ret expr
      let dtors ← destroy 0
      return .ret (some (expr.exprType, code)) dtors
  | .wile cond body, _ => do
      let scopeIndex ← enterScope
      let bodyCode ← visit body scopeIndex
      leaveScope
      let condCode ← genFull movable .cond cond
      return .wile condCode bodyCode
  | .four init cond incr body, _ => do
      let outerIndex ← enterScope
      let initCode ← visitOptAsgn movable init
      let innerIndex ← enterScope
      let bodyCode ← visit body innerIndex
      leaveScope
      let condCode ← genFull movable .cond cond
      let incrCode ← visitOptAsgn movable incr
      let dtors ← destroy outerIndex
      leaveScope
      return .four initCode condCode incrCode bodyCode dtors
  | .decl decl, _ => .asgn <$> visitDecl movable decl
  | .asgn asgn, _ => .asgn <$> visitAsgn movable asgn

def visitNodes : List (Stat AExpr) → ℕ → Gen (List StatCode)
  | [], _ => return []
  | node :: nodes, scopeIndex => do
      let code ← visit node scopeIndex
      return code :: (← visitNodes nodes scopeIndex)

/-- The bodies of `emitCaseBodies`. -/
def visitBodies : List (SwitchCase AExpr) → ℕ → Gen (List StatCode)
  | [], _ => return []
  | .mk _ body :: cases, scope => do
      let _ ← enterScope
      let code ← visit body scope
      leaveScope
      return code :: (← visitBodies cases scope)

end

/-- `insert`: the arguments, from the given index on, that are stored in objects of their own. -/
def insertParams : List (ParamRef × Ty) → ℕ → Gen (List (ℕ × Object))
  | [], _ => return []
  | (mode, type) :: params, index => do
      if mode = .val ∧ isTriviallyCopyable type then
        let obj : Object := ⟨← alloc, type⟩
        return (index, obj) :: (← insertParams params (index + 1))
      else insertParams params (index + 1)

/-- The code of a body; parameters come after the argument for a receiver, and before the pointer through which
an object is returned. -/
def generateBody (self : Option (ParamRef × Ty)) (params : List (ParamRef × Ty)) (body : List (Stat AExpr)) :
    Gen BodyCode := do
  let _ ← enterScope
  let selfObj ← insertParams self.toList 0
  let objs ← insertParams params 1
  let nodes ← visitNodes movable body 0
  leaveScope
  return ⟨selfObj ++ objs, params.length + 1, nodes⟩

/-- `generateStat`. -/
def generateStat (self : Option (ParamRef × Ty)) (params : List (ParamRef × Ty)) (body : List (Stat AExpr)) : BodyCode :=
  ((generateBody movable self params (LowerExpressions.lowerNodes body)).run {}).1

end Visitor

end GenerateStat

end Stela.CodeGen
