import Stela.Semantic.InferType
import Stela.Semantic.CheckMissingReturn

/-!
# Semantic analysis of statements and declarations

`traverse.cpp`. The return type of the function or lambda being visited (`sym::Func::ret`, null until it
is declared or inferred) is threaded through its statements; `flow` tells whether the nearest scope
that is not a block is that of a loop or of a switch case. In an analysed declaration `type` is the type
of the symbol.
-/

namespace Stela.Semantic.Traverse

open Stela.Syntax InferType

/-! ## Assignments and declarations -/

/-- `objectType`, for an object that is initialised. -/
def initType (type : Option Ty) (expr : Expr) : Check (Ty × AExpr) := do
  validateRet type
  let (expr, etype) ← getExprType expr type
  require (!compareTypes etype.type (.btn .void)) "Cannot initialize variable with void expression"
  return (type.getD etype.type, expr)

/-- `objectType`, for an object without initialiser. -/
def defaultType : Option Ty → Check Ty
  | some type => do
      validateType type
      return type
  | none => fatal "Cannot infer type of variable"

def visitDecl : Decl Expr → Check (Decl AExpr)
  | .var name type none => do
      let type ← defaultType type
      return .var name (some type) none
  | .var name type (some expr) => do
      let (type, expr) ← initType type expr
      return .var name (some type) (some expr)
  | .let_ name type expr => do
      let (type, expr) ← initType type expr
      return .let_ name (some type) expr
  | .typeAlias name type strong => do
      validateType type
      return .typeAlias name type strong

/-- The builtin type of an operand of a compound assignment or an increment. -/
def builtinOperand (type : Ty) (message : String) : Check BtnType :=
  match type.concreteType with
  | .btn builtin => return builtin
  | _ => fatal message

def incrName (incr : Bool) : String :=
  if incr then "++" else "--"

def visitAsgn : Asgn Expr → Check (Asgn AExpr)
  | .compAssign dst oper src => do
      let message := s!"Invalid operands to compound assignment operator {oper.opName}"
      let (dst, dtype) ← getExprType dst none
      let (src, stype) ← getExprType src (some dtype.type)
      let builtinLeft ← builtinOperand dtype.type message
      let _ ← builtinOperand stype.type message
      require (oper.validOp builtinLeft) message
      require (dtype.mut_ == .var) "Left side of compound assignment must be mutable"
      return .compAssign dst oper src
  | .incrDecr expr incr => do
      let message := s!"Invalid operand to unary operator {incrName incr}"
      let (expr, etype) ← getExprType expr none
      require (etype.mut_ == .var) "Operand to mutating unary operator must be mutable"
      let builtin ← builtinOperand etype.type message
      require builtin.isArithType message
      return .incrDecr expr incr
  | .assign dst src => do
      let (dst, dtype) ← getExprType dst none
      let (src, _) ← getExprType src (some dtype.type)
      require (dtype.mut_ == .var) "Left side of assignment must be mutable"
      return .assign dst src
  | .declAssign name expr => do
      let (_, expr) ← initType none expr
      return .declAssign name expr
  | .callAssign call => do
      let (call, etype) ← getExprType call none
      require (compareTypes etype.type (.btn .void)) "Discarded return value"
      return .callAssign call

def visitOptAsgn : Option (Asgn Expr) → Check (Option (Asgn AExpr))
  | none => return none
  | some asgn => some <$> visitAsgn asgn

/-! ## Statements -/

def visitCond (expr : Expr) : Check AExpr :=
  Prod.fst <$> getExprType expr (some boolType)

/-- The expression of a return statement: it fixes the return type, or has to match it. -/
def visitReturn (expr : Option Expr) (retType : Option Ty) : Check (Option AExpr × Ty) :=
  match expr, retType with
  | some expr, some retType => do
      let (expr, _) ← getExprType expr (some retType)
      return (some expr, retType)
  | some expr, none => do
      let (expr, etype) ← getExprType expr none
      return (some expr, etype.type)
  | none, some retType => do
      require (compareTypes retType (.btn .void)) s!"Expected {typeDesc retType} but got void"
      return (none, retType)
  | none, none => return (none, .btn .void)

def checkFlowKeyword (keyword : String) (flow : Bool) : Check Unit :=
  require flow s!"Invalid usage of keyword \"{keyword}\" outside of loop or switch"

mutual

def visit : Stat Expr → Bool → Option Ty → Check (Stat AExpr × Option Ty)
  | .block nodes, flow, retType => do
      let (nodes, retType) ← visitNodes nodes flow retType
      return (.block nodes, retType)
  | .fi cond body none, flow, retType => do
      let cond ← visitCond cond
      let (body, retType) ← visit body flow retType
      return (.fi cond body none, retType)
  | .fi cond body (some elseBody), flow, retType => do
      let cond ← visitCond cond
      let (body, retType) ← visit body flow retType
      let (elseBody, retType) ← visit elseBody flow retType
      return (.fi cond body (some elseBody), retType)
  | .swich expr cases alwaysReturns, _, retType => do
      let (expr, etype) ← getExprType expr none
      let (cases, retType) ← visitCases cases etype.type false retType
      return (.swich expr cases alwaysReturns, retType)
  | .terminate, _, retType => return (.terminate, retType)
  | .brake, flow, retType => do
      checkFlowKeyword "break" flow
      return (.brake, retType)
  | .continu, flow, retType => do
      checkFlowKeyword "continue" flow
      return (.continu, retType)
  | .ret expr, _, retType => do
      let (expr, retType) ← visitReturn expr retType
      return (.ret expr, retType)
  | .wile cond body, _, retType => do
      let cond ← visitCond cond
      let (body, retType) ← visit body true retType
      return (.wile cond body, retType)
  | .four init cond incr body, _, retType => do
      let init ← visitOptAsgn init
      let cond ← visitCond cond
      let incr ← visitOptAsgn incr
      let (body, retType) ← visit body true retType
      return (.four init cond incr body, retType)
  | .decl decl, _, retType => do
      let decl ← visitDecl decl
      return (.decl decl, retType)
  | .asgn asgn, _, retType => do
      let asgn ← visitAsgn asgn
      return (.asgn asgn, retType)

def visitNodes : List (Stat Expr) → Bool → Option Ty → Check (List (Stat AExpr) × Option Ty)
  | [], _, retType => return ([], retType)
  | node :: nodes, flow, retType => do
      let (node, retType) ← visit node flow retType
      let (nodes, retType) ← visitNodes nodes flow retType
      return (node :: nodes, retType)

/-- The cases of a switch on a value of the given type. -/
def visitCases : List (SwitchCase Expr) → Ty → Bool → Option Ty →
    Check (List (SwitchCase AExpr) × Option Ty)
  | [], _, _, retType => return ([], retType)
  | .mk (some expr) body :: cases, type, foundDef, retType => do
      let (expr, _) ← getExprType expr (some type)
      let (body, retType) ← visit body true retType
      let (cases, retType) ← visitCases cases type foundDef retType
      return (.mk (some expr) body :: cases, retType)
  | .mk none body :: cases, type, foundDef, retType => do
      require (!foundDef) "Multiple default cases found in switch"
      let (body, retType) ← visit body true retType
      let (cases, retType) ← visitCases cases type true retType
      return (.mk none body :: cases, retType)

end

/-! ## Programs -/

/-- A function or lambda body with its parameters and its declared return type. -/
structure Body (ε : Type) where
  params : List (ParamRef × Ty)
  ret : Option Ty
  nodes : List (Stat ε)

/-- The code of a program: the initialisers of its globals, and the bodies of its functions and
lambdas. -/
structure Program (ε : Type) where
  globals : List (Decl ε)
  bodies : List (Body ε)

/-- `visit(ast::Func &)`, and the part of `visit(ast::Lambda &)` that concerns the body. -/
def visitBody (body : Body Expr) : Check (Body AExpr) := do
  let (nodes, retType) ← visitNodes body.nodes false body.ret
  let ret := retType.getD (.btn .void)
  match CheckMissingReturn.checkMissingRet nodes ret with
  | .error e => fatal e.message
  | .ok nodes => return ⟨body.params, some ret, nodes⟩

def traverse (program : Program Expr) : Check (Program AExpr) := do
  let globals ← program.globals.mapM visitDecl
  let bodies ← program.bodies.mapM visitBody
  return ⟨globals, bodies⟩

end Stela.Semantic.Traverse
