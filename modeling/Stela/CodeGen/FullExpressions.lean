import Stela.CodeGen.GenerateExpr
import Stela.CodeGen.LowerExpressions

/-!
# Full expressions

The expressions that the statement generator (`generate stat.cpp`) and the generator of globals
(`generate decl.cpp`) evaluate, each with the way it is evaluated.
-/

namespace Stela.CodeGen

open Stela.Syntax GenerateExpr

/-- What a statement needs an expression for. -/
inductive Use where
  /-- `genCondBr`. -/
  | cond
  /-- `insertVar`, with the type of the variable. -/
  | init (type : Ty)
  /-- `createGlobalVar`. -/
  | global
  /-- The value of a switch. -/
  | swich
  /-- `equalTo`. -/
  | case
  | dst
  | src
  | call
  | ret

/-- `createReturnObject`. `movable` tells whether the object of a definition belongs to the function
(`getObject` and `canMoveReturn`). -/
def createReturnObject (movable : ℕ → Bool) (expr : AExpr) : Gen Code := do
  if isTriviallyCopyable expr.exprType then
    let code ← generateExpr expr false
    return if glvalue (classifyValue expr) then .load code else code
  else if (rootLvalue expr).any fun root ↦ movable root.1 then
    return .construct expr.exprType .xvalue (← generateExpr expr false)
  else generateExpr expr true

/-- The code that evaluates an expression for its use. -/
def Use.generate (movable : ℕ → Bool) (use : Use) (expr : AExpr) : Gen Code :=
  match use with
  | .cond => generateBoolExpr expr
  | .init type =>
      if isBoolCast type expr.exprType then Code.store <$> generateBoolExpr expr
      else generateExpr expr true
  | .global | .swich | .case => generateExpr expr true
  | .dst | .src | .call => generateExpr expr false
  | .ret => createReturnObject movable expr

/-- The expressions of an assignment that has been lowered. -/
def asgnUses : Asgn AExpr → List (Use × AExpr)
  | .assign dst src => [(.dst, dst), (.src, src)]
  | .declAssign _ expr => [(.init expr.exprType, expr)]
  | .callAssign call => [(.call, call)]
  | .compAssign _ _ _ | .incrDecr _ _ => []

def optAsgnUses : Option (Asgn AExpr) → List (Use × AExpr)
  | none => []
  | some asgn => asgnUses asgn

/-- The expressions of a local declaration. -/
def declUses : Decl AExpr → List (Use × AExpr)
  | .var _ type (some expr) => [(.init (type.getD expr.exprType), expr)]
  | .let_ _ type expr => [(.init (type.getD expr.exprType), expr)]
  | .var _ _ none | .typeAlias _ _ _ => []

def globalUses : Decl AExpr → List (Use × AExpr)
  | .var _ _ (some expr) | .let_ _ _ expr => [(.global, expr)]
  | .var _ _ none | .typeAlias _ _ _ => []

def optUse (use : Use) : Option AExpr → List (Use × AExpr)
  | none => []
  | some expr => [(use, expr)]

mutual

/-- The full expressions of a statement, in source order. -/
def statUses : Stat AExpr → List (Use × AExpr)
  | .block nodes => nodesUses nodes
  | .fi cond body none => (.cond, cond) :: statUses body
  | .fi cond body (some elseBody) => (.cond, cond) :: (statUses body ++ statUses elseBody)
  | .swich expr cases _ => (.swich, expr) :: casesUses cases
  | .terminate | .brake | .continu => []
  | .ret expr => optUse .ret expr
  | .wile cond body => (.cond, cond) :: statUses body
  | .four init cond incr body =>
      optAsgnUses init ++ (.cond, cond) :: (optAsgnUses incr ++ statUses body)
  | .decl decl => declUses decl
  | .asgn asgn => asgnUses asgn

def nodesUses : List (Stat AExpr) → List (Use × AExpr)
  | [] => []
  | node :: nodes => statUses node ++ nodesUses nodes

def casesUses : List (SwitchCase AExpr) → List (Use × AExpr)
  | [] => []
  | .mk expr body :: cases => optUse .case expr ++ (statUses body ++ casesUses cases)

end

end Stela.CodeGen
