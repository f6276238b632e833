import Stela.Syntax.Expr
import Stela.Syntax.Stat

/-!
# Lowering of assignments

`lower expressions.cpp`: compound assignments and increments become plain assignments.
-/

namespace Stela.CodeGen.LowerExpressions

open Stela.Syntax

/-- `convert`. -/
def convert : AssignOp → BinOp
  | .add => .add
  | .sub => .sub
  | .mul => .mul
  | .div => .div
  | .mod => .mod
  | .bit_or => .bit_or
  | .bit_xor => .bit_xor
  | .bit_and => .bit_and
  | .bit_shl => .bit_shl
  | .bit_shr => .bit_shr

/-- The literal of `getOne`; the other types are `UNREACHABLE`. -/
def getOne : BtnType → Number
  | .char => .char 1
  | .real => .real 0x3f800000
  | .uint => .uint 1
  | _ => .sint 1

def builtinOf (type : Ty) : BtnType :=
  match type.concreteType with
  | .btn value => value
  | _ => .void

/-- The new binary expression has the type of the destination. -/
def lowerAsgn : Asgn AExpr → Asgn AExpr
  | .compAssign dst oper src => .assign dst (.binary ⟨none, dst.exprType⟩ dst (convert oper) src)
  | .incrDecr expr incr =>
      .assign expr (.binary ⟨none, expr.exprType⟩ expr (if incr then .add else .sub)
        (.number ⟨none, expr.exprType⟩ (getOne (builtinOf expr.exprType))))
  | asgn => asgn

mutual

def lower : Stat AExpr → Stat AExpr
  | .block nodes => .block (lowerNodes nodes)
  | .fi cond body none => .fi cond (lower body) none
  | .fi cond body (some elseBody) => .fi cond (lower body) (some (lower elseBody))
  | .swich expr cases alwaysReturns => .swich expr (lowerCases cases) alwaysReturns
  | .wile cond body => .wile cond (lower body)
  | .four init cond incr body => .four (init.map lowerAsgn) cond (incr.map lowerAsgn) (lower body)
  | .asgn asgn => .asgn (lowerAsgn asgn)
  | stat => stat

/-- `lowerExpressions` on the statements of a body. -/
def lowerNodes : List (Stat AExpr) → List (Stat AExpr)
  | [] => []
  | node :: nodes => lower node :: lowerNodes nodes

def lowerCases : List (SwitchCase AExpr) → List (SwitchCase AExpr)
  | [] => []
  | .mk expr body :: cases => .mk expr (lower body) :: lowerCases cases

end

end Stela.CodeGen.LowerExpressions
