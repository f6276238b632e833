import Stela.Syntax.Types

/-!
# Statements

The statement nodes of `ast.hpp`, generic in the type `ε` of expressions. Constructor names that
would clash with keywords are spelled as the visitors of the source spell their parameters.
-/

namespace Stela.Syntax

/-- `ast::AssignOp`. -/
inductive AssignOp where
  | add | sub | mul | div | mod | bit_or | bit_xor | bit_and | bit_shl | bit_shr
  deriving DecidableEq, Repr

/-- The assignments: compound, increment, plain, `:=` and discarded call. -/
inductive Asgn (ε : Type) where
  | compAssign (dst : ε) (oper : AssignOp) (src : ε)
  | incrDecr (expr : ε) (incr : Bool)
  | assign (dst src : ε)
  | declAssign (name : String) (expr : ε)
  | callAssign (call : ε)
  deriving DecidableEq, Repr

/-- The declarations accepted inside a function body (functions only appear at global scope). -/
inductive Decl (ε : Type) where
  | var (name : String) (type : Option Ty) (expr : Option ε)
  | let_ (name : String) (type : Option Ty) (expr : ε)
  | typeAlias (name : String) (type : Ty) (strong : Bool)

mutual

/-- Statements. `terminate` is never parsed: the missing-return check inserts it. -/
inductive Stat (ε : Type) where
  | block (nodes : List (Stat ε))
  | fi (cond : ε) (body : Stat ε) (elseBody : Option (Stat ε))
  | swich (expr : ε) (cases : List (SwitchCase ε)) (alwaysReturns : Bool)
  | terminate
  | brake
  | continu
  | ret (expr : Option ε)
  | wile (cond : ε) (body : Stat ε)
  | four (init : Option (Asgn ε)) (cond : ε) (incr : Option (Asgn ε)) (body : Stat ε)
  | decl (decl : Decl ε)
  | asgn (asgn : Asgn ε)

/-- One case of a switch; the default case has no expression. -/
inductive SwitchCase (ε : Type) where
  | mk (expr : Option ε) (body : Stat ε)

end

namespace SwitchCase

def expr {ε : Type} : SwitchCase ε → Option ε
  | mk expr _ => expr

def body {ε : Type} : SwitchCase ε → Stat ε
  | mk _ body => body

end SwitchCase

/-- Whether some case is the default. -/
def hasDefault {ε : Type} (cases : List (SwitchCase ε)) : Bool :=
  cases.any fun c ↦ c.expr.isNone

mutual

/-- The statement and every statement inside it, in source order. -/
def subStats {ε : Type} : Stat ε → List (Stat ε)
  | .block nodes => .block nodes :: subNodes nodes
  | .fi cond body none => .fi cond body none :: subStats body
  | .fi cond body (some elseBody) => .fi cond body (some elseBody) :: (subStats body ++ subStats elseBody)
  | .swich expr cases alwaysReturns => .swich expr cases alwaysReturns :: subCases cases
  | .wile cond body => .wile cond body :: subStats body
  | .four init cond incr body => .four init cond incr body :: subStats body
  | s => [s]

def subNodes {ε : Type} : List (Stat ε) → List (Stat ε)
  | [] => []
  | node :: nodes => subStats node ++ subNodes nodes

def subCases {ε : Type} : List (SwitchCase ε) → List (Stat ε)
  | [] => []
  | .mk _ body :: cases => subStats body ++ subCases cases

end

end Stela.Syntax
