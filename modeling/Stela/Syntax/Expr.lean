import Stela.Syntax.Types

/-!
# Expressions

The expression nodes of `ast.hpp`, before and after semantic analysis. Names are resolved: an
identifier, and a member that may name a method, carries the symbols that its name is bound to in the
nearest scope that binds it. In an expression that has been analysed every node carries the fields
that the analysis sets.
-/

namespace Stela.Syntax

/-- `ast::BinOp`. -/
inductive BinOp where
  | bool_or | bool_and
  | bit_or | bit_xor | bit_and | bit_shl | bit_shr
  | eq | ne | lt | le | gt | ge
  | add | sub | mul | div | mod
  deriving DecidableEq, Repr

/-- `ast::UnOp`. -/
inductive UnOp where
  | neg | bool_not | bit_not
  deriving DecidableEq, Repr

/-- `ast::BtnFuncEnum`. -/
inductive BtnFunc where
  | capacity | size | data | push_back | append | pop_back | resize | reserve
  deriving DecidableEq, Repr

/-- `NumberVariant`; a real is given by its bits. -/
inductive Number where
  | byte (value : UInt8)
  | char (value : Int8)
  | real (bits : UInt32)
  | sint (value : Int32)
  | uint (value : UInt32)
  deriving DecidableEq

/-- `sym::ValueMut`. -/
inductive ValueMut where
  | let_ | var
  deriving DecidableEq, Repr

/-- `sym::ValueRef`. -/
inductive ValueRef where
  | val | ref
  deriving DecidableEq, Repr

/-- `sym::ExprType`. -/
structure ExprType where
  type : Ty
  mut_ : ValueMut
  ref : ValueRef

/-- `sym::Func`: the symbol of a function or of an external function. The first parameter of the
source, the receiver, is kept apart; it is null when the function is not a method. `ret` is null until
a return type is declared or inferred; `nodeRet`, the field of the node, is null until the body of a
function without declared return type has been left. -/
structure FuncSym where
  node : ℕ
  external : Bool := false
  receiver : Option (ParamRef × Ty) := none
  params : List (ParamRef × Ty)
  ret : Option Ty
  nodeRet : Option Ty := ret

/-- A symbol that a name is bound to. For an object, `captureIndex` is what `lambdaCapture` answers
at the place of the name. -/
inductive Symbol where
  | object (definition : ℕ) (etype : ExprType) (captureIndex : Option ℕ)
  | func (func : FuncSym)
  | btnFunc (func : BtnFunc)
  | typeAlias

/-- Expressions as parsed. A lambda carries the parameters and the return type of its symbol; its body
is listed among the bodies of the program. -/
inductive Expr where
  | binary (lhs : Expr) (oper : BinOp) (rhs : Expr)
  | unary (oper : UnOp) (expr : Expr)
  | call (func : Expr) (args : List Expr)
  | member (object : Expr) (name : String) (symbols : List Symbol)
  | subscript (object index : Expr)
  | ident (name : String) (symbols : List Symbol)
  | ternary (cond troo fols : Expr)
  | make (type : Ty) (expr : Expr)
  | string (value : List UInt8)
  | char (value : List UInt8)
  | number (value : Number)
  | bool (value : Bool)
  | array (exprs : List Expr)
  | initList (exprs : List Expr)
  | lambda (lam : ℕ) (params : List (ParamRef × Ty)) (ret : Ty)

/-- The two types of every expression node. -/
structure Info where
  expectedType : Option Ty := none
  exprType : Ty

/-- Expressions after semantic analysis. Calls are split by what `FuncCall::definition` points to; the
callee of a closure call is an expression, a method call keeps the object of its member. -/
inductive AExpr where
  | binary (info : Info) (lhs : AExpr) (oper : BinOp) (rhs : AExpr)
  | unary (info : Info) (oper : UnOp) (expr : AExpr)
  | callPtr (info : Info) (func : AExpr) (args : List AExpr)
  | callFunc (info : Info) (func : FuncSym) (args : List AExpr)
  | callMethod (info : Info) (func : FuncSym) (self : AExpr) (args : List AExpr)
  | callBtn (info : Info) (func : BtnFunc) (args : List AExpr)
  | member (info : Info) (object : AExpr) (index : ℕ)
  | subscript (info : Info) (object index : AExpr)
  | ident (info : Info) (definition : ℕ) (captureIndex : Option ℕ)
  | funcRef (info : Info) (func : FuncSym)
  | ternary (info : Info) (cond troo fols : AExpr)
  | make (info : Info) (expr : AExpr) (cast : Bool)
  | string (info : Info) (value : List UInt8)
  | char (info : Info) (value : UInt8)
  | number (info : Info) (value : Number)
  | bool (info : Info) (value : Bool)
  | array (info : Info) (exprs : List AExpr)
  | initList (info : Info) (exprs : List AExpr)
  | lambda (info : Info) (lam : ℕ)

namespace AExpr

def info : AExpr → Info
  | binary info _ _ _ | unary info _ _ | callPtr info _ _ | callFunc info _ _ | callMethod info _ _ _
  | callBtn info _ _ | member info _ _ | subscript info _ _ | ident info _ _ | funcRef info _
  | ternary info _ _ _ | make info _ _ | string info _ | char info _ | number info _ | bool info _
  | array info _ | initList info _ | lambda info _ => info

def exprType (e : AExpr) : Ty :=
  e.info.exprType

def expectedType (e : AExpr) : Option Ty :=
  e.info.expectedType

/-- Set `expectedType`. -/
def setExpected (type : Option Ty) : AExpr → AExpr
  | binary info lhs oper rhs => binary { info with expectedType := type } lhs oper rhs
  | unary info oper expr => unary { info with expectedType := type } oper expr
  | callPtr info func args => callPtr { info with expectedType := type } func args
  | callFunc info func args => callFunc { info with expectedType := type } func args
  | callMethod info func self args => callMethod { info with expectedType := type } func self args
  | callBtn info func args => callBtn { info with expectedType := type } func args
  | member info object index => member { info with expectedType := type } object index
  | subscript info object index => subscript { info with expectedType := type } object index
  | ident info definition captureIndex =>
      ident { info with expectedType := type } definition captureIndex
  | funcRef info func => funcRef { info with expectedType := type } func
  | ternary info cond troo fols => ternary { info with expectedType := type } cond troo fols
  | make info expr cast => make { info with expectedType := type } expr cast
  | string info value => string { info with expectedType := type } value
  | char info value => char { info with expectedType := type } value
  | number info value => number { info with expectedType := type } value
  | bool info value => bool { info with expectedType := type } value
  | array info exprs => array { info with expectedType := type } exprs
  | initList info exprs => initList { info with expectedType := type } exprs
  | lambda info lam => lambda { info with expectedType := type } lam

@[simp] theorem exprType_setExpected (type : Option Ty) (e : AExpr) :
    (e.setExpected type).exprType = e.exprType := by
  cases e <;> rfl

@[simp] theorem expectedType_setExpected (type : Option Ty) (e : AExpr) :
    (e.setExpected type).expectedType = type := by
  cases e <;> rfl

end AExpr

end Stela.Syntax
