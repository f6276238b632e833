import Stela.Semantic.CompareTypes
import Stela.Syntax.Stat

/-!
# Builtin operators and functions

`builtin symbols.cpp`: which operators, casts and builtin functions accept which types.
-/

namespace Stela.Syntax

namespace BtnType

def isBoolType (type : BtnType) : Bool :=
  type == .bool

def isBitwiseType : BtnType → Bool
  | .byte | .uint => true
  | _ => false

def isArithType : BtnType → Bool
  | .char | .real | .sint | .uint => true
  | _ => false

end BtnType

namespace BinOp

/-- `boolOp`. -/
def boolOp : BinOp → Bool
  | .bool_or | .bool_and => true
  | _ => false

def isBitwiseOp : BinOp → Bool
  | .bit_or | .bit_xor | .bit_and | .bit_shl | .bit_shr => true
  | _ => false

/-- `compOp`: the equality and order operators. -/
def compOp : BinOp → Bool
  | .eq | .ne | .lt | .le | .gt | .ge => true
  | _ => false

def isArithOp : BinOp → Bool
  | .add | .sub | .mul | .div | .mod => true
  | _ => false

def opName : BinOp → String
  | .bool_or => "||"
  | .bool_and => "&&"
  | .bit_or => "|"
  | .bit_xor => "^"
  | .bit_and => "&"
  | .bit_shl => "<<"
  | .bit_shr => ">>"
  | .eq => "=="
  | .ne => "!="
  | .lt => "<"
  | .le => "<="
  | .gt => ">"
  | .ge => ">="
  | .add => "+"
  | .sub => "-"
  | .mul => "*"
  | .div => "/"
  | .mod => "%"

end BinOp

namespace UnOp

def boolOp (oper : UnOp) : Bool :=
  oper == .bool_not

def opName : UnOp → String
  | .neg => "-"
  | .bool_not => "!"
  | .bit_not => "~"

/-- `validOp` on an operand. -/
def validOp : UnOp → BtnType → Bool
  | .neg => BtnType.isArithType
  | .bool_not => BtnType.isBoolType
  | .bit_not => BtnType.isBitwiseType

end UnOp

namespace AssignOp

def opName : AssignOp → String
  | .add => "+="
  | .sub => "-="
  | .mul => "*="
  | .div => "/="
  | .mod => "%="
  | .bit_or => "|="
  | .bit_xor => "^="
  | .bit_and => "&="
  | .bit_shl => "<<="
  | .bit_shr => ">>="

def validOp : AssignOp → BtnType → Bool
  | .add | .sub | .mul | .div | .mod => BtnType.isArithType
  | .bit_or | .bit_xor | .bit_and | .bit_shl | .bit_shr => BtnType.isBitwiseType

end AssignOp

def BtnFunc.name : BtnFunc → String
  | .capacity => "capacity"
  | .size => "size"
  | .data => "data"
  | .push_back => "push_back"
  | .append => "append"
  | .pop_back => "pop_back"
  | .resize => "resize"
  | .reserve => "reserve"

end Stela.Syntax

namespace Stela.Semantic

open Stela.Syntax

/-- `[char]`, the type of a string literal; `char` is named through the alias of the builtin module. -/
def stringType : Ty := .array (.named "char" 0 false (.btn .char))

/-- `checkType`. -/
def checkType (category : BtnType → Bool) (type : BtnType) : Option BtnType :=
  if category type then some type else none

/-- `validOp` on two operands: the type of the result. -/
def validBinOp (oper : BinOp) (lhs rhs : BtnType) : Option BtnType :=
  if lhs ≠ rhs then none
  else if oper.boolOp then checkType BtnType.isBoolType lhs
  else if oper.isBitwiseOp then checkType BtnType.isBitwiseType lhs
  else if oper.isArithOp then checkType BtnType.isArithType lhs
  else none

def validSubscript (index : BtnType) : Bool :=
  index == .sint || index == .uint

def validCast (dst src : BtnType) : Bool :=
  dst != .void && src != .void && dst != .opaq && src != .opaq

mutual

/-- `validComp`: no void value is compared. -/
def validComp : Ty → Check Unit
  | .btn .void => fatal "Cannot compare void expressions"
  | .btn _ | .func _ _ | .user _ _ _ _ => return
  | .array elem => validComp elem
  | .named _ _ _ type => validComp type
  | .struct fields => validCompFields fields

def validCompFields : List (String × Ty) → Check Unit
  | [] => return
  | (_, type) :: fields => do
      validComp type
      validCompFields fields

end

/-! ## Builtin functions -/

/-- `checkArgs`, on a call that has the wrong number of arguments. -/
def noMatch {α : Type} (f : BtnFunc) : Check α :=
  fatal s!"No matching call to builtin function \"{f.name}\""

/-- `checkArray`: the element type. -/
def checkArray (f : BtnFunc) (type : Ty) : Check Ty :=
  match type.concreteType with
  | .array elem => return elem
  | _ => fatal s!"Expected [T] in call to builtin function \"{f.name}\" but got {typeDesc type}"

def checkUint (f : BtnFunc) (type : Ty) : Check Unit :=
  require (compareTypes (.btn .uint) type)
    s!"Expected uint in call to builtin function \"{f.name}\" but got {typeDesc type}"

def checkMutRef (f : BtnFunc) (etype : ExprType) : Check Unit :=
  require (callMut .var etype.mut_) s!"No matching call to builtin function \"{f.name}\""

/-- `capacityFn`, `sizeFn` and `dataFn`. -/
def queryFn (f : BtnFunc) (ret : BtnType) (args : List ExprType) : Check Ty :=
  match args with
  | [arr] => do
      let _ ← checkArray f arr.type
      return .btn ret
  | _ => noMatch f

def pushBackFn (args : List ExprType) : Check Ty :=
  match args with
  | [arr, elem] => do
      let elemType ← checkArray .push_back arr.type
      checkMutRef .push_back arr
      if compareTypes elem.type elemType then return .btn .void
      else fatal s!"Expected T for second argument to builtin function \"push_back\" but got {typeDesc elem.type}"
  | _ => noMatch .push_back

def appendFn (args : List ExprType) : Check Ty :=
  match args with
  | [arr, other] => do
      let elemType ← checkArray .append arr.type
      checkMutRef .append arr
      if compareTypes other.type (.array elemType) then return .btn .void
      else fatal s!"Expected [T] for second argument to builtin function \"append\" but got {typeDesc other.type}"
  | _ => noMatch .append

def popBackFn (args : List ExprType) : Check Ty :=
  match args with
  | [arr] => do
      let _ ← checkArray .pop_back arr.type
      checkMutRef .pop_back arr
      return .btn .void
  | _ => noMatch .pop_back

/-- `resizeFn` and `reserveFn`. -/
def sizedFn (f : BtnFunc) (args : List ExprType) : Check Ty :=
  match args with
  | [arr, size] => do
      let _ ← checkArray f arr.type
      checkMutRef f arr
      checkUint f size.type
      return .btn .void
  | _ => noMatch f

/-- `callBtnFunc`. -/
def callBtnFunc (f : BtnFunc) (args : List ExprType) : Check Ty :=
  match f with
  | .capacity => queryFn .capacity .uint args
  | .size => queryFn .size .uint args
  | .data => queryFn .data .opaq args
  | .push_back => pushBackFn args
  | .append => appendFn args
  | .pop_back => popBackFn args
  | .resize => sizedFn .resize args
  | .reserve => sizedFn .reserve args

end Stela.Semantic
