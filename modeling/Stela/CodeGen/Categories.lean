import Stela.Syntax.Expr

/-!
# Categories of types and values

`categories.cpp`, and the tests on types of `generate type.cpp`.
-/

namespace Stela.CodeGen

open Stela.Syntax

/-- Types by how their objects are passed and copied. -/
inductive TypeCat where
  | trivially_copyable | trivially_relocatable | nontrivial
  deriving DecidableEq, Repr

/-- Numbers by the instructions that are for them. -/
inductive ArithCat where
  | signed_int | unsigned_int | floating_point
  deriving DecidableEq, Repr

/-- Values by where they live: in an object, in an object about to be destroyed, or nowhere yet. -/
inductive ValueCat where
  | lvalue | xvalue | prvalue
  deriving DecidableEq, Repr

def glvalue (cat : ValueCat) : Bool :=
  cat == .lvalue || cat == .xvalue

/-- `classifyType`. -/
def classifyType : Ty → TypeCat
  | .btn _ => .trivially_copyable
  | .array _ | .func _ _ => .trivially_relocatable
  | .named _ _ _ type => classifyType type
  | .struct _ | .user _ _ _ _ => .nontrivial

/-- `classifyArith`; the other types are unreachable. -/
def classifyArith : BtnType → Option ArithCat
  | .char | .sint => some .signed_int
  | .bool | .byte | .uint => some .unsigned_int
  | .real => some .floating_point
  | .void | .opaq => none

def isTriviallyCopyable (type : Ty) : Bool :=
  classifyType type == .trivially_copyable

/-- `isBoolType`; strong aliases are followed as well. -/
def isBoolType (type : Ty) : Bool :=
  match type.concreteType with
  | .btn .bool => true
  | _ => false

def isBoolCast (dst src : Ty) : Bool :=
  isBoolType dst && !isBoolType src

def isBtnType (type : Ty) : Bool :=
  match type.concreteType with
  | .btn _ => true
  | _ => false

/-- The category of a member or an element, from that of the object it is part of. -/
def partCat : ValueCat → ValueCat
  | .prvalue => .xvalue
  | cat => cat

/-- `classifyValue`. -/
def classifyValue : AExpr → ValueCat
  | .member _ object _ => partCat (classifyValue object)
  | .subscript _ object _ => partCat (classifyValue object)
  | .ident _ _ _ => .lvalue
  | .ternary _ _ troo fols =>
      if classifyValue troo = .lvalue ∧ classifyValue fols = .lvalue then .lvalue else .prvalue
  | .make info expr cast =>
      if cast then .prvalue
      else if isBoolCast info.exprType expr.exprType then .prvalue
      else classifyValue expr
  | _ => .prvalue

/-- `rootLvalue`: the variable that an expression is, or is a field of. -/
def rootLvalue : AExpr → Option (ℕ × Option ℕ)
  | .member _ object _ => rootLvalue object
  | .ident _ definition captureIndex => some (definition, captureIndex)
  | _ => none

end Stela.CodeGen
