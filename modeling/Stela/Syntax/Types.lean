import Mathlib.Data.List.Basic

/-!
# Types of the language

The type nodes of `ast.hpp` after name resolution. A named type carries the alias it resolved
to (`NamedType::definition`), together with the identity of the declaration, so that following
aliases is a structural recursion.
-/

namespace Stela.Syntax

/-- Builtin types, in the order of `ast::BtnTypeEnum`. -/
inductive BtnType where
  | void | opaq | bool | byte | char | real | sint | uint
  deriving DecidableEq, Repr

/-- `ast::ParamRef`: a parameter is passed by value or by reference. -/
inductive ParamRef where
  | val | ref
  deriving DecidableEq, Repr

/-- `ast::UserCtor`: the address (0 is none, 1 is trivial) and the symbol of a native function. -/
structure UserCtor where
  addr : ℕ := 0
  name : String := ""
  deriving DecidableEq, Repr

namespace UserCtor

def none : ℕ := 0
def trivial : ℕ := 1

end UserCtor

/-- The native functions bound to an `ast::UserType`. -/
structure UserCtors where
  dtor : UserCtor := {}
  defCtor : UserCtor := {}
  copCtor : UserCtor := {}
  copAsgn : UserCtor := {}
  movCtor : UserCtor := {}
  movAsgn : UserCtor := {}
  eq : UserCtor := {}
  lt : UserCtor := {}
  boolConv : UserCtor := {}
  deriving DecidableEq, Repr

/-- Types. In `named`, `decl` identifies the declaration of the alias. The return type of a function
type is null as long as it is being inferred. -/
inductive Ty where
  | btn (value : BtnType)
  | array (elem : Ty)
  | func (params : List (ParamRef × Ty)) (ret : Option Ty)
  | named (name : String) (decl : ℕ) (strong : Bool) (type : Ty)
  | struct (fields : List (String × Ty))
  | user (fields : List (String × Ty × ℕ)) (size align : ℕ) (ctors : UserCtors)

namespace Ty

/-- `lookupConcreteType` and `concreteType`: follow every alias. -/
def concreteType : Ty → Ty
  | named _ _ _ type => concreteType type
  | type => type

/-- A function that does not tell an alias from its type takes the same value on the concrete type. -/
theorem map_concreteType {α : Type} {f : Ty → α}
    (hnamed : ∀ name decl strong type, f (named name decl strong type) = f type) :
    (type : Ty) → f type.concreteType = f type
  | btn _ | array _ | func _ _ | struct _ | user _ _ _ _ => rfl
  | named name decl strong type => (map_concreteType hnamed type).trans (hnamed name decl strong type).symm

theorem concreteType_concreteType : (type : Ty) → type.concreteType.concreteType = type.concreteType :=
  map_concreteType fun _ _ _ _ ↦ rfl

/-- `lookupStrongType`: follow weak aliases only. -/
def lookupStrongType : Ty → Ty
  | named name decl true type => named name decl true type
  | named _ _ false type => lookupStrongType type
  | type => type

/-- The test made by `checkMissingRet` on the return type. -/
def isVoid (ret : Ty) : Bool :=
  match concreteType ret with
  | btn .void => true
  | _ => false

end Ty

end Stela.Syntax
