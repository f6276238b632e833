import Stela.Syntax.Expr
import Mathlib.Data.List.Nodup

/-!
# Comparing and validating types

`compare types.cpp`, `compare params args.cpp` and the descriptions of types used in messages. Two types
are compared after weak aliases are stripped from both; a strong alias is only equal to a strong alias
of the same name.
-/

namespace Stela.Semantic

open Stela.Syntax

/-- How semantic analysis stops: with a message, or by breaking an assertion. -/
inductive Stop where
  | fatal (message : String)
  | assertion
  | unreachable
  deriving DecidableEq, Repr

abbrev Check := Except Stop

def fatal {α : Type} (message : String) : Check α :=
  .error (.fatal message)

/-- Log a fatal error unless the condition holds. -/
def require (c : Bool) (message : String) : Check Unit :=
  if c then return else fatal message

theorem require_eq_ok {c : Bool} {message : String} {u : Unit} : require c message = .ok u ↔ c = true := by
  cases c <;> simp [require, fatal, pure, Except.pure]

mutual

/-- `compareTypes`. -/
def compareTypes : Ty → Ty → Bool
  | .named _ _ false type, b => compareTypes type b
  | .named name _ true _, b =>
      match b.lookupStrongType with
      | .named name' _ _ _ => name == name'
      | _ => false
  | .btn value, b =>
      match b.lookupStrongType with
      | .btn value' => value == value'
      | _ => false
  | .array elem, b =>
      match b.lookupStrongType with
      | .array elem' => compareTypes elem elem'
      | _ => false
  | .func params ret, b =>
      match b.lookupStrongType with
      | .func params' ret' => compareRets ret ret' && compareParams params params'
      | _ => false
  | .struct fields, b =>
      match b.lookupStrongType with
      | .struct fields' => compareFields fields fields'
      | _ => false
  | .user fields size align _, b =>
      match b.lookupStrongType with
      | .user fields' size' align' _ =>
          size == size' && align == align' && compareUserFields fields fields'
      | _ => false
termination_by structural a => a

/-- `compareTypes` on return types, which may be null. -/
def compareRets : Option Ty → Option Ty → Bool
  | some a, some b => compareTypes a b
  | none, none => true
  | _, _ => false
termination_by structural a => a

def compareParams : List (ParamRef × Ty) → List (ParamRef × Ty) → Bool
  | (r, type) :: params, (r', type') :: params' =>
      r == r' && compareTypes type type' && compareParams params params'
  | [], [] => true
  | _, _ => false
termination_by structural a => a

def compareFields : List (String × Ty) → List (String × Ty) → Bool
  | (name, type) :: fields, (name', type') :: fields' =>
      name == name' && compareTypes type type' && compareFields fields fields'
  | [], [] => true
  | _, _ => false
termination_by structural a => a

def compareUserFields : List (String × Ty × ℕ) → List (String × Ty × ℕ) → Bool
  | (name, type, offset) :: fields, (name', type', offset') :: fields' =>
      offset == offset' && name == name' && compareTypes type type' && compareUserFields fields fields'
  | [], [] => true
  | _, _ => false
termination_by structural a => a

end

/-! ## Descriptions -/

def typeName : BtnType → String
  | .void => "void"
  | .opaq => "opaq"
  | .bool => "bool"
  | .byte => "byte"
  | .char => "char"
  | .real => "real"
  | .sint => "sint"
  | .uint => "uint"

mutual

/-- `typeDesc`: the type as it is formatted on one line. -/
def typeDesc : Ty → String
  | .btn value => typeName value
  | .array elem => "[" ++ typeDesc elem ++ "]"
  | .func params ret => "func (" ++ paramsDesc params ++ ")" ++ retDesc ret
  | .named name _ _ _ => name
  | .struct [] => "struct \x7b\x7d"
  | .struct fields => "struct \x7b " ++ fieldsDesc fields ++ "\x7d"
  | .user _ _ _ _ => ""

def paramsDesc : List (ParamRef × Ty) → String
  | [] => ""
  | [(r, type)] => (if r = .ref then "ref " else "") ++ typeDesc type
  | (r, type) :: params => (if r = .ref then "ref " else "") ++ typeDesc type ++ ", " ++ paramsDesc params

def retDesc : Option Ty → String
  | none => ""
  | some ret => " -> " ++ typeDesc ret

def fieldsDesc : List (String × Ty) → String
  | [] => ""
  | (name, type) :: fields => name ++ ": " ++ typeDesc type ++ "; " ++ fieldsDesc fields

end

/-! ## Validation -/

/-- The first name that stands twice when the names are sorted. -/
def duplicateName (names : List String) : Option String :=
  (names.filter fun name ↦ 1 < names.count name).foldl
    (fun first name ↦ match first with
      | none => some name
      | some best => some (if name < best then name else best)) none

theorem foldl_eq_none_iff {α : Type} {f : Option α → α → Option α} (hf : ∀ o a, f o a ≠ none) {names : List α} :
    names.foldl f none = none ↔ names = [] := by
  rcases List.eq_nil_or_concat' names with rfl | ⟨init, last, rfl⟩
  · simp
  · simp [hf]

theorem duplicateName_eq_none {names : List String} : duplicateName names = none ↔ names.Nodup := by
  rw [duplicateName, foldl_eq_none_iff (by rintro (_ | _) _ <;> simp), List.filter_eq_nil_iff,
    List.nodup_iff_count_le_one]
  constructor
  · intro h name
    by_cases hmem : name ∈ names
    · simpa using h name hmem
    · simp [List.count_eq_zero_of_not_mem hmem]
  · intro h name _
    simpa using h name

mutual

/-- `validateType`: no struct has two fields of the same name. -/
def validateType : Ty → Check Unit
  | .btn _ | .user _ _ _ _ => return
  | .array elem => validateType elem
  | .func params ret => do
      validateRet ret
      validateParams params
  | .named _ _ _ type => validateType type
  | .struct fields => do
      validateFields fields
      match duplicateName (fields.map Prod.fst) with
      | some name => fatal s!"Duplicate field \"{name}\" in struct"
      | none => return

def validateRet : Option Ty → Check Unit
  | none => return
  | some ret => validateType ret

def validateParams : List (ParamRef × Ty) → Check Unit
  | [] => return
  | (_, type) :: params => do
      validateType type
      validateParams params

def validateFields : List (String × Ty) → Check Unit
  | [] => return
  | (_, type) :: fields => do
      validateType type
      validateFields fields

end

/-! ## Arguments -/

def makeLetVal (type : Ty) : ExprType := ⟨type, .let_, .val⟩

def makeVarVal (type : Ty) : ExprType := ⟨type, .var, .val⟩

/-- `sym::fieldType`. -/
def fieldType (obj : ExprType) (mem : Ty) : ExprType := ⟨mem, obj.mut_, obj.ref⟩

/-- `sym::common` on mutability: mutable when both are. -/
def commonMut (a b : ValueMut) : ValueMut :=
  if a = .let_ then a else b

/-- `sym::common` on references: a reference when both are. -/
def commonRef (a b : ValueRef) : ValueRef :=
  if a = .val then a else b

def convertRef : ParamRef → ValueRef
  | .ref => .ref
  | .val => .val

/-- `convert`, after the type was validated. -/
def convert (param : ParamRef × Ty) : ExprType := ⟨param.2, .var, convertRef param.1⟩

/-- `sym::callMut`: the enumerators are ordered. -/
def callMut (param arg : ValueMut) : Bool :=
  param == .let_ || arg == .var

def callMutRef (param arg : ExprType) : Bool :=
  param.ref == .val || callMut param.mut_ arg.mut_

def compatParam (param arg : ExprType) : Bool :=
  compareTypes param.type arg.type && callMutRef param arg

/-- `compatParams`. -/
def compatParams (params args : List ExprType) : Bool :=
  params.length == args.length && (params.zip args).all fun (param, arg) ↦ compatParam param arg

/-- `compatParams` on the first parameter of a function, which is null for a function without receiver. -/
def compatReceiver : Option ExprType → Option ExprType → Bool
  | none, none => true
  | some param, some arg => compatParam param arg
  | _, _ => false

end Stela.Semantic
