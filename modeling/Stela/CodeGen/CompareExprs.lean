import Stela.Library.Comparison
import Stela.Library.Except
import Stela.Library.ShrinkingLoop
import Stela.CodeGen.Categories
import Mathlib.Algebra.Order.Ring.Int

/-!
# Comparisons

`compare exprs.cpp` with the functions `arr_eq`, `arr_lt`, `srt_eq`, `srt_lt`, `clo_eq` and `clo_lt` that it calls.
The loops over two arrays walk with pointers, so they see the size of the elements.
-/

namespace Stela.CodeGen.CompareExprs

open Stela.Syntax Stela.Library Library.Except

/-! ## Sizes -/

/-- The bits of a value. -/
def btnWidth : BtnType → ℕ
  | .void => 0
  | .bool => 1
  | .byte | .char => 8
  | .real | .sint | .uint => 32
  | .opaq => 64

/-- The bytes of a value in memory, and its alignment. -/
def btnBytes (value : BtnType) : ℕ := (btnWidth value + 7) / 8

def alignTo (offset align : ℕ) : ℕ := offset + (align - offset % align) % align

mutual

def abiAlign : Ty → ℕ
  | .btn value => btnBytes value
  | .array _ | .func _ _ => 8
  | .named _ _ _ type => abiAlign type
  | .struct fields => fieldsAlign fields
  | .user _ _ align _ => align
termination_by structural type => type

def fieldsAlign : List (String × Ty) → ℕ
  | [] => 1
  | (_, type) :: fields => max (abiAlign type) (fieldsAlign fields)
termination_by structural fields => fields

end

mutual

/-- `DataLayout::getTypeAllocSize`. -/
def allocSize : Ty → ℕ
  | .btn value => btnBytes value
  | .array _ => 8
  | .func _ _ => 16
  | .named _ _ _ type => allocSize type
  | .struct fields => alignTo (fieldsEnd 0 fields) (fieldsAlign fields)
  | .user _ size _ _ => size
termination_by structural type => type

/-- Where the last field ends when the first may begin at this offset. -/
def fieldsEnd : ℕ → List (String × Ty) → ℕ
  | offset, [] => offset
  | offset, (_, type) :: fields => fieldsEnd (alignTo offset (abiAlign type) + allocSize type) fields
termination_by structural _ fields => fields

end

/-! ## Values -/

/-- The storage of an array: the address of the first element, and the elements. -/
structure ArrayVal (α : Type) where
  dat : ℕ
  elems : List α

/-- A function value: the address of the code, and that of the captures. -/
structure ClosureVal where
  fun_ : BitVec 64
  dat : BitVec 64

mutual

def Value : Ty → Type
  | .btn value => BitVec (btnWidth value)
  | .array elem => ArrayVal (Value elem)
  | .func _ _ => ClosureVal
  | .named _ _ _ type => Value type
  | .struct fields => FieldValues fields
  | .user _ size _ _ => BitVec (8 * size)
termination_by structural type => type

def FieldValues : List (String × Ty) → Type
  | [] => Unit
  | (_, type) :: fields => Value type × FieldValues fields
termination_by structural fields => fields

end

/-- How a comparison does not come to an answer. -/
inductive Stop where
  | outOfBounds | assertion | unreachable
  deriving DecidableEq, Repr

/-- The comparisons that are not made of integer comparisons: of floats, and by native functions. -/
structure Foreign where
  fcmpOEQ : {w : ℕ} → BitVec w → BitVec w → Bool
  fcmpOLT : {w : ℕ} → BitVec w → BitVec w → Bool
  native : UserCtor → {w : ℕ} → BitVec w → BitVec w → Bool

/-! ## The generated functions -/

section

variable (foreign : Foreign)

def btnEq (value : BtnType) (lhs rhs : BitVec (btnWidth value)) : Except Stop Bool :=
  match classifyArith value with
  | some .floating_point => .ok (foreign.fcmpOEQ lhs rhs)
  | some _ => .ok (lhs == rhs)
  | none => .error .unreachable

def btnLt (value : BtnType) (lhs rhs : BitVec (btnWidth value)) : Except Stop Bool :=
  match classifyArith value with
  | some .signed_int => .ok (lhs.slt rhs)
  | some .unsigned_int => .ok (lhs.ult rhs)
  | some .floating_point => .ok (foreign.fcmpOLT lhs rhs)
  | none => .error .unreachable

/-- A call of the function that the user type binds to the operator. -/
def usrCompare (ctor : UserCtor) {w : ℕ} (lhs rhs : BitVec w) : Except Stop Bool :=
  if ctor.addr = UserCtor.none ∨ ctor.addr = UserCtor.trivial then .error .assertion
  else .ok (foreign.native ctor lhs rhs)

end

section

variable {α : Type}

/-- Load the element that a pointer has come to after so many steps. -/
def load (arr : ArrayVal α) (k : ℕ) : Except Stop α :=
  match arr.elems[k]? with
  | some elem => .ok elem
  | none => .error .outOfBounds

/-- The pointer has come to the end after so many steps over elements of this size. -/
def atEnd (size : ℕ) (arr : ArrayVal α) (k : ℕ) : Prop := arr.dat + k * size = arr.dat + arr.elems.length * size

instance (size : ℕ) (arr : ArrayVal α) (k : ℕ) : Decidable (atEnd size arr k) := inferInstanceAs (Decidable (_ = _))

theorem load_eq_ok {arr : ArrayVal α} {k : ℕ} {elem : α} : load arr k = .ok elem ↔ arr.elems[k]? = some elem := by
  rw [load]
  cases arr.elems[k]? with
  | none => exact iff_of_false nofun nofun
  | some elem' => simp only [Except.ok.injEq, Option.some.injEq]

variable (size : ℕ) (compare : α → α → Except Stop Bool) (lhs rhs : ArrayVal α)

/-- An iteration of `arr_eq`, after so many. -/
def arrEqBody (k : ℕ) : Except Stop (Bool ⊕ ℕ) :=
  if atEnd size rhs k then .ok (.inl true)
  else do
    let lhsElem ← load lhs k
    let rhsElem ← load rhs k
    let eq ← compare lhsElem rhsElem
    return if eq then .inr (k + 1) else .inl false

/-- An iteration of `arr_lt`, after so many. -/
def arrLtBody (k : ℕ) : Except Stop (Bool ⊕ ℕ) :=
  if atEnd size rhs k then .ok (.inl false)
  else if atEnd size lhs k then .ok (.inl true)
  else do
    let lhsElem ← load lhs k
    let rhsElem ← load rhs k
    let lt ← compare lhsElem rhsElem
    if lt then return .inl true
    else do
      let gt ← compare rhsElem lhsElem
      return if gt then .inl false else .inr (k + 1)

variable {size compare lhs rhs}

theorem sub_lt_of_load {k : ℕ} {elem : α} (h : load rhs k = .ok elem) :
    rhs.elems.length - (k + 1) < rhs.elems.length - k := by
  obtain ⟨hlt, -⟩ := List.getElem?_eq_some_iff.mp (load_eq_ok.mp h)
  omega

theorem arrEqBody_next {k k' : ℕ} (h : arrEqBody size compare lhs rhs k = .ok (.inr k')) :
    rhs.elems.length - k' < rhs.elems.length - k := by
  rw [arrEqBody] at h
  split at h
  · cases h
  · obtain ⟨lhsElem, -, h⟩ := bind_eq_ok.mp h
    obtain ⟨rhsElem, hload, h⟩ := bind_eq_ok.mp h
    obtain ⟨eq, -, h⟩ := bind_eq_ok.mp h
    cases eq <;> cases h
    exact sub_lt_of_load hload

theorem arrLtBody_next {k k' : ℕ} (h : arrLtBody size compare lhs rhs k = .ok (.inr k')) :
    rhs.elems.length - k' < rhs.elems.length - k := by
  rw [arrLtBody] at h
  split at h
  · cases h
  split at h
  · cases h
  · obtain ⟨lhsElem, -, h⟩ := bind_eq_ok.mp h
    obtain ⟨rhsElem, hload, h⟩ := bind_eq_ok.mp h
    obtain ⟨lt, -, h⟩ := bind_eq_ok.mp h
    cases lt with
    | true => cases h
    | false =>
      obtain ⟨gt, -, h⟩ := bind_eq_ok.mp h
      cases gt <;> cases h
      exact sub_lt_of_load hload

variable (size compare lhs rhs)

def arrEqLoop : ShrinkingLoop Stop Bool ℕ where
  body := arrEqBody size compare lhs rhs
  size := fun k ↦ rhs.elems.length - k
  shrinks := arrEqBody_next

def arrLtLoop : ShrinkingLoop Stop Bool ℕ where
  body := arrLtBody size compare lhs rhs
  size := fun k ↦ rhs.elems.length - k
  shrinks := arrLtBody_next

def arrEq : Except Stop Bool :=
  if lhs.elems.length = rhs.elems.length then (arrEqLoop size compare lhs rhs).run 0 else .ok false

def arrLt : Except Stop Bool := (arrLtLoop size compare lhs rhs).run 0

end

def cloEq (lhs rhs : ClosureVal) : Except Stop Bool := .ok (lhs.fun_ == rhs.fun_)

def cloLt (lhs rhs : ClosureVal) : Except Stop Bool := .ok (lhs.fun_.ult rhs.fun_)

section

variable (foreign : Foreign)

mutual

/-- `CompareExpr::eq`. -/
def eq : (type : Ty) → Value type → Value type → Except Stop Bool
  | .btn value, lhs, rhs => btnEq foreign value lhs rhs
  | .array elem, lhs, rhs => arrEq (allocSize elem) (eq elem) lhs rhs
  | .func _ _, lhs, rhs => cloEq lhs rhs
  | .named _ _ _ type, lhs, rhs => eq type lhs rhs
  | .struct fields, lhs, rhs => srtEq fields lhs rhs
  | .user _ _ _ ctors, lhs, rhs => usrCompare foreign ctors.eq lhs rhs
termination_by structural type => type

def srtEq : (fields : List (String × Ty)) → FieldValues fields → FieldValues fields → Except Stop Bool
  | [], _, _ => .ok true
  | (_, type) :: fields, lhs, rhs => do
      let eq ← eq type (Prod.fst lhs) (Prod.fst rhs)
      if eq then srtEq fields (Prod.snd lhs) (Prod.snd rhs) else .ok false
termination_by structural fields => fields

end

mutual

/-- `CompareExpr::lt`. -/
def lt : (type : Ty) → Value type → Value type → Except Stop Bool
  | .btn value, lhs, rhs => btnLt foreign value lhs rhs
  | .array elem, lhs, rhs => arrLt (allocSize elem) (lt elem) lhs rhs
  | .func _ _, lhs, rhs => cloLt lhs rhs
  | .named _ _ _ type, lhs, rhs => lt type lhs rhs
  | .struct fields, lhs, rhs => srtLt fields lhs rhs
  | .user _ _ _ ctors, lhs, rhs => usrCompare foreign ctors.lt lhs rhs
termination_by structural type => type

def srtLt : (fields : List (String × Ty)) → FieldValues fields → FieldValues fields → Except Stop Bool
  | [], _, _ => .ok false
  | (_, type) :: fields, lhs, rhs => do
      let less ← lt type (Prod.fst lhs) (Prod.fst rhs)
      if less then return true
      else do
        let greater ← lt type (Prod.fst rhs) (Prod.fst lhs)
        if greater then return false else srtLt fields (Prod.snd lhs) (Prod.snd rhs)
termination_by structural fields => fields

end

variable (type : Ty) (lhs rhs : Value type)

def ne : Except Stop Bool := (eq foreign type lhs rhs).map not
def gt : Except Stop Bool := lt foreign type rhs lhs
def le : Except Stop Bool := (lt foreign type rhs lhs).map not
def ge : Except Stop Bool := (lt foreign type lhs rhs).map not

end

/-! ## What the comparisons are for -/

mutual

/-- The types of the statement: made of `bool`, `byte`, `char`, `sint`, `uint` and functions. -/
def comparable : Ty → Bool
  | .btn value => classifyArith value != none && value != .real
  | .array elem => comparable elem
  | .func _ _ => true
  | .named _ _ _ type => comparable type
  | .struct fields => comparableFields fields
  | .user _ _ _ _ => false
termination_by structural type => type

def comparableFields : List (String × Ty) → Bool
  | [] => true
  | (_, type) :: fields => comparable type && comparableFields fields
termination_by structural fields => fields

end

mutual

/-- In every array in the type, the elements take some space, so that a pointer moves when it passes one. -/
def walkable : Ty → Bool
  | .btn _ | .func _ _ | .user _ _ _ _ => true
  | .array elem => allocSize elem != 0 && walkable elem
  | .named _ _ _ type => walkable type
  | .struct fields => walkableFields fields
termination_by structural type => type

def walkableFields : List (String × Ty) → Bool
  | [] => true
  | (_, type) :: fields => walkable type && walkableFields fields
termination_by structural fields => fields

end

/-- The number that a value of a builtin type stands for. -/
def btnKey (value : BtnType) (bits : BitVec (btnWidth value)) : ℤ :=
  if classifyArith value = some .signed_int then bits.toInt else bits.toNat

mutual

/-- The values are the same, apart from the captures of functions. -/
def Same : (type : Ty) → Value type → Value type → Prop
  | .btn value, a, b => btnKey value a = btnKey value b
  | .array elem, a, b => List.Forall₂ (Same elem) (ArrayVal.elems a) (ArrayVal.elems b)
  | .func _ _, a, b => (ClosureVal.fun_ a).toNat = (ClosureVal.fun_ b).toNat
  | .named _ _ _ type, a, b => Same type a b
  | .struct fields, a, b => SameFields fields a b
  | .user _ _ _ _, _, _ => True
termination_by structural type => type

def SameFields : (fields : List (String × Ty)) → FieldValues fields → FieldValues fields → Prop
  | [], _, _ => True
  | (_, type) :: fields, a, b => Same type (Prod.fst a) (Prod.fst b) ∧ SameFields fields (Prod.snd a) (Prod.snd b)
termination_by structural fields => fields

end

mutual

/-- The order: numbers by their size, functions by their address, arrays and structs lexicographically. -/
def Less : (type : Ty) → Value type → Value type → Prop
  | .btn value, a, b => btnKey value a < btnKey value b
  | .array elem, a, b => Comparison.Lex (Same elem) (Less elem) (ArrayVal.elems a) (ArrayVal.elems b)
  | .func _ _, a, b => (ClosureVal.fun_ a).toNat < (ClosureVal.fun_ b).toNat
  | .named _ _ _ type, a, b => Less type a b
  | .struct fields, a, b => LessFields fields a b
  | .user _ _ _ _, _, _ => False
termination_by structural type => type

def LessFields : (fields : List (String × Ty)) → FieldValues fields → FieldValues fields → Prop
  | [], _, _ => False
  | (_, type) :: fields, a, b =>
      Less type (Prod.fst a) (Prod.fst b) ∨
        Same type (Prod.fst a) (Prod.fst b) ∧ LessFields fields (Prod.snd a) (Prod.snd b)
termination_by structural fields => fields

end

mutual

/-- The abstract comparisons are lawful. -/
theorem same_lawful : (type : Ty) → Comparison.Lawful (Same type) (Less type)
  | .btn value => .of_key (btnKey value)
  | .array elem => (same_lawful elem).list.comap ArrayVal.elems
  | .func _ _ => .of_key fun a : ClosureVal ↦ a.fun_.toNat
  | .named _ _ _ type => same_lawful type
  | .struct fields => sameFields_lawful fields
  | .user _ _ _ _ => .of_subsingleton (fun _ _ ↦ trivial) fun _ _ ↦ id

theorem sameFields_lawful : (fields : List (String × Ty)) → Comparison.Lawful (SameFields fields) (LessFields fields)
  | [] => .of_subsingleton (fun _ _ ↦ trivial) fun _ _ ↦ id
  | (_, type) :: fields => (same_lawful type).prod (sameFields_lawful fields)

end

end Stela.CodeGen.CompareExprs
