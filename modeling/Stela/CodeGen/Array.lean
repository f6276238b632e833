import Stela.CodeGen.Closure
import Stela.Syntax.Types

/-!
# Array handles

The constructors, assignments and the destructor of `generate array.cpp`, on a heap that arrays
share with closures. A handle points to a storage block with its reference count. Only what is
counted among the elements of a block matters for the counts, so a block has one slot for each array
and each closure that an element contains; its data, which is freed together with it, is not
modelled separately.

A closure in an array may capture handles, also to the storage that it is in. So the machine takes a
step for each operation on a handle and for each operation on a closure, wherever they are: in a
variable, among the elements of a block, or among the captures of a lambda.
-/

namespace Stela.CodeGen.Array

open Stela.Syntax Stela.Library.Regions Stela.CodeGen.Pointer Stela.CodeGen.Closure

/-- The type of an object that is counted, up to names: for an array, what an element contains. -/
inductive Shape where
  | array (elems : List Shape)
  | closure

def Shape.elems : Shape → List Shape
  | .array elems => elems
  | .closure => []

mutual

/-- The arrays and closures that a value of a type contains. The native functions of a user type
treat its fields as those of a struct. -/
def shapes : Ty → List Shape
  | .array elem => [.array (shapes elem)]
  | .func _ _ => [.closure]
  | .named _ _ _ type => shapes type
  | .struct fields => shapesFields fields
  | .user fields _ _ _ => shapesMembers fields
  | .btn _ => []

def shapesFields : List (String × Ty) → List Shape
  | [] => []
  | (_, type) :: fields => shapes type ++ shapesFields fields

def shapesMembers : List (String × Ty × ℕ) → List Shape
  | [] => []
  | (_, type, _) :: fields => shapes type ++ shapesMembers fields

end

mutual

/-- There are no closures among the elements, or among the elements of arrays in them. -/
def Shape.plain : Shape → Bool
  | .array elems => plainShapes elems
  | .closure => false

def plainShapes : List Shape → Bool
  | [] => true
  | shape :: rest => shape.plain && plainShapes rest

end

/-- A handle is stored like a closure; its function is not used. -/
abbrev Heap := Memory Shape Clo

/-- The slots of `len` elements that are not constructed yet. -/
def elements (elems : List Shape) (len : ℕ) : List (Slot Shape Clo) :=
  (List.replicate len (elems.map fun elem ↦ ⟨elem, none⟩)).flatten

/-- Allocate a block of `len` elements, with count 1, and store a handle to it. -/
def arrLenCtor (elems : List Shape) (obj : Loc) (len : ℕ) (m : Heap) : Except Fault Heap :=
  store (alloc m ⟨.array elems, some 1, elements elems len⟩) obj ⟨.stub, some m.length⟩

def arrDefCtor (elems : List Shape) (obj : Loc) (m : Heap) : Except Fault Heap :=
  store (alloc m ⟨.array elems, some 1, []⟩) obj ⟨.stub, some m.length⟩

def arrCopCtor (dst src : Loc) (m : Heap) : Except Fault Heap := ptrCopCtor dst src m
def arrCopAsgn (dst src : Loc) (m : Heap) : Except Fault Heap := ptrCopAsgn dst src m
def arrMovCtor (dst src : Loc) (m : Heap) : Except Fault Heap := ptrMovCtor dst src m
def arrMovAsgn (dst src : Loc) (m : Heap) : Except Fault Heap := ptrMovAsgn dst src m
def arrDtor (obj : Loc) (m : Heap) : Except Fault Heap := ptrDtor obj m

/-! ## Operations by type

`LifetimeExpr` calls the functions of an array or those of a closure, by the type of the object. -/

def defConstruct : Shape → Loc → Heap → Except Fault Heap
  | .array elems => arrDefCtor elems
  | .closure => cloDefCtor

def copyConstruct : Shape → Loc → Loc → Heap → Except Fault Heap
  | .array _ => arrCopCtor
  | .closure => cloCopCtor

def moveConstruct : Shape → Loc → Loc → Heap → Except Fault Heap
  | .array _ => arrMovCtor
  | .closure => cloMovCtor

def copyAssign : Shape → Loc → Loc → Heap → Except Fault Heap
  | .array _ => arrCopAsgn
  | .closure => cloCopAsgn

def moveAssign : Shape → Loc → Loc → Heap → Except Fault Heap
  | .array _ => arrMovAsgn
  | .closure => cloMovAsgn

def destroy : Shape → Loc → Heap → Except Fault Heap
  | .array _ => arrDtor
  | .closure => cloDtor

/-! ## Sequences of operations -/

inductive Op where
  /-- Storage for a variable of the type. -/
  | declare (type : Ty)
  | defConstruct (obj : Loc)
  | lenConstruct (obj : Loc) (len : ℕ)
  | funConstruct (obj : Loc) (fn : Fun)
  /-- A lambda expression; each capture comes with its type. -/
  | lambda (obj : Loc) (fn : Fun) (caps : List (Loc × Shape))
  | copyConstruct (dst src : Loc)
  | moveConstruct (dst src : Loc)
  | copyAssign (dst src : Loc)
  | moveAssign (dst src : Loc)
  | destroy (obj : Loc)

/-- Run a function for the type of the object in a place. -/
def byType (m : Heap) (obj : Loc) (f : Shape → Heap → Except Fault Heap) : Except Fault Heap :=
  (slot? m obj).elim (.error .uninit) fun s ↦ f s.type m

def exec : Op → Heap → Except Fault Heap
  | .declare type, m => .ok (alloc m ⟨.array (shapes type), none, elements (shapes type) 1⟩)
  | .defConstruct obj, m => byType m obj fun shape ↦ defConstruct shape obj
  | .lenConstruct obj len, m => byType m obj fun
    | .array elems => arrLenCtor elems obj len
    | .closure => fun _ ↦ .error .uninit
  | .funConstruct obj fn, m => cloFunCtor obj fn m
  | .lambda obj fn caps, m => lambdaOf .closure (caps.map Prod.snd) obj fn (caps.map Prod.fst) m
  | .copyConstruct dst src, m => byType m dst fun shape ↦ copyConstruct shape dst src
  | .moveConstruct dst src, m => byType m dst fun shape ↦ moveConstruct shape dst src
  | .copyAssign dst src, m => byType m dst fun shape ↦ copyAssign shape dst src
  | .moveAssign dst src, m => byType m dst fun shape ↦ moveAssign shape dst src
  | .destroy obj, m => byType m obj fun shape ↦ destroy shape obj

def step (m : Heap) (op : Op) : Option Heap := (exec op m).toOption

/-- Storage for an object of the type, without a live object in it. -/
def Fresh (m : Heap) (obj : Loc) (shape : Shape) : Prop := slot? m obj = some ⟨shape, none⟩

/-- A live object of the type. -/
def Live (m : Heap) (obj : Loc) (shape : Shape) : Prop := ∃ v, slot? m obj = some ⟨shape, some v⟩

/-- The block that the object in a place points to. -/
def pointer (m : Heap) (l : Loc) : Option ℕ := (slot? m l).bind fun s ↦ s.obj.bind ptr

end Stela.CodeGen.Array
