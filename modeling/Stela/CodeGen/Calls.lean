import Stela.CodeGen.Array

/-!
# Calls through closures

`callFuncPtr` loads the function and the data pointer of a closure and passes the data pointer to
the body as it is: the data is not counted again for the time of the call. Whatever runs before the
call returns may operate on closures and arrays wherever they are, and grow and shrink arrays with
the functions of `generate builtin.cpp`.

A block has a slot for each array and each closure in its elements, so the length of an array is the
number of its slots, divided by that of an element. Reallocation moves the elements to new data, which
changes no counts; the new length is stored when a function is done, or before it destroys an element in
`btn_pop_back`.
-/

namespace Stela.CodeGen.Calls

open Stela.Library.Regions Stela.CodeGen.Pointer Stela.CodeGen.Array
open Stela.CodeGen.Closure (Clo)

/-- The heap, and the data pointers that were passed to the calls that have not returned yet,
beginning with the latest. -/
structure State where
  heap : Heap
  calls : List (Option ℕ)

inductive Event where
  | op (op : Op)
  /-- The value is given by the arrays and closures in it. -/
  | pushBack (obj : Loc) (value : List Loc)
  | append (obj other : Loc)
  | popBack (obj : Loc)
  | resize (obj : Loc) (len : ℕ)
  | reserve (obj : Loc) (cap : ℕ)
  | callFuncPtr (func : Loc)
  | ret

/-- The storage of an array. A moved array has none. -/
def storage (m : Heap) (obj : Loc) : Except Fault ℕ := do
  let v ← load m obj
  v.dat.elim (.error .uninit) .ok

/-- What is counted in an element of a storage. -/
def elemsOf (m : Heap) (a : ℕ) : List Shape := (region? m a).elim [] fun r ↦ r.type.elems

/-- Copy objects to the end of a storage. -/
def copyToEnd (a : ℕ) : List (Shape × Loc) → Heap → Except Fault Heap
  | [], m => return m
  | (shape, src) :: rest, m => do
      let m ← copyConstruct shape ⟨a, size m a⟩ src (pushSlot m a shape)
      copyToEnd a rest m

/-- Construct objects at the end of a storage. -/
def constructAtEnd (a : ℕ) : List Shape → Heap → Except Fault Heap
  | [], m => return m
  | shape :: rest, m => do
      let m ← defConstruct shape ⟨a, size m a⟩ (pushSlot m a shape)
      constructAtEnd a rest m

/-- The objects in a storage from slot `n` on. -/
def objects (m : Heap) (a n : ℕ) : List (Option Clo) := (region? m a).elim [] fun r ↦ (r.slots.drop n).map Slot.obj

/-- The places in a storage, with their types. -/
def places (m : Heap) (a : ℕ) : List (Shape × Loc) :=
  (region? m a).elim [] fun r ↦ r.slots.mapIdx fun i s ↦ (s.type, ⟨a, i⟩)

/-- Store the length of an array. -/
def storeLen (a n : ℕ) (m : Heap) : Except Fault Heap :=
  (region? m a).elim (.error .freed) fun _ ↦ .ok (truncate m a n)

/-- `btn_push_back`. -/
def btnPushBack (obj : Loc) (value : List Loc) (m : Heap) : Except Fault Heap := do
  let a ← storage m obj
  copyToEnd a ((elemsOf m a).zip value) m

/-- `btn_append`. -/
def btnAppend (obj other : Loc) (m : Heap) : Except Fault Heap := do
  let a ← storage m obj
  let b ← storage m other
  copyToEnd a (places m b) m

/-- `btn_pop_back`: the length goes down before the element is destroyed. -/
def btnPopBack (obj : Loc) (m : Heap) : Except Fault Heap := do
  let a ← storage m obj
  let n := size m a - (elemsOf m a).length
  destroyRemoved a (objects m a n) (truncate m a n)

/-- `btn_resize`: the elements are destroyed before the length goes down. -/
def btnResize (obj : Loc) (len : ℕ) (m : Heap) : Except Fault Heap := do
  let a ← storage m obj
  let n := len * (elemsOf m a).length
  if n ≤ size m a then do
    let m ← destroySlots dec a n (size m a - n) m
    storeLen a n m
  else
    constructAtEnd a (((elements (elemsOf m a) len).map Slot.type).drop (size m a)) m

/-- `btn_reserve`. -/
def btnReserve (obj : Loc) (_cap : ℕ) (m : Heap) : Except Fault Heap := do
  let a ← storage m obj
  let _ ← loadCount m a
  return m

def effect : Event → Heap → Except Fault Heap
  | .op op, m => exec op m
  | .pushBack obj value, m => btnPushBack obj value m
  | .append obj other, m => btnAppend obj other m
  | .popBack obj, m => btnPopBack obj m
  | .resize obj len, m => btnResize obj len m
  | .reserve obj cap, m => btnReserve obj cap m
  | .callFuncPtr func, m => do
      let _ ← load m func
      return m
  | .ret, m => return m

/-- The calls that are running after an event. -/
def running (s : State) : Event → List (Option ℕ)
  | .callFuncPtr func =>
    match load s.heap func with
    | .ok v => v.dat :: s.calls
    | .error _ => s.calls
  | .ret => s.calls.tail
  | _ => s.calls

def step (s : State) (e : Event) : Option State :=
  (effect e s.heap).toOption.map fun heap ↦ ⟨heap, running s e⟩

def start : State := ⟨[], []⟩

end Stela.CodeGen.Calls
