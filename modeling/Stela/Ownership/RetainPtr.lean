import Stela.Library.Machine
import Stela.Library.Regions

/-!
# retain_ptr

`retain ptr.hpp`, on a memory of regions. A counted region is an object that derives from `ref_count`; its slots are the
retain_ptrs among its members and in the containers that it owns. The other regions are variables of the program. A
pointer is the address of an object, whichever of its base classes it points to.

The machine takes one step for each operation on retain_ptrs. A pointer that was detached, or that `make_retain` has just
got from `new`, owns its object until a retain_ptr adopts it; these pointers are the `raws` of a state.
-/

namespace Stela.Ownership

open Stela.Library.Regions

/-- `retain_ptr`: the member `ptr`, null or an object. -/
structure RetainPtr where
  ptr : Option ℕ
  deriving DecidableEq, Repr

instance : Pointer RetainPtr where
  ptr := RetainPtr.ptr
  setPtr _ p := ⟨p⟩
  ptr_setPtr _ _ := rfl

/-- What the pointers need to know of the classes of the objects. -/
structure Hierarchy (Class : Type) where
  /-- Whether `dynamic_cast` finds the second class in an object of the first. -/
  derives : Class → Class → Bool
  /-- The order in which the destructor of an object destroys that many members. -/
  dtorOrder : Class → ℕ → List ℕ
  dtorOrder_perm : ∀ cls n, (dtorOrder cls n).Perm (List.range n)

/-- An object has its class; a slot has the class that its retain_ptr points to. -/
abbrev Heap (Class : Type) := Memory Class RetainPtr

/-- What must not happen: an access to an object or a place that is no more, an access where no retain_ptr lives, and
the two assertions on the count, that it is not zero in `decr` and not the greatest in `incr`. The last fault is not
one of the program: `decr` was not given enough fuel. -/
inductive Fault where
  | freed | uninit | zero | overflow | fuel
  deriving DecidableEq, Repr

variable {Class : Type}

/-! ## Accesses -/

/-- Read the member `ptr` of a retain_ptr. -/
def get (this : Loc) (m : Heap Class) : Except Fault (Option ℕ) :=
  match region? m this.region with
  | none => .error .freed
  | some r =>
    match r.slots[this.index]? with
    | some ⟨_, some v⟩ => .ok v.ptr
    | _ => .error .uninit

/-- Assign the member `ptr` of a retain_ptr. -/
def assign (this : Loc) (newPtr : Option ℕ) (m : Heap Class) : Except Fault (Heap Class) := do
  let _ ← get this m
  return write m this (some ⟨newPtr⟩)

/-- A retain_ptr begins to live with this `ptr`. -/
def construct (this : Loc) (newPtr : Option ℕ) (m : Heap Class) : Except Fault (Heap Class) :=
  match region? m this.region with
  | none => .error .freed
  | some r => if this.index < r.slots.length then .ok (write m this (some ⟨newPtr⟩)) else .error .uninit

def loadCount (a : ℕ) (m : Heap Class) : Except Fault ℤ :=
  match region? m a with
  | none => .error .freed
  | some r => r.count.elim (.error .uninit) .ok

/-- `~uint64_t{}`. -/
def maxCount : ℕ := 2 ^ 64 - 1

/-! ## Counting -/

def incr (this : Loc) (m : Heap Class) : Except Fault (Heap Class) := do
  match ← get this m with
  | none => return m
  | some a =>
    let count ← loadCount a m
    if count = maxCount then .error .overflow
    else return setCount m a (count + 1)

/-- Whether a retain_ptr lives in the place. -/
def lives (m : Heap Class) (l : Loc) : Bool := (slot? m l).any fun s ↦ s.obj.isSome

/-- Destroy the members of an object with these indices: each calls `decr`, and is no more. -/
def destroyMembers (decr : Loc → Heap Class → Except Fault (Heap Class)) (a : ℕ) :
    List ℕ → Heap Class → Except Fault (Heap Class)
  | [], m => return m
  | i :: is, m => do
    if lives m ⟨a, i⟩ then
      let m ← decr ⟨a, i⟩ m
      destroyMembers decr a is (write m ⟨a, i⟩ none)
    else destroyMembers decr a is m

variable (H : Hierarchy Class)

/-- The members of an object, in the order in which its destructor destroys them. -/
def members (m : Heap Class) (a : ℕ) : List ℕ :=
  (region? m a).elim [] fun r ↦ H.dtorOrder r.type r.slots.length

/-- `decr`. The destructor of the object runs before it is deallocated, and the retain_ptr keeps its `ptr` all the
time. -/
def decr : (fuel : ℕ) → Loc → Heap Class → Except Fault (Heap Class)
  | 0, _, _ => .error .fuel
  | fuel + 1, this, m => do
    match ← get this m with
    | none => return m
    | some a =>
      let count ← loadCount a m
      if count = 0 then .error .zero
      else
        let m := setCount m a (count - 1)
        if count - 1 = 0 then
          let m ← destroyMembers (decr fuel) a (members H m a) m
          return free m a
        else return m

/-- Every nested call is for another object, so this fuel suffices. -/
def release (this : Loc) (m : Heap Class) : Except Fault (Heap Class) := decr H (m.length + 1) this m

/-! ## The functions of the class -/

def retainCtor (this : Loc) (newPtr : Option ℕ) (m : Heap Class) : Except Fault (Heap Class) := do
  let m ← construct this newPtr m
  incr this m

def dtor (this : Loc) (m : Heap Class) : Except Fault (Heap Class) := do
  let m ← release H this m
  return write m this none

def detach (this : Loc) (m : Heap Class) : Except Fault (Option ℕ × Heap Class) := do
  let ptr ← get this m
  let m ← assign this none m
  return (ptr, m)

def reset (this : Loc) (newPtr : Option ℕ) (m : Heap Class) : Except Fault (Heap Class) := do
  let m ← release H this m
  assign this newPtr m

/-- `reset` with the tag `retain`. -/
def resetRetain (this : Loc) (newPtr : Option ℕ) (m : Heap Class) : Except Fault (Heap Class) := do
  let m ← release H this m
  let m ← assign this newPtr m
  incr this m

def copyCtor (this other : Loc) (m : Heap Class) : Except Fault (Heap Class) := do
  let ptr ← get other m
  let m ← construct this ptr m
  incr this m

def moveCtor (this other : Loc) (m : Heap Class) : Except Fault (Heap Class) := do
  let (ptr, m) ← detach other m
  construct this ptr m

def copyAsgn (this other : Loc) (m : Heap Class) : Except Fault (Heap Class) := do
  let ptr ← get other m
  let m ← reset H this ptr m
  incr this m

def moveAsgn (this other : Loc) (m : Heap Class) : Except Fault (Heap Class) := do
  let (ptr, m) ← detach other m
  reset H this ptr m

def swap (this other : Loc) (m : Heap Class) : Except Fault (Heap Class) := do
  let ptr ← get this m
  let otherPtr ← get other m
  let m ← assign this otherPtr m
  assign other ptr m

/-! ## Casts -/

/-- `static_pointer_cast` of an lvalue: the new retain_ptr retains the object. -/
def staticPointerCast (this src : Loc) (m : Heap Class) : Except Fault (Heap Class) := do
  let ptr ← get src m
  retainCtor this ptr m

/-- `static_pointer_cast` of an rvalue. -/
def staticPointerCastMove (this src : Loc) (m : Heap Class) : Except Fault (Heap Class) := do
  let (ptr, m) ← detach src m
  construct this ptr m

/-- `dynamic_cast`, which looks at the object. -/
def dynamicCast (derived : Class) (ptr : Option ℕ) (m : Heap Class) : Except Fault (Option ℕ) :=
  match ptr with
  | none => return none
  | some a =>
    match region? m a with
    | none => .error .freed
    | some r => return if H.derives r.type derived then some a else none

/-- `dynamic_pointer_cast` of an lvalue. -/
def dynamicPointerCast (derived : Class) (this base : Loc) (m : Heap Class) : Except Fault (Heap Class) := do
  let ptr ← get base m
  let ptr ← dynamicCast H derived ptr m
  retainCtor this ptr m

/-- `dynamic_pointer_cast` of an rvalue. -/
def dynamicPointerCastMove (derived : Class) (this base : Loc) (m : Heap Class) : Except Fault (Heap Class) := do
  let (ptr, m) ← detach base m
  let ptr ← dynamicCast H derived ptr m
  construct this ptr m

/-! ## Sequences of operations -/

structure State (Class : Type) where
  heap : Heap Class
  /-- The pointers that own an object without being a retain_ptr. -/
  raws : List (Option ℕ)

inductive Op (Class : Type) where
  /-- Storage for a variable. -/
  | declare (pointee : Class)
  /-- Storage for one more retain_ptr, as in a container that grows. -/
  | place (region : ℕ) (pointee : Class)
  /-- `new` in `make_retain`. The members are constructed by further operations. -/
  | make (cls : Class) (pointees : List Class)
  | defCtor (this : Loc)
  | adoptCtor (this : Loc) (raw : ℕ)
  | retainCtor (this : Loc) (ptr : Option ℕ)
  | copyCtor (this other : Loc)
  | moveCtor (this other : Loc)
  | dtor (this : Loc)
  /-- `reset()`, and the assignment of `nullptr`. -/
  | resetNull (this : Loc)
  | reset (this : Loc) (raw : ℕ)
  | resetRetain (this : Loc) (ptr : Option ℕ)
  | detach (this : Loc)
  | copyAsgn (this other : Loc)
  | moveAsgn (this other : Loc)
  | swap (this other : Loc)
  | staticPointerCast (this src : Loc)
  | staticPointerCastMove (this src : Loc)
  | dynamicPointerCast (derived : Class) (this base : Loc)
  | dynamicPointerCastMove (derived : Class) (this base : Loc)

/-- Run a function on the memory. -/
def State.run (s : State Class) (f : Heap Class → Except Fault (Heap Class)) : Except Fault (State Class) := do
  let heap ← f s.heap
  return { s with heap }

/-- Run a function that takes over one of the raw pointers. -/
def State.adopt (s : State Class) (raw : ℕ) (f : Option ℕ → Heap Class → Except Fault (Heap Class)) :
    Except Fault (State Class) := do
  match s.raws[raw]? with
  | none => .error .uninit
  | some ptr =>
    let heap ← f ptr s.heap
    return ⟨heap, s.raws.eraseIdx raw⟩

def exec (s : State Class) : Op Class → Except Fault (State Class)
  | .declare pointee => return { s with heap := alloc s.heap ⟨pointee, none, [⟨pointee, none⟩]⟩ }
  | .place region pointee => return { s with heap := pushSlot s.heap region pointee }
  | .make cls pointees =>
    return ⟨alloc s.heap ⟨cls, some 1, pointees.map (⟨·, none⟩)⟩, some s.heap.length :: s.raws⟩
  | .defCtor this => s.run (construct this none)
  | .adoptCtor this raw => s.adopt raw (construct this)
  | .retainCtor this ptr => s.run (retainCtor this ptr)
  | .copyCtor this other => s.run (copyCtor this other)
  | .moveCtor this other => s.run (moveCtor this other)
  | .dtor this => s.run (dtor H this)
  | .resetNull this => s.run (reset H this none)
  | .reset this raw => s.adopt raw (reset H this)
  | .resetRetain this ptr => s.run (resetRetain H this ptr)
  | .detach this => do
    let (ptr, heap) ← detach this s.heap
    return ⟨heap, ptr :: s.raws⟩
  | .copyAsgn this other => s.run (copyAsgn H this other)
  | .moveAsgn this other => s.run (moveAsgn H this other)
  | .swap this other => s.run (swap this other)
  | .staticPointerCast this src => s.run (staticPointerCast this src)
  | .staticPointerCastMove this src => s.run (staticPointerCastMove this src)
  | .dynamicPointerCast derived this base => s.run (dynamicPointerCast H derived this base)
  | .dynamicPointerCastMove derived this base => s.run (dynamicPointerCastMove H derived this base)

def step (s : State Class) (op : Op Class) : Option (State Class) := (exec H s op).toOption

/-- The program starts without any variable or object. -/
def init : State Class := ⟨[], []⟩

end Stela.Ownership
