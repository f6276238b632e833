import Stela.Library.Except
import Stela.Library.Regions

/-!
# Counted pointers

The functions of `generate pointer.cpp`, on a memory of regions. The destructor that they receive
destroys the objects of the block, in order: the elements of an array or the captures of a lambda.
Destroying an object ends its life before the block it points to is released, so that any later
read of it is a fault.
-/

namespace Stela.CodeGen.Pointer

open Stela.Library.Regions

variable {T V : Type} [Pointer V]

/-- What must not happen: reading or writing freed memory, or an object that is not alive. The last
fault is not one of the program: `ptrDec` was not given enough fuel. -/
inductive Fault where
  | freed | uninit | fuel
  deriving DecidableEq, Repr

/-- Read the object in a slot. -/
def load (m : Memory T V) (l : Loc) : Except Fault V :=
  match region? m l.region with
  | none => .error .freed
  | some r =>
    match r.slots[l.index]? with
    | some ⟨_, some v⟩ => .ok v
    | _ => .error .uninit

/-- Write an object into a slot. -/
def store (m : Memory T V) (l : Loc) (v : V) : Except Fault (Memory T V) :=
  match region? m l.region with
  | none => .error .freed
  | some r => if l.index < r.slots.length then .ok (write m l (some v)) else .error .uninit

def loadCount (m : Memory T V) (a : ℕ) : Except Fault ℤ :=
  match region? m a with
  | none => .error .freed
  | some r => r.count.elim (.error .uninit) .ok

/-- `ptr_inc`. -/
def ptrInc (p : Option ℕ) (m : Memory T V) : Except Fault (Memory T V) :=
  match p with
  | none => return m
  | some a => do
      let n ← loadCount m a
      return setCount m a (n + 1)

/-- Destroy the objects in `k` slots of a block, from slot `i` on. `dec` releases a pointer. -/
def destroySlots (dec : Option ℕ → Memory T V → Except Fault (Memory T V)) (a : ℕ) :
    (i k : ℕ) → Memory T V → Except Fault (Memory T V)
  | _, 0, m => return m
  | i, k + 1, m => do
      let v ← load m ⟨a, i⟩
      let m ← dec (ptr v) (write m ⟨a, i⟩ none)
      destroySlots dec a (i + 1) k m

/-- The number of objects in a block. -/
def size (m : Memory T V) (a : ℕ) : ℕ := (region? m a).elim 0 fun r ↦ r.slots.length

/-- `ptr_dec`. -/
def ptrDec : (fuel : ℕ) → Option ℕ → Memory T V → Except Fault (Memory T V)
  | _, none, m => return m
  | 0, some _, _ => .error .fuel
  | fuel + 1, some a, m => do
      let n ← loadCount m a
      let m := setCount m a (n - 1)
      if n - 1 = 0 then do
        let m ← destroySlots (ptrDec fuel) a 0 (size m a) m
        return free m a
      else return m

/-- Every nested release is of another block, so this fuel suffices. -/
def dec (p : Option ℕ) (m : Memory T V) : Except Fault (Memory T V) := ptrDec m.length p m

/-- Destroy objects that were removed from the end of a block, in order. They are still in the data of the
block, so the block has to be there. -/
def destroyRemoved (a : ℕ) : List (Option V) → Memory T V → Except Fault (Memory T V)
  | [], m => return m
  | none :: _, _ => .error .uninit
  | some v :: rest, m => do
      let _ ← loadCount m a
      let m ← dec (ptr v) m
      destroyRemoved a rest m

/-- `ptr_dtor`. -/
def ptrDtor (obj : Loc) (m : Memory T V) : Except Fault (Memory T V) := do
  let v ← load m obj
  dec (ptr v) (write m obj none)

/-- `ptr_cop_ctor`. -/
def ptrCopCtor (dst src : Loc) (m : Memory T V) : Except Fault (Memory T V) := do
  let v ← load m src
  let m ← ptrInc (ptr v) m
  store m dst v

/-- `ptr_cop_asgn`. -/
def ptrCopAsgn (dst src : Loc) (m : Memory T V) : Except Fault (Memory T V) := do
  let d ← load m dst
  let s ← load m src
  let m ← ptrInc (ptr s) m
  let m ← dec (ptr d) (write m dst none)
  store m dst (setPtr d (ptr s))

/-- `ptr_mov_ctor`. -/
def ptrMovCtor (dst src : Loc) (m : Memory T V) : Except Fault (Memory T V) := do
  let v ← load m src
  let m ← store m dst v
  store m src (setPtr v none)

/-- `ptr_mov_asgn`. -/
def ptrMovAsgn (dst src : Loc) (m : Memory T V) : Except Fault (Memory T V) := do
  let d ← load m dst
  let m ← dec (ptr d) (write m dst none)
  let s ← load m src
  let m ← store m dst (setPtr d (ptr s))
  store m src (setPtr s none)

end Stela.CodeGen.Pointer
