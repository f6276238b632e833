import Stela.CodeGen.Pointer
import Stela.Library.Machine

/-!
# Closure objects

The constructors, assignments and the destructor of `generate closure.cpp`, and the part of
`visit(ast::Lambda &)` that fills the captured data. A closure is a function and a nullable pointer
to a block of captured data; the closures among the captures are the slots of the block. A slot
holds both halves of a closure, so copying or moving the pointer of a new closure also brings the
function. Regions and slots may have types, which the functions do not look at.

The machine takes one step for each operation on a closure, wherever the closure is: in a variable,
or among the captures of a lambda.
-/

namespace Stela.CodeGen.Closure

open Stela.Library.Regions Stela.CodeGen.Pointer

/-- What a closure calls: the stub, a function, or the body of a lambda. -/
inductive Fun where
  | stub
  | func (symbol : ℕ)
  | lambda (symbol : ℕ)
  deriving DecidableEq, Repr

/-- A closure object: `clo_idx_fun` and `clo_idx_dat`. -/
structure Clo where
  fn : Fun
  dat : Option ℕ
  deriving DecidableEq, Repr

instance : Pointer Clo where
  ptr := Clo.dat
  setPtr v p := { v with dat := p }
  ptr_setPtr _ _ := rfl

section

variable {T : Type}

def cloDefCtor (obj : Loc) (m : Memory T Clo) : Except Fault (Memory T Clo) := store m obj ⟨.stub, none⟩

def cloFunCtor (obj : Loc) (fn : Fun) (m : Memory T Clo) : Except Fault (Memory T Clo) := store m obj ⟨fn, none⟩

def cloLamCtor (obj : Loc) (fn : Fun) (dat : ℕ) (m : Memory T Clo) : Except Fault (Memory T Clo) :=
  store m obj ⟨fn, some dat⟩

def cloDtor (obj : Loc) (m : Memory T Clo) : Except Fault (Memory T Clo) := do
  let v ← load m obj
  if v.dat.isSome then ptrDtor obj m else return write m obj none

def cloCopCtor (dst src : Loc) (m : Memory T Clo) : Except Fault (Memory T Clo) := ptrCopCtor dst src m

def cloMovCtor (dst src : Loc) (m : Memory T Clo) : Except Fault (Memory T Clo) := ptrMovCtor dst src m

/-- Assign the function; assign the pointer only when the destination has data. -/
def cloAsgn (ptrAsgn : Loc → Loc → Memory T Clo → Except Fault (Memory T Clo)) (dst src : Loc) (m : Memory T Clo) :
    Except Fault (Memory T Clo) := do
  let s ← load m src
  let d ← load m dst
  let m ← store m dst { d with fn := s.fn }
  if d.dat.isSome then ptrAsgn dst src m else return m

def cloCopAsgn (dst src : Loc) (m : Memory T Clo) : Except Fault (Memory T Clo) := cloAsgn ptrCopAsgn dst src m

def cloMovAsgn (dst src : Loc) (m : Memory T Clo) : Except Fault (Memory T Clo) := cloAsgn ptrMovAsgn dst src m

/-- Copy the captures into the data, from slot `i` on. -/
def copyCaptures (dat : ℕ) : (i : ℕ) → List Loc → Memory T Clo → Except Fault (Memory T Clo)
  | _, [], m => return m
  | i, cap :: caps, m => do
      let m ← cloCopCtor ⟨dat, i⟩ cap m
      copyCaptures dat (i + 1) caps m

/-- A lambda expression, evaluated into fresh storage. The captures have the types of `types`. -/
def lambdaOf (type : T) (types : List T) (obj : Loc) (fn : Fun) (caps : List Loc) (m : Memory T Clo) :
    Except Fault (Memory T Clo) := do
  let dat := m.length
  let m := alloc m ⟨type, some 1, types.map fun type ↦ ⟨type, none⟩⟩
  let m ← copyCaptures dat 0 caps m
  cloLamCtor obj fn dat m

end

/-! ## Sequences of operations on closures -/

abbrev Heap := Memory Unit Clo

def lambda (obj : Loc) (fn : Fun) (caps : List Loc) (m : Heap) : Except Fault Heap :=
  lambdaOf () (caps.map fun _ ↦ ()) obj fn caps m

inductive Op where
  /-- Storage for a variable. -/
  | declare
  | defCtor (obj : Loc)
  | funCtor (obj : Loc) (fn : Fun)
  | lambda (obj : Loc) (fn : Fun) (caps : List Loc)
  | copCtor (dst src : Loc)
  | movCtor (dst src : Loc)
  | copAsgn (dst src : Loc)
  | movAsgn (dst src : Loc)
  | dtor (obj : Loc)

def exec : Op → Heap → Except Fault Heap
  | .declare, m => .ok (alloc m ⟨(), none, [⟨(), none⟩]⟩)
  | .defCtor obj, m => cloDefCtor obj m
  | .funCtor obj fn, m => cloFunCtor obj fn m
  | .lambda obj fn caps, m => lambda obj fn caps m
  | .copCtor dst src, m => cloCopCtor dst src m
  | .movCtor dst src, m => cloMovCtor dst src m
  | .copAsgn dst src, m => cloCopAsgn dst src m
  | .movAsgn dst src, m => cloMovAsgn dst src m
  | .dtor obj, m => cloDtor obj m

def step (m : Heap) (op : Op) : Option Heap := (exec op m).toOption

/-- Storage without a live closure in it. -/
def Fresh (m : Heap) (obj : Loc) : Prop := slot? m obj = some ⟨(), none⟩

/-- The closure in a place. -/
def Holds (m : Heap) (obj : Loc) (v : Clo) : Prop := slot? m obj = some ⟨(), some v⟩

end Stela.CodeGen.Closure
