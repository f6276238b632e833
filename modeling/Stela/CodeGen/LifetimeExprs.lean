import Stela.CodeGen.Categories

/-!
# Type-directed generation

`lifetime exprs.cpp`, `compare exprs.cpp` and the functions they instantiate (`generate array.cpp`,
`generate struct.cpp`, `generate class.cpp`, `generate builtin.cpp`), up to the instructions: what is kept is
which functions are asked for at which types, and the assertions and `UNREACHABLE`s on the way. `FuncInst` looks
a function up under the LLVM type of its parameter before it generates it; which types share an LLVM type
is left open.
-/

namespace Stela.CodeGen.LifetimeExprs

open Stela.Syntax

inductive Fault where
  | unreachable
  | assertion
  deriving DecidableEq, Repr

/-- `PFGI`, the functions that are instantiated for a type. -/
inductive PFGI where
  | construct_n | destroy_n | copy_n | move_n | reallocate
  | btn_capacity | btn_size | btn_data | btn_push_back | btn_append | btn_pop_back | btn_resize | btn_reserve
  | arr_dtor | arr_def_ctor | arr_cop_ctor | arr_cop_asgn | arr_mov_ctor | arr_mov_asgn
  | arr_strg_dtor | arr_eq | arr_lt
  | srt_dtor | srt_def_ctor | srt_cop_ctor | srt_cop_asgn | srt_mov_ctor | srt_mov_asgn | srt_eq | srt_lt
  | clo_stub | clo_dtor | clo_def_ctor | clo_cop_ctor | clo_cop_asgn | clo_mov_ctor | clo_mov_asgn
  | clo_eq | clo_lt
  | usr_dtor | usr_def_ctor | usr_cop_ctor | usr_cop_asgn | usr_mov_ctor | usr_mov_asgn | usr_eq | usr_lt
  deriving DecidableEq, Repr

/-- The functions generated so far, with the types they were generated for. -/
abbrev FuncInst := List (PFGI × Ty)

abbrev Emit := StateT FuncInst (Except Fault)

namespace Emit

def unreachable : Emit Unit :=
  throw .unreachable

def assert (cond : Bool) : Emit Unit :=
  if cond then pure () else throw .assertion

end Emit

/-- The operations of `LifetimeExpr`. -/
inductive LifetimeOp where
  | defConstruct | copyConstruct | moveConstruct | copyAssign | moveAssign | destroy
  deriving DecidableEq, Repr

namespace LifetimeOp

/-- What happens to an object of builtin type: only a default value depends on the type. -/
def builtin : LifetimeOp → BtnType → Emit Unit
  | defConstruct, .void | defConstruct, .opaq => Emit.unreachable
  | _, _ => pure ()

def arr : LifetimeOp → PFGI
  | defConstruct => .arr_def_ctor
  | copyConstruct => .arr_cop_ctor
  | moveConstruct => .arr_mov_ctor
  | copyAssign => .arr_cop_asgn
  | moveAssign => .arr_mov_asgn
  | destroy => .arr_dtor

/-- Whether the function for arrays passes the destructor of the storage on. -/
def dropsStorage : LifetimeOp → Bool
  | copyAssign | moveAssign | destroy => true
  | defConstruct | copyConstruct | moveConstruct => false

def clo : LifetimeOp → PFGI
  | defConstruct => .clo_def_ctor
  | copyConstruct => .clo_cop_ctor
  | moveConstruct => .clo_mov_ctor
  | copyAssign => .clo_cop_asgn
  | moveAssign => .clo_mov_asgn
  | destroy => .clo_dtor

def srt : LifetimeOp → PFGI
  | defConstruct => .srt_def_ctor
  | copyConstruct => .srt_cop_ctor
  | moveConstruct => .srt_mov_ctor
  | copyAssign => .srt_cop_asgn
  | moveAssign => .srt_mov_asgn
  | destroy => .srt_dtor

def usr : LifetimeOp → PFGI
  | defConstruct => .usr_def_ctor
  | copyConstruct => .usr_cop_ctor
  | moveConstruct => .usr_mov_ctor
  | copyAssign => .usr_cop_asgn
  | moveAssign => .usr_mov_asgn
  | destroy => .usr_dtor

/-- The native function that a user type provides for the operation. -/
def ctor : LifetimeOp → UserCtors → UserCtor
  | defConstruct => UserCtors.defCtor
  | copyConstruct => UserCtors.copCtor
  | moveConstruct => UserCtors.movCtor
  | copyAssign => UserCtors.copAsgn
  | moveAssign => UserCtors.movAsgn
  | destroy => UserCtors.dtor

end LifetimeOp

/-- The two comparisons that the others are made of. -/
inductive CompareOp where
  | eq | lt
  deriving DecidableEq, Repr

namespace CompareOp

def arr : CompareOp → PFGI
  | eq => .arr_eq
  | lt => .arr_lt

def clo : CompareOp → PFGI
  | eq => .clo_eq
  | lt => .clo_lt

def srt : CompareOp → PFGI
  | eq => .srt_eq
  | lt => .srt_lt

def usr : CompareOp → PFGI
  | eq => .usr_eq
  | lt => .usr_lt

def ctor : CompareOp → UserCtors → UserCtor
  | eq => UserCtors.eq
  | lt => UserCtors.lt

end CompareOp

section Generators

-- Whether `FuncInst` already has the function under the LLVM type of the parameter.
variable (found : FuncInst → PFGI → Ty → Bool)

/-- `FuncInst::get`. The function is entered into the table once it has been generated. -/
def getInst (fn : PFGI) (param : Ty) (genFn : Emit Unit) : Emit Unit := do
  let inst ← get
  if found inst fn param then pure ()
  else
    genFn
    modify fun inst ↦ (fn, param) :: inst

mutual

/-- An operation of `LifetimeExpr` on an object of the given type. -/
def lifetime (op : LifetimeOp) : Ty → Emit Unit
  | .btn value => op.builtin value
  | .array elem =>
      getInst found op.arr (.array elem)
        (if op.dropsStorage then
          getInst found .arr_strg_dtor (.array elem)
            (getInst found .destroy_n elem
              (if isTriviallyCopyable elem then pure () else lifetime .destroy elem))
        else pure ())
  | .func params ret =>
      getInst found op.clo (.func params ret)
        (if op = .defConstruct then getInst found .clo_stub (.func params ret) (pure ()) else pure ())
  | .named _ _ _ type => lifetime op type
  | .struct fields => getInst found op.srt (.struct fields) (lifetimeFields op fields)
  | .user fields size align ctors => do
      Emit.assert ((op.ctor ctors).addr != UserCtor.none)
      if (op.ctor ctors).addr == UserCtor.trivial then pure ()
      else getInst found op.usr (.user fields size align ctors) (pure ())

/-- `unarySrt` and `binarySrt`. -/
def lifetimeFields (op : LifetimeOp) : List (String × Ty) → Emit Unit
  | [] => pure ()
  | (_, type) :: fields => do
      lifetime op type
      lifetimeFields op fields

end

def defConstruct : Ty → Emit Unit := lifetime found .defConstruct

def copyConstruct : Ty → Emit Unit := lifetime found .copyConstruct

def moveConstruct : Ty → Emit Unit := lifetime found .moveConstruct

def copyAssign : Ty → Emit Unit := lifetime found .copyAssign

def moveAssign : Ty → Emit Unit := lifetime found .moveAssign

def destroy : Ty → Emit Unit := lifetime found .destroy

/-- `LifetimeExpr::construct`, from a value of the given category. -/
def construct (type : Ty) (cat : ValueCat) : Emit Unit :=
  if isTriviallyCopyable type then pure ()
  else
    match cat with
    | .lvalue => copyConstruct found type
    | .xvalue => moveConstruct found type
    | .prvalue => pure ()

/-- `LifetimeExpr::assign`. -/
def assign (type : Ty) (cat : ValueCat) : Emit Unit :=
  if isTriviallyCopyable type then pure ()
  else
    match cat with
    | .lvalue => copyAssign found type
    | .xvalue => moveAssign found type
    | .prvalue => do
        moveAssign found type
        destroy found type

/-- The instruction for two builtin values is chosen by `classifyArith`. -/
def compareBtn (value : BtnType) : Emit Unit :=
  match classifyArith value with
  | some _ => pure ()
  | none => Emit.unreachable

mutual

/-- `CompareExpr::eq` and `CompareExpr::lt`. The functions for `lt` compare both ways round. -/
def compare (op : CompareOp) : Ty → Emit Unit
  | .btn value => compareBtn value
  | .array elem =>
      getInst found op.arr (.array elem) do
        compare op elem
        if op = .lt then compare op elem else pure ()
  | .func params ret => getInst found op.clo (.func params ret) (pure ())
  | .named _ _ _ type => compare op type
  | .struct fields => getInst found op.srt (.struct fields) (compareFields op fields)
  | .user fields size align ctors => do
      Emit.assert ((op.ctor ctors).addr != UserCtor.none)
      Emit.assert ((op.ctor ctors).addr != UserCtor.trivial)
      getInst found op.usr (.user fields size align ctors) (pure ())

def compareFields (op : CompareOp) : List (String × Ty) → Emit Unit
  | [] => pure ()
  | (_, type) :: fields => do
      compare op type
      (if op = .lt then compare op type else pure ())
      compareFields op fields

end

/-- The comparison that an operator is made of: `ne` negates `eq`, and the others are `lt` with its operands
swapped or its result negated. -/
def compareOp : BinOp → CompareOp
  | .eq | .ne => .eq
  | _ => .lt

/-! ## Builtin functions on arrays -/

/-- `iterImpl`. -/
def iterImpl (fn : PFGI) (op : LifetimeOp) (elem : Ty) : Emit Unit :=
  getInst found fn elem (if isTriviallyCopyable elem then pure () else lifetime found op elem)

def construct_n : Ty → Emit Unit := iterImpl found .construct_n .defConstruct

def destroy_n : Ty → Emit Unit := iterImpl found .destroy_n .destroy

/-- `copyImpl` with `CopyType::copy`. -/
def copy_n (elem : Ty) : Emit Unit :=
  getInst found .copy_n elem (if isTriviallyCopyable elem then pure () else copyConstruct found elem)

/-- `copyImpl` with `CopyType::move`. -/
def move_n (elem : Ty) : Emit Unit :=
  getInst found .move_n elem
    (if classifyType elem ≠ .nontrivial then pure ()
    else do
      moveConstruct found elem
      destroy found elem)

def reallocate (elem : Ty) : Emit Unit :=
  getInst found .reallocate (.array elem) (move_n found elem)

/-- `getBtnFunc`, on arrays of the given element type. -/
def getBtnFunc (func : BtnFunc) (elem : Ty) : Emit Unit :=
  match func with
  | .capacity => getInst found .btn_capacity (.array elem) (pure ())
  | .size => getInst found .btn_size (.array elem) (pure ())
  | .data => getInst found .btn_data (.array elem) (pure ())
  | .push_back =>
      getInst found .btn_push_back (.array elem) do
        reallocate found elem
        if isTriviallyCopyable elem then pure () else copyConstruct found elem
  | .append =>
      getInst found .btn_append (.array elem) do
        reallocate found elem
        copy_n found elem
  | .pop_back => getInst found .btn_pop_back (.array elem) (destroy found elem)
  | .resize =>
      getInst found .btn_resize (.array elem) do
        destroy_n found elem
        reallocate found elem
        construct_n found elem
  | .reserve => getInst found .btn_reserve (.array elem) (reallocate found elem)

end Generators

end Stela.CodeGen.LifetimeExprs
