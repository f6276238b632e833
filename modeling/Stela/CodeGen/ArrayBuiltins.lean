import Stela.CodeGen.ArrayIndex
import Stela.CodeGen.ArrayLengths
import Stela.Library.Except
import Stela.Library.Objects

/-!
# Arrays with their elements

The functions on arrays of `generate builtin.cpp` and `generate array.cpp`, on a memory of handles, of the storages
that they point to and of the data blocks of these. Elements are values: what their constructors and destructors do in
the rest of the memory is left out. Poison is undefined as soon as something depends on it.

The functions that work on so many elements take pointers that are marked `NonNull`, and get null for an array that has
no block. Whether that is undefined depends on what LLVM makes of the attribute, so both readings are modelled.
-/

namespace Stela.CodeGen.ArrayBuiltins

open Stela.Library Stela.Library.Objects Stela.Library.Poison
open ArrayLengths (Elem ceilToPow2)
open Stela.CodeGen.Array (Index checkSignedBounds checkUnsignedBounds)

/-- An element that is default constructed, and one that has been moved from. `nonNull` says whether it is undefined to
pass null for a pointer to elements that is marked `NonNull`. -/
structure ElemType (V : Type) extends Elem where
  default : V
  moved : V → V
  nonNull : Bool

structure Storage where
  ref : ℤ
  cap : BitVec 32
  len : BitVec 32
  dat : Option ℕ

structure Heap (V : Type) where
  storages : Table Storage
  blocks : Blocks V

/-- A handle is a pointer to a storage, or null after it has been moved from. -/
structure Memory (V : Type) where
  handles : Table (Option ℕ)
  heap : Heap V

/-- The program panics, does something that LLVM leaves undefined, or loses an object that has to be destroyed. -/
inductive Stop where
  | panic | fault
  deriving DecidableEq, Repr

def defined {α : Type} : Option α → Except Stop α
  | some a => .ok a
  | none => .error .fault

/-- The place so many elements further on; `arrayIndex`. -/
def elemAt (dat : Option ℕ) (k : ℕ) : Place := ⟨dat, k⟩

variable {V : Type}

/-! ## Elements -/

section Elements

variable (elem : ElemType V)

/-- Elements that are trivially copyable need not be destroyed. -/
def constructElem (v : V) (p : Place) (bs : Blocks V) : Option (Blocks V) :=
  if elem.cat = .trivially_copyable then write (some v) p bs else construct v p bs

def destroyElem (p : Place) (bs : Blocks V) : Option (Blocks V) :=
  if elem.cat = .trivially_copyable then some bs else destroy p bs

def copyElem (dst src : Place) (bs : Blocks V) : Option (Blocks V) :=
  (load bs src).bind fun v ↦ constructElem elem v dst bs

/-- Move an element and destroy the one that is left. For trivially relocatable elements this is done by copying the
bytes, after which there is no object at the source. -/
def relocateElem (dst src : Place) (bs : Blocks V) : Option (Blocks V) := do
  let v ← load bs src
  let bs ← constructElem elem v dst bs
  match elem.cat with
  | .trivially_copyable => return bs
  | .trivially_relocatable => destroy src bs
  | .nontrivial => do
      let bs ← write (some (elem.moved v)) src bs
      destroy src bs

/-- The loops of `iterImpl` and `copyImpl`, by the index, what is left of the count, and the blocks. -/
def elementLoop (step : ℕ → Blocks V → Option (Blocks V)) : ShrinkingLoop Stop (Blocks V) (ℕ × BitVec 32 × Blocks V) where
  body s :=
    if s.2.1 = 0 then .ok (.inl s.2.2) else do
      let bs ← defined (step s.1 s.2.2)
      let decLen ← defined (nswSub s.2.1 1)
      return .inr (s.1 + 1, decLen, bs)
  size s := s.2.1.toNat
  shrinks := by
    intro s s' h
    split_ifs at h with hzero
    · cases h
    · obtain ⟨bs, -, h⟩ := Except.bind_eq_ok.mp h
      obtain ⟨decLen, hdec, h⟩ := Except.bind_eq_ok.mp h
      cases h
      cases hsub : nswSub s.2.1 1 with
      | none =>
        rw [hsub] at hdec
        cases hdec
      | some c =>
        rw [hsub] at hdec
        cases hdec
        obtain ⟨-, rfl⟩ := nswSub_eq_some.mp hsub
        have hle : (1 : BitVec 32).toNat ≤ s.2.1.toNat :=
          Nat.pos_of_ne_zero fun h ↦ hzero (BitVec.eq_of_toNat_eq h)
        change (s.2.1 - 1).toNat < s.2.1.toNat
        rw [BitVec.toNat_sub_of_le hle]
        exact Nat.sub_lt hle Nat.one_pos

/-- One call of `memset` or `memcpy`; with a byte count that is not that of the elements some are left out. -/
def atOnce (len : BitVec 32) (step : ℕ → Blocks V → Option (Blocks V)) (bs : Blocks V) : Except Stop (Blocks V) := do
  let byteLen ← defined (nswMul len (BitVec.ofNat 32 elem.size))
  if byteLen.toNat = len.toNat * elem.size then defined (each step 0 len.toNat bs) else .error .fault

def eachElem (fast : Bool) (len : BitVec 32) (step : ℕ → Blocks V → Option (Blocks V)) (bs : Blocks V) :
    Except Stop (Blocks V) :=
  if fast then atOnce elem len step bs else (elementLoop step).run (0, len, bs)

/-- Pass a pointer to elements for a parameter that is marked `NonNull`. -/
def passNonNull (dat : Option ℕ) : Except Stop Unit := if elem.nonNull ∧ dat = none then .error .fault else .ok ()

def constructN (dat : Option ℕ) (start : ℕ) (len : BitVec 32) (bs : Blocks V) : Except Stop (Blocks V) := do
  passNonNull elem dat
  eachElem elem (elem.cat = .trivially_copyable) len (fun k ↦ constructElem elem elem.default (elemAt dat (start + k))) bs

/-- The count is not looked at when there is nothing to destroy. -/
def destroyN (dat : Option ℕ) (start : ℕ) (len : Option (BitVec 32)) (bs : Blocks V) : Except Stop (Blocks V) := do
  passNonNull elem dat
  if elem.cat = .trivially_copyable then return bs else do
    let len ← defined len
    (elementLoop fun k ↦ destroyElem elem (elemAt dat (start + k))).run (0, len, bs)

def copyN (src : Option ℕ) (len : BitVec 32) (dst : Option ℕ) (start : ℕ) (bs : Blocks V) :
    Except Stop (Blocks V) := do
  passNonNull elem src
  passNonNull elem dst
  eachElem elem (elem.cat = .trivially_copyable) len
    (fun k ↦ copyElem elem (elemAt dst (start + k)) (elemAt src k)) bs

def moveN (src : Option ℕ) (len : BitVec 32) (dst : Option ℕ) (bs : Blocks V) : Except Stop (Blocks V) := do
  passNonNull elem src
  passNonNull elem dst
  eachElem elem (elem.cat ≠ .nontrivial) len (fun k ↦ relocateElem elem (elemAt dst k) (elemAt src k)) bs

/-- `callAlloc` for elements: the block has the slots that its bytes suffice for. -/
def callAlloc (malloc : Bool) (count : BitVec 32) (bs : Blocks V) : Except Stop (ℕ × Blocks V) :=
  let bytes := BitVec.ofNat 64 elem.size * count.setWidth 64
  let slots := if elem.size = 0 then count.toNat else bytes.toNat / elem.size
  if malloc then .ok (bs.length, Table.add bs (List.replicate slots none)) else .error .panic

/-- `callFree`. An element that has to be destroyed would be lost with its block. -/
def callFree (dat : Option ℕ) (bs : Blocks V) : Except Stop (Blocks V) :=
  match dat with
  | none => .ok bs
  | some b =>
      match Table.item? bs b with
      | none => .error .fault
      | some block =>
          if elem.cat = .trivially_copyable ∨ block.all Option.isNone then .ok (Table.remove bs b) else .error .fault

end Elements

/-! ## Builtin functions -/

section Builtins

variable (elem : ElemType V)

def loadStorage (heap : Heap V) (array : ℕ) : Except Stop Storage := defined (Table.item? heap.storages array)

def storeStorage (heap : Heap V) (array : ℕ) (storage : Storage) (blocks : Blocks V) : Heap V :=
  ⟨Table.put heap.storages array storage, blocks⟩

def reallocate (malloc : Bool) (array : ℕ) (cap : BitVec 32) (heap : Heap V) : Except Stop (Heap V) := do
  let (newDat, blocks) ← callAlloc elem malloc cap heap.blocks
  let storage ← loadStorage heap array
  let blocks ← moveN elem storage.dat storage.len (some newDat) blocks
  let blocks ← callFree elem storage.dat blocks
  return storeStorage heap array { storage with dat := some newDat, cap := cap } blocks

/-- What the functions that add elements do first. -/
def grow (malloc needed : Bool) (array : ℕ) (ceiled : Option (BitVec 32)) (heap : Heap V) : Except Stop (Heap V) :=
  if needed then do
    let cap ← defined ceiled
    reallocate elem malloc array cap heap
  else .ok heap

def btnPushBack (malloc : Bool) (array : ℕ) (value : V) (heap : Heap V) : Except Stop (Heap V) := do
  let storage ← loadStorage heap array
  let lenPlus1 := nswAdd storage.len 1
  let heap ← grow elem malloc (storage.len == storage.cap) array (lenPlus1.bind ceilToPow2) heap
  let storage' ← loadStorage heap array
  let blocks ← defined (constructElem elem value (elemAt storage'.dat storage.len.toNat) heap.blocks)
  let len ← defined lenPlus1
  return storeStorage heap array { storage' with len := len } blocks

def btnAppend (malloc : Bool) (array other : ℕ) (heap : Heap V) : Except Stop (Heap V) := do
  let storage ← loadStorage heap array
  let otherStorage ← loadStorage heap other
  let totalLen ← defined (nswAdd storage.len otherStorage.len)
  let heap ← grow elem malloc (storage.cap.ult totalLen) array (ceilToPow2 totalLen) heap
  let otherStorage' ← loadStorage heap other
  let storage' ← loadStorage heap array
  let blocks ← copyN elem otherStorage'.dat otherStorage.len storage'.dat storage.len.toNat heap.blocks
  return storeStorage heap array { storage' with len := totalLen } blocks

def btnPopBack (array : ℕ) (heap : Heap V) : Except Stop (Heap V) := do
  let storage ← loadStorage heap array
  if storage.len ≠ 0 then do
    let lenMinus1 ← defined (nswSub storage.len 1)
    let blocks ← defined (destroyElem elem (elemAt storage.dat lenMinus1.toNat) heap.blocks)
    return storeStorage heap array { storage with len := lenMinus1 } blocks
  else .error .panic

def btnResize (malloc : Bool) (array : ℕ) (len : BitVec 32) (heap : Heap V) : Except Stop (Heap V) := do
  let storage ← loadStorage heap array
  if len.ule storage.len then do
    let blocks ← destroyN elem storage.dat len.toNat (nswSub storage.len len) heap.blocks
    return storeStorage heap array { storage with len := len } blocks
  else do
    let heap ← grow elem malloc (storage.cap.ult len) array (ceilToPow2 len) heap
    let storage' ← loadStorage heap array
    let constructCount ← defined (nswSub len storage.len)
    let blocks ← constructN elem storage'.dat storage.len.toNat constructCount heap.blocks
    return storeStorage heap array { storage' with len := len } blocks

def btnReserve (malloc : Bool) (array : ℕ) (cap : BitVec 32) (heap : Heap V) : Except Stop (Heap V) := do
  let storage ← loadStorage heap array
  if storage.cap.ult cap then reallocate elem malloc array cap heap else return heap

/-! ## Storages -/

/-- `arr_strg_dtor`. -/
def arrStrgDtor (array : ℕ) (heap : Heap V) : Except Stop (Heap V) := do
  let storage ← loadStorage heap array
  let blocks ← destroyN elem storage.dat 0 (some storage.len) heap.blocks
  let blocks ← callFree elem storage.dat blocks
  return ⟨heap.storages, blocks⟩

/-- `ptr_inc`. -/
def ptrInc (ptr : Option ℕ) (heap : Heap V) : Except Stop (Heap V) :=
  match ptr with
  | none => return heap
  | some array => do
      let storage ← loadStorage heap array
      return storeStorage heap array { storage with ref := storage.ref + 1 } heap.blocks

/-- `ptr_dec`, with `arr_strg_dtor`. -/
def ptrDec (ptr : Option ℕ) (heap : Heap V) : Except Stop (Heap V) :=
  match ptr with
  | none => return heap
  | some array => do
      let storage ← loadStorage heap array
      let subed := storage.ref - 1
      let heap := storeStorage heap array { storage with ref := subed } heap.blocks
      if subed = 0 then do
        let heap ← arrStrgDtor elem array heap
        return ⟨Table.remove heap.storages array, heap.blocks⟩
      else return heap

end Builtins

/-! ## Handles -/

section Handles

variable (elem : ElemType V)

/-- The array that a handle points to. -/
def loadArray (m : Memory V) (obj : ℕ) : Except Stop ℕ := do
  let ptr ← defined (Table.item? m.handles obj)
  defined ptr

/-- Construct a handle, where there is none. -/
def constructHandle (obj : ℕ) (ptr : Option ℕ) (m : Memory V) : Except Stop (Memory V) :=
  match m.handles[obj]? with
  | some none => .ok { m with handles := Table.put m.handles obj ptr }
  | some (some _) | none => .error .fault

/-- `arr_def_ctor`. -/
def arrDefCtor (malloc : Bool) (obj : ℕ) (m : Memory V) : Except Stop (Memory V) :=
  if malloc then
    constructHandle obj (some m.heap.storages.length)
      { m with heap := ⟨Table.add m.heap.storages ⟨1, 0, 0, none⟩, m.heap.blocks⟩ }
  else .error .panic

/-- `arr_len_ctor`, which returns the data block. -/
def arrLenCtor (malloc malloc' : Bool) (obj : ℕ) (size : BitVec 32) (m : Memory V) : Except Stop (ℕ × Memory V) :=
  if malloc then do
    let (dat, blocks) ← callAlloc elem malloc' size m.heap.blocks
    let m ← constructHandle obj (some m.heap.storages.length)
      { m with heap := ⟨Table.add m.heap.storages ⟨1, size, size, some dat⟩, blocks⟩ }
    return (dat, m)
  else .error .panic

/-- `visit(ast::ArrayLiteral &)`: the elements are constructed in their places. -/
def arrayLiteral (malloc malloc' : Bool) (obj : ℕ) (values : List V) (m : Memory V) : Except Stop (Memory V) :=
  if values.isEmpty then arrDefCtor malloc obj m else do
    let (dat, m) ← arrLenCtor elem malloc malloc' obj (BitVec.ofNat 32 values.length) m
    let blocks ← defined (each (fun e bs ↦ values[e]?.bind fun v ↦ constructElem elem v (elemAt (some dat) e) bs) 0
      values.length m.heap.blocks)
    return { m with heap := ⟨m.heap.storages, blocks⟩ }

/-- `arr_cop_ctor`. -/
def arrCopCtor (dst src : ℕ) (m : Memory V) : Except Stop (Memory V) := do
  let ptr ← defined (Table.item? m.handles src)
  let heap ← ptrInc ptr m.heap
  constructHandle dst ptr { m with heap := heap }

/-- `arr_mov_ctor`. -/
def arrMovCtor (dst src : ℕ) (m : Memory V) : Except Stop (Memory V) := do
  let ptr ← defined (Table.item? m.handles src)
  let m ← constructHandle dst ptr m
  return { m with handles := Table.put m.handles src none }

/-- `arr_cop_asgn`. -/
def arrCopAsgn (dst src : ℕ) (m : Memory V) : Except Stop (Memory V) := do
  let dstPtr ← defined (Table.item? m.handles dst)
  let srcPtr ← defined (Table.item? m.handles src)
  let heap ← ptrInc srcPtr m.heap
  let heap ← ptrDec elem dstPtr heap
  return ⟨Table.put m.handles dst srcPtr, heap⟩

/-- `arr_mov_asgn`, which is told that the two handles are different objects. -/
def arrMovAsgn (dst src : ℕ) (m : Memory V) : Except Stop (Memory V) := do
  let dstPtr ← defined (Table.item? m.handles dst)
  let srcPtr ← defined (Table.item? m.handles src)
  if dst = src then .error .fault else do
    let heap ← ptrDec elem dstPtr m.heap
    return ⟨Table.put (Table.put m.handles dst srcPtr) src none, heap⟩

/-- `arr_dtor`; the handle is no object any more. -/
def arrDtor (obj : ℕ) (m : Memory V) : Except Stop (Memory V) := do
  let ptr ← defined (Table.item? m.handles obj)
  let heap ← ptrDec elem ptr m.heap
  return ⟨Table.remove m.handles obj, heap⟩

/-- `arr_idx_s` or `arr_idx_u`, by the type of the index. -/
def arrIdx (obj : ℕ) (index : Index) (m : Memory V) : Except Stop Place := do
  let array ← loadArray m obj
  let storage ← loadStorage m.heap array
  let inBounds := match index with
    | .sint idx => checkSignedBounds idx storage.len
    | .uint idx => checkUnsignedBounds idx storage.len
  if inBounds then return elemAt storage.dat index.bits.toNat else .error .panic

end Handles

/-! ## Operations -/

/-- What a program does with arrays. The address of an element is only used at once. -/
inductive Op (V : Type) where
  /-- Room for a handle on the stack. -/
  | alloca
  | defCtor (obj : ℕ)
  | literal (obj : ℕ) (values : List V)
  | copCtor (dst src : ℕ)
  | movCtor (dst src : ℕ)
  | copAsgn (dst src : ℕ)
  | movAsgn (dst src : ℕ)
  | dtor (obj : ℕ)
  | pushBack (obj : ℕ) (value : V)
  | append (obj other : ℕ)
  | popBack (obj : ℕ)
  | resize (obj : ℕ) (len : BitVec 32)
  | reserve (obj : ℕ) (cap : BitVec 32)
  | store (obj : ℕ) (index : Index) (value : V)
  | load (obj : ℕ) (index : Index)
  | size (obj : ℕ)
  | capacity (obj : ℕ)

/-- An operation, and whether `malloc` gives a first and a second block. -/
structure Call (V : Type) where
  op : Op V
  malloc : Bool
  malloc' : Bool

inductive Reply (V : Type) where
  | nothing
  | number (n : ℕ)
  | value (v : V)

section

variable (elem : ElemType V)

/-- Work on the array that a handle points to. -/
def withArray (obj : ℕ) (f : ℕ → Heap V → Except Stop (Heap V)) (m : Memory V) : Except Stop (Memory V) := do
  let array ← loadArray m obj
  let heap ← f array m.heap
  return { m with heap := heap }

def exec (call : Call V) (m : Memory V) : Except Stop (Memory V × Reply V) :=
  match call.op with
  | .alloca => .ok ({ m with handles := m.handles ++ [none] }, .nothing)
  | .defCtor obj => (arrDefCtor call.malloc obj m).map (·, .nothing)
  | .literal obj values => (arrayLiteral elem call.malloc call.malloc' obj values m).map (·, .nothing)
  | .copCtor dst src => (arrCopCtor dst src m).map (·, .nothing)
  | .movCtor dst src => (arrMovCtor dst src m).map (·, .nothing)
  | .copAsgn dst src => (arrCopAsgn elem dst src m).map (·, .nothing)
  | .movAsgn dst src => (arrMovAsgn elem dst src m).map (·, .nothing)
  | .dtor obj => (arrDtor elem obj m).map (·, .nothing)
  | .pushBack obj value => (withArray obj (btnPushBack elem call.malloc · value) m).map (·, .nothing)
  | .append obj other => do
      let otherArray ← loadArray m other
      (withArray obj (btnAppend elem call.malloc · otherArray) m).map (·, .nothing)
  | .popBack obj => (withArray obj (btnPopBack elem) m).map (·, .nothing)
  | .resize obj len => (withArray obj (btnResize elem call.malloc · len) m).map (·, .nothing)
  | .reserve obj cap => (withArray obj (btnReserve elem call.malloc · cap) m).map (·, .nothing)
  | .store obj index value => do
      let place ← arrIdx obj index m
      let _ ← defined (load m.heap.blocks place)
      let blocks ← defined (write (some value) place m.heap.blocks)
      return (⟨m.handles, ⟨m.heap.storages, blocks⟩⟩, .nothing)
  | .load obj index => do
      let place ← arrIdx obj index m
      let v ← defined (load m.heap.blocks place)
      return (m, .value v)
  | .size obj => do
      let array ← loadArray m obj
      let storage ← loadStorage m.heap array
      return (m, .number storage.len.toNat)
  | .capacity obj => do
      let array ← loadArray m obj
      let storage ← loadStorage m.heap array
      return (m, .number storage.cap.toNat)

/-- The memory after an operation that returns. -/
def step (m : Memory V) (call : Call V) : Option (Memory V) := (exec elem call m).toOption.map Prod.fst

def Memory.empty : Memory V := ⟨[], ⟨[], []⟩⟩

end

end Stela.CodeGen.ArrayBuiltins
