import Stela.CodeGen.ArrayHeaps
import Stela.Library.Machine

/-!
# Arrays are lists

What a program sees of arrays: handles that share lists with room for more. Whatever it does with them, the memory
holds these lists, each as long as there is a handle to it, and nothing else.
-/

namespace Stela.CodeGen.ArrayBuiltins

open Stela.Library Stela.Library.Objects Stela.Library.Poison
open ArrayLengths (WriteFits Fits)
open Stela.CodeGen.Array (Index)

variable {V : Type} {elem : ElemType V}

/-! ## Lists -/

/-- Handles that point to lists; one that has been moved from points to none. -/
structure Arrays (V : Type) where
  handles : Table (Option ℕ)
  arrays : Table (Growable V)

/-- The number of handles that point to an array. -/
def counts (handles : Table (Option ℕ)) (p : ℕ) : ℕ := handles.count (some (some p))

namespace Arrays

variable (a : Arrays V)

/-- The array that a handle points to. -/
def pointee (obj : ℕ) : Option (ℕ × Growable V) := do
  let p ← (Table.item? a.handles obj).join
  let g ← Table.item? a.arrays p
  return (p, g)

def update (obj : ℕ) (f : Growable V → Growable V) : Option (Arrays V) :=
  (a.pointee obj).map fun (p, g) ↦ { a with arrays := Table.put a.arrays p (f g) }

/-- A new array with a handle. -/
def make (obj : ℕ) (items : List V) : Arrays V :=
  ⟨Table.put a.handles obj (some a.arrays.length), Table.add a.arrays (.ofList items)⟩

/-- The handles change, and one of them pointed there before. -/
def release (handles : Table (Option ℕ)) (ptr : Option ℕ) : Arrays V :=
  ⟨handles, collect (counts handles) ptr a.arrays⟩

end Arrays

/-- The element with an index. -/
def itemAt (g : Growable V) (index : Index) : Option V := if 0 ≤ index.value then g.items[index.value.toNat]? else none

/-- What an operation does, unless it panics. -/
def effect (default : V) (op : Op V) (a : Arrays V) : Option (Arrays V × Reply V) :=
  match op with
  | .alloca => some ({ a with handles := a.handles ++ [none] }, .nothing)
  | .defCtor obj => some (a.make obj [], .nothing)
  | .literal obj values => some (a.make obj values, .nothing)
  | .copCtor dst src => do
      let ptr ← Table.item? a.handles src
      return ({ a with handles := Table.put a.handles dst ptr }, .nothing)
  | .movCtor dst src => do
      let ptr ← Table.item? a.handles src
      return ({ a with handles := Table.put (Table.put a.handles dst ptr) src none }, .nothing)
  | .copAsgn dst src => do
      let dstPtr ← Table.item? a.handles dst
      let srcPtr ← Table.item? a.handles src
      return (a.release (Table.put a.handles dst srcPtr) dstPtr, .nothing)
  | .movAsgn dst src => do
      let dstPtr ← Table.item? a.handles dst
      let srcPtr ← Table.item? a.handles src
      return (a.release (Table.put (Table.put a.handles dst srcPtr) src none) dstPtr, .nothing)
  | .dtor obj => do
      let ptr ← Table.item? a.handles obj
      return (a.release (Table.remove a.handles obj) ptr, .nothing)
  | .pushBack obj value => (a.update obj (·.append [value])).map (·, .nothing)
  | .append obj other => do
      let (_, g) ← a.pointee other
      (a.update obj (·.append g.items)).map (·, .nothing)
  | .popBack obj => do
      let (_, g) ← a.pointee obj
      if g.items = [] then none else (a.update obj Growable.pop).map (·, .nothing)
  | .resize obj len => (a.update obj (·.resize default len.toNat)).map (·, .nothing)
  | .reserve obj cap => (a.update obj (·.reserve cap.toNat)).map (·, .nothing)
  | .store obj index value => do
      let (_, g) ← a.pointee obj
      let _ ← itemAt g index
      (a.update obj (·.set index.value.toNat value)).map (·, .nothing)
  | .load obj index => do
      let (_, g) ← a.pointee obj
      (itemAt g index).map (a, .value ·)
  | .size obj => (a.pointee obj).map fun (_, g) ↦ (a, .number g.items.length)
  | .capacity obj => (a.pointee obj).map fun (_, g) ↦ (a, .number g.room)

/-- There is no handle to the array any more, and it has no room. -/
def Arrays.DropsEmpty (a : Arrays V) (handles : Table (Option ℕ)) (ptr : Option ℕ) : Prop :=
  ∃ p g, ptr = some p ∧ counts handles p = 0 ∧ Table.item? a.arrays p = some g ∧ g.room = 0

/-- An array without room has no block, so null is passed when it is destroyed, gets room, is resized to nothing or
appended, and when an array without elements is appended to it. -/
def PassesNull (a : Arrays V) (call : Call V) : Prop :=
  match call.op with
  | .copAsgn dst src => ∃ dstPtr srcPtr, Table.item? a.handles dst = some dstPtr ∧ Table.item? a.handles src = some srcPtr ∧
      a.DropsEmpty (Table.put a.handles dst srcPtr) dstPtr
  | .movAsgn dst src => ∃ dstPtr srcPtr, Table.item? a.handles dst = some dstPtr ∧ Table.item? a.handles src = some srcPtr ∧
      a.DropsEmpty (Table.put (Table.put a.handles dst srcPtr) src none) dstPtr
  | .dtor obj => ∃ ptr, Table.item? a.handles obj = some ptr ∧ a.DropsEmpty (Table.remove a.handles obj) ptr
  | .pushBack obj _ => ∃ p g, a.pointee obj = some (p, g) ∧ g.room = 0 ∧ call.malloc = true
  | .append obj other => ∃ p g q g', a.pointee obj = some (p, g) ∧ a.pointee other = some (q, g') ∧
      (g'.room = 0 ∨ g.room = 0 ∧ (call.malloc = true ∨ g'.items = []))
  | .resize obj len => ∃ p g, a.pointee obj = some (p, g) ∧ g.room = 0 ∧ (len = 0 ∨ call.malloc = true)
  | .reserve obj cap => ∃ p g, a.pointee obj = some (p, g) ∧ g.room = 0 ∧ cap ≠ 0 ∧ call.malloc = true
  | _ => False

/-! ## What the operations are used with -/

section Within

variable (m : Memory V) (obj : ℕ)

/-- There is room for a handle, and no handle yet. -/
def Raw : Prop := m.handles[obj]? = some none

def IsHandle : Prop := ∃ ptr, Table.item? m.handles obj = some ptr

/-- The handle points to an array whose storage has the property. -/
def OnArray (P : Storage → Prop) : Prop :=
  ∃ p storage, Table.item? m.handles obj = some (some p) ∧ Table.item? m.heap.storages p = some storage ∧ P storage

/-- The elements that are destroyed with the array can be counted. -/
def Releasable (elem : ElemType V) : Prop :=
  ∀ p storage, Table.item? m.handles obj = some (some p) → Table.item? m.heap.storages p = some storage →
    elem.cat ≠ .trivially_copyable → SignedFits 32 storage.len.toNat

/-- The handles are there, and the numbers fit into their types. -/
def Within (elem : ElemType V) (m : Memory V) (call : Call V) : Prop :=
  match call.op with
  | .alloca => True
  | .defCtor obj => Raw m obj
  | .literal obj values => Raw m obj ∧ values.length < 2 ^ 32 ∧ values.length * elem.size < 2 ^ 64
  | .copCtor dst src | .movCtor dst src => Raw m dst ∧ IsHandle m src
  | .copAsgn dst src => IsHandle m dst ∧ IsHandle m src ∧ Releasable m dst elem
  | .movAsgn dst src => IsHandle m dst ∧ IsHandle m src ∧ dst ≠ src ∧ Releasable m dst elem
  | .dtor obj => IsHandle m obj ∧ Releasable m obj elem
  | .pushBack obj _ => OnArray m obj fun st ↦ Fits elem.toElem (st.numbers elem) ⟨.pushBack, call.malloc⟩
  | .append obj other => OnArray m obj fun st ↦ OnArray m other fun st' ↦
      Fits elem.toElem (st.numbers elem) ⟨.append st'.len, call.malloc⟩
  | .popBack obj => OnArray m obj fun st ↦ Fits elem.toElem (st.numbers elem) ⟨.popBack, call.malloc⟩
  | .resize obj len => OnArray m obj fun st ↦ Fits elem.toElem (st.numbers elem) ⟨.resize len, call.malloc⟩
  | .reserve obj cap => OnArray m obj fun st ↦ Fits elem.toElem (st.numbers elem) ⟨.reserve cap, call.malloc⟩
  | .store obj index _ | .load obj index => OnArray m obj fun st ↦ index.type = .sint → SignedFits 32 st.len.toNat
  | .size obj | .capacity obj => OnArray m obj fun _ ↦ True

end Within

/-- The memory holds these arrays. -/
structure Refines (elem : ElemType V) (m : Memory V) (a : Arrays V) : Prop where
  handles : m.handles = a.handles
  owned : Owned elem (counts m.handles) m.heap a.arrays

/-- The operation replies what it replies on lists and does to the memory what it does to the lists; it panics where it
has nothing to reply or gets no block. It does something undefined just where it passes null for a pointer that is
marked `NonNull`, if that is undefined, and it never loses an object. -/
structure Agrees (elem : ElemType V) (m : Memory V) (a : Arrays V) (call : Call V) : Prop where
  null : elem.nonNull = true → PassesNull a call → exec elem call m = .error .fault
  defined : ¬(elem.nonNull = true ∧ PassesNull a call) →
    Meets (exec elem call m) (effect elem.default call.op a = none ∨ call.malloc = false ∨ call.malloc' = false) fun r ↦
      ∃ a', effect elem.default call.op a = some (a', r.2) ∧ Refines elem r.1 a'

/-! ## Counting handles -/

section

variable {handles : Table (Option ℕ)} {obj : ℕ} {ptr ptr' : Option ℕ}

/-- An entry changes from one slot to another. -/
theorem count_set {old : Option (Option ℕ)} (hold : handles[obj]? = some old) (new slot : Option (Option ℕ)) :
    (handles.set obj new).count slot + (if old = slot then 1 else 0) = handles.count slot + if new = slot then 1 else 0 := by
  induction handles generalizing obj with
  | nil => cases hold
  | cons first handles ih =>
    cases obj with
    | zero =>
      cases hold
      simp only [List.set_cons_zero, List.count_cons, beq_iff_eq]
      omega
    | succ obj =>
      have hrest := ih hold
      simp only [List.set_cons_succ, List.count_cons, beq_iff_eq]
      omega

theorem getElem?_of_item? (h : Table.item? handles obj = some ptr) : handles[obj]? = some (some ptr) :=
  Option.join_eq_some_iff.mp h

theorem counts_construct (h : handles[obj]? = some none) : counts (Table.put handles obj ptr) = addRef ptr (counts handles) := by
  funext p
  have hcount := count_set h (some ptr) (some (some p))
  simp only [reduceCtorEq, if_false, Nat.add_zero, Option.some.injEq] at hcount
  exact hcount

theorem counts_put (h : Table.item? handles obj = some ptr) :
    addRef ptr (counts (Table.put handles obj ptr')) = addRef ptr' (counts handles) := by
  funext p
  have hcount := count_set (getElem?_of_item? h) (some ptr') (some (some p))
  simp only [Option.some.injEq] at hcount
  exact hcount

theorem counts_remove (h : Table.item? handles obj = some ptr) :
    addRef ptr (counts (Table.remove handles obj)) = counts handles := by
  funext p
  have hcount := count_set (getElem?_of_item? h) none (some (some p))
  simp only [reduceCtorEq, if_false, Nat.add_zero, Option.some.injEq] at hcount
  exact hcount

theorem counts_alloca : counts (handles ++ [none]) = counts handles := by
  funext p
  exact List.count_append.trans (Nat.add_zero _)

theorem counts_pos {p : ℕ} (h : Table.item? handles obj = some (some p)) : 0 < counts handles p :=
  List.count_pos_iff.mpr (List.mem_of_getElem? (getElem?_of_item? h))

end

/-! ## One operation -/

section

variable {m : Memory V} {a : Arrays V} {obj p : ℕ} {g : Growable V} {storage : Storage} {reason : Prop}

theorem loadArray_eq (hobj : Table.item? m.handles obj = some (some p)) : loadArray m obj = .ok p := by
  rw [loadArray, hobj]
  rfl

theorem constructHandle_eq {handles : Table (Option ℕ)} {heap : Heap V} {ptr : Option ℕ} (h : handles[obj]? = some none) :
    constructHandle obj ptr ⟨handles, heap⟩ = .ok ⟨Table.put handles obj ptr, heap⟩ := by
  rw [constructHandle, h]

theorem Refines.pointee (h : Refines elem m a) (hobj : Table.item? m.handles obj = some (some p))
    (hp : Table.item? m.heap.storages p = some storage) :
    ∃ g, a.pointee obj = some (p, g) ∧ Table.item? a.arrays p = some g ∧ Holds elem m.heap.blocks storage g := by
  obtain ⟨g, hg, hholds, -⟩ := h.owned.storage hp
  refine ⟨g, ?_, hg, hholds⟩
  rw [Arrays.pointee, ← h.handles, hobj]
  change (Table.item? a.arrays p).bind (fun g ↦ some (p, g)) = _
  rw [hg]
  rfl

/-- What an operation on one array does to the memory. -/
theorem meets_withArray (h : Refines elem m a) (hobj : Table.item? m.handles obj = some (some p))
    (hpointee : a.pointee obj = some (p, g)) {f : ℕ → Heap V → Except Stop (Heap V)} {F : Growable V → Growable V}
    (hf : Meets (f p m.heap) reason fun heap ↦ Owned elem (counts m.handles) heap (Table.put a.arrays p (F g))) :
    Meets ((withArray obj f m).map (·, (.nothing : Reply V))) reason fun r ↦
      ∃ a', (a.update obj F).map (·, (.nothing : Reply V)) = some (a', r.2) ∧ Refines elem r.1 a' := by
  refine Meets.map (P := fun m' ↦ ∃ a', a.update obj F = some a' ∧ Refines elem m' a') ?_ ?_
  · refine meets_ok (loadArray_eq hobj) (hf.bind fun heap hheap ↦ ?_)
    refine ⟨{ a with arrays := Table.put a.arrays p (F g) }, ?_, h.handles, hheap⟩
    rw [Arrays.update, hpointee]
    rfl
  · rintro m' ⟨a', hupdate, hrefines⟩
    exact ⟨a', by rw [hupdate]; rfl, hrefines⟩

theorem value_eq_toNat {idx : BitVec 32} (h : 0 ≤ idx.toInt) : idx.toInt = idx.toNat := by
  rw [BitVec.toInt_eq_toNat_cond] at h ⊢
  have := idx.isLt
  split_ifs at h ⊢ <;> omega

theorem itemAt_eq_none {index : Index} : itemAt g index = none ↔ ¬(0 ≤ index.value ∧ index.value < g.items.length) := by
  rw [itemAt]
  split_ifs with hnonneg
  · rw [List.getElem?_eq_none_iff]
    omega
  · exact iff_of_true rfl fun h ↦ hnonneg h.1

theorem itemAt_eq_some {index : Index} {k : ℕ} (hk : k < g.items.length) (hvalue : index.value = k) :
    itemAt g index = some g.items[k] := by
  rw [itemAt, if_pos (hvalue ▸ Int.natCast_nonneg k), hvalue, Int.toNat_natCast, List.getElem?_eq_getElem hk]

/-- The place of an element; the index is in bounds exactly if there is one. -/
theorem arrIdx_spec (hobj : Table.item? m.handles obj = some (some p)) (hp : Table.item? m.heap.storages p = some storage)
    (hholds : Holds elem m.heap.blocks storage g) {index : Index}
    (hsigned : index.type = .sint → SignedFits 32 storage.len.toNat) :
    Meets (arrIdx obj index m) (itemAt g index = none) fun place ↦
      ∃ k, k < g.items.length ∧ index.value = k ∧ place = elemAt storage.dat k := by
  refine meets_ok (loadArray_eq hobj) (meets_ok (loadStorage_eq hp) ?_)
  cases index with
  | uint idx =>
    have hcheck : Array.checkUnsignedBounds idx storage.len = true ↔ idx.toNat < g.items.length := by
      rw [Array.checkUnsignedBounds, BitVec.ult, decide_eq_true_iff, hholds.len]
    by_cases hlt : idx.toNat < g.items.length
    · change Meets (if Array.checkUnsignedBounds idx storage.len = true then _ else _) _ _
      rw [if_pos (hcheck.mpr hlt)]
      exact ⟨idx.toNat, hlt, rfl, rfl⟩
    · change Meets (if Array.checkUnsignedBounds idx storage.len = true then _ else _) _ _
      rw [if_neg fun h ↦ hlt (hcheck.mp h)]
      exact itemAt_eq_none.mpr fun h ↦ hlt (Int.ofNat_lt.mp h.2)
  | sint idx =>
    have hlen : storage.len.toInt = g.items.length := by
      have hfits : storage.len.toNat < 2 ^ 31 := hsigned rfl
      rw [BitVec.toInt_eq_toNat_cond, if_pos (by omega), hholds.len]
    have hcheck : Array.checkSignedBounds idx storage.len = true ↔ 0 ≤ idx.toInt ∧ idx.toInt < g.items.length := by
      rw [Array.checkSignedBounds, Bool.and_eq_true, BitVec.sle_iff_toInt_le, BitVec.slt_iff_toInt_lt, BitVec.toInt_zero,
        hlen]
    by_cases hbounds : 0 ≤ idx.toInt ∧ idx.toInt < g.items.length
    · change Meets (if Array.checkSignedBounds idx storage.len = true then _ else _) _ _
      rw [if_pos (hcheck.mpr hbounds)]
      have hvalue := value_eq_toNat hbounds.1
      exact ⟨idx.toNat, Int.ofNat_lt.mp (hvalue ▸ hbounds.2), hvalue, rfl⟩
    · change Meets (if Array.checkSignedBounds idx storage.len = true then _ else _) _ _
      rw [if_neg fun h ↦ hbounds (hcheck.mp h)]
      exact itemAt_eq_none.mpr hbounds

/-- The elements of a literal are constructed in their places. -/
theorem fill_spec {bs : Blocks V} {b : ℕ} {values : List V} (h : Filled elem bs (some b) [] values.length) :
    ∃ bs', each (fun e bs ↦ values[e]?.bind fun v ↦ constructElem elem v (elemAt (some b) e) bs) 0 values.length bs =
      some bs' ∧ Filled elem bs' (some b) values values.length ∧ Touches (some b) bs bs' := by
  have hfill : ∃ bs', each (fun e bs ↦ values[e]?.bind fun v ↦ constructElem elem v (elemAt (some b) e) bs) 0 values.length bs =
      some bs' ∧ Filled elem bs' (some b) (values.take values.length) values.length ∧ Touches (some b) bs bs' := by
    refine each_induct (fun i bs' ↦ Filled elem bs' (some b) (values.take i) values.length ∧ Touches (some b) bs bs')
      ⟨h, .refl _ bs⟩ ?_
    rintro i hi bs₁ ⟨hfilled, htouches⟩
    have htake : (values.take i).length = i := by rw [List.length_take, Nat.min_eq_left hi.le]
    obtain ⟨bs₂, hconstruct, hfilled', htouches'⟩ := constructElem_spec values[i] hfilled (by omega)
    rw [htake] at hconstruct
    rw [List.take_append_getElem hi] at hfilled'
    refine ⟨bs₂, ?_, hfilled', htouches.trans htouches'⟩
    rw [Nat.zero_add, List.getElem?_eq_getElem hi]
    exact hconstruct
  rwa [List.take_length] at hfill

/-- A handle to a new array. -/
theorem Refines.make (h : Refines elem m a) (hraw : Raw m obj) {heap : Heap V} {items : List V}
    (hheap : Owned elem (addRef (some m.heap.storages.length) (counts m.handles)) heap
      (Table.add a.arrays (.ofList items))) :
    Refines elem ⟨Table.put m.handles obj (some m.heap.storages.length), heap⟩ (a.make obj items) := by
  refine ⟨?_, (counts_construct hraw).symm ▸ hheap⟩
  change Table.put m.handles obj _ = Table.put a.handles obj _
  rw [h.handles, h.owned.length]

theorem arrDefCtor_spec (h : Refines elem m a) (hraw : Raw m obj) (malloc : Bool) :
    Meets (arrDefCtor malloc obj m) (malloc = false) fun m' ↦ Refines elem m' (a.make obj []) := by
  cases malloc with
  | false => exact (rfl : false = false)
  | true =>
    have hheap : Owned elem (addRef (some m.heap.storages.length) (counts m.handles))
        ⟨Table.add m.heap.storages ⟨1, 0, 0, none⟩, m.heap.blocks⟩ (Table.add a.arrays (.ofList [])) :=
      h.owned.make rfl ⟨fun _ _ _ ↦ rfl, nofun, nofun⟩ ⟨rfl, rfl, ⟨rfl, rfl⟩, fun _ ↦ rfl⟩
    rw [arrDefCtor, if_pos rfl, constructHandle_eq hraw]
    exact h.make hraw hheap

theorem arrayLiteral_spec (h : Refines elem m a) (hraw : Raw m obj) {values : List V} (hlength : values.length < 2 ^ 32)
    (hbytes : values.length * elem.size < 2 ^ 64) (malloc malloc' : Bool) :
    Meets (arrayLiteral elem malloc malloc' obj values m) (malloc = false ∨ malloc' = false) fun m' ↦
      Refines elem m' (a.make obj values) := by
  rw [arrayLiteral]
  by_cases hempty : values = []
  · subst hempty
    exact (arrDefCtor_spec h hraw malloc).mono .inl fun _ ↦ id
  · rw [if_neg fun heq ↦ hempty (List.isEmpty_iff.mp heq)]
    have hsize : (BitVec.ofNat 32 values.length).toNat = values.length := by
      rw [BitVec.toNat_ofNat, Nat.mod_eq_of_lt hlength]
    cases malloc with
    | false => exact .inl rfl
    | true =>
      cases malloc' with
      | false => exact .inr rfl
      | true =>
        have hnew : Filled elem (Table.add m.heap.blocks (List.replicate values.length none)) (some m.heap.blocks.length) []
            values.length := filled_new m.heap.blocks values.length
        obtain ⟨bs, hfill, hfilled, htouches⟩ := fill_spec hnew
        have hfits : (BitVec.ofNat 32 values.length).toNat * elem.size < 2 ^ 64 := hsize.symm ▸ hbytes
        have hlen : arrLenCtor elem true true obj (BitVec.ofNat 32 values.length) m =
            .ok (m.heap.blocks.length, ⟨Table.put m.handles obj (some m.heap.storages.length),
              ⟨Table.add m.heap.storages ⟨1, BitVec.ofNat 32 values.length, BitVec.ofNat 32 values.length,
                some m.heap.blocks.length⟩, Table.add m.heap.blocks (List.replicate values.length none)⟩⟩) := by
          rw [arrLenCtor, if_pos rfl, callAlloc_spec hfits, hsize]
          change (constructHandle obj _ _ >>= fun m ↦ _) = _
          rw [constructHandle_eq hraw]
          rfl
        refine meets_ok hlen (meets_defined hfill ?_)
        have hroom : (Growable.ofList values).room ≠ 0 := fun hzero ↦ hempty (List.eq_nil_of_length_eq_zero hzero)
        refine h.make hraw (h.owned.make rfl ?_ ⟨hsize, hsize, hfilled, fun hzero ↦ absurd hzero hroom⟩)
        refine ⟨fun b _ hb ↦ ?_, nofun, fun b hb ↦ .inr ?_⟩
        · exact (htouches.entry b hb).trans (Table.item?_add_ne fun heq ↦ hb (congrArg some heq.symm))
        · cases hb
          exact Table.item?_length _

theorem arrCopCtor_spec {dst src : ℕ} (h : Refines elem m a) (hraw : Raw m dst) {ptr : Option ℕ}
    (hsrc : Table.item? m.handles src = some ptr) :
    Meets (arrCopCtor dst src m) reason fun m' ↦ Refines elem m' { a with handles := Table.put a.handles dst ptr } := by
  have hpos (p : ℕ) (hp : ptr = some p) : 0 < counts m.handles p := counts_pos (hsrc.trans (congrArg some hp))
  obtain ⟨heap, hinc, hheap⟩ := ptrInc_spec h.owned hpos
  rw [← counts_construct hraw] at hheap
  refine meets_defined hsrc (meets_ok hinc ?_)
  rw [constructHandle_eq hraw]
  exact ⟨congrArg (Table.put · dst ptr) h.handles, hheap⟩

theorem ne_of_raw {dst src : ℕ} (hraw : Raw m dst) {ptr : Option ℕ} (hsrc : Table.item? m.handles src = some ptr) : dst ≠ src := by
  rintro rfl
  have hraw : m.handles[dst]? = some none := hraw
  cases hraw.symm.trans (getElem?_of_item? hsrc)

theorem arrMovCtor_spec {dst src : ℕ} (h : Refines elem m a) (hraw : Raw m dst) {ptr : Option ℕ}
    (hsrc : Table.item? m.handles src = some ptr) :
    Meets (arrMovCtor dst src m) reason fun m' ↦
      Refines elem m' { a with handles := Table.put (Table.put a.handles dst ptr) src none } := by
  have hsrc' : Table.item? (Table.put m.handles dst ptr) src = some ptr :=
    (Table.item?_put_ne (ne_of_raw hraw hsrc)).trans hsrc
  have hcounts : counts (Table.put (Table.put m.handles dst ptr) src none) = counts m.handles := by
    have hadd : addRef ptr (counts (Table.put (Table.put m.handles dst ptr) src none)) = addRef ptr (counts m.handles) := by
      rw [counts_put hsrc', addRef_none, counts_construct hraw]
    exact addRef_inj hadd
  refine meets_defined hsrc ?_
  rw [constructHandle_eq hraw]
  refine ⟨congrArg (fun handles ↦ Table.put (Table.put handles dst ptr) src none) h.handles, ?_⟩
  exact hcounts.symm ▸ h.owned

theorem Refines.releasable (h : Refines elem m a) (hcounted : Releasable m obj elem) {ptr : Option ℕ}
    (hobj : Table.item? m.handles obj = some ptr) (p : ℕ) (g : Growable V) (hptr : ptr = some p)
    (hg : Table.item? a.arrays p = some g) (hnontrivial : elem.cat ≠ .trivially_copyable) : SignedFits 32 g.items.length := by
  obtain ⟨storage, hp⟩ := h.owned.array hg
  exact (h.owned.holds hp hg).len ▸ hcounted p storage (hobj.trans (congrArg some hptr)) hp hnontrivial

/-- What is dropped has room, unless null may be passed. -/
theorem room_of_dropped {handles : Table (Option ℕ)} {ptr : Option ℕ}
    (hnull : elem.nonNull = true → ¬a.DropsEmpty handles ptr) (hnonNull : elem.nonNull = true) (p : ℕ) (g : Growable V)
    (hptr : ptr = some p) (hzero : counts handles p = 0) (hg : Table.item? a.arrays p = some g) : g.room ≠ 0 :=
  fun hroom ↦ hnull hnonNull ⟨p, g, hptr, hzero, hg, hroom⟩

theorem arrCopAsgn_spec {dst src : ℕ} (h : Refines elem m a) {dstPtr srcPtr : Option ℕ}
    (hdst : Table.item? m.handles dst = some dstPtr) (hsrc : Table.item? m.handles src = some srcPtr)
    (hcounted : Releasable m dst elem) (hnull : elem.nonNull = true → ¬a.DropsEmpty (Table.put a.handles dst srcPtr) dstPtr) :
    Meets (arrCopAsgn elem dst src m) reason fun m' ↦
      Refines elem m' (a.release (Table.put a.handles dst srcPtr) dstPtr) := by
  rw [← h.handles] at hnull
  have hpos (p : ℕ) (hp : srcPtr = some p) : 0 < counts m.handles p := counts_pos (hsrc.trans (congrArg some hp))
  obtain ⟨heap, hinc, hheap⟩ := ptrInc_spec h.owned hpos
  -- the pointer is counted from now on; the handle still holds the old one
  rw [← counts_put hdst] at hheap
  obtain ⟨heap', hdec, hheap'⟩ := ptrDec_spec hheap (room_of_dropped hnull) (h.releasable hcounted hdst)
  refine meets_defined hdst (meets_defined hsrc (meets_ok hinc (meets_ok hdec ?_)))
  rw [← h.handles]
  exact ⟨rfl, hheap'⟩

/-- The count when a pointer is moved from one handle to another. -/
theorem counts_move {dst src : ℕ} {dstPtr srcPtr : Option ℕ} (hdst : Table.item? m.handles dst = some dstPtr)
    (hsrc : Table.item? m.handles src = some srcPtr) (hne : dst ≠ src) :
    counts m.handles = addRef dstPtr (counts (Table.put (Table.put m.handles dst srcPtr) src none)) := by
  have hsrc' : Table.item? (Table.put m.handles dst srcPtr) src = some srcPtr := (Table.item?_put_ne hne).trans hsrc
  have hsrcCount : addRef srcPtr (counts (Table.put (Table.put m.handles dst srcPtr) src none)) =
      counts (Table.put m.handles dst srcPtr) := (counts_put hsrc').trans (addRef_none _)
  have hadd : addRef srcPtr (counts m.handles) =
      addRef srcPtr (addRef dstPtr (counts (Table.put (Table.put m.handles dst srcPtr) src none))) := calc
    addRef srcPtr (counts m.handles) = addRef dstPtr (counts (Table.put m.handles dst srcPtr)) := (counts_put hdst).symm
    _ = addRef dstPtr (addRef srcPtr (counts (Table.put (Table.put m.handles dst srcPtr) src none))) := by rw [hsrcCount]
    _ = addRef srcPtr (addRef dstPtr (counts (Table.put (Table.put m.handles dst srcPtr) src none))) := addRef_comm _ _ _
  exact addRef_inj hadd

theorem arrMovAsgn_spec {dst src : ℕ} (h : Refines elem m a) {dstPtr srcPtr : Option ℕ}
    (hdst : Table.item? m.handles dst = some dstPtr) (hsrc : Table.item? m.handles src = some srcPtr) (hne : dst ≠ src)
    (hcounted : Releasable m dst elem)
    (hnull : elem.nonNull = true → ¬a.DropsEmpty (Table.put (Table.put a.handles dst srcPtr) src none) dstPtr) :
    Meets (arrMovAsgn elem dst src m) reason fun m' ↦
      Refines elem m' (a.release (Table.put (Table.put a.handles dst srcPtr) src none) dstPtr) := by
  rw [← h.handles] at hnull
  have hheap := counts_move hdst hsrc hne ▸ h.owned
  obtain ⟨heap', hdec, hheap'⟩ := ptrDec_spec hheap (room_of_dropped hnull) (h.releasable hcounted hdst)
  refine meets_defined hdst (meets_defined hsrc ?_)
  rw [if_neg hne]
  refine meets_ok hdec ?_
  rw [← h.handles]
  exact ⟨rfl, hheap'⟩

theorem arrDtor_spec (h : Refines elem m a) {ptr : Option ℕ} (hobj : Table.item? m.handles obj = some ptr)
    (hcounted : Releasable m obj elem) (hnull : elem.nonNull = true → ¬a.DropsEmpty (Table.remove a.handles obj) ptr) :
    Meets (arrDtor elem obj m) reason fun m' ↦ Refines elem m' (a.release (Table.remove a.handles obj) ptr) := by
  rw [← h.handles] at hnull
  have hheap := h.owned
  rw [← counts_remove hobj] at hheap
  obtain ⟨heap, hdec, hheap'⟩ := ptrDec_spec hheap (room_of_dropped hnull) (h.releasable hcounted hobj)
  refine meets_defined hobj (meets_ok hdec ?_)
  rw [← h.handles]
  exact ⟨rfl, hheap'⟩

/-- An operation that does not pass null. -/
theorem exec_meets (h : Refines elem m a) {call : Call V} (hwithin : Within elem m call)
    (hnull : elem.nonNull = true → ¬PassesNull a call) :
    Meets (exec elem call m) (effect elem.default call.op a = none ∨ call.malloc = false ∨ call.malloc' = false) fun r ↦
      ∃ a', effect elem.default call.op a = some (a', r.2) ∧ Refines elem r.1 a' := by
  obtain ⟨op, malloc, malloc'⟩ := call
  dsimp only
  cases op with
  | alloca => exact ⟨_, rfl, congrArg (· ++ [none]) h.handles, counts_alloca.symm ▸ h.owned⟩
  | defCtor obj =>
    refine ((arrDefCtor_spec h hwithin malloc).mono (fun hmalloc ↦ .inr (.inl hmalloc)) fun _ ↦ id).map fun m' hm' ↦ ?_
    exact ⟨_, rfl, hm'⟩
  | literal obj values =>
    obtain ⟨hraw, hlength, hbytes⟩ : Raw m obj ∧ values.length < 2 ^ 32 ∧ values.length * elem.size < 2 ^ 64 := hwithin
    refine ((arrayLiteral_spec h hraw hlength hbytes malloc malloc').mono .inr fun _ ↦ id).map fun m' hm' ↦ ?_
    exact ⟨_, rfl, hm'⟩
  | copCtor dst src =>
    obtain ⟨hraw, ptr, hsrc⟩ : Raw m dst ∧ IsHandle m src := hwithin
    refine (arrCopCtor_spec h hraw hsrc).map fun m' hm' ↦ ⟨_, ?_, hm'⟩
    rw [effect, ← h.handles, hsrc]
    rfl
  | movCtor dst src =>
    obtain ⟨hraw, ptr, hsrc⟩ : Raw m dst ∧ IsHandle m src := hwithin
    refine (arrMovCtor_spec h hraw hsrc).map fun m' hm' ↦ ⟨_, ?_, hm'⟩
    rw [effect, ← h.handles, hsrc]
    rfl
  | copAsgn dst src =>
    obtain ⟨⟨dstPtr, hdst⟩, ⟨srcPtr, hsrc⟩, hcounted⟩ : IsHandle m dst ∧ IsHandle m src ∧ Releasable m dst elem := hwithin
    have hdrops (hnonNull : elem.nonNull = true) (hdrops : a.DropsEmpty (Table.put a.handles dst srcPtr) dstPtr) : False :=
      hnull hnonNull ⟨dstPtr, srcPtr, h.handles ▸ hdst, h.handles ▸ hsrc, hdrops⟩
    refine (arrCopAsgn_spec h hdst hsrc hcounted hdrops).map fun m' hm' ↦ ⟨_, ?_, hm'⟩
    rw [effect, ← h.handles, hdst, hsrc]
    rfl
  | movAsgn dst src =>
    obtain ⟨⟨dstPtr, hdst⟩, ⟨srcPtr, hsrc⟩, hne, hcounted⟩ :
      IsHandle m dst ∧ IsHandle m src ∧ dst ≠ src ∧ Releasable m dst elem := hwithin
    have hdrops (hnonNull : elem.nonNull = true)
        (hdrops : a.DropsEmpty (Table.put (Table.put a.handles dst srcPtr) src none) dstPtr) : False :=
      hnull hnonNull ⟨dstPtr, srcPtr, h.handles ▸ hdst, h.handles ▸ hsrc, hdrops⟩
    refine (arrMovAsgn_spec h hdst hsrc hne hcounted hdrops).map fun m' hm' ↦ ⟨_, ?_, hm'⟩
    rw [effect, ← h.handles, hdst, hsrc]
    rfl
  | dtor obj =>
    obtain ⟨⟨ptr, hobj⟩, hcounted⟩ : IsHandle m obj ∧ Releasable m obj elem := hwithin
    have hdrops (hnonNull : elem.nonNull = true) (hdrops : a.DropsEmpty (Table.remove a.handles obj) ptr) : False :=
      hnull hnonNull ⟨ptr, h.handles ▸ hobj, hdrops⟩
    refine (arrDtor_spec h hobj hcounted hdrops).map fun m' hm' ↦ ⟨_, ?_, hm'⟩
    rw [effect, ← h.handles, hobj]
    rfl
  | pushBack obj value =>
    obtain ⟨p, storage, hobj, hp, hfits⟩ := hwithin
    obtain ⟨g, hpointee, hg, hholds⟩ := h.pointee hobj hp
    have hroom (hnonNull : elem.nonNull = true) (hmalloc : malloc = true) (hzero : g.room = 0) : False :=
      hnull hnonNull ⟨p, g, hpointee, hzero, hmalloc⟩
    refine meets_withArray h hobj hpointee ((btnPushBack_spec h.owned hg hp value hroom hfits).mono ?_ fun _ ↦ id)
    exact fun hmalloc ↦ .inr (.inl hmalloc)
  | append obj other =>
    obtain ⟨p, storage, hobj, hp, q, storage', hother, hq, hfits⟩ := hwithin
    obtain ⟨g, hpointee, hg, hholds⟩ := h.pointee hobj hp
    obtain ⟨g', hpointee', hg', hholds'⟩ := h.pointee hother hq
    have heffect : effect elem.default (.append obj other) a =
        (a.update obj (·.append g'.items)).map (·, (.nothing : Reply V)) := by
      rw [effect, hpointee']
      rfl
    rw [heffect]
    have hroom (hnonNull : elem.nonNull = true) : g'.room ≠ 0 ∧ (malloc = true ∨ g'.items = [] → g.room ≠ 0) :=
      ⟨fun hzero ↦ hnull hnonNull ⟨p, g, q, g', hpointee, hpointee', .inl hzero⟩,
        fun hmalloc hzero ↦ hnull hnonNull ⟨p, g, q, g', hpointee, hpointee', .inr ⟨hzero, hmalloc⟩⟩⟩
    refine meets_ok (loadArray_eq hother) (meets_withArray h hobj hpointee ?_)
    exact (btnAppend_spec h.owned hg hp hg' hq hroom hfits).mono (fun hmalloc ↦ .inr (.inl hmalloc)) fun _ ↦ id
  | popBack obj =>
    obtain ⟨p, storage, hobj, hp, hfits⟩ := hwithin
    obtain ⟨g, hpointee, hg, hholds⟩ := h.pointee hobj hp
    have hpop := btnPopBack_spec h.owned hg hp hfits
    by_cases hempty : g.items = []
    · have hpanics : exec elem ⟨.popBack obj, malloc, malloc'⟩ m = .error .panic := by
        change (loadArray m obj >>= fun array ↦ btnPopBack elem array m.heap >>= _).map _ = _
        rw [loadArray_eq hobj]
        change (btnPopBack elem p m.heap >>= _).map _ = _
        rw [hpop.panics fun _ hheap ↦ hheap.1 hempty]
        rfl
      rw [hpanics]
      refine .inl ?_
      rw [effect, hpointee]
      exact if_pos hempty
    · have heffect : effect elem.default (.popBack obj) a = (a.update obj Growable.pop).map (·, (.nothing : Reply V)) := by
        rw [effect, hpointee]
        exact if_neg hempty
      rw [heffect]
      refine meets_withArray h hobj hpointee (hpop.mono (fun h ↦ absurd h hempty) fun _ ↦ And.right)
  | resize obj len =>
    obtain ⟨p, storage, hobj, hp, hfits⟩ := hwithin
    obtain ⟨g, hpointee, hg, hholds⟩ := h.pointee hobj hp
    have hroom (hnonNull : elem.nonNull = true) (hlen : len = 0 ∨ malloc = true) (hzero : g.room = 0) : False :=
      hnull hnonNull ⟨p, g, hpointee, hzero, hlen⟩
    refine meets_withArray h hobj hpointee ((btnResize_spec h.owned hg hp hroom hfits).mono ?_ fun _ ↦ id)
    exact fun hmalloc ↦ .inr (.inl hmalloc)
  | reserve obj cap =>
    obtain ⟨p, storage, hobj, hp, hfits⟩ := hwithin
    obtain ⟨g, hpointee, hg, hholds⟩ := h.pointee hobj hp
    have hroom (hnonNull : elem.nonNull = true) (hcap : cap ≠ 0) (hmalloc : malloc = true) (hzero : g.room = 0) : False :=
      hnull hnonNull ⟨p, g, hpointee, hzero, hcap, hmalloc⟩
    refine meets_withArray h hobj hpointee ((btnReserve_spec h.owned hg hp hroom hfits).mono ?_ fun _ ↦ id)
    exact fun hmalloc ↦ .inr (.inl hmalloc)
  | store obj index value =>
    obtain ⟨p, storage, hobj, hp, hsigned⟩ := hwithin
    obtain ⟨g, hpointee, hg, hholds⟩ := h.pointee hobj hp
    have heffect : effect elem.default (.store obj index value) a = (itemAt g index).bind fun _ ↦
        (a.update obj (·.set index.value.toNat value)).map (·, (.nothing : Reply V)) := by
      rw [effect, hpointee]
      rfl
    rw [heffect]
    refine ((arrIdx_spec hobj hp hholds hsigned).mono (fun hnone ↦ .inl (by rw [hnone]; rfl)) fun _ ↦ id).bind ?_
    rintro place ⟨k, hk, hvalue, rfl⟩
    obtain ⟨bs, hwrite, hfilled, htouches⟩ := storeElem_spec value hholds.filled hk
    have hheap : Owned elem (counts m.handles) ⟨m.heap.storages, bs⟩ (Table.put a.arrays p (g.set k value)) := by
      have hset : Owned elem (counts m.handles) (storeStorage m.heap p { storage with len := storage.len } bs)
          (Table.put a.arrays p (g.set k value)) :=
        h.owned.setItems hg hp htouches (hholds.len.trans List.length_set.symm) rfl hfilled
      have hput : Table.put m.heap.storages p { storage with len := storage.len } = m.heap.storages := Table.put_entry hp
      rwa [storeStorage, hput] at hset
    refine meets_defined (hholds.filled.load hk) (meets_defined hwrite ?_)
    refine ⟨{ a with arrays := Table.put a.arrays p (g.set k value) }, ?_, h.handles, hheap⟩
    rw [itemAt_eq_some hk hvalue, Arrays.update, hpointee, hvalue, Int.toNat_natCast]
    rfl
  | load obj index =>
    obtain ⟨p, storage, hobj, hp, hsigned⟩ := hwithin
    obtain ⟨g, hpointee, hg, hholds⟩ := h.pointee hobj hp
    have heffect : effect elem.default (.load obj index) a = (itemAt g index).map (a, .value ·) := by
      rw [effect, hpointee]
      rfl
    rw [heffect]
    refine ((arrIdx_spec hobj hp hholds hsigned).mono (fun hnone ↦ .inl (by rw [hnone]; rfl)) fun _ ↦ id).bind ?_
    rintro place ⟨k, hk, hvalue, rfl⟩
    refine meets_defined (hholds.filled.load hk) ⟨a, ?_, h⟩
    rw [itemAt_eq_some hk hvalue]
    rfl
  | size obj =>
    obtain ⟨p, storage, hobj, hp, -⟩ := hwithin
    obtain ⟨g, hpointee, hg, hholds⟩ := h.pointee hobj hp
    refine meets_ok (loadArray_eq hobj) (meets_ok (loadStorage_eq hp) ⟨a, ?_, h⟩)
    rw [effect, hpointee, hholds.len]
    rfl
  | capacity obj =>
    obtain ⟨p, storage, hobj, hp, -⟩ := hwithin
    obtain ⟨g, hpointee, hg, hholds⟩ := h.pointee hobj hp
    refine meets_ok (loadArray_eq hobj) (meets_ok (loadStorage_eq hp) ⟨a, ?_, h⟩)
    rw [effect, hpointee, hholds.cap]
    rfl

/-- An operation that drops an array without a block. -/
theorem dropsEmpty_fault {heap : Heap V} {handles : Table (Option ℕ)} {ptr : Option ℕ}
    (hheap : Owned elem (addRef ptr (counts handles)) heap a.arrays) (hnonNull : elem.nonNull = true)
    (hdrops : a.DropsEmpty handles ptr) : ptrDec elem ptr heap = .error .fault := by
  obtain ⟨p, g, rfl, hzero, hg, hroom⟩ := hdrops
  exact ptrDec_null hheap hg hzero hroom hnonNull

theorem withArray_fault (hobj : Table.item? m.handles obj = some (some p)) {f : ℕ → Heap V → Except Stop (Heap V)}
    (hf : f p m.heap = .error .fault) : (withArray obj f m).map (·, (.nothing : Reply V)) = .error .fault := by
  rw [withArray, loadArray_eq hobj]
  change (f p m.heap >>= _).map _ = _
  rw [hf]
  rfl

/-- An operation that passes null, if that is undefined. -/
theorem exec_null (h : Refines elem m a) {call : Call V} (hwithin : Within elem m call) (hnonNull : elem.nonNull = true)
    (hnull : PassesNull a call) : exec elem call m = .error .fault := by
  obtain ⟨op, malloc, malloc'⟩ := call
  cases op with
  | copAsgn dst src =>
    obtain ⟨dstPtr, srcPtr, hdst, hsrc, hdrops⟩ := hnull
    rw [← h.handles] at hdst hsrc hdrops
    have hpos (p : ℕ) (hp : srcPtr = some p) : 0 < counts m.handles p := counts_pos (hsrc.trans (congrArg some hp))
    obtain ⟨heap, hinc, hheap⟩ := ptrInc_spec h.owned hpos
    rw [← counts_put hdst] at hheap
    change (defined (Table.item? m.handles dst) >>= fun dstPtr ↦ defined (Table.item? m.handles src) >>= fun srcPtr ↦
      ptrInc srcPtr m.heap >>= fun heap ↦ ptrDec elem dstPtr heap >>= _).map _ = _
    rw [hdst, hsrc]
    change (ptrInc srcPtr m.heap >>= fun heap ↦ ptrDec elem dstPtr heap >>= _).map _ = _
    rw [hinc]
    change (ptrDec elem dstPtr heap >>= _).map _ = _
    rw [dropsEmpty_fault hheap hnonNull hdrops]
    rfl
  | movAsgn dst src =>
    obtain ⟨-, -, hne, -⟩ : IsHandle m dst ∧ IsHandle m src ∧ dst ≠ src ∧ Releasable m dst elem := hwithin
    obtain ⟨dstPtr, srcPtr, hdst, hsrc, hdrops⟩ := hnull
    rw [← h.handles] at hdst hsrc hdrops
    have hheap := counts_move hdst hsrc hne ▸ h.owned
    change (defined (Table.item? m.handles dst) >>= fun dstPtr ↦ defined (Table.item? m.handles src) >>= fun srcPtr ↦
      if dst = src then _ else ptrDec elem dstPtr m.heap >>= _).map _ = _
    rw [hdst, hsrc]
    change (if dst = src then _ else ptrDec elem dstPtr m.heap >>= _).map _ = _
    rw [if_neg hne, dropsEmpty_fault hheap hnonNull hdrops]
    rfl
  | dtor obj =>
    obtain ⟨ptr, hobj, hdrops⟩ := hnull
    rw [← h.handles] at hobj hdrops
    have hheap := h.owned
    rw [← counts_remove hobj] at hheap
    change (defined (Table.item? m.handles obj) >>= fun ptr ↦ ptrDec elem ptr m.heap >>= _).map _ = _
    rw [hobj]
    change (ptrDec elem ptr m.heap >>= _).map _ = _
    rw [dropsEmpty_fault hheap hnonNull hdrops]
    rfl
  | pushBack obj value =>
    obtain ⟨p, storage, hobj, hp, -⟩ := hwithin
    obtain ⟨g, hpointee, -, hholds⟩ := h.pointee hobj hp
    obtain ⟨q, g', hpointee', hroom, rfl⟩ : ∃ p g, a.pointee obj = some (p, g) ∧ g.room = 0 ∧ malloc = true := hnull
    cases hpointee.symm.trans hpointee'
    exact withArray_fault hobj (btnPushBack_null hp hholds value hroom hnonNull)
  | append obj other =>
    obtain ⟨p, storage, hobj, hp, q, storage', hother, hq, hfits⟩ := hwithin
    obtain ⟨g, hpointee, -, hholds⟩ := h.pointee hobj hp
    obtain ⟨g', hpointee', -, hholds'⟩ := h.pointee hother hq
    obtain ⟨p₁, g₁, q₁, g₁', hobj₁, hother₁, hroom⟩ := hnull
    cases hpointee.symm.trans hobj₁
    cases hpointee'.symm.trans hother₁
    change (loadArray m other >>= fun otherArray ↦ (withArray obj (btnAppend elem malloc · otherArray) m).map _) = _
    rw [loadArray_eq hother]
    exact withArray_fault hobj (btnAppend_null hp hholds hq hholds' hroom hnonNull hfits)
  | resize obj len =>
    obtain ⟨p, storage, hobj, hp, hfits⟩ := hwithin
    obtain ⟨g, hpointee, -, hholds⟩ := h.pointee hobj hp
    obtain ⟨q, g', hpointee', hroom, hlen⟩ := hnull
    cases hpointee.symm.trans hpointee'
    exact withArray_fault hobj (btnResize_null hp hholds hlen hroom hnonNull hfits)
  | reserve obj cap =>
    obtain ⟨p, storage, hobj, hp, -⟩ := hwithin
    obtain ⟨g, hpointee, -, hholds⟩ := h.pointee hobj hp
    obtain ⟨q, g', hpointee', hroom, hcap, rfl⟩ :
      ∃ p g, a.pointee obj = some (p, g) ∧ g.room = 0 ∧ cap ≠ 0 ∧ malloc = true := hnull
    cases hpointee.symm.trans hpointee'
    exact withArray_fault hobj (btnReserve_null hp hholds hcap hroom hnonNull)
  | _ => exact hnull.elim

theorem exec_refines (h : Refines elem m a) {call : Call V} (hwithin : Within elem m call) : Agrees elem m a call where
  null := exec_null h hwithin
  defined := fun hnull ↦ exec_meets h hwithin fun hnonNull hpasses ↦ hnull ⟨hnonNull, hpasses⟩

end

/-! ## Runs -/

section

open Machine

/-- The lists after an operation that does not panic. -/
def listStep (default : V) (a : Arrays V) (call : Call V) : Option (Arrays V) := (effect default call.op a).map Prod.fst

def Arrays.empty : Arrays V := ⟨[], []⟩

theorem refines_empty : Refines elem Memory.empty Arrays.empty where
  handles := rfl
  owned :=
    { length := rfl
      storage := fun _ _ h ↦ by cases h
      array := fun _ _ h ↦ by cases h
      dangling := fun _ _ ↦ rfl
      distinct := fun _ _ _ _ _ h ↦ by cases h
      noLeak := fun _ _ h ↦ by cases h }

theorem step_refines {m m' : Memory V} {a : Arrays V} {call : Call V} (h : Refines elem m a) (hwithin : Within elem m call)
    (hstep : step elem m call = some m') : ∃ a', listStep elem.default a call = some a' ∧ Refines elem m' a' := by
  have hagrees := exec_refines h hwithin
  rw [step] at hstep
  cases hexec : exec elem call m with
  | error stop =>
    rw [hexec] at hstep
    cases hstep
  | ok r =>
    have hagrees := hagrees.defined fun ⟨hnonNull, hnull⟩ ↦ by cases hexec.symm.trans (hagrees.null hnonNull hnull)
    rw [hexec] at hstep hagrees
    cases hstep
    obtain ⟨a', heffect, hrefines⟩ := hagrees
    exact ⟨a', by rw [listStep, heffect]; rfl, hrefines⟩

theorem run_refines {m m' : Memory V} {a : Arrays V} {calls : List (Call V)} (h : Refines elem m a)
    (hmeets : RunMeets (step elem) (Within elem) m calls) (hrun : run (step elem) m calls = some m') :
    ∃ a', run (listStep elem.default) a calls = some a' ∧ Refines elem m' a' := by
  induction calls generalizing m a with
  | nil =>
    cases hrun
    exact ⟨a, rfl, h⟩
  | cons call calls ih =>
    obtain ⟨m₁, hstep, hrun⟩ := run_cons_eq_some.mp hrun
    obtain ⟨a₁, hlist, h₁⟩ := step_refines h hmeets.1 hstep
    obtain ⟨a', hlists, h'⟩ := ih h₁ (hmeets.2 m₁ hstep) hrun
    exact ⟨a', run_cons_eq_some.mpr ⟨a₁, hlist, hlists⟩, h'⟩

/-- Whatever a program does with arrays, they are lists with room for more that their handles share. -/
theorem arrays_are_lists {m : Memory V} {calls : List (Call V)} (hmeets : RunMeets (step elem) (Within elem) Memory.empty calls)
    (hrun : run (step elem) Memory.empty calls = some m) :
    ∃ a, run (listStep elem.default) Arrays.empty calls = some a ∧ Refines elem m a ∧
      ∀ call, Within elem m call → Agrees elem m a call := by
  obtain ⟨a, hlists, hrefines⟩ := run_refines refines_empty hmeets hrun
  exact ⟨a, hlists, hrefines, fun call hwithin ↦ exec_refines hrefines hwithin⟩

/-- Integers. -/
def sints : ElemType ℤ := ⟨⟨4, .trivially_copyable⟩, 0, id, true⟩

/-- The memory of `[7, 8]`. -/
def sevenEight : Memory ℤ := ⟨[some (some 0)], ⟨[some ⟨1, 2, 2, some 0⟩], [some [some 7, some 8]]⟩⟩

def makeSevenEight : List (Call ℤ) := [⟨.alloca, true, true⟩, ⟨.literal 0 [7, 8], true, true⟩]

theorem within_sevenEight {calls : List (Call ℤ)} (h : RunMeets (step sints) (Within sints) sevenEight calls) :
    RunMeets (step sints) (Within sints) Memory.empty (makeSevenEight ++ calls) := by
  have hliteral : step sints ⟨[none], ⟨[], []⟩⟩ ⟨.literal 0 [7, 8], true, true⟩ = some sevenEight := rfl
  exact .cons trivial rfl (.cons ⟨rfl, by decide, by decide⟩ hliteral h)

/-- The second element. -/
theorem arrays_are_lists_literal : ∃ a, run (listStep 0) Arrays.empty makeSevenEight = some a ∧
    Agrees sints sevenEight a ⟨.load 0 (.sint 1), true, true⟩ := by
  have hmeets : RunMeets (step sints) (Within sints) Memory.empty makeSevenEight := within_sevenEight trivial
  have hrun : run (step sints) Memory.empty makeSevenEight = some sevenEight := rfl
  obtain ⟨a, hlists, -, hagrees⟩ := arrays_are_lists hmeets hrun
  exact ⟨a, hlists, hagrees _ ⟨0, _, rfl, rfl, fun _ ↦ by decide⟩⟩

/-- When no handle points to an array any more, all storages and blocks have been freed. -/
theorem arrays_freed {m : Memory V} {calls : List (Call V)} (hmeets : RunMeets (step elem) (Within elem) Memory.empty calls)
    (hrun : run (step elem) Memory.empty calls = some m) (hhandles : ∀ obj p, Table.item? m.handles obj ≠ some (some p)) :
    (∀ p, Table.item? m.heap.storages p = none) ∧ ∀ b, Table.item? m.heap.blocks b = none := by
  obtain ⟨a, -, hrefines⟩ := run_refines refines_empty hmeets hrun
  have hstorages (p : ℕ) : Table.item? m.heap.storages p = none := by
    by_contra hsome
    obtain ⟨storage, hp⟩ := Option.ne_none_iff_exists'.mp hsome
    obtain ⟨obj, hobj⟩ := List.mem_iff_getElem?.mp (List.count_pos_iff.mp (hrefines.owned.counted hp).2)
    exact hhandles obj p (congrArg Option.join hobj)
  refine ⟨hstorages, fun b ↦ ?_⟩
  by_contra hsome
  obtain ⟨block, hblock⟩ := Option.ne_none_iff_exists'.mp hsome
  obtain ⟨p, storage, hp, -⟩ := hrefines.owned.noLeak hblock
  cases (hstorages p).symm.trans hp

/-- After `[7, 8]` has been destroyed. -/
theorem arrays_freed_literal : (∀ p, Table.item? [(none : Option Storage)] p = none) ∧
    ∀ b, Table.item? [(none : Option (Block ℤ))] b = none := by
  have hdtor : RunMeets (step sints) (Within sints) sevenEight [⟨.dtor 0, true, true⟩] := by
    have hcounted : Releasable sevenEight 0 sints := fun _ _ _ _ hnontrivial ↦ absurd rfl hnontrivial
    exact ⟨⟨⟨_, rfl⟩, hcounted⟩, fun _ _ ↦ trivial⟩
  have hrun : run (step sints) Memory.empty (makeSevenEight ++ [⟨.dtor 0, true, true⟩]) = some ⟨[none], ⟨[none], [none]⟩⟩ := rfl
  refine arrays_freed (within_sevenEight hdtor) hrun fun obj p hobj ↦ ?_
  cases obj with
  | zero => cases hobj
  | succ obj => cases hobj

end

end Stela.CodeGen.ArrayBuiltins
