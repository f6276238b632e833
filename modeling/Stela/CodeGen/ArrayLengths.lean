import Stela.CodeGen.Categories
import Stela.Library.Machine
import Stela.Library.Poison
import Stela.Library.ShrinkingLoop

/-!
# Lengths and capacities

The builtin functions of `generate builtin.cpp` that change the length or the capacity of an array, down to the
arithmetic on 32 bits. Poison is undefined as soon as something depends on it, and a length that is poison as soon
as it is stored.
-/

namespace Stela.CodeGen.ArrayLengths

open Stela.Library Stela.Library.Poison Stela.Library.Machine

/-- What the functions ask about the type of the elements. -/
structure Elem where
  /-- `DataLayout::getTypeAllocSize`. -/
  size : ℕ
  cat : TypeCat

/-- An array without its elements; `bytes` is the size of the data block. -/
structure Storage where
  cap : BitVec 32
  len : BitVec 32
  bytes : ℕ
  deriving DecidableEq, Repr

/-- The program panics, or does something that LLVM leaves undefined. -/
inductive Stop where
  | panic | undefined
  deriving DecidableEq, Repr

/-- Elements that are written: the first one, how many there are, the byte count passed to `memset` or `memcpy` if
they are not written one by one, and the size of the block that they are written to. -/
structure Write where
  start : ℕ
  count : ℕ
  byteLen : Option (BitVec 32)
  block : ℕ
  deriving DecidableEq, Repr

/-- A value that something depends on. -/
def use {w : ℕ} : Option (BitVec w) → Except Stop (BitVec w)
  | some a => .ok a
  | none => .error .undefined

/-- `FGI::ceil_to_pow_2`. -/
def ceilToPow2 (n : BitVec 32) : Option (BitVec 32) := do
  let minus1 ← nswSub n 1
  let log2 ← nswSub 32 minus1.clz
  shl 1 log2

/-- The loops of `iterImpl` and `copyImpl` over the elements, by what is left of the count. -/
def elementLoop : ShrinkingLoop Stop Unit (BitVec 32) where
  body len := if len = 0 then .ok (.inl ()) else (use (nswSub len 1)).map .inr
  size := BitVec.toNat
  shrinks := by
    intro len decLen h
    split_ifs at h with hzero
    · cases h
    · cases hsub : nswSub len 1 with
      | none =>
        rw [hsub] at h
        cases h
      | some c =>
        rw [hsub] at h
        cases h
        obtain ⟨-, rfl⟩ := nswSub_eq_some.mp hsub
        have hle : (1 : BitVec 32).toNat ≤ len.toNat := Nat.pos_of_ne_zero fun h ↦ hzero (BitVec.eq_of_toNat_eq h)
        rw [BitVec.toNat_sub_of_le hle]
        exact Nat.sub_lt hle Nat.one_pos

/-! ## The functions -/

section

variable (elem : Elem) (malloc : Bool)

/-- `callAlloc`: the size of the block, or a panic when `malloc` does not give one. -/
def callAlloc (count : BitVec 32) : Except Stop ℕ :=
  let bytes := BitVec.ofNat 64 elem.size * count.setWidth 64
  if malloc then .ok bytes.toNat else .error .panic

/-- The byte count of `memset` and `memcpy`. -/
def byteLen (len : BitVec 32) : Except Stop (BitVec 32) := use (nswMul len (BitVec.ofNat 32 elem.size))

/-- Write so many elements, at once or one by one. -/
def writeElems (atOnce : Bool) (start len : BitVec 32) (block : ℕ) : Except Stop Write :=
  if atOnce then (byteLen elem len).map fun bytes ↦ ⟨start.toNat, len.toNat, some bytes, block⟩
  else (elementLoop.run len).map fun _ ↦ ⟨start.toNat, len.toNat, none, block⟩

def constructN (start len : BitVec 32) (block : ℕ) : Except Stop Write :=
  writeElems elem (elem.cat = .trivially_copyable) start len block

def copyN (start len : BitVec 32) (block : ℕ) : Except Stop Write :=
  writeElems elem (elem.cat = .trivially_copyable) start len block

def moveN (start len : BitVec 32) (block : ℕ) : Except Stop Write :=
  writeElems elem (elem.cat ≠ .nontrivial) start len block

/-- The count is not looked at when there is nothing to destroy. -/
def destroyN (len : Option (BitVec 32)) : Except Stop Unit :=
  if elem.cat = .trivially_copyable then .ok () else do
    let len ← use len
    elementLoop.run len

variable (array : Storage)

def reallocate (cap : BitVec 32) : Except Stop (Storage × List Write) := do
  let newDat ← callAlloc elem malloc cap
  let moved ← moveN elem 0 array.len newDat
  return (⟨cap, array.len, newDat⟩, [moved])

/-- What the functions that add elements do first: where the array has to grow, reallocate it. -/
def grow (needed : Bool) (ceiled : Option (BitVec 32)) : Except Stop (Storage × List Write) :=
  if needed then use ceiled >>= reallocate elem malloc array else .ok (array, [])

def btnPushBack : Except Stop (Storage × List Write) := do
  let lenPlus1 := nswAdd array.len 1
  let (array', moved) ← grow elem malloc array (array.len == array.cap) (lenPlus1.bind ceilToPow2)
  let len ← use lenPlus1
  return (⟨array'.cap, len, array'.bytes⟩, moved ++ [⟨array.len.toNat, 1, none, array'.bytes⟩])

def btnAppend (otherLen : BitVec 32) : Except Stop (Storage × List Write) := do
  let totalLen ← use (nswAdd array.len otherLen)
  let (array', moved) ← grow elem malloc array (array.cap.ult totalLen) (ceilToPow2 totalLen)
  let copied ← copyN elem array.len otherLen array'.bytes
  return (⟨array'.cap, totalLen, array'.bytes⟩, moved ++ [copied])

def btnPopBack : Except Stop (Storage × List Write) :=
  if array.len ≠ 0 then do
    let lenMinus1 ← use (nswSub array.len 1)
    return (⟨array.cap, lenMinus1, array.bytes⟩, [])
  else .error .panic

def btnResize (len : BitVec 32) : Except Stop (Storage × List Write) :=
  if len.ule array.len then do
    destroyN elem (nswSub array.len len)
    return (⟨array.cap, len, array.bytes⟩, [])
  else do
    let (array', moved) ← grow elem malloc array (array.cap.ult len) (ceilToPow2 len)
    let constructCount ← use (nswSub len array.len)
    let constructed ← constructN elem array.len constructCount array'.bytes
    return (⟨array'.cap, len, array'.bytes⟩, moved ++ [constructed])

def btnReserve (cap : BitVec 32) : Except Stop (Storage × List Write) :=
  if array.cap.ult cap then reallocate elem malloc array cap else .ok (array, [])

/-- `arr_def_ctor`. -/
def arrDefCtor : Storage := ⟨0, 0, 0⟩

/-- `arr_len_ctor`. -/
def arrLenCtor (size : BitVec 32) : Except Stop Storage := do
  let dat ← callAlloc elem malloc size
  return ⟨size, size, dat⟩

end

/-! ## Runs -/

/-- The calls that change an array, with their arguments of 32 bits. -/
inductive Op where
  | pushBack
  | append (otherLen : BitVec 32)
  | popBack
  | resize (len : BitVec 32)
  | reserve (cap : BitVec 32)

/-- A call, and whether `malloc` gives it a block. -/
structure Call where
  op : Op
  malloc : Bool

def exec (elem : Elem) (array : Storage) (call : Call) : Except Stop (Storage × List Write) :=
  match call.op with
  | .pushBack => btnPushBack elem call.malloc array
  | .append otherLen => btnAppend elem call.malloc array otherLen
  | .popBack => btnPopBack array
  | .resize len => btnResize elem call.malloc array len
  | .reserve cap => btnReserve elem call.malloc array cap

def step (elem : Elem) (array : Storage) (call : Call) : Option Storage :=
  (exec elem array call).toOption.map Prod.fst

/-! ## What the calls should do -/

/-- The length after the call. -/
def Op.newLen (array : Storage) : Op → ℕ
  | pushBack => array.len.toNat + 1
  | append otherLen => array.len.toNat + otherLen.toNat
  | popBack => array.len.toNat - 1
  | resize len => len.toNat
  | reserve _ => array.len.toNat

/-- The capacity after the call: where it does not do, it grows to a power of two, and to what is asked for when that
is a capacity. -/
def Op.newCap (array : Storage) : Op → ℕ
  | reserve cap => max array.cap.toNat cap.toNat
  | op => if array.cap.toNat < op.newLen array then leastPow2 (op.newLen array) else array.cap.toNat

/-- The numbers are the mathematical ones, and what is written lies in the block. -/
structure Exact (elem : Elem) (array : Storage) (op : Op) (array' : Storage) (writes : List Write) : Prop where
  len : array'.len.toNat = op.newLen array
  cap : array'.cap.toNat = op.newCap array
  len_le : array'.len.toNat ≤ array'.cap.toNat
  bytes : array'.bytes = array'.cap.toNat * elem.size
  byteLen : ∀ w ∈ writes, ∀ b, w.byteLen = some b → b.toNat = w.count * elem.size
  inside : ∀ w ∈ writes, (w.start + w.count) * elem.size ≤ w.block

/-- The call proceeds with the mathematical numbers, or the program panics. -/
def Proceeds (elem : Elem) (array : Storage) (call : Call) : Prop :=
  exec elem array call = .error .panic ∨
    ∃ array' writes, exec elem array call = .ok (array', writes) ∧ Exact elem array call.op array' writes

/-! ## When they do -/

/-- So many elements can be written: the byte count is exact, or the count is a signed number. -/
def WriteFits (elem : Elem) (atOnce : Bool) (count : ℕ) : Prop :=
  if atOnce then MulFits 32 count elem.size else SignedFits 32 count

/-- The block has its size, and the elements can be moved to it, unless there is no block. -/
def ReallocFits (elem : Elem) (malloc : Bool) (len cap : ℕ) : Prop :=
  malloc → cap * elem.size < 2 ^ 64 ∧ WriteFits elem (elem.cat ≠ .nontrivial) len

/-- The least power of two is found, and the array can grow to it. -/
def GrowFits (elem : Elem) (malloc : Bool) (len newLen : ℕ) : Prop :=
  SignedFits 32 newLen ∧ ReallocFits elem malloc len (leastPow2 newLen)

/-- The condition on the array and the call. -/
def Fits (elem : Elem) (array : Storage) (call : Call) : Prop :=
  let len := array.len.toNat
  let cap := array.cap.toNat
  match call.op with
  | .pushBack => AddFits 32 len 1 ∧ (len = cap → GrowFits elem call.malloc len (len + 1))
  | .append otherLen =>
      AddFits 32 len otherLen.toNat ∧
      (cap < len + otherLen.toNat → GrowFits elem call.malloc len (len + otherLen.toNat)) ∧
      (call.malloc ∨ len + otherLen.toNat ≤ cap → WriteFits elem (elem.cat = .trivially_copyable) otherLen.toNat)
  | .popBack => len ≠ 0 → SubFits 32 len 1
  | .resize newLen =>
      if newLen.toNat ≤ len then
        elem.cat ≠ .trivially_copyable → SubFits 32 len newLen.toNat ∧ SignedFits 32 (len - newLen.toNat)
      else
        (cap < newLen.toNat → GrowFits elem call.malloc len newLen.toNat) ∧
        (call.malloc ∨ newLen.toNat ≤ cap → SubFits 32 newLen.toNat len ∧
          WriteFits elem (elem.cat = .trivially_copyable) (newLen.toNat - len))
  | .reserve newCap => cap < newCap.toNat → ReallocFits elem call.malloc len newCap.toNat

/-- The elements fit into the capacity, and the block has the size that the capacity says. -/
structure WellSized (elem : Elem) (array : Storage) : Prop where
  len_le : array.len.toNat ≤ array.cap.toNat
  bytes : array.bytes = array.cap.toNat * elem.size

/-! ## The arithmetic -/

section

variable {elem : Elem}

theorem use_eq_ok {w : ℕ} {r : Option (BitVec w)} {a : BitVec w} : use r = .ok a ↔ r = some a := by
  cases r with
  | none => exact iff_of_false nofun nofun
  | some b => simp only [use, Except.ok.injEq, Option.some.injEq]

theorem signedFits_iff {n : ℕ} : SignedFits 32 n ↔ n < 2 ^ 31 := Iff.rfl

/-- The least power of two is computed exactly for the numbers from 1 that are signed, and is poison for the
others. -/
theorem ceilToPow2_cases {n : BitVec 32} (hpos : 0 < n.toNat) :
    (SignedFits 32 n.toNat ∧ ∃ c, ceilToPow2 n = some c ∧ c.toNat = leastPow2 n.toNat) ∨
      (¬SignedFits 32 n.toNat ∧ ceilToPow2 n = none) := by
  have hlt := n.isLt
  have hone : (1 : BitVec 32).toNat = 1 := rfl
  have hsub := nswSub_gives n 1 (by decide) hpos
  cases hminus1 : nswSub n 1 with
  | none =>
    rw [hminus1] at hsub
    have hnot := (not_congr hsub).mp nofun
    refine .inr ⟨fun h ↦ hnot ⟨hpos, fun _ h' ↦ absurd h h'⟩, ?_⟩
    rw [ceilToPow2, hminus1]
    rfl
  | some minus1 =>
    obtain ⟨-, hsubeq⟩ := nswSub_eq_some.mp hminus1
    have hnat : minus1.toNat = n.toNat - 1 := hsubeq ▸ BitVec.toNat_sub_of_le hpos
    have hclz : minus1.clz.toNat ≤ 32 := BitVec.le_def.mp (@BitVec.clz_le 32 minus1)
    have hclog := width_sub_clz minus1
    rw [hnat, Nat.sub_add_cancel hpos] at hclog
    obtain ⟨log2, hlog2, hlog2nat⟩ := (nswSub_gives (32 : BitVec 32) minus1.clz (by decide) hclz).mpr
      ⟨hclz, fun _ h ↦ absurd (by decide) h⟩
    have hlog : log2.toNat = Nat.clog 2 n.toNat := hlog2nat.trans hclog
    have hceil : ceilToPow2 n = shl 1 log2 := by
      rw [ceilToPow2, hminus1, Option.bind_eq_bind, Option.bind_some, hlog2]
      rfl
    have hfits : SubFits 32 n.toNat 1 := hsub.mp ⟨minus1, hminus1, hnat⟩
    by_cases hn : SignedFits 32 n.toNat
    · have hle : Nat.clog 2 n.toNat ≤ 31 := (Nat.clog_le_iff_le_pow Nat.one_lt_two).mpr (Nat.le_of_lt hn)
      refine .inl ⟨hn, (1 : BitVec 32) <<< log2.toNat, hceil.trans (shl_eq_some.mpr ⟨by omega, rfl⟩), ?_⟩
      have hpow : 2 ^ Nat.clog 2 n.toNat < 2 ^ 32 := Nat.pow_lt_pow_right Nat.one_lt_two (by omega)
      rw [BitVec.toNat_shiftLeft, hone, Nat.shiftLeft_eq, Nat.one_mul, hlog, Nat.mod_eq_of_lt hpow, leastPow2]
    · have hlarge : 2 ^ 31 < n.toNat := by
        have hpred := hfits.2 (by decide) hn
        unfold SignedFits at hpred
        omega
      have hclogLarge : 31 < Nat.clog 2 n.toNat := (Nat.lt_clog_iff_pow_lt Nat.one_lt_two).mpr hlarge
      exact .inr ⟨hn, hceil.trans (if_neg (by omega))⟩

/-- What `ceil_to_pow_2` gives is the least power of two that is not less. -/
theorem ceilToPow2_least {n c : BitVec 32} (hpos : 0 < n.toNat) (h : ceilToPow2 n = some c) :
    n.toNat ≤ c.toNat ∧ (∃ k, c.toNat = 2 ^ k) ∧ ∀ k, n.toNat ≤ 2 ^ k → c.toNat ≤ 2 ^ k := by
  rcases ceilToPow2_cases hpos with ⟨-, c', hc', hnat⟩ | ⟨-, hnone⟩
  · cases hc'.symm.trans h
    rw [hnat]
    exact ⟨le_leastPow2 _, ⟨_, rfl⟩, fun k ↦ leastPow2_le⟩
  · cases hnone.symm.trans h

/-- The loop counts down from signed numbers only. -/
theorem elementLoop_run (len : BitVec 32) :
    SignedFits 32 len.toNat ∧ elementLoop.run len = .ok () ∨
      ¬SignedFits 32 len.toNat ∧ elementLoop.run len = .error .undefined := by
  induction len using ShrinkingLoop.induction elementLoop with
  | h len ih =>
    by_cases hzero : len = 0
    · have hbody : elementLoop.body len = .ok (.inl ()) := if_pos hzero
      refine .inl ⟨?_, ShrinkingLoop.run_of_return hbody⟩
      rw [hzero]
      exact Nat.two_pow_pos 31
    · have hbody : elementLoop.body len = (use (nswSub len 1)).map .inr := if_neg hzero
      have hle : (1 : BitVec 32).toNat ≤ len.toNat := Nat.pos_of_ne_zero fun h ↦ hzero (BitVec.eq_of_toNat_eq h)
      have hone : (1 : BitVec 32).toNat = 1 := rfl
      have hsub := nswSub_gives len 1 (by decide) hle
      cases hdec : nswSub len 1 with
      | none =>
        rw [hdec] at hbody hsub
        have hnot := (not_congr hsub).mp nofun
        refine .inr ⟨fun h ↦ hnot ⟨hle, fun _ h' ↦ absurd h h'⟩, ShrinkingLoop.run_of_error hbody⟩
      | some decLen =>
        rw [hdec] at hbody
        obtain ⟨-, hsubeq⟩ := nswSub_eq_some.mp hdec
        have hnat : decLen.toNat = len.toNat - 1 := hsubeq ▸ BitVec.toNat_sub_of_le hle
        have hfits : SubFits 32 len.toNat 1 := hsub.mp ⟨decLen, hdec, hnat⟩
        have hiff : SignedFits 32 decLen.toNat ↔ SignedFits 32 len.toNat := by
          have := hfits.2
          rw [hnat]
          unfold SignedFits at this ⊢
          omega
        have hnext : elementLoop.Next len decLen := hbody
        rw [← hiff, ShrinkingLoop.run_of_next hnext]
        exact ih decLen hnext

/-- The byte count is the mathematical one, if there is one. -/
def WriteExact (elem : Elem) (w : Write) : Prop := ∀ b, w.byteLen = some b → b.toNat = w.count * elem.size

theorem byteLen_gives (len : BitVec 32) :
    Gives (nswMul len (BitVec.ofNat 32 elem.size)) (len.toNat * elem.size) ↔ MulFits 32 len.toNat elem.size := by
  have hlen := len.isLt
  by_cases hsize : elem.size < 2 ^ 32
  · have hnat : (BitVec.ofNat 32 elem.size).toNat = elem.size := by
      rw [BitVec.toNat_ofNat, Nat.mod_eq_of_lt hsize]
    have hgives := nswMul_gives len (BitVec.ofNat 32 elem.size) (by decide)
    rwa [hnat] at hgives
  · rcases Nat.eq_zero_or_pos len.toNat with hzero | hpos
    · have hlenZero : len = 0#32 := BitVec.eq_of_toNat_eq hzero
      rw [hzero, Nat.zero_mul]
      refine iff_of_true ⟨0, nswMul_eq_some.mpr ⟨?_, ?_⟩, rfl⟩ (.inl ?_)
      · rw [hlenZero, BitVec.toInt_zero, zero_mul]
        exact ⟨by decide, by decide⟩
      · rw [hlenZero, BitVec.zero_mul]
        rfl
      · rw [Nat.zero_mul]
        exact Nat.two_pow_pos 31
    · have hlarge : 2 ^ 32 ≤ len.toNat * elem.size := calc
        2 ^ 32 ≤ elem.size := Nat.le_of_not_lt hsize
        _ ≤ len.toNat * elem.size := Nat.le_mul_of_pos_left _ hpos
      refine iff_of_false (fun ⟨c, _, hc⟩ ↦ ?_) fun h ↦ ?_
      · have := c.isLt
        omega
      · rcases h with h | h
        · unfold SignedFits at h
          omega
        · omega

end

/-! ## Growing -/

section

variable {elem : Elem} {malloc : Bool} {array : Storage}

/-- The elements that are written are in the block. -/
def WriteInside (elem : Elem) (w : Write) : Prop := (w.start + w.count) * elem.size ≤ w.block

theorem writeElems_cases (elem : Elem) (atOnce : Bool) (start len : BitVec 32) (block : ℕ) :
    (WriteFits elem atOnce len.toNat ∧ ∃ byteLen, WriteExact elem ⟨start.toNat, len.toNat, byteLen, block⟩ ∧
      writeElems elem atOnce start len block = .ok ⟨start.toNat, len.toNat, byteLen, block⟩) ∨
    (¬WriteFits elem atOnce len.toNat ∧ (writeElems elem atOnce start len block = .error .undefined ∨
      ∃ w, writeElems elem atOnce start len block = .ok w ∧ ¬WriteExact elem w)) := by
  cases atOnce with
  | false =>
    rw [writeElems, if_neg Bool.false_ne_true, WriteFits, if_neg Bool.false_ne_true]
    rcases elementLoop_run len with ⟨hfits, hrun⟩ | ⟨hfits, hrun⟩
    · exact .inl ⟨hfits, none, nofun, by rw [hrun]; rfl⟩
    · exact .inr ⟨hfits, .inl (by rw [hrun]; rfl)⟩
  | true =>
    rw [writeElems, if_pos rfl, WriteFits, if_pos rfl, byteLen, ← byteLen_gives]
    cases hmul : nswMul len (BitVec.ofNat 32 elem.size) with
    | none => exact .inr ⟨nofun, .inl rfl⟩
    | some bytes =>
      by_cases hexact : bytes.toNat = len.toNat * elem.size
      · refine .inl ⟨⟨bytes, rfl, hexact⟩, some bytes, fun b hb ↦ ?_, rfl⟩
        cases hb
        exact hexact
      · refine .inr ⟨fun ⟨c, hc, hnat⟩ ↦ hexact ?_, .inr ⟨_, rfl, fun h ↦ hexact (h bytes rfl)⟩⟩
        cases hc
        exact hnat

theorem callAlloc_eq (elem : Elem) (count : BitVec 32) :
    callAlloc elem true count = .ok (count.toNat * elem.size % 2 ^ 64) := by
  have hcount : (count.setWidth 64).toNat = count.toNat := by
    rw [BitVec.toNat_setWidth, Nat.mod_eq_of_lt (by have := count.isLt; omega)]
  rw [callAlloc, if_pos rfl, BitVec.toNat_mul, BitVec.toNat_ofNat, hcount, Nat.mod_mul_mod, Nat.mul_comm]

/-- The array has this capacity and a block of the right size, and its elements have been moved to it. -/
def Grown (elem : Elem) (array : Storage) (cap : ℕ) (r : Except Stop (Storage × List Write)) : Prop :=
  ∃ array' moved, r = .ok (array', moved) ∧ array'.cap.toNat = cap ∧ array'.len = array.len ∧
    array'.bytes = cap * elem.size ∧ ∀ w ∈ moved, WriteExact elem w ∧ WriteInside elem w

/-- Undefined, or the block has the wrong size, or there has been a wrong byte count. -/
def Broken (elem : Elem) (r : Except Stop (Storage × List Write)) : Prop :=
  r = .error .undefined ∨ ∃ array' writes, r = .ok (array', writes) ∧
    (array'.bytes ≠ array'.cap.toNat * elem.size ∨ ∃ w ∈ writes, ¬WriteExact elem w)

theorem reallocate_cases (array : Storage) {cap : BitVec 32} (hle : array.len.toNat ≤ cap.toNat) :
    (ReallocFits elem true array.len.toNat cap.toNat ∧
      Grown elem array cap.toNat (reallocate elem true array cap)) ∨
    (¬ReallocFits elem true array.len.toNat cap.toNat ∧ Broken elem (reallocate elem true array cap)) := by
  have heq : reallocate elem true array cap =
      (moveN elem 0 array.len (cap.toNat * elem.size % 2 ^ 64)).map fun moved ↦
        (⟨cap, array.len, cap.toNat * elem.size % 2 ^ 64⟩, [moved]) := by
    rw [reallocate, callAlloc_eq]
    rfl
  rw [heq, moveN]
  rcases writeElems_cases elem (elem.cat ≠ .nontrivial) 0 array.len (cap.toNat * elem.size % 2 ^ 64) with
    ⟨hfits, bytes, hexact, hwrite⟩ | ⟨hfits, hwrite⟩
  · rw [hwrite]
    by_cases hblock : cap.toNat * elem.size < 2 ^ 64
    · have hmod := Nat.mod_eq_of_lt hblock
      refine .inl ⟨fun _ ↦ ⟨hblock, hfits⟩, _, _, rfl, rfl, rfl, hmod, fun w hw ↦ ?_⟩
      rw [List.mem_singleton.mp hw]
      refine ⟨hexact, ?_⟩
      have hinside : (0 + array.len.toNat) * elem.size ≤ cap.toNat * elem.size % 2 ^ 64 := calc
        (0 + array.len.toNat) * elem.size = array.len.toNat * elem.size := by rw [Nat.zero_add]
        _ ≤ cap.toNat * elem.size := Nat.mul_le_mul_right _ hle
        _ = cap.toNat * elem.size % 2 ^ 64 := hmod.symm
      exact hinside
    · refine .inr ⟨fun h ↦ hblock (h rfl).1, .inr ⟨_, _, rfl, .inl fun h ↦ hblock ?_⟩⟩
      have h' : cap.toNat * elem.size % 2 ^ 64 = cap.toNat * elem.size := h
      rw [← h']
      exact Nat.mod_lt _ (by decide)
  · refine .inr ⟨fun h ↦ hfits (h rfl).2, ?_⟩
    rcases hwrite with hwrite | ⟨w, hwrite, hexact⟩
    · rw [hwrite]
      exact .inl rfl
    · rw [hwrite]
      exact .inr ⟨_, _, rfl, .inr ⟨w, List.mem_singleton_self w, hexact⟩⟩

/-- An array grows to the least power of two, or the program panics. -/
theorem grow_cases (hsized : WellSized elem array) {ceiled : Option (BitVec 32)} {n : ℕ}
    (hceil : 0 < n → SignedFits 32 n ∧ (∃ cap, ceiled = some cap ∧ cap.toNat = leastPow2 n) ∨
      ¬SignedFits 32 n ∧ ceiled = none) {needed : Bool} (hneeded : needed = true ↔ array.cap.toNat < n) :
    (array.cap.toNat < n ∧ malloc = false ∧ SignedFits 32 n ∧ grow elem malloc array needed ceiled = .error .panic) ∨
    ((malloc = true ∨ n ≤ array.cap.toNat) ∧ (array.cap.toNat < n → GrowFits elem malloc array.len.toNat n) ∧
      Grown elem array (if array.cap.toNat < n then leastPow2 n else array.cap.toNat)
        (grow elem malloc array needed ceiled)) ∨
    (array.cap.toNat < n ∧ ¬GrowFits elem malloc array.len.toNat n ∧
      Broken elem (grow elem malloc array needed ceiled)) := by
  by_cases hc : array.cap.toNat < n
  · rw [if_pos hc, grow, if_pos (hneeded.mpr hc)]
    rcases hceil (Nat.zero_lt_of_lt hc) with ⟨hfits, cap, rfl, hcap⟩ | ⟨hfits, rfl⟩
    · cases malloc with
      | false => exact .inl ⟨hc, rfl, hfits, rfl⟩
      | true =>
        have hlen : array.len.toNat ≤ cap.toNat := calc
          array.len.toNat ≤ array.cap.toNat := hsized.len_le
          _ ≤ n := hc.le
          _ ≤ cap.toNat := hcap ▸ le_leastPow2 n
        rcases reallocate_cases array hlen with ⟨hrealloc, hgrown⟩ | ⟨hrealloc, hbroken⟩
        · rw [hcap] at hrealloc hgrown
          exact .inr (.inl ⟨.inl rfl, fun _ ↦ ⟨hfits, hrealloc⟩, hgrown⟩)
        · rw [hcap] at hrealloc
          exact .inr (.inr ⟨hc, fun h ↦ hrealloc h.2, hbroken⟩)
    · exact .inr (.inr ⟨hc, fun h ↦ hfits h.1, .inl rfl⟩)
  · rw [if_neg hc, grow, if_neg fun h ↦ hc (hneeded.mp h)]
    refine .inr (.inl ⟨.inr (Nat.le_of_not_lt hc), fun h ↦ absurd h hc, array, [], rfl, rfl, rfl, ?_, nofun⟩)
    exact hsized.bytes

end

/-! ## Each call -/

section

variable {elem : Elem} {malloc : Bool} {array : Storage}

theorem Broken.not_exact {r : Except Stop (Storage × List Write)} (h : Broken elem r) {op : Op} :
    ¬(r = .error .panic ∨ ∃ array' writes, r = .ok (array', writes) ∧ Exact elem array op array' writes) := by
  rcases h with rfl | ⟨array', writes, rfl, hbroken⟩
  · rintro (h | ⟨_, _, h, -⟩) <;> cases h
  · rintro (h | ⟨_, _, h, hexact⟩)
    · cases h
    · cases h
      rcases hbroken with hbytes | ⟨w, hw, hbyteLen⟩
      · exact hbytes hexact.bytes
      · exact hbyteLen (hexact.byteLen w hw)

/-- What follows the growing keeps the block and its capacity. -/
theorem Broken.bind {r : Except Stop (Storage × List Write)} (h : Broken elem r)
    {k : Storage × List Write → Except Stop (Storage × List Write)}
    (hk : ∀ array' moved, k (array', moved) = .error .undefined ∨
      ∃ len w, k (array', moved) = .ok (⟨array'.cap, len, array'.bytes⟩, moved ++ [w])) : Broken elem (r >>= k) := by
  rcases h with rfl | ⟨array', moved, rfl, hbroken⟩
  · exact .inl rfl
  · rcases hk array' moved with hk | ⟨len, w, hk⟩
    · exact .inl hk
    · refine .inr ⟨_, _, hk, hbroken.imp_right fun ⟨w', hw', hexact⟩ ↦ ⟨w', ?_, hexact⟩⟩
      exact List.mem_append_left _ hw'

/-- After the growing, the last elements are written and the length is stored. -/
theorem Grown.exact {op : Op} {n : ℕ} {array' : Storage} {moved : List Write} {len : BitVec 32} {w : Write}
    (hlen : len.toNat = n) (hnew : op.newLen array = n) (hcap : array'.cap.toNat = op.newCap array)
    (hle : n ≤ array'.cap.toNat) (hbytes : array'.bytes = array'.cap.toNat * elem.size)
    (hmoved : ∀ w ∈ moved, WriteExact elem w ∧ WriteInside elem w) (hexact : WriteExact elem w)
    (hend : w.start + w.count = n) (hblock : w.block = array'.bytes) :
    Exact elem array op ⟨array'.cap, len, array'.bytes⟩ (moved ++ [w]) where
  len := hlen.trans hnew.symm
  cap := hcap
  len_le := hlen ▸ hle
  bytes := hbytes
  byteLen w' hw' := by
    rcases List.mem_append.mp hw' with hw' | hw'
    · exact (hmoved w' hw').1
    · rw [List.mem_singleton.mp hw']
      exact hexact
  inside w' hw' := by
    rcases List.mem_append.mp hw' with hw' | hw'
    · exact (hmoved w' hw').2
    · rw [List.mem_singleton.mp hw', hend, hblock, hbytes]
      exact Nat.mul_le_mul_right _ hle

theorem le_newCap (n cap : ℕ) : n ≤ if cap < n then leastPow2 n else cap := by
  split_ifs with h
  · exact le_leastPow2 n
  · exact Nat.le_of_not_lt h

/-- What the writing of the last elements does: either this condition holds and they are written as they should be,
or the program is undefined or has a wrong byte count. -/
def WritesWhen (elem : Elem) (n : ℕ) (W : Prop) (block : ℕ) (r : Except Stop Write) : Prop :=
  (W ∧ ∃ w, r = .ok w ∧ WriteExact elem w ∧ w.start + w.count = n ∧ w.block = block) ∨
    (¬W ∧ (r = .error .undefined ∨ ∃ w, r = .ok w ∧ ¬WriteExact elem w))

theorem WritesWhen.cases {n block : ℕ} {W : Prop} {r : Except Stop Write} (h : WritesWhen elem n W block r) :
    r = .error .undefined ∨ ∃ w, r = .ok w := by
  rcases h with ⟨-, w, hw, -⟩ | ⟨-, hw | ⟨w, hw, -⟩⟩
  · exact .inr ⟨w, hw⟩
  · exact .inl hw
  · exact .inr ⟨w, hw⟩

/-- A function that grows the array, writes elements and stores the length proceeds as it should exactly when both
can be done. -/
theorem grow_then (hsized : WellSized elem array) {ceiled : Option (BitVec 32)} {n : ℕ} {needed : Bool}
    (hceil : 0 < n → SignedFits 32 n ∧ (∃ cap, ceiled = some cap ∧ cap.toNat = leastPow2 n) ∨
      ¬SignedFits 32 n ∧ ceiled = none) (hneeded : needed = true ↔ array.cap.toNat < n)
    {op : Op} (hnew : op.newLen array = n)
    (hnewCap : op.newCap array = if array.cap.toNat < n then leastPow2 n else array.cap.toNat) {len : BitVec 32} (hlen : len.toNat = n)
    (write : ℕ → Except Stop Write) {W : Prop} (hwrite : ∀ block, WritesWhen elem n W block (write block))
    {r : Except Stop (Storage × List Write)}
    (hr : r = grow elem malloc array needed ceiled >>= fun grown ↦
      (write grown.1.bytes).map fun w ↦ (⟨grown.1.cap, len, grown.1.bytes⟩, grown.2 ++ [w])) :
    (r = .error .panic ∨ ∃ array' writes, r = .ok (array', writes) ∧ Exact elem array op array' writes) ↔
      (array.cap.toNat < n → GrowFits elem malloc array.len.toNat n) ∧ (malloc = true ∨ n ≤ array.cap.toNat → W) := by
  subst hr
  rcases @grow_cases elem malloc array hsized ceiled n hceil needed hneeded with
    ⟨hc, hmalloc, hsigned, hpanic⟩ | ⟨hdone, hfits, array', moved, hgrown, hcap, -, hbytes, hmoved⟩ |
      ⟨hc, hfits, hbroken⟩
  · rw [hpanic, hmalloc]
    refine iff_of_true (.inl rfl) ⟨fun _ ↦ ⟨hsigned, nofun⟩, fun h ↦ ?_⟩
    exact h.elim nofun fun hle ↦ absurd hc (Nat.not_lt.mpr hle)
  · rw [hgrown]
    rcases hwrite array'.bytes with ⟨hW, w, hw, hexact, hend, hblock⟩ | ⟨hW, hw⟩
    · refine iff_of_true (.inr ⟨⟨array'.cap, len, array'.bytes⟩, moved ++ [w], ?_, ?_⟩) ⟨hfits, fun _ ↦ hW⟩
      · change (write array'.bytes).map _ = _
        rw [hw]
        rfl
      · refine Grown.exact hlen hnew ?_ ?_ (hcap ▸ hbytes) hmoved hexact hend hblock
        · rw [hcap, hnewCap]
        · exact hcap ▸ le_newCap n array.cap.toNat
    · refine iff_of_false ?_ fun h ↦ hW (h.2 hdone)
      change ¬((write array'.bytes).map _ = _ ∨ ∃ _ _, (write array'.bytes).map _ = _ ∧ _)
      rcases hw with hw | ⟨w, hw, hexact⟩
      · rw [hw]
        exact Broken.not_exact (.inl rfl)
      · rw [hw]
        refine Broken.not_exact (.inr ⟨_, _, rfl, .inr ⟨w, ?_, hexact⟩⟩)
        exact List.mem_append_right _ (List.mem_singleton_self w)
  · refine iff_of_false (Broken.not_exact (hbroken.bind fun array' moved ↦ ?_)) fun h ↦ hfits (h.1 hc)
    rcases (hwrite array'.bytes).cases with hw | ⟨w, hw⟩
    · exact .inl (by rw [hw]; rfl)
    · exact .inr ⟨len, w, by rw [hw]; rfl⟩

theorem proceeds_pushBack (hsized : WellSized elem array) :
    Proceeds elem array ⟨.pushBack, malloc⟩ ↔ Fits elem array ⟨.pushBack, malloc⟩ := by
  have hlenlt := array.len.isLt
  have hcaplt := array.cap.isLt
  have hle := hsized.len_le
  have hone : (1 : BitVec 32).toNat = 1 := rfl
  have hadd := nswAdd_gives array.len 1 (by decide)
  have hneeded : (array.len == array.cap) = true ↔ array.cap.toNat < array.len.toNat + 1 := by
    rw [beq_iff_eq, ← BitVec.toNat_inj]
    omega
  have hfits : Fits elem array ⟨.pushBack, malloc⟩ ↔ AddFits 32 array.len.toNat 1 ∧
      (array.cap.toNat < array.len.toNat + 1 → GrowFits elem malloc array.len.toNat (array.len.toNat + 1)) := by
    rw [Fits, ← hneeded, beq_iff_eq, ← BitVec.toNat_inj]
  rw [hone] at hadd
  rw [hfits, ← hadd, Proceeds, exec]
  dsimp only
  cases hlenPlus1 : nswAdd array.len 1 with
  | none =>
    have heq : btnPushBack elem malloc array = .error .undefined := by
      rw [btnPushBack, hlenPlus1, grow]
      split_ifs <;> rfl
    rw [heq]
    exact iff_of_false (Broken.not_exact (.inl rfl)) nofun
  | some lenPlus1 =>
    obtain ⟨-, hsum⟩ := nswAdd_eq_some.mp hlenPlus1
    by_cases hexact : lenPlus1.toNat = array.len.toNat + 1
    · rw [and_iff_right ⟨lenPlus1, rfl, hexact⟩]
      refine (grow_then (W := True) hsized (hexact ▸ ceilToPow2_cases) hneeded rfl rfl hexact
        (fun block ↦ .ok ⟨array.len.toNat, 1, none, block⟩) (fun block ↦ .inl ⟨trivial, _, rfl, nofun, rfl, rfl⟩) ?_).trans (and_iff_left fun _ ↦ trivial)
      rw [btnPushBack, hlenPlus1]
      rfl
    · -- the length is the greatest number of the type and there is no room
      have hzero : lenPlus1 = 0 := by
        have hmod : lenPlus1.toNat = (array.len.toNat + 1) % 2 ^ 32 := by rw [← hsum, BitVec.toNat_add, hone]
        have hnat : lenPlus1.toNat = 0 := by omega
        exact BitVec.eq_of_toNat_eq hnat
      have hfull : (array.len == array.cap) = true := by
        rw [hneeded]
        have hlt := lenPlus1.isLt
        have hmod : lenPlus1.toNat = (array.len.toNat + 1) % 2 ^ 32 := by rw [← hsum, BitVec.toNat_add, hone]
        omega
      have hceil : ceilToPow2 0 = none := by decide
      have heq : btnPushBack elem malloc array = .error .undefined := by
        rw [btnPushBack, hlenPlus1, hzero, Option.bind_some, hceil, grow, if_pos hfull]
        rfl
      rw [heq]
      exact iff_of_false (Broken.not_exact (.inl rfl)) fun h ↦ hexact h.1.toNat_eq

theorem ult_iff (a b : BitVec 32) : a.ult b = true ↔ a.toNat < b.toNat := by
  rw [BitVec.ult, decide_eq_true_iff]

theorem copyN_writes (start len : BitVec 32) {n : ℕ} (hn : start.toNat + len.toNat = n) (block : ℕ) :
    WritesWhen elem n (WriteFits elem (elem.cat = .trivially_copyable) len.toNat) block
      (copyN elem start len block) := by
  rcases writeElems_cases elem (elem.cat = .trivially_copyable) start len block with
    ⟨hfits, bytes, hexact, hwrite⟩ | hwrite
  · exact .inl ⟨hfits, _, hwrite, hexact, hn, rfl⟩
  · exact .inr hwrite

theorem proceeds_append (hsized : WellSized elem array) (otherLen : BitVec 32) :
    Proceeds elem array ⟨.append otherLen, malloc⟩ ↔ Fits elem array ⟨.append otherLen, malloc⟩ := by
  have hlenlt := array.len.isLt
  have hle := hsized.len_le
  have hadd := nswAdd_gives array.len otherLen (by decide)
  simp only [Fits, ← hadd, Proceeds, exec]
  cases htotal : nswAdd array.len otherLen with
  | none =>
    have heq : btnAppend elem malloc array otherLen = .error .undefined := by
      rw [btnAppend, htotal]
      rfl
    rw [heq]
    exact iff_of_false (Broken.not_exact (.inl rfl)) nofun
  | some totalLen =>
    obtain ⟨-, hsum⟩ := nswAdd_eq_some.mp htotal
    have heq : btnAppend elem malloc array otherLen =
        grow elem malloc array (array.cap.ult totalLen) (ceilToPow2 totalLen) >>= fun grown ↦
          (copyN elem array.len otherLen grown.1.bytes).map fun w ↦
            (⟨grown.1.cap, totalLen, grown.1.bytes⟩, grown.2 ++ [w]) := by
      rw [btnAppend, htotal]
      rfl
    by_cases hexact : totalLen.toNat = array.len.toNat + otherLen.toNat
    · rw [and_iff_right ⟨totalLen, rfl, hexact⟩]
      have hneeded := ult_iff array.cap totalLen
      rw [hexact] at hneeded
      exact grow_then hsized (hexact ▸ ceilToPow2_cases) hneeded rfl rfl hexact _ (copyN_writes _ _ rfl) heq
    · -- the sum is smaller than the length, so the array does not grow
      have hmod : totalLen.toNat = (array.len.toNat + otherLen.toNat) % 2 ^ 32 := by rw [← hsum, BitVec.toNat_add]
      have hsmall : ¬array.cap.ult totalLen = true := by
        rw [ult_iff]
        have hother := otherLen.isLt
        omega
      rw [heq, grow, if_neg hsmall]
      refine iff_of_false ?_ fun h ↦ hexact h.1.toNat_eq
      change ¬((copyN elem array.len otherLen array.bytes).map _ = _ ∨
        ∃ _ _, (copyN elem array.len otherLen array.bytes).map _ = _ ∧ _)
      have hwrites := @copyN_writes elem array.len otherLen _ rfl array.bytes
      rcases hwrites.cases with hcopy | ⟨w, hcopy⟩
      · rw [hcopy]
        exact Broken.not_exact (.inl rfl)
      · rw [hcopy]
        rintro (h | ⟨_, _, h, hexact'⟩)
        · cases h
        · cases h
          exact hexact hexact'.len

theorem constructN_writes {start len : BitVec 32} {n : ℕ} (hle : start.toNat ≤ n) (hlen : len.toNat = n - start.toNat)
    (block : ℕ) : WritesWhen elem n (WriteFits elem (elem.cat = .trivially_copyable) (n - start.toNat)) block
      (constructN elem start len block) := by
  have hn : start.toNat + len.toNat = n := by omega
  rw [← hlen]
  exact copyN_writes start len hn block

theorem proceeds_resize (hsized : WellSized elem array) (newLen : BitVec 32) :
    Proceeds elem array ⟨.resize newLen, malloc⟩ ↔ Fits elem array ⟨.resize newLen, malloc⟩ := by
  have hle := hsized.len_le
  simp only [Fits, Proceeds, exec]
  by_cases hshrink : newLen.toNat ≤ array.len.toNat
  · have hule : newLen.ule array.len = true := decide_eq_true hshrink
    have heq : btnResize elem malloc array newLen = (destroyN elem (nswSub array.len newLen)).map fun _ ↦
        (⟨array.cap, newLen, array.bytes⟩, []) := if_pos hule
    have hexact : Exact elem array (.resize newLen) ⟨array.cap, newLen, array.bytes⟩ [] := by
      have hcap : ¬array.cap.toNat < newLen.toNat := Nat.not_lt.mpr (hshrink.trans hle)
      exact ⟨rfl, (if_neg hcap).symm, hshrink.trans hle, hsized.bytes, nofun, nofun⟩
    rw [heq, if_pos hshrink]
    by_cases htrivial : elem.cat = .trivially_copyable
    · rw [destroyN, if_pos htrivial]
      exact iff_of_true (.inr ⟨_, _, rfl, hexact⟩) fun h ↦ absurd htrivial h
    · rw [destroyN, if_neg htrivial, imp_iff_right htrivial, ← nswSub_gives array.len newLen (by decide) hshrink]
      cases hdiff : nswSub array.len newLen with
      | none => exact iff_of_false (Broken.not_exact (.inl rfl)) fun h ↦ nomatch h.1
      | some count =>
        obtain ⟨-, hcount⟩ := nswSub_eq_some.mp hdiff
        have hnat : count.toNat = array.len.toNat - newLen.toNat := hcount ▸ BitVec.toNat_sub_of_le hshrink
        rw [← hnat, and_iff_right ⟨count, rfl, rfl⟩]
        change (Except.map _ (elementLoop.run count) = _ ∨ ∃ _ _, Except.map _ (elementLoop.run count) = _ ∧ _) ↔ _
        rcases elementLoop_run count with ⟨hsigned, hrun⟩ | ⟨hsigned, hrun⟩
        · rw [hrun]
          exact iff_of_true (.inr ⟨_, _, rfl, hexact⟩) hsigned
        · rw [hrun]
          exact iff_of_false (Broken.not_exact (.inl rfl)) hsigned
  · have hule : ¬newLen.ule array.len = true := fun h ↦ hshrink (of_decide_eq_true h)
    have hlt := Nat.lt_of_not_le hshrink
    have heq : btnResize elem malloc array newLen =
        grow elem malloc array (array.cap.ult newLen) (ceilToPow2 newLen) >>= fun grown ↦
          (use (nswSub newLen array.len) >>= fun count ↦ constructN elem array.len count grown.1.bytes).map fun w ↦
            (⟨grown.1.cap, newLen, grown.1.bytes⟩, grown.2 ++ [w]) := by
      rw [btnResize, if_neg hule]
      refine bind_congr fun grown ↦ ?_
      cases use (nswSub newLen array.len) <;> rfl
    rw [if_neg hshrink, ← nswSub_gives newLen array.len (by decide) hlt.le]
    refine grow_then hsized ceilToPow2_cases (ult_iff _ _) rfl rfl rfl
      (fun block ↦ use (nswSub newLen array.len) >>= fun count ↦ constructN elem array.len count block)
      (fun block ↦ ?_) heq
    cases hdiff : nswSub newLen array.len with
    | none => exact .inr ⟨fun h ↦ (nomatch h.1), .inl rfl⟩
    | some count =>
      obtain ⟨-, hcount⟩ := nswSub_eq_some.mp hdiff
      have hnat : count.toNat = newLen.toNat - array.len.toNat := hcount ▸ BitVec.toNat_sub_of_le hlt.le
      rw [← hnat, and_iff_right ⟨count, rfl, rfl⟩, hnat]
      exact constructN_writes hlt.le hnat block

theorem proceeds_popBack (hsized : WellSized elem array) :
    Proceeds elem array ⟨.popBack, malloc⟩ ↔ Fits elem array ⟨.popBack, malloc⟩ := by
  have hle := hsized.len_le
  simp only [Fits, Proceeds, exec]
  by_cases hzero : array.len = 0
  · have heq : btnPopBack array = .error .panic := if_neg fun h ↦ h hzero
    rw [heq]
    refine iff_of_true (.inl rfl) fun h ↦ absurd ?_ h
    rw [hzero]
    rfl
  · have hpos : array.len.toNat ≠ 0 := fun h ↦ hzero (BitVec.eq_of_toNat_eq h)
    have heq : btnPopBack array = (use (nswSub array.len 1)).map fun len ↦ (⟨array.cap, len, array.bytes⟩, []) :=
      if_pos hzero
    have hsub := nswSub_gives array.len 1 (by decide) (Nat.pos_of_ne_zero hpos)
    have hone : (1 : BitVec 32).toNat = 1 := rfl
    rw [hone] at hsub
    rw [imp_iff_right hpos, ← hsub, heq]
    cases hdiff : nswSub array.len 1 with
    | none => exact iff_of_false (Broken.not_exact (.inl rfl)) nofun
    | some len =>
      obtain ⟨-, hlen⟩ := nswSub_eq_some.mp hdiff
      have hnat : len.toNat = array.len.toNat - 1 := hlen ▸ BitVec.toNat_sub_of_le (Nat.pos_of_ne_zero hpos)
      refine iff_of_true (.inr ⟨_, _, rfl, ?_⟩) ⟨len, rfl, hnat⟩
      have hcap : ¬array.cap.toNat < array.len.toNat - 1 := by omega
      exact ⟨hnat, (if_neg hcap).symm, by change len.toNat ≤ array.cap.toNat; omega, hsized.bytes, nofun, nofun⟩

theorem proceeds_reserve (hsized : WellSized elem array) (cap : BitVec 32) :
    Proceeds elem array ⟨.reserve cap, malloc⟩ ↔ Fits elem array ⟨.reserve cap, malloc⟩ := by
  have hle := hsized.len_le
  simp only [Fits, Proceeds, exec, btnReserve]
  by_cases hgrow : array.cap.toNat < cap.toNat
  · rw [if_pos ((ult_iff _ _).mpr hgrow), imp_iff_right hgrow]
    cases malloc with
    | false => exact iff_of_true (.inl rfl) nofun
    | true =>
      rcases @reallocate_cases elem array cap (hle.trans hgrow.le) with
        ⟨hfits, array', moved, hgrown, hcap, hlen, hbytes, hmoved⟩ | ⟨hfits, hbroken⟩
      · refine iff_of_true (.inr ⟨array', moved, hgrown, ?_⟩) hfits
        refine ⟨congrArg _ hlen, ?_, ?_, hcap ▸ hbytes, fun w hw ↦ (hmoved w hw).1, fun w hw ↦ (hmoved w hw).2⟩
        · rw [hcap, Op.newCap, max_eq_right hgrow.le]
        · rw [hlen, hcap]
          exact hle.trans hgrow.le
      · exact iff_of_false hbroken.not_exact hfits
  · rw [if_neg fun h ↦ hgrow ((ult_iff _ _).mp h)]
    refine iff_of_true (.inr ⟨array, [], rfl, ?_⟩) fun h ↦ absurd h hgrow
    exact ⟨rfl, (max_eq_left (Nat.le_of_not_lt hgrow)).symm, hle, hsized.bytes, nofun, nofun⟩

/-- A call proceeds with the mathematical numbers, or panics, exactly when its condition holds. -/
theorem proceeds_iff (hsized : WellSized elem array) (call : Call) : Proceeds elem array call ↔ Fits elem array call := by
  obtain ⟨op, malloc⟩ := call
  cases op with
  | pushBack => exact proceeds_pushBack hsized
  | append otherLen => exact proceeds_append hsized otherLen
  | popBack => exact proceeds_popBack hsized
  | resize len => exact proceeds_resize hsized len
  | reserve cap => exact proceeds_reserve hsized cap

end

/-! ## Runs of calls -/

section

variable {elem : Elem} {array : Storage}

/-- How an array begins: empty, or with as many elements as a literal has. -/
def Constructed (elem : Elem) (array : Storage) : Prop :=
  array = arrDefCtor ∨ ∃ size : BitVec 32, size.toNat * elem.size < 2 ^ 64 ∧ arrLenCtor elem true size = .ok array

theorem Constructed.wellSized (h : Constructed elem array) : WellSized elem array := by
  rcases h with rfl | ⟨size, hsize, hctor⟩
  · exact ⟨Nat.le_refl _, (Nat.zero_mul _).symm⟩
  · rw [arrLenCtor, callAlloc_eq, Nat.mod_eq_of_lt hsize] at hctor
    cases hctor
    exact ⟨Nat.le_refl _, rfl⟩

theorem step_wellSized {array' : Storage} {call : Call} (hsized : WellSized elem array) (hfits : Fits elem array call)
    (hstep : step elem array call = some array') : WellSized elem array' := by
  rcases (proceeds_iff hsized call).mpr hfits with hpanic | ⟨_, writes, hexec, hexact⟩
  · rw [step, hpanic] at hstep
    cases hstep
  · rw [step, hexec] at hstep
    cases hstep
    exact ⟨hexact.len_le, hexact.bytes⟩

/-- In every array that a run of such calls leads to, a call proceeds with the mathematical numbers, or panics,
exactly when its condition holds. -/
theorem run_proceeds_iff {elem : Elem} {start array : Storage} {calls : List Call} (hstart : Constructed elem start)
    (hmeets : RunMeets (step elem) (Fits elem) start calls) (hrun : run (step elem) start calls = some array)
    (call : Call) : Proceeds elem array call ↔ Fits elem array call :=
  proceeds_iff (run_invariant_of (fun _ _ _ ↦ step_wellSized) hmeets hrun hstart.wellSized) call

/-- After an element has been added to an empty array of integers, another one can be added. -/
theorem run_proceeds_pushBack :
    Proceeds ⟨4, .trivially_copyable⟩ ⟨1, 1, 4⟩ ⟨.pushBack, true⟩ ↔
      Fits ⟨4, .trivially_copyable⟩ ⟨1, 1, 4⟩ ⟨.pushBack, true⟩ := by
  have hblock : leastPow2 (0 + 1) * 4 < 2 ^ 64 := by
    rw [leastPow2, Nat.zero_add, Nat.clog_one_right]
    decide
  have hfits : Fits ⟨4, .trivially_copyable⟩ arrDefCtor ⟨.pushBack, true⟩ :=
    ⟨⟨by decide, fun _ _ ↦ by decide⟩, fun _ ↦ ⟨by decide, fun _ ↦ ⟨hblock, .inl (by decide)⟩⟩⟩
  have hstep : step ⟨4, .trivially_copyable⟩ arrDefCtor ⟨.pushBack, true⟩ = some ⟨1, 1, 4⟩ := by decide +kernel
  exact @run_proceeds_iff _ arrDefCtor _ [⟨.pushBack, true⟩] (.inl rfl) ⟨hfits, fun _ _ ↦ trivial⟩
    (by rw [run, hstep]; rfl) ⟨.pushBack, true⟩

/-- Growing an empty array of integers to 2 ^ 29 elements makes the byte count overflow. -/
theorem not_proceeds : ¬∀ (elem : Elem) (start array : Storage) (calls : List Call) (call : Call),
    Constructed elem start → run (step elem) start calls = some array → Proceeds elem array call := by
  intro h
  have hproceeds := h ⟨4, .trivially_copyable⟩ arrDefCtor arrDefCtor [] ⟨.resize (2 ^ 29), true⟩ (.inl rfl) rfl
  have hundefined : exec ⟨4, .trivially_copyable⟩ arrDefCtor ⟨.resize (2 ^ 29), true⟩ = .error .undefined := by
    decide +kernel
  rw [Proceeds, hundefined] at hproceeds
  rcases hproceeds with h | ⟨_, _, h, -⟩ <;> cases h

end

end Stela.CodeGen.ArrayLengths
