import Stela.Semantic.BuiltinSymbols
import Mathlib.Data.BitVec
import Mathlib.Tactic.Ring

/-!
# Subscripts

The functions `arr_idx_s` and `arr_idx_u` of `generate array.cpp`, which check an index against the length of an array
and return the address of the element.
-/

namespace Stela.CodeGen.Array

open Stela.Syntax Stela.Semantic

/-- A block of memory. -/
structure Block where
  base : BitVec 64
  bytes : ℕ
  fits : base.toNat + bytes ≤ 2 ^ 64

/-- The storage of an array of elements of this size; the first `len` elements lie in the data block. -/
structure Storage (size : ℕ) where
  cap : BitVec 32
  len : BitVec 32
  dat : Block
  holds : len.toNat * size ≤ dat.bytes

/-- An index, by its type. -/
inductive Index where
  | sint (bits : BitVec 32)
  | uint (bits : BitVec 32)

namespace Index

def type : Index → BtnType
  | sint _ => .sint
  | uint _ => .uint

def bits : Index → BitVec 32
  | sint bits => bits
  | uint bits => bits

/-- The index as an integer of its own signedness. -/
def value : Index → ℤ
  | sint bits => bits.toInt
  | uint bits => bits.toNat

end Index

/-- The types of indices are those that the subscript operator is checked to have. -/
theorem Index.exists_iff (type : BtnType) (bits : BitVec 32) :
    (∃ index : Index, index.type = type ∧ index.bits = bits) ↔ validSubscript type = true := by
  constructor
  · rintro ⟨index, rfl, -⟩
    cases index <;> rfl
  · intro h
    cases type with
    | sint => exact ⟨.sint bits, rfl, rfl⟩
    | uint => exact ⟨.uint bits, rfl, rfl⟩
    | _ => cases h

inductive Outcome where
  | ret (address : BitVec 64)
  | panic
  | poison

/-- The address of an element, or poison when it is not in the block. -/
def inBoundsGEP (size : ℕ) (block : Block) (idx : BitVec 64) : Option (BitVec 64) :=
  if 0 ≤ idx.toInt * size ∧ idx.toInt * size ≤ block.bytes then some (block.base + BitVec.ofInt 64 (idx.toInt * size))
  else none

def arrayIndex (size : ℕ) (block : Block) (idx : BitVec 32) : Option (BitVec 64) :=
  inBoundsGEP size block (idx.setWidth 64)

def checkSignedBounds (index size : BitVec 32) : Bool := (0#32).sle index && index.slt size

def checkUnsignedBounds (index size : BitVec 32) : Bool := index.ult size

section

variable {size : ℕ} (array : Storage size)

def generateArrayIdx (checkBounds : BitVec 32 → BitVec 32 → Bool) (idx : BitVec 32) : Outcome :=
  if checkBounds idx array.len then (arrayIndex size array.dat idx).elim .poison .ret else .panic

def arrIdxS (idx : BitVec 32) : Outcome := generateArrayIdx array checkSignedBounds idx

def arrIdxU (idx : BitVec 32) : Outcome := generateArrayIdx array checkUnsignedBounds idx

/-- `visit(ast::Subscript &)`. -/
def visitSubscript (index : Index) : Outcome :=
  if index.type = .sint then arrIdxS array index.bits else arrIdxU array index.bits

/-- The index is that of an element. -/
def InBounds (index : Index) : Prop := 0 ≤ index.value ∧ index.value < array.len.toNat

/-- The subscript gives the address of the element with the index, and nothing else but a panic. -/
structure ExactlyChecked (index : Index) : Prop where
  ret : ∀ address, visitSubscript array index = .ret address ↔
    InBounds array index ∧ (address.toNat : ℤ) = array.dat.base.toNat + index.value * size
  panic : visitSubscript array index = .panic ↔ ¬InBounds array index

end

section

variable {size : ℕ} {array : Storage size} {idx : BitVec 32}

theorem toInt_setWidth (idx : BitVec 32) : (idx.setWidth 64).toInt = idx.toNat := by
  have hlt := idx.isLt
  rw [BitVec.toInt_eq_toNat_cond, BitVec.toNat_setWidth, Nat.mod_eq_of_lt (by omega), if_pos (by omega)]

/-- Every element before the length has an address. -/
theorem arrayIndex_of_lt (hidx : idx.toNat < array.len.toNat) :
    ∃ address, arrayIndex size array.dat idx = some address ∧
      (address.toNat : ℤ) = array.dat.base.toNat + idx.toNat * size := by
  have hend : (idx.toNat + 1) * size ≤ array.dat.bytes := calc
    (idx.toNat + 1) * size ≤ array.len.toNat * size := Nat.mul_le_mul_right size hidx
    _ ≤ array.dat.bytes := array.holds
  have hfits := array.dat.fits
  have hbase := array.dat.base.isLt
  have hcast : (idx.toNat : ℤ) * size = (idx.toNat * size : ℕ) := (Nat.cast_mul _ _).symm
  rw [Nat.succ_mul] at hend
  rw [arrayIndex, inBoundsGEP, toInt_setWidth, hcast, if_pos (by omega)]
  refine ⟨_, rfl, ?_⟩
  rw [BitVec.ofInt_natCast, BitVec.toNat_add, BitVec.toNat_ofNat]
  have hzero : size = 0 → idx.toNat * size = 0 := fun h ↦ mul_eq_zero_of_right _ h
  omega

theorem checkUnsignedBounds_iff : checkUnsignedBounds idx array.len = true ↔ idx.toNat < array.len.toNat := by
  rw [checkUnsignedBounds, BitVec.ult, decide_eq_true_iff]

theorem checkSignedBounds_iff :
    checkSignedBounds idx array.len = true ↔ 0 ≤ idx.toInt ∧ idx.toInt < array.len.toInt := by
  rw [checkSignedBounds, Bool.and_eq_true, BitVec.sle_iff_toInt_le, BitVec.slt_iff_toInt_lt, BitVec.toInt_zero]

/-- The bounds as the index function of its type checks them. -/
theorem visitSubscript_cases (array : Storage size) (index : Index) :
    (∃ address, visitSubscript array index = .ret address ∧ InBounds array index ∧
      (address.toNat : ℤ) = array.dat.base.toNat + index.value * size ∧
        (index.type = .sint → array.len.toNat < 2 ^ 31)) ∨
    visitSubscript array index = .panic ∧
      (InBounds array index ↔ index.type = .sint ∧ 0 ≤ index.value ∧ 2 ^ 31 ≤ array.len.toNat) := by
  have hret {idx : BitVec 32} {check : BitVec 32 → BitVec 32 → Bool} (hcheck : check idx array.len = true)
      (hidx : idx.toNat < array.len.toNat) : ∃ address, generateArrayIdx array check idx = .ret address ∧
        (address.toNat : ℤ) = array.dat.base.toNat + idx.toNat * size := by
    obtain ⟨address, haddress, hnat⟩ := arrayIndex_of_lt hidx
    refine ⟨address, ?_, hnat⟩
    rw [generateArrayIdx, if_pos hcheck, haddress]
    rfl
  have hlen := array.len.isLt
  cases index with
  | uint bits =>
    by_cases hcheck : checkUnsignedBounds bits array.len = true
    · have hidx := checkUnsignedBounds_iff.mp hcheck
      obtain ⟨address, haddress, hnat⟩ := hret hcheck hidx
      exact .inl ⟨address, haddress, ⟨Int.natCast_nonneg _, Int.ofNat_lt.mpr hidx⟩, hnat, nofun⟩
    · refine .inr ⟨if_neg hcheck, iff_of_false (fun h ↦ hcheck ?_) nofun⟩
      exact checkUnsignedBounds_iff.mpr (Int.ofNat_lt.mp h.2)
  | sint bits =>
    have hbits := bits.isLt
    by_cases hcheck : checkSignedBounds bits array.len = true
    · obtain ⟨hnonneg, hlt⟩ := checkSignedBounds_iff.mp hcheck
      rw [BitVec.toInt_eq_toNat_cond] at hnonneg
      have hvalue : bits.toInt = bits.toNat := by
        rw [BitVec.toInt_eq_toNat_cond, if_pos]
        split_ifs at hnonneg <;> omega
      have hsmall : array.len.toNat < 2 ^ 31 ∧ bits.toNat < array.len.toNat := by
        rw [hvalue, BitVec.toInt_eq_toNat_cond] at hlt
        split_ifs at hlt <;> omega
      obtain ⟨address, haddress, hnat⟩ := hret hcheck hsmall.2
      refine .inl ⟨address, haddress, ?_, ?_, fun _ ↦ hsmall.1⟩
      · rw [InBounds, Index.value, hvalue]
        exact ⟨Int.natCast_nonneg _, Int.ofNat_lt.mpr hsmall.2⟩
      · rw [Index.value, hvalue, hnat]
    · refine .inr ⟨if_neg hcheck, ?_⟩
      rw [checkSignedBounds_iff, @BitVec.toInt_eq_toNat_cond 32 array.len] at hcheck
      have hint := @BitVec.toInt_lt 32 bits
      simp only [InBounds, Index.value, Index.type, true_and]
      split_ifs at hcheck <;> omega

/-- A subscript is checked exactly, unless the index is signed and not negative, and the length is no signed
integer: then the subscript panics. -/
theorem exactlyChecked_iff (array : Storage size) (index : Index) :
    ExactlyChecked array index ↔ (index.type = .sint → 0 ≤ index.value → array.len.toNat < 2 ^ 31) := by
  rcases visitSubscript_cases array index with ⟨address, haddress, hin, hnat, hlen⟩ | ⟨hpanic, hin⟩
  · refine iff_of_true ⟨fun address' ↦ ?_, ?_⟩ fun hsint _ ↦ hlen hsint
    · rw [haddress, Outcome.ret.injEq, ← hnat, Int.natCast_inj, ← BitVec.toNat_inj]
      exact ⟨fun h ↦ ⟨hin, h.symm⟩, fun h ↦ h.2.symm⟩
    · rw [haddress]
      exact iff_of_false nofun fun h ↦ h hin
  · have hexact : ExactlyChecked array index ↔ ¬InBounds array index := by
      refine ⟨fun h ↦ h.panic.mp hpanic, fun hout ↦ ⟨fun address ↦ ?_, iff_of_true hpanic hout⟩⟩
      rw [hpanic]
      exact iff_of_false nofun fun h ↦ hout h.1
    rw [hexact, hin, not_and, not_and]
    simp only [not_le]

/-- An array of 2 ^ 31 bytes. -/
def largeArray : Storage 1 := ⟨2 ^ 31, 2 ^ 31, ⟨2 ^ 32, 2 ^ 31, by decide⟩, by decide⟩

/-- The first element of an array of 2 ^ 31 bytes is not reached with the signed index zero. -/
theorem not_exactlyChecked : ¬∀ (size : ℕ) (array : Storage size) (index : Index), ExactlyChecked array index := by
  intro h
  have hpanic : visitSubscript largeArray (.sint 0) = .panic := rfl
  exact (h 1 largeArray (.sint 0)).panic.mp hpanic ⟨by decide, by decide⟩

end

end Stela.CodeGen.Array
