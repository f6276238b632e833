import Mathlib.Data.Int.ModEq

/-!
# Integers of fixed widths

An integer type has a width and is signed or not. A cast between two of them extends the sign or zeros of its
operand, or truncates it. `resize` is such a cast: its result is the number that the type represents and that is
congruent to the operand.
-/

namespace Stela.Library.FixedWidth

variable {w v : ℕ}

/-- The number that the bits stand for. -/
def value (signed : Bool) (x : BitVec w) : ℤ := if signed then x.toInt else x.toNat

/-- Some bits of this width stand for the number. -/
def Represents (signed : Bool) (w : ℕ) (i : ℤ) : Prop := ∃ x : BitVec w, value signed x = i

/-- Bits of another width that extend the sign, or zeros; fewer bits are the lowest ones in both cases. -/
def resize (signed : Bool) (v : ℕ) (x : BitVec w) : BitVec v := if signed then x.signExtend v else x.setWidth v

theorem ofInt_value (signed : Bool) (x : BitVec w) : BitVec.ofInt w (value signed x) = x := by
  unfold value
  cases signed with
  | true => exact BitVec.ofInt_toInt
  | false => exact (BitVec.ofInt_natCast w x.toNat).trans (BitVec.ofNat_toNat w x |>.trans (BitVec.setWidth_eq x))

theorem resize_eq_ofInt (signed : Bool) (x : BitVec w) : resize signed v x = BitVec.ofInt v (value signed x) := by
  unfold resize value
  cases signed with
  | true => rfl
  | false => exact ((BitVec.ofInt_natCast v x.toNat).trans (BitVec.ofNat_toNat v x)).symm

/-- Truncating does not depend on the sign. -/
theorem resize_of_le (signed : Bool) (x : BitVec w) (h : v ≤ w) : resize signed v x = x.setWidth v := by
  cases signed with
  | true => exact BitVec.signExtend_eq_setWidth_of_le x h
  | false => rfl

theorem value_ofInt_modEq (signed : Bool) (i : ℤ) : value signed (BitVec.ofInt w i) ≡ i [ZMOD (2 ^ w : ℕ)] := by
  unfold value
  cases signed with
  | true =>
    rw [if_pos rfl, BitVec.toInt_ofInt]
    exact Int.bmod_emod
  | false =>
    have hpos : 0 < 2 ^ w := Nat.two_pow_pos w
    rw [if_neg Bool.false_ne_true, BitVec.toNat_ofInt, Int.toNat_of_nonneg (Int.emod_nonneg _ (by omega))]
    exact Int.mod_modEq i _

theorem value_ofInt {signed : Bool} {i : ℤ} (h : Represents signed w i) : value signed (BitVec.ofInt w i) = i := by
  obtain ⟨x, rfl⟩ := h
  rw [ofInt_value]

/-- A number that the other type represents is not changed. -/
theorem value_resize {signed signed' : Bool} {x : BitVec w} (h : Represents signed' v (value signed x)) :
    value signed' (resize signed v x) = value signed x := by
  rw [resize_eq_ofInt, value_ofInt h]

theorem value_resize_modEq (signed signed' : Bool) (x : BitVec w) :
    value signed' (resize signed v x) ≡ value signed x [ZMOD (2 ^ v : ℕ)] := by
  rw [resize_eq_ofInt]
  exact value_ofInt_modEq signed' _

/-- Equal bits are congruent numbers, whatever the sign. -/
theorem ofInt_congr {i j : ℤ} (h : i ≡ j [ZMOD (2 ^ w : ℕ)]) : BitVec.ofInt w i = BitVec.ofInt w j := by
  apply BitVec.eq_of_toNat_eq
  rw [BitVec.toNat_ofInt, BitVec.toNat_ofInt, h]

/-- Casting to a type that is at least as wide, and back, changes nothing. -/
theorem resize_resize (signed signed' : Bool) (x : BitVec w) (h : w ≤ v) :
    resize signed' w (resize signed v x) = x := by
  have hdvd : ((2 ^ w : ℕ) : ℤ) ∣ (2 ^ v : ℕ) := Int.natCast_dvd_natCast.mpr (Nat.pow_dvd_pow 2 h)
  calc
    resize signed' w (resize signed v x) = BitVec.ofInt w (value signed' (resize signed v x)) := resize_eq_ofInt _ _
    _ = BitVec.ofInt w (value signed x) := ofInt_congr ((value_resize_modEq signed signed' x).of_dvd hdvd)
    _ = x := ofInt_value signed x

end Stela.Library.FixedWidth
