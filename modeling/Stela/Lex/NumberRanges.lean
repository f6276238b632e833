import Stela.Lex.NumberLiteral

/-!
# Integers in the number types

An integer that lies in the range of an integer type is kept by the conversion to it.
-/

namespace Stela.Lex

open Stela.Library ParseString

namespace NumberType

theorem truncate_intCast (n : ℤ) : truncate (n : ℚ) = n := by
  rw [truncate]
  split
  · exact Int.floor_intCast n
  · rw [← Int.cast_neg, Int.floor_intCast, neg_neg]

/-- The bounds of an integer type, and the number of values it has. -/
structure IsRange (ty : NumberType) (lo hi modulus : ℤ) : Prop where
  lowest : ty.lowest = lo
  max : ty.max = hi
  card : modulus = hi - lo + 1
  cast : ∀ q, ty.cast q = wrap ty modulus (truncate q)

theorem isRange_byte : IsRange byte 0 255 (2 ^ 8) :=
  ⟨by norm_num [lowest], by norm_num [max], by norm_num, fun _ ↦ rfl⟩

theorem isRange_char : IsRange char (-128) 127 (2 ^ 8) :=
  ⟨by norm_num [lowest], by norm_num [max], by norm_num, fun _ ↦ rfl⟩

theorem isRange_sint : IsRange sint (-2 ^ 31) (2 ^ 31 - 1) (2 ^ 32) :=
  ⟨by norm_num [lowest], by norm_num [max], by norm_num, fun _ ↦ rfl⟩

theorem isRange_uint : IsRange uint 0 (2 ^ 32 - 1) (2 ^ 32) :=
  ⟨by norm_num [lowest], by norm_num [max], by norm_num, fun _ ↦ rfl⟩

theorem isRange_longLong : IsRange longLong (-2 ^ 63) (2 ^ 63 - 1) (2 ^ 64) :=
  ⟨by norm_num [lowest], by norm_num [max], by norm_num, fun _ ↦ rfl⟩

variable {ty : NumberType} {lo hi modulus n : ℤ}

theorem IsRange.wrap_eq (h : IsRange ty lo hi modulus) (hlo : lo ≤ n) (hhi : n ≤ hi) : wrap ty modulus n = n := by
  rw [wrap, h.lowest, Int.floor_intCast, Int.emod_eq_of_lt]
  · ring
  · omega
  · have := h.card
    omega

theorem IsRange.cast_eq (h : IsRange ty lo hi modulus) (hlo : lo ≤ n) (hhi : n ≤ hi) : ty.cast n = n := by
  rw [h.cast, truncate_intCast, h.wrap_eq hlo hhi]

end NumberType

open NumberType in
/-- A range inside the range of the source type is tested as written. -/
theorem inRange_intCast {dst src : NumberType} {lo hi modulus lo' hi' modulus' n : ℤ}
    (hdst : IsRange dst lo hi modulus) (hsrc : IsRange src lo' hi' modulus') (hlo : lo' ≤ lo) (hhi : hi ≤ hi')
    (hle : lo ≤ hi) (hn : lo' ≤ n) (hn' : n ≤ hi') : inRange dst src (.finite n) ↔ lo ≤ n ∧ n ≤ hi := by
  rw [inRange, decide_eq_true_iff, hdst.lowest, hdst.max, hsrc.cast_eq hlo (hle.trans hhi), hsrc.cast_eq (hlo.trans hle) hhi,
    Int.cast_le, Int.cast_le]
  refine ⟨fun h ↦ ⟨h.1, h.2.1⟩, fun h ↦ ⟨h.1, h.2, ?_⟩⟩
  rw [hdst.cast_eq h.1 h.2, hsrc.cast_eq hn hn']

open NumberType in
/-- The checks after a conversion to an integer, when the type is an integer type. -/
theorem fromConversion_intCast {ty : NumberType} {lo hi modulus : ℤ} (hty : IsRange ty lo hi modulus)
    (conv : Conversion ℤ) :
    fromConversion ty conv.toFloating =
      if conv.erange ∨ (conv.used = 0 ∧ conv.value = 0) ∨ conv.value < lo ∨ hi < conv.value then .failed
      else ⟨conv.used, false, some (.finite conv.value)⟩ := by
  have hzero : (Floating.finite conv.value = .finite 0) = (conv.value = 0) := by
    rw [Floating.finite.injEq, Int.cast_eq_zero]
  simp only [fromConversion, Conversion.toFloating, hzero, hty.lowest, hty.max, Int.cast_lt]
  by_cases hfirst : conv.erange ∨ (conv.used = 0 ∧ conv.value = 0)
  · rw [if_pos hfirst, if_pos (hfirst.imp_right .inl)]
  by_cases hrange : conv.value < lo ∨ hi < conv.value
  · rw [if_neg hfirst, if_pos hrange, if_pos (.inr (.inr hrange))]
  · rw [if_neg hfirst, if_neg hrange, if_neg (by tauto), hty.cast_eq (by omega) (by omega)]

end Stela.Lex
