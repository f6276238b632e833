import Mathlib.Data.Nat.Log
import Mathlib.Tactic.Ring

/-!
# Integers of a fixed width, with poison

The arithmetic instructions with a no-signed-wrap flag give poison where the signed result does not fit, and a
shift gives poison where it is as wide as the type. Here are the operands, read as natural numbers, on which each
instruction gives the number that it stands for.
-/

namespace Stela.Library.Poison

variable {w : ℕ}

def nswAdd (a b : BitVec w) : Option (BitVec w) := if a.saddOverflow b then none else some (a + b)

def nswSub (a b : BitVec w) : Option (BitVec w) := if a.ssubOverflow b then none else some (a - b)

def nswMul (a b : BitVec w) : Option (BitVec w) := if a.smulOverflow b then none else some (a * b)

def shl (a b : BitVec w) : Option (BitVec w) := if b.toNat < w then some (a <<< b.toNat) else none

/-- A natural number that the type represents as the same number when it is signed. -/
def SignedFits (w n : ℕ) : Prop := n < 2 ^ (w - 1)

instance (w n : ℕ) : Decidable (SignedFits w n) := inferInstanceAs (Decidable (n < _))

/-- The sum is represented, and by the same number when it is signed and both operands are. -/
def AddFits (w a b : ℕ) : Prop :=
  a + b < 2 ^ w ∧ (SignedFits w a → SignedFits w b → SignedFits w (a + b))

/-- The difference is not that of a number beyond the signed ones and one so near to it that the signed difference
falls below them. -/
def SubFits (w a b : ℕ) : Prop := b ≤ a ∧ (SignedFits w b → ¬SignedFits w a → ¬SignedFits w (a - b))

/-- The product is represented as a signed number, or it is one of the operands. -/
def MulFits (w a b : ℕ) : Prop := SignedFits w (a * b) ∨ a * b < 2 ^ w ∧ (a = 1 ∨ b = 1)

theorem two_mul_half (hw : 0 < w) : 2 * 2 ^ (w - 1) = 2 ^ w := by
  rw [← Nat.pow_succ', Nat.succ_eq_add_one, Nat.sub_add_cancel hw]

/-- The signed number, by whether the number is represented as itself. -/
theorem toInt_cases (hw : 0 < w) (a : BitVec w) :
    a.toNat < 2 ^ (w - 1) ∧ a.toInt = a.toNat ∨ 2 ^ (w - 1) ≤ a.toNat ∧ a.toInt = a.toNat - (2 ^ w : ℕ) := by
  have hhalf := two_mul_half hw
  rw [BitVec.toInt_eq_toNat_cond]
  split_ifs with h
  · exact .inl ⟨by omega, rfl⟩
  · exact .inr ⟨by omega, rfl⟩

/-- The signed numbers of the type. -/
def InRange (w : ℕ) (i : ℤ) : Prop := -(2 ^ (w - 1) : ℕ) ≤ i ∧ i < (2 ^ (w - 1) : ℕ)

section

variable {a b c : BitVec w}

theorem nswAdd_eq_some : nswAdd a b = some c ↔ InRange w (a.toInt + b.toInt) ∧ a + b = c := by
  rw [nswAdd, InRange, BitVec.saddOverflow]
  split_ifs with h <;> simp at h ⊢ <;> omega

theorem nswSub_eq_some : nswSub a b = some c ↔ InRange w (a.toInt - b.toInt) ∧ a - b = c := by
  rw [nswSub, InRange, BitVec.ssubOverflow]
  split_ifs with h <;> simp at h ⊢ <;> omega

theorem nswMul_eq_some : nswMul a b = some c ↔ InRange w (a.toInt * b.toInt) ∧ a * b = c := by
  rw [nswMul, InRange, BitVec.smulOverflow]
  split_ifs with h <;> simp at h ⊢ <;> omega

theorem shl_eq_some : shl a b = some c ↔ b.toNat < w ∧ a <<< b.toNat = c := by
  rw [shl]
  split_ifs with h <;> simp [h]

end

/-! ## When the result is the mathematical one -/

section

variable (a b : BitVec w)

/-- A result that is there, and represents this number. -/
def Gives (r : Option (BitVec w)) (n : ℕ) : Prop := ∃ c, r = some c ∧ c.toNat = n

theorem Gives.toNat_eq {c : BitVec w} {n : ℕ} (h : Gives (some c) n) : c.toNat = n := by
  obtain ⟨c', hc, hnat⟩ := h
  rwa [Option.some.inj hc]

theorem nswAdd_gives (hw : 0 < w) : Gives (nswAdd a b) (a.toNat + b.toNat) ↔ AddFits w a.toNat b.toNat := by
  have hgives : Gives (nswAdd a b) (a.toNat + b.toNat) ↔
      InRange w (a.toInt + b.toInt) ∧ a.toNat + b.toNat < 2 ^ w := by
    simp only [Gives, nswAdd_eq_some]
    constructor
    · rintro ⟨c, ⟨hrange, rfl⟩, hnat⟩
      exact ⟨hrange, hnat ▸ (a + b).isLt⟩
    · rintro ⟨hrange, hlt⟩
      exact ⟨a + b, ⟨hrange, rfl⟩, BitVec.toNat_add_of_lt hlt⟩
  have hhalf := two_mul_half hw
  rw [hgives, AddFits, InRange]
  unfold SignedFits
  rcases toInt_cases hw a with ⟨ha, hia⟩ | ⟨ha, hia⟩ <;> rcases toInt_cases hw b with ⟨hb, hib⟩ | ⟨hb, hib⟩ <;>
    rw [hia, hib] <;> omega

theorem nswSub_gives (hw : 0 < w) (hle : b.toNat ≤ a.toNat) :
    Gives (nswSub a b) (a.toNat - b.toNat) ↔ SubFits w a.toNat b.toNat := by
  have hgives : Gives (nswSub a b) (a.toNat - b.toNat) ↔ InRange w (a.toInt - b.toInt) := by
    simp only [Gives, nswSub_eq_some]
    constructor
    · rintro ⟨c, ⟨hrange, -⟩, -⟩
      exact hrange
    · exact fun hrange ↦ ⟨a - b, ⟨hrange, rfl⟩, BitVec.toNat_sub_of_le hle⟩
  have hhalf := two_mul_half hw
  rw [hgives, SubFits, InRange]
  unfold SignedFits
  rcases toInt_cases hw a with ⟨ha, hia⟩ | ⟨ha, hia⟩ <;> rcases toInt_cases hw b with ⟨hb, hib⟩ | ⟨hb, hib⟩ <;>
    rw [hia, hib] <;> omega

/-- A number beyond the signed ones times a signed one is only represented when the second is zero or one. -/
theorem mul_unsigned_signed {h a b : ℕ} (hh : 2 ≤ h) (ha : h ≤ a) (ha' : a < 2 * h) (hb : b < h) :
    ((-(h : ℤ) ≤ (a - (2 * h : ℕ)) * b ∧ (a - (2 * h : ℕ)) * b < (h : ℤ)) ∧ a * b < 2 * h) ↔
      (a * b < h ∨ a * b < 2 * h ∧ (a = 1 ∨ b = 1)) := by
  rcases Nat.lt_or_ge b 2 with hlt | hge
  · have hcases : b = 0 ∨ b = 1 := by omega
    rcases hcases with rfl | rfl
    · simp only [Nat.cast_zero, mul_zero]
      omega
    · simp only [Nat.cast_one, mul_one]
      exact iff_of_true ⟨⟨by omega, by omega⟩, ha'⟩ (.inr ⟨ha', .inr trivial⟩)
  · have hmul : 2 * h ≤ a * b := calc
      2 * h = h * 2 := Nat.mul_comm 2 h
      _ ≤ a * b := Nat.mul_le_mul ha hge
    omega

theorem nswMul_gives (hw : 1 < w) : Gives (nswMul a b) (a.toNat * b.toNat) ↔ MulFits w a.toNat b.toNat := by
  have hgives : Gives (nswMul a b) (a.toNat * b.toNat) ↔
      InRange w (a.toInt * b.toInt) ∧ a.toNat * b.toNat < 2 ^ w := by
    simp only [Gives, nswMul_eq_some]
    constructor
    · rintro ⟨c, ⟨hrange, rfl⟩, hnat⟩
      exact ⟨hrange, hnat ▸ (a * b).isLt⟩
    · rintro ⟨hrange, hlt⟩
      exact ⟨a * b, ⟨hrange, rfl⟩, BitVec.toNat_mul_of_lt hlt⟩
  have hhalf := two_mul_half (Nat.zero_lt_of_lt hw)
  have htwo : 2 ≤ 2 ^ (w - 1) := Nat.le_self_pow (by omega) 2
  have ha := a.isLt
  have hb := b.isLt
  rw [hgives, MulFits, InRange]
  unfold SignedFits
  rw [← hhalf] at ha hb ⊢
  rcases toInt_cases (Nat.zero_lt_of_lt hw) a with ⟨hfa, hia⟩ | ⟨hfa, hia⟩ <;>
    rcases toInt_cases (Nat.zero_lt_of_lt hw) b with ⟨hfb, hib⟩ | ⟨hfb, hib⟩ <;> rw [hia, hib]
  · have hcast : (a.toNat : ℤ) * b.toNat = (a.toNat * b.toNat : ℕ) := (Nat.cast_mul _ _).symm
    have hone : a.toNat = 1 ∨ b.toNat = 1 → a.toNat * b.toNat < 2 ^ (w - 1) := by
      rintro (h | h) <;> rw [h] <;> omega
    rw [hcast]
    omega
  · rw [mul_comm (a.toNat : ℤ), Nat.mul_comm, ← hhalf, or_comm (a := a.toNat = 1)]
    exact mul_unsigned_signed htwo hfb hb hfa
  · rw [← hhalf]
    exact mul_unsigned_signed htwo hfa ha hfb
  · have hmul : 2 * 2 ^ (w - 1) ≤ a.toNat * b.toNat := Nat.mul_le_mul (htwo.trans hfa) hfb
    omega

end

/-! ## Leading zeros -/

/-- The width less the leading zeros is the logarithm, rounded up, of the next number. -/
theorem width_sub_clz (x : BitVec w) : w - x.clz.toNat = Nat.clog 2 (x.toNat + 1) := by
  by_cases hx : x = 0#w
  · have hclz : x.clz.toNat = w := by
      rw [BitVec.clz_eq_iff_eq_zero.mpr hx, BitVec.natCast_eq_ofNat, BitVec.toNat_ofNat,
        Nat.mod_eq_of_lt Nat.lt_two_pow_self]
    rw [hclz, hx, BitVec.toNat_ofNat, Nat.zero_mod, Nat.sub_self, Nat.zero_add, Nat.clog_one_right]
  · have hw : 0 < w := Nat.pos_of_ne_zero fun h ↦ hx (by subst h; exact BitVec.of_length_zero)
    have hlt := @BitVec.toNat_lt_two_pow_sub_clz w x
    have hle := BitVec.two_pow_sub_clz_le_toNat_of_ne_zero hw hx
    refine Nat.le_antisymm ?_ ((Nat.clog_le_iff_le_pow Nat.one_lt_two).mpr hlt)
    have hpred : w - 1 - x.clz.toNat < Nat.clog 2 (x.toNat + 1) :=
      (Nat.lt_clog_iff_pow_lt Nat.one_lt_two).mpr (Nat.lt_succ_of_le hle)
    omega

/-- The least power of two that is not less. -/
def leastPow2 (n : ℕ) : ℕ := 2 ^ Nat.clog 2 n

theorem le_leastPow2 (n : ℕ) : n ≤ leastPow2 n := Nat.le_pow_clog Nat.one_lt_two n

theorem leastPow2_le {n k : ℕ} (h : n ≤ 2 ^ k) : leastPow2 n ≤ 2 ^ k :=
  Nat.pow_le_pow_right Nat.zero_lt_two ((Nat.clog_le_iff_le_pow Nat.one_lt_two).mpr h)

end Stela.Library.Poison
