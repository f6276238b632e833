import Stela.CodeGen.CompareExprs
import Stela.Library.FixedWidth
import Stela.Semantic.InferType

/-!
# Casts between builtin types

The cast that `visit(ast::Make &)` of `generate expr.cpp` emits for a value of a builtin type: `Code.cast` with the
destination type stands for the instruction of `castOp`. The integer types differ in width and sign, and for the
instructions a bool is an unsigned integer of one bit. The main result, `make_preserves_iff`, says which casts between
integers give the right value.
-/

namespace Stela.CodeGen.MakeCasts

open Stela.Syntax Stela.Semantic CompareExprs
open Stela.Library FixedWidth

/-! ## Choosing the instruction -/

/-- The cast instructions; `keep` is the operand itself. -/
inductive CastOp where
  | keep | trunc | zExt | sExt | siToFP | uiToFP | fpToSI | fpToUI
  deriving DecidableEq, Repr

/-- `IRBuilder::CreateIntCast`. -/
def createIntCast (srcWidth dstWidth : ℕ) (isSigned : Bool) : CastOp :=
  if srcWidth = dstWidth then .keep
  else if dstWidth < srcWidth then .trunc
  else if isSigned then .sExt
  else .zExt

/-- The instruction that `visit(ast::Make &)` emits to make `dst` from `src`; there is none where `classifyArith` is
not reached. The only floating-point type is `real`, so `CreateFPCast` keeps its operand. -/
def castOp (dst src : BtnType) : Option CastOp := do
  let dstCat ← classifyArith dst
  let srcCat ← classifyArith src
  match srcCat with
  | .signed_int =>
    match dstCat with
    | .signed_int => return createIntCast (btnWidth src) (btnWidth dst) true
    | .unsigned_int => return createIntCast (btnWidth src) (btnWidth dst) true
    | .floating_point => return .siToFP
  | .unsigned_int =>
    match dstCat with
    | .signed_int => return createIntCast (btnWidth src) (btnWidth dst) false
    | .unsigned_int => return createIntCast (btnWidth src) (btnWidth dst) false
    | .floating_point => return .uiToFP
  | .floating_point =>
    match dstCat with
    | .signed_int => return .fpToSI
    | .unsigned_int => return .fpToUI
    | .floating_point => return .keep

/-- The instruction of the cast node, through the aliases of both types. -/
def makeOp (type exprType : Ty) : Option CastOp :=
  match type.concreteType, exprType.concreteType with
  | .btn dst, .btn src => castOp dst src
  | _, _ => none

/-! ## Running it -/

/-- The instructions that convert to or from floats. A number that does not fit gives poison. -/
structure FloatCasts where
  siToFP : {w : ℕ} → BitVec w → (v : ℕ) → BitVec v
  uiToFP : {w : ℕ} → BitVec w → (v : ℕ) → BitVec v
  fpToSI : {w : ℕ} → BitVec w → (v : ℕ) → Option (BitVec v)
  fpToUI : {w : ℕ} → BitVec w → (v : ℕ) → Option (BitVec v)

/-- Conversions for the casts that do not use them. -/
instance : Inhabited FloatCasts := ⟨⟨fun _ _ ↦ 0, fun _ _ ↦ 0, fun _ _ ↦ none, fun _ _ ↦ none⟩⟩

/-- The result of an instruction, or poison. -/
def CastOp.run (floats : FloatCasts) {w : ℕ} (op : CastOp) (x : BitVec w) (v : ℕ) : Option (BitVec v) :=
  match op with
  | .keep | .trunc | .zExt => some (x.setWidth v)
  | .sExt => some (x.signExtend v)
  | .siToFP => some (floats.siToFP x v)
  | .uiToFP => some (floats.uiToFP x v)
  | .fpToSI => floats.fpToSI x v
  | .fpToUI => floats.fpToUI x v

/-- The value of `make dst x`. -/
def makeValue (floats : FloatCasts) (dst src : BtnType) (x : BitVec (btnWidth src)) : Option (BitVec (btnWidth dst)) := do
  let op ← castOp dst src
  op.run floats x (btnWidth dst)

/-! ## Every accepted cast has an instruction -/

theorem castOp_isSome {dst src : BtnType} : (castOp dst src).isSome = validCast dst src := by
  cases dst <;> cases src <;> rfl

/-- The analysis only marks a node as a cast when the generator has an instruction for it. -/
theorem makeOp_isSome (type exprType : Ty) : (makeOp type exprType).isSome = InferType.isCast type exprType := by
  unfold makeOp InferType.isCast
  cases type.concreteType with
  | btn dst =>
    cases exprType.concreteType with
    | btn src => exact castOp_isSome
    | _ => rfl
  | _ => rfl

/-! ## Integers -/

/-- The types of the statement. -/
def isInteger : BtnType → Bool
  | .bool | .byte | .char | .sint | .uint => true
  | .void | .opaq | .real => false

def isSigned (type : BtnType) : Bool := classifyArith type = some .signed_int

theorem btnKey_eq (type : BtnType) (x : BitVec (btnWidth type)) : btnKey type x = value (isSigned type) x := by
  simp only [btnKey, value, isSigned, decide_eq_true_eq]

theorem run_createIntCast (floats : FloatCasts) {w : ℕ} (x : BitVec w) (v : ℕ) (signed : Bool) :
    (createIntCast w v signed).run floats x v = some (resize signed v x) := by
  unfold createIntCast
  split_ifs with heq hlt hsigned
  · rw [CastOp.run, resize_of_le signed x (Nat.le_of_eq heq.symm)]
  · rw [CastOp.run, resize_of_le signed x (Nat.le_of_lt hlt)]
  · rw [hsigned]
    rfl
  · rw [Bool.eq_false_iff.mpr hsigned]
    rfl

theorem validCast_integers {dst src : BtnType} (hdst : isInteger dst = true) (hsrc : isInteger src = true) :
    validCast dst src = true := by
  cases dst <;> cases hdst <;> cases src <;> cases hsrc <;> rfl

/-- It is the sign of the source that matters. -/
theorem castOp_integers {dst src : BtnType} (hdst : isInteger dst = true) (hsrc : isInteger src = true) :
    castOp dst src = some (createIntCast (btnWidth src) (btnWidth dst) (isSigned src)) := by
  cases dst <;> cases hdst <;> cases src <;> cases hsrc <;> rfl

theorem makeValue_integers (floats : FloatCasts) {dst src : BtnType} (hdst : isInteger dst = true)
    (hsrc : isInteger src = true) (x : BitVec (btnWidth src)) :
    makeValue floats dst src x = some (resize (isSigned src) (btnWidth dst) x) := by
  rw [makeValue, castOp_integers hdst hsrc]
  exact run_createIntCast floats x _ _

/-- Making a type that is at least as wide and then the first type again gives the value back. -/
theorem make_roundtrip (floats : FloatCasts) {dst src : BtnType} (hdst : isInteger dst = true)
    (hsrc : isInteger src = true) (hwidth : btnWidth src ≤ btnWidth dst) (x : BitVec (btnWidth src)) :
    (makeValue floats dst src x).bind (makeValue floats src dst) = some x := by
  rw [makeValue_integers floats hdst hsrc, Option.bind_some, makeValue_integers floats hsrc hdst,
    resize_resize _ _ x hwidth]

/-! ## The right value -/

/-- The number is the value of some object of the type. -/
def Representable (type : BtnType) (i : ℤ) : Prop := ∃ y, btnKey type y = i

/-- What is asked of the value of `make dst x`. -/
structure Preserves (dst src : BtnType) (x : BitVec (btnWidth src)) (y : BitVec (btnWidth dst)) : Prop where
  same : Representable dst (btnKey src x) → btnKey dst y = btnKey src x
  congruent : ¬Representable dst (btnKey src x) → dst ≠ .bool →
    btnKey dst y ≡ btnKey src x [ZMOD (2 ^ btnWidth dst : ℕ)]
  bool : dst = .bool → (btnKey dst y ≠ 0 ↔ btnKey src x ≠ 0)

section

variable (dst src : BtnType) (x : BitVec (btnWidth src))

theorem btnKey_resize (h : Representable dst (btnKey src x)) :
    btnKey dst (resize (isSigned src) (btnWidth dst) x) = btnKey src x := by
  obtain ⟨y, hy⟩ := h
  rw [btnKey_eq, btnKey_eq] at *
  exact value_resize ⟨y, hy⟩

theorem btnKey_resize_modEq :
    btnKey dst (resize (isSigned src) (btnWidth dst) x) ≡ btnKey src x [ZMOD (2 ^ btnWidth dst : ℕ)] := by
  rw [btnKey_eq, btnKey_eq]
  exact value_resize_modEq _ _ x

/-- A bool made from an integer is its last bit. -/
theorem btnKey_bool_resize : btnKey .bool (resize (isSigned src) (btnWidth .bool) x) = btnKey src x % 2 := by
  have hmod : btnKey .bool (resize (isSigned src) (btnWidth .bool) x) ≡ btnKey src x [ZMOD 2] :=
    btnKey_resize_modEq .bool src x
  have hbit (y : BitVec 1) : btnKey .bool y % 2 = btnKey .bool y := by
    have hlt : y.toNat < 2 := y.isLt
    change (y.toNat : ℤ) % 2 = y.toNat
    omega
  calc
    _ = btnKey .bool (resize (isSigned src) (btnWidth .bool) x) % 2 := (hbit _).symm
    _ = btnKey src x % 2 := hmod

theorem preserves_resize_iff : Preserves dst src x (resize (isSigned src) (btnWidth dst) x) ↔
    (dst = .bool → btnKey src x = 0 ∨ btnKey src x % 2 = 1) := by
  constructor
  · rintro h rfl
    have hbool := h.bool rfl
    rw [btnKey_bool_resize] at hbool
    omega
  · intro h
    refine ⟨btnKey_resize dst src x, fun _ _ ↦ btnKey_resize_modEq dst src x, ?_⟩
    rintro rfl
    rw [btnKey_bool_resize]
    have hodd := h rfl
    omega

end

/-- Every cast between integers that is accepted gives the right value, except that an even number other than zero
makes a false bool. -/
theorem make_preserves_iff (floats : FloatCasts) {dst src : BtnType} (hdst : isInteger dst = true)
    (hsrc : isInteger src = true) (x : BitVec (btnWidth src)) :
    (validCast dst src = true ∧ ∃ y, makeValue floats dst src x = some y ∧ Preserves dst src x y) ↔
      (dst = .bool → btnKey src x = 0 ∨ btnKey src x % 2 = 1) := by
  rw [makeValue_integers floats hdst hsrc, and_iff_right (validCast_integers hdst hsrc)]
  simp only [Option.some.injEq, exists_eq_left']
  exact preserves_resize_iff dst src x

/-- The char -1 made into a uint. -/
theorem make_preserves_iff_charToUint :
    ∃ y, makeValue default .uint .char (-1#8) = some y ∧ Preserves .uint .char (-1#8) y := by
  have hright := @make_preserves_iff default .uint .char rfl rfl (-1#8)
  exact (hright.mpr nofun).2

/-- Two is not zero, but the bool made from it is false. -/
theorem make_bool_two : ¬∀ (floats : FloatCasts) (dst src : BtnType) (x : BitVec (btnWidth src)),
    isInteger dst = true → isInteger src = true → validCast dst src = true →
      ∃ y, makeValue floats dst src x = some y ∧ Preserves dst src x y := by
  intro hclaim
  obtain ⟨y, hy, hpreserves⟩ := hclaim default .bool .sint 2#32 rfl rfl rfl
  cases hy
  have htrue : btnKey .sint 2#32 ≠ 0 := by decide
  exact (hpreserves.bool rfl).mpr htrue rfl

end Stela.CodeGen.MakeCasts
