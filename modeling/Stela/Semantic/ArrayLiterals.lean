import Stela.Semantic.InferType
import Stela.Semantic.TypeEquality
import Mathlib.Data.Option.Basic

/-!
# The order of the elements of an array literal

The first element of a literal is checked against the expected element type, the others only against the type of
the first. Where that makes a difference, the order of the elements does as well.
-/

namespace Stela.Semantic.InferType

open Stela.Syntax TypeEquality

/-! ## Elements -/

/-- The type of an element before any conversion, when the visit succeeds; `elem` is the expected type. -/
def elemType (elem : Option Ty) (expr : Expr) : Option Ty :=
  (visitExprNoCheck (visit expr false elem) elem).toOption.map fun visited ↦ visited.2.type

/-- The type of an expression that is checked on its own where this type is expected. -/
def checkedType (elem : Option Ty) (expr : Expr) : Option Ty :=
  (visitExprCheck (visit expr false elem) elem).toOption.map fun visited ↦ visited.2.type

/-- The type that is inferred for an array literal, if it is accepted. -/
def arrayType (exprs : List Expr) (expected : Option Ty) : Option Ty :=
  match visit (.array exprs) false expected with
  | .ok (.expr _ etype) => some etype.type
  | _ => none

/-- The element has a type that is the same as the given one. -/
def Fits (elem : Option Ty) (type : Ty) (expr : Expr) : Prop :=
  ∃ type', elemType elem expr = some type' ∧ compareTypes type type' = true

section

variable {elem : Option Ty} {expr : Expr} {exprs : List Expr} {expected : Option Ty} {type type' : Ty}

theorem checkedType_none : checkedType none expr = elemType none expr := by
  rw [checkedType, elemType, visitExprCheck]
  cases visitExprNoCheck (visit expr false none) none with
  | error e => rfl
  | ok visited => rfl

/-- A checked expression has the expected type, or is converted to `bool`. -/
theorem checkedType_some : checkedType (some type) expr = some type' ↔
    elemType (some type) expr = some type' ∧ compareTypes type type' = true ∨
      ∃ type'', elemType (some type) expr = some type'' ∧ convertsToBool type type'' = true ∧ type' = boolType := by
  rw [checkedType, elemType, visitExprCheck]
  cases visitExprNoCheck (visit expr false (some type)) (some type) with
  | error e => exact ⟨nofun, by rintro (⟨h, -⟩ | ⟨_, h, -⟩) <;> cases h⟩
  | ok visited =>
    obtain ⟨expr', etype⟩ := visited
    change Option.map _ (Except.toOption (if compareTypes type etype.type = true then _ else _)) = _ ↔
      some etype.type = _ ∧ _ ∨ ∃ _, some etype.type = _ ∧ _
    by_cases hsame : compareTypes type etype.type = true
    · have hno : convertsToBool type etype.type = false := by rw [convertsToBool, hsame]; rfl
      rw [if_pos hsame]
      constructor
      · intro h
        cases h
        exact .inl ⟨rfl, hsame⟩
      · rintro (⟨h, -⟩ | ⟨_, h, hconv, -⟩)
        · exact h
        · cases h
          exact absurd (hconv.symm.trans hno) (by decide)
    · rw [if_neg hsame]
      by_cases hconv : convertsToBool type etype.type = true
      · rw [if_pos hconv]
        constructor
        · intro h
          cases h
          exact .inr ⟨_, rfl, hconv, rfl⟩
        · rintro (⟨h, hsame'⟩ | ⟨_, -, -, rfl⟩)
          · cases h
            exact absurd hsame' hsame
          · rfl
      · rw [if_neg hconv]
        refine iff_of_false nofun ?_
        rintro (⟨h, hsame'⟩ | ⟨_, h, hconv', -⟩)
        · cases h
          exact hsame hsame'
        · cases h
          exact hconv hconv'

theorem visitElems_isOk : (∃ exprs', visitElems elem type exprs = .ok exprs') ↔ ∀ expr ∈ exprs, Fits elem type expr := by
  induction exprs with
  | nil => exact iff_of_true ⟨[], rfl⟩ nofun
  | cons expr exprs ih =>
    rw [List.forall_mem_cons, ← ih, Fits, elemType]
    rw [visitElems]
    cases visitExprNoCheck (visit expr false elem) elem with
    | error e => exact iff_of_false nofun fun ⟨⟨_, h, _⟩, _⟩ ↦ nomatch h
    | ok visited =>
      obtain ⟨expr', etype⟩ := visited
      have hfits : (∃ type', Option.map (fun visited : AExpr × ExprType ↦ visited.2.type)
          (Except.toOption (.ok (expr', etype) : Check (AExpr × ExprType))) = some type' ∧
            compareTypes type type' = true) ↔ compareTypes type etype.type = true := by
        constructor
        · rintro ⟨_, h, hsame⟩
          cases h
          exact hsame
        · exact fun hsame ↦ ⟨_, rfl, hsame⟩
      rw [hfits]
      change (∃ exprs', (require (compareTypes type etype.type) _ >>= fun _ ↦
        visitElems elem type exprs >>= fun rest ↦ .ok (expr' :: rest)) = .ok exprs') ↔ _
      cases compareTypes type etype.type with
      | false => exact iff_of_false nofun fun h ↦ Bool.false_ne_true h.1
      | true =>
        rw [and_iff_right rfl]
        change (∃ exprs', (visitElems elem type exprs >>= fun rest ↦ .ok (expr' :: rest)) = .ok exprs') ↔ _
        cases visitElems elem type exprs with
        | error e => exact iff_of_false nofun nofun
        | ok rest => exact iff_of_true ⟨_, rfl⟩ ⟨_, rfl⟩

/-! ## Literals -/

theorem arrayType_of_not_array (h : ∀ elem, expectedElem expected ≠ .ok elem) : arrayType exprs expected = none := by
  rw [arrayType]
  cases helem : expectedElem expected with
  | ok elem => exact absurd helem (h elem)
  | error e =>
    cases exprs with
    | nil =>
      rw [visit, helem]
      rfl
    | cons expr exprs =>
      rw [visit, helem]
      rfl

theorem arrayType_nil (h : expectedElem expected = .ok elem) : arrayType [] expected = elem.map .array := by
  rw [arrayType, visit, h]
  cases elem <;> rfl

/-- A literal is accepted when its first element is as expected, the others are of the same type, and this type is
not void. -/
theorem arrayType_cons (h : expectedElem expected = .ok elem) : arrayType (expr :: exprs) expected = some type ↔
    ∃ first, checkedType elem expr = some first ∧ (∀ expr ∈ exprs, Fits elem first expr) ∧
      first.lookupStrongType.isVoid = false ∧ type = .array first.lookupStrongType := by
  rw [arrayType, visit, h, checkedType]
  change (match visitExprCheck (visit expr false elem) elem >>= fun first ↦
    visitElems elem first.2.type exprs >>= fun rest ↦ leaveArray (first.1 :: rest) first.2.type with
    | .ok (.expr _ etype) => some etype.type
    | _ => none) = some type ↔ _
  cases visitExprCheck (visit expr false elem) elem with
  | error e => exact iff_of_false nofun nofun
  | ok first =>
    obtain ⟨expr', etype⟩ := first
    change (match visitElems elem etype.type exprs >>= fun rest ↦ leaveArray (expr' :: rest) etype.type with
      | .ok (.expr _ etype) => some etype.type
      | _ => none) = some type ↔ ∃ first, some etype.type = some first ∧ _
    simp only [Option.some.injEq, exists_eq_left', ← visitElems_isOk]
    cases visitElems elem etype.type exprs with
    | error e => exact iff_of_false nofun fun h ↦ nomatch h.1
    | ok rest =>
      rw [and_iff_right ⟨rest, rfl⟩]
      change (match leaveArray (expr' :: rest) etype.type with
        | .ok (.expr _ etype) => some etype.type
        | _ => none) = some type ↔ _
      rw [leaveArray]
      cases etype.type.lookupStrongType.isVoid with
      | true => exact iff_of_false nofun nofun
      | false =>
        rw [and_iff_right rfl]
        change some (Ty.array etype.type.lookupStrongType) = some type ↔ _
        rw [Option.some.injEq]
        exact eq_comm

end

/-! ## The order -/

/-- Neither the acceptance nor, up to `compareTypes`, the inferred type depends on the order. -/
def OrderFree (exprs : List Expr) (expected : Option Ty) : Prop :=
  ∀ exprs', exprs.Perm exprs' →
    Option.Rel (fun type type' ↦ compareTypes type type' = true) (arrayType exprs expected) (arrayType exprs' expected)

/-- Where an array type is expected, the literal is accepted just when every element is accepted on its own where its
element type is expected. -/
def ElementWise (exprs : List Expr) (expected : Option Ty) : Prop :=
  ∀ elem, expectedElem expected = .ok (some elem) →
    ((arrayType exprs expected).isSome ↔ ∀ expr ∈ exprs, (checkedType (some elem) expr).isSome)

/-- The condition on the elements. Where no type is expected: elements of one type are all void or none is. Where an
element type is expected that every element is accepted for: no element is void, and when there are two or more then
every one has the type without a conversion. -/
def OrderIrrelevant (exprs : List Expr) : Option Ty → Prop
  | none => (∀ expr ∈ exprs, ∀ expr' ∈ exprs, ∃ type, elemType none expr = some type ∧ Fits none type expr') →
      ∀ expr ∈ exprs, ∀ expr' ∈ exprs, (elemType none expr).map Ty.isVoid = (elemType none expr').map Ty.isVoid
  | some elem => (∀ expr ∈ exprs, (checkedType (some elem) expr).isSome) →
      (∀ expr ∈ exprs, (elemType (some elem) expr).map Ty.isVoid = some false) ∧
        (2 ≤ exprs.length → ∀ expr ∈ exprs, Fits (some elem) elem expr)

section

variable {elem : Option Ty} {expr : Expr} {exprs exprs' : List Expr} {expected : Option Ty} {type type' : Ty}

theorem isVoid_lookupStrongType (type : Ty) : type.lookupStrongType.isVoid = type.isVoid := by
  have hconcrete : type.lookupStrongType.concreteType = type.concreteType := by
    induction type using Ty.lookupStrongType.induct with
    | case1 => rfl
    | case2 _ _ _ ih => exact ih
    | case3 type hstrong hweak => rw [Ty.lookupStrongType.eq_3 type hstrong hweak]
  rw [Ty.isVoid, Ty.isVoid, hconcrete]

theorem compareTypes_array (h : compareTypes type type' = true) :
    compareTypes (.array type) (.array type'.lookupStrongType) = true := by
  rw [compareTypes_iff_byName] at h ⊢
  rw [expand, expand, expand_lookupStrongType, h]

theorem Fits.trans (hsame : compareTypes type type' = true) (h : Fits elem type' expr) : Fits elem type expr := by
  obtain ⟨type'', htype, hcompare⟩ := h
  exact ⟨type'', htype, compareTypes_trans hsame hcompare⟩

/-- The type of a checked element is the expected one, up to names. -/
theorem compare_checkedType (h : checkedType (some type) expr = some type') : compareTypes type type' = true := by
  rcases checkedType_some.mp h with ⟨-, hsame⟩ | ⟨type'', -, hconv, rfl⟩
  · exact hsame
  · rw [convertsToBool, Bool.and_eq_true, Bool.and_eq_true] at hconv
    exact hconv.2.1

/-- What fits is accepted on its own, with its type. -/
theorem Fits.checkedType (h : Fits (some type) type expr) :
    ∃ type', checkedType (some type) expr = some type' ∧ elemType (some type) expr = some type' := by
  obtain ⟨type', htype, hsame⟩ := h
  exact ⟨type', checkedType_some.mpr (.inl ⟨htype, hsame⟩), htype⟩

theorem exists_perm_cons (h : expr ∈ exprs) : ∃ rest, exprs.Perm (expr :: rest) := by
  obtain ⟨s, t, rfl⟩ := List.append_of_mem h
  exact ⟨s ++ t, List.perm_middle⟩

/-- What is converted to `bool` is not void. -/
theorem not_void_of_converts (h : convertsToBool type type' = true) : type'.isVoid = false := by
  rw [convertsToBool, Bool.and_eq_true, Bool.and_eq_true, convertibleToBool] at h
  rw [Ty.isVoid]
  have hconv := h.2.2
  split at hconv
  · rename_i heq
    rw [heq]
  · rename_i heq
    rw [heq]
  · cases hconv

theorem checkedType_of_fits (h : Fits (some type) type expr) : (checkedType (some type) expr).isSome := by
  obtain ⟨type', htype, hsame⟩ := h
  exact Option.isSome_iff_exists.mpr ⟨type', checkedType_some.mpr (.inl ⟨htype, hsame⟩)⟩

theorem not_void_of_checked (h : checkedType (some type) expr = some type')
    (hvoid : (elemType (some type) expr).map Ty.isVoid = some false) : type'.isVoid = false := by
  rcases checkedType_some.mp h with ⟨htype, -⟩ | ⟨-, -, -, rfl⟩
  · rw [htype] at hvoid
    exact Option.some.inj hvoid
  · rfl

theorem elemType_not_void (h : checkedType (some type) expr = some type') (hvoid : type'.isVoid = false) :
    (elemType (some type) expr).map Ty.isVoid = some false := by
  rcases checkedType_some.mp h with ⟨htype, -⟩ | ⟨type'', htype, hconv, -⟩
  · rw [htype, Option.map_some, hvoid]
  · rw [htype, Option.map_some, not_void_of_converts hconv]

theorem OrderIrrelevant.perm (h : OrderIrrelevant exprs elem) (hperm : exprs.Perm exprs') :
    OrderIrrelevant exprs' elem := by
  cases elem <;> simpa only [OrderIrrelevant, hperm.mem_iff, hperm.length_eq] using h

/-- The elements have one type. -/
def SameType (exprs : List Expr) : Prop :=
  ∀ expr ∈ exprs, ∀ expr' ∈ exprs, ∃ type, elemType none expr = some type ∧ Fits none type expr'

/-- Elements that all have the type of the first have one type. -/
theorem sameType_of_first (hfirst : ∀ expr ∈ exprs, Fits none type expr) : SameType exprs := by
  intro expr hexpr expr' hexpr'
  obtain ⟨type', htype, hsame⟩ := hfirst expr hexpr
  refine ⟨type', htype, (hfirst expr' hexpr').trans ?_⟩
  rw [compareTypes_comm]
  exact hsame

/-- Where no type is expected, the elements of an accepted literal have one type. -/
theorem sameType_of_accepted (helem : expectedElem expected = .ok none)
    (h : arrayType (expr :: exprs) expected = some type) : SameType (expr :: exprs) := by
  obtain ⟨first, hfirst, hrest, -⟩ := (arrayType_cons helem).mp h
  rw [checkedType_none] at hfirst
  exact sameType_of_first (List.forall_mem_cons.mpr ⟨⟨first, hfirst, compareTypes_refl first⟩, hrest⟩)

/-- Elements of one type are accepted unless the first one is void. -/
theorem accepted_of_sameType (helem : expectedElem expected = .ok none) (hsame : SameType (expr :: exprs)) :
    ∃ first, elemType none expr = some first ∧ ∀ type,
      (arrayType (expr :: exprs) expected = some type ↔ first.isVoid = false ∧ type = .array first.lookupStrongType) := by
  obtain ⟨first, hfirst, -⟩ := hsame expr List.mem_cons_self expr List.mem_cons_self
  have hrest : ∀ expr' ∈ exprs, Fits none first expr' := by
    intro expr' hexpr'
    obtain ⟨first', hfirst', hfits⟩ := hsame expr List.mem_cons_self expr' (List.mem_cons_of_mem _ hexpr')
    cases hfirst.symm.trans hfirst'
    exact hfits
  refine ⟨first, hfirst, fun type ↦ ?_⟩
  rw [arrayType_cons helem, checkedType_none, hfirst]
  simp only [Option.some.injEq, exists_eq_left', isVoid_lookupStrongType]
  exact and_iff_right hrest

/-- Where an element type is expected, the elements of an accepted literal are accepted on their own. -/
theorem checked_of_accepted (helem : expectedElem expected = .ok (some type))
    (h : (arrayType exprs expected).isSome) : ∀ expr ∈ exprs, (checkedType (some type) expr).isSome := by
  cases exprs with
  | nil => exact nofun
  | cons expr exprs =>
    obtain ⟨type', htype⟩ := Option.isSome_iff_exists.mp h
    obtain ⟨first, hfirst, hrest, -⟩ := (arrayType_cons helem).mp htype
    have hsame := compare_checkedType hfirst
    refine List.forall_mem_cons.mpr ⟨Option.isSome_iff_exists.mpr ⟨first, hfirst⟩, fun expr' hexpr' ↦ ?_⟩
    exact checkedType_of_fits ((hrest expr' hexpr').trans hsame)

/-- Under the condition, elements that are accepted on their own make a literal that is accepted, with the expected
type. -/
theorem accepted_of_checked (helem : expectedElem expected = .ok (some type))
    (hcond : OrderIrrelevant exprs (some type)) (h : ∀ expr ∈ exprs, (checkedType (some type) expr).isSome) :
    ∃ type', arrayType exprs expected = some type' ∧ compareTypes (.array type) type' = true := by
  obtain ⟨hvoid, hfits⟩ := hcond h
  cases exprs with
  | nil => exact ⟨_, arrayType_nil helem, compareTypes_refl _⟩
  | cons expr exprs =>
    obtain ⟨first, hfirst⟩ := Option.isSome_iff_exists.mp (h expr List.mem_cons_self)
    have hsame := compare_checkedType hfirst
    refine ⟨_, (arrayType_cons helem).mpr ⟨first, hfirst, fun expr' hexpr' ↦ ?_, ?_, rfl⟩, compareTypes_array hsame⟩
    · have hlength : 2 ≤ (expr :: exprs).length := Nat.succ_le_succ (List.length_pos_of_mem hexpr')
      refine (hfits hlength expr' (List.mem_cons_of_mem _ hexpr')).trans ?_
      rw [compareTypes_comm]
      exact hsame
    · rw [isVoid_lookupStrongType]
      exact not_void_of_checked hfirst (hvoid expr List.mem_cons_self)

/-- Under the condition, what is accepted in one order is accepted in another one, with the same type. -/
theorem accepted_perm (helem : expectedElem expected = .ok elem) (hcond : OrderIrrelevant exprs elem)
    (hperm : exprs.Perm exprs') (h : arrayType exprs expected = some type) :
    ∃ type', arrayType exprs' expected = some type' ∧ compareTypes type type' = true := by
  cases elem with
  | none =>
    cases exprs with
    | nil =>
      rw [arrayType_nil helem] at h
      cases h
    | cons expr exprs =>
      cases exprs' with
      | nil => exact absurd hperm.length_eq (by simp)
      | cons expr' exprs' =>
        have hsame := sameType_of_accepted helem h
        have hsame' : SameType (expr' :: exprs') := by simpa only [SameType, hperm.mem_iff] using hsame
        obtain ⟨first, hfirst, hiff⟩ := accepted_of_sameType helem hsame
        obtain ⟨hvoid, rfl⟩ := (hiff _).mp h
        obtain ⟨first', hfirst', hiff'⟩ := accepted_of_sameType helem hsame'
        have hmem : expr' ∈ expr :: exprs := hperm.mem_iff.mpr List.mem_cons_self
        have hvoids := hcond hsame expr List.mem_cons_self expr' hmem
        rw [hfirst, hfirst', Option.map_some, Option.map_some, hvoid, Option.some.injEq] at hvoids
        refine ⟨_, (hiff' _).mpr ⟨hvoids.symm, rfl⟩, compareTypes_array ?_⟩
        obtain ⟨first₁, hfirst₁, type', htype', hcompare⟩ := hsame expr List.mem_cons_self expr' hmem
        cases hfirst.symm.trans hfirst₁
        cases hfirst'.symm.trans htype'
        rw [compareTypes_iff_byName] at hcompare ⊢
        rw [expand_lookupStrongType, hcompare]
  | some elem =>
    have hchecked := checked_of_accepted helem (Option.isSome_iff_exists.mpr ⟨type, h⟩)
    obtain ⟨type₁, htype₁, hsame⟩ := accepted_of_checked helem hcond hchecked
    cases h.symm.trans htype₁
    have hchecked' : ∀ expr ∈ exprs', (checkedType (some elem) expr).isSome := by
      simpa only [hperm.mem_iff] using hchecked
    obtain ⟨type', htype', hsame'⟩ := accepted_of_checked helem (hcond.perm hperm) hchecked'
    rw [compareTypes_comm] at hsame
    exact ⟨type', htype', compareTypes_trans hsame hsame'⟩

theorem OrderFree.isSome (h : OrderFree exprs expected) (hperm : exprs.Perm exprs') :
    (arrayType exprs expected).isSome = (arrayType exprs' expected).isSome := by
  have hrel := h exprs' hperm
  generalize arrayType exprs expected = r at hrel ⊢
  generalize arrayType exprs' expected = r' at hrel ⊢
  cases hrel <;> rfl

theorem orderFree_of_orderIrrelevant (helem : expectedElem expected = .ok elem) (hcond : OrderIrrelevant exprs elem) :
    OrderFree exprs expected := by
  intro exprs' hperm
  cases h : arrayType exprs expected with
  | some type =>
    obtain ⟨type', htype', hsame⟩ := accepted_perm helem hcond hperm h
    rw [htype']
    exact .some hsame
  | none =>
    cases h' : arrayType exprs' expected with
    | none => exact .none
    | some type' =>
      obtain ⟨type, htype, -⟩ := accepted_perm helem (hcond.perm hperm) hperm.symm h'
      cases h.symm.trans htype

/-- The order of elements of one type shows when some are void and others are not. -/
theorem orderIrrelevant_none (helem : expectedElem expected = .ok none) (h : OrderFree exprs expected) :
    OrderIrrelevant exprs none := by
  intro hsame
  have haccepted (expr : Expr) (hexpr : expr ∈ exprs) :
      (elemType none expr).map Ty.isVoid = some !(arrayType exprs expected).isSome := by
    obtain ⟨rest, hperm⟩ := exists_perm_cons hexpr
    have hsame' : SameType (expr :: rest) := by simpa only [SameType, hperm.mem_iff] using hsame
    rw [h.isSome hperm]
    obtain ⟨first, hfirst, -⟩ := hsame expr hexpr expr hexpr
    rw [hfirst, Option.map_some, Option.some.injEq]
    cases hvoid : first.isVoid with
    | true =>
      symm
      rw [Bool.not_eq_true', Bool.eq_false_iff]
      intro hsome
      obtain ⟨type, htype⟩ := Option.isSome_iff_exists.mp hsome
      obtain ⟨first', hfirst', hiff⟩ := accepted_of_sameType helem hsame'
      cases hfirst.symm.trans hfirst'
      exact absurd (hvoid.symm.trans ((hiff _).mp htype).1) (by decide)
    | false =>
      obtain ⟨first', hfirst', hiff⟩ := accepted_of_sameType helem hsame'
      cases hfirst.symm.trans hfirst'
      rw [(hiff _).mpr ⟨hvoid, rfl⟩]
      rfl
  intro expr hexpr expr' hexpr'
  rw [haccepted expr hexpr, haccepted expr' hexpr']

/-- The order of elements that are accepted on their own shows when one is converted, and there is another. -/
theorem orderIrrelevant_some (helem : expectedElem expected = .ok (some type)) (h : OrderFree exprs expected)
    (helements : ElementWise exprs expected) : OrderIrrelevant exprs (some type) := by
  intro hchecked
  have haccepted := (helements type helem).mpr hchecked
  constructor
  · intro expr hexpr
    obtain ⟨rest, hperm⟩ := exists_perm_cons hexpr
    rw [h.isSome hperm] at haccepted
    obtain ⟨type', htype'⟩ := Option.isSome_iff_exists.mp haccepted
    obtain ⟨first, hfirst, -, hvoid, -⟩ := (arrayType_cons helem).mp htype'
    rw [isVoid_lookupStrongType] at hvoid
    exact elemType_not_void hfirst hvoid
  · intro hlength expr hexpr
    obtain ⟨rest, hperm⟩ := exists_perm_cons hexpr
    cases rest with
    | nil =>
      rw [hperm.length_eq] at hlength
      exact absurd hlength (by simp)
    | cons expr' rest =>
      -- another element is the first
      have hswap : exprs.Perm (expr' :: expr :: rest) := hperm.trans (.swap expr' expr rest)
      rw [h.isSome hswap] at haccepted
      obtain ⟨type', htype'⟩ := Option.isSome_iff_exists.mp haccepted
      obtain ⟨first, hfirst, hrest, -⟩ := (arrayType_cons helem).mp htype'
      exact (hrest expr List.mem_cons_self).trans (compare_checkedType hfirst)

end

end Stela.Semantic.InferType
