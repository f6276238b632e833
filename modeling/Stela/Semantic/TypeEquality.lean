import Stela.Semantic.CompareTypes
import Mathlib.Data.Set.Insert

/-!
# What compareTypes decides

A type expands to its structure: weak aliases are replaced by what they stand for, a strong alias is a
leaf. What identifies that leaf is a parameter: its declaration in a nominal type system, and its name in
`compareTypes`.
-/

namespace Stela.Semantic.TypeEquality

open Stela.Syntax

/-- Types without aliases; a strong alias is given by the key that identifies it. -/
inductive Expansion (κ : Type) where
  | btn (value : BtnType)
  | array (elem : Expansion κ)
  | func (params : List (ParamRef × Expansion κ)) (ret : Option (Expansion κ))
  | strong (key : κ)
  | struct (fields : List (String × Expansion κ))
  | user (fields : List (String × Expansion κ × ℕ)) (size align : ℕ)

section Expand

variable {κ : Type} (key : String → ℕ → κ)

mutual

def expand : Ty → Expansion κ
  | .btn value => .btn value
  | .array elem => .array (expand elem)
  | .func params ret => .func (expandParams params) (expandRet ret)
  | .named name decl true _ => .strong (key name decl)
  | .named _ _ false type => expand type
  | .struct fields => .struct (expandFields fields)
  | .user fields size align _ => .user (expandUserFields fields) size align

def expandRet : Option Ty → Option (Expansion κ)
  | none => none
  | some ret => some (expand ret)

def expandParams : List (ParamRef × Ty) → List (ParamRef × Expansion κ)
  | [] => []
  | (r, type) :: params => (r, expand type) :: expandParams params

def expandFields : List (String × Ty) → List (String × Expansion κ)
  | [] => []
  | (name, type) :: fields => (name, expand type) :: expandFields fields

def expandUserFields : List (String × Ty × ℕ) → List (String × Expansion κ × ℕ)
  | [] => []
  | (name, type, offset) :: fields => (name, expand type, offset) :: expandUserFields fields

end

/-- Stripping weak aliases does not change the expansion. -/
theorem expand_lookupStrongType : (type : Ty) → expand key type.lookupStrongType = expand key type
  | .named _ _ false type => by simpa [Ty.lookupStrongType, expand] using expand_lookupStrongType type
  | .named _ _ true _ | .btn _ | .array _ | .func _ _ | .struct _ | .user _ _ _ _ => rfl

end Expand

/-! ## The types of a program -/

/-- The types that a type is made of directly. -/
def components : Ty → List Ty
  | .btn _ => []
  | .array elem => [elem]
  | .func params ret => ret.toList ++ params.map Prod.snd
  | .named _ _ _ type => [type]
  | .struct fields => fields.map Prod.snd
  | .user fields _ _ _ => fields.map fun field ↦ field.2.1

/-- With a type its components, which `validateType` visits as well. -/
def Closed (types : Set Ty) : Prop :=
  ∀ type ∈ types, ∀ part ∈ components type, part ∈ types

theorem lookupStrongType_mem {types : Set Ty} (hclosed : Closed types) :
    (type : Ty) → type ∈ types → type.lookupStrongType ∈ types
  | .named _ _ false type, h => lookupStrongType_mem hclosed type (hclosed _ h type (by simp [components]))
  | .named _ _ true _, h | .btn _, h | .array _, h | .func _ _, h | .struct _, h | .user _ _ _ _, h => h

/-- A type without weak aliases on top. -/
theorem not_weak_lookupStrongType {type type' : Ty} {name : String} {decl : ℕ} :
    type.lookupStrongType ≠ .named name decl false type' := by
  induction type using Ty.lookupStrongType.induct with
  | case1 => simp [Ty.lookupStrongType]
  | case2 _ _ _ ih => simpa [Ty.lookupStrongType] using ih
  | case3 type hstrong hweak =>
    cases type with
    | named name decl strong type => cases strong <;> simp_all
    | _ => simp [Ty.lookupStrongType]

section Compare

variable {types : Set Ty} {κ : Type} {key : String → ℕ → κ}

/-- The key tells strong aliases apart exactly as their names do. -/
def KeyIsName (types : Set Ty) (key : String → ℕ → κ) : Prop :=
  ∀ name name' decl decl' type type', .named name decl true type ∈ types → .named name' decl' true type' ∈ types →
    (key name decl = key name' decl' ↔ name = name')

mutual

/-- `compareTypes` compares expansions. -/
theorem compareTypes_iff (hclosed : Closed types) (hkey : KeyIsName types key) : (a b : Ty) → a ∈ types → b ∈ types →
    (compareTypes a b = true ↔ expand key a = expand key b)
  | .named name decl false type, b, ha, hb => by
    rw [compareTypes, expand]
    exact compareTypes_iff hclosed hkey type b (hclosed _ ha type (by simp [components])) hb
  | .named name decl true type, b, ha, hb => by
    rw [compareTypes, ← expand_lookupStrongType key b]
    have hb' := lookupStrongType_mem hclosed b hb
    revert hb'
    cases hstrip : b.lookupStrongType with
    | named name' decl' strong type' =>
      cases strong with
      | false => exact absurd hstrip not_weak_lookupStrongType
      | true =>
        intro hb'
        simpa [expand] using (hkey name name' decl decl' type type' ha hb').symm
    | _ => simp [expand]
  | .btn value, b, ha, hb => by
    rw [compareTypes, ← expand_lookupStrongType key b]
    cases hstrip : b.lookupStrongType with
    | named name' decl' strong type' =>
      cases strong with
      | false => exact absurd hstrip not_weak_lookupStrongType
      | true => simp [expand]
    | _ => simp [expand]
  | .array elem, b, ha, hb => by
    rw [compareTypes, ← expand_lookupStrongType key b]
    have hb' := lookupStrongType_mem hclosed b hb
    revert hb'
    cases hstrip : b.lookupStrongType with
    | named name' decl' strong type' =>
      cases strong with
      | false => exact absurd hstrip not_weak_lookupStrongType
      | true => simp [expand]
    | array elem' =>
      intro hb'
      simpa [expand] using compareTypes_iff hclosed hkey elem elem' (hclosed _ ha elem (by simp [components]))
        (hclosed _ hb' elem' (by simp [components]))
    | _ => simp [expand]
  | .func params ret, b, ha, hb => by
    rw [compareTypes, ← expand_lookupStrongType key b]
    have hb' := lookupStrongType_mem hclosed b hb
    revert hb'
    cases hstrip : b.lookupStrongType with
    | named name' decl' strong type' =>
      cases strong with
      | false => exact absurd hstrip not_weak_lookupStrongType
      | true => simp [expand]
    | func params' ret' =>
      intro hb'
      have hparams := compareParams_iff hclosed hkey params params'
        (fun p hp ↦ hclosed _ ha _ (List.mem_append_right _ (List.mem_map_of_mem hp)))
        (fun p hp ↦ hclosed _ hb' _ (List.mem_append_right _ (List.mem_map_of_mem hp)))
      have hret := compareRets_iff hclosed hkey ret ret'
        (fun type htype ↦ hclosed _ ha type (List.mem_append_left _ (by simpa using htype)))
        (fun type htype ↦ hclosed _ hb' type (List.mem_append_left _ (by simpa using htype)))
      simp [expand, hparams, hret, and_comm]
    | _ => simp [expand]
  | .struct fields, b, ha, hb => by
    rw [compareTypes, ← expand_lookupStrongType key b]
    have hb' := lookupStrongType_mem hclosed b hb
    revert hb'
    cases hstrip : b.lookupStrongType with
    | named name' decl' strong type' =>
      cases strong with
      | false => exact absurd hstrip not_weak_lookupStrongType
      | true => simp [expand]
    | struct fields' =>
      intro hb'
      simpa [expand] using compareFields_iff hclosed hkey fields fields'
        (fun p hp ↦ hclosed _ ha _ (List.mem_map_of_mem hp)) (fun p hp ↦ hclosed _ hb' _ (List.mem_map_of_mem hp))
    | _ => simp [expand]
  | .user fields size align ctors, b, ha, hb => by
    rw [compareTypes, ← expand_lookupStrongType key b]
    have hb' := lookupStrongType_mem hclosed b hb
    revert hb'
    cases hstrip : b.lookupStrongType with
    | named name' decl' strong type' =>
      cases strong with
      | false => exact absurd hstrip not_weak_lookupStrongType
      | true => simp [expand]
    | user fields' size' align' ctors' =>
      intro hb'
      have hfields := compareUserFields_iff hclosed hkey fields fields'
        (fun p hp ↦ hclosed _ ha _ (List.mem_map_of_mem hp)) (fun p hp ↦ hclosed _ hb' _ (List.mem_map_of_mem hp))
      simp only [expand, Bool.and_eq_true, beq_iff_eq, hfields, Expansion.user.injEq]
      tauto
    | _ => simp [expand]

theorem compareRets_iff (hclosed : Closed types) (hkey : KeyIsName types key) : (a b : Option Ty) →
    (∀ type, a = some type → type ∈ types) → (∀ type, b = some type → type ∈ types) →
    (compareRets a b = true ↔ expandRet key a = expandRet key b)
  | none, none, _, _ | none, some _, _, _ | some _, none, _, _ => by simp [compareRets, expandRet]
  | some a, some b, ha, hb => by
    simpa [compareRets, expandRet] using compareTypes_iff hclosed hkey a b (ha a rfl) (hb b rfl)

theorem compareParams_iff (hclosed : Closed types) (hkey : KeyIsName types key) : (a b : List (ParamRef × Ty)) →
    (∀ p ∈ a, p.2 ∈ types) → (∀ p ∈ b, p.2 ∈ types) →
    (compareParams a b = true ↔ expandParams key a = expandParams key b)
  | [], [], _, _ | [], _ :: _, _, _ | _ :: _, [], _, _ => by simp [compareParams, expandParams]
  | (r, type) :: params, (r', type') :: params', ha, hb => by
    have htype := compareTypes_iff hclosed hkey type type' (ha _ List.mem_cons_self) (hb _ List.mem_cons_self)
    have hparams := compareParams_iff hclosed hkey params params' (fun p hp ↦ ha p (List.mem_cons_of_mem _ hp))
      (fun p hp ↦ hb p (List.mem_cons_of_mem _ hp))
    simp [compareParams, expandParams, htype, hparams]

theorem compareFields_iff (hclosed : Closed types) (hkey : KeyIsName types key) : (a b : List (String × Ty)) →
    (∀ p ∈ a, p.2 ∈ types) → (∀ p ∈ b, p.2 ∈ types) →
    (compareFields a b = true ↔ expandFields key a = expandFields key b)
  | [], [], _, _ | [], _ :: _, _, _ | _ :: _, [], _, _ => by simp [compareFields, expandFields]
  | (name, type) :: fields, (name', type') :: fields', ha, hb => by
    have htype := compareTypes_iff hclosed hkey type type' (ha _ List.mem_cons_self) (hb _ List.mem_cons_self)
    have hfields := compareFields_iff hclosed hkey fields fields' (fun p hp ↦ ha p (List.mem_cons_of_mem _ hp))
      (fun p hp ↦ hb p (List.mem_cons_of_mem _ hp))
    simp [compareFields, expandFields, htype, hfields]

theorem compareUserFields_iff (hclosed : Closed types) (hkey : KeyIsName types key) :
    (a b : List (String × Ty × ℕ)) → (∀ p ∈ a, p.2.1 ∈ types) → (∀ p ∈ b, p.2.1 ∈ types) →
    (compareUserFields a b = true ↔ expandUserFields key a = expandUserFields key b)
  | [], [], _, _ | [], _ :: _, _, _ | _ :: _, [], _, _ => by simp [compareUserFields, expandUserFields]
  | (name, type, offset) :: fields, (name', type', offset') :: fields', ha, hb => by
    have htype := compareTypes_iff hclosed hkey type type' (ha _ List.mem_cons_self) (hb _ List.mem_cons_self)
    have hfields := compareUserFields_iff hclosed hkey fields fields' (fun p hp ↦ ha p (List.mem_cons_of_mem _ hp))
      (fun p hp ↦ hb p (List.mem_cons_of_mem _ hp))
    simp only [compareUserFields, expandUserFields, Bool.and_eq_true, beq_iff_eq, htype, hfields, List.cons.injEq,
      Prod.mk.injEq]
    tauto

end

end Compare

/-! ## An equivalence -/

/-- Without any condition, `compareTypes` identifies strong aliases by their names. -/
theorem compareTypes_iff_byName (a b : Ty) :
    compareTypes a b = true ↔ expand (fun name _ ↦ name) a = expand (fun name _ ↦ name) b := by
  have hclosed : Closed Set.univ := fun _ _ _ _ ↦ trivial
  have hkey : KeyIsName Set.univ fun name _ ↦ name := fun _ _ _ _ _ _ _ _ ↦ Iff.rfl
  exact compareTypes_iff hclosed hkey a b trivial trivial

theorem compareTypes_refl (a : Ty) : compareTypes a a = true :=
  (compareTypes_iff_byName a a).mpr rfl

theorem compareTypes_comm (a b : Ty) : compareTypes a b = compareTypes b a := by
  rw [Bool.eq_iff_iff, compareTypes_iff_byName, compareTypes_iff_byName]
  exact eq_comm

theorem compareTypes_trans {a b c : Ty} (hab : compareTypes a b = true) (hbc : compareTypes b c = true) :
    compareTypes a c = true :=
  (compareTypes_iff_byName a c).mpr
    (((compareTypes_iff_byName a b).mp hab).trans ((compareTypes_iff_byName b c).mp hbc))

/-! ## Nominal equality -/

/-- The nominal expansion: a strong alias is identified by its declaration. -/
abbrev nominal : Ty → Expansion ℕ :=
  expand fun _ decl ↦ decl

/-- The types of a program: every named type agrees with the declaration it resolved to. -/
structure ProgramTypes (types : Set Ty) : Prop where
  closed : Closed types
  resolved : ∀ name name' decl strong strong' type type', .named name decl strong type ∈ types →
    .named name' decl strong' type' ∈ types → name = name' ∧ strong = strong' ∧ type = type'

/-- No two declarations of strong aliases have the same name. -/
def StrongNamesUnique (types : Set Ty) : Prop :=
  ∀ name decl decl' type type', .named name decl true type ∈ types → .named name decl' true type' ∈ types →
    decl = decl'

/-- On the types of a program `compareTypes` is nominal equality if and only if the names of its strong
aliases are unique. -/
theorem compareTypes_nominal_iff (types : Set Ty) (h : ProgramTypes types) :
    (∀ a ∈ types, ∀ b ∈ types, (compareTypes a b = true ↔ nominal a = nominal b)) ↔ StrongNamesUnique types := by
  constructor
  · intro hequal name decl decl' type type' hdecl hdecl'
    have hcompare : compareTypes (.named name decl true type) (.named name decl' true type') = true := by
      simp [compareTypes, Ty.lookupStrongType]
    simpa [nominal, expand] using (hequal _ hdecl _ hdecl').mp hcompare
  · intro hunique a ha b hb
    refine compareTypes_iff h.closed ?_ a b ha hb
    intro name name' decl decl' type type' hdecl hdecl'
    constructor
    · rintro rfl
      exact (h.resolved _ _ _ _ _ _ _ hdecl hdecl').1
    · rintro rfl
      exact hunique _ _ _ _ _ hdecl hdecl'

/-- `type A sint;` at global scope. -/
def outerAlias : Ty := .named "A" 0 true (.btn .sint)

/-- `type A real;` in a function. -/
def innerAlias : Ty := .named "A" 1 true (.btn .real)

/-- The types of a program with one strong alias and an array of it. -/
def oneAlias : Set Ty := {.btn .sint, outerAlias, .array outerAlias}

/-- The types of a program that declares the strong alias again in an inner scope. -/
def twoAliases : Set Ty := {.btn .sint, .btn .real, outerAlias, innerAlias}

theorem oneAlias_types : ProgramTypes oneAlias where
  closed := by
    rintro _ (rfl | rfl | rfl) <;> simp [components, oneAlias, outerAlias]
  resolved := by
    rintro _ _ _ _ _ _ _ (h | h | h) (h' | h' | h') <;> cases h <;> cases h'
    exact ⟨rfl, rfl, rfl⟩

theorem compareTypes_nominal_iff_oneAlias :
    compareTypes outerAlias (.array outerAlias) = true ↔ nominal outerAlias = nominal (.array outerAlias) := by
  have hunique : StrongNamesUnique oneAlias := by
    rintro _ _ _ _ _ (h | h | h) (h' | h' | h') <;> cases h <;> cases h'
    rfl
  exact (compareTypes_nominal_iff oneAlias oneAlias_types).mpr hunique outerAlias (.inr (.inl rfl))
    (.array outerAlias) (.inr (.inr rfl))

theorem twoAliases_types : ProgramTypes twoAliases where
  closed := by
    rintro _ (rfl | rfl | rfl | rfl) <;> simp [components, twoAliases, outerAlias, innerAlias]
  resolved := by
    rintro _ _ _ _ _ _ _ (h | h | h | h) (h' | h' | h' | h') <;> cases h <;> cases h' <;> exact ⟨rfl, rfl, rfl⟩

theorem compareTypes_sameName :
    ¬∀ types, ProgramTypes types → ∀ a ∈ types, ∀ b ∈ types, validateType a = .ok () → validateType b = .ok () →
      (compareTypes a b = true ↔ nominal a = nominal b) := by
  intro h
  have hequal := (h twoAliases twoAliases_types outerAlias (by simp [twoAliases]) innerAlias (by simp [twoAliases])
    rfl rfl).mp (by decide)
  simp [nominal, expand, outerAlias, innerAlias] at hequal

end Stela.Semantic.TypeEquality
