import Mathlib.Data.List.Forall2
import Mathlib.Order.Lattice
import Mathlib.Tactic.Common

/-!
# Equality and order that belong together

An equality and an order on a type are lawful together when the equality is an equivalence, and the order is strict,
transitive, and total up to the equality. Keys in a linear order give such a pair; products and lists, compared
lexicographically, have one when their parts do.
-/

namespace Stela.Library.Comparison

universe u v

variable {α : Type u} {β : Type v}

structure Lawful (eq lt : α → α → Prop) : Prop where
  refl : ∀ a, eq a a
  symm : ∀ {a b}, eq a b → eq b a
  trans : ∀ {a b c}, eq a b → eq b c → eq a c
  not_eq : ∀ {a b}, lt a b → ¬eq a b
  lt_trans : ∀ {a b c}, lt a b → lt b c → lt a c
  total : ∀ a b, lt a b ∨ eq a b ∨ lt b a

namespace Lawful

variable {eq lt : α → α → Prop} {eq' lt' : β → β → Prop} {a b c : α}

theorem irrefl (h : Lawful eq lt) (a : α) : ¬lt a a := fun hlt ↦ h.not_eq hlt (h.refl a)

theorem asymm (h : Lawful eq lt) (hlt : lt a b) : ¬lt b a := fun hgt ↦ h.irrefl a (h.lt_trans hlt hgt)

/-- Exactly one of the three holds. -/
theorem trichotomy (h : Lawful eq lt) (a b : α) :
    lt a b ∧ ¬eq a b ∧ ¬lt b a ∨ ¬lt a b ∧ eq a b ∧ ¬lt b a ∨ ¬lt a b ∧ ¬eq a b ∧ lt b a := by
  rcases h.total a b with hlt | heq | hgt
  · exact .inl ⟨hlt, h.not_eq hlt, h.asymm hlt⟩
  · exact .inr (.inl ⟨fun hlt ↦ h.not_eq hlt heq, heq, fun hgt ↦ h.not_eq hgt (h.symm heq)⟩)
  · exact .inr (.inr ⟨h.asymm hgt, fun heq ↦ h.not_eq hgt (h.symm heq), hgt⟩)

theorem lt_of_eq_of_lt (h : Lawful eq lt) (heq : eq a b) (hlt : lt b c) : lt a c := by
  rcases h.total a c with hac | hac | hca
  · exact hac
  · exact absurd (h.trans (h.symm heq) hac) (h.not_eq hlt)
  · exact absurd (h.symm heq) (h.not_eq (h.lt_trans hlt hca))

theorem lt_of_lt_of_eq (h : Lawful eq lt) (hlt : lt a b) (heq : eq b c) : lt a c := by
  rcases h.total a c with hac | hac | hca
  · exact hac
  · exact absurd (h.trans hac (h.symm heq)) (h.not_eq hlt)
  · exact absurd (h.symm heq) (h.not_eq (h.lt_trans hca hlt))

/-- A type with one element up to the equality. -/
theorem of_subsingleton (heq : ∀ a b, eq a b) (hlt : ∀ a b, ¬lt a b) : Lawful eq lt where
  refl a := heq a a
  symm _ := heq _ _
  trans _ _ := heq _ _
  not_eq h := absurd h (hlt _ _)
  lt_trans h := absurd h (hlt _ _)
  total a b := .inr (.inl (heq a b))

/-- Values that are compared by a part of them. -/
theorem comap (h : Lawful eq lt) (f : β → α) : Lawful (fun a b ↦ eq (f a) (f b)) fun a b ↦ lt (f a) (f b) where
  refl a := h.refl (f a)
  symm := h.symm
  trans := h.trans
  not_eq := h.not_eq
  lt_trans := h.lt_trans
  total a b := h.total (f a) (f b)

/-- Values that are compared by a key. -/
theorem of_key [LinearOrder β] (key : α → β) : Lawful (fun a b ↦ key a = key b) fun a b ↦ key a < key b where
  refl _ := rfl
  symm h := Eq.symm h
  trans h h' := Eq.trans h h'
  not_eq h := ne_of_lt h
  lt_trans h h' := LT.lt.trans h h'
  total a b := lt_trichotomy (key a) (key b)

/-- The product, in which the first components count before the second ones. -/
theorem prod (h : Lawful eq lt) (h' : Lawful eq' lt') :
    Lawful (fun a b : α × β ↦ eq a.1 b.1 ∧ eq' a.2 b.2) fun a b ↦ lt a.1 b.1 ∨ eq a.1 b.1 ∧ lt' a.2 b.2 where
  refl a := ⟨h.refl a.1, h'.refl a.2⟩
  symm := fun ⟨h₁, h₂⟩ ↦ ⟨h.symm h₁, h'.symm h₂⟩
  trans := fun ⟨h₁, h₂⟩ ⟨h₃, h₄⟩ ↦ ⟨h.trans h₁ h₃, h'.trans h₂ h₄⟩
  not_eq := fun hlt ⟨h₁, h₂⟩ ↦ hlt.elim (fun hlt ↦ h.not_eq hlt h₁) fun hlt ↦ h'.not_eq hlt.2 h₂
  lt_trans := by
    rintro a b c (hab | ⟨hab, hab'⟩) (hbc | ⟨hbc, hbc'⟩)
    · exact .inl (h.lt_trans hab hbc)
    · exact .inl (h.lt_of_lt_of_eq hab hbc)
    · exact .inl (h.lt_of_eq_of_lt hab hbc)
    · exact .inr ⟨h.trans hab hbc, h'.lt_trans hab' hbc'⟩
  total a b := by
    rcases h.total a.1 b.1 with hlt | heq | hgt
    · exact .inl (.inl hlt)
    · rcases h'.total a.2 b.2 with hlt' | heq' | hgt'
      · exact .inl (.inr ⟨heq, hlt'⟩)
      · exact .inr (.inl ⟨heq, heq'⟩)
      · exact .inr (.inr (.inr ⟨h.symm heq, hgt'⟩))
    · exact .inr (.inr (.inl hgt))

end Lawful

/-- The lexicographic order on lists: a list is before those that continue it. -/
inductive Lex (eq lt : α → α → Prop) : List α → List α → Prop
  | nil {b bs} : Lex eq lt [] (b :: bs)
  | head {a b as bs} : lt a b → Lex eq lt (a :: as) (b :: bs)
  | tail {a b as bs} : eq a b → Lex eq lt as bs → Lex eq lt (a :: as) (b :: bs)

section

variable {eq lt : α → α → Prop}

theorem not_lex_nil {as : List α} : ¬Lex eq lt as [] := nofun

theorem lex_cons {a b : α} {as bs : List α} : Lex eq lt (a :: as) (b :: bs) ↔ lt a b ∨ eq a b ∧ Lex eq lt as bs := by
  constructor
  · rintro (_ | hlt | ⟨heq, hlex⟩)
    · exact .inl hlt
    · exact .inr ⟨heq, hlex⟩
  · rintro (hlt | ⟨heq, hlex⟩)
    · exact .head hlt
    · exact .tail heq hlex

namespace Lawful

theorem lex_trans (h : Lawful eq lt) {as bs cs : List α} (hab : Lex eq lt as bs) (hbc : Lex eq lt bs cs) :
    Lex eq lt as cs := by
  induction hab generalizing cs with
  | nil => cases hbc <;> exact .nil
  | head hlt =>
    cases hbc with
    | head hlt' => exact .head (h.lt_trans hlt hlt')
    | tail heq _ => exact .head (h.lt_of_lt_of_eq hlt heq)
  | tail heq _ ih =>
    cases hbc with
    | head hlt => exact .head (h.lt_of_eq_of_lt heq hlt)
    | tail heq' hbc => exact .tail (h.trans heq heq') (ih hbc)

theorem forall_trans (h : Lawful eq lt) : {as bs cs : List α} → List.Forall₂ eq as bs → List.Forall₂ eq bs cs →
    List.Forall₂ eq as cs
  | _, _, _, .nil, .nil => .nil
  | _, _, _, .cons heq hrest, .cons heq' hrest' => .cons (h.trans heq heq') (forall_trans h hrest hrest')

theorem lex_not_eq (h : Lawful eq lt) {as bs : List α} (hlex : Lex eq lt as bs) : ¬List.Forall₂ eq as bs := by
  induction hlex with
  | nil => nofun
  | head hlt =>
    rintro (_ | ⟨heq, -⟩)
    exact h.not_eq hlt heq
  | tail _ _ ih =>
    rintro (_ | ⟨-, hrest⟩)
    exact ih hrest

theorem lex_total (h : Lawful eq lt) : (as bs : List α) →
    Lex eq lt as bs ∨ List.Forall₂ eq as bs ∨ Lex eq lt bs as
  | [], [] => .inr (.inl .nil)
  | [], _ :: _ => .inl .nil
  | _ :: _, [] => .inr (.inr .nil)
  | a :: as, b :: bs => by
    rcases h.total a b with hlt | heq | hgt
    · exact .inl (.head hlt)
    · rcases lex_total h as bs with hlt' | heq' | hgt'
      · exact .inl (.tail heq hlt')
      · exact .inr (.inl (.cons heq heq'))
      · exact .inr (.inr (.tail (h.symm heq) hgt'))
    · exact .inr (.inr (.head hgt))

/-- Lists, compared element by element and lexicographically. -/
theorem list (h : Lawful eq lt) : Lawful (List.Forall₂ eq) (Lex eq lt) where
  refl _ := List.forall₂_same.mpr fun a _ ↦ h.refl a
  symm hab := List.Forall₂.flip (hab.imp fun _ _ heq ↦ h.symm heq)
  trans := h.forall_trans
  not_eq := h.lex_not_eq
  lt_trans := h.lex_trans
  total := h.lex_total

end Lawful

end

end Stela.Library.Comparison
