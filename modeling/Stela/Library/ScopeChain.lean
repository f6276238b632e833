import Mathlib.Data.List.Forall2
import Mathlib.Data.Option.Basic

/-!
# Chains of tables

A name is looked up in the tables of a chain, one after another, until one of them binds it. Chains whose tables bind
names to related symbols find related symbols, and leave related chains behind them.
-/

namespace Stela.Library

variable {σ σ' τ τ' : Type}

/-- What is found in the first table that has it, with the chain from this table on. -/
def lookupChain (find : σ → Option τ) : List σ → Option (τ × List σ)
  | [] => none
  | table :: tables =>
      match find table with
      | some x => some (x, table :: tables)
      | none => lookupChain find tables

variable {find : σ → Option τ} {find' : σ' → Option τ'} {R : σ → σ' → Prop} {Q : τ → τ' → Prop}

/-- Related tables find related symbols, so related chains do. -/
theorem lookupChain_rel (hfind : ∀ table table', R table table' → Option.Rel Q (find table) (find' table'))
    {tables : List σ} {tables' : List σ'} (h : List.Forall₂ R tables tables') :
    Option.Rel (fun found found' ↦ Q found.1 found'.1 ∧ List.Forall₂ R found.2 found'.2)
      (lookupChain find tables) (lookupChain find' tables') := by
  induction h with
  | nil => exact .none
  | @cons table table' tables tables' hhead htail ih =>
    have hrel := hfind table table' hhead
    unfold lookupChain
    cases hfound : find table with
    | none =>
      rw [hfound] at hrel
      cases hfound' : find' table' with
      | none => exact ih
      | some y =>
        rw [hfound'] at hrel
        cases hrel
    | some x =>
      rw [hfound] at hrel
      cases hfound' : find' table' with
      | none =>
        rw [hfound'] at hrel
        cases hrel
      | some y =>
        rw [hfound'] at hrel
        cases hrel with
        | some hQ => exact .some ⟨hQ, .cons hhead htail⟩

end Stela.Library
