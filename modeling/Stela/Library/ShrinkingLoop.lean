import Mathlib.Logic.Relation
import Mathlib.Order.Basic
import Mathlib.Tactic.Common

/-!
# Loops that shrink their state

The body of a loop throws, returns, or goes on from a smaller state. `Reaches` is the relation between the
states at which iterations begin; a run ends in the last state that it reaches, and what every iteration
preserves holds there.
-/

namespace Stela.Library

universe u

/-- `inl` leaves the loop, `inr` goes on. -/
structure ShrinkingLoop (ε α σ : Type u) where
  body : σ → Except ε (α ⊕ σ)
  size : σ → ℕ
  shrinks : ∀ {s s' : σ}, body s = .ok (.inr s') → size s' < size s

namespace ShrinkingLoop

variable {ε α σ : Type u} (L : ShrinkingLoop ε α σ)

def run (s : σ) : Except ε α :=
  match _h : L.body s with
  | .error e => .error e
  | .ok (.inl a) => .ok a
  | .ok (.inr s') => run s'
termination_by L.size s
decreasing_by exact L.shrinks _h

/-- An iteration goes on from the first state to the second. -/
def Next (s s' : σ) : Prop := L.body s = .ok (.inr s')

def Reaches : σ → σ → Prop := Relation.ReflTransGen L.Next

variable {L} {s s' : σ} {a : α} {e : ε}

theorem run_of_error (h : L.body s = .error e) : L.run s = .error e := by
  rw [run]
  split <;> rename_i h' <;> cases h.symm.trans h'
  rfl

theorem run_of_return (h : L.body s = .ok (.inl a)) : L.run s = .ok a := by
  rw [run]
  split <;> rename_i h' <;> cases h.symm.trans h'
  rfl

theorem run_of_next (h : L.Next s s') : L.run s = L.run s' := by
  rw [run]
  split <;> rename_i h' <;> cases h.symm.trans h'
  rfl

theorem run_of_reaches (h : L.Reaches s s') : L.run s = L.run s' := by
  induction h with
  | refl => rfl
  | tail _ hnext ih => exact ih.trans (run_of_next hnext)

variable (L) in
/-- To show a property of every state, assume it of the state that the iteration goes on from. -/
@[elab_as_elim]
theorem induction {P : σ → Prop} (h : ∀ s, (∀ s', L.Next s s' → P s') → P s) (s : σ) : P s := by
  induction hn : L.size s using Nat.strongRecOn generalizing s with
  | ind n ih => exact h s fun s' hnext ↦ ih _ (hn ▸ L.shrinks hnext) s' rfl

variable (L) in
/-- Every run has a last state, whose iteration does not go on. -/
theorem exists_last (s : σ) : ∃ s', L.Reaches s s' ∧ ∀ t, ¬L.Next s' t := by
  induction s using induction L with
  | h s ih =>
    by_cases hs : ∃ t, L.Next s t
    · obtain ⟨t, ht⟩ := hs
      obtain ⟨s', hreach, hlast⟩ := ih t ht
      exact ⟨s', .head ht hreach, hlast⟩
    · exact ⟨s, .refl, not_exists.mp hs⟩

theorem run_eq_ok : L.run s = .ok a ↔ ∃ s', L.Reaches s s' ∧ L.body s' = .ok (.inl a) := by
  refine ⟨fun h ↦ ?_, fun ⟨s', hreach, hbody⟩ ↦ (run_of_reaches hreach).trans (run_of_return hbody)⟩
  obtain ⟨s', hreach, hlast⟩ := exists_last L s
  refine ⟨s', hreach, ?_⟩
  rw [run_of_reaches hreach] at h
  cases hbody : L.body s' with
  | error e => cases (run_of_error hbody).symm.trans h
  | ok r =>
    cases r with
    | inl b => rw [Except.ok.inj ((run_of_return hbody).symm.trans h)]
    | inr t => exact absurd hbody (hlast t)

theorem run_eq_error : L.run s = .error e ↔ ∃ s', L.Reaches s s' ∧ L.body s' = .error e := by
  refine ⟨fun h ↦ ?_, fun ⟨s', hreach, hbody⟩ ↦ (run_of_reaches hreach).trans (run_of_error hbody)⟩
  obtain ⟨s', hreach, hlast⟩ := exists_last L s
  refine ⟨s', hreach, ?_⟩
  rw [run_of_reaches hreach] at h
  cases hbody : L.body s' with
  | error e' => rw [Except.error.inj ((run_of_error hbody).symm.trans h)]
  | ok r =>
    cases r with
    | inl b => cases (run_of_return hbody).symm.trans h
    | inr t => exact absurd hbody (hlast t)

/-- What every iteration preserves holds in every state reached. -/
theorem Reaches.invariant {P : σ → Prop} (hstep : ∀ s s', P s → L.Next s s' → P s') (h : L.Reaches s s')
    (hs : P s) : P s' := by
  induction h with
  | refl => exact hs
  | tail _ hnext ih => exact hstep _ _ ih hnext

/-- Two loops whose bodies agree in the states with a property that their iterations preserve run alike. -/
theorem run_congr {L' : ShrinkingLoop ε α σ} {P : σ → Prop} (hstep : ∀ s s', P s → L.Next s s' → P s')
    (hbody : ∀ s, P s → L.body s = L'.body s) (hs : P s) : L.run s = L'.run s := by
  induction s using induction L with
  | h s ih =>
    cases h : L.body s with
    | error e => rw [run_of_error h, run_of_error ((hbody s hs).symm.trans h)]
    | ok r =>
      cases r with
      | inl a => rw [run_of_return h, run_of_return ((hbody s hs).symm.trans h)]
      | inr s' =>
        rw [run_of_next h, run_of_next ((hbody s hs).symm.trans h)]
        exact ih s' h (hstep s s' hs h)

end ShrinkingLoop

end Stela.Library
