import Mathlib.Tactic.Common

/-!
# Inversion of fallible computations

A bind in `Except` that succeeds is taken apart here once, so that proofs about fallible
functions never case on the intermediate results.
-/

namespace Stela.Library.Except

universe u v

theorem bind_eq_ok {error : Type u} {α β : Type v} {x : Except error α} {f : α → Except error β} {b : β} :
    x >>= f = .ok b ↔ ∃ a, x = .ok a ∧ f a = .ok b := by
  cases x with
  | error e => exact ⟨nofun, fun ⟨a, h, _⟩ ↦ by cases h⟩
  | ok a => exact ⟨fun h ↦ ⟨a, rfl, h⟩, fun ⟨_, ha, h⟩ ↦ by cases ha; exact h⟩

theorem bind_eq_error {error : Type u} {α β : Type v} {x : Except error α} {f : α → Except error β} {e : error} :
    x >>= f = .error e ↔ x = .error e ∨ ∃ a, x = .ok a ∧ f a = .error e := by
  cases x with
  | error e' =>
    constructor
    · intro h
      exact .inl (congrArg Except.error (Except.error.inj h))
    · rintro (h | ⟨a, h, -⟩)
      · exact congrArg Except.error (Except.error.inj h)
      · cases h
  | ok a =>
    constructor
    · exact fun h ↦ .inr ⟨a, rfl, h⟩
    · rintro (h | ⟨_, ha, h⟩)
      · cases h
      · cases ha
        exact h

/-- A bind has no faults but those of its parts. -/
theorem bind_ne_error {error : Type u} {α β : Type v} {x : Except error α} {f : α → Except error β} {e : error}
    (hx : x ≠ .error e) (hf : ∀ a, x = .ok a → f a ≠ .error e) : x >>= f ≠ .error e := by
  intro h
  obtain h | ⟨a, ha, h⟩ := bind_eq_error.mp h
  · exact hx h
  · exact hf a ha h

theorem map_eq_ok {error : Type u} {α β : Type v} {f : α → β} {x : Except error α} {b : β} :
    x.map f = .ok b ↔ ∃ a, x = .ok a ∧ f a = b := by
  cases x with
  | error e => exact ⟨nofun, fun ⟨_, h, _⟩ ↦ nomatch h⟩
  | ok a => exact ⟨fun h ↦ ⟨a, rfl, Except.ok.inj h⟩, fun ⟨_, ha, h⟩ ↦ by cases ha; exact congrArg _ h⟩

theorem map_eq_error {error : Type u} {α β : Type v} {f : α → β} {x : Except error α} {e : error} :
    x.map f = .error e ↔ x = .error e := by
  cases x with
  | error e' => exact ⟨fun h ↦ congrArg _ (Except.error.inj h), fun h ↦ congrArg _ (Except.error.inj h)⟩
  | ok a => exact ⟨nofun, nofun⟩

theorem ite_error_eq_ok {error : Type u} {α : Type v} {c : Prop} [Decidable c] {e : error}
    {x : Except error α} {a : α} : (if c then .error e else x) = .ok a ↔ ¬c ∧ x = .ok a := by
  by_cases h : c <;> simp [h]

/-- Every result of a fallible map comes from an element of the list. -/
theorem exists_of_mem_mapM {error : Type u} {α : Type u} {β : Type v} {f : α → Except error β} :
    {xs : List α} → {ys : List β} → xs.mapM f = .ok ys → ∀ y ∈ ys, ∃ x ∈ xs, f x = .ok y
  | [], ys, h, y, hy => by
    rw [List.mapM_nil] at h
    cases h
    cases hy
  | x :: xs, ys, h, y, hy => by
    simp only [List.mapM_cons, bind_eq_ok] at h
    obtain ⟨y', hy', ys', hys', h⟩ := h
    cases h
    rcases List.mem_cons.mp hy with rfl | hy
    · exact ⟨x, List.mem_cons_self, hy'⟩
    · obtain ⟨z, hz, hfz⟩ := exists_of_mem_mapM hys' y hy
      exact ⟨z, List.mem_cons_of_mem x hz, hfz⟩

end Stela.Library.Except
