import Mathlib.Data.List.Basic
import Mathlib.Logic.Relation

/-!
# Topological orders

A list is a topological order of a dependency relation when everything that an element depends on
stands before it. Such a list is grown at its end, which is how a depth-first search emits it; that it
exists excludes cycles.
-/

namespace Stela.Library

variable {α : Type*} {r : α → α → Prop}

/-- `r a b` says that `a` depends on `b`. -/
inductive TopologicalOrder (r : α → α → Prop) : List α → Prop
  | nil : TopologicalOrder r []
  | snoc {order : List α} {a : α} (horder : TopologicalOrder r order) (ha : ∀ b, r a b → b ∈ order) :
      TopologicalOrder r (order ++ [a])

namespace TopologicalOrder

/-- What an element depends on is in the list. -/
theorem mem_of_rel {order : List α} (h : TopologicalOrder r order) {a b : α} (ha : a ∈ order) (hab : r a b) :
    b ∈ order := by
  induction h with
  | nil => cases ha
  | snoc _ hlast ih =>
    rcases List.mem_append.mp ha with ha | ha
    · exact List.mem_append_left _ (ih ha)
    · cases List.mem_singleton.mp ha
      exact List.mem_append_left _ (hlast b hab)

theorem mem_of_reflTransGen {order : List α} (h : TopologicalOrder r order) {a b : α} (ha : a ∈ order)
    (hab : Relation.ReflTransGen r a b) : b ∈ order := by
  induction hab with
  | refl => exact ha
  | tail _ hbc ih => exact h.mem_of_rel ih hbc

/-- No element depends on itself. -/
theorem acyclic {order : List α} (h : TopologicalOrder r order) {a : α} (ha : a ∈ order) :
    ¬Relation.TransGen r a a := by
  induction h with
  | nil => cases ha
  | snoc horder hlast ih =>
    rcases List.mem_append.mp ha with ha | ha
    · exact ih ha
    · cases List.mem_singleton.mp ha
      intro hcycle
      -- the first step of the cycle leads into the list, which is closed
      obtain ⟨b, hstep, hpath⟩ := Relation.TransGen.head'_iff.mp hcycle
      exact ih (horder.mem_of_reflTransGen (hlast b hstep) hpath) hcycle

theorem idxOf_lt [DecidableEq α] {order : List α} (h : TopologicalOrder r order) {a b : α} (ha : a ∈ order)
    (hab : r a b) : order.idxOf b < order.idxOf a := by
  induction h with
  | nil => cases ha
  | @snoc order last horder hlast ih =>
    by_cases hmem : a ∈ order
    · rw [List.idxOf_append_of_mem hmem, List.idxOf_append_of_mem (horder.mem_of_rel hmem hab)]
      exact ih hmem
    · obtain rfl : a = last := by simpa [hmem] using ha
      rw [List.idxOf_append_of_mem (hlast b hab), List.idxOf_append_of_notMem hmem]
      exact Nat.lt_add_right _ (List.idxOf_lt_length_of_mem (hlast b hab))

end TopologicalOrder

end Stela.Library
