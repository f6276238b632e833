import Mathlib.Data.List.Basic

/-!
# Lifetimes on a stack

Objects are constructed, used and destroyed. Of the objects that live together, the one that was constructed last
is destroyed first.
-/

namespace Stela.Library.Lifetimes

variable {α : Type}

inductive Step (α : Type) where
  | use (objs : List α)
  | start (obj : α)
  | destroy (obj : α)

section Run

variable [DecidableEq α]

/-- The objects that live after the steps, the last one first. There are none if an object is used or destroyed while
it does not live, constructed while it does, or destroyed before one that was constructed later. -/
def run : List (Step α) → List α → Option (List α)
  | [], live => some live
  | .use objs :: steps, live => if ∀ obj ∈ objs, obj ∈ live then run steps live else none
  | .start obj :: steps, live => if obj ∈ live then none else run steps (obj :: live)
  | .destroy _ :: _, [] => none
  | .destroy obj :: steps, last :: live => if obj = last then run steps live else none

theorem run_append (steps steps' : List (Step α)) (live : List α) :
    run (steps ++ steps') live = (run steps live).bind (run steps') := by
  fun_induction run steps live with
  | case1 live => rfl
  | case2 objs steps live h ih => rw [List.cons_append, run, if_pos h, ih]
  | case3 objs steps live h => rw [List.cons_append, run, if_neg h, Option.bind_none]
  | case4 obj steps live h => rw [List.cons_append, run, if_pos h, Option.bind_none]
  | case5 obj steps live h ih => rw [List.cons_append, run, if_neg h, ih]
  | case6 => rfl
  | case7 steps last live ih => rw [List.cons_append, run, if_pos rfl, ih]
  | case8 obj steps last live h => rw [List.cons_append, run, if_neg h, Option.bind_none]

/-- Steps one after the other. -/
theorem run_append_of {steps steps' : List (Step α)} {live live' : List α} {result : Option (List α)}
    (h : run steps live = some live') (h' : run steps' live' = result) : run (steps ++ steps') live = result := by
  rw [run_append, h, Option.bind_some, h']

theorem run_use {objs live : List α} (h : objs ⊆ live) : run [.use objs] live = some live := by
  rw [run, if_pos fun _ ↦ (h ·), run]

/-- Steps that only use objects that live. -/
theorem run_uses {steps : List (Step α)} {live : List α} (h : ∀ step ∈ steps, ∃ objs ⊆ live, step = .use objs) :
    run steps live = some live := by
  induction steps with
  | nil => rfl
  | cons step steps ih =>
    obtain ⟨objs, hobjs, rfl⟩ := h step List.mem_cons_self
    rw [run, if_pos fun _ ↦ (hobjs ·)]
    apply ih
    intro step hstep
    exact h step (List.mem_cons_of_mem _ hstep)

theorem run_start {obj : α} {live : List α} (h : obj ∉ live) : run [.start obj] live = some (obj :: live) := by
  rw [run, if_neg h, run]

/-- The last objects are destroyed, the very last one first. -/
theorem run_destroys (objs live : List α) : run (objs.map .destroy) (objs ++ live) = some live := by
  induction objs with
  | nil => rfl
  | cons obj objs ih => rw [List.map_cons, List.cons_append, run, if_pos rfl, ih]

/-- What lives before some steps can be told from what lives after them. -/
theorem run_injective {steps : List (Step α)} {live live' result : List α} (h : run steps live = some result)
    (h' : run steps live' = some result) : live = live' := by
  induction steps generalizing live live' with
  | nil => exact Option.some.inj (h.trans h'.symm)
  | cons step steps ih =>
    cases step with
    | use objs =>
      obtain ⟨-, h⟩ := Option.ite_none_right_eq_some.mp h
      obtain ⟨-, h'⟩ := Option.ite_none_right_eq_some.mp h'
      exact ih h h'
    | start obj =>
      obtain ⟨-, h⟩ := Option.ite_none_left_eq_some.mp h
      obtain ⟨-, h'⟩ := Option.ite_none_left_eq_some.mp h'
      exact (List.cons.inj (ih h h')).2
    | destroy obj =>
      cases live with
      | nil => cases h
      | cons last live =>
        cases live' with
        | nil => cases h'
        | cons last' live' =>
          obtain ⟨rfl, hrun⟩ := Option.ite_none_right_eq_some.mp h
          obtain ⟨rfl, hrun'⟩ := Option.ite_none_right_eq_some.mp h'
          rw [ih hrun hrun']

/-- An object that is not destroyed lives on. -/
theorem mem_of_run {steps : List (Step α)} {obj : α} (hdestroy : .destroy obj ∉ steps) {live live' : List α}
    (hmem : obj ∈ live) (h : run steps live = some live') : obj ∈ live' := by
  induction steps generalizing live with
  | nil =>
    cases h
    exact hmem
  | cons step steps ih =>
    have ih := fun {live} ↦ @ih (fun hstep ↦ hdestroy (List.mem_cons_of_mem _ hstep)) live
    cases step with
    | use objs => exact ih hmem (Option.ite_none_right_eq_some.mp h).2
    | start obj' => exact ih (List.mem_cons_of_mem _ hmem) (Option.ite_none_left_eq_some.mp h).2
    | destroy obj' =>
      cases live with
      | nil => cases hmem
      | cons last live =>
        obtain ⟨rfl, hrun⟩ := Option.ite_none_right_eq_some.mp h
        rcases List.mem_cons.mp hmem with rfl | hmem
        · exact absurd List.mem_cons_self hdestroy
        · exact ih hmem hrun

/-- An object that does not live and is not constructed is not destroyed. -/
theorem run_absent {steps : List (Step α)} {obj : α} (hstart : .start obj ∉ steps) {live live' : List α}
    (hmem : obj ∉ live) (h : run steps live = some live') : .destroy obj ∉ steps ∧ obj ∉ live' := by
  induction steps generalizing live with
  | nil =>
    cases h
    exact ⟨List.not_mem_nil, hmem⟩
  | cons step steps ih =>
    have ih := fun {live} ↦ @ih (fun hstep ↦ hstart (List.mem_cons_of_mem _ hstep)) live
    cases step with
    | use objs =>
      obtain ⟨hdestroy, hlive⟩ := ih hmem (Option.ite_none_right_eq_some.mp h).2
      exact ⟨by simpa using hdestroy, hlive⟩
    | start obj' =>
      have hne : obj ≠ obj' := fun heq ↦ hstart (heq ▸ List.mem_cons_self)
      obtain ⟨hdestroy, hlive⟩ := ih (List.not_mem_cons_of_ne_of_not_mem hne hmem) (Option.ite_none_left_eq_some.mp h).2
      exact ⟨by simpa using hdestroy, hlive⟩
    | destroy obj' =>
      cases live with
      | nil => cases h
      | cons last live =>
        obtain ⟨rfl, hrun⟩ := Option.ite_none_right_eq_some.mp h
        obtain ⟨hne, hmem⟩ := List.ne_and_not_mem_of_not_mem_cons hmem
        obtain ⟨hdestroy, hlive⟩ := ih hmem hrun
        exact ⟨by simpa [hne] using hdestroy, hlive⟩

end Run

end Stela.Library.Lifetimes
