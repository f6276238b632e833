import Stela.Library.Machine

/-!
# The method of potentials

What a step of a machine costs is read off the state before it. `total_le` bounds the cost of a whole run by what is
granted to the steps, if each step pays what it costs beyond its grant out of a potential of the state.
-/

namespace Stela.Library.Potential

open Machine

variable {σ α : Type*} (step : σ → α → Option σ)

/-- The sum over the events of a run, up to the one that is refused. -/
def total (cost : σ → α → ℕ) : σ → List α → ℕ
  | _, [] => 0
  | s, a :: as => cost s a + (step s a).elim 0 fun s' ↦ total cost s' as

variable {step}

theorem total_cons {cost : σ → α → ℕ} {s s' : σ} {a : α} {as : List α} (hstep : step s a = some s') :
    total step cost s (a :: as) = cost s a + total step cost s' as := by
  rw [total, hstep]
  rfl

theorem total_refused {cost : σ → α → ℕ} {s : σ} {a : α} {as : List α} (hstep : step s a = none) :
    total step cost s (a :: as) = cost s a := by
  rw [total, hstep]
  rfl

/-- The potential at the start and the grants pay for the run. -/
theorem total_le {Inv : σ → Prop} {cond : σ → α → Prop} {cost grant : σ → α → ℕ} (potential : σ → ℕ)
    (hkeeps : ∀ s a s', Inv s → cond s a → step s a = some s' → Inv s')
    (hpays : ∀ s a s', Inv s → cond s a → step s a = some s' → cost s a + potential s' ≤ potential s + grant s a)
    (hrefuses : ∀ s a, Inv s → cond s a → step s a = none → cost s a ≤ potential s + grant s a)
    {s : σ} {as : List α} (hmeets : RunMeets step cond s as) (hs : Inv s) :
    total step cost s as ≤ potential s + total step grant s as := by
  induction as generalizing s with
  | nil => exact Nat.zero_le _
  | cons a as ih =>
    cases hstep : step s a with
    | none =>
      rw [total_refused hstep, total_refused hstep]
      exact hrefuses s a hs hmeets.1 hstep
    | some s' =>
      have hrest := ih (hmeets.2 s' hstep) (hkeeps s a s' hs hmeets.1 hstep)
      rw [total_cons hstep, total_cons hstep]
      calc cost s a + total step cost s' as
        _ ≤ cost s a + (potential s' + total step grant s' as) := Nat.add_le_add_left hrest _
        _ = cost s a + potential s' + total step grant s' as := (Nat.add_assoc _ _ _).symm
        _ ≤ potential s + grant s a + total step grant s' as :=
            Nat.add_le_add_right (hpays s a s' hs hmeets.1 hstep) _
        _ = potential s + (grant s a + total step grant s' as) := Nat.add_assoc _ _ _

end Stela.Library.Potential
