import Mathlib.Tactic.Common

/-!
# Refinement of a pure computation by one with a state

A computation with a state refines one without: it fails when the other fails, with the same error, and otherwise the
two results and the state that is reached are related.
-/

namespace Stela.Library

variable {ε ε' σ α β γ δ : Type}

/-- From the state, `m` does what `c` does. -/
def Refines (embed : ε → ε') (c : Except ε β) (m : StateT σ (Except ε') α) (s : σ) (R : β → α → σ → Prop) : Prop :=
  match c with
  | .ok b => ∃ a s', m s = .ok (a, s') ∧ R b a s'
  | .error e => m s = .error (embed e)

namespace Refines

variable {embed : ε → ε'} {c : Except ε β} {m : StateT σ (Except ε') α} {s s' : σ} {R : β → α → σ → Prop}

theorem of_ok {a : α} {b : β} (hm : m s = .ok (a, s')) (h : R b a s') : Refines embed (.ok b) m s R := ⟨a, s', hm, h⟩

theorem pure {a : α} {b : β} (h : R b a s) : Refines embed (.ok b) (pure a) s R := of_ok rfl h

theorem mono {R' : β → α → σ → Prop} (h : Refines embed c m s R) (hR : ∀ b a s', R b a s' → R' b a s') :
    Refines embed c m s R' := by
  cases c with
  | error e => exact h
  | ok b =>
    obtain ⟨a, s', hm, hr⟩ := h
    exact of_ok hm (hR b a s' hr)

theorem congr {m' : StateT σ (Except ε') α} (hm : m s = m' s) (h : Refines embed c m' s R) : Refines embed c m s R := by
  unfold Refines at h ⊢
  rw [hm]
  exact h

/-- A step that only the computation with the state takes. -/
theorem step {c : Except ε γ} {f : α → StateT σ (Except ε') δ} {R' : γ → δ → σ → Prop} {a : α}
    (hm : m s = .ok (a, s')) (h : Refines embed c (f a) s' R') : Refines embed c (m >>= f) s R' := by
  have hrun : (m >>= f) s = f a s' := by
    change (m s >>= fun r ↦ f r.1 r.2) = _
    rw [hm]
    rfl
  unfold Refines at h ⊢
  rw [hrun]
  exact h

/-- Both go on with their results. -/
theorem bind {g : β → Except ε γ} {f : α → StateT σ (Except ε') δ} {R' : γ → δ → σ → Prop}
    (h : Refines embed c m s R) (hf : ∀ b a s', R b a s' → Refines embed (g b) (f a) s' R') :
    Refines embed (c >>= g) (m >>= f) s R' := by
  cases c with
  | error e =>
    change (m s >>= fun r ↦ f r.1 r.2) = .error (embed e)
    rw [show m s = .error (embed e) from h]
    rfl
  | ok b =>
    obtain ⟨a, s', hm, hr⟩ := h
    have hrun : (m >>= f) s = f a s' := by
      change (m s >>= fun r ↦ f r.1 r.2) = _
      rw [hm]
      rfl
    have hnext := hf b a s' hr
    unfold Refines at hnext ⊢
    rw [hrun]
    exact hnext

/-- The computation with the state goes on by itself. -/
theorem finish {f : α → StateT σ (Except ε') δ} {R' : β → δ → σ → Prop} (h : Refines embed c m s R)
    (hf : ∀ b a s', R b a s' → Refines embed (.ok b) (f a) s' R') : Refines embed c (m >>= f) s R' := by
  cases c with
  | error e =>
    change (m s >>= fun r ↦ f r.1 r.2) = .error (embed e)
    rw [show m s = .error (embed e) from h]
    rfl
  | ok b =>
    obtain ⟨a, s', hm, hr⟩ := h
    exact step hm (hf b a s' hr)

/-- The result is one that the computation without a state has. -/
theorem and_result (h : Refines embed c m s R) : Refines embed c m s fun b a s' ↦ c = .ok b ∧ R b a s' := by
  cases c with
  | error e => exact h
  | ok b =>
    obtain ⟨a, s', hm, hr⟩ := h
    exact of_ok hm ⟨rfl, hr⟩

/-- Both go through a list, and every element keeps the invariant. -/
theorem mapM {ι : Type} {I : σ → Prop} {f : ι → Except ε β} {g : ι → StateT σ (Except ε') β} {s : σ} :
    {xs : List ι} → (∀ x ∈ xs, ∀ s, I s → Refines embed (f x) (g x) s fun b a s' ↦ a = b ∧ I s') → I s →
      Refines embed (xs.mapM f) (xs.mapM g) s fun bs as s' ↦ as = bs ∧ I s'
  | [], _, hs => by
    rw [List.mapM_nil, List.mapM_nil]
    exact .pure ⟨rfl, hs⟩
  | x :: xs, h, hs => by
    rw [List.mapM_cons, List.mapM_cons]
    have hfirst := h x List.mem_cons_self s hs
    refine hfirst.bind fun b a s₁ ⟨hab, hs₁⟩ ↦ ?_
    have hrest := mapM (fun y hy ↦ h y (List.mem_cons_of_mem x hy)) hs₁
    refine hrest.bind fun bs as s₂ ⟨habs, hs₂⟩ ↦ ?_
    exact .pure ⟨by rw [hab, habs], hs₂⟩

/-- What is left when the state is dropped. -/
theorem run_eq {c : Except ε α} (h : Refines embed c m s fun b a _ ↦ a = b) :
    Prod.fst <$> m s = c.mapError embed := by
  cases c with
  | error e =>
    rw [show m s = .error (embed e) from h]
    rfl
  | ok b =>
    obtain ⟨a, s', hm, rfl⟩ := h
    rw [hm]
    rfl

end Refines

end Stela.Library
