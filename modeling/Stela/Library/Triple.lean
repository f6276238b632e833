import Mathlib.Order.Basic

/-!
# Triples for state monads

What holds of the state before a computation, and of its result and the state after it. The rules follow the
structure of a `do` block.
-/

namespace Stela.Library

variable {σ : Type} {α β : Type}

/-- From a state with `P`, the result and the state after it have `Q`. -/
def Triple (P : σ → Prop) (g : StateM σ α) (Q : α → σ → Prop) : Prop :=
  ∀ s, P s → Q (g.run s).1 (g.run s).2

namespace Triple

variable {P P' : σ → Prop} {Q Q' : α → σ → Prop} {R : β → σ → Prop}

theorem pure (a : α) (h : ∀ s, P s → Q a s) : Triple P (pure a) Q := h

theorem bind {g : StateM σ α} {f : α → StateM σ β} (h : Triple P g Q) (h' : ∀ a, Triple (Q a) (f a) R) :
    Triple P (g >>= f) R :=
  fun s hs ↦ h' _ _ (h s hs)

theorem map {g : StateM σ α} {f : α → β} (h : Triple P g fun a ↦ R (f a)) : Triple P (f <$> g) R :=
  fun s hs ↦ h s hs

theorem weaken {g : StateM σ α} (h : Triple P g Q) (hpre : ∀ s, P' s → P s) (hpost : ∀ a s, Q a s → Q' a s) :
    Triple P' g Q' :=
  fun s hs ↦ hpost _ _ (h s (hpre s hs))

theorem pre {g : StateM σ α} (h : Triple P g Q) (hpre : ∀ s, P' s → P s) : Triple P' g Q :=
  h.weaken hpre fun _ _ ↦ id

theorem post {g : StateM σ α} (h : Triple P g Q) (hpost : ∀ a s, Q a s → Q' a s) : Triple P g Q' :=
  h.weaken (fun _ ↦ id) hpost

/-- What is known before the computation and does not depend on the state. -/
theorem assume {φ : Prop} {g : StateM σ α} (h : φ → Triple P g Q) : Triple (fun s ↦ φ ∧ P s) g Q :=
  fun s hs ↦ h hs.1 s hs.2

/-- Reading the state. -/
theorem get_bind {f : σ → StateM σ β} (h : ∀ s, P s → Triple (· = s) (f s) R) : Triple P (get >>= f) R :=
  fun s hs ↦ h s hs s rfl

theorem ite {c : Prop} [Decidable c] {g g' : StateM σ α} (h : c → Triple P g Q) (h' : ¬c → Triple P g' Q) :
    Triple P (if c then g else g') Q := by
  by_cases hc : c
  · rw [if_pos hc]
    exact h hc
  · rw [if_neg hc]
    exact h' hc

end Triple

/-! ## Results -/

/-- Whatever state the computation starts in, the property holds of its result. -/
def Ensures (gen : StateM σ α) (P : α → Prop) : Prop :=
  ∀ s, P (gen.run s).1

namespace Ensures

variable {P : α → Prop} {Q : β → Prop}

theorem pure {a : α} (h : P a) : Ensures (σ := σ) (pure a) P := fun _ ↦ h

theorem bind {gen : StateM σ α} {f : α → StateM σ β} (h : Ensures gen P) (hf : ∀ a, P a → Ensures (f a) Q) :
    Ensures (gen >>= f) Q :=
  fun s ↦ hf _ (h s) _

theorem step {gen : StateM σ α} {f : α → StateM σ β} (hf : ∀ a, Ensures (f a) Q) : Ensures (gen >>= f) Q :=
  fun _ ↦ hf _ _

theorem map {gen : StateM σ α} {f : α → β} (h : Ensures gen fun a ↦ Q (f a)) : Ensures (f <$> gen) Q :=
  fun s ↦ h s

theorem ite {c : Prop} [Decidable c] {gen gen' : StateM σ α} (h : c → Ensures gen P) (h' : ¬c → Ensures gen' P) :
    Ensures (if c then gen else gen') P := by
  split
  · exact h ‹_›
  · exact h' ‹_›

end Ensures

end Stela.Library
