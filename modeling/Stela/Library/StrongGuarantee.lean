import Mathlib.Logic.Basic

/-!
# The strong exception guarantee

Computations on a state that may throw, where the state is kept as it was at the throw. A computation gives
the strong guarantee when the state is then as before the whole computation: nothing is written before the
last check. The rules follow the structure of a `do` block.
-/

namespace Stela.Library

variable {σ ε α β : Type}

/-- The outcome of a computation, and the state after it. -/
def exec (part : ExceptT ε (StateM σ) α) (s : σ) : Except ε α × σ :=
  StateT.run (ExceptT.run part) s

/-- A check that does not look at the state. -/
def check (c : Except ε α) : ExceptT ε (StateM σ) α :=
  ExceptT.mk (pure c)

@[simp] theorem exec_check (c : Except ε α) (s : σ) : exec (check c) s = (c, s) := rfl

@[simp] theorem exec_get (s : σ) : exec (ε := ε) get s = (.ok s, s) := rfl

@[simp] theorem exec_modify (f : σ → σ) (s : σ) : exec (ε := ε) (modify f) s = (.ok (), f s) := rfl

theorem exec_bind (g : ExceptT ε (StateM σ) α) (f : α → ExceptT ε (StateM σ) β) (s : σ) :
    exec (g >>= f) s = match exec g s with
      | (.ok a, s') => exec (f a) s'
      | (.error e, s') => (.error e, s') := by
  change (match StateT.run (ExceptT.run g) s with | (outcome, s') => StateT.run (ExceptT.bindCont f outcome) s') = _
  rw [exec]
  rcases StateT.run (ExceptT.run g) s with ⟨e | a, s'⟩ <;> rfl

theorem exec_bind_ok {g : ExceptT ε (StateM σ) α} {f : α → ExceptT ε (StateM σ) β} {s s' : σ} {a : α}
    (h : exec g s = (.ok a, s')) : exec (g >>= f) s = exec (f a) s' := by
  rw [exec_bind, h]

theorem exec_bind_error {g : ExceptT ε (StateM σ) α} {f : α → ExceptT ε (StateM σ) β} {s s' : σ} {e : ε}
    (h : exec g s = (.error e, s')) : exec (g >>= f) s = (.error e, s') := by
  rw [exec_bind, h]

/-! ## Rules -/

def ReadsOnly (g : ExceptT ε (StateM σ) α) : Prop :=
  ∀ s, (exec g s).2 = s

def NeverThrows (g : ExceptT ε (StateM σ) α) : Prop :=
  ∀ s, ∃ a, (exec g s).1 = .ok a

/-- The computation throws only exceptions with the property, and then leaves the state unchanged. -/
def StrongGuarantee (P : ε → Prop) (g : ExceptT ε (StateM σ) α) : Prop :=
  ∀ s e, (exec g s).1 = .error e → (exec g s).2 = s ∧ P e

theorem readsOnly_check (c : Except ε α) : ReadsOnly (σ := σ) (check c) := fun _ ↦ rfl

theorem neverThrows_modify (f : σ → σ) : NeverThrows (ε := ε) (modify f) := fun _ ↦ ⟨(), rfl⟩

theorem NeverThrows.bind {g : ExceptT ε (StateM σ) α} {f : α → ExceptT ε (StateM σ) β} (hg : NeverThrows g)
    (hf : ∀ a, NeverThrows (f a)) : NeverThrows (g >>= f) := by
  intro s
  obtain ⟨a, ha⟩ := hg s
  rw [exec_bind_ok (Prod.ext ha rfl)]
  exact hf a _

namespace StrongGuarantee

variable {P : ε → Prop} {g : ExceptT ε (StateM σ) α} {f : α → ExceptT ε (StateM σ) β}

theorem of_neverThrows (hg : NeverThrows g) : StrongGuarantee P g := by
  intro s e h
  obtain ⟨a, ha⟩ := hg s
  rw [ha] at h
  cases h

theorem check {c : Except ε α} (h : ∀ e, c = .error e → P e) : StrongGuarantee (σ := σ) P (check c) :=
  fun _ e he ↦ ⟨rfl, h e he⟩

/-- What comes after a part that writes nothing may check as well. -/
theorem read_bind (hread : ReadsOnly g) (hg : StrongGuarantee P g) (hf : ∀ a, StrongGuarantee P (f a)) :
    StrongGuarantee P (g >>= f) := by
  intro s e h
  cases hgs : (exec g s).1 with
  | error e' =>
    rw [exec_bind_error (Prod.ext hgs rfl)] at h ⊢
    cases h
    exact ⟨hread s, (hg s e hgs).2⟩
  | ok a =>
    rw [exec_bind_ok (Prod.ext hgs (hread s))] at h ⊢
    exact hf a s e h

/-- What comes after a part that writes must not throw. -/
theorem bind_write (hg : StrongGuarantee P g) (hf : ∀ a, NeverThrows (f a)) : StrongGuarantee P (g >>= f) := by
  intro s e h
  cases hgs : (exec g s).1 with
  | error e' =>
    rw [exec_bind_error (Prod.ext hgs rfl)] at h ⊢
    cases h
    exact hg s e hgs
  | ok a =>
    rw [exec_bind_ok (Prod.ext hgs rfl)] at h
    obtain ⟨b, hb⟩ := hf a (exec g s).2
    rw [hb] at h
    cases h

end StrongGuarantee

end Stela.Library
