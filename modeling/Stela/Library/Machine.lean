import Mathlib.Data.List.Basic

/-!
# Machines that take one step for each event

A machine is a partial step function: the step refuses an event by returning `none`. A run feeds a
list of events to the machine. `run_invariant` is the induction that every safety result about a
machine uses, `run_invariant_of` the same for runs whose steps all meet a condition.
-/

namespace Stela.Library.Machine

variable {σ α : Type*} (step : σ → α → Option σ)

/-- Feed the events to the machine, in order. -/
def run : σ → List α → Option σ
  | s, [] => some s
  | s, a :: as => (step s a).bind fun s' ↦ run s' as

/-- Every step of the run satisfies the condition, which sees the state before the step. -/
def RunMeets (cond : σ → α → Prop) : σ → List α → Prop
  | _, [] => True
  | s, a :: as => cond s a ∧ ∀ s', step s a = some s' → RunMeets cond s' as

/-- The property holds in every state that the run passes through. -/
def Always (P : σ → Prop) (s : σ) (as : List α) : Prop := ∀ n t, run step s (as.take n) = some t → P t

variable {step}

@[simp] theorem run_nil (s : σ) : run step s [] = some s := rfl

theorem run_cons_eq_some {s t : σ} {a : α} {as : List α} :
    run step s (a :: as) = some t ↔ ∃ s', step s a = some s' ∧ run step s' as = some t := by
  rw [run, Option.bind_eq_some_iff]

theorem run_append (s : σ) (as as' : List α) : run step s (as ++ as') = (run step s as).bind fun t ↦ run step t as' := by
  induction as generalizing s with
  | nil => rfl
  | cons a as ih =>
    change ((step s a).bind fun s' ↦ run step s' (as ++ as')) = ((step s a).bind fun s' ↦ run step s' as).bind _
    rw [Option.bind_assoc]
    exact congrArg _ (funext ih)

theorem runMeets_cons {cond : σ → α → Prop} {s s' : σ} {a : α} {as : List α} (hstep : step s a = some s') :
    RunMeets step cond s (a :: as) ↔ cond s a ∧ RunMeets step cond s' as := by
  refine and_congr_right fun _ ↦ ⟨fun h ↦ h s' hstep, fun h t ht ↦ ?_⟩
  cases hstep.symm.trans ht
  exact h

theorem RunMeets.cons {cond : σ → α → Prop} {s s' : σ} {a : α} {as : List α} (hcond : cond s a)
    (hstep : step s a = some s') (h : RunMeets step cond s' as) : RunMeets step cond s (a :: as) :=
  (runMeets_cons hstep).mpr ⟨hcond, h⟩

theorem runMeets_of_forall {cond : σ → α → Prop} (h : ∀ s a, cond s a) {s : σ} {as : List α} :
    RunMeets step cond s as := by
  induction as generalizing s with
  | nil => trivial
  | cons a as ih => exact ⟨h s a, fun _ _ ↦ ih⟩

/-- On the states of a run, two conditions on a step are the same if they are wherever the first has held so far. -/
theorem runMeets_iff {Inv : σ → Prop} {allowed good cond : σ → α → Prop}
    (hiff : ∀ s a, Inv s → allowed s a → (good s a ↔ cond s a))
    (hgood : ∀ s a s', Inv s → good s a → step s a = some s' → Inv s') {s : σ} {as : List α}
    (hmeets : RunMeets step allowed s as) (hs : Inv s) : RunMeets step good s as ↔ RunMeets step cond s as := by
  induction as generalizing s with
  | nil => exact Iff.rfl
  | cons a as ih =>
    have hstep := hiff s a hs hmeets.1
    constructor
    · rintro ⟨hgood₁, hrest⟩
      exact ⟨hstep.mp hgood₁, fun s' hs' ↦ (ih (hmeets.2 s' hs') (hgood s a s' hs hgood₁ hs')).mp (hrest s' hs')⟩
    · rintro ⟨hcond, hrest⟩
      have hgood₁ := hstep.mpr hcond
      exact ⟨hgood₁, fun s' hs' ↦ (ih (hmeets.2 s' hs') (hgood s a s' hs hgood₁ hs')).mpr (hrest s' hs')⟩

/-- What holds at first and is preserved by every step meeting the condition holds at the end. -/
theorem run_invariant_of {cond : σ → α → Prop} {Inv : σ → Prop}
    (hstep : ∀ s a s', Inv s → cond s a → step s a = some s' → Inv s') {s t : σ} {as : List α}
    (hmeets : RunMeets step cond s as) (h : run step s as = some t) (hs : Inv s) : Inv t := by
  induction as generalizing s with
  | nil =>
    cases h
    exact hs
  | cons a as ih =>
    obtain ⟨s', hs', h⟩ := run_cons_eq_some.mp h
    exact ih (hmeets.2 s' hs') h (hstep s a s' hs hmeets.1 hs')

/-- What holds at first and is preserved by every step holds at the end. -/
theorem run_invariant {Inv : σ → Prop} (hstep : ∀ s a s', Inv s → step s a = some s' → Inv s')
    {s t : σ} {as : List α} (h : run step s as = some t) (hs : Inv s) : Inv t := by
  have hmeets : RunMeets step (fun _ _ ↦ True) s as := runMeets_of_forall fun _ _ ↦ trivial
  exact run_invariant_of (fun s a s' hs _ ↦ hstep s a s' hs) hmeets h hs

theorem always_nil {P : σ → Prop} {s : σ} : Always step P s [] ↔ P s := by
  refine ⟨fun h ↦ h 0 s rfl, fun h n t ht ↦ ?_⟩
  rw [List.take_nil] at ht
  cases ht
  exact h

theorem always_cons {P : σ → Prop} {s s' : σ} {a : α} {as : List α} (hstep : step s a = some s') :
    Always step P s (a :: as) ↔ P s ∧ Always step P s' as := by
  constructor
  · refine fun h ↦ ⟨h 0 s rfl, fun n t ht ↦ h (n + 1) t ?_⟩
    rw [List.take_succ_cons, run, hstep]
    exact ht
  · rintro ⟨hs, h⟩ n t ht
    cases n with
    | zero =>
      cases ht
      exact hs
    | succ n =>
      rw [List.take_succ_cons, run, hstep] at ht
      exact h n t ht

/-- A run whose steps are all allowed does not get stuck, and passes through good states only just
when all its steps meet the condition under which a step leads from a good state to a good state. -/
theorem always_iff (Inv : σ → Prop) {allowed cond : σ → α → Prop} {P : σ → Prop}
    (hstep : ∀ s a, Inv s → allowed s a → ∃ s', step s a = some s' ∧ Inv s' ∧ (P s → (P s' ↔ cond s a)))
    {s : σ} {as : List α} (hmeets : RunMeets step allowed s as) (hs : Inv s) (hP : P s) :
    (∃ t, run step s as = some t) ∧ (Always step P s as ↔ RunMeets step cond s as) := by
  have hrun : ∃ t, run step s as = some t := by
    clear hP
    induction as generalizing s with
    | nil => exact ⟨s, rfl⟩
    | cons a as ih =>
      obtain ⟨s', hs', hinv, -⟩ := hstep s a hs hmeets.1
      obtain ⟨t, ht⟩ := ih (hmeets.2 s' hs') hinv
      exact ⟨t, run_cons_eq_some.mpr ⟨s', hs', ht⟩⟩
  refine ⟨hrun, ?_⟩
  clear hrun
  induction as generalizing s with
  | nil => exact always_nil.trans (iff_of_true hP trivial)
  | cons a as ih =>
    obtain ⟨s', hs', hinv, hgood⟩ := hstep s a hs hmeets.1
    have hiff := hgood hP
    rw [always_cons hs', runMeets_cons hs']
    constructor
    · rintro ⟨-, h⟩
      have hP' : P s' := h 0 s' rfl
      exact ⟨hiff.mp hP', (ih (hmeets.2 s' hs') hinv hP').mp h⟩
    · rintro ⟨hcond, h⟩
      have hP' := hiff.mpr hcond
      exact ⟨hP, (ih (hmeets.2 s' hs') hinv hP').mpr h⟩

/-- A run gets to its end through good states only just when all its steps meet the condition under which a
step succeeds and leads to a good state. -/
theorem sound_iff (Inv : σ → Prop) {allowed cond : σ → α → Prop} {P : σ → Prop}
    (hstep : ∀ s a, Inv s → P s → allowed s a → ((∃ s', step s a = some s' ∧ P s') ↔ cond s a))
    (hinv : ∀ s a s', Inv s → P s → allowed s a → step s a = some s' → Inv s') {s : σ} {as : List α}
    (hmeets : RunMeets step allowed s as) (hs : Inv s) (hP : P s) :
    ((∃ t, run step s as = some t) ∧ Always step P s as) ↔ RunMeets step cond s as := by
  induction as generalizing s with
  | nil => exact iff_of_true ⟨⟨s, rfl⟩, always_nil.mpr hP⟩ trivial
  | cons a as ih =>
    have hiff := hstep s a hs hP hmeets.1
    constructor
    · rintro ⟨⟨t, ht⟩, halways⟩
      obtain ⟨s', hs', ht⟩ := run_cons_eq_some.mp ht
      rw [always_cons hs'] at halways
      have hP' : P s' := halways.2 0 s' rfl
      rw [runMeets_cons hs', ← ih (hmeets.2 s' hs') (hinv s a s' hs hP hmeets.1 hs') hP']
      exact ⟨hiff.mp ⟨s', hs', hP'⟩, ⟨t, ht⟩, halways.2⟩
    · intro hcond
      obtain ⟨s', hs', hP'⟩ := hiff.mpr hcond.1
      obtain ⟨⟨t, ht⟩, halways⟩ := (ih (hmeets.2 s' hs') (hinv s a s' hs hP hmeets.1 hs') hP').mpr (hcond.2 s' hs')
      exact ⟨⟨t, run_cons_eq_some.mpr ⟨s', hs', ht⟩⟩, (always_cons hs').mpr ⟨hP, halways⟩⟩

/-- A condition that the invariant implies is met by all steps. -/
theorem runMeets_of_invariant (Inv : σ → Prop) {allowed cond : σ → α → Prop}
    (hcond : ∀ s a, Inv s → allowed s a → cond s a)
    (hinv : ∀ s a s', Inv s → allowed s a → step s a = some s' → Inv s') {s : σ} {as : List α}
    (hmeets : RunMeets step allowed s as) (hs : Inv s) : RunMeets step cond s as := by
  induction as generalizing s with
  | nil => trivial
  | cons a as ih => exact ⟨hcond s a hs hmeets.1, fun s' hs' ↦ ih (hmeets.2 s' hs') (hinv s a s' hs hmeets.1 hs')⟩

end Stela.Library.Machine
