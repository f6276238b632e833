import Stela.Ownership.Faults

/-!
# What the functions of retain_ptr do to the counts

For each function of the class that leaves owners behind: when it leads from a memory whose counts are right to another
one. A function that only hands pointers on always does. One that releases a pointer must not destroy its own place with
it, nor the object that it is about to own, and a pointer that a cast drops is lost.
-/

namespace Stela.Ownership

open Stela.Library.Regions Stela.Library.RefCount
open Stela.Library.Except

variable {Class : Type} {H : Hierarchy Class} {m m' : Heap Class} {pending : List (Option ℕ)} {full : Prop}
variable {l k this other : Loc} {p q : Option ℕ} {a : ℕ}

/-- The result is a memory whose counts are right, or a count was at its greatest. -/
def Outcome (pending : List (Option ℕ)) (full : Prop) : Except Fault (Heap Class) → Prop
  | .ok m => Settled m pending
  | .error .overflow => full
  | .error _ => False

/-- Some object has as many owners as can be counted. -/
def Full (m : Heap Class) (pending : List (Option ℕ)) : Prop := ∃ a, maxCount ≤ refs m a + pending.count (some a)

/-- A pointer to an object, or null. -/
def Valid (m : Heap Class) (p : Option ℕ) : Prop := ∀ a, p = some a → IsBlock m a

theorem Outcome.mono {full' : Prop} {result : Except Fault (Heap Class)} (hfull : full → full')
    (h : Outcome pending full result) : Outcome pending full' result := by
  cases result with
  | ok m => exact h
  | error e =>
    cases e with
    | overflow => exact hfull h
    | _ => exact h

theorem not_outcome_error {e : Fault} (he : e ≠ .overflow) :
    ¬Outcome pending full (.error e : Except Fault (Heap Class)) := by
  cases e with
  | overflow => exact absurd rfl he
  | _ => exact id

/-! ## Pointers that change hands -/

theorem Holds.valid (h : Holds m l p) (hsettled : Settled m pending) : Valid m p := by
  obtain ⟨type, hs⟩ := h
  exact fun a ha ↦ hsettled.isBlock_of_slot hs ha

/-- One pointer for another: the one that the retain_ptr gives up is pending. -/
theorem Holds.exchanged (h : Holds m l p) (hsettled : Settled m (q :: pending)) :
    Settled (write m l (some ⟨q⟩)) (p :: pending) := by
  obtain ⟨type, hs⟩ := h
  exact Counted.write hs (some ⟨q⟩) hsettled

/-- A new retain_ptr takes over a pending pointer. -/
theorem Vacant.adopts (h : Vacant m l) (hsettled : Settled m (p :: pending)) :
    Settled (write m l (some ⟨p⟩)) pending := by
  obtain ⟨type, hs⟩ := h
  exact (Counted.write hs (some ⟨p⟩) hsettled).drop_none

theorem Vacant.write_ne (h : Vacant m l) (hne : k ≠ l) (obj : Option RetainPtr) : Vacant (write m k obj) l := by
  obtain ⟨type, hs⟩ := h
  exact ⟨type, by rw [slot?_write, if_neg hne, hs]⟩

theorem Vacant.ne (h : Vacant m l) (h' : Holds m k p) : k ≠ l := by
  rintro rfl
  obtain ⟨_, hs⟩ := h
  obtain ⟨_, hs'⟩ := h'
  cases hs.symm.trans hs'

theorem detach_eq_ok (h : Holds m l p) : detach l m = .ok (p, write m l (some ⟨none⟩)) := by
  rw [detach, get_eq_ok.mpr h, assign_eq_ok h none]
  rfl

/-- Detaching a pointer makes it pending. -/
theorem Holds.detached (h : Holds m l p) (hsettled : Settled m pending) :
    Settled (write m l (some ⟨none⟩)) (p :: pending) :=
  h.exchanged hsettled.cons_none

theorem construct_outcome (hthis : Vacant m this) (hsettled : Settled m (p :: pending)) :
    Outcome pending full (construct this p m) := by
  rw [construct_eq_ok hthis]
  exact hthis.adopts hsettled

theorem moveCtor_outcome (hthis : Vacant m this) (hother : Holds m other p) (hsettled : Settled m pending) :
    Outcome pending full (moveCtor this other m) := by
  rw [moveCtor, detach_eq_ok hother]
  apply construct_outcome
  · exact hthis.write_ne (hthis.ne hother) _
  · exact hother.detached hsettled

theorem swap_outcome (hthis : Holds m this p) (hother : Holds m other q) (hsettled : Settled m pending) :
    Outcome pending full (swap this other m) := by
  have hassigned : assign this q m = .ok (write m this (some ⟨q⟩)) := assign_eq_ok hthis q
  have hother' : ∃ q', Holds (write m this (some ⟨q⟩)) other q' := by
    by_cases heq : this = other
    · subst heq
      exact ⟨q, hthis.written q⟩
    · exact ⟨q, hother.write_ne heq _⟩
  obtain ⟨q', hq'⟩ := hother'
  simp only [swap, get_eq_ok.mpr hthis, get_eq_ok.mpr hother, hassigned, bind, Except.bind, assign_eq_ok hq' p]
  change Settled (write (write m this (some ⟨q⟩)) other (some ⟨p⟩)) pending
  by_cases heq : this = other
  · subst heq
    cases hthis.unique hother
    obtain ⟨type, hs⟩ := hthis
    rw [write_write, write_self hs]
    exact hsettled
  · -- this gives its pointer to other, then other gives its pointer to this
    have hfirst := hthis.detached hsettled
    have hsecond := (hother.write_ne heq (some ⟨none⟩)).exchanged hfirst
    have hnull := (hthis.written none).write_ne (Ne.symm heq) (some ⟨p⟩)
    have hthird := hnull.exchanged hsecond
    rw [write_comm _ (Ne.symm heq), write_write] at hthird
    exact hthird.drop_none

/-! ## Counting a new owner -/

/-- `incr` of a retain_ptr that has just been given its pointer. -/
theorem incr_outcome (h : Settled m pending) (hl : Vacant m l) (hp : Valid m p) :
    Outcome pending (Full m pending) (incr l (write m l (some ⟨p⟩))) := by
  have hget : get l (write m l (some ⟨p⟩)) = .ok p := get_eq_ok.mpr (hl.written p)
  cases p with
  | none =>
    rw [incr, hget]
    exact hl.adopts h.cons_none
  | some a =>
    obtain ⟨n, hn⟩ := hp a rfl
    have hload : loadCount a (write m l (some ⟨some a⟩)) = .ok n := loadCount_eq_ok.mpr (by rw [count?_write, hn])
    simp only [incr, hget, hload, bind, Except.bind]
    split_ifs with hmax
    · refine ⟨a, ?_⟩
      have hcount := h.counted a n hn
      omega
    · change Settled (setCount (write m l (some ⟨some a⟩)) a (n + 1)) pending
      rw [setCount_write]
      obtain ⟨type, hs⟩ := hl
      have hvacant : Vacant (setCount m a (n + 1)) l := ⟨type, by rw [slot?_setCount, hs]⟩
      exact hvacant.adopts (h.inc hn)

/-- `incr` of a retain_ptr to an object that is no more. -/
theorem incr_dangling (hl : Holds m l (some a)) (ha : ¬IsBlock m a) : ¬Outcome pending full (incr l m) := by
  have hload : loadCount a m = .error .freed ∨ loadCount a m = .error .uninit := by
    unfold loadCount
    cases hr : region? m a with
    | none => exact .inl rfl
    | some r =>
      cases hcount : r.count with
      | none => exact .inr (by simp only [hcount, Option.elim_none])
      | some n => exact absurd ⟨n, count?_eq_some.mpr ⟨r, hr, hcount⟩⟩ ha
  rw [incr, get_eq_ok.mpr hl]
  obtain hload | hload := hload
  · simp only [hload, bind, Except.bind]
    exact not_outcome_error nofun
  · simp only [hload, bind, Except.bind]
    exact not_outcome_error nofun

theorem retainCtor_outcome (hthis : Vacant m this) (hp : Valid m p) (hsettled : Settled m pending) :
    Outcome pending (Full m pending) (retainCtor this p m) := by
  rw [retainCtor, construct_eq_ok hthis]
  exact incr_outcome hsettled hthis hp

theorem copyCtor_eq (hother : Holds m other p) : copyCtor this other m = retainCtor this p m := by
  rw [copyCtor, get_eq_ok.mpr hother]
  rfl

theorem staticPointerCast_eq (hother : Holds m other p) : staticPointerCast this other m = retainCtor this p m := by
  rw [staticPointerCast, get_eq_ok.mpr hother]
  rfl

/-! ## Casts that may fail -/

/-- The `dynamic_cast` of the pointer finds the class. -/
def Casts (H : Hierarchy Class) (derived : Class) (m : Heap Class) (p : Option ℕ) : Prop :=
  ∀ a r, p = some a → region? m a = some r → H.derives r.type derived = true

variable {derived : Class}

theorem dynamicCast_write (obj : Option RetainPtr) :
    dynamicCast H derived p (write m l obj) = dynamicCast H derived p m := by
  cases p with
  | none => rfl
  | some a =>
    unfold dynamicCast
    simp only [region?_write]
    split_ifs <;> cases region? m a <;> rfl

theorem dynamicCast_of_casts (hp : Valid m p) (hcasts : Casts H derived m p) : dynamicCast H derived p m = .ok p := by
  cases p with
  | none => rfl
  | some a =>
    obtain ⟨n, hn⟩ := hp a rfl
    obtain ⟨r, hr, -⟩ := count?_eq_some.mp hn
    simp only [dynamicCast, hr, hcasts a r rfl hr]
    rfl

theorem dynamicCast_of_not_casts (hcasts : ¬Casts H derived m p) :
    (∃ a, p = some a) ∧ dynamicCast H derived p m = .ok none := by
  simp only [Casts, not_forall] at hcasts
  obtain ⟨a, r, rfl, hr, hderives⟩ := hcasts
  refine ⟨⟨a, rfl⟩, ?_⟩
  simp only [dynamicCast, hr, hderives]
  rfl

theorem dynamicPointerCast_outcome (hthis : Vacant m this) (hother : Holds m other p) (hsettled : Settled m pending) :
    Outcome pending (Full m pending) (dynamicPointerCast H derived this other m) := by
  have hp : Valid m p := hother.valid hsettled
  rw [dynamicPointerCast, get_eq_ok.mpr hother]
  by_cases hcasts : Casts H derived m p
  · simp only [bind, Except.bind, dynamicCast_of_casts hp hcasts]
    exact retainCtor_outcome hthis hp hsettled
  · simp only [bind, Except.bind, (dynamicCast_of_not_casts hcasts).2]
    exact retainCtor_outcome hthis nofun hsettled

/-- The pointer has been detached when the cast fails, and nothing owns the object any more. -/
theorem dynamicPointerCastMove_outcome (hthis : Vacant m this) (hother : Holds m other p)
    (hsettled : Settled m pending) :
    Outcome pending full (dynamicPointerCastMove H derived this other m) ↔ Casts H derived m p := by
  have hp : Valid m p := hother.valid hsettled
  have hdetached := hother.detached hsettled
  have hthis' : Vacant (write m other (some ⟨none⟩)) this := hthis.write_ne (hthis.ne hother) _
  rw [dynamicPointerCastMove, detach_eq_ok hother]
  simp only [bind, Except.bind, dynamicCast_write]
  by_cases hcasts : Casts H derived m p
  · rw [dynamicCast_of_casts hp hcasts]
    exact iff_of_true (construct_outcome hthis' hdetached) hcasts
  · obtain ⟨⟨a, rfl⟩, hcast⟩ := dynamicCast_of_not_casts hcasts
    rw [hcast]
    refine iff_of_false ?_ hcasts
    simp only [construct_eq_ok hthis']
    have hlost : Settled (write (write m other (some ⟨none⟩)) this (some ⟨none⟩)) (some a :: pending) :=
      hthis'.adopts hdetached.cons_none
    exact hlost.not_drop

/-! ## Releasing -/

theorem dtor_outcome (hthis : Holds m this p) (hsettled : Settled m pending) :
    Outcome pending full (dtor H this m) ↔ ¬Dies m this pending this.region := by
  rw [dtor]
  by_cases hdies : Dies m this pending this.region
  · obtain ⟨e, he, hne⟩ := release_fails (H := H) hsettled hthis hdies
    rw [he]
    exact iff_of_false (not_outcome_error hne) (not_not_intro hdies)
  · obtain ⟨m', hok, hsettled', ⟨type, hs⟩, -⟩ := release_outlived (H := H) hsettled hthis hdies
    rw [hok]
    refine iff_of_true ?_ hdies
    change Settled (write (write m' this _) this none) pending
    rw [write_write, write_self hs]
    exact hsettled'

theorem reset_outcome (hthis : Holds m this q) (hsettled : Settled m (p :: pending)) :
    Outcome pending full (reset H this p m) ↔ ¬Dies m this (p :: pending) this.region := by
  rw [reset]
  by_cases hdies : Dies m this (p :: pending) this.region
  · obtain ⟨e, he, hne⟩ := release_fails (H := H) hsettled hthis hdies
    rw [he]
    exact iff_of_false (not_outcome_error hne) (not_not_intro hdies)
  · obtain ⟨m', hok, hsettled', hvacant, -⟩ := release_outlived (H := H) hsettled hthis hdies
    rw [hok]
    refine iff_of_true ?_ hdies
    simp only [bind, Except.bind, assign_eq_ok (hvacant.written q)]
    rw [write_write]
    exact hvacant.adopts hsettled'

/-- The null pointer has no part in what dies. -/
theorem resetNull_outcome (hthis : Holds m this q) (hsettled : Settled m pending) :
    Outcome pending full (reset H this none m) ↔ ¬Dies m this pending this.region := by
  rw [reset_outcome hthis hsettled.cons_none, dies_congr]
  simp

/-- A retain_ptr owns nothing while it waits for its first pointer, so there are no more owners than before. -/
theorem Full.of_kept (hthis : Holds m this q) (hkept : Kept (write m this none) m') (hlength : m'.length = m.length)
    (h : Full m' pending) : Full m pending := by
  obtain ⟨a, ha⟩ := h
  obtain ⟨type, hs⟩ := hthis
  refine ⟨a, ?_⟩
  have hle := hkept.refs_le (hlength.trans (length_write _ _ _).symm) a
  have hwrite := refs_write hs none a
  simp only [pointsTo, Option.bind_none, reduceCtorEq, if_false] at hwrite
  omega

theorem resetRetain_outcome (hthis : Holds m this q) (hp : Valid m p) (hsettled : Settled m pending) :
    Outcome pending (Full m pending) (resetRetain H this p m) ↔
      ¬Dies m this pending this.region ∧ ∀ a, p = some a → ¬Dies m this pending a := by
  rw [resetRetain]
  by_cases hdies : Dies m this pending this.region
  · obtain ⟨e, he, hne⟩ := release_fails (H := H) hsettled hthis hdies
    rw [he]
    exact iff_of_false (not_outcome_error hne) fun h ↦ h.1 hdies
  · obtain ⟨m', hok, hsettled', hvacant, hkept, hblocks, hlength⟩ := release_outlived (H := H) hsettled hthis hdies
    rw [hok, and_iff_right hdies]
    simp only [bind, Except.bind, assign_eq_ok (hvacant.written q), write_write]
    constructor
    · rintro h a rfl hdies
      -- the object that is to be owned has been destroyed
      have hgone : ¬IsBlock (write m' this (some ⟨some a⟩)) a := by
        rw [isBlock_write, hblocks]
        exact fun h ↦ h.2 hdies
      exact incr_dangling (hvacant.written _) hgone h
    · intro h
      have hp' : Valid m' p := fun a ha ↦ (hblocks a).mpr ⟨hp a ha, h a ha⟩
      exact (incr_outcome hsettled' hvacant hp').mono (Full.of_kept hthis hkept hlength)

theorem copyAsgn_eq (hother : Holds m other p) : copyAsgn H this other m = resetRetain H this p m := by
  rw [copyAsgn, get_eq_ok.mpr hother, resetRetain]
  exact bind_assoc (release H this m) (assign this p) (incr this)

/-- The pointer of the other retain_ptr is taken out before anything is released. -/
theorem moveAsgn_outcome (hthis : Holds m this q) (hother : Holds m other p) (hsettled : Settled m pending) :
    Outcome pending full (moveAsgn H this other m) ↔
      ¬Dies (write m other (some ⟨none⟩)) this (p :: pending) this.region := by
  have hthis' : ∃ q', Holds (write m other (some ⟨none⟩)) this q' := by
    by_cases heq : other = this
    · subst heq
      exact ⟨none, hother.written none⟩
    · exact ⟨q, hthis.write_ne heq _⟩
  obtain ⟨q', hq'⟩ := hthis'
  rw [moveAsgn, detach_eq_ok hother]
  exact reset_outcome hq' (hother.detached hsettled)

end Stela.Ownership
