import Stela.CodeGen.PointerSafety

/-!
# What a release needs

The destructor reads every object of a block before the block is freed, so releasing a pointer
succeeds only if the blocks that die with it are complete. An operation that takes an object out of
a slot therefore fails if the block of the slot is freed with the object.
-/

namespace Stela.CodeGen.Pointer

open Stela.Library.Regions Stela.Library.RefCount
open Stela.Library.Except

variable {T V : Type} {m m' : Memory T V}

theorem load_ok {l : Loc} {v : V} (h : load m l = .ok v) : ∃ s, slot? m l = some s ∧ s.obj = some v := by
  unfold load at h
  cases hr : region? m l.region with
  | none => simp [hr] at h
  | some r =>
    simp only [hr] at h
    split at h
    · next type u hs =>
      cases h
      exact ⟨_, slot?_eq_some.mpr ⟨r, hr, hs⟩, rfl⟩
    · cases h

theorem loadCount_ok {a : ℕ} {n : ℤ} (h : loadCount m a = .ok n) : count? m a = some n := by
  unfold loadCount at h
  unfold count?
  cases hr : region? m a with
  | none => simp [hr] at h
  | some r =>
    cases hcount : r.count with
    | none => simp [hr, hcount] at h
    | some k =>
      simp only [hr, hcount, Option.elim_some, Except.ok.injEq] at h
      simp [hcount, h]

variable [Pointer V] {pending : List (Option ℕ)} {dying : ℕ → Prop}

/-- What is known after a release: the blocks that it freed had a live object in every slot. Those that
are being destroyed already are not its concern. -/
structure Released (m m' : Memory T V) (pending : List (Option ℕ)) (dying : ℕ → Prop) : Prop where
  counted : Counted m' pending dying
  spares : Spares (fun _ ↦ False) m m'
  complete : ∀ b, ¬dying b → IsBlock m b → ¬IsBlock m' b → Complete m b

theorem Released.refl (h : Counted m pending dying) : Released m m pending dying :=
  ⟨h, .refl _ _, fun _ _ hb hnot ↦ absurd hb hnot⟩

/-- A function that only succeeds in releasing a pointer if what dies with it is complete. -/
def Inspects (release : Option ℕ → Memory T V → Except Fault (Memory T V)) : Prop :=
  ∀ {m m' p pending dying}, Counted m (p :: pending) dying → release p m = .ok m' → Released m m' pending dying

/-- Destroying the objects in the slots of a dying block, from slot `i` on. -/
theorem destroySlots_released {release : Option ℕ → Memory T V → Except Fault (Memory T V)} (hrelease : Inspects release)
    {a : ℕ} (k : ℕ) : ∀ {i : ℕ} {m m' : Memory T V} {r : Region T V}, region? m a = some r → r.count = some 0 →
      i + k = r.slots.length → (∀ j s, j < i → r.slots[j]? = some s → s.obj = none) → dying a → Counted m pending dying →
      destroySlots release a i k m = .ok m' →
        (∀ j s, i ≤ j → r.slots[j]? = some s → s.obj.isSome) ∧ Counted m' pending dying ∧
          (∃ r', region? m' a = some r' ∧ r'.count = some 0 ∧ ∀ s ∈ r'.slots, s.obj = none) ∧
          Spares (fun _ ↦ False) (free m a) (free m' a) ∧
          ∀ b, ¬dying b → IsBlock m b → ¬IsBlock m' b → Complete m b := by
  induction k with
  | zero =>
    intro i m m' r hr hcount hlen hgone _ hcounted hok
    cases hok
    refine ⟨fun j s hj hs ↦ ?_, hcounted, ⟨r, hr, hcount, fun s hs ↦ ?_⟩, .refl _ _, fun _ _ hb hnot ↦ absurd hb hnot⟩
    · have hlt := (List.getElem?_eq_some_iff.mp hs).1
      omega
    · obtain ⟨j, hj⟩ := List.mem_iff_getElem?.mp hs
      have hlt := (List.getElem?_eq_some_iff.mp hj).1
      exact hgone j s (by omega) hj
  | succ k ih =>
    intro i m m' r hr hcount hlen hgone hdying hcounted hok
    rw [destroySlots] at hok
    obtain ⟨v, hload, hok⟩ := bind_eq_ok.mp hok
    obtain ⟨m₂, hdec, hok⟩ := bind_eq_ok.mp hok
    obtain ⟨s, hslot, hv⟩ := load_ok hload
    obtain ⟨r₀, hr₀, hs⟩ := slot?_eq_some.mp hslot
    cases hr.symm.trans hr₀
    have hptr : s.obj.bind ptr = ptr v := by rw [hv]; rfl
    have hcounted₁ : Counted (write m ⟨a, i⟩ none) (ptr v :: pending) dying :=
      hptr ▸ hcounted.cons_none.write hslot none
    obtain ⟨hcounted₂, hspares, hcomplete⟩ := hrelease hcounted₁ hdec
    have hstays (h0) := hspares.stays a _ h0 (region?_write_none hr i)
    obtain ⟨r₂, hr₂, hslots₂, hzero₂⟩ := hstays (.inr hcount)
    have hlength₂ : r₂.slots.length = r.slots.length := by rw [hslots₂, length_emptied]
    have hgone₂ (j : ℕ) (s' : Slot T V) : j < i + 1 → r₂.slots[j]? = some s' → s'.obj = none := by
      rw [hslots₂]
      exact emptied_gone hgone j s'
    obtain ⟨hlive, hcounted', hempty, hspares', hcomplete'⟩ :=
      ih hr₂ (hzero₂ hcount) (by omega) hgone₂ hdying hcounted₂ hok
    refine ⟨fun j s' hj hs' ↦ ?_, hcounted', hempty, ?_, fun b hb hblock hnot ↦ ?_⟩
    · by_cases heq : j = i
      · subst heq
        cases hs.symm.trans hs'
        rw [hv]
        rfl
      · refine hlive j s' (by omega) ?_
        rw [hslots₂]
        exact (emptied_ne heq _).trans hs'
    · have hfirst := hspares.free a
      rw [show free (write m ⟨a, i⟩ none) a = free m a from free_write m ⟨a, i⟩ none] at hfirst
      exact hfirst.trans hspares'
    · have hne : a ≠ b := by
        rintro rfl
        exact hb hdying
      have hwritten : Complete (write m ⟨a, i⟩ none) b := by
        by_cases hleft : IsBlock m₂ b
        · exact (hcomplete' b hb hleft hnot).of_kept hspares.kept hleft
        · exact hcomplete b hb (isBlock_write.mpr hblock) hleft
      intro r' hr'
      exact hwritten r' (by rw [region?_write, if_neg hne, hr'])

theorem ptrDec_released (fuel : ℕ) : Inspects (ptrDec fuel : Option ℕ → Memory T V → _) := by
  induction fuel with
  | zero =>
    intro m m' p pending dying hcounted hok
    cases p with
    | none =>
      cases hok
      exact .refl hcounted.drop_none
    | some a => cases hok
  | succ fuel ih =>
    intro m m' p pending dying hcounted hok
    cases p with
    | none =>
      cases hok
      exact .refl hcounted.drop_none
    | some a =>
      rw [ptrDec] at hok
      obtain ⟨n, hload, hok⟩ := bind_eq_ok.mp hok
      have hn := loadCount_ok hload
      obtain ⟨n', hn', hpos⟩ := hcounted.count?_pending
      cases hn.symm.trans hn'
      have hcounted₁ := hcounted.dec hn
      have hspares₁ : Spares (fun _ ↦ False) m (setCount m a (n - 1)) := spares_setCount hn (by omega)
      obtain ⟨r, hr, hcount⟩ := count?_eq_some.mp hn
      have hr₁ : region? (setCount m a (n - 1)) a = some { r with count := some (n - 1) } := by
        rw [region?_setCount, if_pos rfl, hr]
        rfl
      by_cases hzero : n - 1 = 0
      · rw [if_pos hzero] at hok
        obtain ⟨m₂, hdestroy, hok⟩ := bind_eq_ok.mp hok
        cases hok
        have hsize : size (setCount m a (n - 1)) a = r.slots.length := by simp [size, hr₁]
        rw [hsize] at hdestroy
        obtain ⟨hlive, hcounted₂, ⟨r', hr', hcount', hempty⟩, hspares, hcomplete⟩ :=
          destroySlots_released ih r.slots.length hr₁ (congrArg some hzero) (Nat.zero_add _)
            (fun j s hj _ ↦ absurd hj (Nat.not_lt_zero j)) (.inl ⟨rfl, hzero⟩) hcounted₁ hdestroy
        have hdead : Counted m₂ pending fun b ↦ b = a ∨ dying b := hcounted₂.congr_dying fun b ↦ Or.imp_left And.left
        have hfree : free (setCount m a (n - 1)) a = free m a := free_setCount m a (n - 1)
        rw [hfree] at hspares
        refine ⟨hdead.free hr' hcount' hempty, (spares_free hn (by omega) id).trans hspares, fun b hb hblock hnot ↦ ?_⟩
        by_cases hab : a = b
        · subst hab
          intro r₀ hr₀ s hs
          cases hr.symm.trans hr₀
          obtain ⟨j, hj⟩ := List.mem_iff_getElem?.mp hs
          exact hlive j s (Nat.zero_le j) hj
        · have hleft : ¬IsBlock m₂ b := by
            rintro ⟨k, hk⟩
            exact hnot ⟨k, by rw [count?_free, if_neg hab, hk]⟩
          have hbefore := hcomplete b (fun h ↦ h.elim (fun heq ↦ hab heq.1.symm) hb) ((isBlock_setCount hn).mpr hblock) hleft
          intro r₀ hr₀
          exact hbefore r₀ (by rw [region?_setCount, if_neg hab, hr₀])
      · rw [if_neg hzero] at hok
        cases hok
        refine ⟨hcounted₁.congr_dying fun b hb ↦ hb.resolve_left fun h ↦ hzero h.2, hspares₁, fun b _ hblock hnot ↦ ?_⟩
        exact absurd ((isBlock_setCount hn).mpr hblock) hnot

/-- An object can be taken out of its slot and released just when what dies with it is complete, and the
slot is not in a block that dies. -/
theorem dec_taken_iff {l : Loc} {s : Slot T V} (h : Counted m pending fun _ ↦ False) (hs : slot? m l = some s) :
    (∃ m', dec (s.obj.bind ptr) (write m l none) = .ok m') ↔ Releasable m l pending := by
  constructor
  · rintro ⟨m', hok⟩
    obtain ⟨hcounted, hspares, hcomplete⟩ := ptrDec_released _ (h.cons_none.write hs none) hok
    have hgone (b : ℕ) (hb : Dies m l pending b) : Complete (write m l none) b := by
      refine hcomplete b id (isBlock_write.mpr hb.isBlock) ?_
      exact hb.freed hcounted (fun _ _ ↦ hspares.kept.slot?)
        (fun _ _ hs hblock ↦ (isBlock_write.mpr hblock).kept_of_slot hspares.kept hs)
    have houtlives : ¬Dies m l pending l.region := by
      intro hb
      obtain ⟨r, hr, hindex⟩ := slot?_eq_some.mp hs
      have htaken : slot? (write m l none) l = some { s with obj := none } := by
        rw [slot?_write, if_pos rfl, hs]
        rfl
      obtain ⟨r', hr', hindex'⟩ := slot?_eq_some.mp htaken
      cases hgone _ hb r' hr' _ (List.mem_of_getElem? hindex')
    refine ⟨fun b hb r hr ↦ ?_, houtlives⟩
    have hne : l.region ≠ b := by
      rintro rfl
      exact houtlives hb
    exact hgone b hb r (by rw [region?_write, if_neg hne, hr])
  · intro hl
    obtain ⟨m', hok, -⟩ := dec_taken h hs hl
    exact ⟨m', hok⟩

/-! ## Operations that succeed -/

theorem ptrDtor_ok_iff {l : Loc} {s : Slot T V} {v : V} (h : Intact m pending) (hs : slot? m l = some s)
    (hv : s.obj = some v) : (∃ m', ptrDtor l m = .ok m') ↔ Releasable m l pending := by
  have hptr : s.obj.bind ptr = ptr v := by rw [hv]; rfl
  rw [← dec_taken_iff h hs, hptr]
  simp only [ptrDtor, load_eq_ok hs hv, bind, Except.bind]

theorem ptrCopAsgn_ok_iff {dst src : Loc} {d s : Slot T V} {u v : V} (h : Intact m pending)
    (hd : slot? m dst = some d) (hu : d.obj = some u) (hs : slot? m src = some s) (hv : s.obj = some v) :
    (∃ m', ptrCopAsgn dst src m = .ok m') ↔ Releasable m dst (ptr v :: pending) := by
  constructor
  · rintro ⟨m', hok⟩
    have hptr : s.obj.bind ptr = ptr v := by rw [hv]; rfl
    have hptrd : d.obj.bind ptr = ptr u := by rw [hu]; rfl
    obtain ⟨m₁, hok₁, hcounted₁, -, hslot, hblocks⟩ :=
      ptrInc_counted h fun a ha ↦ h.isBlock_of_slot hs (hptr.trans ha)
    simp only [ptrCopAsgn, load_eq_ok hd hu, load_eq_ok hs hv, hok₁, bind, Except.bind] at hok
    rw [← (releasable_congr hslot hblocks).2, ← dec_taken_iff hcounted₁ ((hslot dst).trans hd), hptrd]
    cases hdec : dec (ptr u) (write m₁ dst none) with
    | error e => simp [hdec] at hok
    | ok m₂ => exact ⟨m₂, rfl⟩
  · intro hdst
    obtain ⟨m', hok, -⟩ := ptrCopAsgn_changed h hd hu hs hv hdst
    exact ⟨m', hok⟩

theorem ptrMovAsgn_ok_iff {dst src : Loc} {d s : Slot T V} {u v : V} (h : Intact m pending) (hne : dst ≠ src)
    (hd : slot? m dst = some d) (hu : d.obj = some u) (hs : slot? m src = some s) (hv : s.obj = some v) :
    (∃ m', ptrMovAsgn dst src m = .ok m') ↔ Releasable m dst pending ∧ ¬Dies m dst pending src.region := by
  constructor
  · rintro ⟨m', hok⟩
    have hptrd : d.obj.bind ptr = ptr u := by rw [hu]; rfl
    simp only [ptrMovAsgn, load_eq_ok hd hu, bind, Except.bind] at hok
    cases hdec : dec (ptr u) (write m dst none) with
    | error e => simp [hdec] at hok
    | ok m₁ =>
      have hdst : Releasable m dst pending := by
        rw [← dec_taken_iff h hd, hptrd]
        exact ⟨m₁, hdec⟩
      refine ⟨hdst, fun hdies ↦ ?_⟩
      -- the source is read after the destination is released
      obtain ⟨m₂, hok₂, -, hkept, -, hblocks⟩ := dec_taken h hd hdst
      rw [hptrd, hdec] at hok₂
      cases hok₂
      cases hload : load m₁ src with
      | error e => simp [hdec, hload] at hok
      | ok w =>
        obtain ⟨t, ht, -⟩ := load_ok hload
        exact ((hblocks _).mp ((isBlock_write.mpr hdies.isBlock).kept_of_slot hkept ht)).2 hdies
  · rintro ⟨hdst, hsrc⟩
    obtain ⟨m', hok, -⟩ := ptrMovAsgn_changed h hne hd hu hs hv hdst hsrc
    exact ⟨m', hok⟩

end Stela.CodeGen.Pointer
