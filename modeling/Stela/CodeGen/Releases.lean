import Stela.CodeGen.PointerFaults

/-!
# Releasing several objects

The objects in some slots of a block are destroyed one after the other, while the block itself stays
in use: as long as it keeps an owner, all of them can be destroyed, and what keeps an owner stays.
What is left after that is what keeps an owner.
-/

namespace Stela.CodeGen.Pointer

open Stela.Library.Regions Stela.Library.RefCount
open Stela.Library.Except

variable {T V : Type} [Pointer V] {m m' : Memory T V} {P Q : ℕ → Prop} {a : ℕ}

omit [Pointer V] in
/-- Taking an object out of a region of `P` does not matter for the regions that are not in it. -/
theorem ready_write (h : Ready m P) {l : Loc} (hl : P l.region) (obj : Option V) : Ready (write m l obj) P := by
  intro b n hb hn hzero r hr
  rw [count?_write] at hn
  have hne : l.region ≠ b := by
    rintro rfl
    exact hb hl
  rw [region?_write, if_neg hne] at hr
  exact h b n hb hn hzero r hr

/-! ## Objects in the slots of a block -/

theorem destroySlots_live {released : Loc → Prop} (ha : P a) (k : ℕ) : ∀ {i : ℕ} {m : Memory T V},
    (∀ j, i ≤ j → j < i + k → released ⟨a, j⟩ ∧ ∃ s, slot? m ⟨a, j⟩ = some s ∧ s.obj.isSome) → Intact m [] →
      Anchored m released [] P → Ready m P →
        ∃ m', destroySlots dec a i k m = .ok m' ∧ ∀ b, P b → IsBlock m b → IsBlock m' b := by
  induction k with
  | zero => exact fun {i m} _ _ _ _ ↦ ⟨m, rfl, fun _ _ ↦ id⟩
  | succ k ih =>
    intro i m hslots hintact hanchored hready
    obtain ⟨hrel, s, hs, hlive⟩ := hslots i (Nat.le_refl _) (by omega)
    obtain ⟨v, hv⟩ := Option.isSome_iff_exists.mp hlive
    have hptr : s.obj.bind ptr = ptr v := by rw [hv]; rfl
    have hcounted : Intact (write m ⟨a, i⟩ none) [ptr v] := hptr ▸ hintact.cons_none.write hs none
    have hanchored₁ := hanchored.write_none hrel
    have hready₁ : Ready (write m ⟨a, i⟩ none) P := ready_write hready ha none
    obtain ⟨m₁, hok, h₁, hspares⟩ := dec_releases hcounted (hanchored₁.owned (List.nil_subset _)) hready₁
    obtain ⟨m', hok', hblocks⟩ := ih (i := i + 1) (m := m₁) (fun j hj hlt ↦ by
      obtain ⟨hreljs, t, ht, hlivet⟩ := hslots j (by omega) (by omega)
      have hne : (⟨a, i⟩ : Loc) ≠ ⟨a, j⟩ := by simp; omega
      exact ⟨hreljs, t, by rw [hspares.slot? ha, slot?_write, if_neg hne, ht], hlivet⟩)
      h₁ (hanchored₁.spares hspares) (hready₁.spares hspares)
    refine ⟨m', ?_, fun b hb hblock ↦ hblocks b hb (hspares.isBlock hb (isBlock_write.mpr hblock))⟩
    rw [destroySlots, load_eq_ok hs hv]
    simp only [bind, Except.bind]
    rw [hok]
    exact hok'

theorem destroySlots_left (k : ℕ) : ∀ {i : ℕ} {m m' : Memory T V}, Intact m [] → destroySlots dec a i k m = .ok m' →
    Intact m' [] ∧ Left m m' fun l ↦ l.region = a ∧ i ≤ l.index ∧ l.index < i + k := by
  induction k with
  | zero =>
    intro i m m' h hok
    cases hok
    refine ⟨h, (Left.of_kept (.refl m)).congr fun l s _ ↦ iff_of_false id fun hl ↦ ?_⟩
    omega
  | succ k ih =>
    intro i m m' h hok
    rw [destroySlots] at hok
    obtain ⟨v, hload, hok⟩ := bind_eq_ok.mp hok
    obtain ⟨m₁, hdec, hok⟩ := bind_eq_ok.mp hok
    obtain ⟨s, hs, hv⟩ := load_ok hload
    have hptr : s.obj.bind ptr = ptr v := by rw [hv]; rfl
    have hcounted : Intact (write m ⟨a, i⟩ none) [ptr v] := hptr ▸ h.cons_none.write hs none
    have hreleased := ptrDec_released _ hcounted hdec
    obtain ⟨h', hleft⟩ := ih hreleased.counted hok
    refine ⟨h', (((left_write_none m ⟨a, i⟩).trans (.of_kept hreleased.spares.kept)).trans hleft).congr fun l s _ ↦ ?_⟩
    obtain ⟨b, j⟩ := l
    simp only [Loc.mk.injEq, or_false]
    omega

/-! ## Objects that were removed from a block -/

theorem destroyRemoved_proceeds (ha : P a) {vs : List V} : ∀ {m : Memory T V}, Intact m (vs.map ptr) →
    (∀ v, vs.getLast? = some v → Owned m [ptr v] P) → Owned m [] Q → Ready m P → Ready m Q → IsBlock m a →
      ∃ m', destroyRemoved a (vs.map some) m = .ok m' ∧ ∀ b, Q b → IsBlock m b → IsBlock m' b := by
  induction vs with
  | nil => exact fun {m} _ _ _ _ _ _ ↦ ⟨m, rfl, fun _ _ ↦ id⟩
  | cons v vs ih =>
    intro m h hlast hQ hreadyP hreadyQ hblock
    have hcounted : Intact m (ptr v :: vs.map ptr) := h
    have hownedQ : Owned m (vs.map ptr) Q := hQ.mono (List.nil_subset _)
    obtain ⟨n, hn⟩ := hblock
    obtain ⟨m₁, hok, h₁, hsparesQ⟩ := dec_releases hcounted hownedQ hreadyQ
    have hstep {m'} (hm' : destroyRemoved a (vs.map some) m₁ = .ok m') : destroyRemoved a ((v :: vs).map some) m = .ok m' := by
      rw [List.map_cons, destroyRemoved, loadCount_eq_ok hn]
      simp only [bind, Except.bind]
      rw [hok]
      exact hm'
    cases hvs : vs.getLast? with
    | none =>
      rw [List.getLast?_eq_none_iff] at hvs
      subst hvs
      exact ⟨m₁, hstep rfl, fun b hb ↦ hsparesQ.isBlock hb⟩
    | some w =>
      -- the block stays until the last object is read
      have hlastw : Owned m [ptr w] P := hlast w (by rw [List.getLast?_cons, hvs]; rfl)
      have hmem : ptr w ∈ vs.map ptr := List.mem_map_of_mem (List.mem_of_getLast? hvs)
      obtain ⟨m₂, hok₂, -, hsparesP⟩ :=
        dec_releases hcounted (hlastw.mono fun p hp ↦ List.mem_singleton.mp hp ▸ hmem) hreadyP
      cases hok.symm.trans hok₂
      obtain ⟨m', hok', hblocks⟩ := ih h₁ (fun u hu ↦ by
        cases hvs.symm.trans hu
        exact hlastw.spares hsparesP) (hQ.spares hsparesQ) (hreadyP.spares hsparesP) (hreadyQ.spares hsparesQ)
        (hsparesP.isBlock ha ⟨n, hn⟩)
      exact ⟨m', hstep hok', fun b hb hblock ↦ hblocks b hb (hsparesQ.isBlock hb hblock)⟩

theorem destroyRemoved_left {vs : List V} : ∀ {m m' : Memory T V}, Intact m (vs.map ptr) →
    destroyRemoved a (vs.map some) m = .ok m' →
      Intact m' [] ∧ Left m m' (fun _ ↦ False) ∧
        ∀ v, vs.getLast? = some v → ∃ m₁, Intact m₁ [ptr v] ∧ Left m m₁ (fun _ ↦ False) ∧ IsBlock m₁ a := by
  induction vs with
  | nil =>
    intro m m' h hok
    cases hok
    exact ⟨h, .of_kept (.refl m), nofun⟩
  | cons v vs ih =>
    intro m m' h hok
    rw [List.map_cons, destroyRemoved] at hok
    obtain ⟨n, hload, hok⟩ := bind_eq_ok.mp hok
    obtain ⟨m₁, hdec, hok⟩ := bind_eq_ok.mp hok
    have hcounted : Intact m (ptr v :: vs.map ptr) := h
    have hreleased := ptrDec_released _ hcounted hdec
    have hfirst : Left m m₁ fun _ ↦ False := .of_kept hreleased.spares.kept
    obtain ⟨h', hleft, hlast⟩ := ih hreleased.counted hok
    refine ⟨h', (hfirst.trans hleft).congr fun _ _ _ ↦ or_self_iff, fun w hw ↦ ?_⟩
    cases hvs : vs.getLast? with
    | none =>
      rw [List.getLast?_eq_none_iff] at hvs
      subst hvs
      cases hw
      exact ⟨m, h, .of_kept (.refl m), n, loadCount_ok hload⟩
    | some u =>
      rw [List.getLast?_cons, hvs] at hw
      cases hw
      obtain ⟨m₂, h₂, hleft₂, hblock⟩ := hlast _ hvs
      exact ⟨m₂, h₂, (hfirst.trans hleft₂).congr fun _ _ _ ↦ or_self_iff, hblock⟩

end Stela.CodeGen.Pointer
