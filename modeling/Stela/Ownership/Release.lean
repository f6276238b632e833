import Stela.Library.Except
import Stela.Library.RefCount
import Stela.Ownership.RetainPtr

/-!
# Releasing a retain_ptr

What `decr` does on a memory whose counts are right. It destroys exactly the objects that lose their last owner, and
works as if the retain_ptr had given up its pointer before. The one thing that can go wrong is that the retain_ptr lies in
an object that it destroys itself; then `decr` always fails.
-/

namespace Stela.Ownership

open Stela.Library.Regions Stela.Library.RefCount
open Stela.Library.Except

variable {Class : Type} {H : Hierarchy Class} {m m' : Heap Class} {pending : List (Option ℕ)} {dying P : ℕ → Prop}

/-! ## Accesses -/

/-- A retain_ptr with this pointer lives in the place. -/
def Holds (m : Heap Class) (l : Loc) (p : Option ℕ) : Prop := ∃ type, slot? m l = some ⟨type, some ⟨p⟩⟩

/-- There is storage for a retain_ptr, but none lives there. -/
def Vacant (m : Heap Class) (l : Loc) : Prop := ∃ type, slot? m l = some ⟨type, none⟩

section

variable {l k : Loc} {p q : Option ℕ}

theorem get_eq_ok : get l m = .ok p ↔ Holds m l p := by
  unfold get Holds slot?
  cases region? m l.region with
  | none => exact ⟨nofun, nofun⟩
  | some r =>
    simp only [Option.bind_some]
    cases r.slots[l.index]? with
    | none => exact ⟨nofun, nofun⟩
    | some s =>
      obtain ⟨type, obj⟩ := s
      cases obj with
      | none => exact ⟨nofun, nofun⟩
      | some v =>
        constructor
        · intro h
          cases h
          exact ⟨type, rfl⟩
        · rintro ⟨_, h⟩
          cases h
          rfl

theorem Holds.unique (h : Holds m l p) (h' : Holds m l q) : p = q := by
  obtain ⟨_, h⟩ := h
  obtain ⟨_, h'⟩ := h'
  cases h.symm.trans h'
  rfl

theorem Holds.lives (h : Holds m l p) : lives m l = true := by
  obtain ⟨_, h⟩ := h
  rw [Ownership.lives, h]
  rfl

theorem holds_of_lives (h : lives m l = true) : ∃ p, Holds m l p := by
  unfold lives at h
  cases hs : slot? m l with
  | none =>
    rw [hs] at h
    cases h
  | some s =>
    rw [hs] at h
    obtain ⟨type, obj⟩ := s
    cases obj with
    | none => cases h
    | some v => exact ⟨v.ptr, type, hs⟩

theorem assign_eq_ok (h : Holds m l p) (q : Option ℕ) : assign l q m = .ok (write m l (some ⟨q⟩)) := by
  rw [assign, get_eq_ok.mpr h]
  rfl

theorem construct_eq_ok (h : Vacant m l) (q : Option ℕ) : construct l q m = .ok (write m l (some ⟨q⟩)) := by
  obtain ⟨type, hs⟩ := h
  obtain ⟨r, hr, hindex⟩ := slot?_eq_some.mp hs
  have hlt := (List.getElem?_eq_some_iff.mp hindex).1
  simp [construct, hr, hlt]

theorem loadCount_eq_ok {a : ℕ} {n : ℤ} : loadCount a m = .ok n ↔ count? m a = some n := by
  unfold loadCount count?
  cases region? m a with
  | none => exact ⟨nofun, nofun⟩
  | some r =>
    cases hcount : r.count with
    | none => simp [hcount]
    | some k => simp [hcount]

theorem Holds.write_ne (h : Holds m l p) (hne : k ≠ l) (obj : Option RetainPtr) : Holds (write m k obj) l p := by
  obtain ⟨type, hs⟩ := h
  exact ⟨type, by rw [slot?_write, if_neg hne, hs]⟩

theorem Holds.written (h : Holds m l p) (q : Option ℕ) : Holds (write m l (some ⟨q⟩)) l q := by
  obtain ⟨type, hs⟩ := h
  exact ⟨type, by rw [slot?_write, if_pos rfl, hs]; rfl⟩

theorem Vacant.written (h : Vacant m l) (q : Option ℕ) : Holds (write m l (some ⟨q⟩)) l q := by
  obtain ⟨type, hs⟩ := h
  exact ⟨type, by rw [slot?_write, if_pos rfl, hs]; rfl⟩

/-- Taking the retain_ptr out and putting it back. -/
theorem Holds.restore (h : Holds m l p) : write (write m l none) l (some ⟨p⟩) = m := by
  obtain ⟨type, hs⟩ := h
  rw [write_write]
  exact write_self hs

end

/-! ## Places that a release does not touch -/

section

variable {fuel : ℕ}

/-- Memory that is freed stays freed. -/
def Stays (m m' : Heap Class) : Prop := ∀ b, region? m b = none → region? m' b = none

theorem Stays.alive {b : ℕ} (h : Stays m m') (hb : region? m' b ≠ none) : region? m b ≠ none := fun hnone ↦
  hb (h b hnone)

theorem stays_modifyRegion (m : Heap Class) (a : ℕ) (f : Region Class RetainPtr → Region Class RetainPtr) :
    Stays m (modifyRegion m a f) := by
  intro b hb
  rw [region?_modifyRegion, hb]
  split_ifs <;> rfl

theorem stays_free (m : Heap Class) (a : ℕ) : Stays m (free m a) := by
  intro b hb
  rw [region?_free, hb]
  split_ifs <;> rfl

theorem destroyMembers_stays {dec : Loc → Heap Class → Except Fault (Heap Class)} {a : ℕ}
    (hdec : ∀ k m m', dec k m = .ok m' → Stays m m') : ∀ {is : List ℕ} {m m' : Heap Class},
      destroyMembers dec a is m = .ok m' → Stays m m'
  | [], m, m', h => by
    cases h
    exact fun _ ↦ id
  | i :: is, m, m', h => by
    rw [destroyMembers] at h
    split_ifs at h with hlives
    · obtain ⟨m₁, hok, h⟩ := bind_eq_ok.mp h
      intro b hb
      apply destroyMembers_stays hdec h
      apply stays_modifyRegion
      exact hdec _ _ _ hok b hb
    · exact destroyMembers_stays hdec h

/-- What a call of `decr` does: nothing for null, else it counts down, and destroys the object at zero. -/
theorem decr_eq_ok {l : Loc} : decr H (fuel + 1) l m = .ok m' ↔
    (Holds m l none ∧ m' = m) ∨
    ∃ a n, Holds m l (some a) ∧ count? m a = some n ∧ n ≠ 0 ∧
      ((n ≠ 1 ∧ m' = setCount m a (n - 1)) ∨
        (n = 1 ∧ ∃ m₁, destroyMembers (decr H fuel) a (members H (setCount m a 0) a) (setCount m a 0) = .ok m₁ ∧
          m' = free m₁ a)) := by
  rw [decr]
  constructor
  · intro h
    obtain ⟨p, hp, h⟩ := bind_eq_ok.mp h
    have hholds := get_eq_ok.mp hp
    cases p with
    | none =>
      cases h
      exact .inl ⟨hholds, rfl⟩
    | some a =>
      obtain ⟨n, hn, h⟩ := bind_eq_ok.mp h
      obtain ⟨hzero, h⟩ := ite_error_eq_ok.mp h
      refine .inr ⟨a, n, hholds, loadCount_eq_ok.mp hn, hzero, ?_⟩
      by_cases hone : n - 1 = 0
      · obtain rfl : n = 1 := by omega
        rw [if_pos hone] at h
        obtain ⟨m₁, hok, h⟩ := bind_eq_ok.mp h
        cases h
        exact .inr ⟨rfl, m₁, hok, rfl⟩
      · rw [if_neg hone] at h
        cases h
        exact .inl ⟨by omega, rfl⟩
  · rintro (⟨hholds, rfl⟩ | ⟨a, n, hholds, hn, hzero, hrest⟩)
    · apply bind_eq_ok.mpr
      exact ⟨none, get_eq_ok.mpr hholds, rfl⟩
    · apply bind_eq_ok.mpr
      refine ⟨some a, get_eq_ok.mpr hholds, bind_eq_ok.mpr ⟨n, loadCount_eq_ok.mpr hn, ?_⟩⟩
      rw [if_neg hzero]
      obtain ⟨hone, rfl⟩ | ⟨rfl, m₁, hok, rfl⟩ := hrest
      · rw [if_neg (by omega)]
        rfl
      · rw [if_pos (show (1 : ℤ) - 1 = 0 from rfl)]
        exact bind_eq_ok.mpr ⟨m₁, hok, rfl⟩

theorem decr_stays (fuel : ℕ) : ∀ k (m m' : Heap Class), decr H fuel k m = .ok m' → Stays m m' := by
  induction fuel with
  | zero =>
    intro k m m' h
    cases h
  | succ fuel ih =>
    intro k m m' h
    obtain ⟨-, rfl⟩ | ⟨a, n, -, -, -, ⟨-, rfl⟩ | ⟨-, m₁, hok, rfl⟩⟩ := decr_eq_ok.mp h
    · exact fun _ ↦ id
    · exact stays_modifyRegion _ _ _
    · intro b hb
      apply stays_free
      apply destroyMembers_stays ih hok
      exact stays_modifyRegion _ _ _ b hb

theorem lives_write_ne {k l : Loc} (h : l ≠ k) (obj : Option RetainPtr) : lives (write m l obj) k = lives m k := by
  rw [lives, slot?_write, if_neg h, lives]

theorem members_write_ne {a : ℕ} {l : Loc} (h : l.region ≠ a) (obj : Option RetainPtr) :
    members H (write m l obj) a = members H m a := by
  rw [members, region?_write, if_neg h, members]

/-- Destroying the members of one object works the same whatever is in a place of another one. -/
theorem destroyMembers_frame {dec : Loc → Heap Class → Except Fault (Heap Class)} {l : Loc} {obj : Option RetainPtr}
    {a : ℕ} (hstays : ∀ k m m', dec k m = .ok m' → Stays m m')
    (hdec : ∀ k m m', dec k m = .ok m' → region? m' l.region ≠ none → k ≠ l →
      dec k (write m l obj) = .ok (write m' l obj))
    (ha : l.region ≠ a) : ∀ {is : List ℕ} {m m' : Heap Class}, destroyMembers dec a is m = .ok m' →
      region? m' l.region ≠ none → destroyMembers dec a is (write m l obj) = .ok (write m' l obj)
  | [], m, m', h, _ => by
    cases h
    rfl
  | i :: is, m, m', h, halive => by
    have hne : (⟨a, i⟩ : Loc) ≠ l := by
      rintro rfl
      exact ha rfl
    rw [destroyMembers] at h ⊢
    rw [lives_write_ne (Ne.symm hne)]
    split_ifs at h ⊢ with hlives
    · obtain ⟨m₁, hok, h⟩ := bind_eq_ok.mp h
      have hrest := destroyMembers_frame hstays hdec ha h halive
      have halive₁ : region? m₁ l.region ≠ none :=
        (stays_modifyRegion _ _ _).alive ((destroyMembers_stays hstays h).alive halive)
      apply bind_eq_ok.mpr
      refine ⟨write m₁ l obj, hdec _ _ _ hok halive₁ hne, ?_⟩
      rw [write_comm _ (Ne.symm hne)]
      exact hrest
    · exact destroyMembers_frame hstays hdec ha h halive

/-- A release that leaves the region of a place alone works the same whatever is in the place. -/
theorem decr_frame (fuel : ℕ) {l : Loc} {obj : Option RetainPtr} : ∀ k (m m' : Heap Class), decr H fuel k m = .ok m' →
    region? m' l.region ≠ none → k ≠ l → decr H fuel k (write m l obj) = .ok (write m' l obj) := by
  induction fuel with
  | zero =>
    intro k m m' h
    cases h
  | succ fuel ih =>
    intro k m m' h halive hne
    apply decr_eq_ok.mpr
    obtain ⟨hholds, rfl⟩ | ⟨a, n, hholds, hn, hzero, hrest⟩ := decr_eq_ok.mp h
    · exact .inl ⟨hholds.write_ne (Ne.symm hne) obj, rfl⟩
    · refine .inr ⟨a, n, hholds.write_ne (Ne.symm hne) obj, by rw [count?_write, hn], hzero, ?_⟩
      obtain ⟨hone, rfl⟩ | ⟨hone, m₁, hok, rfl⟩ := hrest
      · exact .inl ⟨hone, (setCount_write m a (n - 1) l obj).symm⟩
      · have ha : l.region ≠ a := by
          rintro rfl
          rw [region?_free, if_pos rfl] at halive
          exact halive rfl
        rw [region?_free, if_neg (Ne.symm ha)] at halive
        refine .inr ⟨hone, write m₁ l obj, ?_, (free_write_ne m₁ ha obj).symm⟩
        rw [setCount_write, members_write_ne ha]
        exact destroyMembers_frame (decr_stays fuel) ih ha hok halive

end

/-! ## A release that its own place outlives -/

/-- A function that releases the retain_ptr in a place while fewer than `fuel` objects are in use. The region of the
place stays, as it has an owner that stays or is being destroyed already, and the retain_ptr keeps its pointer. The rest
of the memory is left as if the pointer had been taken out before. -/
def Releases (dec : Loc → Heap Class → Except Fault (Heap Class)) (fuel : ℕ) : Prop :=
  ∀ {m l p pending dying P}, Holds m l p → Counted (write m l none) (p :: pending) dying →
    Owned (write m l none) pending P → P l.region ∨ count? m l.region = some 0 → held m < fuel →
    ∃ m', dec l m = .ok (write m' l (some ⟨p⟩)) ∧ Counted m' pending dying ∧ Spares P (write m l none) m' ∧
      held m' ≤ held m ∧ m'.length = m.length

/-- The members that still live are among those to be destroyed. -/
def Covers (is : List ℕ) (r : Region Class RetainPtr) : Prop :=
  ∀ i s, r.slots[i]? = some s → s.obj ≠ none → i ∈ is

/-- Destroying the members of a dying object empties it; it is the rest of the memory that is spared. -/
theorem destroyMembers_spares {dec : Loc → Heap Class → Except Fault (Heap Class)} {fuel : ℕ}
    (hdec : Releases dec fuel) {a : ℕ} (ha : ¬P a) : ∀ {is : List ℕ} {m : Heap Class} {r : Region Class RetainPtr},
      region? m a = some r → r.count = some 0 → Covers is r → Counted m pending dying → Owned m pending P →
      held m < fuel →
        ∃ m' r', destroyMembers dec a is m = .ok m' ∧ Counted m' pending dying ∧ region? m' a = some r' ∧
          r'.count = some 0 ∧ (∀ s ∈ r'.slots, s.obj = none) ∧ Spares P (free m a) (free m' a) ∧
          held m' ≤ held m ∧ m'.length = m.length
  | [], m, r, hr, hcount, hcovers, hcounted, _, _ => by
    refine ⟨m, r, rfl, hcounted, hr, hcount, fun s hs ↦ ?_, .refl _ _, le_rfl, rfl⟩
    obtain ⟨i, hi⟩ := List.mem_iff_getElem?.mp hs
    by_contra hobj
    exact List.not_mem_nil (hcovers i s hi hobj)
  | i :: is, m, r, hr, hcount, hcovers, hcounted, howned, hheld => by
    rw [destroyMembers]
    split_ifs with hlives
    · obtain ⟨p, type, hs⟩ := holds_of_lives hlives
      -- the pointer is taken out of the object, and is pending
      have hcounted₁ : Counted (write m ⟨a, i⟩ none) (p :: pending) dying := hcounted.cons_none.write hs none
      have hzero : count? m a = some 0 := count?_eq_some.mpr ⟨r, hr, hcount⟩
      obtain ⟨m₂, hok, hcounted₂, hspares, hle, hlength⟩ :=
        hdec ⟨type, hs⟩ hcounted₁ (howned.write_none ha) (.inr hzero) hheld
      have hr₁ : region? (write m ⟨a, i⟩ none) a =
          some { r with slots := r.slots.modify i fun s ↦ { s with obj := none } } := by
        rw [region?_write, if_pos rfl, hr]
        rfl
      have hstays (h0) := hspares.stays a _ h0 hr₁
      obtain ⟨r₂, hr₂, hslots₂, hzero₂⟩ := hstays (.inr hcount)
      have hsi : r.slots[i]? = some ⟨type, some ⟨p⟩⟩ := by
        obtain ⟨r', hr', hsi⟩ := slot?_eq_some.mp hs
        cases hr.symm.trans hr'
        exact hsi
      have hslot₂ : slot? m₂ ⟨a, i⟩ = some ⟨type, none⟩ := by
        apply slot?_eq_some.mpr
        refine ⟨r₂, hr₂, ?_⟩
        simp [hslots₂, hsi]
      have hcovers₂ : Covers is r₂ := by
        intro j s hj hobj
        by_cases hij : i = j
        · subst hij
          obtain ⟨r', hr', hsi₂⟩ := slot?_eq_some.mp hslot₂
          cases hr₂.symm.trans hr'
          cases hj.symm.trans hsi₂
          exact absurd rfl hobj
        · rw [hslots₂, List.getElem?_modify_ne _ _ hij] at hj
          exact (List.mem_cons.mp (hcovers j s hj hobj)).resolve_left (Ne.symm hij)
      obtain ⟨m', r', hok', hcounted', hr', hcount', hempty, hspares', hle', hlength'⟩ :=
        destroyMembers_spares hdec ha hr₂ (hzero₂ hcount) hcovers₂ hcounted₂ ((howned.write_none ha).spares hspares)
          (Nat.lt_of_le_of_lt hle hheld)
      refine ⟨m', r', ?_, hcounted', hr', hcount', hempty, ?_, hle'.trans hle, hlength'.trans hlength⟩
      · apply bind_eq_ok.mpr
        refine ⟨_, hok, ?_⟩
        rw [write_write, write_self hslot₂]
        exact hok'
      · have hfirst := hspares.free a
        rw [show free (write m ⟨a, i⟩ none) a = free m a from free_write m ⟨a, i⟩ none] at hfirst
        exact hfirst.trans hspares'
    · apply destroyMembers_spares hdec ha hr hcount _ hcounted howned hheld
      intro j s hj hobj
      obtain rfl | hmem := List.mem_cons.mp (hcovers j s hj hobj)
      · refine absurd ?_ hlives
        obtain ⟨v, hv⟩ := Option.ne_none_iff_exists'.mp hobj
        rw [lives, slot?_eq_some.mpr ⟨r, hr, hj⟩, Option.any_some, hv]
        rfl
      · exact hmem

theorem mem_members {a i : ℕ} {s : Slot Class RetainPtr} (h : slot? m ⟨a, i⟩ = some s) : i ∈ members H m a := by
  obtain ⟨r, hr, hs⟩ := slot?_eq_some.mp h
  rw [members, hr, Option.elim_some, (H.dtorOrder_perm _ _).mem_iff, List.mem_range]
  exact (List.getElem?_eq_some_iff.mp hs).1

theorem covers_members {a : ℕ} {r : Region Class RetainPtr} (h : region? m a = some r) : Covers (members H m a) r :=
  fun _ _ hs _ ↦ mem_members (slot?_eq_some.mpr ⟨r, h, hs⟩)

/-- The object whose last owner lets go is destroyed and freed, with what else loses its last owner. -/
theorem destroy_last {fuel : ℕ} (hdec : Releases (decr H fuel) fuel) {a : ℕ} (hn : count? m a = some 1)
    (hcounted : Counted m (some a :: pending) dying) (howned : Owned m pending P) (hheld : held m < fuel + 1) :
    ∃ m', destroyMembers (decr H fuel) a (members H (setCount m a 0) a) (setCount m a 0) = .ok m' ∧
      Counted (free m' a) pending dying ∧ Spares P m (free m' a) ∧ Spares P (free m a) (free m' a) ∧
      held (free m' a) ≤ held m ∧ (free m' a).length = m.length := by
  obtain ⟨r, hr, hcount⟩ := count?_eq_some.mp hn
  have ha : ¬P a := howned.not_last hcounted hn
  have hr₁ : region? (setCount m a 0) a = some { r with count := some 0 } := by
    rw [region?_setCount, if_pos rfl, hr]
    rfl
  have hheld₁ := held_setCount (n := 0) hn
  rw [if_neg (by omega), if_pos (by omega)] at hheld₁
  have hcounted₁ : Counted (setCount m a 0) pending (fun b ↦ b = a ∨ dying b) :=
    (hcounted.dec hn).congr_dying fun b ↦ Or.imp_left And.left
  have hspares₁ : Spares P m (setCount m a 0) := spares_setCount hn (by omega)
  obtain ⟨m', r', hok, hcounted', hr', hcount', hempty, hspares, hle, hlength⟩ :=
    destroyMembers_spares hdec ha hr₁ rfl (covers_members hr₁) hcounted₁ (howned.spares hspares₁) (by omega)
  have hfreed : Spares P m (free m a) := spares_free hn (by omega) ha
  rw [free_setCount] at hspares
  refine ⟨m', hok, hcounted'.free hr' hcount' hempty, hfreed.trans hspares, hspares, ?_, ?_⟩
  · have hle' := held_free_le m' a
    omega
  · rw [length_free, hlength, length_setCount]

/-- `decr` releases a retain_ptr, and what loses its last owner with it. -/
theorem decr_releases (fuel : ℕ) : Releases (decr H fuel) fuel := by
  induction fuel with
  | zero =>
    intro m l p pending dying P _ _ _ _ hheld
    exact absurd hheld (Nat.not_lt_zero _)
  | succ fuel ih =>
    intro m l p pending dying P hholds hcounted howned hregion hheld
    obtain ⟨type, hs⟩ := hholds
    have hheld₁ : held (write m l none) = held m := held_write m l none
    cases p with
    | none =>
      refine ⟨write m l none, ?_, hcounted.drop_none, .refl _ _, le_of_eq hheld₁, length_write _ _ _⟩
      apply decr_eq_ok.mpr
      exact .inl ⟨⟨type, hs⟩, Holds.restore ⟨type, hs⟩⟩
    | some a =>
      obtain ⟨n, hn, hpos⟩ := hcounted.count?_pending
      have hn' : count? m a = some n := by rwa [count?_write] at hn
      by_cases hone : n = 1
      · subst hone
        obtain ⟨m', hok, hcounted', hspares, hspares', hle, hlength⟩ :=
          destroy_last ih hn hcounted howned (by omega)
        have ha : l.region ≠ a := by
          rintro rfl
          obtain hP | hzero := hregion
          · exact howned.not_last hcounted hn hP
          · rw [hzero] at hn'
            cases hn'
        -- the place is in a region that stays, so what is in it does not matter
        have halive : region? m' l.region ≠ none := by
          obtain ⟨r, hr, -⟩ := slot?_eq_some.mp hs
          have hr₁ : region? (free (write m l none) a) l.region =
              some { r with slots := r.slots.modify l.index fun s ↦ { s with obj := none } } := by
            rw [region?_free, if_neg (Ne.symm ha), region?_write, if_pos rfl, hr]
            rfl
          have hstays (h0) := hspares'.stays l.region _ h0 hr₁
          obtain ⟨r', hr', -⟩ := hstays (hregion.imp_right fun hzero ↦ by simpa [count?, hr] using hzero)
          rw [region?_free, if_neg (Ne.symm ha)] at hr'
          rw [hr']
          exact Option.some_ne_none r'
        have hframe : destroyMembers (decr H fuel) a _ (write _ l (some ⟨some a⟩)) = .ok (write m' l (some ⟨some a⟩)) :=
          destroyMembers_frame (decr_stays fuel) (decr_frame fuel) ha hok halive
        rw [← setCount_write, Holds.restore ⟨type, hs⟩, setCount_write, members_write_ne ha] at hframe
        refine ⟨free m' a, ?_, hcounted', hspares, hle.trans (le_of_eq hheld₁), hlength.trans (length_write _ _ _)⟩
        apply decr_eq_ok.mpr
        refine .inr ⟨a, 1, ⟨type, hs⟩, hn', by omega, .inr ⟨rfl, write m' l (some ⟨some a⟩), hframe, ?_⟩⟩
        rw [free_write_ne m' ha]
      · have hheld₂ := held_setCount (n := n - 1) hn
        rw [if_neg (by omega), if_neg (by omega)] at hheld₂
        refine ⟨setCount (write m l none) a (n - 1), ?_, (hcounted.dec hn).congr_dying fun b hb ↦ ?_,
          spares_setCount hn (by omega), by omega, by rw [length_setCount, length_write]⟩
        · apply decr_eq_ok.mpr
          refine .inr ⟨a, n, ⟨type, hs⟩, hn', by omega, .inl ⟨hone, ?_⟩⟩
          rw [← setCount_write, Holds.restore ⟨type, hs⟩]
        · exact hb.resolve_left fun h ↦ hone (by omega)

/-! ## A release that destroys its own place -/

/-- A retain_ptr to an object that is being destroyed. -/
def Guarded (m : Heap Class) (l : Loc) (a : ℕ) : Prop := Holds m l (some a) ∧ count? m a = some 0

section

variable {l : Loc} {a : ℕ}

/-- The assertion in `decr` stops a second release. -/
theorem Guarded.not_released (h : Guarded m l a) (fuel : ℕ) : decr H fuel l m ≠ .ok m' := by
  intro hok
  cases fuel with
  | zero => cases hok
  | succ fuel =>
    obtain ⟨hnull, -⟩ | ⟨b, n, hholds, hn, hzero, -⟩ := decr_eq_ok.mp hok
    · cases h.1.unique hnull
    · cases h.1.unique hholds
      cases h.2.symm.trans hn
      exact hzero rfl

theorem Guarded.setCount {b : ℕ} {n k : ℤ} (h : Guarded m l a) (hn : count? m b = some n) (hzero : n ≠ 0) :
    Guarded (setCount m b k) l a ∧ b ≠ a := by
  have hne : b ≠ a := by
    rintro rfl
    cases h.2.symm.trans hn
    exact hzero rfl
  obtain ⟨r, hr, -⟩ := count?_eq_some.mp hn
  obtain ⟨⟨type, hs⟩, hcount⟩ := h
  exact ⟨⟨⟨type, by rw [slot?_setCount, hs]⟩, by rw [count?_setCount hr, if_neg hne, hcount]⟩, hne⟩

theorem destroyMembers_guards {dec : Loc → Heap Class → Except Fault (Heap Class)} {b : ℕ}
    (hdec : ∀ k m m', dec k m = .ok m' → Guarded m l a → k ≠ l ∧ Guarded m' l a) :
    ∀ {is : List ℕ} {m m' : Heap Class}, destroyMembers dec b is m = .ok m' → Guarded m l a →
      Guarded m' l a ∧ (l.region = b → l.index ∉ is)
  | [], m, m', h, hguarded => by
    cases h
    exact ⟨hguarded, fun _ ↦ List.not_mem_nil⟩
  | i :: is, m, m', h, hguarded => by
    rw [destroyMembers] at h
    split_ifs at h with hlives
    · obtain ⟨m₁, hok, h⟩ := bind_eq_ok.mp h
      obtain ⟨hne, hguarded₁⟩ := hdec _ _ _ hok hguarded
      have hguarded₂ : Guarded (write m₁ ⟨b, i⟩ none) l a :=
        ⟨hguarded₁.1.write_ne hne none, by rw [count?_write, hguarded₁.2]⟩
      obtain ⟨hguarded', hnot⟩ := destroyMembers_guards hdec h hguarded₂
      refine ⟨hguarded', fun hb hmem ↦ ?_⟩
      obtain heq | hmem := List.mem_cons.mp hmem
      · exact hne (by rw [← hb, ← heq])
      · exact hnot hb hmem
    · obtain ⟨hguarded', hnot⟩ := destroyMembers_guards hdec h hguarded
      refine ⟨hguarded', fun hb hmem ↦ ?_⟩
      obtain heq | hmem := List.mem_cons.mp hmem
      · rw [← hb, ← heq, hguarded.1.lives] at hlives
        exact hlives rfl
      · exact hnot hb hmem

/-- A release that works does not come across the retain_ptr. -/
theorem decr_guards (fuel : ℕ) : ∀ k (m m' : Heap Class), decr H fuel k m = .ok m' → Guarded m l a →
    k ≠ l ∧ Guarded m' l a := by
  induction fuel with
  | zero =>
    intro k m m' h
    cases h
  | succ fuel ih =>
    intro k m m' h hguarded
    have hne : k ≠ l := by
      rintro rfl
      exact hguarded.not_released _ h
    refine ⟨hne, ?_⟩
    obtain ⟨-, rfl⟩ | ⟨b, n, -, hn, hzero, ⟨-, rfl⟩ | ⟨-, m₁, hok, rfl⟩⟩ := decr_eq_ok.mp h
    · exact hguarded
    · exact (hguarded.setCount hn hzero).1
    · obtain ⟨hguarded₀, hba⟩ := hguarded.setCount (k := 0) hn hzero
      obtain ⟨⟨⟨type, hs⟩, hcount⟩, hnot⟩ := destroyMembers_guards ih hok hguarded₀
      have hregion : b ≠ l.region := by
        rintro rfl
        obtain ⟨_, hs₀⟩ := hguarded₀.1
        exact hnot rfl (mem_members hs₀)
      refine ⟨⟨type, ?_⟩, by rw [count?_free, if_neg hba, hcount]⟩
      rw [slot?, region?_free, if_neg hregion]
      exact hs

end

/-! ## Where nothing is being destroyed -/

/-- The counts are right, and nothing is being destroyed. -/
abbrev Settled (m : Heap Class) (pending : List (Option ℕ)) : Prop := Counted m pending fun _ ↦ False

section

variable {l : Loc} {p : Option ℕ}

/-- Releasing a retain_ptr destroys what loses its last owner. -/
theorem release_outlived (h : Settled m pending) (hholds : Holds m l p) (hl : ¬Dies m l pending l.region) :
    ∃ m', release H l m = .ok (write m' l (some ⟨p⟩)) ∧ Settled m' pending ∧ Vacant m' l ∧ Kept (write m l none) m' ∧
      (∀ b, IsBlock m' b ↔ IsBlock m b ∧ ¬Dies m l pending b) ∧ m'.length = m.length := by
  have hholds' := hholds
  obtain ⟨type, hs⟩ := hholds
  have hcounted : Settled (write m l none) (p :: pending) := h.cons_none.write hs none
  obtain ⟨m', hok, hcounted', hspares, -, hlength⟩ := decr_releases (H := H) (m.length + 1) hholds' hcounted
    (owned_of_not_dies m l pending) (.inl hl) (Nat.lt_succ_of_le (held_le_length m))
  refine ⟨m', hok, hcounted', ⟨type, ?_⟩, hspares.kept, fun b ↦ ⟨fun hb ↦ ⟨?_, fun hdies ↦ ?_⟩, fun hb ↦ ?_⟩, hlength⟩
  · rw [hspares.slot? hl, slot?_write, if_pos rfl, hs]
    rfl
  · exact isBlock_write.mp (hb.of_kept hspares.kept)
  · exact hdies.freed hcounted' (fun _ _ ↦ hspares.kept.slot?)
      (fun _ _ hs hblock ↦ (isBlock_write.mpr hblock).kept_of_slot hspares.kept hs) hb
  · exact hspares.isBlock hb.2 (isBlock_write.mpr hb.1)

/-- A retain_ptr in an object that its release would destroy cannot be released. -/
theorem release_not_outlived (h : Settled m pending) (hholds : Holds m l p) (hl : Dies m l pending l.region) :
    release H l m ≠ .ok m' := by
  intro hok
  have hholds' := hholds
  obtain ⟨type, hs⟩ := hholds
  have hcounted : Settled (write m l none) (p :: pending) := h.cons_none.write hs none
  have hblock : IsBlock (write m l none) l.region := isBlock_write.mpr hl.isBlock
  obtain ⟨hnull, -⟩ | ⟨a, n, hholds, hn, hzero, hrest⟩ := decr_eq_ok.mp hok
  · cases hholds'.unique hnull
    exact not_dies_of_null h (List.Subset.refl _) hs rfl hl
  cases hholds'.unique hholds
  obtain ⟨hone, rfl⟩ | ⟨rfl, m₁, hdestroyed, rfl⟩ := hrest
  · -- nothing is destroyed, although the place should be
    have hn₁ : count? (write m l none) a = some n := by rw [count?_write, hn]
    have hcounted₁ : Settled (setCount (write m l none) a (n - 1)) pending :=
      (hcounted.dec hn₁).congr_dying fun b hb ↦ hb.resolve_left fun h ↦ hone (by omega)
    apply hl.freed hcounted₁
    · intro k s hk
      rwa [slot?_setCount] at hk
    · exact fun k s _ hb ↦ (isBlock_setCount hn₁).mpr (isBlock_write.mpr hb)
    · exact (isBlock_setCount hn₁).mpr hblock
  · -- the place is not touched, so it would be the same without the retain_ptr; but then it is destroyed
    have hn₁ : count? (write m l none) a = some 1 := by rw [count?_write, hn]
    have hguarded : Guarded (setCount m a 0) l a := by
      obtain ⟨r, hr, -⟩ := count?_eq_some.mp hn
      exact ⟨⟨type, by rw [slot?_setCount, hs]⟩, by rw [count?_setCount hr, if_pos rfl]⟩
    obtain ⟨⟨⟨type₁, hs₁⟩, -⟩, hnot⟩ := destroyMembers_guards (decr_guards _) hdestroyed hguarded
    have ha : l.region ≠ a := by
      rintro rfl
      obtain ⟨_, hs₀⟩ := hguarded.1
      exact hnot rfl (mem_members hs₀)
    have halive : region? m₁ l.region ≠ none := by
      obtain ⟨r, hr, -⟩ := slot?_eq_some.mp hs₁
      rw [hr]
      exact Option.some_ne_none r
    have hframe : destroyMembers (decr H m.length) a _ (write _ l none) = .ok (write m₁ l none) :=
      destroyMembers_frame (decr_stays _) (decr_frame _) ha hdestroyed halive
    rw [← setCount_write, ← members_write_ne ha none, ← setCount_write] at hframe
    obtain ⟨m₂, hok₂, hcounted₂, hspares, hspares', -, -⟩ := destroy_last (decr_releases (H := H) m.length) hn₁ hcounted
      (owned_of_not_dies m l pending) (Nat.lt_succ_of_le ((le_of_eq (held_write m l none)).trans (held_le_length m)))
    cases hframe.symm.trans hok₂
    have hslot : slot? (free (write m₁ l none) a) l = some ⟨type₁, none⟩ := by
      rw [slot?, region?_free, if_neg (Ne.symm ha)]
      change slot? (write m₁ l none) l = _
      rw [slot?_write, if_pos rfl, hs₁]
      rfl
    apply hl.freed hcounted₂ (fun _ _ ↦ hspares.kept.slot?)
    · exact fun _ _ hs hb ↦ (isBlock_write.mpr hb).kept_of_slot hspares.kept hs
    · exact hblock.kept_of_slot hspares.kept hslot

end

end Stela.Ownership
