import Stela.CodeGen.Pointer
import Stela.Library.RefCount

/-!
# Releasing a pointer is safe

`ptr_dec` and the operations built from it, on a memory whose counts are right. Releasing a pointer
destroys and frees exactly the blocks whose count becomes zero; it does not touch anything that the
pointer does not reach, and it never reads freed memory.
-/

namespace Stela.CodeGen.Pointer

open Stela.Library.Regions Stela.Library.RefCount
open Stela.Library.Except

variable {T V : Type} {m m' : Memory T V}

theorem load_eq_ok {l : Loc} {s : Slot T V} {v : V} (hs : slot? m l = some s) (hv : s.obj = some v) :
    load m l = .ok v := by
  obtain ⟨r, hr, hindex⟩ := slot?_eq_some.mp hs
  obtain ⟨type, obj⟩ := s
  cases hv
  simp [load, hr, hindex]

theorem store_eq_ok {l : Loc} {s : Slot T V} (v : V) (hs : slot? m l = some s) :
    store m l v = .ok (write m l (some v)) := by
  obtain ⟨r, hr, hindex⟩ := slot?_eq_some.mp hs
  have hlt := (List.getElem?_eq_some_iff.mp hindex).1
  simp [store, hr, hlt]

theorem loadCount_eq_ok {a : ℕ} {n : ℤ} (hn : count? m a = some n) : loadCount m a = .ok n := by
  obtain ⟨r, hr, hcount⟩ := count?_eq_some.mp hn
  simp [loadCount, hr, hcount]

/-- The slots of a block when the object in slot `i` is taken out. -/
def emptied (i : ℕ) (slots : List (Slot T V)) : List (Slot T V) := slots.modify i fun s ↦ { s with obj := none }

@[simp] theorem length_emptied (i : ℕ) (slots : List (Slot T V)) : (emptied i slots).length = slots.length :=
  List.length_modify _ _ _

theorem emptied_ne {i j : ℕ} (h : j ≠ i) (slots : List (Slot T V)) : (emptied i slots)[j]? = slots[j]? := by
  simp [emptied, Ne.symm h]

/-- Taking out the objects in order empties the slots from the front. -/
theorem emptied_gone {i : ℕ} {slots : List (Slot T V)} (h : ∀ j s, j < i → slots[j]? = some s → s.obj = none) (j : ℕ)
    (s : Slot T V) (hj : j < i + 1) (hs : (emptied i slots)[j]? = some s) : s.obj = none := by
  by_cases heq : j = i
  · subst heq
    simp only [emptied, List.getElem?_modify, if_true, Option.map_eq_map, Option.map_eq_some_iff] at hs
    obtain ⟨t, -, rfl⟩ := hs
    rfl
  · rw [emptied_ne heq] at hs
    exact h j s (by omega) hs

theorem region?_write_none {a : ℕ} {r : Region T V} (hr : region? m a = some r) (i : ℕ) :
    region? (write m ⟨a, i⟩ none) a = some { r with slots := emptied i r.slots } := by
  rw [region?_write, if_pos rfl, hr]
  rfl

variable [Pointer V] {pending : List (Option ℕ)} {dying P : ℕ → Prop}

/-- A function that releases a pointer while at most `fuel` blocks are in use. Blocks in `P` have
other owners, so they stay as they are. -/
def Releases (release : Option ℕ → Memory T V → Except Fault (Memory T V)) (fuel : ℕ) : Prop :=
  ∀ {m p pending dying P}, Counted m (p :: pending) dying → Owned m pending P → Ready m P → held m ≤ fuel →
    ∃ m', release p m = .ok m' ∧ Counted m' pending dying ∧ Spares P m m' ∧ held m' ≤ held m ∧ m'.length = m.length

/-- Destroying the objects of a dying block empties it; it is the rest of the memory that is spared. -/
theorem destroySlots_spares {release : Option ℕ → Memory T V → Except Fault (Memory T V)} {fuel : ℕ}
    (hrelease : Releases release fuel) {a : ℕ} (ha : ¬P a) (k : ℕ) : ∀ {i : ℕ} {m : Memory T V} {r : Region T V},
      region? m a = some r → r.count = some 0 → i + k = r.slots.length →
      (∀ j s, j < i → r.slots[j]? = some s → s.obj = none) →
      (∀ j s, i ≤ j → r.slots[j]? = some s → s.obj.isSome) →
      Counted m pending dying → Owned m pending P → Ready m P → held m ≤ fuel →
        ∃ m' r', destroySlots release a i k m = .ok m' ∧ Counted m' pending dying ∧
          region? m' a = some r' ∧ r'.count = some 0 ∧ (∀ s ∈ r'.slots, s.obj = none) ∧
          Spares P (free m a) (free m' a) ∧ held m' ≤ held m ∧ m'.length = m.length := by
  induction k with
  | zero =>
    intro i m r hr hcount hlen hgone hlive hcounted howned hready hheld
    refine ⟨m, r, rfl, hcounted, hr, hcount, fun s hs ↦ ?_, .refl _ _, Nat.le_refl _, rfl⟩
    obtain ⟨j, hj⟩ := List.mem_iff_getElem?.mp hs
    have hlt := (List.getElem?_eq_some_iff.mp hj).1
    exact hgone j s (by omega) hj
  | succ k ih =>
    intro i m r hr hcount hlen hgone hlive hcounted howned hready hheld
    obtain ⟨s, hs⟩ : ∃ s, r.slots[i]? = some s := ⟨r.slots.get ⟨i, by omega⟩, List.getElem?_eq_getElem _⟩
    obtain ⟨v, hv⟩ := Option.isSome_iff_exists.mp (hlive i s (Nat.le_refl _) hs)
    have hslot : slot? m ⟨a, i⟩ = some s := slot?_eq_some.mpr ⟨r, hr, hs⟩
    have hptr : s.obj.bind ptr = ptr v := by rw [hv]; rfl
    -- the object is taken out of the block, and the pointer it held is pending
    let m₁ := write m ⟨a, i⟩ none
    have hcounted₁ : Counted m₁ (ptr v :: pending) dying := hptr ▸ hcounted.cons_none.write hslot none
    have howned₁ : Owned m₁ pending P := howned.write_none ha
    have hready₁ : Ready m₁ P := hready.write_none (count?_eq_some.mpr ⟨r, hr, hcount⟩)
    have hheld₁ : held m₁ = held m := held_write _ _ _
    obtain ⟨m₂, hok, hcounted₂, hspares, hle, hlength⟩ := hrelease hcounted₁ howned₁ hready₁ (by omega)
    have hstays (h0) := hspares.stays a _ h0 (region?_write_none hr i)
    obtain ⟨r₂, hr₂, hslots₂, hzero₂⟩ := hstays (.inr hcount)
    have hlength₂ : r₂.slots.length = r.slots.length := by rw [hslots₂, length_emptied]
    have hgone₂ (j : ℕ) (s' : Slot T V) : j < i + 1 → r₂.slots[j]? = some s' → s'.obj = none := by
      rw [hslots₂]
      exact emptied_gone hgone j s'
    have hlive₂ (j : ℕ) (s' : Slot T V) (hj : i + 1 ≤ j) (hs' : r₂.slots[j]? = some s') : s'.obj.isSome := by
      rw [hslots₂, emptied_ne (by omega)] at hs'
      exact hlive j s' (by omega) hs'
    obtain ⟨m', r', hok', hcounted', hr', hcount', hempty, hspares', hle', hlength'⟩ :=
      ih hr₂ (hzero₂ hcount) (by omega) hgone₂ hlive₂ hcounted₂ (howned₁.spares hspares) (hready₁.spares hspares) (by omega)
    refine ⟨m', r', ?_, hcounted', hr', hcount', hempty, ?_, by omega, by rw [hlength', hlength, length_write]⟩
    · rw [destroySlots, load_eq_ok hslot hv]
      simp only [bind, Except.bind]
      rw [show release (ptr v) (write m ⟨a, i⟩ none) = .ok m₂ from hok]
      exact hok'
    · have hfirst := hspares.free a
      rw [show free m₁ a = free m a from free_write m ⟨a, i⟩ none] at hfirst
      exact hfirst.trans hspares'

/-- The block of a released pointer is freed when its count becomes zero. -/
theorem ptrDec_last {fuel : ℕ} (ih : Releases (ptrDec fuel : Option ℕ → Memory T V → _) fuel) {a : ℕ}
    (hn : count? m a = some 1) (hcounted : Counted m (some a :: pending) dying) (howned : Owned m pending P)
    (hready : Ready m P) (hheld : held m ≤ fuel + 1) :
    ∃ m', destroySlots (ptrDec fuel) a 0 (size (setCount m a 0) a) (setCount m a 0) = .ok m' ∧
      Counted (free m' a) pending dying ∧ Spares P m (free m' a) ∧ held (free m' a) ≤ held m ∧
      (free m' a).length = m.length := by
  obtain ⟨r, hr, hcount⟩ := count?_eq_some.mp hn
  have ha : ¬P a := howned.not_last hcounted hn
  have hr₁ : region? (setCount m a 0) a = some { r with count := some 0 } := by
    rw [region?_setCount, if_pos rfl, hr]
    rfl
  have hheld₁ := held_setCount (n := 0) hn
  rw [if_neg (by omega), if_pos (by omega)] at hheld₁
  have hcounted₁ : Counted (setCount m a 0) pending (fun b ↦ b = a ∨ dying b) :=
    (hcounted.dec hn).congr_dying fun b ↦ Or.imp_left And.left
  have hspares₁ : Spares P m (setCount m a 0) := spares_setCount hn (by omega)
  have hlive (j : ℕ) (s : Slot T V) (_ : 0 ≤ j) (hs : r.slots[j]? = some s) : s.obj.isSome :=
    hready a 1 ha hn (by omega) r hr s (List.mem_of_getElem? hs)
  obtain ⟨m', r', hok, hcounted', hr', hcount', hempty, hspares, hle, hlength⟩ :=
    destroySlots_spares ih ha r.slots.length hr₁ rfl (Nat.zero_add _) (fun j s hj _ ↦ absurd hj (Nat.not_lt_zero j))
      hlive hcounted₁ (howned.spares hspares₁) (hready.spares hspares₁) (by omega)
  have hsize : size (setCount m a 0) a = r.slots.length := by simp [size, hr₁]
  have hfreed : Spares P m (free m a) := spares_free hn (by omega) ha
  have hfree : free (setCount m a 0) a = free m a := free_setCount m a 0
  rw [hfree] at hspares
  refine ⟨m', hsize ▸ hok, hcounted'.free hr' hcount' hempty, hfreed.trans hspares, ?_, ?_⟩
  · have hle' := held_free_le m' a
    omega
  · rw [length_free, hlength, length_setCount]

/-- `ptr_dec` releases a pointer, and what becomes unreferenced with it. -/
theorem ptrDec_releases (fuel : ℕ) : Releases (ptrDec fuel : Option ℕ → Memory T V → _) fuel := by
  induction fuel with
  | zero =>
    intro m p pending dying P hcounted howned hready hheld
    cases p with
    | none => exact ⟨m, rfl, hcounted.drop_none, .refl _ _, Nat.le_refl _, rfl⟩
    | some a =>
      obtain ⟨n, hn, hpos⟩ := hcounted.count?_pending
      have hheld₁ := held_setCount (n := 0) hn
      rw [if_neg (by omega), if_pos (by omega)] at hheld₁
      omega
  | succ fuel ih =>
    intro m p pending dying P hcounted howned hready hheld
    cases p with
    | none => exact ⟨m, rfl, hcounted.drop_none, .refl _ _, Nat.le_refl _, rfl⟩
    | some a =>
      obtain ⟨n, hn, hpos⟩ := hcounted.count?_pending
      simp only [ptrDec, loadCount_eq_ok hn, bind, Except.bind]
      by_cases hzero : n - 1 = 0
      · obtain rfl : n = 1 := by omega
        obtain ⟨m', hok, hrest⟩ := ptrDec_last ih hn hcounted howned hready hheld
        refine ⟨free m' a, ?_, hrest⟩
        rw [if_pos hzero, show (1 : ℤ) - 1 = 0 from rfl, hok]
        rfl
      · have hheld₁ := held_setCount (n := n - 1) hn
        rw [if_neg (by omega), if_neg (by omega)] at hheld₁
        refine ⟨setCount m a (n - 1), by rw [if_neg hzero]; rfl,
          (hcounted.dec hn).congr_dying fun b hb ↦ hb.resolve_left fun h ↦ hzero h.2, spares_setCount hn (by omega),
          by omega, length_setCount _ _ _⟩

theorem dec_releases {p : Option ℕ} (h : Counted m (p :: pending) dying) (howned : Owned m pending P) (hready : Ready m P) :
    ∃ m', dec p m = .ok m' ∧ Counted m' pending dying ∧ Spares P m m' := by
  obtain ⟨m', hok, hcounted, hspares, -⟩ := ptrDec_releases m.length h howned hready (held_le_length m)
  exact ⟨m', hok, hcounted, hspares⟩

/-! ## The operations on objects -/

/-- The counts are right, and nothing is being destroyed. -/
abbrev Intact (m : Memory T V) (pending : List (Option ℕ)) : Prop := Counted m pending fun _ ↦ False

/-- The object in a slot may be released: what dies with it can be destroyed, and is not the block
that the slot is in. -/
structure Releasable (m : Memory T V) (l : Loc) (pending : List (Option ℕ)) : Prop where
  complete : ∀ b, Dies m l pending b → Complete m b
  outlives : ¬Dies m l pending l.region

/-- Regions up to their counts and the objects in their slots. -/
def SameRegions (m m' : Memory T V) : Prop :=
  ∀ b r', region? m' b = some r' → ∃ r, region? m b = some r ∧ r'.type = r.type ∧
    r'.count.isSome = r.count.isSome ∧ r'.slots.map Slot.type = r.slots.map Slot.type

omit [Pointer V] in
theorem SameRegions.trans {m m' m'' : Memory T V} (h : SameRegions m m') (h' : SameRegions m' m'') :
    SameRegions m m'' := by
  intro b r'' hr''
  obtain ⟨r', hr', htype', hcount', htypes'⟩ := h' b r'' hr''
  obtain ⟨r, hr, htype, hcount, htypes⟩ := h b r' hr'
  exact ⟨r, hr, htype'.trans htype, hcount'.trans hcount, htypes'.trans htypes⟩

omit [Pointer V] in
theorem SameRegions.refl (m : Memory T V) : SameRegions m m := fun _ r hr ↦ ⟨r, hr, rfl, rfl, rfl⟩

omit [Pointer V] in
theorem SameRegions.of_kept {m m' : Memory T V} (h : Kept m m') : SameRegions m m' := by
  intro b r' hr'
  obtain ⟨r, hr, htype, hslots, hcount⟩ := h b r' hr'
  exact ⟨r, hr, htype, hcount, by rw [hslots]⟩

omit [Pointer V] in
theorem SameRegions.write (m : Memory T V) (l : Loc) (obj : Option V) : SameRegions m (write m l obj) := by
  intro b r' hr'
  rw [region?_write] at hr'
  split_ifs at hr' with heq
  · obtain ⟨r, hr, rfl⟩ := Option.map_eq_some_iff.mp hr'
    refine ⟨r, hr, rfl, rfl, ?_⟩
    simp only
    apply List.ext_getElem?
    intro i
    simp only [List.getElem?_map, List.getElem?_modify]
    by_cases hi : l.index = i <;> cases r.slots[i]? <;> simp [hi]
  · exact ⟨r', hr', rfl, rfl, rfl⟩

omit [Pointer V] in
theorem SameRegions.isBlock {m m' : Memory T V} (h : SameRegions m m') {b : ℕ} (hb : IsBlock m' b) : IsBlock m b := by
  obtain ⟨n, hn⟩ := hb
  obtain ⟨r', hr', hcount⟩ := count?_eq_some.mp hn
  obtain ⟨r, hr, -, hsome, -⟩ := h b r' hr'
  rw [hcount] at hsome
  obtain ⟨k, hk⟩ := Option.isSome_iff_exists.mp hsome.symm
  exact ⟨k, count?_eq_some.mpr ⟨r, hr, hk⟩⟩

/-- Only the slots and the blocks matter for what dies with an object. -/
theorem releasable_congr (hslot : ∀ k, slot? m' k = slot? m k) (hblock : ∀ b, IsBlock m' b ↔ IsBlock m b) {l : Loc} :
    (∀ b, Dies m' l pending b ↔ Dies m l pending b) ∧ (Releasable m' l pending ↔ Releasable m l pending) := by
  have hdies (b : ℕ) : Dies m' l pending b ↔ Dies m l pending b :=
    ⟨fun hb ↦ hb.mono (fun b ↦ (hblock b).mp) (fun _ ↦ id) fun k s hs ↦ ⟨s, (hslot k).trans hs, rfl⟩,
      fun hb ↦ hb.mono (fun b ↦ (hblock b).mpr) (fun _ ↦ id) fun k s hs ↦ ⟨s, (hslot k).symm.trans hs, rfl⟩⟩
  have hcomplete (b : ℕ) : Complete m' b ↔ Complete m b := by
    simp only [complete_iff, hslot]
  refine ⟨hdies, fun h ↦ ⟨fun b hb ↦ ?_, fun hb ↦ ?_⟩, fun h ↦ ⟨fun b hb ↦ ?_, fun hb ↦ ?_⟩⟩
  · exact (hcomplete b).mp (h.complete b ((hdies b).mpr hb))
  · exact h.outlives ((hdies _).mpr hb)
  · exact (hcomplete b).mpr (h.complete b ((hdies b).mp hb))
  · exact h.outlives ((hdies _).mp hb)

/-- What an operation leaves: regions of the old types, the objects it wrote, and the other objects
outside the blocks that it frees. -/
structure Changed (m m' : Memory T V) (written : List (Loc × Option V)) (freed : ℕ → Prop) : Prop where
  regions : SameRegions m m'
  others : ∀ l s, (∀ w ∈ written, w.1 ≠ l) → slot? m' l = some s → slot? m l = some s
  stays : ∀ l, (∀ w ∈ written, w.1 ≠ l) → ¬freed l.region → slot? m' l = slot? m l
  results : ∀ w ∈ written, ∃ s, slot? m w.1 = some s ∧ slot? m' w.1 = some { s with obj := w.2 }
  blocks : ∀ b, IsBlock m' b ↔ IsBlock m b ∧ ¬freed b

omit [Pointer V] in
/-- Writing to one place, and freeing nothing, leaves the other places as they are. -/
theorem Changed.same {m m' : Memory T V} {l k : Loc} {obj : Option V} (h : Changed m m' [(l, obj)] fun _ ↦ False)
    (hk : k ≠ l) : slot? m' k = slot? m k :=
  h.stays k (fun w hw ↦ by cases List.mem_singleton.mp hw; exact Ne.symm hk) id

omit [Pointer V] in
theorem Changed.refl (m : Memory T V) : Changed m m [] fun _ ↦ False :=
  ⟨.refl m, fun _ _ _ hs ↦ hs, fun _ _ _ ↦ rfl, nofun, fun _ ↦ by simp⟩

omit [Pointer V] in
omit [Pointer V] in
/-- One change after another: what the second does not overwrite stays as the first left it. -/
theorem Changed.trans {m m₁ m' : Memory T V} {w₁ w₂ written : List (Loc × Option V)} {f₁ f₂ : ℕ → Prop}
    (h : Changed m m₁ w₁ f₁) (h' : Changed m₁ m' w₂ f₂) (hsub : ∀ w ∈ w₁ ++ w₂, ∃ x ∈ written, x.1 = w.1)
    (hlast : ∀ w ∈ written, w ∈ w₂ ∨ w ∈ w₁ ∧ (∀ x ∈ w₂, x.1 ≠ w.1) ∧ ¬f₂ w.1.region) :
    Changed m m' written fun b ↦ f₁ b ∨ f₂ b := by
  have hother {l : Loc} (hl : ∀ w ∈ written, w.1 ≠ l) : (∀ w ∈ w₁, w.1 ≠ l) ∧ ∀ w ∈ w₂, w.1 ≠ l := by
    constructor
    · intro w hw heq
      obtain ⟨x, hx, hxw⟩ := hsub w (List.mem_append_left _ hw)
      exact hl x hx (hxw.trans heq)
    · intro w hw heq
      obtain ⟨x, hx, hxw⟩ := hsub w (List.mem_append_right _ hw)
      exact hl x hx (hxw.trans heq)
  refine ⟨h.regions.trans h'.regions, fun l s hl hs ↦ ?_, fun l hl hstays ↦ ?_, fun w hw ↦ ?_, fun b ↦ ?_⟩
  · exact h.others l s (hother hl).1 (h'.others l s (hother hl).2 hs)
  · rw [not_or] at hstays
    rw [h'.stays l (hother hl).2 hstays.2, h.stays l (hother hl).1 hstays.1]
  · obtain hw | ⟨hw, hne, hstays⟩ := hlast w hw
    · obtain ⟨s₁, hs₁, hs'⟩ := h'.results w hw
      by_cases hfirst : ∃ x ∈ w₁, x.1 = w.1
      · obtain ⟨x, hx, hxw⟩ := hfirst
        obtain ⟨s, hs, hs₁'⟩ := h.results x hx
        rw [hxw] at hs hs₁'
        cases hs₁.symm.trans hs₁'
        exact ⟨s, hs, hs'⟩
      · exact ⟨s₁, h.others _ _ (fun x hx hxw ↦ hfirst ⟨x, hx, hxw⟩) hs₁, hs'⟩
    · obtain ⟨s, hs, hs₁⟩ := h.results w hw
      exact ⟨s, hs, (h'.stays _ hne hstays).trans hs₁⟩
  · rw [h'.blocks, h.blocks, not_or, and_assoc]

omit [Pointer V] in
theorem Changed.congr {m m' : Memory T V} {written : List (Loc × Option V)} {f f' : ℕ → Prop}
    (h : Changed m m' written f) (hf : ∀ b, f b ↔ f' b) : Changed m m' written f' := by
  obtain rfl : f = f' := funext fun b ↦ propext (hf b)
  exact h

omit [Pointer V] in
theorem changed_write {l : Loc} {s : Slot T V} (hs : slot? m l = some s) (obj : Option V) :
    Changed m (write m l obj) [(l, obj)] fun _ ↦ False := by
  refine ⟨.write m l obj, fun k t hk ht ↦ ?_, fun k hk _ ↦ ?_, fun w hw ↦ ?_, fun b ↦ by simp⟩
  · rwa [slot?_write, if_neg (hk _ List.mem_cons_self)] at ht
  · rw [slot?_write, if_neg (hk _ List.mem_cons_self)]
  · cases List.mem_singleton.mp hw
    exact ⟨s, hs, by rw [slot?_write, if_pos rfl, hs]; rfl⟩

/-- A pending pointer is stored in an empty slot. -/
theorem store_changed {l : Loc} {s : Slot T V} {v : V} (h : Intact m (ptr v :: pending)) (hs : slot? m l = some s)
    (hempty : s.obj = none) : store m l v = .ok (write m l (some v)) ∧ Intact (write m l (some v)) pending ∧
      Changed m (write m l (some v)) [(l, some v)] fun _ ↦ False := by
  have hwritten := Counted.write hs (some v) h
  rw [hempty] at hwritten
  exact ⟨store_eq_ok v hs, hwritten.drop_none, changed_write hs _⟩

/-- Counting a pointer once more. -/
theorem ptrInc_counted {p : Option ℕ} (h : Counted m pending dying) (hp : ∀ a, p = some a → IsBlock m a) :
    ∃ m', ptrInc p m = .ok m' ∧ Counted m' (p :: pending) dying ∧ Kept m m' ∧ (∀ l, slot? m' l = slot? m l) ∧
      ∀ b, IsBlock m' b ↔ IsBlock m b := by
  cases p with
  | none => exact ⟨m, rfl, h.cons_none, .refl m, fun _ ↦ rfl, fun _ ↦ Iff.rfl⟩
  | some a =>
    obtain ⟨n, hn⟩ := hp a rfl
    refine ⟨setCount m a (n + 1), ?_, h.inc hn, .setCount hn, slot?_setCount m a (n + 1), fun _ ↦ isBlock_setCount hn⟩
    simp only [ptrInc, loadCount_eq_ok hn, bind, Except.bind]
    rfl

/-- Taking an object out of a slot and releasing its pointer. -/
theorem dec_taken {l : Loc} {s : Slot T V} (h : Intact m pending) (hs : slot? m l = some s)
    (hl : Releasable m l pending) :
    ∃ m', dec (s.obj.bind ptr) (write m l none) = .ok m' ∧ Intact m' pending ∧ Kept (write m l none) m' ∧
      (∀ k, ¬Dies m l pending k.region → slot? m' k = slot? (write m l none) k) ∧
      ∀ b, IsBlock m' b ↔ IsBlock m b ∧ ¬Dies m l pending b := by
  have hready : Ready (write m l none) fun b ↦ ¬Dies m l pending b := by
    intro b n hb _ _ r hr
    have hdies := not_not.mp hb
    have hne : l.region ≠ b := fun hlb ↦ hl.outlives (hlb ▸ hdies)
    rw [region?_write, if_neg hne] at hr
    exact hl.complete b hdies r hr
  obtain ⟨m', hok, hcounted, hspares⟩ :=
    dec_releases (h.cons_none.write hs none) (owned_of_not_dies m l pending) hready
  refine ⟨m', hok, hcounted, hspares.kept, fun k hk ↦ hspares.slot? hk, fun b ↦ ⟨fun hb ↦ ⟨?_, fun hdies ↦ ?_⟩, fun hb ↦ ?_⟩⟩
  · exact isBlock_write.mp (hb.of_kept hspares.kept)
  · exact hdies.freed hcounted (fun _ _ ↦ hspares.kept.slot?)
      (fun _ _ hs hblock ↦ (isBlock_write.mpr hblock).kept_of_slot hspares.kept hs) hb
  · exact hspares.isBlock hb.2 (isBlock_write.mpr hb.1)

theorem ptrDtor_changed {l : Loc} {s : Slot T V} {v : V} (h : Intact m pending) (hs : slot? m l = some s)
    (hv : s.obj = some v) (hl : Releasable m l pending) :
    ∃ m', ptrDtor l m = .ok m' ∧ Intact m' pending ∧ Changed m m' [(l, none)] (Dies m l pending) := by
  have hptr : s.obj.bind ptr = ptr v := by rw [hv]; rfl
  obtain ⟨m', hok, hcounted, hkept, hsame, hblocks⟩ := dec_taken h hs hl
  rw [hptr] at hok
  refine ⟨m', ?_, hcounted, (SameRegions.write m l none).trans (.of_kept hkept), fun k t hk ht ↦ ?_, fun k hk hstays ↦ ?_,
    fun w hw ↦ ?_, hblocks⟩
  · simp only [ptrDtor, load_eq_ok hs hv, bind, Except.bind]
    exact hok
  · have hslot := hkept.slot? ht
    rwa [slot?_write, if_neg (hk _ List.mem_cons_self)] at hslot
  · rw [hsame k hstays, slot?_write, if_neg (hk _ List.mem_cons_self)]
  · cases List.mem_singleton.mp hw
    exact ⟨s, hs, by rw [hsame l hl.outlives, slot?_write, if_pos rfl, hs]; rfl⟩

theorem ptrCopCtor_changed {dst src : Loc} {d s : Slot T V} {v : V} (h : Intact m pending)
    (hd : slot? m dst = some d) (hempty : d.obj = none) (hs : slot? m src = some s) (hv : s.obj = some v) :
    ∃ m', ptrCopCtor dst src m = .ok m' ∧ Intact m' pending ∧ Changed m m' [(dst, some v)] (fun _ ↦ False) := by
  have hptr : s.obj.bind ptr = ptr v := by rw [hv]; rfl
  obtain ⟨m₁, hok, hcounted, hkept, hslot, hblocks⟩ := ptrInc_counted h fun a ha ↦ h.isBlock_of_slot hs (hptr.trans ha)
  have hd₁ := (hslot dst).trans hd
  have hwritten := hcounted.write hd₁ (some v)
  rw [hempty] at hwritten
  refine ⟨write m₁ dst (some v), ?_, hwritten.drop_none, ⟨(SameRegions.of_kept hkept).trans (.write _ _ _),
    fun k t hk ht ↦ ?_, fun k hk _ ↦ ?_, fun w hw ↦ ?_, fun b ↦ ?_⟩⟩
  · simp only [ptrCopCtor, load_eq_ok hs hv, hok, bind, Except.bind]
    exact store_eq_ok v hd₁
  · rw [slot?_write, if_neg (hk _ List.mem_cons_self)] at ht
    exact hkept.slot? ht
  · rw [slot?_write, if_neg (hk _ List.mem_cons_self), hslot]
  · cases List.mem_singleton.mp hw
    exact ⟨d, hd, by rw [slot?_write, if_pos rfl, hd₁]; rfl⟩
  · simp [hblocks]

theorem ptrCopAsgn_changed {dst src : Loc} {d s : Slot T V} {u v : V} (h : Intact m pending)
    (hd : slot? m dst = some d) (hu : d.obj = some u) (hs : slot? m src = some s) (hv : s.obj = some v)
    (hdst : Releasable m dst (ptr v :: pending)) :
    ∃ m', ptrCopAsgn dst src m = .ok m' ∧ Intact m' pending ∧
      Changed m m' [(dst, some (setPtr u (ptr v)))] (Dies m dst (ptr v :: pending)) := by
  have hptr : s.obj.bind ptr = ptr v := by rw [hv]; rfl
  have hptrd : d.obj.bind ptr = ptr u := by rw [hu]; rfl
  obtain ⟨m₁, hok₁, hcounted₁, hkept, hslot, hblocks⟩ := ptrInc_counted h fun a ha ↦ h.isBlock_of_slot hs (hptr.trans ha)
  have hd₁ := (hslot dst).trans hd
  obtain ⟨hdies, hreleasable⟩ := releasable_congr hslot hblocks
  have hdst₁ : Releasable m₁ dst (ptr v :: pending) := hreleasable.mpr hdst
  obtain ⟨m₂, hok₂, hcounted₂, hkept₂, hsame, hblocks₂⟩ := dec_taken hcounted₁ hd₁ hdst₁
  have hd₂ : slot? m₂ dst = some { d with obj := none } := by
    rw [hsame dst hdst₁.outlives, slot?_write, if_pos rfl, hd₁]
    rfl
  have hwritten : Intact (write m₂ dst (some (setPtr u (ptr v)))) (none :: pending) :=
    Counted.write hd₂ _ (by simpa using hcounted₂)
  rw [hptrd] at hok₂
  refine ⟨write m₂ dst (some (setPtr u (ptr v))), ?_, hwritten.drop_none,
    ((SameRegions.of_kept hkept).trans (.write _ _ _)).trans ((SameRegions.of_kept hkept₂).trans (.write _ _ _)),
    fun k t hk ht ↦ ?_, fun k hk hstays ↦ ?_, fun w hw ↦ ?_, fun b ↦ ?_⟩
  · simp only [ptrCopAsgn, load_eq_ok hd hu, load_eq_ok hs hv, hok₁, hok₂, bind, Except.bind]
    exact store_eq_ok _ hd₂
  · have hne := hk _ List.mem_cons_self
    rw [slot?_write, if_neg hne] at ht
    have hslot₁ := hkept₂.slot? ht
    rw [slot?_write, if_neg hne] at hslot₁
    exact hkept.slot? hslot₁
  · have hne := hk _ List.mem_cons_self
    rw [slot?_write, if_neg hne, hsame k fun hb ↦ hstays ((hdies _).mp hb), slot?_write, if_neg hne, hslot]
  · cases List.mem_singleton.mp hw
    exact ⟨d, hd, by rw [slot?_write, if_pos rfl, hd₂]; rfl⟩
  · rw [isBlock_write, hblocks₂, hblocks, hdies]

/-- Moving an object into an empty slot counts nothing, as the other object becomes null. -/
theorem counted_move {dst src : Loc} {d s : Slot T V} {u v : V} (h : Intact m pending) (hne : dst ≠ src)
    (hd : slot? m dst = some d) (hempty : d.obj = none) (hs : slot? m src = some s) (hv : s.obj = some v)
    (hptr : ptr u = ptr v) : Intact (write (write m dst (some u)) src (some (setPtr v none))) pending := by
  rw [write_comm m hne]
  have hnull : Intact m ((some (setPtr v none)).bind ptr :: pending) := by simpa using h.cons_none
  have hsrc := hnull.write hs (some (setPtr v none))
  have hd' : slot? (write m src (some (setPtr v none))) dst = some d := by
    rw [slot?_write, if_neg (Ne.symm hne), hd]
  have hdst : Intact (write m src (some (setPtr v none))) ((some u).bind ptr :: pending) := by
    simpa [hv, hptr] using hsrc
  have hwritten := hdst.write hd' (some u)
  rw [hempty] at hwritten
  exact hwritten.drop_none

theorem ptrMovCtor_changed {dst src : Loc} {d s : Slot T V} {v : V} (h : Intact m pending)
    (hd : slot? m dst = some d) (hempty : d.obj = none) (hs : slot? m src = some s) (hv : s.obj = some v) :
    ∃ m', ptrMovCtor dst src m = .ok m' ∧ Intact m' pending ∧
      Changed m m' [(dst, some v), (src, some (setPtr v none))] (fun _ ↦ False) := by
  have hne : dst ≠ src := by
    rintro rfl
    rw [hd] at hs
    cases hs
    simp [hempty] at hv
  have hs₁ : slot? (write m dst (some v)) src = some s := by rw [slot?_write, if_neg hne, hs]
  refine ⟨write (write m dst (some v)) src (some (setPtr v none)), ?_, counted_move h hne hd hempty hs hv rfl,
    (SameRegions.write _ _ _).trans (.write _ _ _), fun k t hk ht ↦ ?_, fun k hk _ ↦ ?_, fun w hw ↦ ?_, fun b ↦ ?_⟩
  · simp only [ptrMovCtor, load_eq_ok hs hv, store_eq_ok v hd, bind, Except.bind]
    exact store_eq_ok _ hs₁
  · have hkdst : dst ≠ k := hk (dst, some v) List.mem_cons_self
    have hksrc : src ≠ k := hk (src, some (setPtr v none)) (by simp)
    rwa [slot?_write, if_neg hksrc, slot?_write, if_neg hkdst] at ht
  · have hkdst : dst ≠ k := hk (dst, some v) List.mem_cons_self
    have hksrc : src ≠ k := hk (src, some (setPtr v none)) (by simp)
    rw [slot?_write, if_neg hksrc, slot?_write, if_neg hkdst]
  · simp only [List.mem_cons, List.not_mem_nil, or_false] at hw
    obtain rfl | rfl := hw
    · exact ⟨d, hd, by rw [slot?_write, if_neg (Ne.symm hne), slot?_write, if_pos rfl, hd]; rfl⟩
    · exact ⟨s, hs, by rw [slot?_write, if_pos rfl, hs₁]; rfl⟩
  · simp

theorem ptrMovAsgn_changed {dst src : Loc} {d s : Slot T V} {u v : V} (h : Intact m pending) (hne : dst ≠ src)
    (hd : slot? m dst = some d) (hu : d.obj = some u) (hs : slot? m src = some s) (hv : s.obj = some v)
    (hdst : Releasable m dst pending) (hsrc : ¬Dies m dst pending src.region) :
    ∃ m', ptrMovAsgn dst src m = .ok m' ∧ Intact m' pending ∧
      Changed m m' [(dst, some (setPtr u (ptr v))), (src, some (setPtr v none))] (Dies m dst pending) := by
  have hptrd : d.obj.bind ptr = ptr u := by rw [hu]; rfl
  obtain ⟨m₁, hok, hcounted, hkept, hsame, hblocks⟩ := dec_taken h hd hdst
  rw [hptrd] at hok
  have hd₁ : slot? m₁ dst = some { d with obj := none } := by
    rw [hsame dst hdst.outlives, slot?_write, if_pos rfl, hd]
    rfl
  have hs₁ : slot? m₁ src = some s := by rw [hsame src hsrc, slot?_write, if_neg hne, hs]
  have hs₂ : slot? (write m₁ dst (some (setPtr u (ptr v)))) src = some s := by rw [slot?_write, if_neg hne, hs₁]
  refine ⟨write (write m₁ dst (some (setPtr u (ptr v)))) src (some (setPtr v none)), ?_,
    counted_move hcounted hne hd₁ rfl hs₁ hv (ptr_setPtr _ _),
    ((SameRegions.write _ _ _).trans (.of_kept hkept)).trans ((SameRegions.write _ _ _).trans (.write _ _ _)),
    fun k t hk ht ↦ ?_, fun k hk hstays ↦ ?_, fun w hw ↦ ?_, fun b ↦ ?_⟩
  · simp only [ptrMovAsgn, load_eq_ok hd hu, hok, load_eq_ok hs₁ hv, store_eq_ok _ hd₁, bind, Except.bind]
    exact store_eq_ok _ hs₂
  · have hkdst : dst ≠ k := hk (dst, some (setPtr u (ptr v))) List.mem_cons_self
    have hksrc : src ≠ k := hk (src, some (setPtr v none)) (by simp)
    rw [slot?_write, if_neg hksrc, slot?_write, if_neg hkdst] at ht
    have ht' := hkept.slot? ht
    rwa [slot?_write, if_neg hkdst] at ht'
  · have hkdst : dst ≠ k := hk (dst, some (setPtr u (ptr v))) List.mem_cons_self
    have hksrc : src ≠ k := hk (src, some (setPtr v none)) (by simp)
    rw [slot?_write, if_neg hksrc, slot?_write, if_neg hkdst, hsame k hstays, slot?_write, if_neg hkdst]
  · simp only [List.mem_cons, List.not_mem_nil, or_false] at hw
    obtain rfl | rfl := hw
    · exact ⟨d, hd, by rw [slot?_write, if_neg (Ne.symm hne), slot?_write, if_pos rfl, hd₁]; rfl⟩
    · exact ⟨s, hs, by rw [slot?_write, if_pos rfl, hs₂]; rfl⟩
  · simp [hblocks]

end Stela.CodeGen.Pointer
