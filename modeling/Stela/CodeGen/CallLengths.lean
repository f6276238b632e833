import Stela.CodeGen.ArrayLengths
import Stela.CodeGen.Calls

/-!
# The lengths of arrays of closures

The functions that grow and shrink arrays change the lengths of arrays of counted objects as the functions on lengths
say: `effect_newLen`. Counting and releasing the objects changes no length.
-/

namespace Stela.CodeGen.Calls

open Stela.Library.Regions Stela.Library.Except Stela.CodeGen.Pointer Stela.CodeGen.Array
open Stela.CodeGen.Closure (Clo)

variable {m m' m'' : Heap} {a b : ℕ}

/-! ## Regions of the same size -/

/-- The regions that are left have as many slots as before. -/
structure SameSizes (m m' : Heap) : Prop where
  length : m.length ≤ m'.length
  regions : ∀ b r', b < m.length → region? m' b = some r' →
    ∃ r, region? m b = some r ∧ r'.type = r.type ∧ r'.slots.length = r.slots.length

namespace SameSizes

theorem refl (m : Heap) : SameSizes m m := ⟨Nat.le_refl _, fun _ r _ hr ↦ ⟨r, hr, rfl, rfl⟩⟩

theorem trans (h : SameSizes m m') (h' : SameSizes m' m'') : SameSizes m m'' := by
  refine ⟨h.length.trans h'.length, fun b r'' hb hr'' ↦ ?_⟩
  obtain ⟨r', hr', htype', hlength'⟩ := h'.regions b r'' (hb.trans_le h.length) hr''
  obtain ⟨r, hr, htype, hlength⟩ := h.regions b r' hb hr'
  exact ⟨r, hr, htype'.trans htype, hlength'.trans hlength⟩

end SameSizes

/-- A change of one region that keeps its slots. -/
theorem sameSizes_modifyRegion (m : Heap) (a : ℕ) {f : Region Shape Clo → Region Shape Clo}
    (hf : ∀ r, (f r).type = r.type ∧ (f r).slots.length = r.slots.length) : SameSizes m (modifyRegion m a f) := by
  refine ⟨(length_modifyRegion m a f).ge, fun b r' _ hr' ↦ ?_⟩
  rw [region?_modifyRegion] at hr'
  split_ifs at hr'
  · obtain ⟨r, hr, rfl⟩ := Option.map_eq_some_iff.mp hr'
    exact ⟨r, hr, hf r⟩
  · exact ⟨r', hr', rfl, rfl⟩

theorem sameSizes_write (m : Heap) (l : Loc) (obj : Option Clo) : SameSizes m (write m l obj) :=
  sameSizes_modifyRegion m l.region fun _ ↦ ⟨rfl, List.length_modify _ _ _⟩

theorem sameSizes_setCount (m : Heap) (a : ℕ) (n : ℤ) : SameSizes m (setCount m a n) :=
  sameSizes_modifyRegion m a fun _ ↦ ⟨rfl, rfl⟩

theorem sameSizes_free (m : Heap) (a : ℕ) : SameSizes m (free m a) := by
  refine ⟨(length_free m a).ge, fun b r' _ hr' ↦ ?_⟩
  rw [region?_free] at hr'
  split_ifs at hr'
  exact ⟨r', hr', rfl, rfl⟩

theorem sameSizes_alloc (m : Heap) (r : Region Shape Clo) : SameSizes m (alloc m r) := by
  refine ⟨by rw [alloc, List.length_append]; exact Nat.le_add_right _ _, fun b r' hb hr' ↦ ?_⟩
  rw [region?_alloc, if_neg hb.ne] at hr'
  exact ⟨r', hr', rfl, rfl⟩

theorem sameSizes_store {l : Loc} {v : Clo} (hok : store m l v = .ok m') : SameSizes m m' := by
  unfold store at hok
  split at hok
  · cases hok
  · split at hok
    · cases hok
      exact sameSizes_write m l (some v)
    · cases hok

theorem sameSizes_ptrInc {p : Option ℕ} (hok : ptrInc p m = .ok m') : SameSizes m m' := by
  cases p with
  | none =>
    cases hok
    exact .refl m
  | some a =>
    obtain ⟨n, -, hok⟩ := bind_eq_ok.mp hok
    cases hok
    exact sameSizes_setCount m a (n + 1)

section Released

variable {release : Option ℕ → Heap → Except Fault Heap} (hrelease : ∀ p m m', release p m = .ok m' → SameSizes m m')

include hrelease in
theorem sameSizes_destroySlots (k : ℕ) : ∀ {i : ℕ} {m m' : Heap}, destroySlots release a i k m = .ok m' → SameSizes m m' := by
  induction k with
  | zero =>
    intro i m m' hok
    cases hok
    exact .refl m
  | succ k ih =>
    intro i m m' hok
    obtain ⟨v, -, hok⟩ := bind_eq_ok.mp hok
    obtain ⟨m₁, hm₁, hok⟩ := bind_eq_ok.mp hok
    exact ((sameSizes_write m ⟨a, i⟩ none).trans (hrelease _ _ _ hm₁)).trans (ih hok)

end Released

theorem sameSizes_ptrDec (fuel : ℕ) : ∀ (p : Option ℕ) (m m' : Heap), ptrDec fuel p m = .ok m' → SameSizes m m' := by
  induction fuel with
  | zero =>
    intro p m m' hok
    cases p with
    | none =>
      cases hok
      exact .refl m
    | some a => cases hok
  | succ fuel ih =>
    intro p m m' hok
    cases p with
    | none =>
      cases hok
      exact .refl m
    | some a =>
      obtain ⟨n, -, hok⟩ := bind_eq_ok.mp hok
      have hcount := sameSizes_setCount m a (n - 1)
      change (if n - 1 = 0 then _ else _) = _ at hok
      split at hok
      · obtain ⟨m₁, hm₁, hok⟩ := bind_eq_ok.mp hok
        cases hok
        exact (hcount.trans (sameSizes_destroySlots ih _ hm₁)).trans (sameSizes_free m₁ a)
      · cases hok
        exact hcount

theorem sameSizes_dec (p : Option ℕ) (m m' : Heap) : dec p m = .ok m' → SameSizes m m' := sameSizes_ptrDec m.length p m m'

theorem sameSizes_destroyRemoved (objs : List (Option Clo)) : ∀ {m : Heap}, destroyRemoved a objs m = .ok m' → SameSizes m m' := by
  induction objs with
  | nil =>
    intro m hok
    cases hok
    exact .refl _
  | cons o rest ih =>
    intro m hok
    cases o with
    | none => cases hok
    | some v =>
      obtain ⟨_, -, hok⟩ := bind_eq_ok.mp hok
      obtain ⟨m₁, hm₁, hok⟩ := bind_eq_ok.mp hok
      exact (sameSizes_dec _ _ _ hm₁).trans (ih hok)

theorem sameSizes_copyConstruct {shape : Shape} {dst src : Loc} (hok : copyConstruct shape dst src m = .ok m') : SameSizes m m' := by
  have hptr (hok : ptrCopCtor dst src m = .ok m') : SameSizes m m' := by
    obtain ⟨v, -, hok⟩ := bind_eq_ok.mp hok
    obtain ⟨m₁, hm₁, hok⟩ := bind_eq_ok.mp hok
    exact (sameSizes_ptrInc hm₁).trans (sameSizes_store hok)
  cases shape with
  | array elems => exact hptr hok
  | closure => exact hptr hok

theorem sameSizes_defConstruct {shape : Shape} {obj : Loc} (hok : defConstruct shape obj m = .ok m') : SameSizes m m' := by
  cases shape with
  | array elems => exact (sameSizes_alloc m _).trans (sameSizes_store hok)
  | closure => exact sameSizes_store hok

/-! ## Regions that grow -/

/-- The region has so many more slots, if it is left. -/
structure Adds (m m' : Heap) (a n : ℕ) : Prop where
  length : m.length ≤ m'.length
  region : ∀ r', region? m' a = some r' →
    ∃ r, region? m a = some r ∧ r'.type = r.type ∧ r'.slots.length = r.slots.length + n

theorem SameSizes.adds (h : SameSizes m m') (ha : a < m.length) : Adds m m' a 0 :=
  ⟨h.length, fun r' hr' ↦ h.regions a r' ha hr'⟩

theorem Adds.trans {n n' : ℕ} (h : Adds m m' a n) (h' : Adds m' m'' a n') : Adds m m'' a (n + n') := by
  refine ⟨h.length.trans h'.length, fun r'' hr'' ↦ ?_⟩
  obtain ⟨r', hr', htype', hlength'⟩ := h'.region r'' hr''
  obtain ⟨r, hr, htype, hlength⟩ := h.region r' hr'
  exact ⟨r, hr, htype'.trans htype, by rw [hlength', hlength, Nat.add_assoc]⟩

theorem adds_pushSlot (m : Heap) (a : ℕ) (shape : Shape) : Adds m (pushSlot m a shape) a 1 := by
  refine ⟨(length_modifyRegion m a _).ge, fun r' hr' ↦ ?_⟩
  rw [pushSlot, region?_modifyRegion, if_pos rfl] at hr'
  obtain ⟨r, hr, rfl⟩ := Option.map_eq_some_iff.mp hr'
  exact ⟨r, hr, rfl, List.length_append⟩

theorem adds_copyToEnd (objs : List (Shape × Loc)) : ∀ {m : Heap}, a < m.length → copyToEnd a objs m = .ok m' →
    Adds m m' a objs.length := by
  induction objs with
  | nil =>
    intro m ha hok
    cases hok
    exact (SameSizes.refl _).adds ha
  | cons o rest ih =>
    intro m ha hok
    obtain ⟨m₁, hm₁, hok⟩ := bind_eq_ok.mp hok
    have hpushed := adds_pushSlot m a o.1
    have hcopied := hpushed.trans ((sameSizes_copyConstruct hm₁).adds (ha.trans_le hpushed.length))
    have hrest := hcopied.trans (ih (ha.trans_le hcopied.length) hok)
    rwa [List.length_cons, Nat.add_comm]

theorem adds_constructAtEnd (shapes : List Shape) : ∀ {m : Heap}, a < m.length → constructAtEnd a shapes m = .ok m' →
    Adds m m' a shapes.length := by
  induction shapes with
  | nil =>
    intro m ha hok
    cases hok
    exact (SameSizes.refl _).adds ha
  | cons shape rest ih =>
    intro m ha hok
    obtain ⟨m₁, hm₁, hok⟩ := bind_eq_ok.mp hok
    have hpushed := adds_pushSlot m a shape
    have hconstructed := hpushed.trans ((sameSizes_defConstruct hm₁).adds (ha.trans_le hpushed.length))
    have hrest := hconstructed.trans (ih (ha.trans_le hconstructed.length) hok)
    rwa [List.length_cons, Nat.add_comm]

/-! ## Lengths -/

/-- The array has so many elements. -/
def HasLength (m : Heap) (a n : ℕ) : Prop := ∃ r, region? m a = some r ∧ r.slots.length = n * r.type.elems.length

/-- The call on the length of an array that an event makes. -/
inductive LengthCall (m : Heap) (a : ℕ) : Event → ArrayLengths.Op → Prop where
  | pushBack {obj : Loc} {value : List Loc} (hobj : storage m obj = .ok a) (hvalue : value.length = (elemsOf m a).length) :
      LengthCall m a (.pushBack obj value) .pushBack
  | append {obj other : Loc} {b : ℕ} {otherLen : BitVec 32} (hobj : storage m obj = .ok a) (hother : storage m other = .ok b)
      (htype : elemsOf m b = elemsOf m a) (hlength : HasLength m b otherLen.toNat) :
      LengthCall m a (.append obj other) (.append otherLen)
  | popBack {obj : Loc} (hobj : storage m obj = .ok a) : LengthCall m a (.popBack obj) .popBack
  | resize {obj : Loc} {len : BitVec 32} (hobj : storage m obj = .ok a) : LengthCall m a (.resize obj len.toNat) (.resize len)
  | reserve {obj : Loc} {cap : BitVec 32} (hobj : storage m obj = .ok a) : LengthCall m a (.reserve obj cap.toNat) (.reserve cap)

theorem elemsOf_of_region {r : Region Shape Clo} (hr : region? m a = some r) : elemsOf m a = r.type.elems := by
  rw [elemsOf, hr, Option.elim_some]

theorem size_of_region {r : Region Shape Clo} (hr : region? m a = some r) : size m a = r.slots.length := by
  rw [size, hr, Option.elim_some]

theorem Adds.hasLength {n k : ℕ} {r : Region Shape Clo} (h : Adds m m' a k) (hr : region? m a = some r)
    (hk : r.slots.length + k = n * r.type.elems.length) {r' : Region Shape Clo} (hr' : region? m' a = some r') :
    HasLength m' a n := by
  obtain ⟨r₀, hr₀, htype, hlength⟩ := h.region r' hr'
  cases hr.symm.trans hr₀
  exact ⟨r', hr', by rw [hlength, htype, hk]⟩

/-- A storage whose end is cut off keeps its type. -/
theorem hasLength_truncate {n len : ℕ} {r : Region Shape Clo} (hr : region? m a = some r) (hle : n ≤ r.slots.length)
    (hn : n = len * r.type.elems.length) : HasLength (truncate m a n) a len := by
  refine ⟨{ r with slots := r.slots.take n }, ?_, ?_⟩
  · rw [truncate, region?_modifyRegion, if_pos rfl, hr]
    rfl
  · rw [List.length_take, Nat.min_eq_left hle, hn]

theorem SameSizes.hasLength {n : ℕ} (h : SameSizes m m') (hlength : HasLength m a n) {r' : Region Shape Clo}
    (hr' : region? m' a = some r') : HasLength m' a n := by
  obtain ⟨r, hr, hsize⟩ := hlength
  exact (h.adds (region?_lt hr)).hasLength hr (by rw [hsize, Nat.add_zero]) hr'

theorem btnPopBack_hasLength {obj : Loc} {n : ℕ} (hobj : storage m obj = .ok a) (hlength : HasLength m a n)
    (hok : btnPopBack obj m = .ok m') {r' : Region Shape Clo} (hr' : region? m' a = some r') : HasLength m' a (n - 1) := by
  obtain ⟨r, hr, hsize⟩ := hlength
  unfold btnPopBack at hok
  rw [hobj] at hok
  change destroyRemoved a _ (truncate m a _) = _ at hok
  rw [size_of_region hr, elemsOf_of_region hr] at hok
  have hcut : r.slots.length - r.type.elems.length = (n - 1) * r.type.elems.length := by
    rw [hsize, Nat.sub_mul, Nat.one_mul]
  exact (sameSizes_destroyRemoved _ hok).hasLength (hasLength_truncate hr (Nat.sub_le _ _) hcut) hr'

theorem btnResize_hasLength {obj : Loc} {len : ℕ} {r : Region Shape Clo} (hobj : storage m obj = .ok a)
    (hr : region? m a = some r) (hok : btnResize obj len m = .ok m') {r' : Region Shape Clo}
    (hr' : region? m' a = some r') : HasLength m' a len := by
  unfold btnResize at hok
  rw [hobj] at hok
  change (if len * (elemsOf m a).length ≤ size m a then _ else _) = _ at hok
  rw [size_of_region hr, elemsOf_of_region hr] at hok
  split at hok
  case isTrue hle =>
    obtain ⟨m₁, hm₁, hok⟩ := bind_eq_ok.mp hok
    have hsame := sameSizes_destroySlots sameSizes_dec _ hm₁
    unfold storeLen at hok
    cases hr₁ : region? m₁ a with
    | none =>
      rw [hr₁] at hok
      cases hok
    | some r₁ =>
      rw [hr₁] at hok
      cases hok
      obtain ⟨r₀, hr₀, htype, hlength⟩ := hsame.regions a r₁ (region?_lt hr) hr₁
      cases hr.symm.trans hr₀
      exact hasLength_truncate hr₁ (hlength ▸ hle) (by rw [htype])
  case isFalse hle =>
    refine (adds_constructAtEnd _ (region?_lt hr) hok).hasLength hr ?_ hr'
    have hcount : (elements r.type.elems len).length = len * r.type.elems.length := by simp [elements]
    rw [List.length_drop, List.length_map, hcount]
    omega

/-- The functions leave the lengths that are computed from the old ones, unless they free the array. -/
theorem effect_newLen {event : Event} {op : ArrayLengths.Op} (hcall : LengthCall m a event op) {array : ArrayLengths.Storage}
    (hlength : HasLength m a array.len.toNat) (hok : effect event m = .ok m') {r' : Region Shape Clo}
    (hr' : region? m' a = some r') : HasLength m' a (op.newLen array) := by
  obtain ⟨r, hr, hsize⟩ := id hlength
  have hlt := region?_lt hr
  cases hcall with
  | pushBack hobj hvalue =>
    change btnPushBack _ _ m = _ at hok
    unfold btnPushBack at hok
    rw [hobj] at hok
    refine (adds_copyToEnd _ hlt hok).hasLength hr ?_ hr'
    rw [List.length_zip, hvalue, Nat.min_self, elemsOf_of_region hr, hsize, ArrayLengths.Op.newLen, Nat.succ_mul]
  | @append _ other b otherLen hobj hother htype hotherLength =>
    change btnAppend _ _ m = _ at hok
    unfold btnAppend at hok
    rw [hobj, hother] at hok
    obtain ⟨rb, hrb, hsizeb⟩ := hotherLength
    rw [elemsOf_of_region hrb, elemsOf_of_region hr] at htype
    refine (adds_copyToEnd _ hlt hok).hasLength hr ?_ hr'
    have hplaces : (places m b).length = rb.slots.length := by rw [places, hrb, Option.elim_some, List.length_mapIdx]
    rw [hplaces, hsizeb, hsize, htype, ← Nat.add_mul]
    rfl
  | popBack hobj => exact btnPopBack_hasLength hobj hlength hok hr'
  | resize hobj => exact btnResize_hasLength hobj hr hok hr'
  | @reserve obj cap hobj =>
    change btnReserve obj cap.toNat m = _ at hok
    obtain ⟨_, -, hok⟩ := bind_eq_ok.mp hok
    obtain ⟨_, -, hok⟩ := bind_eq_ok.mp hok
    cases hok
    exact hlength

end Stela.CodeGen.Calls
