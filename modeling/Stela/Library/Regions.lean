import Mathlib.Algebra.GroupWithZero.Nat
import Mathlib.Algebra.Order.BigOperators.Group.List
import Mathlib.Algebra.Order.Group.Nat
import Mathlib.Data.Int.Notation
import Mathlib.Data.List.Basic

/-!
# Memory with reference counts

A memory is a list of regions, indexed by address. A region has slots, which may contain a live
object; objects hold a nullable pointer to a region. Heap blocks carry a count, other regions (the
variables of a program) do not. `refs` is the number of live objects that point to a region.
-/

namespace Stela.Library.Regions

/-- Objects that hold a nullable pointer. -/
class Pointer (V : Type) where
  ptr : V → Option ℕ
  setPtr : V → Option ℕ → V
  ptr_setPtr : ∀ v p, ptr (setPtr v p) = p

export Pointer (ptr setPtr ptr_setPtr)

attribute [simp] Pointer.ptr_setPtr

/-- A place for an object of a type; `obj` is `none` when there is no live object in it. -/
structure Slot (T V : Type) where
  type : T
  obj : Option V

structure Region (T V : Type) where
  type : T
  count : Option ℤ
  slots : List (Slot T V)

/-- The regions by address; `none` is a freed region. -/
abbrev Memory (T V : Type) := List (Option (Region T V))

/-- The place of a slot. -/
structure Loc where
  region : ℕ
  index : ℕ
  deriving DecidableEq, Repr

variable {T V : Type}

def region? (m : Memory T V) (a : ℕ) : Option (Region T V) := m[a]?.join

def slot? (m : Memory T V) (l : Loc) : Option (Slot T V) :=
  (region? m l.region).bind fun r ↦ r.slots[l.index]?

def count? (m : Memory T V) (a : ℕ) : Option ℤ := (region? m a).bind Region.count

/-- There is a counted block at the address. -/
def IsBlock (m : Memory T V) (a : ℕ) : Prop := ∃ n, count? m a = some n

def modifyRegion (m : Memory T V) (a : ℕ) (f : Region T V → Region T V) : Memory T V :=
  m.modify a (Option.map f)

/-- Put an object into a slot, or leave it without one. -/
def write (m : Memory T V) (l : Loc) (obj : Option V) : Memory T V :=
  modifyRegion m l.region fun r ↦ { r with slots := r.slots.modify l.index fun s ↦ { s with obj } }

def setCount (m : Memory T V) (a : ℕ) (n : ℤ) : Memory T V :=
  modifyRegion m a fun r ↦ { r with count := some n }

def free (m : Memory T V) (a : ℕ) : Memory T V := m.set a none

/-- Add a slot without a live object at the end of a region. -/
def pushSlot (m : Memory T V) (a : ℕ) (type : T) : Memory T V :=
  modifyRegion m a fun r ↦ { r with slots := r.slots ++ [⟨type, none⟩] }

/-- Keep the first `n` slots of a region. -/
def truncate (m : Memory T V) (a n : ℕ) : Memory T V :=
  modifyRegion m a fun r ↦ { r with slots := r.slots.take n }

/-- A new region, at the address `m.length`. -/
def alloc (m : Memory T V) (r : Region T V) : Memory T V := m ++ [some r]

/-! ## Reading after writing -/

@[simp] theorem length_modifyRegion (m : Memory T V) (a : ℕ) (f : Region T V → Region T V) :
    (modifyRegion m a f).length = m.length :=
  List.length_modify _ _ _

@[simp] theorem length_write (m : Memory T V) (l : Loc) (obj : Option V) : (write m l obj).length = m.length :=
  length_modifyRegion _ _ _

@[simp] theorem length_setCount (m : Memory T V) (a : ℕ) (n : ℤ) : (setCount m a n).length = m.length :=
  length_modifyRegion _ _ _

@[simp] theorem length_free (m : Memory T V) (a : ℕ) : (free m a).length = m.length :=
  List.length_set

theorem region?_modifyRegion (m : Memory T V) (a b : ℕ) (f : Region T V → Region T V) :
    region? (modifyRegion m a f) b = if a = b then (region? m b).map f else region? m b := by
  unfold region? modifyRegion
  rw [List.getElem?_modify]
  by_cases h : a = b
  · subst h
    cases m[a]? <;> simp
  · simp [h]

theorem region?_free (m : Memory T V) (a b : ℕ) :
    region? (free m a) b = if a = b then none else region? m b := by
  unfold region? free
  by_cases h : a = b
  · subst h
    by_cases hlt : a < m.length <;> simp [hlt]
  · simp [h]

theorem region?_alloc (m : Memory T V) (r : Region T V) (b : ℕ) :
    region? (alloc m r) b = if b = m.length then some r else region? m b := by
  unfold region? alloc
  by_cases h : b = m.length
  · simp [h]
  · rw [if_neg h]
    by_cases hlt : b < m.length
    · rw [List.getElem?_append_left hlt]
    · rw [List.getElem?_eq_none (by simp; omega), List.getElem?_eq_none (by omega)]

theorem region?_lt {m : Memory T V} {a : ℕ} {r : Region T V} (h : region? m a = some r) : a < m.length := by
  by_contra hle
  simp [region?, List.getElem?_eq_none (Nat.le_of_not_lt hle)] at h

theorem getElem?_of_region? {m : Memory T V} {a : ℕ} {r : Region T V} (h : region? m a = some r) :
    m[a]? = some (some r) := by
  unfold region? at h
  exact Option.join_eq_some_iff.mp h

theorem count?_eq_some {m : Memory T V} {a : ℕ} {n : ℤ} :
    count? m a = some n ↔ ∃ r, region? m a = some r ∧ r.count = some n := by
  simp [count?, Option.bind_eq_some_iff]

theorem slot?_eq_some {m : Memory T V} {l : Loc} {s : Slot T V} :
    slot? m l = some s ↔ ∃ r, region? m l.region = some r ∧ r.slots[l.index]? = some s := by
  simp [slot?, Option.bind_eq_some_iff]

theorem region?_write (m : Memory T V) (l : Loc) (obj : Option V) (b : ℕ) :
    region? (write m l obj) b = if l.region = b then
      (region? m b).map fun r ↦ { r with slots := r.slots.modify l.index fun s ↦ { s with obj } }
    else region? m b :=
  region?_modifyRegion m l.region b _

@[simp] theorem count?_write (m : Memory T V) (l : Loc) (obj : Option V) (b : ℕ) :
    count? (write m l obj) b = count? m b := by
  unfold count?
  rw [region?_write]
  split_ifs <;> cases region? m b <;> rfl

theorem slot?_write (m : Memory T V) (l k : Loc) (obj : Option V) :
    slot? (write m l obj) k = if l = k then (slot? m k).map fun s ↦ { s with obj } else slot? m k := by
  unfold slot?
  rw [region?_write]
  by_cases hregion : l.region = k.region
  · cases hr : region? m k.region with
    | none => simp [hregion]
    | some r =>
      by_cases hindex : l.index = k.index
      · have heq : l = k := by
          cases l
          cases k
          simp_all
        simp [heq]
      · have hne : l ≠ k := fun h ↦ hindex (h ▸ rfl)
        simp [hregion, hindex, hne]
  · have hne : l ≠ k := fun h ↦ hregion (h ▸ rfl)
    simp [hregion, hne]

theorem write_comm (m : Memory T V) {l k : Loc} (h : l ≠ k) (x y : Option V) :
    write (write m l x) k y = write (write m k y) l x := by
  unfold write modifyRegion
  by_cases hregion : l.region = k.region
  · have hindex : l.index ≠ k.index := by
      intro hindex
      cases l
      cases k
      simp_all
    rw [hregion, List.modify_modify_eq, List.modify_modify_eq]
    congr 1
    funext r
    cases r with
    | none => rfl
    | some r =>
      simp only [Function.comp_apply, Option.map_some]
      rw [List.modify_modify_ne _ _ _ hindex]
  · rw [List.modify_modify_ne _ _ _ hregion]

theorem write_write (m : Memory T V) (l : Loc) (x y : Option V) : write (write m l x) l y = write m l y := by
  unfold write modifyRegion
  rw [List.modify_modify_eq]
  congr 1
  funext r
  cases r with
  | none => rfl
  | some r =>
    simp only [Function.comp_apply, Option.map_some]
    rw [List.modify_modify_eq]
    rfl

/-- Writing what is there. -/
theorem write_self {m : Memory T V} {l : Loc} {s : Slot T V} (h : slot? m l = some s) : write m l s.obj = m := by
  obtain ⟨r, hr, hs⟩ := slot?_eq_some.mp h
  have hslots : r.slots.modify l.index (fun t ↦ { t with obj := s.obj }) = r.slots := by
    apply List.ext_getElem?
    intro i
    rw [List.getElem?_modify]
    by_cases hi : l.index = i
    · subst hi
      simp [hs]
    · cases r.slots[i]? <;> simp [hi]
  apply List.ext_getElem?
  intro b
  unfold write modifyRegion
  rw [List.getElem?_modify]
  by_cases hb : l.region = b
  · subst hb
    rw [getElem?_of_region? hr]
    simp [hslots]
  · cases m[b]? <;> simp [hb]

theorem setCount_write (m : Memory T V) (a : ℕ) (n : ℤ) (l : Loc) (obj : Option V) :
    setCount (write m l obj) a n = write (setCount m a n) l obj := by
  unfold setCount write modifyRegion
  by_cases h : l.region = a
  · subst h
    rw [List.modify_modify_eq, List.modify_modify_eq]
    congr 1
    funext r
    cases r <;> rfl
  · exact List.modify_modify_ne _ _ _ h

theorem free_write_ne (m : Memory T V) {a : ℕ} {l : Loc} (h : l.region ≠ a) (obj : Option V) :
    free (write m l obj) a = write (free m a) l obj := by
  apply List.ext_getElem?
  intro i
  unfold free write modifyRegion
  simp only [List.getElem?_set, List.length_modify, List.getElem?_modify]
  by_cases hi : a = i
  · subst hi
    simp [h]
  · simp [hi]

/-- What is in a region does not matter once it is freed. -/
theorem free_modifyRegion (m : Memory T V) (a : ℕ) (f : Region T V → Region T V) :
    free (modifyRegion m a f) a = free m a := by
  apply List.ext_getElem?
  intro i
  unfold free modifyRegion
  simp only [List.getElem?_set, List.length_modify, List.getElem?_modify]
  split_ifs with hi
  · rfl
  · rfl
  · cases m[i]? <;> rfl

theorem free_write (m : Memory T V) (l : Loc) (obj : Option V) : free (write m l obj) l.region = free m l.region :=
  free_modifyRegion _ _ _

theorem free_setCount (m : Memory T V) (a : ℕ) (n : ℤ) : free (setCount m a n) a = free m a :=
  free_modifyRegion _ _ _

theorem count?_modifyRegion (m : Memory T V) (a b : ℕ) {f : Region T V → Region T V} (hf : ∀ r, (f r).count = r.count) :
    count? (modifyRegion m a f) b = count? m b := by
  unfold count?
  rw [region?_modifyRegion]
  split_ifs
  · cases region? m b with
    | none => rfl
    | some r => exact hf r
  · rfl

@[simp] theorem count?_pushSlot (m : Memory T V) (a : ℕ) (type : T) (b : ℕ) : count? (pushSlot m a type) b = count? m b :=
  count?_modifyRegion m a b (by intro r; rfl)

@[simp] theorem count?_truncate (m : Memory T V) (a n b : ℕ) : count? (truncate m a n) b = count? m b :=
  count?_modifyRegion m a b (by intro r; rfl)

theorem slot?_pushSlot {m : Memory T V} {a : ℕ} {r : Region T V} (hr : region? m a = some r) (type : T) (l : Loc) :
    slot? (pushSlot m a type) l = if l = ⟨a, r.slots.length⟩ then some ⟨type, none⟩ else slot? m l := by
  obtain ⟨b, i⟩ := l
  unfold slot? pushSlot
  rw [region?_modifyRegion]
  by_cases hab : a = b
  · subst hab
    by_cases hi : i = r.slots.length
    · simp [hr, hi]
    · by_cases hlt : i < r.slots.length
      · simp [hr, hi, List.getElem?_append_left hlt]
      · simp [hr, hi, List.getElem?_append_right (Nat.le_of_not_lt hlt), List.getElem?_eq_none (Nat.le_of_not_lt hlt)]
        omega
  · simp [hab, Ne.symm hab]

theorem slot?_truncate (m : Memory T V) (a n : ℕ) (l : Loc) :
    slot? (truncate m a n) l = if l.region = a ∧ n ≤ l.index then none else slot? m l := by
  unfold slot? truncate
  rw [region?_modifyRegion]
  by_cases ha : a = l.region
  · subst ha
    cases hr : region? m l.region with
    | none => simp
    | some r =>
      by_cases hn : n ≤ l.index
      · simp [hn]
      · simp [hn, Nat.lt_of_not_le hn]
  · rw [if_neg ha, if_neg fun h ↦ ha h.1.symm]

theorem region?_setCount (m : Memory T V) (a b : ℕ) (n : ℤ) :
    region? (setCount m a n) b = if a = b then (region? m b).map fun r ↦ { r with count := some n }
    else region? m b :=
  region?_modifyRegion m a b _

@[simp] theorem slot?_setCount (m : Memory T V) (a : ℕ) (n : ℤ) (l : Loc) :
    slot? (setCount m a n) l = slot? m l := by
  unfold slot?
  rw [region?_setCount]
  split_ifs <;> cases region? m l.region <;> rfl

theorem count?_setCount {m : Memory T V} {a : ℕ} {r : Region T V} (h : region? m a = some r) (n : ℤ) (b : ℕ) :
    count? (setCount m a n) b = if a = b then some n else count? m b := by
  unfold count?
  rw [region?_setCount]
  by_cases heq : a = b
  · subst heq
    simp [h]
  · simp [heq]

@[simp] theorem isBlock_write {m : Memory T V} {l : Loc} {obj : Option V} {b : ℕ} :
    IsBlock (write m l obj) b ↔ IsBlock m b := by
  simp [IsBlock]

theorem isBlock_setCount {m : Memory T V} {a : ℕ} {n k : ℤ} (h : count? m a = some k) {b : ℕ} :
    IsBlock (setCount m a n) b ↔ IsBlock m b := by
  obtain ⟨r, hr, -⟩ := count?_eq_some.mp h
  unfold IsBlock
  rw [count?_setCount hr]
  split_ifs with hab
  · subst hab
    simp [h]
  · rfl

theorem count?_free (m : Memory T V) (a b : ℕ) :
    count? (free m a) b = if a = b then none else count? m b := by
  unfold count?
  rw [region?_free]
  split_ifs <;> rfl

theorem count?_alloc (m : Memory T V) (r : Region T V) (b : ℕ) :
    count? (alloc m r) b = if b = m.length then r.count else count? m b := by
  unfold count?
  rw [region?_alloc]
  split_ifs <;> rfl

theorem slot?_alloc (m : Memory T V) (r : Region T V) (l : Loc) :
    slot? (alloc m r) l = if l.region = m.length then r.slots[l.index]? else slot? m l := by
  unfold slot?
  rw [region?_alloc]
  split_ifs <;> rfl

/-! ## Sums over a list -/

section Sums

variable {α : Type} (f : α → ℕ)

theorem sum_map_modify (g : α → α) {l : List α} {i : ℕ} {x : α} (h : l[i]? = some x) :
    ((l.modify i g).map f).sum + f x = (l.map f).sum + f (g x) := by
  induction l generalizing i with
  | nil => simp at h
  | cons y l ih =>
    cases i with
    | zero =>
      cases Option.some.inj h
      simp only [List.modify_zero_cons, List.map_cons, List.sum_cons]
      omega
    | succ i =>
      have hsum := ih h
      simp only [List.modify_succ_cons, List.map_cons, List.sum_cons]
      omega

theorem sum_map_set {l : List α} {i : ℕ} {x : α} (h : l[i]? = some x) (y : α) :
    ((l.set i y).map f).sum + f x = (l.map f).sum + f y := by
  induction l generalizing i with
  | nil => simp at h
  | cons z l ih =>
    cases i with
    | zero =>
      cases Option.some.inj h
      simp only [List.set_cons_zero, List.map_cons, List.sum_cons]
      omega
    | succ i =>
      have hsum := ih h
      simp only [List.set_cons_succ, List.map_cons, List.sum_cons]
      omega

theorem sum_map_pos {l : List α} : 0 < (l.map f).sum ↔ ∃ (i : ℕ) (x : α), l[i]? = some x ∧ 0 < f x := by
  induction l with
  | nil => simp
  | cons y l ih =>
    rw [List.map_cons, List.sum_cons]
    constructor
    · intro hpos
      by_cases hy : 0 < f y
      · exact ⟨0, y, rfl, hy⟩
      · obtain ⟨i, x, hi, hx⟩ := ih.mp (by omega)
        exact ⟨i + 1, x, hi, hx⟩
    · rintro ⟨i, x, hi, hx⟩
      cases i with
      | zero =>
        cases Option.some.inj hi
        omega
      | succ i =>
        have hsum := ih.mpr ⟨i, x, hi, hx⟩
        omega

end Sums

/-! ## Regions that keep their slots -/

/-- The regions that are left have their old slots. -/
def Kept (m m' : Memory T V) : Prop :=
  ∀ b r', region? m' b = some r' →
    ∃ r, region? m b = some r ∧ r'.type = r.type ∧ r'.slots = r.slots ∧ r'.count.isSome = r.count.isSome

theorem Kept.trans {m m' m'' : Memory T V} (h : Kept m m') (h' : Kept m' m'') : Kept m m'' := by
  intro b r'' hr''
  obtain ⟨r', hr', htype', hslots', hcount'⟩ := h' b r'' hr''
  obtain ⟨r, hr, htype, hslots, hcount⟩ := h b r' hr'
  exact ⟨r, hr, htype'.trans htype, hslots'.trans hslots, hcount'.trans hcount⟩

theorem Kept.refl (m : Memory T V) : Kept m m := fun _ r hr ↦ ⟨r, hr, rfl, rfl, rfl⟩

theorem Kept.slot? {m m' : Memory T V} (h : Kept m m') {l : Loc} {s : Slot T V} (hs : slot? m' l = some s) :
    slot? m l = some s := by
  obtain ⟨r', hr', hindex⟩ := slot?_eq_some.mp hs
  obtain ⟨r, hr, -, hslots, -⟩ := h l.region r' hr'
  exact slot?_eq_some.mpr ⟨r, hr, hslots ▸ hindex⟩

theorem IsBlock.of_kept {m m' : Memory T V} {b : ℕ} (h : Kept m m') (hb : IsBlock m' b) : IsBlock m b := by
  obtain ⟨n, hn⟩ := hb
  obtain ⟨r', hr', hcount⟩ := count?_eq_some.mp hn
  obtain ⟨r, hr, -, -, hsome⟩ := h b r' hr'
  rw [hcount] at hsome
  obtain ⟨k, hk⟩ := Option.isSome_iff_exists.mp hsome.symm
  exact ⟨k, count?_eq_some.mpr ⟨r, hr, hk⟩⟩

theorem IsBlock.kept_of_slot {m m' : Memory T V} {l : Loc} {s : Slot T V} (hb : IsBlock m l.region) (h : Kept m m')
    (hs : slot? m' l = some s) : IsBlock m' l.region := by
  obtain ⟨n, hn⟩ := hb
  obtain ⟨r, hr, hcount⟩ := count?_eq_some.mp hn
  obtain ⟨r', hr', -⟩ := slot?_eq_some.mp hs
  obtain ⟨r₀, hr₀, -, -, hsome⟩ := h _ r' hr'
  cases hr.symm.trans hr₀
  rw [hcount] at hsome
  obtain ⟨k, hk⟩ := Option.isSome_iff_exists.mp hsome
  exact ⟨k, count?_eq_some.mpr ⟨r', hr', hk⟩⟩

theorem Kept.setCount {m : Memory T V} {a : ℕ} {n k : ℤ} (h : count? m a = some k) : Kept m (setCount m a n) := by
  intro b r' hr'
  rw [region?_setCount] at hr'
  split_ifs at hr' with heq
  · subst heq
    obtain ⟨r, hr, hcount⟩ := count?_eq_some.mp h
    rw [hr] at hr'
    cases hr'
    exact ⟨r, hr, rfl, rfl, by rw [hcount]; rfl⟩
  · exact ⟨r', hr', rfl, rfl, rfl⟩

/-! ## The number of blocks in use -/

def inUse (r : Option (Region T V)) : ℕ :=
  (r.bind Region.count).elim 0 fun n ↦ if n ≤ 0 then 0 else 1

/-- The number of blocks with a positive count. -/
def held (m : Memory T V) : ℕ := (m.map inUse).sum

theorem held_le_length (m : Memory T V) : held m ≤ m.length := by
  induction m with
  | nil => exact Nat.le_refl _
  | cons r m ih =>
    have hone : inUse r ≤ 1 := by
      unfold inUse
      cases r.bind Region.count with
      | none => exact Nat.zero_le _
      | some n =>
        simp only [Option.elim_some]
        split_ifs <;> omega
    simp only [held, List.map_cons, List.sum_cons, List.length_cons] at ih ⊢
    omega

theorem held_modifyRegion {m : Memory T V} {a : ℕ} {r : Region T V} (h : region? m a = some r)
    (f : Region T V → Region T V) :
    held (modifyRegion m a f) + inUse (some r) = held m + inUse (some (f r)) :=
  sum_map_modify inUse _ (getElem?_of_region? h)

theorem held_write (m : Memory T V) (l : Loc) (obj : Option V) : held (write m l obj) = held m := by
  unfold write modifyRegion
  cases h : m[l.region]? with
  | none => rw [List.modify_eq_self (List.getElem?_eq_none_iff.mp h)]
  | some r =>
    have hsum := sum_map_modify inUse (Option.map fun r : Region T V ↦
      { r with slots := r.slots.modify l.index fun s ↦ { s with obj } }) h
    have hsame : inUse (r.map fun r : Region T V ↦ { r with slots := r.slots.modify l.index fun s ↦ { s with obj } }) =
        inUse r := by cases r <;> rfl
    unfold held
    omega

theorem held_setCount {m : Memory T V} {a : ℕ} {n k : ℤ} (h : count? m a = some k) :
    held (setCount m a n) + (if k ≤ 0 then 0 else 1) = held m + (if n ≤ 0 then 0 else 1) := by
  obtain ⟨r, hr, hcount⟩ := count?_eq_some.mp h
  have hsum := held_modifyRegion hr fun r ↦ { r with count := some n }
  simpa [setCount, inUse, hcount] using hsum

theorem held_free_le (m : Memory T V) (a : ℕ) : held (free m a) ≤ held m := by
  unfold held free
  cases h : m[a]? with
  | none => rw [List.set_eq_of_length_le (List.getElem?_eq_none_iff.mp h)]
  | some r =>
    have hsum := sum_map_set inUse h none
    simp only [inUse, Option.bind_none, Option.elim_none] at hsum ⊢
    omega

/-! ## Counting references -/

variable [Pointer V]

/-- Whether a live object in the slot points to the region. -/
def pointsTo (a : ℕ) (s : Slot T V) : ℕ := if s.obj.bind ptr = some a then 1 else 0

def regionRefs (a : ℕ) (r : Option (Region T V)) : ℕ :=
  r.elim 0 fun r ↦ (r.slots.map (pointsTo a)).sum

/-- The number of live objects that point to the region. -/
def refs (m : Memory T V) (a : ℕ) : ℕ := (m.map (regionRefs a)).sum

theorem refs_pos {m : Memory T V} {a : ℕ} :
    0 < refs m a ↔ ∃ l s, slot? m l = some s ∧ s.obj.bind ptr = some a := by
  unfold refs
  rw [sum_map_pos]
  constructor
  · rintro ⟨b, r, hb, hr⟩
    cases r with
    | none => simp [regionRefs] at hr
    | some r =>
      obtain ⟨i, s, hs, hpos⟩ := (sum_map_pos _).mp hr
      refine ⟨⟨b, i⟩, s, slot?_eq_some.mpr ⟨r, by simp [region?, hb], hs⟩, ?_⟩
      by_contra hne
      simp [pointsTo, hne] at hpos
  · rintro ⟨l, s, hl, hs⟩
    obtain ⟨r, hr, hslot⟩ := slot?_eq_some.mp hl
    exact ⟨l.region, some r, getElem?_of_region? hr, (sum_map_pos _).mpr ⟨l.index, s, hslot, by simp [pointsTo, hs]⟩⟩

theorem refs_modifyRegion {m : Memory T V} {b : ℕ} {r : Region T V} (hr : region? m b = some r)
    (f : Region T V → Region T V) (a : ℕ) :
    refs (modifyRegion m b f) a + (r.slots.map (pointsTo a)).sum = refs m a + ((f r).slots.map (pointsTo a)).sum :=
  sum_map_modify (regionRefs a) (Option.map f) (getElem?_of_region? hr)

theorem refs_write {m : Memory T V} {l : Loc} {s : Slot T V} (h : slot? m l = some s) (obj : Option V) (a : ℕ) :
    refs (write m l obj) a + pointsTo a s = refs m a + pointsTo a { s with obj } := by
  obtain ⟨r, hr, hs⟩ := slot?_eq_some.mp h
  have hregions := refs_modifyRegion hr (fun r ↦ { r with slots := r.slots.modify l.index fun s ↦ { s with obj } }) a
  have hslots := sum_map_modify (pointsTo a) (fun s : Slot T V ↦ { s with obj }) hs
  unfold write
  simp only at hregions hslots ⊢
  omega

theorem refs_pushSlot {m : Memory T V} {b : ℕ} {r : Region T V} (hr : region? m b = some r) (type : T) (a : ℕ) :
    refs (pushSlot m b type) a = refs m a := by
  have hregions := refs_modifyRegion hr (fun r ↦ { r with slots := r.slots ++ [⟨type, none⟩] }) a
  simp [pointsTo] at hregions
  exact hregions

theorem refs_truncate {m : Memory T V} {b : ℕ} {r : Region T V} (hr : region? m b = some r) (n a : ℕ) :
    refs (truncate m b n) a + ((r.slots.drop n).map (pointsTo a)).sum = refs m a := by
  have hregions := refs_modifyRegion hr (fun r ↦ { r with slots := r.slots.take n }) a
  have hsplit : (r.slots.map (pointsTo a)).sum =
      ((r.slots.take n).map (pointsTo a)).sum + ((r.slots.drop n).map (pointsTo a)).sum := by
    rw [← List.sum_append, ← List.map_append, List.take_append_drop]
  unfold truncate
  simp only at hregions
  omega

@[simp] theorem refs_setCount (m : Memory T V) (b : ℕ) (n : ℤ) (a : ℕ) : refs (setCount m b n) a = refs m a := by
  unfold setCount modifyRegion
  cases h : m[b]? with
  | none => rw [List.modify_eq_self (List.getElem?_eq_none_iff.mp h)]
  | some r =>
    have hregions := sum_map_modify (regionRefs a)
      (Option.map fun r : Region T V ↦ { r with count := some n }) h
    have hsame : regionRefs a (r.map fun r ↦ { r with count := some n }) = regionRefs a r := by cases r <;> rfl
    unfold refs
    omega

theorem refs_free {m : Memory T V} {b : ℕ} {r : Region T V} (h : region? m b = some r) (a : ℕ) :
    refs (free m b) a + (r.slots.map (pointsTo a)).sum = refs m a := by
  have hregions := sum_map_set (regionRefs a) (getElem?_of_region? h) none
  simpa [refs, free, regionRefs] using hregions

theorem refs_alloc (m : Memory T V) (r : Region T V) (a : ℕ) :
    refs (alloc m r) a = refs m a + (r.slots.map (pointsTo a)).sum := by
  simp [refs, alloc, regionRefs]

/-- Regions that keep their slots hold no new references. -/
theorem Kept.refs_le {m m' : Memory T V} (h : Kept m m') (hlength : m'.length = m.length) (a : ℕ) :
    refs m' a ≤ refs m a := by
  apply List.Forall₂.sum_le_sum
  rw [List.forall₂_map_left_iff, List.forall₂_map_right_iff, List.forall₂_iff_get]
  refine ⟨hlength, fun i hi' hi ↦ ?_⟩
  simp only [List.get_eq_getElem]
  cases hr' : m'[i] with
  | none => exact Nat.zero_le _
  | some r' =>
    have hregion' : region? m' i = some r' := by
      rw [region?, List.getElem?_eq_getElem hi', hr']
      rfl
    obtain ⟨r, hregion, -, hslots, -⟩ := h i r' hregion'
    have hr : m[i] = some r := by
      have hget := getElem?_of_region? hregion
      rw [List.getElem?_eq_getElem hi] at hget
      exact Option.some.inj hget
    rw [hr, regionRefs, regionRefs, Option.elim_some, Option.elim_some, hslots]

end Stela.Library.Regions
