import Mathlib.Logic.Relation
import Stela.Library.Regions

/-!
# Reference counting

`Counted m pending dying` says that the count of every block is the number of live objects that
point to it, where `pending` lists pointers that the running operation has taken out of an object
and still has to release or to store. Blocks that are being destroyed (`dying`) have no references
left. The rules follow the primitive steps of an operation: writing an object, changing a count,
allocating and freeing.
-/

namespace Stela.Library.RefCount

open Stela.Library.Regions

variable {T V : Type} [Pointer V] {m m' : Memory T V} {pending : List (Option ℕ)} {dying : ℕ → Prop}

structure Counted (m : Memory T V) (pending : List (Option ℕ)) (dying : ℕ → Prop) : Prop where
  counted : ∀ a n, count? m a = some n → n = (refs m a + pending.count (some a) : ℕ)
  positive : ∀ a n, count? m a = some n → ¬dying a → 1 ≤ n
  valid : ∀ a, 0 < refs m a ∨ some a ∈ pending → ∃ n, count? m a = some n

/-- A pending pointer is to a block with a positive count. -/
theorem Counted.count?_pending {a : ℕ} (h : Counted m (some a :: pending) dying) : ∃ n, count? m a = some n ∧ 1 ≤ n := by
  obtain ⟨n, hn⟩ := h.valid a (.inr List.mem_cons_self)
  have hcount := h.counted a n hn
  rw [List.count_cons_self] at hcount
  exact ⟨n, hn, by omega⟩

theorem Counted.drop_none (h : Counted m (none :: pending) dying) : Counted m pending dying where
  counted a n hn := by simpa using h.counted a n hn
  positive := h.positive
  valid a ha := h.valid a (ha.imp_right (List.mem_cons_of_mem _))

theorem Counted.cons_none (h : Counted m pending dying) : Counted m (none :: pending) dying where
  counted a n hn := by simpa using h.counted a n hn
  positive := h.positive
  valid a ha := h.valid a (by simpa using ha)

theorem Counted.perm {pending' : List (Option ℕ)} (hperm : pending.Perm pending') (h : Counted m pending dying) :
    Counted m pending' dying where
  counted a n hn := by rw [← hperm.count_eq, h.counted a n hn]
  positive := h.positive
  valid a ha := h.valid a (ha.imp_right hperm.mem_iff.mpr)

theorem Counted.drop_nones {ps : List (Option ℕ)} (hps : ∀ p ∈ ps, p = none) (h : Counted m (ps ++ pending) dying) :
    Counted m pending dying := by
  induction ps with
  | nil => exact h
  | cons p ps ih =>
    obtain rfl := hps p List.mem_cons_self
    exact ih (fun q hq ↦ hps q (List.mem_cons_of_mem _ hq)) h.drop_none

theorem Counted.append_none {ps : List (Option ℕ)} (hps : ∀ p ∈ ps, p = none) (h : Counted m pending dying) :
    Counted m (ps ++ pending) dying := by
  induction ps with
  | nil => exact h
  | cons p ps ih =>
    obtain rfl := hps p List.mem_cons_self
    exact (ih fun q hq ↦ hps q (List.mem_cons_of_mem _ hq)).cons_none

/-- A pending pointer is stored in a slot, and the pointer that was there becomes pending. -/
theorem Counted.write {l : Loc} {s : Slot T V} (hs : slot? m l = some s) (obj : Option V)
    (h : Counted m (obj.bind ptr :: pending) dying) : Counted (write m l obj) (s.obj.bind ptr :: pending) dying := by
  have hrefs (a : ℕ) : refs (Regions.write m l obj) a + (s.obj.bind ptr :: pending).count (some a) =
      refs m a + (obj.bind ptr :: pending).count (some a) := by
    have hwrite := refs_write hs obj a
    simp only [pointsTo, List.count_cons, beq_iff_eq] at hwrite ⊢
    omega
  constructor
  · intro a n hn
    rw [count?_write] at hn
    rw [h.counted a n hn, hrefs]
  · intro a n hn
    rw [count?_write] at hn
    exact h.positive a n hn
  · intro a ha
    rw [count?_write]
    have hpos : 0 < refs (Regions.write m l obj) a + (s.obj.bind ptr :: pending).count (some a) := by
      obtain hpos | hmem := ha
      · omega
      · have hcount := List.count_pos_iff.mpr hmem
        omega
    rw [hrefs] at hpos
    refine h.valid a ?_
    by_cases hzero : refs m a = 0
    · exact .inr (List.count_pos_iff.mp (by omega))
    · exact .inl (Nat.pos_of_ne_zero hzero)

/-- The count of a block tells whether a pointer to it is still pending. -/
theorem Counted.not_drop {a : ℕ} (h : Counted m (some a :: pending) dying) : ¬Counted m pending dying := by
  intro h'
  obtain ⟨n, hn, -⟩ := h.count?_pending
  have hcount := h.counted a n hn
  have hcount' := h'.counted a n hn
  rw [List.count_cons_self] at hcount
  omega

/-- Only the counts and the numbers of references matter. -/
theorem Counted.congr (hcount : ∀ a, count? m' a = count? m a) (hrefs : ∀ a, refs m' a = refs m a)
    (h : Counted m pending dying) : Counted m' pending dying := by
  refine ⟨fun a n hn ↦ ?_, fun a n hn ↦ ?_, fun a ha ↦ ?_⟩
  · rw [hcount] at hn
    rw [h.counted a n hn, hrefs]
  · rw [hcount] at hn
    exact h.positive a n hn
  · rw [hrefs] at ha
    rw [hcount]
    exact h.valid a ha

/-- An object is overwritten by one with the same pointer. -/
theorem Counted.overwrite {l : Loc} {s : Slot T V} (hs : slot? m l = some s) {obj : Option V}
    (hptr : obj.bind ptr = s.obj.bind ptr) (h : Counted m pending dying) : Counted (Regions.write m l obj) pending dying := by
  refine h.congr (count?_write m l obj) fun a ↦ ?_
  have hwrite := refs_write hs obj a
  simp only [pointsTo, hptr] at hwrite
  omega

/-- A count goes up, for one more pending pointer. -/
theorem Counted.inc {a : ℕ} {n : ℤ} (hn : count? m a = some n) (h : Counted m pending dying) :
    Counted (setCount m a (n + 1)) (some a :: pending) dying := by
  obtain ⟨r, hr, -⟩ := count?_eq_some.mp hn
  have hcount := count?_setCount hr (n + 1)
  constructor
  · intro b k hk
    rw [hcount] at hk
    by_cases heq : a = b
    · subst heq
      have hold := h.counted a n hn
      simp only [if_true, Option.some.injEq] at hk
      simp only [refs_setCount, List.count_cons_self]
      omega
    · rw [if_neg heq] at hk
      have hne : some b ≠ some a := fun hab ↦ heq (Option.some.inj hab).symm
      rw [refs_setCount, List.count_cons_of_ne (Ne.symm hne)]
      exact h.counted b k hk
  · intro b k hk hdying
    rw [hcount] at hk
    by_cases heq : a = b
    · subst heq
      have hold := h.positive a n hn hdying
      simp only [if_true, Option.some.injEq] at hk
      omega
    · rw [if_neg heq] at hk
      exact h.positive b k hk hdying
  · intro b hb
    rw [hcount]
    by_cases heq : a = b
    · exact ⟨n + 1, if_pos heq⟩
    · rw [if_neg heq]
      have hne : some b ≠ some a := fun hab ↦ heq (Option.some.inj hab).symm
      rw [refs_setCount] at hb
      exact h.valid b (hb.imp_right fun hmem ↦ (List.mem_cons.mp hmem).resolve_left hne)

/-- A count goes down, for one less pending pointer; at zero the block is dying. -/
theorem Counted.dec {a : ℕ} {n : ℤ} (hn : count? m a = some n) (h : Counted m (some a :: pending) dying) :
    Counted (setCount m a (n - 1)) pending (fun b ↦ (b = a ∧ n - 1 = 0) ∨ dying b) := by
  obtain ⟨r, hr, -⟩ := count?_eq_some.mp hn
  have hcount := count?_setCount hr (n - 1)
  have hold := h.counted a n hn
  rw [List.count_cons_self] at hold
  constructor
  · intro b k hk
    rw [hcount] at hk
    by_cases heq : a = b
    · subst heq
      simp only [if_true, Option.some.injEq] at hk
      rw [refs_setCount]
      omega
    · rw [if_neg heq] at hk
      have hne : some b ≠ some a := fun hab ↦ heq (Option.some.inj hab).symm
      have hb := h.counted b k hk
      rw [List.count_cons_of_ne (Ne.symm hne)] at hb
      rw [refs_setCount, hb]
  · intro b k hk hdying
    rw [hcount] at hk
    by_cases heq : a = b
    · subst heq
      simp only [if_true, Option.some.injEq] at hk
      have hzero : n - 1 ≠ 0 := fun hzero ↦ hdying (.inl ⟨rfl, hzero⟩)
      omega
    · rw [if_neg heq] at hk
      exact h.positive b k hk fun hb ↦ hdying (.inr hb)
  · intro b hb
    rw [hcount]
    by_cases heq : a = b
    · exact ⟨n - 1, if_pos heq⟩
    · rw [if_neg heq]
      rw [refs_setCount] at hb
      exact h.valid b (hb.imp_right (List.mem_cons_of_mem _))

theorem Counted.congr_dying {dying' : ℕ → Prop} (h : Counted m pending dying) (hdying : ∀ b, dying b → dying' b) :
    Counted m pending dying' :=
  ⟨h.counted, fun a n hn hdead ↦ h.positive a n hn fun ha ↦ hdead (hdying a ha), h.valid⟩

/-- Nothing points to a block whose count is zero. -/
theorem Counted.unreferenced {a : ℕ} (h : Counted m pending dying) (ha : count? m a = some 0) :
    refs m a = 0 ∧ some a ∉ pending := by
  have hcounted := h.counted a 0 ha
  have hcount : pending.count (some a) = 0 := by omega
  exact ⟨by omega, List.count_eq_zero.mp hcount⟩

/-- A dying block is freed once its objects are gone. -/
theorem Counted.free {a : ℕ} {r : Region T V} (hr : region? m a = some r) (hzero : r.count = some 0)
    (hslots : ∀ s ∈ r.slots, s.obj = none) (h : Counted m pending (fun b ↦ b = a ∨ dying b)) :
    Counted (free m a) pending dying := by
  have hunreferenced := h.unreferenced (count?_eq_some.mpr ⟨r, hr, hzero⟩)
  have hrefs (b : ℕ) : refs (Regions.free m a) b = refs m b := by
    have hempty : (r.slots.map (pointsTo b)).sum = 0 := by
      refine Nat.eq_zero_of_not_pos fun hpos ↦ ?_
      obtain ⟨i, s, hs, hone⟩ := (sum_map_pos _).mp hpos
      simp [pointsTo, hslots s (List.mem_of_getElem? hs)] at hone
    have hfree := refs_free hr b
    omega
  constructor
  · intro b n hn
    rw [count?_free] at hn
    split_ifs at hn with heq
    rw [hrefs]
    exact h.counted b n hn
  · intro b n hn hdying
    rw [count?_free] at hn
    split_ifs at hn with heq
    exact h.positive b n hn fun hb ↦ hb.elim (fun hba ↦ heq hba.symm) hdying
  · intro b hb
    rw [hrefs] at hb
    have hne : a ≠ b := by
      rintro rfl
      obtain hpos | hmem := hb
      · omega
      · exact hunreferenced.2 hmem
    rw [count?_free, if_neg hne]
    exact h.valid b hb

theorem sum_pointsTo (slots : List (Slot T V)) (a : ℕ) :
    (slots.map (pointsTo a)).sum = (slots.map fun s ↦ s.obj.bind ptr).count (some a) := by
  induction slots with
  | nil => rfl
  | cons s slots ih =>
    simp only [List.map_cons, List.sum_cons, List.count_cons, beq_iff_eq, pointsTo, ih]
    omega

/-- The pointers of the objects that are removed from the end of a region become pending. -/
theorem Counted.truncate {a : ℕ} {r : Region T V} (hr : region? m a = some r) (n : ℕ) (h : Counted m pending dying) :
    Counted (truncate m a n) ((r.slots.drop n).map (fun s ↦ s.obj.bind ptr) ++ pending) dying := by
  have hrefs (b : ℕ) : refs (Regions.truncate m a n) b + ((r.slots.drop n).map fun s ↦ s.obj.bind ptr).count (some b) =
      refs m b := by
    rw [← sum_pointsTo]
    exact refs_truncate hr n b
  refine ⟨fun b k hk ↦ ?_, fun b k hk ↦ ?_, fun b hb ↦ ?_⟩
  · rw [count?_truncate] at hk
    rw [h.counted b k hk, List.count_append, ← hrefs b]
    omega
  · rw [count?_truncate] at hk
    exact h.positive b k hk
  · rw [count?_truncate]
    refine h.valid b ?_
    obtain hpos | hmem := hb
    · exact .inl (by have hb := hrefs b; omega)
    · obtain hmem | hmem := List.mem_append.mp hmem
      · have hpos := List.count_pos_iff.mpr hmem
        exact .inl (by have hb := hrefs b; omega)
      · exact .inr hmem

/-- A new block takes over the pending pointers of its objects, and a pointer to it is pending. -/
theorem Counted.alloc {r : Region T V} (hr : r.count = some 1)
    (h : Counted m (r.slots.map (fun s ↦ s.obj.bind ptr) ++ pending) dying) :
    Counted (alloc m r) (some m.length :: pending) dying := by
  have hslots (a : ℕ) := sum_pointsTo r.slots a
  have hfresh : count? m m.length = none := by
    cases hcount : count? m m.length with
    | none => rfl
    | some n =>
      obtain ⟨r', hr', -⟩ := count?_eq_some.mp hcount
      exact absurd (region?_lt hr') (Nat.lt_irrefl _)
  have hunused : refs m m.length = 0 ∧ some m.length ∉ r.slots.map (fun s ↦ s.obj.bind ptr) ++ pending := by
    constructor
    · refine Nat.eq_zero_of_not_pos fun hpos ↦ ?_
      obtain ⟨n, hn⟩ := h.valid _ (.inl hpos)
      simp [hfresh] at hn
    · intro hmem
      obtain ⟨n, hn⟩ := h.valid _ (.inr hmem)
      simp [hfresh] at hn
  have hcount (a : ℕ) (ha : a ≠ m.length) : (some m.length :: pending).count (some a) = pending.count (some a) :=
    List.count_cons_of_ne fun heq ↦ ha (Option.some.inj heq).symm
  constructor
  · intro a n hn
    rw [count?_alloc] at hn
    rw [refs_alloc, hslots]
    by_cases ha : a = m.length
    · subst ha
      rw [if_pos rfl, hr] at hn
      have hnone := List.count_eq_zero.mpr hunused.2
      rw [List.count_append] at hnone
      rw [List.count_cons_self, hunused.1]
      cases hn
      omega
    · rw [if_neg ha] at hn
      have hold := h.counted a n hn
      rw [List.count_append] at hold
      rw [hcount a ha]
      omega
  · intro a n hn hdying
    rw [count?_alloc] at hn
    by_cases ha : a = m.length
    · rw [if_pos ha, hr] at hn
      cases hn
      exact Int.le_refl 1
    · rw [if_neg ha] at hn
      exact h.positive a n hn hdying
  · intro a ha
    rw [count?_alloc]
    by_cases heq : a = m.length
    · exact ⟨1, by rw [if_pos heq, hr]⟩
    · rw [if_neg heq]
      rw [refs_alloc, hslots] at ha
      refine h.valid a ?_
      obtain hpos | hmem := ha
      · by_cases hzero : refs m a = 0
        · refine .inr (List.mem_append_left _ (List.count_pos_iff.mp ?_))
          omega
        · exact .inl (Nat.pos_of_ne_zero hzero)
      · obtain heq' | hmem := List.mem_cons.mp hmem
        · exact absurd (Option.some.inj heq') heq
        · exact .inr (List.mem_append_right _ hmem)

/-- A region that is not counted, such as a new variable, comes without live objects. -/
theorem Counted.alloc_uncounted {r : Region T V} (hr : r.count = none) (hslots : ∀ s ∈ r.slots, s.obj = none)
    (h : Counted m pending dying) : Counted (Regions.alloc m r) pending dying := by
  have hrefs (a : ℕ) : refs (Regions.alloc m r) a = refs m a := by
    have hempty : (r.slots.map (pointsTo a)).sum = 0 := by
      refine Nat.eq_zero_of_not_pos fun hpos ↦ ?_
      obtain ⟨i, s, hs, hone⟩ := (sum_map_pos _).mp hpos
      simp [pointsTo, hslots s (List.mem_of_getElem? hs)] at hone
    rw [refs_alloc, hempty, Nat.add_zero]
  have hcount (a : ℕ) (n : ℤ) : count? (Regions.alloc m r) a = some n → count? m a = some n := by
    rw [count?_alloc, hr]
    split_ifs
    · intro hn
      cases hn
    · exact id
  refine ⟨fun a n hn ↦ ?_, fun a n hn ↦ h.positive a n (hcount a n hn), fun a ha ↦ ?_⟩
  · rw [hrefs]
    exact h.counted a n (hcount a n hn)
  · rw [hrefs] at ha
    obtain ⟨n, hn⟩ := h.valid a ha
    obtain ⟨r', hr', -⟩ := count?_eq_some.mp hn
    have hlt := region?_lt hr'
    exact ⟨n, by rw [count?_alloc, if_neg (by omega), hn]⟩

/-- The counts agree with the objects, and a block is there exactly as long as there are any that
point to it. -/
structure CountsExact (m : Memory T V) : Prop where
  count : ∀ a n, count? m a = some n → n = refs m a
  alive : ∀ a, IsBlock m a ↔ 0 < refs m a

theorem Counted.exact (h : Counted m [] (fun _ ↦ False)) : CountsExact m := by
  refine ⟨fun a n hn ↦ by simpa using h.counted a n hn, fun a ↦ ⟨fun ⟨n, hn⟩ ↦ ?_, fun hpos ↦ h.valid a (.inl hpos)⟩⟩
  have hcount := h.counted a n hn
  have hpos := h.positive a n hn id
  simp only [List.count_nil] at hcount
  omega

theorem Counted.isBlock_of_slot {l : Loc} {s : Slot T V} (h : Counted m pending dying) (hs : slot? m l = some s)
    {a : ℕ} (ha : s.obj.bind ptr = some a) : IsBlock m a :=
  h.valid a (.inl (refs_pos.mpr ⟨l, s, hs, ha⟩))

/-! ## What a release leaves alone -/

/-- The blocks in `P` have an owner that stays: a pending pointer or an object in `P`. -/
def Owned (m : Memory T V) (pending : List (Option ℕ)) (P : ℕ → Prop) : Prop :=
  ∀ b, P b → count? m b = none ∨ some b ∈ pending ∨
    ∃ l s, P l.region ∧ slot? m l = some s ∧ s.obj.bind ptr = some b

/-- The region has a live object in every slot. -/
def Complete (m : Memory T V) (b : ℕ) : Prop :=
  ∀ r, region? m b = some r → ∀ s ∈ r.slots, s.obj.isSome

omit [Pointer V] in
theorem complete_iff {b : ℕ} : Complete m b ↔ ∀ i s, slot? m ⟨b, i⟩ = some s → s.obj.isSome := by
  constructor
  · intro h i s hs
    obtain ⟨r, hr, hindex⟩ := slot?_eq_some.mp hs
    exact h r hr s (List.mem_of_getElem? hindex)
  · intro h r hr s hs
    obtain ⟨i, hi⟩ := List.mem_iff_getElem?.mp hs
    exact h i s (slot?_eq_some.mpr ⟨r, hr, hi⟩)

omit [Pointer V] in
/-- A block that is left has its old objects. -/
theorem Complete.of_kept {b : ℕ} (h : Complete m' b) (hkept : Kept m m') (hb : IsBlock m' b) : Complete m b := by
  obtain ⟨n, hn⟩ := hb
  obtain ⟨r', hr', -⟩ := count?_eq_some.mp hn
  obtain ⟨r, hr, -, hslots, -⟩ := hkept b r' hr'
  intro r₀ hr₀ s hs
  cases hr.symm.trans hr₀
  exact h r' hr' s (hslots ▸ hs)

/-- A block that may be destroyed has a live object in every slot. -/
def Ready (m : Memory T V) (P : ℕ → Prop) : Prop :=
  ∀ b n, ¬P b → count? m b = some n → n ≠ 0 → Complete m b

omit [Pointer V] in
/-- From one memory to the other, objects of `P` and of blocks with the count zero stay. -/
structure Spares (P : ℕ → Prop) (m m' : Memory T V) : Prop where
  kept : Kept m m'
  stays : ∀ b r, P b ∨ r.count = some 0 → region? m b = some r →
    ∃ r', region? m' b = some r' ∧ r'.slots = r.slots ∧ (r.count = some 0 → r'.count = some 0)

variable {P : ℕ → Prop}

omit [Pointer V] in
theorem Spares.refl (P : ℕ → Prop) (m : Memory T V) : Spares P m m :=
  ⟨.refl m, fun _ r _ hr ↦ ⟨r, hr, rfl, id⟩⟩

omit [Pointer V] in
theorem Spares.trans {m'' : Memory T V} (h : Spares P m m') (h' : Spares P m' m'') : Spares P m m'' := by
  refine ⟨h.kept.trans h'.kept, fun b r hb hr ↦ ?_⟩
  obtain ⟨r', hr', hslots, hzero⟩ := h.stays b r hb hr
  obtain ⟨r'', hr'', hslots', hzero'⟩ := h'.stays b r' (hb.imp_right hzero) hr'
  exact ⟨r'', hr'', hslots'.trans hslots, fun h0 ↦ hzero' (hzero h0)⟩

omit [Pointer V] in
theorem Spares.free (h : Spares P m m') (a : ℕ) : Spares P (free m a) (free m' a) := by
  constructor
  · intro b r' hr'
    rw [region?_free] at hr' ⊢
    split_ifs at hr' ⊢
    exact h.kept b r' hr'
  · intro b r hb hr
    rw [region?_free] at hr ⊢
    split_ifs at hr ⊢
    exact h.stays b r hb hr

omit [Pointer V] in
theorem Spares.slot? (h : Spares P m m') {l : Loc} (hl : P l.region) : slot? m' l = slot? m l := by
  unfold Regions.slot?
  cases hr : region? m l.region with
  | some r =>
    obtain ⟨r', hr', hslots, -⟩ := h.stays _ r (.inl hl) hr
    simp [hr', hslots]
  | none =>
    cases hr' : region? m' l.region with
    | none => rfl
    | some r' =>
      obtain ⟨r, hr'', -⟩ := h.kept _ r' hr'
      simp [hr] at hr''

omit [Pointer V] in
theorem Spares.isBlock (h : Spares P m m') {b : ℕ} (hb : P b) (hblock : IsBlock m b) : IsBlock m' b := by
  obtain ⟨n, hn⟩ := hblock
  obtain ⟨r, hr, hcount⟩ := count?_eq_some.mp hn
  obtain ⟨r', hr', -⟩ := h.stays b r (.inl hb) hr
  obtain ⟨r₀, hr₀, -, -, hsome⟩ := h.kept b r' hr'
  cases hr.symm.trans hr₀
  rw [hcount] at hsome
  obtain ⟨k, hk⟩ := Option.isSome_iff_exists.mp hsome
  exact ⟨k, count?_eq_some.mpr ⟨r', hr', hk⟩⟩

omit [Pointer V] in
/-- The count of a block in use may change while it stays positive. -/
theorem spares_setCount {a : ℕ} {n k : ℤ} (hn : count? m a = some n) (hzero : n ≠ 0) : Spares P m (setCount m a k) := by
  refine ⟨.setCount hn, fun b r _ hr ↦ ?_⟩
  rw [region?_setCount]
  split_ifs with hab
  · subst hab
    rw [hr]
    refine ⟨_, rfl, rfl, fun h0 ↦ ?_⟩
    rw [count?_eq_some.mpr ⟨r, hr, h0⟩] at hn
    exact absurd (Option.some.inj hn).symm hzero
  · exact ⟨r, hr, rfl, id⟩

omit [Pointer V] in
/-- A block in use that nothing in `P` holds may be freed. -/
theorem spares_free {a : ℕ} {n : ℤ} (hn : count? m a = some n) (hzero : n ≠ 0) (ha : ¬P a) : Spares P m (free m a) := by
  refine ⟨fun b r hr ↦ ?_, fun b r₀ hb hr₀ ↦ ?_⟩
  · rw [region?_free] at hr
    split_ifs at hr
    exact ⟨r, hr, rfl, rfl, rfl⟩
  · have hab : a ≠ b := by
      rintro rfl
      obtain ⟨r, hr, hcount⟩ := count?_eq_some.mp hn
      cases hr.symm.trans hr₀
      rw [hcount, Option.some.injEq] at hb
      exact hb.elim ha hzero
    exact ⟨r₀, by rw [region?_free, if_neg hab, hr₀], rfl, id⟩

theorem Owned.mono {pending' : List (Option ℕ)} (h : Owned m pending P) (hsub : pending ⊆ pending') :
    Owned m pending' P :=
  fun b hb ↦ (h b hb).imp_right (Or.imp_left (@hsub _))

theorem Owned.spares (h : Owned m pending P) (hspares : Spares P m m') : Owned m' pending P := by
  intro b hb
  obtain hnone | hmem | ⟨l, s, hl, hs, hptr⟩ := h b hb
  · refine .inl (Option.eq_none_iff_forall_ne_some.mpr fun n hn ↦ ?_)
    obtain ⟨k, hk⟩ := IsBlock.of_kept hspares.kept ⟨n, hn⟩
    simp [hnone] at hk
  · exact .inr (.inl hmem)
  · exact .inr (.inr ⟨l, s, hl, by rw [hspares.slot? hl, hs], hptr⟩)

omit [Pointer V] in
theorem Ready.spares (h : Ready m P) (hspares : Spares P m m') : Ready m' P := by
  intro b n hb hn hzero r' hr' s hs
  obtain ⟨r, hr, -, hslots, -⟩ := hspares.kept b r' hr'
  obtain ⟨k, hk⟩ := IsBlock.of_kept hspares.kept ⟨n, hn⟩
  refine h b k hb hk (fun hk0 ↦ hzero ?_) r hr s (hslots ▸ hs)
  obtain ⟨r₁, hr₁, hcount⟩ := count?_eq_some.mp hk
  obtain ⟨r₂, hr₂, -, hcount₂⟩ := hspares.stays b r₁ (.inr (hk0 ▸ hcount)) hr₁
  rw [count?_eq_some.mpr ⟨r₂, hr₂, hcount₂ (hk0 ▸ hcount)⟩] at hn
  exact (Option.some.inj hn).symm

theorem Owned.write_none (h : Owned m pending P) {l : Loc} (hl : ¬P l.region) : Owned (write m l none) pending P := by
  intro b hb
  rw [count?_write]
  refine (h b hb).imp_right (Or.imp_right fun ⟨k, s, hk, hs, hptr⟩ ↦ ⟨k, s, hk, ?_, hptr⟩)
  have hne : l ≠ k := by
    rintro rfl
    exact hl hk
  rw [slot?_write, if_neg hne, hs]

omit [Pointer V] in
theorem Ready.write_none (h : Ready m P) {l : Loc} (hl : count? m l.region = some 0) : Ready (write m l none) P := by
  intro b n hb hn hzero r hr
  rw [count?_write] at hn
  have hne : l.region ≠ b := by
    rintro rfl
    rw [hl] at hn
    exact hzero (Option.some.inj hn).symm
  rw [region?_write, if_neg hne] at hr
  exact h b n hb hn hzero r hr

/-- The last pointer to a block that is released is not to a block in `P`. -/
theorem Owned.not_last {a : ℕ} (h : Owned m pending P) (hcounted : Counted m (some a :: pending) dying)
    (hn : count? m a = some 1) : ¬P a := by
  intro ha
  have hcount := hcounted.counted a 1 hn
  rw [List.count_cons_self] at hcount
  obtain hnone | hmem | ⟨l, s, -, hs, hptr⟩ := h a ha
  · simp [hnone] at hn
  · have hpos := List.count_pos_iff.mpr hmem
    omega
  · have hpos := refs_pos.mpr ⟨l, s, hs, hptr⟩
    omega

/-! ## What dies with an object -/

/-- The blocks that are freed when the object in a slot is released: all other objects that point
to such a block are in blocks that are freed before. -/
inductive Dies (m : Memory T V) (l : Loc) (pending : List (Option ℕ)) : ℕ → Prop where
  | intro {b : ℕ} {n : ℤ} (hn : count? m b = some n) (hpending : some b ∉ pending)
      (howners : ∀ k s, slot? m k = some s → s.obj.bind ptr = some b → k ≠ l → Dies m l pending k.region) :
      Dies m l pending b

theorem Dies.isBlock {l : Loc} {b : ℕ} (h : Dies m l pending b) : IsBlock m b := by
  cases h with
  | intro hn _ _ => exact ⟨_, hn⟩

theorem not_dies_of_uncounted {l : Loc} {b : ℕ} (h : count? m b = none) : ¬Dies m l pending b := by
  intro hdies
  obtain ⟨n, hn⟩ := hdies.isBlock
  cases h.symm.trans hn

theorem Dies.mono {l : Loc} {pending' : List (Option ℕ)} {b : ℕ} (h : Dies m' l pending' b)
    (hblock : ∀ b, IsBlock m' b → IsBlock m b) (hpending : ∀ b, some b ∈ pending → some b ∈ pending')
    (hptr : ∀ k s, slot? m k = some s → ∃ s', slot? m' k = some s' ∧ s'.obj.bind ptr = s.obj.bind ptr) :
    Dies m l pending b := by
  induction h with
  | intro hn hnot howners ih =>
    obtain ⟨k, hk⟩ := hblock _ ⟨_, hn⟩
    refine .intro hk (fun hmem ↦ hnot (hpending _ hmem)) fun k s hs hp hne ↦ ?_
    obtain ⟨s', hs', hp'⟩ := hptr k s hs
    exact ih k s' hs' (hp'.trans hp) hne

/-- Of the pending pointers only the blocks that they point to matter. -/
theorem dies_congr {l : Loc} {pending' : List (Option ℕ)} {b : ℕ} (h : ∀ b, some b ∈ pending ↔ some b ∈ pending') :
    Dies m l pending b ↔ Dies m l pending' b := by
  constructor
  · intro hdies
    exact hdies.mono (fun _ ↦ id) (fun b ↦ (h b).mpr) fun _ s hs ↦ ⟨s, hs, rfl⟩
  · intro hdies
    exact hdies.mono (fun _ ↦ id) (fun b ↦ (h b).mp) fun _ s hs ↦ ⟨s, hs, rfl⟩

/-- Overwriting an object by one with the same pointer does not matter. -/
theorem dies_overwrite {l k : Loc} {s : Slot T V} {obj : Option V} {b : ℕ} (hs : slot? m l = some s)
    (hptr : obj.bind ptr = s.obj.bind ptr) : Dies (write m l obj) k pending b ↔ Dies m k pending b := by
  have hslot (j : Loc) : (slot? (write m l obj) j).map (fun t ↦ t.obj.bind ptr) = (slot? m j).map fun t ↦ t.obj.bind ptr := by
    rw [slot?_write]
    split_ifs with heq
    · subst heq
      simp [hs, hptr]
    · rfl
  constructor
  · refine fun h ↦ h.mono (fun b ↦ isBlock_write.mp) (fun _ ↦ id) fun j t ht ↦ ?_
    have hj := hslot j
    rw [ht] at hj
    exact Option.map_eq_some_iff.mp hj
  · refine fun h ↦ h.mono (fun b ↦ isBlock_write.mpr) (fun _ ↦ id) fun j t ht ↦ ?_
    have hj := hslot j
    rw [ht] at hj
    exact Option.map_eq_some_iff.mp hj.symm

/-- What dies with an object is gone once the object is released, whatever else was released with it. -/
theorem Dies.freed {l : Loc} {b : ℕ} (h : Dies m l pending b) (hcounted : Counted m' pending fun _ ↦ False)
    (hslot : ∀ k s, slot? m' k = some s → slot? (write m l none) k = some s)
    (hblock : ∀ k s, slot? m' k = some s → IsBlock m k.region → IsBlock m' k.region) : ¬IsBlock m' b := by
  induction h with
  | @intro b n _ hnot howners ih =>
    rintro ⟨k, hk⟩
    have hcount := hcounted.counted b k hk
    have hpos := hcounted.positive b k hk id
    rw [List.count_eq_zero.mpr hnot] at hcount
    obtain ⟨j, s, hs, hptr⟩ := refs_pos.mp (show 0 < refs m' b by omega)
    have hs' := hslot j s hs
    rw [slot?_write] at hs'
    split_ifs at hs' with hlj
    · obtain ⟨t, -, rfl⟩ := Option.map_eq_some_iff.mp hs'
      simp at hptr
    · have hdies := howners j s hs' hptr (Ne.symm hlj)
      exact ih j s hs' hptr (Ne.symm hlj) (hblock j s hs hdies.isBlock)

/-- What does not die with the object keeps an owner when the object is taken out. -/
theorem owned_of_not_dies (m : Memory T V) (l : Loc) (pending : List (Option ℕ)) :
    Owned (write m l none) pending fun b ↦ ¬Dies m l pending b := by
  intro b hb
  rw [count?_write]
  cases hn : count? m b with
  | none => exact .inl rfl
  | some n =>
    refine .inr (or_iff_not_imp_left.mpr fun hmem ↦ ?_)
    by_contra hnone
    refine hb (.intro hn hmem fun k s hs hptr hne ↦ ?_)
    by_contra hk
    exact hnone ⟨k, s, hk, by rw [slot?_write, if_neg (Ne.symm hne), hs], hptr⟩

/-- Each block of the set keeps an owner when the objects in `released` are taken out: it is pinned, or
an object that stays points to it, in a region that is not counted or in a block of the set. -/
def Sustained (m : Memory T V) (released : Loc → Prop) (pinned : List (Option ℕ)) (S : ℕ → Prop) : Prop :=
  ∀ b, S b → some b ∈ pinned ∨
    ∃ k s, slot? m k = some s ∧ s.obj.bind ptr = some b ∧ ¬released k ∧ (count? m k.region = none ∨ S k.region)

/-- The region is not counted, or among blocks that keep their owners. -/
def Backed (m : Memory T V) (released : Loc → Prop) (pinned : List (Option ℕ)) (a : ℕ) : Prop :=
  count? m a = none ∨ ∃ S, S a ∧ Sustained m released pinned S

/-- If no object is released, all blocks keep their owners. -/
theorem backed_of_exact (h : Counted m [] fun _ ↦ False) {released : Loc → Prop}
    (hnone : ∀ k s, slot? m k = some s → ¬released k) (pinned : List (Option ℕ)) (a : ℕ) : Backed m released pinned a := by
  refine or_iff_not_imp_left.mpr fun ha ↦ ⟨fun b ↦ count? m b ≠ none, ha, fun b hb ↦ .inr ?_⟩
  obtain ⟨n, hn⟩ := Option.ne_none_iff_exists'.mp hb
  obtain ⟨k, s, hs, hptr⟩ := refs_pos.mp ((h.exact.alive b).mp ⟨n, hn⟩)
  exact ⟨k, s, hs, hptr, hnone k s hs, em _⟩

/-- A block that an object outside the blocks points to, one that is not released. -/
theorem backed_of_object {released : Loc → Prop} {k : Loc} {s : Slot T V} {a : ℕ} (hs : slot? m k = some s)
    (hptr : s.obj.bind ptr = some a) (hcount : count? m k.region = none) (hk : ¬released k) (pinned : List (Option ℕ)) :
    Backed m released pinned a :=
  .inr ⟨(· = a), rfl, fun _ hb ↦ .inr ⟨k, s, hs, hb ▸ hptr, hk, .inl hcount⟩⟩

theorem Sustained.not_dies {S : ℕ → Prop} {l : Loc} {a : ℕ} (h : Sustained m (· = l) pending S)
    (hdies : Dies m l pending a) : ¬S a := by
  induction hdies with
  | @intro b n _ hnot howners ih =>
    intro hb
    obtain ⟨k, s, hs, hptr, hne, hk⟩ := (h b hb).resolve_left hnot
    obtain hcount | hk := hk
    · exact not_dies_of_uncounted hcount (howners k s hs hptr hne)
    · exact ih k s hs hptr hne hk

theorem sustained_of_not_dies (m : Memory T V) (l : Loc) (pending : List (Option ℕ)) :
    Sustained m (· = l) pending fun b ↦ count? m b ≠ none ∧ ¬Dies m l pending b := by
  intro b ⟨hb, hstays⟩
  obtain ⟨n, hn⟩ := Option.ne_none_iff_exists'.mp hb
  by_contra hnone
  rw [not_or] at hnone
  refine hstays (.intro hn hnone.1 fun k s hs hptr hne ↦ ?_)
  by_contra hk
  exact hnone.2 ⟨k, s, hs, hptr, hne, or_iff_not_imp_left.mpr fun hcounted ↦ ⟨hcounted, hk⟩⟩

/-- A region dies with an object exactly if it is not backed without it. -/
theorem not_dies_iff {l : Loc} {a : ℕ} : ¬Dies m l pending a ↔ Backed m (· = l) pending a := by
  constructor
  · intro ha
    exact or_iff_not_imp_left.mpr fun hcount ↦ ⟨_, ⟨hcount, ha⟩, sustained_of_not_dies m l pending⟩
  · rintro (hcount | ⟨S, ha, hS⟩) hdies
    · exact not_dies_of_uncounted hcount hdies
    · exact hS.not_dies hdies ha

theorem dies_iff {l : Loc} {a : ℕ} : Dies m l pending a ↔ ¬Backed m (· = l) pending a := by
  rw [← not_dies_iff, not_not]

/-- Each region of `P` keeps an owner that is pinned, or is an object in `P` that is not released. -/
def Anchored (m : Memory T V) (released : Loc → Prop) (pinned : List (Option ℕ)) (P : ℕ → Prop) : Prop :=
  ∀ b, P b → count? m b = none ∨ some b ∈ pinned ∨
    ∃ k s, P k.region ∧ ¬released k ∧ slot? m k = some s ∧ s.obj.bind ptr = some b

section Anchored

variable {released : Loc → Prop} {pinned : List (Option ℕ)}

theorem anchored_backed (m : Memory T V) (released : Loc → Prop) (pinned : List (Option ℕ)) :
    Anchored m released pinned (Backed m released pinned) := by
  rintro b (hcount | ⟨S, hb, hS⟩)
  · exact .inl hcount
  · refine .inr ((hS b hb).imp_right fun ⟨k, s, hs, hptr, hk, hregion⟩ ↦ ⟨k, s, ?_, hk, hs, hptr⟩)
    exact hregion.imp_right fun hS' ↦ ⟨S, hS', hS⟩

theorem Anchored.owned (h : Anchored m released pinned P) (hsub : pinned ⊆ pending) : Owned m pending P := by
  intro b hb
  refine (h b hb).imp_right (Or.imp (@hsub _) fun ⟨k, s, hk, _, hs, hptr⟩ ↦ ⟨k, s, hk, hs, hptr⟩)

theorem Anchored.spares (h : Anchored m released pinned P) (hspares : Spares P m m') : Anchored m' released pinned P := by
  intro b hb
  obtain hnone | hmem | ⟨k, s, hk, hrel, hs, hptr⟩ := h b hb
  · refine .inl (Option.eq_none_iff_forall_ne_some.mpr fun n hn ↦ ?_)
    obtain ⟨n', hn'⟩ := IsBlock.of_kept hspares.kept ⟨n, hn⟩
    simp [hnone] at hn'
  · exact .inr (.inl hmem)
  · exact .inr (.inr ⟨k, s, hk, hrel, by rw [hspares.slot? hk, hs], hptr⟩)

theorem Anchored.truncate (h : Anchored m released pinned P) {a n : ℕ}
    (hreleased : ∀ l : Loc, l.region = a → n ≤ l.index → released l) : Anchored (truncate m a n) released pinned P := by
  intro b hb
  rw [count?_truncate]
  refine (h b hb).imp_right (Or.imp_right fun ⟨k, s, hk, hrel, hs, hptr⟩ ↦ ⟨k, s, hk, hrel, ?_, hptr⟩)
  rw [slot?_truncate, if_neg fun hl ↦ hrel (hreleased k hl.1 hl.2), hs]

theorem Anchored.write_none (h : Anchored m released pinned P) {l : Loc} (hl : released l) :
    Anchored (write m l none) released pinned P := by
  intro b hb
  rw [count?_write]
  refine (h b hb).imp_right (Or.imp_right fun ⟨k, s, hk, hrel, hs, hptr⟩ ↦ ⟨k, s, hk, hrel, ?_, hptr⟩)
  have hne : l ≠ k := by
    rintro rfl
    exact hrel hl
  rw [slot?_write, if_neg hne, hs]

end Anchored

/-- What is left of a memory after some objects were taken out of it and released. -/
structure Left (m m' : Memory T V) (released : Loc → Prop) : Prop where
  regions : ∀ b r', region? m' b = some r' →
    ∃ r, region? m b = some r ∧ r'.type = r.type ∧ r'.count.isSome = r.count.isSome
  slots : ∀ l s', slot? m' l = some s' →
    ∃ s, slot? m l = some s ∧ s'.type = s.type ∧ (s'.obj = s.obj ∧ ¬released l ∨ s'.obj = none ∧ released l)

omit [Pointer V] in
theorem Left.of_kept (h : Kept m m') : Left m m' fun _ ↦ False := by
  refine ⟨fun b r' hr' ↦ ?_, fun l s' hs' ↦ ⟨s', h.slot? hs', rfl, .inl ⟨rfl, id⟩⟩⟩
  obtain ⟨r, hr, htype, -, hcount⟩ := h b r' hr'
  exact ⟨r, hr, htype, hcount⟩

omit [Pointer V] in
theorem Left.trans {m'' : Memory T V} {R R' : Loc → Prop} (h : Left m m' R) (h' : Left m' m'' R') :
    Left m m'' fun l ↦ R l ∨ R' l := by
  constructor
  · intro b r'' hr''
    obtain ⟨r', hr', htype', hcount'⟩ := h'.regions b r'' hr''
    obtain ⟨r, hr, htype, hcount⟩ := h.regions b r' hr'
    exact ⟨r, hr, htype'.trans htype, hcount'.trans hcount⟩
  · intro l s'' hs''
    obtain ⟨s', hs', htype', hobj'⟩ := h'.slots l s'' hs''
    obtain ⟨s, hs, htype, hobj⟩ := h.slots l s' hs'
    refine ⟨s, hs, htype'.trans htype, ?_⟩
    obtain ⟨hobj', hR'⟩ | ⟨hobj', hR'⟩ := hobj'
    · obtain ⟨hobj, hR⟩ | ⟨hobj, hR⟩ := hobj
      · exact .inl ⟨hobj'.trans hobj, fun hl ↦ hl.elim hR hR'⟩
      · exact .inr ⟨hobj'.trans hobj, .inl hR⟩
    · exact .inr ⟨hobj', .inr hR'⟩

omit [Pointer V] in
theorem Left.congr {R R' : Loc → Prop} (h : Left m m' R)
    (hR : ∀ l s, slot? m' l = some s → (R l ↔ R' l)) : Left m m' R' := by
  refine ⟨h.regions, fun l s' hs' ↦ ?_⟩
  obtain ⟨s, hs, htype, hobj⟩ := h.slots l s' hs'
  have hl := hR l s' hs'
  exact ⟨s, hs, htype, hobj.imp (And.imp_right fun hn ↦ fun hl' ↦ hn (hl.mpr hl')) (And.imp_right hl.mp)⟩

omit [Pointer V] in
theorem left_write_none (m : Memory T V) (l : Loc) : Left m (write m l none) (· = l) := by
  constructor
  · intro b r' hr'
    rw [region?_write] at hr'
    split_ifs at hr' with heq
    · obtain ⟨r, hr, rfl⟩ := Option.map_eq_some_iff.mp hr'
      exact ⟨r, hr, rfl, rfl⟩
    · exact ⟨r', hr', rfl, rfl⟩
  · intro k s' hs'
    rw [slot?_write] at hs'
    split_ifs at hs' with heq
    · obtain ⟨s, hs, rfl⟩ := Option.map_eq_some_iff.mp hs'
      exact ⟨s, hs, rfl, .inr ⟨rfl, heq.symm⟩⟩
    · exact ⟨s', hs', rfl, .inl ⟨rfl, Ne.symm heq⟩⟩

omit [Pointer V] in
theorem left_truncate (m : Memory T V) (a n : ℕ) : Left m (truncate m a n) fun l ↦ l.region = a ∧ n ≤ l.index := by
  constructor
  · intro b r' hr'
    rw [Regions.truncate, region?_modifyRegion] at hr'
    split_ifs at hr'
    · obtain ⟨r, hr, rfl⟩ := Option.map_eq_some_iff.mp hr'
      exact ⟨r, hr, rfl, rfl⟩
    · exact ⟨r', hr', rfl, rfl⟩
  · intro l s' hs'
    rw [slot?_truncate] at hs'
    split_ifs at hs' with hl
    exact ⟨s', hs', rfl, .inl ⟨rfl, hl⟩⟩

/-- What is still there when the counts are right has an owner that was not released. -/
theorem Left.backed {released : Loc → Prop} (h : Left m m' released) (hcounted : Counted m' pending fun _ ↦ False) {b : ℕ}
    (hb : IsBlock m' b) : Backed m released pending b := by
  refine .inr ⟨IsBlock m', hb, fun c ⟨n, hn⟩ ↦ or_iff_not_imp_left.mpr fun hpending ↦ ?_⟩
  have hcount := hcounted.counted c n hn
  have hpos := hcounted.positive c n hn id
  rw [List.count_eq_zero.mpr hpending] at hcount
  obtain ⟨k, s', hs', hptr⟩ := refs_pos.mp (show 0 < refs m' c by omega)
  obtain ⟨s, hs, -, ⟨hobj, hk⟩ | ⟨hobj, -⟩⟩ := h.slots k s' hs'
  · refine ⟨k, s, hs, hobj ▸ hptr, hk, ?_⟩
    obtain ⟨r', hr', -⟩ := slot?_eq_some.mp hs'
    obtain ⟨r, hr, -, hsome⟩ := h.regions _ r' hr'
    cases hcount' : r'.count with
    | none =>
      rw [hcount', Option.isSome_none, Eq.comm, Option.isSome_eq_false_iff, Option.isNone_iff_eq_none] at hsome
      exact .inl (by rw [count?, hr, Option.bind_some, hsome])
    | some k' => exact .inr ⟨k', count?_eq_some.mpr ⟨r', hr', hcount'⟩⟩
  · rw [hobj] at hptr
    cases hptr

theorem refs_write_none {l : Loc} {s : Slot T V} {a : ℕ} (hs : slot? m l = some s) (ha : s.obj.bind ptr = some a) :
    refs (write m l none) a + 1 = refs m a := by
  have hwrite := refs_write hs none a
  simpa [pointsTo, ha] using hwrite

/-- Nothing dies with an object unless it holds the last pointer to a block. -/
theorem Dies.last {l : Loc} {s : Slot T V} {b : ℕ} (h : Dies m l pending b)
    (hcounted : Counted m pending fun _ ↦ False) (hs : slot? m l = some s) :
    ∃ a, s.obj.bind ptr = some a ∧ refs m a + pending.count (some a) = 1 := by
  induction h with
  | @intro b n hn hnot howners ih =>
    have hzero := List.count_eq_zero.mpr hnot
    by_cases hother : ∃ k t, slot? m k = some t ∧ t.obj.bind ptr = some b ∧ k ≠ l
    · obtain ⟨k, t, hk, hptr, hne⟩ := hother
      exact ih k t hk hptr hne
    · -- there is a pointer to this block, and it is the one in the object
      have hpos := hcounted.positive b n hn id
      rw [hcounted.counted b n hn, hzero] at hpos
      obtain ⟨k, t, hk, hptr⟩ := refs_pos.mp (show 0 < refs m b by omega)
      obtain rfl : k = l := by
        by_contra hne
        exact hother ⟨k, t, hk, hptr, hne⟩
      cases hs.symm.trans hk
      have hrefs : refs (write m k none) b = 0 := by
        by_contra hleft
        obtain ⟨j, t', hj, hptr'⟩ := refs_pos.mp (Nat.pos_of_ne_zero hleft)
        rw [slot?_write] at hj
        split_ifs at hj with hkj
        · obtain ⟨_, -, rfl⟩ := Option.map_eq_some_iff.mp hj
          cases hptr'
        · exact hother ⟨j, t', hj, hptr', Ne.symm hkj⟩
      have hone := refs_write_none hs hptr
      exact ⟨b, hptr, by omega⟩

/-- A block dies with the object that holds the last pointer to it. -/
theorem dies_of_last {l : Loc} {s : Slot T V} {a : ℕ} (hcounted : Counted m pending fun _ ↦ False)
    (hs : slot? m l = some s) (ha : s.obj.bind ptr = some a) (hone : refs m a + pending.count (some a) = 1) :
    Dies m l pending a := by
  obtain ⟨n, hn⟩ := hcounted.valid a (.inl (refs_pos.mpr ⟨l, s, hs, ha⟩))
  have hless := refs_write_none hs ha
  refine .intro hn (List.count_eq_zero.mp (by omega)) fun k t hk hptr hne ↦ ?_
  have hleft : 0 < refs (write m l none) a :=
    refs_pos.mpr ⟨k, t, by rw [slot?_write, if_neg (Ne.symm hne), hk], hptr⟩
  omega

/-! ## What can be reached from a pointer -/

/-- An object in the first region points to the second. -/
def Edge (m : Memory T V) (a b : ℕ) : Prop :=
  ∃ i s, slot? m ⟨a, i⟩ = some s ∧ s.obj.bind ptr = some b

def Reaches (m : Memory T V) (p : Option ℕ) (b : ℕ) : Prop :=
  ∃ a, p = some a ∧ Relation.ReflTransGen (Edge m) a b

/-- What dies with an object can be reached from it. -/
theorem Dies.reaches {l : Loc} {s : Slot T V} {b : ℕ} {pending' : List (Option ℕ)} (h : Dies m l pending b)
    (hcounted : Counted m pending' fun _ ↦ False) (hsub : pending' ⊆ pending) (hs : slot? m l = some s) :
    Reaches m (s.obj.bind ptr) b := by
  induction h with
  | @intro b n hn hnot howners ih =>
    have hcount := hcounted.counted b n hn
    have hpos := hcounted.positive b n hn id
    rw [List.count_eq_zero.mpr fun hmem ↦ hnot (hsub hmem)] at hcount
    obtain ⟨k, s', hs', hptr⟩ := refs_pos.mp (show 0 < refs m b by omega)
    by_cases hkl : k = l
    · subst hkl
      cases hs.symm.trans hs'
      exact ⟨b, hptr, .refl⟩
    · obtain ⟨a, ha, hreach⟩ := ih k s' hs' hptr hkl
      exact ⟨a, ha, hreach.tail ⟨k.index, s', hs', hptr⟩⟩

/-- What is not backed can be reached from one of the objects that are released. -/
theorem reaches_of_not_backed {released : Loc → Prop} {pinned : List (Option ℕ)} {b : ℕ} (h : Counted m [] fun _ ↦ False)
    (hb : ¬Backed m released pinned b) : ∃ l s, released l ∧ slot? m l = some s ∧ Reaches m (s.obj.bind ptr) b := by
  by_contra hnot
  refine hb (or_iff_not_imp_left.mpr fun hcount ↦ ?_)
  refine ⟨fun c ↦ count? m c ≠ none ∧ ¬∃ l s, released l ∧ slot? m l = some s ∧ Reaches m (s.obj.bind ptr) c,
    ⟨hcount, hnot⟩, fun c ⟨hc, hunreached⟩ ↦ .inr ?_⟩
  obtain ⟨n, hn⟩ := Option.ne_none_iff_exists'.mp hc
  obtain ⟨k, s, hs, hptr⟩ := refs_pos.mp ((h.exact.alive c).mp ⟨n, hn⟩)
  refine ⟨k, s, hs, hptr, fun hk ↦ hunreached ⟨k, s, hk, hs, c, hptr, .refl⟩, or_iff_not_imp_left.mpr fun hk ↦ ⟨hk, ?_⟩⟩
  rintro ⟨l, t, hl, ht, a, ha, hreach⟩
  exact hunreached ⟨l, t, hl, ht, a, ha, hreach.tail ⟨k.index, s, hs, hptr⟩⟩

theorem not_dies_of_null {l : Loc} {s : Slot T V} {b : ℕ} {pending' : List (Option ℕ)}
    (hcounted : Counted m pending' fun _ ↦ False) (hsub : pending' ⊆ pending) (hs : slot? m l = some s)
    (hnull : s.obj.bind ptr = none) : ¬Dies m l pending b := by
  intro h
  obtain ⟨a, ha, -⟩ := h.reaches hcounted hsub hs
  simp [hnull] at ha

end Stela.Library.RefCount
