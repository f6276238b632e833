import Stela.CodeGen.ArrayElements

/-!
# Heaps of arrays

What the functions on arrays do to a heap in which every storage holds a list with room for more, with a count of the
pointers to it, and every block belongs to one storage.
-/

namespace Stela.CodeGen.ArrayBuiltins

open Stela.Library Stela.Library.Objects Stela.Library.Poison
open ArrayLengths (WriteFits ReallocFits GrowFits Fits ceilToPow2 ceilToPow2_cases ult_iff)
open Growable (roomFor)

variable {V : Type} {elem : ElemType V}

/-! ## The invariant -/

structure Holds (elem : ElemType V) (blocks : Blocks V) (storage : Storage) (g : Growable V) : Prop where
  len : storage.len.toNat = g.items.length
  cap : storage.cap.toNat = g.room
  filled : Filled elem blocks storage.dat g.items g.room
  noBlock : g.room = 0 → storage.dat = none

/-- The heap holds these arrays, to which there are so many pointers. -/
structure Owned (elem : ElemType V) (refs : ℕ → ℕ) (heap : Heap V) (arrays : Table (Growable V)) : Prop where
  length : heap.storages.length = arrays.length
  storage : ∀ ⦃p storage⦄, Table.item? heap.storages p = some storage → ∃ g, Table.item? arrays p = some g ∧
    Holds elem heap.blocks storage g ∧ storage.ref = refs p ∧ 0 < refs p
  array : ∀ ⦃p g⦄, Table.item? arrays p = some g → ∃ storage, Table.item? heap.storages p = some storage
  dangling : ∀ ⦃p⦄, Table.item? heap.storages p = none → refs p = 0
  distinct : ∀ ⦃p q storage storage' b⦄, Table.item? heap.storages p = some storage →
    Table.item? heap.storages q = some storage' → storage.dat = some b → storage'.dat = some b → p = q
  noLeak : ∀ ⦃b block⦄, Table.item? heap.blocks b = some block →
    ∃ p storage, Table.item? heap.storages p = some storage ∧ storage.dat = some b

/-- The elements of one storage stay in their block or get a new one. -/
structure Rehouses (dat dat' : Option ℕ) (bs bs' : Blocks V) : Prop where
  other : ∀ b, dat ≠ some b → dat' ≠ some b → Table.item? bs' b = Table.item? bs b
  old : ∀ b, dat = some b → dat' ≠ some b → Table.item? bs' b = none
  new : ∀ b, dat' = some b → dat = some b ∨ Table.item? bs b = none

section

variable {refs : ℕ → ℕ} {heap heap' : Heap V} {arrays : Table (Growable V)} {p : ℕ} {g g' : Growable V}
  {storage : Storage}

theorem Touches.rehouses {dat : Option ℕ} {bs bs' : Blocks V} (h : Touches dat bs bs') : Rehouses dat dat bs bs' where
  other := fun b hb _ ↦ h.entry b hb
  old := fun _ hb hb' ↦ absurd hb hb'
  new := fun _ hb ↦ .inl hb

theorem Filled.entry {bs : Blocks V} {dat : Option ℕ} {items : List V} {room b : ℕ} (h : Filled elem bs dat items room)
    (hb : dat = some b) : ∃ block, Table.item? bs b = some block := by
  subst hb
  obtain ⟨rest, hentry, -, -⟩ := h
  exact ⟨_, hentry⟩

theorem Filled.congr {bs bs' : Blocks V} {dat : Option ℕ} {items : List V} {room : ℕ} (h : Filled elem bs dat items room)
    (hentry : ∀ b, dat = some b → Table.item? bs' b = Table.item? bs b) : Filled elem bs' dat items room := by
  cases dat with
  | none => exact h
  | some b =>
    obtain ⟨rest, hb, hroom, hvacant⟩ := h
    exact ⟨rest, (hentry b rfl).trans hb, hroom, hvacant⟩

theorem Owned.holds (h : Owned elem refs heap arrays) (hp : Table.item? heap.storages p = some storage)
    (hg : Table.item? arrays p = some g) : Holds elem heap.blocks storage g := by
  obtain ⟨g', hg', hholds, -⟩ := h.storage hp
  cases hg.symm.trans hg'
  exact hholds

/-- An array has a block exactly if it has room. -/
theorem Holds.dat_eq_none {blocks : Blocks V} (h : Holds elem blocks storage g) : storage.dat = none ↔ g.room = 0 := by
  refine ⟨fun hnone ↦ ?_, h.noBlock⟩
  have hfilled := h.filled
  rw [hnone] at hfilled
  exact hfilled.2

theorem Holds.dat_ne_none {blocks : Blocks V} (h : Holds elem blocks storage g) (hroom : elem.nonNull = true → g.room ≠ 0)
    (hnonNull : elem.nonNull = true) : storage.dat ≠ none :=
  fun hnone ↦ hroom hnonNull (h.dat_eq_none.mp hnone)

theorem Owned.counted (h : Owned elem refs heap arrays) (hp : Table.item? heap.storages p = some storage) :
    storage.ref = refs p ∧ 0 < refs p := by
  obtain ⟨_, -, -, hcount⟩ := h.storage hp
  exact hcount

/-- One array changes. -/
theorem Owned.replace (h : Owned elem refs heap arrays) (hp : Table.item? heap.storages p = some storage)
    (storage' : Storage) {refs' : ℕ → ℕ} (hcount : storage'.ref = refs' p ∧ 0 < refs' p) (hrefs : ∀ q, q ≠ p → refs' q = refs q)
    {blocks : Blocks V} (hblocks : Rehouses storage.dat storage'.dat heap.blocks blocks)
    (hholds : Holds elem blocks storage' g') :
    Owned elem refs' (storeStorage heap p storage' blocks) (Table.put arrays p g') := by
  obtain ⟨g, hg, -⟩ := h.storage hp
  have hlt : p < heap.storages.length := Table.lt_of_item? hp
  have hlt' : p < arrays.length := Table.lt_of_item? hg
  have hself : Table.item? (Table.put heap.storages p storage') p = some storage' := Table.item?_put_self hlt
  have hother (q : ℕ) (hq : q ≠ p) : Table.item? (Table.put heap.storages p storage') q = Table.item? heap.storages q :=
    Table.item?_put_ne hq.symm
  -- the blocks of the other storages are neither the old one nor the new one
  have hapart (q : ℕ) (hq : q ≠ p) (st : Storage) (hst : Table.item? heap.storages q = some st) (b : ℕ)
      (hb : st.dat = some b) : storage.dat ≠ some b ∧ storage'.dat ≠ some b := by
    have hne : storage.dat ≠ some b := fun heq ↦ hq (h.distinct hst hp hb heq)
    refine ⟨hne, fun heq ↦ ?_⟩
    obtain ⟨gq, -, hgq, -⟩ := h.storage hst
    obtain ⟨block, hblock⟩ := hgq.filled.entry hb
    rcases hblocks.new b heq with hold | hnone
    · exact hne hold
    · cases hnone.symm.trans hblock
  refine ⟨?_, fun q st hst ↦ ?_, fun q gq hgq ↦ ?_, fun q hq ↦ ?_, fun q r st st' b hst hst' hb hb' ↦ ?_, fun b block hb ↦ ?_⟩
  · exact Table.length_put.trans (h.length.trans Table.length_put.symm)
  · by_cases hq : q = p
    · subst hq
      cases hself.symm.trans hst
      exact ⟨g', Table.item?_put_self hlt', hholds, hcount⟩
    · have hst := (hother q hq).symm.trans hst
      obtain ⟨gq, hgq, hq', hrest⟩ := h.storage hst
      refine ⟨gq, (Table.item?_put_ne (Ne.symm hq)).trans hgq, ⟨hq'.len, hq'.cap, ?_, hq'.noBlock⟩, hrefs q hq ▸ hrest⟩
      refine hq'.filled.congr fun b hb ↦ ?_
      have hne := hapart q hq st hst b hb
      exact hblocks.other b hne.1 hne.2
  · by_cases hq : q = p
    · exact ⟨storage', hq ▸ hself⟩
    · obtain ⟨st, hst⟩ := h.array ((Table.item?_put_ne (Ne.symm hq)).symm.trans hgq)
      exact ⟨st, (hother q hq).trans hst⟩
  · by_cases hqp : q = p
    · subst hqp
      cases hself.symm.trans hq
    · exact (hrefs q hqp).trans (h.dangling ((hother q hqp).symm.trans hq))
  · by_cases hq : q = p <;> by_cases hr : r = p
    · exact hq.trans hr.symm
    · subst hq
      cases hself.symm.trans hst
      exact absurd hb (hapart r hr st' ((hother r hr).symm.trans hst') b hb').2
    · subst hr
      cases hself.symm.trans hst'
      exact absurd hb' (hapart q hq st ((hother q hq).symm.trans hst) b hb).2
    · exact h.distinct ((hother q hq).symm.trans hst) ((hother r hr).symm.trans hst') hb hb'
  · by_cases hb' : storage'.dat = some b
    · exact ⟨p, storage', hself, hb'⟩
    · have hne : storage.dat ≠ some b := fun heq ↦ by cases (hblocks.old b heq hb').symm.trans hb
      obtain ⟨q, st, hst, hdat⟩ := h.noLeak ((hblocks.other b hne hb').symm.trans hb)
      have hq : q ≠ p := by
        rintro rfl
        cases hp.symm.trans hst
        exact hne hdat
      exact ⟨q, st, (hother q hq).trans hst, hdat⟩

end

/-! ## Pointers -/

/-- One more pointer. -/
def addRef (ptr : Option ℕ) (refs : ℕ → ℕ) (p : ℕ) : ℕ := refs p + if ptr = some p then 1 else 0

/-- An array to which a pointer has gone is gone with the last one. -/
def collect (refs : ℕ → ℕ) (ptr : Option ℕ) (arrays : Table (Growable V)) : Table (Growable V) :=
  match ptr with
  | none => arrays
  | some p => if refs p = 0 then Table.remove arrays p else arrays

section

variable {refs : ℕ → ℕ} {heap : Heap V} {arrays : Table (Growable V)} {p : ℕ} {g : Growable V} {storage : Storage}

theorem addRef_self (p : ℕ) (refs : ℕ → ℕ) : addRef (some p) refs p = refs p + 1 := by rw [addRef, if_pos rfl]

theorem addRef_ne {p q : ℕ} (h : q ≠ p) (refs : ℕ → ℕ) : addRef (some p) refs q = refs q := by
  rw [addRef, if_neg fun heq ↦ h (Option.some.inj heq).symm, Nat.add_zero]

theorem addRef_none (refs : ℕ → ℕ) : addRef none refs = refs := by
  funext p
  rw [addRef, if_neg nofun, Nat.add_zero]

theorem addRef_comm (ptr ptr' : Option ℕ) (refs : ℕ → ℕ) : addRef ptr (addRef ptr' refs) = addRef ptr' (addRef ptr refs) := by
  funext p
  exact Nat.add_right_comm _ _ _

theorem addRef_inj {ptr : Option ℕ} {refs refs' : ℕ → ℕ} (h : addRef ptr refs = addRef ptr refs') : refs = refs' := by
  funext p
  exact Nat.add_right_cancel (congrFun h p)

theorem loadStorage_eq (hp : Table.item? heap.storages p = some storage) : loadStorage heap p = .ok storage := by
  rw [loadStorage, hp]
  rfl

/-- An array with a pointer to it is there. -/
theorem Owned.pointed (h : Owned elem refs heap arrays) (hpos : 0 < refs p) :
    ∃ storage, Table.item? heap.storages p = some storage := by
  refine Option.ne_none_iff_exists'.mp fun hnone ↦ ?_
  rw [h.dangling hnone] at hpos
  cases hpos

theorem Owned.setRef (h : Owned elem refs heap arrays) (hp : Table.item? heap.storages p = some storage)
    {refs' : ℕ → ℕ} (hpos : 0 < refs' p) (hrefs : ∀ q, q ≠ p → refs' q = refs q) :
    Owned elem refs' (storeStorage heap p { storage with ref := refs' p } heap.blocks) arrays := by
  obtain ⟨g, hg, hholds, -⟩ := h.storage hp
  have hreplaced := h.replace hp { storage with ref := refs' p } ⟨rfl, hpos⟩ hrefs
    (Touches.refl storage.dat heap.blocks).rehouses ⟨hholds.len, hholds.cap, hholds.filled, hholds.noBlock⟩
  rwa [Table.put_entry hg] at hreplaced

theorem ptrInc_spec (h : Owned elem refs heap arrays) {ptr : Option ℕ} (hptr : ∀ p, ptr = some p → 0 < refs p) :
    ∃ heap', ptrInc ptr heap = .ok heap' ∧ Owned elem (addRef ptr refs) heap' arrays := by
  cases ptr with
  | none => exact ⟨heap, rfl, (addRef_none refs).symm ▸ h⟩
  | some p =>
    obtain ⟨storage, hp⟩ := h.pointed (hptr p rfl)
    have hself := addRef_self p refs
    have hcount : storage.ref + 1 = addRef (some p) refs p := by
      rw [(h.counted hp).1, hself]
      rfl
    have hset := h.setRef hp (hself ▸ Nat.succ_pos _) fun q hq ↦ addRef_ne hq refs
    refine ⟨_, ?_, hset⟩
    change (loadStorage heap p >>= fun storage ↦ _) = _
    rw [loadStorage_eq hp, ← hcount]
    rfl

/-- A new array, with a pointer to it. -/
theorem Owned.make (h : Owned elem refs heap arrays) (href : storage.ref = 1) {blocks : Blocks V}
    (hblocks : Rehouses none storage.dat heap.blocks blocks) (hholds : Holds elem blocks storage g) :
    Owned elem (addRef (some heap.storages.length) refs) ⟨Table.add heap.storages storage, blocks⟩ (Table.add arrays g) := by
  have hzero : refs heap.storages.length = 0 := h.dangling (Table.item?_length _)
  have hself := addRef_self heap.storages.length refs
  rw [hzero] at hself
  have hold (q : ℕ) (hq : q ≠ heap.storages.length) :
      Table.item? (Table.add heap.storages storage) q = Table.item? heap.storages q := Table.item?_add_ne hq
  have hnew : Table.item? (Table.add heap.storages storage) heap.storages.length = some storage := Table.item?_add_self
  -- the block of the new storage is none of the others
  have hapart (q : ℕ) (st : Storage) (hst : Table.item? heap.storages q = some st) (b : ℕ) (hb : st.dat = some b) :
      storage.dat ≠ some b := by
    obtain ⟨gq, -, hgq, -⟩ := h.storage hst
    obtain ⟨block, hblock⟩ := hgq.filled.entry hb
    intro heq
    rcases hblocks.new b heq with hnone | hnone
    · cases hnone
    · cases hnone.symm.trans hblock
  refine ⟨?_, fun q st hst ↦ ?_, fun q gq hgq ↦ ?_, fun q hq ↦ ?_, fun q r st st' b hst hst' hb hb' ↦ ?_, fun b block hb ↦ ?_⟩
  · rw [Table.length_add, Table.length_add, h.length]
  · by_cases hq : q = heap.storages.length
    · subst hq
      cases hnew.symm.trans hst
      refine ⟨g, h.length.symm ▸ Table.item?_add_self, hholds, ?_, hself ▸ Nat.one_pos⟩
      rw [href, hself]
      rfl
    · have hst := (hold q hq).symm.trans hst
      obtain ⟨gq, hgq, hq', hcount⟩ := h.storage hst
      refine ⟨gq, (Table.item?_add_ne (h.length ▸ hq)).trans hgq, ⟨hq'.len, hq'.cap, ?_, hq'.noBlock⟩, addRef_ne hq refs ▸ hcount⟩
      exact hq'.filled.congr fun b hb ↦ hblocks.other b nofun (hapart q st hst b hb)
  · by_cases hq : q = heap.storages.length
    · exact ⟨storage, hq ▸ hnew⟩
    · obtain ⟨st, hst⟩ := h.array ((Table.item?_add_ne (h.length ▸ hq)).symm.trans hgq)
      exact ⟨st, (hold q hq).trans hst⟩
  · have hq' : q ≠ heap.storages.length := by
      rintro rfl
      cases hnew.symm.trans hq
    exact (addRef_ne hq' refs).trans (h.dangling ((hold q hq').symm.trans hq))
  · by_cases hq : q = heap.storages.length <;> by_cases hr : r = heap.storages.length
    · exact hq.trans hr.symm
    · subst hq
      cases hnew.symm.trans hst
      exact absurd hb (hapart r st' ((hold r hr).symm.trans hst') b hb')
    · subst hr
      cases hnew.symm.trans hst'
      exact absurd hb' (hapart q st ((hold q hq).symm.trans hst) b hb)
    · exact h.distinct ((hold q hq).symm.trans hst) ((hold r hr).symm.trans hst') hb hb'
  · by_cases hb' : storage.dat = some b
    · exact ⟨_, storage, hnew, hb'⟩
    · obtain ⟨q, st, hst, hdat⟩ := h.noLeak ((hblocks.other b nofun hb').symm.trans hb)
      have hq : q ≠ heap.storages.length := by
        rintro rfl
        cases (Table.item?_length heap.storages).symm.trans hst
      exact ⟨q, st, (hold q hq).trans hst, hdat⟩

/-- An array goes, with its block. -/
theorem Owned.remove (h : Owned elem refs heap arrays) (hp : Table.item? heap.storages p = some storage)
    {refs' : ℕ → ℕ} (hzero : refs' p = 0) (hrefs : ∀ q, q ≠ p → refs' q = refs q) {blocks : Blocks V}
    (htouches : Touches storage.dat heap.blocks blocks)
    (hgone : ∀ b, storage.dat = some b → Table.item? blocks b = none) :
    Owned elem refs' ⟨Table.remove heap.storages p, blocks⟩ (Table.remove arrays p) := by
  have hother (q : ℕ) (st : Storage) (hst : Table.item? (Table.remove heap.storages p) q = some st) :
      q ≠ p ∧ Table.item? heap.storages q = some st := by
    have hq : q ≠ p := by
      rintro rfl
      cases Table.item?_remove_self.symm.trans hst
    exact ⟨hq, (Table.item?_remove_ne hq.symm).symm.trans hst⟩
  refine ⟨?_, fun q st hst ↦ ?_, fun q gq hgq ↦ ?_, fun q hq ↦ ?_, fun q r st st' b hst hst' hb hb' ↦ ?_, fun b block hb ↦ ?_⟩
  · exact Table.length_remove.trans (h.length.trans Table.length_remove.symm)
  · obtain ⟨hq, hst⟩ := hother q st hst
    obtain ⟨gq, hgq, hholds, hcount⟩ := h.storage hst
    refine ⟨gq, (Table.item?_remove_ne hq.symm).trans hgq, ⟨hholds.len, hholds.cap, ?_, hholds.noBlock⟩, hrefs q hq ▸ hcount⟩
    exact hholds.filled.congr fun b hb ↦ htouches.entry b fun heq ↦ hq (h.distinct hst hp hb heq)
  · have hq : q ≠ p := by
      rintro rfl
      cases Table.item?_remove_self.symm.trans hgq
    obtain ⟨st, hst⟩ := h.array ((Table.item?_remove_ne hq.symm).symm.trans hgq)
    exact ⟨st, (Table.item?_remove_ne hq.symm).trans hst⟩
  · by_cases hqp : q = p
    · exact hqp ▸ hzero
    · exact (hrefs q hqp).trans (h.dangling ((Table.item?_remove_ne (Ne.symm hqp)).symm.trans hq))
  · exact h.distinct (hother q st hst).2 (hother r st' hst').2 hb hb'
  · have hne : storage.dat ≠ some b := fun heq ↦ by cases (hgone b heq).symm.trans hb
    obtain ⟨q, st, hst, hdat⟩ := h.noLeak ((htouches.entry b hne).symm.trans hb)
    have hq : q ≠ p := by
      rintro rfl
      cases hp.symm.trans hst
      exact hne hdat
    exact ⟨q, st, (Table.item?_remove_ne hq.symm).trans hst, hdat⟩

/-- A pointer goes; with the last one the elements are destroyed and the array is freed. -/
theorem ptrDec_spec {ptr : Option ℕ} (h : Owned elem (addRef ptr refs) heap arrays)
    (hroom : elem.nonNull = true → ∀ p g, ptr = some p → refs p = 0 → Table.item? arrays p = some g → g.room ≠ 0)
    (hcounted : ∀ p g, ptr = some p → Table.item? arrays p = some g →
      elem.cat ≠ .trivially_copyable → SignedFits 32 g.items.length) :
    ∃ heap', ptrDec elem ptr heap = .ok heap' ∧ Owned elem refs heap' (collect refs ptr arrays) := by
  cases ptr with
  | none => exact ⟨heap, rfl, addRef_none refs ▸ h⟩
  | some p =>
    have hself := addRef_self p refs
    obtain ⟨storage, hp⟩ := h.pointed (p := p) (hself ▸ Nat.succ_pos _)
    have hsubed : storage.ref - 1 = refs p := by
      rw [(h.counted hp).1, hself]
      omega
    by_cases hzero : refs p = 0
    · obtain ⟨g, hg, hholds, -⟩ := h.storage hp
      have hfilled : Filled elem heap.blocks storage.dat ([] ++ g.items) g.room := hholds.filled
      have hcount : elem.cat ≠ .trivially_copyable → ∃ len, some storage.len = some len ∧ len.toNat = g.items.length ∧
          SignedFits 32 len.toNat :=
        fun hnontrivial ↦ ⟨storage.len, rfl, hholds.len, hholds.len.symm ▸ hcounted p g rfl hg hnontrivial⟩
      have hdat := hholds.dat_ne_none fun hnonNull ↦ hroom hnonNull p g rfl hzero hg
      obtain ⟨bs, hdestroyed, hempty, htouches⟩ := destroyN_spec hfilled hdat hcount
      obtain ⟨bs', hfreed, htouches', hgone⟩ := callFree_spec hempty
      have hremoved := h.remove hp hzero (fun q hq ↦ (addRef_ne hq refs).symm) (htouches.trans htouches') hgone
      refine ⟨⟨Table.remove heap.storages p, bs'⟩, ?_, ?_⟩
      · have hstored : loadStorage (storeStorage heap p { storage with ref := 0 } heap.blocks) p =
            .ok { storage with ref := 0 } := loadStorage_eq (Table.item?_put_self (Table.lt_of_item? hp))
        change (loadStorage heap p >>= fun storage ↦ _) = _
        rw [loadStorage_eq hp]
        change (if storage.ref - 1 = 0 then _ else _) = _
        have hdtor : arrStrgDtor elem p (storeStorage heap p { storage with ref := 0 } heap.blocks) =
            .ok ⟨Table.put heap.storages p { storage with ref := 0 }, bs'⟩ := by
          rw [arrStrgDtor, hstored]
          change (destroyN elem storage.dat 0 (some storage.len) heap.blocks >>= fun blocks ↦ _) = _
          rw [show destroyN elem storage.dat 0 (some storage.len) heap.blocks = .ok bs from hdestroyed]
          change (callFree elem storage.dat bs >>= fun blocks ↦ _) = _
          rw [hfreed]
          rfl
        rw [hsubed, hzero, if_pos Int.natCast_zero]
        change (arrStrgDtor elem p (storeStorage heap p { storage with ref := 0 } heap.blocks) >>= fun heap ↦ _) = _
        rw [hdtor]
        change Except.ok (Heap.mk (Table.remove (Table.put heap.storages p _) p) bs') = _
        rw [Table.remove_put]
      · rw [collect, if_pos hzero]
        exact hremoved
    · have hset := h.setRef hp (Nat.pos_of_ne_zero hzero) fun q hq ↦ (addRef_ne hq refs).symm
      have hcollect : collect refs (some p) arrays = arrays := if_neg hzero
      refine ⟨_, ?_, hcollect.symm ▸ hset⟩
      change (loadStorage heap p >>= fun storage ↦ _) = _
      rw [loadStorage_eq hp]
      change (if storage.ref - 1 = 0 then _ else _) = _
      rw [hsubed, if_neg fun heq ↦ hzero (Int.natCast_eq_zero.mp heq)]
      rfl

/-- With the last pointer to an array that has no block, null is passed. -/
theorem ptrDec_null (h : Owned elem (addRef (some p) refs) heap arrays) (hg : Table.item? arrays p = some g)
    (hzero : refs p = 0) (hroom : g.room = 0) (hnonNull : elem.nonNull = true) :
    ptrDec elem (some p) heap = .error .fault := by
  obtain ⟨storage, hp⟩ := h.array hg
  have hdat := (h.holds hp hg).noBlock hroom
  have hsubed : storage.ref - 1 = 0 := by
    rw [(h.counted hp).1, addRef_self, hzero]
    rfl
  have hstored : loadStorage (storeStorage heap p { storage with ref := storage.ref - 1 } heap.blocks) p =
      .ok { storage with ref := storage.ref - 1 } := loadStorage_eq (Table.item?_put_self (Table.lt_of_item? hp))
  change (loadStorage heap p >>= fun storage ↦ _) = _
  rw [loadStorage_eq hp]
  change (if storage.ref - 1 = 0 then _ else _) = _
  rw [if_pos hsubed, arrStrgDtor, hstored]
  change (destroyN elem storage.dat 0 (some storage.len) heap.blocks >>= fun blocks ↦ _) >>= _ = _
  rw [hdat, destroyN, passNonNull_none hnonNull]
  rfl

end

/-! ## Outcomes -/

/-- The computation panics only with a reason, has no fault, and returns what it should. -/
def Meets {α : Type} (r : Except Stop α) (reason : Prop) (P : α → Prop) : Prop :=
  match r with
  | .ok a => P a
  | .error .panic => reason
  | .error .fault => False

section

variable {α β : Type} {r : Except Stop α} {reason reason' : Prop} {P P' : α → Prop}

theorem Meets.mono (h : Meets r reason P) (hreason : reason → reason') (hP : ∀ a, P a → P' a) : Meets r reason' P' := by
  cases r with
  | ok a => exact hP a h
  | error stop =>
    cases stop with
    | panic => exact hreason h
    | fault => exact h

theorem Meets.bind {f : α → Except Stop β} {Q : β → Prop} (h : Meets r reason P) (hf : ∀ a, P a → Meets (f a) reason Q) :
    Meets (r >>= f) reason Q := by
  cases r with
  | ok a => exact hf a h
  | error stop =>
    cases stop with
    | panic => exact h
    | fault => exact h.elim

theorem Meets.map {f : α → β} {Q : β → Prop} (h : Meets r reason P) (hf : ∀ a, P a → Q (f a)) :
    Meets (r.map f) reason Q := by
  cases r with
  | ok a => exact hf a h
  | error stop =>
    cases stop with
    | panic => exact h
    | fault => exact h.elim

theorem Meets.panics (h : Meets r reason P) (hP : ∀ a, ¬P a) : r = .error .panic := by
  cases r with
  | ok a => exact absurd h (hP a)
  | error stop =>
    cases stop with
    | panic => rfl
    | fault => exact h.elim

theorem meets_ok {f : α → Except Stop β} {Q : β → Prop} {a : α} (hr : r = .ok a) (h : Meets (f a) reason Q) :
    Meets (r >>= f) reason Q := by
  subst hr
  exact h

theorem meets_defined {f : α → Except Stop β} {Q : β → Prop} {a : α} {o : Option α} (ho : o = some a)
    (h : Meets (f a) reason Q) : Meets (defined o >>= f) reason Q := by
  subst ho
  exact h

end

/-! ## Growing -/

section

variable {refs : ℕ → ℕ} {heap : Heap V} {arrays : Table (Growable V)} {p : ℕ} {g : Growable V} {storage : Storage}
  {malloc : Bool}

/-- The array gets the room that is asked for, and keeps its elements. -/
theorem reallocate_spec (h : Owned elem refs heap arrays) (hg : Table.item? arrays p = some g) {cap : BitVec 32}
    (hnull : elem.nonNull = true → malloc = true → g.room ≠ 0) (hroom : g.items.length ≤ cap.toNat) (hpos : 0 < cap.toNat)
    (hfits : ReallocFits elem.toElem malloc g.items.length cap.toNat) :
    Meets (reallocate elem malloc p cap heap) (malloc = false) fun heap' ↦
      Owned elem refs heap' (Table.put arrays p ⟨g.items, cap.toNat, hroom⟩) := by
  cases malloc with
  | false => exact (rfl : false = false)
  | true =>
    obtain ⟨hbytes, hmove⟩ := hfits rfl
    obtain ⟨storage, hp⟩ := h.array hg
    have hholds := h.holds hp hg
    -- the new block is not one of those before
    have hfresh : storage.dat ≠ some heap.blocks.length := fun heq ↦ by
      obtain ⟨block, hblock⟩ := hholds.filled.entry heq
      cases (Table.item?_length heap.blocks).symm.trans hblock
    have hadded : Filled elem (Table.add heap.blocks (List.replicate cap.toNat none)) storage.dat g.items g.room :=
      hholds.filled.congr fun b hb ↦ Table.item?_add_ne fun heq ↦ hfresh (hb.trans (congrArg some heq))
    obtain ⟨bs, hmoved, hempty, hfilled, hlength, hother⟩ := moveN_spec hadded
      (filled_new heap.blocks cap.toNat) (hholds.dat_ne_none fun hnonNull ↦ hnull hnonNull rfl) hfresh hholds.len hroom
      (hholds.len.symm ▸ hmove)
    obtain ⟨bs', hfreed, htouches, hgone⟩ := callFree_spec hempty
    refine meets_ok (callAlloc_spec hbytes) (meets_ok (loadStorage_eq hp) (meets_ok hmoved (meets_ok hfreed ?_)))
    refine h.replace hp { storage with dat := some heap.blocks.length, cap := cap } ⟨(h.counted hp).1, (h.counted hp).2⟩ (fun _ _ ↦ rfl) ?_
      ⟨hholds.len, rfl, hfilled.of_touches htouches fun b hb ↦ hb ▸ hfresh, fun hzero ↦ absurd hzero hpos.ne'⟩
    refine ⟨fun b hb hb' ↦ ?_, fun b hb _ ↦ hgone b hb, fun b hb ↦ .inr ?_⟩
    · have hne : b ≠ heap.blocks.length := fun heq ↦ hb' (congrArg some heq.symm)
      rw [htouches.entry b hb, hother b hb hne, Table.item?_add_ne hne]
    · rw [← Option.some.inj hb]
      exact Table.item?_length heap.blocks

/-- An array without a block passes null when it gets one. -/
theorem reallocate_null (hp : Table.item? heap.storages p = some storage) (hdat : storage.dat = none)
    (hnonNull : elem.nonNull = true) (cap : BitVec 32) : reallocate elem true p cap heap = .error .fault := by
  rw [reallocate, callAlloc, if_pos rfl, loadStorage_eq hp]
  change (moveN elem storage.dat storage.len _ _ >>= fun blocks ↦ _) = _
  rw [hdat, moveN, passNonNull_none hnonNull]
  rfl

/-- The room that the array has when it has grown for so many elements. -/
theorem grow_spec (h : Owned elem refs heap arrays) (hg : Table.item? arrays p = some g) {n : ℕ} {needed : Bool}
    (hnull : g.room < n → elem.nonNull = true → malloc = true → g.room ≠ 0) (hneeded : needed = true ↔ g.room < n) (hle : g.items.length ≤ n) {ceiled : Option (BitVec 32)}
    (hceiled : g.room < n → SignedFits 32 n → ∃ c, ceiled = some c ∧ c.toNat = leastPow2 n)
    (hfits : g.room < n → GrowFits elem.toElem malloc g.items.length n) :
    Meets (grow elem malloc needed p ceiled heap) (malloc = false) fun heap' ↦ (malloc = true ∨ n ≤ g.room) ∧
      Owned elem refs heap' (Table.put arrays p ⟨g.items, roomFor g.room n, hle.trans (Growable.le_roomFor _ _)⟩) := by
  by_cases hlt : g.room < n
  · obtain ⟨hsigned, hrealloc⟩ := hfits hlt
    obtain ⟨c, hc, hnat⟩ := hceiled hlt hsigned
    have hroom : g.items.length ≤ c.toNat := hnat ▸ hle.trans (le_leastPow2 n)
    rw [grow, if_pos (hneeded.mpr hlt), hc]
    cases malloc with
    | false => exact (rfl : false = false)
    | true =>
      have hpos : 0 < c.toNat := hnat ▸ (Nat.zero_lt_of_lt hlt).trans_le (le_leastPow2 n)
      refine meets_defined rfl (Meets.mono (reallocate_spec h hg (hnull hlt) hroom hpos (hnat ▸ hrealloc)) id ?_)
      intro heap' hheap'
      refine ⟨.inl rfl, ?_⟩
      convert hheap' using 3
      rw [roomFor, if_pos hlt, hnat]
  · rw [grow, if_neg fun hneed ↦ hlt (hneeded.mp hneed)]
    refine ⟨.inr (Nat.le_of_not_lt hlt), ?_⟩
    convert h using 1
    refine Table.put_entry ?_
    rw [hg]
    congr 1
    ext1
    · rfl
    · exact (if_neg hlt).symm

end

/-! ## Builtin functions -/

/-- The storage without its elements. -/
def Storage.numbers (elem : ElemType V) (storage : Storage) : ArrayLengths.Storage :=
  ⟨storage.cap, storage.len, storage.cap.toNat * elem.size⟩

section

variable {refs : ℕ → ℕ} {heap : Heap V} {arrays : Table (Growable V)} {p : ℕ} {g g' : Growable V} {storage : Storage}
  {malloc : Bool}

/-- The elements of an array change in their block, and its length with them. -/
theorem Owned.setItems (h : Owned elem refs heap arrays) (hg : Table.item? arrays p = some g)
    (hp : Table.item? heap.storages p = some storage) {bs : Blocks V} {len : BitVec 32}
    (htouches : Touches storage.dat heap.blocks bs) (hlen : len.toNat = g'.items.length) (hroom : g'.room = g.room)
    (hfilled : Filled elem bs storage.dat g'.items g.room) :
    Owned elem refs (storeStorage heap p { storage with len := len } bs) (Table.put arrays p g') :=
  h.replace hp { storage with len := len } ⟨(h.counted hp).1, (h.counted hp).2⟩ (fun _ _ ↦ rfl) htouches.rehouses ⟨hlen, (h.holds hp hg).cap.trans hroom.symm, hroom ▸ hfilled, fun hzero ↦ (h.holds hp hg).noBlock (hroom ▸ hzero)⟩

/-- After an array has grown. -/
theorem Owned.grown (h : Owned elem refs heap (Table.put arrays p g')) (hg : Table.item? arrays p = some g) :
    ∃ storage, Table.item? heap.storages p = some storage ∧ Holds elem heap.blocks storage g' ∧
      ∀ {heap' : Heap V} {g'' : Growable V}, Owned elem refs heap' (Table.put (Table.put arrays p g') p g'') →
        Owned elem refs heap' (Table.put arrays p g'') := by
  have hself : Table.item? (Table.put arrays p g') p = some g' := Table.item?_put_self (Table.lt_of_item? hg)
  obtain ⟨storage, hp⟩ := h.array hself
  exact ⟨storage, hp, h.holds hp hself, fun h'' ↦ by rwa [Table.put_put] at h''⟩

theorem Owned.apart (h : Owned elem refs heap (Table.put arrays p g')) {q : ℕ} (hqp : q ≠ p)
    (hg : Table.item? arrays q = some g) :
    ∃ storage, Table.item? heap.storages q = some storage ∧ Holds elem heap.blocks storage g := by
  have hq := (Table.item?_put_ne (x := g') hqp.symm).trans hg
  obtain ⟨storage, hstorage⟩ := h.array hq
  exact ⟨storage, hstorage, h.holds hstorage hq⟩

theorem btnPushBack_spec (h : Owned elem refs heap arrays) (hg : Table.item? arrays p = some g)
    (hp : Table.item? heap.storages p = some storage) (v : V)
    (hnull : elem.nonNull = true → malloc = true → g.room ≠ 0)
    (hfits : Fits elem.toElem (storage.numbers elem) ⟨.pushBack, malloc⟩) :
    Meets (btnPushBack elem malloc p v heap) (malloc = false) fun heap' ↦
      Owned elem refs heap' (Table.put arrays p (g.append [v])) := by
  have hholds := h.holds hp hg
  obtain ⟨hadd, hgrow⟩ : AddFits 32 storage.len.toNat 1 ∧
    (storage.len.toNat = storage.cap.toNat → GrowFits elem.toElem malloc storage.len.toNat (storage.len.toNat + 1)) := hfits
  obtain ⟨len, hlen, hnat⟩ := (nswAdd_gives storage.len 1 (by decide)).mpr hadd
  have hnat : len.toNat = g.items.length + 1 := hholds.len ▸ hnat
  rw [hholds.len, hholds.cap] at hgrow
  have hfull : g.room < g.items.length + 1 ↔ g.items.length = g.room := by
    have := g.fits
    omega
  have hneeded : (storage.len == storage.cap) = true ↔ g.room < g.items.length + 1 := by
    rw [hfull, beq_iff_eq, ← BitVec.toNat_inj, hholds.len, hholds.cap]
  refine meets_ok (loadStorage_eq hp) ?_
  dsimp only
  rw [hlen]
  refine (grow_spec h hg (fun _ ↦ hnull) hneeded (Nat.le_succ _) (fun _ hsigned ↦ ?_) fun hlt ↦ hgrow (hfull.mp hlt)).bind fun heap' ⟨_, hheap'⟩ ↦ ?_
  · rcases ceilToPow2_cases (n := len) (by omega) with ⟨-, c, hc, hleast⟩ | ⟨hnot, -⟩
    · exact ⟨c, hc, hnat ▸ hleast⟩
    · exact absurd (hnat.symm ▸ hsigned) hnot
  · obtain ⟨storage', hp', hholds', hput⟩ := hheap'.grown hg
    have hroom : g.items.length < roomFor g.room (g.items.length + 1) := Growable.le_roomFor _ _
    obtain ⟨bs, hconstruct, hfilled, htouches⟩ := constructElem_spec v hholds'.filled hroom
    rw [hholds.len]
    refine meets_ok (loadStorage_eq hp') (meets_defined hconstruct (meets_defined rfl ?_))
    refine hput (hheap'.setItems (Table.item?_put_self (Table.lt_of_item? hg)) hp' htouches ?_ ?_ hfilled)
    · exact hnat.trans (g.length_append [v]).symm
    · exact congrArg (roomFor g.room) (g.length_append [v])

theorem btnAppend_spec (h : Owned elem refs heap arrays) (hg : Table.item? arrays p = some g)
    (hp : Table.item? heap.storages p = some storage) {q : ℕ} {other : Growable V} {otherStorage : Storage}
    (hother : Table.item? arrays q = some other) (hq : Table.item? heap.storages q = some otherStorage)
    (hnull : elem.nonNull = true → other.room ≠ 0 ∧ (malloc = true ∨ other.items = [] → g.room ≠ 0))
    (hfits : Fits elem.toElem (storage.numbers elem) ⟨.append otherStorage.len, malloc⟩) :
    Meets (btnAppend elem malloc p q heap) (malloc = false) fun heap' ↦
      Owned elem refs heap' (Table.put arrays p (g.append other.items)) := by
  have hholds := h.holds hp hg
  have hotherLen := (h.holds hq hother).len
  obtain ⟨hadd, hgrow, hwrite⟩ : AddFits 32 storage.len.toNat otherStorage.len.toNat ∧
    (storage.cap.toNat < storage.len.toNat + otherStorage.len.toNat →
      GrowFits elem.toElem malloc storage.len.toNat (storage.len.toNat + otherStorage.len.toNat)) ∧
    (malloc = true ∨ storage.len.toNat + otherStorage.len.toNat ≤ storage.cap.toNat →
      WriteFits elem.toElem (elem.cat = .trivially_copyable) otherStorage.len.toNat) := hfits
  obtain ⟨totalLen, htotalLen, hnat⟩ := (nswAdd_gives storage.len otherStorage.len (by decide)).mpr hadd
  rw [hholds.len, hholds.cap, hotherLen] at hgrow
  rw [hholds.len, hotherLen] at hnat
  have hneeded : storage.cap.ult totalLen = true ↔ g.room < g.items.length + other.items.length := by
    rw [ult_iff, hholds.cap, hnat]
  refine meets_ok (loadStorage_eq hp) (meets_ok (loadStorage_eq hq) (meets_defined htotalLen ?_))
  refine (grow_spec h hg (fun _ hnonNull hmalloc ↦ (hnull hnonNull).2 (.inl hmalloc)) hneeded (Nat.le_add_right _ _) (fun hlt hsigned ↦ ?_) hgrow).bind fun heap' ⟨hmalloc, hheap'⟩ ↦ ?_
  · rcases ceilToPow2_cases (n := totalLen) (by omega) with ⟨-, c, hc, hleast⟩ | ⟨hnot, -⟩
    · exact ⟨c, hc, hnat ▸ hleast⟩
    · exact absurd (hnat.symm ▸ hsigned) hnot
  · obtain ⟨storage', hp', hholds', hput⟩ := hheap'.grown hg
    have hroom' : elem.nonNull = true → roomFor g.room (g.items.length + other.items.length) ≠ 0 := by
      intro hnonNull hzero
      have hle := Growable.le_roomFor g.room (g.items.length + other.items.length)
      have hgrows : ¬g.room < g.items.length + other.items.length := by omega
      have hempty : other.items = [] := List.eq_nil_of_length_eq_zero (by omega)
      rw [roomFor, if_neg hgrows] at hzero
      exact (hnull hnonNull).2 (.inr hempty) hzero
    have hdat' := hholds'.dat_ne_none hroom'
    -- where the two arrays are the same, the other one has grown too
    obtain ⟨otherStorage', hq', hsrc, hsrcDat⟩ : ∃ otherStorage', Table.item? heap'.storages q = some otherStorage' ∧
        ((∃ room', Filled elem heap'.blocks otherStorage'.dat other.items room') ∧
        (otherStorage'.dat = storage'.dat → other.items = g.items)) ∧
        (elem.nonNull = true → otherStorage'.dat ≠ none) := by
      by_cases hqp : q = p
      · subst hqp
        cases hother.symm.trans hg
        exact ⟨storage', hp', ⟨⟨_, hholds'.filled⟩, fun _ ↦ rfl⟩, hdat'⟩
      · obtain ⟨otherStorage', hq', hholds''⟩ := hheap'.apart hqp hother
        have hfilled := hholds''.filled
        refine ⟨otherStorage', hq', ⟨⟨_, hfilled⟩, fun hdat ↦ ?_⟩, hholds''.dat_ne_none fun hnonNull ↦ (hnull hnonNull).1⟩
        have hfilled' := hholds'.filled
        cases hdat' : storage'.dat with
        | none =>
          rw [hdat'] at hdat hfilled'
          rw [hdat] at hfilled
          exact hfilled.1.trans hfilled'.1.symm
        | some b => exact absurd (hheap'.distinct hq' hp' (hdat.trans hdat') hdat') hqp
    have hroom : g.items.length + other.items.length ≤ roomFor g.room (g.items.length + other.items.length) :=
      Growable.le_roomFor _ _
    have hcopyFits := hwrite (hmalloc.imp_right fun hle ↦ by rwa [hholds.len, hholds.cap, hotherLen])
    obtain ⟨bs, hcopy, hfilled, htouches⟩ := copyN_spec hholds'.filled
      (fun hnonNull ↦ ⟨hsrcDat hnonNull, hdat' hnonNull⟩) hotherLen hroom hsrc hcopyFits
    rw [hholds.len]
    refine meets_ok (loadStorage_eq hq') (meets_ok (loadStorage_eq hp') (meets_ok hcopy ?_))
    refine hput (hheap'.setItems (Table.item?_put_self (Table.lt_of_item? hg)) hp' htouches ?_ ?_ hfilled)
    · exact hnat.trans (g.length_append other.items).symm
    · exact congrArg (roomFor g.room) (g.length_append other.items)

theorem btnPopBack_spec (h : Owned elem refs heap arrays) (hg : Table.item? arrays p = some g)
    (hp : Table.item? heap.storages p = some storage)
    (hfits : Fits elem.toElem (storage.numbers elem) ⟨.popBack, malloc⟩) :
    Meets (btnPopBack elem p heap) (g.items = []) fun heap' ↦
      g.items ≠ [] ∧ Owned elem refs heap' (Table.put arrays p g.pop) := by
  have hholds := h.holds hp hg
  have hfits : storage.len.toNat ≠ 0 → SubFits 32 storage.len.toNat 1 := hfits
  refine meets_ok (loadStorage_eq hp) ?_
  by_cases hempty : g.items = []
  · have hzero : storage.len = 0 := BitVec.eq_of_toNat_eq (hholds.len.trans (congrArg List.length hempty))
    rw [if_neg (not_not_intro hzero)]
    exact hempty
  · have hpos : 0 < g.items.length := List.length_pos_iff.mpr hempty
    have hne : storage.len.toNat ≠ 0 := hholds.len ▸ hpos.ne'
    have hone : (1 : BitVec 32).toNat ≤ storage.len.toNat := Nat.pos_of_ne_zero hne
    rw [if_pos fun heq ↦ hne (congrArg BitVec.toNat heq)]
    obtain ⟨len, hlen, hnat⟩ := (nswSub_gives storage.len 1 (by decide) hone).mpr (hfits hne)
    have hsplit : g.items.dropLast ++ [g.items.getLast hempty] = g.items := List.dropLast_append_getLast hempty
    have hnat : len.toNat = g.items.dropLast.length := by
      rw [List.length_dropLast, ← hholds.len]
      exact hnat
    have hfilled := hholds.filled
    rw [← hsplit] at hfilled
    obtain ⟨bs, hdestroy, hfilled', htouches⟩ := destroyElem_spec hfilled
    refine meets_defined hlen (meets_defined (hnat ▸ hdestroy) ⟨hempty, ?_⟩)
    exact h.setItems hg hp htouches hnat rfl hfilled'

theorem btnResize_spec (h : Owned elem refs heap arrays) (hg : Table.item? arrays p = some g)
    (hp : Table.item? heap.storages p = some storage) {len : BitVec 32}
    (hnull : elem.nonNull = true → len = 0 ∨ malloc = true → g.room ≠ 0)
    (hfits : Fits elem.toElem (storage.numbers elem) ⟨.resize len, malloc⟩) :
    Meets (btnResize elem malloc p len heap) (malloc = false) fun heap' ↦
      Owned elem refs heap' (Table.put arrays p (g.resize elem.default len.toNat)) := by
  have hholds := h.holds hp hg
  have hfits : if len.toNat ≤ storage.len.toNat then
      elem.cat ≠ .trivially_copyable → SubFits 32 storage.len.toNat len.toNat ∧ SignedFits 32 (storage.len.toNat - len.toNat)
    else (storage.cap.toNat < len.toNat → GrowFits elem.toElem malloc storage.len.toNat len.toNat) ∧
      (malloc = true ∨ len.toNat ≤ storage.cap.toNat → SubFits 32 len.toNat storage.len.toNat ∧
        WriteFits elem.toElem (elem.cat = .trivially_copyable) (len.toNat - storage.len.toNat)) := hfits
  rw [hholds.len, hholds.cap] at hfits
  have hule : len.ule storage.len = true ↔ len.toNat ≤ g.items.length := by
    rw [BitVec.ule, decide_eq_true_iff, hholds.len]
  refine meets_ok (loadStorage_eq hp) ?_
  by_cases hle : len.toNat ≤ g.items.length
  · rw [if_pos hle] at hfits
    rw [if_pos (hule.mpr hle)]
    have htake : (g.items.take len.toNat).length = len.toNat := by rw [List.length_take, Nat.min_eq_left hle]
    have hfilled := hholds.filled
    rw [← List.take_append_drop len.toNat g.items] at hfilled
    have hcount : elem.cat ≠ .trivially_copyable → ∃ count, nswSub storage.len len = some count ∧
        count.toNat = (g.items.drop len.toNat).length ∧ SignedFits 32 count.toNat := fun hnontrivial ↦ by
      obtain ⟨hsub, hsigned⟩ := hfits hnontrivial
      obtain ⟨count, hcount, hnat⟩ := (nswSub_gives storage.len len (by decide) (hholds.len.symm ▸ hle)).mpr
        (hholds.len.symm ▸ hsub)
      rw [hholds.len] at hnat
      exact ⟨count, hcount, hnat.trans List.length_drop.symm, hnat.symm ▸ hsigned⟩
    have hdat := hholds.dat_ne_none fun hnonNull hzero ↦ by
      have hfits := g.fits
      have hlen : len = 0 := BitVec.eq_of_toNat_eq (Nat.eq_zero_of_le_zero (by omega))
      exact hnull hnonNull (.inl hlen) hzero
    obtain ⟨bs, hdestroy, hfilled', htouches⟩ := destroyN_spec hfilled hdat hcount
    rw [htake] at hdestroy
    have hitems : (g.resize elem.default len.toNat).items = g.items.take len.toNat := by
      change g.items.take len.toNat ++ List.replicate (len.toNat - g.items.length) elem.default = _
      rw [Nat.sub_eq_zero_of_le hle, List.replicate_zero, List.append_nil]
    refine meets_ok hdestroy (h.setItems hg hp htouches (g.length_resize _ _ |>.symm) ?_ (hitems.symm ▸ hfilled'))
    exact if_neg (Nat.not_lt_of_le (hle.trans g.fits))
  · rw [if_neg hle] at hfits
    obtain ⟨hgrow, hconstructFits⟩ := hfits
    rw [if_neg fun hule' ↦ hle (hule.mp hule')]
    have hlt : g.items.length < len.toNat := Nat.lt_of_not_le hle
    have hneeded : storage.cap.ult len = true ↔ g.room < len.toNat := by rw [ult_iff, hholds.cap]
    refine (grow_spec h hg (fun _ hnonNull hmalloc ↦ hnull hnonNull (.inr hmalloc)) hneeded hlt.le (fun _ hsigned ↦ ?_) hgrow).bind fun heap' ⟨hmalloc, hheap'⟩ ↦ ?_
    · rcases ceilToPow2_cases (n := len) (by omega) with ⟨-, hleast⟩ | ⟨hnot, -⟩
      · exact hleast
      · exact absurd hsigned hnot
    · obtain ⟨storage', hp', hholds', hput⟩ := hheap'.grown hg
      obtain ⟨hsub, hwrite⟩ := hconstructFits hmalloc
      obtain ⟨count, hcount, hnat⟩ := (nswSub_gives len storage.len (by decide) (hholds.len.symm ▸ hlt.le)).mpr
        (hholds.len.symm ▸ hsub)
      rw [hholds.len] at hnat
      have hroom : g.items.length + count.toNat ≤ roomFor g.room len.toNat := by
        have := Growable.le_roomFor g.room len.toNat
        omega
      have hdat := hholds'.dat_ne_none fun _ ↦ (Nat.zero_lt_of_lt (hlt.trans_le (Growable.le_roomFor g.room len.toNat))).ne'
      obtain ⟨bs, hconstruct, hfilled, htouches⟩ := constructN_spec hholds'.filled hdat hroom (hnat.symm ▸ hwrite)
      have hitems : (g.resize elem.default len.toNat).items = g.items ++ List.replicate count.toNat elem.default := by
        change g.items.take len.toNat ++ List.replicate (len.toNat - g.items.length) elem.default = _
        rw [List.take_of_length_le hlt.le, hnat]
      rw [hholds.len]
      refine meets_ok (loadStorage_eq hp') (meets_defined hcount (meets_ok hconstruct ?_))
      refine hput (hheap'.setItems (Table.item?_put_self (Table.lt_of_item? hg)) hp' htouches ?_ rfl (hitems.symm ▸ hfilled))
      exact (g.length_resize _ _).symm

theorem btnReserve_spec (h : Owned elem refs heap arrays) (hg : Table.item? arrays p = some g)
    (hp : Table.item? heap.storages p = some storage) {cap : BitVec 32}
    (hnull : elem.nonNull = true → cap ≠ 0 → malloc = true → g.room ≠ 0)
    (hfits : Fits elem.toElem (storage.numbers elem) ⟨.reserve cap, malloc⟩) :
    Meets (btnReserve elem malloc p cap heap) (malloc = false) fun heap' ↦
      Owned elem refs heap' (Table.put arrays p (g.reserve cap.toNat)) := by
  have hholds := h.holds hp hg
  have hfits : storage.cap.toNat < cap.toNat → ReallocFits elem.toElem malloc storage.len.toNat cap.toNat := hfits
  rw [hholds.len, hholds.cap] at hfits
  have hult : storage.cap.ult cap = true ↔ g.room < cap.toNat := by rw [ult_iff, hholds.cap]
  refine meets_ok (loadStorage_eq hp) ?_
  by_cases hlt : g.room < cap.toNat
  · rw [if_pos (hult.mpr hlt)]
    have hroom : g.items.length ≤ cap.toNat := g.fits.trans hlt.le
    have hreserve : g.reserve cap.toNat = ⟨g.items, cap.toNat, hroom⟩ := by
      ext1
      · rfl
      · exact Nat.max_eq_right hlt.le
    have hne : cap ≠ 0 := by
      rintro rfl
      exact Nat.not_lt_zero _ hlt
    exact hreserve ▸ reallocate_spec h hg (fun hnonNull ↦ hnull hnonNull hne) hroom (Nat.zero_lt_of_lt hlt) (hfits hlt)
  · rw [if_neg fun hult' ↦ hlt (hult.mp hult')]
    have hreserve : g.reserve cap.toNat = g := by
      ext1
      · rfl
      · exact Nat.max_eq_left (Nat.le_of_not_lt hlt)
    change Owned elem refs heap _
    rwa [hreserve, Table.put_entry hg]

/-! ### Arrays without a block -/

theorem Holds.empty {blocks : Blocks V} (h : Holds elem blocks storage g) (hroom : g.room = 0) :
    g.items = [] ∧ storage.dat = none ∧ storage.len = 0 ∧ storage.cap = 0 := by
  have hitems : g.items.length = 0 := Nat.eq_zero_of_le_zero (hroom ▸ g.fits)
  exact ⟨List.eq_nil_of_length_eq_zero hitems, h.noBlock hroom, BitVec.eq_of_toNat_eq (h.len.trans hitems),
    BitVec.eq_of_toNat_eq (h.cap.trans hroom)⟩

theorem grow_null (hp : Table.item? heap.storages p = some storage) (hdat : storage.dat = none)
    (hnonNull : elem.nonNull = true) (cap : BitVec 32) : grow elem true true p (some cap) heap = .error .fault := by
  rw [grow, if_pos rfl]
  exact reallocate_null hp hdat hnonNull cap

/-- A number of elements for which there is room after growing. -/
theorem ceilToPow2_eq {n : ℕ} {len : BitVec 32} (hlen : len.toNat = n) (hpos : 0 < n) (hsigned : SignedFits 32 n) :
    ∃ c, ceilToPow2 len = some c := by
  rcases ceilToPow2_cases (n := len) (hlen ▸ hpos) with ⟨-, c, hc, -⟩ | ⟨hnot, -⟩
  · exact ⟨c, hc⟩
  · exact absurd (hlen.symm ▸ hsigned) hnot

theorem btnPushBack_null (hp : Table.item? heap.storages p = some storage) (hholds : Holds elem heap.blocks storage g)
    (v : V) (hroom : g.room = 0) (hnonNull : elem.nonNull = true) : btnPushBack elem true p v heap = .error .fault := by
  obtain ⟨-, hdat, hlen, hcap⟩ := hholds.empty hroom
  rw [btnPushBack, loadStorage_eq hp]
  change (grow elem true (storage.len == storage.cap) p ((nswAdd storage.len 1).bind ceilToPow2) heap >>= _) = _
  have hceil : (nswAdd (0 : BitVec 32) 1).bind ceilToPow2 = some 1 := by decide
  rw [hlen, hcap, hceil]
  change (grow elem true true p (some 1) heap >>= _) = _
  rw [grow_null hp hdat hnonNull]
  rfl

theorem btnReserve_null (hp : Table.item? heap.storages p = some storage) (hholds : Holds elem heap.blocks storage g)
    {cap : BitVec 32} (hcap : cap ≠ 0) (hroom : g.room = 0) (hnonNull : elem.nonNull = true) :
    btnReserve elem true p cap heap = .error .fault := by
  obtain ⟨-, hdat, -, hzero⟩ := hholds.empty hroom
  have hult : storage.cap.ult cap = true := by
    rw [ult_iff, hzero]
    exact Nat.pos_of_ne_zero fun h ↦ hcap (BitVec.eq_of_toNat_eq h)
  rw [btnReserve, loadStorage_eq hp]
  change (if storage.cap.ult cap then _ else _) = _
  rw [if_pos hult]
  exact reallocate_null hp hdat hnonNull cap

theorem btnResize_null (hp : Table.item? heap.storages p = some storage) (hholds : Holds elem heap.blocks storage g)
    {len : BitVec 32} (hlen : len = 0 ∨ malloc = true) (hroom : g.room = 0) (hnonNull : elem.nonNull = true)
    (hfits : Fits elem.toElem (storage.numbers elem) ⟨.resize len, malloc⟩) :
    btnResize elem malloc p len heap = .error .fault := by
  obtain ⟨-, hdat, hzero, hcap⟩ := hholds.empty hroom
  have hfits : if len.toNat ≤ storage.len.toNat then
      elem.cat ≠ .trivially_copyable → SubFits 32 storage.len.toNat len.toNat ∧ SignedFits 32 (storage.len.toNat - len.toNat)
    else (storage.cap.toNat < len.toNat → GrowFits elem.toElem malloc storage.len.toNat len.toNat) ∧
      (malloc = true ∨ len.toNat ≤ storage.cap.toNat → SubFits 32 len.toNat storage.len.toNat ∧
        WriteFits elem.toElem (elem.cat = .trivially_copyable) (len.toNat - storage.len.toNat)) := hfits
  rw [btnResize, loadStorage_eq hp]
  change (if len.ule storage.len then _ else _) = _
  by_cases hempty : len = 0
  · have hule : len.ule storage.len = true := by
      rw [hempty, hzero]
      rfl
    rw [if_pos hule]
    change (destroyN elem storage.dat _ _ _ >>= _) = _
    rw [hdat, destroyN, passNonNull_none hnonNull]
    rfl
  · have hpos : 0 < len.toNat := Nat.pos_of_ne_zero fun h ↦ hempty (BitVec.eq_of_toNat_eq h)
    have hnot : ¬len.toNat ≤ storage.len.toNat := by
      rw [hzero]
      exact Nat.not_le_of_lt hpos
    have hlt : storage.cap.toNat < len.toNat := by
      rw [hcap]
      exact hpos
    rw [if_neg hnot] at hfits
    obtain ⟨c, hc⟩ := ceilToPow2_eq rfl hpos (hfits.1 hlt).1
    have hule : ¬len.ule storage.len = true := by rwa [BitVec.ule, decide_eq_true_iff]
    obtain rfl : malloc = true := hlen.resolve_left hempty
    rw [if_neg hule]
    change (grow elem true (storage.cap.ult len) p (ceilToPow2 len) heap >>= _) = _
    rw [(ult_iff _ _).mpr hlt, hc, grow_null hp hdat hnonNull]
    rfl

theorem btnAppend_null {q : ℕ} {other : Growable V} {otherStorage : Storage}
    (hp : Table.item? heap.storages p = some storage) (hholds : Holds elem heap.blocks storage g)
    (hq : Table.item? heap.storages q = some otherStorage) (hother : Holds elem heap.blocks otherStorage other)
    (hroom : other.room = 0 ∨ g.room = 0 ∧ (malloc = true ∨ other.items = [])) (hnonNull : elem.nonNull = true)
    (hfits : Fits elem.toElem (storage.numbers elem) ⟨.append otherStorage.len, malloc⟩) :
    btnAppend elem malloc p q heap = .error .fault := by
  obtain ⟨hadd, hgrow, -⟩ : AddFits 32 storage.len.toNat otherStorage.len.toNat ∧
    (storage.cap.toNat < storage.len.toNat + otherStorage.len.toNat →
      GrowFits elem.toElem malloc storage.len.toNat (storage.len.toNat + otherStorage.len.toNat)) ∧
    (malloc = true ∨ storage.len.toNat + otherStorage.len.toNat ≤ storage.cap.toNat →
      WriteFits elem.toElem (elem.cat = .trivially_copyable) otherStorage.len.toNat) := hfits
  obtain ⟨totalLen, htotalLen, hnat⟩ := (nswAdd_gives storage.len otherStorage.len (by decide)).mpr hadd
  rw [btnAppend, loadStorage_eq hp, loadStorage_eq hq]
  change (defined (nswAdd storage.len otherStorage.len) >>= _) = _
  rw [htotalLen]
  change (grow elem malloc (storage.cap.ult totalLen) p (ceilToPow2 totalLen) heap >>= _) = _
  by_cases hempty : other.items = []
  · -- there is nothing to copy and nothing to grow for
    have hle : ¬storage.cap.ult totalLen = true := by
      rw [ult_iff, hnat, hother.len, hempty, hholds.len, hholds.cap]
      exact Nat.not_lt_of_le g.fits
    rw [Bool.not_eq_true] at hle
    rw [hle, grow, if_neg Bool.false_ne_true]
    change (loadStorage heap q >>= _) = _
    rw [loadStorage_eq hq]
    change (loadStorage heap p >>= _) = _
    rw [loadStorage_eq hp]
    change (copyN elem otherStorage.dat otherStorage.len storage.dat _ _ >>= _) = _
    have hcopy : copyN elem otherStorage.dat otherStorage.len storage.dat storage.len.toNat heap.blocks = .error .fault := by
      rw [copyN]
      cases hdat : otherStorage.dat with
      | none =>
        rw [passNonNull_none hnonNull]
        rfl
      | some b =>
        have hne : other.room ≠ 0 := fun hzero ↦ by
          rw [hother.noBlock hzero] at hdat
          cases hdat
        rw [passNonNull_ok fun _ ↦ Option.some_ne_none b, hholds.noBlock (hroom.resolve_left hne).1,
          passNonNull_none hnonNull]
        rfl
    rw [hcopy]
    rfl
  · have hne : other.room ≠ 0 := fun hzero ↦ hempty (hother.empty hzero).1
    obtain ⟨hzero, hmalloc⟩ := hroom.resolve_left hne
    obtain rfl : malloc = true := hmalloc.resolve_right hempty
    obtain ⟨-, hdat, hlen, hcap⟩ := hholds.empty hzero
    have hpos : 0 < storage.len.toNat + otherStorage.len.toNat := by
      rw [hother.len]
      exact Nat.add_pos_right _ (List.length_pos_iff.mpr hempty)
    have hlt : storage.cap.toNat < storage.len.toNat + otherStorage.len.toNat := by
      rw [hcap]
      exact hpos
    obtain ⟨c, hc⟩ := ceilToPow2_eq hnat hpos (hgrow hlt).1
    rw [(ult_iff _ _).mpr (hnat.symm ▸ hlt), hc, grow_null hp hdat hnonNull]
    rfl

end

end Stela.CodeGen.ArrayBuiltins
