import Stela.CodeGen.ArraySpecs
import Stela.CodeGen.Calls

/-!
# What an event leaves

Of the blocks that were there before an event, those are left that keep an owner when the event has released
what it releases. A function that grows an array releases nothing, and keeps all objects.
-/

namespace Stela.CodeGen.Calls

open Stela.Library.Regions Stela.Library.RefCount
open Stela.CodeGen.Pointer Stela.CodeGen.Array
open Stela.CodeGen.Closure (Clo)

variable {m m' : Heap} {obj : Loc} {a : ℕ} {elems : List Shape}

/-- What the events ask of their operands. Besides what is asked of an operation, a program destroys
one by one only the objects that are not in a block. -/
def Allowed (s : State) : Event → Prop
  | .op op => Array.Allowed s.heap op ∧ ∀ obj, op = .destroy obj → count? s.heap obj.region = none
  | .pushBack obj value => ∃ elems a, Handle s.heap obj elems (some a) ∧ List.Forall₂ (Live s.heap) value elems
  | .append obj other => ∃ elems a b, Handle s.heap obj elems (some a) ∧ Handle s.heap other elems (some b) ∧
      Complete s.heap b
  | .popBack obj => ∃ elems a, Handle s.heap obj elems (some a) ∧ elems.length ≤ size s.heap a ∧
      Constructed s.heap obj
  | .resize obj _ => ∃ elems a, Handle s.heap obj elems (some a) ∧ Constructed s.heap obj
  | .reserve obj _ => ∃ elems a, Handle s.heap obj elems (some a)
  | .callFuncPtr func => Live s.heap func .closure
  | .ret => s.calls ≠ []

/-- The objects that an event releases. -/
def Event.released (m : Heap) : Event → Loc → Prop
  | .op o, l => o.released l
  | .popBack obj, l => pointer m obj = some l.region ∧
      size m l.region - (elemsOf m l.region).length ≤ l.index
  | .resize obj len, l => pointer m obj = some l.region ∧ len * (elemsOf m l.region).length ≤ l.index
  | _, _ => False

/-- What an event has counted before it releases an object. -/
def Event.pinned (m : Heap) : Event → List (Option ℕ)
  | .op o => Array.pinned m o
  | _ => []

/-- The event leaves the blocks that its operands are stored in with an owner. `btn_resize` uses the storage
after it has destroyed elements, `btn_pop_back` until it has read the last object in the element. -/
def Outlives (m : Heap) : Event → Prop
  | .op op => Array.Outlives m op
  | .popBack obj => ∀ a, pointer m obj = some a → 0 < (elemsOf m a).length →
      Backed m ((Event.popBack obj).released m) [pointer m ⟨a, size m a - 1⟩] a
  | .resize obj len => ∀ a, pointer m obj = some a → Backed m ((Event.resize obj len).released m) [] a
  | _ => True

/-- There is a counted block of the type. -/
def Block (m : Heap) (a : ℕ) (type : Shape) : Prop := ∃ r, region? m a = some r ∧ r.type = type ∧ r.count.isSome

/-- What is left of the heap after some objects were released. -/
structure After (m m' : Heap) (released : Loc → Prop) (pinned : List (Option ℕ)) : Prop where
  inv : Inv m'
  filled : Filled m'
  types : ∀ b type, Block m b type → IsBlock m' b → Block m' b type
  frees : ∀ b, IsBlock m b → (IsBlock m' b ↔ Backed m released pinned b)

theorem isBlock_iff {b : ℕ} : IsBlock m b ↔ ∃ type, Block m b type := by
  constructor
  · rintro ⟨n, hn⟩
    obtain ⟨r, hr, hcount⟩ := count?_eq_some.mp hn
    exact ⟨r.type, r, hr, rfl, by rw [hcount]; rfl⟩
  · rintro ⟨type, r, hr, -, hcount⟩
    obtain ⟨n, hn⟩ := Option.isSome_iff_exists.mp hcount
    exact ⟨n, count?_eq_some.mpr ⟨r, hr, hn⟩⟩

theorem Block.isBlock {type : Shape} (h : Block m a type) : IsBlock m a := isBlock_iff.mpr ⟨type, h⟩

/-- A handle points to a block of its type. -/
theorem block_of_handle (h : Inv m) (hobj : Handle m obj elems (some a)) : Block m a (.array elems) := by
  obtain ⟨v, hv, hdat⟩ := hobj
  obtain ⟨r, hr, htype⟩ := h.typed.target obj _ a hv hdat
  obtain ⟨n, hn⟩ := h.intact.isBlock_of_slot hv hdat
  obtain ⟨r', hr', hcount⟩ := count?_eq_some.mp hn
  cases hr.symm.trans hr'
  exact ⟨r, hr, htype, by rw [hcount]; rfl⟩

theorem pointer_of_handle (hobj : Handle m obj elems (some a)) : pointer m obj = some a := by
  obtain ⟨v, hv, hdat⟩ := hobj
  rw [pointer, hv]
  exact hdat

theorem storage_of_handle (hobj : Handle m obj elems (some a)) : storage m obj = .ok a := by
  obtain ⟨v, hv, hdat⟩ := hobj
  simp only [storage, load_eq_ok hv rfl, hdat, bind, Except.bind, Option.elim_some]

theorem elemsOf_eq (h : Block m a (.array elems)) : elemsOf m a = elems := by
  obtain ⟨r, hr, htype, -⟩ := h
  rw [elemsOf, hr, Option.elim_some, htype, Shape.elems]

theorem size_eq {r : Region Shape Clo} (hr : region? m a = some r) : size m a = r.slots.length := by
  rw [size, hr, Option.elim_some]

/-! ## Growing -/

/-- All objects and all blocks are still there. -/
structure Grown (m m' : Heap) : Prop where
  inv : Inv m'
  filled : Filled m'
  blocks : ∀ b type, Block m b type → Block m' b type
  slots : ∀ l s, slot? m l = some s → slot? m' l = some s

theorem Grown.refl (h : Inv m) (hfilled : Filled m) : Grown m m := ⟨h, hfilled, fun _ _ ↦ id, fun _ _ ↦ id⟩

theorem Grown.trans {m'' : Heap} (h : Grown m m') (h' : Grown m' m'') : Grown m m'' :=
  ⟨h'.inv, h'.filled, fun b type hb ↦ h'.blocks b type (h.blocks b type hb), fun l s hs ↦ h'.slots l s (h.slots l s hs)⟩

theorem Grown.after (h : Inv m) (hgrown : Grown m m') {released : Loc → Prop}
    (hnone : ∀ l s, slot? m l = some s → ¬released l) (pinned : List (Option ℕ)) : After m m' released pinned := by
  refine ⟨hgrown.inv, hgrown.filled, fun b type hb _ ↦ hgrown.blocks b type hb, fun b hb ↦ ?_⟩
  obtain ⟨type, hblock⟩ := isBlock_iff.mp hb
  exact iff_of_true (hgrown.blocks b type hblock).isBlock (backed_of_exact h.intact hnone pinned b)

/-- A slot for one more object of an element. -/
theorem inv_pushSlot (h : Inv m) (hblock : Block m a (.array elems)) {shape : Shape} (hshape : shape ∈ elems) :
    Inv (pushSlot m a shape) := by
  obtain ⟨r, hr, htype, -⟩ := hblock
  have hregion (b : ℕ) := region?_modifyRegion m a b fun r ↦ { r with slots := r.slots ++ [⟨shape, none⟩] }
  refine ⟨h.intact.congr (count?_pushSlot m a shape) (refs_pushSlot hr shape), ⟨fun l s b hs hb ↦ ?_, ?_⟩⟩
  · rw [slot?_pushSlot hr] at hs
    split_ifs at hs with hl
    · cases hs
      cases hb
    · obtain ⟨r', hr', htype'⟩ := h.typed.target l s b hs hb
      rw [pushSlot, hregion, hr']
      split_ifs
      · exact ⟨_, rfl, htype'⟩
      · exact ⟨r', rfl, htype'⟩
  · intro b r' hr' hcount elems' helems s hs
    rw [pushSlot, hregion] at hr'
    split_ifs at hr' with hab
    · subst hab
      rw [hr] at hr'
      cases hr'
      cases htype.symm.trans helems
      obtain hs | hs := List.mem_append.mp hs
      · exact h.typed.nested a r hr hcount elems htype s hs
      · cases List.mem_singleton.mp hs
        exact hshape
    · exact h.typed.nested b r' hr' hcount elems' helems s hs

/-- A new slot in an array has no captures in it. -/
theorem filled_pushSlot (h : Filled m) (hblock : Block m a (.array elems)) (shape : Shape) :
    Filled (pushSlot m a shape) := by
  obtain ⟨r, hr, htype, -⟩ := hblock
  intro l s r' hs hr' hclosure hcount
  rw [pushSlot, region?_modifyRegion] at hr'
  rw [slot?_pushSlot hr] at hs
  split_ifs at hr' with hal
  · rw [← hal, hr] at hr'
    cases hr'
    cases htype.symm.trans hclosure
  · have hne : l ≠ ⟨a, r.slots.length⟩ := by
      rintro rfl
      exact hal rfl
    rw [if_neg hne] at hs
    exact h l s r' hs hr' hclosure hcount

/-- Constructing an object at the end of a storage. -/
theorem construct_grown (h : Inv m) (hfilled : Filled m) (hblock : Block m a (.array elems)) {shape : Shape}
    (hshape : shape ∈ elems) (op : Op) (hop : Array.Allowed (pushSlot m a shape) op)
    (houtlives : Array.Outlives (pushSlot m a shape) op) (hwritten : op.written = [⟨a, size m a⟩])
    (hreleased : op.released = fun _ ↦ False) (hdestroy : ∀ obj, op ≠ .destroy obj) :
    ∃ m', exec op (pushSlot m a shape) = .ok m' ∧ Grown m m' := by
  have hpushed := inv_pushSlot h hblock hshape
  obtain ⟨m₀, written, freed, hspec⟩ := exec_spec hpushed hop
  obtain ⟨m', hm'⟩ := hspec.executes.ok_iff.mpr houtlives
  have hperformed := hspec.performed hm'
  have hbacked (b : ℕ) : Backed (pushSlot m a shape) op.released (Array.pinned (pushSlot m a shape) op) b :=
    backed_of_exact hpushed.intact (fun _ _ _ ↦ hreleased ▸ id) _ b
  have hnew := filled_pushSlot hfilled hblock shape
  obtain ⟨r, hr, -⟩ := id hblock
  refine ⟨m', hm', hspec.inv hm', hspec.filled hm' hnew fun obj heq ↦ absurd heq (hdestroy obj), fun b type hb ↦ ?_,
    fun l s hs ↦ ?_⟩
  · have hb' : Block (pushSlot m a shape) b type := by
      obtain ⟨r', hr', htype, hcount⟩ := hb
      rw [Block, pushSlot, region?_modifyRegion, hr']
      split_ifs
      · exact ⟨_, rfl, htype, hcount⟩
      · exact ⟨r', rfl, htype, hcount⟩
    obtain ⟨r', hr', htype, -⟩ := id hb'
    have hleft := (hperformed.frees b hb'.isBlock).mpr (hbacked b)
    obtain ⟨type', r'', hr'', -, hcount⟩ := isBlock_iff.mp hleft
    obtain ⟨r₁, hr₁, htype₁, -⟩ := hspec.kinds hm' hr'' (Nat.ne_of_lt (region?_lt hr'))
    cases hr'.symm.trans hr₁
    exact ⟨r'', hr'', htype₁.trans htype, hcount⟩
  · refine hperformed.frame l s ?_ (fun hl ↦ ?_) (hbacked _)
    · rw [slot?_pushSlot hr, if_neg, hs]
      rintro rfl
      obtain ⟨r', hr', hindex⟩ := slot?_eq_some.mp hs
      cases hr.symm.trans hr'
      simp at hindex
    · rw [hwritten, size_eq hr] at hl
      cases List.mem_singleton.mp hl
      obtain ⟨r', hr', hindex⟩ := slot?_eq_some.mp hs
      cases hr.symm.trans hr'
      simp at hindex

theorem fresh_pushSlot (hblock : Block m a (.array elems)) (shape : Shape) :
    Fresh (pushSlot m a shape) ⟨a, size m a⟩ shape := by
  obtain ⟨r, hr, -⟩ := hblock
  rw [Fresh, slot?_pushSlot hr, size_eq hr, if_pos rfl]

theorem copyToEnd_grown (h : Inv m) (hfilled : Filled m) (hblock : Block m a (.array elems)) {objs : List (Shape × Loc)}
    (hobjs : ∀ o ∈ objs, o.1 ∈ elems ∧ Live m o.2 o.1) : ∃ m', copyToEnd a objs m = .ok m' ∧ Grown m m' := by
  induction objs generalizing m with
  | nil => exact ⟨m, rfl, .refl h hfilled⟩
  | cons o rest ih =>
    obtain ⟨shape, src⟩ := o
    obtain ⟨hshape, v, hv⟩ := hobjs _ List.mem_cons_self
    have hdst := fresh_pushSlot hblock shape
    have hsrc : Live (pushSlot m a shape) src shape := by
      obtain ⟨r, hr, -⟩ := hblock
      refine ⟨v, ?_⟩
      rw [slot?_pushSlot hr, if_neg, hv]
      rintro rfl
      obtain ⟨r', hr', hindex⟩ := slot?_eq_some.mp hv
      cases hr.symm.trans hr'
      simp at hindex
    obtain ⟨m₁, hm₁, hgrown⟩ := construct_grown h hfilled hblock hshape (.copyConstruct ⟨a, size m a⟩ src)
      ⟨shape, hdst, hsrc⟩ trivial rfl rfl nofun
    obtain ⟨m', hm', hrest⟩ := ih hgrown.inv hgrown.filled (hgrown.blocks a _ hblock) fun o ho ↦ by
      obtain ⟨hmem, w, hw⟩ := hobjs o (List.mem_cons_of_mem _ ho)
      exact ⟨hmem, w, hgrown.slots _ _ hw⟩
    refine ⟨m', ?_, hgrown.trans hrest⟩
    rw [exec, byType_eq hdst] at hm₁
    rw [copyToEnd, hm₁]
    exact hm'

theorem constructAtEnd_grown (h : Inv m) (hfilled : Filled m) (hblock : Block m a (.array elems)) {shapes : List Shape}
    (hshapes : ∀ shape ∈ shapes, shape ∈ elems) : ∃ m', constructAtEnd a shapes m = .ok m' ∧ Grown m m' := by
  induction shapes generalizing m with
  | nil => exact ⟨m, rfl, .refl h hfilled⟩
  | cons shape rest ih =>
    have hdst := fresh_pushSlot hblock shape
    obtain ⟨m₁, hm₁, hgrown⟩ := construct_grown h hfilled hblock (hshapes shape List.mem_cons_self)
      (.defConstruct ⟨a, size m a⟩) ⟨shape, hdst⟩ trivial rfl rfl nofun
    obtain ⟨m', hm', hrest⟩ := ih hgrown.inv hgrown.filled (hgrown.blocks a _ hblock) fun shape hmem ↦
      hshapes shape (List.mem_cons_of_mem _ hmem)
    refine ⟨m', ?_, hgrown.trans hrest⟩
    rw [exec, byType_eq hdst] at hm₁
    rw [constructAtEnd, hm₁]
    exact hm'

theorem btnPushBack_grown (h : Inv m) (hfilled : Filled m) (hobj : Handle m obj elems (some a)) {value : List Loc}
    (hvalue : List.Forall₂ (Live m) value elems) : ∃ m', btnPushBack obj value m = .ok m' ∧ Grown m m' := by
  have hblock := block_of_handle h hobj
  have hobjs : ∀ o ∈ elems.zip value, o.1 ∈ elems ∧ Live m o.2 o.1 := by
    rintro ⟨shape, src⟩ ho
    exact ⟨(List.of_mem_zip ho).1, (List.forall₂_iff_zip.mp hvalue.flip).2 ho⟩
  obtain ⟨m', hm', hgrown⟩ := copyToEnd_grown h hfilled hblock hobjs
  refine ⟨m', ?_, hgrown⟩
  simp only [btnPushBack, storage_of_handle hobj, elemsOf_eq hblock, bind, Except.bind]
  exact hm'

theorem mem_places {o : Shape × Loc} (h : o ∈ places m a) :
    ∃ r s, region? m a = some r ∧ s ∈ r.slots ∧ s.type = o.1 ∧ slot? m o.2 = some s := by
  unfold places at h
  cases hr : region? m a with
  | none => simp [hr] at h
  | some r =>
    rw [hr, Option.elim_some, List.mem_mapIdx] at h
    obtain ⟨i, hi, rfl⟩ := h
    exact ⟨r, r.slots[i], rfl, List.getElem_mem hi, rfl, slot?_eq_some.mpr ⟨r, hr, List.getElem?_eq_getElem hi⟩⟩

theorem btnAppend_grown (h : Inv m) (hfilled : Filled m) {other : Loc} {b : ℕ} (hobj : Handle m obj elems (some a))
    (hother : Handle m other elems (some b)) (hcomplete : Complete m b) :
    ∃ m', btnAppend obj other m = .ok m' ∧ Grown m m' := by
  obtain ⟨r, hr, htype, hcount⟩ := block_of_handle h hother
  have hobjs : ∀ o ∈ places m b, o.1 ∈ elems ∧ Live m o.2 o.1 := by
    intro o ho
    obtain ⟨r', s, hr', hs, hshape, hslot⟩ := mem_places ho
    cases hr.symm.trans hr'
    obtain ⟨v, hv⟩ := Option.isSome_iff_exists.mp (hcomplete r hr s hs)
    refine ⟨hshape ▸ h.typed.nested b r hr hcount elems htype s hs, v, ?_⟩
    rw [hslot, ← hshape, ← hv]
  obtain ⟨m', hm', hgrown⟩ := copyToEnd_grown h hfilled (block_of_handle h hobj) hobjs
  refine ⟨m', ?_, hgrown⟩
  simp only [btnAppend, storage_of_handle hobj, storage_of_handle hother, bind, Except.bind]
  exact hm'

end Stela.CodeGen.Calls
