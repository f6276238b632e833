import Mathlib.Data.Set.List
import Stela.CodeGen.CallEffects
import Stela.CodeGen.Releases

/-!
# Events that release objects

A function that shrinks an array releases the objects at its end, and succeeds just when the storage has an
owner that is not among them. With that, every event succeeds just when its operands outlive what it releases.
-/

namespace Stela.CodeGen.Calls

open Stela.Library.Regions Stela.Library.RefCount Stela.Library.Except
open Stela.CodeGen.Pointer Stela.CodeGen.Array
open Stela.CodeGen.Closure (Clo)

variable {m m' : Heap} {obj : Loc} {a : ℕ} {elems : List Shape}

theorem typed_left (h : Typed m) {released : Loc → Prop} (hleft : Left m m' released) (hintact : Intact m' []) :
    Typed m' := by
  constructor
  · intro l s' b hs' hb
    obtain ⟨s, hs, htype, ⟨hobj, -⟩ | ⟨hobj, -⟩⟩ := hleft.slots l s' hs'
    · obtain ⟨r, hr, hrtype⟩ := h.target l s b hs (hobj ▸ hb)
      obtain ⟨n, hn⟩ := hintact.isBlock_of_slot hs' hb
      obtain ⟨r', hr', -⟩ := count?_eq_some.mp hn
      obtain ⟨r₁, hr₁, htype₁, -⟩ := hleft.regions b r' hr'
      cases hr.symm.trans hr₁
      exact ⟨r', hr', htype₁.trans (hrtype.trans htype.symm)⟩
    · rw [hobj] at hb
      cases hb
  · intro b r' hr' hcount elems helems s' hs'
    obtain ⟨i, hi⟩ := List.mem_iff_getElem?.mp hs'
    obtain ⟨s, hs, htype, -⟩ := hleft.slots ⟨b, i⟩ s' (slot?_eq_some.mpr ⟨r', hr', hi⟩)
    obtain ⟨r, hr, hindex⟩ := slot?_eq_some.mp hs
    obtain ⟨r₁, hr₁, htype₁, hcount₁⟩ := hleft.regions b r' hr'
    cases hr.symm.trans hr₁
    rw [htype]
    exact h.nested b r hr (hcount₁ ▸ hcount) elems (htype₁.symm.trans helems) s (List.mem_of_getElem? hindex)

/-- If only elements of an array were released, captures are left as they were. -/
theorem filled_left (h : Filled m) {released : Loc → Prop} (hleft : Left m m' released)
    (hblock : Block m a (.array elems)) (hreleased : ∀ l, released l → l.region = a) : Filled m' := by
  intro l s' r' hs' hr' hclosure hcount
  obtain ⟨r, hr, htype, hcount'⟩ := hleft.regions _ r' hr'
  obtain ⟨s, hs, -, ⟨hobj, -⟩ | ⟨-, hrel⟩⟩ := hleft.slots l s' hs'
  · rw [hobj]
    exact h l s r hs hr (htype.symm.trans hclosure) (hcount' ▸ hcount)
  · obtain ⟨r₀, hr₀, htype₀, -⟩ := hblock
    rw [hreleased l hrel] at hr
    cases hr.symm.trans hr₀
    cases htype₀.symm.trans (htype.symm.trans hclosure)

theorem after_left (h : Inv m) (hfilled : Filled m) (hblock : Block m a (.array elems)) {released : Loc → Prop}
    (hreleased : ∀ l, released l → l.region = a) (hintact : Intact m' []) (hleft : Left m m' released)
    (hstays : ∀ b, Backed m released [] b → IsBlock m b → IsBlock m' b) : After m m' released [] := by
  refine ⟨⟨hintact, typed_left h.typed hleft hintact⟩, filled_left hfilled hleft hblock hreleased, fun b type hb hb' ↦ ?_,
    fun b hb ↦ ⟨hleft.backed hintact, fun hbacked ↦ hstays b hbacked hb⟩⟩
  obtain ⟨n, hn⟩ := hb'
  obtain ⟨r', hr', hcount'⟩ := count?_eq_some.mp hn
  obtain ⟨r, hr, htype, -⟩ := hleft.regions b r' hr'
  obtain ⟨r₁, hr₁, htype₁, -⟩ := hb
  cases hr.symm.trans hr₁
  exact ⟨r', hr', htype.trans htype₁, by rw [hcount']; rfl⟩

/-- What an array has constructed can be destroyed, if only elements are released. -/
theorem ready_of_constructed (h : Inv m) (hconstructed : Constructed m obj) (hobj : pointer m obj = some a)
    {released : Loc → Prop} (hreleased : ∀ l, released l → l.region = a) (pinned : List (Option ℕ)) :
    Ready m (Backed m released pinned) := by
  intro b n hb _ _
  obtain ⟨l, s, hrel, hs, c, hc, hreach⟩ := reaches_of_not_backed h.intact hb
  refine hconstructed b ⟨a, hobj, .head (b := c) ⟨l.index, s, ?_, hc⟩ hreach⟩
  rw [← hreleased l hrel]
  exact hs

theorem complete_of_constructed (hconstructed : Constructed m obj) (hobj : pointer m obj = some a) : Complete m a :=
  hconstructed a ⟨a, hobj, .refl⟩

theorem ready_truncate {P : ℕ → Prop} (h : Ready m P) (a n : ℕ) : Ready (truncate m a n) P := by
  intro b k hb hk hzero
  rw [count?_truncate] at hk
  rw [complete_iff]
  intro i s hs
  rw [slot?_truncate] at hs
  split_ifs at hs
  exact complete_iff.mp (h b k hb hk hzero) i s hs

/-- The objects in a complete storage, from slot `n` on. -/
theorem objects_eq {r : Region Shape Clo} (hr : region? m a = some r) (hcomplete : Complete m a) (n : ℕ) :
    ∃ vs : List Clo, objects m a n = vs.map some ∧ (r.slots.drop n).map (fun s ↦ s.obj.bind ptr) = vs.map ptr ∧
      vs.length = r.slots.length - n ∧ ∀ v, vs.getLast? = some v → ptr v = pointer m ⟨a, size m a - 1⟩ := by
  obtain ⟨vs, hvs⟩ : (r.slots.drop n).map Slot.obj ∈ Set.range (List.map some) := by
    rw [Set.range_list_map]
    intro o ho
    obtain ⟨s, hs, rfl⟩ := List.mem_map.mp ho
    obtain ⟨v, hv⟩ := Option.isSome_iff_exists.mp (hcomplete r hr s (List.mem_of_mem_drop hs))
    exact ⟨v, hv.symm⟩
  have hlength : vs.length = r.slots.length - n := by
    have hlen := congrArg List.length hvs
    simpa using hlen
  refine ⟨vs, by rw [objects, hr, Option.elim_some, ← hvs], ?_, hlength, fun v hv ↦ ?_⟩
  · calc (r.slots.drop n).map (fun s ↦ s.obj.bind ptr)
        = ((r.slots.drop n).map Slot.obj).map (·.bind ptr) := by rw [List.map_map]; rfl
      _ = vs.map ptr := by rw [← hvs, List.map_map]; rfl
  · have hlast : ((r.slots.drop n).map Slot.obj).getLast? = some (some v) := by
      rw [← hvs, List.getLast?_map, hv]
      rfl
    have hlt : n < r.slots.length := by
      have hpos := List.length_pos_of_mem (List.mem_of_getLast? hv)
      omega
    rw [List.getLast?_map, List.getLast?_drop, if_neg (by omega), List.getLast?_eq_getElem?] at hlast
    obtain ⟨s, hs, hobj⟩ := Option.map_eq_some_iff.mp hlast
    rw [pointer, slot?, size_eq hr, hr, Option.bind_some, hs, Option.bind_some, hobj]
    rfl

/-- The places in a storage from slot `n` on. -/
def EndOf (a n : ℕ) (l : Loc) : Prop := l.region = a ∧ n ≤ l.index

/-- The objects from slot `n` on are removed, then destroyed. The storage is read before each of them is
released, so it has to stay until the last. -/
theorem removed_proceeds (h : Inv m) (hblock : IsBlock m a) (hcomplete : Complete m a) {n : ℕ}
    (hready : ∀ pinned, Ready m (Backed m (EndOf a n) pinned))
    (hbacked : n < size m a → Backed m (EndOf a n) [pointer m ⟨a, size m a - 1⟩] a) :
    ∃ m', destroyRemoved a (objects m a n) (truncate m a n) = .ok m' ∧
      ∀ b, Backed m (EndOf a n) [] b → IsBlock m b → IsBlock m' b := by
  obtain ⟨k, hk⟩ := id hblock
  obtain ⟨r, hr, -⟩ := count?_eq_some.mp hk
  obtain ⟨vs, hvs, hptrs, hlength, hlast⟩ := objects_eq hr hcomplete n
  have hcounted : Intact (truncate m a n) (vs.map ptr) := by
    have htruncated := h.intact.truncate hr n
    rwa [hptrs, List.append_nil] at htruncated
  have hanchored (pinned : List (Option ℕ)) :
      Anchored (truncate m a n) (EndOf a n) pinned (Backed m (EndOf a n) pinned) :=
    (anchored_backed m (EndOf a n) pinned).truncate fun l hl hle ↦ ⟨hl, hle⟩
  have hblocks (b : ℕ) : IsBlock (truncate m a n) b ↔ IsBlock m b := by rw [IsBlock, count?_truncate, IsBlock]
  have hready' (pinned) := ready_truncate (hready pinned) a n
  rw [hvs]
  by_cases hn : n < size m a
  · obtain ⟨m', hm', hstays⟩ := destroyRemoved_proceeds (hbacked hn) hcounted (fun v hv ↦ by
      rw [hlast v hv]
      exact (hanchored _).owned (List.Subset.refl _)) ((hanchored []).owned (List.Subset.refl _)) (hready' _) (hready' [])
      ((hblocks a).mpr hblock)
    exact ⟨m', hm', fun b hb hold ↦ hstays b hb ((hblocks b).mpr hold)⟩
  · rw [size_eq hr] at hn
    obtain rfl : vs = [] := List.eq_nil_of_length_eq_zero (by omega)
    exact ⟨_, rfl, fun b _ ↦ (hblocks b).mpr⟩

theorem removed_left (h : Inv m) (hblock : IsBlock m a) (hcomplete : Complete m a) {n : ℕ}
    (hm' : destroyRemoved a (objects m a n) (truncate m a n) = .ok m') :
    Intact m' [] ∧ Left m m' (EndOf a n) ∧
      (n < size m a → Backed m (EndOf a n) [pointer m ⟨a, size m a - 1⟩] a) := by
  obtain ⟨k, hk⟩ := id hblock
  obtain ⟨r, hr, -⟩ := count?_eq_some.mp hk
  obtain ⟨vs, hvs, hptrs, hlength, hlast⟩ := objects_eq hr hcomplete n
  have hcounted : Intact (truncate m a n) (vs.map ptr) := by
    have htruncated := h.intact.truncate hr n
    rwa [hptrs, List.append_nil] at htruncated
  rw [hvs] at hm'
  obtain ⟨hintact, hleft, hread⟩ := destroyRemoved_left hcounted hm'
  have htruncated {m₁ : Heap} (h₁ : Left (truncate m a n) m₁ fun _ ↦ False) : Left m m₁ (EndOf a n) :=
    ((left_truncate m a n).trans h₁).congr fun _ _ _ ↦ or_iff_left id
  refine ⟨hintact, htruncated hleft, fun hn ↦ ?_⟩
  rw [size_eq hr] at hn
  have hne : vs ≠ [] := List.ne_nil_of_length_pos (by omega)
  have hsome := List.getLast?_eq_some_getLast hne
  obtain ⟨m₁, h₁, hleft₁, hblock₁⟩ := hread _ hsome
  rw [← hlast _ hsome]
  exact (htruncated hleft₁).backed h₁ hblock₁

theorem released_popBack (hobj : pointer m obj = some a) (hblock : Block m a (.array elems)) :
    (Event.popBack obj).released m = EndOf a (size m a - elems.length) := by
  funext l
  rw [Event.released, hobj, EndOf, Option.some.injEq, Eq.comm (a := a)]
  refine propext (and_congr_right fun hl ↦ ?_)
  rw [hl, elemsOf_eq hblock]

theorem btnPopBack_spec (h : Inv m) (hfilled : Filled m) (hobj : Handle m obj elems (some a))
    (hsize : elems.length ≤ size m a) (hconstructed : Constructed m obj) :
    ((∃ m', btnPopBack obj m = .ok m') ↔ Outlives m (.popBack obj)) ∧
      ∀ m', btnPopBack obj m = .ok m' → After m m' ((Event.popBack obj).released m) [] := by
  have hblock := block_of_handle h hobj
  have hpointer := pointer_of_handle hobj
  have hcomplete := complete_of_constructed hconstructed hpointer
  have hready (pinned) : Ready m (Backed m (EndOf a (size m a - elems.length)) pinned) :=
    ready_of_constructed h hconstructed hpointer (fun _ ↦ And.left) pinned
  have heq : btnPopBack obj m = destroyRemoved a (objects m a (size m a - elems.length))
      (truncate m a (size m a - elems.length)) := by
    simp only [btnPopBack, storage_of_handle hobj, elemsOf_eq hblock, bind, Except.bind]
  have hout : Outlives m (.popBack obj) ↔ (size m a - elems.length < size m a →
      Backed m (EndOf a (size m a - elems.length)) [pointer m ⟨a, size m a - 1⟩] a) := by
    rw [Outlives, released_popBack hpointer hblock]
    constructor
    · exact fun hout hlt ↦ hout a hpointer (by rw [elemsOf_eq hblock]; omega)
    · intro hbacked b hb hpos
      cases hpointer.symm.trans hb
      rw [elemsOf_eq hblock] at hpos
      exact hbacked (by omega)
  rw [heq, hout, released_popBack hpointer hblock]
  refine ⟨⟨fun ⟨m', hm'⟩ ↦ (removed_left h hblock.isBlock hcomplete hm').2.2, fun hbacked ↦ ?_⟩, fun m' hm' ↦ ?_⟩
  · obtain ⟨m', hm', -⟩ := removed_proceeds h hblock.isBlock hcomplete hready hbacked
    exact ⟨m', hm'⟩
  · obtain ⟨hintact, hleft, hbacked⟩ := removed_left h hblock.isBlock hcomplete hm'
    obtain ⟨m'', hm'', hstays⟩ := removed_proceeds h hblock.isBlock hcomplete hready hbacked
    cases hm'.symm.trans hm''
    exact after_left h hfilled hblock (fun _ ↦ And.left) hintact hleft hstays

/-! ### `btn_resize` -/

theorem released_resize (hobj : pointer m obj = some a) (hblock : Block m a (.array elems)) (len : ℕ) :
    (Event.resize obj len).released m = EndOf a (len * elems.length) := by
  funext l
  rw [Event.released, hobj, EndOf, Option.some.injEq, Eq.comm (a := a)]
  refine propext (and_congr_right fun hl ↦ ?_)
  rw [hl, elemsOf_eq hblock]

/-- The objects from slot `n` on are destroyed, then the length is stored. -/
def shrink (a n : ℕ) (m : Heap) : Except Fault Heap := do
  let m₁ ← destroySlots dec a n (size m a - n) m
  storeLen a n m₁

theorem shrink_proceeds (h : Inv m) (hblock : IsBlock m a) (hcomplete : Complete m a) {n : ℕ} (hn : n ≤ size m a)
    (hready : Ready m (Backed m (EndOf a n) [])) (hbacked : Backed m (EndOf a n) [] a) :
    ∃ m', shrink a n m = .ok m' ∧ ∀ b, Backed m (EndOf a n) [] b → IsBlock m b → IsBlock m' b := by
  obtain ⟨k, hk⟩ := id hblock
  obtain ⟨r, hr, -⟩ := count?_eq_some.mp hk
  have hslots (j : ℕ) (hj : n ≤ j) (hlt : j < n + (size m a - n)) :
      EndOf a n ⟨a, j⟩ ∧ ∃ s, slot? m ⟨a, j⟩ = some s ∧ s.obj.isSome := by
    rw [size_eq hr] at hlt hn
    have hj' : j < r.slots.length := by omega
    have hslot : slot? m ⟨a, j⟩ = some r.slots[j] := slot?_eq_some.mpr ⟨r, hr, List.getElem?_eq_getElem hj'⟩
    exact ⟨⟨rfl, hj⟩, _, hslot, complete_iff.mp hcomplete j _ hslot⟩
  obtain ⟨m₁, hm₁, hstays⟩ := destroySlots_live hbacked _ hslots h.intact (anchored_backed m _ _) hready
  obtain ⟨k₁, hk₁⟩ := hstays a hbacked hblock
  obtain ⟨r₁, hr₁, -⟩ := count?_eq_some.mp hk₁
  refine ⟨truncate m₁ a n, ?_, fun b hb hold ↦ ?_⟩
  · simp only [shrink, hm₁, storeLen, hr₁, bind, Except.bind, Option.elim_some]
  · rw [IsBlock, count?_truncate]
    exact hstays b hb hold

theorem shrink_left (h : Inv m) (hblock : IsBlock m a) {n : ℕ} (hn : n ≤ size m a) (hm' : shrink a n m = .ok m') :
    Intact m' [] ∧ Left m m' (EndOf a n) ∧ Backed m (EndOf a n) [] a := by
  obtain ⟨k, hk⟩ := id hblock
  obtain ⟨r, hr, hcount⟩ := count?_eq_some.mp hk
  obtain ⟨m₁, hdestroyed, hstored⟩ := bind_eq_ok.mp hm'
  obtain ⟨h₁, hleft⟩ := destroySlots_left _ h.intact hdestroyed
  obtain ⟨r₁, hr₁⟩ : ∃ r₁, region? m₁ a = some r₁ := by
    refine Option.ne_none_iff_exists'.mp fun hnone ↦ ?_
    rw [storeLen, hnone] at hstored
    cases hstored
  rw [storeLen, hr₁, Option.elim_some] at hstored
  cases hstored
  rw [size_eq hr] at hn hleft
  have hend : Left m m₁ (EndOf a n) := hleft.congr fun l s hs ↦ by
    -- there are no slots after the old ones
    obtain ⟨s₀, hs₀, -⟩ := hleft.slots l s hs
    obtain ⟨r₀, hr₀, hindex⟩ := slot?_eq_some.mp hs₀
    refine ⟨fun hl ↦ ⟨hl.1, hl.2.1⟩, fun hl ↦ ⟨hl.1, hl.2, ?_⟩⟩
    rw [hl.1] at hr₀
    cases hr.symm.trans hr₀
    have hlt := (List.getElem?_eq_some_iff.mp hindex).1
    omega
  have hblock₁ : IsBlock m₁ a := by
    obtain ⟨r₀, hr₀, -, hsome⟩ := hend.regions a r₁ hr₁
    cases hr.symm.trans hr₀
    rw [hcount] at hsome
    obtain ⟨k₁, hk₁⟩ := Option.isSome_iff_exists.mp hsome
    exact ⟨k₁, count?_eq_some.mpr ⟨r₁, hr₁, hk₁⟩⟩
  refine ⟨(h₁.truncate hr₁ n).drop_nones fun p hp ↦ ?_, ?_, hend.backed h₁ hblock₁⟩
  · obtain ⟨s, hs, rfl⟩ := List.mem_map.mp hp
    obtain ⟨i, hi⟩ := List.mem_iff_getElem?.mp hs
    rw [List.getElem?_drop] at hi
    obtain ⟨s₀, -, -, ⟨-, hkept⟩ | ⟨hnone, -⟩⟩ := hend.slots ⟨a, n + i⟩ s (slot?_eq_some.mpr ⟨r₁, hr₁, hi⟩)
    · exact absurd ⟨rfl, Nat.le_add_right n i⟩ hkept
    · rw [hnone]
      rfl
  · exact (hend.trans (left_truncate m₁ a n)).congr fun _ _ _ ↦ or_self_iff

theorem btnResize_spec (h : Inv m) (hfilled : Filled m) (hobj : Handle m obj elems (some a))
    (hconstructed : Constructed m obj) (len : ℕ) :
    ((∃ m', btnResize obj len m = .ok m') ↔ Outlives m (.resize obj len)) ∧
      ∀ m', btnResize obj len m = .ok m' → After m m' ((Event.resize obj len).released m) [] := by
  have hblock := block_of_handle h hobj
  have hpointer := pointer_of_handle hobj
  have hout : Outlives m (.resize obj len) ↔ Backed m (EndOf a (len * elems.length)) [] a := by
    rw [Outlives, released_resize hpointer hblock]
    refine ⟨fun hout ↦ hout a hpointer, fun hbacked b hb ↦ ?_⟩
    cases hpointer.symm.trans hb
    exact hbacked
  rw [hout, released_resize hpointer hblock]
  by_cases hle : len * elems.length ≤ size m a
  · have heq : btnResize obj len m = shrink a (len * elems.length) m := by
      simp only [btnResize, storage_of_handle hobj, elemsOf_eq hblock, bind, Except.bind]
      rw [if_pos hle]
      rfl
    have hcomplete := complete_of_constructed hconstructed hpointer
    have hready : Ready m (Backed m (EndOf a (len * elems.length)) []) :=
      ready_of_constructed h hconstructed hpointer (fun _ ↦ And.left) []
    rw [heq]
    refine ⟨⟨fun ⟨m', hm'⟩ ↦ (shrink_left h hblock.isBlock hle hm').2.2, fun hbacked ↦ ?_⟩, fun m' hm' ↦ ?_⟩
    · obtain ⟨m', hm', -⟩ := shrink_proceeds h hblock.isBlock hcomplete hle hready hbacked
      exact ⟨m', hm'⟩
    · obtain ⟨hintact, hleft, hbacked⟩ := shrink_left h hblock.isBlock hle hm'
      obtain ⟨m'', hm'', hstays⟩ := shrink_proceeds h hblock.isBlock hcomplete hle hready hbacked
      cases hm'.symm.trans hm''
      exact after_left h hfilled hblock (fun _ ↦ And.left) hintact hleft hstays
  · have heq : btnResize obj len m =
        constructAtEnd a (((elements elems len).map Slot.type).drop (size m a)) m := by
      simp only [btnResize, storage_of_handle hobj, elemsOf_eq hblock, bind, Except.bind]
      rw [if_neg hle]
    have hnone (l : Loc) (s : Slot Shape Clo) (hs : slot? m l = some s) : ¬EndOf a (len * elems.length) l := by
      rintro ⟨rfl, hindex⟩
      obtain ⟨r, hr, hi⟩ := slot?_eq_some.mp hs
      have hlt := (List.getElem?_eq_some_iff.mp hi).1
      rw [size_eq hr] at hle
      omega
    have hshapes : ∀ shape ∈ ((elements elems len).map Slot.type).drop (size m a), shape ∈ elems := by
      intro shape hmem
      obtain ⟨s, hs, rfl⟩ := List.mem_map.mp (List.mem_of_mem_drop hmem)
      exact (mem_elements hs).2
    obtain ⟨m', hm', hgrown⟩ := constructAtEnd_grown h hfilled hblock hshapes
    rw [heq]
    refine ⟨iff_of_true ⟨m', hm'⟩ (backed_of_exact h.intact hnone [] a), fun m'' hm'' ↦ ?_⟩
    cases hm'.symm.trans hm''
    exact hgrown.after h hnone []

/-! ## Events -/

theorem after_op (h : Inv m) (hfilled : Filled m) {op : Op} (hop : Array.Allowed m op)
    (hdestroy : ∀ obj, op = .destroy obj → count? m obj.region = none) :
    ((∃ m', exec op m = .ok m') ↔ Array.Outlives m op) ∧
      ∀ m', exec op m = .ok m' → After m m' op.released (Array.pinned m op) := by
  obtain ⟨m₀, written, freed, hspec⟩ := exec_spec h hop
  refine ⟨hspec.executes.ok_iff, fun m' hm' ↦ ⟨hspec.inv hm', hspec.filled hm' hfilled hdestroy, fun b type hb hb' ↦ ?_,
    (hspec.performed hm').frees⟩⟩
  obtain ⟨r, hr, htype, -⟩ := hb
  obtain ⟨type', r', hr', -, hcount⟩ := isBlock_iff.mp hb'
  obtain ⟨r₁, hr₁, htype₁, -⟩ := hspec.kinds hm' hr' (Nat.ne_of_lt (region?_lt hr))
  cases hr.symm.trans hr₁
  exact ⟨r', hr', htype₁.trans htype, hcount⟩

/-- An allowed event succeeds just when its operands outlive what it releases, and frees what it takes the
last owner from. -/
theorem effect_spec {s : State} (h : Inv s.heap) (hfilled : Filled s.heap) {e : Event} (he : Allowed s e) :
    ((∃ m', effect e s.heap = .ok m') ↔ Outlives s.heap e) ∧
      ∀ m', effect e s.heap = .ok m' → After s.heap m' (e.released s.heap) (e.pinned s.heap) := by
  have hgrowing {f : Heap → Except Fault Heap} (hf : ∃ m', f s.heap = .ok m' ∧ Grown s.heap m') :
      ((∃ m', f s.heap = .ok m') ↔ True) ∧ ∀ m', f s.heap = .ok m' → After s.heap m' (fun _ ↦ False) [] := by
    obtain ⟨m', hm', hgrown⟩ := hf
    refine ⟨iff_of_true ⟨m', hm'⟩ trivial, fun m'' hm'' ↦ ?_⟩
    cases hm'.symm.trans hm''
    exact hgrown.after h (fun _ _ _ ↦ id) []
  cases e with
  | op op => exact after_op h hfilled he.1 he.2
  | pushBack obj value =>
    obtain ⟨elems, a, hobj, hvalue⟩ := he
    exact hgrowing (btnPushBack_grown h hfilled hobj hvalue)
  | append obj other =>
    obtain ⟨elems, a, b, hobj, hother, hcomplete⟩ := he
    exact hgrowing (btnAppend_grown h hfilled hobj hother hcomplete)
  | popBack obj =>
    obtain ⟨elems, a, hobj, hsize, hconstructed⟩ := he
    exact btnPopBack_spec h hfilled hobj hsize hconstructed
  | resize obj len =>
    obtain ⟨elems, a, hobj, hconstructed⟩ := he
    exact btnResize_spec h hfilled hobj hconstructed len
  | reserve obj cap =>
    obtain ⟨elems, a, hobj⟩ := he
    obtain ⟨n, hn⟩ := (block_of_handle h hobj).isBlock
    refine hgrowing ⟨s.heap, ?_, .refl h hfilled⟩
    simp only [effect, btnReserve, storage_of_handle hobj, loadCount_eq_ok hn, bind, Except.bind]
    rfl
  | callFuncPtr func =>
    obtain ⟨v, hv⟩ := he
    refine hgrowing ⟨s.heap, ?_, .refl h hfilled⟩
    simp only [effect, load_eq_ok hv rfl, bind, Except.bind]
    rfl
  | ret => exact hgrowing ⟨s.heap, rfl, .refl h hfilled⟩

end Stela.CodeGen.Calls
