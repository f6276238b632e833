import Stela.CodeGen.ArrayEffects

/-!
# Steps on handles

One theorem for each operation: under which condition it succeeds, and what it has then written and freed.
-/

namespace Stela.CodeGen.Array

open Stela.Library.Regions Stela.Library.RefCount
open Stela.CodeGen.Pointer Stela.CodeGen.Closure

variable {m m' : Heap}

theorem byType_eq {obj : Loc} {s : Slot Shape Clo} (hs : slot? m obj = some s) (f : Shape → Heap → Except Fault Heap) :
    byType m obj f = f s.type m := by
  rw [byType, hs, Option.elim_some]

/-- The pointers that are written are old ones, of objects with the same type. -/
theorem Inv.written (h : Inv m) {src dst : Loc} {s d : Slot Shape Clo} {v w : Clo} (hs : slot? m src = some s)
    (hv : s.obj = some v) (hd : slot? m dst = some d) (htype : s.type = d.type) (hw : w.dat = v.dat ∨ w.dat = none) (a : ℕ)
    (ha : (some w).bind ptr = some a) : ∃ d r, slot? m dst = some d ∧ region? m a = some r ∧ r.type = d.type := by
  have hdat : v.dat = some a := by
    obtain hw | hw := hw
    · exact hw.symm.trans ha
    · cases hw.symm.trans ha
  obtain ⟨r, hr, hrtype⟩ := h.typed.target src s a hs (by rw [hv]; exact hdat)
  exact ⟨d, r, hd, hr, hrtype.trans htype⟩

/-- The captures in a block are alive. -/
def Filled (m : Heap) : Prop :=
  ∀ l s r, slot? m l = some s → region? m l.region = some r → r.type = .closure → r.count.isSome → s.obj.isSome

/-- What an allowed operation writes and frees. -/
structure Spec (m : Heap) (op : Op) (m₀ : Heap) (written : List (Loc × Option Clo)) (freed : ℕ → Prop) : Prop where
  executes : Executes (exec op) m m₀ (Outlives m op) written freed
  grown : m₀ = m ∨ ∃ r, m₀ = alloc m r ∧ (r.type = .closure → r.count.isSome →
    ∀ i < r.slots.length, ∃ w ∈ written, w.1 = ⟨m.length, i⟩ ∧ w.2.isSome)
  typed : Typed m₀
  pointers : ∀ w ∈ written, ∀ a, w.2.bind ptr = some a →
    ∃ d r, slot? m₀ w.1 = some d ∧ region? m₀ a = some r ∧ r.type = d.type
  places : ∀ w ∈ written, w.1.region ≠ m.length → w.1 ∈ op.written
  empties : ∀ w ∈ written, w.2 = none → op = .destroy w.1 ∧ w.1.region ≠ m.length
  frees : ∀ b, freed b ↔ ¬Backed m op.released (pinned m op) b
  does : ∀ m', exec op m = .ok m' → Does m m' op

theorem slot?_alloc_of_some {l : Loc} {s : Slot Shape Clo} (r : Region Shape Clo) (hs : slot? m l = some s) :
    slot? (alloc m r) l = some s := by
  obtain ⟨r', hr', -⟩ := slot?_eq_some.mp hs
  rw [slot?_alloc, if_neg (Nat.ne_of_lt (region?_lt hr')), hs]

section

variable {op : Op} {m₀ : Heap} {written : List (Loc × Option Clo)} {freed : ℕ → Prop}

theorem Spec.region?_old (h : Spec m op m₀ written freed) {b : ℕ} (hb : b ≠ m.length) : region? m₀ b = region? m b := by
  obtain rfl | ⟨r, rfl, -⟩ := h.grown
  · rfl
  · rw [region?_alloc, if_neg hb]

theorem Spec.slot?_old (h : Spec m op m₀ written freed) {l : Loc} (hl : l.region ≠ m.length) : slot? m₀ l = slot? m l := by
  rw [slot?, slot?, h.region?_old hl]

/-- The regions that are left are of the old types. -/
theorem Spec.kinds (h : Spec m op m₀ written freed) (hm' : exec op m = .ok m') {b : ℕ} {r' : Region Shape Clo}
    (hr' : region? m' b = some r') (hb : b ≠ m.length) :
    ∃ r, region? m b = some r ∧ r'.type = r.type ∧ r'.count.isSome = r.count.isSome := by
  obtain ⟨r, hr, htype, hcount, -⟩ := (h.executes.changed m' hm').2.regions b r' hr'
  rw [h.region?_old hb] at hr
  exact ⟨r, hr, htype, hcount⟩

theorem Spec.inv (h : Spec m op m₀ written freed) (hm' : exec op m = .ok m') : Inv m' := by
  obtain ⟨hintact, hchanged⟩ := h.executes.changed m' hm'
  exact ⟨hintact, h.typed.result hintact hchanged h.pointers⟩

theorem Spec.performed (h : Spec m op m₀ written freed) (hm' : exec op m = .ok m') : Performed m m' op := by
  obtain ⟨-, hchanged⟩ := h.executes.changed m' hm'
  have hold {b : ℕ} (hb : IsBlock m b) : IsBlock m₀ b := by
    obtain ⟨n, hn⟩ := hb
    obtain ⟨r, hr, -⟩ := count?_eq_some.mp hn
    exact ⟨n, by rw [count?, h.region?_old (Nat.ne_of_lt (region?_lt hr))]; exact hn⟩
  refine ⟨h.does m' hm', fun b hb ↦ ?_, fun l s hs hl hbacked ↦ ?_⟩
  · rw [hchanged.blocks, and_iff_right (hold hb), h.frees, not_not]
  · obtain ⟨r, hr, -⟩ := slot?_eq_some.mp hs
    have hne := Nat.ne_of_lt (region?_lt hr)
    have hstays : ¬freed l.region := fun hgone ↦ (h.frees _).mp hgone hbacked
    rw [hchanged.stays l (fun w hw heq ↦ hl (heq ▸ h.places w hw (heq ▸ hne))) hstays, h.slot?_old hne, hs]

/-- Captures stay alive if they are not destroyed one by one. -/
theorem Spec.filled (h : Spec m op m₀ written freed) (hm' : exec op m = .ok m') (hfilled : Filled m)
    (hdestroy : ∀ obj, op = .destroy obj → count? m obj.region = none) : Filled m' := by
  intro l s r' hs hr' htype hcount
  obtain ⟨-, hchanged⟩ := h.executes.changed m' hm'
  obtain ⟨r, hr, htype', hcount', -⟩ := hchanged.regions _ r' hr'
  by_cases hw : ∃ w ∈ written, w.1 = l
  · obtain ⟨w, hw, rfl⟩ := hw
    obtain ⟨d, hd, hd'⟩ := hchanged.results w hw
    cases hs.symm.trans hd'
    cases hobj : w.2 with
    | some v => rfl
    | none =>
      -- only a variable is left without a closure
      obtain ⟨hop, hold⟩ := h.empties w hw hobj
      have hnone := hdestroy w.1 hop
      rw [h.region?_old hold] at hr
      rw [count?, hr, Option.bind_some] at hnone
      rw [hcount', hnone] at hcount
      cases hcount
  · have hout (w) (hmem : w ∈ written) : w.1 ≠ l := fun heq ↦ hw ⟨w, hmem, heq⟩
    have hs₀ := hchanged.others l s hout hs
    by_cases hnew : l.region = m.length
    · obtain rfl | ⟨r₀, rfl, hslots⟩ := h.grown
      · exact absurd (hnew ▸ region?_lt hr) (Nat.lt_irrefl _)
      · rw [hnew, region?_alloc, if_pos rfl] at hr
        cases hr
        rw [slot?_alloc, if_pos hnew] at hs₀
        obtain ⟨w, hmem, hwl, -⟩ := hslots (htype'.symm.trans htype) (hcount' ▸ hcount) l.index
          (List.getElem?_eq_some_iff.mp hs₀).1
        exact absurd (hwl.trans (by rw [← hnew])) (hout w hmem)
    · rw [h.slot?_old hnew] at hs₀
      rw [h.region?_old hnew] at hr
      exact hfilled l s r hs₀ hr (htype'.symm.trans htype) (hcount' ▸ hcount)

end

/-- An object that was written. -/
theorem Executes.result {f : Heap → Except Fault Heap} {m₀ : Heap} {cond : Prop} {written : List (Loc × Option Clo)}
    {freed : ℕ → Prop} (h : Executes f m m₀ cond written freed) (hm' : f m = .ok m') {l : Loc} {o : Option Clo}
    (hw : (l, o) ∈ written) {s : Slot Shape Clo} (hs : slot? m₀ l = some s) : slot? m' l = some ⟨s.type, o⟩ := by
  obtain ⟨s', hs', hresult⟩ := (h.changed m' hm').2.results _ hw
  cases hs.symm.trans hs'
  exact hresult

/-- An operation that frees nothing. -/
theorem frees_nothing (h : Inv m) (pinned : List (Option ℕ)) (b : ℕ) : False ↔ ¬Backed m (fun _ ↦ False) pinned b :=
  iff_of_false id (not_not_intro (backed_of_exact h.intact (fun _ _ _ ↦ id) pinned b))

theorem spec_declare (h : Inv m) (type : Syntax.Ty) : ∃ m₀ written freed, Spec m (.declare type) m₀ written freed := by
  have hempty (s) (hs : s ∈ elements (shapes type) 1) : s.obj = none := (mem_elements hs).1
  have hintact := h.intact.alloc_uncounted (r := ⟨.array (shapes type), none, elements (shapes type) 1⟩) rfl hempty
  refine ⟨_, [], fun _ ↦ False, .of_changed (fun _ ↦ trivial) fun _ ↦ ⟨_, rfl, hintact, .refl _⟩, .inr ⟨_, rfl, nofun⟩,
    h.typed.alloc hempty nofun, nofun, nofun, nofun, frees_nothing h _, fun _ _ ↦ trivial⟩

/-- A constructor that allocates a block. -/
theorem spec_alloc (h : Inv m) {op : Op} {obj : Loc} {elems : List Shape} {slots : List (Slot Shape Clo)}
    (hobj : Fresh m obj (.array elems)) (hslots : ∀ s ∈ slots, s.obj = none ∧ s.type ∈ elems)
    (hexec : exec op m = store (alloc m ⟨.array elems, some 1, slots⟩) obj ⟨.stub, some m.length⟩)
    (hdoes : ∀ m', Allocates m m' obj elems slots → Does m m' op) (hwritten : op.written = [obj])
    (hreleased : op.released = fun _ ↦ False) (houtlives : Outlives m op) :
    ∃ m₀ written freed, Spec m op m₀ written freed := by
  have hempty (s) (hs : s ∈ slots) : s.obj = none := (hslots s hs).1
  have hobj' := slot?_alloc_of_some ⟨.array elems, some 1, slots⟩ hobj
  obtain ⟨hok, hchanged⟩ := alloc_executes h.intact hobj hempty
  have hout : Executes (exec op) m (alloc m ⟨.array elems, some 1, slots⟩) (Outlives m op)
      [(obj, some ⟨.stub, some m.length⟩)] fun _ ↦ False :=
    ⟨by rw [hexec]; exact hok.trans (iff_of_true trivial houtlives), by rw [hexec]; exact hchanged⟩
  refine ⟨_, _, _, hout, .inr ⟨_, rfl, nofun⟩, h.typed.alloc hempty fun _ elems' helems s hs ↦ ?_, fun w hw a ha ↦ ?_,
    fun w hw _ ↦ ?_, fun w hw hnone ↦ ?_, ?_, fun m' hm' ↦ hdoes m' ⟨⟨_, hout.result hm' List.mem_cons_self hobj', rfl⟩, ?_⟩⟩
  · cases helems
    exact (hslots s hs).2
  · cases List.mem_singleton.mp hw
    cases ha
    exact ⟨_, _, hobj', by rw [region?_alloc, if_pos rfl], rfl⟩
  · rw [hwritten]
    exact List.mem_map_of_mem hw
  · cases List.mem_singleton.mp hw
    cases hnone
  · rw [hreleased]
    exact frees_nothing h _
  · rw [hexec, store_eq_ok _ hobj'] at hm'
    cases hm'
    obtain ⟨r, hr, -⟩ := slot?_eq_some.mp hobj
    rw [region?_write, if_neg (Nat.ne_of_lt (region?_lt hr)), region?_alloc, if_pos rfl]

/-- A closure that is constructed without data. -/
theorem spec_closure (h : Inv m) {op : Op} {obj : Loc} {fn : Fun} (hobj : Fresh m obj .closure)
    (hexec : exec op m = cloFunCtor obj fn m) (hdoes : ∀ m', Does m m' op) (hwritten : op.written = [obj])
    (hreleased : op.released = fun _ ↦ False) (houtlives : Outlives m op) :
    ∃ m₀ written freed, Spec m op m₀ written freed := by
  obtain ⟨hok, hchanged⟩ := cloFunCtor_executes h.intact fn hobj
  refine ⟨_, _, _, ⟨by rw [hexec]; exact hok.trans (iff_of_true trivial houtlives), by rw [hexec]; exact hchanged⟩, .inl rfl,
    h.typed, fun w hw a ha ↦ ?_, fun w hw _ ↦ ?_, fun w hw hnone ↦ ?_, ?_, fun m' _ ↦ hdoes m'⟩
  · cases List.mem_singleton.mp hw
    cases ha
  · rw [hwritten]
    exact List.mem_map_of_mem hw
  · cases List.mem_singleton.mp hw
    cases hnone
  · rw [hreleased]
    exact frees_nothing h _

theorem spec_defConstruct (h : Inv m) {obj : Loc} {shape : Shape} (hobj : Fresh m obj shape) :
    ∃ m₀ written freed, Spec m (.defConstruct obj) m₀ written freed := by
  have hexec : exec (.defConstruct obj) m = defConstruct shape obj m := by
    rw [exec, byType_eq hobj]
  cases shape with
  | array elems =>
    refine spec_alloc h hobj (List.forall_mem_nil _) hexec (fun m' hm' elems' hobj' ↦ ?_) rfl rfl trivial
    cases hobj.symm.trans hobj'
    exact hm'
  | closure =>
    refine spec_closure h hobj hexec (fun m' elems hobj' ↦ ?_) rfl rfl trivial
    cases hobj.symm.trans hobj'

theorem spec_lenConstruct (h : Inv m) {obj : Loc} {elems : List Shape} (hobj : Fresh m obj (.array elems)) (len : ℕ) :
    ∃ m₀ written freed, Spec m (.lenConstruct obj len) m₀ written freed := by
  have hexec : exec (.lenConstruct obj len) m = arrLenCtor elems obj len m := by
    rw [exec, byType_eq hobj]
  refine spec_alloc h hobj (fun s ↦ mem_elements) hexec (fun m' hm' elems' hobj' ↦ ?_) rfl rfl trivial
  cases hobj.symm.trans hobj'
  exact hm'

theorem exists_captured {caps : List (Loc × Shape)} (h : ∀ cap ∈ caps, Live m cap.1 cap.2) :
    ∃ vs, Contain m (caps.map Prod.fst) vs ∧
      ∀ (j : ℕ) (v : Clo), vs[j]? = some v → ∃ cap, caps[j]? = some cap ∧ slot? m cap.1 = some ⟨cap.2, some v⟩ := by
  induction caps with
  | nil => exact ⟨[], .nil, nofun⟩
  | cons cap caps ih =>
    obtain ⟨v, hv⟩ := h cap List.mem_cons_self
    obtain ⟨vs, hvs, htypes⟩ := ih fun c hc ↦ h c (List.mem_cons_of_mem _ hc)
    refine ⟨v :: vs, .cons ⟨_, hv, rfl⟩ hvs, fun j u hu ↦ ?_⟩
    cases j with
    | zero =>
      cases Option.some.inj hu
      exact ⟨cap, rfl, hv⟩
    | succ j => exact htypes j u hu

theorem spec_lambda (h : Inv m) {obj : Loc} (hobj : Fresh m obj .closure) (fn : Fun) {caps : List (Loc × Shape)}
    (hcaps : ∀ cap ∈ caps, Live m cap.1 cap.2) : ∃ m₀ written freed, Spec m (.lambda obj fn caps) m₀ written freed := by
  obtain ⟨vs, hvs, htypes⟩ := exists_captured hcaps
  have hlen : (caps.map Prod.snd).length = (caps.map Prod.fst).length := by simp
  have hchanged := lambdaOf_changed h.intact .closure fn hobj rfl hlen hvs
  refine ⟨_, _, _, .of_changed (fun _ ↦ trivial) fun _ ↦ hchanged, .inr ⟨_, rfl, fun _ _ i hi ↦ ?_⟩, h.typed.alloc ?_ nofun,
    fun w hw a ha ↦ ?_, fun w hw hold ↦ ?_, fun w hw hnone ↦ ?_, frees_nothing h _, fun _ _ ↦ trivial⟩
  · have hi' : i < vs.length := by
      have hlength := hvs.length_eq
      simp only [List.length_map] at hi hlength
      omega
    refine ⟨(⟨m.length, 0 + i⟩, some vs[i]), List.mem_append_left _ (mem_captured.mpr ?_), by simp, rfl⟩
    exact ⟨i, _, List.getElem?_eq_getElem hi', rfl⟩
  · intro s hs
    obtain ⟨type, -, rfl⟩ := List.mem_map.mp hs
    rfl
  · obtain hw | hw := List.mem_append.mp hw
    · obtain ⟨j, v, hv, rfl⟩ := mem_captured.mp hw
      obtain ⟨cap, hcap, hslot⟩ := htypes j v hv
      obtain ⟨r, hr, htype⟩ := h.typed.target cap.1 _ a hslot ha
      refine ⟨⟨cap.2, none⟩, r, ?_, ?_, htype⟩
      · rw [slot?_alloc, if_pos rfl]
        simp [hcap]
      · rw [region?_alloc, if_neg (Nat.ne_of_lt (region?_lt hr)), hr]
    · cases List.mem_singleton.mp hw
      cases ha
      exact ⟨_, _, slot?_alloc_of_some _ hobj, by rw [region?_alloc, if_pos rfl], rfl⟩
  · obtain hw | hw := List.mem_append.mp hw
    · obtain ⟨j, v, -, rfl⟩ := mem_captured.mp hw
      exact absurd rfl hold
    · cases List.mem_singleton.mp hw
      exact List.mem_cons_self
  · obtain hw | hw := List.mem_append.mp hw
    · obtain ⟨j, v, -, rfl⟩ := mem_captured.mp hw
      cases hnone
    · cases List.mem_singleton.mp hw
      cases hnone

theorem spec_copyConstruct (h : Inv m) {dst src : Loc} {shape : Shape} (hdst : Fresh m dst shape) {v : Clo}
    (hsrc : slot? m src = some ⟨shape, some v⟩) : ∃ m₀ written freed, Spec m (.copyConstruct dst src) m₀ written freed := by
  have hexec : exec (.copyConstruct dst src) m = copyConstruct shape dst src m := by
    rw [exec, byType_eq hdst]
  obtain ⟨hok, hchanged⟩ := copyConstruct_executes h.intact hdst hsrc
  have hout : Executes (exec (.copyConstruct dst src)) m m True [(dst, some v)] fun _ ↦ False :=
    ⟨by rw [hexec]; exact hok, by rw [hexec]; exact hchanged⟩
  refine ⟨_, _, _, hout, .inl rfl, h.typed, fun w hw ↦ ?_, fun w hw _ ↦ List.mem_map_of_mem hw, fun w hw hnone ↦ ?_,
    frees_nothing h _, fun m' hm' elems p hhandle ↦ ?_⟩
  · cases List.mem_singleton.mp hw
    exact h.written hsrc rfl hdst rfl (.inl rfl)
  · cases List.mem_singleton.mp hw
    cases hnone
  · obtain ⟨x, hx, hp⟩ := hhandle
    cases hsrc.symm.trans hx
    exact ⟨v, hout.result hm' List.mem_cons_self hdst, hp⟩

theorem spec_moveConstruct (h : Inv m) {dst src : Loc} {shape : Shape} (hdst : Fresh m dst shape) {v : Clo}
    (hsrc : slot? m src = some ⟨shape, some v⟩) : ∃ m₀ written freed, Spec m (.moveConstruct dst src) m₀ written freed := by
  have hexec : exec (.moveConstruct dst src) m = moveConstruct shape dst src m := by
    rw [exec, byType_eq hdst]
  obtain ⟨hok, hchanged⟩ := moveConstruct_executes h.intact hdst hsrc
  have hout : Executes (exec (.moveConstruct dst src)) m m True [(dst, some v), (src, some (setPtr v none))] fun _ ↦ False :=
    ⟨by rw [hexec]; exact hok, by rw [hexec]; exact hchanged⟩
  refine ⟨_, _, _, hout, .inl rfl, h.typed, fun w hw ↦ ?_, fun w hw _ ↦ List.mem_map_of_mem hw, fun w hw hnone ↦ ?_,
    frees_nothing h _, fun m' hm' elems p hhandle ↦ ?_⟩
  · obtain rfl | hw := List.mem_cons.mp hw
    · exact h.written hsrc rfl hdst rfl (.inl rfl)
    · cases List.mem_singleton.mp hw
      exact h.written hsrc rfl hsrc rfl (.inr rfl)
  · obtain rfl | hw := List.mem_cons.mp hw
    · cases hnone
    · cases List.mem_singleton.mp hw
      cases hnone
  · obtain ⟨x, hx, hp⟩ := hhandle
    cases hsrc.symm.trans hx
    exact ⟨⟨v, hout.result hm' List.mem_cons_self hdst, hp⟩, setPtr v none, hout.result hm' (by simp) hsrc, rfl⟩

theorem spec_copyAssign (h : Inv m) {dst src : Loc} {shape : Shape} {u v : Clo} (hdst : slot? m dst = some ⟨shape, some u⟩)
    (hsrc : slot? m src = some ⟨shape, some v⟩) (hconstructed : Constructed m dst) :
    ∃ m₀ written freed, Spec m (.copyAssign dst src) m₀ written freed := by
  have hexec : exec (.copyAssign dst src) m = copyAssign shape dst src m := by
    rw [exec, byType_eq hdst]
  have hpointer : pointer m src = v.dat := by
    rw [pointer, hsrc]
    rfl
  obtain ⟨x, ⟨hok, hchanged⟩, hx, harray⟩ := copyAssign_executes h.intact hdst hsrc
  rw [h.releasable_iff hdst hconstructed, ← hpointer] at hok
  have hout : Executes (exec (.copyAssign dst src)) m m (Outlives m (.copyAssign dst src)) [(dst, some x)]
      (Dies m dst [v.dat]) :=
    ⟨by rw [hexec]; exact hok, by rw [hexec]; exact hchanged⟩
  refine ⟨_, _, _, hout, .inl rfl, h.typed, fun w hw ↦ ?_, fun w hw _ ↦ List.mem_map_of_mem hw, fun w hw hnone ↦ ?_,
    fun b ↦ ?_, fun m' hm' elems p hhandle ↦ ?_⟩
  · cases List.mem_singleton.mp hw
    exact h.written hsrc rfl hdst rfl hx
  · cases List.mem_singleton.mp hw
    cases hnone
  · rw [Op.released, pinned, hpointer]
    exact dies_iff
  · obtain ⟨y, hy, hp⟩ := hhandle
    cases hsrc.symm.trans hy
    exact ⟨x, hout.result hm' List.mem_cons_self hdst, (harray elems rfl).trans hp⟩

theorem spec_moveAssign (h : Inv m) {dst src : Loc} {shape : Shape} {u v : Clo} (hne : dst ≠ src)
    (hdst : slot? m dst = some ⟨shape, some u⟩) (hsrc : slot? m src = some ⟨shape, some v⟩)
    (hconstructed : Constructed m dst) : ∃ m₀ written freed, Spec m (.moveAssign dst src) m₀ written freed := by
  have hexec : exec (.moveAssign dst src) m = moveAssign shape dst src m := by
    rw [exec, byType_eq hdst]
  obtain ⟨x, y, ⟨hok, hchanged⟩, hx, hy, harray⟩ := moveAssign_executes h.intact hne hdst hsrc
  rw [h.releasable_iff hdst hconstructed, h.keeps_iff hdst hsrc rfl] at hok
  have hout : Executes (exec (.moveAssign dst src)) m m (Outlives m (.moveAssign dst src)) [(dst, some x), (src, some y)]
      (Dies m dst []) :=
    ⟨by rw [hexec]; exact hok, by rw [hexec]; exact hchanged⟩
  refine ⟨_, _, _, hout, .inl rfl, h.typed, fun w hw ↦ ?_, fun w hw _ ↦ List.mem_map_of_mem hw, fun w hw hnone ↦ ?_,
    fun _ ↦ dies_iff, fun m' hm' elems p hhandle ↦ ?_⟩
  · obtain rfl | hw := List.mem_cons.mp hw
    · exact h.written hsrc rfl hdst rfl hx
    · cases List.mem_singleton.mp hw
      exact h.written hsrc rfl hsrc rfl hy
  · obtain rfl | hw := List.mem_cons.mp hw
    · cases hnone
    · cases List.mem_singleton.mp hw
      cases hnone
  · obtain ⟨z, hz, hp⟩ := hhandle
    cases hsrc.symm.trans hz
    obtain ⟨hxp, hyp⟩ := harray elems rfl
    exact ⟨⟨x, hout.result hm' List.mem_cons_self hdst, hxp.trans hp⟩, y, hout.result hm' (by simp) hsrc, hyp⟩

theorem spec_destroy (h : Inv m) {obj : Loc} {shape : Shape} {v : Clo} (hobj : slot? m obj = some ⟨shape, some v⟩)
    (hconstructed : Constructed m obj) : ∃ m₀ written freed, Spec m (.destroy obj) m₀ written freed := by
  have hexec : exec (.destroy obj) m = destroy shape obj m := by
    rw [exec, byType_eq hobj]
  obtain ⟨hok, hchanged⟩ := destroy_executes h.intact hobj
  rw [h.releasable_iff hobj hconstructed] at hok
  have hout : Executes (exec (.destroy obj)) m m (Outlives m (.destroy obj)) [(obj, none)] (Dies m obj []) :=
    ⟨by rw [hexec]; exact hok, by rw [hexec]; exact hchanged⟩
  refine ⟨_, _, _, hout, .inl rfl, h.typed, fun w hw a ha ↦ ?_, fun w hw _ ↦ List.mem_map_of_mem hw, fun w hw _ ↦ ?_,
    fun _ ↦ dies_iff, fun m' hm' elems hlive ↦ ?_⟩
  · cases List.mem_singleton.mp hw
    cases ha
  · cases List.mem_singleton.mp hw
    obtain ⟨r, hr, -⟩ := slot?_eq_some.mp hobj
    exact ⟨rfl, Nat.ne_of_lt (region?_lt hr)⟩
  · obtain ⟨x, hx⟩ := hlive
    cases hobj.symm.trans hx
    exact hout.result hm' List.mem_cons_self hobj

/-- An allowed operation succeeds just when its operands outlive what it releases. -/
theorem exec_spec (h : Inv m) {op : Op} (hop : Allowed m op) : ∃ m₀ written freed, Spec m op m₀ written freed := by
  cases op with
  | declare type => exact spec_declare h type
  | defConstruct obj =>
    obtain ⟨shape, hobj⟩ := hop
    exact spec_defConstruct h hobj
  | lenConstruct obj len =>
    obtain ⟨elems, hobj⟩ := hop
    exact spec_lenConstruct h hobj len
  | funConstruct obj fn => exact spec_closure h hop rfl (fun _ ↦ trivial) rfl rfl trivial
  | lambda obj fn caps => exact spec_lambda h hop.1 fn hop.2
  | copyConstruct dst src =>
    obtain ⟨shape, hdst, v, hsrc⟩ := hop
    exact spec_copyConstruct h hdst hsrc
  | moveConstruct dst src =>
    obtain ⟨shape, hdst, v, hsrc⟩ := hop
    exact spec_moveConstruct h hdst hsrc
  | copyAssign dst src =>
    obtain ⟨shape, ⟨u, hdst⟩, ⟨v, hsrc⟩, hconstructed⟩ := hop
    exact spec_copyAssign h hdst hsrc hconstructed
  | moveAssign dst src =>
    obtain ⟨hne, shape, ⟨u, hdst⟩, ⟨v, hsrc⟩, hconstructed⟩ := hop
    exact spec_moveAssign h hne hdst hsrc hconstructed
  | destroy obj =>
    obtain ⟨shape, ⟨v, hobj⟩, hconstructed⟩ := hop
    exact spec_destroy h hobj hconstructed

end Stela.CodeGen.Array
