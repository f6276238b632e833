import Stela.CodeGen.ClosureSafety

/-!
# What closures denote

The counts of captured data are right in every run, as long as no assignment frees the block that
its own destination lies in. What an assignment may get wrong is the value: when the destination has
no captured data, it receives the function of the source but not the data.
-/

namespace Stela.CodeGen.Closure

open Stela.Library.Regions Stela.Library.RefCount Stela.Library.Machine
open Stela.CodeGen.Pointer

variable {m m' : Heap} {pending : List (Option ℕ)}

/-- What the operations ask of their operands: constructors write to fresh storage, a moving
assignment has two operands, and the captures in a block are only destroyed together with it. -/
def Allowed (m : Heap) : Op → Prop
  | .declare => True
  | .defCtor obj | .funCtor obj _ => Fresh m obj
  | .lambda obj _ caps => Fresh m obj ∧ ∀ cap ∈ caps, ∃ v, Holds m cap v
  | .copCtor dst src | .movCtor dst src => Fresh m dst ∧ ∃ v, Holds m src v
  | .copAsgn dst src => (∃ d, Holds m dst d) ∧ ∃ v, Holds m src v
  | .movAsgn dst src => dst ≠ src ∧ (∃ d, Holds m dst d) ∧ ∃ v, Holds m src v
  | .dtor obj => (∃ v, Holds m obj v) ∧ count? m obj.region = none

/-- The blocks that an operation frees. A copying assignment has counted the data of the source
before it releases the destination. -/
def Frees (m : Heap) : Op → ℕ → Prop
  | .copAsgn dst src, b => ∃ v, Holds m src v ∧ Dies m dst [v.dat] b
  | .movAsgn dst _, b => Dies m dst [] b
  | .dtor obj, b => Dies m obj [] b
  | _, _ => False

/-- An assignment does not free the block that an operand is stored in. -/
def Outlives (m : Heap) : Op → Prop
  | .copAsgn dst src => ¬Frees m (.copAsgn dst src) dst.region
  | .movAsgn dst src => ¬Frees m (.movAsgn dst src) dst.region ∧ ¬Frees m (.movAsgn dst src) src.region
  | _ => True

/-- No closure with data is assigned to one without. -/
def Transfers (m : Heap) : Op → Prop
  | .copAsgn dst src | .movAsgn dst src => ∀ d v, Holds m dst d → Holds m src v → d.dat = none → v.dat = none
  | _ => True

/-- After the operation, the destination denotes what it should: the function and data of the
source, or for a lambda its body and a new block with copies of the captures. -/
def Denotes (m m' : Heap) : Op → Prop
  | .declare | .dtor _ => True
  | .defCtor obj => Holds m' obj ⟨.stub, none⟩
  | .funCtor obj fn => Holds m' obj ⟨fn, none⟩
  | .lambda obj fn caps => ∃ dat, region? m dat = none ∧ Holds m' obj ⟨fn, some dat⟩ ∧
      ∀ i cap v, caps[i]? = some cap → Holds m cap v → Holds m' ⟨dat, i⟩ v
  | .copCtor dst src | .movCtor dst src | .copAsgn dst src | .movAsgn dst src =>
      ∀ v, Holds m src v → Holds m' dst v

/-- The memory after a sequence of operations on closures, starting with none. -/
def Reachable (m : Heap) : Prop :=
  ∃ ops, RunMeets step (fun m op ↦ Allowed m op ∧ Outlives m op) [] ops ∧ run step [] ops = some m

/-- The captures in a block are alive. -/
def Full (m : Heap) : Prop :=
  ∀ l s n, slot? m l = some s → count? m l.region = some n → s.obj.isSome

/-- The invariant of the memory. -/
structure Inv (m : Heap) : Prop where
  intact : Intact m []
  full : Full m

theorem Full.releasable (h : Full m) {l : Loc} (hl : ¬Dies m l pending l.region) : Releasable m l pending := by
  refine ⟨fun b hb r hr s hs ↦ ?_, hl⟩
  obtain ⟨n, hn⟩ := hb.isBlock
  obtain ⟨i, hi⟩ := List.mem_iff_getElem?.mp hs
  exact h ⟨b, i⟩ s n (slot?_eq_some.mpr ⟨r, hr, hi⟩) hn

/-- Writing keeps the captures alive, if it only leaves slots of variables without a closure. -/
theorem full_of_changed {written : List (Loc × Option Clo)} {freed : ℕ → Prop} (hchanged : Changed m m' written freed)
    (hothers : ∀ l s n, slot? m l = some s → count? m l.region = some n → (∀ w ∈ written, w.1 ≠ l) → s.obj.isSome)
    (hwritten : ∀ w ∈ written, w.2.isSome ∨ count? m w.1.region = none) : Full m' := by
  intro l s n hs hn
  obtain ⟨k, hk⟩ := hchanged.regions.isBlock ⟨n, hn⟩
  by_cases hw : ∃ w ∈ written, w.1 = l
  · obtain ⟨w, hw, rfl⟩ := hw
    obtain ⟨t, -, ht⟩ := hchanged.results w hw
    cases hs.symm.trans ht
    refine (hwritten w hw).resolve_right ?_
    simp [hk]
  · have hout (w) (hmem : w ∈ written) : w.1 ≠ l := fun heq ↦ hw ⟨w, hmem, heq⟩
    exact hothers l s k (hchanged.others l s hout hs) hk hout

theorem Full.changed (h : Full m) {written : List (Loc × Option Clo)} {freed : ℕ → Prop} (hchanged : Changed m m' written freed)
    (hwritten : ∀ w ∈ written, w.2.isSome ∨ count? m w.1.region = none) : Full m' :=
  full_of_changed hchanged (fun l s n hs hn _ ↦ h l s n hs hn) hwritten

/-- Storing an object that has the same pointer as the one before. -/
theorem inv_store (h : Inv m) {l : Loc} {s : Slot Unit Clo} {v : Clo} (hs : slot? m l = some s)
    (hptr : v.dat = s.obj.bind ptr) : store m l v = .ok (write m l (some v)) ∧ Inv (write m l (some v)) ∧
      Holds (write m l (some v)) l v := by
  refine ⟨store_eq_ok v hs, ⟨h.intact.overwrite hs hptr, fun k t n ht hn ↦ ?_⟩, ?_⟩
  · rw [count?_write] at hn
    rw [slot?_write] at ht
    split_ifs at ht with heq
    · obtain ⟨t', -, rfl⟩ := Option.map_eq_some_iff.mp ht
      rfl
    · exact h.full k t n ht hn
  · rw [Holds, slot?_write, if_pos rfl, hs]
    rfl

theorem holds_written {written : List (Loc × Option Clo)} {freed : ℕ → Prop} (h : Changed m m' written freed)
    {l : Loc} {v : Clo} (hl : (l, some v) ∈ written) : Holds m' l v := by
  obtain ⟨s, -, hs⟩ := h.results _ hl
  exact hs

theorem inv_declare (h : Inv m) : Inv (alloc m ⟨(), none, [⟨(), none⟩]⟩) := by
  refine ⟨h.intact.alloc_uncounted rfl fun s hs ↦ by cases List.mem_singleton.mp hs; rfl, fun l s n hs hn ↦ ?_⟩
  rw [count?_alloc] at hn
  split_ifs at hn with hnew
  rw [slot?_alloc, if_neg hnew] at hs
  exact h.full l s n hs hn

/-! ## Lambdas -/

theorem isBlock_alloc {r : Region Unit Clo} {b : ℕ} (hb : IsBlock m b) : IsBlock (alloc m r) b := by
  obtain ⟨n, hn⟩ := hb
  obtain ⟨r', hr', -⟩ := count?_eq_some.mp hn
  exact ⟨n, by rw [count?_alloc, if_neg (Nat.ne_of_lt (region?_lt hr')), hn]⟩

theorem exists_contain {caps : List Loc} (h : ∀ cap ∈ caps, ∃ v, Holds m cap v) : ∃ vs, Contain m caps vs := by
  induction caps with
  | nil => exact ⟨[], .nil⟩
  | cons cap caps ih =>
    obtain ⟨v, hv⟩ := h cap List.mem_cons_self
    obtain ⟨vs, hvs⟩ := ih fun c hc ↦ h c (List.mem_cons_of_mem _ hc)
    exact ⟨v :: vs, .cons ⟨_, hv, rfl⟩ hvs⟩

theorem inv_lambda (h : Inv m) {obj : Loc} (hobj : Fresh m obj) (fn : Fun) {caps : List Loc}
    (hcaps : ∀ cap ∈ caps, ∃ v, Holds m cap v) :
    ∃ m', lambda obj fn caps m = .ok m' ∧ Inv m' ∧ (∀ b, IsBlock m b → IsBlock m' b) ∧
      Denotes m m' (.lambda obj fn caps) := by
  obtain ⟨vs, hvs⟩ := exists_contain hcaps
  obtain ⟨m', hok, hintact, hchanged⟩ := lambdaOf_changed h.intact () fn hobj rfl (List.length_map (fun _ ↦ ())) hvs
  have hfresh : region? m m.length = none := by
    cases hr : region? m m.length with
    | none => rfl
    | some r' => exact absurd (region?_lt hr) (Nat.lt_irrefl _)
  refine ⟨m', hok, ⟨hintact, full_of_changed hchanged (fun l s n hs hn hl ↦ ?_) fun w hw ↦ .inl ?_⟩, fun b hb ↦ ?_,
    m.length, hfresh, holds_written hchanged (by simp), fun i cap v hcap hv ↦ ?_⟩
  · rw [count?_alloc] at hn
    rw [slot?_alloc] at hs
    split_ifs at hs hn with hnew
    · -- a slot of the new block is one of those written
      have hlt := (List.getElem?_eq_some_iff.mp hs).1
      simp only [List.length_map, hvs.length_eq] at hlt
      refine absurd ?_ (hl (⟨m.length, 0 + l.index⟩, some vs[l.index]) ?_)
      · rw [Nat.zero_add, ← hnew]
      · exact List.mem_append_left _ (mem_captured.mpr ⟨l.index, _, List.getElem?_eq_getElem hlt, rfl⟩)
    · exact h.full l s n hs hn
  · obtain hw | hw := List.mem_append.mp hw
    · obtain ⟨j, v, -, rfl⟩ := mem_captured.mp hw
      rfl
    · cases List.mem_singleton.mp hw
      rfl
  · exact (hchanged.blocks b).mpr ⟨isBlock_alloc hb, id⟩
  · obtain ⟨hlt, rfl⟩ := List.getElem?_eq_some_iff.mp hcap
    have hlt' : i < vs.length := hvs.length_eq ▸ hlt
    obtain ⟨s, hs, hobj⟩ := List.Forall₂.get hvs hlt hlt'
    have hcopy : Holds m' ⟨m.length, 0 + i⟩ vs[i] :=
      holds_written hchanged (List.mem_append_left _ (mem_captured.mpr ⟨i, _, List.getElem?_eq_getElem hlt', rfl⟩))
    rw [Nat.zero_add] at hcopy
    cases hs.symm.trans hv
    cases hobj
    exact hcopy

/-! ## Copies and moves -/

/-- An operation that leaves a closure in every place that it writes keeps the invariant. -/
theorem Inv.changed (h : Inv m) {written : List (Loc × Option Clo)} {freed : ℕ → Prop} (hintact : Intact m' [])
    (hchanged : Changed m m' written freed) (hwritten : ∀ w ∈ written, w.2.isSome) : Inv m' :=
  ⟨hintact, h.full.changed hchanged fun w hw ↦ .inl (hwritten w hw)⟩

theorem inv_copAsgn (h : Inv m) {dst src : Loc} {d v : Clo} (hdst : Holds m dst d) (hsrc : Holds m src v)
    (hout : ¬Dies m dst [v.dat] dst.region) :
    ∃ m', cloCopAsgn dst src m = .ok m' ∧ Inv m' ∧ Holds m' dst (assigned d v) ∧
      ∀ b, IsBlock m' b ↔ IsBlock m b ∧ ¬Dies m dst [v.dat] b := by
  obtain ⟨m', hok, hintact, hchanged⟩ := cloCopAsgn_changed h.intact hdst rfl hsrc rfl (h.full.releasable hout)
  exact ⟨m', hok, h.changed hintact hchanged (by simp), holds_written hchanged List.mem_cons_self, hchanged.blocks⟩

theorem inv_movAsgn (h : Inv m) {dst src : Loc} {d v : Clo} (hne : dst ≠ src) (hdst : Holds m dst d)
    (hsrc : Holds m src v) (hout : ¬Dies m dst [] dst.region ∧ ¬Dies m dst [] src.region) :
    ∃ m', cloMovAsgn dst src m = .ok m' ∧ Inv m' ∧ Holds m' dst (assigned d v) ∧
      ∀ b, IsBlock m' b ↔ IsBlock m b ∧ ¬Dies m dst [] b := by
  obtain ⟨m', hok, hintact, hchanged⟩ :=
    cloMovAsgn_changed h.intact hne hdst rfl hsrc rfl (h.full.releasable hout.1) hout.2
  exact ⟨m', hok, h.changed hintact hchanged (by simp), holds_written hchanged List.mem_cons_self, hchanged.blocks⟩

theorem inv_dtor (h : Inv m) {obj : Loc} {v : Clo} (hobj : Holds m obj v) (hvariable : count? m obj.region = none) :
    ∃ m', cloDtor obj m = .ok m' ∧ Inv m' ∧ ∀ b, IsBlock m' b ↔ IsBlock m b ∧ ¬Dies m obj [] b := by
  obtain ⟨m', hok, hintact, hchanged⟩ :=
    cloDtor_changed h.intact hobj rfl (h.full.releasable (not_dies_of_uncounted hvariable))
  refine ⟨m', hok, ⟨hintact, h.full.changed hchanged fun w hw ↦ .inr ?_⟩, hchanged.blocks⟩
  cases List.mem_singleton.mp hw
  exact hvariable

/-! ## Runs -/

/-- The destination of an assignment denotes the source just when nothing is lost. -/
theorem denotes_assigned {dst src : Loc} {d v : Clo} (hdst : Holds m dst d) (hsrc : Holds m src v)
    (h : Holds m' dst (assigned d v)) :
    (∀ u, Holds m src u → Holds m' dst u) ↔ ∀ d u, Holds m dst d → Holds m src u → d.dat = none → u.dat = none := by
  constructor
  · intro hdenotes d' u hd' hu hnull
    cases hdst.symm.trans hd'
    cases h.symm.trans (hdenotes u hu)
    simp [assigned, hnull]
  · intro htransfers u hu
    cases hsrc.symm.trans hu
    suffices hv : assigned d v = v from hv ▸ h
    by_cases hdat : d.dat.isSome
    · simp [assigned, hdat]
    · have hnull : v.dat = none := htransfers d v hdst hsrc (Option.not_isSome_iff_eq_none.mp hdat)
      cases v
      simp_all [assigned]

/-- Every allowed operation that spares its operands succeeds and keeps the invariant. Of the old
blocks, it frees those that die with what it releases. -/
theorem exec_inv (h : Inv m) {op : Op} (hop : Allowed m op) (hout : Outlives m op) :
    ∃ m', exec op m = .ok m' ∧ Inv m' ∧ (Denotes m m' op ↔ Transfers m op) ∧
      ∀ b, IsBlock m b → (IsBlock m' b ↔ ¬Frees m op b) := by
  cases op with
  | declare => exact ⟨_, rfl, inv_declare h, Iff.rfl, fun b hb ↦ iff_of_true (isBlock_alloc hb) id⟩
  | defCtor obj =>
    obtain ⟨hok, hinv, hobj⟩ := inv_store (v := ⟨.stub, none⟩) h hop rfl
    exact ⟨_, hok, hinv, iff_of_true hobj trivial, fun b hb ↦ iff_of_true (isBlock_write.mpr hb) id⟩
  | funCtor obj fn =>
    obtain ⟨hok, hinv, hobj⟩ := inv_store (v := ⟨fn, none⟩) h hop rfl
    exact ⟨_, hok, hinv, iff_of_true hobj trivial, fun b hb ↦ iff_of_true (isBlock_write.mpr hb) id⟩
  | lambda obj fn caps =>
    obtain ⟨m', hok, hinv, hblocks, hdenotes⟩ := inv_lambda h hop.1 fn hop.2
    exact ⟨m', hok, hinv, iff_of_true hdenotes trivial, fun b hb ↦ iff_of_true (hblocks b hb) id⟩
  | copCtor dst src =>
    obtain ⟨hdst, v, hsrc⟩ := hop
    obtain ⟨m', hok, hintact, hchanged⟩ := ptrCopCtor_changed h.intact hdst rfl hsrc rfl
    refine ⟨m', hok, h.changed hintact hchanged (by simp), iff_of_true (fun u hu ↦ ?_) trivial, fun b hb ↦ ?_⟩
    · cases hsrc.symm.trans hu
      exact holds_written hchanged List.mem_cons_self
    · exact iff_of_true ((hchanged.blocks b).mpr ⟨hb, id⟩) id
  | movCtor dst src =>
    obtain ⟨hdst, v, hsrc⟩ := hop
    obtain ⟨m', hok, hintact, hchanged⟩ := ptrMovCtor_changed h.intact hdst rfl hsrc rfl
    refine ⟨m', hok, h.changed hintact hchanged (by simp), iff_of_true (fun u hu ↦ ?_) trivial, fun b hb ↦ ?_⟩
    · cases hsrc.symm.trans hu
      exact holds_written hchanged List.mem_cons_self
    · exact iff_of_true ((hchanged.blocks b).mpr ⟨hb, id⟩) id
  | copAsgn dst src =>
    obtain ⟨⟨d, hdst⟩, v, hsrc⟩ := hop
    obtain ⟨m', hok, hinv, hobj, hblocks⟩ := inv_copAsgn h hdst hsrc fun hdies ↦ hout ⟨v, hsrc, hdies⟩
    refine ⟨m', hok, hinv, denotes_assigned hdst hsrc hobj, fun b hb ↦ ?_⟩
    rw [hblocks, and_iff_right hb]
    refine not_congr ⟨fun hdies ↦ ⟨v, hsrc, hdies⟩, fun ⟨u, hu, hdies⟩ ↦ ?_⟩
    cases hsrc.symm.trans hu
    exact hdies
  | movAsgn dst src =>
    obtain ⟨hne, ⟨d, hdst⟩, v, hsrc⟩ := hop
    obtain ⟨m', hok, hinv, hobj, hblocks⟩ := inv_movAsgn h hne hdst hsrc hout
    exact ⟨m', hok, hinv, denotes_assigned hdst hsrc hobj, fun b hb ↦ by rw [hblocks, and_iff_right hb]; rfl⟩
  | dtor obj =>
    obtain ⟨⟨v, hobj⟩, hvariable⟩ := hop
    obtain ⟨m', hok, hinv, hblocks⟩ := inv_dtor h hobj hvariable
    exact ⟨m', hok, hinv, Iff.rfl, fun b hb ↦ by rw [hblocks, and_iff_right hb]; rfl⟩

theorem inv_nil : Inv [] := by
  refine ⟨⟨?_, ?_, ?_⟩, ?_⟩
  all_goals simp [count?, region?, refs, slot?, Full]

theorem inv_of_reachable (h : Reachable m) : Inv m := by
  obtain ⟨ops, hmeets, hrun⟩ := h
  refine run_invariant_of (fun m op m' hinv hop hstep ↦ ?_) hmeets hrun inv_nil
  obtain ⟨m'', hok, hinv', -⟩ := exec_inv hinv hop.1 hop.2
  rw [step, hok] at hstep
  cases hstep
  exact hinv'

/-- Two variables with a lambda in each. -/
def twoLambdas : List Op :=
  [.declare, .declare, .lambda ⟨0, 0⟩ (.lambda 0) [], .lambda ⟨1, 0⟩ (.lambda 1) []]

/-- A function in the first variable, a lambda that captures it in the second, and nothing yet in
the third. -/
def unassigned : List Op :=
  [.declare, .declare, .declare, .funCtor ⟨0, 0⟩ (.func 0), .lambda ⟨1, 0⟩ (.lambda 0) [⟨0, 0⟩], .defCtor ⟨2, 0⟩]

end Stela.CodeGen.Closure
