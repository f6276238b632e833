import Stela.CodeGen.Closure
import Stela.CodeGen.PointerFaults

/-!
# What the operations on closures change

The closure functions on a memory whose counts are right, with regions and slots of any types: what
each of them writes and frees, and when it succeeds.
-/

namespace Stela.CodeGen.Closure

open Stela.Library.Regions Stela.Library.RefCount
open Stela.CodeGen.Pointer
open Stela.Library.Except

variable {T : Type} {m m' : Memory T Clo} {pending : List (Option ℕ)}

/-- What the destination of an assignment receives. -/
def assigned (d v : Clo) : Clo := ⟨v.fn, if d.dat.isSome then v.dat else none⟩

/-- What a moving assignment leaves in the source. -/
def moved (d v : Clo) : Clo := if d.dat.isSome then { v with dat := none } else v

/-- A null pointer may always be released. -/
theorem releasable_of_null {l : Loc} {s : Slot T Clo} {ps : List (Option ℕ)} (h : Intact m pending)
    (hsub : pending ⊆ ps) (hs : slot? m l = some s) (hnull : s.obj.bind ptr = none) :
    (∀ b, ¬Dies m l ps b) ∧ Releasable m l ps := by
  have hdies (b : ℕ) : ¬Dies m l ps b := not_dies_of_null h hsub hs hnull
  exact ⟨hdies, fun b hb ↦ absurd hb (hdies b), hdies _⟩

/-- Overwriting an object by one with the same pointer does not matter for a release. -/
theorem releasable_overwrite {l : Loc} {s : Slot T Clo} {v : Clo} (hs : slot? m l = some s)
    (hptr : v.dat = s.obj.bind ptr) (hlive : s.obj.isSome) (k : Loc) (pending : List (Option ℕ)) :
    (∀ b, Dies (write m l (some v)) k pending b ↔ Dies m k pending b) ∧
      (Releasable (write m l (some v)) k pending ↔ Releasable m k pending) := by
  have hdies (b : ℕ) : Dies (write m l (some v)) k pending b ↔ Dies m k pending b := dies_overwrite hs hptr
  have hcomplete (b : ℕ) : Complete (write m l (some v)) b ↔ Complete m b := by
    simp only [complete_iff, slot?_write]
    refine forall_congr' fun i ↦ ?_
    split_ifs with heq
    · subst heq
      simp [hs, hlive]
    · exact Iff.rfl
  refine ⟨hdies, fun h ↦ ⟨fun b hb ↦ ?_, fun hb ↦ ?_⟩, fun h ↦ ⟨fun b hb ↦ ?_, fun hb ↦ ?_⟩⟩
  · exact (hcomplete b).mp (h.complete b ((hdies b).mpr hb))
  · exact h.outlives ((hdies _).mpr hb)
  · exact (hcomplete b).mpr (h.complete b ((hdies b).mp hb))
  · exact h.outlives ((hdies _).mp hb)

/-! ## Destruction -/

section Dtor

variable {obj : Loc} {s : Slot T Clo} {v : Clo}

theorem cloDtor_eq (hs : slot? m obj = some s) (hv : s.obj = some v) :
    cloDtor obj m = if v.dat.isSome then ptrDtor obj m else .ok (write m obj none) := by
  simp only [cloDtor, load_eq_ok hs hv, bind, Except.bind]
  rfl

theorem cloDtor_changed (h : Intact m pending) (hs : slot? m obj = some s) (hv : s.obj = some v)
    (hobj : Releasable m obj pending) :
    ∃ m', cloDtor obj m = .ok m' ∧ Intact m' pending ∧ Changed m m' [(obj, none)] (Dies m obj pending) := by
  rw [cloDtor_eq hs hv]
  by_cases hdat : v.dat.isSome
  · rw [if_pos hdat]
    exact ptrDtor_changed h hs hv hobj
  · have hnull : s.obj.bind ptr = none := by
      rw [hv]
      exact Option.not_isSome_iff_eq_none.mp hdat
    have hdies := (releasable_of_null h (List.Subset.refl _) hs hnull).1
    rw [if_neg hdat]
    refine ⟨_, rfl, h.overwrite hs hnull.symm, (changed_write hs none).congr fun b ↦ ?_⟩
    exact iff_of_false id (hdies b)

theorem cloDtor_ok_iff (h : Intact m pending) (hs : slot? m obj = some s) (hv : s.obj = some v) :
    (∃ m', cloDtor obj m = .ok m') ↔ Releasable m obj pending := by
  rw [cloDtor_eq hs hv]
  by_cases hdat : v.dat.isSome
  · rw [if_pos hdat]
    exact ptrDtor_ok_iff h hs hv
  · have hnull : s.obj.bind ptr = none := by
      rw [hv]
      exact Option.not_isSome_iff_eq_none.mp hdat
    rw [if_neg hdat]
    exact iff_of_true ⟨_, rfl⟩ (releasable_of_null h (List.Subset.refl _) hs hnull).2

end Dtor

/-! ## Assignment -/

section Asgn

variable {dst src : Loc} {d s : Slot T Clo} {u v : Clo}

theorem cloAsgn_eq {ptrAsgn : Loc → Loc → Memory T Clo → Except Fault (Memory T Clo)} (hd : slot? m dst = some d)
    (hu : d.obj = some u) (hs : slot? m src = some s) (hv : s.obj = some v) : cloAsgn ptrAsgn dst src m =
      let m' := write m dst (some { u with fn := v.fn })
      if u.dat.isSome then ptrAsgn dst src m' else .ok m' := by
  simp only [cloAsgn, load_eq_ok hs hv, load_eq_ok hd hu, store_eq_ok _ hd, bind, Except.bind]
  rfl

/-- Without data in the destination, only the function is assigned. -/
theorem cloAsgn_null (h : Intact m pending) (ptrAsgn : Loc → Loc → Memory T Clo → Except Fault (Memory T Clo))
    (hd : slot? m dst = some d) (hu : d.obj = some u) (hs : slot? m src = some s) (hv : s.obj = some v)
    (hdat : ¬u.dat.isSome) :
    ∃ m', cloAsgn ptrAsgn dst src m = .ok m' ∧ Intact m' pending ∧
      Changed m m' [(dst, some (assigned u v))] fun _ ↦ False := by
  have hnull : u.dat = none := Option.not_isSome_iff_eq_none.mp hdat
  have hptr : d.obj.bind ptr = none := by
    rw [hu]
    exact hnull
  have hassigned : assigned u v = { u with fn := v.fn } := by simp [assigned, hnull]
  rw [cloAsgn_eq hd hu hs hv, hassigned]
  exact ⟨_, if_neg hdat, h.overwrite hd (hnull.trans hptr.symm), changed_write hd _⟩

/-- The function is assigned first, which leaves the pointers as they are. -/
theorem assignFn (h : Intact m pending) (hd : slot? m dst = some d) (hu : d.obj = some u)
    (hs : slot? m src = some s) (hv : s.obj = some v) :
    ∃ d₁ s₁ v₁, Intact (write m dst (some { u with fn := v.fn })) pending ∧
      slot? (write m dst (some { u with fn := v.fn })) dst = some d₁ ∧ d₁.obj = some { u with fn := v.fn } ∧
      slot? (write m dst (some { u with fn := v.fn })) src = some s₁ ∧ s₁.obj = some v₁ ∧ ptr v₁ = v.dat ∧
      (dst ≠ src → v₁ = v) := by
  have hd₁ : slot? (write m dst (some { u with fn := v.fn })) dst = some { d with obj := some { u with fn := v.fn } } := by
    rw [slot?_write, if_pos rfl, hd]
    rfl
  have hintact : Intact (write m dst (some { u with fn := v.fn })) pending := h.overwrite hd (by rw [hu]; rfl)
  by_cases hself : dst = src
  · subst hself
    cases hd.symm.trans hs
    cases hu.symm.trans hv
    exact ⟨_, _, _, hintact, hd₁, rfl, hd₁, rfl, rfl, fun hne ↦ absurd rfl hne⟩
  · exact ⟨_, s, v, hintact, hd₁, rfl, by rw [slot?_write, if_neg hself, hs], hv, rfl, fun _ ↦ rfl⟩

theorem cloCopAsgn_changed (h : Intact m pending) (hd : slot? m dst = some d) (hu : d.obj = some u)
    (hs : slot? m src = some s) (hv : s.obj = some v) (hdst : Releasable m dst (v.dat :: pending)) :
    ∃ m', cloCopAsgn dst src m = .ok m' ∧ Intact m' pending ∧
      Changed m m' [(dst, some (assigned u v))] (Dies m dst (v.dat :: pending)) := by
  by_cases hdat : u.dat.isSome
  · obtain ⟨d₁, s₁, v₁, h₁, hd₁, hu₁, hs₁, hv₁, hptr, -⟩ := assignFn h hd hu hs hv
    obtain ⟨hdies, hreleasable⟩ :=
      releasable_overwrite hd (v := { u with fn := v.fn }) (by rw [hu]; rfl) (by rw [hu]; rfl) dst (v.dat :: pending)
    have hdst₁ := hreleasable.mpr hdst
    rw [← hptr] at hdst₁
    obtain ⟨m', hok, hintact, hchanged⟩ := ptrCopAsgn_changed h₁ hd₁ hu₁ hs₁ hv₁ hdst₁
    have hassigned : assigned u v = setPtr { u with fn := v.fn } (ptr v₁) := by
      rw [assigned, if_pos hdat, hptr]
      rfl
    refine ⟨m', ?_, hintact, ?_⟩
    · rw [cloCopAsgn, cloAsgn_eq hd hu hs hv]
      exact (if_pos hdat).trans hok
    · rw [hassigned]
      refine ((changed_write hd _).trans hchanged (fun w hw ↦ ?_) fun w hw ↦ .inl hw).congr fun b ↦ ?_
      · simp only [List.mem_append, List.mem_singleton] at hw
        exact ⟨_, List.mem_cons_self, by obtain rfl | rfl := hw <;> rfl⟩
      · rw [false_or, hptr, hdies]
  · have hnull : d.obj.bind ptr = none := by
      rw [hu]
      exact Option.not_isSome_iff_eq_none.mp hdat
    have hdies := (releasable_of_null h (List.subset_cons_self v.dat _) hd hnull).1
    obtain ⟨m', hok, hintact, hchanged⟩ := cloAsgn_null h ptrCopAsgn hd hu hs hv hdat
    exact ⟨m', hok, hintact, hchanged.congr fun b ↦ iff_of_false id (hdies b)⟩

theorem cloCopAsgn_ok_iff (h : Intact m pending) (hd : slot? m dst = some d) (hu : d.obj = some u)
    (hs : slot? m src = some s) (hv : s.obj = some v) :
    (∃ m', cloCopAsgn dst src m = .ok m') ↔ Releasable m dst (v.dat :: pending) := by
  by_cases hdat : u.dat.isSome
  · obtain ⟨d₁, s₁, v₁, h₁, hd₁, hu₁, hs₁, hv₁, hptr, -⟩ := assignFn h hd hu hs hv
    have hreleasable := (releasable_overwrite hd (v := { u with fn := v.fn }) (by rw [hu]; rfl) (by rw [hu]; rfl) dst
      (v.dat :: pending)).2
    rw [← hreleasable, ← hptr, ← ptrCopAsgn_ok_iff h₁ hd₁ hu₁ hs₁ hv₁, cloCopAsgn, cloAsgn_eq hd hu hs hv]
    simp only [hdat, if_true]
  · have hnull : d.obj.bind ptr = none := by
      rw [hu]
      exact Option.not_isSome_iff_eq_none.mp hdat
    obtain ⟨m', hok, -⟩ := cloAsgn_null h ptrCopAsgn hd hu hs hv hdat
    exact iff_of_true ⟨m', hok⟩ (releasable_of_null h (List.subset_cons_self v.dat _) hd hnull).2

theorem cloMovAsgn_changed (h : Intact m pending) (hne : dst ≠ src) (hd : slot? m dst = some d) (hu : d.obj = some u)
    (hs : slot? m src = some s) (hv : s.obj = some v) (hdst : Releasable m dst pending)
    (hsrc : ¬Dies m dst pending src.region) :
    ∃ m', cloMovAsgn dst src m = .ok m' ∧ Intact m' pending ∧
      Changed m m' [(dst, some (assigned u v)), (src, some (moved u v))] (Dies m dst pending) := by
  by_cases hdat : u.dat.isSome
  · obtain ⟨d₁, s₁, v₁, h₁, hd₁, hu₁, hs₁, hv₁, hptr, hsame⟩ := assignFn h hd hu hs hv
    obtain rfl := hsame hne
    obtain ⟨hdies, hreleasable⟩ :=
      releasable_overwrite hd (v := { u with fn := v₁.fn }) (by rw [hu]; rfl) (by rw [hu]; rfl) dst pending
    obtain ⟨m', hok, hintact, hchanged⟩ :=
      ptrMovAsgn_changed h₁ hne hd₁ hu₁ hs₁ hv₁ (hreleasable.mpr hdst) fun hb ↦ hsrc ((hdies _).mp hb)
    have hassigned : assigned u v₁ = setPtr { u with fn := v₁.fn } (ptr v₁) := by
      rw [assigned, if_pos hdat]
      rfl
    have hmoved : moved u v₁ = setPtr v₁ none := if_pos hdat
    refine ⟨m', ?_, hintact, ?_⟩
    · rw [cloMovAsgn, cloAsgn_eq hd hu hs hv]
      exact (if_pos hdat).trans hok
    · rw [hassigned, hmoved]
      refine ((changed_write hd _).trans hchanged (fun w hw ↦ ?_) fun w hw ↦ .inl hw).congr fun b ↦ ?_
      · obtain hw | hw := List.mem_append.mp hw
        · cases List.mem_singleton.mp hw
          exact ⟨_, List.mem_cons_self, rfl⟩
        · exact ⟨w, hw, rfl⟩
      · rw [false_or, hdies]
  · have hnull : d.obj.bind ptr = none := by
      rw [hu]
      exact Option.not_isSome_iff_eq_none.mp hdat
    have hdies := (releasable_of_null h (List.Subset.refl _) hd hnull).1
    obtain ⟨m', hok, hintact, hchanged⟩ := cloAsgn_null h ptrMovAsgn hd hu hs hv hdat
    refine ⟨m', hok, hintact, ?_⟩
    have hmoved : moved u v = v := if_neg hdat
    have hsame : slot? m' src = some { s with obj := some v } := by
      rw [hchanged.same (Ne.symm hne), hs, ← hv]
    refine ⟨hchanged.regions, fun l t hl ht ↦ ?_, fun l hl _ ↦ ?_, fun w hw ↦ ?_, fun b ↦ ?_⟩
    · exact hchanged.others l t (fun w hw ↦ hl w (List.mem_singleton.mp hw ▸ List.mem_cons_self)) ht
    · exact hchanged.same (Ne.symm (hl _ List.mem_cons_self))
    · rw [hmoved] at hw
      obtain rfl | hw := List.mem_cons.mp hw
      · exact hchanged.results _ List.mem_cons_self
      · cases List.mem_singleton.mp hw
        exact ⟨s, hs, hsame⟩
    · rw [hchanged.blocks, iff_of_false id (hdies b)]

theorem cloMovAsgn_ok_iff (h : Intact m pending) (hne : dst ≠ src) (hd : slot? m dst = some d) (hu : d.obj = some u)
    (hs : slot? m src = some s) (hv : s.obj = some v) :
    (∃ m', cloMovAsgn dst src m = .ok m') ↔ Releasable m dst pending ∧ ¬Dies m dst pending src.region := by
  by_cases hdat : u.dat.isSome
  · obtain ⟨d₁, s₁, v₁, h₁, hd₁, hu₁, hs₁, hv₁, hptr, -⟩ := assignFn h hd hu hs hv
    obtain ⟨hdies, hreleasable⟩ :=
      releasable_overwrite hd (v := { u with fn := v.fn }) (by rw [hu]; rfl) (by rw [hu]; rfl) dst pending
    rw [← hreleasable, ← hdies, ← ptrMovAsgn_ok_iff h₁ hne hd₁ hu₁ hs₁ hv₁, cloMovAsgn, cloAsgn_eq hd hu hs hv]
    simp only [hdat, if_true]
  · have hnull : d.obj.bind ptr = none := by
      rw [hu]
      exact Option.not_isSome_iff_eq_none.mp hdat
    obtain ⟨m', hok, -⟩ := cloAsgn_null h ptrMovAsgn hd hu hs hv hdat
    obtain ⟨hdies, hreleasable⟩ := releasable_of_null h (List.Subset.refl _) hd hnull
    exact iff_of_true ⟨m', hok⟩ ⟨hreleasable, hdies _⟩

end Asgn

/-! ## Lambdas -/

/-- The closures in some places. -/
def Contain (m : Memory T Clo) (ls : List Loc) (vs : List Clo) : Prop :=
  List.Forall₂ (fun l v ↦ ∃ s, slot? m l = some s ∧ s.obj = some v) ls vs

/-- The slots of the data, from slot `i` on, with copies of the captures. -/
def captured (dat : ℕ) : (i : ℕ) → List Clo → List (Loc × Option Clo)
  | _, [] => []
  | i, v :: vs => (⟨dat, i⟩, some v) :: captured dat (i + 1) vs

theorem mem_captured {dat : ℕ} {vs : List Clo} {w : Loc × Option Clo} : ∀ {i : ℕ},
    w ∈ captured dat i vs ↔ ∃ j v, vs[j]? = some v ∧ w = (⟨dat, i + j⟩, some v) := by
  induction vs with
  | nil => simp [captured]
  | cons v vs ih =>
    intro i
    have hindex (j : ℕ) : i + 1 + j = i + (j + 1) := by omega
    rw [captured, List.mem_cons, ih]
    constructor
    · rintro (rfl | ⟨j, u, hu, rfl⟩)
      · exact ⟨0, v, rfl, rfl⟩
      · exact ⟨j + 1, u, hu, by rw [hindex]⟩
    · rintro ⟨j, u, hu, rfl⟩
      cases j with
      | zero =>
        cases Option.some.inj hu
        exact .inl rfl
      | succ j => exact .inr ⟨j, u, hu, by rw [hindex]⟩

theorem copyCaptures_changed (dat : ℕ) {caps : List Loc} {vs : List Clo} : ∀ {i : ℕ} {m : Memory T Clo}, Intact m pending →
    (∀ j < caps.length, ∃ s, slot? m ⟨dat, i + j⟩ = some s ∧ s.obj = none) → Contain m caps vs →
      ∃ m', copyCaptures dat i caps m = .ok m' ∧ Intact m' pending ∧
        Changed m m' (captured dat i vs) fun _ ↦ False := by
  induction caps generalizing vs with
  | nil =>
    intro i m h _ hcaps
    cases hcaps
    exact ⟨m, rfl, h, .refl m⟩
  | cons cap caps ih =>
    intro i m h hempty hcaps
    cases hcaps with
    | @cons _ v _ vs hcap hcaps =>
      obtain ⟨s, hs, hv⟩ := hcap
      obtain ⟨d, hd, hnone⟩ := hempty 0 (Nat.succ_pos _)
      obtain ⟨m₁, hok, h₁, hchanged⟩ := ptrCopCtor_changed h hd hnone hs hv
      have hindex (j : ℕ) : i + 1 + j = i + (j + 1) := by omega
      have hempty₁ (j : ℕ) (hj : j < caps.length) : ∃ s, slot? m₁ ⟨dat, i + 1 + j⟩ = some s ∧ s.obj = none := by
        have hne : (⟨dat, i + 1 + j⟩ : Loc) ≠ ⟨dat, i + 0⟩ := by simp; omega
        rw [hchanged.same hne, hindex]
        exact hempty (j + 1) (Nat.succ_lt_succ hj)
      have hcaps₁ : Contain m₁ caps vs := by
        refine hcaps.imp fun l u ⟨t, ht, hu⟩ ↦ ⟨t, ?_, hu⟩
        have hne : l ≠ ⟨dat, i + 0⟩ := by
          rintro rfl
          cases hd.symm.trans ht
          cases hnone.symm.trans hu
        rw [hchanged.same hne, ht]
      obtain ⟨m', hok', h', hchanged'⟩ := ih h₁ hempty₁ hcaps₁
      refine ⟨m', ?_, h', ?_⟩
      · rw [copyCaptures, cloCopCtor, show ptrCopCtor ⟨dat, i⟩ cap m = .ok m₁ from hok]
        exact hok'
      · refine (hchanged.trans hchanged' (fun w hw ↦ ⟨w, hw, rfl⟩) fun w hw ↦ ?_).congr fun b ↦ or_self_iff
        obtain rfl | hw := List.mem_cons.mp hw
        · refine .inr ⟨List.mem_cons_self, fun x hx heq ↦ ?_, id⟩
          obtain ⟨j, u, -, rfl⟩ := mem_captured.mp hx
          simp only [Loc.mk.injEq, true_and] at heq
          omega
        · exact .inl hw

/-- A lambda is a closure with a new block, in which the captures are copied. -/
theorem lambdaOf_changed (h : Intact m pending) (type : T) {types : List T} {obj : Loc} {s : Slot T Clo} (fn : Fun)
    {caps : List Loc} {vs : List Clo} (hs : slot? m obj = some s) (hempty : s.obj = none)
    (hlen : types.length = caps.length) (hcaps : Contain m caps vs) :
    ∃ m', lambdaOf type types obj fn caps m = .ok m' ∧ Intact m' pending ∧
      Changed (alloc m ⟨type, some 1, types.map fun type ↦ ⟨type, none⟩⟩) m'
        (captured m.length 0 vs ++ [(obj, some ⟨fn, some m.length⟩)]) fun _ ↦ False := by
  let r : Region T Clo := ⟨type, some 1, types.map fun type ↦ ⟨type, none⟩⟩
  have hold {k : Loc} {t : Slot T Clo} (hk : slot? m k = some t) : k.region ≠ m.length := by
    obtain ⟨r', hr', -⟩ := slot?_eq_some.mp hk
    exact Nat.ne_of_lt (region?_lt hr')
  have halloc {k : Loc} {t : Slot T Clo} (hk : slot? m k = some t) : slot? (alloc m r) k = some t := by
    rw [slot?_alloc, if_neg (hold hk), hk]
  have h₀ : Intact (alloc m r) (some m.length :: pending) := by
    refine Counted.alloc rfl (h.append_none fun p hp ↦ ?_)
    simp only [r, List.map_map, List.mem_map] at hp
    obtain ⟨-, -, rfl⟩ := hp
    rfl
  have hempty₀ (j : ℕ) (hj : j < caps.length) : ∃ s, slot? (alloc m r) ⟨m.length, 0 + j⟩ = some s ∧ s.obj = none :=
    ⟨⟨types[j], none⟩, by simp [slot?_alloc, r, hlen ▸ hj], rfl⟩
  obtain ⟨m₁, hok, h₁, hchanged⟩ := copyCaptures_changed m.length h₀ hempty₀
    (hcaps.imp fun l u ⟨t, ht, hu⟩ ↦ ⟨t, halloc ht, hu⟩)
  have hout (x : Loc × Option Clo) (hx : x ∈ captured m.length 0 vs) : x.1 ≠ obj := by
    obtain ⟨j, u, -, rfl⟩ := mem_captured.mp hx
    exact fun heq ↦ hold hs (congrArg Loc.region heq.symm)
  have hs₁ : slot? m₁ obj = some s := by rw [hchanged.stays obj hout id, halloc hs]
  obtain ⟨hstore, hintact, hchanged'⟩ := store_changed (v := ⟨fn, some m.length⟩) h₁ hs₁ hempty
  refine ⟨_, ?_, hintact, ?_⟩
  · rw [lambdaOf, show copyCaptures m.length 0 caps (alloc m r) = .ok m₁ from hok]
    exact hstore
  · refine (hchanged.trans hchanged' (fun w hw ↦ ⟨w, hw, rfl⟩) fun w hw ↦ ?_).congr fun b ↦ or_self_iff
    obtain hw | hw := List.mem_append.mp hw
    · refine .inr ⟨hw, fun x hx ↦ ?_, id⟩
      cases List.mem_singleton.mp hx
      exact Ne.symm (hout w hw)
    · exact .inl hw

end Stela.CodeGen.Closure
