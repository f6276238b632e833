import Stela.Ownership.Outcomes

/-!
# Owner counts

A state is exact when the count of every object is the number of its owners, and the objects that are left are those
that have one. The main result, `owner_counts_iff`, says which operations lead from exact states to exact states without
touching what is no more: all of them, as long as nothing that is still to be used is destroyed and no pointer is lost
in a cast.
-/

namespace Stela.Ownership

open Stela.Library.Regions Stela.Library.RefCount Stela.Library.Machine

variable {Class : Type} {H : Hierarchy Class} {s s' : State Class} {op : Op Class}

/-! ## Exact states -/

/-- The number of retain_ptrs, and of pointers between two retain_ptrs, that own the object. -/
def owners (s : State Class) (a : ℕ) : ℕ := refs s.heap a + s.raws.count (some a)

structure Exact (s : State Class) : Prop where
  count : ∀ a n, count? s.heap a = some n → n = owners s a
  /-- An object is destroyed just when it loses its last owner. -/
  alive : ∀ a, IsBlock s.heap a ↔ 0 < owners s a

theorem exact_iff : Exact s ↔ Settled s.heap s.raws := by
  constructor
  · intro h
    refine ⟨h.count, fun a n hn _ ↦ ?_, fun a ha ↦ ?_⟩
    · have hpos := (h.alive a).mp ⟨n, hn⟩
      have hcount := h.count a n hn
      omega
    · apply (h.alive a).mpr
      obtain hpos | hmem := ha
      · exact Nat.add_pos_left hpos _
      · exact Nat.add_pos_right _ (List.count_pos_iff.mpr hmem)
  · intro h
    refine ⟨h.counted, fun a ↦ ⟨?_, fun hpos ↦ ?_⟩⟩
    · rintro ⟨n, hn⟩
      have hpos := h.positive a n hn id
      rw [h.counted a n hn] at hpos
      exact Int.ofNat_lt.mp hpos
    · apply h.valid
      obtain hpos | hpos := Nat.add_pos_iff_pos_or_pos.mp hpos
      · exact .inl hpos
      · exact .inr (List.count_pos_iff.mp hpos)

theorem exact_init : Exact (init : State Class) := by
  apply exact_iff.mpr
  refine ⟨nofun, nofun, ?_⟩
  rintro a (hpos | hmem)
  · cases hpos
  · cases hmem

/-! ## What is asked of a step -/

/-- A retain_ptr lives in the place. -/
def Alive (m : Heap Class) (l : Loc) : Prop := ∃ p, Holds m l p

/-- What the language asks for: constructors need a place without a retain_ptr, other functions one that lives. A
retain_ptr is not given a pointer to anything but an object, and it only takes over pointers that own theirs. -/
def Allowed (s : State Class) : Op Class → Prop
  | .declare _ | .make _ _ => True
  | .place region _ => ∃ r, region? s.heap region = some r
  | .defCtor this => Vacant s.heap this
  | .adoptCtor this raw => Vacant s.heap this ∧ raw < s.raws.length
  | .retainCtor this ptr => Vacant s.heap this ∧ Valid s.heap ptr
  | .copyCtor this other | .moveCtor this other | .staticPointerCast this other | .staticPointerCastMove this other
  | .dynamicPointerCast _ this other | .dynamicPointerCastMove _ this other => Vacant s.heap this ∧ Alive s.heap other
  | .dtor this | .resetNull this | .detach this => Alive s.heap this
  | .reset this raw => Alive s.heap this ∧ raw < s.raws.length
  | .resetRetain this ptr => Alive s.heap this ∧ Valid s.heap ptr
  | .copyAsgn this other | .moveAsgn this other | .swap this other => Alive s.heap this ∧ Alive s.heap other

/-- The step leads to an exact state. Only a count that is at its greatest already may stop it. -/
def Right (H : Hierarchy Class) (s : State Class) (op : Op Class) : Prop :=
  match exec H s op with
  | .ok s' => Exact s'
  | .error .overflow => ∃ a, maxCount ≤ owners s a
  | .error _ => False

/-- Of the functions that release a pointer: the retain_ptr does not lie in an object that is destroyed, and the object
that it is to retain is not destroyed. Of the cast that detaches its operand: the object has the class. -/
def Careful (H : Hierarchy Class) (s : State Class) : Op Class → Prop
  | .dtor this | .resetNull this | .reset this _ => ¬Dies s.heap this s.raws this.region
  | .resetRetain this ptr =>
    ¬Dies s.heap this s.raws this.region ∧ ∀ a, ptr = some a → ¬Dies s.heap this s.raws a
  | .copyAsgn this other =>
    ¬Dies s.heap this s.raws this.region ∧ ∀ a, Holds s.heap other (some a) → ¬Dies s.heap this s.raws a
  | .moveAsgn this other =>
    ∀ p, Holds s.heap other p → ¬Dies (write s.heap other (some ⟨none⟩)) this (p :: s.raws) this.region
  | .dynamicPointerCastMove derived _ base => ∀ p, Holds s.heap base p → Casts H derived s.heap p
  | _ => True

theorem Right.exact (h : Right H s op) (hstep : step H s op = some s') : Exact s' := by
  unfold Right at h
  unfold step at hstep
  cases hexec : exec H s op with
  | ok t =>
    rw [hexec] at h hstep
    cases hstep
    exact h
  | error e =>
    rw [hexec] at hstep
    cases hstep

theorem right_ok (hexec : exec H s op = .ok s') : Right H s op ↔ Settled s'.heap s'.raws := by
  rw [Right, hexec]
  exact exact_iff

theorem right_run {f : Heap Class → Except Fault (Heap Class)} (hexec : exec H s op = s.run f) :
    Right H s op ↔ Outcome s.raws (Full s.heap s.raws) (f s.heap) := by
  rw [Right, hexec, State.run]
  cases f s.heap with
  | ok m => exact exact_iff
  | error e => cases e <;> exact Iff.rfl

/-- The pointer that is adopted, and the others. -/
theorem raws_perm {raw : ℕ} (h : raw < s.raws.length) : s.raws.Perm (s.raws[raw] :: s.raws.eraseIdx raw) :=
  (List.getElem_cons_eraseIdx_perm h).symm

theorem right_adopt {raw : ℕ} (h : raw < s.raws.length) {f : Option ℕ → Heap Class → Except Fault (Heap Class)}
    (hexec : exec H s op = s.adopt raw f) :
    Right H s op ↔ Outcome (s.raws.eraseIdx raw) (Full s.heap s.raws) (f s.raws[raw] s.heap) := by
  rw [Right, hexec, State.adopt, List.getElem?_eq_getElem h]
  simp only [bind, Except.bind]
  cases f s.raws[raw] s.heap with
  | ok m => exact exact_iff
  | error e => cases e <;> exact Iff.rfl

/-! ## One step -/

/-- Storage without a retain_ptr has no part in the counts. -/
theorem settled_pushSlot {r : Region Class RetainPtr} {m : Heap Class} {pending : List (Option ℕ)} {region : ℕ}
    (hr : region? m region = some r) (pointee : Class) (h : Settled m pending) :
    Settled (pushSlot m region pointee) pending := by
  apply h.congr
  · exact fun a ↦ count?_pushSlot m region pointee a
  · exact fun a ↦ refs_pushSlot hr pointee a

/-- `make_retain` owns the new object by a raw pointer. -/
theorem settled_make {m : Heap Class} {pending : List (Option ℕ)} (cls : Class) (pointees : List Class)
    (h : Settled m pending) :
    Settled (alloc m ⟨cls, some 1, pointees.map (⟨·, none⟩)⟩) (some m.length :: pending) := by
  apply Counted.alloc rfl
  apply h.append_none
  intro p hp
  simp only [List.map_map, List.mem_map] at hp
  obtain ⟨_, -, rfl⟩ := hp
  rfl

/-- A step leads from an exact state to an exact state just when it is careful. -/
theorem right_iff (hexact : Exact s) (hallowed : Allowed s op) : Right H s op ↔ Careful H s op := by
  have hsettled := exact_iff.mp hexact
  cases op with
  | declare pointee =>
    refine iff_of_true ((right_ok rfl).mpr (hsettled.alloc_uncounted rfl ?_)) trivial
    simp
  | place region pointee =>
    obtain ⟨r, hr⟩ := hallowed
    exact iff_of_true ((right_ok rfl).mpr (settled_pushSlot hr pointee hsettled)) trivial
  | make cls pointees => exact iff_of_true ((right_ok rfl).mpr (settled_make cls pointees hsettled)) trivial
  | defCtor this =>
    exact iff_of_true ((right_run rfl).mpr (construct_outcome hallowed hsettled.cons_none)) trivial
  | adoptCtor this raw =>
    obtain ⟨hthis, hraw⟩ := hallowed
    refine iff_of_true ((right_adopt hraw rfl).mpr ?_) trivial
    exact construct_outcome hthis (hsettled.perm (raws_perm hraw))
  | retainCtor this ptr =>
    obtain ⟨hthis, hptr⟩ := hallowed
    exact iff_of_true ((right_run rfl).mpr (retainCtor_outcome hthis hptr hsettled)) trivial
  | copyCtor this other =>
    obtain ⟨hthis, p, hother⟩ := hallowed
    refine iff_of_true ((right_run rfl).mpr ?_) trivial
    rw [copyCtor_eq hother]
    exact retainCtor_outcome hthis (hother.valid hsettled) hsettled
  | moveCtor this other =>
    obtain ⟨hthis, p, hother⟩ := hallowed
    exact iff_of_true ((right_run rfl).mpr (moveCtor_outcome hthis hother hsettled)) trivial
  | dtor this =>
    obtain ⟨p, hthis⟩ := hallowed
    exact (right_run rfl).trans (dtor_outcome hthis hsettled)
  | resetNull this =>
    obtain ⟨p, hthis⟩ := hallowed
    exact (right_run rfl).trans (resetNull_outcome hthis hsettled)
  | reset this raw =>
    obtain ⟨⟨q, hthis⟩, hraw⟩ := hallowed
    have hperm := raws_perm hraw
    calc
      _ ↔ Outcome (s.raws.eraseIdx raw) _ (reset H this s.raws[raw] s.heap) := right_adopt hraw rfl
      _ ↔ ¬Dies s.heap this (s.raws[raw] :: s.raws.eraseIdx raw) this.region :=
        reset_outcome hthis (hsettled.perm hperm)
      _ ↔ _ := not_congr (dies_congr fun b ↦ hperm.mem_iff.symm)
  | resetRetain this ptr =>
    obtain ⟨⟨q, hthis⟩, hptr⟩ := hallowed
    exact (right_run rfl).trans (resetRetain_outcome hthis hptr hsettled)
  | detach this =>
    obtain ⟨p, hthis⟩ := hallowed
    have hexec : exec H s (.detach this) = .ok ⟨write s.heap this (some ⟨none⟩), p :: s.raws⟩ := by
      rw [exec, detach_eq_ok hthis]
      rfl
    exact iff_of_true ((right_ok hexec).mpr (hthis.detached hsettled)) trivial
  | copyAsgn this other =>
    obtain ⟨⟨q, hthis⟩, p, hother⟩ := hallowed
    rw [right_run rfl, copyAsgn_eq hother, resetRetain_outcome hthis (hother.valid hsettled) hsettled]
    refine and_congr_right fun _ ↦ ⟨fun h a ha ↦ h a (hother.unique ha), ?_⟩
    rintro h a rfl
    exact h a hother
  | moveAsgn this other =>
    obtain ⟨⟨q, hthis⟩, p, hother⟩ := hallowed
    rw [right_run rfl, moveAsgn_outcome hthis hother hsettled]
    refine ⟨fun h p' hp' ↦ ?_, fun h ↦ h p hother⟩
    cases hother.unique hp'
    exact h
  | swap this other =>
    obtain ⟨⟨q, hthis⟩, p, hother⟩ := hallowed
    exact iff_of_true ((right_run rfl).mpr (swap_outcome hthis hother hsettled)) trivial
  | staticPointerCast this src =>
    obtain ⟨hthis, p, hsrc⟩ := hallowed
    refine iff_of_true ((right_run rfl).mpr ?_) trivial
    rw [staticPointerCast_eq hsrc]
    exact retainCtor_outcome hthis (hsrc.valid hsettled) hsettled
  | staticPointerCastMove this src =>
    obtain ⟨hthis, p, hsrc⟩ := hallowed
    exact iff_of_true ((right_run rfl).mpr (moveCtor_outcome hthis hsrc hsettled)) trivial
  | dynamicPointerCast derived this base =>
    obtain ⟨hthis, p, hbase⟩ := hallowed
    exact iff_of_true ((right_run rfl).mpr (dynamicPointerCast_outcome hthis hbase hsettled)) trivial
  | dynamicPointerCastMove derived this base =>
    obtain ⟨hthis, p, hbase⟩ := hallowed
    rw [right_run rfl, dynamicPointerCastMove_outcome hthis hbase hsettled]
    refine ⟨fun h p' hp' ↦ ?_, fun h ↦ h p hbase⟩
    cases hbase.unique hp'
    exact h

/-- Assigning a retain_ptr to itself is wrong just when it is the only owner. -/
theorem right_copyAsgn_self_iff {this : Loc} {a : ℕ} (hexact : Exact s) (hthis : Holds s.heap this (some a)) :
    Right H s (.copyAsgn this this) ↔ owners s a ≠ 1 := by
  have hallowed : Allowed s (.copyAsgn this this) := ⟨⟨_, hthis⟩, _, hthis⟩
  rw [right_iff hexact hallowed]
  have hsettled := exact_iff.mp hexact
  have hthis' := hthis
  obtain ⟨type, hs⟩ := hthis'
  constructor
  · rintro ⟨-, h⟩ hone
    exact h a hthis (dies_of_last hsettled hs rfl hone)
  · intro hone
    have hnone (b : ℕ) : ¬Dies s.heap this s.raws b := by
      intro hdies
      obtain ⟨_, hptr, hlast⟩ := hdies.last hsettled hs
      cases hptr
      exact hone hlast
    exact ⟨hnone _, fun b _ ↦ hnone b⟩

/-! ## Whole runs -/

/-- A program that is careful with every operation keeps the counts exact, and one that is not does not. A step that
fails does so of itself: the fuel is always enough for what it destroys. -/
theorem owner_counts_iff (ops : List (Op Class)) (hallowed : RunMeets (step H) Allowed init ops) :
    (RunMeets (step H) (Right H) init ops ↔ RunMeets (step H) (Careful H) init ops) ∧
      ∀ s op, exec H s op ≠ .error .fuel := by
  constructor
  · exact runMeets_iff (fun _ _ ↦ right_iff) (fun _ _ _ _ ↦ Right.exact) hallowed exact_init
  · exact fun s op ↦ exec_ne_fuel op

/-! ## Types -/

/-- The nodes of types; a `TypePtr` points to `type`. -/
inductive TypeNode where
  | type | btn | array | func | named | struct | user
  deriving DecidableEq, Repr

/-- The nodes are final classes. Members are destroyed last to first. -/
def typeNodes : Hierarchy TypeNode where
  derives cls derived := derived = .type || derived = cls
  dtorOrder _ n := (List.range n).reverse
  dtorOrder_perm _ _ := List.reverse_perm _

/-- `lookupConcrete` casts the temporary that `lookupConcreteType` returns, here a copy of the `TypePtr`. -/
def lookupConcrete (cls : TypeNode) (result temp type : Loc) : List (Op TypeNode) :=
  [.copyCtor temp type, .dynamicPointerCastMove cls result temp, .dtor temp]

/-- Two variables share a type, and one is assigned to the other before both are gone. -/
def sharedType : List (Op TypeNode) :=
  [.declare .type, .make .btn [], .adoptCtor ⟨0, 0⟩ 0, .declare .type, .copyCtor ⟨2, 0⟩ ⟨0, 0⟩,
    .copyAsgn ⟨2, 0⟩ ⟨0, 0⟩, .dtor ⟨0, 0⟩, .dtor ⟨2, 0⟩]

theorem owner_counts_iff_sharedType : RunMeets (step typeNodes) (Right typeNodes) init sharedType := by
  have hallowed : RunMeets (step typeNodes) Allowed init sharedType := by
    refine .cons trivial rfl ?_
    refine .cons trivial rfl ?_
    refine .cons ⟨⟨_, rfl⟩, by decide⟩ rfl ?_
    refine .cons trivial rfl ?_
    refine .cons ⟨⟨_, rfl⟩, _, _, rfl⟩ rfl ?_
    refine .cons ⟨⟨_, _, rfl⟩, _, _, rfl⟩ rfl ?_
    refine .cons ⟨_, _, rfl⟩ rfl ?_
    exact .cons ⟨_, _, rfl⟩ rfl trivial
  apply (owner_counts_iff sharedType hallowed).1.mpr
  refine .cons trivial rfl ?_
  refine .cons trivial rfl ?_
  refine .cons trivial rfl ?_
  refine .cons trivial rfl ?_
  refine .cons trivial rfl ?_
  refine .cons ⟨not_dies_of_uncounted rfl, ?_⟩ rfl ?_
  · -- the first variable owns the type as well
    rintro a ⟨_, ha⟩ ⟨-, -, howners⟩
    cases ha
    exact not_dies_of_uncounted rfl (howners ⟨0, 0⟩ _ rfl rfl (by decide))
  · refine .cons (not_dies_of_uncounted rfl) rfl ?_
    exact .cons (not_dies_of_uncounted rfl) rfl trivial

/-- A type is looked up as a type of another class, and then the variables are gone. -/
def failedLookup : List (Op TypeNode) :=
  [.declare .type, .make .btn [], .adoptCtor ⟨0, 0⟩ 0, .declare .type, .declare .array] ++
    lookupConcrete .array ⟨3, 0⟩ ⟨2, 0⟩ ⟨0, 0⟩ ++ [.dtor ⟨3, 0⟩, .dtor ⟨0, 0⟩]

/-- The object that the cast lost is never destroyed. -/
theorem failedLookup_lost : ¬∀ ops : List (Op TypeNode), RunMeets (step typeNodes) Allowed init ops →
    RunMeets (step typeNodes) (Right typeNodes) init ops := by
  intro hclaim
  have hallowed : RunMeets (step typeNodes) Allowed init failedLookup := by
    refine .cons trivial rfl ?_
    refine .cons trivial rfl ?_
    refine .cons ⟨⟨_, rfl⟩, by decide⟩ rfl ?_
    refine .cons trivial rfl ?_
    refine .cons trivial rfl ?_
    refine .cons ⟨⟨_, rfl⟩, _, _, rfl⟩ rfl ?_
    refine .cons ⟨⟨_, rfl⟩, _, _, rfl⟩ rfl ?_
    refine .cons ⟨_, _, rfl⟩ rfl ?_
    refine .cons ⟨_, _, rfl⟩ rfl ?_
    exact .cons ⟨_, _, rfl⟩ rfl trivial
  have hexact := run_invariant_of (fun _ _ _ _ ↦ Right.exact) (hclaim failedLookup hallowed) rfl exact_init
  have howned := (hexact.alive 1).mp ⟨1, rfl⟩
  exact absurd howned (by decide)

end Stela.Ownership
