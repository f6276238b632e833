import Stela.Ownership.Release

/-!
# Faults

Which faults the functions of retain_ptr can have. Only `incr` refuses to count further. No function runs out of fuel,
since every nested release finds one object less in use; so each fault stands for one of the program.
-/

namespace Stela.Ownership

open Stela.Library.Regions Stela.Library.RefCount
open Stela.Library.Except

variable {Class : Type} {H : Hierarchy Class} {m m' : Heap Class} {pending : List (Option ℕ)}
variable {l this other : Loc} {p : Option ℕ} {e : Fault}

/-! ## Accesses -/

/-- The faults of an access. -/
def Fault.ofAccess : Fault → Bool
  | .freed | .uninit => true
  | .zero | .overflow | .fuel => false

theorem get_ne_error (he : e.ofAccess = false) : get l m ≠ .error e := by
  unfold get
  split
  · rintro ⟨⟩
    cases he
  · split
    · nofun
    · rintro ⟨⟩
      cases he

theorem assign_ne_error (he : e.ofAccess = false) : assign l p m ≠ .error e := by
  apply bind_ne_error (get_ne_error he)
  nofun

theorem construct_ne_error (he : e.ofAccess = false) : construct l p m ≠ .error e := by
  unfold construct
  split
  · rintro ⟨⟩
    cases he
  · split_ifs
    · nofun
    · rintro ⟨⟩
      cases he

theorem loadCount_ne_error {a : ℕ} (he : e.ofAccess = false) : loadCount a m ≠ .error e := by
  unfold loadCount
  split
  · rintro ⟨⟩
    cases he
  · rename_i r _
    cases r.count with
    | none =>
      rintro ⟨⟩
      cases he
    | some n => nofun

/-! ## Releasing -/

/-- What a release keeps, it keeps for all the members of an object. -/
theorem destroyMembers_ne_error {dec : Loc → Heap Class → Except Fault (Heap Class)} {P : Heap Class → Prop}
    (hdec : ∀ k m, P m → dec k m ≠ .error e) (hok : ∀ k m m', P m → dec k m = .ok m' → P m')
    (hwrite : ∀ m k, P m → P (write m k none)) {a : ℕ} :
    ∀ {is : List ℕ} {m : Heap Class}, P m → destroyMembers dec a is m ≠ .error e
  | [], _, _ => nofun
  | i :: is, m, h => by
    rw [destroyMembers]
    split_ifs
    · apply bind_ne_error (hdec _ _ h)
      intro m₁ hm₁
      apply destroyMembers_ne_error hdec hok hwrite
      exact hwrite _ _ (hok _ _ _ h hm₁)
    · exact destroyMembers_ne_error hdec hok hwrite h

theorem decr_ne_overflow (fuel : ℕ) : ∀ k (m : Heap Class), decr H fuel k m ≠ .error .overflow := by
  induction fuel with
  | zero =>
    intro k m h
    cases h
  | succ fuel ih =>
    intro k m
    rw [decr]
    apply bind_ne_error (get_ne_error rfl)
    rintro (_ | a) -
    · intro h
      cases h
    apply bind_ne_error (loadCount_ne_error rfl)
    rintro n -
    split_ifs
    · intro h
      cases h
    · apply bind_ne_error
      · exact destroyMembers_ne_error (fun k m _ ↦ ih k m) (fun _ _ _ _ _ ↦ trivial) (fun _ _ _ ↦ trivial) trivial
      · intro m' _ h
        cases h
    · intro h
      cases h

theorem release_fails (h : Settled m pending) (hholds : Holds m l p) (hl : Dies m l pending l.region) :
    ∃ e, release H l m = .error e ∧ e ≠ .overflow := by
  cases hresult : release H l m with
  | ok m' => exact absurd hresult (release_not_outlived h hholds hl)
  | error e =>
    refine ⟨e, rfl, ?_⟩
    rintro rfl
    exact decr_ne_overflow _ l m hresult

/-! ## Fuel -/

theorem destroyMembers_held {dec : Loc → Heap Class → Except Fault (Heap Class)}
    (hdec : ∀ k m m', dec k m = .ok m' → held m' ≤ held m) {a : ℕ} :
    ∀ {is : List ℕ} {m m' : Heap Class}, destroyMembers dec a is m = .ok m' → held m' ≤ held m
  | [], m, m', h => by
    cases h
    exact le_rfl
  | i :: is, m, m', h => by
    rw [destroyMembers] at h
    split_ifs at h
    · obtain ⟨m₁, hok, h⟩ := bind_eq_ok.mp h
      calc
        held m' ≤ held (write m₁ ⟨a, i⟩ none) := destroyMembers_held hdec h
        _ = held m₁ := held_write _ _ _
        _ ≤ held m := hdec _ _ _ hok
    · exact destroyMembers_held hdec h

/-- A release leaves no more objects in use. -/
theorem decr_held (fuel : ℕ) : ∀ k (m m' : Heap Class), decr H fuel k m = .ok m' → held m' ≤ held m := by
  induction fuel with
  | zero =>
    intro k m m' h
    cases h
  | succ fuel ih =>
    intro k m m' h
    obtain ⟨-, rfl⟩ | ⟨a, n, -, hn, hzero, ⟨hone, rfl⟩ | ⟨rfl, m₁, hok, rfl⟩⟩ := decr_eq_ok.mp h
    · exact le_rfl
    · have hset := held_setCount (n := n - 1) hn
      split_ifs at hset <;> omega
    · have hset := held_setCount (n := 0) hn
      simp only [le_refl, if_true, Int.reduceLE, if_false] at hset
      calc
        held (free m₁ a) ≤ held m₁ := held_free_le m₁ a
        _ ≤ held (setCount m a 0) := destroyMembers_held ih hok
        _ ≤ held m := by omega

/-- The object that a release destroys is not in use by the nested ones. -/
theorem decr_ne_fuel (fuel : ℕ) : ∀ k (m : Heap Class), held m < fuel → decr H fuel k m ≠ .error .fuel := by
  induction fuel with
  | zero =>
    intro k m h
    exact absurd h (Nat.not_lt_zero _)
  | succ fuel ih =>
    intro k m h
    rw [decr]
    apply bind_ne_error (get_ne_error rfl)
    rintro (_ | a) -
    · intro h
      cases h
    apply bind_ne_error (loadCount_ne_error rfl)
    intro n hn
    split_ifs with hzero hlast
    · intro h
      cases h
    · obtain rfl : n = 1 := by omega
      have hset := held_setCount (n := 0) (loadCount_eq_ok.mp hn)
      simp only [le_refl, if_true, Int.reduceLE, if_false] at hset
      have hless : held (setCount m a 0) < fuel := by omega
      apply bind_ne_error
      · apply destroyMembers_ne_error (P := fun m ↦ held m < fuel) ih _ _ hless
        · intro k m m' hheld hok
          exact Nat.lt_of_le_of_lt (decr_held fuel k m m' hok) hheld
        · intro m k hheld
          rwa [held_write]
      · intro m' _ h
        cases h
    · intro h
      cases h

theorem release_ne_fuel : release H l m ≠ .error .fuel :=
  decr_ne_fuel _ l m (Nat.lt_succ_of_le (held_le_length m))

theorem incr_ne_fuel : incr l m ≠ .error .fuel := by
  apply bind_ne_error (get_ne_error rfl)
  rintro (_ | a) -
  · nofun
  apply bind_ne_error (loadCount_ne_error rfl)
  rintro n -
  split_ifs <;> nofun

/-! ## The functions of the class -/

theorem retainCtor_ne_fuel : retainCtor this p m ≠ .error .fuel :=
  bind_ne_error (construct_ne_error rfl) fun _ _ ↦ incr_ne_fuel

theorem dtor_ne_fuel : dtor H this m ≠ .error .fuel :=
  bind_ne_error release_ne_fuel nofun

theorem detach_ne_fuel : detach this m ≠ .error .fuel :=
  bind_ne_error (get_ne_error rfl) fun _ _ ↦ bind_ne_error (assign_ne_error rfl) nofun

theorem reset_ne_fuel : reset H this p m ≠ .error .fuel :=
  bind_ne_error release_ne_fuel fun _ _ ↦ assign_ne_error rfl

theorem resetRetain_ne_fuel : resetRetain H this p m ≠ .error .fuel :=
  bind_ne_error release_ne_fuel fun _ _ ↦ bind_ne_error (assign_ne_error rfl) fun _ _ ↦ incr_ne_fuel

theorem copyCtor_ne_fuel : copyCtor this other m ≠ .error .fuel :=
  bind_ne_error (get_ne_error rfl) fun _ _ ↦ retainCtor_ne_fuel

theorem moveCtor_ne_fuel : moveCtor this other m ≠ .error .fuel :=
  bind_ne_error detach_ne_fuel fun _ _ ↦ construct_ne_error rfl

theorem copyAsgn_ne_fuel : copyAsgn H this other m ≠ .error .fuel :=
  bind_ne_error (get_ne_error rfl) fun _ _ ↦ bind_ne_error reset_ne_fuel fun _ _ ↦ incr_ne_fuel

theorem moveAsgn_ne_fuel : moveAsgn H this other m ≠ .error .fuel :=
  bind_ne_error detach_ne_fuel fun _ _ ↦ reset_ne_fuel

theorem swap_ne_fuel : swap this other m ≠ .error .fuel :=
  bind_ne_error (get_ne_error rfl) fun _ _ ↦ bind_ne_error (get_ne_error rfl) fun _ _ ↦
    bind_ne_error (assign_ne_error rfl) fun _ _ ↦ assign_ne_error rfl

theorem dynamicCast_ne_fuel {derived : Class} : dynamicCast H derived p m ≠ .error .fuel := by
  unfold dynamicCast
  split
  · nofun
  · split <;> nofun

theorem dynamicPointerCast_ne_fuel {derived : Class} : dynamicPointerCast H derived this other m ≠ .error .fuel :=
  bind_ne_error (get_ne_error rfl) fun _ _ ↦ bind_ne_error dynamicCast_ne_fuel fun _ _ ↦ retainCtor_ne_fuel

theorem dynamicPointerCastMove_ne_fuel {derived : Class} :
    dynamicPointerCastMove H derived this other m ≠ .error .fuel :=
  bind_ne_error detach_ne_fuel fun _ _ ↦ bind_ne_error dynamicCast_ne_fuel fun _ _ ↦ construct_ne_error rfl

variable {s : State Class}

theorem run_ne_fuel {f : Heap Class → Except Fault (Heap Class)} (hf : f s.heap ≠ .error .fuel) :
    s.run f ≠ .error .fuel :=
  bind_ne_error hf nofun

theorem adopt_ne_fuel {raw : ℕ} {f : Option ℕ → Heap Class → Except Fault (Heap Class)}
    (hf : ∀ p, f p s.heap ≠ .error .fuel) : s.adopt raw f ≠ .error .fuel := by
  unfold State.adopt
  split
  · nofun
  · exact bind_ne_error (hf _) nofun

/-- No operation runs out of fuel, from any state. -/
theorem exec_ne_fuel (op : Op Class) : exec H s op ≠ .error .fuel := by
  cases op with
  | declare | place | make => nofun
  | defCtor => exact run_ne_fuel (construct_ne_error rfl)
  | adoptCtor => exact adopt_ne_fuel fun _ ↦ construct_ne_error rfl
  | retainCtor => exact run_ne_fuel retainCtor_ne_fuel
  | copyCtor => exact run_ne_fuel copyCtor_ne_fuel
  | moveCtor => exact run_ne_fuel moveCtor_ne_fuel
  | dtor => exact run_ne_fuel dtor_ne_fuel
  | resetNull => exact run_ne_fuel reset_ne_fuel
  | reset => exact adopt_ne_fuel fun _ ↦ reset_ne_fuel
  | resetRetain => exact run_ne_fuel resetRetain_ne_fuel
  | detach => exact bind_ne_error detach_ne_fuel nofun
  | copyAsgn => exact run_ne_fuel copyAsgn_ne_fuel
  | moveAsgn => exact run_ne_fuel moveAsgn_ne_fuel
  | swap => exact run_ne_fuel swap_ne_fuel
  | staticPointerCast => exact run_ne_fuel copyCtor_ne_fuel
  | staticPointerCastMove => exact run_ne_fuel moveCtor_ne_fuel
  | dynamicPointerCast => exact run_ne_fuel dynamicPointerCast_ne_fuel
  | dynamicPointerCastMove => exact run_ne_fuel dynamicPointerCastMove_ne_fuel

end Stela.Ownership
