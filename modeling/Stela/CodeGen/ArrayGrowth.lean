import Stela.CodeGen.ArrayLengths
import Stela.Library.Except
import Stela.Library.Growable
import Stela.Library.Potential

/-!
# What growing arrays costs

`ceil_to_pow_2` makes an array grow to a power of two, so that the elements that are moved when it does have been paid
for. Over any run of calls, no more than three elements are written for each one that is added. A reallocation that is
asked for is not paid by the elements, and is granted two for each element that there was room for.
-/

namespace Stela.CodeGen.ArrayGrowth

open ArrayLengths Stela.Library Poison Machine Potential Growable Except

/-- How many elements the call moves, copies or constructs. -/
def written (elem : Elem) (array : Storage) (call : Call) : ℕ :=
  (exec elem array call).toOption.elim 0 fun result ↦ (result.2.map Write.count).sum

/-- What is granted to the call. -/
def grant (array : Storage) (call : Call) : ℕ :=
  match call.op with
  | .reserve cap => if array.cap.toNat < cap.toNat then 2 * array.cap.toNat else 0
  | op => 3 * (op.newLen array - array.len.toNat)

/-- Two writes for each element, less those that have been spent on the capacity. -/
def potential (array : Storage) : ℕ := 2 * array.len.toNat - spent array.cap.toNat

/-! ## The elements that a call writes -/

section

variable {elem : Elem} {malloc : Bool} {array array' : Storage} {writes : List Write}

theorem writeElems_count {atOnce : Bool} {start len : BitVec 32} {block : ℕ} {w : Write}
    (h : writeElems elem atOnce start len block = .ok w) : w.count = len.toNat := by
  unfold writeElems at h
  split at h
  · obtain ⟨_, -, rfl⟩ := map_eq_ok.mp h
    rfl
  · obtain ⟨_, -, rfl⟩ := map_eq_ok.mp h
    rfl

theorem reallocate_count {cap : BitVec 32} (h : reallocate elem malloc array cap = .ok (array', writes)) :
    (writes.map Write.count).sum = array.len.toNat := by
  obtain ⟨_, -, h⟩ := bind_eq_ok.mp h
  obtain ⟨moved, hmoved, h⟩ := bind_eq_ok.mp h
  cases h
  rw [List.map_singleton, List.sum_singleton]
  exact writeElems_count hmoved

theorem grow_count {needed : Bool} {ceiled : Option (BitVec 32)}
    (h : grow elem malloc array needed ceiled = .ok (array', writes)) :
    (writes.map Write.count).sum = if needed then array.len.toNat else 0 := by
  cases needed with
  | false =>
    cases h
    rfl
  | true =>
    obtain ⟨_, -, h⟩ := bind_eq_ok.mp h
    exact reallocate_count h

/-- Growing and then writing so many elements. -/
theorem grow_then_count {needed : Bool} {ceiled : Option (BitVec 32)} {n : ℕ} {w : Write}
    (hneeded : needed = true ↔ array.cap.toNat < n)
    (hgrow : grow elem malloc array needed ceiled = .ok (array', writes)) (hw : w.count = n - array.len.toNat) :
    ((writes ++ [w]).map Write.count).sum =
      (if array.cap.toNat < roomFor array.cap.toNat n then array.len.toNat else 0) + (n - array.len.toNat) := by
  rw [List.map_append, List.sum_append, grow_count hgrow, List.map_singleton, List.sum_singleton, hw]
  simp only [hneeded, lt_roomFor_iff]

/-- Nothing is written where the length does not grow. -/
theorem shrink_count {n : ℕ} (hle : array.len.toNat ≤ array.cap.toNat) (hn : n ≤ array.len.toNat) :
    0 = (if array.cap.toNat < roomFor array.cap.toNat n then array.len.toNat else 0) + (n - array.len.toNat) := by
  have hroom : ¬array.cap.toNat < n := Nat.not_lt.mpr (hn.trans hle)
  simp only [lt_roomFor_iff]
  rw [if_neg hroom, Nat.sub_eq_zero_of_le hn]

/-- The elements are moved if the capacity changes, and those that are added are written. -/
theorem exec_count {call : Call} (hle : array.len.toNat ≤ array.cap.toNat)
    (hlen : array'.len.toNat = call.op.newLen array) (h : exec elem array call = .ok (array', writes)) :
    (writes.map Write.count).sum = (if array.cap.toNat < call.op.newCap array then array.len.toNat else 0) +
      (call.op.newLen array - array.len.toNat) := by
  obtain ⟨op, malloc⟩ := call
  cases op with
  | pushBack =>
    obtain ⟨⟨grown, moved⟩, hgrow, h⟩ := bind_eq_ok.mp h
    obtain ⟨len, -, h⟩ := bind_eq_ok.mp h
    cases h
    have hneeded : (array.len == array.cap) = true ↔ array.cap.toNat < array.len.toNat + 1 := by
      rw [beq_iff_eq, ← BitVec.toNat_inj]
      omega
    exact grow_then_count hneeded hgrow (Nat.add_sub_cancel_left _ 1).symm
  | append otherLen =>
    obtain ⟨totalLen, -, h⟩ := bind_eq_ok.mp h
    obtain ⟨⟨grown, moved⟩, hgrow, h⟩ := bind_eq_ok.mp h
    obtain ⟨copied, hcopied, h⟩ := bind_eq_ok.mp h
    cases h
    have hneeded := ult_iff array.cap totalLen
    rw [show totalLen.toNat = array.len.toNat + otherLen.toNat from hlen] at hneeded
    exact grow_then_count hneeded hgrow ((writeElems_count hcopied).trans (Nat.add_sub_cancel_left _ _).symm)
  | popBack =>
    change (if array.len ≠ 0 then _ else _) = _ at h
    split_ifs at h
    obtain ⟨len, -, h⟩ := bind_eq_ok.mp h
    cases h
    exact shrink_count hle (Nat.sub_le _ 1)
  | resize newLen =>
    change (if newLen.ule array.len then _ else _) = _ at h
    split_ifs at h with hshrink
    · obtain ⟨_, -, h⟩ := bind_eq_ok.mp h
      cases h
      exact shrink_count hle (of_decide_eq_true hshrink)
    · obtain ⟨⟨grown, moved⟩, hgrow, h⟩ := bind_eq_ok.mp h
      obtain ⟨count, hcount, h⟩ := bind_eq_ok.mp h
      obtain ⟨constructed, hconstructed, h⟩ := bind_eq_ok.mp h
      cases h
      have hgrows : array.len.toNat ≤ newLen.toNat := Nat.le_of_not_le fun h ↦ hshrink (decide_eq_true h)
      have hnat : count.toNat = newLen.toNat - array.len.toNat := by
        obtain ⟨-, rfl⟩ := nswSub_eq_some.mp (use_eq_ok.mp hcount)
        exact BitVec.toNat_sub_of_le hgrows
      exact grow_then_count (ult_iff _ _) hgrow ((writeElems_count hconstructed).trans hnat)
  | reserve cap =>
    change (if array.cap.ult cap then _ else _) = _ at h
    have hgrows : array.cap.toNat < max array.cap.toNat cap.toNat ↔ array.cap.toNat < cap.toNat := by
      rw [lt_max_iff, or_iff_right (Nat.lt_irrefl _)]
    simp only [Op.newCap, Op.newLen, hgrows, Nat.sub_self, Nat.add_zero]
    split_ifs at h with hneeded
    · rw [reallocate_count h, if_pos ((ult_iff _ _).mp hneeded)]
    · cases h
      exact (if_neg fun h ↦ hneeded ((ult_iff _ _).mpr h)).symm

end

/-! ## What pays for them -/

section

variable {elem : Elem} {array array' : Storage} {writes : List Write} {call : Call}

theorem potential_le (array : Storage) : potential array ≤ 2 * array.len.toNat := Nat.sub_le _ _

/-- A call pays for what it writes beyond its grant. -/
theorem call_pays (hsized : WellSized elem array) (hexec : exec elem array call = .ok (array', writes))
    (hexact : Exact elem array call.op array' writes) :
    (writes.map Write.count).sum + potential array' ≤ potential array + grant array call := by
  rw [exec_count hsized.len_le hexact.len hexec, potential, hexact.len, hexact.cap]
  obtain ⟨op, malloc⟩ := call
  cases op with
  | pushBack | append | popBack | resize => exact growth_pays hsized.len_le
  | reserve cap =>
    rw [Op.newLen, Nat.sub_self, Nat.add_zero]
    exact reserve_pays hsized.len_le

theorem written_of_ok (h : exec elem array call = .ok (array', writes)) :
    written elem array call = (writes.map Write.count).sum := by
  rw [written, h]
  rfl

theorem written_of_refused (h : step elem array call = none) : written elem array call = 0 := by
  unfold step at h
  unfold written
  cases hexec : exec elem array call with
  | error stop => rfl
  | ok result =>
    rw [hexec] at h
    cases h

end

/-! ## Runs of calls -/

/-- In every run of calls that fit, three writes for each added element, two for each there is at first and two for
each there was room for when more room was asked for are enough. -/
theorem written_le {elem : Elem} {start : Storage} {calls : List Call} (hstart : WellSized elem start)
    (hmeets : RunMeets (step elem) (Fits elem) start calls) :
    total (step elem) (written elem) start calls ≤ 2 * start.len.toNat + total (step elem) grant start calls := by
  have hpays : ∀ array call array', WellSized elem array → Fits elem array call → step elem array call = some array' →
      written elem array call + potential array' ≤ potential array + grant array call := by
    intro array call array' hsized hfits hstep
    rcases (proceeds_iff hsized call).mpr hfits with hpanic | ⟨result, writes, hexec, hexact⟩
    · rw [step, hpanic] at hstep
      cases hstep
    · rw [step, hexec] at hstep
      cases hstep
      rw [written_of_ok hexec]
      exact call_pays hsized hexec hexact
  have hrefuses : ∀ array call, WellSized elem array → Fits elem array call → step elem array call = none →
      written elem array call ≤ potential array + grant array call := by
    intro array call _ _ hstep
    rw [written_of_refused hstep]
    exact Nat.zero_le _
  calc total (step elem) (written elem) start calls
    _ ≤ potential start + total (step elem) grant start calls :=
        total_le potential (fun _ _ _ ↦ step_wellSized) hpays hrefuses hmeets hstart
    _ ≤ 2 * start.len.toNat + total (step elem) grant start calls := Nat.add_le_add_right (potential_le start) _

/-- The second element that is added to an empty array of integers moves the first one. -/
theorem written_le_pushBack :
    total (step ⟨4, .trivially_copyable⟩) (written ⟨4, .trivially_copyable⟩) arrDefCtor
        [⟨.pushBack, true⟩, ⟨.pushBack, true⟩] ≤
      2 * arrDefCtor.len.toNat +
        total (step ⟨4, .trivially_copyable⟩) grant arrDefCtor [⟨.pushBack, true⟩, ⟨.pushBack, true⟩] := by
  have hblock {n k : ℕ} (hn : n ≤ 2 ^ k) (hk : 2 ^ k * 4 < 2 ^ 64) : leastPow2 n * 4 < 2 ^ 64 :=
    (Nat.mul_le_mul_right 4 (leastPow2_le hn)).trans_lt hk
  have hfirst : Fits ⟨4, .trivially_copyable⟩ arrDefCtor ⟨.pushBack, true⟩ :=
    ⟨⟨by decide, fun _ _ ↦ by decide⟩,
      fun _ ↦ ⟨by decide, fun _ ↦ ⟨@hblock (0 + 1) 0 (by decide) (by decide), .inl (by decide)⟩⟩⟩
  have hsecond : Fits ⟨4, .trivially_copyable⟩ ⟨1, 1, 4⟩ ⟨.pushBack, true⟩ :=
    ⟨⟨by decide, fun _ _ ↦ by decide⟩,
      fun _ ↦ ⟨by decide, fun _ ↦ ⟨@hblock (1 + 1) 1 (by decide) (by decide), .inl (by decide)⟩⟩⟩
  have hstep : step ⟨4, .trivially_copyable⟩ arrDefCtor ⟨.pushBack, true⟩ = some ⟨1, 1, 4⟩ := by decide +kernel
  have hsized : WellSized ⟨4, .trivially_copyable⟩ arrDefCtor := Constructed.wellSized (.inl rfl)
  exact written_le hsized (RunMeets.cons hfirst hstep ⟨hsecond, fun _ _ ↦ trivial⟩)

end Stela.CodeGen.ArrayGrowth
