import Stela.CodeGen.ArrayCounts
import Stela.CodeGen.CallReleases

/-!
# The data of a running closure

A run keeps the data of all running calls alive just when none of its steps releases the last owner of such
data, or of the storage that the step itself works on.
-/

namespace Stela.CodeGen.Calls

open Stela.Library.Regions Stela.Library.RefCount Stela.Library.Machine
open Stela.CodeGen.Pointer Stela.CodeGen.Array
open Stela.CodeGen.Closure (Clo)

variable {s s' : State} {e : Event}

/-- The data of each running call has an owner that the event does not release. -/
def KeepsRunning (s : State) (e : Event) : Prop :=
  ∀ a, some a ∈ s.calls → Backed s.heap (e.released s.heap) (e.pinned s.heap) a

/-- The data of every running call is there, and its captures can be read. -/
def Safe (s : State) : Prop :=
  ∀ a, some a ∈ s.calls → IsBlock s.heap a ∧ ∀ i < size s.heap a, ∃ v, load s.heap ⟨a, i⟩ = .ok v

/-- The invariant of a run. What is passed to a call is the data of a lambda. -/
structure StateInv (s : State) : Prop where
  inv : Inv s.heap
  filled : Filled s.heap
  data : ∀ a, some a ∈ s.calls → IsBlock s.heap a → Block s.heap a .closure

/-- The captures in data that is there can be read. -/
theorem safe_iff (h : StateInv s) : Safe s ↔ ∀ a, some a ∈ s.calls → IsBlock s.heap a := by
  refine ⟨fun hsafe a ha ↦ (hsafe a ha).1, fun hblock a ha ↦ ⟨hblock a ha, fun i hi ↦ ?_⟩⟩
  obtain ⟨r, hr, htype, hcount⟩ := h.data a ha (hblock a ha)
  rw [size_eq hr] at hi
  have hslot : slot? s.heap ⟨a, i⟩ = some r.slots[i] := slot?_eq_some.mpr ⟨r, hr, List.getElem?_eq_getElem hi⟩
  obtain ⟨v, hv⟩ := Option.isSome_iff_exists.mp (h.filled ⟨a, i⟩ _ r hslot hr htype hcount)
  exact ⟨v, load_eq_ok hslot hv⟩

theorem step_eq_some : step s e = some s' ↔ effect e s.heap = .ok s'.heap ∧ running s e = s'.calls := by
  rw [step]
  cases effect e s.heap with
  | error f => exact iff_of_false nofun fun h ↦ nomatch h.1
  | ok m' =>
    simp only [Except.toOption, Option.map_some, Option.some.injEq, Except.ok.injEq]
    constructor
    · rintro rfl
      exact ⟨rfl, rfl⟩
    · rintro ⟨rfl, hcalls⟩
      rw [hcalls]

/-- A call that is running after an event was running before, or is the one that begins. -/
theorem mem_running {a : ℕ} (ha : some a ∈ running s e) :
    some a ∈ s.calls ∨ ∃ func, e = .callFuncPtr func ∧ pointer s.heap func = some a := by
  cases e with
  | callFuncPtr func =>
    rw [running] at ha
    split at ha
    · next v hv =>
      obtain heq | hmem := List.mem_cons.mp ha
      · obtain ⟨t, ht, htv⟩ := load_ok hv
        refine .inr ⟨func, rfl, ?_⟩
        rw [pointer, ht, Option.bind_some, htv]
        exact heq.symm
      · exact .inl hmem
    · exact .inl ha
  | ret => exact .inl (List.mem_of_mem_tail ha)
  | _ => exact .inl ha

/-- A call goes on running, unless it returns. -/
theorem mem_calls {a : ℕ} (ha : some a ∈ s.calls) : some a ∈ running s e ∨ e = .ret := by
  cases e with
  | callFuncPtr func =>
    rw [running]
    split
    · exact .inl (List.mem_cons_of_mem _ ha)
    · exact .inl ha
  | ret => exact .inr rfl
  | _ => exact .inl ha

/-- The data of a call that begins. -/
theorem block_called (h : Inv s.heap) {func : Loc} {a : ℕ} (hfunc : Live s.heap func .closure)
    (ha : pointer s.heap func = some a) : Block s.heap a .closure := by
  obtain ⟨v, hv⟩ := hfunc
  rw [pointer, hv] at ha
  obtain ⟨r, hr, htype⟩ := h.typed.target func _ a hv ha
  obtain ⟨n, hn⟩ := h.intact.isBlock_of_slot hv ha
  obtain ⟨r', hr', hcount⟩ := count?_eq_some.mp hn
  cases hr.symm.trans hr'
  exact ⟨r, hr, htype, by rw [hcount]; rfl⟩

theorem step_inv (h : StateInv s) (hsafe : Safe s) (he : Allowed s e) (hstep : step s e = some s') : StateInv s' := by
  obtain ⟨hm', hcalls⟩ := step_eq_some.mp hstep
  have hafter := (effect_spec h.inv h.filled he).2 _ hm'
  refine ⟨hafter.inv, hafter.filled, fun a ha hblock ↦ ?_⟩
  rw [← hcalls] at ha
  obtain hmem | ⟨func, rfl, hpointer⟩ := mem_running ha
  · exact hafter.types a .closure (h.data a hmem (hsafe a hmem).1) hblock
  · exact hafter.types a .closure (block_called h.inv he hpointer) hblock

/-- In a safe state, an event succeeds and leads to a safe state just when its operands and the data of the
running calls outlive what it releases. -/
theorem step_safe (h : StateInv s) (hsafe : Safe s) (he : Allowed s e) :
    (∃ s', step s e = some s' ∧ Safe s') ↔ Outlives s.heap e ∧ KeepsRunning s e := by
  obtain ⟨hok, hafter⟩ := effect_spec h.inv h.filled he
  constructor
  · rintro ⟨s', hstep, hsafe'⟩
    obtain ⟨hm', hcalls⟩ := step_eq_some.mp hstep
    refine ⟨hok.mp ⟨s'.heap, hm'⟩, fun a ha ↦ ?_⟩
    obtain hmem | rfl := mem_calls (e := e) ha
    · exact ((hafter _ hm').frees a (hsafe a ha).1).mp (hsafe' a (hcalls ▸ hmem)).1
    · exact backed_of_exact h.inv.intact (fun _ _ _ ↦ id) _ a
  · rintro ⟨hout, hkeeps⟩
    obtain ⟨m', hm'⟩ := hok.mpr hout
    have hstep : step s e = some ⟨m', running s e⟩ := step_eq_some.mpr ⟨hm', rfl⟩
    refine ⟨_, hstep, (safe_iff (step_inv h hsafe he hstep)).mpr fun a ha ↦ ?_⟩
    have hframe := (hafter m' hm').frees
    obtain hmem | ⟨func, rfl, hpointer⟩ := mem_running ha
    · exact (hframe a (hsafe a hmem).1).mpr (hkeeps a hmem)
    · exact (hframe a (block_called h.inv he hpointer).isBlock).mpr (backed_of_exact h.inv.intact (fun _ _ _ ↦ id) _ a)

theorem stateInv_start : StateInv start := ⟨inv_nil, fun _ _ _ hs ↦ (by cases hs), nofun⟩

/-- A lambda is called, and its body copies the closure and destroys the copy. -/
def copyInCall : List Event :=
  [.op (.declare (.func [] none)), .op (.lambda ⟨0, 0⟩ (.lambda 0) []), .callFuncPtr ⟨0, 0⟩,
    .op (.declare (.func [] none)), .op (.copyConstruct ⟨2, 0⟩ ⟨0, 0⟩), .op (.destroy ⟨2, 0⟩), .ret]

/-- A closure variable is assigned during a call of the lambda in it. -/
def assignInCall : List Event :=
  [.op (.declare (.func [] none)), .op (.declare (.func [] none)), .op (.lambda ⟨0, 0⟩ (.lambda 0) []),
    .callFuncPtr ⟨0, 0⟩, .op (.lambda ⟨1, 0⟩ (.lambda 1) []), .op (.moveAssign ⟨0, 0⟩ ⟨1, 0⟩)]

end Stela.CodeGen.Calls
