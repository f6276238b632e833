import Stela.CodeGen.ArraySpecs
import Stela.Library.Machine

/-!
# The counts of storage blocks

In every run of operations on arrays and closures, the count of a block is the number of live objects
that point to it, the block is there exactly as long as there are any, and every operation does what
it should, just when no step releases the last owner of the block that one of its operands is stored in.
-/

namespace Stela.CodeGen.Array

open Stela.Library.Regions Stela.Library.RefCount Stela.Library.Machine
open Stela.CodeGen.Pointer Stela.CodeGen.Closure

variable {m m' : Heap}

/-- A run is exact if it does not touch freed memory, the counts are right in all its states, and each of
its operations does what it should. -/
structure Exact (ops : List Op) : Prop where
  proceeds : ∃ m, run step [] ops = some m
  counts : Always step CountsExact [] ops
  performed : RunMeets step (fun m op ↦ ∀ m', step m op = some m' → Performed m m' op) [] ops

theorem step_eq_some {op : Op} : step m op = some m' ↔ exec op m = .ok m' := by
  rw [step]
  cases exec op m with
  | error e => exact iff_of_false nofun nofun
  | ok m'' => simp [Except.toOption]

theorem inv_nil : Inv [] := by
  refine ⟨⟨?_, ?_, ?_⟩, ?_, ?_⟩
  all_goals simp [count?, region?, refs, slot?]

/-- A run on arrays and closures is exact just when no operation releases the last owner of the block
that one of its operands is stored in. -/
theorem array_counts_exact {ops : List Op} (hmeets : RunMeets step Allowed [] ops) :
    Exact ops ↔ RunMeets step Outlives [] ops := by
  have hinv (m : Heap) (op : Op) (m' : Heap) (h : Inv m) (hop : Allowed m op) (hstep : step m op = some m') : Inv m' := by
    obtain ⟨m₀, written, freed, hspec⟩ := exec_spec h hop
    exact hspec.inv (step_eq_some.mp hstep)
  have hproceeds : ((∃ m, run step [] ops = some m) ∧ Always step CountsExact [] ops) ↔ RunMeets step Outlives [] ops := by
    refine sound_iff Inv (fun m op h _ hop ↦ ?_) (fun m op m' h _ ↦ hinv m op m' h) hmeets inv_nil inv_nil.intact.exact
    obtain ⟨m₀, written, freed, hspec⟩ := exec_spec h hop
    rw [← hspec.executes.ok_iff]
    refine exists_congr fun m' ↦ ?_
    rw [step_eq_some]
    exact and_iff_left_of_imp fun hm' ↦ (hspec.inv hm').intact.exact
  have hperformed : RunMeets step (fun m op ↦ ∀ m', step m op = some m' → Performed m m' op) [] ops := by
    refine runMeets_of_invariant Inv (fun m op h hop m' hm' ↦ ?_) hinv hmeets inv_nil
    obtain ⟨m₀, written, freed, hspec⟩ := exec_spec h hop
    exact hspec.performed (step_eq_some.mp hm')
  rw [← hproceeds]
  exact ⟨fun h ↦ ⟨h.proceeds, h.counts⟩, fun h ↦ ⟨h.1, h.2, hperformed⟩⟩

/-- Every object is constructed, in every region. -/
theorem constructed_of_all (h : (m.all fun r ↦ r.elim true fun r ↦ r.slots.all fun s ↦ s.obj.isSome) = true) (obj : Loc) :
    Constructed m obj := by
  intro b _ r hr s hs
  rw [List.all_eq_true] at h
  have hall := h _ (List.mem_of_getElem? (getElem?_of_region? hr))
  exact List.all_eq_true.mp hall s hs

/-- An array of two arrays, of which the second is assigned to the first. -/
def sharedElement : List Op :=
  [.declare (.array (.array (.btn .sint))), .lenConstruct ⟨0, 0⟩ 2, .defConstruct ⟨1, 0⟩, .defConstruct ⟨1, 1⟩,
    .copyAssign ⟨1, 0⟩ ⟨1, 1⟩, .destroy ⟨0, 0⟩]

theorem array_counts_exact_sharedElement : Exact sharedElement := by
  have hmeets : RunMeets step Allowed [] sharedElement := by
    refine .cons trivial rfl (.cons ⟨_, rfl⟩ rfl (.cons ⟨_, rfl⟩ rfl (.cons ⟨_, rfl⟩ rfl ?_)))
    refine .cons ⟨_, ⟨_, rfl⟩, ⟨_, rfl⟩, constructed_of_all rfl _⟩ rfl ?_
    exact .cons ⟨_, ⟨_, rfl⟩, constructed_of_all rfl _⟩ rfl trivial
  rw [array_counts_exact hmeets]
  refine .cons trivial rfl (.cons trivial rfl (.cons trivial rfl (.cons trivial rfl ?_)))
  refine .cons (fun s hs hplain ↦ ?_) rfl (.cons (fun s hs hplain ↦ ?_) rfl trivial)
  · cases hs
    cases hplain
  · cases hs
    cases hplain

/-- `var g: [func()] = [];`, then `var a: [func()] = [func() {}];` in a function, with the assignments
`a[0] = func() { let e: [func()] = []; g = e; a = e; };`, `g = a;` and `a = [];`, and the call `g[0]()`. -/
def ownedByItself : List Op :=
  [.declare (.array (.func [] none)), .defConstruct ⟨0, 0⟩,
    .declare (.array (.func [] none)), .lenConstruct ⟨2, 0⟩ 1, .lambda ⟨3, 0⟩ (.lambda 0) [],
    .declare (.func [] none), .lambda ⟨5, 0⟩ (.lambda 1) [(⟨2, 0⟩, .array [.closure])], .moveAssign ⟨3, 0⟩ ⟨5, 0⟩,
    .copyAssign ⟨0, 0⟩ ⟨2, 0⟩,
    .declare (.array (.func [] none)), .defConstruct ⟨7, 0⟩, .moveAssign ⟨2, 0⟩ ⟨7, 0⟩,
    .declare (.array (.func [] none)), .defConstruct ⟨9, 0⟩, .copyAssign ⟨0, 0⟩ ⟨9, 0⟩,
    .copyAssign ⟨6, 0⟩ ⟨9, 0⟩]

/-- The last assignment frees the data that its destination is in. -/
theorem array_counts_ownedByItself : ¬∀ ops, RunMeets step Allowed [] ops → Exact ops := by
  intro hclaim
  have hmeets : RunMeets step Allowed [] ownedByItself := by
    refine .cons trivial rfl (.cons ⟨_, rfl⟩ rfl (.cons trivial rfl (.cons ⟨_, rfl⟩ rfl (.cons ⟨rfl, nofun⟩ rfl ?_))))
    refine .cons trivial rfl (.cons ⟨rfl, fun cap hcap ↦ ?_⟩ rfl ?_)
    · cases List.mem_singleton.mp hcap
      exact ⟨_, rfl⟩
    refine .cons ⟨by decide, _, ⟨_, rfl⟩, ⟨_, rfl⟩, constructed_of_all rfl _⟩ rfl ?_
    refine .cons ⟨_, ⟨_, rfl⟩, ⟨_, rfl⟩, constructed_of_all rfl _⟩ rfl (.cons trivial rfl (.cons ⟨_, rfl⟩ rfl ?_))
    refine .cons ⟨by decide, _, ⟨_, rfl⟩, ⟨_, rfl⟩, constructed_of_all rfl _⟩ rfl ?_
    refine .cons trivial rfl (.cons ⟨_, rfl⟩ rfl ?_)
    refine .cons ⟨_, ⟨_, rfl⟩, ⟨_, rfl⟩, constructed_of_all rfl _⟩ rfl ?_
    exact ⟨⟨_, ⟨_, rfl⟩, ⟨_, rfl⟩, constructed_of_all rfl _⟩, fun s' hs' ↦ by cases hs'⟩
  obtain ⟨m, hm⟩ := (hclaim ownedByItself hmeets).proceeds
  cases hm

end Stela.CodeGen.Array
