import Stela.Flow.Traces
import Stela.Semantic.ReturnReading

/-!
# What the missing-return check accepts

The converse of soundness. The check objects to a statement that reads as left on every path although another one
follows it, and to a last case that reads as if it continued; `faults` lists these in the order in which the visitor
comes to them. It is right about the first of them unless that statement slips, or no path of the last case continues.
A body whose paths all return also has to read as left on every path: `unread` says where the reading misses that.
-/

namespace Stela.Semantic.ReturnCompleteness

open Stela.Syntax Stela.Flow Stela.Semantic.CheckMissingReturn Stela.Semantic.ReturnReading
open Stela.Library.Except

variable {ε : Type}

/-! ## The statements that paths reach -/

mutual

/-- The statement at the position and all statements inside it. -/
def positions : Stat ε → Position → List Position
  | .block nodes, pos => pos :: positionsNodes nodes pos 0
  | .fi _ body none, pos => pos :: positions body (0 :: pos)
  | .fi _ body (some elseBody), pos => pos :: (positions body (0 :: pos) ++ positions elseBody (1 :: pos))
  | .swich _ cases _, pos => pos :: positionsCases cases pos 0
  | .wile _ body, pos => pos :: positions body (0 :: pos)
  | .four _ _ _ body, pos => pos :: positions body (2 :: pos)
  | .terminate, pos | .brake, pos | .continu, pos | .ret _, pos | .decl _, pos | .asgn _, pos => [pos]

def positionsNodes : List (Stat ε) → Position → ℕ → List Position
  | [], _, _ => []
  | node :: nodes, pos, i => positions node (i :: pos) ++ positionsNodes nodes pos (i + 1)

def positionsCases : List (SwitchCase ε) → Position → ℕ → List Position
  | [], _, _ => []
  | .mk _ body :: cases, pos, i => positions body (i :: pos) ++ positionsCases cases pos (i + 1)

end

mutual

/-- The statements that some path through the statement at the position reaches. Every branch can be taken and every
case entered, and every loop runs its body. -/
def reaches : Stat ε → Position → List Position
  | .block nodes, pos => pos :: reachesNodes nodes pos 0
  | .fi _ body none, pos => pos :: reaches body (0 :: pos)
  | .fi _ body (some elseBody), pos => pos :: (reaches body (0 :: pos) ++ reaches elseBody (1 :: pos))
  | .swich _ cases _, pos => pos :: reachesCases cases pos 0
  | .wile _ body, pos => pos :: reaches body (0 :: pos)
  | .four _ _ _ body, pos => pos :: reaches body (2 :: pos)
  | .terminate, pos | .brake, pos | .continu, pos | .ret _, pos | .decl _, pos | .asgn _, pos => [pos]

def reachesNodes : List (Stat ε) → Position → ℕ → List Position
  | [], _, _ => []
  | node :: nodes, pos, i =>
      reaches node (i :: pos) ++ if may node .falls then reachesNodes nodes pos (i + 1) else []

def reachesCases : List (SwitchCase ε) → Position → ℕ → List Position
  | [], _, _ => []
  | .mk _ body :: cases, pos, i => reaches body (i :: pos) ++ reachesCases cases pos (i + 1)

end

/-- Every statement is reachable, every path returns unless the function is void, and no `continue` belongs to the last
case of a switch. -/
structure Proper (body : List (Stat ε)) (ret : Ty) : Prop where
  reached : positionsNodes body [] 0 ⊆ reachesNodes body [] 0
  returns : ret.isVoid = false → ∀ o, ExecNodes body o → o = .returns
  stays : ∀ expr cases mark, .swich expr cases mark ∈ subNodes body →
    ∀ c ∈ cases.getLast?, ¬Exec c.body .continues

mutual

/-- The position of the statement that is reported as unreachable code: `nextStat` of `visit(ast::Block &)`. -/
def reported : Stat ε → State → Position → Option Position
  | .block nodes, state, pos => reportedNodes nodes { state := { state with occurs := .no } } pos 0
  | .fi _ body none, state, pos => reported body state (0 :: pos)
  | .fi _ body (some elseBody), state, pos =>
      match visit body state with
      | .ok (_, troo) => reported elseBody troo (1 :: pos)
      | .error _ => reported body state (0 :: pos)
  | .swich _ cases _, state, pos => reportedCases cases state pos 0
  | .wile _ body, state, pos => reported body state (0 :: pos)
  | .four _ _ _ body, state, pos => reported body state (2 :: pos)
  | .terminate, _, _ | .brake, _, _ | .continu, _, _ | .ret _, _, _ | .decl _, _, _ | .asgn _, _, _ => none

def reportedNodes : List (Stat ε) → Scan → Position → ℕ → Option Position
  | [], _, _, _ => none
  | node :: nodes, scan, pos, i =>
      match visit node scan.state with
      | .ok (_, state) =>
          if state.occurs = .yes ∧ nodes ≠ [] then some ((i + 1) :: pos) else reportedNodes nodes (scan.add state) pos (i + 1)
      | .error _ => reported node scan.state (i :: pos)

def reportedCases : List (SwitchCase ε) → State → Position → ℕ → Option Position
  | [], _, _, _ => none
  | .mk _ body :: cases, state, pos, i =>
      match visit body state with
      | .ok (_, state) => reportedCases cases state pos (i + 1)
      | .error _ => reported body state (i :: pos)

end

/-! ## What the check objects to -/

/-- What the check objects to: the statement at the position, because the one before it reads as left on every path,
or a last case that reads as if it continued. `slipped` says that paths get to the statement all the same, because the
one before it slips. -/
inductive Fault where
  | unreachable (pos : Position) (slipped : Bool)
  | lastContinues
  deriving DecidableEq, Repr

def Fault.error : Fault → FlowError
  | unreachable _ _ => .unreachableCode
  | lastContinues => .caseMayContinue

mutual

/-- The faults of the statement at the position, in source order. `live` says that some path gets to the statement. -/
def faults : Stat ε → State → Position → (live : Bool) → List Fault
  | .block nodes, state, pos, live => faultsNodes nodes { state with occurs := .no } pos 0 live
  | .fi _ body none, state, pos, live => faults body state (0 :: pos) live
  | .fi _ body (some elseBody), state, pos, live =>
      faults body state (0 :: pos) live ++ faults elseBody (reads body state) (1 :: pos) live
  | .swich _ cases _, state, pos, live => faultsCases cases state pos 0 live
  | .wile _ body, state, pos, live => faults body state (0 :: pos) live
  | .four _ _ _ body, state, pos, live => faults body state (2 :: pos) live
  | .terminate, _, _, _ | .brake, _, _, _ | .continu, _, _, _ | .ret _, _, _, _ | .decl _, _, _, _
  | .asgn _, _, _, _ => []

def faultsNodes : List (Stat ε) → State → Position → ℕ → (live : Bool) → List Fault
  | [], _, _, _, _ => []
  | node :: nodes, state, pos, i, live =>
      faults node state (i :: pos) live ++
        ((if (reads node state).occurs = .yes ∧ nodes ≠ [] then [.unreachable ((i + 1) :: pos) (live && slips node)]
            else []) ++
          faultsNodes nodes (reads node state) pos (i + 1) (live && may node .falls))

def faultsCases : List (SwitchCase ε) → State → Position → ℕ → (live : Bool) → List Fault
  | [], _, _, _, _ => []
  | .mk _ body :: cases, state, pos, i, live =>
      faults body state (i :: pos) live ++
        ((if (reads body state).term = .continues ∧ (reads body state).occurs ≠ .no ∧ cases = [] then [.lastContinues]
            else []) ++
          faultsCases cases (reads body state) pos (i + 1) live)

end

theorem of_ite_nil {c : Prop} [Decidable c] {fault : Fault} (h : (if c then [fault] else []) = []) : ¬c := by
  intro hc
  rw [if_pos hc] at h
  cases h

mutual

/-- Without a fault, the visitor does not stop. -/
theorem visit_ok : (s : Stat ε) → {state : State} → {pos : Position} → {live : Bool} → faults s state pos live = [] →
    ∃ r, visit s state = .ok r
  | .block nodes, state, pos, live, h => by
    obtain ⟨r, hr⟩ := visitNodes_ok nodes { state := { state with occurs := .no } } h
    exact ⟨_, bind_eq_ok.mpr ⟨r, hr, rfl⟩⟩
  | .fi cond body none, state, pos, live, h => by
    obtain ⟨r, hr⟩ := visit_ok body h
    exact ⟨_, bind_eq_ok.mpr ⟨r, hr, rfl⟩⟩
  | .fi cond body (some elseBody), state, pos, live, h => by
    obtain ⟨hbody, helse⟩ := List.append_eq_nil_iff.mp h
    obtain ⟨⟨body', troo⟩, hvisit⟩ := visit_ok body hbody
    obtain rfl : troo = _ := visit_reads body hvisit
    obtain ⟨r, hr⟩ := visit_ok elseBody helse
    exact ⟨_, bind_eq_ok.mpr ⟨_, hvisit, bind_eq_ok.mpr ⟨r, hr, rfl⟩⟩⟩
  | .swich expr cases mark, state, pos, live, h => by
    obtain ⟨r, hr⟩ := visitCases_ok cases { totalCases := cases.length } h
    exact ⟨_, bind_eq_ok.mpr ⟨r, hr, rfl⟩⟩
  | .wile cond body, state, pos, live, h | .four init cond incr body, state, pos, live, h => by
    obtain ⟨r, hr⟩ := visit_ok body h
    exact ⟨_, bind_eq_ok.mpr ⟨r, hr, rfl⟩⟩
  | .terminate, _, _, _, _ | .brake, _, _, _, _ | .continu, _, _, _, _ | .ret _, _, _, _, _ | .decl _, _, _, _, _
  | .asgn _, _, _, _, _ => ⟨_, rfl⟩

theorem visitNodes_ok : (nodes : List (Stat ε)) → (scan : Scan) → {pos : Position} → {i : ℕ} → {live : Bool} →
    faultsNodes nodes scan.state pos i live = [] → ∃ r, visitNodes nodes scan = .ok r
  | [], _, _, _, _, _ => ⟨_, rfl⟩
  | node :: nodes, scan, pos, i, live, h => by
    obtain ⟨hnode, h⟩ := List.append_eq_nil_iff.mp h
    obtain ⟨hreach, hnodes⟩ := List.append_eq_nil_iff.mp h
    obtain ⟨⟨node', state⟩, hvisit⟩ := visit_ok node hnode
    obtain rfl : state = _ := visit_reads node hvisit
    obtain ⟨r, hr⟩ := visitNodes_ok nodes (scan.add (reads node scan.state)) hnodes
    have hreach' := of_ite_nil hreach
    exact ⟨_, bind_eq_ok.mpr ⟨_, hvisit, ite_error_eq_ok.mpr ⟨hreach', bind_eq_ok.mpr ⟨r, hr, rfl⟩⟩⟩⟩

theorem visitCases_ok : (cases : List (SwitchCase ε)) → {state : State} → (tally : Tally) → {pos : Position} → {i : ℕ} →
    {live : Bool} → faultsCases cases state pos i live = [] → ∃ r, visitCases cases state tally = .ok r
  | [], _, _, _, _, _, _ => ⟨_, rfl⟩
  | .mk expr body :: cases, state, tally, pos, i, live, h => by
    obtain ⟨hbody, h⟩ := List.append_eq_nil_iff.mp h
    obtain ⟨hlast, hcases⟩ := List.append_eq_nil_iff.mp h
    obtain ⟨⟨body', state'⟩, hvisit⟩ := visit_ok body hbody
    obtain rfl : state' = _ := visit_reads body hvisit
    obtain ⟨r, hr⟩ := visitCases_ok cases (tally.add expr.isNone (reads body state)) hcases
    have hlast' := of_ite_nil hlast
    exact ⟨_, bind_eq_ok.mpr ⟨_, hvisit, ite_error_eq_ok.mpr ⟨hlast', bind_eq_ok.mpr ⟨r, hr, rfl⟩⟩⟩⟩

end

/-- The visitor stops at the fault, and reports the statement of the fault if it says that one is unreachable. -/
structure Stops {α : Type} (fault : Fault) (visited : Except FlowError α) (reported : Option Position) : Prop where
  error : visited = .error fault.error
  reported : ∀ p slipped, fault = .unreachable p slipped → reported = some p

/-- The first fault of two parts. -/
theorem first_append {first rest faults : List Fault} {fault : Fault} (h : first ++ rest = fault :: faults) :
    (∃ faults, first = fault :: faults) ∨ (first = [] ∧ rest = fault :: faults) := by
  rcases List.append_eq_cons_iff.mp h with h | ⟨faults, h, -⟩
  · exact .inr h
  · exact .inl ⟨faults, h⟩

mutual

/-- The visitor stops at the first fault. -/
theorem visit_stops : (s : Stat ε) → {state : State} → {pos : Position} → {live : Bool} → {fault : Fault} →
    {rest : List Fault} → faults s state pos live = fault :: rest → Stops fault (visit s state) (reported s state pos)
  | .block nodes, state, pos, live, fault, rest, h => by
    have hstops := visitNodes_stops nodes { state := { state with occurs := .no } } h
    exact ⟨bind_eq_error.mpr (.inl hstops.error), hstops.reported⟩
  | .fi cond body none, state, pos, live, fault, rest, h => by
    have hstops := visit_stops body h
    exact ⟨bind_eq_error.mpr (.inl hstops.error), hstops.reported⟩
  | .fi cond body (some elseBody), state, pos, live, fault, rest, h => by
    rw [reported]
    rcases first_append h with ⟨rest, hbody⟩ | ⟨hbody, helse⟩
    · have hstops := visit_stops body hbody
      rw [hstops.error]
      exact ⟨bind_eq_error.mpr (.inl hstops.error), hstops.reported⟩
    · obtain ⟨⟨body', troo⟩, hvisit⟩ := visit_ok body hbody
      obtain rfl : troo = _ := visit_reads body hvisit
      have hstops := visit_stops elseBody helse
      rw [hvisit]
      exact ⟨bind_eq_error.mpr (.inr ⟨_, hvisit, bind_eq_error.mpr (.inl hstops.error)⟩), hstops.reported⟩
  | .swich expr cases mark, state, pos, live, fault, rest, h => by
    have hstops := visitCases_stops cases { totalCases := cases.length } h
    exact ⟨bind_eq_error.mpr (.inl hstops.error), hstops.reported⟩
  | .wile cond body, state, pos, live, fault, rest, h
  | .four init cond incr body, state, pos, live, fault, rest, h => by
    have hstops := visit_stops body h
    exact ⟨bind_eq_error.mpr (.inl hstops.error), hstops.reported⟩
  | .terminate, _, _, _, _, _, h | .brake, _, _, _, _, _, h | .continu, _, _, _, _, _, h | .ret _, _, _, _, _, _, h
  | .decl _, _, _, _, _, _, h | .asgn _, _, _, _, _, _, h => nomatch h

theorem visitNodes_stops : (nodes : List (Stat ε)) → (scan : Scan) → {pos : Position} → {i : ℕ} → {live : Bool} →
    {fault : Fault} → {rest : List Fault} → faultsNodes nodes scan.state pos i live = fault :: rest →
      Stops fault (visitNodes nodes scan) (reportedNodes nodes scan pos i)
  | [], _, _, _, _, _, _, h => nomatch h
  | node :: nodes, scan, pos, i, live, fault, rest, h => by
    rw [reportedNodes]
    rcases first_append h with ⟨rest, hnode⟩ | ⟨hnode, h⟩
    · have hstops := visit_stops node hnode
      rw [hstops.error]
      exact ⟨bind_eq_error.mpr (.inl hstops.error), hstops.reported⟩
    · obtain ⟨⟨node', state⟩, hvisit⟩ := visit_ok node hnode
      obtain rfl : state = _ := visit_reads node hvisit
      rw [hvisit]
      by_cases hreach : (reads node scan.state).occurs = .yes ∧ nodes ≠ []
      · rw [if_pos hreach] at h
        cases h
        refine ⟨bind_eq_error.mpr (.inr ⟨_, hvisit, if_pos hreach⟩), fun p slipped heq ↦ ?_⟩
        cases heq
        exact if_pos hreach
      · rw [if_neg hreach] at h
        have hstops := visitNodes_stops nodes (scan.add (reads node scan.state)) h
        refine ⟨bind_eq_error.mpr (.inr ⟨_, hvisit, (if_neg hreach).trans (bind_eq_error.mpr (.inl hstops.error))⟩), ?_⟩
        simpa only [if_neg hreach] using hstops.reported

theorem visitCases_stops : (cases : List (SwitchCase ε)) → {state : State} → (tally : Tally) → {pos : Position} →
    {i : ℕ} → {live : Bool} → {fault : Fault} → {rest : List Fault} →
      faultsCases cases state pos i live = fault :: rest →
        Stops fault (visitCases cases state tally) (reportedCases cases state pos i)
  | [], _, _, _, _, _, _, _, h => nomatch h
  | .mk expr body :: cases, state, tally, pos, i, live, fault, rest, h => by
    rw [reportedCases]
    rcases first_append h with ⟨rest, hbody⟩ | ⟨hbody, h⟩
    · have hstops := visit_stops body hbody
      rw [hstops.error]
      exact ⟨bind_eq_error.mpr (.inl hstops.error), hstops.reported⟩
    · obtain ⟨⟨body', state'⟩, hvisit⟩ := visit_ok body hbody
      obtain rfl : state' = _ := visit_reads body hvisit
      rw [hvisit]
      by_cases hlast : (reads body state).term = .continues ∧ (reads body state).occurs ≠ .no ∧ cases = []
      · rw [if_pos hlast] at h
        cases h
        exact ⟨bind_eq_error.mpr (.inr ⟨_, hvisit, if_pos hlast⟩), nofun⟩
      · rw [if_neg hlast] at h
        have hstops := visitCases_stops cases (tally.add expr.isNone (reads body state)) h
        exact ⟨bind_eq_error.mpr (.inr ⟨_, hvisit, (if_neg hlast).trans (bind_eq_error.mpr (.inl hstops.error))⟩),
          hstops.reported⟩

end

/-! ## Positions -/

mutual

/-- Every statement is reached: one statement of a block after the other. -/
def reached : Stat ε → Bool
  | .block nodes => reachedNodes nodes
  | .fi _ body none => reached body
  | .fi _ body (some elseBody) => reached body && reached elseBody
  | .swich _ cases _ => reachedCases cases
  | .wile _ body | .four _ _ _ body => reached body
  | .terminate | .brake | .continu | .ret _ | .decl _ | .asgn _ => true

def reachedNodes : List (Stat ε) → Bool
  | [] => true
  | node :: nodes => reached node && (nodes.isEmpty || may node .falls) && reachedNodes nodes

def reachedCases : List (SwitchCase ε) → Bool
  | [] => true
  | .mk _ body :: cases => reached body && reachedCases cases

end

section Positions

theorem suffix_unique {i k : ℕ} {pos p : Position} (hi : i :: pos <:+ p) (hk : k :: pos <:+ p) : i = k := by
  have heq : i :: pos = k :: pos := (List.suffix_of_suffix_length_le hi hk (Nat.le_refl _)).eq_of_length rfl
  exact (List.cons.inj heq).1

theorem ne_of_inner {k : ℕ} {pos p : Position} (h : k :: pos <:+ p) : p ≠ pos := by
  rintro rfl
  exact absurd h.length_le (Nat.not_succ_le_self _)

theorem self_mem_positions (s : Stat ε) (pos : Position) : pos ∈ positions s pos := by
  cases s with
  | fi cond body elseBody => cases elseBody <;> exact List.mem_cons_self
  | _ => exact List.mem_cons_self

mutual

theorem suffix_of_mem : (s : Stat ε) → {pos p : Position} → p ∈ positions s pos → p = pos ∨ ∃ k, k :: pos <:+ p
  | .block nodes, pos, p, h =>
    (List.mem_cons.mp h).imp_right fun h ↦ (suffix_of_memNodes nodes h).imp fun _ ↦ And.right
  | .fi _ body none, pos, p, h => (List.mem_cons.mp h).imp_right fun h ↦ ⟨0, suffix_of_mem_inner body h⟩
  | .fi _ body (some elseBody), pos, p, h =>
    (List.mem_cons.mp h).imp_right fun h ↦ (List.mem_append.mp h).elim
      (fun h ↦ ⟨0, suffix_of_mem_inner body h⟩) fun h ↦ ⟨1, suffix_of_mem_inner elseBody h⟩
  | .swich _ cases _, pos, p, h =>
    (List.mem_cons.mp h).imp_right fun h ↦ (suffix_of_memCases cases h).imp fun _ ↦ And.right
  | .wile _ body, pos, p, h => (List.mem_cons.mp h).imp_right fun h ↦ ⟨0, suffix_of_mem_inner body h⟩
  | .four _ _ _ body, pos, p, h => (List.mem_cons.mp h).imp_right fun h ↦ ⟨2, suffix_of_mem_inner body h⟩
  | .terminate, _, _, h | .brake, _, _, h | .continu, _, _, h | .ret _, _, _, h | .decl _, _, _, h | .asgn _, _, _, h =>
    .inl (List.mem_singleton.mp h)

theorem suffix_of_mem_inner : (s : Stat ε) → {k : ℕ} → {pos p : Position} → p ∈ positions s (k :: pos) → k :: pos <:+ p
  | s, k, pos, p, h => by
    rcases suffix_of_mem s h with rfl | ⟨j, h⟩
    · exact List.suffix_refl _
    · exact (List.suffix_cons j _).trans h

theorem suffix_of_memNodes : (nodes : List (Stat ε)) → {pos p : Position} → {i : ℕ} → p ∈ positionsNodes nodes pos i →
    ∃ k, i ≤ k ∧ k :: pos <:+ p
  | [], _, _, _, h => nomatch h
  | node :: nodes, pos, p, i, h => by
    rcases List.mem_append.mp h with h | h
    · exact ⟨i, Nat.le_refl i, suffix_of_mem_inner node h⟩
    · obtain ⟨k, hk, h⟩ := suffix_of_memNodes nodes h
      exact ⟨k, Nat.le_of_succ_le hk, h⟩

theorem suffix_of_memCases : (cases : List (SwitchCase ε)) → {pos p : Position} → {i : ℕ} →
    p ∈ positionsCases cases pos i → ∃ k, i ≤ k ∧ k :: pos <:+ p
  | [], _, _, _, h => nomatch h
  | .mk _ body :: cases, pos, p, i, h => by
    rcases List.mem_append.mp h with h | h
    · exact ⟨i, Nat.le_refl i, suffix_of_mem_inner body h⟩
    · obtain ⟨k, hk, h⟩ := suffix_of_memCases cases h
      exact ⟨k, Nat.le_of_succ_le hk, h⟩

end

mutual

theorem reaches_subset : (s : Stat ε) → (pos : Position) → reaches s pos ⊆ positions s pos
  | .block nodes, pos => List.cons_subset_cons pos (reachesNodes_subset nodes pos 0)
  | .fi _ body none, pos => List.cons_subset_cons pos (reaches_subset body (0 :: pos))
  | .fi _ body (some elseBody), pos => by
    have h := List.append_subset.mpr
      ⟨List.subset_append_of_subset_left (positions elseBody (1 :: pos)) (reaches_subset body (0 :: pos)),
        List.subset_append_of_subset_right (positions body (0 :: pos)) (reaches_subset elseBody (1 :: pos))⟩
    exact List.cons_subset_cons pos h
  | .swich _ cases _, pos => List.cons_subset_cons pos (reachesCases_subset cases pos 0)
  | .wile _ body, pos => List.cons_subset_cons pos (reaches_subset body (0 :: pos))
  | .four _ _ _ body, pos => List.cons_subset_cons pos (reaches_subset body (2 :: pos))
  | .terminate, _ | .brake, _ | .continu, _ | .ret _, _ | .decl _, _ | .asgn _, _ => fun _ h ↦ h

theorem reachesNodes_subset : (nodes : List (Stat ε)) → (pos : Position) → (i : ℕ) →
    reachesNodes nodes pos i ⊆ positionsNodes nodes pos i
  | [], _, _ => fun _ h ↦ h
  | node :: nodes, pos, i => by
    intro p hp
    rcases List.mem_append.mp hp with hp | hp
    · exact List.mem_append_left _ (reaches_subset node _ hp)
    · split_ifs at hp
      · exact List.mem_append_right _ (reachesNodes_subset nodes pos (i + 1) hp)
      · cases hp

theorem reachesCases_subset : (cases : List (SwitchCase ε)) → (pos : Position) → (i : ℕ) →
    reachesCases cases pos i ⊆ positionsCases cases pos i
  | [], _, _ => fun _ h ↦ h
  | .mk _ body :: cases, pos, i => by
    intro p hp
    rcases List.mem_append.mp hp with hp | hp
    · exact List.mem_append_left _ (reaches_subset body _ hp)
    · exact List.mem_append_right _ (reachesCases_subset cases pos (i + 1) hp)

end

/-- The statements of two parts lie apart. -/
theorem subset_of_append {i : ℕ} {pos : Position} {first first' rest rest' : List Position}
    (h : first ++ rest ⊆ first' ++ rest') (hfirst : ∀ p ∈ first, i :: pos <:+ p) (hfirst' : ∀ p ∈ first', i :: pos <:+ p)
    (hrest : ∀ p ∈ rest, ∃ k, i < k ∧ k :: pos <:+ p) (hrest' : ∀ p ∈ rest', ∃ k, i < k ∧ k :: pos <:+ p) :
    first ⊆ first' ∧ rest ⊆ rest' := by
  constructor
  · intro p hp
    rcases List.mem_append.mp (h (List.mem_append_left _ hp)) with h | h
    · exact h
    · obtain ⟨k, hk, hsuffix⟩ := hrest' p h
      exact absurd (suffix_unique (hfirst p hp) hsuffix) (Nat.ne_of_lt hk)
  · intro p hp
    rcases List.mem_append.mp (h (List.mem_append_right _ hp)) with h | h
    · obtain ⟨k, hk, hsuffix⟩ := hrest p hp
      exact absurd (suffix_unique (hfirst' p h) hsuffix) (Nat.ne_of_lt hk)
    · exact h

theorem subset_of_cons {pos : Position} {inner inner' : List Position} (h : pos :: inner ⊆ pos :: inner')
    (hinner : ∀ p ∈ inner, ∃ k, k :: pos <:+ p) : inner ⊆ inner' := by
  intro p hp
  obtain ⟨k, hsuffix⟩ := hinner p hp
  exact (List.mem_cons.mp (h (List.mem_cons_of_mem _ hp))).resolve_left (ne_of_inner hsuffix)

mutual

/-- If paths reach every statement, then they fall through each statement of a block but the last one. -/
theorem reached_of_subset : (s : Stat ε) → (pos : Position) → positions s pos ⊆ reaches s pos → reached s = true
  | .block nodes, pos, h =>
    reachedNodes_of_subset nodes pos 0 (subset_of_cons h fun _ hp ↦ (suffix_of_memNodes nodes hp).imp fun _ ↦ And.right)
  | .fi _ body none, pos, h =>
    reached_of_subset body (0 :: pos) (subset_of_cons h fun _ hp ↦ ⟨0, suffix_of_mem_inner body hp⟩)
  | .fi _ body (some elseBody), pos, h => by
    have hinner : ∀ p ∈ positions body (0 :: pos) ++ positions elseBody (1 :: pos), ∃ k, k :: pos <:+ p := by
      intro p hp
      exact (List.mem_append.mp hp).elim (fun h ↦ ⟨0, suffix_of_mem_inner body h⟩) fun h ↦
        ⟨1, suffix_of_mem_inner elseBody h⟩
    obtain ⟨hbody, helse⟩ := subset_of_append (subset_of_cons h hinner) (fun _ hp ↦ suffix_of_mem_inner body hp)
      (fun _ hp ↦ suffix_of_mem_inner body (reaches_subset body _ hp))
      (fun _ hp ↦ ⟨1, Nat.one_pos, suffix_of_mem_inner elseBody hp⟩)
      (fun _ hp ↦ ⟨1, Nat.one_pos, suffix_of_mem_inner elseBody (reaches_subset elseBody _ hp)⟩)
    exact Bool.and_eq_true_iff.mpr ⟨reached_of_subset body _ hbody, reached_of_subset elseBody _ helse⟩
  | .swich _ cases _, pos, h =>
    reachedCases_of_subset cases pos 0 (subset_of_cons h fun _ hp ↦ (suffix_of_memCases cases hp).imp fun _ ↦ And.right)
  | .wile _ body, pos, h =>
    reached_of_subset body (0 :: pos) (subset_of_cons h fun _ hp ↦ ⟨0, suffix_of_mem_inner body hp⟩)
  | .four _ _ _ body, pos, h =>
    reached_of_subset body (2 :: pos) (subset_of_cons h fun _ hp ↦ ⟨2, suffix_of_mem_inner body hp⟩)
  | .terminate, _, _ | .brake, _, _ | .continu, _, _ | .ret _, _, _ | .decl _, _, _ | .asgn _, _, _ => rfl

theorem reachedNodes_of_subset : (nodes : List (Stat ε)) → (pos : Position) → (i : ℕ) →
    positionsNodes nodes pos i ⊆ reachesNodes nodes pos i → reachedNodes nodes = true
  | [], _, _, _ => rfl
  | node :: nodes, pos, i, h => by
    obtain ⟨hnode, hnodes⟩ := subset_of_append h (fun _ hp ↦ suffix_of_mem_inner node hp)
      (fun _ hp ↦ suffix_of_mem_inner node (reaches_subset node _ hp)) (fun _ hp ↦ suffix_of_memNodes nodes hp)
      (fun _ hp ↦ suffix_of_memNodes nodes (by
        split_ifs at hp
        · exact reachesNodes_subset nodes pos (i + 1) hp
        · cases hp))
    rw [reachedNodes, reached_of_subset node _ hnode, Bool.true_and, Bool.and_eq_true, Bool.or_eq_true]
    by_cases hfalls : may node .falls = true
    · rw [if_pos hfalls] at hnodes
      exact ⟨.inr hfalls, reachedNodes_of_subset nodes pos (i + 1) hnodes⟩
    · rw [if_neg hfalls] at hnodes
      cases nodes with
      | nil => exact ⟨.inl rfl, rfl⟩
      | cons node' nodes => cases hnodes (List.mem_append_left _ (self_mem_positions node' _))

theorem reachedCases_of_subset : (cases : List (SwitchCase ε)) → (pos : Position) → (i : ℕ) →
    positionsCases cases pos i ⊆ reachesCases cases pos i → reachedCases cases = true
  | [], _, _, _ => rfl
  | .mk _ body :: cases, pos, i, h => by
    obtain ⟨hbody, hcases⟩ := subset_of_append h (fun _ hp ↦ suffix_of_mem_inner body hp)
      (fun _ hp ↦ suffix_of_mem_inner body (reaches_subset body _ hp)) (fun _ hp ↦ suffix_of_memCases cases hp)
      (fun _ hp ↦ suffix_of_memCases cases (reachesCases_subset cases pos (i + 1) hp))
    exact Bool.and_eq_true_iff.mpr ⟨reached_of_subset body _ hbody, reachedCases_of_subset cases pos (i + 1) hcases⟩

end

end Positions

/-! ## Reported statements -/

/-- The statement at the position lies inside, and no path reaches it. -/
structure Dead (p : Position) (all reached : List Position) : Prop where
  inside : p ∈ all
  unreached : p ∉ reached

/-- The statement at the position lies inside, and the fault says whether paths get to it. -/
structure Found (p : Position) (slipped live : Bool) (all reached : List Position) : Prop where
  inside : p ∈ all
  slipped_iff : slipped = true ↔ live = true ∧ p ∈ reached

section Found

variable {i : ℕ} {pos p : Position} {slipped live : Bool} {all all' reached reached' : List Position}

theorem Found.cons (h : Found p slipped live all reached) (hne : p ≠ pos) :
    Found p slipped live (pos :: all) (pos :: reached) :=
  ⟨List.mem_cons_of_mem _ h.inside, by rw [h.slipped_iff, List.mem_cons, or_iff_right hne]⟩

theorem Found.left (h : Found p slipped live all reached) (h' : p ∉ reached') :
    Found p slipped live (all ++ all') (reached ++ reached') :=
  ⟨List.mem_append_left _ h.inside, by rw [h.slipped_iff, List.mem_append, or_iff_left h']⟩

theorem Found.right (h : Found p slipped live all' reached') (h' : p ∉ reached) :
    Found p slipped live (all ++ all') (reached ++ reached') :=
  ⟨List.mem_append_right _ h.inside, by rw [h.slipped_iff, List.mem_append, or_iff_right h']⟩

theorem Found.suffix {s : Stat ε} (h : Found p slipped live (positions s (i :: pos)) reached) : i :: pos <:+ p :=
  suffix_of_mem_inner s h.inside

theorem not_mem_reaches {s : Stat ε} {k : ℕ} (hne : i ≠ k) (h : k :: pos <:+ p) : p ∉ reaches s (i :: pos) :=
  fun hmem ↦ hne (suffix_unique (suffix_of_mem_inner s (reaches_subset s _ hmem)) h)

theorem not_mem_reachesNodes {nodes : List (Stat ε)} {k : ℕ} (hlt : k < i) (h : k :: pos <:+ p) :
    p ∉ reachesNodes nodes pos i := by
  intro hmem
  obtain ⟨j, hj, hsuffix⟩ := suffix_of_memNodes nodes (reachesNodes_subset nodes pos i hmem)
  exact absurd (suffix_unique h hsuffix) (by omega)

theorem not_mem_reachesCases {cases : List (SwitchCase ε)} {k : ℕ} (hlt : k < i) (h : k :: pos <:+ p) :
    p ∉ reachesCases cases pos i := by
  intro hmem
  obtain ⟨j, hj, hsuffix⟩ := suffix_of_memCases cases (reachesCases_subset cases pos i hmem)
  exact absurd (suffix_unique h hsuffix) (by omega)

end Found

theorem self_mem_reaches (s : Stat ε) (pos : Position) : pos ∈ reaches s pos := by
  cases s with
  | fi cond body elseBody => cases elseBody <;> exact List.mem_cons_self
  | _ => exact List.mem_cons_self

mutual

/-- A fault names a statement inside, and says rightly whether paths get there. -/
theorem faults_found : (s : Stat ε) → {state : State} → {pos : Position} → {live : Bool} → {p : Position} →
    {slipped : Bool} → .unreachable p slipped ∈ faults s state pos live →
      Found p slipped live (positions s pos) (reaches s pos)
  | .block nodes, state, pos, live, p, slipped, h => by
    have hfound := faultsNodes_found nodes h
    obtain ⟨k, -, hsuffix⟩ := suffix_of_memNodes nodes hfound.inside
    exact hfound.cons (ne_of_inner hsuffix)
  | .fi cond body none, state, pos, live, p, slipped, h => by
    have hfound := faults_found body h
    exact hfound.cons (ne_of_inner hfound.suffix)
  | .fi cond body (some elseBody), state, pos, live, p, slipped, h => by
    rcases List.mem_append.mp h with h | h
    · have hfound := faults_found body h
      exact (hfound.left (not_mem_reaches Nat.one_ne_zero hfound.suffix)).cons (ne_of_inner hfound.suffix)
    · have hfound := faults_found elseBody h
      exact (hfound.right (not_mem_reaches Nat.zero_ne_one hfound.suffix)).cons (ne_of_inner hfound.suffix)
  | .swich expr cases mark, state, pos, live, p, slipped, h => by
    have hfound := faultsCases_found cases h
    obtain ⟨k, -, hsuffix⟩ := suffix_of_memCases cases hfound.inside
    exact hfound.cons (ne_of_inner hsuffix)
  | .wile cond body, state, pos, live, p, slipped, h | .four init cond incr body, state, pos, live, p, slipped, h => by
    have hfound := faults_found body h
    exact hfound.cons (ne_of_inner hfound.suffix)
  | .terminate, _, _, _, _, _, h | .brake, _, _, _, _, _, h | .continu, _, _, _, _, _, h | .ret _, _, _, _, _, _, h
  | .decl _, _, _, _, _, _, h | .asgn _, _, _, _, _, _, h => nomatch h

theorem faultsNodes_found : (nodes : List (Stat ε)) → {state : State} → {pos : Position} → {i : ℕ} → {live : Bool} →
    {p : Position} → {slipped : Bool} → .unreachable p slipped ∈ faultsNodes nodes state pos i live →
      Found p slipped live (positionsNodes nodes pos i) (reachesNodes nodes pos i)
  | [], _, _, _, _, _, _, h => nomatch h
  | node :: nodes, state, pos, i, live, p, slipped, h => by
    rcases List.mem_append.mp h with h | h
    · have hfound := faults_found node h
      apply hfound.left
      split_ifs
      · exact not_mem_reachesNodes (Nat.lt_succ_self i) hfound.suffix
      · exact nofun
    · have hrest : Found p slipped (live && may node .falls) (positionsNodes nodes pos (i + 1))
          (reachesNodes nodes pos (i + 1)) := by
        rcases List.mem_append.mp h with h | h
        · -- the statement behind one that reads as left on every path
          by_cases hreach : (reads node state).occurs = .yes ∧ nodes ≠ []
          · rw [if_pos hreach, List.mem_singleton] at h
            cases h
            obtain ⟨next, nodes, rfl⟩ := List.exists_cons_of_ne_nil hreach.2
            rw [falls_eq_slips node hreach.1]
            exact ⟨List.mem_append_left _ (self_mem_positions next _),
              (and_iff_left (List.mem_append_left _ (self_mem_reaches next _))).symm⟩
          · rw [if_neg hreach] at h
            cases h
        · exact faultsNodes_found nodes h
      obtain ⟨k, hk, hsuffix⟩ := suffix_of_memNodes nodes hrest.inside
      have hfound : Found p slipped live (positionsNodes nodes pos (i + 1))
          (if may node .falls then reachesNodes nodes pos (i + 1) else []) := by
        refine ⟨hrest.inside, ?_⟩
        rw [hrest.slipped_iff, Bool.and_eq_true]
        cases may node .falls <;> simp
      exact hfound.right (not_mem_reaches (Nat.ne_of_lt hk) hsuffix)

theorem faultsCases_found : (cases : List (SwitchCase ε)) → {state : State} → {pos : Position} → {i : ℕ} →
    {live : Bool} → {p : Position} → {slipped : Bool} → .unreachable p slipped ∈ faultsCases cases state pos i live →
      Found p slipped live (positionsCases cases pos i) (reachesCases cases pos i)
  | [], _, _, _, _, _, _, h => nomatch h
  | .mk expr body :: cases, state, pos, i, live, p, slipped, h => by
    rcases List.mem_append.mp h with h | h
    · have hfound := faults_found body h
      exact hfound.left (not_mem_reachesCases (Nat.lt_succ_self i) hfound.suffix)
    · rcases List.mem_append.mp h with h | h
      · split_ifs at h
        · cases List.mem_singleton.mp h
        · cases h
      · have hfound := faultsCases_found cases h
        obtain ⟨k, hk, hsuffix⟩ := suffix_of_memCases cases hfound.inside
        exact hfound.right (not_mem_reaches (Nat.ne_of_lt hk) hsuffix)

end

/-! ## Bodies whose paths return -/

theorem mayNodes_cons {node : Stat ε} {nodes : List (Stat ε)} {o : Outcome}
    (h : (may node o = true ∧ o ≠ .falls) ∨ (may node .falls = true ∧ mayNodes nodes o = true)) :
    mayNodes (node :: nodes) o = true := by
  rw [mayNodes, Bool.or_eq_true, Bool.and_eq_true, Bool.and_eq_true, bne_iff_ne]
  exact h

theorem may_cases_false {expr : Option ε} {body : Stat ε} {cases : List (SwitchCase ε)}
    (h : mayCases (.mk expr body :: cases) .falls = false) :
    may body .falls = false ∧ may body .breaks = false ∧ mayCases cases .falls = false := by
  simp only [mayCases, Bool.or_eq_false_iff] at h
  obtain ⟨⟨⟨h, -⟩, -⟩, hcases⟩ := h
  exact ⟨(Bool.or_eq_false_iff.mp h).1, (Bool.or_eq_false_iff.mp h).2, hcases⟩

theorem mayNodes_false {node : Stat ε} {nodes : List (Stat ε)} {o : Outcome} (h : mayNodes (node :: nodes) o = false) :
    (o ≠ .falls → may node o = false) ∧ (may node .falls = true → mayNodes nodes o = false) := by
  constructor
  · intro ho
    by_contra hcontra
    cases h.symm.trans (mayNodes_cons (.inl ⟨Bool.not_eq_false _ |>.mp hcontra, ho⟩))
  · intro hfalls
    by_contra hcontra
    cases h.symm.trans (mayNodes_cons (.inr ⟨hfalls, Bool.not_eq_false _ |>.mp hcontra⟩))

mutual

/-- What decides how a statement reads misses that paths leave it: a statement of a block that is left by a `break` or
a `continue` on some paths, branches of an `if` that are left by different jumps, or a case that is left by a
`break`. -/
def unread : Stat ε → State → Bool
  | .block nodes, state =>
      (nodesRead nodes { state with occurs := .no }).any optional || unreadNodes nodes { state with occurs := .no }
  | .fi _ body (some elseBody), state =>
      (unread body state || unread elseBody (reads body state)) ||
        (reads body state).term != (reads elseBody (reads body state)).term
  | .swich _ cases _, state => unreadCases cases state
  | .terminate, _ | .decl _, _ | .asgn _, _ | .fi _ _ none, _ | .brake, _ | .continu, _ | .ret _, _ | .wile _ _, _
  | .four _ _ _ _, _ => false

/-- The last statement is unread. -/
def unreadNodes : List (Stat ε) → State → Bool
  | [], _ => false
  | node :: nodes, state => if nodes.isEmpty then unread node state else unreadNodes nodes (reads node state)

def unreadCases : List (SwitchCase ε) → State → Bool
  | [], _ => false
  | .mk _ body :: cases, state =>
      (unread body state || (reads body state).term == .breaks) || unreadCases cases (reads body state)

end

theorem State.eq_of_fields {a b : State} (hterm : a.term = b.term) (hoccurs : a.occurs = b.occurs) : a = b := by
  cases a
  cases b
  cases hterm
  cases hoccurs
  rfl

mutual

/-- A statement that no path falls through reads as left on every path exactly if it is not unread. -/
theorem left_iff : (s : Stat ε) → {state : State} → reached s = true → may s .falls = false →
    ((reads s state).occurs = .yes ↔ unread s state = false)
  | .block nodes, state, hreached, hfalls => by
    have hlast : ((nodesRead nodes { state with occurs := .no }).getLastD { state with occurs := .no }).occurs = .yes ↔
        unreadNodes nodes { state with occurs := .no } = false := leftNodes_iff nodes hreached hfalls
    rw [reads, unread, Bool.or_eq_false_iff, ← hlast]
    dsimp only
    split_ifs with hoptional
    · rw [hoptional]
      exact iff_of_false nofun nofun
    · exact (and_iff_right ((Bool.not_eq_true _).mp hoptional)).symm
  | .fi _ _ none, _, _, hfalls => by
    rw [may, beq_self_eq_true, Bool.or_true] at hfalls
    cases hfalls
  | .fi cond body (some elseBody), state, hreached, hfalls => by
    obtain ⟨hreached, hreachedElse⟩ := Bool.and_eq_true_iff.mp hreached
    obtain ⟨hfalls, hfallsElse⟩ := Bool.or_eq_false_iff.mp hfalls
    rw [reads, unread, Bool.or_eq_false_iff, Bool.or_eq_false_iff, ← left_iff body hreached hfalls,
      ← left_iff elseBody hreachedElse hfallsElse, bne_eq_false_iff_eq]
    dsimp only
    constructor
    · intro h
      split_ifs at h with heq
      exact ⟨⟨(congrArg State.occurs heq).trans h, h⟩, congrArg State.term heq⟩
    · rintro ⟨⟨htroo, hfols⟩, hterm⟩
      rw [if_pos (State.eq_of_fields hterm (htroo.trans hfols.symm))]
      exact hfols
  | .swich expr cases mark, state, hreached, hfalls => by
    obtain ⟨hfalls, hdefault⟩ := Bool.or_eq_false_iff.mp hfalls
    have hdefault : hasDefault cases = true := by simpa using hdefault
    rw [reads, unread, ← departs_iff cases hreached hfalls]
    dsimp only
    rw [hdefault, Bool.true_and]
    constructor
    · intro h
      split_ifs at h with hdeparts
      exact hdeparts
    · intro h
      exact if_pos h
  | .brake, _, _, _ | .continu, _, _, _ | .ret _, _, _, _ => iff_of_true rfl rfl
  | .wile _ _, _, _, hfalls | .four _ _ _ _, _, _, hfalls | .terminate, _, _, hfalls | .decl _, _, _, hfalls
  | .asgn _, _, _, hfalls => nomatch hfalls

theorem leftNodes_iff : (nodes : List (Stat ε)) → {state : State} → reachedNodes nodes = true →
    mayNodes nodes .falls = false →
      (((nodesRead nodes state).getLastD state).occurs = .yes ↔ unreadNodes nodes state = false)
  | [], _, _, hfalls => nomatch hfalls
  | [node], state, hreached, hfalls => by
    have hreached : reached node = true := by simpa [reachedNodes] using hreached
    have hfalls : may node .falls = false := by simpa [mayNodes] using hfalls
    exact left_iff node hreached hfalls
  | node :: next :: nodes, state, hreached, hfalls => by
    simp only [reachedNodes, Bool.and_eq_true] at hreached
    obtain ⟨⟨-, hnext⟩, hreached⟩ := hreached
    exact leftNodes_iff (next :: nodes) (Bool.and_eq_true_iff.mpr ⟨Bool.and_eq_true_iff.mpr hreached.1, hreached.2⟩)
      ((mayNodes_false hfalls).2 hnext)

theorem departs_iff : (cases : List (SwitchCase ε)) → {state : State} → reachedCases cases = true →
    mayCases cases .falls = false → ((casesRead cases state).all departs = true ↔ unreadCases cases state = false)
  | [], _, _, _ => iff_of_true rfl rfl
  | .mk expr body :: cases, state, hreached, hfalls => by
    obtain ⟨hreached, hreachedCases⟩ := Bool.and_eq_true_iff.mp hreached
    obtain ⟨hfalls, -, hfallsCases⟩ := may_cases_false hfalls
    rw [casesRead, List.all_cons, unreadCases, Bool.and_eq_true, Bool.or_eq_false_iff, Bool.or_eq_false_iff,
      departs_iff cases hreachedCases hfallsCases, ← left_iff body hreached hfalls, departs, Bool.and_eq_true,
      beq_iff_eq, bne_iff_ne, beq_eq_false_iff_ne]

end

/-! ## The guarantee of `checkMissingRet` -/

/-- The check accepts a proper body, and what it reports as unreachable is a statement that no path reaches. -/
structure Complete (body : List (Stat ε)) (ret : Ty) : Prop where
  accepts : Proper body ret → ∃ body', checkMissingRet body ret = .ok body'
  reports : checkMissingRet body ret = .error .unreachableCode →
    ∃ p, reportedNodes body { state := {} } [] 0 = some p ∧ Dead p (positionsNodes body [] 0) (reachesNodes body [] 0)

/-- The first fault is not a statement that paths get to and, in a proper body, not a last case; and what decides how
the end of a proper body reads does not miss that its paths return. -/
structure ReadsRightly (body : List (Stat ε)) (ret : Ty) : Prop where
  unreachable : ∀ p, (faultsNodes body {} [] 0 true).head? ≠ some (.unreachable p true)
  lastContinues : Proper body ret → (faultsNodes body {} [] 0 true).head? ≠ some .lastContinues
  ends : Proper body ret → ret.isVoid = false → unread (.block body) {} = false

theorem Proper.reachedNodes {body : List (Stat ε)} {ret : Ty} (h : Proper body ret) : reachedNodes body = true :=
  reachedNodes_of_subset body [] 0 h.reached

theorem Proper.returned {body : List (Stat ε)} {ret : Ty} (h : Proper body ret) (hret : ret.isVoid = false) :
    mayNodes body .falls = false := by
  by_contra hmay
  cases h.returns hret .falls ((mayNodes_iff body .falls).mp (Bool.not_eq_false _ |>.mp hmay))

/-- In a proper body, every fault is about a statement that paths get to. -/
theorem Proper.slipped {body : List (Stat ε)} {ret : Ty} (h : Proper body ret) {p : Position} {slipped : Bool}
    (hfault : .unreachable p slipped ∈ faultsNodes body {} [] 0 true) : slipped = true := by
  have hfound := faultsNodes_found body hfault
  exact hfound.slipped_iff.mpr ⟨rfl, h.reached hfound.inside⟩

/-- The check stops at the first fault. -/
theorem checkMissingRet_stops {body : List (Stat ε)} (ret : Ty) {fault : Fault} {rest : List Fault}
    (h : faultsNodes body {} [] 0 true = fault :: rest) :
    Stops fault (checkMissingRet body ret) (reportedNodes body { state := {} } [] 0) := by
  have hstops := visitNodes_stops body { state := {} } h
  exact ⟨bind_eq_error.mpr (.inl hstops.error), hstops.reported⟩

/-- Without a fault, a body is accepted exactly if it is that of a void function or reads as left on every path. -/
theorem checkMissingRet_ok_iff {body : List (Stat ε)} (ret : Ty) (h : faultsNodes body {} [] 0 true = []) :
    (∃ body', checkMissingRet body ret = .ok body') ↔ ret.isVoid = true ∨ (reads (.block body) {}).occurs = .yes := by
  obtain ⟨⟨nodes, scan⟩, hnodes⟩ := visitNodes_ok body { state := {} } h
  have hreads : (leaveBlock nodes scan).2 = reads (.block body) {} := by
    have hvisit : visit (.block body) {} = .ok (.block (leaveBlock nodes scan).1, (leaveBlock nodes scan).2) :=
      bind_eq_ok.mpr ⟨_, hnodes, rfl⟩
    exact visit_reads _ hvisit
  rw [checkMissingRet, hnodes, ← hreads]
  cases hvoid : ret.isVoid <;> cases hoccurs : (leaveBlock nodes scan).2.occurs <;>
    simp [bind, Except.bind, pure, Except.pure, hoccurs]

theorem checkMissingRet_ne_unreachable {body : List (Stat ε)} (ret : Ty) (h : faultsNodes body {} [] 0 true = []) :
    checkMissingRet body ret ≠ .error .unreachableCode := by
  obtain ⟨⟨nodes, scan⟩, hnodes⟩ := visitNodes_ok body { state := {} } h
  rw [checkMissingRet, hnodes]
  cases hvoid : ret.isVoid <;> cases hoccurs : (leaveBlock nodes scan).2.occurs <;>
    simp [bind, Except.bind, pure, Except.pure, hoccurs]

/-- `if (c) return; else f(); g();` -/
def reachedAfterBranch : List (Stat String) :=
  [.fi "c" (.ret none) (some (.asgn (.callAssign "f"))), .asgn (.callAssign "g")]

/-- `switch (x) { case (1) { break; } default { if (c) { f(); } else {} } }` -/
def emptyBranchInDefault : List (Stat String) :=
  [.swich "x" [.mk (some "1") (.block [.brake]),
    .mk none (.block [.fi "c" (.block [.asgn (.callAssign "f")]) (some (.block []))])] false]

/-- The empty branch seems to continue after the last case. -/
theorem emptyBranchInDefault_incomplete : ¬Complete emptyBranchInDefault (.btn .void) := by
  intro h
  have hproper : Proper emptyBranchInDefault (.btn .void) := by
    refine ⟨by decide, fun hvoid ↦ absurd hvoid (by decide), ?_⟩
    intro expr cases mark hmem c hc
    simp only [emptyBranchInDefault, subNodes, subStats, subCases, List.mem_cons, List.append_nil, List.mem_append] at hmem
    rcases hmem with hmem | hmem
    · cases hmem
      cases hc
      intro hexec
      have hmay := (may_iff _ _).mpr hexec
      cases hmay
    · simp at hmem
  obtain ⟨body', hbody'⟩ := h.accepts hproper
  cases hbody'

end Stela.Semantic.ReturnCompleteness
