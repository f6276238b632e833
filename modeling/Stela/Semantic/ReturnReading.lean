import Stela.Library.Except
import Stela.Semantic.CheckMissingReturn

/-!
# How the missing-return check reads a statement

The two fields that the visitor threads through a body depend only on the text, as long as nothing is rejected.
`reads` says in closed form what they become: by which jump a statement seems to be left, and whether on no path, on
some paths or on all of them. A declaration or an assignment reads like the text before it.

A statement that reads as left on every path can be fallen through all the same in two ways only: a declaration or an
assignment that stands alone decides how it reads, or a case that can break. `slips` finds these.
-/

namespace Stela.Semantic.ReturnReading

open Stela.Syntax Stela.Flow Stela.Semantic.CheckMissingReturn
open Stela.Library.Except

variable {ε : Type}

/-! ## Readings -/

/-- Left by a `break` or a `continue` on some paths. -/
def optional (state : State) : Bool :=
  state.occurs == .maybe && state.term != .returns

/-- Left by a `return` or a `continue` on every path. -/
def departs (state : State) : Bool :=
  state.occurs == .yes && state.term != .breaks

/-- Left by a `return` on some paths at least. -/
def returning (state : State) : Bool :=
  state.occurs != .no && state.term == .returns

mutual

/-- How the statement reads: the jump that it seems to be left by, and on which paths. `state` is the reading of the
text before it. -/
def reads : Stat ε → State → State
  -- the strongest jump of the statements, on the paths of the last one unless some statement is optional
  | .block nodes, state =>
      let states := nodesRead nodes { state with occurs := .no }
      ⟨(states.map State.term).foldl maxTerm .continues,
        if states.any optional then .maybe else (states.getLastD { state with occurs := .no }).occurs⟩
  | .fi _ body none, state =>
      ⟨(reads body state).term, if (reads body state).occurs = .no then .no else .maybe⟩
  -- on every path only if both branches read the same
  | .fi _ body (some elseBody), state =>
      let troo := reads body state
      let fols := reads elseBody troo
      ⟨if troo.term = .returns then .returns else fols.term, if troo = fols then fols.occurs else .maybe⟩
  | .swich _ cases _, state =>
      let states := casesRead cases state
      ⟨.returns, if hasDefault cases && states.all departs then .yes else if states.any returning then .maybe else .no⟩
  | .brake, _ => ⟨.breaks, .yes⟩
  | .continu, _ => ⟨.continues, .yes⟩
  | .ret _, _ => ⟨.returns, .yes⟩
  | .wile _ body, state => ⟨.returns, if returning (reads body state) then .maybe else .no⟩
  | .four _ _ _ body, state => ⟨.returns, if returning (reads body state) then .maybe else .no⟩
  | .terminate, state | .decl _, state | .asgn _, state => state

/-- How the statements of a block read, one after the other. -/
def nodesRead : List (Stat ε) → State → List State
  | [], _ => []
  | node :: nodes, state => reads node state :: nodesRead nodes (reads node state)

/-- How the bodies of the cases read, one after the other. -/
def casesRead : List (SwitchCase ε) → State → List State
  | [], _ => []
  | .mk _ body :: cases, state => reads body state :: casesRead cases (reads body state)

end

theorem casesRead_length : (cases : List (SwitchCase ε)) → (state : State) →
    (casesRead cases state).length = cases.length
  | [], _ => rfl
  | .mk _ body :: cases, state => congrArg Nat.succ (casesRead_length cases (reads body state))

section Folds

theorem foldl_add_state (states : List State) (scan : Scan) :
    (states.foldl Scan.add scan).state = states.getLastD scan.state := by
  induction states generalizing scan with
  | nil => rfl
  | cons state states ih => rw [List.foldl_cons, ih, List.getLastD_cons]; rfl

theorem foldl_add_maybeLeave (states : List State) (scan : Scan) :
    (states.foldl Scan.add scan).maybeLeave = (scan.maybeLeave || states.any optional) := by
  induction states generalizing scan with
  | nil => exact (Bool.or_false _).symm
  | cons state states ih => rw [List.foldl_cons, ih, List.any_cons, ← Bool.or_assoc]; rfl

theorem foldl_add_blockTerm (states : List State) (scan : Scan) :
    (states.foldl Scan.add scan).blockTerm = (states.map State.term).foldl maxTerm scan.blockTerm := by
  induction states generalizing scan with
  | nil => rfl
  | cons state states ih => rw [List.foldl_cons, ih, List.map_cons, List.foldl_cons]; rfl

/-- The tally of a switch whose cases read as given. -/
def tallied (tally : Tally) (isDefault : Bool) (states : List State) : Tally where
  foundDefault := tally.foundDefault || isDefault
  retCount := tally.retCount + states.count ⟨.returns, .yes⟩
  totalCases := tally.totalCases - states.count ⟨.continues, .yes⟩
  maybeRet := tally.maybeRet || states.contains ⟨.returns, .maybe⟩

theorem tallied_add (tally : Tally) (isDefault isDefault' : Bool) (state : State) (states : List State) :
    tallied (tally.add isDefault state) isDefault' states = tallied tally (isDefault || isDefault') (state :: states) := by
  obtain ⟨term, occurs⟩ := state
  simp only [tallied, Tally.add, Bool.or_assoc, List.count_cons, List.contains_cons, beq_eq_decide]
  cases term <;> cases occurs <;> simp [Nat.add_assoc, Nat.add_comm, Nat.sub_sub]

theorem count_departs (states : List State) :
    states.count ⟨.returns, .yes⟩ + states.count ⟨.continues, .yes⟩ = states.countP departs := by
  induction states with
  | nil => rfl
  | cons state states ih =>
    obtain ⟨term, occurs⟩ := state
    rw [List.countP_cons, List.count_cons, List.count_cons, ← ih]
    cases term <;> cases occurs <;> simp [departs] <;> omega

theorem any_returning (states : List State) :
    states.any returning = (states.contains ⟨.returns, .maybe⟩ || states.count ⟨.returns, .yes⟩ != 0) := by
  induction states with
  | nil => rfl
  | cons state states ih =>
    obtain ⟨term, occurs⟩ := state
    rw [List.any_cons, ih, List.contains_cons, List.count_cons]
    simp only [returning, beq_eq_decide, bne]
    cases term <;> cases occurs <;> simp

/-- A switch reads as left on every path exactly if each of its cases departs, and one of them is the default. -/
theorem leaveSwitch_tallied (isDefault : Bool) (states : List State) :
    leaveSwitch (tallied { totalCases := states.length } isDefault states) =
      (isDefault && states.all departs,
        ⟨.returns, if isDefault && states.all departs then .yes else if states.any returning then .maybe else .no⟩) := by
  have hcounted : (tallied { totalCases := states.length } isDefault states).retCount =
      (tallied { totalCases := states.length } isDefault states).totalCases ↔ states.all departs = true := by
    have hle : states.countP departs ≤ states.length := List.countP_le_length
    rw [List.all_eq_true, ← List.countP_eq_length, ← count_departs]
    rw [← count_departs] at hle
    simp only [tallied]
    omega
  have hreturning : states.any returning = true ↔
      (tallied { totalCases := states.length } isDefault states).maybeRet ∨
        (tallied { totalCases := states.length } isDefault states).retCount ≠ 0 := by
    rw [any_returning]
    simp [tallied]
  simp only [leaveSwitch, hcounted, ← hreturning]
  cases isDefault <;> cases states.all departs <;> cases states.any returning <;> rfl

end Folds

/-! ## The fields of the visitor -/

theorem leaveBlock_cases (nodes : List (Stat ε)) (scan : Scan) :
    ((leaveBlock nodes scan).1 = nodes ++ [.terminate] ∧ (leaveBlock nodes scan).2.occurs ≠ .yes) ∨
      ((leaveBlock nodes scan).1 = nodes ∧ (leaveBlock nodes scan).2.occurs = .yes) := by
  by_cases hyes : (if scan.maybeLeave then Occurs.maybe else scan.state.occurs) ≠ .yes
  · exact .inl ⟨if_pos hyes, hyes⟩
  · exact .inr ⟨if_neg hyes, not_not.mp hyes⟩

theorem leaveIf_none (troo : State) :
    leaveIf troo { troo with occurs := .no } = ⟨troo.term, if troo.occurs = .no then .no else .maybe⟩ := by
  obtain ⟨term, occurs⟩ := troo
  cases term <;> cases occurs <;> rfl

theorem leaveIf_some (troo fols : State) : leaveIf troo fols =
    ⟨if troo.term = .returns then .returns else fols.term, if troo = fols then fols.occurs else .maybe⟩ := by
  obtain ⟨term, occurs⟩ := troo
  obtain ⟨term', occurs'⟩ := fols
  cases term <;> cases occurs <;> cases term' <;> cases occurs' <;> rfl

theorem afterLoop_eq (state : State) : afterLoop state = ⟨.returns, if returning state then .maybe else .no⟩ := by
  obtain ⟨term, occurs⟩ := state
  cases term <;> cases occurs <;> rfl

mutual

/-- The fields after a visit are what the statement reads as. -/
theorem visit_reads : (s : Stat ε) → {state : State} → {r : Stat ε × State} → visit s state = .ok r →
    r.2 = reads s state
  | .block nodes, state, r, h => by
    obtain ⟨⟨nodes', scan⟩, hnodes, h⟩ := bind_eq_ok.mp h
    cases h
    obtain rfl : scan = _ := visitNodes_reads nodes hnodes
    simp only [leaveBlock, foldl_add_state, foldl_add_maybeLeave, foldl_add_blockTerm, Bool.false_or, reads]
  | .fi cond body none, state, r, h => by
    obtain ⟨⟨body', troo⟩, hbody, h⟩ := bind_eq_ok.mp h
    cases h
    obtain rfl : troo = _ := visit_reads body hbody
    exact leaveIf_none _
  | .fi cond body (some elseBody), state, r, h => by
    obtain ⟨⟨body', troo⟩, hbody, h⟩ := bind_eq_ok.mp h
    obtain ⟨⟨elseBody', fols⟩, helse, h⟩ := bind_eq_ok.mp h
    cases h
    obtain rfl : troo = _ := visit_reads body hbody
    obtain rfl : fols = _ := visit_reads elseBody helse
    exact leaveIf_some _ _
  | .swich expr cases mark, state, r, h => by
    obtain ⟨⟨cases', tally⟩, hcases, h⟩ := bind_eq_ok.mp h
    cases h
    obtain rfl : tally = _ := visitCases_reads cases hcases
    rw [← casesRead_length cases state, leaveSwitch_tallied]
    rfl
  | .wile cond body, state, r, h | .four init cond incr body, state, r, h => by
    obtain ⟨⟨body', state'⟩, hbody, h⟩ := bind_eq_ok.mp h
    cases h
    obtain rfl : state' = _ := visit_reads body hbody
    exact afterLoop_eq _
  | .terminate, _, _, h | .brake, _, _, h | .continu, _, _, h | .ret _, _, _, h
  | .decl _, _, _, h | .asgn _, _, _, h => by
    cases h
    rfl

theorem visitNodes_reads : (nodes : List (Stat ε)) → {scan : Scan} → {r : List (Stat ε) × Scan} →
    visitNodes nodes scan = .ok r → r.2 = (nodesRead nodes scan.state).foldl Scan.add scan
  | [], _, _, h => by
    cases h
    rfl
  | node :: nodes, scan, r, h => by
    obtain ⟨⟨node', state⟩, hnode, h⟩ := bind_eq_ok.mp h
    obtain ⟨-, h⟩ := ite_error_eq_ok.mp h
    obtain ⟨⟨nodes', scan'⟩, hnodes, h⟩ := bind_eq_ok.mp h
    cases h
    obtain rfl : state = _ := visit_reads node hnode
    have hscan : scan' = _ := visitNodes_reads nodes hnodes
    exact hscan

theorem visitCases_reads : (cases : List (SwitchCase ε)) → {state : State} → {tally : Tally} →
    {r : List (SwitchCase ε) × Tally} → visitCases cases state tally = .ok r →
      r.2 = tallied tally (hasDefault cases) (casesRead cases state)
  | [], _, tally, _, h => by
    cases h
    simp [tallied, hasDefault, casesRead]
  | .mk expr body :: cases, state, tally, r, h => by
    obtain ⟨⟨body', state'⟩, hbody, h⟩ := bind_eq_ok.mp h
    obtain ⟨-, h⟩ := ite_error_eq_ok.mp h
    obtain ⟨⟨cases', tally'⟩, hcases, h⟩ := bind_eq_ok.mp h
    cases h
    obtain rfl : state' = _ := visit_reads body hbody
    have htally : tally' = _ := visitCases_reads cases hcases
    exact htally.trans (tallied_add tally expr.isNone (hasDefault cases) _ _)

end

/-! ## The check keeps the paths of a statement -/

theorem mayNodes_append_terminate (nodes : List (Stat ε)) (o : Outcome) :
    mayNodes (nodes ++ [.terminate]) o = mayNodes nodes o := by
  induction nodes with
  | nil => cases o <;> rfl
  | cons node nodes ih => simp only [List.cons_append, mayNodes, ih]

theorem mayNodes_leaveBlock (nodes : List (Stat ε)) (scan : Scan) (o : Outcome) :
    mayNodes (leaveBlock nodes scan).1 o = mayNodes nodes o := by
  rcases leaveBlock_cases nodes scan with ⟨heq, -⟩ | ⟨heq, -⟩
  · rw [heq, mayNodes_append_terminate]
  · rw [heq]

mutual

theorem visit_may : (s : Stat ε) → {state : State} → {r : Stat ε × State} → visit s state = .ok r →
    ∀ o, may r.1 o = may s o
  | .block nodes, state, r, h, o => by
    obtain ⟨⟨nodes', scan⟩, hnodes, h⟩ := bind_eq_ok.mp h
    cases h
    rw [may, mayNodes_leaveBlock, visitNodes_may nodes hnodes o, may]
  | .fi cond body none, state, r, h, o => by
    obtain ⟨⟨body', troo⟩, hbody, h⟩ := bind_eq_ok.mp h
    cases h
    simp only [may, visit_may body hbody]
  | .fi cond body (some elseBody), state, r, h, o => by
    obtain ⟨⟨body', troo⟩, hbody, h⟩ := bind_eq_ok.mp h
    obtain ⟨⟨elseBody', fols⟩, helse, h⟩ := bind_eq_ok.mp h
    cases h
    simp only [may, visit_may body hbody, visit_may elseBody helse]
  | .swich expr cases mark, state, r, h, o => by
    obtain ⟨⟨cases', tally⟩, hcases, h⟩ := bind_eq_ok.mp h
    cases h
    have hmay := visitCases_may cases hcases
    simp only [may, hmay.2.1 o, hmay.2.2]
  | .wile cond body, state, r, h, o => by
    obtain ⟨⟨body', state'⟩, hbody, h⟩ := bind_eq_ok.mp h
    cases h
    simp only [may, visit_may body hbody]
  | .four init cond incr body, state, r, h, o => by
    obtain ⟨⟨body', state'⟩, hbody, h⟩ := bind_eq_ok.mp h
    cases h
    simp only [may, visit_may body hbody]
  | .terminate, _, _, h, _ | .brake, _, _, h, _ | .continu, _, _, h, _ | .ret _, _, _, h, _
  | .decl _, _, _, h, _ | .asgn _, _, _, h, _ => by
    cases h
    rfl

theorem visitNodes_may : (nodes : List (Stat ε)) → {scan : Scan} → {r : List (Stat ε) × Scan} →
    visitNodes nodes scan = .ok r → ∀ o, mayNodes r.1 o = mayNodes nodes o
  | [], _, _, h, _ => by
    cases h
    rfl
  | node :: nodes, scan, r, h, o => by
    obtain ⟨⟨node', state⟩, hnode, h⟩ := bind_eq_ok.mp h
    obtain ⟨-, h⟩ := ite_error_eq_ok.mp h
    obtain ⟨⟨nodes', scan'⟩, hnodes, h⟩ := bind_eq_ok.mp h
    cases h
    simp only [mayNodes, visit_may node hnode, visitNodes_may nodes hnodes]

theorem visitCases_may : (cases : List (SwitchCase ε)) → {state : State} → {tally : Tally} →
    {r : List (SwitchCase ε) × Tally} → visitCases cases state tally = .ok r →
    (∀ o, mayFrom r.1 o = mayFrom cases o) ∧ (∀ o, mayCases r.1 o = mayCases cases o) ∧
      hasDefault r.1 = hasDefault cases
  | [], _, _, _, h => by
    cases h
    exact ⟨fun _ ↦ rfl, fun _ ↦ rfl, rfl⟩
  | .mk expr body :: cases, state, tally, r, h => by
    obtain ⟨⟨body', state'⟩, hbody, h⟩ := bind_eq_ok.mp h
    obtain ⟨-, h⟩ := ite_error_eq_ok.mp h
    obtain ⟨⟨cases', tally'⟩, hcases, h⟩ := bind_eq_ok.mp h
    cases h
    have hmay := visitCases_may cases hcases
    have hdefault : hasDefault cases' = hasDefault cases := hmay.2.2
    refine ⟨fun o ↦ ?_, fun o ↦ ?_, ?_⟩
    · simp only [mayFrom, visit_may body hbody, hmay.1]
    · simp only [mayCases, visit_may body hbody, hmay.1, hmay.2.1]
    · simpa only [hasDefault, List.any_cons, SwitchCase.expr] using congrArg _ hdefault

end

/-! ## Statements that only seem to be left -/

/-- A switch is fallen through, once a case of it is entered, exactly if some case falls or breaks. -/
theorem mayCases_falls (cases : List (SwitchCase ε)) :
    mayCases cases .falls = cases.any fun c ↦ may c.body .falls || may c.body .breaks := by
  have hfrom : ∀ cases : List (SwitchCase ε), mayFrom cases .falls = true →
      (cases.any fun c ↦ may c.body .falls || may c.body .breaks) = true := by
    intro cases
    induction cases with
    | nil => nofun
    | cons c cases ih =>
      obtain ⟨expr, body⟩ := c
      simp only [mayFrom, List.any_cons, SwitchCase.body, Bool.or_eq_true, Bool.and_eq_true]
      rintro ((⟨-, h⟩ | ⟨h, -⟩) | ⟨-, h⟩)
      · exact .inl h
      · cases h
      · exact .inr (ih h)
  induction cases with
  | nil => rfl
  | cons c cases ih =>
    obtain ⟨expr, body⟩ := c
    rw [mayCases, ih, List.any_cons, Bool.eq_iff_iff]
    simp only [SwitchCase.body, Bool.or_eq_true, Bool.and_eq_true]
    constructor
    · rintro (((⟨-, h⟩ | ⟨h, -⟩) | ⟨-, h⟩) | h)
      · exact .inl h
      · cases h
      · exact .inr (hfrom cases h)
      · exact .inr h
    · rintro (h | h)
      · exact .inl (.inl (.inl ⟨rfl, h⟩))
      · exact .inr h

mutual

/-- What decides how the statement reads is a declaration or an assignment that stands alone, or a switch with a case
that can break: the last statement of a block, if paths get there, either branch of an `if`, and every case of a
switch. -/
def slips : Stat ε → Bool
  | .block nodes => slipsNodes nodes
  | .fi _ body (some elseBody) => slips body || slips elseBody
  | .swich _ cases _ => slipsCases cases
  | .terminate | .decl _ | .asgn _ => true
  | .fi _ _ none | .brake | .continu | .ret _ | .wile _ _ | .four _ _ _ _ => false

def slipsNodes : List (Stat ε) → Bool
  | [] => false
  | node :: nodes => if nodes.isEmpty then slips node else may node .falls && slipsNodes nodes

def slipsCases : List (SwitchCase ε) → Bool
  | [] => false
  | .mk _ body :: cases => (slips body || may body .breaks) || slipsCases cases

end

mutual

/-- A statement that reads as left on every path falls exactly if it slips. -/
theorem falls_eq_slips : (s : Stat ε) → {state : State} → (reads s state).occurs = .yes → may s .falls = slips s
  | .block nodes, state, h => by
    rw [reads] at h
    dsimp only at h
    split_ifs at h
    exact fallsNodes_eq_slips nodes h nofun
  | .fi cond body none, state, h => by
    rw [reads] at h
    dsimp only at h
    split_ifs at h
  | .fi cond body (some elseBody), state, h => by
    rw [reads] at h
    dsimp only at h
    split_ifs at h with heq
    have hbody : (reads body state).occurs = .yes := (congrArg State.occurs heq).trans h
    rw [may, slips, falls_eq_slips body hbody, falls_eq_slips elseBody h]
  | .swich expr cases mark, state, h => by
    rw [reads] at h
    dsimp only at h
    split_ifs at h with hdeparts
    obtain ⟨hdefault, hdeparts⟩ := Bool.and_eq_true_iff.mp hdeparts
    rw [may, slips, hdefault, Bool.not_true, Bool.and_false, Bool.or_false]
    exact fallsCases_eq_slips cases hdeparts
  | .wile cond body, state, h | .four init cond incr body, state, h => by
    rw [reads] at h
    dsimp only at h
    split_ifs at h
  | .brake, _, _ | .continu, _, _ | .ret _, _, _ | .terminate, _, _ | .decl _, _, _ | .asgn _, _, _ => rfl

theorem fallsNodes_eq_slips : (nodes : List (Stat ε)) → {state : State} →
    ((nodesRead nodes state).getLastD state).occurs = .yes → (nodes = [] → state.occurs ≠ .yes) →
      mayNodes nodes .falls = slipsNodes nodes
  | [], _, h, hempty => absurd h (hempty rfl)
  | [node], state, h, _ => by
    rw [mayNodes, slipsNodes, falls_eq_slips node h]
    simp [mayNodes]
  | node :: next :: nodes, state, h, _ => by
    have hlast : ((nodesRead (next :: nodes) (reads node state)).getLastD (reads node state)).occurs = .yes := h
    have hnodes : mayNodes (next :: nodes) .falls = slipsNodes (next :: nodes) :=
      fallsNodes_eq_slips (next :: nodes) hlast nofun
    rw [mayNodes, slipsNodes, hnodes]
    simp

/-- A switch all of whose cases depart. -/
theorem fallsCases_eq_slips : (cases : List (SwitchCase ε)) → {state : State} →
    (casesRead cases state).all departs = true → mayCases cases .falls = slipsCases cases
  | [], _, _ => rfl
  | .mk expr body :: cases, state, h => by
    rw [casesRead, List.all_cons, Bool.and_eq_true] at h
    have hyes : (reads body state).occurs = .yes := by
      have hbody := (Bool.and_eq_true_iff.mp h.1).1
      exact beq_iff_eq.mp hbody
    rw [mayCases_falls, List.any_cons, ← mayCases_falls, slipsCases, fallsCases_eq_slips cases h.2,
      SwitchCase.body, falls_eq_slips body hyes]

end

end Stela.Semantic.ReturnReading
