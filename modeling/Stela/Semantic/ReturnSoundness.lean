import Stela.Semantic.ReturnReading

/-!
# What the missing-return check guarantees

The check merges `term` with a maximum and lets statements it does not override keep the fields
of whatever was visited before. Two things go wrong with that: a `break` is forgotten in a block
whose maximum is `returns`, and a declaration or assignment that stands alone as a branch takes
over the verdict of the branch before it. `NeverSlips` excludes exactly these two situations where a verdict rests on
them, and an accepted body keeps its promise if and only if it does.
-/

namespace Stela.Semantic.ReturnSoundness

open Stela.Syntax Stela.Flow Stela.Semantic.CheckMissingReturn Stela.Semantic.ReturnReading
open Stela.Library.Except

variable {ε : Type}

/-! ## Marked switches -/

/-- No switch of the statements that is marked `alwaysReturns` is left by a break or by falling
off a case. -/
def MarksSound (nodes : List (Stat ε)) : Prop :=
  ∀ expr cases, .swich expr cases true ∈ nodes → ¬Exec (.swich expr cases true) .falls

theorem marksSound_append {nodes nodes' : List (Stat ε)} :
    MarksSound (nodes ++ nodes') ↔ MarksSound nodes ∧ MarksSound nodes' := by
  constructor
  · intro h
    exact ⟨fun expr cases hmem ↦ h expr cases (List.mem_append_left _ hmem),
      fun expr cases hmem ↦ h expr cases (List.mem_append_right _ hmem)⟩
  · rintro ⟨h, h'⟩ expr cases hmem
    rcases List.mem_append.mp hmem with hmem | hmem
    · exact h expr cases hmem
    · exact h' expr cases hmem

theorem marksSound_nil : MarksSound ([] : List (Stat ε)) :=
  fun _ _ hmem ↦ nomatch hmem

theorem marksSound_cons {node : Stat ε} {nodes : List (Stat ε)} (h : ∀ expr cases, node ≠ .swich expr cases true) :
    MarksSound (node :: nodes) ↔ MarksSound nodes := by
  constructor
  · intro hmarks expr cases hmem
    exact hmarks expr cases (List.mem_cons_of_mem _ hmem)
  · intro hmarks expr cases hmem
    rcases List.mem_cons.mp hmem with rfl | hmem
    · exact absurd rfl (h expr cases)
    · exact hmarks expr cases hmem

theorem marksSound_swich {expr : ε} {cases : List (SwitchCase ε)} {mark : Bool} {nodes : List (Stat ε)} :
    MarksSound (.swich expr cases mark :: nodes) ↔
      (mark && may (.swich expr cases mark) .falls) = false ∧ MarksSound nodes := by
  cases mark with
  | false => simpa only [Bool.false_and, true_and] using marksSound_cons nofun
  | true =>
    rw [Bool.true_and, ← Bool.not_eq_true, may_iff]
    constructor
    · intro hmarks
      exact ⟨hmarks expr cases List.mem_cons_self,
        fun expr cases hmem ↦ hmarks expr cases (List.mem_cons_of_mem _ hmem)⟩
    · rintro ⟨hfalls, hmarks⟩ expr' cases' hmem
      rcases List.mem_cons.mp hmem with heq | hmem
      · cases heq
        exact hfalls
      · exact hmarks expr' cases' hmem

mutual

/-- Some switch inside the statement reads as left on every path, and slips. -/
def marksSlip : Stat ε → State → Bool
  | .block nodes, state => marksSlipNodes nodes { state with occurs := .no }
  | .fi _ body none, state => marksSlip body state
  | .fi _ body (some elseBody), state => marksSlip body state || marksSlip elseBody (reads body state)
  | .swich expr cases mark, state =>
      ((reads (.swich expr cases mark) state).occurs == .yes && slipsCases cases) || marksSlipCases cases state
  | .wile _ body, state | .four _ _ _ body, state => marksSlip body state
  | .terminate, _ | .brake, _ | .continu, _ | .ret _, _ | .decl _, _ | .asgn _, _ => false

def marksSlipNodes : List (Stat ε) → State → Bool
  | [], _ => false
  | node :: nodes, state => marksSlip node state || marksSlipNodes nodes (reads node state)

def marksSlipCases : List (SwitchCase ε) → State → Bool
  | [], _ => false
  | .mk _ body :: cases, state => marksSlip body state || marksSlipCases cases (reads body state)

end

theorem subNodes_append (nodes nodes' : List (Stat ε)) :
    subNodes (nodes ++ nodes') = subNodes nodes ++ subNodes nodes' := by
  induction nodes with
  | nil => rfl
  | cons node nodes ih => simp only [List.cons_append, subNodes, ih, List.append_assoc]

theorem marksSound_leaveBlock (nodes : List (Stat ε)) (scan : Scan) :
    MarksSound (subNodes (leaveBlock nodes scan).1) ↔ MarksSound (subNodes nodes) := by
  rcases leaveBlock_cases nodes scan with ⟨heq, -⟩ | ⟨heq, -⟩
  · rw [heq, subNodes_append, marksSound_append]
    exact and_iff_left ((marksSound_cons nofun).mpr marksSound_nil)
  · rw [heq]

mutual

/-- The marks of a visited statement are sound exactly if no switch that reads as left on every path slips. -/
theorem visit_marks : (s : Stat ε) → {state : State} → {r : Stat ε × State} → visit s state = .ok r →
    (MarksSound (subStats r.1) ↔ marksSlip s state = false)
  | .block nodes, state, r, h => by
    obtain ⟨⟨nodes', scan⟩, hnodes, h⟩ := bind_eq_ok.mp h
    cases h
    rw [subStats, marksSound_cons nofun, marksSound_leaveBlock]
    exact visitNodes_marks nodes hnodes
  | .fi cond body none, state, r, h => by
    obtain ⟨⟨body', troo⟩, hbody, h⟩ := bind_eq_ok.mp h
    cases h
    exact (marksSound_cons nofun).trans (visit_marks body hbody)
  | .fi cond body (some elseBody), state, r, h => by
    obtain ⟨⟨body', troo⟩, hbody, h⟩ := bind_eq_ok.mp h
    obtain ⟨⟨elseBody', fols⟩, helse, h⟩ := bind_eq_ok.mp h
    cases h
    obtain rfl : troo = _ := visit_reads body hbody
    rw [subStats, marksSound_cons nofun, marksSound_append, visit_marks body hbody, visit_marks elseBody helse,
      marksSlip, Bool.or_eq_false_iff]
  | .swich expr cases mark, state, r, h => by
    have hmay : ∀ o, may r.1 o = may (.swich expr cases mark) o := visit_may _ h
    obtain ⟨⟨cases', tally⟩, hcases, h⟩ := bind_eq_ok.mp h
    cases h
    obtain rfl : tally = _ := visitCases_reads cases hcases
    have hmark : (leaveSwitch (tallied { totalCases := cases.length } (hasDefault cases) (casesRead cases state))).1 =
        ((reads (.swich expr cases mark) state).occurs == .yes) := by
      rw [← casesRead_length cases state, leaveSwitch_tallied, reads]
      dsimp only
      split_ifs with hleft
      · exact hleft
      · exact (Bool.not_eq_true _).mp hleft
      · exact (Bool.not_eq_true _).mp hleft
    rw [subStats, marksSound_swich, hmay, hmark, marksSlip, visitCases_marks cases hcases, Bool.or_eq_false_iff]
    cases hyes : (reads (.swich expr cases mark) state).occurs == .yes with
    | false => rfl
    | true => rw [falls_eq_slips _ (beq_iff_eq.mp hyes), slips]
  | .wile cond body, state, r, h | .four init cond incr body, state, r, h => by
    obtain ⟨⟨body', state'⟩, hbody, h⟩ := bind_eq_ok.mp h
    cases h
    exact (marksSound_cons nofun).trans (visit_marks body hbody)
  | .terminate, _, _, h | .brake, _, _, h | .continu, _, _, h | .ret _, _, _, h | .decl _, _, _, h
  | .asgn _, _, _, h => by
    cases h
    exact iff_of_true ((marksSound_cons nofun).mpr marksSound_nil) rfl

theorem visitNodes_marks : (nodes : List (Stat ε)) → {scan : Scan} → {r : List (Stat ε) × Scan} →
    visitNodes nodes scan = .ok r → (MarksSound (subNodes r.1) ↔ marksSlipNodes nodes scan.state = false)
  | [], _, _, h => by
    cases h
    exact iff_of_true marksSound_nil rfl
  | node :: nodes, scan, r, h => by
    obtain ⟨⟨node', state⟩, hnode, h⟩ := bind_eq_ok.mp h
    obtain ⟨-, h⟩ := ite_error_eq_ok.mp h
    obtain ⟨⟨nodes', scan'⟩, hnodes, h⟩ := bind_eq_ok.mp h
    cases h
    obtain rfl : state = _ := visit_reads node hnode
    rw [subNodes, marksSound_append, visit_marks node hnode, visitNodes_marks nodes hnodes, marksSlipNodes,
      Bool.or_eq_false_iff]
    rfl

theorem visitCases_marks : (cases : List (SwitchCase ε)) → {state : State} → {tally : Tally} →
    {r : List (SwitchCase ε) × Tally} → visitCases cases state tally = .ok r →
      (MarksSound (subCases r.1) ↔ marksSlipCases cases state = false)
  | [], _, _, _, h => by
    cases h
    exact iff_of_true marksSound_nil rfl
  | .mk expr body :: cases, state, tally, r, h => by
    obtain ⟨⟨body', state'⟩, hbody, h⟩ := bind_eq_ok.mp h
    obtain ⟨-, h⟩ := ite_error_eq_ok.mp h
    obtain ⟨⟨cases', tally'⟩, hcases, h⟩ := bind_eq_ok.mp h
    cases h
    obtain rfl : state' = _ := visit_reads body hbody
    rw [subCases, marksSound_append, visit_marks body hbody, visitCases_marks cases hcases, marksSlipCases,
      Bool.or_eq_false_iff]

end

/-! ## The guarantee of `checkMissingRet` -/

/-- What an accepted body of a non-void function promises: no path falls off its end, and the
switches marked `alwaysReturns` are left by returning only. -/
def Promise (body body' : List (Stat ε)) : Prop :=
  ¬ExecNodes body .falls ∧ MarksSound (subNodes body')

/-- A body of a non-void function is accepted only when the visitor ends with `occurs = yes`. -/
theorem checkMissingRet_eq_ok {body body' : List (Stat ε)} {ret : Ty} (hret : ret.isVoid = false)
    (h : checkMissingRet body ret = .ok body') :
    ∃ nodes scan, visitNodes body { state := {} } = .ok (nodes, scan) ∧
      (leaveBlock nodes scan).2.occurs = .yes ∧ body' = (leaveBlock nodes scan).1 := by
  obtain ⟨⟨nodes, scan⟩, hnodes, h⟩ := bind_eq_ok.mp h
  simp only [hret, Bool.false_eq_true, false_and, if_false] at h
  obtain ⟨hno, h⟩ := ite_error_eq_ok.mp h
  obtain ⟨hmaybe, h⟩ := ite_error_eq_ok.mp h
  refine ⟨nodes, scan, hnodes, ?_, (Except.ok.inj h).symm⟩
  cases hoccurs : (leaveBlock nodes scan).2.occurs with
  | no => exact absurd hoccurs hno
  | maybe => exact absurd hoccurs hmaybe
  | yes => rfl

/-- Neither the end of the body nor a switch that reads as left on every path rests on a declaration or an assignment
that stands alone, or on a case that can break. -/
structure NeverSlips (body : List (Stat ε)) : Prop where
  ends : slipsNodes body = false
  marks : marksSlipNodes body {} = false

instance (body : List (Stat ε)) : Decidable (NeverSlips body) :=
  decidable_of_iff (slipsNodes body = false ∧ marksSlipNodes body {} = false)
    ⟨fun h ↦ ⟨h.1, h.2⟩, fun h ↦ ⟨h.ends, h.marks⟩⟩

/-- `while (c) { switch (x) { case (1) { return 1; } case (2) { continue; } default { return 2; } } }
return 3;` -/
def returningSwitch : List (Stat String) :=
  [.wile "c" (.block [.swich "x" [.mk (some "1") (.block [.ret (some "1")]),
    .mk (some "2") (.block [.continu]), .mk none (.block [.ret (some "2")])] false]), .ret (some "3")]

/-- `switch (x) { default { if (c) { return 1; } break; } }` -/
def hiddenBreak : List (Stat String) :=
  [.swich "x" [.mk none (.block [.fi "c" (.block [.ret (some "1")]) none, .brake])] false]

end Stela.Semantic.ReturnSoundness
