import Stela.Syntax.Stat

/-!
# Control-flow paths

How control can leave a statement when every condition is free: an `if` may take either branch,
a switch may enter any case (or none when it has no default), a loop may run any number of
times. `break` leaves the innermost loop or switch, `continue` goes to the next iteration of the
innermost loop or to the next case of the innermost switch. A `continue` in the last case of a
switch has nowhere to go, so no path takes it.

`Exec` is the relation, `may` decides it.
-/

namespace Stela.Flow

open Stela.Syntax

/-- The ways control leaves a statement. -/
inductive Outcome where
  | falls | breaks | continues | returns
  deriving DecidableEq, Repr

namespace Outcome

/-- The outcomes after which a loop runs its condition again. -/
def iterates : Outcome → Bool
  | falls | continues => true
  | breaks | returns => false

end Outcome

variable {ε : Type}

mutual

/-- Some path through the statement leaves it in the given way. -/
inductive Exec : Stat ε → Outcome → Prop where
  | block {nodes o} : ExecNodes nodes o → Exec (.block nodes) o
  | fiBody {cond body elseBody o} : Exec body o → Exec (.fi cond body elseBody) o
  | fiElse {cond body elseBody o} : Exec elseBody o → Exec (.fi cond body (some elseBody)) o
  | fiSkip {cond body} : Exec (.fi cond body none) .falls
  | swichCase {expr cases alwaysReturns entered o} :
      entered <:+ cases → ExecFrom entered o → Exec (.swich expr cases alwaysReturns) o
  | swichSkip {expr cases alwaysReturns} :
      hasDefault cases = false → Exec (.swich expr cases alwaysReturns) .falls
  | terminate : Exec .terminate .falls
  | brake : Exec .brake .breaks
  | continu : Exec .continu .continues
  | ret {expr} : Exec (.ret expr) .returns
  | wile {cond body o} : ExecLoop body o → Exec (.wile cond body) o
  | four {init cond incr body o} : ExecLoop body o → Exec (.four init cond incr body) o
  | decl {decl} : Exec (.decl decl) .falls
  | asgn {asgn} : Exec (.asgn asgn) .falls

/-- Paths through the statements of a block, in order. -/
inductive ExecNodes : List (Stat ε) → Outcome → Prop where
  | nil : ExecNodes [] .falls
  | leave {node nodes o} : Exec node o → o ≠ .falls → ExecNodes (node :: nodes) o
  | next {node nodes o} : Exec node .falls → ExecNodes nodes o → ExecNodes (node :: nodes) o

/-- Paths through a switch whose entered case is the first of the list. -/
inductive ExecFrom : List (SwitchCase ε) → Outcome → Prop where
  | falls {expr body cases} : Exec body .falls → ExecFrom (.mk expr body :: cases) .falls
  | breaks {expr body cases} : Exec body .breaks → ExecFrom (.mk expr body :: cases) .falls
  | returns {expr body cases} : Exec body .returns → ExecFrom (.mk expr body :: cases) .returns
  | next {expr body cases o} :
      Exec body .continues → ExecFrom cases o → ExecFrom (.mk expr body :: cases) o

/-- Paths through a loop: some iterations of the body, then the condition fails or the body leaves. -/
inductive ExecLoop : Stat ε → Outcome → Prop where
  | done {body} (iterations : List Outcome) :
      (∀ o ∈ iterations, o.iterates = true) → (∀ o ∈ iterations, Exec body o) → ExecLoop body .falls
  | breaks {body} (iterations : List Outcome) :
      (∀ o ∈ iterations, o.iterates = true) → (∀ o ∈ iterations, Exec body o) →
        Exec body .breaks → ExecLoop body .falls
  | returns {body} (iterations : List Outcome) :
      (∀ o ∈ iterations, o.iterates = true) → (∀ o ∈ iterations, Exec body o) →
        Exec body .returns → ExecLoop body .returns

end

mutual

/-- Decides `Exec`. -/
def may : Stat ε → Outcome → Bool
  | .block nodes, o => mayNodes nodes o
  | .fi _ body none, o => may body o || o == .falls
  | .fi _ body (some elseBody), o => may body o || may elseBody o
  | .swich _ cases _, o => mayCases cases o || (o == .falls && !hasDefault cases)
  | .terminate, o => o == .falls
  | .brake, o => o == .breaks
  | .continu, o => o == .continues
  | .ret _, o => o == .returns
  | .wile _ body, o => o == .falls || (o == .returns && may body .returns)
  | .four _ _ _ body, o => o == .falls || (o == .returns && may body .returns)
  | .decl _, o => o == .falls
  | .asgn _, o => o == .falls

/-- Decides `ExecNodes`. -/
def mayNodes : List (Stat ε) → Outcome → Bool
  | [], o => o == .falls
  | node :: nodes, o => (may node o && o != .falls) || (may node .falls && mayNodes nodes o)

/-- Decides `ExecFrom` for the first case of the list. -/
def mayFrom : List (SwitchCase ε) → Outcome → Bool
  | [], _ => false
  | .mk _ body :: cases, o =>
      (o == .falls && (may body .falls || may body .breaks)) ||
      (o == .returns && may body .returns) || (may body .continues && mayFrom cases o)

/-- Decides `ExecFrom` for some case of the list. -/
def mayCases : List (SwitchCase ε) → Outcome → Bool
  | [], _ => false
  | .mk _ body :: cases, o =>
      (o == .falls && (may body .falls || may body .breaks)) ||
      (o == .returns && may body .returns) || (may body .continues && mayFrom cases o) ||
      mayCases cases o

end

/-- Whatever the number of iterations, a loop can fall, and returns exactly when its body can. -/
theorem execLoop_iff {body : Stat ε} (hbody : ∀ o, may body o = true ↔ Exec body o) (o : Outcome) :
    ExecLoop body o ↔ (o == .falls || (o == .returns && may body .returns)) = true := by
  rw [Bool.or_eq_true, Bool.and_eq_true, beq_iff_eq, beq_iff_eq, hbody]
  constructor
  · intro h
    cases h with
    | done | breaks => exact .inl rfl
    | returns _ _ _ h => exact .inr ⟨rfl, h⟩
  · rintro (rfl | ⟨rfl, h⟩)
    · exact .done [] nofun nofun
    · exact .returns [] nofun nofun h

mutual

theorem may_iff : (s : Stat ε) → (o : Outcome) → (may s o = true ↔ Exec s o)
  | .block nodes, o => by
    rw [may, mayNodes_iff nodes o]
    exact ⟨.block, fun h ↦ by cases h with | block h => exact h⟩
  | .fi cond body none, o => by
    rw [may, Bool.or_eq_true, may_iff body o, beq_iff_eq]
    constructor
    · rintro (h | rfl)
      · exact .fiBody h
      · exact .fiSkip
    · intro h
      cases h with
      | fiBody h => exact .inl h
      | fiSkip => exact .inr rfl
  | .fi cond body (some elseBody), o => by
    rw [may, Bool.or_eq_true, may_iff body o, may_iff elseBody o]
    constructor
    · rintro (h | h)
      · exact .fiBody h
      · exact .fiElse h
    · intro h
      cases h with
      | fiBody h => exact .inl h
      | fiElse h => exact .inr h
  | .swich expr cases alwaysReturns, o => by
    rw [may, Bool.or_eq_true, mayCases_iff cases o, Bool.and_eq_true, beq_iff_eq, Bool.not_eq_true']
    constructor
    · rintro (⟨entered, hsuffix, h⟩ | ⟨rfl, hdefault⟩)
      · exact .swichCase hsuffix h
      · exact .swichSkip hdefault
    · intro h
      cases h with
      | swichCase hsuffix h => exact .inl ⟨_, hsuffix, h⟩
      | swichSkip hdefault => exact .inr ⟨rfl, hdefault⟩
  | .terminate, o => by
    rw [may, beq_iff_eq]
    exact ⟨fun h ↦ h ▸ .terminate, fun h ↦ by cases h; rfl⟩
  | .brake, o => by
    rw [may, beq_iff_eq]
    exact ⟨fun h ↦ h ▸ .brake, fun h ↦ by cases h; rfl⟩
  | .continu, o => by
    rw [may, beq_iff_eq]
    exact ⟨fun h ↦ h ▸ .continu, fun h ↦ by cases h; rfl⟩
  | .ret expr, o => by
    rw [may, beq_iff_eq]
    exact ⟨fun h ↦ h ▸ .ret, fun h ↦ by cases h; rfl⟩
  | .wile cond body, o => by
    rw [may, ← execLoop_iff (may_iff body) o]
    exact ⟨.wile, fun h ↦ by cases h with | wile h => exact h⟩
  | .four init cond incr body, o => by
    rw [may, ← execLoop_iff (may_iff body) o]
    exact ⟨.four, fun h ↦ by cases h with | four h => exact h⟩
  | .decl decl, o => by
    rw [may, beq_iff_eq]
    exact ⟨fun h ↦ h ▸ .decl, fun h ↦ by cases h; rfl⟩
  | .asgn asgn, o => by
    rw [may, beq_iff_eq]
    exact ⟨fun h ↦ h ▸ .asgn, fun h ↦ by cases h; rfl⟩

theorem mayNodes_iff : (nodes : List (Stat ε)) → (o : Outcome) →
    (mayNodes nodes o = true ↔ ExecNodes nodes o)
  | [], o => by
    rw [mayNodes, beq_iff_eq]
    exact ⟨fun h ↦ h ▸ .nil, fun h ↦ by cases h; rfl⟩
  | node :: nodes, o => by
    rw [mayNodes, Bool.or_eq_true, Bool.and_eq_true, Bool.and_eq_true, may_iff node o,
      may_iff node .falls, mayNodes_iff nodes o, bne_iff_ne]
    constructor
    · rintro (⟨h, hne⟩ | ⟨hfalls, h⟩)
      · exact .leave h hne
      · exact .next hfalls h
    · intro h
      cases h with
      | leave h hne => exact .inl ⟨h, hne⟩
      | next hfalls h => exact .inr ⟨hfalls, h⟩

theorem mayFrom_iff : (cases : List (SwitchCase ε)) → (o : Outcome) →
    (mayFrom cases o = true ↔ ExecFrom cases o)
  | [], o => by
    rw [mayFrom]
    exact ⟨nofun, fun h ↦ by cases h⟩
  | .mk expr body :: cases, o => by
    simp only [mayFrom, Bool.or_eq_true, Bool.and_eq_true, beq_iff_eq, may_iff body, mayFrom_iff cases o]
    constructor
    · rintro ((⟨rfl, h | h⟩ | ⟨rfl, h⟩) | ⟨hcontinues, h⟩)
      · exact .falls h
      · exact .breaks h
      · exact .returns h
      · exact .next hcontinues h
    · intro h
      cases h with
      | falls h => exact .inl (.inl ⟨rfl, .inl h⟩)
      | breaks h => exact .inl (.inl ⟨rfl, .inr h⟩)
      | returns h => exact .inl (.inr ⟨rfl, h⟩)
      | next hcontinues h => exact .inr ⟨hcontinues, h⟩

theorem mayCases_iff : (cases : List (SwitchCase ε)) → (o : Outcome) →
    (mayCases cases o = true ↔ ∃ entered, entered <:+ cases ∧ ExecFrom entered o)
  | [], o => by
    simp only [mayCases, Bool.false_eq_true, List.suffix_nil, false_iff]
    rintro ⟨entered, rfl, h⟩
    cases h
  | .mk expr body :: cases, o => by
    have hhead := mayFrom_iff (.mk expr body :: cases) o
    rw [mayFrom] at hhead
    rw [mayCases, Bool.or_eq_true, hhead, mayCases_iff cases o]
    constructor
    · rintro (h | ⟨entered, hsuffix, h⟩)
      · exact ⟨_, List.suffix_refl _, h⟩
      · exact ⟨entered, hsuffix.trans (List.suffix_cons _ _), h⟩
    · rintro ⟨entered, hsuffix, h⟩
      obtain rfl | hsuffix := List.suffix_cons_iff.mp hsuffix
      · exact .inl h
      · exact .inr ⟨entered, hsuffix, h⟩

end

end Stela.Flow
