import Stela.Flow.Paths

/-!
# What happens along a path

The expressions that a path evaluates and the declarations that it executes, in order. A path may be cut at
any statement (`none`), so that every point of a body lies on some path. Declarations are identified by
the position of their statement in the body; `runs_iff_exec` says that the paths are those of `Exec`.
-/

namespace Stela.Flow

open Stela.Syntax

/-- The position of a statement in a body, the innermost index first. -/
abbrev Position := List ℕ

inductive Event (ε : Type) where
  | eval (expr : ε)
  | declare (pos : Position)

variable {ε : Type}

def asgnEvents (pos : Position) : Asgn ε → List (Event ε)
  | .compAssign dst _ src | .assign dst src => [.eval dst, .eval src]
  | .incrDecr expr _ => [.eval expr]
  | .declAssign _ expr => [.eval expr, .declare pos]
  | .callAssign call => [.eval call]

def optAsgnEvents (pos : Position) : Option (Asgn ε) → List (Event ε)
  | none => []
  | some asgn => asgnEvents pos asgn

def declEvents (pos : Position) : Decl ε → List (Event ε)
  | .var _ _ none => [.declare pos]
  | .var _ _ (some expr) | .let_ _ _ expr => [.eval expr, .declare pos]
  | .typeAlias _ _ _ => []

def optEvents : Option ε → List (Event ε)
  | none => []
  | some expr => [.eval expr]

/-- The comparisons with the cases of a switch, in order. -/
def checkEvents (cases : List (SwitchCase ε)) : List (Event ε) :=
  cases.flatMap fun c ↦ optEvents c.expr

/-- How a loop is left when its body is left in a way that does not iterate. -/
def leaveLoop : Option Outcome → Option Outcome
  | none => none
  | some .returns => some .returns
  | some _ => some .falls

/-- The outcome makes the loop go on. -/
def iterates : Option Outcome → Bool
  | none => false
  | some o => o.iterates

mutual

/-- Some path through the statement at the position has these events and leaves it in the given way. -/
inductive Runs : Position → Stat ε → List (Event ε) → Option Outcome → Prop where
  | stop {pos s} : Runs pos s [] none
  | block {pos nodes t o} : RunsNodes pos 0 nodes t o → Runs pos (.block nodes) t o
  | fiBody {pos cond body elseBody t o} :
      Runs (0 :: pos) body t o → Runs pos (.fi cond body elseBody) (.eval cond :: t) o
  | fiElse {pos cond body elseBody t o} :
      Runs (1 :: pos) elseBody t o → Runs pos (.fi cond body (some elseBody)) (.eval cond :: t) o
  | fiSkip {pos cond body} : Runs pos (.fi cond body none) [.eval cond] (some .falls)
  | swichCut {pos expr cases alwaysReturns t} :
      t <+: .eval expr :: checkEvents cases → Runs pos (.swich expr cases alwaysReturns) t none
  | swichCase {pos expr before value body after alwaysReturns t o} :
      RunsFrom pos before.length (.mk (some value) body :: after) t o →
      Runs pos (.swich expr (before ++ .mk (some value) body :: after) alwaysReturns)
        (.eval expr :: (checkEvents before ++ .eval value :: t)) o
  | swichDefault {pos expr before body after alwaysReturns t o} :
      RunsFrom pos before.length (.mk none body :: after) t o →
      Runs pos (.swich expr (before ++ .mk none body :: after) alwaysReturns)
        (.eval expr :: (checkEvents (before ++ .mk none body :: after) ++ t)) o
  | swichSkip {pos expr cases alwaysReturns} :
      hasDefault cases = false →
      Runs pos (.swich expr cases alwaysReturns) (.eval expr :: checkEvents cases) (some .falls)
  | terminate {pos} : Runs pos .terminate [] (some .falls)
  | brake {pos} : Runs pos .brake [] (some .breaks)
  | continu {pos} : Runs pos .continu [] (some .continues)
  | ret {pos expr} : Runs pos (.ret expr) (optEvents expr) (some .returns)
  | wile {pos cond body t o} : RunsLoop cond [] (0 :: pos) body t o → Runs pos (.wile cond body) t o
  | four {pos init cond incr body t o} :
      RunsLoop cond (optAsgnEvents (1 :: pos) incr) (2 :: pos) body t o →
      Runs pos (.four init cond incr body) (optAsgnEvents (0 :: pos) init ++ t) o
  | decl {pos decl} : Runs pos (.decl decl) (declEvents pos decl) (some .falls)
  | asgn {pos asgn} : Runs pos (.asgn asgn) (asgnEvents pos asgn) (some .falls)

/-- Paths through the statements of a block, the first of them at the given index. -/
inductive RunsNodes : Position → ℕ → List (Stat ε) → List (Event ε) → Option Outcome → Prop where
  | nil {pos i} : RunsNodes pos i [] [] (some .falls)
  | leave {pos i node nodes t o} : Runs (i :: pos) node t o → o ≠ some .falls → RunsNodes pos i (node :: nodes) t o
  | next {pos i node nodes t t' o} :
      Runs (i :: pos) node t (some .falls) → RunsNodes pos (i + 1) nodes t' o →
      RunsNodes pos i (node :: nodes) (t ++ t') o

/-- Paths through a switch whose entered case is the first of the list. -/
inductive RunsFrom : Position → ℕ → List (SwitchCase ε) → List (Event ε) → Option Outcome → Prop where
  | leave {pos i expr body cases t o} :
      Runs (i :: pos) body t o → o ≠ some .continues → RunsFrom pos i (.mk expr body :: cases) t (leaveLoop o)
  | next {pos i expr body cases t t' o} :
      Runs (i :: pos) body t (some .continues) → RunsFrom pos (i + 1) cases t' o →
      RunsFrom pos i (.mk expr body :: cases) (t ++ t') o

/-- Paths through a loop; `incr` is what happens between two iterations. -/
inductive RunsLoop : ε → List (Event ε) → Position → Stat ε → List (Event ε) → Option Outcome → Prop where
  | cut {cond incr pos body} : RunsLoop cond incr pos body [] none
  | done {cond incr pos body} : RunsLoop cond incr pos body [.eval cond] (some .falls)
  | leave {cond incr pos body t o} :
      Runs pos body t o → iterates o = false → RunsLoop cond incr pos body (.eval cond :: t) (leaveLoop o)
  | next {cond incr pos body t t' o o'} :
      Runs pos body t o → iterates o = true → RunsLoop cond incr pos body t' o' →
      RunsLoop cond incr pos body (.eval cond :: (t ++ (incr ++ t'))) o'

end

/-- The declarations that the events execute. -/
def declared : List (Event ε) → List Position
  | [] => []
  | .eval _ :: t => declared t
  | .declare pos :: t => pos :: declared t

@[simp] theorem declared_append (t t' : List (Event ε)) : declared (t ++ t') = declared t ++ declared t' := by
  induction t with
  | nil => rfl
  | cons event t ih => cases event <;> simp [declared, ih]

/-! ## The same paths -/

/-- The induction over the iterations of a loop. -/
@[elab_as_elim] theorem runsLoop_induct {cond : ε} {incr : List (Event ε)} {pos : Position} {body : Stat ε}
    {motive : List (Event ε) → Option Outcome → Prop} (cut : motive [] none) (done : motive [.eval cond] (some .falls))
    (leave : ∀ t o, Runs pos body t o → iterates o = false → motive (.eval cond :: t) (leaveLoop o))
    (next : ∀ t t' o o', Runs pos body t o → iterates o = true → motive t' o' →
      motive (.eval cond :: (t ++ (incr ++ t'))) o') :
    {t : List (Event ε)} → {o : Option Outcome} → RunsLoop cond incr pos body t o → motive t o
  | _, _, .cut => cut
  | _, _, .done => done
  | _, _, .leave hbody hiterates => leave _ _ hbody hiterates
  | _, _, .next hbody hiterates hrest => next _ _ _ _ hbody hiterates (runsLoop_induct cut done leave next hrest)

theorem runsLoop_leaves {cond : ε} {incr : List (Event ε)} {pos : Position} {body : Stat ε} {t : List (Event ε)}
    {left : Option Outcome} (h : RunsLoop cond incr pos body t left) :
    ∀ o, left = some o → o = .falls ∨ (o = .returns ∧ ∃ t, Runs pos body t (some .returns)) := by
  refine runsLoop_induct ?_ ?_ (fun t o' hbody hiterates ↦ ?_) (fun _ _ _ _ _ _ ih ↦ ?_) h
  · intro o h
    cases h
  · intro o h
    cases h
    exact .inl rfl
  · intro o h
    match o', h with
    | some .falls, _ | some .continues, _ => cases hiterates
    | some .breaks, h =>
      cases h
      exact .inl rfl
    | some .returns, h =>
      cases h
      exact .inr ⟨rfl, _, hbody⟩
  · exact ih

/-- However often a loop iterates, it can fall, and it returns exactly when its body can. -/
theorem runsLoop_iff {cond : ε} {incr : List (Event ε)} {pos : Position} {body : Stat ε} {o : Outcome} :
    (∃ t, RunsLoop cond incr pos body t (some o)) ↔
      o = .falls ∨ (o = .returns ∧ ∃ t, Runs pos body t (some .returns)) := by
  constructor
  · rintro ⟨t, h⟩
    exact runsLoop_leaves h o rfl
  · rintro (rfl | ⟨rfl, t, h⟩)
    · exact ⟨_, .done⟩
    · exact ⟨_, .leave h rfl⟩

theorem execLoop_iff_exec {body : Stat ε} {o : Outcome} :
    ExecLoop body o ↔ o = .falls ∨ (o = .returns ∧ Exec body .returns) := by
  rw [execLoop_iff (may_iff body), Bool.or_eq_true, Bool.and_eq_true, beq_iff_eq, beq_iff_eq, may_iff]

theorem runs_swich_iff {pos : Position} {expr : ε} {cases : List (SwitchCase ε)} {alwaysReturns : Bool} {o : Outcome} :
    (∃ t, Runs pos (.swich expr cases alwaysReturns) t (some o)) ↔
      (∃ before entered t, cases = before ++ entered ∧ RunsFrom pos before.length entered t (some o)) ∨
        (o = .falls ∧ hasDefault cases = false) := by
  constructor
  · rintro ⟨t, h⟩
    cases h with
    | swichCase h | swichDefault h => exact .inl ⟨_, _, _, rfl, h⟩
    | swichSkip h => exact .inr ⟨rfl, h⟩
  · rintro (⟨before, entered, t, rfl, h⟩ | ⟨rfl, h⟩)
    · match entered, h with
      | .mk (some value) body :: after, h => exact ⟨_, .swichCase h⟩
      | .mk none body :: after, h => exact ⟨_, .swichDefault h⟩
    · exact ⟨_, .swichSkip h⟩

mutual

/-- A path leaves the statement in some way if and only if `Exec` says that one can. -/
theorem runs_iff_exec : (s : Stat ε) → (pos : Position) → (o : Outcome) →
    ((∃ t, Runs pos s t (some o)) ↔ Exec s o)
  | .block nodes, pos, o => by
    rw [show Exec (.block nodes) o ↔ ExecNodes nodes o from ⟨fun h ↦ by cases h with | block h => exact h, .block⟩,
      ← runsNodes_iff_exec nodes pos 0 o]
    exact ⟨fun ⟨t, h⟩ ↦ by cases h with | block h => exact ⟨t, h⟩, fun ⟨t, h⟩ ↦ ⟨t, .block h⟩⟩
  | .fi cond body none, pos, o => by
    constructor
    · rintro ⟨t, h⟩
      cases h with
      | fiBody h => exact .fiBody ((runs_iff_exec body _ o).mp ⟨_, h⟩)
      | fiSkip => exact .fiSkip
    · intro h
      cases h with
      | fiBody h =>
        obtain ⟨t, h⟩ := (runs_iff_exec body (0 :: pos) o).mpr h
        exact ⟨_, .fiBody h⟩
      | fiSkip => exact ⟨_, .fiSkip⟩
  | .fi cond body (some elseBody), pos, o => by
    constructor
    · rintro ⟨t, h⟩
      cases h with
      | fiBody h => exact .fiBody ((runs_iff_exec body _ o).mp ⟨_, h⟩)
      | fiElse h => exact .fiElse ((runs_iff_exec elseBody _ o).mp ⟨_, h⟩)
    · intro h
      cases h with
      | fiBody h =>
        obtain ⟨t, h⟩ := (runs_iff_exec body (0 :: pos) o).mpr h
        exact ⟨_, .fiBody h⟩
      | fiElse h =>
        obtain ⟨t, h⟩ := (runs_iff_exec elseBody (1 :: pos) o).mpr h
        exact ⟨_, .fiElse h⟩
  | .swich expr cases alwaysReturns, pos, o => by
    rw [runs_swich_iff]
    constructor
    · rintro (⟨before, entered, t, hcases, h⟩ | ⟨rfl, h⟩)
      · have hsuffix : entered <:+ cases := ⟨before, hcases.symm⟩
        exact .swichCase hsuffix ((runsFrom_iff_exec cases entered hsuffix pos _ o).mp ⟨t, h⟩)
      · exact .swichSkip h
    · intro h
      cases h with
      | @swichCase _ _ _ entered _ hsuffix h =>
        obtain ⟨before, hcases⟩ := hsuffix
        obtain ⟨t, h⟩ := (runsFrom_iff_exec cases entered ⟨before, hcases⟩ pos before.length o).mpr h
        exact .inl ⟨before, entered, t, hcases.symm, h⟩
      | swichSkip h => exact .inr ⟨rfl, h⟩
  | .terminate, pos, o => ⟨fun ⟨_, h⟩ ↦ by cases h; exact .terminate, fun h ↦ by cases h; exact ⟨_, .terminate⟩⟩
  | .brake, pos, o => ⟨fun ⟨_, h⟩ ↦ by cases h; exact .brake, fun h ↦ by cases h; exact ⟨_, .brake⟩⟩
  | .continu, pos, o => ⟨fun ⟨_, h⟩ ↦ by cases h; exact .continu, fun h ↦ by cases h; exact ⟨_, .continu⟩⟩
  | .ret expr, pos, o => ⟨fun ⟨_, h⟩ ↦ by cases h; exact .ret, fun h ↦ by cases h; exact ⟨_, .ret⟩⟩
  | .wile cond body, pos, o => by
    rw [show Exec (.wile cond body) o ↔ ExecLoop body o from ⟨fun h ↦ by cases h with | wile h => exact h, .wile⟩,
      execLoop_iff_exec, ← runs_iff_exec body (0 :: pos) .returns, ← runsLoop_iff]
    exact ⟨fun ⟨t, h⟩ ↦ by cases h with | wile h => exact ⟨t, h⟩, fun ⟨t, h⟩ ↦ ⟨t, .wile h⟩⟩
  | .four init cond incr body, pos, o => by
    rw [show Exec (.four init cond incr body) o ↔ ExecLoop body o from
        ⟨fun h ↦ by cases h with | four h => exact h, .four⟩,
      execLoop_iff_exec, ← runs_iff_exec body (2 :: pos) .returns, ← runsLoop_iff]
    exact ⟨fun ⟨t, h⟩ ↦ by cases h with | four h => exact ⟨_, h⟩, fun ⟨t, h⟩ ↦ ⟨_, .four h⟩⟩
  | .decl decl, pos, o => ⟨fun ⟨_, h⟩ ↦ by cases h; exact .decl, fun h ↦ by cases h; exact ⟨_, .decl⟩⟩
  | .asgn asgn, pos, o => ⟨fun ⟨_, h⟩ ↦ by cases h; exact .asgn, fun h ↦ by cases h; exact ⟨_, .asgn⟩⟩

theorem runsNodes_iff_exec : (nodes : List (Stat ε)) → (pos : Position) → (i : ℕ) → (o : Outcome) →
    ((∃ t, RunsNodes pos i nodes t (some o)) ↔ ExecNodes nodes o)
  | [], pos, i, o => ⟨fun ⟨_, h⟩ ↦ by cases h; exact .nil, fun h ↦ by cases h; exact ⟨_, .nil⟩⟩
  | node :: nodes, pos, i, o => by
    constructor
    · rintro ⟨t, h⟩
      cases h with
      | leave h hne =>
        exact .leave ((runs_iff_exec node _ o).mp ⟨_, h⟩) fun heq ↦ hne (congrArg some heq)
      | next h hrest =>
        exact .next ((runs_iff_exec node _ .falls).mp ⟨_, h⟩) ((runsNodes_iff_exec nodes _ _ o).mp ⟨_, hrest⟩)
    · intro h
      cases h with
      | leave h hne =>
        obtain ⟨t, h⟩ := (runs_iff_exec node (i :: pos) o).mpr h
        exact ⟨t, .leave h fun heq ↦ hne (Option.some.inj heq)⟩
      | next h hrest =>
        obtain ⟨t, h⟩ := (runs_iff_exec node (i :: pos) .falls).mpr h
        obtain ⟨t', hrest⟩ := (runsNodes_iff_exec nodes pos (i + 1) o).mpr hrest
        exact ⟨t ++ t', .next h hrest⟩

theorem runsFrom_iff_exec : (cases entered : List (SwitchCase ε)) → entered <:+ cases → (pos : Position) →
    (i : ℕ) → (o : Outcome) → ((∃ t, RunsFrom pos i entered t (some o)) ↔ ExecFrom entered o)
  | [], entered, hsuffix, pos, i, o => by
    obtain rfl := List.suffix_nil.mp hsuffix
    constructor
    · rintro ⟨t, h⟩
      cases h
    · intro h
      cases h
  | .mk expr body :: cases, entered, hsuffix, pos, i, o => by
    obtain rfl | hsuffix := List.suffix_cons_iff.mp hsuffix
    · constructor
      · rintro ⟨t, h⟩
        generalize hleft : some o = left at h
        cases h with
        | @leave _ _ _ _ _ _ o' h hne =>
          cases o' with
          | none => cases hleft
          | some o' =>
            have hbody := (runs_iff_exec body (i :: pos) o').mp ⟨_, h⟩
            cases o' with
            | falls => cases hleft; exact .falls hbody
            | breaks => cases hleft; exact .breaks hbody
            | returns => cases hleft; exact .returns hbody
            | continues => exact absurd rfl hne
        | next h hrest =>
          cases hleft
          exact .next ((runs_iff_exec body _ _).mp ⟨_, h⟩)
            ((runsFrom_iff_exec cases cases (List.suffix_refl _) pos _ o).mp ⟨_, hrest⟩)
      · intro h
        cases h with
        | falls h =>
          obtain ⟨t, h⟩ := (runs_iff_exec body (i :: pos) _).mpr h
          exact ⟨t, .leave h nofun⟩
        | breaks h =>
          obtain ⟨t, h⟩ := (runs_iff_exec body (i :: pos) _).mpr h
          exact ⟨t, .leave h nofun⟩
        | returns h =>
          obtain ⟨t, h⟩ := (runs_iff_exec body (i :: pos) _).mpr h
          exact ⟨t, .leave h nofun⟩
        | next h hrest =>
          obtain ⟨t, h⟩ := (runs_iff_exec body (i :: pos) _).mpr h
          obtain ⟨t', hrest⟩ := (runsFrom_iff_exec cases cases (List.suffix_refl _) pos (i + 1) o).mpr hrest
          exact ⟨t ++ t', .next h hrest⟩
    · exact runsFrom_iff_exec cases entered hsuffix pos i o

end

end Stela.Flow
