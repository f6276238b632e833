import Stela.CodeGen.LocalUses

/-!
# Locals are destroyed where they are left

A path through the code of a statement starts with the objects of the scopes alive. It ends with these and the object
that the statement registers, with those that a jump leaves in place, or, after a return, with none. There is one
rule for each form of code, and the rules are put together along the visitor.
-/

namespace Stela.CodeGen.LocalScopes

open Stela.Syntax Stela.Flow Stela.Library
open Stela.Library.Except (bind_eq_ok ite_error_eq_ok)
open Stela.Semantic
open Stela.Semantic.NameResolution hiding visit visitNodes visitCases visitAsgn visitOptAsgn visitDecl
open Stela.Semantic.DefiniteInit hiding clean cleanNodes cleanCases

/-! ## The objects of scopes -/

section Scopes

variable {ε : Type} (dtor : Position → Bool)

/-- The objects of a scope that have destructors, the last one first. -/
def owned (scope : List Position) : List Position :=
  scope.reverse.filter dtor

/-- The objects that have destructors, in the order in which they are destroyed. -/
def alive (scopes : Scopes) : List Position :=
  scopes.flatMap (owned dtor)

/-- The scopes that a jump to the given index leaves in place. -/
def keep (index : ℕ) (scopes : Scopes) : Scopes :=
  scopes.drop (scopes.length - index)

variable {dtor} {index : ℕ} {head : List Position} {outer scopes : Scopes}

@[simp] theorem alive_cons : alive dtor (head :: scopes) = owned dtor head ++ alive dtor scopes :=
  List.flatMap_cons

@[simp] theorem owned_nil : owned dtor [] = [] := rfl

theorem keep_cons (h : index ≤ outer.length) : keep index (head :: outer) = keep index outer := by
  have hlength : (head :: outer).length - index = outer.length - index + 1 := by
    rw [List.length_cons]
    omega
  rw [keep, hlength, List.drop_succ_cons, keep]

theorem keep_length : keep scopes.length (head :: scopes) = scopes := by
  rw [keep_cons (Nat.le_refl _), keep, Nat.sub_self, List.drop_zero]

theorem keep_zero : keep 0 scopes = [] :=
  List.drop_length

theorem steps_append (actions actions' : List (Action (List Use))) :
    steps dtor (actions ++ actions') = steps dtor actions ++ steps dtor actions' := by
  induction actions with
  | nil => rfl
  | cons action actions ih => cases action <;> grind [steps]

theorem steps_destroys (objs : List Position) : steps dtor (objs.map .destroy) = (objs.filter dtor).map .destroy := by
  induction objs with
  | nil => rfl
  | cons obj objs ih => grind [steps]

/-- What `destroy` emits ends the lifetimes of the scopes that are left, and of no other. -/
theorem run_destroy (dtor : Position → Bool) (index : ℕ) (scopes : Scopes) :
    Lifetimes.run (steps dtor (destroy index scopes)) (alive dtor scopes) = some (alive dtor (keep index scopes)) := by
  have hobjects : (objects index scopes).filter dtor = alive dtor (scopes.take (scopes.length - index)) := by
    rw [objects, alive, List.filter_flatMap]
    rfl
  have halive : alive dtor scopes = alive dtor (scopes.take (scopes.length - index)) ++ alive dtor (keep index scopes) := by
    rw [alive, alive, alive, keep, ← List.flatMap_append, List.take_append_drop]
  rw [destroy, steps_destroys, hobjects, halive]
  exact Lifetimes.run_destroys _ _

theorem actions_append (t t' : List (Event (List (Action ε)))) : actions (t ++ t') = actions t ++ actions t' := by
  induction t with
  | nil => rfl
  | cons event t ih => cases event <;> simp [actions, ih]

end Scopes

/-! ## Rules for the forms of code -/

/-- What lives at the end of a path, which may be cut. -/
def Left (falls jumps : List Position) : Option Outcome → List Position → Prop
  | none, _ => True
  | some .falls, live => live = falls
  | some .breaks, live | some .continues, live => live = jumps
  | some .returns, live => live = []

/-- Along the events the objects keep the order of their lifetimes. -/
def Ends (dtor : Position → Bool) (start falls jumps : List Position) (t : List (Event (List (Action (List Use)))))
    (o : Option Outcome) : Prop :=
  ∃ live, Lifetimes.run (steps dtor (actions t)) start = some live ∧ Left falls jumps o live

def Holds (dtor : Position → Bool) (start falls jumps : List Position) (code : Code (List Use)) : Prop :=
  ∀ pos t o, Runs pos code t o → Ends dtor start falls jumps t o

def HoldsNodes (dtor : Position → Bool) (start falls jumps : List Position) (codes : List (Code (List Use))) : Prop :=
  ∀ pos i t o, RunsNodes pos i codes t o → Ends dtor start falls jumps t o

/-- Nothing but uses of what lives. -/
def Reads (dtor : Position → Bool) (live : List Position) (t : List (Event (List (Action (List Use))))) : Prop :=
  ∀ step ∈ steps dtor (actions t), ∃ objs ⊆ live, step = .use objs

section Rules

variable {dtor : Position → Bool} {start mid falls falls' jumps jumps' : List Position}
  {t t' : List (Event (List (Action (List Use))))} {o : Option Outcome} {code : Code (List Use)}
  {codes : List (Code (List Use))} {code' : List (Action (List Use))}

theorem Ends.cut : Ends dtor start falls jumps [] none :=
  ⟨start, rfl, trivial⟩

theorem Ends.append (h : Lifetimes.run (steps dtor (actions t)) start = some mid)
    (h' : Ends dtor mid falls jumps t' o) : Ends dtor start falls jumps (t ++ t') o := by
  obtain ⟨live, hrun, hleft⟩ := h'
  refine ⟨live, ?_, hleft⟩
  rw [actions_append, steps_append]
  exact Lifetimes.run_append_of h hrun

theorem Ends.eval (h : Lifetimes.run (steps dtor code') start = some mid) (h' : Ends dtor mid falls jumps t o) :
    Ends dtor start falls jumps (.eval code' :: t) o := by
  have hrun : Lifetimes.run (steps dtor (actions [.eval code'])) start = some mid := by
    rwa [actions, actions, List.append_nil]
  exact Ends.append hrun h'

theorem Ends.run_eq (h : Ends dtor start falls jumps t (some .falls)) :
    Lifetimes.run (steps dtor (actions t)) start = some falls := by
  obtain ⟨live, hrun, rfl⟩ := h
  exact hrun

theorem Ends.leave (h : Ends dtor start falls jumps t o) (ho : o ≠ some .falls) : Ends dtor start falls' jumps t o := by
  obtain ⟨live, hrun, hleft⟩ := h
  refine ⟨live, hrun, ?_⟩
  match o, ho, hleft with
  | none, _, _ => trivial
  | some .breaks, _, hleft | some .continues, _, hleft | some .returns, _, hleft => exact hleft

theorem Ends.run_iterates (h : Ends dtor start start start t o) (ho : iterates o = true) :
    Lifetimes.run (steps dtor (actions t)) start = some start := by
  obtain ⟨live, hrun, hleft⟩ := h
  match o, ho, hleft with
  | some .falls, _, hleft | some .continues, _, hleft => exact hleft ▸ hrun

theorem Reads.run_eq (h : Reads dtor start t) : Lifetimes.run (steps dtor (actions t)) start = some start :=
  Lifetimes.run_uses h

theorem Reads.append (h : Reads dtor start t) (h' : Reads dtor start t') : Reads dtor start (t ++ t') := by
  intro step hstep
  rw [actions_append, steps_append] at hstep
  exact (List.mem_append.mp hstep).elim (h step) (h' step)

theorem Reads.take (h : Reads dtor start t') (hpre : t <+: t') : Reads dtor start t := by
  obtain ⟨rest, rfl⟩ := hpre
  intro step hstep
  apply h step
  rw [actions_append, steps_append]
  exact List.mem_append_left _ hstep

theorem reads_eval {uses : List Use} (h : Covers dtor start uses) : Reads dtor start [.eval [.eval uses]] := by
  intro step hstep
  obtain rfl := List.mem_singleton.mp hstep
  exact ⟨_, h, rfl⟩

theorem reads_start {uses : List Use} {obj : Position} (h : Covers dtor start uses) (hobj : dtor obj = false) :
    Reads dtor start [.eval [.eval uses, .start obj]] := by
  intro step hstep
  apply reads_eval h
  simpa [actions, steps, hobj] using hstep

theorem holds_act (h : Lifetimes.run (steps dtor code') start = some falls) :
    Holds dtor start falls jumps (act code') := by
  intro pos t o hruns
  cases hruns with
  | stop => exact .cut
  | asgn => exact Ends.eval h ⟨falls, rfl, rfl⟩

theorem holds_ret (h : Lifetimes.run (steps dtor code') start = some []) :
    Holds dtor start falls jumps (.ret (some code')) := by
  intro pos t o hruns
  cases hruns with
  | stop => exact .cut
  | ret => exact Ends.eval h ⟨[], rfl, rfl⟩

theorem holdsNodes_nil : HoldsNodes dtor start start jumps [] := by
  intro pos i t o hruns
  cases hruns with
  | nil => exact ⟨start, rfl, rfl⟩

theorem holdsNodes_cons (h : Holds dtor start mid jumps code) (h' : HoldsNodes dtor mid falls jumps codes) :
    HoldsNodes dtor start falls jumps (code :: codes) := by
  intro pos i t o hruns
  cases hruns with
  | leave hnode ho => exact (h _ _ _ hnode).leave ho
  | next hnode hnodes => exact .append (h _ _ _ hnode).run_eq (h' _ _ _ _ hnodes)

theorem holds_block (h : HoldsNodes dtor start falls jumps codes) : Holds dtor start falls jumps (.block codes) := by
  intro pos t o hruns
  cases hruns with
  | stop => exact .cut
  | block hnodes => exact h _ _ _ _ hnodes

/-- A jump, after what it leaves is destroyed. -/
theorem holds_jump {jump : Code (List Use)} (hjump : jump = .brake ∨ jump = .continu)
    (h : Lifetimes.run (steps dtor code') start = some jumps) :
    Holds dtor start falls jumps (.block [act code', jump]) := by
  have hholds : Holds dtor jumps falls jumps jump := by
    intro pos t o hruns
    rcases hjump with rfl | rfl <;> cases hruns
    all_goals first | exact .cut | exact ⟨jumps, rfl, rfl⟩
  exact holds_block (holdsNodes_cons (holds_act h) fun pos i t o hruns ↦ by
    cases hruns with
    | leave hnode ho => exact hholds _ _ _ hnode
    | next hnode hnodes => rcases hjump with rfl | rfl <;> cases hnode)

theorem holds_fi {cond : List Use} (hcond : Covers dtor start cond) (hbody : Holds dtor start start jumps code) :
    Holds dtor start start jumps (.fi [.eval cond] code none) := by
  have hrun := (reads_eval hcond).run_eq
  intro pos t o hruns
  cases hruns with
  | stop => exact .cut
  | fiBody hruns => exact .append hrun (hbody _ _ _ hruns)
  | fiSkip => exact .append hrun ⟨start, rfl, rfl⟩

theorem holds_fiElse {cond : List Use} {elseCode : Code (List Use)} (hcond : Covers dtor start cond)
    (hbody : Holds dtor start falls jumps code) (helse : Holds dtor start falls jumps elseCode) :
    Holds dtor start falls jumps (.fi [.eval cond] code (some elseCode)) := by
  have hrun := (reads_eval hcond).run_eq
  intro pos t o hruns
  cases hruns with
  | stop => exact .cut
  | fiBody hruns => exact .append hrun (hbody _ _ _ hruns)
  | fiElse hruns => exact .append hrun (helse _ _ _ hruns)

/-- The iterations of a loop, each of which leaves alive what it started with. -/
theorem ends_loop {cond : List (Action (List Use))} {incr : List (Event (List (Action (List Use))))}
    (hcond : Lifetimes.run (steps dtor cond) start = some start)
    (hincr : Lifetimes.run (steps dtor (actions incr)) start = some start) (hbody : Holds dtor start start start code)
    {pos : Position} {t : List (Event (List (Action (List Use))))} {o : Option Outcome}
    (h : RunsLoop cond incr pos code t o) : Ends dtor start start jumps t o := by
  refine runsLoop_induct .cut (.eval hcond ⟨start, rfl, rfl⟩) (fun t o hruns hiterates ↦ ?_)
    (fun t t' o o' hruns hiterates ih ↦ ?_) h
  · obtain ⟨live, hrun, hleft⟩ := hbody _ _ _ hruns
    refine .eval hcond ⟨live, hrun, ?_⟩
    match o, hiterates, hleft with
    | none, _, _ => trivial
    | some .breaks, _, hleft | some .returns, _, hleft => exact hleft
  · have hnext := (hbody _ _ _ hruns).run_iterates hiterates
    exact .eval hcond (.append hnext (.append hincr ih))

theorem holds_wile {cond : List Use} (hcond : Covers dtor start cond) (hbody : Holds dtor start start start code) :
    Holds dtor start start jumps (.wile [.eval cond] code) := by
  intro pos t o hruns
  cases hruns with
  | stop => exact .cut
  | wile hloop => exact ends_loop (reads_eval hcond).run_eq rfl hbody hloop

theorem holds_four {cond : List Use} (hcond : Covers dtor start cond)
    (hincr : Lifetimes.run (steps dtor code') start = some start) (hbody : Holds dtor start start start code) :
    Holds dtor start start jumps (.four none [.eval cond] (some (.callAssign code')) code) := by
  intro pos t o hruns
  cases hruns with
  | stop => exact .cut
  | four hloop =>
    refine ends_loop (reads_eval hcond).run_eq ?_ hbody hloop
    rwa [optAsgnEvents, asgnEvents, actions, actions, List.append_nil]

/-- The cases that control runs through once one is entered. -/
theorem ends_from : (cases : List (SwitchCase (List (Action (List Use))))) →
    (∀ c ∈ cases, Holds dtor start start start c.body) → {pos : Position} → {i : ℕ} →
      {t : List (Event (List (Action (List Use))))} → {o : Option Outcome} → RunsFrom pos i cases t o →
        Ends dtor start start jumps t o
  | [], _, _, _, _, _, h => nomatch h
  | .mk expr body :: cases, hcases, pos, i, t, o, h => by
    have hbody := hcases _ List.mem_cons_self
    cases h with
    | @leave _ _ _ _ _ _ o hruns ho =>
      obtain ⟨live, hrun, hleft⟩ := hbody _ _ _ hruns
      refine ⟨live, hrun, ?_⟩
      match o, ho, hleft with
      | none, _, _ => trivial
      | some .falls, _, hleft | some .breaks, _, hleft | some .returns, _, hleft => exact hleft
    | next hruns hrest =>
      have hnext := (hbody _ _ _ hruns).run_iterates rfl
      exact .append hnext (ends_from cases (fun c hc ↦ hcases c (List.mem_cons_of_mem _ hc)) hrest)

theorem holds_swich {expr : List (Action (List Use))} {cases : List (SwitchCase (List (Action (List Use))))}
    {mark : Bool} (hexpr : Reads dtor start [.eval expr]) (hchecks : Reads dtor start (checkEvents cases))
    (hcases : ∀ c ∈ cases, Holds dtor start start start c.body) :
    Holds dtor start start jumps (.swich expr cases mark) := by
  have hreads : Reads dtor start (.eval expr :: checkEvents cases) := hexpr.append hchecks
  intro pos t o hruns
  cases hruns with
  | stop => exact .cut
  | swichCut hpre => exact ⟨start, (hreads.take hpre).run_eq, trivial⟩
  | @swichCase _ _ before value body after _ t o hfrom =>
    have hrun : Reads dtor start (.eval expr :: (checkEvents before ++ [.eval value])) := by
      refine hreads.take ⟨checkEvents after, ?_⟩
      simp [checkEvents, SwitchCase.expr, optEvents]
    have hends : Ends dtor start start jumps t o :=
      ends_from _ (fun c hc ↦ hcases c (List.mem_append_right _ hc)) hfrom
    simpa using Ends.append hrun.run_eq hends
  | swichDefault hfrom =>
    exact .append hreads.run_eq (ends_from _ (fun c hc ↦ hcases c (List.mem_append_right _ hc)) hfrom)
  | swichSkip => exact ⟨start, hreads.run_eq, rfl⟩

end Rules

section Leaves

variable {dtor : Position → Bool} {start falls falls' jumps : List Position} {code : Code (List Use)}
  {codes : List (Code (List Use))}

/-- What lives at the end does not matter where control does not get there. -/
theorem Holds.leave (h : Holds dtor start falls jumps code) (hfalls : may code .falls = false) :
    Holds dtor start falls' jumps code := by
  intro pos t o hruns
  apply (h pos t o hruns).leave
  rintro rfl
  have hmay := (may_iff code .falls).mpr ((runs_iff_exec code pos .falls).mp ⟨t, hruns⟩)
  rw [hfalls] at hmay
  cases hmay

theorem HoldsNodes.leave (h : HoldsNodes dtor start falls jumps codes) (hfalls : mayNodes codes .falls = false) :
    HoldsNodes dtor start falls' jumps codes := by
  intro pos i t o hruns
  apply (h pos i t o hruns).leave
  rintro rfl
  have hmay := (mayNodes_iff codes .falls).mpr ((runsNodes_iff_exec codes pos i .falls).mp ⟨t, hruns⟩)
  rw [hfalls] at hmay
  cases hmay

/-- The code behind code that control does not get past. -/
theorem Holds.nodes (h : Holds dtor start falls jumps code) (hfalls : may code .falls = false) :
    HoldsNodes dtor start falls' jumps (code :: codes) := by
  intro pos i t o hruns
  cases hruns with
  | leave hnode ho => exact (h _ _ _ hnode).leave ho
  | next hnode hnodes =>
    have hmay := (may_iff code .falls).mpr ((runs_iff_exec code _ .falls).mp ⟨_, hnode⟩)
    rw [hfalls] at hmay
    cases hmay

end Leaves

/-! ## The paths of the code -/

section Paths

variable {ε : Type}

theorem mayNodes_jump (code : List (Action ε)) (jump : Code ε) (o : Outcome) (hfalls : may jump .falls = false) :
    may (.block [act code, jump]) o = may jump o := by
  simp only [may, mayNodes, act, hfalls]
  cases o with
  | falls => exact (congrArg (· && false || false) hfalls).trans hfalls.symm
  | breaks | continues | returns => cases may jump _ <;> rfl

mutual

theorem visit_mayCode : (s : Stat ε) → (pos : Position) → (index : ℕ) → (scopes : Scopes) → (o : Outcome) →
    may (visit s pos index scopes).1 o = may s o
  | .block nodes, pos, index, scopes, o => visitNodes_mayCode nodes pos 0 index ([] :: scopes) o
  | .fi _ body none, pos, index, scopes, o => by
    rw [visit, may, may, visit_mayCode body (0 :: pos) index scopes o]
  | .fi _ body (some elseBody), pos, index, scopes, o => by
    rw [visit, may, may, visit_mayCode body (0 :: pos) index scopes o, visit_mayCode elseBody (1 :: pos) index _ o]
  | .swich _ cases _, pos, index, scopes, o => by
    obtain ⟨-, hcases, hdefault⟩ := visitCases_mayCode cases pos 0 ([] :: scopes).length ([] :: scopes) o
    rw [visit, may, may, hcases, hdefault]
  | .terminate, _, _, _, o | .decl _, _, _, _, o | .asgn _, _, _, _, o => rfl
  | .brake, _, _, _, o | .continu, _, _, _, o => mayNodes_jump _ _ o rfl
  | .ret _, _, _, _, o => rfl
  | .wile _ body, pos, index, scopes, o => by
    rw [visit, may, may, visit_mayCode body (0 :: pos) scopes.length ([] :: scopes) .returns]
  | .four init _ _ body, pos, index, scopes, o => by
    have hbody := visit_mayCode body (2 :: pos) (visitOptAsgn init (0 :: pos) ([] :: scopes)).2.length
      ([] :: (visitOptAsgn init (0 :: pos) ([] :: scopes)).2) .returns
    simp only [visit, may, mayNodes, act, hbody]
    cases o <;> cases may body .returns <;> rfl

theorem visitNodes_mayCode : (nodes : List (Stat ε)) → (pos : Position) → (i index : ℕ) → (scopes : Scopes) →
    (o : Outcome) → mayNodes (visitNodes nodes pos i index scopes).1 o = mayNodes nodes o
  | [], _, _, _, _, _ => rfl
  | node :: nodes, pos, i, index, scopes, o => by
    rw [visitNodes, mayNodes, mayNodes, visit_mayCode node (i :: pos) index scopes o,
      visit_mayCode node (i :: pos) index scopes .falls, visitNodes_mayCode nodes pos (i + 1) index _ o]

theorem visitCases_mayCode : (cases : List (SwitchCase ε)) → (pos : Position) → (i scope : ℕ) → (scopes : Scopes) →
    (o : Outcome) → mayFrom (visitCases cases pos i scope scopes).1 o = mayFrom cases o ∧
      mayCases (visitCases cases pos i scope scopes).1 o = mayCases cases o ∧
        hasDefault (visitCases cases pos i scope scopes).1 = hasDefault cases
  | [], _, _, _, _, _ => ⟨rfl, rfl, rfl⟩
  | .mk expr body :: cases, pos, i, scope, scopes, o => by
    have hbody := visit_mayCode body (i :: pos) scope ([] :: scopes)
    obtain ⟨hfrom, hcases, hdefault⟩ := visitCases_mayCode cases pos (i + 1) scope
      (visit body (i :: pos) scope ([] :: scopes)).2.tail o
    refine ⟨?_, ?_, ?_⟩
    · simp only [visitCases, mayFrom, hbody, hfrom]
    · simp only [visitCases, mayCases, hbody, hfrom, hcases]
    · rw [visitCases, hasDefault, List.any_cons, hasDefault, List.any_cons, SwitchCase.expr, SwitchCase.expr,
        Option.isNone_map]
      exact congrArg (expr.isNone || ·) hdefault

end

end Paths

/-! ## What statements register -/

section Registers

variable {ε : Type} {dtor : Position → Bool} {pos : Position} {head : List Position} {outer scopes : Scopes}

theorem insertVar_registers (expr : Option ε) (name : String) :
    ∃ head', (insertVar expr pos (head :: outer)).2 = head' :: outer ∧
      owned dtor head' = own dtor (some (name, true)) pos ++ owned dtor head := by
  refine ⟨head ++ [pos], rfl, ?_⟩
  rw [owned, List.reverse_append, List.filter_append]
  congr 1
  exact List.filter_cons.trans (by simp [own])

theorem visitAsgn_registers (asgn : Asgn ε) :
    ∃ head', (visitAsgn asgn pos (head :: outer)).2 = head' :: outer ∧
      owned dtor head' = own dtor (asgnDeclares asgn) pos ++ owned dtor head := by
  cases asgn with
  | declAssign name expr => exact insertVar_registers (some expr) name
  | _ => exact ⟨head, rfl, rfl⟩

theorem visitOptAsgn_registers (dtor : Position → Bool) (pos : Position) (head : List Position) (outer : Scopes)
    (asgn : Option (Asgn ε)) :
    ∃ head', (visitOptAsgn asgn pos (head :: outer)).2 = head' :: outer ∧
      owned dtor head' = own dtor (optAsgnDeclares asgn) pos ++ owned dtor head := by
  cases asgn with
  | none => exact ⟨head, rfl, rfl⟩
  | some asgn => exact visitAsgn_registers asgn

theorem visitDecl_registers (decl : Decl ε) :
    ∃ head', (visitDecl decl pos (head :: outer)).2 = head' :: outer ∧
      owned dtor head' = own dtor (declDeclares decl) pos ++ owned dtor head := by
  cases decl with
  | var name _ expr => exact insertVar_registers expr name
  | let_ name _ expr => exact insertVar_registers (some expr) name
  | typeAlias => exact ⟨head, rfl, rfl⟩

theorem own_inside {decl : Option (String × Bool)} {obj : Position} (h : obj ∈ own dtor decl pos) : pos <:+ obj := by
  rw [own] at h
  split at h
  · exact List.mem_singleton.mp h ▸ List.suffix_refl pos
  · cases h

/-- The code of a `for`, from the scopes after its parts. -/
theorem visit_four {init incr : Option (Asgn ε)} {cond : ε} {body : Stat ε} {index : ℕ}
    {initScopes bodyScopes incrScopes : Scopes} (hinit : (visitOptAsgn init (0 :: pos) ([] :: scopes)).2 = initScopes)
    (hbody : (visit body (2 :: pos) initScopes.length ([] :: initScopes)).2 = bodyScopes)
    (hincr : (visitOptAsgn incr (1 :: pos) bodyScopes.tail).2 = incrScopes) :
    visit (.four init cond incr body) pos index scopes =
      (.block [act (visitOptAsgn init (0 :: pos) ([] :: scopes)).1,
        .four none [.eval cond] (some (.callAssign (visitOptAsgn incr (1 :: pos) bodyScopes.tail).1))
          (visit body (2 :: pos) initScopes.length ([] :: initScopes)).1,
        act (destroy scopes.length incrScopes)], incrScopes.tail) := by
  subst hinit hbody hincr
  rfl

mutual

/-- A statement adds to the innermost scope what it registers, and leaves the other scopes alone. -/
theorem visit_registers (dtor : Position → Bool) : (s : Stat ε) → (pos : Position) → (index : ℕ) → (head : List Position) →
    (outer : Scopes) → ∃ head', (visit s pos index (head :: outer)).2 = head' :: outer ∧
      owned dtor head' = registered dtor s pos ++ owned dtor head
  | .block nodes, pos, index, head, outer => by
    obtain ⟨inner, hinner, -⟩ := visitNodes_registers dtor nodes pos 0 index [] (head :: outer)
    exact ⟨head, congrArg List.tail hinner, rfl⟩
  | .fi _ body none, pos, index, head, outer => visit_registers dtor body (0 :: pos) index head outer
  | .fi _ body (some elseBody), pos, index, head, outer => by
    obtain ⟨head', hbody, howned⟩ := visit_registers dtor body (0 :: pos) index head outer
    obtain ⟨head'', helse, howned'⟩ := visit_registers dtor elseBody (1 :: pos) index head' outer
    refine ⟨head'', ?_, ?_⟩
    · change (visit elseBody (1 :: pos) index (visit body (0 :: pos) index (head :: outer)).2).2 = head'' :: outer
      rw [hbody, helse]
    · rw [howned', howned, registered, List.append_assoc]
  | .swich _ cases _, pos, index, head, outer => by
    have hcases := visitCases_registers cases pos 0 ([] :: head :: outer).length ([] :: head :: outer)
    exact ⟨head, congrArg List.tail hcases, rfl⟩
  | .terminate, _, _, head, _ | .brake, _, _, head, _ | .continu, _, _, head, _ | .ret _, _, _, head, _ => ⟨head, rfl, rfl⟩
  | .wile _ body, pos, _, head, outer => by
    obtain ⟨inner, hinner, -⟩ := visit_registers dtor body (0 :: pos) (head :: outer).length [] (head :: outer)
    exact ⟨head, congrArg List.tail hinner, rfl⟩
  | .four init cond incr body, pos, index, head, outer => by
    obtain ⟨inner, hinit, -⟩ := visitOptAsgn_registers dtor (0 :: pos) [] (head :: outer) init
    obtain ⟨inner', hbody, -⟩ := visit_registers dtor body (2 :: pos) (inner :: head :: outer).length [] (inner :: head :: outer)
    obtain ⟨inner'', hincr, -⟩ := visitOptAsgn_registers dtor (1 :: pos) inner (head :: outer) incr
    exact ⟨head, congrArg Prod.snd (visit_four hinit hbody hincr), rfl⟩
  | .decl decl, pos, _, head, outer => visitDecl_registers decl
  | .asgn asgn, pos, _, head, outer => visitAsgn_registers asgn

theorem visitNodes_registers (dtor : Position → Bool) : (nodes : List (Stat ε)) → (pos : Position) → (i index : ℕ) →
    (head : List Position) → (outer : Scopes) → ∃ head', (visitNodes nodes pos i index (head :: outer)).2 = head' :: outer ∧
      owned dtor head' = registeredNodes dtor nodes pos i ++ owned dtor head
  | [], _, _, _, head, _ => ⟨head, rfl, rfl⟩
  | node :: nodes, pos, i, index, head, outer => by
    obtain ⟨head', hnode, howned⟩ := visit_registers dtor node (i :: pos) index head outer
    obtain ⟨head'', hnodes, howned'⟩ := visitNodes_registers dtor nodes pos (i + 1) index head' outer
    refine ⟨head'', ?_, ?_⟩
    · change (visitNodes nodes pos (i + 1) index (visit node (i :: pos) index (head :: outer)).2).2 = head'' :: outer
      rw [hnode, hnodes]
    · rw [howned', howned, registeredNodes, List.append_assoc]

theorem visitCases_registers : (cases : List (SwitchCase ε)) → (pos : Position) → (i scope : ℕ) → (scopes : Scopes) →
    (visitCases cases pos i scope scopes).2 = scopes
  | [], _, _, _, _ => rfl
  | .mk _ body :: cases, pos, i, scope, scopes => by
    obtain ⟨inner, hbody, -⟩ := visit_registers (fun _ ↦ true) body (i :: pos) scope [] scopes
    change (visitCases cases pos (i + 1) scope (visit body (i :: pos) scope ([] :: scopes)).2.tail).2 = scopes
    rw [hbody, List.tail_cons]
    exact visitCases_registers cases pos (i + 1) scope scopes

end

/-- What a statement registers is declared in it. -/
theorem registered_inside : (s : Stat ε) → (pos : Position) → ∀ obj ∈ registered dtor s pos, pos <:+ obj
  | .decl decl, pos, obj, h => own_inside h
  | .asgn asgn, pos, obj, h => own_inside h
  | .fi _ body none, pos, obj, h => (List.suffix_cons 0 pos).trans (registered_inside body (0 :: pos) obj h)
  | .fi _ body (some elseBody), pos, obj, h => by
    rcases List.mem_append.mp h with h | h
    · exact (List.suffix_cons 1 pos).trans (registered_inside elseBody (1 :: pos) obj h)
    · exact (List.suffix_cons 0 pos).trans (registered_inside body (0 :: pos) obj h)
  | .block _, _, _, h | .swich _ _ _, _, _, h | .terminate, _, _, h | .brake, _, _, h | .continu, _, _, h | .ret _, _, _, h
  | .wile _ _, _, _, h | .four _ _ _ _, _, _, h => nomatch h

theorem registeredNodes_inside : (nodes : List (Stat ε)) → (pos : Position) → (i : ℕ) →
    ∀ obj ∈ registeredNodes dtor nodes pos i, ∃ k, i ≤ k ∧ (k :: pos) <:+ obj
  | [], _, _, _, h => nomatch h
  | node :: nodes, pos, i, obj, h => by
    rcases List.mem_append.mp h with h | h
    · obtain ⟨k, hk, hsuffix⟩ := registeredNodes_inside nodes pos (i + 1) obj h
      exact ⟨k, Nat.le_of_succ_le hk, hsuffix⟩
    · exact ⟨i, Nat.le_refl i, registered_inside node (i :: pos) obj h⟩

end Registers

/-! ## The code of a body -/

/-- No object that lives is declared by a statement at the position or inside it. -/
def Fresh (pos : Position) (live : List Position) : Prop :=
  ∀ obj ∈ live, ¬ pos <:+ obj

section Fresh

variable {pos : Position} {live : List Position}

/-- A position inside two statements of a list is inside one statement. -/
theorem suffix_sibling {k n : ℕ} {obj : Position} (h : (k :: pos) <:+ obj) (h' : (n :: pos) <:+ obj) : k = n := by
  have hsuffix := List.suffix_of_suffix_length_le h h' (Nat.le_refl _)
  exact (List.cons.inj (hsuffix.eq_of_length rfl)).1

theorem Fresh.not_mem (h : Fresh pos live) : pos ∉ live :=
  fun hmem ↦ h pos hmem (List.suffix_refl pos)

theorem Fresh.inner (h : Fresh pos live) (k : ℕ) : Fresh (k :: pos) live :=
  fun obj hobj hsuffix ↦ h obj hobj ((List.suffix_cons k pos).trans hsuffix)

/-- What is declared in a statement is not declared in another one of the same list. -/
theorem Fresh.sibling {objs : List Position} {k n : ℕ} (h : Fresh (k :: pos) live) (hobjs : ∀ obj ∈ objs, (n :: pos) <:+ obj)
    (hne : k ≠ n) : Fresh (k :: pos) (objs ++ live) := by
  intro obj hobj
  rcases List.mem_append.mp hobj with hown | hobj
  · exact fun hsuffix ↦ hne (suffix_sibling hsuffix (hobjs obj hown))
  · exact h obj hobj

end Fresh

section Actions

variable {dtor : Position → Bool} {pos : Position} {live : List Position} {scopes : Scopes}

theorem run_insertVar {expr : Option (List Use)} (name : String) (hexpr : ∀ uses ∈ expr.toList, Covers dtor live uses)
    (hfresh : pos ∉ live) :
    Lifetimes.run (steps dtor (insertVar expr pos scopes).1) live = some (own dtor (some (name, true)) pos ++ live) := by
  have hstart : Lifetimes.run (steps dtor [Action.start pos]) live = some (own dtor (some (name, true)) pos ++ live) := by
    by_cases hdtor : dtor pos = true
    · rw [steps, if_pos hdtor, own, hdtor]
      exact Lifetimes.run_start hfresh
    · rw [steps, if_neg hdtor, own, Bool.eq_false_iff.mpr hdtor]
      rfl
  cases expr with
  | none => exact hstart
  | some uses => exact Lifetimes.run_append_of (Lifetimes.run_use (hexpr uses (List.mem_singleton_self _))) hstart

theorem run_visitAsgn (asgn : Asgn (List Use)) (hexprs : ∀ uses ∈ asgnExprs asgn, Covers dtor live uses)
    (hfresh : pos ∉ live) :
    Lifetimes.run (steps dtor (visitAsgn asgn pos scopes).1) live = some (own dtor (asgnDeclares asgn) pos ++ live) := by
  cases asgn with
  | compAssign dst _ src | assign dst src =>
    have hdst := Lifetimes.run_use (hexprs dst List.mem_cons_self)
    exact Lifetimes.run_append_of hdst (Lifetimes.run_use (hexprs src (List.mem_cons_of_mem _ List.mem_cons_self)))
  | incrDecr expr | callAssign expr => exact Lifetimes.run_use (hexprs expr List.mem_cons_self)
  | declAssign name expr =>
    exact run_insertVar name (fun uses huses ↦ hexprs uses huses) hfresh

theorem run_visitOptAsgn (asgn : Option (Asgn (List Use))) (scopes : Scopes)
    (hexprs : ∀ uses ∈ optAsgnExprs asgn, Covers dtor live uses) (hfresh : pos ∉ live) :
    Lifetimes.run (steps dtor (visitOptAsgn asgn pos scopes).1) live =
      some (own dtor (optAsgnDeclares asgn) pos ++ live) := by
  cases asgn with
  | none => rfl
  | some asgn => exact run_visitAsgn asgn hexprs hfresh

theorem run_visitDecl (decl : Decl (List Use)) (hexprs : ∀ uses ∈ declExprs decl, Covers dtor live uses)
    (hfresh : pos ∉ live) :
    Lifetimes.run (steps dtor (visitDecl decl pos scopes).1) live = some (own dtor (declDeclares decl) pos ++ live) := by
  cases decl with
  | var name _ expr => exact run_insertVar name (by cases expr <;> exact hexprs) hfresh
  | let_ name _ expr => exact run_insertVar name hexprs hfresh
  | typeAlias => rfl

end Actions

section Visit

variable {dtor : Position → Bool} {pos : Position} {visible : List Position}

theorem append_subset {objs live : List Position} (h : visible ⊆ live) : objs ++ visible ⊆ objs ++ live :=
  List.append_subset.mpr ⟨List.subset_append_left _ _, List.Subset.trans h (List.subset_append_right _ _)⟩

/-- The conditions on a statement that has been checked, under which its code destroys what it constructs. -/
structure Ready (dtor : Position → Bool) (s : Stat (List Use)) (pos : Position) (visible : List Position) : Prop where
  closed : closed dtor s pos = true
  shaped : shaped s = true
  inScope : Scoped dtor s pos visible

structure ReadyNodes (dtor : Position → Bool) (nodes : Body) (pos : Position) (i : ℕ) (visible : List Position) : Prop where
  closed : closedNodes dtor nodes pos i = true
  shaped : shapedNodes nodes = true
  inScope : ScopedNodes dtor nodes pos i visible

structure ReadyCases (dtor : Position → Bool) (cases : List (SwitchCase (List Use))) (pos : Position) (i : ℕ)
    (visible : List Position) : Prop where
  closed : closedCases dtor cases pos i = true
  shaped : shapedCases cases = true
  inScope : ScopedCases dtor cases pos i visible

theorem shapedNodes_cases {ε : Type} {node : Stat ε} {nodes : List (Stat ε)} (h : shapedNodes (node :: nodes) = true) :
    (node = .terminate ∧ nodes = []) ∨
      (shaped node = true ∧ shapedNodes nodes = true ∧ terminated (node :: nodes) = terminated nodes) := by
  by_cases hnode : shaped node = true
  · rw [shapedNodes_cons hnode] at h
    refine .inr ⟨hnode, h, ?_⟩
    cases node with
    | terminate => cases hnode
    | _ => cases nodes <;> rfl
  · rw [shapedNodes.eq_def] at h
    split at h
    · next heq => cases heq
    · next heq => exact .inl (List.cons.inj heq)
    · next heq =>
      cases heq
      exact absurd (Bool.and_eq_true_iff.mp h).1 hnode

/-- The code of a first case. -/
theorem visitCases_cons {ε : Type} (expr : Option ε) (body : Stat ε) (cases : List (SwitchCase ε)) (pos : Position) (i : ℕ)
    (scopes : Scopes) : (visitCases (.mk expr body :: cases) pos i scopes.length scopes).1 =
      .mk (expr.map fun expr ↦ [.eval expr]) (visit body (i :: pos) scopes.length ([] :: scopes)).1 ::
        (visitCases cases pos (i + 1) scopes.length scopes).1 := by
  obtain ⟨inner, hinner, -⟩ := visit_registers (fun _ ↦ true) body (i :: pos) scopes.length [] scopes
  change _ :: (visitCases cases pos (i + 1) scopes.length (visit body (i :: pos) scopes.length ([] :: scopes)).2.tail).1 = _
  rw [hinner, List.tail_cons]

/-- The comparisons with the cases of a switch use what lives. -/
theorem visitCases_reads : (cases : List (SwitchCase (List Use))) → {i : ℕ} → ScopedCases dtor cases pos i visible →
    (scopes : Scopes) → visible ⊆ alive dtor scopes →
      Reads dtor (alive dtor scopes) (checkEvents (visitCases cases pos i scopes.length scopes).1)
  | [], _, _, _, _ => fun _ ↦ (absurd · List.not_mem_nil)
  | .mk expr body :: cases, i, h, scopes, hlive => by
    obtain ⟨hexpr, -, hcases⟩ := h
    have hchecks := visitCases_reads cases hcases scopes hlive
    rw [visitCases_cons, checkEvents, List.flatMap_cons]
    cases expr with
    | none => exact hchecks
    | some uses =>
      have huses : Covers dtor visible uses := hexpr uses (List.mem_singleton_self uses)
      exact (reads_eval (huses.mono hlive)).append hchecks

mutual

/-- The paths through the code of a statement keep the order of the lifetimes. -/
theorem visit_holds : (s : Stat (List Use)) → {pos : Position} → {visible : List Position} → Ready dtor s pos visible →
    (index : ℕ) → (head : List Position) → (outer : Scopes) → index ≤ outer.length →
      Fresh pos (alive dtor (head :: outer)) → visible ⊆ alive dtor (head :: outer) →
        Holds dtor (alive dtor (head :: outer)) (registered dtor s pos ++ alive dtor (head :: outer))
          (alive dtor (keep index outer)) (visit s pos index (head :: outer)).1
  | .block nodes, pos, visible, h, index, head, outer, hindex, hfresh, hlive => by
    obtain ⟨hfalls, hclosed⟩ := Bool.and_eq_true_iff.mp h.closed
    have hindex' : index ≤ (head :: outer).length := Nat.le_succ_of_le hindex
    have hnodes := visitNodes_holds nodes ⟨hclosed, h.shaped, h.inScope⟩ index [] (head :: outer) hindex'
      (fun k _ ↦ hfresh.inner k) hlive
    rw [keep_cons hindex] at hnodes
    apply holds_block
    rcases Bool.or_eq_true_iff.mp hfalls with hterminated | hfalls
    · rwa [if_pos hterminated] at hnodes
    · rcases Bool.or_eq_true_iff.mp hfalls with hown | hfalls
      · rwa [List.isEmpty_iff.mp hown, List.nil_append, alive_cons, owned_nil, List.nil_append, ite_self] at hnodes
      · apply hnodes.leave
        rw [visitNodes_mayCode]
        exact (Bool.not_eq_true' _).mp hfalls
  | .fi cond body none, pos, visible, h, index, head, outer, hindex, hfresh, hlive => by
    obtain ⟨hown, hclosed⟩ := Bool.and_eq_true_iff.mp h.closed
    have hbody := visit_holds body ⟨hclosed, h.shaped, h.inScope.2⟩ index head outer hindex (hfresh.inner 0) hlive
    rw [List.isEmpty_iff.mp hown] at hbody
    rw [registered, List.isEmpty_iff.mp hown]
    exact holds_fi (h.inScope.1.mono hlive) hbody
  | .fi cond body (some elseBody), pos, visible, h, index, head, outer, hindex, hfresh, hlive => by
    have hclosed := h.closed
    simp only [closed, Bool.and_eq_true] at hclosed
    obtain ⟨⟨hown, hclosed⟩, hownElse, hclosedElse⟩ := hclosed
    obtain ⟨hcond, hscoped, hscopedElse⟩ := h.inScope
    obtain ⟨hshaped, hshapedElse⟩ := Bool.and_eq_true_iff.mp h.shaped
    have hbody := visit_holds body ⟨hclosed, hshaped, hscoped⟩ index head outer hindex (hfresh.inner 0) hlive
    obtain ⟨head', hregisters, howned⟩ := visit_registers dtor body (0 :: pos) index head outer
    rw [List.isEmpty_iff.mp hown] at hbody howned
    have halive : alive dtor (head' :: outer) = alive dtor (head :: outer) := congrArg (· ++ alive dtor outer) howned
    have helse := visit_holds elseBody ⟨hclosedElse, hshapedElse, hscopedElse hown⟩ index head' outer hindex
      (halive ▸ hfresh.inner 1) (halive ▸ hlive)
    rw [halive, ← hregisters] at helse
    rw [registered, List.isEmpty_iff.mp hown, List.append_nil]
    refine holds_fiElse (hcond.mono hlive) ?_ helse
    rcases Bool.or_eq_true_iff.mp hownElse with hownElse | hfalls
    · rwa [List.isEmpty_iff.mp hownElse]
    · apply hbody.leave
      rw [visit_mayCode]
      exact (Bool.not_eq_true' _).mp hfalls
  | .swich expr cases mark, pos, visible, h, index, head, outer, hindex, hfresh, hlive => by
    obtain ⟨hvalue, hclosed⟩ := Bool.and_eq_true_iff.mp h.closed
    have hcases := visitCases_holds cases ⟨hclosed, h.shaped, h.inScope.2⟩ ([] :: head :: outer) (fun k _ ↦ hfresh.inner k) hlive
    have hchecks := visitCases_reads cases h.inScope.2 ([] :: head :: outer) hlive
    exact holds_swich (reads_start (h.inScope.1.mono hlive) (Bool.not_eq_true' _ |>.mp hvalue)) hchecks hcases
  | .terminate, _, _, h, _, _, _, _, _, _ => nomatch h.shaped
  | .brake, pos, visible, h, index, head, outer, hindex, hfresh, hlive => by
    have hrun := run_destroy dtor index (head :: outer)
    rw [keep_cons hindex] at hrun
    exact holds_jump (.inl rfl) hrun
  | .continu, pos, visible, h, index, head, outer, hindex, hfresh, hlive => by
    have hrun := run_destroy dtor index (head :: outer)
    rw [keep_cons hindex] at hrun
    exact holds_jump (.inr rfl) hrun
  | .ret expr, pos, visible, h, index, head, outer, hindex, hfresh, hlive => by
    have hrun := run_destroy dtor 0 (head :: outer)
    rw [keep_zero] at hrun
    apply holds_ret
    cases expr with
    | none => exact hrun
    | some uses =>
      have huses : Covers dtor visible uses := h.inScope uses (List.mem_singleton_self uses)
      exact Lifetimes.run_append_of (Lifetimes.run_use (huses.mono hlive)) hrun
  | .wile cond body, pos, visible, h, index, head, outer, hindex, hfresh, hlive => by
    obtain ⟨hown, hclosed⟩ := Bool.and_eq_true_iff.mp h.closed
    have hbody := visit_holds body ⟨hclosed, h.shaped, h.inScope.2⟩ (head :: outer).length [] (head :: outer)
      (Nat.le_refl _) (hfresh.inner 0) hlive
    rw [List.isEmpty_iff.mp hown, keep, Nat.sub_self, List.drop_zero] at hbody
    exact holds_wile (h.inScope.1.mono hlive) hbody
  | .four init cond incr body, pos, visible, h, index, head, outer, hindex, hfresh, hlive => by
    have hclosed := h.closed
    simp only [closed, Bool.and_eq_true] at hclosed
    obtain ⟨hownIncr, hown, hclosed⟩ := hclosed
    obtain ⟨hinit, hcond, hincr, hscoped⟩ := h.inScope
    obtain ⟨inner, hregisters, howned⟩ := visitOptAsgn_registers dtor (0 :: pos) [] (head :: outer) init
    obtain ⟨inner', hregistersBody, -⟩ :=
      visit_registers dtor body (2 :: pos) (inner :: head :: outer).length [] (inner :: head :: outer)
    obtain ⟨inner'', hregistersIncr, hownedIncr⟩ := visitOptAsgn_registers dtor (1 :: pos) inner (head :: outer) incr
    have halive : alive dtor (inner :: head :: outer) =
        own dtor (optAsgnDeclares init) (0 :: pos) ++ alive dtor (head :: outer) := by
      rw [alive_cons, howned, owned_nil, List.append_nil]
    have hlive' : own dtor (optAsgnDeclares init) (0 :: pos) ++ visible ⊆ alive dtor (inner :: head :: outer) :=
      halive ▸ append_subset hlive
    have hinside : ∀ obj ∈ own dtor (optAsgnDeclares init) (0 :: pos), (0 :: pos) <:+ obj := fun _ hobj ↦ own_inside hobj
    have hrunInit := run_visitOptAsgn init ([] :: head :: outer) (fun uses huses ↦ (hinit uses huses).mono hlive)
      (hfresh.inner 0).not_mem
    have hrunIncr := run_visitOptAsgn incr (inner :: head :: outer)
      (fun uses huses ↦ (hincr uses huses).mono hlive') (halive ▸ ((hfresh.inner 1).sibling hinside Nat.one_ne_zero)).not_mem
    have hbody := visit_holds body ⟨hclosed, h.shaped, hscoped hownIncr⟩ (inner :: head :: outer).length []
      (inner :: head :: outer) (Nat.le_refl _) (halive ▸ (hfresh.inner 2).sibling hinside (Nat.succ_ne_zero 1)) hlive'
    have hdestroy := run_destroy dtor (head :: outer).length (inner'' :: head :: outer)
    rw [List.isEmpty_iff.mp hownIncr] at hrunIncr hownedIncr
    rw [List.isEmpty_iff.mp hown, keep, Nat.sub_self, List.drop_zero] at hbody
    rw [keep_length, alive_cons, hownedIncr] at hdestroy
    rw [visit_four hregisters hregistersBody hregistersIncr]
    rw [← halive] at hrunInit
    have hloop : Holds dtor _ _ (alive dtor (keep index outer)) _ := holds_four (hcond.mono hlive') hrunIncr hbody
    exact holds_block (holdsNodes_cons (holds_act hrunInit)
      (holdsNodes_cons hloop (holdsNodes_cons (holds_act hdestroy) holdsNodes_nil)))
  | .decl decl, pos, visible, h, index, head, outer, hindex, hfresh, hlive =>
    holds_act (run_visitDecl decl (fun uses huses ↦ (h.inScope uses huses).mono hlive) hfresh.not_mem)
  | .asgn asgn, pos, visible, h, index, head, outer, hindex, hfresh, hlive =>
    holds_act (run_visitAsgn asgn (fun uses huses ↦ (h.inScope uses huses).mono hlive) hfresh.not_mem)

theorem visitNodes_holds : (nodes : Body) → {pos : Position} → {visible : List Position} → {i : ℕ} →
    ReadyNodes dtor nodes pos i visible → (index : ℕ) → (head : List Position) → (outer : Scopes) → index ≤ outer.length →
      (∀ k, i ≤ k → Fresh (k :: pos) (alive dtor (head :: outer))) → visible ⊆ alive dtor (head :: outer) →
        HoldsNodes dtor (alive dtor (head :: outer))
          (if terminated nodes then alive dtor outer else registeredNodes dtor nodes pos i ++ alive dtor (head :: outer))
          (alive dtor (keep index outer)) (visitNodes nodes pos i index (head :: outer)).1
  | [], _, _, _, _, _, _, _, _, _, _ => holdsNodes_nil
  | node :: nodes, pos, visible, i, h, index, head, outer, hindex, hfresh, hlive => by
    obtain ⟨hclosed, hclosedNodes⟩ := Bool.and_eq_true_iff.mp h.closed
    obtain ⟨hscoped, hscopedNodes⟩ := h.inScope
    rcases shapedNodes_cases h.shaped with ⟨rfl, rfl⟩ | ⟨hshaped, hshapedNodes, hterminated⟩
    · have hrun := run_destroy dtor outer.length (head :: outer)
      rw [keep_length] at hrun
      exact holdsNodes_cons (holds_act hrun) holdsNodes_nil
    · have hnode := visit_holds node ⟨hclosed, hshaped, hscoped⟩ index head outer hindex (hfresh i (Nat.le_refl i)) hlive
      rcases Bool.or_eq_true_iff.mp hclosedNodes with hfalls | hclosedNodes
      · apply hnode.nodes
        rw [visit_mayCode]
        exact (Bool.not_eq_true' _).mp hfalls
      · obtain ⟨head', hregisters, howned⟩ := visit_registers dtor node (i :: pos) index head outer
        have halive : alive dtor (head' :: outer) = registered dtor node (i :: pos) ++ alive dtor (head :: outer) := by
          rw [alive_cons, alive_cons, howned, List.append_assoc]
        have hlive' : own dtor (declares node) (i :: pos) ++ visible ⊆ alive dtor (head' :: outer) := by
          rw [halive]
          exact List.append_subset.mpr ⟨List.Subset.trans own_declares_subset (List.subset_append_left _ _),
            List.Subset.trans hlive (List.subset_append_right _ _)⟩
        have hnodes := visitNodes_holds nodes ⟨hclosedNodes, hshapedNodes, hscopedNodes⟩ index head' outer hindex
          (fun k hk ↦ halive ▸ (hfresh k (Nat.le_of_succ_le hk)).sibling (registered_inside node (i :: pos)) (Nat.ne_of_gt hk))
          hlive'
        rw [halive, ← List.append_assoc, ← hterminated, ← hregisters] at hnodes
        exact holdsNodes_cons hnode hnodes

theorem visitCases_holds : (cases : List (SwitchCase (List Use))) → {pos : Position} → {visible : List Position} → {i : ℕ} →
    ReadyCases dtor cases pos i visible → (scopes : Scopes) →
      (∀ k, i ≤ k → Fresh (k :: pos) (alive dtor scopes)) → visible ⊆ alive dtor scopes →
        ∀ c ∈ (visitCases cases pos i scopes.length scopes).1,
          Holds dtor (alive dtor scopes) (alive dtor scopes) (alive dtor scopes) c.body
  | [], _, _, _, _, _, _, _ => fun _ ↦ (absurd · List.not_mem_nil)
  | .mk expr body :: cases, pos, visible, i, h, scopes, hfresh, hlive => by
    have hclosed := h.closed
    simp only [closedCases, Bool.and_eq_true] at hclosed
    obtain ⟨⟨hown, hclosed⟩, hclosedCases⟩ := hclosed
    obtain ⟨-, hscoped, hscopedCases⟩ := h.inScope
    obtain ⟨hshaped, hshapedCases⟩ := Bool.and_eq_true_iff.mp h.shaped
    have hbody := visit_holds body ⟨hclosed, hshaped, hscoped⟩ scopes.length [] scopes (Nat.le_refl _)
      (hfresh i (Nat.le_refl i)) hlive
    rw [List.isEmpty_iff.mp hown, keep, Nat.sub_self, List.drop_zero] at hbody
    have hcases := visitCases_holds cases ⟨hclosedCases, hshapedCases, hscopedCases⟩ scopes
      (fun k hk ↦ hfresh k (Nat.le_of_succ_le hk)) hlive
    rw [visitCases_cons]
    exact List.forall_mem_cons.mpr ⟨hbody, hcases⟩

end

end Visit

/-- A body that is ready destroys each object once for each time it constructs it, and in the reverse order. -/
theorem lifetimesSound_of_closed {dtor : Position → Bool} {nodes : Body} (hclosed : closed dtor (.block nodes) [] = true)
    (hshaped : shapedNodes nodes = true) (hscoped : ScopedNodes dtor nodes [] 0 []) : LifetimesSound dtor nodes := by
  obtain ⟨hfalls, hclosed⟩ := Bool.and_eq_true_iff.mp hclosed
  have hnodes := visitNodes_holds nodes ⟨hclosed, hshaped, hscoped⟩ 0 [] [] (Nat.le_refl 0) (fun _ _ ↦ nofun) nofun
  have hends : HoldsNodes dtor [] [] [] (generateStat nodes) := by
    rcases Bool.or_eq_true_iff.mp hfalls with hterminated | hfalls
    · rwa [if_pos hterminated] at hnodes
    · rcases Bool.or_eq_true_iff.mp hfalls with hown | hfalls
      · have hempty : alive dtor [[]] = alive dtor [] := rfl
        rwa [List.isEmpty_iff.mp hown, List.nil_append, hempty, ite_self] at hnodes
      · apply hnodes.leave
        rw [visitNodes_mayCode]
        exact (Bool.not_eq_true' _).mp hfalls
  intro t o hruns
  obtain ⟨live, hrun, hleft⟩ := hends _ _ t o hruns
  refine ⟨live, hrun, fun ho ↦ ?_⟩
  match o, ho, hleft with
  | none, ho, _ => exact absurd rfl ho
  | some .falls, _, hleft | some .breaks, _, hleft | some .continues, _, hleft | some .returns, _, hleft => exact hleft

end Stela.CodeGen.LocalScopes
