import Stela.CodeGen.LocalPaths

/-!
# Locals that are not destroyed where they are left

Outside of the conditions, some path through the code of a statement breaks the order of the lifetimes, or leaves an
object of the statement alive, or two paths that end the same way leave different objects alive. What runs before the
statement and after it does not repair that, so the body has a path that breaks the order or leaves an object alive.
-/

namespace Stela.CodeGen.LocalScopes

open Stela.Syntax Stela.Flow Stela.Library
open Stela.Semantic
open Stela.Semantic.NameResolution hiding visit visitNodes visitCases visitAsgn visitOptAsgn visitDecl
open Stela.Semantic.DefiniteInit hiding clean cleanNodes cleanCases
open AcceptedJumps (jumps jumpsNodes lastsEndCases)

/-- Paths that end, and how they do. -/
abbrev Paths := List (Event (List (Action (List Use)))) → Outcome → Prop

/-- Something is wrong on the paths, which start with the given objects alive. The objects that may not live at the end
of a path are `stray`. -/
inductive Wrong (dtor : Position → Bool) (paths : Paths) (start : List Position) (stray : Outcome → Position → Prop) :
    Prop where
  | fails {t o} (h : paths t o) (hrun : Lifetimes.run (steps dtor (actions t)) start = none)
  | splits {t t' o live live'} (h : paths t o) (h' : paths t' o)
      (hrun : Lifetimes.run (steps dtor (actions t)) start = some live)
      (hrun' : Lifetimes.run (steps dtor (actions t')) start = some live') (hne : live ≠ live')
  | leaks {t o live obj} (h : paths t o) (hrun : Lifetimes.run (steps dtor (actions t)) start = some live)
      (hmem : obj ∈ live) (hstray : stray o obj)

section Rules

variable {dtor : Position → Bool} {paths paths' : Paths} {start mid : List Position}
  {stray stray' : Outcome → Position → Prop} {pre : List (Event (List (Action (List Use))))}

/-- What is wrong stays so when something runs before it and something after it that destroys no object that is stray. -/
theorem Wrong.extend (h : Wrong dtor paths mid stray) (hpre : Lifetimes.run (steps dtor (actions pre)) start = some mid)
    (hpost : ∀ o, (∃ t, paths t o) → ∃ post o', (∀ t, paths t o → paths' (pre ++ (t ++ post)) o') ∧
      ∀ obj, stray o obj → stray' o' obj ∧ .destroy obj ∉ steps dtor (actions post)) : Wrong dtor paths' start stray' := by
  have hrun : ∀ t post, Lifetimes.run (steps dtor (actions (pre ++ (t ++ post)))) start =
      (Lifetimes.run (steps dtor (actions t)) mid).bind (Lifetimes.run (steps dtor (actions post))) := by
    intro t post
    rw [actions_append, steps_append, actions_append, steps_append, Lifetimes.run_append_of hpre rfl, Lifetimes.run_append]
  cases h with
  | @fails t o h hfails =>
    obtain ⟨post, o', hpaths, -⟩ := hpost o ⟨t, h⟩
    exact .fails (hpaths t h) (by rw [hrun, hfails, Option.bind_none])
  | @splits t t' o live live' h h' hlive hlive' hne =>
    obtain ⟨post, o', hpaths, -⟩ := hpost o ⟨t, h⟩
    have hrun' : ∀ t live, Lifetimes.run (steps dtor (actions t)) mid = some live →
        Lifetimes.run (steps dtor (actions (pre ++ (t ++ post)))) start =
          Lifetimes.run (steps dtor (actions post)) live := by
      intro t live hlive
      rw [hrun, hlive, Option.bind_some]
    cases hresult : Lifetimes.run (steps dtor (actions post)) live with
    | none => exact .fails (hpaths t h) ((hrun' t live hlive).trans hresult)
    | some result =>
      cases hresult' : Lifetimes.run (steps dtor (actions post)) live' with
      | none => exact .fails (hpaths t' h') ((hrun' t' live' hlive').trans hresult')
      | some result' =>
        refine .splits (hpaths t h) (hpaths t' h') ((hrun' t live hlive).trans hresult)
          ((hrun' t' live' hlive').trans hresult') ?_
        rintro rfl
        exact hne (Lifetimes.run_injective hresult hresult')
  | @leaks t o live obj h hlive hmem hstray =>
    obtain ⟨post, o', hpaths, hobjs⟩ := hpost o ⟨t, h⟩
    obtain ⟨hstray, hdestroy⟩ := hobjs obj hstray
    cases hresult : Lifetimes.run (steps dtor (actions post)) live with
    | none => exact .fails (hpaths t h) (by rw [hrun, hlive, Option.bind_some, hresult])
    | some result =>
      exact .leaks (hpaths t h) (by rw [hrun, hlive, Option.bind_some, hresult])
        (Lifetimes.mem_of_run hdestroy hmem hresult) hstray

/-- Nothing runs after it. -/
theorem Wrong.after (h : Wrong dtor paths mid stray) (hpre : Lifetimes.run (steps dtor (actions pre)) start = some mid)
    (hpaths : ∀ t o, paths t o → paths' (pre ++ t) o) (hstray : ∀ o obj, stray o obj → stray' o obj) :
    Wrong dtor paths' start stray' := by
  refine h.extend hpre fun o _ ↦ ⟨[], o, fun t ht ↦ ?_, fun obj hobj ↦ ⟨hstray o obj hobj, List.not_mem_nil⟩⟩
  rw [List.append_nil]
  exact hpaths t o ht

/-- Nothing runs before it. -/
theorem Wrong.before (h : Wrong dtor paths start stray)
    (hpost : ∀ o, (∃ t, paths t o) → ∃ post o', (∀ t, paths t o → paths' (t ++ post) o') ∧
      ∀ obj, stray o obj → stray' o' obj ∧ .destroy obj ∉ steps dtor (actions post)) : Wrong dtor paths' start stray' := by
  have hpre : Lifetimes.run (steps dtor (actions [])) start = some start := rfl
  exact h.extend hpre hpost

theorem Wrong.widen (h : Wrong dtor paths start stray) (hpaths : ∀ t o, paths t o → paths' t o)
    (hstray : ∀ o obj, stray o obj → stray' o obj) : Wrong dtor paths' start stray' := by
  have hpre : Lifetimes.run (steps dtor (actions [])) start = some start := rfl
  exact h.after hpre hpaths hstray

end Rules

/-! ## Paths through the code -/

section Paths

variable {ε : Type} {pos p : Position} {index : ℕ} {scopes : Scopes} {o : Outcome}

theorem runs_of_may {s : Stat ε} (h : may s o = true) : ∃ t, Runs p (visit s pos index scopes).1 t (some o) := by
  rw [← visit_mayCode s pos index scopes, may_iff, ← runs_iff_exec _ p] at h
  exact h

theorem runsNodes_of_may {nodes : List (Stat ε)} {i j : ℕ} (h : mayNodes nodes o = true) :
    ∃ t, RunsNodes p j (visitNodes nodes pos i index scopes).1 t (some o) := by
  rw [← visitNodes_mayCode nodes pos i index scopes, mayNodes_iff, ← runsNodes_iff_exec _ p j] at h
  exact h

theorem exists_runs {s : Stat ε} (h : (jumps s).lastsEnd = true) :
    ∃ t o, Runs p (visit s pos index scopes).1 t (some o) := by
  obtain ⟨o, ho⟩ := exists_may s h
  obtain ⟨t, ht⟩ := runs_of_may ho
  exact ⟨t, o, ht⟩

theorem exists_runsNodes {nodes : List (Stat ε)} {i j : ℕ} (h : (jumpsNodes nodes).lastsEnd = true) :
    ∃ t o, RunsNodes p j (visitNodes nodes pos i index scopes).1 t (some o) := by
  obtain ⟨o, ho⟩ := exists_mayNodes nodes h
  obtain ⟨t, ht⟩ := runsNodes_of_may ho
  exact ⟨t, o, ht⟩

theorem exists_runsFrom {cases : List (SwitchCase ε)} {i j : ℕ} (hne : cases ≠ []) (h : lastsEndCases cases = true) :
    ∃ t o, RunsFrom p j (visitCases cases pos i scopes.length scopes).1 t (some o) := by
  obtain ⟨o, ho⟩ := exists_mayFrom cases hne h
  rw [← (visitCases_mayCode cases pos i scopes.length scopes o).1, mayFrom_iff,
    ← runsFrom_iff_exec _ _ (List.suffix_refl _) p j] at ho
  exact ⟨ho.choose, o, ho.choose_spec⟩

/-- Control may get to the end of a statement that registers a local. -/
theorem may_of_registered {dtor : Position → Bool} : (s : Stat ε) → (pos : Position) → registered dtor s pos ≠ [] →
    may s .falls = true
  | .decl _, _, _ | .asgn _, _, _ => rfl
  | .fi _ body none, pos, h => Bool.or_eq_true_iff.mpr (.inr rfl)
  | .fi _ body (some elseBody), pos, h => by
    rcases not_and_or.mp (mt List.append_eq_nil_iff.mpr h) with h | h
    · exact Bool.or_eq_true_iff.mpr (.inr (may_of_registered elseBody (1 :: pos) h))
    · exact Bool.or_eq_true_iff.mpr (.inl (may_of_registered body (0 :: pos) h))
  | .block _, _, h | .swich _ _ _, _, h | .terminate, _, h | .brake, _, h | .continu, _, h | .ret _, _, h
  | .wile _ _, _, h | .four _ _ _ _, _, h => absurd rfl h

end Paths

/-! ## Statements outside of the conditions -/

section Visit

variable {dtor : Position → Bool} {pos : Position} {visible : List Position}

/-- What holds of every statement that has been checked and whose code can be run through. -/
structure Formed (dtor : Position → Bool) (s : Stat (List Use)) (pos : Position) (visible : List Position) : Prop where
  shaped : shaped s = true
  inScope : Scoped dtor s pos visible
  lastsEnd : (jumps s).lastsEnd = true

structure FormedNodes (dtor : Position → Bool) (nodes : Body) (pos : Position) (i : ℕ) (visible : List Position) : Prop where
  shaped : shapedNodes nodes = true
  inScope : ScopedNodes dtor nodes pos i visible
  lastsEnd : (jumpsNodes nodes).lastsEnd = true

structure FormedCases (dtor : Position → Bool) (cases : List (SwitchCase (List Use))) (pos : Position) (i : ℕ)
    (visible : List Position) : Prop where
  shaped : shapedCases cases = true
  inScope : ScopedCases dtor cases pos i visible
  lastsEnd : lastsEndCases cases = true

/-- An object that a statement declares but does not register in the scope that it stands in. -/
def Stray (dtor : Position → Bool) (s : Stat (List Use)) (pos : Position) (o : Outcome) (obj : Position) : Prop :=
  pos <:+ obj ∧ (o = .falls → obj ∉ registered dtor s pos)

def StrayNodes (dtor : Position → Bool) (nodes : Body) (pos : Position) (i : ℕ) (o : Outcome) (obj : Position) : Prop :=
  (∃ k, i ≤ k ∧ (k :: pos) <:+ obj) ∧ (o = .falls → obj ∉ registeredNodes dtor nodes pos i)

/-- The body of a loop or of a case may not leave alive what it declares. -/
theorem wrong_contained {s : Stat (List Use)} {index : ℕ} {head : List Position} {outer : Scopes} {p : Position}
    (h : Formed dtor s pos visible) (hindex : index ≤ outer.length) (hfresh : Fresh pos (alive dtor (head :: outer)))
    (hlive : visible ⊆ alive dtor (head :: outer))
    (hwrong : closed dtor s pos = false → Wrong dtor (fun t o ↦ Runs p (visit s pos index (head :: outer)).1 t (some o))
      (alive dtor (head :: outer)) (Stray dtor s pos))
    (hcontained : ((registered dtor s pos).isEmpty && closed dtor s pos) = false) :
    Wrong dtor (fun t o ↦ Runs p (visit s pos index (head :: outer)).1 t (some o)) (alive dtor (head :: outer))
      fun _ obj ↦ pos <:+ obj := by
  by_cases hclosed : closed dtor s pos = true
  · rw [hclosed, Bool.and_true, List.isEmpty_eq_false_iff] at hcontained
    obtain ⟨t, ht⟩ := @runs_of_may _ pos p index (head :: outer) .falls s (may_of_registered s pos hcontained)
    have hrun := (visit_holds s ⟨hclosed, h.shaped, h.inScope⟩ index head outer hindex hfresh hlive p t _ ht).run_eq
    obtain ⟨obj, hobj⟩ := List.exists_mem_of_ne_nil _ hcontained
    exact .leaks ht hrun (List.mem_append_left _ hobj) (registered_inside s pos obj hobj)
  · exact (hwrong (Bool.eq_false_iff.mpr hclosed)).widen (fun _ _ ↦ id) fun _ _ hstray ↦ hstray.1

/-- A block that control may leave at its end destroys there what it registers. -/
theorem wrong_block {nodes : Body} {index : ℕ} {outer : Scopes} {p : Position} (h : FormedNodes dtor nodes pos 0 visible)
    (hindex : index ≤ outer.length) (hfresh : ∀ k, 0 ≤ k → Fresh (k :: pos) (alive dtor outer))
    (hlive : visible ⊆ alive dtor outer)
    (hwrong : closedNodes dtor nodes pos 0 = false →
      Wrong dtor (fun t o ↦ RunsNodes p 0 (visitNodes nodes pos 0 index ([] :: outer)).1 t (some o))
        (alive dtor ([] :: outer)) (StrayNodes dtor nodes pos 0))
    (hclosed : closed dtor (.block nodes) pos = false) :
    Wrong dtor (fun t o ↦ RunsNodes p 0 (visitNodes nodes pos 0 index ([] :: outer)).1 t (some o))
      (alive dtor ([] :: outer)) fun _ obj ↦ pos <:+ obj := by
  by_cases hnodes : closedNodes dtor nodes pos 0 = true
  · rw [closed, hnodes, Bool.and_true, Bool.or_eq_false_iff, Bool.or_eq_false_iff, List.isEmpty_eq_false_iff,
      Bool.not_eq_false'] at hclosed
    obtain ⟨hterminated, hregistered, hfalls⟩ := hclosed
    obtain ⟨t, ht⟩ := @runsNodes_of_may _ pos p index ([] :: outer) .falls nodes 0 0 hfalls
    have hrun := (visitNodes_holds nodes ⟨hnodes, h.shaped, h.inScope⟩ index [] outer hindex hfresh hlive p 0 t _ ht).run_eq
    rw [hterminated, if_neg Bool.false_ne_true] at hrun
    obtain ⟨obj, hobj⟩ := List.exists_mem_of_ne_nil _ hregistered
    obtain ⟨k, -, hk⟩ := registeredNodes_inside nodes pos 0 obj hobj
    exact .leaks ht hrun (List.mem_append_left _ hobj) ((List.suffix_cons k pos).trans hk)
  · exact (hwrong (Bool.eq_false_iff.mpr hnodes)).widen (fun _ _ ↦ id)
      fun _ obj ⟨⟨k, _, hk⟩, _⟩ ↦ (List.suffix_cons k pos).trans hk

/-- A second branch is generated as if the first one had been run before it. -/
theorem wrong_else {cond : List Use} {body elseBody : Stat (List Use)} {index : ℕ} {head head' : List Position}
    {outer : Scopes} {jumps' : List Position} {p : Position} {stray : Outcome → Position → Prop}
    (hindex : index ≤ outer.length) (hfresh : Fresh (0 :: pos) (alive dtor (head :: outer)))
    (hcond : Covers dtor (alive dtor (head :: outer)) cond)
    (hholds : Holds dtor (alive dtor (head :: outer)) (registered dtor body (0 :: pos) ++ alive dtor (head :: outer)) jumps'
      (visit body (0 :: pos) index (head :: outer)).1)
    (hregistered : registered dtor body (0 :: pos) ≠ [])
    (howned : owned dtor head' = registered dtor body (0 :: pos) ++ owned dtor head)
    (hlasts : (jumps elseBody).lastsEnd = true) :
    Wrong dtor (fun t o ↦ Runs p (.fi [.eval cond] (visit body (0 :: pos) index (head :: outer)).1
      (some (visit elseBody (1 :: pos) index (head' :: outer)).1)) t (some o)) (alive dtor (head :: outer)) stray := by
  have hrun := (reads_eval hcond).run_eq
  obtain ⟨obj, hobj⟩ := List.exists_mem_of_ne_nil _ hregistered
  have hinside : (0 :: pos) <:+ obj := registered_inside body (0 :: pos) obj hobj
  have hnot : obj ∉ alive dtor (head :: outer) := fun hmem ↦ hfresh obj hmem hinside
  have howned' : obj ∈ owned dtor head' := howned ▸ List.mem_append_left _ hobj
  obtain ⟨t, o, ht⟩ := @exists_runs _ (1 :: pos) (1 :: p) index (head' :: outer) elseBody hlasts
  have hacts : Acts ((1 :: pos) <:+ ·) (alive dtor (head' :: outer)) (leaving dtor index (head' :: outer))
      (steps dtor (actions t)) o := visit_acts elseBody (1 :: pos) index head' outer hindex ht
  have hstart : .start obj ∉ steps dtor (actions t) := by
    intro hmem
    cases suffix_sibling hinside (hacts.starts obj hmem)
  cases hresult : Lifetimes.run (steps dtor (actions t)) (alive dtor (head :: outer)) with
  | none =>
    refine .fails (.fiElse ht) ?_
    rw [actions, steps_append]
    exact Lifetimes.run_append_of hrun hresult
  | some live =>
    obtain ⟨hdestroy, hnot'⟩ := Lifetimes.run_absent hstart hnot hresult
    cases o with
    | falls =>
      obtain ⟨t', ht'⟩ := @runs_of_may _ (0 :: pos) (0 :: p) index (head :: outer) .falls body
        (may_of_registered body (0 :: pos) hregistered)
      have hrun' : Lifetimes.run (steps dtor (actions (.eval [.eval cond] :: t))) (alive dtor (head :: outer)) =
          some live := by
        rw [actions, steps_append]
        exact Lifetimes.run_append_of hrun hresult
      refine .splits (.fiBody ht') (.fiElse ht) (Ends.append hrun (hholds _ _ _ ht')).run_eq hrun' fun heq ↦ hnot' ?_
      rw [← heq]
      exact List.mem_append_left _ hobj
    | breaks | continues =>
      refine absurd (hacts.jumps (by simp) obj ?_) hdestroy
      rw [leaving_cons hindex]
      exact List.mem_append_left _ howned'
    | returns =>
      refine absurd (hacts.returns rfl obj ?_) hdestroy
      exact List.mem_append_left _ howned'

/-- The value of a switch is not destroyed. -/
theorem wrong_value {expr : List Use} {cases : List (SwitchCase (List Use))} {mark : Bool} {index : ℕ} {head : List Position}
    {outer : Scopes} {p : Position} (hvalue : dtor pos = true) (hlasts : lastsEndCases cases = true)
    (hfresh : Fresh pos (alive dtor (head :: outer))) :
    Wrong dtor (fun t o ↦ Runs p (visit (.swich expr cases mark) pos index (head :: outer)).1 t (some o))
      (alive dtor (head :: outer)) fun _ obj ↦ pos = obj := by
  obtain ⟨t, o, ht⟩ := @exists_runs _ pos p index (head :: outer) (.swich expr cases mark) hlasts
  obtain ⟨checks, rest, rfl, hchecks, hrest⟩ := runs_swich ht
  have hdestroy : .destroy pos ∉ steps dtor (actions (checks ++ rest)) := by
    rw [actions_append, steps_append]
    intro hmem
    rcases List.mem_append.mp hmem with hmem | hmem
    · obtain ⟨_, heq⟩ := uses_checks hchecks _ hmem
      cases heq
    · rcases hrest with ⟨rfl, -⟩ | ⟨before, entered, hcases, hfrom⟩
      · cases hmem
      · have hacts : Acts (fun obj ↦ ∃ k, 0 ≤ k ∧ (k :: pos) <:+ obj) (alive dtor (head :: outer)) []
            (steps dtor (actions rest)) o := visitCases_acts cases pos 0 ([] :: head :: outer) hcases hfrom
        rcases hacts.destroys pos hmem with hmem | ⟨k, -, hsuffix⟩
        · exact hfresh.not_mem hmem
        · exact Nat.not_succ_le_self _ hsuffix.length_le
  cases hresult : Lifetimes.run (steps dtor (actions (.eval [.eval expr, .start pos] :: (checks ++ rest))))
      (alive dtor (head :: outer)) with
  | none => exact .fails ht hresult
  | some live =>
    have hstart := hresult
    rw [actions, steps_append, steps, steps, if_pos hvalue, steps] at hstart
    obtain ⟨-, hstart⟩ := Option.ite_none_right_eq_some.mp hstart
    obtain ⟨-, hstart⟩ := Option.ite_none_left_eq_some.mp hstart
    exact .leaks ht hresult (Lifetimes.mem_of_run hdestroy List.mem_cons_self hstart) rfl

/-- What is wrong in an iteration of a loop is wrong in the loop. -/
theorem wrong_loop {code : Code (List Use)} {cond : List Use} {incr : List (Event (List (Action (List Use))))}
    {start : List Position} {p : Position} (hcond : Covers dtor start cond)
    (hincr : ∀ obj, pos <:+ obj → .destroy obj ∉ steps dtor (actions incr))
    (h : Wrong dtor (fun t o ↦ Runs p code t (some o)) start fun _ obj ↦ pos <:+ obj) :
    Wrong dtor (fun t o ↦ RunsLoop [.eval cond] incr p code t (some o)) start fun _ obj ↦ pos <:+ obj := by
  refine h.extend (reads_eval hcond).run_eq fun o _ ↦ ?_
  cases o with
  | falls | continues =>
    refine ⟨incr ++ [.eval [.eval cond]], .falls, fun t ht ↦ .next ht rfl .done, fun obj hobj ↦ ⟨hobj, fun hmem ↦ ?_⟩⟩
    rw [actions_append, steps_append] at hmem
    rcases List.mem_append.mp hmem with hmem | hmem
    · exact hincr obj hobj hmem
    · cases List.mem_singleton.mp hmem
  | breaks =>
    refine ⟨[], .falls, fun t ht ↦ ?_, fun obj hobj ↦ ⟨hobj, List.not_mem_nil⟩⟩
    rw [List.append_nil]
    exact .leave ht rfl
  | returns =>
    refine ⟨[], .returns, fun t ht ↦ ?_, fun obj hobj ↦ ⟨hobj, List.not_mem_nil⟩⟩
    rw [List.append_nil]
    exact .leave ht rfl

/-- A loop that gets to its end, between an initialisation and what is destroyed behind it. -/
theorem runs_four {initCode incrCode destroyCode : List (Action (List Use))} {cond : List (Action (List Use))}
    {code : Code (List Use)} {p : Position} {t : List (Event (List (Action (List Use))))}
    (h : RunsLoop cond [.eval incrCode] (2 :: 1 :: p) code t (some .falls)) :
    Runs p (.block [act initCode, .four none cond (some (.callAssign incrCode)) code, act destroyCode])
      ([.eval initCode] ++ (t ++ [.eval destroyCode])) (some .falls) :=
  .block (.next .asgn (.next (.four h) (.next .asgn .nil)))

theorem wrong_four {initCode incrCode destroyCode : List (Action (List Use))} {cond : List (Action (List Use))}
    {code : Code (List Use)} {start mid : List Position} {p : Position}
    (hinit : Lifetimes.run (steps dtor initCode) start = some mid)
    (hdestroy : ∀ obj, pos <:+ obj → .destroy obj ∉ steps dtor destroyCode)
    (h : Wrong dtor (fun t o ↦ RunsLoop cond [.eval incrCode] (2 :: 1 :: p) code t (some o)) mid fun _ obj ↦ pos <:+ obj) :
    Wrong dtor (fun t o ↦ Runs p
      (.block [act initCode, .four none cond (some (.callAssign incrCode)) code, act destroyCode]) t (some o)) start
      fun _ obj ↦ pos <:+ obj := by
  have hpre : Lifetimes.run (steps dtor (actions [.eval initCode])) start = some mid := by
    rwa [actions, actions, List.append_nil]
  refine h.extend hpre fun o _ ↦ ?_
  by_cases ho : o = .falls
  · subst ho
    refine ⟨[.eval destroyCode], .falls, fun t ht ↦ runs_four ht, fun obj hobj ↦ ⟨hobj, ?_⟩⟩
    rw [actions, actions, List.append_nil]
    exact hdestroy obj hobj
  · refine ⟨[], o, fun t ht ↦ ?_, fun obj hobj ↦ ⟨hobj, List.not_mem_nil⟩⟩
    rw [List.append_nil]
    exact .block (.next .asgn (.leave (.four ht) fun heq ↦ ho (Option.some.inj heq)))

/-- What the increment declares is destroyed also where there is no iteration. -/
theorem wrong_incr {initCode incrCode destroyCode : List (Action (List Use))} {cond : List Use} {code : Code (List Use)}
    {start mid : List Position} {obj p : Position} {stray : Outcome → Position → Prop}
    (hinit : Lifetimes.run (steps dtor initCode) start = some mid) (hcond : Covers dtor mid cond) (hnot : obj ∉ mid)
    (hstart : .start obj ∉ steps dtor destroyCode) (hdestroy : .destroy obj ∈ steps dtor destroyCode) :
    Wrong dtor (fun t o ↦ Runs p (.block [act initCode, .four none [.eval cond] (some (.callAssign incrCode)) code,
      act destroyCode]) t (some o)) start stray := by
  have hpre : Lifetimes.run (steps dtor (actions [.eval initCode])) start = some mid := by
    rwa [actions, actions, List.append_nil]
  refine .fails (runs_four .done) ?_
  rw [actions_append, steps_append, actions_append, steps_append]
  refine Lifetimes.run_append_of hpre (Lifetimes.run_append_of (reads_eval hcond).run_eq ?_)
  rw [actions, actions, List.append_nil]
  refine Option.eq_none_iff_forall_not_mem.mpr fun live hlive ↦ ?_
  exact (Lifetimes.run_absent hstart hnot hlive).1 hdestroy

mutual

/-- Outside of the conditions something is wrong on the paths through the code of a statement. -/
theorem visit_wrong : (s : Stat (List Use)) → {pos : Position} → {visible : List Position} → Formed dtor s pos visible →
    (index : ℕ) → (head : List Position) → (outer : Scopes) → index ≤ outer.length →
      Fresh pos (alive dtor (head :: outer)) → visible ⊆ alive dtor (head :: outer) → closed dtor s pos = false →
        (p : Position) → Wrong dtor (fun t o ↦ Runs p (visit s pos index (head :: outer)).1 t (some o))
          (alive dtor (head :: outer)) (Stray dtor s pos)
  | .block nodes, pos, visible, h, index, head, outer, hindex, hfresh, hlive, hclosed, p => by
    have hindex' : index ≤ (head :: outer).length := Nat.le_succ_of_le hindex
    have hformed : FormedNodes dtor nodes pos 0 visible := ⟨h.shaped, h.inScope, h.lastsEnd⟩
    have hnodes := wrong_block hformed hindex' (fun k _ ↦ hfresh.inner k) hlive (fun hnodes ↦ visitNodes_wrong nodes hformed
      index [] (head :: outer) hindex' (fun k _ ↦ hfresh.inner k) hlive hnodes p 0) hclosed
    exact hnodes.widen (fun _ _ ↦ .block) fun _ _ hk ↦ ⟨hk, fun _ ↦ List.not_mem_nil⟩
  | .fi cond body none, pos, visible, h, index, head, outer, hindex, hfresh, hlive, hclosed, p => by
    have hrun := (reads_eval (h.inScope.1.mono hlive)).run_eq
    by_cases hbody : closed dtor body (0 :: pos) = true
    · rw [closed, hbody, Bool.and_true, List.isEmpty_eq_false_iff] at hclosed
      have hholds := visit_holds body ⟨hbody, h.shaped, h.inScope.2⟩ index head outer hindex (hfresh.inner 0) hlive
      obtain ⟨t, ht⟩ := @runs_of_may _ (0 :: pos) (0 :: p) index (head :: outer) .falls body
        (may_of_registered body (0 :: pos) hclosed)
      refine .splits (.fiBody ht) .fiSkip (Ends.append hrun (hholds _ _ _ ht)).run_eq hrun fun heq ↦ hclosed ?_
      exact List.append_left_eq_self.mp heq
    · exact (visit_wrong body ⟨h.shaped, h.inScope.2, h.lastsEnd⟩ index head outer hindex (hfresh.inner 0) hlive
        (Bool.eq_false_iff.mpr hbody) (0 :: p)).after hrun (fun _ _ ↦ .fiBody)
        fun _ _ hstray ↦ ⟨(List.suffix_cons 0 pos).trans hstray.1, hstray.2⟩
  | .fi cond body (some elseBody), pos, visible, h, index, head, outer, hindex, hfresh, hlive, hclosed, p => by
    obtain ⟨hcond, hscoped, hscopedElse⟩ := h.inScope
    obtain ⟨hshaped, hshapedElse⟩ := Bool.and_eq_true_iff.mp h.shaped
    obtain ⟨hlasts, hlastsElse⟩ := Bool.and_eq_true_iff.mp h.lastsEnd
    have hrun := (reads_eval (hcond.mono hlive)).run_eq
    by_cases hbody : closed dtor body (0 :: pos) = true
    · have hholds := visit_holds body ⟨hbody, hshaped, hscoped⟩ index head outer hindex (hfresh.inner 0) hlive
      obtain ⟨head', hregisters, howned⟩ := visit_registers dtor body (0 :: pos) index head outer
      have hcode : (visit (.fi cond body (some elseBody)) pos index (head :: outer)).1 =
          .fi [.eval cond] (visit body (0 :: pos) index (head :: outer)).1
            (some (visit elseBody (1 :: pos) index (head' :: outer)).1) := by
        rw [← hregisters]
        rfl
      rw [hcode]
      by_cases hregistered : registered dtor body (0 :: pos) = []
      · have halive : alive dtor (head' :: outer) = alive dtor (head :: outer) := by
          rw [alive_cons, howned, hregistered, List.nil_append, alive_cons]
        have hscopedElse := hscopedElse (List.isEmpty_iff.mpr hregistered)
        by_cases helse : closed dtor elseBody (1 :: pos) = true
        · simp only [closed, hbody, hregistered, helse, List.isEmpty_nil, Bool.and_true, Bool.true_and, Bool.or_eq_false_iff,
            List.isEmpty_eq_false_iff, Bool.not_eq_false'] at hclosed
          obtain ⟨hregisteredElse, hfalls⟩ := hclosed
          have hholdsElse := visit_holds elseBody ⟨helse, hshapedElse, hscopedElse⟩ index head' outer hindex
            (halive ▸ hfresh.inner 1) (halive ▸ hlive)
          rw [halive] at hholdsElse
          obtain ⟨t, ht⟩ := @runs_of_may _ (0 :: pos) (0 :: p) index (head :: outer) .falls body hfalls
          obtain ⟨t', ht'⟩ := @runs_of_may _ (1 :: pos) (1 :: p) index (head' :: outer) .falls elseBody
            (may_of_registered elseBody (1 :: pos) hregisteredElse)
          refine .splits (.fiElse ht') (.fiBody ht) (Ends.append hrun (hholdsElse _ _ _ ht')).run_eq
            (Ends.append hrun (hholds _ _ _ ht)).run_eq fun heq ↦ hregisteredElse ?_
          rw [hregistered] at heq
          exact List.append_left_eq_self.mp heq
        · have hwrong := visit_wrong elseBody ⟨hshapedElse, hscopedElse, hlastsElse⟩ index head' outer hindex
            (halive ▸ hfresh.inner 1) (halive ▸ hlive) (Bool.eq_false_iff.mpr helse) (1 :: p)
          rw [halive] at hwrong
          refine hwrong.after hrun (fun _ _ ↦ .fiElse) fun _ obj hstray ↦ ?_
          refine ⟨(List.suffix_cons 1 pos).trans hstray.1, ?_⟩
          rw [registered, hregistered, List.append_nil]
          exact hstray.2
      · exact wrong_else hindex (hfresh.inner 0) (hcond.mono hlive) hholds hregistered howned hlastsElse
    · refine (visit_wrong body ⟨hshaped, hscoped, hlasts⟩ index head outer hindex (hfresh.inner 0) hlive
        (Bool.eq_false_iff.mpr hbody) (0 :: p)).after hrun (fun _ _ ↦ .fiBody) fun _ obj hstray ↦ ?_
      refine ⟨(List.suffix_cons 0 pos).trans hstray.1, fun ho hobj ↦ ?_⟩
      rcases List.mem_append.mp hobj with hobj | hobj
      · cases suffix_sibling hstray.1 (registered_inside elseBody (1 :: pos) obj hobj)
      · exact hstray.2 ho hobj
  | .swich expr cases mark, pos, visible, h, index, head, outer, hindex, hfresh, hlive, hclosed, p => by
    by_cases hvalue : dtor pos = true
    · exact (wrong_value hvalue h.lastsEnd hfresh).widen (fun _ _ ↦ id) fun _ _ heq ↦
        heq ▸ ⟨List.suffix_refl pos, fun _ ↦ List.not_mem_nil⟩
    · rw [closed, Bool.eq_false_iff.mpr hvalue, Bool.not_false, Bool.true_and] at hclosed
      have hreads : Reads dtor (alive dtor (head :: outer))
          (.eval [.eval expr, .start pos] ::
            checkEvents (visitCases cases pos 0 ([] :: head :: outer).length ([] :: head :: outer)).1) :=
        (reads_start (h.inScope.1.mono hlive) (Bool.eq_false_iff.mpr hvalue)).append
          (visitCases_reads cases h.inScope.2 ([] :: head :: outer) hlive)
      obtain ⟨before, value, body, after, hcodes, hwrong⟩ := visitCases_wrong cases ⟨h.shaped, h.inScope.2, h.lastsEnd⟩
        ([] :: head :: outer) (fun k _ ↦ hfresh.inner k) hlive hclosed
      have hcode : (visit (.swich expr cases mark) pos index (head :: outer)).1 =
          .swich [.eval expr, .start pos] (before ++ .mk value body :: after) mark := by
        rw [← hcodes]
        rfl
      have hstray : ∀ (o : Outcome) obj, (∃ k, 0 ≤ k ∧ (k :: pos) <:+ obj) →
          Stray dtor (.swich expr cases mark) pos o obj :=
        fun _ obj ⟨k, _, hsuffix⟩ ↦ ⟨(List.suffix_cons k pos).trans hsuffix, fun _ ↦ List.not_mem_nil⟩
      rw [hcode]
      rw [hcodes] at hreads
      cases value with
      | some value =>
        have hpre : Reads dtor (alive dtor (head :: outer))
            (.eval [.eval expr, .start pos] :: (checkEvents before ++ [.eval value])) := by
          refine hreads.take ⟨checkEvents after, ?_⟩
          simp [checkEvents, SwitchCase.expr, optEvents]
        refine (hwrong p before.length).after hpre.run_eq (fun t o hfrom ↦ ?_) hstray
        simpa using Runs.swichCase hfrom
      | none => exact (hwrong p before.length).after hreads.run_eq (fun t o hfrom ↦ .swichDefault hfrom) hstray
  | .wile cond body, pos, visible, h, index, head, outer, hindex, hfresh, hlive, hclosed, p => by
    have hformed : Formed dtor body (0 :: pos) visible := ⟨h.shaped, h.inScope.2, h.lastsEnd⟩
    have hbody := wrong_contained hformed (Nat.le_refl (head :: outer).length) (hfresh.inner 0) hlive
      (fun hbody ↦ visit_wrong body hformed (head :: outer).length [] (head :: outer) (Nat.le_refl _) (hfresh.inner 0) hlive
        hbody (0 :: p)) hclosed
    exact (wrong_loop (h.inScope.1.mono hlive) (fun _ _ ↦ List.not_mem_nil) hbody).widen (fun _ _ ↦ .wile)
      fun _ _ hk ↦ ⟨(List.suffix_cons 0 pos).trans hk, fun _ ↦ List.not_mem_nil⟩
  | .four init cond incr body, pos, visible, h, index, head, outer, hindex, hfresh, hlive, hclosed, p => by
    obtain ⟨hinit, hcond, -, hscoped⟩ := h.inScope
    obtain ⟨inner, hregisters, howned⟩ := visitOptAsgn_registers dtor (0 :: pos) [] (head :: outer) init
    obtain ⟨inner', hregistersBody, -⟩ :=
      visit_registers dtor body (2 :: pos) (inner :: head :: outer).length [] (inner :: head :: outer)
    obtain ⟨inner'', hregistersIncr, hownedIncr⟩ := visitOptAsgn_registers dtor (1 :: pos) inner (head :: outer) incr
    rw [owned_nil, List.append_nil] at howned
    have halive : alive dtor (inner :: head :: outer) =
        own dtor (optAsgnDeclares init) (0 :: pos) ++ alive dtor (head :: outer) := by
      rw [alive_cons, howned]
    have hlive' : own dtor (optAsgnDeclares init) (0 :: pos) ++ visible ⊆ alive dtor (inner :: head :: outer) :=
      halive ▸ append_subset hlive
    have hinside : ∀ obj ∈ own dtor (optAsgnDeclares init) (0 :: pos), (0 :: pos) <:+ obj := fun _ hobj ↦ own_inside hobj
    have hrunInit := run_visitOptAsgn init ([] :: head :: outer) (fun uses huses ↦ (hinit uses huses).mono hlive)
      (hfresh.inner 0).not_mem
    rw [← halive] at hrunInit
    have hdestroy : steps dtor (destroy (head :: outer).length (inner'' :: head :: outer)) =
        (own dtor (optAsgnDeclares incr) (1 :: pos) ++ own dtor (optAsgnDeclares init) (0 :: pos)).map .destroy := by
      rw [steps_destroy, leaving_cons (Nat.le_refl _), leaving_length, List.append_nil, hownedIncr, howned]
    rw [visit_four hregisters hregistersBody hregistersIncr]
    by_cases hown : own dtor (optAsgnDeclares incr) (1 :: pos) = []
    · rw [closed, hown, List.isEmpty_nil, Bool.true_and] at hclosed
      have hformed : Formed dtor body (2 :: pos) (own dtor (optAsgnDeclares init) (0 :: pos) ++ visible) :=
        ⟨h.shaped, hscoped (List.isEmpty_iff.mpr hown), h.lastsEnd⟩
      have hfreshBody : Fresh (2 :: pos) (alive dtor (inner :: head :: outer)) :=
        halive ▸ (hfresh.inner 2).sibling hinside (Nat.succ_ne_zero 1)
      have hbody : Wrong dtor (fun t o ↦ Runs (2 :: 1 :: p)
          (visit body (2 :: pos) (inner :: head :: outer).length ([] :: inner :: head :: outer)).1 t (some o))
          (alive dtor ([] :: inner :: head :: outer)) fun _ obj ↦ (2 :: pos) <:+ obj :=
        wrong_contained hformed (Nat.le_refl _) hfreshBody hlive' (fun hbody ↦ visit_wrong body hformed
          (inner :: head :: outer).length [] (inner :: head :: outer) (Nat.le_refl _) hfreshBody hlive' hbody _) hclosed
      have hincr : ∀ obj, (2 :: pos) <:+ obj →
          .destroy obj ∉ steps dtor (actions [.eval (visitOptAsgn incr (1 :: pos) (inner :: head :: outer)).1]) := by
        have hacts : Acts ((1 :: pos) <:+ ·) [] []
            (steps dtor (visitOptAsgn incr (1 :: pos) (inner :: head :: outer)).1) .falls := acts_visitOptAsgn incr
        intro obj hobj hmem
        rw [actions, actions, List.append_nil] at hmem
        rcases hacts.destroys obj hmem with hmem | hsuffix
        · cases hmem
        · cases suffix_sibling hobj hsuffix
      refine (wrong_four hrunInit (fun obj hobj hmem ↦ ?_) (wrong_loop (hcond.mono hlive') hincr hbody)).widen (fun _ _ ↦ id)
        fun _ obj hobj ↦ ⟨(List.suffix_cons 2 pos).trans hobj, fun _ ↦ List.not_mem_nil⟩
      rw [hdestroy, hown, List.nil_append] at hmem
      obtain ⟨_, hmem, heq⟩ := List.mem_map.mp hmem
      cases heq
      cases suffix_sibling hobj (hinside obj hmem)
    · obtain ⟨obj, hobj⟩ := List.exists_mem_of_ne_nil _ hown
      refine wrong_incr hrunInit (hcond.mono hlive') (fun hmem ↦ ?_) (fun hstart ↦ ?_)
        (hdestroy ▸ List.mem_map_of_mem (List.mem_append_left _ hobj))
      · rw [halive] at hmem
        exact (hfresh.inner 1).sibling hinside Nat.one_ne_zero obj hmem (own_inside hobj)
      · rw [hdestroy] at hstart
        obtain ⟨_, -, heq⟩ := List.mem_map.mp hstart
        cases heq
  | .terminate, _, _, _, _, _, _, _, _, _, hclosed, _ | .brake, _, _, _, _, _, _, _, _, _, hclosed, _
  | .continu, _, _, _, _, _, _, _, _, _, hclosed, _ | .ret _, _, _, _, _, _, _, _, _, _, hclosed, _
  | .decl _, _, _, _, _, _, _, _, _, _, hclosed, _ | .asgn _, _, _, _, _, _, _, _, _, _, hclosed, _ => nomatch hclosed

theorem visitNodes_wrong : (nodes : Body) → {pos : Position} → {visible : List Position} → {i : ℕ} →
    FormedNodes dtor nodes pos i visible → (index : ℕ) → (head : List Position) → (outer : Scopes) → index ≤ outer.length →
      (∀ k, i ≤ k → Fresh (k :: pos) (alive dtor (head :: outer))) → visible ⊆ alive dtor (head :: outer) →
        closedNodes dtor nodes pos i = false → (p : Position) → (j : ℕ) →
          Wrong dtor (fun t o ↦ RunsNodes p j (visitNodes nodes pos i index (head :: outer)).1 t (some o))
            (alive dtor (head :: outer)) (StrayNodes dtor nodes pos i)
  | [], _, _, _, _, _, _, _, _, _, _, hclosed, _, _ => nomatch hclosed
  | node :: nodes, pos, visible, i, h, index, head, outer, hindex, hfresh, hlive, hclosed, p, j => by
    obtain ⟨hscoped, hscopedNodes⟩ := h.inScope
    obtain ⟨hlasts, hlastsNodes⟩ := Bool.and_eq_true_iff.mp h.lastsEnd
    rcases shapedNodes_cases h.shaped with ⟨rfl, rfl⟩ | ⟨hshaped, hshapedNodes, -⟩
    · cases hclosed
    obtain ⟨head', hregisters, howned⟩ := visit_registers dtor node (i :: pos) index head outer
    have halive : alive dtor (head' :: outer) = registered dtor node (i :: pos) ++ alive dtor (head :: outer) := by
      rw [alive_cons, alive_cons, howned, List.append_assoc]
    have hcodes : (visitNodes (node :: nodes) pos i index (head :: outer)).1 =
        (visit node (i :: pos) index (head :: outer)).1 :: (visitNodes nodes pos (i + 1) index (head' :: outer)).1 := by
      rw [← hregisters]
      rfl
    rw [hcodes]
    have hfreshNode := hfresh i (Nat.le_refl i)
    by_cases hnode : closed dtor node (i :: pos) = true
    · rw [closedNodes, hnode, Bool.true_and, Bool.or_eq_false_iff, Bool.not_eq_false'] at hclosed
      obtain ⟨hfalls, hclosed⟩ := hclosed
      have hlive' : own dtor (declares node) (i :: pos) ++ visible ⊆ alive dtor (head' :: outer) := by
        rw [halive]
        exact List.append_subset.mpr ⟨List.Subset.trans own_declares_subset (List.subset_append_left _ _),
          List.Subset.trans hlive (List.subset_append_right _ _)⟩
      obtain ⟨t, ht⟩ := @runs_of_may _ (i :: pos) (j :: p) index (head :: outer) .falls node hfalls
      have hrun := (visit_holds node ⟨hnode, hshaped, hscoped⟩ index head outer hindex hfreshNode hlive _ _ _ ht).run_eq
      rw [← halive] at hrun
      refine (visitNodes_wrong nodes ⟨hshapedNodes, hscopedNodes, hlastsNodes⟩ index head' outer hindex
        (fun k hk ↦ halive ▸ (hfresh k (Nat.le_of_succ_le hk)).sibling (registered_inside node (i :: pos)) (Nat.ne_of_gt hk))
        hlive' hclosed p (j + 1)).after hrun (fun _ _ ↦ .next ht) fun _ obj ⟨⟨k, hk, hsuffix⟩, hfalls⟩ ↦ ?_
      refine ⟨⟨k, Nat.le_of_succ_le hk, hsuffix⟩, fun ho hobj ↦ ?_⟩
      rcases List.mem_append.mp hobj with hobj | hobj
      · exact hfalls ho hobj
      · exact Nat.ne_of_gt hk (suffix_sibling hsuffix (registered_inside node (i :: pos) obj hobj))
    · refine (visit_wrong node ⟨hshaped, hscoped, hlasts⟩ index head outer hindex hfreshNode hlive
        (Bool.eq_false_iff.mpr hnode) (j :: p)).before fun o _ ↦ ?_
      by_cases ho : o = .falls
      · subst ho
        obtain ⟨post, o, hpost⟩ := @exists_runsNodes _ pos p index (head' :: outer) nodes (i + 1) (j + 1) hlastsNodes
        refine ⟨post, o, fun t ht ↦ .next ht hpost, fun obj hstray ↦ ?_⟩
        have hnot : ∀ k, i + 1 ≤ k → ¬(k :: pos) <:+ obj :=
          fun k hk hsuffix ↦ Nat.ne_of_gt hk (suffix_sibling hsuffix hstray.1)
        refine ⟨⟨⟨i, Nat.le_refl i, hstray.1⟩, fun _ hobj ↦ ?_⟩, fun hdestroy ↦ ?_⟩
        · rcases List.mem_append.mp hobj with hobj | hobj
          · obtain ⟨k, hk, hsuffix⟩ := registeredNodes_inside nodes pos (i + 1) obj hobj
            exact hnot k hk hsuffix
          · exact hstray.2 rfl hobj
        · have hobj : obj ∈ alive dtor (head' :: outer) ∨ ∃ k, i + 1 ≤ k ∧ (k :: pos) <:+ obj :=
            (visitNodes_acts nodes pos (i + 1) index head' outer hindex hpost).destroys obj hdestroy
          rcases hobj with hobj | ⟨k, hk, hsuffix⟩
          · rw [halive] at hobj
            rcases List.mem_append.mp hobj with hobj | hobj
            · exact hstray.2 rfl hobj
            · exact hfreshNode obj hobj hstray.1
          · exact hnot k hk hsuffix
      · refine ⟨[], o, fun t ht ↦ ?_, fun obj hstray ↦ ⟨⟨⟨i, Nat.le_refl i, hstray.1⟩, (absurd · ho)⟩, List.not_mem_nil⟩⟩
        rw [List.append_nil]
        exact .leave ht fun heq ↦ ho (Option.some.inj heq)

/-- The same of the paths from one of the cases of a switch. -/
theorem visitCases_wrong : (cases : List (SwitchCase (List Use))) → {pos : Position} → {visible : List Position} → {i : ℕ} →
    FormedCases dtor cases pos i visible → (scopes : Scopes) → (∀ k, i ≤ k → Fresh (k :: pos) (alive dtor scopes)) →
      visible ⊆ alive dtor scopes → closedCases dtor cases pos i = false →
        ∃ before expr body after, (visitCases cases pos i scopes.length scopes).1 = before ++ .mk expr body :: after ∧
          ∀ p j, Wrong dtor (fun t o ↦ RunsFrom p j (.mk expr body :: after) t (some o)) (alive dtor scopes)
            fun _ obj ↦ ∃ k, i ≤ k ∧ (k :: pos) <:+ obj
  | [], _, _, _, _, _, _, _, hclosed => nomatch hclosed
  | .mk expr body :: cases, pos, visible, i, h, scopes, hfresh, hlive, hclosed => by
    obtain ⟨-, hscoped, hscopedCases⟩ := h.inScope
    obtain ⟨hshaped, hshapedCases⟩ := Bool.and_eq_true_iff.mp h.shaped
    obtain ⟨hlast, hlasts⟩ := Bool.and_eq_true_iff.mp h.lastsEnd
    obtain ⟨hlasts, hlastsCases⟩ := Bool.and_eq_true_iff.mp hlasts
    have hfreshBody := hfresh i (Nat.le_refl i)
    rw [visitCases_cons]
    by_cases hcontained : ((registered dtor body (i :: pos)).isEmpty && closed dtor body (i :: pos)) = true
    · rw [closedCases, hcontained, Bool.true_and] at hclosed
      obtain ⟨before, expr', body', after, hcodes, hwrong⟩ := visitCases_wrong cases
        ⟨hshapedCases, hscopedCases, hlastsCases⟩ scopes (fun k hk ↦ hfresh k (Nat.le_of_succ_le hk)) hlive hclosed
      refine ⟨_ :: before, expr', body', after, congrArg _ hcodes, fun p j ↦ ?_⟩
      exact (hwrong p j).widen (fun _ _ ↦ id) fun _ obj ⟨k, hk, hsuffix⟩ ↦ ⟨k, Nat.le_of_succ_le hk, hsuffix⟩
    · refine ⟨[], _, _, _, (List.nil_append _).symm, fun p j ↦ ?_⟩
      have hformed : Formed dtor body (i :: pos) visible := ⟨hshaped, hscoped, hlasts⟩
      have hbody : Wrong dtor (fun t o ↦ Runs (j :: p) (visit body (i :: pos) scopes.length ([] :: scopes)).1 t (some o))
          (alive dtor ([] :: scopes)) fun _ obj ↦ (i :: pos) <:+ obj :=
        wrong_contained hformed (Nat.le_refl _) hfreshBody hlive
          (fun hbody ↦ visit_wrong body hformed scopes.length [] scopes (Nat.le_refl _) hfreshBody hlive hbody (j :: p))
          (Bool.eq_false_iff.mpr hcontained)
      refine hbody.before fun o hpaths ↦ ?_
      by_cases ho : o = .continues
      · subst ho
        obtain ⟨t, ht⟩ := hpaths
        have hcontinues : may body .continues = true := by
          rw [← visit_mayCode body (i :: pos) scopes.length ([] :: scopes), may_iff]
          exact (runs_iff_exec _ (j :: p) .continues).mp ⟨t, ht⟩
        rw [continues_of_may body hcontinues, Bool.not_true, Bool.or_false] at hlast
        have hne : cases ≠ [] := by
          rintro rfl
          cases hlast
        obtain ⟨post, o, hpost⟩ := @exists_runsFrom _ pos p scopes cases (i + 1) (j + 1) hne hlastsCases
        refine ⟨post, o, fun t ht ↦ .next ht hpost, fun obj hobj ↦ ⟨⟨i, Nat.le_refl i, hobj⟩, fun hdestroy ↦ ?_⟩⟩
        have hacts : Acts (fun obj ↦ ∃ k, i + 1 ≤ k ∧ (k :: pos) <:+ obj) (alive dtor scopes) []
            (steps dtor (actions post)) o := visitCases_acts cases pos (i + 1) scopes (List.nil_append _).symm hpost
        rcases hacts.destroys obj hdestroy with hmem | ⟨k, hk, hsuffix⟩
        · exact hfreshBody obj hmem hobj
        · exact Nat.ne_of_gt hk (suffix_sibling hsuffix hobj)
      · have hpost : ∃ o', leaveLoop (some o) = some o' := by
          cases o <;> exact ⟨_, rfl⟩
        obtain ⟨o', ho'⟩ := hpost
        refine ⟨[], o', fun t ht ↦ ?_, fun obj hobj ↦ ⟨⟨i, Nat.le_refl i, hobj⟩, List.not_mem_nil⟩⟩
        rw [List.append_nil, ← ho']
        exact .leave ht fun heq ↦ ho (Option.some.inj heq)

end

end Visit

/-! ## Accepted bodies -/

/-- A body that is not ready has a path that shows it. -/
theorem closed_of_lifetimesSound {dtor : Position → Bool} {nodes : Body} (h : FormedNodes dtor nodes [] 0 [])
    (hsound : LifetimesSound dtor nodes) : closed dtor (.block nodes) [] = true := by
  by_contra hclosed
  have hfresh : ∀ k, 0 ≤ k → Fresh [k] (alive dtor []) := fun _ _ _ hmem ↦ absurd hmem List.not_mem_nil
  have hwrong : Wrong dtor (fun t o ↦ RunsNodes [] 0 (generateStat nodes) t (some o)) [] fun _ obj ↦ [] <:+ obj :=
    wrong_block h (Nat.le_refl 0) hfresh (List.nil_subset _) (fun hnodes ↦ visitNodes_wrong nodes h 0 [] []
      (Nat.le_refl 0) hfresh (List.nil_subset _) hnodes [] 0) (Bool.eq_false_iff.mpr hclosed)
  have hends : ∀ t o, RunsNodes [] 0 (generateStat nodes) t (some o) →
      Lifetimes.run (steps dtor (actions t)) [] = some [] := by
    intro t o ht
    obtain ⟨live, hrun, hlive⟩ := hsound t _ ht
    rw [hrun, hlive (Option.some_ne_none o)]
  cases hwrong with
  | fails h hrun =>
    rw [hends _ _ h] at hrun
    cases hrun
  | splits h h' hrun hrun' hne =>
    rw [hends _ _ h] at hrun
    rw [hends _ _ h'] at hrun'
    exact hne (Option.some.inj (hrun.symm.trans hrun'))
  | leaks h hrun hmem hstray =>
    rw [hends _ _ h] at hrun
    cases hrun
    cases hmem

/-- In a body of an accepted function every local and switch value with a destructor is destroyed once for each time it is
constructed, and in the reverse order, if and only if the body is clean. The converse is about bodies in which every
`continue` has somewhere to go; of others there is no code. -/
theorem lifetimes_sound_iff {globals params : List String} {body : List (Stat NameResolution.Expr)} {bodies : List Body}
    (h : visitFunc globals params body = .ok bodies) {nodes nodes' : Body} (hnodes : nodes ∈ bodies)
    (hparsed : parsedNodes nodes = true) {ret : Ty} (hcheck : CheckMissingReturn.checkMissingRet nodes ret = .ok nodes')
    (dtor : Position → Bool) :
    (clean dtor (.block nodes) [] {} = true → LifetimesSound dtor nodes') ∧
      ((jumpsNodes nodes).lastsEnd = true → LifetimesSound dtor nodes' → clean dtor (.block nodes) [] {} = true) := by
  obtain ⟨hclosed, hshaped, hscoped⟩ := @checkMissingRet_closed dtor _ _ _ hcheck hparsed
  have hscoped := hscoped (visitFunc_bodyScoped h nodes hnodes dtor)
  rw [← hclosed]
  refine ⟨fun hclosed ↦ lifetimesSound_of_closed hclosed hshaped hscoped, fun hlasts hsound ↦ ?_⟩
  rw [← AcceptedJumps.checkMissingRet_jumps hcheck] at hlasts
  exact closed_of_lifetimesSound ⟨hshaped, hscoped, hlasts⟩ hsound

/-- `x := c; while (b) { y := x; if (b) { z := y; continue; } if (b) break; }` -/
def nestedLocals : List (Stat NameResolution.Expr) :=
  [.asgn (.declAssign "x" (.ident "c")),
    .wile (.ident "b") (.block [.asgn (.declAssign "y" (.ident "x")),
      .fi (.ident "b") (.block [.asgn (.declAssign "z" (.ident "y")), .continu]) none, .fi (.ident "b") .brake none])]

/-- Every local has a destructor. -/
theorem lifetimes_sound_iff_nestedLocals : LifetimesSound (fun _ ↦ true)
    [.asgn (.declAssign "x" [(0, .param 0)]),
      .wile [(0, .param 1)] (.block [.asgn (.declAssign "y" [(0, .stat [0])]),
        .fi [(0, .param 1)] (.block [.asgn (.declAssign "z" [(0, .stat [0, 0, 1])]), .continu]) none,
        .fi [(0, .param 1)] .brake none, .terminate]),
      .ret none] :=
  (lifetimes_sound_iff (rfl : visitFunc [] ["c", "b"] nestedLocals = .ok _) List.mem_cons_self rfl
    (rfl : CheckMissingReturn.checkMissingRet _ (.btn .void) = .ok _) (fun _ ↦ true)).1 rfl

/-- `if (b) x := c;` -/
def localInBranch : List (Stat NameResolution.Expr) :=
  [.fi (.ident "b") (.asgn (.declAssign "x" (.ident "c"))) none]

/-- The local is destroyed at the end of the function, also if it was not constructed. -/
theorem localInBranch_unsound : ∃ bodies nodes nodes', visitFunc [] ["c", "b"] localInBranch = .ok bodies ∧ nodes ∈ bodies ∧
    CheckMissingReturn.checkMissingRet nodes (.btn .void) = .ok nodes' ∧ ¬LifetimesSound (fun _ ↦ true) nodes' := by
  refine ⟨_, _, _, rfl, List.mem_cons_self, rfl, fun h ↦ ?_⟩
  obtain ⟨live, hrun, -⟩ := h _ _ (.next .fiSkip (.leave .ret nofun))
  cases hrun

/-- `switch (c) { default {} }` -/
def switchOnLocal : List (Stat NameResolution.Expr) :=
  [.swich (.ident "c") [.mk none (.block [])] false]

/-- The value of a switch is never destroyed. -/
theorem switchOnLocal_unsound : ∃ bodies nodes nodes', visitFunc [] ["c"] switchOnLocal = .ok bodies ∧ nodes ∈ bodies ∧
    CheckMissingReturn.checkMissingRet nodes (.btn .void) = .ok nodes' ∧ ¬LifetimesSound (fun _ ↦ true) nodes' := by
  refine ⟨_, _, _, rfl, List.mem_cons_self, rfl, fun h ↦ ?_⟩
  have hcase : RunsFrom [0] 0 [.mk none (.block [act ([] : List (Action (List Use)))])] [.eval []] (some .falls) :=
    .leave (.block (.next .asgn .nil)) (by simp)
  obtain ⟨live, hrun, hnone⟩ := h _ _ (.next (@Runs.swichDefault _ _ _ [] _ _ _ _ _ hcase) (.leave .ret (by simp)))
  cases hrun
  cases hnone nofun

end Stela.CodeGen.LocalScopes
