import Stela.CodeGen.AcceptedJumps
import Stela.CodeGen.LocalLifetimes

/-!
# What the code of a statement constructs and destroys

Along a path, the code of a statement constructs objects that are declared in it, and destroys no others but those of the
scopes around it: those that a jump leaves at the jump, and all of them at a return. Where no last case of a switch
continues, every path can be gone to its end.
-/

namespace Stela.CodeGen.LocalScopes

open Stela.Syntax Stela.Flow Stela.Library
open Stela.Semantic.NameResolution hiding visit visitNodes visitCases visitAsgn visitOptAsgn visitDecl
open Stela.Semantic.DefiniteInit hiding clean cleanNodes cleanCases
open AcceptedJumps (jumps jumpsNodes lastsEndCases)

/-! ## Paths that end -/

section Ends

variable {ε : Type}

/-- A switch is not left by a `continue`. -/
theorem mayFrom_continues : (cases : List (SwitchCase ε)) → mayFrom cases .continues = false
  | [] => rfl
  | .mk _ body :: cases => by
    rw [mayFrom, mayFrom_continues cases, Bool.and_false]
    rfl

theorem mayCases_continues : (cases : List (SwitchCase ε)) → mayCases cases .continues = false
  | [] => rfl
  | .mk _ body :: cases => by
    rw [mayCases, mayFrom_continues cases, mayCases_continues cases, Bool.and_false]
    rfl

mutual

theorem continues_of_may : (s : Stat ε) → may s .continues = true → (jumps s).continues = true
  | .block nodes, h => continues_of_mayNodes nodes h
  | .fi _ body none, h => by
    obtain h | h := Bool.or_eq_true_iff.mp h
    · exact continues_of_may body h
    · cases h
  | .fi _ body (some elseBody), h =>
    Bool.or_eq_true_iff.mpr ((Bool.or_eq_true_iff.mp h).imp (continues_of_may body) (continues_of_may elseBody))
  | .continu, _ => rfl
  | .swich _ cases _, h => by
    obtain h | h := Bool.or_eq_true_iff.mp h
    · rw [mayCases_continues] at h
      cases h
    · cases (Bool.and_eq_true_iff.mp h).1
  | .wile _ _, h | .four _ _ _ _, h | .terminate, h | .brake, h | .ret _, h | .decl _, h | .asgn _, h => by cases h

theorem continues_of_mayNodes : (nodes : List (Stat ε)) → mayNodes nodes .continues = true →
    (jumpsNodes nodes).continues = true
  | [], h => by cases h
  | node :: nodes, h => by
    rw [mayNodes, Bool.or_eq_true, Bool.and_eq_true, Bool.and_eq_true] at h
    exact Bool.or_eq_true_iff.mpr (h.imp (fun h ↦ continues_of_may node h.1) fun h ↦ continues_of_mayNodes nodes h.2)

end

mutual

/-- Where no last case continues, control leaves every statement in some way. -/
theorem exists_may : (s : Stat ε) → (jumps s).lastsEnd = true → ∃ o, may s o = true
  | .block nodes, h => exists_mayNodes nodes h
  | .fi _ _ none, _ => ⟨.falls, Bool.or_eq_true_iff.mpr (.inr rfl)⟩
  | .fi _ body (some elseBody), h => by
    obtain ⟨o, ho⟩ := exists_may body (Bool.and_eq_true_iff.mp h).1
    exact ⟨o, Bool.or_eq_true_iff.mpr (.inl ho)⟩
  | .swich _ [] _, _ => ⟨.falls, rfl⟩
  | .swich _ (.mk expr body :: cases) _, h => by
    obtain ⟨o, ho⟩ := exists_mayFrom (.mk expr body :: cases) (List.cons_ne_nil _ _) h
    refine ⟨o, Bool.or_eq_true_iff.mpr (.inl ?_)⟩
    rw [mayFrom] at ho
    rw [mayCases, ho, Bool.true_or]
  | .terminate, _ | .wile _ _, _ | .four _ _ _ _, _ | .decl _, _ | .asgn _, _ => ⟨.falls, rfl⟩
  | .brake, _ => ⟨.breaks, rfl⟩
  | .continu, _ => ⟨.continues, rfl⟩
  | .ret _, _ => ⟨.returns, rfl⟩

theorem exists_mayNodes : (nodes : List (Stat ε)) → (jumpsNodes nodes).lastsEnd = true → ∃ o, mayNodes nodes o = true
  | [], _ => ⟨.falls, rfl⟩
  | node :: nodes, h => by
    obtain ⟨hnode, hnodes⟩ := Bool.and_eq_true_iff.mp h
    obtain ⟨o, ho⟩ := exists_may node hnode
    obtain ⟨o', ho'⟩ := exists_mayNodes nodes hnodes
    by_cases hfalls : o = .falls
    · subst hfalls
      exact ⟨o', by rw [mayNodes, ho, ho', Bool.and_true, Bool.or_true]⟩
    · exact ⟨o, by rw [mayNodes, ho, bne_iff_ne.mpr hfalls, Bool.and_true, Bool.true_or]⟩

/-- The same of a switch whose entered case is the first one. -/
theorem exists_mayFrom : (cases : List (SwitchCase ε)) → cases ≠ [] → lastsEndCases cases = true →
    ∃ o, mayFrom cases o = true
  | [], hne, _ => absurd rfl hne
  | .mk expr body :: cases, _, h => by
    obtain ⟨hlast, h⟩ := Bool.and_eq_true_iff.mp h
    obtain ⟨hbody, hcases⟩ := Bool.and_eq_true_iff.mp h
    obtain ⟨o, ho⟩ := exists_may body hbody
    cases o with
    | falls => exact ⟨.falls, by simp [mayFrom, ho]⟩
    | breaks => exact ⟨.falls, by simp [mayFrom, ho]⟩
    | returns => exact ⟨.returns, by simp [mayFrom, ho]⟩
    | continues =>
      rw [continues_of_may body ho, Bool.not_true, Bool.or_false] at hlast
      have hne : cases ≠ [] := by
        rintro rfl
        cases hlast
      obtain ⟨o', ho'⟩ := exists_mayFrom cases hne hcases
      exact ⟨o', by rw [mayFrom, ho, ho', Bool.and_true, Bool.or_true]⟩

end

end Ends

/-! ## What a path does -/

/-- The objects with destructors that a jump to the given index leaves. -/
def leaving (dtor : Position → Bool) (index : ℕ) (scopes : Scopes) : List Position :=
  alive dtor (scopes.take (scopes.length - index))

/-- What a path to its end does to objects, where those of the scopes around it are `live` and a jump leaves some of
them. -/
structure Acts (inside : Position → Prop) (live leaves : List Position) (as : List (Lifetimes.Step Position))
    (o : Outcome) : Prop where
  starts : ∀ obj, .start obj ∈ as → inside obj
  destroys : ∀ obj, .destroy obj ∈ as → obj ∈ live ∨ inside obj
  jumps : o = .breaks ∨ o = .continues → ∀ obj ∈ leaves, .destroy obj ∈ as
  returns : o = .returns → ∀ obj ∈ live, .destroy obj ∈ as

section Rules

variable {dtor : Position → Bool} {inside inside' : Position → Prop} {live live' leaves leaves' : List Position}
  {as as' : List (Lifetimes.Step Position)} {o o' : Outcome} {index : ℕ} {head : List Position} {outer scopes : Scopes}

theorem leaving_cons (h : index ≤ outer.length) :
    leaving dtor index (head :: outer) = owned dtor head ++ leaving dtor index outer := by
  have hlength : (head :: outer).length - index = outer.length - index + 1 := by
    rw [List.length_cons]
    omega
  rw [leaving, hlength, List.take_succ_cons, alive_cons, leaving]

theorem leaving_length : leaving dtor scopes.length scopes = [] := by
  rw [leaving, Nat.sub_self, List.take_zero]
  rfl

theorem leaving_zero : leaving dtor 0 scopes = alive dtor scopes := by
  rw [leaving, Nat.sub_zero, List.take_length]

theorem steps_destroy (index : ℕ) (scopes : Scopes) :
    steps dtor (destroy index scopes) = (leaving dtor index scopes).map .destroy := by
  rw [destroy, steps_destroys, objects, List.filter_flatMap, leaving]
  rfl

theorem Acts.mono (h : Acts inside live leaves as o) (hinside : ∀ obj, inside obj → inside' obj)
    (hlive : ∀ obj ∈ live, obj ∈ live' ∨ inside' obj) (hlive' : live' ⊆ live) (hleaves : leaves' ⊆ leaves) :
    Acts inside' live' leaves' as o where
  starts obj hobj := hinside obj (h.starts obj hobj)
  destroys obj hobj := (h.destroys obj hobj).elim (hlive obj) fun hin ↦ .inr (hinside obj hin)
  jumps ho obj hobj := h.jumps ho obj (hleaves hobj)
  returns ho obj hobj := h.returns ho obj (hlive' hobj)

theorem Acts.widen (h : Acts inside live leaves as o) (hinside : ∀ obj, inside obj → inside' obj) :
    Acts inside' live leaves as o :=
  h.mono hinside (fun _ hobj ↦ .inl hobj) (List.Subset.refl _) (List.Subset.refl _)

theorem Acts.append (h : Acts inside live leaves as o') (h' : Acts inside live leaves as' o) :
    Acts inside live leaves (as ++ as') o where
  starts obj hobj := (List.mem_append.mp hobj).elim (h.starts obj) (h'.starts obj)
  destroys obj hobj := (List.mem_append.mp hobj).elim (h.destroys obj) (h'.destroys obj)
  jumps ho obj hobj := List.mem_append_right _ (h'.jumps ho obj hobj)
  returns ho obj hobj := List.mem_append_right _ (h'.returns ho obj hobj)

/-- The path goes on elsewhere. -/
theorem Acts.falls (h : Acts inside live leaves as o) : Acts inside live leaves' as .falls where
  starts := h.starts
  destroys := h.destroys
  jumps ho := by rcases ho with ho | ho <;> cases ho
  returns ho := by cases ho

/-- The end of a loop or a switch. -/
theorem Acts.leaveLoop (h : Acts inside live leaves as o) (ho : leaveLoop (some o) = some o') :
    Acts inside live leaves' as o' := by
  cases o with
  | falls | breaks | continues =>
    cases ho
    exact h.falls
  | returns =>
    cases ho
    exact ⟨h.starts, h.destroys, fun ho ↦ (by rcases ho with ho | ho <;> cases ho), h.returns⟩

/-- Uses change nothing. -/
theorem acts_uses (h : ∀ step ∈ as, ∃ objs, step = .use objs) : Acts inside live leaves as .falls where
  starts obj hobj := by
    obtain ⟨objs, heq⟩ := h _ hobj
    cases heq
  destroys obj hobj := by
    obtain ⟨objs, heq⟩ := h _ hobj
    cases heq
  jumps ho := by rcases ho with ho | ho <;> cases ho
  returns ho := by cases ho

theorem acts_nil : Acts inside live leaves [] .falls :=
  acts_uses fun _ hstep ↦ absurd hstep List.not_mem_nil

theorem acts_eval (uses : List Use) : Acts inside live leaves (steps dtor [.eval uses]) .falls :=
  acts_uses fun _ hstep ↦ ⟨_, List.mem_singleton.mp hstep⟩

theorem acts_start {obj : Position} (hobj : inside obj) : Acts inside live leaves (steps dtor [.start obj]) .falls := by
  rw [steps]
  split
  · refine ⟨fun obj' hmem ↦ ?_, fun obj' hmem ↦ ?_, fun ho ↦ ?_, fun ho ↦ by cases ho⟩
    · cases List.mem_singleton.mp hmem
      exact hobj
    · cases List.mem_singleton.mp hmem
    · rcases ho with ho | ho <;> cases ho
  · exact acts_nil

theorem acts_destroys {objs : List Position} (hobjs : ∀ obj ∈ objs, obj ∈ live ∨ inside obj)
    (hjumps : o = .breaks ∨ o = .continues → leaves ⊆ objs) (hreturns : o = .returns → live ⊆ objs) :
    Acts inside live leaves (objs.map .destroy) o where
  starts obj hobj := by
    obtain ⟨_, -, heq⟩ := List.mem_map.mp hobj
    cases heq
  destroys obj hobj := by
    obtain ⟨_, hmem, heq⟩ := List.mem_map.mp hobj
    cases heq
    exact hobjs obj hmem
  jumps ho obj hobj := List.mem_map_of_mem (hjumps ho hobj)
  returns ho obj hobj := List.mem_map_of_mem (hreturns ho hobj)

/-- Where a statement knows of objects that an earlier one registers in the innermost scope. -/
theorem Acts.registers {objs head' : List Position}
    (h : Acts inside (alive dtor (head' :: outer)) (leaving dtor index (head' :: outer)) as o)
    (howned : owned dtor head' = objs ++ owned dtor head) (hindex : index ≤ outer.length)
    (hobjs : ∀ obj ∈ objs, inside' obj) (hinside : ∀ obj, inside obj → inside' obj) :
    Acts inside' (alive dtor (head :: outer)) (leaving dtor index (head :: outer)) as o := by
  have halive : alive dtor (head' :: outer) = objs ++ alive dtor (head :: outer) := by
    rw [alive_cons, alive_cons, howned, List.append_assoc]
  have hleaving : leaving dtor index (head' :: outer) = objs ++ leaving dtor index (head :: outer) := by
    rw [leaving_cons hindex, leaving_cons hindex, howned, List.append_assoc]
  rw [halive, hleaving] at h
  exact h.mono hinside (fun obj hobj ↦ (List.mem_append.mp hobj).symm.imp_right (hobjs obj))
    (List.subset_append_right _ _) (List.subset_append_right _ _)

theorem leaving_subset : leaving dtor index scopes ⊆ alive dtor scopes := by
  intro obj hobj
  obtain ⟨scope, hscope, hobj⟩ := List.mem_flatMap.mp hobj
  exact List.mem_flatMap.mpr ⟨scope, List.mem_of_mem_take hscope, hobj⟩

end Rules

section Visit

variable {dtor : Position → Bool} {pos p : Position} {live leaves : List Position} {scopes : Scopes}
  {t : List (Event (List (Action (List Use))))} {o : Outcome}

theorem acts_insertVar (expr : Option (List Use)) :
    Acts (pos <:+ ·) live leaves (steps dtor (insertVar expr pos scopes).1) .falls := by
  cases expr with
  | none => exact acts_start (List.suffix_refl pos)
  | some uses => exact (acts_eval uses).append (acts_start (List.suffix_refl pos))

theorem acts_visitAsgn (asgn : Asgn (List Use)) :
    Acts (pos <:+ ·) live leaves (steps dtor (visitAsgn asgn pos scopes).1) .falls := by
  cases asgn with
  | compAssign dst _ src => exact (acts_eval dst).append (acts_eval src)
  | assign dst src => exact (acts_eval dst).append (acts_eval src)
  | incrDecr expr | callAssign expr => exact acts_eval expr
  | declAssign name expr => exact acts_insertVar (some expr)

theorem acts_visitOptAsgn (asgn : Option (Asgn (List Use))) :
    Acts (pos <:+ ·) live leaves (steps dtor (visitOptAsgn asgn pos scopes).1) .falls := by
  cases asgn with
  | none => exact acts_nil
  | some asgn => exact acts_visitAsgn asgn

theorem acts_visitDecl (decl : Decl (List Use)) :
    Acts (pos <:+ ·) live leaves (steps dtor (visitDecl decl pos scopes).1) .falls := by
  cases decl with
  | var name _ expr => exact acts_insertVar expr
  | let_ name _ expr => exact acts_insertVar (some expr)
  | typeAlias => exact acts_nil

/-- A path through code that is not a statement of the source. -/
theorem runs_act {code : List (Action (List Use))} (h : Runs p (act code) t (some o)) : t = [.eval code] ∧ o = .falls := by
  cases h
  exact ⟨rfl, rfl⟩

/-- A path through a jump, after what it leaves is destroyed. -/
theorem runs_jump {code : List (Action (List Use))} {jump : Code (List Use)} {out : Outcome} (hout : out ≠ .falls)
    (hjump : ∀ p t o, Runs p jump t (some o) → t = [] ∧ o = out) (h : Runs p (.block [act code, jump]) t (some o)) :
    t = [.eval code] ∧ o = out := by
  cases h with
  | block h =>
    cases h with
    | leave h ho => exact absurd (congrArg some (runs_act h).2) ho
    | next h hrest =>
      obtain ⟨rfl, -⟩ := runs_act h
      cases hrest with
      | leave hrest ho =>
        obtain ⟨rfl, rfl⟩ := hjump _ _ _ hrest
        exact ⟨rfl, rfl⟩
      | next hrest _ => exact absurd (hjump _ _ _ hrest).2.symm hout

theorem acts_nodes_nil {inside : Position → Prop} {i : ℕ} (h : RunsNodes p i [] t (some o)) :
    Acts inside live leaves (steps dtor (actions t)) o := by
  cases h
  exact acts_nil

theorem acts_nodes_cons {inside : Position → Prop} {code : Code (List Use)} {codes : List (Code (List Use))}
    (hcode : ∀ p t o, Runs p code t (some o) → Acts inside live leaves (steps dtor (actions t)) o)
    (hcodes : ∀ p i t o, RunsNodes p i codes t (some o) → Acts inside live leaves (steps dtor (actions t)) o) {i : ℕ}
    (h : RunsNodes p i (code :: codes) t (some o)) : Acts inside live leaves (steps dtor (actions t)) o := by
  cases h with
  | leave h ho => exact hcode _ _ _ h
  | next h hrest =>
    rw [actions_append, steps_append]
    exact (hcode _ _ _ h).append (hcodes _ _ _ _ hrest)

/-- The iterations of a loop. -/
theorem acts_loop {inside : Position → Prop} {cond : List (Action (List Use))} {incr : List (Event (List (Action (List Use))))}
    {body : Code (List Use)} (hcond : Acts inside live leaves (steps dtor cond) .falls)
    (hincr : Acts inside live leaves (steps dtor (actions incr)) .falls)
    (hbody : ∀ t o, Runs p body t (some o) → Acts inside live [] (steps dtor (actions t)) o)
    {t : List (Event (List (Action (List Use))))} {out : Option Outcome} (h : RunsLoop cond incr p body t out) :
    ∀ o, out = some o → Acts inside live leaves (steps dtor (actions t)) o := by
  refine runsLoop_induct ?_ ?_ (fun t out hruns hiterates ↦ ?_) (fun t t' out _ hruns hiterates ih ↦ ?_) h
  · intro o ho
    cases ho
  · intro o ho
    cases ho
    rwa [actions, actions, List.append_nil]
  · intro o ho
    cases out with
    | none => cases ho
    | some out =>
      rw [actions, steps_append]
      exact hcond.append ((hbody _ _ hruns).leaveLoop ho)
  · intro o ho
    cases out with
    | none => cases hiterates
    | some out =>
      rw [actions, actions_append, actions_append, steps_append, steps_append, steps_append]
      exact hcond.append ((hbody _ _ hruns).falls.append (hincr.append (ih o ho)))

theorem uses_checkEvents (pos : Position) (scopes : Scopes) : (cases : List (SwitchCase (List Use))) → (i : ℕ) →
    ∀ step ∈ steps dtor (actions (checkEvents (visitCases cases pos i scopes.length scopes).1)), ∃ objs, step = .use objs
  | [], _, _, h => nomatch h
  | .mk expr body :: cases, i, step, h => by
    rw [visitCases_cons, checkEvents, List.flatMap_cons, actions_append, steps_append] at h
    rcases List.mem_append.mp h with h | h
    · cases expr with
      | none => cases h
      | some uses => exact ⟨_, List.mem_singleton.mp h⟩
    · exact uses_checkEvents pos scopes cases (i + 1) step h

/-- Comparisons with cases of a switch only use objects. -/
theorem uses_checks {cases : List (SwitchCase (List Use))} {i : ℕ} {checks : List (Event (List (Action (List Use))))}
    (h : checks <+: checkEvents (visitCases cases pos i scopes.length scopes).1) :
    ∀ step ∈ steps dtor (actions checks), ∃ objs, step = .use objs := by
  obtain ⟨_, hchecks⟩ := h
  intro step hstep
  apply uses_checkEvents pos scopes cases i
  rw [← hchecks, actions_append, steps_append]
  exact List.mem_append_left _ hstep

/-- A path through a switch compares its value with some of the cases and runs through those behind the entered one. -/
theorem runs_swich {ε : Type} {expr : ε} {cases : List (SwitchCase ε)} {mark : Bool} {t : List (Event ε)}
    (h : Runs p (.swich expr cases mark) t (some o)) :
    ∃ checks rest, t = .eval expr :: (checks ++ rest) ∧ checks <+: checkEvents cases ∧
      ((rest = [] ∧ o = .falls) ∨
        ∃ before entered, cases = before ++ entered ∧ RunsFrom p before.length entered rest (some o)) := by
  cases h with
  | @swichCase _ _ before value body after _ t _ hfrom =>
    refine ⟨checkEvents before ++ [.eval value], t, by simp, ⟨checkEvents after, ?_⟩, .inr ⟨_, _, rfl, hfrom⟩⟩
    simp [checkEvents, SwitchCase.expr, optEvents]
  | swichDefault hfrom => exact ⟨_, _, rfl, List.prefix_refl _, .inr ⟨_, _, rfl, hfrom⟩⟩
  | swichSkip => exact ⟨_, [], by rw [List.append_nil], List.prefix_refl _, .inl ⟨rfl, rfl⟩⟩

mutual

/-- The code of a statement constructs what is declared in it, and destroys nothing else but objects of the scopes around
it: at a jump those that it leaves, at a return all of them. -/
theorem visit_acts : (s : Stat (List Use)) → (pos : Position) → (index : ℕ) → (head : List Position) → (outer : Scopes) →
    index ≤ outer.length → {p : Position} → {t : List (Event (List (Action (List Use))))} → {o : Outcome} →
      Runs p (visit s pos index (head :: outer)).1 t (some o) →
        Acts (pos <:+ ·) (alive dtor (head :: outer)) (leaving dtor index (head :: outer)) (steps dtor (actions t)) o
  | .block nodes, pos, index, head, outer, hindex, p, t, o, h => by
    cases h with
    | block h =>
      have hindex' : index ≤ (head :: outer).length := Nat.le_succ_of_le hindex
      have hnodes := visitNodes_acts nodes pos 0 index [] (head :: outer) hindex' h
      rw [leaving_cons hindex'] at hnodes
      exact hnodes.widen fun obj ⟨k, _, hk⟩ ↦ (List.suffix_cons k pos).trans hk
  | .fi cond body none, pos, index, head, outer, hindex, p, t, o, h => by
    cases h with
    | fiBody h =>
      have hbody := visit_acts body (0 :: pos) index head outer hindex h
      rw [actions, steps_append]
      exact (acts_eval cond).append (hbody.widen fun obj hk ↦ (List.suffix_cons 0 pos).trans hk)
    | fiSkip => exact acts_eval cond
  | .fi cond body (some elseBody), pos, index, head, outer, hindex, p, t, o, h => by
    cases h with
    | fiBody h =>
      have hbody := visit_acts body (0 :: pos) index head outer hindex h
      rw [actions, steps_append]
      exact (acts_eval cond).append (hbody.widen fun obj hk ↦ (List.suffix_cons 0 pos).trans hk)
    | fiElse h =>
      obtain ⟨head', hregisters, howned⟩ := visit_registers dtor body (0 :: pos) index head outer
      rw [hregisters] at h
      have helse := visit_acts elseBody (1 :: pos) index head' outer hindex h
      rw [actions, steps_append]
      exact (acts_eval cond).append (helse.registers howned hindex
        (fun obj hobj ↦ (List.suffix_cons 0 pos).trans (registered_inside body (0 :: pos) obj hobj))
        fun obj hk ↦ (List.suffix_cons 1 pos).trans hk)
  | .swich expr cases mark, pos, index, head, outer, hindex, p, t, o, h => by
    obtain ⟨checks, rest, rfl, hchecks, hrest⟩ := runs_swich h
    have hvalue : Acts (pos <:+ ·) (alive dtor (head :: outer)) (leaving dtor index (head :: outer))
        (steps dtor [.eval expr, .start pos]) .falls := (acts_eval expr).append (acts_start (List.suffix_refl pos))
    rw [actions, actions_append, steps_append, steps_append]
    refine hvalue.append ((acts_uses (uses_checks hchecks)).append ?_)
    rcases hrest with ⟨rfl, rfl⟩ | ⟨before, entered, hcases, hfrom⟩
    · exact acts_nil
    · exact (visitCases_acts cases pos 0 ([] :: head :: outer) hcases hfrom).widen
        fun obj ⟨k, _, hk⟩ ↦ (List.suffix_cons k pos).trans hk
  | .terminate, pos, index, head, outer, hindex, p, t, o, h => by
    obtain ⟨rfl, rfl⟩ := runs_act h
    rw [actions, actions, List.append_nil, steps_destroy]
    exact acts_destroys (fun obj hobj ↦ .inl (leaving_subset hobj)) (fun ho ↦ by rcases ho with ho | ho <;> cases ho)
      fun ho ↦ by cases ho
  | .brake, pos, index, head, outer, hindex, p, t, o, h => by
    obtain ⟨rfl, rfl⟩ := runs_jump Outcome.noConfusion (fun _ _ _ hjump ↦ by cases hjump; exact ⟨rfl, rfl⟩) h
    rw [actions, actions, List.append_nil, steps_destroy]
    exact acts_destroys (fun obj hobj ↦ .inl (leaving_subset hobj)) (fun _ ↦ List.Subset.refl _) fun ho ↦ by cases ho
  | .continu, pos, index, head, outer, hindex, p, t, o, h => by
    obtain ⟨rfl, rfl⟩ := runs_jump Outcome.noConfusion (fun _ _ _ hjump ↦ by cases hjump; exact ⟨rfl, rfl⟩) h
    rw [actions, actions, List.append_nil, steps_destroy]
    exact acts_destroys (fun obj hobj ↦ .inl (leaving_subset hobj)) (fun _ ↦ List.Subset.refl _) fun ho ↦ by cases ho
  | .ret expr, pos, index, head, outer, hindex, p, t, o, h => by
    cases h with
    | ret =>
      have hdestroys : Acts (pos <:+ ·) (alive dtor (head :: outer)) (leaving dtor index (head :: outer))
          (steps dtor (destroy 0 (head :: outer))) .returns := by
        rw [steps_destroy, leaving_zero]
        exact acts_destroys (fun obj hobj ↦ .inl hobj) (fun ho ↦ by rcases ho with ho | ho <;> cases ho)
          fun _ ↦ List.Subset.refl _
      rw [optEvents, actions, actions, List.append_nil]
      cases expr with
      | none => exact hdestroys
      | some uses => exact (acts_eval uses).append hdestroys
  | .wile cond body, pos, index, head, outer, hindex, p, t, o, h => by
    cases h with
    | wile h =>
      refine acts_loop (acts_eval cond) acts_nil (fun t o h ↦ ?_) h _ rfl
      exact (visit_acts body (0 :: pos) (head :: outer).length [] (head :: outer) (Nat.le_refl _) h).mono
        (fun obj hk ↦ (List.suffix_cons 0 pos).trans hk) (fun obj hobj ↦ .inl hobj) (List.Subset.refl _)
        (List.nil_subset _)
  | .four init cond incr body, pos, index, head, outer, hindex, p, t, o, h => by
    obtain ⟨inner, hregisters, howned⟩ := visitOptAsgn_registers dtor (0 :: pos) [] (head :: outer) init
    obtain ⟨inner', hregistersBody, -⟩ :=
      visit_registers dtor body (2 :: pos) (inner :: head :: outer).length [] (inner :: head :: outer)
    obtain ⟨inner'', hregistersIncr, hownedIncr⟩ := visitOptAsgn_registers dtor (1 :: pos) inner (head :: outer) incr
    have hinside : ∀ obj ∈ own dtor (optAsgnDeclares init) (0 :: pos), pos <:+ obj :=
      fun obj hobj ↦ (List.suffix_cons 0 pos).trans (own_inside hobj)
    have hinit {live leaves : List Position} : Acts (pos <:+ ·) live leaves
        (steps dtor (visitOptAsgn init (0 :: pos) ([] :: head :: outer)).1) .falls :=
      (acts_visitOptAsgn init).widen fun obj hk ↦ (List.suffix_cons 0 pos).trans hk
    have hincr {live leaves : List Position} : Acts (pos <:+ ·) live leaves
        (steps dtor (visitOptAsgn incr (1 :: pos) (inner :: head :: outer)).1) .falls :=
      (acts_visitOptAsgn incr).widen fun obj hk ↦ (List.suffix_cons 1 pos).trans hk
    rw [visit_four hregisters hregistersBody hregistersIncr] at h
    cases h with
    | block h =>
      refine acts_nodes_cons (fun _ _ _ h ↦ ?_) (fun _ _ _ _ h ↦ acts_nodes_cons (fun _ _ _ h ↦ ?_)
        (fun _ _ _ _ h ↦ acts_nodes_cons (fun _ _ _ h ↦ ?_) (fun _ _ _ _ h ↦ acts_nodes_nil h) h) h) h
      · obtain ⟨rfl, rfl⟩ := runs_act h
        rw [actions, actions, List.append_nil]
        exact hinit
      · cases h with
        | four h =>
          refine acts_loop (acts_eval cond) ?_ (fun t o h ↦ ?_) h _ rfl
          · rw [optAsgnEvents, asgnEvents, actions, actions, List.append_nil]
            exact hincr
          · have hbody := visit_acts body (2 :: pos) (inner :: head :: outer).length [] (inner :: head :: outer)
              (Nat.le_refl _) h
            rw [alive_cons, owned_nil, List.nil_append, alive_cons, howned, owned_nil, List.append_nil] at hbody
            exact hbody.mono (fun obj hk ↦ (List.suffix_cons 2 pos).trans hk)
              (fun obj hobj ↦ (List.mem_append.mp hobj).symm.imp_right (hinside obj)) (List.subset_append_right _ _)
              (List.nil_subset _)
      · obtain ⟨rfl, rfl⟩ := runs_act h
        rw [actions, actions, List.append_nil, steps_destroy, leaving_cons (Nat.le_refl _), leaving_length, List.append_nil,
          hownedIncr, howned]
        refine acts_destroys (fun obj hobj ↦ .inr ?_) (fun ho ↦ by rcases ho with ho | ho <;> cases ho)
          fun ho ↦ by cases ho
        rw [owned_nil, List.append_nil] at hobj
        exact (List.mem_append.mp hobj).elim (fun hobj ↦ (List.suffix_cons 1 pos).trans (own_inside hobj)) (hinside obj)
  | .decl decl, pos, index, head, outer, hindex, p, t, o, h => by
    obtain ⟨rfl, rfl⟩ := runs_act h
    rw [actions, actions, List.append_nil]
    exact acts_visitDecl decl
  | .asgn asgn, pos, index, head, outer, hindex, p, t, o, h => by
    obtain ⟨rfl, rfl⟩ := runs_act h
    rw [actions, actions, List.append_nil]
    exact acts_visitAsgn asgn

theorem visitNodes_acts : (nodes : Body) → (pos : Position) → (i index : ℕ) → (head : List Position) → (outer : Scopes) →
    index ≤ outer.length → {p : Position} → {j : ℕ} → {t : List (Event (List (Action (List Use))))} → {o : Outcome} →
      RunsNodes p j (visitNodes nodes pos i index (head :: outer)).1 t (some o) →
        Acts (fun obj ↦ ∃ k, i ≤ k ∧ (k :: pos) <:+ obj) (alive dtor (head :: outer)) (leaving dtor index (head :: outer))
          (steps dtor (actions t)) o
  | [], pos, i, index, head, outer, hindex, p, j, t, o, h => acts_nodes_nil h
  | node :: nodes, pos, i, index, head, outer, hindex, p, j, t, o, h => by
    obtain ⟨head', hregisters, howned⟩ := visit_registers dtor node (i :: pos) index head outer
    have hinside : ∀ obj, (i :: pos) <:+ obj → ∃ k, i ≤ k ∧ (k :: pos) <:+ obj := fun obj hk ↦ ⟨i, Nat.le_refl i, hk⟩
    refine acts_nodes_cons (fun _ _ _ h ↦ ?_) (fun _ _ _ _ h ↦ ?_) h
    · exact (visit_acts node (i :: pos) index head outer hindex h).widen hinside
    · rw [hregisters] at h
      exact (visitNodes_acts nodes pos (i + 1) index head' outer hindex h).registers howned hindex
        (fun obj hobj ↦ hinside obj (registered_inside node (i :: pos) obj hobj))
        fun obj ⟨k, hk, hsuffix⟩ ↦ ⟨k, Nat.le_of_succ_le hk, hsuffix⟩

/-- A switch is entered at one of its cases. -/
theorem visitCases_acts : (cases : List (SwitchCase (List Use))) → (pos : Position) → (i : ℕ) → (scopes : Scopes) →
    {before entered : List (SwitchCase (List (Action (List Use))))} →
      (visitCases cases pos i scopes.length scopes).1 = before ++ entered → {p : Position} → {j : ℕ} →
        {t : List (Event (List (Action (List Use))))} → {o : Outcome} → RunsFrom p j entered t (some o) →
          {leaves : List Position} →
            Acts (fun obj ↦ ∃ k, i ≤ k ∧ (k :: pos) <:+ obj) (alive dtor scopes) leaves (steps dtor (actions t)) o
  | [], pos, i, scopes, before, entered, hcases, p, j, t, o, h, leaves => by
    obtain ⟨-, rfl⟩ := List.append_eq_nil_iff.mp hcases.symm
    cases h
  | .mk expr body :: cases, pos, i, scopes, before, entered, hcases, p, j, t, o, h, leaves => by
    rw [visitCases_cons] at hcases
    have hinside : ∀ obj, (∃ k, i + 1 ≤ k ∧ (k :: pos) <:+ obj) → ∃ k, i ≤ k ∧ (k :: pos) <:+ obj :=
      fun obj ⟨k, hk, hsuffix⟩ ↦ ⟨k, Nat.le_of_succ_le hk, hsuffix⟩
    cases before with
    | cons c before =>
      exact (visitCases_acts cases pos (i + 1) scopes (List.cons.inj hcases).2 h).widen hinside
    | nil =>
      rw [List.nil_append] at hcases
      subst hcases
      have hbody : ∀ {p t o}, Runs p (visit body (i :: pos) scopes.length ([] :: scopes)).1 t (some o) →
          Acts (fun obj ↦ ∃ k, i ≤ k ∧ (k :: pos) <:+ obj) (alive dtor scopes) [] (steps dtor (actions t)) o :=
        fun h ↦ (visit_acts body (i :: pos) scopes.length [] scopes (Nat.le_refl _) h).mono
          (fun obj hk ↦ ⟨i, Nat.le_refl i, hk⟩) (fun obj hobj ↦ .inl hobj) (List.Subset.refl _) (List.nil_subset _)
      generalize hleft : some o = left at h
      cases h with
      | @leave _ _ _ _ _ _ out h hne =>
        cases out with
        | none => cases hleft
        | some out => exact (hbody h).leaveLoop hleft.symm
      | next h hrest =>
        rw [actions_append, steps_append]
        subst hleft
        exact (hbody h).falls.append ((visitCases_acts cases pos (i + 1) scopes (List.nil_append _).symm hrest).widen hinside)

end

end Visit

end Stela.CodeGen.LocalScopes
