import Stela.CodeGen.SwitchRuns

/-!
# Statements run as they say

The simulation of the execution of statements by the blocks that are made for them.
-/

namespace Stela.CodeGen.StatBlocks

open Stela.Syntax Stela.Library Stela.Library.ControlFlow
open Blocks (FuncBuilder Value Const Oper emit tree eval here RunsTo Emitted)

variable {V σ : Type} {M : Machine Oper Const V σ}

/-! ## One after the other -/

section Seq

variable {gen gen' : Gen Unit} {flow : FlowData} {s s' s'' : σ} {e : Ending V}

theorem lands_of_does (h : ∀ st (values : ℕ → V), st.builder.Valid → Does M gen st values s fun _ _ _ s'' ↦ s'' = s') :
    Lands M gen flow s .normal s' := by
  intro st hst _ blocks hext pred values
  have hdoes := h st values hst
  refine hdoes.leads hext (fun pred values s hs ↦ ?_) pred
  subst hs
  exact .here ⟨hdoes.1.valid, pred, values, rfl⟩

theorem lands_seq (hspreads : SpreadsGen gen flow) (hspreads' : SpreadsGen gen' flow) (h : Lands M gen flow s .normal s')
    (h' : Lands M gen' flow s' e s'') : Lands M (do gen; gen') flow s e s'' := by
  intro st hst hflow blocks hext pred values
  have hpasses := hspreads.passes hst.made
  have hgrown : Extends (gen.run st).2.builder.blocks blocks :=
    (hspreads'.passes hpasses.made).grown.trans hext
  refine (h st hst hflow blocks hgrown pred values).bind ?_
  rintro _ ⟨hvalid, pred, values, rfl⟩
  exact h' _ hvalid (hflow.mono hpasses.count) blocks hext pred values

/-- What is after a jump is not run. -/
theorem lands_jump (hspreads : SpreadsGen gen flow) (hspreads' : SpreadsGen gen' flow) (h : Lands M gen flow s e s')
    (hjumps : e.jumps) : Lands M (do gen; gen') flow s e s' := by
  intro st hst hflow blocks hext pred values
  have hgrown : Extends (gen.run st).2.builder.blocks blocks :=
    (hspreads'.passes (hspreads.passes hst.made).made).grown.trans hext
  exact (h st hst hflow blocks hgrown pred values).mono fun c hc ↦ hc.of_jump hjumps

end Seq

section Leaves

variable {retArg : ℕ} {flow : FlowData} {dtors : List Object} {s s' : σ}

theorem lands_emitAsgn {code : AsgnCode} (hflat : AsgnCode.flat code = true) (h : evalAsgn M code s = some s') :
    Lands M (emitAsgn code) flow s .normal s' :=
  lands_of_does fun _ _ hst ↦ does_emitAsgn hst hflat h

theorem lands_destroy (h : destroyAll M dtors s = some s') : Lands M (destroy dtors) flow s .normal s' :=
  lands_of_does fun _ _ hst ↦ does_destroy dtors hst h

/-- The objects are destroyed before a jump. -/
theorem lands_createBr {dest : Option ℕ} {e : Ending V}
    (hends : ∀ t, dest = some t → ∀ blocks b c, At t s' c → Ends M blocks flow b e s' c)
    (hnone : dest = none → ∀ blocks b c, Ends M blocks flow b e s' c)
    (h : destroyAll M dtors s = some s') : Lands M (do destroy dtors; createBr dest) flow s e s' := by
  intro st hst _ blocks hext pred values
  have hdoes : Does M (destroy dtors) st values s fun _ _ _ s'' ↦ s'' = s' := does_destroy dtors hst h
  cases hdest : dest with
  | none => exact .here (hnone hdest _ _ _)
  | some t =>
    subst hdest
    refine hdoes.leads ((Builder.extends_append _ (.br t)).trans hext) (fun pred values s hs ↦ ?_) pred
    subst hs
    exact (leads_br hext).mono fun c hc ↦ hends t rfl _ _ c hc

theorem lands_brake (h : destroyAll M dtors s = some s') :
    Lands M (emitStat retArg (.brake dtors) flow) flow s .brake s' := by
  refine lands_createBr (fun t ht _ _ _ hc t' ht' ↦ ?_) (fun hnone _ _ _ t ht ↦ ?_) h
  · cases ht.symm.trans ht'
    exact hc
  · cases hnone.symm.trans ht

theorem lands_continu (h : destroyAll M dtors s = some s') :
    Lands M (emitStat retArg (.continu dtors) flow) flow s .continu s' := by
  refine lands_createBr (fun t ht _ _ _ hc t' ht' ↦ ?_) (fun hnone _ _ _ t ht ↦ ?_) h
  · cases ht.symm.trans ht'
    exact hc
  · cases hnone.symm.trans ht

/-- A return at the end of the current block. -/
theorem returns_here {b : FuncBuilder} {operand : Option Value} {blocks : ℕ → Block Oper Const}
    (hext : Extends (b.append (.ret operand)).blocks blocks) (pred : ℕ) (values : ℕ → V) (s : σ) :
    Returns M blocks (operand.map (Operand.eval M values)) s (here b pred values s) :=
  ⟨operand, Builder.getElem?_of_append hext, rfl, rfl⟩

theorem does_createReturnObject {type : Ty} {code : Code} {st : State} {values : ℕ → V} {v : V} {s₁ : σ}
    (hst : st.builder.Valid) (hflat : (tree code (!isTriviallyCopyable type)).flat = true)
    (h : evalExpr M code (!isTriviallyCopyable type) (M.const (.arg retArg)) s = some (v, s₁)) :
    Does M (createReturnObject retArg (some (type, code))) st values s fun value b values' s'' ↦
      ∃ operand, value = some (type, operand) ∧ Has M operand b values' v ∧ s'' = s₁ :=
  (does_genExpr hst hflat h).bind fun _ _ hvalid _ _ hq ↦ .pure hvalid ⟨_, rfl, hq⟩

theorem lands_ret {value : Option (Ty × Code)} {r : Option V} (hflat : flat (.ret value dtors) = true)
    (h : evalReturn M retArg dtors value s = some (r, s')) :
    Lands M (emitStat retArg (.ret value dtors) flow) flow s (.ret r) s' := by
  intro st hst _ blocks hext pred values
  cases value with
  | none =>
    obtain ⟨s₁, hdestroy, heq⟩ := Option.map_eq_some_iff.mp h
    cases heq
    have hdoes : Does M (destroy dtors) st values s fun _ _ _ s'' ↦ s'' = s' := does_destroy dtors hst hdestroy
    refine hdoes.leads ((Builder.extends_append _ (.ret none)).trans hext) (fun pred values s hs ↦ ?_) pred
    subst hs
    exact .here (returns_here hext pred values s)
  | some value =>
    obtain ⟨type, code⟩ := value
    obtain ⟨⟨v, s₁⟩, hvalue, h⟩ := Option.bind_eq_some_iff.mp h
    obtain ⟨s₂, hdestroy, h⟩ := Option.bind_eq_some_iff.mp h
    cases h
    let gen : Gen (Option (Ty × Value)) := do
      let retObj ← createReturnObject retArg (some (type, code))
      destroy dtors
      return retObj
    have hdoes : Does M gen st values s fun value b values' s'' ↦
        ∃ operand, value = some (type, operand) ∧ operand.eval M values' = v ∧ s'' = s' := by
      refine (does_createReturnObject hst hflat hvalue).bind fun values₁ _ hvalid _ _ ⟨operand, hobj, hv, heq⟩ ↦ ?_
      refine (does_destroy _ hvalid (heq ▸ hdestroy)).bind fun values₂ _ hvalid hsame _ heq ↦ .pure hvalid ?_
      exact ⟨operand, hobj, (hv.1.eval_eq M hsame).trans hv.2, heq⟩
    obtain ⟨-, values', s'', hruns, -, operand, hobj, rfl, rfl⟩ := hdoes
    have hrun : ((emitStat retArg (.ret (some (type, code)) dtors) flow).run st).2.builder = (gen.run st).2.builder.append
        (.ret (if !type.isVoid ∧ isTriviallyCopyable type then some operand else none)) := by
      change ((returnObject (gen.run st).1).run (gen.run st).2).2.builder = _
      rw [hobj]
      rfl
    rw [hrun] at hext
    obtain ⟨pred', hsteps⟩ := hruns blocks ((Builder.extends_append _ _).trans hext) pred
    refine .of_steps hsteps (.here ?_)
    have hreturns := returns_here (M := M) hext pred' values' s''
    rwa [apply_ite (Option.map _)] at hreturns

end Leaves

/-! ## Compound statements -/

section Compound

variable {retArg : ℕ} {flow : FlowData} {s s' : σ} {e : Ending V}

/-- What has to be shown of a part of a statement. -/
def SimPart (M : Machine Oper Const V σ) (retArg : ℕ) : Part → σ → Ending V → σ → Prop
  | .stat code, s, e, s' => SimStat M retArg code s e s'
  | .nodes nodes, s, e, s' => regularNodes nodes = true → flatNodes nodes = true →
      ∀ flow, Lands M (emitNodes retArg nodes flow) flow s e s'
  | .cases bodies, s, e, s' => SimCases M retArg bodies s e s'
  | .loop cond incr body, s, e, s' => SimLoop M retArg cond incr body s e s'

theorem spreadsGen_emitNodes {nodes : List StatCode} (hregular : regularNodes nodes = true) (flow : FlowData) :
    SpreadsGen (emitNodes retArg nodes flow) flow :=
  ⟨_, _, _, spreads_emitNodes retArg nodes hregular flow⟩

/-- The value of a switch is evaluated before anything else. -/
theorem lands_swich {obj : Object} {value : Code} {checks : List (Option CheckCode)} {bodies : List StatCode}
    {alwaysReturns : Bool} {dtors : List Object} {v : V} {s₁ : σ} (hflat : (tree value true).flat = true)
    (hvalue : evalExpr M value true (addressOf M obj) s = some (v, s₁)) {rest : Gen Unit}
    (hrun : ∀ st, (emitStat retArg (.swich obj value checks bodies alwaysReturns dtors) flow).run st =
      rest.run ((genExpr value true (address obj)).run st).2) (hgrown : ∀ st : State, st.builder.Valid → Extends st.builder.blocks (rest.run st).2.builder.blocks)
    (hrest : Lands M rest flow s₁ e s') :
    Lands M (emitStat retArg (.swich obj value checks bodies alwaysReturns dtors) flow) flow s e s' := by
  intro st hst hflow blocks hext pred values
  rw [hrun] at hext ⊢
  have hdoes : Does M (genExpr value true (address obj)) st values s fun operand b values' s'' ↦
      Has M operand b values' v ∧ s'' = s₁ := does_genExpr hst hflat hvalue
  have hvalid := hdoes.1.valid
  refine hdoes.leads ((hgrown _ hvalid).trans hext) (fun pred values s hq ↦ ?_) pred
  obtain ⟨-, rfl⟩ := hq
  refine hrest _ hvalid (hflow.mono ?_) blocks hext pred values
  exact (passes_of hst.made (from_genExpr value true (address obj))).count

section Cases

variable {obj : Object} {checks : List (Option CheckCode)} {bodies : List StatCode} {alwaysReturns : Bool}
  {dtors : List Object} {st : State}

theorem grown_endSwitch (hst : st.builder.Made) :
    Extends st.builder.blocks ((endSwitch alwaysReturns dtors).run st).2.builder.blocks := by
  cases alwaysReturns with
  | true => exact Builder.extends_append st.builder .unreachable
  | false => exact (passes_of hst (from_destroy dtors)).grown

section Made

variable (hst : Sound st.builder) (hne : checks ≠ []) (hcount : checks.countP Option.isNone ≤ 1)
  (hlength : checks.length = bodies.length) (hbodies : regularNodes bodies = true)

include hst hne hcount hlength hbodies in
theorem grown_switchFilled : Extends (switchFilled retArg obj checks bodies st).builder.blocks
    ((emitCases obj checks (emitCaseBodies retArg bodies) alwaysReturns dtors).run st).2.builder.blocks := by
  have hidle := idle_switchFilled retArg obj hst.made hne hcount hlength hbodies
  have hfrom := (visits_switchFilled retArg obj hst.made hne hcount hlength hbodies).from'
  rw [run_emitCases_eq]
  have hmade : ((switchFilled retArg obj checks bodies st).at (doneOf st.builder.count checks.length)).builder.Made :=
    (hidle.valid (sound_of_from hfrom hst)).made
  exact grown_endSwitch hmade

include hst hne hcount hlength hbodies in
theorem grown_switchLinked : Extends (switchLinked obj checks st).builder.blocks
    ((emitCases obj checks (emitCaseBodies retArg bodies) alwaysReturns dtors).run st).2.builder.blocks :=
  (visits_switchFilled retArg obj hst.made hne hcount hlength hbodies).grown.trans (grown_switchFilled hst hne hcount hlength hbodies)

include hst hne in
theorem grown_emitCases (hcount : checks.countP Option.isNone ≤ 1) (hlength : checks.length = bodies.length) (hbodies : regularNodes bodies = true) :
    Extends st.builder.blocks ((emitCases obj checks (emitCaseBodies retArg bodies) alwaysReturns dtors).run st).2.builder.blocks := by
  have hentered : Extends st.builder.blocks (switchEntered checks st).builder.blocks :=
    Builder.extends_append { st.builder with count := doneOf st.builder.count checks.length + 1 } (.br st.builder.count)
  have hchecked := (visits_switchChecked obj hst.made hne hcount checks.length).grown
  have hlinked := (visits_switchLinked obj hst.made hne hcount).grown
  exact hentered.trans (hchecked.trans (hlinked.trans (grown_switchLinked hst hne hcount hlength hbodies)))

end Made

section Lands

variable (hne : checks ≠ []) (hcount : checks.countP Option.isNone ≤ 1) (hlength : checks.length = bodies.length)
  (hbodies : regularNodes bodies = true) (hflat : flatChecks checks = true) {s₁ s₂ : σ} {found : Option ℕ}

include hne hcount hlength hbodies hflat in
theorem lands_noCase (hselect : select M obj checks s = some (none, s₁)) (hdtors : destroyAll M dtors s₁ = some s') :
    Lands M (emitCases obj checks (emitCaseBodies retArg bodies) false dtors) flow s .normal s' := by
  intro st hst _ blocks hext pred values
  have hlinked := (grown_switchLinked (.of_valid hst) hne hcount hlength hbodies).trans hext
  refine (leads_checks (.of_valid hst) hne hcount hlinked hflat hselect pred values).bind fun g hg ↦ ?_
  exact ends_switch (.of_valid hst) hne hcount hlength hbodies hdtors hext flow g hg

include hne hcount hlength hbodies hflat in
/-- The body of the selected case runs, and maybe those after it. -/
theorem leads_oneCase {c : ℕ} (hselect : select M obj checks s = some (some c, s₁)) (hflatBodies : flatNodes bodies = true)
    (hcases : SimCases M retArg (bodies.drop c) s₁ e s₂) {st : State} (hst : st.builder.Valid)
    {blocks : ℕ → Block Oper Const}
    (hext : Extends ((emitCases obj checks (emitCaseBodies retArg bodies) alwaysReturns dtors).run st).2.builder.blocks blocks)
    (pred : ℕ) (values : ℕ → V) : Leads M blocks (here st.builder pred values s)
      (WholeEnds M blocks (doneOf st.builder.count checks.length) e s₂) := by
  have hlinked := (grown_switchLinked (.of_valid hst) hne hcount hlength hbodies).trans hext
  have hfilled := (grown_switchFilled (.of_valid hst) hne hcount hlength hbodies).trans hext
  refine (leads_checks (.of_valid hst) hne hcount hlinked hflat hselect pred values).bind fun g hg ↦ ?_
  exact leads_emitCaseBodies_drop (.of_valid hst) bodies c hcases hflatBodies
    (caseBlocks_switchLinked obj hst.made hne hcount hlength hbodies) hfilled g hg

include hne hcount hlength hbodies hflat in
theorem lands_oneCase {c : ℕ} (hselect : select M obj checks s = some (some c, s₁)) (hflatBodies : flatNodes bodies = true)
    (hcases : SimCases M retArg (bodies.drop c) s₁ .normal s₂) (hdtors : destroyAll M dtors s₂ = some s') :
    Lands M (emitCases obj checks (emitCaseBodies retArg bodies) false dtors) flow s .normal s' := by
  intro st hst _ blocks hext pred values
  refine (leads_oneCase hne hcount hlength hbodies hflat hselect hflatBodies hcases hst hext pred values).bind fun g hg ↦ ?_
  exact ends_switch (.of_valid hst) hne hcount hlength hbodies hdtors hext flow g hg

include hne hcount hlength hbodies hflat in
theorem lands_returnCase {c : ℕ} {r : Option V} (hselect : select M obj checks s = some (some c, s₁))
    (hflatBodies : flatNodes bodies = true) (hcases : SimCases M retArg (bodies.drop c) s₁ (.ret r) s') :
    Lands M (emitCases obj checks (emitCaseBodies retArg bodies) alwaysReturns dtors) flow s (.ret r) s' :=
  fun _ hst _ _ hext pred values ↦
    leads_oneCase hne hcount hlength hbodies hflat hselect hflatBodies hcases hst hext pred values

end Lands

theorem ne_nil_of_select {c : ℕ} (hselect : select M obj checks s = some (some c, s')) : checks ≠ [] := by
  rintro rfl
  cases hselect

/-- A switch with at least one case. -/
theorem simStat_swich {value : Code} {v : V} {s₁ : σ} (hne : checks ≠ [])
    (hvalue : evalExpr M value true (addressOf M obj) s = some (v, s₁))
    (h : checks.countP Option.isNone ≤ 1 → checks.length = bodies.length → regularNodes bodies = true →
      flatChecks checks = true → flatNodes bodies = true → ∀ flow,
        Lands M (emitCases obj checks (emitCaseBodies retArg bodies) alwaysReturns dtors) flow s₁ e s') :
    SimStat M retArg (.swich obj value checks bodies alwaysReturns dtors) s e s' := by
  intro hregular hflat flow
  simp only [regular, Bool.and_eq_true, beq_iff_eq, decide_eq_true_eq] at hregular
  simp only [flat, Bool.and_eq_true] at hflat
  obtain ⟨hlength, hcount, hbodies⟩ := hregular
  have hempty : ¬checks.isEmpty = true := fun hempty ↦ hne (List.isEmpty_iff.mp hempty)
  refine lands_swich hflat.1 hvalue (fun st ↦ ?_) (fun st hst ↦ grown_emitCases (.of_valid hst) hne hcount hlength hbodies)
    (h hcount hlength hbodies hflat.2.1 hflat.2.2 flow)
  rw [emitStat]
  simp only [if_neg hempty]
  rfl

theorem simStat_noCases {value : Code} {v : V} {s₁ : σ} (hvalue : evalExpr M value true (addressOf M obj) s = some (v, s₁))
    (hdtors : destroyAll M dtors s₁ = some s') :
    SimStat M retArg (.swich obj value [] bodies alwaysReturns dtors) s .normal s' := by
  intro _ hflat flow
  refine lands_swich (Bool.and_eq_true_iff.mp hflat).1 hvalue (fun _ ↦ rfl) (fun st hst ↦ ?_) (lands_destroy hdtors)
  exact (passes_of hst.made (from_destroy dtors)).grown

end Cases

/-! ## Loops -/

section Loops

variable {cond : FullCode} {incr init : AsgnCode} {body : StatCode} {dtors : List Object} {s₁ s₂ s₃ : σ} {e' : Ending V}

theorem simLoop_end (hcond : evalCond M cond s = some (false, s')) : SimLoop M retArg cond incr body s .normal s' :=
  fun _ _ _ _ _ hblocks g hg ↦ hblocks.cond s false s' hcond g hg

/-- A round in which the body ends the loop. -/
theorem simLoop_last (hcond : evalCond M cond s = some (true, s₁)) (hbody : SimStat M retArg body s₁ e s')
    (hend : e = .brake ∧ e' = .normal ∨ ∃ value, e = .ret value ∧ e' = .ret value) :
    SimLoop M retArg cond incr body s e' s' := by
  intro blocks condBlock bodyBlock incrBlock done hblocks g hg
  have hleads := (hblocks.cond s true s₁ hcond g hg).bind (hblocks.body s₁ e s' hbody)
  obtain ⟨rfl, rfl⟩ | ⟨value, rfl, rfl⟩ := hend
  · exact hleads
  · exact hleads

theorem simLoop_next (hcond : evalCond M cond s = some (true, s₁)) (hbody : SimStat M retArg body s₁ e s₂)
    (hnext : e = .normal ∨ e = .continu) (hincr : evalAsgn M incr s₂ = some s₃)
    (hrest : SimLoop M retArg cond incr body s₃ e' s') : SimLoop M retArg cond incr body s e' s' := by
  intro blocks condBlock bodyBlock incrBlock done hblocks g hg
  have hround : Leads M blocks g (At incrBlock s₂) := by
    have hleads := (hblocks.cond s true s₁ hcond g hg).bind (hblocks.body s₁ e s₂ hbody)
    obtain rfl | rfl := hnext
    · exact hleads
    · exact hleads
  exact (hround.bind (hblocks.incr s₂ s₃ hincr)).bind (hrest blocks condBlock bodyBlock incrBlock done hblocks)

theorem simStat_wile (hloop : SimLoop M retArg cond .none body s e s') : SimStat M retArg (.wile cond body) s e s' := by
  intro hregular hflat flow st hst _ blocks hext pred values
  have hregularBody : regular body = true := hregular
  obtain ⟨hflatCond, hflatBody⟩ := Bool.and_eq_true_iff.mp hflat
  obtain ⟨condBlock, bodyBlock, done, hvalid, hhere, hblocks⟩ :=
    @loopBlocks_emitWhile _ _ M retArg _ _ hregularBody hflatCond hflatBody _ hst
  obtain ⟨hmade, henter⟩ := hblocks blocks hext
  refine ((henter pred values s).bind (hloop blocks condBlock bodyBlock condBlock done hmade)).mono fun g hg ↦ ?_
  cases e with
  | normal =>
    obtain ⟨pred, values, rfl⟩ := hg
    exact ⟨hvalid, pred, values, (hhere pred values s').symm⟩
  | ret value => exact hg
  | brake | continu => exact hg.elim

/-- The initialisation of a `for`, and then the loop. -/
theorem lands_four {gen : Gen Unit} (hflat : AsgnCode.flat init = true) (hinit : evalAsgn M init s = some s₁)
    (hgrown : ∀ st : State, st.builder.Valid → Extends st.builder.blocks (gen.run st).2.builder.blocks)
    (h : Lands M gen flow s₁ e s') : Lands M (do emitAsgn init; gen) flow s e s' := by
  intro st hst hflow blocks hext pred values
  have hdoes : Does M (emitAsgn init) st values s fun _ _ _ s'' ↦ s'' = s₁ := does_emitAsgn hst hflat hinit
  refine hdoes.leads ((hgrown _ hdoes.1.valid).trans hext) (fun pred values s hs ↦ ?_) pred
  subst hs
  exact h _ hdoes.1.valid (hflow.mono (passes_of hst.made (from_emitAsgn init)).count) blocks hext pred values

theorem grown_emitFor (hregular : regular body = true) {st : State} (hst : st.builder.Valid) : Extends st.builder.blocks
    ((emitFor (emitStat retArg body) cond incr dtors).run st).2.builder.blocks :=
  (passes_of hst.made (from_emitFor cond incr dtors (fun _ ↦ trivial) (spreads_emitStat retArg body hregular))).grown

theorem simStat_four (hinit : evalAsgn M init s = some s₁) (hloop : SimLoop M retArg cond incr body s₁ e s₂)
    (hend : e = .normal ∧ destroyAll M dtors s₂ = some s' ∨ (∃ value, e = .ret value) ∧ s₂ = s') :
    SimStat M retArg (.four init cond incr body dtors) s e s' := by
  intro hregular hflat flow
  simp only [flat, Bool.and_eq_true] at hflat
  obtain ⟨hflatInit, hflatCond, hflatIncr, hflatBody⟩ := hflat
  have hregularBody : regular body = true := hregular
  refine lands_four hflatInit hinit (fun _ ↦ grown_emitFor hregularBody) fun st hst _ blocks hext pred values ↦ ?_
  obtain ⟨condBlock, bodyBlock, incrBlock, done, hblocks⟩ :=
    @loopBlocks_emitFor _ _ M retArg _ _ _ dtors hregularBody hflatCond hflatIncr hflatBody _ hst
  obtain ⟨hmade, henter, hleave⟩ := hblocks blocks hext
  refine ((henter pred values s₁).bind (hloop blocks condBlock bodyBlock incrBlock done hmade)).bind fun g hg ↦ ?_
  obtain ⟨rfl, hdtors⟩ | ⟨⟨value, rfl⟩, rfl⟩ := hend
  · exact hleave flow s₂ s' hdtors g hg
  · exact .here hg

end Loops

/-- The blocks run as the execution says: each rule of the execution is a run between the blocks of its parts. -/
theorem simPart_of_exec {part : Part} (h : Exec M retArg part s e s') : SimPart M retArg part s e s' := by
  induction h with
  | block _ ih => exact ih
  | nil => exact fun _ _ _ ↦ lands_of_does fun _ _ hst ↦ .pure hst rfl
  | cons _ _ ih ih' =>
    intro hregular hflat flow
    obtain ⟨hnode, hnodes⟩ := Bool.and_eq_true_iff.mp hregular
    obtain ⟨hflatNode, hflatNodes⟩ := Bool.and_eq_true_iff.mp hflat
    exact lands_seq (spreadsGen_emitStat hnode flow) (spreadsGen_emitNodes hnodes flow) (ih hnode hflatNode flow)
      (ih' hnodes hflatNodes flow)
  | jump _ hjumps ih =>
    intro hregular hflat flow
    obtain ⟨hnode, hnodes⟩ := Bool.and_eq_true_iff.mp hregular
    exact lands_jump (spreadsGen_emitStat hnode flow) (spreadsGen_emitNodes hnodes flow)
      (ih hnode (Bool.and_eq_true_iff.mp hflat).1 flow) hjumps
  | @troo cond body elseBody _ _ _ _ hcond _ ih =>
    intro hregular hflat flow
    cases elseBody with
    | none =>
      have hbody : regular body = true := hregular
      obtain ⟨hflatCond, hflatBody⟩ := Bool.and_eq_true_iff.mp hflat
      exact lands_emitIf hflatCond hcond (spreadsGen_emitStat hbody flow) (spreadsGen_pure flow)
        (fun _ ↦ ih hbody hflatBody flow) nofun
    | some elseBody =>
      obtain ⟨hflatCond, hflatBoth⟩ := Bool.and_eq_true_iff.mp hflat
      obtain ⟨hbody, helse⟩ := Bool.and_eq_true_iff.mp hregular
      exact lands_emitIf hflatCond hcond (spreadsGen_emitStat hbody flow) (spreadsGen_emitStat helse flow)
        (fun _ ↦ ih hbody (Bool.and_eq_true_iff.mp hflatBoth).1 flow) nofun
  | fols hcond _ ih =>
    intro hregular hflat flow
    obtain ⟨hflatCond, hflatBoth⟩ := Bool.and_eq_true_iff.mp hflat
    obtain ⟨hbody, helse⟩ := Bool.and_eq_true_iff.mp hregular
    exact lands_emitIf hflatCond hcond (spreadsGen_emitStat hbody flow) (spreadsGen_emitStat helse flow) nofun
      fun _ ↦ ih helse (Bool.and_eq_true_iff.mp hflatBoth).2 flow
  | @skip cond body _ _ hcond =>
    intro hregular hflat flow
    have hbody : regular body = true := hregular
    exact lands_emitIf (Bool.and_eq_true_iff.mp hflat).1 hcond (spreadsGen_emitStat hbody flow) (spreadsGen_pure flow)
      nofun fun _ ↦ lands_of_does fun _ _ hst ↦ .pure hst rfl
  | noCases hvalue hdtors => exact simStat_noCases hvalue hdtors
  | noCase hne hvalue hselect hdtors =>
    exact simStat_swich hne hvalue fun hcount hlength hbodies hflat _ _ ↦
      lands_noCase hne hcount hlength hbodies hflat hselect hdtors
  | oneCase hvalue hselect _ hdtors ih =>
    refine simStat_swich (ne_nil_of_select hselect) hvalue fun hcount hlength hbodies hflat hflatBodies _ ↦ ?_
    exact lands_oneCase (ne_nil_of_select hselect) hcount hlength hbodies hflat hselect hflatBodies ih hdtors
  | returnCase hvalue hselect _ ih =>
    refine simStat_swich (ne_nil_of_select hselect) hvalue fun hcount hlength hbodies hflat hflatBodies _ ↦ ?_
    exact lands_returnCase (ne_nil_of_select hselect) hcount hlength hbodies hflat hselect hflatBodies ih
  | caseEnd _ ih => exact simCases_end ih (.inl ⟨rfl, rfl⟩)
  | caseBreak _ ih => exact simCases_end ih (.inr (.inl ⟨rfl, rfl⟩))
  | caseContinue _ _ ih ih' => exact simCases_continue ih ih'
  | caseReturn _ ih => exact simCases_end ih (.inr (.inr ⟨_, rfl, rfl⟩))
  | terminate hdtors => exact fun _ _ _ ↦ lands_destroy hdtors
  | brake hdtors => exact fun _ _ _ ↦ lands_brake hdtors
  | continu hdtors => exact fun _ _ _ ↦ lands_continu hdtors
  | ret hvalue => exact fun _ hflat _ ↦ lands_ret hflat hvalue
  | asgn hasgn => exact fun _ hflat _ ↦ lands_emitAsgn hflat hasgn
  | wile _ ih => exact simStat_wile ih
  | four hinit _ hdtors ih => exact simStat_four hinit ih (.inl ⟨rfl, hdtors⟩)
  | fourReturn hinit _ ih => exact simStat_four hinit ih (.inr ⟨⟨_, rfl⟩, rfl⟩)
  | loopEnd hcond => exact simLoop_end hcond
  | loopBreak hcond _ ih => exact simLoop_last hcond ih (.inl ⟨rfl, rfl⟩)
  | loopReturn hcond _ ih => exact simLoop_last hcond ih (.inr ⟨_, rfl, rfl⟩)
  | loopNext hcond _ hnext hincr _ ih ih' => exact simLoop_next hcond ih hnext hincr ih'

end Compound

end Stela.CodeGen.StatBlocks
