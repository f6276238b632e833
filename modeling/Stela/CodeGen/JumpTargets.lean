import Stela.CodeGen.SwitchEntries

/-!
# The targets of jumps

The statements that the generator visits, each with the `FlowData` and the state that it is visited with. A loop or a
switch opens its bodies with targets of its own, and inside of a body these stay the same until another loop or
switch is opened.
-/

namespace Stela.CodeGen.StatBlocks

open Stela.Syntax Stela.Library Stela.Library.ControlFlow Relation
open Blocks (FuncBuilder Value Const Oper emit tree)

/-! ## Places -/

/-- A visit of a statement. -/
structure Place where
  code : StatCode
  flow : FlowData
  st : State

section Places

variable (retArg : ℕ)

/-- The state after the visit. -/
def Place.after (p : Place) : State :=
  ((emitStat retArg p.code p.flow).run p.st).2

/-- The block in which the code goes on after the visit. -/
def Place.exit (p : Place) : ℕ :=
  (p.after retArg).builder.curr

/-- After the condition of an `if`, whose branches start in the next two blocks. -/
def condState (cond : FullCode) (st : State) : State :=
  ((genCondBr cond st.builder.count (st.builder.count + 1)).run
    { st with builder := { st.builder with count := st.builder.count + 1 + 1 } }).2

def elseState (cond : FullCode) (body : StatCode) (flow : FlowData) (st : State) : State :=
  ((terminateLazy none).run ((emitStat retArg body flow).run ((condState cond st).at st.builder.count)).2).2

/-- The statements that are visited with the same `FlowData`. -/
inductive Inner : Place → Place → Prop where
  | block {before node nodes flow st} : Inner ⟨.block (before ++ node :: nodes), flow, st⟩
      ⟨node, flow, ((emitNodes retArg before flow).run st).2⟩
  | troo {cond body elseBody flow st} : Inner ⟨.fi cond body elseBody, flow, st⟩
      ⟨body, flow, (condState cond st).at st.builder.count⟩
  | fols {cond body elseBody flow st} : Inner ⟨.fi cond body (some elseBody), flow, st⟩
      ⟨elseBody, flow, (elseState retArg cond body flow st).at (st.builder.count + 1)⟩

/-- After the condition block of a loop and so many blocks more have been made. -/
def loopState (n : ℕ) (st : State) : State :=
  let s := (nextEmpty.run st).2
  { s with builder := { s.builder with count := s.builder.count + n } }

/-- The number of the block that comes after the condition block. -/
def loopCount (st : State) : ℕ :=
  (nextEmpty.run st).2.builder.count

/-- The bodies of a loop or a switch, and what a `continue` in a body goes to: the condition of a `while`, the
increment of a `for` and the next case of a switch. -/
inductive Opens : Place → Place → Option ℕ → Prop where
  | wile {cond body flow st} : Opens ⟨.wile cond body, flow, st⟩
      ⟨body, ⟨some (loopCount st + 1), some (nextEmpty.run st).1⟩, (loopState 2 st).at (loopCount st)⟩
      (some (nextEmpty.run st).1)
  | four {init cond incr body dtors flow st st'} : ((emitAsgn init).run st).2 = st' →
      Opens ⟨.four init cond incr body dtors, flow, st⟩
        ⟨body, ⟨some (loopCount st' + 2), some (loopCount st' + 1)⟩, (loopState 3 st').at (loopCount st')⟩
        (some (loopCount st' + 1))
  | swich {obj value checks bodies alwaysReturns dtors flow st st' c body} : checks ≠ [] → bodies[c]? = some body →
      ((genExpr value true (address obj)).run st).2 = st' →
      Opens ⟨.swich obj value checks bodies alwaysReturns dtors, flow, st⟩
        ⟨body, caseFlow (bodies.drop (c + 1)) (caseBlocksOf st'.builder.count checks.length + c)
            (doneOf st'.builder.count checks.length),
          (switchCase retArg obj checks bodies st' c).at (caseBlocksOf st'.builder.count checks.length + c)⟩
        (if c + 1 < bodies.length then some (caseBlocksOf st'.builder.count checks.length + (c + 1)) else none)

def Step (p q : Place) : Prop :=
  Inner retArg p q ∨ ∃ target, Opens retArg p q target

/-- All statements in a statement. -/
abbrev Visited : Place → Place → Prop :=
  ReflTransGen (Step retArg)

end Places

/-! ## One step -/

/-- The statement can be visited. -/
structure PlaceMade (p : Place) : Prop where
  made : p.st.builder.Made
  flow : FlowMade p.flow p.st.builder
  regular : regular p.code = true

section Steps

variable {retArg : ℕ} {p q : Place}

theorem Made.at {st : State} {k : ℕ} (h : st.builder.Made) (hk : k < st.builder.count) : (st.at k).builder.Made :=
  ⟨hk, h.unmade⟩

variable (retArg) in
theorem PlaceMade.passes (h : PlaceMade p) : Passes p.st.builder (p.after retArg).builder :=
  (spreadsGen_emitStat h.regular p.flow).passes h.made

theorem run_emitNodes_append : (first rest : List StatCode) → (flow : FlowData) → (st : State) →
    (emitNodes retArg (first ++ rest) flow).run st = (emitNodes retArg rest flow).run ((emitNodes retArg first flow).run st).2
  | [], _, _, _ => rfl
  | node :: first, rest, flow, st => run_emitNodes_append first rest flow ((emitStat retArg node flow).run st).2

theorem regularNodes_append : (first rest : List StatCode) →
    regularNodes (first ++ rest) = (regularNodes first && regularNodes rest)
  | [], _ => rfl
  | node :: first, rest => by
    rw [List.cons_append, regularNodes, regularNodes, regularNodes_append first rest, Bool.and_assoc]

theorem condState_made (cond : FullCode) {st : State} (hst : st.builder.Made) :
    (condState cond st).builder.Made ∧ st.builder.count + 1 + 1 ≤ (condState cond st).builder.count := by
  have hmade : ({ st.builder with count := st.builder.count + 1 + 1 } : FuncBuilder).Made :=
    ⟨hst.curr.trans (Nat.lt_add_of_pos_right Nat.two_pos), fun k hk ↦ hst.unmade k ((Nat.le_add_right _ 2).trans hk)⟩
  let s0 : State := { st with builder := { st.builder with count := st.builder.count + 1 + 1 } }
  have hpasses : Passes s0.builder (condState cond st).builder := passes_genCondBr hmade
  exact ⟨hpasses.made, hpasses.count⟩

theorem count_enterDone (done : Option ℕ) (st : State) : ((enterDone done).run st).2.builder.count = st.builder.count := by
  cases done <;> rfl

/-- The rest of an `if` after its first branch. -/
theorem count_emitIf {cond : FullCode} {body : StatCode} (elseBody : Gen Unit) {flow : FlowData} {st : State}
    (helse : Passes ((elseState retArg cond body flow st).at (st.builder.count + 1)).builder
      (elseBody.run ((elseState retArg cond body flow st).at (st.builder.count + 1))).2.builder) :
    (elseBody.run ((elseState retArg cond body flow st).at (st.builder.count + 1))).2.builder.count ≤
      ((emitIf cond (emitStat retArg body flow) elseBody).run st).2.builder.count := by
  let s6 := (elseBody.run ((elseState retArg cond body flow st).at (st.builder.count + 1))).2
  let done := ((terminateLazy none).run ((emitStat retArg body flow).run ((condState cond st).at st.builder.count)).2).1
  have hrun : (emitIf cond (emitStat retArg body flow) elseBody).run st =
      (enterDone ((terminateLazy done).run s6).1).run ((terminateLazy done).run s6).2 := rfl
  rw [hrun, count_enterDone]
  exact (passes_terminateLazy done helse.made).count

theorem troo_made (cond : FullCode) {body : StatCode} {flow : FlowData} {st : State} (hst : st.builder.Made)
    (hflow : FlowMade flow st.builder) (hbody : regular body = true) :
    PlaceMade ⟨body, flow, (condState cond st).at st.builder.count⟩ := by
  obtain ⟨hmade, hcount⟩ := condState_made cond hst
  have hlt : st.builder.count < (condState cond st).builder.count := (Nat.lt_add_of_pos_right Nat.two_pos).trans_le hcount
  exact ⟨Made.at hmade hlt, hflow.mono hlt.le, hbody⟩

variable (retArg) in
/-- The second branch starts in a block that has been made before the first one. -/
theorem fols_made (cond : FullCode) {body : StatCode} {flow : FlowData} {st : State} (hst : st.builder.Made)
    (hflow : FlowMade flow st.builder) (hbody : regular body = true) :
    ((elseState retArg cond body flow st).at (st.builder.count + 1)).builder.Made ∧
      FlowMade flow (elseState retArg cond body flow st).builder ∧
      (Place.after retArg ⟨body, flow, (condState cond st).at st.builder.count⟩).builder.count ≤
        (elseState retArg cond body flow st).builder.count := by
  have htroo := troo_made cond hst hflow hbody
  have hcount : st.builder.count + 1 + 1 ≤ (condState cond st).builder.count := (condState_made cond hst).2
  have hbodyPasses := htroo.passes retArg
  have hend : Passes (Place.after retArg ⟨body, flow, (condState cond st).at st.builder.count⟩).builder
      (elseState retArg cond body flow st).builder := passes_terminateLazy none hbodyPasses.made
  have hle : st.builder.count + 1 + 1 ≤ (elseState retArg cond body flow st).builder.count :=
    hcount.trans (hbodyPasses.count.trans hend.count)
  exact ⟨Made.at hend.made hle, hflow.mono ((Nat.le_add_right _ 2).trans hle), hend.count⟩

theorem Inner.made (h : Inner retArg p q) (hp : PlaceMade p) :
    PlaceMade q ∧ q.flow = p.flow ∧ (q.after retArg).builder.count ≤ (p.after retArg).builder.count := by
  obtain ⟨hmade, hflow, hregular⟩ := hp
  cases h with
  | @block before node nodes flow st =>
    have hboth : regularNodes (before ++ node :: nodes) = true := hregular
    rw [regularNodes_append, Bool.and_eq_true] at hboth
    obtain ⟨hbefore, hnode, hnodes⟩ := hboth.imp_right Bool.and_eq_true_iff.mp
    have hpasses : Passes st.builder ((emitNodes retArg before flow).run st).2.builder :=
      (spreadsGen_emitNodes hbefore flow).passes hmade
    have hq : PlaceMade ⟨node, flow, ((emitNodes retArg before flow).run st).2⟩ :=
      ⟨hpasses.made, hflow.mono hpasses.count, hnode⟩
    have hrun : Place.after retArg ⟨.block (before ++ node :: nodes), flow, st⟩ =
        ((emitNodes retArg nodes flow).run (Place.after retArg ⟨node, flow, ((emitNodes retArg before flow).run st).2⟩)).2 :=
      congrArg Prod.snd (run_emitNodes_append before (node :: nodes) flow st)
    refine ⟨hq, rfl, ?_⟩
    rw [hrun]
    exact ((spreadsGen_emitNodes hnodes flow).passes (hq.passes retArg).made).count
  | @troo cond body elseBody flow st =>
    cases elseBody with
    | none =>
      have hbody : regular body = true := hregular
      obtain ⟨helse, -, hcount⟩ := fols_made retArg cond hmade hflow hbody
      exact ⟨troo_made cond hmade hflow hbody, rfl, hcount.trans (count_emitIf (pure ()) (.refl helse))⟩
    | some elseBody =>
      obtain ⟨hbody, helseBody⟩ := Bool.and_eq_true_iff.mp hregular
      obtain ⟨helse, -, hcount⟩ := fols_made retArg cond hmade hflow hbody
      have hspreads : SpreadsGen (emitStat retArg elseBody flow) flow := spreadsGen_emitStat helseBody flow
      have hpasses := hspreads.passes helse
      exact ⟨troo_made cond hmade hflow hbody, rfl, hcount.trans (hpasses.count.trans (count_emitIf _ hpasses))⟩
  | @fols cond body elseBody flow st =>
    obtain ⟨hbody, helseBody⟩ := Bool.and_eq_true_iff.mp hregular
    obtain ⟨helse, hflow', -⟩ := fols_made retArg cond hmade hflow hbody
    exact ⟨⟨helse, hflow', helseBody⟩, rfl, count_emitIf _ ((spreadsGen_emitStat helseBody flow).passes helse)⟩

/-! ## Loops and switches -/

theorem curr_destroy : (objs : List Object) → (st : State) → ((destroy objs).run st).2.builder.curr = st.builder.curr
  | [], _ => rfl
  | obj :: objs, st => by
    rw [destroy]
    split
    · exact curr_destroy objs _
    · exact curr_destroy objs st

theorem loopState_made {st : State} (hst : st.builder.Made) (n : ℕ) :
    (loopState n st).builder.Made ∧ st.builder.count ≤ loopCount st ∧ (nextEmpty.run st).1 < loopCount st := by
  have hstart : From (fun _ ↦ True) st.builder [] st := ⟨.refl hst, nofun⟩
  have hentered := from_nextEmpty (fun _ ↦ trivial) st hstart
  have hmade := hentered.spreads.made
  refine ⟨⟨hmade.curr.trans_le (Nat.le_add_right _ n), fun k hk ↦ hmade.unmade k ((Nat.le_add_right _ n).trans hk)⟩,
    hentered.spreads.count, (hentered.blocks _ List.mem_cons_self).2⟩

/-- The end of the body of a loop, and its condition. -/
theorem loopEnd_made (cond : FullCode) {st : State} (hst : st.builder.Made) {condBlock : ℕ} (next troo fols : ℕ)
    (hcond : condBlock < st.builder.count) :
    ((genCondBr cond troo fols).run (((terminate next).run st).2.at condBlock)).2.builder.Made ∧
      st.builder.count ≤ ((genCondBr cond troo fols).run (((terminate next).run st).2.at condBlock)).2.builder.count := by
  have hend := passes_terminate next hst
  have hcondMade : (((terminate next).run st).2.at condBlock).builder.Made := Made.at hend.made (hcond.trans_le hend.count)
  have hpasses : Passes (((terminate next).run st).2.at condBlock).builder
      ((genCondBr cond troo fols).run (((terminate next).run st).2.at condBlock)).2.builder := passes_genCondBr hcondMade
  exact ⟨hpasses.made, hend.count.trans hpasses.count⟩

variable (retArg) in
theorem wile_made (cond : FullCode) {body : StatCode} (flow : FlowData) {st : State} (hst : st.builder.Made)
    (hbody : regular body = true) :
    let q : Place := ⟨body, ⟨some (loopCount st + 1), some (nextEmpty.run st).1⟩, (loopState 2 st).at (loopCount st)⟩
    PlaceMade q ∧ (q.after retArg).builder.count ≤ (Place.after retArg ⟨.wile cond body, flow, st⟩).builder.count := by
  intro q
  obtain ⟨hmade, -, hcond⟩ := loopState_made hst 2
  have hcount : (loopState 2 st).builder.count = loopCount st + 2 := rfl
  have hq : PlaceMade q := by
    refine ⟨Made.at hmade (by omega), ?_, hbody⟩
    rintro t (ht | ht)
    · cases ht
      exact Nat.lt_succ_self _
    · cases ht
      exact hcond.trans (Nat.lt_add_of_pos_right Nat.two_pos)
  have hpasses := hq.passes retArg
  have hlt : (nextEmpty.run st).1 < (q.after retArg).builder.count :=
    (hcond.trans (Nat.lt_add_of_pos_right Nat.two_pos)).trans_le hpasses.count
  exact ⟨hq, (loopEnd_made cond hpasses.made (nextEmpty.run st).1 (loopCount st) (loopCount st + 1) hlt).2⟩

variable (retArg) in
theorem four_made {init : AsgnCode} (cond : FullCode) (incr : AsgnCode) {body : StatCode} (dtors : List Object)
    (flow : FlowData) {st st' : State} (hinit : ((emitAsgn init).run st).2 = st') (hst : st'.builder.Made)
    (hbody : regular body = true) :
    let q : Place := ⟨body, ⟨some (loopCount st' + 2), some (loopCount st' + 1)⟩, (loopState 3 st').at (loopCount st')⟩
    let p : Place := ⟨.four init cond incr body dtors, flow, st⟩
    PlaceMade q ∧ p.exit retArg = loopCount st' + 2 ∧ (q.after retArg).builder.count ≤ (p.after retArg).builder.count := by
  intro q p
  obtain ⟨hmade, -, hcond⟩ := loopState_made hst 3
  have hcount : (loopState 3 st').builder.count = loopCount st' + 3 := rfl
  have hq : PlaceMade q := by
    refine ⟨Made.at hmade (by omega), ?_, hbody⟩
    rintro t (ht | ht)
    · cases ht
      exact Nat.lt_succ_self _
    · cases ht
      change loopCount st' + 1 < loopCount st' + 3
      omega
  have hpasses := hq.passes retArg
  have hnew : loopCount st' + 3 ≤ (q.after retArg).builder.count := hpasses.count
  have hlt : (nextEmpty.run st').1 < (q.after retArg).builder.count := by omega
  obtain ⟨hcondMade, hcondCount⟩ := loopEnd_made cond hpasses.made (loopCount st' + 1) (loopCount st') (loopCount st' + 2) hlt
  let s5 := ((genCondBr cond (loopCount st') (loopCount st' + 2)).run
    (((terminate (loopCount st' + 1)).run (q.after retArg)).2.at (nextEmpty.run st').1)).2
  let s6 := ((emitAsgn incr).run (s5.at (loopCount st' + 1))).2
  let s7 : State := { s6 with builder := s6.builder.append (.br (nextEmpty.run st').1) }
  have hrun : p.after retArg = ((destroy dtors).run (s7.at (loopCount st' + 2))).2 := by
    subst hinit
    rfl
  have hcount5 : (q.after retArg).builder.count ≤ s5.builder.count := hcondCount
  have hincrMade : (s5.at (loopCount st' + 1)).builder.Made := Made.at hcondMade (by omega)
  have hincr : Passes (s5.at (loopCount st' + 1)).builder s6.builder := passes_of hincrMade (from_emitAsgn incr)
  have hback : Passes s6.builder s7.builder := (Spreads.refl hincr.made).append fun _ _ ↦ .inl trivial
  have hcount7 : s5.builder.count ≤ s7.builder.count := hincr.count.trans hback.count
  have hexitMade : (s7.at (loopCount st' + 2)).builder.Made := Made.at hback.made (by omega)
  have hend : Passes (s7.at (loopCount st' + 2)).builder _ := passes_of hexitMade (from_destroy dtors)
  refine ⟨hq, ?_, ?_⟩
  · rw [Place.exit, hrun, curr_destroy]
    rfl
  · rw [hrun]
    exact hcount5.trans (hcount7.trans hend.count)

theorem curr_endSwitch (alwaysReturns : Bool) (dtors : List Object) (st : State) :
    ((endSwitch alwaysReturns dtors).run st).2.builder.curr = st.builder.curr := by
  cases alwaysReturns with
  | true => rfl
  | false => exact curr_destroy dtors st

theorem count_endSwitch {alwaysReturns : Bool} {dtors : List Object} {st : State} (hst : st.builder.Made) :
    st.builder.count ≤ ((endSwitch alwaysReturns dtors).run st).2.builder.count := by
  cases alwaysReturns with
  | true => exact le_rfl
  | false => exact (passes_of hst (from_destroy dtors)).count

variable (retArg) in
theorem swich_made {obj : Object} {value : Code} {checks : List (Option CheckCode)} {bodies : List StatCode}
    {alwaysReturns : Bool} {dtors : List Object} {flow : FlowData} {st st' : State} {c : ℕ} {body : StatCode}
    (hne : checks ≠ []) (hget : bodies[c]? = some body) (hvalue : ((genExpr value true (address obj)).run st).2 = st')
    (hst : st'.builder.Made) (hregular : regular (.swich obj value checks bodies alwaysReturns dtors) = true) :
    let q : Place := ⟨body, caseFlow (bodies.drop (c + 1)) (caseBlocksOf st'.builder.count checks.length + c)
      (doneOf st'.builder.count checks.length),
      (switchCase retArg obj checks bodies st' c).at (caseBlocksOf st'.builder.count checks.length + c)⟩
    let p : Place := ⟨.swich obj value checks bodies alwaysReturns dtors, flow, st⟩
    PlaceMade q ∧ p.exit retArg = doneOf st'.builder.count checks.length ∧
      (q.after retArg).builder.count ≤ (p.after retArg).builder.count := by
  intro q p
  simp only [regular, Bool.and_eq_true, beq_iff_eq, decide_eq_true_eq] at hregular
  obtain ⟨hlength, hcount, hbodies⟩ := hregular
  obtain ⟨hlt, rfl⟩ := List.getElem?_eq_some_iff.mp hget
  have hcases := caseBlocks_fillCases retArg c hlt.le (caseBlocks_switchLinked obj hst hne hcount hlength hbodies)
  rw [List.drop_eq_getElem_cons hlt] at hcases
  have hidle := hcases.idle 0 (Nat.succ_pos _)
  have hq : PlaceMade q :=
    ⟨Made.at hcases.from'.spreads.made hidle.lt, hcases.flowMade, (Bool.and_eq_true_iff.mp hcases.regular').1⟩
  have hrun : p.after retArg = ((endSwitch alwaysReturns dtors).run
      ((switchFilled retArg obj checks bodies st').at (doneOf st'.builder.count checks.length))).2 := by
    rw [Place.after, run_emitStat_swich hne, hvalue, run_emitCases_eq]
  have hfilled := visits_switchFilled retArg obj hst hne hcount hlength hbodies
  have hdone := idle_switchFilled retArg obj hst hne hcount hlength hbodies
  have hbody : (q.after retArg).builder.count ≤ (switchFilled retArg obj checks bodies st').builder.count := by
    have hend := passes_terminate (doneOf st'.builder.count checks.length) (hq.passes retArg).made
    have hrest := ((hcases.tail retArg).visits_all retArg).count
    rw [switchFilled, run_emitCaseBodies_drop retArg _ c _ _ hlt.le, List.drop_eq_getElem_cons hlt]
    exact hend.count.trans hrest
  have hdoneMade : ((switchFilled retArg obj checks bodies st').at (doneOf st'.builder.count checks.length)).builder.Made :=
    Made.at hfilled.from'.spreads.made hdone.lt
  refine ⟨hq, ?_, ?_⟩
  · rw [Place.exit, hrun, curr_endSwitch]
    rfl
  · rw [hrun]
    exact hbody.trans (count_endSwitch hdoneMade)

/-- The visit of a body, and its targets. -/
theorem Opens.made {target : Option ℕ} (h : Opens retArg p q target) (hp : PlaceMade p) :
    PlaceMade q ∧ q.flow = ⟨some (p.exit retArg), target⟩ ∧ (q.after retArg).builder.count ≤ (p.after retArg).builder.count ∧
      p.exit retArg < (p.after retArg).builder.count := by
  obtain ⟨hmade, hflow, hregular⟩ := hp
  cases h with
  | @wile cond body flow st =>
    have hbody : regular body = true := hregular
    obtain ⟨hq, hcount⟩ := wile_made retArg cond flow hmade hbody
    exact ⟨hq, rfl, hcount, (hq.flow _ (.inl rfl)).trans_le ((hq.passes retArg).count.trans hcount)⟩
  | @four init cond incr body dtors flow st st' hinit =>
    have hbody : regular body = true := hregular
    have hst : st'.builder.Made := hinit ▸ (passes_of hmade (from_emitAsgn init)).made
    obtain ⟨hq, hexit, hcount⟩ := four_made retArg cond incr dtors flow hinit hst hbody
    rw [hexit]
    exact ⟨hq, rfl, hcount, (hq.flow _ (.inl rfl)).trans_le ((hq.passes retArg).count.trans hcount)⟩
  | @swich obj value checks bodies alwaysReturns dtors flow st st' c body hne hget hvalue =>
    have hst : st'.builder.Made := hvalue ▸ (passes_of hmade (from_genExpr value true (address obj))).made
    obtain ⟨hq, hexit, hcount⟩ := swich_made retArg hne hget hvalue hst hregular
    have hnext : (bodies.drop (c + 1)).isEmpty = true ↔ ¬c + 1 < bodies.length := by
      rw [List.isEmpty_iff, List.drop_eq_nil_iff, Nat.not_lt]
    have hflow : caseFlow (bodies.drop (c + 1)) (caseBlocksOf st'.builder.count checks.length + c)
        (doneOf st'.builder.count checks.length) = ⟨some (doneOf st'.builder.count checks.length),
          if c + 1 < bodies.length then some (caseBlocksOf st'.builder.count checks.length + (c + 1)) else none⟩ := by
      rw [caseFlow, ← Nat.add_assoc]
      by_cases hlt : c + 1 < bodies.length
      · rw [if_pos hlt, if_neg (fun h ↦ hnext.mp h hlt)]
      · rw [if_neg hlt, if_pos (hnext.mpr hlt)]
    rw [hexit]
    exact ⟨hq, hflow, hcount, (hq.flow _ (.inl rfl)).trans_le ((hq.passes retArg).count.trans hcount)⟩

end Steps

/-! ## Cases without a next one -/

mutual

/-- The last case of a switch has no `continue` that leaves it. -/
def lastsEnd : StatCode → Bool
  | .block nodes => lastsEndNodes nodes
  | .fi _ body none => lastsEnd body
  | .fi _ body (some elseBody) => lastsEnd body && lastsEnd elseBody
  | .swich _ _ _ bodies _ _ => lastsEndCases bodies
  | .wile _ body | .four _ _ _ body _ => lastsEnd body
  | .terminate _ | .brake _ | .continu _ | .ret _ _ | .asgn _ => true

def lastsEndNodes : List StatCode → Bool
  | [] => true
  | node :: nodes => lastsEnd node && lastsEndNodes nodes

def lastsEndCases : List StatCode → Bool
  | [] => true
  | body :: bodies => (!bodies.isEmpty || !continues body) && (lastsEnd body && lastsEndCases bodies)

end

section Targets

variable {retArg : ℕ} {p q r : Place}

theorem breaksNodes_append (first : List StatCode) {node : StatCode} {nodes : List StatCode} (h : breaks node = true) :
    breaksNodes (first ++ node :: nodes) = true := by
  induction first with
  | nil => rw [List.nil_append, breaksNodes, h, Bool.true_or]
  | cons _ first ih => rw [List.cons_append, breaksNodes, ih, Bool.or_true]

theorem continuesNodes_append (first : List StatCode) {node : StatCode} {nodes : List StatCode}
    (h : continues node = true) : continuesNodes (first ++ node :: nodes) = true := by
  induction first with
  | nil => rw [List.nil_append, continuesNodes, h, Bool.true_or]
  | cons _ first ih => rw [List.cons_append, continuesNodes, ih, Bool.or_true]

theorem lastsEndNodes_append (first : List StatCode) {node : StatCode} {nodes : List StatCode}
    (h : lastsEndNodes (first ++ node :: nodes) = true) : lastsEnd node = true := by
  induction first with
  | nil => exact (Bool.and_eq_true_iff.mp h).1
  | cons _ first ih => exact ih (Bool.and_eq_true_iff.mp h).2

theorem lastsEndCases_get : {bodies : List StatCode} → {c : ℕ} → {body : StatCode} → lastsEndCases bodies = true →
    bodies[c]? = some body → lastsEnd body = true ∧ (bodies.length ≤ c + 1 → continues body = false)
  | body :: bodies, 0, _, h, hget => by
    cases hget
    obtain ⟨hlast, hbody, -⟩ := (Bool.and_eq_true_iff.mp h).imp_right Bool.and_eq_true_iff.mp
    refine ⟨hbody, fun hle ↦ ?_⟩
    have hnil : bodies = [] := List.length_eq_zero_iff.mp (Nat.le_zero.mp (Nat.le_of_succ_le_succ hle))
    rw [hnil] at hlast
    simpa using hlast
  | _ :: bodies, c + 1, _, h, hget => by
    obtain ⟨-, -, hrest⟩ := (Bool.and_eq_true_iff.mp h).imp_right Bool.and_eq_true_iff.mp
    exact (lastsEndCases_get hrest hget).imp_right fun hlast hle ↦ hlast (Nat.le_of_succ_le_succ hle)

/-- A jump that leaves a branch or an item leaves the whole statement. -/
theorem Inner.jumps (h : Inner retArg p q) :
    (breaks q.code = true → breaks p.code = true) ∧ (continues q.code = true → continues p.code = true) := by
  cases h with
  | @block before node nodes => exact ⟨breaksNodes_append before, continuesNodes_append before⟩
  | @troo cond body elseBody =>
    cases elseBody with
    | none => exact ⟨id, id⟩
    | some elseBody => exact ⟨fun h ↦ Bool.or_eq_true_iff.mpr (.inl h), fun h ↦ Bool.or_eq_true_iff.mpr (.inl h)⟩
  | fols => exact ⟨fun h ↦ Bool.or_eq_true_iff.mpr (.inr h), fun h ↦ Bool.or_eq_true_iff.mpr (.inr h)⟩

theorem Inner.lastsEnd (h : Inner retArg p q) (hp : lastsEnd p.code = true) : lastsEnd q.code = true := by
  cases h with
  | @block before node nodes => exact lastsEndNodes_append before hp
  | @troo cond body elseBody =>
    cases elseBody with
    | none => exact hp
    | some elseBody => exact (Bool.and_eq_true_iff.mp hp).1
  | fols => exact (Bool.and_eq_true_iff.mp hp).2

/-- Without a block to continue with there is no `continue`. -/
theorem Opens.lastsEnd {target : Option ℕ} (h : Opens retArg p q target) (hp : lastsEnd p.code = true) :
    lastsEnd q.code = true ∧ (target = none → continues q.code = false) := by
  cases h with
  | wile | four => exact ⟨hp, nofun⟩
  | @swich obj value checks bodies alwaysReturns dtors flow st st' c body hne hget hvalue =>
    obtain ⟨hbody, hlast⟩ := lastsEndCases_get hp hget
    refine ⟨hbody, fun hnone ↦ hlast (Nat.not_lt.mp fun hlt ↦ ?_)⟩
    rw [if_pos hlt] at hnone
    cases hnone

/-- In a body nothing changes the targets. -/
theorem inner_run (h : ReflTransGen (Inner retArg) p q) (hp : PlaceMade p) :
    PlaceMade q ∧ q.flow = p.flow ∧ (q.after retArg).builder.count ≤ (p.after retArg).builder.count := by
  induction h with
  | refl => exact ⟨hp, rfl, le_rfl⟩
  | tail _ hstep ih =>
    obtain ⟨hmade, hflow, hcount⟩ := hstep.made ih.1
    exact ⟨hmade, hflow.trans ih.2.1, hcount.trans ih.2.2⟩

theorem inner_jumps (h : ReflTransGen (Inner retArg) p q) :
    (breaks q.code = true → breaks p.code = true) ∧ (continues q.code = true → continues p.code = true) := by
  induction h with
  | refl => exact ⟨id, id⟩
  | tail _ hstep ih => exact ⟨fun h ↦ ih.1 (hstep.jumps.1 h), fun h ↦ ih.2 (hstep.jumps.2 h)⟩

theorem Visited.of_inner (h : ReflTransGen (Inner retArg) p q) : Visited retArg p q := by
  induction h with
  | refl => exact .refl
  | tail _ hstep ih => exact ih.tail (.inl hstep)

theorem Visited.made (h : Visited retArg p q) (hp : PlaceMade p) :
    PlaceMade q ∧ (q.after retArg).builder.count ≤ (p.after retArg).builder.count := by
  induction h with
  | refl => exact ⟨hp, le_rfl⟩
  | tail _ hstep ih =>
    rcases hstep with hinner | ⟨target, hopens⟩
    · obtain ⟨hmade, -, hcount⟩ := hinner.made ih.1
      exact ⟨hmade, hcount.trans ih.2⟩
    · obtain ⟨hmade, -, hcount, -⟩ := hopens.made ih.1
      exact ⟨hmade, hcount.trans ih.2⟩

theorem Visited.lastsEnd (h : Visited retArg p q) (hp : lastsEnd p.code = true) : lastsEnd q.code = true := by
  induction h with
  | refl => exact hp
  | tail _ hstep ih =>
    rcases hstep with hinner | ⟨target, hopens⟩
    · exact hinner.lastsEnd ih
    · exact (hopens.lastsEnd ih).1

/-- The innermost loop or switch around a statement, if there is one. -/
theorem Visited.innermost (h : Visited retArg p q) : ReflTransGen (Inner retArg) p q ∨
    ∃ o r target, Visited retArg p o ∧ Opens retArg o r target ∧ ReflTransGen (Inner retArg) r q := by
  induction h with
  | refl => exact .inl .refl
  | @tail q q' hvisited hstep ih =>
    rcases hstep with hinner | ⟨target, hopens⟩
    · rcases ih with hrun | ⟨o, r, target, ho, hr, hrun⟩
      · exact .inl (hrun.tail hinner)
      · exact .inr ⟨o, r, target, ho, hr, hrun.tail hinner⟩
    · exact .inr ⟨q, q', target, hvisited, hopens, .refl⟩

/-- The targets of a jump are those of the innermost loop or switch around it, in the same function. -/
inductive RightTarget (retArg : ℕ) (start q : Place) : Prop where
  | brake {dtors o r target} : q.code = .brake dtors → Visited retArg start o → Opens retArg o r target →
      ReflTransGen (Inner retArg) r q → q.flow.breakBlock = some (o.exit retArg) →
      o.exit retArg < (start.after retArg).builder.count → RightTarget retArg start q
  | continu {dtors o r t} : q.code = .continu dtors → Visited retArg start o → Opens retArg o r (some t) →
      ReflTransGen (Inner retArg) r q → q.flow.continueBlock = some t →
      t < (start.after retArg).builder.count → RightTarget retArg start q

def isJump : StatCode → Bool
  | .brake _ | .continu _ => true
  | .block _ | .fi _ _ _ | .swich _ _ _ _ _ _ | .terminate _ | .ret _ _ | .wile _ _ | .four _ _ _ _ _ | .asgn _ => false

/-- If no last case continues, all jumps have their targets. -/
theorem rightTarget_of_lastsEnd (hp : PlaceMade p) (hbreaks : breaks p.code = false) (hcontinues : continues p.code = false)
    (hlasts : lastsEnd p.code = true) (h : Visited retArg p q) (hjump : isJump q.code = true) :
    RightTarget retArg p q := by
  obtain ⟨hq, hcount⟩ := h.made hp
  have hst : q.st.builder.count ≤ (p.after retArg).builder.count := (hq.passes retArg).count.trans hcount
  have hjumps : breaks q.code = true ∧ (∃ dtors, q.code = .brake dtors) ∨
      continues q.code = true ∧ ∃ dtors, q.code = .continu dtors := by
    cases hcode : q.code with
    | brake dtors => exact .inl ⟨rfl, dtors, rfl⟩
    | continu dtors => exact .inr ⟨rfl, dtors, rfl⟩
    | _ => rw [hcode] at hjump; cases hjump
  rcases h.innermost with hrun | ⟨o, r, target, ho, hopens, hrun⟩
  · have houter := inner_jumps hrun
    rcases hjumps with ⟨hq, -⟩ | ⟨hq, -⟩
    · rw [houter.1 hq] at hbreaks
      cases hbreaks
    · rw [houter.2 hq] at hcontinues
      cases hcontinues
  · obtain ⟨hr, hflow, -, -⟩ := hopens.made (ho.made hp).1
    have hqflow : q.flow = ⟨some (o.exit retArg), target⟩ := (inner_run hrun hr).2.1.trans hflow
    rcases hjumps with ⟨-, dtors, hcode⟩ | ⟨hq', dtors, hcode⟩
    · refine .brake hcode ho hopens hrun (by rw [hqflow]) ((hq.flow _ (.inl ?_)).trans_le hst)
      rw [hqflow]
    · cases target with
      | none =>
        have hnone := (hopens.lastsEnd (ho.lastsEnd hlasts)).2 rfl
        rw [(inner_jumps hrun).2 hq'] at hnone
        cases hnone
      | some t =>
        refine .continu hcode ho hopens hrun (by rw [hqflow]) ((hq.flow _ (.inr ?_)).trans_le hst)
        rw [hqflow]

mutual

/-- A `continue` that leaves a statement is in it, with the same targets. -/
theorem exists_continue : (code : StatCode) → continues code = true → (flow : FlowData) → (st : State) →
    ∃ q dtors, ReflTransGen (Inner retArg) ⟨code, flow, st⟩ q ∧ q.code = .continu dtors ∧ q.flow = flow
  | .continu dtors, _, flow, st => ⟨⟨.continu dtors, flow, st⟩, dtors, .refl, rfl, rfl⟩
  | .block nodes, h, flow, st => exists_continueNodes nodes h [] flow st
  | .fi _ body none, h, flow, st => by
    obtain ⟨q, dtors, hrun, hq⟩ := exists_continue body h flow _
    exact ⟨q, dtors, .head .troo hrun, hq⟩
  | .fi _ body (some elseBody), h, flow, st => by
    rcases Bool.or_eq_true_iff.mp h with hbody | helse
    · obtain ⟨q, dtors, hrun, hq⟩ := exists_continue body hbody flow _
      exact ⟨q, dtors, .head .troo hrun, hq⟩
    · obtain ⟨q, dtors, hrun, hq⟩ := exists_continue elseBody helse flow _
      exact ⟨q, dtors, .head .fols hrun, hq⟩

theorem exists_continueNodes : (nodes : List StatCode) → continuesNodes nodes = true → (before : List StatCode) →
    (flow : FlowData) → (st : State) →
    ∃ q dtors, ReflTransGen (Inner retArg) ⟨.block (before ++ nodes), flow, st⟩ q ∧ q.code = .continu dtors ∧ q.flow = flow
  | node :: nodes, h, before, flow, st => by
    rcases Bool.or_eq_true_iff.mp h with hnode | hnodes
    · obtain ⟨q, dtors, hrun, hq⟩ := exists_continue node hnode flow _
      exact ⟨q, dtors, .head .block hrun, hq⟩
    · have hrest := exists_continueNodes nodes hnodes (before ++ [node]) flow st
      rwa [List.append_assoc, List.singleton_append] at hrest

end

variable (retArg) in
/-- A visit of a `continue` that has no target. -/
def Lost (p : Place) : Prop :=
  ∃ q dtors, Visited retArg p q ∧ q.code = .continu dtors ∧ q.flow.continueBlock = none

theorem Lost.head (hstep : Step retArg p q) (h : Lost retArg q) : Lost retArg p := by
  obtain ⟨r, dtors, hvisited, hr⟩ := h
  exact ⟨r, dtors, .head hstep hvisited, hr⟩

mutual

/-- If the last case of a switch continues, this `continue` has no target. -/
theorem lost_of_not_lastsEnd : (code : StatCode) → lastsEnd code = false → regular code = true → (flow : FlowData) →
    (st : State) → Lost retArg ⟨code, flow, st⟩
  | .block nodes, h, hregular, flow, st => lost_of_not_lastsEndNodes nodes h hregular [] flow st
  | .fi _ body none, h, hregular, flow, _ => (lost_of_not_lastsEnd body h hregular flow _).head (.inl .troo)
  | .fi _ body (some elseBody), h, hregular, flow, _ => by
    obtain ⟨hbody, helse⟩ := Bool.and_eq_true_iff.mp hregular
    rcases Bool.and_eq_false_iff.mp h with h | h
    · exact (lost_of_not_lastsEnd body h hbody flow _).head (.inl .troo)
    · exact (lost_of_not_lastsEnd elseBody h helse flow _).head (.inl .fols)
  | .wile _ body, h, hregular, _, _ => (lost_of_not_lastsEnd body h hregular _ _).head (.inr ⟨_, .wile⟩)
  | .four _ _ _ body _, h, hregular, _, _ => (lost_of_not_lastsEnd body h hregular _ _).head (.inr ⟨_, .four rfl⟩)
  | .swich obj value checks bodies alwaysReturns dtors, h, hregular, flow, st => by
    simp only [regular, Bool.and_eq_true, beq_iff_eq] at hregular
    obtain ⟨c, body, hget, hlost⟩ := lost_of_not_lastsEndCases bodies h hregular.2.2
    have hne : checks ≠ [] := by
      rintro rfl
      rw [List.length_nil] at hregular
      rw [List.eq_nil_of_length_eq_zero hregular.1.symm] at hget
      cases hget
    have hopens : Opens retArg ⟨.swich obj value checks bodies alwaysReturns dtors, flow, st⟩ _ _ := .swich hne hget rfl
    rcases hlost with ⟨hle, hcontinues⟩ | hlost
    · obtain ⟨q, dtors, hrun, hq, hflow⟩ := @exists_continue retArg body hcontinues _ _
      refine ⟨q, dtors, .head (.inr ⟨_, hopens⟩) (Visited.of_inner hrun), hq, ?_⟩
      rw [hflow]
      exact if_pos (by rw [List.drop_eq_nil_of_le hle]; rfl)
    · exact (hlost _ _).head (.inr ⟨_, hopens⟩)

theorem lost_of_not_lastsEndNodes : (nodes : List StatCode) → lastsEndNodes nodes = false → regularNodes nodes = true →
    (before : List StatCode) → (flow : FlowData) → (st : State) →
    Lost retArg ⟨.block (before ++ nodes), flow, st⟩
  | node :: nodes, h, hregular, before, flow, st => by
    obtain ⟨hnode, hnodes⟩ := Bool.and_eq_true_iff.mp hregular
    rcases Bool.and_eq_false_iff.mp h with h | h
    · exact (lost_of_not_lastsEnd node h hnode flow _).head (.inl .block)
    · have hrest := lost_of_not_lastsEndNodes nodes h hnodes (before ++ [node]) flow st
      rwa [List.append_assoc, List.singleton_append] at hrest

theorem lost_of_not_lastsEndCases : (bodies : List StatCode) → lastsEndCases bodies = false → regularNodes bodies = true →
    ∃ c body, bodies[c]? = some body ∧ (bodies.length ≤ c + 1 ∧ continues body = true ∨
      ∀ flow st, Lost retArg ⟨body, flow, st⟩)
  | body :: bodies, h, hregular => by
    obtain ⟨hbody, hbodies⟩ := Bool.and_eq_true_iff.mp hregular
    rcases Bool.and_eq_false_iff.mp h with h | h
    · obtain ⟨hempty, hcontinues⟩ := Bool.or_eq_false_iff.mp h
      have hnil : bodies = [] := by simpa using hempty
      refine ⟨0, body, rfl, .inl ⟨?_, by simpa using hcontinues⟩⟩
      rw [hnil]
      exact le_rfl
    · rcases Bool.and_eq_false_iff.mp h with h | h
      · exact ⟨0, body, rfl, .inr (lost_of_not_lastsEnd body h hbody)⟩
      · obtain ⟨c, last, hget, hlost⟩ := lost_of_not_lastsEndCases bodies h hbodies
        exact ⟨c + 1, last, hget, hlost.imp_left fun hlast ↦ ⟨Nat.succ_le_succ hlast.1, hlast.2⟩⟩

end

/-- The jumps have their targets if and only if no last case continues. -/
theorem targets_iff_lastsEnd (hp : PlaceMade p) (hbreaks : breaks p.code = false) (hcontinues : continues p.code = false) :
    (∀ q, Visited retArg p q → isJump q.code = true → RightTarget retArg p q) ↔ lastsEnd p.code = true := by
  refine ⟨fun h ↦ ?_, fun hlasts q hq hjump ↦ rightTarget_of_lastsEnd hp hbreaks hcontinues hlasts hq hjump⟩
  by_contra hlasts
  have hlost : Lost retArg p := lost_of_not_lastsEnd p.code (by simpa using hlasts) hp.regular p.flow p.st
  obtain ⟨q, dtors, hq, hcode, hnone⟩ := hlost
  rcases h q hq (by rw [hcode]; rfl) with ⟨hbrake⟩ | ⟨_, _, _, _, hsome⟩
  · rw [hcode] at hbrake
    cases hbrake
  · rw [hnone] at hsome
    cases hsome

end Targets

end Stela.CodeGen.StatBlocks
