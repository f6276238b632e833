import Stela.CodeGen.JumpTargets
import Stela.CodeGen.BodyTerminators

/-!
# The jumps in accepted bodies

Semantic analysis lets a `break` or a `continue` stand only in a loop or a switch. What it does not find is every
`continue` in the last case of a switch: `checkMissingRet` sees only how the case ends.
-/

namespace Stela.CodeGen.AcceptedJumps

open Stela.Syntax Stela.Semantic Stela.Library Stela.Library.Except

/-! ## Jumps in statements -/

/-- The jumps that leave a statement, and whether no last case of a switch in it continues. -/
structure Jumps where
  breaks : Bool := false
  continues : Bool := false
  lastsEnd : Bool := true

namespace Jumps

def or (a b : Jumps) : Jumps :=
  ⟨a.breaks || b.breaks, a.continues || b.continues, a.lastsEnd && b.lastsEnd⟩

/-- No jump leaves a loop or a switch. -/
def inside (a : Jumps) : Jumps :=
  { lastsEnd := a.lastsEnd }

theorem or_none (a : Jumps) : a.or {} = a := by
  simp [or]

theorem none_or (a : Jumps) : ({} : Jumps).or a = a := by
  simp [or]

theorem or_assoc (a b c : Jumps) : (a.or b).or c = a.or (b.or c) := by
  simp [or, Bool.or_assoc, Bool.and_assoc]

end Jumps

variable {ε : Type}

mutual

def jumps : Stat ε → Jumps
  | .block nodes => jumpsNodes nodes
  | .fi _ body none => jumps body
  | .fi _ body (some elseBody) => (jumps body).or (jumps elseBody)
  | .swich _ cases _ => { lastsEnd := lastsEndCases cases }
  | .brake => { breaks := true }
  | .continu => { continues := true }
  | .wile _ body | .four _ _ _ body => (jumps body).inside
  | .terminate | .ret _ | .decl _ | .asgn _ => {}

def jumpsNodes : List (Stat ε) → Jumps
  | [] => {}
  | node :: nodes => (jumps node).or (jumpsNodes nodes)

def lastsEndCases : List (SwitchCase ε) → Bool
  | [] => true
  | .mk _ body :: cases =>
      (!cases.isEmpty || !(jumps body).continues) && ((jumps body).lastsEnd && lastsEndCases cases)

end

/-! ## Semantic analysis -/

/-- No jump leaves a statement outside of loops and switches. -/
def Jumps.Placed (flow : Bool) (a : Jumps) : Prop :=
  flow = false → a.breaks = false ∧ a.continues = false

theorem Jumps.Placed.or {flow : Bool} {a b : Jumps} (ha : a.Placed flow) (hb : b.Placed flow) : (a.or b).Placed flow := by
  intro hflow
  obtain ⟨hbreaks, hcontinues⟩ := ha hflow
  obtain ⟨hbreaks', hcontinues'⟩ := hb hflow
  exact ⟨by rw [Jumps.or, hbreaks, hbreaks']; rfl, by rw [Jumps.or, hcontinues, hcontinues']; rfl⟩

theorem Jumps.Placed.inside (flow : Bool) (a : Jumps) : a.inside.Placed flow :=
  fun _ ↦ ⟨rfl, rfl⟩

mutual

theorem traverse_jumps : (stat : Stat Expr) → (flow : Bool) → (ret : Option Ty) → {r : Stat AExpr × Option Ty} →
    Traverse.visit stat flow ret = .ok r → jumps r.1 = jumps stat ∧ (jumps stat).Placed flow
  | .block nodes, flow, ret, r, h => by
    obtain ⟨⟨nodes', ret'⟩, hnodes, h⟩ := bind_eq_ok.mp h
    cases h
    exact traverseNodes_jumps nodes flow ret hnodes
  | .fi cond body none, flow, ret, r, h => by
    obtain ⟨cond', -, h⟩ := bind_eq_ok.mp h
    obtain ⟨⟨body', ret'⟩, hbody, h⟩ := bind_eq_ok.mp h
    cases h
    have hjumps := traverse_jumps body flow ret hbody
    exact hjumps
  | .fi cond body (some elseBody), flow, ret, r, h => by
    obtain ⟨cond', -, h⟩ := bind_eq_ok.mp h
    obtain ⟨⟨body', ret'⟩, hbody, h⟩ := bind_eq_ok.mp h
    obtain ⟨⟨elseBody', ret''⟩, helse, h⟩ := bind_eq_ok.mp h
    cases h
    obtain ⟨hbody, hplaced⟩ := traverse_jumps body flow ret hbody
    obtain ⟨helse, hplaced'⟩ := traverse_jumps elseBody flow ret' helse
    exact ⟨congrArg₂ Jumps.or hbody helse, hplaced.or hplaced'⟩
  | .swich expr cases alwaysReturns, flow, ret, r, h => by
    obtain ⟨⟨expr', etype⟩, -, h⟩ := bind_eq_ok.mp h
    obtain ⟨⟨cases', ret'⟩, hcases, h⟩ := bind_eq_ok.mp h
    cases h
    have hlasts := (traverseCases_lastsEnd cases etype.type false ret hcases).1
    exact ⟨by rw [jumps, hlasts, jumps], fun _ ↦ ⟨rfl, rfl⟩⟩
  | .brake, flow, _, _, h | .continu, flow, _, _, h => by
    obtain ⟨_, hflow, h⟩ := bind_eq_ok.mp h
    cases h
    refine ⟨rfl, fun hfalse ↦ ?_⟩
    rw [require_eq_ok.mp hflow] at hfalse
    cases hfalse
  | .ret expr, _, ret, _, h => by
    obtain ⟨⟨expr', ret'⟩, -, h⟩ := bind_eq_ok.mp h
    cases h
    exact ⟨rfl, fun _ ↦ ⟨rfl, rfl⟩⟩
  | .wile cond body, flow, ret, r, h => by
    obtain ⟨cond', -, h⟩ := bind_eq_ok.mp h
    obtain ⟨⟨body', ret'⟩, hbody, h⟩ := bind_eq_ok.mp h
    cases h
    exact ⟨congrArg Jumps.inside (traverse_jumps body true ret hbody).1, .inside flow _⟩
  | .four init cond incr body, flow, ret, r, h => by
    obtain ⟨init', -, h⟩ := bind_eq_ok.mp h
    obtain ⟨cond', -, h⟩ := bind_eq_ok.mp h
    obtain ⟨incr', -, h⟩ := bind_eq_ok.mp h
    obtain ⟨⟨body', ret'⟩, hbody, h⟩ := bind_eq_ok.mp h
    cases h
    exact ⟨congrArg Jumps.inside (traverse_jumps body true ret hbody).1, .inside flow _⟩
  | .terminate, _, _, _, h => by
    cases h
    exact ⟨rfl, fun _ ↦ ⟨rfl, rfl⟩⟩
  | .decl _, _, _, _, h | .asgn _, _, _, _, h => by
    obtain ⟨_, _, h⟩ := bind_eq_ok.mp h
    cases h
    exact ⟨rfl, fun _ ↦ ⟨rfl, rfl⟩⟩

theorem traverseNodes_jumps : (nodes : List (Stat Expr)) → (flow : Bool) → (ret : Option Ty) →
    {r : List (Stat AExpr) × Option Ty} → Traverse.visitNodes nodes flow ret = .ok r →
      jumpsNodes r.1 = jumpsNodes nodes ∧ (jumpsNodes nodes).Placed flow
  | [], _, _, _, h => by
    cases h
    exact ⟨rfl, fun _ ↦ ⟨rfl, rfl⟩⟩
  | node :: nodes, flow, ret, r, h => by
    obtain ⟨⟨node', ret'⟩, hnode, h⟩ := bind_eq_ok.mp h
    obtain ⟨⟨nodes', ret''⟩, hnodes, h⟩ := bind_eq_ok.mp h
    cases h
    obtain ⟨hnode, hplaced⟩ := traverse_jumps node flow ret hnode
    obtain ⟨hnodes, hplaced'⟩ := traverseNodes_jumps nodes flow ret' hnodes
    exact ⟨congrArg₂ Jumps.or hnode hnodes, hplaced.or hplaced'⟩

theorem traverseCases_lastsEnd : (cases : List (SwitchCase Expr)) → (type : Ty) → (foundDef : Bool) →
    (ret : Option Ty) → {r : List (SwitchCase AExpr) × Option Ty} →
      Traverse.visitCases cases type foundDef ret = .ok r →
        lastsEndCases r.1 = lastsEndCases cases ∧ r.1.isEmpty = cases.isEmpty
  | [], _, _, _, _, h => by
    cases h
    exact ⟨rfl, rfl⟩
  | .mk (some expr) body :: cases, type, foundDef, ret, r, h => by
    obtain ⟨⟨expr', etype⟩, -, h⟩ := bind_eq_ok.mp h
    obtain ⟨⟨body', ret'⟩, hbody, h⟩ := bind_eq_ok.mp h
    obtain ⟨⟨cases', ret''⟩, hcases, h⟩ := bind_eq_ok.mp h
    cases h
    obtain ⟨hlasts, hempty⟩ := traverseCases_lastsEnd cases type foundDef ret' hcases
    refine ⟨?_, rfl⟩
    rw [lastsEndCases, (traverse_jumps body true ret hbody).1, hlasts, hempty, lastsEndCases]
  | .mk none body :: cases, type, foundDef, ret, r, h => by
    obtain ⟨_, -, h⟩ := bind_eq_ok.mp h
    obtain ⟨⟨body', ret'⟩, hbody, h⟩ := bind_eq_ok.mp h
    obtain ⟨⟨cases', ret''⟩, hcases, h⟩ := bind_eq_ok.mp h
    cases h
    obtain ⟨hlasts, hempty⟩ := traverseCases_lastsEnd cases type true ret' hcases
    refine ⟨?_, rfl⟩
    rw [lastsEndCases, (traverse_jumps body true ret hbody).1, hlasts, hempty, lastsEndCases]

end

theorem jumpsNodes_append (first rest : List (Stat ε)) : jumpsNodes (first ++ rest) = (jumpsNodes first).or (jumpsNodes rest) := by
  induction first with
  | nil => exact (Jumps.none_or _).symm
  | cons node first ih => rw [List.cons_append, jumpsNodes, ih, jumpsNodes, Jumps.or_assoc]

theorem jumpsNodes_concat (nodes : List (Stat ε)) {node : Stat ε} (h : jumps node = {}) :
    jumpsNodes (nodes ++ [node]) = jumpsNodes nodes := by
  rw [jumpsNodes_append, jumpsNodes, h, jumpsNodes, Jumps.or_none, Jumps.or_none]

theorem jumpsNodes_leaveBlock (nodes : List (Stat ε)) (scan : CheckMissingReturn.Scan) :
    jumpsNodes (CheckMissingReturn.leaveBlock nodes scan).1 = jumpsNodes nodes := by
  have hterminate : jumpsNodes (nodes ++ [.terminate]) = jumpsNodes nodes := jumpsNodes_concat nodes rfl
  simp only [CheckMissingReturn.leaveBlock, apply_ite jumpsNodes, hterminate, ite_self]

theorem jumpsNodes_appendReturn (nodes : List (Stat ε)) :
    jumpsNodes (CheckMissingReturn.appendReturn nodes) = jumpsNodes nodes := by
  unfold CheckMissingReturn.appendReturn
  split
  · next hlast =>
    obtain ⟨init, rfl⟩ := List.getLast?_eq_some_iff.mp hlast
    rw [List.dropLast_concat, jumpsNodes_concat init rfl, jumpsNodes_concat init rfl]
  · exact jumpsNodes_concat nodes rfl

mutual

/-- The nodes that the missing-return check inserts are no jumps out of a loop or a switch. -/
theorem check_jumps : (stat : Stat ε) → {state : CheckMissingReturn.State} →
    {r : Stat ε × CheckMissingReturn.State} → CheckMissingReturn.visit stat state = .ok r → jumps r.1 = jumps stat
  | .block nodes, state, r, h => by
    obtain ⟨⟨nodes', scan⟩, hnodes, h⟩ := bind_eq_ok.mp h
    cases h
    rw [jumps, jumpsNodes_leaveBlock, checkNodes_jumps nodes hnodes, jumps]
  | .fi cond body none, state, r, h => by
    obtain ⟨⟨body', troo⟩, hbody, h⟩ := bind_eq_ok.mp h
    cases h
    have hjumps := check_jumps body hbody
    exact hjumps
  | .fi cond body (some elseBody), state, r, h => by
    obtain ⟨⟨body', troo⟩, hbody, h⟩ := bind_eq_ok.mp h
    obtain ⟨⟨elseBody', fols⟩, helse, h⟩ := bind_eq_ok.mp h
    cases h
    rw [jumps, check_jumps body hbody, check_jumps elseBody helse, jumps]
  | .swich expr cases alwaysReturns, state, r, h => by
    obtain ⟨⟨cases', tally⟩, hcases, h⟩ := bind_eq_ok.mp h
    cases h
    rw [jumps, (checkCases_lastsEnd cases hcases).1, jumps]
  | .wile cond body, state, r, h | .four init cond incr body, state, r, h => by
    obtain ⟨⟨body', state'⟩, hbody, h⟩ := bind_eq_ok.mp h
    cases h
    exact congrArg Jumps.inside (check_jumps body hbody)
  | .terminate, _, _, h | .brake, _, _, h | .continu, _, _, h | .ret _, _, _, h | .decl _, _, _, h
  | .asgn _, _, _, h => by
    cases h
    rfl

theorem checkNodes_jumps : (nodes : List (Stat ε)) → {scan : CheckMissingReturn.Scan} →
    {r : List (Stat ε) × CheckMissingReturn.Scan} → CheckMissingReturn.visitNodes nodes scan = .ok r →
      jumpsNodes r.1 = jumpsNodes nodes
  | [], _, _, h => by
    cases h
    rfl
  | node :: nodes, scan, r, h => by
    obtain ⟨⟨node', state⟩, hnode, h⟩ := bind_eq_ok.mp h
    obtain ⟨-, h⟩ := ite_error_eq_ok.mp h
    obtain ⟨⟨nodes', scan'⟩, hnodes, h⟩ := bind_eq_ok.mp h
    cases h
    exact congrArg₂ Jumps.or (check_jumps node hnode) (checkNodes_jumps nodes hnodes)

theorem checkCases_lastsEnd : (cases : List (SwitchCase ε)) → {state : CheckMissingReturn.State} →
    {tally : CheckMissingReturn.Tally} → {r : List (SwitchCase ε) × CheckMissingReturn.Tally} →
      CheckMissingReturn.visitCases cases state tally = .ok r →
        lastsEndCases r.1 = lastsEndCases cases ∧ r.1.isEmpty = cases.isEmpty
  | [], _, _, _, h => by
    cases h
    exact ⟨rfl, rfl⟩
  | .mk expr body :: cases, state, tally, r, h => by
    obtain ⟨⟨body', state'⟩, hbody, h⟩ := bind_eq_ok.mp h
    obtain ⟨-, h⟩ := ite_error_eq_ok.mp h
    obtain ⟨⟨cases', tally'⟩, hcases, h⟩ := bind_eq_ok.mp h
    cases h
    obtain ⟨hlasts, hempty⟩ := checkCases_lastsEnd cases hcases
    refine ⟨?_, rfl⟩
    rw [lastsEndCases, check_jumps body hbody, hlasts, hempty, lastsEndCases]

end

theorem checkMissingRet_jumps {nodes nodes' : List (Stat ε)} {ret : Ty}
    (h : CheckMissingReturn.checkMissingRet nodes ret = .ok nodes') : jumpsNodes nodes' = jumpsNodes nodes := by
  obtain ⟨⟨visited, scan⟩, hvisited, h⟩ := bind_eq_ok.mp h
  dsimp only at h
  split_ifs at h
  · cases h
    rw [jumpsNodes_appendReturn, jumpsNodes_leaveBlock, checkNodes_jumps nodes hvisited]
  · cases h
    rw [jumpsNodes_leaveBlock, checkNodes_jumps nodes hvisited]

theorem visitBody_jumps {body : Traverse.Body Expr} {body' : Traverse.Body AExpr} (h : Traverse.visitBody body = .ok body') :
    jumpsNodes body'.nodes = jumpsNodes body.nodes ∧ (jumpsNodes body.nodes).Placed false := by
  obtain ⟨⟨nodes, retType⟩, hnodes, h⟩ := bind_eq_ok.mp h
  dsimp only at h
  split at h
  · cases h
  · next nodes' hcheck =>
    cases h
    obtain ⟨hjumps, hplaced⟩ := traverseNodes_jumps body.nodes false body.ret hnodes
    exact ⟨(checkMissingRet_jumps hcheck).trans hjumps, hplaced⟩

/-! ## Code generation -/

mutual

theorem lower_jumps : (stat : Stat AExpr) → jumps (LowerExpressions.lower stat) = jumps stat
  | .block nodes => lowerNodes_jumps nodes
  | .fi cond body none => lower_jumps body
  | .fi cond body (some elseBody) => congrArg₂ Jumps.or (lower_jumps body) (lower_jumps elseBody)
  | .swich expr cases alwaysReturns => by
    rw [LowerExpressions.lower, jumps, (lowerCases_lastsEnd cases).1, jumps]
  | .wile cond body | .four init cond incr body => congrArg Jumps.inside (lower_jumps body)
  | .terminate | .brake | .continu | .ret _ | .decl _ | .asgn _ => rfl

theorem lowerNodes_jumps : (nodes : List (Stat AExpr)) → jumpsNodes (LowerExpressions.lowerNodes nodes) = jumpsNodes nodes
  | [] => rfl
  | node :: nodes => congrArg₂ Jumps.or (lower_jumps node) (lowerNodes_jumps nodes)

theorem lowerCases_lastsEnd : (cases : List (SwitchCase AExpr)) →
    lastsEndCases (LowerExpressions.lowerCases cases) = lastsEndCases cases ∧
      (LowerExpressions.lowerCases cases).isEmpty = cases.isEmpty
  | [] => ⟨rfl, rfl⟩
  | .mk expr body :: cases => by
    obtain ⟨hlasts, hempty⟩ := lowerCases_lastsEnd cases
    refine ⟨?_, rfl⟩
    rw [LowerExpressions.lowerCases, lastsEndCases, lower_jumps body, hlasts, hempty, lastsEndCases]

end

/-- The jumps in the code of a statement. -/
def codeJumps (code : StatCode) : Jumps :=
  ⟨StatBlocks.breaks code, StatBlocks.continues code, StatBlocks.lastsEnd code⟩

def codeJumpsNodes (codes : List StatCode) : Jumps :=
  ⟨StatBlocks.breaksNodes codes, StatBlocks.continuesNodes codes, StatBlocks.lastsEndNodes codes⟩

section Visitor

open GenerateStat

variable (movable : ℕ → Bool)

mutual

theorem generate_jumps : (stat : Stat AExpr) → (scopeIndex : ℕ) →
    Ensures (visit movable stat scopeIndex) fun code ↦ codeJumps code = jumps stat
  | .block nodes, scopeIndex => Ensures.step fun _ ↦ (generateNodes_jumps nodes scopeIndex).bind fun codes hcodes ↦
      Ensures.step fun _ ↦ Ensures.pure hcodes
  | .fi cond body none, scopeIndex => Ensures.step fun condCode ↦ (generate_jumps body scopeIndex).bind fun _ hbody ↦
      Ensures.pure hbody
  | .fi cond body (some elseBody), scopeIndex => Ensures.step fun condCode ↦
      (generate_jumps body scopeIndex).bind fun bodyCode hbody ↦
        (generate_jumps elseBody scopeIndex).bind fun elseCode helse ↦ Ensures.pure (congrArg₂ Jumps.or hbody helse)
  | .swich expr cases alwaysReturns, _ => by
    refine Ensures.step fun exprScope ↦ Ensures.step fun n ↦ Ensures.step fun value ↦ Ensures.ite (fun hempty ↦ ?_) fun _ ↦ ?_
    · refine Ensures.step fun dtors ↦ Ensures.step fun _ ↦ Ensures.pure ?_
      rw [List.isEmpty_iff.mp hempty]
      rfl
    · refine Ensures.step fun s ↦ Ensures.step fun checks ↦ (generateBodies_lastsEnd cases _).bind fun bodies hbodies ↦ ?_
      refine Ensures.step fun dtors ↦ Ensures.step fun _ ↦ Ensures.pure ?_
      rw [jumps, ← hbodies.1]
      rfl
  | .terminate, _ => Ensures.step fun s ↦ Ensures.step fun dtors ↦ Ensures.pure rfl
  | .brake, scopeIndex => Ensures.map fun _ ↦ rfl
  | .continu, scopeIndex => Ensures.map fun _ ↦ rfl
  | .ret none, _ => Ensures.map fun _ ↦ rfl
  | .ret (some expr), _ => Ensures.step fun code ↦ Ensures.step fun dtors ↦ Ensures.pure rfl
  | .wile cond body, _ => Ensures.step fun scopeIndex ↦ (generate_jumps body scopeIndex).bind fun bodyCode hbody ↦
      Ensures.step fun _ ↦ Ensures.step fun condCode ↦ Ensures.pure (congrArg Jumps.inside hbody)
  | .four init cond incr body, _ => Ensures.step fun outerIndex ↦ Ensures.step fun initCode ↦ Ensures.step fun innerIndex ↦
      (generate_jumps body innerIndex).bind fun bodyCode hbody ↦ Ensures.step fun _ ↦ Ensures.step fun condCode ↦
        Ensures.step fun incrCode ↦ Ensures.step fun dtors ↦ Ensures.step fun _ ↦
          Ensures.pure (congrArg Jumps.inside hbody)
  | .decl decl, _ => Ensures.map fun _ ↦ rfl
  | .asgn asgn, _ => Ensures.map fun _ ↦ rfl

theorem generateNodes_jumps : (nodes : List (Stat AExpr)) → (scopeIndex : ℕ) →
    Ensures (visitNodes movable nodes scopeIndex) fun codes ↦ codeJumpsNodes codes = jumpsNodes nodes
  | [], _ => Ensures.pure rfl
  | node :: nodes, scopeIndex => (generate_jumps node scopeIndex).bind fun _ hcode ↦
      (generateNodes_jumps nodes scopeIndex).bind fun _ hcodes ↦ Ensures.pure (congrArg₂ Jumps.or hcode hcodes)

theorem generateBodies_lastsEnd : (cases : List (SwitchCase AExpr)) → (scope : ℕ) →
    Ensures (visitBodies movable cases scope) fun codes ↦
      StatBlocks.lastsEndCases codes = lastsEndCases cases ∧ codes.isEmpty = cases.isEmpty
  | [], _ => Ensures.pure ⟨rfl, rfl⟩
  | .mk expr body :: cases, scope => by
    refine Ensures.step fun _ ↦ (generate_jumps body scope).bind fun _ hcode ↦ Ensures.step fun _ ↦ ?_
    refine (generateBodies_lastsEnd cases scope).bind fun _ hcodes ↦ Ensures.pure ⟨?_, rfl⟩
    rw [StatBlocks.lastsEndCases, lastsEndCases, ← hcode, hcodes.1, hcodes.2]
    rfl

end

end Visitor

/-- The visit of the statements of a body. -/
def bodyPlace (code : BodyCode) : StatBlocks.Place where
  code := .block code.nodes
  flow := {}
  st := ((StatBlocks.storeParams code.params).run { builder := Blocks.newFunc }).2

theorem storeParams_made : (params : List (ℕ × Object)) → {st : StatBlocks.State} → st.builder.Made →
    ((StatBlocks.storeParams params).run st).2.builder.Made
  | [], _, h => h
  | _ :: params, _, h => storeParams_made params
      (StatBlocks.passes_of h (StatBlocks.from_createOp _ _)).made

theorem generateStat_jumps (movable : ℕ → Bool) (self : Option (ParamRef × Ty)) (params : List (ParamRef × Ty))
    (body : List (Stat AExpr)) : codeJumpsNodes (GenerateStat.generateStat movable self params body).nodes = jumpsNodes body := by
  have hbody : Ensures (GenerateStat.generateBody movable self params (LowerExpressions.lowerNodes body)) fun code ↦
      codeJumpsNodes code.nodes = jumpsNodes (LowerExpressions.lowerNodes body) :=
    Ensures.step fun _ ↦ Ensures.step fun _ ↦ Ensures.step fun _ ↦ (generateNodes_jumps movable _ 0).bind fun _ hcodes ↦
      Ensures.step fun _ ↦ Ensures.pure hcodes
  exact (hbody {}).trans (lowerNodes_jumps body)

theorem bodyPlace_made {code : BodyCode} (hregular : StatBlocks.regularNodes code.nodes = true) :
    StatBlocks.PlaceMade (bodyPlace code) where
  made := storeParams_made code.params Blocks.newFunc_valid.made
  flow := fun _ ht ↦ by rcases ht with ht | ht <;> cases ht
  regular := hregular

/-- What semantic analysis ensures of the generated code. -/
theorem generated_of_accepted {body : Traverse.Body Expr} {body' : Traverse.Body AExpr}
    (h : Traverse.visitBody body = .ok body') (movable : ℕ → Bool) (self : Option (ParamRef × Ty)) :
    let code := GenerateStat.generateStat movable self body'.params body'.nodes
    StatBlocks.PlaceMade (bodyPlace code) ∧ codeJumpsNodes code.nodes = jumpsNodes body.nodes := by
  intro code
  have hregular : StatBlocks.regularNodes code.nodes = true :=
    ((BodyTerminators.agrees_generateStat movable self body'.params body'.nodes).regular.trans
      (BodyTerminators.lowerNodes_oneDefault body'.nodes)).trans (BodyTerminators.visitBody_oneDefault h)
  exact ⟨bodyPlace_made hregular, (generateStat_jumps movable self body'.params body'.nodes).trans (visitBody_jumps h).1⟩

/-- In an accepted body every `break` and `continue` goes where it should if and only if no last case of a switch has a
`continue` that leaves it. -/
theorem accepted_targets_iff {body : Traverse.Body Expr} {body' : Traverse.Body AExpr} (h : Traverse.visitBody body = .ok body')
    (movable : ℕ → Bool) (self : Option (ParamRef × Ty)) :
    let code := GenerateStat.generateStat movable self body'.params body'.nodes
    (∀ q, StatBlocks.Visited code.retArg (bodyPlace code) q → StatBlocks.isJump q.code = true →
      StatBlocks.RightTarget code.retArg (bodyPlace code) q) ↔ (jumpsNodes body.nodes).lastsEnd = true := by
  intro code
  obtain ⟨hmade, hcode⟩ := generated_of_accepted h movable self
  obtain ⟨hbreaks, hcontinues⟩ := (visitBody_jumps h).2 rfl
  rw [← hcode] at hbreaks hcontinues ⊢
  exact StatBlocks.targets_iff_lastsEnd hmade hbreaks hcontinues

/-- `switch (true) { case (true) { continue; } default { break; } }` -/
def continuedCase : Traverse.Body Expr :=
  ⟨[], none, [.swich (.bool true) [.mk (some (.bool true)) (.block [.continu]), .mk none (.block [.brake])] false]⟩

theorem accepted_targets_iff_continuedCase : ∃ body', Traverse.visitBody continuedCase = .ok body' ∧
    let code := GenerateStat.generateStat (fun _ ↦ false) none body'.params body'.nodes
    ∀ q, StatBlocks.Visited code.retArg (bodyPlace code) q → StatBlocks.isJump q.code = true →
      StatBlocks.RightTarget code.retArg (bodyPlace code) q :=
  ⟨_, rfl, (accepted_targets_iff (rfl : Traverse.visitBody continuedCase = .ok _) (fun _ ↦ false) none).mpr rfl⟩

/-- `switch (true) { default { if (true) { continue; } return; } }` -/
def continuedLast : Traverse.Body Expr :=
  ⟨[], none, [.swich (.bool true) [.mk none (.block [.fi (.bool true) (.block [.continu]) none, .ret none])] false]⟩

/-- The `return` hides the `continue` from the check, and the generator visits it without a target. -/
theorem continuedLast_lost : ∃ body', Traverse.visitBody continuedLast = .ok body' ∧
    let code := GenerateStat.generateStat (fun _ ↦ false) none body'.params body'.nodes
    StatBlocks.Lost code.retArg (bodyPlace code) := by
  obtain ⟨body', h⟩ : ∃ body', Traverse.visitBody continuedLast = .ok body' := ⟨_, rfl⟩
  obtain ⟨hmade, hcode⟩ := generated_of_accepted h (fun _ ↦ false) none
  have hlasts : (jumpsNodes continuedLast.nodes).lastsEnd = false := rfl
  have hlost := (congrArg Jumps.lastsEnd hcode).trans hlasts
  exact ⟨body', h, StatBlocks.lost_of_not_lastsEndNodes _ hlost hmade.regular [] _ _⟩

end Stela.CodeGen.AcceptedJumps
