import Stela.Flow.Paths

/-!
# The missing-return check

`check missing return.cpp`. The visitor threads two fields through a body: the way the last
visited statement ends (`term`) and whether it does so (`occurs`). Declarations and assignments
are not overridden by the visitor and leave both fields as they were. Blocks that may be left at
their end receive a `Terminate`, and switches are marked when they always return.
-/

namespace Stela.Semantic.CheckMissingReturn

open Stela.Syntax

variable {ε : Type}

inductive Term where
  | continues | breaks | returns
  deriving DecidableEq, Repr

inductive Occurs where
  | no | maybe | yes
  deriving DecidableEq, Repr

/-- The underlying integer of the enumeration. -/
def Term.toInt : Term → ℕ
  | continues => 0
  | breaks => 1
  | returns => 2

/-- `std::max` on the underlying integers. -/
def maxTerm (a b : Term) : Term :=
  if a.toInt < b.toInt then b else a

/-- The fatal errors of the check. -/
inductive FlowError where
  | unreachableCode | caseMayContinue | doesNotReturn | mayNotReturn
  deriving DecidableEq, Repr

def FlowError.message : FlowError → String
  | unreachableCode => "Unreachable code"
  | caseMayContinue => "Case may continue but this case does not precede another"
  | doesNotReturn => "Non-void function does not return"
  | mayNotReturn => "Non-void function may not return"

/-- The two mutable fields of the visitor. -/
structure State where
  term : Term := .continues
  occurs : Occurs := .no
  deriving DecidableEq, Repr

/-- The fields of the visitor and the local variables of `visit(ast::Block &)`. -/
structure Scan where
  state : State
  blockTerm : Term := .continues
  maybeLeave : Bool := false
  deriving DecidableEq, Repr

/-- One turn of the loop over the nodes of a block, after the node was visited. -/
def Scan.add (scan : Scan) (state : State) : Scan where
  state := state
  maybeLeave := scan.maybeLeave || (state.occurs == .maybe && state.term != .returns)
  blockTerm := maxTerm scan.blockTerm state.term

/-- The end of `visit(ast::Block &)`. -/
def leaveBlock (nodes : List (Stat ε)) (scan : Scan) : List (Stat ε) × State :=
  let occurs := if scan.maybeLeave then .maybe else scan.state.occurs
  (if occurs ≠ .yes then nodes ++ [.terminate] else nodes, ⟨scan.blockTerm, occurs⟩)

/-- The end of `visit(ast::If &)`, from the fields after each branch. -/
def leaveIf (troo fols : State) : State where
  occurs := if fols.occurs ≠ troo.occurs ∨ fols.term ≠ troo.term then .maybe else fols.occurs
  term := if troo.term = .returns then .returns else fols.term

/-- The local variables of `visit(ast::Switch &)`. -/
structure Tally where
  foundDefault : Bool := false
  retCount : ℕ := 0
  totalCases : ℕ
  maybeRet : Bool := false
  deriving DecidableEq, Repr

/-- One turn of the loop over the cases, after the body of the case was visited. -/
def Tally.add (tally : Tally) (isDefault : Bool) (state : State) : Tally where
  foundDefault := tally.foundDefault || isDefault
  maybeRet := tally.maybeRet || (state.term == .returns && state.occurs == .maybe)
  retCount := if state.term = .returns ∧ state.occurs = .yes then tally.retCount + 1 else tally.retCount
  totalCases := if state.term = .continues ∧ state.occurs = .yes then tally.totalCases - 1 else tally.totalCases

/-- The end of `visit(ast::Switch &)`: the mark of the switch and the fields. -/
def leaveSwitch (tally : Tally) : Bool × State :=
  if tally.retCount = tally.totalCases ∧ tally.foundDefault then (true, ⟨.returns, .yes⟩)
  else if tally.maybeRet ∨ tally.retCount ≠ 0 then (false, ⟨.returns, .maybe⟩)
  else (false, ⟨.returns, .no⟩)

def afterLoop (state : State) : State :=
  if state.term = .returns then
    if state.occurs ≠ .no then { state with occurs := .maybe } else state
  else ⟨.returns, .no⟩

mutual

/-- The visitor: the statement with the inserted nodes and marks, and the fields after it. -/
def visit : Stat ε → State → Except FlowError (Stat ε × State)
  | .block nodes, state => do
      let (nodes, scan) ← visitNodes nodes { state := { state with occurs := .no } }
      let left := leaveBlock nodes scan
      return (.block left.1, left.2)
  | .fi cond body none, state => do
      let (body, troo) ← visit body state
      return (.fi cond body none, leaveIf troo { troo with occurs := .no })
  | .fi cond body (some elseBody), state => do
      let (body, troo) ← visit body state
      let (elseBody, fols) ← visit elseBody troo
      return (.fi cond body (some elseBody), leaveIf troo fols)
  | .swich expr cases _, state => do
      let (cases, tally) ← visitCases cases state { totalCases := cases.length }
      let left := leaveSwitch tally
      return (.swich expr cases left.1, left.2)
  | .brake, _ => return (.brake, ⟨.breaks, .yes⟩)
  | .continu, _ => return (.continu, ⟨.continues, .yes⟩)
  | .ret expr, _ => return (.ret expr, ⟨.returns, .yes⟩)
  | .wile cond body, state => do
      let (body, state) ← visit body state
      return (.wile cond body, afterLoop state)
  | .four init cond incr body, state => do
      let (body, state) ← visit body state
      return (.four init cond incr body, afterLoop state)
  | .terminate, state => return (.terminate, state)
  | .decl decl, state => return (.decl decl, state)
  | .asgn asgn, state => return (.asgn asgn, state)

/-- The loop of `visit(ast::Block &)`. -/
def visitNodes : List (Stat ε) → Scan → Except FlowError (List (Stat ε) × Scan)
  | [], scan => return ([], scan)
  | node :: nodes, scan => do
      let (node, state) ← visit node scan.state
      if state.occurs = .yes ∧ nodes ≠ [] then .error .unreachableCode
      else do
        let (nodes, scan) ← visitNodes nodes (scan.add state)
        return (node :: nodes, scan)

/-- The loop of `visit(ast::Switch &)`. -/
def visitCases : List (SwitchCase ε) → State → Tally → Except FlowError (List (SwitchCase ε) × Tally)
  | [], _, tally => return ([], tally)
  | .mk expr body :: cases, state, tally => do
      let (body, state) ← visit body state
      if state.term = .continues ∧ state.occurs ≠ .no ∧ cases = [] then .error .caseMayContinue
      else do
        let (cases, tally) ← visitCases cases state (tally.add expr.isNone state)
        return (.mk expr body :: cases, tally)

end

/-- The void case of `checkMissingRet`: the last `Terminate` is replaced by a `Return`. -/
def appendReturn (nodes : List (Stat ε)) : List (Stat ε) :=
  match nodes.getLast? with
  | some .terminate => nodes.dropLast ++ [.ret none]
  | _ => nodes ++ [.ret none]

/-- `checkMissingRet` on the body of a function or lambda with the given return type. -/
def checkMissingRet (body : List (Stat ε)) (ret : Ty) : Except FlowError (List (Stat ε)) := do
  let (nodes, scan) ← visitNodes body { state := {} }
  let left := leaveBlock nodes scan
  if ret.isVoid ∧ (left.2.occurs = .no ∨ left.2.occurs = .maybe) then return appendReturn left.1
  else if left.2.occurs = .no then .error .doesNotReturn
  else if left.2.occurs = .maybe then .error .mayNotReturn
  else return left.1

end Stela.Semantic.CheckMissingReturn
