import Stela.CodeGen.StatBlocks

/-!
# What the code of statements means

The execution of the code of a statement, given what the instructions do. Expressions are evaluated as their trees
say, objects are destroyed where the code says so, and a statement ends normally or with a jump. In a switch the
cases are compared in order up to the first one that is equal to the value.
-/

namespace Stela.CodeGen.StatBlocks

open Stela.Syntax Stela.Library.ControlFlow
open Blocks (Const Oper tree eval)

variable {V σ : Type} (M : Machine Oper Const V σ)

/-- An expression, with its result address. -/
def evalExpr (code : Code) (result : Bool) (dst : V) (s : σ) : Option (V × σ) :=
  eval M (tree code result) dst s

def addressOf (obj : Object) : V :=
  M.const (.slot obj.slot)

/-- An instruction of which the value is not used. -/
def perform (oper : Oper) (args : List V) (s : σ) : Option σ :=
  (M.op oper args s).map Prod.snd

def destroyAll : List Object → σ → Option σ
  | [], s => some s
  | obj :: objs, s =>
      if hasDtor obj.type then (perform M (.destroy obj.type) [addressOf M obj] s).bind (destroyAll objs)
      else destroyAll objs s

/-- Whether a condition holds. -/
def evalCond (cond : FullCode) (s : σ) : Option (Bool × σ) := do
  let (value, s) ← evalExpr M cond.code false (M.const .null) s
  let s ← destroyAll M cond.dtors s
  return (M.truth value, s)

/-- Whether the value of a switch is equal to the expression of a case. -/
def evalCheck (value : Object) (check : CheckCode) (s : σ) : Option (Bool × σ) := do
  let (_, s) ← evalExpr M check.init.code true (addressOf M check.obj) s
  let (equal, s) ← M.op (.binary .eq check.obj.type) [addressOf M value, addressOf M check.obj] s
  let s ← destroyAll M check.init.dtors s
  return (M.truth equal, s)

/-- The first case, from case `c` on, that is equal to the value. The cases after it are not compared. -/
def firstEqual (value : Object) : List (Option CheckCode) → ℕ → σ → Option (Option ℕ × σ)
  | [], _, s => some (none, s)
  | none :: checks, c, s => firstEqual value checks (c + 1) s
  | some check :: checks, c, s => do
      let (equal, s) ← evalCheck M value check s
      if equal then return (some c, s) else firstEqual value checks (c + 1) s

/-- The case that a switch selects. -/
def select (value : Object) (checks : List (Option CheckCode)) (s : σ) : Option (Option ℕ × σ) :=
  (firstEqual M value checks 0 s).map fun (found, s) ↦ (found.or (findDefault checks), s)

def evalAsgn : AsgnCode → σ → Option σ
  | .var obj none, s => perform M (.defConstruct obj.type) [addressOf M obj] s
  | .var obj (some init), s => do
      let (_, s) ← evalExpr M init.code true (addressOf M obj) s
      destroyAll M init.dtors s
  | .assign type cat dst src, s => do
      let (dst, s) ← evalExpr M dst false (M.const .null) s
      let (value, s) ← evalExpr M src.code false (M.const .null) s
      let s ← perform M (.assign type cat) [dst, value] s
      destroyAll M src.dtors s
  | .call call, s => do
      let (_, s) ← evalExpr M call.code false (M.const .null) s
      destroyAll M call.dtors s
  | .none, s => some s

/-- The value that a function returns; objects are returned at the address that is an argument. -/
def evalReturn (retArg : ℕ) (dtors : List Object) : Option (Ty × Code) → σ → Option (Option V × σ)
  | none, s => (destroyAll M dtors s).map fun s ↦ (none, s)
  | some (type, code), s => do
      let (value, s) ← evalExpr M code (!isTriviallyCopyable type) (M.const (.arg retArg)) s
      let s ← destroyAll M dtors s
      return (if !type.isVoid ∧ isTriviallyCopyable type then some value else none, s)

/-- How a statement ends. -/
inductive Ending (V : Type) where
  | normal
  | brake
  | continu
  | ret (value : Option V)

/-- A statement, a list of statements, or the bodies of the cases of a switch from the selected one on. -/
inductive Part where
  | stat (code : StatCode)
  | nodes (nodes : List StatCode)
  | cases (bodies : List StatCode)
  /-- A loop from its condition on; what follows the body is the increment of a `for`. -/
  | loop (cond : FullCode) (incr : AsgnCode) (body : StatCode)

/-- A jump out of a statement in a list. -/
def Ending.jumps : Ending V → Prop
  | .normal => False
  | .brake | .continu | .ret _ => True

inductive Exec (retArg : ℕ) : Part → σ → Ending V → σ → Prop where
  | block {nodes s e s'} : Exec retArg (.nodes nodes) s e s' → Exec retArg (.stat (.block nodes)) s e s'
  | nil {s} : Exec retArg (.nodes []) s .normal s
  | cons {node nodes s s' e s''} : Exec retArg (.stat node) s .normal s' → Exec retArg (.nodes nodes) s' e s'' →
      Exec retArg (.nodes (node :: nodes)) s e s''
  | jump {node nodes s e s'} : Exec retArg (.stat node) s e s' → e.jumps → Exec retArg (.nodes (node :: nodes)) s e s'
  | troo {cond body elseBody s s' e s''} : evalCond M cond s = some (true, s') → Exec retArg (.stat body) s' e s'' →
      Exec retArg (.stat (.fi cond body elseBody)) s e s''
  | fols {cond body elseBody s s' e s''} : evalCond M cond s = some (false, s') → Exec retArg (.stat elseBody) s' e s'' →
      Exec retArg (.stat (.fi cond body (some elseBody))) s e s''
  | skip {cond body s s'} : evalCond M cond s = some (false, s') →
      Exec retArg (.stat (.fi cond body none)) s .normal s'
  | noCases {obj value bodies alwaysReturns dtors s v s' s''} :
      evalExpr M value true (addressOf M obj) s = some (v, s') → destroyAll M dtors s' = some s'' →
      Exec retArg (.stat (.swich obj value [] bodies alwaysReturns dtors)) s .normal s''
  /-- No case is selected. Nothing is after a switch that always returns. -/
  | noCase {obj value checks bodies dtors s v s' s'' s'''} : checks ≠ [] →
      evalExpr M value true (addressOf M obj) s = some (v, s') →
      select M obj checks s' = some (none, s'') → destroyAll M dtors s'' = some s''' →
      Exec retArg (.stat (.swich obj value checks bodies false dtors)) s .normal s'''
  | oneCase {obj value checks bodies dtors s v s' c s'' s''' s''''} :
      evalExpr M value true (addressOf M obj) s = some (v, s') →
      select M obj checks s' = some (some c, s'') →
      Exec retArg (.cases (bodies.drop c)) s'' .normal s''' → destroyAll M dtors s''' = some s'''' →
      Exec retArg (.stat (.swich obj value checks bodies false dtors)) s .normal s''''
  | returnCase {obj value checks bodies alwaysReturns dtors s v s' c s'' r s'''} :
      evalExpr M value true (addressOf M obj) s = some (v, s') →
      select M obj checks s' = some (some c, s'') →
      Exec retArg (.cases (bodies.drop c)) s'' (.ret r) s''' →
      Exec retArg (.stat (.swich obj value checks bodies alwaysReturns dtors)) s (.ret r) s'''
  /-- The end of a body is the end of the switch, and so is a `break`. -/
  | caseEnd {body bodies s s'} : Exec retArg (.stat body) s .normal s' → Exec retArg (.cases (body :: bodies)) s .normal s'
  | caseBreak {body bodies s s'} : Exec retArg (.stat body) s .brake s' → Exec retArg (.cases (body :: bodies)) s .normal s'
  /-- A `continue` goes on with the next case; there must be one. -/
  | caseContinue {body next bodies s s' e s''} : Exec retArg (.stat body) s .continu s' →
      Exec retArg (.cases (next :: bodies)) s' e s'' → Exec retArg (.cases (body :: next :: bodies)) s e s''
  | caseReturn {body bodies s r s'} : Exec retArg (.stat body) s (.ret r) s' →
      Exec retArg (.cases (body :: bodies)) s (.ret r) s'
  | terminate {dtors s s'} : destroyAll M dtors s = some s' → Exec retArg (.stat (.terminate dtors)) s .normal s'
  | brake {dtors s s'} : destroyAll M dtors s = some s' → Exec retArg (.stat (.brake dtors)) s .brake s'
  | continu {dtors s s'} : destroyAll M dtors s = some s' → Exec retArg (.stat (.continu dtors)) s .continu s'
  | ret {value dtors s r s'} : evalReturn M retArg dtors value s = some (r, s') →
      Exec retArg (.stat (.ret value dtors)) s (.ret r) s'
  | asgn {code s s'} : evalAsgn M code s = some s' → Exec retArg (.stat (.asgn code)) s .normal s'
  | wile {cond body s e s'} : Exec retArg (.loop cond .none body) s e s' → Exec retArg (.stat (.wile cond body)) s e s'
  | four {init cond incr body dtors s s' s'' s'''} : evalAsgn M init s = some s' →
      Exec retArg (.loop cond incr body) s' .normal s'' → destroyAll M dtors s'' = some s''' →
      Exec retArg (.stat (.four init cond incr body dtors)) s .normal s'''
  | fourReturn {init cond incr body dtors s s' r s''} : evalAsgn M init s = some s' →
      Exec retArg (.loop cond incr body) s' (.ret r) s'' →
      Exec retArg (.stat (.four init cond incr body dtors)) s (.ret r) s''
  | loopEnd {cond incr body s s'} : evalCond M cond s = some (false, s') →
      Exec retArg (.loop cond incr body) s .normal s'
  | loopBreak {cond incr body s s' s''} : evalCond M cond s = some (true, s') → Exec retArg (.stat body) s' .brake s'' →
      Exec retArg (.loop cond incr body) s .normal s''
  | loopReturn {cond incr body s s' r s''} : evalCond M cond s = some (true, s') →
      Exec retArg (.stat body) s' (.ret r) s'' → Exec retArg (.loop cond incr body) s (.ret r) s''
  | loopNext {cond incr body s s' e s'' s''' e' s''''} : evalCond M cond s = some (true, s') →
      Exec retArg (.stat body) s' e s'' → e = .normal ∨ e = .continu → evalAsgn M incr s'' = some s''' →
      Exec retArg (.loop cond incr body) s''' e' s'''' → Exec retArg (.loop cond incr body) s e' s''''

end Stela.CodeGen.StatBlocks
