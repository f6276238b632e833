import Stela.CodeGen.NestedConditions
import Stela.CodeGen.GenerateStat

/-!
# Statements in basic blocks

The part of `generate stat.cpp` that makes blocks. A failed assertion is recorded and the generator goes on, so that
every function has some blocks.
-/

namespace Stela.CodeGen.StatBlocks

open Stela.Syntax Stela.Library.ControlFlow
open Blocks (FuncBuilder Value Const Oper emit tree)

structure State where
  builder : FuncBuilder
  failed : Bool := false

abbrev Gen := StateM State

def lift {α : Type} (g : Blocks.Gen α) : Gen α :=
  modifyGet fun s ↦ ((g.run s.builder).1, { s with builder := (g.run s.builder).2 })

/-- A failed assertion. -/
def fail : Gen Unit :=
  modify fun s ↦ { s with failed := true }

/-! ## `function builder.cpp` -/

def setCurr (block : ℕ) : Gen Unit := lift (Blocks.setCurr block)

def makeBlock : Gen ℕ := lift Blocks.makeBlock

/-- The first of so many new blocks, which are numbered consecutively. -/
def makeBlocks : ℕ → Gen ℕ
  | 0 => return (← get).builder.count
  | n + 1 => do
      let block ← makeBlock
      let _ ← makeBlocks n
      return block

def create (i : Inst Oper Const) : Gen Unit := lift (Blocks.create i)

def createOp (oper : Oper) (args : List Value) : Gen Value := lift (Blocks.createOp oper args)

def link (source dest : ℕ) : Gen Unit := lift (Blocks.link source dest)

def nextEmpty : Gen ℕ := lift Blocks.nextEmpty

/-- Whether the last instruction is a terminator. -/
def isTerminated (block : Block Oper Const) : Bool :=
  block.getLast?.any Inst.isTerminator

def terminate (dest : ℕ) : Gen Unit := do
  let b := (← get).builder
  if isTerminated (b.blocks b.curr) then return ()
  else create (.br dest)

def lazyBlock : Option ℕ → Gen ℕ
  | some dest => return dest
  | none => makeBlock

def terminateLazy (dest : Option ℕ) : Gen (Option ℕ) := do
  let b := (← get).builder
  if isTerminated (b.blocks b.curr) then return dest
  else
    let dest ← lazyBlock dest
    create (.br dest)
    return some dest

/-! ## `generate stat.cpp` -/

/-- An expression, with or without a result address. -/
def genExpr (code : Code) (result : Bool) (dst : Value) : Gen Value :=
  lift (emit (tree code result) dst)

def address (obj : Object) : Value :=
  .const (.slot obj.slot)

def destroy : List Object → Gen Unit
  | [] => return ()
  | obj :: objs => do
      if hasDtor obj.type then
        let _ ← createOp (.destroy obj.type) [address obj]
        destroy objs
      else destroy objs

def genCondBr (cond : FullCode) (troo fols : ℕ) : Gen Unit := do
  let condExpr ← genExpr cond.code false (.const .null)
  destroy cond.dtors
  create (.condBr condExpr troo fols)

def equalTo (value : Object) (check : CheckCode) : Gen Value := do
  let _ ← genExpr check.init.code true (address check.obj)
  let equalExpr ← createOp (.binary .eq check.obj.type) [address value, address check.obj]
  destroy check.init.dtors
  return equalExpr

def emitAsgn : AsgnCode → Gen Unit
  | .var obj none => do
      let _ ← createOp (.defConstruct obj.type) [address obj]
  | .var obj (some init) => do
      let _ ← genExpr init.code true (address obj)
      destroy init.dtors
  | .assign type cat dst src => do
      let dstExpr ← genExpr dst false (.const .null)
      let srcExpr ← genExpr src.code false (.const .null)
      let _ ← createOp (.assign type cat) [dstExpr, srcExpr]
      destroy src.dtors
  | .call call => do
      let _ ← genExpr call.code false (.const .null)
      destroy call.dtors
  | .none => return ()

/-- `FlowData`. -/
structure FlowData where
  breakBlock : Option ℕ := none
  continueBlock : Option ℕ := none

/-- A branch to a block of `FlowData`. -/
def createBr : Option ℕ → Gen Unit
  | some block => create (.br block)
  | none => fail

def pastDefaultCase (caseIndex : ℕ) : Option ℕ → Bool
  | some defaultIndex => defaultIndex < caseIndex
  | none => false

def checkIndexOfCase (caseIndex : ℕ) (defaultIndex : Option ℕ) : ℕ :=
  caseIndex - (pastDefaultCase caseIndex defaultIndex).toNat

def findDefault (checks : List (Option CheckCode)) : Option ℕ :=
  checks.findIdx? Option.isNone

/-- The loop of `emitCaseChecks` from case `c` of `size` on. -/
def emitCaseChecks (value : Object) (checkBlocks caseBlocks done size : ℕ) (defaultIndex : Option ℕ) :
    List (Option CheckCode) → ℕ → Gen Unit
  | [], _ => return ()
  | none :: checks, c => emitCaseChecks value checkBlocks caseBlocks done size defaultIndex checks (c + 1)
  | some check :: checks, c => do
      let checkIndex := checkIndexOfCase c defaultIndex
      setCurr (checkBlocks + checkIndex)
      let cond ← equalTo value check
      let nextCheck :=
        if !pastDefaultCase c defaultIndex ∧ c = size - 1 then done else checkBlocks + (checkIndex + 1)
      create (.condBr cond (caseBlocks + c) nextCheck)
      emitCaseChecks value checkBlocks caseBlocks done size defaultIndex checks (c + 1)

/-- After the checks, control goes to the default case. -/
def linkDefault (checkBlock caseBlocks : ℕ) : Option ℕ → Gen Unit
  | some defaultIndex => link checkBlock (caseBlocks + defaultIndex)
  | none => return ()

/-- After an `if`, unless no branch gets there. -/
def enterDone : Option ℕ → Gen Unit
  | some done => setCurr done
  | none => return ()

/-- The end of a function. -/
def returnObject (value : Option (Ty × Value)) : Gen Unit :=
  match value with
  | none => create (.ret none)
  | some (type, retObj) =>
      create (.ret (if !type.isVoid ∧ isTriviallyCopyable type then some retObj else none))

/-- `visit(ast::If &)`. -/
def emitIf (cond : FullCode) (body elseBody : Gen Unit) : Gen Unit := do
  let troo ← makeBlock
  let fols ← makeBlock
  genCondBr cond troo fols
  setCurr troo
  body
  let done ← terminateLazy none
  setCurr fols
  elseBody
  let done ← terminateLazy done
  enterDone done

/-- `visit(ast::While &)`. -/
def emitWhile (cond : FullCode) (body : FlowData → Gen Unit) : Gen Unit := do
  let condBlock ← nextEmpty
  let bodyBlock ← makeBlock
  let done ← makeBlock
  setCurr bodyBlock
  body ⟨some done, some condBlock⟩
  terminate condBlock
  setCurr condBlock
  genCondBr cond bodyBlock done
  setCurr done

/-- The rest of `visit(ast::For &)`, after the initialisation. -/
def emitFor (body : FlowData → Gen Unit) (cond : FullCode) (incr : AsgnCode) (dtors : List Object) : Gen Unit := do
  let condBlock ← nextEmpty
  let bodyBlock ← makeBlock
  let incrBlock ← makeBlock
  let done ← makeBlock
  setCurr bodyBlock
  body ⟨some done, some incrBlock⟩
  terminate incrBlock
  setCurr condBlock
  genCondBr cond bodyBlock done
  setCurr incrBlock
  emitAsgn incr
  create (.br condBlock)
  setCurr done
  destroy dtors

/-- The rest of `visit(ast::Switch &)`, after the value; there is at least one case. -/
def emitCases (value : Object) (checks : List (Option CheckCode)) (caseBodies : ℕ → ℕ → Gen Unit) (alwaysReturns : Bool)
    (dtors : List Object) : Gen Unit := do
  let checkBlocks ← makeBlocks checks.length
  let caseBlocks ← makeBlocks checks.length
  let done ← makeBlock
  create (.br checkBlocks)
  let defaultIndex := findDefault checks
  emitCaseChecks value checkBlocks caseBlocks done checks.length defaultIndex checks 0
  linkDefault (checkBlocks + (checks.length - 1)) caseBlocks defaultIndex
  caseBodies caseBlocks done
  setCurr done
  if alwaysReturns then create .unreachable else destroy dtors

section Visitor

variable (retArg : ℕ)

def createReturnObject : Option (Ty × Code) → Gen (Option (Ty × Value))
  | none => return none
  | some (type, code) => do
      let retObj ← genExpr code (!isTriviallyCopyable type) (.const (.arg retArg))
      return some (type, retObj)

mutual

def emitStat : StatCode → FlowData → Gen Unit
  | .block nodes, flow => emitNodes nodes flow
  | .fi cond body none, flow => emitIf cond (emitStat body flow) (return ())
  | .fi cond body (some elseBody), flow => emitIf cond (emitStat body flow) (emitStat elseBody flow)
  | .swich obj value checks bodies alwaysReturns dtors, _ => do
      let _ ← genExpr value true (address obj)
      if checks.isEmpty then destroy dtors
      else emitCases obj checks (emitCaseBodies bodies) alwaysReturns dtors
  | .terminate dtors, _ => destroy dtors
  | .brake dtors, flow => do
      destroy dtors
      createBr flow.breakBlock
  | .continu dtors, flow => do
      destroy dtors
      createBr flow.continueBlock
  | .ret value dtors, _ => do
      let retObj ← createReturnObject retArg value
      destroy dtors
      returnObject retObj
  | .wile cond body, _ => emitWhile cond (emitStat body)
  | .four init cond incr body dtors, _ => do
      emitAsgn init
      emitFor (emitStat body) cond incr dtors
  | .asgn code, _ => emitAsgn code

def emitNodes : List StatCode → FlowData → Gen Unit
  | [], _ => return ()
  | node :: nodes, flow => do
      emitStat node flow
      emitNodes nodes flow

/-- The cases from the one whose body is in `block` on. -/
def emitCaseBodies : List StatCode → ℕ → ℕ → Gen Unit
  | [], _, _ => return ()
  | body :: bodies, block, done => do
      setCurr block
      emitStat body ⟨some done, if bodies.isEmpty then none else some (block + 1)⟩
      terminate done
      emitCaseBodies bodies (block + 1) done

end

end Visitor

/-- The arguments that are stored in objects of their own. -/
def storeParams : List (ℕ × Object) → Gen Unit
  | [] => return ()
  | (index, obj) :: params => do
      let _ ← createOp .store [.const (.arg index), address obj]
      storeParams params

/-- The blocks of a function. -/
def emitBody (body : BodyCode) : State :=
  let gen : Gen Unit := do
    storeParams body.params
    emitNodes body.retArg body.nodes {}
  (gen.run { builder := Blocks.newFunc }).2

end Stela.CodeGen.StatBlocks
