import Stela.CodeGen.FullExpressions
import Stela.Library.ControlFlow

/-!
# Expressions in basic blocks

`function builder.cpp` and the part of `generate expr.cpp` that makes blocks: `boolOr`, `boolAnd` and the
ternary. Everything else that the visitor emits for an expression stays in the block in which it starts, so
the code of an expression is taken here as a tree of instructions, short circuits and choices. `emit` puts
such a tree into blocks; `eval` is what the tree means.
-/

namespace Stela.CodeGen.Blocks

open Stela.Syntax Stela.Library.ControlFlow

/-- What is there without an instruction. -/
inductive Const where
  | literal (value : Literal)
  | var (definition : ℕ)
  | slot (n : ℕ)
  /-- An argument of the function. -/
  | arg (index : ℕ)
  | null

/-- The instructions other than branches. -/
inductive Oper where
  | capture (index : ℕ)
  | load
  | store
  | binary (oper : BinOp) (type : Ty)
  | unary (oper : UnOp)
  | cast (type : Ty)
  | convert (type : Ty)
  | destroy (type : Ty)
  | assign (type : Ty) (cat : ValueCat)
  | member (index : ℕ)
  | subscript
  | call (target : Target) (ret : Ty)
  | construct (type : Ty) (cat : ValueCat)
  | defConstruct (type : Ty)
  | funCtor (func : FuncSym)
  | string (value : List UInt8)
  | arrLenCtor (size : ℕ)
  | elem (index : ℕ)
  | field (index : ℕ)
  | lambda (lam : ℕ)

/-- The code of an expression, by the order in which it runs. -/
inductive Tree where
  /-- The result address. -/
  | dst
  | const (k : Const)
  | inst (oper : Oper) (args : List Tree)
  /-- `||` if `stop` is true, and else `&&`. -/
  | shortCircuit (stop : Bool) (lhs rhs : Tree)
  /-- Whether the branches have values, or construct at the result address. -/
  | ternary (phi : Bool) (cond troo fols : Tree)
  /-- The value of the first, then the others for what they do. -/
  | before (value : Tree) (effects : List Tree)
  /-- The body with another result address. -/
  | withDst (addr body : Tree)

abbrev FuncBuilder := Builder Oper Const

abbrev Value := Operand Const

abbrev Gen := StateM FuncBuilder

/-! ## `function builder.cpp` -/

/-- The constructor: an entry block for the `alloca` instructions, and the first block. -/
def newFunc : FuncBuilder where
  count := 2
  blocks := fun k ↦ if k = 0 then [.br 1] else []
  curr := 1
  next := 0

theorem newFunc_valid : newFunc.Valid where
  curr := Nat.one_lt_two
  unmade := fun _ hk ↦ if_neg (Nat.two_pos.trans_le hk).ne'
  openCurr := open_nil
  targets := by
    intro k i hi t ht
    by_cases hk : k = 0
    · subst hk
      obtain rfl := List.mem_singleton.mp hi
      obtain rfl := List.mem_singleton.mp ht
      exact Nat.one_lt_two
    · have hnil : newFunc.blocks k = [] := if_neg hk
      rw [hnil] at hi
      cases hi

def setCurr (block : ℕ) : Gen Unit :=
  modify fun b ↦ b.setCurr block

def makeBlock : Gen ℕ :=
  modifyGet Builder.makeBlock

def create (i : Inst Oper Const) : Gen Unit :=
  modify fun b ↦ b.append i

def link (source dest : ℕ) : Gen Unit := do
  let curr := (← get).curr
  setCurr source
  create (.br dest)
  setCurr curr

def nextEmpty : Gen ℕ := do
  let b ← get
  if (b.blocks b.curr).isEmpty then return b.curr
  else
    let next ← makeBlock
    create (.br next)
    return next

/-! ## `generate expr.cpp` -/

def createOp (oper : Oper) (args : List Value) : Gen Value :=
  modifyGet fun b ↦ b.appendOp oper args

def createPhi (incoming : List (Value × ℕ)) : Gen Value :=
  modifyGet fun b ↦ b.appendPhi incoming

/-- The right operand is skipped if the left one has the value `stop`. -/
def shortCircuit (stop : Bool) (lhs rhs : Gen Value) : Gen Value := do
  let lhsBlock := (← get).curr
  let rhsBlock ← makeBlock
  let doneBlock ← makeBlock
  let lhsExpr ← lhs
  create (if stop then .condBr lhsExpr doneBlock rhsBlock else .condBr lhsExpr rhsBlock doneBlock)
  setCurr rhsBlock
  let rhsExpr ← rhs
  create (.br doneBlock)
  setCurr doneBlock
  createPhi [(.const (.literal (.bool stop)), lhsBlock), (rhsExpr, rhsBlock)]

def boolOr : Gen Value → Gen Value → Gen Value :=
  shortCircuit true

def boolAnd : Gen Value → Gen Value → Gen Value :=
  shortCircuit false

/-- `visit(ast::Ternary &)`. -/
def ternary (phi : Bool) (cond troo fols : Gen Value) : Gen Value := do
  let condBlock ← nextEmpty
  let trooBlock ← makeBlock
  let folsBlock ← makeBlock
  let doneBlock ← makeBlock
  setCurr condBlock
  let condExpr ← cond
  create (.condBr condExpr trooBlock folsBlock)
  setCurr trooBlock
  let trooExpr ← troo
  setCurr folsBlock
  let folsExpr ← fols
  link trooBlock doneBlock
  link folsBlock doneBlock
  setCurr doneBlock
  if phi then createPhi [(trooExpr, trooBlock), (folsExpr, folsBlock)]
  else return .const .null

mutual

/-- The blocks of the code, with the given result address. -/
def emit : Tree → Value → Gen Value
  | .dst, dst => return dst
  | .const k, _ => return .const k
  | .inst oper args, dst => do createOp oper (← emits args dst)
  | .shortCircuit true lhs rhs, dst => boolOr (emit lhs dst) (emit rhs dst)
  | .shortCircuit false lhs rhs, dst => boolAnd (emit lhs dst) (emit rhs dst)
  | .ternary phi cond troo fols, dst => ternary phi (emit cond dst) (emit troo dst) (emit fols dst)
  | .before value effects, dst => do
      let value ← emit value dst
      let _ ← emits effects dst
      return value
  | .withDst addr body, dst => do emit body (← emit addr dst)

def emits : List Tree → Value → Gen (List Value)
  | [], _ => return []
  | tree :: trees, dst => do
      let value ← emit tree dst
      return value :: (← emits trees dst)

end

/-! ## Trees of code -/

/-- What is destroyed after a call. -/
def destroyArgs (dtors : List Object) : List Tree :=
  dtors.map fun obj ↦ .inst (.destroy obj.type) [.const (.slot obj.slot)]

mutual

/-- The tree of some code; `result` tells whether it constructs an object at a result address. -/
def tree : Code → Bool → Tree
  | .const value, _ => .const (.literal value)
  | .var definition, _ => .const (.var definition)
  | .capture index, _ => .inst (.capture index) []
  | .load addr, _ => .inst .load [tree addr false]
  | .binary oper type lhs rhs, _ => .inst (.binary oper type) [tree lhs false, tree rhs false]
  | .shortCircuit oper lhs rhs, _ =>
      .shortCircuit (oper = .bool_or) (tree lhs false) (tree rhs false)
  | .unary oper operand, _ => .inst (.unary oper) [tree operand false]
  | .cast type operand, _ => .inst (.cast type) [tree operand false]
  | .convert type operand dtors, _ => .before (.inst (.convert type) [tree operand false]) (destroyArgs dtors)
  | .member object index, _ => .inst (.member index) [tree object false]
  | .subscript object index, _ => .inst .subscript [tree object false, tree index false]
  | .slot n _ init, _ => .withDst (.const (.slot n)) (.before .dst [tree init true])
  | .call target ret args dtors, result =>
      .before (.inst (.call target ret) (trees args ++ if result then [.dst] else [])) (destroyArgs dtors)
  | .ternary cond troo fols, result => .ternary (!result) (tree cond false) (tree troo result) (tree fols result)
  | .store value, _ => .inst .store [tree value false, .dst]
  | .construct type cat src, _ => .inst (.construct type cat) [.dst, tree src false]
  | .defConstruct type, _ => .inst (.defConstruct type) [.dst]
  | .funCtor func, _ => .inst (.funCtor func) [.dst]
  | .string value, _ => .inst (.string value) [.dst]
  | .array elems, _ =>
      .before .dst [.withDst (.inst (.arrLenCtor elems.length) [.dst]) (.before .dst (elemTrees .elem 0 elems))]
  | .initList fields, _ => .before .dst (elemTrees .field 0 fields)
  | .lambda lam, _ => .inst (.lambda lam) [.dst]

def trees : List Code → List Tree
  | [] => []
  | code :: codes => tree code false :: trees codes

/-- Each element into its place. -/
def elemTrees : (ℕ → Oper) → ℕ → List Code → List Tree
  | _, _, [] => []
  | place, index, code :: codes =>
      .withDst (.inst (place index) [.dst]) (tree code true) :: elemTrees place (index + 1) codes

end

/-! ## What trees mean -/

section Eval

variable {V σ : Type} (M : Machine Oper Const V σ)

mutual

/-- Left to right; the right operand of `||` if the left one is false, that of `&&` if it is true, and one branch
of `?:`. -/
def eval : Tree → V → σ → Option (V × σ)
  | .dst, dst, s => some (dst, s)
  | .const k, _, s => some (M.const k, s)
  | .inst oper args, dst, s => (evals args dst s).bind fun (values, s) ↦ M.op oper values s
  | .shortCircuit true lhs rhs, dst, s => (eval lhs dst s).bind fun (value, s) ↦
      if M.truth value then some (M.const (.literal (.bool true)), s) else eval rhs dst s
  | .shortCircuit false lhs rhs, dst, s => (eval lhs dst s).bind fun (value, s) ↦
      if M.truth value then eval rhs dst s else some (M.const (.literal (.bool false)), s)
  | .ternary phi cond troo fols, dst, s => (eval cond dst s).bind fun (value, s) ↦
      (if M.truth value then eval troo dst s else eval fols dst s).map fun (value, s) ↦
        (if phi then value else M.const .null, s)
  | .before value effects, dst, s => (eval value dst s).bind fun (value, s) ↦
      (evals effects dst s).map fun (_, s) ↦ (value, s)
  | .withDst addr body, dst, s => (eval addr dst s).bind fun (dst, s) ↦ eval body dst s

def evals : List Tree → V → σ → Option (List V × σ)
  | [], _, s => some ([], s)
  | tree :: trees, dst, s => (eval tree dst s).bind fun (value, s) ↦
      (evals trees dst s).map fun (values, s) ↦ (value :: values, s)

end

end Eval

end Stela.CodeGen.Blocks
