import Mathlib.Logic.Function.Basic
import Stela.Library.Machine
import Stela.Syntax.Types

/-!
# Scopes and captures

`symbols.hpp`, `scope traverse.hpp`, `scope lookup.cpp`, `scope insert.cpp` and the capturing part of
`expr lookup.cpp`. The analysis only ever inserts into the current scope, so a scope is given by the
list of itself and its parents. Objects stand for the nodes that declare them, functions and lambdas
for their symbols; `fresh` numbers both in order of creation.

The machine at the end takes one step for each call that the traversal of a program makes on the
symbol table.
-/

namespace Stela.Semantic.Scopes

open Stela.Syntax

inductive ScopeType where
  | ns | block | func | flow | closure
  deriving DecidableEq, Repr

/-- The symbols in the table of a scope. -/
inductive Symbol where
  | object (node : ℕ) (type : Ty)
  | func
  | lambda
  | typeAlias
  | btnFunc

structure Scope where
  type : ScopeType
  symbol : ℕ := 0
  table : List (String × Symbol) := []

/-- The first scope of the given type. -/
def findNearest (type : ScopeType) : List Scope → Option Scope
  | [] => none
  | scope :: parents => if scope.type = type then some scope else findNearest type parents

def find (scope : Scope) (name : String) : Option Symbol :=
  scope.table.lookup name

/-- The symbol that a name refers to, and the scope in which it is found. -/
def findScope (name : String) : List Scope → Option (Symbol × List Scope)
  | [] => none
  | scope :: parents =>
      match find scope name with
      | some symbol => some (symbol, scope :: parents)
      | none => findScope name parents

/-! ## Captures -/

/-- `sym::ClosureCap`; the index `~0` is `none`. -/
structure ClosureCap where
  type : Ty
  object : ℕ
  index : Option ℕ

/-- The capture list of every lambda. -/
abbrev Captures := ℕ → List ClosureCap

/-- Add a capture to a lambda; the result is its index. -/
def pushCapture (captures : Captures) (lamSym : ℕ) (cap : ClosureCap) : Option ℕ × Captures :=
  (some (captures lamSym).length, Function.update captures lamSym (captures lamSym ++ [cap]))

/-- The index of the capture of an object. -/
def findCapture (node : ℕ) (caps : List ClosureCap) : Option ℕ :=
  caps.findIdx? fun cap ↦ cap.object == node

def isNamespace : List Scope → Bool
  | scope :: _ => scope.type == .ns
  | [] => false

/-- `lambdaCapture` for an object found in `scope`, from the scope given last: the capture index of
the identifier, `none` when the object is not captured. The outer `none` is `UNREACHABLE`. -/
def lambdaCapture (node : ℕ) (type : Ty) (scope : List Scope) :
    List Scope → Captures → Option (Option ℕ × Captures)
  | [], captures => some (none, captures)
  | closureScope :: parents, captures =>
      if isNamespace scope then some (none, captures)
      else if closureScope.type ≠ .closure then lambdaCapture node type scope parents captures
      else if (findNearest .closure scope).map Scope.symbol = some closureScope.symbol then
        some (none, captures)
      else match findCapture node (captures closureScope.symbol) with
        | some c => some (some c, captures)
        | none =>
          match findNearest .closure parents with
          | none => some (pushCapture captures closureScope.symbol ⟨type, node, none⟩)
          | some parentClosure => do
            let (captured, captures) ← lambdaCapture node type scope parents captures
            if captured.isSome then
              let c ← findCapture node (captures parentClosure.symbol)
              return pushCapture captures closureScope.symbol ⟨type, node, some c⟩
            else
              return pushCapture captures closureScope.symbol ⟨type, node, none⟩

/-! ## The symbol table as a machine -/

/-- What the code of a scope belongs to. -/
inductive Owner where
  | global
  | func (symbol : ℕ)
  | lambda (symbol : ℕ)
  deriving DecidableEq, Repr

/-- The nearest namespace, function or closure. -/
def owner : List Scope → Owner
  | [] => .global
  | scope :: parents =>
      match scope.type with
      | .ns => .global
      | .func => .func scope.symbol
      | .closure => .lambda scope.symbol
      | .block | .flow => owner parents

/-- An identifier that refers to an object, as `lookupIdent` leaves it. -/
structure Ident where
  definition : ℕ
  captureIndex : Option ℕ
  owner : Owner

structure State where
  cur : List Scope
  captures : Captures
  idents : List Ident
  /-- What encloses a lambda (`symbol->scope->parent`). -/
  outer : ℕ → Owner
  /-- What an object is a local or parameter of (`symbol->scope`). -/
  home : ℕ → Owner
  fresh : ℕ

/-- The global scope of a module, inside the scope of the builtin symbols. -/
def State.init (builtins : List (String × Symbol)) : State where
  cur := [{ type := .ns }, { type := .ns, table := builtins }]
  captures _ := []
  idents := []
  outer _ := .global
  home _ := .global
  fresh := 0

/-- The calls made on the symbol table. -/
inductive Event where
  | enterScope (type : ScopeType)
  | enterFunc (params : List (String × Ty))
  | enterLambda (params : List (String × Ty))
  | leaveScope
  | insertObject (name : String) (type : Ty)
  | insert (name : String) (symbol : Symbol)
  | lookupIdent (name : String)

/-- The parameter objects of a function or lambda, the first of them numbered `node`. -/
def makeParams (node : ℕ) : List (String × Ty) → List (String × Symbol)
  | [] => []
  | (name, type) :: params => (name, .object node type) :: makeParams (node + 1) params

/-- Insert a symbol into the current scope. -/
def insert (name : String) (symbol : Symbol) : List Scope → List Scope
  | [] => []
  | scope :: parents => { scope with table := (name, symbol) :: scope.table } :: parents

/-- Enter the scope of a function or lambda; its parameters are numbered after its symbol. -/
def State.enter (s : State) (type : ScopeType) (params : List (String × Ty)) : State :=
  let scope : Scope := { type, symbol := s.fresh, table := makeParams (s.fresh + 1) params }
  { s with
    cur := scope :: s.cur
    home := fun n ↦ if s.fresh < n ∧ n ≤ s.fresh + params.length then owner (scope :: s.cur) else s.home n
    fresh := s.fresh + 1 + params.length }

/-- One call on the symbol table; `none` is a fatal error, or a call the traversal never makes. -/
def step (s : State) : Event → Option State
  | .enterScope type =>
      if (type = .block ∨ type = .flow) ∧ owner s.cur ≠ .global then
        some { s with cur := { type } :: s.cur }
      else none
  | .enterFunc params => if isNamespace s.cur then some (s.enter .func params) else none
  | .enterLambda params =>
      let s := { s with cur := insert "$lambda" .lambda s.cur }
      some { s.enter .closure params with outer := Function.update s.outer s.fresh (owner s.cur) }
  | .leaveScope => if isNamespace s.cur then none else some { s with cur := s.cur.tail }
  | .insertObject name type =>
      if (s.cur.head?.bind (find · name)).isSome then none
      else some { s with
        cur := insert name (.object s.fresh type) s.cur
        home := Function.update s.home s.fresh (owner s.cur)
        fresh := s.fresh + 1 }
  | .insert name symbol =>
      match symbol with
      | .object _ _ => none
      | symbol => some { s with cur := insert name symbol s.cur }
  | .lookupIdent name =>
      match findScope name s.cur with
      | some (.object node type, scope) => do
          let (captureIndex, captures) ← lambdaCapture node type scope s.cur s.captures
          return { s with captures, idents := ⟨node, captureIndex, owner s.cur⟩ :: s.idents }
      | some (.func, _) | some (.btnFunc, _) => some s
      | _ => none

/-- The states that the analysis of some program reaches. -/
def Reachable (s : State) : Prop :=
  ∃ builtins events, (∀ name node type, (name, Symbol.object node type) ∉ builtins) ∧
    Library.Machine.run step (State.init builtins) events = some s

end Stela.Semantic.Scopes
