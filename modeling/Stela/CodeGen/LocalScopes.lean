import Stela.Library.Lifetimes
import Stela.Semantic.NameResolution

/-!
# The scopes of the statement generator

How `generate stat.cpp` destroys objects, for expressions of any kind. The code of a statement is a statement
again: its expressions are replaced by what happens there, and so are the statements that only destroy something.
An object is identified by the position of the statement that declares it, the value of a switch by that of the
switch. Temporaries are left out; they are all that the scope of a full expression, of the value of a switch or of
a comparison holds.
-/

namespace Stela.CodeGen.LocalScopes

open Stela.Syntax Stela.Flow

inductive Action (ε : Type) where
  | eval (expr : ε)
  | start (obj : Position)
  | destroy (obj : Position)

variable {ε : Type}

abbrev Code (ε : Type) := Stat (List (Action ε))

/-- The scopes, from the innermost one outwards. -/
abbrev Scopes := List (List Position)

/-- Code that is not a statement of the source. -/
def act (actions : List (Action ε)) : Code ε :=
  .asgn (.callAssign actions)

def pushObj (obj : Position) (scopes : Scopes) : Scopes :=
  (scopes.headD [] ++ [obj]) :: scopes.tail

/-- The objects of the scopes from the given index on, in the order in which they are destroyed. -/
def objects (index : ℕ) (scopes : Scopes) : List Position :=
  (scopes.take (scopes.length - index)).flatMap List.reverse

def destroy (index : ℕ) (scopes : Scopes) : List (Action ε) :=
  (objects index scopes).map .destroy

def insertVar (expr : Option ε) (obj : Position) (scopes : Scopes) : List (Action ε) × Scopes :=
  (expr.toList.map .eval ++ [.start obj], pushObj obj scopes)

/-- The statement is at the position. A compound assignment or an increment is lowered to an assignment. -/
def visitAsgn : Asgn ε → Position → Scopes → List (Action ε) × Scopes
  | .compAssign dst _ src, _, scopes | .assign dst src, _, scopes => ([.eval dst, .eval src], scopes)
  | .incrDecr expr _, _, scopes => ([.eval expr], scopes)
  | .declAssign _ expr, pos, scopes => insertVar (some expr) pos scopes
  | .callAssign call, _, scopes => ([.eval call], scopes)

def visitOptAsgn : Option (Asgn ε) → Position → Scopes → List (Action ε) × Scopes
  | none, _, scopes => ([], scopes)
  | some asgn, pos, scopes => visitAsgn asgn pos scopes

def visitDecl : Decl ε → Position → Scopes → List (Action ε) × Scopes
  | .var _ _ expr, pos, scopes => insertVar expr pos scopes
  | .let_ _ _ expr, pos, scopes => insertVar (some expr) pos scopes
  | .typeAlias _ _ _, _, scopes => ([], scopes)

mutual

/-- The code of the statement at the position, and the scopes after it; `scopeIndex` is the field of `FlowData`. -/
def visit : Stat ε → Position → ℕ → Scopes → Code ε × Scopes
  | .block nodes, pos, scopeIndex, scopes =>
      let (codes, scopes) := visitNodes nodes pos 0 scopeIndex ([] :: scopes)
      (.block codes, scopes.tail)
  | .fi cond body none, pos, scopeIndex, scopes =>
      let (bodyCode, scopes) := visit body (0 :: pos) scopeIndex scopes
      (.fi [.eval cond] bodyCode none, scopes)
  | .fi cond body (some elseBody), pos, scopeIndex, scopes =>
      let (bodyCode, scopes) := visit body (0 :: pos) scopeIndex scopes
      let (elseCode, scopes) := visit elseBody (1 :: pos) scopeIndex scopes
      (.fi [.eval cond] bodyCode (some elseCode), scopes)
  | .swich expr cases alwaysReturns, pos, _, scopes =>
      let exprScopes := [] :: scopes
      let (codes, exprScopes) := visitCases cases pos 0 exprScopes.length exprScopes
      -- the value is constructed here, but it is not registered
      (.swich [.eval expr, .start pos] codes alwaysReturns, exprScopes.tail)
  | .terminate, _, _, scopes => (act (destroy (scopes.length - 1) scopes), scopes)
  | .brake, _, scopeIndex, scopes => (.block [act (destroy scopeIndex scopes), .brake], scopes)
  | .continu, _, scopeIndex, scopes => (.block [act (destroy scopeIndex scopes), .continu], scopes)
  | .ret expr, _, _, scopes => (.ret (some (expr.toList.map .eval ++ destroy 0 scopes)), scopes)
  | .wile cond body, pos, _, scopes =>
      let (bodyCode, bodyScopes) := visit body (0 :: pos) scopes.length ([] :: scopes)
      (.wile [.eval cond] bodyCode, bodyScopes.tail)
  | .four init cond incr body, pos, _, scopes =>
      let (initCode, outerScopes) := visitOptAsgn init (0 :: pos) ([] :: scopes)
      let (bodyCode, innerScopes) := visit body (2 :: pos) outerScopes.length ([] :: outerScopes)
      let (incrCode, outerScopes) := visitOptAsgn incr (1 :: pos) innerScopes.tail
      (.block [act initCode, .four none [.eval cond] (some (.callAssign incrCode)) bodyCode,
        act (destroy scopes.length outerScopes)], outerScopes.tail)
  | .decl decl, pos, _, scopes =>
      let (code, scopes) := visitDecl decl pos scopes
      (act code, scopes)
  | .asgn asgn, pos, _, scopes =>
      let (code, scopes) := visitAsgn asgn pos scopes
      (act code, scopes)

def visitNodes : List (Stat ε) → Position → ℕ → ℕ → Scopes → List (Code ε) × Scopes
  | [], _, _, _, scopes => ([], scopes)
  | node :: nodes, pos, i, scopeIndex, scopes =>
      let (code, scopes) := visit node (i :: pos) scopeIndex scopes
      let (codes, scopes) := visitNodes nodes pos (i + 1) scopeIndex scopes
      (code :: codes, scopes)

def visitCases : List (SwitchCase ε) → Position → ℕ → ℕ → Scopes → List (SwitchCase (List (Action ε))) × Scopes
  | [], _, _, _, scopes => ([], scopes)
  | .mk expr body :: cases, pos, i, scope, scopes =>
      let (code, bodyScopes) := visit body (i :: pos) scope ([] :: scopes)
      let (codes, scopes) := visitCases cases pos (i + 1) scope bodyScopes.tail
      (.mk (expr.map fun expr ↦ [.eval expr]) code :: codes, scopes)

end

/-- The code of a body. Parameters are destroyed by the caller. -/
def generateStat (body : List (Stat ε)) : List (Code ε) :=
  (visitNodes body [] 0 0 [[]]).1

/-! ## What happens along a path -/

/-- The actions of a path through the code. -/
def actions : List (Event (List (Action ε))) → List (Action ε)
  | [] => []
  | .eval actions' :: t => actions' ++ actions t
  | .declare _ :: t => actions t

open Semantic.NameResolution Library

abbrev Use := Semantic.NameResolution.Use

/-- The locals of the body itself that are used and that have destructors. -/
def usedLocals (dtor : Position → Bool) (uses : List Use) : List Position :=
  uses.filterMap fun
    | (0, .stat pos) => if dtor pos then some pos else none
    | _ => none

/-- What happens to the objects that have destructors, which `dtor` tells. -/
def steps (dtor : Position → Bool) : List (Action (List Use)) → List (Lifetimes.Step Position)
  | [] => []
  | .eval uses :: actions => .use (usedLocals dtor uses) :: steps dtor actions
  | .start obj :: actions => if dtor obj then .start obj :: steps dtor actions else steps dtor actions
  | .destroy obj :: actions => if dtor obj then .destroy obj :: steps dtor actions else steps dtor actions

/-- On every path through the body, cut anywhere, every object with a destructor is constructed while it does not live,
used while it does, and destroyed while it is the last one that was constructed and lives. None lives at the end of a
path that is not cut, so each has been destroyed as often as it was constructed. -/
def LifetimesSound (dtor : Position → Bool) (body : Body) : Prop :=
  ∀ t o, RunsNodes [] 0 (generateStat body) t o →
    ∃ live, Lifetimes.run (steps dtor (actions t)) [] = some live ∧ (o ≠ none → live = [])

end Stela.CodeGen.LocalScopes
