import Stela.Flow.Traces
import Stela.Semantic.CompareTypes
import Stela.Semantic.Scopes

/-!
# Name resolution in bodies

What `traverse.cpp` and `lookupIdent` do with the names in the body of a function, without types. The
visitor fills the table of the current scope as it goes, so what a name refers to depends on the order in
which the parts of a statement are visited. Resolved bodies have, in place of each expression, the uses it
makes of locals and parameters; those of a lambda it creates are its captures. Checks that do not concern
names (types, shadowing, `break` outside of loops, a second default case) are left out.
-/

namespace Stela.Semantic.NameResolution

open Stela.Syntax Stela.Flow

/-- An expression, by the identifiers and lambdas in it, in the order in which they are visited. -/
inductive Expr where
  | ident (name : String)
  | node (exprs : List Expr)
  | lambda (params : List String) (body : List (Stat Expr))

/-- What declares an object. -/
inductive Site where
  | param (index : ℕ)
  | stat (pos : Position)
  deriving DecidableEq, Repr

/-- The symbols in a table: locals and parameters, and everything else. -/
inductive Entry where
  | object (site : Site)
  | other
  deriving DecidableEq, Repr

structure Scope where
  type : Scopes.ScopeType
  table : List (String × Entry) := []

/-- A use of an object: how many lambdas lie between the use and what declares it, and where in the body of
that function or lambda it is declared. -/
abbrev Use := ℕ × Site

/-- A body whose names are resolved. -/
abbrev Body := List (Stat (List Use))

/-! ## The symbol table -/

/-- `findScope`, with the number of lambdas that are left on the way. -/
def findScope (name : String) : List Scope → Option (ℕ × Entry)
  | [] => none
  | scope :: parents =>
      match scope.table.lookup name with
      | some entry => some (0, entry)
      | none =>
          (findScope name parents).map fun found ↦ (if scope.type = .closure then found.1 + 1 else found.1, found.2)

/-- `insert` into the current scope. -/
def insert (name : String) (entry : Entry) : List Scope → Check (List Scope)
  | [] => throw .assertion
  | scope :: parents => do
      require (scope.table.lookup name).isNone s!"Redefinition of symbol \"{name}\""
      return { scope with table := (name, entry) :: scope.table } :: parents

def lookupIdent (name : String) (scopes : List Scope) : Check (List Use) :=
  match findScope name scopes with
  | none => fatal s!"Use of undefined symbol \"{name}\""
  | some (depth, .object site) => return [(depth, site)]
  | some (_, .other) => return []

/-- The table of a function or lambda when its body is entered. -/
def paramEntries (params : List String) : List (String × Entry) :=
  params.zipIdx.map fun (name, index) ↦ (name, .object (.param index))

/-! ## Expressions of statements -/

section StatExprs

variable {ε : Type}

def asgnExprs : Asgn ε → List ε
  | .compAssign dst _ src | .assign dst src => [dst, src]
  | .incrDecr expr _ | .declAssign _ expr | .callAssign expr => [expr]

def optAsgnExprs : Option (Asgn ε) → List ε
  | none => []
  | some asgn => asgnExprs asgn

def declExprs : Decl ε → List ε
  | .var _ _ none | .typeAlias _ _ _ => []
  | .var _ _ (some expr) | .let_ _ _ expr => [expr]

mutual

def statExprs : Stat ε → List ε
  | .block nodes => nodesExprs nodes
  | .fi cond body none => cond :: statExprs body
  | .fi cond body (some elseBody) => cond :: (statExprs body ++ statExprs elseBody)
  | .swich expr cases _ => expr :: casesExprs cases
  | .terminate | .brake | .continu => []
  | .ret expr => expr.toList
  | .wile cond body => cond :: statExprs body
  | .four init cond incr body => optAsgnExprs init ++ cond :: (optAsgnExprs incr ++ statExprs body)
  | .decl decl => declExprs decl
  | .asgn asgn => asgnExprs asgn

def nodesExprs : List (Stat ε) → List ε
  | [] => []
  | node :: nodes => statExprs node ++ nodesExprs nodes

def casesExprs : List (SwitchCase ε) → List ε
  | [] => []
  | .mk expr body :: cases => expr.toList ++ (statExprs body ++ casesExprs cases)

end

end StatExprs

/-- The uses that a lambda makes of what is declared outside. -/
def captures (nodes : Body) : List Use :=
  (nodesExprs nodes).flatten.filterMap fun use ↦ if use.1 = 0 then none else some (use.1 - 1, use.2)

/-! ## The visitor -/

mutual

/-- The uses that an expression makes, and the bodies of the lambdas in it. -/
def visitExpr : Expr → List Scope → Check (List Use × List Body)
  | .ident name, scopes => do
      let uses ← lookupIdent name scopes
      return (uses, [])
  | .node exprs, scopes => visitExprs exprs scopes
  | .lambda params body, scopes => do
      let (nodes, bodies) ← visitNodes body [] 0 (⟨.closure, paramEntries params⟩ :: scopes)
      return (captures nodes, nodes :: bodies)

def visitExprs : List Expr → List Scope → Check (List Use × List Body)
  | [], _ => return ([], [])
  | expr :: exprs, scopes => do
      let (uses, bodies) ← visitExpr expr scopes
      let (uses', bodies') ← visitExprs exprs scopes
      return (uses ++ uses', bodies ++ bodies')

def visitOptExpr : Option Expr → List Scope → Check (Option (List Use) × List Body)
  | none, _ => return (none, [])
  | some expr, scopes => do
      let (uses, bodies) ← visitExpr expr scopes
      return (some uses, bodies)

/-- An assignment at the position, and the scopes after it. -/
def visitAsgn : Asgn Expr → Position → List Scope → Check (Asgn (List Use) × List Body × List Scope)
  | .compAssign dst oper src, _, scopes => do
      let (dst, bodies) ← visitExpr dst scopes
      let (src, bodies') ← visitExpr src scopes
      return (.compAssign dst oper src, bodies ++ bodies', scopes)
  | .incrDecr expr incr, _, scopes => do
      let (expr, bodies) ← visitExpr expr scopes
      return (.incrDecr expr incr, bodies, scopes)
  | .assign dst src, _, scopes => do
      let (dst, bodies) ← visitExpr dst scopes
      let (src, bodies') ← visitExpr src scopes
      return (.assign dst src, bodies ++ bodies', scopes)
  | .declAssign name expr, pos, scopes => do
      let (expr, bodies) ← visitExpr expr scopes
      let scopes ← insert name (.object (.stat pos)) scopes
      return (.declAssign name expr, bodies, scopes)
  | .callAssign call, _, scopes => do
      let (call, bodies) ← visitExpr call scopes
      return (.callAssign call, bodies, scopes)

def visitOptAsgn : Option (Asgn Expr) → Position → List Scope →
    Check (Option (Asgn (List Use)) × List Body × List Scope)
  | none, _, scopes => return (none, [], scopes)
  | some asgn, pos, scopes => do
      let (asgn, bodies, scopes) ← visitAsgn asgn pos scopes
      return (some asgn, bodies, scopes)

def visitDecl : Decl Expr → Position → List Scope → Check (Decl (List Use) × List Body × List Scope)
  | .var name type expr, pos, scopes => do
      let (expr, bodies) ← visitOptExpr expr scopes
      let scopes ← insert name (.object (.stat pos)) scopes
      return (.var name type expr, bodies, scopes)
  | .let_ name type expr, pos, scopes => do
      let (expr, bodies) ← visitExpr expr scopes
      let scopes ← insert name (.object (.stat pos)) scopes
      return (.let_ name type expr, bodies, scopes)
  | .typeAlias name type strong, _, scopes => do
      let scopes ← insert name .other scopes
      return (.typeAlias name type strong, [], scopes)

/-- A statement at the position, and the scopes after it. -/
def visit : Stat Expr → Position → List Scope → Check (Stat (List Use) × List Body × List Scope)
  | .block nodes, pos, scopes => do
      let (nodes, bodies) ← visitNodes nodes pos 0 (⟨.block, []⟩ :: scopes)
      return (.block nodes, bodies, scopes)
  | .fi cond body none, pos, scopes => do
      let inner : List Scope := ⟨.block, []⟩ :: scopes
      let (cond, bodies) ← visitExpr cond inner
      let (body, bodies', _) ← visit body (0 :: pos) inner
      return (.fi cond body none, bodies ++ bodies', scopes)
  | .fi cond body (some elseBody), pos, scopes => do
      let inner : List Scope := ⟨.block, []⟩ :: scopes
      let (cond, bodies) ← visitExpr cond inner
      let (body, bodies', inner) ← visit body (0 :: pos) inner
      -- the scope is the one that the first branch was visited in
      let (elseBody, bodies'', _) ← visit elseBody (1 :: pos) inner
      return (.fi cond body (some elseBody), bodies ++ (bodies' ++ bodies''), scopes)
  | .swich expr cases alwaysReturns, pos, scopes => do
      let (expr, bodies) ← visitExpr expr scopes
      let (cases, bodies') ← visitCases cases pos 0 scopes
      return (.swich expr cases alwaysReturns, bodies ++ bodies', scopes)
  | .terminate, _, scopes => return (.terminate, [], scopes)
  | .brake, _, scopes => return (.brake, [], scopes)
  | .continu, _, scopes => return (.continu, [], scopes)
  | .ret expr, _, scopes => do
      let (expr, bodies) ← visitOptExpr expr scopes
      return (.ret expr, bodies, scopes)
  | .wile cond body, pos, scopes => do
      let inner : List Scope := ⟨.flow, []⟩ :: scopes
      let (cond, bodies) ← visitExpr cond inner
      let (body, bodies', _) ← visit body (0 :: pos) inner
      return (.wile cond body, bodies ++ bodies', scopes)
  | .four init cond incr body, pos, scopes => do
      let (init, bodies, inner) ← visitOptAsgn init (0 :: pos) (⟨.flow, []⟩ :: scopes)
      let (cond, bodies') ← visitExpr cond inner
      -- the increment is visited before the body
      let (incr, bodies'', inner) ← visitOptAsgn incr (1 :: pos) inner
      let (body, bodies''', _) ← visit body (2 :: pos) inner
      return (.four init cond incr body, bodies ++ (bodies' ++ (bodies'' ++ bodies''')), scopes)
  | .decl decl, pos, scopes => do
      let (decl, bodies, scopes) ← visitDecl decl pos scopes
      return (.decl decl, bodies, scopes)
  | .asgn asgn, pos, scopes => do
      let (asgn, bodies, scopes) ← visitAsgn asgn pos scopes
      return (.asgn asgn, bodies, scopes)

/-- The statements of a block, all visited in its scope. -/
def visitNodes : List (Stat Expr) → Position → ℕ → List Scope → Check (Body × List Body)
  | [], _, _, _ => return ([], [])
  | node :: nodes, pos, i, scopes => do
      let (node, bodies, scopes) ← visit node (i :: pos) scopes
      let (nodes, bodies') ← visitNodes nodes pos (i + 1) scopes
      return (node :: nodes, bodies ++ bodies')

def visitCases : List (SwitchCase Expr) → Position → ℕ → List Scope → Check (List (SwitchCase (List Use)) × List Body)
  | [], _, _, _ => return ([], [])
  | .mk expr body :: cases, pos, i, scopes => do
      let (expr, bodies) ← visitOptExpr expr scopes
      let (body, bodies', _) ← visit body (i :: pos) (⟨.flow, []⟩ :: scopes)
      let (cases, bodies'') ← visitCases cases pos (i + 1) scopes
      return (.mk expr body :: cases, bodies ++ (bodies' ++ bodies''))

end

/-- The body of a function, in a module whose global names are given, with the bodies of its lambdas. -/
def visitFunc (globals params : List String) (body : List (Stat Expr)) : Check (List Body) := do
  let (nodes, bodies) ← visitNodes body [] 0
    [⟨.func, paramEntries params⟩, ⟨.ns, globals.map fun name ↦ (name, .other)⟩]
  return nodes :: bodies

end Stela.Semantic.NameResolution
