import Stela.CodeGen.LocalScopes
import Stela.Semantic.DefiniteInit
import Stela.Semantic.ReturnReading

/-!
# Where locals with destructors may be used

A local is registered in the scope of its block exactly if the statement that declares it stands in a block, or is
the initialisation of a `for`. Then names are found where the locals are registered, and a block that control may
leave at its end destroys them there if the missing-return check is not misled about the block.
-/

namespace Stela.CodeGen.LocalScopes

open Stela.Syntax Stela.Flow
open Stela.Library.Except (bind_eq_ok ite_error_eq_ok)
open Stela.Semantic
open Stela.Semantic.NameResolution hiding visit visitNodes visitCases visitAsgn visitOptAsgn visitDecl
open Stela.Semantic.DefiniteInit hiding clean cleanNodes cleanCases

section Conditions

variable {ε : Type} (dtor : Position → Bool)

/-- The local with a destructor that a statement at the position declares. -/
def own (decl : Option (String × Bool)) (pos : Position) : List Position :=
  if decl.any Prod.snd && dtor pos then [pos] else []

/-- The locals with destructors that a statement registers in the scope that it stands in, the last one first. A branch
of an `if` has no scope of its own. -/
def registered : Stat ε → Position → List Position
  | .decl decl, pos => own dtor (declDeclares decl) pos
  | .asgn asgn, pos => own dtor (asgnDeclares asgn) pos
  | .fi _ body none, pos => registered body (0 :: pos)
  | .fi _ body (some elseBody), pos => registered elseBody (1 :: pos) ++ registered body (0 :: pos)
  | _, _ => []

def registeredNodes : List (Stat ε) → Position → ℕ → List Position
  | [], _, _ => []
  | node :: nodes, pos, i => registeredNodes nodes pos (i + 1) ++ registered dtor node (i :: pos)

open CheckMissingReturn (State)
open ReturnReading (reads slipsNodes)

mutual

/-- Of the statements that paths come to: the branch of an `if`, the body of a loop or of a case, and the increment of
a `for` register no local with a destructor, unless it is a second branch and no path gets to the end of the first one;
no value of a switch has a destructor; and a block that registers a local with one does not slip where it reads as left
on every path. `state` is the reading of the text before the statement. -/
def clean : Stat ε → Position → State → Bool
  | .block nodes, pos, state =>
      ((registeredNodes dtor nodes pos 0).isEmpty || ((reads (.block nodes) state).occurs != .yes || !slipsNodes nodes)) &&
        cleanNodes nodes pos 0 { state with occurs := .no }
  | .fi _ body none, pos, state => (registered dtor body (0 :: pos)).isEmpty && clean body (0 :: pos) state
  | .fi _ body (some elseBody), pos, state =>
      ((registered dtor body (0 :: pos)).isEmpty && clean body (0 :: pos) state) &&
        (((registered dtor elseBody (1 :: pos)).isEmpty || !may body .falls) && clean elseBody (1 :: pos) (reads body state))
  | .swich _ cases _, pos, state => !dtor pos && cleanCases cases pos 0 state
  | .wile _ body, pos, state => (registered dtor body (0 :: pos)).isEmpty && clean body (0 :: pos) state
  | .four _ _ incr body, pos, state =>
      (own dtor (optAsgnDeclares incr) (1 :: pos)).isEmpty &&
        ((registered dtor body (2 :: pos)).isEmpty && clean body (2 :: pos) state)
  | .terminate, _, _ | .brake, _, _ | .continu, _, _ | .ret _, _, _ | .decl _, _, _ | .asgn _, _, _ => true

def cleanNodes : List (Stat ε) → Position → ℕ → State → Bool
  | [], _, _, _ => true
  | node :: nodes, pos, i, state =>
      clean node (i :: pos) state && (!may node .falls || cleanNodes nodes pos (i + 1) (reads node state))

def cleanCases : List (SwitchCase ε) → Position → ℕ → State → Bool
  | [], _, _, _ => true
  | .mk _ body :: cases, pos, i, state =>
      ((registered dtor body (i :: pos)).isEmpty && clean body (i :: pos) state) && cleanCases cases pos (i + 1) (reads body state)

end

/-- The last statement is a `Terminate`. -/
def terminated : List (Stat ε) → Bool
  | [] => false
  | [.terminate] => true
  | _ :: nodes => terminated nodes

mutual

/-- The same after the check of missing returns: a block that registers a local with a destructor ends with a
`Terminate` if control may get to its end. -/
def closed : Stat ε → Position → Bool
  | .block nodes, pos =>
      (terminated nodes || ((registeredNodes dtor nodes pos 0).isEmpty || !mayNodes nodes .falls)) && closedNodes nodes pos 0
  | .fi _ body none, pos => (registered dtor body (0 :: pos)).isEmpty && closed body (0 :: pos)
  | .fi _ body (some elseBody), pos =>
      ((registered dtor body (0 :: pos)).isEmpty && closed body (0 :: pos)) &&
        (((registered dtor elseBody (1 :: pos)).isEmpty || !may body .falls) && closed elseBody (1 :: pos))
  | .swich _ cases _, pos => !dtor pos && closedCases cases pos 0
  | .wile _ body, pos => (registered dtor body (0 :: pos)).isEmpty && closed body (0 :: pos)
  | .four _ _ incr body, pos =>
      (own dtor (optAsgnDeclares incr) (1 :: pos)).isEmpty && ((registered dtor body (2 :: pos)).isEmpty && closed body (2 :: pos))
  | .terminate, _ | .brake, _ | .continu, _ | .ret _, _ | .decl _, _ | .asgn _, _ => true

def closedNodes : List (Stat ε) → Position → ℕ → Bool
  | [], _, _ => true
  | node :: nodes, pos, i => closed node (i :: pos) && (!may node .falls || closedNodes nodes pos (i + 1))

def closedCases : List (SwitchCase ε) → Position → ℕ → Bool
  | [], _, _ => true
  | .mk _ body :: cases, pos, i =>
      ((registered dtor body (i :: pos)).isEmpty && closed body (i :: pos)) && closedCases cases pos (i + 1)

end

mutual

/-- There is no `Terminate` in the statement, as none is parsed. -/
def parsed : Stat ε → Bool
  | .block nodes => parsedNodes nodes
  | .fi _ body none => parsed body
  | .fi _ body (some elseBody) => parsed body && parsed elseBody
  | .swich _ cases _ => parsedCases cases
  | .wile _ body | .four _ _ _ body => parsed body
  | .terminate => false
  | .brake | .continu | .ret _ | .decl _ | .asgn _ => true

def parsedNodes : List (Stat ε) → Bool
  | [] => true
  | node :: nodes => parsed node && parsedNodes nodes

def parsedCases : List (SwitchCase ε) → Bool
  | [] => true
  | .mk _ body :: cases => parsed body && parsedCases cases

end

mutual

/-- There is a `Terminate` at the ends of blocks only. -/
def shaped : Stat ε → Bool
  | .block nodes => shapedNodes nodes
  | .fi _ body none => shaped body
  | .fi _ body (some elseBody) => shaped body && shaped elseBody
  | .swich _ cases _ => shapedCases cases
  | .wile _ body | .four _ _ _ body => shaped body
  | .terminate => false
  | .brake | .continu | .ret _ | .decl _ | .asgn _ => true

def shapedNodes : List (Stat ε) → Bool
  | [] => true
  | [.terminate] => true
  | node :: nodes => shaped node && shapedNodes nodes

def shapedCases : List (SwitchCase ε) → Bool
  | [] => true
  | .mk _ body :: cases => shaped body && shapedCases cases

end

/-- The uses are those of listed locals. -/
def Covers (visible : List Position) (uses : List Use) : Prop :=
  usedLocals dtor uses ⊆ visible

mutual

/-- Every expression uses only locals with destructors that are declared before it in a block around it, unless the
first branch of an `if` or the increment of a `for` declares one. -/
def Scoped : Stat (List Use) → Position → List Position → Prop
  | .block nodes, pos, visible => ScopedNodes nodes pos 0 visible
  | .fi cond body none, pos, visible => Covers dtor visible cond ∧ Scoped body (0 :: pos) visible
  | .fi cond body (some elseBody), pos, visible =>
      Covers dtor visible cond ∧ Scoped body (0 :: pos) visible ∧
        ((registered dtor body (0 :: pos)).isEmpty = true → Scoped elseBody (1 :: pos) visible)
  | .swich expr cases _, pos, visible => Covers dtor visible expr ∧ ScopedCases cases pos 0 visible
  | .terminate, _, _ | .brake, _, _ | .continu, _, _ => True
  | .ret expr, _, visible => ∀ uses ∈ expr.toList, Covers dtor visible uses
  | .wile cond body, pos, visible => Covers dtor visible cond ∧ Scoped body (0 :: pos) visible
  | .four init cond incr body, pos, visible =>
      (∀ uses ∈ optAsgnExprs init, Covers dtor visible uses) ∧
        Covers dtor (own dtor (optAsgnDeclares init) (0 :: pos) ++ visible) cond ∧
        (∀ uses ∈ optAsgnExprs incr, Covers dtor (own dtor (optAsgnDeclares init) (0 :: pos) ++ visible) uses) ∧
        ((own dtor (optAsgnDeclares incr) (1 :: pos)).isEmpty = true →
          Scoped body (2 :: pos) (own dtor (optAsgnDeclares init) (0 :: pos) ++ visible))
  | .decl decl, _, visible => ∀ uses ∈ declExprs decl, Covers dtor visible uses
  | .asgn asgn, _, visible => ∀ uses ∈ asgnExprs asgn, Covers dtor visible uses

def ScopedNodes : List (Stat (List Use)) → Position → ℕ → List Position → Prop
  | [], _, _, _ => True
  | node :: nodes, pos, i, visible =>
      Scoped node (i :: pos) visible ∧ ScopedNodes nodes pos (i + 1) (own dtor (declares node) (i :: pos) ++ visible)

def ScopedCases : List (SwitchCase (List Use)) → Position → ℕ → List Position → Prop
  | [], _, _, _ => True
  | .mk expr body :: cases, pos, i, visible =>
      (∀ uses ∈ expr.toList, Covers dtor visible uses) ∧ Scoped body (i :: pos) visible ∧
        ScopedCases cases pos (i + 1) visible

end

end Conditions

/-! ## Names are found where locals are registered -/

/-- Each use is one of an object that a name refers to. -/
def Found (scopes : List Scope) (uses : List Use) : Prop :=
  ∀ use ∈ uses, ∃ name, findScope name scopes = some (use.1, .object use.2)

/-- The same for the uses of what is declared outside of the body. -/
def FoundOutside (scopes : List Scope) (uses : List Use) : Prop :=
  ∀ depth site, (depth + 1, site) ∈ uses → ∃ name, findScope name scopes = some (depth + 1, .object site)

/-- What a statement declares is registered. -/
theorem own_declares_subset {ε : Type} {dtor : Position → Bool} {s : Stat ε} {pos : Position} :
    own dtor (declares s) pos ⊆ registered dtor s pos := by
  cases s with
  | decl decl => exact List.Subset.refl _
  | asgn asgn => exact List.Subset.refl _
  | _ => exact List.nil_subset _

theorem own_isEmpty {ε : Type} {dtor : Position → Bool} {s : Stat ε} {pos : Position}
    (h : (registered dtor s pos).isEmpty = true) : (own dtor (declares s) pos).isEmpty = true := by
  have hsubset : own dtor (declares s) pos ⊆ registered dtor s pos := own_declares_subset
  rw [List.isEmpty_iff.mp h] at hsubset
  exact List.isEmpty_iff.mpr (List.subset_nil.mp hsubset)

/-- The locals with destructors that names refer to are listed. -/
def Visible (dtor : Position → Bool) (visible : List Position) (scopes : List Scope) : Prop :=
  ∀ name pos, findScope name scopes = some (0, .object (.stat pos)) → dtor pos = true → pos ∈ visible

/-- A body is scoped, whatever locals have destructors. -/
def BodyScoped (nodes : Body) : Prop :=
  ∀ dtor, ScopedNodes dtor nodes [] 0 []

theorem mem_usedLocals {dtor : Position → Bool} {uses : List Use} {pos : Position} :
    pos ∈ usedLocals dtor uses ↔ (0, .stat pos) ∈ uses ∧ dtor pos = true := by
  rw [usedLocals, List.mem_filterMap]
  constructor
  · rintro ⟨use, huse, heq⟩
    split at heq
    · split at heq
      · next hdtor =>
        cases heq
        exact ⟨huse, hdtor⟩
      · cases heq
    · cases heq
  · rintro ⟨huse, hdtor⟩
    exact ⟨_, huse, if_pos hdtor⟩

theorem Found.covers {dtor : Position → Bool} {visible : List Position} {scopes : List Scope} {uses : List Use}
    (h : Found scopes uses) (hvisible : Visible dtor visible scopes) : Covers dtor visible uses := by
  intro pos hpos
  obtain ⟨huse, hdtor⟩ := mem_usedLocals.mp hpos
  obtain ⟨name, hfind⟩ := h _ huse
  exact hvisible name pos hfind hdtor

theorem Covers.mono {dtor : Position → Bool} {visible live : List Position} {uses : List Use} (h : Covers dtor visible uses)
    (hlive : visible ⊆ live) : Covers dtor live uses :=
  List.Subset.trans h hlive

theorem Visible.adds {dtor : Position → Bool} {visible : List Position} {scopes scopes' : List Scope}
    {decl : Option (String × Bool)} {pos : Position} (h : Visible dtor visible scopes) (hadds : Adds decl pos scopes scopes') :
    Visible dtor (own dtor decl pos ++ visible) scopes' := by
  intro name pos' hfind hdtor
  rcases hadds name with ⟨object, hobject, hnew⟩ | ⟨-, hold⟩
  · rw [hnew] at hfind
    cases object with
    | false => cases hfind
    | true =>
      cases hfind
      rw [own, hobject, Option.any_some, hdtor]
      exact List.mem_append_left _ (List.mem_singleton_self _)
  · exact List.mem_append_right _ (h name pos' (hold ▸ hfind) hdtor)

theorem FoundOutside.adds {scopes scopes' : List Scope} {decl : Option (String × Bool)} {pos : Position} {uses : List Use}
    (h : FoundOutside scopes' uses) (hadds : Adds decl pos scopes scopes') : FoundOutside scopes uses := by
  intro depth site huse
  obtain ⟨name, hfind⟩ := h depth site huse
  rcases hadds name with ⟨object, -, hnew⟩ | ⟨-, hold⟩
  · rw [hnew] at hfind
    cases hfind
  · exact ⟨name, hold ▸ hfind⟩

theorem Visible.inner {dtor : Position → Bool} {visible : List Position} {scopes : List Scope} {type : Scopes.ScopeType}
    (h : Visible dtor visible scopes) (htype : type ≠ .closure) : Visible dtor visible (⟨type, []⟩ :: scopes) := by
  simpa only [Visible, findScope_block _ _ htype] using h

theorem FoundOutside.inner {scopes : List Scope} {type : Scopes.ScopeType} {uses : List Use}
    (h : FoundOutside (⟨type, []⟩ :: scopes) uses) (htype : type ≠ .closure) : FoundOutside scopes uses := by
  simpa only [FoundOutside, findScope_block _ _ htype] using h

/-- What the visit of an expression, or of the expressions of an assignment or declaration, has established. -/
structure ExprFound (scopes : List Scope) (uses : List Use) (bodies : List Body) : Prop where
  found : Found scopes uses
  bodies : ∀ nodes ∈ bodies, BodyScoped nodes

structure StatFound (scopes : List Scope) (pos : Position) (s : Stat (List Use)) (bodies : List Body) : Prop where
  outside : FoundOutside scopes (statExprs s).flatten
  inScope : ∀ dtor visible, Visible dtor visible scopes → Scoped dtor s pos visible
  bodies : ∀ nodes ∈ bodies, BodyScoped nodes

structure NodesFound (scopes : List Scope) (pos : Position) (i : ℕ) (nodes : Body) (bodies : List Body) : Prop where
  outside : FoundOutside scopes (nodesExprs nodes).flatten
  inScope : ∀ dtor visible, Visible dtor visible scopes → ScopedNodes dtor nodes pos i visible
  bodies : ∀ nodes ∈ bodies, BodyScoped nodes

structure CasesFound (scopes : List Scope) (pos : Position) (i : ℕ) (cases : List (SwitchCase (List Use)))
    (bodies : List Body) : Prop where
  outside : FoundOutside scopes (casesExprs cases).flatten
  inScope : ∀ dtor visible, Visible dtor visible scopes → ScopedCases dtor cases pos i visible
  bodies : ∀ nodes ∈ bodies, BodyScoped nodes

section Parts

variable {scopes inner : List Scope} {pos : Position} {bodies bodies' : List Body} {uses uses' : List Use}
  {exprs : List (List Use)}

theorem Found.append (h : Found scopes uses) (h' : Found scopes uses') : Found scopes (uses ++ uses') :=
  fun use huse ↦ (List.mem_append.mp huse).elim (h use) (h' use)

theorem Found.outside (h : Found scopes uses) : FoundOutside scopes uses :=
  fun depth site huse ↦ h (depth + 1, site) huse

theorem FoundOutside.append (h : FoundOutside scopes uses) (h' : FoundOutside scopes uses') :
    FoundOutside scopes (uses ++ uses') :=
  fun depth site huse ↦ (List.mem_append.mp huse).elim (h depth site) (h' depth site)

theorem ExprFound.append (h : ExprFound scopes uses bodies) (h' : ExprFound scopes uses' bodies') :
    ExprFound scopes (uses ++ uses') (bodies ++ bodies') :=
  ⟨h.found.append h'.found, forall_mem_append h.bodies h'.bodies⟩

theorem ExprFound.nil (scopes : List Scope) : ExprFound scopes [] [] :=
  ⟨nofun, nofun⟩

/-- Each of the expressions is covered. -/
theorem Found.covers_each {dtor : Position → Bool} {visible : List Position} (h : Found scopes exprs.flatten)
    (hvisible : Visible dtor visible scopes) : ∀ uses ∈ exprs, Covers dtor visible uses := by
  intro uses huses
  have hfound : Found scopes uses := fun use huse ↦ h use (List.mem_flatten.mpr ⟨uses, huses, huse⟩)
  exact hfound.covers hvisible

theorem found_captures {params : List String} {nodes : Body}
    (h : FoundOutside (⟨.closure, paramEntries params⟩ :: scopes) (nodesExprs nodes).flatten) :
    Found scopes (captures nodes) := by
  intro use huse
  obtain ⟨⟨depth, site⟩, hmem, heq⟩ := List.mem_filterMap.mp huse
  cases depth with
  | zero => cases heq
  | succ depth =>
    cases heq
    obtain ⟨name, hfind⟩ := h depth site hmem
    exact ⟨name, (findScope_closure hfind).2⟩

/-- Nothing but parameters is found in the table of a function or lambda that is entered. -/
theorem visible_paramEntries {dtor : Position → Bool} {params : List String} {type : Semantic.Scopes.ScopeType}
    (houter : type = .closure ∨ ∀ name, ∀ pos, findScope name scopes ≠ some (0, .object (.stat pos))) :
    Visible dtor [] (⟨type, paramEntries params⟩ :: scopes) :=
  fun name pos hfind _ ↦ done_paramEntries houter name (List.mem_singleton_self name) pos hfind

theorem NodesFound.bodyScoped {nodes : Body} (h : NodesFound scopes [] 0 nodes bodies)
    (hvisible : ∀ dtor, Visible dtor [] scopes) : ∀ nodes' ∈ nodes :: bodies, BodyScoped nodes' := by
  intro nodes' hnodes'
  rcases List.mem_cons.mp hnodes' with rfl | hnodes'
  · exact fun dtor ↦ h.inScope dtor [] (hvisible dtor)
  · exact h.bodies nodes' hnodes'

/-- A branch or a body that declares nothing with a destructor. -/
theorem Visible.branch {dtor : Position → Bool} {visible : List Position} {decl : Option (String × Bool)}
    (h : Visible dtor visible scopes) (hadds : Adds decl pos scopes inner) (hown : (own dtor decl pos).isEmpty = true) :
    Visible dtor visible inner := by
  have hinner := h.adds hadds
  rwa [List.isEmpty_iff.mp hown] at hinner

end Parts

mutual

theorem visitExpr_found : (e : NameResolution.Expr) → (scopes : List Scope) → {uses : List Use} → {bodies : List Body} →
    visitExpr e scopes = .ok (uses, bodies) → ExprFound scopes uses bodies
  | .ident name, scopes, uses, bodies, h => by
    simp only [visitExpr, bind_eq_ok] at h
    obtain ⟨uses', hlookup, h⟩ := h
    cases h
    refine ⟨fun use huse ↦ ⟨name, ?_⟩, nofun⟩
    unfold lookupIdent at hlookup
    split at hlookup
    · cases hlookup
    · next hfind =>
      cases hlookup
      cases List.mem_singleton.mp huse
      exact hfind
    · cases hlookup
      cases huse
  | .node exprs, scopes, uses, bodies, h => visitExprs_found exprs scopes h
  | .lambda params body, scopes, uses, bodies, h => by
    simp only [visitExpr, bind_eq_ok] at h
    obtain ⟨⟨nodes, bodies'⟩, hnodes, h⟩ := h
    cases h
    have hfound := visitNodes_found body [] 0 _ hnodes
    exact ⟨found_captures hfound.outside, hfound.bodyScoped fun _ ↦ visible_paramEntries (.inl rfl)⟩

theorem visitExprs_found : (exprs : List NameResolution.Expr) → (scopes : List Scope) → {uses : List Use} →
    {bodies : List Body} → visitExprs exprs scopes = .ok (uses, bodies) → ExprFound scopes uses bodies
  | [], scopes, uses, bodies, h => by
    cases h
    exact .nil scopes
  | expr :: exprs, scopes, uses, bodies, h => by
    simp only [visitExprs, bind_eq_ok] at h
    obtain ⟨⟨uses', bodies'⟩, hexpr, ⟨uses'', bodies''⟩, hexprs, h⟩ := h
    cases h
    exact (visitExpr_found expr scopes hexpr).append (visitExprs_found exprs scopes hexprs)

theorem visitOptExpr_found : (expr : Option NameResolution.Expr) → (scopes : List Scope) → {uses : Option (List Use)} →
    {bodies : List Body} → visitOptExpr expr scopes = .ok (uses, bodies) → ExprFound scopes uses.toList.flatten bodies
  | none, scopes, uses, bodies, h => by
    cases h
    exact .nil scopes
  | some expr, scopes, uses, bodies, h => by
    simp only [visitOptExpr, bind_eq_ok] at h
    obtain ⟨⟨uses', bodies'⟩, hexpr, h⟩ := h
    cases h
    simpa using visitExpr_found expr scopes hexpr

theorem visitAsgn_found : (asgn : Asgn NameResolution.Expr) → (pos : Position) → (scopes : List Scope) →
    {asgn' : Asgn (List Use)} → {bodies : List Body} → {scopes' : List Scope} →
      NameResolution.visitAsgn asgn pos scopes = .ok (asgn', bodies, scopes') →
        ExprFound scopes (asgnExprs asgn').flatten bodies
  | .compAssign dst _ src, pos, scopes, asgn', bodies, scopes', h | .assign dst src, pos, scopes, asgn', bodies, scopes', h => by
    simp only [NameResolution.visitAsgn, bind_eq_ok] at h
    obtain ⟨⟨dst', bodies'⟩, hdst, ⟨src', bodies''⟩, hsrc, h⟩ := h
    cases h
    simpa [asgnExprs] using (visitExpr_found dst scopes hdst).append (visitExpr_found src scopes hsrc)
  | .incrDecr expr _, pos, scopes, asgn', bodies, scopes', h | .callAssign expr, pos, scopes, asgn', bodies, scopes', h => by
    simp only [NameResolution.visitAsgn, bind_eq_ok] at h
    obtain ⟨⟨expr', bodies'⟩, hexpr, h⟩ := h
    cases h
    simpa [asgnExprs] using visitExpr_found expr scopes hexpr
  | .declAssign name expr, pos, scopes, asgn', bodies, scopes', h => by
    simp only [NameResolution.visitAsgn, bind_eq_ok] at h
    obtain ⟨⟨expr', bodies'⟩, hexpr, scopes'', -, h⟩ := h
    cases h
    simpa [asgnExprs] using visitExpr_found expr scopes hexpr

theorem visitOptAsgn_found : (asgn : Option (Asgn NameResolution.Expr)) → (pos : Position) → (scopes : List Scope) →
    {asgn' : Option (Asgn (List Use))} → {bodies : List Body} → {scopes' : List Scope} →
      NameResolution.visitOptAsgn asgn pos scopes = .ok (asgn', bodies, scopes') →
        ExprFound scopes (optAsgnExprs asgn').flatten bodies
  | none, pos, scopes, asgn', bodies, scopes', h => by
    cases h
    exact .nil scopes
  | some asgn, pos, scopes, asgn', bodies, scopes', h => by
    simp only [NameResolution.visitOptAsgn, bind_eq_ok] at h
    obtain ⟨⟨asgn'', bodies', scopes''⟩, hasgn, h⟩ := h
    cases h
    exact visitAsgn_found asgn pos scopes hasgn

theorem visitDecl_found : (decl : Decl NameResolution.Expr) → (pos : Position) → (scopes : List Scope) →
    {decl' : Decl (List Use)} → {bodies : List Body} → {scopes' : List Scope} →
      NameResolution.visitDecl decl pos scopes = .ok (decl', bodies, scopes') →
        ExprFound scopes (declExprs decl').flatten bodies
  | .var name type expr, pos, scopes, decl', bodies, scopes', h => by
    simp only [NameResolution.visitDecl, bind_eq_ok] at h
    obtain ⟨⟨expr', bodies'⟩, hexpr, scopes'', -, h⟩ := h
    cases h
    have hfound := visitOptExpr_found expr scopes hexpr
    cases expr' <;> simpa [declExprs] using hfound
  | .let_ name type expr, pos, scopes, decl', bodies, scopes', h => by
    simp only [NameResolution.visitDecl, bind_eq_ok] at h
    obtain ⟨⟨expr', bodies'⟩, hexpr, scopes'', -, h⟩ := h
    cases h
    simpa [declExprs] using visitExpr_found expr scopes hexpr
  | .typeAlias name type strong, pos, scopes, decl', bodies, scopes', h => by
    simp only [NameResolution.visitDecl, bind_eq_ok] at h
    obtain ⟨scopes'', -, h⟩ := h
    cases h
    exact .nil scopes

theorem visit_found : (s : Stat NameResolution.Expr) → (pos : Position) → (scopes : List Scope) → {s' : Stat (List Use)} →
    {bodies : List Body} → {scopes' : List Scope} → NameResolution.visit s pos scopes = .ok (s', bodies, scopes') →
      StatFound scopes pos s' bodies
  | .block nodes, pos, scopes, s', bodies, scopes', h => by
    simp only [NameResolution.visit, bind_eq_ok] at h
    obtain ⟨⟨nodes', bodies'⟩, hnodes, h⟩ := h
    cases h
    have hfound := visitNodes_found nodes pos 0 _ hnodes
    exact ⟨hfound.outside.inner nofun, fun dtor visible hvisible ↦
      hfound.inScope dtor visible (hvisible.inner nofun), hfound.bodies⟩
  | .fi cond body none, pos, scopes, s', bodies, scopes', h => by
    simp only [NameResolution.visit, bind_eq_ok] at h
    obtain ⟨⟨cond', bodies₁⟩, hcond, ⟨body', bodies₂, inner⟩, hbody, h⟩ := h
    cases h
    have hcond := visitExpr_found cond _ hcond
    have hbody := visit_found body _ _ hbody
    refine ⟨(hcond.found.outside.append hbody.outside).inner nofun, fun dtor visible hvisible ↦ ?_,
      forall_mem_append hcond.bodies hbody.bodies⟩
    have hvisible : Visible dtor visible (⟨.block, []⟩ :: scopes) := hvisible.inner nofun
    exact ⟨hcond.found.covers hvisible, hbody.inScope dtor visible hvisible⟩
  | .fi cond body (some elseBody), pos, scopes, s', bodies, scopes', h => by
    simp only [NameResolution.visit, bind_eq_ok] at h
    obtain ⟨⟨cond', bodies₁⟩, hcond, ⟨body', bodies₂, inner⟩, hbody, ⟨elseBody', bodies₃, inner'⟩, helse, h⟩ := h
    cases h
    obtain ⟨hdeclares, hadds⟩ := visit_adds hbody
    have hcond := visitExpr_found cond _ hcond
    have hbody := visit_found body _ _ hbody
    have helse := visit_found elseBody _ _ helse
    refine ⟨?_, fun dtor visible hvisible ↦ ?_,
      forall_mem_append hcond.bodies (forall_mem_append hbody.bodies helse.bodies)⟩
    · have houtside := hcond.found.outside.append (hbody.outside.append (helse.outside.adds hadds))
      simpa [statExprs] using houtside.inner nofun
    · have hvisible : Visible dtor visible (⟨.block, []⟩ :: scopes) := hvisible.inner nofun
      refine ⟨hcond.found.covers hvisible, hbody.inScope dtor visible hvisible, fun hregistered ↦ ?_⟩
      exact helse.inScope dtor visible (hvisible.branch hadds (hdeclares ▸ own_isEmpty hregistered))
  | .swich expr cases alwaysReturns, pos, scopes, s', bodies, scopes', h => by
    simp only [NameResolution.visit, bind_eq_ok] at h
    obtain ⟨⟨expr', bodies₁⟩, hexpr, ⟨cases', bodies₂⟩, hcases, h⟩ := h
    cases h
    have hexpr := visitExpr_found expr _ hexpr
    have hcases := visitCases_found cases pos 0 _ hcases
    refine ⟨hexpr.found.outside.append hcases.outside, fun dtor visible hvisible ↦ ?_,
      forall_mem_append hexpr.bodies hcases.bodies⟩
    exact ⟨hexpr.found.covers hvisible, hcases.inScope dtor visible hvisible⟩
  | .terminate, pos, scopes, s', bodies, scopes', h | .brake, pos, scopes, s', bodies, scopes', h
  | .continu, pos, scopes, s', bodies, scopes', h => by
    cases h
    exact ⟨nofun, fun _ _ _ ↦ trivial, nofun⟩
  | .ret expr, pos, scopes, s', bodies, scopes', h => by
    simp only [NameResolution.visit, bind_eq_ok] at h
    obtain ⟨⟨expr', bodies₁⟩, hexpr, h⟩ := h
    cases h
    have hexpr := visitOptExpr_found expr scopes hexpr
    exact ⟨hexpr.found.outside, fun dtor visible hvisible ↦ hexpr.found.covers_each hvisible, hexpr.bodies⟩
  | .wile cond body, pos, scopes, s', bodies, scopes', h => by
    simp only [NameResolution.visit, bind_eq_ok] at h
    obtain ⟨⟨cond', bodies₁⟩, hcond, ⟨body', bodies₂, inner⟩, hbody, h⟩ := h
    cases h
    have hcond := visitExpr_found cond _ hcond
    have hbody := visit_found body _ _ hbody
    refine ⟨(hcond.found.outside.append hbody.outside).inner nofun, fun dtor visible hvisible ↦ ?_,
      forall_mem_append hcond.bodies hbody.bodies⟩
    have hvisible : Visible dtor visible (⟨.flow, []⟩ :: scopes) := hvisible.inner nofun
    exact ⟨hcond.found.covers hvisible, hbody.inScope dtor visible hvisible⟩
  | .four init cond incr body, pos, scopes, s', bodies, scopes', h => by
    simp only [NameResolution.visit, bind_eq_ok] at h
    obtain ⟨⟨init', bodies₁, inner⟩, hinit, ⟨cond', bodies₂⟩, hcond, ⟨incr', bodies₃, inner'⟩, hincr,
      ⟨body', bodies₄, inner''⟩, hbody, h⟩ := h
    cases h
    obtain ⟨hinitDeclares, hinitAdds⟩ := visitOptAsgn_adds hinit
    obtain ⟨hincrDeclares, hincrAdds⟩ := visitOptAsgn_adds hincr
    have hinit := visitOptAsgn_found init _ _ hinit
    have hcond := visitExpr_found cond _ hcond
    have hincr := visitOptAsgn_found incr _ _ hincr
    have hbody := visit_found body _ _ hbody
    refine ⟨?_, fun dtor visible hvisible ↦ ?_,
      forall_mem_append hinit.bodies (forall_mem_append hcond.bodies (forall_mem_append hincr.bodies hbody.bodies))⟩
    · have hrest := hcond.found.outside.append (hincr.found.outside.append (hbody.outside.adds hincrAdds))
      simpa [statExprs] using (hinit.found.outside.append (hrest.adds hinitAdds)).inner nofun
    · have hvisible : Visible dtor visible (⟨.flow, []⟩ :: scopes) := hvisible.inner nofun
      have hvisible' := hvisible.adds hinitAdds
      rw [← hinitDeclares] at hvisible'
      refine ⟨hinit.found.covers_each hvisible, hcond.found.covers hvisible', hincr.found.covers_each hvisible',
        fun hown ↦ ?_⟩
      exact hbody.inScope dtor _ (hvisible'.branch hincrAdds (hincrDeclares ▸ hown))
  | .decl decl, pos, scopes, s', bodies, scopes', h => by
    simp only [NameResolution.visit, bind_eq_ok] at h
    obtain ⟨⟨decl', bodies₁, scopes₁⟩, hdecl, h⟩ := h
    cases h
    have hdecl := visitDecl_found decl pos scopes hdecl
    exact ⟨hdecl.found.outside, fun dtor visible hvisible ↦ hdecl.found.covers_each hvisible, hdecl.bodies⟩
  | .asgn asgn, pos, scopes, s', bodies, scopes', h => by
    simp only [NameResolution.visit, bind_eq_ok] at h
    obtain ⟨⟨asgn', bodies₁, scopes₁⟩, hasgn, h⟩ := h
    cases h
    have hasgn := visitAsgn_found asgn pos scopes hasgn
    exact ⟨hasgn.found.outside, fun dtor visible hvisible ↦ hasgn.found.covers_each hvisible, hasgn.bodies⟩

theorem visitNodes_found : (nodes : List (Stat NameResolution.Expr)) → (pos : Position) → (i : ℕ) → (scopes : List Scope) →
    {nodes' : Body} → {bodies : List Body} → NameResolution.visitNodes nodes pos i scopes = .ok (nodes', bodies) →
      NodesFound scopes pos i nodes' bodies
  | [], pos, i, scopes, nodes', bodies, h => by
    cases h
    exact ⟨nofun, fun _ _ _ ↦ trivial, nofun⟩
  | node :: nodes, pos, i, scopes, nodes', bodies, h => by
    simp only [NameResolution.visitNodes, bind_eq_ok] at h
    obtain ⟨⟨node', bodies₁, inner⟩, hnode, ⟨nodes'', bodies₂⟩, hnodes, h⟩ := h
    cases h
    obtain ⟨hdeclares, hadds⟩ := visit_adds hnode
    have hnode := visit_found node _ _ hnode
    have hnodes := visitNodes_found nodes _ _ _ hnodes
    refine ⟨?_, fun dtor visible hvisible ↦ ?_, forall_mem_append hnode.bodies hnodes.bodies⟩
    · simpa [nodesExprs] using hnode.outside.append (hnodes.outside.adds hadds)
    · have hvisible' := hvisible.adds hadds
      rw [← hdeclares] at hvisible'
      exact ⟨hnode.inScope dtor visible hvisible, hnodes.inScope dtor _ hvisible'⟩

theorem visitCases_found : (cases : List (SwitchCase NameResolution.Expr)) → (pos : Position) → (i : ℕ) →
    (scopes : List Scope) → {cases' : List (SwitchCase (List Use))} → {bodies : List Body} →
      NameResolution.visitCases cases pos i scopes = .ok (cases', bodies) → CasesFound scopes pos i cases' bodies
  | [], pos, i, scopes, cases', bodies, h => by
    cases h
    exact ⟨nofun, fun _ _ _ ↦ trivial, nofun⟩
  | .mk expr body :: cases, pos, i, scopes, cases', bodies, h => by
    simp only [NameResolution.visitCases, bind_eq_ok] at h
    obtain ⟨⟨expr', bodies₁⟩, hexpr, ⟨body', bodies₂, inner⟩, hbody, ⟨cases'', bodies₃⟩, hcases, h⟩ := h
    cases h
    have hexpr := visitOptExpr_found expr scopes hexpr
    have hbody := visit_found body _ _ hbody
    have hcases := visitCases_found cases pos (i + 1) scopes hcases
    refine ⟨?_, fun dtor visible hvisible ↦ ?_,
      forall_mem_append hexpr.bodies (forall_mem_append hbody.bodies hcases.bodies)⟩
    · have hinner : FoundOutside scopes (statExprs body').flatten := hbody.outside.inner nofun
      simpa [casesExprs] using hexpr.found.outside.append (hinner.append hcases.outside)
    · exact ⟨hexpr.found.covers_each hvisible, hbody.inScope dtor visible (hvisible.inner nofun),
        hcases.inScope dtor visible hvisible⟩

end

/-- Every body of an accepted function is scoped. -/
theorem visitFunc_bodyScoped {globals params : List String} {body : List (Stat NameResolution.Expr)} {bodies : List Body}
    (h : visitFunc globals params body = .ok bodies) : ∀ nodes ∈ bodies, BodyScoped nodes := by
  simp only [visitFunc, bind_eq_ok] at h
  obtain ⟨⟨nodes, bodies'⟩, hnodes, h⟩ := h
  cases h
  have hfound := visitNodes_found body [] 0 _ hnodes
  exact hfound.bodyScoped fun dtor ↦ visible_paramEntries (.inr fun name pos ↦ findScope_globals)

/-! ## The missing-return check ends blocks -/

/-- What the check has made of a statement. -/
structure Checked (dtor : Position → Bool) (s s' : Stat (List Use)) (pos : Position) (state : CheckMissingReturn.State) :
    Prop where
  closed : closed dtor s' pos = clean dtor s pos state
  registered : registered dtor s' pos = registered dtor s pos
  declares : declares s' = declares s
  shaped : shaped s' = true
  inScope : ∀ visible, Scoped dtor s pos visible → Scoped dtor s' pos visible

/-- Of statements that are not yet left. -/
structure CheckedNodes (dtor : Position → Bool) (nodes nodes' : Body) (pos : Position) (i : ℕ)
    (state : CheckMissingReturn.State) : Prop where
  closed : closedNodes dtor nodes' pos i = cleanNodes dtor nodes pos i state
  registered : registeredNodes dtor nodes' pos i = registeredNodes dtor nodes pos i
  shaped : ∀ node ∈ nodes', LocalScopes.shaped node = true
  inScope : ∀ visible, ScopedNodes dtor nodes pos i visible → ScopedNodes dtor nodes' pos i visible

structure CheckedCases (dtor : Position → Bool) (cases cases' : List (SwitchCase (List Use))) (pos : Position) (i : ℕ)
    (state : CheckMissingReturn.State) : Prop where
  closed : closedCases dtor cases' pos i = cleanCases dtor cases pos i state
  shaped : shapedCases cases' = true
  inScope : ∀ visible, ScopedCases dtor cases pos i visible → ScopedCases dtor cases' pos i visible

section Check

variable {ε : Type} {dtor : Position → Bool} {pos : Position}

theorem terminated_concat : (nodes : List (Stat ε)) → terminated (nodes ++ [.terminate]) = true
  | [] => rfl
  | [node] => by cases node <;> rfl
  | node :: node' :: nodes => by
    have hrest := terminated_concat (node' :: nodes)
    cases node <;> exact hrest

theorem terminated_eq_false : (nodes : List (Stat ε)) → (∀ node ∈ nodes, shaped node = true) → terminated nodes = false
  | [], _ => rfl
  | node :: nodes, h => by
    have hrest := terminated_eq_false nodes fun node' hnode' ↦ h node' (List.mem_cons_of_mem _ hnode')
    cases node with
    | terminate => exact absurd (h _ List.mem_cons_self) Bool.false_ne_true
    | _ => cases nodes <;> exact hrest

theorem closedNodes_concat {node : Stat ε} (hnode : ∀ pos, closed dtor node pos = true) : (nodes : List (Stat ε)) → (i : ℕ) →
    closedNodes dtor (nodes ++ [node]) pos i = closedNodes dtor nodes pos i
  | [], i => by simp only [List.nil_append, closedNodes, hnode, Bool.or_true, Bool.and_true]
  | node' :: nodes, i => by rw [List.cons_append, closedNodes, closedNodes, closedNodes_concat hnode nodes]

theorem mayNodes_concat {node : Stat ε} (hnode : may node .falls = false) : (nodes : List (Stat ε)) →
    mayNodes (nodes ++ [node]) .falls = false
  | [] => by rw [List.nil_append, mayNodes, hnode, Bool.false_and, Bool.false_and, Bool.or_false]
  | node' :: nodes => by
    rw [List.cons_append, mayNodes, mayNodes_concat hnode nodes, bne_self_eq_false, Bool.and_false]
    rfl

theorem shapedNodes_cons {node : Stat ε} {nodes : List (Stat ε)} (h : shaped node = true) :
    shapedNodes (node :: nodes) = shapedNodes nodes := by
  rw [shapedNodes, h, Bool.true_and]
  rintro rfl
  cases h

theorem shapedNodes_append {last : List (Stat ε)} : (nodes : List (Stat ε)) → (∀ node ∈ nodes, shaped node = true) →
    shapedNodes (nodes ++ last) = shapedNodes last
  | [], _ => rfl
  | node :: nodes, h => by
    rw [List.cons_append, shapedNodes_cons (h _ List.mem_cons_self)]
    exact shapedNodes_append nodes fun node' hnode' ↦ h node' (List.mem_cons_of_mem _ hnode')

theorem scopedNodes_concat (node : Stat (List Use)) (hnode : ∀ pos visible, Scoped dtor node pos visible) :
    (nodes : Body) → (i : ℕ) → (visible : List Position) → ScopedNodes dtor nodes pos i visible →
      ScopedNodes dtor (nodes ++ [node]) pos i visible
  | [], _, _, _ => ⟨hnode _ _, trivial⟩
  | _ :: nodes, i, _, h => ⟨h.1, scopedNodes_concat node hnode nodes (i + 1) _ h.2⟩

end Check

section Visit

open CheckMissingReturn (State Scan Tally leaveBlock)
open ReturnReading (reads slipsNodes)

variable {dtor : Position → Bool}

/-- After the check of a block, whose end may be reached just when it reads as left and slips. -/
theorem checked_leave {nodes nodes' : Body} {pos : Position} {state : State} {scan : Scan}
    (h : CheckedNodes dtor nodes nodes' pos 0 { state with occurs := .no })
    (hnodes : CheckMissingReturn.visitNodes nodes { state := { state with occurs := .no } } = .ok (nodes', scan)) :
    Checked dtor (.block nodes) (.block (leaveBlock nodes' scan).1) pos state := by
  have hreads : (leaveBlock nodes' scan).2 = reads (.block nodes) state :=
    ReturnReading.visit_reads (.block nodes) (bind_eq_ok.mpr ⟨_, hnodes, rfl⟩)
  rcases ReturnReading.leaveBlock_cases nodes' scan with ⟨heq, hno⟩ | ⟨heq, hyes⟩
  · rw [hreads] at hno
    refine ⟨?_, rfl, rfl, ?_, fun visible hscoped ↦ ?_⟩
    · rw [heq, closed, terminated_concat, Bool.true_or, Bool.true_and, closedNodes_concat (fun _ ↦ rfl), h.closed, clean,
        bne_iff_ne.mpr hno, Bool.true_or, Bool.or_true, Bool.true_and]
    · rw [heq, shaped, shapedNodes_append nodes' h.shaped]
      rfl
    · rw [heq]
      exact scopedNodes_concat .terminate (fun _ _ ↦ trivial) nodes' 0 visible (h.inScope visible hscoped)
  · rw [hreads] at hyes
    have hmay : mayNodes nodes' .falls = slipsNodes nodes :=
      (ReturnReading.visitNodes_may nodes hnodes .falls).trans (ReturnReading.falls_eq_slips (.block nodes) hyes)
    refine ⟨?_, rfl, rfl, ?_, fun visible hscoped ↦ ?_⟩
    · rw [heq, closed, terminated_eq_false nodes' h.shaped, Bool.false_or, h.registered, h.closed, hmay, clean, hyes,
        bne_self_eq_false, Bool.false_or]
    · rw [heq, shaped, ← nodes'.append_nil, shapedNodes_append nodes' h.shaped]
      rfl
    · rw [heq]
      exact h.inScope visible hscoped

mutual

/-- The check changes neither what a statement registers nor where control can leave it. -/
theorem check_checked : (s : Stat (List Use)) → {state : State} → {r : Stat (List Use) × State} →
    CheckMissingReturn.visit s state = .ok r → parsed s = true → (pos : Position) → Checked dtor s r.1 pos state
  | .block nodes, state, r, h, hparsed, pos => by
    obtain ⟨⟨nodes', scan⟩, hnodes, h⟩ := bind_eq_ok.mp h
    cases h
    exact checked_leave (check_checkedNodes nodes hnodes hparsed pos 0) hnodes
  | .fi cond body none, state, r, h, hparsed, pos => by
    obtain ⟨⟨body', troo⟩, hbody, h⟩ := bind_eq_ok.mp h
    cases h
    have hchecked := check_checked body hbody hparsed (0 :: pos)
    refine ⟨?_, hchecked.registered, rfl, hchecked.shaped, fun visible hscoped ↦ ⟨hscoped.1, hchecked.inScope _ hscoped.2⟩⟩
    rw [closed, clean, hchecked.closed, hchecked.registered]
  | .fi cond body (some elseBody), state, r, h, hparsed, pos => by
    obtain ⟨⟨body', troo⟩, hbody, h⟩ := bind_eq_ok.mp h
    obtain ⟨⟨elseBody', fols⟩, helse, h⟩ := bind_eq_ok.mp h
    cases h
    obtain ⟨hparsed, hparsedElse⟩ := Bool.and_eq_true_iff.mp hparsed
    have hchecked := check_checked body hbody hparsed (0 :: pos)
    have hcheckedElse := check_checked elseBody helse hparsedElse (1 :: pos)
    refine ⟨?_, ?_, rfl, Bool.and_eq_true_iff.mpr ⟨hchecked.shaped, hcheckedElse.shaped⟩, fun visible hscoped ↦ ?_⟩
    · rw [closed, clean, hchecked.closed, hchecked.registered, hcheckedElse.closed, hcheckedElse.registered,
        ReturnReading.visit_may body hbody, ← ReturnReading.visit_reads body hbody]
    · rw [registered, registered, hchecked.registered, hcheckedElse.registered]
    · obtain ⟨hcond, hscoped, hscopedElse⟩ := hscoped
      refine ⟨hcond, hchecked.inScope _ hscoped, fun hregistered ↦ hcheckedElse.inScope _ (hscopedElse ?_)⟩
      rwa [← hchecked.registered]
  | .swich expr cases alwaysReturns, state, r, h, hparsed, pos => by
    obtain ⟨⟨cases', tally⟩, hcases, h⟩ := bind_eq_ok.mp h
    cases h
    have hchecked := check_checkedCases cases hcases hparsed pos 0
    refine ⟨?_, rfl, rfl, hchecked.shaped, fun visible hscoped ↦ ⟨hscoped.1, hchecked.inScope _ hscoped.2⟩⟩
    rw [closed, clean, hchecked.closed]
  | .wile cond body, state, r, h, hparsed, pos => by
    obtain ⟨⟨body', state'⟩, hbody, h⟩ := bind_eq_ok.mp h
    cases h
    have hchecked := check_checked body hbody hparsed (0 :: pos)
    refine ⟨?_, rfl, rfl, hchecked.shaped, fun visible hscoped ↦ ⟨hscoped.1, hchecked.inScope _ hscoped.2⟩⟩
    rw [closed, clean, hchecked.closed, hchecked.registered]
  | .four init cond incr body, state, r, h, hparsed, pos => by
    obtain ⟨⟨body', state'⟩, hbody, h⟩ := bind_eq_ok.mp h
    cases h
    have hchecked := check_checked body hbody hparsed (2 :: pos)
    refine ⟨?_, rfl, rfl, hchecked.shaped, fun visible hscoped ↦ ?_⟩
    · rw [closed, clean, hchecked.closed, hchecked.registered]
    · obtain ⟨hinit, hcond, hincr, hscoped⟩ := hscoped
      exact ⟨hinit, hcond, hincr, fun hown ↦ hchecked.inScope _ (hscoped hown)⟩
  | .brake, _, _, h, _, _ | .continu, _, _, h, _, _ | .ret _, _, _, h, _, _ | .decl _, _, _, h, _, _
  | .asgn _, _, _, h, _, _ => by
    cases h
    exact ⟨rfl, rfl, rfl, rfl, fun _ hscoped ↦ hscoped⟩

theorem check_checkedNodes : (nodes : Body) → {scan : Scan} → {r : Body × Scan} →
    CheckMissingReturn.visitNodes nodes scan = .ok r → parsedNodes nodes = true → (pos : Position) → (i : ℕ) →
      CheckedNodes dtor nodes r.1 pos i scan.state
  | [], _, _, h, _, _, _ => by
    cases h
    exact ⟨rfl, rfl, fun node hnode ↦ absurd hnode List.not_mem_nil, fun _ hscoped ↦ hscoped⟩
  | node :: nodes, scan, r, h, hparsed, pos, i => by
    obtain ⟨⟨node', state⟩, hnode, h⟩ := bind_eq_ok.mp h
    obtain ⟨-, h⟩ := ite_error_eq_ok.mp h
    obtain ⟨⟨nodes', scan'⟩, hnodes, h⟩ := bind_eq_ok.mp h
    cases h
    obtain ⟨hparsed, hparsedNodes⟩ := Bool.and_eq_true_iff.mp hparsed
    have hchecked := check_checked node hnode hparsed (i :: pos)
    have hcheckedNodes := check_checkedNodes nodes hnodes hparsedNodes pos (i + 1)
    refine ⟨?_, ?_, ?_, fun visible hscoped ↦ ⟨hchecked.inScope _ hscoped.1, ?_⟩⟩
    · rw [closedNodes, cleanNodes, hchecked.closed, hcheckedNodes.closed, ReturnReading.visit_may node hnode,
        ← ReturnReading.visit_reads node hnode]
      rfl
    · rw [registeredNodes, registeredNodes, hchecked.registered, hcheckedNodes.registered]
    · exact List.forall_mem_cons.mpr ⟨hchecked.shaped, hcheckedNodes.shaped⟩
    · rw [hchecked.declares]
      exact hcheckedNodes.inScope _ hscoped.2

theorem check_checkedCases : (cases : List (SwitchCase (List Use))) → {state : State} → {tally : Tally} →
    {r : List (SwitchCase (List Use)) × Tally} → CheckMissingReturn.visitCases cases state tally = .ok r →
      parsedCases cases = true → (pos : Position) → (i : ℕ) → CheckedCases dtor cases r.1 pos i state
  | [], _, _, _, h, _, _, _ => by
    cases h
    exact ⟨rfl, rfl, fun _ hscoped ↦ hscoped⟩
  | .mk expr body :: cases, state, tally, r, h, hparsed, pos, i => by
    obtain ⟨⟨body', state'⟩, hbody, h⟩ := bind_eq_ok.mp h
    obtain ⟨-, h⟩ := ite_error_eq_ok.mp h
    obtain ⟨⟨cases', tally'⟩, hcases, h⟩ := bind_eq_ok.mp h
    cases h
    obtain ⟨hparsed, hparsedCases⟩ := Bool.and_eq_true_iff.mp hparsed
    have hchecked := check_checked body hbody hparsed (i :: pos)
    have hcheckedCases := check_checkedCases cases hcases hparsedCases pos (i + 1)
    refine ⟨?_, Bool.and_eq_true_iff.mpr ⟨hchecked.shaped, hcheckedCases.shaped⟩, fun visible hscoped ↦ ?_⟩
    · rw [closedCases, cleanCases, hchecked.closed, hchecked.registered, hcheckedCases.closed,
        ← ReturnReading.visit_reads body hbody]
    · exact ⟨hscoped.1, hchecked.inScope _ hscoped.2.1, hcheckedCases.inScope _ hscoped.2.2⟩

end

/-- An accepted body is the visited one, with a `Return` at the end if it is that of a void function that may get
there. -/
theorem checkMissingRet_cases {body body' : Body} {ret : Ty} (h : CheckMissingReturn.checkMissingRet body ret = .ok body') :
    ∃ nodes scan, CheckMissingReturn.visitNodes body { state := {} } = .ok (nodes, scan) ∧
      ((body' = nodes ∧ (leaveBlock nodes scan).2.occurs = .yes) ∨
        (body' = nodes ++ [.ret none] ∧ (leaveBlock nodes scan).2.occurs ≠ .yes)) := by
  obtain ⟨⟨nodes, scan⟩, hnodes, h⟩ := bind_eq_ok.mp h
  refine ⟨nodes, scan, hnodes, ?_⟩
  rcases ReturnReading.leaveBlock_cases nodes scan with ⟨heq, hno⟩ | ⟨heq, hyes⟩
  · have hoccurs : (CheckMissingReturn.leaveBlock nodes scan).2.occurs = .no ∨
        (CheckMissingReturn.leaveBlock nodes scan).2.occurs = .maybe := by
      cases hoccurs : (CheckMissingReturn.leaveBlock nodes scan).2.occurs with
      | no => exact .inl rfl
      | maybe => exact .inr rfl
      | yes => exact absurd hoccurs hno
    by_cases hvoid : ret.isVoid = true
    · obtain rfl : CheckMissingReturn.appendReturn (CheckMissingReturn.leaveBlock nodes scan).1 = body' := by
        simp only [hvoid, hoccurs, and_self, if_true] at h
        exact Except.ok.inj h
      rw [heq, CheckMissingReturn.appendReturn, List.getLast?_concat, List.dropLast_concat]
      exact .inr ⟨rfl, hno⟩
    · rcases hoccurs with hoccurs | hoccurs <;> simp [hvoid, hoccurs] at h
  · simp only [hyes, heq, reduceCtorEq, or_self, and_false, if_false] at h
    exact .inl ⟨(Except.ok.inj h).symm, hyes⟩

/-- After the check of a body. -/
theorem checkMissingRet_closed {body body' : Body} {ret : Ty} (h : CheckMissingReturn.checkMissingRet body ret = .ok body')
    (hparsed : parsedNodes body = true) : closed dtor (.block body') [] = clean dtor (.block body) [] {} ∧
      shapedNodes body' = true ∧ (ScopedNodes dtor body [] 0 [] → ScopedNodes dtor body' [] 0 []) := by
  obtain ⟨nodes, scan, hnodes, hbody'⟩ := checkMissingRet_cases h
  have hchecked := @check_checkedNodes dtor body _ _ hnodes hparsed [] 0
  have hvisit : CheckMissingReturn.visit (.block body) {} =
      .ok (.block (leaveBlock nodes scan).1, (leaveBlock nodes scan).2) := bind_eq_ok.mpr ⟨_, hnodes, rfl⟩
  have hreads : (leaveBlock nodes scan).2 = reads (.block body) {} := ReturnReading.visit_reads (.block body) hvisit
  rw [hreads] at hbody'
  rcases hbody' with ⟨rfl, hyes⟩ | ⟨rfl, hno⟩
  · have hmay : mayNodes body' .falls = slipsNodes body :=
      (ReturnReading.visitNodes_may body hnodes .falls).trans (ReturnReading.falls_eq_slips (.block body) hyes)
    refine ⟨?_, ?_, hchecked.inScope []⟩
    · rw [closed, terminated_eq_false body' hchecked.shaped, Bool.false_or, hchecked.closed, hchecked.registered, hmay, clean,
        hyes, bne_self_eq_false, Bool.false_or]
    · rw [← body'.append_nil, shapedNodes_append body' hchecked.shaped]
      rfl
  · refine ⟨?_, ?_, fun hscoped ↦ scopedNodes_concat (.ret none) (fun _ _ ↦ nofun) nodes 0 [] (hchecked.inScope [] hscoped)⟩
    · rw [closed, closedNodes_concat (fun _ ↦ rfl), hchecked.closed, mayNodes_concat rfl, clean, bne_iff_ne.mpr hno,
        Bool.true_or, Bool.or_true, Bool.not_false, Bool.or_true, Bool.or_true]
    · rw [shapedNodes_append nodes hchecked.shaped]
      rfl

end Visit

end Stela.CodeGen.LocalScopes
