import Stela.CodeGen.Categories
import Stela.Semantic.CaptureChains

/-!
# Declarations and return statements

The symbol table with what it keeps about each object for the code generator: the statement or parameter that
declares it, and the scope that it is inserted into. `getObject` and `canMoveReturn` of `generate stat.cpp` decide by
them whether a return statement may move from an object.
-/

namespace Stela.Semantic.Declarations

open Stela.Syntax hiding Symbol
open Stela.Semantic.Scopes Stela.Semantic.CaptureChains Library.Machine

/-- The nodes that declare objects. -/
inductive Decl where
  | funcParam (mode : ParamRef)
  | declAssign | var | let_
  deriving DecidableEq, Repr

/-- `sym::Object`: its node, and its scope with the parents of that. -/
structure Object where
  node : Decl
  scope : List Scope

/-- `getObject`: there is none for a reference. -/
def getObject (object : Object) : Option Object :=
  match object.node with
  | .funcParam .ref => none
  | .funcParam .val | .declAssign | .var | .let_ => some object

/-- The scope of the body of a function or lambda (`symbol->scope`), without its table. -/
def funcScope : Owner → Option Scope
  | .global => none
  | .func symbol => some { type := .func, symbol }
  | .lambda symbol => some { type := .closure, symbol }

/-- Scopes of functions and lambdas are the same when they belong to the same symbol. -/
def canMoveReturn (funcScope : Scope) (object : Object) : Bool :=
  (findNearest funcScope.type object.scope).map Scope.symbol == some funcScope.symbol

/-! ## The machine -/

structure State where
  table : Scopes.State
  objects : ℕ → Option Object
  /-- The expressions that are returned, each with the function or lambda that returns it. -/
  returns : List (Owner × AExpr)

def State.init (builtins : List (String × Symbol)) : State where
  table := .init builtins
  objects _ := none
  returns := []

/-- A parameter as declared. -/
abbrev Param := String × ParamRef × Ty

def Param.named (param : Param) : String × Ty := (param.1, param.2.2)

inductive Event where
  | enterScope (type : ScopeType)
  | enterFunc (params : List Param)
  | enterLambda (params : List Param)
  | leaveScope
  | declare (name : String) (type : Ty) (node : Decl)
  | insert (name : String) (symbol : Symbol)
  | lookupIdent (name : String)
  | ret (expr : AExpr)

/-- The call on the symbol table, if there is one. -/
def Event.call : Event → Option Scopes.Event
  | .enterScope type => some (.enterScope type)
  | .enterFunc params => some (.enterFunc (params.map Param.named))
  | .enterLambda params => some (.enterLambda (params.map Param.named))
  | .leaveScope => some .leaveScope
  | .declare name type _ => some (.insertObject name type)
  | .insert name symbol => some (.insert name symbol)
  | .lookupIdent name => some (.lookupIdent name)
  | .ret _ => none

/-- The nodes of the objects that the event declares. -/
def Event.nodes : Event → List Decl
  | .enterFunc params | .enterLambda params => params.map fun param ↦ .funcParam param.2.1
  | .declare _ _ node => [node]
  | _ => []

/-- The number of the first of them: parameters come after their function or lambda. -/
def Event.first (fresh : ℕ) : Event → ℕ
  | .enterFunc _ | .enterLambda _ => fresh + 1
  | _ => fresh

/-- The objects, with new ones that are numbered from the first on and inserted into the scope. -/
def addObjects (objects : ℕ → Option Object) (first : ℕ) (nodes : List Decl) (scope : List Scope) (n : ℕ) :
    Option Object :=
  if n < first then objects n
  else
    match nodes[n - first]? with
    | some node => some ⟨node, scope⟩
    | none => objects n

/-- The root of a returned expression has been looked up in the body that returns it. -/
def rootKnown (table : Scopes.State) (expr : AExpr) : Bool :=
  (CodeGen.rootLvalue expr).all fun root ↦ table.idents.any fun ident ↦
    ident.definition == root.1 && ident.captureIndex == root.2 && decide (ident.owner = owner table.cur)

/-- One step of the traversal; `none` is a fatal error, or a step that is never made. -/
def step (s : State) (event : Event) : Option State :=
  match event with
  | .ret expr =>
      if owner s.table.cur ≠ .global ∧ rootKnown s.table expr then
        some { s with returns := (owner s.table.cur, expr) :: s.returns }
      else none
  | event => do
      let call ← event.call
      let table ← Scopes.step s.table call
      return { s with table, objects := addObjects s.objects (event.first s.table.fresh) event.nodes table.cur }

/-- The states that the analysis of some program reaches. -/
def Reachable (s : State) : Prop :=
  ∃ builtins events, (∀ name node type, (name, Scopes.Symbol.object node type) ∉ builtins) ∧
    run step (State.init builtins) events = some s

/-- Whether the code of a function or lambda may move from the object of a definition when it returns it. -/
def movable (s : State) (symbol : Owner) (definition : ℕ) : Bool :=
  ((s.objects definition).bind getObject).any fun object ↦
    (funcScope symbol).any fun funcScope ↦ canMoveReturn funcScope object

/-! ## The invariant -/

/-- The scope of an object is one of the scopes of the program, and belongs to what the object is local to. -/
structure ObjectInv (table : Scopes.State) (node : ℕ) (object : Object) : Prop where
  known : node < table.fresh
  wellScoped : WellScoped table.outer object.scope
  bound : ∀ scope ∈ object.scope, scope.type = .closure → scope.symbol < table.fresh
  home : table.home node = owner object.scope

structure Inv (s : State) : Prop where
  table : CaptureChains.Inv s.table
  objects : ∀ node object, s.objects node = some object → ObjectInv s.table node object
  returns : ∀ symbol expr, (symbol, expr) ∈ s.returns → symbol ≠ .global ∧
    ∀ root, CodeGen.rootLvalue expr = some root → ⟨root.1, root.2, symbol⟩ ∈ s.table.idents

/-- What a call on the symbol table leaves alone. -/
structure Kept (s s' : Scopes.State) : Prop where
  fresh : s.fresh ≤ s'.fresh
  outer : ∀ lam < s.fresh, s'.outer lam = s.outer lam
  home : ∀ node < s.fresh, s'.home node = s.home node
  idents : s.idents ⊆ s'.idents

theorem Kept.of_cur (s : Scopes.State) (cur : List Scope) : Kept s { s with cur } :=
  ⟨Nat.le_refl _, fun _ _ ↦ rfl, fun _ _ ↦ rfl, List.Subset.refl _⟩

theorem home_enter {s : Scopes.State} {type : ScopeType} {params : List (String × Ty)} {node : ℕ}
    (h : node < s.fresh) : (s.enter type params).home node = s.home node :=
  if_neg fun hnew ↦ absurd hnew.1 (Nat.lt_asymm h)

theorem kept_step {s s' : Scopes.State} {event : Scopes.Event} (h : Scopes.step s event = some s') : Kept s s' := by
  have henter (type : ScopeType) (params : List (String × Ty)) : s.fresh ≤ (s.enter type params).fresh := by
    change s.fresh ≤ s.fresh + 1 + params.length
    omega
  cases event with
  | enterScope type =>
    obtain ⟨-, heq⟩ := Option.ite_none_right_eq_some.mp h
    cases heq
    exact .of_cur s _
  | enterFunc params =>
    obtain ⟨-, heq⟩ := Option.ite_none_right_eq_some.mp h
    cases heq
    exact ⟨henter _ _, fun _ _ ↦ rfl, fun _ hnode ↦ home_enter hnode, List.Subset.refl _⟩
  | enterLambda params =>
    cases h
    exact ⟨henter .closure params, fun lam hlam ↦ Function.update_of_ne (Nat.ne_of_lt hlam) _ _,
      fun _ hnode ↦ if_neg fun hnew ↦ absurd hnew.1 (Nat.lt_asymm hnode), List.Subset.refl _⟩
  | leaveScope =>
    obtain ⟨-, heq⟩ := Option.ite_none_left_eq_some.mp h
    cases heq
    exact .of_cur s _
  | insertObject name type =>
    obtain ⟨-, heq⟩ := Option.ite_none_left_eq_some.mp h
    cases heq
    exact ⟨Nat.le_succ _, fun _ _ ↦ rfl, fun node hnode ↦ Function.update_of_ne (Nat.ne_of_lt hnode) _ _,
      List.Subset.refl _⟩
  | insert name symbol =>
    cases symbol with
    | object node type => cases h
    | func | lambda | typeAlias | btnFunc =>
      cases h
      exact .of_cur s _
  | lookupIdent name =>
    simp only [Scopes.step] at h
    split at h
    · obtain ⟨r, -, heq⟩ := Option.bind_eq_some_iff.mp h
      cases heq
      exact ⟨Nat.le_refl _, fun _ _ ↦ rfl, fun _ _ ↦ rfl, List.subset_cons_self _ _⟩
    · cases h
      exact .of_cur s s.cur
    · cases h
      exact .of_cur s s.cur
    · cases h

theorem ObjectInv.mono {s s' : Scopes.State} {node : ℕ} {object : Object} (h : ObjectInv s node object)
    (hkept : Kept s s') : ObjectInv s' node object where
  known := Nat.lt_of_lt_of_le h.known hkept.fresh
  wellScoped := h.wellScoped.congr fun scope hmem htype ↦ hkept.outer _ (h.bound scope hmem htype)
  bound scope hmem htype := Nat.lt_of_lt_of_le (h.bound scope hmem htype) hkept.fresh
  home := (hkept.home node h.known).trans h.home

/-- A declared object is local to the owner of the scope that it is inserted into. -/
theorem declared_local {s s' : Scopes.State} {event : Event} {call : Scopes.Event} (hcall : event.call = some call)
    (h : Scopes.step s call = some s') {node : ℕ} (hfirst : event.first s.fresh ≤ node)
    (hlast : node - event.first s.fresh < event.nodes.length) : node < s'.fresh ∧ s'.home node = owner s'.cur := by
  cases event with
  | enterFunc params =>
    cases hcall
    obtain ⟨-, heq⟩ := Option.ite_none_right_eq_some.mp h
    cases heq
    simp only [Event.first, Event.nodes, List.length_map] at hfirst hlast
    have hnew : s.fresh < node ∧ node ≤ s.fresh + (params.map Param.named).length := by
      rw [List.length_map]
      omega
    refine ⟨?_, if_pos hnew⟩
    change node < s.fresh + 1 + (params.map Param.named).length
    omega
  | enterLambda params =>
    cases hcall
    cases h
    simp only [Event.first, Event.nodes, List.length_map] at hfirst hlast
    have hnew : s.fresh < node ∧ node ≤ s.fresh + (params.map Param.named).length := by
      rw [List.length_map]
      omega
    refine ⟨?_, if_pos hnew⟩
    change node < s.fresh + 1 + (params.map Param.named).length
    omega
  | declare name type decl =>
    cases hcall
    obtain ⟨-, heq⟩ := Option.ite_none_left_eq_some.mp h
    cases heq
    have hnode : node = s.fresh := by
      simp only [Event.first, Event.nodes, List.length_singleton] at hfirst hlast
      omega
    subst hnode
    refine ⟨Nat.lt_succ_self _, ?_⟩
    rw [owner_insert]
    exact Function.update_self _ _ _
  | enterScope | leaveScope | insert | lookupIdent | ret => exact absurd hlast (Nat.not_lt_zero _)

theorem rootKnown_mem {table : Scopes.State} {expr : AExpr} (h : rootKnown table expr = true) {root : ℕ × Option ℕ}
    (hroot : CodeGen.rootLvalue expr = some root) : ⟨root.1, root.2, owner table.cur⟩ ∈ table.idents := by
  have hany := (Option.all_eq_true _ _).mp h root hroot
  obtain ⟨⟨definition, captureIndex, symbol⟩, hmem, hident⟩ := List.any_eq_true.mp hany
  simp only [Bool.and_eq_true, beq_iff_eq, decide_eq_true_eq] at hident
  obtain ⟨⟨rfl, rfl⟩, rfl⟩ := hident
  exact hmem

theorem inv_init {builtins : List (String × Symbol)}
    (h : ∀ name node type, (name, Scopes.Symbol.object node type) ∉ builtins) : Inv (State.init builtins) :=
  ⟨CaptureChains.inv_init h, nofun, nofun⟩

theorem inv_call {s : State} {event : Event} {call : Scopes.Event} {table : Scopes.State} (h : Inv s)
    (hcall : event.call = some call) (htable : Scopes.step s.table call = some table) :
    Inv { s with table, objects := addObjects s.objects (event.first s.table.fresh) event.nodes table.cur } := by
  have hkept := kept_step htable
  have hinv := CaptureChains.inv_step call h.table htable
  have hold {node : ℕ} {object : Object} (hobject : s.objects node = some object) : ObjectInv table node object :=
    (h.objects node object hobject).mono hkept
  refine ⟨hinv, fun node object hobject ↦ ?_, fun symbol expr hmem ↦ ?_⟩
  · change addObjects _ _ _ _ node = some object at hobject
    rw [addObjects] at hobject
    split at hobject
    · exact hold hobject
    · rename_i hfirst
      split at hobject
      · rename_i decl hnode
        cases hobject
        have hlast := (List.getElem?_eq_some_iff.mp hnode).1
        obtain ⟨hknown, hhome⟩ := declared_local hcall htable (Nat.le_of_not_lt hfirst) hlast
        exact ⟨hknown, hinv.scopes.wellScoped, hinv.scopes.bound, hhome⟩
      · exact hold hobject
  · obtain ⟨hglobal, hroot⟩ := h.returns symbol expr hmem
    exact ⟨hglobal, fun root hsome ↦ hkept.idents (hroot root hsome)⟩

theorem inv_step {s s' : State} (event : Event) (h : Inv s) (hstep : step s event = some s') : Inv s' := by
  cases event with
  | ret expr =>
    obtain ⟨⟨hglobal, hroot⟩, heq⟩ := Option.ite_none_right_eq_some.mp hstep
    cases heq
    refine ⟨h.table, h.objects, fun symbol expr' hmem ↦ ?_⟩
    rcases List.mem_cons.mp hmem with heq | hmem
    · cases heq
      exact ⟨hglobal, fun root hsome ↦ rootKnown_mem hroot hsome⟩
    · exact h.returns symbol expr' hmem
  | enterLambda params =>
    cases hstep
    exact inv_call h rfl rfl
  | enterScope | enterFunc | leaveScope | declare | insert | lookupIdent =>
    obtain ⟨table, htable, heq⟩ := Option.bind_eq_some_iff.mp hstep
    cases heq
    exact inv_call h rfl htable

theorem inv_of_reachable {s : State} (h : Reachable s) : Inv s := by
  obtain ⟨builtins, events, hbuiltins, hrun⟩ := h
  exact run_invariant (fun s event s' hinv hstep ↦ inv_step event hinv hstep) hrun (inv_init hbuiltins)

/-! ## What may be moved from -/

theorem owner_ne_global_of_func {outer : ℕ → Owner} {scopes : List Scope} (h : WellScoped outer scopes) {scope : Scope}
    (hfind : findNearest .func scopes = some scope) : owner scopes ≠ .global := by
  obtain ⟨hmem, htype⟩ := findNearest_mem hfind
  refine h.owner_ne_global (List.ne_nil_of_mem hmem) (Bool.eq_false_iff.mpr fun hns ↦ ?_)
  cases (h.namespace_all hns scope hmem).symm.trans htype

/-- An object that a body may move from is local to it, and is not a reference. -/
structure Local (s : State) (symbol : Owner) (definition : ℕ) : Prop where
  body : symbol ≠ .global
  home : s.table.home definition = symbol
  node : ∃ object, s.objects definition = some object ∧ object.node ≠ .funcParam .ref

theorem movable_eq_true {s : State} {symbol : Owner} {definition : ℕ} (h : movable s symbol definition = true) :
    ∃ object scope, s.objects definition = some object ∧ object.node ≠ .funcParam .ref ∧
      funcScope symbol = some scope ∧ canMoveReturn scope object = true := by
  obtain ⟨object', hget, h⟩ := Option.any_eq_true _ _ |>.mp h
  obtain ⟨object, hobject, hget⟩ := Option.bind_eq_some_iff.mp hget
  obtain ⟨scope, hscope, h⟩ := Option.any_eq_true _ _ |>.mp h
  refine ⟨object, scope, hobject, fun hnode ↦ ?_, hscope, ?_⟩
  · rw [getObject, hnode] at hget
    cases hget
  · have heq : object = object' := by
      rw [getObject] at hget
      split at hget
      · cases hget
      all_goals exact Option.some.inj hget
    exact heq ▸ h

/-- The scope chain tells lambdas, functions and namespaces apart for the objects that a body can name. -/
theorem local_of_movable {s : State} (h : Inv s) {definition : ℕ} {captureIndex : Option ℕ} {symbol : Owner}
    (hident : ⟨definition, captureIndex, symbol⟩ ∈ s.table.idents) (hmovable : movable s symbol definition = true) :
    captureIndex = none ∧ Local s symbol definition := by
  obtain ⟨object, scope, hobject, hnode, hscope, hmove⟩ := movable_eq_true hmovable
  have hinv := h.objects definition object hobject
  have hidents := h.table.captures.idents _ hident
  have hnearest : (findNearest scope.type object.scope).map Scope.symbol = some scope.symbol := beq_iff_eq.mp hmove
  cases symbol with
  | global => cases hscope
  | func f =>
    cases hscope
    have hnone : captureIndex = none := by
      cases hindex : captureIndex with
      | none => rfl
      | some c =>
        obtain ⟨lam, howner, -⟩ := hidents.captured c hindex
        cases howner
    obtain ⟨found, hfound, -⟩ := Option.map_eq_some_iff.mp hnearest
    have hglobal := owner_ne_global_of_func hinv.wellScoped hfound
    refine ⟨hnone, nofun, ?_, object, hobject, hnode⟩
    rcases hidents.direct hnone with hhome | hhome
    · exact absurd (hinv.home.symm.trans hhome) hglobal
    · exact hhome
  | lambda lam =>
    cases hscope
    have howner : owner object.scope = .lambda lam := hinv.wellScoped.nearest_eq_some.mp hnearest
    have hhome := hinv.home.trans howner
    refine ⟨?_, nofun, hhome, object, hobject, hnode⟩
    cases hindex : captureIndex with
    | none => rfl
    | some c =>
      obtain ⟨lam', howner', cap, hcap, hcapObject⟩ := hidents.captured c hindex
      cases howner'
      have hresolves := h.table.captures.sound.resolves lam c cap hcap
      have hlt := (h.table.scopes.home_of_resolves hresolves).2 lam (hcapObject ▸ hhome)
      exact absurd hlt (Nat.lt_irrefl lam)

end Stela.Semantic.Declarations
