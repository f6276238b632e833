import Stela.Library.ScopeChain
import Stela.Semantic.NameResolution
import Stela.Semantic.SymbolTable
import Stela.Semantic.TypeNames

/-!
# The models of the symbol table

The tables of a program are modelled with what is asked about them: with their overloads, with captures, with the
places of declarations, with the aliases of types. Each of the tables of `SymbolTable` is one of `Overloads`, and the
scopes that are entered and left are those of `Scopes`. What a name refers to there is what it refers to in
`NameResolution` and `TypeNames`.
-/

namespace Stela.Semantic.SymbolTable

open Stela.Syntax Library Overloads

/-! ## One table -/

/-- A scope as the table that overloads are looked up in. -/
def Scope.table (scope : Scope) : Overloads.Table := ⟨scope.type, scope.symbols⟩

/-- All tables are such that insertion alone leads to. -/
def TablesReachable (s : State) : Prop := ∀ scope ∈ s.scopes, Overloads.Reachable scope.table

theorem reachable_of_noFuncs {scope : Scope} (h : ∀ entry ∈ scope.symbols, isFunc entry.2 = false) :
    Overloads.Reachable scope.table :=
  ⟨scope.table, [], h, rfl⟩

theorem reachable_step {table table' : Overloads.Table} (h : Overloads.Reachable table) (event : Overloads.Event)
    (hstep : Overloads.step table event = some table') : Overloads.Reachable table' := by
  obtain ⟨initial, events, hinitial, hrun⟩ := h
  refine ⟨initial, events ++ [event], hinitial, ?_⟩
  rw [Machine.run_append, hrun]
  exact Machine.run_cons_eq_some.mpr ⟨table', hstep, rfl⟩

theorem reachable_addFunc {s : State} {name : String} {func : FuncSym} (h : Overloads.Reachable s.cur.table)
    (haccepts : AcceptsFunc s name func) : Overloads.Reachable (Scope.add name (.func func) s.cur).table := by
  obtain ⟨htype, hmethod, hparams, hret, hcollide⟩ := haccepts
  have hinsert : Overloads.insertFunc s.cur.table.type name func s.cur.table.symbols =
      .ok ((name, .func func) :: s.cur.symbols) := by
    change Overloads.insertFunc s.cur.type name func s.cur.symbols = _
    rw [Overloads.insertFunc, htype, hmethod, hparams, hret, hcollide]
    rfl
  refine reachable_step h (.insertFunc name func) ?_
  rw [Overloads.step, hinsert]
  rfl

theorem reachable_add {s : State} {name : String} {symbol : Symbol} (h : Overloads.Reachable s.cur.table)
    (hfunc : isFunc symbol = false) (hnew : (equalRange s.cur.symbols name).isEmpty = true) :
    Overloads.Reachable (Scope.add name symbol s.cur).table := by
  have hinsert : Overloads.insert name symbol s.cur.table.symbols = .ok ((name, symbol) :: s.cur.symbols) := by
    change Overloads.insert name symbol s.cur.symbols = _
    rw [Overloads.insert, hnew]
    rfl
  refine reachable_step h (.insert name symbol) ?_
  rw [Overloads.step, hfunc, if_neg Bool.false_ne_true, hinsert]
  rfl

theorem tablesReachable_cons {s : State} : TablesReachable s ↔
    Overloads.Reachable s.cur.table ∧ ∀ scope ∈ s.parents ++ s.left, Overloads.Reachable scope.table :=
  List.forall_mem_cons

theorem TablesReachable.updateCur {s : State} {f : Scope → Scope} (h : TablesReachable s)
    (hf : Overloads.Reachable (f s.cur).table) : TablesReachable (s.updateCur f) :=
  tablesReachable_cons.mpr ⟨hf, (tablesReachable_cons.mp h).2⟩

theorem TablesReachable.entered {s : State} (h : TablesReachable s) (type : Scopes.ScopeType) (params : List FuncParam) :
    TablesReachable (s.entered type params) := by
  refine tablesReachable_cons.mpr ⟨reachable_of_noFuncs fun entry hentry ↦ ?_, h⟩
  obtain ⟨param, -, rfl⟩ := List.mem_map.mp (List.mem_reverse.mp hentry)
  rfl

theorem reachable_empty (type : Scopes.ScopeType) : Overloads.Reachable ({ type } : Scope).table :=
  reachable_of_noFuncs fun _ hentry ↦ absurd hentry List.not_mem_nil

theorem TablesReachable.insert {s : State} {name : String} {symbol : Symbol} (h : TablesReachable s)
    (hfunc : isFunc symbol = false) : TablesReachable (exec (insert name symbol) s).2 := by
  cases hexec : (exec (SymbolTable.insert name symbol) s).1 with
  | error stop =>
    rw [(strong_insert name symbol s stop hexec).1]
    exact h
  | ok u =>
    rw [SymbolTable.insert, exec_get_bind] at hexec ⊢
    have hcheck := (ok_of_check_bind hexec).1
    rw [exec_check_bind hcheck]
    exact h.updateCur (reachable_add (tablesReachable_cons.mp h).1 hfunc (require_eq_ok.mp hcheck))

theorem tablesReachable_step {s : State} (event : Event) (h : TablesReachable s) : TablesReachable (exec (visit event) s).2 := by
  have hcur := (tablesReachable_cons.mp h).1
  cases event with
  | enterModule =>
    refine tablesReachable_cons.mpr ⟨reachable_empty .ns, fun scope hscope ↦ ?_⟩
    have hsplit := (s.cur :: s.parents).takeWhile_append_dropWhile (p := (·.type != .ns))
    apply h scope
    rw [State.scopes, ← List.cons_append, ← hsplit]
    simp only [visit, enterModule, exec_modify, List.mem_append] at hscope ⊢
    tauto
  | enterScope type => exact tablesReachable_cons.mpr ⟨reachable_empty type, h⟩
  | leaveScope =>
    simp only [visit, leaveScope, exec_modify]
    split
    · rename_i parent parents hparents
      split
      · exact h
      · intro scope hscope
        apply h scope
        simp only [State.scopes, hparents, List.mem_cons, List.mem_append] at hscope ⊢
        tauto
    · exact h
  | func node name receiver params ret =>
    by_cases haccepts : AcceptsFunc s name (funcSym node receiver params ret)
    · rw [exec_func haccepts]
      exact (h.updateCur (reachable_addFunc hcur haccepts)).entered .func _
    · obtain ⟨stop, hrefused⟩ := exec_insertGlobal_refused haccepts
      rw [visit, exec_bind_error hrefused]
      exact h
  | extFunc node name receiver params ret =>
    rw [visit]
    by_cases haccepts : AcceptsFunc s name { node, external := true, receiver, params, ret }
    · rw [exec_insertGlobal haccepts]
      exact h.updateCur (reachable_addFunc hcur haccepts)
    · obtain ⟨stop, hrefused⟩ := exec_insertGlobal_refused haccepts
      rw [hrefused]
      exact h
  | lambda params ret =>
    by_cases hvalid : validateRet ret = .ok () ∧ validateParams (params.map FuncParam.paramType) = .ok ()
    · rw [exec_lambda hvalid.1 hvalid.2]
      exact (h.updateCur hcur).entered .closure params
    · cases hexec : (exec (visit (.lambda params ret)) s).1 with
      | error stop =>
        rw [(strong_visit (.lambda params ret) s stop hexec).1]
        exact h
      | ok u =>
        obtain ⟨hret, hrest⟩ := ok_of_check_bind hexec
        exact absurd ⟨hret, (ok_of_check_bind hrest).1⟩ hvalid
  | object name node etype => exact h.insert rfl
  | typeAlias name type =>
    rw [visit]
    cases htype : validateType type with
    | error stop =>
      rw [exec_bind_error (exec_check _ s)]
      exact h
    | ok u =>
      rw [exec_check_bind rfl]
      exact h.insert rfl
  | setRet node ret nodeRet =>
    intro scope hscope
    change scope ∈ setRet node ret nodeRet s.cur ::
      (s.parents.map (setRet node ret nodeRet) ++ s.left.map (setRet node ret nodeRet)) at hscope
    rw [← List.map_append, ← List.map_cons] at hscope
    obtain ⟨before, hbefore, rfl⟩ := List.mem_map.mp hscope
    exact reachable_step (h before hbefore) (.setRet node ret nodeRet) rfl

/-- Every table of a run is one in which overloads are looked up: its results hold of all the scopes of a program. -/
theorem run_tablesReachable {s : State} {events : List Event} (hrun : Machine.run step initModules events = some s) :
    TablesReachable s := by
  have hstart : TablesReachable initModules := by
    intro scope hscope
    cases List.mem_singleton.mp hscope
    refine reachable_of_noFuncs fun entry hentry ↦ ?_
    change entry ∈ makeBuiltinModule.symbols at hentry
    simp only [makeBuiltinModule, List.mem_append, List.mem_map] at hentry
    rcases hentry with ⟨_, -, rfl⟩ | ⟨_, -, rfl⟩ <;> rfl
  refine Machine.run_invariant (fun s event s' h hstep ↦ ?_) hrun hstart
  cases hstep
  exact tablesReachable_step event h

/-! ## The chain of scopes -/

/-- What a symbol is, up to the numbers of nodes. -/
inductive Kind where
  | object (type : Ty)
  | func
  | btnFunc
  | typeAlias
  | lambda

def kind : Symbol → Kind
  | .object _ etype _ => .object etype.type
  | .func _ => .func
  | .btnFunc _ => .btnFunc
  | .typeAlias => .typeAlias

def kindInScopes : Scopes.Symbol → Kind
  | .object _ type => .object type
  | .func => .func
  | .lambda => .lambda
  | .typeAlias => .typeAlias
  | .btnFunc => .btnFunc

/-- The scopes bind the same names; lambdas are symbols in one of them only. -/
structure SameScope (scope : Scope) (scope' : Scopes.Scope) : Prop where
  type : scope'.type = scope.type
  names : ∀ name, name ≠ "$lambda" →
    (Scopes.find scope' name).map kindInScopes = (equalRange scope.symbols name).head?.map kind

/-- The current scope and its parents are the same; the last of them is a namespace. -/
structure SameScopes (s : State) (t : Scopes.State) : Prop where
  chain : List.Forall₂ SameScope (s.cur :: s.parents) t.cur
  outermost : ((s.cur :: s.parents).getLast (List.cons_ne_nil _ _)).type = .ns

/-- What an event of the analysis is for the scopes. -/
def scopeEvents : Event → List Scopes.Event
  | .enterModule | .setRet _ _ _ => []
  | .enterScope type => [.enterScope type]
  | .leaveScope => [.leaveScope]
  | .func _ name receiver params _ =>
      [.insert name .func, .enterFunc ((params ++ receiver.toList).map fun param ↦ (param.name, param.type))]
  | .extFunc _ name _ _ _ => [.insert name .func]
  | .lambda params _ => [.enterLambda (params.map fun param ↦ (param.name, param.type))]
  | .object name _ etype => [.insertObject name etype.type]
  | .typeAlias name _ => [.insert name .typeAlias]

theorem findScope_eq (name : String) (scopes : List Scopes.Scope) :
    Scopes.findScope name scopes = lookupChain (Scopes.find · name) scopes := by
  induction scopes with
  | nil => rfl
  | cons scope parents ih =>
    unfold Scopes.findScope lookupChain
    rw [ih]
    cases Scopes.find scope name <;> rfl

/-- A name is bound by the same of the scopes, to the same kind of symbol. -/
theorem SameScopes.lookup {s : State} {t : Scopes.State} (h : SameScopes s t) {name : String} (hname : name ≠ "$lambda") :
    Option.Rel (fun found found' ↦ kind found.1 = kindInScopes found'.1 ∧ List.Forall₂ SameScope found.2 found'.2)
      (lookupChain (fun scope ↦ (equalRange scope.symbols name).head?) (s.cur :: s.parents)) (Scopes.findScope name t.cur) := by
  have hfind (scope : Scope) (scope' : Scopes.Scope) (hscope : SameScope scope scope') :
      Option.Rel (fun symbol symbol' ↦ kind symbol = kindInScopes symbol') (equalRange scope.symbols name).head?
        (Scopes.find scope' name) := by
    have hnames := hscope.names name hname
    cases hfind : Scopes.find scope' name with
    | none =>
      rw [hfind] at hnames
      rw [Option.map_eq_none_iff.mp hnames.symm]
      exact .none
    | some symbol' =>
      rw [hfind] at hnames
      obtain ⟨symbol, hsymbol, hkind⟩ := Option.map_eq_some_iff.mp hnames.symm
      rw [hsymbol]
      exact .some hkind
  rw [findScope_eq]
  exact lookupChain_rel hfind h.chain

theorem SameScope.add {scope : Scope} {scope' : Scopes.Scope} (h : SameScope scope scope') {name : String} {symbol : Symbol}
    {symbol' : Scopes.Symbol} (hkind : kindInScopes symbol' = kind symbol) :
    SameScope (Scope.add name symbol scope) { scope' with table := (name, symbol') :: scope'.table } := by
  refine ⟨h.type, fun other hother ↦ ?_⟩
  rw [Scope.add, equalRange_cons, Scopes.find, List.lookup_cons]
  by_cases heq : name = other
  · rw [if_pos heq, heq, beq_self_eq_true]
    exact congrArg some hkind
  · rw [if_neg heq, beq_eq_false_iff_ne.mpr (Ne.symm heq)]
    exact h.names other hother

/-- The symbol of a lambda has no name of a program. -/
theorem SameScope.addLambda {scope : Scope} {scope' : Scopes.Scope} (h : SameScope scope scope') :
    SameScope { scope with lambdas := scope.lambdas + 1 } { scope' with table := ("$lambda", .lambda) :: scope'.table } := by
  refine ⟨h.type, fun other hother ↦ ?_⟩
  rw [Scopes.find, List.lookup_cons, beq_eq_false_iff_ne.mpr hother]
  exact h.names other hother

theorem sameScope_empty (type : Scopes.ScopeType) : SameScope { type } { type } := ⟨rfl, fun _ _ ↦ rfl⟩

theorem kind_setRet (node : ℕ) (ret nodeRet : Option Ty) (symbol : Symbol) :
    kind (Overloads.setRet node ret nodeRet symbol) = kind symbol := by
  cases symbol with
  | func func =>
    rw [Overloads.setRet]
    split <;> rfl
  | object | btnFunc | typeAlias => rfl

theorem SameScope.setRet {scope : Scope} {scope' : Scopes.Scope} (h : SameScope scope scope') (node : ℕ)
    (ret nodeRet : Option Ty) : SameScope (SymbolTable.setRet node ret nodeRet scope) scope' := by
  refine ⟨h.type, fun name hname ↦ ?_⟩
  rw [SymbolTable.setRet, equalRange_map, List.head?_map, Option.map_map, h.names name hname]
  exact congrArg (Option.map · _) (funext fun symbol ↦ (kind_setRet node ret nodeRet symbol).symm)

theorem equalRange_paramEntries_cons (param : FuncParam) (params : List FuncParam) (name : String) :
    equalRange (paramEntries (param :: params)) name = equalRange (paramEntries params) name ++
      if param.name = name then [.object param.node (convert param.paramType) none] else [] := by
  by_cases heq : param.name = name <;> simp [paramEntries, equalRange, heq]

theorem equalRange_paramEntries_nil {params : List FuncParam} {name : String} (h : name ∉ params.map FuncParam.name) :
    equalRange (paramEntries params) name = [] := by
  refine List.eq_nil_iff_forall_not_mem.mpr fun symbol hsymbol ↦ h ?_
  obtain ⟨param, hparam, heq⟩ := List.mem_map.mp (List.mem_reverse.mp (mem_equalRange.mp hsymbol))
  exact List.mem_map.mpr ⟨param, hparam, congrArg Prod.fst heq⟩

/-- With different names it does not matter which parameter is inserted first. -/
theorem names_params (name : String) : (params : List FuncParam) → (params.map FuncParam.name).Nodup → (node : ℕ) →
    ((Scopes.makeParams node (params.map fun param ↦ (param.name, param.type))).lookup name).map kindInScopes =
      (equalRange (paramEntries params) name).head?.map kind
  | [], _, _ => rfl
  | param :: params, hnodup, node => by
    obtain ⟨hnot, hnodup⟩ := List.nodup_cons.mp hnodup
    rw [List.map_cons, Scopes.makeParams, List.lookup_cons, equalRange_paramEntries_cons]
    by_cases heq : param.name = name
    · subst heq
      rw [equalRange_paramEntries_nil hnot, beq_self_eq_true, if_pos rfl]
      rfl
    · rw [beq_eq_false_iff_ne.mpr (Ne.symm heq), if_neg heq, List.append_nil]
      exact names_params name params hnodup (node + 1)

theorem sameScope_params {params : List FuncParam} (hnodup : (params.map FuncParam.name).Nodup) (type : Scopes.ScopeType)
    (symbol node : ℕ) : SameScope { type, symbols := paramEntries params }
      { type, symbol, table := Scopes.makeParams node (params.map fun param ↦ (param.name, param.type)) } :=
  ⟨rfl, fun name _ ↦ names_params name params hnodup node⟩

theorem SameScopes.cons {s : State} {t : Scopes.State} (h : SameScopes s t) {scope : Scope} {scope' : Scopes.Scope}
    (hscope : SameScope scope scope') {t' : Scopes.State} (ht' : t'.cur = scope' :: t.cur) :
    SameScopes { s with cur := scope, parents := s.cur :: s.parents } t' := by
  refine ⟨ht' ▸ .cons hscope h.chain, ?_⟩
  rw [List.getLast_cons (List.cons_ne_nil _ _)]
  exact h.outermost

/-- A change of the current scope that keeps its type. -/
theorem SameScopes.updateCur {s : State} {t t' : Scopes.State} (h : SameScopes s t) {f : Scope → Scope}
    {f' : Scopes.Scope → Scopes.Scope} (hf : ∀ scope', SameScope s.cur scope' → SameScope (f s.cur) (f' scope'))
    (htype : (f s.cur).type = s.cur.type) (ht' : ∀ scope' parents, t.cur = scope' :: parents → t'.cur = f' scope' :: parents) :
    SameScopes (s.updateCur f) t' := by
  obtain ⟨scope', parents', hhead, htail, hcur⟩ := List.forall₂_cons_left_iff.mp h.chain
  refine ⟨ht' scope' parents' hcur ▸ .cons (hf scope' hhead) htail, ?_⟩
  have hlast := h.outermost
  change ((f s.cur :: s.parents).getLast (List.cons_ne_nil _ _)).type = .ns
  cases hparents : s.parents with
  | nil =>
    simp only [hparents] at hlast ⊢
    exact htype.trans hlast
  | cons parent parents =>
    simp only [hparents] at hlast ⊢
    exact hlast

theorem SameScopes.enter {s : State} {t : Scopes.State} (h : SameScopes s t) {params : List FuncParam}
    (hnodup : (params.map FuncParam.name).Nodup) (type : Scopes.ScopeType) :
    SameScopes (s.entered type params) (t.enter type (params.map fun param ↦ (param.name, param.type))) :=
  h.cons (sameScope_params hnodup type _ _) rfl

/-- A symbol is inserted into both. -/
theorem SameScopes.insert {s : State} {t t' : Scopes.State} (h : SameScopes s t) {name : String} {symbol : Symbol}
    {symbol' : Scopes.Symbol} (hkind : kindInScopes symbol' = kind symbol) (ht' : t'.cur = Scopes.insert name symbol' t.cur) :
    SameScopes (s.updateCur (Scope.add name symbol)) t' := by
  refine h.updateCur (fun scope' hscope ↦ hscope.add hkind) rfl fun scope' parents hcur ↦ ?_
  rw [ht', hcur]
  rfl

theorem exec_insert_ok {s : State} {name : String} {symbol : Symbol} (hok : (exec (insert name symbol) s).1 = .ok ()) :
    (exec (insert name symbol) s).2 = s.updateCur (Scope.add name symbol) := by
  rw [insert, exec_get_bind] at hok ⊢
  rw [exec_check_bind (ok_of_check_bind hok).1]
  rfl

theorem SameScopes.leaveScope {s : State} {t : Scopes.State} (h : SameScopes s t) (hns : Scopes.isNamespace t.cur = false) :
    SameScopes (exec (visit .leaveScope) s).2 { t with cur := t.cur.tail } := by
  obtain ⟨scope', parents', hhead, htail, hcur⟩ := List.forall₂_cons_left_iff.mp h.chain
  have htype : s.cur.type ≠ .ns := by
    intro heq
    rw [hcur, Scopes.isNamespace, hhead.type, heq] at hns
    cases hns
  have hlast := h.outermost
  simp only [visit, SymbolTable.leaveScope, exec_modify]
  cases hparents : s.parents with
  | nil =>
    simp only [hparents] at hlast
    exact absurd hlast htype
  | cons parent parents =>
    simp only [hparents, if_neg htype] at hlast htail ⊢
    refine ⟨?_, hlast⟩
    rw [hcur]
    exact htail

/-- What both do on an event that the analysis accepts. -/
theorem sameScopes_visit {s : State} {t t' : Scopes.State} (h : SameScopes s t) {event : Event} (hmodule : event ≠ .enterModule)
    (hparams : ParamsDistinct s event) (hok : (exec (visit event) s).1 = .ok ())
    (hrun : Machine.run Scopes.step t (scopeEvents event) = some t') : SameScopes (exec (visit event) s).2 t' := by
  cases event with
  | enterModule => exact absurd rfl hmodule
  | enterScope type =>
    obtain ⟨t₁, hstep, hrun⟩ := Machine.run_cons_eq_some.mp hrun
    cases hrun
    obtain ⟨-, heq⟩ := Option.ite_none_right_eq_some.mp hstep
    cases heq
    exact h.cons (sameScope_empty type) rfl
  | leaveScope =>
    obtain ⟨t₁, hstep, hrun⟩ := Machine.run_cons_eq_some.mp hrun
    cases hrun
    obtain ⟨hns, heq⟩ := Option.ite_none_left_eq_some.mp hstep
    cases heq
    exact h.leaveScope (Bool.eq_false_of_not_eq_true hns)
  | func node name receiver params ret =>
    obtain ⟨t₁, hinsert, hrun⟩ := Machine.run_cons_eq_some.mp hrun
    obtain ⟨t₂, henter, hrun⟩ := Machine.run_cons_eq_some.mp hrun
    cases hrun
    cases hinsert
    obtain ⟨-, heq⟩ := Option.ite_none_right_eq_some.mp henter
    cases heq
    have haccepts : AcceptsFunc s name (funcSym node receiver params ret) := by
      by_contra hrefused
      obtain ⟨stop, hstop⟩ := exec_insertGlobal_refused hrefused
      rw [visit, exec_bind_error hstop] at hok
      cases hok
    rw [exec_func haccepts]
    exact SameScopes.enter (h.insert rfl rfl) (hparams haccepts) .func
  | extFunc node name receiver params ret =>
    obtain ⟨t₁, hinsert, hrun⟩ := Machine.run_cons_eq_some.mp hrun
    cases hrun
    cases hinsert
    rw [visit, exec_insertGlobal (acceptsFunc_of_ok hok)]
    exact h.insert rfl rfl
  | lambda params ret =>
    obtain ⟨t₁, henter, hrun⟩ := Machine.run_cons_eq_some.mp hrun
    cases hrun
    cases henter
    obtain ⟨hret, hrest⟩ := ok_of_check_bind hok
    have hvalid := (ok_of_check_bind hrest).1
    rw [exec_lambda hret hvalid]
    have hinserted : SameScopes (s.updateCur fun scope ↦ { scope with lambdas := scope.lambdas + 1 })
        { t with cur := Scopes.insert "$lambda" .lambda t.cur } := by
      refine h.updateCur (fun scope' hscope ↦ hscope.addLambda) rfl fun scope' parents hcur ↦ ?_
      rw [hcur]
      rfl
    have hentered := hinserted.enter (hparams hret hvalid) .closure
    exact ⟨hentered.chain, hentered.outermost⟩
  | object name node etype =>
    obtain ⟨t₁, hinsert, hrun⟩ := Machine.run_cons_eq_some.mp hrun
    cases hrun
    obtain ⟨-, heq⟩ := Option.ite_none_left_eq_some.mp hinsert
    cases heq
    rw [visit, exec_insert_ok hok]
    exact h.insert rfl rfl
  | typeAlias name type =>
    obtain ⟨t₁, hinsert, hrun⟩ := Machine.run_cons_eq_some.mp hrun
    cases hrun
    cases hinsert
    rw [visit] at hok ⊢
    obtain ⟨htype, hok⟩ := ok_of_check_bind hok
    rw [exec_check_bind htype, exec_insert_ok hok]
    exact h.insert rfl rfl
  | setRet node ret nodeRet =>
    cases hrun
    refine ⟨?_, ?_⟩
    · change List.Forall₂ SameScope ((s.cur :: s.parents).map (setRet node ret nodeRet)) t.cur
      exact List.forall₂_map_left_iff.mpr (h.chain.imp fun _ _ hscope ↦ hscope.setRet node ret nodeRet)
    · have hne : (s.cur :: s.parents).map (setRet node ret nodeRet) ≠ [] := List.cons_ne_nil _ _
      exact (congrArg Scope.type (List.getLast_map hne)).trans h.outermost

/-- The tables after an event that the analysis accepts. -/
def accept (s : State) (event : Event) : Option State := if (exec (visit event) s).1 = .ok () then some (exec (visit event) s).2 else none

/-- The scopes of a module, in which names are looked up with their captures, are those of the tables, as long as no
function or lambda has two parameters of one name. -/
theorem run_sameScopes {events : List Event} {s s' : State} {t t' : Scopes.State} (h : SameScopes s t)
    (hmodule : ∀ event ∈ events, event ≠ .enterModule) (hparams : Machine.RunMeets accept ParamsDistinct s events)
    (hrun : Machine.run accept s events = some s') (hrun' : Machine.run Scopes.step t (events.flatMap scopeEvents) = some t') :
    SameScopes s' t' := by
  induction events generalizing s t with
  | nil =>
    cases hrun
    cases hrun'
    exact h
  | cons event events ih =>
    obtain ⟨s₁, hstep, hrun⟩ := Machine.run_cons_eq_some.mp hrun
    rw [List.flatMap_cons, Machine.run_append] at hrun'
    obtain ⟨t₁, hfirst, hrun'⟩ := Option.bind_eq_some_iff.mp hrun'
    obtain ⟨hok, heq⟩ := Option.ite_none_right_eq_some.mp hstep
    have hsame := sameScopes_visit h (hmodule event List.mem_cons_self) hparams.1 hok hfirst
    rw [Option.some.inj heq] at hsame
    exact ih hsame (fun event' hevent ↦ hmodule event' (List.mem_cons_of_mem _ hevent)) (hparams.2 s₁ hstep) hrun hrun'

def inScopes : Symbol → Scopes.Symbol
  | .object node etype _ => .object node etype.type
  | .func _ => .func
  | .btnFunc _ => .btnFunc
  | .typeAlias => .typeAlias

theorem names_inScopes (name : String) : (symbols : List (String × Symbol)) →
    ((symbols.map fun entry ↦ (entry.1, inScopes entry.2)).lookup name).map kindInScopes = (equalRange symbols name).head?.map kind
  | [] => rfl
  | (name', symbol) :: symbols => by
    rw [List.map_cons, List.lookup_cons, equalRange_cons]
    by_cases heq : name' = name
    · rw [if_pos heq, heq, beq_self_eq_true]
      cases symbol <;> rfl
    · rw [if_neg heq, beq_eq_false_iff_ne.mpr (Ne.symm heq)]
      exact names_inScopes name symbols

/-- A module begins with the same scopes in both. -/
theorem sameScopes_init : SameScopes (exec (visit .enterModule) initModules).2
    (Scopes.State.init (makeBuiltinModule.symbols.map fun entry ↦ (entry.1, inScopes entry.2))) := by
  have hbuiltin : SameScope makeBuiltinModule
      { type := .ns, table := makeBuiltinModule.symbols.map fun entry ↦ (entry.1, inScopes entry.2) } :=
    ⟨rfl, fun name _ ↦ names_inScopes name makeBuiltinModule.symbols⟩
  exact ⟨.cons (sameScope_empty .ns) (.cons hbuiltin .nil), rfl⟩

end Stela.Semantic.SymbolTable

namespace Stela.Semantic.NameResolution

open Stela.Syntax Library

/-! ## The scopes of a body -/

/-- Both are objects, or neither is. -/
def SameEntry (entry : Entry) (symbol : Scopes.Symbol) : Prop :=
  (∃ site, entry = .object site) ↔ ∃ node type, symbol = .object node type

/-- The scopes bind the same names, and the same of them to objects. -/
structure SameTable (scope : Scope) (scope' : Scopes.Scope) : Prop where
  type : scope.type = scope'.type
  names : ∀ name, Option.Rel SameEntry (scope.table.lookup name) (Scopes.find scope' name)

section Names

variable {name : String} {entry : Entry} {symbol : Scopes.Symbol}

theorem SameTable.add {scope : Scope} {scope' : Scopes.Scope} (h : SameTable scope scope') (hsame : SameEntry entry symbol) :
    SameTable { scope with table := (name, entry) :: scope.table } { scope' with table := (name, symbol) :: scope'.table } := by
  refine ⟨h.type, fun other ↦ ?_⟩
  rw [List.lookup_cons, Scopes.find, List.lookup_cons]
  cases other == name with
  | true => exact .some hsame
  | false => exact h.names other

/-- An insertion, which only one of them checks. -/
theorem insert_sameTables {scopes scopes₁ : List Scope} {scopes' : List Scopes.Scope} (h : List.Forall₂ SameTable scopes scopes')
    (hsame : SameEntry entry symbol) (hok : insert name entry scopes = .ok scopes₁) :
    List.Forall₂ SameTable scopes₁ (Scopes.insert name symbol scopes') := by
  cases h with
  | nil => cases hok
  | cons hhead htail =>
    obtain ⟨_, -, hok⟩ := Except.bind_eq_ok.mp hok
    cases hok
    exact .cons (hhead.add hsame) htail

/-- The parameters of a function or lambda. -/
theorem sameTable_params (type : Scopes.ScopeType) (number node : ℕ) (params : List (String × Ty)) :
    SameTable ⟨type, paramEntries (params.map Prod.fst)⟩ { type, symbol := number, table := Scopes.makeParams node params } := by
  refine ⟨rfl, fun name ↦ ?_⟩
  have hparams : ∀ (params : List (String × Ty)) (i node : ℕ), Option.Rel SameEntry
      ((((params.map Prod.fst).zipIdx i).map fun param ↦ (param.1, Entry.object (.param param.2))).lookup name)
      ((Scopes.makeParams node params).lookup name) := by
    intro params
    induction params with
    | nil => exact fun _ _ ↦ .none
    | cons param params ih =>
      intro i node
      rw [List.map_cons, List.zipIdx_cons, List.map_cons, List.lookup_cons, Scopes.makeParams, List.lookup_cons]
      cases name == param.1 with
      | true => exact .some (iff_of_true ⟨_, rfl⟩ ⟨_, _, rfl⟩)
      | false => exact ih (i + 1) (node + 1)
  exact hparams params 0 node

/-- A name is found in the same scope, and the number that is counted is that of the lambdas that are left. -/
theorem findScope_sameTables {scopes : List Scope} {scopes' : List Scopes.Scope} (h : List.Forall₂ SameTable scopes scopes') :
    Option.Rel (fun found found' ↦ SameEntry found.2 found'.1 ∧
        ∃ left, scopes' = left ++ found'.2 ∧ found.1 = left.countP fun scope ↦ decide (scope.type = .closure))
      (findScope name scopes) (Scopes.findScope name scopes') := by
  induction h with
  | nil => exact .none
  | @cons scope scope' scopes scopes' hhead htail ih =>
    have hnames := hhead.names name
    unfold findScope Scopes.findScope
    cases hentry : scope.table.lookup name with
    | some entry =>
      rw [hentry] at hnames
      cases hsymbol : Scopes.find scope' name with
      | none =>
        rw [hsymbol] at hnames
        cases hnames
      | some symbol =>
        rw [hsymbol] at hnames
        cases hnames with
        | some hsame => exact .some ⟨hsame, [], rfl, rfl⟩
    | none =>
      rw [hentry] at hnames
      cases hsymbol : Scopes.find scope' name with
      | some symbol =>
        rw [hsymbol] at hnames
        cases hnames
      | none =>
        cases hfound : findScope name scopes with
        | none =>
          rw [hfound] at ih
          cases hfound' : Scopes.findScope name scopes' with
          | none => exact .none
          | some found' =>
            rw [hfound'] at ih
            cases ih
        | some found =>
          rw [hfound] at ih
          cases hfound' : Scopes.findScope name scopes' with
          | none =>
            rw [hfound'] at ih
            cases ih
          | some found' =>
            rw [hfound'] at ih
            cases ih with
            | some hrel =>
              obtain ⟨hsame, left, hleft, hcount⟩ := hrel
              refine .some ⟨hsame, scope' :: left, congrArg (scope' :: ·) hleft, ?_⟩
              rw [List.countP_cons, ← hcount, ← hhead.type]
              by_cases hclosure : scope.type = .closure <;> simp [hclosure]

end Names

end Stela.Semantic.NameResolution

namespace Stela.Semantic.TypeNames

open Stela.Syntax Library

/-! ## The names of types -/

/-- Both are aliases of types, or neither is. -/
def SameAlias (symbol : Symbol) (symbol' : Scopes.Symbol) : Prop := (∃ decl, symbol = .typeAlias decl) ↔ symbol' = .typeAlias

/-- The scopes bind the same names, and the same of them to types. -/
def SameNames (scope : Scope) (scope' : Scopes.Scope) : Prop :=
  ∀ name, Option.Rel SameAlias (scope.lookup name) (Scopes.find scope' name)

section Names

variable {id : ℕ} {name : String} {scopes : List Scope} {scopes' : List Scopes.Scope} {tables : Tables}

theorem exec_lookupTypeImpl : exec (lookupTypeImpl id name scopes) tables =
    match lookupChain (·.lookup name) scopes with
    | some (.typeAlias decl, _) => (.ok decl, setDefinition id decl tables)
    | some (.other, _) => (.error (.fatal s!"The name \"{name}\" does not refer to a type"), tables)
    | none => (.error (.fatal s!"Expected type name but found \"{name}\""), tables) := by
  induction scopes with
  | nil => rfl
  | cons scope parents ih =>
    unfold lookupTypeImpl lookupChain
    cases scope.lookup name with
    | none => exact ih
    | some symbol =>
      cases symbol with
      | typeAlias decl => rfl
      | other => rfl

/-- A name of a type is looked up where it is the name of a type, in the nearest scope that binds it. -/
theorem lookupTypeImpl_iff (h : List.Forall₂ SameNames scopes scopes') :
    (∃ decl, (exec (lookupTypeImpl id name scopes) tables).1 = .ok decl) ↔
      ∃ found, Scopes.findScope name scopes' = some (.typeAlias, found) := by
  have hfind : ∀ (scope : Scope) (scope' : Scopes.Scope), SameNames scope scope' →
      Option.Rel SameAlias (scope.lookup name) (Scopes.find scope' name) := fun _ _ hscope ↦ hscope name
  have hrel := lookupChain_rel hfind h
  rw [← SymbolTable.findScope_eq] at hrel
  rw [exec_lookupTypeImpl]
  cases hfound' : Scopes.findScope name scopes' with
  | none =>
    rw [hfound'] at hrel
    cases hfound : lookupChain (·.lookup name) scopes with
    | none => simp
    | some found =>
      rw [hfound] at hrel
      cases hrel
  | some found' =>
    obtain ⟨symbol', left'⟩ := found'
    rw [hfound'] at hrel
    cases hfound : lookupChain (·.lookup name) scopes with
    | none =>
      rw [hfound] at hrel
      cases hrel
    | some found =>
      obtain ⟨symbol, left⟩ := found
      rw [hfound] at hrel
      cases hrel with
      | some hboth =>
        obtain ⟨hsame, -⟩ := hboth
        cases symbol with
        | typeAlias decl =>
          have hsymbol : symbol' = .typeAlias := hsame.mp ⟨decl, rfl⟩
          subst hsymbol
          exact iff_of_true ⟨decl, rfl⟩ ⟨left', rfl⟩
        | other =>
          refine iff_of_false ?_ ?_
          · rintro ⟨decl, hdecl⟩
            cases hdecl
          · rintro ⟨_, hleft⟩
            cases hleft
            obtain ⟨decl, hdecl⟩ := hsame.mpr rfl
            cases hdecl

theorem SameNames.add {scope : Scope} {scope' : Scopes.Scope} (h : SameNames scope scope') {symbol : Symbol}
    {symbol' : Scopes.Symbol} (hsame : SameAlias symbol symbol') :
    SameNames ((name, symbol) :: scope) { scope' with table := (name, symbol') :: scope'.table } := by
  intro other
  rw [List.lookup_cons, Scopes.find, List.lookup_cons]
  cases other == name with
  | true => exact .some hsame
  | false => exact h other

end Names

end Stela.Semantic.TypeNames
