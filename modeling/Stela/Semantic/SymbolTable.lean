import Stela.Library.StrongGuarantee
import Stela.Semantic.Overloads

/-!
# Symbol tables

The tables of all the scopes that semantic analysis makes, and everything that puts a symbol into one of
them: `scope insert.cpp`, `makeBuiltinModule`, and the visits of `traverse.cpp` and `infer type.cpp` that
call them. An operation that throws keeps the tables as they were when it threw. Warnings about shadowed
names are left out, and the symbols called "$lambda", which no name of a program refers to, are only counted.
-/

namespace Stela.Semantic.SymbolTable

open Stela.Syntax Library Overloads

/-! ## Scopes -/

/-- `ast::FuncParam`; a receiver is one as well. -/
structure FuncParam where
  node : ℕ
  name : String
  ref : ParamRef
  type : Ty

def FuncParam.paramType (param : FuncParam) : ParamRef × Ty := (param.ref, param.type)

structure Scope where
  type : Scopes.ScopeType
  symbols : List (String × Symbol) := []
  lambdas : ℕ := 0

/-- The current scope, its parents from the inside out, and the scopes that have been left. -/
structure State where
  cur : Scope
  parents : List Scope := []
  left : List Scope := []

def State.scopes (s : State) : List Scope := s.cur :: (s.parents ++ s.left)

/-- The names of types in the builtin scope. -/
def builtinTypes : List String := ["opaq", "bool", "byte", "char", "real", "sint", "uint"]

/-- The names of functions in the builtin scope. -/
def builtinFuncs : List (String × BtnFunc) :=
  [("capacity", .capacity), ("size", .size), ("data", .data), ("push_back", .push_back), ("append", .append),
    ("pop_back", .pop_back), ("resize", .resize), ("reserve", .reserve)]

def makeBuiltinModule : Scope where
  type := .ns
  symbols := builtinTypes.map (fun name ↦ (name, .typeAlias)) ++ builtinFuncs.map fun (name, func) ↦ (name, .btnFunc func)

/-- `initModules`. -/
def initModules : State where
  cur := makeBuiltinModule

/-! ## Insertion -/

/-- A part of the analysis: when it throws, the tables stay as they are at that moment. -/
abbrev Analysis := ExceptT Stop (StateM State)

def State.updateCur (f : Scope → Scope) (s : State) : State :=
  { s with cur := f s.cur }

def Scope.add (name : String) (symbol : Symbol) (scope : Scope) : Scope :=
  { scope with symbols := (name, symbol) :: scope.symbols }

/-- `table.insert` on the current scope. -/
def tableInsert (name : String) (symbol : Symbol) : Analysis Unit :=
  modify (State.updateCur (Scope.add name symbol))

/-- `insert` of a variable, a constant or a type alias. -/
def insert (name : String) (symbol : Symbol) : Analysis Unit := do
  let s ← get
  check (require (equalRange s.cur.symbols name).isEmpty s!"Redefinition of symbol \"{name}\"")
  tableInsert name symbol

/-- `insertFunc`. -/
def insertFunc (name : String) (func : FuncSym) : Analysis Unit := do
  -- `convertParams` and `convertNullable`
  check (validateParams (func.receiver.toList ++ func.params))
  check (validateRet func.ret)
  let s ← get
  check (checkFuncCollide name func (equalRange s.cur.symbols name))
  tableInsert name (.func func)

/-- `insert` of a function or an external function, which have different messages. -/
def insertGlobal (message name : String) (func : FuncSym) : Analysis Unit := do
  let s ← get
  check (require (s.cur.type == .ns) message)
  check (checkMethodCollide name func.receiver)
  insertFunc name func

/-- `insert` of a lambda. -/
def insertLambda (params : List FuncParam) (ret : Option Ty) : Analysis Unit := do
  check (validateParams (params.map FuncParam.paramType))
  check (validateRet ret)
  modify (State.updateCur fun scope ↦ { scope with lambdas := scope.lambdas + 1 })

/-- `makeParam` for each parameter, without a look at the table. -/
def insertParams : List FuncParam → Analysis Unit
  | [] => return
  | param :: params => do
      tableInsert param.name (.object param.node (convert param.paramType) none)
      insertParams params

def enterFuncScope (receiver : Option FuncParam) (params : List FuncParam) : Analysis Unit := do
  insertParams params
  insertParams receiver.toList

def enterLambdaScope (params : List FuncParam) : Analysis Unit :=
  insertParams params

/-! ## Scopes as the analysis enters and leaves them -/

def enterScope (type : Scopes.ScopeType) : Analysis Unit :=
  modify fun s ↦ { s with cur := { type }, parents := s.cur :: s.parents }

/-- The scope of a module is not left. -/
def leaveScope : Analysis Unit :=
  modify fun s ↦ match s.parents with
    | parent :: parents =>
        if s.cur.type = .ns then s else { cur := parent, parents, left := s.cur :: s.left }
    | [] => s

/-- A module is entered in the global scope of the module before, which may have been given up half way. -/
def enterModule : Analysis Unit :=
  modify fun s ↦ {
    cur := { type := .ns }
    parents := (s.cur :: s.parents).dropWhile (·.type != .ns)
    left := (s.cur :: s.parents).takeWhile (·.type != .ns) ++ s.left }

/-- The symbol of a function when it is inserted. -/
def funcSym (node : ℕ) (receiver : Option FuncParam) (params : List FuncParam) (ret : Option Ty) : FuncSym where
  node := node
  receiver := receiver.map FuncParam.paramType
  params := params.map FuncParam.paramType
  ret := ret

/-- A return type has been inferred, or a body has been left. -/
def setRet (node : ℕ) (ret nodeRet : Option Ty) (scope : Scope) : Scope :=
  { scope with symbols := scope.symbols.map fun entry ↦ (entry.1, Overloads.setRet node ret nodeRet entry.2) }

/-- What the analysis of a program does to the tables. -/
inductive Event where
  | enterModule
  | enterScope (type : Scopes.ScopeType)
  | leaveScope
  | func (node : ℕ) (name : String) (receiver : Option FuncParam) (params : List FuncParam) (ret : Option Ty)
  | extFunc (node : ℕ) (name : String) (receiver : Option (ParamRef × Ty)) (params : List (ParamRef × Ty))
      (ret : Option Ty)
  | lambda (params : List FuncParam) (ret : Option Ty)
  | object (name : String) (node : ℕ) (etype : ExprType)
  | typeAlias (name : String) (type : Ty)
  | setRet (node : ℕ) (ret nodeRet : Option Ty)

def visit : Event → Analysis Unit
  | .enterModule => enterModule
  | .enterScope type => enterScope type
  | .leaveScope => leaveScope
  | .func node name receiver params ret => do
      insertGlobal "Functions must appear at global scope" name (funcSym node receiver params ret)
      enterScope .func
      enterFuncScope receiver params
  | .extFunc node name receiver params ret =>
      insertGlobal "External functions must appear at global scope" name
        { node, external := true, receiver, params, ret }
  | .lambda params ret => do
      check (validateRet ret)
      check (validateParams (params.map FuncParam.paramType))
      insertLambda params ret
      enterScope .closure
      enterLambdaScope params
  | .object name node etype => insert name (.object node etype none)
  | .typeAlias name type => do
      check (validateType type)
      insert name .typeAlias
  | .setRet node ret nodeRet =>
      modify fun s ↦ {
        cur := setRet node ret nodeRet s.cur
        parents := s.parents.map (setRet node ret nodeRet)
        left := s.left.map (setRet node ret nodeRet) }

/-- The tables after an event, also when it throws. -/
def step (s : State) (event : Event) : Option State :=
  some (exec (visit event) s).2

/-! ## What is thrown -/

def IsFatal (stop : Stop) : Prop :=
  ∃ message, stop = .fatal message

theorem require_fatal {c : Bool} {message : String} {stop : Stop} (h : require c message = .error stop) :
    IsFatal stop := by
  cases c with
  | true => cases h
  | false =>
    cases h
    exact ⟨message, rfl⟩

theorem checkMethodCollide_fatal {name : String} {receiver : Option (ParamRef × Ty)} {stop : Stop}
    (h : checkMethodCollide name receiver = .error stop) : IsFatal stop := by
  cases receiver with
  | none => cases h
  | some receiver => exact require_fatal h

theorem checkFuncCollide_fatal {name : String} {func : FuncSym} {symbols : List Symbol} {stop : Stop}
    (h : checkFuncCollide name func symbols = .error stop) : IsFatal stop := by
  induction symbols with
  | nil => cases h
  | cons symbol symbols ih =>
    cases symbol with
    | func dupFunc =>
      rcases Except.bind_eq_error.mp h with h | ⟨_, -, h⟩
      · exact require_fatal h
      · exact ih h
    | object | btnFunc | typeAlias =>
      cases h
      exact ⟨_, rfl⟩

mutual

theorem validateType_fatal : (type : Ty) → {stop : Stop} → validateType type = .error stop → IsFatal stop
  | .btn _, _, h | .user _ _ _ _, _, h => by cases h
  | .array elem, _, h => validateType_fatal elem h
  | .func params ret, _, h => by
    rcases Except.bind_eq_error.mp h with h | ⟨_, -, h⟩
    · exact validateRet_fatal ret h
    · exact validateParams_fatal params h
  | .named _ _ _ type, _, h => validateType_fatal type h
  | .struct fields, _, h => by
    rcases Except.bind_eq_error.mp h with h | ⟨_, -, h⟩
    · exact validateFields_fatal fields h
    · split at h
      · cases h
        exact ⟨_, rfl⟩
      · cases h

theorem validateRet_fatal : (ret : Option Ty) → {stop : Stop} → validateRet ret = .error stop → IsFatal stop
  | none, _, h => by cases h
  | some ret, _, h => validateType_fatal ret h

theorem validateParams_fatal : (params : List (ParamRef × Ty)) → {stop : Stop} →
    validateParams params = .error stop → IsFatal stop
  | [], _, h => by cases h
  | (_, type) :: params, _, h => by
    rcases Except.bind_eq_error.mp h with h | ⟨_, -, h⟩
    · exact validateType_fatal type h
    · exact validateParams_fatal params h

theorem validateFields_fatal : (fields : List (String × Ty)) → {stop : Stop} →
    validateFields fields = .error stop → IsFatal stop
  | [], _, h => by cases h
  | (_, type) :: fields, _, h => by
    rcases Except.bind_eq_error.mp h with h | ⟨_, -, h⟩
    · exact validateType_fatal type h
    · exact validateFields_fatal fields h

end

/-! ## The strong guarantee -/

theorem readsOnly_get : ReadsOnly (get : Analysis State) := fun _ ↦ rfl

theorem strong_get_bind {α : Type} {f : State → Analysis α} (h : ∀ s, StrongGuarantee IsFatal (f s)) :
    StrongGuarantee IsFatal (get >>= f) :=
  .read_bind readsOnly_get (.of_neverThrows fun s ↦ ⟨s, rfl⟩) h

theorem strong_check_bind {α : Type} {c : Check Unit} {f : Unit → Analysis α} (hc : ∀ stop, c = .error stop → IsFatal stop)
    (h : StrongGuarantee IsFatal (f ())) : StrongGuarantee IsFatal (check c >>= f) :=
  .read_bind (readsOnly_check c) (.check hc) fun _ ↦ h

theorem strong_modify (f : State → State) : StrongGuarantee IsFatal (modify f : Analysis Unit) :=
  .of_neverThrows (neverThrows_modify f)

theorem neverThrows_insertParams : (params : List FuncParam) → NeverThrows (insertParams params)
  | [] => fun _ ↦ ⟨(), rfl⟩
  | _ :: params => (neverThrows_modify _).bind fun _ ↦ neverThrows_insertParams params

theorem neverThrows_enterFuncScope (receiver : Option FuncParam) (params : List FuncParam) :
    NeverThrows (enterFuncScope receiver params) :=
  (neverThrows_insertParams params).bind fun _ ↦ neverThrows_insertParams receiver.toList

theorem strong_insert (name : String) (symbol : Symbol) : StrongGuarantee IsFatal (insert name symbol) := by
  refine strong_get_bind fun s ↦ ?_
  exact strong_check_bind (fun _ ↦ require_fatal) (strong_modify _)

theorem strong_insertFunc (name : String) (func : FuncSym) : StrongGuarantee IsFatal (insertFunc name func) := by
  refine strong_check_bind (fun _ ↦ validateParams_fatal _) ?_
  refine strong_check_bind (fun _ ↦ validateRet_fatal _) ?_
  refine strong_get_bind fun s ↦ ?_
  exact strong_check_bind (fun _ ↦ checkFuncCollide_fatal) (strong_modify _)

theorem strong_insertGlobal (message name : String) (func : FuncSym) :
    StrongGuarantee IsFatal (insertGlobal message name func) := by
  refine strong_get_bind fun s ↦ ?_
  refine strong_check_bind (fun _ ↦ require_fatal) ?_
  exact strong_check_bind (fun _ ↦ checkMethodCollide_fatal) (strong_insertFunc name func)

theorem strong_insertLambda (params : List FuncParam) (ret : Option Ty) :
    StrongGuarantee IsFatal (insertLambda params ret) := by
  refine strong_check_bind (fun _ ↦ validateParams_fatal _) ?_
  exact strong_check_bind (fun _ ↦ validateRet_fatal _) (strong_modify _)

/-- What throws throws a fatal error, and leaves the tables unchanged. -/
theorem strong_visit : (event : Event) → StrongGuarantee IsFatal (visit event)
  | .enterModule | .enterScope _ | .leaveScope | .setRet _ _ _ => strong_modify _
  | .func node name receiver params ret => by
    refine .bind_write (strong_insertGlobal _ name _) fun _ ↦ ?_
    exact (neverThrows_modify _).bind fun _ ↦ neverThrows_enterFuncScope receiver params
  | .extFunc _ name _ _ _ => strong_insertGlobal _ name _
  | .lambda params ret => by
    refine strong_check_bind (fun _ ↦ validateRet_fatal _) ?_
    refine strong_check_bind (fun _ ↦ validateParams_fatal _) ?_
    refine .bind_write (strong_insertLambda params ret) fun _ ↦ ?_
    exact (neverThrows_modify _).bind fun _ ↦ neverThrows_insertParams params
  | .object name _ _ => strong_insert name _
  | .typeAlias name type => strong_check_bind (fun _ ↦ validateType_fatal type) (strong_insert name _)

/-! ## What is inserted -/

theorem exec_check_bind {α : Type} {c : Check Unit} {f : Unit → Analysis α} {s : State} (h : c = .ok ()) :
    exec (check c >>= f) s = exec (f ()) s :=
  exec_bind_ok (by rw [exec_check, h])

theorem exec_get_bind {α : Type} (f : State → Analysis α) (s : State) : exec (get >>= f) s = exec (f s) s :=
  exec_bind_ok rfl

/-- The parameters in a table, the last one first. -/
def paramEntries (params : List FuncParam) : List (String × Symbol) :=
  (params.map fun param ↦ (param.name, .object param.node (convert param.paramType) none)).reverse

theorem exec_insertParams (params : List FuncParam) (s : State) :
    exec (insertParams params) s =
      (.ok (), s.updateCur fun scope ↦ { scope with symbols := paramEntries params ++ scope.symbols }) := by
  induction params generalizing s with
  | nil => rfl
  | cons param params ih =>
    have hinsert : exec (tableInsert param.name (.object param.node (convert param.paramType) none)) s =
        (.ok (), s.updateCur (Scope.add param.name (.object param.node (convert param.paramType) none))) := rfl
    rw [insertParams, exec_bind_ok hinsert, ih]
    simp [State.updateCur, Scope.add, paramEntries]

theorem exec_enterFuncScope (receiver : Option FuncParam) (params : List FuncParam) (s : State) :
    exec (enterFuncScope receiver params) s =
      (.ok (), s.updateCur fun scope ↦ { scope with symbols := paramEntries (params ++ receiver.toList) ++ scope.symbols }) := by
  rw [enterFuncScope, exec_bind_ok (exec_insertParams params s), exec_insertParams]
  simp [State.updateCur, paramEntries]

/-- The function can be inserted into the table of the current scope. -/
def AcceptsFunc (s : State) (name : String) (func : FuncSym) : Prop :=
  (s.cur.type == .ns) = true ∧ checkMethodCollide name func.receiver = .ok () ∧
    validateParams (func.receiver.toList ++ func.params) = .ok () ∧ validateRet func.ret = .ok () ∧
    checkFuncCollide name func (equalRange s.cur.symbols name) = .ok ()

instance (s : State) (name : String) (func : FuncSym) : Decidable (AcceptsFunc s name func) :=
  inferInstanceAs (Decidable (_ ∧ _ ∧ _ ∧ _ ∧ _))

theorem ok_of_check_bind {α : Type} {c : Check Unit} {f : Unit → Analysis α} {s : State} {a : α}
    (h : (exec (check c >>= f) s).1 = .ok a) : c = .ok () ∧ (exec (f ()) s).1 = .ok a := by
  cases c with
  | error stop =>
    rw [exec_bind_error (exec_check _ s)] at h
    cases h
  | ok u =>
    rw [exec_check_bind rfl] at h
    exact ⟨rfl, h⟩

theorem exec_insertGlobal {message name : String} {func : FuncSym} {s : State} (h : AcceptsFunc s name func) :
    exec (insertGlobal message name func) s = (.ok (), s.updateCur (Scope.add name (.func func))) := by
  obtain ⟨htype, hmethod, hparams, hret, hcollide⟩ := h
  rw [insertGlobal, exec_get_bind, exec_check_bind (by rw [htype]; rfl), exec_check_bind hmethod, insertFunc,
    exec_check_bind hparams, exec_check_bind hret, exec_get_bind, exec_check_bind hcollide]
  rfl

theorem acceptsFunc_of_ok {message name : String} {func : FuncSym} {s : State}
    (h : (exec (insertGlobal message name func) s).1 = .ok ()) : AcceptsFunc s name func := by
  rw [insertGlobal, exec_get_bind] at h
  obtain ⟨htype, h⟩ := ok_of_check_bind h
  obtain ⟨hmethod, h⟩ := ok_of_check_bind h
  obtain ⟨hparams, h⟩ := ok_of_check_bind h
  obtain ⟨hret, h⟩ := ok_of_check_bind h
  rw [exec_get_bind] at h
  exact ⟨require_eq_ok.mp htype, hmethod, hparams, hret, (ok_of_check_bind h).1⟩

theorem exec_insertGlobal_refused {message name : String} {func : FuncSym} {s : State} (h : ¬AcceptsFunc s name func) :
    ∃ stop, exec (insertGlobal message name func) s = (.error stop, s) := by
  cases hexec : (exec (insertGlobal message name func) s).1 with
  | ok u => exact absurd (acceptsFunc_of_ok hexec) h
  | error stop => exact ⟨stop, Prod.ext hexec (strong_insertGlobal message name func s stop hexec).1⟩

/-! ## The invariant -/

/-- A name is bound to one symbol that is not a function, or to functions with different parameters. -/
def Bound (symbols : List Symbol) : Prop :=
  (∃ symbol, symbols = [symbol] ∧ isFunc symbol = false) ∨
    ((∀ s ∈ symbols, isFunc s = true) ∧ symbols.Pairwise Distinct)

/-- The invariant of one table. -/
def TableBound (symbols : List (String × Symbol)) : Prop :=
  ∀ name, Bound (equalRange symbols name)

/-- The invariant of all the tables. -/
def TablesBound (s : State) : Prop :=
  ∀ scope ∈ s.scopes, TableBound scope.symbols

theorem bound_nil : Bound [] :=
  .inr ⟨nofun, .nil⟩

theorem tableBound_nil : TableBound [] := fun _ ↦ bound_nil

theorem Bound.insert {symbol : Symbol} (h : isFunc symbol = false) : Bound [symbol] :=
  .inl ⟨symbol, rfl, h⟩

theorem Bound.insertFunc {func : FuncSym} {symbols : List Symbol} (h : Bound symbols)
    (hcollide : ∀ s ∈ symbols, ∃ dupFunc, s = .func dupFunc ∧ sameFuncParams dupFunc func = false) :
    Bound (.func func :: symbols) := by
  rcases h with ⟨symbol, rfl, hfunc⟩ | ⟨hfuncs, hdistinct⟩
  · -- the other symbol is no function, which is a collision
    obtain ⟨dupFunc, rfl, -⟩ := hcollide symbol List.mem_cons_self
    cases hfunc
  · have hover : Overloaded (.func func :: symbols) := Overloaded.insertFunc ⟨.inl hfuncs, hdistinct⟩ hcollide
    exact .inr ⟨List.forall_mem_cons.mpr ⟨rfl, hfuncs⟩, hover.distinct⟩

theorem isFunc_setRet (node : ℕ) (ret nodeRet : Option Ty) (symbol : Symbol) :
    isFunc (Overloads.setRet node ret nodeRet symbol) = isFunc symbol := by
  cases symbol with
  | func func =>
    rw [Overloads.setRet]
    split <;> rfl
  | object | btnFunc | typeAlias => rfl

theorem Bound.setRet {symbols : List Symbol} (h : Bound symbols) (node : ℕ) (ret nodeRet : Option Ty) :
    Bound (symbols.map (Overloads.setRet node ret nodeRet)) := by
  rcases h with ⟨symbol, rfl, hfunc⟩ | ⟨hfuncs, hdistinct⟩
  · exact .insert ((isFunc_setRet node ret nodeRet symbol).trans hfunc)
  · refine .inr ⟨?_, (Overloaded.setRet ⟨.inl hfuncs, hdistinct⟩ node ret nodeRet).distinct⟩
    intro s hs
    obtain ⟨symbol, hsymbol, rfl⟩ := List.mem_map.mp hs
    exact (isFunc_setRet node ret nodeRet symbol).trans (hfuncs symbol hsymbol)

/-- Where nothing is a function, the invariant says that no two symbols have the same name. -/
theorem tableBound_iff_nodup {symbols : List (String × Symbol)} (h : ∀ entry ∈ symbols, isFunc entry.2 = false) :
    TableBound symbols ↔ (symbols.map Prod.fst).Nodup := by
  have hcount (name : String) : (symbols.map Prod.fst).count name = (equalRange symbols name).length := by
    rw [List.count, List.countP_map, List.countP_eq_length_filter, equalRange, List.length_map]
    rfl
  rw [List.nodup_iff_count_le_one]
  refine forall_congr' fun name ↦ ?_
  rw [hcount]
  have hnone : ∀ s ∈ equalRange symbols name, isFunc s = false := fun s hs ↦ h (name, s) (mem_equalRange.mp hs)
  constructor
  · rintro (⟨symbol, heq, -⟩ | ⟨hfuncs, -⟩)
    · rw [heq]
      exact Nat.le_refl 1
    · rw [List.eq_nil_iff_forall_not_mem.mpr fun s hs ↦ Bool.false_ne_true ((hnone s hs).symm.trans (hfuncs s hs))]
      exact Nat.zero_le 1
  · intro hle
    cases hrange : equalRange symbols name with
    | nil => exact bound_nil
    | cons symbol rest =>
      obtain rfl : rest = [] := by
        rw [hrange, List.length_cons] at hle
        exact List.eq_nil_of_length_eq_zero (by omega)
      exact .insert (hnone symbol (hrange ▸ List.mem_cons_self))

theorem tableBound_paramEntries {params : List FuncParam} :
    TableBound (paramEntries params) ↔ (params.map FuncParam.name).Nodup := by
  have hnames : (paramEntries params).map Prod.fst = (params.map FuncParam.name).reverse := by
    simp [paramEntries, Function.comp_def]
  rw [tableBound_iff_nodup, hnames, List.nodup_reverse]
  intro entry hentry
  simp only [paramEntries, List.mem_reverse, List.mem_map] at hentry
  obtain ⟨param, -, rfl⟩ := hentry
  rfl

theorem tableBound_builtin : TableBound makeBuiltinModule.symbols := by
  refine (tableBound_iff_nodup ?_).mpr (by decide)
  intro entry hentry
  simp only [makeBuiltinModule, List.mem_append, List.mem_map] at hentry
  rcases hentry with ⟨_, -, rfl⟩ | ⟨_, -, rfl⟩ <;> rfl

theorem tablesBound_initModules : TablesBound initModules := by
  intro scope hscope
  cases List.mem_singleton.mp hscope
  exact tableBound_builtin

theorem tablesBound_cons {s : State} : TablesBound s ↔
    TableBound s.cur.symbols ∧ ∀ scope ∈ s.parents ++ s.left, TableBound scope.symbols :=
  List.forall_mem_cons

theorem TablesBound.updateCur {s : State} {f : Scope → Scope} (h : TablesBound s) :
    TablesBound (s.updateCur f) ↔ TableBound (f s.cur).symbols := by
  rw [tablesBound_cons]
  exact and_iff_left (tablesBound_cons.mp h).2

/-- The state in the scope of a function or lambda, when its parameters have been inserted. -/
def State.entered (type : Scopes.ScopeType) (params : List FuncParam) (s : State) : State :=
  { s with cur := { type, symbols := paramEntries params }, parents := s.cur :: s.parents }

theorem TablesBound.entered {s : State} {type : Scopes.ScopeType} {params : List FuncParam} (h : TablesBound s) :
    TablesBound (s.entered type params) ↔ (params.map FuncParam.name).Nodup := by
  rw [tablesBound_cons, ← tableBound_paramEntries]
  exact and_iff_left h

theorem TablesBound.addFunc {s : State} {name : String} {func : FuncSym} (h : TablesBound s)
    (haccepts : AcceptsFunc s name func) : TablesBound (s.updateCur (Scope.add name (.func func))) := by
  refine h.updateCur.mpr fun name' ↦ ?_
  have hcur := (tablesBound_cons.mp h).1
  rw [Scope.add, equalRange_cons]
  split
  · rename_i heq
    subst heq
    exact (hcur name).insertFunc (checkFuncCollide_eq_ok haccepts.2.2.2.2)
  · exact hcur name'

/-! ## Steps -/

theorem exec_func {node : ℕ} {name : String} {receiver : Option FuncParam} {params : List FuncParam} {ret : Option Ty}
    {s : State} (h : AcceptsFunc s name (funcSym node receiver params ret)) :
    exec (visit (.func node name receiver params ret)) s =
      (.ok (), (s.updateCur (Scope.add name (.func (funcSym node receiver params ret)))).entered .func
        (params ++ receiver.toList)) := by
  rw [visit, exec_bind_ok (exec_insertGlobal h), enterScope, exec_bind_ok (exec_modify _ _), exec_enterFuncScope]
  simp [State.entered, State.updateCur]

theorem exec_lambda {params : List FuncParam} {ret : Option Ty} {s : State} (hret : validateRet ret = .ok ())
    (hparams : validateParams (params.map FuncParam.paramType) = .ok ()) :
    exec (visit (.lambda params ret)) s =
      (.ok (), (s.updateCur fun scope ↦ { scope with lambdas := scope.lambdas + 1 }).entered .closure params) := by
  have hinsert : exec (insertLambda params ret) s =
      (.ok (), s.updateCur fun scope ↦ { scope with lambdas := scope.lambdas + 1 }) := by
    rw [insertLambda, exec_check_bind hparams, exec_check_bind hret, exec_modify]
  rw [visit, exec_check_bind hret, exec_check_bind hparams, exec_bind_ok hinsert, enterScope,
    exec_bind_ok (exec_modify _ _), enterLambdaScope, exec_insertParams]
  simp [State.entered, State.updateCur]

theorem TablesBound.insert {s : State} {name : String} {symbol : Symbol} (h : TablesBound s)
    (hfunc : isFunc symbol = false) : TablesBound (exec (insert name symbol) s).2 := by
  cases hexec : (exec (SymbolTable.insert name symbol) s).1 with
  | error stop =>
    rw [(strong_insert name symbol s stop hexec).1]
    exact h
  | ok u =>
    rw [SymbolTable.insert, exec_get_bind] at hexec ⊢
    have hcheck := (ok_of_check_bind hexec).1
    rw [exec_check_bind hcheck]
    refine h.updateCur.mpr fun name' ↦ ?_
    rw [Scope.add, equalRange_cons]
    split
    · rename_i heq
      subst heq
      rw [List.isEmpty_iff.mp (require_eq_ok.mp hcheck)]
      exact .insert hfunc
    · exact (tablesBound_cons.mp h).1 name'

theorem TableBound.setRet {scope : Scope} (h : TableBound scope.symbols) (node : ℕ) (ret nodeRet : Option Ty) :
    TableBound (SymbolTable.setRet node ret nodeRet scope).symbols := by
  intro name
  rw [SymbolTable.setRet, equalRange_map]
  exact (h name).setRet node ret nodeRet

theorem TablesBound.enterModule {s : State} (h : TablesBound s) :
    TablesBound (exec (visit .enterModule) s).2 := by
  refine tablesBound_cons.mpr ⟨tableBound_nil, fun scope hscope ↦ ?_⟩
  have hsplit := (s.cur :: s.parents).takeWhile_append_dropWhile (p := (·.type != .ns))
  apply h scope
  rw [State.scopes, ← List.cons_append, ← hsplit]
  simp only [SymbolTable.visit, SymbolTable.enterModule, exec_modify, List.mem_append] at hscope ⊢
  tauto

theorem TablesBound.leaveScope {s : State} (h : TablesBound s) : TablesBound (exec (visit .leaveScope) s).2 := by
  simp only [visit, SymbolTable.leaveScope, exec_modify]
  split
  · rename_i parent parents hparents
    split
    · exact h
    · intro scope hscope
      apply h scope
      simp only [State.scopes, hparents, List.mem_cons, List.mem_append] at hscope ⊢
      tauto
  · exact h

/-- The condition under which a step keeps the invariant: where a function or lambda is entered, its
parameters and its receiver have different names. -/
def ParamsDistinct (s : State) : Event → Prop
  | .func node name receiver params ret =>
      AcceptsFunc s name (funcSym node receiver params ret) → ((params ++ receiver.toList).map FuncParam.name).Nodup
  | .lambda params ret =>
      validateRet ret = .ok () → validateParams (params.map FuncParam.paramType) = .ok () →
        (params.map FuncParam.name).Nodup
  | _ => True

theorem tablesBound_step_iff {s : State} (event : Event) (h : TablesBound s) :
    TablesBound (exec (visit event) s).2 ↔ ParamsDistinct s event := by
  cases event with
  | enterModule => exact iff_of_true h.enterModule trivial
  | enterScope type => exact iff_of_true (tablesBound_cons.mpr ⟨tableBound_nil, h⟩) trivial
  | leaveScope => exact iff_of_true h.leaveScope trivial
  | func node name receiver params ret =>
    by_cases haccepts : AcceptsFunc s name (funcSym node receiver params ret)
    · rw [exec_func haccepts, (h.addFunc haccepts).entered]
      exact ⟨fun hnodup _ ↦ hnodup, fun hnodup ↦ hnodup haccepts⟩
    · obtain ⟨stop, hrefused⟩ := exec_insertGlobal_refused haccepts
      rw [visit, exec_bind_error hrefused]
      exact iff_of_true h fun haccepts' ↦ absurd haccepts' haccepts
  | extFunc node name receiver params ret =>
    refine iff_of_true ?_ trivial
    rw [visit]
    by_cases haccepts : AcceptsFunc s name { node, external := true, receiver, params, ret }
    · rw [exec_insertGlobal haccepts]
      exact h.addFunc haccepts
    · obtain ⟨stop, hrefused⟩ := exec_insertGlobal_refused haccepts
      rw [hrefused]
      exact h
  | lambda params ret =>
    cases hret : validateRet ret with
    | error stop =>
      rw [visit, exec_bind_error (by rw [exec_check, hret])]
      exact iff_of_true h fun hret' ↦ by cases hret.symm.trans hret'
    | ok u =>
      cases hparams : validateParams (params.map FuncParam.paramType) with
      | error stop =>
        rw [visit, exec_check_bind hret, exec_bind_error (by rw [exec_check, hparams])]
        exact iff_of_true h fun _ hparams' ↦ by cases hparams.symm.trans hparams'
      | ok u =>
        have hcur : TablesBound (s.updateCur fun scope ↦ { scope with lambdas := scope.lambdas + 1 }) :=
          h.updateCur.mpr (tablesBound_cons.mp h).1
        rw [exec_lambda hret hparams, hcur.entered]
        exact ⟨fun hnodup _ _ ↦ hnodup, fun hnodup ↦ hnodup hret hparams⟩
  | object name node etype => exact iff_of_true (h.insert rfl) trivial
  | typeAlias name type =>
    refine iff_of_true ?_ trivial
    rw [visit]
    cases htype : validateType type with
    | error stop =>
      rw [exec_bind_error (exec_check _ s)]
      exact h
    | ok u =>
      rw [exec_check_bind rfl]
      exact h.insert rfl
  | setRet node ret nodeRet =>
    refine iff_of_true (tablesBound_cons.mpr ⟨(tablesBound_cons.mp h).1.setRet node ret nodeRet, ?_⟩) trivial
    intro scope hscope
    simp only [visit, exec_modify, ← List.map_append] at hscope
    obtain ⟨before, hbefore, rfl⟩ := List.mem_map.mp hscope
    exact ((tablesBound_cons.mp h).2 before hbefore).setRet node ret nodeRet

/-! ## Runs -/

/-- The invariant holds in every state that the analysis passes through if and only if no function or lambda
that is entered has two parameters of one name, its receiver included. What throws keeps the tables. -/
theorem tables_bound_iff (events : List Event) :
    (Machine.Always step TablesBound initModules events ↔ Machine.RunMeets step ParamsDistinct initModules events) ∧
      ∀ s event stop, (exec (visit event) s).1 = .error stop → (exec (visit event) s).2 = s ∧ IsFatal stop := by
  refine ⟨?_, fun s event ↦ strong_visit event s⟩
  have hallowed : Machine.RunMeets step (fun _ _ ↦ True) initModules events := Machine.runMeets_of_forall fun _ _ ↦ trivial
  refine (Machine.always_iff (fun _ ↦ True) ?_ hallowed trivial tablesBound_initModules).2
  exact fun s event _ _ ↦ ⟨_, rfl, trivial, tablesBound_step_iff event⟩

/-- `func f(a: sint, a: real) {}` -/
theorem same_name_bound_twice :
    ¬∀ events, Machine.Always step TablesBound initModules events := by
  intro h
  have hbound := h [.enterModule, .func 0 "f" none [⟨1, "a", .val, .btn .sint⟩, ⟨2, "a", .val, .btn .real⟩] none] 2 _ rfl
  have hscope := hbound _ List.mem_cons_self
  have hnodup : ([(⟨1, "a", .val, .btn .sint⟩ : FuncParam), ⟨2, "a", .val, .btn .real⟩].map FuncParam.name).Nodup :=
    tableBound_paramEntries.mp hscope
  exact absurd hnodup (by decide)

end Stela.Semantic.SymbolTable
