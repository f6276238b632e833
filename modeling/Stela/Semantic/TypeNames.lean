import Stela.Library.Machine
import Stela.Library.StrongGuarantee
import Stela.Semantic.CompareTypes

/-!
# Type names

The nodes of types as parsed, in which a name is bound when it is first looked up: `scope lookup.cpp`,
`compare types.cpp` and the visits of `traverse.cpp` that call them. A node of a name or function type that the analysis
writes to is numbered. None of the recursions is guarded, so each is given fuel. User types, which are not parsed, and
the marks on referenced aliases are left out.
-/

namespace Stela.Semantic.TypeNames

open Stela.Syntax Library

/-! ## Nodes and tables -/

/-- `ast::Type`. The return type of a function may be null. -/
inductive Node where
  | btn (value : BtnType)
  | array (elem : Node)
  | func (id : ℕ) (params : List (ParamRef × Node)) (ret : Option Node)
  | named (id : ℕ) (name : String)
  | struct (fields : List (String × Node))

/-- `ast::TypeAlias`. -/
structure TypeAlias where
  name : String
  strong : Bool
  type : Node

/-- The symbols of a scope: aliases, by their number, and all others. -/
inductive Symbol where
  | typeAlias (decl : ℕ)
  | other
  deriving DecidableEq

abbrev Scope := List (String × Symbol)

/-- What the analysis writes to: the aliases in order of insertion, `NamedType::definition`, the function types whose
null return type has been filled in, and the tables of the current scope and its parents. -/
structure Tables where
  aliases : List TypeAlias
  definition : ℕ → Option ℕ
  retVoid : ℕ → Bool
  scopes : List Scope

inductive Stop where
  | fatal (message : String)
  | dangling
  | outOfFuel
  deriving DecidableEq

/-- A part of the analysis: when it throws, the tables stay as they are at that moment. -/
abbrev Analysis := ExceptT Stop (StateM Tables)

def fatal {α : Type} (message : String) : Analysis α := check (.error (.fatal message))

/-- `~type.definition`, before it is used. -/
def deref (decl : ℕ) : Analysis TypeAlias := do
  let tables ← get
  match tables.aliases[decl]? with
  | some node => return node
  | none => check (.error .dangling)

/-- `FuncType::ret`. -/
def getRet (id : ℕ) (ret : Option Node) : Analysis (Option Node) := do
  let tables ← get
  return ret <|> if tables.retVoid id then some (.btn .void) else none

/-! ## Lookup -/

def setDefinition (id decl : ℕ) (tables : Tables) : Tables :=
  { tables with definition := fun id' ↦ if id' = id then some decl else tables.definition id' }

/-- `lookupTypeImpl`, from the innermost scope on. -/
def lookupTypeImpl (id : ℕ) (name : String) : List Scope → Analysis ℕ
  | [] => fatal s!"Expected type name but found \"{name}\""
  | scope :: parents =>
      match scope.lookup name with
      | some (.typeAlias decl) => do
          modify (setDefinition id decl)
          return decl
      | some .other => fatal s!"The name \"{name}\" does not refer to a type"
      | none => lookupTypeImpl id name parents

/-- `lookupTypeName`. -/
def lookupTypeName (id : ℕ) (name : String) : Analysis ℕ := do
  let tables ← get
  match tables.definition id with
  | some decl => return decl
  | none => lookupTypeImpl id name tables.scopes

/-- `lookupStrongType`. -/
def lookupStrongType : ℕ → Node → Analysis Node
  | 0, _ => check (.error .outOfFuel)
  | fuel + 1, .named id name => do
      let decl ← lookupTypeName id name
      let node ← deref decl
      if node.strong then return .named id name else lookupStrongType fuel node.type
  | _ + 1, type => return type

/-- `lookupConcreteType`. -/
def lookupConcreteType : ℕ → Node → Analysis Node
  | 0, _ => check (.error .outOfFuel)
  | fuel + 1, .named id name => do
      let decl ← lookupTypeName id name
      let node ← deref decl
      lookupConcreteType fuel node.type
  | _ + 1, type => return type

/-! ## Comparison -/

/-- The comparison of two pointers, which are equal only when they point to the same node. -/
structure Pointers where
  same : Node → Node → Bool
  eq_of_same : ∀ {a b}, same a b = true → a = b

/-- `equal_size` with a comparison of entries, after that of the sizes. -/
def equalEntries {κ : Type} [BEq κ] (compare : Node → Node → Analysis Bool) :
    List (κ × Node) → List (κ × Node) → Analysis Bool
  | (key, a) :: as, (key', b) :: bs => do
      if key == key' then
        let eq ← compare a b
        if eq then equalEntries compare as bs else return false
      else return false
  | _, _ => return true

def equalSize {κ : Type} [BEq κ] (compare : Node → Node → Analysis Bool) (as bs : List (κ × Node)) : Analysis Bool :=
  if as.length = bs.length then equalEntries compare as bs else return false

/-- `compareTypes` on return types. -/
def compareRets (compare : Node → Node → Analysis Bool) : Option Node → Option Node → Analysis Bool
  | some a, some b => compare a b
  | none, none => return true
  | _, _ => return false

/-- `compareTypes`. The two visitors follow weak aliases in the way of `lookupStrongType`, the left one first. -/
def compareTypes (pointers : Pointers) : ℕ → Node → Node → Analysis Bool
  | 0, _, _ => check (.error .outOfFuel)
  | fuel + 1, a, b => do
      if pointers.same a b then return true
      else
        let lhs ← lookupStrongType (fuel + 1) a
        let rhs ← lookupStrongType (fuel + 1) b
        match lhs, rhs with
        | .btn value, .btn value' => return value == value'
        | .array elem, .array elem' => compareTypes pointers fuel elem elem'
        | .func id params ret, .func id' params' ret' => do
            let ret ← getRet id ret
            let ret' ← getRet id' ret'
            let eq ← compareRets (compareTypes pointers fuel) ret ret'
            if eq then equalSize (compareTypes pointers fuel) params params' else return false
        | .named _ name, .named _ name' => return name == name'
        | .struct fields, .struct fields' => equalSize (compareTypes pointers fuel) fields fields'
        | _, _ => return false

/-! ## Validation -/

def validateEntries {κ : Type} (validate : Node → Analysis Unit) : List (κ × Node) → Analysis Unit
  | [] => return
  | (_, type) :: entries => do
      validate type
      validateEntries validate entries

def setRetVoid (id : ℕ) (tables : Tables) : Tables :=
  { tables with retVoid := fun id' ↦ if id' = id then true else tables.retVoid id' }

/-- A return type is visited, or becomes void. -/
def validateRet (validate : Node → Analysis Unit) (id : ℕ) (ret : Option Node) : Analysis Unit := do
  let ret ← getRet id ret
  match ret with
  | some ret => validate ret
  | none => modify (setRetVoid id)

/-- `validateType`. -/
def validateType : ℕ → Node → Analysis Unit
  | 0, _ => check (.error .outOfFuel)
  | _ + 1, .btn _ => return
  | fuel + 1, .array elem => validateType fuel elem
  | fuel + 1, .func id params ret => do
      validateRet (validateType fuel) id ret
      validateEntries (validateType fuel) params
  | fuel + 1, .named id name => do
      let decl ← lookupTypeName id name
      let node ← deref decl
      validateType fuel node.type
  | fuel + 1, .struct fields => do
      validateEntries (validateType fuel) fields
      match duplicateName (fields.map Prod.fst) with
      | some name => fatal s!"Duplicate field \"{name}\" in struct"
      | none => return

/-! ## The analysis -/

def Tables.updateScope (f : Scope → Scope) (tables : Tables) : Tables :=
  match tables.scopes with
  | [] => tables
  | scope :: parents => { tables with scopes := f scope :: parents }

/-- `insert` of an alias. -/
def insertAlias (node : TypeAlias) : Analysis Unit := do
  let tables ← get
  match (tables.scopes.headD []).lookup node.name with
  | some _ => fatal s!"Redefinition of symbol \"{node.name}\""
  | none =>
      modify fun tables ↦
        { tables with aliases := tables.aliases ++ [node] }.updateScope
          fun scope ↦ (node.name, .typeAlias tables.aliases.length) :: scope

/-- The insertion of any other symbol, which is not made where an alias has the name. -/
def insertOther (name : String) : Analysis Unit := do
  let tables ← get
  match (tables.scopes.headD []).lookup name with
  | some (.typeAlias _) => fatal s!"Redefinition of symbol \"{name}\""
  | some .other | none => modify (Tables.updateScope fun scope ↦ (name, .other) :: scope)

/-- What the analysis of a program does with types, in any order. -/
inductive Event where
  | enterScope
  | leaveScope
  | insertOther (name : String)
  /-- `visit(ast::TypeAlias &)`. -/
  | typeAlias (fuel : ℕ) (node : TypeAlias)
  | validateType (fuel : ℕ) (type : Node)
  | lookupStrongType (fuel : ℕ) (type : Node)
  | lookupConcreteType (fuel : ℕ) (type : Node)
  | compareTypes (pointers : Pointers) (fuel : ℕ) (a b : Node)

def visit : Event → Analysis Unit
  | .enterScope => modify fun tables ↦ { tables with scopes := [] :: tables.scopes }
  | .leaveScope => modify fun tables ↦ { tables with scopes := tables.scopes.tail }
  | .insertOther name => insertOther name
  | .typeAlias fuel node => do
      validateType fuel node.type
      insertAlias node
  | .validateType fuel type => validateType fuel type
  | .lookupStrongType fuel type => discard (lookupStrongType fuel type)
  | .lookupConcreteType fuel type => discard (lookupConcreteType fuel type)
  | .compareTypes pointers fuel a b => discard (compareTypes pointers fuel a b)

/-- The type that an event validates. -/
def Event.validated : Event → Option (ℕ × Node)
  | .typeAlias fuel node => some (fuel, node.type)
  | .validateType fuel type => some (fuel, type)
  | _ => none

/-- The tables, and the types that have passed `validateType`. -/
structure State where
  tables : Tables
  passed : List Node

/-- The types of the builtin scope. -/
def builtinTypes : List (String × BtnType) :=
  [("opaq", .opaq), ("bool", .bool), ("byte", .byte), ("char", .char), ("real", .real), ("sint", .sint),
    ("uint", .uint)]

/-- The functions of the builtin scope. -/
def builtinFuncs : List String :=
  ["capacity", "size", "data", "push_back", "append", "pop_back", "resize", "reserve"]

/-- `makeBuiltinModule`. The first node of a name is the one in the type of string literals. -/
def State.init : State where
  tables := {
    aliases := builtinTypes.map fun (name, value) ↦ ⟨name, false, .btn value⟩
    definition := fun id ↦ if id = 0 then some 3 else none
    retVoid := fun _ ↦ false
    scopes := [builtinTypes.zipIdx.map (fun ((name, _), decl) ↦ (name, .typeAlias decl)) ++
      builtinFuncs.map fun name ↦ (name, .other)] }
  passed := []

/-- The types that an event makes pass. -/
def newlyPassed (event : Event) (tables : Tables) : List Node :=
  match event.validated with
  | none => []
  | some (fuel, type) =>
      match (exec (validateType fuel type) tables).1 with
      | .ok () => [type]
      | .error _ => []

/-- The state after an event, also when it throws. -/
def step (s : State) (event : Event) : Option State :=
  some { tables := (exec (visit event) s.tables).2, passed := newlyPassed event s.tables ++ s.passed }

/-- The states that the analysis of some program reaches. -/
def Reachable (s : State) : Prop := ∃ events, Machine.run step .init events = some s

end Stela.Semantic.TypeNames
