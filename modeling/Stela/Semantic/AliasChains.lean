import Mathlib.Logic.Relation
import Stela.Semantic.TypeEquality
import Stela.Semantic.TypeNames

/-!
# Alias chains

A type that has been validated has a meaning, the tree that it unfolds to. An alias is validated before it is inserted,
and a name is bound once, so meanings last; with a meaning, the unguarded recursions come to an end, and compute what
they compute on trees.
-/

namespace Stela.Semantic.TypeNames

open Stela.Syntax Library

/-! ## Meanings -/

mutual

/-- The type unfolds to the tree. -/
inductive Means (tables : Tables) : Node → Ty → Prop
  | btn {value} : Means tables (.btn value) (.btn value)
  | array {elem type} : Means tables elem type → Means tables (.array elem) (.array type)
  | func {id params ret types type} : Means tables ret type → MeansEntries tables params types →
      Means tables (.func id params (some ret)) (.func types (some type))
  | procedure {id params types} : tables.retVoid id = true → MeansEntries tables params types →
      Means tables (.func id params none) (.func types (some (.btn .void)))
  | named {id name decl node type} : tables.definition id = some decl → tables.aliases[decl]? = some node →
      Means tables node.type type → Means tables (.named id name) (.named name decl node.strong type)
  | struct {fields types} : MeansEntries tables fields types → duplicateName (fields.map Prod.fst) = none →
      Means tables (.struct fields) (.struct types)

/-- The same for parameters and fields. -/
inductive MeansEntries (tables : Tables) : {κ : Type} → List (κ × Node) → List (κ × Ty) → Prop
  | nil {κ : Type} : MeansEntries tables ([] : List (κ × Node)) []
  | cons {κ : Type} {key : κ} {node type nodes types} : Means tables node type → MeansEntries tables nodes types →
      MeansEntries tables ((key, node) :: nodes) ((key, type) :: types)

end

/-- Nothing that a meaning depends on is lost. -/
structure Extends (tables tables' : Tables) : Prop where
  aliases : ∀ (decl : ℕ) (node : TypeAlias), tables.aliases[decl]? = some node → tables'.aliases[decl]? = some node
  definition : ∀ id decl, tables.definition id = some decl → tables'.definition id = some decl
  retVoid : ∀ id, tables.retVoid id = true → tables'.retVoid id = true

section

variable {tables tables' tables'' : Tables}

theorem Extends.refl (tables : Tables) : Extends tables tables := ⟨fun _ _ ↦ id, fun _ _ ↦ id, fun _ ↦ id⟩

theorem Extends.trans (h : Extends tables tables') (h' : Extends tables' tables'') : Extends tables tables'' :=
  ⟨fun decl node ↦ h'.aliases decl node ∘ h.aliases decl node,
    fun id decl ↦ h'.definition id decl ∘ h.definition id decl, fun id ↦ h'.retVoid id ∘ h.retVoid id⟩

mutual

theorem Means.mono (h : Extends tables tables') : {node : Node} → {type : Ty} → Means tables node type →
    Means tables' node type
  | _, _, .btn => .btn
  | _, _, .array helem => .array (helem.mono h)
  | _, _, .func hret hparams => .func (hret.mono h) (hparams.mono h)
  | _, _, .procedure hret hparams => .procedure (h.retVoid _ hret) (hparams.mono h)
  | _, _, .named hdecl hnode htype => .named (h.definition _ _ hdecl) (h.aliases _ _ hnode) (htype.mono h)
  | _, _, .struct hfields hnames => .struct (hfields.mono h) hnames

theorem MeansEntries.mono (h : Extends tables tables') : {κ : Type} → {nodes : List (κ × Node)} →
    {types : List (κ × Ty)} → MeansEntries tables nodes types → MeansEntries tables' nodes types
  | _, _, _, .nil => .nil
  | _, _, _, .cons hnode hnodes => .cons (hnode.mono h) (hnodes.mono h)

end

end

section

variable {tables : Tables}

mutual

/-- A type has one meaning. -/
theorem Means.unique : {node : Node} → {type type' : Ty} → Means tables node type → Means tables node type' →
    type = type'
  | _, _, _, .btn, .btn => rfl
  | _, _, _, .array h, .array h' => by rw [h.unique h']
  | _, _, _, .func hret hparams, .func hret' hparams' => by rw [hret.unique hret', hparams.unique hparams']
  | _, _, _, .procedure _ hparams, .procedure _ hparams' => by rw [hparams.unique hparams']
  | _, _, _, .named hdecl hnode h, .named hdecl' hnode' h' => by
    cases hdecl.symm.trans hdecl'
    cases hnode.symm.trans hnode'
    rw [h.unique h']
  | _, _, _, .struct h _, .struct h' _ => by rw [h.unique h']

theorem MeansEntries.unique : {κ : Type} → {nodes : List (κ × Node)} → {types types' : List (κ × Ty)} →
    MeansEntries tables nodes types → MeansEntries tables nodes types' → types = types'
  | _, _, _, _, .nil, .nil => rfl
  | _, _, _, _, .cons h hs, .cons h' hs' => by rw [h.unique h', hs.unique hs']

end

end

/-! ## The nodes of a type -/

/-- The first is a node of the second, which does not count what its names refer to. -/
inductive Part : Node → Node → Prop
  | self {node} : Part node node
  | elem {part elem} : Part part elem → Part part (.array elem)
  | ret {part id params ret} : Part part ret → Part part (.func id params (some ret))
  | param {part id params ret mode type} : (mode, type) ∈ params → Part part type → Part part (.func id params ret)
  | field {part fields name type} : (name, type) ∈ fields → Part part type → Part part (.struct fields)

section

variable {tables : Tables}

theorem MeansEntries.of_mem {κ : Type} : {nodes : List (κ × Node)} → {types : List (κ × Ty)} →
    MeansEntries tables nodes types → ∀ {key node}, (key, node) ∈ nodes → ∃ type, Means tables node type
  | _, _, .cons hnode hnodes, key, node, hmem => by
    rcases List.mem_cons.mp hmem with heq | hmem
    · cases heq
      exact ⟨_, hnode⟩
    · exact hnodes.of_mem hmem

theorem Means.part {part node : Node} (hpart : Part part node) {type : Ty} (h : Means tables node type) :
    ∃ type', Means tables part type' := by
  induction hpart generalizing type with
  | self => exact ⟨type, h⟩
  | elem _ ih =>
    cases h with
    | array helem => exact ih helem
  | ret _ ih =>
    cases h with
    | func hret _ => exact ih hret
  | param hmem _ ih =>
    cases h with
    | func _ hparams | procedure _ hparams =>
      obtain ⟨type', hnode⟩ := hparams.of_mem hmem
      exact ih hnode
  | field hmem _ ih =>
    cases h with
    | struct hfields _ =>
      obtain ⟨type', hnode⟩ := hfields.of_mem hmem
      exact ih hnode

end

/-! ## What the analysis keeps -/

/-- Names are bound to aliases that have been inserted, and every alias has a meaning. -/
structure Valid (tables : Tables) : Prop where
  definition : ∀ id decl, tables.definition id = some decl → decl < tables.aliases.length
  scopes : ∀ scope ∈ tables.scopes, ∀ name decl, scope.lookup name = some (.typeAlias decl) →
    decl < tables.aliases.length
  aliases : ∀ (decl : ℕ) (node : TypeAlias), tables.aliases[decl]? = some node →
    ∃ type, Means tables node.type type

/-- From valid tables, the part keeps them valid and loses nothing, and has the property when it does not throw. -/
def Spec {α : Type} (P : Tables → Prop) (part : Analysis α) (Q : α → Tables → Prop) : Prop :=
  ∀ tables, Valid tables → P tables → Valid (exec part tables).2 ∧ Extends tables (exec part tables).2 ∧
    ∀ a, (exec part tables).1 = .ok a → Q a (exec part tables).2

section

variable {α β : Type} {P P' : Tables → Prop} {Q : α → Tables → Prop} {R : β → Tables → Prop}

theorem Spec.pure {a : α} (h : ∀ tables, P tables → Q a tables) : Spec P (pure a) Q := by
  intro tables hvalid hP
  refine ⟨hvalid, .refl tables, fun b hb ↦ ?_⟩
  cases hb
  exact h tables hP

theorem Spec.throw (stop : Stop) : Spec P (check (.error stop) : Analysis α) Q :=
  fun tables hvalid _ ↦ ⟨hvalid, .refl tables, nofun⟩

theorem Spec.bind {g : Analysis α} {f : α → Analysis β} (h : Spec P g Q) (hf : ∀ a, Spec (Q a) (f a) R) :
    Spec P (g >>= f) R := by
  intro tables hvalid hP
  obtain ⟨hvalid', hextends, hQ⟩ := h tables hvalid hP
  cases hg : (exec g tables).1 with
  | error stop =>
    rw [exec_bind_error (Prod.ext hg rfl)]
    exact ⟨hvalid', hextends, nofun⟩
  | ok a =>
    rw [exec_bind_ok (Prod.ext hg rfl)]
    obtain ⟨hvalid'', hextends', hR⟩ := hf a _ hvalid' (hQ a hg)
    exact ⟨hvalid'', hextends.trans hextends', hR⟩

/-- What is read of the tables is known until they are written to. -/
theorem Spec.get_bind {f : Tables → Analysis β} (h : ∀ tables, P tables → Spec (· = tables) (f tables) R) :
    Spec P (get >>= f) R := by
  intro tables hvalid hP
  exact h tables hP tables hvalid rfl

theorem Spec.weaken {g : Analysis α} {Q' : α → Tables → Prop} (h : Spec P g Q) (hP : ∀ tables, P' tables → P tables)
    (hQ : ∀ a tables, Q a tables → Q' a tables) : Spec P' g Q' := by
  intro tables hvalid hP'
  obtain ⟨hvalid', hextends, hpost⟩ := h tables hvalid (hP tables hP')
  exact ⟨hvalid', hextends, fun a ha ↦ hQ a _ (hpost a ha)⟩

/-- What lasts is still there afterwards. -/
theorem Spec.frame {g : Analysis α} {F : Tables → Prop} (h : Spec P g Q)
    (hF : ∀ tables tables', Extends tables tables' → F tables → F tables') :
    Spec (fun tables ↦ F tables ∧ P tables) g fun a tables ↦ F tables ∧ Q a tables := by
  intro tables hvalid hP
  obtain ⟨hvalid', hextends, hQ⟩ := h tables hvalid hP.2
  exact ⟨hvalid', hextends, fun a ha ↦ ⟨hF _ _ hextends hP.1, hQ a ha⟩⟩

theorem Spec.ite {c : Prop} [Decidable c] {g g' : Analysis α} (h : Spec P g Q) (h' : Spec P g' Q) :
    Spec P (if c then g else g') Q := by
  split
  · exact h
  · exact h'

/-- A part of which nothing is needed but that it loses nothing. -/
abbrev Keeps (part : Analysis α) : Prop := Spec (fun _ ↦ True) part fun _ _ ↦ True

theorem Spec.keeps {g : Analysis α} (h : Spec (fun _ ↦ True) g Q) : Keeps g :=
  h.weaken (fun _ ↦ id) fun _ _ _ ↦ trivial

theorem Keeps.bind {g : Analysis α} {f : α → Analysis β} (h : Keeps g) (hf : ∀ a, Keeps (f a)) : Keeps (g >>= f) :=
  Spec.bind h hf

end

/-! ## What each part keeps -/

theorem Valid.of_means {tables tables' : Tables} (h : Valid tables) (hextends : Extends tables tables')
    (haliases : tables'.aliases = tables.aliases) (hscopes : tables'.scopes = tables.scopes)
    (hdefinition : ∀ id decl, tables'.definition id = some decl → decl < tables'.aliases.length) : Valid tables' where
  definition := hdefinition
  scopes := by
    rw [hscopes, haliases]
    exact h.scopes
  aliases := by
    intro decl node hnode
    rw [haliases] at hnode
    obtain ⟨type, htype⟩ := h.aliases decl node hnode
    exact ⟨type, htype.mono hextends⟩

/-- Binding a name that was not bound. -/
theorem spec_setDefinition {id decl : ℕ} :
    Spec (fun tables ↦ tables.definition id = none ∧ decl < tables.aliases.length)
      (modify (setDefinition id decl) : Analysis Unit) fun _ tables ↦ tables.definition id = some decl := by
  intro tables hvalid ⟨hnone, hlt⟩
  have hextends : Extends tables (setDefinition id decl tables) := by
    refine ⟨fun _ _ ↦ fun h ↦ h, fun id' decl' hsome ↦ ?_, fun _ ↦ fun h ↦ h⟩
    have hne : id' ≠ id := by
      rintro rfl
      cases hnone.symm.trans hsome
    exact (if_neg hne).trans hsome
  refine ⟨hvalid.of_means hextends rfl rfl fun id' decl' hsome ↦ ?_, hextends, fun _ _ ↦ if_pos rfl⟩
  change (if id' = id then some decl else tables.definition id') = some decl' at hsome
  split at hsome
  · cases hsome
    exact hlt
  · exact hvalid.definition id' decl' hsome

/-- The aliases of the scopes have been inserted. -/
def InScope (scopes : List Scope) (tables : Tables) : Prop :=
  ∀ scope ∈ scopes, ∀ name decl, scope.lookup name = some (.typeAlias decl) → decl < tables.aliases.length

theorem spec_lookupTypeImpl {id : ℕ} {name : String} {scopes : List Scope} :
    Spec (fun tables ↦ tables.definition id = none ∧ InScope scopes tables) (lookupTypeImpl id name scopes)
      fun decl tables ↦ tables.definition id = some decl := by
  induction scopes with
  | nil => exact .throw _
  | cons scope parents ih =>
    rw [lookupTypeImpl]
    cases hlookup : scope.lookup name with
    | none =>
      exact ih.weaken (fun tables h ↦ ⟨h.1, fun scope' hmem ↦ h.2 scope' (List.mem_cons_of_mem _ hmem)⟩)
        fun _ _ ↦ fun h ↦ h
    | some symbol =>
      cases symbol with
      | other => exact .throw _
      | typeAlias decl =>
        refine Spec.bind (Q := fun _ tables ↦ tables.definition id = some decl) ?_ fun _ ↦ .pure fun _ h ↦ h
        exact spec_setDefinition.weaken (fun tables h ↦ ⟨h.1, h.2 scope List.mem_cons_self name decl hlookup⟩)
          fun _ _ ↦ fun h ↦ h

theorem spec_lookupTypeName {id : ℕ} {name : String} :
    Spec (fun _ ↦ True) (lookupTypeName id name) fun decl tables ↦ tables.definition id = some decl := by
  refine .get_bind fun tables _ ↦ ?_
  cases hdefinition : tables.definition id with
  | some decl =>
    refine .pure fun tables' h ↦ ?_
    rw [h, hdefinition]
  | none =>
    intro tables' hvalid h
    subst h
    exact spec_lookupTypeImpl tables' hvalid ⟨hdefinition, hvalid.scopes⟩

theorem spec_deref {decl : ℕ} {F : Tables → Prop} :
    Spec F (deref decl) fun node tables ↦ F tables ∧ tables.aliases[decl]? = some node := by
  refine .get_bind fun tables hF ↦ ?_
  cases hnode : tables.aliases[decl]? with
  | none => exact .throw _
  | some node =>
    refine .pure fun tables' h ↦ ?_
    subst h
    exact ⟨hF, hnode⟩

theorem keeps_getRet {id : ℕ} {ret : Option Node} : Keeps (getRet id ret) :=
  .get_bind fun _ _ ↦ .pure fun _ _ ↦ trivial

/-- A name is looked up, and what follows goes on with its alias. -/
theorem keeps_lookup {β : Type} {id : ℕ} {name : String} {f : TypeAlias → Analysis β} (hf : ∀ node, Keeps (f node)) :
    Keeps (lookupTypeName id name >>= fun decl ↦ deref decl >>= f) :=
  spec_lookupTypeName.keeps.bind fun _ ↦ Keeps.bind (spec_deref.keeps) hf

theorem keeps_lookupStrongType (fuel : ℕ) (type : Node) : Keeps (lookupStrongType fuel type) := by
  induction fuel generalizing type with
  | zero => exact .throw _
  | succ fuel ih =>
    cases type with
    | named id name => exact keeps_lookup fun node ↦ .ite (.pure fun _ _ ↦ trivial) (ih node.type)
    | btn | array | func | struct => exact .pure fun _ _ ↦ trivial

theorem keeps_lookupConcreteType (fuel : ℕ) (type : Node) : Keeps (lookupConcreteType fuel type) := by
  induction fuel generalizing type with
  | zero => exact .throw _
  | succ fuel ih =>
    cases type with
    | named id name => exact keeps_lookup fun node ↦ ih node.type
    | btn | array | func | struct => exact .pure fun _ _ ↦ trivial

section

variable {κ : Type} [BEq κ] {compare : Node → Node → Analysis Bool}

theorem keeps_equalEntries (h : ∀ a b, Keeps (compare a b)) : (as bs : List (κ × Node)) →
    Keeps (equalEntries compare as bs)
  | (key, a) :: as, (key', b) :: bs => by
    rw [equalEntries]
    refine .ite ?_ (.pure fun _ _ ↦ trivial)
    exact (h a b).bind fun _ ↦ .ite (keeps_equalEntries h as bs) (.pure fun _ _ ↦ trivial)
  | [], _ | _ :: _, [] => .pure fun _ _ ↦ trivial

theorem keeps_equalSize (h : ∀ a b, Keeps (compare a b)) (as bs : List (κ × Node)) :
    Keeps (equalSize compare as bs) :=
  .ite (keeps_equalEntries h as bs) (.pure fun _ _ ↦ trivial)

theorem keeps_compareRets (h : ∀ a b, Keeps (compare a b)) (a b : Option Node) : Keeps (compareRets compare a b) := by
  cases a <;> cases b
  · exact .pure fun _ _ ↦ trivial
  · exact .pure fun _ _ ↦ trivial
  · exact .pure fun _ _ ↦ trivial
  · exact h _ _

end

theorem keeps_compareTypes (pointers : Pointers) (fuel : ℕ) (a b : Node) : Keeps (compareTypes pointers fuel a b) := by
  induction fuel generalizing a b with
  | zero => exact .throw _
  | succ fuel ih =>
    rw [compareTypes]
    refine .ite (.pure fun _ _ ↦ trivial) ?_
    refine (keeps_lookupStrongType (fuel + 1) a).bind fun lhs ↦ (keeps_lookupStrongType (fuel + 1) b).bind fun rhs ↦ ?_
    split
    · exact .pure fun _ _ ↦ trivial
    · exact ih _ _
    · exact keeps_getRet.bind fun _ ↦ keeps_getRet.bind fun _ ↦ (keeps_compareRets ih _ _).bind fun _ ↦
        .ite (keeps_equalSize ih _ _) (.pure fun _ _ ↦ trivial)
    · exact .pure fun _ _ ↦ trivial
    · exact keeps_equalSize ih _ _
    · exact .pure fun _ _ ↦ trivial

/-! ## Validated types have a meaning -/

theorem spec_setRetVoid {id : ℕ} :
    Spec (fun _ ↦ True) (modify (setRetVoid id) : Analysis Unit) fun _ tables ↦ tables.retVoid id = true := by
  intro tables hvalid _
  have hextends : Extends tables (setRetVoid id tables) := by
    refine ⟨fun _ _ h ↦ h, fun _ _ h ↦ h, fun id' htrue ↦ ?_⟩
    change (if id' = id then true else tables.retVoid id') = true
    rw [htrue, ite_self]
  exact ⟨hvalid.of_means hextends rfl rfl hvalid.definition, hextends, fun _ _ ↦ if_pos rfl⟩

theorem spec_getRet {id : ℕ} {ret : Option Node} :
    Spec (fun _ ↦ True) (getRet id ret) fun ret' tables ↦
      ret' = (ret <|> if tables.retVoid id then some (.btn .void) else none) := by
  refine .get_bind fun tables _ ↦ .pure fun tables' h ↦ ?_
  rw [h]

section

variable {validate : Node → Analysis Unit}

/-- What a validated return type is. -/
def RetMeans (tables : Tables) (id : ℕ) : Option Node → Prop
  | some ret => ∃ type, Means tables ret type
  | none => tables.retVoid id = true

theorem RetMeans.mono {tables tables' : Tables} {id : ℕ} {ret : Option Node} (h : RetMeans tables id ret)
    (hextends : Extends tables tables') : RetMeans tables' id ret := by
  cases ret with
  | none => exact hextends.retVoid id h
  | some ret =>
    obtain ⟨type, htype⟩ := h
    exact ⟨type, htype.mono hextends⟩

theorem spec_validateRet (h : ∀ type, Spec (fun _ ↦ True) (validate type) fun _ tables ↦ ∃ type', Means tables type type')
    (id : ℕ) (ret : Option Node) :
    Spec (fun _ ↦ True) (validateRet validate id ret) fun _ tables ↦ RetMeans tables id ret := by
  refine spec_getRet.bind fun ret' ↦ ?_
  cases ret with
  | some ret =>
    cases ret' with
    | none => exact fun _ _ hnone ↦ nomatch hnone
    | some ret' =>
      intro tables hvalid heq
      cases heq
      exact h _ tables hvalid trivial
  | none =>
    intro tables hvalid heq
    cases hvoid : tables.retVoid id with
    | true =>
      rw [hvoid] at heq
      cases heq
      have hframe := (h (.btn .void)).frame (F := fun tables ↦ tables.retVoid id = true)
        fun _ _ hextends ↦ hextends.retVoid id
      obtain ⟨hvalid', hextends, hpost⟩ := hframe tables hvalid ⟨hvoid, trivial⟩
      exact ⟨hvalid', hextends, fun a ha ↦ (hpost a ha).1⟩
    | false =>
      rw [hvoid] at heq
      cases heq
      exact spec_setRetVoid tables hvalid trivial

theorem spec_validateEntries {κ : Type}
    (h : ∀ type, Spec (fun _ ↦ True) (validate type) fun _ tables ↦ ∃ type', Means tables type type') :
    (entries : List (κ × Node)) →
      Spec (fun _ ↦ True) (validateEntries validate entries) fun _ tables ↦ ∃ types, MeansEntries tables entries types
  | [] => .pure fun _ _ ↦ ⟨[], .nil⟩
  | (key, type) :: entries => by
    refine (h type).bind fun _ ↦ ?_
    have hrest := (spec_validateEntries h entries).frame (F := fun tables ↦ ∃ type', Means tables type type')
      fun _ _ hextends ⟨type', htype⟩ ↦ ⟨type', htype.mono hextends⟩
    refine hrest.weaken (fun _ htype ↦ ⟨htype, trivial⟩) ?_
    rintro _ _ ⟨⟨type', htype⟩, types, htypes⟩
    exact ⟨_, .cons htype htypes⟩

end

theorem spec_validateType (fuel : ℕ) (type : Node) :
    Spec (fun _ ↦ True) (validateType fuel type) fun _ tables ↦ ∃ type', Means tables type type' := by
  induction fuel generalizing type with
  | zero => exact .throw _
  | succ fuel ih =>
    cases type with
    | btn value => exact .pure fun _ _ ↦ ⟨_, .btn⟩
    | array elem =>
      refine (ih elem).weaken (fun _ h ↦ h) ?_
      rintro _ _ ⟨type', htype⟩
      exact ⟨_, .array htype⟩
    | func id params ret =>
      refine (spec_validateRet ih id ret).bind fun _ ↦ ?_
      have hparams := (spec_validateEntries ih params).frame (F := fun tables ↦ RetMeans tables id ret)
        fun _ _ hextends hret ↦ hret.mono hextends
      refine hparams.weaken (fun _ hret ↦ ⟨hret, trivial⟩) ?_
      rintro _ tables ⟨hret, types, htypes⟩
      cases ret with
      | none => exact ⟨_, .procedure hret htypes⟩
      | some ret =>
        obtain ⟨type', htype⟩ := hret
        exact ⟨_, .func htype htypes⟩
    | named id name =>
      refine spec_lookupTypeName.bind fun decl ↦ spec_deref.bind fun node ↦ ?_
      -- the alias has a meaning before its type is visited again
      intro tables hvalid ⟨hdefinition, hnode⟩
      obtain ⟨type', htype⟩ := hvalid.aliases decl node hnode
      obtain ⟨hvalid', hextends, -⟩ := ih node.type tables hvalid trivial
      exact ⟨hvalid', hextends, fun _ _ ↦
        ⟨_, .named (hextends.definition id decl hdefinition) (hextends.aliases decl node hnode) (htype.mono hextends)⟩⟩
    | struct fields =>
      refine (spec_validateEntries ih fields).bind fun _ ↦ ?_
      cases hnames : duplicateName (fields.map Prod.fst) with
      | some name => exact .throw _
      | none =>
        refine .pure ?_
        rintro _ ⟨types, htypes⟩
        exact ⟨_, .struct htypes hnames⟩

/-! ## The invariant -/

theorem extends_updateScope (tables : Tables) (f : Scope → Scope) : Extends tables (tables.updateScope f) := by
  rw [Tables.updateScope]
  split
  · exact .refl tables
  · exact ⟨fun _ _ h ↦ h, fun _ _ h ↦ h, fun _ h ↦ h⟩

/-- A symbol is inserted that refers to no alias still to come. -/
theorem Valid.insert {tables : Tables} (h : Valid tables) (name : String) {symbol : Symbol}
    (hsymbol : ∀ decl, symbol = .typeAlias decl → decl < tables.aliases.length) :
    Valid (tables.updateScope fun scope ↦ (name, symbol) :: scope) := by
  have hextends := extends_updateScope tables fun scope ↦ (name, symbol) :: scope
  rw [Tables.updateScope] at hextends ⊢
  split
  · exact h
  · rename_i scope parents hscopes
    rw [hscopes] at hextends
    refine ⟨h.definition, fun scope' hmem name' decl hlookup ↦ ?_, fun decl node hnode ↦ ?_⟩
    · have hold := h.scopes
      rw [hscopes] at hold
      rcases List.mem_cons.mp hmem with rfl | hmem
      · rw [List.lookup_cons] at hlookup
        split at hlookup
        · exact hsymbol decl (Option.some.inj hlookup)
        · exact hold scope List.mem_cons_self name' decl hlookup
      · exact hold scope' (List.mem_cons_of_mem _ hmem) name' decl hlookup
    · obtain ⟨type, htype⟩ := h.aliases decl node hnode
      exact ⟨type, htype.mono hextends⟩

theorem extends_append (tables : Tables) (node : TypeAlias) :
    Extends tables { tables with aliases := tables.aliases ++ [node] } := by
  refine ⟨fun decl node' hnode ↦ ?_, fun _ _ h ↦ h, fun _ h ↦ h⟩
  rw [List.getElem?_append_left (List.getElem?_eq_some_iff.mp hnode).1]
  exact hnode

/-- A validated alias is added. -/
theorem Valid.append {tables : Tables} (h : Valid tables) {node : TypeAlias} {type : Ty}
    (htype : Means tables node.type type) : Valid { tables with aliases := tables.aliases ++ [node] } := by
  have hextends := extends_append tables node
  have hlt {decl : ℕ} (h : decl < tables.aliases.length) : decl < (tables.aliases ++ [node]).length := by
    rw [List.length_append]
    exact Nat.lt_add_right _ h
  refine ⟨fun id decl hdecl ↦ hlt (h.definition id decl hdecl), fun scope hmem name decl hlookup ↦
    hlt (h.scopes scope hmem name decl hlookup), fun decl node' hnode ↦ ?_⟩
  by_cases hold : decl < tables.aliases.length
  · change (tables.aliases ++ [node])[decl]? = some node' at hnode
    rw [List.getElem?_append_left hold] at hnode
    obtain ⟨type', htype'⟩ := h.aliases decl node' hnode
    exact ⟨type', htype'.mono hextends⟩
  · change (tables.aliases ++ [node])[decl]? = some node' at hnode
    rw [List.getElem?_append_right (Nat.le_of_not_lt hold)] at hnode
    have heq := List.mem_singleton.mp (List.mem_of_getElem? hnode)
    exact ⟨type, heq ▸ htype.mono hextends⟩

theorem spec_insertAlias {node : TypeAlias} :
    Spec (fun tables ↦ ∃ type, Means tables node.type type) (insertAlias node) fun _ _ ↦ True := by
  refine .get_bind fun tables hmeans ↦ ?_
  split
  · exact .throw _
  · intro tables' hvalid heq
    subst heq
    obtain ⟨type, htype⟩ := hmeans
    have happend := extends_append tables' node
    refine ⟨(hvalid.append htype).insert node.name fun decl hdecl ↦ ?_, happend.trans (extends_updateScope _ _),
      fun _ _ ↦ trivial⟩
    cases hdecl
    change tables'.aliases.length < (tables'.aliases ++ [node]).length
    rw [List.length_append]
    exact Nat.lt_succ_self _

theorem keeps_insertOther {name : String} : Keeps (insertOther name) := by
  have hinsert : Keeps (modify (Tables.updateScope fun scope ↦ (name, .other) :: scope) : Analysis Unit) :=
    fun tables hvalid _ ↦ ⟨hvalid.insert name nofun, extends_updateScope tables _, fun _ _ ↦ trivial⟩
  refine .get_bind fun tables _ ↦ ?_
  split
  · exact .throw _
  · exact hinsert.weaken (fun _ _ ↦ trivial) fun _ _ h ↦ h
  · exact hinsert.weaken (fun _ _ ↦ trivial) fun _ _ h ↦ h

theorem keeps_scopes {f : List Scope → List Scope} (h : ∀ scopes, ∀ scope ∈ f scopes, scope ∈ scopes ∨ scope = []) :
    Keeps (modify (fun tables ↦ { tables with scopes := f tables.scopes }) : Analysis Unit) := by
  intro tables hvalid _
  have hextends : Extends tables { tables with scopes := f tables.scopes } :=
    ⟨fun _ _ h ↦ h, fun _ _ h ↦ h, fun _ h ↦ h⟩
  refine ⟨⟨hvalid.definition, fun scope hmem name decl hlookup ↦ ?_, fun decl node hnode ↦ ?_⟩, hextends,
    fun _ _ ↦ trivial⟩
  · rcases h tables.scopes scope hmem with hold | rfl
    · exact hvalid.scopes scope hold name decl hlookup
    · cases hlookup
  · obtain ⟨type, htype⟩ := hvalid.aliases decl node hnode
    exact ⟨type, htype.mono hextends⟩

/-- Whatever the analysis does next keeps the tables valid and loses nothing. -/
theorem keeps_visit (event : Event) : Keeps (visit event) := by
  cases event with
  | enterScope => exact keeps_scopes (f := ([] :: ·)) fun _ _ hmem ↦ (List.mem_cons.mp hmem).symm
  | leaveScope => exact keeps_scopes (f := List.tail) fun _ _ hmem ↦ .inl (List.mem_of_mem_tail hmem)
  | insertOther name => exact keeps_insertOther
  | typeAlias fuel node => exact (spec_validateType fuel node.type).bind fun _ ↦ spec_insertAlias
  | validateType fuel type => exact (spec_validateType fuel type).keeps
  | lookupStrongType fuel type => exact (keeps_lookupStrongType fuel type).bind fun _ ↦ .pure fun _ _ ↦ trivial
  | lookupConcreteType fuel type => exact (keeps_lookupConcreteType fuel type).bind fun _ ↦ .pure fun _ _ ↦ trivial
  | compareTypes pointers fuel a b =>
    exact (keeps_compareTypes pointers fuel a b).bind fun _ ↦ .pure fun _ _ ↦ trivial

/-- The tables are valid, and the types that have passed have a meaning. -/
structure Inv (s : State) : Prop where
  tables : Valid s.tables
  passed : ∀ type ∈ s.passed, ∃ type', Means s.tables type type'

theorem inv_init : Inv .init := by
  refine ⟨⟨fun id decl hdecl ↦ ?_, fun scope hmem name decl hlookup ↦ ?_, fun decl node hnode ↦ ?_⟩, List.forall_mem_nil _⟩
  · change (if id = 0 then some 3 else none) = some decl at hdecl
    split at hdecl
    · cases hdecl
      decide
    · cases hdecl
  · cases List.mem_singleton.mp hmem
    obtain ⟨before, after, hscope, -⟩ := List.lookup_eq_some_iff.mp hlookup
    have hmem : (name, Symbol.typeAlias decl) ∈ before ++ (name, .typeAlias decl) :: after :=
      List.mem_append_right _ List.mem_cons_self
    rw [← hscope] at hmem
    rcases List.mem_append.mp hmem with hmem | hmem
    · obtain ⟨⟨⟨name', value⟩, decl'⟩, hentry, heq⟩ := List.mem_map.mp hmem
      cases heq
      exact (List.mem_zipIdx hentry).2.1
    · obtain ⟨name', -, heq⟩ := List.mem_map.mp hmem
      cases heq
  · obtain ⟨⟨name, value⟩, -, heq⟩ := List.mem_map.mp (List.mem_of_getElem? hnode)
    exact ⟨.btn value, heq ▸ .btn⟩

/-- What an event validates has a meaning afterwards. -/
theorem newlyPassed_means {event : Event} {tables : Tables} (h : Valid tables) :
    ∀ type ∈ newlyPassed event tables, ∃ type', Means (exec (visit event) tables).2 type type' := by
  intro type hmem
  cases event with
  | typeAlias fuel node =>
    rw [newlyPassed, Event.validated] at hmem
    obtain ⟨hvalid, -, hpost⟩ := spec_validateType fuel node.type tables h trivial
    cases hvalidate : (exec (validateType fuel node.type) tables).1 with
    | error stop =>
      simp only [hvalidate] at hmem
      cases hmem
    | ok u =>
      simp only [hvalidate, List.mem_singleton] at hmem
      obtain ⟨type', htype⟩ := hpost u hvalidate
      obtain ⟨-, hextends, -⟩ := spec_insertAlias _ hvalid ⟨type', htype⟩
      rw [visit, exec_bind_ok (Prod.ext hvalidate rfl), hmem]
      exact ⟨type', htype.mono hextends⟩
  | validateType fuel node =>
    rw [newlyPassed, Event.validated] at hmem
    obtain ⟨-, -, hpost⟩ := spec_validateType fuel node tables h trivial
    cases hvalidate : (exec (validateType fuel node) tables).1 with
    | error stop =>
      simp only [hvalidate] at hmem
      cases hmem
    | ok u =>
      simp only [hvalidate, List.mem_singleton] at hmem
      exact hmem ▸ hpost u hvalidate
  | enterScope | leaveScope | insertOther | lookupStrongType | lookupConcreteType | compareTypes => cases hmem

theorem inv_step {s s' : State} (event : Event) (h : Inv s) (hstep : step s event = some s') :
    Inv s' ∧ Extends s.tables s'.tables := by
  cases hstep
  obtain ⟨hvalid, hextends, -⟩ := keeps_visit event s.tables h.tables trivial
  refine ⟨⟨hvalid, fun type hmem ↦ ?_⟩, hextends⟩
  rcases List.mem_append.mp hmem with hmem | hmem
  · exact newlyPassed_means h.tables type hmem
  · obtain ⟨type', htype⟩ := h.passed type hmem
    exact ⟨type', htype.mono hextends⟩

/-- Over any run, meanings last. -/
theorem inv_run {s s' : State} (h : Inv s) {events : List Event} (hrun : Machine.run step s events = some s') :
    Inv s' ∧ Extends s.tables s'.tables := by
  have hstep (t : State) (event : Event) (t' : State) (ht : Inv t ∧ Extends s.tables t.tables)
      (hstep : step t event = some t') : Inv t' ∧ Extends s.tables t'.tables := by
    obtain ⟨hinv, hextends⟩ := inv_step event ht.1 hstep
    exact ⟨hinv, ht.2.trans hextends⟩
  exact Machine.run_invariant hstep hrun ⟨h, .refl s.tables⟩

theorem inv_of_reachable {s : State} (h : Reachable s) : Inv s := by
  obtain ⟨events, hrun⟩ := h
  exact (inv_run inv_init hrun).1

/-! ## Runs on types with a meaning -/

section

variable {tables : Tables}

theorem exec_get_bind {α : Type} (f : Tables → Analysis α) : exec (get >>= f) tables = exec (f tables) tables :=
  exec_bind_ok (exec_get tables)

theorem lookupTypeName_run {id decl : ℕ} {name : String} (h : tables.definition id = some decl) :
    exec (lookupTypeName id name) tables = (.ok decl, tables) := by
  rw [lookupTypeName, exec_get_bind, h]
  rfl

theorem deref_run {decl : ℕ} {node : TypeAlias} (h : tables.aliases[decl]? = some node) :
    exec (deref decl) tables = (.ok node, tables) := by
  rw [deref, exec_get_bind, h]
  rfl

/-- A bound name goes on with its alias. -/
theorem lookup_run {β : Type} {id decl : ℕ} {name : String} {node : TypeAlias}
    (hdefinition : tables.definition id = some decl) (hnode : tables.aliases[decl]? = some node)
    (f : TypeAlias → Analysis β) :
    exec (lookupTypeName id name >>= fun decl ↦ deref decl >>= f) tables = exec (f node) tables := by
  rw [exec_bind_ok (lookupTypeName_run hdefinition), exec_bind_ok (deref_run hnode)]

theorem sizeOf_named {name : String} {decl : ℕ} {strong : Bool} {type : Ty} :
    sizeOf type < sizeOf (Ty.named name decl strong type) := by
  rw [Ty.named.sizeOf_spec]
  omega

theorem lookupStrongType_run {fuel : ℕ} {node : Node} {type : Ty} (h : Means tables node type)
    (hfuel : sizeOf type < fuel) :
    ∃ node', exec (lookupStrongType fuel node) tables = (.ok node', tables) ∧
      Means tables node' type.lookupStrongType := by
  induction fuel generalizing node type with
  | zero => exact absurd hfuel (Nat.not_lt_zero _)
  | succ fuel ih =>
    cases h with
    | @named id name decl target type hdefinition hnode htype =>
      rw [lookupStrongType, lookup_run hdefinition hnode]
      cases hstrong : target.strong with
      | true =>
        rw [if_pos rfl]
        refine ⟨.named id name, rfl, ?_⟩
        have hmeans : Means tables (.named id name) (.named name decl target.strong type) :=
          .named hdefinition hnode htype
        rw [hstrong] at hmeans
        exact hmeans
      | false =>
        rw [if_neg Bool.false_ne_true]
        change ∃ node', _ ∧ Means tables node' type.lookupStrongType
        exact ih htype (Nat.lt_of_lt_of_le sizeOf_named (Nat.le_of_lt_succ hfuel))
    | btn => exact ⟨_, rfl, .btn⟩
    | array helem => exact ⟨_, rfl, .array helem⟩
    | func hret hparams => exact ⟨_, rfl, .func hret hparams⟩
    | procedure hret hparams => exact ⟨_, rfl, .procedure hret hparams⟩
    | struct hfields hnames => exact ⟨_, rfl, .struct hfields hnames⟩

/-- A type that is not a name. -/
def Concrete (node : Node) : Prop := ∀ id name, node ≠ .named id name

/-- From a name to the type of its alias. -/
def Follows (tables : Tables) (node node' : Node) : Prop :=
  ∃ id name decl target, node = .named id name ∧ tables.definition id = some decl ∧
    tables.aliases[decl]? = some target ∧ node' = target.type

/-- `lookupConcreteType` follows a finite chain to its end. -/
theorem lookupConcreteType_run {fuel : ℕ} {node : Node} {type : Ty} (h : Means tables node type)
    (hfuel : sizeOf type < fuel) :
    ∃ node', exec (lookupConcreteType fuel node) tables = (.ok node', tables) ∧
      Means tables node' type.concreteType ∧ Relation.ReflTransGen (Follows tables) node node' ∧ Concrete node' := by
  induction fuel generalizing node type with
  | zero => exact absurd hfuel (Nat.not_lt_zero _)
  | succ fuel ih =>
    cases h with
    | @named id name decl target type hdefinition hnode htype =>
      rw [lookupConcreteType, lookup_run hdefinition hnode]
      obtain ⟨node', hrun, hmeans, hchain, hconcrete⟩ :=
        ih htype (Nat.lt_of_lt_of_le sizeOf_named (Nat.le_of_lt_succ hfuel))
      exact ⟨node', hrun, hmeans, .head ⟨id, name, decl, target, rfl, hdefinition, hnode, rfl⟩ hchain, hconcrete⟩
    | btn => exact ⟨_, rfl, .btn, .refl, nofun⟩
    | array helem => exact ⟨_, rfl, .array helem, .refl, nofun⟩
    | func hret hparams => exact ⟨_, rfl, .func hret hparams, .refl, nofun⟩
    | procedure hret hparams => exact ⟨_, rfl, .procedure hret hparams, .refl, nofun⟩
    | struct hfields hnames => exact ⟨_, rfl, .struct hfields hnames, .refl, nofun⟩

end

/-! ## Validation and comparison -/

section

variable {tables : Tables}

theorem sizeOf_lt_of_mem {κ : Type} [SizeOf κ] {types : List (κ × Ty)} {key : κ} {type : Ty} (h : (key, type) ∈ types) :
    sizeOf type < sizeOf types := by
  have hlt := List.sizeOf_lt_of_mem h
  rw [Prod.mk.sizeOf_spec] at hlt
  omega

theorem getRet_run {id : ℕ} {ret : Option Node} :
    exec (getRet id ret) tables = (.ok (ret <|> if tables.retVoid id then some (.btn .void) else none), tables) := by
  rw [getRet, exec_get_bind]
  rfl

/-- The return type of a function type with a meaning. -/
theorem getRet_means {id : ℕ} {params : List (ParamRef × Node)} {ret : Option Node} {type : Ty}
    (h : Means tables (.func id params ret) type) : ∃ types ret' retType, type = .func types (some retType) ∧
      exec (getRet id ret) tables = (.ok (some ret'), tables) ∧ Means tables ret' retType ∧
        MeansEntries tables params types := by
  rw [getRet_run]
  cases h with
  | func hret hparams => exact ⟨_, _, _, rfl, rfl, hret, hparams⟩
  | procedure hret hparams =>
    refine ⟨_, .btn .void, _, rfl, ?_, .btn, hparams⟩
    rw [hret]
    rfl

theorem validateEntries_run {κ : Type} {fuel : ℕ} {validate : Node → Analysis Unit}
    (h : ∀ node type, Means tables node type → sizeOf type < fuel → exec (validate node) tables = (.ok (), tables)) :
    {nodes : List (κ × Node)} → {types : List (κ × Ty)} → MeansEntries tables nodes types →
      (∀ key type, (key, type) ∈ types → sizeOf type < fuel) →
        exec (validateEntries validate nodes) tables = (.ok (), tables)
  | _, _, .nil, _ => rfl
  | _, _, .cons hnode hnodes, hfuel => by
    rw [validateEntries, exec_bind_ok (h _ _ hnode (hfuel _ _ List.mem_cons_self))]
    exact validateEntries_run h hnodes fun key type hmem ↦ hfuel key type (List.mem_cons_of_mem _ hmem)

/-- What has passed once passes again. -/
theorem validateType_run {fuel : ℕ} {node : Node} {type : Ty} (h : Means tables node type)
    (hfuel : sizeOf type < fuel) : exec (validateType fuel node) tables = (.ok (), tables) := by
  induction fuel generalizing node type with
  | zero => exact absurd hfuel (Nat.not_lt_zero _)
  | succ fuel ih =>
    have hle := Nat.le_of_lt_succ hfuel
    cases node with
    | btn value => rfl
    | array elem =>
      cases h with
      | @array _ type helem =>
        refine ih helem (Nat.lt_of_lt_of_le ?_ hle)
        rw [Ty.array.sizeOf_spec]
        omega
    | func id params ret =>
      obtain ⟨types, ret', retType, rfl, hget, hret, hparams⟩ := getRet_means h
      rw [Ty.func.sizeOf_spec, Option.some.sizeOf_spec] at hle
      have hvalidRet : exec (validateRet (validateType fuel) id ret) tables = (.ok (), tables) := by
        rw [validateRet, exec_bind_ok hget]
        exact ih hret (by omega)
      rw [validateType, exec_bind_ok hvalidRet]
      refine validateEntries_run (fun _ _ ↦ ih) hparams fun key type hmem ↦ ?_
      have hlt := sizeOf_lt_of_mem hmem
      omega
    | named id name =>
      cases h with
      | named hdefinition hnode htype =>
        rw [validateType, lookup_run hdefinition hnode]
        exact ih htype (Nat.lt_of_lt_of_le sizeOf_named hle)
    | struct fields =>
      cases h with
      | struct hfields hnames =>
        rw [Ty.struct.sizeOf_spec] at hle
        have hvalid : exec (validateEntries (validateType fuel) fields) tables = (.ok (), tables) := by
          refine validateEntries_run (fun _ _ ↦ ih) hfields fun key type hmem ↦ ?_
          have hlt := sizeOf_lt_of_mem hmem
          omega
        rw [validateType, exec_bind_ok hvalid, hnames]
        rfl

/-! ### Comparison -/

theorem compareTypes_lookupStrongType : (a b : Ty) →
    Semantic.compareTypes a b = Semantic.compareTypes a.lookupStrongType b
  | .named _ _ false type, b => compareTypes_lookupStrongType type b
  | .named _ _ true _, _ | .btn _, _ | .array _, _ | .func _ _, _ | .struct _, _ | .user _ _ _ _, _ => rfl

theorem sizeOf_lookupStrongType : (type : Ty) → sizeOf type.lookupStrongType ≤ sizeOf type
  | .named _ _ false type => Nat.le_trans (sizeOf_lookupStrongType type) (Nat.le_of_lt sizeOf_named)
  | .named _ _ true _ | .btn _ | .array _ | .func _ _ | .struct _ | .user _ _ _ _ => Nat.le_refl _

section

variable {κ : Type} [BEq κ] {fuel : ℕ} {compare : Node → Node → Analysis Bool}
  {equal : List (κ × Ty) → List (κ × Ty) → Bool}

theorem MeansEntries.length_eq {κ : Type} : {nodes : List (κ × Node)} → {types : List (κ × Ty)} →
    MeansEntries tables nodes types → nodes.length = types.length
  | _, _, .nil => rfl
  | _, _, .cons _ hnodes => congrArg Nat.succ hnodes.length_eq

theorem equalEntries_run
    (hcompare : ∀ a b type type', Means tables a type → Means tables b type' → sizeOf type < fuel → sizeOf type' < fuel →
      exec (compare a b) tables = (.ok (Semantic.compareTypes type type'), tables))
    (hnil : equal [] [] = true)
    (hcons : ∀ key type types key' type' types', equal ((key, type) :: types) ((key', type') :: types') =
      (key == key' && Semantic.compareTypes type type' && equal types types')) :
    {as bs : List (κ × Node)} → {types types' : List (κ × Ty)} → MeansEntries tables as types →
      MeansEntries tables bs types' → as.length = bs.length → (∀ key type, (key, type) ∈ types → sizeOf type < fuel) →
        (∀ key type, (key, type) ∈ types' → sizeOf type < fuel) →
          exec (equalEntries compare as bs) tables = (.ok (equal types types'), tables)
  | _, _, _, _, .nil, .nil, _, _, _ => by
    rw [hnil]
    rfl
  | _, _, _, _, .nil, .cons _ _, hlen, _, _ => nomatch hlen
  | _, _, _, _, .cons _ _, .nil, hlen, _, _ => nomatch hlen
  | _, _, _, _, @MeansEntries.cons _ _ key a type as types ha has, @MeansEntries.cons _ _ key' b type' bs types' hb hbs,
      hlen, hfuel, hfuel' => by
    rw [equalEntries, hcons]
    cases hkey : key == key' with
    | false => rfl
    | true =>
      rw [if_pos rfl, exec_bind_ok
        (hcompare a b type type' ha hb (hfuel _ _ List.mem_cons_self) (hfuel' _ _ List.mem_cons_self)), Bool.true_and]
      cases heq : Semantic.compareTypes type type' with
      | false => rfl
      | true =>
        rw [if_pos rfl, Bool.true_and]
        exact equalEntries_run hcompare hnil hcons has hbs (Nat.succ.inj hlen)
          (fun key type hmem ↦ hfuel key type (List.mem_cons_of_mem _ hmem))
          fun key type hmem ↦ hfuel' key type (List.mem_cons_of_mem _ hmem)

theorem equalSize_run
    (hcompare : ∀ a b type type', Means tables a type → Means tables b type' → sizeOf type < fuel → sizeOf type' < fuel →
      exec (compare a b) tables = (.ok (Semantic.compareTypes type type'), tables))
    (hnil : equal [] [] = true)
    (hcons : ∀ key type types key' type' types', equal ((key, type) :: types) ((key', type') :: types') =
      (key == key' && Semantic.compareTypes type type' && equal types types'))
    (hlength : ∀ types types', equal types types' = true → types.length = types'.length)
    {as bs : List (κ × Node)} {types types' : List (κ × Ty)} (has : MeansEntries tables as types)
    (hbs : MeansEntries tables bs types') (hfuel : ∀ key type, (key, type) ∈ types → sizeOf type < fuel)
    (hfuel' : ∀ key type, (key, type) ∈ types' → sizeOf type < fuel) :
    exec (equalSize compare as bs) tables = (.ok (equal types types'), tables) := by
  rw [equalSize]
  by_cases hlen : as.length = bs.length
  · rw [if_pos hlen]
    exact equalEntries_run hcompare hnil hcons has hbs hlen hfuel hfuel'
  · rw [if_neg hlen]
    have hfalse : equal types types' = false := by
      by_contra htrue
      refine hlen ?_
      rw [has.length_eq, hbs.length_eq]
      exact hlength _ _ (Bool.not_eq_false _ ▸ htrue)
    rw [hfalse]
    rfl

end

theorem compareParams_length : (types types' : List (ParamRef × Ty)) → compareParams types types' = true →
    types.length = types'.length
  | [], [], _ => rfl
  | [], _ :: _, h => nomatch h
  | _ :: _, [], h => nomatch h
  | (_, _) :: types, (_, _) :: types', h =>
    congrArg Nat.succ (compareParams_length types types' ((Bool.and_eq_true _ _).mp h).2)

theorem compareFields_length : (types types' : List (String × Ty)) → compareFields types types' = true →
    types.length = types'.length
  | [], [], _ => rfl
  | [], _ :: _, h => nomatch h
  | _ :: _, [], h => nomatch h
  | (_, _) :: types, (_, _) :: types', h =>
    congrArg Nat.succ (compareFields_length types types' ((Bool.and_eq_true _ _).mp h).2)

/-- The comparison of types that are not weak aliases. -/
theorem compareStrong_run {pointers : Pointers} {fuel : ℕ} {lhs rhs : Node} {type type' other : Ty}
    (ih : ∀ a b type type', Means tables a type → Means tables b type' → sizeOf type < fuel → sizeOf type' < fuel →
      exec (compareTypes pointers fuel a b) tables = (.ok (Semantic.compareTypes type type'), tables))
    (hlhs : Means tables lhs type) (hrhs : Means tables rhs type')
    (hweak : ∀ name decl type'', type ≠ .named name decl false type'') (hother : other.lookupStrongType = type')
    (hfuel : sizeOf type ≤ fuel) (hfuel' : sizeOf type' ≤ fuel) :
    exec (match lhs, rhs with
      | .btn value, .btn value' => return value == value'
      | .array elem, .array elem' => compareTypes pointers fuel elem elem'
      | .func id params ret, .func id' params' ret' => do
          let ret ← getRet id ret
          let ret' ← getRet id' ret'
          let eq ← compareRets (compareTypes pointers fuel) ret ret'
          if eq then equalSize (compareTypes pointers fuel) params params' else return false
      | .named _ name, .named _ name' => return name == name'
      | .struct fields, .struct fields' => equalSize (compareTypes pointers fuel) fields fields'
      | _, _ => return false) tables = (.ok (Semantic.compareTypes type other), tables) := by
  cases lhs with
  | btn value =>
    cases hlhs
    rw [Semantic.compareTypes, hother]
    cases hrhs <;> rfl
  | array elem =>
    cases hlhs with
    | @array _ elemType helem =>
      rw [Semantic.compareTypes, hother]
      cases hrhs with
      | @array _ elemType' helem' =>
        rw [Ty.array.sizeOf_spec] at hfuel hfuel'
        exact ih _ _ _ _ helem helem' (by omega) (by omega)
      | btn | func | procedure | named | struct => rfl
  | func id params ret =>
    obtain ⟨types, retNode, retType, rfl, hget, hret, hparams⟩ := getRet_means hlhs
    rw [Semantic.compareTypes, hother]
    cases rhs with
    | func id' params' ret' =>
      obtain ⟨types', retNode', retType', rfl, hget', hret', hparams'⟩ := getRet_means hrhs
      rw [Ty.func.sizeOf_spec, Option.some.sizeOf_spec] at hfuel hfuel'
      simp only
      rw [exec_bind_ok hget, exec_bind_ok hget']
      have hrets : exec (compareRets (compareTypes pointers fuel) (some retNode) (some retNode')) tables =
          (.ok (Semantic.compareTypes retType retType'), tables) :=
        ih _ _ _ _ hret hret' (by omega) (by omega)
      rw [exec_bind_ok hrets]
      change _ = (Except.ok (Semantic.compareTypes retType retType' && compareParams types types'), tables)
      cases heq : Semantic.compareTypes retType retType' with
      | false => rfl
      | true =>
        rw [if_pos rfl, Bool.true_and]
        refine equalSize_run ih rfl (fun _ _ _ _ _ _ ↦ rfl) compareParams_length hparams hparams'
          (fun key type hmem ↦ ?_) fun key type hmem ↦ ?_
        · have hlt := sizeOf_lt_of_mem hmem
          omega
        · have hlt := sizeOf_lt_of_mem hmem
          omega
    | btn | array | named | struct =>
      cases hrhs
      rfl
  | named id name =>
    cases hlhs with
    | @named _ _ decl target target' hdefinition hnode htype =>
      cases hstrong : target.strong with
      | false =>
        rw [hstrong] at hweak
        exact absurd rfl (hweak _ _ _)
      | true =>
        rw [Semantic.compareTypes, hother]
        cases hrhs <;> rfl
  | struct fields =>
    cases hlhs with
    | @struct _ types hfields hnames =>
      rw [Semantic.compareTypes, hother]
      cases hrhs with
      | @struct _ types' hfields' hnames' =>
        rw [Ty.struct.sizeOf_spec] at hfuel hfuel'
        refine equalSize_run ih rfl (fun _ _ _ _ _ _ ↦ rfl) compareFields_length hfields hfields'
          (fun key type hmem ↦ ?_) fun key type hmem ↦ ?_
        · have hlt := sizeOf_lt_of_mem hmem
          omega
        · have hlt := sizeOf_lt_of_mem hmem
          omega
      | btn | func | procedure | named | array => rfl

/-- On types with a meaning, the comparison is that of the trees. -/
theorem compareTypes_run (pointers : Pointers) {fuel : ℕ} {a b : Node} {type type' : Ty} (ha : Means tables a type)
    (hb : Means tables b type') (hfuel : sizeOf type < fuel) (hfuel' : sizeOf type' < fuel) :
    exec (compareTypes pointers fuel a b) tables = (.ok (Semantic.compareTypes type type'), tables) := by
  induction fuel generalizing a b type type' with
  | zero => exact absurd hfuel (Nat.not_lt_zero _)
  | succ fuel ih =>
    rw [compareTypes]
    by_cases hsame : pointers.same a b = true
    · rw [if_pos hsame]
      cases pointers.eq_of_same hsame
      rw [ha.unique hb, TypeEquality.compareTypes_refl]
      rfl
    · rw [if_neg hsame]
      obtain ⟨lhs, hlhs, hmeans⟩ := lookupStrongType_run ha hfuel
      obtain ⟨rhs, hrhs, hmeans'⟩ := lookupStrongType_run hb hfuel'
      rw [exec_bind_ok hlhs, exec_bind_ok hrhs, compareTypes_lookupStrongType]
      exact compareStrong_run (fun _ _ _ _ ha hb hfuel hfuel' ↦ ih ha hb hfuel hfuel') hmeans hmeans'
        (fun _ _ _ ↦ TypeEquality.not_weak_lookupStrongType) rfl
        (Nat.le_trans (sizeOf_lookupStrongType type) (Nat.le_of_lt_succ hfuel))
        (Nat.le_trans (sizeOf_lookupStrongType type') (Nat.le_of_lt_succ hfuel'))

end

/-! ## Meanings last -/

section

variable {tables tables' : Tables} {node : Node} {type : Ty}

/-- `lookupStrongType` finds the same node as long as nothing is lost. -/
theorem lookupStrongType_extends (hextends : Extends tables tables') (h : Means tables node type) {fuel fuel' : ℕ}
    (hfuel : sizeOf type < fuel) (hle : fuel ≤ fuel') :
    (exec (lookupStrongType fuel' node) tables').1 = (exec (lookupStrongType fuel node) tables).1 := by
  induction fuel generalizing fuel' node type with
  | zero => exact absurd hfuel (Nat.not_lt_zero _)
  | succ fuel ih =>
    obtain ⟨fuel', rfl⟩ := Nat.exists_eq_add_of_le' hle
    change (exec (lookupStrongType ((fuel' + fuel) + 1) node) tables').1 = _
    cases h with
    | @named id name decl target type hdefinition hnode htype =>
      rw [lookupStrongType, lookupStrongType, lookup_run hdefinition hnode,
        lookup_run (hextends.definition _ _ hdefinition) (hextends.aliases _ _ hnode)]
      cases target.strong with
      | true => rfl
      | false =>
        exact ih htype (Nat.lt_of_lt_of_le sizeOf_named (Nat.le_of_lt_succ hfuel)) (Nat.le_add_left _ _)
    | btn | array | func | procedure | struct => rfl

/-- `lookupConcreteType` finds the same node as long as nothing is lost. -/
theorem lookupConcreteType_extends (hextends : Extends tables tables') (h : Means tables node type) {fuel fuel' : ℕ}
    (hfuel : sizeOf type < fuel) (hle : fuel ≤ fuel') :
    (exec (lookupConcreteType fuel' node) tables').1 = (exec (lookupConcreteType fuel node) tables).1 := by
  induction fuel generalizing fuel' node type with
  | zero => exact absurd hfuel (Nat.not_lt_zero _)
  | succ fuel ih =>
    obtain ⟨fuel', rfl⟩ := Nat.exists_eq_add_of_le' hle
    change (exec (lookupConcreteType ((fuel' + fuel) + 1) node) tables').1 = _
    cases h with
    | @named id name decl target type hdefinition hnode htype =>
      rw [lookupConcreteType, lookupConcreteType, lookup_run hdefinition hnode,
        lookup_run (hextends.definition _ _ hdefinition) (hextends.aliases _ _ hnode)]
      exact ih htype (Nat.lt_of_lt_of_le sizeOf_named (Nat.le_of_lt_succ hfuel)) (Nat.le_add_left _ _)
    | btn | array | func | procedure | struct => rfl

end

/-- The operation comes to an end with the value, and leaves the tables alone. -/
def Ends {α : Type} (operation : ℕ → Analysis α) (value : α) (tables : Tables) : Prop :=
  ∃ fuel, ∀ fuel' ≥ fuel, exec (operation fuel') tables = (.ok value, tables)

/-- A type that has been validated, or a part of one. -/
def HasPassed (s : State) (type : Node) : Prop := ∃ root ∈ s.passed, Part type root

/-- The chain of definitions is finite and ends in a type that is not a name, and every recursion comes to an end on
the type, with the result that the tree determines. -/
structure Resolves (s : State) (type : Node) (tree : Ty) (strong concrete : Node) : Prop where
  means : Means s.tables type tree
  chain : Relation.ReflTransGen (Follows s.tables) type concrete
  not_name : Concrete concrete
  lookupConcrete : Ends (lookupConcreteType · type) concrete s.tables
  lookupStrong : Ends (lookupStrongType · type) strong s.tables
  validate : Ends (validateType · type) () s.tables
  compare : ∀ type', HasPassed s type' → ∃ tree', Means s.tables type' tree' ∧
    (∀ pointers, Ends (compareTypes pointers · type type') (Semantic.compareTypes tree tree') s.tables) ∧
      ∀ pointers, Ends (compareTypes pointers · type' type) (Semantic.compareTypes tree' tree) s.tables

theorem means_of_hasPassed {s : State} (h : Inv s) {type : Node} (hpassed : HasPassed s type) :
    ∃ tree, Means s.tables type tree := by
  obtain ⟨root, hmem, hpart⟩ := hpassed
  obtain ⟨tree, hroot⟩ := h.passed root hmem
  exact hroot.part hpart

theorem resolves_of_means {s : State} {type : Node} {tree : Ty} (hmeans : Means s.tables type tree) :
    ∃ strong concrete, ∀ s', Inv s' → Extends s.tables s'.tables → Resolves s' type tree strong concrete := by
  obtain ⟨strong, hstrong, -⟩ := lookupStrongType_run hmeans (Nat.lt_succ_self _)
  obtain ⟨concrete, hconcrete, -, -, hend⟩ := lookupConcreteType_run hmeans (Nat.lt_succ_self _)
  refine ⟨strong, concrete, fun s' hinv hextends ↦ ?_⟩
  have hmeans' := hmeans.mono hextends
  have hconcrete' (fuel : ℕ) (hfuel : sizeOf tree + 1 ≤ fuel) :
      exec (lookupConcreteType fuel type) s'.tables = (.ok concrete, s'.tables) ∧
        Relation.ReflTransGen (Follows s'.tables) type concrete := by
    obtain ⟨node, hrun, -, hchain, -⟩ := lookupConcreteType_run hmeans' hfuel
    have heq := lookupConcreteType_extends hextends hmeans (Nat.lt_succ_self _) hfuel
    rw [hrun, hconcrete] at heq
    cases heq
    exact ⟨hrun, hchain⟩
  have hcompare {a b : Node} {tree tree' : Ty} (ha : Means s'.tables a tree) (hb : Means s'.tables b tree')
      (pointers : Pointers) : Ends (compareTypes pointers · a b) (Semantic.compareTypes tree tree') s'.tables :=
    ⟨sizeOf tree + sizeOf tree' + 1, fun fuel hfuel ↦ compareTypes_run pointers ha hb (by omega) (by omega)⟩
  exact {
    means := hmeans'
    chain := (hconcrete' _ (Nat.le_refl _)).2
    not_name := hend
    lookupConcrete := ⟨sizeOf tree + 1, fun fuel hfuel ↦ (hconcrete' fuel hfuel).1⟩
    lookupStrong := by
      refine ⟨sizeOf tree + 1, fun fuel hfuel ↦ ?_⟩
      obtain ⟨node, hrun, -⟩ := lookupStrongType_run hmeans' hfuel
      have heq := lookupStrongType_extends hextends hmeans (Nat.lt_succ_self _) hfuel
      rw [hrun, hstrong] at heq
      cases heq
      exact hrun
    validate := ⟨sizeOf tree + 1, fun fuel hfuel ↦ validateType_run hmeans' hfuel⟩
    compare := fun type' hpassed ↦ by
      obtain ⟨tree', hmeans''⟩ := means_of_hasPassed hinv hpassed
      exact ⟨tree', hmeans'', hcompare hmeans' hmeans'', hcompare hmeans'' hmeans'⟩ }

/-- A type that has passed `validateType` resolves, and to the same whatever is declared later. -/
theorem resolves_for_good {s : State} (h : Reachable s) {type : Node} (hpassed : HasPassed s type) :
    ∃ tree strong concrete, ∀ events s', Machine.run step s events = some s' →
      Resolves s' type tree strong concrete := by
  have hinv := inv_of_reachable h
  obtain ⟨tree, hmeans⟩ := means_of_hasPassed hinv hpassed
  obtain ⟨strong, concrete, hresolves⟩ := resolves_of_means hmeans
  refine ⟨tree, strong, concrete, fun events s' hrun ↦ ?_⟩
  obtain ⟨hinv', hextends⟩ := inv_run hinv hrun
  exact hresolves s' hinv' hextends

/-- A field's name for `sint` still resolves when an inner scope uses the name for `real`. -/
theorem resolves_for_good_shadowed : ∃ s s' tree strong concrete,
    Machine.run step .init [.typeAlias 9 ⟨"t", false, .named 1 "sint"⟩, .validateType 9 (.struct [("m", .named 2 "t")])] =
      some s ∧
    Machine.run step s [.enterScope, .typeAlias 9 ⟨"t", false, .named 3 "real"⟩] = some s' ∧
    Resolves s (.named 2 "t") tree strong concrete ∧ Resolves s' (.named 2 "t") tree strong concrete := by
  let events : List Event :=
    [.typeAlias 9 ⟨"t", false, .named 1 "sint"⟩, .validateType 9 (.struct [("m", .named 2 "t")])]
  obtain ⟨s, hrun⟩ : ∃ s, Machine.run step .init events = some s := ⟨_, rfl⟩
  have hpassed : HasPassed s (.named 2 "t") := by
    refine ⟨.struct [("m", .named 2 "t")], ?_, .field List.mem_cons_self .self⟩
    cases hrun
    exact List.mem_cons_self
  obtain ⟨tree, strong, concrete, h⟩ := resolves_for_good ⟨events, hrun⟩ hpassed
  obtain ⟨s', hrun'⟩ : ∃ s', Machine.run step s [.enterScope, .typeAlias 9 ⟨"t", false, .named 3 "real"⟩] = some s' :=
    ⟨_, rfl⟩
  exact ⟨s, s', tree, strong, concrete, hrun, hrun', h [] s rfl, h _ s' hrun'⟩

end Stela.Semantic.TypeNames
