import Stela.Semantic.CompareTypes
import Stela.Library.Except
import Stela.Library.TopologicalOrder
import Mathlib.Data.List.Nodup
import Mathlib.Data.List.Perm.Basic
import Mathlib.Data.List.Perm.Subperm
import Mathlib.Data.List.Range

/-!
# The order of modules

`modules.cpp`: a depth-first search through the imports, which stops at an import that is not found and
at an import of a module that is still being visited.
-/

namespace Stela.Semantic.Modules

open Library Library.Except

/-- `AST`, without its declarations. -/
structure AST where
  name : String
  imports : List String

/-- How the search stops: with a message, or because it ran out of the fuel for its recursion. -/
inductive OrderError where
  | fatal (message : String)
  | fuel
  deriving DecidableEq, Repr

/-- The fields of the visitor. `visited` holds the indices that are marked in the source's vector; the top
of the stack is its last element. -/
structure State where
  order : List ℕ := []
  stack : List ℕ := []
  visited : List ℕ := []

/-- The index of the first AST of the given name. -/
def lookup (asts : List AST) (name : String) : Option ℕ :=
  asts.findIdx? fun ast ↦ ast.name == name

def importsOf (asts : List AST) (index : ℕ) : List String :=
  (asts[index]?.map AST.imports).getD []

/-- `visit(const ast::Name &)`. -/
def visitName (visit : ℕ → State → Except OrderError State) (asts : List AST) (compiled : List String)
    (name : String) (s : State) : Except OrderError State :=
  match lookup asts name with
  | some i =>
      if i ∈ s.stack then .error (.fatal s!"Cyclic dependencies detected in module \"{name}\"")
      else visit i s
  | none => if name ∈ compiled then .ok s else .error (.fatal s!"Module \"{name}\" not found")

def visitNames (visit : ℕ → State → Except OrderError State) (asts : List AST) (compiled : List String) :
    List String → State → Except OrderError State
  | [], s => .ok s
  | name :: names, s => do
      let s ← visitName visit asts compiled name s
      visitNames visit asts compiled names s

/-- `visit(size_t)`. -/
def visitIndex (asts : List AST) (compiled : List String) : ℕ → ℕ → State → Except OrderError State
  | 0, _, _ => .error .fuel
  | fuel + 1, index, s =>
      if index ∈ s.visited then .ok s
      else do
        let s ← visitNames (visitIndex asts compiled fuel) asts compiled (importsOf asts index)
          { s with visited := index :: s.visited, stack := s.stack ++ [index] }
        return { s with stack := s.stack.dropLast, order := s.order ++ [index] }

/-- The loop of `visit()`. -/
def visitAll (asts : List AST) (compiled : List String) (fuel : ℕ) : List ℕ → State → Except OrderError State
  | [], s => .ok s
  | index :: indices, s => do
      let s ← visitIndex asts compiled fuel index s
      visitAll asts compiled fuel indices s

def checkDuplicateModules (asts : List AST) (compiled : List String) : Except OrderError Unit :=
  match duplicateName (asts.map AST.name ++ compiled) with
  | some name => .error (.fatal s!"Duplicate module \"{name}\"")
  | none => .ok ()

/-- `findModuleOrder`, with fuel for the nesting of its recursion. -/
def findModuleOrder (fuel : ℕ) (asts : List AST) (compiled : List String) : Except OrderError (List ℕ) := do
  checkDuplicateModules asts compiled
  let s ← visitAll asts compiled fuel (List.range asts.length) {}
  return s.order

/-! ## The import graph -/

/-- The first AST imports the second. -/
def Imports (asts : List AST) (a b : ℕ) : Prop :=
  ∃ name ∈ importsOf asts a, asts[b]?.map AST.name = some name

/-- The import that the search follows: to the first AST of the name. -/
def Follows (asts : List AST) (a b : ℕ) : Prop :=
  ∃ name ∈ importsOf asts a, lookup asts name = some b

/-- The modules can be ordered. -/
structure Orderable (asts : List AST) (compiled : List String) : Prop where
  distinct : (asts.map AST.name ++ compiled).Nodup
  found : ∀ ast ∈ asts, ∀ name ∈ ast.imports, name ∈ asts.map AST.name ∨ name ∈ compiled
  acyclic : ∀ a, ¬Relation.TransGen (Imports asts) a a

theorem lookup_eq_some {asts : List AST} {name : String} {i : ℕ} (h : lookup asts name = some i) :
    asts[i]?.map AST.name = some name := by
  obtain ⟨hi, hname, -⟩ := List.findIdx?_eq_some_iff_getElem.mp h
  simpa [hi] using hname

theorem lookup_eq_none {asts : List AST} {name : String} : lookup asts name = none ↔ name ∉ asts.map AST.name := by
  simp [lookup, List.findIdx?_eq_none_iff]

theorem lt_of_lookup {asts : List AST} {name : String} {i : ℕ} (h : lookup asts name = some i) :
    i < asts.length :=
  (List.findIdx?_eq_some_iff_getElem.mp h).1

theorem imports_of_follows {asts : List AST} {a b : ℕ} : Follows asts a b → Imports asts a b
  | ⟨name, hname, hlookup⟩ => ⟨name, hname, lookup_eq_some hlookup⟩

/-- With distinct names the first AST of a name is the only one. -/
theorem follows_of_imports {asts : List AST} (hdistinct : (asts.map AST.name).Nodup) {a b : ℕ} :
    Imports asts a b → Follows asts a b := by
  rintro ⟨name, hname, hb⟩
  obtain ⟨ast, hast, rfl⟩ := Option.map_eq_some_iff.mp hb
  have hmem : ast.name ∈ asts.map AST.name := List.mem_map_of_mem (List.mem_of_getElem? hast)
  obtain ⟨i, hi⟩ : ∃ i, lookup asts ast.name = some i := by
    rw [← Option.ne_none_iff_exists']
    exact fun hnone ↦ lookup_eq_none.mp hnone hmem
  have hsame : (asts.map AST.name)[i]? = (asts.map AST.name)[b]? := by
    simpa [hast] using lookup_eq_some hi
  have hlt : i < (asts.map AST.name).length := by simpa using lt_of_lookup hi
  obtain rfl := (List.getElem?_inj hlt hdistinct).mp hsame
  exact ⟨_, hname, hi⟩

/-! ## The search -/

section Search

variable {asts : List AST} {compiled : List String}

/-- Every import of a module is an AST or compiled. -/
def Found (asts : List AST) (compiled : List String) (index : ℕ) : Prop :=
  ∀ name ∈ importsOf asts index, lookup asts name = none → name ∈ compiled

/-- A visited module is either still being visited, and on the stack, or ordered after its imports. -/
structure Inv (asts : List AST) (compiled : List String) (s : State) : Prop where
  visited : ∀ i, i ∈ s.visited ↔ i ∈ s.stack ∨ i ∈ s.order
  disjoint : ∀ i ∈ s.stack, i ∉ s.order
  nodup_visited : s.visited.Nodup
  nodup_order : s.order.Nodup
  bounded : ∀ i ∈ s.visited, i < asts.length
  ordered : TopologicalOrder (Follows asts) s.order
  found : ∀ i ∈ s.order, Found asts compiled i

/-- Why a search fails. -/
def Obstructed (asts : List AST) (compiled : List String) : Prop :=
  (∃ a, Relation.TransGen (Follows asts) a a) ∨ ∃ index, ¬Found asts compiled index

/-- What a visit leaves as it was, and what it only adds to. -/
structure Extends (s s' : State) : Prop where
  stack : s'.stack = s.stack
  order : s.order ⊆ s'.order
  visited : s.visited.length ≤ s'.visited.length

theorem Extends.refl (s : State) : Extends s s :=
  ⟨rfl, List.Subset.refl _, le_refl _⟩

theorem Extends.trans {s s' s'' : State} (h : Extends s s') (h' : Extends s' s'') : Extends s s'' :=
  ⟨h'.stack.trans h.stack, List.Subset.trans h.order h'.order, h.visited.trans h'.visited⟩

/-- A visit succeeds and establishes `goal`, or finds an obstruction; it does not run out of fuel. -/
def Visits (asts : List AST) (compiled : List String) (s : State) (goal : State → Prop) :
    Except OrderError State → Prop
  | .ok s' => Inv asts compiled s' ∧ Extends s s' ∧ goal s'
  | .error (.fatal _) => Obstructed asts compiled
  | .error .fuel => False

theorem Visits.bind {s : State} {goal goal' : State → Prop} {m : Except OrderError State}
    {f : State → Except OrderError State} (h : Visits asts compiled s goal m)
    (hf : ∀ s', Inv asts compiled s' → Extends s s' → goal s' → Visits asts compiled s goal' (f s')) :
    Visits asts compiled s goal' (m >>= f) := by
  cases m with
  | ok s' => exact hf s' h.1 h.2.1 h.2.2
  | error e => cases e <;> exact h

/-- A visit that follows another one. -/
theorem Visits.after {s s' : State} {goal goal' : State → Prop} {m : Except OrderError State}
    (h : Visits asts compiled s' goal m) (hext : Extends s s')
    (hgoal : ∀ s'', Extends s' s'' → goal s'' → goal' s'') : Visits asts compiled s goal' m := by
  cases m with
  | ok s'' => exact ⟨h.1, hext.trans h.2.1, hgoal s'' h.2.1 h.2.2⟩
  | error e => cases e <;> exact h

/-- What a visit of an index needs: it is reached from everything on the stack, and there is enough fuel
for the modules that have not been visited. -/
structure Ready (asts : List AST) (compiled : List String) (fuel index : ℕ) (s : State) : Prop where
  inv : Inv asts compiled s
  lt : index < asts.length
  notMem : index ∉ s.stack
  reach : ∀ a ∈ s.stack, Relation.TransGen (Follows asts) a index
  fuel : asts.length < fuel + s.visited.length

theorem Inv.length_visited_le {s : State} (h : Inv asts compiled s) : s.visited.length ≤ asts.length := by
  have hsub : s.visited ⊆ List.range asts.length := fun i hi ↦ List.mem_range.mpr (h.bounded i hi)
  simpa using (h.nodup_visited.subperm hsub).length_le

/-- The state in which the imports of a module are visited. -/
def State.enter (s : State) (index : ℕ) : State :=
  { s with visited := index :: s.visited, stack := s.stack ++ [index] }

theorem Inv.enter {s : State} {index : ℕ} (h : Inv asts compiled s) (hlt : index < asts.length)
    (hnew : index ∉ s.visited) : Inv asts compiled (s.enter index) where
  visited i := by
    simp only [State.enter, List.mem_cons, List.mem_append, List.not_mem_nil, or_false, h.visited]
    tauto
  disjoint i hi := by
    have hnotMem : index ∉ s.order := fun hmem ↦ hnew ((h.visited index).mpr (.inr hmem))
    rcases List.mem_append.mp hi with hi | hi
    · exact h.disjoint i hi
    · cases List.mem_singleton.mp hi
      exact hnotMem
  nodup_visited := List.nodup_cons.mpr ⟨hnew, h.nodup_visited⟩
  nodup_order := h.nodup_order
  bounded i hi := by
    rcases List.mem_cons.mp hi with rfl | hi
    · exact hlt
    · exact h.bounded i hi
  ordered := h.ordered
  found := h.found

/-- Popping a module whose imports are ordered, and ordering it. -/
theorem Inv.leave {s s' : State} {index : ℕ} (h : Inv asts compiled s') (hstack : s'.stack = s.stack ++ [index])
    (hnotMem : index ∉ s.stack) (himports : ∀ name ∈ importsOf asts index,
      (∃ i, lookup asts name = some i ∧ i ∈ s'.order) ∨ (lookup asts name = none ∧ name ∈ compiled)) :
    Inv asts compiled { s' with stack := s'.stack.dropLast, order := s'.order ++ [index] } where
  visited i := by
    simp only [hstack, List.dropLast_concat, List.mem_append, List.mem_singleton, h.visited]
    tauto
  disjoint i hi := by
    simp only [hstack, List.dropLast_concat] at hi
    have hi' : i ∈ s'.stack := by
      rw [hstack]
      exact List.mem_append_left _ hi
    have hne : i ≠ index := fun heq ↦ hnotMem (heq ▸ hi)
    simpa [hne] using h.disjoint i hi'
  nodup_visited := h.nodup_visited
  nodup_order := by
    have hindex : index ∉ s'.order := h.disjoint index (by simp [hstack])
    exact List.nodup_append.mpr ⟨h.nodup_order, List.nodup_singleton index, by
      rintro a ha b hb rfl
      cases List.mem_singleton.mp hb
      exact hindex ha⟩
  bounded := h.bounded
  ordered := by
    refine h.ordered.snoc fun b hb ↦ ?_
    obtain ⟨name, hname, hlookup⟩ := hb
    obtain ⟨i, hi, hmem⟩ | ⟨hnone, -⟩ := himports name hname
    · cases hi.symm.trans hlookup
      exact hmem
    · cases hnone.symm.trans hlookup
  found i hi := by
    rcases List.mem_append.mp hi with hi | hi
    · exact h.found i hi
    · cases List.mem_singleton.mp hi
      intro name hname hnone
      obtain ⟨j, hj, -⟩ | ⟨-, hmem⟩ := himports name hname
      · cases hj.symm.trans hnone
      · exact hmem

/-- An import that was visited: it is ordered, or compiled. -/
def Settled (asts : List AST) (compiled : List String) (name : String) (s : State) : Prop :=
  (∃ i, lookup asts name = some i ∧ i ∈ s.order) ∨ (lookup asts name = none ∧ name ∈ compiled)

theorem Settled.extends {name : String} {s s' : State} (h : Settled asts compiled name s) (hext : Extends s s') :
    Settled asts compiled name s' :=
  h.imp_left fun ⟨i, hi, hmem⟩ ↦ ⟨i, hi, hext.order hmem⟩

theorem visitName_spec {fuel index : ℕ} {name : String} {s : State} (hinv : Inv asts compiled s)
    (hreach : ∀ a ∈ s.stack, Relation.ReflTransGen (Follows asts) a index)
    (hname : name ∈ importsOf asts index) (hfuel : asts.length < fuel + s.visited.length)
    (hvisit : ∀ i t, Ready asts compiled fuel i t →
      Visits asts compiled t (fun t' ↦ i ∈ t'.order) (visitIndex asts compiled fuel i t)) :
    Visits asts compiled s (Settled asts compiled name)
      (visitName (visitIndex asts compiled fuel) asts compiled name s) := by
  cases hlookup : lookup asts name with
  | none =>
    simp only [visitName, hlookup]
    split
    · rename_i hmem
      exact ⟨hinv, .refl s, .inr ⟨hlookup, hmem⟩⟩
    · rename_i hmem
      exact .inr ⟨index, fun hfound ↦ hmem (hfound name hname hlookup)⟩
  | some i =>
    have hstep : Follows asts index i := ⟨name, hname, hlookup⟩
    have hreach' : ∀ a ∈ s.stack, Relation.TransGen (Follows asts) a i :=
      fun a ha ↦ Relation.TransGen.tail' (hreach a ha) hstep
    simp only [visitName, hlookup]
    split
    · rename_i hmem
      exact .inl ⟨i, hreach' i hmem⟩
    · rename_i hmem
      exact (hvisit i s ⟨hinv, lt_of_lookup hlookup, hmem, hreach', hfuel⟩).after (.refl s)
        fun s' _ horder ↦ .inl ⟨i, hlookup, horder⟩

theorem visitNames_spec {fuel index : ℕ}
    (hvisit : ∀ i t, Ready asts compiled fuel i t →
      Visits asts compiled t (fun t' ↦ i ∈ t'.order) (visitIndex asts compiled fuel i t)) :
    (names : List String) → (s : State) → Inv asts compiled s →
    (∀ a ∈ s.stack, Relation.ReflTransGen (Follows asts) a index) → names ⊆ importsOf asts index →
    asts.length < fuel + s.visited.length →
    Visits asts compiled s (fun s' ↦ ∀ name ∈ names, Settled asts compiled name s')
      (visitNames (visitIndex asts compiled fuel) asts compiled names s)
  | [], s, hinv, _, _, _ => ⟨hinv, .refl s, nofun⟩
  | name :: names, s, hinv, hreach, hsub, hfuel => by
    rw [visitNames]
    refine (visitName_spec hinv hreach (hsub List.mem_cons_self) hfuel hvisit).bind fun s' hinv' hext hname ↦ ?_
    refine (visitNames_spec hvisit names s' hinv' (hext.stack ▸ hreach)
      (fun n hn ↦ hsub (List.mem_cons_of_mem name hn)) (hfuel.trans_le (Nat.add_le_add_left hext.visited fuel))).after
      hext fun s'' hext' hnames n hn ↦ ?_
    rcases List.mem_cons.mp hn with rfl | hn
    · exact hname.extends hext'
    · exact hnames n hn

/-- A visit of a module orders it, after everything it imports. -/
theorem visitIndex_spec : (fuel index : ℕ) → (s : State) → Ready asts compiled fuel index s →
    Visits asts compiled s (fun s' ↦ index ∈ s'.order) (visitIndex asts compiled fuel index s)
  | 0, index, s, h => by
    have hlength := h.inv.length_visited_le
    have hfuel := h.fuel
    omega
  | fuel + 1, index, s, h => by
    rw [visitIndex]
    split
    · rename_i hvisited
      exact ⟨h.inv, .refl s, ((h.inv.visited index).mp hvisited).resolve_left h.notMem⟩
    · rename_i hvisited
      have hreach : ∀ a ∈ (s.enter index).stack, Relation.ReflTransGen (Follows asts) a index := by
        intro a ha
        rcases List.mem_append.mp ha with ha | ha
        · exact (h.reach a ha).to_reflTransGen
        · cases List.mem_singleton.mp ha
          exact .refl
      have hfuel : asts.length < fuel + (s.enter index).visited.length := by
        have hfuel := h.fuel
        simp only [State.enter, List.length_cons]
        omega
      have hspec := visitNames_spec (visitIndex_spec fuel) (importsOf asts index) (s.enter index)
        (h.inv.enter h.lt hvisited) hreach (List.Subset.refl _) hfuel
      revert hspec
      change Visits _ _ _ _ (visitNames _ asts compiled _ (s.enter index)) → Visits _ _ _ _ (visitNames _ asts compiled _ (s.enter index) >>= _)
      cases visitNames (visitIndex asts compiled fuel) asts compiled (importsOf asts index) (s.enter index) with
      | error e => cases e <;> exact id
      | ok s' =>
        rintro ⟨hinv, hext, hsettled⟩
        refine ⟨hinv.leave hext.stack h.notMem hsettled, ⟨?_, ?_, ?_⟩, by simp⟩
        · simp [hext.stack, State.enter]
        · exact List.Subset.trans hext.order (List.subset_append_left _ _)
        · have hvisited' := hext.visited
          simp only [State.enter, List.length_cons] at hvisited'
          exact (Nat.le_succ _).trans hvisited'

theorem visitAll_spec {fuel : ℕ} (hfuel : asts.length < fuel) : (indices : List ℕ) → (s : State) →
    Inv asts compiled s → s.stack = [] → (∀ i ∈ indices, i < asts.length) →
    Visits asts compiled s (fun s' ↦ ∀ i ∈ indices, i ∈ s'.order) (visitAll asts compiled fuel indices s)
  | [], s, hinv, _, _ => ⟨hinv, .refl s, nofun⟩
  | index :: indices, s, hinv, hstack, hlt => by
    rw [visitAll]
    have hspec := visitIndex_spec fuel index s
      ⟨hinv, hlt index List.mem_cons_self, by simp [hstack], by simp [hstack], Nat.lt_add_right _ hfuel⟩
    refine hspec.bind fun s' hinv' hext hindex ↦ ?_
    refine (visitAll_spec hfuel indices s' hinv' (hext.stack.trans hstack)
      (fun i hi ↦ hlt i (List.mem_cons_of_mem index hi))).after hext fun s'' hext' hindices i hi ↦ ?_
    rcases List.mem_cons.mp hi with rfl | hi
    · exact hext'.order hindex
    · exact hindices i hi

end Search

/-! ## The order -/

theorem checkDuplicateModules_spec (asts : List AST) (compiled : List String) :
    (checkDuplicateModules asts compiled = .ok () ∧ (asts.map AST.name ++ compiled).Nodup) ∨
      ((∃ message, checkDuplicateModules asts compiled = .error (.fatal message)) ∧
        ¬(asts.map AST.name ++ compiled).Nodup) := by
  unfold checkDuplicateModules
  cases hname : duplicateName (asts.map AST.name ++ compiled) with
  | none => exact .inl ⟨rfl, duplicateName_eq_none.mp hname⟩
  | some name =>
    refine .inr ⟨⟨_, rfl⟩, fun hnodup ↦ ?_⟩
    cases hname.symm.trans (duplicateName_eq_none.mpr hnodup)

theorem inv_initial (asts : List AST) (compiled : List String) : Inv asts compiled {} where
  visited := by simp
  disjoint := nofun
  nodup_visited := List.nodup_nil
  nodup_order := List.nodup_nil
  bounded := nofun
  ordered := .nil
  found := nofun

theorem not_orderable_of_obstructed {asts : List AST} {compiled : List String} (h : Obstructed asts compiled) :
    ¬Orderable asts compiled := by
  intro horderable
  obtain ⟨a, hcycle⟩ | ⟨index, hfound⟩ := h
  · exact horderable.acyclic a (Relation.TransGen.mono (fun _ _ ↦ imports_of_follows) _ _ hcycle)
  · refine hfound fun name hname hnone ↦ ?_
    simp only [importsOf] at hname
    cases hast : asts[index]? with
    | none => simp [hast] at hname
    | some ast =>
      have himport : name ∈ ast.imports := by simpa [hast] using hname
      exact (horderable.found ast (List.mem_of_getElem? hast) name himport).resolve_left (lookup_eq_none.mp hnone)

/-- An order that contains every module, and in which every module stands after its imports. -/
structure ModuleOrder (asts : List AST) (order : List ℕ) : Prop where
  perm : order.Perm (List.range asts.length)
  importsFirst : ∀ a b, Imports asts a b → order.idxOf b < order.idxOf a

theorem lt_of_imports {asts : List AST} {a b : ℕ} : Imports asts a b → a < asts.length := by
  rintro ⟨name, hname, -⟩
  by_contra hge
  simp [importsOf, List.getElem?_eq_none (Nat.le_of_not_lt hge)] at hname

theorem orderable_of_visited {asts : List AST} {compiled : List String} {s : State}
    (hdistinct : (asts.map AST.name ++ compiled).Nodup) (hinv : Inv asts compiled s)
    (hall : ∀ i < asts.length, i ∈ s.order) :
    Orderable asts compiled ∧ ModuleOrder asts s.order := by
  have hfollows : ∀ a b, Imports asts a b → Follows asts a b :=
    fun a b ↦ follows_of_imports (List.Nodup.of_append_left hdistinct)
  refine ⟨⟨hdistinct, ?_, ?_⟩, ⟨?_, ?_⟩⟩
  · intro ast hast name hname
    obtain ⟨i, hi, rfl⟩ := List.mem_iff_getElem.mp hast
    by_cases hmem : name ∈ asts.map AST.name
    · exact .inl hmem
    · exact .inr (hinv.found i (hall i hi) name (by simpa [importsOf, hi] using hname) (lookup_eq_none.mpr hmem))
  · intro a hcycle
    obtain ⟨b, hstep, -⟩ := Relation.TransGen.head'_iff.mp hcycle
    exact hinv.ordered.acyclic (hall a (lt_of_imports hstep)) (Relation.TransGen.mono hfollows _ _ hcycle)
  · refine (List.perm_ext_iff_of_nodup hinv.nodup_order List.nodup_range).mpr fun i ↦ ?_
    rw [List.mem_range]
    exact ⟨fun hi ↦ hinv.bounded i ((hinv.visited i).mpr (.inr hi)), hall i⟩
  · intro a b hab
    exact hinv.ordered.idxOf_lt (hall a (lt_of_imports hab)) (hfollows a b hab)

/-- The search ends, and it succeeds exactly on the modules that can be ordered; its result is an order
of all modules with imports first. -/
theorem findModuleOrder_correct (fuel : ℕ) (asts : List AST) (compiled : List String)
    (hfuel : asts.length < fuel) :
    ((∃ order, findModuleOrder fuel asts compiled = .ok order) ↔ Orderable asts compiled) ∧
      (∀ order, findModuleOrder fuel asts compiled = .ok order → ModuleOrder asts order) ∧
      (¬Orderable asts compiled → ∃ message, findModuleOrder fuel asts compiled = .error (.fatal message)) := by
  obtain ⟨hcheck, hdistinct⟩ | ⟨⟨message, hcheck⟩, hdistinct⟩ := checkDuplicateModules_spec asts compiled
  · have hspec := visitAll_spec hfuel (List.range asts.length) {} (inv_initial asts compiled) rfl
      fun i ↦ List.mem_range.mp
    have hrun : findModuleOrder fuel asts compiled =
        (visitAll asts compiled fuel (List.range asts.length) {} >>= fun s ↦ pure s.order) := by
      simp only [findModuleOrder, hcheck]
      rfl
    rw [hrun]
    revert hspec
    cases visitAll asts compiled fuel (List.range asts.length) {} with
    | ok s =>
      rintro ⟨hinv, -, hall⟩
      obtain ⟨horderable, horder⟩ := orderable_of_visited hdistinct hinv fun i hi ↦ hall i (List.mem_range.mpr hi)
      refine ⟨⟨fun _ ↦ horderable, fun _ ↦ ⟨s.order, rfl⟩⟩, ?_, fun h ↦ absurd horderable h⟩
      intro order h
      cases h
      exact horder
    | error e =>
      intro hspec
      cases e with
      | fuel => exact hspec.elim
      | fatal message =>
        have hnot := not_orderable_of_obstructed hspec
        exact ⟨⟨nofun, fun h ↦ absurd h hnot⟩, nofun, fun _ ↦ ⟨message, rfl⟩⟩
  · have hrun : findModuleOrder fuel asts compiled = .error (.fatal message) := by
      simp only [findModuleOrder, hcheck]
      rfl
    have hnot : ¬Orderable asts compiled := fun h ↦ hdistinct h.distinct
    rw [hrun]
    exact ⟨⟨nofun, fun h ↦ absurd h hnot⟩, nofun, fun _ ↦ ⟨message, rfl⟩⟩

/-- Modules `a`, `b` and `c`: `a` imports the others and a compiled one, `b` imports `c`. -/
def diamond : List AST :=
  [⟨"a", ["b", "c", "external"]⟩, ⟨"b", ["c"]⟩, ⟨"c", []⟩]

theorem findModuleOrder_correct_diamond :
    findModuleOrder 4 diamond ["external"] = .ok [2, 1, 0] ∧ ModuleOrder diamond [2, 1, 0] :=
  have h : findModuleOrder 4 diamond ["external"] = .ok [2, 1, 0] := by decide
  ⟨h, (findModuleOrder_correct 4 diamond ["external"] (by decide)).2.1 _ h⟩

end Stela.Semantic.Modules
