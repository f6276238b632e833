import Stela.Semantic.InferType
import Stela.Semantic.Scopes
import Stela.Semantic.TypeEquality
import Stela.Library.Except
import Mathlib.Data.List.Pairwise
import Mathlib.Data.List.Perm.Basic

/-!
# Overloads

The functions in the table of a scope (`scope insert.cpp`) and how a name picks one of them. The table is an
`unordered_multimap`, so the symbols of one name are enumerated in any order: what follows compares the
results of a lookup for every permutation of them.
-/

namespace Stela.Semantic.Overloads

open Stela.Syntax InferType TypeEquality Library.Except

/-! ## Insertion -/

/-- The symbols of a scope that a name is bound to. -/
def equalRange (table : List (String × Symbol)) (name : String) : List Symbol :=
  (table.filter fun entry ↦ entry.1 == name).map Prod.snd

/-- `sameParams`, on the parameters that are not the receiver. -/
def sameParams : List (ParamRef × Ty) → List (ParamRef × Ty) → Bool
  | param :: params, arg :: args => compareTypes param.2 arg.2 && sameParams params args
  | [], [] => true
  | _, _ => false

/-- `sameParams` on the parameters of two functions, receivers first. -/
def sameFuncParams (f g : FuncSym) : Bool :=
  compareRets (f.receiver.map Prod.snd) (g.receiver.map Prod.snd) && sameParams f.params g.params

/-- The names of the fields of a type. -/
def fieldNames (type : Ty) : List String :=
  match type.concreteType with
  | .struct fields => fields.map Prod.fst
  | .user fields _ _ _ => fields.map Prod.fst
  | _ => []

/-- `checkMethodCollide`, for the receiver of a method. -/
def checkMethodCollide (name : String) : Option (ParamRef × Ty) → Check Unit
  | none => return
  | some receiver =>
      require (!(fieldNames receiver.2).contains name) s!"Colliding function and field \"{name}\""

/-- `checkFuncCollide`, on the symbols that already have the name. -/
def checkFuncCollide (name : String) (func : FuncSym) : List Symbol → Check Unit
  | [] => return
  | .func dupFunc :: symbols => do
      require (!sameFuncParams dupFunc func) s!"Redefinition of function \"{name}\""
      checkFuncCollide name func symbols
  | _ :: _ => fatal s!"Redefinition of function \"{name}\" previously declared (as a different kind of symbol)"

/-- `insert` of a function or an external function. -/
def insertFunc (type : Scopes.ScopeType) (name : String) (func : FuncSym) (table : List (String × Symbol)) :
    Check (List (String × Symbol)) := do
  require (type == .ns) "Functions must appear at global scope"
  checkMethodCollide name func.receiver
  validateParams (func.receiver.toList ++ func.params)
  validateRet func.ret
  checkFuncCollide name func (equalRange table name)
  return (name, .func func) :: table

/-- `insert` of any other symbol. -/
def insert (name : String) (symbol : Symbol) (table : List (String × Symbol)) : Check (List (String × Symbol)) := do
  require (equalRange table name).isEmpty s!"Redefinition of symbol \"{name}\""
  return (name, symbol) :: table

def isFunc : Symbol → Bool
  | .func _ => true
  | _ => false

/-- The return types of a function, as they are inferred. -/
def setRet (node : ℕ) (ret nodeRet : Option Ty) : Symbol → Symbol
  | .func func => if func.node = node then .func { func with ret, nodeRet } else .func func
  | symbol => symbol

/-! ## The table as a machine -/

/-- A scope with its symbols. -/
structure Table where
  type : Scopes.ScopeType
  symbols : List (String × Symbol)

inductive Event where
  | insert (name : String) (symbol : Symbol)
  | insertFunc (name : String) (func : FuncSym)
  | setRet (node : ℕ) (ret nodeRet : Option Ty)

def step (table : Table) : Event → Option Table
  | .insert name symbol =>
      if isFunc symbol then none
      else match insert name symbol table.symbols with
        | .ok symbols => some { table with symbols }
        | .error _ => none
  | .insertFunc name func =>
      match insertFunc table.type name func table.symbols with
      | .ok symbols => some { table with symbols }
      | .error _ => none
  | .setRet node ret nodeRet =>
      some { table with symbols := table.symbols.map fun entry ↦ (entry.1, setRet node ret nodeRet entry.2) }

/-- The tables that the analysis reaches. At first a scope holds builtin symbols or parameters, which are
inserted without any check, but no function. -/
def Reachable (table : Table) : Prop :=
  ∃ initial events, (∀ entry ∈ initial.symbols, isFunc entry.2 = false) ∧
    Library.Machine.run step initial events = some table

/-! ## Functions with the same parameters -/

theorem sameParams_comm (params args : List (ParamRef × Ty)) : sameParams params args = sameParams args params := by
  induction params generalizing args with
  | nil => cases args <;> rfl
  | cons param params ih => cases args with
    | nil => rfl
    | cons arg args => rw [sameParams, sameParams, compareTypes_comm, ih]

theorem compareRets_comm (a b : Option Ty) : compareRets a b = compareRets b a := by
  cases a <;> cases b <;> simp [compareRets, compareTypes_comm]

theorem sameFuncParams_comm (f g : FuncSym) : sameFuncParams f g = sameFuncParams g f := by
  rw [sameFuncParams, sameFuncParams, compareRets_comm, sameParams_comm]

@[simp] theorem compatParams_cons (param : ExprType) (params : List ExprType) (arg : ExprType) (args : List ExprType) :
    compatParams (param :: params) (arg :: args) = (compatParam param arg && compatParams params args) := by
  rw [Bool.eq_iff_iff]
  simp only [compatParams, List.length_cons, List.zip_cons_cons, List.all_cons, Bool.and_eq_true, beq_iff_eq,
    Nat.add_right_cancel_iff]
  tauto

theorem compare_of_compat {param param' : ParamRef × Ty} {arg : ExprType}
    (h : compatParam (convert param) arg = true) (h' : compatParam (convert param') arg = true) :
    compareTypes param.2 param'.2 = true := by
  simp only [compatParam, convert, Bool.and_eq_true] at h h'
  exact compareTypes_trans h.1 (compareTypes_comm arg.type param'.2 ▸ h'.1)

/-- Parameters that accept the same arguments are the same. -/
theorem sameParams_of_compat {params params' : List (ParamRef × Ty)} {args : List ExprType}
    (h : compatParams (params.map convert) args = true) (h' : compatParams (params'.map convert) args = true) :
    sameParams params params' = true := by
  induction params generalizing params' args with
  | nil =>
    cases args with
    | nil => cases params' with
      | nil => rfl
      | cons => simp [compatParams] at h'
    | cons => simp [compatParams] at h
  | cons param params ih =>
    cases args with
    | nil => simp [compatParams] at h
    | cons arg args => cases params' with
      | nil => simp [compatParams] at h'
      | cons param' params' =>
        simp only [List.map_cons, compatParams_cons, Bool.and_eq_true] at h h'
        simp [sameParams, compare_of_compat h.1 h'.1, ih h.2 h'.2]

theorem compareRets_of_compat {f g : FuncSym} {receiver : Option ExprType}
    (h : compatReceiver (f.receiver.map convert) receiver = true)
    (h' : compatReceiver (g.receiver.map convert) receiver = true) :
    compareRets (f.receiver.map Prod.snd) (g.receiver.map Prod.snd) = true := by
  cases hf : f.receiver with
  | none => cases hg : g.receiver with
    | none => rfl
    | some r' => cases receiver <;> simp [hf, hg, compatReceiver] at h h'
  | some r => cases hg : g.receiver with
    | none => cases receiver <;> simp [hf, hg, compatReceiver] at h h'
    | some r' => cases receiver with
      | none => simp [hf, compatReceiver] at h
      | some arg =>
        simp only [hf, hg, Option.map_some, compatReceiver] at h h'
        simpa [compareRets] using compare_of_compat h h'

theorem sameFuncParams_of_compat {f g : FuncSym} {receiver : Option ExprType} {args : List ExprType}
    (hf : compatReceiver (f.receiver.map convert) receiver = true ∧ compatParams (f.params.map convert) args = true)
    (hg : compatReceiver (g.receiver.map convert) receiver = true ∧ compatParams (g.params.map convert) args = true) :
    sameFuncParams f g = true := by
  simp [sameFuncParams, compareRets_of_compat hf.1 hg.1, sameParams_of_compat hf.2 hg.2]

/-! ## The symbols of one name -/

/-- Functions of one name and scope have different parameters. -/
def Distinct : Symbol → Symbol → Prop
  | .func f, .func g => sameFuncParams f g = false
  | _, _ => True

theorem distinct_comm {a b : Symbol} (h : Distinct a b) : Distinct b a := by
  cases a <;> cases b <;> simp_all [Distinct, sameFuncParams_comm]

instance : Std.Symm Distinct :=
  ⟨fun _ _ ↦ distinct_comm⟩

/-- The symbols of a name are functions with different parameters, or none of them is a function. -/
structure Overloaded (symbols : List Symbol) : Prop where
  kind : (∀ s ∈ symbols, isFunc s = true) ∨ ∀ s ∈ symbols, isFunc s = false
  distinct : symbols.Pairwise Distinct

theorem Overloaded.perm {symbols symbols' : List Symbol} (h : Overloaded symbols) (hperm : symbols'.Perm symbols) :
    Overloaded symbols' where
  kind := h.kind.imp (fun hall s hs ↦ hall s (hperm.subset hs)) (fun hall s hs ↦ hall s (hperm.subset hs))
  distinct := (hperm.pairwise_iff distinct_comm).mpr h.distinct

theorem equalRange_cons (name : String) (symbol : Symbol) (table : List (String × Symbol)) (name' : String) :
    equalRange ((name, symbol) :: table) name' =
      if name = name' then symbol :: equalRange table name' else equalRange table name' := by
  by_cases h : name = name' <;> simp [equalRange, h]

theorem equalRange_map (f : Symbol → Symbol) (table : List (String × Symbol)) (name : String) :
    equalRange (table.map fun entry ↦ (entry.1, f entry.2)) name = (equalRange table name).map f := by
  simp [equalRange, List.filter_map, Function.comp_def]

theorem mem_equalRange {table : List (String × Symbol)} {name : String} {symbol : Symbol} :
    symbol ∈ equalRange table name ↔ (name, symbol) ∈ table := by
  simp [equalRange]

theorem checkFuncCollide_eq_ok {name : String} {func : FuncSym} {symbols : List Symbol} {u : Unit}
    (h : checkFuncCollide name func symbols = .ok u) :
    ∀ s ∈ symbols, ∃ dupFunc, s = .func dupFunc ∧ sameFuncParams dupFunc func = false := by
  induction symbols with
  | nil => nofun
  | cons symbol symbols ih =>
    cases symbol with
    | func dupFunc =>
      simp only [checkFuncCollide, bind_eq_ok, require_eq_ok, Bool.not_eq_true'] at h
      obtain ⟨_, hdup, h⟩ := h
      intro s hs
      rcases List.mem_cons.mp hs with rfl | hs
      · exact ⟨dupFunc, rfl, hdup⟩
      · exact ih h s hs
    | object | btnFunc | typeAlias => cases h

/-- A function is only added to functions with other parameters. -/
theorem Overloaded.insertFunc {func : FuncSym} {symbols : List Symbol} (h : Overloaded symbols)
    (hcollide : ∀ s ∈ symbols, ∃ dupFunc, s = .func dupFunc ∧ sameFuncParams dupFunc func = false) :
    Overloaded (.func func :: symbols) where
  kind := by
    refine .inl fun s hs ↦ ?_
    rcases List.mem_cons.mp hs with rfl | hs
    · rfl
    · obtain ⟨dupFunc, rfl, -⟩ := hcollide s hs
      rfl
  distinct := by
    refine List.pairwise_cons.mpr ⟨fun s hs ↦ ?_, h.distinct⟩
    obtain ⟨dupFunc, rfl, hdup⟩ := hcollide s hs
    exact (sameFuncParams_comm func dupFunc).trans hdup

theorem Overloaded.setRet {symbols : List Symbol} (h : Overloaded symbols) (node : ℕ) (ret nodeRet : Option Ty) :
    Overloaded (symbols.map (setRet node ret nodeRet)) where
  kind := by
    have hkind (s : Symbol) : isFunc (Overloads.setRet node ret nodeRet s) = isFunc s := by
      cases s with
      | func f =>
        rw [Overloads.setRet]
        split <;> rfl
      | _ => rfl
    simpa [hkind] using h.kind
  distinct := by
    refine h.distinct.map _ fun a b hab ↦ ?_
    cases a with
    | func f => cases b with
      | func g =>
        -- a return type is not compared
        simp only [Overloads.setRet]
        split <;> split <;> exact hab
      | _ => simp only [Overloads.setRet]; split <;> trivial
    | _ => trivial

/-- What insertion maintains. -/
def TableInv (table : Table) : Prop :=
  ∀ name, Overloaded (equalRange table.symbols name)

theorem tableInv_step {table table' : Table} {event : Event} (h : TableInv table)
    (hstep : step table event = some table') : TableInv table' := by
  intro name'
  cases event with
  | insert name symbol =>
    simp only [step] at hstep
    split at hstep
    · cases hstep
    · rename_i hfunc
      split at hstep
      · rename_i symbols hinsert
        cases hstep
        simp only [insert, bind_eq_ok, require_eq_ok, List.isEmpty_iff] at hinsert
        obtain ⟨_, hempty, hinsert⟩ := hinsert
        cases hinsert
        rw [equalRange_cons]
        split
        · rename_i heq
          subst heq
          rw [hempty]
          exact ⟨.inr (by simpa using hfunc), List.pairwise_singleton _ _⟩
        · exact h name'
      · cases hstep
  | insertFunc name func =>
    simp only [step] at hstep
    split at hstep
    · rename_i symbols hinsert
      cases hstep
      simp only [insertFunc, bind_eq_ok] at hinsert
      obtain ⟨_, -, _, -, _, -, _, -, _, hcollide, hinsert⟩ := hinsert
      cases hinsert
      rw [equalRange_cons]
      split
      · rename_i heq
        subst heq
        exact (h name).insertFunc (checkFuncCollide_eq_ok hcollide)
      · exact h name'
    · cases hstep
  | setRet node ret nodeRet =>
    cases hstep
    rw [equalRange_map]
    exact (h name').setRet node ret nodeRet

/-- In a reachable table the functions of one name have different parameters. -/
theorem tableInv_of_reachable {table : Table} (h : Reachable table) : TableInv table := by
  obtain ⟨initial, events, hinitial, hrun⟩ := h
  refine Library.Machine.run_invariant (fun _ _ _ h hstep ↦ tableInv_step h hstep) hrun fun name ↦ ?_
  have hkind : ∀ s ∈ equalRange initial.symbols name, isFunc s = false :=
    fun s hs ↦ hinitial (name, s) (mem_equalRange.mp hs)
  refine ⟨.inr hkind, List.pairwise_of_forall_mem_list fun a ha b _ ↦ ?_⟩
  cases a with
  | func f => cases hkind _ ha
  | _ => trivial

/-! ## Calls -/

/-- The function accepts the arguments (`compatParams`, receiver included). -/
def Accepts (receiver : Option ExprType) (args : List ExprType) : Symbol → Bool
  | .func func => compatReceiver (func.receiver.map convert) receiver && compatParams (func.params.map convert) args
  | _ => false

theorem not_both_accept {receiver : Option ExprType} {args : List ExprType} {a b : Symbol} (h : Distinct a b) :
    ¬(Accepts receiver args a = true ∧ Accepts receiver args b = true) := by
  rintro ⟨ha, hb⟩
  cases a with
  | func f => cases b with
    | func g =>
      simp only [Accepts, Bool.and_eq_true] at ha hb
      have hsame := sameFuncParams_of_compat ha hb
      rw [Distinct] at h
      simp [h] at hsame
    | _ => cases hb
  | _ => cases ha

/-- At most one element of a list satisfies what no two of them do. -/
theorem length_filter_le_one {α : Type} {p : α → Bool} {l : List α}
    (h : l.Pairwise fun a b ↦ ¬(p a = true ∧ p b = true)) : (l.filter p).length ≤ 1 := by
  cases hf : l.filter p with
  | nil => simp
  | cons a rest => cases rest with
    | nil => simp
    | cons b rest =>
      have hpair := h.filter p
      rw [hf] at hpair
      have ha : a ∈ l.filter p := by simp [hf]
      have hb : b ∈ l.filter p := by simp [hf]
      exact absurd ⟨(List.mem_filter.mp ha).2, (List.mem_filter.mp hb).2⟩
        (List.rel_of_pairwise_cons hpair List.mem_cons_self)

/-- The first match is the same in every order when there is at most one. -/
theorem find?_eq_of_perm {α : Type} {p : α → Bool} {l l' : List α} (hperm : l.Perm l')
    (hone : (l.filter p).length ≤ 1) : l.find? p = l'.find? p := by
  have hfilter := hperm.filter p
  rw [← List.head?_filter, ← List.head?_filter]
  match hf : l.filter p, hone with
  | [], _ => rw [hf, List.nil_perm] at hfilter; rw [hfilter]
  | [a], _ => rw [hf, List.singleton_perm] at hfilter; rw [hfilter]

theorem Overloaded.atMostOne {symbols : List Symbol} (h : Overloaded symbols) (receiver : Option ExprType)
    (args : List ExprType) : (symbols.filter (Accepts receiver args)).length ≤ 1 :=
  length_filter_le_one (h.distinct.imp not_both_accept)

/-- The lookup among functions, by the first one that accepts the arguments. -/
theorem lookupFun_of_funcs {name : String} {receiver : Option ExprType} {args : List ExprType} {symbols : List Symbol}
    (h : ∀ s ∈ symbols, isFunc s = true) : lookupFun name receiver args symbols =
      match symbols.find? (Accepts receiver args) with
      | some (.func func) => .ok func
      | _ => fatal s!"No matching call to function \"{name}\"" := by
  induction symbols with
  | nil => rfl
  | cons symbol symbols ih =>
    cases symbol with
    | func func =>
      have ih := ih fun s hs ↦ h s (List.mem_cons_of_mem _ hs)
      rw [lookupFun, List.find?_cons]
      by_cases hmatch : Accepts receiver args (.func func) = true
      · rw [hmatch]
        simp only [Accepts, Bool.and_eq_true] at hmatch
        rw [if_pos hmatch]
        rfl
      · have hmatch' := hmatch
        simp only [Accepts, Bool.and_eq_true] at hmatch'
        rw [if_neg hmatch', Bool.eq_false_iff.mpr hmatch]
        exact ih
    | _ => cases h _ List.mem_cons_self

theorem lookupFun_of_not_func {name : String} {receiver : Option ExprType} {args : List ExprType} {symbol : Symbol}
    {symbols : List Symbol} (h : isFunc symbol = false) : lookupFun name receiver args (symbol :: symbols) =
      fatal s!"Calling \"{name}\" but it is not a function" := by
  cases symbol with
  | func => cases h
  | _ => rfl

theorem lookupFun_perm {name : String} {receiver : Option ExprType} {args : List ExprType} {symbols symbols' : List Symbol}
    (h : Overloaded symbols) (hperm : symbols'.Perm symbols) :
    lookupFun name receiver args symbols' = lookupFun name receiver args symbols := by
  rcases h.kind with hall | hnone
  · rw [lookupFun_of_funcs hall, lookupFun_of_funcs fun s hs ↦ hall s (hperm.subset hs),
      find?_eq_of_perm hperm.symm (h.atMostOne receiver args)]
  · -- whatever comes first is not a function
    cases symbols' with
    | nil => rw [List.nil_perm.mp hperm]
    | cons s' symbols' => cases symbols with
      | nil => cases List.perm_nil.mp hperm
      | cons s symbols =>
        rw [lookupFun_of_not_func (hnone s List.mem_cons_self),
          lookupFun_of_not_func (hnone s' (hperm.subset List.mem_cons_self))]

theorem isEmpty_perm {symbols symbols' : List Symbol} (hperm : symbols'.Perm symbols) :
    symbols'.isEmpty = symbols.isEmpty := by
  rw [Bool.eq_iff_iff, List.isEmpty_iff, List.isEmpty_iff]
  constructor
  · rintro rfl
    exact List.nil_perm.mp hperm
  · rintro rfl
    exact List.perm_nil.mp hperm

theorem callName_perm {name : String} {symbols symbols' : List Symbol} (h : Overloaded symbols)
    (hperm : symbols'.Perm symbols) (args : List (AExpr × ExprType)) :
    callName name symbols' args = callName name symbols args := by
  rw [callName, callName, isEmpty_perm hperm, lookupFun_perm h hperm]

theorem callMember_perm {name : String} {symbols symbols' : List Symbol} (h : Overloaded symbols)
    (hperm : symbols'.Perm symbols) (object : AExpr) (receiver : ExprType) (args : List (AExpr × ExprType)) :
    callMember object receiver name symbols' args = callMember object receiver name symbols args := by
  rw [callMember, callMember, isEmpty_perm hperm, lookupFun_perm h hperm]

/-! ## Functions as values -/

/-- The address of the function can be taken. -/
def HasAddress (func : FuncSym) : Prop :=
  func.external = false ∧ func.receiver = none

/-- The function can be taken for a value of the type. -/
def Matches (type : Ty) (func : FuncSym) : Prop :=
  HasAddress func ∧ compareTypes type (.func func.params func.nodeRet) = true

def funcValue (func : FuncSym) : Visited :=
  setLetVal (.funcRef ⟨none, .func func.params func.nodeRet⟩ func)

/-- Both lookups are accepted with the same choice, or neither is accepted. -/
def SameChoice (a b : Check Visited) : Prop :=
  ∀ v, a = .ok v ↔ b = .ok v

/-- Where several functions have the name and one of them has the expected type, none of them is external
or a method. -/
def OrderFree (symbols : List Symbol) (expected : Option Ty) : Prop :=
  ∀ type, expected = some type → 1 < symbols.length → (∃ func, .func func ∈ symbols ∧ Matches type func) →
    ∀ func, .func func ∈ symbols → HasAddress func

theorem addressOfFunc_eq_ok {func : FuncSym} {type : Ty} :
    addressOfFunc func = .ok type ↔ HasAddress func ∧ type = .func func.params func.nodeRet := by
  unfold addressOfFunc HasAddress
  cases func.external <;> cases func.receiver <;> simp [fatal, pure, Except.pure, eq_comm]

theorem sameParams_of_compareParams {params params' : List (ParamRef × Ty)} (h : compareParams params params' = true) :
    sameParams params params' = true := by
  induction params generalizing params' with
  | nil => cases params' <;> simp_all [compareParams, sameParams]
  | cons param params ih => cases params' with
    | nil => simp [compareParams] at h
    | cons param' params' =>
      simp only [compareParams, Bool.and_eq_true] at h
      simp [sameParams, h.1.2, ih h.2]

/-- Functions without receiver that have one type have the same parameters. -/
theorem sameFuncParams_of_matches {type : Ty} {f g : FuncSym} (hf : Matches type f) (hg : Matches type g) :
    sameFuncParams f g = true := by
  have hcompare := compareTypes_trans (compareTypes_comm type _ ▸ hf.2) hg.2
  simp only [compareTypes, Ty.lookupStrongType, Bool.and_eq_true] at hcompare
  simp [sameFuncParams, hf.1.2, hg.1.2, compareRets, sameParams_of_compareParams hcompare.2]

theorem Overloaded.matches_unique {symbols : List Symbol} (h : Overloaded symbols) {type : Ty} {f g : FuncSym}
    (hf : .func f ∈ symbols) (hg : .func g ∈ symbols) (hmf : Matches type f) (hmg : Matches type g) : f = g := by
  by_contra hne
  have hdistinct : Distinct (.func f) (.func g) :=
    h.distinct.forall hf hg (by simpa using hne)
  rw [Distinct, sameFuncParams_of_matches hmf hmg] at hdistinct
  cases hdistinct

theorem findOverload_matches {name : String} {type : Ty} {symbols : List Symbol} {v : Visited}
    (h : findOverload name type symbols = .ok v) :
    ∃ func, .func func ∈ symbols ∧ Matches type func ∧ v = funcValue func := by
  induction symbols with
  | nil => cases h
  | cons symbol symbols ih =>
    cases symbol with
    | func func =>
      simp only [findOverload, bind_eq_ok, addressOfFunc_eq_ok] at h
      obtain ⟨_, ⟨haddr, rfl⟩, h⟩ := h
      split at h
      · rename_i hcompare
        cases h
        exact ⟨func, List.mem_cons_self, ⟨haddr, hcompare⟩, rfl⟩
      · obtain ⟨func', hmem, hmatches, rfl⟩ := ih h
        exact ⟨func', List.mem_cons_of_mem _ hmem, hmatches, rfl⟩
    | _ => cases h

theorem findOverload_head {name : String} {type : Ty} {func : FuncSym} {symbols : List Symbol} (h : Matches type func) :
    findOverload name type (.func func :: symbols) = .ok (funcValue func) := by
  simp only [findOverload, addressOfFunc_eq_ok.mpr ⟨h.1, rfl⟩]
  exact if_pos h.2

/-- Without external functions and methods the loop finds the function that has the type. -/
theorem findOverload_of_addresses {name : String} {type : Ty} {symbols : List Symbol} {func : FuncSym}
    (hfuncs : ∀ s ∈ symbols, isFunc s = true) (haddr : ∀ f, .func f ∈ symbols → HasAddress f)
    (hmem : .func func ∈ symbols) (hmatches : Matches type func)
    (hunique : ∀ f, .func f ∈ symbols → Matches type f → f = func) :
    findOverload name type symbols = .ok (funcValue func) := by
  induction symbols with
  | nil => cases hmem
  | cons symbol symbols ih =>
    cases symbol with
    | func f =>
      have hf := haddr f List.mem_cons_self
      by_cases hcompare : compareTypes type (.func f.params f.nodeRet) = true
      · rw [findOverload_head ⟨hf, hcompare⟩, hunique f List.mem_cons_self ⟨hf, hcompare⟩]
      · have hrest : .func func ∈ symbols := by
          refine (List.mem_cons.mp hmem).resolve_left fun heq ↦ ?_
          cases heq
          exact hcompare hmatches.2
        have ih := ih (fun s hs ↦ hfuncs s (List.mem_cons_of_mem _ hs)) (fun f hf ↦ haddr f (List.mem_cons_of_mem _ hf))
          hrest fun f hf ↦ hunique f (List.mem_cons_of_mem _ hf)
        simp only [findOverload, addressOfFunc_eq_ok.mpr ⟨hf, rfl⟩]
        exact (if_neg hcompare).trans ih
    | _ => cases hfuncs _ List.mem_cons_self

theorem lookupIdent_of_func {name : String} {symbols : List Symbol} {expected : Option Ty} (hne : symbols ≠ [])
    (hfuncs : ∀ s ∈ symbols, isFunc s = true) :
    lookupIdent name symbols false expected = pushFunPtr name symbols expected := by
  cases symbols with
  | nil => exact absurd rfl hne
  | cons symbol symbols => cases symbol with
    | func func => rfl
    | _ => cases hfuncs _ List.mem_cons_self

theorem pushFunPtr_overloads {name : String} {symbols : List Symbol} {expected : Option Ty} (h : 1 < symbols.length) :
    pushFunPtr name symbols expected = match expected with
      | none => fatal s!"Ambiguous reference to overloaded function \"{name}\""
      | some type => findOverload name type symbols := by
  match symbols, h with
  | symbol :: _ :: _, _ => cases symbol <;> cases expected <;> rfl

theorem findOverload_sameChoice {name : String} {type : Ty} {symbols symbols' : List Symbol} (h : Overloaded symbols)
    (hfuncs : ∀ s ∈ symbols, isFunc s = true) (hperm : symbols'.Perm symbols) (hlength : 1 < symbols.length)
    (hfree : OrderFree symbols (some type)) {v : Visited} (hv : findOverload name type symbols' = .ok v) :
    findOverload name type symbols = .ok v := by
  obtain ⟨func, hmem, hmatches, rfl⟩ := findOverload_matches hv
  have hmem := hperm.subset hmem
  exact findOverload_of_addresses hfuncs (hfree type rfl hlength ⟨func, hmem, hmatches⟩) hmem hmatches
    fun f hf hmf ↦ h.matches_unique hf hmem hmf hmatches

theorem OrderFree.perm {symbols symbols' : List Symbol} {expected : Option Ty} (h : OrderFree symbols expected)
    (hperm : symbols'.Perm symbols) : OrderFree symbols' expected := by
  rintro type hexpected hlength ⟨func, hmem, hmatches⟩ f hf
  exact h type hexpected (hperm.length_eq ▸ hlength) ⟨func, hperm.subset hmem, hmatches⟩ f (hperm.subset hf)

theorem eq_of_perm_of_length {α : Type} {l l' : List α} (hperm : l'.Perm l) (h : ¬1 < l.length) : l' = l := by
  match l, h with
  | [], _ => exact List.perm_nil.mp hperm
  | [_], _ => exact List.perm_singleton.mp hperm
  | _ :: _ :: _, h => exact absurd (by simp) h

/-- The use of a function as a value does not depend on the order if and only if `OrderFree` holds. -/
theorem pushFunPtr_perm_iff {name : String} {symbols : List Symbol} {expected : Option Ty} (h : Overloaded symbols)
    (hfuncs : ∀ s ∈ symbols, isFunc s = true) :
    (∀ symbols', symbols'.Perm symbols →
      SameChoice (pushFunPtr name symbols' expected) (pushFunPtr name symbols expected)) ↔
      OrderFree symbols expected := by
  constructor
  · rintro hsame type rfl hlength ⟨func, hmem, hmatches⟩ other hother
    obtain ⟨before, after, rfl⟩ := List.append_of_mem hmem
    -- the overload that matches first
    have hperm : (Symbol.func func :: (before ++ after)).Perm (before ++ .func func :: after) := List.perm_middle.symm
    have hfirst : SameChoice (pushFunPtr name (.func func :: (before ++ after)) (some type)) _ := hsame _ hperm
    rw [pushFunPtr_overloads (hperm.length_eq ▸ hlength), pushFunPtr_overloads hlength] at hfirst
    have hchoice := (hfirst _).mp (findOverload_head hmatches)
    -- then the other one first
    obtain ⟨before', after', hsplit⟩ := List.append_of_mem hother
    have hperm' : (Symbol.func other :: (before' ++ after')).Perm (before ++ .func func :: after) := by
      rw [hsplit]
      exact List.perm_middle.symm
    have hsecond : SameChoice (pushFunPtr name (.func other :: (before' ++ after')) (some type)) _ := hsame _ hperm'
    rw [pushFunPtr_overloads (hperm'.length_eq ▸ hlength), pushFunPtr_overloads hlength] at hsecond
    have hok := (hsecond _).mpr hchoice
    simp only [findOverload, bind_eq_ok, addressOfFunc_eq_ok] at hok
    obtain ⟨_, ⟨haddr, -⟩, -⟩ := hok
    exact haddr
  · intro hfree symbols' hperm
    by_cases hlength : 1 < symbols.length
    · rw [pushFunPtr_overloads hlength, pushFunPtr_overloads (hperm.length_eq ▸ hlength)]
      cases expected with
      | none => exact fun _ ↦ Iff.rfl
      | some type =>
        refine fun v ↦ ⟨findOverload_sameChoice h hfuncs hperm hlength hfree, ?_⟩
        exact findOverload_sameChoice (h.perm hperm) (fun s hs ↦ hfuncs s (hperm.subset hs)) hperm.symm
          (hperm.length_eq ▸ hlength) (hfree.perm hperm)
    · rw [eq_of_perm_of_length hperm hlength]
      exact fun _ ↦ Iff.rfl

/-! ## Overload resolution -/

/-- In a reachable table at most one function of a name accepts an argument list, and calls do not depend
on the order in which the table enumerates the functions; the use of a function as a value does not depend
on it if and only if `OrderFree` holds. -/
theorem overloads_order_free_iff (table : Table) (h : Reachable table) (name : String) :
    (∀ receiver args, ((equalRange table.symbols name).filter (Accepts receiver args)).length ≤ 1) ∧
      (∀ symbols, symbols.Perm (equalRange table.symbols name) →
        (∀ args, callName name symbols args = callName name (equalRange table.symbols name) args) ∧
          ∀ object receiver args, callMember object receiver name symbols args =
            callMember object receiver name (equalRange table.symbols name) args) ∧
      ((∃ func, .func func ∈ equalRange table.symbols name) → ∀ expected,
        ((∀ symbols, symbols.Perm (equalRange table.symbols name) →
          SameChoice (lookupIdent name symbols false expected)
            (lookupIdent name (equalRange table.symbols name) false expected)) ↔
          OrderFree (equalRange table.symbols name) expected)) := by
  have hover := tableInv_of_reachable h name
  refine ⟨hover.atMostOne, fun symbols hperm ↦ ⟨callName_perm hover hperm, callMember_perm hover hperm⟩, ?_⟩
  rintro ⟨func, hfunc⟩ expected
  have hfuncs : ∀ s ∈ equalRange table.symbols name, isFunc s = true := by
    refine hover.kind.resolve_right fun hnone ↦ ?_
    cases hnone _ hfunc
  have hne : equalRange table.symbols name ≠ [] := List.ne_nil_of_mem hfunc
  rw [← pushFunPtr_perm_iff hover hfuncs]
  refine forall_congr' fun symbols ↦ forall_congr' fun hperm ↦ ?_
  have hne' : symbols ≠ [] := by
    rintro rfl
    exact hne (List.nil_perm.mp hperm)
  rw [lookupIdent_of_func hne hfuncs, lookupIdent_of_func hne' fun s hs ↦ hfuncs s (hperm.subset hs)]

/-- `func f(x: sint) {}` -/
def plainFunc : FuncSym where
  node := 0
  params := [(.val, .btn .sint)]
  ret := some (.btn .void)

/-- `func (x: real) f() {}` -/
def methodFunc : FuncSym where
  node := 1
  receiver := some (.val, .btn .real)
  params := []
  ret := some (.btn .void)

/-- The global scope after the declaration of the function and of the method. -/
def methodTable : Table where
  type := .ns
  symbols := [("f", .func methodFunc), ("f", .func plainFunc)]

theorem methodTable_reachable : Reachable methodTable :=
  ⟨⟨.ns, []⟩, [.insertFunc "f" plainFunc, .insertFunc "f" methodFunc], nofun, rfl⟩

theorem overloads_order_free_iff_methodTable :
    ((equalRange methodTable.symbols "f").filter (Accepts none [makeLetVal (.btn .sint)])).length ≤ 1 ∧
      ∀ symbols, symbols.Perm (equalRange methodTable.symbols "f") →
        SameChoice (lookupIdent "f" symbols false none)
          (lookupIdent "f" (equalRange methodTable.symbols "f") false none) :=
  have h := overloads_order_free_iff methodTable methodTable_reachable "f"
  ⟨h.1 none _, (h.2.2 ⟨methodFunc, List.mem_cons_self⟩ none).mpr nofun⟩

/-- `let p: func(sint) = f;` -/
theorem lookupIdent_order_dependent :
    ¬∀ table, Reachable table → ∀ name symbols expected, symbols.Perm (equalRange table.symbols name) →
      SameChoice (lookupIdent name symbols false expected) (lookupIdent name (equalRange table.symbols name) false expected) := by
  intro h
  have hsame := h methodTable methodTable_reachable "f" [.func plainFunc, .func methodFunc]
    (some (.func [(.val, .btn .sint)] (some (.btn .void)))) (List.Perm.swap _ _ _)
  have hok := (hsame (funcValue plainFunc)).mp rfl
  cases hok

end Stela.Semantic.Overloads
