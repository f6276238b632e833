import Stela.Semantic.NameResolution
import Stela.Library.Except

/-!
# Definite initialisation

A use of a local is preceded by its declaration on every path if no name crosses from one branch of an `if`
to the other, or from the increment of a `for` to its body. Only there does the table of a scope hold what
the path may not have declared: both branches are visited in one scope, and an increment is visited before
the body that runs before it.
-/

namespace Stela.Semantic.DefiniteInit

open Stela.Syntax hiding Expr
open Stela.Flow Stela.Semantic.NameResolution
open Stela.Library.Except (bind_eq_ok)

/-! ## The names of a statement -/

section Declares

variable {ε : Type}

def asgnDeclares : Asgn ε → Option (String × Bool)
  | .declAssign name _ => some (name, true)
  | _ => none

def optAsgnDeclares : Option (Asgn ε) → Option (String × Bool)
  | none => none
  | some asgn => asgnDeclares asgn

def declDeclares : Decl ε → Option (String × Bool)
  | .var name _ _ | .let_ name _ _ => some (name, true)
  | .typeAlias name _ _ => some (name, false)

/-- The name that a statement adds to the scope it stands in, and whether it is that of an object. -/
def declares : Stat ε → Option (String × Bool)
  | .decl decl => declDeclares decl
  | .asgn asgn => asgnDeclares asgn
  | _ => none

end Declares

/-- The names that are not the declared one. -/
def without (decl : Option (String × Bool)) (names : List String) : List String :=
  names.filter fun name ↦ decl.map Prod.fst != some name

mutual

/-- The names that are looked up outside of the expression. -/
def freeExpr : Expr → List String
  | .ident name => [name]
  | .node exprs => freeExprs exprs
  | .lambda params body => (freeNodes body).filter fun name ↦ !params.contains name

def freeExprs : List Expr → List String
  | [] => []
  | expr :: exprs => freeExpr expr ++ freeExprs exprs

def freeOptExpr : Option Expr → List String
  | none => []
  | some expr => freeExpr expr

def freeAsgn : Asgn Expr → List String
  | .compAssign dst _ src | .assign dst src => freeExpr dst ++ freeExpr src
  | .incrDecr expr _ | .declAssign _ expr | .callAssign expr => freeExpr expr

def freeOptAsgn : Option (Asgn Expr) → List String
  | none => []
  | some asgn => freeAsgn asgn

def freeDecl : Decl Expr → List String
  | .var _ _ expr => freeOptExpr expr
  | .let_ _ _ expr => freeExpr expr
  | .typeAlias _ _ _ => []

/-- The names that are looked up in the scopes around the statement, in visiting order. -/
def freeStat : Stat Expr → List String
  | .block nodes => freeNodes nodes
  | .fi cond body none => freeExpr cond ++ freeStat body
  | .fi cond body (some elseBody) =>
      freeExpr cond ++ (freeStat body ++ without (declares body) (freeStat elseBody))
  | .swich expr cases _ => freeExpr expr ++ freeCases cases
  | .terminate | .brake | .continu => []
  | .ret expr => freeOptExpr expr
  | .wile cond body => freeExpr cond ++ freeStat body
  | .four init cond incr body =>
      freeOptAsgn init ++ without (optAsgnDeclares init)
        (freeExpr cond ++ (freeOptAsgn incr ++ without (optAsgnDeclares incr) (freeStat body)))
  | .decl decl => freeDecl decl
  | .asgn asgn => freeAsgn asgn

def freeNodes : List (Stat Expr) → List String
  | [] => []
  | node :: nodes => freeStat node ++ without (declares node) (freeNodes nodes)

def freeCases : List (SwitchCase Expr) → List String
  | [] => []
  | .mk expr body :: cases => freeOptExpr expr ++ (freeStat body ++ freeCases cases)

end

/-- None of the names is that of the declared object. -/
def apart (decl : Option (String × Bool)) (names : List String) : Bool :=
  names.all fun name ↦ decl != some (name, true)

mutual

def cleanExpr : Expr → Bool
  | .ident _ => true
  | .node exprs => cleanExprs exprs
  | .lambda _ body => cleanNodes body

def cleanExprs : List Expr → Bool
  | [] => true
  | expr :: exprs => cleanExpr expr && cleanExprs exprs

def cleanOptExpr : Option Expr → Bool
  | none => true
  | some expr => cleanExpr expr

def cleanAsgn : Asgn Expr → Bool
  | .compAssign dst _ src | .assign dst src => cleanExpr dst && cleanExpr src
  | .incrDecr expr _ | .declAssign _ expr | .callAssign expr => cleanExpr expr

def cleanOptAsgn : Option (Asgn Expr) → Bool
  | none => true
  | some asgn => cleanAsgn asgn

def cleanDecl : Decl Expr → Bool
  | .var _ _ expr => cleanOptExpr expr
  | .let_ _ _ expr => cleanExpr expr
  | .typeAlias _ _ _ => true

/-- No second branch of an `if` mentions what the first one declares without a block, and no body of a `for`
mentions what the increment declares. -/
def clean : Stat Expr → Bool
  | .block nodes => cleanNodes nodes
  | .fi cond body none => cleanExpr cond && clean body
  | .fi cond body (some elseBody) =>
      cleanExpr cond && (clean body && (clean elseBody && apart (declares body) (freeStat elseBody)))
  | .swich expr cases _ => cleanExpr expr && cleanCases cases
  | .terminate | .brake | .continu => true
  | .ret expr => cleanOptExpr expr
  | .wile cond body => cleanExpr cond && clean body
  | .four init cond incr body =>
      cleanOptAsgn init && (cleanExpr cond && (cleanOptAsgn incr && (clean body &&
        apart (optAsgnDeclares incr) (freeStat body))))
  | .decl decl => cleanDecl decl
  | .asgn asgn => cleanAsgn asgn

def cleanNodes : List (Stat Expr) → Bool
  | [] => true
  | node :: nodes => clean node && cleanNodes nodes

def cleanCases : List (SwitchCase Expr) → Bool
  | [] => true
  | .mk expr body :: cases => cleanOptExpr expr && (clean body && cleanCases cases)

end

/-! ## Initialised paths -/

/-- Every use along the events of an object that the body itself declares comes after the declaration. -/
def DefinitelyInitialised (nodes : Body) : Prop :=
  ∀ t o, RunsNodes [] 0 nodes t o → ∀ before uses after, t = before ++ .eval uses :: after →
    ∀ pos, (0, Site.stat pos) ∈ uses → pos ∈ declared before

def Covered (done : List Position) (uses : List Use) : Prop :=
  ∀ pos, (0, Site.stat pos) ∈ uses → pos ∈ done

/-- The same for a part of a path, before which some declarations have been executed. -/
def Inits : List Position → List (Event (List Use)) → Prop
  | _, [] => True
  | done, .eval uses :: t => Covered done uses ∧ Inits done t
  | done, .declare pos :: t => Inits (pos :: done) t

theorem Covered.mono {done done' : List Position} {uses : List Use} (h : Covered done uses) (hsub : done ⊆ done') :
    Covered done' uses :=
  fun pos hpos ↦ hsub (h pos hpos)

theorem Inits.mono {t : List (Event (List Use))} : {done done' : List Position} → Inits done t → done ⊆ done' →
    Inits done' t := by
  induction t with
  | nil => exact fun _ _ ↦ trivial
  | cons event t ih =>
    intro done done' h hsub
    cases event with
    | eval uses => exact ⟨h.1.mono hsub, ih h.2 hsub⟩
    | declare pos => exact ih (show Inits (pos :: done) t from h) (List.cons_subset_cons pos hsub)

theorem inits_append_iff {t t' : List (Event (List Use))} : {done : List Position} →
    (Inits done (t ++ t') ↔ Inits done t ∧ Inits (declared t ++ done) t') := by
  induction t with
  | nil => simp [Inits, declared]
  | cons event t ih =>
    intro done
    cases event with
    | eval uses => simp only [List.cons_append, Inits, declared, ih, and_assoc]
    | declare pos =>
      simp only [List.cons_append, Inits, declared, ih]
      have hsame : ∀ pos', pos' ∈ declared t ++ pos :: done ↔ pos' ∈ pos :: (declared t ++ done) := by
        intro pos'
        simp only [List.mem_append, List.mem_cons]
        tauto
      exact and_congr_right fun _ ↦ ⟨fun h ↦ h.mono fun pos' ↦ (hsame pos').mp, fun h ↦ h.mono fun pos' ↦ (hsame pos').mpr⟩

theorem Inits.append {done : List Position} {t t' : List (Event (List Use))} (h : Inits done t)
    (h' : Inits (declared t ++ done) t') : Inits done (t ++ t') :=
  inits_append_iff.mpr ⟨h, h'⟩

theorem subset_declared (t : List (Event (List Use))) (done : List Position) : done ⊆ declared t ++ done :=
  List.subset_append_right _ _

theorem definitelyInitialised_of_inits {nodes : Body} (h : ∀ t o, RunsNodes [] 0 nodes t o → Inits [] t) :
    DefinitelyInitialised nodes := by
  rintro t o hruns before uses after rfl pos hpos
  have hrest := (inits_append_iff.mp (h _ o hruns)).2
  simpa using hrest.1 pos hpos

/-! ## Paths through the parts of a statement -/

theorem inits_evals {done : List Position} : {t : List (Event (List Use))} →
    (∀ event ∈ t, ∃ uses, event = .eval uses ∧ Covered done uses) → Inits done t
  | [], _ => trivial
  | event :: t, h => by
    obtain ⟨uses, rfl, huses⟩ := h event List.mem_cons_self
    exact ⟨huses, inits_evals fun event hevent ↦ h event (List.mem_cons_of_mem _ hevent)⟩

theorem inits_asgnEvents {done : List Position} {pos : Position} {asgn : Asgn (List Use)}
    (h : Covered done (asgnExprs asgn).flatten) : Inits done (asgnEvents pos asgn) := by
  have huses : ∀ uses ∈ asgnExprs asgn, Covered done uses :=
    fun uses huses pos hpos ↦ h pos (List.mem_flatten.mpr ⟨uses, huses, hpos⟩)
  cases asgn <;> simp_all [asgnEvents, asgnExprs, Inits]

theorem inits_optAsgnEvents {done : List Position} {pos : Position} : {asgn : Option (Asgn (List Use))} →
    Covered done (optAsgnExprs asgn).flatten → Inits done (optAsgnEvents pos asgn)
  | none, _ => trivial
  | some _, h => inits_asgnEvents h

theorem inits_declEvents {done : List Position} {pos : Position} {decl : Decl (List Use)}
    (h : Covered done (declExprs decl).flatten) : Inits done (declEvents pos decl) := by
  have huses : ∀ uses ∈ declExprs decl, Covered done uses :=
    fun uses huses pos hpos ↦ h pos (List.mem_flatten.mpr ⟨uses, huses, hpos⟩)
  match decl with
  | .var _ _ none | .typeAlias _ _ _ => simp [declEvents, Inits]
  | .var _ _ (some _) | .let_ _ _ _ => simpa [declEvents, declExprs, Inits] using huses

theorem inits_checkEvents {done : List Position} {cases : List (SwitchCase (List Use))}
    (h : ∀ c ∈ cases, ∀ uses, c.expr = some uses → Covered done uses) : Inits done (checkEvents cases) := by
  refine inits_evals fun event hevent ↦ ?_
  obtain ⟨c, hc, hevent⟩ := List.mem_flatMap.mp hevent
  cases hexpr : c.expr with
  | none => simp [hexpr, optEvents] at hevent
  | some uses =>
    rw [hexpr] at hevent
    exact ⟨uses, List.mem_singleton.mp hevent, h c hc uses hexpr⟩

/-- A loop is initialised if its parts are, whatever has been declared on top in earlier iterations. -/
theorem inits_loop {cond : List Use} {incr : List (Event (List Use))} {pos : Position} {body : Stat (List Use)}
    {t : List (Event (List Use))} {o : Option Outcome} (h : RunsLoop cond incr pos body t o) : (done : List Position) →
      (∀ done', done ⊆ done' →
        Covered done' cond ∧ (∀ t o, Runs pos body t o → Inits done' t) ∧ Inits done' incr) → Inits done t := by
  refine runsLoop_induct ?_ ?_ (fun t o hbody _ ↦ ?_) (fun t t' o o' hbody _ ih ↦ ?_) h
  · exact fun _ _ ↦ trivial
  · exact fun done h ↦ ⟨(h done (List.Subset.refl _)).1, trivial⟩
  · exact fun done h ↦ ⟨(h done (List.Subset.refl _)).1, (h done (List.Subset.refl _)).2.1 _ _ hbody⟩
  · intro done h
    obtain ⟨hcond, hruns, -⟩ := h done (List.Subset.refl _)
    have hsub := subset_declared t done
    have hsub' := List.Subset.trans hsub (subset_declared incr _)
    refine ⟨hcond, (hruns _ _ hbody).append (Inits.append (h _ hsub).2.2 ?_)⟩
    exact ih _ fun done' hdone' ↦ h done' (List.Subset.trans hsub' hdone')

theorem declared_asgnEvents {asgn : Asgn (List Use)} {pos : Position} {name : String}
    (h : asgnDeclares asgn = some (name, true)) : pos ∈ declared (asgnEvents pos asgn) := by
  cases asgn <;> simp_all [asgnDeclares, asgnEvents, declared]

theorem declared_optAsgnEvents {pos : Position} {name : String} : {asgn : Option (Asgn (List Use))} →
    optAsgnDeclares asgn = some (name, true) → pos ∈ declared (optAsgnEvents pos asgn)
  | some _, h => declared_asgnEvents h

/-- A statement that is left at its end has executed its declaration. -/
theorem declared_of_falls {s : Stat (List Use)} {pos : Position} {name : String} {t : List (Event (List Use))}
    (h : declares s = some (name, true)) (hruns : Runs pos s t (some .falls)) : pos ∈ declared t := by
  cases hruns with
  | @decl _ decl =>
    match decl, h with
    | .var _ _ none, _ | .var _ _ (some _), _ | .let_ _ _ _, _ => simp [declEvents, declared]
  | asgn => exact declared_asgnEvents h
  | _ => cases h

/-! ## What names refer to -/

/-- Each use is one of an object that one of the names refers to. -/
def Resolved (names : List String) (scopes : List Scope) (uses : List Use) : Prop :=
  ∀ use ∈ uses, ∃ name ∈ names, findScope name scopes = some (use.1, .object use.2)

/-- The same for the uses of what is declared outside of the body. -/
def OuterResolved (names : List String) (scopes : List Scope) (uses : List Use) : Prop :=
  ∀ depth site, (depth + 1, site) ∈ uses → ∃ name ∈ names, findScope name scopes = some (depth + 1, .object site)

/-- What the names refer to in the body itself has been declared. -/
def Done (done : List Position) (names : List String) (scopes : List Scope) : Prop :=
  ∀ name ∈ names, ∀ pos, findScope name scopes = some (0, .object (.stat pos)) → pos ∈ done

/-- The entry for a name that the statement at the position declares. -/
def entryAt (pos : Position) : Bool → Entry
  | true => .object (.stat pos)
  | false => .other

/-- The scopes after a statement: what it declares hides what had the name before. -/
def Adds (decl : Option (String × Bool)) (pos : Position) (scopes scopes' : List Scope) : Prop :=
  ∀ name, (∃ object, decl = some (name, object) ∧ findScope name scopes' = some (0, entryAt pos object)) ∨
    (decl.map Prod.fst ≠ some name ∧ findScope name scopes' = findScope name scopes)

theorem Resolved.append {names names' : List String} {scopes : List Scope} {uses uses' : List Use}
    (h : Resolved names scopes uses) (h' : Resolved names' scopes uses') :
    Resolved (names ++ names') scopes (uses ++ uses') := by
  intro use huse
  rcases List.mem_append.mp huse with huse | huse
  · obtain ⟨name, hname, hfind⟩ := h use huse
    exact ⟨name, List.mem_append_left _ hname, hfind⟩
  · obtain ⟨name, hname, hfind⟩ := h' use huse
    exact ⟨name, List.mem_append_right _ hname, hfind⟩

theorem OuterResolved.append {names names' : List String} {scopes : List Scope} {uses uses' : List Use}
    (h : OuterResolved names scopes uses) (h' : OuterResolved names' scopes uses') :
    OuterResolved (names ++ names') scopes (uses ++ uses') := by
  intro depth site huse
  rcases List.mem_append.mp huse with huse | huse
  · obtain ⟨name, hname, hfind⟩ := h depth site huse
    exact ⟨name, List.mem_append_left _ hname, hfind⟩
  · obtain ⟨name, hname, hfind⟩ := h' depth site huse
    exact ⟨name, List.mem_append_right _ hname, hfind⟩

theorem Resolved.outer {names : List String} {scopes : List Scope} {uses : List Use} (h : Resolved names scopes uses) :
    OuterResolved names scopes uses :=
  fun depth site huse ↦ h (depth + 1, site) huse

theorem Resolved.covered {names : List String} {scopes : List Scope} {uses : List Use} {done : List Position}
    (h : Resolved names scopes uses) (hdone : Done done names scopes) : Covered done uses := by
  intro pos hpos
  obtain ⟨name, hname, hfind⟩ := h (0, .stat pos) hpos
  exact hdone name hname pos hfind

theorem done_append_iff {done : List Position} {names names' : List String} {scopes : List Scope} :
    Done done (names ++ names') scopes ↔ Done done names scopes ∧ Done done names' scopes := by
  simp only [Done, List.mem_append, or_imp, forall_and]

theorem Done.mono {done done' : List Position} {names : List String} {scopes : List Scope}
    (h : Done done names scopes) (hsub : done ⊆ done') : Done done' names scopes :=
  fun name hname pos hfind ↦ hsub (h name hname pos hfind)

theorem mem_without {decl : Option (String × Bool)} {names : List String} {name : String} :
    name ∈ without decl names ↔ name ∈ names ∧ decl.map Prod.fst ≠ some name := by
  simp only [without, List.mem_filter, bne_iff_ne]

theorem adds_none (pos : Position) (scopes : List Scope) : Adds none pos scopes scopes :=
  fun _ ↦ .inr ⟨nofun, rfl⟩

theorem insert_adds {name : String} (object : Bool) {pos : Position} : {scopes scopes' : List Scope} →
    insert name (entryAt pos object) scopes = .ok scopes' → Adds (some (name, object)) pos scopes scopes'
  | scope :: parents, scopes', h => by
    obtain ⟨_, -, h⟩ := bind_eq_ok.mp h
    cases h
    intro name'
    by_cases heq : name' = name
    · subst heq
      exact .inl ⟨object, rfl, by simp [findScope]⟩
    · have hlookup : List.lookup name' ((name, entryAt pos object) :: scope.table) = scope.table.lookup name' := by
        rw [List.lookup_cons, beq_false_of_ne heq]
      exact .inr ⟨fun h ↦ heq (Option.some.inj h).symm, by simp only [findScope, hlookup]⟩

/-- What is not declared by the statement before was outside of the body already. -/
theorem OuterResolved.without {decl : Option (String × Bool)} {pos : Position} {scopes scopes' : List Scope}
    {names : List String} {uses : List Use} (h : OuterResolved names scopes' uses) (hadds : Adds decl pos scopes scopes') :
    OuterResolved (without decl names) scopes uses := by
  intro depth site huse
  obtain ⟨name, hname, hfind⟩ := h depth site huse
  rcases hadds name with ⟨object, -, hnew⟩ | ⟨hne, hold⟩
  · rw [hnew] at hfind
    cases hfind
  · exact ⟨name, mem_without.mpr ⟨hname, hne⟩, hold ▸ hfind⟩

/-- After a statement, what the names refer to is done if the statement has executed what it declares, or if
no name is that of the object it declares. -/
theorem Done.after {decl : Option (String × Bool)} {pos : Position} {scopes scopes' : List Scope}
    {names : List String} {done done' : List Position} (h : Done done (DefiniteInit.without decl names) scopes)
    (hadds : Adds decl pos scopes scopes') (hsub : done ⊆ done')
    (hdecl : ∀ name ∈ names, decl = some (name, true) → pos ∈ done') : Done done' names scopes' := by
  intro name hname pos' hfind
  rcases hadds name with ⟨object, hobject, hnew⟩ | ⟨hne, hold⟩
  · rw [hnew] at hfind
    cases object with
    | true =>
      cases hfind
      exact hdecl name hname hobject
    | false => cases hfind
  · exact hsub (h name (mem_without.mpr ⟨hname, hne⟩) pos' (hold ▸ hfind))

theorem apart_iff {decl : Option (String × Bool)} {names : List String} :
    apart decl names = true ↔ ∀ name ∈ names, decl ≠ some (name, true) := by
  simp only [apart, List.all_eq_true, bne_iff_ne]

/-- Names that are apart from the declared object refer to what they referred to before. -/
theorem Done.after_apart {decl : Option (String × Bool)} {pos : Position} {scopes scopes' : List Scope}
    {names : List String} {done : List Position} (h : Done done (DefiniteInit.without decl names) scopes)
    (hadds : Adds decl pos scopes scopes') (hapart : apart decl names = true) : Done done names scopes' :=
  h.after hadds (List.Subset.refl _) fun name hname hdecl ↦ absurd hdecl (apart_iff.mp hapart name hname)

/-- A new table that belongs to no lambda changes nothing. -/
@[simp] theorem findScope_block (name : String) (type : Scopes.ScopeType) (htype : type ≠ .closure) (scopes : List Scope) :
    findScope name (⟨type, []⟩ :: scopes) = findScope name scopes := by
  simp only [findScope, List.lookup_nil, htype, if_false]
  cases findScope name scopes <;> rfl

theorem lookup_paramEntries {params : List String} {name : String} {entry : Entry}
    (h : (paramEntries params).lookup name = some entry) : ∃ index, entry = .object (.param index) := by
  obtain ⟨l₁, l₂, heq, -⟩ := List.lookup_eq_some_iff.mp h
  have hmem : (name, entry) ∈ paramEntries params := by
    rw [heq]
    exact List.mem_append_right _ List.mem_cons_self
  obtain ⟨⟨name', index⟩, -, hentry⟩ := List.mem_map.mp hmem
  cases hentry
  exact ⟨index, rfl⟩

/-- Nothing but a parameter is found in the table of a function or lambda that is entered. -/
theorem done_paramEntries {params : List String} {names : List String} {type : Scopes.ScopeType} {scopes : List Scope}
    (houter : type = .closure ∨ ∀ name, ∀ pos, findScope name scopes ≠ some (0, .object (.stat pos))) :
    Done [] names (⟨type, paramEntries params⟩ :: scopes) := by
  intro name _ pos hfind
  simp only [findScope] at hfind
  split at hfind
  · next entry hlookup =>
    obtain ⟨index, rfl⟩ := lookup_paramEntries hlookup
    cases hfind
  · obtain ⟨⟨depth, entry⟩, hfound, heq⟩ := Option.map_eq_some_iff.mp hfind
    rcases houter with rfl | houter
    · cases heq
    · by_cases htype : type = .closure
      · rw [if_pos htype] at heq
        cases heq
      · rw [if_neg htype] at heq
        cases heq
        exact absurd hfound (houter name pos)

/-- What is found across a lambda is not one of its parameters. -/
theorem findScope_closure {params : List String} {name : String} {depth : ℕ} {entry : Entry} {scopes : List Scope}
    (h : findScope name (⟨.closure, paramEntries params⟩ :: scopes) = some (depth + 1, entry)) :
    name ∉ params ∧ findScope name scopes = some (depth, entry) := by
  simp only [findScope] at h
  split at h
  · cases h
  · next hlookup =>
    obtain ⟨⟨depth', entry'⟩, hfound, heq⟩ := Option.map_eq_some_iff.mp h
    cases heq
    refine ⟨fun hmem ↦ ?_, hfound⟩
    obtain ⟨index, hindex⟩ := List.mem_iff_getElem?.mp hmem
    have hentry : (name, .object (.param index)) ∈ paramEntries params :=
      List.mem_map.mpr ⟨(name, index), List.mk_mem_zipIdx_iff_getElem?.mpr hindex, rfl⟩
    simpa using List.lookup_eq_none_iff.mp hlookup _ hentry

/-! ## Soundness of the visitor -/

/-- What the visit of an expression, or of the expressions of an assignment or declaration, has established. -/
structure ExprSound (names : List String) (scopes : List Scope) (uses : List Use) (bodies : List Body) : Prop where
  resolved : Resolved names scopes uses
  bodies : ∀ nodes ∈ bodies, DefinitelyInitialised nodes

structure StatSound (names : List String) (scopes : List Scope) (pos : Position) (s : Stat (List Use))
    (bodies : List Body) : Prop where
  outer : OuterResolved names scopes (statExprs s).flatten
  inits : ∀ done, Done done names scopes → ∀ t o, Runs pos s t o → Inits done t
  bodies : ∀ nodes ∈ bodies, DefinitelyInitialised nodes

structure NodesSound (names : List String) (scopes : List Scope) (pos : Position) (i : ℕ) (nodes : Body)
    (bodies : List Body) : Prop where
  outer : OuterResolved names scopes (nodesExprs nodes).flatten
  inits : ∀ done, Done done names scopes → ∀ t o, RunsNodes pos i nodes t o → Inits done t
  bodies : ∀ nodes ∈ bodies, DefinitelyInitialised nodes

structure CasesSound (names : List String) (scopes : List Scope) (pos : Position) (i : ℕ)
    (cases : List (SwitchCase (List Use))) (bodies : List Body) : Prop where
  outer : OuterResolved names scopes (casesExprs cases).flatten
  checks : ∀ done, Done done names scopes → ∀ c ∈ cases, ∀ uses, c.expr = some uses → Covered done uses
  inits : ∀ done, Done done names scopes → ∀ before entered, cases = before ++ entered →
    ∀ t o, RunsFrom pos (i + before.length) entered t o → Inits done t
  bodies : ∀ nodes ∈ bodies, DefinitelyInitialised nodes

theorem ExprSound.append {names names' : List String} {scopes : List Scope} {uses uses' : List Use}
    {bodies bodies' : List Body} (h : ExprSound names scopes uses bodies) (h' : ExprSound names' scopes uses' bodies') :
    ExprSound (names ++ names') scopes (uses ++ uses') (bodies ++ bodies') :=
  ⟨h.resolved.append h'.resolved, fun nodes hnodes ↦ (List.mem_append.mp hnodes).elim (h.bodies nodes) (h'.bodies nodes)⟩

theorem ExprSound.nil (scopes : List Scope) : ExprSound [] scopes [] [] :=
  ⟨nofun, nofun⟩

/-- How an assignment changes the scope that it is visited in. -/
theorem visitAsgn_adds {asgn : Asgn Expr} {pos : Position} {scopes scopes' : List Scope} {asgn' : Asgn (List Use)}
    {bodies : List Body} (h : visitAsgn asgn pos scopes = .ok (asgn', bodies, scopes')) :
    asgnDeclares asgn' = asgnDeclares asgn ∧ Adds (asgnDeclares asgn) pos scopes scopes' := by
  cases asgn with
  | declAssign name expr =>
    simp only [visitAsgn, bind_eq_ok] at h
    obtain ⟨⟨uses, bodies'⟩, -, scopes'', hinsert, h⟩ := h
    cases h
    exact ⟨rfl, insert_adds true hinsert⟩
  | compAssign dst oper src | assign dst src =>
    simp only [visitAsgn, bind_eq_ok] at h
    obtain ⟨⟨uses, bodies'⟩, -, ⟨uses', bodies''⟩, -, h⟩ := h
    cases h
    exact ⟨rfl, adds_none pos scopes⟩
  | incrDecr expr incr | callAssign call =>
    simp only [visitAsgn, bind_eq_ok] at h
    obtain ⟨⟨uses, bodies'⟩, -, h⟩ := h
    cases h
    exact ⟨rfl, adds_none pos scopes⟩

theorem visitOptAsgn_adds {asgn : Option (Asgn Expr)} {pos : Position} {scopes scopes' : List Scope}
    {asgn' : Option (Asgn (List Use))} {bodies : List Body}
    (h : visitOptAsgn asgn pos scopes = .ok (asgn', bodies, scopes')) :
    optAsgnDeclares asgn' = optAsgnDeclares asgn ∧ Adds (optAsgnDeclares asgn) pos scopes scopes' := by
  cases asgn with
  | none =>
    cases h
    exact ⟨rfl, adds_none pos scopes⟩
  | some asgn =>
    simp only [visitOptAsgn, bind_eq_ok] at h
    obtain ⟨⟨asgn'', bodies', scopes''⟩, hasgn, h⟩ := h
    cases h
    exact visitAsgn_adds hasgn

theorem visitDecl_adds {decl : Decl Expr} {pos : Position} {scopes scopes' : List Scope} {decl' : Decl (List Use)}
    {bodies : List Body} (h : visitDecl decl pos scopes = .ok (decl', bodies, scopes')) :
    declDeclares decl' = declDeclares decl ∧ Adds (declDeclares decl) pos scopes scopes' := by
  cases decl with
  | var name type expr | let_ name type expr =>
    simp only [visitDecl, bind_eq_ok] at h
    obtain ⟨⟨uses, bodies'⟩, -, scopes'', hinsert, h⟩ := h
    cases h
    exact ⟨rfl, insert_adds true hinsert⟩
  | typeAlias name type strong =>
    simp only [visitDecl, bind_eq_ok] at h
    obtain ⟨scopes'', hinsert, h⟩ := h
    cases h
    exact ⟨rfl, insert_adds false hinsert⟩

theorem visit_adds {s : Stat Expr} {pos : Position} {scopes scopes' : List Scope} {s' : Stat (List Use)}
    {bodies : List Body} (h : visit s pos scopes = .ok (s', bodies, scopes')) :
    declares s' = declares s ∧ Adds (declares s) pos scopes scopes' := by
  match s with
  | .decl decl =>
    simp only [visit, bind_eq_ok] at h
    obtain ⟨⟨decl', bodies', scopes''⟩, hdecl, h⟩ := h
    cases h
    exact visitDecl_adds hdecl
  | .asgn asgn =>
    simp only [visit, bind_eq_ok] at h
    obtain ⟨⟨asgn', bodies', scopes''⟩, hasgn, h⟩ := h
    cases h
    exact visitAsgn_adds hasgn
  | .terminate | .brake | .continu =>
    cases h
    exact ⟨rfl, adds_none pos scopes⟩
  | .block nodes | .ret expr =>
    simp only [visit, bind_eq_ok] at h
    obtain ⟨⟨_, _⟩, -, h⟩ := h
    cases h
    exact ⟨rfl, adds_none pos scopes⟩
  | .fi cond body none | .swich expr cases alwaysReturns | .wile cond body =>
    simp only [visit, bind_eq_ok] at h
    obtain ⟨⟨_, _⟩, -, ⟨_, _⟩, -, h⟩ := h
    cases h
    exact ⟨rfl, adds_none pos scopes⟩
  | .fi cond body (some elseBody) =>
    simp only [visit, bind_eq_ok] at h
    obtain ⟨⟨_, _⟩, -, ⟨_, _, _⟩, -, ⟨_, _, _⟩, -, h⟩ := h
    cases h
    exact ⟨rfl, adds_none pos scopes⟩
  | .four init cond incr body =>
    simp only [visit, bind_eq_ok] at h
    obtain ⟨⟨_, _, _⟩, -, ⟨_, _⟩, -, ⟨_, _, _⟩, -, ⟨_, _, _⟩, -, h⟩ := h
    cases h
    exact ⟨rfl, adds_none pos scopes⟩

/-! ### Statements from their parts -/

theorem forall_mem_append {α : Type} {P : α → Prop} {xs ys : List α} (h : ∀ x ∈ xs, P x) (h' : ∀ y ∈ ys, P y) :
    ∀ z ∈ xs ++ ys, P z :=
  fun z hz ↦ (List.mem_append.mp hz).elim (h z) (h' z)

theorem outer_inner {names : List String} {scopes : List Scope} {type : Scopes.ScopeType} {uses : List Use}
    (htype : type ≠ .closure) (h : OuterResolved names (⟨type, []⟩ :: scopes) uses) : OuterResolved names scopes uses := by
  simpa only [OuterResolved, findScope_block _ _ htype] using h

theorem done_inner {names : List String} {scopes : List Scope} (type : Scopes.ScopeType) {done : List Position}
    (htype : type ≠ .closure) (h : Done done names scopes) : Done done names (⟨type, []⟩ :: scopes) := by
  simpa only [Done, findScope_block _ _ htype] using h

theorem StatSound.block {names : List String} {scopes : List Scope} {pos : Position} {nodes : Body} {bodies : List Body}
    (h : NodesSound names (⟨.block, []⟩ :: scopes) pos 0 nodes bodies) :
    StatSound names scopes pos (.block nodes) bodies where
  outer := outer_inner (by decide) h.outer
  inits := by
    intro done hdone t o hruns
    cases hruns with
    | stop => trivial
    | block hruns => exact h.inits done (done_inner .block (by decide) hdone) t o hruns
  bodies := h.bodies

theorem StatSound.fi {names names' : List String} {scopes : List Scope} {pos : Position} {cond : List Use}
    {body : Stat (List Use)} {bodies bodies' : List Body}
    (hcond : ExprSound names (⟨.block, []⟩ :: scopes) cond bodies)
    (hbody : StatSound names' (⟨.block, []⟩ :: scopes) (0 :: pos) body bodies') :
    StatSound (names ++ names') scopes pos (.fi cond body none) (bodies ++ bodies') where
  outer := by
    simpa only [statExprs, List.flatten_cons] using outer_inner (by decide) (hcond.resolved.outer.append hbody.outer)
  inits := by
    intro done hdone t o hruns
    obtain ⟨hdone, hdone'⟩ := done_append_iff.mp (done_inner .block (by decide) hdone)
    cases hruns with
    | stop => trivial
    | fiBody hruns => exact ⟨hcond.resolved.covered hdone, hbody.inits done hdone' _ _ hruns⟩
    | fiSkip => exact ⟨hcond.resolved.covered hdone, trivial⟩
  bodies := forall_mem_append hcond.bodies hbody.bodies

/-- The second branch is visited in the scope that the first one has left its declaration in. -/
theorem StatSound.fiElse {names names' names'' : List String} {scopes inner : List Scope} {pos : Position}
    {cond : List Use} {decl : Option (String × Bool)} {body elseBody : Stat (List Use)} {bodies bodies' bodies'' : List Body}
    (hcond : ExprSound names (⟨.block, []⟩ :: scopes) cond bodies)
    (hbody : StatSound names' (⟨.block, []⟩ :: scopes) (0 :: pos) body bodies')
    (helse : StatSound names'' inner (1 :: pos) elseBody bodies'')
    (hadds : Adds decl (0 :: pos) (⟨.block, []⟩ :: scopes) inner) (hapart : apart decl names'' = true) :
    StatSound (names ++ (names' ++ without decl names'')) scopes pos (.fi cond body (some elseBody))
      (bodies ++ (bodies' ++ bodies'')) where
  outer := by
    simpa only [statExprs, List.flatten_cons, List.flatten_append] using
      outer_inner (by decide) (hcond.resolved.outer.append (hbody.outer.append (helse.outer.without hadds)))
  inits := by
    intro done hdone t o hruns
    obtain ⟨hdone, hdone'⟩ := done_append_iff.mp (done_inner .block (by decide) hdone)
    obtain ⟨hdone', hdone''⟩ := done_append_iff.mp hdone'
    cases hruns with
    | stop => trivial
    | fiBody hruns => exact ⟨hcond.resolved.covered hdone, hbody.inits done hdone' _ _ hruns⟩
    | fiElse hruns =>
      exact ⟨hcond.resolved.covered hdone, helse.inits done (hdone''.after_apart hadds hapart) _ _ hruns⟩
  bodies := forall_mem_append hcond.bodies (forall_mem_append hbody.bodies helse.bodies)

theorem StatSound.wile {names names' : List String} {scopes : List Scope} {pos : Position} {cond : List Use}
    {body : Stat (List Use)} {bodies bodies' : List Body}
    (hcond : ExprSound names (⟨.flow, []⟩ :: scopes) cond bodies)
    (hbody : StatSound names' (⟨.flow, []⟩ :: scopes) (0 :: pos) body bodies') :
    StatSound (names ++ names') scopes pos (.wile cond body) (bodies ++ bodies') where
  outer := by
    simpa only [statExprs, List.flatten_cons] using outer_inner (by decide) (hcond.resolved.outer.append hbody.outer)
  inits := by
    intro done hdone t o hruns
    obtain ⟨hdone, hdone'⟩ := done_append_iff.mp (done_inner .flow (by decide) hdone)
    cases hruns with
    | stop => trivial
    | wile hruns =>
      refine inits_loop hruns done fun done' hsub ↦ ⟨?_, ?_, trivial⟩
      · exact hcond.resolved.covered (hdone.mono hsub)
      · exact hbody.inits done' (hdone'.mono hsub)
  bodies := forall_mem_append hcond.bodies hbody.bodies

/-- The scope that the condition is visited in has what the initialisation declares, which runs before it; that
of the body also has what the increment declares, which runs after it. -/
theorem StatSound.four {names₁ names₂ names₃ names₄ : List String} {scopes inner inner' : List Scope} {pos : Position}
    {decl decl' : Option (String × Bool)} {init incr : Option (Asgn (List Use))} {cond : List Use}
    {body : Stat (List Use)} {bodies₁ bodies₂ bodies₃ bodies₄ : List Body}
    (hinit : ExprSound names₁ (⟨.flow, []⟩ :: scopes) (optAsgnExprs init).flatten bodies₁)
    (hcond : ExprSound names₂ inner cond bodies₂) (hincr : ExprSound names₃ inner (optAsgnExprs incr).flatten bodies₃)
    (hbody : StatSound names₄ inner' (2 :: pos) body bodies₄)
    (hdecl : optAsgnDeclares init = decl) (hadds : Adds decl (0 :: pos) (⟨.flow, []⟩ :: scopes) inner)
    (hadds' : Adds decl' (1 :: pos) inner inner') (hapart : apart decl' names₄ = true) :
    StatSound (names₁ ++ without decl (names₂ ++ (names₃ ++ without decl' names₄))) scopes pos
      (.four init cond incr body) (bodies₁ ++ (bodies₂ ++ (bodies₃ ++ bodies₄))) where
  outer := by
    have hrest := hcond.resolved.outer.append (hincr.resolved.outer.append (hbody.outer.without hadds'))
    simpa only [statExprs, List.flatten_cons, List.flatten_append] using
      outer_inner (by decide) (hinit.resolved.outer.append (hrest.without hadds))
  inits := by
    intro done hdone t o hruns
    obtain ⟨hdone, hrest⟩ := done_append_iff.mp (done_inner .flow (by decide) hdone)
    cases hruns with
    | stop => trivial
    | four hruns =>
      have hrest := hrest.after hadds (subset_declared (optAsgnEvents (0 :: pos) init) done)
        fun name _ hname ↦ List.mem_append_left _ (declared_optAsgnEvents (hdecl.trans hname))
      obtain ⟨hdone₂, hrest⟩ := done_append_iff.mp hrest
      obtain ⟨hdone₃, hdone₄⟩ := done_append_iff.mp hrest
      refine (inits_optAsgnEvents (hinit.resolved.covered hdone)).append ?_
      refine inits_loop hruns _ fun done' hsub ↦ ⟨?_, ?_, ?_⟩
      · exact hcond.resolved.covered (hdone₂.mono hsub)
      · exact hbody.inits done' ((hdone₄.after_apart hadds' hapart).mono hsub)
      · exact inits_optAsgnEvents (hincr.resolved.covered (hdone₃.mono hsub))
  bodies := forall_mem_append hinit.bodies
    (forall_mem_append hcond.bodies (forall_mem_append hincr.bodies hbody.bodies))

theorem StatSound.swich {names names' : List String} {scopes : List Scope} {pos : Position} {expr : List Use}
    {cases : List (SwitchCase (List Use))} {alwaysReturns : Bool} {bodies bodies' : List Body}
    (hexpr : ExprSound names scopes expr bodies) (hcases : CasesSound names' scopes pos 0 cases bodies') :
    StatSound (names ++ names') scopes pos (.swich expr cases alwaysReturns) (bodies ++ bodies') where
  outer := by
    simpa only [statExprs, List.flatten_cons] using hexpr.resolved.outer.append hcases.outer
  inits := by
    intro done hdone t o hruns
    obtain ⟨hdone, hdone'⟩ := done_append_iff.mp hdone
    have hcheck := hexpr.resolved.covered hdone
    have hchecks := hcases.checks done hdone'
    cases hruns with
    | stop => trivial
    | swichCut hcut =>
      obtain ⟨rest, hrest⟩ := hcut
      have hall : Inits done (.eval expr :: checkEvents cases) := ⟨hcheck, inits_checkEvents hchecks⟩
      exact (inits_append_iff.mp (hrest ▸ hall)).1
    | @swichCase _ _ before value body after _ t _ hruns =>
      have hbefore : Inits done (checkEvents before) :=
        inits_checkEvents fun c hc ↦ hchecks c (List.mem_append_left _ hc)
      have hvalue : Covered done value :=
        hchecks _ (List.mem_append_right _ List.mem_cons_self) value rfl
      have hentered : Inits done t := hcases.inits done hdone' before _ rfl t o (by simpa using hruns)
      have hafter : Inits done (.eval value :: t) := ⟨hvalue, hentered⟩
      exact ⟨hcheck, hbefore.append (hafter.mono (subset_declared _ _))⟩
    | swichDefault hruns =>
      have hentered := hcases.inits done hdone' _ _ rfl _ o (by simpa using hruns)
      exact ⟨hcheck, (inits_checkEvents hchecks).append (hentered.mono (subset_declared _ _))⟩
    | swichSkip _ => exact ⟨hcheck, inits_checkEvents hchecks⟩
  bodies := forall_mem_append hexpr.bodies hcases.bodies

theorem NodesSound.cons {names names' : List String} {scopes inner : List Scope} {pos : Position} {i : ℕ}
    {decl : Option (String × Bool)} {node : Stat (List Use)} {nodes : Body} {bodies bodies' : List Body}
    (hnode : StatSound names scopes (i :: pos) node bodies) (hnodes : NodesSound names' inner pos (i + 1) nodes bodies')
    (hdecl : declares node = decl) (hadds : Adds decl (i :: pos) scopes inner) :
    NodesSound (names ++ without decl names') scopes pos i (node :: nodes) (bodies ++ bodies') where
  outer := by
    simpa only [nodesExprs, List.flatten_append] using hnode.outer.append (hnodes.outer.without hadds)
  inits := by
    intro done hdone t o hruns
    obtain ⟨hdone, hdone'⟩ := done_append_iff.mp hdone
    cases hruns with
    | leave hruns _ => exact hnode.inits done hdone _ _ hruns
    | @next _ _ _ _ t _ _ hruns hrest =>
      have hafter := hdone'.after hadds (subset_declared t done)
        fun name _ hname ↦ List.mem_append_left _ (declared_of_falls (hdecl.trans hname) hruns)
      exact (hnode.inits done hdone _ _ hruns).append (hnodes.inits _ hafter _ _ hrest)
  bodies := forall_mem_append hnode.bodies hnodes.bodies

theorem CasesSound.cons {names names' names'' : List String} {scopes : List Scope} {pos : Position} {i : ℕ}
    {expr : Option (List Use)} {body : Stat (List Use)} {cases : List (SwitchCase (List Use))}
    {bodies bodies' bodies'' : List Body} (hexpr : ExprSound names scopes expr.toList.flatten bodies)
    (hbody : StatSound names' (⟨.flow, []⟩ :: scopes) (i :: pos) body bodies')
    (hcases : CasesSound names'' scopes pos (i + 1) cases bodies'') :
    CasesSound (names ++ (names' ++ names'')) scopes pos i (.mk expr body :: cases) (bodies ++ (bodies' ++ bodies'')) where
  outer := by
    simpa only [casesExprs, List.flatten_append] using
      hexpr.resolved.outer.append ((outer_inner (by decide) hbody.outer).append hcases.outer)
  checks := by
    intro done hdone c hc uses huses
    obtain ⟨hdone, hdone'⟩ := done_append_iff.mp hdone
    rcases List.mem_cons.mp hc with rfl | hc
    · obtain rfl : expr = some uses := huses
      simpa using hexpr.resolved.covered hdone
    · exact hcases.checks done (done_append_iff.mp hdone').2 c hc uses huses
  inits := by
    intro done hdone before entered heq t o hruns
    obtain ⟨-, hdone'⟩ := done_append_iff.mp hdone
    obtain ⟨hdone', hdone''⟩ := done_append_iff.mp hdone'
    match before, heq with
    | [], heq =>
      obtain rfl : SwitchCase.mk expr body :: cases = entered := heq
      cases hruns with
      | leave hruns _ => exact hbody.inits done (done_inner .flow (by decide) hdone') _ _ hruns
      | next hruns hrest =>
        refine (hbody.inits done (done_inner .flow (by decide) hdone') _ _ hruns).append ?_
        exact (hcases.inits done hdone'' [] cases rfl _ _ hrest).mono (subset_declared _ _)
    | _ :: before, heq =>
      cases heq
      refine hcases.inits done hdone'' before entered rfl t o ?_
      simpa only [List.length_cons, Nat.add_assoc, Nat.add_comm 1] using hruns
  bodies := forall_mem_append hexpr.bodies (forall_mem_append hbody.bodies hcases.bodies)

/-- A body with its own parameters: from its names outside of it to those that the lambda captures. -/
theorem NodesSound.initialised {names : List String} {scopes : List Scope} {nodes : Body} {bodies : List Body}
    (h : NodesSound names scopes [] 0 nodes bodies) (hdone : Done [] names scopes) :
    ∀ nodes' ∈ nodes :: bodies, DefinitelyInitialised nodes' := by
  intro nodes' hnodes'
  rcases List.mem_cons.mp hnodes' with rfl | hnodes'
  · exact definitelyInitialised_of_inits (h.inits [] hdone)
  · exact h.bodies nodes' hnodes'

theorem resolved_captures {names params : List String} {scopes : List Scope} {nodes : Body}
    (h : OuterResolved names (⟨.closure, paramEntries params⟩ :: scopes) (nodesExprs nodes).flatten) :
    Resolved (names.filter fun name ↦ !params.contains name) scopes (captures nodes) := by
  intro use huse
  obtain ⟨⟨depth, site⟩, hmem, heq⟩ := List.mem_filterMap.mp huse
  cases depth with
  | zero => cases heq
  | succ depth =>
    cases heq
    obtain ⟨name, hname, hfind⟩ := h depth site hmem
    obtain ⟨hparams, hfind⟩ := findScope_closure hfind
    exact ⟨name, List.mem_filter.mpr ⟨hname, by simpa using hparams⟩, hfind⟩

mutual

theorem visitExpr_sound : (e : Expr) → (scopes : List Scope) → {uses : List Use} → {bodies : List Body} →
    visitExpr e scopes = .ok (uses, bodies) → cleanExpr e = true → ExprSound (freeExpr e) scopes uses bodies
  | .ident name, scopes, uses, bodies, h, _ => by
    simp only [visitExpr, bind_eq_ok] at h
    obtain ⟨uses', hlookup, h⟩ := h
    cases h
    refine ⟨fun use huse ↦ ⟨name, List.mem_singleton_self name, ?_⟩, nofun⟩
    unfold lookupIdent at hlookup
    split at hlookup
    · cases hlookup
    · next hfind =>
      cases hlookup
      cases List.mem_singleton.mp huse
      exact hfind
    · cases hlookup
      cases huse
  | .node exprs, scopes, uses, bodies, h, hclean => visitExprs_sound exprs scopes h hclean
  | .lambda params body, scopes, uses, bodies, h, hclean => by
    simp only [visitExpr, bind_eq_ok] at h
    obtain ⟨⟨nodes, bodies'⟩, hnodes, h⟩ := h
    cases h
    have hsound := visitNodes_sound body [] 0 _ hnodes hclean
    exact ⟨resolved_captures hsound.outer, hsound.initialised (done_paramEntries (.inl rfl))⟩

theorem visitExprs_sound : (exprs : List Expr) → (scopes : List Scope) → {uses : List Use} → {bodies : List Body} →
    visitExprs exprs scopes = .ok (uses, bodies) → cleanExprs exprs = true →
      ExprSound (freeExprs exprs) scopes uses bodies
  | [], scopes, uses, bodies, h, _ => by
    cases h
    exact .nil scopes
  | expr :: exprs, scopes, uses, bodies, h, hclean => by
    simp only [visitExprs, bind_eq_ok] at h
    obtain ⟨⟨uses', bodies'⟩, hexpr, ⟨uses'', bodies''⟩, hexprs, h⟩ := h
    cases h
    obtain ⟨hclean, hclean'⟩ := Bool.and_eq_true_iff.mp hclean
    exact (visitExpr_sound expr scopes hexpr hclean).append (visitExprs_sound exprs scopes hexprs hclean')

theorem visitOptExpr_sound : (expr : Option Expr) → (scopes : List Scope) → {uses : Option (List Use)} →
    {bodies : List Body} → visitOptExpr expr scopes = .ok (uses, bodies) → cleanOptExpr expr = true →
      ExprSound (freeOptExpr expr) scopes uses.toList.flatten bodies
  | none, scopes, uses, bodies, h, _ => by
    cases h
    exact .nil scopes
  | some expr, scopes, uses, bodies, h, hclean => by
    simp only [visitOptExpr, bind_eq_ok] at h
    obtain ⟨⟨uses', bodies'⟩, hexpr, h⟩ := h
    cases h
    simpa [freeOptExpr] using visitExpr_sound expr scopes hexpr hclean

theorem visitAsgn_sound : (asgn : Asgn Expr) → (pos : Position) → (scopes : List Scope) → {asgn' : Asgn (List Use)} →
    {bodies : List Body} → {scopes' : List Scope} → visitAsgn asgn pos scopes = .ok (asgn', bodies, scopes') →
      cleanAsgn asgn = true → ExprSound (freeAsgn asgn) scopes (asgnExprs asgn').flatten bodies
  | .compAssign dst oper src, pos, scopes, asgn', bodies, scopes', h, hclean => by
    simp only [visitAsgn, bind_eq_ok] at h
    obtain ⟨⟨dst', bodies'⟩, hdst, ⟨src', bodies''⟩, hsrc, h⟩ := h
    cases h
    obtain ⟨hclean, hclean'⟩ := Bool.and_eq_true_iff.mp hclean
    simpa [asgnExprs, freeAsgn] using (visitExpr_sound dst scopes hdst hclean).append (visitExpr_sound src scopes hsrc hclean')
  | .assign dst src, pos, scopes, asgn', bodies, scopes', h, hclean => by
    simp only [visitAsgn, bind_eq_ok] at h
    obtain ⟨⟨dst', bodies'⟩, hdst, ⟨src', bodies''⟩, hsrc, h⟩ := h
    cases h
    obtain ⟨hclean, hclean'⟩ := Bool.and_eq_true_iff.mp hclean
    simpa [asgnExprs, freeAsgn] using (visitExpr_sound dst scopes hdst hclean).append (visitExpr_sound src scopes hsrc hclean')
  | .incrDecr expr incr, pos, scopes, asgn', bodies, scopes', h, hclean => by
    simp only [visitAsgn, bind_eq_ok] at h
    obtain ⟨⟨expr', bodies'⟩, hexpr, h⟩ := h
    cases h
    simpa [asgnExprs, freeAsgn] using visitExpr_sound expr scopes hexpr hclean
  | .declAssign name expr, pos, scopes, asgn', bodies, scopes', h, hclean => by
    simp only [visitAsgn, bind_eq_ok] at h
    obtain ⟨⟨expr', bodies'⟩, hexpr, scopes'', -, h⟩ := h
    cases h
    simpa [asgnExprs, freeAsgn] using visitExpr_sound expr scopes hexpr hclean
  | .callAssign call, pos, scopes, asgn', bodies, scopes', h, hclean => by
    simp only [visitAsgn, bind_eq_ok] at h
    obtain ⟨⟨call', bodies'⟩, hcall, h⟩ := h
    cases h
    simpa [asgnExprs, freeAsgn] using visitExpr_sound call scopes hcall hclean

theorem visitOptAsgn_sound : (asgn : Option (Asgn Expr)) → (pos : Position) → (scopes : List Scope) →
    {asgn' : Option (Asgn (List Use))} → {bodies : List Body} → {scopes' : List Scope} →
      visitOptAsgn asgn pos scopes = .ok (asgn', bodies, scopes') → cleanOptAsgn asgn = true →
        ExprSound (freeOptAsgn asgn) scopes (optAsgnExprs asgn').flatten bodies
  | none, pos, scopes, asgn', bodies, scopes', h, _ => by
    cases h
    exact .nil scopes
  | some asgn, pos, scopes, asgn', bodies, scopes', h, hclean => by
    simp only [visitOptAsgn, bind_eq_ok] at h
    obtain ⟨⟨asgn'', bodies', scopes''⟩, hasgn, h⟩ := h
    cases h
    exact visitAsgn_sound asgn pos scopes hasgn hclean

theorem visitDecl_sound : (decl : Decl Expr) → (pos : Position) → (scopes : List Scope) → {decl' : Decl (List Use)} →
    {bodies : List Body} → {scopes' : List Scope} → visitDecl decl pos scopes = .ok (decl', bodies, scopes') →
      cleanDecl decl = true → ExprSound (freeDecl decl) scopes (declExprs decl').flatten bodies
  | .var name type expr, pos, scopes, decl', bodies, scopes', h, hclean => by
    simp only [visitDecl, bind_eq_ok] at h
    obtain ⟨⟨expr', bodies'⟩, hexpr, scopes'', -, h⟩ := h
    cases h
    have hsound := visitOptExpr_sound expr scopes hexpr hclean
    cases expr' <;> simpa [declExprs, freeDecl] using hsound
  | .let_ name type expr, pos, scopes, decl', bodies, scopes', h, hclean => by
    simp only [visitDecl, bind_eq_ok] at h
    obtain ⟨⟨expr', bodies'⟩, hexpr, scopes'', -, h⟩ := h
    cases h
    simpa [declExprs, freeDecl] using visitExpr_sound expr scopes hexpr hclean
  | .typeAlias name type strong, pos, scopes, decl', bodies, scopes', h, _ => by
    simp only [visitDecl, bind_eq_ok] at h
    obtain ⟨scopes'', -, h⟩ := h
    cases h
    exact .nil scopes

theorem visit_sound : (s : Stat Expr) → (pos : Position) → (scopes : List Scope) → {s' : Stat (List Use)} →
    {bodies : List Body} → {scopes' : List Scope} → visit s pos scopes = .ok (s', bodies, scopes') →
      clean s = true → StatSound (freeStat s) scopes pos s' bodies
  | .block nodes, pos, scopes, s', bodies, scopes', h, hclean => by
    simp only [visit, bind_eq_ok] at h
    obtain ⟨⟨nodes', bodies'⟩, hnodes, h⟩ := h
    cases h
    exact .block (visitNodes_sound nodes pos 0 _ hnodes hclean)
  | .fi cond body none, pos, scopes, s', bodies, scopes', h, hclean => by
    simp only [visit, bind_eq_ok] at h
    obtain ⟨⟨cond', bodies₁⟩, hcond, ⟨body', bodies₂, inner⟩, hbody, h⟩ := h
    cases h
    obtain ⟨hclean, hclean'⟩ := Bool.and_eq_true_iff.mp hclean
    exact .fi (visitExpr_sound cond _ hcond hclean) (visit_sound body _ _ hbody hclean')
  | .fi cond body (some elseBody), pos, scopes, s', bodies, scopes', h, hclean => by
    simp only [visit, bind_eq_ok] at h
    obtain ⟨⟨cond', bodies₁⟩, hcond, ⟨body', bodies₂, inner⟩, hbody, ⟨elseBody', bodies₃, inner'⟩, helse, h⟩ := h
    cases h
    simp only [clean, Bool.and_eq_true] at hclean
    obtain ⟨hclean₁, hclean₂, hclean₃, hapart⟩ := hclean
    exact .fiElse (visitExpr_sound cond _ hcond hclean₁) (visit_sound body _ _ hbody hclean₂)
      (visit_sound elseBody _ _ helse hclean₃) (visit_adds hbody).2 hapart
  | .swich expr cases alwaysReturns, pos, scopes, s', bodies, scopes', h, hclean => by
    simp only [visit, bind_eq_ok] at h
    obtain ⟨⟨expr', bodies₁⟩, hexpr, ⟨cases', bodies₂⟩, hcases, h⟩ := h
    cases h
    obtain ⟨hclean, hclean'⟩ := Bool.and_eq_true_iff.mp hclean
    exact .swich (visitExpr_sound expr _ hexpr hclean) (visitCases_sound cases pos 0 _ hcases hclean')
  | .terminate, pos, scopes, s', bodies, scopes', h, _ | .brake, pos, scopes, s', bodies, scopes', h, _
  | .continu, pos, scopes, s', bodies, scopes', h, _ => by
    cases h
    refine ⟨nofun, fun done hdone t o hruns ↦ ?_, nofun⟩
    cases hruns <;> trivial
  | .ret expr, pos, scopes, s', bodies, scopes', h, hclean => by
    simp only [visit, bind_eq_ok] at h
    obtain ⟨⟨expr', bodies₁⟩, hexpr, h⟩ := h
    cases h
    have hsound := visitOptExpr_sound expr scopes hexpr hclean
    refine ⟨hsound.resolved.outer, fun done hdone t o hruns ↦ ?_, hsound.bodies⟩
    have hcovered := hsound.resolved.covered hdone
    cases hruns with
    | stop => trivial
    | ret => cases expr' <;> simp_all [optEvents, Inits]
  | .wile cond body, pos, scopes, s', bodies, scopes', h, hclean => by
    simp only [visit, bind_eq_ok] at h
    obtain ⟨⟨cond', bodies₁⟩, hcond, ⟨body', bodies₂, inner⟩, hbody, h⟩ := h
    cases h
    obtain ⟨hclean, hclean'⟩ := Bool.and_eq_true_iff.mp hclean
    exact .wile (visitExpr_sound cond _ hcond hclean) (visit_sound body _ _ hbody hclean')
  | .four init cond incr body, pos, scopes, s', bodies, scopes', h, hclean => by
    simp only [visit, bind_eq_ok] at h
    obtain ⟨⟨init', bodies₁, inner⟩, hinit, ⟨cond', bodies₂⟩, hcond, ⟨incr', bodies₃, inner'⟩, hincr,
      ⟨body', bodies₄, inner''⟩, hbody, h⟩ := h
    cases h
    simp only [clean, Bool.and_eq_true] at hclean
    obtain ⟨hclean₁, hclean₂, hclean₃, hclean₄, hapart⟩ := hclean
    obtain ⟨hdecl, hadds⟩ := visitOptAsgn_adds hinit
    exact .four (visitOptAsgn_sound init _ _ hinit hclean₁) (visitExpr_sound cond _ hcond hclean₂)
      (visitOptAsgn_sound incr _ _ hincr hclean₃) (visit_sound body _ _ hbody hclean₄) hdecl hadds
      (visitOptAsgn_adds hincr).2 hapart
  | .decl decl, pos, scopes, s', bodies, scopes', h, hclean => by
    simp only [visit, bind_eq_ok] at h
    obtain ⟨⟨decl', bodies₁, scopes₁⟩, hdecl, h⟩ := h
    cases h
    have hsound := visitDecl_sound decl pos scopes hdecl hclean
    refine ⟨hsound.resolved.outer, fun done hdone t o hruns ↦ ?_, hsound.bodies⟩
    cases hruns with
    | stop => trivial
    | decl => exact inits_declEvents (hsound.resolved.covered hdone)
  | .asgn asgn, pos, scopes, s', bodies, scopes', h, hclean => by
    simp only [visit, bind_eq_ok] at h
    obtain ⟨⟨asgn', bodies₁, scopes₁⟩, hasgn, h⟩ := h
    cases h
    have hsound := visitAsgn_sound asgn pos scopes hasgn hclean
    refine ⟨hsound.resolved.outer, fun done hdone t o hruns ↦ ?_, hsound.bodies⟩
    cases hruns with
    | stop => trivial
    | asgn => exact inits_asgnEvents (hsound.resolved.covered hdone)

theorem visitNodes_sound : (nodes : List (Stat Expr)) → (pos : Position) → (i : ℕ) → (scopes : List Scope) →
    {nodes' : Body} → {bodies : List Body} → visitNodes nodes pos i scopes = .ok (nodes', bodies) →
      cleanNodes nodes = true → NodesSound (freeNodes nodes) scopes pos i nodes' bodies
  | [], pos, i, scopes, nodes', bodies, h, _ => by
    cases h
    refine ⟨nofun, fun done hdone t o hruns ↦ ?_, nofun⟩
    cases hruns
    trivial
  | node :: nodes, pos, i, scopes, nodes', bodies, h, hclean => by
    simp only [visitNodes, bind_eq_ok] at h
    obtain ⟨⟨node', bodies₁, inner⟩, hnode, ⟨nodes'', bodies₂⟩, hnodes, h⟩ := h
    cases h
    obtain ⟨hclean, hclean'⟩ := Bool.and_eq_true_iff.mp hclean
    obtain ⟨hdecl, hadds⟩ := visit_adds hnode
    exact .cons (visit_sound node _ _ hnode hclean) (visitNodes_sound nodes _ _ _ hnodes hclean') hdecl hadds

theorem visitCases_sound : (cases : List (SwitchCase Expr)) → (pos : Position) → (i : ℕ) → (scopes : List Scope) →
    {cases' : List (SwitchCase (List Use))} → {bodies : List Body} →
      visitCases cases pos i scopes = .ok (cases', bodies) → cleanCases cases = true →
        CasesSound (freeCases cases) scopes pos i cases' bodies
  | [], pos, i, scopes, cases', bodies, h, _ => by
    cases h
    refine ⟨nofun, nofun, fun done hdone before entered heq t o hruns ↦ ?_, nofun⟩
    obtain ⟨rfl, rfl⟩ := List.append_eq_nil_iff.mp heq.symm
    cases hruns
  | .mk expr body :: cases, pos, i, scopes, cases', bodies, h, hclean => by
    simp only [visitCases, bind_eq_ok] at h
    obtain ⟨⟨expr', bodies₁⟩, hexpr, ⟨body', bodies₂, inner⟩, hbody, ⟨cases'', bodies₃⟩, hcases, h⟩ := h
    cases h
    simp only [cleanCases, Bool.and_eq_true] at hclean
    obtain ⟨hclean₁, hclean₂, hclean₃⟩ := hclean
    exact .cons (visitOptExpr_sound expr scopes hexpr hclean₁) (visit_sound body _ _ hbody hclean₂)
      (visitCases_sound cases pos (i + 1) scopes hcases hclean₃)

end

/-! ## Whole bodies -/

theorem findScope_globals {globals : List String} {name : String} {pos : Position} :
    findScope name [⟨.ns, globals.map fun name ↦ (name, Entry.other)⟩] ≠ some (0, .object (.stat pos)) := by
  intro h
  simp only [findScope] at h
  split at h
  · next entry hlookup =>
    obtain ⟨l₁, l₂, heq, -⟩ := List.lookup_eq_some_iff.mp hlookup
    have hmem : (name, entry) ∈ globals.map fun name ↦ (name, Entry.other) := by
      rw [heq]
      exact List.mem_append_right _ List.mem_cons_self
    obtain ⟨_, -, hentry⟩ := List.mem_map.mp hmem
    cases hentry
    cases h
  · cases h

/-- The function and every lambda in it. -/
def AllInitialised (bodies : List Body) : Prop :=
  ∀ nodes ∈ bodies, DefinitelyInitialised nodes

/-- In an accepted body without such crossing names, and in every lambda in it, each use of a local comes after
the declaration of the local, on every path. -/
theorem visitFunc_allInitialised (globals params : List String) (body : List (Stat Expr)) {bodies : List Body}
    (h : visitFunc globals params body = .ok bodies) (hclean : cleanNodes body = true) : AllInitialised bodies := by
  simp only [visitFunc, bind_eq_ok] at h
  obtain ⟨⟨nodes, bodies'⟩, hnodes, h⟩ := h
  cases h
  have hsound := visitNodes_sound body [] 0 _ hnodes hclean
  exact hsound.initialised (done_paramEntries (.inr fun name pos ↦ findScope_globals))

/-- `x := c; while (c) { y := x; h := func() { y++; }; } for (i := x; c; i++) g(i);` -/
def declaredFirst : List (Stat Expr) :=
  [.asgn (.declAssign "x" (.ident "c")),
    .wile (.ident "c") (.block [.asgn (.declAssign "y" (.ident "x")),
      .asgn (.declAssign "h" (.lambda [] [.asgn (.incrDecr (.ident "y") true)]))]),
    .four (some (.declAssign "i" (.ident "x"))) (.ident "c") (some (.incrDecr (.ident "i") true))
      (.asgn (.callAssign (.node [.ident "g", .ident "i"])))]

/-- `visitFunc_allInitialised` where the second body is that of a lambda, which captures a local. -/
theorem visitFunc_allInitialised_declaredFirst : AllInitialised
    [[.asgn (.declAssign "x" [(0, .param 0)]),
      .wile [(0, .param 0)] (.block [.asgn (.declAssign "y" [(0, .stat [0])]),
        .asgn (.declAssign "h" [(0, .stat [0, 0, 1])])]),
      .four (some (.declAssign "i" [(0, .stat [0])])) [(0, .param 0)] (some (.incrDecr [(0, .stat [0, 2])] true))
        (.asgn (.callAssign [(0, .stat [0, 2])]))],
     [.asgn (.incrDecr [(1, .stat [0, 0, 1])] true)]] :=
  visitFunc_allInitialised ["g"] ["c"] declaredFirst rfl (by decide)

/-- `if (c) x := 1; else g(x);` -/
def declaredInOtherBranch : List (Stat Expr) :=
  [.fi (.ident "c") (.asgn (.declAssign "x" (.node [])))
    (some (.asgn (.callAssign (.node [.ident "g", .ident "x"]))))]

/-- The use in the second branch is one of the variable that only the first branch declares. -/
theorem declaredInOtherBranch_uninitialised :
    ∃ bodies, visitFunc ["g"] ["c"] declaredInOtherBranch = .ok bodies ∧ ¬AllInitialised bodies := by
  let body : Body := [.fi [(0, .param 0)] (.asgn (.declAssign "x" [])) (some (.asgn (.callAssign [(0, .stat [0, 0])])))]
  refine ⟨[body], rfl, fun h ↦ ?_⟩
  have hruns : RunsNodes [] 0 body [.eval [(0, .param 0)], .eval [(0, .stat [0, 0])]] (some .falls) :=
    .next (.fiElse .asgn) .nil
  have hdeclared := h body List.mem_cons_self _ _ hruns [.eval [(0, .param 0)]] _ [] rfl [0, 0] List.mem_cons_self
  cases hdeclared

/-- `for (; c; x := 1) g(x);` -/
def declaredInIncrement : List (Stat Expr) :=
  [.four none (.ident "c") (some (.declAssign "x" (.node [])))
    (.asgn (.callAssign (.node [.ident "g", .ident "x"])))]

/-- The use in the body is one of the variable that the increment declares after it. -/
theorem declaredInIncrement_uninitialised :
    ∃ bodies, visitFunc ["g"] ["c"] declaredInIncrement = .ok bodies ∧ ¬AllInitialised bodies := by
  let body : Body := [.four none [(0, .param 0)] (some (.declAssign "x" [])) (.asgn (.callAssign [(0, .stat [1, 0])]))]
  refine ⟨[body], rfl, fun h ↦ ?_⟩
  have hruns : RunsNodes [] 0 body
      [.eval [(0, .param 0)], .eval [(0, .stat [1, 0])], .eval [], .declare [1, 0]] none :=
    .leave (.four (.next .asgn rfl .cut)) nofun
  have hdeclared := h body List.mem_cons_self _ _ hruns [.eval [(0, .param 0)]] _ _ rfl [1, 0] List.mem_cons_self
  cases hdeclared

end Stela.Semantic.DefiniteInit
