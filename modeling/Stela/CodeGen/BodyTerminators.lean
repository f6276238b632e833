import Stela.CodeGen.StatTerminators
import Stela.CodeGen.Temporaries
import Stela.Semantic.Traverse

/-!
# Which bodies have well-formed blocks

The tests on the code of statements, on the statements themselves.
-/

namespace Stela.CodeGen.BodyTerminators

open Stela.Syntax Stela.Library
open Blocks (linked)

/-! ## Tests on statements -/

def declFills : Decl AExpr → Bool
  | .var _ type none => hasDtor (type.getD (.btn .void))
  | .var _ type (some expr) | .let_ _ type expr => hasDtor (type.getD expr.exprType)
  | .typeAlias _ _ _ => false

def asgnFills : Asgn AExpr → Bool
  | .declAssign _ expr => hasDtor expr.exprType
  | .assign _ _ | .callAssign _ | .compAssign _ _ _ | .incrDecr _ _ => false

/-- The statement registers an object with a destructor in the innermost scope. A branch that is not a block, or
the value of a return statement, has no scope of its own. -/
def fills : Stat AExpr → Bool
  | .fi _ body none => fills body
  | .fi _ body (some elseBody) => fills body || fills elseBody
  | .ret (some expr) => leaves expr
  | .decl decl => declFills decl
  | .asgn asgn => asgnFills asgn
  | .block _ | .swich _ _ _ | .terminate | .brake | .continu | .ret none | .wile _ _ | .four _ _ _ _ => false

mutual

/-- Control does not get past the statement, as far as the blocks tell. -/
def closes : Stat AExpr → Bool
  | .block nodes => closesNodes nodes
  | .fi _ body (some elseBody) => closes body && closes elseBody
  | .swich _ cases alwaysReturns => !cases.isEmpty && alwaysReturns
  | .brake | .continu | .ret _ => true
  | .fi _ _ none | .terminate | .wile _ _ | .four _ _ _ _ | .decl _ | .asgn _ => false

def closesNodes : List (Stat AExpr) → Bool
  | [] => false
  | node :: nodes => closes node || closesNodes nodes

end

def declTouches : Decl AExpr → Bool
  | .var _ _ _ | .let_ _ _ _ => true
  | .typeAlias _ _ _ => false

def asgnTouches : Asgn AExpr → Bool
  | .assign _ _ | .declAssign _ _ => true
  | .callAssign call => !silent call
  | .compAssign _ _ _ | .incrDecr _ _ => false

mutual

/-- The statement has instructions, given whether the innermost scope holds an object with a destructor. -/
def touches : Stat AExpr → Bool → Bool
  | .block nodes, _ => touchesNodes nodes false
  | .terminate, filled => filled
  | .decl decl, _ => declTouches decl
  | .asgn asgn, _ => asgnTouches asgn
  | .fi _ _ _, _ | .swich _ _ _, _ | .brake, _ | .continu, _ | .ret _, _ | .wile _ _, _ | .four _ _ _ _, _ => true

def touchesNodes : List (Stat AExpr) → Bool → Bool
  | [], _ => false
  | node :: nodes, filled => touches node filled || touchesNodes nodes (filled || fills node)

end

def declLinked : Decl AExpr → Bool
  | .var _ _ (some expr) | .let_ _ _ expr => linked expr
  | .var _ _ none | .typeAlias _ _ _ => true

def asgnLinked : Asgn AExpr → Bool
  | .assign dst src => linked dst && linked src
  | .declAssign _ expr | .callAssign expr => linked expr
  | .compAssign _ _ _ | .incrDecr _ _ => true

def casesLinked : List (SwitchCase AExpr) → Bool
  | [] => true
  | .mk none _ :: cases => casesLinked cases
  | .mk (some expr) _ :: cases => linked expr && casesLinked cases

mutual

/-- The statement has well-formed blocks where control gets to it, given whether the innermost scope holds an object
with a destructor and whether there is something to break out of and to continue with. -/
def fits : Stat AExpr → Bool → Bool → Bool → Bool
  | .block nodes, _, breaks, continues => fitsNodes nodes false breaks continues false
  | .fi cond body none, filled, breaks, continues => linked cond && fits body filled breaks continues
  | .fi cond body (some elseBody), filled, breaks, continues =>
      linked cond && (fits body filled breaks continues && fits elseBody (filled || fills body) breaks continues)
  | .swich expr cases _, _, _, _ => linked expr && (casesLinked cases && fitsCases cases)
  | .terminate, _, _, _ => true
  | .brake, _, breaks, _ => breaks
  | .continu, _, _, continues => continues
  | .ret expr, _, _, _ => expr.all linked
  | .wile cond body, _, _, _ => fits body false true true && linked cond
  | .four init cond incr body, _, _, _ =>
      init.all asgnLinked && (fits body false true true && (linked cond && incr.all asgnLinked))
  | .decl decl, _, _, _ => declLinked decl
  | .asgn asgn, _, _, _ => asgnLinked asgn

/-- The statements have well-formed blocks; none of them has instructions after one that control does not get
past. -/
def fitsNodes : List (Stat AExpr) → Bool → Bool → Bool → Bool → Bool
  | [], _, _, _, _ => true
  | node :: nodes, filled, breaks, continues, closed =>
      (if closed then !touches node filled else fits node filled breaks continues) &&
        fitsNodes nodes (filled || fills node) breaks continues (closed || closes node)

/-- The last case has no case to continue to. -/
def fitsCases : List (SwitchCase AExpr) → Bool
  | [] => true
  | .mk _ body :: cases => fits body false true (!cases.isEmpty) && fitsCases cases

end

/-- The body has well-formed blocks. -/
def wellTerminated (body : List (Stat AExpr)) : Bool :=
  fitsNodes body false false false false && closesNodes body

mutual

/-- A switch has at most one default case. -/
def oneDefault : Stat AExpr → Bool
  | .block nodes => oneDefaultNodes nodes
  | .fi _ body none => oneDefault body
  | .fi _ body (some elseBody) => oneDefault body && oneDefault elseBody
  | .swich _ cases _ => cases.countP (fun c ↦ c.expr.isNone) ≤ 1 && oneDefaultCases cases
  | .wile _ body | .four _ _ _ body => oneDefault body
  | .terminate | .brake | .continu | .ret _ | .decl _ | .asgn _ => true

def oneDefaultNodes : List (Stat AExpr) → Bool
  | [] => true
  | node :: nodes => oneDefault node && oneDefaultNodes nodes

def oneDefaultCases : List (SwitchCase AExpr) → Bool
  | [] => true
  | .mk _ body :: cases => oneDefault body && oneDefaultCases cases

end

/-! ## The scopes of the visitor -/

open GenerateStat

/-- The innermost scope, which holds an object with a destructor or none, and the others. -/
def Scope (filled : Bool) (outer : List (List Object)) (s : State) : Prop :=
  ∃ objs, s.scopes = objs :: outer ∧ destroys objs = filled

section Steps

variable {filled : Bool} {outer : List (List Object)} {α : Type}

theorem triple_scope {g : Gen α} {Q : α → State → Prop}
    (h : ∀ objs, destroys objs = filled → Triple (fun s ↦ s.scopes = objs :: outer) g Q) : Triple (Scope filled outer) g Q :=
  fun _ ⟨objs, hscopes, hfilled⟩ ↦ h objs hfilled _ hscopes

theorem triple_alloc : Triple (Scope filled outer) alloc fun _ ↦ Scope filled outer :=
  fun _ hs ↦ hs

theorem triple_enterScope (scopes : List (List Object)) :
    Triple (fun s ↦ s.scopes = scopes) enterScope fun _ ↦ Scope false scopes :=
  fun _ hs ↦ ⟨[], congrArg ([] :: ·) hs, rfl⟩

theorem triple_leaveScope {objs : List Object} (hobjs : destroys objs = filled) {f : Bool} :
    Triple (Scope f (objs :: outer)) leaveScope fun _ ↦ Scope filled outer :=
  fun _ ⟨_, hscopes, _⟩ ↦ ⟨objs, congrArg List.tail hscopes, hobjs⟩

theorem triple_someScope {g : Gen α} {Q : α → State → Prop} (h : ∀ filled, Triple (Scope filled outer) g Q) :
    Triple (fun s ↦ ∃ filled, Scope filled outer s) g Q :=
  fun s ⟨filled, hs⟩ ↦ h filled s hs

theorem triple_leaveSome {objs : List Object} (hobjs : destroys objs = filled) :
    Triple (fun s ↦ ∃ f, Scope f (objs :: outer) s) leaveScope fun _ ↦ Scope filled outer :=
  triple_someScope fun _ ↦ triple_leaveScope hobjs

theorem triple_pushObj (obj : Object) :
    Triple (Scope filled outer) (pushObj obj) fun _ ↦ Scope (filled || hasDtor obj.type) outer := by
  rintro s ⟨objs, hscopes, hfilled⟩
  refine ⟨objs ++ [obj], ?_, ?_⟩
  · change (s.scopes.headD [] ++ [obj]) :: s.scopes.tail = _
    rw [hscopes]
    rfl
  · rw [destroys_append, hfilled]
    simp [destroys]

/-- Reading the objects to destroy. -/
theorem triple_destroy {P : State → Prop} (index : ℕ) : Triple P (destroy index) fun _ ↦ P :=
  Triple.get_bind fun _ hs ↦ Triple.pure _ fun _ heq ↦ heq ▸ hs

theorem triple_destroyUnless {P : State → Prop} (alwaysReturns : Bool) (index : ℕ) :
    Triple P (destroyUnless alwaysReturns index) fun _ ↦ P :=
  Triple.ite (fun _ ↦ Triple.pure _ fun _ ↦ id) fun _ ↦ triple_destroy index

theorem triple_genExpr (movable : ℕ → Bool) (use : Use) (expr : AExpr) {P : Code → Prop}
    (h : Yields (use.generate movable expr) P) :
    Triple (Scope filled outer) (genExpr movable use expr) fun code s ↦ P code ∧ Scope (filled || leaves expr) outer s := by
  rintro s ⟨objs, hscopes, hfilled⟩
  refine ⟨h _, ((use.generate movable expr).run ⟨s.next, s.scopes.headD []⟩).2.temps, ?_, ?_⟩
  · change _ :: s.scopes.tail = _
    rw [hscopes]
    rfl
  · rw [generate_leaves movable use expr, hscopes, List.headD_cons, hfilled]

theorem run_genFull (movable : ℕ → Bool) (use : Use) (expr : AExpr) (s : State) : (genFull movable use expr).run s =
    (⟨((use.generate movable expr).run ⟨s.next, []⟩).1, ((use.generate movable expr).run ⟨s.next, []⟩).2.temps.reverse⟩,
      ⟨((use.generate movable expr).run ⟨s.next, []⟩).2.next, s.scopes⟩) := by
  have htake (objs : List Object) : ((objs :: s.scopes).take ((objs :: s.scopes).length - s.scopes.length)).flatMap
      List.reverse = objs.reverse := by
    simp
  change (FullCode.mk _ _, _) = _
  rw [← htake]
  rfl

/-- An expression in a scope of its own. -/
theorem triple_genFull (movable : ℕ → Bool) (use : Use) (expr : AExpr) {P : Code → Prop}
    (h : Yields (use.generate movable expr) P) : Triple (Scope filled outer) (genFull movable use expr) fun full s ↦
      (P full.code ∧ destroys full.dtors = leaves expr) ∧ Scope filled outer s := by
  intro s hs
  rw [run_genFull]
  refine ⟨⟨h _, ?_⟩, hs⟩
  rw [destroys_reverse, generate_leaves movable use expr]
  rfl

end Steps

/-! ## The code of statements -/

section Codes

variable {movable : ℕ → Bool} {filled : Bool} {outer : List (List Object)}

/-- The code of an expression is linked if the expression is. -/
theorem generate_linked (movable : ℕ → Bool) (use : Use) (expr : AExpr) :
    Yields (use.generate movable expr) fun code ↦ ∀ result, StatBlocks.linked code result = linked expr :=
  fun s ↦ (Blocks.generate_hasShape movable use expr s).linked

theorem generate_init (movable : ℕ → Bool) (type : Ty) (expr : AExpr) :
    Yields ((Use.init type).generate movable expr) fun code ↦
      (∀ result, StatBlocks.linked code result = linked expr) ∧ StatBlocks.emits code true = true := by
  refine fun s ↦ ⟨generate_linked movable (.init type) expr s, ?_⟩
  unfold Use.generate
  dsimp only
  split
  · rfl
  · exact visit_emits expr true s

theorem generate_call (movable : ℕ → Bool) (call : AExpr) :
    Yields (Use.call.generate movable call) fun code ↦
      (∀ result, StatBlocks.linked code result = linked call) ∧ StatBlocks.emits code false = !silent call :=
  fun s ↦ ⟨generate_linked movable .call call s, visit_emits call false s⟩

theorem generate_swich (movable : ℕ → Bool) (expr : AExpr) :
    Yields (Use.swich.generate movable expr) fun code ↦
      (∀ result, StatBlocks.linked code result = linked expr) ∧ StatBlocks.emits code true = true :=
  fun s ↦ ⟨generate_linked movable .swich expr s, visit_emits expr true s⟩

/-- The code of an assignment or a declaration. -/
structure AgreesAsgn (linked touches : Bool) (code : AsgnCode) : Prop where
  linked : StatBlocks.AsgnCode.linked code = linked
  touches : StatBlocks.AsgnCode.touches code = touches

theorem triple_genInit (obj : Object) (type : Ty) (expr : Option AExpr) : Triple (Scope filled outer)
    (genInit movable type expr) fun init s ↦ AgreesAsgn (expr.all linked) true (.var obj init) ∧ Scope filled outer s := by
  cases expr with
  | none => exact Triple.pure _ fun s hs ↦ ⟨⟨rfl, rfl⟩, hs⟩
  | some expr =>
    refine Triple.map ((triple_genFull movable (.init type) expr (generate_init movable type expr)).post fun init s hs ↦ ?_)
    obtain ⟨⟨⟨hlinked, hemits⟩, -⟩, hscope⟩ := hs
    refine ⟨⟨hlinked true, ?_⟩, hscope⟩
    change (StatBlocks.emits init.code true || destroys init.dtors) = true
    rw [hemits, Bool.true_or]

theorem triple_insertVar (type : Ty) (expr : Option AExpr) : Triple (Scope filled outer) (insertVar movable type expr)
    fun code s ↦ AgreesAsgn (expr.all linked) true code ∧ Scope (filled || hasDtor type) outer s := by
  refine triple_alloc.bind fun n ↦ (triple_genInit ⟨n, type⟩ type expr).bind fun init ↦ Triple.assume fun hinit ↦ ?_
  exact (triple_pushObj ⟨n, type⟩).bind fun _ ↦ Triple.pure _ fun s hs ↦ ⟨hinit, hs⟩

theorem triple_visitDecl (decl : Decl AExpr) : Triple (Scope filled outer) (visitDecl movable decl)
    fun code s ↦ AgreesAsgn (declLinked decl) (declTouches decl) code ∧ Scope (filled || declFills decl) outer s := by
  cases decl with
  | var _ type expr => cases expr with
    | none => exact triple_insertVar _ none
    | some expr => exact triple_insertVar _ (some expr)
  | let_ _ type expr => exact triple_insertVar _ (some expr)
  | typeAlias _ _ _ => exact Triple.pure _ fun s hs ↦ ⟨⟨rfl, rfl⟩, (Bool.or_false filled).symm ▸ hs⟩

theorem triple_visitAsgn (asgn : Asgn AExpr) : Triple (Scope filled outer) (visitAsgn movable asgn)
    fun code s ↦ AgreesAsgn (asgnLinked asgn) (asgnTouches asgn) code ∧ Scope (filled || asgnFills asgn) outer s := by
  cases asgn with
  | assign dst src =>
    refine triple_scope fun objs hobjs ↦ (triple_enterScope _).bind fun index ↦ ?_
    refine (triple_genExpr movable .dst dst (generate_linked movable .dst dst)).bind fun dstCode ↦ Triple.assume fun hdst ↦ ?_
    refine (triple_genExpr movable .src src (generate_linked movable .src src)).bind fun srcCode ↦ Triple.assume fun hsrc ↦ ?_
    refine (triple_destroy index).bind fun dtors ↦ (triple_leaveScope hobjs).bind fun _ ↦ Triple.pure _ fun s hs ↦ ?_
    refine ⟨⟨?_, rfl⟩, (Bool.or_false filled).symm ▸ hs⟩
    change (StatBlocks.linked dstCode false && StatBlocks.linked srcCode false) = _
    rw [hdst false, hsrc false]
    rfl
  | declAssign _ expr => exact triple_insertVar _ (some expr)
  | callAssign call =>
    refine Triple.map ((triple_genFull movable .call call (generate_call movable call)).post fun full s hs ↦ ?_)
    obtain ⟨⟨⟨hlinked, hemits⟩, hdtors⟩, hscope⟩ := hs
    refine ⟨⟨hlinked false, ?_⟩, (Bool.or_false filled).symm ▸ hscope⟩
    change (StatBlocks.emits full.code false || destroys full.dtors) = !silent call
    rw [hemits, hdtors]
    cases hsilent : silent call with
    | true => exact silent_leaves call hsilent
    | false => rfl
  | compAssign _ _ _ | incrDecr _ _ => exact Triple.pure _ fun s hs ↦ ⟨⟨rfl, rfl⟩, (Bool.or_false filled).symm ▸ hs⟩

theorem triple_visitOptAsgn (asgn : Option (Asgn AExpr)) : Triple (Scope filled outer) (visitOptAsgn movable asgn)
    fun code s ↦ StatBlocks.AsgnCode.linked code = asgn.all asgnLinked ∧ ∃ filled, Scope filled outer s := by
  cases asgn with
  | none => exact Triple.pure _ fun s hs ↦ ⟨rfl, _, hs⟩
  | some asgn => exact (triple_visitAsgn asgn).post fun code s hs ↦ ⟨hs.1.linked, _, hs.2⟩

/-- The comparisons of a switch. -/
theorem triple_visitChecks : (cases : List (SwitchCase AExpr)) → Triple (Scope filled outer) (visitChecks movable cases)
    fun checks s ↦ (StatBlocks.checksLinked checks = casesLinked cases ∧ checks.length = cases.length ∧
      checks.countP Option.isNone = cases.countP fun c ↦ c.expr.isNone) ∧ Scope filled outer s
  | [] => Triple.pure _ fun s hs ↦ ⟨⟨rfl, rfl, rfl⟩, hs⟩
  | .mk none body :: cases => by
    refine (triple_visitChecks cases).bind fun checks ↦ Triple.assume fun ⟨hlinked, hlength, hcount⟩ ↦ ?_
    refine Triple.pure _ fun s hs ↦ ⟨⟨hlinked, congrArg (· + 1) hlength, ?_⟩, hs⟩
    rw [List.countP_cons_of_pos rfl, List.countP_cons_of_pos rfl, hcount]
  | .mk (some expr) body :: cases => by
    have hequal : Triple (Scope filled outer) (equalTo movable expr) fun check s ↦
        (∀ result, StatBlocks.linked check.init.code result = linked expr) ∧ Scope filled outer s := by
      refine triple_scope fun objs hobjs ↦ (triple_enterScope _).bind fun index ↦ triple_alloc.bind fun n ↦ ?_
      refine (triple_genExpr movable .case expr (generate_linked movable .case expr)).bind fun code ↦ Triple.assume fun hcode ↦ ?_
      refine (triple_pushObj _).bind fun _ ↦ (triple_destroy index).bind fun dtors ↦ (triple_leaveScope hobjs).bind fun _ ↦ ?_
      exact Triple.pure _ fun s hs ↦ ⟨hcode, hs⟩
    refine hequal.bind fun check ↦ Triple.assume fun hcheck ↦ ?_
    refine (triple_visitChecks cases).bind fun checks ↦ Triple.assume fun ⟨hlinked, hlength, hcount⟩ ↦ ?_
    refine Triple.pure _ fun s hs ↦ ⟨⟨?_, congrArg (· + 1) hlength, ?_⟩, hs⟩
    · change (StatBlocks.linked check.init.code true && StatBlocks.checksLinked checks) = _
      rw [hcheck true, hlinked]
      rfl
    · rw [List.countP_cons_of_neg (by simp), List.countP_cons_of_neg (by simp [SwitchCase.expr]), hcount]

end Codes

/-! ## Statements -/

/-- The code of a statement. -/
structure Agrees (stat : Stat AExpr) (filled : Bool) (code : StatCode) : Prop where
  closes : StatBlocks.closes code = closes stat
  touches : StatBlocks.touches code = touches stat filled
  fits : ∀ breaks continues, StatBlocks.fits code breaks continues = fits stat filled breaks continues
  regular : StatBlocks.regular code = oneDefault stat

/-- The code of statements, one after the other. -/
structure AgreesNodes (nodes : List (Stat AExpr)) (filled : Bool) (codes : List StatCode) : Prop where
  closes : StatBlocks.closesNodes codes = closesNodes nodes
  touches : StatBlocks.touchesNodes codes = touchesNodes nodes filled
  fits : ∀ breaks continues closed, StatBlocks.fitsNodes codes breaks continues closed =
    fitsNodes nodes filled breaks continues closed
  regular : StatBlocks.regularNodes codes = oneDefaultNodes nodes

/-- The code of the bodies of a switch. -/
structure AgreesCases (cases : List (SwitchCase AExpr)) (codes : List StatCode) : Prop where
  length : codes.length = cases.length
  fits : StatBlocks.fitsBodies codes = fitsCases cases
  regular : StatBlocks.regularNodes codes = oneDefaultCases cases

section Visitor

variable {movable : ℕ → Bool}

theorem isEmpty_congr {α β : Type} {l : List α} {l' : List β} (h : l.length = l'.length) : l.isEmpty = l'.isEmpty := by
  cases l <;> cases l' <;> first | rfl | cases h

theorem agrees_swich {expr : AExpr} {cases : List (SwitchCase AExpr)} {alwaysReturns filled : Bool} {obj : Object}
    {value : Code} {checks : List (Option CheckCode)} {bodies : List StatCode} {dtors : List Object}
    (hlinked : StatBlocks.linked value true = linked expr) (hemits : StatBlocks.emits value true = true)
    (hchecks : StatBlocks.checksLinked checks = casesLinked cases) (hlength : checks.length = cases.length)
    (hcount : checks.countP Option.isNone = cases.countP fun c ↦ c.expr.isNone) (hbodies : AgreesCases cases bodies) :
    Agrees (.swich expr cases alwaysReturns) filled (.swich obj value checks bodies alwaysReturns dtors) := by
  have hempty : checks.isEmpty = cases.isEmpty := isEmpty_congr hlength
  refine ⟨?_, ?_, fun breaks continues ↦ ?_, ?_⟩
  · rw [StatBlocks.closes, closes, hempty]
  · rw [StatBlocks.touches, touches, hemits, Bool.or_true, Bool.true_or]
  · rw [StatBlocks.fits, fits, hlinked, hchecks, hbodies.fits]
  · rw [StatBlocks.regular, oneDefault, hcount, hbodies.regular, hlength, hbodies.length, beq_self_eq_true, Bool.true_and]

mutual

theorem triple_visit : (stat : Stat AExpr) → (scopeIndex : ℕ) → (filled : Bool) → (outer : List (List Object)) →
    Triple (Scope filled outer) (visit movable stat scopeIndex)
      fun code s ↦ Agrees stat filled code ∧ Scope (filled || fills stat) outer s
  | .block nodes, scopeIndex, filled, outer => by
    refine triple_scope fun objs hobjs ↦ (triple_enterScope _).bind fun _ ↦ ?_
    refine (triple_visitNodes nodes scopeIndex false _).bind fun codes ↦ Triple.assume fun hcodes ↦ ?_
    refine (triple_leaveSome hobjs).bind fun _ ↦ Triple.pure _ fun s hs ↦ ?_
    exact ⟨⟨hcodes.closes, hcodes.touches, fun _ _ ↦ hcodes.fits _ _ _, hcodes.regular⟩, (Bool.or_false filled).symm ▸ hs⟩
  | .fi cond body none, scopeIndex, filled, outer => by
    refine (triple_genFull movable .cond cond (generate_linked movable .cond cond)).bind fun condCode ↦ Triple.assume fun hcond ↦ ?_
    refine (triple_visit body scopeIndex filled outer).bind fun code ↦ Triple.assume fun hcode ↦ Triple.pure _ fun s hs ↦ ⟨⟨rfl, rfl, fun breaks continues ↦ ?_, hcode.regular⟩, hs⟩
    rw [StatBlocks.fits, fits, hcond.1 false, hcode.fits]
  | .fi cond body (some elseBody), scopeIndex, filled, outer => by
    refine (triple_genFull movable .cond cond (generate_linked movable .cond cond)).bind fun condCode ↦ Triple.assume fun hcond ↦ ?_
    refine (triple_visit body scopeIndex filled outer).bind fun code ↦ Triple.assume fun hcode ↦ ?_
    refine (triple_visit elseBody scopeIndex _ outer).bind fun elseCode ↦ Triple.assume fun helse ↦ Triple.pure _ fun s hs ↦ ?_
    refine ⟨⟨?_, rfl, fun breaks continues ↦ ?_, ?_⟩, (Bool.or_assoc filled _ _) ▸ hs⟩
    · rw [StatBlocks.closes, closes, hcode.closes, helse.closes]
    · rw [StatBlocks.fits, fits, hcond.1 false, hcode.fits, helse.fits]
    · rw [StatBlocks.regular, oneDefault, hcode.regular, helse.regular]
  | .swich expr cases alwaysReturns, _, filled, outer => by
    refine triple_scope fun objs hobjs ↦ (triple_enterScope _).bind fun index ↦ triple_alloc.bind fun n ↦ ?_
    refine (triple_genExpr movable .swich expr (generate_swich movable expr)).bind fun value ↦ Triple.assume fun ⟨hlinked, hemits⟩ ↦ ?_
    have hscope : Scope filled outer = Scope (filled || fills (.swich expr cases alwaysReturns)) outer := by
      rw [fills, Bool.or_false]
    refine Triple.ite (fun hempty ↦ ?_) fun _ ↦ ?_
    · refine (triple_destroy index).bind fun dtors ↦ (triple_leaveScope hobjs).bind fun _ ↦ Triple.pure _ fun s hs ↦ ?_
      rw [List.isEmpty_iff.mp hempty]
      exact ⟨agrees_swich (hlinked true) hemits rfl rfl rfl ⟨rfl, rfl, rfl⟩, hscope ▸ hs⟩
    · refine Triple.get_bind fun s hs ↦ Triple.pre (P := Scope (false || leaves expr) (objs :: outer)) ?_ fun _ heq ↦ heq ▸ hs
      refine (triple_visitChecks cases).bind fun checks ↦ Triple.assume fun ⟨hchecks, hlength, hcount⟩ ↦ ?_
      refine (triple_visitBodies cases _ _ _).bind fun bodies ↦ Triple.assume fun hbodies ↦ ?_
      refine (triple_destroyUnless alwaysReturns index).bind fun dtors ↦ (triple_leaveScope hobjs).bind fun _ ↦ ?_
      exact Triple.pure _ fun s hs ↦ ⟨agrees_swich (hlinked true) hemits hchecks hlength hcount hbodies, hscope ▸ hs⟩
  | .terminate, _, filled, outer => by
    rintro s ⟨objs, hscopes, hfilled⟩
    refine ⟨⟨rfl, ?_, fun _ _ ↦ rfl, rfl⟩, objs, hscopes, (Bool.or_false filled).symm ▸ hfilled⟩
    change destroys ((s.scopes.take (s.scopes.length - (s.scopes.length - 1))).flatMap List.reverse) = filled
    have hone : outer.length + 1 - (outer.length + 1 - 1) = 1 := by omega
    rw [hscopes, List.length_cons, hone, List.take_succ_cons, List.take_zero, List.flatMap_singleton, destroys_reverse, hfilled]
  | .brake, scopeIndex, filled, outer =>
    Triple.map ((triple_destroy scopeIndex).post fun dtors s hs ↦ ⟨⟨rfl, rfl, fun _ _ ↦ rfl, rfl⟩, (Bool.or_false filled).symm ▸ hs⟩)
  | .continu, scopeIndex, filled, outer =>
    Triple.map ((triple_destroy scopeIndex).post fun dtors s hs ↦ ⟨⟨rfl, rfl, fun _ _ ↦ rfl, rfl⟩, (Bool.or_false filled).symm ▸ hs⟩)
  | .ret none, _, filled, outer =>
    Triple.map ((triple_destroy 0).post fun dtors s hs ↦ ⟨⟨rfl, rfl, fun _ _ ↦ rfl, rfl⟩, (Bool.or_false filled).symm ▸ hs⟩)
  | .ret (some expr), _, filled, outer => by
    refine (triple_genExpr movable .ret expr (generate_linked movable .ret expr)).bind fun code ↦ Triple.assume fun hcode ↦ ?_
    refine (triple_destroy 0).bind fun dtors ↦ Triple.pure _ fun s hs ↦ ⟨⟨rfl, rfl, fun _ _ ↦ hcode _, rfl⟩, hs⟩
  | .wile cond body, _, filled, outer => by
    refine triple_scope fun objs hobjs ↦ (triple_enterScope _).bind fun index ↦ ?_
    refine (triple_visit body index false _).bind fun code ↦ Triple.assume fun hcode ↦ (triple_leaveScope hobjs).bind fun _ ↦ ?_
    refine (triple_genFull movable .cond cond (generate_linked movable .cond cond)).bind fun condCode ↦ Triple.assume fun hcond ↦ ?_
    refine Triple.pure _ fun s hs ↦ ⟨⟨rfl, rfl, fun breaks continues ↦ ?_, hcode.regular⟩, (Bool.or_false filled).symm ▸ hs⟩
    rw [StatBlocks.fits, fits, hcond.1 false, hcode.fits]
  | .four init cond incr body, _, filled, outer => by
    refine triple_scope fun objs hobjs ↦ (triple_enterScope _).bind fun outerIndex ↦ ?_
    refine (triple_visitOptAsgn init).bind fun initCode ↦ Triple.assume fun hinit ↦ triple_someScope fun _ ↦ ?_
    refine triple_scope fun objs' hobjs' ↦ (triple_enterScope _).bind fun innerIndex ↦ ?_
    refine (triple_visit body innerIndex false _).bind fun code ↦ Triple.assume fun hcode ↦ (triple_leaveScope hobjs').bind fun _ ↦ ?_
    refine (triple_genFull movable .cond cond (generate_linked movable .cond cond)).bind fun condCode ↦ Triple.assume fun hcond ↦ ?_
    refine (triple_visitOptAsgn incr).bind fun incrCode ↦ Triple.assume fun hincr ↦ ?_
    refine (triple_destroy outerIndex).bind fun dtors ↦ (triple_leaveSome hobjs).bind fun _ ↦ ?_
    refine Triple.pure _ fun s hs ↦ ⟨⟨rfl, rfl, fun breaks continues ↦ ?_, hcode.regular⟩, (Bool.or_false filled).symm ▸ hs⟩
    rw [StatBlocks.fits, fits, hinit, hcode.fits, hcond.1 false, hincr]
  | .decl decl, _, filled, outer =>
    Triple.map ((triple_visitDecl decl).post fun code s hs ↦
      ⟨⟨rfl, hs.1.touches, fun _ _ ↦ hs.1.linked, rfl⟩, hs.2⟩)
  | .asgn asgn, _, filled, outer =>
    Triple.map ((triple_visitAsgn asgn).post fun code s hs ↦
      ⟨⟨rfl, hs.1.touches, fun _ _ ↦ hs.1.linked, rfl⟩, hs.2⟩)

theorem triple_visitNodes : (nodes : List (Stat AExpr)) → (scopeIndex : ℕ) → (filled : Bool) →
    (outer : List (List Object)) → Triple (Scope filled outer) (visitNodes movable nodes scopeIndex)
      fun codes s ↦ AgreesNodes nodes filled codes ∧ ∃ filled, Scope filled outer s
  | [], _, filled, _ => Triple.pure _ fun s hs ↦ ⟨⟨rfl, rfl, fun _ _ _ ↦ rfl, rfl⟩, filled, hs⟩
  | node :: nodes, scopeIndex, filled, outer => by
    refine (triple_visit node scopeIndex filled outer).bind fun code ↦ Triple.assume fun hcode ↦ ?_
    refine (triple_visitNodes nodes scopeIndex _ outer).bind fun codes ↦ Triple.assume fun hcodes ↦ ?_
    refine Triple.pure _ fun s hs ↦ ⟨⟨?_, ?_, fun breaks continues closed ↦ ?_, ?_⟩, hs⟩
    · rw [StatBlocks.closesNodes, closesNodes, hcode.closes, hcodes.closes]
    · rw [StatBlocks.touchesNodes, touchesNodes, hcode.touches, hcodes.touches]
    · rw [StatBlocks.fitsNodes, fitsNodes, hcode.closes, hcode.touches, hcode.fits, hcodes.fits]
    · rw [StatBlocks.regularNodes, oneDefaultNodes, hcode.regular, hcodes.regular]

theorem triple_visitBodies : (cases : List (SwitchCase AExpr)) → (scope : ℕ) → (filled : Bool) →
    (outer : List (List Object)) → Triple (Scope filled outer) (visitBodies movable cases scope)
      fun codes s ↦ AgreesCases cases codes ∧ Scope filled outer s
  | [], _, _, _ => Triple.pure _ fun s hs ↦ ⟨⟨rfl, rfl, rfl⟩, hs⟩
  | .mk expr body :: cases, scope, filled, outer => by
    refine triple_scope fun objs hobjs ↦ (triple_enterScope _).bind fun _ ↦ ?_
    refine (triple_visit body scope false _).bind fun code ↦ Triple.assume fun hcode ↦ ?_
    refine (triple_leaveScope hobjs).bind fun _ ↦ ?_
    refine (triple_visitBodies cases scope filled outer).bind fun codes ↦ Triple.assume fun hcodes ↦ ?_
    have hempty : codes.isEmpty = cases.isEmpty := isEmpty_congr hcodes.length
    refine Triple.pure _ fun s hs ↦ ⟨⟨congrArg (· + 1) hcodes.length, ?_, ?_⟩, hs⟩
    · rw [StatBlocks.fitsBodies, fitsCases, hcode.fits, hcodes.fits, hempty]
    · rw [StatBlocks.regularNodes, oneDefaultCases, hcode.regular, hcodes.regular]

end

end Visitor

/-! ## Semantic analysis allows one default case -/

open Stela.Semantic Stela.Library.Except

theorem oneDefaultNodes_eq_all (nodes : List (Stat AExpr)) : oneDefaultNodes nodes = nodes.all oneDefault := by
  induction nodes with
  | nil => rfl
  | cons node nodes ih => rw [oneDefaultNodes, ih, List.all_cons]

/-- Whether the switch may have another default case. -/
def room (foundDef : Bool) : ℕ := (!foundDef).toNat

mutual

theorem traverse_oneDefault : (stat : Stat Expr) → (flow : Bool) → (ret : Option Ty) → {r : Stat AExpr × Option Ty} →
    Traverse.visit stat flow ret = .ok r → oneDefault r.1 = true
  | .block nodes, flow, ret, r, h => by
    obtain ⟨⟨nodes', ret'⟩, hnodes, h⟩ := bind_eq_ok.mp h
    cases h
    exact traverseNodes_oneDefault nodes flow ret hnodes
  | .fi cond body none, flow, ret, r, h => by
    obtain ⟨cond', -, h⟩ := bind_eq_ok.mp h
    obtain ⟨⟨body', ret'⟩, hbody, h⟩ := bind_eq_ok.mp h
    cases h
    have hone := traverse_oneDefault body flow ret hbody
    exact hone
  | .fi cond body (some elseBody), flow, ret, r, h => by
    obtain ⟨cond', -, h⟩ := bind_eq_ok.mp h
    obtain ⟨⟨body', ret'⟩, hbody, h⟩ := bind_eq_ok.mp h
    obtain ⟨⟨elseBody', ret''⟩, helse, h⟩ := bind_eq_ok.mp h
    cases h
    exact Bool.and_eq_true_iff.mpr ⟨traverse_oneDefault body flow ret hbody, traverse_oneDefault elseBody flow ret' helse⟩
  | .swich expr cases alwaysReturns, flow, ret, r, h => by
    obtain ⟨⟨expr', etype⟩, -, h⟩ := bind_eq_ok.mp h
    obtain ⟨⟨cases', ret'⟩, hcases, h⟩ := bind_eq_ok.mp h
    cases h
    obtain ⟨hbodies, hcount⟩ := traverseCases_oneDefault cases etype.type false ret hcases
    exact Bool.and_eq_true_iff.mpr ⟨decide_eq_true hcount, hbodies⟩
  | .terminate, _, _, _, h => by
    cases h
    rfl
  | .brake, _, _, _, h | .continu, _, _, _, h => by
    obtain ⟨_, _, h⟩ := bind_eq_ok.mp h
    cases h
    rfl
  | .ret expr, _, ret, _, h => by
    obtain ⟨⟨expr', ret'⟩, -, h⟩ := bind_eq_ok.mp h
    cases h
    rfl
  | .wile cond body, _, ret, r, h => by
    obtain ⟨cond', -, h⟩ := bind_eq_ok.mp h
    obtain ⟨⟨body', ret'⟩, hbody, h⟩ := bind_eq_ok.mp h
    cases h
    have hone := traverse_oneDefault body true ret hbody
    exact hone
  | .four init cond incr body, _, ret, r, h => by
    obtain ⟨init', -, h⟩ := bind_eq_ok.mp h
    obtain ⟨cond', -, h⟩ := bind_eq_ok.mp h
    obtain ⟨incr', -, h⟩ := bind_eq_ok.mp h
    obtain ⟨⟨body', ret'⟩, hbody, h⟩ := bind_eq_ok.mp h
    cases h
    have hone := traverse_oneDefault body true ret hbody
    exact hone
  | .decl _, _, _, _, h | .asgn _, _, _, _, h => by
    obtain ⟨_, _, h⟩ := bind_eq_ok.mp h
    cases h
    rfl

theorem traverseNodes_oneDefault : (nodes : List (Stat Expr)) → (flow : Bool) → (ret : Option Ty) →
    {r : List (Stat AExpr) × Option Ty} → Traverse.visitNodes nodes flow ret = .ok r → oneDefaultNodes r.1 = true
  | [], _, _, _, h => by
    cases h
    rfl
  | node :: nodes, flow, ret, r, h => by
    obtain ⟨⟨node', ret'⟩, hnode, h⟩ := bind_eq_ok.mp h
    obtain ⟨⟨nodes', ret''⟩, hnodes, h⟩ := bind_eq_ok.mp h
    cases h
    exact Bool.and_eq_true_iff.mpr ⟨traverse_oneDefault node flow ret hnode, traverseNodes_oneDefault nodes flow ret' hnodes⟩

theorem traverseCases_oneDefault : (cases : List (SwitchCase Expr)) → (type : Ty) → (foundDef : Bool) →
    (ret : Option Ty) → {r : List (SwitchCase AExpr) × Option Ty} →
      Traverse.visitCases cases type foundDef ret = .ok r →
        oneDefaultCases r.1 = true ∧ r.1.countP (fun c ↦ c.expr.isNone) ≤ room foundDef
  | [], _, _, _, _, h => by
    cases h
    exact ⟨rfl, Nat.zero_le _⟩
  | .mk (some expr) body :: cases, type, foundDef, ret, r, h => by
    obtain ⟨⟨expr', etype⟩, -, h⟩ := bind_eq_ok.mp h
    obtain ⟨⟨body', ret'⟩, hbody, h⟩ := bind_eq_ok.mp h
    obtain ⟨⟨cases', ret''⟩, hcases, h⟩ := bind_eq_ok.mp h
    cases h
    obtain ⟨hbodies, hcount⟩ := traverseCases_oneDefault cases type foundDef ret' hcases
    refine ⟨Bool.and_eq_true_iff.mpr ⟨traverse_oneDefault body true ret hbody, hbodies⟩, ?_⟩
    rwa [List.countP_cons_of_neg (by simp [SwitchCase.expr])]
  | .mk none body :: cases, type, foundDef, ret, r, h => by
    obtain ⟨_, hroom, h⟩ := bind_eq_ok.mp h
    obtain ⟨⟨body', ret'⟩, hbody, h⟩ := bind_eq_ok.mp h
    obtain ⟨⟨cases', ret''⟩, hcases, h⟩ := bind_eq_ok.mp h
    cases h
    obtain ⟨hbodies, hcount⟩ := traverseCases_oneDefault cases type true ret' hcases
    refine ⟨Bool.and_eq_true_iff.mpr ⟨traverse_oneDefault body true ret hbody, hbodies⟩, ?_⟩
    rw [List.countP_cons_of_pos rfl, room, require_eq_ok.mp hroom]
    exact Nat.succ_le_succ hcount

end

theorem oneDefaultNodes_concat (nodes : List (Stat AExpr)) {node : Stat AExpr} (h : oneDefault node = true) :
    oneDefaultNodes (nodes ++ [node]) = oneDefaultNodes nodes := by
  rw [oneDefaultNodes_eq_all, oneDefaultNodes_eq_all, List.all_append, List.all_cons, List.all_nil, h, Bool.true_and,
    Bool.and_true]

theorem oneDefaultNodes_leaveBlock (nodes : List (Stat AExpr)) (scan : CheckMissingReturn.Scan) :
    oneDefaultNodes (CheckMissingReturn.leaveBlock nodes scan).1 = oneDefaultNodes nodes := by
  have hterminate : oneDefaultNodes (nodes ++ [.terminate]) = oneDefaultNodes nodes := oneDefaultNodes_concat nodes rfl
  simp only [CheckMissingReturn.leaveBlock, apply_ite oneDefaultNodes, hterminate, ite_self]

theorem oneDefaultNodes_appendReturn (nodes : List (Stat AExpr)) :
    oneDefaultNodes (CheckMissingReturn.appendReturn nodes) = oneDefaultNodes nodes := by
  unfold CheckMissingReturn.appendReturn
  split
  · next hlast =>
    obtain ⟨init, rfl⟩ := List.getLast?_eq_some_iff.mp hlast
    rw [List.dropLast_concat, oneDefaultNodes_concat init rfl, oneDefaultNodes_concat init rfl]
  · exact oneDefaultNodes_concat nodes rfl

mutual

/-- The missing-return check keeps the cases of a switch. -/
theorem check_oneDefault : (stat : Stat AExpr) → {state : CheckMissingReturn.State} →
    {r : Stat AExpr × CheckMissingReturn.State} → CheckMissingReturn.visit stat state = .ok r →
      oneDefault r.1 = oneDefault stat
  | .block nodes, state, r, h => by
    obtain ⟨⟨nodes', scan⟩, hnodes, h⟩ := bind_eq_ok.mp h
    cases h
    rw [oneDefault, oneDefaultNodes_leaveBlock, checkNodes_oneDefault nodes hnodes, oneDefault]
  | .fi cond body none, state, r, h => by
    obtain ⟨⟨body', troo⟩, hbody, h⟩ := bind_eq_ok.mp h
    cases h
    have hone := check_oneDefault body hbody
    exact hone
  | .fi cond body (some elseBody), state, r, h => by
    obtain ⟨⟨body', troo⟩, hbody, h⟩ := bind_eq_ok.mp h
    obtain ⟨⟨elseBody', fols⟩, helse, h⟩ := bind_eq_ok.mp h
    cases h
    rw [oneDefault, check_oneDefault body hbody, check_oneDefault elseBody helse, oneDefault]
  | .swich expr cases alwaysReturns, state, r, h => by
    obtain ⟨⟨cases', tally⟩, hcases, h⟩ := bind_eq_ok.mp h
    cases h
    obtain ⟨hbodies, hcount⟩ := checkCases_oneDefault cases hcases
    rw [oneDefault, hbodies, hcount, oneDefault]
  | .wile cond body, state, r, h | .four init cond incr body, state, r, h => by
    obtain ⟨⟨body', state'⟩, hbody, h⟩ := bind_eq_ok.mp h
    cases h
    have hone := check_oneDefault body hbody
    exact hone
  | .terminate, _, _, h | .brake, _, _, h | .continu, _, _, h | .ret _, _, _, h | .decl _, _, _, h
  | .asgn _, _, _, h => by
    cases h
    rfl

theorem checkNodes_oneDefault : (nodes : List (Stat AExpr)) → {scan : CheckMissingReturn.Scan} →
    {r : List (Stat AExpr) × CheckMissingReturn.Scan} → CheckMissingReturn.visitNodes nodes scan = .ok r →
      oneDefaultNodes r.1 = oneDefaultNodes nodes
  | [], _, _, h => by
    cases h
    rfl
  | node :: nodes, scan, r, h => by
    obtain ⟨⟨node', state⟩, hnode, h⟩ := bind_eq_ok.mp h
    obtain ⟨-, h⟩ := ite_error_eq_ok.mp h
    obtain ⟨⟨nodes', scan'⟩, hnodes, h⟩ := bind_eq_ok.mp h
    cases h
    rw [oneDefaultNodes, check_oneDefault node hnode, checkNodes_oneDefault nodes hnodes, oneDefaultNodes]

theorem checkCases_oneDefault : (cases : List (SwitchCase AExpr)) → {state : CheckMissingReturn.State} →
    {tally : CheckMissingReturn.Tally} → {r : List (SwitchCase AExpr) × CheckMissingReturn.Tally} →
      CheckMissingReturn.visitCases cases state tally = .ok r → oneDefaultCases r.1 = oneDefaultCases cases ∧
        r.1.countP (fun c ↦ c.expr.isNone) = cases.countP fun c ↦ c.expr.isNone
  | [], _, _, _, h => by
    cases h
    exact ⟨rfl, rfl⟩
  | .mk expr body :: cases, state, tally, r, h => by
    obtain ⟨⟨body', state'⟩, hbody, h⟩ := bind_eq_ok.mp h
    obtain ⟨-, h⟩ := ite_error_eq_ok.mp h
    obtain ⟨⟨cases', tally'⟩, hcases, h⟩ := bind_eq_ok.mp h
    cases h
    obtain ⟨hbodies, hcount⟩ := checkCases_oneDefault cases hcases
    refine ⟨?_, ?_⟩
    · rw [oneDefaultCases, check_oneDefault body hbody, hbodies, oneDefaultCases]
    · rw [List.countP_cons, List.countP_cons, hcount]
      rfl

end

theorem checkMissingRet_oneDefault {nodes nodes' : List (Stat AExpr)} {ret : Ty}
    (h : CheckMissingReturn.checkMissingRet nodes ret = .ok nodes') : oneDefaultNodes nodes' = oneDefaultNodes nodes := by
  obtain ⟨⟨visited, scan⟩, hvisited, h⟩ := bind_eq_ok.mp h
  dsimp only at h
  split_ifs at h
  · cases h
    rw [oneDefaultNodes_appendReturn, oneDefaultNodes_leaveBlock, checkNodes_oneDefault nodes hvisited]
  · cases h
    rw [oneDefaultNodes_leaveBlock, checkNodes_oneDefault nodes hvisited]

mutual

theorem lower_oneDefault : (stat : Stat AExpr) → oneDefault (LowerExpressions.lower stat) = oneDefault stat
  | .block nodes => lowerNodes_oneDefault nodes
  | .fi cond body none => lower_oneDefault body
  | .fi cond body (some elseBody) => congrArg₂ and (lower_oneDefault body) (lower_oneDefault elseBody)
  | .swich expr cases alwaysReturns => by
    obtain ⟨hbodies, hcount⟩ := lowerCases_oneDefault cases
    rw [LowerExpressions.lower, oneDefault, hbodies, hcount, oneDefault]
  | .wile cond body | .four init cond incr body => lower_oneDefault body
  | .terminate | .brake | .continu | .ret _ | .decl _ | .asgn _ => rfl

theorem lowerNodes_oneDefault : (nodes : List (Stat AExpr)) →
    oneDefaultNodes (LowerExpressions.lowerNodes nodes) = oneDefaultNodes nodes
  | [] => rfl
  | node :: nodes => congrArg₂ and (lower_oneDefault node) (lowerNodes_oneDefault nodes)

theorem lowerCases_oneDefault : (cases : List (SwitchCase AExpr)) →
    oneDefaultCases (LowerExpressions.lowerCases cases) = oneDefaultCases cases ∧
      (LowerExpressions.lowerCases cases).countP (fun c ↦ c.expr.isNone) = cases.countP fun c ↦ c.expr.isNone
  | [] => ⟨rfl, rfl⟩
  | .mk expr body :: cases => by
    obtain ⟨hbodies, hcount⟩ := lowerCases_oneDefault cases
    refine ⟨congrArg₂ and (lower_oneDefault body) hbodies, ?_⟩
    rw [LowerExpressions.lowerCases, List.countP_cons, List.countP_cons, hcount]
    rfl

end

/-- An accepted body has at most one default case in each switch. -/
theorem visitBody_oneDefault {body : Traverse.Body Expr} {body' : Traverse.Body AExpr}
    (h : Traverse.visitBody body = .ok body') : oneDefaultNodes body'.nodes = true := by
  obtain ⟨⟨nodes, retType⟩, hnodes, h⟩ := bind_eq_ok.mp h
  dsimp only at h
  split at h
  · cases h
  · next nodes' hcheck =>
    cases h
    rw [checkMissingRet_oneDefault hcheck]
    exact traverseNodes_oneDefault body.nodes false body.ret hnodes

/-! ## Generated bodies -/

theorem triple_insertParams {filled : Bool} {outer : List (List Object)} : (params : List (ParamRef × Ty)) → (index : ℕ) →
    Triple (Scope filled outer) (insertParams params index) fun _ ↦ Scope filled outer
  | [], _ => Triple.pure _ fun _ ↦ id
  | _ :: params, index =>
    Triple.ite (fun _ ↦ triple_alloc.bind fun _ ↦ (triple_insertParams params (index + 1)).bind fun _ ↦ Triple.pure _ fun _ ↦ id)
      fun _ ↦ triple_insertParams params (index + 1)

/-- The generated code of statements passes the tests that the statements pass. -/
theorem agrees_generateStat (movable : ℕ → Bool) (self : Option (ParamRef × Ty)) (params : List (ParamRef × Ty))
    (body : List (Stat AExpr)) :
    AgreesNodes (LowerExpressions.lowerNodes body) false (generateStat movable self params body).nodes := by
  have hbody : Triple (fun s ↦ s.scopes = []) (generateBody movable self params (LowerExpressions.lowerNodes body))
      fun code _ ↦ AgreesNodes (LowerExpressions.lowerNodes body) false code.nodes := by
    refine (triple_enterScope []).bind fun _ ↦ (triple_insertParams self.toList 0).bind fun selfObj ↦ ?_
    refine (triple_insertParams params 1).bind fun objs ↦ ?_
    refine (triple_visitNodes _ 0 false []).bind fun codes ↦ Triple.assume fun hcodes ↦ ?_
    exact fun _ _ ↦ hcodes
  exact hbody {} rfl

/-- The blocks that are generated for statements are well formed exactly if the statements are. -/
theorem generateStat_wellTerminated_iff (movable : ℕ → Bool) (self : Option (ParamRef × Ty)) (params : List (ParamRef × Ty))
    {body : List (Stat AExpr)} (hdefault : oneDefaultNodes body = true) :
    StatBlocks.WellTerminated (StatBlocks.emitBody (generateStat movable self params body)) ↔
      wellTerminated (LowerExpressions.lowerNodes body) = true := by
  have hagrees := agrees_generateStat movable self params body
  have hregular := (hagrees.regular.trans (lowerNodes_oneDefault body)).trans hdefault
  rw [StatBlocks.emitBody_wellTerminated_iff _ hregular, hagrees.fits, hagrees.closes, wellTerminated]

/-- The blocks of an accepted body are well formed exactly if nothing is generated after a statement that control does
not get past, every `continue` has somewhere to go, no condition is part of a branch of `?:` and control does not
get to the end. -/
theorem accepted_wellTerminated_iff {body : Traverse.Body Expr} {body' : Traverse.Body AExpr}
    (h : Traverse.visitBody body = .ok body') (movable : ℕ → Bool) (self : Option (ParamRef × Ty)) :
    StatBlocks.WellTerminated (StatBlocks.emitBody (generateStat movable self body'.params body'.nodes)) ↔
      wellTerminated (LowerExpressions.lowerNodes body'.nodes) = true :=
  generateStat_wellTerminated_iff movable self body'.params (visitBody_oneDefault h)

/-- `while (true) { if (true) { break; } }` -/
def brokenLoop : Traverse.Body Expr :=
  ⟨[], none, [.wile (.bool true) (.block [.fi (.bool true) (.block [.brake]) none])]⟩

theorem accepted_wellTerminated_iff_brokenLoop : ∃ body', Traverse.visitBody brokenLoop = .ok body' ∧
    StatBlocks.WellTerminated (StatBlocks.emitBody (generateStat (fun _ ↦ false) none body'.params body'.nodes)) :=
  ⟨_, rfl, (accepted_wellTerminated_iff (rfl : Traverse.visitBody brokenLoop = .ok _) (fun _ ↦ false) none).mpr rfl⟩

/-- `while (true) { if (true) { return; } else { break; } return; }` -/
def returnedTwice : Traverse.Body Expr :=
  ⟨[], none, [.wile (.bool true)
    (.block [.fi (.bool true) (.block [.ret none]) (some (.block [.brake])), .ret none])]⟩

/-- Control does not get past the `if`, which the check takes to be left only on some paths: the `return` that
follows it is put after the terminator of a block. -/
theorem returnedTwice_not_wellTerminated : ∃ body', Traverse.visitBody returnedTwice = .ok body' ∧
    ¬StatBlocks.WellTerminated (StatBlocks.emitBody (generateStat (fun _ ↦ false) none body'.params body'.nodes)) :=
  ⟨_, rfl, fun h ↦ Bool.false_ne_true ((generateStat_wellTerminated_iff (fun _ ↦ false) none [] rfl).mp h)⟩

end Stela.CodeGen.BodyTerminators
