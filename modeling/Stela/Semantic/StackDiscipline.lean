import Stela.Library.Refinement
import Stela.Semantic.ExprStack

/-!
# The discipline of the expression stack

A visit with the stack does what the recursion of `InferType` says: it stops where the recursion stops, and otherwise
it leaves one entry, or two for the object of a method, on top of the stack that it found.
-/

namespace Stela.Semantic.ExprStack

open Stela.Syntax Stela.Library

section

variable (scope : String → List Symbol)

mutual

/-- The symbols in the nodes are the ones of the scope that the expression stands in. -/
def Found : Expr → Prop
  | .binary lhs _ rhs => Found lhs ∧ Found rhs
  | .unary _ expr => Found expr
  | .call func args => Found func ∧ AllFound args
  | .member object name symbols => Found object ∧ symbols = scope name
  | .subscript object index => Found object ∧ Found index
  | .ident name symbols => symbols = scope name
  | .ternary cond troo fols => Found cond ∧ Found troo ∧ Found fols
  | .make _ expr => Found expr
  | .string _ | .char _ | .number _ | .bool _ | .lambda _ _ _ => True
  | .array exprs | .initList exprs => AllFound exprs

def AllFound : List Expr → Prop
  | [] => True
  | expr :: exprs => Found expr ∧ AllFound exprs

end

/-- A call is pending on top of the stack. -/
def calling (s : List Entry) : Bool := s.head?.any (·.kind = .call)

/-- What the visit of a node leaves on top of the stack that it found. A function, a builtin function or a method is
only left under a pending call. -/
inductive Leaves (s : List Entry) : InferType.Visited → Node → Visitor → Prop
  | expr {v : Visitor} {e : AExpr} {etype : ExprType} (hexprs : v.exprs = ⟨.expr, ""⟩ :: s)
      (htype : v.exprType = some etype) : Leaves s (.expr e etype) (.expr e) v
  | func {v : Visitor} {name : String} (hcalling : calling s = true) (hexprs : v.exprs = ⟨.func, name⟩ :: s) :
      Leaves s (.func name (scope name)) .name v
  | btnFunc {v : Visitor} {name : String} {func : BtnFunc} (hcalling : calling s = true)
      (hexprs : v.exprs = ⟨.btn_func, name⟩ :: s) (hname : (scope name).head? = some (.btnFunc func)) :
      Leaves s (.btnFunc func) .name v
  | member {v : Visitor} {object : AExpr} {receiver : ExprType} {name : String} (hcalling : calling s = true)
      (hexprs : v.exprs = ⟨.expr, ""⟩ :: ⟨.member, name⟩ :: s) (htype : v.exprType = some receiver) :
      Leaves s (.member object receiver name (scope name)) (.method object) v

/-- A node is never visited directly on top of an expression. -/
def Standing (s : List Entry) : Prop := ∃ entry ∈ s.head?, entry.kind ≠ .expr

def Disciplined (expr : Expr) : Prop :=
  ∀ v : Visitor, Standing v.exprs →
    Refines .check (InferType.visit expr (calling v.exprs) v.expected) (visit scope expr) v (Leaves scope v.exprs)

end

/-- The same result, and the stack and the expected type as they were. -/
def Kept {α : Type} (v : Visitor) (b a : α) (v' : Visitor) : Prop :=
  a = b ∧ v'.exprs = v.exprs ∧ v'.expected = v.expected

variable {α β : Type} {scope : String → List Symbol} {v v' : Visitor} {s : List Entry} {entry : Entry}

/-! ## Entries -/

theorem run_popName {kind : ExprKind} {name : String} (h : v.exprs = ⟨kind, name⟩ :: s) :
    popName kind v = .ok (name, { v with exprs := s }) := by
  obtain ⟨exprs, exprType, expType, expected⟩ := v
  cases h
  change (if kind = kind then _ else _ : Visit String) _ = _
  rw [if_pos rfl]
  rfl

theorem run_pop {kind : ExprKind} {name : String} (h : v.exprs = ⟨kind, name⟩ :: s) :
    pop kind v = .ok ((), { v with exprs := s }) := by
  change (popName kind v >>= fun r ↦ _) = _
  rw [run_popName h]
  rfl

theorem run_recorded {type : ExprType} (h : v.exprType = some type) : recorded v = .ok (type, v) := by
  obtain ⟨exprs, exprType, expType, expected⟩ := v
  cases h
  rfl

theorem run_popExpr {type : ExprType} (h : v.exprs = ⟨.expr, ""⟩ :: s) (htype : v.exprType = some type) :
    popExpr v = .ok (type, { v with exprs := s }) := by
  change (pop .expr v >>= fun r ↦ _) = _
  rw [run_pop h]
  exact run_recorded (v := { v with exprs := s }) htype

theorem run_top (h : v.exprs = entry :: s) : top v = .ok (entry.kind, v) := by
  obtain ⟨exprs, exprType, expType, expected⟩ := v
  cases h
  rfl

theorem run_setExpr {type : ExprType} (h : Standing v.exprs) :
    setExpr type v = .ok ((), { v with exprs := ⟨.expr, ""⟩ :: v.exprs, exprType := some type }) := by
  obtain ⟨entry, hentry, hkind⟩ := h
  obtain ⟨s, h⟩ := List.head?_eq_some_iff.mp hentry
  change (top v >>= fun r ↦ _) = _
  rw [run_top h]
  change (if entry.kind = .expr then _ else _ : Visit Unit) v = _
  rw [if_neg hkind]
  rfl

theorem run_topType {type : ExprType} (h : v.exprs = ⟨.expr, ""⟩ :: s) (htype : v.exprType = some type) :
    topType v = .ok (type.type, v) := by
  change (top v >>= fun r ↦ _) = _
  rw [run_top h]
  change (recorded v >>= fun r ↦ _) = _
  rw [run_recorded htype]
  rfl

theorem run_leaveSubExpr {type : ExprType} (h : v.exprs = ⟨.expr, ""⟩ :: ⟨.subexpr, ""⟩ :: s)
    (htype : v.exprType = some type) :
    leaveSubExpr v = .ok (type, { v with exprs := s, exprType := none }) := by
  change (pop .expr v >>= fun r ↦ _) = _
  rw [run_pop h]
  change (pop .subexpr { v with exprs := ⟨.subexpr, ""⟩ :: s } >>= fun r ↦ _) = _
  rw [run_pop rfl]
  change (recorded { v with exprs := s } >>= fun r ↦ _) = _
  rw [run_recorded (v := { v with exprs := s }) htype]
  rfl

theorem refines_lift (c : Check α) : Refines .check c (lift c) v fun b a v' ↦ a = b ∧ v' = v := by
  cases c with
  | error stop => exact rfl
  | ok a => exact .of_ok rfl ⟨rfl, rfl⟩

/-- A check that both make. -/
theorem refines_check {c : Check α} {g : α → Check β} {γ : Type} {f : α → Visit γ} {R : β → γ → Visitor → Prop}
    (h : ∀ a, Refines Fault.check (g a) (f a) v R) : Refines .check (c >>= g) (lift c >>= f) v R :=
  (refines_lift c).bind fun _ a _ hr ↦ hr.1 ▸ hr.2 ▸ h a

/-! ## Nodes that need no stack -/

/-- What is made is an expression. -/
def Makes (visited : Check InferType.Visited) : Prop := ∀ x, visited = .ok x → ∃ e etype, x = .expr e etype

theorem makes_setLetVal {e : AExpr} : Makes (.ok (InferType.setLetVal e)) := by
  intro x h
  cases h
  exact ⟨_, _, rfl⟩

theorem makes_error {stop : Stop} : Makes (.error stop) := by
  intro x h
  cases h

theorem Makes.bind {c : Check α} {f : α → Check InferType.Visited} (h : ∀ a, Makes (f a)) : Makes (c >>= f) := by
  cases c with
  | error stop => exact makes_error
  | ok a => exact h a

theorem makes_leaveBinary {lhs rhs : AExpr × ExprType} {oper : BinOp} : Makes (InferType.leaveBinary lhs oper rhs) :=
  .bind fun _ ↦ .bind fun _ ↦ makes_setLetVal

theorem makes_leaveUnary {expr : AExpr × ExprType} {oper : UnOp} : Makes (InferType.leaveUnary oper expr) := by
  unfold InferType.leaveUnary
  split
  · split
    · exact makes_setLetVal
    · exact makes_error
  · exact makes_error

theorem makes_leaveSubscript {object index : AExpr × ExprType} : Makes (InferType.leaveSubscript object index) := by
  intro x h
  unfold InferType.leaveSubscript at h
  split at h
  · split at h
    · split at h
      · cases h
        exact ⟨_, _, rfl⟩
      · cases h
    · cases h
  · cases h

theorem makes_leaveTernary {cond troo fols : AExpr × ExprType} : Makes (InferType.leaveTernary cond troo fols) := by
  refine .bind fun _ ↦ ?_
  intro x h
  cases h
  exact ⟨_, _, rfl⟩

theorem makes_leaveMake {type : Ty} {expr : AExpr × ExprType} : Makes (InferType.leaveMake type expr) := by
  unfold InferType.leaveMake
  split
  · exact makes_setLetVal
  · split
    · exact makes_setLetVal
    · exact makes_error

theorem makes_leaveEmptyArray {elem : Option Ty} : Makes (InferType.leaveEmptyArray elem) := by
  cases elem with
  | none => exact makes_error
  | some elem => exact makes_setLetVal

theorem makes_leaveArray {exprs : List AExpr} {type : Ty} : Makes (InferType.leaveArray exprs type) :=
  .bind fun _ ↦ makes_setLetVal

theorem makes_findOverload {name : String} {expType : Ty} (symbols : List Symbol) :
    Makes (InferType.findOverload name expType symbols) := by
  induction symbols with
  | nil => exact makes_error
  | cons symbol symbols ih =>
    cases symbol with
    | func func =>
      refine .bind fun funcType ↦ ?_
      split
      · exact makes_setLetVal
      · exact ih
    | _ => exact makes_error

theorem makes_pushFunPtr {name : String} {symbols : List Symbol} {expType : Option Ty} :
    Makes (InferType.pushFunPtr name symbols expType) := by
  unfold InferType.pushFunPtr
  split
  · exact .bind fun _ ↦ .bind fun _ ↦ makes_setLetVal
  · exact makes_error
  · exact makes_findOverload _

theorem refines_pushVisited {visited : Check InferType.Visited} {push : ExprType → Visit Unit}
    (hmakes : Makes visited)
    (hpush : ∀ etype, ∃ v', push etype v = .ok ((), v') ∧ v'.exprs = ⟨.expr, ""⟩ :: s ∧ v'.exprType = some etype) :
    Refines .check visited (pushVisited visited push) v (Leaves scope s) := by
  cases visited with
  | error stop => exact rfl
  | ok x =>
    obtain ⟨e, etype, rfl⟩ := hmakes x rfl
    obtain ⟨v', hrun, hexprs, htype⟩ := hpush etype
    have hlift : lift (.ok (.expr e etype)) v = .ok (InferType.Visited.expr e etype, v) := rfl
    exact .step hlift (.step hrun (.pure (.expr hexprs htype)))

theorem refines_leave {visited : Check InferType.Visited} (hmakes : Makes visited) (hstanding : Standing s)
    (hexprs : v.exprs = s) : Refines .check visited (leave visited) v (Leaves scope s) := by
  subst hexprs
  exact refines_pushVisited hmakes fun _ ↦ ⟨_, run_setExpr hstanding, rfl, rfl⟩

/-! ## Names and calls -/

theorem refines_lookupIdent {name : String} {symbols : List Symbol} (hsymbols : symbols = scope name)
    (hstanding : Standing v.exprs) :
    Refines .check (InferType.lookupIdent name symbols (calling v.exprs) v.expType) (lookupIdent name symbols) v
      (Leaves scope v.exprs) := by
  obtain ⟨entry, hentry, -⟩ := hstanding
  obtain ⟨s, hexprs⟩ := List.head?_eq_some_iff.mp hentry
  have hcalling : calling v.exprs = decide (entry.kind = .call) := by
    rw [hexprs]
    rfl
  cases hcases : symbols with
  | nil => exact rfl
  | cons symbol rest =>
    have hhead : (scope name).head? = some symbol := by rw [← hsymbols, hcases]; rfl
    cases symbol with
    | object definition etype captureIndex => exact .of_ok rfl (.expr rfl rfl)
    | typeAlias => exact rfl
    | func func =>
      have hname : Symbol.func func :: rest = scope name := hcases.symm.trans hsymbols
      refine .step (run_top hexprs) ?_
      by_cases hcall : entry.kind = .call
      · have hleaves : Leaves scope v.exprs (.func name (.func func :: rest)) .name
            { v with exprs := ⟨.func, name⟩ :: v.exprs } :=
          hname ▸ .func (hcalling.trans (decide_eq_true hcall)) rfl
        rw [if_pos hcall, hcalling, decide_eq_true hcall]
        exact .of_ok rfl hleaves
      · rw [if_neg hcall, hcalling, decide_eq_false hcall]
        exact refines_pushVisited makes_pushFunPtr fun _ ↦ ⟨_, rfl, rfl, rfl⟩
    | btnFunc func =>
      refine .step (run_top hexprs) ?_
      by_cases hcall : entry.kind = .call
      · rw [if_pos hcall, hcalling, decide_eq_true hcall]
        exact .of_ok rfl (.btnFunc (hcalling.trans (decide_eq_true hcall)) rfl hhead)
      · rw [if_neg hcall, hcalling, decide_eq_false hcall]
        exact rfl

/-- The return type of a call has been pushed, and the node that is made of the call is known. -/
def Called (s : List Entry) (callee : Node) (args : List (AExpr × ExprType)) (visited : InferType.Visited)
    (definition : Option Declaration) (v : Visitor) : Prop :=
  ∃ e, visited = InferType.setLetVal e ∧ v.exprs = ⟨.expr, ""⟩ :: s ∧ v.exprType = some (makeLetVal e.exprType) ∧
    callNode callee (args.map Prod.fst) e.exprType definition = return .expr e

theorem refines_callMember {object : AExpr} {receiver : ExprType} {name : String} {args : List (AExpr × ExprType)}
    (hexprs : v.exprs = ⟨.expr, ""⟩ :: ⟨.member, name⟩ :: ⟨.call, ""⟩ :: s) (htype : v.exprType = some receiver) :
    Refines .check (InferType.callMember object receiver name (scope name) args)
      (callMember scope (args.map Prod.snd)) v (Called s (.method object) args) := by
  unfold InferType.callMember callMember
  rw [← bind_assoc]
  refine .step (run_popExpr hexprs htype) (.step (run_popName rfl) (refines_check fun func ↦ ?_))
  cases func.ret with
  | none => exact rfl
  | some ret => exact .step (run_pop rfl) (.of_ok rfl ⟨_, rfl, rfl, rfl, rfl⟩)

theorem refines_callName {name : String} {args : List (AExpr × ExprType)}
    (hexprs : v.exprs = ⟨.func, name⟩ :: ⟨.call, ""⟩ :: s) :
    Refines .check (InferType.callName name (scope name) args) (callName scope (args.map Prod.snd)) v
      (Called s .name args) := by
  unfold InferType.callName callName
  rw [← bind_assoc]
  refine .step (run_popName hexprs) (refines_check fun func ↦ ?_)
  cases func.ret with
  | none => exact rfl
  | some ret => exact .step (run_pop rfl) (.of_ok rfl ⟨_, rfl, rfl, rfl, rfl⟩)

theorem refines_callBtn {name : String} {func : BtnFunc} {args : List (AExpr × ExprType)}
    (hexprs : v.exprs = ⟨.btn_func, name⟩ :: ⟨.call, ""⟩ :: s) (hname : (scope name).head? = some (.btnFunc func)) :
    Refines .check (InferType.lookupFunc (.btnFunc func) args) (callBtn scope (args.map Prod.snd)) v
      (Called s .name args) := by
  obtain ⟨symbols, hsymbols⟩ : ∃ symbols, scope name = .btnFunc func :: symbols := List.head?_eq_some_iff.mp hname
  unfold callBtn
  refine .step (run_popName hexprs) ?_
  simp only [hsymbols]
  refine .step (run_pop rfl) (refines_check fun ret ↦ ?_)
  exact .of_ok rfl ⟨_, rfl, rfl, rfl, rfl⟩

theorem refines_callObject {func : AExpr} {etype : ExprType} {args : List (AExpr × ExprType)}
    (hexprs : v.exprs = ⟨.expr, ""⟩ :: ⟨.call, ""⟩ :: s) (htype : v.exprType = some etype) :
    Refines .check (InferType.callObject func etype args) (callObject (args.map Prod.snd)) v
      (Called s (.expr func) args) := by
  unfold InferType.callObject callObject
  refine .step (run_popExpr hexprs htype) (.step (run_pop rfl) ?_)
  cases etype.type with
  | func params ret =>
    refine refines_check fun _ ↦ refines_check fun _ ↦ ?_
    cases ret with
    | none => exact rfl
    | some ret => exact refines_check fun _ ↦ .of_ok rfl ⟨_, rfl, rfl, rfl, rfl⟩
  | _ => exact rfl

theorem refines_lookupFunc {callee : InferType.Visited} {node : Node} {args : List (AExpr × ExprType)}
    (h : Leaves scope (⟨.call, ""⟩ :: s) callee node v) :
    Refines .check (InferType.lookupFunc callee args) (lookupFunc scope (args.map Prod.snd)) v (Called s node args) := by
  have hlookup (v : Visitor) : lookupFunc scope (args.map Prod.snd) v =
      (if memFunExpr .expr v.exprs then callMember scope (args.map Prod.snd)
        else if call .func v.exprs then callName scope (args.map Prod.snd)
        else if call .btn_func v.exprs then callBtn scope (args.map Prod.snd)
        else if call .expr v.exprs then callObject (args.map Prod.snd)
        else throw .stack) v := rfl
  cases h with
  | expr hexprs htype =>
    refine .congr ?_ (refines_callObject hexprs htype)
    rw [hlookup, hexprs]
    cases s <;> rfl
  | func hcalling hexprs =>
    refine .congr ?_ (refines_callName hexprs)
    rw [hlookup, hexprs]
    cases s <;> rfl
  | btnFunc hcalling hexprs hname =>
    refine .congr ?_ (refines_callBtn hexprs hname)
    rw [hlookup, hexprs]
    cases s <;> rfl
  | member hcalling hexprs htype =>
    refine .congr ?_ (refines_callMember hexprs htype)
    rw [hlookup, hexprs]
    rfl

/-- The node of a call is made when its type has been read back. -/
theorem refines_leaveCall {callee : InferType.Visited} {node : Node} {args : List (AExpr × ExprType)}
    (h : Leaves scope (⟨.call, ""⟩ :: s) callee node v) :
    Refines .check (InferType.lookupFunc callee args) (do
      let definition ← lookupFunc scope (args.map Prod.snd)
      let type ← topType
      callNode node (args.map Prod.fst) type definition) v (Leaves scope s) := by
  refine (refines_lookupFunc h).finish fun visited definition v' hcalled ↦ ?_
  obtain ⟨e, rfl, hexprs, htype, hnode⟩ := hcalled
  refine .step (run_topType hexprs htype) ?_
  rw [show (makeLetVal e.exprType).type = e.exprType from rfl, hnode]
  exact .pure (.expr hexprs htype)

theorem refines_lookupField {etype : ExprType} {name : String}
    (hexprs : v.exprs = ⟨.expr, ""⟩ :: ⟨.member, name⟩ :: s) (htype : v.exprType = some etype) :
    Refines .check (InferType.memberType etype.type name) lookupField v fun field found v' ↦
      found = some field ∧ v'.exprs = ⟨.expr, ""⟩ :: s ∧ v'.exprType = some (fieldType etype field.2) := by
  unfold lookupField
  refine .step (run_popExpr hexprs htype) (.step (run_popName rfl) ((refines_lift _).finish ?_))
  rintro _ field _ ⟨rfl, rfl⟩
  have hpush : pushMemberExpr field.2 { v with exprs := s } =
      .ok ((), { v with exprs := ⟨.expr, ""⟩ :: s, exprType := some (fieldType etype field.2) }) := by
    change (recorded { v with exprs := s } >>= fun r ↦ _) = _
    rw [run_recorded (v := { v with exprs := s }) htype]
    rfl
  exact .step hpush (.pure ⟨rfl, rfl, rfl⟩)

theorem refines_leaveMember {object : AExpr} {etype : ExprType} {name : String}
    (hexprs : v.exprs = ⟨.expr, ""⟩ :: ⟨.member, name⟩ :: s) (htype : v.exprType = some etype) :
    Refines .check
      (if calling s then return .member object etype name (scope name) else InferType.lookupMember object etype name)
      (do
        let field ← lookupMember
        memberNode (.expr object) field) v (Leaves scope s) := by
  have hlookup : lookupMember v = (if memVarExpr .expr v.exprs then lookupField else return none) v := rfl
  by_cases hcalling : calling s = true
  · rw [if_pos hcalling]
    have hrun : lookupMember v = .ok (none, v) := by
      rw [hlookup, hexprs]
      cases s with
      | nil => cases hcalling
      | cons entry s =>
        rw [if_neg (by simpa [memVarExpr, calling] using hcalling)]
        rfl
    exact .step hrun (.pure (.member hcalling hexprs htype))
  · rw [if_neg hcalling]
    have hrun : lookupMember v = lookupField v := by
      rw [hlookup, hexprs]
      cases s with
      | nil => rfl
      | cons entry s => rw [if_pos (by simpa [memVarExpr, calling] using hcalling)]
    refine .bind (.congr hrun (refines_lookupField hexprs htype)) fun field found v' hfound ↦ ?_
    obtain ⟨rfl, hexprs', htype'⟩ := hfound
    exact .pure (.expr hexprs' htype')

/-! ## Sub-expressions -/

section

variable {expr : Expr} (hexpr : Disciplined scope expr)

include hexpr

theorem refines_noCheck (type : Option Ty) : Refines .check
    (InferType.visitExprNoCheck (InferType.visit expr false type) type) (visitExprNoCheck (visit scope expr) type) v
    (Kept v) := by
  have hvisit : Refines .check (InferType.visit expr false type) (visit scope expr)
      { v with exprs := ⟨.subexpr, ""⟩ :: v.exprs, expected := type } (Leaves scope (⟨.subexpr, ""⟩ :: v.exprs)) :=
    hexpr { v with exprs := ⟨.subexpr, ""⟩ :: v.exprs, expected := type } ⟨_, rfl, nofun⟩
  unfold InferType.visitExprNoCheck visitExprNoCheck
  refine .step rfl (.step rfl (.step rfl (hvisit.bind fun visited node v' hleaves ↦ .step rfl ?_)))
  cases hleaves with
  | expr hexprs htype =>
    refine .step (run_leaveSubExpr ?_ ?_) (.pure ⟨rfl, rfl, rfl⟩)
    · exact hexprs
    · exact htype
  | func hcalling _ | btnFunc hcalling _ _ | member hcalling _ _ => cases hcalling

theorem refines_noCheckBool (type : Ty) : Refines .check
    (InferType.visitExprNoCheckBool (InferType.visit expr false (some type)) type)
    (visitExprNoCheckBool (visit scope expr) type) v (Kept v) := by
  unfold InferType.visitExprNoCheckBool visitExprNoCheckBool
  refine (refines_noCheck hexpr (some type)).bind fun _ r v' hkept ↦ ?_
  obtain ⟨rfl, hrest⟩ := hkept
  obtain ⟨e, etype⟩ := r
  dsimp only
  split
  · exact .pure ⟨rfl, hrest⟩
  · exact .pure ⟨rfl, hrest⟩

theorem refines_check' (type : Option Ty) : Refines .check
    (InferType.visitExprCheck (InferType.visit expr false type) type) (visitExprCheck (visit scope expr) type) v
    (Kept v) := by
  unfold InferType.visitExprCheck visitExprCheck
  refine (refines_noCheck hexpr type).bind fun _ r v' hkept ↦ ?_
  obtain ⟨rfl, hrest⟩ := hkept
  obtain ⟨e, etype⟩ := r
  cases type with
  | none => exact .pure ⟨rfl, hrest⟩
  | some type =>
    dsimp only
    split
    · exact .pure ⟨rfl, hrest⟩
    · split
      · exact .pure ⟨rfl, hrest⟩
      · exact rfl

end

theorem refines_fresh {c : Check α} {m : Visit α} (h : Refines .check c m {} (Kept {})) :
    Refines .check c (fresh m) v fun b a v' ↦ a = b ∧ v' = v := by
  cases c with
  | error stop =>
    change (fun r ↦ (r.1, v)) <$> m {} = _
    rw [show m {} = .error (.check stop) from h]
    rfl
  | ok b =>
    obtain ⟨a, v', hm, rfl, -⟩ := h
    have hrun : fresh m v = .ok (a, v) := by
      change (fun r ↦ (r.1, v)) <$> m {} = _
      rw [hm]
      rfl
    exact .of_ok hrun ⟨rfl, rfl⟩

/-! ## Every expression -/

mutual

theorem disciplined : (expr : Expr) → Found scope expr → Disciplined scope expr
  | .binary lhs oper rhs, ⟨hlhs, hrhs⟩, v, hstanding => by
    rw [InferType.visit, visit]
    refine (refines_check' (disciplined lhs hlhs) _).bind fun _ l v₁ hl ↦ ?_
    obtain ⟨rfl, hl, -⟩ := hl
    refine (refines_check' (disciplined rhs hrhs) _).bind fun _ r v₂ hr ↦ ?_
    obtain ⟨rfl, hr, -⟩ := hr
    exact refines_leave makes_leaveBinary hstanding (hr.trans hl)
  | .unary oper expr, hfound, v, hstanding => by
    rw [InferType.visit, visit]
    refine (refines_check' (disciplined expr hfound) _).bind fun _ e v₁ hkept ↦ ?_
    obtain ⟨rfl, hexprs, -⟩ := hkept
    exact refines_leave makes_leaveUnary hstanding hexprs
  | .call func args, ⟨hfunc, hargs⟩, v, hstanding => by
    rw [InferType.visit, visit]
    have hcallee : Refines .check (InferType.visit func true v.expected) (visit scope func)
        { v with exprs := ⟨.call, ""⟩ :: v.exprs } (Leaves scope (⟨.call, ""⟩ :: v.exprs)) :=
      disciplined func hfunc { v with exprs := ⟨.call, ""⟩ :: v.exprs } ⟨_, rfl, nofun⟩
    refine .step rfl (hcallee.bind fun callee node v₁ hleaves ↦ ?_)
    refine (refines_argTypes args hargs).bind fun _ r v₂ hr ↦ ?_
    obtain ⟨rfl, rfl⟩ := hr
    exact refines_leaveCall hleaves
  | .member object name symbols, ⟨hobject, hsymbols⟩, v, hstanding => by
    rw [InferType.visit, visit, hsymbols, ← bind_assoc]
    have hvisit : Refines .check (InferType.visit object false v.expected) (visit scope object)
        { v with exprs := ⟨.member, name⟩ :: v.exprs } (Leaves scope (⟨.member, name⟩ :: v.exprs)) :=
      disciplined object hobject { v with exprs := ⟨.member, name⟩ :: v.exprs } ⟨_, rfl, nofun⟩
    rw [bind_assoc]
    refine .step rfl (hvisit.bind fun visited node v₁ hleaves ↦ ?_)
    cases hleaves with
    | expr hexprs htype => exact refines_leaveMember hexprs htype
    | func hcalling _ | btnFunc hcalling _ _ | member hcalling _ _ => cases hcalling
  | .subscript object index, ⟨hobject, hindex⟩, v, hstanding => by
    rw [InferType.visit, visit]
    refine (refines_check' (disciplined object hobject) _).bind fun _ o v₁ ho ↦ ?_
    obtain ⟨rfl, ho, -⟩ := ho
    refine (refines_check' (disciplined index hindex) _).bind fun _ i v₂ hi ↦ ?_
    obtain ⟨rfl, hi, -⟩ := hi
    exact refines_leave makes_leaveSubscript hstanding (hi.trans ho)
  | .ident name symbols, hsymbols, v, hstanding => by
    rw [InferType.visit, visit]
    exact .step rfl (refines_lookupIdent (v := { v with expType := v.expected }) hsymbols hstanding)
  | .ternary cond troo fols, ⟨hcond, htroo, hfols⟩, v, hstanding => by
    rw [InferType.visit, visit]
    refine (refines_check' (disciplined cond hcond) _).bind fun _ c v₁ hc ↦ ?_
    obtain ⟨rfl, hc, hexpected⟩ := hc
    refine .step rfl ?_
    rw [← hexpected]
    refine (refines_check' (disciplined troo htroo) _).bind fun _ t v₂ ht ↦ ?_
    obtain ⟨rfl, ht, hexpected'⟩ := ht
    refine .step rfl ?_
    rw [← hexpected']
    refine (refines_check' (disciplined fols hfols) _).bind fun _ f v₃ hf ↦ ?_
    obtain ⟨rfl, hf, -⟩ := hf
    exact refines_leave makes_leaveTernary hstanding (hf.trans (ht.trans hc))
  | .make type expr, hfound, v, hstanding => by
    rw [InferType.visit, visit]
    refine refines_check fun _ ↦ ?_
    refine (refines_noCheckBool (disciplined expr hfound) _).bind fun _ e v₁ hkept ↦ ?_
    obtain ⟨rfl, hexprs, -⟩ := hkept
    exact refines_leave makes_leaveMake hstanding hexprs
  | .string _, _, v, hstanding | .number _, _, v, hstanding | .bool _, _, v, hstanding => by
    rw [InferType.visit, visit]
    exact refines_leave makes_setLetVal hstanding rfl
  | .char [_], _, v, hstanding => by
    rw [InferType.visit, visit]
    exact refines_leave makes_setLetVal hstanding rfl
  | .char [], _, v, _ | .char (_ :: _ :: _), _, v, _ => rfl
  | .array [], _, v, hstanding => by
    rw [InferType.visit, visit]
    exact .step rfl (refines_check fun _ ↦ refines_leave makes_leaveEmptyArray hstanding rfl)
  | .array (expr :: exprs), ⟨hexpr, hexprs⟩, v, hstanding => by
    rw [InferType.visit, visit]
    refine .step rfl (refines_check fun elem ↦ ?_)
    refine (refines_check' (disciplined expr hexpr) _).bind fun _ r v₁ hr ↦ ?_
    obtain ⟨rfl, hr, -⟩ := hr
    refine (refines_visitElems elem r.2.type exprs hexprs).bind fun _ es v₂ hes ↦ ?_
    obtain ⟨rfl, hes, -⟩ := hes
    exact refines_leave makes_leaveArray hstanding (hes.trans hr)
  | .initList [], _, v, hstanding => by
    rw [visit]
    refine .step rfl ?_
    cases v.expected with
    | none =>
      rw [InferType.visit]
      exact rfl
    | some type =>
      rw [InferType.visit]
      exact .step rfl (refines_leave makes_setLetVal hstanding rfl)
  | .initList (expr :: exprs), hfound, v, hstanding => by
    rw [visit]
    refine .step rfl ?_
    cases v.expected with
    | none =>
      rw [InferType.visit]
      exact rfl
    | some type =>
      rw [InferType.visit]
      refine refines_check fun fields ↦ refines_check fun _ ↦ refines_check fun _ ↦ ?_
      refine (refines_visitFields (expr :: exprs) hfound fields).bind fun _ es v₁ hes ↦ ?_
      obtain ⟨rfl, hes, -⟩ := hes
      exact .step rfl (refines_leave makes_setLetVal hstanding hes)
  | .lambda lam params ret, _, v, hstanding => by
    rw [InferType.visit, visit]
    exact refines_check fun _ ↦ refines_check fun _ ↦ refines_leave makes_setLetVal hstanding rfl
  termination_by structural expr => expr

theorem refines_argTypes : (args : List Expr) → AllFound scope args →
    ∀ {v : Visitor}, Refines .check (InferType.argTypes args) (argTypes scope args) v fun b a v' ↦ a = b ∧ v' = v
  | [], _, v => .pure ⟨rfl, rfl⟩
  | arg :: args, ⟨harg, hargs⟩, v => by
    rw [InferType.argTypes, argTypes]
    refine (refines_fresh (refines_check' (disciplined arg harg) none)).bind fun _ a v₁ ha ↦ ?_
    obtain ⟨rfl, rfl⟩ := ha
    refine (refines_argTypes args hargs).bind fun _ as v₂ has ↦ ?_
    obtain ⟨rfl, rfl⟩ := has
    exact .pure ⟨rfl, rfl⟩
  termination_by structural args => args

theorem refines_visitElems (elem : Option Ty) (type : Ty) : (exprs : List Expr) → AllFound scope exprs →
    ∀ {v : Visitor}, Refines .check (InferType.visitElems elem type exprs) (visitElems scope elem type exprs) v (Kept v)
  | [], _, v => .pure ⟨rfl, rfl, rfl⟩
  | expr :: exprs, ⟨hexpr, hexprs⟩, v => by
    rw [InferType.visitElems, visitElems]
    refine (refines_noCheck (disciplined expr hexpr) elem).bind fun _ r v₁ hr ↦ ?_
    obtain ⟨rfl, hr, hexpected⟩ := hr
    refine refines_check fun _ ↦ ?_
    refine (refines_visitElems elem type exprs hexprs).bind fun _ es v₂ hes ↦ ?_
    obtain ⟨rfl, hes, hexpected'⟩ := hes
    exact .pure ⟨rfl, hes.trans hr, hexpected'.trans hexpected⟩
  termination_by structural exprs => exprs

theorem refines_visitFields : (exprs : List Expr) → AllFound scope exprs → (fields : List (String × Ty)) →
    ∀ {v : Visitor}, Refines .check (InferType.visitFields exprs fields) (visitFields scope exprs fields) v (Kept v)
  | [], _, fields, v => .pure ⟨rfl, rfl, rfl⟩
  | expr :: exprs, _, [], v => .pure ⟨rfl, rfl, rfl⟩
  | expr :: exprs, ⟨hexpr, hexprs⟩, (name, type) :: fields, v => by
    rw [InferType.visitFields, visitFields]
    refine (refines_check' (disciplined expr hexpr) _).bind fun _ r v₁ hr ↦ ?_
    obtain ⟨rfl, hr, hexpected⟩ := hr
    refine (refines_visitFields exprs hexprs fields).bind fun _ es v₂ hes ↦ ?_
    obtain ⟨rfl, hes, hexpected'⟩ := hes
    exact .pure ⟨rfl, hes.trans hr, hexpected'.trans hexpected⟩
  termination_by structural exprs => exprs

end

/-- A function and a variable are in scope. -/
def twoNames : String → List Symbol
  | "f" => [.func { node := 0, params := [(.val, .btn .sint)], ret := some (.btn .sint) }]
  | "x" => [.object 1 (makeVarVal (.btn .sint)) none]
  | _ => []

/-- `f(f(x))`. -/
def nestedCall : Expr :=
  .call (.ident "f" (twoNames "f")) [.call (.ident "f" (twoNames "f")) [.ident "x" (twoNames "x")]]

end Stela.Semantic.ExprStack
