import Stela.Semantic.Conversions

/-!
# What the analysis of expressions establishes

`Typed` says of an analysed expression which entry the visitor pushes for it, and what it has checked on the
way: the types and the mutability of operands and arguments. It is a reading of the tree; the visitor is sound
for it. Two parameters carry what is known of the names and of the written types through the analysis.
-/

namespace Stela.Semantic.ExprTyping

open Stela.Syntax Stela.CodeGen InferType Conversions Library.Except

section Typing

-- What is known of the symbols that names are bound to, and of the types that are written or expected.
variable (known : Symbol → Prop) (wanted : Ty → Prop)

/-- What a check against an expected type leaves of the entry of an expression. -/
def Checked (typed : ExprType → Prop) : Option Ty → ExprType → Prop
  | none, etype => typed etype
  | some type, etype => ∃ etype', typed etype' ∧
      (compareTypes type etype'.type = true ∧ etype = etype' ∨
        convertsToBool type etype'.type = true ∧ etype = makeLetVal boolType)

def boolOperand (bool : Bool) : Option Ty :=
  if bool then some boolType else none

mutual

def Typed : AExpr → ExprType → Prop
  | .binary info lhs oper rhs, etype =>
      etype = makeLetVal info.exprType ∧
      ∃ ltype rtype, Checked (Typed lhs) (boolOperand oper.boolOp) ltype ∧
        Checked (Typed rhs) (boolOperand oper.boolOp) rtype ∧
        (oper.compOp = true → validComp ltype.type = .ok () ∧ info.exprType = boolType) ∧
        (oper.compOp = false → ∃ value, info.exprType.concreteType = .btn value)
  | .unary info oper expr, etype =>
      etype = makeLetVal info.exprType ∧
      ∃ otype, Checked (Typed expr) (boolOperand oper.boolOp) otype ∧ info.exprType = otype.type ∧
        ∃ value, info.exprType.concreteType = .btn value
  | .callPtr info func args, etype =>
      etype = makeLetVal info.exprType ∧
      ∃ ftype params, Typed func ftype ∧ ftype.type = .func params (some info.exprType) ∧
        ∃ types, TypedAll args types ∧ compatParams (params.map convert) types = true
  | .callFunc info func args, etype =>
      etype = makeLetVal info.exprType ∧ known (.func func) ∧ func.ret = some info.exprType ∧
      ∃ types, TypedAll args types ∧ compatParams (func.params.map convert) types = true
  | .callMethod info func self args, etype =>
      etype = makeLetVal info.exprType ∧ known (.func func) ∧ func.ret = some info.exprType ∧
      ∃ receiver types, Typed self receiver ∧ compatReceiver (func.receiver.map convert) (some receiver) = true ∧
        TypedAll args types ∧ compatParams (func.params.map convert) types = true
  | .callBtn info func args, etype =>
      etype = makeLetVal info.exprType ∧
      ∃ types, TypedAll args types ∧ callBtnFunc func types = .ok info.exprType
  | .member info object index, etype =>
      ∃ otype name, Typed object otype ∧ memberType otype.type name = .ok (index, info.exprType) ∧
        etype = fieldType otype info.exprType
  | .subscript info object index, etype =>
      ∃ otype itype elem, Typed object otype ∧ Typed index itype ∧ otype.type.concreteType = .array elem ∧
        info.exprType = elem.lookupStrongType ∧ etype = fieldType otype info.exprType
  | .ident info definition captureIndex, etype =>
      ∃ otype, known (.object definition otype captureIndex) ∧ info.exprType = otype.type ∧
        etype = if captureIndex.isSome then makeVarVal otype.type else otype
  | .funcRef info func, etype =>
      etype = makeLetVal info.exprType ∧ known (.func func) ∧ addressOfFunc func = .ok info.exprType
  | .ternary info cond troo fols, etype =>
      ∃ ctype ttype ftype expected, Checked (Typed cond) (some boolType) ctype ∧
        Checked (Typed troo) expected ttype ∧ Checked (Typed fols) expected ftype ∧
        info.exprType = ttype.type ∧
        etype = ⟨info.exprType, commonMut ttype.mut_ ftype.mut_, commonRef ttype.ref ftype.ref⟩
  | .make info expr _, etype =>
      etype = makeLetVal info.exprType ∧ wanted info.exprType ∧ ∃ otype, Typed expr otype
  | .string info _, etype => etype = makeLetVal info.exprType ∧ info.exprType = stringType
  | .char info _, etype => etype = makeLetVal info.exprType ∧ info.exprType = .btn .char
  | .number info value, etype =>
      etype = makeLetVal info.exprType ∧ info.exprType.concreteType = .btn (numberType value)
  | .bool info _, etype => etype = makeLetVal info.exprType ∧ info.exprType = boolType
  | .array info exprs, etype =>
      etype = makeLetVal info.exprType ∧ ∃ types elem, TypedAll exprs types ∧ info.exprType = .array elem ∧
        (wanted elem ∨ ∃ etype ∈ types, elem = etype.type.lookupStrongType)
  | .initList info exprs, etype =>
      etype = makeLetVal info.exprType ∧ wanted info.exprType ∧ ∃ types, TypedAll exprs types
  | .lambda info _, etype =>
      etype = makeLetVal info.exprType ∧ wanted info.exprType ∧ ∃ params ret, info.exprType = .func params (some ret)

def TypedAll : List AExpr → List ExprType → Prop
  | [], types => types = []
  | expr :: exprs, types => ∃ etype types', types = etype :: types' ∧ Typed expr etype ∧ TypedAll exprs types'

end

mutual

/-- The names of an expression are bound to known symbols, and its types are wanted. -/
def Mentions : Expr → Prop
  | .binary lhs _ rhs => Mentions lhs ∧ Mentions rhs
  | .unary _ expr => Mentions expr
  | .call func args => Mentions func ∧ MentionsAll args
  | .member object _ symbols => Mentions object ∧ ∀ symbol ∈ symbols, known symbol
  | .subscript object index => Mentions object ∧ Mentions index
  | .ident _ symbols => ∀ symbol ∈ symbols, known symbol
  | .ternary cond troo fols => Mentions cond ∧ Mentions troo ∧ Mentions fols
  | .make type expr => wanted type ∧ Mentions expr
  | .array exprs | .initList exprs => MentionsAll exprs
  | .lambda _ params ret => wanted (.func params (some ret))
  | .string _ | .char _ | .number _ | .bool _ => True

def MentionsAll : List Expr → Prop
  | [] => True
  | expr :: exprs => Mentions expr ∧ MentionsAll exprs

end

/-- The expected types of sub-expressions are wanted if that of the whole is. -/
structure Passes : Prop where
  bool : wanted boolType
  elem : ∀ {type elem : Ty}, wanted type → type.concreteType = .array elem → wanted elem.lookupStrongType
  field : ∀ {type : Ty} {fields : List (String × Ty)}, wanted type → type.concreteType = .struct fields →
    ∀ field ∈ fields, wanted field.2

def VisitedTyped : Visited → Prop
  | .expr expr etype => Typed known wanted expr etype
  | .member object receiver _ symbols => Typed known wanted object receiver ∧ ∀ symbol ∈ symbols, known symbol
  | .func _ symbols => ∀ symbol ∈ symbols, known symbol
  | .btnFunc _ => True

@[simp] theorem typed_setExpected (type : Option Ty) (expr : AExpr) :
    Typed known wanted (expr.setExpected type) = Typed known wanted expr := by
  funext etype
  cases expr <;> rfl

end Typing

/-! ## Sub-expressions -/

section Soundness

variable {known : Symbol → Prop} {wanted : Ty → Prop}

theorem typed_exprType : {expr : AExpr} → {etype : ExprType} → Typed known wanted expr etype →
    etype.type = expr.exprType
  | .binary .., _, h | .unary .., _, h | .callPtr .., _, h | .callFunc .., _, h | .callMethod .., _, h
  | .callBtn .., _, h | .funcRef .., _, h | .make .., _, h | .string .., _, h | .char .., _, h | .number .., _, h
  | .bool .., _, h | .array .., _, h | .initList .., _, h | .lambda .., _, h => by
    rw [h.1]
    rfl
  | .member .., _, h => by
    obtain ⟨otype, name, -, -, rfl⟩ := h
    rfl
  | .subscript .., _, h => by
    obtain ⟨otype, itype, elem, -, -, -, -, rfl⟩ := h
    rfl
  | .ident .., _, h => by
    obtain ⟨otype, -, htype, rfl⟩ := h
    split <;> exact htype.symm
  | .ternary .., _, h => by
    obtain ⟨ctype, ttype, ftype, expected, -, -, -, -, rfl⟩ := h
    rfl

theorem typed_of_noCheck {visited : Check Visited} {type : Option Ty} {expr : AExpr} {etype : ExprType}
    (hvisited : ∀ v, visited = .ok v → VisitedTyped known wanted v)
    (h : visitExprNoCheck visited type = .ok (expr, etype)) : Typed known wanted expr etype := by
  simp only [visitExprNoCheck, bind_eq_ok] at h
  obtain ⟨v, hv, ⟨expr', etype'⟩, hleave, h⟩ := h
  cases h
  obtain rfl := leaveSubExpr_eq_ok.mp hleave
  rw [typed_setExpected]
  exact hvisited _ hv

theorem checked_of_check {visited : Check Visited} {type : Option Ty} {expr : AExpr} {etype : ExprType}
    (hvisited : ∀ v, visited = .ok v → VisitedTyped known wanted v)
    (h : visitExprCheck visited type = .ok (expr, etype)) : Checked (Typed known wanted expr) type etype := by
  simp only [visitExprCheck, bind_eq_ok] at h
  obtain ⟨⟨expr', etype'⟩, hcheck, h⟩ := h
  have htyped := typed_of_noCheck hvisited hcheck
  cases type with
  | none =>
    cases h
    exact htyped
  | some type =>
    simp only at h
    split at h
    · rename_i hcompare
      cases h
      exact ⟨etype, htyped, .inl ⟨hcompare, rfl⟩⟩
    · split at h
      · rename_i hconverts
        cases h
        exact ⟨etype', htyped, .inr ⟨hconverts, rfl⟩⟩
      · cases h

theorem exists_typed_of_checked {expr : AExpr} {type : Option Ty} {etype : ExprType}
    (h : Checked (Typed known wanted expr) type etype) :
    ∃ etype', Typed known wanted expr etype' ∧ (etype = etype' ∨ etype = makeLetVal boolType) := by
  cases type with
  | none => exact ⟨etype, h, .inl rfl⟩
  | some type =>
    obtain ⟨etype', htyped, ⟨-, h⟩ | ⟨-, h⟩⟩ := h
    · exact ⟨etype', htyped, .inl h⟩
    · exact ⟨etype', htyped, .inr h⟩

/-! ## The nodes -/

theorem binaryType_eq_ok {oper : BinOp} {lhs rhs type : Ty} (h : binaryType oper lhs rhs = .ok type) :
    (oper.compOp = true → validComp lhs = .ok () ∧ type = boolType) ∧
      (oper.compOp = false → ∃ value, type.concreteType = .btn value) := by
  unfold binaryType at h
  split at h
  · rename_i hcomp
    obtain ⟨_, hvalid, h⟩ := bind_eq_ok.mp h
    cases h
    exact ⟨fun _ ↦ ⟨hvalid, rfl⟩, fun hc ↦ by simp [hcomp] at hc⟩
  · rename_i hcomp
    refine ⟨fun hc ↦ absurd hc hcomp, fun _ ↦ ?_⟩
    split at h
    · split at h
      · cases h
        exact ⟨_, rfl⟩
      · cases h
    · cases h

theorem leaveBinary_typed {lhs rhs : AExpr × ExprType} {oper : BinOp} {v : Visited}
    (hlhs : Checked (Typed known wanted lhs.1) (boolOperand oper.boolOp) lhs.2)
    (hrhs : Checked (Typed known wanted rhs.1) (boolOperand oper.boolOp) rhs.2)
    (h : leaveBinary lhs oper rhs = .ok v) : VisitedTyped known wanted v := by
  simp only [leaveBinary, bind_eq_ok] at h
  obtain ⟨_, -, type, htype, h⟩ := h
  cases h
  obtain ⟨hcomp, hother⟩ := binaryType_eq_ok htype
  exact ⟨rfl, lhs.2, rhs.2, hlhs, hrhs, hcomp, hother⟩

theorem leaveUnary_typed {expr : AExpr × ExprType} {oper : UnOp} {v : Visited}
    (hexpr : Checked (Typed known wanted expr.1) (boolOperand oper.boolOp) expr.2)
    (h : leaveUnary oper expr = .ok v) : VisitedTyped known wanted v := by
  unfold leaveUnary at h
  split at h
  · rename_i value hvalue
    split at h
    · cases h
      exact ⟨rfl, expr.2, hexpr, rfl, value, hvalue⟩
    · cases h
  · cases h

theorem leaveSubscript_typed {object index : AExpr × ExprType} {v : Visited}
    (h : leaveSubscript object index = .ok v) (hobject : Typed known wanted object.1 object.2)
    (hindex : Typed known wanted index.1 index.2) : VisitedTyped known wanted v := by
  unfold leaveSubscript at h
  split at h
  · split at h
    · split at h
      · rename_i elem helem
        cases h
        exact ⟨object.2, index.2, elem, hobject, hindex, helem, rfl, rfl⟩
      · cases h
    · cases h
  · cases h

theorem leaveTernary_typed {cond troo fols : AExpr × ExprType} {expected : Option Ty} {v : Visited}
    (hcond : Checked (Typed known wanted cond.1) (some boolType) cond.2)
    (htroo : Checked (Typed known wanted troo.1) expected troo.2)
    (hfols : Checked (Typed known wanted fols.1) expected fols.2)
    (h : leaveTernary cond troo fols = .ok v) : VisitedTyped known wanted v := by
  simp only [leaveTernary, bind_eq_ok] at h
  obtain ⟨_, -, h⟩ := h
  cases h
  exact ⟨cond.2, troo.2, fols.2, expected, hcond, htroo, hfols, rfl, rfl⟩

theorem leaveMake_typed {type : Ty} {expr : AExpr × ExprType} {v : Visited} (hwanted : wanted type)
    (hexpr : ∃ otype, Typed known wanted expr.1 otype) (h : leaveMake type expr = .ok v) :
    VisitedTyped known wanted v := by
  unfold leaveMake at h
  split at h
  · cases h
    exact ⟨rfl, hwanted, hexpr⟩
  · split at h
    · cases h
      exact ⟨rfl, hwanted, hexpr⟩
    · cases h

theorem findOverload_typed {name : String} {expType : Ty} : {symbols : List Symbol} → {v : Visited} →
    (∀ symbol ∈ symbols, known symbol) → findOverload name expType symbols = .ok v → VisitedTyped known wanted v
  | [], _, _, h => by cases h
  | .func func :: symbols, v, hknown, h => by
    simp only [findOverload, bind_eq_ok] at h
    obtain ⟨funcType, htype, h⟩ := h
    split at h
    · cases h
      exact ⟨rfl, hknown _ List.mem_cons_self, htype⟩
    · exact findOverload_typed (fun symbol hmem ↦ hknown symbol (List.mem_cons_of_mem _ hmem)) h
  | .object _ _ _ :: _, _, _, h | .btnFunc _ :: _, _, _, h | .typeAlias :: _, _, _, h => by cases h

theorem pushFunPtr_typed {name : String} {symbols : List Symbol} {expType : Option Ty} {v : Visited}
    (hknown : ∀ symbol ∈ symbols, known symbol) (h : pushFunPtr name symbols expType = .ok v) :
    VisitedTyped known wanted v := by
  unfold pushFunPtr at h
  split at h
  · simp only [bind_eq_ok] at h
    obtain ⟨funcType, htype, _, -, h⟩ := h
    cases h
    exact ⟨rfl, hknown _ List.mem_cons_self, htype⟩
  · cases h
  · exact findOverload_typed hknown h

theorem lookupIdent_typed {name : String} {symbols : List Symbol} {call : Bool} {expected : Option Ty} {v : Visited}
    (hknown : ∀ symbol ∈ symbols, known symbol) (h : lookupIdent name symbols call expected = .ok v) :
    VisitedTyped known wanted v := by
  unfold lookupIdent at h
  split at h
  · cases h
  · cases h
    exact ⟨_, hknown _ List.mem_cons_self, rfl, rfl⟩
  · split at h
    · cases h
      exact hknown
    · exact pushFunPtr_typed hknown h
  · split at h
    · cases h
      trivial
    · cases h
  · cases h

/-! ## Calls -/

theorem lookupFun_typed {name : String} {receiver : Option ExprType} {types : List ExprType} :
    {symbols : List Symbol} → {func : FuncSym} → (∀ symbol ∈ symbols, known symbol) →
    lookupFun name receiver types symbols = .ok func →
      known (.func func) ∧ compatReceiver (func.receiver.map convert) receiver = true ∧
        compatParams (func.params.map convert) types = true
  | [], _, _, h | .object _ _ _ :: _, _, _, h | .btnFunc _ :: _, _, _, h | .typeAlias :: _, _, _, h => by cases h
  | .func func :: symbols, _, hknown, h => by
    rw [lookupFun] at h
    split at h
    · rename_i hcompat
      cases h
      exact ⟨hknown _ List.mem_cons_self, hcompat⟩
    · exact lookupFun_typed (fun symbol hmem ↦ hknown symbol (List.mem_cons_of_mem _ hmem)) h

/-- The arguments of a call with their entries. -/
def ArgsTyped (known : Symbol → Prop) (wanted : Ty → Prop) (args : List (AExpr × ExprType)) : Prop :=
  TypedAll known wanted (args.map Prod.fst) (args.map Prod.snd)

theorem callMember_typed {object : AExpr} {receiver : ExprType} {name : String} {symbols : List Symbol}
    {args : List (AExpr × ExprType)} {v : Visited} (hobject : Typed known wanted object receiver)
    (hknown : ∀ symbol ∈ symbols, known symbol) (hargs : ArgsTyped known wanted args)
    (h : callMember object receiver name symbols args = .ok v) : VisitedTyped known wanted v := by
  simp only [callMember, bind_eq_ok] at h
  obtain ⟨_, -, func, hfunc, h⟩ := h
  obtain ⟨hfun, hreceiver, hparams⟩ := lookupFun_typed hknown hfunc
  split at h
  · cases h
  · rename_i ret hret
    cases h
    exact ⟨rfl, hfun, hret, receiver, args.map Prod.snd, hobject, hreceiver, hargs, hparams⟩

theorem callName_typed {name : String} {symbols : List Symbol} {args : List (AExpr × ExprType)} {v : Visited}
    (hknown : ∀ symbol ∈ symbols, known symbol) (hargs : ArgsTyped known wanted args)
    (h : callName name symbols args = .ok v) : VisitedTyped known wanted v := by
  simp only [callName, bind_eq_ok] at h
  obtain ⟨_, -, func, hfunc, h⟩ := h
  obtain ⟨hfun, -, hparams⟩ := lookupFun_typed hknown hfunc
  split at h
  · cases h
  · rename_i ret hret
    cases h
    exact ⟨rfl, hfun, hret, args.map Prod.snd, hargs, hparams⟩

theorem callObject_typed {func : AExpr} {etype : ExprType} {args : List (AExpr × ExprType)} {v : Visited}
    (hfunc : Typed known wanted func etype) (hargs : ArgsTyped known wanted args)
    (h : callObject func etype args = .ok v) : VisitedTyped known wanted v := by
  unfold callObject at h
  split at h
  · rename_i params ret htype
    simp only [bind_eq_ok, require_eq_ok] at h
    obtain ⟨_, -, _, hcompat, h⟩ := h
    split at h
    · cases h
    · obtain ⟨_, -, h⟩ := bind_eq_ok.mp h
      cases h
      exact ⟨rfl, etype, params, hfunc, htype, args.map Prod.snd, hargs, hcompat⟩
  · cases h

theorem lookupFunc_typed {callee v : Visited} {args : List (AExpr × ExprType)}
    (hcallee : VisitedTyped known wanted callee) (hargs : ArgsTyped known wanted args)
    (h : lookupFunc callee args = .ok v) : VisitedTyped known wanted v := by
  cases callee with
  | expr func etype => exact callObject_typed hcallee hargs h
  | func name symbols => exact callName_typed hcallee hargs h
  | btnFunc func =>
    simp only [lookupFunc, bind_eq_ok] at h
    obtain ⟨ret, hret, h⟩ := h
    cases h
    exact ⟨rfl, args.map Prod.snd, hargs, hret⟩
  | member object receiver name symbols => exact callMember_typed hcallee.1 hcallee.2 hargs h

/-! ## The visitor -/

theorem none_wanted : ∀ type ∈ (none : Option Ty), wanted type := by
  intro type htype
  cases htype

theorem boolOperand_wanted (hpasses : Passes wanted) (bool : Bool) : ∀ type ∈ boolOperand bool, wanted type := by
  intro type htype
  cases bool with
  | false => cases htype
  | true =>
    cases htype
    exact hpasses.bool

theorem expectedElem_wanted (hpasses : Passes wanted) {expected elem : Option Ty}
    (hexpected : ∀ type ∈ expected, wanted type) (h : expectedElem expected = .ok elem) : ∀ type ∈ elem, wanted type := by
  cases expected with
  | none =>
    cases h
    nofun
  | some type =>
    simp only [expectedElem] at h
    split at h
    · rename_i elem helem
      cases h
      intro type' htype'
      cases htype'
      exact hpasses.elem (hexpected type rfl) helem
    · cases h

theorem structFields_wanted (hpasses : Passes wanted) {type : Ty} {fields : List (String × Ty)} (htype : wanted type)
    (h : structFields type = .ok fields) : ∀ field ∈ fields, wanted field.2 := by
  unfold structFields at h
  split at h
  · rename_i hfields
    cases h
    exact hpasses.field htype hfields
  · cases h

theorem exists_typed_of_noCheckBool {visited : Check Visited} {type : Ty} {expr : AExpr × ExprType}
    (hvisited : ∀ v, visited = .ok v → VisitedTyped known wanted v)
    (h : visitExprNoCheckBool visited type = .ok expr) : ∃ otype, Typed known wanted expr.1 otype := by
  simp only [visitExprNoCheckBool, bind_eq_ok] at h
  obtain ⟨⟨expr', etype'⟩, hcheck, h⟩ := h
  have htyped := typed_of_noCheck hvisited hcheck
  simp only at h
  split at h <;> cases h <;> exact ⟨etype', htyped⟩

/-- The type of the elements of an array literal is that of the first, or was wanted. -/
theorem leaveArray_typed (hpasses : Passes wanted) {expr : AExpr} {exprs : List AExpr} {elem : Option Ty}
    {etype : ExprType} {v : Visited} (hexpr : Checked (Typed known wanted expr) elem etype)
    (hexprs : ∃ types, TypedAll known wanted exprs types) (h : leaveArray (expr :: exprs) etype.type = .ok v) :
    VisitedTyped known wanted v := by
  simp only [leaveArray, bind_eq_ok] at h
  obtain ⟨_, -, h⟩ := h
  cases h
  obtain ⟨etype', htyped, heq⟩ := exists_typed_of_checked hexpr
  obtain ⟨types, htypes⟩ := hexprs
  refine ⟨rfl, etype' :: types, etype.type.lookupStrongType, ⟨etype', types, rfl, htyped, htypes⟩, rfl, ?_⟩
  rcases heq with rfl | rfl
  · exact .inr ⟨etype, List.mem_cons_self, rfl⟩
  · exact .inl hpasses.bool

mutual

/-- The visitor is sound: whatever it leaves on the expression stack is typed. -/
theorem visit_typed (hpasses : Passes wanted) : (expr : Expr) → (call : Bool) → (expected : Option Ty) →
    (v : Visited) → Mentions known wanted expr → (∀ type ∈ expected, wanted type) →
    visit expr call expected = .ok v → VisitedTyped known wanted v
  | .binary lhs oper rhs, _, _, v, hm, _, h => by
    simp only [visit, bind_eq_ok] at h
    obtain ⟨⟨lhs', ltype⟩, hlhs, ⟨rhs', rtype⟩, hrhs, h⟩ := h
    have hbool := boolOperand_wanted hpasses oper.boolOp
    exact leaveBinary_typed
      (checked_of_check (fun v ↦ visit_typed hpasses lhs _ _ v hm.1 hbool) hlhs)
      (checked_of_check (fun v ↦ visit_typed hpasses rhs _ _ v hm.2 hbool) hrhs) h
  | .unary oper expr, _, _, v, hm, _, h => by
    simp only [visit, bind_eq_ok] at h
    obtain ⟨⟨expr', etype⟩, hexpr, h⟩ := h
    have hbool := boolOperand_wanted hpasses oper.boolOp
    exact leaveUnary_typed (checked_of_check (fun v ↦ visit_typed hpasses expr _ _ v hm hbool) hexpr) h
  | .call func args, _, _, v, hm, hexpected, h => by
    simp only [visit, bind_eq_ok] at h
    obtain ⟨callee, hcallee, args', hargs, h⟩ := h
    exact lookupFunc_typed (visit_typed hpasses func _ _ _ hm.1 hexpected hcallee)
      (argTypes_typed hpasses args args' hm.2 hargs) h
  | .member object name symbols, call, expected, v, hm, hexpected, h => by
    simp only [visit, bind_eq_ok] at h
    obtain ⟨visited, hvisited, ⟨object', etype⟩, hleave, h⟩ := h
    obtain rfl := leaveSubExpr_eq_ok.mp hleave
    have hobject := visit_typed hpasses object _ _ _ hm.1 hexpected hvisited
    simp only at h
    split at h
    · cases h
      exact ⟨hobject, hm.2⟩
    · simp only [lookupMember, bind_eq_ok] at h
      obtain ⟨⟨index, type⟩, hmember, h⟩ := h
      cases h
      exact ⟨etype, name, hobject, hmember, rfl⟩
  | .subscript object index, _, _, v, hm, _, h => by
    simp only [visit, bind_eq_ok] at h
    obtain ⟨⟨object', otype⟩, hobject, ⟨index', itype⟩, hindex, h⟩ := h
    exact leaveSubscript_typed h
      (checked_of_check (fun v ↦ visit_typed hpasses object _ _ v hm.1 none_wanted) hobject)
      (checked_of_check (fun v ↦ visit_typed hpasses index _ _ v hm.2 none_wanted) hindex)
  | .ident name symbols, _, _, v, hm, _, h => lookupIdent_typed hm h
  | .ternary cond troo fols, _, expected, v, hm, hexpected, h => by
    simp only [visit, bind_eq_ok] at h
    obtain ⟨⟨cond', ctype⟩, hcond, ⟨troo', ttype⟩, htroo, ⟨fols', ftype⟩, hfols, h⟩ := h
    have hbool := boolOperand_wanted hpasses true
    exact leaveTernary_typed
      (checked_of_check (fun v ↦ visit_typed hpasses cond _ _ v hm.1 hbool) hcond)
      (checked_of_check (fun v ↦ visit_typed hpasses troo _ _ v hm.2.1 hexpected) htroo)
      (checked_of_check (fun v ↦ visit_typed hpasses fols _ _ v hm.2.2 hexpected) hfols) h
  | .make type expr, _, _, v, hm, _, h => by
    simp only [visit, bind_eq_ok] at h
    obtain ⟨_, -, ⟨expr', etype⟩, hexpr, h⟩ := h
    have hwanted : ∀ type' ∈ some type, wanted type' := by
      intro type' htype'
      cases htype'
      exact hm.1
    exact leaveMake_typed hm.1
      (exists_typed_of_noCheckBool (fun v ↦ visit_typed hpasses expr _ _ v hm.2 hwanted) hexpr) h
  | .string _, _, _, v, _, _, h | .number _, _, _, v, _, _, h | .bool _, _, _, v, _, _, h => by
    cases h
    exact ⟨rfl, rfl⟩
  | .char value, _, _, v, _, _, h => by
    simp only [visit] at h
    split at h
    · cases h
      exact ⟨rfl, rfl⟩
    · cases h
  | .array [], _, _, v, _, hexpected, h => by
    simp only [visit, bind_eq_ok] at h
    obtain ⟨elem, helem, h⟩ := h
    cases elem with
    | none => cases h
    | some elem =>
      cases h
      exact ⟨rfl, [], elem, rfl, rfl, .inl (expectedElem_wanted hpasses hexpected helem elem rfl)⟩
  | .array (expr :: exprs), _, _, v, hm, hexpected, h => by
    simp only [visit, bind_eq_ok] at h
    obtain ⟨elem, helem, ⟨expr', etype⟩, hexpr, exprs', hexprs, h⟩ := h
    have hwanted := expectedElem_wanted hpasses hexpected helem
    exact leaveArray_typed hpasses
      (checked_of_check (fun v ↦ visit_typed hpasses expr _ _ v hm.1 hwanted) hexpr)
      (visitElems_typed hpasses elem etype.type exprs exprs' hm.2 hwanted hexprs) h
  | .initList _, _, none, v, _, _, h => by
    cases h
  | .initList [], _, some type, v, _, hexpected, h => by
    cases h
    exact ⟨rfl, hexpected type rfl, [], rfl⟩
  | .initList (expr :: exprs), _, some type, v, hm, hexpected, h => by
    simp only [visit, bind_eq_ok] at h
    obtain ⟨fields, hfields, _, -, _, -, exprs', hexprs, h⟩ := h
    cases h
    have hwanted := structFields_wanted hpasses (hexpected type rfl) hfields
    exact ⟨rfl, hexpected type rfl, visitFields_typed hpasses (expr :: exprs) fields exprs' hm hwanted hexprs⟩
  | .lambda lam params ret, _, _, v, hm, _, h => by
    simp only [visit, bind_eq_ok] at h
    obtain ⟨_, -, _, -, h⟩ := h
    cases h
    exact ⟨rfl, hm, params, ret, rfl⟩

theorem argTypes_typed (hpasses : Passes wanted) : (args : List Expr) → (args' : List (AExpr × ExprType)) →
    MentionsAll known wanted args → argTypes args = .ok args' → ArgsTyped known wanted args'
  | [], _, _, h => by
    cases h
    rfl
  | arg :: args, _, hm, h => by
    simp only [argTypes, bind_eq_ok] at h
    obtain ⟨⟨arg', atype⟩, harg, args', hargs, h⟩ := h
    cases h
    have htyped := checked_of_check (fun v ↦ visit_typed hpasses arg _ _ v hm.1 none_wanted) harg
    exact ⟨atype, args'.map Prod.snd, rfl, htyped, argTypes_typed hpasses args args' hm.2 hargs⟩

theorem visitElems_typed (hpasses : Passes wanted) : (elem : Option Ty) → (type : Ty) → (exprs : List Expr) →
    (exprs' : List AExpr) → MentionsAll known wanted exprs → (∀ type ∈ elem, wanted type) →
    visitElems elem type exprs = .ok exprs' → ∃ types, TypedAll known wanted exprs' types
  | _, _, [], _, _, _, h => by
    cases h
    exact ⟨[], rfl⟩
  | elem, type, expr :: exprs, _, hm, hwanted, h => by
    simp only [visitElems, bind_eq_ok] at h
    obtain ⟨⟨expr', etype⟩, hexpr, _, -, exprs', hexprs, h⟩ := h
    cases h
    obtain ⟨types, htypes⟩ := visitElems_typed hpasses elem type exprs exprs' hm.2 hwanted hexprs
    have htyped := typed_of_noCheck (fun v ↦ visit_typed hpasses expr _ _ v hm.1 hwanted) hexpr
    exact ⟨etype :: types, etype, types, rfl, htyped, htypes⟩

theorem visitFields_typed (hpasses : Passes wanted) : (exprs : List Expr) → (fields : List (String × Ty)) →
    (exprs' : List AExpr) → MentionsAll known wanted exprs → (∀ field ∈ fields, wanted field.2) →
    visitFields exprs fields = .ok exprs' → ∃ types, TypedAll known wanted exprs' types
  | [], _, _, _, _, h => by
    cases h
    exact ⟨[], rfl⟩
  | _ :: _, [], _, _, _, h => by
    cases h
    exact ⟨[], rfl⟩
  | expr :: exprs, (name, type) :: fields, _, hm, hwanted, h => by
    simp only [visitFields, bind_eq_ok] at h
    obtain ⟨⟨expr', etype⟩, hexpr, exprs', hexprs, h⟩ := h
    cases h
    have hfield : ∀ type' ∈ some type, wanted type' := by
      intro type' htype'
      cases htype'
      exact hwanted (name, type) List.mem_cons_self
    obtain ⟨types, htypes⟩ := visitFields_typed hpasses exprs fields exprs' hm.2
      (fun field hmem ↦ hwanted field (List.mem_cons_of_mem _ hmem)) hexprs
    obtain ⟨etype', htyped, -⟩ := exists_typed_of_checked
      (checked_of_check (fun v ↦ visit_typed hpasses expr _ _ v hm.1 hfield) hexpr)
    exact ⟨etype' :: types, etype', types, rfl, htyped, htypes⟩

end

/-- `getExprType` is sound. -/
theorem getExprType_typed (hpasses : Passes wanted) {expr : Expr} {type : Option Ty} {expr' : AExpr}
    {etype : ExprType} (hm : Mentions known wanted expr) (hwanted : ∀ type' ∈ type, wanted type')
    (h : getExprType expr type = .ok (expr', etype)) : Checked (Typed known wanted expr') type etype :=
  checked_of_check (fun v ↦ visit_typed hpasses expr false type v hm hwanted) h

end Soundness

end Stela.Semantic.ExprTyping
