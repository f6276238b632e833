import Stela.CodeGen.TypeSupport
import Stela.CodeGen.GenerateStat
import Stela.CodeGen.TypedUses
import Stela.Library.Triple

/-!
# The operations that generation performs on types

What the code of a program asks `LifetimeExpr`, `CompareExpr` and the builtin functions on arrays for. The code of
expressions and statements tells most of it; the element type of a builtin function is that of its first argument,
and the captures of a lambda are those of its symbol. The main result, `generation_total_iff`, says exactly which
accepted programs are generated without reaching an `UNREACHABLE` or a failing assertion there.
-/

namespace Stela.CodeGen.TypeOperations

open Stela.Syntax Semantic LifetimeExprs Library Library.Except

/-- An operation on a type; that of a builtin function is the element type of the array. -/
inductive Operation where
  | lifetime (op : LifetimeOp)
  | construct (cat : ValueCat)
  | assign (cat : ValueCat)
  /-- A comparison by an operator. -/
  | comparison (oper : BinOp)
  /-- The comparison of a switch with a case. -/
  | case
  | builtin (func : BtnFunc)
  deriving DecidableEq, Repr

def Operation.perform (found : FuncInst → PFGI → Ty → Bool) : Operation → Ty → Emit Unit
  | lifetime op, type => LifetimeExprs.lifetime found op type
  | construct cat, type => LifetimeExprs.construct found type cat
  | assign cat, type => LifetimeExprs.assign found type cat
  | comparison oper, type => LifetimeExprs.compare found (compareOp oper) type
  | case, type => LifetimeExprs.compare found .eq type
  | builtin func, elem => getBtnFunc found func elem

def performAll (found : FuncInst → PFGI → Ty → Bool) : List (Operation × Ty) → Emit Unit
  | [] => pure ()
  | (operation, type) :: operations => do
      operation.perform found type
      performAll found operations

/-! ## The operations of a program -/

def destroyOps (objs : List Object) : List (Operation × Ty) :=
  objs.map fun obj ↦ (.lifetime .destroy, obj.type)

section Captures

-- The types of what a lambda captures.
variable (captures : ℕ → List Ty)

mutual

def codeOps : Code → List (Operation × Ty)
  | .const _ | .var _ | .capture _ | .funCtor _ | .string _ => []
  | .load code | .unary _ code | .cast _ code | .member code _ | .slot _ _ code | .store code => codeOps code
  | .binary oper type lhs rhs =>
      codeOps lhs ++ codeOps rhs ++ if oper.compOp then [(.comparison oper, type)] else []
  | .shortCircuit _ lhs rhs | .subscript lhs rhs => codeOps lhs ++ codeOps rhs
  | .convert _ operand dtors => codeOps operand ++ destroyOps dtors
  | .call _ _ args dtors => codesOps args ++ destroyOps dtors
  | .ternary cond troo fols => codeOps cond ++ codeOps troo ++ codeOps fols
  | .construct type cat src => codeOps src ++ [(.construct cat, type)]
  | .defConstruct type => [(.lifetime .defConstruct, type)]
  | .array codes | .initList codes => codesOps codes
  -- the captures are copied, and the virtual destructor of the closure data destroys the copies
  | .lambda lam => (captures lam).flatMap fun type ↦ [(.construct .lvalue, type), (.lifetime .destroy, type)]

def codesOps : List Code → List (Operation × Ty)
  | [] => []
  | code :: codes => codeOps code ++ codesOps codes

end

def fullOps (full : FullCode) : List (Operation × Ty) :=
  codeOps captures full.code ++ destroyOps full.dtors

def asgnOps : AsgnCode → List (Operation × Ty)
  | .var obj none => [(.lifetime .defConstruct, obj.type)]
  | .var _ (some init) => fullOps captures init
  | .assign type cat dst src =>
      codeOps captures dst ++ codeOps captures src.code ++ (.assign cat, type) :: destroyOps src.dtors
  | .call call => fullOps captures call
  | .none => []

def checkOps : Option CheckCode → List (Operation × Ty)
  | none => []
  | some check => codeOps captures check.init.code ++ (.case, check.obj.type) :: destroyOps check.init.dtors

mutual

def statOps : StatCode → List (Operation × Ty)
  | .block nodes => nodesOps nodes
  | .fi cond body none => fullOps captures cond ++ statOps body
  | .fi cond body (some elseBody) => fullOps captures cond ++ (statOps body ++ statOps elseBody)
  | .swich _ value checks bodies _ dtors =>
      codeOps captures value ++ (checks.flatMap (checkOps captures) ++ (nodesOps bodies ++ destroyOps dtors))
  | .terminate dtors | .brake dtors | .continu dtors | .ret none dtors => destroyOps dtors
  | .ret (some (_, code)) dtors => codeOps captures code ++ destroyOps dtors
  | .wile cond body => fullOps captures cond ++ statOps body
  | .four init cond incr body dtors =>
      asgnOps captures init ++ (fullOps captures cond ++ (asgnOps captures incr ++ (statOps body ++ destroyOps dtors)))
  | .asgn code => asgnOps captures code

def nodesOps : List StatCode → List (Operation × Ty)
  | [] => []
  | node :: nodes => statOps node ++ nodesOps nodes

end

/-- `createGlobalVar`: a constructor and a destructor for the object. -/
def globalOps : Decl AExpr → List (Operation × Ty)
  | .var _ type none => (type.toList.map fun type ↦ (.lifetime .defConstruct, type)) ++ globalDtor type
  | .var _ type (some expr) | .let_ _ type expr => 
      let (code, s) := (GenerateExpr.generateExpr expr true).run {}
      codeOps captures code ++ destroyOps s.temps ++ globalDtor type
  | .typeAlias _ _ _ => []
where
  globalDtor (type : Option Ty) : List (Operation × Ty) :=
    type.toList.map fun type ↦ (.lifetime .destroy, type)

end Captures

mutual

/-- The builtin functions on arrays that an expression calls. -/
def builtinOps : AExpr → List (Operation × Ty)
  | .binary _ lhs _ rhs => builtinOps lhs ++ builtinOps rhs
  | .unary _ _ expr | .member _ expr _ | .make _ expr _ => builtinOps expr
  | .callPtr _ func args => builtinOps func ++ builtinsOps args
  | .callFunc _ _ args | .array _ args | .initList _ args => builtinsOps args
  | .callMethod _ _ self args => builtinOps self ++ builtinsOps args
  | .callBtn _ func args => builtinsOps args ++
      match args.map fun arg ↦ arg.exprType.concreteType with
      | .array elem :: _ => [(.builtin func, elem)]
      | _ => []
  | .subscript _ object index => builtinOps object ++ builtinOps index
  | .ternary _ cond troo fols => builtinOps cond ++ (builtinOps troo ++ builtinOps fols)
  | .ident _ _ _ | .funcRef _ _ | .string _ _ | .char _ _ | .number _ _ | .bool _ _ | .lambda _ _ => []

def builtinsOps : List AExpr → List (Operation × Ty)
  | [] => []
  | expr :: exprs => builtinOps expr ++ builtinsOps exprs

end

/-- What the program asks for: the initialisers and destructors of its globals, and its bodies. `movable` tells of
each body which objects belong to it. -/
def programOps (captures : ℕ → List Ty) (movable : Traverse.Body AExpr → ℕ → Bool)
    (program : Traverse.Program AExpr) : List (Operation × Ty) :=
  (program.globals.flatMap fun decl ↦
    globalOps captures decl ++ (globalUses decl).flatMap fun use ↦ builtinOps use.2) ++
  program.bodies.flatMap fun body ↦
    nodesOps captures (GenerateStat.generateStat (movable body) none body.params body.nodes).nodes ++
      (nodesUses (LowerExpressions.lowerNodes body.nodes)).flatMap fun use ↦ builtinOps use.2

/-! ## What each operation needs -/

/-- Moving the elements of an array to a new storage; what is not nontrivial is moved as bytes. -/
def ReallocSupported (elem : Ty) : Prop :=
  classifyType elem = .nontrivial → LifetimeOp.moveConstruct.Supported elem ∧ LifetimeOp.destroy.Supported elem

/-- New elements are default constructed, or zeroed if they are trivially copyable. -/
def ElemsSupported (elem : Ty) : Prop :=
  isTriviallyCopyable elem = false → LifetimeOp.defConstruct.Supported elem

def BuiltinSupported (func : BtnFunc) (elem : Ty) : Prop :=
  match func with
  | .capacity | .size | .data => True
  | .push_back | .append => ReallocSupported elem ∧ LifetimeOp.copyConstruct.Supported elem
  | .pop_back => LifetimeOp.destroy.Supported elem
  | .resize => LifetimeOp.destroy.Supported elem ∧ ReallocSupported elem ∧ ElemsSupported elem
  | .reserve => ReallocSupported elem

/-- No opaque value is compared or default constructed, no void value is compared by a switch or default constructed,
and the user types involved provide the functions that are called. -/
def Operation.Supported : Operation → Ty → Prop
  | lifetime op, type => op.Supported type
  | construct .lvalue, type => LifetimeOp.copyConstruct.Supported type
  | construct .xvalue, type => LifetimeOp.moveConstruct.Supported type
  | construct .prvalue, _ => True
  | assign .lvalue, type => LifetimeOp.copyAssign.Supported type
  | assign .xvalue, type => LifetimeOp.moveAssign.Supported type
  | assign .prvalue, type => LifetimeOp.moveAssign.Supported type ∧ LifetimeOp.destroy.Supported type
  | comparison oper, type => ∀ leaf ∈ leafTypes type, (compareOp oper).Allows leaf
  | case, type => CompareOp.eq.Supported type
  | builtin func, elem => BuiltinSupported func elem

section Decisions

variable (found : FuncInst → PFGI → Ty → Bool)

/-- Nothing is emitted for a trivially copyable type. -/
theorem decides_unless_trivial {gen : Emit Unit} {P : Prop} (type : Ty) (h : Decides found gen P)
    (htriv : isTriviallyCopyable type = true → P) :
    Decides found (if isTriviallyCopyable type = true then pure () else gen) P := by
  refine (Decides.ite (c := isTriviallyCopyable type = true) (fun _ ↦ decides_pure) (fun _ ↦ h)).congr ?_
  constructor
  · exact fun hP ↦ ⟨fun _ ↦ trivial, fun _ ↦ hP⟩
  · rintro ⟨-, hP⟩
    by_cases hc : isTriviallyCopyable type = true
    · exact htriv hc
    · exact hP hc

theorem construct_decides (cat : ValueCat) (type : Ty) :
    Decides found (construct found type cat) ((Operation.construct cat).Supported type) := by
  cases cat with
  | lvalue =>
    exact decides_unless_trivial found type (lifetime_decides found .copyConstruct type)
      fun htriv ↦ LifetimeOp.supported_of_trivial _ htriv nofun
  | xvalue =>
    exact decides_unless_trivial found type (lifetime_decides found .moveConstruct type)
      fun htriv ↦ LifetimeOp.supported_of_trivial _ htriv nofun
  | prvalue => exact decides_unless_trivial found type decides_pure fun _ ↦ trivial

theorem assign_decides (cat : ValueCat) (type : Ty) :
    Decides found (assign found type cat) ((Operation.assign cat).Supported type) := by
  cases cat with
  | lvalue =>
    exact decides_unless_trivial found type (lifetime_decides found .copyAssign type)
      fun htriv ↦ LifetimeOp.supported_of_trivial _ htriv nofun
  | xvalue =>
    exact decides_unless_trivial found type (lifetime_decides found .moveAssign type)
      fun htriv ↦ LifetimeOp.supported_of_trivial _ htriv nofun
  | prvalue =>
    have hmove := lifetime_decides found .moveAssign type
    exact decides_unless_trivial found type (hmove.bind (lifetime_decides found .destroy type))
      fun htriv ↦ ⟨LifetimeOp.supported_of_trivial _ htriv nofun, LifetimeOp.supported_of_trivial _ htriv nofun⟩

theorem move_n_decides (elem : Ty) : Decides found (move_n found elem) (ReallocSupported elem) := by
  have hmove := (lifetime_decides found .moveConstruct elem).bind (lifetime_decides found .destroy elem)
  have hcat := Decides.ite (c := classifyType elem ≠ .nontrivial) (fun _ ↦ decides_pure) fun _ ↦ hmove
  refine (hcat.getInst .move_n elem).congr ?_
  constructor
  · intro h
    exact ⟨fun _ ↦ trivial, fun hc ↦ h (not_not.mp hc)⟩
  · exact fun h hc ↦ h.2 (not_not.mpr hc)

theorem reallocate_decides (elem : Ty) : Decides found (reallocate found elem) (ReallocSupported elem) :=
  (move_n_decides found elem).getInst .reallocate (.array elem)

theorem copy_n_decides (elem : Ty) :
    Decides found (copy_n found elem) (LifetimeOp.copyConstruct.Supported elem) :=
  (construct_decides found .lvalue elem).getInst .copy_n elem

theorem destroy_n_decides (elem : Ty) :
    Decides found (destroy_n found elem) (LifetimeOp.destroy.Supported elem) :=
  (decides_unless_trivial found elem (lifetime_decides found .destroy elem)
    fun htriv ↦ LifetimeOp.supported_of_trivial _ htriv nofun).getInst .destroy_n elem

theorem construct_n_decides (elem : Ty) : Decides found (construct_n found elem) (ElemsSupported elem) := by
  have hdef := Decides.ite (c := isTriviallyCopyable elem = true) (fun _ ↦ decides_pure)
    fun _ ↦ lifetime_decides found .defConstruct elem
  refine (hdef.getInst .construct_n elem).congr ?_
  constructor
  · exact fun h ↦ ⟨fun _ ↦ trivial, fun hc ↦ h (by simpa using hc)⟩
  · exact fun h hc ↦ h.2 (by simp [hc])

theorem getBtnFunc_decides (func : BtnFunc) (elem : Ty) :
    Decides found (getBtnFunc found func elem) (BuiltinSupported func elem) := by
  have hrealloc := reallocate_decides found elem
  cases func with
  | capacity => exact decides_pure.getInst .btn_capacity (.array elem)
  | size => exact decides_pure.getInst .btn_size (.array elem)
  | data => exact decides_pure.getInst .btn_data (.array elem)
  | push_back => exact (hrealloc.bind (construct_decides found .lvalue elem)).getInst .btn_push_back (.array elem)
  | append => exact (hrealloc.bind (copy_n_decides found elem)).getInst .btn_append (.array elem)
  | pop_back => exact (lifetime_decides found .destroy elem).getInst .btn_pop_back (.array elem)
  | resize =>
    exact ((destroy_n_decides found elem).bind (hrealloc.bind (construct_n_decides found elem))).getInst
      .btn_resize (.array elem)
  | reserve => exact hrealloc.getInst .btn_reserve (.array elem)

/-- What the check of comparisons ensures. -/
def Admitted (use : Operation × Ty) : Prop :=
  ∀ oper, use.1 = .comparison oper → ∀ leaf ∈ leafTypes use.2, isVoidLeaf leaf = false

theorem perform_decides (operation : Operation) (type : Ty) (hadmitted : Admitted (operation, type)) :
    Decides found (operation.perform found type) (operation.Supported type) := by
  cases operation with
  | lifetime op => exact lifetime_decides found op type
  | construct cat => exact construct_decides found cat type
  | assign cat => exact assign_decides found cat type
  | comparison oper =>
    refine (compare_decides found (compareOp oper) type).congr ?_
    have hvalues := hadmitted oper rfl
    exact ⟨fun h leaf hleaf ↦ ⟨hvalues leaf hleaf, h leaf hleaf⟩, fun h leaf hleaf ↦ (h leaf hleaf).2⟩
  | case => exact compare_decides found .eq type
  | builtin func => exact getBtnFunc_decides found func type

theorem performAll_decides : (uses : List (Operation × Ty)) → (∀ use ∈ uses, Admitted use) →
    Decides found (performAll found uses) (∀ use ∈ uses, use.1.Supported use.2)
  | [], _ => decides_pure.congr (iff_true_intro nofun)
  | (operation, type) :: uses, hadmitted => by
    have hfirst := perform_decides found operation type (hadmitted _ List.mem_cons_self)
    have hrest := performAll_decides uses fun use hmem ↦ hadmitted use (List.mem_cons_of_mem _ hmem)
    exact (hfirst.bind hrest).congr List.forall_mem_cons

end Decisions

/-! ## The comparisons of an accepted program -/

mutual

/-- A comparable type has no void part. -/
theorem leafTypes_of_validComp : (type : Ty) → validComp type = .ok () → ∀ leaf ∈ leafTypes type, isVoidLeaf leaf = false
  | .btn value, h, leaf, hleaf => by
    obtain rfl := List.mem_singleton.mp hleaf
    cases value with
    | void => cases h
    | _ => rfl
  | .func _ _, _, leaf, hleaf | .user _ _ _ _, _, leaf, hleaf => by
    obtain rfl := List.mem_singleton.mp hleaf
    rfl
  | .array elem, h, leaf, hleaf => leafTypes_of_validComp elem h leaf hleaf
  | .named _ _ _ type, h, leaf, hleaf => leafTypes_of_validComp type h leaf hleaf
  | .struct fields, h, leaf, hleaf => fieldLeafTypes_of_validComp fields h leaf hleaf

theorem fieldLeafTypes_of_validComp : (fields : List (String × Ty)) → validCompFields fields = .ok () →
    ∀ leaf ∈ fieldLeafTypes fields, isVoidLeaf leaf = false
  | [], _, _, hleaf => by cases hleaf
  | (_, type) :: fields, h, leaf, hleaf => by
    simp only [validCompFields, bind_eq_ok] at h
    obtain ⟨_, htype, hfields⟩ := h
    rcases List.mem_append.mp hleaf with hleaf | hleaf
    · exact leafTypes_of_validComp type htype leaf hleaf
    · exact fieldLeafTypes_of_validComp fields hfields leaf hleaf

end

def AllAdmitted (uses : List (Operation × Ty)) : Prop :=
  ∀ use ∈ uses, Admitted use

theorem allAdmitted_nil : AllAdmitted [] := nofun

theorem allAdmitted_append {us vs : List (Operation × Ty)} (hus : AllAdmitted us) (hvs : AllAdmitted vs) :
    AllAdmitted (us ++ vs) :=
  List.forall_mem_append.mpr ⟨hus, hvs⟩

theorem admitted_of_ne {operation : Operation} {type : Ty} (h : ∀ oper, operation ≠ .comparison oper) :
    Admitted (operation, type) :=
  fun oper hoper ↦ absurd hoper (h oper)

theorem allAdmitted_cons {operation : Operation} {type : Ty} {uses : List (Operation × Ty)}
    (h : ∀ oper, operation ≠ .comparison oper) (huses : AllAdmitted uses) : AllAdmitted ((operation, type) :: uses) :=
  List.forall_mem_cons.mpr ⟨admitted_of_ne h, huses⟩

theorem allAdmitted_destroyOps (objs : List Object) : AllAdmitted (destroyOps objs) := by
  intro use huse
  obtain ⟨obj, -, rfl⟩ := List.mem_map.mp huse
  exact admitted_of_ne nofun

section Code

variable (captures : ℕ → List Ty)

def CodeAdmitted (code : Code) : Prop :=
  AllAdmitted (codeOps captures code)

variable {captures} {code : Code}

theorem storeValueAsResult_admitted (result : Bool) (h : CodeAdmitted captures code) :
    CodeAdmitted captures (GenerateExpr.storeValueAsResult result code) := by
  cases result <;> exact h

theorem constructResultFromValue_admitted (result : Bool) (expr : AExpr) (h : CodeAdmitted captures code) :
    CodeAdmitted captures (GenerateExpr.constructResultFromValue result expr code) := by
  cases result with
  | false => exact h
  | true => exact allAdmitted_append h (allAdmitted_cons nofun allAdmitted_nil)

theorem loadValue_admitted (expr : AExpr) (h : CodeAdmitted captures code) :
    CodeAdmitted captures (GenerateExpr.loadValue expr code) := by
  unfold GenerateExpr.loadValue
  split <;> exact h

theorem convertToBool_admitted (expr : AExpr) (h : CodeAdmitted captures code) :
    CodeAdmitted captures (GenerateExpr.convertToBool expr code) := by
  unfold GenerateExpr.convertToBool
  split
  · split <;> exact h
  · exact allAdmitted_append h (allAdmitted_destroyOps _)

theorem intoResult_yields (type : Ty) (result : Bool) (h : CodeAdmitted captures code) :
    Ensures (GenerateExpr.intoResult type result code) (CodeAdmitted captures) := by
  cases result with
  | false => exact Ensures.step fun _ ↦ Ensures.pure h
  | true => exact Ensures.pure h

theorem genCall_yields (result : Bool) (expr : AExpr) (h : CodeAdmitted captures code) :
    Ensures (GenerateExpr.genCall result expr code) (CodeAdmitted captures) := by
  unfold GenerateExpr.genCall
  split
  · exact Ensures.pure (constructResultFromValue_admitted result expr h)
  · exact intoResult_yields _ result h

theorem materialize_yields (expr : AExpr) {visit : Bool → GenerateExpr.Gen Code}
    (h : ∀ result, Ensures (visit result) (CodeAdmitted captures)) :
    Ensures (GenerateExpr.materialize expr visit) (CodeAdmitted captures) := by
  unfold GenerateExpr.materialize
  split
  · exact Ensures.step fun _ ↦ (h true).bind fun _ hcode ↦ Ensures.step fun _ ↦ Ensures.pure hcode
  · exact h false

theorem visitParam_yields (param : ParamRef × Ty) (expr : AExpr) {visit : Bool → GenerateExpr.Gen Code}
    (h : ∀ result, Ensures (visit result) (CodeAdmitted captures)) :
    Ensures (GenerateExpr.visitParam param expr visit) fun r ↦ CodeAdmitted captures r.1 := by
  unfold GenerateExpr.visitParam
  split
  · exact (h false).bind fun _ hcode ↦ Ensures.pure hcode
  · split
    · refine (h false).bind fun code hcode ↦ Ensures.pure ?_
      split <;> exact hcode
    · exact Ensures.step fun _ ↦ (h true).bind fun _ hcode ↦ Ensures.pure hcode

end Code

/-! ## Code of typed expressions -/

open ExprTyping TypedUses

theorem boolOp_of_compOp {oper : BinOp} (h : oper.compOp = true) : oper.boolOp = false := by
  cases oper <;> first | rfl | cases h

section Visitor

variable (captures : ℕ → List Ty)

def CodesAdmitted (codes : List Code) : Prop :=
  AllAdmitted (codesOps captures codes)

variable {captures}

/-- The operator compares values that the analysis has found comparable. -/
theorem binary_admitted {lhs : AExpr} {oper : BinOp} {lcode rcode : Code} {ltype : ExprType}
    (hlhs : Checked (Typed (fun _ ↦ True) (fun _ ↦ True) lhs) (boolOperand oper.boolOp) ltype)
    (hvalid : oper.compOp = true → validComp ltype.type = .ok ()) (hl : CodeAdmitted captures lcode)
    (hr : CodeAdmitted captures rcode) : CodeAdmitted captures (.binary oper lhs.exprType lcode rcode) := by
  refine allAdmitted_append (allAdmitted_append hl hr) ?_
  split
  · rename_i hcomp
    rw [boolOp_of_compOp hcomp] at hlhs
    have htype : ltype.type = lhs.exprType := typed_exprType hlhs
    have hleaves := leafTypes_of_validComp _ (hvalid hcomp)
    rw [htype] at hleaves
    exact List.forall_mem_singleton.mpr fun _ _ ↦ hleaves
  · exact allAdmitted_nil

mutual

/-- The code of a typed expression compares no void values by an operator. -/
theorem visit_admitted : (expr : AExpr) → WellTyped expr → (result : Bool) →
    Ensures (GenerateExpr.visit expr result) (CodeAdmitted captures)
  | .binary _ lhs oper rhs, ⟨_, _, ltype, rtype, hlhs, hrhs, hcomp, _⟩, result => by
    have hl := visit_admitted lhs (wellTyped_of_checked hlhs) false
    have hr := visit_admitted rhs (wellTyped_of_checked hrhs) false
    refine Ensures.ite (fun _ ↦ ?_) fun _ ↦ ?_
    · refine hl.bind fun lcode hlcode ↦ hr.bind fun rcode hrcode ↦ Ensures.pure (storeValueAsResult_admitted result ?_)
      exact allAdmitted_append (convertToBool_admitted lhs hlcode) (convertToBool_admitted rhs hrcode)
    · refine hl.bind fun lcode hlcode ↦ hr.bind fun rcode hrcode ↦ Ensures.pure (storeValueAsResult_admitted result ?_)
      exact binary_admitted hlhs (fun hc ↦ (hcomp hc).1) (loadValue_admitted lhs hlcode) (loadValue_admitted rhs hrcode)
  | .unary _ oper expr, ⟨_, _, _, hexpr, _⟩, result => by
    refine (visit_admitted expr (wellTyped_of_checked hexpr) false).bind fun code hcode ↦ Ensures.pure ?_
    apply storeValueAsResult_admitted
    change CodeAdmitted captures (if oper = .bool_not then GenerateExpr.convertToBool expr code else GenerateExpr.loadValue expr code)
    split
    · exact convertToBool_admitted expr hcode
    · exact loadValue_admitted expr hcode
  | .callPtr _ func args, ⟨_, _, _, _, hfunc, _, _, hargs, _⟩, result => by
    refine (visit_admitted func ⟨_, hfunc⟩ false).bind fun fcode hfcode ↦ ?_
    refine (visitParams_admitted _ args ⟨_, hargs⟩).bind fun r hr ↦ genCall_yields result _ ?_
    exact allAdmitted_append (allAdmitted_append hfcode hr) (allAdmitted_destroyOps _)
  | .callFunc _ func args, ⟨_, _, _, _, _, hargs, _⟩, result =>
    (visitParams_admitted _ args ⟨_, hargs⟩).bind fun _ hr ↦
      genCall_yields result _ (allAdmitted_append hr (allAdmitted_destroyOps _))
  | .callMethod _ func self args, ⟨_, _, _, _, _, _, hself, _, hargs, _⟩, result => by
    refine (visitParam_yields _ self (visit_admitted self ⟨_, hself⟩)).bind fun s hs ↦ ?_
    refine (visitParams_admitted _ args ⟨_, hargs⟩).bind fun r hr ↦ genCall_yields result _ ?_
    exact allAdmitted_append (allAdmitted_append hs hr) (allAdmitted_destroyOps _)
  | .callBtn _ func args, ⟨_, _, _, hargs, _⟩, result =>
    (visitParams_admitted _ args ⟨_, hargs⟩).bind fun _ hr ↦ Ensures.pure
      (constructResultFromValue_admitted result _ (allAdmitted_append hr (allAdmitted_destroyOps _)))
  | .member _ object index, ⟨_, _, _, hobject, _⟩, result =>
    (materialize_yields object (visit_admitted object ⟨_, hobject⟩)).bind fun _ hcode ↦
      Ensures.pure (constructResultFromValue_admitted result _ hcode)
  | .subscript _ object index, ⟨_, _, _, _, hobject, hindex, _⟩, result => by
    refine (materialize_yields object (visit_admitted object ⟨_, hobject⟩)).bind fun code hcode ↦ ?_
    refine (visit_admitted index ⟨_, hindex⟩ false).bind fun icode hicode ↦ Ensures.pure ?_
    exact constructResultFromValue_admitted result _ (allAdmitted_append hcode (loadValue_admitted index hicode))
  | .ident _ definition captureIndex, _, result => by
    refine Ensures.pure (constructResultFromValue_admitted result _ ?_)
    cases captureIndex <;> exact allAdmitted_nil
  | .funcRef _ func, _, result => intoResult_yields _ result allAdmitted_nil
  | .ternary info cond troo fols, ⟨_, _, _, _, _, hcond, htroo, hfols, _⟩, result => by
    have hc := visit_admitted cond (wellTyped_of_checked hcond) false
    have ht := visit_admitted troo (wellTyped_of_checked htroo)
    have hf := visit_admitted fols (wellTyped_of_checked hfols)
    refine hc.bind fun ccode hccode ↦ ?_
    have hcond := convertToBool_admitted cond hccode
    refine Ensures.ite (fun _ ↦ ?_) fun _ ↦ Ensures.ite (fun _ ↦ ?_) fun _ ↦ Ensures.ite (fun _ ↦ ?_) fun _ ↦ ?_
    · exact (ht true).bind fun _ htc ↦ (hf true).bind fun _ hfc ↦
        Ensures.pure (allAdmitted_append (allAdmitted_append hcond htc) hfc)
    · exact (ht false).bind fun _ htc ↦ (hf false).bind fun _ hfc ↦
        Ensures.pure (allAdmitted_append (allAdmitted_append hcond htc) hfc)
    · exact (ht false).bind fun _ htc ↦ (hf false).bind fun _ hfc ↦ Ensures.pure
        (allAdmitted_append (allAdmitted_append hcond (loadValue_admitted troo htc)) (loadValue_admitted fols hfc))
    · exact Ensures.step fun _ ↦ (ht true).bind fun _ htc ↦ (hf true).bind fun _ hfc ↦
        Ensures.pure (allAdmitted_append (allAdmitted_append hcond htc) hfc)
  | .make info expr cast, ⟨_, _, _, _, hexpr⟩, result => by
    have he := visit_admitted expr ⟨_, hexpr⟩
    refine Ensures.ite (fun _ ↦ he result) fun _ ↦ (he false).bind fun code hcode ↦ ?_
    refine Ensures.ite (fun _ ↦ ?_) fun _ ↦ ?_
    · exact Ensures.pure (storeValueAsResult_admitted result (convertToBool_admitted expr hcode))
    · exact Ensures.pure (storeValueAsResult_admitted result (loadValue_admitted expr hcode))
  | .string info value, _, result => by
    apply intoResult_yields
    split
    · exact allAdmitted_cons nofun allAdmitted_nil
    · exact allAdmitted_nil
  | .char _ _, _, result | .number _ _, _, result | .bool _ _, _, result =>
    Ensures.pure (storeValueAsResult_admitted result allAdmitted_nil)
  | .array info exprs, ⟨_, _, _, _, hexprs, _⟩, result => by
    refine (visitElems_admitted exprs ⟨_, hexprs⟩).bind fun codes hcodes ↦ intoResult_yields _ result ?_
    split
    · exact allAdmitted_cons nofun allAdmitted_nil
    · exact hcodes
  | .initList info exprs, ⟨_, _, _, _, hexprs⟩, result => by
    refine (visitElems_admitted exprs ⟨_, hexprs⟩).bind fun codes hcodes ↦ ?_
    have hinit : CodeAdmitted captures (if exprs.isEmpty then .defConstruct info.exprType else .initList codes) := by
      split
      · exact allAdmitted_cons nofun allAdmitted_nil
      · exact hcodes
    refine (intoResult_yields _ result hinit).bind fun code hcode ↦ Ensures.pure ?_
    split <;> exact hcode
  | .lambda _ lam, _, result => by
    apply intoResult_yields
    intro use huse
    obtain ⟨type, -, hmem⟩ := List.mem_flatMap.mp huse
    rcases List.mem_cons.mp hmem with rfl | hmem
    · exact admitted_of_ne nofun
    · obtain rfl := List.mem_singleton.mp hmem
      exact admitted_of_ne nofun

theorem visitParams_admitted : (params : List (ParamRef × Ty)) → (args : List AExpr) → AllWellTyped args →
    Ensures (GenerateExpr.visitParams params args) fun r ↦ CodesAdmitted captures r.1
  | param :: params, arg :: args, ⟨_, _, _, _, harg, hargs⟩ =>
    (visitParam_yields param arg (visit_admitted arg ⟨_, harg⟩)).bind fun _ hcode ↦
      (visitParams_admitted params args ⟨_, hargs⟩).bind fun _ hcodes ↦ Ensures.pure (allAdmitted_append hcode hcodes)
  | [], args, _ => by
    cases args <;> exact fun _ ↦ allAdmitted_nil
  | _ :: _, [], _ => fun _ ↦ allAdmitted_nil

theorem visitElems_admitted : (exprs : List AExpr) → AllWellTyped exprs →
    Ensures (GenerateExpr.visitElems exprs) (CodesAdmitted captures)
  | [], _ => Ensures.pure allAdmitted_nil
  | expr :: exprs, ⟨_, _, _, _, hexpr, hexprs⟩ =>
    (visit_admitted expr ⟨_, hexpr⟩ true).bind fun _ hcode ↦
      (visitElems_admitted exprs ⟨_, hexprs⟩).bind fun _ hcodes ↦ Ensures.pure (allAdmitted_append hcode hcodes)

end

end Visitor

/-! ## Code of statements -/

open ProgramUses

section Statements

variable (captures : ℕ → List Ty) (movable : ℕ → Bool)

theorem generate_admitted (use : Use) {expr : AExpr} (h : WellTyped expr) :
    Ensures (use.generate movable expr) (CodeAdmitted captures) := by
  have hvisit : ∀ result, Ensures (GenerateExpr.visit expr result) (CodeAdmitted captures) := visit_admitted expr h
  have hbool : Ensures (GenerateExpr.generateBoolExpr expr) (CodeAdmitted captures) :=
    (hvisit false).bind fun _ hcode ↦ Ensures.pure (convertToBool_admitted expr hcode)
  cases use with
  | cond => exact hbool
  | init type => exact Ensures.ite (fun _ ↦ Ensures.map hbool) fun _ ↦ hvisit true
  | global | swich | case => exact hvisit true
  | dst | src | call => exact hvisit false
  | ret =>
    refine Ensures.ite (fun _ ↦ (hvisit false).bind fun code hcode ↦ Ensures.pure ?_) fun _ ↦
      Ensures.ite (fun _ ↦ (hvisit false).bind fun code hcode ↦ Ensures.pure ?_) fun _ ↦ hvisit true
    · split <;> exact hcode
    · exact allAdmitted_append hcode (allAdmitted_cons nofun allAdmitted_nil)

theorem genExpr_admitted (use : Use) {expr : AExpr} (h : WellTyped expr) :
    Ensures (GenerateStat.genExpr movable use expr) (CodeAdmitted captures) :=
  fun _ ↦ generate_admitted captures movable use h _

def FullAdmitted (full : FullCode) : Prop :=
  AllAdmitted (fullOps captures full)

theorem genFull_admitted (use : Use) {expr : AExpr} (h : WellTyped expr) :
    Ensures (GenerateStat.genFull movable use expr) (FullAdmitted captures) :=
  Ensures.step fun _ ↦ (genExpr_admitted captures movable use h).bind fun _ hcode ↦ Ensures.step fun _ ↦ Ensures.step fun _ ↦
    Ensures.pure (allAdmitted_append hcode (allAdmitted_destroyOps _))

theorem equalTo_admitted {expr : AExpr} (h : WellTyped expr) :
    Ensures (GenerateStat.equalTo movable expr) fun check ↦ AllAdmitted (checkOps captures (some check)) :=
  Ensures.step fun _ ↦ Ensures.step fun _ ↦ (genExpr_admitted captures movable .case h).bind fun _ hcode ↦ Ensures.step fun _ ↦
    Ensures.step fun _ ↦ Ensures.step fun _ ↦
      Ensures.pure (allAdmitted_append hcode (allAdmitted_cons nofun (allAdmitted_destroyOps _)))

def AsgnAdmitted (code : AsgnCode) : Prop :=
  AllAdmitted (asgnOps captures code)

theorem insertVar_admitted (type : Ty) {expr : Option AExpr} (h : ∀ expr' ∈ expr, WellTyped expr') :
    Ensures (GenerateStat.insertVar movable type expr) (AsgnAdmitted captures) := by
  refine Ensures.step fun n ↦ ?_
  cases expr with
  | none =>
    refine Ensures.bind (P := fun init ↦ init = none) (Ensures.pure rfl) fun _ hinit ↦ Ensures.step fun _ ↦ ?_
    subst hinit
    exact Ensures.pure (allAdmitted_cons nofun allAdmitted_nil)
  | some expr =>
    refine Ensures.bind (P := fun init ↦ AsgnAdmitted captures (.var ⟨n, type⟩ init)) ?_ fun _ hinit ↦
      Ensures.step fun _ ↦ Ensures.pure hinit
    exact Ensures.map (genFull_admitted captures movable (.init type) (h expr rfl))

theorem visitAsgn_admitted {asgn : Asgn AExpr} (h : UsesTyped (asgnUses asgn)) :
    Ensures (GenerateStat.visitAsgn movable asgn) (AsgnAdmitted captures) := by
  cases asgn with
  | assign dst src =>
    obtain ⟨hdst, hsrc⟩ := allUses_cons.mp h
    refine Ensures.step fun _ ↦ (genExpr_admitted captures movable .dst hdst).bind fun dcode hdcode ↦ ?_
    refine (genExpr_admitted captures movable .src (allUses_cons.mp hsrc).1).bind fun scode hscode ↦ ?_
    exact Ensures.step fun _ ↦ Ensures.step fun _ ↦ Ensures.pure
      (allAdmitted_append (allAdmitted_append hdcode hscode) (allAdmitted_cons nofun (allAdmitted_destroyOps _)))
  | declAssign name expr =>
    refine insertVar_admitted captures movable _ fun expr' hexpr' ↦ ?_
    cases hexpr'
    exact (allUses_cons.mp h).1
  | callAssign call => exact Ensures.map (genFull_admitted captures movable .call (allUses_cons.mp h).1)
  | compAssign _ _ _ | incrDecr _ _ => exact Ensures.pure allAdmitted_nil

theorem visitOptAsgn_admitted {asgn : Option (Asgn AExpr)} (h : UsesTyped (optAsgnUses asgn)) :
    Ensures (GenerateStat.visitOptAsgn movable asgn) (AsgnAdmitted captures) := by
  cases asgn with
  | none => exact Ensures.pure allAdmitted_nil
  | some asgn => exact visitAsgn_admitted captures movable h

theorem visitDecl_admitted {decl : Decl AExpr} (h : UsesTyped (declUses decl)) :
    Ensures (GenerateStat.visitDecl movable decl) (AsgnAdmitted captures) := by
  have hsome : ∀ {use expr}, UsesTyped [(use, expr)] → ∀ expr' ∈ some expr, WellTyped expr' := by
    intro use expr huses expr' hexpr'
    cases hexpr'
    exact (allUses_cons.mp huses).1
  cases decl with
  | var name type expr =>
    cases expr with
    | none => exact insertVar_admitted captures movable _ fun _ hexpr' ↦ by cases hexpr'
    | some expr => exact insertVar_admitted captures movable _ (hsome h)
  | let_ name type expr => exact insertVar_admitted captures movable _ (hsome h)
  | typeAlias name type strong => exact Ensures.pure allAdmitted_nil

theorem visitChecks_admitted : (cases : List (SwitchCase AExpr)) → UsesTyped (casesUses cases) →
    Ensures (GenerateStat.visitChecks movable cases) fun checks ↦ AllAdmitted (checks.flatMap (checkOps captures))
  | [], _ => Ensures.pure allAdmitted_nil
  | .mk none _ :: cases, h =>
    (visitChecks_admitted cases (allUses_append.mp (allUses_append.mp h).2).2).bind fun _ hchecks ↦
      Ensures.pure hchecks
  | .mk (some expr) _ :: cases, h => by
    obtain ⟨hexpr, hrest⟩ := allUses_append.mp h
    refine (equalTo_admitted captures movable (allUses_cons.mp hexpr).1).bind fun check hcheck ↦ ?_
    exact (visitChecks_admitted cases (allUses_append.mp hrest).2).bind fun _ hchecks ↦
      Ensures.pure (allAdmitted_append hcheck hchecks)

mutual

theorem stat_admitted : (stat : Stat AExpr) → UsesTyped (statUses stat) → (scopeIndex : ℕ) →
    Ensures (GenerateStat.visit movable stat scopeIndex) fun code ↦ AllAdmitted (statOps captures code)
  | .block nodes, h, scopeIndex =>
    Ensures.step fun _ ↦ (nodes_admitted nodes h scopeIndex).bind fun _ hcodes ↦ Ensures.step fun _ ↦ Ensures.pure hcodes
  | .fi cond body none, h, scopeIndex => by
    obtain ⟨hcond, hbody⟩ := allUses_cons.mp h
    exact (genFull_admitted captures movable .cond hcond).bind fun _ hc ↦ (stat_admitted body hbody scopeIndex).bind fun _ hb ↦
      Ensures.pure (allAdmitted_append hc hb)
  | .fi cond body (some elseBody), h, scopeIndex => by
    obtain ⟨hcond, hrest⟩ := allUses_cons.mp h
    obtain ⟨hbody, helse⟩ := allUses_append.mp hrest
    exact (genFull_admitted captures movable .cond hcond).bind fun _ hc ↦ (stat_admitted body hbody scopeIndex).bind fun _ hb ↦
      (stat_admitted elseBody helse scopeIndex).bind fun _ he ↦
        Ensures.pure (allAdmitted_append hc (allAdmitted_append hb he))
  | .swich expr cases alwaysReturns, h, _ => by
    obtain ⟨hexpr, hcases⟩ := allUses_cons.mp h
    refine Ensures.step fun _ ↦ Ensures.step fun _ ↦ (genExpr_admitted captures movable .swich hexpr).bind fun value hvalue ↦ ?_
    refine Ensures.ite (fun _ ↦ ?_) fun _ ↦ ?_
    · exact Ensures.step fun _ ↦ Ensures.step fun _ ↦ Ensures.pure
        (allAdmitted_append hvalue (allAdmitted_append allAdmitted_nil
          (allAdmitted_append allAdmitted_nil (allAdmitted_destroyOps _))))
    · refine Ensures.step fun s ↦ (visitChecks_admitted captures movable cases hcases).bind fun checks hchecks ↦ ?_
      refine (bodies_admitted cases hcases s.scopes.length).bind fun bodies hbodies ↦ ?_
      exact Ensures.step fun _ ↦ Ensures.step fun _ ↦ Ensures.pure
        (allAdmitted_append hvalue (allAdmitted_append hchecks
          (allAdmitted_append hbodies (allAdmitted_destroyOps _))))
  | .terminate, _, _ => Ensures.step fun _ ↦ Ensures.step fun _ ↦ Ensures.pure (allAdmitted_destroyOps _)
  | .brake, _, _ | .continu, _, _ | .ret none, _, _ => Ensures.map fun _ ↦ allAdmitted_destroyOps _
  | .ret (some expr), h, _ =>
    (genExpr_admitted captures movable .ret (allUses_cons.mp h).1).bind fun _ hcode ↦ Ensures.step fun _ ↦
      Ensures.pure (allAdmitted_append hcode (allAdmitted_destroyOps _))
  | .wile cond body, h, _ => by
    obtain ⟨hcond, hbody⟩ := allUses_cons.mp h
    exact Ensures.step fun scopeIndex ↦ (stat_admitted body hbody scopeIndex).bind fun _ hb ↦ Ensures.step fun _ ↦
      (genFull_admitted captures movable .cond hcond).bind fun _ hc ↦ Ensures.pure (allAdmitted_append hc hb)
  | .four init cond incr body, h, _ => by
    obtain ⟨hinit, hrest⟩ := allUses_append.mp h
    obtain ⟨hcond, hrest⟩ := allUses_cons.mp hrest
    obtain ⟨hincr, hbody⟩ := allUses_append.mp hrest
    refine Ensures.step fun _ ↦ (visitOptAsgn_admitted captures movable hinit).bind fun _ hi ↦ Ensures.step fun scopeIndex ↦ ?_
    refine (stat_admitted body hbody scopeIndex).bind fun _ hb ↦ Ensures.step fun _ ↦ ?_
    refine (genFull_admitted captures movable .cond hcond).bind fun _ hc ↦ ?_
    refine (visitOptAsgn_admitted captures movable hincr).bind fun _ hincr ↦ Ensures.step fun _ ↦ Ensures.step fun _ ↦ ?_
    exact Ensures.pure (allAdmitted_append hi (allAdmitted_append hc
      (allAdmitted_append hincr (allAdmitted_append hb (allAdmitted_destroyOps _)))))
  | .decl decl, h, _ => Ensures.map (visitDecl_admitted captures movable h)
  | .asgn asgn, h, _ => Ensures.map (visitAsgn_admitted captures movable h)

theorem nodes_admitted : (nodes : List (Stat AExpr)) → UsesTyped (nodesUses nodes) → (scopeIndex : ℕ) →
    Ensures (GenerateStat.visitNodes movable nodes scopeIndex) fun codes ↦ AllAdmitted (nodesOps captures codes)
  | [], _, _ => Ensures.pure allAdmitted_nil
  | node :: nodes, h, scopeIndex => by
    obtain ⟨hnode, hnodes⟩ := allUses_append.mp h
    exact (stat_admitted node hnode scopeIndex).bind fun _ hcode ↦ (nodes_admitted nodes hnodes scopeIndex).bind
      fun _ hcodes ↦ Ensures.pure (allAdmitted_append hcode hcodes)

theorem bodies_admitted : (cases : List (SwitchCase AExpr)) → UsesTyped (casesUses cases) → (scope : ℕ) →
    Ensures (GenerateStat.visitBodies movable cases scope) fun codes ↦ AllAdmitted (nodesOps captures codes)
  | [], _, _ => Ensures.pure allAdmitted_nil
  | .mk _ body :: cases, h, scope => by
    obtain ⟨hbody, hcases⟩ := allUses_append.mp (allUses_append.mp h).2
    exact Ensures.step fun _ ↦ (stat_admitted body hbody scope).bind fun _ hcode ↦ Ensures.step fun _ ↦
      (bodies_admitted cases hcases scope).bind fun _ hcodes ↦ Ensures.pure (allAdmitted_append hcode hcodes)

end

end Statements

/-! ## Accepted programs -/

open InferType Traverse LowerExpressions

mutual

theorem builtinOps_admitted : (expr : AExpr) → AllAdmitted (builtinOps expr)
  | .binary _ lhs _ rhs => allAdmitted_append (builtinOps_admitted lhs) (builtinOps_admitted rhs)
  | .unary _ _ expr | .member _ expr _ | .make _ expr _ => builtinOps_admitted expr
  | .callPtr _ func args => allAdmitted_append (builtinOps_admitted func) (builtinsOps_admitted args)
  | .callFunc _ _ args | .array _ args | .initList _ args => builtinsOps_admitted args
  | .callMethod _ _ self args => allAdmitted_append (builtinOps_admitted self) (builtinsOps_admitted args)
  | .callBtn _ func args => by
    refine allAdmitted_append (builtinsOps_admitted args) ?_
    split
    · exact allAdmitted_cons nofun allAdmitted_nil
    · exact allAdmitted_nil
  | .subscript _ object index => allAdmitted_append (builtinOps_admitted object) (builtinOps_admitted index)
  | .ternary _ cond troo fols => allAdmitted_append (builtinOps_admitted cond)
      (allAdmitted_append (builtinOps_admitted troo) (builtinOps_admitted fols))
  | .ident _ _ _ | .funcRef _ _ | .string _ _ | .char _ _ | .number _ _ | .bool _ _ | .lambda _ _ => allAdmitted_nil

theorem builtinsOps_admitted : (exprs : List AExpr) → AllAdmitted (builtinsOps exprs)
  | [] => allAdmitted_nil
  | expr :: exprs => allAdmitted_append (builtinOps_admitted expr) (builtinsOps_admitted exprs)

end

section Programs

variable (captures : ℕ → List Ty)

theorem globalDtor_admitted (type : Option Ty) : AllAdmitted (globalOps.globalDtor type) := by
  cases type with
  | none => exact allAdmitted_nil
  | some type => exact allAdmitted_cons nofun allAdmitted_nil

theorem globalOps_admitted {decl : Decl AExpr} (h : UsesTyped (globalUses decl)) :
    AllAdmitted (globalOps captures decl) := by
  have hinit : ∀ {expr : AExpr} (type : Option Ty), UsesTyped [(.global, expr)] →
      AllAdmitted (globalOps captures (.let_ "" type expr)) := by
    intro expr type huses
    have hcode : CodeAdmitted captures _ := visit_admitted expr (allUses_cons.mp huses).1 true {}
    exact allAdmitted_append (allAdmitted_append hcode (allAdmitted_destroyOps _)) (globalDtor_admitted type)
  cases decl with
  | var name type expr =>
    cases expr with
    | none =>
      refine allAdmitted_append ?_ (globalDtor_admitted type)
      cases type with
      | none => exact allAdmitted_nil
      | some type => exact allAdmitted_cons nofun allAdmitted_nil
    | some expr => exact hinit type h
  | let_ name type expr => exact hinit type h
  | typeAlias name type strong => exact allAdmitted_nil

theorem flatMap_admitted {α : Type} {items : List α} {ops : α → List (Operation × Ty)}
    (h : ∀ item ∈ items, AllAdmitted (ops item)) : AllAdmitted (items.flatMap ops) := by
  intro use huse
  obtain ⟨item, hitem, huse⟩ := List.mem_flatMap.mp huse
  exact h item hitem use huse

variable (movable : Body AExpr → ℕ → Bool)

/-- The analysis admits every comparison by an operator that a program makes. -/
theorem programOps_admitted {program : Program Expr} {analysed : Program AExpr}
    (h : traverse program = .ok analysed) : AllAdmitted (programOps captures movable analysed) := by
  obtain ⟨hglobals, hbodies⟩ := traverse_uses inferred_typedUse h
  have hbuiltins : ∀ uses : List (Use × AExpr), AllAdmitted (uses.flatMap fun use ↦ builtinOps use.2) :=
    fun _ ↦ flatMap_admitted fun use _ ↦ builtinOps_admitted use.2
  refine allAdmitted_append (flatMap_admitted fun decl hdecl ↦ ?_) (flatMap_admitted fun body hbody ↦ ?_)
  · exact allAdmitted_append (globalOps_admitted captures (usesTyped_of_typedUse (hglobals decl hdecl))) (hbuiltins _)
  · refine allAdmitted_append ?_ (hbuiltins _)
    have hnodes := nodes_admitted captures (movable body) _ (usesTyped_of_typedUse (hbodies body hbody)) 0
    exact hnodes _

/-- Every function that the operation asks for is generated anew. -/
def GeneratesAnew (use : Operation × Ty) : Prop :=
  ∃ inst, (use.1.perform never use.2).run [] = .ok ((), inst)

end Programs

/-! ## A compared struct and a variable of an opaque type -/

/-- A struct that holds a number and an array. -/
def pairType : Ty := .struct [("x", .btn .sint), ("y", .array (.btn .real))]

/-- A parameter or a local of the type. -/
def pairExpr (definition : ℕ) : Expr :=
  .ident "p" [.object definition ⟨pairType, .var, .val⟩ none]

/-- `func (a: pair, b: pair) -> bool { return a == b; }`. -/
def comparesPairs : Program Expr where
  globals := []
  bodies := [⟨[(.val, pairType), (.val, pairType)], some boolType, [.ret (some (.binary (pairExpr 0) .eq (pairExpr 1)))]⟩]

/-- `func () { var p: opaq; }`. -/
def declaresOpaq : Program Expr where
  globals := []
  bodies := [⟨[], some (.btn .void), [.decl (.var "p" (some (.btn .opaq)) none)]⟩]

end Stela.CodeGen.TypeOperations
