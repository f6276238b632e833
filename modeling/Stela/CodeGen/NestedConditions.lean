import Stela.CodeGen.Meaning
import Stela.CodeGen.ShortCircuitRuns
import Stela.CodeGen.Terminators

/-!
# Nested conditions

Which expressions have flat code, and what follows for their blocks.
-/

namespace Stela.CodeGen.Blocks

open Stela.Syntax Stela.Library.ControlFlow

/-! ## The conditions of an expression -/

mutual

/-- Evaluating the expression takes a short circuit or a choice. The arguments of a call are those that have a
parameter. -/
def branches : AExpr → Bool
  | .binary _ lhs oper rhs => oper.boolOp || (branches lhs || branches rhs)
  | .ternary _ _ _ _ => true
  | .unary _ _ expr | .make _ expr _ | .member _ expr _ => branches expr
  | .subscript _ object index => branches object || branches index
  | .callPtr _ func args => branches func || branchesArgs (GenerateExpr.funcParams func.exprType) args
  | .callFunc _ func args => branchesArgs func.params args
  | .callMethod _ func self args => branches self || branchesArgs func.params args
  | .callBtn _ func args => branchesArgs (GenerateExpr.btnParams func args) args
  | .array _ exprs | .initList _ exprs => branchesElems exprs
  | .ident _ _ _ | .funcRef _ _ | .string _ _ | .char _ _ | .number _ _ | .bool _ _ | .lambda _ _ => false

def branchesArgs : List (ParamRef × Ty) → List AExpr → Bool
  | _ :: params, arg :: args => branches arg || branchesArgs params args
  | _, _ => false

def branchesElems : List AExpr → Bool
  | [] => false
  | expr :: exprs => branches expr || branchesElems exprs

end

mutual

/-- No condition is part of an operand of `||` or `&&` or of a branch of `?:`. -/
def flat : AExpr → Bool
  | .binary _ lhs oper rhs =>
      if oper.boolOp then !branches lhs && !branches rhs else flat lhs && flat rhs
  | .ternary _ cond troo fols => flat cond && (!branches troo && !branches fols)
  | .unary _ _ expr | .make _ expr _ | .member _ expr _ => flat expr
  | .subscript _ object index => flat object && flat index
  | .callPtr _ func args => flat func && flatArgs (GenerateExpr.funcParams func.exprType) args
  | .callFunc _ func args => flatArgs func.params args
  | .callMethod _ func self args => flat self && flatArgs func.params args
  | .callBtn _ func args => flatArgs (GenerateExpr.btnParams func args) args
  | .array _ exprs | .initList _ exprs => flatElems exprs
  | .ident _ _ _ | .funcRef _ _ | .string _ _ | .char _ _ | .number _ _ | .bool _ _ | .lambda _ _ => true

def flatArgs : List (ParamRef × Ty) → List AExpr → Bool
  | _ :: params, arg :: args => flat arg && flatArgs params args
  | _, _ => true

def flatElems : List AExpr → Bool
  | [] => true
  | expr :: exprs => flat expr && flatElems exprs

end

mutual

/-- No condition is part of a branch of `?:`. -/
def linked : AExpr → Bool
  | .binary _ lhs _ rhs => linked lhs && linked rhs
  | .ternary _ cond troo fols => linked cond && (!branches troo && !branches fols)
  | .unary _ _ expr | .make _ expr _ | .member _ expr _ => linked expr
  | .subscript _ object index => linked object && linked index
  | .callPtr _ func args => linked func && linkedArgs (GenerateExpr.funcParams func.exprType) args
  | .callFunc _ func args => linkedArgs func.params args
  | .callMethod _ func self args => linked self && linkedArgs func.params args
  | .callBtn _ func args => linkedArgs (GenerateExpr.btnParams func args) args
  | .array _ exprs | .initList _ exprs => linkedElems exprs
  | .ident _ _ _ | .funcRef _ _ | .string _ _ | .char _ _ | .number _ _ | .bool _ _ | .lambda _ _ => true

def linkedArgs : List (ParamRef × Ty) → List AExpr → Bool
  | _ :: params, arg :: args => linked arg && linkedArgs params args
  | _, _ => true

def linkedElems : List AExpr → Bool
  | [] => true
  | expr :: exprs => linked expr && linkedElems exprs

end

/-! ## The conditions of its code -/

/-- The code makes blocks, is flat and is linked, as told, with or without a result address. -/
structure Shape (code : Code) (branches flat linked : Bool) : Prop where
  branching : ∀ result, (tree code result).branching = branches
  flat : ∀ result, (tree code result).flat = flat
  linked : ∀ result, (tree code result).linked = linked

/-- The same for the operands of one instruction. -/
structure ShapeArgs (codes : List Code) (branches flat linked : Bool) : Prop where
  branching : Tree.branchings (trees codes) = branches
  flat : Tree.flats (trees codes) = flat
  linked : Tree.linkeds (trees codes) = linked

/-- The same for codes that construct objects one after the other. -/
structure ShapeElems (codes : List Code) (branches flat linked : Bool) : Prop where
  branching : ∀ place index, Tree.branchings (elemTrees place index codes) = branches
  flat : ∀ place index, Tree.flats (elemTrees place index codes) = flat
  linked : ∀ place index, Tree.linkeds (elemTrees place index codes) = linked

variable {code lhs rhs cond troo fols : Code} {codes : List Code} {b b' b'' f f' f'' l l' l'' : Bool}

attribute [local simp] tree Tree.branching Tree.flat Tree.linked

theorem branchings_append (ts ts' : List Tree) :
    Tree.branchings (ts ++ ts') = (Tree.branchings ts || Tree.branchings ts') := by
  induction ts with
  | nil => rfl
  | cons t ts ih => rw [List.cons_append, Tree.branchings, Tree.branchings, ih, Bool.or_assoc]

theorem flats_append (ts ts' : List Tree) : Tree.flats (ts ++ ts') = (Tree.flats ts && Tree.flats ts') := by
  induction ts with
  | nil => rfl
  | cons t ts ih => rw [List.cons_append, Tree.flats, Tree.flats, ih, Bool.and_assoc]

theorem linkeds_append (ts ts' : List Tree) : Tree.linkeds (ts ++ ts') = (Tree.linkeds ts && Tree.linkeds ts') := by
  induction ts with
  | nil => rfl
  | cons t ts ih => rw [List.cons_append, Tree.linkeds, Tree.linkeds, ih, Bool.and_assoc]

theorem branchings_destroyArgs (dtors : List Object) : Tree.branchings (destroyArgs dtors) = false := by
  induction dtors with
  | nil => rfl
  | cons obj dtors ih => exact ih

theorem flats_destroyArgs (dtors : List Object) : Tree.flats (destroyArgs dtors) = true :=
  Tree.flats_of_not_branchings _ (branchings_destroyArgs dtors)

theorem linkeds_destroyArgs (dtors : List Object) : Tree.linkeds (destroyArgs dtors) = true :=
  linkeds_of_not_branchings _ (branchings_destroyArgs dtors)

namespace Shape

theorem const (value : Literal) : Shape (.const value) false true true := ⟨fun _ ↦ rfl, fun _ ↦ rfl, fun _ ↦ rfl⟩

theorem var (definition : ℕ) : Shape (.var definition) false true true := ⟨fun _ ↦ rfl, fun _ ↦ rfl, fun _ ↦ rfl⟩

theorem capture (index : ℕ) : Shape (.capture index) false true true := ⟨fun _ ↦ rfl, fun _ ↦ rfl, fun _ ↦ rfl⟩

/-- Code that is one instruction on the values of others. -/
theorem inst {oper : Oper} {ts : List Tree} (htree : ∀ result, tree code result = .inst oper ts)
    (hbranching : Tree.branchings ts = b) (hflat : Tree.flats ts = f) (hlinked : Tree.linkeds ts = l) :
    Shape code b f l := by
  constructor <;> intro result <;> rw [htree]
  · exact hbranching
  · exact hflat
  · exact hlinked

/-- Code that is one instruction on one value. -/
theorem operand {code' : Code} {oper : Oper} (h : Shape code b f l)
    (htree : ∀ result, tree code' result = .inst oper [tree code false]) : Shape code' b f l :=
  inst htree ((Bool.or_false _).trans (h.branching false)) ((Bool.and_true _).trans (h.flat false))
    ((Bool.and_true _).trans (h.linked false))

/-- Code that is one instruction on two values. -/
theorem operands {code : Code} {oper : Oper} (hl : Shape lhs b f l) (hr : Shape rhs b' f' l')
    (htree : ∀ result, tree code result = .inst oper [tree lhs false, tree rhs false]) :
    Shape code (b || b') (f && f') (l && l') := by
  refine inst htree ?_ ?_ ?_
  · simp [Tree.branchings, hl.branching, hr.branching]
  · simp [Tree.flats, hl.flat, hr.flat]
  · simp [Tree.linkeds, hl.linked, hr.linked]

theorem load (h : Shape code b f l) : Shape (.load code) b f l := h.operand fun _ ↦ rfl

theorem store (h : Shape code b f l) : Shape (.store code) b f l :=
  inst (fun _ ↦ rfl) ((Bool.or_false _).trans (h.branching false)) ((Bool.and_true _).trans (h.flat false))
    ((Bool.and_true _).trans (h.linked false))

theorem construct (type : Ty) (cat : ValueCat) (h : Shape code b f l) : Shape (.construct type cat code) b f l :=
  inst (fun _ ↦ rfl) ((Bool.or_false _).trans (h.branching false)) ((Bool.and_true _).trans (h.flat false))
    ((Bool.and_true _).trans (h.linked false))

theorem convert (type : Ty) (dtors : List Object) (h : Shape code b f l) : Shape (.convert type code dtors) b f l := by
  constructor <;> intro result
  · simp [tree, Tree.branching, Tree.branchings, branchings_destroyArgs, h.branching]
  · simp [tree, Tree.flat, Tree.flats, flats_destroyArgs, h.flat]
  · simp [tree, Tree.linked, Tree.linkeds, linkeds_destroyArgs, h.linked]

theorem slot (n : ℕ) (type : Ty) (h : Shape code b f l) : Shape (.slot n type code) b f l := by
  constructor <;> intro result
  · simp [tree, Tree.branching, Tree.branchings, h.branching]
  · simp [tree, Tree.flat, Tree.flats, h.flat]
  · simp [tree, Tree.linked, Tree.linkeds, h.linked]

theorem call (target : Target) (ret : Ty) (dtors : List Object) (h : ShapeArgs codes b f l) :
    Shape (.call target ret codes dtors) b f l := by
  constructor <;> intro result
  · cases result <;>
      simp [tree, Tree.branching, branchings_append, Tree.branchings, branchings_destroyArgs, h.branching]
  · cases result <;> simp [tree, Tree.flat, flats_append, Tree.flats, flats_destroyArgs, h.flat]
  · cases result <;> simp [tree, Tree.linked, linkeds_append, Tree.linkeds, linkeds_destroyArgs, h.linked]

theorem shortCircuit (oper : BinOp) (hl : Shape lhs b f l) (hr : Shape rhs b' f' l') :
    Shape (.shortCircuit oper lhs rhs) true (!b && !b') (l && l') := by
  constructor <;> intro result
  · rfl
  · simp [tree, Tree.flat, hl.branching, hr.branching]
  · simp [tree, Tree.linked, hl.linked, hr.linked]

theorem ternary (hc : Shape cond b f l) (ht : Shape troo b' f' l') (hf : Shape fols b'' f'' l'') :
    Shape (.ternary cond troo fols) true (f && (!b' && !b'')) (l && (!b' && !b'')) := by
  constructor <;> intro result
  · rfl
  · simp [tree, Tree.flat, hc.flat, ht.branching, hf.branching]
  · simp [tree, Tree.linked, hc.linked, ht.branching, hf.branching]

theorem array (h : ShapeElems codes b f l) : Shape (.array codes) b f l := by
  constructor <;> intro result
  · simp [tree, Tree.branching, Tree.branchings, h.branching]
  · simp [tree, Tree.flat, Tree.flats, h.flat]
  · simp [tree, Tree.linked, Tree.linkeds, h.linked]

theorem initList (h : ShapeElems codes b f l) : Shape (.initList codes) b f l := by
  constructor <;> intro result
  · simp [tree, Tree.branching, h.branching]
  · simp [tree, Tree.flat, h.flat]
  · simp [tree, Tree.linked, h.linked]

end Shape

theorem ShapeArgs.cons (h : Shape code b f l) (hs : ShapeArgs codes b' f' l') :
    ShapeArgs (code :: codes) (b || b') (f && f') (l && l') := by
  constructor
  · rw [trees, Tree.branchings, h.branching, hs.branching]
  · rw [trees, Tree.flats, h.flat, hs.flat]
  · rw [trees, Tree.linkeds, h.linked, hs.linked]

theorem ShapeElems.cons (h : Shape code b f l) (hs : ShapeElems codes b' f' l') :
    ShapeElems (code :: codes) (b || b') (f && f') (l && l') := by
  constructor <;> intro place index
  · simp [elemTrees, Tree.branchings, Tree.branching, h.branching, hs.branching]
  · simp [elemTrees, Tree.flats, Tree.flat, Tree.flats, h.flat, hs.flat]
  · simp [elemTrees, Tree.linkeds, Tree.linked, Tree.linkeds, h.linked, hs.linked]

/-! ## The generator -/

open GenerateExpr

/-- The code of an expression has the given conditions. -/
abbrev HasShape (m : GenerateExpr.Gen Code) (b f l : Bool) : Prop :=
  Yields m fun code ↦ Shape code b f l

theorem shape_storeValueAsResult (result : Bool) (h : Shape code b f l) : Shape (storeValueAsResult result code) b f l := by
  cases result with
  | true => exact h.store
  | false => exact h

theorem shape_constructResultFromValue (result : Bool) (expr : AExpr) (h : Shape code b f l) :
    Shape (constructResultFromValue result expr code) b f l := by
  cases result with
  | true => exact h.construct _ _
  | false => exact h

theorem shape_loadValue (expr : AExpr) (h : Shape code b f l) : Shape (loadValue expr code) b f l := by
  unfold loadValue
  split
  · exact h.load
  · exact h

theorem shape_convertToBool (expr : AExpr) (h : Shape code b f l) : Shape (convertToBool expr code) b f l := by
  unfold convertToBool
  split
  · split
    · exact h.load
    · exact h
  · exact h.convert _ _

theorem hasShape_intoResult (type : Ty) (result : Bool) (h : Shape code b f l) :
    HasShape (intoResult type result code) b f l := by
  unfold intoResult
  split
  · exact yields_pure h
  · exact yields_bind_any fun n ↦ yields_pure (h.slot n type)

theorem hasShape_genCall (result : Bool) (expr : AExpr) (h : Shape code b f l) : HasShape (genCall result expr code) b f l := by
  unfold genCall
  split
  · exact yields_pure (shape_constructResultFromValue result expr h)
  · exact hasShape_intoResult expr.exprType result h

theorem hasShape_visitParam (param : ParamRef × Ty) (expr : AExpr) {visit : Bool → GenerateExpr.Gen Code}
    (h : ∀ result, HasShape (visit result) b f l) :
    Yields (visitParam param expr visit) fun visited ↦ Shape visited.1 b f l := by
  unfold visitParam
  split
  · exact yields_bind (h false) fun code hcode ↦ yields_pure hcode
  · split
    · refine yields_bind (h false) fun code hcode ↦ yields_pure ?_
      dsimp only
      split
      · exact hcode.load
      · exact hcode
    · exact yields_bind_any fun n ↦ yields_bind (h true) fun code hcode ↦ yields_pure (hcode.slot n param.2)

theorem hasShape_materialize (expr : AExpr) {visit : Bool → GenerateExpr.Gen Code}
    (h : ∀ result, HasShape (visit result) b f l) : HasShape (materialize expr visit) b f l := by
  unfold materialize
  split
  · exact yields_bind_any fun n ↦ yields_bind (h true) fun code hcode ↦ yields_bind_any fun _ ↦
      yields_pure (hcode.slot n expr.exprType)
  · exact h false

mutual

/-- The code of an expression has its conditions. -/
theorem visit_hasShape : (expr : AExpr) → (result : Bool) → HasShape (visit expr result) (branches expr) (flat expr) (linked expr)
  | .binary _ lhs oper rhs, result => by
    rw [visit, branches, flat, linked]
    by_cases hoper : oper.boolOp = true
    · rw [if_pos hoper, if_pos hoper, hoper]
      refine yields_bind (visit_hasShape lhs false) fun l hl ↦ yields_bind (visit_hasShape rhs false) fun r hr ↦ ?_
      exact yields_pure (shape_storeValueAsResult result
        ((shape_convertToBool lhs hl).shortCircuit oper (shape_convertToBool rhs hr)))
    · rw [if_neg hoper, if_neg hoper, Bool.eq_false_iff.mpr hoper, Bool.false_or]
      refine yields_bind (visit_hasShape lhs false) fun l hl ↦ yields_bind (visit_hasShape rhs false) fun r hr ↦ ?_
      exact yields_pure (shape_storeValueAsResult result
        ((shape_loadValue lhs hl).operands (shape_loadValue rhs hr) fun _ ↦ rfl))
  | .unary _ oper expr, result => by
    rw [visit]
    refine yields_bind (visit_hasShape expr false) fun code hcode ↦ yields_pure (shape_storeValueAsResult result ?_)
    split
    · exact (shape_convertToBool expr hcode).operand fun _ ↦ rfl
    · exact (shape_loadValue expr hcode).operand fun _ ↦ rfl
  | .callPtr info func args, result => by
    rw [visit]
    refine yields_bind (visit_hasShape func false) fun code hcode ↦ ?_
    refine yields_bind (visitParams_hasShape (funcParams func.exprType) args) fun codes hcodes ↦ ?_
    exact hasShape_genCall result _ (.call .closure info.exprType _ (.cons hcode hcodes))
  | .callFunc info func args, result => by
    rw [visit]
    refine yields_bind (visitParams_hasShape func.params args) fun codes hcodes ↦ ?_
    exact hasShape_genCall result _ (.call (.func func) info.exprType _ hcodes)
  | .callMethod info func self args, result => by
    rw [visit]
    refine yields_bind (hasShape_visitParam _ self (visit_hasShape self)) fun code hcode ↦ ?_
    refine yields_bind (visitParams_hasShape func.params args) fun codes hcodes ↦ ?_
    exact hasShape_genCall result _ (.call (.func func) info.exprType _ (.cons hcode hcodes))
  | .callBtn info func args, result => by
    rw [visit]
    refine yields_bind (visitParams_hasShape (btnParams func args) args) fun codes hcodes ↦ ?_
    exact yields_pure (shape_constructResultFromValue result _ (.call (.btnFunc func) info.exprType _ hcodes))
  | .member info object index, result => by
    rw [visit]
    refine yields_bind (hasShape_materialize object (visit_hasShape object)) fun code hcode ↦ ?_
    exact yields_pure (shape_constructResultFromValue result _ (hcode.operand fun _ ↦ rfl))
  | .subscript info object index, result => by
    rw [visit]
    refine yields_bind (hasShape_materialize object (visit_hasShape object)) fun code hcode ↦ ?_
    refine yields_bind (visit_hasShape index false) fun icode hicode ↦ ?_
    exact yields_pure (shape_constructResultFromValue result _
      (hcode.operands (shape_loadValue index hicode) fun _ ↦ rfl))
  | .ident info definition captureIndex, result => by
    cases captureIndex with
    | none =>
      rw [visit]
      exact yields_pure (shape_constructResultFromValue result _ (.var definition))
    | some index =>
      rw [visit]
      exact yields_pure (shape_constructResultFromValue result _ (.capture index))
  | .funcRef info func, result => by
    rw [visit]
    exact hasShape_intoResult _ _ (.inst (fun _ ↦ rfl) rfl rfl rfl)
  | .ternary info cond troo fols, result => by
    rw [visit]
    refine yields_bind (visit_hasShape cond false) fun c hc ↦ ?_
    have hc := shape_convertToBool cond hc
    have hbranches (result : Bool) {β : Type} {Q : β → Prop} {k : Code → Code → GenerateExpr.Gen β}
        (hk : ∀ t f, Shape t (branches troo) (flat troo) (linked troo) →
          Shape f (branches fols) (flat fols) (linked fols) → Yields (k t f) Q) :
        Yields (do let t ← visit troo result; let f ← visit fols result; k t f) Q :=
      yields_bind (visit_hasShape troo result) fun t ht ↦ yields_bind (visit_hasShape fols result) fun f hf ↦ hk t f ht hf
    split
    · exact hbranches true fun t f ht hf ↦ yields_pure (hc.ternary ht hf)
    · split
      · exact hbranches false fun t f ht hf ↦ yields_pure (hc.ternary ht hf)
      · split
        · exact hbranches false fun t f ht hf ↦
            yields_pure (hc.ternary (shape_loadValue troo ht) (shape_loadValue fols hf))
        · exact yields_bind_any fun n ↦ hbranches true fun t f ht hf ↦
            yields_pure ((hc.ternary ht hf).slot n info.exprType)
  | .make info expr cast, result => by
    rw [visit]
    cases cast with
    | false => exact visit_hasShape expr result
    | true =>
      refine yields_bind (visit_hasShape expr false) fun code hcode ↦ ?_
      split
      · exact yields_pure (shape_storeValueAsResult result (shape_convertToBool expr hcode))
      · exact yields_pure (shape_storeValueAsResult result ((shape_loadValue expr hcode).operand fun _ ↦ rfl))
  | .string info value, result => by
    rw [visit]
    refine hasShape_intoResult _ _ ?_
    split
    · exact .inst (fun _ ↦ rfl) rfl rfl rfl
    · exact .inst (fun _ ↦ rfl) rfl rfl rfl
  | .char _ _, result | .number _ _, result | .bool _ _, result => by
    rw [visit]
    exact yields_pure (shape_storeValueAsResult result (.const _))
  | .array info exprs, result => by
    rw [visit]
    refine yields_bind (visitElems_hasShape exprs) fun codes hcodes ↦ hasShape_intoResult _ _ ?_
    cases exprs with
    | nil => exact .inst (fun _ ↦ rfl) rfl rfl rfl
    | cons expr exprs => exact .array hcodes
  | .initList info exprs, result => by
    rw [visit]
    refine yields_bind (visitElems_hasShape exprs) fun codes hcodes ↦ ?_
    have hcode : Shape (if exprs.isEmpty then .defConstruct info.exprType else .initList codes) (branchesElems exprs) (flatElems exprs) (linkedElems exprs) := by
      cases exprs with
      | nil => exact .inst (fun _ ↦ rfl) rfl rfl rfl
      | cons expr exprs => exact .initList hcodes
    refine yields_bind (hasShape_intoResult info.exprType result hcode) fun code hcode ↦ yields_pure ?_
    split
    · exact hcode.load
    · exact hcode
  | .lambda info lam, result => by
    rw [visit]
    exact hasShape_intoResult _ _ (.inst (fun _ ↦ rfl) rfl rfl rfl)

theorem visitParams_hasShape : (params : List (ParamRef × Ty)) → (args : List AExpr) →
    Yields (visitParams params args) fun visited ↦ ShapeArgs visited.1 (branchesArgs params args) (flatArgs params args) (linkedArgs params args)
  | [], [] | [], _ :: _ | _ :: _, [] => yields_pure ⟨rfl, rfl, rfl⟩
  | param :: params, arg :: args => by
    rw [visitParams]
    refine yields_bind (hasShape_visitParam param arg (visit_hasShape arg)) fun code hcode ↦ ?_
    exact yields_bind (visitParams_hasShape params args) fun codes hcodes ↦ yields_pure (.cons hcode hcodes)

theorem visitElems_hasShape : (exprs : List AExpr) →
    Yields (visitElems exprs) fun codes ↦ ShapeElems codes (branchesElems exprs) (flatElems exprs) (linkedElems exprs)
  | [] => yields_pure ⟨fun _ _ ↦ rfl, fun _ _ ↦ rfl, fun _ _ ↦ rfl⟩
  | expr :: exprs => by
    rw [visitElems]
    refine yields_bind (visit_hasShape expr true) fun code hcode ↦ ?_
    exact yields_bind (visitElems_hasShape exprs) fun codes hcodes ↦ yields_pure (.cons hcode hcodes)

end

/-! ## Full expressions -/

/-- Whether there is a result address for the code. -/
def result (use : Use) (expr : AExpr) : Bool :=
  match use with
  | .init _ | .global | .swich | .case => true
  | .ret => !isTriviallyCopyable expr.exprType
  | .cond | .dst | .src | .call => false

/-- The code of a full expression. -/
def fullTree (movable : ℕ → Bool) (use : Use) (expr : AExpr) (s : State) : Tree :=
  tree ((use.generate movable expr).run s).1 (result use expr)

theorem generateBoolExpr_hasShape (expr : AExpr) : HasShape (generateBoolExpr expr) (branches expr) (flat expr) (linked expr) :=
  yields_bind (visit_hasShape expr false) fun _ hcode ↦ yields_pure (shape_convertToBool expr hcode)

theorem createReturnObject_hasShape (movable : ℕ → Bool) (expr : AExpr) :
    HasShape (createReturnObject movable expr) (branches expr) (flat expr) (linked expr) := by
  unfold createReturnObject generateExpr
  split
  · refine yields_bind (visit_hasShape expr false) fun code hcode ↦ yields_pure ?_
    split
    · exact hcode.load
    · exact hcode
  · split
    · exact yields_bind (visit_hasShape expr false) fun code hcode ↦ yields_pure (hcode.construct _ _)
    · exact visit_hasShape expr true

theorem generate_hasShape (movable : ℕ → Bool) (use : Use) (expr : AExpr) :
    HasShape (use.generate movable expr) (branches expr) (flat expr) (linked expr) := by
  cases use with
  | cond => exact generateBoolExpr_hasShape expr
  | init type =>
    unfold Use.generate
    dsimp only
    split
    · exact yields_bind (generateBoolExpr_hasShape expr) fun code hcode ↦ yields_pure hcode.store
    · exact visit_hasShape expr true
  | global | swich | case => exact visit_hasShape expr true
  | dst | src | call => exact visit_hasShape expr false
  | ret => exact createReturnObject_hasShape movable expr

/-- The blocks that are left, and the phis, of flat code. -/
theorem Emitted.wellFormed {b b' : FuncBuilder} (h : Emitted b b') : b.WellFormed b' :=
  ⟨h.valid.unmade, h.valid.openCurr, h.closed, h.phis⟩

/-- The blocks of a full expression are well formed and compute what its code means, exactly if no condition is part
of another one, other than as the condition of `?:`. -/
theorem fullTree_wellFormed_iff_flat (movable : ℕ → Bool) (use : Use) (expr : AExpr) (s : State) (b : FuncBuilder)
    (dst : Value) (hb : b.Valid) (hdst : dst.Below b.next) :
    (b.WellFormed ((emit (fullTree movable use expr s) dst).run b).2 ∧
      ∀ (V σ : Type) (M : Machine Oper Const V σ),
        Computes M b (emit (fullTree movable use expr s) dst) dst (eval M (fullTree movable use expr s))) ↔
      flat expr = true := by
  have hflat : (fullTree movable use expr s).flat = flat expr := (generate_hasShape movable use expr s).flat _
  constructor
  · rintro ⟨hwellFormed, -⟩
    by_contra hnot
    rw [← hflat, Bool.not_eq_true] at hnot
    exact hwellFormed.not_broken hb (emit_broken _ hnot dst b hb)
  · intro h
    rw [← hflat] at h
    exact ⟨(emit_emitted _ h dst b hb).1.wellFormed, fun V σ M ↦ emit_computes _ h dst b hb hdst⟩

/-- A parameter of type `bool`. -/
def boolParam (definition : ℕ) : AExpr := .ident ⟨none, .btn .bool⟩ definition none

/-- `return (a && b) ? c : d;`. -/
theorem fullTree_wellFormed_iff_flat_condition :
    newFunc.WellFormed ((emit (fullTree (fun _ ↦ false) .ret
        (.ternary ⟨none, .btn .bool⟩ (.binary ⟨none, .btn .bool⟩ (boolParam 0) .bool_and (boolParam 1)) (boolParam 2)
          (boolParam 3)) {}) (.const .null)).run newFunc).2 :=
  ((fullTree_wellFormed_iff_flat (fun _ ↦ false) .ret _ {} newFunc (.const .null) newFunc_valid trivial).mpr rfl).1

/-- `return a || b || c;`: the phi of the outer `||` has a value for the block in which the inner `||` starts, but the
code of the inner one leaves that block for others. -/
theorem nestedOr_not_wellFormed :
    ¬(newFunc.WellFormed ((emit (fullTree (fun _ ↦ false) .ret
        (.binary ⟨none, .btn .bool⟩ (.binary ⟨none, .btn .bool⟩ (boolParam 0) .bool_or (boolParam 1)) .bool_or
          (boolParam 2)) {}) (.const .null)).run newFunc).2 ∧
      ∀ (V σ : Type) (M : Machine Oper Const V σ), Computes M newFunc (emit (fullTree (fun _ ↦ false) .ret
        (.binary ⟨none, .btn .bool⟩ (.binary ⟨none, .btn .bool⟩ (boolParam 0) .bool_or (boolParam 1)) .bool_or
          (boolParam 2)) {}) (.const .null)) (.const .null) (eval M (fullTree (fun _ ↦ false) .ret
        (.binary ⟨none, .btn .bool⟩ (.binary ⟨none, .btn .bool⟩ (boolParam 0) .bool_or (boolParam 1)) .bool_or
          (boolParam 2)) {}))) :=
  fun h ↦ h.1.not_broken newFunc_valid (emit_broken _ rfl _ _ newFunc_valid)

end Stela.CodeGen.Blocks
