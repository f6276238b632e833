import Stela.CodeGen.TypedUses
import Stela.Library.Triple

/-!
# What the analysis lets a program change is an object

The mutability that `infer type.cpp` computes and the value categories of `categories.cpp` are two classifications of
expressions. Whatever is mutable is an lvalue, and the generator evaluates an lvalue to the address of an object that
is there already. The assertions on destinations and on arguments for reference parameters rely on that;
`lvalue_assertions_iff` says when they hold.
-/

namespace Stela.CodeGen.MutableLvalues

open Stela.Syntax Semantic InferType Traverse ExprTyping TypedUses ProgramUses Library

/-! ## Lvalues -/

section Lvalues

variable {known : Symbol → Prop} {wanted : Ty → Prop}

theorem commonMut_eq_var {a b : ValueMut} : commonMut a b = .var ↔ a = .var ∧ b = .var := by
  cases a <;> cases b <;> decide

/-- A conversion makes a value, which is not mutable. -/
theorem mutable_of_checked {typed : ExprType → Prop} {type : Option Ty} {etype : ExprType}
    (h : Checked typed type etype) (hmut : etype.mut_ = .var) : ∃ etype', typed etype' ∧ etype'.mut_ = .var := by
  cases type with
  | none => exact ⟨etype, h, hmut⟩
  | some type =>
    obtain ⟨etype', htyped, ⟨-, rfl⟩ | ⟨-, rfl⟩⟩ := h
    · exact ⟨etype, htyped, hmut⟩
    · cases hmut

/-- Mutability is inherited from variables through fields, elements and ternaries, and so is the category. -/
theorem lvalue_of_mutable : (expr : AExpr) → (etype : ExprType) → Typed known wanted expr etype → etype.mut_ = .var →
    classifyValue expr = .lvalue
  | .ident _ _ _, _, _, _ => rfl
  | .member _ object _, _, h, hmut => by
    obtain ⟨otype, _, hobject, -, rfl⟩ := h
    have hlvalue := lvalue_of_mutable object otype hobject hmut
    simp only [classifyValue, hlvalue, partCat]
  | .subscript _ object _, _, h, hmut => by
    obtain ⟨otype, _, _, hobject, -, -, -, rfl⟩ := h
    have hlvalue := lvalue_of_mutable object otype hobject hmut
    simp only [classifyValue, hlvalue, partCat]
  | .ternary _ cond troo fols, _, h, hmut => by
    obtain ⟨_, ttype, ftype, _, -, htroo, hfols, -, rfl⟩ := h
    obtain ⟨htmut, hfmut⟩ := commonMut_eq_var.mp hmut
    obtain ⟨ttype', htroo, htmut⟩ := mutable_of_checked htroo htmut
    obtain ⟨ftype', hfols, hfmut⟩ := mutable_of_checked hfols hfmut
    simp [classifyValue, lvalue_of_mutable troo ttype' htroo htmut, lvalue_of_mutable fols ftype' hfols hfmut]
  | .binary .., _, h, hmut | .unary .., _, h, hmut | .callPtr .., _, h, hmut | .callFunc .., _, h, hmut
  | .callMethod .., _, h, hmut | .callBtn .., _, h, hmut | .funcRef .., _, h, hmut | .make .., _, h, hmut
  | .string .., _, h, hmut | .char .., _, h, hmut | .number .., _, h, hmut | .bool .., _, h, hmut
  | .array .., _, h, hmut | .initList .., _, h, hmut | .lambda .., _, h, hmut => by
    rw [h.1] at hmut
    cases hmut

end Lvalues

/-! ## Addresses -/

/-- The code computes the address of an object that is there already: a variable, a captured object, or a part of
one. -/
def IsPlace : Code → Prop
  | .var _ | .capture _ => True
  | .member object _ => IsPlace object
  | .subscript object _ => IsPlace object
  | .ternary _ troo fols => IsPlace troo ∧ IsPlace fols
  | _ => False

theorem partCat_eq_lvalue {cat : ValueCat} : partCat cat = .lvalue ↔ cat = .lvalue := by
  cases cat <;> decide

theorem materialize_lvalue {expr : AExpr} {visit : Bool → GenerateExpr.Gen Code} (h : classifyValue expr = .lvalue) :
    GenerateExpr.materialize expr visit = visit false := by
  simp [GenerateExpr.materialize, h]

/-- Without a result address, an lvalue is evaluated to its place. -/
theorem visit_isPlace : (expr : AExpr) → classifyValue expr = .lvalue → Ensures (GenerateExpr.visit expr false) IsPlace
  | .ident _ _ captureIndex, _ => by
    cases captureIndex <;> exact Ensures.pure trivial
  | .member _ object _, h => by
    have hobject := partCat_eq_lvalue.mp h
    rw [GenerateExpr.visit, materialize_lvalue hobject]
    exact (visit_isPlace object hobject).bind fun _ hcode ↦ Ensures.pure hcode
  | .subscript _ object index, h => by
    have hobject := partCat_eq_lvalue.mp h
    rw [GenerateExpr.visit, materialize_lvalue hobject]
    exact (visit_isPlace object hobject).bind fun _ hcode ↦ Ensures.step fun _ ↦ Ensures.pure hcode
  | .ternary _ cond troo fols, h => by
    have hboth : classifyValue troo = .lvalue ∧ classifyValue fols = .lvalue := by
      by_contra hn
      simp [classifyValue, hn] at h
    refine Ensures.step fun _ ↦ ?_
    rw [if_neg (by decide), if_pos hboth]
    exact (visit_isPlace troo hboth.1).bind fun _ htroo ↦ (visit_isPlace fols hboth.2).bind fun _ hfols ↦
      Ensures.pure ⟨htroo, hfols⟩
  | .make info expr cast, h => by
    cases cast with
    | true => cases h
    | false =>
      have hexpr : classifyValue expr = .lvalue := by
        by_contra hn
        unfold classifyValue at h
        split at h
        · cases h
        · split at h
          · cases h
          · exact hn h
      exact visit_isPlace expr hexpr
  | .binary .., h | .unary .., h | .callPtr .., h | .callFunc .., h | .callMethod .., h | .callBtn .., h
  | .funcRef .., h | .string .., h | .char .., h | .number .., h | .bool .., h | .array .., h | .initList .., h
  | .lambda .., h => by cases h

/-- The expression is an lvalue, and is passed on as the address of its object. -/
structure IsObject (expr : AExpr) : Prop where
  cat : classifyValue expr = .lvalue
  place : Ensures (GenerateExpr.visit expr false) IsPlace

theorem isObject_iff {expr : AExpr} : IsObject expr ↔ classifyValue expr = .lvalue :=
  ⟨IsObject.cat, fun h ↦ ⟨h, visit_isPlace expr h⟩⟩

/-! ## Reference parameters -/

/-- The arguments that `visitParam` passes by reference. -/
def passed (params : List (ParamRef × Ty)) (args : List AExpr) : List AExpr :=
  ((params.zip args).filter fun arg ↦ arg.1.1 = .ref).map Prod.snd

mutual

/-- The arguments and receivers for reference parameters, of all calls in the expression. -/
def refArgs : AExpr → List AExpr
  | .binary _ lhs _ rhs => refArgs lhs ++ refArgs rhs
  | .unary _ _ expr | .member _ expr _ | .make _ expr _ => refArgs expr
  | .callPtr _ func args =>
      refArgs func ++ (refArgsAll args ++ passed (GenerateExpr.funcParams func.exprType) args)
  | .callFunc _ func args => refArgsAll args ++ passed func.params args
  | .callMethod _ func self args =>
      refArgs self ++ (refArgsAll args ++
        (passed [func.receiver.getD (.val, self.exprType)] [self] ++ passed func.params args))
  | .callBtn _ func args => refArgsAll args ++ passed (GenerateExpr.btnParams func args) args
  | .subscript _ object index => refArgs object ++ refArgs index
  | .ternary _ cond troo fols => refArgs cond ++ (refArgs troo ++ refArgs fols)
  | .array _ exprs | .initList _ exprs => refArgsAll exprs
  | .ident _ _ _ | .funcRef _ _ | .string _ _ | .char _ _ | .number _ _ | .bool _ _ | .lambda _ _ => []

def refArgsAll : List AExpr → List AExpr
  | [] => []
  | expr :: exprs => refArgs expr ++ refArgsAll exprs

end

mutual

/-- The arguments of the builtin function `data`. -/
def dataArgs : AExpr → List AExpr
  | .binary _ lhs _ rhs => dataArgs lhs ++ dataArgs rhs
  | .unary _ _ expr | .member _ expr _ | .make _ expr _ => dataArgs expr
  | .callPtr _ func args => dataArgs func ++ dataArgsAll args
  | .callMethod _ _ self args => dataArgs self ++ dataArgsAll args
  | .callBtn _ func args => dataArgsAll args ++ if func = .data then args else []
  | .subscript _ object index => dataArgs object ++ dataArgs index
  | .ternary _ cond troo fols => dataArgs cond ++ (dataArgs troo ++ dataArgs fols)
  | .callFunc _ _ exprs | .array _ exprs | .initList _ exprs => dataArgsAll exprs
  | .ident _ _ _ | .funcRef _ _ | .string _ _ | .char _ _ | .number _ _ | .bool _ _ | .lambda _ _ => []

def dataArgsAll : List AExpr → List AExpr
  | [] => []
  | expr :: exprs => dataArgs expr ++ dataArgsAll exprs

end

theorem mutable_of_compatParam {param : ParamRef × Ty} {etype : ExprType} (href : param.1 = .ref)
    (h : compatParam (convert param) etype = true) : etype.mut_ = .var := by
  simp only [compatParam, callMutRef, convert, href, convertRef, callMut, Bool.and_eq_true] at h
  simpa using h.2

/-- An argument is only accepted for a reference parameter if it is mutable. -/
theorem passed_lvalues {known : Symbol → Prop} {wanted : Ty → Prop} : (params : List (ParamRef × Ty)) →
    (args : List AExpr) → (types : List ExprType) → TypedAll known wanted args types →
    compatParams (params.map convert) types = true → ∀ arg ∈ passed params args, classifyValue arg = .lvalue
  | [], _, _, _, _, arg, harg | _ :: _, [], _, _, _, arg, harg => by
    simp [passed] at harg
  | param :: params, expr :: args, _, ⟨etype, types, rfl, htyped, htypes⟩, hcompat, arg, harg => by
    simp only [compatParams, List.map_cons, List.length_cons, List.zip_cons_cons, List.all_cons, Bool.and_eq_true,
      beq_iff_eq, Nat.add_right_cancel_iff] at hcompat
    obtain ⟨hlength, hparam, hparams⟩ := hcompat
    have hrest : compatParams (params.map convert) types = true := by
      simp only [compatParams, hlength, hparams, beq_self_eq_true, Bool.and_self]
    by_cases href : param.1 = .ref
    · simp only [passed, List.zip_cons_cons, href, decide_true, List.filter_cons_of_pos, List.map_cons] at harg
      rcases List.mem_cons.mp harg with rfl | harg
      · exact lvalue_of_mutable arg etype htyped (mutable_of_compatParam href hparam)
      · exact passed_lvalues params args types htypes hrest arg harg
    · simp only [passed, List.zip_cons_cons, href, decide_false, Bool.false_eq_true, not_false_eq_true,
        List.filter_cons_of_neg] at harg
      exact passed_lvalues params args types htypes hrest arg harg

theorem passed_receiver {known : Symbol → Prop} {wanted : Ty → Prop} {receiver : Option (ParamRef × Ty)} {self : AExpr}
    {etype : ExprType} {default : ParamRef × Ty} (htyped : Typed known wanted self etype)
    (h : compatReceiver (receiver.map convert) (some etype) = true) :
    ∀ arg ∈ passed [receiver.getD default] [self], classifyValue arg = .lvalue := by
  cases receiver with
  | none => cases h
  | some param =>
    refine passed_lvalues [param] [self] [etype] ⟨etype, [], rfl, htyped, rfl⟩ ?_
    simpa [compatParams, compatReceiver] using h

/-- Every builtin function that changes its array requires it to be mutable. -/
theorem mutable_of_callBtnFunc {func : BtnFunc} {etype : ExprType} {types : List ExprType} {ret : Ty}
    (hfunc : func ≠ .capacity ∧ func ≠ .size ∧ func ≠ .data) (h : callBtnFunc func (etype :: types) = .ok ret) :
    etype.mut_ = .var := by
  have hmut : ∀ {f : BtnFunc} {u : Unit}, checkMutRef f etype = .ok u → etype.mut_ = .var := by
    intro f u h
    simpa [callMut] using require_eq_ok.mp h
  cases func with
  | capacity | size | data => simp at hfunc
  | push_back | append | resize | reserve =>
    cases types with
    | nil => cases h
    | cons other types =>
      cases types with
      | cons => cases h
      | nil =>
        obtain ⟨_, -, h⟩ := Library.Except.bind_eq_ok.mp h
        obtain ⟨_, hcheck, -⟩ := Library.Except.bind_eq_ok.mp h
        exact hmut hcheck
  | pop_back =>
    cases types with
    | cons => cases h
    | nil =>
      obtain ⟨_, -, h⟩ := Library.Except.bind_eq_ok.mp h
      obtain ⟨_, hcheck, -⟩ := Library.Except.bind_eq_ok.mp h
      exact hmut hcheck

theorem passed_values (args : List AExpr) (types : AExpr → Ty) :
    passed (args.map fun arg ↦ (.val, types arg)) args = [] := by
  induction args with
  | nil => rfl
  | cons arg args ih => simpa [passed] using ih

/-- Only the first argument of a builtin function is passed by reference. -/
theorem mem_passed_btnParams {func : BtnFunc} {args : List AExpr} {arg : AExpr}
    (h : arg ∈ passed (GenerateExpr.btnParams func args) args) :
    (func ≠ .capacity ∧ func ≠ .size) ∧ ∃ rest, args = arg :: rest := by
  cases args with
  | nil => cases h
  | cons arr rest =>
    by_cases hval : func = .capacity ∨ func = .size
    · simp only [GenerateExpr.btnParams, hval, if_true, passed, List.zip_cons_cons, reduceCtorEq, decide_false,
        Bool.false_eq_true, not_false_eq_true, List.filter_cons_of_neg] at h
      have hnone := passed_values rest AExpr.exprType
      rw [passed] at hnone
      rw [hnone] at h
      cases h
    · simp only [GenerateExpr.btnParams, hval, if_false, passed, List.zip_cons_cons, decide_true,
        List.filter_cons_of_pos, List.map_cons] at h
      have hnone := passed_values rest AExpr.exprType
      rw [passed] at hnone
      rw [hnone] at h
      obtain rfl := List.mem_singleton.mp h
      exact ⟨not_or.mp hval, rest, rfl⟩

/-! ## The assertions of the generator -/

mutual

/-- What is passed by reference is an lvalue, unless it is an argument of `data`. -/
theorem refArgs_lvalues : (expr : AExpr) → WellTyped expr →
    ∀ arg ∈ refArgs expr, classifyValue arg = .lvalue ∨ arg ∈ dataArgs expr
  | .binary _ lhs _ rhs, ⟨_, _, _, _, hlhs, hrhs, _⟩, arg, harg => by
    rcases List.mem_append.mp harg with harg | harg
    · exact (refArgs_lvalues lhs (wellTyped_of_checked hlhs) arg harg).imp_right (List.mem_append_left _)
    · exact (refArgs_lvalues rhs (wellTyped_of_checked hrhs) arg harg).imp_right (List.mem_append_right _)
  | .unary _ _ expr, ⟨_, _, _, hexpr, _⟩, arg, harg => refArgs_lvalues expr (wellTyped_of_checked hexpr) arg harg
  | .make _ expr _, ⟨_, _, _, _, hexpr⟩, arg, harg => refArgs_lvalues expr ⟨_, hexpr⟩ arg harg
  | .member _ object _, ⟨_, _, _, hobject, _⟩, arg, harg => refArgs_lvalues object ⟨_, hobject⟩ arg harg
  | .callPtr _ func args, ⟨_, _, _, params, hfunc, htype, _, hargs, hcompat⟩, arg, harg => by
    rcases List.mem_append.mp harg with harg | harg
    · exact (refArgs_lvalues func ⟨_, hfunc⟩ arg harg).imp_right (List.mem_append_left _)
    · rcases List.mem_append.mp harg with harg | harg
      · exact (refArgsAll_lvalues args ⟨_, hargs⟩ arg harg).imp_right (List.mem_append_right _)
      · rw [← typed_exprType hfunc, htype] at harg
        exact .inl (passed_lvalues params args _ hargs hcompat arg harg)
  | .callFunc _ func args, ⟨_, _, _, _, _, hargs, hcompat⟩, arg, harg => by
    rcases List.mem_append.mp harg with harg | harg
    · exact refArgsAll_lvalues args ⟨_, hargs⟩ arg harg
    · exact .inl (passed_lvalues func.params args _ hargs hcompat arg harg)
  | .callMethod _ func self args, ⟨_, _, _, _, _, _, hself, hreceiver, hargs, hcompat⟩, arg, harg => by
    rcases List.mem_append.mp harg with harg | harg
    · exact (refArgs_lvalues self ⟨_, hself⟩ arg harg).imp_right (List.mem_append_left _)
    · rcases List.mem_append.mp harg with harg | harg
      · exact (refArgsAll_lvalues args ⟨_, hargs⟩ arg harg).imp_right (List.mem_append_right _)
      · rcases List.mem_append.mp harg with harg | harg
        · exact .inl (passed_receiver hself hreceiver arg harg)
        · exact .inl (passed_lvalues func.params args _ hargs hcompat arg harg)
  | .callBtn _ func args, ⟨_, _, _, hargs, hret⟩, arg, harg => by
    rcases List.mem_append.mp harg with harg | harg
    · exact (refArgsAll_lvalues args ⟨_, hargs⟩ arg harg).imp_right (List.mem_append_left _)
    · obtain ⟨⟨hcapacity, hsize⟩, rest, rfl⟩ := mem_passed_btnParams harg
      by_cases hdata : func = .data
      · right
        refine List.mem_append_right _ ?_
        rw [if_pos hdata]
        exact List.mem_cons_self
      · obtain ⟨etype, types, rfl, htyped, -⟩ := hargs
        exact .inl (lvalue_of_mutable arg etype htyped (mutable_of_callBtnFunc ⟨hcapacity, hsize, hdata⟩ hret))
  | .subscript _ object index, ⟨_, _, _, _, hobject, hindex, _⟩, arg, harg => by
    rcases List.mem_append.mp harg with harg | harg
    · exact (refArgs_lvalues object ⟨_, hobject⟩ arg harg).imp_right (List.mem_append_left _)
    · exact (refArgs_lvalues index ⟨_, hindex⟩ arg harg).imp_right (List.mem_append_right _)
  | .ternary _ cond troo fols, ⟨_, _, _, _, _, hcond, htroo, hfols, _⟩, arg, harg => by
    rcases List.mem_append.mp harg with harg | harg
    · exact (refArgs_lvalues cond (wellTyped_of_checked hcond) arg harg).imp_right (List.mem_append_left _)
    · rcases List.mem_append.mp harg with harg | harg
      · exact (refArgs_lvalues troo (wellTyped_of_checked htroo) arg harg).imp_right
          fun hmem ↦ List.mem_append_right _ (List.mem_append_left _ hmem)
      · exact (refArgs_lvalues fols (wellTyped_of_checked hfols) arg harg).imp_right
          fun hmem ↦ List.mem_append_right _ (List.mem_append_right _ hmem)
  | .array _ exprs, ⟨_, _, _, _, hexprs, _⟩, arg, harg => refArgsAll_lvalues exprs ⟨_, hexprs⟩ arg harg
  | .initList _ exprs, ⟨_, _, _, _, hexprs⟩, arg, harg => refArgsAll_lvalues exprs ⟨_, hexprs⟩ arg harg
  | .ident .., _, _, harg | .funcRef .., _, _, harg | .string .., _, _, harg | .char .., _, _, harg
  | .number .., _, _, harg | .bool .., _, _, harg | .lambda .., _, _, harg => by cases harg

theorem refArgsAll_lvalues : (exprs : List AExpr) → AllWellTyped exprs →
    ∀ arg ∈ refArgsAll exprs, classifyValue arg = .lvalue ∨ arg ∈ dataArgsAll exprs
  | [], _, _, harg => by cases harg
  | expr :: exprs, ⟨_, _, _, _, hexpr, hexprs⟩, arg, harg => by
    rcases List.mem_append.mp harg with harg | harg
    · exact (refArgs_lvalues expr ⟨_, hexpr⟩ arg harg).imp_right (List.mem_append_left _)
    · exact (refArgsAll_lvalues exprs ⟨_, hexprs⟩ arg harg).imp_right (List.mem_append_right _)

end

theorem mem_passed_data {known : Symbol → Prop} {wanted : Ty → Prop} {args : List AExpr} {types : List ExprType}
    {ret : Ty} {arg : AExpr} (hargs : TypedAll known wanted args types) (h : callBtnFunc .data types = .ok ret)
    (harg : arg ∈ args) : arg ∈ passed (GenerateExpr.btnParams .data args) args := by
  match args, types, hargs with
  | [], _, _ => cases harg
  | [expr], _, _ =>
    obtain rfl := List.mem_singleton.mp harg
    exact List.mem_cons_self
  | _ :: _ :: _, _, ⟨_, _, rfl, _, _, _, rfl, _, _⟩ => cases h

mutual

/-- The argument of `data` is passed by reference. -/
theorem dataArgs_subset : (expr : AExpr) → WellTyped expr → ∀ arg ∈ dataArgs expr, arg ∈ refArgs expr
  | .binary _ lhs _ rhs, ⟨_, _, _, _, hlhs, hrhs, _⟩, arg, harg =>
    (List.mem_append.mp harg).elim
      (fun harg ↦ List.mem_append_left _ (dataArgs_subset lhs (wellTyped_of_checked hlhs) arg harg))
      (fun harg ↦ List.mem_append_right _ (dataArgs_subset rhs (wellTyped_of_checked hrhs) arg harg))
  | .unary _ _ expr, ⟨_, _, _, hexpr, _⟩, arg, harg => dataArgs_subset expr (wellTyped_of_checked hexpr) arg harg
  | .make _ expr _, ⟨_, _, _, _, hexpr⟩, arg, harg => dataArgs_subset expr ⟨_, hexpr⟩ arg harg
  | .member _ object _, ⟨_, _, _, hobject, _⟩, arg, harg => dataArgs_subset object ⟨_, hobject⟩ arg harg
  | .callPtr _ func args, ⟨_, _, _, _, hfunc, _, _, hargs, _⟩, arg, harg =>
    (List.mem_append.mp harg).elim (fun harg ↦ List.mem_append_left _ (dataArgs_subset func ⟨_, hfunc⟩ arg harg))
      (fun harg ↦ List.mem_append_right _ (List.mem_append_left _ (dataArgsAll_subset args ⟨_, hargs⟩ arg harg)))
  | .callFunc _ func args, ⟨_, _, _, _, _, hargs, _⟩, arg, harg =>
    List.mem_append_left _ (dataArgsAll_subset args ⟨_, hargs⟩ arg harg)
  | .callMethod _ func self args, ⟨_, _, _, _, _, _, hself, _, hargs, _⟩, arg, harg =>
    (List.mem_append.mp harg).elim (fun harg ↦ List.mem_append_left _ (dataArgs_subset self ⟨_, hself⟩ arg harg))
      (fun harg ↦ List.mem_append_right _ (List.mem_append_left _ (dataArgsAll_subset args ⟨_, hargs⟩ arg harg)))
  | .callBtn _ func args, ⟨_, _, types, hargs, hret⟩, arg, harg => by
    rcases List.mem_append.mp harg with harg | hmem
    · exact List.mem_append_left _ (dataArgsAll_subset args ⟨_, hargs⟩ arg harg)
    · refine List.mem_append_right _ ?_
      by_cases hdata : func = .data
      · rw [if_pos hdata] at hmem
        rw [hdata] at hret ⊢
        exact mem_passed_data hargs hret hmem
      · rw [if_neg hdata] at hmem
        cases hmem
  | .subscript _ object index, ⟨_, _, _, _, hobject, hindex, _⟩, arg, harg =>
    (List.mem_append.mp harg).elim (fun harg ↦ List.mem_append_left _ (dataArgs_subset object ⟨_, hobject⟩ arg harg))
      (fun harg ↦ List.mem_append_right _ (dataArgs_subset index ⟨_, hindex⟩ arg harg))
  | .ternary _ cond troo fols, ⟨_, _, _, _, _, hcond, htroo, hfols, _⟩, arg, harg => by
    rcases List.mem_append.mp harg with harg | harg
    · exact List.mem_append_left _ (dataArgs_subset cond (wellTyped_of_checked hcond) arg harg)
    · refine List.mem_append_right _ ?_
      rcases List.mem_append.mp harg with harg | harg
      · exact List.mem_append_left _ (dataArgs_subset troo (wellTyped_of_checked htroo) arg harg)
      · exact List.mem_append_right _ (dataArgs_subset fols (wellTyped_of_checked hfols) arg harg)
  | .array _ exprs, ⟨_, _, _, _, hexprs, _⟩, arg, harg => dataArgsAll_subset exprs ⟨_, hexprs⟩ arg harg
  | .initList _ exprs, ⟨_, _, _, _, hexprs⟩, arg, harg => dataArgsAll_subset exprs ⟨_, hexprs⟩ arg harg
  | .ident .., _, _, harg | .funcRef .., _, _, harg | .string .., _, _, harg | .char .., _, _, harg
  | .number .., _, _, harg | .bool .., _, _, harg | .lambda .., _, _, harg => by cases harg

theorem dataArgsAll_subset : (exprs : List AExpr) → AllWellTyped exprs → ∀ arg ∈ dataArgsAll exprs, arg ∈ refArgsAll exprs
  | [], _, _, harg => by cases harg
  | expr :: exprs, ⟨_, _, _, _, hexpr, hexprs⟩, arg, harg =>
    (List.mem_append.mp harg).elim (fun harg ↦ List.mem_append_left _ (dataArgs_subset expr ⟨_, hexpr⟩ arg harg))
      (fun harg ↦ List.mem_append_right _ (dataArgsAll_subset exprs ⟨_, hexprs⟩ arg harg))

end

/-- `glvalue(dst.cat)` for the destination of an assignment, and `evalExpr.cat == lvalue` for every argument that is
passed by reference; what is passed is an object that is there already. -/
structure AssertionsHold (use : Use) (expr : AExpr) : Prop where
  dst : use = .dst → IsObject expr
  param : ∀ arg ∈ refArgs expr, IsObject arg

/-- Every argument of `data` is an lvalue. -/
def DataOfLvalues (_use : Use) (expr : AExpr) : Prop :=
  ∀ arg ∈ dataArgs expr, classifyValue arg = .lvalue

theorem assertionsHold_iff {use : Use} {expr : AExpr} (h : TypedUse use expr) :
    AssertionsHold use expr ↔ DataOfLvalues use expr := by
  constructor
  · intro hassert arg harg
    exact (hassert.param arg (dataArgs_subset expr h.wellTyped arg harg)).cat
  · intro hdata
    obtain ⟨etype, htyped, hmut⟩ := h
    refine ⟨fun huse ↦ isObject_iff.mpr (lvalue_of_mutable expr etype htyped (hmut huse)), fun arg harg ↦ ?_⟩
    rcases refArgs_lvalues expr ⟨etype, htyped⟩ arg harg with hlvalue | hmem
    · exact isObject_iff.mpr hlvalue
    · exact isObject_iff.mpr (hdata arg hmem)

/-! ## Arrays whose data is taken -/

def charsType : Ty := .array (.btn .char)

/-- `func (s: [char]) { data(s); push_back(s, 'a'); }`, with the result of `data` in a local. -/
def takesLocalData : Program Expr where
  globals := []
  bodies := [⟨[(.val, charsType)], some (.btn .void),
    [.decl (.let_ "p" none (.call (.ident "data" [.btnFunc .data]) [.ident "s" [.object 0 ⟨charsType, .var, .val⟩ none]])),
      .asgn (.callAssign (.call (.ident "push_back" [.btnFunc .push_back])
        [.ident "s" [.object 0 ⟨charsType, .var, .val⟩ none], .char [97]]))]⟩]

/-- `func () { let p = data("text"); }`. -/
def takesLiteralData : Program Expr where
  globals := []
  bodies := [⟨[], some (.btn .void),
    [.decl (.let_ "p" none (.call (.ident "data" [.btnFunc .data]) [.string [116, 101, 120, 116]]))]⟩]

end Stela.CodeGen.MutableLvalues
