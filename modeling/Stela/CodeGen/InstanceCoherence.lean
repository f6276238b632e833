import Stela.CodeGen.FuncInstantiations

/-!
# Coherence of the generated functions

A function is looked up under an LLVM type, which forgets signs and user types. `gets_iff` says exactly when every
request is still given the function that would have been generated for its own type: when any two types with one LLVM
type have the same traits, which are the signs of the integers that are ordered and what the user types provide.
-/

namespace Stela.CodeGen.InstanceCoherence

open Stela.Syntax GenerateType FuncInstantiations Library Recipe
open LifetimeExprs (Fault LifetimeOp CompareOp)

/-! ## Traits -/

/-- What is emitted where the LLVM type does not tell, if it can be emitted. -/
abbrev Trait := Option Instr

/-- What a user type provides for an operation. -/
def lifetimeTrait (op : LifetimeOp) (size align : ℕ) (ctors : UserCtors) : Trait :=
  if (op.ctor ctors).addr = UserCtor.none then none
  else if (op.ctor ctors).addr = UserCtor.trivial then some (onTrivial size align op)
  else some (.native (op.ctor ctors))

def compareTrait (op : CompareOp) (ctors : UserCtors) : Trait :=
  if (op.ctor ctors).addr = UserCtor.none then none
  else if (op.ctor ctors).addr = UserCtor.trivial then none
  else some (.native (op.ctor ctors))

/-- Integers are ordered by their sign. -/
def orderTraits : BtnType → List Trait
  | .char | .sint => [some .icmpSlt]
  | .bool | .byte | .uint => [some .icmpUlt]
  | .real | .void | .opaq => []

mutual

def lifetimeTraits : LifetimeOp → Ty → List Trait
  | _, .btn _ | _, .func _ _ => []
  | op, .array elem => if op.dropsStorage then lifetimeTraits .destroy elem else []
  | op, .named _ _ _ type => lifetimeTraits op type
  | op, .struct fields => lifetimeFieldTraits op fields
  | op, .user _ size align ctors => [lifetimeTrait op size align ctors]

def lifetimeFieldTraits : LifetimeOp → List (String × Ty) → List Trait
  | _, [] => []
  | op, (_, type) :: fields => lifetimeTraits op type ++ lifetimeFieldTraits op fields

end

mutual

def compareTraits (op : CompareOp) : Ty → List Trait
  | .btn value =>
      match op with
      | .eq => []
      | .lt => orderTraits value
  | .func _ _ => []
  | .array elem => bothWays op (compareTraits op elem)
  | .named _ _ _ type => compareTraits op type
  | .struct fields => compareFieldTraits op fields
  | .user _ _ _ ctors => [compareTrait op ctors]

def compareFieldTraits (op : CompareOp) : List (String × Ty) → List Trait
  | [] => []
  | (_, type) :: fields => bothWays op (compareTraits op type) ++ compareFieldTraits op fields

end

/-- Moving the elements to a new storage. -/
def moveTraits (elem : Ty) : List Trait :=
  if classifyType elem = .nontrivial then lifetimeTraits .moveConstruct elem ++ lifetimeTraits .destroy elem else []

def btnTraits (func : BtnFunc) (elem : Ty) : List Trait :=
  match func with
  | .capacity | .size | .data => []
  | .push_back | .append => moveTraits elem ++ lifetimeTraits .copyConstruct elem
  | .pop_back => lifetimeTraits .destroy elem
  | .resize => lifetimeTraits .destroy elem ++ (moveTraits elem ++ lifetimeTraits .defConstruct elem)
  | .reserve => moveTraits elem

def fnTraits (fn : PFGI) (type : Ty) : List Trait :=
  match fn, type with
  | .arr op, .array elem => lifetimeTraits op (.array elem)
  | .arr_strg_dtor, .array elem => lifetimeTraits .destroy elem
  | .arrCompare op, .array elem => compareTraits op (.array elem)
  | .srt op, .struct fields => lifetimeTraits op (.struct fields)
  | .srtCompare op, .struct fields => compareTraits op (.struct fields)
  | .reallocate, .array elem => moveTraits elem
  | .btn func, .array elem => btnTraits func elem
  | .usr op, .user _ _ _ ctors => [some (.native (op.ctor ctors))]
  | .usrCompare op, .user _ _ _ ctors => [some (.native (op.ctor ctors))]
  | .usr_bool, .user _ _ _ ctors => [some (.native ctors.boolConv)]
  | _, _ => []

/-- The traits of a function and of all those that it calls. -/
def traits : Request → List Trait
  | (.construct_n, obj) => lifetimeTraits .defConstruct obj
  | (.destroy_n, obj) => lifetimeTraits .destroy obj
  | (.copy_n, obj) => lifetimeTraits .copyConstruct obj
  | (.move_n, obj) => moveTraits obj
  | (fn, type) => fnTraits fn type.concreteType

/-! ## Operations on objects with one LLVM type -/

theorem lifetime_concreteType (op : LifetimeOp) : (type : Ty) → lifetime op type.concreteType = lifetime op type :=
  Ty.map_concreteType fun _ _ _ _ ↦ rfl

theorem comparison_concreteType (op : CompareOp) : (type : Ty) →
    comparison op type.concreteType = comparison op type :=
  Ty.map_concreteType fun _ _ _ _ ↦ rfl

theorem lifetimeTraits_concreteType (op : LifetimeOp) : (type : Ty) →
    lifetimeTraits op type.concreteType = lifetimeTraits op type :=
  Ty.map_concreteType fun _ _ _ _ ↦ rfl

theorem compareTraits_concreteType (op : CompareOp) : (type : Ty) →
    compareTraits op type.concreteType = compareTraits op type :=
  Ty.map_concreteType fun _ _ _ _ ↦ rfl

theorem key_eq {type type' : Ty} (fn : PFGI) (h : Alike type type') :
    recipe.key (fn, type) = recipe.key (fn, type') := by
  obtain ⟨llvm, hl, hl'⟩ := h
  change (generateType type >>= fun llvm ↦ pure (fn, llvm)) = (generateType type' >>= fun llvm ↦ pure (fn, llvm))
  rw [hl, hl']

/-- Both functions are asked for under one LLVM type. -/
theorem tell_request {type type' : Ty} {a b : List Trait} (fn : PFGI) (h : Alike type type')
    (hsteps : Tell ((steps (fn, type)).mapM result) ((steps (fn, type')).mapM result) a b) :
    Tell (result (.request (fn, type))) (result (.request (fn, type'))) a b :=
  tell_make (key_eq fn h) hsteps

theorem tell_single {s s' : Emitted} {a b : List Trait} (h : Tell (result s) (result s') a b) :
    Tell ([s].mapM result) ([s'].mapM result) a b := by
  have hlist := tell_cons h (.of_eq rfl : Tell ([].mapM result) ([].mapM result) ([] : List Trait) [])
  rw [List.append_nil, List.append_nil] at hlist
  exact hlist

theorem tell_element {op : CompareOp} {s s' : Emitted} {a b : List Trait} (h : Tell (result s) (result s') a b) :
    Tell ((bothWays op [s]).mapM result) ((bothWays op [s']).mapM result) (bothWays op a) (bothWays op b) := by
  cases op with
  | eq => exact tell_single h
  | lt => exact tell_cons h (tell_single h)

/-- What comes of the operation of a user type with the given trait. -/
def ofTrait (key : PFGI × LLVMType) : Trait → Except Fault (Product (PFGI × LLVMType) Instr)
  | none => .error .assertion
  | some (.native ctor) => .ok (.made key [.part (.native ctor)])
  | some instr => .ok (.part instr)

theorem ofTrait_inj {key : PFGI × LLVMType} {t t' : Trait} {product : Product (PFGI × LLVMType) Instr}
    (h : ofTrait key t = .ok product) (h' : ofTrait key t' = .ok product) : t = t' := by
  have hsame := h.trans h'.symm
  unfold ofTrait at hsame
  split at hsame <;> split at hsame <;> simp_all

theorem tell_ofTrait (key : PFGI × LLVMType) (t t' : Trait) : Tell (ofTrait key t) (ofTrait key t') [t] [t'] :=
  .one (congrArg (ofTrait key)) fun _ h h' ↦ ofTrait_inj h h'

section User

variable {fields : List (String × Ty × ℕ)} {size align : ℕ} {ctors : UserCtors} {llvm : LLVMType}

theorem make_native {fn : PFGI} {ctor : UserCtor} (h : generateType (.user fields size align ctors) = .ok llvm)
    (hsteps : steps (fn, .user fields size align ctors) = [.part (.native ctor)]) :
    recipe.make (fn, .user fields size align ctors) = .ok (.made (fn, llvm) [.part (.native ctor)]) := by
  have hkey : recipe.key (fn, .user fields size align ctors) = .ok (fn, llvm) := by
    change (generateType _ >>= fun llvm ↦ pure (fn, llvm)) = _
    rw [h]
    rfl
  rw [Recipe.make_eq, hkey]
  change ((steps (fn, .user fields size align ctors)).mapM result >>= fun products ↦ _) = _
  rw [hsteps]
  rfl

theorem lifetime_user (op : LifetimeOp) (h : generateType (.user fields size align ctors) = .ok llvm) :
    result (lifetime op (.user fields size align ctors)) =
      ofTrait (.usr op, llvm) (lifetimeTrait op size align ctors) := by
  unfold lifetime lifetimeTrait
  split
  · rfl
  · split
    · cases op <;> rfl
    · exact make_native h rfl

theorem comparison_user (op : CompareOp) (h : generateType (.user fields size align ctors) = .ok llvm) :
    result (comparison op (.user fields size align ctors)) =
      ofTrait (.usrCompare op, llvm) (compareTrait op ctors) := by
  unfold comparison compareTrait
  split
  · rfl
  · split
    · rfl
    · exact make_native h rfl

end User

theorem tell_onBuiltin (op : LifetimeOp) {value value' : BtnType} (h : generateBtnType value = generateBtnType value') :
    Tell (result (onBuiltin op value)) (result (onBuiltin op value')) ([] : List Trait) [] := by
  apply Tell.of_eq
  cases value <;> cases value' <;> first | rfl | (cases op <;> rfl) | cases h

theorem tell_part (p q : Instr) : Tell (result (.part p)) (result (.part q)) [some p] [some q] := by
  apply Tell.one
  · intro h
    cases h
    rfl
  · intro r hp hq
    have hsame : Product.part p = Product.part q := Except.ok.inj (hp.trans hq.symm)
    cases hsame
    rfl

theorem tell_compareBuiltin (op : CompareOp) {value value' : BtnType}
    (h : generateBtnType value = generateBtnType value') :
    Tell (result (compareBuiltin op value)) (result (compareBuiltin op value'))
      (compareTraits op (.btn value)) (compareTraits op (.btn value')) := by
  cases op with
  | eq =>
    apply Tell.of_eq
    cases value <;> cases value' <;> first | rfl | cases h
  | lt =>
    cases value <;> cases value' <;> first | exact tell_part _ _ | exact Tell.of_eq rfl | cases h

/-- Nothing is done to an object that is trivially copyable, one by one. -/
theorem lifetimeTraits_of_trivial (op : LifetimeOp) : (type : Ty) → classifyType type = .trivially_copyable →
    lifetimeTraits op type = []
  | .btn _, _ => rfl
  | .named _ _ _ type, h => lifetimeTraits_of_trivial op type h
  | .array _, h | .func _ _, h | .struct _, h | .user _ _ _ _, h => nomatch h

/-- A list of operations, none of which is left out on account of a trivially copyable type. -/
theorem tell_unlessTrivial {type type' : Ty} (h : Alike type type') (op : LifetimeOp)
    (hone : Tell (result (lifetime op type)) (result (lifetime op type'))
      (lifetimeTraits op type) (lifetimeTraits op type')) :
    Tell ((unlessTrivial type [lifetime op type]).mapM result) ((unlessTrivial type' [lifetime op type']).mapM result)
      (lifetimeTraits op type) (lifetimeTraits op type') := by
  unfold unlessTrivial
  rw [← h.classifyType_eq]
  split
  case isTrue htriv =>
    rw [lifetimeTraits_of_trivial op type htriv,
      lifetimeTraits_of_trivial op type' (h.classifyType_eq.symm.trans htriv)]
    exact .of_eq rfl
  case isFalse => exact tell_single hone

theorem tell_storage {elem elem' : Ty} (h : Alike (.array elem) (.array elem')) (helem : Alike elem elem')
    (hdestroy : Tell (result (lifetime .destroy elem)) (result (lifetime .destroy elem'))
      (lifetimeTraits .destroy elem) (lifetimeTraits .destroy elem')) :
    Tell (result (.request (.arr_strg_dtor, .array elem))) (result (.request (.arr_strg_dtor, .array elem')))
      (lifetimeTraits .destroy elem) (lifetimeTraits .destroy elem') := by
  have hloop := tell_request .destroy_n helem (tell_unlessTrivial helem .destroy hdestroy)
  exact tell_request .arr_strg_dtor h (tell_single hloop)

theorem tell_nothing {type type' : Ty} (fn : PFGI) (h : Alike type type') (hsteps : steps (fn, type) = [])
    (hsteps' : steps (fn, type') = []) :
    Tell (result (.request (fn, type))) (result (.request (fn, type'))) ([] : List Trait) [] := by
  apply tell_request fn h
  rw [hsteps, hsteps']
  exact .of_eq rfl

/-- It is enough to look at the other type once its names are followed. -/
theorem tell_concrete {emit : Ty → Emitted} {traitsOf : Ty → List Trait} {type type' : Ty}
    (hemit : ∀ type : Ty, emit type.concreteType = emit type)
    (htraits : ∀ type : Ty, traitsOf type.concreteType = traitsOf type) (h : Alike type type')
    (hconcrete : ∀ concrete, AlikeNodes type.concreteType concrete → Alike type concrete →
      Tell (result (emit type)) (result (emit concrete)) (traitsOf type) (traitsOf concrete)) :
    Tell (result (emit type)) (result (emit type')) (traitsOf type) (traitsOf type') := by
  have halike : Alike type type'.concreteType := by
    unfold Alike
    rw [generateType_concreteType]
    exact h
  have htell := hconcrete type'.concreteType (Alike.nodes _ _ h) halike
  rw [hemit, htraits] at htell
  exact htell

mutual

theorem tell_lifetime (op : LifetimeOp) : (type type' : Ty) → Alike type type' →
    Tell (result (lifetime op type)) (result (lifetime op type')) (lifetimeTraits op type) (lifetimeTraits op type')
  | .named _ _ _ type, type', h => tell_lifetime op type type' h
  | .btn value, type', h => by
    apply tell_concrete (lifetime_concreteType op) (lifetimeTraits_concreteType op) h
    intro concrete hnodes halike
    cases hnodes with
    | btn hvalue => exact tell_onBuiltin op hvalue
  | .array elem, type', h => by
    apply tell_concrete (lifetime_concreteType op) (lifetimeTraits_concreteType op) h
    intro concrete hnodes halike
    cases hnodes with
    | array helem =>
      have hstorage := tell_storage halike helem (tell_lifetime .destroy elem _ helem)
      apply tell_request (.arr op) halike
      cases op with
      | copyAssign | moveAssign | destroy => exact tell_single hstorage
      | defConstruct | copyConstruct | moveConstruct => exact .of_eq rfl
  | .func params ret, type', h => by
    apply tell_concrete (lifetime_concreteType op) (lifetimeTraits_concreteType op) h
    intro concrete hnodes halike
    cases hnodes with
    | func =>
      have hstub := tell_nothing .clo_stub halike rfl rfl
      apply tell_request (.clo op) halike
      cases op with
      | defConstruct => exact tell_single hstub
      | copyAssign | moveAssign | destroy | copyConstruct | moveConstruct => exact .of_eq rfl
  | .struct fields, type', h => by
    apply tell_concrete (lifetime_concreteType op) (lifetimeTraits_concreteType op) h
    intro concrete hnodes halike
    cases hnodes with
    | struct hfields => exact tell_request (.srt op) halike (tell_lifetimeFields op fields _ hfields)
  | .user fields size align ctors, type', h => by
    apply tell_concrete (lifetime_concreteType op) (lifetimeTraits_concreteType op) h
    intro concrete hnodes halike
    cases hnodes with
    | user =>
      obtain ⟨llvm, hl, hl'⟩ := halike
      rw [lifetime_user op hl, lifetime_user op hl']
      exact tell_ofTrait _ _ _

theorem tell_lifetimeFields (op : LifetimeOp) : (fields fields' : List (String × Ty)) →
    List.Forall₂ (fun field field' ↦ Alike field.2 field'.2) fields fields' →
    Tell ((fields.map fun field ↦ lifetime op field.2).mapM result)
      ((fields'.map fun field ↦ lifetime op field.2).mapM result)
      (lifetimeFieldTraits op fields) (lifetimeFieldTraits op fields')
  | [], _, h => by
    cases h
    exact .of_eq rfl
  | (_, type) :: fields, _, h => by
    cases h with
    | cons hfirst hrest => exact tell_cons (tell_lifetime op type _ hfirst) (tell_lifetimeFields op fields _ hrest)

end

theorem tell_bothWays {op : CompareOp} {s s' : Emitted} {ss ss' : List Emitted} {a b as bs : List Trait}
    (h : Tell (result s) (result s') a b) (hs : Tell (ss.mapM result) (ss'.mapM result) as bs) :
    Tell ((bothWays op [s] ++ ss).mapM result) ((bothWays op [s'] ++ ss').mapM result)
      (bothWays op a ++ as) (bothWays op b ++ bs) := by
  cases op with
  | eq => exact tell_cons h hs
  | lt =>
    have htwice := tell_cons h (tell_cons h hs)
    rw [← List.append_assoc, ← List.append_assoc] at htwice
    exact htwice

mutual

theorem tell_comparison (op : CompareOp) : (type type' : Ty) → Alike type type' →
    Tell (result (comparison op type)) (result (comparison op type')) (compareTraits op type) (compareTraits op type')
  | .named _ _ _ type, type', h => tell_comparison op type type' h
  | .btn value, type', h => by
    apply tell_concrete (comparison_concreteType op) (compareTraits_concreteType op) h
    intro concrete hnodes halike
    cases hnodes with
    | btn hvalue => exact tell_compareBuiltin op hvalue
  | .array elem, type', h => by
    apply tell_concrete (comparison_concreteType op) (compareTraits_concreteType op) h
    intro concrete hnodes halike
    cases hnodes with
    | array helem => exact tell_request (.arrCompare op) halike (tell_element (tell_comparison op elem _ helem))
  | .func params ret, type', h => by
    apply tell_concrete (comparison_concreteType op) (compareTraits_concreteType op) h
    intro concrete hnodes halike
    cases hnodes with
    | func => exact tell_nothing (.cloCompare op) halike rfl rfl
  | .struct fields, type', h => by
    apply tell_concrete (comparison_concreteType op) (compareTraits_concreteType op) h
    intro concrete hnodes halike
    cases hnodes with
    | struct hfields => exact tell_request (.srtCompare op) halike (tell_comparisonFields op fields _ hfields)
  | .user fields size align ctors, type', h => by
    apply tell_concrete (comparison_concreteType op) (compareTraits_concreteType op) h
    intro concrete hnodes halike
    cases hnodes with
    | user =>
      obtain ⟨llvm, hl, hl'⟩ := halike
      rw [comparison_user op hl, comparison_user op hl']
      exact tell_ofTrait _ _ _

theorem tell_comparisonFields (op : CompareOp) : (fields fields' : List (String × Ty)) →
    List.Forall₂ (fun field field' ↦ Alike field.2 field'.2) fields fields' →
    Tell ((fields.flatMap fun field ↦ bothWays op [comparison op field.2]).mapM result)
      ((fields'.flatMap fun field ↦ bothWays op [comparison op field.2]).mapM result)
      (compareFieldTraits op fields) (compareFieldTraits op fields')
  | [], _, h => by
    cases h
    exact .of_eq rfl
  | (_, type) :: fields, _, h => by
    cases h with
    | cons hfirst hrest =>
      exact tell_bothWays (tell_comparison op type _ hfirst) (tell_comparisonFields op fields _ hrest)

end

/-! ## Functions for types with one LLVM type -/

theorem tell_move {elem elem' : Ty} (h : Alike elem elem') :
    Tell ((genLoop .move_n elem).mapM result) ((genLoop .move_n elem').mapM result)
      (moveTraits elem) (moveTraits elem') := by
  have hsteps (obj : Ty) : genLoop .move_n obj =
      if classifyType obj = .nontrivial then [lifetime .moveConstruct obj, lifetime .destroy obj] else [] := rfl
  rw [hsteps, hsteps, moveTraits, moveTraits, ← h.classifyType_eq]
  split
  · exact tell_cons (tell_lifetime .moveConstruct elem elem' h) (tell_single (tell_lifetime .destroy elem elem' h))
  · exact .of_eq rfl

theorem tell_reallocate {elem elem' : Ty} (h : Alike (.array elem) (.array elem')) (helem : Alike elem elem') :
    Tell (result (.request (.reallocate, .array elem))) (result (.request (.reallocate, .array elem')))
      (moveTraits elem) (moveTraits elem') :=
  tell_request .reallocate h (tell_single (tell_request .move_n helem (tell_move helem)))

theorem tell_loop {type type' : Ty} (h : Alike type type') (op : LifetimeOp) :
    Tell ((unlessTrivial type [lifetime op type]).mapM result) ((unlessTrivial type' [lifetime op type']).mapM result)
      (lifetimeTraits op type) (lifetimeTraits op type') :=
  tell_unlessTrivial h op (tell_lifetime op type type' h)

theorem tell_genBtn (func : BtnFunc) {elem elem' : Ty} (h : Alike (.array elem) (.array elem'))
    (helem : Alike elem elem') :
    Tell ((genBtn func elem).mapM result) ((genBtn func elem').mapM result) (btnTraits func elem) (btnTraits func elem') := by
  have hrealloc := tell_reallocate h helem
  cases func with
  | capacity | size | data => exact .of_eq rfl
  | push_back => exact tell_cons hrealloc (tell_loop helem .copyConstruct)
  | append => exact tell_cons hrealloc (tell_single (tell_request .copy_n helem (tell_loop helem .copyConstruct)))
  | pop_back => exact tell_single (tell_lifetime .destroy elem elem' helem)
  | resize =>
    have hdestroy := tell_request .destroy_n helem (tell_loop helem .destroy)
    have hconstruct := tell_request .construct_n helem (tell_loop helem .defConstruct)
    exact tell_cons hdestroy (tell_cons hrealloc (tell_single hconstruct))
  | reserve => exact tell_single hrealloc

theorem tell_genFn (fn : PFGI) {type type' : Ty} (hnodes : AlikeNodes type type') (h : Alike type type') :
    Tell ((genFn fn type).mapM result) ((genFn fn type').mapM result) (fnTraits fn type) (fnTraits fn type') := by
  cases hnodes with
  | btn _ => cases fn <;> exact .of_eq rfl
  | @array elem elem' helem =>
    have hdestroy := tell_lifetime .destroy elem elem' helem
    cases fn with
    | arr op =>
      have hstorage := tell_single (tell_storage h helem hdestroy)
      cases op with
      | copyAssign | moveAssign | destroy => exact hstorage
      | defConstruct | copyConstruct | moveConstruct => exact .of_eq rfl
    | arr_strg_dtor => exact tell_single (tell_request .destroy_n helem (tell_loop helem .destroy))
    | arrCompare op => exact tell_element (tell_comparison op elem elem' helem)
    | reallocate => exact tell_single (tell_request .move_n helem (tell_move helem))
    | btn func => exact tell_genBtn func h helem
    | _ => exact .of_eq rfl
  | func =>
    have hstub := tell_single (tell_nothing .clo_stub h rfl rfl)
    cases fn with
    | clo_bool => exact hstub
    | clo op =>
      cases op with
      | defConstruct => exact hstub
      | _ => exact .of_eq rfl
    | _ => exact .of_eq rfl
  | struct hfields =>
    cases fn with
    | srt op => exact tell_lifetimeFields op _ _ hfields
    | srtCompare op => exact tell_comparisonFields op _ _ hfields
    | _ => exact .of_eq rfl
  | user =>
    cases fn with
    | usr op => exact tell_single (tell_part _ _)
    | usrCompare op => exact tell_single (tell_part _ _)
    | usr_bool => exact tell_single (tell_part _ _)
    | _ => exact .of_eq rfl

theorem tell_steps (fn : PFGI) {type type' : Ty} (h : Alike type type') :
    Tell ((steps (fn, type)).mapM result) ((steps (fn, type')).mapM result) (traits (fn, type)) (traits (fn, type')) := by
  have hgen := tell_genFn fn (Alike.nodes _ _ h) h.concreteType
  cases fn with
  | construct_n => exact tell_loop h .defConstruct
  | destroy_n => exact tell_loop h .destroy
  | copy_n => exact tell_loop h .copyConstruct
  | move_n => exact tell_move h
  | _ => exact hgen

theorem tell_generated (fn : PFGI) {type type' : Ty} (h : Alike type type') :
    Tell (generated (fn, type)) (generated (fn, type')) (traits (fn, type)) (traits (fn, type')) :=
  tell_make (key_eq fn h) (tell_steps fn h)

theorem key_eq_ok {fn : PFGI} {type : Ty} {key : PFGI × LLVMType} (h : recipe.key (fn, type) = .ok key) :
    key.1 = fn ∧ generateType type = .ok key.2 := by
  obtain ⟨llvm, hllvm, hkey⟩ := Except.bind_eq_ok.mp h
  cases hkey
  exact ⟨rfl, hllvm⟩

/-- Requests that are looked up under one key are for one function, at types with one LLVM type. -/
theorem alike_of_key_eq {request request' : Request} (hkey : recipe.key request = recipe.key request')
    (hmade : ∃ function, generated request = .ok function) :
    request.1 = request'.1 ∧ Alike request.2 request'.2 := by
  obtain ⟨function, hfunction⟩ := hmade
  rw [generated, Recipe.make_eq] at hfunction
  obtain ⟨key, hk, -⟩ := Except.bind_eq_ok.mp hfunction
  obtain ⟨hfn, hllvm⟩ := key_eq_ok hk
  obtain ⟨hfn', hllvm'⟩ := key_eq_ok (hkey.symm.trans hk)
  exact ⟨hfn.symm.trans hfn', key.2, hllvm, hllvm'⟩

theorem tell_of_key_eq {request request' : Request} (hkey : recipe.key request = recipe.key request')
    (hmade : ∃ function, generated request = .ok function) :
    Tell (generated request) (generated request') (traits request) (traits request') := by
  obtain ⟨fn, type⟩ := request
  obtain ⟨fn', type'⟩ := request'
  obtain ⟨hfn, halike⟩ := alike_of_key_eq hkey hmade
  cases hfn
  exact tell_generated fn halike

/-- For a set of requests with all those that they lead to: whatever is requested, in whatever order, every request is
given the function that is generated for its own type, if and only if the functions for types with one LLVM type have
the same traits. -/
theorem gets_iff {P : Set Request} (hclosed : Closed recipe P) :
    (∀ requests : List Request, (∀ request ∈ requests, request ∈ P) → gets requests = requests.mapM generated) ↔
      ∀ fn type type', (fn, type) ∈ P → (fn, type') ∈ P → Alike type type' →
        (∃ function, generated (fn, type) = .ok function) → traits (fn, type) = traits (fn, type') := by
  have htell : ∀ request ∈ P, ∀ request' ∈ P, recipe.key request = recipe.key request' →
      (∃ function, generated request = .ok function) →
      Tell (generated request) (generated request') (traits request) (traits request') :=
    fun _ _ _ _ hkey hmade ↦ tell_of_key_eq hkey hmade
  have hiff : (∀ requests : List Request, (∀ request ∈ requests, request ∈ P) →
      gets requests = requests.mapM generated) ↔ Coherent recipe P := answers_iff hclosed
  rw [hiff, coherent_iff htell]
  constructor
  · intro h fn type type' hmem hmem' halike hmade
    exact h _ hmem _ hmem' (key_eq fn halike) hmade
  · intro h request hmem request' hmem' hkey hmade
    obtain ⟨fn, type⟩ := request
    obtain ⟨fn', type'⟩ := request'
    obtain ⟨hfn, halike⟩ := alike_of_key_eq hkey hmade
    cases hfn
    exact h fn type type' hmem hmem' halike hmade

theorem gets_iff_bytes : ¬∀ requests : List Request,
    (∀ request ∈ requests, request ∈ ({(.arrCompare .lt, .array (.btn .char)),
      (.arrCompare .lt, .array (.btn .byte))} : Set Request)) → gets requests = requests.mapM generated := by
  have hclosed : Closed recipe {(.arrCompare .lt, .array (.btn .char)), (.arrCompare .lt, .array (.btn .byte))} := by
    intro request hrequest request' hmem
    cases hrequest with
    | inl h =>
      subst h
      change (Step.request request' : Emitted) ∈ [Step.part Instr.icmpSlt, Step.part Instr.icmpSlt] at hmem
      simp at hmem
    | inr h =>
      cases h
      change (Step.request request' : Emitted) ∈ [Step.part Instr.icmpUlt, Step.part Instr.icmpUlt] at hmem
      simp at hmem
  intro h
  have htraits := (gets_iff hclosed).mp h (.arrCompare .lt) (.array (.btn .char)) (.array (.btn .byte))
    (.inl rfl) (.inr rfl) ⟨_, rfl, rfl⟩ ⟨_, rfl⟩
  cases htraits

/-! ## Programs without user types -/

mutual

def userFree : Ty → Bool
  | .btn _ | .func _ _ => true
  | .array elem => userFree elem
  | .named _ _ _ type => userFree type
  | .struct fields => fieldsUserFree fields
  | .user _ _ _ _ => false

def fieldsUserFree : List (String × Ty) → Bool
  | [] => true
  | (_, type) :: fields => userFree type && fieldsUserFree fields

end

theorem userFree_concreteType : (type : Ty) → userFree type.concreteType = userFree type :=
  Ty.map_concreteType fun _ _ _ _ ↦ rfl

theorem userFree_of_mem {field : String × Ty} : {fields : List (String × Ty)} → fieldsUserFree fields = true →
    field ∈ fields → userFree field.2 = true
  | (_, type) :: fields, h, hmem => by
    obtain ⟨hfirst, hrest⟩ := Bool.and_eq_true_iff.mp h
    cases List.mem_cons.mp hmem with
    | inl heq =>
      subst heq
      exact hfirst
    | inr hmem => exact userFree_of_mem hrest hmem

theorem userFree_part {type part : Ty} (h : userFree type = true) (hpart : part ∈ parts type) :
    userFree part = true := by
  cases type with
  | array elem =>
    cases List.mem_singleton.mp hpart
    exact h
  | struct fields =>
    obtain ⟨field, hfield, heq⟩ := List.mem_map.mp hpart
    subst heq
    exact userFree_of_mem h hfield
  | _ => cases hpart

/-- The function is not one that orders the parts of arrays or structs, and there is no user type in its type. -/
def Plain (request : Request) : Prop :=
  userFree request.2 = true ∧ ordersParts request.1 = false

theorem plain_closed : Closed recipe {request | Plain request} := by
  intro request hplain request' hmem
  obtain ⟨fn, type⟩ := request
  obtain ⟨huser, horders⟩ := hplain
  cases asked_of_mem hmem with
  | same htype _ hparts =>
    refine ⟨?_, hparts⟩
    rw [← userFree_concreteType, htype, userFree_concreteType]
    exact huser
  | part hpart htype hparts =>
    constructor
    · rw [← userFree_concreteType, htype, userFree_concreteType]
      exact userFree_part ((userFree_concreteType type).trans huser) hpart
    · by_contra hnot
      have := hparts (by simpa using hnot)
      simp_all

mutual

theorem lifetimeTraits_of_userFree (op : LifetimeOp) : (type : Ty) → userFree type = true → lifetimeTraits op type = []
  | .btn _, _ | .func _ _, _ => rfl
  | .array elem, h => by
    have helem := lifetimeTraits_of_userFree .destroy elem h
    rw [lifetimeTraits, helem, ite_self]
  | .named _ _ _ type, h => lifetimeTraits_of_userFree op type h
  | .struct fields, h => lifetimeFieldTraits_of_userFree op fields h

theorem lifetimeFieldTraits_of_userFree (op : LifetimeOp) : (fields : List (String × Ty)) →
    fieldsUserFree fields = true → lifetimeFieldTraits op fields = []
  | [], _ => rfl
  | (_, type) :: fields, h => by
    obtain ⟨hfirst, hrest⟩ := Bool.and_eq_true_iff.mp h
    rw [lifetimeFieldTraits, lifetimeTraits_of_userFree op type hfirst, lifetimeFieldTraits_of_userFree op fields hrest,
      List.append_nil]

end

mutual

/-- Whether two objects are equal does not depend on signs. -/
theorem compareTraits_of_userFree : (type : Ty) → userFree type = true → compareTraits .eq type = []
  | .btn _, _ | .func _ _, _ => rfl
  | .array elem, h => compareTraits_of_userFree elem h
  | .named _ _ _ type, h => compareTraits_of_userFree type h
  | .struct fields, h => compareFieldTraits_of_userFree fields h

theorem compareFieldTraits_of_userFree : (fields : List (String × Ty)) →
    fieldsUserFree fields = true → compareFieldTraits .eq fields = []
  | [], _ => rfl
  | (_, type) :: fields, h => by
    obtain ⟨hfirst, hrest⟩ := Bool.and_eq_true_iff.mp h
    have htype := compareTraits_of_userFree type hfirst
    rw [compareFieldTraits, bothWays, htype, compareFieldTraits_of_userFree fields hrest, List.append_nil]

end

theorem moveTraits_of_userFree {elem : Ty} (h : userFree elem = true) : moveTraits elem = [] := by
  rw [moveTraits, lifetimeTraits_of_userFree _ elem h, lifetimeTraits_of_userFree _ elem h, List.append_nil, ite_self]

theorem fnTraits_of_plain {fn : PFGI} {type : Ty} (huser : userFree type = true) (horders : ordersParts fn = false) :
    fnTraits fn type = [] := by
  cases type with
  | btn _ | func _ _ | named _ _ _ _ => cases fn <;> rfl
  | array elem =>
    cases fn with
    | arr op => exact lifetimeTraits_of_userFree op (.array elem) huser
    | arr_strg_dtor => exact lifetimeTraits_of_userFree .destroy elem huser
    | arrCompare op =>
      cases op with
      | eq => exact compareTraits_of_userFree (.array elem) huser
      | lt => cases horders
    | reallocate => exact moveTraits_of_userFree huser
    | btn func =>
      have hmove : moveTraits elem = [] := moveTraits_of_userFree huser
      have hlifetime (op : LifetimeOp) : lifetimeTraits op elem = [] := lifetimeTraits_of_userFree op elem huser
      cases func <;> simp [fnTraits, btnTraits, hmove, hlifetime]
    | _ => rfl
  | struct fields =>
    cases fn with
    | srt op => exact lifetimeTraits_of_userFree op (.struct fields) huser
    | srtCompare op =>
      cases op with
      | eq => exact compareTraits_of_userFree (.struct fields) huser
      | lt => cases horders
    | _ => rfl
  | user _ _ _ _ => cases huser

theorem traits_of_plain {request : Request} (h : Plain request) : traits request = [] := by
  obtain ⟨fn, type⟩ := request
  obtain ⟨huser, horders⟩ := h
  have hconcrete : userFree type.concreteType = true := (userFree_concreteType type).trans huser
  have hgen := fnTraits_of_plain hconcrete horders
  cases fn with
  | construct_n | destroy_n | copy_n => exact lifetimeTraits_of_userFree _ type huser
  | move_n => exact moveTraits_of_userFree huser
  | _ => exact hgen

theorem plain_coherent : Coherent recipe {request | Plain request} := by
  rw [coherent_iff fun _ _ _ _ hkey hmade ↦ tell_of_key_eq hkey hmade]
  intro request hplain request' hplain' _ _
  rw [traits_of_plain hplain, traits_of_plain hplain']

theorem userFree_closed : Closed recipe {request | userFree request.2 = true} := by
  intro request huser request' hmem
  obtain ⟨fn, type⟩ := request
  have hconcrete : userFree type.concreteType = true := (userFree_concreteType type).trans huser
  change userFree request'.2 = true
  rw [← userFree_concreteType]
  cases asked_of_mem hmem with
  | same htype _ _ =>
    rw [htype]
    exact hconcrete
  | part hpart htype _ =>
    rw [htype, userFree_concreteType]
    exact userFree_part hconcrete hpart

/-- The function is a part of the key. -/
theorem plain_apart : KeepsApart recipe {request | Plain request} {request | userFree request.2 = true} := by
  intro request hplain request' huser key hkey hkey'
  refine ⟨huser, ?_⟩
  rw [← (key_eq_ok hkey').1, (key_eq_ok hkey).1]
  exact hplain.2

/-- Without user types, whatever has been requested before, orders included: a constructor, a destructor, a copy, a
move, an equality, a conversion or a builtin function that is requested next is the one that is generated for its own
type, or fails as generating it does. Only an order can be mistaken for that of another type. -/
theorem gets_of_plain {before : List Request} (hbefore : ∀ request ∈ before, userFree request.2 = true)
    {functions : List (Product (PFGI × LLVMType) Instr)} (hgets : gets before = .ok functions) {request : Request}
    (hplain : Plain request) :
    gets (before ++ [request]) = (fun function ↦ functions ++ [function]) <$> generated request :=
  answers_concat_of_coherent plain_closed plain_coherent userFree_closed plain_apart hbefore hgets hplain

/-- The order of the characters is given for the bytes, and the arrays of either are destroyed as they should be. -/
theorem gets_of_plain_orders :
    gets ([(.arrCompare .lt, .array (.btn .char)), (.arrCompare .lt, .array (.btn .byte))] ++
        [(.arr .destroy, .array (.btn .byte))]) =
      (fun function ↦ [.made (.arrCompare .lt, ptrToArrayTy (.int 8)) [.part .icmpSlt, .part .icmpSlt],
        .made (.arrCompare .lt, ptrToArrayTy (.int 8)) [.part .icmpSlt, .part .icmpSlt]] ++ [function]) <$>
        generated (.arr .destroy, .array (.btn .byte)) :=
  gets_of_plain (by simp [userFree]) rfl ⟨rfl, rfl⟩

end Stela.CodeGen.InstanceCoherence
