import Stela.CodeGen.FuncInstantiations

/-!
# The requests of the generators

In `LifetimeExprs` the generator of a function runs where the function is asked for; `FuncInstantiations` lists what
each function asks for. Both ask for the same functions in the same order, and fail at the same places:
`performs_lifetime` and `performs_compare` for the operations on objects, `performs_getBtnFunc` for the builtin
functions.
-/

namespace Stela.CodeGen.FuncInstantiations

open Stela.Syntax LifetimeExprs

/-- The function that a plain `PFGI` names. -/
def family : LifetimeExprs.PFGI → PFGI
  | .construct_n => .construct_n
  | .destroy_n => .destroy_n
  | .copy_n => .copy_n
  | .move_n => .move_n
  | .reallocate => .reallocate
  | .btn_capacity => .btn .capacity
  | .btn_size => .btn .size
  | .btn_data => .btn .data
  | .btn_push_back => .btn .push_back
  | .btn_append => .btn .append
  | .btn_pop_back => .btn .pop_back
  | .btn_resize => .btn .resize
  | .btn_reserve => .btn .reserve
  | .arr_dtor => .arr .destroy
  | .arr_def_ctor => .arr .defConstruct
  | .arr_cop_ctor => .arr .copyConstruct
  | .arr_cop_asgn => .arr .copyAssign
  | .arr_mov_ctor => .arr .moveConstruct
  | .arr_mov_asgn => .arr .moveAssign
  | .arr_strg_dtor => .arr_strg_dtor
  | .arr_eq => .arrCompare .eq
  | .arr_lt => .arrCompare .lt
  | .srt_dtor => .srt .destroy
  | .srt_def_ctor => .srt .defConstruct
  | .srt_cop_ctor => .srt .copyConstruct
  | .srt_cop_asgn => .srt .copyAssign
  | .srt_mov_ctor => .srt .moveConstruct
  | .srt_mov_asgn => .srt .moveAssign
  | .srt_eq => .srtCompare .eq
  | .srt_lt => .srtCompare .lt
  | .clo_stub => .clo_stub
  | .clo_dtor => .clo .destroy
  | .clo_def_ctor => .clo .defConstruct
  | .clo_cop_ctor => .clo .copyConstruct
  | .clo_cop_asgn => .clo .copyAssign
  | .clo_mov_ctor => .clo .moveConstruct
  | .clo_mov_asgn => .clo .moveAssign
  | .clo_eq => .cloCompare .eq
  | .clo_lt => .cloCompare .lt
  | .usr_dtor => .usr .destroy
  | .usr_def_ctor => .usr .defConstruct
  | .usr_cop_ctor => .usr .copyConstruct
  | .usr_cop_asgn => .usr .copyAssign
  | .usr_mov_ctor => .usr .moveConstruct
  | .usr_mov_asgn => .usr .moveAssign
  | .usr_eq => .usrCompare .eq
  | .usr_lt => .usrCompare .lt

section Generators

variable (found : FuncInst → LifetimeExprs.PFGI → Ty → Bool)

mutual

/-- The generator does what has been emitted: a request is the generator of the function, at the first request. -/
inductive Performs : Emitted → Emit Unit → Prop
  | part (instr : Instr) : Performs (.part instr) (pure ())
  | fail (fault : Fault) : Performs (.fail fault) (throw fault)
  | request {fn : LifetimeExprs.PFGI} {type : Ty} {gen : Emit Unit} (hsteps : PerformsAll (steps (family fn, type)) gen) :
      Performs (.request (family fn, type)) (getInst found fn type gen)

inductive PerformsAll : List Emitted → Emit Unit → Prop
  | nil : PerformsAll [] (pure ())
  | cons {emitted : Emitted} {rest : List Emitted} {gen genRest : Emit Unit} (hfirst : Performs emitted gen)
      (hrest : PerformsAll rest genRest) : PerformsAll (emitted :: rest) (do gen; genRest)

end

end Generators

variable {found : FuncInst → LifetimeExprs.PFGI → Ty → Bool}

theorem Performs.one {emitted : Emitted} {gen : Emit Unit} (h : Performs found emitted gen) :
    PerformsAll found [emitted] gen :=
  bind_pure_unit (x := gen) ▸ PerformsAll.cons h .nil

theorem PerformsAll.unlessTrivial {type : Ty} {emitted : List Emitted} {gen : Emit Unit}
    (h : PerformsAll found emitted gen) :
    PerformsAll found (unlessTrivial type emitted) (if isTriviallyCopyable type then pure () else gen) := by
  unfold FuncInstantiations.unlessTrivial isTriviallyCopyable
  by_cases htrivial : classifyType type = .trivially_copyable
  · simp only [htrivial, if_pos, beq_self_eq_true]
    exact .nil
  · rw [if_neg htrivial, if_neg (by rwa [beq_iff_eq])]
    exact h

/-! ## Operations on objects -/

@[simp] theorem family_arr (op : LifetimeOp) : family op.arr = .arr op := by cases op <;> rfl

@[simp] theorem family_clo (op : LifetimeOp) : family op.clo = .clo op := by cases op <;> rfl

@[simp] theorem family_srt (op : LifetimeOp) : family op.srt = .srt op := by cases op <;> rfl

@[simp] theorem family_usr (op : LifetimeOp) : family op.usr = .usr op := by cases op <;> rfl

@[simp] theorem family_arrCompare (op : CompareOp) : family op.arr = .arrCompare op := by cases op <;> rfl

@[simp] theorem family_cloCompare (op : CompareOp) : family op.clo = .cloCompare op := by cases op <;> rfl

@[simp] theorem family_srtCompare (op : CompareOp) : family op.srt = .srtCompare op := by cases op <;> rfl

@[simp] theorem family_usrCompare (op : CompareOp) : family op.usr = .usrCompare op := by cases op <;> rfl

/-- The request of a function by the name of its family. -/
theorem Performs.named {fn : LifetimeExprs.PFGI} {fn' : PFGI} {type : Ty} {gen : Emit Unit} (hname : family fn = fn')
    (hsteps : PerformsAll found (steps (fn', type)) gen) : Performs found (.request (fn', type)) (getInst found fn type gen) :=
  hname ▸ .request (hname ▸ hsteps)

theorem assert_eq_pure {cond : Bool} (h : cond = true) : Emit.assert cond = pure () :=
  if_pos h

/-- A native function is called and nothing more is asked for. -/
theorem performs_native (ctor : UserCtor) : PerformsAll found [.part (.native ctor)] (pure ()) :=
  (Performs.part _).one

theorem performs_builtin (op : LifetimeOp) (value : BtnType) : Performs found (onBuiltin op value) (op.builtin value) := by
  cases op <;> cases value <;> first | exact .part _ | exact .fail _

theorem performs_strgDtor {elem : Ty} {gen : Emit Unit} (h : Performs found (lifetime .destroy elem) gen) :
    Performs found (.request (.arr_strg_dtor, .array elem)) (getInst found .arr_strg_dtor (.array elem)
      (getInst found .destroy_n elem (if isTriviallyCopyable elem then pure () else gen))) := by
  have hloop : Performs found (.request (.destroy_n, elem))
      (getInst found .destroy_n elem (if isTriviallyCopyable elem then pure () else gen)) :=
    .named rfl h.one.unlessTrivial
  exact .named rfl hloop.one

theorem performs_lifetimeUser (op : LifetimeOp) (fields : List (String × Ty × ℕ)) (size align : ℕ) (ctors : UserCtors) :
    Performs found (lifetime op (.user fields size align ctors))
      (LifetimeExprs.lifetime found op (.user fields size align ctors)) := by
  unfold FuncInstantiations.lifetime LifetimeExprs.lifetime
  by_cases hnone : (op.ctor ctors).addr = UserCtor.none
  · rw [if_pos hnone, hnone]
    exact .fail _
  · rw [if_neg hnone, assert_eq_pure (bne_iff_ne.mpr hnone), pure_bind]
    by_cases htrivial : (op.ctor ctors).addr = UserCtor.trivial
    · rw [if_pos htrivial, if_pos (by rwa [beq_iff_eq])]
      exact .part _
    · rw [if_neg htrivial, if_neg (by rwa [beq_iff_eq])]
      exact .named (family_usr op) (performs_native _)

mutual

theorem performs_lifetime (op : LifetimeOp) : (type : Ty) →
    Performs found (lifetime op type) (LifetimeExprs.lifetime found op type)
  | .btn value => performs_builtin op value
  | .array elem => by
    refine .named (family_arr op) ?_
    change PerformsAll found (if op.dropsStorage then [.request (.arr_strg_dtor, .array elem)] else []) _
    split
    · exact (performs_strgDtor (performs_lifetime .destroy elem)).one
    · exact .nil
  | .func params ret => by
    refine .named (family_clo op) ?_
    change PerformsAll found (if op = .defConstruct then [.request (.clo_stub, .func params ret)] else []) _
    split
    · have hstub : Performs found (.request (.clo_stub, .func params ret)) (getInst found .clo_stub (.func params ret) (pure ())) :=
        .named rfl .nil
      exact hstub.one
    · exact .nil
  | .named _ _ _ type => performs_lifetime op type
  | .struct fields => .named (family_srt op) (performs_lifetimeFields op fields)
  | .user fields size align ctors => performs_lifetimeUser op fields size align ctors

theorem performs_lifetimeFields (op : LifetimeOp) : (fields : List (String × Ty)) →
    PerformsAll found (fields.map fun field ↦ lifetime op field.2) (LifetimeExprs.lifetimeFields found op fields)
  | [] => .nil
  | (_, type) :: fields => .cons (performs_lifetime op type) (performs_lifetimeFields op fields)

end

/-! ## Comparisons -/

theorem performs_compareBtn (op : CompareOp) (value : BtnType) :
    Performs found (compareBuiltin op value) (compareBtn value) := by
  unfold compareBuiltin compareBtn
  cases classifyArith value with
  | some arith => exact .part _
  | none => exact .fail _

/-- A part that is compared, or compared both ways round, and then the rest. -/
theorem Performs.compared (op : CompareOp) {emitted : Emitted} {rest : List Emitted} {gen genRest : Emit Unit}
    (h : Performs found emitted gen) (hrest : PerformsAll found rest genRest) :
    PerformsAll found (bothWays op [emitted] ++ rest) (do gen; (if op = .lt then gen else pure ()); genRest) := by
  cases op with
  | eq =>
    rw [if_neg (by simp), pure_bind]
    exact .cons h hrest
  | lt => exact .cons h (.cons h hrest)

theorem performs_compareUser (op : CompareOp) (fields : List (String × Ty × ℕ)) (size align : ℕ) (ctors : UserCtors) :
    Performs found (comparison op (.user fields size align ctors)) (LifetimeExprs.compare found op (.user fields size align ctors)) := by
  unfold comparison LifetimeExprs.compare
  by_cases hnone : (op.ctor ctors).addr = UserCtor.none
  · rw [if_pos hnone, hnone]
    exact .fail _
  · rw [if_neg hnone, assert_eq_pure (bne_iff_ne.mpr hnone), pure_bind]
    by_cases htrivial : (op.ctor ctors).addr = UserCtor.trivial
    · rw [if_pos htrivial, htrivial]
      exact .fail _
    · rw [if_neg htrivial, assert_eq_pure (bne_iff_ne.mpr htrivial), pure_bind]
      exact .named (family_usrCompare op) (performs_native _)

mutual

theorem performs_compare (op : CompareOp) : (type : Ty) → Performs found (comparison op type) (LifetimeExprs.compare found op type)
  | .btn value => performs_compareBtn op value
  | .array elem => by
    refine .named (family_arrCompare op) ?_
    have hcompared := (performs_compare op elem).compared op .nil
    simp only [List.append_nil, bind_pure_unit] at hcompared
    exact hcompared
  | .func params ret => .named (family_cloCompare op) .nil
  | .named _ _ _ type => performs_compare op type
  | .struct fields => .named (family_srtCompare op) (performs_compareFields op fields)
  | .user fields size align ctors => performs_compareUser op fields size align ctors

theorem performs_compareFields (op : CompareOp) : (fields : List (String × Ty)) →
    PerformsAll found (fields.flatMap fun field ↦ bothWays op [comparison op field.2]) (compareFields found op fields)
  | [] => .nil
  | (_, type) :: fields => (performs_compare op type).compared op (performs_compareFields op fields)

end

/-! ## Builtin functions -/

theorem performs_reallocate (elem : Ty) :
    Performs found (.request (.reallocate, .array elem)) (LifetimeExprs.reallocate found elem) := by
  have hmove : Performs found (.request (.move_n, elem)) (move_n found elem) := by
    refine .named rfl ?_
    change PerformsAll found
      (if classifyType elem = .nontrivial then [lifetime .moveConstruct elem, lifetime .destroy elem] else []) _
    by_cases hmoved : classifyType elem = .nontrivial
    · rw [if_pos hmoved, if_neg (not_not.mpr hmoved)]
      exact .cons (performs_lifetime .moveConstruct elem) (performs_lifetime .destroy elem).one
    · rw [if_neg hmoved, if_pos hmoved]
      exact .nil
  exact .named rfl hmove.one

theorem performs_getBtnFunc (func : BtnFunc) (elem : Ty) :
    Performs found (.request (.btn func, .array elem)) (getBtnFunc found func elem) := by
  have hloop (op : LifetimeOp) : PerformsAll found (FuncInstantiations.unlessTrivial elem [lifetime op elem])
      (if isTriviallyCopyable elem then pure () else LifetimeExprs.lifetime found op elem) :=
    (performs_lifetime op elem).one.unlessTrivial
  have hreallocate : Performs found (.request (.reallocate, .array elem)) (LifetimeExprs.reallocate found elem) :=
    performs_reallocate elem
  have hconstruct : Performs found (.request (.construct_n, elem)) (construct_n found elem) :=
    .named rfl (hloop .defConstruct)
  have hdestroy : Performs found (.request (.destroy_n, elem)) (destroy_n found elem) := .named rfl (hloop .destroy)
  have hcopy : Performs found (.request (.copy_n, elem)) (copy_n found elem) := .named rfl (hloop .copyConstruct)
  cases func with
  | capacity | size | data => exact .named rfl .nil
  | push_back => exact .named rfl (.cons hreallocate (hloop .copyConstruct))
  | append => exact .named rfl (.cons hreallocate hcopy.one)
  | pop_back => exact .named rfl (performs_lifetime .destroy elem).one
  | resize => exact .named rfl (.cons hdestroy (.cons hreallocate hconstruct.one))
  | reserve => exact .named rfl hreallocate.one

end Stela.CodeGen.FuncInstantiations
