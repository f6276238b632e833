import Stela.CodeGen.GenerateType
import Stela.Library.Memo

/-!
# Function instantiations

`FuncInst` of `func instantiations.hpp`, and what the functions that it generates are made of. The function for a type
is looked up under the LLVM type, and only generated when there is none yet. Of a body, what is kept is what does not
follow from the LLVM type: which functions it asks for at which types, which comparison it emits for integers, and what
a user type provides. Left out are the attributes that `clo_stub` gives its parameters, which depend on how the types of
the parameters are passed.
-/

namespace Stela.CodeGen.FuncInstantiations

open Stela.Syntax LifetimeExprs GenerateType Library

/-- `PFGI`. The functions for an operation are one family for each kind of type: `arr .destroy` is `arr_dtor`,
`srt .copyAssign` is `srt_cop_asgn`, `cloCompare .lt` is `clo_lt`, `usr .defConstruct` is `usr_def_ctor`, and
`btn .resize` is `btn_resize`. -/
inductive PFGI where
  | arr (op : LifetimeOp) | arr_idx_s | arr_idx_u | arr_len_ctor | arr_strg_dtor | arrCompare (op : CompareOp)
  | srt (op : LifetimeOp) | srtCompare (op : CompareOp)
  | construct_n | destroy_n | move_n | copy_n | reallocate
  | btn (func : BtnFunc)
  | clo_stub | clo_bool | clo_fun_ctor | clo_lam_ctor | clo (op : LifetimeOp) | cloCompare (op : CompareOp)
  | usr (op : LifetimeOp) | usrCompare (op : CompareOp) | usr_bool
  deriving DecidableEq, Repr

/-- `FuncInst::get<fn>(type)`. -/
abbrev Request := PFGI × Ty

inductive Instr where
  /-- The value, or a zero, is stored. -/
  | store
  | nothing
  | memSet (size align : ℕ)
  | triviallyCopy (size align : ℕ)
  | icmpEq | fcmpOeq | icmpSlt | icmpUlt | fcmpOlt
  /-- The native function of this name, at this address. -/
  | native (ctor : UserCtor)
  deriving DecidableEq, Repr

/-- What one operation on an object emits. -/
abbrev Emitted := Step Fault Request Instr

/-! ## Operations on objects -/

def onBuiltin : LifetimeOp → BtnType → Emitted
  | .defConstruct, .void | .defConstruct, .opaq => .fail .unreachable
  | .destroy, _ => .part .nothing
  | _, _ => .part .store

/-- What is emitted for a user type that declares the operation trivial. -/
def onTrivial (size align : ℕ) : LifetimeOp → Instr
  | .defConstruct => .memSet size align
  | .destroy => .nothing
  | _ => .triviallyCopy size align

/-- An operation of `LifetimeExpr`. -/
def lifetime (op : LifetimeOp) : Ty → Emitted
  | .btn value => onBuiltin op value
  | .array elem => .request (.arr op, .array elem)
  | .func params ret => .request (.clo op, .func params ret)
  | .named _ _ _ type => lifetime op type
  | .struct fields => .request (.srt op, .struct fields)
  | .user fields size align ctors =>
      if (op.ctor ctors).addr = UserCtor.none then .fail .assertion
      else if (op.ctor ctors).addr = UserCtor.trivial then .part (onTrivial size align op)
      else .request (.usr op, .user fields size align ctors)

def intOrFloat (op : CompareOp) (arith : ArithCat) : Instr :=
  match op, arith with
  | .eq, .floating_point => .fcmpOeq
  | .eq, _ => .icmpEq
  | .lt, .signed_int => .icmpSlt
  | .lt, .unsigned_int => .icmpUlt
  | .lt, .floating_point => .fcmpOlt

def compareBuiltin (op : CompareOp) (value : BtnType) : Emitted :=
  match classifyArith value with
  | some arith => .part (intOrFloat op arith)
  | none => .fail .unreachable

/-- `CompareExpr::eq` and `CompareExpr::lt`. -/
def comparison (op : CompareOp) : Ty → Emitted
  | .btn value => compareBuiltin op value
  | .array elem => .request (.arrCompare op, .array elem)
  | .func params ret => .request (.cloCompare op, .func params ret)
  | .named _ _ _ type => comparison op type
  | .struct fields => .request (.srtCompare op, .struct fields)
  | .user fields size align ctors =>
      if (op.ctor ctors).addr = UserCtor.none then .fail .assertion
      else if (op.ctor ctors).addr = UserCtor.trivial then .fail .assertion
      else .request (.usrCompare op, .user fields size align ctors)

/-! ## Generated functions -/

/-- The functions for `lt` compare parts both ways round. -/
def bothWays {α : Type} (op : CompareOp) (xs : List α) : List α :=
  match op with
  | .eq => xs
  | .lt => xs ++ xs

def unlessTrivial {α : Type} (type : Ty) (xs : List α) : List α :=
  if classifyType type = .trivially_copyable then [] else xs

/-- `iterImpl` and `copyImpl`: a loop over objects, which are filled or copied as bytes where that is enough. -/
def genLoop (fn : PFGI) (obj : Ty) : List Emitted :=
  match fn with
  | .construct_n => unlessTrivial obj [lifetime .defConstruct obj]
  | .destroy_n => unlessTrivial obj [lifetime .destroy obj]
  | .copy_n => unlessTrivial obj [lifetime .copyConstruct obj]
  | .move_n =>
      if classifyType obj = .nontrivial then [lifetime .moveConstruct obj, lifetime .destroy obj] else []
  | _ => []

/-- The builtin functions, on arrays with the given elements. -/
def genBtn (func : BtnFunc) (elem : Ty) : List Emitted :=
  match func with
  | .capacity | .size | .data => []
  | .push_back => .request (.reallocate, .array elem) :: unlessTrivial elem [lifetime .copyConstruct elem]
  | .append => [.request (.reallocate, .array elem), .request (.copy_n, elem)]
  | .pop_back => [lifetime .destroy elem]
  | .resize =>
      [.request (.destroy_n, elem), .request (.reallocate, .array elem), .request (.construct_n, elem)]
  | .reserve => [.request (.reallocate, .array elem)]

/-- `genFn<fn>`, of what the parameter is once names are followed. The functions for arrays are only asked for at
arrays, and so on. -/
def genFn (fn : PFGI) (type : Ty) : List Emitted :=
  match fn, type with
  | .arr op, .array elem => if op.dropsStorage then [.request (.arr_strg_dtor, .array elem)] else []
  | .arr_idx_s, .array _ | .arr_idx_u, .array _ | .arr_len_ctor, .array _ => []
  | .arr_strg_dtor, .array elem => [.request (.destroy_n, elem)]
  | .arrCompare op, .array elem => bothWays op [comparison op elem]
  | .srt op, .struct fields => fields.map fun field ↦ lifetime op field.2
  | .srtCompare op, .struct fields => fields.flatMap fun field ↦ bothWays op [comparison op field.2]
  | .reallocate, .array elem => [.request (.move_n, elem)]
  | .btn func, .array elem => genBtn func elem
  | .clo_stub, .func _ _ | .clo_fun_ctor, .func _ _ | .clo_lam_ctor, .func _ _ | .cloCompare _, .func _ _ => []
  | .clo_bool, .func params ret => [.request (.clo_stub, .func params ret)]
  | .clo op, .func params ret => if op = .defConstruct then [.request (.clo_stub, .func params ret)] else []
  | .usr op, .user _ _ _ ctors => [.part (.native (op.ctor ctors))]
  | .usrCompare op, .user _ _ _ ctors => [.part (.native (op.ctor ctors))]
  | .usr_bool, .user _ _ _ ctors => [.part (.native ctors.boolConv)]
  | _, _ => [.fail .unreachable]

def steps : Request → List Emitted
  | (.construct_n, obj) => genLoop .construct_n obj
  | (.destroy_n, obj) => genLoop .destroy_n obj
  | (.copy_n, obj) => genLoop .copy_n obj
  | (.move_n, obj) => genLoop .move_n obj
  | (fn, type) => genFn fn type.concreteType

/-! ## What a function asks for -/

/-- The types of the elements or the fields. -/
def parts : Ty → List Ty
  | .array elem => [elem]
  | .struct fields => fields.map Prod.snd
  | _ => []

/-- How many other functions of its type a function builds on at most. -/
def order : PFGI → ℕ
  | .construct_n | .destroy_n | .move_n | .copy_n => 2
  | .arr _ | .btn _ | .clo_bool | .clo _ => 1
  | _ => 0

/-- Whether the function orders objects by the order of their parts. -/
def ordersParts : PFGI → Bool
  | .arrCompare .lt | .srtCompare .lt => true
  | _ => false

/-- A function asks for others on the same type, which do not order anything, and for functions on the parts of the
type, which order something only if it does. -/
inductive Asked (fn : PFGI) (type : Ty) (request : Request) : Prop where
  | same (htype : request.2.concreteType = type.concreteType) (horder : order request.1 < order fn)
      (hparts : ordersParts request.1 = false)
  | part {part : Ty} (hpart : part ∈ parts type.concreteType) (htype : request.2.concreteType = part.concreteType)
      (hparts : ordersParts request.1 = true → ordersParts fn = true)

theorem lifetime_request {op : LifetimeOp} {request : Request} : (type : Ty) → .request request = lifetime op type →
    request.2 = type.concreteType ∧ order request.1 < 2 ∧ ordersParts request.1 = false
  | .btn value, h => by
    cases op <;> cases value <;> cases h
  | .array elem, h | .func params ret, h | .struct fields, h => by
    cases h
    exact ⟨rfl, by simp [order], rfl⟩
  | .named _ _ _ type, h => lifetime_request type h
  | .user fields size align ctors, h => by
    unfold lifetime at h
    split at h
    · cases h
    · split at h
      · cases h
      · cases h
        exact ⟨rfl, by simp [order], rfl⟩

theorem comparison_request {op : CompareOp} {request : Request} : (type : Ty) →
    .request request = comparison op type →
      request.2 = type.concreteType ∧ (ordersParts request.1 = true → op = .lt)
  | .btn value, h => by
    cases value <;> cases h
  | .array elem, h | .func params ret, h | .struct fields, h => by
    cases h
    refine ⟨rfl, fun horders ↦ ?_⟩
    cases op with
    | eq => cases horders
    | lt => rfl
  | .named _ _ _ type, h => comparison_request type h
  | .user fields size align ctors, h => by
    unfold comparison at h
    split at h
    · cases h
    · split at h
      · cases h
      · cases h
        exact ⟨rfl, nofun⟩

theorem mem_bothWays {α : Type} {op : CompareOp} {xs : List α} {x : α} : x ∈ bothWays op xs ↔ x ∈ xs := by
  cases op <;> simp [bothWays]

theorem mem_of_mem_unlessTrivial {α : Type} {type : Ty} {xs : List α} {x : α} (h : x ∈ unlessTrivial type xs) :
    x ∈ xs := by
  unfold unlessTrivial at h
  split at h
  · cases h
  · exact h

section Requests

variable {fn : PFGI} {type part : Ty} {request : Request}

theorem asked_lifetime {op : LifetimeOp} (hpart : part ∈ parts type.concreteType)
    (h : .request request = lifetime op part) : Asked fn type request := by
  obtain ⟨htype, -, hparts⟩ := lifetime_request part h
  apply Asked.part hpart
  · rw [htype, Ty.concreteType_concreteType]
  · simp [hparts]

theorem asked_comparison {op : CompareOp} (hpart : part ∈ parts type.concreteType)
    (h : .request request = comparison op part) (hfn : op = .lt → ordersParts fn = true) : Asked fn type request := by
  obtain ⟨htype, hparts⟩ := comparison_request part h
  apply Asked.part hpart
  · rw [htype, Ty.concreteType_concreteType]
  · exact fun horders ↦ hfn (hparts horders)

theorem asked_genLoop {obj : Ty} (h : .request request ∈ genLoop fn obj) : Asked fn obj request := by
  have hlifetime {op : LifetimeOp} (hfn : order fn = 2) (h : .request request = lifetime op obj) :
      Asked fn obj request := by
    obtain ⟨htype, horder, hparts⟩ := lifetime_request obj h
    exact .same (by rw [htype, Ty.concreteType_concreteType]) (by rw [hfn]; exact horder) hparts
  cases fn with
  | construct_n | destroy_n | copy_n => exact hlifetime rfl (List.mem_singleton.mp (mem_of_mem_unlessTrivial h))
  | move_n =>
    change _ ∈ (if classifyType obj = .nontrivial then [lifetime .moveConstruct obj, lifetime .destroy obj] else []) at h
    split at h
    · cases List.mem_cons.mp h with
      | inl heq => exact hlifetime rfl heq
      | inr hmem => exact hlifetime rfl (List.mem_singleton.mp hmem)
    · cases h
  | _ => cases h

theorem asked_genBtn {func : BtnFunc} {elem : Ty} (hconcrete : type.concreteType = .array elem)
    (h : .request request ∈ genBtn func elem) : Asked (.btn func) type request := by
  have hpart : elem ∈ parts type.concreteType := by simp [hconcrete, parts]
  have hrealloc (heq : request = (.reallocate, .array elem)) : Asked (.btn func) type request := by
    subst heq
    exact .same hconcrete.symm (by simp [order]) rfl
  have hloop {loop : PFGI} (hparts : ordersParts loop = false) (heq : request = (loop, elem)) :
      Asked (.btn func) type request := by
    subst heq
    exact .part hpart rfl (by simp [hparts])
  cases func with
  | capacity | size | data => cases h
  | push_back =>
    cases List.mem_cons.mp h with
    | inl heq => exact hrealloc (Step.request.inj heq)
    | inr hmem => exact asked_lifetime hpart (List.mem_singleton.mp (mem_of_mem_unlessTrivial hmem))
  | append =>
    simp only [genBtn, List.mem_cons, Step.request.injEq, List.not_mem_nil, or_false] at h
    cases h with
    | inl heq => exact hrealloc heq
    | inr heq => exact hloop rfl heq
  | pop_back => exact asked_lifetime hpart (List.mem_singleton.mp h)
  | resize =>
    simp only [genBtn, List.mem_cons, Step.request.injEq, List.not_mem_nil, or_false] at h
    rcases h with heq | heq | heq
    · exact hloop rfl heq
    · exact hrealloc heq
    · exact hloop rfl heq
  | reserve => exact hrealloc (Step.request.inj (List.mem_singleton.mp h))

theorem asked_genFn (h : .request request ∈ genFn fn type.concreteType) : Asked fn type request := by
  generalize hconcrete : type.concreteType = concrete at h
  unfold genFn at h
  split at h
  case h_1 op elem =>
    split at h
    · cases List.mem_singleton.mp h
      exact .same hconcrete.symm (by simp [order]) rfl
    · cases h
  case h_5 elem =>
    cases List.mem_singleton.mp h
    have hpart : elem ∈ parts type.concreteType := by simp [hconcrete, parts]
    exact .part hpart rfl nofun
  case h_6 op elem =>
    have hpart : elem ∈ parts type.concreteType := by simp [hconcrete, parts]
    apply asked_comparison hpart (List.mem_singleton.mp (mem_bothWays.mp h))
    intro hop
    rw [hop, ordersParts]
  case h_7 op fields =>
    obtain ⟨field, hfield, hrequest⟩ := List.mem_map.mp h
    have hpart : field.2 ∈ parts type.concreteType := by
      rw [hconcrete]
      exact List.mem_map_of_mem hfield
    exact asked_lifetime hpart hrequest.symm
  case h_8 op fields =>
    obtain ⟨field, hfield, hrequest⟩ := List.mem_flatMap.mp h
    have hpart : field.2 ∈ parts type.concreteType := by
      rw [hconcrete]
      exact List.mem_map_of_mem hfield
    apply asked_comparison hpart (List.mem_singleton.mp (mem_bothWays.mp hrequest))
    intro hop
    rw [hop, ordersParts]
  case h_9 elem =>
    cases List.mem_singleton.mp h
    have hpart : elem ∈ parts type.concreteType := by simp [hconcrete, parts]
    exact .part hpart rfl nofun
  case h_10 func elem => exact asked_genBtn hconcrete h
  case h_15 =>
    cases List.mem_singleton.mp h
    exact .same hconcrete.symm (by simp [order]) rfl
  case h_16 =>
    split at h
    · cases List.mem_singleton.mp h
      exact .same hconcrete.symm (by simp [order]) rfl
    · cases h
  case h_17 | h_18 | h_19 | h_20 => cases List.mem_singleton.mp h
  all_goals cases h

theorem asked_of_mem (h : .request request ∈ steps (fn, type)) : Asked fn type request := by
  have hgen (h : .request request ∈ genFn fn type.concreteType) : Asked fn type request := asked_genFn h
  have hloop (h : .request request ∈ genLoop fn type) : Asked fn type request := asked_genLoop h
  cases fn with
  | construct_n | destroy_n | copy_n | move_n => exact hloop h
  | _ => exact hgen h

end Requests

/-! ## Requests come to an end -/

mutual

def size : Ty → ℕ
  | .btn _ | .func _ _ | .user _ _ _ _ => 0
  | .array elem => size elem + 1
  | .named _ _ _ type => size type
  | .struct fields => fieldsSize fields + 1

def fieldsSize : List (String × Ty) → ℕ
  | [] => 0
  | (_, type) :: fields => size type + fieldsSize fields

end

def rank (request : Request) : ℕ := 3 * size request.2 + order request.1

theorem size_concreteType : (type : Ty) → size type.concreteType = size type :=
  Ty.map_concreteType fun _ _ _ _ ↦ rfl

theorem size_le_fieldsSize {field : String × Ty} : {fields : List (String × Ty)} → field ∈ fields →
    size field.2 ≤ fieldsSize fields
  | (_, type) :: fields, h => by
    simp only [fieldsSize]
    cases List.mem_cons.mp h with
    | inl heq =>
      subst heq
      exact Nat.le_add_right _ _
    | inr hmem =>
      have hrest := size_le_fieldsSize hmem
      omega

theorem size_lt_of_mem_parts {type part : Ty} (h : part ∈ parts type) : size part < size type := by
  cases type with
  | array elem =>
    cases List.mem_singleton.mp h
    exact Nat.lt_succ_self _
  | struct fields =>
    obtain ⟨field, hfield, hpart⟩ := List.mem_map.mp h
    subst hpart
    exact Nat.lt_succ_of_le (size_le_fieldsSize hfield)
  | _ => cases h

theorem order_le_two (fn : PFGI) : order fn ≤ 2 := by
  cases fn <;> simp [order]

theorem Asked.rank_lt {fn : PFGI} {type : Ty} {request : Request} (h : Asked fn type request) :
    rank request < rank (fn, type) := by
  change 3 * size request.2 + order request.1 < 3 * size type + order fn
  cases h with
  | same htype horder _ =>
    have hsize : size request.2 = size type := by
      rw [← size_concreteType, htype, size_concreteType]
    omega
  | part hpart htype _ =>
    have hsize := size_lt_of_mem_parts hpart
    rw [← size_concreteType, ← htype, size_concreteType, size_concreteType] at hsize
    have horder := order_le_two request.1
    omega

/-- The functions that are generated for a type, each under its LLVM type. -/
def recipe : Recipe Fault Request (PFGI × LLVMType) Instr where
  key request := do
    let llvm ← generateType request.2
    return (request.1, llvm)
  steps := steps
  rank := rank
  rank_lt h := (asked_of_mem h).rank_lt

/-- What comes of an operation when the functions that it asks for are generated for it. -/
abbrev result (emitted : Emitted) : Except Fault (Product (PFGI × LLVMType) Instr) :=
  Recipe.follow recipe.make emitted

/-- `genFn` by itself, when the functions that it asks for are generated for it. -/
def generated (request : Request) : Except Fault (Product (PFGI × LLVMType) Instr) :=
  recipe.make request

/-- What `FuncInst` gives for the requests of a module, one after another. -/
def gets (requests : List Request) : Except Fault (List (Product (PFGI × LLVMType) Instr)) :=
  recipe.answers requests

end Stela.CodeGen.FuncInstantiations
