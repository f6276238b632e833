import Stela.CodeGen.LifetimeExprs
import Mathlib.Tactic.Common

/-!
# Which types the type-directed generators support

`LifetimeExpr` and `CompareExpr` follow a type through aliases, structs and arrays. An operation is generated
without a fault exactly if what the type is made of allows it: no opaque or void value is default constructed
or compared, and every user type provides the native function. That is decided by the type alone; the
functions that have been instantiated before can only spare a fault.
-/

namespace Stela.CodeGen.LifetimeExprs

open Stela.Syntax

/-! ## What a type is made of -/

mutual

/-- The parts of an object, up to aliases and structs. The elements of an array are not part of the object. -/
def parts : Ty → List Ty
  | .named _ _ _ type => parts type
  | .struct fields => fieldParts fields
  | type => [type]

def fieldParts : List (String × Ty) → List Ty
  | [] => []
  | (_, type) :: fields => parts type ++ fieldParts fields

end

mutual

/-- The values that a value consists of, with the elements of arrays. -/
def leafTypes : Ty → List Ty
  | .named _ _ _ type => leafTypes type
  | .struct fields => fieldLeafTypes fields
  | .array elem => leafTypes elem
  | type => [type]

def fieldLeafTypes : List (String × Ty) → List Ty
  | [] => []
  | (_, type) :: fields => leafTypes type ++ fieldLeafTypes fields

end

def isOpaq : Ty → Bool
  | .btn .opaq => true
  | _ => false

def isVoidLeaf : Ty → Bool
  | .btn .void => true
  | _ => false

/-- Whether a user type provides a function: one that is trivial does not count where `strict`. -/
def provides (strict : Bool) (ctor : UserCtors → UserCtor) : Ty → Bool
  | .user _ _ _ ctors =>
      (ctor ctors).addr != UserCtor.none && !(strict && (ctor ctors).addr == UserCtor.trivial)
  | _ => true

namespace LifetimeOp

def Allows (op : LifetimeOp) (part : Ty) : Prop :=
  (op = defConstruct → isVoidLeaf part = false ∧ isOpaq part = false) ∧ provides false op.ctor part = true

/-- The operation is possible on the parts of an object, and where it lets go of an array, on what the array
holds. -/
def Supported (op : LifetimeOp) (type : Ty) : Prop :=
  ∀ part ∈ parts type, op.Allows part ∧
    (op.dropsStorage = true → ∀ elem, part = .array elem → ∀ leaf ∈ leafTypes elem, provides false destroy.ctor leaf = true)

end LifetimeOp

namespace CompareOp

def Allows (op : CompareOp) (leaf : Ty) : Prop :=
  isOpaq leaf = false ∧ provides true op.ctor leaf = true

/-- No void value is compared. -/
def Supported (op : CompareOp) (type : Ty) : Prop :=
  ∀ leaf ∈ leafTypes type, isVoidLeaf leaf = false ∧ op.Allows leaf

end CompareOp

/-! ## Deciding whether there is a fault -/

def Total (gen : Emit Unit) : Prop :=
  ∀ inst, ∃ inst', gen.run inst = .ok ((), inst')

def Faults (gen : Emit Unit) : Prop :=
  ∀ inst, ∃ fault, gen.run inst = .error fault

/-- Every function is generated anew. -/
def never : FuncInst → PFGI → Ty → Bool :=
  fun _ _ _ ↦ false

/-- The condition is enough for a generation without fault, and necessary if no function is found. -/
structure Decides (found : FuncInst → PFGI → Ty → Bool) (gen : Emit Unit) (cond : Prop) : Prop where
  total : cond → Total gen
  faults : found = never → ¬cond → Faults gen

section Rules

variable {found : FuncInst → PFGI → Ty → Bool} {gen gen' : Emit Unit} {P Q : Prop}

theorem Decides.congr (h : Decides found gen P) (hiff : Q ↔ P) : Decides found gen Q :=
  ⟨fun hQ ↦ h.total (hiff.mp hQ), fun hnever hQ ↦ h.faults hnever (mt hiff.mpr hQ)⟩

theorem decides_pure : Decides found (pure ()) True :=
  ⟨fun _ inst ↦ ⟨inst, rfl⟩, fun _ h ↦ absurd trivial h⟩

theorem decides_unreachable : Decides found Emit.unreachable False :=
  ⟨False.elim, fun _ _ _ ↦ ⟨_, rfl⟩⟩

theorem decides_assert (cond : Bool) : Decides found (Emit.assert cond) (cond = true) := by
  cases cond
  · exact ⟨nofun, fun _ _ _ ↦ ⟨.assertion, rfl⟩⟩
  · exact ⟨fun _ inst ↦ ⟨inst, rfl⟩, fun _ h ↦ absurd rfl h⟩

theorem total_bind (h : Total gen) (h' : Total gen') : Total (gen >>= fun _ ↦ gen') := by
  intro inst
  obtain ⟨inst₁, h₁⟩ := h inst
  obtain ⟨inst₂, h₂⟩ := h' inst₁
  refine ⟨inst₂, ?_⟩
  rw [StateT.run_bind, h₁]
  exact h₂

theorem faults_bind (h : Faults gen ∨ Total gen ∧ Faults gen') : Faults (gen >>= fun _ ↦ gen') := by
  intro inst
  rcases h with h | ⟨h, h'⟩
  · obtain ⟨fault, hfault⟩ := h inst
    refine ⟨fault, ?_⟩
    rw [StateT.run_bind, hfault]
    rfl
  · obtain ⟨inst₁, h₁⟩ := h inst
    obtain ⟨fault, hfault⟩ := h' inst₁
    refine ⟨fault, ?_⟩
    rw [StateT.run_bind, h₁]
    exact hfault

theorem Decides.bind (h : Decides found gen P) (h' : Decides found gen' Q) :
    Decides found (gen >>= fun _ ↦ gen') (P ∧ Q) where
  total hPQ := total_bind (h.total hPQ.1) (h'.total hPQ.2)
  faults hnever hPQ := by
    apply faults_bind
    by_cases hP : P
    · exact .inr ⟨h.total hP, h'.faults hnever fun hQ ↦ hPQ ⟨hP, hQ⟩⟩
    · exact .inl (h.faults hnever hP)

theorem Decides.ite {c : Prop} [Decidable c] (h : c → Decides found gen P) (h' : ¬c → Decides found gen' Q) :
    Decides found (if c then gen else gen') ((c → P) ∧ (¬c → Q)) := by
  by_cases hc : c
  · rw [if_pos hc]
    exact (h hc).congr ⟨fun hcond ↦ hcond.1 hc, fun hP ↦ ⟨fun _ ↦ hP, fun hn ↦ absurd hc hn⟩⟩
  · rw [if_neg hc]
    exact (h' hc).congr ⟨fun hcond ↦ hcond.2 hc, fun hQ ↦ ⟨fun hp ↦ absurd hp hc, fun _ ↦ hQ⟩⟩

theorem run_getInst (fn : PFGI) (param : Ty) (gen : Emit Unit) (inst : FuncInst) :
    (getInst found fn param gen).run inst =
      if found inst fn param = true then .ok ((), inst)
      else gen.run inst >>= fun r ↦ .ok ((), (fn, param) :: r.2) := by
  simp only [getInst, StateT.run_bind, StateT.run_get]
  change (if found inst fn param = true then (pure () : Emit Unit)
    else gen >>= fun _ ↦ modify fun inst ↦ (fn, param) :: inst).run inst = _
  split
  · rfl
  · rw [StateT.run_bind]
    rfl

/-- Generation is only spared, never made to fail. -/
theorem Decides.getInst (fn : PFGI) (param : Ty) (h : Decides found gen P) :
    Decides found (getInst found fn param gen) P where
  total hP inst := by
    rw [run_getInst]
    cases hfound : found inst fn param with
    | true => exact ⟨inst, rfl⟩
    | false =>
      obtain ⟨inst', h'⟩ := h.total hP inst
      exact ⟨(fn, param) :: inst', by rw [if_neg (by decide), h']; rfl⟩
  faults hnever hP inst := by
    obtain ⟨fault, h'⟩ := h.faults hnever hP inst
    refine ⟨fault, ?_⟩
    have hfound : ¬found inst fn param = true := by simp [hnever, never]
    rw [run_getInst, if_neg hfound, h']
    rfl

end Rules

/-! ## Support, by the form of the type -/

namespace LifetimeOp

section Supported

variable (op : LifetimeOp)

def SupportedFields (fields : List (String × Ty)) : Prop :=
  ∀ field ∈ fields, op.Supported field.2

theorem supported_fields_cons (name : String) (type : Ty) (fields : List (String × Ty)) :
    op.SupportedFields ((name, type) :: fields) ↔ op.Supported type ∧ op.SupportedFields fields :=
  List.forall_mem_cons

theorem supported_struct (fields : List (String × Ty)) : op.Supported (.struct fields) ↔ op.SupportedFields fields := by
  induction fields with
  | nil => simp [Supported, SupportedFields, parts, fieldParts]
  | cons field fields ih =>
    rw [supported_fields_cons, ← ih]
    simp only [Supported, parts, fieldParts, List.forall_mem_append]

theorem supported_btn (value : BtnType) :
    op.Supported (.btn value) ↔ (op = defConstruct → value ≠ .void ∧ value ≠ .opaq) := by
  simp only [Supported, parts, List.forall_mem_singleton, Allows, provides, reduceCtorEq, false_implies,
    implies_true, and_true]
  cases value <;> simp [isVoidLeaf, isOpaq]

theorem supported_array (elem : Ty) :
    op.Supported (.array elem) ↔
      (op.dropsStorage = true → ∀ leaf ∈ leafTypes elem, provides false destroy.ctor leaf = true) := by
  simp only [Supported, parts, List.forall_mem_singleton, Allows, provides, isVoidLeaf, isOpaq, and_self,
    implies_true, true_and, Ty.array.injEq, forall_eq']

theorem supported_func (params : List (ParamRef × Ty)) (ret : Option Ty) : op.Supported (.func params ret) := by
  simp [Supported, parts, Allows, provides, isVoidLeaf, isOpaq]

theorem supported_user (fields : List (String × Ty × ℕ)) (size align : ℕ) (ctors : UserCtors) :
    op.Supported (.user fields size align ctors) ↔ ((op.ctor ctors).addr != UserCtor.none) = true := by
  simp [Supported, parts, Allows, provides, isVoidLeaf, isOpaq]

end Supported

mutual

/-- Destruction goes on to everything that a value holds. -/
theorem destroy_supported_iff : (type : Ty) →
    (destroy.Supported type ↔ ∀ leaf ∈ leafTypes type, provides false destroy.ctor leaf = true)
  | .btn value => by simp [supported_btn, leafTypes, provides]
  | .array elem => by simp [supported_array, leafTypes, dropsStorage]
  | .func params ret => by simp [supported_func, leafTypes, provides]
  | .named name decl strong type => destroy_supported_iff type
  | .struct fields => (supported_struct destroy fields).trans (destroy_supportedFields_iff fields)
  | .user fields size align ctors => by simp [supported_user, leafTypes, provides]

theorem destroy_supportedFields_iff : (fields : List (String × Ty)) →
    (destroy.SupportedFields fields ↔ ∀ leaf ∈ fieldLeafTypes fields, provides false destroy.ctor leaf = true)
  | [] => ⟨fun _ ↦ nofun, fun _ ↦ nofun⟩
  | (name, type) :: fields => by
    rw [supported_fields_cons, destroy_supported_iff type, destroy_supportedFields_iff fields, fieldLeafTypes,
      List.forall_mem_append]

end

theorem supported_of_trivial {op : LifetimeOp} : (type : Ty) → isTriviallyCopyable type = true →
    (op = defConstruct → isVoidLeaf type.concreteType = false ∧ isOpaq type.concreteType = false) → op.Supported type
  | .btn value, _, h => (supported_btn op value).mpr fun hop ↦ by
    have h := h hop
    cases value <;> simp_all [Ty.concreteType, isVoidLeaf, isOpaq]
  | .named _ _ _ type, htriv, h => supported_of_trivial type htriv h
  | .array _, htriv, _ | .func _ _, htriv, _ | .struct _, htriv, _ | .user _ _ _ _, htriv, _ => by
    simp [isTriviallyCopyable, classifyType] at htriv

/-- Nothing is emitted for trivially copyable types. -/
theorem destroy_supported_unless (type : Ty) :
    (isTriviallyCopyable type = true → True) ∧ (¬isTriviallyCopyable type = true → destroy.Supported type) ↔
      destroy.Supported type := by
  constructor
  · intro h
    by_cases htriv : isTriviallyCopyable type = true
    · exact supported_of_trivial type htriv nofun
    · exact h.2 htriv
  · exact fun h ↦ ⟨fun _ ↦ trivial, fun _ ↦ h⟩

end LifetimeOp

/-! ## The operations of `LifetimeExpr` -/

section Operations

variable (found : FuncInst → PFGI → Ty → Bool)

theorem builtin_decides (op : LifetimeOp) (value : BtnType) :
    Decides found (op.builtin value) (op = .defConstruct → value ≠ .void ∧ value ≠ .opaq) := by
  unfold LifetimeOp.builtin
  split
  · exact decides_unreachable.congr (by simp)
  · exact decides_unreachable.congr (by simp)
  · rename_i hvoid hopaq
    exact decides_pure.congr (iff_true_intro fun hop ↦ ⟨fun h ↦ hvoid hop h, fun h ↦ hopaq hop h⟩)

mutual

theorem lifetime_decides : (op : LifetimeOp) → (type : Ty) → Decides found (lifetime found op type) (op.Supported type)
  | op, .btn value => (builtin_decides found op value).congr (op.supported_btn value)
  | op, .array elem => by
    have helem := lifetime_decides .destroy elem
    have hdrop := (Decides.ite (c := isTriviallyCopyable elem = true) (fun _ ↦ decides_pure) (fun _ ↦ helem)).congr
      (LifetimeOp.destroy_supported_unless elem).symm
    have hstrg := (hdrop.getInst .destroy_n elem).getInst .arr_strg_dtor (.array elem)
    have harr := (Decides.ite (c := op.dropsStorage = true) (fun _ ↦ hstrg) (fun _ ↦ decides_pure)).getInst
      op.arr (.array elem)
    refine harr.congr ?_
    rw [LifetimeOp.supported_array, LifetimeOp.destroy_supported_iff]
    exact ⟨fun h ↦ ⟨h, fun _ ↦ trivial⟩, fun h ↦ h.1⟩
  | op, .func params ret => by
    have hpure : Decides found (pure ()) True := decides_pure
    have hstub := hpure.getInst .clo_stub (.func params ret)
    have hclo := (Decides.ite (c := op = .defConstruct) (fun _ ↦ hstub) (fun _ ↦ decides_pure)).getInst
      op.clo (.func params ret)
    exact hclo.congr (iff_of_true (op.supported_func params ret) ⟨fun _ ↦ trivial, fun _ ↦ trivial⟩)
  | op, .named _ _ _ type => lifetime_decides op type
  | op, .struct fields =>
    ((lifetimeFields_decides op fields).getInst op.srt (.struct fields)).congr (op.supported_struct fields)
  | op, .user fields size align ctors => by
    have hpure : Decides found (pure ()) True := decides_pure
    have husr := hpure.getInst op.usr (.user fields size align ctors)
    have hrest := Decides.ite (c := ((op.ctor ctors).addr == UserCtor.trivial) = true)
      (fun _ ↦ decides_pure) (fun _ ↦ husr)
    refine ((decides_assert _).bind hrest).congr ?_
    rw [op.supported_user]
    exact ⟨fun h ↦ ⟨h, fun _ ↦ trivial, fun _ ↦ trivial⟩, fun h ↦ h.1⟩

theorem lifetimeFields_decides : (op : LifetimeOp) → (fields : List (String × Ty)) →
    Decides found (lifetimeFields found op fields) (op.SupportedFields fields)
  | _, [] => decides_pure.congr (iff_true_intro nofun)
  | op, (name, type) :: fields =>
    ((lifetime_decides op type).bind (lifetimeFields_decides op fields)).congr
      (op.supported_fields_cons name type fields)

end

end Operations

/-! ## Comparisons -/

namespace CompareOp

variable (op : CompareOp)

def SupportedFields (fields : List (String × Ty)) : Prop :=
  ∀ leaf ∈ fieldLeafTypes fields, isVoidLeaf leaf = false ∧ op.Allows leaf

theorem supported_fields_cons (name : String) (type : Ty) (fields : List (String × Ty)) :
    op.SupportedFields ((name, type) :: fields) ↔ op.Supported type ∧ op.SupportedFields fields := by
  simp only [SupportedFields, Supported, fieldLeafTypes, List.forall_mem_append]

theorem supported_btn (value : BtnType) : op.Supported (.btn value) ↔ value ≠ .void ∧ value ≠ .opaq := by
  simp only [Supported, leafTypes, List.forall_mem_singleton, Allows, provides]
  cases value <;> simp [isVoidLeaf, isOpaq]

theorem supported_func (params : List (ParamRef × Ty)) (ret : Option Ty) : op.Supported (.func params ret) := by
  simp [Supported, leafTypes, Allows, provides, isVoidLeaf, isOpaq]

theorem supported_user (fields : List (String × Ty × ℕ)) (size align : ℕ) (ctors : UserCtors) :
    op.Supported (.user fields size align ctors) ↔
      ((op.ctor ctors).addr != UserCtor.none) = true ∧ ((op.ctor ctors).addr != UserCtor.trivial) = true := by
  simp [Supported, leafTypes, Allows, provides, isVoidLeaf, isOpaq]

end CompareOp

section Comparisons

variable (found : FuncInst → PFGI → Ty → Bool)

theorem compareBtn_decides (value : BtnType) : Decides found (compareBtn value) (value ≠ .void ∧ value ≠ .opaq) := by
  cases value with
  | void | opaq => exact ⟨by simp, fun _ _ _ ↦ ⟨.unreachable, rfl⟩⟩
  | _ => exact ⟨fun _ inst ↦ ⟨inst, rfl⟩, by simp⟩

/-- The second comparison of the functions for `lt` asks for nothing new. -/
theorem Decides.again {gen gen' : Emit Unit} {P Q : Prop} {c : Prop} [Decidable c] (h : Decides found gen P)
    (h' : Decides found gen' Q) :
    Decides found (do gen; (if c then gen else pure ()); gen') (P ∧ Q) := by
  have htwice := Decides.ite (c := c) (fun _ ↦ h) (fun _ ↦ decides_pure)
  refine (h.bind (htwice.bind h')).congr ?_
  exact ⟨fun hPQ ↦ ⟨hPQ.1, ⟨fun _ ↦ hPQ.1, fun _ ↦ trivial⟩, hPQ.2⟩, fun hPQ ↦ ⟨hPQ.1, hPQ.2.2⟩⟩

mutual

theorem compare_decides : (op : CompareOp) → (type : Ty) → Decides found (compare found op type) (op.Supported type)
  | op, .btn value => (compareBtn_decides found value).congr (op.supported_btn value)
  | op, .array elem => by
    have htwice := (compare_decides op elem).bind
      (Decides.ite (c := op = .lt) (fun _ ↦ compare_decides op elem) fun _ ↦ decides_pure)
    exact (htwice.getInst op.arr (.array elem)).congr
      ⟨fun h ↦ ⟨h, fun _ ↦ h, fun _ ↦ trivial⟩, fun h ↦ h.1⟩
  | op, .func params ret =>
    (decides_pure.getInst op.clo (.func params ret)).congr (iff_true_intro (op.supported_func params ret))
  | op, .named _ _ _ type => compare_decides op type
  | op, .struct fields => (compareFields_decides op fields).getInst op.srt (.struct fields)
  | op, .user fields size align ctors => by
    have hpure : Decides found (pure ()) True := decides_pure
    have husr := hpure.getInst op.usr (.user fields size align ctors)
    refine ((decides_assert _).bind ((decides_assert _).bind husr)).congr ?_
    rw [op.supported_user, and_true]

theorem compareFields_decides : (op : CompareOp) → (fields : List (String × Ty)) →
    Decides found (compareFields found op fields) (op.SupportedFields fields)
  | _, [] => decides_pure.congr (iff_true_intro nofun)
  | op, (name, type) :: fields =>
    ((compare_decides op type).again found (compareFields_decides op fields)).congr
      (op.supported_fields_cons name type fields)

end

end Comparisons

end Stela.CodeGen.LifetimeExprs
