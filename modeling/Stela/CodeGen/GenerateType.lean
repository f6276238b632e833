import Stela.CodeGen.LifetimeExprs
import Stela.Library.Except

/-!
# The LLVM types of types

`generate type.cpp` and `gen types.cpp`. An LLVM type keeps the shape of a type and forgets its names, the signs of its
integers, and which user type it is; two types have one LLVM type exactly when `Alike` takes them apart in step.
-/

namespace Stela.CodeGen.GenerateType

open Stela.Syntax LifetimeExprs Library

mutual

/-- `llvm::Type`. Types of one structure are one type, named structures are not used. -/
inductive LLVMType where
  | void
  | int (bits : ℕ)
  | float
  | ptr (elem : LLVMType)
  | func (ret : LLVMType) (params : LLVMTypes)
  | struct (elems : LLVMTypes) (packed : Bool)
  | array (elem : LLVMType) (size : ℕ)
  deriving DecidableEq, Repr

inductive LLVMTypes where
  | nil
  | cons (type : LLVMType) (types : LLVMTypes)
  deriving DecidableEq, Repr

end

def LLVMTypes.ofList : List LLVMType → LLVMTypes
  | [] => nil
  | type :: types => cons type (ofList types)

theorem LLVMTypes.ofList_inj : {types types' : List LLVMType} → ofList types = ofList types' → types = types'
  | [], [], _ => rfl
  | [], _ :: _, h => nomatch h
  | _ :: _, [], h => nomatch h
  | _ :: _, _ :: _, h => by
    obtain ⟨htype, htypes⟩ := LLVMTypes.cons.inj h
    rw [htype, ofList_inj htypes]

/-! ## Types that the generator uses itself -/

def getSizedType : ℕ → Except Fault LLVMType
  | 1 => return .int 8
  | 2 => return .int 16
  | 4 => return .int 32
  | 8 => return .int 64
  | 16 => return .int 128
  | _ => throw .unreachable

def lenTy : LLVMType := .int 32

def refTy : LLVMType := .int 64

def voidTy : LLVMType := .void

def voidPtrTy : LLVMType := .ptr (.int 8)

def dtorTy : LLVMType := .func voidTy (.ofList [voidPtrTy])

def ptrToDtorTy : LLVMType := .ptr dtorTy

/-- The reference count and the virtual destructor. -/
def cloDataTy : LLVMType := .struct (.ofList [refTy, ptrToDtorTy]) false

def ptrToCloDataTy : LLVMType := .ptr cloDataTy

/-- The reference count, the capacity, the length and the data. -/
def arrayTy (elem : LLVMType) : LLVMType := .struct (.ofList [refTy, lenTy, lenTy, .ptr elem]) true

def ptrToArrayTy (elem : LLVMType) : LLVMType := .ptr (arrayTy elem)

/-! ## `generateType` -/

def generateBtnType : BtnType → LLVMType
  | .void => voidTy
  | .opaq => voidPtrTy
  | .bool => .int 1
  | .byte | .char => .int 8
  | .real => .float
  | .sint | .uint => .int 32

/-- The parameter of a function: an object that is not trivially copyable is passed by its address. -/
def paramTy (mode : ParamRef) (type : Ty) (llvm : LLVMType) : LLVMType :=
  if mode = .ref ∨ classifyType type ≠ .trivially_copyable then .ptr llvm else llvm

/-- The type of a function whose receiver is null: the closure data comes first, and a result that is not trivially
copyable is constructed at the address that comes last. -/
def signatureTy (params : List LLVMType) (ret : Ty) (llvm : LLVMType) : LLVMType :=
  if classifyType ret = .trivially_copyable then .func llvm (.ofList (voidPtrTy :: params))
  else .func voidTy (.ofList (voidPtrTy :: params ++ [.ptr llvm]))

mutual

/-- `generateType`. -/
def generateType : Ty → Except Fault LLVMType
  | .btn value => return generateBtnType value
  | .array elem => do
      let elem ← generateType elem
      return ptrToArrayTy elem
  | .func params ret => do
      let params ← generateParams params
      let sig ← generateSig params ret
      return .struct (.ofList [.ptr sig, ptrToCloDataTy]) false
  | .named _ _ _ type => generateType type
  | .struct fields => do
      let elems ← generateFields fields
      return .struct (.ofList elems) false
  | .user _ size align _ => do
      let elem ← getSizedType align
      return .array elem (size / align)

/-- `convertParam` on each parameter. -/
def generateParams : List (ParamRef × Ty) → Except Fault (List LLVMType)
  | [] => return []
  | (mode, type) :: params => do
      let llvm ← generateType type
      let params ← generateParams params
      return paramTy mode type llvm :: params

/-- `generateSig`, after the parameters; a function whose return type is still being inferred has none. -/
def generateSig (params : List LLVMType) : Option Ty → Except Fault LLVMType
  | none => throw .assertion
  | some ret => do
      let llvm ← generateType ret
      return signatureTy params ret llvm

def generateFields : List (String × Ty) → Except Fault (List LLVMType)
  | [] => return []
  | (_, type) :: fields => do
      let llvm ← generateType type
      let fields ← generateFields fields
      return llvm :: fields

end

/-! ## Types with one LLVM type -/

def Alike (type type' : Ty) : Prop :=
  ∃ llvm, generateType type = .ok llvm ∧ generateType type' = .ok llvm

/-- The node of a type once names are followed. -/
inductive Node where
  | btn | array | func | struct | user
  deriving DecidableEq

def node : Ty → Node
  | .btn _ => .btn
  | .array _ => .array
  | .func _ _ => .func
  | .named _ _ _ type => node type
  | .struct _ => .struct
  | .user _ _ _ _ => .user

/-- The node can be told from the LLVM type: only a function type has a pointer to a function in it. -/
def LLVMType.node : LLVMType → Node
  | .ptr (.struct _ _) => .array
  | .struct (.cons (.ptr (.func _ _)) _) _ => .func
  | .struct _ _ => .struct
  | .array _ _ => .user
  | _ => .btn

def LLVMType.isFuncPtr : LLVMType → Bool
  | .ptr (.func _ _) => true
  | _ => false

@[simp] theorem generateType_concreteType : (type : Ty) → generateType type.concreteType = generateType type :=
  Ty.map_concreteType fun _ _ _ _ ↦ rfl

theorem classifyType_eq : (type : Ty) → classifyType type =
    match node type with
    | .btn => .trivially_copyable
    | .array | .func => .trivially_relocatable
    | .struct | .user => .nontrivial
  | .btn _ | .array _ | .func _ _ | .struct _ | .user _ _ _ _ => rfl
  | .named _ _ _ type => classifyType_eq type

theorem generateSig_func {params : List LLVMType} {ret : Option Ty} {llvm : LLVMType}
    (h : generateSig params ret = .ok llvm) : ∃ result types, llvm = .func result types := by
  cases ret with
  | none => cases h
  | some ret =>
    obtain ⟨result, -, h⟩ := Except.bind_eq_ok.mp h
    cases h
    unfold signatureTy
    split
    · exact ⟨_, _, rfl⟩
    · exact ⟨_, _, rfl⟩

theorem isFuncPtr_generateType {llvm : LLVMType} :
    (type : Ty) → generateType type = .ok llvm → llvm.isFuncPtr = false
  | .btn value, h => by
    cases h
    cases value <;> rfl
  | .array elem, h => by
    obtain ⟨_, _, h⟩ := Except.bind_eq_ok.mp h
    cases h
    rfl
  | .func params ret, h => by
    obtain ⟨_, _, h⟩ := Except.bind_eq_ok.mp h
    obtain ⟨_, _, h⟩ := Except.bind_eq_ok.mp h
    cases h
    rfl
  | .named _ _ _ type, h => isFuncPtr_generateType type h
  | .struct fields, h => by
    obtain ⟨_, _, h⟩ := Except.bind_eq_ok.mp h
    cases h
    rfl
  | .user _ _ _ _, h => by
    obtain ⟨_, _, h⟩ := Except.bind_eq_ok.mp h
    cases h
    rfl

theorem LLVMType.node_struct {type : LLVMType} (types : LLVMTypes) (packed : Bool) (h : type.isFuncPtr = false) :
    (LLVMType.struct (.cons type types) packed).node = .struct := by
  unfold LLVMType.node
  split <;> simp_all [LLVMType.isFuncPtr]

theorem node_generateType {llvm : LLVMType} : (type : Ty) → generateType type = .ok llvm → llvm.node = node type
  | .btn value, h => by
    cases h
    cases value <;> rfl
  | .array elem, h => by
    obtain ⟨_, _, h⟩ := Except.bind_eq_ok.mp h
    cases h
    rfl
  | .func params ret, h => by
    obtain ⟨_, _, h⟩ := Except.bind_eq_ok.mp h
    obtain ⟨sig, hsig, h⟩ := Except.bind_eq_ok.mp h
    obtain ⟨_, _, rfl⟩ := generateSig_func hsig
    cases h
    rfl
  | .named _ _ _ type, h => node_generateType type h
  | .struct [], h => by
    cases h
    rfl
  | .struct ((_, type) :: fields), h => by
    obtain ⟨elems, helems, h⟩ := Except.bind_eq_ok.mp h
    cases h
    obtain ⟨first, hfirst, helems⟩ := Except.bind_eq_ok.mp helems
    obtain ⟨rest, _, helems⟩ := Except.bind_eq_ok.mp helems
    cases helems
    exact LLVMType.node_struct _ _ (isFuncPtr_generateType type hfirst)
  | .user _ _ _ _, h => by
    obtain ⟨_, _, h⟩ := Except.bind_eq_ok.mp h
    cases h
    rfl

/-- How two types with one LLVM type look once names are followed: their components have one LLVM type each. -/
inductive AlikeNodes : Ty → Ty → Prop where
  | btn {value value' : BtnType} (h : generateBtnType value = generateBtnType value') :
      AlikeNodes (.btn value) (.btn value')
  | array {elem elem' : Ty} (h : Alike elem elem') : AlikeNodes (.array elem) (.array elem')
  | func {params params' : List (ParamRef × Ty)} {ret ret' : Option Ty} :
      AlikeNodes (.func params ret) (.func params' ret')
  | struct {fields fields' : List (String × Ty)}
      (h : List.Forall₂ (fun field field' ↦ Alike field.2 field'.2) fields fields') :
      AlikeNodes (.struct fields) (.struct fields')
  | user {fields fields' : List (String × Ty × ℕ)} {size size' align align' : ℕ} {ctors ctors' : UserCtors} :
      AlikeNodes (.user fields size align ctors) (.user fields' size' align' ctors')

namespace Alike

variable {type type' : Ty}

theorem node_eq (h : Alike type type') : node type = node type' := by
  obtain ⟨llvm, hl, hl'⟩ := h
  exact (node_generateType type hl).symm.trans (node_generateType type' hl')

theorem classifyType_eq (h : Alike type type') : classifyType type = classifyType type' := by
  rw [GenerateType.classifyType_eq type, GenerateType.classifyType_eq type', h.node_eq]

theorem concreteType (h : Alike type type') : Alike type.concreteType type'.concreteType := by
  unfold Alike
  rw [generateType_concreteType, generateType_concreteType]
  exact h

theorem of_generateFields : {fields fields' : List (String × Ty)} → {llvms : List LLVMType} →
    generateFields fields = .ok llvms → generateFields fields' = .ok llvms →
      List.Forall₂ (fun field field' ↦ Alike field.2 field'.2) fields fields'
  | [], [], _, _, _ => .nil
  | [], field :: fields, _, h, h' => by
    cases h
    obtain ⟨_, _, h'⟩ := Except.bind_eq_ok.mp h'
    obtain ⟨_, _, h'⟩ := Except.bind_eq_ok.mp h'
    cases h'
  | field :: fields, [], _, h, h' => by
    cases h'
    obtain ⟨_, _, h⟩ := Except.bind_eq_ok.mp h
    obtain ⟨_, _, h⟩ := Except.bind_eq_ok.mp h
    cases h
  | (_, type) :: fields, (_, type') :: fields', _, h, h' => by
    obtain ⟨llvm, htype, h⟩ := Except.bind_eq_ok.mp h
    obtain ⟨llvms, hfields, h⟩ := Except.bind_eq_ok.mp h
    obtain ⟨llvm', htype', h'⟩ := Except.bind_eq_ok.mp h'
    obtain ⟨llvms', hfields', h'⟩ := Except.bind_eq_ok.mp h'
    obtain ⟨rfl, rfl⟩ := List.cons.inj (Except.ok.inj (h.trans h'.symm))
    exact .cons ⟨llvm, htype, htype'⟩ (of_generateFields hfields hfields')

theorem nodes_btn (value : BtnType) : (type' : Ty) → Alike (.btn value) type' →
    AlikeNodes (.btn value) type'.concreteType
  | .btn _, ⟨_, h, h'⟩ => .btn (Except.ok.inj (h.trans h'.symm))
  | .named _ _ _ type', h => nodes_btn value type' h
  | .array _, h | .func _ _, h | .struct _, h | .user _ _ _ _, h => nomatch h.node_eq

theorem nodes_array (elem : Ty) : (type' : Ty) → Alike (.array elem) type' →
    AlikeNodes (.array elem) type'.concreteType
  | .array elem', ⟨_, h, h'⟩ => by
    obtain ⟨first, hfirst, h⟩ := Except.bind_eq_ok.mp h
    obtain ⟨second, hsecond, h'⟩ := Except.bind_eq_ok.mp h'
    have hsame : ptrToArrayTy first = ptrToArrayTy second := Except.ok.inj (h.trans h'.symm)
    cases hsame
    exact .array ⟨first, hfirst, hsecond⟩
  | .named _ _ _ type', h => nodes_array elem type' h
  | .btn _, h | .func _ _, h | .struct _, h | .user _ _ _ _, h => nomatch h.node_eq

theorem nodes_func (params : List (ParamRef × Ty)) (ret : Option Ty) : (type' : Ty) → Alike (.func params ret) type' →
    AlikeNodes (.func params ret) type'.concreteType
  | .func _ _, _ => .func
  | .named _ _ _ type', h => nodes_func params ret type' h
  | .btn _, h | .array _, h | .struct _, h | .user _ _ _ _, h => nomatch h.node_eq

theorem nodes_struct (fields : List (String × Ty)) : (type' : Ty) → Alike (.struct fields) type' →
    AlikeNodes (.struct fields) type'.concreteType
  | .struct fields', ⟨_, h, h'⟩ => by
    obtain ⟨first, hfirst, h⟩ := Except.bind_eq_ok.mp h
    obtain ⟨second, hsecond, h'⟩ := Except.bind_eq_ok.mp h'
    obtain ⟨hsame, -⟩ := LLVMType.struct.inj (Except.ok.inj (h.trans h'.symm))
    rw [LLVMTypes.ofList_inj hsame] at hfirst
    exact .struct (of_generateFields hfirst hsecond)
  | .named _ _ _ type', h => nodes_struct fields type' h
  | .btn _, h | .array _, h | .func _ _, h | .user _ _ _ _, h => nomatch h.node_eq

theorem nodes_user (fields : List (String × Ty × ℕ)) (size align : ℕ) (ctors : UserCtors) : (type' : Ty) →
    Alike (.user fields size align ctors) type' → AlikeNodes (.user fields size align ctors) type'.concreteType
  | .user _ _ _ _, _ => .user
  | .named _ _ _ type', h => nodes_user fields size align ctors type' h
  | .btn _, h | .array _, h | .func _ _, h | .struct _, h => nomatch h.node_eq

theorem nodes : (type type' : Ty) → Alike type type' → AlikeNodes type.concreteType type'.concreteType
  | .btn value, type', h => nodes_btn value type' h
  | .array elem, type', h => nodes_array elem type' h
  | .func params ret, type', h => nodes_func params ret type' h
  | .named _ _ _ type, type', h => nodes type type' h
  | .struct fields, type', h => nodes_struct fields type' h
  | .user fields size align ctors, type', h => nodes_user fields size align ctors type' h

end Alike

end Stela.CodeGen.GenerateType
