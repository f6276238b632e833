import Stela.CodeGen.FullExpressions
import Stela.Library.Triple
import Stela.Semantic.Declarations

/-!
# What return statements move from

The object that a function returns is constructed at the address that the caller gives. `createReturnObject` moves
from the object of a local; the code of other expressions may move from a part of a temporary. `returns_move_safely_iff`
says when nothing is moved from that lives on.
-/

namespace Stela.CodeGen.ReturnMoves

open Stela.Syntax Stela.Library Semantic.Declarations
open Semantic.Scopes (Owner)
open GenerateExpr hiding State

/-! ## What is moved from -/

mutual

/-- The addresses from which the object at the result address, or a part of it that is built in place, is
move-constructed. -/
def resultMoves : Code → List Code
  | .construct type cat src => if cat = .xvalue ∧ isTriviallyCopyable type = false then [src] else []
  | .ternary _ troo fols => resultMoves troo ++ resultMoves fols
  | .array elems => resultMovesAll elems
  | .initList fields => resultMovesAll fields
  | _ => []

def resultMovesAll : List Code → List Code
  | [] => []
  | code :: codes => resultMoves code ++ resultMovesAll codes

end

/-- Where a path of fields starts. -/
def fieldRoot : Code → Code
  | .member object _ => fieldRoot object
  | code => code

/-- The address is that of a local or parameter of the function or lambda, or of a field in one. -/
def InLocal (s : State) (symbol : Owner) (src : Code) : Prop :=
  ∃ definition, fieldRoot src = .var definition ∧ Local s symbol definition

/-- The address is that of a temporary of the expression, or of a field in one. -/
def InTemporary (src : Code) : Prop := ∃ n type init, fieldRoot src = .slot n type init

/-- An element of an array. -/
def InElement (src : Code) : Prop := ∃ object index, fieldRoot src = .subscript object index

mutual

/-- The parts of temporaries that the object of an expression is constructed from. -/
def movedParts : AExpr → List AExpr
  | .member info object index =>
      if partCat (classifyValue object) = .xvalue ∧ isTriviallyCopyable info.exprType = false then
        [.member info object index]
      else []
  | .subscript info object index =>
      if partCat (classifyValue object) = .xvalue ∧ isTriviallyCopyable info.exprType = false then
        [.subscript info object index]
      else []
  | .ternary _ _ troo fols => movedParts troo ++ movedParts fols
  | .make _ expr cast => if cast then [] else movedParts expr
  | .array _ exprs | .initList _ exprs => movedPartsAll exprs
  | _ => []

def movedPartsAll : List AExpr → List AExpr
  | [] => []
  | expr :: exprs => movedParts expr ++ movedPartsAll exprs

end

/-- The part of a temporary is, or is in, an element of an array. -/
def elementPath : AExpr → Bool
  | .subscript _ _ _ => true
  | .member _ object _ => classifyValue object != .prvalue && elementPath object
  | .make _ expr _ => elementPath expr
  | _ => false

/-- The parts of temporaries that the return object is constructed from. -/
def returnParts (expr : AExpr) : List AExpr := if isTriviallyCopyable expr.exprType then [] else movedParts expr

/-! ## Paths -/

theorem partCat_eq_xvalue {cat : ValueCat} : partCat cat = .xvalue ↔ cat = .xvalue ∨ cat = .prvalue := by
  cases cat <;> decide

theorem materialize_prvalue {expr : AExpr} {visit : Bool → Gen Code} (h : classifyValue expr = .prvalue) :
    Ensures (materialize expr visit) fun code ↦ ∃ n type init, code = .slot n type init := by
  rw [materialize, if_pos h]
  exact .step fun n ↦ .step fun code ↦ .step fun _ ↦ .pure ⟨n, _, code, rfl⟩

theorem materialize_glvalue {expr : AExpr} {visit : Bool → Gen Code} (h : classifyValue expr ≠ .prvalue) :
    materialize expr visit = visit false := if_neg h

/-- Whether the path goes through an element is seen in the expression. -/
def OnPath (element : Bool) (src : Code) : Prop := if element then InElement src else InTemporary src

/-- An expression that is part of a temporary is evaluated to its address. -/
theorem visit_onPath : (expr : AExpr) → classifyValue expr = .xvalue →
    Ensures (visit expr false) (OnPath (elementPath expr))
  | .subscript _ object index, _ => by
    rw [visit]
    exact .step fun objectCode ↦ .step fun _ ↦ .pure ⟨objectCode, _, rfl⟩
  | .member info object index, h => by
    rw [visit]
    by_cases hobject : classifyValue object = .prvalue
    · refine (materialize_prvalue hobject).bind ?_
      rintro _ ⟨n, type, init, rfl⟩
      have hpath : elementPath (.member info object index) = false := by
        rw [elementPath, hobject]
        rfl
      refine .pure ?_
      rw [OnPath, hpath]
      exact ⟨n, type, init, rfl⟩
    · have hxvalue : classifyValue object = .xvalue := (partCat_eq_xvalue.mp h).resolve_right hobject
      rw [materialize_glvalue hobject]
      refine (visit_onPath object hxvalue).bind fun code hcode ↦ .pure ?_
      have hpath : elementPath (.member info object index) = elementPath object := by
        rw [elementPath, hxvalue]
        rfl
      rw [OnPath, hpath]
      exact hcode
  | .make info expr cast, h => by
    cases cast with
    | true => cases h
    | false =>
      have hexpr : classifyValue expr = .xvalue := by
        unfold classifyValue at h
        rw [if_neg Bool.false_ne_true] at h
        split at h
        · cases h
        · exact h
      exact visit_onPath expr hexpr
  | .ternary _ _ troo fols, h => by
    unfold classifyValue at h
    split at h <;> cases h
  | .binary .., h | .unary .., h | .callPtr .., h | .callFunc .., h | .callMethod .., h | .callBtn .., h | .ident .., h
  | .funcRef .., h | .string .., h | .char .., h | .number .., h | .bool .., h | .array .., h | .initList .., h
  | .lambda .., h => by cases h

/-- The variable at the root of an expression is evaluated to its address, and the expression to a path from it. -/
theorem visit_root : (expr : AExpr) → (definition : ℕ) → rootLvalue expr = some (definition, none) →
    classifyValue expr = .lvalue ∧ Ensures (visit expr false) fun code ↦ fieldRoot code = .var definition
  | .ident _ _ _, definition, h => by
    cases h
    exact ⟨rfl, .pure rfl⟩
  | .member _ object _, definition, h => by
    obtain ⟨hcat, hcode⟩ := visit_root object definition h
    refine ⟨?_, ?_⟩
    · rw [classifyValue, hcat]
      rfl
    · rw [visit, materialize_glvalue (by rw [hcat]; nofun)]
      exact hcode.bind fun _ hroot ↦ .pure hroot

/-! ## Objects that are not at the result address -/

theorem resultMoves_loadValue {expr : AExpr} {code : Code} (h : resultMoves code = []) :
    resultMoves (loadValue expr code) = [] := by
  rw [loadValue]
  split
  · rfl
  · exact h

theorem resultMoves_genCall {expr : AExpr} {target : Target} {ret : Ty} {args : List Code} {dtors : List Object} :
    Ensures (genCall false expr (.call target ret args dtors)) fun code ↦ resultMoves code = [] := by
  rw [genCall]
  exact .ite (fun _ ↦ .pure rfl) fun _ ↦ .step fun _ ↦ .pure rfl

theorem resultMoves_intoResult {type : Ty} {code : Code} :
    Ensures (intoResult type false code) fun code ↦ resultMoves code = [] :=
  .step fun _ ↦ .pure rfl

/-- Without a result address, nothing is constructed there. -/
theorem visit_false_moves : (expr : AExpr) → Ensures (visit expr false) fun code ↦ resultMoves code = []
  | .binary _ lhs oper rhs => by
    rw [visit]
    exact .ite (fun _ ↦ .step fun _ ↦ .step fun _ ↦ .pure rfl) fun _ ↦ .step fun _ ↦ .step fun _ ↦ .pure rfl
  | .unary _ _ _ => by
    rw [visit]
    exact .step fun _ ↦ .pure rfl
  | .callPtr .. => by
    rw [visit]
    exact .step fun _ ↦ .step fun _ ↦ resultMoves_genCall
  | .callFunc .. => by
    rw [visit]
    exact .step fun _ ↦ resultMoves_genCall
  | .callMethod .. => by
    rw [visit]
    exact .step fun _ ↦ .step fun _ ↦ resultMoves_genCall
  | .callBtn .. => by
    rw [visit]
    exact .step fun _ ↦ .pure rfl
  | .member .. => by
    rw [visit]
    exact .step fun _ ↦ .pure rfl
  | .subscript .. => by
    rw [visit]
    exact .step fun _ ↦ .step fun _ ↦ .pure rfl
  | .ident _ _ captureIndex => by
    cases captureIndex <;> exact .pure rfl
  | .funcRef .. => resultMoves_intoResult
  | .ternary _ _ troo fols => by
    rw [visit]
    refine .step fun condCode ↦ ?_
    rw [if_neg Bool.false_ne_true]
    refine .ite (fun _ ↦ ?_) fun _ ↦ .ite (fun _ ↦ ?_) fun _ ↦ ?_
    · refine (visit_false_moves troo).bind fun _ htroo ↦ (visit_false_moves fols).bind fun _ hfols ↦ .pure ?_
      rw [resultMoves, htroo, hfols, List.append_nil]
    · refine (visit_false_moves troo).bind fun _ htroo ↦ (visit_false_moves fols).bind fun _ hfols ↦ .pure ?_
      rw [resultMoves, resultMoves_loadValue htroo, resultMoves_loadValue hfols, List.append_nil]
    · exact .step fun _ ↦ .step fun _ ↦ .step fun _ ↦ .pure rfl
  | .make _ expr cast => by
    rw [visit]
    refine .ite (fun _ ↦ visit_false_moves expr) fun _ ↦ (visit_false_moves expr).bind fun code hcode ↦
      .ite (fun _ ↦ .pure ?_) fun _ ↦ .pure rfl
    change resultMoves (convertToBool expr code) = []
    rw [convertToBool]
    split
    · split
      · rfl
      · exact hcode
    · rfl
  | .string .. => resultMoves_intoResult
  | .char .. | .number .. | .bool .. => .pure rfl
  | .array .. => by
    rw [visit]
    exact .step fun _ ↦ resultMoves_intoResult
  | .initList info exprs => by
    rw [visit]
    refine .step fun _ ↦ resultMoves_intoResult.bind fun code hcode ↦ .pure ?_
    split
    · rfl
    · exact hcode
  | .lambda .. => resultMoves_intoResult

/-! ## The object at the result address -/

/-- The parts of temporaries, and the addresses that are moved from. -/
abbrev Moved (parts : List AExpr) (srcs : List Code) : Prop :=
  List.Forall₂ (fun part src ↦ OnPath (elementPath part) src) parts srcs

theorem moved_part {expr : AExpr} {code : Code} (hcode : OnPath (elementPath expr) code) :
    Moved (if classifyValue expr = .xvalue ∧ isTriviallyCopyable expr.exprType = false then [expr] else [])
      (resultMoves (.construct expr.exprType (classifyValue expr) code)) := by
  rw [resultMoves]
  split
  · exact .cons hcode .nil
  · exact .nil

theorem moved_genCall {expr : AExpr} {target : Target} {ret : Ty} {args : List Code} {dtors : List Object}
    (h : classifyValue expr = .prvalue) :
    Ensures (genCall true expr (.call target ret args dtors)) fun code ↦ resultMoves code = [] := by
  rw [genCall]
  refine .ite (fun _ ↦ .pure ?_) fun _ ↦ .pure rfl
  rw [constructResultFromValue, if_pos rfl, resultMoves, h]
  rfl

theorem moved_of_nil {gen : Gen Code} (h : Ensures gen fun code ↦ resultMoves code = []) :
    Ensures gen fun code ↦ Moved [] (resultMoves code) := by
  intro s
  rw [h s]
  exact .nil

mutual

/-- What the object at the result address is moved from are the parts of temporaries in the expression. -/
theorem visit_true_moves : (expr : AExpr) →
    Ensures (visit expr true) fun code ↦ Moved (movedParts expr) (resultMoves code)
  | .binary _ lhs oper rhs => by
    rw [visit]
    exact .ite (fun _ ↦ .step fun _ ↦ .step fun _ ↦ .pure .nil) fun _ ↦ .step fun _ ↦ .step fun _ ↦ .pure .nil
  | .unary _ _ _ => by
    rw [visit]
    exact .step fun _ ↦ .pure .nil
  | .callPtr .. => by
    rw [visit]
    exact .step fun _ ↦ .step fun _ ↦ moved_of_nil (moved_genCall rfl)
  | .callFunc .. => by
    rw [visit]
    exact .step fun _ ↦ moved_of_nil (moved_genCall rfl)
  | .callMethod .. => by
    rw [visit]
    exact .step fun _ ↦ .step fun _ ↦ moved_of_nil (moved_genCall rfl)
  | .callBtn .. => by
    rw [visit]
    exact .step fun _ ↦ .pure .nil
  | .member info object index => by
    by_cases h : classifyValue (.member info object index) = .xvalue
    · have hpath := visit_onPath (.member info object index) h
      intro s
      exact moved_part (hpath s)
    · intro s
      have hnil : resultMoves (((visit (.member info object index) true).run s).1) = [] :=
        if_neg fun hmove ↦ h hmove.1
      rw [hnil, movedParts, if_neg fun hmove ↦ h hmove.1]
      exact .nil
  | .subscript info object index => by
    by_cases h : classifyValue (.subscript info object index) = .xvalue
    · have hpath := visit_onPath (.subscript info object index) h
      intro s
      exact moved_part (hpath s)
    · intro s
      have hnil : resultMoves (((visit (.subscript info object index) true).run s).1) = [] :=
        if_neg fun hmove ↦ h hmove.1
      rw [hnil, movedParts, if_neg fun hmove ↦ h hmove.1]
      exact .nil
  | .ident _ _ _ => .pure .nil
  | .funcRef .. => .pure .nil
  | .ternary _ _ troo fols => by
    rw [visit]
    refine .step fun condCode ↦ ?_
    rw [if_pos rfl]
    exact (visit_true_moves troo).bind fun _ htroo ↦ (visit_true_moves fols).bind fun _ hfols ↦
      .pure (List.rel_append htroo hfols)
  | .make _ expr cast => by
    cases cast with
    | false => exact visit_true_moves expr
    | true =>
      rw [visit]
      exact .step fun _ ↦ .ite (fun _ ↦ .pure .nil) fun _ ↦ .pure .nil
  | .string _ value => by
    rw [visit]
    refine .pure ?_
    split <;> exact .nil
  | .char .. | .number .. | .bool .. => .pure .nil
  | .array _ exprs => by
    rw [visit]
    refine (visitElems_moves exprs).bind fun codes hcodes ↦ .pure ?_
    split
    · rename_i hempty
      rw [List.isEmpty_iff.mp hempty]
      exact .nil
    · exact hcodes
  | .initList info exprs => by
    rw [visit]
    refine (visitElems_moves exprs).bind fun codes hcodes ↦ .pure ?_
    rw [if_neg (by simp)]
    split
    · rename_i hempty
      rw [List.isEmpty_iff.mp hempty]
      exact .nil
    · exact hcodes
  | .lambda .. => .pure .nil

theorem visitElems_moves : (exprs : List AExpr) →
    Ensures (visitElems exprs) fun codes ↦ Moved (movedPartsAll exprs) (resultMovesAll codes)
  | [] => .pure .nil
  | expr :: exprs => by
    rw [visitElems]
    exact (visit_true_moves expr).bind fun _ hcode ↦ (visitElems_moves exprs).bind fun _ hcodes ↦
      .pure (List.rel_append hcode hcodes)

end

/-! ## Return statements -/

/-- The return object is moved only from what ends with the activation: locals and parameters of the function or
lambda that returns, temporaries, and fields in these. -/
def MovesSafely (s : State) (symbol : Owner) (expr : AExpr) : Prop :=
  Ensures (createReturnObject (movable s symbol) expr) fun code ↦
    ∀ src ∈ resultMoves code, InLocal s symbol src ∨ InTemporary src

/-- The return object is moved only from locals and parameters and fields in these, and copied or built in place from
anything else. -/
def MovesLocals (s : State) (symbol : Owner) (expr : AExpr) : Prop :=
  Ensures (createReturnObject (movable s symbol) expr) fun code ↦ ∀ src ∈ resultMoves code, InLocal s symbol src

theorem movedParts_of_root : (expr : AExpr) → (definition : ℕ) → rootLvalue expr = some (definition, none) →
    movedParts expr = []
  | .ident _ _ _, _, _ => rfl
  | .member info object index, definition, h => by
    have hcat : classifyValue object = .lvalue := (visit_root object definition h).1
    rw [movedParts, hcat]
    exact if_neg fun hmove ↦ nomatch hmove.1

theorem createReturnObject_trivial {movable : ℕ → Bool} {expr : AExpr} (h : isTriviallyCopyable expr.exprType = true) :
    Ensures (createReturnObject movable expr) fun code ↦ resultMoves code = [] := by
  rw [createReturnObject, if_pos h]
  refine (visit_false_moves expr).bind fun code hcode ↦ .pure ?_
  split
  · rfl
  · exact hcode

theorem createReturnObject_movable {s : State} (hinv : Inv s) {symbol : Owner} {expr : AExpr}
    (hmem : (symbol, expr) ∈ s.returns) (htrivial : isTriviallyCopyable expr.exprType = false)
    (hmovable : (rootLvalue expr).any (fun root ↦ movable s symbol root.1) = true) :
    returnParts expr = [] ∧ MovesLocals s symbol expr := by
  obtain ⟨⟨definition, captureIndex⟩, hroot, hmove⟩ := (Option.any_eq_true _ _).mp hmovable
  have hident := (hinv.returns symbol expr hmem).2 _ hroot
  obtain ⟨rfl, hlocal⟩ := local_of_movable hinv hident hmove
  constructor
  · rw [returnParts, htrivial]
    exact movedParts_of_root expr definition hroot
  · rw [MovesLocals, createReturnObject, htrivial, if_neg Bool.false_ne_true, if_pos hmovable]
    refine (visit_root expr definition hroot).2.bind fun code hcode ↦ .pure fun src hsrc ↦ ?_
    rw [resultMoves, if_pos ⟨rfl, htrivial⟩, List.mem_singleton] at hsrc
    exact ⟨definition, hsrc ▸ hcode, hlocal⟩

theorem createReturnObject_unmovable {movable : ℕ → Bool} {expr : AExpr}
    (htrivial : isTriviallyCopyable expr.exprType = false)
    (hmovable : ¬(rootLvalue expr).any (fun root ↦ movable root.1) = true) :
    Ensures (createReturnObject movable expr) fun code ↦ Moved (returnParts expr) (resultMoves code) := by
  rw [returnParts, createReturnObject, htrivial, if_neg Bool.false_ne_true, if_neg hmovable, if_neg Bool.false_ne_true]
  exact visit_true_moves expr

theorem OnPath.not_inLocal {element : Bool} {src : Code} (h : OnPath element src) {s : State}
    {symbol : Owner} : ¬InLocal s symbol src := by
  rintro ⟨definition, hroot, -⟩
  cases element with
  | true =>
    obtain ⟨object, index, hpath⟩ := h
    cases hroot.symm.trans hpath
  | false =>
    obtain ⟨n, type, init, hpath⟩ := h
    cases hroot.symm.trans hpath

theorem onPath_inTemporary {element : Bool} {src : Code} (h : OnPath element src) :
    InTemporary src ↔ element = false := by
  cases element with
  | true =>
    obtain ⟨object, index, hpath⟩ := h
    refine iff_of_false ?_ Bool.noConfusion
    rintro ⟨n, type, init, hroot⟩
    cases hroot.symm.trans hpath
  | false => exact iff_of_true h rfl

theorem Moved.safe_iff {parts : List AExpr} {srcs : List Code} (h : Moved parts srcs) {s : State}
    {symbol : Owner} :
    (∀ src ∈ srcs, InLocal s symbol src ∨ InTemporary src) ↔ ∀ part ∈ parts, elementPath part = false := by
  induction h with
  | nil => exact iff_of_true nofun nofun
  | cons hpath _ ih =>
    rw [List.forall_mem_cons, List.forall_mem_cons, ih, or_iff_right hpath.not_inLocal, onPath_inTemporary hpath]

theorem Moved.locals_iff {parts : List AExpr} {srcs : List Code} (h : Moved parts srcs) {s : State}
    {symbol : Owner} : (∀ src ∈ srcs, InLocal s symbol src) ↔ parts = [] := by
  cases h with
  | nil => exact iff_of_true nofun rfl
  | cons hpath _ => exact iff_of_false (fun h ↦ hpath.not_inLocal (h _ List.mem_cons_self)) (List.cons_ne_nil _ _)

/-- A property that has the same answer for all results. -/
theorem ensures_iff {gen : Gen Code} {P : Code → Prop} {φ : Prop} (h : Ensures gen fun code ↦ P code ↔ φ) :
    Ensures gen P ↔ φ :=
  ⟨fun hP ↦ (h {}).mp (hP {}), fun hφ s ↦ (h s).mpr hφ⟩

theorem movesSafely_of_movesLocals {s : State} {symbol : Owner} {expr : AExpr}
    (h : MovesLocals s symbol expr) : MovesSafely s symbol expr :=
  fun g src hsrc ↦ .inl (h g src hsrc)

/-- In every program, a return statement moves from nothing that lives on just when it does not return an element of a
temporary array, and from nothing but locals just when it does not return a part of a temporary at all. -/
theorem returns_move_safely_iff (s : State) (h : Reachable s) (symbol : Owner) (expr : AExpr)
    (hmem : (symbol, expr) ∈ s.returns) :
    (MovesSafely s symbol expr ↔ ∀ part ∈ returnParts expr, elementPath part = false) ∧
      (MovesLocals s symbol expr ↔ returnParts expr = []) := by
  cases htrivial : isTriviallyCopyable expr.exprType with
  | true =>
    have hparts : returnParts expr = [] := by rw [returnParts, htrivial, if_pos rfl]
    have hlocals : MovesLocals s symbol expr := fun g src hsrc ↦ by
      rw [createReturnObject_trivial htrivial g] at hsrc
      cases hsrc
    rw [hparts]
    exact ⟨iff_of_true (movesSafely_of_movesLocals hlocals) nofun, iff_of_true hlocals rfl⟩
  | false =>
    by_cases hmovable : (rootLvalue expr).any (fun root ↦ movable s symbol root.1) = true
    · obtain ⟨hparts, hlocals⟩ := createReturnObject_movable (inv_of_reachable h) hmem htrivial hmovable
      rw [hparts]
      exact ⟨iff_of_true (movesSafely_of_movesLocals hlocals) nofun, iff_of_true hlocals rfl⟩
    · have hmoved := createReturnObject_unmovable htrivial hmovable
      exact ⟨ensures_iff fun g ↦ (hmoved g).safe_iff, ensures_iff fun g ↦ (hmoved g).locals_iff⟩

/-- `func f(x: [sint]) { return x; }` -/
def returnsParam : List Event :=
  [.insert "f" .func, .enterFunc [("x", .val, .array (.btn .sint))], .lookupIdent "x",
    .ret (.ident { exprType := .array (.btn .sint) } 1 none)]

theorem returns_move_safely_param : ∃ s, Library.Machine.run step (.init []) returnsParam = some s ∧
    MovesLocals s (.func 0) (.ident { exprType := .array (.btn .sint) } 1 none) := by
  refine ⟨_, rfl, (returns_move_safely_iff _ ⟨[], returnsParam, nofun, rfl⟩ _ _ ?_).2.mpr rfl⟩
  exact List.mem_cons_self

/-- `get()[0]`, where `get` returns an array of arrays. -/
def elementOfCall : AExpr :=
  .subscript { exprType := .array (.btn .real) }
    (.callFunc { exprType := .array (.array (.btn .real)) }
      { node := 0, params := [], ret := some (.array (.array (.btn .real))) } [])
    (.number { exprType := .btn .sint } (.sint 0))

/-- `func take() { return get()[0]; }` moves from an element of the array that `get` shares. -/
theorem not_movesSafely : ∃ s, Library.Machine.run step (.init [])
    [.insert "get" .func, .insert "take" .func, .enterFunc [], .ret elementOfCall] = some s ∧
      (.func 0, elementOfCall) ∈ s.returns ∧ ¬MovesSafely s (.func 0) elementOfCall := by
  refine ⟨_, rfl, List.mem_cons_self, fun h ↦ ?_⟩
  rcases h {} _ List.mem_cons_self with ⟨_, hroot, -⟩ | ⟨_, _, _, hroot⟩
  · cases hroot
  · cases hroot

end Stela.CodeGen.ReturnMoves
