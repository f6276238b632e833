import Stela.Semantic.Scopes

/-!
# Closure data

How the code generated for an identifier finds the value (`visit(ast::Identifier &)`) and how the
code for a lambda fills its closure data (`visit(ast::Lambda &)`), in `generate expr.cpp`. `V` is
the type of values; copying a value yields an equal one.
-/

namespace Stela.CodeGen.ClosureData

open Stela.Semantic.Scopes

variable {V : Type}

/-- What the code of a function or lambda can address: the objects declared in it (and the global
ones), and the captures in the closure data it was called with. -/
structure Frame (V : Type) where
  objects : ℕ → V
  data : List V

/-- The value that an identifier or a capture denotes: an object when the index is `~0`. -/
def Frame.read (frame : Frame V) (definition : ℕ) : Option ℕ → Option V
  | none => some (frame.objects definition)
  | some c => frame.data[c]?

/-- The captures of a lambda expression, evaluated in the frame that contains it. -/
def Frame.capture (frame : Frame V) : List ClosureCap → Option (List V)
  | [] => some []
  | cap :: caps => do
      let value ← frame.read cap.object cap.index
      let values ← frame.capture caps
      return value :: values

/-- `data` is the closure data of the lambda, filled in the first of the frames. When that frame
belongs to a lambda, its own data was filled in the second frame, and so on. -/
inductive Filled (s : State) : ℕ → List (Frame V) → List V → Prop where
  | outermost {lam frame data} : (∀ parent, s.outer lam ≠ .lambda parent) →
      frame.capture (s.captures lam) = some data → Filled s lam [frame] data
  | nested {lam parent frame frames data} : s.outer lam = .lambda parent →
      Filled s parent frames frame.data → frame.capture (s.captures lam) = some data →
        Filled s lam (frame :: frames) data

/-- The value that the object had in the frame it belongs to. -/
def homeValue (s : State) (node : ℕ) : ℕ → List (Frame V) → Option V
  | _, [] => none
  | lam, frame :: frames =>
      if s.home node = s.outer lam then some (frame.objects node)
      else match s.outer lam with
        | .lambda parent => homeValue s node parent frames
        | _ => none

theorem Frame.capture_getElem? {frame : Frame V} {caps : List ClosureCap} {values : List V}
    (h : frame.capture caps = some values) {c : ℕ} {cap : ClosureCap} (hcap : caps[c]? = some cap) :
    values[c]? = frame.read cap.object cap.index := by
  induction caps generalizing values c with
  | nil => simp at hcap
  | cons cap' caps ih =>
    simp only [Frame.capture, Option.bind_eq_bind, Option.bind_eq_some_iff] at h
    obtain ⟨value, hvalue, values', hvalues, h⟩ := h
    cases h
    cases c with
    | zero =>
      cases hcap
      exact hvalue.symm
    | succ c => exact ih hvalues hcap

/-- Evaluating the captures does not fail when every one of them can be read. -/
theorem Frame.capture_isSome {frame : Frame V} {caps : List ClosureCap}
    (h : ∀ cap ∈ caps, (frame.read cap.object cap.index).isSome) : (frame.capture caps).isSome := by
  induction caps with
  | nil => rfl
  | cons cap caps ih =>
    obtain ⟨value, hvalue⟩ := Option.isSome_iff_exists.mp (h cap List.mem_cons_self)
    obtain ⟨values, hvalues⟩ :=
      Option.isSome_iff_exists.mp (ih fun cap hcap ↦ h cap (List.mem_cons_of_mem _ hcap))
    simp [Frame.capture, hvalue, hvalues]

end Stela.CodeGen.ClosureData
