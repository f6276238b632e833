import Stela.CodeGen.BodyTerminators
import Stela.CodeGen.StatSimulation

/-!
# Bodies run as they say

The blocks of a function, from the entry to the return: the arguments are stored, and then the statements run as
their execution says.
-/

namespace Stela.CodeGen.StatBlocks

open Stela.Syntax Stela.Semantic Stela.Library Stela.Library.ControlFlow
open Blocks (Const FuncBuilder Oper)

variable {V σ : Type} (M : Machine Oper Const V σ)

/-- Store the arguments in their objects. -/
def storeArgs : List (ℕ × Object) → σ → Option σ
  | [], s => some s
  | (index, obj) :: params, s =>
      (perform M .store [M.const (.arg index), addressOf M obj] s).bind (storeArgs params)

/-- A call of the function, from its arguments to the value that it returns. -/
def Calls (body : BodyCode) (s : σ) (value : Option V) (s' : σ) : Prop :=
  ∃ s₁, storeArgs M body.params s = some s₁ ∧ Exec M body.retArg (.nodes body.nodes) s₁ (.ret value) s'

variable {M} {s s' : σ}

theorem does_storeParams : (params : List (ℕ × Object)) → {st : State} → {values : ℕ → V} → {s s' : σ} →
    st.builder.Valid → storeArgs M params s = some s' → Does M (storeParams params) st values s fun _ _ _ s'' ↦ s'' = s'
  | [], _, _, _, _, hst, h => .pure hst (Option.some.inj h)
  | (index, obj) :: params, _, _, _, _, hst, h => by
    obtain ⟨s₁, hperform, h⟩ := Option.bind_eq_some_iff.mp h
    refine Does.bind (does_perform hst hperform) fun _ _ hvalid _ _ heq ↦ ?_
    exact does_storeParams params hvalid (heq ▸ h)

theorem from_storeParams {exits : ℕ → Prop} {b : FuncBuilder} : (params : List (ℕ × Object)) →
    Triple (From exits b []) (storeParams params) fun _ ↦ From exits b []
  | [] => Triple.pure () fun _ ↦ id
  | _ :: params => (from_createOp _ _).bind fun _ ↦ from_storeParams params

theorem spreadsGen_storeParams (params : List (ℕ × Object)) (flow : FlowData) : SpreadsGen (storeParams params) flow :=
  ⟨false, false, false, fun st hst ↦ (from_storeParams params st ⟨.refl hst, fun _ hk ↦ absurd hk List.not_mem_nil⟩).spreads⟩

/-- The blocks of a body return what a call of it returns. -/
theorem emitBody_returns {body : BodyCode} (hregular : regularNodes body.nodes = true)
    (hflat : flatNodes body.nodes = true) {value : Option V} (h : Calls M body s value s') (pred : ℕ) (values : ℕ → V) :
    Leads M (emitBody body).builder.blocks (Blocks.here Blocks.newFunc pred values s)
      (Returns M (emitBody body).builder.blocks value s') := by
  obtain ⟨s₁, hargs, hexec⟩ := h
  have hstored : Lands M (storeParams body.params) {} s .normal s₁ :=
    lands_of_does fun _ _ hst ↦ does_storeParams body.params hst hargs
  have hnodes : Lands M (emitNodes body.retArg body.nodes {}) {} s₁ (.ret value) s' :=
    simPart_of_exec hexec hregular hflat {}
  have hbody := lands_seq (spreadsGen_storeParams body.params {}) (spreadsGen_emitNodes hregular {}) hstored hnodes
  exact hbody { builder := Blocks.newFunc } Blocks.newFunc_valid (fun t ht ↦ by simp at ht) _ (.refl _) pred values

/-- The blocks that are generated for an accepted body return what a call of the body returns, unless there is a
condition in a branch of another one. -/
theorem accepted_returns {body : Traverse.Body Expr} {body' : Traverse.Body AExpr}
    (haccepted : Traverse.visitBody body = .ok body') (movable : ℕ → Bool) (self : Option (ParamRef × Ty))
    (hflat : flatNodes (GenerateStat.generateStat movable self body'.params body'.nodes).nodes = true) {value : Option V}
    (h : Calls M (GenerateStat.generateStat movable self body'.params body'.nodes) s value s') (pred : ℕ) (values : ℕ → V) :
    Leads M (emitBody (GenerateStat.generateStat movable self body'.params body'.nodes)).builder.blocks
      (Blocks.here Blocks.newFunc pred values s)
      (Returns M (emitBody (GenerateStat.generateStat movable self body'.params body'.nodes)).builder.blocks value s') := by
  have hagrees := BodyTerminators.agrees_generateStat movable self body'.params body'.nodes
  have hlower := BodyTerminators.lowerNodes_oneDefault body'.nodes
  have hregular := (hagrees.regular.trans hlower).trans (BodyTerminators.visitBody_oneDefault haccepted)
  exact emitBody_returns hregular hflat h pred values

/-- A loop that is left at once. -/
theorem accepted_returns_brokenLoop : ∃ body', Traverse.visitBody BodyTerminators.brokenLoop = .ok body' ∧
    ∀ M : Machine Oper Const Bool Unit, M.const (.literal (.bool true)) = true → M.truth true = true →
      Leads M (emitBody (GenerateStat.generateStat (fun _ ↦ false) none body'.params body'.nodes)).builder.blocks
        (Blocks.here Blocks.newFunc 0 (fun _ ↦ true) ())
        (Returns M (emitBody (GenerateStat.generateStat (fun _ ↦ false) none body'.params body'.nodes)).builder.blocks none ()) := by
  refine ⟨_, rfl, fun M hconst htruth ↦ ?_⟩
  refine accepted_returns (rfl : Traverse.visitBody BodyTerminators.brokenLoop = .ok _) (fun _ ↦ false) none rfl ?_ 0 _
  have hcond : evalCond M ⟨.const (.bool true), []⟩ () = some (true, ()) := by
    change some (M.truth (M.const (.literal (.bool true))), ()) = _
    rw [hconst, htruth]
  have hif : Exec M 1 (.stat (.fi ⟨.const (.bool true), []⟩ (.block [.brake []]) none)) () .brake () :=
    .troo hcond (.block (.jump (.brake rfl) trivial))
  have hbrake : Exec M 1 (.stat (.block [.fi ⟨.const (.bool true), []⟩ (.block [.brake []]) none, .terminate []])) () .brake () :=
    .block (.jump hif trivial)
  have hreturn : Exec M 1 (.nodes [.ret none []]) () (.ret none) () := .jump (.ret rfl) trivial
  exact ⟨(), rfl, .cons (.wile (.loopBreak hcond hbrake)) hreturn⟩

end Stela.CodeGen.StatBlocks
