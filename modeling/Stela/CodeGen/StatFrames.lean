import Stela.CodeGen.StatTerminators
import Stela.Library.BlockFrames

/-!
# Where the code of a statement goes

The blocks that the generator appends to for an expression or a statement, and the blocks that it branches to:
besides its own these are the targets of `break` and `continue` and, for a loop that starts in an empty block, this
block.
-/

namespace Stela.CodeGen.Blocks

open Stela.Syntax Stela.Library Stela.Library.ControlFlow

/-! ## Expressions -/

/-- The code has no exits. -/
def Inside (b b' : FuncBuilder) : Prop :=
  Spreads (fun _ ↦ False) b b'

theorem Inside.trans {b b' b'' : FuncBuilder} (h : Inside b b') (h' : Inside b' b'') : Inside b b'' :=
  Spreads.trans h h' fun _ ↦ False.elim

theorem inside_enterCond {b : FuncBuilder} (hb : b.Made) : Inside b (enterCond b) := by
  unfold enterCond
  split
  · exact .refl hb
  · have hmade : Inside b { b with count := b.count + 1 } := (Spreads.refl hb).makeBlocks 1
    have hnew : b.count < b.count + 1 := Nat.lt_succ_self _
    refine (Spreads.append hmade ?_).setCurr (.inr le_rfl) hnew
    intro t ht
    rw [List.mem_singleton.mp ht]
    exact .inr ⟨le_rfl, hnew⟩

theorem inside_shortCircuit (stop : Bool) {lhs rhs : Gen Value} (hlhs : ∀ b : FuncBuilder, b.Made → Inside b (lhs.run b).2)
    (hrhs : ∀ b : FuncBuilder, b.Made → Inside b (rhs.run b).2) {b : FuncBuilder} (hb : b.Made) :
    Inside b ((shortCircuit stop lhs rhs).run b).2 := by
  rw [run_shortCircuit]
  have hmade : Inside b { b with count := b.count + 2 } := (Spreads.refl hb).makeBlocks 2
  have hl := hmade.trans (hlhs _ hmade.made)
  have hlcount : b.count + 2 ≤ (lhs.run { b with count := b.count + 2 }).2.count := (hlhs _ hmade.made).count
  have henter : Inside b (enterRhs stop lhs b) := by
    refine (Spreads.append hl fun t ht ↦ ?_).setCurr (.inr le_rfl) (by rw [Builder.append_count]; omega)
    rcases mem_targets_leaveLhs.mp ht with rfl | rfl
    · exact .inr (by omega)
    · exact .inr (by omega)
  have hr := henter.trans (hrhs _ henter.made)
  have hrcount : (enterRhs stop lhs b).count ≤ (rhs.run (enterRhs stop lhs b)).2.count := (hrhs _ henter.made).count
  have hjoin : b.count + 1 < (rhs.run (enterRhs stop lhs b)).2.count := by
    have : (enterRhs stop lhs b).count = (lhs.run { b with count := b.count + 2 }).2.count := rfl
    omega
  refine ((Spreads.append hr fun t ht ↦ ?_).setCurr (.inr (Nat.le_succ _)) hjoin).appendPhi _
  rw [List.mem_singleton.mp ht]
  exact .inr ⟨Nat.le_succ _, hjoin⟩

theorem inside_ternary (phi : Bool) {cond troo fols : Gen Value} (hcond : ∀ b : FuncBuilder, b.Made → Inside b (cond.run b).2)
    (htroo : ∀ b : FuncBuilder, b.Made → Inside b (troo.run b).2) (hfols : ∀ b : FuncBuilder, b.Made → Inside b (fols.run b).2)
    {b : FuncBuilder} (hb : b.Made) : Inside b ((ternary phi cond troo fols).run b).2 := by
  rw [run_ternary_builder]
  refine (inside_enterCond hb).trans ?_
  have hb := (inside_enterCond hb).made
  generalize enterCond b = b at hb
  have hmade : Inside b { b with count := b.count + 3 } := (Spreads.refl hb).makeBlocks 3
  have hc := hmade.trans (hcond _ hmade.made)
  have hccount : b.count + 3 ≤ (cond.run { b with count := b.count + 3 }).2.count := (hcond _ hmade.made).count
  have htroo' : Inside b (enterTroo cond b) := by
    refine (Spreads.append hc fun t ht ↦ ?_).setCurr (.inr le_rfl) (by rw [Builder.append_count]; omega)
    simp only [Inst.targets, List.mem_cons, List.not_mem_nil, or_false] at ht
    exact .inr (by omega)
  have htcount : (cond.run { b with count := b.count + 3 }).2.count ≤ (troo.run (enterTroo cond b)).2.count :=
    (htroo _ htroo'.made).count
  have hfols' : Inside b (enterFols cond troo b) :=
    Spreads.setCurr (htroo'.trans (htroo _ htroo'.made)) (.inr (Nat.le_succ _)) (by omega)
  have hf := hfols'.trans (hfols _ hfols'.made)
  have hfcount : (troo.run (enterTroo cond b)).2.count ≤ (fols.run (enterFols cond troo b)).2.count :=
    (hfols _ hfols'.made).count
  have hdone : Inside b (enterDone cond troo fols b) := by
    have hto (t : ℕ) (ht : t ∈ (Inst.br (b.count + 2) : Inst Oper Const).targets) :
        False ∨ b.count ≤ t ∧ t < (fols.run (enterFols cond troo b)).2.count := by
      rw [List.mem_singleton.mp ht]
      exact .inr (by omega)
    have hlinked : Inside b (((fols.run (enterFols cond troo b)).2.setCurr b.count).append (.br (b.count + 2))) :=
      Spreads.append (Spreads.setCurr hf (.inr le_rfl) (by omega)) hto
    refine ((hlinked.setCurr (.inr (Nat.le_succ _)) ?_).append hto).setCurr (.inr (Nat.le_add_right _ 2)) ?_
    · rw [Builder.append_count, Builder.setCurr_count]
      omega
    · rw [Builder.append_count, Builder.setCurr_count, Builder.append_count, Builder.setCurr_count]
      omega
  cases phi with
  | true => exact Spreads.appendPhi hdone _
  | false => exact hdone

mutual

theorem emit_inside : (t : Tree) → (dst : Value) → (b : FuncBuilder) → b.Made → Inside b ((emit t dst).run b).2
  | .dst, _, _, hb | .const _, _, _, hb => .refl hb
  | .inst oper args, dst, b, hb => (emits_inside args dst b hb).appendOp oper _
  | .shortCircuit true lhs rhs, dst, b, hb | .shortCircuit false lhs rhs, dst, b, hb =>
    inside_shortCircuit _ (emit_inside lhs dst) (emit_inside rhs dst) hb
  | .ternary phi cond troo fols, dst, b, hb =>
    inside_ternary phi (emit_inside cond dst) (emit_inside troo dst) (emit_inside fols dst) hb
  | .before value effects, dst, b, hb => by
    have hvalue := emit_inside value dst b hb
    exact hvalue.trans (emits_inside effects dst _ hvalue.made)
  | .withDst addr body, dst, b, hb => by
    have haddr := emit_inside addr dst b hb
    exact haddr.trans (emit_inside body _ _ haddr.made)

theorem emits_inside : (ts : List Tree) → (dst : Value) → (b : FuncBuilder) → b.Made → Inside b ((emits ts dst).run b).2
  | [], _, _, hb => .refl hb
  | t :: ts, dst, b, hb => by
    have htree := emit_inside t dst b hb
    exact htree.trans (emits_inside ts dst _ htree.made)

end

end Stela.CodeGen.Blocks

namespace Stela.CodeGen.StatBlocks

open Stela.Syntax Stela.Library Stela.Library.ControlFlow
open Blocks (FuncBuilder Value Const Oper emit tree Inside)

/-! ## Statements -/

mutual

/-- The statement has a `break` that leaves it. -/
def breaks : StatCode → Bool
  | .block nodes => breaksNodes nodes
  | .fi _ body none => breaks body
  | .fi _ body (some elseBody) => breaks body || breaks elseBody
  | .brake _ => true
  | .swich _ _ _ _ _ _ | .terminate _ | .continu _ | .ret _ _ | .wile _ _ | .four _ _ _ _ _ | .asgn _ => false

def breaksNodes : List StatCode → Bool
  | [] => false
  | node :: nodes => breaks node || breaksNodes nodes

end

mutual

/-- The statement has a `continue` that leaves it. -/
def continues : StatCode → Bool
  | .block nodes => continuesNodes nodes
  | .fi _ body none => continues body
  | .fi _ body (some elseBody) => continues body || continues elseBody
  | .continu _ => true
  | .swich _ _ _ _ _ _ | .terminate _ | .brake _ | .ret _ _ | .wile _ _ | .four _ _ _ _ _ | .asgn _ => false

def continuesNodes : List StatCode → Bool
  | [] => false
  | node :: nodes => continues node || continuesNodes nodes

end

mutual

/-- The statement is a loop, or a block with a loop among its statements. -/
def loops : StatCode → Bool
  | .block nodes => loopsNodes nodes
  | .wile _ _ | .four _ _ _ _ _ => true
  | .fi _ _ _ | .swich _ _ _ _ _ _ | .terminate _ | .brake _ | .continu _ | .ret _ _ | .asgn _ => false

def loopsNodes : List StatCode → Bool
  | [] => false
  | node :: nodes => loops node || loopsNodes nodes

end

/-- The blocks around a statement that it may branch to, given which of them it uses. -/
def Exit (breaks continues loops : Bool) (flow : FlowData) (b : FuncBuilder) (t : ℕ) : Prop :=
  breaks = true ∧ flow.breakBlock = some t ∨ continues = true ∧ flow.continueBlock = some t ∨
    loops = true ∧ t = b.curr ∧ b.blocks t = []

/-- Between the builder and the state there is code with the given exits; the listed blocks may be branched to and
filled. -/
structure From (exits : ℕ → Prop) (b : FuncBuilder) (ks : List ℕ) (s : State) : Prop where
  spreads : Spreads exits b s.builder
  blocks : ∀ k ∈ ks, (k = b.curr ∧ exits k ∨ b.count ≤ k) ∧ k < s.builder.count

section Rules

variable {exits : ℕ → Prop} {b : FuncBuilder} {ks ks' : List ℕ}

theorem From.weaken {s : State} (h : From exits b ks s) (hsub : ∀ k ∈ ks', k ∈ ks) : From exits b ks' s :=
  ⟨h.spreads, fun k hk ↦ h.blocks k (hsub k hk)⟩

/-- More code, whose exits are exits or among the listed blocks. -/
theorem From.then {s s' : State} {exits' : ℕ → Prop} (h : From exits b ks s) (h' : Spreads exits' s.builder s'.builder)
    (hexits : ∀ t, exits' t → t ∈ ks ∨ exits t ∨ b.count ≤ t ∧ t < s.builder.count) : From exits b ks s' where
  spreads := h.spreads.trans h' fun t ht ↦ by
    have hcount := h'.count
    rcases hexits t ht with hmem | hexit | hnew
    · obtain ⟨⟨-, hexit⟩ | hnew, hlt⟩ := h.blocks t hmem
      · exact .inl hexit
      · exact .inr ⟨hnew, hlt.trans_le hcount⟩
    · exact .inl hexit
    · exact .inr ⟨hnew.1, hnew.2.trans_le hcount⟩
  blocks := fun k hk ↦ ⟨(h.blocks k hk).1, (h.blocks k hk).2.trans_le h'.count⟩

theorem from_lift {α : Type} {g : Blocks.Gen α} (h : ∀ b : FuncBuilder, b.Made → Inside b (g.run b).2) :
    Triple (From exits b ks) (lift g) fun _ ↦ From exits b ks :=
  fun _ hs ↦ hs.then (h _ hs.spreads.made) fun _ ↦ False.elim

theorem from_makeBlock : Triple (From exits b ks) makeBlock fun block ↦ From exits b (block :: ks) := by
  intro s hs
  refine ⟨hs.spreads.makeBlocks 1, fun k hk ↦ ?_⟩
  rcases List.mem_cons.mp hk with rfl | hk
  · exact ⟨.inr hs.spreads.count, Nat.lt_succ_self _⟩
  · exact ⟨(hs.blocks k hk).1, (hs.blocks k hk).2.trans (Nat.lt_succ_self _)⟩

theorem from_makeBlocks (n : ℕ) :
    Triple (From exits b ks) (makeBlocks n) fun first ↦ From exits b (List.range' first n ++ ks) := by
  intro s hs
  rw [run_makeBlocks]
  refine ⟨hs.spreads.makeBlocks n, fun k hk ↦ ?_⟩
  rcases List.mem_append.mp hk with hk | hk
  · obtain ⟨hle, hlt⟩ := List.mem_range'_1.mp hk
    exact ⟨.inr (hs.spreads.count.trans hle), hlt⟩
  · exact ⟨(hs.blocks k hk).1, (hs.blocks k hk).2.trans_le (Nat.le_add_right _ _)⟩

theorem from_setCurr {k : ℕ} (hk : k ∈ ks) : Triple (From exits b ks) (setCurr k) fun _ ↦ From exits b ks :=
  fun _ hs ↦ ⟨hs.spreads.setCurr ((hs.blocks k hk).1.imp_left And.left) (hs.blocks k hk).2, hs.blocks⟩

theorem from_create {i : Inst Oper Const} (hi : ∀ t ∈ i.targets, t ∈ ks ∨ exits t) :
    Triple (From exits b ks) (create i) fun _ ↦ From exits b ks := by
  refine fun s hs ↦ ⟨hs.spreads.append fun t ht ↦ ?_, hs.blocks⟩
  rcases hi t ht with hmem | hexit
  · obtain ⟨⟨-, hexit⟩ | hnew, hlt⟩ := hs.blocks t hmem
    · exact .inl hexit
    · exact .inr ⟨hnew, hlt⟩
  · exact .inl hexit

theorem from_br {k : ℕ} (hk : k ∈ ks ∨ exits k) : Triple (From exits b ks) (create (.br k)) fun _ ↦ From exits b ks :=
  from_create fun t ht ↦ by rwa [List.mem_singleton.mp ht]

theorem from_condBr {cond : Value} {troo fols : ℕ} (htroo : troo ∈ ks ∨ exits troo) (hfols : fols ∈ ks ∨ exits fols) :
    Triple (From exits b ks) (create (.condBr cond troo fols)) fun _ ↦ From exits b ks := by
  refine from_create fun t ht ↦ ?_
  simp only [Inst.targets, List.mem_cons, List.not_mem_nil, or_false] at ht
  rcases ht with rfl | rfl
  · exact htroo
  · exact hfols

theorem from_createOp (oper : Oper) (args : List Value) :
    Triple (From exits b ks) (createOp oper args) fun _ ↦ From exits b ks :=
  from_lift fun _ hb ↦ (Spreads.refl hb).appendOp oper args

theorem from_genExpr (code : Code) (result : Bool) (dst : Value) :
    Triple (From exits b ks) (genExpr code result dst) fun _ ↦ From exits b ks :=
  from_lift (Blocks.emit_inside _ dst)

theorem from_destroy : (objs : List Object) → Triple (From exits b ks) (destroy objs) fun _ ↦ From exits b ks
  | [] => Triple.pure () fun _ ↦ id
  | _ :: objs => Triple.ite (fun _ ↦ (from_createOp _ _).bind fun _ ↦ from_destroy objs) fun _ ↦ from_destroy objs

theorem from_genCondBr (cond : FullCode) {troo fols : ℕ} (htroo : troo ∈ ks ∨ exits troo) (hfols : fols ∈ ks ∨ exits fols) :
    Triple (From exits b ks) (genCondBr cond troo fols) fun _ ↦ From exits b ks :=
  (from_genExpr _ _ _).bind fun _ ↦ (from_destroy _).bind fun _ ↦ from_condBr htroo hfols

theorem from_equalTo (value : Object) (check : CheckCode) :
    Triple (From exits b ks) (equalTo value check) fun _ ↦ From exits b ks :=
  (from_genExpr _ _ _).bind fun _ ↦ (from_createOp _ _).bind fun equal ↦ (from_destroy _).bind fun _ ↦
    Triple.pure equal fun _ ↦ id

theorem from_emitAsgn : (code : AsgnCode) → Triple (From exits b ks) (emitAsgn code) fun _ ↦ From exits b ks
  | .var _ none => (from_createOp _ _).bind fun _ ↦ Triple.pure () fun _ ↦ id
  | .var _ (some _) => (from_genExpr _ _ _).bind fun _ ↦ from_destroy _
  | .assign _ _ _ _ => (from_genExpr _ _ _).bind fun _ ↦ (from_genExpr _ _ _).bind fun _ ↦
      (from_createOp _ _).bind fun _ ↦ from_destroy _
  | .call _ => (from_genExpr _ _ _).bind fun _ ↦ from_destroy _
  | .none => Triple.pure () fun _ ↦ id

theorem from_terminate {dest : ℕ} (hdest : dest ∈ ks ∨ exits dest) : Triple (From exits b ks) (terminate dest) fun _ ↦ From exits b ks := by
  refine Triple.get_bind fun s hs ↦ Triple.ite (fun _ ↦ Triple.pure () ?_) fun _ ↦ ?_
  · rintro _ rfl
    exact hs
  · exact (from_br hdest).pre fun _ heq ↦ heq ▸ hs

theorem from_terminateLazy (dest : Option ℕ) : Triple (From exits b (dest.toList ++ ks)) (terminateLazy dest) fun dest ↦
    From exits b (dest.toList ++ ks) := by
  refine Triple.get_bind fun s hs ↦ Triple.ite (fun _ ↦ Triple.pure dest ?_) fun _ ↦ ?_
  · rintro _ rfl
    exact hs
  · have hlazy : Triple (From exits b (dest.toList ++ ks)) (lazyBlock dest) fun dest ↦ From exits b (dest :: ks) := by
      cases dest with
      | none => exact from_makeBlock
      | some dest => exact Triple.pure dest fun _ ↦ id
    refine Triple.bind (hlazy.pre fun _ heq ↦ heq ▸ hs) fun dest ↦ ?_
    exact (from_br (.inl List.mem_cons_self)).bind fun _ ↦ Triple.pure _ fun _ ↦ id

theorem from_enterDone (done : Option ℕ) :
    Triple (From exits b (done.toList ++ ks)) (enterDone done) fun _ ↦ From exits b ks := by
  cases done with
  | none => exact Triple.pure () fun _ ↦ id
  | some done => exact (from_setCurr List.mem_cons_self).post fun _ _ hs ↦ hs.weaken fun _ ↦ List.mem_cons_of_mem _

/-- The new block is the current one if this is still empty. -/
theorem from_nextEmpty (hloop : b.blocks b.curr = [] → exits b.curr) :
    Triple (From exits b ks) nextEmpty fun cond ↦ From exits b (cond :: ks) := by
  intro s hs
  have hrun : nextEmpty.run s = ((Blocks.enterCond s.builder).curr,
      { s with builder := (Blocks.enterCond s.builder).setCurr s.builder.curr }) := by
    change ((Blocks.nextEmpty.run s.builder).1, { s with builder := (Blocks.nextEmpty.run s.builder).2 }) = _
    rw [Blocks.run_nextEmpty]
  rw [hrun]
  have hinside := Blocks.inside_enterCond hs.spreads.made
  have hback : From exits b ks { s with builder := (Blocks.enterCond s.builder).setCurr s.builder.curr } :=
    hs.then (Spreads.setCurr hinside (.inl rfl) (hs.spreads.made.curr.trans_le hinside.count)) fun _ ↦ False.elim
  refine ⟨hback.spreads, fun k hk ↦ ?_⟩
  rcases List.mem_cons.mp hk with rfl | hk
  · refine ⟨?_, hinside.made.curr⟩
    by_cases hempty : (s.builder.blocks s.builder.curr).isEmpty
    · have hcurr : (Blocks.enterCond s.builder).curr = s.builder.curr := by rw [Blocks.enterCond, if_pos hempty]
      change (Blocks.enterCond s.builder).curr = b.curr ∧ _ ∨ _
      rw [hcurr]
      refine hs.spreads.curr.imp_left fun heq ↦ ?_
      rw [heq, List.isEmpty_iff] at hempty
      exact ⟨heq, heq ▸ hloop (List.prefix_nil.mp (hempty ▸ hs.spreads.grown b.curr))⟩
    · have hcurr : (Blocks.enterCond s.builder).curr = s.builder.count := by
        rw [Blocks.enterCond, if_neg hempty]
        rfl
      change (Blocks.enterCond s.builder).curr = b.curr ∧ _ ∨ _
      rw [hcurr]
      exact .inr hs.spreads.count
  · exact hback.blocks k hk

theorem from_link {source dest : ℕ} (hsource : source ∈ ks) (hdest : dest ∈ ks) :
    Triple (From exits b ks) (link source dest) fun _ ↦ From exits b ks := by
  intro s hs
  have hlinked := from_br (.inl hdest) _ (from_setCurr hsource s hs)
  exact ⟨hlinked.spreads.setCurr hs.spreads.curr hs.spreads.made.curr, hlinked.blocks⟩

theorem from_returnObject : (value : Option (Ty × Value)) →
    Triple (From exits b ks) (returnObject value) fun _ ↦ From exits b ks
  | none | some _ => from_create nofun

theorem from_createReturnObject (retArg : ℕ) : (value : Option (Ty × Code)) →
    Triple (From exits b ks) (createReturnObject retArg value) fun _ ↦ From exits b ks
  | none => Triple.pure none fun _ ↦ id
  | some _ => (from_genExpr _ _ _).bind fun _ ↦ Triple.pure _ fun _ ↦ id

theorem from_createBr {dest : Option ℕ} (hdest : ∀ t, dest = some t → t ∈ ks ∨ exits t) :
    Triple (From exits b ks) (createBr dest) fun _ ↦ From exits b ks := by
  cases dest with
  | none => exact fun s hs ↦ ⟨hs.spreads, hs.blocks⟩
  | some t => exact from_br (hdest t rfl)

/-- In a block of its own. -/
def Enters (exits : ℕ → Prop) (b : FuncBuilder) (ks : List ℕ) (s : State) : Prop :=
  From exits b ks s ∧ s.builder.curr ∈ ks

theorem enters_setCurr {k : ℕ} (hk : k ∈ ks) : Triple (From exits b ks) (setCurr k) fun _ ↦ Enters exits b ks :=
  fun s hs ↦ ⟨from_setCurr hk s hs, hk⟩

/-- A statement in a block of its own. -/
theorem from_body {gen : Gen Unit} {breaks continues loops : Bool} {flow : FlowData}
    (h : ∀ s : State, s.builder.Made → Spreads (Exit breaks continues loops flow s.builder) s.builder (gen.run s).2.builder)
    (hbreak : breaks = true → ∀ t, flow.breakBlock = some t → t ∈ ks ∨ exits t)
    (hcontinue : continues = true → ∀ t, flow.continueBlock = some t → t ∈ ks ∨ exits t) :
    Triple (Enters exits b ks) gen fun _ ↦ From exits b ks := by
  rintro s ⟨hs, hcurr⟩
  refine hs.then (h s hs.spreads.made) fun t ht ↦ ?_
  rcases ht with ⟨hb, ht⟩ | ⟨hc, ht⟩ | ⟨-, rfl, -⟩
  · exact (hbreak hb t ht).imp_right .inl
  · exact (hcontinue hc t ht).imp_right .inl
  · exact .inl hcurr

theorem le_of_length_cons {α : Type} {a : α} {as : List α} {c size : ℕ} (h : c + (a :: as).length ≤ size) :
    c + 1 + as.length ≤ size := by
  rw [List.length_cons] at h
  omega

theorem lt_of_length_cons {α : Type} {a : α} {as : List α} {c size : ℕ} (h : c + (a :: as).length ≤ size) : c < size := by
  rw [List.length_cons] at h
  omega

/-- The loop of `emitCaseChecks`. -/
theorem from_emitCaseChecks (value : Object) {checkBlocks caseBlocks done size : ℕ} (defaultIndex : Option ℕ)
    (hchecks : ∀ k < size, checkBlocks + k ∈ ks) (hcases : ∀ k < size, caseBlocks + k ∈ ks) (hdone : done ∈ ks) :
    (checks : List (Option CheckCode)) → (c : ℕ) → c + checks.length ≤ size →
      Triple (From exits b ks) (emitCaseChecks value checkBlocks caseBlocks done size defaultIndex checks c) fun _ ↦
        From exits b ks
  | [], _, _ => Triple.pure () fun _ ↦ id
  | none :: checks, c, hsize =>
    from_emitCaseChecks value defaultIndex hchecks hcases hdone checks (c + 1) (le_of_length_cons hsize)
  | some check :: checks, c, hsize => by
    have hlt : c < size := lt_of_length_cons hsize
    have hindex : checkIndexOfCase c defaultIndex < size := (Nat.sub_le _ _).trans_lt hlt
    refine (from_setCurr (hchecks _ hindex)).bind fun _ ↦ (from_equalTo value check).bind fun cond ↦
      (from_condBr (.inl (hcases c hlt)) (.inl ?_)).bind fun _ ↦ ?_
    · split
      · exact hdone
      · rename_i hnext
        refine hchecks _ ?_
        -- past the default case there is one check less than there are cases
        cases hpast : pastDefaultCase c defaultIndex with
        | true =>
          have hd : c ≠ 0 := by
            rintro rfl
            cases defaultIndex <;> simp [pastDefaultCase] at hpast
          rw [checkIndexOfCase, hpast, Bool.toNat_true]
          omega
        | false =>
          have hnext : c ≠ size - 1 := fun hlast ↦ hnext ⟨by rw [hpast]; rfl, hlast⟩
          rw [checkIndexOfCase, hpast, Bool.toNat_false]
          omega
    · exact from_emitCaseChecks value defaultIndex hchecks hcases hdone checks (c + 1)
        (le_of_length_cons hsize)

end Rules

section Composites

variable {exits : ℕ → Prop} {b : FuncBuilder} {ks : List ℕ}

theorem from_emitIf (cond : FullCode) {body elseBody : Gen Unit}
    (hbody : ∀ {ks}, Triple (Enters exits b ks) body fun _ ↦ From exits b ks)
    (helse : ∀ {ks}, Triple (Enters exits b ks) elseBody fun _ ↦ From exits b ks) :
    Triple (From exits b ks) (emitIf cond body elseBody) fun _ ↦ From exits b ks := by
  refine from_makeBlock.bind fun troo ↦ from_makeBlock.bind fun fols ↦ ?_
  refine (from_genCondBr cond (.inl (List.mem_cons_of_mem _ List.mem_cons_self)) (.inl List.mem_cons_self)).bind fun _ ↦ ?_
  refine (enters_setCurr (List.mem_cons_of_mem _ List.mem_cons_self)).bind fun _ ↦ hbody.bind fun _ ↦ ?_
  refine (from_terminateLazy none).bind fun done ↦ ?_
  refine (enters_setCurr (List.mem_append_right _ List.mem_cons_self)).bind fun _ ↦ helse.bind fun _ ↦ ?_
  refine (from_terminateLazy done).bind fun done ↦ (from_enterDone done).post fun _ s hs ↦ hs.weaken fun k hk ↦ ?_
  exact List.mem_cons_of_mem _ (List.mem_cons_of_mem _ hk)

theorem from_emitWhile (cond : FullCode) {body : FlowData → Gen Unit} {breaks continues loops : Bool}
    (hloop : b.blocks b.curr = [] → exits b.curr)
    (hbody : ∀ flow (s : State), s.builder.Made →
      Spreads (Exit breaks continues loops flow s.builder) s.builder ((body flow).run s).2.builder) :
    Triple (From exits b ks) (emitWhile cond body) fun _ ↦ From exits b ks := by
  refine (from_nextEmpty hloop).bind fun condBlock ↦ from_makeBlock.bind fun bodyBlock ↦ from_makeBlock.bind fun done ↦ ?_
  have hcond : condBlock ∈ done :: bodyBlock :: condBlock :: ks := by simp
  refine (enters_setCurr (by simp)).bind fun _ ↦ ?_
  refine (from_body (hbody _) (fun _ t ht ↦ .inl ?_) fun _ t ht ↦ .inl ?_).bind fun _ ↦ (from_terminate (.inl hcond)).bind fun _ ↦
    (from_setCurr hcond).bind fun _ ↦ (from_genCondBr cond (.inl (by simp)) (.inl (by simp))).bind fun _ ↦
      (from_setCurr (by simp)).post fun _ s hs ↦ hs.weaken fun k hk ↦ by simp [hk]
  · cases ht
    exact List.mem_cons_self
  · cases ht
    exact hcond

theorem from_emitFor (cond : FullCode) (incr : AsgnCode) (dtors : List Object) {body : FlowData → Gen Unit}
    {breaks continues loops : Bool} (hloop : b.blocks b.curr = [] → exits b.curr)
    (hbody : ∀ flow (s : State), s.builder.Made →
      Spreads (Exit breaks continues loops flow s.builder) s.builder ((body flow).run s).2.builder) :
    Triple (From exits b ks) (emitFor body cond incr dtors) fun _ ↦ From exits b ks := by
  refine (from_nextEmpty hloop).bind fun condBlock ↦ from_makeBlock.bind fun bodyBlock ↦ from_makeBlock.bind fun incrBlock ↦
    from_makeBlock.bind fun done ↦ ?_
  have hincr : incrBlock ∈ done :: incrBlock :: bodyBlock :: condBlock :: ks := by simp
  have hcond : condBlock ∈ done :: incrBlock :: bodyBlock :: condBlock :: ks := by simp
  refine (enters_setCurr (by simp)).bind fun _ ↦ ?_
  refine (from_body (hbody _) (fun _ t ht ↦ .inl ?_) fun _ t ht ↦ .inl ?_).bind fun _ ↦ (from_terminate (.inl hincr)).bind fun _ ↦
    (from_setCurr hcond).bind fun _ ↦ (from_genCondBr cond (.inl (by simp)) (.inl (by simp))).bind fun _ ↦
      (from_setCurr hincr).bind fun _ ↦ (from_emitAsgn incr).bind fun _ ↦ (from_br (.inl hcond)).bind fun _ ↦
        (from_setCurr (by simp)).bind fun _ ↦ (from_destroy dtors).post fun _ s hs ↦ hs.weaken fun k hk ↦ by simp [hk]
  · cases ht
    exact List.mem_cons_self
  · cases ht
    exact hincr

theorem from_emitCases (value : Object) {checks : List (Option CheckCode)} (hne : ¬checks.isEmpty = true)
    (dtors : List Object) (alwaysReturns : Bool) {caseBodies : ℕ → ℕ → Gen Unit}
    (hbodies : ∀ ks block done, done ∈ ks → (∀ k < checks.length, block + k ∈ ks) →
      Triple (From exits b ks) (caseBodies block done) fun _ ↦ From exits b ks) :
    Triple (From exits b ks) (emitCases value checks caseBodies alwaysReturns dtors) fun _ ↦ From exits b ks := by
  have hpos : 0 < checks.length := List.length_pos_of_ne_nil (by simpa using hne)
  refine (from_makeBlocks _).bind fun checkBlocks ↦ (from_makeBlocks _).bind fun caseBlocks ↦ from_makeBlock.bind fun done ↦ ?_
  have hdone : done ∈ done :: (List.range' caseBlocks checks.length ++ (List.range' checkBlocks checks.length ++ ks)) :=
    List.mem_cons_self
  have hchecks (k : ℕ) (hk : k < checks.length) :
      checkBlocks + k ∈ done :: (List.range' caseBlocks checks.length ++ (List.range' checkBlocks checks.length ++ ks)) := by
    simp [List.mem_range'_1, hk]
  have hcases (k : ℕ) (hk : k < checks.length) :
      caseBlocks + k ∈ done :: (List.range' caseBlocks checks.length ++ (List.range' checkBlocks checks.length ++ ks)) := by
    simp [List.mem_range'_1, hk]
  refine (from_br (.inl (hchecks 0 hpos))).bind fun _ ↦ ?_
  refine (from_emitCaseChecks value (findDefault checks) hchecks hcases hdone checks 0 (Nat.zero_add _).le).bind fun _ ↦ ?_
  let all := done :: (List.range' caseBlocks checks.length ++ (List.range' checkBlocks checks.length ++ ks))
  have hlink : Triple (From exits b all) (linkDefault (checkBlocks + (checks.length - 1)) caseBlocks (findDefault checks)) fun _ ↦
      From exits b all := by
    cases hdefault : findDefault checks with
    | none => exact Triple.pure () fun _ ↦ id
    | some d => exact from_link (hchecks _ (Nat.sub_lt hpos Nat.one_pos)) (hcases d (findDefault_lt hdefault))
  refine hlink.bind fun _ ↦ (hbodies _ caseBlocks done hdone hcases).bind fun _ ↦ (from_setCurr hdone).bind fun _ ↦ ?_
  refine Triple.post (Triple.ite (fun _ ↦ from_create nofun) fun _ ↦ from_destroy dtors) fun _ s hs ↦ hs.weaken fun k hk ↦ ?_
  simp [hk]

end Composites

section Visitor

variable (retArg : ℕ)

theorem Exit.mono {breaks continues loops breaks' continues' loops' : Bool} {flow : FlowData} {b : FuncBuilder} {t : ℕ}
    (h : Exit breaks continues loops flow b t) (hbreaks : breaks = true → breaks' = true)
    (hcontinues : continues = true → continues' = true) (hloops : loops = true → loops' = true) :
    Exit breaks' continues' loops' flow b t :=
  h.imp (And.imp_left hbreaks) (Or.imp (And.imp_left hcontinues) (And.imp_left hloops))

/-- One statement after the other. -/
theorem spreads_seq {breaks continues loops breaks' continues' loops' : Bool} {flow : FlowData} {b b' b'' : FuncBuilder}
    (h : Spreads (Exit breaks continues loops flow b) b b') (h' : Spreads (Exit breaks' continues' loops' flow b') b' b'') :
    Spreads (Exit (breaks || breaks') (continues || continues') (loops || loops') flow b) b b'' := by
  refine (h.mono fun t ht ↦ ht.mono ?_ ?_ ?_).trans h' fun t ht ↦ ?_
  · exact fun h ↦ by rw [h]; rfl
  · exact fun h ↦ by rw [h]; rfl
  · exact fun h ↦ by rw [h]; rfl
  · rcases ht with ⟨hb, ht⟩ | ⟨hc, ht⟩ | ⟨hl, rfl, hempty⟩
    · exact .inl (.inl ⟨by rw [hb, Bool.or_true], ht⟩)
    · exact .inl (.inr (.inl ⟨by rw [hc, Bool.or_true], ht⟩))
    · -- a loop in the block in which the first statement starts, or in a block of this one
      rcases h.curr with heq | hnew
      · have hstart : b.blocks b'.curr = [] := List.prefix_nil.mp (hempty ▸ h.grown b'.curr)
        exact .inl (.inr (.inr ⟨by rw [hl, Bool.or_true], heq, hstart⟩))
      · exact .inr ⟨hnew, h.made.curr.trans_le h'.count⟩

theorem spreads_of_from {exits : ℕ → Prop} {gen : Gen Unit} {s : State} (hs : s.builder.Made)
    (h : Triple (From exits s.builder []) gen fun _ ↦ From exits s.builder []) :
    Spreads exits s.builder (gen.run s).2.builder :=
  (h s ⟨.refl hs, nofun⟩).spreads

mutual

/-- The code of a statement branches to its own blocks and to its exits. -/
theorem spreads_emitStat : (code : StatCode) → regular code = true → (flow : FlowData) → (s : State) → s.builder.Made →
    Spreads (Exit (breaks code) (continues code) (loops code) flow s.builder) s.builder
      ((emitStat retArg code flow).run s).2.builder
  | .block nodes, hregular, flow, s, hs => spreads_emitNodes nodes hregular flow s hs
  | .fi cond body none, hregular, flow, s, hs => spreads_of_from hs (from_emitIf cond
      (from_body (spreads_emitStat body hregular flow) (fun hb _ ht ↦ .inr (.inl ⟨hb, ht⟩)) fun hc _ ht ↦ .inr (.inr (.inl ⟨hc, ht⟩)))
      (Triple.pure () fun _ hs ↦ hs.1))
  | .fi cond body (some elseBody), hregular, flow, s, hs => by
    obtain ⟨hbody, helse⟩ := Bool.and_eq_true_iff.mp hregular
    refine spreads_of_from hs (from_emitIf cond (from_body (spreads_emitStat body hbody flow) ?_ ?_)
      (from_body (spreads_emitStat elseBody helse flow) ?_ ?_))
    · exact fun hb _ ht ↦ .inr (.inl ⟨by rw [breaks, hb, Bool.true_or], ht⟩)
    · exact fun hc _ ht ↦ .inr (.inr (.inl ⟨by rw [continues, hc, Bool.true_or], ht⟩))
    · exact fun hb _ ht ↦ .inr (.inl ⟨by rw [breaks, hb, Bool.or_true], ht⟩)
    · exact fun hc _ ht ↦ .inr (.inr (.inl ⟨by rw [continues, hc, Bool.or_true], ht⟩))
  | .swich obj value checks bodies alwaysReturns dtors, hregular, flow, s, hs => by
    simp only [regular, Bool.and_eq_true, beq_iff_eq] at hregular
    refine spreads_of_from hs ((from_genExpr _ _ _).bind fun _ ↦ Triple.ite (fun _ ↦ from_destroy dtors) fun hne ↦ ?_)
    exact from_emitCases obj hne dtors alwaysReturns fun ks block done hdone hblocks ↦
      from_emitCaseBodies bodies hregular.2.2 block done hdone (hregular.1 ▸ hblocks)
  | .terminate dtors, _, flow, s, hs => spreads_of_from hs (from_destroy dtors)
  | .brake dtors, _, flow, s, hs => by
    refine spreads_of_from hs ((from_destroy dtors).bind fun _ ↦ from_createBr fun t ht ↦ ?_)
    exact .inr (.inl ⟨rfl, ht⟩)
  | .continu dtors, _, flow, s, hs => by
    refine spreads_of_from hs ((from_destroy dtors).bind fun _ ↦ from_createBr fun t ht ↦ ?_)
    exact .inr (.inr (.inl ⟨rfl, ht⟩))
  | .ret value dtors, _, flow, s, hs =>
    spreads_of_from hs ((from_createReturnObject retArg value).bind fun _ ↦ (from_destroy dtors).bind fun _ ↦
      from_returnObject _)
  | .wile cond body, hregular, flow, s, hs =>
    spreads_of_from hs (from_emitWhile cond (fun hempty ↦ Or.inr (.inr ⟨rfl, rfl, hempty⟩)) (spreads_emitStat body hregular))
  | .four init cond incr body dtors, hregular, flow, s, hs =>
    spreads_of_from hs ((from_emitAsgn init).bind fun _ ↦ from_emitFor cond incr dtors
      (fun hempty ↦ Or.inr (.inr ⟨rfl, rfl, hempty⟩)) (spreads_emitStat body hregular))
  | .asgn code, _, flow, s, hs => spreads_of_from hs (from_emitAsgn code)

theorem spreads_emitNodes : (nodes : List StatCode) → regularNodes nodes = true → (flow : FlowData) → (s : State) →
    s.builder.Made →
    Spreads (Exit (breaksNodes nodes) (continuesNodes nodes) (loopsNodes nodes) flow s.builder) s.builder
      ((emitNodes retArg nodes flow).run s).2.builder
  | [], _, _, _, hs => .refl hs
  | node :: nodes, hregular, flow, s, hs => by
    obtain ⟨hnode, hnodes⟩ := Bool.and_eq_true_iff.mp hregular
    have hspreads := spreads_emitStat node hnode flow s hs
    exact spreads_seq hspreads (spreads_emitNodes nodes hnodes flow _ hspreads.made)

/-- The bodies of the cases, in blocks that follow each other. -/
theorem from_emitCaseBodies {exits : ℕ → Prop} {b : FuncBuilder} {ks : List ℕ} : (bodies : List StatCode) →
    regularNodes bodies = true → (block done : ℕ) → done ∈ ks → (∀ k < bodies.length, block + k ∈ ks) →
    Triple (From exits b ks) (emitCaseBodies retArg bodies block done) fun _ ↦ From exits b ks
  | [], _, _, _, _, _ => Triple.pure () fun _ ↦ id
  | body :: bodies, hregular, block, done, hdone, hblocks => by
    obtain ⟨hbody, hbodies⟩ := Bool.and_eq_true_iff.mp hregular
    refine (enters_setCurr (hblocks 0 (Nat.succ_pos _))).bind fun _ ↦ ?_
    refine Triple.bind (from_body (spreads_emitStat body hbody _) (fun _ t ht ↦ ?_) fun _ t ht ↦ ?_) fun _ ↦
      (from_terminate (.inl hdone)).bind fun _ ↦ from_emitCaseBodies bodies hbodies (block + 1) done hdone fun k hk ↦ ?_
    · exact .inl (Option.some.inj ht ▸ hdone)
    · cases bodies with
      | nil => cases ht
      | cons next bodies => exact .inl (Option.some.inj ht ▸ hblocks 1 (Nat.lt_of_sub_pos (by simp)))
    · exact Nat.add_assoc block 1 k ▸ Nat.add_comm k 1 ▸ hblocks (k + 1) (Nat.succ_lt_succ hk)

end

end Visitor

end Stela.CodeGen.StatBlocks
