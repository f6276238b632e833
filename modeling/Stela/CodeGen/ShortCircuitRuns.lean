import Stela.CodeGen.ShortCircuit

/-!
# Running the blocks of an expression

Flat code runs as its tree says: from where the builder stood before it to where it stands after it. The values
that were there before are still there, so the operands of an instruction can be evaluated one after the other.
-/

namespace Stela.CodeGen.Blocks

open Stela.Syntax Stela.Library.ControlFlow

variable {V σ : Type} {M : Machine Oper Const V σ}

/-- The place that a builder appends to. -/
def here (b : FuncBuilder) (pred : ℕ) (values : ℕ → V) (s : σ) : Config V σ :=
  ⟨b.curr, (b.blocks b.curr).length, pred, values, s⟩

/-- Between two builders the blocks turn some values and a state into others, and keep earlier values. -/
def RunsTo (M : Machine Oper Const V σ) (b b' : FuncBuilder) (values : ℕ → V) (s : σ) (values' : ℕ → V) (s' : σ) : Prop :=
  ∀ blocks, Extends b'.blocks blocks → ∀ pred, ∃ pred',
    Steps M blocks (here b pred values s) (here b' pred' values' s')

/-- The code of an expression computes what it should. -/
structure Computes (M : Machine Oper Const V σ) (b : FuncBuilder) (g : Gen Value) (dst : Value)
    (meaning : V → σ → Option (V × σ)) : Prop where
  below : (g.run b).1.Below (g.run b).2.next
  runs : ∀ values s value s', meaning (dst.eval M values) s = some (value, s') →
    ∃ values', RunsTo M b (g.run b).2 values s values' s' ∧ (g.run b).1.eval M values' = value ∧
      ∀ n < b.next, values' n = values n

/-- The same for several expressions. -/
structure ComputesAll (M : Machine Oper Const V σ) (b : FuncBuilder) (g : Gen (List Value)) (dst : Value)
    (meaning : V → σ → Option (List V × σ)) : Prop where
  below : ∀ operand ∈ (g.run b).1, operand.Below (g.run b).2.next
  runs : ∀ values s args s', meaning (dst.eval M values) s = some (args, s') →
    ∃ values', RunsTo M b (g.run b).2 values s values' s' ∧ (g.run b).1.map (Operand.eval M values') = args ∧
      ∀ n < b.next, values' n = values n

theorem RunsTo.refl (b : FuncBuilder) (values : ℕ → V) (s : σ) : RunsTo M b b values s values s :=
  fun _ _ pred ↦ ⟨pred, .refl⟩

theorem RunsTo.trans {b b' b'' : FuncBuilder} {values values' values'' : ℕ → V} {s s' s'' : σ}
    (h : RunsTo M b b' values s values' s') (h' : RunsTo M b' b'' values' s' values'' s'')
    (hgrown : Extends b'.blocks b''.blocks) : RunsTo M b b'' values s values'' s'' := by
  intro blocks hext pred
  obtain ⟨pred', hsteps⟩ := h blocks (hgrown.trans hext) pred
  obtain ⟨pred'', hsteps'⟩ := h' blocks hext pred'
  exact ⟨pred'', hsteps.trans hsteps'⟩

theorem here_append (b : FuncBuilder) (i : Inst Oper Const) (pred : ℕ) (values : ℕ → V) (s : σ) :
    here (b.append i) pred values s = ⟨b.curr, (b.blocks b.curr).length + 1, pred, values, s⟩ := by
  unfold here
  rw [Builder.append_curr, Builder.append_blocks_self rfl, List.length_append, List.length_singleton]

/-- An instruction after its operands. -/
theorem runsTo_createOp {b : FuncBuilder} {oper : Oper} {args : List Value} {values : ℕ → V} {s s' : σ} {value : V}
    (h : M.op oper (args.map (Operand.eval M values)) s = some (value, s')) :
    RunsTo M b ((createOp oper args).run b).2 values s (Function.update values b.next value) s' := by
  intro blocks hext pred
  refine ⟨pred, .single (?_ : Step M blocks _ (here (b.append (.op b.next oper args)) pred _ s'))⟩
  rw [here_append]
  exact .op (Builder.getElem?_of_append hext) h

/-- A phi that has a value for the block that was left last. -/
theorem steps_appendPhi {b : FuncBuilder} {incoming : List (Value × ℕ)} {values : ℕ → V} {s : σ} {operand : Value}
    {pred : ℕ} {blocks : ℕ → Block Oper Const} (hext : Extends (b.appendPhi incoming).2.blocks blocks)
    (hmem : (operand, pred) ∈ incoming) :
    Steps M blocks (here b pred values s)
      (here (b.appendPhi incoming).2 pred (Function.update values b.next (operand.eval M values)) s) := by
  refine .single (?_ : Step M blocks _ (here (b.append (.phi b.next incoming)) pred _ s))
  rw [here_append]
  exact .phi (Builder.getElem?_of_append hext) hmem

/-- A branch to a block that is empty so far. -/
theorem steps_br {b b' : FuncBuilder} {dest pred : ℕ} {values : ℕ → V} {s : σ} {blocks : ℕ → Block Oper Const}
    (hext : Extends (b.append (.br dest)).blocks blocks) (hcurr : b'.curr = dest) (hempty : b'.blocks dest = []) :
    Steps M blocks (here b pred values s) (here b' b.curr values s) := by
  subst hcurr
  unfold here
  rw [hempty]
  exact .single (.br (Builder.getElem?_of_append hext))

theorem steps_condBr {b b' : FuncBuilder} {cond : Value} {troo fols pred : ℕ} {values : ℕ → V} {s : σ}
    {blocks : ℕ → Block Oper Const} (hext : Extends (b.append (.condBr cond troo fols)).blocks blocks)
    (hcurr : b'.curr = if M.truth (cond.eval M values) then troo else fols) (hempty : b'.blocks b'.curr = []) :
    Steps M blocks (here b pred values s) (here b' b.curr values s) := by
  unfold here
  rw [hempty, hcurr]
  exact .single (.condBr (Builder.getElem?_of_append hext))

/-- The jump at the end of the left operand. -/
theorem steps_leaveLhs {b b' : FuncBuilder} {stop : Bool} {lhs : Value} {doneBlock rhsBlock pred : ℕ} {values : ℕ → V}
    {s : σ} {blocks : ℕ → Block Oper Const} (hext : Extends (b.append (leaveLhs stop lhs doneBlock rhsBlock)).blocks blocks)
    (hcurr : b'.curr = if M.truth (lhs.eval M values) = stop then doneBlock else rhsBlock)
    (hempty : b'.blocks b'.curr = []) : Steps M blocks (here b pred values s) (here b' b.curr values s) := by
  cases stop with
  | true => exact steps_condBr hext hcurr hempty
  | false =>
    have hext : Extends (b.append (.condBr lhs rhsBlock doneBlock)).blocks blocks := hext
    refine steps_condBr hext ?_ hempty
    rw [hcurr]
    cases M.truth (lhs.eval M values) <;> rfl

/-- What a short circuit means. -/
def shortCircuitMeaning (M : Machine Oper Const V σ) (stop : Bool) (lhs rhs : V → σ → Option (V × σ)) (dst : V) (s : σ) :
    Option (V × σ) :=
  (lhs dst s).bind fun (value, s) ↦
    if M.truth value = stop then some (M.const (.literal (.bool stop)), s) else rhs dst s

/-- The builder where the operands of a short circuit meet, before the phi. -/
def enterJoin (stop : Bool) (lhs rhs : Gen Value) (b : FuncBuilder) : FuncBuilder :=
  ((rhs.run (enterRhs stop lhs b)).2.append (.br (b.count + 1))).setCurr (b.count + 1)

theorem enterJoin_blocks {stop : Bool} {lhs rhs : Gen Value} {b : FuncBuilder} (hb : b.Valid)
    (hlhs : ∀ b, Stays b (lhs.run b).2) (hrhs : ∀ b, Stays b (rhs.run b).2) :
    (enterJoin stop lhs rhs b).blocks (b.count + 1) = [] := by
  obtain ⟨_, _, _, _, _, -, -, -, -, hd, -⟩ := shortCircuit_blocks stop hb hlhs hrhs
  obtain ⟨i, hphi⟩ : ∃ i, ((shortCircuit stop lhs rhs).run b).2.blocks (b.count + 1) =
      (enterJoin stop lhs rhs b).blocks (b.count + 1) ++ [i] := by
    refine ⟨.phi (enterJoin stop lhs rhs b).next
      [(.const (.literal (.bool stop)), b.curr), ((rhs.run (enterRhs stop lhs b)).1, b.count)], ?_⟩
    rw [run_shortCircuit]
    exact Builder.append_blocks_self (b := enterJoin stop lhs rhs b) rfl _
  have hlength := congrArg List.length (hphi.symm.trans hd)
  rw [List.length_append, List.length_singleton, List.length_singleton] at hlength
  exact List.length_eq_zero_iff.mp (Nat.succ_injective hlength)

theorem shortCircuit_computes {stop : Bool} {lhs rhs : Gen Value} {b : FuncBuilder} {dst : Value}
    {meaning meaning' : V → σ → Option (V × σ)} (hb : b.Valid) (hdst : dst.Below b.next)
    (hlhs : ∀ b, Stays b (lhs.run b).2) (hrhs : ∀ b, Stays b (rhs.run b).2)
    (hl : Computes M { b with count := b.count + 2 } lhs dst meaning)
    (hr : Computes M (enterRhs stop lhs b) rhs dst meaning') :
    Computes M b (shortCircuit stop lhs rhs) dst (shortCircuitMeaning M stop meaning meaning') := by
  let l := (lhs.run { b with count := b.count + 2 }).2
  let r := (rhs.run (enterRhs stop lhs b)).2
  let join := enterJoin stop lhs rhs b
  have hlcurr : l.curr = b.curr := (hlhs _).curr
  have hrcurr : r.curr = b.count := (hrhs _).curr
  have hlnext : b.next ≤ l.next := (hlhs { b with count := b.count + 2 }).next
  have hrnext : l.next ≤ r.next := (hrhs (enterRhs stop lhs b)).next
  have hnew : ∀ n < b.next, n ≠ join.next := fun n hn ↦ (hn.trans_le (hlnext.trans hrnext)).ne
  have hleave : Extends l.blocks (enterRhs stop lhs b).blocks := Builder.extends_append _ _
  have hrun : ((shortCircuit stop lhs rhs).run b).2 =
      (join.appendPhi [(.const (.literal (.bool stop)), b.curr), ((rhs.run (enterRhs stop lhs b)).1, b.count)]).2 :=
    congrArg Prod.snd (run_shortCircuit stop lhs rhs b)
  have hfromRhs : Extends r.blocks ((shortCircuit stop lhs rhs).run b).2.blocks := by
    rw [hrun]
    exact (r.extends_append _).trans (join.extends_append _)
  have hfromEnter := (hrhs (enterRhs stop lhs b)).grown.trans hfromRhs
  have hempty : (enterRhs stop lhs b).blocks b.count = [] := by
    rw [enterRhs_blocks_of_ne stop hlhs hb.curr.ne', hb.unmade _ le_rfl]
  refine ⟨Nat.lt_succ_self r.next, fun values s value s' h ↦ ?_⟩
  obtain ⟨⟨lvalue, ls⟩, hlhsMeaning, h⟩ := Option.bind_eq_some_iff.mp h
  obtain ⟨values₁, hruns₁, hvalue₁, hsame₁⟩ := hl.runs values s lvalue ls hlhsMeaning
  dsimp only at h
  rw [← hvalue₁] at h
  split at h
  · next hstop =>
    cases h
    refine ⟨Function.update values₁ join.next (M.const (.literal (.bool stop))), fun blocks hext pred ↦ ?_, ?_, ?_⟩
    · obtain ⟨pred₁, hsteps₁⟩ := hruns₁ blocks ((hleave.trans hfromEnter).trans hext) pred
      have hjump : Steps M blocks (here l pred₁ values₁ s') (here join b.curr values₁ s') := by
        refine hlcurr ▸ steps_leaveLhs (b := l) (hfromEnter.trans hext) ?_ (enterJoin_blocks hb hlhs hrhs)
        exact (if_pos hstop).symm
      rw [hrun] at hext ⊢
      exact ⟨b.curr, (hsteps₁.trans hjump).trans (steps_appendPhi hext List.mem_cons_self)⟩
    · exact Function.update_self _ _ _
    · intro n hn
      rw [Function.update_of_ne (hnew n hn), hsame₁ n hn]
  · next hstop =>
    have hdst₁ : dst.eval M values₁ = dst.eval M values := hdst.eval_eq M hsame₁
    obtain ⟨values₂, hruns₂, hvalue₂, hsame₂⟩ := hr.runs values₁ ls value s' (hdst₁ ▸ h)
    refine ⟨Function.update values₂ join.next ((rhs.run (enterRhs stop lhs b)).1.eval M values₂),
      fun blocks hext pred ↦ ?_, ?_, ?_⟩
    · obtain ⟨pred₁, hsteps₁⟩ := hruns₁ blocks ((hleave.trans hfromEnter).trans hext) pred
      have hjump : Steps M blocks (here l pred₁ values₁ ls) (here (enterRhs stop lhs b) l.curr values₁ ls) :=
        steps_leaveLhs (b := l) (hfromEnter.trans hext) (if_neg hstop).symm hempty
      obtain ⟨pred₂, hsteps₂⟩ := hruns₂ blocks (hfromRhs.trans hext) l.curr
      have hbr : Steps M blocks (here r pred₂ values₂ s') (here join b.count values₂ s') := by
        refine hrcurr ▸ steps_br (b := r) ?_ rfl (enterJoin_blocks hb hlhs hrhs)
        refine Extends.trans ?_ hext
        rw [hrun]
        exact join.extends_append _
      rw [hrun] at hext ⊢
      refine ⟨b.count, (((hsteps₁.trans hjump).trans hsteps₂).trans hbr).trans (steps_appendPhi hext ?_)⟩
      exact List.mem_cons_of_mem _ List.mem_cons_self
    · exact (Function.update_self _ _ _).trans hvalue₂
    · intro n hn
      have hn' : n < (enterRhs stop lhs b).next := hn.trans_le hlnext
      rw [Function.update_of_ne (hnew n hn), hsame₂ n hn', hsame₁ n hn]

/-- What a ternary means; without a phi there is no value. -/
def ternaryMeaning (M : Machine Oper Const V σ) (phi : Bool) (cond troo fols : V → σ → Option (V × σ)) (dst : V) (s : σ) :
    Option (V × σ) :=
  (cond dst s).bind fun (value, s) ↦
    (if M.truth value then troo dst s else fols dst s).map fun (value, s) ↦ (if phi then value else M.const .null, s)

theorem runsTo_enterCond {b : FuncBuilder} (hb : b.Valid) (values : ℕ → V) (s : σ) :
    RunsTo M b (enterCond b) values s values s := by
  by_cases hempty : (b.blocks b.curr).isEmpty
  · rw [enterCond, if_pos hempty]
    exact .refl b values s
  · have hnew : (enterCond b).blocks b.count = [] := by
      rw [enterCond, if_neg hempty]
      exact (Builder.append_blocks_of_ne (b := { b with count := b.count + 1 }) hb.curr.ne _).trans (hb.unmade _ le_rfl)
    intro blocks hext pred
    refine ⟨b.curr, steps_br ?_ ?_ hnew⟩
    · rw [enterCond, if_neg hempty] at hext
      exact hext
    · rw [enterCond, if_neg hempty]
      rfl

section Ternary

variable {phi : Bool} {cond troo fols : Gen Value} {b : FuncBuilder}

/-- A branch of a ternary that has been linked to the block after it. -/
theorem extends_linked (cond : Gen Value) (b : FuncBuilder) (htroo : ∀ b, Stays b (troo.run b).2)
    (hfols : ∀ b, Stays b (fols.run b).2) :
    Extends ((troo.run (enterTroo cond b)).2.append (.br (b.count + 2))).blocks (enterDone cond troo fols b).blocks ∧
      Extends ((fols.run (enterFols cond troo b)).2.append (.br (b.count + 2))).blocks
        (enterDone cond troo fols b).blocks := by
  let t := (troo.run (enterTroo cond b)).2
  let f := (fols.run (enterFols cond troo b)).2
  let linked := (f.setCurr b.count).append (.br (b.count + 2))
  have htcurr : t.curr = b.count := (htroo _).curr
  have hfcurr : f.curr = b.count + 1 := (hfols _).curr
  have htf : Extends t.blocks f.blocks := (hfols (enterFols cond troo b)).grown
  have hlinked : Extends f.blocks linked.blocks := (f.setCurr b.count).extends_append _
  have hdone : Extends linked.blocks (enterDone cond troo fols b).blocks := (linked.setCurr (b.count + 1)).extends_append _
  constructor
  · intro k
    by_cases hk : t.curr = k
    · have hsame : f.blocks k = t.blocks k := (hfols (enterFols cond troo b)).blocks_of_ne (by
        rw [← hk, htcurr]
        exact (Nat.lt_succ_self _).ne)
      have heq : linked.blocks k = (t.append (.br (b.count + 2))).blocks k := by
        rw [Builder.append_blocks_self hk, ← hsame]
        exact Builder.append_blocks_self (htcurr.symm.trans hk) _
      rw [← heq]
      exact hdone k
    · rw [Builder.append_blocks_of_ne hk]
      exact (htf.trans (hlinked.trans hdone)) k
  · intro k
    by_cases hk : f.curr = k
    · have hsame : linked.blocks k = f.blocks k := Builder.append_blocks_of_ne (by
        rw [← hk, hfcurr]
        exact (Nat.lt_succ_self _).ne) _
      have heq : (enterDone cond troo fols b).blocks k = (f.append (.br (b.count + 2))).blocks k := by
        rw [Builder.append_blocks_self hk, ← hsame]
        exact Builder.append_blocks_self (b := linked.setCurr (b.count + 1)) (hfcurr.symm.trans hk) _
      rw [heq]
    · rw [Builder.append_blocks_of_ne hk]
      exact (hlinked.trans hdone) k

/-- The values after a ternary with the given value. -/
def phiValues (M : Machine Oper Const V σ) (phi : Bool) (b : FuncBuilder) (operand : Value) (values : ℕ → V) : ℕ → V :=
  if phi then Function.update values b.next (operand.eval M values) else values

/-- What the phi, or its absence, makes of the value of a branch. -/
theorem phiValues_eval (b : FuncBuilder) (operand : Value) (values : ℕ → V) :
    (if phi then Operand.value b.next else .const .null : Value).eval M (phiValues M phi b operand values) =
      if phi then operand.eval M values else M.const .null := by
  cases phi with
  | false => rfl
  | true => exact Function.update_self _ _ _

theorem phiValues_of_lt {operand : Value} {values : ℕ → V} {n : ℕ} (hn : n < b.next) :
    phiValues M phi b operand values n = values n := by
  cases phi with
  | false => rfl
  | true => exact Function.update_of_ne hn.ne _ _

/-- From the end of a branch to the block after the ternary. -/
theorem runsTo_phiOf {e done : FuncBuilder} {incoming : List (Value × ℕ)} {operand : Value}
    (hlinked : Extends (e.append (.br done.curr)).blocks done.blocks) (hempty : done.blocks done.curr = [])
    (hmem : (operand, e.curr) ∈ incoming) (values : ℕ → V) (s : σ) :
    RunsTo M e (phiOf phi incoming done) values s (phiValues M phi done operand values) s := by
  intro blocks hext pred
  have hdone : Extends done.blocks blocks := (phiOf_grown phi incoming done).trans hext
  have hbr : Steps M blocks (here e pred values s) (here done e.curr values s) :=
    steps_br (hlinked.trans hdone) rfl hempty
  refine ⟨e.curr, hbr.trans ?_⟩
  cases phi with
  | false => exact .refl
  | true => exact steps_appendPhi hext hmem

theorem phiOf_runs (phi : Bool) {dst : Value} {meaning meaning' meaning'' : V → σ → Option (V × σ)} (hb : b.Valid)
    (hdst : dst.Below b.next) (hcond : Emitted { b with count := b.count + 3 } (afterCond cond b))
    (htroo : ∀ b, Stays b (troo.run b).2) (hfols : ∀ b, Stays b (fols.run b).2)
    (hc : Computes M { b with count := b.count + 3 } cond dst meaning)
    (ht : Computes M (enterTroo cond b) troo dst meaning') (hf : Computes M (enterFols cond troo b) fols dst meaning'')
    {values : ℕ → V} {s s' : σ} {value : V}
    (h : ternaryMeaning M phi meaning meaning' meaning'' (dst.eval M values) s = some (value, s')) :
    ∃ values', RunsTo M b (phiOf phi [((troo.run (enterTroo cond b)).1, b.count),
        ((fols.run (enterFols cond troo b)).1, b.count + 1)] (enterDone cond troo fols b)) values s values' s' ∧
      (if phi then Operand.value (enterDone cond troo fols b).next else .const .null : Value).eval M values' = value ∧
      ∀ n < b.next, values' n = values n := by
  let t := (troo.run (enterTroo cond b)).2
  let f := (fols.run (enterFols cond troo b)).2
  let done := enterDone cond troo fols b
  let incoming := [((troo.run (enterTroo cond b)).1, b.count), ((fols.run (enterFols cond troo b)).1, b.count + 1)]
  have htcurr : t.curr = b.count := (htroo _).curr
  have hfcurr : f.curr = b.count + 1 := (hfols _).curr
  have hcnext : b.next ≤ (afterCond cond b).next := hcond.next
  have htnext : (afterCond cond b).next ≤ t.next := (htroo (enterTroo cond b)).next
  have hfnext : t.next ≤ done.next := (hfols (enterFols cond troo b)).next
  obtain ⟨_, _, _, -, -, -, -, -, hd, -⟩ := enterDone_blocks hb hcond htroo hfols
  obtain ⟨hlinked, hlinked'⟩ := extends_linked cond b htroo hfols
  have hphi : Extends done.blocks (phiOf phi incoming done).blocks := phiOf_grown phi incoming done
  have htdone : Extends t.blocks (phiOf phi incoming done).blocks := ((t.extends_append _).trans hlinked).trans hphi
  have hfdone : Extends f.blocks (phiOf phi incoming done).blocks := ((f.extends_append _).trans hlinked').trans hphi
  have htgrown : Extends (enterTroo cond b).blocks t.blocks := (htroo _).grown
  have hfgrown : Extends (enterFols cond troo b).blocks f.blocks := (hfols _).grown
  obtain ⟨⟨cvalue, cs⟩, hcondMeaning, h⟩ := Option.bind_eq_some_iff.mp h
  obtain ⟨⟨bvalue, bs⟩, hbranch, h⟩ := Option.map_eq_some_iff.mp h
  cases h
  obtain ⟨values₁, hruns₁, hvalue₁, hsame₁⟩ := hc.runs values s cvalue cs hcondMeaning
  have hdst₁ : dst.eval M values₁ = dst.eval M values := hdst.eval_eq M hsame₁
  -- the jump to the branch that the condition selects
  have hjump : ∀ e : FuncBuilder, e.curr = (if M.truth cvalue then b.count else b.count + 1) → e.blocks e.curr = [] →
      Extends (enterTroo cond b).blocks e.blocks → RunsTo M (afterCond cond b) e values₁ cs values₁ cs := by
    intro e hcurr hempty hgrown blocks hext pred
    refine ⟨(afterCond cond b).curr, steps_condBr (hgrown.trans hext) ?_ hempty⟩
    rw [hcurr, ← hvalue₁]
  have hcphi : Extends (afterCond cond b).blocks (enterTroo cond b).blocks := Builder.extends_append _ _
  cases htruth : M.truth cvalue with
  | true =>
    simp only [htruth, if_true, ← hdst₁] at hbranch hjump
    obtain ⟨values₂, hruns₂, hvalue₂, hsame₂⟩ := ht.runs values₁ cs bvalue s' hbranch
    have hstart := hjump (enterTroo cond b) rfl (enterTroo_blocks hb hcond le_rfl (Nat.lt_add_of_pos_right (by decide))) (.refl _)
    have hend : RunsTo M t (phiOf phi incoming done) values₂ s' (phiValues M phi done _ values₂) s' :=
      runsTo_phiOf hlinked hd (by rw [htcurr]; exact List.mem_cons_self) values₂ s'
    refine ⟨_, hruns₁.trans (hstart.trans (hruns₂.trans hend htdone) (htgrown.trans htdone))
      (hcphi.trans (htgrown.trans htdone)), ?_, fun n hn ↦ ?_⟩
    · rw [phiValues_eval, hvalue₂]
    · rw [phiValues_of_lt (by omega), hsame₂ n (hn.trans_le hcnext), hsame₁ n hn]
  | false =>
    simp only [htruth, Bool.false_eq_true, if_false, ← hdst₁] at hbranch hjump
    obtain ⟨values₂, hruns₂, hvalue₂, hsame₂⟩ := hf.runs values₁ cs bvalue s' hbranch
    have hstart := hjump (enterFols cond troo b) rfl (enterFols_blocks hb hcond htroo) htgrown
    have hend : RunsTo M f (phiOf phi incoming done) values₂ s' (phiValues M phi done _ values₂) s' :=
      runsTo_phiOf hlinked' hd (by rw [hfcurr]; exact List.mem_cons_of_mem _ List.mem_cons_self) values₂ s'
    refine ⟨_, hruns₁.trans (hstart.trans (hruns₂.trans hend hfdone) (hfgrown.trans hfdone))
      (hcphi.trans (htgrown.trans (hfgrown.trans hfdone))), ?_, fun n hn ↦ ?_⟩
    · rw [phiValues_eval, hvalue₂]
    · have hn' : n < (enterFols cond troo b).next := hn.trans_le (hcnext.trans htnext)
      rw [phiValues_of_lt (by omega), hsame₂ n hn', hsame₁ n hn]

theorem ternary_computes {dst : Value} {meaning meaning' meaning'' : V → σ → Option (V × σ)} (hb : b.Valid)
    (hdst : dst.Below b.next) (hcond : ∀ b : FuncBuilder, b.Valid → Emitted b (cond.run b).2)
    (htroo : ∀ b, Stays b (troo.run b).2) (hfols : ∀ b, Stays b (fols.run b).2)
    (hc : ∀ b : FuncBuilder, b.Valid → dst.Below b.next → Computes M b cond dst meaning)
    (ht : ∀ b : FuncBuilder, b.Valid → dst.Below b.next → Computes M b troo dst meaning')
    (hf : ∀ b : FuncBuilder, b.Valid → dst.Below b.next → Computes M b fols dst meaning'') :
    Computes M b (ternary phi cond troo fols) dst (ternaryMeaning M phi meaning meaning' meaning'') := by
  have henter := enterCond_emitted hb
  have hvalid := henter.valid
  have hdst' : dst.Below (enterCond b).next := hdst.mono henter.next
  have hemitted := hcond _ (hvalid.makeBlocks 3)
  have hcnext : (enterCond b).next ≤ (enterTroo cond (enterCond b)).next := hemitted.next
  have hfnext : (enterCond b).next ≤ (enterFols cond troo (enterCond b)).next :=
    hcnext.trans (htroo (enterTroo cond (enterCond b))).next
  have hoperand : ((ternary phi cond troo fols).run b).1 =
      if phi then .value (enterDone cond troo fols (enterCond b)).next else .const .null := by
    rw [run_ternary]
    cases phi <;> rfl
  refine ⟨?_, fun values s value s' h ↦ ?_⟩
  · rw [hoperand, run_ternary_builder]
    cases phi
    · trivial
    · exact Nat.lt_succ_self _
  · obtain ⟨values', hruns, hvalue, hsame⟩ := phiOf_runs phi hvalid hdst' hemitted htroo hfols
      (hc _ (hvalid.makeBlocks 3) hdst') (ht _ (enterTroo_valid hvalid hemitted) (hdst'.mono hcnext))
      (hf _ (enterFols_valid hvalid hemitted htroo) (hdst'.mono hfnext)) h
    refine ⟨values', ?_, ?_, fun n hn ↦ hsame n (hn.trans_le henter.next)⟩
    · rw [run_ternary_builder]
      refine (runsTo_enterCond hb values s).trans hruns ?_
      exact (phiOf_emitted hvalid hemitted htroo hfols _ _).grown
    · rw [hoperand]
      exact hvalue

end Ternary

mutual

theorem emit_computes : (t : Tree) → t.flat = true → (dst : Value) → (b : FuncBuilder) → b.Valid → dst.Below b.next →
    Computes M b (emit t dst) dst (eval M t)
  | .dst, _, dst, b, _, hdst => by
    refine ⟨hdst, fun values s value s' h ↦ ?_⟩
    cases h
    exact ⟨values, .refl b values s, rfl, fun _ _ ↦ rfl⟩
  | .const k, _, dst, b, _, _ => by
    refine ⟨trivial, fun values s value s' h ↦ ?_⟩
    cases h
    exact ⟨values, .refl b values s, rfl, fun _ _ ↦ rfl⟩
  | .inst oper args, hflat, dst, b, hb, hdst => by
    have hargs := emits_computes args hflat dst b hb hdst
    have hnext := (emits_emitted args hflat dst b hb).1.next
    refine ⟨Nat.lt_succ_self _, fun values s value s' h ↦ ?_⟩
    obtain ⟨⟨args', s₁⟩, hargs', hop⟩ := Option.bind_eq_some_iff.mp h
    obtain ⟨values₁, hruns, hvalues, hsame⟩ := hargs.runs values s args' s₁ hargs'
    refine ⟨_, hruns.trans (runsTo_createOp (hvalues ▸ hop)) (grows_createOp _ _ _), ?_, fun n hn ↦ ?_⟩
    · exact Function.update_self _ _ _
    · rw [Function.update_of_ne (hn.trans_le hnext).ne, hsame n hn]
  | .shortCircuit stop lhs rhs, hflat, dst, b, hb, hdst => by
    simp only [Tree.flat, Bool.and_eq_true, Bool.not_eq_true'] at hflat
    have hlhs := emit_stays lhs hflat.1 dst
    have hrhs := emit_stays rhs hflat.2 dst
    have hl := emit_computes lhs (lhs.flat_of_not_branching hflat.1) dst _ (hb.makeBlocks 2) hdst
    have hdst' : dst.Below (enterRhs stop (emit lhs dst) b).next := hdst.mono (hlhs { b with count := b.count + 2 }).next
    have hr := emit_computes rhs (rhs.flat_of_not_branching hflat.2) dst _ (enterRhs_valid hb hlhs) hdst'
    have hcomputes := shortCircuit_computes hb hdst hlhs hrhs hl hr
    have hmeaning : eval M (.shortCircuit stop lhs rhs) = shortCircuitMeaning M stop (eval M lhs) (eval M rhs) := by
      funext d s
      cases stop with
      | true => rfl
      | false =>
        rw [eval, shortCircuitMeaning]
        congr
        funext ⟨value, s⟩
        cases htruth : M.truth value <;> simp [htruth]
    rw [hmeaning]
    cases stop <;> exact hcomputes
  | .ternary phi cond troo fols, hflat, dst, b, hb, hdst => by
    simp only [Tree.flat, Bool.and_eq_true, Bool.not_eq_true'] at hflat
    have hmeaning : eval M (.ternary phi cond troo fols) =
        ternaryMeaning M phi (eval M cond) (eval M troo) (eval M fols) := by
      funext d s
      rw [eval, ternaryMeaning]
    rw [hmeaning]
    exact ternary_computes hb hdst (fun b hb ↦ (emit_emitted cond hflat.1 dst b hb).1) (emit_stays troo hflat.2.1 dst)
      (emit_stays fols hflat.2.2 dst) (emit_computes cond hflat.1 dst)
      (emit_computes troo (troo.flat_of_not_branching hflat.2.1) dst)
      (emit_computes fols (fols.flat_of_not_branching hflat.2.2) dst)
  | .before value effects, hflat, dst, b, hb, hdst => by
    obtain ⟨hflat, hflat'⟩ := Bool.and_eq_true_iff.mp hflat
    have hemitted := (emit_emitted value hflat dst b hb).1
    have hemitted' := (emits_emitted effects hflat' dst _ hemitted.valid).1
    have hv := emit_computes value hflat dst b hb hdst
    have he := emits_computes effects hflat' dst _ hemitted.valid (hdst.mono hemitted.next)
    refine ⟨hv.below.mono hemitted'.next, fun values s result s' h ↦ ?_⟩
    obtain ⟨⟨result', s₁⟩, hvalue, h⟩ := Option.bind_eq_some_iff.mp h
    obtain ⟨⟨results, s₂⟩, heffects, h⟩ := Option.map_eq_some_iff.mp h
    cases h
    obtain ⟨values₁, hruns₁, hresult, hsame₁⟩ := hv.runs values s result s₁ hvalue
    obtain ⟨values₂, hruns₂, -, hsame₂⟩ := he.runs values₁ s₁ results s' (hdst.eval_eq M hsame₁ ▸ heffects)
    refine ⟨values₂, hruns₁.trans hruns₂ hemitted'.grown, ?_, fun n hn ↦ ?_⟩
    · exact (hv.below.eval_eq M hsame₂).trans hresult
    · rw [hsame₂ n (hn.trans_le hemitted.next), hsame₁ n hn]
  | .withDst addr body, hflat, dst, b, hb, hdst => by
    obtain ⟨hflat, hflat'⟩ := Bool.and_eq_true_iff.mp hflat
    have hemitted := (emit_emitted addr hflat dst b hb).1
    have ha := emit_computes addr hflat dst b hb hdst
    have hbody := emit_computes body hflat' ((emit addr dst).run b).1 _ hemitted.valid ha.below
    have hemitted' := (emit_emitted body hflat' ((emit addr dst).run b).1 _ hemitted.valid).1
    refine ⟨hbody.below, fun values s result s' h ↦ ?_⟩
    obtain ⟨⟨place, s₁⟩, haddr, h⟩ := Option.bind_eq_some_iff.mp h
    obtain ⟨values₁, hruns₁, hplace, hsame₁⟩ := ha.runs values s place s₁ haddr
    obtain ⟨values₂, hruns₂, hresult, hsame₂⟩ := hbody.runs values₁ s₁ result s' (hplace ▸ h)
    refine ⟨values₂, hruns₁.trans hruns₂ hemitted'.grown, hresult, fun n hn ↦ ?_⟩
    rw [hsame₂ n (hn.trans_le hemitted.next), hsame₁ n hn]

theorem emits_computes : (ts : List Tree) → Tree.flats ts = true → (dst : Value) → (b : FuncBuilder) → b.Valid →
    dst.Below b.next → ComputesAll M b (emits ts dst) dst (evals M ts)
  | [], _, dst, b, _, _ => by
    refine ⟨nofun, fun values s args s' h ↦ ?_⟩
    cases h
    exact ⟨values, .refl b values s, rfl, fun _ _ ↦ rfl⟩
  | t :: ts, hflat, dst, b, hb, hdst => by
    obtain ⟨hflat, hflat'⟩ := Bool.and_eq_true_iff.mp hflat
    have hemitted := (emit_emitted t hflat dst b hb).1
    have hemitted' := (emits_emitted ts hflat' dst _ hemitted.valid).1
    have ht := emit_computes t hflat dst b hb hdst
    have hts := emits_computes ts hflat' dst _ hemitted.valid (hdst.mono hemitted.next)
    refine ⟨?_, fun values s args s' h ↦ ?_⟩
    · intro operand hoperand
      rcases List.mem_cons.mp hoperand with rfl | hoperand
      · exact ht.below.mono hemitted'.next
      · exact hts.below operand hoperand
    · obtain ⟨⟨value, s₁⟩, hvalue, h⟩ := Option.bind_eq_some_iff.mp h
      obtain ⟨⟨rest, s₂⟩, hrest, h⟩ := Option.map_eq_some_iff.mp h
      cases h
      obtain ⟨values₁, hruns₁, hvalue₁, hsame₁⟩ := ht.runs values s value s₁ hvalue
      obtain ⟨values₂, hruns₂, hvalues₂, hsame₂⟩ := hts.runs values₁ s₁ rest s' (hdst.eval_eq M hsame₁ ▸ hrest)
      refine ⟨values₂, hruns₁.trans hruns₂ hemitted'.grown, ?_, fun n hn ↦ ?_⟩
      · exact congrArg₂ List.cons ((ht.below.eval_eq M hsame₂).trans hvalue₁) hvalues₂
      · rw [hsame₂ n (hn.trans_le hemitted.next), hsame₁ n hn]

end

end Stela.CodeGen.Blocks
