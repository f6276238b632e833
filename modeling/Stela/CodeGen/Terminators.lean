import Stela.CodeGen.ShortCircuit
import Stela.Library.OpenBlocks

/-!
# The terminators of an expression

Short circuits end the blocks they leave however they are nested. A choice links the blocks in which its branches
start, so these are ended twice if a branch makes blocks of its own. All other code only appends.
-/

namespace Stela.CodeGen.Blocks

open Stela.Syntax Stela.Library.ControlFlow

namespace Tree

mutual

/-- No branch of a choice makes blocks. -/
def linked : Tree → Bool
  | .dst | .const _ => true
  | .inst _ args => linkeds args
  | .shortCircuit _ lhs rhs => linked lhs && linked rhs
  | .ternary _ cond troo fols => linked cond && (!branching troo && !branching fols)
  | .before value effects => linked value && linkeds effects
  | .withDst addr body => linked addr && linked body

def linkeds : List Tree → Bool
  | [] => true
  | tree :: trees => linked tree && linkeds trees

end

mutual

/-- The code has an instruction. -/
def emits : Tree → Bool
  | .dst | .const _ => false
  | .inst _ _ | .shortCircuit _ _ _ | .ternary _ _ _ _ => true
  | .before value effects => emits value || emitss effects
  | .withDst addr body => emits addr || emits body

def emitss : List Tree → Bool
  | [] => false
  | tree :: trees => emits tree || emitss trees

end

end Tree

/-! ## Code without instructions, and other code -/

mutual

theorem emit_silent : (t : Tree) → t.emits = false → (dst : Value) → (b : FuncBuilder) → ((emit t dst).run b).2 = b
  | .dst, _, _, _ | .const _, _, _, _ => rfl
  | .before value effects, h, dst, b => by
    obtain ⟨hvalue, heffects⟩ := Bool.or_eq_false_iff.mp h
    calc ((emits effects dst).run ((emit value dst).run b).2).2 = ((emit value dst).run b).2 :=
          emits_silent effects heffects dst _
      _ = b := emit_silent value hvalue dst b
  | .withDst addr body, h, dst, b => by
    obtain ⟨haddr, hbody⟩ := Bool.or_eq_false_iff.mp h
    calc ((emit body ((emit addr dst).run b).1).run ((emit addr dst).run b).2).2 = ((emit addr dst).run b).2 :=
          emit_silent body hbody _ _
      _ = b := emit_silent addr haddr dst b

theorem emits_silent : (ts : List Tree) → Tree.emitss ts = false → (dst : Value) → (b : FuncBuilder) →
    ((emits ts dst).run b).2 = b
  | [], _, _, _ => rfl
  | t :: ts, h, dst, b => by
    obtain ⟨htree, htrees⟩ := Bool.or_eq_false_iff.mp h
    calc ((emits ts dst).run ((emit t dst).run b).2).2 = ((emit t dst).run b).2 := emits_silent ts htrees dst _
      _ = b := emit_silent t htree dst b

end

/-- Something has been appended to the current block. -/
def Touched (b b' : FuncBuilder) : Prop := ∃ i, Extends (b.append i).blocks b'.blocks

theorem Touched.mono {b b' b'' : FuncBuilder} (h : Touched b b') (hext : Extends b'.blocks b''.blocks) : Touched b b'' :=
  h.imp fun _ hi ↦ hi.trans hext

theorem touched_append (b : FuncBuilder) (i : Inst Oper Const) : Touched b (b.append i) := ⟨i, .refl _⟩

/-- One after the other: either the first has no instructions, or it has appended one. -/
theorem Touched.seq {b b' b'' : FuncBuilder} {c : Bool} (h : c = true → Touched b b') (hsilent : c = false → b' = b)
    (hext : Extends b'.blocks b''.blocks) (h' : Touched b' b'' ∨ c = true) : Touched b b'' := by
  cases c with
  | true => exact (h rfl).mono hext
  | false =>
    rw [hsilent rfl] at h'
    exact h'.resolve_right Bool.false_ne_true

mutual

theorem emit_touched : (t : Tree) → t.emits = true → (dst : Value) → (b : FuncBuilder) → Touched b ((emit t dst).run b).2
  | .inst oper args, _, dst, b => by
    refine .seq (emits_touched args · dst b) (emits_silent args · dst b) (grows_createOp _ _ _) (.inl ?_)
    exact touched_append _ _
  | .shortCircuit stop lhs rhs, _, dst, b => by
    let two : FuncBuilder := { b with count := b.count + 2 }
    have hleave : Touched two (enterRhs stop (emit lhs dst) b) := by
      refine .seq (emit_touched lhs · dst two) (emit_silent lhs · dst two) (Builder.extends_append _ _) (.inl ?_)
      exact touched_append _ _
    have hrest : Touched b ((shortCircuit stop (emit lhs dst) (emit rhs dst)).run b).2 := by
      refine (hleave : Touched b _).mono ?_
      rw [run_shortCircuit]
      let r := ((emit rhs dst).run (enterRhs stop (emit lhs dst) b)).2
      let done := (r.append (.br (b.count + 1))).setCurr (b.count + 1)
      exact ((grows_emit rhs dst _).trans (r.extends_append _)).trans (done.extends_append _)
    cases stop <;> exact hrest
  | .ternary phi cond troo fols, _, dst, b => by
    rw [emit, run_ternary_builder]
    have hrest (b : FuncBuilder) : Extends (enterTroo (emit cond dst) b).blocks
        (phiOf phi [(((emit troo dst).run (enterTroo (emit cond dst) b)).1, b.count),
          (((emit fols dst).run (enterFols (emit cond dst) (emit troo dst) b)).1, b.count + 1)]
          (enterDone (emit cond dst) (emit troo dst) (emit fols dst) b)).blocks := by
      have htroo : Extends (enterTroo (emit cond dst) b).blocks (enterFols (emit cond dst) (emit troo dst) b).blocks :=
        grows_emit troo dst _
      exact (htroo.trans (enterDone_grown _ _ _ (grows_emit fols dst))).trans (phiOf_grown phi _ _)
    by_cases hempty : (b.blocks b.curr).isEmpty
    · rw [enterCond, if_pos hempty]
      let three : FuncBuilder := { b with count := b.count + 3 }
      have hleave : Touched three (enterTroo (emit cond dst) b) := by
        refine .seq (emit_touched cond · dst three) (emit_silent cond · dst three) (Builder.extends_append _ _) (.inl ?_)
        exact touched_append _ _
      exact (hleave : Touched b _).mono (hrest b)
    · rw [enterCond, if_neg hempty]
      refine Touched.mono ⟨.br b.count, ?_⟩ (hrest _)
      let entered := ({ b with count := b.count + 1 }.append (.br b.count)).setCurr b.count
      have hcond := grows_emit cond dst { entered with count := entered.count + 3 }
      exact hcond.trans (Builder.extends_append _ _)
  | .before value effects, h, dst, b => by
    refine .seq (emit_touched value · dst b) (emit_silent value · dst b) (grows_emits effects dst _) ?_
    exact (Bool.or_eq_true_iff.mp h).symm.imp_left (emits_touched effects · dst _)
  | .withDst addr body, h, dst, b => by
    refine .seq (emit_touched addr · dst b) (emit_silent addr · dst b) (grows_emit body _ _) ?_
    exact (Bool.or_eq_true_iff.mp h).symm.imp_left (emit_touched body · _ _)

theorem emits_touched : (ts : List Tree) → Tree.emitss ts = true → (dst : Value) → (b : FuncBuilder) →
    Touched b ((emits ts dst).run b).2
  | t :: ts, h, dst, b => by
    refine .seq (emit_touched t · dst b) (emit_silent t · dst b) (grows_emits ts dst _) ?_
    exact (Bool.or_eq_true_iff.mp h).symm.imp_left (emits_touched ts · dst _)

end

/-! ## Linked code -/

/-- Code that ends the blocks it leaves; if it makes blocks, it ends in one of them. -/
structure Placed (branching : Bool) (pending : List ℕ) (b b' : FuncBuilder) : Prop where
  tidy : b'.Tidy pending false
  count : b.count ≤ b'.count
  curr : b'.curr = b.curr ∨ b.count ≤ b'.curr
  moved : branching = true → b.count ≤ b'.curr

theorem Placed.refl {pending : List ℕ} {b : FuncBuilder} (hb : b.Tidy pending false) : Placed false pending b b :=
  ⟨hb, le_rfl, .inl rfl, fun h ↦ by cases h⟩

theorem Placed.trans {c c' : Bool} {pending : List ℕ} {b b' b'' : FuncBuilder} (h : Placed c pending b b')
    (h' : Placed c' pending b' b'') : Placed (c || c') pending b b'' where
  tidy := h'.tidy
  count := h.count.trans h'.count
  curr := by
    rcases h'.curr with heq | hle
    · rw [heq]
      exact h.curr
    · exact .inr (h.count.trans hle)
  moved := by
    intro hmoved
    rcases Bool.or_eq_true_iff.mp hmoved with hc | hc
    · exact h'.curr.elim (fun heq ↦ (h.moved hc).trans heq.ge) h.count.trans
    · exact h.count.trans (h'.moved hc)

/-- An instruction that stays in its block. -/
theorem Placed.appendOp {c : Bool} {pending : List ℕ} {b b' : FuncBuilder} (h : Placed c pending b b') (oper : Oper)
    (args : List Value) : Placed c pending b ((createOp oper args).run b').2 :=
  ⟨h.tidy.appendOp oper args, h.count, h.curr, h.moved⟩

/-- The blocks of a short circuit, up to where its right operand starts. -/
theorem enterRhs_tidy {stop : Bool} {lhs : Gen Value} {c : Bool} {pending : List ℕ} {b : FuncBuilder}
    (hlhs : Placed c ((b.count + 1) :: b.count :: pending) { b with count := b.count + 2 }
      (lhs.run { b with count := b.count + 2 }).2) : (enterRhs stop lhs b).Tidy ((b.count + 1) :: pending) false := by
  have hleave := hlhs.tidy.append (leaveLhs stop (lhs.run { b with count := b.count + 2 }).1 (b.count + 1) b.count)
  rw [isTerminator_leaveLhs] at hleave
  exact (hleave.perm (.swap _ _ _)).setCurr

theorem makeBlocks_tidy {pending : List ℕ} {closed : Bool} {b : FuncBuilder} (hb : b.Tidy pending closed) :
    Builder.Tidy ((b.count + 1) :: b.count :: pending) closed { b with count := b.count + 2 } :=
  hb.makeBlock.makeBlock

theorem shortCircuit_placed {stop : Bool} {lhs rhs : Gen Value} {c c' : Bool} {pending : List ℕ} {b : FuncBuilder}
    (hlhs : Placed c ((b.count + 1) :: b.count :: pending) { b with count := b.count + 2 }
      (lhs.run { b with count := b.count + 2 }).2)
    (hrhs : Placed c' ((b.count + 1) :: pending) (enterRhs stop lhs b) (rhs.run (enterRhs stop lhs b)).2) :
    Placed true pending b ((shortCircuit stop lhs rhs).run b).2 := by
  rw [run_shortCircuit]
  let done := ((rhs.run (enterRhs stop lhs b)).2.append (.br (b.count + 1))).setCurr (b.count + 1)
  have hdone : done.Tidy pending false := (hrhs.tidy.append (.br (b.count + 1))).setCurr
  have hcount : b.count + 2 ≤ done.count := hlhs.count.trans hrhs.count
  have hcurr : b.count ≤ done.curr := Nat.le_succ _
  exact ⟨hdone.appendPhi _, (Nat.le_add_right _ _).trans hcount, .inr hcurr, fun _ ↦ hcurr⟩

theorem enterCond_placed {pending : List ℕ} {b : FuncBuilder} (hb : b.Tidy pending false) :
    Placed false pending b (enterCond b) := by
  by_cases hempty : (b.blocks b.curr).isEmpty
  · rw [enterCond, if_pos hempty]
    exact .refl hb
  · rw [enterCond, if_neg hempty]
    exact ⟨(hb.makeBlock.append (.br b.count)).setCurr, Nat.le_succ _, .inr le_rfl, fun h ↦ by cases h⟩

/-- What is pending while the branches of a ternary are visited. -/
def branchBlocks (b : FuncBuilder) (pending : List ℕ) : List ℕ :=
  (b.count + 2) :: (b.count + 1) :: b.count :: pending

theorem enterTroo_tidy {cond : Gen Value} {c : Bool} {pending : List ℕ} {b : FuncBuilder}
    (hcond : Placed c (branchBlocks b pending) { b with count := b.count + 3 } (afterCond cond b)) :
    (enterTroo cond b).Tidy ((b.count + 2) :: (b.count + 1) :: pending) false := by
  refine ((hcond.tidy.append (.condBr _ b.count (b.count + 1))).perm ?_).setCurr
  exact (List.Perm.cons _ (.swap _ _ _)).trans (.swap _ _ _)

/-- The first branch is left open. -/
theorem enterFols_tidy {cond troo : Gen Value} {c : Bool} {pending : List ℕ} {b : FuncBuilder}
    (htroo : Placed c ((b.count + 2) :: (b.count + 1) :: pending) (enterTroo cond b) (troo.run (enterTroo cond b)).2)
    (hstays : Stays (enterTroo cond b) (troo.run (enterTroo cond b)).2) :
    (enterFols cond troo b).Tidy (b.count :: (b.count + 2) :: pending) false := by
  have hcurr : (troo.run (enterTroo cond b)).2.curr = b.count := hstays.curr
  have hleave := (htroo.tidy.perm (.swap _ _ _)).leave
  rw [hcurr] at hleave
  exact hleave

theorem enterDone_tidy {cond troo fols : Gen Value} {c : Bool} {pending : List ℕ} {b : FuncBuilder}
    (hfols : Placed c (b.count :: (b.count + 2) :: pending) (enterFols cond troo b) (fols.run (enterFols cond troo b)).2)
    (hstays : Stays (enterFols cond troo b) (fols.run (enterFols cond troo b)).2) :
    (enterDone cond troo fols b).Tidy pending false := by
  have hcurr : (fols.run (enterFols cond troo b)).2.curr = b.count + 1 := hstays.curr
  have hleave := hfols.tidy.leave
  rw [hcurr] at hleave
  have hlinked := (hleave.append (.br (b.count + 2))).setCurr
  exact (hlinked.append (.br (b.count + 2))).setCurr

theorem threeBlocks_tidy {pending : List ℕ} {b : FuncBuilder} (hb : b.Tidy pending false) :
    Builder.Tidy (branchBlocks b pending) false { b with count := b.count + 3 } :=
  hb.makeBlock.makeBlock.makeBlock

mutual

theorem linked_of_not_branching : (t : Tree) → t.branching = false → t.linked = true
  | .dst, _ | .const _, _ => rfl
  | .inst _ args, h => linkeds_of_not_branchings args h
  | .before value effects, h => by
    obtain ⟨hvalue, heffects⟩ := Bool.or_eq_false_iff.mp h
    exact Bool.and_eq_true_iff.mpr ⟨linked_of_not_branching value hvalue, linkeds_of_not_branchings effects heffects⟩
  | .withDst addr body, h => by
    obtain ⟨haddr, hbody⟩ := Bool.or_eq_false_iff.mp h
    exact Bool.and_eq_true_iff.mpr ⟨linked_of_not_branching addr haddr, linked_of_not_branching body hbody⟩

theorem linkeds_of_not_branchings : (ts : List Tree) → Tree.branchings ts = false → Tree.linkeds ts = true
  | [], _ => rfl
  | t :: ts, h => by
    obtain ⟨htree, htrees⟩ := Bool.or_eq_false_iff.mp h
    exact Bool.and_eq_true_iff.mpr ⟨linked_of_not_branching t htree, linkeds_of_not_branchings ts htrees⟩

end

mutual

theorem emit_placed : (t : Tree) → t.linked = true → (dst : Value) → (pending : List ℕ) → (b : FuncBuilder) →
    b.Tidy pending false → Placed t.branching pending b ((emit t dst).run b).2
  | .dst, _, _, _, _, hb | .const _, _, _, _, _, hb => .refl hb
  | .inst oper args, h, dst, pending, b, hb => (emits_placed args h dst pending b hb).appendOp oper _
  | .shortCircuit stop lhs rhs, h, dst, pending, b, hb => by
    obtain ⟨hl, hr⟩ := Bool.and_eq_true_iff.mp h
    have hlhs := emit_placed lhs hl dst _ _ (makeBlocks_tidy hb)
    have henter : (enterRhs stop (emit lhs dst) b).Tidy ((b.count + 1) :: pending) false := enterRhs_tidy hlhs
    have hrhs := emit_placed rhs hr dst _ _ henter
    have hplaced := shortCircuit_placed hlhs hrhs
    cases stop <;> exact hplaced
  | .ternary phi cond troo fols, h, dst, pending, b, hb => by
    simp only [Tree.linked, Bool.and_eq_true, Bool.not_eq_true'] at h
    have henter := enterCond_placed hb
    have hcond := emit_placed cond h.1 dst _ _ (threeBlocks_tidy henter.tidy)
    have htroo := emit_placed troo (linked_of_not_branching troo h.2.1) dst _ _ (enterTroo_tidy hcond)
    have htstays := emit_stays troo h.2.1 dst (enterTroo (emit cond dst) (enterCond b))
    have hfols := emit_placed fols (linked_of_not_branching fols h.2.2) dst _ _ (enterFols_tidy htroo htstays)
    have hfstays := emit_stays fols h.2.2 dst (enterFols (emit cond dst) (emit troo dst) (enterCond b))
    have hdone := enterDone_tidy hfols hfstays
    have hcount : (enterCond b).count ≤ (enterDone (emit cond dst) (emit troo dst) (emit fols dst) (enterCond b)).count :=
      (Nat.le_add_right _ 3).trans ((hcond.count.trans htroo.count).trans hfols.count)
    have hcurr : b.count ≤ (enterCond b).count + 2 := henter.count.trans (Nat.le_add_right _ _)
    rw [emit, run_ternary_builder]
    cases phi with
    | false => exact ⟨hdone, henter.count.trans hcount, .inr hcurr, fun _ ↦ hcurr⟩
    | true => exact ⟨hdone.appendPhi _, henter.count.trans hcount, .inr hcurr, fun _ ↦ hcurr⟩
  | .before value effects, h, dst, pending, b, hb => by
    obtain ⟨hvalue, heffects⟩ := Bool.and_eq_true_iff.mp h
    have hv := emit_placed value hvalue dst pending b hb
    exact hv.trans (emits_placed effects heffects dst pending _ hv.tidy)
  | .withDst addr body, h, dst, pending, b, hb => by
    obtain ⟨haddr, hbody⟩ := Bool.and_eq_true_iff.mp h
    have ha := emit_placed addr haddr dst pending b hb
    exact ha.trans (emit_placed body hbody _ pending _ ha.tidy)

theorem emits_placed : (ts : List Tree) → Tree.linkeds ts = true → (dst : Value) → (pending : List ℕ) →
    (b : FuncBuilder) → b.Tidy pending false → Placed (Tree.branchings ts) pending b ((emits ts dst).run b).2
  | [], _, _, _, _, hb => .refl hb
  | t :: ts, h, dst, pending, b, hb => by
    obtain ⟨htree, htrees⟩ := Bool.and_eq_true_iff.mp h
    have ht := emit_placed t htree dst pending b hb
    exact ht.trans (emits_placed ts htrees dst pending _ ht.tidy)

end

/-! ## Other code has an instruction after a terminator -/

/-- A block that was left for good is linked again. -/
theorem doubled_of_link {b c : FuncBuilder} {k : ℕ} (hclosed : Closed (b.blocks k)) (hext : Extends b.blocks c.blocks)
    (i : Inst Oper Const) : Doubled ((c.setCurr k).append i).blocks := by
  obtain ⟨rest, hrest⟩ := hext k
  obtain ⟨body, last, heq, hlast, -⟩ := hclosed
  refine ⟨k, body, last, rest ++ [i], ?_, hlast, by simp⟩
  rw [Builder.append_blocks_self (Builder.setCurr_curr _ _), Builder.setCurr_blocks, ← hrest, heq, List.append_assoc,
    List.append_assoc, List.singleton_append]

section Ternary

variable {phi : Bool} {cond troo fols : Gen Value} {pending : List ℕ} {b : FuncBuilder}

/-- What is wrong in the first branch stays wrong. -/
theorem phiOf_doubled_of_troo (hfols : Grows fols) (h : Doubled (troo.run (enterTroo cond b)).2.blocks)
    (incoming : List (Value × ℕ)) : Doubled (phiOf phi incoming (enterDone cond troo fols b)).blocks := by
  refine h.mono (Extends.trans ?_ (phiOf_grown phi incoming _))
  exact enterDone_grown cond troo fols hfols

theorem phiOf_doubled_of_fols (h : Doubled (fols.run (enterFols cond troo b)).2.blocks) (incoming : List (Value × ℕ)) :
    Doubled (phiOf phi incoming (enterDone cond troo fols b)).blocks := by
  let f := (fols.run (enterFols cond troo b)).2
  let linked := (f.setCurr b.count).append (.br (b.count + 2))
  have hlinked : Extends f.blocks linked.blocks := (f.setCurr b.count).extends_append _
  have hdone : Extends linked.blocks (enterDone cond troo fols b).blocks := (linked.setCurr (b.count + 1)).extends_append _
  exact h.mono ((hlinked.trans hdone).trans (phiOf_grown phi incoming _))

/-- A first branch that makes blocks ends the one in which it starts. -/
theorem phiOf_doubled_of_troo_moved (hfols : Grows fols) {c : Bool}
    (hcond : Placed c (branchBlocks b pending) { b with count := b.count + 3 } (afterCond cond b))
    (htroo : Placed true ((b.count + 2) :: (b.count + 1) :: pending) (enterTroo cond b) (troo.run (enterTroo cond b)).2)
    (incoming : List (Value × ℕ)) : Doubled (phiOf phi incoming (enterDone cond troo fols b)).blocks := by
  have hmoved : (enterTroo cond b).count ≤ (troo.run (enterTroo cond b)).2.curr := htroo.moved rfl
  have hcurr : b.count < (enterTroo cond b).count := (enterTroo_tidy hcond).curr
  have hnot : b.count ∉ (b.count + 2) :: (b.count + 1) :: pending := (List.nodup_cons.mp (enterTroo_tidy hcond).nodup).1
  have hclosed : Closed ((troo.run (enterTroo cond b)).2.blocks b.count) :=
    htroo.tidy.closed_of_ne (hcurr.trans_le htroo.count) (hcurr.trans_le hmoved).ne' hnot
  let f := (fols.run (enterFols cond troo b)).2
  have hext : Extends (troo.run (enterTroo cond b)).2.blocks f.blocks := hfols (enterFols cond troo b)
  refine (doubled_of_link hclosed hext (.br (b.count + 2))).mono (Extends.trans ?_ (phiOf_grown phi incoming _))
  exact (((f.setCurr b.count).append (.br (b.count + 2))).setCurr (b.count + 1)).extends_append _

/-- The same for the second branch. -/
theorem phiOf_doubled_of_fols_moved
    (hfols : (enterFols cond troo b).Tidy (b.count :: (b.count + 2) :: pending) false)
    (hplaced : Placed true (b.count :: (b.count + 2) :: pending) (enterFols cond troo b)
      (fols.run (enterFols cond troo b)).2) (incoming : List (Value × ℕ)) :
    Doubled (phiOf phi incoming (enterDone cond troo fols b)).blocks := by
  have hmoved : (enterFols cond troo b).count ≤ (fols.run (enterFols cond troo b)).2.curr := hplaced.moved rfl
  have hcurr : b.count + 1 < (enterFols cond troo b).count := hfols.curr
  have hnot : b.count + 1 ∉ b.count :: (b.count + 2) :: pending := (List.nodup_cons.mp hfols.nodup).1
  have hclosed : Closed ((fols.run (enterFols cond troo b)).2.blocks (b.count + 1)) :=
    hplaced.tidy.closed_of_ne (hcurr.trans_le hplaced.count) (hcurr.trans_le hmoved).ne' hnot
  let f := (fols.run (enterFols cond troo b)).2
  have hext : Extends f.blocks ((f.setCurr b.count).append (.br (b.count + 2))).blocks :=
    (f.setCurr b.count).extends_append _
  refine (doubled_of_link hclosed hext (.br (b.count + 2))).mono (Extends.trans ?_ (phiOf_grown phi incoming _))
  exact .refl _

end Ternary

mutual

theorem emit_doubled : (t : Tree) → t.linked = false → (dst : Value) → (pending : List ℕ) → (b : FuncBuilder) →
    b.Tidy pending false → Doubled ((emit t dst).run b).2.blocks
  | .inst oper args, h, dst, pending, b, hb => (emits_doubled args h dst pending b hb).mono (grows_createOp oper _ _)
  | .shortCircuit stop lhs rhs, h, dst, pending, b, hb => by
    have hdoubled : Doubled ((shortCircuit stop (emit lhs dst) (emit rhs dst)).run b).2.blocks := by
      rw [run_shortCircuit]
      let r := ((emit rhs dst).run (enterRhs stop (emit lhs dst) b)).2
      let done := (r.append (.br (b.count + 1))).setCurr (b.count + 1)
      have hdone (incoming : List (Value × ℕ)) : Extends r.blocks (done.appendPhi incoming).2.blocks :=
        (r.extends_append _).trans (done.extends_append _)
      cases hl : lhs.linked with
      | false =>
        have hlhs := emit_doubled lhs hl dst _ _ (makeBlocks_tidy hb)
        refine hlhs.mono (Extends.trans ?_ ((grows_emit rhs dst _).trans (hdone _)))
        exact Builder.extends_append _ _
      | true =>
        have hr : rhs.linked = false := by simpa [Tree.linked, hl] using h
        have hlhs := emit_placed lhs hl dst _ _ (makeBlocks_tidy hb)
        exact (emit_doubled rhs hr dst _ _ (enterRhs_tidy hlhs)).mono (hdone _)
    cases stop <;> exact hdoubled
  | .ternary phi cond troo fols, h, dst, pending, b, hb => by
    rw [emit, run_ternary_builder]
    have henter := threeBlocks_tidy (enterCond_placed hb).tidy
    cases hc : cond.linked with
    | false =>
      have hcond := emit_doubled cond hc dst _ _ henter
      refine phiOf_doubled_of_troo (grows_emit fols dst) (hcond.mono ?_) _
      exact (Builder.extends_append _ _).trans (grows_emit troo dst (enterTroo (emit cond dst) (enterCond b)))
    | true =>
      have hcond := emit_placed cond hc dst _ _ henter
      have htidy := enterTroo_tidy hcond
      cases htroo : troo.branching with
      | true =>
        cases ht : troo.linked with
        | false => exact phiOf_doubled_of_troo (grows_emit fols dst) (emit_doubled troo ht dst _ _ htidy) _
        | true =>
          have hplaced := emit_placed troo ht dst _ _ htidy
          rw [htroo] at hplaced
          exact phiOf_doubled_of_troo_moved (grows_emit fols dst) hcond hplaced _
      | false =>
        have hfols : fols.branching = true := by simpa [Tree.linked, hc, htroo] using h
        have hplaced := emit_placed troo (linked_of_not_branching troo htroo) dst _ _ htidy
        have htidy := enterFols_tidy hplaced (emit_stays troo htroo dst _)
        cases hf : fols.linked with
        | false => exact phiOf_doubled_of_fols (emit_doubled fols hf dst _ _ htidy) _
        | true =>
          have hplaced := emit_placed fols hf dst _ _ htidy
          rw [hfols] at hplaced
          exact phiOf_doubled_of_fols_moved htidy hplaced _
  | .before value effects, h, dst, pending, b, hb => by
    cases hvalue : value.linked with
    | false => exact (emit_doubled value hvalue dst pending b hb).mono (grows_emits effects dst _)
    | true =>
      have heffects : Tree.linkeds effects = false := by simpa [Tree.linked, hvalue] using h
      exact emits_doubled effects heffects dst pending _ (emit_placed value hvalue dst pending b hb).tidy
  | .withDst addr body, h, dst, pending, b, hb => by
    cases haddr : addr.linked with
    | false => exact (emit_doubled addr haddr dst pending b hb).mono (grows_emit body _ _)
    | true =>
      have hbody : body.linked = false := by simpa [Tree.linked, haddr] using h
      exact emit_doubled body hbody _ pending _ (emit_placed addr haddr dst pending b hb).tidy

theorem emits_doubled : (ts : List Tree) → Tree.linkeds ts = false → (dst : Value) → (pending : List ℕ) →
    (b : FuncBuilder) → b.Tidy pending false → Doubled ((emits ts dst).run b).2.blocks
  | t :: ts, h, dst, pending, b, hb => by
    cases htree : t.linked with
    | false => exact (emit_doubled t htree dst pending b hb).mono (grows_emits ts dst _)
    | true =>
      have htrees : Tree.linkeds ts = false := by simpa [Tree.linkeds, htree] using h
      exact emits_doubled ts htrees dst pending _ (emit_placed t htree dst pending b hb).tidy

end

end Stela.CodeGen.Blocks
