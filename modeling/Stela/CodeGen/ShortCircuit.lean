import Stela.CodeGen.Blocks

/-!
# Short circuits and choices in basic blocks

The values for a phi are taken from the blocks in which the operands of `||` and `&&` and the branches of `?:`
start, and the branches are linked from there. This is right as long as these parts end in the block in which
they start. So the blocks of an expression are well formed, and run as the expression says, exactly if no
operand of a short circuit and no branch of a choice makes blocks itself.
-/

namespace Stela.CodeGen.Blocks

open Stela.Syntax Stela.Library.ControlFlow

namespace Tree

mutual

/-- The code makes blocks. -/
def branching : Tree → Bool
  | .dst | .const _ => false
  | .inst _ args => branchings args
  | .shortCircuit _ _ _ | .ternary _ _ _ _ => true
  | .before value effects => branching value || branchings effects
  | .withDst addr body => branching addr || branching body

def branchings : List Tree → Bool
  | [] => false
  | tree :: trees => branching tree || branchings trees

end

mutual

/-- No operand of a short circuit and no branch of a choice makes blocks. -/
def flat : Tree → Bool
  | .dst | .const _ => true
  | .inst _ args => flats args
  | .shortCircuit _ lhs rhs => !branching lhs && !branching rhs
  | .ternary _ cond troo fols => flat cond && (!branching troo && !branching fols)
  | .before value effects => flat value && flats effects
  | .withDst addr body => flat addr && flat body

def flats : List Tree → Bool
  | [] => true
  | tree :: trees => flat tree && flats trees

end

mutual

theorem flat_of_not_branching : (t : Tree) → t.branching = false → t.flat = true
  | .dst, _ | .const _, _ => rfl
  | .inst _ args, h => flats_of_not_branchings args h
  | .before value effects, h => by
    obtain ⟨hvalue, heffects⟩ := Bool.or_eq_false_iff.mp h
    exact Bool.and_eq_true_iff.mpr ⟨flat_of_not_branching value hvalue, flats_of_not_branchings effects heffects⟩
  | .withDst addr body, h => by
    obtain ⟨haddr, hbody⟩ := Bool.or_eq_false_iff.mp h
    exact Bool.and_eq_true_iff.mpr ⟨flat_of_not_branching addr haddr, flat_of_not_branching body hbody⟩

theorem flats_of_not_branchings : (ts : List Tree) → branchings ts = false → flats ts = true
  | [], _ => rfl
  | t :: ts, h => by
    obtain ⟨htree, htrees⟩ := Bool.or_eq_false_iff.mp h
    exact Bool.and_eq_true_iff.mpr ⟨flat_of_not_branching t htree, flats_of_not_branchings ts htrees⟩

end

end Tree

/-! ## Appending only -/

/-- Whatever it does, it only appends to blocks. -/
def Grows {α : Type} (g : Gen α) : Prop := ∀ b, Extends b.blocks (g.run b).2.blocks

theorem run_bind {α β : Type} (g : Gen α) (f : α → Gen β) (b : FuncBuilder) :
    (g >>= f).run b = (f (g.run b).1).run (g.run b).2 := rfl

theorem Grows.pure {α : Type} (a : α) : Grows (pure a) := fun b ↦ .refl b.blocks

theorem Grows.bind {α β : Type} {g : Gen α} {f : α → Gen β} (h : Grows g) (h' : ∀ a, Grows (f a)) : Grows (g >>= f) :=
  fun b ↦ (h b).trans (h' _ _)

theorem grows_setCurr (block : ℕ) : Grows (setCurr block) := fun b ↦ .refl b.blocks

theorem grows_makeBlock : Grows makeBlock := fun b ↦ .refl b.blocks

theorem grows_create (i : Inst Oper Const) : Grows (create i) := fun b ↦ b.extends_append i

theorem grows_createOp (oper : Oper) (args : List Value) : Grows (createOp oper args) :=
  fun b ↦ b.extends_append (.op b.next oper args)

theorem grows_createPhi (incoming : List (Value × ℕ)) : Grows (createPhi incoming) :=
  fun b ↦ b.extends_append (.phi b.next incoming)

theorem grows_get : Grows get := fun b ↦ .refl b.blocks

theorem grows_link (source dest : ℕ) : Grows (link source dest) :=
  grows_get.bind fun _ ↦ (grows_setCurr _).bind fun _ ↦ (grows_create _).bind fun _ ↦ grows_setCurr _

theorem grows_nextEmpty : Grows nextEmpty := by
  refine grows_get.bind fun b ↦ ?_
  split
  · exact Grows.pure _
  · exact grows_makeBlock.bind fun _ ↦ (grows_create _).bind fun _ ↦ Grows.pure _

theorem grows_shortCircuit (stop : Bool) {lhs rhs : Gen Value} (hlhs : Grows lhs) (hrhs : Grows rhs) :
    Grows (shortCircuit stop lhs rhs) :=
  grows_get.bind fun _ ↦ grows_makeBlock.bind fun _ ↦ grows_makeBlock.bind fun _ ↦ hlhs.bind fun _ ↦
    (grows_create _).bind fun _ ↦ (grows_setCurr _).bind fun _ ↦ hrhs.bind fun _ ↦ (grows_create _).bind fun _ ↦
      (grows_setCurr _).bind fun _ ↦ grows_createPhi _

theorem grows_ternary (phi : Bool) {cond troo fols : Gen Value} (hcond : Grows cond) (htroo : Grows troo)
    (hfols : Grows fols) : Grows (ternary phi cond troo fols) := by
  refine grows_nextEmpty.bind fun _ ↦ grows_makeBlock.bind fun _ ↦ grows_makeBlock.bind fun _ ↦
    grows_makeBlock.bind fun _ ↦ (grows_setCurr _).bind fun _ ↦ hcond.bind fun _ ↦ (grows_create _).bind fun _ ↦
      (grows_setCurr _).bind fun _ ↦ htroo.bind fun _ ↦ (grows_setCurr _).bind fun _ ↦ hfols.bind fun _ ↦
        (grows_link _ _).bind fun _ ↦ (grows_link _ _).bind fun _ ↦ (grows_setCurr _).bind fun _ ↦ ?_
  cases phi
  · exact Grows.pure _
  · exact grows_createPhi _

mutual

theorem grows_emit : (t : Tree) → (dst : Value) → Grows (emit t dst)
  | .dst, dst => .pure dst
  | .const _, _ => .pure _
  | .inst oper args, dst => (grows_emits args dst).bind fun _ ↦ grows_createOp oper _
  | .shortCircuit true lhs rhs, dst | .shortCircuit false lhs rhs, dst =>
    grows_shortCircuit _ (grows_emit lhs dst) (grows_emit rhs dst)
  | .ternary phi cond troo fols, dst =>
    grows_ternary phi (grows_emit cond dst) (grows_emit troo dst) (grows_emit fols dst)
  | .before value effects, dst => (grows_emit value dst).bind fun _ ↦ (grows_emits effects dst).bind fun _ ↦ .pure _
  | .withDst addr body, dst => (grows_emit addr dst).bind fun dst ↦ grows_emit body dst

theorem grows_emits : (ts : List Tree) → (dst : Value) → Grows (emits ts dst)
  | [], _ => .pure _
  | t :: ts, dst => (grows_emit t dst).bind fun _ ↦ (grows_emits ts dst).bind fun _ ↦ .pure _

end

/-! ## What flat code does to the blocks -/

/-- Instructions that neither branch nor depend on where the block was entered from. -/
def Plain (ops : Block Oper Const) : Prop := ∀ i ∈ ops, ∃ dst oper args, i = .op dst oper args

theorem Plain.append {ops ops' : Block Oper Const} (h : Plain ops) (h' : Plain ops') : Plain (ops ++ ops') :=
  fun i hi ↦ (List.mem_append.mp hi).elim (h i) (h' i)

theorem Plain.isOpen {ops : Block Oper Const} (h : Plain ops) : Open ops := by
  intro i hi
  obtain ⟨dst, oper, args, rfl⟩ := h i hi
  rfl

theorem Plain.targets {ops : Block Oper Const} (h : Plain ops) {i : Inst Oper Const} (hi : i ∈ ops) : i.targets = [] :=
  h.isOpen.not_mem_targets hi

theorem Plain.not_phi {ops : Block Oper Const} (h : Plain ops) {dst : ℕ} {incoming : List (Value × ℕ)} :
    .phi dst incoming ∉ ops := by
  intro hi
  obtain ⟨_, _, _, heq⟩ := h _ hi
  cases heq

/-- Code that stays in its block. -/
structure Stays (b b' : FuncBuilder) : Prop where
  count : b'.count = b.count
  curr : b'.curr = b.curr
  next : b.next ≤ b'.next
  ops : ∃ ops, Plain ops ∧ b'.blocks = Function.update b.blocks b.curr (b.blocks b.curr ++ ops)

/-- Code that leaves every block in which it runs, except for the last one, with a branch to one of its own. -/
structure Emitted (b b' : FuncBuilder) : Prop where
  valid : b'.Valid
  count : b.count ≤ b'.count
  next : b.next ≤ b'.next
  curr : b'.curr = b.curr ∨ b.count ≤ b'.curr
  grown : Extends b.blocks b'.blocks
  frame : ∀ k, k < b.count → k ≠ b.curr → b'.blocks k = b.blocks k
  closed : ∀ k, k = b.curr ∨ b.count ≤ k → k < b'.count → k ≠ b'.curr → Closed (b'.blocks k)
  targets : ∀ k, ∀ i ∈ b'.blocks k, i ∈ b.blocks k ∨ ∀ t ∈ i.targets, b.count ≤ t
  phis : ∀ k dst incoming, .phi dst incoming ∈ b'.blocks k →
    .phi dst incoming ∈ b.blocks k ∨ PhiOk b'.blocks k incoming

theorem Stays.refl (b : FuncBuilder) : Stays b b :=
  ⟨rfl, rfl, le_refl _, [], nofun, by simp⟩

theorem Stays.trans {b b' b'' : FuncBuilder} (h : Stays b b') (h' : Stays b' b'') : Stays b b'' := by
  obtain ⟨ops, hops, hblocks⟩ := h.ops
  obtain ⟨ops', hops', hblocks'⟩ := h'.ops
  refine ⟨h'.count.trans h.count, h'.curr.trans h.curr, h.next.trans h'.next, ops ++ ops', hops.append hops', ?_⟩
  rw [hblocks', h.curr, hblocks, Function.update_self, Function.update_idem, List.append_assoc]

theorem stays_createOp (oper : Oper) (args : List Value) (b : FuncBuilder) :
    Stays b ((createOp oper args).run b).2 := by
  refine ⟨rfl, rfl, Nat.le_succ _, [.op b.next oper args], ?_, rfl⟩
  intro i hi
  exact ⟨b.next, oper, args, List.mem_singleton.mp hi⟩

mutual

theorem emit_stays : (t : Tree) → t.branching = false → (dst : Value) → (b : FuncBuilder) →
    Stays b ((emit t dst).run b).2
  | .dst, _, dst, b | .const _, _, dst, b => .refl b
  | .inst oper args, h, dst, b => (emits_stays args h dst b).trans (stays_createOp oper _ _)
  | .before value effects, h, dst, b => by
    obtain ⟨hvalue, heffects⟩ := Bool.or_eq_false_iff.mp h
    exact (emit_stays value hvalue dst b).trans (emits_stays effects heffects dst _)
  | .withDst addr body, h, dst, b => by
    obtain ⟨haddr, hbody⟩ := Bool.or_eq_false_iff.mp h
    exact (emit_stays addr haddr dst b).trans (emit_stays body hbody _ _)

theorem emits_stays : (ts : List Tree) → Tree.branchings ts = false → (dst : Value) → (b : FuncBuilder) →
    Stays b ((emits ts dst).run b).2
  | [], _, _, b => .refl b
  | t :: ts, h, dst, b => by
    obtain ⟨htree, htrees⟩ := Bool.or_eq_false_iff.mp h
    exact (emit_stays t htree dst b).trans (emits_stays ts htrees dst _)

end

theorem Stays.emitted {b b' : FuncBuilder} (h : Stays b b') (hb : b.Valid) : Emitted b b' := by
  obtain ⟨ops, hops, hblocks⟩ := h.ops
  have hcurr : b'.blocks b.curr = b.blocks b.curr ++ ops := by rw [hblocks, Function.update_self]
  have hother : ∀ k, k ≠ b.curr → b'.blocks k = b.blocks k := by
    intro k hk
    rw [hblocks, Function.update_of_ne hk]
  have hold : ∀ k, ∀ i ∈ b'.blocks k, i ∈ b.blocks k ∨ i ∈ ops := by
    intro k i hi
    by_cases hk : k = b.curr
    · subst hk
      exact List.mem_append.mp (hcurr ▸ hi)
    · exact .inl (hother k hk ▸ hi)
  refine ⟨⟨?_, ?_, ?_, ?_⟩, h.count.ge, h.next, .inl h.curr, ?_, fun k _ ↦ hother k, ?_, ?_, ?_⟩
  · rw [h.curr, h.count]
    exact hb.curr
  · intro k hk
    rw [h.count] at hk
    rw [hother k fun heq ↦ absurd hb.curr (not_lt.mpr (heq ▸ hk)), hb.unmade k hk]
  · rw [h.curr, hcurr]
    exact open_append_iff.mpr ⟨hb.openCurr, hops.isOpen⟩
  · intro k i hi t ht
    rw [h.count]
    rcases hold k i hi with hi | hi
    · exact hb.targets k i hi t ht
    · rw [hops.targets hi] at ht
      cases ht
  · intro k
    by_cases hk : k = b.curr
    · subst hk
      exact ⟨ops, hcurr.symm⟩
    · rw [hother k hk]
  · intro k hk hlt hne
    rw [h.count] at hlt
    rw [h.curr] at hne
    exact absurd hlt (not_lt.mpr (hk.resolve_left hne))
  · intro k i hi
    rcases hold k i hi with hi | hi
    · exact .inl hi
    · refine .inr fun t ht ↦ ?_
      rw [hops.targets hi] at ht
      cases ht
  · intro k dst incoming hi
    rcases hold k _ hi with hi | hi
    · exact .inl hi
    · exact absurd hi hops.not_phi

/-- Predecessors change only by branches to new blocks. -/
theorem Emitted.pred_iff {b b' : FuncBuilder} (h : Emitted b b') {p k : ℕ} (hk : k < b.count) :
    Pred b'.blocks p k ↔ Pred b.blocks p k := by
  constructor
  · rintro ⟨i, hi, ht⟩
    rcases h.targets p i hi with hi | htargets
    · exact ⟨i, hi, ht⟩
    · exact absurd hk (not_lt.mpr (htargets k ht))
  · rintro ⟨i, hi, ht⟩
    exact ⟨i, h.grown.mem hi, ht⟩

theorem Emitted.trans {b b' b'' : FuncBuilder} (h : Emitted b b') (h' : Emitted b' b'') : Emitted b b'' where
  valid := h'.valid
  count := h.count.trans h'.count
  next := h.next.trans h'.next
  curr := by
    have := h.curr
    have := h'.curr
    have := h.count
    omega
  grown := h.grown.trans h'.grown
  frame := by
    intro k hk hne
    have hne' : k ≠ b'.curr := by
      have := h.curr
      omega
    rw [h'.frame k (hk.trans_le h.count) hne', h.frame k hk hne]
  closed := by
    intro k hk hlt hne
    by_cases hk' : k = b'.curr ∨ b'.count ≤ k
    · exact h'.closed k hk' hlt hne
    · obtain ⟨hne', hlt'⟩ := not_or.mp hk'
      rw [h'.frame k (not_le.mp hlt') hne']
      exact h.closed k hk (not_le.mp hlt') hne'
  targets := by
    intro k i hi
    rcases h'.targets k i hi with hi | ht
    · exact h.targets k i hi
    · exact .inr fun t hmem ↦ h.count.trans (ht t hmem)
  phis := by
    intro k dst incoming hi
    rcases h'.phis k dst incoming hi with hi | hok
    · refine (h.phis k dst incoming hi).imp_right fun hok ↦ ⟨hok.1, fun p ↦ ?_⟩
      have hk : k < b'.count := by
        by_contra hge
        rw [h.valid.unmade k (not_lt.mp hge)] at hi
        cases hi
      rw [hok.2 p, h'.pred_iff hk]
    · exact .inr hok

/-- Some code, a branch from where it ends to new blocks that were made for it, and these blocks, which meet in the
last one of them. `arm` gives the terminators of the others. -/
structure Joined (b mid b' : FuncBuilder) (n : ℕ) (leave : Inst Oper Const) (arm : ℕ → Inst Oper Const) : Prop where
  emitted_mid : Emitted { b with count := b.count + n } mid
  count : b'.count = mid.count
  next : b.next ≤ b'.next
  curr : b.count ≤ b'.curr ∧ b'.curr < b.count + n
  leave_ok : leave.isTerminator = true ∧ ∀ t ∈ leave.targets, b.count ≤ t ∧ t < b.count + n
  arm_ok : ∀ k, (arm k).isTerminator = true ∧ ∀ t ∈ (arm k).targets, b.count ≤ t ∧ t < b.count + n
  left : ∃ ops, Plain ops ∧ b'.blocks mid.curr = mid.blocks mid.curr ++ (ops ++ [leave])
  arms : ∀ k, b.count ≤ k → k < b.count + n → k ≠ b'.curr → ∃ ops, Plain ops ∧ b'.blocks k = ops ++ [arm k]
  last : b'.blocks b'.curr = [] ∨ ∃ dst incoming, b'.blocks b'.curr = [.phi dst incoming]
  other : ∀ k, k < b.count ∨ b.count + n ≤ k → k ≠ mid.curr → b'.blocks k = mid.blocks k

namespace Joined

variable {b mid b' : FuncBuilder} {n : ℕ} {leave : Inst Oper Const} {arm : ℕ → Inst Oper Const}

theorem mid_curr (h : Joined b mid b' n leave arm) (hb : b.Valid) : mid.curr < b.count ∨ b.count + n ≤ mid.curr := by
  rcases h.emitted_mid.curr with heq | hle
  · exact .inl (heq ▸ hb.curr)
  · exact .inr hle

/-- Where an instruction comes from. -/
theorem mem_blocks (h : Joined b mid b' n leave arm) {k : ℕ} {i : Inst Oper Const} (hi : i ∈ b'.blocks k) :
    i ∈ mid.blocks k ∨ (∃ dst oper args, i = .op dst oper args) ∨ (k = mid.curr ∧ i = leave) ∨
      ((b.count ≤ k ∧ k < b.count + n ∧ k ≠ b'.curr) ∧ i = arm k) ∨
      (k = b'.curr ∧ ∃ dst incoming, i = .phi dst incoming) := by
  by_cases hmid : k = mid.curr
  · subst hmid
    obtain ⟨ops, hops, heq⟩ := h.left
    rw [heq, List.mem_append, List.mem_append, List.mem_singleton] at hi
    rcases hi with hi | hi | hi
    · exact .inl hi
    · exact .inr (.inl (hops i hi))
    · exact .inr (.inr (.inl ⟨rfl, hi⟩))
  · by_cases hk : b.count ≤ k ∧ k < b.count + n
    · by_cases hlast : k = b'.curr
      · subst hlast
        rcases h.last with heq | ⟨dst, incoming, heq⟩
        · rw [heq] at hi
          cases hi
        · rw [heq, List.mem_singleton] at hi
          exact .inr (.inr (.inr (.inr ⟨rfl, dst, incoming, hi⟩)))
      · obtain ⟨ops, hops, heq⟩ := h.arms k hk.1 hk.2 hlast
        rw [heq, List.mem_append, List.mem_singleton] at hi
        rcases hi with hi | hi
        · exact .inr (.inl (hops i hi))
        · exact .inr (.inr (.inr (.inl ⟨⟨hk.1, hk.2, hlast⟩, hi⟩)))
    · have hother := h.other k (by omega) hmid
      exact .inl (hother ▸ hi)

theorem new_targets (h : Joined b mid b' n leave arm) {k : ℕ} {i : Inst Oper Const} (hi : i ∈ b'.blocks k) :
    i ∈ mid.blocks k ∨ ∀ t ∈ i.targets, b.count ≤ t ∧ t < b.count + n := by
  rcases h.mem_blocks hi with hi | ⟨_, _, _, rfl⟩ | ⟨-, rfl⟩ | ⟨-, rfl⟩ | ⟨-, _, _, rfl⟩
  · exact .inl hi
  · exact .inr nofun
  · exact .inr h.leave_ok.2
  · exact .inr (h.arm_ok k).2
  · exact .inr nofun

theorem mid_unmade (h : Joined b mid b' n leave arm) (hb : b.Valid) {k : ℕ} (hk : b.count ≤ k) (hlt : k < b.count + n) :
    mid.blocks k = [] :=
  (h.emitted_mid.frame k hlt (hb.curr.trans_le hk).ne').trans (hb.unmade k hk)

/-- The predecessors of the new blocks. -/
theorem pred_iff (h : Joined b mid b' n leave arm) (hb : b.Valid) {p t : ℕ} (ht : b.count ≤ t) (hlt : t < b.count + n) :
    Pred b'.blocks p t ↔ (p = mid.curr ∧ t ∈ leave.targets) ∨
      ((b.count ≤ p ∧ p < b.count + n ∧ p ≠ b'.curr) ∧ t ∈ (arm p).targets) := by
  constructor
  · rintro ⟨i, hi, hmem⟩
    rcases h.mem_blocks hi with hi | ⟨_, _, _, rfl⟩ | ⟨rfl, rfl⟩ | ⟨hp, rfl⟩ | ⟨-, _, _, rfl⟩
    · rcases h.emitted_mid.targets p i hi with hi | hnew
      · exact absurd ht (not_le.mpr (hb.targets p i hi t hmem))
      · exact absurd hlt (not_lt.mpr (hnew t hmem))
    · cases hmem
    · exact .inl ⟨rfl, hmem⟩
    · exact .inr ⟨hp, hmem⟩
    · cases hmem
  · rintro (⟨rfl, hmem⟩ | ⟨hp, hmem⟩)
    · obtain ⟨ops, -, heq⟩ := h.left
      exact ⟨leave, heq ▸ List.mem_append_right _ (List.mem_append_right _ List.mem_cons_self), hmem⟩
    · obtain ⟨ops, -, heq⟩ := h.arms p hp.1 hp.2.1 hp.2.2
      exact ⟨arm p, heq ▸ List.mem_append_right _ List.mem_cons_self, hmem⟩

theorem grown (h : Joined b mid b' n leave arm) (hb : b.Valid) : Extends mid.blocks b'.blocks := by
  intro k
  by_cases hmid : k = mid.curr
  · subst hmid
    obtain ⟨ops, -, heq⟩ := h.left
    exact ⟨_, heq.symm⟩
  · by_cases hk : b.count ≤ k ∧ k < b.count + n
    · rw [h.mid_unmade hb hk.1 hk.2]
      exact List.nil_prefix
    · rw [h.other k (by omega) hmid]

theorem valid (h : Joined b mid b' n leave arm) : b'.Valid where
  curr := by
    have := h.emitted_mid.count
    have := h.curr
    have := h.count
    dsimp only at *
    omega
  unmade := by
    intro k hk
    have hcount := h.count
    have hge := h.emitted_mid.count
    have hlt := h.emitted_mid.valid.curr
    dsimp only at *
    rw [h.other k (by omega) (by omega), h.emitted_mid.valid.unmade k (by omega)]
  openCurr := by
    rcases h.last with heq | ⟨dst, incoming, heq⟩
    · rw [heq]
      exact open_nil
    · rw [heq]
      intro i hi
      rw [List.mem_singleton.mp hi]
      rfl
  targets := by
    intro k i hi t ht
    have hcount := h.count
    have hge := h.emitted_mid.count
    dsimp only at *
    rcases h.new_targets hi with hi | hnew
    · have := h.emitted_mid.valid.targets k i hi t ht
      omega
    · have := hnew t ht
      omega

theorem closed (h : Joined b mid b' n leave arm) (hb : b.Valid) {k : ℕ} (hk : k = b.curr ∨ b.count ≤ k)
    (hlt : k < b'.count) (hne : k ≠ b'.curr) : Closed (b'.blocks k) := by
  have hcount := h.count
  by_cases hmid : k = mid.curr
  · subst hmid
    obtain ⟨ops, hops, heq⟩ := h.left
    rw [heq, ← List.append_assoc]
    exact (open_append_iff.mpr ⟨h.emitted_mid.valid.openCurr, hops.isOpen⟩).closed h.leave_ok.1
  · by_cases hnew : b.count ≤ k ∧ k < b.count + n
    · obtain ⟨ops, hops, heq⟩ := h.arms k hnew.1 hnew.2 hne
      rw [heq]
      exact hops.isOpen.closed (h.arm_ok k).1
    · have := hb.curr
      rw [h.other k (by omega) hmid]
      exact h.emitted_mid.closed k (by dsimp only; omega) (by omega) hmid

theorem emitted (h : Joined b mid b' n leave arm) (hb : b.Valid)
    (hphi : ∀ dst incoming, b'.blocks b'.curr = [.phi dst incoming] → PhiOk b'.blocks b'.curr incoming) :
    Emitted b b' where
  valid := h.valid
  count := by
    have := h.emitted_mid.count
    have := h.count
    dsimp only at *
    omega
  next := h.next
  curr := .inr h.curr.1
  grown := h.emitted_mid.grown.trans (h.grown hb)
  frame := by
    intro k hk hne
    have hmid : k ≠ mid.curr := by
      have := h.emitted_mid.curr
      dsimp only at *
      omega
    rw [h.other k (.inl hk) hmid, h.emitted_mid.frame k (hk.trans_le (Nat.le_add_right _ _)) hne]
  closed := fun k hk hlt hne ↦ h.closed hb hk hlt hne
  targets := by
    intro k i hi
    rcases h.new_targets hi with hi | hnew
    · exact (h.emitted_mid.targets k i hi).imp_right fun hnew t ht ↦ (Nat.le_add_right _ _).trans (hnew t ht)
    · exact .inr fun t ht ↦ (hnew t ht).1
  phis := by
    intro k dst incoming hi
    have hmem := h.mem_blocks hi
    rcases hmem with hi | ⟨_, _, _, heq⟩ | ⟨-, heq⟩ | ⟨-, heq⟩ | ⟨rfl, -, -, -⟩
    · refine (h.emitted_mid.phis k dst incoming hi).imp_right fun hok ↦ ⟨hok.1, fun p ↦ ?_⟩
      -- a phi of the code before the branch is in none of the new blocks
      have hk : k < b.count ∨ b.count + n ≤ k := by
        by_contra hnew
        rw [h.mid_unmade hb (by omega) (by omega)] at hi
        cases hi
      rw [hok.2 p]
      constructor
      · rintro ⟨i, hi, ht⟩
        exact ⟨i, (h.grown hb).mem hi, ht⟩
      · rintro ⟨i, hi, ht⟩
        rcases h.new_targets hi with hi | hnew
        · exact ⟨i, hi, ht⟩
        · have := hnew k ht
          omega
    · cases heq
    · have := h.leave_ok.1
      rw [← heq] at this
      cases this
    · have := (h.arm_ok k).1
      rw [← heq] at this
      cases this
    · rcases h.last with heq | ⟨dst', incoming', heq⟩
      · rw [heq] at hi
        cases hi
      · have hphi := hphi dst' incoming' heq
        rw [heq, List.mem_singleton] at hi
        cases hi
        exact .inr hphi

end Joined

/-- How a short circuit leaves the block of its left operand. -/
def leaveLhs (stop : Bool) (lhs : Value) (doneBlock rhsBlock : ℕ) : Inst Oper Const :=
  if stop then .condBr lhs doneBlock rhsBlock else .condBr lhs rhsBlock doneBlock

theorem isTerminator_leaveLhs (stop : Bool) (lhs : Value) (doneBlock rhsBlock : ℕ) :
    (leaveLhs stop lhs doneBlock rhsBlock).isTerminator = true := by
  cases stop <;> rfl

theorem mem_targets_leaveLhs {stop : Bool} {lhs : Value} {doneBlock rhsBlock t : ℕ} :
    t ∈ (leaveLhs stop lhs doneBlock rhsBlock).targets ↔ t = doneBlock ∨ t = rhsBlock := by
  cases stop <;> simp [leaveLhs, Inst.targets, or_comm]

/-- The builder when the right operand is visited. -/
def enterRhs (stop : Bool) (lhs : Gen Value) (b : FuncBuilder) : FuncBuilder :=
  let l := lhs.run { b with count := b.count + 2 }
  (l.2.append (leaveLhs stop l.1 (b.count + 1) b.count)).setCurr b.count

theorem run_shortCircuit (stop : Bool) (lhs rhs : Gen Value) (b : FuncBuilder) :
    (shortCircuit stop lhs rhs).run b =
      let r := rhs.run (enterRhs stop lhs b)
      ((r.2.append (.br (b.count + 1))).setCurr (b.count + 1)).appendPhi
        [(.const (.literal (.bool stop)), b.curr), (r.1, b.count)] := by
  cases stop <;> rfl

theorem Stays.blocks_of_ne {b b' : FuncBuilder} (h : Stays b b') {k : ℕ} (hk : k ≠ b.curr) :
    b'.blocks k = b.blocks k := by
  obtain ⟨ops, -, hblocks⟩ := h.ops
  rw [hblocks, Function.update_of_ne hk]

theorem Stays.blocks_curr {b b' : FuncBuilder} (h : Stays b b') :
    ∃ ops, Plain ops ∧ b'.blocks b.curr = b.blocks b.curr ++ ops := by
  obtain ⟨ops, hops, hblocks⟩ := h.ops
  exact ⟨ops, hops, by rw [hblocks, Function.update_self]⟩

theorem Stays.grown {b b' : FuncBuilder} (h : Stays b b') : Extends b.blocks b'.blocks := by
  intro k
  by_cases hk : k = b.curr
  · subst hk
    obtain ⟨ops, -, heq⟩ := h.blocks_curr
    exact ⟨ops, heq.symm⟩
  · rw [h.blocks_of_ne hk]

section ShortCircuit

variable (stop : Bool) {lhs rhs : Gen Value} {b : FuncBuilder}

theorem enterRhs_blocks_curr (hlhs : ∀ b, Stays b (lhs.run b).2) :
    ∃ ops v, Plain ops ∧ (enterRhs stop lhs b).blocks b.curr =
      b.blocks b.curr ++ (ops ++ [leaveLhs stop v (b.count + 1) b.count]) := by
  have hl := hlhs { b with count := b.count + 2 }
  obtain ⟨ops, hops, hblocks⟩ := hl.blocks_curr
  refine ⟨ops, (lhs.run { b with count := b.count + 2 }).1, hops, ?_⟩
  rw [enterRhs, Builder.setCurr_blocks, Builder.append_blocks_self hl.curr, hblocks, List.append_assoc]

theorem enterRhs_blocks_of_ne (hlhs : ∀ b, Stays b (lhs.run b).2) {k : ℕ} (hk : k ≠ b.curr) :
    (enterRhs stop lhs b).blocks k = b.blocks k := by
  have hl := hlhs { b with count := b.count + 2 }
  have hcurr : (lhs.run { b with count := b.count + 2 }).2.curr = b.curr := hl.curr
  rw [enterRhs, Builder.setCurr_blocks, Builder.append_blocks_of_ne (by rw [hcurr]; exact hk.symm), hl.blocks_of_ne hk]

/-- The blocks after a short circuit whose operands stay in their blocks. -/
theorem shortCircuit_blocks (hb : b.Valid) (hlhs : ∀ b, Stays b (lhs.run b).2) (hrhs : ∀ b, Stays b (rhs.run b).2) :
    ∃ ops ops' v w n, Plain ops ∧ Plain ops' ∧
      ((shortCircuit stop lhs rhs).run b).2.blocks b.curr =
        b.blocks b.curr ++ (ops ++ [leaveLhs stop v (b.count + 1) b.count]) ∧
      ((shortCircuit stop lhs rhs).run b).2.blocks b.count = ops' ++ [.br (b.count + 1)] ∧
      ((shortCircuit stop lhs rhs).run b).2.blocks (b.count + 1) =
        [.phi n [(.const (.literal (.bool stop)), b.curr), (w, b.count)]] ∧
      ∀ k, k ≠ b.curr → k ≠ b.count → k ≠ b.count + 1 →
        ((shortCircuit stop lhs rhs).run b).2.blocks k = b.blocks k := by
  obtain ⟨ops, v, hops, hcurr⟩ := enterRhs_blocks_curr stop hlhs
  have hr := hrhs (enterRhs stop lhs b)
  obtain ⟨ops', hops', hblocks'⟩ := hr.blocks_curr
  have hlt := hb.curr
  have hne : b.curr ≠ b.count := hlt.ne
  have hne' : b.curr ≠ b.count + 1 := (hlt.trans (Nat.lt_succ_self _)).ne
  have hrcurr : (rhs.run (enterRhs stop lhs b)).2.curr = b.count := hr.curr
  have hother : ∀ k, k ≠ b.count → k ≠ b.count + 1 →
      ((shortCircuit stop lhs rhs).run b).2.blocks k = (enterRhs stop lhs b).blocks k := by
    intro k hk hk'
    rw [run_shortCircuit, Builder.appendPhi_blocks, Builder.append_blocks_of_ne hk'.symm, Builder.setCurr_blocks,
      Builder.append_blocks_of_ne (hrcurr ▸ hk.symm), hr.blocks_of_ne hk]
  refine ⟨ops, ops', v, (rhs.run (enterRhs stop lhs b)).1, (rhs.run (enterRhs stop lhs b)).2.next, hops, hops',
    ?_, ?_, ?_, ?_⟩
  · rw [hother b.curr hne hne', hcurr]
  · have hempty : (enterRhs stop lhs b).blocks b.count = [] := by
      rw [enterRhs_blocks_of_ne stop hlhs hne.symm, hb.unmade _ le_rfl]
    have hrhs : (rhs.run (enterRhs stop lhs b)).2.blocks b.count = (enterRhs stop lhs b).blocks b.count ++ ops' :=
      hblocks'
    rw [run_shortCircuit, Builder.appendPhi_blocks, Builder.append_blocks_of_ne (Nat.lt_succ_self _).ne',
      Builder.setCurr_blocks, Builder.append_blocks_self hrcurr, hrhs, hempty, List.nil_append]
  · have hempty : (rhs.run (enterRhs stop lhs b)).2.blocks (b.count + 1) = [] := by
      rw [hr.blocks_of_ne (k := b.count + 1) (Nat.lt_succ_self b.count).ne', enterRhs_blocks_of_ne stop hlhs hne'.symm,
        hb.unmade _ (Nat.le_succ _)]
    rw [run_shortCircuit, Builder.appendPhi_blocks, Builder.append_blocks_self (Builder.setCurr_curr _ _),
      Builder.setCurr_blocks,
      Builder.append_blocks_of_ne (hrcurr ▸ (Nat.lt_succ_self b.count).ne), hempty]
    rfl
  · intro k hk hk' hk''
    rw [hother k hk' hk'', enterRhs_blocks_of_ne stop hlhs hk]

theorem shortCircuit_joined (hb : b.Valid) (hlhs : ∀ b, Stays b (lhs.run b).2) (hrhs : ∀ b, Stays b (rhs.run b).2) :
    ∃ v, Joined b { b with count := b.count + 2 } ((shortCircuit stop lhs rhs).run b).2 2
      (leaveLhs stop v (b.count + 1) b.count) fun _ ↦ .br (b.count + 1) := by
  obtain ⟨ops, ops', v, w, n, hops, hops', hs, hr, hd, hother⟩ := shortCircuit_blocks stop hb hlhs hrhs
  have hcurr : ((shortCircuit stop lhs rhs).run b).2.curr = b.count + 1 := by
    rw [run_shortCircuit]
    rfl
  refine ⟨v, ⟨(Stays.refl _).emitted (hb.makeBlocks 2), ?_, ?_, ?_, ⟨isTerminator_leaveLhs _ _ _ _, ?_⟩, ?_, ⟨ops, hops, hs⟩,
    ?_, .inr ⟨n, _, hcurr ▸ hd⟩, ?_⟩⟩
  · exact (hrhs (enterRhs stop lhs b)).count.trans (hlhs { b with count := b.count + 2 }).count
  · exact ((hlhs { b with count := b.count + 2 }).next.trans (hrhs (enterRhs stop lhs b)).next).trans (Nat.le_succ _)
  · omega
  · intro t ht
    have := mem_targets_leaveLhs.mp ht
    omega
  · refine fun k ↦ ⟨rfl, fun t ht ↦ ?_⟩
    have := List.mem_singleton.mp ht
    omega
  · intro k hk hlt hne
    obtain rfl : k = b.count := by omega
    exact ⟨ops', hops', hr⟩
  · intro k hk hne
    exact hother k hne (by omega) (by omega)

theorem shortCircuit_emitted (hb : b.Valid) (hlhs : ∀ b, Stays b (lhs.run b).2) (hrhs : ∀ b, Stays b (rhs.run b).2) :
    Emitted b ((shortCircuit stop lhs rhs).run b).2 := by
  obtain ⟨v, hjoined⟩ := shortCircuit_joined stop hb hlhs hrhs
  have hcurr : ((shortCircuit stop lhs rhs).run b).2.curr = b.count + 1 := by
    rw [run_shortCircuit]
    rfl
  refine hjoined.emitted hb fun dst incoming hphi ↦ ?_
  obtain ⟨_, _, _, w, n, -, -, -, -, hd, -⟩ := shortCircuit_blocks stop hb hlhs hrhs
  rw [hcurr, hd] at hphi
  cases hphi
  have hlt := hb.curr
  refine ⟨?_, fun p ↦ ?_⟩
  · simpa using hlt.ne
  · rw [hcurr, hjoined.pred_iff hb (Nat.le_succ _) (Nat.lt_succ_self _), mem_targets_leaveLhs]
    simp only [List.map_cons, List.map_nil, List.mem_cons, List.not_mem_nil, Inst.targets, or_false, true_or, and_true]
    omega

end ShortCircuit

section Ternary

variable {phi : Bool} {cond troo fols : Gen Value} {b : FuncBuilder}

/-- The builder when the condition of a ternary is visited, before the blocks of its branches are made. -/
def enterCond (b : FuncBuilder) : FuncBuilder :=
  if (b.blocks b.curr).isEmpty then b
  else ({ b with count := b.count + 1 }.append (.br b.count)).setCurr b.count

theorem enterCond_joined (hb : b.Valid) (hne : (b.blocks b.curr).isEmpty = false) :
    Joined b { b with count := b.count + 1 } (enterCond b) 1 (.br b.count) fun _ ↦ .br b.count := by
  have hbr : (Inst.br b.count : Inst Oper Const).isTerminator = true ∧
      ∀ t ∈ (Inst.br b.count : Inst Oper Const).targets, b.count ≤ t ∧ t < b.count + 1 := by
    simp [Inst.isTerminator, Inst.targets]
  have heq : enterCond b = ({ b with count := b.count + 1 }.append (.br b.count)).setCurr b.count := by
    rw [enterCond, hne]
    rfl
  rw [heq]
  refine ⟨(Stays.refl _).emitted (hb.makeBlocks 1), rfl, le_rfl, ⟨le_rfl, Nat.lt_succ_self _⟩, hbr, fun _ ↦ hbr, ?_, ?_, ?_, ?_⟩
  · exact ⟨[], nofun, Builder.append_blocks_self rfl _⟩
  · intro k hk hlt hne
    exact absurd (Nat.le_antisymm (Nat.lt_succ_iff.mp hlt) hk) hne
  · refine .inl ((Builder.append_blocks_of_ne ?_ _).trans (hb.unmade _ le_rfl))
    exact hb.curr.ne
  · intro k _ hmid
    exact Builder.append_blocks_of_ne (Ne.symm hmid) _

theorem enterCond_emitted (hb : b.Valid) : Emitted b (enterCond b) := by
  by_cases hempty : (b.blocks b.curr).isEmpty
  · rw [enterCond, if_pos hempty]
    exact (Stays.refl b).emitted hb
  · have hempty := Bool.eq_false_iff.mpr hempty
    have hjoined := enterCond_joined hb hempty
    refine hjoined.emitted hb fun dst incoming hphi ↦ ?_
    rcases hjoined.last with heq | _
    · rw [hphi] at heq
      cases heq
    · have hcurr : (enterCond b).blocks (enterCond b).curr = [] := by
        rw [enterCond, hempty]
        exact (Builder.append_blocks_of_ne (b := { b with count := b.count + 1 }) hb.curr.ne _).trans (hb.unmade _ le_rfl)
      rw [hcurr] at hphi
      cases hphi

/-- The builder when the first branch is visited. -/
def enterTroo (cond : Gen Value) (b : FuncBuilder) : FuncBuilder :=
  let c := cond.run { b with count := b.count + 3 }
  (c.2.append (.condBr c.1 b.count (b.count + 1))).setCurr b.count

/-- The builder when the second branch is visited. -/
def enterFols (cond troo : Gen Value) (b : FuncBuilder) : FuncBuilder :=
  (troo.run (enterTroo cond b)).2.setCurr (b.count + 1)

/-- The builder at the end of the ternary, but for the phi. -/
def enterDone (cond troo fols : Gen Value) (b : FuncBuilder) : FuncBuilder :=
  let f := (fols.run (enterFols cond troo b)).2
  let linked := (f.setCurr b.count).append (.br (b.count + 2))
  ((linked.setCurr (b.count + 1)).append (.br (b.count + 2))).setCurr (b.count + 2)

theorem run_nextEmpty (b : FuncBuilder) :
    nextEmpty.run b = ((enterCond b).curr, (enterCond b).setCurr b.curr) := by
  by_cases hempty : (b.blocks b.curr).isEmpty
  · unfold nextEmpty enterCond
    rw [run_bind, if_pos hempty]
    exact congrArg (fun g : Gen ℕ ↦ g.run b) (if_pos hempty)
  · unfold nextEmpty enterCond
    rw [run_bind, if_neg hempty]
    exact congrArg (fun g : Gen ℕ ↦ g.run b) (if_neg hempty)

theorem run_ternary (phi : Bool) (cond troo fols : Gen Value) (b : FuncBuilder) :
    (ternary phi cond troo fols).run b =
      if phi then (enterDone cond troo fols (enterCond b)).appendPhi
        [((troo.run (enterTroo cond (enterCond b))).1, (enterCond b).count),
          ((fols.run (enterFols cond troo (enterCond b))).1, (enterCond b).count + 1)]
      else (.const .null, enterDone cond troo fols (enterCond b)) := by
  unfold ternary
  rw [run_bind, run_nextEmpty]
  cases phi <;> rfl

/-- The builder when the condition has been visited. -/
abbrev afterCond (cond : Gen Value) (b : FuncBuilder) : FuncBuilder :=
  (cond.run { b with count := b.count + 3 }).2

/-- The new blocks are empty when the first branch is visited. -/
theorem enterTroo_blocks (hb : b.Valid) (hcond : Emitted { b with count := b.count + 3 } (afterCond cond b)) {k : ℕ}
    (hk : b.count ≤ k) (hlt : k < b.count + 3) : (enterTroo cond b).blocks k = [] := by
  have hmid : (afterCond cond b).curr < b.count ∨ b.count + 3 ≤ (afterCond cond b).curr :=
    hcond.curr.imp_left fun heq ↦ heq.trans_lt hb.curr
  have hne : (afterCond cond b).curr ≠ k := by omega
  rw [enterTroo, Builder.setCurr_blocks, Builder.append_blocks_of_ne hne, hcond.frame k hlt (hb.curr.trans_le hk).ne']
  exact hb.unmade k hk

/-- The blocks of a ternary whose branches stay in their blocks. -/
theorem enterDone_blocks (hb : b.Valid) (hcond : Emitted { b with count := b.count + 3 } (afterCond cond b))
    (htroo : ∀ b, Stays b (troo.run b).2) (hfols : ∀ b, Stays b (fols.run b).2) :
    ∃ v ops ops', Plain ops ∧ Plain ops' ∧
      (enterDone cond troo fols b).blocks (afterCond cond b).curr =
        (afterCond cond b).blocks (afterCond cond b).curr ++ [.condBr v b.count (b.count + 1)] ∧
      (enterDone cond troo fols b).blocks b.count = ops ++ [.br (b.count + 2)] ∧
      (enterDone cond troo fols b).blocks (b.count + 1) = ops' ++ [.br (b.count + 2)] ∧
      (enterDone cond troo fols b).blocks (b.count + 2) = [] ∧
      ∀ k, k ≠ (afterCond cond b).curr → k ≠ b.count → k ≠ b.count + 1 →
        (enterDone cond troo fols b).blocks k = (afterCond cond b).blocks k := by
  have hmid : (afterCond cond b).curr < b.count ∨ b.count + 3 ≤ (afterCond cond b).curr :=
    hcond.curr.imp_left fun heq ↦ heq.trans_lt hb.curr
  have ht := htroo (enterTroo cond b)
  have hf := hfols (enterFols cond troo b)
  have hother : ∀ k, k ≠ b.count → k ≠ b.count + 1 →
      (enterDone cond troo fols b).blocks k = (enterTroo cond b).blocks k := by
    intro k hk hk'
    rw [enterDone, Builder.setCurr_blocks, Builder.append_blocks_of_ne (Ne.symm hk'), Builder.setCurr_blocks,
      Builder.append_blocks_of_ne (Ne.symm hk), Builder.setCurr_blocks, hf.blocks_of_ne hk', enterFols,
      Builder.setCurr_blocks, ht.blocks_of_ne hk]
  have hfirst : ∀ k, (afterCond cond b).curr ≠ k → (enterTroo cond b).blocks k = (afterCond cond b).blocks k := by
    intro k hk
    rw [enterTroo, Builder.setCurr_blocks, Builder.append_blocks_of_ne hk]
  obtain ⟨ops, hops, hblocks⟩ := ht.blocks_curr
  obtain ⟨ops', hops', hblocks'⟩ := hf.blocks_curr
  replace hblocks : (troo.run (enterTroo cond b)).2.blocks b.count = (enterTroo cond b).blocks b.count ++ ops := hblocks
  replace hblocks' : (fols.run (enterFols cond troo b)).2.blocks (b.count + 1) =
      (troo.run (enterTroo cond b)).2.blocks (b.count + 1) ++ ops' := hblocks'
  refine ⟨(cond.run { b with count := b.count + 3 }).1, ops, ops', hops, hops', ?_, ?_, ?_, ?_, ?_⟩
  · rw [hother _ (by omega) (by omega), enterTroo, Builder.setCurr_blocks, Builder.append_blocks_self rfl]
  · rw [enterDone, Builder.setCurr_blocks, Builder.append_blocks_of_ne (Nat.lt_succ_self b.count).ne',
      Builder.setCurr_blocks, Builder.append_blocks_self (Builder.setCurr_curr _ _), Builder.setCurr_blocks,
      hf.blocks_of_ne (Nat.lt_succ_self b.count).ne, enterFols, Builder.setCurr_blocks, hblocks,
      enterTroo_blocks hb hcond le_rfl (by omega), List.nil_append]
  · rw [enterDone, Builder.setCurr_blocks, Builder.append_blocks_self (Builder.setCurr_curr _ _),
      Builder.setCurr_blocks, Builder.append_blocks_of_ne (Nat.lt_succ_self b.count).ne, Builder.setCurr_blocks, hblocks',
      ht.blocks_of_ne (Nat.lt_succ_self b.count).ne', enterTroo_blocks hb hcond (by omega) (by omega), List.nil_append]
  · rw [hother _ (by omega) (by omega), enterTroo_blocks hb hcond (by omega) (by omega)]
  · intro k hk hk' hk''
    rw [hother k hk' hk'', hfirst k (Ne.symm hk)]

theorem enterDone_joined (hb : b.Valid) (hcond : Emitted { b with count := b.count + 3 } (afterCond cond b))
    (htroo : ∀ b, Stays b (troo.run b).2) (hfols : ∀ b, Stays b (fols.run b).2) :
    ∃ v, Joined b (afterCond cond b) (enterDone cond troo fols b) 3 (.condBr v b.count (b.count + 1))
      fun _ ↦ .br (b.count + 2) := by
  obtain ⟨v, ops, ops', hops, hops', hc, ht, hf, hd, hother⟩ := enterDone_blocks hb hcond htroo hfols
  refine ⟨v, ⟨hcond, ?_, ?_, ?_, ⟨rfl, ?_⟩, fun k ↦ ⟨rfl, ?_⟩, ⟨[], nofun, hc⟩, ?_, .inl hd, ?_⟩⟩
  · exact (hfols (enterFols cond troo b)).count.trans (htroo (enterTroo cond b)).count
  · exact (hcond.next.trans (htroo (enterTroo cond b)).next).trans (hfols (enterFols cond troo b)).next
  · exact ⟨Nat.le_add_right _ _, Nat.lt_succ_self _⟩
  · intro t ht
    simp only [Inst.targets, List.mem_cons, List.not_mem_nil, or_false] at ht
    omega
  · intro t ht
    have := List.mem_singleton.mp ht
    omega
  · intro k hk hlt hne
    have hne : k ≠ b.count + 2 := hne
    obtain rfl | rfl : k = b.count ∨ k = b.count + 1 := by omega
    · exact ⟨ops, hops, ht⟩
    · exact ⟨ops', hops', hf⟩
  · intro k hk hne
    exact hother k hne (by omega) (by omega)

/-- A phi after a ternary, or nothing. -/
def phiOf (phi : Bool) (incoming : List (Value × ℕ)) (b : FuncBuilder) : FuncBuilder :=
  if phi then (b.appendPhi incoming).2 else b

theorem run_ternary_builder (phi : Bool) (cond troo fols : Gen Value) (b : FuncBuilder) :
    ((ternary phi cond troo fols).run b).2 =
      phiOf phi [((troo.run (enterTroo cond (enterCond b))).1, (enterCond b).count),
        ((fols.run (enterFols cond troo (enterCond b))).1, (enterCond b).count + 1)]
        (enterDone cond troo fols (enterCond b)) := by
  rw [run_ternary]
  cases phi <;> rfl

theorem phiOf_blocks_of_ne {incoming : List (Value × ℕ)} {k : ℕ} (hk : b.curr ≠ k) :
    (phiOf phi incoming b).blocks k = b.blocks k := by
  cases phi
  · rfl
  · exact Builder.append_blocks_of_ne hk _

theorem Joined.phiOf {mid b' : FuncBuilder} {n : ℕ} {leave : Inst Oper Const} {arm : ℕ → Inst Oper Const}
    (h : Joined b mid b' n leave arm) (hb : b.Valid) (hlast : b'.blocks b'.curr = []) (phi : Bool) (incoming : List (Value × ℕ)) :
    Joined b mid (phiOf phi incoming b') n leave arm := by
  have hcurr : (Blocks.phiOf phi incoming b').curr = b'.curr := by cases phi <;> rfl
  have hmid := h.mid_curr hb
  have hlt := h.curr
  refine ⟨h.emitted_mid, ?_, ?_, hcurr ▸ hlt, h.leave_ok, h.arm_ok, ?_, ?_, ?_, ?_⟩
  · exact (by cases phi <;> rfl : (Blocks.phiOf phi incoming b').count = b'.count).trans h.count
  · refine h.next.trans ?_
    cases phi
    · exact le_rfl
    · exact Nat.le_succ _
  · obtain ⟨ops, hops, heq⟩ := h.left
    exact ⟨ops, hops, (phiOf_blocks_of_ne (by omega)).trans heq⟩
  · intro k hk hlt' hne
    rw [hcurr] at hne
    rw [phiOf_blocks_of_ne (Ne.symm hne)]
    exact h.arms k hk hlt' hne
  · rw [hcurr]
    cases phi
    · exact .inl hlast
    · exact .inr ⟨b'.next, incoming, (Builder.append_blocks_self rfl _).trans (by rw [hlast]; rfl)⟩
  · intro k hk hne
    rw [phiOf_blocks_of_ne (by omega)]
    exact h.other k hk hne

/-- A ternary from where its condition is visited on. -/
theorem phiOf_emitted (hb : b.Valid) (hcond : Emitted { b with count := b.count + 3 } (afterCond cond b))
    (htroo : ∀ b, Stays b (troo.run b).2) (hfols : ∀ b, Stays b (fols.run b).2) (v w : Value) :
    Emitted b (phiOf phi [(v, b.count), (w, b.count + 1)] (enterDone cond troo fols b)) := by
  obtain ⟨_, _, _, -, -, -, -, -, hd, -⟩ := enterDone_blocks hb hcond htroo hfols
  obtain ⟨_, hjoined⟩ := enterDone_joined hb hcond htroo hfols
  have hjoined := hjoined.phiOf hb hd phi [(v, b.count), (w, b.count + 1)]
  have hcurr : (phiOf phi [(v, b.count), (w, b.count + 1)] (enterDone cond troo fols b)).curr = b.count + 2 := by
    cases phi <;> rfl
  refine hjoined.emitted hb fun dst incoming hphi ↦ ?_
  rw [hcurr] at hphi ⊢
  cases phi with
  | false =>
    rw [show (phiOf false _ (enterDone cond troo fols b)).blocks (b.count + 2) = [] from hd] at hphi
    cases hphi
  | true =>
    have hdone : (enterDone cond troo fols b).curr = b.count + 2 := rfl
    rw [phiOf, if_pos rfl, Builder.appendPhi_blocks, Builder.append_blocks_self hdone, hd] at hphi
    cases hphi
    refine ⟨by simp, fun p ↦ ?_⟩
    rw [hjoined.pred_iff hb (Nat.le_add_right _ _) (Nat.lt_succ_self _), hcurr]
    simp only [List.map_cons, List.map_nil, List.mem_cons, List.not_mem_nil, Inst.targets, or_false, and_true]
    omega

theorem ternary_emitted (hb : b.Valid) (hcond : ∀ b : FuncBuilder, b.Valid → Emitted b (cond.run b).2)
    (htroo : ∀ b, Stays b (troo.run b).2) (hfols : ∀ b, Stays b (fols.run b).2) :
    Emitted b ((ternary phi cond troo fols).run b).2 := by
  have henter := enterCond_emitted hb
  refine henter.trans ?_
  rw [run_ternary_builder]
  exact phiOf_emitted henter.valid (hcond _ (henter.valid.makeBlocks 3)) htroo hfols _ _

end Ternary

/-- Code that ends in a new block, before or after other code. -/
theorem Emitted.count_le_curr {b b' b'' : FuncBuilder} {c c' : Bool} (h : Emitted b b') (h' : Emitted b' b'')
    (hc : c = true → b.count ≤ b'.curr) (hc' : c' = true → b'.count ≤ b''.curr) (hbranching : (c || c') = true) :
    b.count ≤ b''.curr := by
  rcases Bool.or_eq_true_iff.mp hbranching with hbranching | hbranching
  · exact h'.curr.elim (fun heq ↦ (hc hbranching).trans heq.ge) h.count.trans
  · exact h.count.trans (hc' hbranching)

mutual

/-- Flat code; if it makes blocks, it ends in one of them. -/
theorem emit_emitted : (t : Tree) → t.flat = true → (dst : Value) → (b : FuncBuilder) → b.Valid →
    Emitted b ((emit t dst).run b).2 ∧ (t.branching = true → b.count ≤ ((emit t dst).run b).2.curr)
  | .dst, _, _, b, hb | .const _, _, _, b, hb => ⟨(Stays.refl b).emitted hb, nofun⟩
  | .inst oper args, h, dst, b, hb => by
    obtain ⟨hargs, hcurr⟩ := emits_emitted args h dst b hb
    have hop := stays_createOp oper ((emits args dst).run b).1 ((emits args dst).run b).2
    exact ⟨hargs.trans (hop.emitted hargs.valid), fun hbranching ↦ (hcurr hbranching).trans hop.curr.ge⟩
  | .shortCircuit stop lhs rhs, h, dst, b, hb => by
    simp only [Tree.flat, Bool.and_eq_true, Bool.not_eq_true'] at h
    have hlhs := emit_stays lhs h.1 dst
    have hrhs := emit_stays rhs h.2 dst
    cases stop with
    | true => exact ⟨shortCircuit_emitted true hb hlhs hrhs, fun _ ↦ Nat.le_succ _⟩
    | false => exact ⟨shortCircuit_emitted false hb hlhs hrhs, fun _ ↦ Nat.le_succ _⟩
  | .ternary phi cond troo fols, h, dst, b, hb => by
    simp only [Tree.flat, Bool.and_eq_true, Bool.not_eq_true'] at h
    have htroo := emit_stays troo h.2.1 dst
    have hfols := emit_stays fols h.2.2 dst
    refine ⟨ternary_emitted hb (fun b hb ↦ (emit_emitted cond h.1 dst b hb).1) htroo hfols, fun _ ↦ ?_⟩
    have hcount := (enterCond_emitted hb).count
    calc b.count ≤ (enterCond b).count + 2 := hcount.trans (Nat.le_add_right _ _)
      _ = ((emit (.ternary phi cond troo fols) dst).run b).2.curr := by
        rw [emit, run_ternary]
        cases phi <;> rfl
  | .before value effects, h, dst, b, hb => by
    obtain ⟨hflat, hflat'⟩ := Bool.and_eq_true_iff.mp h
    obtain ⟨hvalue, hcurr⟩ := emit_emitted value hflat dst b hb
    obtain ⟨heffects, hcurr'⟩ := emits_emitted effects hflat' dst _ hvalue.valid
    exact ⟨hvalue.trans heffects, hvalue.count_le_curr heffects hcurr hcurr'⟩
  | .withDst addr body, h, dst, b, hb => by
    obtain ⟨hflat, hflat'⟩ := Bool.and_eq_true_iff.mp h
    obtain ⟨haddr, hcurr⟩ := emit_emitted addr hflat dst b hb
    obtain ⟨hbody, hcurr'⟩ := emit_emitted body hflat' _ _ haddr.valid
    exact ⟨haddr.trans hbody, haddr.count_le_curr hbody hcurr hcurr'⟩

theorem emits_emitted : (ts : List Tree) → Tree.flats ts = true → (dst : Value) → (b : FuncBuilder) → b.Valid →
    Emitted b ((emits ts dst).run b).2 ∧ (Tree.branchings ts = true → b.count ≤ ((emits ts dst).run b).2.curr)
  | [], _, _, b, hb => ⟨(Stays.refl b).emitted hb, nofun⟩
  | t :: ts, h, dst, b, hb => by
    obtain ⟨hflat, hflat'⟩ := Bool.and_eq_true_iff.mp h
    obtain ⟨htree, hcurr⟩ := emit_emitted t hflat dst b hb
    obtain ⟨htrees, hcurr'⟩ := emits_emitted ts hflat' dst _ htree.valid
    exact ⟨htree.trans htrees, htree.count_le_curr htrees hcurr hcurr'⟩

end

/-! ## Other code is broken -/

/-- A phi with a value for a block that was left for new blocks. -/
theorem Emitted.broken_of_phi {b b' : FuncBuilder} (h : Emitted b b') (hb : b.Valid) (hcurr : b.count ≤ b'.curr)
    {curr count : ℕ} (hstart : b.curr = curr ∨ count ≤ b.curr) {blocks : ℕ → Block Oper Const}
    (hext : Extends b'.blocks blocks) {k dst : ℕ} {incoming : List (Value × ℕ)} (hphi : .phi dst incoming ∈ blocks k)
    (hnew : count ≤ k) (hk : k < b.count) (hmem : b.curr ∈ incoming.map Prod.snd) : Broken curr count blocks := by
  have hne : b.curr ≠ b'.curr := (hb.curr.trans_le hcurr).ne
  obtain ⟨body, last, heq, hlast, -⟩ := h.closed b.curr (.inl rfl) (hb.curr.trans_le h.count) hne
  have hin : last ∈ b'.blocks b.curr := heq ▸ List.mem_append_right _ List.mem_cons_self
  refine .inr ⟨k, dst, incoming, b.curr, last, hnew, hstart, hphi, hmem, hext.mem hin, hlast, fun ht ↦ ?_⟩
  rcases h.targets b.curr last hin with hold | hnew
  · rw [hb.openCurr last hold] at hlast
    cases hlast
  · exact absurd hk (not_lt.mpr (hnew k ht))

/-- A branch that is linked to a block that was left. -/
theorem Emitted.broken_of_link {b b' c : FuncBuilder} (h : Emitted b b') (hb : b.Valid) (hcurr : b.count ≤ b'.curr)
    {curr count : ℕ} (hstart : b.curr = curr ∨ count ≤ b.curr) (hext : Extends b'.blocks c.blocks)
    (i : Inst Oper Const) : Broken curr count ((c.setCurr b.curr).append i).blocks := by
  have hne : b.curr ≠ b'.curr := (hb.curr.trans_le hcurr).ne
  obtain ⟨rest, hrest⟩ := hext b.curr
  have hclosed := h.closed b.curr (.inl rfl) (hb.curr.trans_le h.count) hne
  have hnil : rest ++ [i] ≠ [] := by simp
  refine broken_of_closed_append hstart ?_ hclosed hnil
  rw [Builder.append_blocks_self (Builder.setCurr_curr _ _), Builder.setCurr_blocks, ← hrest, List.append_assoc]

/-- After a branch, the first of the new blocks can be filled. -/
theorem Emitted.valid_branch {b mid : FuncBuilder} {n k : ℕ} {leave : Inst Oper Const}
    (h : Emitted { b with count := b.count + n } mid) (hb : b.Valid) (hk : b.count ≤ k) (hlt : k < b.count + n)
    (hleave : ∀ t ∈ leave.targets, t < b.count + n) : ((mid.append leave).setCurr k).Valid := by
  have hcount : b.count + n ≤ mid.count := h.count
  have hmid : mid.curr < b.count ∨ b.count + n ≤ mid.curr := h.curr.imp_left fun heq ↦ heq.trans_lt hb.curr
  have hblock : (mid.append leave).blocks k = [] := by
    rw [Builder.append_blocks_of_ne (by omega), h.frame k hlt (hb.curr.trans_le hk).ne']
    exact hb.unmade k hk
  refine ⟨hlt.trans_le hcount, fun j hj ↦ ?_, ?_, fun j i hi t ht ↦ ?_⟩
  · have hj : mid.count ≤ j := hj
    have := h.valid.curr
    rw [Builder.setCurr_blocks, Builder.append_blocks_of_ne (by omega), h.valid.unmade j hj]
  · rw [Builder.setCurr_curr, Builder.setCurr_blocks, hblock]
    exact open_nil
  · rw [Builder.setCurr_blocks] at hi
    by_cases hj : mid.curr = j
    · rw [Builder.append_blocks_self hj, List.mem_append, List.mem_singleton] at hi
      rcases hi with hi | rfl
      · exact h.valid.targets j i hi t ht
      · exact (hleave t ht).trans_le hcount
    · rw [Builder.append_blocks_of_ne hj] at hi
      exact h.valid.targets j i hi t ht

section

variable {b : FuncBuilder}

/-- Code that makes blocks: it is broken, or it ends in one of them. -/
def Leaves (b b' : FuncBuilder) : Prop :=
  Broken b.curr b.count b'.blocks ∨ (Emitted b b' ∧ b.count ≤ b'.curr)

theorem enterRhs_valid {stop : Bool} {lhs : Gen Value} (hb : b.Valid) (hlhs : ∀ b, Stays b (lhs.run b).2) :
    (enterRhs stop lhs b).Valid := by
  refine Emitted.valid_branch (n := 2) ((hlhs _).emitted (hb.makeBlocks 2)) hb le_rfl (by omega) fun t ht ↦ ?_
  have := mem_targets_leaveLhs.mp ht
  omega

theorem enterTroo_valid {cond : Gen Value} (hb : b.Valid)
    (hcond : Emitted { b with count := b.count + 3 } (afterCond cond b)) : (enterTroo cond b).Valid := by
  refine Emitted.valid_branch (n := 3) hcond hb le_rfl (by omega) fun t ht ↦ ?_
  simp only [Inst.targets, List.mem_cons, List.not_mem_nil, or_false] at ht
  omega

theorem enterFols_blocks {cond troo : Gen Value} (hb : b.Valid)
    (hcond : Emitted { b with count := b.count + 3 } (afterCond cond b)) (htroo : ∀ b, Stays b (troo.run b).2) :
    (troo.run (enterTroo cond b)).2.blocks (b.count + 1) = [] := by
  rw [(htroo (enterTroo cond b)).blocks_of_ne (Nat.lt_succ_self b.count).ne']
  exact enterTroo_blocks hb hcond (Nat.le_succ _) (Nat.add_lt_add_left (by decide) _)

theorem enterFols_valid {cond troo : Gen Value} (hb : b.Valid)
    (hcond : Emitted { b with count := b.count + 3 } (afterCond cond b)) (htroo : ∀ b, Stays b (troo.run b).2) :
    (enterFols cond troo b).Valid := by
  have hvalid := enterTroo_valid hb hcond
  have hstays := htroo (enterTroo cond b)
  have hcount : b.count + 3 ≤ (afterCond cond b).count := hcond.count
  refine (hstays.emitted hvalid).valid.setCurr ?_ ?_
  · rw [hstays.count]
    exact (by omega : b.count + 1 < (afterCond cond b).count)
  · rw [enterFols_blocks hb hcond htroo]
    exact open_nil

theorem enterFols_grown (cond troo : Gen Value) (htroo : Grows troo) :
    Extends (afterCond cond b).blocks (enterFols cond troo b).blocks :=
  (Builder.extends_append _ _).trans (htroo (enterTroo cond b))

theorem enterDone_grown (cond troo fols : Gen Value) (hfols : Grows fols) :
    Extends (enterFols cond troo b).blocks (enterDone cond troo fols b).blocks := by
  let f := (fols.run (enterFols cond troo b)).2
  let linked := (f.setCurr b.count).append (.br (b.count + 2))
  have hlinked : Extends f.blocks linked.blocks := (f.setCurr b.count).extends_append _
  have hdone : Extends linked.blocks (enterDone cond troo fols b).blocks := (linked.setCurr (b.count + 1)).extends_append _
  exact ((hfols (enterFols cond troo b)).trans hlinked).trans hdone

theorem phiOf_grown (phi : Bool) (incoming : List (Value × ℕ)) (b : FuncBuilder) :
    Extends b.blocks (phiOf phi incoming b).blocks := by
  cases phi
  · exact .refl _
  · exact b.extends_append _

theorem shortCircuit_broken {stop : Bool} {lhs rhs : Gen Value} (hb : b.Valid) (hrhs : Grows rhs)
    (h : Leaves { b with count := b.count + 2 } (lhs.run { b with count := b.count + 2 }).2 ∨
      ((∀ b, Stays b (lhs.run b).2) ∧ Leaves (enterRhs stop lhs b) (rhs.run (enterRhs stop lhs b)).2)) :
    Broken b.curr b.count ((shortCircuit stop lhs rhs).run b).2.blocks := by
  let r := (rhs.run (enterRhs stop lhs b)).2
  let left := (r.append (.br (b.count + 1))).setCurr (b.count + 1)
  have hfromLhs : Extends (lhs.run { b with count := b.count + 2 }).2.blocks r.blocks :=
    (Builder.extends_append _ _).trans (hrhs (enterRhs stop lhs b))
  have hfromRhs : Extends r.blocks ((shortCircuit stop lhs rhs).run b).2.blocks := by
    rw [run_shortCircuit]
    exact (r.extends_append _).trans (left.extends_append _)
  have hphi : Inst.phi left.next [(.const (.literal (.bool stop)), b.curr), ((rhs.run (enterRhs stop lhs b)).1, b.count)] ∈
      ((shortCircuit stop lhs rhs).run b).2.blocks (b.count + 1) := by
    rw [run_shortCircuit, Builder.appendPhi_blocks, Builder.append_blocks_self (Builder.setCurr_curr _ _)]
    exact List.mem_append_right _ List.mem_cons_self
  rcases h with (hbroken | ⟨hemitted, hcurr⟩) | ⟨hlhs, hbroken | ⟨hemitted, hcurr⟩⟩
  · exact (hbroken.weaken (.inl rfl) (Nat.le_add_right _ _)).mono (hfromLhs.trans hfromRhs)
  · exact hemitted.broken_of_phi (hb.makeBlocks 2) hcurr (.inl rfl) (hfromLhs.trans hfromRhs) hphi (Nat.le_succ _)
      (Nat.lt_succ_self _) List.mem_cons_self
  · have hcount : (enterRhs stop lhs b).count = b.count + 2 := (hlhs { b with count := b.count + 2 }).count
    exact (hbroken.weaken (.inr le_rfl) (hcount ▸ Nat.le_add_right _ _)).mono hfromRhs
  · have hcount : (enterRhs stop lhs b).count = b.count + 2 := (hlhs { b with count := b.count + 2 }).count
    refine hemitted.broken_of_phi (enterRhs_valid hb hlhs) hcurr (.inr le_rfl) hfromRhs hphi (Nat.le_succ _) ?_ ?_
    · rw [hcount]
      exact Nat.lt_succ_self _
    · exact List.mem_cons_of_mem _ List.mem_cons_self

theorem phiOf_broken {phi : Bool} {cond troo fols : Gen Value} (hb : b.Valid) (htroo : Grows troo) (hfols : Grows fols)
    (h : Broken b.curr (b.count + 3) (afterCond cond b).blocks ∨ (Emitted { b with count := b.count + 3 } (afterCond cond b) ∧
      (Leaves (enterTroo cond b) (troo.run (enterTroo cond b)).2 ∨
        ((∀ b, Stays b (troo.run b).2) ∧ Leaves (enterFols cond troo b) (fols.run (enterFols cond troo b)).2))))
    (incoming : List (Value × ℕ)) : Broken b.curr b.count (phiOf phi incoming (enterDone cond troo fols b)).blocks := by
  let f := (fols.run (enterFols cond troo b)).2
  let linked := (f.setCurr b.count).append (.br (b.count + 2))
  have hfromCond := enterFols_grown (b := b) cond troo htroo
  have hfromFols : Extends (enterFols cond troo b).blocks f.blocks := hfols _
  have hfromLinked : Extends linked.blocks (enterDone cond troo fols b).blocks := (linked.setCurr (b.count + 1)).extends_append _
  have hdone : Extends f.blocks (enterDone cond troo fols b).blocks :=
    ((f.setCurr b.count).extends_append _).trans hfromLinked
  refine Broken.mono ?_ (phiOf_grown phi incoming _)
  rcases h with hbroken | ⟨hcond, (hbroken | ⟨hemitted, hcurr⟩) | ⟨hstays, hbroken | ⟨hemitted, hcurr⟩⟩⟩
  · exact (hbroken.weaken (.inl rfl) (Nat.le_add_right _ _)).mono ((hfromCond.trans hfromFols).trans hdone)
  · exact (hbroken.weaken (.inr le_rfl) ((Nat.le_add_right _ _).trans hcond.count)).mono (hfromFols.trans hdone)
  · exact (hemitted.broken_of_link (enterTroo_valid hb hcond) hcurr (.inr le_rfl) hfromFols _).mono hfromLinked
  · have hcount : b.count ≤ (enterFols cond troo b).count :=
      (Nat.le_add_right _ _).trans (hcond.count.trans (hstays (enterTroo cond b)).count.ge)
    exact (hbroken.weaken (.inr (Nat.le_succ _)) hcount).mono hdone
  · have hfrom : Extends f.blocks linked.blocks := (f.setCurr b.count).extends_append _
    exact hemitted.broken_of_link (enterFols_valid hb hcond hstays) hcurr (.inr (Nat.le_succ _)) hfrom _

end

mutual

theorem emit_broken : (t : Tree) → t.flat = false → (dst : Value) → (b : FuncBuilder) → b.Valid →
    Broken b.curr b.count ((emit t dst).run b).2.blocks
  | .inst oper args, h, dst, b, hb =>
    (emits_broken args h dst b hb).mono (grows_createOp oper _ _)
  | .shortCircuit stop lhs rhs, h, dst, b, hb => by
    have hbroken : Broken b.curr b.count ((shortCircuit stop (emit lhs dst) (emit rhs dst)).run b).2.blocks := by
      refine shortCircuit_broken hb (grows_emit rhs dst) ?_
      cases hlhs : lhs.branching with
      | true => exact .inl (emit_leaves lhs hlhs dst _ (hb.makeBlocks 2))
      | false =>
        have hstays := emit_stays lhs hlhs dst
        have hrhs : rhs.branching = true := by simpa [Tree.flat, hlhs] using h
        exact .inr ⟨hstays, emit_leaves rhs hrhs dst _ (enterRhs_valid hb hstays)⟩
    cases stop <;> exact hbroken
  | .ternary phi cond troo fols, h, dst, b, hb => by
    have henter := enterCond_emitted hb
    have hb := henter.valid
    have hrun := run_ternary_builder phi (emit cond dst) (emit troo dst) (emit fols dst) b
    rw [emit, hrun]
    refine (phiOf_broken hb (grows_emit troo dst) (grows_emit fols dst) ?_ _).weaken henter.curr henter.count
    cases hcond : cond.flat with
    | false => exact .inl (emit_broken cond hcond dst _ (hb.makeBlocks 3))
    | true =>
      have hemitted := (emit_emitted cond hcond dst _ (hb.makeBlocks 3)).1
      refine .inr ⟨hemitted, ?_⟩
      cases htroo : troo.branching with
      | true => exact .inl (emit_leaves troo htroo dst _ (enterTroo_valid hb hemitted))
      | false =>
        have hstays := emit_stays troo htroo dst
        have hfols : fols.branching = true := by simpa [Tree.flat, hcond, htroo] using h
        exact .inr ⟨hstays, emit_leaves fols hfols dst _ (enterFols_valid hb hemitted hstays)⟩
  | .before value effects, h, dst, b, hb => by
    cases hvalue : value.flat with
    | false => exact (emit_broken value hvalue dst b hb).mono (grows_emits effects dst _)
    | true =>
      have heffects : Tree.flats effects = false := by simpa [Tree.flat, hvalue] using h
      have hemitted := (emit_emitted value hvalue dst b hb).1
      exact (emits_broken effects heffects dst _ hemitted.valid).weaken hemitted.curr hemitted.count
  | .withDst addr body, h, dst, b, hb => by
    cases haddr : addr.flat with
    | false => exact (emit_broken addr haddr dst b hb).mono (grows_emit body _ _)
    | true =>
      have hbody : body.flat = false := by simpa [Tree.flat, haddr] using h
      have hemitted := (emit_emitted addr haddr dst b hb).1
      exact (emit_broken body hbody _ _ hemitted.valid).weaken hemitted.curr hemitted.count

theorem emit_leaves (t : Tree) (h : t.branching = true) (dst : Value) (b : FuncBuilder) (hb : b.Valid) :
    Leaves b ((emit t dst).run b).2 := by
  cases hflat : t.flat with
  | false => exact .inl (emit_broken t hflat dst b hb)
  | true =>
    obtain ⟨hemitted, hcurr⟩ := emit_emitted t hflat dst b hb
    exact .inr ⟨hemitted, hcurr h⟩

theorem emits_broken : (ts : List Tree) → Tree.flats ts = false → (dst : Value) → (b : FuncBuilder) → b.Valid →
    Broken b.curr b.count ((emits ts dst).run b).2.blocks
  | t :: ts, h, dst, b, hb => by
    cases htree : t.flat with
    | false => exact (emit_broken t htree dst b hb).mono (grows_emits ts dst _)
    | true =>
      have htrees : Tree.flats ts = false := by simpa [Tree.flats, htree] using h
      have hemitted := (emit_emitted t htree dst b hb).1
      exact (emits_broken ts htrees dst _ hemitted.valid).weaken hemitted.curr hemitted.count

end

end Stela.CodeGen.Blocks
