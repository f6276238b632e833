import Stela.CodeGen.StatFrames
import Stela.CodeGen.StatMeaning

/-!
# Running the blocks of statements

The blocks that the generator makes for a statement run as the code of the statement says, as long as the operands
of the conditions in its expressions make no blocks. A run starts where the builder stood before the statement; it
ends where the builder stands after it, or in the block that a jump out of the statement goes to.
-/

namespace Stela.CodeGen.StatBlocks

open Stela.Syntax Stela.Library Stela.Library.ControlFlow
open Blocks (FuncBuilder Value Const Oper emit tree eval here RunsTo Emitted)

/-! ## Flat code -/

def AsgnCode.flat : AsgnCode → Bool
  | .var _ none | .none => true
  | .var _ (some init) => (tree init.code true).flat
  | .assign _ _ dst src => (tree dst false).flat && (tree src.code false).flat
  | .call call => (tree call.code false).flat

def flatChecks (checks : List (Option CheckCode)) : Bool :=
  checks.all fun check ↦ check.all fun check ↦ (tree check.init.code true).flat

mutual

/-- The expressions of the statement are flat. -/
def flat : StatCode → Bool
  | .block nodes => flatNodes nodes
  | .fi cond body none => (tree cond.code false).flat && flat body
  | .fi cond body (some elseBody) => (tree cond.code false).flat && (flat body && flat elseBody)
  | .swich _ value checks bodies _ _ => (tree value true).flat && (flatChecks checks && flatNodes bodies)
  | .terminate _ | .brake _ | .continu _ | .ret none _ => true
  | .ret (some value) _ => (tree value.2 (!isTriviallyCopyable value.1)).flat
  | .wile cond body => (tree cond.code false).flat && flat body
  | .four init cond incr body _ =>
      AsgnCode.flat init && ((tree cond.code false).flat && (AsgnCode.flat incr && flat body))
  | .asgn code => AsgnCode.flat code

def flatNodes : List StatCode → Bool
  | [] => true
  | node :: nodes => flat node && flatNodes nodes

end

/-! ## Code without jumps -/

variable {V σ : Type} {M : Machine Oper Const V σ}

/-- The code runs from where it starts to where it ends, and then the result has the property. -/
def Does {α : Type} (M : Machine Oper Const V σ) (gen : Gen α) (st : State) (values : ℕ → V) (s : σ)
    (Q : α → FuncBuilder → (ℕ → V) → σ → Prop) : Prop :=
  Emitted st.builder (gen.run st).2.builder ∧
    ∃ values' s', RunsTo M st.builder (gen.run st).2.builder values s values' s' ∧
      (∀ n < st.builder.next, values' n = values n) ∧ Q (gen.run st).1 (gen.run st).2.builder values' s'

/-- An operand has a value, and keeps it when there are more values. -/
def Has (M : Machine Oper Const V σ) (operand : Value) (b : FuncBuilder) (values : ℕ → V) (v : V) : Prop :=
  operand.Below b.next ∧ operand.eval M values = v

namespace Does

variable {α β : Type} {gen : Gen α} {f : α → Gen β} {st : State} {values : ℕ → V} {s : σ}
  {Q : α → FuncBuilder → (ℕ → V) → σ → Prop} {R : β → FuncBuilder → (ℕ → V) → σ → Prop}

theorem pure {a : α} (hst : st.builder.Valid) (h : Q a st.builder values s) : Does M (pure a) st values s Q :=
  ⟨(Blocks.Stays.refl _).emitted hst, values, s, .refl _ _ _, fun _ _ ↦ rfl, h⟩

theorem post {Q' : α → FuncBuilder → (ℕ → V) → σ → Prop} (h : Does M gen st values s Q)
    (hpost : ∀ a b values' s', Q a b values' s' → Q' a b values' s') : Does M gen st values s Q' := by
  obtain ⟨hemitted, values', s', hruns, hsame, hq⟩ := h
  exact ⟨hemitted, values', s', hruns, hsame, hpost _ _ _ _ hq⟩

/-- One after the other; the values from before the first one are still there. -/
theorem bind (h : Does M gen st values s Q)
    (hf : ∀ values' s', (gen.run st).2.builder.Valid → (∀ n < st.builder.next, values' n = values n) →
      st.builder.next ≤ (gen.run st).2.builder.next → Q (gen.run st).1 (gen.run st).2.builder values' s' →
      Does M (f (gen.run st).1) (gen.run st).2 values' s' R) :
    Does M (gen >>= f) st values s R := by
  obtain ⟨hemitted, values', s', hruns, hsame, hq⟩ := h
  obtain ⟨hemitted', values'', s'', hruns', hsame', hr⟩ := hf values' s' hemitted.valid hsame hemitted.next hq
  refine ⟨hemitted.trans hemitted', values'', s'', hruns.trans hruns' hemitted'.grown, fun n hn ↦ ?_, hr⟩
  rw [hsame' n (hn.trans_le hemitted.next), hsame n hn]

end Does

theorem does_genExpr {code : Code} {result : Bool} {k : Const} {st : State} {values : ℕ → V} {s s' : σ} {v : V}
    (hst : st.builder.Valid) (hflat : (tree code result).flat = true)
    (h : evalExpr M code result (M.const k) s = some (v, s')) :
    Does M (genExpr code result (.const k)) st values s fun operand b values' s'' ↦ Has M operand b values' v ∧ s'' = s' := by
  obtain ⟨values', hruns, hvalue, hsame⟩ :=
    (Blocks.emit_computes (M := M) _ hflat (.const k) st.builder hst trivial).runs values s v s' h
  exact ⟨(Blocks.emit_emitted _ hflat _ _ hst).1, values', s', hruns, hsame,
    ⟨(Blocks.emit_computes (M := M) _ hflat (.const k) st.builder hst trivial).below, hvalue⟩, rfl⟩

theorem does_createOp {oper : Oper} {args : List Value} {st : State} {values : ℕ → V} {s s' : σ} {v : V}
    (hst : st.builder.Valid) (h : M.op oper (args.map (Operand.eval M values)) s = some (v, s')) :
    Does M (createOp oper args) st values s fun operand b values' s'' ↦ Has M operand b values' v ∧ s'' = s' := by
  refine ⟨(Blocks.stays_createOp oper args st.builder).emitted hst, _, s', Blocks.runsTo_createOp h, fun n hn ↦ ?_, ⟨?_, ?_⟩, rfl⟩
  · exact Function.update_of_ne hn.ne _ _
  · exact Nat.lt_succ_self st.builder.next
  · exact Function.update_self _ _ _

/-- An instruction of which the value is not used. -/
theorem does_perform {oper : Oper} {args : List Value} {st : State} {values : ℕ → V} {s s' : σ} (hst : st.builder.Valid)
    (h : perform M oper (args.map (Operand.eval M values)) s = some s') :
    Does M (createOp oper args) st values s fun _ _ _ s'' ↦ s'' = s' := by
  obtain ⟨⟨v, s''⟩, hop, rfl⟩ := Option.map_eq_some_iff.mp h
  exact (does_createOp hst hop).post fun _ _ _ _ hq ↦ hq.2

theorem does_destroy : (objs : List Object) → {st : State} → {values : ℕ → V} → {s s' : σ} → st.builder.Valid →
    destroyAll M objs s = some s' → Does M (destroy objs) st values s fun _ _ _ s'' ↦ s'' = s'
  | [], _, _, _, _, hst, h => .pure hst (Option.some.inj h)
  | obj :: objs, _, _, _, _, hst, h => by
    rw [destroyAll] at h
    rw [destroy]
    by_cases hdtor : hasDtor obj.type
    · rw [if_pos hdtor] at h ⊢
      obtain ⟨s₁, hperform, h⟩ := Option.bind_eq_some_iff.mp h
      refine Does.bind (does_perform hst hperform) fun _ _ hvalid _ _ heq ↦ ?_
      exact does_destroy objs hvalid (heq ▸ h)
    · rw [if_neg hdtor] at h ⊢
      exact does_destroy objs hst h

theorem does_emitAsgn {code : AsgnCode} {st : State} {values : ℕ → V} {s s' : σ} (hst : st.builder.Valid)
    (hflat : AsgnCode.flat code = true) (h : evalAsgn M code s = some s') :
    Does M (emitAsgn code) st values s fun _ _ _ s'' ↦ s'' = s' := by
  cases code with
  | var obj init =>
    cases init with
    | none =>
      have hperform : perform M (.defConstruct obj.type) ([address obj].map (Operand.eval M values)) s = some s' := h
      exact (does_perform hst hperform).bind fun _ _ hvalid _ _ heq ↦ .pure hvalid heq
    | some init =>
      obtain ⟨⟨v, s₁⟩, hinit, h⟩ := Option.bind_eq_some_iff.mp h
      refine (does_genExpr hst hflat hinit).bind fun _ _ hvalid _ _ hq ↦ ?_
      exact does_destroy _ hvalid (hq.2 ▸ h)
  | assign type cat dst src =>
    obtain ⟨hflatDst, hflatSrc⟩ := Bool.and_eq_true_iff.mp hflat
    obtain ⟨⟨d, s₁⟩, hdst, h⟩ := Option.bind_eq_some_iff.mp h
    obtain ⟨⟨v, s₂⟩, hsrc, h⟩ := Option.bind_eq_some_iff.mp h
    obtain ⟨s₃, hassign, h⟩ := Option.bind_eq_some_iff.mp h
    refine (does_genExpr hst hflatDst hdst).bind fun values₁ _ hvalid _ _ ⟨hd, heq⟩ ↦ ?_
    refine (does_genExpr hvalid hflatSrc (heq ▸ hsrc)).bind fun values₂ _ hvalid hsame _ ⟨hv, heq⟩ ↦ ?_
    refine Does.bind (Q := fun _ _ _ s'' ↦ s'' = s₃) (does_perform hvalid ?_) fun _ _ hvalid _ _ heq ↦ does_destroy _ hvalid (heq ▸ h)
    rw [List.map_cons, List.map_singleton, hv.2, hd.1.eval_eq M hsame, hd.2, heq]
    exact hassign
  | call call =>
    obtain ⟨⟨v, s₁⟩, hcall, h⟩ := Option.bind_eq_some_iff.mp h
    exact (does_genExpr hst hflat hcall).bind fun _ _ hvalid _ _ hq ↦ does_destroy _ hvalid (hq.2 ▸ h)
  | none => exact .pure hst (Option.some.inj h)

/-! ## Runs that may jump -/

/-- A run leads to a place with the property. -/
def Leads (M : Machine Oper Const V σ) (blocks : ℕ → Block Oper Const) (c : Config V σ) (P : Config V σ → Prop) : Prop :=
  ∃ c', Steps M blocks c c' ∧ P c'

/-- The start of a block. -/
def At (t : ℕ) (s : σ) (c : Config V σ) : Prop :=
  ∃ pred values, c = ⟨t, 0, pred, values, s⟩

/-- A return of the value. -/
def Returns (M : Machine Oper Const V σ) (blocks : ℕ → Block Oper Const) (value : Option V) (s : σ) (c : Config V σ) : Prop :=
  ∃ operand, (blocks c.block)[c.pc]? = some (.ret operand) ∧ operand.map (Operand.eval M c.values) = value ∧ c.state = s

namespace Leads

variable {blocks : ℕ → Block Oper Const} {c c' : Config V σ} {P Q : Config V σ → Prop}

theorem of_steps (h : Steps M blocks c c') (hP : Leads M blocks c' P) : Leads M blocks c P := by
  obtain ⟨c'', h', hc''⟩ := hP
  exact ⟨c'', h.trans h', hc''⟩

theorem here (h : P c) : Leads M blocks c P :=
  ⟨c, .refl, h⟩

theorem bind (h : Leads M blocks c P) (hQ : ∀ c', P c' → Leads M blocks c' Q) : Leads M blocks c Q := by
  obtain ⟨c', h', hc'⟩ := h
  exact of_steps h' (hQ c' hc')

theorem mono (h : Leads M blocks c P) (hPQ : ∀ c, P c → Q c) : Leads M blocks c Q :=
  h.bind fun _ hc ↦ here (hPQ _ hc)

end Leads

/-- Code without jumps, and what comes after it. -/
theorem Does.leads {α : Type} {gen : Gen α} {st : State} {values : ℕ → V} {s : σ}
    {Q : α → FuncBuilder → (ℕ → V) → σ → Prop} (h : Does M gen st values s Q) {blocks : ℕ → Block Oper Const}
    (hext : Extends (gen.run st).2.builder.blocks blocks) {P : Config V σ → Prop}
    (hP : ∀ pred values s, Q (gen.run st).1 (gen.run st).2.builder values s →
      Leads M blocks (here (gen.run st).2.builder pred values s) P) (pred : ℕ) :
    Leads M blocks (here st.builder pred values s) P := by
  obtain ⟨-, values', s', hruns, -, hq⟩ := h
  obtain ⟨pred', hsteps⟩ := hruns blocks hext pred
  exact .of_steps hsteps (hP pred' values' s' hq)

/-- A branch at the end of the current block. -/
theorem leads_br {b : FuncBuilder} {t pred : ℕ} {values : ℕ → V} {s : σ} {blocks : ℕ → Block Oper Const}
    (hext : Extends (b.append (.br t)).blocks blocks) : Leads M blocks (here b pred values s) (At t s) :=
  ⟨_, .single (.br (Builder.getElem?_of_append hext)), b.curr, values, rfl⟩

/-- A condition at the end of the current block. -/
theorem leads_genCondBr {cond : FullCode} {troo fols : ℕ} {st : State} {values : ℕ → V} {s s' : σ} {holds : Bool}
    (hst : st.builder.Valid) (hflat : (tree cond.code false).flat = true) (h : evalCond M cond s = some (holds, s'))
    {blocks : ℕ → Block Oper Const} (hext : Extends ((genCondBr cond troo fols).run st).2.builder.blocks blocks) (pred : ℕ) :
    Leads M blocks (here st.builder pred values s) (At (if holds then troo else fols) s') := by
  obtain ⟨⟨v, s₁⟩, hcond, h⟩ := Option.bind_eq_some_iff.mp h
  obtain ⟨s₂, hdestroy, h⟩ := Option.bind_eq_some_iff.mp h
  cases h
  have hvalue : Does M (do
      let condExpr ← genExpr cond.code false (.const .null)
      destroy cond.dtors
      return condExpr) st values s fun operand b values' s'' ↦ Has M operand b values' v ∧ s'' = s' := by
    refine (does_genExpr hst hflat hcond).bind fun values₁ _ hvalid _ _ ⟨hv, heq⟩ ↦ ?_
    refine (does_destroy _ hvalid (heq ▸ hdestroy)).bind fun values₂ _ hvalid hsame hnext heq ↦ .pure hvalid ⟨?_, heq⟩
    exact ⟨hv.1.mono hnext, (hv.1.eval_eq M hsame).trans hv.2⟩
  refine hvalue.leads ((Builder.extends_append _ _).trans hext) (fun pred values s hq ↦ ?_) pred
  obtain ⟨⟨-, rfl⟩, rfl⟩ := hq
  exact ⟨_, .single (.condBr (Builder.getElem?_of_append hext)), _, values, rfl⟩

/-! ## Blocks that wait -/

/-- The block has been made and is still empty, and something else is current. -/
structure Idle (k : ℕ) (b : FuncBuilder) : Prop where
  lt : k < b.count
  ne : k ≠ b.curr
  empty : b.blocks k = []

/-- What is put into blocks in between. -/
abbrev Passes (b b' : FuncBuilder) : Prop :=
  Spreads (fun _ ↦ True) b b'

theorem Idle.passes {k : ℕ} {b b' : FuncBuilder} (h : Idle k b) (hpasses : Passes b b') : Idle k b' where
  lt := h.lt.trans_le hpasses.count
  ne := by
    have := hpasses.curr
    have := h.ne
    have := h.lt
    omega
  empty := (hpasses.frame k h.lt h.ne).trans h.empty

theorem Idle.setCurr {k j : ℕ} {b : FuncBuilder} (h : Idle k b) (hne : k ≠ j) : Idle k (b.setCurr j) :=
  ⟨h.lt, hne, h.empty⟩

theorem idle_new {b b' : FuncBuilder} (hb : b.Made) {k : ℕ} (hcurr : b'.curr = b.curr) (hblocks : b'.blocks = b.blocks)
    (hk : b.count ≤ k) (hlt : k < b'.count) : Idle k b' where
  lt := hlt
  ne := by
    have := hb.curr
    omega
  empty := hblocks ▸ hb.unmade k hk

theorem passes_of {α : Type} {gen : Gen α} {st : State} {ks : α → List ℕ} (hst : st.builder.Made)
    (h : Triple (From (fun _ ↦ True) st.builder []) gen fun a ↦ From (fun _ ↦ True) st.builder (ks a)) :
    Passes st.builder (gen.run st).2.builder :=
  (h st ⟨.refl hst, nofun⟩).spreads

/-- The branches stay within the blocks that have been made. -/
def Bounded (b : FuncBuilder) : Prop :=
  ∀ k, ∀ i ∈ b.blocks k, ∀ t ∈ i.targets, t < b.count

theorem Spreads.bounded {exits : ℕ → Prop} {b b' : FuncBuilder} (h : Spreads exits b b') (hb : Bounded b)
    (hexits : ∀ t, exits t → t < b.count) : Bounded b' := by
  intro k i hi t ht
  rcases h.targets k i hi with hi | htargets
  · exact (hb k i hi t ht).trans_le h.count
  · exact (htargets t ht).elim (fun hexit ↦ (hexits t hexit).trans_le h.count) And.right

/-- The targets of jumps have been made. -/
def FlowMade (flow : FlowData) (b : FuncBuilder) : Prop :=
  ∀ t, flow.breakBlock = some t ∨ flow.continueBlock = some t → t < b.count

/-- How `terminateLazy` ends a block. -/
theorem run_terminateLazy (dest : Option ℕ) (st : State) :
    (terminateLazy dest).run st =
      if isTerminated (st.builder.blocks st.builder.curr) then (dest, st)
      else match dest with
        | some d => (some d, { st with builder := st.builder.append (.br d) })
        | none => (some st.builder.count,
            { st with builder := { st.builder with count := st.builder.count + 1 }.append (.br st.builder.count) }) := by
  change ((if isTerminated (st.builder.blocks st.builder.curr) then pure dest else do
    let dest ← lazyBlock dest
    create (.br dest)
    pure (some dest)) : Gen (Option ℕ)).run st = _
  split
  · rfl
  · cases dest <;> rfl

/-! ## Conditions -/

/-- What has been built can be gone on with. -/
structure Sound (b : FuncBuilder) : Prop where
  made : b.Made
  bounded : Bounded b

theorem Sound.of_valid {b : FuncBuilder} (h : b.Valid) : Sound b :=
  ⟨h.made, h.targets⟩

theorem Sound.valid {b : FuncBuilder} (h : Sound b) (hopen : Open (b.blocks b.curr)) : b.Valid :=
  ⟨h.made.curr, h.made.unmade, hopen, h.bounded⟩

theorem Sound.setCurr {b : FuncBuilder} {k : ℕ} (h : Sound b) (hk : k < b.count) : Sound (b.setCurr k) :=
  ⟨⟨hk, h.made.unmade⟩, h.bounded⟩

/-- Code that branches to its own blocks and to blocks that have been made before. -/
abbrev Before (b : FuncBuilder) (t : ℕ) : Prop := t < b.count

theorem sound_of_from {b : FuncBuilder} {ks : List ℕ} {st : State} (h : From (Before b) b ks st) (hb : Sound b) :
    Sound st.builder :=
  ⟨h.spreads.made, Spreads.bounded h.spreads hb.bounded fun _ ↦ id⟩

theorem Idle.valid {k : ℕ} {b : FuncBuilder} (h : Idle k b) (hb : Sound b) : (b.setCurr k).Valid :=
  (hb.setCurr h.lt).valid (by rw [Builder.setCurr_blocks, Builder.setCurr_curr, h.empty]; exact open_nil)

/-- The start of an empty block that becomes current. -/
theorem Idle.here {k : ℕ} {b : FuncBuilder} (h : Idle k b) (pred : ℕ) (values : ℕ → V) (s : σ) :
    Blocks.here (b.setCurr k) pred values s = ⟨k, 0, pred, values, s⟩ := by
  rw [Blocks.here, Builder.setCurr_curr, Builder.setCurr_blocks, h.empty]
  rfl

/-- How a run of a statement ends, if the builder stands here after it. -/
def Ends (M : Machine Oper Const V σ) (blocks : ℕ → Block Oper Const) (flow : FlowData) (b : FuncBuilder) :
    Ending V → σ → Config V σ → Prop
  | .normal, s, c => b.Valid ∧ ∃ pred values, c = here b pred values s
  | .brake, s, c => ∀ t, flow.breakBlock = some t → At t s c
  | .continu, s, c => ∀ t, flow.continueBlock = some t → At t s c
  | .ret value, s, c => Returns M blocks value s c

/-- The blocks run from one state to another, with the ending. -/
def Lands (M : Machine Oper Const V σ) (gen : Gen Unit) (flow : FlowData) (s : σ) (e : Ending V) (s' : σ) : Prop :=
  ∀ st : State, st.builder.Valid → FlowMade flow st.builder →
    ∀ blocks, Extends (gen.run st).2.builder.blocks blocks → ∀ pred values,
      Leads M blocks (here st.builder pred values s) (Ends M blocks flow (gen.run st).2.builder e s')

/-- Only the normal ending depends on where the builder stands. -/
theorem Ends.of_jump {blocks : ℕ → Block Oper Const} {flow : FlowData} {b b' : FuncBuilder} {e : Ending V} {s : σ}
    {c : Config V σ} (h : Ends M blocks flow b e s c) (hjumps : e.jumps) : Ends M blocks flow b' e s c := by
  cases e with
  | normal => exact hjumps.elim
  | brake | continu | ret _ => exact h

/-- The code of a statement, as far as its jumps are concerned. -/
abbrev SpreadsGen (gen : Gen Unit) (flow : FlowData) : Prop :=
  ∃ breaks continues loops, ∀ st : State, st.builder.Made →
    Spreads (Exit breaks continues loops flow st.builder) st.builder (gen.run st).2.builder

theorem SpreadsGen.from {gen : Gen Unit} {flow : FlowData} (h : SpreadsGen gen flow) {b : FuncBuilder}
    (hflow : FlowMade flow b) {ks : List ℕ} : Triple (Enters (Before b) b ks) gen fun _ ↦ From (Before b) b ks := by
  obtain ⟨_, _, _, h⟩ := h
  exact from_body h (fun _ t ht ↦ .inr (hflow t (.inl ht))) fun _ t ht ↦ .inr (hflow t (.inr ht))

theorem SpreadsGen.passes {gen : Gen Unit} {flow : FlowData} (h : SpreadsGen gen flow) {st : State} (hst : st.builder.Made) :
    Passes st.builder (gen.run st).2.builder := by
  obtain ⟨_, _, _, h⟩ := h
  exact (h st hst).mono fun _ _ ↦ trivial

theorem spreadsGen_pure (flow : FlowData) : SpreadsGen (pure ()) flow :=
  ⟨false, false, false, fun _ hst ↦ .refl hst⟩

theorem FlowMade.mono {flow : FlowData} {b b' : FuncBuilder} (h : FlowMade flow b) (hcount : b.count ≤ b'.count) :
    FlowMade flow b' :=
  fun t ht ↦ (h t ht).trans_le hcount

theorem passes_terminateLazy (dest : Option ℕ) {st : State} (hst : st.builder.Made) :
    Passes st.builder ((terminateLazy dest).run st).2.builder := by
  rw [run_terminateLazy]
  split
  · exact .refl hst
  · cases dest with
    | some d => exact (Spreads.refl hst).append fun _ _ ↦ .inl trivial
    | none => exact ((Spreads.refl hst).makeBlocks 1).append fun _ _ ↦ .inl trivial

/-- The block that `terminateLazy` makes waits. -/
theorem idle_terminateLazy {d : ℕ} {st : State} (hst : st.builder.Made) (h : ((terminateLazy none).run st).1 = some d) :
    Idle d ((terminateLazy none).run st).2.builder ∧ st.builder.count ≤ d := by
  rw [run_terminateLazy] at h ⊢
  split at h
  · cases h
  · rename_i hopen
    cases h
    rw [if_neg hopen]
    have hmade : Passes st.builder { st.builder with count := st.builder.count + 1 } := (Spreads.refl hst).makeBlocks 1
    have hnew : Idle st.builder.count { st.builder with count := st.builder.count + 1 } :=
      idle_new hst rfl rfl le_rfl (Nat.lt_succ_self _)
    exact ⟨hnew.passes ((Spreads.refl hmade.made).append fun _ _ ↦ .inl trivial), le_rfl⟩

theorem terminateLazy_some (d : ℕ) (st : State) : ((terminateLazy (some d)).run st).1 = some d := by
  rw [run_terminateLazy]
  split <;> rfl

/-- An open block is left for the block after the statement. -/
theorem leads_terminateLazy (dest : Option ℕ) {st : State} (hst : st.builder.Valid) :
    ∃ d, ((terminateLazy dest).run st).1 = some d ∧
      ∀ blocks, Extends ((terminateLazy dest).run st).2.builder.blocks blocks → ∀ pred (values : ℕ → V) (s : σ),
        Leads M blocks (here st.builder pred values s) (At d s) := by
  have hopen : ¬isTerminated (st.builder.blocks st.builder.curr) = true := by
    rw [isTerminated_of_open hst.openCurr]
    exact Bool.false_ne_true
  rw [run_terminateLazy, if_neg hopen]
  cases dest with
  | some d => exact ⟨d, rfl, fun _ hext _ _ _ ↦ leads_br hext⟩
  | none => exact ⟨st.builder.count, rfl, fun _ hext _ _ _ ↦ leads_br (b := { st.builder with count := _ }) hext⟩

/-- The state with another current block. -/
def State.at (st : State) (k : ℕ) : State :=
  { st with builder := st.builder.setCurr k }

theorem passes_genCondBr {cond : FullCode} {troo fols : ℕ} {st : State} (hst : st.builder.Made) :
    Passes st.builder ((genCondBr cond troo fols).run st).2.builder :=
  passes_of hst (from_genCondBr cond (.inr trivial) (.inr trivial))

/-- After the block that waits is entered. -/
theorem run_enterDone {d : ℕ} {done : Option ℕ} {st : State} (h : done = some d) :
    ((enterDone done).run st).2 = st.at d := by
  subst h
  rfl

section If

variable {cond : FullCode} {body elseBody : Gen Unit} {flow : FlowData} {s s' s'' : σ} {e : Ending V} {holds : Bool}

theorem lands_emitIf (hflat : (tree cond.code false).flat = true) (hcond : evalCond M cond s = some (holds, s'))
    (hspreads : SpreadsGen body flow) (hspreads' : SpreadsGen elseBody flow)
    (hbody : holds = true → Lands M body flow s' e s'') (helse : holds = false → Lands M elseBody flow s' e s'') :
    Lands M (emitIf cond body elseBody) flow s e s'' := by
  intro st hst hflow blocks hext pred values
  let c := st.builder.count
  let s0 : State := { st with builder := { st.builder with count := c + 1 + 1 } }
  let s1 := ((genCondBr cond c (c + 1)).run s0).2
  let s3 := (body.run (s1.at c)).2
  let t1 := (terminateLazy none).run s3
  let s6 := (elseBody.run (t1.2.at (c + 1))).2
  let t2 := (terminateLazy t1.1).run s6
  have hrun : (emitIf cond body elseBody).run st = (enterDone t2.1).run t2.2 := rfl
  -- the states on the way
  have hstart : From (Before st.builder) st.builder [] st := ⟨.refl hst.made, nofun⟩
  have h0 : From (Before st.builder) st.builder [c + 1, c] s0 := from_makeBlock _ (from_makeBlock st hstart)
  have h1 : From (Before st.builder) st.builder [c + 1, c] s1 :=
    from_genCondBr cond (.inl (by simp)) (.inl (by simp)) s0 h0
  have h2 : Enters (Before st.builder) st.builder [c + 1, c] (s1.at c) := enters_setCurr (by simp) s1 h1
  have h3 : From (Before st.builder) st.builder [c + 1, c] s3 := hspreads.from hflow _ h2
  have h4 : From (Before st.builder) st.builder (t1.1.toList ++ [c + 1, c]) t1.2 := from_terminateLazy none s3 h3
  have h5 : Enters (Before st.builder) st.builder (t1.1.toList ++ [c + 1, c]) (t1.2.at (c + 1)) :=
    enters_setCurr (by simp) t1.2 h4
  have h6 : From (Before st.builder) st.builder (t1.1.toList ++ [c + 1, c]) s6 := hspreads'.from hflow _ h5
  have h7 : From (Before st.builder) st.builder (t2.1.toList ++ [c + 1, c]) t2.2 :=
    from_terminateLazy t1.1 s6 h6
  have hsound : Sound st.builder := .of_valid hst
  have hflow' {st' : State} {ks : List ℕ} (h : From (Before st.builder) st.builder ks st') : FlowMade flow st'.builder :=
    hflow.mono h.spreads.count
  -- the blocks that wait
  have hpass1 : Passes s0.builder s1.builder := passes_genCondBr h0.spreads.made
  have hnewT : Idle c s0.builder := idle_new hst.made rfl rfl le_rfl (Nat.lt_add_of_pos_right Nat.two_pos)
  have hnewF : Idle (c + 1) s0.builder := idle_new hst.made rfl rfl (Nat.le_succ _) (Nat.lt_succ_self _)
  have hidleT := hnewT.passes hpass1
  have hidleF := hnewF.passes hpass1
  have hpass3 : Passes (s1.at c).builder s3.builder := hspreads.passes h2.1.spreads.made
  have hpass4 : Passes s3.builder t1.2.builder := passes_terminateLazy none h3.spreads.made
  have hpass6 : Passes (t1.2.at (c + 1)).builder s6.builder := hspreads'.passes h5.1.spreads.made
  have hpass7 : Passes s6.builder t2.2.builder := passes_terminateLazy t1.1 h6.spreads.made
  have hidleF' := ((hidleF.setCurr (Nat.succ_ne_self c)).passes hpass3).passes hpass4
  have hvalidT : (s1.at c).builder.Valid := hidleT.valid (sound_of_from h1 hsound)
  have hvalidF : (t1.2.at (c + 1)).builder.Valid := hidleF'.valid (sound_of_from h4 hsound)
  rw [hrun] at hext ⊢
  have hext7 : Extends t2.2.builder.blocks blocks := by
    cases hdone : t2.1 with
    | none => rwa [hdone] at hext
    | some d => rwa [run_enterDone hdone] at hext
  have hext6 := hpass7.grown.trans hext7
  have hext4 : Extends t1.2.builder.blocks blocks := hpass6.grown.trans hext6
  have hext3 := hpass4.grown.trans hext4
  have hext1 : Extends s1.builder.blocks blocks := hpass3.grown.trans hext3
  have hjump : Leads M blocks (here st.builder pred values s) (At (if holds then c else c + 1) s') :=
    @leads_genCondBr V σ M cond c (c + 1) s0 values s s' holds (hst.makeBlocks 2) hflat hcond blocks hext1 pred
  -- where both branches meet
  have hmeet {d : ℕ} (hd : t2.1 = some d) (hidle : Idle d t2.2.builder) (c' : Config V σ) (hc' : At d s'' c') :
      Ends M blocks flow ((enterDone t2.1).run t2.2).2.builder .normal s'' c' := by
    obtain ⟨pred, values, rfl⟩ := hc'
    rw [run_enterDone hd]
    exact ⟨hidle.valid (sound_of_from h7 hsound), pred, values, (hidle.here pred values s'').symm⟩
  refine hjump.bind ?_
  rintro _ ⟨pred, values, rfl⟩
  cases holds with
  | true =>
    rw [if_pos rfl, ← hidleT.here pred values s']
    refine (hbody rfl (s1.at c) hvalidT (hflow' h2.1) blocks hext3 pred values).bind fun c' hc' ↦ ?_
    cases e with
    | normal =>
      obtain ⟨hvalid, pred, values, rfl⟩ := hc'
      obtain ⟨d, hd, hleads⟩ := leads_terminateLazy (M := M) none hvalid
      obtain ⟨hidle, hle⟩ := idle_terminateLazy h3.spreads.made hd
      have hne : d ≠ c + 1 := ((h3.blocks (c + 1) List.mem_cons_self).2.trans_le hle).ne'
      have hd' : t2.1 = some d := by
        change ((terminateLazy t1.1).run s6).1 = some d
        rw [show t1.1 = some d from hd, terminateLazy_some]
      exact (hleads blocks hext4 pred values s'').mono (hmeet hd' (((hidle.setCurr hne).passes hpass6).passes hpass7))
    | brake | continu | ret value => exact .here (hc'.of_jump trivial)
  | false =>
    rw [if_neg Bool.false_ne_true, ← hidleF'.here pred values s']
    refine (helse rfl (t1.2.at (c + 1)) hvalidF (hflow' h5.1) blocks hext6 pred values).bind fun c' hc' ↦ ?_
    cases e with
    | normal =>
      obtain ⟨hvalid, pred, values, rfl⟩ := hc'
      obtain ⟨d, hd, hleads⟩ := leads_terminateLazy (M := M) t1.1 hvalid
      refine (hleads blocks hext7 pred values s'').mono (hmeet hd ?_)
      cases hdone : t1.1 with
      | some d' =>
        -- the block that the first branch leads to
        obtain ⟨hidle, hle⟩ := idle_terminateLazy h3.spreads.made hdone
        have hne : d' ≠ c + 1 := ((h3.blocks (c + 1) List.mem_cons_self).2.trans_le hle).ne'
        rw [hdone, terminateLazy_some] at hd
        cases hd
        exact ((hidle.setCurr hne).passes hpass6).passes hpass7
      | none =>
        have hidle := idle_terminateLazy (d := d) h6.spreads.made (hdone ▸ hd)
        exact (hdone ▸ hidle.1 : Idle d ((terminateLazy t1.1).run s6).2.builder)
    | brake | continu | ret value => exact .here (hc'.of_jump trivial)

end If

/-! ## Loops -/

theorem run_terminate (dest : ℕ) (st : State) :
    ((terminate dest).run st).2 =
      if isTerminated (st.builder.blocks st.builder.curr) then st else { st with builder := st.builder.append (.br dest) } := by
  change (((if isTerminated (st.builder.blocks st.builder.curr) then pure () else create (.br dest)) : Gen Unit).run st).2 = _
  split <;> rfl

theorem passes_terminate (dest : ℕ) {st : State} (hst : st.builder.Made) :
    Passes st.builder ((terminate dest).run st).2.builder :=
  passes_of hst (from_terminate (.inr trivial))

theorem leads_terminate {dest : ℕ} {st : State} (hst : st.builder.Valid) {blocks : ℕ → Block Oper Const}
    (hext : Extends ((terminate dest).run st).2.builder.blocks blocks) (pred : ℕ) (values : ℕ → V) (s : σ) :
    Leads M blocks (here st.builder pred values s) (At dest s) := by
  rw [run_terminate, if_neg (by rw [isTerminated_of_open hst.openCurr]; exact Bool.false_ne_true)] at hext
  exact leads_br hext

/-- How a body ends, given the blocks after it. -/
def BodyEnds (M : Machine Oper Const V σ) (blocks : ℕ → Block Oper Const) (after breakBlock continueBlock : ℕ) :
    Ending V → σ → Config V σ → Prop
  | .normal, s, c => At after s c
  | .brake, s, c => At breakBlock s c
  | .continu, s, c => At continueBlock s c
  | .ret value, s, c => Returns M blocks value s c

/-- How a loop or a switch ends. -/
def WholeEnds (M : Machine Oper Const V σ) (blocks : ℕ → Block Oper Const) (done : ℕ) :
    Ending V → σ → Config V σ → Prop
  | .normal, s, c => At done s c
  | .ret value, s, c => Returns M blocks value s c
  | .brake, _, _ | .continu, _, _ => False

/-- A body that is followed by a branch. -/
theorem leads_body {gen : Gen Unit} {flow : FlowData} {after t t' : ℕ} {s s' : σ} {e : Ending V}
    (hbreak : flow.breakBlock = some t) (hcontinue : e = .continu → flow.continueBlock = some t') {st : State}
    (hst : st.builder.Valid) (hflow : FlowMade flow st.builder) (hlands : Lands M gen flow s e s')
    {blocks : ℕ → Block Oper Const}
    (hgrown : Extends (gen.run st).2.builder.blocks ((terminate after).run (gen.run st).2).2.builder.blocks)
    (hext : Extends ((terminate after).run (gen.run st).2).2.builder.blocks blocks) (pred : ℕ) (values : ℕ → V) :
    Leads M blocks (here st.builder pred values s) (BodyEnds M blocks after t t' e s') := by
  refine (hlands st hst hflow blocks (hgrown.trans hext) pred values).bind fun c hc ↦ ?_
  cases e with
  | normal =>
    obtain ⟨hvalid, pred, values, rfl⟩ := hc
    exact leads_terminate hvalid hext pred values s'
  | brake => exact .here (hc t hbreak)
  | continu => exact .here (hc t' (hcontinue rfl))
  | ret value => exact .here hc

/-- What `nextEmpty` answers: the current block if it is empty, and else a new one that is branched to. -/
theorem nextEmpty_spec {st : State} (hst : st.builder.Valid) :
    (nextEmpty.run st).2.builder.curr = st.builder.curr ∧ (nextEmpty.run st).1 < (nextEmpty.run st).2.builder.count ∧
      (nextEmpty.run st).2.builder.blocks (nextEmpty.run st).1 = [] ∧
      ∀ blocks, Extends (nextEmpty.run st).2.builder.blocks blocks → ∀ pred (values : ℕ → V) (s : σ),
        Leads M blocks (here st.builder pred values s) (At (nextEmpty.run st).1 s) := by
  have hrun : nextEmpty.run st = ((Blocks.enterCond st.builder).curr,
      { st with builder := (Blocks.enterCond st.builder).setCurr st.builder.curr }) := by
    change ((Blocks.nextEmpty.run st.builder).1, { st with builder := (Blocks.nextEmpty.run st.builder).2 }) = _
    rw [Blocks.run_nextEmpty]
  rw [hrun]
  by_cases hempty : (st.builder.blocks st.builder.curr).isEmpty
  · rw [Blocks.enterCond, if_pos hempty]
    rw [List.isEmpty_iff] at hempty
    refine ⟨rfl, hst.curr, hempty, fun blocks _ pred values s ↦ .here ⟨pred, values, ?_⟩⟩
    rw [here, hempty]
    rfl
  · rw [Blocks.enterCond, if_neg hempty]
    refine ⟨rfl, Nat.lt_succ_self _, ?_, fun blocks hext pred values s ↦ ?_⟩
    · exact (Builder.append_blocks_of_ne (b := { st.builder with count := st.builder.count + 1 }) hst.curr.ne _).trans
        (hst.unmade _ le_rfl)
    · exact leads_br (b := { st.builder with count := st.builder.count + 1 }) hext

variable (M) in
/-- The blocks of a loop: its condition, its body and what comes between the body and the next round. -/
structure LoopBlocks (blocks : ℕ → Block Oper Const) (cond : FullCode) (incr : AsgnCode)
    (body : σ → Ending V → σ → Prop) (condBlock bodyBlock incrBlock done : ℕ) : Prop where
  cond : ∀ s holds s', evalCond M cond s = some (holds, s') → ∀ c, At condBlock s c →
    Leads M blocks c (At (if holds then bodyBlock else done) s')
  body : ∀ s e s', body s e s' → ∀ c, At bodyBlock s c → Leads M blocks c (BodyEnds M blocks incrBlock done incrBlock e s')
  incr : ∀ s s', evalAsgn M incr s = some s' → ∀ c, At incrBlock s c → Leads M blocks c (At condBlock s')

section Loops

variable {retArg : ℕ} {cond : FullCode} {body : StatCode}

/-- The blocks of a statement run as it says. -/
def SimStat (M : Machine Oper Const V σ) (retArg : ℕ) (code : StatCode) (s : σ) (e : Ending V) (s' : σ) : Prop :=
  regular code = true → flat code = true → ∀ flow, Lands M (emitStat retArg code flow) flow s e s'

theorem spreadsGen_emitStat (hregular : regular body = true) (flow : FlowData) :
    SpreadsGen (emitStat retArg body flow) flow :=
  ⟨_, _, _, spreads_emitStat retArg body hregular flow⟩

/-- The loop of a `while`, the way into it and the place after it. -/
theorem loopBlocks_emitWhile (hregular : regular body = true) (hflatCond : (tree cond.code false).flat = true)
    (hflat : flat body = true) {st : State} (hst : st.builder.Valid) :
    ∃ condBlock bodyBlock done, ((emitWhile cond (emitStat retArg body)).run st).2.builder.Valid ∧
      (∀ pred (values : ℕ → V) (s : σ),
        here ((emitWhile cond (emitStat retArg body)).run st).2.builder pred values s = ⟨done, 0, pred, values, s⟩) ∧
      ∀ blocks, Extends ((emitWhile cond (emitStat retArg body)).run st).2.builder.blocks blocks →
        LoopBlocks M blocks cond .none (SimStat M retArg body) condBlock bodyBlock condBlock done ∧
        ∀ pred values s, Leads M blocks (here st.builder pred values s) (At condBlock s) := by
  let r := (nextEmpty.run st).2
  let k := (nextEmpty.run st).1
  let bodyBlock := r.builder.count
  let done := r.builder.count + 1
  let s0 : State := { r with builder := { r.builder with count := r.builder.count + 1 + 1 } }
  let flow : FlowData := ⟨some done, some k⟩
  let s2 := ((emitStat retArg body flow).run (s0.at bodyBlock)).2
  let s3 := ((terminate k).run s2).2
  let s5 := ((genCondBr cond bodyBlock done).run (s3.at k)).2
  have hrun : (emitWhile cond (emitStat retArg body)).run st = ((), s5.at done) := rfl
  obtain ⟨hcurr, hlt, hempty, henter⟩ := nextEmpty_spec (M := M) hst
  -- the states on the way
  have hstart : From (Before st.builder) st.builder [] st := ⟨.refl hst.made, nofun⟩
  have h0 : From (Before st.builder) st.builder [done, bodyBlock, k] s0 :=
    from_makeBlock _ (from_makeBlock _ (from_nextEmpty (fun _ ↦ hst.curr) st hstart))
  have h1 : Enters (Before st.builder) st.builder [done, bodyBlock, k] (s0.at bodyBlock) :=
    enters_setCurr (by simp) s0 h0
  have hflow : FlowMade flow s0.builder := by
    rintro t (h | h)
    · cases h
      exact (h0.blocks done (by simp)).2
    · cases h
      exact (h0.blocks k (by simp)).2
  have h2 : From (Before st.builder) st.builder [done, bodyBlock, k] s2 := by
    refine from_body (spreads_emitStat retArg body hregular flow) (fun _ t ht ↦ .inl ?_) (fun _ t ht ↦ .inl ?_) _ h1
    · cases ht
      exact List.mem_cons_self
    · cases ht
      simp
  have h3 : From (Before st.builder) st.builder [done, bodyBlock, k] s3 := from_terminate (.inl (by simp)) s2 h2
  have h4 : From (Before st.builder) st.builder [done, bodyBlock, k] (s3.at k) := from_setCurr (by simp) s3 h3
  have h5 : From (Before st.builder) st.builder [done, bodyBlock, k] s5 :=
    from_genCondBr cond (.inl (by simp)) (.inl (by simp)) _ h4
  have hsound : Sound st.builder := .of_valid hst
  -- the blocks that wait
  have hmade : r.builder.Made := (from_nextEmpty (fun _ ↦ hst.curr) st hstart).spreads.made
  have hidleBody : Idle bodyBlock s0.builder := idle_new hmade rfl rfl le_rfl (Nat.lt_add_of_pos_right Nat.two_pos)
  have hidleDone : Idle done s0.builder := idle_new hmade rfl rfl (Nat.le_succ _) (Nat.lt_succ_self _)
  have hidleK : Idle k (s0.at bodyBlock).builder := ⟨hlt.trans (Nat.lt_add_of_pos_right Nat.two_pos), hlt.ne, hempty⟩
  have hpass2 : Passes (s0.at bodyBlock).builder s2.builder :=
    (spreadsGen_emitStat hregular flow).passes h1.1.spreads.made
  have hpass3 : Passes s2.builder s3.builder := passes_terminate k h2.spreads.made
  have hpass5 : Passes (s3.at k).builder s5.builder := passes_genCondBr h4.spreads.made
  have hidleK' := (hidleK.passes hpass2).passes hpass3
  have hidleDone' := ((hidleDone.setCurr (Nat.succ_ne_self bodyBlock)).passes hpass2).passes hpass3
  have hidleDone'' : Idle done s5.builder := (hidleDone'.setCurr (hlt.trans (Nat.lt_succ_self _)).ne').passes hpass5
  have hvalidBody : (s0.at bodyBlock).builder.Valid := hidleBody.valid (sound_of_from h0 hsound)
  have hvalidCond : (s3.at k).builder.Valid := hidleK'.valid (sound_of_from h3 hsound)
  refine ⟨k, bodyBlock, done, hidleDone''.valid (sound_of_from h5 hsound), fun pred values s ↦ hidleDone''.here pred values s,
    fun blocks hext ↦ ?_⟩
  have hext5 : Extends s5.builder.blocks blocks := hext
  have hext3 : Extends s3.builder.blocks blocks := hpass5.grown.trans hext5
  have hext0 : Extends s0.builder.blocks blocks := hpass2.grown.trans (hpass3.grown.trans hext3)
  refine ⟨⟨fun s holds s' hcond ↦ ?_, fun s e s' hbody ↦ ?_, fun s s' hincr ↦ ?_⟩, henter blocks hext0⟩
  · rintro _ ⟨pred, values, rfl⟩
    rw [← hidleK'.here pred values s]
    exact leads_genCondBr hvalidCond hflatCond hcond hext5 pred
  · rintro _ ⟨pred, values, rfl⟩
    rw [← hidleBody.here pred values s]
    exact leads_body rfl (fun _ ↦ rfl) hvalidBody hflow (hbody hregular hflat flow) hpass3.grown hext3 pred values
  · cases hincr
    exact fun c hc ↦ .here hc

/-- The same for the rest of a `for`. -/
theorem loopBlocks_emitFor {incr : AsgnCode} {dtors : List Object} (hregular : regular body = true)
    (hflatCond : (tree cond.code false).flat = true) (hflatIncr : AsgnCode.flat incr = true) (hflat : flat body = true)
    {st : State} (hst : st.builder.Valid) :
    ∃ condBlock bodyBlock incrBlock done, ∀ blocks,
      Extends ((emitFor (emitStat retArg body) cond incr dtors).run st).2.builder.blocks blocks →
        LoopBlocks M blocks cond incr (SimStat M retArg body) condBlock bodyBlock incrBlock done ∧
        (∀ pred values s, Leads M blocks (here st.builder pred values s) (At condBlock s)) ∧
        ∀ flow s s', destroyAll M dtors s = some s' → ∀ c, At done s c → Leads M blocks c
          (Ends M blocks flow ((emitFor (emitStat retArg body) cond incr dtors).run st).2.builder .normal s') := by
  let r := (nextEmpty.run st).2
  let k := (nextEmpty.run st).1
  let bodyBlock := r.builder.count
  let incrBlock := r.builder.count + 1
  let done := r.builder.count + 2
  let s0 : State := { r with builder := { r.builder with count := r.builder.count + 1 + 1 + 1 } }
  let flow : FlowData := ⟨some done, some incrBlock⟩
  let s2 := ((emitStat retArg body flow).run (s0.at bodyBlock)).2
  let s3 := ((terminate incrBlock).run s2).2
  let s5 := ((genCondBr cond bodyBlock done).run (s3.at k)).2
  let s6 := ((emitAsgn incr).run (s5.at incrBlock)).2
  let s7 : State := { s6 with builder := s6.builder.append (.br k) }
  have hrun : (emitFor (emitStat retArg body) cond incr dtors).run st = (destroy dtors).run (s7.at done) := rfl
  obtain ⟨hcurr, hlt, hempty, henter⟩ := nextEmpty_spec (M := M) hst
  -- the states on the way
  have hstart : From (Before st.builder) st.builder [] st := ⟨.refl hst.made, nofun⟩
  have h0 : From (Before st.builder) st.builder [done, incrBlock, bodyBlock, k] s0 :=
    from_makeBlock _ (from_makeBlock _ (from_makeBlock _ (from_nextEmpty (fun _ ↦ hst.curr) st hstart)))
  have h1 : Enters (Before st.builder) st.builder [done, incrBlock, bodyBlock, k] (s0.at bodyBlock) :=
    enters_setCurr (by simp) s0 h0
  have hflow : FlowMade flow s0.builder := by
    rintro t (h | h)
    · cases h
      exact (h0.blocks done (by simp)).2
    · cases h
      exact (h0.blocks incrBlock (by simp)).2
  have h2 : From (Before st.builder) st.builder [done, incrBlock, bodyBlock, k] s2 := by
    refine from_body (spreads_emitStat retArg body hregular flow) (fun _ t ht ↦ .inl ?_) (fun _ t ht ↦ .inl ?_) _ h1
    · cases ht
      exact List.mem_cons_self
    · cases ht
      simp
  have h3 : From (Before st.builder) st.builder [done, incrBlock, bodyBlock, k] s3 := from_terminate (.inl (by simp)) s2 h2
  have h4 : From (Before st.builder) st.builder [done, incrBlock, bodyBlock, k] (s3.at k) := from_setCurr (by simp) s3 h3
  have h5 : From (Before st.builder) st.builder [done, incrBlock, bodyBlock, k] s5 :=
    from_genCondBr cond (.inl (by simp)) (.inl (by simp)) _ h4
  have h6 : From (Before st.builder) st.builder [done, incrBlock, bodyBlock, k] s6 :=
    from_emitAsgn incr _ (from_setCurr (by simp) s5 h5)
  have h7 : From (Before st.builder) st.builder [done, incrBlock, bodyBlock, k] s7 := from_br (.inl (by simp)) s6 h6
  have hsound : Sound st.builder := .of_valid hst
  -- the blocks that wait
  have hmade : r.builder.Made := (from_nextEmpty (fun _ ↦ hst.curr) st hstart).spreads.made
  have hidleBody : Idle bodyBlock s0.builder := idle_new hmade rfl rfl le_rfl (Nat.lt_add_of_pos_right (Nat.succ_pos 2))
  have hidleIncr : Idle incrBlock s0.builder :=
    idle_new hmade rfl rfl (Nat.le_succ _) (Nat.lt_add_of_pos_right (n := r.builder.count + 1) Nat.two_pos)
  have hidleDone : Idle done s0.builder := idle_new hmade rfl rfl (Nat.le_add_right _ 2) (Nat.lt_succ_self _)
  have hidleK : Idle k (s0.at bodyBlock).builder :=
    ⟨hlt.trans (Nat.lt_add_of_pos_right (Nat.succ_pos 2)), hlt.ne, hempty⟩
  have hpass2 : Passes (s0.at bodyBlock).builder s2.builder :=
    (spreadsGen_emitStat hregular flow).passes h1.1.spreads.made
  have hpass3 : Passes s2.builder s3.builder := passes_terminate incrBlock h2.spreads.made
  have hpass5 : Passes (s3.at k).builder s5.builder := passes_genCondBr h4.spreads.made
  have hpass6 : Passes (s5.at incrBlock).builder s6.builder :=
    passes_of (from_setCurr (by simp) s5 h5 : From _ st.builder [done, incrBlock, bodyBlock, k] _).spreads.made (from_emitAsgn incr)
  have hpass7 : Passes s6.builder s7.builder := (Spreads.refl h6.spreads.made).append fun _ _ ↦ .inl trivial
  have hkIncr : incrBlock ≠ k := (hlt.trans (Nat.lt_succ_self _)).ne'
  have hkDone : done ≠ k := (hlt.trans (Nat.lt_add_of_pos_right Nat.two_pos)).ne'
  have hidleK' := (hidleK.passes hpass2).passes hpass3
  have hidleIncr' :=
    (((hidleIncr.setCurr (Nat.succ_ne_self bodyBlock)).passes hpass2).passes hpass3 |>.setCurr hkIncr).passes hpass5
  have hidleDone' :=
    (((hidleDone.setCurr (j := bodyBlock) (by simp [done, bodyBlock])).passes hpass2).passes hpass3 |>.setCurr hkDone).passes hpass5
  have hidleDone'' := ((hidleDone'.setCurr (Nat.succ_ne_self incrBlock)).passes hpass6).passes hpass7
  have hvalidBody : (s0.at bodyBlock).builder.Valid := hidleBody.valid (sound_of_from h0 hsound)
  have hvalidCond : (s3.at k).builder.Valid := hidleK'.valid (sound_of_from h3 hsound)
  have hvalidIncr : (s5.at incrBlock).builder.Valid := hidleIncr'.valid (sound_of_from h5 hsound)
  have hvalidDone : (s7.at done).builder.Valid := hidleDone''.valid (sound_of_from h7 hsound)
  refine ⟨k, bodyBlock, incrBlock, done, fun blocks hext ↦ ?_⟩
  rw [hrun] at hext ⊢
  have hext7 : Extends s7.builder.blocks blocks :=
    (passes_of hvalidDone.made (from_destroy dtors) : Passes (s7.at done).builder _).grown.trans hext
  have hext5 : Extends s5.builder.blocks blocks := hpass6.grown.trans (hpass7.grown.trans hext7)
  have hext3 : Extends s3.builder.blocks blocks := hpass5.grown.trans hext5
  have hext0 : Extends s0.builder.blocks blocks := hpass2.grown.trans (hpass3.grown.trans hext3)
  refine ⟨⟨fun s holds s' hcond ↦ ?_, fun s e s' hbody ↦ ?_, fun s s' hincr ↦ ?_⟩, henter blocks hext0, fun flow s s' hdtors ↦ ?_⟩
  · rintro _ ⟨pred, values, rfl⟩
    rw [← hidleK'.here pred values s]
    exact leads_genCondBr hvalidCond hflatCond hcond hext5 pred
  · rintro _ ⟨pred, values, rfl⟩
    rw [← hidleBody.here pred values s]
    exact leads_body rfl (fun _ ↦ rfl) hvalidBody hflow (hbody hregular hflat flow) hpass3.grown hext3 pred values
  · rintro _ ⟨pred, values, rfl⟩
    rw [← hidleIncr'.here pred values s]
    refine (does_emitAsgn hvalidIncr hflatIncr hincr).leads (hpass7.grown.trans hext7) (fun pred values s hs ↦ ?_) pred
    subst hs
    exact leads_br hext7
  · rintro _ ⟨pred, values, rfl⟩
    rw [← hidleDone''.here pred values s]
    have hdoes : Does M (destroy dtors) (s7.at done) values s fun _ _ _ s'' ↦ s'' = s' := does_destroy dtors hvalidDone hdtors
    refine hdoes.leads hext (fun pred values s hs ↦ ?_) pred
    subst hs
    exact .here ⟨hdoes.1.valid, pred, values, rfl⟩

/-- What holds of the rounds of a loop holds of the whole loop. -/
def SimLoop (M : Machine Oper Const V σ) (retArg : ℕ) (cond : FullCode) (incr : AsgnCode) (body : StatCode) (s : σ)
    (e : Ending V) (s' : σ) : Prop :=
  ∀ blocks condBlock bodyBlock incrBlock done,
    LoopBlocks M blocks cond incr (SimStat M retArg body) condBlock bodyBlock incrBlock done →
      ∀ c, At condBlock s c → Leads M blocks c (WholeEnds M blocks done e s')

end Loops

end Stela.CodeGen.StatBlocks
