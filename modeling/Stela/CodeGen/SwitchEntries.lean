import Stela.CodeGen.StatSimulation

/-!
# How the blocks of a switch are entered

Every branch to a check block or to a case block of a switch: the way in, the two branches of a comparison, the
branch to the default case, a `continue` in the case before, and a loop in the body of the case itself which starts
in its empty block.
-/

namespace Stela.CodeGen.StatBlocks

open Stela.Syntax Stela.Library Stela.Library.ControlFlow
open Blocks (FuncBuilder Value Const Oper emit tree eval here RunsTo Emitted Inside)

/-- The block has code from between the two states, which starts in the given block. -/
def Within (block : ℕ) (st st' : State) (k : ℕ) : Prop :=
  k = block ∨ st.builder.count ≤ k ∧ k < st'.builder.count

/-! ## One case -/

section Case

variable {b : FuncBuilder} {ks : List ℕ} {st : State} {k t : ℕ} {i : Inst Oper Const}

/-- The branches that a comparison adds. -/
theorem target_emitCheck {value : Object} {check : CheckCode} {block caseBlock next : ℕ}
    (h : From (Before b) b ks st) (hblock : block ∈ ks)
    (hi : i ∈ ((emitCheck value check block caseBlock next).run st).2.builder.blocks k) (ht : t ∈ i.targets)
    (hlt : t < st.builder.count) : i ∈ st.builder.blocks k ∨
      Within block st ((emitCheck value check block caseBlock next).run st).2 k ∧ ∃ cond, i = .condBr cond caseBlock next := by
  have hmade : (st.at block).builder.Made := (from_setCurr hblock st h).spreads.made
  have hstart : From (fun _ ↦ False) (st.at block).builder [] (st.at block) := ⟨.refl hmade, nofun⟩
  have hequal : Inside (st.at block).builder ((equalTo value check).run (st.at block)).2.builder :=
    (from_equalTo value check (st.at block) hstart).spreads
  have hrun : ((emitCheck value check block caseBlock next).run st).2.builder =
      ((equalTo value check).run (st.at block)).2.builder.append
        (.condBr ((equalTo value check).run (st.at block)).1 caseBlock next) := rfl
  have hwhole : Passes (st.at block).builder ((emitCheck value check block caseBlock next).run st).2.builder := by
    rw [hrun]
    exact (hequal.mono fun _ ↦ False.elim).append fun _ _ ↦ .inl trivial
  rcases hwhole.within hi with hold | hwithin
  · exact .inl hold
  rw [hrun] at hi
  by_cases hk : ((equalTo value check).run (st.at block)).2.builder.curr = k
  · rw [Builder.append_blocks_self hk] at hi
    rcases List.mem_append.mp hi with hi | hi
    · refine (hequal.targets k i hi).imp_right fun hnew ↦ ?_
      exact absurd hlt ((hnew t ht).resolve_left id).1.not_gt
    · exact .inr ⟨hwithin, _, List.mem_singleton.mp hi⟩
  · rw [Builder.append_blocks_of_ne hk] at hi
    refine (hequal.targets k i hi).imp_right fun hnew ↦ ?_
    exact absurd hlt ((hnew t ht).resolve_left id).1.not_gt

/-- The branches that the body of a case adds. -/
theorem target_emitCaseBody {retArg : ℕ} {body : StatCode} {bodies : List StatCode} {block done : ℕ}
    (h : CaseBlocks b ks (body :: bodies) block done st)
    (hi : i ∈ ((emitCaseBody retArg body bodies block done).run st).2.builder.blocks k) (ht : t ∈ i.targets)
    (hlt : t < st.builder.count) (hne : t ≠ done) : i ∈ st.builder.blocks k ∨
      Within block st ((emitCaseBody retArg body bodies block done).run st).2 k ∧
        (continues body = true ∧ t = block + 1 ∨ loops body = true ∧ t = block) := by
  have hmade : (st.at block).builder.Made := (from_setCurr (h.blocks 0 (Nat.succ_pos _)) st h.from').spreads.made
  have hregular : regular body = true := (Bool.and_eq_true_iff.mp h.regular').1
  have hbody := spreads_emitStat retArg body hregular (caseFlow bodies block done) (st.at block) hmade
  let exits (t : ℕ) : Prop :=
    Exit (breaks body) (continues body) (loops body) (caseFlow bodies block done) (st.at block).builder t ∨ t = done
  have hend : Triple (From exits (st.at block).builder []) (terminate done) fun _ ↦ From exits (st.at block).builder [] :=
    from_terminate (.inr (.inr rfl))
  have hspreads : Spreads exits (st.at block).builder ((emitCaseBody retArg body bodies block done).run st).2.builder :=
    (hend _ ⟨hbody.mono fun _ ↦ .inl, nofun⟩).spreads
  rcases hspreads.within hi with hold | hwithin
  · exact .inl hold
  refine (hspreads.targets k i hi).imp_right fun htargets ↦ ⟨hwithin, ?_⟩
  rcases htargets t ht with ((⟨-, hbreak⟩ | ⟨hc, hcontinue⟩ | ⟨hl, hcurr, -⟩) | hdone) | hnew
  · exact absurd (Option.some.inj hbreak).symm hne
  · cases bodies with
    | nil => cases hcontinue
    | cons next bodies => exact .inl ⟨hc, (Option.some.inj hcontinue).symm⟩
  · exact .inr ⟨hl, hcurr⟩
  · exact absurd hdone hne
  · exact absurd hlt hnew.1.not_gt

end Case

/-! ## All cases -/

/-- The bodies of the first so many cases. -/
def fillCases (retArg : ℕ) : ℕ → List StatCode → ℕ → ℕ → Gen Unit
  | 0, _, _, _ | _, [], _, _ => return ()
  | c + 1, body :: bodies, block, done => do
      emitCaseBody retArg body bodies block done
      fillCases retArg c bodies (block + 1) done

section Filled

variable {retArg : ℕ} {b : FuncBuilder} {ks : List ℕ} {done : ℕ}

variable (retArg) in
theorem caseBlocks_fillCases : (c : ℕ) → {bodies : List StatCode} → {block : ℕ} → {st : State} → c ≤ bodies.length →
    CaseBlocks b ks bodies block done st →
    CaseBlocks b ks (bodies.drop c) (block + c) done ((fillCases retArg c bodies block done).run st).2
  | 0, _, _, _, _, h => h
  | c + 1, _ :: bodies, block, _, hle, h => by
    have hrest := caseBlocks_fillCases c (Nat.le_of_succ_le_succ hle) (h.tail retArg)
    rw [Nat.add_assoc, Nat.add_comm 1 c] at hrest
    exact hrest

variable (retArg done) in
theorem run_fillCases_succ : (c : ℕ) → {bodies : List StatCode} → (block : ℕ) → {body : StatCode} → (st : State) →
    bodies[c]? = some body → ((fillCases retArg (c + 1) bodies block done).run st).2 =
      ((emitCaseBody retArg body (bodies.drop (c + 1)) (block + c) done).run ((fillCases retArg c bodies block done).run st).2).2
  | 0, _ :: _, _, _, _, h => by
    cases h
    rfl
  | c + 1, first :: bodies, block, body, st, h => by
    have hrest := run_fillCases_succ c (block + 1) ((emitCaseBody retArg first bodies block done).run st).2 h
    rw [Nat.add_assoc, Nat.add_comm 1 c] at hrest
    exact hrest

variable (retArg done) in
/-- The bodies of the other cases are put into their blocks after those. -/
theorem run_emitCaseBodies_drop : (c : ℕ) → {bodies : List StatCode} → (block : ℕ) → (st : State) → c ≤ bodies.length →
    ((emitCaseBodies retArg bodies block done).run st).2 =
      ((emitCaseBodies retArg (bodies.drop c) (block + c) done).run ((fillCases retArg c bodies block done).run st).2).2
  | 0, _, _, _, _ => rfl
  | c + 1, first :: bodies, block, st, hle => by
    have hrest := run_emitCaseBodies_drop c (block + 1) ((emitCaseBody retArg first bodies block done).run st).2
      (Nat.le_of_succ_le_succ hle)
    rw [Nat.add_assoc, Nat.add_comm 1 c] at hrest
    exact hrest

end Filled

section Entries

variable (retArg : ℕ) (obj : Object) (checks : List (Option CheckCode)) (bodies : List StatCode) (st : State)

/-- The bodies of the first `c` cases have been put into their blocks. -/
def switchCase (c : ℕ) : State :=
  ((fillCases retArg c bodies (caseBlocksOf st.builder.count checks.length) (doneOf st.builder.count checks.length)).run
    (switchLinked obj checks st)).2

/-- An instruction in a block is a branch to a check block or a case block. -/
inductive SwitchEntry : ℕ → Inst Oper Const → ℕ → Prop where
  | enter : SwitchEntry st.builder.curr (.br st.builder.count) st.builder.count
  /-- The expression of the case is equal to the value. -/
  | equal {c check k cond next} : checks[c]? = some (some check) →
      Within (st.builder.count + checkIndexOfCase c (findDefault checks)) (switchChecked obj checks c st)
        (switchChecked obj checks (c + 1) st) k →
      SwitchEntry k (.condBr cond (caseBlocksOf st.builder.count checks.length + c) next)
        (caseBlocksOf st.builder.count checks.length + c)
  /-- It is not, and the next case that is not the default one is compared. -/
  | unequal {c check k cond caseBlock} : checks[c]? = some (some check) →
      Within (st.builder.count + checkIndexOfCase c (findDefault checks)) (switchChecked obj checks c st)
        (switchChecked obj checks (c + 1) st) k →
      SwitchEntry k (.condBr cond caseBlock (entryOf st.builder.count (doneOf st.builder.count checks.length) checks.length
        (findDefault checks) (c + 1))) (entryOf st.builder.count (doneOf st.builder.count checks.length) checks.length
        (findDefault checks) (c + 1))
  | default {d} : findDefault checks = some d → SwitchEntry (st.builder.count + (checks.length - 1))
      (.br (caseBlocksOf st.builder.count checks.length + d)) (caseBlocksOf st.builder.count checks.length + d)
  | continue {c body k i} : bodies[c]? = some body → continues body = true →
      Within (caseBlocksOf st.builder.count checks.length + c) (switchCase retArg obj checks bodies st c)
        (switchCase retArg obj checks bodies st (c + 1)) k →
      SwitchEntry k i (caseBlocksOf st.builder.count checks.length + (c + 1))
  /-- A loop in the body, whose condition is the first thing in the block of the case. -/
  | loop {c body k i} : bodies[c]? = some body → loops body = true →
      Within (caseBlocksOf st.builder.count checks.length + c) (switchCase retArg obj checks bodies st c)
        (switchCase retArg obj checks bodies st (c + 1)) k →
      SwitchEntry k i (caseBlocksOf st.builder.count checks.length + c)

variable {retArg obj checks bodies st}

theorem run_emitCaseChecks_append {value : Object} {checkBlocks caseBlocks done size : ℕ} {defaultIndex : Option ℕ} :
    (first rest : List (Option CheckCode)) → (c : ℕ) → (st : State) →
    (emitCaseChecks value checkBlocks caseBlocks done size defaultIndex (first ++ rest) c).run st =
      (emitCaseChecks value checkBlocks caseBlocks done size defaultIndex rest (c + first.length)).run
        ((emitCaseChecks value checkBlocks caseBlocks done size defaultIndex first c).run st).2
  | [], _, _, _ => rfl
  | none :: first, rest, c, st => by
    rw [List.length_cons, Nat.add_comm first.length, ← Nat.add_assoc]
    exact run_emitCaseChecks_append first rest (c + 1) st
  | some _ :: first, rest, c, _ => by
    rw [List.length_cons, Nat.add_comm first.length, ← Nat.add_assoc]
    exact run_emitCaseChecks_append first rest (c + 1) _

variable (obj st) in
theorem switchChecked_succ_none {c : ℕ} (h : checks[c]? = some none) :
    switchChecked obj checks (c + 1) st = switchChecked obj checks c st := by
  rw [switchChecked, List.take_add_one, h, run_emitCaseChecks_append]
  rfl

variable (obj st) in
theorem switchChecked_succ_some {c : ℕ} {check : CheckCode} (h : checks[c]? = some (some check))
    (hne : findDefault checks ≠ some c) :
    switchChecked obj checks (c + 1) st =
      ((emitCheck obj check (st.builder.count + checkIndexOfCase c (findDefault checks))
        (caseBlocksOf st.builder.count checks.length + c)
        (entryOf st.builder.count (doneOf st.builder.count checks.length) checks.length (findDefault checks) (c + 1))).run
          (switchChecked obj checks c st)).2 := by
  have hlt : c < checks.length := (List.getElem?_eq_some_iff.mp h).1
  rw [switchChecked, List.take_add_one, h, run_emitCaseChecks_append, List.length_take_of_le hlt.le, Nat.zero_add]
  exact congrArg Prod.snd (run_emitCaseChecks_check obj check [] hlt hne (fun _ ↦ findDefault_lt) _)

section Stages

variable (hst : Sound st.builder) (hne : checks ≠ []) (hcount : checks.countP Option.isNone ≤ 1)

theorem aligned_get : (checks : List (Option CheckCode)) → (c n : ℕ) → {defaultIndex : Option ℕ} → {check : CheckCode} →
    Aligned defaultIndex checks c → checks[n]? = some (some check) → defaultIndex ≠ some (c + n)
  | _ :: _, _, 0, _, _, h, hget => by
    cases hget
    exact fun heq ↦ nomatch h.1.mpr heq
  | _ :: checks, c, n + 1, _, _, h, hget => by
    have hrest := aligned_get checks (c + 1) n h.2 hget
    rwa [Nat.add_assoc, Nat.add_comm 1 n] at hrest

/-- The blocks in which nothing was before. -/
theorem target_switchEntered {k t : ℕ} {i : Inst Oper Const} (hst : Sound st.builder)
    (hi : i ∈ (switchEntered checks st).builder.blocks k) (ht : t ∈ i.targets) (hle : st.builder.count ≤ t) :
    SwitchEntry retArg obj checks bodies st k i t := by
  have hold (hi : i ∈ st.builder.blocks k) : SwitchEntry retArg obj checks bodies st k i t :=
    absurd (hst.bounded k i hi t ht) hle.not_gt
  let made : FuncBuilder := { st.builder with count := doneOf st.builder.count checks.length + 1 }
  by_cases hk : made.curr = k
  · rw [switchEntered, Builder.append_blocks_self (b := made) hk] at hi
    rcases List.mem_append.mp hi with hi | hi
    · exact hold hi
    · obtain rfl := List.mem_singleton.mp hi
      obtain rfl := List.mem_singleton.mp ht
      exact hk ▸ .enter
  · rw [switchEntered, Builder.append_blocks_of_ne (b := made) hk] at hi
    exact hold hi

include hst hne hcount in
/-- The first `c` comparisons. -/
theorem target_switchChecked {k t : ℕ} {i : Inst Oper Const} (ht : t ∈ i.targets) (hle : st.builder.count ≤ t)
    (hlt : t < doneOf st.builder.count checks.length) : (c : ℕ) → c ≤ checks.length →
    i ∈ (switchChecked obj checks c st).builder.blocks k → SwitchEntry retArg obj checks bodies st k i t
  | 0, _, hi => target_switchEntered hst hi ht hle
  | c + 1, hc, hi => by
    have ih (hi : i ∈ (switchChecked obj checks c st).builder.blocks k) : SwitchEntry retArg obj checks bodies st k i t :=
      target_switchChecked ht hle hlt c (Nat.le_of_succ_le hc) hi
    obtain ⟨check, hcheck⟩ : ∃ check, checks[c]? = some check := ⟨_, List.getElem?_eq_getElem hc⟩
    cases check with
    | none => exact ih (switchChecked_succ_none obj st hcheck ▸ hi)
    | some check =>
      have hdefault : findDefault checks ≠ some c := by
        simpa using aligned_get checks 0 c (aligned_checks hcount) hcheck
      have hsucc := switchChecked_succ_some obj st hcheck hdefault
      have hfrom := (visits_switchChecked obj hst.made hne hcount c).from'
      have hmade : t < (switchChecked obj checks c st).builder.count :=
        hlt.trans (hfrom.blocks _ (done_mem _ _)).2
      have hindex : checkIndexOfCase c (findDefault checks) < checks.length := (Nat.sub_le _ _).trans_lt hc
      rw [hsucc] at hi
      rcases target_emitCheck hfrom (check_mem hindex) hi ht hmade with hold | ⟨hwithin, cond, rfl⟩
      · exact ih hold
      · rw [← hsucc] at hwithin
        simp only [Inst.targets, List.mem_cons, List.not_mem_nil, or_false] at ht
        rcases ht with rfl | rfl
        · exact .equal hcheck hwithin
        · exact .unequal hcheck hwithin

include hst hne hcount in
theorem target_switchLinked {k t : ℕ} {i : Inst Oper Const} (hi : i ∈ (switchLinked obj checks st).builder.blocks k)
    (ht : t ∈ i.targets) (hle : st.builder.count ≤ t) (hlt : t < doneOf st.builder.count checks.length) :
    SwitchEntry retArg obj checks bodies st k i t := by
  have hchecked (hi : i ∈ (switchChecked obj checks checks.length st).builder.blocks k) :
      SwitchEntry retArg obj checks bodies st k i t :=
    target_switchChecked hst hne hcount ht hle hlt _ le_rfl hi
  rw [switchLinked] at hi
  cases hdefault : findDefault checks with
  | none =>
    rw [hdefault] at hi
    exact hchecked hi
  | some d =>
    rw [hdefault, run_linkDefault_some, Builder.setCurr_blocks] at hi
    by_cases hk : st.builder.count + (checks.length - 1) = k
    · rw [Builder.append_blocks_self hk] at hi
      rcases List.mem_append.mp hi with hi | hi
      · exact hchecked hi
      · obtain rfl := List.mem_singleton.mp hi
        obtain rfl := List.mem_singleton.mp ht
        exact hk ▸ .default hdefault
    · rw [Builder.append_blocks_of_ne hk] at hi
      exact hchecked hi

include hst hne hcount in
/-- The first `c` bodies. -/
theorem target_switchCase (hlength : checks.length = bodies.length) (hbodies : regularNodes bodies = true) {k t : ℕ}
    {i : Inst Oper Const} (ht : t ∈ i.targets) (hle : st.builder.count ≤ t)
    (hlt : t < doneOf st.builder.count checks.length) : (c : ℕ) → c ≤ bodies.length →
    i ∈ (switchCase retArg obj checks bodies st c).builder.blocks k → SwitchEntry retArg obj checks bodies st k i t
  | 0, _, hi => target_switchLinked hst hne hcount hi ht hle hlt
  | c + 1, hc, hi => by
    have hget : bodies[c]? = some bodies[c] := List.getElem?_eq_getElem hc
    have hcases := caseBlocks_fillCases retArg c (Nat.le_of_succ_le hc)
      (caseBlocks_switchLinked obj hst.made hne hcount hlength hbodies)
    rw [List.drop_eq_getElem_cons hc] at hcases
    have hsucc := run_fillCases_succ retArg (doneOf st.builder.count checks.length) c
      (caseBlocksOf st.builder.count checks.length) (switchLinked obj checks st) hget
    have hmade : t < (switchCase retArg obj checks bodies st c).builder.count :=
      hlt.trans (hcases.from'.blocks _ (done_mem _ _)).2
    rw [switchCase, hsucc] at hi
    rcases target_emitCaseBody hcases hi ht hmade hlt.ne with hold | ⟨hwithin, hjump⟩
    · exact target_switchCase hlength hbodies ht hle hlt c (Nat.le_of_succ_le hc) hold
    · rw [← hsucc] at hwithin
      obtain ⟨hcontinues, rfl⟩ | ⟨hloops, rfl⟩ := hjump
      · exact .continue hget hcontinues hwithin
      · exact .loop hget hloops hwithin

end Stages

end Entries

/-! ## The whole switch -/

section Switch

variable {V σ : Type} {M : Machine Oper Const V σ} {retArg : ℕ} {obj : Object} {value : Code}
  {checks : List (Option CheckCode)} {bodies : List StatCode} {alwaysReturns : Bool} {dtors : List Object} {flow : FlowData}

variable (M retArg obj value checks bodies alwaysReturns dtors) in
/-- What the blocks of a switch do that starts in one state and has evaluated its value in the other. -/
structure SelectsCase (st₀ st : State) (after : FuncBuilder) (blocks : ℕ → Block Oper Const) : Prop where
  /-- Control goes to the case that is selected, or to the exit. -/
  selects : (tree value true).flat = true → flatChecks checks = true →
    ∀ s v s₁ found s₂, evalExpr M value true (addressOf M obj) s = some (v, s₁) →
      select M obj checks s₁ = some (found, s₂) → ∀ pred values, Leads M blocks (here st₀.builder pred values s)
        (At (selectedBlock st.builder.count checks.length found) s₂)
  /-- From a body control goes to the exit or, with `continue`, to the next case. -/
  body : ∀ c body, bodies[c]? = some body → flat body = true → ∀ s e s', Exec M retArg (.stat body) s e s' →
    (e = .continu → c + 1 < bodies.length) → ∀ g, At (caseBlocksOf st.builder.count checks.length + c) s g →
      Leads M blocks g (BodyEnds M blocks (doneOf st.builder.count checks.length) (doneOf st.builder.count checks.length)
        (caseBlocksOf st.builder.count checks.length + (c + 1)) e s')
  /-- The exit goes on with what is after the switch. -/
  exit : alwaysReturns = false → ∀ s s', destroyAll M dtors s = some s' →
    ∀ g, At (doneOf st.builder.count checks.length) s g → Leads M blocks g (Ends M blocks {} after .normal s')
  /-- The check blocks and the case blocks are entered in no other way, whatever code comes after the switch. -/
  entries : ∀ (exits : ℕ → Prop) b', Spreads exits after b' →
    (∀ t, exits t → t < st.builder.count ∨ doneOf st.builder.count checks.length ≤ t) →
      ∀ k, ∀ i ∈ b'.blocks k, ∀ t ∈ i.targets, st.builder.count ≤ t → t < doneOf st.builder.count checks.length →
        SwitchEntry retArg obj checks bodies st k i t

theorem switchCase_length (st : State) : switchCase retArg obj checks bodies st bodies.length = switchFilled retArg obj checks bodies st := by
  have hall := run_emitCaseBodies_drop retArg (doneOf st.builder.count checks.length) bodies.length
    (caseBlocksOf st.builder.count checks.length) (switchLinked obj checks st) le_rfl
  rw [List.drop_length] at hall
  exact hall.symm

section Made

variable {st : State} (hst : Sound st.builder) (hne : checks ≠ []) (hcount : checks.countP Option.isNone ≤ 1)
  (hlength : checks.length = bodies.length) (hbodies : regularNodes bodies = true)

include hst hne hcount hlength hbodies in
theorem leads_case {c : ℕ} {body : StatCode} (hget : bodies[c]? = some body) (hflat : flat body = true) {s s' : σ}
    {e : Ending V} (hexec : Exec M retArg (.stat body) s e s') (hnext : e = .continu → c + 1 < bodies.length)
    {blocks : ℕ → Block Oper Const} (hext : Extends (switchFilled retArg obj checks bodies st).builder.blocks blocks)
    (g : Config V σ) (hg : At (caseBlocksOf st.builder.count checks.length + c) s g) :
    Leads M blocks g (BodyEnds M blocks (doneOf st.builder.count checks.length) (doneOf st.builder.count checks.length)
      (caseBlocksOf st.builder.count checks.length + (c + 1)) e s') := by
  obtain ⟨hlt, rfl⟩ := List.getElem?_eq_some_iff.mp hget
  have hcases := caseBlocks_fillCases retArg c hlt.le
    (caseBlocks_switchLinked obj hst.made hne hcount hlength hbodies)
  rw [List.drop_eq_getElem_cons hlt] at hcases
  have hrest : Extends ((emitCaseBody retArg bodies[c] (bodies.drop (c + 1)) (caseBlocksOf st.builder.count checks.length + c)
      (doneOf st.builder.count checks.length)).run (switchCase retArg obj checks bodies st c)).2.builder.blocks blocks := by
    have hgrown := ((hcases.tail retArg).visits_all retArg).grown
    rw [switchFilled, run_emitCaseBodies_drop retArg _ c _ _ hlt.le, List.drop_eq_getElem_cons hlt] at hext
    exact hgrown.trans hext
  refine leads_emitCaseBody hst hcases hflat (simPart_of_exec hexec) (fun he ↦ ?_) hrest g hg
  exact List.ne_nil_of_length_pos (by rw [List.length_drop]; exact Nat.sub_pos_of_lt (hnext he))

include hst hne hcount hlength hbodies in
/-- The branches to the blocks of a switch, also when there is code after it. -/
theorem target_emitCases {exits : ℕ → Prop} {b' : FuncBuilder} (hafter : Spreads exits
      ((emitCases obj checks (emitCaseBodies retArg bodies) alwaysReturns dtors).run st).2.builder b')
    (hexits : ∀ t, exits t → t < st.builder.count ∨ doneOf st.builder.count checks.length ≤ t) {k t : ℕ}
    {i : Inst Oper Const} (hi : i ∈ b'.blocks k) (ht : t ∈ i.targets) (hle : st.builder.count ≤ t)
    (hlt : t < doneOf st.builder.count checks.length) : SwitchEntry retArg obj checks bodies st k i t := by
  have hfrom := (visits_switchFilled retArg obj hst.made hne hcount hlength hbodies).from'
  have hidle := idle_switchFilled retArg obj hst.made hne hcount hlength hbodies
  have hmade : doneOf st.builder.count checks.length < (switchFilled retArg obj checks bodies st).builder.count := hidle.lt
  have hend : Spreads (fun _ ↦ False) ((switchFilled retArg obj checks bodies st).at (doneOf st.builder.count checks.length)).builder
      ((emitCases obj checks (emitCaseBodies retArg bodies) alwaysReturns dtors).run st).2.builder := by
    have hvalid := hidle.valid (sound_of_from hfrom hst)
    rw [run_emitCases_eq]
    cases alwaysReturns with
    | true => exact (Spreads.refl hvalid.made).append nofun
    | false =>
      have hstart : From (fun _ ↦ False) _ [] ((switchFilled retArg obj checks bodies st).at _) := ⟨.refl hvalid.made, nofun⟩
      exact (from_destroy dtors _ hstart).spreads
  have hold (hi : i ∈ (switchFilled retArg obj checks bodies st).builder.blocks k) :
      SwitchEntry retArg obj checks bodies st k i t := by
    rw [← switchCase_length] at hi
    exact target_switchCase hst hne hcount hlength hbodies ht hle hlt _ le_rfl hi
  rcases hafter.targets k i hi with hi | hnew
  · refine (hend.targets k i hi).elim hold fun hnew ↦ ?_
    exact absurd (hlt.trans hmade) ((hnew t ht).resolve_left id).1.not_gt
  · rcases hnew t ht with hexit | hnew
    · exact absurd (hexits t hexit) (not_or.mpr ⟨hle.not_gt, hlt.not_ge⟩)
    · exact absurd (hlt.trans (hmade.trans_le hend.count)) hnew.1.not_gt

end Made

theorem run_emitStat_swich (hne : checks ≠ []) (st₀ : State) :
    (emitStat retArg (.swich obj value checks bodies alwaysReturns dtors) flow).run st₀ =
      (emitCases obj checks (emitCaseBodies retArg bodies) alwaysReturns dtors).run
        ((genExpr value true (address obj)).run st₀).2 := by
  have hempty : ¬checks.isEmpty = true := fun hempty ↦ hne (List.isEmpty_iff.mp hempty)
  rw [emitStat]
  simp only [if_neg hempty]
  rfl

/-- A switch goes to the first case that is equal to its value, or else to the default case, or else to the exit, and
its blocks are entered in no other way; without cases there is just its value. -/
theorem switch_selects_case (hregular : regular (.swich obj value checks bodies alwaysReturns dtors) = true)
    {st₀ : State} (hst₀ : st₀.builder.Valid) {blocks : ℕ → Block Oper Const} (hext : Extends
      ((emitStat retArg (.swich obj value checks bodies alwaysReturns dtors) flow).run st₀).2.builder.blocks blocks) :
    (checks = [] → (tree value true).flat = true → ∀ s v s₁ s₂, evalExpr M value true (addressOf M obj) s = some (v, s₁) →
      destroyAll M dtors s₁ = some s₂ → ∀ pred values, Leads M blocks (here st₀.builder pred values s) (Ends M blocks flow
        ((emitStat retArg (.swich obj value checks bodies alwaysReturns dtors) flow).run st₀).2.builder .normal s₂)) ∧
    (checks ≠ [] → SelectsCase M retArg obj value checks bodies alwaysReturns dtors st₀
      ((genExpr value true (address obj)).run st₀).2
      ((emitStat retArg (.swich obj value checks bodies alwaysReturns dtors) flow).run st₀).2.builder blocks) := by
  constructor
  · rintro rfl hflat s v s₁ s₂ hvalue hdtors pred values
    have hflow : FlowMade {} st₀.builder := fun t ht ↦ by simp at ht
    have hlands : Lands M (emitStat retArg (.swich obj value [] bodies alwaysReturns dtors) {}) {} s .normal s₂ :=
      lands_swich hflat hvalue (fun _ ↦ rfl) (fun st hst ↦ (passes_of hst.made (from_destroy dtors)).grown) (lands_destroy hdtors)
    exact hlands st₀ hst₀ hflow blocks hext pred values
  · intro hne
    simp only [regular, Bool.and_eq_true, beq_iff_eq, decide_eq_true_eq] at hregular
    obtain ⟨hlength, hcount, hbodies⟩ := hregular
    -- Also code with branches inside its operands leaves blocks to go on with.
    have hstart : From (Before st₀.builder) st₀.builder [] st₀ := ⟨.refl hst₀.made, fun _ hk ↦ absurd hk List.not_mem_nil⟩
    have hst : Sound ((genExpr value true (address obj)).run st₀).2.builder :=
      sound_of_from (from_genExpr value true (address obj) st₀ hstart) (.of_valid hst₀)
    rw [run_emitStat_swich hne] at hext ⊢
    have hfilled := (grown_switchFilled hst hne hcount hlength hbodies).trans hext
    have hlinked := (grown_switchLinked hst hne hcount hlength hbodies).trans hext
    have hwhole := (grown_emitCases hst hne hcount hlength hbodies).trans hext
    exact {
      selects := fun hflatValue hflatChecks s v s₁ found s₂ hvalue hselect pred values ↦ by
        refine (does_genExpr hst₀ hflatValue hvalue).leads hwhole (fun pred values s hq ↦ ?_) pred
        obtain ⟨-, rfl⟩ := hq
        exact leads_checks hst hne hcount hlinked hflatChecks hselect pred values
      body := fun c body hget hflat s e s' hexec hnext ↦
        leads_case hst hne hcount hlength hbodies hget hflat hexec hnext hfilled
      exit := by
        rintro rfl s s' hdtors
        exact ends_switch hst hne hcount hlength hbodies hdtors hext {}
      entries := fun exits b' hafter hexits k i hi t ht hle hlt ↦
        target_emitCases hst hne hcount hlength hbodies hafter hexits hi ht hle hlt }

/-- No case is equal to the value, so that the default case is selected. -/
theorem selects_default : Leads (⟨fun _ ↦ true, fun _ _ _ ↦ some (false, ()), id⟩ : Machine Oper Const Bool Unit)
    ((emitStat 0 (.swich ⟨0, .btn .bool⟩ (.const (.bool true)) [some ⟨⟨1, .btn .bool⟩, .const (.bool false), []⟩, none]
      [.asgn .none, .brake []] false []) {}).run { builder := Blocks.newFunc }).2.builder.blocks
    (here Blocks.newFunc 0 (fun _ ↦ true) ()) (At (caseBlocksOf 2 2 + 1) ()) :=
  ((switch_selects_case rfl Blocks.newFunc_valid (.refl _)).2 (List.cons_ne_nil _ _)).selects rfl rfl () true () (some 1) () rfl rfl
    0 (fun _ ↦ true)

/-- The block of the only case is the condition of the loop in its body, so that the loop goes back to it. -/
theorem loop_reenters_case :
    let loop : StatCode := .wile ⟨.const (.bool false), []⟩ (.asgn .none)
    let checks := [some ⟨⟨1, .btn .bool⟩, .const (.bool true), []⟩]
    let code : StatCode := .swich ⟨0, .btn .bool⟩ (.const (.bool true)) checks [loop] false []
    findDefault checks = none ∧ continues loop = false ∧
      (((emitStat 0 code {}).run { builder := Blocks.newFunc }).2.builder.blocks 5).getLast?.map Inst.targets =
        some [caseBlocksOf 2 checks.length] :=
  ⟨rfl, rfl, by decide +kernel⟩

end Switch

end Stela.CodeGen.StatBlocks
