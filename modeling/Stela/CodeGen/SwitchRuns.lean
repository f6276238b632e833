import Stela.CodeGen.StatRuns

/-!
# Running the blocks of a switch

The check blocks and the case blocks of a switch are numbered consecutively. Case `c` is compared in check block
`c`, or in the one before it if the default case comes first; the last check block is then left over and branches
to the default case.
-/

namespace Stela.CodeGen.StatBlocks

open Stela.Syntax Stela.Library Stela.Library.ControlFlow
open Blocks (FuncBuilder Value Const Oper emit tree eval here RunsTo Emitted)

variable {V σ : Type} {M : Machine Oper Const V σ}

/-! ## Case checks -/

/-- The comparison of one case. -/
def emitCheck (value : Object) (check : CheckCode) (block caseBlock nextCheck : ℕ) : Gen Unit := do
  setCurr block
  let cond ← equalTo value check
  create (.condBr cond caseBlock nextCheck)

/-- Where the cases from `c` on are compared. -/
def entryOf (checkBlocks done size : ℕ) (defaultIndex : Option ℕ) (c : ℕ) : ℕ :=
  if c = size ∧ defaultIndex = none then done else checkBlocks + checkIndexOfCase c defaultIndex

theorem entryOf_some (checkBlocks done size d c : ℕ) :
    entryOf checkBlocks done size (some d) c = checkBlocks + checkIndexOfCase c (some d) :=
  if_neg fun h ↦ Option.some_ne_none d h.2

theorem run_emitCaseChecks_check (value : Object) {checkBlocks caseBlocks done size c : ℕ} {defaultIndex : Option ℕ}
    (check : CheckCode) (checks : List (Option CheckCode)) (hlt : c < size) (hne : defaultIndex ≠ some c)
    (hdefault : ∀ d, defaultIndex = some d → d < size) (st : State) :
    (emitCaseChecks value checkBlocks caseBlocks done size defaultIndex (some check :: checks) c).run st =
      (emitCaseChecks value checkBlocks caseBlocks done size defaultIndex checks (c + 1)).run
        ((emitCheck value check (checkBlocks + checkIndexOfCase c defaultIndex) (caseBlocks + c)
          (entryOf checkBlocks done size defaultIndex (c + 1))).run st).2 := by
  have hnext : (if !pastDefaultCase c defaultIndex ∧ c = size - 1 then done
      else checkBlocks + (checkIndexOfCase c defaultIndex + 1)) = entryOf checkBlocks done size defaultIndex (c + 1) := by
    have hindex := checkIndexOfCase_succ hne
    cases defaultIndex with
    | none =>
      have hiff : c = size - 1 ↔ c + 1 = size := by omega
      simp [entryOf, hindex, pastDefaultCase, hiff]
    | some d =>
      have hd := hdefault d rfl
      have hne : d ≠ c := fun heq ↦ hne (congrArg some heq)
      have hpast : ¬((!pastDefaultCase c (some d)) = true ∧ c = size - 1) := by
        simp only [pastDefaultCase, Bool.not_eq_true', decide_eq_false_iff_not]
        omega
      rw [if_neg hpast, entryOf_some, hindex]
  rw [← hnext]
  rfl

theorem does_equalTo {value : Object} {check : CheckCode} {st : State} {values : ℕ → V} {s s' : σ} {equal : Bool}
    (hst : st.builder.Valid) (hflat : (tree check.init.code true).flat = true)
    (h : evalCheck M value check s = some (equal, s')) :
    Does M (equalTo value check) st values s fun operand _ values' s'' ↦
      M.truth (operand.eval M values') = equal ∧ s'' = s' := by
  obtain ⟨⟨v, s₁⟩, hinit, h⟩ := Option.bind_eq_some_iff.mp h
  obtain ⟨⟨v', s₂⟩, hequal, h⟩ := Option.bind_eq_some_iff.mp h
  obtain ⟨s₃, hdestroy, h⟩ := Option.bind_eq_some_iff.mp h
  cases h
  refine (does_genExpr hst hflat hinit).bind fun values₁ _ hvalid _ _ ⟨_, heq⟩ ↦ ?_
  refine Does.bind (does_createOp hvalid (heq ▸ hequal)) fun values₂ _ hvalid _ _ ⟨hv, heq⟩ ↦ ?_
  refine (does_destroy _ hvalid (heq ▸ hdestroy)).bind fun values₃ _ hvalid hsame _ heq ↦ .pure hvalid ⟨?_, heq⟩
  rw [hv.1.eval_eq M hsame, hv.2]

theorem leads_emitCheck {value : Object} {check : CheckCode} {block caseBlock nextCheck : ℕ} {st : State} {s s' : σ}
    {equal : Bool} (hidle : Idle block st.builder) (hst : Sound st.builder)
    (hflat : (tree check.init.code true).flat = true) (h : evalCheck M value check s = some (equal, s'))
    {blocks : ℕ → Block Oper Const}
    (hext : Extends ((emitCheck value check block caseBlock nextCheck).run st).2.builder.blocks blocks) (c : Config V σ)
    (hc : At block s c) : Leads M blocks c (At (if equal then caseBlock else nextCheck) s') := by
  obtain ⟨pred, values, rfl⟩ := hc
  rw [← hidle.here pred values s]
  have hdoes : Does M (equalTo value check) (st.at block) values s fun operand _ values' s'' ↦
      M.truth (operand.eval M values') = equal ∧ s'' = s' := does_equalTo (hidle.valid hst) hflat h
  refine hdoes.leads ((Builder.extends_append _ _).trans hext) (fun pred values s hq ↦ ?_) pred
  obtain ⟨rfl, rfl⟩ := hq
  exact ⟨_, .single (.condBr (Builder.getElem?_of_append hext)), _, values, rfl⟩

/-- Code that enters blocks which have been made before. The blocks with the property go on waiting. -/
structure Visits (b : FuncBuilder) (ks : List ℕ) (waits : ℕ → Prop) (st st' : State) : Prop where
  from' : From (Before b) b ks st'
  grown : Extends st.builder.blocks st'.builder.blocks
  count : st.builder.count ≤ st'.builder.count
  idle : ∀ k, waits k → Idle k st.builder → Idle k st'.builder

theorem Visits.trans {b : FuncBuilder} {ks : List ℕ} {waits : ℕ → Prop} {st st' st'' : State} (h : Visits b ks waits st st')
    (h' : Visits b ks waits st' st'') : Visits b ks waits st st'' :=
  ⟨h'.from', h.grown.trans h'.grown, h.count.trans h'.count, fun k hk hidle ↦ h'.idle k hk (h.idle k hk hidle)⟩

theorem Visits.mono {b : FuncBuilder} {ks : List ℕ} {waits waits' : ℕ → Prop} {st st' : State} (h : Visits b ks waits st st')
    (hwaits : ∀ k, waits' k → waits k) : Visits b ks waits' st st' :=
  ⟨h.from', h.grown, h.count, fun k hk ↦ h.idle k (hwaits k hk)⟩

/-- A block is entered, and then code is put into it. -/
theorem visits_block {b : FuncBuilder} {ks : List ℕ} {block : ℕ} {st st' : State} (hpasses : Passes (st.at block).builder st'.builder)
    (hfrom : From (Before b) b ks st') : Visits b ks (· ≠ block) st st' :=
  ⟨hfrom, hpasses.grown, hpasses.count, fun _ hk hidle ↦ (hidle.setCurr hk).passes hpasses⟩

section Blocks

variable {b : FuncBuilder} {ks : List ℕ}

theorem visits_emitCheck {value : Object} {check : CheckCode} {block caseBlock nextCheck : ℕ} {st : State}
    (h : From (Before b) b ks st) (hblock : block ∈ ks) (hcase : caseBlock ∈ ks) (hnext : nextCheck ∈ ks) :
    Visits b ks (· ≠ block) st ((emitCheck value check block caseBlock nextCheck).run st).2 := by
  have hentered := from_setCurr hblock st h
  have hpasses : Passes (st.at block).builder
      ((equalTo value check >>= fun cond ↦ create (.condBr cond caseBlock nextCheck)).run (st.at block)).2.builder :=
    passes_of hentered.spreads.made ((from_equalTo value check).bind fun _ ↦ from_condBr (.inr trivial) (.inr trivial))
  refine visits_block hpasses ?_
  exact ((from_equalTo value check).bind fun _ ↦ from_condBr (.inl hcase) (.inl hnext)) _ hentered

section Checks

variable {value : Object} {checkBlocks caseBlocks done size : ℕ} {defaultIndex : Option ℕ}
  (hchecks : ∀ k < size, checkBlocks + k ∈ ks) (hcases : ∀ k < size, caseBlocks + k ∈ ks) (hdone : done ∈ ks)
  (hdefault : ∀ d, defaultIndex = some d → d < size)

include hchecks hdone hdefault in
theorem entryOf_mem {c : ℕ} (hle : c ≤ size) : entryOf checkBlocks done size defaultIndex c ∈ ks := by
  rw [entryOf]
  split
  · exact hdone
  · rename_i hnot
    refine hchecks _ ?_
    cases defaultIndex with
    | none => exact (Nat.sub_le _ _).trans_lt (lt_of_le_of_ne hle fun heq ↦ hnot ⟨heq, rfl⟩)
    | some d =>
      have hd := hdefault d rfl
      rw [checkIndexOfCase]
      by_cases hpast : d < c
      · simp only [pastDefaultCase, hpast, decide_true, Bool.toNat_true]
        omega
      · simp only [pastDefaultCase, hpast, decide_false, Bool.toNat_false]
        omega

theorem checkIndexOfCase_mono {c c' : ℕ} (defaultIndex : Option ℕ) (hle : c ≤ c') :
    checkIndexOfCase c defaultIndex ≤ checkIndexOfCase c' defaultIndex := by
  cases defaultIndex with
  | none => exact hle
  | some d =>
    simp only [checkIndexOfCase, pastDefaultCase]
    by_cases hpast : d < c
    · simp only [hpast, hpast.trans_le hle, decide_true, Bool.toNat_true]
      omega
    · simp only [hpast, decide_false, Bool.toNat_false]
      by_cases hpast' : d < c'
      · simp only [hpast', decide_true, Bool.toNat_true]
        omega
      · simp only [hpast', decide_false, Bool.toNat_false]
        omega

/-- The check blocks of the cases from `c` on. -/
def InChecks (checkBlocks size : ℕ) (defaultIndex : Option ℕ) (c k : ℕ) : Prop :=
  ∃ j, checkIndexOfCase c defaultIndex ≤ j ∧ j < checkIndexOfCase size defaultIndex ∧ k = checkBlocks + j

/-- The check block of a case that is not the default one, and those of the cases after it. -/
theorem inChecks_succ {c : ℕ} (hne : defaultIndex ≠ some c) (hlt : c < size) (k : ℕ) :
    InChecks checkBlocks size defaultIndex c k ↔
      k = checkBlocks + checkIndexOfCase c defaultIndex ∨ InChecks checkBlocks size defaultIndex (c + 1) k := by
  have hindex := checkIndexOfCase_succ hne
  have hmono : checkIndexOfCase (c + 1) defaultIndex ≤ checkIndexOfCase size defaultIndex :=
    checkIndexOfCase_mono defaultIndex (Nat.succ_le_of_lt hlt)
  unfold InChecks
  constructor
  · rintro ⟨j, hle, hlt, rfl⟩
    rcases hle.eq_or_lt with rfl | hafter
    · exact .inl rfl
    · exact .inr ⟨j, by omega, hlt, rfl⟩
  · rintro (rfl | ⟨j, hle, hlt, rfl⟩)
    · exact ⟨_, le_rfl, by omega, rfl⟩
    · exact ⟨j, by omega, hlt, rfl⟩

theorem inChecks_default {c : ℕ} (h : defaultIndex = some c) (k : ℕ) :
    InChecks checkBlocks size defaultIndex c k ↔ InChecks checkBlocks size defaultIndex (c + 1) k := by
  subst h
  rw [InChecks, InChecks, checkIndexOfCase_default]

include hchecks hcases hdone hdefault in
/-- The check block of one case is filled. -/
theorem visits_check (value : Object) (check : CheckCode) {c : ℕ} (hlt : c < size) {st : State} (h : From (Before b) b ks st) :
    Visits b ks (· ≠ checkBlocks + checkIndexOfCase c defaultIndex) st
      ((emitCheck value check (checkBlocks + checkIndexOfCase c defaultIndex) (caseBlocks + c)
        (entryOf checkBlocks done size defaultIndex (c + 1))).run st).2 := by
  have hindex : checkIndexOfCase c defaultIndex < size := (Nat.sub_le _ _).trans_lt hlt
  exact visits_emitCheck h (hchecks _ hindex) (hcases c hlt) (entryOf_mem hchecks hdone hdefault (Nat.succ_le_of_lt hlt))

include hchecks hcases hdone hdefault in
/-- The check blocks from that of case `c` on are filled. -/
theorem visits_emitCaseChecks (value : Object) : (checks : List (Option CheckCode)) → (c : ℕ) → c + checks.length ≤ size →
    Aligned defaultIndex checks c → {st : State} → From (Before b) b ks st →
    Visits b ks (fun k ↦ ¬InChecks checkBlocks size defaultIndex c k) st
      ((emitCaseChecks value checkBlocks caseBlocks done size defaultIndex checks c).run st).2
  | [], _, _, _, _, h => ⟨h, .refl _, le_rfl, fun _ _ ↦ id⟩
  | none :: checks, c, hsize, haligned, _, h => by
    have hrest := visits_emitCaseChecks value checks (c + 1) (le_of_length_cons hsize) haligned.2 h
    exact hrest.mono fun k hk hin ↦ hk ((inChecks_default (haligned.1.mp rfl) k).mpr hin)
  | some check :: checks, c, hsize, haligned, st, h => by
    have hlt : c < size := lt_of_length_cons hsize
    have hne : defaultIndex ≠ some c := fun heq ↦ nomatch haligned.1.mpr heq
    have hstep := visits_check hchecks hcases hdone hdefault value check hlt h
    have hrest := visits_emitCaseChecks value checks (c + 1) (le_of_length_cons hsize) haligned.2 hstep.from'
    rw [run_emitCaseChecks_check value check checks hlt hne hdefault]
    refine (hstep.mono fun k hk heq ↦ ?_).trans (hrest.mono fun k hk hin ↦ ?_)
    · exact hk ((inChecks_succ hne hlt k).mpr (.inl heq))
    · exact hk ((inChecks_succ hne hlt k).mpr (.inr hin))

/-- Where the search for a case ends. -/
def foundBlock (checkBlocks caseBlocks done size : ℕ) (defaultIndex : Option ℕ) : Option ℕ → ℕ
  | some i => caseBlocks + i
  | none => entryOf checkBlocks done size defaultIndex size

include hchecks hcases hdone hdefault in
/-- The cases from `c` on are compared in order, up to the first one that is equal to the value. -/
theorem leads_emitCaseChecks (hb : Sound b) : (checks : List (Option CheckCode)) → (c : ℕ) → c + checks.length = size →
    Aligned defaultIndex checks c → flatChecks checks = true → {st : State} → From (Before b) b ks st →
    (∀ k, InChecks checkBlocks size defaultIndex c k → Idle k st.builder) → {s s' : σ} → {found : Option ℕ} →
    firstEqual M value checks c s = some (found, s') → {blocks : ℕ → Block Oper Const} →
    Extends ((emitCaseChecks value checkBlocks caseBlocks done size defaultIndex checks c).run st).2.builder.blocks blocks →
    (g : Config V σ) → At (entryOf checkBlocks done size defaultIndex c) s g →
    Leads M blocks g (At (foundBlock checkBlocks caseBlocks done size defaultIndex found) s')
  | [], c, hsize, _, _, _, _, _, _, _, _, hfirst, _, _, g, hg => by
    cases hfirst
    obtain rfl : c = size := hsize
    exact .here hg
  | none :: checks, c, hsize, haligned, hflat, st, h, hidle, _, _, _, hfirst, _, hext, g, hg => by
    have hc := haligned.1.mp rfl
    have hentry : entryOf checkBlocks done size defaultIndex c = entryOf checkBlocks done size defaultIndex (c + 1) := by
      rw [hc, entryOf_some, entryOf_some, checkIndexOfCase_default]
    exact leads_emitCaseChecks hb checks (c + 1) (by rw [← hsize, List.length_cons]; omega) haligned.2 hflat h
      (fun k hk ↦ hidle k ((inChecks_default hc k).mpr hk)) hfirst hext g (hentry ▸ hg)
  | some check :: checks, c, hsize, haligned, hflat, st, h, hidle, s, s', found, hfirst, blocks, hext, g, hg => by
    have hlt : c < size := lt_of_length_cons hsize.le
    have hne : defaultIndex ≠ some c := fun heq ↦ nomatch haligned.1.mpr heq
    obtain ⟨hflatCheck, hflat⟩ := Bool.and_eq_true_iff.mp hflat
    obtain ⟨⟨equal, s₁⟩, hcheck, hfirst⟩ := Option.bind_eq_some_iff.mp hfirst
    have hstep := visits_check hchecks hcases hdone hdefault value check hlt h
    have hrest := visits_emitCaseChecks hchecks hcases hdone hdefault value checks (c + 1)
      (le_of_length_cons hsize.le) haligned.2 hstep.from'
    rw [run_emitCaseChecks_check value check checks hlt hne hdefault] at hext
    have hentry : entryOf checkBlocks done size defaultIndex c = checkBlocks + checkIndexOfCase c defaultIndex :=
      if_neg fun h ↦ hlt.ne h.1
    have hhere := hidle _ ((inChecks_succ hne hlt _).mpr (.inl rfl))
    have hleads := leads_emitCheck hhere (sound_of_from h hb) hflatCheck hcheck (hrest.grown.trans hext) g (hentry ▸ hg)
    cases equal with
    | true =>
      cases hfirst
      exact hleads
    | false =>
      refine hleads.bind fun g hg ↦ ?_
      refine leads_emitCaseChecks hb checks (c + 1) (by rw [← hsize, List.length_cons]; omega) haligned.2 hflat hstep.from'
        (fun k hk ↦ hstep.idle k ?_ (hidle k ((inChecks_succ hne hlt k).mpr (.inr hk)))) hfirst hext g hg
      obtain ⟨j, hle, -, rfl⟩ := hk
      rw [checkIndexOfCase_succ hne] at hle
      omega

end Checks

end Blocks

/-! ## Case bodies -/

section Bodies

variable {retArg : ℕ}

/-- What the jumps in the body of a case go to. -/
def caseFlow (bodies : List StatCode) (block done : ℕ) : FlowData :=
  ⟨some done, if bodies.isEmpty then none else some (block + 1)⟩

/-- The body of the case whose block is given, where `bodies` are those of the cases after it. -/
def emitCaseBody (retArg : ℕ) (body : StatCode) (bodies : List StatCode) (block done : ℕ) : Gen Unit := do
  setCurr block
  emitStat retArg body (caseFlow bodies block done)
  terminate done

variable {b : FuncBuilder} {ks : List ℕ} {body : StatCode} {bodies : List StatCode} {block done : ℕ}

/-- The blocks that the bodies use are there. -/
structure CaseBlocks (b : FuncBuilder) (ks : List ℕ) (bodies : List StatCode) (block done : ℕ) (st : State) : Prop where
  from' : From (Before b) b ks st
  regular' : regularNodes bodies = true
  done : done ∈ ks
  blocks : ∀ k < bodies.length, block + k ∈ ks
  idle : ∀ k < bodies.length, Idle (block + k) st.builder

theorem CaseBlocks.flowMade (h : CaseBlocks b ks (body :: bodies) block done st) :
    FlowMade (caseFlow bodies block done) st.builder := by
  rintro t (ht | ht)
  · cases ht
    exact (h.from'.blocks _ h.done).2
  · cases bodies with
    | nil => cases ht
    | cons next bodies =>
      cases ht
      exact (h.from'.blocks _ (h.blocks 1 (Nat.succ_lt_succ (Nat.succ_pos _)))).2

variable (retArg) in
theorem CaseBlocks.visits (h : CaseBlocks b ks (body :: bodies) block done st) :
    Visits b ks (· ≠ block) st ((emitCaseBody retArg body bodies block done).run st).2 := by
  have hbody : regular body = true := (Bool.and_eq_true_iff.mp h.regular').1
  have hspreads : SpreadsGen (emitStat retArg body (caseFlow bodies block done)) (caseFlow bodies block done) :=
    spreadsGen_emitStat hbody _
  have hentered := enters_setCurr (h.blocks 0 (Nat.succ_pos _)) st h.from'
  have hpasses : Passes (st.at block).builder
      ((emitStat retArg body (caseFlow bodies block done)).run (st.at block)).2.builder :=
    hspreads.passes hentered.1.spreads.made
  have hdone : Triple (From (Before b) b ks) (terminate done) fun _ ↦ From (Before b) b ks :=
    from_terminate (.inl h.done)
  have hrun : From (Before b) b ks ((emitStat retArg body (caseFlow bodies block done)).run (st.at block)).2 := by
    refine from_body (spreads_emitStat retArg body hbody _) (fun _ t ht ↦ .inl ?_) (fun _ t ht ↦ .inl ?_) _ hentered
    · cases ht
      exact h.done
    · cases bodies with
      | nil => cases ht
      | cons next bodies =>
        cases ht
        exact h.blocks 1 (Nat.succ_lt_succ (Nat.succ_pos _))
  exact visits_block (hpasses.trans (passes_terminate done hrun.spreads.made) fun _ ↦ .inl) (hdone _ hrun)

variable (retArg) in
theorem CaseBlocks.tail (h : CaseBlocks b ks (body :: bodies) block done st) :
    CaseBlocks b ks bodies (block + 1) done ((emitCaseBody retArg body bodies block done).run st).2 where
  from' := (h.visits retArg).from'
  regular' := (Bool.and_eq_true_iff.mp h.regular').2
  done := h.done
  blocks := fun k hk ↦ Nat.add_assoc block 1 k ▸ Nat.add_comm k 1 ▸ h.blocks (k + 1) (Nat.succ_lt_succ hk)
  idle := by
    intro k hk
    have hidle := h.idle (k + 1) (Nat.succ_lt_succ hk)
    rw [Nat.add_assoc, Nat.add_comm 1 k]
    exact (h.visits retArg).idle _ (by omega) hidle

variable (retArg) in
/-- All bodies from this one on. -/
theorem CaseBlocks.visits_all : {bodies : List StatCode} → {block : ℕ} → {st : State} →
    CaseBlocks b ks bodies block done st →
    Visits b ks (fun k ↦ ∀ i < bodies.length, k ≠ block + i) st ((emitCaseBodies retArg bodies block done).run st).2
  | [], _, _, h => ⟨h.from', .refl _, le_rfl, fun _ _ ↦ id⟩
  | body :: bodies, block, st, h => by
    refine ((h.visits retArg).mono fun k hk ↦ hk 0 (Nat.succ_pos _)).trans ((h.tail retArg).visits_all.mono fun k hk i hi ↦ ?_)
    rw [Nat.add_assoc, Nat.add_comm 1 i]
    exact hk (i + 1) (Nat.succ_lt_succ hi)

/-- The body of a case: its end and its `break` lead to the end of the switch, its `continue` to the next case. -/
theorem leads_emitCaseBody (hb : Sound b) (h : CaseBlocks b ks (body :: bodies) block done st) {s s' : σ} {e : Ending V}
    (hflat : flat body = true) (hsim : SimStat M retArg body s e s') (hnext : e = .continu → bodies ≠ [])
    {blocks : ℕ → Block Oper Const}
    (hext : Extends ((emitCaseBody retArg body bodies block done).run st).2.builder.blocks blocks) (g : Config V σ)
    (hg : At block s g) : Leads M blocks g (BodyEnds M blocks done done (block + 1) e s') := by
  obtain ⟨pred, values, rfl⟩ := hg
  have hidle : Idle block st.builder := h.idle 0 (Nat.succ_pos _)
  have hregular : regular body = true := (Bool.and_eq_true_iff.mp h.regular').1
  rw [← hidle.here pred values s]
  have hvalid : (st.at block).builder.Valid := hidle.valid (sound_of_from h.from' hb)
  have hcontinue (he : e = .continu) : (caseFlow bodies block done).continueBlock = some (block + 1) :=
    if_neg fun hempty ↦ hnext he (List.isEmpty_iff.mp hempty)
  have hmade := (spreads_emitStat retArg body hregular (caseFlow bodies block done) _ hvalid.made).made
  exact leads_body rfl hcontinue hvalid h.flowMade (hsim hregular hflat _) (passes_terminate done hmade).grown hext pred values

/-- The bodies of the cases, from the selected one on, run as they say. -/
def SimCases (M : Machine Oper Const V σ) (retArg : ℕ) (bodies : List StatCode) (s : σ) (e : Ending V) (s' : σ) : Prop :=
  ∀ (b : FuncBuilder) ks block done st, Sound b → flatNodes bodies = true → CaseBlocks b ks bodies block done st →
    ∀ blocks, Extends ((emitCaseBodies retArg bodies block done).run st).2.builder.blocks blocks →
      ∀ g, At block s g → Leads M blocks g (WholeEnds M blocks done e s')

theorem simCases_end {s s' : σ} {e e' : Ending V} (hsim : SimStat M retArg body s e s')
    (hend : e = .normal ∧ e' = .normal ∨ e = .brake ∧ e' = .normal ∨ ∃ value, e = .ret value ∧ e' = .ret value) :
    SimCases M retArg (body :: bodies) s e' s' := by
  intro b ks block done st hb hflat h blocks hext g hg
  have hnext : e = .continu → bodies ≠ [] := by
    rintro rfl
    simp at hend
  have hleads := leads_emitCaseBody hb h (Bool.and_eq_true_iff.mp hflat).1 hsim hnext
    (((h.tail retArg).visits_all retArg).grown.trans hext) g hg
  obtain ⟨rfl, rfl⟩ | ⟨rfl, rfl⟩ | ⟨value, rfl, rfl⟩ := hend
  · exact hleads
  · exact hleads
  · exact hleads

theorem simCases_continue {next : StatCode} {s s' s'' : σ} {e : Ending V} (hsim : SimStat M retArg body s .continu s')
    (hrest : SimCases M retArg (next :: bodies) s' e s'') : SimCases M retArg (body :: next :: bodies) s e s'' := by
  intro b ks block done st hb hflat h blocks hext g hg
  obtain ⟨hflatBody, hflatRest⟩ := Bool.and_eq_true_iff.mp hflat
  have hleads := leads_emitCaseBody hb h hflatBody hsim (fun _ ↦ List.cons_ne_nil _ _)
    (((h.tail retArg).visits_all retArg).grown.trans hext) g hg
  exact hleads.bind fun g hg ↦ hrest b ks (block + 1) done _ hb hflatRest (h.tail retArg) blocks hext g hg

/-- The case that is selected is not the first one. -/
theorem leads_emitCaseBodies_drop (hb : Sound b) {s s' : σ} {e : Ending V} {blocks : ℕ → Block Oper Const} :
    (bodies : List StatCode) → (c : ℕ) → {block : ℕ} → {st : State} → SimCases M retArg (bodies.drop c) s e s' →
      flatNodes bodies = true → CaseBlocks b ks bodies block done st →
      Extends ((emitCaseBodies retArg bodies block done).run st).2.builder.blocks blocks →
      (g : Config V σ) → At (block + c) s g → Leads M blocks g (WholeEnds M blocks done e s')
  | bodies, 0, _, _, hsim, hflat, h, hext, g, hg => hsim b ks _ done _ hb hflat h blocks hext g hg
  | [], c + 1, block, st, hsim, hflat, h, hext, g, hg =>
    hsim b ks (block + (c + 1)) done st hb hflat
      ⟨h.from', rfl, h.done, fun _ hk ↦ absurd hk (Nat.not_lt_zero _), fun _ hk ↦ absurd hk (Nat.not_lt_zero _)⟩ blocks hext g hg
  | body :: bodies, c + 1, block, _, hsim, hflat, h, hext, g, hg => by
    refine leads_emitCaseBodies_drop hb bodies c hsim (Bool.and_eq_true_iff.mp hflat).2 (h.tail retArg) hext g ?_
    rwa [Nat.add_assoc, Nat.add_comm 1 c]

end Bodies

/-! ## The whole switch -/

section Switch

variable (retArg : ℕ) (obj : Object) (checks : List (Option CheckCode)) (bodies : List StatCode)

/-- The numbers of the blocks of a switch, where so many blocks have been made before. -/
def caseBlocksOf (count size : ℕ) : ℕ := count + size

def doneOf (count size : ℕ) : ℕ := count + size + size

/-- The blocks have been made, and control goes to the first check block. -/
def switchEntered (st : State) : State :=
  { st with builder := { st.builder with count := doneOf st.builder.count checks.length + 1 }.append (.br st.builder.count) }

/-- The first `c` cases have been compared. -/
def switchChecked (c : ℕ) (st : State) : State :=
  ((emitCaseChecks obj st.builder.count (caseBlocksOf st.builder.count checks.length) (doneOf st.builder.count checks.length)
    checks.length (findDefault checks) (checks.take c) 0).run (switchEntered checks st)).2

def switchLinked (st : State) : State :=
  ((linkDefault (st.builder.count + (checks.length - 1)) (caseBlocksOf st.builder.count checks.length) (findDefault checks)).run
    (switchChecked obj checks checks.length st)).2

/-- The bodies have been put into the case blocks. -/
def switchFilled (st : State) : State :=
  ((emitCaseBodies retArg bodies (caseBlocksOf st.builder.count checks.length) (doneOf st.builder.count checks.length)).run
    (switchLinked obj checks st)).2

def endSwitch (alwaysReturns : Bool) (dtors : List Object) : Gen Unit :=
  if alwaysReturns then create .unreachable else destroy dtors

variable {retArg obj checks bodies}

theorem run_emitCases_eq (alwaysReturns : Bool) (dtors : List Object) (st : State) :
    (emitCases obj checks (emitCaseBodies retArg bodies) alwaysReturns dtors).run st =
      (endSwitch alwaysReturns dtors).run
        ((switchFilled retArg obj checks bodies st).at (doneOf st.builder.count checks.length)) := by
  have hmade : (makeBlocks checks.length).run st = (st.builder.count,
      { st with builder := { st.builder with count := st.builder.count + checks.length } }) := run_makeBlocks _ _
  have hmade' : (makeBlocks checks.length).run { st with builder := { st.builder with count := st.builder.count + checks.length } } =
      (caseBlocksOf st.builder.count checks.length,
        { st with builder := { st.builder with count := doneOf st.builder.count checks.length } }) := run_makeBlocks _ _
  unfold emitCases
  rw [StateT.run_bind, hmade]
  change StateT.run (makeBlocks checks.length >>= _) _ = _
  rw [StateT.run_bind, hmade', switchFilled, switchLinked, switchChecked, List.take_length]
  rfl

/-- The blocks of a switch that are filled. -/
def blocksOf (count size : ℕ) : List ℕ :=
  List.range' count (size + size + 1)

theorem mem_blocksOf {count size k : ℕ} : k ∈ blocksOf count size ↔ count ≤ k ∧ k < doneOf count size + 1 := by
  rw [blocksOf, List.mem_range'_1, doneOf]
  omega

theorem check_mem {count size j : ℕ} (hj : j < size) : count + j ∈ blocksOf count size :=
  mem_blocksOf.mpr (by rw [doneOf]; omega)

theorem case_mem {count size c : ℕ} (hc : c < size) : caseBlocksOf count size + c ∈ blocksOf count size :=
  mem_blocksOf.mpr (by rw [doneOf, caseBlocksOf]; omega)

theorem done_mem (count size : ℕ) : doneOf count size ∈ blocksOf count size :=
  mem_blocksOf.mpr (by rw [doneOf]; omega)

section Stages

variable {st : State} (hst : st.builder.Made) (hne : checks ≠ []) (hcount : checks.countP Option.isNone ≤ 1)

include hst hne in
theorem from_switchEntered :
    From (Before st.builder) st.builder (blocksOf st.builder.count checks.length) (switchEntered checks st) := by
  have hpos : 0 < checks.length := List.length_pos_of_ne_nil hne
  have hfrom : From (Before st.builder) st.builder (blocksOf st.builder.count checks.length)
      { st with builder := { st.builder with count := doneOf st.builder.count checks.length + 1 } } := by
    refine ⟨?_, fun k hk ↦ ?_⟩
    · have hmade : Spreads (Before st.builder) st.builder _ :=
        (Spreads.refl hst).makeBlocks (checks.length + checks.length + 1)
      rwa [← Nat.add_assoc, ← Nat.add_assoc] at hmade
    · obtain ⟨hle, hlt⟩ := mem_blocksOf.mp hk
      exact ⟨.inr hle, hlt⟩
  exact from_br (.inl (check_mem hpos)) _ hfrom

include hst in
/-- A block of the switch waits until it is entered. -/
theorem idle_switchEntered {k : ℕ} (hk : k ∈ blocksOf st.builder.count checks.length) :
    Idle k (switchEntered checks st).builder := by
  obtain ⟨hle, hlt⟩ := mem_blocksOf.mp hk
  have hne : st.builder.curr ≠ k := (hst.curr.trans_le hle).ne
  refine ⟨hlt, hne.symm, ?_⟩
  exact (Builder.append_blocks_of_ne
    (b := { st.builder with count := doneOf st.builder.count checks.length + 1 }) hne _).trans (hst.unmade k hle)

theorem aligned_take {defaultIndex : Option ℕ} : (checks : List (Option CheckCode)) → (c n : ℕ) →
    Aligned defaultIndex checks c → Aligned defaultIndex (checks.take n) c
  | [], _, n, _ => by rw [List.take_nil]; trivial
  | _ :: _, _, 0, _ => trivial
  | _ :: checks, c, n + 1, h => ⟨h.1, aligned_take checks (c + 1) n h.2⟩

include hcount in
theorem aligned_checks : Aligned (findDefault checks) checks 0 := by
  simpa using aligned_findDefault checks 0 hcount

variable (obj) in
include hst hne hcount in
theorem visits_switchChecked (c : ℕ) :
    Visits st.builder (blocksOf st.builder.count checks.length)
      (fun k ↦ ¬InChecks st.builder.count checks.length (findDefault checks) 0 k) (switchEntered checks st)
      (switchChecked obj checks c st) :=
  visits_emitCaseChecks (fun _ hk ↦ check_mem hk) (fun _ hk ↦ case_mem hk) (done_mem _ _) (fun _ hd ↦ findDefault_lt hd) obj _ 0
    ((Nat.zero_add _).trans_le (List.length_take_le' _ _)) (aligned_take _ _ _ (aligned_checks hcount))
    (from_switchEntered hst hne)

/-- A case block is not a check block. -/
theorem case_not_inChecks {count size : ℕ} {defaultIndex : Option ℕ} {k : ℕ} (hk : caseBlocksOf count size ≤ k) :
    ¬InChecks count size defaultIndex 0 k := by
  rintro ⟨j, -, hlt, rfl⟩
  have hj : j < size := hlt.trans_le (Nat.sub_le _ _)
  rw [caseBlocksOf] at hk
  omega

variable (obj) in
include hst hne hcount in
theorem idle_switchChecked {k : ℕ} (hk : k ∈ blocksOf st.builder.count checks.length) (c : ℕ)
    (hwaits : ¬InChecks st.builder.count checks.length (findDefault checks) 0 k) :
    Idle k (switchChecked obj checks c st).builder :=
  (visits_switchChecked obj hst hne hcount c).idle k hwaits (idle_switchEntered hst hk)

/-- The block that is left over for the default case. -/
theorem last_not_inChecks {count size d : ℕ} (hd : d < size) :
    ¬InChecks count size (some d) 0 (count + (size - 1)) := by
  rintro ⟨j, -, hlt, heq⟩
  simp only [checkIndexOfCase, pastDefaultCase, hd, decide_true, Bool.toNat_true] at hlt
  omega

theorem run_linkDefault_some (source caseBlocks d : ℕ) (st : State) :
    ((linkDefault source caseBlocks (some d)).run st).2 =
      { st with builder := ((st.builder.setCurr source).append (.br (caseBlocks + d))).setCurr st.builder.curr } := rfl

variable (obj) in
include hst hne hcount in
theorem visits_switchLinked : Visits st.builder (blocksOf st.builder.count checks.length)
    (fun k ↦ caseBlocksOf st.builder.count checks.length ≤ k) (switchChecked obj checks checks.length st)
    (switchLinked obj checks st) := by
  have hpos : 0 < checks.length := List.length_pos_of_ne_nil hne
  have hfrom := (visits_switchChecked obj hst hne hcount checks.length).from'
  rw [switchLinked]
  cases hdefault : findDefault checks with
  | none => exact ⟨hfrom, .refl _, le_rfl, fun _ _ ↦ id⟩
  | some d =>
    have hlinked := from_link (check_mem (Nat.sub_lt hpos Nat.one_pos)) (case_mem (findDefault_lt hdefault)) _ hfrom
    refine ⟨hlinked, ?_, le_rfl, fun k hk hidle ↦ ?_⟩
    · rw [run_linkDefault_some]
      exact Builder.extends_append ((switchChecked obj checks checks.length st).builder.setCurr
        (st.builder.count + (checks.length - 1))) (.br (caseBlocksOf st.builder.count checks.length + d))
    · have hne : st.builder.count + (checks.length - 1) ≠ k := by
        rw [caseBlocksOf] at hk
        omega
      rw [run_linkDefault_some]
      exact ⟨hidle.lt, hidle.ne, (Builder.append_blocks_of_ne hne _).trans hidle.empty⟩

theorem case_lt_done {count size c : ℕ} (hc : c < size) : caseBlocksOf count size + c < doneOf count size :=
  Nat.add_lt_add_left hc _

variable (obj) in
include hst hne hcount in
theorem idle_switchLinked {k : ℕ} (hk : caseBlocksOf st.builder.count checks.length ≤ k)
    (hle : k ≤ doneOf st.builder.count checks.length) : Idle k (switchLinked obj checks st).builder := by
  have hmem : k ∈ blocksOf st.builder.count checks.length :=
    mem_blocksOf.mpr ⟨(Nat.le_add_right _ _).trans hk, Nat.lt_succ_of_le hle⟩
  exact (visits_switchLinked obj hst hne hcount).idle k hk (idle_switchChecked obj hst hne hcount hmem _ (case_not_inChecks hk))

variable (obj) in
include hst hne hcount in
theorem caseBlocks_switchLinked (hlength : checks.length = bodies.length) (hbodies : regularNodes bodies = true) :
    CaseBlocks st.builder (blocksOf st.builder.count checks.length) bodies (caseBlocksOf st.builder.count checks.length)
      (doneOf st.builder.count checks.length) (switchLinked obj checks st) where
  from' := (visits_switchLinked obj hst hne hcount).from'
  regular' := hbodies
  done := done_mem _ _
  blocks := fun _ hk ↦ case_mem (hlength ▸ hk)
  idle := fun _ hk ↦ idle_switchLinked obj hst hne hcount (Nat.le_add_right _ _) (case_lt_done (hlength ▸ hk)).le

variable (retArg obj) in
include hst hne hcount in
theorem visits_switchFilled (hlength : checks.length = bodies.length) (hbodies : regularNodes bodies = true) :
    Visits st.builder (blocksOf st.builder.count checks.length)
      (fun k ↦ ∀ i < bodies.length, k ≠ caseBlocksOf st.builder.count checks.length + i) (switchLinked obj checks st)
      (switchFilled retArg obj checks bodies st) :=
  (caseBlocks_switchLinked obj hst hne hcount hlength hbodies).visits_all retArg

variable (retArg obj) in
include hst hne hcount in
theorem idle_switchFilled (hlength : checks.length = bodies.length) (hbodies : regularNodes bodies = true) :
    Idle (doneOf st.builder.count checks.length) (switchFilled retArg obj checks bodies st).builder := by
  refine (visits_switchFilled retArg obj hst hne hcount hlength hbodies).idle _ (fun i hi ↦ ?_)
    (idle_switchLinked obj hst hne hcount (Nat.le_add_right _ _) le_rfl)
  exact (case_lt_done (hlength ▸ hi)).ne'

end Stages

section Runs

variable {st : State} (hst : Sound st.builder) (hne : checks ≠ []) (hcount : checks.countP Option.isNone ≤ 1)

/-- Where a switch goes. -/
def selectedBlock (count size : ℕ) : Option ℕ → ℕ
  | some c => caseBlocksOf count size + c
  | none => doneOf count size

include hst hne hcount in
/-- The checks lead to the case that is selected. -/
theorem leads_checks {blocks : ℕ → Block Oper Const} (hext : Extends (switchLinked obj checks st).builder.blocks blocks)
    (hflat : flatChecks checks = true) {s s' : σ} {found : Option ℕ} (hselect : select M obj checks s = some (found, s'))
    (pred : ℕ) (values : ℕ → V) :
    Leads M blocks (here st.builder pred values s) (At (selectedBlock st.builder.count checks.length found) s') := by
  have hpos : 0 < checks.length := List.length_pos_of_ne_nil hne
  obtain ⟨⟨found', s''⟩, hfirst, heq⟩ := Option.map_eq_some_iff.mp hselect
  cases heq
  have hextChecked : Extends (switchChecked obj checks checks.length st).builder.blocks blocks :=
    (visits_switchLinked obj hst.made hne hcount).grown.trans hext
  have hextEntered : Extends (switchEntered checks st).builder.blocks blocks :=
    (visits_switchChecked obj hst.made hne hcount checks.length).grown.trans hextChecked
  have henter : Leads M blocks (here st.builder pred values s) (At st.builder.count s) :=
    leads_br (b := { st.builder with count := doneOf st.builder.count checks.length + 1 }) hextEntered
  have hentry : entryOf st.builder.count (doneOf st.builder.count checks.length) checks.length (findDefault checks) 0 =
      st.builder.count := by
    rw [entryOf, if_neg fun h ↦ hpos.ne h.1, checkIndexOfCase, Nat.zero_sub, Nat.add_zero]
  have hchecked : switchChecked obj checks checks.length st = ((emitCaseChecks obj st.builder.count
      (caseBlocksOf st.builder.count checks.length) (doneOf st.builder.count checks.length) checks.length
      (findDefault checks) checks 0).run (switchEntered checks st)).2 := by
    rw [switchChecked, List.take_length]
  refine henter.bind fun g hg ↦ ?_
  have hsearch := leads_emitCaseChecks (fun _ hk ↦ check_mem hk) (fun _ hk ↦ case_mem hk) (done_mem _ _)
    (fun _ hd ↦ findDefault_lt hd) hst checks 0 (Nat.zero_add _) (aligned_checks hcount) hflat
    (from_switchEntered hst.made hne) (fun k hinside ↦ ?_) hfirst (hchecked ▸ hextChecked) g (hentry.symm ▸ hg)
  · refine hsearch.bind fun g hg ↦ ?_
    cases found' with
    | some i => exact .here hg
    | none =>
      rw [foundBlock] at hg
      cases hdefault : findDefault checks with
      | none =>
        rw [hdefault, entryOf, if_pos ⟨rfl, rfl⟩] at hg
        exact .here hg
      | some d =>
        -- the last check block branches to the default case
        have hd : d < checks.length := findDefault_lt hdefault
        have hlast : checkIndexOfCase checks.length (some d) = checks.length - 1 := by
          simp [checkIndexOfCase, pastDefaultCase, hd]
        rw [hdefault, entryOf_some, hlast] at hg
        obtain ⟨pred, values, rfl⟩ := hg
        have hidle : Idle (st.builder.count + (checks.length - 1)) (switchChecked obj checks checks.length st).builder :=
          idle_switchChecked obj hst.made hne hcount (check_mem (Nat.sub_lt hpos Nat.one_pos)) _ (hdefault ▸ last_not_inChecks hd)
        rw [← hidle.here pred values s']
        rw [switchLinked, hdefault, run_linkDefault_some] at hext
        exact leads_br hext
  · obtain ⟨_, _, hlt, hk⟩ := hinside
    exact idle_switchEntered hst.made (hk ▸ check_mem (hlt.trans_le (Nat.sub_le _ _)))

include hst hne hcount in
/-- After the switch its objects are destroyed. -/
theorem ends_switch (hlength : checks.length = bodies.length) (hbodies : regularNodes bodies = true) {dtors : List Object}
    {s s' : σ} (hdtors : destroyAll M dtors s = some s') {blocks : ℕ → Block Oper Const}
    (hext : Extends ((emitCases obj checks (emitCaseBodies retArg bodies) false dtors).run st).2.builder.blocks blocks)
    (flow : FlowData) (g : Config V σ) (hg : At (doneOf st.builder.count checks.length) s g) :
    Leads M blocks g (Ends M blocks flow
      ((emitCases obj checks (emitCaseBodies retArg bodies) false dtors).run st).2.builder .normal s') := by
  obtain ⟨pred, values, rfl⟩ := hg
  have hfrom := (visits_switchFilled retArg obj hst.made hne hcount hlength hbodies).from'
  have hidle := idle_switchFilled retArg obj hst.made hne hcount hlength hbodies
  rw [← hidle.here pred values s]
  rw [run_emitCases_eq] at hext ⊢
  have hdoes : Does M (destroy dtors) ((switchFilled retArg obj checks bodies st).at (doneOf st.builder.count checks.length))
      values s fun _ _ _ s'' ↦ s'' = s' := does_destroy dtors (hidle.valid (sound_of_from hfrom hst)) hdtors
  refine hdoes.leads hext (fun pred values s hs ↦ ?_) pred
  subst hs
  exact .here ⟨hdoes.1.valid, pred, values, rfl⟩

end Runs

end Switch

end Stela.CodeGen.StatBlocks
