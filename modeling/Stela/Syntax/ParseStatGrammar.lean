import Stela.Syntax.ParseStatReads
import Stela.Syntax.ParseRoundTrip

/-!
# Statements are read from their texts

Where the bodies of functions are read from their texts and from nothing else, so are assignments, declarations and
statements. What is read is in the grammar by induction on the length of the text; a text is read by recursion over
the grammar.
-/

namespace Stela.Syntax.ParseStat

open Library.Parser ParseTokens ParseExpr ParseType

/-- Every body is read from its texts and from nothing else. -/
structure ReadsBodies {Body : Type} (b : ParseTokens Body) (bodies : Body → List Token → Prop) : Prop where
  sound : ∀ {body text rest}, b.Yields text body rest → bodies body text
  complete : ∀ {body text rest}, bodies body text → b.Yields text body rest
  starts : ∀ {body text}, bodies body text → ∃ ts, text = op "\x7b" :: ts

section

variable {Body : Type} {b : ParseTokens Body} {bodies : Body → List Token → Prop} {text rest : List Token}

theorem ReadsBodies.conforms (hb : ReadsBodies b bodies) : (outerOf b).Conforms TypeText bodies where
  type_sound h := eq_printType h
  type_complete h hrest := (yields_parseType hrest).mpr h
  type_starts {type text} h := by
    obtain ⟨first, ts, htext, hfirst⟩ := starts_printType type
    exact ⟨first, ts, h.trans htext, fun href ↦ hfirst (href ▸ List.mem_cons_self)⟩
  body_sound := hb.sound
  body_complete := hb.complete
  body_starts := hb.starts

/-! ## What stands behind -/

/-- No term goes on behind a token other than these three. -/
theorem stops_zero_cons {view : String} (hview : view ∉ ["(", "[", "."]) (rest : List Token) :
    Stops 0 (op view :: rest) := by
  rintro t ht m hm hcontinues
  cases ht
  obtain rfl := Nat.le_zero.mp hm
  have hmem := continues_zero.mp hcontinues
  simp [op] at hmem hview
  simp [hview] at hmem

theorem EndsAsgn.stops (h : EndsAsgn rest) (n : ℕ) : Stops n rest := by
  obtain ⟨ts, rfl⟩ | ⟨ts, rfl⟩ : (∃ ts, rest = op ";" :: ts) ∨ ∃ ts, rest = op ")" :: ts :=
    h.imp List.head?_eq_some_iff.mp List.head?_eq_some_iff.mp
  · exact stops_cons (by decide) n ts
  · exact stops_cons (by decide) n ts

theorem stops_brace (n : ℕ) (rest : List Token) : Stops n (op "\x7b" :: rest) := by
  rintro t ht m - (⟨-, hmem⟩ | ⟨oper, -, heq⟩ | ⟨-, heq⟩) <;> cases ht
  · simp [op] at hmem
  · cases oper <;> simp [op, binText] at heq
  · simp [op] at heq

theorem stops_append {n : ℕ} {first : Token} {ts : List Token} :
    Stops n (first :: ts ++ rest) ↔ Stops n (first :: ts) := Iff.rfl

theorem sound_opt {α : Type} {token msg : String} {parse : ParseTokens (Option α)} {node : Option α}
    {texts : α → List Token → Prop} (hsound : ∀ {text a}, parse.Yields text (some a) rest → texts a text)
    (h : (optNode token parse msg).Yields text node rest) : PrintingOpt [op token] texts node text := by
  rcases yields_optNode.mp h with ⟨t, a, rfl, ha, rfl⟩ | ⟨rfl, rfl, -⟩
  · exact .some (hsound ha)
  · exact .none

theorem yields_opt {α : Type} {token msg : String} {parse : ParseTokens (Option α)} {node : Option α}
    {texts : α → List Token → Prop} (h : PrintingOpt [op token] texts node text)
    (hrest : rest.head? ≠ some (op token)) (hparse : ∀ {t a}, texts a t → parse.Yields t (some a) rest) :
    (optNode token parse msg).Yields text node rest := by
  cases h with
  | none => exact yields_optNode.mpr (.inr ⟨rfl, rfl, hrest⟩)
  | some ha => exact yields_optNode.mpr (.inl ⟨_, _, rfl, hparse ha, rfl⟩)

section

variable (hb : ReadsBodies b bodies)
include hb

/-! ## Expressions -/

/-- An expression that is read is in the grammar. -/
theorem sound_expr {e : ExprNode Body} (h : (parseExpr b).Yields text (some e) rest) :
    Printing TypeText bodies ternLevel e text ∧ Stops ternLevel rest :=
  sound_parseExpr hb.conforms _ (Nat.lt_succ_self _) h

/-- An expression of the grammar is read, up to where it cannot go on. -/
theorem yields_expr {e : ExprNode Body} (h : Printing TypeText bodies ternLevel e text) (hrest : Stops ternLevel rest) :
    (parseExpr b).Yields text (some e) rest :=
  (parses_of_printing hb.conforms h).2 le_rfl rest hrest

theorem sound_nested {e : ExprNode Body} (h : (parseNested b).Yields text (some e) rest) :
    Printing TypeText bodies 0 e text :=
  (sound_parseNested hb.conforms (sound_parseExpr hb.conforms _) (Nat.lt_succ_self _) h).1

theorem yields_nested {e : ExprNode Body} (h : Printing TypeText bodies 0 e text) (hrest : Stops 0 rest) :
    (parseNested b).Yields text (some e) rest :=
  ((parses_of_printing hb.conforms h).1 (by decide)).reads (by decide) rest hrest

/-! ## Assignments -/

/-- What is read as an assignment is in the grammar. -/
theorem sound_asgn {asgn : AsgnNode Body} (h : (parseAsgn b).Yields text (some asgn) rest) :
    PrintingAsgn bodies asgn text := by
  obtain ⟨t, u, dst, rfl, hnested, hbehind⟩ := yields_parseAsgn.mp h
  have hdst := sound_nested hb hnested
  cases behind_of_asgnBehind hbehind with
  | incr => exact .incr hdst
  | decr => exact .decr hdst
  | assign hsrc => exact .assign hdst (sound_expr hb hsrc).1
  | compAssign hsrc => exact .compAssign hdst (sound_expr hb hsrc).1
  | declAssign heq hexpr => exact .declAssign (heq ▸ hdst) (sound_expr hb hexpr).1
  | callAssign heq =>
    subst heq
    rw [List.append_nil]
    exact .callAssign hdst

/-- An assignment of the grammar is read in front of what ends it. -/
theorem yields_asgn {asgn : AsgnNode Body} (h : PrintingAsgn bodies asgn text) (hrest : EndsAsgn rest) :
    (parseAsgn b).Yields text (some asgn) rest := by
  cases h with
  | incr hdst =>
    exact yields_parseAsgn.mpr ⟨_, _, _, rfl, yields_nested hb hdst (stops_zero_cons (by decide) _),
      yields_asgnBehind .incr hrest⟩
  | decr hdst =>
    exact yields_parseAsgn.mpr ⟨_, _, _, rfl, yields_nested hb hdst (stops_zero_cons (by decide) _),
      yields_asgnBehind .decr hrest⟩
  | assign hdst hsrc =>
    exact yields_parseAsgn.mpr ⟨_, _, _, rfl, yields_nested hb hdst (stops_zero_cons (by decide) _),
      yields_asgnBehind (.assign (yields_expr hb hsrc (hrest.stops _))) hrest⟩
  | @compAssign dst oper src t u hdst hsrc =>
    exact yields_parseAsgn.mpr ⟨_, _, _, rfl, yields_nested hb hdst (stops_zero_cons (by cases oper <;> decide) _),
      yields_asgnBehind (.compAssign (yields_expr hb hsrc (hrest.stops _))) hrest⟩
  | declAssign hdst hexpr =>
    exact yields_parseAsgn.mpr ⟨_, _, _, rfl, yields_nested hb hdst (stops_zero_cons (by decide) _),
      yields_asgnBehind (.declAssign rfl (yields_expr hb hexpr (hrest.stops _))) hrest⟩
  | callAssign hdst =>
    exact yields_parseAsgn.mpr ⟨_, [], _, (List.append_nil _).symm, yields_nested hb hdst (hrest.stops 0),
      yields_asgnBehind (.callAssign rfl) hrest⟩

/-! ## Declarations -/

theorem sound_receiver {receiver : Option (FuncParam TypeExpr)} (h : (parseReceiver b).Yields text receiver rest) :
    PrintingReceiver receiver text := by
  rcases yields_parseReceiver.mp h with ⟨t, param, rfl, hparam, rfl⟩ | ⟨rfl, rfl, -⟩
  · exact .some (printing_of_parseParam hb.conforms hparam)
  · exact .none

/-- What is read as a declaration is in the grammar. -/
theorem sound_decl {external : Bool} {decl : Decl Body} (h : DeclRead b external rest decl text) :
    PrintingDecl bodies external decl text := by
  cases h with
  | func hreceiver hparams hret hbody =>
    exact .func (sound_receiver hb hreceiver) (printing_of_parseFuncParams hb.conforms hparams)
      (printing_of_parseFuncRet hb.conforms hret) (hb.sound hbody)
  | var htype hexpr =>
    exact .var (sound_opt (fun h ↦ eq_printType h) htype) (sound_opt (fun h ↦ (sound_expr hb h).1) hexpr)
  | let_ htype hexpr => exact .let_ (sound_opt (fun h ↦ eq_printType h) htype) (sound_expr hb hexpr).1
  | weak hexternal htype => exact .weak hexternal (eq_printType htype)
  | strong hexternal _ htype => exact .strong hexternal (eq_printType htype)

theorem yields_receiver {receiver : Option (FuncParam TypeExpr)} (h : PrintingReceiver receiver text)
    (hrest : rest.head? ≠ some (op "(")) : (parseReceiver b).Yields text receiver rest := by
  cases h with
  | none => exact yields_parseReceiver.mpr (.inr ⟨rfl, rfl, hrest⟩)
  | some hparam =>
    exact yields_parseReceiver.mpr (.inl ⟨_, _, rfl, yields_parseParam_of hb.conforms hparam (by simp [op]), rfl⟩)

theorem declRead_of_printing {external : Bool} {decl : Decl Body} (h : PrintingDecl bodies external decl text) :
    DeclRead b external rest decl text := by
  cases h with
  | func hreceiver hparams hret hbody =>
    refine .func (yields_receiver hb hreceiver (by simp [op])) (yields_parseFuncParams_of hb.conforms hparams)
      (yields_parseFuncRet_of hb.conforms hret ?_) (hb.complete hbody)
    obtain ⟨ts, rfl⟩ := hb.starts hbody
    simp [op]
  | var htype hexpr =>
    refine .var (yields_opt htype ?_ fun ht ↦ ?_) (yields_opt hexpr (by simp [op]) fun he ↦ ?_)
    · cases hexpr <;> simp [op]
    · refine (yields_parseType ?_).mpr ht
      cases hexpr <;> simp [op]
    · exact yields_expr hb he (stops_cons (by decide) _ _)
  | let_ htype hexpr =>
    refine .let_ (yields_opt htype (by simp [op]) fun ht ↦ ?_) (yields_expr hb hexpr (stops_cons (by decide) _ _))
    exact (yields_parseType (by simp [op])).mpr ht
  | weak hexternal htype => exact .weak hexternal ((yields_parseType (by simp [op])).mpr htype)
  | @strong name type t hexternal htype =>
    refine .strong hexternal ?_ ((yields_parseType (by simp [op])).mpr htype)
    obtain ⟨first, ts, htext, hfirst⟩ := starts_printType type
    rw [show t = first :: ts from htype.trans htext]
    exact fun h ↦ hfirst (by cases h; simp)

/-! ## Statements -/

/-- What is read of fewer tokens than the bound is in the grammar. -/
def StatsBelow (b : ParseTokens Body) (bodies : Body → List Token → Prop) (k : ℕ) : Prop :=
  ∀ ⦃text s rest⦄, text.length < k → (parseStat b).Yields text (some s) rest →
    PrintingStat bodies s text ∧ (s.takesElse = true → rest.head? ≠ some (keyword "else"))

omit hb in
theorem printing_many {k : ℕ} (h : StatsBelow b bodies k) {nodes : List (Stat Body)} (hk : text.length < k)
    (hnodes : Many (parseStat b) rest nodes text) : PrintingNodes bodies nodes (text ++ [op "\x7d"]) := by
  induction hnodes with
  | nil hnone =>
    obtain ⟨rfl, -⟩ := declines_parseStat.mp hnone
    exact .nil
  | cons hnode _ ih =>
    rw [List.length_append] at hk
    rw [List.append_assoc]
    exact .cons (h (by omega) hnode).1 (ih (by omega))

/-- The statement behind an expression does not go on with it. -/
theorem sound_cond {k : ℕ} (h : StatsBelow b bodies k) {cond : ExprNode Body} {body : Stat Body} {t u : List Token}
    (hk : u.length < k) (hcond : (parseExpr b).Yields t (some cond) (u ++ rest))
    (hbody : (parseStat b).Yields u (some body) rest) :
    Printing TypeText bodies ternLevel cond t ∧ Stops ternLevel u := by
  obtain ⟨hprinting, hstops⟩ := sound_expr hb hcond
  obtain ⟨first, ts, rfl, -⟩ := (h hk hbody).1.starts
  exact ⟨hprinting, stops_append.mp hstops⟩

/-- The cases that the loop reads are added to those in front of them. -/
theorem printing_cases {k : ℕ} (h : StatsBelow b bodies k) {before cases : List (SwitchCase Body)}
    (hk : text.length < k) (hcases : Loops (switchStep b (parseStat b)) rest before text cases) :
    ∃ more, cases = before ++ more ∧ PrintingCases bodies more text := by
  induction hcases with
  | leave hleave =>
    obtain ⟨rfl, rfl⟩ := yields_switchStep_leave.mp hleave
    exact ⟨[], (List.append_nil _).symm, .nil⟩
  | next hnext _ ih =>
    rw [List.length_append] at hk
    obtain ⟨more, rfl, hmore⟩ := ih (by omega)
    rcases yields_switchStep_next.mp hnext with ⟨t, u, expr, body, rfl, hexpr, hbody, rfl⟩ | ⟨u, body, rfl, hbody, rfl⟩
    · simp only [List.length_cons, List.length_append] at hk
      obtain ⟨hexpr, hstops⟩ := sound_cond hb h (by omega) hexpr hbody
      refine ⟨.mk (some expr) body :: more, List.append_assoc _ _ _, ?_⟩
      rw [List.cons_append, List.append_assoc]
      exact .expr hexpr (h (by omega) hbody).1 hstops hmore
    · rw [List.length_cons] at hk
      exact ⟨.mk none body :: more, List.append_assoc _ _ _, .default (h (by omega) hbody).1 hmore⟩

theorem sound_optAsgn {asgn : Option (AsgnNode Body)} (h : (parseAsgn b).Yields text asgn rest) :
    PrintingOpt [] (PrintingAsgn bodies) asgn text := by
  cases asgn with
  | none =>
    obtain ⟨rfl, -⟩ := declines_parseAsgn.mp h
    exact .none
  | some asgn => exact .some (sound_asgn hb h)

/-- The grammar holds for all texts, by induction on their length: the parts of a statement are shorter. -/
theorem statsBelow (k : ℕ) : StatsBelow b bodies k := by
  induction k with
  | zero =>
    intro text s rest hk
    cases hk
  | succ k ih =>
    intro text s rest hk h
    rw [parseStat_eq] at h
    rcases yields_statBody.mp h with h | h | h | h | h | h | h | h | ⟨decl, hdecl, rfl⟩ | ⟨hreserved, h⟩
    · obtain ⟨cond, body, elseBody, t, u, v, rfl, hcond, hbody, helse, rfl⟩ := yields_parseIf.mp h
      simp only [List.length_cons, List.length_append] at hk
      obtain ⟨hprinting, htakes⟩ := ih (by omega) hbody
      obtain ⟨hif, hstops⟩ := sound_cond hb ih (by omega) hcond hbody
      rcases yields_parseElse.mp helse with ⟨w, elseBody, rfl, hlast, rfl⟩ | ⟨rfl, rfl, hhead⟩
      · rw [List.length_cons] at hk
        obtain ⟨hother, hrest⟩ := ih (by omega) hlast
        refine ⟨.fiElse hif hprinting hstops (Bool.eq_false_iff.mpr fun h ↦ htakes h rfl) hother, fun h ↦ hrest ?_⟩
        rwa [Stat.takesElse] at h
      · rw [List.append_nil]
        exact ⟨.fi hif hprinting hstops, fun _ ↦ hhead⟩
    · obtain ⟨expr, cases, t, u, rfl, hexpr, hcases, rfl⟩ := yields_parseSwitch.mp h
      simp only [List.length_cons, List.length_append] at hk
      obtain ⟨more, rfl, hmore⟩ := printing_cases hb ih (by omega) hcases
      exact ⟨.swich (sound_expr hb hexpr).1 hmore, fun h ↦ by simp [Stat.takesElse] at h⟩
    · obtain ⟨rfl, rfl⟩ := yields_parseKeywordStatement.mp h
      exact ⟨.brake, fun h ↦ by simp [Stat.takesElse] at h⟩
    · obtain ⟨rfl, rfl⟩ := yields_parseKeywordStatement.mp h
      exact ⟨.continu, fun h ↦ by simp [Stat.takesElse] at h⟩
    · rcases yields_parseReturn.mp h with ⟨rfl, rfl⟩ | ⟨t, expr, rfl, -, hexpr, rfl⟩
      · exact ⟨.ret, fun h ↦ by simp [Stat.takesElse] at h⟩
      · exact ⟨.retExpr (sound_expr hb hexpr).1, fun h ↦ by simp [Stat.takesElse] at h⟩
    · obtain ⟨cond, body, t, u, rfl, hcond, hbody, rfl⟩ := yields_parseWhile.mp h
      simp only [List.length_cons, List.length_append] at hk
      obtain ⟨hprinting, htakes⟩ := ih (by omega) hbody
      obtain ⟨hwhile, hstops⟩ := sound_cond hb ih (by omega) hcond hbody
      refine ⟨.wile hwhile hprinting hstops, fun h ↦ htakes ?_⟩
      rwa [Stat.takesElse] at h
    · obtain ⟨init, cond, incr, body, t, u, v, w, rfl, hinit, hcond, hincr, hbody, rfl⟩ := yields_parseFor.mp h
      simp only [List.length_cons, List.length_append] at hk
      obtain ⟨hprinting, htakes⟩ := ih (by omega) hbody
      refine ⟨.four (sound_optAsgn hb hinit) (sound_expr hb hcond).1 (sound_optAsgn hb hincr) hprinting,
        fun h ↦ htakes ?_⟩
      rwa [Stat.takesElse] at h
    · obtain ⟨nodes, t, rfl, hnodes, rfl⟩ := yields_parseBlock.mp h
      simp only [List.length_cons, List.length_append] at hk
      exact ⟨.block (printing_many ih (by omega) (productive_parseStat.yields_many.mp hnodes)),
        fun h ↦ by simp [Stat.takesElse] at h⟩
    · exact ⟨.decl (sound_decl hb hdecl), fun h ↦ by simp [Stat.takesElse] at h⟩
    · obtain ⟨t, asgn, rfl, hasgn, rfl⟩ := yields_parseAsgnSemi.mp h
      have hprinting := sound_asgn hb hasgn
      refine ⟨.asgn hprinting ?_, fun h ↦ by simp [Stat.takesElse] at h⟩
      obtain ⟨first, ts, rfl, -⟩ := hprinting.starts
      exact fun first' hfirst ↦ hreserved first' hfirst

/-- What is read as a statement is in the grammar. -/
theorem sound_stat {s : Stat Body} (h : (parseStat b).Yields text (some s) rest) :
    PrintingStat bodies s text ∧ (s.takesElse = true → rest.head? ≠ some (keyword "else")) :=
  statsBelow hb _ (Nat.lt_succ_self _) h

/-! ## From the grammar to the parser -/

/-- The statement is read where no `else` goes on with it. -/
def Readable (b : ParseTokens Body) (s : Stat Body) (text : List Token) : Prop :=
  ∀ ⦃rest⦄, (s.takesElse = true → rest.head? ≠ some (keyword "else")) → (parseStat b).Yields text (some s) rest

theorem yields_cond {cond : ExprNode Body} {body : Stat Body} {t u : List Token}
    (hcond : Printing TypeText bodies ternLevel cond t) (hbody : PrintingStat bodies body u)
    (hstops : Stops ternLevel u) : (parseExpr b).Yields t (some cond) (u ++ rest) := by
  apply yields_expr hb hcond
  obtain ⟨first, ts, rfl, -⟩ := hbody.starts
  exact stops_append.mpr hstops

theorem yields_optAsgn {asgn : Option (AsgnNode Body)} (h : PrintingOpt [] (PrintingAsgn bodies) asgn text)
    {view : String} (hview : view ∈ [";", ")"]) : (parseAsgn b).Yields text asgn (op view :: rest) := by
  cases h with
  | none => exact declines_parseAsgn.mpr ⟨rfl, noTerm_delimiter hview⟩
  | some h =>
    refine yields_asgn hb h ?_
    simp only [List.mem_cons, List.not_mem_nil, or_false] at hview
    rcases hview with rfl | rfl
    · exact .inl rfl
    · exact .inr rfl

end

theorem PrintingCases.head {cases : List (SwitchCase Body)} (h : PrintingCases bodies cases text) :
    (text ++ rest).head? ≠ some (keyword "else") := by
  cases h <;> simp [op, keyword]

theorem PrintingNodes.head {nodes : List (Stat Body)} (h : PrintingNodes bodies nodes text) (rest : List Token) :
    (text ++ rest).head? ≠ some (keyword "else") := by
  cases h with
  | nil => simp [op, keyword]
  | cons hnode _ =>
    obtain ⟨first, ts, rfl, hfirst⟩ := hnode.starts
    exact fun h ↦ hfirst (by cases h; simp [closers])

mutual

/-- A statement of the grammar is read, by induction on its derivation. -/
theorem readable (hb : ReadsBodies b bodies) {s : Stat Body} {text : List Token} : PrintingStat bodies s text → Readable b s text
  | .block hnodes => fun rest _ ↦ by
    obtain ⟨t, rfl, hmany⟩ := many_of_printing hb hnodes
    rw [parseStat_eq]
    refine yields_statBody.mpr (.inr (.inr (.inr (.inr (.inr (.inr (.inr (.inl ?_))))))))
    exact yields_parseBlock.mpr ⟨_, t, rfl, productive_parseStat.yields_many.mpr (hmany rest), rfl⟩
  | .fi (t := t) (u := u) hcond hbody hstops => fun rest hrest ↦ by
    have hread := readable hb hbody
    rw [parseStat_eq]
    refine yields_statBody.mpr (.inl (yields_parseIf.mpr ⟨_, _, none, t, u, [], ?_, ?_, ?_, ?_, rfl⟩))
    · rw [List.append_nil]
    · exact yields_cond hb hcond hbody hstops
    · exact hread fun _ ↦ hrest (by rw [Stat.takesElse])
    · exact yields_parseElse.mpr (.inr ⟨rfl, rfl, hrest (by rw [Stat.takesElse])⟩)
  | .fiElse (t := t) (u := u) (v := v) hcond hbody hstops hclosed helse => fun rest hrest ↦ by
    have hread := readable hb hbody
    have hread' := readable hb helse
    rw [parseStat_eq]
    refine yields_statBody.mpr (.inl (yields_parseIf.mpr ⟨_, _, some _, t, u, _, rfl, ?_, ?_, ?_, rfl⟩))
    · exact yields_cond hb hcond hbody hstops
    · exact hread fun h ↦ absurd (hclosed.symm.trans h) Bool.false_ne_true
    · refine yields_parseElse.mpr (.inl ⟨v, _, rfl, hread' fun h ↦ hrest ?_, rfl⟩)
      rwa [Stat.takesElse]
  | .swich (t := t) (u := u) hexpr hcases => fun rest _ ↦ by
    have hloops := loops_of_printing hb hcases
    rw [parseStat_eq]
    refine yields_statBody.mpr (.inr (.inl (yields_parseSwitch.mpr ⟨_, _, t, u, rfl, ?_, hloops [] rest, rfl⟩)))
    exact yields_expr hb hexpr (stops_brace _ _)
  | .brake => fun rest _ ↦ by
    rw [parseStat_eq]
    exact yields_statBody.mpr (.inr (.inr (.inl (yields_parseKeywordStatement.mpr ⟨rfl, rfl⟩))))
  | .continu => fun rest _ ↦ by
    rw [parseStat_eq]
    exact yields_statBody.mpr (.inr (.inr (.inr (.inl (yields_parseKeywordStatement.mpr ⟨rfl, rfl⟩)))))
  | .ret => fun rest _ ↦ by
    rw [parseStat_eq]
    exact yields_statBody.mpr (.inr (.inr (.inr (.inr (.inl (yields_parseReturn.mpr (.inl ⟨rfl, rfl⟩)))))))
  | .retExpr (t := t) hexpr => fun rest _ ↦ by
    rw [parseStat_eq]
    refine yields_statBody.mpr (.inr (.inr (.inr (.inr (.inl (yields_parseReturn.mpr (.inr ⟨t, _, rfl, ?_, ?_, rfl⟩)))))))
    · obtain ⟨first, ts, rfl, hfirst⟩ := hexpr.starts
      intro h
      cases h
      have hview := hfirst.1 rfl
      simp [op] at hview
    · exact yields_expr hb hexpr (stops_cons (by decide) _ _)
  | .wile (t := t) (u := u) hcond hbody hstops => fun rest hrest ↦ by
    have hread := readable hb hbody
    rw [parseStat_eq]
    refine yields_statBody.mpr (.inr (.inr (.inr (.inr (.inr (.inl (yields_parseWhile.mpr ⟨_, _, t, u, rfl, ?_, ?_,
      rfl⟩)))))))
    · exact yields_cond hb hcond hbody hstops
    · exact hread fun h ↦ hrest (by rwa [Stat.takesElse])
  | .four (t := t) (u := u) (v := v) (w := w) hinit hcond hincr hbody => fun rest hrest ↦ by
    have hread := readable hb hbody
    rw [parseStat_eq]
    refine yields_statBody.mpr (.inr (.inr (.inr (.inr (.inr (.inr (.inl (yields_parseFor.mpr ⟨_, _, _, _, t, u, v, w, rfl,
      ?_, ?_, ?_, ?_, rfl⟩))))))))
    · exact yields_optAsgn hb hinit (by simp)
    · exact yields_expr hb hcond (stops_cons (by decide) _ _)
    · exact yields_optAsgn hb hincr (by simp)
    · exact hread fun h ↦ hrest (by rwa [Stat.takesElse])
  | .decl hdecl => fun rest _ ↦ by
    rw [parseStat_eq]
    exact yields_statBody.mpr (.inr (.inr (.inr (.inr (.inr (.inr (.inr (.inr (.inl ⟨_, declRead_of_printing hb hdecl,
      rfl⟩)))))))))
  | .asgn (t := t) hasgn hreserved => fun rest _ ↦ by
    rw [parseStat_eq]
    refine yields_statBody.mpr (.inr (.inr (.inr (.inr (.inr (.inr (.inr (.inr (.inr ⟨?_, yields_parseAsgnSemi.mpr
      ⟨t, _, rfl, yields_asgn hb hasgn (.inl rfl), rfl⟩⟩)))))))))
    obtain ⟨first, ts, rfl, -⟩ := hasgn.starts
    exact fun first' hfirst ↦ hreserved first' hfirst

theorem many_of_printing (hb : ReadsBodies b bodies) {nodes : List (Stat Body)} {text : List Token} :
    PrintingNodes bodies nodes text → ∃ t, text = t ++ [op "\x7d"] ∧ ∀ rest, Many (parseStat b) (op "\x7d" :: rest) nodes t
  | .nil => ⟨[], rfl, fun rest ↦ .nil (declines_parseStat.mpr ⟨rfl, noStat_closing⟩)⟩
  | .cons (t := t) hnode hnodes => by
    have hread := readable hb hnode
    have hhead := hnodes.head
    obtain ⟨u, rfl, hmany⟩ := many_of_printing hb hnodes
    refine ⟨t ++ u, (List.append_assoc _ _ _).symm, fun rest ↦ .cons (hread fun _ ↦ ?_) (hmany rest)⟩
    have h := hhead rest
    rwa [List.append_assoc] at h

theorem loops_of_printing (hb : ReadsBodies b bodies) {cases : List (SwitchCase Body)} {text : List Token} :
    PrintingCases bodies cases text → ∀ before rest, Loops (switchStep b (parseStat b)) rest before text (before ++ cases)
  | .nil => fun before rest ↦ by
    rw [List.append_nil]
    exact .leave (yields_switchStep_leave.mpr ⟨rfl, rfl⟩)
  | .expr (t := t) (u := u) hexpr hbody hstops hcases => fun before rest ↦ by
    have hread := readable hb hbody
    have hloops := loops_of_printing hb hcases
    rw [List.append_cons before, ← List.append_assoc t, ← List.cons_append]
    refine .next (yields_switchStep_next.mpr (.inl ⟨t, u, _, _, rfl, ?_, hread fun _ ↦ hcases.head, rfl⟩))
      (hloops _ rest)
    exact yields_cond hb hexpr hbody hstops
  | .default (u := u) hbody hcases => fun before rest ↦ by
    have hread := readable hb hbody
    have hloops := loops_of_printing hb hcases
    rw [List.append_cons before, ← List.cons_append]
    exact .next (yields_switchStep_next.mpr (.inr ⟨u, _, rfl, hread fun _ ↦ hcases.head, rfl⟩)) (hloops _ rest)

end

end

end Stela.Syntax.ParseStat
