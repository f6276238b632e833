import Stela.Syntax.ParseSoundness
import Stela.Syntax.PrintExpr

/-!
# Expressions parse back to themselves

Behind the text of a left operand the parser of its level stands in its loop, with the operand as the node so far. This
is what `Opens` says. In front of a token that does not go on with the level the loop is left, so the text is read
as the node.
-/

namespace Stela.Syntax.ParseExpr

open Library.Parser ParseTokens

section

variable {Ty Body : Type}

/-- What the function of a level does behind the node so far. -/
def levelTail (outer : Outer Ty Body) (parseExpr : ParseTokens (Option (Expr Ty Body))) :
    ℕ → Expr Ty Body → ParseTokens (Option (Expr Ty Body))
  | 0, e => some <$> loop (nestedStep parseExpr) (nestedStep_consumes parseExpr) e
  | 1, e => pure (some e)
  | n + 2, e =>
      some <$> loop (binaryStep (levelOpers (n + 2)) (parseLevel outer parseExpr (n + 1)))
        (binaryStep_consumes _ _) e

/-- Behind the text, the function of the level goes on with the node. -/
def Opens (outer : Outer Ty Body) (n : ℕ) (e : Expr Ty Body) (text : List Token) : Prop :=
  ∀ rest, (∀ m < n, Stops m rest) →
    (parseLevel outer (parseExpr outer) n).run (text ++ rest) = (levelTail outer (parseExpr outer) n e).run rest

/-- In front of a token that does not go on with the level, the text is read as the node. -/
def Reads (parse : ParseTokens (Option (Expr Ty Body))) (n : ℕ) (e : Expr Ty Body) (text : List Token) : Prop :=
  ∀ rest, Stops n rest → parse.Yields text (some e) rest

variable {outer : Outer Ty Body} {types : Ty → List Token → Prop} {bodies : Body → List Token → Prop} {m n : ℕ}
  {e lhs : Expr Ty Body} {text rest : List Token}

theorem yields_levelTail {parseExpr : ParseTokens (Option (Expr Ty Body))} (hn : n < ternLevel) (h : Stops n rest) :
    (levelTail outer parseExpr n e).Yields [] (some e) rest := by
  match n with
  | 0 => exact yields_map.mpr ⟨e, yields_loop.mpr (.leave (yields_nestedStep_leave.mpr ⟨rfl, rfl, h⟩)), rfl⟩
  | 1 => exact yields_pure.mpr ⟨rfl, rfl⟩
  | n + 2 =>
    refine yields_map.mpr ⟨e, yields_loop.mpr (.leave (yields_binaryStep_leave.mpr ⟨rfl, rfl, ?_⟩)), rfl⟩
    intro view oper hmem hhead
    exact h _ hhead _ le_rfl ((continues_binary (by omega) hn).mpr ⟨oper, (mem_levelOpers.mp hmem).1,
      congrArg op (mem_levelOpers.mp hmem).2⟩)

theorem Opens.reads (h : Opens outer n e text) (hn : n < ternLevel) :
    Reads (parseLevel outer (parseExpr outer) n) n e text := by
  intro rest hstops
  rw [Yields, h rest fun m hm ↦ hstops.mono hm.le]
  exact yields_levelTail hn hstops

/-! ## From a level to the looser ones -/

theorem Opens.one (h : Opens outer 0 e text) (hfirst : ∀ rest, ∀ t ∈ (text ++ rest).head?, t ∉ prefixes) :
    Opens outer 1 e text := by
  intro rest hstops
  have hnested := h.reads (by decide) rest (hstops 0 Nat.one_pos)
  change (parseUnary outer (parseExpr outer)).run (text ++ rest) = _
  rw [parseUnary_eq]
  exact yields_unaryBody.mpr (.nested (hfirst rest) hnested)

theorem Opens.succ (h : Opens outer (n + 1) e text) (hn : n + 1 < ternLevel) : Opens outer (n + 2) e text :=
  fun rest hstops ↦ run_thenNode (h.reads hn rest (hstops (n + 1) (Nat.lt_succ_self _)))

theorem Opens.mono (h : Opens outer m e text) (hm : 1 ≤ m) (hmn : m ≤ n) (hn : n < ternLevel) :
    Opens outer n e text := by
  induction n, hmn using Nat.le_induction with
  | base => exact h
  | succ n hmn ih =>
    obtain ⟨n, rfl⟩ := Nat.exists_eq_add_of_le' (hm.trans hmn)
    exact (ih (by omega)).succ (by omega)

/-- The expressions of a level are read by its function, those of the last one by `parseExpr`. -/
def Parses (outer : Outer Ty Body) (n : ℕ) (e : Expr Ty Body) (text : List Token) : Prop :=
  (n < ternLevel → Opens outer n e text) ∧ (ternLevel ≤ n → Reads (parseExpr outer) ternLevel e text)

theorem Opens.parses (h : Opens outer m e text) (hm : 1 ≤ m) (hmn : m ≤ n) (hm' : m < ternLevel) :
    Parses outer n e text := by
  refine ⟨fun hn ↦ h.mono hm hmn hn, fun _ rest hstops ↦ ?_⟩
  have hlast : Opens outer (ternLevel - 1) e text := h.mono hm (Nat.le_sub_one_of_lt hm') (by decide)
  rw [parseExpr_eq]
  obtain ⟨hstops, hhead⟩ := stops_ternLevel.mp hstops
  exact yields_parseTern.mpr (.inl ⟨hlast.reads (by decide) rest hstops, hhead⟩)

theorem Opens.parses_zero (h : Opens outer 0 e text) (hprinting : Printing types bodies 0 e text) :
    Parses outer n e text := by
  obtain ⟨t, ts, rfl, hstarts⟩ := hprinting.starts
  have hone : Opens outer 1 e (t :: ts) := h.one fun rest first hfirst ↦ by
    cases hfirst
    exact hstarts.2 rfl
  rcases Nat.eq_zero_or_pos n with rfl | hn
  · exact ⟨fun _ ↦ h, fun hn ↦ by cases hn⟩
  · exact hone.parses le_rfl hn (by decide)

theorem parses_of_term (hterm : ∀ rest, Term outer (parseExpr outer) rest e text)
    (hprinting : Printing types bodies 0 e text) : Parses outer n e text :=
  Opens.parses_zero (fun rest _ ↦ run_thenNode (yields_parseTerm.mpr (hterm rest))) hprinting

/-! ## What goes on with a node -/

theorem Opens.nested {t : List Token} (h : Opens outer 0 lhs text)
    (hnested : ∀ rest, Nested (parseExpr outer) rest lhs e t) : Opens outer 0 e (text ++ t) := by
  intro rest hstops
  rw [List.append_assoc, h _ fun m hm ↦ absurd hm (Nat.not_lt_zero m)]
  exact run_map_congr (run_loop_next (yields_nestedStep_next.mpr (hnested rest)))

theorem Opens.binary {oper : BinOp} {rhs : Expr Ty Body} {t u : List Token}
    (hlhs : Opens outer (binLevel oper) lhs t) (hrhs : Opens outer (binLevel oper - 1) rhs u) :
    Opens outer (binLevel oper) (.binary lhs oper rhs) (t ++ op (binText oper) :: u) := by
  intro rest hstops
  have hbounds := binLevel_bounds oper
  rw [List.append_assoc, hlhs _ fun m hm first hfirst l hl hcontinues ↦ ?_]
  · obtain ⟨n, hn⟩ := Nat.exists_eq_add_of_le' hbounds.1
    have hlower : Opens outer (n + 1) rhs u := by simpa [hn] using hrhs
    rw [hn] at hstops ⊢
    refine run_map_congr (run_loop_next ((yields_binaryStep_next fun _ _ h ↦ (mem_levelOpers.mp h).2).mpr ?_))
    exact ⟨oper, u, rhs, mem_levelOpers.mpr ⟨hn, rfl⟩, rfl, hlower.reads (by omega) rest (hstops _ (by omega)), rfl⟩
  · cases hfirst
    have hl' := continues_binText.mp hcontinues
    omega

theorem Opens.unary {oper : UnOp} (h : Opens outer 1 e text) :
    Opens outer 1 (.unary oper e) (op (unText oper) :: text) := by
  intro rest hstops
  change (parseUnary outer (parseExpr outer)).run _ = _
  rw [parseUnary_eq]
  exact yields_unaryBody.mpr (.unary (h.reads (by decide) rest (stops_one.mpr (hstops 0 Nat.one_pos))))

/-! ## Signatures -/

section

variable (ho : outer.Conforms types bodies)
include ho

theorem yields_parseParam_of {param : FuncParam Ty} (h : PrintingParam types param text)
    (hrest : rest.head? ≠ some (op "->")) : (parseParam outer).Yields text param rest := by
  cases h with
  | val htype =>
    refine yields_parseParam.mpr ⟨[], _, rfl, yields_parseRef.mpr (.inr ⟨rfl, rfl, ?_⟩), ho.type_complete htype hrest⟩
    obtain ⟨t, ts, rfl, ht⟩ := ho.type_starts htype
    exact fun h ↦ ht (Option.some.inj h)
  | ref htype =>
    exact yields_parseParam.mpr ⟨[_], _, rfl, yields_parseRef.mpr (.inl ⟨rfl, rfl⟩), ho.type_complete htype hrest⟩

theorem delimited_of_printingParams {params : List (FuncParam Ty)} (h : PrintingParams types params text) :
    Delimited (parseParam outer) ")" rest params text := by
  induction h with
  | last hparam => exact .last (yields_parseParam_of ho hparam (by simp [op]))
  | next hparam _ ih => exact .next (yields_parseParam_of ho hparam (by simp [op])) ih

theorem yields_parseFuncParams_of {params : List (FuncParam Ty)} (h : PrintingSig types params text) :
    (parseFuncParams outer).Yields text params rest := by
  cases h with
  | nil => exact yields_parseFuncParams.mpr ⟨_, rfl, .inl ⟨rfl, rfl⟩⟩
  | params hparams =>
    refine yields_parseFuncParams.mpr ⟨_, rfl, .inr ⟨?_, delimited_of_printingParams ho hparams⟩⟩
    obtain ⟨name, ts, rfl⟩ := hparams.starts
    simp [op]

theorem yields_parseFuncRet_of {ret : Option Ty} (h : PrintingRet types ret text)
    (hrest : rest.head? ≠ some (op "->")) : (parseFuncRet outer).Yields text ret rest := by
  cases h with
  | none => exact yields_parseFuncRet.mpr (.inr ⟨rfl, rfl, hrest⟩)
  | some htype => exact yields_parseFuncRet.mpr (.inl ⟨_, _, rfl, ho.type_complete htype hrest, rfl⟩)

theorem term_lambda {params : List (FuncParam Ty)} {ret : Option Ty} {body : Body} {t u v : List Token}
    (hsig : PrintingSig types params t) (hret : PrintingRet types ret u) (hbody : bodies body v) :
    Term outer (parseExpr outer) rest (.lambda params ret body) (keyword "func" :: (t ++ (u ++ v))) := by
  refine .lambda (yields_parseFuncParams_of ho hsig) (yields_parseFuncRet_of ho hret ?_) (ho.body_complete hbody)
  obtain ⟨ts, rfl⟩ := ho.body_starts hbody
  simp [op]

theorem Opens.make {type : Ty} {t u : List Token} (htype : types type t) (h : Opens outer 1 e u)
    (hfirst : ∀ rest, (u ++ rest).head? ≠ some (op "->")) :
    Opens outer 1 (.make type e) (keyword "make" :: (t ++ u)) := by
  intro rest hstops
  change (parseUnary outer (parseExpr outer)).run _ = _
  rw [parseUnary_eq]
  have hexpr := h.reads (by decide) rest (stops_one.mpr (hstops 0 Nat.one_pos))
  exact yields_unaryBody.mpr (.make (ho.type_complete htype (hfirst rest)) hexpr)

end

/-! ## From the grammar to the parser -/

section

/-- The brackets that close a list. -/
def closing : List String := [")", "]", "\x7d"]

theorem ne_comma_of_closing {end_ : String} (hend : end_ ∈ closing) : end_ ≠ "," := by
  rintro rfl
  simp [closing] at hend

theorem stops_closing {end_ : String} (hend : end_ ∈ closing) : Stops n (op end_ :: rest) :=
  stops_cons (List.mem_append_left [",", ":", ";"] hend) n rest

theorem Starts.ne_op {t : Token} {view : String} (h : Starts n t) (hview : view ∈ "->" :: closing) : t ≠ op view := by
  rintro rfl
  have hfirst := h.1 rfl
  simp only [op, closing, List.mem_cons, List.not_mem_nil, or_false] at hfirst hview
  rcases hview with rfl | rfl | rfl | rfl <;> simp at hfirst

theorem PrintingExprs.starts {end_ : String} {exprs : List (Expr Ty Body)}
    (h : PrintingExprs types bodies end_ exprs text) : ∃ t ts, text = t :: ts ∧ Starts ternLevel t := by
  cases h with
  | last h | next h _ =>
    obtain ⟨t, ts, rfl, ht⟩ := h.starts
    exact ⟨t, _, rfl, ht⟩

theorem reads_ternary {cond troo fols : Expr Ty Body} {t u v : List Token}
    (hcond : Opens outer (ternLevel - 1) cond t) (htroo : Reads (parseExpr outer) ternLevel troo u)
    (hfols : Reads (parseExpr outer) ternLevel fols v) :
    Reads (parseExpr outer) ternLevel (.ternary cond troo fols) (t ++ op "?" :: (u ++ op ":" :: v)) := by
  intro rest hstops
  rw [parseExpr_eq]
  refine yields_parseTern.mpr (.inr ⟨t, u, v, cond, troo, fols, rfl, ?_, ?_, hfols rest hstops, rfl⟩)
  · refine hcond.reads (by decide) _ fun first hfirst l hl hcontinues ↦ ?_
    cases hfirst
    obtain rfl := eq_ternLevel_of_continues hcontinues
    exact absurd hl (by decide)
  · exact htroo _ (stops_cons (by decide) _ _)

mutual

theorem parses_of_printing (ho : outer.Conforms types bodies) {n : ℕ} {e : Expr Ty Body} {text : List Token} :
    Printing types bodies n e text → Parses outer n e text
  | .paren h =>
    parses_of_term (fun rest ↦ .paren ((parses_of_printing ho h).2 le_rfl _ (stops_cons (by decide) _ _))) (.paren h)
  | .ident => parses_of_term (fun _ ↦ .ident) (.ident : Printing types bodies 0 _ _)
  | .string => parses_of_term (fun _ ↦ .string) (.string : Printing types bodies 0 _ _)
  | .char => parses_of_term (fun _ ↦ .char) (.char : Printing types bodies 0 _ _)
  | .number => parses_of_term (fun _ ↦ .number) (.number : Printing types bodies 0 _ _)
  | .troo => parses_of_term (fun _ ↦ .troo) (.troo : Printing types bodies 0 _ _)
  | .fols => parses_of_term (fun _ ↦ .fols) (.fols : Printing types bodies 0 _ _)
  | .array h => parses_of_term (fun _ ↦ .array (yields_of_printingList ho (by decide) h)) (.array h)
  | .initList h => parses_of_term (fun _ ↦ .initList (yields_of_printingList ho (by decide) h)) (.initList h)
  | .lambda hsig hret hbody => parses_of_term (fun _ ↦ term_lambda ho hsig hret hbody) (.lambda hsig hret hbody)
  | .call hfunc hargs =>
    Opens.parses_zero (((parses_of_printing ho hfunc).1 (by decide)).nested
      fun _ ↦ .call (yields_of_printingList ho (by decide) hargs)) (.call hfunc hargs)
  | .subscript hobject hindex =>
    Opens.parses_zero (((parses_of_printing ho hobject).1 (by decide)).nested
      fun _ ↦ .subscript ((parses_of_printing ho hindex).2 le_rfl _ (stops_cons (by decide) _ _)))
      (.subscript hobject hindex)
  | .member hobject =>
    Opens.parses_zero (((parses_of_printing ho hobject).1 (by decide)).nested fun _ ↦ .member) (.member hobject)
  | .unary hn h => ((parses_of_printing ho h).1 (by decide)).unary.parses le_rfl hn (by decide)
  | .make hn htype h => by
    have hexpr := (parses_of_printing ho h).1 (by decide)
    obtain ⟨t, ts, rfl, hstarts⟩ := h.starts
    refine (hexpr.make ho htype fun rest hfirst ↦ ?_).parses le_rfl hn (by decide)
    exact hstarts.ne_op List.mem_cons_self (Option.some.inj hfirst)
  | .binary hn hlhs hrhs => by
    have hlhs := (parses_of_printing ho hlhs).1 (binLevel_bounds _).2
    have hrhs := (parses_of_printing ho hrhs).1 (Nat.lt_of_le_of_lt (Nat.sub_le _ _) (binLevel_bounds _).2)
    exact (hlhs.binary hrhs).parses (one_le_two.trans (binLevel_bounds _).1) hn (binLevel_bounds _).2
  | .ternary hn hcond htroo hfols =>
    ⟨fun hn' ↦ absurd hn (Nat.not_le_of_lt hn'), fun _ ↦ reads_ternary ((parses_of_printing ho hcond).1 (by decide))
      ((parses_of_printing ho htroo).2 le_rfl) ((parses_of_printing ho hfols).2 le_rfl)⟩

theorem yields_of_printingList (ho : outer.Conforms types bodies) {end_ : String} (hend : end_ ∈ closing)
    {exprs : List (Expr Ty Body)} {text rest : List Token} :
    PrintingList types bodies end_ exprs text → (parseExprList (parseExpr outer) end_).Yields text exprs rest
  | .nil => (yields_parseExprList (ne_comma_of_closing hend)).mpr (.inl ⟨rfl, rfl⟩)
  | .exprs h => by
    have hdelimited : Delimited (expectExpr (parseExpr outer)) end_ rest exprs text :=
      delimited_of_printingExprs ho hend h
    obtain ⟨t, ts, rfl, hstarts⟩ := h.starts
    refine (yields_parseExprList (ne_comma_of_closing hend)).mpr (.inr ⟨fun hfirst ↦ ?_, hdelimited⟩)
    exact hstarts.ne_op (List.mem_cons_of_mem _ hend) (Option.some.inj hfirst)

theorem delimited_of_printingExprs (ho : outer.Conforms types bodies) {end_ : String} (hend : end_ ∈ closing)
    {exprs : List (Expr Ty Body)} {text rest : List Token} :
    PrintingExprs types bodies end_ exprs text →
    Delimited (expectExpr (parseExpr outer)) end_ rest exprs text
  | .last h => .last (yields_expectExpr.mpr ((parses_of_printing ho h).2 le_rfl _ (stops_closing hend)))
  | .next h hmore =>
    .next (yields_expectExpr.mpr ((parses_of_printing ho h).2 le_rfl _ (stops_cons (by decide) _ _)))
      (delimited_of_printingExprs ho hend hmore)

end

end

/-! ## The theorem -/

/-- Where types and bodies are read from their texts and from nothing else, an expression is read from what `print`
makes of it, `parseExpr` accepts the texts of the grammar and no others, and no text is shorter than the one
printed. -/
theorem parseExpr_grammar {printType : Ty → List Token} {printBody : Body → List Token}
    (ho : outer.Conforms types bodies) (htypes : ∀ type, types type (printType type))
    (hbodies : ∀ body, bodies body (printBody body)) :
    (∀ (e : Expr Ty Body) (rest : List Token), Stops ternLevel rest →
      (parseExpr outer).run (print printType printBody e ++ rest) = .ok (some e, rest)) ∧
    (∀ (ts : List Token) (e : Expr Ty Body) (rest : List Token), (parseExpr outer).run ts = .ok (some e, rest) ↔
      ∃ text, ts = text ++ rest ∧ Printing types bodies ternLevel e text ∧ Stops ternLevel rest) ∧
    (Shortest types printType → Shortest bodies printBody →
      Shortest (Printing types bodies ternLevel) (print printType printBody)) := by
  have hcomplete {e : Expr Ty Body} {text rest : List Token} (h : Printing types bodies ternLevel e text)
      (hstops : Stops ternLevel rest) : (parseExpr outer).Yields text (some e) rest :=
    (parses_of_printing ho h).2 le_rfl rest hstops
  refine ⟨fun e rest hstops ↦ hcomplete (printing_print htypes hbodies e) hstops, fun ts e rest ↦ ?_, shortest_print⟩
  rw [run_eq_ok]
  refine exists_congr fun text ↦ and_congr_right fun _ ↦ ?_
  constructor
  · exact fun hyields ↦ sound_parseExpr ho (text.length + 1) (Nat.lt_succ_self _) hyields
  · exact fun ⟨hprinting, hstops⟩ ↦ hcomplete hprinting hstops

end

/-! ## An instance -/

/-- Named types, and bodies without statements. -/
def plainOuter : Outer String Unit where
  parseType := parseLiteralToken id .identifier
  parseFuncBody := do
    expectOp "\x7b"
    expectOp "\x7d"

theorem plainOuter_conforms :
    plainOuter.Conforms (fun name text ↦ text = [⟨.identifier, name⟩]) (fun _ text ↦ text = [op "\x7b", op "\x7d"]) where
  type_sound h := by
    obtain ⟨view, rfl, rfl⟩ := yields_parseLiteralToken_some.mp h
    rfl
  type_complete h _ := yields_parseLiteralToken_some.mpr ⟨_, h, rfl⟩
  type_starts h := ⟨_, [], h, by simp [keyword]⟩
  body_sound h := by
    obtain ⟨t, u, _, rfl, hopen, hclose⟩ := yields_bind.mp h
    rw [yields_expectView.mp hopen, yields_expectView.mp hclose]
    rfl
  body_complete h := by
    subst h
    exact yields_bind.mpr ⟨[_], [_], (), rfl, yields_expectView.mpr rfl, yields_expectView.mpr rfl⟩
  body_starts h := ⟨_, h⟩

/-- `-a * (b + c) ? make T d[0] : func(x: T) -> T {}`. -/
def conditional : Expr String Unit :=
  .ternary (.binary (.unary .neg (.ident "a")) .mul (.binary (.ident "b") .add (.ident "c")))
    (.make "T" (.subscript (.ident "d") (.number "0"))) (.lambda [⟨"x", .val, "T"⟩] (some "T") ())

theorem parseExpr_conditional :
    (parseExpr plainOuter).run [op "-", ⟨.identifier, "a"⟩, op "*", op "(", ⟨.identifier, "b"⟩, op "+",
      ⟨.identifier, "c"⟩, op ")", op "?", keyword "make", ⟨.identifier, "T"⟩, ⟨.identifier, "d"⟩, op "[",
      ⟨.number, "0"⟩, op "]", op ":", keyword "func", op "(", ⟨.identifier, "x"⟩, op ":", ⟨.identifier, "T"⟩, op ")",
      op "->", ⟨.identifier, "T"⟩, op "\x7b", op "\x7d", op ";"] = .ok (some conditional, [op ";"]) :=
  (parseExpr_grammar plainOuter_conforms (fun _ ↦ rfl) (fun _ ↦ rfl)).1 conditional [op ";"]
    (stops_cons (by decide) _ _)

end Stela.Syntax.ParseExpr
