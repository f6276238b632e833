import Stela.Syntax.ExprGrammar

/-!
# What the parser of expressions reads

For every function of the parser, the texts that it reads in terms of the texts that the functions it calls read, and
the token behind them where the function looks at it.
-/

namespace Stela.Syntax.ParseExpr

open Library.Parser ParseTokens

section

variable {α : Type} {text rest : List Token}

/-! ## Lists -/

section

variable {parse : ParseTokens α} {a b close : String} {elems : List α}

theorem yields_listStep {r : List α ⊕ List α} : (listStep parse a b elems).Yields text r rest ↔
    ∃ t elem delim, text = t ++ [op delim] ∧ (delim = a ∨ delim = b) ∧ parse.Yields t elem (op delim :: rest) ∧
      r = if delim = "," then .inr (elems ++ [elem]) else .inl (elems ++ [elem]) := by
  rw [listStep, yields_bind]
  simp only [yields_bind_pure, expectEitherOp, yields_expectEither]
  constructor
  · rintro ⟨t, u, elem, rfl, hparse, delim, ⟨rfl, hdelim⟩, rfl⟩
    exact ⟨t, elem, delim, rfl, hdelim, hparse, rfl⟩
  · rintro ⟨t, elem, delim, rfl, hdelim, hparse, rfl⟩
    exact ⟨t, [op delim], elem, rfl, hparse, delim, ⟨rfl, hdelim⟩, rfl⟩

/-- One or more elements, with the bracket behind them. -/
inductive Delimited (parse : ParseTokens α) (close : String) (rest : List Token) : List α → List Token → Prop
  | last {elem t} : parse.Yields t elem (op close :: rest) → Delimited parse close rest [elem] (t ++ [op close])
  | next {elem elems t u} : parse.Yields t elem (op "," :: (u ++ rest)) → Delimited parse close rest elems u →
      Delimited parse close rest (elem :: elems) (t ++ op "," :: u)

theorem yields_parseList (hclose : close ≠ ",") (hdelims : ∀ delim, delim = a ∨ delim = b ↔ delim = "," ∨ delim = close) :
    (parseList parse a b).Yields text elems rest ↔ Delimited parse close rest elems text := by
  have hloops (before : List α) : Loops (listStep parse a b) rest before text elems ↔
      ∃ more, elems = before ++ more ∧ Delimited parse close rest more text := by
    constructor
    · intro h
      induction h with
      | leave h =>
        obtain ⟨t, elem, delim, rfl, hdelim, hparse, hr⟩ := yields_listStep.mp h
        rcases (hdelims delim).mp hdelim with rfl | rfl
        · cases hr
        · rw [if_neg hclose] at hr
          cases hr
          exact ⟨[elem], rfl, .last hparse⟩
      | next h _ ih =>
        obtain ⟨t, elem, delim, rfl, hdelim, hparse, hr⟩ := yields_listStep.mp h
        obtain ⟨more, rfl, hmore⟩ := ih
        rcases (hdelims delim).mp hdelim with rfl | rfl
        · cases hr
          rw [List.append_assoc, List.append_assoc]
          exact ⟨elem :: more, rfl, .next hparse hmore⟩
        · rw [if_neg hclose] at hr
          cases hr
    · rintro ⟨more, rfl, h⟩
      induction h generalizing before with
      | last h => exact .leave (yields_listStep.mpr ⟨_, _, close, rfl, (hdelims _).mpr (.inr rfl), h, (if_neg hclose).symm⟩)
      | @next elem elems t u h _ ih =>
        rw [List.append_cons t (op ",") u, List.append_cons before elem elems]
        exact .next (yields_listStep.mpr ⟨t, elem, ",", rfl, (hdelims _).mpr (.inl rfl), h, rfl⟩) (ih _)
  rw [parseList, yields_loop, hloops []]
  simp

end

/-! ## Choices -/

/-- A test of the token under the cursor, without a node when it fails. -/
theorem yields_ifCheck_none {type : Lex.TokenType} {view : String} {p : ParseTokens (Option α)} {r : Option α} :
    (check type view >>= fun b ↦ if b = true then p else pure none).Yields text r rest ↔
      (∃ u, text = ⟨type, view⟩ :: u ∧ p.Yields u r rest) ∨
        text = [] ∧ r = none ∧ rest.head? ≠ some ⟨type, view⟩ := by
  rw [yields_ifCheck, yields_pure]
  constructor
  · rintro (h | ⟨hhead, rfl, rfl⟩)
    · exact .inl h
    · exact .inr ⟨rfl, rfl, hhead⟩
  · rintro (h | ⟨rfl, rfl, hhead⟩)
    · exact .inl h
    · exact .inr ⟨hhead, rfl, rfl⟩

/-- Without a node nothing is read, and the token under the cursor satisfies the condition. -/
def Declines (p : ParseTokens (Option α)) (H : Option Token → Prop) : Prop :=
  ∀ {text rest}, p.Yields text none rest ↔ text = [] ∧ H rest.head?

theorem Declines.yields_orNode {p q : ParseTokens (Option α)} {H : Option Token → Prop} (hp : Declines p H) {a : α} :
    (orNode p q).Yields text (some a) rest ↔
      p.Yields text (some a) rest ∨ H (text ++ rest).head? ∧ q.Yields text (some a) rest := by
  rw [ParseTokens.yields_orNode]
  constructor
  · rintro (⟨a', ha, hyields⟩ | ⟨t, u, rfl, hnone, hyields⟩)
    · cases ha
      exact .inl hyields
    · obtain ⟨rfl, hhead⟩ := hp.mp hnone
      exact .inr ⟨hhead, hyields⟩
  · rintro (hyields | ⟨hhead, hyields⟩)
    · exact .inl ⟨a, rfl, hyields⟩
    · exact .inr ⟨[], text, rfl, hp.mpr ⟨rfl, hhead⟩, hyields⟩

/-- The parser has a node whenever it succeeds. -/
def Always (p : ParseTokens (Option α)) : Prop := ∀ ⦃text rest⦄, ¬p.Yields text none rest

theorem always_pure (a : α) : Always (pure (some a)) := by
  intro text rest h
  cases (yields_pure.mp h).2

theorem always_fail (f : Failure) : Always (fail f : ParseTokens (Option α)) := fun _ _ ↦ yields_fail

theorem always_bind {β : Type} {q : ParseTokens β} {f : β → ParseTokens (Option α)} (h : ∀ b, Always (f b)) :
    Always (q >>= f) := by
  intro text rest hnone
  obtain ⟨t, u, b, -, -, hf⟩ := yields_bind.mp hnone
  exact h b hf

theorem always_some {p : ParseTokens α} : Always (some <$> p) := always_bind fun _ ↦ always_pure _

section

variable {β : Type} {p q : ParseTokens (Option α)} {H H' : Option Token → Prop}

theorem Declines.ifCheck {type : Lex.TokenType} {view : String} (hp : Always p) (hq : Declines q H) :
    Declines (do if ← check type view then p else q) fun t ↦ t ≠ some ⟨type, view⟩ ∧ H t := by
  intro text rest
  rw [yields_ifCheck, hq]
  constructor
  · rintro (⟨u, -, h⟩ | ⟨hhead, rfl, h⟩)
    · exact absurd h (@hp u rest)
    · exact ⟨rfl, hhead, h⟩
  · rintro ⟨rfl, hhead, h⟩
    exact .inr ⟨hhead, rfl, h⟩

/-- An alternative that begins with a token of its own. -/
theorem declines_ifCheck {type : Lex.TokenType} {view : String} (hp : Always p) :
    Declines (do if ← check type view then p else return none) (· ≠ some ⟨type, view⟩) := by
  intro text rest
  rw [yields_ifCheck_none]
  constructor
  · rintro (⟨u, -, h⟩ | ⟨rfl, -, hhead⟩)
    · exact absurd h (@hp u rest)
    · exact ⟨rfl, hhead⟩
  · rintro ⟨rfl, hhead⟩
    exact .inr ⟨rfl, rfl, hhead⟩

theorem head_ifCheck {type : Lex.TokenType} {view : String} {text rest : List Token} {a : α}
    (h : (do if ← check type view then p else return none : ParseTokens (Option α)).Yields text (some a) rest) :
    (text ++ rest).head? = some ⟨type, view⟩ := by
  rcases yields_ifCheck_none.mp h with ⟨u, rfl, -⟩ | ⟨-, hsome, -⟩
  · rfl
  · cases hsome

theorem Declines.orNode (hp : Declines p H) (hq : Declines q H') : Declines (orNode p q) fun t ↦ H t ∧ H' t := by
  intro text rest
  rw [ParseTokens.yields_orNode]
  constructor
  · rintro (⟨a, ha, -⟩ | ⟨t, u, rfl, hnone, hnone'⟩)
    · cases ha
    · obtain ⟨rfl, h'⟩ := hq.mp hnone'
      obtain ⟨rfl, h⟩ := hp.mp hnone
      exact ⟨rfl, h, h'⟩
  · rintro ⟨rfl, h, h'⟩
    exact .inr ⟨[], [], rfl, hp.mpr ⟨rfl, h⟩, hq.mpr ⟨rfl, h'⟩⟩

theorem Declines.thenNode {f : α → ParseTokens (Option β)} (hp : Declines p H) (hf : ∀ a, Always (f a)) :
    Declines (thenNode p f) H := by
  intro text rest
  rw [ParseTokens.thenNode, yields_bind, ← hp]
  constructor
  · rintro ⟨t, u, found, rfl, hfound, h⟩
    cases found with
    | none =>
      obtain ⟨rfl, -⟩ := yields_pure.mp h
      rw [List.append_nil]
      exact hfound
    | some a => exact absurd h (@hf a u rest)
  · intro h
    exact ⟨text, [], none, (List.append_nil text).symm, h, yields_pure.mpr ⟨rfl, rfl⟩⟩

end

end

/-! ## Literals -/

section

variable {Ty Body : Type} {outer : Outer Ty Body} {parseExpr : ParseTokens (Option (Expr Ty Body))}
  {text rest : List Token} {e : Expr Ty Body}

theorem yields_expectExpr {parse : ParseTokens (Option (Expr Ty Body))} :
    (expectExpr parse).Yields text e rest ↔ parse.Yields text (some e) rest :=
  yields_expectNode

theorem yields_parseExprList {end_ : String} (hend : end_ ≠ ",") {exprs : List (Expr Ty Body)} :
    (parseExprList parseExpr end_).Yields text exprs rest ↔
      text = [op end_] ∧ exprs = [] ∨
        (text ++ rest).head? ≠ some (op end_) ∧ Delimited (expectExpr parseExpr) end_ rest exprs text := by
  rw [parseExprList, checkOp, yields_ifCheck, yields_parseList hend fun _ ↦ Iff.rfl]
  simp only [yields_pure]
  constructor
  · rintro (⟨u, rfl, rfl, rfl⟩ | h)
    · exact .inl ⟨rfl, rfl⟩
    · exact .inr h
  · rintro (⟨rfl, rfl⟩ | h)
    · exact .inl ⟨[], rfl, rfl, rfl⟩
    · exact .inr h

section

variable {α : Type} {literal : String → α} {type : Lex.TokenType}

theorem yields_parseLiteralToken {r : Option α} : (parseLiteralToken literal type).Yields text r rest ↔
    (∃ view, text = [⟨type, view⟩] ∧ r = some (literal view)) ∨
      text = [] ∧ r = none ∧ rest.head?.any (·.type = type) = false := by
  simp only [parseLiteralToken, yields_bind, yields_peekType, yields_ite, yields_loc, yields_expect, yields_pure]
  constructor
  · rintro ⟨t, u, b, rfl, ⟨rfl, hpeek⟩, ⟨rfl, v, w, -, rfl, ⟨rfl, -⟩, x, y, view, rfl, rfl, rfl, rfl⟩ | ⟨hb, rfl, rfl⟩⟩
    · exact .inl ⟨view, rfl, rfl⟩
    · exact .inr ⟨rfl, rfl, hpeek.trans (Bool.not_eq_true b ▸ hb)⟩
  · rintro (⟨view, rfl, rfl⟩ | ⟨rfl, rfl, hhead⟩)
    · exact ⟨[], _, true, rfl, ⟨rfl, decide_eq_true rfl⟩,
        .inl ⟨rfl, [], _, (), rfl, ⟨rfl, List.cons_ne_nil _ _⟩, [_], [], view, rfl, rfl, rfl, rfl⟩⟩
    · exact ⟨[], [], false, rfl, ⟨rfl, hhead⟩, .inr ⟨Bool.false_ne_true, rfl, rfl⟩⟩

theorem yields_parseLiteralToken_some {a : α} : (parseLiteralToken literal type).Yields text (some a) rest ↔
    ∃ view, text = [⟨type, view⟩] ∧ a = literal view := by
  rw [yields_parseLiteralToken]
  simp

theorem declines_parseLiteralToken : Declines (parseLiteralToken literal type) (·.any (·.type = type) = false) := by
  intro text rest
  rw [yields_parseLiteralToken]
  simp

end

/-- `parseIdent` has the form of a literal. -/
theorem parseIdent_eq : (parseIdent : ParseTokens (Option (Expr Ty Body))) = parseLiteralToken .ident .identifier := rfl

theorem yields_parseBool_some : (parseBool : ParseTokens (Option (Expr Ty Body))).Yields text (some e) rest ↔
    text = [keyword "true"] ∧ e = .bool true ∨ text = [keyword "false"] ∧ e = .bool false := by
  simp only [parseBool, checkKeyword, yields_ifCheck, yields_pure]
  constructor
  · rintro (⟨u, rfl, rfl, he⟩ | ⟨-, ⟨u, rfl, rfl, he⟩ | ⟨-, -, he⟩⟩) <;> cases he
    · exact .inl ⟨rfl, rfl⟩
    · exact .inr ⟨rfl, rfl⟩
  · rintro (⟨rfl, rfl⟩ | ⟨rfl, rfl⟩)
    · exact .inl ⟨[], rfl, rfl, rfl⟩
    · exact .inr ⟨by simp [keyword], .inl ⟨[], rfl, rfl, rfl⟩⟩

theorem declines_parseBool : Declines (parseBool : ParseTokens (Option (Expr Ty Body)))
    fun t ↦ t ≠ some (keyword "true") ∧ t ≠ some (keyword "false") := by
  intro text rest
  simp only [parseBool, checkKeyword, yields_ifCheck, yields_pure]
  constructor
  · rintro (⟨u, rfl, rfl, he⟩ | ⟨htrue, ⟨u, rfl, rfl, he⟩ | ⟨hfalse, rfl, -⟩⟩)
    · cases he
    · cases he
    · exact ⟨rfl, htrue, hfalse⟩
  · rintro ⟨rfl, htrue, hfalse⟩
    exact .inr ⟨htrue, .inr ⟨hfalse, rfl, trivial⟩⟩

/-- An opening bracket, and the expressions up to the closing one. -/
theorem yields_bracketed {first close : String} {node : List (Expr Ty Body) → Expr Ty Body} {r : Option (Expr Ty Body)} :
    (do
      if ← checkOp first then
        let exprs ← parseExprList parseExpr close
        return some (node exprs)
      else return none : ParseTokens (Option (Expr Ty Body))).Yields text r rest ↔
    (∃ u exprs, text = op first :: u ∧ (parseExprList parseExpr close).Yields u exprs rest ∧ r = some (node exprs)) ∨
      text = [] ∧ r = none ∧ rest.head? ≠ some (op first) := by
  rw [checkOp, yields_ifCheck_none]
  simp only [yields_bind_pure]
  constructor
  · rintro (⟨u, rfl, exprs, hexprs, rfl⟩ | h)
    · exact .inl ⟨u, exprs, rfl, hexprs, rfl⟩
    · exact .inr h
  · rintro (⟨u, exprs, rfl, hexprs, rfl⟩ | h)
    · exact .inl ⟨u, rfl, exprs, hexprs, rfl⟩
    · exact .inr h

theorem yields_parseArray_some : (parseArray parseExpr).Yields text (some e) rest ↔
    ∃ u exprs, text = op "[" :: u ∧ (parseExprList parseExpr "]").Yields u exprs rest ∧ e = .array exprs := by
  rw [parseArray, yields_bracketed]
  simp

theorem declines_parseArray : Declines (parseArray parseExpr) (· ≠ some (op "[")) := by
  intro text rest
  rw [parseArray, yields_bracketed]
  simp

theorem yields_parseInitList_some : (parseInitList parseExpr).Yields text (some e) rest ↔
    ∃ u exprs, text = op "\x7b" :: u ∧ (parseExprList parseExpr "\x7d").Yields u exprs rest ∧
      e = .initList exprs := by
  rw [parseInitList, yields_bracketed]
  simp

theorem declines_parseInitList : Declines (parseInitList parseExpr) (· ≠ some (op "\x7b")) := by
  intro text rest
  rw [parseInitList, yields_bracketed]
  simp

/-! ## Lambdas -/

theorem yields_parseRef {byRef : ParamRef} : parseRef.Yields text byRef rest ↔
    text = [keyword "ref"] ∧ byRef = .ref ∨ text = [] ∧ byRef = .val ∧ rest.head? ≠ some (keyword "ref") := by
  simp only [parseRef, checkKeyword, yields_ifCheck, yields_pure]
  constructor
  · rintro (⟨u, rfl, rfl, rfl⟩ | ⟨hhead, rfl, rfl⟩)
    · exact .inl ⟨rfl, rfl⟩
    · exact .inr ⟨rfl, rfl, hhead⟩
  · rintro (⟨rfl, rfl⟩ | ⟨rfl, rfl, hhead⟩)
    · exact .inl ⟨[], rfl, rfl, rfl⟩
    · exact .inr ⟨hhead, rfl, rfl⟩

theorem yields_parseParam {param : FuncParam Ty} : (parseParam outer).Yields text param rest ↔
    ∃ t u, text = ⟨.identifier, param.name⟩ :: op ":" :: (t ++ u) ∧ parseRef.Yields t param.ref (u ++ rest) ∧
      outer.parseType.Yields u (some param.type) rest := by
  simp only [parseParam, yields_bind, yields_loc, expectID, yields_expect, expectOp, yields_expectView,
    yields_expectNode, yields_pure]
  constructor
  · rintro ⟨_, _, _, rfl, ⟨rfl, -⟩, _, _, name, rfl, rfl, _, _, _, rfl, rfl, t, _, byRef, rfl, href, u, _, type, rfl,
      htype, rfl, rfl⟩
    rw [List.append_nil] at href ⊢
    exact ⟨t, u, rfl, href, htype⟩
  · rintro ⟨t, u, rfl, href, htype⟩
    obtain ⟨name, byRef, type⟩ := param
    refine ⟨[], _, (), rfl, ⟨rfl, List.cons_ne_nil _ _⟩, [_], _, name, rfl, rfl, [_], _, (), rfl, rfl, t, u, byRef, rfl,
      href, u, [], type, (List.append_nil u).symm, htype, rfl, rfl⟩

theorem yields_parseFuncParams {params : List (FuncParam Ty)} : (parseFuncParams outer).Yields text params rest ↔
    ∃ u, text = op "(" :: u ∧ (u = [op ")"] ∧ params = [] ∨
      (u ++ rest).head? ≠ some (op ")") ∧ Delimited (parseParam outer) ")" rest params u) := by
  have hdelims (delim : String) : delim = ")" ∨ delim = "," ↔ delim = "," ∨ delim = ")" := or_comm
  rw [parseFuncParams, yields_bind]
  simp only [expectOp, yields_expectView]
  constructor
  · rintro ⟨_, u, _, rfl, rfl, h⟩
    refine ⟨u, rfl, ?_⟩
    rcases yields_ifCheck.mp h with ⟨v, rfl, h⟩ | ⟨hhead, h⟩
    · obtain ⟨rfl, rfl⟩ := yields_pure.mp h
      exact .inl ⟨rfl, rfl⟩
    · exact .inr ⟨hhead, (yields_parseList (by decide) hdelims).mp h⟩
  · rintro ⟨u, rfl, h⟩
    refine ⟨[_], u, (), rfl, rfl, yields_ifCheck.mpr ?_⟩
    rcases h with ⟨rfl, rfl⟩ | ⟨hhead, h⟩
    · exact .inl ⟨[], rfl, yields_pure.mpr ⟨rfl, rfl⟩⟩
    · exact .inr ⟨hhead, (yields_parseList (by decide) hdelims).mpr h⟩

theorem yields_parseFuncRet {ret : Option Ty} : (parseFuncRet outer).Yields text ret rest ↔
    (∃ u type, text = op "->" :: u ∧ outer.parseType.Yields u (some type) rest ∧ ret = some type) ∨
      text = [] ∧ ret = none ∧ rest.head? ≠ some (op "->") := by
  rw [parseFuncRet, checkOp, yields_ifCheck_none]
  simp only [yields_bind_pure, yields_expectNode]
  constructor
  · rintro (⟨u, rfl, type, htype, rfl⟩ | h)
    · exact .inl ⟨u, type, rfl, htype, rfl⟩
    · exact .inr h
  · rintro (⟨u, type, rfl, htype, rfl⟩ | h)
    · exact .inl ⟨u, rfl, type, htype, rfl⟩
    · exact .inr h

theorem yields_parseLambda_some : (parseLambda outer).Yields text (some e) rest ↔
    ∃ t u v params ret body, text = keyword "func" :: (t ++ (u ++ v)) ∧
      (parseFuncParams outer).Yields t params (u ++ (v ++ rest)) ∧ (parseFuncRet outer).Yields u ret (v ++ rest) ∧
      outer.parseFuncBody.Yields v body rest ∧ e = .lambda params ret body := by
  rw [parseLambda, checkKeyword, yields_ifCheck_none]
  simp only [yields_bind, yields_pure]
  constructor
  · rintro (⟨_, rfl, t, _, params, rfl, hparams, u, _, ret, rfl, hret, v, _, body, rfl, hbody, rfl, he⟩ | ⟨-, he, -⟩) <;>
      cases he
    rw [List.append_nil] at hparams hret ⊢
    rw [List.append_assoc] at hparams
    exact ⟨t, u, v, params, ret, body, rfl, hparams, hret, hbody, rfl⟩
  · rintro ⟨t, u, v, params, ret, body, rfl, hparams, hret, hbody, rfl⟩
    rw [← List.append_assoc] at hparams
    exact .inl ⟨_, rfl, t, _, params, rfl, hparams, u, v, ret, rfl, hret, v, [], body, (List.append_nil v).symm, hbody,
      rfl, rfl⟩

/-! ## Terms and what follows them -/

/-- The texts of a term in front of the rest. -/
inductive Term (outer : Outer Ty Body) (parseExpr : ParseTokens (Option (Expr Ty Body))) (rest : List Token) :
    Expr Ty Body → List Token → Prop
  | paren {e t} : parseExpr.Yields t (some e) (op ")" :: rest) → Term outer parseExpr rest e (op "(" :: (t ++ [op ")"]))
  | ident {name} : Term outer parseExpr rest (.ident name) [⟨.identifier, name⟩]
  | string {view} : Term outer parseExpr rest (.string (trim view)) [⟨.string, view⟩]
  | char {view} : Term outer parseExpr rest (.char (trim view)) [⟨.character, view⟩]
  | number {view} : Term outer parseExpr rest (.number view) [⟨.number, view⟩]
  | troo : Term outer parseExpr rest (.bool true) [keyword "true"]
  | fols : Term outer parseExpr rest (.bool false) [keyword "false"]
  | array {exprs u} : (parseExprList parseExpr "]").Yields u exprs rest →
      Term outer parseExpr rest (.array exprs) (op "[" :: u)
  | initList {exprs u} : (parseExprList parseExpr "\x7d").Yields u exprs rest →
      Term outer parseExpr rest (.initList exprs) (op "\x7b" :: u)
  | lambda {params ret body t u v} : (parseFuncParams outer).Yields t params (u ++ (v ++ rest)) →
      (parseFuncRet outer).Yields u ret (v ++ rest) → outer.parseFuncBody.Yields v body rest →
      Term outer parseExpr rest (.lambda params ret body) (keyword "func" :: (t ++ (u ++ v)))

theorem yields_parseTerm :
    (parseTerm outer parseExpr).Yields text (some e) rest ↔ Term outer parseExpr rest e text := by
  rw [parseTerm, checkOp, yields_ifCheck, parseIdent_eq, declines_parseLiteralToken.yields_orNode, parseLitr,
    parseString, parseChar, parseNumber, declines_parseLiteralToken.yields_orNode,
    declines_parseLiteralToken.yields_orNode, declines_parseLiteralToken.yields_orNode,
    declines_parseBool.yields_orNode, declines_parseArray.yields_orNode, declines_parseInitList.yields_orNode,
    yields_parseInitList_some, yields_parseArray_some, yields_parseBool_some]
  simp only [yields_parseLiteralToken_some]
  constructor
  · rintro (⟨u, rfl, h⟩ | ⟨-, ⟨name, rfl, rfl⟩ | ⟨-, ⟨view, rfl, rfl⟩ | ⟨-, ⟨view, rfl, rfl⟩ | ⟨-, ⟨view, rfl, rfl⟩ |
      ⟨-, (⟨rfl, rfl⟩ | ⟨rfl, rfl⟩) | ⟨-, ⟨u, exprs, rfl, h, rfl⟩ | ⟨-, ⟨u, exprs, rfl, h, rfl⟩ |
      ⟨-, h⟩⟩⟩⟩⟩⟩⟩⟩)
    · obtain ⟨t, u, node, rfl, hnode, h⟩ := yields_bind.mp h
      obtain ⟨v, w, _, rfl, hclose, h⟩ := yields_bind.mp h
      obtain ⟨rfl, hsome⟩ := yields_pure.mp h
      obtain rfl := yields_expectView.mp hclose
      cases hsome
      exact .paren (yields_expectNode.mp hnode)
    · exact .ident
    · exact .string
    · exact .char
    · exact .number
    · exact .troo
    · exact .fols
    · exact .array h
    · exact .initList h
    · obtain ⟨t, u, v, params, ret, body, rfl, hparams, hret, hbody, rfl⟩ := yields_parseLambda_some.mp h
      exact .lambda hparams hret hbody
  · intro h
    cases h with
    | paren h =>
      refine .inl ⟨_, rfl, Yields.bind (yields_expectNode.mpr h) (yields_bind.mpr ⟨[_], [], (), rfl, ?_, ?_⟩)⟩
      · exact yields_expectView.mpr rfl
      · exact yields_pure.mpr ⟨rfl, rfl⟩
    | ident => simp [op]
    | string => simp [op]
    | char => simp [op]
    | number => simp [op]
    | troo => simp [op, keyword]
    | fols => simp [op, keyword]
    | array h => simp [op, keyword, h]
    | initList h => simp [op, keyword, h]
    | lambda hparams hret hbody =>
      have h := yields_parseLambda_some.mpr ⟨_, _, _, _, _, _, rfl, hparams, hret, hbody, rfl⟩
      simpa [op, keyword] using h

theorem Delimited.ne_nil {α : Type} {parse : ParseTokens α} {close : String} {elems : List α}
    (h : Delimited parse close rest elems text) : text ≠ [] := by
  cases h <;> simp

theorem parseExprList_ne_nil {end_ : String} (hend : end_ ≠ ",") {exprs : List (Expr Ty Body)}
    (h : (parseExprList parseExpr end_).Yields text exprs rest) : text ≠ [] := by
  rcases (yields_parseExprList hend).mp h with ⟨rfl, -⟩ | ⟨-, h⟩
  · exact List.cons_ne_nil _ _
  · exact h.ne_nil

/-- The texts that go on with a term. -/
inductive Nested (parseExpr : ParseTokens (Option (Expr Ty Body))) (rest : List Token) (lhs : Expr Ty Body) :
    Expr Ty Body → List Token → Prop
  | call {args u} : (parseExprList parseExpr ")").Yields u args rest →
      Nested parseExpr rest lhs (.call lhs args) (op "(" :: u)
  | subscript {index u} : parseExpr.Yields u (some index) (op "]" :: rest) →
      Nested parseExpr rest lhs (.subscript lhs index) (op "[" :: (u ++ [op "]"]))
  | member {name} : Nested parseExpr rest lhs (.member lhs name) [op ".", ⟨.identifier, name⟩]

variable {lhs : Expr Ty Body}

theorem yields_nestedStep_next :
    (nestedStep parseExpr lhs).Yields text (.inr e) rest ↔ Nested parseExpr rest lhs e text := by
  simp only [nestedStep, checkOp, yields_ifCheck]
  simp only [yields_bind, yields_loc, yields_expectExpr, expectOp, yields_expectView, expectID, yields_expect, yields_pure]
  constructor
  · rintro (⟨_, rfl, _, _, _, rfl, ⟨rfl, -⟩, u, _, args, rfl, hargs, rfl, he⟩ |
      ⟨-, ⟨_, rfl, u, _, index, rfl, hindex, _, _, _, rfl, rfl, rfl, he⟩ |
        ⟨-, ⟨_, rfl, _, _, name, rfl, rfl, rfl, he⟩ | ⟨-, -, he⟩⟩⟩) <;> cases he
    · rw [List.append_nil]
      exact .call hargs
    · exact .subscript hindex
    · exact .member
  · intro h
    cases h with
    | call hargs =>
      have hne := List.append_ne_nil_of_left_ne_nil (parseExprList_ne_nil (by decide) hargs) rest
      exact .inl ⟨_, rfl, [], _, (), rfl, ⟨rfl, hne⟩, _, [], _, (List.append_nil _).symm, hargs, rfl, rfl⟩
    | subscript hindex =>
      exact .inr ⟨by simp [op], .inl ⟨_, rfl, _, _, _, rfl, hindex, [_], [], (), rfl, rfl, rfl, rfl⟩⟩
    | @member name =>
      exact .inr ⟨by simp [op], .inr ⟨by simp [op], .inl ⟨_, rfl, [_], [], name, rfl, rfl, rfl, rfl⟩⟩⟩

theorem yields_nestedStep_leave :
    (nestedStep parseExpr lhs).Yields text (.inl e) rest ↔ text = [] ∧ e = lhs ∧ Stops 0 rest := by
  simp only [nestedStep, checkOp, yields_ifCheck, stops_zero, op]
  simp only [yields_bind, yields_pure]
  constructor
  · rintro (⟨_, rfl, _, _, _, rfl, -, _, _, _, rfl, -, -, he⟩ |
      ⟨hcall, ⟨_, rfl, _, _, _, rfl, -, _, _, _, rfl, -, -, he⟩ |
        ⟨hsubscript, ⟨_, rfl, _, _, _, rfl, -, -, he⟩ | ⟨hmember, rfl, he⟩⟩⟩) <;> cases he
    exact ⟨rfl, rfl, hcall, hsubscript, hmember⟩
  · rintro ⟨rfl, rfl, hcall, hsubscript, hmember⟩
    exact .inr ⟨hcall, .inr ⟨hsubscript, .inr ⟨hmember, rfl, rfl⟩⟩⟩

theorem yields_parseNested : (parseNested outer parseExpr).Yields text (some e) rest ↔
    ∃ t u lhs, text = t ++ u ∧ Term outer parseExpr (u ++ rest) lhs t ∧ Loops (nestedStep parseExpr) rest lhs u e := by
  simp only [parseNested, yields_thenNode, yields_parseTerm, yields_map, yields_loop, Option.some.injEq,
    exists_eq_right]

/-! ## Operators -/

/-- The texts of a unary expression in front of the rest. -/
inductive Unary (outer : Outer Ty Body) (parseNested parseUnary : ParseTokens (Option (Expr Ty Body)))
    (rest : List Token) : Expr Ty Body → List Token → Prop
  | unary {oper e u} : parseUnary.Yields u (some e) rest →
      Unary outer parseNested parseUnary rest (.unary oper e) (op (unText oper) :: u)
  | make {type e t u} : outer.parseType.Yields t (some type) (u ++ rest) → parseUnary.Yields u (some e) rest →
      Unary outer parseNested parseUnary rest (.make type e) (keyword "make" :: (t ++ u))
  | nested {e t} : (∀ first ∈ (t ++ rest).head?, first ∉ prefixes) → parseNested.Yields t (some e) rest →
      Unary outer parseNested parseUnary rest e t

theorem yields_makeUnary {oper : UnOp} {parse : ParseTokens (Option (Expr Ty Body))} :
    (makeUnary oper parse).Yields text (some e) rest ↔ ∃ expr, parse.Yields text (some expr) rest ∧ e = .unary oper expr := by
  simp only [makeUnary, yields_bind_pure, yields_expectExpr, Option.some.injEq, eq_comm]

theorem yields_unaryBody {parse : ParseTokens (Option (Expr Ty Body))} :
    (unaryBody outer parseExpr parse).Yields text (some e) rest ↔
      Unary outer (parseNested outer parseExpr) parse rest e text := by
  simp only [unaryBody, checkOp, checkKeyword, yields_ifCheck, yields_makeUnary]
  constructor
  · rintro (⟨u, rfl, expr, h, rfl⟩ | ⟨hneg, ⟨u, rfl, expr, h, rfl⟩ | ⟨hnot, ⟨u, rfl, expr, h, rfl⟩ |
      ⟨hbit, ⟨u, rfl, h⟩ | ⟨hmake, h⟩⟩⟩⟩)
    · exact .unary h
    · exact .unary h
    · exact .unary h
    · obtain ⟨t, v, type, rfl, htype, h⟩ := yields_bind.mp h
      obtain ⟨expr, hexpr, he⟩ := yields_bind_pure.mp h
      cases he
      exact .make (yields_expectNode.mp htype) (yields_expectExpr.mp hexpr)
    · refine .nested (fun first hfirst hunary ↦ ?_) h
      simp only [prefixes, List.mem_cons, List.not_mem_nil, or_false] at hunary
      rcases hunary with rfl | rfl | rfl | rfl
      · exact hneg hfirst
      · exact hnot hfirst
      · exact hbit hfirst
      · exact hmake hfirst
  · intro h
    cases h with
    | @unary oper e u h =>
      cases oper with
      | neg => exact .inl ⟨u, rfl, e, h, rfl⟩
      | bool_not => exact .inr ⟨by simp [op, unText], .inl ⟨u, rfl, e, h, rfl⟩⟩
      | bit_not => exact .inr ⟨by simp [op, unText], .inr ⟨by simp [op, unText], .inl ⟨u, rfl, e, h, rfl⟩⟩⟩
    | make htype h =>
      refine .inr ⟨by simp [keyword], .inr ⟨by simp [keyword], .inr ⟨by simp [keyword], .inl ⟨_, rfl, ?_⟩⟩⟩⟩
      refine Yields.bind (yields_expectNode.mpr htype) ?_
      exact yields_bind_pure.mpr ⟨_, yields_expectExpr.mpr h, rfl⟩
    | nested hfirst h =>
      have hunary (t : Token) (ht : t ∈ prefixes) : (text ++ rest).head? ≠ some t := fun hhead ↦ hfirst t hhead ht
      exact .inr ⟨hunary _ (by simp [prefixes, op]), .inr ⟨hunary _ (by simp [prefixes, op]),
        .inr ⟨hunary _ (by simp [prefixes, op]), .inr ⟨hunary _ (by simp [prefixes, keyword]), h⟩⟩⟩⟩

section

variable {opers : List (String × BinOp)} {oper : BinOp} {lower : ParseTokens (Option (Expr Ty Body))}

theorem yields_checkOps_none : (checkOps opers).Yields text none rest ↔
    text = [] ∧ ∀ view oper, (view, oper) ∈ opers → rest.head? ≠ some (op view) := by
  induction opers with
  | nil => simp [checkOps, yields_pure]
  | cons first opers ih =>
    obtain ⟨view, oper⟩ := first
    simp only [checkOps, checkOp, yields_ifCheck, yields_pure, ih]
    constructor
    · rintro (⟨u, rfl, rfl, hnone⟩ | ⟨hhead, rfl, hlater⟩)
      · cases hnone
      · refine ⟨rfl, fun view' oper' hmem ↦ ?_⟩
        rcases List.mem_cons.mp hmem with heq | hmem
        · cases heq
          exact hhead
        · exact hlater view' oper' hmem
    · rintro ⟨rfl, h⟩
      exact .inr ⟨h view oper List.mem_cons_self, rfl, fun view' oper' hmem ↦ h view' oper' (List.mem_cons_of_mem _ hmem)⟩

/-- Where every operator is listed with its own text, its text is read as the operator. -/
theorem yields_checkOps_binText (hopers : ∀ view oper, (view, oper) ∈ opers → view = binText oper)
    (hmem : (binText oper, oper) ∈ opers) : (checkOps opers).Yields [op (binText oper)] (some oper) rest := by
  induction opers with
  | nil => cases hmem
  | cons first opers ih =>
    obtain ⟨view, oper'⟩ := first
    obtain rfl := hopers view oper' List.mem_cons_self
    rw [checkOps, checkOp, yields_ifCheck]
    by_cases htext : binText oper' = binText oper
    · obtain rfl := binText_injective htext
      exact .inl ⟨[], rfl, yields_pure.mpr ⟨rfl, rfl⟩⟩
    · refine .inr ⟨fun h ↦ htext ?_, ih (fun view' oper' h ↦ hopers view' oper' (List.mem_cons_of_mem _ h)) ?_⟩
      · exact (congrArg Token.view (Option.some.inj h)).symm
      · rcases List.mem_cons.mp hmem with heq | hmem
        · exact absurd (congrArg Prod.fst heq).symm htext
        · exact hmem

theorem yields_binaryStep_leave : (binaryStep opers lower lhs).Yields text (.inl e) rest ↔
    text = [] ∧ e = lhs ∧ ∀ view oper, (view, oper) ∈ opers → rest.head? ≠ some (op view) := by
  rw [binaryStep, yields_bind]
  constructor
  · rintro ⟨t, u, found, rfl, hfound, h⟩
    cases found with
    | none =>
      obtain ⟨rfl, he⟩ := yields_pure.mp h
      cases he
      obtain ⟨rfl, hhead⟩ := yields_checkOps_none.mp hfound
      exact ⟨rfl, rfl, hhead⟩
    | some oper =>
      obtain ⟨rhs, -, he⟩ := yields_bind_pure.mp h
      cases he
  · rintro ⟨rfl, rfl, hhead⟩
    exact ⟨[], [], none, rfl, yields_checkOps_none.mpr ⟨rfl, hhead⟩, yields_pure.mpr ⟨rfl, rfl⟩⟩

theorem yields_binaryStep_next (hopers : ∀ view oper, (view, oper) ∈ opers → view = binText oper) :
    (binaryStep opers lower lhs).Yields text (.inr e) rest ↔
      ∃ oper u rhs, (binText oper, oper) ∈ opers ∧ text = op (binText oper) :: u ∧ lower.Yields u (some rhs) rest ∧
        e = .binary lhs oper rhs := by
  rw [binaryStep, yields_bind]
  constructor
  · rintro ⟨t, u, found, rfl, hfound, h⟩
    cases found with
    | none => cases (yields_pure.mp h).2
    | some oper =>
      obtain ⟨rhs, hrhs, he⟩ := yields_bind_pure.mp h
      obtain ⟨view, hmem, rfl⟩ := yields_checkOps_some hfound
      obtain rfl := hopers view oper hmem
      cases he
      exact ⟨oper, u, rhs, hmem, rfl, yields_expectExpr.mp hrhs, rfl⟩
  · rintro ⟨oper, u, rhs, hmem, rfl, hrhs, rfl⟩
    exact ⟨[_], u, some oper, rfl, yields_checkOps_binText hopers hmem,
      yields_bind_pure.mpr ⟨rhs, yields_expectExpr.mpr hrhs, rfl⟩⟩

theorem yields_parseLeft : (parseLeft opers lower).Yields text (some e) rest ↔
    ∃ t u lhs, text = t ++ u ∧ lower.Yields t (some lhs) (u ++ rest) ∧ Loops (binaryStep opers lower) rest lhs u e := by
  simp only [parseLeft, yields_thenNode, yields_map, yields_loop, Option.some.injEq, exists_eq_right]

end

theorem yields_parseTern : (parseTern outer parseExpr).Yields text (some e) rest ↔
    ((parseBoolOr (parseUnary outer parseExpr)).Yields text (some e) rest ∧ rest.head? ≠ some (op "?")) ∨
      ∃ t u v cond troo fols, text = t ++ op "?" :: (u ++ op ":" :: v) ∧
        (parseBoolOr (parseUnary outer parseExpr)).Yields t (some cond) (op "?" :: (u ++ op ":" :: (v ++ rest))) ∧
        parseExpr.Yields u (some troo) (op ":" :: (v ++ rest)) ∧ parseExpr.Yields v (some fols) rest ∧
        e = .ternary cond troo fols := by
  simp only [parseTern, yields_thenNode, checkOp, yields_ifCheck]
  simp only [yields_bind, yields_expectExpr, expectOp, yields_expectView, yields_pure]
  constructor
  · rintro ⟨t, _, cond, rfl, hcond, ⟨_, rfl, u, _, troo, rfl, htroo, _, _, _, rfl, rfl, v, _, fols, rfl, hfols, rfl, he⟩ |
      ⟨hhead, rfl, he⟩⟩ <;> cases he
    · rw [List.append_nil] at *
      exact .inr ⟨t, u, v, cond, troo, fols, rfl, by simpa [op] using hcond, htroo, hfols, rfl⟩
    · rw [List.append_nil]
      exact .inl ⟨hcond, hhead⟩
  · rintro (⟨h, hhead⟩ | ⟨t, u, v, cond, troo, fols, rfl, hcond, htroo, hfols, rfl⟩)
    · exact ⟨text, [], e, (List.append_nil text).symm, h, .inr ⟨hhead, rfl, rfl⟩⟩
    · refine ⟨t, _, cond, rfl, by simpa [op] using hcond, .inl ⟨_, rfl, u, _, troo, rfl, htroo, [_], v, (), rfl, rfl, ?_⟩⟩
      exact ⟨v, [], fols, (List.append_nil v).symm, hfols, rfl, rfl⟩

end

end Stela.Syntax.ParseExpr
