import Stela.Syntax.ParseType
import Stela.Syntax.Stat

/-!
# The parser of statements and declarations

The functions of `parse asgn.cpp`, `parse func.cpp`, `parse decl.cpp` and `parse stat.cpp`. Up to the definition of
`Block` the bodies of functions are a parameter, as for expressions. A loop that ends without a node is `many`.
-/

namespace Stela.Syntax.ParseStat

open Library.Parser ParseTokens ParseExpr

/-- `ast::Expression`. -/
abbrev ExprNode (Body : Type) := ParseExpr.Expr TypeExpr Body

abbrev AsgnNode (Body : Type) := Asgn (ExprNode Body)

/-- `ast::Func`. -/
structure Func (Body : Type) where
  external : Bool
  receiver : Option (FuncParam TypeExpr)
  name : String
  params : List (FuncParam TypeExpr)
  ret : Option TypeExpr
  body : Body

/-- The declarations of `ast.hpp` as the parser makes them. -/
inductive Decl (Body : Type) where
  | func (func : Func Body)
  | var (external : Bool) (name : String) (type : Option TypeExpr) (expr : Option (ParseExpr.Expr TypeExpr Body))
  | let_ (external : Bool) (name : String) (type : Option TypeExpr) (expr : ParseExpr.Expr TypeExpr Body)
  | typeAlias (name : String) (strong : Bool) (type : TypeExpr)

mutual

/-- The statements of `ast.hpp` as the parser makes them. -/
inductive Stat (Body : Type) where
  | block (nodes : List (Stat Body))
  | fi (cond : ParseExpr.Expr TypeExpr Body) (body : Stat Body) (elseBody : Option (Stat Body))
  | swich (expr : ParseExpr.Expr TypeExpr Body) (cases : List (SwitchCase Body))
  | brake
  | continu
  | ret (expr : Option (ParseExpr.Expr TypeExpr Body))
  | wile (cond : ParseExpr.Expr TypeExpr Body) (body : Stat Body)
  | four (init : Option (Asgn (ParseExpr.Expr TypeExpr Body))) (cond : ParseExpr.Expr TypeExpr Body)
      (incr : Option (Asgn (ParseExpr.Expr TypeExpr Body))) (body : Stat Body)
  | decl (decl : Decl Body)
  | asgn (asgn : Asgn (ParseExpr.Expr TypeExpr Body))

/-- One case of a switch; the default case has no expression. -/
inductive SwitchCase (Body : Type) where
  | mk (expr : Option (ParseExpr.Expr TypeExpr Body)) (body : Stat Body)

end

section

variable {Body : Type} (parseFuncBody : ParseTokens Body)

/-- What the parser of expressions calls of the other files. -/
def outerOf : Outer TypeExpr Body := ⟨parseType, parseFuncBody⟩

def parseExpr : ParseTokens (Option (ExprNode Body)) := Syntax.parseExpr (outerOf parseFuncBody)

def parseNested : ParseTokens (Option (ExprNode Body)) :=
  ParseExpr.parseNested (outerOf parseFuncBody) (parseExpr parseFuncBody)

/-! ## Assignments -/

def assignText : AssignOp → String
  | .add => "+="
  | .sub => "-="
  | .mul => "*="
  | .div => "/="
  | .mod => "%="
  | .bit_or => "|="
  | .bit_xor => "^="
  | .bit_and => "&="
  | .bit_shl => "<<="
  | .bit_shr => ">>="

/-- The operators in the order of the source. -/
def assignOps : List AssignOp := [.add, .sub, .mul, .div, .mod, .bit_shl, .bit_shr, .bit_and, .bit_xor, .bit_or]

/-- The first of the operators that the token under the cursor is. -/
def checkAssignOps : List AssignOp → ParseTokens (Option AssignOp)
  | [] => return none
  | oper :: opers => do if ← checkOp (assignText oper) then return some oper else checkAssignOps opers

def makeAssign (oper : AssignOp) (dst : ExprNode Body) : ParseTokens (AsgnNode Body) := do
  let src ← expectNode (parseExpr parseFuncBody) "expression"
  return .compAssign dst oper src

def callAssign : ExprNode Body → ParseTokens (AsgnNode Body)
  | .call func args => return .callAssign (.call func args)
  | _ => fail (.fatal "Expression used outside of assignment or function call")

/-- What `parseAsgn` does with a destination that no `:=` follows. -/
def asgnTo (dst : ExprNode Body) : ParseTokens (AsgnNode Body) := do
  if ← checkOp "++" then return .incrDecr dst true
  else if ← checkOp "--" then return .incrDecr dst false
  else if ← checkOp "=" then
    let src ← expectNode (parseExpr parseFuncBody) "expression"
    return .assign dst src
  else match ← checkAssignOps assignOps with
    | some oper => makeAssign parseFuncBody oper dst
    | none => callAssign dst

def asgnBehind : ExprNode Body → ParseTokens (AsgnNode Body)
  | .ident name => do
      if ← checkOp ":=" then
        let expr ← expectNode (parseExpr parseFuncBody) "expression"
        return .declAssign name expr
      else asgnTo parseFuncBody (.ident name)
  | dst => asgnTo parseFuncBody dst

def parseAsgn : ParseTokens (Option (AsgnNode Body)) :=
  thenNode (parseNested parseFuncBody) fun dst ↦ some <$> asgnBehind parseFuncBody dst

/-! ## Declarations -/

def parseReceiver : ParseTokens (Option (FuncParam TypeExpr)) := do
  if ← checkOp "(" then
    let param ← parseParam (outerOf parseFuncBody)
    expectOp ")"
    return some param
  else return none

def parseFunc (external : Bool) : ParseTokens (Option (Decl Body)) := do
  if ← checkKeyword "func" then
    let receiver ← parseReceiver parseFuncBody
    let name ← expectID
    let params ← parseFuncParams (outerOf parseFuncBody)
    let ret ← parseFuncRet (outerOf parseFuncBody)
    let body ← parseFuncBody
    return some (.func ⟨external, receiver, name, params, ret, body⟩)
  else return none

/-- A node behind a token. -/
def optNode {α : Type} (token : String) (parse : ParseTokens (Option α)) (msg : String) : ParseTokens (Option α) := do
  if ← checkOp token then
    let node ← expectNode parse msg
    return some node
  else return none

def parseVar (external : Bool) : ParseTokens (Option (Decl Body)) := do
  if ← checkKeyword "var" then
    let name ← expectID
    let type ← optNode ":" parseType "type after :"
    let expr ← optNode "=" (parseExpr parseFuncBody) "expression after ="
    expectOp ";"
    return some (.var external name type expr)
  else return none

def parseLet (external : Bool) : ParseTokens (Option (Decl Body)) := do
  if ← checkKeyword "let" then
    let name ← expectID
    let type ← optNode ":" parseType "type after :"
    expectOp "="
    let expr ← expectNode (parseExpr parseFuncBody) "expression after ="
    expectOp ";"
    return some (.let_ external name type expr)
  else return none

def parseTypealias (external : Bool) : ParseTokens (Option (Decl Body)) := do
  if ← checkKeyword "type" then
    if external then fail (.fatal "extern cannot be applied to type alias")
    else
      let name ← expectID
      let weak ← checkOp "="
      let type ← expectNode parseType "type"
      expectOp ";"
      return some (.typeAlias name (!weak) type)
  else return none

def parseDecl (external : Bool) : ParseTokens (Option (Decl Body)) :=
  orNode (parseFunc parseFuncBody external) <| orNode (parseVar parseFuncBody external) <|
    orNode (parseLet parseFuncBody external) (parseTypealias external)

/-! ## Statements -/

/-- What the cases of a switch end with. -/
def unexpectedCase {α : Type} : ParseTokens α where
  run
    | [] => .error .pastEnd
    | t :: _ => .error (.fatal ("Expected case or default but found " ++ t.print))
  suffix {ts a rest} h := by cases ts <;> cases h

theorem not_yields_unexpectedCase {α : Type} {text rest : List Token} {a : α} :
    ¬(unexpectedCase : ParseTokens α).Yields text a rest := by
  intro h
  have hrun : (unexpectedCase : ParseTokens α).run (text ++ rest) = .ok (a, rest) := h
  cases htext : text ++ rest <;> rw [htext] at hrun <;> cases hrun

section

variable (parseStat : ParseTokens (Option (Stat Body)))

def expectStat : ParseTokens (Stat Body) := expectNode parseStat "statement or block"

def parseElse : ParseTokens (Option (Stat Body)) := do
  if ← checkKeyword "else" then
    let elseBody ← expectStat parseStat
    return some elseBody
  else return none

def parseIf : ParseTokens (Option (Stat Body)) := do
  if ← checkKeyword "if" then
    let cond ← expectNode (parseExpr parseFuncBody) "condition expression"
    let body ← expectStat parseStat
    let elseBody ← parseElse parseStat
    return some (.fi cond body elseBody)
  else return none

/-- One iteration of the loop over the cases. -/
def switchStep (cases : List (SwitchCase Body)) :
    ParseTokens (List (SwitchCase Body) ⊕ List (SwitchCase Body)) := do
  if ← checkOp "\x7d" then return .inl cases
  else if ← checkKeyword "case" then
    let expr ← expectNode (parseExpr parseFuncBody) "expression"
    let body ← expectStat parseStat
    return .inr (cases ++ [.mk (some expr) body])
  else if ← checkKeyword "default" then
    let body ← expectStat parseStat
    return .inr (cases ++ [.mk none body])
  else unexpectedCase

theorem switchStep_consumes (cases : List (SwitchCase Body)) :
    (switchStep parseFuncBody parseStat cases).Consumes := by
  intro text s rest h
  rcases yields_ifCheck.mp h with ⟨u, rfl, -⟩ | ⟨-, h⟩
  · exact List.cons_ne_nil _ _
  rcases yields_ifCheck.mp h with ⟨u, rfl, -⟩ | ⟨-, h⟩
  · exact List.cons_ne_nil _ _
  rcases yields_ifCheck.mp h with ⟨u, rfl, -⟩ | ⟨-, h⟩
  · exact List.cons_ne_nil _ _
  · exact absurd h not_yields_unexpectedCase

def parseSwitch : ParseTokens (Option (Stat Body)) := do
  if ← checkKeyword "switch" then
    let expr ← expectNode (parseExpr parseFuncBody) "expression"
    expectOp "\x7b"
    let cases ← loop (switchStep parseFuncBody parseStat) (switchStep_consumes parseFuncBody parseStat) []
    return some (.swich expr cases)
  else return none

def parseKeywordStatement (node : Stat Body) (name : String) : ParseTokens (Option (Stat Body)) := do
  if ← checkKeyword name then
    expectOp ";"
    return some node
  else return none

def parseBreak : ParseTokens (Option (Stat Body)) := parseKeywordStatement .brake "break"

def parseContinue : ParseTokens (Option (Stat Body)) := parseKeywordStatement .continu "continue"

def parseReturn : ParseTokens (Option (Stat Body)) := do
  if ← checkKeyword "return" then
    if ← checkOp ";" then return some (.ret none)
    else
      let expr ← expectNode (parseExpr parseFuncBody) "expression or ;"
      expectOp ";"
      return some (.ret (some expr))
  else return none

def parseWhile : ParseTokens (Option (Stat Body)) := do
  if ← checkKeyword "while" then
    let cond ← expectNode (parseExpr parseFuncBody) "condition expression"
    let body ← expectStat parseStat
    return some (.wile cond body)
  else return none

def parseOptAsgnSemi : ParseTokens (Option (AsgnNode Body)) := do
  let node ← parseAsgn parseFuncBody
  expectOp ";"
  return node

def parseAsgnSemi : ParseTokens (Option (Stat Body)) :=
  thenNode (parseAsgn parseFuncBody) fun node ↦ do
    expectOp ";"
    return some (.asgn node)

def parseFor : ParseTokens (Option (Stat Body)) := do
  if ← checkKeyword "for" then
    expectOp "("
    let init ← parseOptAsgnSemi parseFuncBody
    let cond ← expectNode (parseExpr parseFuncBody) "condition expression"
    expectOp ";"
    let incr ← parseAsgn parseFuncBody
    expectOp ")"
    let body ← expectStat parseStat
    return some (.four init cond incr body)
  else return none

def parseBlock : ParseTokens (Option (Stat Body)) := do
  if ← checkOp "\x7b" then
    let nodes ← many parseStat
    expectOp "\x7d"
    return some (.block nodes)
  else return none

/-- The body of `parseStat`, which calls itself. -/
def statBody : ParseTokens (Option (Stat Body)) :=
  orNode (parseIf parseFuncBody parseStat) <| orNode (parseSwitch parseFuncBody parseStat) <|
    orNode parseBreak <| orNode parseContinue <| orNode (parseReturn parseFuncBody) <|
    orNode (parseWhile parseFuncBody parseStat) <| orNode (parseFor parseFuncBody parseStat) <|
    orNode (parseBlock parseStat) <| orNode (thenNode (parseDecl parseFuncBody false) fun node ↦ return some (.decl node)) <|
    parseAsgnSemi parseFuncBody

end

end

/-! ## The recursion of statements -/

section

variable {Body : Type} {parseFuncBody : ParseTokens Body} {k : ℕ} {p q : ParseTokens (Option (Stat Body))}

theorem agree_expectStat (h : AgreeBelow k p q) : AgreeBelow k (expectStat p) (expectStat q) := agree_expectNode h _

theorem agree_parseElse (h : AgreeBelow k p q) : AgreeBelow k (parseElse p) (parseElse q) :=
  agree_check ((agree_expectStat h).bind fun _ ↦ .refl k _) (.refl k _)

theorem agree_parseIf (h : AgreeBelow k p q) :
    AgreeBelow (k + 1) (parseIf parseFuncBody p) (parseIf parseFuncBody q) := by
  refine agree_ifCheck ((AgreeBelow.refl k _).bind fun _ ↦ ?_) (.refl _ _)
  exact (agree_expectStat h).bind fun _ ↦ (agree_parseElse h).bind fun _ ↦ .refl k _

theorem agree_switchStep (h : AgreeBelow k p q) (cases : List (SwitchCase Body)) :
    AgreeBelow (k + 1) (switchStep parseFuncBody p cases) (switchStep parseFuncBody q cases) := by
  refine agree_ifCheck (.refl _ _) (agree_ifCheck ?_ (agree_ifCheck ?_ (.refl _ _)))
  · exact (AgreeBelow.refl k _).bind fun _ ↦ (agree_expectStat h).bind fun _ ↦ .refl k _
  · exact (agree_expectStat h).bind fun _ ↦ .refl k _

theorem agree_parseSwitch (h : AgreeBelow k p q) :
    AgreeBelow (k + 1) (parseSwitch parseFuncBody p) (parseSwitch parseFuncBody q) := by
  refine agree_ifCheck ((AgreeBelow.refl k _).bind fun _ ↦ (AgreeBelow.refl k _).bind fun _ ↦ ?_) (.refl _ _)
  exact (AgreeBelow.loop (fun cases ↦ (agree_switchStep h cases).mono k.le_succ) []).bind fun _ ↦ .refl k _

theorem agree_parseWhile (h : AgreeBelow k p q) :
    AgreeBelow (k + 1) (parseWhile parseFuncBody p) (parseWhile parseFuncBody q) :=
  agree_ifCheck ((AgreeBelow.refl k _).bind fun _ ↦ (agree_expectStat h).bind fun _ ↦ .refl k _) (.refl _ _)

theorem agree_parseFor (h : AgreeBelow k p q) :
    AgreeBelow (k + 1) (parseFor parseFuncBody p) (parseFor parseFuncBody q) := by
  refine agree_ifCheck ((AgreeBelow.refl k _).bind fun _ ↦ (AgreeBelow.refl k _).bind fun _ ↦ ?_) (.refl _ _)
  refine (AgreeBelow.refl k _).bind fun _ ↦ (AgreeBelow.refl k _).bind fun _ ↦ (AgreeBelow.refl k _).bind fun _ ↦ ?_
  exact (AgreeBelow.refl k _).bind fun _ ↦ (agree_expectStat h).bind fun _ ↦ .refl k _

theorem agree_parseBlock (h : AgreeBelow k p q) : AgreeBelow (k + 1) (parseBlock p) (parseBlock q) :=
  agree_ifCheck ((agree_many h).bind fun _ ↦ .refl k _) (.refl _ _)

theorem guarded_statBody : Guarded (statBody parseFuncBody) := by
  intro k p q h
  refine agree_orNode (agree_parseIf h) (agree_orNode (agree_parseSwitch h) (agree_orNode (.refl _ _)
    (agree_orNode (.refl _ _) (agree_orNode (.refl _ _) (agree_orNode (agree_parseWhile h)
    (agree_orNode (agree_parseFor h) (agree_orNode (agree_parseBlock h) (.refl _ _))))))))

end

def parseStat {Body : Type} (parseFuncBody : ParseTokens Body) : ParseTokens (Option (Stat Body)) :=
  fix (statBody parseFuncBody)

theorem parseStat_eq {Body : Type} (parseFuncBody : ParseTokens Body) :
    parseStat parseFuncBody = statBody parseFuncBody (parseStat parseFuncBody) :=
  guarded_statBody.fix_eq

/-! ## The recursion of function bodies -/

section

variable {Body : Type} {k : ℕ} {b c : ParseTokens Body}

theorem agree_parseLambda (h : AgreeBelow k b c) :
    AgreeBelow k (parseLambda (outerOf b)) (parseLambda (outerOf c)) := by
  refine agree_check ?_ (.refl k _)
  exact (AgreeBelow.refl k _).bind fun _ ↦ (AgreeBelow.refl k _).bind fun _ ↦ h.bind fun _ ↦ .refl k _

/-! In the next lemmas the parser of the expressions in brackets is the same. -/

variable {p : ParseTokens (Option (ExprNode Body))}

theorem agree_litr (h : AgreeBelow k b c) : AgreeBelow k (parseLitr (outerOf b) p) (parseLitr (outerOf c) p) := by
  unfold parseLitr
  iterate 6 apply agree_orNode (.refl k _)
  exact agree_parseLambda h

theorem agree_term (h : AgreeBelow k b c) : AgreeBelow k (parseTerm (outerOf b) p) (parseTerm (outerOf c) p) :=
  agree_check (.refl k _) (agree_orNode (.refl k _) (agree_litr h))

theorem agree_nested (h : AgreeBelow k b c) :
    AgreeBelow k (ParseExpr.parseNested (outerOf b) p) (ParseExpr.parseNested (outerOf c) p) :=
  agree_thenNode (agree_term h) fun _ ↦ .refl k _

theorem agree_unary (h : AgreeBelow k b c) : AgreeBelow k (parseUnary (outerOf b) p) (parseUnary (outerOf c) p) := by
  refine AgreeBelow.fix_of fun u v huv ↦ ?_
  have hmake (oper : UnOp) : AgreeBelow k (makeUnary oper u) (makeUnary oper v) :=
    (agree_expectNode huv _).bind fun _ ↦ .refl k _
  refine agree_check (hmake _) (agree_check (hmake _) (agree_check (hmake _) (agree_check ?_ (agree_nested h))))
  exact (AgreeBelow.refl k _).bind fun _ ↦ (agree_expectNode huv _).bind fun _ ↦ .refl k _

theorem agree_parseExpr (h : AgreeBelow k b c) : AgreeBelow k (parseExpr b) (parseExpr c) := by
  refine AgreeBelow.fix guarded_parseTern guarded_parseTern fun l hl p q hpq ↦ ?_
  refine (guarded_parseTern l p q hpq).trans (agree_thenNode ?_ fun _ ↦ .refl _ _)
  exact agree_parseBoolOr (agree_unary (h.mono hl))

theorem agree_parseNested (h : AgreeBelow k b c) : AgreeBelow k (parseNested b) (parseNested c) :=
  ((ParseExpr.agree_parseNested (agree_parseExpr h)).mono k.le_succ).trans (agree_nested h)

theorem agree_expectExpr (h : AgreeBelow k b c) (msg : String) :
    AgreeBelow k (expectNode (parseExpr b) msg) (expectNode (parseExpr c) msg) :=
  agree_expectNode (agree_parseExpr h) msg

theorem agree_asgnTo (h : AgreeBelow k b c) (dst : ExprNode Body) : AgreeBelow k (asgnTo b dst) (asgnTo c dst) := by
  refine agree_check (.refl k _) (agree_check (.refl k _) (agree_check ?_ ((AgreeBelow.refl k _).bind fun oper ↦ ?_)))
  · exact (agree_expectExpr h _).bind fun _ ↦ .refl k _
  · cases oper with
    | some oper => exact (agree_expectExpr h _).bind fun _ ↦ .refl k _
    | none => exact .refl k _

theorem agree_parseAsgn (h : AgreeBelow k b c) : AgreeBelow k (parseAsgn b) (parseAsgn c) := by
  refine agree_thenNode (agree_parseNested h) fun dst ↦ AgreeBelow.map _ ?_
  cases dst with
  | ident name => exact agree_check ((agree_expectExpr h _).bind fun _ ↦ .refl k _) (agree_asgnTo h _)
  | _ => exact agree_asgnTo h _

theorem agree_parseFunc (h : AgreeBelow k b c) (external : Bool) :
    AgreeBelow k (parseFunc b external) (parseFunc c external) := by
  refine agree_check ((AgreeBelow.refl k _).bind fun _ ↦ (AgreeBelow.refl k _).bind fun _ ↦ ?_) (.refl k _)
  exact (AgreeBelow.refl k _).bind fun _ ↦ (AgreeBelow.refl k _).bind fun _ ↦ h.bind fun _ ↦ .refl k _

theorem agree_optNode {α : Type} {token msg : String} {p q : ParseTokens (Option α)} (h : AgreeBelow k p q) :
    AgreeBelow k (optNode token p msg) (optNode token q msg) :=
  agree_check ((agree_expectNode h _).bind fun _ ↦ .refl k _) (.refl k _)

theorem agree_parseVar (h : AgreeBelow k b c) (external : Bool) :
    AgreeBelow k (parseVar b external) (parseVar c external) := by
  refine agree_check ((AgreeBelow.refl k _).bind fun _ ↦ (AgreeBelow.refl k _).bind fun _ ↦ ?_) (.refl k _)
  exact (agree_optNode (agree_parseExpr h)).bind fun _ ↦ .refl k _

theorem agree_parseLet (h : AgreeBelow k b c) (external : Bool) :
    AgreeBelow k (parseLet b external) (parseLet c external) := by
  refine agree_check ((AgreeBelow.refl k _).bind fun _ ↦ (AgreeBelow.refl k _).bind fun _ ↦ ?_) (.refl k _)
  exact (AgreeBelow.refl k _).bind fun _ ↦ (agree_expectExpr h _).bind fun _ ↦ .refl k _

theorem agree_parseDecl (h : AgreeBelow k b c) (external : Bool) :
    AgreeBelow k (parseDecl b external) (parseDecl c external) :=
  agree_orNode (agree_parseFunc h external) (agree_orNode (agree_parseVar h external)
    (agree_orNode (agree_parseLet h external) (.refl k _)))

section

variable {s : ParseTokens (Option (Stat Body))}

theorem agree_switch (h : AgreeBelow k b c) : AgreeBelow k (parseSwitch b s) (parseSwitch c s) := by
  refine agree_check ((agree_expectExpr h _).bind fun _ ↦ (AgreeBelow.refl k _).bind fun _ ↦ ?_) (.refl k _)
  refine (AgreeBelow.loop (fun cases ↦ agree_check (.refl k _) (agree_check ?_ (.refl k _))) []).bind fun _ ↦ .refl k _
  exact (agree_expectExpr h _).bind fun _ ↦ .refl k _

theorem agree_for (h : AgreeBelow k b c) : AgreeBelow k (parseFor b s) (parseFor c s) := by
  have hinit : AgreeBelow k (parseOptAsgnSemi b) (parseOptAsgnSemi c) := (agree_parseAsgn h).bind fun _ ↦ .refl k _
  refine agree_check ((AgreeBelow.refl k _).bind fun _ ↦ hinit.bind fun _ ↦ ?_) (.refl k _)
  refine (agree_expectExpr h _).bind fun _ ↦ (AgreeBelow.refl k _).bind fun _ ↦ ?_
  exact (agree_parseAsgn h).bind fun _ ↦ .refl k _

theorem agree_statBody (h : AgreeBelow k b c) : AgreeBelow k (statBody b s) (statBody c s) := by
  have hexpr (msg : String) (f : ExprNode Body → ParseTokens (Option (Stat Body))) :
      AgreeBelow k (expectNode (parseExpr b) msg >>= f) (expectNode (parseExpr c) msg >>= f) :=
    (agree_expectExpr h msg).bind fun _ ↦ .refl k _
  refine agree_orNode (agree_check (hexpr _ _) (.refl k _)) (agree_orNode (agree_switch h) (agree_orNode (.refl k _)
    (agree_orNode (.refl k _) (agree_orNode ?_ (agree_orNode (agree_check (hexpr _ _) (.refl k _))
    (agree_orNode (agree_for h) (agree_orNode (.refl k _) (agree_orNode ?_ ?_))))))))
  · exact agree_check (agree_check (.refl k _) (hexpr _ _)) (.refl k _)
  · exact agree_thenNode (agree_parseDecl h false) fun _ ↦ .refl k _
  · exact agree_thenNode (agree_parseAsgn h) fun _ ↦ .refl k _

end

theorem agree_parseStat (h : AgreeBelow k b c) : AgreeBelow k (parseStat b) (parseStat c) :=
  AgreeBelow.fix guarded_statBody guarded_statBody fun _ hl _ _ hpq ↦
    (guarded_statBody _ _ _ hpq).trans (agree_statBody (h.mono hl))

end

/-- `ast::Block` as the body of a function. -/
inductive Block where
  | mk (nodes : List (Stat Block))

/-- The body of `parseFuncBody`, which calls itself. -/
def funcBody (parseFuncBody : ParseTokens Block) : ParseTokens Block := do
  loc
  expectOp "\x7b"
  let nodes ← many (parseStat parseFuncBody)
  expectOp "\x7d"
  return .mk nodes

theorem guarded_funcBody : Guarded funcBody := by
  intro k b c h
  refine (AgreeBelow.refl _ _).bind fun _ ↦ (AgreeBelow.refl _ _).bind_of fun ts _ rest hts hrun ↦ ?_
  obtain ⟨text, rfl, hopen⟩ := run_eq_ok.mp hrun
  rw [yields_expectView.mp hopen] at hts
  have hnodes : AgreeBelow k (many (parseStat b)) (many (parseStat c)) := agree_many (agree_parseStat h)
  exact (hnodes.bind fun _ ↦ .refl k _) rest (Nat.lt_of_succ_lt_succ hts)

def parseFuncBody : ParseTokens Block := fix funcBody

theorem parseFuncBody_eq : parseFuncBody = funcBody parseFuncBody := guarded_funcBody.fix_eq

end Stela.Syntax.ParseStat
