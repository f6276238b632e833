import Stela.Syntax.ParseTokens
import Stela.Syntax.Expr

/-!
# The parser of expressions

Every level of the grammar is a function of the levels that it calls. `parseExpr` is called from within brackets,
that is, on shorter lists; it is the fixed point of `parseTern`. The parsers of types and of function bodies belong to
other files of the source and are taken as given.
-/

namespace Stela.Syntax.ParseExpr

open Library.Parser ParseTokens

/-- `ast::FuncParam`. -/
structure FuncParam (Ty : Type) where
  name : String
  ref : ParamRef
  type : Ty

/-- The expressions of `ast.hpp` as the parser makes them. -/
inductive Expr (Ty Body : Type) where
  | binary (lhs : Expr Ty Body) (oper : BinOp) (rhs : Expr Ty Body)
  | unary (oper : UnOp) (expr : Expr Ty Body)
  | call (func : Expr Ty Body) (args : List (Expr Ty Body))
  | member (object : Expr Ty Body) (member : String)
  | subscript (object index : Expr Ty Body)
  | ident (name : String)
  | ternary (cond troo fols : Expr Ty Body)
  | make (type : Ty) (expr : Expr Ty Body)
  | string (literal : String)
  | char (literal : String)
  | number (literal : String)
  | bool (value : Bool)
  | array (exprs : List (Expr Ty Body))
  | initList (exprs : List (Expr Ty Body))
  | lambda (params : List (FuncParam Ty)) (ret : Option Ty) (body : Body)

/-- `parseType` and `parseFuncBody`. -/
structure Outer (Ty Body : Type) where
  parseType : ParseTokens (Option Ty)
  parseFuncBody : ParseTokens Body

variable {Ty Body : Type} (outer : Outer Ty Body) (parseExpr : ParseTokens (Option (Expr Ty Body)))

def expectExpr (parse : ParseTokens (Option (Expr Ty Body))) : ParseTokens (Expr Ty Body) :=
  expectNode parse "expression"

/-! ## Lists -/

/-- One iteration of the loop over the elements of a list. The delimiters are in the order of the source. -/
def listStep {α : Type} (parse : ParseTokens α) (a b : String) (elems : List α) : ParseTokens (List α ⊕ List α) := do
  let elem ← parse
  let delim ← expectEitherOp a b
  return if delim = "," then .inr (elems ++ [elem]) else .inl (elems ++ [elem])

theorem listStep_consumes {α : Type} (parse : ParseTokens α) (a b : String) (elems : List α) :
    (listStep parse a b elems).Consumes := by
  intro text s rest h
  obtain ⟨t, u, elem, rfl, -, h⟩ := yields_bind.mp h
  obtain ⟨v, w, delim, rfl, hdelim, -⟩ := yields_bind.mp h
  obtain ⟨rfl, -⟩ := yields_expectEither.mp hdelim
  simp

/-- The elements up to the bracket behind the last one. -/
def parseList {α : Type} (parse : ParseTokens α) (a b : String) : ParseTokens (List α) :=
  loop (listStep parse a b) (listStep_consumes parse a b) []

def parseExprList (end_ : String) : ParseTokens (List (Expr Ty Body)) := do
  if ← checkOp end_ then return []
  else parseList (expectExpr parseExpr) "," end_

/-! ## Literals -/

def parseIdent : ParseTokens (Option (Expr Ty Body)) := do
  if ← peekIdentType then
    loc
    let name ← expectID
    return some (.ident name)
  else return none

/-- `remove_prefix(1)` and `remove_suffix(1)`. -/
def trim (view : String) : String := String.ofList (view.toList.drop 1).dropLast

def parseLiteralToken {α : Type} (literal : String → α) (type : Lex.TokenType) : ParseTokens (Option α) := do
  if ← peekType type then
    loc
    let view ← expect type
    return some (literal view)
  else return none

def parseString : ParseTokens (Option (Expr Ty Body)) := parseLiteralToken (fun view ↦ .string (trim view)) .string

def parseChar : ParseTokens (Option (Expr Ty Body)) := parseLiteralToken (fun view ↦ .char (trim view)) .character

def parseNumber : ParseTokens (Option (Expr Ty Body)) := parseLiteralToken .number .number

def parseBool : ParseTokens (Option (Expr Ty Body)) := do
  if ← checkKeyword "true" then return some (.bool true)
  else if ← checkKeyword "false" then return some (.bool false)
  else return none

def parseArray : ParseTokens (Option (Expr Ty Body)) := do
  if ← checkOp "[" then
    let exprs ← parseExprList parseExpr "]"
    return some (.array exprs)
  else return none

def parseInitList : ParseTokens (Option (Expr Ty Body)) := do
  if ← checkOp "\x7b" then
    let exprs ← parseExprList parseExpr "\x7d"
    return some (.initList exprs)
  else return none

def parseRef : ParseTokens ParamRef := do
  if ← checkKeyword "ref" then return .ref else return .val

def parseParam : ParseTokens (FuncParam Ty) := do
  loc
  let name ← expectID
  expectOp ":"
  let byRef ← parseRef
  let type ← expectNode outer.parseType "type"
  return ⟨name, byRef, type⟩

def parseFuncParams : ParseTokens (List (FuncParam Ty)) := do
  expectOp "("
  if ← checkOp ")" then return []
  else parseList (parseParam outer) ")" ","

def parseFuncRet : ParseTokens (Option Ty) := do
  if ← checkOp "->" then
    let type ← expectNode outer.parseType "type"
    return some type
  else return none

def parseLambda : ParseTokens (Option (Expr Ty Body)) := do
  if ← checkKeyword "func" then
    let params ← parseFuncParams outer
    let ret ← parseFuncRet outer
    let body ← outer.parseFuncBody
    return some (.lambda params ret body)
  else return none

def parseLitr : ParseTokens (Option (Expr Ty Body)) :=
  orNode parseString <| orNode parseChar <| orNode parseNumber <| orNode parseBool <|
    orNode (parseArray parseExpr) <| orNode (parseInitList parseExpr) (parseLambda outer)

/-! ## Terms and what follows them -/

def parseTerm : ParseTokens (Option (Expr Ty Body)) := do
  if ← checkOp "(" then
    let node ← expectNode parseExpr "expression after ("
    expectOp ")"
    return some node
  else orNode parseIdent (parseLitr outer parseExpr)

/-- One iteration of the loop of `parseNested`. -/
def nestedStep (lhs : Expr Ty Body) : ParseTokens (Expr Ty Body ⊕ Expr Ty Body) := do
  if ← checkOp "(" then
    loc
    let args ← parseExprList parseExpr ")"
    return .inr (.call lhs args)
  else if ← checkOp "[" then
    let index ← expectExpr parseExpr
    expectOp "]"
    return .inr (.subscript lhs index)
  else if ← checkOp "." then
    let member ← expectID
    return .inr (.member lhs member)
  else return .inl lhs

theorem nestedStep_consumes (lhs : Expr Ty Body) : (nestedStep parseExpr lhs).Consumes := by
  intro text s rest h
  rcases yields_ifCheck.mp h with ⟨u, rfl, -⟩ | ⟨-, h⟩
  · exact List.cons_ne_nil _ _
  rcases yields_ifCheck.mp h with ⟨u, rfl, -⟩ | ⟨-, h⟩
  · exact List.cons_ne_nil _ _
  rcases yields_ifCheck.mp h with ⟨u, rfl, -⟩ | ⟨-, h⟩
  · exact List.cons_ne_nil _ _
  cases (yields_pure.mp h).2

def parseNested : ParseTokens (Option (Expr Ty Body)) :=
  thenNode (parseTerm outer parseExpr) fun lhs ↦
    some <$> loop (nestedStep parseExpr) (nestedStep_consumes parseExpr) lhs

/-! ## Unary operators -/

def makeUnary (oper : UnOp) (parseUnary : ParseTokens (Option (Expr Ty Body))) : ParseTokens (Option (Expr Ty Body)) := do
  let expr ← expectExpr parseUnary
  return some (.unary oper expr)

/-- The body of `parseUnary`, which calls itself. -/
def unaryBody (parseUnary : ParseTokens (Option (Expr Ty Body))) : ParseTokens (Option (Expr Ty Body)) := do
  if ← checkOp "-" then makeUnary .neg parseUnary
  else if ← checkOp "!" then makeUnary .bool_not parseUnary
  else if ← checkOp "~" then makeUnary .bit_not parseUnary
  else if ← checkKeyword "make" then
    let type ← expectNode outer.parseType "type"
    let expr ← expectExpr parseUnary
    return some (.make type expr)
  else parseNested outer parseExpr

def parseUnary : ParseTokens (Option (Expr Ty Body)) := fix (unaryBody outer parseExpr)

/-! ## Binary operators -/

/-- The operator of the first text that the token under the cursor has. -/
def checkOps : List (String × BinOp) → ParseTokens (Option BinOp)
  | [] => return none
  | (view, oper) :: opers => do if ← checkOp view then return some oper else checkOps opers

/-- One iteration of the loop over the operands of left associative operators. -/
def binaryStep (opers : List (String × BinOp)) (parseLower : ParseTokens (Option (Expr Ty Body)))
    (lhs : Expr Ty Body) : ParseTokens (Expr Ty Body ⊕ Expr Ty Body) := do
  match ← checkOps opers with
  | none => return .inl lhs
  | some oper =>
    let rhs ← expectExpr parseLower
    return .inr (.binary lhs oper rhs)

theorem yields_checkOps_some {opers : List (String × BinOp)} {oper : BinOp} {text rest : List Token}
    (h : (checkOps opers).Yields text (some oper) rest) : ∃ view, (view, oper) ∈ opers ∧ text = [op view] := by
  induction opers with
  | nil => cases (yields_pure.mp h).2
  | cons first opers ih =>
    obtain ⟨view, oper'⟩ := first
    rcases yields_ifCheck.mp h with ⟨u, rfl, hfound⟩ | ⟨-, hlater⟩
    · obtain ⟨rfl, heq⟩ := yields_pure.mp hfound
      cases heq
      exact ⟨view, List.mem_cons_self, rfl⟩
    · obtain ⟨view', hmem, htext⟩ := ih hlater
      exact ⟨view', List.mem_cons_of_mem _ hmem, htext⟩

theorem binaryStep_consumes (opers : List (String × BinOp)) (parseLower : ParseTokens (Option (Expr Ty Body)))
    (lhs : Expr Ty Body) : (binaryStep opers parseLower lhs).Consumes := by
  intro text s rest h
  obtain ⟨t, u, found, rfl, hfound, h⟩ := yields_bind.mp h
  cases found with
  | none => cases (yields_pure.mp h).2
  | some oper =>
    obtain ⟨view, -, rfl⟩ := yields_checkOps_some hfound
    exact List.cons_ne_nil _ _

/-- The form of every function of a level of left associative operators. -/
def parseLeft (opers : List (String × BinOp)) (parseLower : ParseTokens (Option (Expr Ty Body))) :
    ParseTokens (Option (Expr Ty Body)) :=
  thenNode parseLower fun lhs ↦ some <$> loop (binaryStep opers parseLower) (binaryStep_consumes opers parseLower) lhs

/-- A level with one operator. -/
def parseBin (oper : BinOp) (token : String) (parseLower : ParseTokens (Option (Expr Ty Body))) :
    ParseTokens (Option (Expr Ty Body)) := parseLeft [(token, oper)] parseLower

section

variable (parseUnary : ParseTokens (Option (Expr Ty Body)))

def parseMul : ParseTokens (Option (Expr Ty Body)) := parseLeft [("*", .mul), ("/", .div), ("%", .mod)] parseUnary

def parseAdd : ParseTokens (Option (Expr Ty Body)) := parseLeft [("+", .add), ("-", .sub)] (parseMul parseUnary)

def parseShift : ParseTokens (Option (Expr Ty Body)) :=
  parseLeft [("<<", .bit_shl), (">>", .bit_shr)] (parseAdd parseUnary)

def parseBitAnd : ParseTokens (Option (Expr Ty Body)) := parseBin .bit_and "&" (parseShift parseUnary)

def parseBitXor : ParseTokens (Option (Expr Ty Body)) := parseBin .bit_xor "^" (parseBitAnd parseUnary)

def parseBitOr : ParseTokens (Option (Expr Ty Body)) := parseBin .bit_or "|" (parseBitXor parseUnary)

def parseRel : ParseTokens (Option (Expr Ty Body)) :=
  parseLeft [("<", .lt), ("<=", .le), (">", .gt), (">=", .ge)] (parseBitOr parseUnary)

def parseEq : ParseTokens (Option (Expr Ty Body)) := parseLeft [("==", .eq), ("!=", .ne)] (parseRel parseUnary)

def parseBoolAnd : ParseTokens (Option (Expr Ty Body)) := parseBin .bool_and "&&" (parseEq parseUnary)

def parseBoolOr : ParseTokens (Option (Expr Ty Body)) := parseBin .bool_or "||" (parseBoolAnd parseUnary)

end

/-! ## Expressions -/

/-- `parseExpr` is `parseTern`, which calls itself. -/
def parseTern : ParseTokens (Option (Expr Ty Body)) :=
  thenNode (parseBoolOr (parseUnary outer parseExpr)) fun lhs ↦ do
    if ← checkOp "?" then
      let troo ← expectExpr parseExpr
      expectOp ":"
      let fols ← expectExpr parseExpr
      return some (.ternary lhs troo fols)
    else return some lhs

/-! ## The recursion -/

section

variable {outer parseExpr} {k : ℕ} {p q : ParseTokens (Option (Expr Ty Body))}

theorem agree_parseExprList (h : AgreeBelow k p q) (end_ : String) :
    AgreeBelow k (parseExprList p end_) (parseExprList q end_) := by
  refine (AgreeBelow.refl k _).bind fun closed ↦ ?_
  cases closed with
  | true => exact .refl k _
  | false => exact AgreeBelow.loop (fun exprs ↦ (agree_expectNode h _).bind fun _ ↦ .refl k _) []

theorem agree_parseLitr (h : AgreeBelow k p q) : AgreeBelow (k + 1) (parseLitr outer p) (parseLitr outer q) := by
  refine agree_orNode (.refl _ _) (agree_orNode (.refl _ _) (agree_orNode (.refl _ _) (agree_orNode (.refl _ _)
    (agree_orNode ?_ (agree_orNode ?_ (.refl _ _))))))
  · exact agree_ifCheck ((agree_parseExprList h _).bind fun _ ↦ .refl k _) (.refl _ _)
  · exact agree_ifCheck ((agree_parseExprList h _).bind fun _ ↦ .refl k _) (.refl _ _)

theorem agree_parseTerm (h : AgreeBelow k p q) : AgreeBelow (k + 1) (parseTerm outer p) (parseTerm outer q) :=
  agree_ifCheck ((agree_expectNode h _).bind fun _ ↦ .refl k _) (agree_orNode (.refl _ _) (agree_parseLitr h))

theorem agree_nestedStep (h : AgreeBelow k p q) (lhs : Expr Ty Body) :
    AgreeBelow (k + 1) (nestedStep p lhs) (nestedStep q lhs) := by
  refine agree_ifCheck ?_ (agree_ifCheck ?_ (.refl _ _))
  · exact (AgreeBelow.refl k _).bind fun _ ↦ (agree_parseExprList h _).bind fun _ ↦ .refl k _
  · exact (agree_expectNode h _).bind fun _ ↦ .refl k _

theorem agree_parseNested (h : AgreeBelow k p q) : AgreeBelow (k + 1) (parseNested outer p) (parseNested outer q) :=
  agree_thenNode (agree_parseTerm h) fun lhs ↦ (AgreeBelow.loop (agree_nestedStep h) lhs).map _

/-- What is read of a unary expression before its operand. -/
theorem agree_unaryBody {p' q' : ParseTokens (Option (Expr Ty Body))} (h : AgreeBelow k p q) (h' : AgreeBelow k p' q') :
    AgreeBelow (k + 1) (unaryBody outer p p') (unaryBody outer q q') := by
  have hmake (oper : UnOp) : AgreeBelow k (makeUnary oper p') (makeUnary oper q') :=
    (agree_expectNode h' _).bind fun _ ↦ .refl k _
  refine agree_ifCheck (hmake _) (agree_ifCheck (hmake _) (agree_ifCheck (hmake _) (agree_ifCheck ?_ ?_)))
  · exact (AgreeBelow.refl k _).bind fun _ ↦ (agree_expectNode h' _).bind fun _ ↦ .refl k _
  · exact agree_parseNested h

theorem guarded_unaryBody : Guarded (unaryBody outer parseExpr) := fun _ _ _ h ↦ agree_unaryBody (.refl _ _) h

theorem parseUnary_eq : parseUnary outer parseExpr = unaryBody outer parseExpr (parseUnary outer parseExpr) :=
  guarded_unaryBody.fix_eq

theorem agree_parseUnary (h : AgreeBelow k p q) : AgreeBelow (k + 1) (parseUnary outer p) (parseUnary outer q) :=
  AgreeBelow.fix guarded_unaryBody guarded_unaryBody fun _ hl _ _ h' ↦
    agree_unaryBody (h.mono (Nat.le_of_lt_succ hl)) h'

theorem agree_binaryStep (h : AgreeBelow k p q) (opers : List (String × BinOp)) (lhs : Expr Ty Body) :
    AgreeBelow k (binaryStep opers p lhs) (binaryStep opers q lhs) := by
  refine (AgreeBelow.refl k _).bind fun oper ↦ ?_
  cases oper with
  | none => exact .refl k _
  | some oper => exact (agree_expectNode h _).bind fun _ ↦ .refl k _

theorem agree_parseLeft (h : AgreeBelow k p q) (opers : List (String × BinOp)) :
    AgreeBelow k (parseLeft opers p) (parseLeft opers q) :=
  agree_thenNode h fun lhs ↦ (AgreeBelow.loop (agree_binaryStep h opers) lhs).map _

theorem agree_parseBoolOr (h : AgreeBelow k p q) : AgreeBelow k (parseBoolOr p) (parseBoolOr q) := by
  iterate 10 apply agree_parseLeft
  exact h

theorem guarded_parseTern : Guarded (parseTern outer) := by
  intro k p q h
  refine agree_thenNode (agree_parseBoolOr (agree_parseUnary h)) fun lhs ↦ agree_ifCheck ?_ (.refl _ _)
  refine (agree_expectNode h _).bind fun _ ↦ (AgreeBelow.refl k _).bind fun _ ↦ ?_
  exact (agree_expectNode h _).bind fun _ ↦ .refl k _

end

end ParseExpr

def parseExpr {Ty Body : Type} (outer : ParseExpr.Outer Ty Body) : ParseTokens (Option (ParseExpr.Expr Ty Body)) :=
  Library.Parser.fix (ParseExpr.parseTern outer)

theorem ParseExpr.parseExpr_eq {Ty Body : Type} (outer : Outer Ty Body) :
    parseExpr outer = parseTern outer (parseExpr outer) :=
  guarded_parseTern.fix_eq

end Stela.Syntax
