import Stela.Syntax.ParseReads

/-!
# The parser of types

A type has exactly one text: the parser reads a type from what `printType` makes of it, and from nothing else.
-/

namespace Stela.Syntax

open Library.Parser ParseTokens ParseExpr

/-- The types of `ast.hpp` as the parser makes them. -/
inductive TypeExpr
  | func (params : List (ParamRef × TypeExpr)) (ret : Option TypeExpr)
  | array (elem : TypeExpr)
  | named (name : String)
  | struct (fields : List (String × TypeExpr))

namespace ParseType

section

variable (parseType : ParseTokens (Option TypeExpr))

def parseParamType : ParseTokens (ParamRef × TypeExpr) := do
  let byRef ← parseRef
  let type ← expectNode parseType "type"
  return (byRef, type)

def parseParamTypes : ParseTokens (List (ParamRef × TypeExpr)) := do
  if ← checkOp ")" then return []
  else parseList (parseParamType parseType) ")" ","

def parseRet : ParseTokens (Option TypeExpr) := do
  if ← checkOp "->" then
    let type ← expectNode parseType "type"
    return some type
  else return none

def parseFuncType : ParseTokens (Option TypeExpr) := do
  if ← checkKeyword "func" then
    expectOp "("
    let params ← parseParamTypes parseType
    let ret ← parseRet parseType
    return some (.func params ret)
  else return none

def parseArrayType : ParseTokens (Option TypeExpr) := do
  if ← checkOp "[" then
    let elem ← expectNode parseType "element type"
    expectOp "]"
    return some (.array elem)
  else return none

def parseNamedType : ParseTokens (Option TypeExpr) := do
  if ← peekIdentType then
    loc
    let name ← expectID
    return some (.named name)
  else return none

def parseStructMember : ParseTokens (String × TypeExpr) := do
  loc
  let name ← expectID
  expectOp ":"
  let type ← expectNode parseType "type after :"
  expectOp ";"
  return (name, type)

/-- One iteration of the loop over the members. -/
def structStep (fields : List (String × TypeExpr)) :
    ParseTokens (List (String × TypeExpr) ⊕ List (String × TypeExpr)) := do
  if ← checkOp "\x7d" then return .inl fields
  else
    let field ← parseStructMember parseType
    return .inr (fields ++ [field])

variable {parseType}

theorem yields_parseStructMember {text rest : List Token} {field : String × TypeExpr} :
    (parseStructMember parseType).Yields text field rest ↔
      ∃ t, text = ⟨.identifier, field.1⟩ :: op ":" :: (t ++ [op ";"]) ∧
        parseType.Yields t (some field.2) (op ";" :: rest) := by
  simp only [parseStructMember, yields_bind, yields_loc, expectID, yields_expect, expectOp, yields_expectView,
    yields_expectNode, yields_pure]
  constructor
  · rintro ⟨_, _, _, rfl, ⟨rfl, -⟩, _, _, name, rfl, rfl, _, _, _, rfl, rfl, t, _, type, rfl, htype, _, _, _, rfl, rfl,
      rfl, rfl⟩
    exact ⟨t, rfl, htype⟩
  · rintro ⟨t, rfl, htype⟩
    exact ⟨[], _, (), rfl, ⟨rfl, List.cons_ne_nil _ _⟩, [_], _, field.1, rfl, rfl, [_], _, (), rfl, rfl, t, [_], field.2,
      rfl, htype, [_], [], (), rfl, rfl, rfl, rfl⟩

theorem yields_structStep_leave {text rest : List Token} {fields fields' : List (String × TypeExpr)} :
    (structStep parseType fields).Yields text (.inl fields') rest ↔ text = [op "\x7d"] ∧ fields' = fields := by
  rw [structStep, checkOp, yields_ifCheck]
  simp only [yields_bind, yields_pure]
  constructor
  · rintro (⟨_, rfl, rfl, h⟩ | ⟨-, _, _, _, rfl, -, -, h⟩) <;> cases h
    exact ⟨rfl, rfl⟩
  · rintro ⟨rfl, rfl⟩
    exact .inl ⟨[], rfl, rfl, rfl⟩

theorem yields_structStep_next {text rest : List Token} {fields fields' : List (String × TypeExpr)} :
    (structStep parseType fields).Yields text (.inr fields') rest ↔
      ∃ field, (parseStructMember parseType).Yields text field rest ∧ fields' = fields ++ [field] := by
  rw [structStep, checkOp, yields_ifCheck]
  simp only [yields_bind_pure, yields_pure]
  constructor
  · rintro (⟨_, rfl, rfl, h⟩ | ⟨-, field, hfield, h⟩) <;> cases h
    exact ⟨field, hfield, rfl⟩
  · rintro ⟨field, hfield, rfl⟩
    obtain ⟨t, rfl, -⟩ := yields_parseStructMember.mp hfield
    exact .inr ⟨by simp [op], field, hfield, rfl⟩

theorem structStep_consumes (fields : List (String × TypeExpr)) : (structStep parseType fields).Consumes := by
  intro text fields' rest h
  obtain ⟨field, hfield, -⟩ := yields_structStep_next.mp h
  obtain ⟨t, rfl, -⟩ := yields_parseStructMember.mp hfield
  exact List.cons_ne_nil _ _

variable (parseType)

def parseStructType : ParseTokens (Option TypeExpr) := do
  if ← checkKeyword "struct" then
    expectOp "\x7b"
    let fields ← loop (structStep parseType) structStep_consumes []
    return some (.struct fields)
  else return none

/-- The body of `parseType`, which calls itself. -/
def typeBody : ParseTokens (Option TypeExpr) :=
  orNode (parseFuncType parseType) <| orNode (parseArrayType parseType) <|
    orNode parseNamedType (parseStructType parseType)

/-! ## The recursion -/

variable {parseType} {k : ℕ} {p q : ParseTokens (Option TypeExpr)}

theorem agree_parseParamTypes (h : AgreeBelow k p q) : AgreeBelow k (parseParamTypes p) (parseParamTypes q) := by
  have hparam : AgreeBelow k (parseParamType p) (parseParamType q) :=
    (AgreeBelow.refl k _).bind fun _ ↦ (agree_expectNode h _).bind fun _ ↦ .refl k _
  exact agree_check (.refl k _) (AgreeBelow.loop (fun params ↦ hparam.bind fun _ ↦ .refl k _) [])

theorem agree_parseRet (h : AgreeBelow k p q) : AgreeBelow k (parseRet p) (parseRet q) :=
  agree_check ((agree_expectNode h _).bind fun _ ↦ .refl k _) (.refl k _)

theorem agree_structStep (h : AgreeBelow k p q) (fields : List (String × TypeExpr)) :
    AgreeBelow k (structStep p fields) (structStep q fields) := by
  have hmember : AgreeBelow k (parseStructMember p) (parseStructMember q) :=
    (AgreeBelow.refl k _).bind fun _ ↦ (AgreeBelow.refl k _).bind fun _ ↦ (AgreeBelow.refl k _).bind fun _ ↦
      (agree_expectNode h _).bind fun _ ↦ .refl k _
  exact agree_check (.refl k _) (hmember.bind fun _ ↦ .refl k _)

theorem guarded_typeBody : Guarded typeBody := by
  intro k p q h
  refine agree_orNode (agree_ifCheck ?_ (.refl _ _)) (agree_orNode (agree_ifCheck ?_ (.refl _ _))
    (agree_orNode (.refl _ _) (agree_ifCheck ?_ (.refl _ _))))
  · exact (AgreeBelow.refl k _).bind fun _ ↦ (agree_parseParamTypes h).bind fun _ ↦ (agree_parseRet h).bind
      fun _ ↦ .refl k _
  · exact (agree_expectNode h _).bind fun _ ↦ .refl k _
  · exact (AgreeBelow.refl k _).bind fun _ ↦ (AgreeBelow.loop (agree_structStep h) []).bind fun _ ↦ .refl k _

end

end ParseType

def parseType : ParseTokens (Option TypeExpr) := fix ParseType.typeBody

theorem parseType_eq : parseType = ParseType.typeBody parseType := ParseType.guarded_typeBody.fix_eq

namespace ParseType

/-! ## The text of a type -/

def printRef : ParamRef → List Token
  | .val => []
  | .ref => [keyword "ref"]

mutual

def printType : TypeExpr → List Token
  | .func params ret => keyword "func" :: op "(" :: (printParamTypes params ++ printRetType ret)
  | .array elem => op "[" :: (printType elem ++ [op "]"])
  | .named name => [⟨.identifier, name⟩]
  | .struct fields => keyword "struct" :: op "\x7b" :: printFields fields

/-- The parameters, with the bracket behind them. -/
def printParamTypes : List (ParamRef × TypeExpr) → List Token
  | [] => [op ")"]
  | (byRef, type) :: params => printRef byRef ++ (printType type ++ printMoreTypes params)

/-- The text behind a parameter. -/
def printMoreTypes : List (ParamRef × TypeExpr) → List Token
  | [] => [op ")"]
  | (byRef, type) :: params => op "," :: (printRef byRef ++ (printType type ++ printMoreTypes params))

def printRetType : Option TypeExpr → List Token
  | none => []
  | some type => op "->" :: printType type

/-- The members, with the bracket behind them. -/
def printFields : List (String × TypeExpr) → List Token
  | [] => [op "\x7d"]
  | (name, type) :: fields => ⟨.identifier, name⟩ :: op ":" :: (printType type ++ op ";" :: printFields fields)

end

theorem printParamTypes_cons (byRef : ParamRef) (type : TypeExpr) (params : List (ParamRef × TypeExpr)) :
    printParamTypes ((byRef, type) :: params) = printRef byRef ++ (printType type ++ printMoreTypes params) := by
  rw [printParamTypes]

theorem printMoreTypes_cons (param : ParamRef × TypeExpr) (params : List (ParamRef × TypeExpr)) :
    printMoreTypes (param :: params) = op "," :: printParamTypes (param :: params) := by
  obtain ⟨byRef, type⟩ := param
  rw [printMoreTypes, printParamTypes]

theorem starts_printType (type : TypeExpr) : ∃ t ts, printType type = t :: ts ∧
    t ∉ [keyword "ref", op "=", op ")"] := by
  cases type <;> exact ⟨_, _, by rw [printType], by simp [op, keyword]⟩

/-! ## What is read -/

section

variable {p : ParseTokens (Option TypeExpr)} {text rest : List Token}

theorem yields_parseParamType {param : ParamRef × TypeExpr} : (parseParamType p).Yields text param rest ↔
    ∃ t u, text = t ++ u ∧ parseRef.Yields t param.1 (u ++ rest) ∧ p.Yields u (some param.2) rest := by
  simp only [parseParamType, yields_bind, yields_expectNode, yields_pure]
  constructor
  · rintro ⟨t, _, byRef, rfl, href, u, _, type, rfl, htype, rfl, rfl⟩
    rw [List.append_nil] at href ⊢
    exact ⟨t, u, rfl, href, htype⟩
  · rintro ⟨t, u, rfl, href, htype⟩
    exact ⟨t, u, param.1, rfl, href, u, [], param.2, (List.append_nil u).symm, htype, rfl, rfl⟩

theorem yields_parseParamTypes {params : List (ParamRef × TypeExpr)} :
    (parseParamTypes p).Yields text params rest ↔ text = [op ")"] ∧ params = [] ∨
      (text ++ rest).head? ≠ some (op ")") ∧ Delimited (parseParamType p) ")" rest params text := by
  have hdelims (delim : String) : delim = ")" ∨ delim = "," ↔ delim = "," ∨ delim = ")" := or_comm
  rw [parseParamTypes, checkOp, yields_ifCheck, yields_parseList (by decide) hdelims]
  simp only [yields_pure]
  constructor
  · rintro (⟨u, rfl, rfl, rfl⟩ | h)
    · exact .inl ⟨rfl, rfl⟩
    · exact .inr h
  · rintro (⟨rfl, rfl⟩ | h)
    · exact .inl ⟨[], rfl, rfl, rfl⟩
    · exact .inr h

theorem yields_parseRet {ret : Option TypeExpr} : (parseRet p).Yields text ret rest ↔
    (∃ u type, text = op "->" :: u ∧ p.Yields u (some type) rest ∧ ret = some type) ∨
      text = [] ∧ ret = none ∧ rest.head? ≠ some (op "->") := by
  rw [parseRet, checkOp, yields_ifCheck_none]
  simp only [yields_bind_pure, yields_expectNode]
  constructor
  · rintro (⟨u, rfl, type, htype, rfl⟩ | h)
    · exact .inl ⟨u, type, rfl, htype, rfl⟩
    · exact .inr h
  · rintro (⟨u, type, rfl, htype, rfl⟩ | h)
    · exact .inl ⟨u, rfl, type, htype, rfl⟩
    · exact .inr h

/-- The texts of a type in front of the rest. -/
inductive Alternative (p : ParseTokens (Option TypeExpr)) (rest : List Token) : TypeExpr → List Token → Prop
  | func {params ret t u} : (parseParamTypes p).Yields t params (u ++ rest) → (parseRet p).Yields u ret rest →
      Alternative p rest (.func params ret) (keyword "func" :: op "(" :: (t ++ u))
  | array {elem t} : p.Yields t (some elem) (op "]" :: rest) →
      Alternative p rest (.array elem) (op "[" :: (t ++ [op "]"]))
  | named {name} : Alternative p rest (.named name) [⟨.identifier, name⟩]
  | struct {fields t} : Loops (structStep p) rest [] t fields →
      Alternative p rest (.struct fields) (keyword "struct" :: op "\x7b" :: t)

theorem declines_parseFuncType : Declines (parseFuncType p) (· ≠ some (keyword "func")) :=
  declines_ifCheck (always_bind fun _ ↦ always_bind fun _ ↦ always_bind fun _ ↦ always_pure _)

theorem declines_parseArrayType : Declines (parseArrayType p) (· ≠ some (op "[")) :=
  declines_ifCheck (always_bind fun _ ↦ always_bind fun _ ↦ always_pure _)

/-- `parseNamedType` has the form of a literal. -/
theorem parseNamedType_eq : parseNamedType = parseLiteralToken .named .identifier := rfl

theorem yields_parseFuncType {type : TypeExpr} : (parseFuncType p).Yields text (some type) rest ↔
    ∃ t u params ret, text = keyword "func" :: op "(" :: (t ++ u) ∧ (parseParamTypes p).Yields t params (u ++ rest) ∧
      (parseRet p).Yields u ret rest ∧ type = .func params ret := by
  rw [parseFuncType, checkKeyword, yields_ifCheck_none]
  simp only [yields_bind, expectOp, yields_expectView, yields_pure]
  constructor
  · rintro (⟨_, rfl, _, _, _, rfl, rfl, t, _, params, rfl, hparams, u, _, ret, rfl, hret, rfl, h⟩ | ⟨-, h, -⟩) <;> cases h
    rw [List.append_nil] at hparams ⊢
    exact ⟨t, u, params, ret, rfl, hparams, hret, rfl⟩
  · rintro ⟨t, u, params, ret, rfl, hparams, hret, rfl⟩
    exact .inl ⟨_, rfl, [_], _, (), rfl, rfl, t, _, params, rfl, hparams, u, [], ret, (List.append_nil u).symm, hret,
      rfl, rfl⟩

theorem yields_parseArrayType {type : TypeExpr} : (parseArrayType p).Yields text (some type) rest ↔
    ∃ t elem, text = op "[" :: (t ++ [op "]"]) ∧ p.Yields t (some elem) (op "]" :: rest) ∧ type = .array elem := by
  rw [parseArrayType, checkOp, yields_ifCheck_none]
  simp only [yields_bind, yields_expectNode, expectOp, yields_expectView, yields_pure]
  constructor
  · rintro (⟨_, rfl, t, _, elem, rfl, helem, _, _, _, rfl, rfl, rfl, h⟩ | ⟨-, h, -⟩) <;> cases h
    exact ⟨t, elem, rfl, helem, rfl⟩
  · rintro ⟨t, elem, rfl, helem, rfl⟩
    exact .inl ⟨_, rfl, t, _, elem, rfl, helem, [_], [], (), rfl, rfl, rfl, rfl⟩

theorem yields_parseStructType {type : TypeExpr} : (parseStructType p).Yields text (some type) rest ↔
    ∃ t fields, text = keyword "struct" :: op "\x7b" :: t ∧ Loops (structStep p) rest [] t fields ∧
      type = .struct fields := by
  rw [parseStructType, checkKeyword, yields_ifCheck_none]
  simp only [yields_bind, expectOp, yields_expectView, yields_loop, yields_pure]
  constructor
  · rintro (⟨_, rfl, _, _, _, rfl, rfl, t, _, fields, rfl, hfields, rfl, h⟩ | ⟨-, h, -⟩) <;> cases h
    rw [List.append_nil]
    exact ⟨t, fields, rfl, hfields, rfl⟩
  · rintro ⟨t, fields, rfl, hfields, rfl⟩
    exact .inl ⟨_, rfl, [_], _, (), rfl, rfl, t, [], fields, (List.append_nil t).symm, hfields, rfl, rfl⟩

theorem yields_typeBody {type : TypeExpr} :
    (typeBody p).Yields text (some type) rest ↔ Alternative p rest type text := by
  rw [typeBody, declines_parseFuncType.yields_orNode, declines_parseArrayType.yields_orNode, parseNamedType_eq,
    declines_parseLiteralToken.yields_orNode, yields_parseFuncType, yields_parseArrayType, yields_parseStructType,
    yields_parseLiteralToken_some]
  constructor
  · rintro (⟨t, u, params, ret, rfl, hparams, hret, rfl⟩ | ⟨-, ⟨t, elem, rfl, helem, rfl⟩ | ⟨-, ⟨name, rfl, rfl⟩ |
      ⟨-, t, fields, rfl, hfields, rfl⟩⟩⟩)
    · exact .func hparams hret
    · exact .array helem
    · exact .named
    · exact .struct hfields
  · intro h
    cases h with
    | func hparams hret => exact .inl ⟨_, _, _, _, rfl, hparams, hret, rfl⟩
    | array helem => exact .inr ⟨by simp [op, keyword], .inl ⟨_, _, rfl, helem, rfl⟩⟩
    | named => exact .inr ⟨by simp [keyword], .inr ⟨by simp [op], .inl ⟨_, rfl, rfl⟩⟩⟩
    | struct hfields =>
      exact .inr ⟨by simp [keyword], .inr ⟨by simp [op, keyword], .inr ⟨by simp [keyword], _, _, rfl, hfields, rfl⟩⟩⟩

end

/-! ## A type is read from its text -/

section

variable {text rest : List Token}

/-- What is read of fewer tokens than the bound is the text of the type. -/
def PrintedBelow (k : ℕ) : Prop :=
  ∀ ⦃text type rest⦄, text.length < k → parseType.Yields text (some type) rest → text = printType type

theorem printed_param {k : ℕ} (h : PrintedBelow k) {param : ParamRef × TypeExpr} (hk : text.length < k)
    (hparam : (parseParamType parseType).Yields text param rest) :
    text = printRef param.1 ++ printType param.2 := by
  obtain ⟨t, u, rfl, href, htype⟩ := yields_parseParamType.mp hparam
  rw [List.length_append] at hk
  rw [h (by omega) htype]
  rcases yields_parseRef.mp href with ⟨rfl, hval⟩ | ⟨rfl, hval, -⟩ <;> rw [hval, printRef]

theorem printed_delimited {k : ℕ} (h : PrintedBelow k) {params : List (ParamRef × TypeExpr)} (hk : text.length < k)
    (hparams : Delimited (parseParamType parseType) ")" rest params text) : text = printParamTypes params := by
  induction hparams with
  | @last param t hparam =>
    rw [List.length_append] at hk
    rw [printParamTypes_cons, printMoreTypes, printed_param h (by omega) hparam, List.append_assoc]
  | @next param params t u hparam hmore ih =>
    rw [List.length_append, List.length_cons] at hk
    obtain ⟨next, more, rfl⟩ : ∃ next more, params = next :: more := by cases hmore <;> exact ⟨_, _, rfl⟩
    rw [printParamTypes_cons, printMoreTypes_cons, printed_param h (by omega) hparam, ← ih (by omega),
      List.append_assoc]

theorem printed_ret {k : ℕ} (h : PrintedBelow k) {ret : Option TypeExpr} (hk : text.length ≤ k)
    (hret : (parseRet parseType).Yields text ret rest) : text = printRetType ret := by
  rcases yields_parseRet.mp hret with ⟨u, type, rfl, htype, rfl⟩ | ⟨rfl, rfl, -⟩
  · rw [printRetType, ← h hk htype]
  · rw [printRetType]

theorem printed_fields {k : ℕ} (h : PrintedBelow k) {before fields : List (String × TypeExpr)} (hk : text.length < k)
    (hfields : Loops (structStep parseType) rest before text fields) :
    ∃ more, fields = before ++ more ∧ text = printFields more := by
  induction hfields with
  | leave hleave =>
    obtain ⟨rfl, rfl⟩ := yields_structStep_leave.mp hleave
    exact ⟨[], (List.append_nil _).symm, by rw [printFields]⟩
  | next hnext _ ih =>
    rw [List.length_append] at hk
    obtain ⟨more, rfl, rfl⟩ := ih (by omega)
    obtain ⟨⟨name, type⟩, hfield, rfl⟩ := yields_structStep_next.mp hnext
    obtain ⟨t, rfl, htype⟩ := yields_parseStructMember.mp hfield
    simp only [List.length_cons, List.length_append] at hk
    refine ⟨(name, type) :: more, List.append_assoc _ _ _, ?_⟩
    rw [printFields, h (by omega) htype, List.cons_append, List.cons_append, List.append_assoc]
    rfl

theorem printedBelow (k : ℕ) : PrintedBelow k := by
  induction k with
  | zero =>
    intro text type rest hk
    cases hk
  | succ k ih =>
    intro text type rest hk h
    rw [parseType_eq] at h
    cases yields_typeBody.mp h with
    | func hparams hret =>
      simp only [List.length_cons, List.length_append] at hk
      rw [printType, printed_ret ih (by omega) hret]
      congr 3
      rcases yields_parseParamTypes.mp hparams with ⟨rfl, rfl⟩ | ⟨-, hparams⟩
      · rw [printParamTypes]
      · exact printed_delimited ih (by omega) hparams
    | array helem =>
      simp only [List.length_cons, List.length_append] at hk
      rw [printType, ← ih (by omega) helem]
    | named => rw [printType]
    | struct hfields =>
      simp only [List.length_cons] at hk
      obtain ⟨more, heq, rfl⟩ := printed_fields ih (by omega) hfields
      rw [printType, heq, List.nil_append]

theorem eq_printType {type : TypeExpr} (h : parseType.Yields text (some type) rest) : text = printType type :=
  printedBelow _ (Nat.lt_succ_self _) h

theorem yields_printRef {byRef : ParamRef} (hrest : rest.head? ≠ some (keyword "ref")) :
    parseRef.Yields (printRef byRef) byRef rest := by
  cases byRef with
  | val => exact yields_parseRef.mpr (.inr ⟨rfl, rfl, hrest⟩)
  | ref => exact yields_parseRef.mpr (.inl ⟨rfl, rfl⟩)

/-- The type is read from its text where no arrow follows. -/
def Printable (type : TypeExpr) : Prop :=
  ∀ ⦃rest : List Token⦄, rest.head? ≠ some (op "->") → parseType.Yields (printType type) (some type) rest

theorem Printable.param {byRef : ParamRef} {type : TypeExpr} (h : Printable type) (hrest : rest.head? ≠ some (op "->")) :
    (parseParamType parseType).Yields (printRef byRef ++ printType type) (byRef, type) rest := by
  refine yields_parseParamType.mpr ⟨_, _, rfl, yields_printRef ?_, h hrest⟩
  obtain ⟨t, ts, htext, ht⟩ := starts_printType type
  rw [htext]
  intro hfirst
  cases hfirst
  simp at ht

theorem head_printParamTypes (byRef : ParamRef) (type : TypeExpr) (params : List (ParamRef × TypeExpr)) :
    (printParamTypes ((byRef, type) :: params) ++ rest).head? ≠ some (op ")") := by
  rw [printParamTypes]
  cases byRef with
  | val =>
    obtain ⟨t, ts, htext, ht⟩ := starts_printType type
    rw [printRef, htext]
    intro hfirst
    cases hfirst
    simp at ht
  | ref => simp [printRef, keyword, op]

mutual

theorem printable : (type : TypeExpr) → Printable type
  | .func params ret => fun rest hrest ↦ by
    rw [parseType_eq, printType]
    exact yields_typeBody.mpr (.func (yields_printParamTypes params) (yields_printRetType ret hrest))
  | .array elem => fun rest hrest ↦ by
    rw [parseType_eq, printType]
    exact yields_typeBody.mpr (.array (printable elem (by simp [op])))
  | .named name => fun rest hrest ↦ by
    rw [parseType_eq, printType]
    exact yields_typeBody.mpr .named
  | .struct fields => fun rest hrest ↦ by
    rw [parseType_eq, printType]
    exact yields_typeBody.mpr (.struct (loops_printFields [] fields))

theorem yields_printParamTypes : (params : List (ParamRef × TypeExpr)) → ∀ {rest : List Token},
    (parseParamTypes parseType).Yields (printParamTypes params) params rest
  | [], rest => by
    rw [printParamTypes]
    exact yields_parseParamTypes.mpr (.inl ⟨rfl, rfl⟩)
  | (byRef, type) :: params, rest => by
    refine yields_parseParamTypes.mpr (.inr ⟨head_printParamTypes byRef type params, ?_⟩)
    rw [printParamTypes, ← List.append_assoc]
    exact delimited_printMoreTypes (printable type) params

theorem delimited_printMoreTypes {byRef : ParamRef} {type : TypeExpr} (h : Printable type) :
    (params : List (ParamRef × TypeExpr)) → ∀ {rest : List Token},
      Delimited (parseParamType parseType) ")" rest ((byRef, type) :: params)
        (printRef byRef ++ printType type ++ printMoreTypes params)
  | [], rest => by
    rw [printMoreTypes]
    exact .last (h.param (by simp [op]))
  | (byRef', type') :: params, rest => by
    rw [printMoreTypes, ← List.append_assoc (printRef byRef')]
    exact .next (h.param (by simp [op])) (delimited_printMoreTypes (printable type') params)

theorem yields_printRetType : (ret : Option TypeExpr) → ∀ {rest : List Token}, rest.head? ≠ some (op "->") →
    (parseRet parseType).Yields (printRetType ret) ret rest
  | none, rest, hrest => by
    rw [printRetType]
    exact yields_parseRet.mpr (.inr ⟨rfl, rfl, hrest⟩)
  | some type, rest, hrest => by
    rw [printRetType]
    exact yields_parseRet.mpr (.inl ⟨_, type, rfl, printable type hrest, rfl⟩)

theorem loops_printFields (before : List (String × TypeExpr)) : (fields : List (String × TypeExpr)) →
    ∀ {rest : List Token}, Loops (structStep parseType) rest before (printFields fields) (before ++ fields)
  | [], rest => by
    rw [printFields, List.append_nil]
    exact .leave (yields_structStep_leave.mpr ⟨rfl, rfl⟩)
  | (name, type) :: fields, rest => by
    rw [printFields, List.append_cons (printType type), List.append_cons before]
    refine .next (yields_structStep_next.mpr ⟨(name, type), yields_parseStructMember.mpr ⟨_, rfl, ?_⟩, rfl⟩)
      (loops_printFields (before ++ [(name, type)]) fields)
    exact printable type (by simp [op])

end

/-- A type is read from its text and from nothing else. -/
theorem yields_parseType {type : TypeExpr} (hrest : rest.head? ≠ some (op "->")) :
    parseType.Yields text (some type) rest ↔ text = printType type := by
  constructor
  · exact eq_printType
  · rintro rfl
    exact printable type hrest

end

end ParseType

end Stela.Syntax
