import Stela.Syntax.StatGrammar

/-!
# What the parser of statements reads

As for expressions: the texts that a function reads in terms of the texts that the functions it calls read, and the
token behind them where the function looks at it.
-/

namespace Stela.Syntax.ParseStat

open Library.Parser ParseTokens ParseExpr ParseType

section

variable {Body : Type} {b : ParseTokens Body} {p : ParseTokens (Option (Stat Body))} {text rest : List Token}

/-! ## Assignments -/

theorem assignText_injective : Function.Injective assignText := by
  intro oper oper' h
  cases oper <;> cases oper' <;> first | rfl | simp [assignText] at h

theorem mem_assignOps (oper : AssignOp) : oper ∈ assignOps := by
  cases oper <;> decide

/-- The operator is read that the text begins with. -/
theorem yields_checkAssignOps_some {opers : List AssignOp} {oper : AssignOp} :
    (checkAssignOps opers).Yields text (some oper) rest ↔ oper ∈ opers ∧ text = [op (assignText oper)] := by
  induction opers with
  | nil => simp [checkAssignOps, yields_pure]
  | cons first opers ih =>
    simp only [checkAssignOps, checkOp, yields_ifCheck, yields_pure, ih]
    constructor
    · rintro (⟨u, rfl, rfl, h⟩ | ⟨-, hmem, rfl⟩)
      · cases h
        exact ⟨List.mem_cons_self, rfl⟩
      · exact ⟨List.mem_cons_of_mem _ hmem, rfl⟩
    · rintro ⟨hmem, rfl⟩
      by_cases hfirst : first = oper
      · subst hfirst
        exact .inl ⟨[], rfl, rfl, rfl⟩
      · refine .inr ⟨fun h ↦ hfirst (assignText_injective ?_), (List.mem_cons.mp hmem).resolve_left (Ne.symm hfirst), rfl⟩
        exact (congrArg Token.view (Option.some.inj h)).symm

theorem yields_checkAssignOps_none {opers : List AssignOp} : (checkAssignOps opers).Yields text none rest ↔
    text = [] ∧ ∀ oper ∈ opers, rest.head? ≠ some (op (assignText oper)) := by
  induction opers with
  | nil => simp [checkAssignOps, yields_pure]
  | cons first opers ih =>
    simp only [checkAssignOps, checkOp, yields_ifCheck, yields_pure, ih, List.forall_mem_cons]
    constructor
    · rintro (⟨u, -, -, h⟩ | ⟨hhead, rfl, hlater⟩)
      · cases h
      · exact ⟨rfl, hhead, hlater⟩
    · rintro ⟨rfl, hhead, hlater⟩
      exact .inr ⟨hhead, rfl, hlater⟩

/-- What is read behind the destination of an assignment. -/
inductive Behind (b : ParseTokens Body) (rest : List Token) (dst : ExprNode Body) : AsgnNode Body → List Token → Prop
  | incr : Behind b rest dst (.incrDecr dst true) [op "++"]
  | decr : Behind b rest dst (.incrDecr dst false) [op "--"]
  | assign {src u} : (parseExpr b).Yields u (some src) rest → Behind b rest dst (.assign dst src) (op "=" :: u)
  | compAssign {oper src u} : (parseExpr b).Yields u (some src) rest →
      Behind b rest dst (.compAssign dst oper src) (op (assignText oper) :: u)
  | declAssign {name expr u} : dst = .ident name → (parseExpr b).Yields u (some expr) rest →
      Behind b rest dst (.declAssign name expr) (op ":=" :: u)
  | callAssign {func args} : dst = .call func args → Behind b rest dst (.callAssign dst) []

theorem yields_callAssign {dst : ExprNode Body} {asgn : AsgnNode Body} :
    (callAssign dst).Yields text asgn rest ↔ text = [] ∧ asgn = .callAssign dst ∧ ∃ func args, dst = .call func args := by
  cases dst with
  | call func args =>
    rw [callAssign, yields_pure]
    constructor
    · rintro ⟨rfl, rfl⟩
      exact ⟨rfl, rfl, func, args, rfl⟩
    · rintro ⟨rfl, rfl, -⟩
      exact ⟨rfl, rfl⟩
  | _ => simp [callAssign, yields_fail]

/-- An assignment to a destination that has been read is a declaration, a call or an operator with its operand. -/
theorem behind_of_asgnTo {dst : ExprNode Body} {asgn : AsgnNode Body} (h : (asgnTo b dst).Yields text asgn rest) :
    Behind b rest dst asgn text := by
  simp only [asgnTo, checkOp, yields_ifCheck, yields_pure, yields_bind_pure, yields_expectNode] at h
  rcases h with ⟨_, rfl, rfl, rfl⟩ | ⟨-, ⟨_, rfl, rfl, rfl⟩ | ⟨-, ⟨u, rfl, src, hsrc, rfl⟩ | ⟨-, h⟩⟩⟩
  · exact .incr
  · exact .decr
  · exact .assign hsrc
  · obtain ⟨t, u, oper, rfl, hoper, hasgn⟩ := yields_bind.mp h
    cases oper with
    | some oper =>
      obtain ⟨-, rfl⟩ := yields_checkAssignOps_some.mp hoper
      obtain ⟨src, hsrc, rfl⟩ := yields_bind_pure.mp hasgn
      exact .compAssign (yields_expectNode.mp hsrc)
    | none =>
      obtain ⟨rfl, -⟩ := yields_checkAssignOps_none.mp hoper
      obtain ⟨rfl, rfl, func, args, hdst⟩ := yields_callAssign.mp hasgn
      exact .callAssign hdst

theorem behind_of_asgnBehind {dst : ExprNode Body} {asgn : AsgnNode Body}
    (h : (asgnBehind b dst).Yields text asgn rest) : Behind b rest dst asgn text := by
  cases dst with
  | ident name =>
    rcases yields_ifCheck.mp h with ⟨u, rfl, h⟩ | ⟨-, h⟩
    · obtain ⟨expr, hexpr, rfl⟩ := yields_bind_pure.mp h
      exact .declAssign rfl (yields_expectNode.mp hexpr)
    · exact behind_of_asgnTo h
  | _ => exact behind_of_asgnTo h

/-- What the source puts behind every assignment. -/
def EndsAsgn (rest : List Token) : Prop := rest.head? = some (op ";") ∨ rest.head? = some (op ")")

/-- What may stand behind a destination is read, if the assignment ends there. -/
theorem yields_asgnTo {dst : ExprNode Body} {asgn : AsgnNode Body} (h : Behind b rest dst asgn text)
    (hdecl : (text ++ rest).head? ≠ some (op ":=")) (hrest : EndsAsgn rest) : (asgnTo b dst).Yields text asgn rest := by
  simp only [asgnTo, checkOp, yields_ifCheck, yields_pure, yields_bind_pure, yields_expectNode]
  cases h with
  | incr => exact .inl ⟨[], rfl, rfl, rfl⟩
  | decr => exact .inr ⟨by simp [op], .inl ⟨[], rfl, rfl, rfl⟩⟩
  | assign hsrc => exact .inr ⟨by simp [op], .inr ⟨by simp [op], .inl ⟨_, rfl, _, hsrc, rfl⟩⟩⟩
  | @compAssign oper src u hsrc =>
    have hhead (view : String) (hview : view ∈ ["++", "--", "="]) :
        (op (assignText oper) :: u ++ rest).head? ≠ some ⟨.oper, view⟩ := by
      intro h
      have heq : assignText oper = view := congrArg Token.view (Option.some.inj h)
      simp only [List.mem_cons, List.not_mem_nil, or_false] at hview
      rcases hview with rfl | rfl | rfl <;> cases oper <;> simp [assignText] at heq
    refine .inr ⟨hhead _ (by simp), .inr ⟨hhead _ (by simp), .inr ⟨hhead _ (by simp), ?_⟩⟩⟩
    refine yields_bind.mpr ⟨[_], u, some oper, rfl, ?_, yields_bind_pure.mpr ⟨src, yields_expectNode.mpr hsrc, rfl⟩⟩
    exact yields_checkAssignOps_some.mpr ⟨mem_assignOps oper, rfl⟩
  | declAssign _ _ => exact absurd rfl hdecl
  | @callAssign func args hdst =>
    have hhead (view : String) (hview : view ≠ ";") (hview' : view ≠ ")") : rest.head? ≠ some ⟨.oper, view⟩ := by
      rcases hrest with h | h <;> rw [h] <;> simp [op, hview.symm, hview'.symm]
    refine .inr ⟨hhead _ (by simp) (by simp), .inr ⟨hhead _ (by simp) (by simp), .inr ⟨hhead _ (by simp) (by simp), ?_⟩⟩⟩
    refine yields_bind.mpr ⟨[], [], none, rfl, yields_checkAssignOps_none.mpr ⟨rfl, fun oper _ ↦ ?_⟩, ?_⟩
    · exact hhead _ (by cases oper <;> simp [assignText]) (by cases oper <;> simp [assignText])
    · exact yields_callAssign.mpr ⟨rfl, rfl, func, args, hdst⟩

theorem yields_asgnBehind {dst : ExprNode Body} {asgn : AsgnNode Body} (h : Behind b rest dst asgn text)
    (hrest : EndsAsgn rest) : (asgnBehind b dst).Yields text asgn rest := by
  have hother (hhead : (text ++ rest).head? ≠ some (op ":=")) : (asgnBehind b dst).Yields text asgn rest := by
    have hto := yields_asgnTo h hhead hrest
    cases dst with
    | ident name => exact yields_ifCheck.mpr (.inr ⟨hhead, hto⟩)
    | _ => exact hto
  cases h with
  | declAssign hdst hexpr =>
    subst hdst
    exact yields_ifCheck.mpr (.inl ⟨_, rfl, yields_bind_pure.mpr ⟨_, yields_expectNode.mpr hexpr, rfl⟩⟩)
  | @compAssign oper => exact hother (by cases oper <;> simp [op, assignText])
  | callAssign => exact hother (by rcases hrest with h | h <;> simp [h, op])
  | _ => exact hother (by simp [op])

/-- An assignment begins with a nested expression. -/
theorem yields_parseAsgn {asgn : AsgnNode Body} : (parseAsgn b).Yields text (some asgn) rest ↔
    ∃ t u dst, text = t ++ u ∧ (parseNested b).Yields t (some dst) (u ++ rest) ∧
      (asgnBehind b dst).Yields u asgn rest := by
  simp only [parseAsgn, yields_thenNode, yields_map, Option.some.injEq, exists_eq_right]

/-! ## Declarations -/

theorem yields_parseReceiver {receiver : Option (FuncParam TypeExpr)} :
    (parseReceiver b).Yields text receiver rest ↔
      (∃ t param, text = op "(" :: (t ++ [op ")"]) ∧ (parseParam (outerOf b)).Yields t param (op ")" :: rest) ∧
        receiver = some param) ∨ text = [] ∧ receiver = none ∧ rest.head? ≠ some (op "(") := by
  rw [parseReceiver, checkOp, yields_ifCheck_none]
  simp only [yields_bind, expectOp, yields_expectView, yields_pure]
  constructor
  · rintro (⟨_, rfl, t, _, param, rfl, hparam, _, _, _, rfl, rfl, rfl, rfl⟩ | h)
    · exact .inl ⟨t, param, rfl, hparam, rfl⟩
    · exact .inr h
  · rintro (⟨t, param, rfl, hparam, rfl⟩ | h)
    · exact .inl ⟨_, rfl, t, _, param, rfl, hparam, [_], [], (), rfl, rfl, rfl, rfl⟩
    · exact .inr h

/-- A part that begins with its own token, or is left out. -/
theorem yields_optNode {α : Type} {token msg : String} {parse : ParseTokens (Option α)} {node : Option α} :
    (optNode token parse msg).Yields text node rest ↔
      (∃ t a, text = op token :: t ∧ parse.Yields t (some a) rest ∧ node = some a) ∨
        text = [] ∧ node = none ∧ rest.head? ≠ some (op token) := by
  rw [optNode, checkOp, yields_ifCheck_none]
  simp only [yields_bind_pure, yields_expectNode]
  constructor
  · rintro (⟨t, rfl, a, ha, rfl⟩ | h)
    · exact .inl ⟨t, a, rfl, ha, rfl⟩
    · exact .inr h
  · rintro (⟨t, a, rfl, ha, rfl⟩ | h)
    · exact .inl ⟨t, rfl, a, ha, rfl⟩
    · exact .inr h

/-- What is read as a declaration in front of the rest. -/
inductive DeclRead (b : ParseTokens Body) (external : Bool) (rest : List Token) : Decl Body → List Token → Prop
  | func {receiver name params ret body t u v w} :
      (parseReceiver b).Yields t receiver (⟨.identifier, name⟩ :: (u ++ (v ++ (w ++ rest)))) →
      (parseFuncParams (outerOf b)).Yields u params (v ++ (w ++ rest)) →
      (parseFuncRet (outerOf b)).Yields v ret (w ++ rest) → b.Yields w body rest →
      DeclRead b external rest (.func ⟨external, receiver, name, params, ret, body⟩)
        (keyword "func" :: (t ++ ⟨.identifier, name⟩ :: (u ++ (v ++ w))))
  | var {name type expr t u} :
      (optNode ":" parseType "type after :").Yields t type (u ++ op ";" :: rest) →
      (optNode "=" (parseExpr b) "expression after =").Yields u expr (op ";" :: rest) →
      DeclRead b external rest (.var external name type expr)
        (keyword "var" :: ⟨.identifier, name⟩ :: (t ++ (u ++ [op ";"])))
  | let_ {name type expr t u} :
      (optNode ":" parseType "type after :").Yields t type (op "=" :: (u ++ op ";" :: rest)) →
      (parseExpr b).Yields u (some expr) (op ";" :: rest) →
      DeclRead b external rest (.let_ external name type expr)
        (keyword "let" :: ⟨.identifier, name⟩ :: (t ++ op "=" :: (u ++ [op ";"])))
  | weak {name type t} : external = false → parseType.Yields t (some type) (op ";" :: rest) →
      DeclRead b external rest (.typeAlias name false type)
        (keyword "type" :: ⟨.identifier, name⟩ :: op "=" :: (t ++ [op ";"]))
  | strong {name type t} : external = false → (t ++ op ";" :: rest).head? ≠ some (op "=") →
      parseType.Yields t (some type) (op ";" :: rest) →
      DeclRead b external rest (.typeAlias name true type)
        (keyword "type" :: ⟨.identifier, name⟩ :: (t ++ [op ";"]))

theorem yields_parseFunc {external : Bool} {decl : Decl Body} : (parseFunc b external).Yields text (some decl) rest ↔
    ∃ receiver name params ret body t u v w, text = keyword "func" :: (t ++ ⟨.identifier, name⟩ :: (u ++ (v ++ w))) ∧
      (parseReceiver b).Yields t receiver (⟨.identifier, name⟩ :: (u ++ (v ++ (w ++ rest)))) ∧
      (parseFuncParams (outerOf b)).Yields u params (v ++ (w ++ rest)) ∧
      (parseFuncRet (outerOf b)).Yields v ret (w ++ rest) ∧ b.Yields w body rest ∧
      decl = .func ⟨external, receiver, name, params, ret, body⟩ := by
  rw [parseFunc, checkKeyword, yields_ifCheck_none]
  simp only [yields_bind, expectID, yields_expect, yields_pure]
  constructor
  · rintro (⟨_, rfl, t, _, receiver, rfl, hreceiver, _, _, name, rfl, rfl, u, _, params, rfl, hparams, v, _, ret, rfl,
      hret, w, _, body, rfl, hbody, rfl, h⟩ | ⟨-, h, -⟩) <;> cases h
    simp only [List.append_nil, List.append_assoc, List.cons_append, List.nil_append] at *
    exact ⟨receiver, name, params, ret, body, t, u, v, w, rfl, hreceiver, hparams, hret, hbody, rfl⟩
  · rintro ⟨receiver, name, params, ret, body, t, u, v, w, rfl, hreceiver, hparams, hret, hbody, rfl⟩
    refine .inl ⟨_, rfl, t, _, receiver, rfl, ?_, [_], _, name, rfl, rfl, u, _, params, rfl, ?_, v, w, ret, rfl, hret, w,
      [], body, (List.append_nil w).symm, hbody, rfl, rfl⟩
    · simpa only [List.append_assoc, List.cons_append, List.nil_append] using hreceiver
    · simpa only [List.append_assoc] using hparams

theorem yields_parseVar {external : Bool} {decl : Decl Body} : (parseVar b external).Yields text (some decl) rest ↔
    ∃ name type expr t u, text = keyword "var" :: ⟨.identifier, name⟩ :: (t ++ (u ++ [op ";"])) ∧
      (optNode ":" parseType "type after :").Yields t type (u ++ op ";" :: rest) ∧
      (optNode "=" (parseExpr b) "expression after =").Yields u expr (op ";" :: rest) ∧
      decl = .var external name type expr := by
  rw [parseVar, checkKeyword, yields_ifCheck_none]
  simp only [yields_bind, expectID, yields_expect, expectOp, yields_expectView, yields_pure]
  constructor
  · rintro (⟨_, rfl, _, _, name, rfl, rfl, t, _, type, rfl, htype, u, _, expr, rfl, hexpr, _, _, _, rfl, rfl, rfl, h⟩ |
      ⟨-, h, -⟩) <;> cases h
    simp only [List.append_nil, List.append_assoc, List.cons_append, List.nil_append] at htype hexpr ⊢
    exact ⟨name, type, expr, t, u, rfl, htype, hexpr, rfl⟩
  · rintro ⟨name, type, expr, t, u, rfl, htype, hexpr, rfl⟩
    refine .inl ⟨_, rfl, [_], _, name, rfl, rfl, t, _, type, rfl, ?_, u, _, expr, rfl, hexpr, [_], [], (), rfl, rfl, rfl,
      rfl⟩
    simpa only [List.append_assoc, List.cons_append, List.nil_append] using htype

theorem yields_parseLet {external : Bool} {decl : Decl Body} : (parseLet b external).Yields text (some decl) rest ↔
    ∃ name type expr t u, text = keyword "let" :: ⟨.identifier, name⟩ :: (t ++ op "=" :: (u ++ [op ";"])) ∧
      (optNode ":" parseType "type after :").Yields t type (op "=" :: (u ++ op ";" :: rest)) ∧
      (parseExpr b).Yields u (some expr) (op ";" :: rest) ∧ decl = .let_ external name type expr := by
  rw [parseLet, checkKeyword, yields_ifCheck_none]
  simp only [yields_bind, expectID, yields_expect, expectOp, yields_expectView, yields_expectNode, yields_pure]
  constructor
  · rintro (⟨_, rfl, _, _, name, rfl, rfl, t, _, type, rfl, htype, _, _, _, rfl, rfl, u, _, expr, rfl, hexpr, _, _, _, rfl,
      rfl, rfl, h⟩ | ⟨-, h, -⟩) <;> cases h
    simp only [List.append_nil, List.append_assoc, List.cons_append, List.nil_append] at htype hexpr ⊢
    exact ⟨name, type, expr, t, u, rfl, htype, hexpr, rfl⟩
  · rintro ⟨name, type, expr, t, u, rfl, htype, hexpr, rfl⟩
    refine .inl ⟨_, rfl, [_], _, name, rfl, rfl, t, _, type, rfl, ?_, [_], _, (), rfl, rfl, u, _, expr, rfl, hexpr, [_], [],
      (), rfl, rfl, rfl, rfl⟩
    simpa only [List.append_assoc, List.cons_append, List.nil_append] using htype

theorem yields_parseTypealias {external : Bool} {decl : Decl Body} :
    (parseTypealias external : ParseTokens (Option (Decl Body))).Yields text (some decl) rest ↔
      external = false ∧ ∃ name type t, parseType.Yields t (some type) (op ";" :: rest) ∧
        (text = keyword "type" :: ⟨.identifier, name⟩ :: op "=" :: (t ++ [op ";"]) ∧ decl = .typeAlias name false type ∨
          text = keyword "type" :: ⟨.identifier, name⟩ :: (t ++ [op ";"]) ∧
            (t ++ op ";" :: rest).head? ≠ some (op "=") ∧ decl = .typeAlias name true type) := by
  rw [parseTypealias, checkKeyword, yields_ifCheck_none]
  cases external with
  | true => simp [yields_fail]
  | false =>
    simp only [Bool.false_eq_true, if_false, true_and]
    simp only [yields_bind, expectID, yields_expect, checkOp, yields_check, expectOp, yields_expectView, yields_expectNode,
      yields_pure]
    constructor
    · rintro (⟨_, rfl, _, _, name, rfl, rfl, _, _, _, rfl, hweak, t, _, type, rfl, htype, _, _, _, rfl, rfl, rfl, h⟩ |
        ⟨-, h, -⟩) <;> cases h
      simp only [List.append_nil, List.append_assoc, List.cons_append, List.nil_append] at htype hweak ⊢
      rcases hweak with ⟨rfl, rfl⟩ | ⟨rfl, rfl, hhead⟩
      · exact ⟨name, type, t, htype, .inl ⟨rfl, rfl⟩⟩
      · exact ⟨name, type, t, htype, .inr ⟨rfl, hhead, rfl⟩⟩
    · rintro ⟨name, type, t, htype, ⟨rfl, rfl⟩ | ⟨rfl, hhead, rfl⟩⟩
      · exact .inl ⟨_, rfl, [_], _, name, rfl, rfl, [_], _, true, rfl, .inl ⟨rfl, rfl⟩, t, [_], type, rfl, htype, [_], [], (),
          rfl, rfl, rfl, rfl⟩
      · refine .inl ⟨_, rfl, [_], _, name, rfl, rfl, [], t ++ [op ";"], false, rfl, .inr ⟨rfl, rfl, ?_⟩, t, [_], type, rfl, htype, [_],
          [], (), rfl, rfl, rfl, rfl⟩
        rw [List.append_assoc]
        exact hhead

theorem declines_parseFunc {external : Bool} : Declines (parseFunc b external) (· ≠ some (keyword "func")) :=
  declines_ifCheck (always_bind fun _ ↦ always_bind fun _ ↦ always_bind fun _ ↦ always_bind fun _ ↦ always_bind fun _ ↦
    always_pure _)

theorem declines_parseVar {external : Bool} : Declines (parseVar b external) (· ≠ some (keyword "var")) :=
  declines_ifCheck (always_bind fun _ ↦ always_bind fun _ ↦ always_bind fun _ ↦ always_bind fun _ ↦ always_pure _)

theorem declines_parseLet {external : Bool} : Declines (parseLet b external) (· ≠ some (keyword "let")) :=
  declines_ifCheck (always_bind fun _ ↦ always_bind fun _ ↦ always_bind fun _ ↦ always_bind fun _ ↦ always_bind fun _ ↦
    always_pure _)

theorem declines_parseTypealias {external : Bool} :
    Declines (parseTypealias external : ParseTokens (Option (Decl Body))) (· ≠ some (keyword "type")) := by
  apply declines_ifCheck
  cases external with
  | true => exact always_fail _
  | false => exact always_bind fun _ ↦ always_bind fun _ ↦ always_bind fun _ ↦ always_bind fun _ ↦ always_pure _

/-- The declarations are tried in turn; each begins with its own keyword. -/
theorem yields_parseDecl {external : Bool} {decl : Decl Body} :
    (parseDecl b external).Yields text (some decl) rest ↔ DeclRead b external rest decl text := by
  rw [parseDecl, declines_parseFunc.yields_orNode, declines_parseVar.yields_orNode, declines_parseLet.yields_orNode,
    yields_parseFunc, yields_parseVar, yields_parseLet, yields_parseTypealias]
  constructor
  · rintro (⟨_, _, _, _, _, _, _, _, _, rfl, hreceiver, hparams, hret, hbody, rfl⟩ | ⟨-, ⟨_, _, _, _, _, rfl, htype, hexpr,
      rfl⟩ | ⟨-, ⟨_, _, _, _, _, rfl, htype, hexpr, rfl⟩ | ⟨-, hexternal, _, _, _, htype, ⟨rfl, rfl⟩ |
      ⟨rfl, hhead, rfl⟩⟩⟩⟩)
    · exact .func hreceiver hparams hret hbody
    · exact .var htype hexpr
    · exact .let_ htype hexpr
    · exact .weak hexternal htype
    · exact .strong hexternal hhead htype
  · intro h
    cases h with
    | func hreceiver hparams hret hbody =>
      exact .inl ⟨_, _, _, _, _, _, _, _, _, rfl, hreceiver, hparams, hret, hbody, rfl⟩
    | var htype hexpr => exact .inr ⟨by simp [keyword], .inl ⟨_, _, _, _, _, rfl, htype, hexpr, rfl⟩⟩
    | let_ htype hexpr =>
      exact .inr ⟨by simp [keyword], .inr ⟨by simp [keyword], .inl ⟨_, _, _, _, _, rfl, htype, hexpr, rfl⟩⟩⟩
    | weak hexternal htype =>
      exact .inr ⟨by simp [keyword], .inr ⟨by simp [keyword], .inr ⟨by simp [keyword], hexternal, _, _, _, htype,
        .inl ⟨rfl, rfl⟩⟩⟩⟩
    | strong hexternal hhead htype =>
      exact .inr ⟨by simp [keyword], .inr ⟨by simp [keyword], .inr ⟨by simp [keyword], hexternal, _, _, _, htype,
        .inr ⟨rfl, hhead, rfl⟩⟩⟩⟩

theorem declines_parseDecl {external : Bool} : Declines (parseDecl b external) fun t ↦ t ≠ some (keyword "func") ∧
    t ≠ some (keyword "var") ∧ t ≠ some (keyword "let") ∧ t ≠ some (keyword "type") := by
  apply Declines.orNode
  · exact declines_parseFunc
  apply Declines.orNode
  · exact declines_parseVar
  apply Declines.orNode
  · exact declines_parseLet
  · exact declines_parseTypealias

/-! ## Statements -/

theorem declines_parseLambda : Declines (parseLambda (outerOf b)) (· ≠ some (keyword "func")) :=
  declines_ifCheck (always_bind fun _ ↦ always_bind fun _ ↦ always_bind fun _ ↦ always_pure _)

/-- The token does not begin a term. -/
def NoTerm (t : Option Token) : Prop :=
  t ≠ some (op "(") ∧ t.any (·.type = .identifier) = false ∧ t.any (·.type = .string) = false ∧
    t.any (·.type = .character) = false ∧ t.any (·.type = .number) = false ∧
    (t ≠ some (keyword "true") ∧ t ≠ some (keyword "false")) ∧ t ≠ some (op "[") ∧ t ≠ some (op "\x7b") ∧
    t ≠ some (keyword "func")

/-- No term is read where no term begins. -/
theorem declines_parseNested : Declines (parseNested b) NoTerm := by
  refine Declines.thenNode ?_ fun lhs ↦ always_some
  apply Declines.ifCheck
  · exact always_bind fun _ ↦ always_bind fun _ ↦ always_pure _
  iterate 4
    apply Declines.orNode
    · exact declines_parseLiteralToken
  apply Declines.orNode
  · exact declines_parseBool
  apply Declines.orNode
  · exact declines_parseArray
  apply Declines.orNode
  · exact declines_parseInitList
  · exact declines_parseLambda

theorem declines_parseAsgn : Declines (parseAsgn b) NoTerm :=
  Declines.thenNode declines_parseNested fun _ ↦ always_some

/-- The branch behind `else`, if there is one. -/
theorem yields_parseElse {elseBody : Option (Stat Body)} : (parseElse p).Yields text elseBody rest ↔
    (∃ t body, text = keyword "else" :: t ∧ p.Yields t (some body) rest ∧ elseBody = some body) ∨
      text = [] ∧ elseBody = none ∧ rest.head? ≠ some (keyword "else") := by
  rw [parseElse, checkKeyword, yields_ifCheck_none]
  simp only [yields_bind_pure, expectStat, yields_expectNode]
  constructor
  · rintro (⟨t, rfl, body, hbody, rfl⟩ | h)
    · exact .inl ⟨t, body, rfl, hbody, rfl⟩
    · exact .inr h
  · rintro (⟨t, body, rfl, hbody, rfl⟩ | h)
    · exact .inl ⟨t, rfl, body, hbody, rfl⟩
    · exact .inr h

theorem yields_parseIf {s : Stat Body} : (parseIf b p).Yields text (some s) rest ↔
    ∃ cond body elseBody t u v, text = keyword "if" :: (t ++ (u ++ v)) ∧
      (parseExpr b).Yields t (some cond) (u ++ (v ++ rest)) ∧ p.Yields u (some body) (v ++ rest) ∧
      (parseElse p).Yields v elseBody rest ∧ s = .fi cond body elseBody := by
  rw [parseIf, checkKeyword, yields_ifCheck_none]
  simp only [yields_bind, expectStat, yields_expectNode, yields_pure]
  constructor
  · rintro (⟨_, rfl, t, _, cond, rfl, hcond, u, _, body, rfl, hbody, v, _, elseBody, rfl, helse, rfl, h⟩ | ⟨-, h, -⟩) <;>
      cases h
    simp only [List.append_nil, List.append_assoc] at hcond hbody ⊢
    exact ⟨cond, body, elseBody, t, u, v, rfl, hcond, hbody, helse, rfl⟩
  · rintro ⟨cond, body, elseBody, t, u, v, rfl, hcond, hbody, helse, rfl⟩
    rw [← List.append_assoc] at hcond
    exact .inl ⟨_, rfl, t, u ++ v, cond, rfl, hcond, u, v, body, rfl, hbody, v, [], elseBody, (List.append_nil v).symm,
      helse, rfl, rfl⟩

/-- The loop over the cases ends at the closing brace. -/
theorem yields_switchStep_leave {cases cases' : List (SwitchCase Body)} :
    (switchStep b p cases).Yields text (.inl cases') rest ↔ text = [op "\x7d"] ∧ cases' = cases := by
  simp only [switchStep, checkOp, checkKeyword, yields_ifCheck]
  simp only [yields_bind, yields_pure]
  constructor
  · rintro (⟨_, rfl, rfl, h⟩ | ⟨-, ⟨_, rfl, _, _, _, rfl, -, _, _, _, rfl, -, -, h⟩ | ⟨-, ⟨_, rfl, _, _, _, rfl, -, -, h⟩ |
      ⟨-, h⟩⟩⟩)
    · cases h
      exact ⟨rfl, rfl⟩
    · cases h
    · cases h
    · exact absurd h not_yields_unexpectedCase
  · rintro ⟨rfl, rfl⟩
    exact .inl ⟨[], rfl, rfl, rfl⟩

/-- An iteration of the loop reads a case, or the default. -/
theorem yields_switchStep_next {cases cases' : List (SwitchCase Body)} :
    (switchStep b p cases).Yields text (.inr cases') rest ↔
      (∃ t u expr body, text = keyword "case" :: (t ++ u) ∧ (parseExpr b).Yields t (some expr) (u ++ rest) ∧
        p.Yields u (some body) rest ∧ cases' = cases ++ [.mk (some expr) body]) ∨
      ∃ u body, text = keyword "default" :: u ∧ p.Yields u (some body) rest ∧ cases' = cases ++ [.mk none body] := by
  simp only [switchStep, checkOp, checkKeyword, yields_ifCheck]
  simp only [yields_bind, expectStat, yields_expectNode, yields_pure]
  constructor
  · rintro (⟨_, rfl, rfl, h⟩ | ⟨-, ⟨_, rfl, t, _, expr, rfl, hexpr, u, _, body, rfl, hbody, rfl, h⟩ |
      ⟨-, ⟨_, rfl, u, _, body, rfl, hbody, rfl, h⟩ | ⟨-, h⟩⟩⟩)
    · cases h
    · cases h
      rw [List.append_nil] at hexpr ⊢
      exact .inl ⟨t, u, expr, body, rfl, hexpr, hbody, rfl⟩
    · cases h
      rw [List.append_nil]
      exact .inr ⟨u, body, rfl, hbody, rfl⟩
    · exact absurd h not_yields_unexpectedCase
  · rintro (⟨t, u, expr, body, rfl, hexpr, hbody, rfl⟩ | ⟨u, body, rfl, hbody, rfl⟩)
    · exact .inr ⟨by simp [keyword], .inl ⟨_, rfl, t, u, expr, rfl, hexpr, u, [], body, (List.append_nil u).symm, hbody,
        rfl, rfl⟩⟩
    · exact .inr ⟨by simp [keyword], .inr ⟨by simp [keyword], .inl ⟨_, rfl, u, [], body, (List.append_nil u).symm, hbody,
        rfl, rfl⟩⟩⟩

theorem yields_parseSwitch {s : Stat Body} : (parseSwitch b p).Yields text (some s) rest ↔
    ∃ expr cases t u, text = keyword "switch" :: (t ++ op "\x7b" :: u) ∧
      (parseExpr b).Yields t (some expr) (op "\x7b" :: (u ++ rest)) ∧ Loops (switchStep b p) rest [] u cases ∧
      s = .swich expr cases := by
  rw [parseSwitch, checkKeyword, yields_ifCheck_none]
  simp only [yields_bind, yields_expectNode, expectOp, yields_expectView, yields_loop, yields_pure]
  constructor
  · rintro (⟨_, rfl, t, _, expr, rfl, hexpr, _, _, _, rfl, rfl, u, _, cases, rfl, hcases, rfl, h⟩ | ⟨-, h, -⟩) <;> cases h
    rw [List.append_nil] at *
    exact ⟨expr, cases, t, u, rfl, hexpr, hcases, rfl⟩
  · rintro ⟨expr, cases, t, u, rfl, hexpr, hcases, rfl⟩
    exact .inl ⟨_, rfl, t, _, expr, rfl, hexpr, [_], u, (), rfl, rfl, u, [], cases, (List.append_nil u).symm, hcases, rfl,
      rfl⟩

theorem yields_parseKeywordStatement {node s : Stat Body} {name : String} :
    (parseKeywordStatement node name).Yields text (some s) rest ↔ text = [keyword name, op ";"] ∧ s = node := by
  rw [parseKeywordStatement, checkKeyword, yields_ifCheck_none]
  simp only [yields_bind, expectOp, yields_expectView, yields_pure]
  constructor
  · rintro (⟨_, rfl, _, _, _, rfl, rfl, rfl, h⟩ | ⟨-, h, -⟩) <;> cases h
    exact ⟨rfl, rfl⟩
  · rintro ⟨rfl, rfl⟩
    exact .inl ⟨_, rfl, [_], [], (), rfl, rfl, rfl, rfl⟩

/-- The expression of a return may be left out. -/
theorem yields_parseReturn {s : Stat Body} : (parseReturn b).Yields text (some s) rest ↔
    text = [keyword "return", op ";"] ∧ s = .ret none ∨
      ∃ t expr, text = keyword "return" :: (t ++ [op ";"]) ∧ (t ++ op ";" :: rest).head? ≠ some (op ";") ∧
        (parseExpr b).Yields t (some expr) (op ";" :: rest) ∧ s = .ret (some expr) := by
  rw [parseReturn, checkKeyword, yields_ifCheck_none]
  simp only [checkOp, yields_ifCheck]
  simp only [yields_bind, yields_expectNode, expectOp, yields_expectView, yields_pure]
  constructor
  · rintro (⟨_, rfl, ⟨_, rfl, rfl, h⟩ | ⟨hhead, t, _, expr, rfl, hexpr, _, _, _, rfl, rfl, rfl, h⟩⟩ | ⟨-, h, -⟩) <;> cases h
    · exact .inl ⟨rfl, rfl⟩
    · rw [List.append_assoc] at hhead
      exact .inr ⟨t, expr, rfl, hhead, hexpr, rfl⟩
  · rintro (⟨rfl, rfl⟩ | ⟨t, expr, rfl, hhead, hexpr, rfl⟩)
    · exact .inl ⟨_, rfl, .inl ⟨[], rfl, rfl, rfl⟩⟩
    · refine .inl ⟨_, rfl, .inr ⟨?_, t, [_], expr, rfl, hexpr, [_], [], (), rfl, rfl, rfl, rfl⟩⟩
      rw [List.append_assoc]
      exact hhead

theorem yields_parseWhile {s : Stat Body} : (parseWhile b p).Yields text (some s) rest ↔
    ∃ cond body t u, text = keyword "while" :: (t ++ u) ∧ (parseExpr b).Yields t (some cond) (u ++ rest) ∧
      p.Yields u (some body) rest ∧ s = .wile cond body := by
  rw [parseWhile, checkKeyword, yields_ifCheck_none]
  simp only [yields_bind, expectStat, yields_expectNode, yields_pure]
  constructor
  · rintro (⟨_, rfl, t, _, cond, rfl, hcond, u, _, body, rfl, hbody, rfl, h⟩ | ⟨-, h, -⟩) <;> cases h
    rw [List.append_nil] at *
    exact ⟨cond, body, t, u, rfl, hcond, hbody, rfl⟩
  · rintro ⟨cond, body, t, u, rfl, hcond, hbody, rfl⟩
    exact .inl ⟨_, rfl, t, u, cond, rfl, hcond, u, [], body, (List.append_nil u).symm, hbody, rfl, rfl⟩

theorem yields_parseOptAsgnSemi {asgn : Option (AsgnNode Body)} : (parseOptAsgnSemi b).Yields text asgn rest ↔
    ∃ t, text = t ++ [op ";"] ∧ (parseAsgn b).Yields t asgn (op ";" :: rest) := by
  simp only [parseOptAsgnSemi, yields_bind, expectOp, yields_expectView, yields_pure]
  constructor
  · rintro ⟨t, _, asgn, rfl, hasgn, _, _, _, rfl, rfl, rfl, rfl⟩
    exact ⟨t, rfl, hasgn⟩
  · rintro ⟨t, rfl, hasgn⟩
    exact ⟨t, [_], asgn, rfl, hasgn, [_], [], (), rfl, rfl, rfl, rfl⟩

/-- The three parts of a loop head, of which the first and the last may be left out. -/
theorem yields_parseFor {s : Stat Body} : (parseFor b p).Yields text (some s) rest ↔
    ∃ init cond incr body t u v w,
      text = keyword "for" :: op "(" :: (t ++ op ";" :: (u ++ op ";" :: (v ++ op ")" :: w))) ∧
      (parseAsgn b).Yields t init (op ";" :: (u ++ op ";" :: (v ++ op ")" :: (w ++ rest)))) ∧
      (parseExpr b).Yields u (some cond) (op ";" :: (v ++ op ")" :: (w ++ rest))) ∧
      (parseAsgn b).Yields v incr (op ")" :: (w ++ rest)) ∧ p.Yields w (some body) rest ∧
      s = .four init cond incr body := by
  rw [parseFor, checkKeyword, yields_ifCheck_none]
  simp only [yields_bind, expectStat, yields_expectNode, expectOp, yields_expectView, yields_parseOptAsgnSemi, yields_pure]
  constructor
  · rintro (⟨_, rfl, _, _, _, rfl, rfl, _, _, init, rfl, ⟨t, rfl, hinit⟩, u, _, cond, rfl, hcond, _, _, _, rfl, rfl, v, _,
      incr, rfl, hincr, _, _, _, rfl, rfl, w, _, body, rfl, hbody, rfl, h⟩ | ⟨-, h, -⟩) <;> cases h
    simp only [List.append_nil, List.append_assoc, List.cons_append, List.nil_append] at hinit hcond hincr ⊢
    exact ⟨init, cond, incr, body, t, u, v, w, rfl, hinit, hcond, hincr, hbody, rfl⟩
  · rintro ⟨init, cond, incr, body, t, u, v, w, rfl, hinit, hcond, hincr, hbody, rfl⟩
    refine .inl ⟨_, rfl, [_], _, (), rfl, rfl, t ++ [op ";"], u ++ op ";" :: (v ++ op ")" :: w), init, ?_, ⟨t, rfl, ?_⟩, u,
      op ";" :: (v ++ op ")" :: w), cond, rfl, ?_, [_], v ++ op ")" :: w, (), rfl, rfl, v, op ")" :: w, incr, rfl, ?_, [_],
      w, (), rfl, rfl, w, [], body, (List.append_nil w).symm, hbody, rfl, rfl⟩
    · simp
    · simpa using hinit
    · simpa using hcond
    · simpa using hincr

/-- A block is the statements up to its closing brace. -/
theorem yields_parseBlock {s : Stat Body} : (parseBlock p).Yields text (some s) rest ↔
    ∃ nodes t, text = op "\x7b" :: (t ++ [op "\x7d"]) ∧ (many p).Yields t nodes (op "\x7d" :: rest) ∧
      s = .block nodes := by
  rw [parseBlock, checkOp, yields_ifCheck_none]
  simp only [yields_bind, expectOp, yields_expectView, yields_pure]
  constructor
  · rintro (⟨_, rfl, t, _, nodes, rfl, hnodes, _, _, _, rfl, rfl, rfl, h⟩ | ⟨-, h, -⟩) <;> cases h
    exact ⟨nodes, t, rfl, hnodes, rfl⟩
  · rintro ⟨nodes, t, rfl, hnodes, rfl⟩
    exact .inl ⟨_, rfl, t, [_], nodes, rfl, hnodes, [_], [], (), rfl, rfl, rfl, rfl⟩

theorem yields_parseAsgnSemi {s : Stat Body} : (parseAsgnSemi b).Yields text (some s) rest ↔
    ∃ t asgn, text = t ++ [op ";"] ∧ (parseAsgn b).Yields t (some asgn) (op ";" :: rest) ∧ s = .asgn asgn := by
  rw [parseAsgnSemi, yields_thenNode]
  simp only [yields_bind, expectOp, yields_expectView, yields_pure]
  constructor
  · rintro ⟨t, _, asgn, rfl, hasgn, _, _, _, rfl, rfl, rfl, h⟩
    cases h
    exact ⟨t, asgn, rfl, hasgn, rfl⟩
  · rintro ⟨t, asgn, rfl, hasgn, rfl⟩
    exact ⟨t, [_], asgn, rfl, hasgn, [_], [], (), rfl, rfl, rfl, rfl⟩

/-! ## Choosing a statement -/

theorem declines_parseIf : Declines (parseIf b p) (· ≠ some (keyword "if")) :=
  declines_ifCheck (always_bind fun _ ↦ always_bind fun _ ↦ always_bind fun _ ↦ always_pure _)

theorem declines_parseSwitch : Declines (parseSwitch b p) (· ≠ some (keyword "switch")) :=
  declines_ifCheck (always_bind fun _ ↦ always_bind fun _ ↦ always_bind fun _ ↦ always_pure _)

theorem declines_parseKeywordStatement {node : Stat Body} {name : String} :
    Declines (parseKeywordStatement node name) (· ≠ some (keyword name)) :=
  declines_ifCheck (always_bind fun _ ↦ always_pure _)

theorem declines_parseReturn : Declines (parseReturn b) (· ≠ some (keyword "return")) := by
  apply declines_ifCheck
  apply always_bind
  intro closed
  cases closed with
  | true => exact always_pure _
  | false => exact always_bind fun _ ↦ always_bind fun _ ↦ always_pure _

theorem declines_parseWhile : Declines (parseWhile b p) (· ≠ some (keyword "while")) :=
  declines_ifCheck (always_bind fun _ ↦ always_bind fun _ ↦ always_pure _)

theorem declines_parseFor : Declines (parseFor b p) (· ≠ some (keyword "for")) :=
  declines_ifCheck (always_bind fun _ ↦ always_bind fun _ ↦ always_bind fun _ ↦ always_bind fun _ ↦ always_bind fun _ ↦
    always_bind fun _ ↦ always_bind fun _ ↦ always_pure _)

theorem declines_parseBlock : Declines (parseBlock p) (· ≠ some (op "\x7b")) :=
  declines_ifCheck (always_bind fun _ ↦ always_bind fun _ ↦ always_pure _)

theorem yields_declStat {s : Stat Body} :
    (thenNode (parseDecl b false) fun node ↦ return some (.decl node)).Yields text (some s) rest ↔
      ∃ decl, DeclRead b false rest decl text ∧ s = .decl decl := by
  simp only [yields_thenNode, yields_parseDecl, yields_pure]
  constructor
  · rintro ⟨t, _, decl, rfl, hdecl, rfl, h⟩
    cases h
    rw [List.append_nil]
    exact ⟨decl, hdecl, rfl⟩
  · rintro ⟨decl, hdecl, rfl⟩
    exact ⟨text, [], decl, (List.append_nil text).symm, hdecl, rfl, rfl⟩

theorem declines_declStat :
    Declines (thenNode (parseDecl b false) fun node ↦ return some (Stat.decl node)) fun t ↦ t ≠ some (keyword "func") ∧
      t ≠ some (keyword "var") ∧ t ≠ some (keyword "let") ∧ t ≠ some (keyword "type") := by
  apply Declines.thenNode
  · exact declines_parseDecl
  · exact fun _ ↦ always_pure _

theorem DeclRead.head {external : Bool} {decl : Decl Body} (h : DeclRead b external rest decl text) :
    ∃ first ∈ [keyword "func", keyword "var", keyword "let", keyword "type"], (text ++ rest).head? = some first := by
  cases h <;> exact ⟨_, by simp, rfl⟩

/-- The recognisers are tried in the order of the source, and the assignment is the last of them. -/
theorem yields_statBody {s : Stat Body} : (statBody b p).Yields text (some s) rest ↔
    (parseIf b p).Yields text (some s) rest ∨ (parseSwitch b p).Yields text (some s) rest ∨
      (parseBreak : ParseTokens (Option (Stat Body))).Yields text (some s) rest ∨
      (parseContinue : ParseTokens (Option (Stat Body))).Yields text (some s) rest ∨
      (parseReturn b).Yields text (some s) rest ∨ (parseWhile b p).Yields text (some s) rest ∨
      (parseFor b p).Yields text (some s) rest ∨ (parseBlock p).Yields text (some s) rest ∨
      (∃ decl, DeclRead b false rest decl text ∧ s = .decl decl) ∨
      (∀ first ∈ (text ++ rest).head?, first ∉ reserved) ∧ (parseAsgnSemi b).Yields text (some s) rest := by
  rw [statBody, declines_parseIf.yields_orNode, declines_parseSwitch.yields_orNode, parseBreak,
    declines_parseKeywordStatement.yields_orNode, parseContinue, declines_parseKeywordStatement.yields_orNode,
    declines_parseReturn.yields_orNode, declines_parseWhile.yields_orNode, declines_parseFor.yields_orNode,
    declines_parseBlock.yields_orNode, declines_declStat.yields_orNode, yields_declStat]
  constructor
  · rintro (h | ⟨hif, h | ⟨hswitch, h | ⟨hbreak, h | ⟨hcontinue, h | ⟨hreturn, h | ⟨hwhile, h | ⟨hfor, h | ⟨hblock, h |
      ⟨⟨hfunc, hvar, hlet, htype⟩, h⟩⟩⟩⟩⟩⟩⟩⟩⟩)
    · exact .inl h
    · exact .inr (.inl h)
    · exact .inr (.inr (.inl h))
    · exact .inr (.inr (.inr (.inl h)))
    · exact .inr (.inr (.inr (.inr (.inl h))))
    · exact .inr (.inr (.inr (.inr (.inr (.inl h)))))
    · exact .inr (.inr (.inr (.inr (.inr (.inr (.inl h))))))
    · exact .inr (.inr (.inr (.inr (.inr (.inr (.inr (.inl h)))))))
    · exact .inr (.inr (.inr (.inr (.inr (.inr (.inr (.inr (.inl h))))))))
    · refine .inr (.inr (.inr (.inr (.inr (.inr (.inr (.inr (.inr ⟨fun first hfirst hmem ↦ ?_, h⟩))))))))
      simp only [reserved, List.mem_cons, List.not_mem_nil, or_false] at hmem
      rcases hmem with rfl | rfl | rfl | rfl | rfl | rfl | rfl | rfl | rfl | rfl | rfl | rfl <;> contradiction
  · rintro (h | h | h | h | h | h | h | h | h | ⟨hreserved, h⟩)
    · exact .inl h
    · have hhead := head_ifCheck h
      simp [hhead, h, keyword, op]
    · have hhead := head_ifCheck h
      simp [hhead, h, keyword, op]
    · have hhead := head_ifCheck h
      simp [hhead, h, keyword, op]
    · have hhead := head_ifCheck h
      simp [hhead, h, keyword, op]
    · have hhead := head_ifCheck h
      simp [hhead, h, keyword, op]
    · have hhead := head_ifCheck h
      simp [hhead, h, keyword, op]
    · have hhead := head_ifCheck h
      simp [hhead, h, keyword, op]
    · obtain ⟨decl, hdecl, hs⟩ := h
      obtain ⟨first, hmem, hhead⟩ := hdecl.head
      have h : ∃ decl, DeclRead b false rest decl text ∧ s = .decl decl := ⟨decl, hdecl, hs⟩
      simp only [List.mem_cons, List.not_mem_nil, or_false] at hmem
      rcases hmem with rfl | rfl | rfl | rfl <;> simp [hhead, h, keyword, op]
    · have hne (first : Token) (hmem : first ∈ reserved) : (text ++ rest).head? ≠ some first :=
        fun hhead ↦ hreserved first hhead hmem
      simp only [reserved, List.forall_mem_cons, List.not_mem_nil, false_imp_iff, implies_true, and_true] at hne
      simp_all

/-- The token does not begin a statement. -/
def NoStat (t : Option Token) : Prop :=
  t ≠ some (keyword "if") ∧ t ≠ some (keyword "switch") ∧ t ≠ some (keyword "break") ∧ t ≠ some (keyword "continue") ∧
    t ≠ some (keyword "return") ∧ t ≠ some (keyword "while") ∧ t ≠ some (keyword "for") ∧ t ≠ some (op "\x7b") ∧
    (t ≠ some (keyword "func") ∧ t ≠ some (keyword "var") ∧ t ≠ some (keyword "let") ∧ t ≠ some (keyword "type")) ∧
    NoTerm t

theorem declines_statBody : Declines (statBody b p) NoStat := by
  apply Declines.orNode
  · exact declines_parseIf
  apply Declines.orNode
  · exact declines_parseSwitch
  apply Declines.orNode
  · exact declines_parseKeywordStatement
  apply Declines.orNode
  · exact declines_parseKeywordStatement
  apply Declines.orNode
  · exact declines_parseReturn
  apply Declines.orNode
  · exact declines_parseWhile
  apply Declines.orNode
  · exact declines_parseFor
  apply Declines.orNode
  · exact declines_parseBlock
  apply Declines.orNode
  · exact declines_declStat
  apply Declines.thenNode
  · exact declines_parseAsgn
  · exact fun _ ↦ always_bind fun _ ↦ always_pure _

theorem noStat_closing : NoStat (some (op "\x7d")) := by
  simp [NoStat, NoTerm, op, keyword]

theorem noTerm_delimiter {view : String} (hview : view ∈ [";", ")"]) : NoTerm (some (op view)) := by
  simp only [List.mem_cons, List.not_mem_nil, or_false] at hview
  rcases hview with rfl | rfl <;> simp [NoTerm, op, keyword]

/-- A statement has at least one token. -/
theorem productive_statBody : Productive (statBody b p) := by
  intro text s rest h
  rcases yields_statBody.mp h with h | h | h | h | h | h | h | h | ⟨decl, h, -⟩ | ⟨-, h⟩
  · obtain ⟨_, _, _, _, _, _, rfl, -⟩ := yields_parseIf.mp h
    exact List.cons_ne_nil _ _
  · obtain ⟨_, _, _, _, rfl, -⟩ := yields_parseSwitch.mp h
    exact List.cons_ne_nil _ _
  · obtain ⟨rfl, -⟩ := yields_parseKeywordStatement.mp h
    exact List.cons_ne_nil _ _
  · obtain ⟨rfl, -⟩ := yields_parseKeywordStatement.mp h
    exact List.cons_ne_nil _ _
  · rcases yields_parseReturn.mp h with ⟨rfl, -⟩ | ⟨_, _, rfl, -⟩ <;> exact List.cons_ne_nil _ _
  · obtain ⟨_, _, _, _, rfl, -⟩ := yields_parseWhile.mp h
    exact List.cons_ne_nil _ _
  · obtain ⟨_, _, _, _, _, _, _, _, rfl, -⟩ := yields_parseFor.mp h
    exact List.cons_ne_nil _ _
  · obtain ⟨_, _, rfl, -⟩ := yields_parseBlock.mp h
    exact List.cons_ne_nil _ _
  · cases h <;> exact List.cons_ne_nil _ _
  · obtain ⟨_, _, rfl, -⟩ := yields_parseAsgnSemi.mp h
    simp

theorem productive_parseStat : Productive (parseStat b) := by
  rw [parseStat_eq]
  exact productive_statBody

theorem declines_parseStat : Declines (parseStat b) NoStat := by
  rw [parseStat_eq]
  exact declines_statBody

end

end Stela.Syntax.ParseStat
