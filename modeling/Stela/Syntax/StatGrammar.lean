import Stela.Syntax.ParseStat

/-!
# The grammar of statements

`PrintingStat` relates a statement to its texts. An `else` belongs to the nearest `if`, so a branch in front of it must
not take it, and behind a condition a statement must not start with a token that goes on with the condition.
-/

namespace Stela.Syntax.ParseStat

open ParseExpr ParseType

def TypeText (type : TypeExpr) (text : List Token) : Prop := text = printType type

section

variable {Body : Type} (bodies : Body → List Token → Prop)

inductive PrintingOpt {α : Type} (before : List Token) (texts : α → List Token → Prop) : Option α → List Token → Prop
  | none : PrintingOpt before texts none []
  | some {a t} : texts a t → PrintingOpt before texts (some a) (before ++ t)

/-! ## Assignments and declarations -/

inductive PrintingAsgn : Asgn (ParseExpr.Expr TypeExpr Body) → List Token → Prop
  | compAssign {dst oper src t u} : Printing TypeText bodies 0 dst t → Printing TypeText bodies ternLevel src u →
      PrintingAsgn (.compAssign dst oper src) (t ++ op (assignText oper) :: u)
  | incr {dst t} : Printing TypeText bodies 0 dst t → PrintingAsgn (.incrDecr dst true) (t ++ [op "++"])
  | decr {dst t} : Printing TypeText bodies 0 dst t → PrintingAsgn (.incrDecr dst false) (t ++ [op "--"])
  | assign {dst src t u} : Printing TypeText bodies 0 dst t → Printing TypeText bodies ternLevel src u →
      PrintingAsgn (.assign dst src) (t ++ op "=" :: u)
  | declAssign {name expr t u} : Printing TypeText bodies 0 (.ident name) t →
      Printing TypeText bodies ternLevel expr u → PrintingAsgn (.declAssign name expr) (t ++ op ":=" :: u)
  | callAssign {func args t} : Printing TypeText bodies 0 (.call func args) t →
      PrintingAsgn (.callAssign (.call func args)) t

inductive PrintingReceiver : Option (FuncParam TypeExpr) → List Token → Prop
  | none : PrintingReceiver none []
  | some {param t} : PrintingParam TypeText param t → PrintingReceiver (some param) (op "(" :: (t ++ [op ")"]))

/-- The texts of a declaration behind `extern`, if it is external. -/
inductive PrintingDecl (external : Bool) : Decl Body → List Token → Prop
  | func {receiver name params ret body t u v w} : PrintingReceiver receiver t → PrintingSig TypeText params u →
      PrintingRet TypeText ret v → bodies body w → PrintingDecl external (.func ⟨external, receiver, name, params, ret, body⟩)
        (keyword "func" :: (t ++ ⟨.identifier, name⟩ :: (u ++ (v ++ w))))
  | var {name type expr t u} : PrintingOpt [op ":"] TypeText type t →
      PrintingOpt [op "="] (Printing TypeText bodies ternLevel) expr u →
      PrintingDecl external (.var external name type expr) (keyword "var" :: ⟨.identifier, name⟩ :: (t ++ (u ++ [op ";"])))
  | let_ {name type expr t u} : PrintingOpt [op ":"] TypeText type t → Printing TypeText bodies ternLevel expr u →
      PrintingDecl external (.let_ external name type expr)
        (keyword "let" :: ⟨.identifier, name⟩ :: (t ++ op "=" :: (u ++ [op ";"])))
  | weak {name type t} : external = false → TypeText type t →
      PrintingDecl external (.typeAlias name false type) (keyword "type" :: ⟨.identifier, name⟩ :: op "=" :: (t ++ [op ";"]))
  | strong {name type t} : external = false → TypeText type t →
      PrintingDecl external (.typeAlias name true type) (keyword "type" :: ⟨.identifier, name⟩ :: (t ++ [op ";"]))

/-! ## Statements -/

/-- An `else` behind the statement belongs to an `if` that the statement ends with. -/
def Stat.takesElse : Stat Body → Bool
  | .fi _ _ none => true
  | .fi _ _ (some elseBody) => elseBody.takesElse
  | .wile _ body => body.takesElse
  | .four _ _ _ body => body.takesElse
  | _ => false

/-- What a statement starts with before `parseAsgn` is tried. -/
def reserved : List Token :=
  [keyword "if", keyword "switch", keyword "break", keyword "continue", keyword "return", keyword "while",
    keyword "for", op "\x7b", keyword "func", keyword "var", keyword "let", keyword "type"]

mutual

inductive PrintingStat : Stat Body → List Token → Prop
  | block {nodes t} : PrintingNodes nodes t → PrintingStat (.block nodes) (op "\x7b" :: t)
  | fi {cond body t u} : Printing TypeText bodies ternLevel cond t → PrintingStat body u → Stops ternLevel u →
      PrintingStat (.fi cond body none) (keyword "if" :: (t ++ u))
  | fiElse {cond body elseBody t u v} : Printing TypeText bodies ternLevel cond t → PrintingStat body u →
      Stops ternLevel u → body.takesElse = false → PrintingStat elseBody v →
      PrintingStat (.fi cond body (some elseBody)) (keyword "if" :: (t ++ (u ++ keyword "else" :: v)))
  | swich {expr cases t u} : Printing TypeText bodies ternLevel expr t → PrintingCases cases u →
      PrintingStat (.swich expr cases) (keyword "switch" :: (t ++ op "\x7b" :: u))
  | brake : PrintingStat .brake [keyword "break", op ";"]
  | continu : PrintingStat .continu [keyword "continue", op ";"]
  | ret : PrintingStat (.ret none) [keyword "return", op ";"]
  | retExpr {expr t} : Printing TypeText bodies ternLevel expr t →
      PrintingStat (.ret (some expr)) (keyword "return" :: (t ++ [op ";"]))
  | wile {cond body t u} : Printing TypeText bodies ternLevel cond t → PrintingStat body u → Stops ternLevel u →
      PrintingStat (.wile cond body) (keyword "while" :: (t ++ u))
  | four {init cond incr body t u v w} : PrintingOpt [] (PrintingAsgn bodies) init t →
      Printing TypeText bodies ternLevel cond u → PrintingOpt [] (PrintingAsgn bodies) incr v → PrintingStat body w →
      PrintingStat (.four init cond incr body)
        (keyword "for" :: op "(" :: (t ++ op ";" :: (u ++ op ";" :: (v ++ op ")" :: w))))
  | decl {decl t} : PrintingDecl bodies false decl t → PrintingStat (.decl decl) t
  | asgn {asgn t} : PrintingAsgn bodies asgn t → (∀ first ∈ t.head?, first ∉ reserved) →
      PrintingStat (.asgn asgn) (t ++ [op ";"])

/-- The texts of the statements of a block, with the bracket behind them. -/
inductive PrintingNodes : List (Stat Body) → List Token → Prop
  | nil : PrintingNodes [] [op "\x7d"]
  | cons {node nodes t u} : PrintingStat node t → PrintingNodes nodes u → PrintingNodes (node :: nodes) (t ++ u)

/-- The texts of the cases of a switch, with the bracket behind them. -/
inductive PrintingCases : List (SwitchCase Body) → List Token → Prop
  | nil : PrintingCases [] [op "\x7d"]
  | expr {expr body cases t u v} : Printing TypeText bodies ternLevel expr t → PrintingStat body u →
      Stops ternLevel u → PrintingCases cases v →
      PrintingCases (.mk (some expr) body :: cases) (keyword "case" :: (t ++ (u ++ v)))
  | default {body cases u v} : PrintingStat body u → PrintingCases cases v →
      PrintingCases (.mk none body :: cases) (keyword "default" :: (u ++ v))

end

end

/-! ## Function bodies -/

inductive PrintingBlock : Block → List Token → Prop
  | mk {nodes t} : PrintingNodes PrintingBlock nodes t → PrintingBlock (.mk nodes) (op "\x7b" :: t)

/-! ## What the texts start with -/

section

variable {Body : Type} {bodies : Body → List Token → Prop} {text : List Token}

/-- What a term that is a keyword starts with. The induction follows the left operands. -/
theorem printing_head {n : ℕ} {e : ExprNode Body} (h : Printing TypeText bodies n e text) :
    ∃ first ts, text = first :: ts ∧ (n = 0 → first.type = .keyword → first.view ∈ ["true", "false", "func"]) := by
  induction hlength : text.length using Nat.strong_induction_on generalizing n e text with
  | _ length ih =>
  cases h with
  | paren _ | array _ | initList _ => exact ⟨_, _, rfl, fun _ h ↦ by cases h⟩
  | ident | string | char | number => exact ⟨_, _, rfl, fun _ h ↦ by cases h⟩
  | troo | fols | lambda _ _ _ => exact ⟨_, _, rfl, fun _ _ ↦ by simp [keyword]⟩
  | call hobject _ | subscript hobject _ | member hobject =>
    obtain ⟨first, ts, rfl, hfirst⟩ := ih _ (by simp [← hlength]) hobject rfl
    exact ⟨first, _, rfl, fun _ ↦ hfirst rfl⟩
  | unary hn _ | make hn _ _ => exact ⟨_, _, rfl, fun hzero ↦ by omega⟩
  | binary hn hlhs _ =>
    obtain ⟨first, ts, rfl, hfirst⟩ := ih _ (by simp [← hlength]) hlhs rfl
    have hbound := (binLevel_bounds _).1.trans hn
    exact ⟨first, _, rfl, fun hzero ↦ by omega⟩
  | ternary hn hcond _ _ =>
    obtain ⟨first, ts, rfl, hfirst⟩ := ih _ (by simp [← hlength]) hcond rfl
    exact ⟨first, _, rfl, fun hzero ↦ by cases hn.trans_eq hzero⟩

/-- What an assignment may start with. -/
def StartsAsgn (first : Token) : Prop :=
  (first.type = .oper → first.view ∈ ["(", "[", "\x7b"]) ∧ (first.type = .keyword → first.view ∈ ["true", "false", "func"])

theorem starts_dst {dst : ExprNode Body} (h : Printing TypeText bodies 0 dst text) :
    ∃ first ts, text = first :: ts ∧ StartsAsgn first := by
  obtain ⟨first, ts, rfl, hkeyword⟩ := printing_head h
  obtain ⟨first', ts', heq, hstarts⟩ := h.starts
  cases heq
  refine ⟨first, ts, rfl, fun hoper ↦ ?_, hkeyword rfl⟩
  have hview := hstarts.1 hoper
  have hprefix := hstarts.2 rfl
  obtain ⟨type, view⟩ := first
  subst hoper
  simp only [prefixes, op, keyword, List.mem_cons, Token.mk.injEq, List.not_mem_nil, or_false] at hview hprefix ⊢
  grind

theorem PrintingAsgn.starts {asgn : AsgnNode Body} (h : PrintingAsgn bodies asgn text) :
    ∃ first ts, text = first :: ts ∧ StartsAsgn first := by
  cases h with
  | callAssign hdst => exact starts_dst hdst
  | compAssign hdst _ | assign hdst _ | declAssign hdst _ | incr hdst | decr hdst =>
    obtain ⟨first, ts, rfl, hfirst⟩ := starts_dst hdst
    exact ⟨first, _, rfl, hfirst⟩

/-- What ends the statements of a block, a branch or a case. -/
def closers : List Token := [op "\x7d", keyword "else", keyword "case", keyword "default"]

theorem StartsAsgn.not_closer {first : Token} (h : StartsAsgn first) : first ∉ closers := by
  intro hcloser
  simp only [closers, List.mem_cons, List.not_mem_nil, or_false] at hcloser
  rcases hcloser with rfl | rfl | rfl | rfl <;> simp [StartsAsgn, op, keyword] at h

theorem PrintingDecl.starts {external : Bool} {decl : Decl Body} (h : PrintingDecl bodies external decl text) :
    ∃ first ts, text = first :: ts ∧ first ∈ [keyword "func", keyword "var", keyword "let", keyword "type"] := by
  cases h <;> exact ⟨_, _, rfl, by simp⟩

theorem PrintingStat.starts {s : Stat Body} (h : PrintingStat bodies s text) :
    ∃ first ts, text = first :: ts ∧ first ∉ closers := by
  cases h with
  | decl h =>
    obtain ⟨first, ts, rfl, hfirst⟩ := h.starts
    refine ⟨first, ts, rfl, ?_⟩
    simp only [List.mem_cons, List.not_mem_nil, or_false] at hfirst
    rcases hfirst with rfl | rfl | rfl | rfl <;> simp [closers, op, keyword]
  | asgn h _ =>
    obtain ⟨first, ts, rfl, hfirst⟩ := h.starts
    exact ⟨first, _, rfl, hfirst.not_closer⟩
  | _ => exact ⟨_, _, rfl, by simp [closers, op, keyword]⟩

/-! ## The bodies in a text -/

variable {bodies' : Body → List Token → Prop} {k : ℕ}

theorem PrintingOpt.mono {α : Type} {before : List Token} {texts texts' : α → List Token → Prop} {node : Option α}
    (h : PrintingOpt before texts node text) (htexts : ∀ {a t}, t.length ≤ text.length → texts a t → texts' a t) :
    PrintingOpt before texts' node text := by
  cases h with
  | none => exact .none
  | some h => exact .some (htexts (by rw [List.length_append]; omega) h)

section

variable (h : BodiesUpTo k bodies bodies')
include h

theorem PrintingAsgn.map_bodies {asgn : AsgnNode Body} (hasgn : PrintingAsgn bodies asgn text) (hk : text.length ≤ k) :
    PrintingAsgn bodies' asgn text := by
  cases hasgn with
  | callAssign hdst => exact .callAssign (hdst.map_bodies h hk)
  | incr hdst =>
    rw [List.length_append] at hk
    exact .incr (hdst.map_bodies h (by omega))
  | decr hdst =>
    rw [List.length_append] at hk
    exact .decr (hdst.map_bodies h (by omega))
  | assign hdst hsrc =>
    rw [List.length_append, List.length_cons] at hk
    exact .assign (hdst.map_bodies h (by omega)) (hsrc.map_bodies h (by omega))
  | compAssign hdst hsrc =>
    rw [List.length_append, List.length_cons] at hk
    exact .compAssign (hdst.map_bodies h (by omega)) (hsrc.map_bodies h (by omega))
  | declAssign hdst hexpr =>
    rw [List.length_append, List.length_cons] at hk
    exact .declAssign (hdst.map_bodies h (by omega)) (hexpr.map_bodies h (by omega))

theorem PrintingDecl.map_bodies {external : Bool} {decl : Decl Body} (hdecl : PrintingDecl bodies external decl text)
    (hk : text.length ≤ k) : PrintingDecl bodies' external decl text := by
  cases hdecl with
  | func hreceiver hparams hret hbody =>
    simp only [List.length_cons, List.length_append] at hk
    exact .func hreceiver hparams hret (h (by omega) hbody)
  | var htype hexpr =>
    simp only [List.length_cons, List.length_append] at hk
    exact .var htype (hexpr.mono fun hlength he ↦ he.map_bodies h (by omega))
  | let_ htype hexpr =>
    simp only [List.length_cons, List.length_append] at hk
    exact .let_ htype (hexpr.map_bodies h (by omega))
  | weak hexternal htype => exact .weak hexternal htype
  | strong hexternal htype => exact .strong hexternal htype

end

mutual

theorem PrintingStat.map_bodies (h : BodiesUpTo k bodies bodies') {s : Stat Body} {text : List Token} :
    PrintingStat bodies s text → text.length ≤ k → PrintingStat bodies' s text
  | .block hnodes, hk => .block (hnodes.map_bodies h (Nat.le_of_succ_le hk))
  | .fi hcond hbody hstops, hk => by
    simp only [List.length_cons, List.length_append] at hk
    exact .fi (hcond.map_bodies h (by omega)) (hbody.map_bodies h (by omega)) hstops
  | .fiElse hcond hbody hstops hclosed helse, hk => by
    simp only [List.length_cons, List.length_append] at hk
    exact .fiElse (hcond.map_bodies h (by omega)) (hbody.map_bodies h (by omega)) hstops hclosed
      (helse.map_bodies h (by omega))
  | .swich hexpr hcases, hk => by
    simp only [List.length_cons, List.length_append] at hk
    exact .swich (hexpr.map_bodies h (by omega)) (hcases.map_bodies h (by omega))
  | .brake, _ => .brake
  | .continu, _ => .continu
  | .ret, _ => .ret
  | .retExpr hexpr, hk => by
    simp only [List.length_cons, List.length_append] at hk
    exact .retExpr (hexpr.map_bodies h (by omega))
  | .wile hcond hbody hstops, hk => by
    simp only [List.length_cons, List.length_append] at hk
    exact .wile (hcond.map_bodies h (by omega)) (hbody.map_bodies h (by omega)) hstops
  | .four hinit hcond hincr hbody, hk => by
    simp only [List.length_cons, List.length_append] at hk
    exact .four (hinit.mono fun hlength ha ↦ ha.map_bodies h (by omega)) (hcond.map_bodies h (by omega))
      (hincr.mono fun hlength ha ↦ ha.map_bodies h (by omega)) (hbody.map_bodies h (by omega))
  | .decl hdecl, hk => .decl (hdecl.map_bodies h hk)
  | .asgn hasgn hreserved, hk => .asgn (hasgn.map_bodies h (by rw [List.length_append] at hk; omega)) hreserved

theorem PrintingNodes.map_bodies (h : BodiesUpTo k bodies bodies') {nodes : List (Stat Body)} {text : List Token} :
    PrintingNodes bodies nodes text → text.length ≤ k → PrintingNodes bodies' nodes text
  | .nil, _ => .nil
  | .cons hnode hnodes, hk => by
    rw [List.length_append] at hk
    exact .cons (hnode.map_bodies h (by omega)) (hnodes.map_bodies h (by omega))

theorem PrintingCases.map_bodies (h : BodiesUpTo k bodies bodies') {cases : List (SwitchCase Body)}
    {text : List Token} : PrintingCases bodies cases text → text.length ≤ k → PrintingCases bodies' cases text
  | .nil, _ => .nil
  | .expr hexpr hbody hstops hcases, hk => by
    simp only [List.length_cons, List.length_append] at hk
    exact .expr (hexpr.map_bodies h (by omega)) (hbody.map_bodies h (by omega)) hstops (hcases.map_bodies h (by omega))
  | .default hbody hcases, hk => by
    simp only [List.length_cons, List.length_append] at hk
    exact .default (hbody.map_bodies h (by omega)) (hcases.map_bodies h (by omega))

end

end

end Stela.Syntax.ParseStat
