import Stela.Syntax.ParseExpr

/-!
# The grammar of expressions

`Printing` relates an expression at a level of the precedence table to its texts, with brackets around any part of
it. Levels count from the tightest: postfix operators have zero, prefix operators one, and the conditional operator
twelve.
-/

namespace Stela.Syntax.ParseExpr

/-! ## The precedence table -/

def binText : BinOp → String
  | .mul => "*"
  | .div => "/"
  | .mod => "%"
  | .add => "+"
  | .sub => "-"
  | .bit_shl => "<<"
  | .bit_shr => ">>"
  | .bit_and => "&"
  | .bit_xor => "^"
  | .bit_or => "|"
  | .lt => "<"
  | .le => "<="
  | .gt => ">"
  | .ge => ">="
  | .eq => "=="
  | .ne => "!="
  | .bool_and => "&&"
  | .bool_or => "||"

def binLevel : BinOp → ℕ
  | .mul | .div | .mod => 2
  | .add | .sub => 3
  | .bit_shl | .bit_shr => 4
  | .bit_and => 5
  | .bit_xor => 6
  | .bit_or => 7
  | .lt | .le | .gt | .ge => 8
  | .eq | .ne => 9
  | .bool_and => 10
  | .bool_or => 11

def unText : UnOp → String
  | .neg => "-"
  | .bool_not => "!"
  | .bit_not => "~"

theorem unText_mem (oper : UnOp) : unText oper ∈ ["-", "!", "~"] := by
  cases oper <;> decide

def ternLevel : ℕ := 12

/-- The token goes on with an expression of the level. -/
def Continues (n : ℕ) (t : Token) : Prop :=
  n = 0 ∧ t ∈ [op "(", op "[", op "."] ∨ (∃ oper, binLevel oper = n ∧ t = op (binText oper)) ∨ n = ternLevel ∧ t = op "?"

/-- The first token, if there is one, does not go on with an expression of this or a tighter level. -/
def Stops (n : ℕ) (rest : List Token) : Prop := ∀ t ∈ rest.head?, ∀ m ≤ n, ¬Continues m t

theorem Stops.mono {m n : ℕ} {rest : List Token} (h : Stops n rest) (hm : m ≤ n) : Stops m rest :=
  fun t ht l hl ↦ h t ht l (hl.trans hm)

theorem stops_succ {n : ℕ} {rest : List Token} :
    Stops (n + 1) rest ↔ Stops n rest ∧ ∀ t ∈ rest.head?, ¬Continues (n + 1) t := by
  constructor
  · exact fun h ↦ ⟨h.mono n.le_succ, fun t ht ↦ h t ht _ le_rfl⟩
  · rintro ⟨h, hnext⟩ t ht m hm
    rcases Nat.le_succ_iff.mp hm with hle | rfl
    · exact h t ht m hle
    · exact hnext t ht

theorem binLevel_bounds (oper : BinOp) : 2 ≤ binLevel oper ∧ binLevel oper < ternLevel := by
  cases oper <;> decide

theorem continues_zero {t : Token} : Continues 0 t ↔ t ∈ [op "(", op "[", op "."] := by
  constructor
  · rintro (⟨-, h⟩ | ⟨oper, hlevel, -⟩ | ⟨h, -⟩)
    · exact h
    · have hbounds := binLevel_bounds oper
      omega
    · cases h
  · exact fun h ↦ .inl ⟨rfl, h⟩

theorem not_continues_one (t : Token) : ¬Continues 1 t := by
  rintro (⟨h, -⟩ | ⟨oper, hlevel, -⟩ | ⟨h, -⟩)
  · cases h
  · have hbounds := binLevel_bounds oper
    omega
  · cases h

theorem continues_binary {n : ℕ} {t : Token} (hn : 2 ≤ n) (hn' : n < ternLevel) :
    Continues n t ↔ ∃ oper, binLevel oper = n ∧ t = op (binText oper) := by
  constructor
  · rintro (⟨hzero, -⟩ | h | ⟨htern, -⟩)
    · omega
    · exact h
    · omega
  · exact fun h ↦ .inr (.inl h)

theorem continues_ternLevel {t : Token} : Continues ternLevel t ↔ t = op "?" := by
  constructor
  · rintro (⟨h, -⟩ | ⟨oper, hlevel, -⟩ | ⟨-, h⟩)
    · cases h
    · have hbounds := binLevel_bounds oper
      omega
    · exact h
  · exact fun h ↦ .inr (.inr ⟨rfl, h⟩)

theorem binText_injective : Function.Injective binText := by
  intro oper oper' h
  cases oper <;> cases oper' <;> first | rfl | simp [binText] at h

theorem eq_ternLevel_of_continues {n : ℕ} (h : Continues n (op "?")) : n = ternLevel := by
  rcases h with ⟨-, h⟩ | ⟨oper, -, h⟩ | ⟨h, -⟩
  · simp [op] at h
  · cases oper <;> simp [op, binText] at h
  · exact h

/-- The token of an operator goes on with the expressions of its own level only. -/
theorem continues_binText {oper : BinOp} {n : ℕ} : Continues n (op (binText oper)) ↔ n = binLevel oper := by
  constructor
  · rintro (⟨-, h⟩ | ⟨oper', rfl, h⟩ | ⟨-, h⟩)
    · cases oper <;> simp [op, binText] at h
    · rw [binText_injective (congrArg Token.view h)]
    · cases oper <;> simp [op, binText] at h
  · rintro rfl
    exact .inr (.inl ⟨oper, rfl, rfl⟩)

/-- Closing brackets and delimiters. -/
theorem not_continues {view : String} (hview : view ∈ [")", "]", "\x7d", ",", ":", ";"]) (n : ℕ) :
    ¬Continues n (op view) := by
  rintro (⟨-, h⟩ | ⟨oper, -, h⟩ | ⟨-, h⟩)
  · have hfirst : view ∈ ["(", "[", "."] := by simpa [op] using h
    simp only [List.mem_cons, List.not_mem_nil, or_false] at hview hfirst
    rcases hview with rfl | rfl | rfl | rfl | rfl | rfl <;> simp at hfirst
  · obtain rfl : view = binText oper := congrArg Token.view h
    cases oper <;> simp [binText] at hview
  · obtain rfl : view = "?" := congrArg Token.view h
    simp at hview

theorem stops_cons {view : String} (hview : view ∈ [")", "]", "\x7d", ",", ":", ";"]) (n : ℕ) (rest : List Token) :
    Stops n (op view :: rest) := by
  rintro t ht m -
  cases ht
  exact not_continues hview m

theorem stops_zero {rest : List Token} :
    Stops 0 rest ↔ rest.head? ≠ some (op "(") ∧ rest.head? ≠ some (op "[") ∧ rest.head? ≠ some (op ".") := by
  simp only [Stops, Nat.le_zero, forall_eq, continues_zero, List.mem_cons, List.not_mem_nil, or_false, not_or]
  constructor
  · exact fun h ↦ ⟨fun hrest ↦ (h _ hrest).1 rfl, fun hrest ↦ (h _ hrest).2.1 rfl, fun hrest ↦ (h _ hrest).2.2 rfl⟩
  · rintro ⟨hcall, hsubscript, hmember⟩ t ht
    exact ⟨fun h ↦ hcall (h ▸ ht), fun h ↦ hsubscript (h ▸ ht), fun h ↦ hmember (h ▸ ht)⟩

theorem stops_one {rest : List Token} : Stops 1 rest ↔ Stops 0 rest :=
  stops_succ.trans (and_iff_left fun t _ ↦ not_continues_one t)

theorem stops_ternLevel {rest : List Token} : Stops ternLevel rest ↔ Stops (ternLevel - 1) rest ∧ rest.head? ≠ some (op "?") := by
  refine stops_succ.trans (and_congr_right fun _ ↦ ?_)
  constructor
  · exact fun h hrest ↦ h _ hrest (continues_ternLevel.mpr rfl)
  · exact fun h t ht hcontinues ↦ h (continues_ternLevel.mp hcontinues ▸ ht)

/-- What a prefix operator starts with. -/
def prefixes : List Token := [op "-", op "!", op "~", keyword "make"]

section

variable {Ty Body : Type}

def level : Expr Ty Body → ℕ
  | .binary _ oper _ => binLevel oper
  | .unary _ _ | .make _ _ => 1
  | .ternary _ _ _ => ternLevel
  | _ => 0

theorem level_le (e : Expr Ty Body) : level e ≤ ternLevel := by
  cases e with
  | binary lhs oper rhs => exact (binLevel_bounds oper).2.le
  | ternary cond troo fols => exact le_rfl
  | unary oper expr => exact Nat.le_of_ble_eq_true rfl
  | make type expr => exact Nat.le_of_ble_eq_true rfl
  | _ => exact Nat.zero_le _

variable (types : Ty → List Token → Prop) (bodies : Body → List Token → Prop)

/-! ## Signatures -/

inductive PrintingParam : FuncParam Ty → List Token → Prop
  | val {name type text} : types type text →
      PrintingParam ⟨name, .val, type⟩ (⟨.identifier, name⟩ :: op ":" :: text)
  | ref {name type text} : types type text →
      PrintingParam ⟨name, .ref, type⟩ (⟨.identifier, name⟩ :: op ":" :: keyword "ref" :: text)

/-- The texts of one or more parameters, with the bracket behind them. -/
inductive PrintingParams : List (FuncParam Ty) → List Token → Prop
  | last {param text} : PrintingParam types param text → PrintingParams [param] (text ++ [op ")"])
  | next {param params t u} : PrintingParam types param t → PrintingParams params u →
      PrintingParams (param :: params) (t ++ op "," :: u)

inductive PrintingSig : List (FuncParam Ty) → List Token → Prop
  | nil : PrintingSig [] [op "(", op ")"]
  | params {params text} : PrintingParams types params text → PrintingSig params (op "(" :: text)

inductive PrintingRet : Option Ty → List Token → Prop
  | none : PrintingRet none []
  | some {type text} : types type text → PrintingRet (some type) (op "->" :: text)

/-! ## Expressions -/

mutual

/-- The texts of an expression where an expression of the level may stand. -/
inductive Printing : ℕ → Expr Ty Body → List Token → Prop
  | paren {n e text} : Printing ternLevel e text → Printing n e (op "(" :: (text ++ [op ")"]))
  | ident {n name} : Printing n (.ident name) [⟨.identifier, name⟩]
  | string {n view} : Printing n (.string (trim view)) [⟨.string, view⟩]
  | char {n view} : Printing n (.char (trim view)) [⟨.character, view⟩]
  | number {n literal} : Printing n (.number literal) [⟨.number, literal⟩]
  | troo {n} : Printing n (.bool true) [keyword "true"]
  | fols {n} : Printing n (.bool false) [keyword "false"]
  | array {n exprs text} : PrintingList "]" exprs text → Printing n (.array exprs) (op "[" :: text)
  | initList {n exprs text} : PrintingList "\x7d" exprs text → Printing n (.initList exprs) (op "\x7b" :: text)
  | lambda {n params ret body t u v} : PrintingSig types params t → PrintingRet types ret u → bodies body v →
      Printing n (.lambda params ret body) (keyword "func" :: (t ++ (u ++ v)))
  | call {n func args t u} : Printing 0 func t → PrintingList ")" args u → Printing n (.call func args) (t ++ op "(" :: u)
  | subscript {n object index t u} : Printing 0 object t → Printing ternLevel index u →
      Printing n (.subscript object index) (t ++ op "[" :: (u ++ [op "]"]))
  | member {n object name t} : Printing 0 object t →
      Printing n (.member object name) (t ++ [op ".", ⟨.identifier, name⟩])
  | unary {n oper e text} : 1 ≤ n → Printing 1 e text → Printing n (.unary oper e) (op (unText oper) :: text)
  | make {n type e t u} : 1 ≤ n → types type t → Printing 1 e u →
      Printing n (.make type e) (keyword "make" :: (t ++ u))
  | binary {n lhs oper rhs t u} : binLevel oper ≤ n → Printing (binLevel oper) lhs t →
      Printing (binLevel oper - 1) rhs u → Printing n (.binary lhs oper rhs) (t ++ op (binText oper) :: u)
  | ternary {n cond troo fols t u v} : ternLevel ≤ n → Printing (ternLevel - 1) cond t → Printing ternLevel troo u →
      Printing ternLevel fols v → Printing n (.ternary cond troo fols) (t ++ op "?" :: (u ++ op ":" :: v))

/-- The texts of a list, with the bracket behind it. -/
inductive PrintingList : String → List (Expr Ty Body) → List Token → Prop
  | nil {end_} : PrintingList end_ [] [op end_]
  | exprs {end_ exprs text} : PrintingExprs end_ exprs text → PrintingList end_ exprs text

/-- The texts of one or more expressions, with the bracket behind them. -/
inductive PrintingExprs : String → List (Expr Ty Body) → List Token → Prop
  | last {end_ e text} : Printing ternLevel e text → PrintingExprs end_ [e] (text ++ [op end_])
  | next {end_ e exprs t u} : Printing ternLevel e t → PrintingExprs end_ exprs u →
      PrintingExprs end_ (e :: exprs) (t ++ op "," :: u)

end

/-- The tokens that an expression of the level starts with are among these. -/
def Starts (n : ℕ) (t : Token) : Prop :=
  (t.type = .oper → t.view ∈ ["(", "[", "\x7b", "-", "!", "~"]) ∧
    (n = 0 → t ∉ prefixes)

variable {types bodies}

theorem Printing.mono {m n : ℕ} {e : Expr Ty Body} {text : List Token} (h : Printing types bodies m e text)
    (hm : m ≤ n) : Printing types bodies n e text := by
  cases h with
  | paren h => exact .paren h
  | ident => exact .ident
  | string => exact .string
  | char => exact .char
  | number => exact .number
  | troo => exact .troo
  | fols => exact .fols
  | array h => exact .array h
  | initList h => exact .initList h
  | lambda hsig hret hbody => exact .lambda hsig hret hbody
  | call hfunc hargs => exact .call hfunc hargs
  | subscript hobject hindex => exact .subscript hobject hindex
  | member hobject => exact .member hobject
  | unary hn h => exact .unary (hn.trans hm) h
  | make hn htype h => exact .make (hn.trans hm) htype h
  | binary hn hlhs hrhs => exact .binary (hn.trans hm) hlhs hrhs
  | ternary hn hcond htroo hfols => exact .ternary (hn.trans hm) hcond htroo hfols

/-- The recursion follows the left operands. -/
theorem Printing.starts {n : ℕ} {e : Expr Ty Body} {text : List Token} :
    Printing types bodies n e text → ∃ t ts, text = t :: ts ∧ Starts n t
  | .paren _ => ⟨_, _, rfl, by simp [Starts, prefixes, op, keyword]⟩
  | .ident | .string | .char | .number => ⟨_, _, rfl, by simp [Starts, prefixes, op, keyword]⟩
  | .troo | .fols => ⟨_, _, rfl, by simp [Starts, prefixes, op, keyword]⟩
  | .array _ | .initList _ => ⟨_, _, rfl, by simp [Starts, prefixes, op, keyword]⟩
  | .lambda _ _ _ => ⟨_, _, rfl, by simp [Starts, prefixes, op, keyword]⟩
  | .call hobject _ | .subscript hobject _ | .member hobject => by
    obtain ⟨t, ts, rfl, ht⟩ := hobject.starts
    exact ⟨t, _, rfl, ht.1, fun _ ↦ ht.2 rfl⟩
  | .unary hn _ => ⟨_, _, rfl, fun _ ↦ List.mem_append_right ["(", "[", "\x7b"] (unText_mem _), fun hzero ↦ by omega⟩
  | .make hn _ _ => ⟨_, _, rfl, by simp [keyword], fun hzero ↦ by omega⟩
  | .binary hn hlhs _ => by
    obtain ⟨t, ts, rfl, ht⟩ := hlhs.starts
    have hbound := (binLevel_bounds _).1.trans hn
    exact ⟨t, _, rfl, ht.1, fun hzero ↦ by omega⟩
  | .ternary hn hcond _ _ => by
    obtain ⟨t, ts, rfl, ht⟩ := hcond.starts
    exact ⟨t, _, rfl, ht.1, fun hzero ↦ by cases hn.trans_eq hzero⟩

theorem PrintingParams.starts {params : List (FuncParam Ty)} {text : List Token} (h : PrintingParams types params text) :
    ∃ name ts, text = ⟨.identifier, name⟩ :: ts := by
  cases h with
  | last h | next h _ => cases h <;> exact ⟨_, _, rfl⟩

theorem PrintingExprs.exists_cons {end_ : String} {exprs : List (Expr Ty Body)} {text : List Token}
    (h : PrintingExprs types bodies end_ exprs text) : ∃ e more, exprs = e :: more := by
  cases h <;> exact ⟨_, _, rfl⟩

/-! ## The bodies in a text -/

/-- What is a body for the first is a body for the second, up to the length. -/
def BodiesUpTo (k : ℕ) (bodies bodies' : Body → List Token → Prop) : Prop :=
  ∀ ⦃body text⦄, text.length ≤ k → bodies body text → bodies' body text

variable {bodies' : Body → List Token → Prop} {k : ℕ}

mutual

theorem Printing.map_bodies (h : BodiesUpTo k bodies bodies') {n : ℕ} {e : Expr Ty Body} {text : List Token} :
    Printing types bodies n e text → text.length ≤ k → Printing types bodies' n e text
  | .paren he, hk => .paren (he.map_bodies h (by
      rw [List.length_cons, List.length_append] at hk
      omega))
  | .ident, _ => .ident
  | .string, _ => .string
  | .char, _ => .char
  | .number, _ => .number
  | .troo, _ => .troo
  | .fols, _ => .fols
  | .array hexprs, hk => .array (hexprs.map_bodies h (Nat.le_of_succ_le hk))
  | .initList hexprs, hk => .initList (hexprs.map_bodies h (Nat.le_of_succ_le hk))
  | .lambda hsig hret hbody, hk => .lambda hsig hret (h (by
      simp only [List.length_cons, List.length_append] at hk
      omega) hbody)
  | .call hfunc hargs, hk => by
    rw [List.length_append, List.length_cons] at hk
    exact .call (hfunc.map_bodies h (by omega)) (hargs.map_bodies h (by omega))
  | .subscript hobject hindex, hk => by
    simp only [List.length_append, List.length_cons] at hk
    exact .subscript (hobject.map_bodies h (by omega)) (hindex.map_bodies h (by omega))
  | .member hobject, hk => by
    rw [List.length_append] at hk
    exact .member (hobject.map_bodies h (by omega))
  | .unary hn he, hk => .unary hn (he.map_bodies h (Nat.le_of_succ_le hk))
  | .make hn htype he, hk => .make hn htype (he.map_bodies h (by
      rw [List.length_cons, List.length_append] at hk
      omega))
  | .binary hn hlhs hrhs, hk => by
    rw [List.length_append, List.length_cons] at hk
    exact .binary hn (hlhs.map_bodies h (by omega)) (hrhs.map_bodies h (by omega))
  | .ternary hn hcond htroo hfols, hk => by
    simp only [List.length_append, List.length_cons] at hk
    exact .ternary hn (hcond.map_bodies h (by omega)) (htroo.map_bodies h (by omega)) (hfols.map_bodies h (by omega))

theorem PrintingList.map_bodies (h : BodiesUpTo k bodies bodies') {end_ : String} {exprs : List (Expr Ty Body)}
    {text : List Token} :
    PrintingList types bodies end_ exprs text → text.length ≤ k → PrintingList types bodies' end_ exprs text
  | .nil, _ => .nil
  | .exprs hexprs, hk => .exprs (hexprs.map_bodies h hk)

theorem PrintingExprs.map_bodies (h : BodiesUpTo k bodies bodies') {end_ : String} {exprs : List (Expr Ty Body)}
    {text : List Token} :
    PrintingExprs types bodies end_ exprs text → text.length ≤ k → PrintingExprs types bodies' end_ exprs text
  | .last he, hk => .last (he.map_bodies h (by
      rw [List.length_append] at hk
      omega))
  | .next he hexprs, hk => by
    rw [List.length_append, List.length_cons] at hk
    exact .next (he.map_bodies h (by omega)) (hexprs.map_bodies h (by omega))

end

end

end Stela.Syntax.ParseExpr
