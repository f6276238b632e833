import Stela.Syntax.ExprGrammar

/-!
# Printing expressions

`print` puts brackets only where the precedence table asks for them. What it prints is a text of the expression, and
no text has fewer tokens.
-/

namespace Stela.Syntax.ParseExpr

/-! ## The text with the fewest brackets -/

section

variable {Ty Body : Type} (printType : Ty → List Token) (printBody : Body → List Token)

/-- The text of an expression of the first level where one of the second may stand. -/
def wrap (m n : ℕ) (text : List Token) : List Token := if m ≤ n then text else op "(" :: (text ++ [op ")"])

def printParam : FuncParam Ty → List Token
  | ⟨name, .val, type⟩ => ⟨.identifier, name⟩ :: op ":" :: printType type
  | ⟨name, .ref, type⟩ => ⟨.identifier, name⟩ :: op ":" :: keyword "ref" :: printType type

def printParams : List (FuncParam Ty) → List Token
  | [] => [op ")"]
  | [param] => printParam printType param ++ [op ")"]
  | param :: params => printParam printType param ++ op "," :: printParams params

def printRet : Option Ty → List Token
  | none => []
  | some type => op "->" :: printType type

/-- The view that is trimmed to the literal. -/
def quoted (quote : Char) (literal : String) : String := String.ofList (quote :: (literal.toList ++ [quote]))

mutual

/-- The text without brackets around the whole. -/
def bare : Expr Ty Body → List Token
  | .binary lhs oper rhs =>
      wrap (level lhs) (binLevel oper) (bare lhs) ++
        op (binText oper) :: wrap (level rhs) (binLevel oper - 1) (bare rhs)
  | .unary oper expr => op (unText oper) :: wrap (level expr) 1 (bare expr)
  | .call func args => wrap (level func) 0 (bare func) ++ op "(" :: printList ")" args
  | .member object name => wrap (level object) 0 (bare object) ++ [op ".", ⟨.identifier, name⟩]
  | .subscript object index => wrap (level object) 0 (bare object) ++ op "[" :: (bare index ++ [op "]"])
  | .ident name => [⟨.identifier, name⟩]
  | .ternary cond troo fols =>
      wrap (level cond) (ternLevel - 1) (bare cond) ++ op "?" :: (bare troo ++ op ":" :: bare fols)
  | .make type expr => keyword "make" :: (printType type ++ wrap (level expr) 1 (bare expr))
  | .string literal => [⟨.string, quoted '"' literal⟩]
  | .char literal => [⟨.character, quoted '\'' literal⟩]
  | .number literal => [⟨.number, literal⟩]
  | .bool value => [keyword (if value then "true" else "false")]
  | .array exprs => op "[" :: printList "]" exprs
  | .initList exprs => op "\x7b" :: printList "\x7d" exprs
  | .lambda params ret body =>
      keyword "func" :: (op "(" :: printParams printType params ++ (printRet printType ret ++ printBody body))

def printList (end_ : String) : List (Expr Ty Body) → List Token
  | [] => [op end_]
  | expr :: exprs => bare expr ++ printMore end_ exprs

/-- The text behind an expression of a list. -/
def printMore (end_ : String) : List (Expr Ty Body) → List Token
  | [] => [op end_]
  | expr :: exprs => op "," :: (bare expr ++ printMore end_ exprs)

end

/-- Every expression may stand where `parseExpr` is called. -/
def print (e : Expr Ty Body) : List Token := bare printType printBody e

end

/-! ## The text is one of the texts -/

section

variable {Ty Body : Type} {types : Ty → List Token → Prop} {bodies : Body → List Token → Prop}
  {printType : Ty → List Token} {printBody : Body → List Token}

theorem trim_quoted (quote : Char) (literal : String) : trim (quoted quote literal) = literal := by
  rw [trim, quoted, String.toList_ofList, List.drop_one, List.tail_cons, List.dropLast_concat, String.ofList_toList]

theorem Printing.wrap {n : ℕ} {e : Expr Ty Body} {text : List Token} (h : Printing types bodies (level e) e text) :
    Printing types bodies n e (wrap (level e) n text) := by
  rw [ParseExpr.wrap]
  split
  · exact h.mono ‹_›
  · exact .paren (h.mono (level_le e))

theorem printing_printParam (htypes : ∀ type, types type (printType type)) (param : FuncParam Ty) :
    PrintingParam types param (printParam printType param) := by
  obtain ⟨name, byRef, type⟩ := param
  cases byRef with
  | val => exact .val (htypes type)
  | ref => exact .ref (htypes type)

theorem printing_printParams (htypes : ∀ type, types type (printType type)) (param : FuncParam Ty)
    (params : List (FuncParam Ty)) :
    PrintingParams types (param :: params) (printParams printType (param :: params)) := by
  induction params generalizing param with
  | nil => exact .last (printing_printParam htypes param)
  | cons next params ih => exact .next (printing_printParam htypes param) (ih next)

theorem printing_printSig (htypes : ∀ type, types type (printType type)) (params : List (FuncParam Ty)) :
    PrintingSig types params (op "(" :: printParams printType params) := by
  cases params with
  | nil => exact .nil
  | cons param params => exact .params (printing_printParams htypes param params)

theorem printing_printRet (htypes : ∀ type, types type (printType type)) (ret : Option Ty) :
    PrintingRet types ret (printRet printType ret) := by
  cases ret with
  | none => exact .none
  | some type => exact .some (htypes type)

mutual

theorem printing_bare (htypes : ∀ type, types type (printType type)) (hbodies : ∀ body, bodies body (printBody body)) :
    (e : Expr Ty Body) → Printing types bodies (level e) e (bare printType printBody e)
  | .binary lhs _ rhs =>
      .binary le_rfl (printing_bare htypes hbodies lhs).wrap (printing_bare htypes hbodies rhs).wrap
  | .unary _ expr => .unary le_rfl (printing_bare htypes hbodies expr).wrap
  | .call func args =>
      .call (printing_bare htypes hbodies func).wrap (printing_printList htypes hbodies ")" args)
  | .member object _ => .member (printing_bare htypes hbodies object).wrap
  | .subscript object index =>
      .subscript (printing_bare htypes hbodies object).wrap ((printing_bare htypes hbodies index).mono (level_le index))
  | .ident _ => .ident
  | .ternary cond troo fols =>
      .ternary le_rfl (printing_bare htypes hbodies cond).wrap
        ((printing_bare htypes hbodies troo).mono (level_le troo))
        ((printing_bare htypes hbodies fols).mono (level_le fols))
  | .make type expr => .make le_rfl (htypes type) (printing_bare htypes hbodies expr).wrap
  | .string literal => by
    have h : Printing types bodies 0 (.string (trim (quoted '"' literal))) [⟨.string, quoted '"' literal⟩] := .string
    rwa [trim_quoted] at h
  | .char literal => by
    have h : Printing types bodies 0 (.char (trim (quoted '\'' literal))) [⟨.character, quoted '\'' literal⟩] := .char
    rwa [trim_quoted] at h
  | .number _ => .number
  | .bool true => .troo
  | .bool false => .fols
  | .array exprs => .array (printing_printList htypes hbodies "]" exprs)
  | .initList exprs => .initList (printing_printList htypes hbodies "\x7d" exprs)
  | .lambda params ret body =>
      .lambda (printing_printSig htypes params) (printing_printRet htypes ret) (hbodies body)

theorem printing_printList (htypes : ∀ type, types type (printType type))
    (hbodies : ∀ body, bodies body (printBody body)) (end_ : String) :
    (exprs : List (Expr Ty Body)) → PrintingList types bodies end_ exprs (printList printType printBody end_ exprs)
  | [] => .nil
  | expr :: exprs => .exprs (printing_printMore htypes hbodies end_ (printing_bare htypes hbodies expr) exprs)

theorem printing_printMore (htypes : ∀ type, types type (printType type))
    (hbodies : ∀ body, bodies body (printBody body)) (end_ : String) {e : Expr Ty Body} {text : List Token}
    (h : Printing types bodies (level e) e text) : (exprs : List (Expr Ty Body)) →
    PrintingExprs types bodies end_ (e :: exprs) (text ++ printMore printType printBody end_ exprs)
  | [] => .last (h.mono (level_le e))
  | next :: exprs =>
      .next (h.mono (level_le e)) (printing_printMore htypes hbodies end_ (printing_bare htypes hbodies next) exprs)

end

theorem printing_print (htypes : ∀ type, types type (printType type))
    (hbodies : ∀ body, bodies body (printBody body)) (e : Expr Ty Body) :
    Printing types bodies ternLevel e (print printType printBody e) :=
  (printing_bare htypes hbodies e).mono (level_le e)

/-! ## No text has fewer tokens -/

def Shortest {α : Type} (texts : α → List Token → Prop) (text : α → List Token) : Prop :=
  ∀ a t, texts a t → (text a).length ≤ t.length

theorem wrap_of_le {m n : ℕ} (h : m ≤ n) (text : List Token) : wrap m n text = text := if_pos h

theorem wrap_length_le (m n : ℕ) (text : List Token) : (wrap m n text).length ≤ text.length + 2 := by
  unfold wrap
  split <;> simp

theorem shortest_printParam (htypes : Shortest types printType) :
    Shortest (PrintingParam types) (printParam printType) := by
  intro param text h
  cases h with
  | val h => exact Nat.add_le_add_right (htypes _ _ h) 2
  | ref h => exact Nat.add_le_add_right (htypes _ _ h) 3

theorem shortest_printParams (htypes : Shortest types printType) :
    Shortest (PrintingParams types) (printParams printType) := by
  intro params text h
  induction h with
  | last h =>
    have hparam := shortest_printParam htypes _ _ h
    simpa [printParams] using hparam
  | next h hmore ih =>
    have hparam := shortest_printParam htypes _ _ h
    cases hmore <;> simp only [printParams, List.length_append, List.length_cons] at ih ⊢ <;> omega

theorem shortest_printSig (htypes : Shortest types printType) :
    Shortest (PrintingSig types) fun params ↦ op "(" :: printParams printType params := by
  intro params text h
  cases h with
  | nil => exact le_rfl
  | params h => exact Nat.succ_le_succ (shortest_printParams htypes _ _ h)

theorem shortest_printRet (htypes : Shortest types printType) :
    Shortest (PrintingRet types) (printRet printType) := by
  intro ret text h
  cases h with
  | none => exact le_rfl
  | some h => exact Nat.succ_le_succ (htypes _ _ h)

mutual

theorem Printing.length_le (htypes : Shortest types printType) (hbodies : Shortest bodies printBody) {n : ℕ}
    {e : Expr Ty Body} {text : List Token} :
    Printing types bodies n e text → (wrap (level e) n (bare printType printBody e)).length ≤ text.length
  | .paren h => by
    have hinner := h.length_le htypes hbodies
    rw [wrap_of_le (level_le _)] at hinner
    calc
      _ ≤ _ := wrap_length_le _ n _
      _ ≤ _ := by
        simp only [List.length_cons, List.length_append, List.length_nil]
        omega
  | .ident | .string | .char | .number | .troo | .fols => by simp [wrap_of_le, level, bare]
  | .array h | .initList h => by
    have hexprs := h.length_le htypes hbodies
    simpa [wrap_of_le, level, bare] using hexprs
  | .lambda hsig hret hbody => by
    have hsig := shortest_printSig htypes _ _ hsig
    have hret := shortest_printRet htypes _ _ hret
    have hbody := hbodies _ _ hbody
    simp only [wrap_of_le, Nat.zero_le, level, bare, List.length_append, List.length_cons] at hsig ⊢
    omega
  | .call hfunc hargs => by
    have hfunc := hfunc.length_le htypes hbodies
    have hargs := hargs.length_le htypes hbodies
    simp only [wrap_of_le, Nat.zero_le, level, bare, List.length_append, List.length_cons] at hfunc ⊢
    omega
  | .subscript hobject hindex => by
    have hobject := hobject.length_le htypes hbodies
    have hindex := hindex.length_le htypes hbodies
    rw [wrap_of_le (level_le _)] at hindex
    simp only [wrap_of_le, Nat.zero_le, level, bare, List.length_append, List.length_cons, List.length_nil] at hobject ⊢
    omega
  | .member hobject => by
    have hobject := hobject.length_le htypes hbodies
    simpa [wrap_of_le, level, bare] using hobject
  | .unary hn h => by
    have hexpr := h.length_le htypes hbodies
    simpa [wrap_of_le, hn, level, bare] using hexpr
  | .make hn htype h => by
    have htype := htypes _ _ htype
    have hexpr := h.length_le htypes hbodies
    simp only [wrap_of_le, hn, level, bare, List.length_append, List.length_cons] at hexpr ⊢
    omega
  | .binary hn hlhs hrhs => by
    have hlhs := hlhs.length_le htypes hbodies
    have hrhs := hrhs.length_le htypes hbodies
    simp only [wrap_of_le, hn, level, bare, List.length_append, List.length_cons] at hlhs hrhs ⊢
    omega
  | .ternary hn hcond htroo hfols => by
    have hcond := hcond.length_le htypes hbodies
    have htroo := htroo.length_le htypes hbodies
    have hfols := hfols.length_le htypes hbodies
    rw [wrap_of_le (level_le _)] at htroo hfols
    simp only [wrap_of_le, hn, level, bare, List.length_append, List.length_cons] at hcond ⊢
    omega

theorem PrintingList.length_le (htypes : Shortest types printType) (hbodies : Shortest bodies printBody)
    {end_ : String} {exprs : List (Expr Ty Body)} {text : List Token} :
    PrintingList types bodies end_ exprs text → (printList printType printBody end_ exprs).length ≤ text.length
  | .nil => by simp [printList]
  | .exprs h => h.length_le htypes hbodies

theorem PrintingExprs.length_le (htypes : Shortest types printType) (hbodies : Shortest bodies printBody)
    {end_ : String} {exprs : List (Expr Ty Body)} {text : List Token} :
    PrintingExprs types bodies end_ exprs text → (printList printType printBody end_ exprs).length ≤ text.length
  | .last h => by
    have hexpr := h.length_le htypes hbodies
    rw [wrap_of_le (level_le _)] at hexpr
    simpa [printList, printMore] using hexpr
  | .next h hmore => by
    have hexpr := h.length_le htypes hbodies
    have hexprs := hmore.length_le htypes hbodies
    rw [wrap_of_le (level_le _)] at hexpr
    obtain ⟨next, more, rfl⟩ := hmore.exists_cons
    simp only [printList, printMore, List.length_append, List.length_cons] at hexprs ⊢
    omega

end

theorem shortest_print (htypes : Shortest types printType) (hbodies : Shortest bodies printBody) :
    Shortest (Printing types bodies ternLevel) (print printType printBody) := by
  intro e text h
  have hlength := h.length_le htypes hbodies
  rwa [wrap_of_le (level_le e)] at hlength

end

end Stela.Syntax.ParseExpr
