import Stela.Syntax.ParseReads

/-!
# What the parser accepts is in the grammar

The functions of the precedence levels are numbered by their levels. What is read at a level is a text of the node at
this level, and the token behind it does not go on with it. The parser of expressions calls itself on shorter texts, so
the proof is by induction on the length.
-/

namespace Stela.Syntax.ParseExpr

open Library.Parser ParseTokens

/-! ## Levels -/

def levelOpers : ℕ → List (String × BinOp)
  | 2 => [("*", .mul), ("/", .div), ("%", .mod)]
  | 3 => [("+", .add), ("-", .sub)]
  | 4 => [("<<", .bit_shl), (">>", .bit_shr)]
  | 5 => [("&", .bit_and)]
  | 6 => [("^", .bit_xor)]
  | 7 => [("|", .bit_or)]
  | 8 => [("<", .lt), ("<=", .le), (">", .gt), (">=", .ge)]
  | 9 => [("==", .eq), ("!=", .ne)]
  | 10 => [("&&", .bool_and)]
  | 11 => [("||", .bool_or)]
  | _ => []

theorem mem_levelOpers {n : ℕ} {view : String} {oper : BinOp} :
    (view, oper) ∈ levelOpers n ↔ binLevel oper = n ∧ view = binText oper := by
  constructor
  · have hall : ∀ p ∈ levelOpers n, binLevel p.2 = n ∧ p.1 = binText p.2 := by
      unfold levelOpers
      split <;> simp [binLevel, binText]
    exact hall (view, oper)
  · rintro ⟨rfl, rfl⟩
    cases oper <;> simp [levelOpers, binLevel, binText]

section

variable {Ty Body : Type} (outer : Outer Ty Body) (parseExpr : ParseTokens (Option (Expr Ty Body)))

/-- The function of a level. -/
def parseLevel : ℕ → ParseTokens (Option (Expr Ty Body))
  | 0 => parseNested outer parseExpr
  | 1 => parseUnary outer parseExpr
  | n + 2 => parseLeft (levelOpers (n + 2)) (parseLevel (n + 1))

theorem parseBoolOr_eq : parseBoolOr (parseUnary outer parseExpr) = parseLevel outer parseExpr (ternLevel - 1) := rfl

end

/-! ## Types and bodies -/

/-- Every type and every body is read from its texts and from nothing else. A type without a return type is not
followed by an arrow. -/
structure Outer.Conforms {Ty Body : Type} (outer : Outer Ty Body) (types : Ty → List Token → Prop)
    (bodies : Body → List Token → Prop) : Prop where
  type_sound : ∀ {type text rest}, outer.parseType.Yields text (some type) rest → types type text
  type_complete : ∀ {type text rest}, types type text → rest.head? ≠ some (op "->") →
    outer.parseType.Yields text (some type) rest
  type_starts : ∀ {type text}, types type text → ∃ t ts, text = t :: ts ∧ t ≠ keyword "ref"
  body_sound : ∀ {body text rest}, outer.parseFuncBody.Yields text body rest → bodies body text
  body_complete : ∀ {body text rest}, bodies body text → outer.parseFuncBody.Yields text body rest
  body_starts : ∀ {body text}, bodies body text → ∃ ts, text = op "\x7b" :: ts

/-! ## Soundness -/

section

variable {Ty Body : Type} {outer : Outer Ty Body} {types : Ty → List Token → Prop} {bodies : Body → List Token → Prop}
  {parse parseExpr : ParseTokens (Option (Expr Ty Body))} {k n : ℕ} {text rest : List Token}

/-- What is read of fewer tokens than the bound is a text of the level, and what is behind it does not go on with it. -/
def SoundBelow (types : Ty → List Token → Prop) (bodies : Body → List Token → Prop)
    (parse : ParseTokens (Option (Expr Ty Body))) (k n : ℕ) : Prop :=
  ∀ ⦃text e rest⦄, text.length < k → parse.Yields text (some e) rest → Printing types bodies n e text ∧ Stops n rest

theorem printing_of_delimited {close : String} {exprs : List (Expr Ty Body)}
    (h : SoundBelow types bodies parseExpr k ternLevel)
    (hexprs : Delimited (expectExpr parseExpr) close rest exprs text) (hk : text.length < k) :
    PrintingExprs types bodies close exprs text := by
  induction hexprs with
  | last hexpr =>
    rw [List.length_append] at hk
    exact .last (h (by omega) (yields_expectExpr.mp hexpr)).1
  | next hexpr _ ih =>
    rw [List.length_append, List.length_cons] at hk
    exact .next (h (by omega) (yields_expectExpr.mp hexpr)).1 (ih (by omega))

theorem printing_of_parseExprList {end_ : String} (hend : end_ ≠ ",") {exprs : List (Expr Ty Body)}
    (h : SoundBelow types bodies parseExpr k ternLevel) (hexprs : (parseExprList parseExpr end_).Yields text exprs rest)
    (hk : text.length < k) : PrintingList types bodies end_ exprs text := by
  rcases (yields_parseExprList hend).mp hexprs with ⟨rfl, rfl⟩ | ⟨-, hexprs⟩
  · exact .nil
  · exact .exprs (printing_of_delimited h hexprs hk)

theorem printing_of_parseParam (ho : outer.Conforms types bodies) {param : FuncParam Ty}
    (h : (parseParam outer).Yields text param rest) : PrintingParam types param text := by
  obtain ⟨t, u, rfl, href, htype⟩ := yields_parseParam.mp h
  obtain ⟨name, byRef, type⟩ := param
  rcases yields_parseRef.mp href with ⟨rfl, hbyRef⟩ | ⟨rfl, hbyRef, -⟩ <;> cases hbyRef
  · exact .ref (ho.type_sound htype)
  · exact .val (ho.type_sound htype)

theorem printing_of_parseFuncParams (ho : outer.Conforms types bodies) {params : List (FuncParam Ty)}
    (h : (parseFuncParams outer).Yields text params rest) : PrintingSig types params text := by
  obtain ⟨u, rfl, ⟨rfl, rfl⟩ | ⟨-, hparams⟩⟩ := yields_parseFuncParams.mp h
  · exact .nil
  · refine .params ?_
    clear h
    induction hparams with
    | last hparam => exact .last (printing_of_parseParam ho hparam)
    | next hparam _ ih => exact .next (printing_of_parseParam ho hparam) ih

theorem printing_of_parseFuncRet (ho : outer.Conforms types bodies) {ret : Option Ty}
    (h : (parseFuncRet outer).Yields text ret rest) : PrintingRet types ret text := by
  rcases yields_parseFuncRet.mp h with ⟨u, type, rfl, htype, rfl⟩ | ⟨rfl, rfl, -⟩
  · exact .some (ho.type_sound htype)
  · exact .none

theorem printing_of_term (ho : outer.Conforms types bodies) (h : SoundBelow types bodies parseExpr k ternLevel)
    {e : Expr Ty Body} (hterm : Term outer parseExpr rest e text) (hk : text.length < k + 1) :
    Printing types bodies 0 e text := by
  cases hterm with
  | paren hexpr =>
    rw [List.length_cons, List.length_append] at hk
    exact .paren (h (by omega) hexpr).1
  | ident => exact .ident
  | string => exact .string
  | char => exact .char
  | number => exact .number
  | troo => exact .troo
  | fols => exact .fols
  | array hexprs => exact .array (printing_of_parseExprList (by decide) h hexprs (Nat.lt_of_succ_lt_succ hk))
  | initList hexprs => exact .initList (printing_of_parseExprList (by decide) h hexprs (Nat.lt_of_succ_lt_succ hk))
  | lambda hparams hret hbody =>
    exact .lambda (printing_of_parseFuncParams ho hparams) (printing_of_parseFuncRet ho hret) (ho.body_sound hbody)

/-- The text before the loop is a part of the text of the node. -/
theorem sound_nestedLoop (h : SoundBelow types bodies parseExpr k ternLevel) {lhs e : Expr Ty Body} {before : List Token}
    (hloops : Loops (nestedStep parseExpr) rest lhs text e) (hlhs : Printing types bodies 0 lhs before)
    (hk : text.length < k + 1) : Printing types bodies 0 e (before ++ text) ∧ Stops 0 rest := by
  induction hloops generalizing before with
  | leave hleave =>
    obtain ⟨rfl, rfl, hstops⟩ := yields_nestedStep_leave.mp hleave
    rw [List.append_nil]
    exact ⟨hlhs, hstops⟩
  | @next lhs node t u e hnext _ ih =>
    rw [List.length_append] at hk
    rw [← List.append_assoc]
    refine ih ?_ (by omega)
    have ht : t.length < k + 1 := by omega
    cases yields_nestedStep_next.mp hnext with
    | call hargs => exact .call hlhs (printing_of_parseExprList (by decide) h hargs (Nat.lt_of_succ_lt_succ ht))
    | subscript hindex =>
      rw [List.length_cons, List.length_append] at ht
      exact .subscript hlhs (h (by omega) hindex).1
    | member => exact .member hlhs

theorem sound_parseNested (ho : outer.Conforms types bodies) (h : SoundBelow types bodies parseExpr k ternLevel) :
    SoundBelow types bodies (parseNested outer parseExpr) (k + 1) 0 := by
  intro text e rest hk hyields
  obtain ⟨t, u, lhs, rfl, hterm, hloops⟩ := yields_parseNested.mp hyields
  rw [List.length_append] at hk
  exact sound_nestedLoop h hloops (printing_of_term ho h hterm (by omega)) (by omega)

theorem sound_parseUnary (ho : outer.Conforms types bodies) (h : SoundBelow types bodies parseExpr k ternLevel) :
    SoundBelow types bodies (parseUnary outer parseExpr) (k + 1) 1 := by
  have hbelow (l : ℕ) (hl : l ≤ k + 1) : SoundBelow types bodies (parseUnary outer parseExpr) l 1 := by
    induction l with
    | zero =>
      intro text e rest hk
      cases hk
    | succ l ih =>
      intro text e rest hk hyields
      rw [parseUnary_eq] at hyields
      cases yields_unaryBody.mp hyields with
      | unary hexpr =>
        have hsound := ih (by omega) (Nat.lt_of_succ_lt_succ hk) hexpr
        exact ⟨.unary le_rfl hsound.1, hsound.2⟩
      | make htype hexpr =>
        rw [List.length_cons, List.length_append] at hk
        have hsound := ih (by omega) (by omega) hexpr
        exact ⟨.make le_rfl (ho.type_sound htype) hsound.1, hsound.2⟩
      | nested _ hnested =>
        have hsound := sound_parseNested ho h (by omega) hnested
        exact ⟨hsound.1.mono zero_le_one, stops_one.mpr hsound.2⟩
  exact hbelow (k + 1) le_rfl

theorem sound_binaryLoop (h : SoundBelow types bodies parse k (n + 1)) (hn : n + 2 < ternLevel) {lhs e : Expr Ty Body}
    {before : List Token} (hloops : Loops (binaryStep (levelOpers (n + 2)) parse) rest lhs text e)
    (hlhs : Printing types bodies (n + 2) lhs before) (hstops : Stops (n + 1) (text ++ rest)) (hk : text.length < k) :
    Printing types bodies (n + 2) e (before ++ text) ∧ Stops (n + 2) rest := by
  induction hloops generalizing before with
  | leave hleave =>
    obtain ⟨rfl, rfl, hhead⟩ := yields_binaryStep_leave.mp hleave
    rw [List.append_nil]
    refine ⟨hlhs, stops_succ.mpr ⟨hstops, fun t ht hcontinues ↦ ?_⟩⟩
    obtain ⟨oper, hlevel, rfl⟩ := (continues_binary (by omega) hn).mp hcontinues
    exact hhead _ oper (mem_levelOpers.mpr ⟨hlevel, rfl⟩) ht
  | @next lhs node t u e hnext _ ih =>
    obtain ⟨oper, v, rhs, hmem, rfl, hrhs, rfl⟩ :=
      (yields_binaryStep_next fun view oper hmem ↦ (mem_levelOpers.mp hmem).2).mp hnext
    have hlevel := (mem_levelOpers.mp hmem).1
    rw [List.length_append, List.length_cons] at hk
    have hsound := h (by omega) hrhs
    rw [← List.append_assoc]
    refine ih (.binary hlevel.le ?_ ?_) hsound.2 (by omega)
    · rw [hlevel]
      exact hlhs
    · rw [hlevel]
      exact hsound.1

theorem sound_parseLeft (h : SoundBelow types bodies parse k (n + 1)) (hn : n + 2 < ternLevel) :
    SoundBelow types bodies (parseLeft (levelOpers (n + 2)) parse) k (n + 2) := by
  intro text e rest hk hyields
  obtain ⟨t, u, lhs, rfl, hlhs, hloops⟩ := yields_parseLeft.mp hyields
  rw [List.length_append] at hk
  have hsound := h (by omega) hlhs
  exact sound_binaryLoop h hn hloops (hsound.1.mono (Nat.le_succ _)) hsound.2 (by omega)

theorem sound_parseLevel (ho : outer.Conforms types bodies) (h : SoundBelow types bodies parseExpr k ternLevel)
    (hn : n < ternLevel) : SoundBelow types bodies (parseLevel outer parseExpr n) (k + 1) n := by
  induction n using parseLevel.induct with
  | case1 => exact sound_parseNested ho h
  | case2 => exact sound_parseUnary ho h
  | case3 n ih => exact sound_parseLeft (ih (by omega)) hn

theorem sound_parseTern (ho : outer.Conforms types bodies) (h : SoundBelow types bodies parseExpr k ternLevel) :
    SoundBelow types bodies (parseTern outer parseExpr) (k + 1) ternLevel := by
  intro text e rest hk hyields
  have hlower := sound_parseLevel ho h (Nat.sub_lt (by decide) Nat.one_pos : ternLevel - 1 < ternLevel)
  rw [← parseBoolOr_eq] at hlower
  rcases yields_parseTern.mp hyields with ⟨hexpr, hhead⟩ | ⟨t, u, v, cond, troo, fols, rfl, hcond, htroo, hfols, rfl⟩
  · have hsound := hlower hk hexpr
    exact ⟨hsound.1.mono (Nat.sub_le _ _), stops_ternLevel.mpr ⟨hsound.2, hhead⟩⟩
  · simp only [List.length_append, List.length_cons] at hk
    have hsound := h (by omega) hfols
    exact ⟨.ternary le_rfl (hlower (by omega) hcond).1 (h (by omega) htroo).1 hsound.1, hsound.2⟩

theorem sound_parseExpr (ho : outer.Conforms types bodies) (k : ℕ) :
    SoundBelow types bodies (Syntax.parseExpr outer) k ternLevel := by
  induction k with
  | zero =>
    intro text e rest hk
    cases hk
  | succ k ih =>
    rw [parseExpr_eq]
    exact sound_parseTern ho ih

end

end Stela.Syntax.ParseExpr
