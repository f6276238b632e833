import Stela.Library.Parser
import Stela.Lex.LexicalAnalysis

/-!
# The cursor of the parser

The member functions of `ParseTokens`, with the tokens from the cursor on as the state. Where the source looks at
the token under the cursor without asking whether there is one, the failure is `pastEnd`. Positions, and the
contexts that the messages end with, are left out.
-/

namespace Stela.Syntax

open Library.Parser

structure Token where
  type : Lex.TokenType
  view : String
  deriving DecidableEq, Repr

inductive Failure
  | fatal (message : String)
  | pastEnd
  deriving DecidableEq, Repr, Inhabited

abbrev ParseTokens := Library.Parser Failure Token

/-- `operator<<` of a token type. -/
def typeName : Lex.TokenType → String
  | .keyword => "keyword"
  | .identifier => "identifier"
  | .number => "number"
  | .string => "string"
  | .character => "character"
  | .oper => "operator"

/-- `operator<<` of a token. -/
def Token.print (t : Token) : String := typeName t.type ++ " " ++ t.view

def op (view : String) : Token := ⟨.oper, view⟩

def keyword (view : String) : Token := ⟨.keyword, view⟩

namespace ParseTokens

variable {α β : Type}

def check (type : Lex.TokenType) (view : String) : ParseTokens Bool where
  run
    | [] => .ok (false, [])
    | t :: ts => if t = ⟨type, view⟩ then .ok (true, ts) else .ok (false, t :: ts)
  suffix {ts a rest} h := by
    cases ts with
    | nil =>
      cases h
      exact List.suffix_rfl
    | cons t ts =>
      dsimp only at h
      split at h
      · cases h
        exact List.suffix_cons t rest
      · cases h
        exact List.suffix_rfl

def checkKeyword (view : String) : ParseTokens Bool := check .keyword view

def checkOp (view : String) : ParseTokens Bool := check .oper view

/-- The three forms of `expect`, told by what the message says and by which token is expected. -/
def expectToken (what : String) (fits : Token → Bool) : ParseTokens String where
  run
    | [] => .error (.fatal "Unexpected end of input")
    | t :: ts => if fits t then .ok (t.view, ts) else .error (.fatal ("Expected " ++ what ++ " but found " ++ t.print))
  suffix {ts a rest} h := by
    cases ts with
    | nil => cases h
    | cons t ts =>
      dsimp only at h
      split at h
      · cases h
        exact List.suffix_cons t rest
      · cases h

def expect (type : Lex.TokenType) : ParseTokens String := expectToken (typeName type) fun t ↦ t.type = type

def expectView (type : Lex.TokenType) (view : String) : ParseTokens Unit :=
  (fun _ ↦ ()) <$> expectToken (typeName type ++ " " ++ view) fun t ↦ t = ⟨type, view⟩

def expectEither (type : Lex.TokenType) (a b : String) : ParseTokens String :=
  expectToken (typeName type ++ " " ++ a ++ " or " ++ b) fun t ↦ t.type = type ∧ (t.view = a ∨ t.view = b)

def expectID : ParseTokens String := expect .identifier

def expectOp (view : String) : ParseTokens Unit := expectView .oper view

def expectEitherOp (a b : String) : ParseTokens String := expectEither .oper a b

def peekType (type : Lex.TokenType) : ParseTokens Bool where
  run ts := .ok (ts.head?.any (·.type = type), ts)
  suffix h := by
    cases h
    exact List.suffix_rfl

def peekIdentType : ParseTokens Bool := peekType .identifier

/-- The position of the token under the cursor is taken. -/
def loc : ParseTokens Unit where
  run
    | [] => .error .pastEnd
    | t :: ts => .ok ((), t :: ts)
  suffix {ts a rest} h := by
    cases ts with
    | nil => cases h
    | cons t ts =>
      cases h
      exact List.suffix_rfl

/-- The message has the position of the token under the cursor. -/
def missingNode (msg : String) : ParseTokens α where
  run
    | [] => .error .pastEnd
    | _ :: _ => .error (.fatal ("Expected " ++ msg))
  suffix {ts a rest} h := by cases ts <;> cases h

def expectNode (parse : ParseTokens (Option α)) (msg : String) : ParseTokens α := do
  match ← parse with
  | some node => return node
  | none => missingNode msg

/-- The node of the first parser, or of the second when the first has none. -/
def orNode (p q : ParseTokens (Option α)) : ParseTokens (Option α) := do
  match ← p with
  | some node => return some node
  | none => q

/-- What goes on with the node of the parser, when there is one. -/
def thenNode (p : ParseTokens (Option α)) (f : α → ParseTokens (Option β)) : ParseTokens (Option β) := do
  match ← p with
  | some node => f node
  | none => return none

/-! ## What is read -/

variable {type : Lex.TokenType} {view v : String} {b : Bool} {text rest : List Token}

theorem yields_check : (check type view).Yields text b rest ↔
    text = [⟨type, view⟩] ∧ b = true ∨ text = [] ∧ b = false ∧ rest.head? ≠ some ⟨type, view⟩ := by
  constructor
  · intro h
    obtain ⟨us, hus⟩ : ∃ us, text ++ rest = us := ⟨_, rfl⟩
    have hrun : (check type view).run us = .ok (b, rest) := hus ▸ h
    cases us with
    | nil =>
      cases hrun
      exact .inr ⟨(List.append_eq_nil_iff.mp hus).1, rfl, by simp⟩
    | cons t us =>
      simp only [check] at hrun
      split at hrun
      · rename_i ht
        cases hrun
        exact .inl ⟨List.append_cancel_right (hus.trans (ht ▸ rfl)), rfl⟩
      · rename_i ht
        cases hrun
        exact .inr ⟨List.append_left_eq_self.mp hus, rfl, by simpa using ht⟩
  · rintro (⟨rfl, rfl⟩ | ⟨rfl, rfl, hhead⟩)
    · exact if_pos rfl
    · cases rest with
      | nil => rfl
      | cons t rest => exact if_neg (by simpa using hhead)

theorem yields_expectToken {what : String} {fits : Token → Bool} :
    (expectToken what fits).Yields text v rest ↔ ∃ t, fits t ∧ text = [t] ∧ t.view = v := by
  constructor
  · intro h
    obtain ⟨us, hus⟩ : ∃ us, text ++ rest = us := ⟨_, rfl⟩
    have hrun : (expectToken what fits).run us = .ok (v, rest) := hus ▸ h
    cases us with
    | nil => cases hrun
    | cons t us =>
      simp only [expectToken] at hrun
      split at hrun
      · cases hrun
        exact ⟨t, ‹_›, List.append_cancel_right (hus.trans rfl), rfl⟩
      · cases hrun
  · rintro ⟨t, ht, rfl, rfl⟩
    exact if_pos ht

theorem yields_expect : (expect type).Yields text v rest ↔ text = [⟨type, v⟩] := by
  rw [expect, yields_expectToken]
  constructor
  · rintro ⟨⟨type', view'⟩, htype, rfl, rfl⟩
    cases of_decide_eq_true htype
    rfl
  · rintro rfl
    exact ⟨_, decide_eq_true rfl, rfl, rfl⟩

theorem yields_expectView {u : Unit} : (expectView type view).Yields text u rest ↔ text = [⟨type, view⟩] := by
  rw [expectView, yields_map]
  simp only [yields_expectToken, and_true]
  constructor
  · rintro ⟨v, t, ht, rfl, -⟩
    rw [of_decide_eq_true ht]
  · rintro rfl
    exact ⟨view, _, decide_eq_true rfl, rfl, rfl⟩

theorem yields_expectEither {a b : String} : (expectEither type a b).Yields text v rest ↔
    text = [⟨type, v⟩] ∧ (v = a ∨ v = b) := by
  rw [expectEither, yields_expectToken]
  constructor
  · rintro ⟨⟨type', view'⟩, hfits, rfl, rfl⟩
    obtain ⟨rfl, hview⟩ := of_decide_eq_true hfits
    exact ⟨rfl, hview⟩
  · rintro ⟨rfl, hview⟩
    exact ⟨_, decide_eq_true ⟨rfl, hview⟩, rfl, rfl⟩

theorem yields_peekType : (peekType type).Yields text b rest ↔
    text = [] ∧ rest.head?.any (·.type = type) = b := by
  change Except.ok (_, text ++ rest) = Except.ok (b, rest) ↔ _
  rw [Except.ok.injEq, Prod.mk.injEq, List.append_left_eq_self]
  constructor
  · rintro ⟨h, rfl⟩
    exact ⟨rfl, h⟩
  · rintro ⟨rfl, h⟩
    exact ⟨h, rfl⟩

theorem yields_loc {u : Unit} : loc.Yields text u rest ↔ text = [] ∧ rest ≠ [] := by
  constructor
  · intro h
    obtain ⟨us, hus⟩ : ∃ us, text ++ rest = us := ⟨_, rfl⟩
    have hrun : loc.run us = .ok (u, rest) := hus ▸ h
    cases us with
    | nil => cases hrun
    | cons t us =>
      cases hrun
      exact ⟨List.append_left_eq_self.mp hus, List.cons_ne_nil t us⟩
  · rintro ⟨rfl, hne⟩
    obtain ⟨t, ts, rfl⟩ := List.exists_cons_of_ne_nil hne
    rfl

theorem yields_expectNode {parse : ParseTokens (Option α)} {msg : String} {a : α} :
    (expectNode parse msg).Yields text a rest ↔ parse.Yields text (some a) rest := by
  rw [expectNode, yields_bind]
  constructor
  · rintro ⟨t, u, node, rfl, hparse, hnode⟩
    cases node with
    | none =>
      have hrun : (missingNode msg : ParseTokens α).run (u ++ rest) = .ok (a, rest) := hnode
      cases hus : u ++ rest <;> rw [hus] at hrun <;> cases hrun
    | some node =>
      obtain ⟨rfl, rfl⟩ := yields_pure.mp hnode
      rwa [List.append_nil]
  · intro h
    exact ⟨text, [], some a, (List.append_nil text).symm, h, yields_pure.mpr ⟨rfl, rfl⟩⟩

theorem yields_orNode {p q : ParseTokens (Option α)} {r : Option α} : (orNode p q).Yields text r rest ↔
    (∃ a, r = some a ∧ p.Yields text (some a) rest) ∨
      ∃ t u, text = t ++ u ∧ p.Yields t none (u ++ rest) ∧ q.Yields u r rest := by
  rw [orNode, yields_bind]
  constructor
  · rintro ⟨t, u, node, rfl, hp, hnode⟩
    cases node with
    | none => exact .inr ⟨t, u, rfl, hp, hnode⟩
    | some node =>
      obtain ⟨rfl, rfl⟩ := yields_pure.mp hnode
      rw [List.append_nil]
      exact .inl ⟨node, rfl, hp⟩
  · rintro (⟨a, rfl, hp⟩ | ⟨t, u, rfl, hp, hq⟩)
    · exact ⟨text, [], some a, (List.append_nil text).symm, hp, yields_pure.mpr ⟨rfl, rfl⟩⟩
    · exact ⟨t, u, none, rfl, hp, hq⟩

theorem run_thenNode {p : ParseTokens (Option α)} {f : α → ParseTokens (Option β)} {a : α}
    (hp : p.Yields text (some a) rest) : (thenNode p f).run (text ++ rest) = (f a).run rest :=
  run_bind_ok hp

theorem yields_thenNode {p : ParseTokens (Option α)} {f : α → ParseTokens (Option β)} {b : β} :
    (thenNode p f).Yields text (some b) rest ↔
      ∃ t u a, text = t ++ u ∧ p.Yields t (some a) (u ++ rest) ∧ (f a).Yields u (some b) rest := by
  rw [thenNode, yields_bind]
  constructor
  · rintro ⟨t, u, node, rfl, hp, hnode⟩
    cases node with
    | none => cases (yields_pure.mp hnode).2
    | some a => exact ⟨t, u, a, rfl, hp, hnode⟩
  · rintro ⟨t, u, a, rfl, hp, hf⟩
    exact ⟨t, u, some a, rfl, hp, hf⟩

/-- A test of the token under the cursor, with a branch for either result. -/
theorem yields_ifCheck {p q : ParseTokens α} {a : α} :
    (check type view >>= fun b ↦ if b = true then p else q).Yields text a rest ↔
      (∃ u, text = ⟨type, view⟩ :: u ∧ p.Yields u a rest) ∨
        (text ++ rest).head? ≠ some ⟨type, view⟩ ∧ q.Yields text a rest := by
  rw [yields_bind]
  constructor
  · rintro ⟨t, u, b, rfl, hcheck, h⟩
    rcases yields_check.mp hcheck with ⟨rfl, rfl⟩ | ⟨rfl, rfl, hhead⟩
    · exact .inl ⟨u, rfl, h⟩
    · exact .inr ⟨hhead, h⟩
  · rintro (⟨u, rfl, h⟩ | ⟨hhead, h⟩)
    · exact ⟨[_], u, true, rfl, yields_check.mpr (.inl ⟨rfl, rfl⟩), h⟩
    · exact ⟨[], text, false, rfl, yields_check.mpr (.inr ⟨rfl, rfl, hhead⟩), h⟩

/-- Where a token has been read, the parsers need to agree on shorter lists only. -/
theorem agree_ifCheck {k : ℕ} {p p' q q' : ParseTokens α} (hp : AgreeBelow k p p') (hq : AgreeBelow (k + 1) q q') :
    AgreeBelow (k + 1) (check type view >>= fun b ↦ if b = true then p else q)
      (check type view >>= fun b ↦ if b = true then p' else q') := by
  refine (AgreeBelow.refl _ _).bind_of fun ts b rest hts hrun ↦ ?_
  obtain ⟨text, rfl, hcheck⟩ := run_eq_ok.mp hrun
  rcases yields_check.mp hcheck with ⟨rfl, rfl⟩ | ⟨rfl, rfl, -⟩
  · exact hp rest (Nat.lt_of_succ_lt_succ hts)
  · exact hq rest hts

theorem agree_check {k : ℕ} {p p' q q' : ParseTokens α} (hp : AgreeBelow k p p') (hq : AgreeBelow k q q') :
    AgreeBelow k (check type view >>= fun b ↦ if b = true then p else q)
      (check type view >>= fun b ↦ if b = true then p' else q') := by
  refine (AgreeBelow.refl k _).bind fun b ↦ ?_
  cases b with
  | true => exact hp
  | false => exact hq

theorem agree_orNode {k : ℕ} {p p' q q' : ParseTokens (Option α)} (hp : AgreeBelow k p p') (hq : AgreeBelow k q q') :
    AgreeBelow k (orNode p q) (orNode p' q') := by
  refine hp.bind fun node ↦ ?_
  cases node with
  | none => exact hq
  | some node => exact .refl k _

theorem agree_thenNode {k : ℕ} {p p' : ParseTokens (Option α)} {f f' : α → ParseTokens (Option β)}
    (hp : AgreeBelow k p p') (hf : ∀ a, AgreeBelow k (f a) (f' a)) : AgreeBelow k (thenNode p f) (thenNode p' f') := by
  refine hp.bind fun node ↦ ?_
  cases node with
  | none => exact .refl k _
  | some a => exact hf a

theorem agree_expectNode {k : ℕ} {p q : ParseTokens (Option α)} (h : AgreeBelow k p q) (msg : String) :
    AgreeBelow k (expectNode p msg) (expectNode q msg) :=
  h.bind fun _ ↦ .refl k _

end ParseTokens

end Stela.Syntax
