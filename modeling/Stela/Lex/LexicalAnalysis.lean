import Stela.Lex.NumberLiteral
import Stela.Library.ShrinkingLoop

/-!
# The tokenizer

Each recogniser returns the cursor after what it has read, and nothing when it leaves the cursor where it was.
A token keeps the address and the size of its view.
-/

namespace Stela.Lex

open ParseString Library Library.Except

def keywords : List (List Char) :=
  ["extern", "func", "ref", "return",
   "struct", "true", "false",
   "let", "var", "type", "make",
   "if", "else", "switch", "case", "default",
   "while", "for", "break", "continue",
   "module", "import"].map String.toList

def oper : List (List Char) :=
  ["<<=", ">>=", "==", "!=", "<=", ">=", "&&", "||", "--", "++", "->", ":=",
   "+=", "-=", "*=", "/=", "%=", "&=", "|=", "^=", "<<", ">>", "=", "!", "<",
   ">", "&", "|", "^", "~", "\x7b", "\x7d", "(", ")", "[", "]", "+", "-", "*", "/",
   "%", ".", ",", "?", ":", ";"].map String.toList

inductive TokenType
  | keyword | identifier | number | string | character | oper
  deriving DecidableEq, Repr

structure Token where
  /-- The address of the first character. -/
  data : ℕ
  size : ℕ
  loc : LineCol
  type : TokenType
  deriving DecidableEq, Repr

def isalpha (c : Char) : Bool := (65 ≤ c.toNat && c.toNat ≤ 90) || (97 ≤ c.toNat && c.toNat ≤ 122)

def startIdent (c : Char) : Bool := isalpha c || c = '_'

def continueIdent (c : Char) : Bool := isalpha c || isdigit c || c = '_'

section

variable (mem : Memory) (s : ParseString)

def parseKeyword : Option ParseString :=
  let found := s.tryParseEnumPred mem (fun c ↦ !continueIdent c) keywords
  if found.1 ≠ keywords.length then some found.2 else none

def parseIdent : Option ParseString :=
  (s.checkPred mem startIdent).map fun s ↦ s.skip mem continueIdent

def parseNumber (loc : LineCol) : Except Thrown (Option ParseString) :=
  match validNumberLiteral mem s loc with
  | .error e => .error e
  | .ok 0 => .ok none
  | .ok numberChars => (s.advance mem numberChars).map some

/-- One iteration of the loop of `parseString` and `parseChar`. -/
def quotedStep (quote : Char) (message : String) (s : ParseString) : Except Thrown (ParseString ⊕ ParseString) :=
  let s' := s.skipUntil mem fun c ↦ c = '\n' || c = '\\' || c = quote
  match s'.checkChar mem quote with
  | some closed => .ok (.inl closed)
  | none =>
    match s'.checkChar mem '\\' with
    | some escaped => (escaped.advance mem 1).map .inr
    | none => .error (.fatal s'.lineCol message)

/-- One iteration of the loop of `parseMultiComment`, on the cursor and `depth`. -/
def commentStep (loc : LineCol) (st : ParseString × UInt32) :
    Except Thrown (ParseString ⊕ ParseString × UInt32) :=
  let (s, depth) := st
  let s' := s.skipUntil mem fun c ↦ c = '*' || c = '/'
  match s'.checkString mem ['*', '/'] with
  | some closed => .ok (if depth - 1 = 0 then .inl closed else .inr (closed, depth - 1))
  | none =>
    match s'.checkString mem ['/', '*'] with
    | some opened => .ok (.inr (opened, depth + 1))
    | none =>
      if s'.empty then .error (.fatal loc "Unterminated multi-line comment")
      else (s'.advance mem 1).map fun next ↦ .inr (next, depth)

end

section

variable {mem : Memory} {s s' : ParseString}

/-- What an iteration over a quoted literal does: characters are passed up to a quote, a backslash, a line break or
the end. -/
inductive QuotedStep (mem : Memory) (quote : Char) (message : String) (s : ParseString) :
    Except Thrown (ParseString ⊕ ParseString) → Prop
  | closed {t s'} : (∀ c ∈ t, c ≠ '\n' ∧ c ≠ '\\' ∧ c ≠ quote) → Reads mem s (t ++ [quote]) s' →
      QuotedStep mem quote message s (.ok (.inl s'))
  | escaped {t c s'} : (∀ c ∈ t, c ≠ '\n' ∧ c ≠ '\\' ∧ c ≠ quote) → Reads mem s (t ++ ['\\', c]) s' →
      QuotedStep mem quote message s (.ok (.inr s'))
  | outOfRange {t} : (∀ c ∈ t, c ≠ '\n' ∧ c ≠ '\\' ∧ c ≠ quote) → s.view mem = t ++ ['\\'] →
      QuotedStep mem quote message s (.error .outOfRange)
  | unterminated {t rest loc} : (∀ c ∈ t, c ≠ '\n' ∧ c ≠ '\\' ∧ c ≠ quote) → s.view mem = t ++ rest →
      (∀ c ∈ rest.head?, c = '\n') → QuotedStep mem quote message s (.error (.fatal loc message))

theorem quotedStep_cases {quote : Char} {message : String} {r : Except Thrown (ParseString ⊕ ParseString)}
    (h : quotedStep mem quote message s = r) : QuotedStep mem quote message s r := by
  subst h
  obtain ⟨t, ht, hreads, hhead⟩ := @skipUntil_spec mem (fun c ↦ c = '\n' || c = '\\' || c = quote) s
  rw [quotedStep]
  generalize s.skipUntil mem (fun c ↦ c = '\n' || c = '\\' || c = quote) = s₁ at hreads hhead ⊢
  replace ht : ∀ c ∈ t, c ≠ '\n' ∧ c ≠ '\\' ∧ c ≠ quote := by simpa [and_assoc] using ht
  cases hclosed : s₁.checkChar mem quote with
  | some closed => exact .closed ht (hreads.trans (checkChar_eq_some.mp hclosed))
  | none =>
    cases hescaped : s₁.checkChar mem '\\' with
    | some escaped =>
      have hback := hreads.trans (checkChar_eq_some.mp hescaped)
      by_cases hleft : escaped.left = 0
      · have hnil : escaped.view mem = [] := List.eq_nil_of_length_eq_zero (length_view.trans hleft)
        simp only [advance_eq_outOfRange (hleft ▸ Nat.zero_lt_one : escaped.left < 1)]
        exact .outOfRange ht (by rw [hback.view, hnil, List.append_nil])
      · obtain ⟨next, hnext, hone⟩ := @advance_eq mem escaped 1 (by omega)
        obtain ⟨c, rest, hview⟩ := List.exists_cons_of_length_pos (l := escaped.view mem) (by rw [length_view]; omega)
        simp only [hnext]
        rw [hview] at hone
        exact .escaped ht (by simpa using hback.trans hone)
    | none =>
      refine .unterminated ht hreads.view fun c hc ↦ ?_
      obtain ⟨rest, hview⟩ : ∃ rest, s₁.view mem = c :: rest := List.head?_eq_some_iff.mp hc
      have hq : c ≠ quote := fun h ↦ checkChar_eq_none.mp hclosed rest (h ▸ hview)
      have hb : c ≠ '\\' := fun h ↦ checkChar_eq_none.mp hescaped rest (h ▸ hview)
      simpa [hq, hb] using hhead c hc

/-- What an iteration over a comment does: characters are passed up to a star or a slash. -/
inductive CommentStep (mem : Memory) (loc : LineCol) (s : ParseString) (depth : UInt32) :
    Except Thrown (ParseString ⊕ ParseString × UInt32) → Prop
  | closed {t s'} : (∀ c ∈ t, c ≠ '*' ∧ c ≠ '/') → Reads mem s (t ++ ['*', '/']) s' →
      CommentStep mem loc s depth (.ok (if depth - 1 = 0 then .inl s' else .inr (s', depth - 1)))
  | opened {t s'} : (∀ c ∈ t, c ≠ '*' ∧ c ≠ '/') → Reads mem s (t ++ ['/', '*']) s' →
      CommentStep mem loc s depth (.ok (.inr (s', depth + 1)))
  | passed {t c s'} : (∀ c ∈ t, c ≠ '*' ∧ c ≠ '/') → (c = '*' ∨ c = '/') → Reads mem s (t ++ [c]) s' →
      ¬['*', '/'] <+: c :: s'.view mem → ¬['/', '*'] <+: c :: s'.view mem →
      CommentStep mem loc s depth (.ok (.inr (s', depth)))
  | unterminated : (∀ c ∈ s.view mem, c ≠ '*' ∧ c ≠ '/') →
      CommentStep mem loc s depth (.error (.fatal loc "Unterminated multi-line comment"))

theorem commentStep_cases {loc : LineCol} {st : ParseString × UInt32}
    {r : Except Thrown (ParseString ⊕ ParseString × UInt32)} (h : commentStep mem loc st = r) :
    CommentStep mem loc st.1 st.2 r := by
  subst h
  obtain ⟨s, depth⟩ := st
  obtain ⟨t, ht, hreads, hhead⟩ := @skipUntil_spec mem (fun c ↦ c = '*' || c = '/') s
  rw [commentStep]
  generalize s.skipUntil mem (fun c ↦ c = '*' || c = '/') = s₁ at hreads hhead ⊢
  replace ht : ∀ c ∈ t, c ≠ '*' ∧ c ≠ '/' := by simpa using ht
  cases hclosed : s₁.checkString mem ['*', '/'] with
  | some closed => exact .closed ht (hreads.trans (checkString_eq_some.mp hclosed))
  | none =>
    cases hopened : s₁.checkString mem ['/', '*'] with
    | some opened => exact .opened ht (hreads.trans (checkString_eq_some.mp hopened))
    | none =>
      dsimp only
      split
      · rename_i hempty
        refine .unterminated fun c hc ↦ ht c ?_
        rwa [hreads.view, view_eq_nil.mpr hempty, List.append_nil] at hc
      · rename_i hempty
        obtain ⟨c, rest, hview⟩ := List.exists_cons_of_ne_nil fun h ↦ hempty (@view_eq_nil mem s₁ |>.mp h)
        have hleft : 1 ≤ s₁.left := by rw [← @length_view mem, hview]; exact Nat.succ_pos _
        obtain ⟨next, hnext, hone⟩ := @advance_eq mem s₁ 1 hleft
        rw [hview] at hone
        simp only [hnext]
        have hnextView : next.view mem = rest := hone.view_eq hview
        refine .passed ht (by simpa using hhead c (by rw [hview]; rfl)) (hreads.trans hone) ?_ ?_
        · rw [hnextView, ← hview]
          exact checkString_eq_none.mp hclosed
        · rw [hnextView, ← hview]
          exact checkString_eq_none.mp hopened

theorem QuotedStep.reads {quote : Char} {message : String}
    (h : QuotedStep mem quote message s (.ok (.inr s'))) : ∃ t ≠ [], Reads mem s t s' := by
  cases h with
  | escaped _ hreads => exact ⟨_, by simp, hreads⟩

theorem CommentStep.reads {loc : LineCol} {depth depth' : UInt32}
    (h : CommentStep mem loc s depth (.ok (.inr (s', depth')))) : ∃ t ≠ [], Reads mem s t s' := by
  generalize hr : (Except.ok (.inr (s', depth')) : Except Thrown (ParseString ⊕ ParseString × UInt32)) = r at h
  cases h with
  | closed _ hreads =>
    split at hr <;> cases hr
    exact ⟨_, by simp, hreads⟩
  | opened _ hreads =>
    cases hr
    exact ⟨_, by simp, hreads⟩
  | passed _ _ hreads =>
    cases hr
    exact ⟨_, by simp, hreads⟩
  | unterminated => cases hr

theorem CommentStep.reads_closed {loc : LineCol} {depth : UInt32}
    (h : CommentStep mem loc s depth (.ok (.inl s'))) : ∃ t, Reads mem s (t ++ ['*', '/']) s' := by
  generalize hr : (Except.ok (.inl s') : Except Thrown (ParseString ⊕ ParseString × UInt32)) = r at h
  cases h with
  | closed _ hreads =>
    split at hr <;> cases hr
    exact ⟨_, hreads⟩
  | opened => cases hr
  | passed => cases hr
  | unterminated => cases hr

end

section

variable (mem : Memory) (s : ParseString)

def quotedLoop (quote : Char) (message : String) : ShrinkingLoop Thrown ParseString ParseString where
  body := quotedStep mem quote message
  size := left
  shrinks h :=
    let ⟨_, ht, hreads⟩ := (quotedStep_cases h).reads
    left_lt_of_reads hreads ht

def parseQuoted (quote : Char) (message : String) : Except Thrown (Option ParseString) :=
  match s.checkChar mem quote with
  | some opened => ((quotedLoop mem quote message).run opened).map some
  | none => .ok none

def parseString : Except Thrown (Option ParseString) :=
  parseQuoted mem s '"' "Unterminated string literal"

def parseChar : Except Thrown (Option ParseString) :=
  parseQuoted mem s '\'' "Unterminated character literal"

def parseOper : Option ParseString :=
  let found := s.tryParseEnum mem oper
  if found.1 ≠ oper.length then some found.2 else none

def parseLineComment : Option ParseString :=
  (s.checkString mem ['/', '/']).map fun s ↦ s.skipUntil mem (· == '\n')

def commentLoop (loc : LineCol) : ShrinkingLoop Thrown ParseString (ParseString × UInt32) where
  body := commentStep mem loc
  size := fun st ↦ st.1.left
  shrinks h :=
    let ⟨_, ht, hreads⟩ := (commentStep_cases h).reads
    left_lt_of_reads hreads ht

def parseMultiComment : Except Thrown (Option ParseString) :=
  match s.checkString mem ['/', '*'] with
  | some opened => ((commentLoop mem s.lineCol).run (opened, 1)).map some
  | none => .ok none

/-! ## Tokens -/

/-- The token between two cursors, as `begin` and `end` set it. -/
def token (type : TokenType) (s s' : ParseString) : Token := ⟨s.beg, s'.beg - s.beg, s.lineCol, type⟩

/-- The recognisers of tokens, in the order in which they are tried. -/
def recognisers : List (TokenType × Except Thrown (Option ParseString)) :=
  [(.keyword, .ok (parseKeyword mem s)),
   (.number, parseNumber mem s s.lineCol),
   (.oper, .ok (parseOper mem s)),
   (.identifier, .ok (parseIdent mem s)),
   (.string, parseString mem s),
   (.character, parseChar mem s)]

/-- The token of the first recogniser that reads something. -/
def firstToken : List (TokenType × Except Thrown (Option ParseString)) → Except Thrown (Token × ParseString)
  | [] => .error (.fatal s.lineCol "Invalid token")
  | (_, .error e) :: _ => .error e
  | (type, .ok (some s')) :: _ => .ok (token type s s', s')
  | (_, .ok none) :: rest => firstToken rest

/-- What the main loop does where it is not at the end: it passes a comment or reads a token. -/
def parseItem : Except Thrown (Option Token × ParseString) :=
  match parseLineComment mem s with
  | some s' => .ok (none, s')
  | none =>
    match parseMultiComment mem s with
    | .error e => .error e
    | .ok (some s') => .ok (none, s')
    | .ok none => (firstToken s (recognisers mem s)).map fun found ↦ (some found.1, found.2)

/-- One iteration of the main loop, on the tokens so far and the cursor. -/
def tokenizeStep (st : List Token × ParseString) : Except Thrown (List Token ⊕ List Token × ParseString) :=
  let s := st.2.skipWhitespace mem
  if s.empty then .ok (.inl st.1)
  else (parseItem mem s).map fun item ↦ .inr (st.1 ++ item.1.toList, item.2)

end

section

variable {mem : Memory} {s s' : ParseString}

/-! ## What each recogniser reads -/

/-- No word goes on at the cursor. -/
def AtWordEnd (mem : Memory) (s : ParseString) : Prop := ∀ c ∈ (s.view mem).head?, continueIdent c = false

theorem parseKeyword_reads (h : parseKeyword mem s = some s') :
    ∃ t ∈ keywords, Reads mem s t s' ∧ AtWordEnd mem s' := by
  rw [parseKeyword] at h
  split at h
  · cases h
    obtain ⟨t, ht, hreads, hend⟩ := tryParseEnumPred_reads ‹_›
    exact ⟨t, ht, hreads, by simpa [AtWordEnd] using hend⟩
  · cases h

theorem parseKeyword_none (h : parseKeyword mem s = none) {t : List Char} (ht : t ∈ keywords)
    (hreads : Reads mem s t s') : ¬AtWordEnd mem s' := by
  rw [parseKeyword] at h
  split at h
  · cases h
  · rename_i hfound
    have hnone := tryParseEnumPred_none (not_not.mp hfound) t ht hreads
    simpa [AtWordEnd] using hnone

theorem parseOper_reads (h : parseOper mem s = some s') : ∃ t ∈ oper, Reads mem s t s' := by
  rw [parseOper] at h
  split at h
  · cases h
    exact tryParseEnum_reads ‹_›
  · cases h

theorem atWordEnd_skip (s : ParseString) : AtWordEnd mem (s.skip mem continueIdent) := by
  intro c hc
  rw [view_skip, Option.mem_def] at hc
  have hhead := List.head?_dropWhile_not continueIdent (s.view mem)
  rw [hc] at hhead
  simpa using hhead

theorem parseIdent_reads (h : parseIdent mem s = some s') :
    ∃ c t, startIdent c ∧ s.view mem = c :: t ∧ Reads mem s (c :: t.takeWhile continueIdent) s' ∧
      AtWordEnd mem s' := by
  obtain ⟨s₁, hs₁, rfl⟩ := Option.map_eq_some_iff.mp h
  obtain ⟨c, hc, hreads⟩ := checkPred_eq_some.mp hs₁
  exact ⟨c, s₁.view mem, hc, hreads.view, hreads.trans (reads_skip continueIdent s₁), atWordEnd_skip s₁⟩

theorem parseNumber_reads {loc : LineCol} (h : parseNumber mem s loc = .ok (some s')) :
    ∃ n, n ≠ 0 ∧ n ≤ s.left ∧ validNumberLiteral mem s loc = .ok n ∧ Reads mem s ((s.view mem).take n) s' := by
  rw [parseNumber] at h
  split at h
  · cases h
  · cases h
  · rename_i n hn hvalid
    obtain ⟨s'', hs'', heq⟩ := map_eq_ok.mp h
    cases heq
    obtain ⟨hle, hreads⟩ := advance_eq_ok.mp hs''
    exact ⟨n, hn, hle, hvalid, hreads⟩

theorem parseQuoted_reads {quote : Char} {message : String} (h : parseQuoted mem s quote message = .ok (some s')) :
    ∃ t, Reads mem s (quote :: t ++ [quote]) s' := by
  rw [parseQuoted] at h
  split at h
  · rename_i opened hopened
    obtain ⟨closed, hrun, h⟩ := map_eq_ok.mp h
    cases h
    obtain ⟨last, hreach, hlast⟩ := ShrinkingLoop.run_eq_ok.mp hrun
    have hread : ∃ t, Reads mem s (quote :: t) last := by
      apply hreach.invariant (P := fun s₁ ↦ ∃ t, Reads mem s (quote :: t) s₁) _ ⟨[], checkChar_eq_some.mp hopened⟩
      intro s₁ s₂ ⟨t, ht⟩ hnext
      obtain ⟨u, -, hu⟩ := (quotedStep_cases hnext).reads
      exact ⟨t ++ u, ht.trans hu⟩
    obtain ⟨t, ht⟩ := hread
    cases quotedStep_cases hlast with
    | @closed u _ _ hu =>
      refine ⟨t ++ u, ?_⟩
      rw [List.cons_append, List.append_assoc]
      exact ht.trans hu
  · cases h

theorem parseLineComment_eq_some : parseLineComment mem s = some s' ↔
    ∃ s₁, Reads mem s ['/', '/'] s₁ ∧ s₁.skipUntil mem (· == '\n') = s' := by
  rw [parseLineComment, Option.map_eq_some_iff]
  simp only [checkString_eq_some]

theorem parseMultiComment_reads (h : parseMultiComment mem s = .ok (some s')) :
    ∃ t, Reads mem s ('/' :: '*' :: t ++ ['*', '/']) s' := by
  rw [parseMultiComment] at h
  split at h
  · rename_i opened hopened
    obtain ⟨closed, hrun, h⟩ := map_eq_ok.mp h
    cases h
    obtain ⟨last, hreach, hlast⟩ := ShrinkingLoop.run_eq_ok.mp hrun
    have hread : ∃ t, Reads mem s ('/' :: '*' :: t) last.1 := by
      apply hreach.invariant (P := fun st ↦ ∃ t, Reads mem s ('/' :: '*' :: t) st.1) _
        ⟨[], checkString_eq_some.mp hopened⟩
      intro st st' ⟨t, ht⟩ hnext
      obtain ⟨u, -, hu⟩ := (commentStep_cases hnext).reads
      exact ⟨t ++ u, ht.trans hu⟩
    obtain ⟨t, ht⟩ := hread
    obtain ⟨u, hu⟩ := (commentStep_cases hlast).reads_closed
    refine ⟨t ++ u, ?_⟩
    rw [List.cons_append, List.cons_append, List.append_assoc]
    exact ht.trans hu
  · cases h

theorem nonempty_of_mem_keywords {t : List Char} (h : t ∈ keywords) : t ≠ [] := by
  revert t
  decide +kernel

theorem nonempty_of_mem_oper {t : List Char} (h : t ∈ oper) : t ≠ [] := by
  revert t
  decide +kernel

theorem recognisers_reads {type : TokenType} (h : (type, .ok (some s')) ∈ recognisers mem s) :
    ∃ t ≠ [], Reads mem s t s' := by
  simp only [recognisers, List.mem_cons, Prod.mk.injEq, List.not_mem_nil, or_false] at h
  rcases h with ⟨-, h⟩ | ⟨-, h⟩ | ⟨-, h⟩ | ⟨-, h⟩ | ⟨-, h⟩ | ⟨-, h⟩
  · obtain ⟨t, ht, hreads, -⟩ := parseKeyword_reads (Except.ok.inj h).symm
    exact ⟨t, nonempty_of_mem_keywords ht, hreads⟩
  · obtain ⟨n, hn, hle, -, hreads⟩ := parseNumber_reads h.symm
    refine ⟨_, fun hnil ↦ ?_, hreads⟩
    have hlen := congrArg List.length hnil
    rw [List.length_take, length_view, List.length_nil] at hlen
    omega
  · obtain ⟨t, ht, hreads⟩ := parseOper_reads (Except.ok.inj h).symm
    exact ⟨t, nonempty_of_mem_oper ht, hreads⟩
  · obtain ⟨c, t, -, -, hreads, -⟩ := parseIdent_reads (Except.ok.inj h).symm
    exact ⟨_, List.cons_ne_nil _ _, hreads⟩
  · obtain ⟨t, hreads⟩ := parseQuoted_reads h.symm
    exact ⟨_, List.cons_ne_nil _ _, hreads⟩
  · obtain ⟨t, hreads⟩ := parseQuoted_reads h.symm
    exact ⟨_, List.cons_ne_nil _ _, hreads⟩

theorem firstToken_eq_ok {found : Token} : {rs : List (TokenType × Except Thrown (Option ParseString))} →
    firstToken s rs = .ok (found, s') → ∃ type, (type, .ok (some s')) ∈ rs ∧ found = token type s s'
  | (type, .ok (some s₁)) :: rs, h => by
    cases h
    exact ⟨type, List.mem_cons_self, rfl⟩
  | (_, .ok none) :: rs, h => by
    obtain ⟨type, hmem, hfound⟩ := @firstToken_eq_ok found rs h
    exact ⟨type, List.mem_cons_of_mem _ hmem, hfound⟩

theorem parseItem_reads {item : Option Token} (h : parseItem mem s = .ok (item, s')) :
    ∃ t ≠ [], Reads mem s t s' := by
  rw [parseItem] at h
  split at h
  · rename_i s₁ hline
    cases h
    obtain ⟨s₂, hslashes, rfl⟩ := parseLineComment_eq_some.mp hline
    exact ⟨_, by simp, hslashes.trans (reads_skip _ s₂)⟩
  · split at h
    · cases h
    · cases h
      obtain ⟨t, hreads⟩ := parseMultiComment_reads ‹_›
      exact ⟨_, List.cons_ne_nil _ _, hreads⟩
    · obtain ⟨⟨found, s₁⟩, hfound, h⟩ := map_eq_ok.mp h
      cases h
      obtain ⟨type, hmem, -⟩ := firstToken_eq_ok hfound
      exact recognisers_reads hmem

/-- Every iteration of the main loop consumes a character. -/
theorem tokenizeStep_left {st st' : List Token × ParseString} (h : tokenizeStep mem st = .ok (.inr st')) :
    st'.2.left < st.2.left := by
  rw [tokenizeStep] at h
  split at h
  · cases h
  · obtain ⟨⟨item, next⟩, hitem, h⟩ := map_eq_ok.mp h
    cases h
    obtain ⟨t, ht, hreads⟩ := parseItem_reads hitem
    calc next.left < (st.2.skipWhitespace mem).left := left_lt_of_reads hreads ht
      _ ≤ st.2.left := (reads_skip isspace st.2).left_eq ▸ Nat.le_add_left _ _

end

def tokenizeLoop (mem : Memory) : ShrinkingLoop Thrown (List Token) (List Token × ParseString) where
  body := tokenizeStep mem
  size := fun st ↦ st.2.left
  shrinks := tokenizeStep_left

/-- A `std::string_view`: an address, which may be null when the view is empty, and a size. -/
structure SourceView where
  data : Option ℕ
  size : ℕ
  null : data = none → size = 0

theorem SourceView.le_end (source : SourceView) (data : ℕ) : data ≤ data + source.size := Nat.le_add_right _ _

/-- `ParseString` asserts that the address is not null. -/
def tokenize (mem : Memory) (source : SourceView) : Except Thrown (List Token) :=
  match source.data with
  | none => .error .assertion
  | some data =>
    (tokenizeLoop mem).run ([], ⟨data, data + source.size, .first, source.le_end data⟩)

end Stela.Lex
