import Stela.Lex.Comments
import Stela.Lex.InBounds

/-!
# What the main loop reads

An iteration of the main loop passes a comment or reads a token. What the text of a token looks like is said for
each type of token, with what the order of the recognisers excludes: a word begins no number, and an identifier is
no keyword.
-/

namespace Stela.Lex

open ParseString Library Library.Except

/-! ## Words and numbers -/

section

variable {c : Char} {rest text : List Char}

theorem continueIdent_of_startIdent (h : startIdent c) : continueIdent c := by
  rw [startIdent, Bool.or_eq_true] at h
  rw [continueIdent, Bool.or_eq_true, Bool.or_eq_true]
  exact h.imp_left .inl

/-- No number begins with a letter, other than as a name of an infinity or of `nan`. -/
theorem noNumber_of_startIdent (h : startIdent c) : NoNumber c ∧ c ≠ '\x00' := by
  have hcode : (65 ≤ c.toNat ∧ c.toNat ≤ 90) ∨ (97 ≤ c.toNat ∧ c.toNat ≤ 122) ∨ c.toNat = 95 := by
    simp only [startIdent, isalpha, Bool.or_eq_true, Bool.and_eq_true, decide_eq_true_eq] at h
    rcases h with (h | h) | rfl
    · exact .inl h
    · exact .inr (.inl h)
    · exact .inr (.inr rfl)
  have hne (d : Char) (hd : d.toNat < 65) : c ≠ d := by
    rintro rfl
    omega
  refine ⟨⟨?_, ?_, hne '+' (by decide), hne '-' (by decide), hne '.' (by decide)⟩, hne '\x00' (by decide)⟩
  · rw [isspace, decide_eq_false (hne ' ' (by decide)), Bool.false_or, Bool.and_eq_false_iff]
    exact .inr (decide_eq_false (by omega))
  · rw [isDigitOf, digitValue]
    refine decide_eq_false ?_
    split_ifs <;> omega

theorem startsWith_cons {a : Char} {word : List Char} (h : startsWith (a :: word) (c :: rest)) : c.toLower = a :=
  (List.cons.inj (of_decide_eq_true h)).1

theorem startIdent_of_toLower (h : startIdent c.toLower) : startIdent c := by
  delta Char.toLower at h
  split at h
  · rename_i hupper
    obtain ⟨hge, hle⟩ := hupper
    have hge : 65 ≤ c.toNat := UInt32.le_iff_toNat_le.mp hge
    have hle : c.toNat ≤ 90 := UInt32.le_iff_toNat_le.mp hle
    simp [startIdent, isalpha, hge, hle]
  · exact h

/-- The text begins with `nan`, in capitals or not. -/
def StartsWithNan (text : List Char) : Prop := startsWith ['n', 'a', 'n'] text = true

theorem StartsWithNan.cons (h : StartsWithNan text) : ∃ c rest, text = c :: rest ∧ startIdent c := by
  obtain ⟨c, rest, rfl⟩ : ∃ c rest, text = c :: rest := List.exists_cons_of_ne_nil fun hnil ↦ by
    rw [hnil] at h
    cases h
  exact ⟨c, rest, rfl, startIdent_of_toLower (startsWith_cons h ▸ by decide)⟩

/-- A copy that ends in front of a null character keeps a word at the start of the text. -/
theorem startsWith_takeWhile {word : List Char} {n : ℕ} (hlen : word.length ≤ n) (hzero : '\x00' ∉ word)
    (h : startsWith word text) : startsWith word ((text.take n).takeWhile (· ≠ '\x00')) := by
  have hword : (text.take word.length).map Char.toLower = word := of_decide_eq_true h
  have hpos : ∀ c ∈ text.take word.length, decide (c ≠ '\x00') = true := by
    refine fun c hc ↦ decide_eq_true fun heq ↦ hzero ?_
    rw [← hword]
    exact List.mem_map.mpr ⟨c, hc, by rw [heq]; rfl⟩
  have hsplit : text.take n = text.take word.length ++ (text.take n).drop word.length := by
    conv_lhs => rw [← List.take_append_drop word.length (text.take n), List.take_take, Nat.min_eq_left hlen]
  have htake : text.take word.length <+: (text.take n).takeWhile (· ≠ '\x00') := by
    rw [hsplit, List.takeWhile_append_of_pos hpos]
    exact List.prefix_append _ _
  exact startsWith_append htake (by rw [startsWith, List.take_take, Nat.min_self]; exact h)

theorem StartsWithNan.nullTerm (h : StartsWithNan text) : StartsWithNan (nullTerm text) :=
  startsWith_takeWhile (by decide) (by decide) h

theorem StartsWithNan.afterSign (h : StartsWithNan text) : afterSign text = text := by
  obtain ⟨c, rest, rfl, hc⟩ := h.cons
  exact afterSign_cons (noNumber_of_startIdent hc).1

/-- The text begins with `nan`, behind a sign or without one. -/
def SignedNan (text : List Char) : Prop := StartsWithNan (scanSign text).2

theorem scanSign_cases (text : List Char) : (scanSign text).2 = text ∨
    ∃ c rest, (c = '-' ∨ c = '+') ∧ text = c :: rest ∧ (scanSign text).2 = rest := by
  rw [scanSign.eq_def]
  split
  · exact .inr ⟨_, _, .inl rfl, rfl, rfl⟩
  · exact .inr ⟨_, _, .inr rfl, rfl, rfl⟩
  · exact .inl rfl

theorem StartsWithNan.signed (h : StartsWithNan text) : SignedNan text := by
  rcases scanSign_cases text with heq | ⟨c, rest, hc, rfl, -⟩
  · rwa [SignedNan, heq]
  · have hn := startsWith_cons h
    rcases hc with rfl | rfl <;> cases hn

theorem SignedNan.cases (h : SignedNan text) :
    StartsWithNan text ∨ ∃ c rest, (c = '-' ∨ c = '+') ∧ text = c :: rest ∧ StartsWithNan rest := by
  rcases scanSign_cases text with heq | ⟨c, rest, hc, htext, heq⟩
  · exact .inl (heq ▸ h)
  · exact .inr ⟨c, rest, hc, htext, heq ▸ h⟩

/-- In the copy that is converted, `nan` stands behind the sign too. -/
theorem SignedNan.afterSign (h : SignedNan text) : StartsWithNan (afterSign (nullTerm text)) := by
  rcases h.cases with hnan | ⟨c, rest, hc, rfl, hnan⟩
  · rw [hnan.nullTerm.afterSign]
    exact hnan.nullTerm
  · have hrest : StartsWithNan ((rest.take 31).takeWhile (· ≠ '\x00')) :=
      startsWith_takeWhile (by decide) (by decide) hnan
    rcases hc with rfl | rfl <;> exact hrest

theorem startsWith_take {word : List Char} {n : ℕ} (hlen : word.length ≤ n) (h : startsWith word text) :
    startsWith word (text.take n) := by
  rw [startsWith, List.take_take, Nat.min_eq_left hlen]
  exact h

theorem SignedNan.append (h : SignedNan text) (rest : List Char) : SignedNan (text ++ rest) := by
  rcases h.cases with hnan | ⟨c, body, hc, rfl, hnan⟩
  · exact StartsWithNan.signed (startsWith_append (List.prefix_append _ _) hnan)
  · have hbody : StartsWithNan (body ++ rest) := startsWith_append (List.prefix_append _ _) hnan
    rcases hc with rfl | rfl <;> exact hbody

/-- A text in which `nan` stands behind the sign is a number as far as the name and its tag reach. -/
theorem numberMatch_nan {body : List Char} (hafter : afterSign (nullTerm text) = body) (hnan : StartsWithNan body) :
    numberMatch text =
      some (.real, (nullTerm text).length - body.length + 3 + nanTag (body.drop 3), .nan) := by
  obtain ⟨c, rest, rfl, hc⟩ := hnan.cons
  have hinfinite (word : List Char) : ¬startsWith ('i' :: word) (c :: rest) := fun hinf ↦
    absurd ((startsWith_cons hnan).symm.trans (startsWith_cons hinf)) (by decide)
  have hreal : fromChars .real text 0 =
      ⟨(nullTerm text).length - (c :: rest).length + 3 + nanTag ((c :: rest).drop 3), false, some .nan⟩ := by
    rw [fromChars, strtold, hafter, scanReal_cons (noNumber_of_startIdent hc).1]
    simp only [if_neg (hinfinite _), if_pos (show startsWith ['n', 'a', 'n'] (c :: rest) = true from hnan)]
    exact if_neg (by simp)
  rw [numberMatch, firstNumber, hreal]

theorem StartsWithNan.numberMatch (h : StartsWithNan text) :
    numberMatch text = some (.real, 3 + nanTag ((Lex.nullTerm text).drop 3), .nan) := by
  rw [numberMatch_nan h.nullTerm.afterSign h.nullTerm, Nat.sub_self, Nat.zero_add]

theorem SignedNan.numberMatch (h : SignedNan text) :
    ∃ size, numberMatch text = some (.real, size, .nan) ∧ SignedNan (text.take size) := by
  refine ⟨_, numberMatch_nan rfl h.afterSign, ?_⟩
  rcases h.cases with hnan | ⟨c, rest, hc, rfl, hnan⟩
  · refine StartsWithNan.signed (startsWith_take ?_ hnan)
    rw [Nat.add_assoc]
    exact Nat.le_add_left_of_le (Nat.le_add_right 3 _)
  · have hrest (k : ℕ) : StartsWithNan (rest.take (3 + k)) := startsWith_take (Nat.le_add_right 3 k) hnan
    have hsize (n k : ℕ) : n + 1 - n + 3 + k = 3 + k + 1 := by omega
    have hsigned (k : ℕ) : SignedNan ((c :: rest).take (3 + k + 1)) := by
      rw [List.take_succ_cons]
      rcases hc with rfl | rfl <;> exact hrest k
    have hafter : Lex.afterSign (Lex.nullTerm (c :: rest)) = (rest.take 31).takeWhile (· ≠ '\x00') := by
      rcases hc with rfl | rfl <;> rfl
    have hterm : Lex.nullTerm (c :: rest) = c :: (rest.take 31).takeWhile (· ≠ '\x00') := by
      rcases hc with rfl | rfl <;> rfl
    rw [hafter, hterm, List.length_cons, hsize]
    exact hsigned _

/-- The characters in parentheses that are read with the `nan` that the text begins with. -/
def nanTagText (text : List Char) : List Char := ((nullTerm text).drop 3).take (nanTag ((nullTerm text).drop 3))

theorem length_nanTagText (text : List Char) : (nanTagText text).length = nanTag ((nullTerm text).drop 3) := by
  rw [nanTagText, List.length_take]
  exact Nat.min_eq_left (nanTag_le _)

theorem nanTagText_cases (text : List Char) :
    nanTagText text = [] ∨ ∃ word, nanTagText text = '(' :: word ++ [')'] := by
  rw [nanTagText]
  generalize (nullTerm text).drop 3 = behind
  rw [nanTag.eq_def]
  split
  · rename_i body
    split
    · rename_i rest hrest
      refine .inr ⟨body.takeWhile isWordChar, ?_⟩
      have hbody := @List.takeWhile_append_dropWhile _ isWordChar body
      rw [hrest] at hbody
      generalize body.takeWhile isWordChar = word at hbody ⊢
      rw [← hbody, List.take_succ_cons, List.take_length_add_append]
      rfl
    · exact .inl rfl
  · exact .inl rfl

/-- The text is the name, the tag, and what stands behind them. -/
theorem StartsWithNan.split (h : StartsWithNan text) : ∃ name rest,
    text = name ++ nanTagText text ++ rest ∧ name.length = 3 ∧ ∀ c ∈ name, continueIdent c := by
  obtain ⟨rest, hrest⟩ := nullTerm_prefix text
  have hterm : (Lex.nullTerm text).take 3 ++ nanTagText text ++
      ((Lex.nullTerm text).drop 3).drop (nanTag ((Lex.nullTerm text).drop 3)) = Lex.nullTerm text := by
    rw [nanTagText, List.append_assoc, List.take_append_drop, List.take_append_drop]
  have hname : ((Lex.nullTerm text).take 3).map Char.toLower = ['n', 'a', 'n'] := of_decide_eq_true h.nullTerm
  refine ⟨(Lex.nullTerm text).take 3, ((Lex.nullTerm text).drop 3).drop (nanTag ((Lex.nullTerm text).drop 3)) ++ rest,
    ?_, ?_, fun c hc ↦ ?_⟩
  · rw [← List.append_assoc, hterm, hrest]
  · rw [← List.length_map, hname]
    rfl
  · have hlower : c.toLower ∈ ['n', 'a', 'n'] := hname ▸ List.mem_map_of_mem hc
    have hstart : startIdent c.toLower := by
      simp only [List.mem_cons, List.not_mem_nil, or_false] at hlower
      rcases hlower with h | h | h <;> rw [h] <;> rfl
    exact continueIdent_of_startIdent (startIdent_of_toLower hstart)

/-- Where a letter stands, the number recogniser finds a number exactly if it reads `nan`. -/
theorem numberMatch_startIdent (hc : startIdent c) :
    numberMatch (c :: rest) ≠ none ↔ StartsWithNan (c :: rest) := by
  obtain ⟨hno, hzero⟩ := noNumber_of_startIdent hc
  constructor
  · intro h
    by_contra hnan
    exact h (numberMatch_cons hno hzero (Bool.eq_false_iff.mpr hnan))
  · intro h
    rw [h.numberMatch]
    exact Option.some_ne_none _

/-- No type has the value, so that no suffix may follow it. -/
theorem hasValidSuffix_nan {suffix : Char} {ty : NumberType} {loc : LineCol} {b : Bool}
    (h : hasValidSuffix suffix ty .nan loc = .ok b) : b = false := by
  have hlist (ss : List Suffix) (h : checkSuffixes suffix ty .nan loc ss = .ok b) : b = false := by
    induction ss with
    | nil =>
      cases h
      rfl
    | cons s ss ih =>
      rw [checkSuffixes] at h
      split at h
      · cases h
      · exact ih h
  exact hlist suffixes h

end

section

variable {mem : Memory} {s s' : ParseString}

theorem parseNumber_eq_none (hempty : s.empty = false) {loc : LineCol} :
    parseNumber mem s loc = .ok none ↔ numberMatch (s.view mem) = none := by
  rw [parseNumber_eq hempty]
  constructor
  · intro h
    split at h
    · assumption
    · split at h
      · cases h
      · obtain ⟨s', -, h⟩ := map_eq_ok.mp h
        cases h
  · intro h
    rw [h]

/-! ## Tokens -/

/-- What the text of a token of each type is, when the recognisers that come first have read nothing. -/
inductive TokenText (mem : Memory) (s s' : ParseString) : TokenType → List Char → Prop
  | word {type c rest} : numberMatch (s.view mem) = none → startIdent c → (∀ d ∈ rest, continueIdent d) →
      AtWordEnd mem s' → type = (if c :: rest ∈ keywords then .keyword else .identifier) →
      TokenText mem s s' type (c :: rest)
  | number {text} : validNumberLiteral mem s s.lineCol = .ok text.length → text ≠ [] → TokenText mem s s' .number text
  | oper {text} : numberMatch (s.view mem) = none → text ∈ oper → TokenText mem s s' .oper text
  | string {body} : TokenText mem s s' .string ('"' :: body ++ ['"'])
  | character {body} : TokenText mem s s' .character ('\'' :: body ++ ['\''])

/-- From one cursor to the other, the token is read. -/
structure TokenRead (mem : Memory) (s : ParseString) (t : Token) (s' : ParseString) (text : List Char) : Prop where
  token : t = token t.type s s'
  reads : Reads mem s text s'
  text : TokenText mem s s' t.type text

theorem word_of_mem_keywords {text : List Char} (h : text ∈ keywords) :
    ∃ c rest, text = c :: rest ∧ startIdent c ∧ ∀ d ∈ rest, continueIdent d := by
  obtain ⟨c, rest, rfl⟩ := List.exists_cons_of_ne_nil (nonempty_of_mem_keywords h)
  have hall : (keywords.all fun t ↦ t.head?.all startIdent && t.tail.all continueIdent) = true := by decide +kernel
  have hboth := List.all_eq_true.mp hall _ h
  rw [Bool.and_eq_true, List.all_eq_true] at hboth
  exact ⟨c, rest, rfl, hboth.1, hboth.2⟩

theorem tokenText_keyword (h : parseKeyword mem s = some s') :
    ∃ text, Reads mem s text s' ∧ TokenText mem s s' .keyword text := by
  obtain ⟨text, htext, hreads, hend⟩ := parseKeyword_reads h
  obtain ⟨c, rest, rfl, hc, hrest⟩ := word_of_mem_keywords htext
  refine ⟨_, hreads, .word ?_ hc hrest hend (if_pos htext).symm⟩
  rw [hreads.view]
  exact numberMatch_eq_none (.inr ⟨_, htext, rfl⟩)

theorem tokenText_identifier (hkeyword : parseKeyword mem s = none) (hnumber : numberMatch (s.view mem) = none)
    (h : parseIdent mem s = some s') : ∃ text, Reads mem s text s' ∧ TokenText mem s s' .identifier text := by
  obtain ⟨c, rest, hc, -, hreads, hend⟩ := parseIdent_reads h
  have hword : c :: rest.takeWhile continueIdent ∉ keywords := fun hmem ↦ parseKeyword_none hkeyword hmem hreads hend
  exact ⟨_, hreads, .word hnumber hc (fun d hd ↦ List.mem_takeWhile_imp hd) hend (if_neg hword).symm⟩

theorem tokenText_number (h : parseNumber mem s s.lineCol = .ok (some s')) :
    ∃ text, Reads mem s text s' ∧ TokenText mem s s' .number text := by
  obtain ⟨n, hn, hle, hvalid, hreads⟩ := parseNumber_reads h
  have hlen : ((s.view mem).take n).length = n := by
    rw [List.length_take, length_view]
    exact Nat.min_eq_left hle
  refine ⟨_, hreads, .number (by rw [hlen, hvalid]) fun hnil ↦ hn ?_⟩
  rw [← hlen, hnil]
  rfl

theorem firstToken_recognisers (hempty : s.empty = false) {found : Token}
    (h : firstToken s (recognisers mem s) = .ok (found, s')) : ∃ text, TokenRead mem s found s' text := by
  have hread {type : TokenType} (hfound : (token type s s', s') = (found, s'))
      (htext : ∃ text, Reads mem s text s' ∧ TokenText mem s s' type text) : ∃ text, TokenRead mem s found s' text := by
    obtain ⟨text, hreads, htext⟩ := htext
    cases hfound
    exact ⟨text, rfl, hreads, htext⟩
  rw [recognisers] at h
  cases hkeyword : parseKeyword mem s with
  | some s₁ =>
    rw [hkeyword] at h
    cases h
    exact hread rfl (tokenText_keyword hkeyword)
  | none =>
    rw [hkeyword] at h
    cases hnumber : parseNumber mem s s.lineCol with
    | error e =>
      rw [hnumber] at h
      cases h
    | ok number =>
      rw [hnumber] at h
      cases number with
      | some s₁ =>
        cases h
        exact hread rfl (tokenText_number hnumber)
      | none =>
        have hnone := (parseNumber_eq_none hempty).mp hnumber
        cases hoper : parseOper mem s with
        | some s₁ =>
          rw [hoper] at h
          cases h
          obtain ⟨text, htext, hreads⟩ := parseOper_reads hoper
          exact hread rfl ⟨text, hreads, .oper hnone htext⟩
        | none =>
          rw [hoper] at h
          cases hident : parseIdent mem s with
          | some s₁ =>
            rw [hident] at h
            cases h
            exact hread rfl (tokenText_identifier hkeyword hnone hident)
          | none =>
            rw [hident] at h
            obtain ⟨type, hmem, rfl⟩ := firstToken_eq_ok h
            simp only [List.mem_cons, Prod.mk.injEq, reduceCtorEq, and_false, false_or, Except.ok.injEq,
              List.not_mem_nil, or_false] at hmem
            rcases hmem with ⟨rfl, hquoted⟩ | ⟨rfl, hquoted⟩
            · obtain ⟨body, hreads⟩ := parseQuoted_reads hquoted.symm
              exact ⟨_, rfl, hreads, .string⟩
            · obtain ⟨body, hreads⟩ := parseQuoted_reads hquoted.symm
              exact ⟨_, rfl, hreads, .character⟩

/-! ## Iterations -/

/-- What stands between the two cursors of an iteration: a comment, or a token. -/
inductive Item (mem : Memory) (s s' : ParseString) : Option Token → Prop
  | line {body} : Reads mem s ('/' :: '/' :: body) s' → (∀ c ∈ body, c ≠ '\n') →
      (∀ c ∈ (s'.view mem).head?, c = '\n') → Item mem s s' none
  | block : parseMultiComment mem s = .ok (some s') → Item mem s s' none
  | token {t text} : TokenRead mem s t s' text → Item mem s s' (some t)

theorem parseItem_cases (hempty : s.empty = false) {item : Option Token} (h : parseItem mem s = .ok (item, s')) :
    Item mem s s' item := by
  rw [parseItem] at h
  split at h
  · rename_i hline
    cases h
    obtain ⟨s₁, hslashes, rfl⟩ := parseLineComment_eq_some.mp hline
    obtain ⟨body, hbody, hreads, hhead⟩ := @skipUntil_spec mem (· == '\n') s₁
    exact .line (hslashes.trans hreads) (by simpa using hbody) (by simpa using hhead)
  · split at h
    · cases h
    · cases h
      exact .block ‹_›
    · obtain ⟨⟨found, s₁⟩, hfound, h⟩ := map_eq_ok.mp h
      cases h
      obtain ⟨text, hread⟩ := firstToken_recognisers hempty hfound
      exact .token hread

theorem tokenizeLoop_next {read : List Token} {st' : List Token × ParseString}
    (h : (tokenizeLoop mem).Next (read, s) st') : (s.skipWhitespace mem).empty = false ∧
      ∃ item, Item mem (s.skipWhitespace mem) st'.2 item ∧ st'.1 = read ++ item.toList := by
  have hbody : tokenizeStep mem (read, s) = .ok (.inr st') := h
  cases hempty : (s.skipWhitespace mem).empty with
  | true =>
    rw [tokenizeStep_of_empty hempty] at hbody
    cases hbody
  | false =>
    rw [tokenizeStep_of_item hempty] at hbody
    obtain ⟨⟨item, next⟩, hitem, heq⟩ := map_eq_ok.mp hbody
    cases heq
    exact ⟨rfl, item, parseItem_cases hempty hitem, rfl⟩

/-! ## Where an item ends -/

/-- No word reaches over the cursor. -/
def Apart (mem : Memory) (s : ParseString) : Prop := continueIdent (mem (s.beg - 1)) = false ∨ AtWordEnd mem s

theorem ParseString.Reads.last {t : List Char} {c : Char} (h : Reads mem s (t ++ [c]) s') :
    mem (s'.beg - 1) = c := by
  have hbeg := h.beg
  have hleft := h.left_eq
  rw [List.length_append, List.length_singleton] at hbeg hleft
  have hget := @getElem_view mem s t.length (by omega)
  rw [h.view, List.append_assoc, List.getElem?_append_right (Nat.le_refl _), Nat.sub_self] at hget
  rw [hbeg, ← Nat.add_assoc, Nat.add_sub_cancel]
  exact (Option.some.inj hget).symm

theorem apart_of_last {t : List Char} {c : Char} (h : Reads mem s (t ++ [c]) s') (hc : continueIdent c = false) :
    Apart mem s' := by
  rw [Apart, h.last]
  exact .inl hc

theorem not_continueIdent_of_mem_oper {text : List Char} (h : text ∈ oper) {c : Char} (hc : c ∈ text) :
    continueIdent c = false := by
  have hall : (oper.all fun t ↦ t.all fun c ↦ !continueIdent c) = true := by decide +kernel
  simpa using List.all_eq_true.mp (List.all_eq_true.mp hall text h) c hc

theorem TokenRead.apart {t : Token} {text : List Char} (h : TokenRead mem s t s' text) :
    t.type = .number ∨ Apart mem s' := by
  obtain ⟨-, hreads, htext⟩ := h
  generalize t.type = type at htext
  cases htext with
  | word _ _ _ hend _ => exact .inr (.inr hend)
  | number => exact .inl rfl
  | oper _ hmem =>
    obtain ⟨init, c, rfl⟩ := (List.eq_nil_or_concat' text).resolve_left (nonempty_of_mem_oper hmem)
    exact .inr (apart_of_last hreads (not_continueIdent_of_mem_oper hmem (by simp)))
  | string => exact .inr (apart_of_last hreads (by decide))
  | character => exact .inr (apart_of_last hreads (by decide))

theorem Item.apart {item : Option Token} (h : Item mem s s' item) :
    Apart mem s' ∨ ∃ t ∈ item, t.type = .number := by
  cases h with
  | line _ _ hhead => exact .inl (.inr fun c hc ↦ by rw [hhead c hc]; decide)
  | block h =>
    obtain ⟨body, hreads⟩ := parseMultiComment_reads h
    exact .inl (@apart_of_last mem s s' ('/' :: '*' :: body ++ ['*']) '/' (by simpa using hreads) (by decide))
  | token h => exact h.apart.symm.imp_right fun hnumber ↦ ⟨_, rfl, hnumber⟩

end

end Stela.Lex
