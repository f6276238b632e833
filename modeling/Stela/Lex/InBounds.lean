import Stela.Lex.LexicalAnalysis
import Stela.Lex.NumberScan

/-!
# Staying inside the source

Two memories agree on what is left of the source when the views are the same. Every recogniser but one then does
the same in both; the number recogniser does unless the number ends where the source ends, because it reads the
character after the number.
-/

namespace Stela.Lex

open ParseString Library Library.Except

/-- The memories hold the same characters from the cursor to the end. -/
def Agree (mem mem' : Memory) (s : ParseString) : Prop := s.view mem = s.view mem'

section

variable {mem mem' : Memory} {s s' : ParseString} {t : List Char}

theorem Agree.symm (h : Agree mem mem' s) : Agree mem' mem s := Eq.symm h

/-- What is left after the first characters does not depend on them. -/
theorem ParseString.Reads.view_drop (h : Reads mem s t s') (mem' : Memory) :
    s'.view mem' = (s.view mem').drop t.length := by
  have hle : s.beg + t.length ≤ s.end_ := h.beg ▸ h.end_ ▸ s'.le
  rw [(@reads_advanceNoCheck mem' s t.length hle).view, List.drop_left' (length_chars _ _ _), ParseString.view,
    ParseString.view, left, left, h.beg, h.end_]
  rfl

theorem Agree.next (h : Agree mem mem' s) (hreads : Reads mem s t s') : Agree mem mem' s' := by
  have heq : s.view mem = s.view mem' := h
  rw [Agree, hreads.view_drop mem', ← heq, ← hreads.view_drop mem]

theorem Agree.reads (h : Agree mem mem' s) (hreads : Reads mem s t s') : Reads mem' s t s' where
  view := by
    have heq : s.view mem = s.view mem' := h
    rw [← heq, hreads.view, h.next hreads]
  beg := hreads.beg
  end_ := hreads.end_
  pos := hreads.pos

theorem Agree.reads_iff (h : Agree mem mem' s) : Reads mem s t s' ↔ Reads mem' s t s' :=
  ⟨h.reads, h.symm.reads⟩

theorem getElem_view {i : ℕ} (hi : i < s.left) : (s.view mem)[i]? = some (mem (s.beg + i)) := by
  have hle : s.beg + i ≤ s.end_ := by
    rw [left] at hi
    omega
  have hreads := @reads_advanceNoCheck mem s i hle
  have hlt : (s.advanceNoCheck mem i hle).beg < (s.advanceNoCheck mem i hle).end_ := by
    rw [left] at hi
    simp only [advanceNoCheck]
    omega
  rw [hreads.view, List.getElem?_append_right (length_chars _ _ _).le, length_chars, Nat.sub_self,
    view_of_lt hlt]
  rfl

theorem Agree.get (h : Agree mem mem' s) {i : ℕ} (hi : i < s.left) : mem (s.beg + i) = mem' (s.beg + i) := by
  have hget := congrArg (·[i]?) h
  simpa only [getElem_view hi, Option.some.injEq] using hget

/-! ## The operations of the cursor -/

theorem Agree.skip (h : Agree mem mem' s) (pred : Char → Bool) : s.skip mem pred = s.skip mem' pred := by
  have heq : s.view mem = s.view mem' := h
  have hreads := @reads_skip mem' pred s
  rw [← heq] at hreads
  exact (h.reads (reads_skip pred s)).unique hreads

theorem Agree.skipUntil (h : Agree mem mem' s) (pred : Char → Bool) : s.skipUntil mem pred = s.skipUntil mem' pred :=
  h.skip _

theorem Agree.after_skip (h : Agree mem mem' s) (pred : Char → Bool) : Agree mem mem' (s.skip mem pred) :=
  h.next (reads_skip pred s)

theorem Agree.checkPred (h : Agree mem mem' s) (pred : Char → Bool) : s.checkPred mem pred = s.checkPred mem' pred := by
  ext s'
  simp only [checkPred_eq_some, h.reads_iff]

theorem Agree.checkString (h : Agree mem mem' s) (text : List Char) :
    s.checkString mem text = s.checkString mem' text := by
  ext s'
  simp only [checkString_eq_some, h.reads_iff]

theorem Agree.advance (h : Agree mem mem' s) (n : ℕ) : s.advance mem n = s.advance mem' n := by
  by_cases hn : n ≤ s.left
  · obtain ⟨s', hs', hreads⟩ := @advance_eq mem s n hn
    have heq : s.view mem = s.view mem' := h
    rw [hs', eq_comm, advance_eq_ok, ← heq]
    exact ⟨hn, h.reads hreads⟩
  · rw [advance_eq_outOfRange (Nat.lt_of_not_le hn), advance_eq_outOfRange (Nat.lt_of_not_le hn)]

theorem Agree.tryParseEnum (h : Agree mem mem' s) (names : List (List Char)) :
    s.tryParseEnum mem names = s.tryParseEnum mem' names := by
  induction names with
  | nil => rfl
  | cons name names ih => rw [ParseString.tryParseEnum, ParseString.tryParseEnum, h.checkString, ih]

theorem Agree.chars (h : Agree mem mem' s) {n : ℕ} (hn : s.beg + n ≤ s.end_) :
    chars mem s.beg n = chars mem' s.beg n := by
  have heq : s.view mem = s.view mem' := h
  rw [← take_view hn, heq, take_view hn]

theorem Agree.tryParseEnumPred (h : Agree mem mem' s) (pred : Char → Bool) (names : List (List Char)) :
    s.tryParseEnumPred mem pred names = s.tryParseEnumPred mem' pred names := by
  induction names with
  | nil => rfl
  | cons name names ih =>
    rw [ParseString.tryParseEnumPred, ParseString.tryParseEnumPred, ih]
    by_cases hle : s.end_ < s.beg + name.length
    · rw [dif_pos hle, dif_pos hle]
    have hle' := Nat.le_of_not_lt hle
    have hend (i : ℕ) (hi : s.beg + i ≤ s.end_) :
        (s.beg + i = s.end_ ∨ pred (mem (s.beg + i))) ↔ (s.beg + i = s.end_ ∨ pred (mem' (s.beg + i))) := by
      by_cases heq : s.beg + i = s.end_
      · exact iff_of_true (.inl heq) (.inl heq)
      · rw [h.get (by rw [left]; omega)]
    have hnext := hend name.length hle'
    have hfirst : (s.beg = s.end_ ∨ pred (mem s.beg)) ↔ (s.beg = s.end_ ∨ pred (mem' s.beg)) := hend 0 s.le
    have hadvance : s.advanceNoCheck mem name.length hle' = s.advanceNoCheck mem' name.length hle' := by
      have hreads := @reads_advanceNoCheck mem' s _ hle'
      rw [← h.chars hle'] at hreads
      exact (h.reads (reads_advanceNoCheck hle')).unique hreads
    rw [dif_neg hle, dif_neg hle]
    simp only [hfirst, hnext, h.chars hle', hadvance]

/-! ## The recognisers -/

theorem Agree.parseKeyword (h : Agree mem mem' s) : parseKeyword mem s = parseKeyword mem' s := by
  rw [Lex.parseKeyword, Lex.parseKeyword, h.tryParseEnumPred]

theorem Agree.parseOper (h : Agree mem mem' s) : parseOper mem s = parseOper mem' s := by
  rw [Lex.parseOper, Lex.parseOper, h.tryParseEnum]

theorem Agree.parseIdent (h : Agree mem mem' s) : parseIdent mem s = parseIdent mem' s := by
  rw [Lex.parseIdent, Lex.parseIdent, h.checkPred]
  refine Option.map_congr fun s' hs' ↦ ?_
  obtain ⟨c, -, hreads⟩ := checkPred_eq_some.mp hs'
  exact (h.symm.next hreads).symm.skip _

theorem Agree.checkChar (h : Agree mem mem' s) (c : Char) : s.checkChar mem c = s.checkChar mem' c :=
  h.checkPred _

theorem Agree.quotedStep (h : Agree mem mem' s) (quote : Char) (message : String) :
    quotedStep mem quote message s = quotedStep mem' quote message s := by
  have hafter : Agree mem mem' (s.skipUntil mem fun c ↦ c = '\n' || c = '\\' || c = quote) := h.after_skip _
  rw [Lex.quotedStep, Lex.quotedStep, ← h.skipUntil]
  generalize (s.skipUntil mem fun c ↦ c = '\n' || c = '\\' || c = quote) = s₁ at hafter ⊢
  rw [← hafter.checkChar, ← hafter.checkChar]
  cases hescaped : s₁.checkChar mem '\\' with
  | none => rfl
  | some escaped =>
    have hnext := (hafter.next (checkChar_eq_some.mp hescaped)).advance 1
    simp only [hnext]

theorem Agree.parseQuoted (h : Agree mem mem' s) (quote : Char) (message : String) :
    parseQuoted mem s quote message = parseQuoted mem' s quote message := by
  rw [Lex.parseQuoted, Lex.parseQuoted, ← h.checkChar]
  cases hopened : s.checkChar mem quote with
  | none => rfl
  | some opened =>
    have hrun : (quotedLoop mem quote message).run opened = (quotedLoop mem' quote message).run opened := by
      apply ShrinkingLoop.run_congr (P := Agree mem mem') _ (fun s hs ↦ hs.quotedStep quote message)
        (h.next (checkChar_eq_some.mp hopened))
      intro s s' hs hnext
      obtain ⟨t, -, hreads⟩ := (quotedStep_cases hnext).reads
      exact hs.next hreads
    simp only [hrun]

theorem Agree.commentStep {st : ParseString × UInt32} (h : Agree mem mem' st.1) (loc : LineCol) :
    commentStep mem loc st = commentStep mem' loc st := by
  have hafter : Agree mem mem' (st.1.skipUntil mem fun c ↦ c = '*' || c = '/') := h.after_skip _
  rw [Lex.commentStep, Lex.commentStep, ← h.skipUntil]
  generalize (st.1.skipUntil mem fun c ↦ c = '*' || c = '/') = s₁ at hafter ⊢
  rw [← hafter.checkString, ← hafter.checkString, ← hafter.advance]

theorem Agree.parseMultiComment (h : Agree mem mem' s) : parseMultiComment mem s = parseMultiComment mem' s := by
  rw [Lex.parseMultiComment, Lex.parseMultiComment, ← h.checkString]
  cases hopened : s.checkString mem ['/', '*'] with
  | none => rfl
  | some opened =>
    have hrun : (commentLoop mem s.lineCol).run (opened, 1) = (commentLoop mem' s.lineCol).run (opened, 1) := by
      apply ShrinkingLoop.run_congr (P := fun st ↦ Agree mem mem' st.1) _ (fun st hst ↦ hst.commentStep s.lineCol)
        (h.next (checkString_eq_some.mp hopened))
      intro st st' hst hnext
      obtain ⟨t, -, hreads⟩ := (commentStep_cases hnext).reads
      exact hst.next hreads
    simp only [hrun]

theorem Agree.parseLineComment (h : Agree mem mem' s) : parseLineComment mem s = parseLineComment mem' s := by
  rw [Lex.parseLineComment, Lex.parseLineComment, h.checkString]
  refine Option.map_congr fun s' hs' ↦ ?_
  exact (h.symm.next (checkString_eq_some.mp hs')).symm.skipUntil _

/-! ## The number recogniser -/

/-- The recogniser, told by the number that is found. -/
theorem parseNumber_eq (hempty : s.empty = false) (loc : LineCol) :
    parseNumber mem s loc =
      match numberMatch (s.view mem) with
      | none => .ok none
      | some (ty, size, num) =>
        match hasValidSuffix (mem (s.beg + size)) ty num loc with
        | .error e => .error e
        | .ok suffix => (s.advance mem (if suffix then size + 1 else size)).map some := by
  rw [parseNumber, validNumberLiteral_eq hempty]
  cases hmatch : numberMatch (s.view mem) with
  | none => rfl
  | some found =>
    obtain ⟨ty, size, num⟩ := found
    obtain ⟨n, hn⟩ := Nat.exists_eq_add_one.mpr (numberMatch_le hmatch).1
    dsimp only
    cases hasValidSuffix (mem (s.beg + size)) ty num loc with
    | error e => rfl
    | ok suffix => cases suffix <;> simp [Except.map, hn]

/-- No number reaches to the end of the text. -/
def NumberEnds (text : List Char) : Prop := ∀ ty num, numberMatch text ≠ some (ty, text.length, num)

theorem NumberEnds.lt (hends : NumberEnds (s.view mem)) {ty : NumberType} {size : ℕ} {num : Floating}
    (h : numberMatch (s.view mem) = some (ty, size, num)) : size < s.left := by
  rw [← @length_view mem s]
  refine Nat.lt_of_le_of_ne (numberMatch_le h).2 fun heq ↦ ?_
  rw [heq] at h
  exact hends ty num h

theorem Agree.parseNumber (h : Agree mem mem' s) (hempty : s.empty = false) (hends : NumberEnds (s.view mem))
    (loc : LineCol) : parseNumber mem s loc = parseNumber mem' s loc := by
  have heq : s.view mem = s.view mem' := h
  rw [parseNumber_eq hempty, parseNumber_eq hempty, ← heq]
  cases hmatch : numberMatch (s.view mem) with
  | none => rfl
  | some found => simp only [h.get (hends.lt hmatch), h.advance]

theorem parseNumber_error (hempty : s.empty = false) (hends : NumberEnds (s.view mem)) {loc : LineCol} {e : Thrown}
    (h : parseNumber mem s loc = .error e) : ∃ message, e = .fatal loc message := by
  rw [parseNumber_eq hempty] at h
  cases hmatch : numberMatch (s.view mem) with
  | none =>
    rw [hmatch] at h
    cases h
  | some found =>
    obtain ⟨ty, size, num⟩ := found
    have hlt := hends.lt hmatch
    rw [hmatch] at h
    dsimp only at h
    cases hsuffix : hasValidSuffix (mem (s.beg + size)) ty num loc with
    | error e' =>
      rw [hsuffix] at h
      cases h
      exact hasValidSuffix_error hsuffix
    | ok suffix =>
      obtain ⟨s', hs', -⟩ := @advance_eq mem s (if suffix then size + 1 else size) (by split <;> omega)
      rw [hsuffix] at h
      dsimp only at h
      rw [hs'] at h
      cases h

section

variable {ty : NumberType} {num : Floating} {loc : LineCol}

theorem hasValidSuffix_real : hasValidSuffix 'r' ty num loc =
    if inRange .real ty num then .ok true
    else .error (.fatal loc "Number literal cannot be represented as real") := rfl

theorem hasValidSuffix_null : hasValidSuffix '\x00' ty num loc = .ok false := rfl

/-- After a number up to the end, a suffix behind the end takes the cursor too far, unless the number is refused. -/
theorem parseNumber_end_error (hempty : s.empty = false) (hmatch : numberMatch (s.view mem) = some (ty, s.left, num))
    (hend : mem s.end_ = 'r') : ∃ e, parseNumber mem s loc = .error e := by
  have hbeg : s.beg + s.left = s.end_ := Nat.add_sub_cancel' s.le
  rw [parseNumber_eq hempty, hmatch]
  dsimp only
  rw [hbeg, hend, hasValidSuffix_real]
  split_ifs
  · dsimp only
    rw [if_pos rfl, advance_eq_outOfRange (Nat.lt_succ_self _)]
    exact ⟨_, rfl⟩
  · exact ⟨_, rfl⟩

theorem parseNumber_end_ok (hempty : s.empty = false) (hmatch : numberMatch (s.view mem) = some (ty, s.left, num))
    (hend : mem s.end_ = '\x00') : ∃ s', parseNumber mem s loc = .ok (some s') ∧ s'.left = 0 := by
  have hbeg : s.beg + s.left = s.end_ := Nat.add_sub_cancel' s.le
  obtain ⟨s', hs', -⟩ := @advance_eq mem s s.left (Nat.le_refl _)
  rw [parseNumber_eq hempty, hmatch]
  dsimp only
  rw [hbeg, hend, hasValidSuffix_null]
  dsimp only
  rw [if_neg Bool.false_ne_true, hs']
  refine ⟨s', rfl, ?_⟩
  have := left_of_advance hs'
  omega

end

end

/-! ## Literals that end in a backslash -/

/-- The body of a quoted literal reaches the end of the text behind a backslash that escapes nothing. -/
def dangling (quote : Char) : List Char → Bool
  | [] => false
  | [c] => c = '\\'
  | c :: c' :: rest =>
    if c = '\\' then dangling quote rest
    else c ≠ '\n' && c ≠ quote && dangling quote (c' :: rest)

section

variable {mem : Memory} {s : ParseString} {quote : Char} {message : String}

theorem dangling_cons {c : Char} {rest : List Char} (hc : c ≠ '\n' ∧ c ≠ '\\' ∧ c ≠ quote) :
    dangling quote (c :: rest) = dangling quote rest := by
  obtain ⟨hline, hescape, hquote⟩ := hc
  cases rest <;> simp [dangling, hline, hescape, hquote]

theorem dangling_append {t u : List Char} (ht : ∀ c ∈ t, c ≠ '\n' ∧ c ≠ '\\' ∧ c ≠ quote) :
    dangling quote (t ++ u) = dangling quote u := by
  induction t with
  | nil => rfl
  | cons c t ih =>
    rw [List.cons_append, dangling_cons (ht c List.mem_cons_self), ih fun c hc ↦ ht c (List.mem_cons_of_mem _ hc)]

theorem dangling_closed {c : Char} {rest : List Char} (hc : c = '\n' ∨ c = quote) (hquote : quote ≠ '\\') :
    dangling quote (c :: rest) = false := by
  have hescape : c ≠ '\\' := by
    rintro rfl
    exact hc.elim (by decide) fun h ↦ hquote h.symm
  cases rest with
  | nil => exact decide_eq_false hescape
  | cons c' rest =>
    rw [dangling, if_neg hescape]
    rcases hc with rfl | rfl <;> simp

/-- The loop over the body throws `std::out_of_range` exactly at such an end. -/
theorem quotedLoop_outOfRange (hquote : quote ≠ '\\') :
    (quotedLoop mem quote message).run s = .error .outOfRange ↔ dangling quote (s.view mem) = true := by
  induction s using ShrinkingLoop.induction (quotedLoop mem quote message) with
  | h s ih =>
    generalize hbody : (quotedLoop mem quote message).body s = r
    cases quotedStep_cases hbody with
    | closed ht hreads =>
      rw [ShrinkingLoop.run_of_return hbody, hreads.view, List.append_assoc, dangling_append ht, List.singleton_append,
        dangling_closed (.inr rfl) hquote]
      exact iff_of_false nofun nofun
    | escaped ht hreads =>
      rw [ShrinkingLoop.run_of_next hbody, ih _ hbody, hreads.view, List.append_assoc, dangling_append ht]
      rfl
    | outOfRange ht hview =>
      rw [ShrinkingLoop.run_of_error hbody, hview, dangling_append ht]
      exact iff_of_true rfl rfl
    | @unterminated t rest loc ht hview hhead =>
      rw [ShrinkingLoop.run_of_error hbody, hview, dangling_append ht]
      refine iff_of_false nofun ?_
      cases rest with
      | nil => exact Bool.false_ne_true
      | cons c rest =>
        rw [dangling_closed (.inl (hhead c rfl)) hquote]
        exact Bool.false_ne_true

theorem quotedLoop_error {e : Thrown} (h : (quotedLoop mem quote message).run s = .error e) :
    e = .outOfRange ∨ ∃ loc, e = .fatal loc message := by
  obtain ⟨last, -, hbody⟩ := ShrinkingLoop.run_eq_error.mp h
  cases quotedStep_cases hbody with
  | outOfRange => exact .inl rfl
  | unterminated => exact .inr ⟨_, rfl⟩

theorem parseQuoted_cons {opened : ParseString} (h : Reads mem s [quote] opened) :
    parseQuoted mem s quote message = ((quotedLoop mem quote message).run opened).map some := by
  rw [parseQuoted, checkChar_eq_some.mpr h]

theorem parseQuoted_none {c : Char} {rest : List Char} (hview : s.view mem = c :: rest) (hc : c ≠ quote) :
    parseQuoted mem s quote message = .ok none := by
  have hnone : s.checkChar mem quote = none := checkChar_eq_none.mpr fun t ht ↦
    hc (List.cons.inj (hview.symm.trans ht)).1
  rw [parseQuoted, hnone]

theorem parseQuoted_error {e : Thrown} (hquote : quote ≠ '\\') (h : parseQuoted mem s quote message = .error e) :
    (∃ rest, s.view mem = quote :: rest ∧ dangling quote rest = true) ∨ ∃ loc, e = .fatal loc message := by
  cases hopened : s.checkChar mem quote with
  | none =>
    rw [parseQuoted, hopened] at h
    cases h
  | some opened =>
    have hreads := checkChar_eq_some.mp hopened
    rw [parseQuoted_cons hreads] at h
    have hrun := map_eq_error.mp h
    rcases quotedLoop_error hrun with rfl | hfatal
    · exact .inl ⟨_, hreads.view, (quotedLoop_outOfRange hquote).mp hrun⟩
    · exact .inr hfatal

end

/-! ## Items -/

/-- The text begins with a number that reaches to its end, or with a literal that ends in a backslash. -/
def Hazard (text : List Char) : Prop :=
  (∃ ty num, numberMatch text = some (ty, text.length, num)) ∨
    ∃ quote ∈ ['"', '\''], ∃ rest, text = quote :: rest ∧ dangling quote rest = true

theorem hazard_nil : ¬Hazard [] := by
  rintro (⟨ty, num, h⟩ | ⟨quote, -, rest, h, -⟩)
  · rw [numberMatch_nil] at h
    cases h
  · cases h

section

variable {mem mem' : Memory} {s s' : ParseString} {c : Char} {t rest : List Char}

theorem not_prefix_cons (h : t.head? ≠ some c) (hne : t ≠ []) : ¬t <+: c :: rest := by
  rintro ⟨u, hu⟩
  obtain ⟨c', t', rfl⟩ := List.exists_cons_of_ne_nil hne
  exact h (congrArg some (List.cons.inj hu).1)

theorem ParseString.Reads.prefix_view (h : Reads mem s t s') : t <+: s.view mem := ⟨_, h.view.symm⟩

theorem parseKeyword_eq_none (hview : s.view mem = c :: rest) (h : ∀ t ∈ keywords, t.head? ≠ some c) :
    parseKeyword mem s = none := by
  rw [Option.eq_none_iff_forall_ne_some]
  intro s' hs'
  obtain ⟨t, ht, hreads, -⟩ := parseKeyword_reads hs'
  exact not_prefix_cons (h t ht) (nonempty_of_mem_keywords ht) (hview ▸ hreads.prefix_view)

theorem parseOper_eq_none (hview : s.view mem = c :: rest) (h : ∀ t ∈ oper, t.head? ≠ some c) :
    parseOper mem s = none := by
  rw [Option.eq_none_iff_forall_ne_some]
  intro s' hs'
  obtain ⟨t, ht, hreads⟩ := parseOper_reads hs'
  exact not_prefix_cons (h t ht) (nonempty_of_mem_oper ht) (hview ▸ hreads.prefix_view)

theorem parseIdent_eq_none (hview : s.view mem = c :: rest) (h : startIdent c = false) : parseIdent mem s = none := by
  rw [Option.eq_none_iff_forall_ne_some]
  intro s' hs'
  obtain ⟨c', t, hc', hview', -⟩ := parseIdent_reads hs'
  rw [← (List.cons.inj (hview.symm.trans hview')).1, h] at hc'
  cases hc'

theorem parseLineComment_eq_none (hview : s.view mem = c :: rest) (h : c ≠ '/') : parseLineComment mem s = none := by
  rw [Option.eq_none_iff_forall_ne_some]
  intro s' hs'
  obtain ⟨s₁, hreads, -⟩ := parseLineComment_eq_some.mp hs'
  exact not_prefix_cons (c := c) (t := '/' :: _) (by simpa using Ne.symm h) (by simp) (hview ▸ hreads.prefix_view)

theorem parseMultiComment_eq_none (hview : s.view mem = c :: rest) (h : c ≠ '/') :
    parseMultiComment mem s = .ok none := by
  have hnone : s.checkString mem ['/', '*'] = none := checkString_eq_none.mpr fun hprefix ↦
    not_prefix_cons (c := c) (t := '/' :: _) (by simpa using Ne.symm h) (by simp) (hview ▸ hprefix)
  rw [parseMultiComment, hnone]

theorem parseMultiComment_error {e : Thrown} (h : parseMultiComment mem s = .error e) :
    ∃ loc message, e = .fatal loc message := by
  rw [parseMultiComment] at h
  split at h
  · obtain ⟨last, -, hbody⟩ := ShrinkingLoop.run_eq_error.mp (map_eq_error.mp h)
    cases commentStep_cases hbody with
    | unterminated => exact ⟨_, _, rfl⟩
  · cases h

/-- What `NoNumber` says, and no letter that `nan` begins with. -/
def beginsNoNumber (c : Char) : Bool :=
  !isspace c && !isDigitOf 10 c && c ≠ '+' && c ≠ '-' && c ≠ '.' && c ≠ '\x00' && c.toLower ≠ 'n'

theorem numberMatch_of_begins (hc : beginsNoNumber c = true) : numberMatch (c :: rest) = none := by
  simp only [beginsNoNumber, Bool.and_eq_true, Bool.not_eq_true', decide_eq_true_eq] at hc
  obtain ⟨⟨⟨⟨⟨⟨hspace, hdigit⟩, hplus⟩, hminus⟩, hpoint⟩, hzero⟩, hnan⟩ := hc
  refine numberMatch_cons ⟨hspace, hdigit, hplus, hminus, hpoint⟩ hzero (decide_eq_false fun heq ↦ ?_)
  exact hnan (List.cons.inj heq).1

/-- The characters that begin comments, quoted literals and keywords begin no number. -/
theorem numberMatch_eq_none (hc : c ∈ ['/', '"', '\''] ∨ ∃ t ∈ keywords, t.head? = some c) :
    numberMatch (c :: rest) = none := by
  apply numberMatch_of_begins
  rcases hc with hc | ⟨t, ht, hc⟩
  · have hall : ['/', '"', '\''].all beginsNoNumber = true := by decide +kernel
    exact List.all_eq_true.mp hall c hc
  · have hall : (keywords.all fun t ↦ t.head?.all beginsNoNumber) = true := by decide +kernel
    exact (Option.all_eq_true _ _).mp (List.all_eq_true.mp hall t ht) c hc

theorem parseNumber_none (hview : s.view mem = c :: rest)
    (hc : c ∈ ['/', '"', '\''] ∨ ∃ t ∈ keywords, t.head? = some c) (loc : LineCol) :
    parseNumber mem s loc = .ok none := by
  have hempty : s.empty = false := Bool.eq_false_iff.mpr fun h ↦ by
    rw [view_eq_nil.mpr h] at hview
    cases hview
  rw [parseNumber_eq hempty, hview, numberMatch_eq_none hc]

/-- Where a number begins, the item is what `parseNumber` reads. -/
theorem parseItem_number (hnumber : numberMatch (s.view mem) ≠ none) : parseItem mem s =
    (firstToken s ((recognisers mem s).drop 1)).map fun found ↦ (some found.1, found.2) := by
  obtain ⟨c, rest, hview⟩ : ∃ c rest, s.view mem = c :: rest := List.exists_cons_of_ne_nil fun hnil ↦
    hnumber (by rw [hnil, numberMatch_nil])
  rw [hview] at hnumber
  have hslash : c ≠ '/' := fun h ↦ hnumber (numberMatch_eq_none (.inl (h ▸ List.mem_cons_self)))
  have hkeyword : parseKeyword mem s = none :=
    parseKeyword_eq_none hview fun t ht heq ↦ hnumber (numberMatch_eq_none (.inr ⟨t, ht, heq⟩))
  rw [parseItem, parseLineComment_eq_none hview hslash, parseMultiComment_eq_none hview hslash]
  dsimp only
  rw [recognisers, hkeyword]
  rfl

/-- Where a quote begins, the item is what the recogniser of the literal reads. -/
theorem parseItem_quote (hc : c ∈ ['"', '\'']) (hview : s.view mem = c :: rest) : parseItem mem s =
    (firstToken s ((recognisers mem s).drop 4)).map fun found ↦ (some found.1, found.2) := by
  have hhead : c ≠ '/' ∧ (∀ t ∈ keywords, t.head? ≠ some c) ∧ (∀ t ∈ oper, t.head? ≠ some c) ∧
      startIdent c = false := by
    rcases List.mem_pair.mp hc with rfl | rfl <;> decide +kernel
  obtain ⟨hslash, hkeywords, hoper, hident⟩ := hhead
  rw [parseItem, parseLineComment_eq_none hview hslash, parseMultiComment_eq_none hview hslash]
  dsimp only
  rw [recognisers, parseKeyword_eq_none hview hkeywords, parseNumber_none hview (.inl (List.mem_cons_of_mem _ hc)),
    parseOper_eq_none hview hoper, parseIdent_eq_none hview hident]
  rfl

theorem Agree.parseItem (h : Agree mem mem' s) (hempty : s.empty = false) (hno : ¬Hazard (s.view mem)) :
    parseItem mem s = parseItem mem' s := by
  have hends : NumberEnds (s.view mem) := fun ty num hmatch ↦ hno (.inl ⟨ty, num, hmatch⟩)
  rw [Lex.parseItem, Lex.parseItem, recognisers, recognisers, ← h.parseLineComment, ← h.parseMultiComment,
    ← h.parseKeyword, ← h.parseNumber hempty hends, ← h.parseOper, ← h.parseIdent, parseString, parseString,
    parseChar, parseChar, ← h.parseQuoted, ← h.parseQuoted]

theorem firstToken_error {e : Thrown} : {rs : List (TokenType × Except Thrown (Option ParseString))} →
    firstToken s rs = .error e → (∃ type, (type, .error e) ∈ rs) ∨ ∃ loc message, e = .fatal loc message
  | [], h => by
    cases h
    exact .inr ⟨_, _, rfl⟩
  | (type, .error e') :: rs, h => by
    cases h
    exact .inl ⟨type, List.mem_cons_self⟩
  | (_, .ok (some s₁)) :: rs, h => by cases h
  | (_, .ok none) :: rs, h =>
    (@firstToken_error e rs h).imp_left fun ⟨type, hmem⟩ ↦ ⟨type, List.mem_cons_of_mem _ hmem⟩

theorem parseItem_error (hempty : s.empty = false) (hno : ¬Hazard (s.view mem)) {e : Thrown}
    (h : Lex.parseItem mem s = .error e) : ∃ loc message, e = .fatal loc message := by
  rw [Lex.parseItem] at h
  split at h
  · cases h
  split at h
  · cases h
    exact parseMultiComment_error ‹_›
  · cases h
  · rcases firstToken_error (map_eq_error.mp h) with ⟨type, hmem⟩ | hfatal
    · simp only [recognisers, List.mem_cons, Prod.mk.injEq, reduceCtorEq, and_false, false_or, List.not_mem_nil,
        or_false] at hmem
      rcases hmem with ⟨-, h⟩ | ⟨-, h⟩ | ⟨-, h⟩
      · exact ⟨_, parseNumber_error hempty (fun ty num hmatch ↦ hno (.inl ⟨ty, num, hmatch⟩)) h.symm⟩
      · rcases parseQuoted_error (by decide) h.symm with ⟨rest, hview, hdangling⟩ | ⟨loc, rfl⟩
        · exact absurd (.inr ⟨'"', by simp, rest, hview, hdangling⟩) hno
        · exact ⟨_, _, rfl⟩
      · rcases parseQuoted_error (by decide) h.symm with ⟨rest, hview, hdangling⟩ | ⟨loc, rfl⟩
        · exact absurd (.inr ⟨'\'', by simp, rest, hview, hdangling⟩) hno
        · exact ⟨_, _, rfl⟩
    · exact hfatal

theorem parseItem_end_error {ty : NumberType} {num : Floating} (hempty : s.empty = false)
    (hmatch : numberMatch (s.view mem) = some (ty, s.left, num)) (hend : mem s.end_ = 'r') :
    ∃ e, Lex.parseItem mem s = .error e := by
  obtain ⟨e, he⟩ := @parseNumber_end_error mem s ty num s.lineCol hempty hmatch hend
  rw [parseItem_number (by rw [hmatch]; exact Option.some_ne_none _), recognisers, List.drop_succ_cons, List.drop_zero,
    he]
  exact ⟨e, rfl⟩

theorem parseItem_end_ok {ty : NumberType} {num : Floating} (hempty : s.empty = false)
    (hmatch : numberMatch (s.view mem) = some (ty, s.left, num)) (hend : mem s.end_ = '\x00') :
    ∃ item s', Lex.parseItem mem s = .ok (item, s') ∧ s'.left = 0 := by
  obtain ⟨s', hs', hleft⟩ := @parseNumber_end_ok mem s ty num s.lineCol hempty hmatch hend
  rw [parseItem_number (by rw [hmatch]; exact Option.some_ne_none _), recognisers, List.drop_succ_cons, List.drop_zero,
    hs']
  exact ⟨_, s', rfl, hleft⟩

theorem parseItem_dangling {quote : Char} (hquote : quote ∈ ['"', '\'']) (hview : s.view mem = quote :: rest)
    (hdangling : dangling quote rest = true) : Lex.parseItem mem s = .error .outOfRange := by
  obtain ⟨opened, hreads⟩ := @exists_reads mem s [quote] rest hview
  have hloop (message : String) : parseQuoted mem s quote message = .error .outOfRange := by
    have hescape : quote ≠ '\\' := by rcases List.mem_pair.mp hquote with rfl | rfl <;> decide
    rw [parseQuoted_cons hreads, (quotedLoop_outOfRange hescape).mpr (hreads.view_eq hview ▸ hdangling)]
    rfl
  rw [parseItem_quote hquote hview, recognisers]
  simp only [List.drop_succ_cons, List.drop_zero]
  rcases List.mem_pair.mp hquote with rfl | rfl
  · rw [parseString, hloop]
    rfl
  · rw [parseString, parseQuoted_none hview (by decide), parseChar, hloop]
    rfl

end

/-! ## The main loop -/

section

variable {mem mem' : Memory} {s₀ s : ParseString} {tokens : List Token} {t : List Char}

theorem chars_congr {a n : ℕ} (h : ∀ b < a + n, mem b = mem' b) : chars mem a n = chars mem' a n := by
  induction n generalizing a with
  | zero => rfl
  | succ n ih => rw [chars, chars, h a (by omega), ih fun b hb ↦ h b (by omega)]

/-- The character behind the end is not part of what is left. -/
theorem agree_update (c : Char) : Agree mem (Function.update mem s₀.end_ c) s₀ := by
  refine chars_congr fun b hb ↦ ?_
  have hle := s₀.le
  rw [left] at hb
  exact (Function.update_of_ne (show b ≠ s₀.end_ by omega) c mem).symm

theorem tokenizeStep_of_item (h : (s.skipWhitespace mem).empty = false) : tokenizeStep mem (tokens, s) =
    (parseItem mem (s.skipWhitespace mem)).map fun item ↦ .inr (tokens ++ item.1.toList, item.2) := by
  rw [tokenizeStep]
  dsimp only
  rw [if_neg (by rw [h]; exact Bool.false_ne_true)]

theorem tokenizeStep_of_empty (h : (s.skipWhitespace mem).empty = true) :
    tokenizeStep mem (tokens, s) = .ok (.inl tokens) := by
  rw [tokenizeStep]
  dsimp only
  rw [if_pos h]

theorem Agree.tokenizeStep (h : Agree mem mem' s) (hno : ¬Hazard ((s.skipWhitespace mem).view mem)) :
    tokenizeStep mem (tokens, s) = tokenizeStep mem' (tokens, s) := by
  have hskip : s.skipWhitespace mem = s.skipWhitespace mem' := h.skip _
  have hafter : Agree mem mem' (s.skipWhitespace mem) := h.after_skip _
  cases hempty : (s.skipWhitespace mem).empty with
  | true => rw [tokenizeStep_of_empty hempty, tokenizeStep_of_empty (hskip ▸ hempty)]
  | false =>
    rw [tokenizeStep_of_item hempty, tokenizeStep_of_item (hskip ▸ hempty), ← hskip, hafter.parseItem hempty hno]

theorem tokenizeStep_reads {st st' : List Token × ParseString} (h : (tokenizeLoop mem).Next st st') :
    ∃ t, Reads mem st.2 t st'.2 := by
  obtain ⟨tokens, s⟩ := st
  have hbody : tokenizeStep mem (tokens, s) = .ok (.inr st') := h
  cases hempty : (s.skipWhitespace mem).empty with
  | true =>
    rw [tokenizeStep_of_empty hempty] at hbody
    cases hbody
  | false =>
    rw [tokenizeStep_of_item hempty] at hbody
    obtain ⟨⟨item, next⟩, hitem, heq⟩ := map_eq_ok.mp hbody
    cases heq
    obtain ⟨t, -, hreads⟩ := parseItem_reads hitem
    exact ⟨_, (reads_skip isspace s).trans hreads⟩

/-- Tokens or a `FatalError`. -/
def Clean (r : Except Thrown (List Token)) : Prop :=
  (∃ tokens, r = .ok tokens) ∨ ∃ loc message, r = .error (.fatal loc message)

/-- From this state the loop ends cleanly, whatever stands outside of what was left at the start. -/
def StaysInsideFrom (mem : Memory) (s₀ : ParseString) (st : List Token × ParseString) : Prop :=
  Clean ((tokenizeLoop mem).run st) ∧
    ∀ mem', Agree mem mem' s₀ → (tokenizeLoop mem').run st = (tokenizeLoop mem).run st

theorem StaysInsideFrom.not_hazard (h : StaysInsideFrom mem s₀ (tokens, s)) (hreads : Reads mem s₀ t s) :
    ¬Hazard ((s.skipWhitespace mem).view mem) := by
  obtain ⟨hclean, hsame⟩ := h
  intro hhazard
  have hempty : (s.skipWhitespace mem).empty = false := Bool.eq_false_iff.mpr fun hempty ↦
    hazard_nil (view_eq_nil.mpr hempty ▸ hhazard)
  rcases hhazard with ⟨ty, num, hmatch⟩ | ⟨quote, hquote, rest, hview, hdangling⟩
  · rw [length_view] at hmatch
    have hskips := hreads.trans (reads_skip isspace s)
    have hprobe (c : Char) : ∃ mem', Agree mem mem' s₀ ∧ s.skipWhitespace mem' = s.skipWhitespace mem ∧
        numberMatch ((s.skipWhitespace mem).view mem') = some (ty, (s.skipWhitespace mem).left, num) ∧
          mem' (s.skipWhitespace mem).end_ = c := by
      have hagree := @agree_update mem s₀ c
      have hview : (s.skipWhitespace mem).view mem = (s.skipWhitespace mem).view _ := hagree.next hskips
      exact ⟨_, hagree, ((hagree.next hreads).skip isspace).symm, hview ▸ hmatch,
        (congrArg _ hskips.end_).trans (Function.update_self s₀.end_ c mem)⟩
    -- with a suffix behind the end the run fails, with none it does not
    obtain ⟨withSuffix, hagree, hskip, hmatch', hend⟩ := hprobe 'r'
    obtain ⟨e, he⟩ := parseItem_end_error hempty hmatch' hend
    have herror : (tokenizeLoop withSuffix).run (tokens, s) = .error e := by
      refine ShrinkingLoop.run_of_error ((tokenizeStep_of_item (hskip ▸ hempty)).trans ?_)
      rw [hskip, he]
      rfl
    obtain ⟨without, hagree', hskip', hmatch'', hend'⟩ := hprobe '\x00'
    obtain ⟨item, next, hitem, hleft⟩ := parseItem_end_ok hempty hmatch'' hend'
    have hok : ∃ tokens', (tokenizeLoop without).run (tokens, s) = .ok tokens' := by
      have hnext : (tokenizeLoop without).Next (tokens, s) (tokens ++ item.toList, next) := by
        refine (tokenizeStep_of_item (hskip' ▸ hempty)).trans ?_
        rw [hskip', hitem]
        rfl
      have hnil : (next.skipWhitespace without).view without = [] := by
        rw [skipWhitespace, view_skip, List.eq_nil_of_length_eq_zero (length_view.trans hleft)]
        rfl
      exact ⟨_, (ShrinkingLoop.run_of_next hnext).trans
        (ShrinkingLoop.run_of_return (tokenizeStep_of_empty (view_eq_nil.mp hnil)))⟩
    obtain ⟨tokens', hok⟩ := hok
    cases herror.symm.trans ((hsame _ hagree).trans ((hsame _ hagree').symm.trans hok))
  · have hrun : (tokenizeLoop mem).run (tokens, s) = .error .outOfRange := by
      refine ShrinkingLoop.run_of_error ((tokenizeStep_of_item hempty).trans ?_)
      rw [parseItem_dangling hquote hview hdangling]
      rfl
    rw [hrun] at hclean
    rcases hclean with ⟨_, h⟩ | ⟨_, _, h⟩ <;> cases h

theorem StaysInsideFrom.next {st st' : List Token × ParseString} (h : StaysInsideFrom mem s₀ st)
    (hreads : Reads mem s₀ t st.2) (hnext : (tokenizeLoop mem).Next st st') : StaysInsideFrom mem s₀ st' := by
  have hno := h.not_hazard hreads
  obtain ⟨hclean, hsame⟩ := h
  refine ⟨ShrinkingLoop.run_of_next hnext ▸ hclean, fun mem' hagree ↦ ?_⟩
  have hnext' : (tokenizeLoop mem').Next st st' := ((hagree.next hreads).tokenizeStep hno).symm.trans hnext
  rw [← ShrinkingLoop.run_of_next hnext, ← ShrinkingLoop.run_of_next hnext', hsame mem' hagree]

/-- A run stays inside exactly when no item that it comes to is a hazard. -/
theorem staysInsideFrom_iff {st : List Token × ParseString} : StaysInsideFrom mem st.2 st ↔
    ∀ tokens s, (tokenizeLoop mem).Reaches st (tokens, s) → ¬Hazard ((s.skipWhitespace mem).view mem) := by
  constructor
  · intro h tokens s hreach
    have hinv : StaysInsideFrom mem st.2 (tokens, s) ∧ ∃ t, Reads mem st.2 t s := by
      apply hreach.invariant (P := fun st' ↦ StaysInsideFrom mem st.2 st' ∧ ∃ t, Reads mem st.2 t st'.2) _
        ⟨h, [], .refl mem st.2⟩
      rintro st₁ st₂ ⟨hstays, t, hreads⟩ hnext
      obtain ⟨u, hu⟩ := tokenizeStep_reads hnext
      exact ⟨hstays.next hreads hnext, t ++ u, hreads.trans hu⟩
    obtain ⟨hstays, t, hreads⟩ := hinv
    exact hstays.not_hazard hreads
  · intro h
    constructor
    · cases hrun : (tokenizeLoop mem).run st with
      | ok tokens => exact .inl ⟨tokens, rfl⟩
      | error e =>
        obtain ⟨⟨tokens, s⟩, hreach, hbody⟩ := ShrinkingLoop.run_eq_error.mp hrun
        have hbody' : tokenizeStep mem (tokens, s) = .error e := hbody
        cases hempty : (s.skipWhitespace mem).empty with
        | true =>
          rw [tokenizeStep_of_empty hempty] at hbody'
          cases hbody'
        | false =>
          rw [tokenizeStep_of_item hempty] at hbody'
          obtain ⟨loc, message, rfl⟩ := parseItem_error hempty (h tokens s hreach) (map_eq_error.mp hbody')
          exact .inr ⟨loc, message, rfl⟩
    · intro mem' hagree
      symm
      apply ShrinkingLoop.run_congr (P := fun st' ↦ Agree mem mem' st'.2 ∧ (tokenizeLoop mem).Reaches st st') _
        (fun st' hst' ↦ hst'.1.tokenizeStep (h _ _ hst'.2)) ⟨hagree, .refl⟩
      rintro st₁ st₂ ⟨hagree₁, hreach⟩ hnext
      obtain ⟨t, hreads⟩ := tokenizeStep_reads hnext
      exact ⟨hagree₁.next hreads, hreach.tail hnext⟩

end

/-! ## The tokenizer -/

namespace SourceView

def start (source : SourceView) (data : ℕ) : ParseString :=
  ⟨data, data + source.size, .first, source.le_end data⟩

/-- The memories hold the same characters inside the view. -/
def SameText (source : SourceView) (mem mem' : Memory) : Prop :=
  ∀ data, source.data = some data → chars mem data source.size = chars mem' data source.size

/-- The tokenizer fails cleanly and uses nothing but the characters of the view. -/
structure StaysInside (source : SourceView) (mem : Memory) : Prop where
  consumes : ∀ {st st'}, (tokenizeLoop mem).Next st st' → st'.2.left < st.2.left
  clean : Clean (tokenize mem source)
  inside : ∀ mem', source.SameText mem mem' → tokenize mem' source = tokenize mem source

theorem agree_start (source : SourceView) {data : ℕ} (hdata : source.data = some data) {mem mem' : Memory} :
    Agree mem mem' (source.start data) ↔ source.SameText mem mem' := by
  have hleft : (source.start data).left = source.size := Nat.add_sub_cancel_left data source.size
  rw [Agree, view, view, hleft, SameText]
  constructor
  · intro h data' hdata'
    rw [Option.some.inj (hdata'.symm.trans hdata)]
    exact h
  · exact fun h ↦ h data hdata

/-- The tokenizer stays inside its view exactly when the view is not null and no item that it comes to is a number
that reaches to the end of the view, or a literal that ends there in a backslash. -/
theorem staysInside_iff (source : SourceView) (mem : Memory) : source.StaysInside mem ↔
    ∃ data, source.data = some data ∧ ∀ tokens s,
      (tokenizeLoop mem).Reaches ([], source.start data) (tokens, s) → ¬Hazard ((s.skipWhitespace mem).view mem) := by
  cases hdata : source.data with
  | none =>
    refine iff_of_false (fun h ↦ ?_) nofun
    have hclean := h.clean
    rw [tokenize, hdata] at hclean
    rcases hclean with ⟨_, h⟩ | ⟨_, _, h⟩ <;> cases h
  | some data =>
    have hrun (mem : Memory) : tokenize mem source = (tokenizeLoop mem).run ([], source.start data) := by
      rw [tokenize, hdata]
      rfl
    have hfrom : source.StaysInside mem ↔ StaysInsideFrom mem (source.start data) ([], source.start data) := by
      constructor
      · intro h
        refine ⟨hrun mem ▸ h.clean, fun mem' hagree ↦ ?_⟩
        rw [← hrun, ← hrun]
        exact h.inside mem' ((source.agree_start hdata).mp hagree)
      · rintro ⟨hclean, hsame⟩
        refine ⟨tokenizeStep_left, hrun mem ▸ hclean, fun mem' htext ↦ ?_⟩
        rw [hrun, hrun]
        exact hsame mem' ((source.agree_start hdata).mpr htext)
    rw [hfrom]
    refine staysInsideFrom_iff.trans ⟨fun h ↦ ⟨data, rfl, h⟩, fun ⟨data', hdata', h⟩ ↦ ?_⟩
    rw [Option.some.inj hdata']
    exact h

/-- The view is `5`, and an `r` stands behind it in memory. -/
theorem not_staysInside : ¬∀ (source : SourceView) (mem : Memory), source.StaysInside mem := by
  intro h
  have hnumber : tokenize (memoryOf ['5', 'r']) ⟨some 0, 1, nofun⟩ = .error .outOfRange := by decide +kernel
  have hclean := (h ⟨some 0, 1, nofun⟩ (memoryOf ['5', 'r'])).clean
  rw [hnumber] at hclean
  rcases hclean with ⟨_, h⟩ | ⟨_, _, h⟩ <;> cases h

/-- A backslash at the end of a literal lets `std::out_of_range` escape. -/
example : tokenize (memoryOf ['"', '\\']) ⟨some 0, 2, nofun⟩ = .error .outOfRange := by decide +kernel

end SourceView

end Stela.Lex
