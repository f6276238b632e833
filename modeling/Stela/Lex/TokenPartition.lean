import Stela.Lex.Items
import Mathlib.Data.List.Infix

/-!
# The tokens and the source

The tokens and the gaps between them make up the source, and a word of the source that is in no comment or literal
is one token. The second half fails where the word begins with `nan`, or stands in the parentheses behind it, because
the number recogniser is asked before the one for identifiers.
-/

namespace Stela.Lex

open ParseString Library Library.Except

/-! ## Gaps -/

/-- A comment that ends where every bracket in it is closed. -/
def BlockComment (text : List Char) : Prop :=
  ['/', '*'] <+: text ∧ IsLeast {n | ClosedPrefix text n} text.length

/-- White space and complete comments, followed by the rest of the source. -/
inductive Gap (rest : List Char) : List Char → Prop
  | nil : Gap rest []
  | space {c gap} : isspace c → Gap rest gap → Gap rest (c :: gap)
  | line {body gap} : (∀ c ∈ body, c ≠ '\n') → (∀ c ∈ (gap ++ rest).head?, c = '\n') → Gap rest gap →
      Gap rest ('/' :: '/' :: body ++ gap)
  | block {comment gap} : BlockComment comment → Gap rest gap → Gap rest (comment ++ gap)

namespace Token

def end_ (t : Token) : ℕ := t.data + t.size

def view (mem : Memory) (t : Token) : List Char := chars mem t.data t.size

/-- The token reads `nan`, behind a sign or without one. -/
def IsNan (mem : Memory) (t : Token) : Prop := SignedNan (t.view mem)

end Token

/-- From the address to the end, gaps and tokens come in turn. -/
inductive Partition (mem : Memory) (end_ : ℕ) : ℕ → List Token → Prop
  | done {a} : a ≤ end_ → Gap [] (chars mem a (end_ - a)) → Partition mem end_ a []
  | token {a t tokens} : a ≤ t.data → Gap (chars mem t.data (end_ - t.data)) (chars mem a (t.data - a)) →
      0 < t.size → Partition mem end_ t.end_ tokens → Partition mem end_ a (t :: tokens)

/-- The gaps and the tokens, in the order of the source. -/
def pieces (mem : Memory) (end_ : ℕ) : ℕ → List Token → List (List Char)
  | a, [] => [chars mem a (end_ - a)]
  | a, t :: tokens => chars mem a (t.data - a) :: t.view mem :: pieces mem end_ t.end_ tokens

/-! ## Words -/

/-- The characters match `[A-Za-z_][A-Za-z0-9_]*`. -/
structure IsRun (mem : Memory) (i j : ℕ) : Prop where
  lt : i < j
  start : startIdent (mem i)
  continue_ : ∀ k, i ≤ k → k < j → continueIdent (mem k)

/-- A run that is part of no longer one. -/
structure IsWord (mem : Memory) (beg end_ i j : ℕ) : Prop where
  beg_le : beg ≤ i
  le_end : j ≤ end_
  run : IsRun mem i j
  maximal : ∀ i' j', beg ≤ i' → i' ≤ i → j ≤ j' → j' ≤ end_ → IsRun mem i' j' → i' = i ∧ j' = j

/-- No character from the first address to the second is in a gap, or in a string or character literal. -/
def Outside (tokens : List Token) (i j : ℕ) : Prop :=
  ∀ k, i ≤ k → k < j → ∃ t ∈ tokens, t.data ≤ k ∧ k < t.end_ ∧ t.type ≠ .string ∧ t.type ≠ .character

/-- A number token that begins before the address reaches up to it, or over it. The number is made of digits: the
name `nan` is a word itself. -/
def Continues (mem : Memory) (tokens : List Token) (i : ℕ) : Prop :=
  ∃ t ∈ tokens, t.type = .number ∧ ¬t.IsNan mem ∧ t.data < i ∧ i ≤ t.end_

/-- Every word outside of gaps and literals that continues no number is a token: a keyword or an identifier. -/
def WordsAreTokens (mem : Memory) (beg end_ : ℕ) (tokens : List Token) : Prop :=
  ∀ i j, IsWord mem beg end_ i j → Outside tokens i j → ¬Continues mem tokens i →
    ∃ t ∈ tokens, t.data = i ∧ t.end_ = j ∧ t.type = if t.view mem ∈ keywords then .keyword else .identifier

/-- The tokens partition the source, and its words are tokens. -/
structure Tokenization (mem : Memory) (beg end_ : ℕ) (tokens : List Token) : Prop where
  partition : Partition mem end_ beg tokens
  whole : (pieces mem end_ beg tokens).flatten = chars mem beg (end_ - beg)
  words : WordsAreTokens mem beg end_ tokens

/-! ## The partition -/

section

variable {mem : Memory} {end_ a b : ℕ} {tokens : List Token} {rest gap gap' : List Char}

theorem Gap.append (h : Gap (gap' ++ rest) gap) (h' : Gap rest gap') : Gap rest (gap ++ gap') := by
  induction h with
  | nil => exact h'
  | space hc _ ih => exact .space hc ih
  | line hbody hhead _ ih =>
    rw [List.append_assoc]
    exact .line hbody (by rwa [List.append_assoc]) ih
  | block hcomment _ ih =>
    rw [List.append_assoc]
    exact .block hcomment ih

theorem gap_of_spaces (h : ∀ c ∈ gap, isspace c) : Gap rest gap := by
  induction gap with
  | nil => exact .nil
  | cons c gap ih =>
    exact .space (h c List.mem_cons_self) (ih fun c hc ↦ h c (List.mem_cons_of_mem _ hc))

theorem Partition.le (h : Partition mem end_ a tokens) : a ≤ end_ := by
  induction h with
  | done hle => exact hle
  | @token a t tokens hle _ _ _ ih =>
    rw [Token.end_] at ih
    omega

theorem chars_split (h : a ≤ b) (hb : b ≤ end_) :
    chars mem a (end_ - a) = chars mem a (b - a) ++ chars mem b (end_ - b) := by
  have hsum : end_ - a = (b - a) + (end_ - b) := by omega
  rw [hsum, chars_add, Nat.add_sub_cancel' h]

theorem Partition.flatten_pieces (h : Partition mem end_ a tokens) :
    (pieces mem end_ a tokens).flatten = chars mem a (end_ - a) := by
  induction h with
  | done => simp [pieces]
  | @token a t tokens hle _ _ hrest ih =>
    have hend := hrest.le
    have hdata : t.data ≤ t.end_ := Nat.le_add_right _ _
    have hview : t.view mem = chars mem t.data (t.end_ - t.data) := by
      rw [Token.view, Token.end_, Nat.add_sub_cancel_left]
    rw [pieces, List.flatten_cons, List.flatten_cons, ih, hview, ← chars_split hdata hend,
      ← chars_split hle (hdata.trans hend)]

theorem Partition.prepend (hle : b ≤ a) (hgap : Gap (chars mem a (end_ - a)) (chars mem b (a - b)))
    (h : Partition mem end_ a tokens) : Partition mem end_ b tokens := by
  cases h with
  | done ha hlast =>
    refine .done (hle.trans ha) ?_
    rw [chars_split hle ha]
    exact .append (by rwa [List.append_nil]) hlast
  | @token _ t tokens ha hbefore hsize hrest =>
    have hdata : t.data ≤ end_ := (Nat.le_add_right _ _).trans hrest.le
    refine .token (hle.trans ha) ?_ hsize hrest
    rw [chars_split hle ha]
    refine .append ?_ hbefore
    rwa [← chars_split ha hdata]

theorem Partition.le_data (h : Partition mem end_ a tokens) : ∀ t ∈ tokens, a ≤ t.data := by
  induction h with
  | done => exact List.forall_mem_nil _
  | @token a t tokens hle _ _ _ ih =>
    refine List.forall_mem_cons.mpr ⟨hle, fun t' ht' ↦ ?_⟩
    exact hle.trans ((Nat.le_add_right _ _).trans (ih t' ht'))

end

section

variable {mem : Memory} {s s' : ParseString} {tokens read : List Token} {st : List Token × ParseString}
  {text : List Char}

theorem ParseString.Reads.chars (h : Reads mem s text s') : chars mem s.beg (s'.beg - s.beg) = text := by
  have hbeg := h.beg
  have hle : s.beg + text.length ≤ s.end_ := h.beg ▸ h.end_ ▸ s'.le
  rw [hbeg, Nat.add_sub_cancel_left, ← take_view hle, h.view, List.take_left]

/-- The counter of the comment that begins the text, if one does, does not wrap. -/
def CommentFits (text : List Char) : Prop := ['/', '*'] <+: text → CounterFits 0 text

theorem counterFits_of_length {d : ℕ} (hd : 0 < d) (h : d + text.length < 2 ^ 32) : CounterFits d text := by
  induction d, text using CounterFits.induct with
  | case1 d rest ih =>
    rw [List.length_cons, List.length_cons] at h
    rw [CounterFits]
    by_cases hone : d = 1
    · exact .inl hone
    · exact .inr ⟨by omega, ih (by omega) (by omega)⟩
  | case2 d rest ih =>
    rw [List.length_cons, List.length_cons] at h
    exact ih (Nat.succ_pos d) (by omega)
  | case3 d c rest hclose hopen ih =>
    rw [List.length_cons] at h
    rw [CounterFits.eq_3 d c rest hclose hopen]
    exact ih hd (by omega)
  | case4 => trivial

theorem commentFits_of_length (h : text.length < 2 ^ 32) : CommentFits text := by
  rintro ⟨rest, rfl⟩
  rw [List.length_append, List.length_cons, List.length_singleton] at h
  have hrest : CounterFits 1 rest := counterFits_of_length Nat.one_pos (by omega)
  exact hrest

theorem closedPrefix_take {n m : ℕ} (hn : n ≤ text.length) :
    ClosedPrefix (text.take n) m ↔ m ≤ n ∧ ClosedPrefix text m := by
  rw [ClosedPrefix, ClosedPrefix, List.length_take, Nat.min_eq_left hn, List.take_take]
  constructor
  · rintro ⟨h2, hm, hzero⟩
    rw [Nat.min_eq_left hm] at hzero
    exact ⟨hm, h2, hm.trans hn, hzero⟩
  · rintro ⟨hm, h2, -, hzero⟩
    rw [Nat.min_eq_left hm]
    exact ⟨h2, hm, hzero⟩

theorem blockComment_of_fits (hfits : CommentFits (s.view mem)) (h : parseMultiComment mem s = .ok (some s')) :
    ∃ comment, Reads mem s comment s' ∧ BlockComment comment := by
  obtain ⟨body, hbody⟩ := parseMultiComment_reads h
  have hview : s.view mem = ['/', '*'] ++ (body ++ ['*', '/'] ++ s'.view mem) := by
    rw [hbody.view, List.cons_append, List.cons_append]
    rfl
  have hopens : ['/', '*'] <+: s.view mem := ⟨_, hview.symm⟩
  have hmatched := (matchedExactly_iff mem s hopens).mpr (hfits hopens)
  by_cases hclosed : ∃ n, ClosedPrefix (s.view mem) n
  · obtain ⟨n, hn⟩ : ∃ n, IsLeast {n | ClosedPrefix (s.view mem) n} n := by
      classical exact ⟨Nat.find hclosed, Nat.find_spec hclosed, fun m hm ↦ Nat.find_min' hclosed hm⟩
    obtain ⟨s₁, hs₁, hreads⟩ := hmatched.consumes n hn
    cases h.symm.trans hs₁
    have hle := hn.1.2.1
    refine ⟨_, hreads, ?_, ?_⟩
    · exact (List.prefix_take_iff).mpr ⟨hopens, hn.1.1⟩
    · rw [List.length_take, Nat.min_eq_left hle]
      refine ⟨(closedPrefix_take hle).mpr ⟨Nat.le_refl n, hn.1⟩, fun m hm ↦ ?_⟩
      exact hn.2 ((closedPrefix_take hle).mp hm).2
  · obtain ⟨loc, message, hthrown⟩ := hmatched.throws.mpr (not_exists.mp hclosed)
    cases h.symm.trans hthrown

theorem Partition.of_reads (hreads : Reads mem s text s') (hgap : Gap (s'.view mem) text)
    (h : Partition mem s'.end_ s'.beg tokens) : Partition mem s.end_ s.beg tokens := by
  have hle : s.beg ≤ s'.beg := hreads.beg ▸ Nat.le_add_right _ _
  rw [← hreads.end_]
  refine h.prepend hle ?_
  rw [hreads.chars]
  exact hgap

theorem TokenRead.data {t : Token} (h : TokenRead mem s t s' text) : t.data = s.beg := congrArg Token.data h.token

theorem TokenRead.end_ {t : Token} (h : TokenRead mem s t s' text) : t.end_ = s'.beg := by
  have hle : s.beg ≤ s'.beg := h.reads.beg ▸ Nat.le_add_right _ _
  rw [h.token]
  exact Nat.add_sub_cancel' hle

theorem TokenRead.view {t : Token} (h : TokenRead mem s t s' text) : t.view mem = text := by
  rw [h.token]
  exact h.reads.chars

theorem TokenText.ne_nil {type : TokenType} (h : TokenText mem s s' type text) : text ≠ [] := by
  cases h with
  | word => exact List.cons_ne_nil _ _
  | number _ hne => exact hne
  | oper _ hmem => exact nonempty_of_mem_oper hmem
  | string => simp
  | character => simp

theorem TokenRead.size_pos {t : Token} (h : TokenRead mem s t s' text) : 0 < t.size := by
  rw [← length_chars mem t.data t.size]
  refine List.length_pos_iff.mpr ?_
  change t.view mem ≠ []
  rw [h.view]
  exact h.text.ne_nil

theorem TokenRead.nonempty {t : Token} (h : TokenRead mem s t s' text) : s.empty = false := by
  refine Bool.eq_false_iff.mpr fun hempty ↦ ?_
  have hview := h.reads.view
  rw [view_eq_nil.mpr hempty] at hview
  exact h.text.ne_nil (List.append_eq_nil_iff.mp hview.symm).1

/-- A number without a value that a suffix could stand for is as long as the conversion says. -/
theorem TokenRead.length_nan {t : Token} {ty : NumberType} {size : ℕ} (h : TokenRead mem s t s' text)
    (htype : t.type = .number) (hmatch : numberMatch (s.view mem) = some (ty, size, .nan)) : text.length = size := by
  have htext := h.text
  rw [htype] at htext
  cases htext with
  | word _ _ _ _ hkind => split_ifs at hkind
  | number hvalid =>
    rw [validNumberLiteral_eq h.nonempty, hmatch] at hvalid
    obtain ⟨suffix, hsuffix, heq⟩ := map_eq_ok.mp hvalid
    cases hasValidSuffix_nan hsuffix
    exact heq.symm

theorem TokenRead.numberMatch {t : Token} (h : TokenRead mem s t s' text) (htype : t.type = .number) :
    numberMatch (s.view mem) ≠ none := by
  intro hnone
  have htext := h.text
  rw [htype] at htext
  cases htext with
  | word _ _ _ _ hkind => split_ifs at hkind
  | number hvalid hne =>
    rw [validNumberLiteral_eq h.nonempty, hnone] at hvalid
    exact hne (List.eq_nil_of_length_eq_zero (Except.ok.inj hvalid).symm)

/-- What an iteration passes is put in front of the partition of what is left. -/
theorem Item.partition {item : Option Token} (hitem : Item mem s s' item) (hfits : CommentFits (s.view mem))
    (h : Partition mem s'.end_ s'.beg tokens) : Partition mem s.end_ s.beg (item.toList ++ tokens) := by
  cases hitem with
  | line hreads hbody hhead =>
    refine .of_reads hreads ?_ h
    rw [← List.append_nil ('/' :: '/' :: _)]
    exact .line hbody hhead .nil
  | block hblock =>
    obtain ⟨comment, hreads, hcomment⟩ := blockComment_of_fits hfits hblock
    refine .of_reads hreads ?_ h
    rw [← List.append_nil comment]
    exact .block hcomment .nil
  | @token t text hread =>
    rw [← hread.reads.end_]
    refine .token hread.data.ge ?_ hread.size_pos (by rwa [hread.end_])
    rw [hread.data, Nat.sub_self]
    exact .nil

theorem partition_of_skip (h : Partition mem (s.skipWhitespace mem).end_ (s.skipWhitespace mem).beg tokens) :
    Partition mem s.end_ s.beg tokens :=
  .of_reads (reads_skip isspace s) (gap_of_spaces fun _ hc ↦ List.mem_takeWhile_imp hc) h

theorem tokenizeLoop_last (h : (tokenizeLoop mem).body (read, s) = .ok (.inl tokens)) :
    (s.skipWhitespace mem).empty = true ∧ tokens = read := by
  have hbody : tokenizeStep mem (read, s) = .ok (.inl tokens) := h
  cases hempty : (s.skipWhitespace mem).empty with
  | true =>
    rw [tokenizeStep_of_empty hempty] at hbody
    cases hbody
    exact ⟨rfl, rfl⟩
  | false =>
    rw [tokenizeStep_of_item hempty] at hbody
    obtain ⟨item, -, heq⟩ := map_eq_ok.mp hbody
    cases heq

/-- The tokens that a run still adds, and the gaps between them, make up what is left. -/
theorem run_partition (hfits : ∀ read s, (tokenizeLoop mem).Reaches st (read, s) →
      CommentFits ((s.skipWhitespace mem).view mem))
    (hrun : (tokenizeLoop mem).run st = .ok tokens) :
    ∃ later, tokens = st.1 ++ later ∧ Partition mem st.2.end_ st.2.beg later := by
  induction st using ShrinkingLoop.induction (tokenizeLoop mem) with
  | h st ih =>
    obtain ⟨read, s⟩ := st
    cases hbody : (tokenizeLoop mem).body (read, s) with
    | error e => cases (ShrinkingLoop.run_of_error hbody).symm.trans hrun
    | ok r =>
      cases r with
      | inl tokens' =>
        cases (ShrinkingLoop.run_of_return hbody).symm.trans hrun
        obtain ⟨hempty, rfl⟩ := tokenizeLoop_last hbody
        have hend : (s.skipWhitespace mem).beg = (s.skipWhitespace mem).end_ := of_decide_eq_true hempty
        refine ⟨[], (List.append_nil _).symm, partition_of_skip ?_⟩
        rw [hend]
        refine .done (Nat.le_refl _) ?_
        rw [Nat.sub_self]
        exact .nil
      | inr st' =>
        obtain ⟨-, item, hitem, hread⟩ := tokenizeLoop_next hbody
        obtain ⟨later, rfl, hlater⟩ := ih st' hbody (fun read' s' hreach ↦ hfits read' s' (.head hbody hreach))
          ((ShrinkingLoop.run_of_next hbody).symm.trans hrun)
        refine ⟨item.toList ++ later, by rw [hread, List.append_assoc], partition_of_skip ?_⟩
        exact hitem.partition (hfits read s .refl) hlater

end

/-! ## Runs of letters and digits -/

section

variable {mem : Memory} {beg end_ a b i j : ℕ} {s s' : ParseString} {tokens : List Token} {rest text : List Char}

theorem mem_chars {n k : ℕ} (hle : a ≤ k) (hlt : k < a + n) : mem k ∈ chars mem a n := by
  have hn : n = (k - a) + (n - (k - a) - 1 + 1) := by omega
  rw [hn, chars_add, Nat.add_sub_cancel' hle, chars]
  exact List.mem_append_right _ List.mem_cons_self

theorem exists_of_mem_chars {n : ℕ} {c : Char} (h : c ∈ chars mem a n) : ∃ k, a ≤ k ∧ k < a + n ∧ mem k = c := by
  induction n generalizing a with
  | zero => cases h
  | succ n ih =>
    rcases List.mem_cons.mp h with rfl | h
    · exact ⟨a, Nat.le_refl a, by omega, rfl⟩
    · obtain ⟨k, hle, hlt, rfl⟩ := ih h
      exact ⟨k, by omega, by omega, rfl⟩

theorem ParseString.Reads.get (h : Reads mem s text s') {k : ℕ} (hle : s.beg ≤ k) (hlt : k < s'.beg) : mem k ∈ text := by
  rw [← h.chars]
  exact mem_chars hle (by omega)

/-- No run goes on at the address. -/
def RunEnds (mem : Memory) (end_ b : ℕ) : Prop := b ≤ end_ ∧ (b < end_ → continueIdent (mem b) = false)

theorem AtWordEnd.runEnds (h : AtWordEnd mem s) : RunEnds mem s.end_ s.beg :=
  ⟨s.le, fun hlt ↦ h _ (mem_head_view.mpr ⟨hlt, rfl⟩)⟩

theorem isRun_of_reads {c : Char} (h : Reads mem s (c :: rest) s') (hc : startIdent c)
    (hrest : ∀ d ∈ rest, continueIdent d) : IsRun mem s.beg s'.beg where
  lt := by
    rw [h.beg, List.length_cons]
    omega
  start := by
    rw [front_eq h.view]
    exact hc
  continue_ k hle hlt := by
    rcases List.mem_cons.mp (h.get hle hlt) with heq | hmem
    · rw [heq]
      exact continueIdent_of_startIdent hc
    · exact hrest _ hmem

/-- No run that goes on up to a word begins before it. -/
theorem IsWord.eq_of_left (hword : IsWord mem beg end_ i j) (hbeg : beg ≤ a) (hle : a ≤ i) (ha : startIdent (mem a))
    (hrun : ∀ k, a ≤ k → k < i → continueIdent (mem k)) : a = i := by
  have hjoin : IsRun mem a j := by
    refine ⟨hle.trans_lt hword.run.lt, ha, fun k hak hkj ↦ ?_⟩
    rcases Nat.lt_or_ge k i with hki | hik
    · exact hrun k hak hki
    · exact hword.run.continue_ k hik hkj
  exact (hword.maximal a j hbeg hle (Nat.le_refl j) hword.le_end hjoin).1

/-- A word is a run that begins no later than it and goes on as far as it can. -/
theorem IsWord.eq_of_run (hword : IsWord mem beg end_ i j) (hrun : IsRun mem a b) (hbeg : beg ≤ a) (hle : a ≤ i)
    (hlt : i < b) (hends : RunEnds mem end_ b) : a = i ∧ b = j := by
  rcases Nat.lt_or_ge j b with hjb | hbj
  · exact hword.maximal a b hbeg hle hjb.le hends.1 hrun
  have hleft : a = i := hword.eq_of_left hbeg hle hrun.start fun k hak hki ↦ hrun.continue_ k hak (hki.trans hlt)
  refine ⟨hleft, Nat.le_antisymm hbj ?_⟩
  by_contra hne
  have hbj' : b < j := Nat.lt_of_not_le hne
  have hgoes := hword.run.continue_ b hlt.le hbj'
  rw [hends.2 (hbj'.trans_le hword.le_end)] at hgoes
  cases hgoes

/-- A run is a word when none goes on before or behind it. -/
theorem IsRun.isWord (hrun : IsRun mem a b) (hbeg : beg ≤ a) (hends : RunEnds mem end_ b)
    (hleft : a = beg ∨ continueIdent (mem (a - 1)) = false) : IsWord mem beg end_ a b where
  beg_le := hbeg
  le_end := hends.1
  run := hrun
  maximal i' j' hbeg' hi hj hend' hrun' := by
    constructor
    · by_contra hne
      have hlt : i' < a := Nat.lt_of_le_of_ne hi hne
      rcases hleft with heq | hleft
      · omega
      · have hgoes := hrun'.continue_ (a - 1) (by omega) (by have := hrun.lt; omega)
        rw [hleft] at hgoes
        cases hgoes
    · by_contra hne
      have hlt : b < j' := Nat.lt_of_le_of_ne hj (Ne.symm hne)
      have hgoes := hrun'.continue_ b (hi.trans hrun.lt.le) hlt
      rw [hends.2 (hlt.trans_le hend')] at hgoes
      cases hgoes

/-- A letter is in a word. -/
theorem exists_word (hbeg : beg ≤ a) (hend : a < end_) (ha : startIdent (mem a)) :
    ∃ i j, IsWord mem beg end_ i j ∧ i ≤ a ∧ a < j := by
  classical
  have hself : IsRun mem a (a + 1) := by
    refine ⟨Nat.lt_succ_self a, ha, fun k hle hlt ↦ ?_⟩
    rw [Nat.le_antisymm (Nat.le_of_lt_succ hlt) hle]
    exact continueIdent_of_startIdent ha
  have hfirst : ∃ i, beg ≤ i ∧ i ≤ a ∧ IsRun mem i (a + 1) := ⟨a, hbeg, Nat.le_refl a, hself⟩
  obtain ⟨hbegi, hia, hrun⟩ := Nat.find_spec hfirst
  have hlast : IsRun mem (Nat.find hfirst) (Nat.findGreatest (IsRun mem (Nat.find hfirst)) end_) :=
    Nat.findGreatest_spec hend hrun
  have hlt : a < Nat.findGreatest (IsRun mem (Nat.find hfirst)) end_ := Nat.le_findGreatest hend hrun
  refine ⟨_, _, ⟨hbegi, Nat.findGreatest_le end_, hlast, fun i' j' hbeg' hi hj hend' hrun' ↦ ?_⟩, hia, hlt⟩
  have hleft : IsRun mem i' (a + 1) :=
    ⟨Nat.lt_succ_of_le (hi.trans hia), hrun'.start, fun k hk hka ↦ hrun'.continue_ k hk (by omega)⟩
  have heq : i' = Nat.find hfirst :=
    Nat.le_antisymm hi (Nat.find_min' hfirst ⟨hbeg', hi.trans hia, hleft⟩)
  exact ⟨heq, Nat.le_antisymm (Nat.le_findGreatest hend' (heq ▸ hrun')) hj⟩

theorem not_continueIdent_of_isspace {c : Char} (h : isspace c) : continueIdent c = false := by
  refine Bool.eq_false_iff.mpr fun hc ↦ ?_
  have hcode : c.toNat = 32 ∨ (9 ≤ c.toNat ∧ c.toNat ≤ 13) := by
    simp only [isspace, Bool.or_eq_true, Bool.and_eq_true, decide_eq_true_eq] at h
    exact h.imp_left fun heq ↦ congrArg Char.toNat heq
  simp only [continueIdent, isalpha, isdigit, Bool.or_eq_true, Bool.and_eq_true, decide_eq_true_eq] at hc
  rcases hc with ((hc | hc) | hc) | rfl
  · omega
  · omega
  · omega
  · revert hcode
    decide

theorem Gap.head {gap : List Char} (h : Gap rest gap) : ∀ c ∈ gap.head?, continueIdent c = false := by
  intro c hc
  cases h with
  | nil => cases hc
  | space hspace =>
    cases hc
    exact not_continueIdent_of_isspace hspace
  | line =>
    cases hc
    decide
  | block hcomment =>
    obtain ⟨⟨body, rfl⟩, -⟩ := hcomment
    cases hc
    decide

/-- In front of a letter or a digit there is no gap. -/
theorem eq_of_gap (hgap : Gap rest (chars mem a (b - a))) (hle : a ≤ b) (ha : continueIdent (mem a)) : a = b := by
  by_contra hne
  have hpos : b - a = b - a - 1 + 1 := by omega
  rw [hpos, chars] at hgap
  rw [hgap.head _ rfl] at ha
  cases ha

/-- A run that begins where a token may begin is in the tokens. -/
theorem outside_of_partition (h : Partition mem end_ a tokens)
    (hquote : ∀ t ∈ tokens, t.type = .string ∨ t.type = .character → continueIdent (mem t.data) = false)
    (hb : b ≤ end_) (hrun : ∀ k, a ≤ k → k < b → continueIdent (mem k)) : Outside tokens a b := by
  induction h with
  | @done a hle hgap =>
    intro k hak hkb
    have heq := eq_of_gap hgap hle (hrun a (Nat.le_refl a) (hak.trans_lt hkb))
    omega
  | @token a t tokens hle hgap _ _ ih =>
    obtain ⟨hquote, hlater⟩ := List.forall_mem_cons.mp hquote
    intro k hak hkb
    have ha := hrun a (Nat.le_refl a) (hak.trans_lt hkb)
    obtain rfl := eq_of_gap hgap hle ha
    rcases Nat.lt_or_ge k t.end_ with hlt | hge
    · refine ⟨t, List.mem_cons_self, hak, hlt, fun htype ↦ ?_, fun htype ↦ ?_⟩
      · rw [hquote (.inl htype)] at ha
        cases ha
      · rw [hquote (.inr htype)] at ha
        cases ha
    · obtain ⟨t', ht', hin⟩ := ih hlater (fun k hk ↦ hrun k ((Nat.le_add_right _ _).trans hk)) k hge hkb
      exact ⟨t', List.mem_cons_of_mem t ht', hin⟩

end

/-! ## The states of a run -/

section

variable {mem : Memory} {s₀ s s' : ParseString} {st st' : List Token × ParseString} {tokens read : List Token}
  {t : Token}

/-- The token is read in a state of the run from the cursor. -/
def ReadFrom (mem : Memory) (s₀ : ParseString) (t : Token) : Prop :=
  ∃ read s s' text, (tokenizeLoop mem).Reaches ([], s₀) (read, s) ∧ TokenRead mem (s.skipWhitespace mem) t s' text

/-- A number token ends at the address. -/
def AfterNumber (tokens : List Token) (i : ℕ) : Prop := ∃ t ∈ tokens, t.type = .number ∧ t.end_ = i

/-- What holds in a state of the run: the tokens lie behind the cursor, and a word reaches over the cursor only
behind a number. -/
structure Passed (mem : Memory) (s₀ : ParseString) (st : List Token × ParseString) : Prop where
  reaches : (tokenizeLoop mem).Reaches ([], s₀) st
  reads : ∃ text, Reads mem s₀ text st.2
  tokens : ∀ t ∈ st.1, t.end_ ≤ st.2.beg ∧ ReadFrom mem s₀ t
  apart : st.2.beg = s₀.beg ∨ Apart mem st.2 ∨ AfterNumber st.1 st.2.beg

theorem Item.reads {item : Option Token} (h : Item mem s s' item) : ∃ text, Reads mem s text s' := by
  cases h with
  | line hreads => exact ⟨_, hreads⟩
  | block h =>
    obtain ⟨body, hreads⟩ := parseMultiComment_reads h
    exact ⟨_, hreads⟩
  | token hread => exact ⟨_, hread.reads⟩

theorem Item.tokenRead (h : Item mem s s' (some t)) : ∃ text, TokenRead mem s t s' text := by
  cases h with
  | token hread => exact ⟨_, hread⟩

theorem Passed.next (h : Passed mem s₀ st) (hnext : (tokenizeLoop mem).Next st st') : Passed mem s₀ st' := by
  obtain ⟨read, s⟩ := st
  obtain ⟨read', s'⟩ := st'
  obtain ⟨-, item, hitem, hread⟩ := tokenizeLoop_next hnext
  obtain ⟨before, hbefore⟩ := h.reads
  obtain ⟨text, htext⟩ := hitem.reads
  have hskip : Reads mem s _ (s.skipWhitespace mem) := reads_skip isspace s
  have hitem_end (t : Token) (ht : t ∈ item) : t.end_ = s'.beg ∧ ReadFrom mem s₀ t := by
    obtain rfl : item = some t := ht
    obtain ⟨text, htoken⟩ := hitem.tokenRead
    exact ⟨htoken.end_, read, s, s', text, h.reaches, htoken⟩
  have hle : s.beg ≤ s'.beg := by
    rw [(hskip.trans htext).beg]
    exact Nat.le_add_right _ _
  obtain rfl : read' = read ++ item.toList := hread
  refine ⟨h.reaches.tail hnext, ⟨_, hbefore.trans (hskip.trans htext)⟩, fun t ht ↦ ?_, .inr ?_⟩
  · rcases List.mem_append.mp ht with ht | ht
    · obtain ⟨hend, hfrom⟩ := h.tokens t ht
      exact ⟨hend.trans hle, hfrom⟩
    · obtain ⟨hend, hfrom⟩ := hitem_end t (Option.mem_toList.mp ht)
      exact ⟨hend.le, hfrom⟩
  · rcases hitem.apart with hapart | ⟨t, ht, htype⟩
    · exact .inl hapart
    · exact .inr ⟨t, List.mem_append_right _ (Option.mem_toList.mpr ht), htype, (hitem_end t ht).1⟩

theorem passed (h : (tokenizeLoop mem).Reaches ([], s₀) st) : Passed mem s₀ st := by
  apply h.invariant (P := Passed mem s₀) fun _ _ hst hnext ↦ hst.next hnext
  exact ⟨.refl, ⟨[], .refl mem s₀⟩, List.forall_mem_nil _, .inl rfl⟩

/-- White space keeps words apart. -/
theorem Passed.apart_skip (h : Passed mem s₀ (read, s)) : (s.skipWhitespace mem).beg = s₀.beg ∨
    Apart mem (s.skipWhitespace mem) ∨ AfterNumber read (s.skipWhitespace mem).beg := by
  have hskip : Reads mem s _ (s.skipWhitespace mem) := reads_skip isspace s
  rcases List.eq_nil_or_concat' ((s.view mem).takeWhile isspace) with hnil | ⟨init, c, hspaces⟩
  · rw [hnil] at hskip
    have heq : s.skipWhitespace mem = s := hskip.unique (.refl mem s)
    rw [heq]
    exact h.apart
  · have hc : isspace c := List.mem_takeWhile_imp (hspaces ▸ List.mem_append_right init List.mem_cons_self)
    rw [hspaces] at hskip
    exact .inr (.inl (apart_of_last hskip (not_continueIdent_of_isspace hc)))

theorem Passed.reads_skip (h : Passed mem s₀ (read, s)) : ∃ text, Reads mem s₀ text (s.skipWhitespace mem) := by
  obtain ⟨text, htext⟩ := h.reads
  exact ⟨_, htext.trans (ParseString.reads_skip isspace s)⟩

theorem run_mem (hrun : (tokenizeLoop mem).run (read, s) = .ok tokens) (ht : t ∈ read) : t ∈ tokens := by
  obtain ⟨last, hreach, hlast⟩ := ShrinkingLoop.run_eq_ok.mp hrun
  obtain ⟨read', s'⟩ := last
  obtain ⟨-, rfl⟩ := tokenizeLoop_last hlast
  apply hreach.invariant (P := fun st ↦ t ∈ st.1) _ ht
  intro st st' hmem hnext
  obtain ⟨-, item, -, hread⟩ := tokenizeLoop_next hnext
  rw [hread]
  exact List.mem_append_left _ hmem

theorem readFrom_of_run (hrun : (tokenizeLoop mem).run ([], s₀) = .ok tokens) (ht : t ∈ tokens) :
    ReadFrom mem s₀ t := by
  obtain ⟨⟨read, s⟩, hreach, hlast⟩ := ShrinkingLoop.run_eq_ok.mp hrun
  obtain ⟨-, rfl⟩ := tokenizeLoop_last hlast
  exact ((passed hreach).tokens t ht).2

/-! ## Words that begin with `nan` -/

/-- Where `nan` stands, it is read as a part of the number in front of it: there is no sign before it and no letter
in its tag, and a number token has just ended. This may be `nan` too, but not with a tag. -/
structure ContinuesNumber (mem : Memory) (read : List Token) (s : ParseString) : Prop where
  unsigned : StartsWithNan (s.view mem)
  tag : ∀ c ∈ nanTagText (s.view mem), startIdent c = false
  behind : ∃ t ∈ read, t.type = .number ∧ t.end_ = s.beg ∧ ¬(t.IsNan mem ∧ mem (s.beg - 1) = ')')

/-- Where the main loop comes to `nan`, behind a sign or not, it continues a number. -/
def NanContinues (mem : Memory) (s₀ : ParseString) : Prop :=
  ∀ read s, (tokenizeLoop mem).Reaches ([], s₀) (read, s) → SignedNan ((s.skipWhitespace mem).view mem) →
    ContinuesNumber mem read (s.skipWhitespace mem)

section

variable {text : List Char}

theorem TokenRead.signedNan (h : TokenRead mem s t s' text) (hnan : t.IsNan mem) : SignedNan (s.view mem) := by
  rw [Token.IsNan, h.view] at hnan
  rw [h.reads.view]
  exact hnan.append _

theorem TokenRead.isNan (h : TokenRead mem s t s' text) (hnan : SignedNan (s.view mem)) :
    t.type = .number ∧ t.IsNan mem := by
  obtain ⟨size, hmatch, htake⟩ := hnan.numberMatch
  have hhead {c : Char} {body : List Char} (hreads : Reads mem s (c :: body) s') : startIdent c ∨ c = '-' ∨ c = '+' := by
    have hview := hreads.view
    rcases hnan.cases with hnan | ⟨d, rest, hd, heq, -⟩
    · obtain ⟨d, rest, heq, hd⟩ := hnan.cons
      exact .inl ((List.cons.inj (heq.symm.trans hview)).1 ▸ hd)
    · exact .inr ((List.cons.inj (heq.symm.trans hview)).1 ▸ hd)
  have htype : t.type = .number := by
    have htext := h.text
    have hreads := h.reads
    generalize t.type = type at htext
    cases htext with
    | word hnone => cases hnone.symm.trans hmatch
    | number => rfl
    | oper hnone => cases hnone.symm.trans hmatch
    | string => exact absurd (hhead hreads) (by decide)
    | character => exact absurd (hhead hreads) (by decide)
  refine ⟨htype, ?_⟩
  rw [h.reads.view, List.take_left' (h.length_nan htype hmatch)] at htake
  rw [Token.IsNan, h.view]
  exact htake

theorem TokenRead.nan_text (h : TokenRead mem s t s' text) (htype : t.type = .number)
    (hnan : StartsWithNan (s.view mem)) :
    ∃ name, text = name ++ nanTagText (s.view mem) ∧ name.length = 3 ∧ ∀ c ∈ name, continueIdent c := by
  obtain ⟨name, rest, hview, hlen, hname⟩ := hnan.split
  have hsize := h.length_nan htype hnan.numberMatch
  refine ⟨name, (List.append_inj (h.reads.view.symm.trans hview) ?_).1, hlen, hname⟩
  rw [hsize, List.length_append, hlen, length_nanTagText]

/-- The characters of `nan` and of its tag. -/
theorem TokenRead.nan_chars (h : TokenRead mem s t s' text) (htype : t.type = .number)
    (hnan : StartsWithNan (s.view mem)) :
    s'.beg = s.beg + 3 + (nanTagText (s.view mem)).length ∧
      chars mem (s.beg + 3) (nanTagText (s.view mem)).length = nanTagText (s.view mem) ∧
      ∀ k, s.beg ≤ k → k < s.beg + 3 → continueIdent (mem k) := by
  obtain ⟨name, htext, hlen, hname⟩ := h.nan_text htype hnan
  have hbeg := h.reads.beg
  have hchars := h.reads.chars
  have hpos : s'.beg - s.beg = 3 + (nanTagText (s.view mem)).length := by
    rw [hbeg, Nat.add_sub_cancel_left, htext, List.length_append, hlen]
  rw [hpos, chars_add, htext] at hchars
  obtain ⟨hfirst, hsecond⟩ := List.append_inj hchars (by rw [length_chars, hlen])
  refine ⟨by omega, hsecond, fun k hle hlt ↦ hname _ ?_⟩
  rw [← hfirst]
  exact mem_chars hle hlt

/-- Behind a sign the first letter stands. -/
theorem TokenRead.signed_chars {c d : Char} {rest : List Char} (h : TokenRead mem s t s' text) (hnan : t.IsNan mem)
    (hview : s.view mem = c :: d :: rest) :
    t.data + 1 < t.end_ ∧ mem (s.beg + 1) = d := by
  rw [Token.IsNan, h.view] at hnan
  have hlen : 2 ≤ text.length := by
    rcases hnan.cases with hname | ⟨c', rest', -, rfl, hname⟩
    · exact (by decide : 2 ≤ 3).trans (startsWith_length hname)
    · exact Nat.succ_le_succ ((by decide : 1 ≤ 3).trans (startsWith_length hname))
  have hleft : 1 < s.left := by
    rw [← @length_view mem, hview]
    exact Nat.succ_lt_succ (Nat.succ_pos _)
  have hsecond := @getElem_view mem s 1 hleft
  rw [hview] at hsecond
  refine ⟨?_, (Option.some.inj hsecond).symm⟩
  rw [h.data, h.end_, h.reads.beg]
  omega

theorem StartsWithNan.start (h : StartsWithNan (s.view mem)) : startIdent (mem s.beg) := by
  obtain ⟨c, rest, hview, hc⟩ := h.cons
  rw [front_eq hview]
  exact hc

end

/-- A word begins in `nan` only at its first letter, and then a number goes on there. -/
theorem continues_of_word (hrun : (tokenizeLoop mem).run ([], s₀) = .ok tokens) (hnan : NanContinues mem s₀)
    {i j : ℕ} {text : List Char} (hreach : (tokenizeLoop mem).Reaches ([], s₀) (read, s))
    (hread : TokenRead mem (s.skipWhitespace mem) t s' text) (htype : t.type = .number) (hnant : t.IsNan mem)
    (hword : IsWord mem s₀.beg s₀.end_ i j) (hle : (s.skipWhitespace mem).beg ≤ i) (hlt : i < s'.beg) :
    Continues mem tokens i := by
  have hat := hnan read s hreach (hread.signedNan hnant)
  obtain ⟨hlast, htag, hname⟩ := hread.nan_chars htype hat.unsigned
  obtain ⟨before, hbefore⟩ := (passed hreach).reads_skip
  have hi : i < (s.skipWhitespace mem).beg + 3 := by
    by_contra hge
    have hletter := hat.tag _ (htag ▸ mem_chars (Nat.not_lt.mp hge) (by omega))
    rw [hword.run.start] at hletter
    cases hletter
  obtain rfl : (s.skipWhitespace mem).beg = i :=
    hword.eq_of_left (hbefore.beg ▸ Nat.le_add_right _ _) hle hat.unsigned.start
      fun k hk hki ↦ hname k hk (hki.trans hi)
  obtain ⟨t₁, ht₁, htype₁, hend₁, htagged⟩ := hat.behind
  obtain ⟨-, read₁, s₁, s₁', text₁, hreach₁, hread₁⟩ := (passed hreach).tokens t₁ ht₁
  have hrest : (tokenizeLoop mem).run (read, s) = .ok tokens := (ShrinkingLoop.run_of_reaches hreach).symm.trans hrun
  by_cases hnan₁ : t₁.IsNan mem
  · have hat₁ := hnan read₁ s₁ hreach₁ (hread₁.signedNan hnan₁)
    obtain ⟨hlast₁, htag₁, hname₁⟩ := hread₁.nan_chars htype₁ hat₁.unsigned
    obtain ⟨before₁, hbefore₁⟩ := (passed hreach₁).reads_skip
    rw [hread₁.end_] at hend₁
    rcases nanTagText_cases ((s₁.skipWhitespace mem).view mem) with hnil | ⟨word, hsome⟩
    · -- the word would begin with the `nan` in front of it
      rw [hnil, List.length_nil, Nat.add_zero] at hlast₁
      have heq := hword.eq_of_left (hbefore₁.beg ▸ Nat.le_add_right _ _) (by omega) hat₁.unsigned.start
        fun k hk hki ↦ hname₁ k hk (by omega)
      omega
    · obtain ⟨name, htext, -, -⟩ := hread₁.nan_text htype₁ hat₁.unsigned
      have hreads := hread₁.reads
      rw [htext, hsome, ← List.append_assoc] at hreads
      exact absurd ⟨hnan₁, hend₁ ▸ hreads.last⟩ htagged
  · refine ⟨t₁, run_mem hrest ht₁, htype₁, hnan₁, ?_, hend₁.ge⟩
    have hpos := hread₁.size_pos
    rw [← hend₁, Token.end_]
    omega

theorem words_of_nanContinues (hrun : (tokenizeLoop mem).run ([], s₀) = .ok tokens) (hnan : NanContinues mem s₀) :
    WordsAreTokens mem s₀.beg s₀.end_ tokens := by
  intro i j hword hout hcont
  obtain ⟨t, ht, hle, hlt, hstring, hcharacter⟩ := hout i (Nat.le_refl i) hword.run.lt
  obtain ⟨read, s, s', text, hreach, hread⟩ := readFrom_of_run hrun ht
  obtain ⟨before, hbefore⟩ := (passed hreach).reads_skip
  have hbeg : s₀.beg ≤ (s.skipWhitespace mem).beg := hbefore.beg ▸ Nat.le_add_right _ _
  have hend : s'.end_ = s₀.end_ := hread.reads.end_.trans hbefore.end_
  rw [hread.data] at hle
  rw [hread.end_] at hlt
  have htext := hread.text
  generalize htype : t.type = type at htext hstring hcharacter
  cases htext with
  | @word _ c rest _ hc hrest hat hkind =>
    obtain ⟨rfl, rfl⟩ := hword.eq_of_run (isRun_of_reads hread.reads hc hrest) hbeg hle hlt (hend ▸ hat.runEnds)
    exact ⟨t, ht, hread.data, hread.end_, by rw [htype, hread.view, hkind]⟩
  | number =>
    by_cases hnant : t.IsNan mem
    · exact absurd (continues_of_word hrun hnan hreach hread htype hnant hword hle hlt) hcont
    · rcases Nat.lt_or_eq_of_le hle with hbefore' | rfl
      · exact absurd ⟨t, ht, htype, hnant, hread.data ▸ hbefore', hread.end_ ▸ hlt.le⟩ hcont
      · -- a number that begins with a letter is `nan`
        have hmatch := hread.numberMatch htype
        have hlt' : (s.skipWhitespace mem).beg < (s.skipWhitespace mem).end_ :=
          hlt.trans_le (hread.reads.end_ ▸ s'.le)
        rw [view_of_lt hlt', numberMatch_startIdent hword.run.start, ← view_of_lt hlt'] at hmatch
        exact absurd (hread.isNan hmatch.signed).2 hnant
  | oper _ hmem =>
    have hoper := not_continueIdent_of_mem_oper hmem (hread.reads.get hle hlt)
    rw [continueIdent_of_startIdent hword.run.start] at hoper
    cases hoper
  | string => exact absurd rfl hstring
  | character => exact absurd rfl hcharacter

/-- Where `nan` begins an item, the item is a number. -/
theorem Item.nan {item : Option Token} (h : Item mem s s' item) (hnan : SignedNan (s.view mem)) :
    ∃ t text, item = some t ∧ TokenRead mem s t s' text := by
  have hslash {body : List Char} (hreads : Reads mem s ('/' :: body) s') : False := by
    rcases hnan.cases with hnan | ⟨c, rest, hc, heq, -⟩
    · obtain ⟨c, rest, heq, hc⟩ := hnan.cons
      rw [(List.cons.inj (heq.symm.trans hreads.view)).1] at hc
      cases hc
    · rw [(List.cons.inj (heq.symm.trans hreads.view)).1] at hc
      exact absurd hc (by decide)
  cases h with
  | line hreads => exact (hslash hreads).elim
  | block h =>
    obtain ⟨body, hreads⟩ := parseMultiComment_reads h
    exact (hslash hreads).elim
  | token hread => exact ⟨_, _, rfl, hread⟩

theorem exists_next (hrun : (tokenizeLoop mem).run (read, s) = .ok tokens)
    (hempty : (s.skipWhitespace mem).empty = false) : ∃ st', (tokenizeLoop mem).Next (read, s) st' := by
  cases hbody : (tokenizeLoop mem).body (read, s) with
  | error e => cases (ShrinkingLoop.run_of_error hbody).symm.trans hrun
  | ok r =>
    cases r with
    | inl tokens' =>
      rw [(tokenizeLoop_last hbody).1] at hempty
      cases hempty
    | inr st' => exact ⟨st', hbody⟩

theorem TokenRead.quote {text : List Char} (h : TokenRead mem s t s' text)
    (htype : t.type = .string ∨ t.type = .character) : continueIdent (mem t.data) = false := by
  have htext := h.text
  have hreads := h.reads
  rw [h.data]
  generalize t.type = type at htext htype
  cases htext with
  | word _ _ _ _ hkind =>
    rw [hkind] at htype
    split_ifs at htype <;> simp at htype
  | number => simp at htype
  | oper => simp at htype
  | string =>
    rw [front_eq hreads.view]
    decide
  | character =>
    rw [front_eq hreads.view]
    decide

theorem Apart.before (h : Apart mem s) {c : Char} {rest : List Char} (hview : s.view mem = c :: rest)
    (hc : continueIdent c) : continueIdent (mem (s.beg - 1)) = false := by
  refine h.resolve_right fun hend ↦ ?_
  rw [hend c (by rw [hview]; rfl)] at hc
  cases hc

/-- Where the loop comes to `nan`, the tokens are those read before, the number, and those behind it. -/
theorem exists_token (hfits : ∀ read s, (tokenizeLoop mem).Reaches ([], s₀) (read, s) →
      CommentFits ((s.skipWhitespace mem).view mem))
    (hrun : (tokenizeLoop mem).run ([], s₀) = .ok tokens) (hreach : (tokenizeLoop mem).Reaches ([], s₀) (read, s))
    (hnan : SignedNan ((s.skipWhitespace mem).view mem)) :
    ∃ t s' text later, TokenRead mem (s.skipWhitespace mem) t s' text ∧ tokens = read ++ t :: later ∧
      Partition mem s₀.end_ t.end_ later := by
  obtain ⟨before, hbefore⟩ := (passed hreach).reads_skip
  have hrest : (tokenizeLoop mem).run (read, s) = .ok tokens := (ShrinkingLoop.run_of_reaches hreach).symm.trans hrun
  have hempty : (s.skipWhitespace mem).empty = false := Bool.eq_false_iff.mpr fun hempty ↦ by
    rw [view_eq_nil.mpr hempty] at hnan
    cases hnan
  obtain ⟨⟨read', s'⟩, hnext⟩ := exists_next hrest hempty
  obtain ⟨-, item, hitem, hread'⟩ := tokenizeLoop_next hnext
  obtain ⟨t, text, rfl, hread⟩ := hitem.nan hnan
  obtain rfl : read' = read ++ [t] := hread'
  obtain ⟨later, htokens, hlater⟩ := @run_partition mem tokens (read ++ [t], s')
    (fun read' s' hreach' ↦ hfits read' s' ((hreach.tail hnext).trans hreach'))
    ((ShrinkingLoop.run_of_next hnext).symm.trans hrest)
  refine ⟨t, s', text, later, hread, by rw [htokens, List.append_assoc, List.singleton_append], ?_⟩
  rwa [hread.end_, ← hbefore.end_, ← hread.reads.end_]

/-- A word that begins in `nan` is no token, so that it continues a number, and begins with `nan`. -/
theorem behind_of_word {text : List Char} {later : List Token} {i j : ℕ} (hpassed : Passed mem s₀ (read, s))
    (hrun : (tokenizeLoop mem).run ([], s₀) = .ok tokens)
    (hread : TokenRead mem (s.skipWhitespace mem) t s' text) (htokens : tokens = read ++ t :: later)
    (hlater : Partition mem s₀.end_ t.end_ later) (htype : t.type = .number) (hnan : t.IsNan mem)
    (hwords : WordsAreTokens mem s₀.beg s₀.end_ tokens) (hword : IsWord mem s₀.beg s₀.end_ i j)
    (hle : t.data ≤ i) (hlt : i < t.end_) :
    i = t.data ∧ ∃ t' ∈ read, t'.type = .number ∧ ¬t'.IsNan mem ∧ t'.end_ = t.data := by
  have hskip : s.beg ≤ t.data := hread.data ▸ (reads_skip isspace s).beg ▸ Nat.le_add_right _ _
  have hapart : ∀ t' ∈ tokens, t' ∈ read ∧ t'.end_ ≤ t.data ∨ t' = t ∨ t.end_ ≤ t'.data := by
    intro t' ht'
    rw [htokens] at ht'
    rcases List.mem_append.mp ht' with ht' | ht'
    · exact .inl ⟨ht', (hpassed.tokens t' ht').1.trans hskip⟩
    · rcases List.mem_cons.mp ht' with rfl | ht'
      · exact .inr (.inl rfl)
      · exact .inr (.inr (hlater.le_data t' ht'))
  have hquote : ∀ t' ∈ later, t'.type = .string ∨ t'.type = .character → continueIdent (mem t'.data) = false := by
    intro t' ht'
    have hmem : t' ∈ tokens := htokens ▸ List.mem_append_right read (List.mem_cons_of_mem t ht')
    obtain ⟨_, _, _, _, -, hread'⟩ := readFrom_of_run hrun hmem
    exact hread'.quote
  have hout : Outside tokens i j := by
    intro k hik hkj
    rcases Nat.lt_or_ge k t.end_ with hkt | htk
    · refine ⟨t, ?_, hle.trans hik, hkt, by rw [htype]; decide, by rw [htype]; decide⟩
      exact htokens ▸ List.mem_append_right read List.mem_cons_self
    · obtain ⟨t', ht', hin⟩ := outside_of_partition hlater hquote hword.le_end
        (fun k' hk' ↦ hword.run.continue_ k' (hlt.le.trans hk')) k htk hkj
      exact ⟨t', htokens ▸ List.mem_append_right read (List.mem_cons_of_mem t ht'), hin⟩
  by_cases hcont : Continues mem tokens i
  · obtain ⟨t', ht', htype', hnan', hlt', hle'⟩ := hcont
    rcases hapart t' ht' with ⟨hin, hend⟩ | rfl | hafter
    · exact ⟨by omega, t', hin, htype', hnan', by omega⟩
    · exact absurd hnan hnan'
    · omega
  · obtain ⟨t', ht', hdata, hend, hkind⟩ := hwords i j hword hout hcont
    have hpos : t'.data < t'.end_ := by
      have := hword.run.lt
      omega
    rcases hapart t' ht' with ⟨-, hend'⟩ | rfl | hafter
    · omega
    · rw [htype] at hkind
      split_ifs at hkind
    · omega

theorem nanContinues_of_words (hfits : ∀ read s, (tokenizeLoop mem).Reaches ([], s₀) (read, s) →
      CommentFits ((s.skipWhitespace mem).view mem))
    (hrun : (tokenizeLoop mem).run ([], s₀) = .ok tokens) (hwords : WordsAreTokens mem s₀.beg s₀.end_ tokens) :
    NanContinues mem s₀ := by
  intro read s hreach hnan
  have hpassed := passed hreach
  obtain ⟨before, hbefore⟩ := hpassed.reads_skip
  obtain ⟨t, s', text, later, hread, htokens, hlater⟩ := exists_token hfits hrun hreach hnan
  obtain ⟨htype, hnant⟩ := hread.isNan hnan
  have hdata := hread.data
  have hbeg : s₀.beg ≤ (s.skipWhitespace mem).beg := hbefore.beg ▸ Nat.le_add_right _ _
  have hend : t.end_ ≤ s₀.end_ := hlater.le
  -- a letter of the token, behind a character that no word reaches over
  have hbehind {b k : ℕ} (hb : t.data ≤ b) (hbk : b ≤ k) (hk : k < t.end_) (hletter : startIdent (mem k))
      (hleft : b = s₀.beg ∨ continueIdent (mem (b - 1)) = false) :
      b = t.data ∧ ∃ t' ∈ read, t'.type = .number ∧ ¬t'.IsNan mem ∧ t'.end_ = t.data := by
    obtain ⟨i, j, hword, hik, hkj⟩ := exists_word (hbeg.trans (hdata ▸ hb.trans hbk)) (hk.trans_le hend) hletter
    have hbi : b ≤ i := by
      by_contra hlt
      rcases hleft with heq | hleft
      · exact hlt (heq ▸ hword.beg_le)
      · rw [hword.run.continue_ (b - 1) (by omega) (by omega)] at hleft
        cases hleft
    obtain ⟨heq, hnumber⟩ := behind_of_word hpassed hrun hread htokens hlater htype hnant hwords hword
      (hb.trans hbi) (hik.trans_lt hk)
    exact ⟨by omega, hnumber⟩
  have hunsigned : StartsWithNan ((s.skipWhitespace mem).view mem) := by
    refine hnan.cases.resolve_right fun ⟨c, rest, hc, hview, hrest⟩ ↦ ?_
    obtain ⟨d, rest, rfl, hd⟩ := hrest.cons
    obtain ⟨hsize, hsecond⟩ := hread.signed_chars hnant hview
    have hfirst : continueIdent (mem t.data) = false := by
      rw [hdata, front_eq hview]
      rcases hc with rfl | rfl <;> decide
    have heq := (hbehind (Nat.le_succ t.data) (Nat.le_refl _) (by omega) (by rw [hdata, hsecond]; exact hd)
      (.inr hfirst)).1
    omega
  obtain ⟨hlast, htag, hname⟩ := hread.nan_chars htype hunsigned
  refine ⟨hunsigned, fun c hc ↦ ?_, ?_⟩
  · by_contra hletter
    obtain ⟨k, hle, hlt, rfl⟩ := exists_of_mem_chars (htag.symm ▸ hc)
    rcases nanTagText_cases ((s.skipWhitespace mem).view mem) with hnil | ⟨word, hsome⟩
    · rw [hnil] at hc
      cases hc
    · rw [hsome] at htag hlt
      have hopen : mem (t.data + 3) = '(' := hdata ▸ (List.cons.inj htag).1
      have hne : k ≠ t.data + 3 := by
        rintro rfl
        rw [hopen] at hletter
        exact hletter (by decide)
      have hk : k < t.end_ := by
        rw [hread.end_, hlast, hsome]
        exact hlt
      have hbracket : continueIdent (mem (t.data + 4 - 1)) = false := by
        rw [Nat.add_sub_assoc (by decide), hopen]
        decide
      have heq := (hbehind (b := t.data + 4) (by omega) (by omega) hk (Bool.eq_true_of_not_eq_false hletter)
        (.inr hbracket)).1
      omega
  · by_contra hnot
    have hleft : t.data = s₀.beg ∨ continueIdent (mem (t.data - 1)) = false := by
      rw [hdata]
      rcases hpassed.apart_skip with heq | hapart | ⟨t₁, ht₁, htype₁, hend₁⟩
      · exact .inl heq
      · obtain ⟨c, rest, hview, hc⟩ := hunsigned.cons
        exact .inr (hapart.before hview (continueIdent_of_startIdent hc))
      · have htagged := not_not.mp fun hother ↦ hnot ⟨t₁, ht₁, htype₁, hend₁, hother⟩
        exact .inr (by rw [htagged.2]; decide)
    have hsize := hread.size_pos
    obtain ⟨-, t₁, ht₁, htype₁, hnan₁, hend₁⟩ := hbehind (Nat.le_refl _) (Nat.le_refl _) (Nat.lt_add_of_pos_right hsize)
      (hdata ▸ hunsigned.start) hleft
    exact hnot ⟨t₁, ht₁, htype₁, hend₁.trans hdata, fun h ↦ hnan₁ h.1⟩

end

/-! ## The tokenizer -/

/-- While no comment wraps the counter, the tokens partition the source and its words are tokens exactly when `nan`,
in capitals or not and behind a sign or not, continues a number wherever the main loop comes to it. -/
theorem tokenization_iff (mem : Memory) (source : SourceView) {data : ℕ} {tokens : List Token}
    (hdata : source.data = some data) (htokens : tokenize mem source = .ok tokens)
    (hfits : ∀ read s, (tokenizeLoop mem).Reaches ([], source.start data) (read, s) →
      CommentFits ((s.skipWhitespace mem).view mem)) :
    Tokenization mem data (data + source.size) tokens ↔ NanContinues mem (source.start data) := by
  have hrun : (tokenizeLoop mem).run ([], source.start data) = .ok tokens := by
    rw [← htokens, tokenize, hdata]
    rfl
  constructor
  · exact fun h ↦ nanContinues_of_words hfits hrun h.words
  · intro hnan
    obtain ⟨later, rfl, hpart⟩ := run_partition hfits hrun
    exact ⟨hpart, hpart.flatten_pieces, words_of_nanContinues hrun hnan⟩

/-- A counter of 32 bits is enough for a source below four gibibytes. -/
theorem commentFits_of_size {mem : Memory} {source : SourceView} {data : ℕ} (hsize : source.size < 2 ^ 32) :
    ∀ read s, (tokenizeLoop mem).Reaches ([], source.start data) (read, s) →
      CommentFits ((s.skipWhitespace mem).view mem) := by
  intro read s hreach
  obtain ⟨before, hbefore⟩ := (passed hreach).reads_skip
  have hleft := hbefore.left_eq
  have hstart : (source.start data).left = source.size := Nat.add_sub_cancel_left data source.size
  refine commentFits_of_length ?_
  rw [length_view]
  omega

/-- A source in which `nan` stands nowhere. -/
theorem nanContinues_of_suffixes {mem : Memory} {s₀ : ParseString}
    (h : ∀ text ∈ (s₀.view mem).tails, ¬StartsWithNan text) : NanContinues mem s₀ := by
  intro read s hreach hnan
  obtain ⟨before, hbefore⟩ := (passed hreach).reads_skip
  have htail : (scanSign ((s.skipWhitespace mem).view mem)).2 <:+ (s.skipWhitespace mem).view mem := by
    rcases scanSign_cases ((s.skipWhitespace mem).view mem) with heq | ⟨c, rest, -, htext, heq⟩
    · rw [heq]
    · rw [heq, htext]
      exact List.suffix_cons c rest
  exact absurd hnan (h _ ((List.mem_tails _ _).mpr (htail.trans ⟨before, hbefore.view.symm⟩)))

/-- A keyword, a comment and an identifier. -/
theorem tokenization_comment : Tokenization (memoryOf ['i', 'f', '/', '*', '*', '/', 'x']) 0 7
    [⟨0, 2, .first, .keyword⟩, ⟨6, 1, ⟨1, 7⟩, .identifier⟩] := by
  refine (tokenization_iff (memoryOf ['i', 'f', '/', '*', '*', '/', 'x']) ⟨some 0, 7, fun h ↦ by cases h⟩ rfl
    (by decide +kernel) (commentFits_of_size (by decide))).mpr (nanContinues_of_suffixes ?_)
  have hall : ((chars (memoryOf ['i', 'f', '/', '*', '*', '/', 'x']) 0 7).tails.all fun text ↦
      !startsWith ['n', 'a', 'n'] text) = true := by decide +kernel
  intro text htext hnan
  have hnot := List.all_eq_true.mp hall text htext
  rw [hnan] at hnot
  cases hnot

/-- The word `nan` is a number. -/
theorem nan_not_tokenization : ¬∀ (mem : Memory) (source : SourceView) (data : ℕ) (tokens : List Token),
    source.data = some data → tokenize mem source = .ok tokens →
    Tokenization mem data (data + source.size) tokens := by
  intro h
  have htokens : tokenize (memoryOf ['n', 'a', 'n']) ⟨some 0, 3, fun h ↦ by cases h⟩ = .ok [⟨0, 3, .first, .number⟩] := by
    decide +kernel
  have hwords := (h _ _ 0 _ rfl htokens).words
  have hrun : IsRun (memoryOf ['n', 'a', 'n']) 0 3 := ⟨by decide, by decide, by decide⟩
  have hword : IsWord (memoryOf ['n', 'a', 'n']) 0 3 0 3 :=
    hrun.isWord (Nat.le_refl 0) ⟨Nat.le_refl 3, fun h ↦ absurd h (Nat.lt_irrefl 3)⟩ (.inl rfl)
  have hout : Outside [⟨0, 3, .first, .number⟩] 0 3 := fun k _ hk ↦
    ⟨_, List.mem_singleton_self _, Nat.zero_le k, hk, by decide, by decide⟩
  have hcont : ¬Continues (memoryOf ['n', 'a', 'n']) [⟨0, 3, .first, .number⟩] 0 :=
    fun ⟨_, _, _, _, hlt, _⟩ ↦ absurd hlt (Nat.not_lt_zero _)
  obtain ⟨t, ht, -, -, htype⟩ := hwords 0 3 hword hout hcont
  rw [List.mem_singleton.mp ht] at htype
  split_ifs at htype

end Stela.Lex
