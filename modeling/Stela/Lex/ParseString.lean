import Mathlib.Data.List.TakeWhile
import Mathlib.Data.List.Basic
import Mathlib.Tactic.Common

/-!
# The cursor of the tokenizer

A cursor stands between the first character that is not read yet and the end of the source. That it never
passes the end is a field of it, so every character that it reads has to be shown to lie inside the source.
`view` is the text that is left, and each operation has a lemma that says what it does to that text.
-/

namespace Stela.Lex

/-- The characters in memory, by address. -/
abbrev Memory := ℕ → Char

/-- The characters from an address on. -/
def chars (mem : Memory) : ℕ → ℕ → List Char
  | _, 0 => []
  | a, n + 1 => mem a :: chars mem (a + 1) n

/-! ## Positions in the text -/

structure LineCol where
  line : UInt32
  col : UInt32
  deriving DecidableEq, Repr

namespace LineCol

def sizeOfTab : UInt32 := 8

def first : LineCol := ⟨1, 1⟩

def isprint (c : Char) : Bool := 32 ≤ c.toNat && c.toNat < 127

def putChar (p : LineCol) (c : Char) : LineCol :=
  if c = '\t' then { p with col := (p.col + sizeOfTab - 1) / sizeOfTab * sizeOfTab }
  else if c = '\n' then ⟨p.line + 1, first.col⟩
  else if c = '\x0b' ∨ c = '\x0c' then { p with line := p.line + 1 }
  else if c = '\r' then { p with col := first.col }
  else if c = '\x08' then if p.col ≠ first.col then { p with col := p.col - 1 } else p
  else if isprint c then { p with col := p.col + 1 } else p

def putString (p : LineCol) (str : List Char) : LineCol := str.foldl putChar p

end LineCol

/-! ## Exceptions -/

/-- What leaves a function of the lexer other than by a return. -/
inductive Thrown
  | fatal (loc : LineCol) (message : String)
  | outOfRange
  | assertion
  deriving DecidableEq, Repr

/-! ## The cursor -/

structure ParseString where
  beg : ℕ
  end_ : ℕ
  pos : LineCol
  le : beg ≤ end_
  deriving DecidableEq, Repr

namespace ParseString

variable (mem : Memory) (s : ParseString)

def left : ℕ := s.end_ - s.beg

def view : List Char := chars mem s.beg s.left

def lineCol : LineCol := s.pos

def empty : Bool := s.beg = s.end_

/-- The range check that the name denies is the argument: the callers have made it. -/
def advanceNoCheck (n : ℕ) (h : s.beg + n ≤ s.end_) : ParseString where
  beg := s.beg + n
  end_ := s.end_
  pos := s.pos.putString (chars mem s.beg n)
  le := h

def advance (n : ℕ) : Except Thrown ParseString :=
  if h : s.end_ < s.beg + n then .error .outOfRange else .ok (s.advanceNoCheck mem n (Nat.le_of_not_lt h))

def skip (pred : Char → Bool) (s : ParseString) : ParseString :=
  if h : s.beg < s.end_ ∧ pred (mem s.beg) then skip pred (s.advanceNoCheck mem 1 h.1) else s
termination_by s.left
decreasing_by
  simp only [left, advanceNoCheck]
  omega

def isspace (c : Char) : Bool := c = ' ' || (9 ≤ c.toNat && c.toNat ≤ 13)

def skipWhitespace : ParseString := s.skip mem isspace

def skipUntil (pred : Char → Bool) : ParseString := s.skip mem fun c ↦ !pred c

/-- The cursor after the characters when the text starts with one that fits, and nothing otherwise. -/
def checkPred (pred : Char → Bool) : Option ParseString :=
  if h : s.beg < s.end_ ∧ pred (mem s.beg) then some (s.advanceNoCheck mem 1 h.1) else none

def checkChar (c : Char) : Option ParseString := s.checkPred mem (· == c)

/-- The cursor after the characters when the text starts with them, and nothing otherwise. -/
def checkString (text : List Char) : Option ParseString :=
  if text.length = 0 then some s
  else if h : s.end_ < s.beg + text.length then none
  else if chars mem s.beg text.length = text then
    some (s.advanceNoCheck mem text.length (Nat.le_of_not_lt h))
  else none

/-- The index of the first name that the text starts with, the number of names if there is none, and the cursor
after the name. -/
def tryParseEnum : List (List Char) → ℕ × ParseString
  | [] => (0, s)
  | name :: names =>
    match s.checkString mem name with
    | some s' => (0, s')
    | none => let found := tryParseEnum names; (found.1 + 1, found.2)

/-- The same for a name that is followed by the end or by a character that fits. -/
def tryParseEnumPred (pred : Char → Bool) : List (List Char) → ℕ × ParseString
  | [] => (0, s)
  | name :: names =>
    let found := tryParseEnumPred pred names
    let next := (found.1 + 1, found.2)
    if h : s.end_ < s.beg + name.length then next
    else if name.length = 0 ∧ (s.beg = s.end_ ∨ pred (mem s.beg)) then (0, s)
    else if (s.beg + name.length = s.end_ ∨ pred (mem (s.beg + name.length))) ∧
        chars mem s.beg name.length = name then
      (0, s.advanceNoCheck mem name.length (Nat.le_of_not_lt h))
    else next

end ParseString

/-! ## Reading -/

@[simp] theorem length_chars (mem : Memory) (a n : ℕ) : (chars mem a n).length = n := by
  induction n generalizing a with
  | zero => rfl
  | succ n ih => rw [chars, List.length_cons, ih]

theorem chars_add (mem : Memory) (a m n : ℕ) : chars mem a (m + n) = chars mem a m ++ chars mem (a + m) n := by
  induction m generalizing a with
  | zero => rw [Nat.zero_add, Nat.add_zero, chars, List.nil_append]
  | succ m ih => rw [Nat.succ_add, chars, chars, ih, List.cons_append, Nat.add_right_comm, Nat.add_assoc]

theorem LineCol.putString_append (p : LineCol) (t u : List Char) :
    p.putString (t ++ u) = (p.putString t).putString u :=
  List.foldl_append

namespace ParseString

variable {mem mem' : Memory} {s s' s'' : ParseString} {t u : List Char}

@[simp] theorem length_view : (s.view mem).length = s.left := length_chars mem _ _

/-- From one cursor to another, the characters are read. -/
structure Reads (mem : Memory) (s : ParseString) (t : List Char) (s' : ParseString) : Prop where
  view : s.view mem = t ++ s'.view mem
  beg : s'.beg = s.beg + t.length
  end_ : s'.end_ = s.end_
  pos : s'.pos = s.pos.putString t

theorem Reads.refl (mem : Memory) (s : ParseString) : Reads mem s [] s := ⟨rfl, rfl, rfl, rfl⟩

theorem Reads.trans (h : Reads mem s t s') (h' : Reads mem s' u s'') : Reads mem s (t ++ u) s'' where
  view := by rw [h.view, h'.view, List.append_assoc]
  beg := by rw [h'.beg, h.beg, List.length_append, Nat.add_assoc]
  end_ := h'.end_.trans h.end_
  pos := by rw [h'.pos, h.pos, LineCol.putString_append]

/-- Where the cursor stands is decided by what has been read, whatever the memory around it is. -/
theorem Reads.unique (h : Reads mem s t s') (h' : Reads mem' s t s'') : s' = s'' := by
  cases s'
  cases s''
  cases h.beg.trans h'.beg.symm
  cases h.end_.trans h'.end_.symm
  cases h.pos.trans h'.pos.symm
  rfl

theorem Reads.left_eq (h : Reads mem s t s') : s.left = t.length + s'.left := by
  rw [← @length_view mem, h.view, List.length_append, length_view]

theorem reads_advanceNoCheck {n : ℕ} (h : s.beg + n ≤ s.end_) :
    Reads mem s (chars mem s.beg n) (s.advanceNoCheck mem n h) where
  view := by
    have hleft : s.left = n + (s.advanceNoCheck mem n h).left := by
      simp only [left, advanceNoCheck]
      omega
    rw [ParseString.view, hleft, chars_add]
    rfl
  beg := congrArg (s.beg + ·) (length_chars mem s.beg n).symm
  end_ := rfl
  pos := rfl

theorem view_eq_nil : s.view mem = [] ↔ s.empty := by
  rw [← List.length_eq_zero_iff, length_view, left, empty, decide_eq_true_iff]
  have := s.le
  omega

theorem reads_one (h : s.beg < s.end_) : Reads mem s [mem s.beg] (s.advanceNoCheck mem 1 h) :=
  @reads_advanceNoCheck mem s 1 h

theorem view_of_lt (h : s.beg < s.end_) : s.view mem = mem s.beg :: (s.advanceNoCheck mem 1 h).view mem :=
  (reads_one h).view

theorem lt_of_view_cons {c : Char} (h : s.view mem = c :: t) : s.beg < s.end_ := by
  refine Nat.lt_of_le_of_ne s.le fun hend ↦ ?_
  rw [view_eq_nil.mpr (decide_eq_true hend)] at h
  cases h

theorem front_eq {c : Char} (h : s.view mem = c :: t) : mem s.beg = c := by
  rw [view_of_lt (lt_of_view_cons h)] at h
  exact (List.cons.inj h).1

/-! ## The operations on the text that is left -/

theorem reads_skip (pred : Char → Bool) (s : ParseString) :
    Reads mem s ((s.view mem).takeWhile pred) (s.skip mem pred) := by
  induction s using skip.induct mem pred with
  | case1 s h ih =>
    rw [skip, dif_pos h, view_of_lt h.1, List.takeWhile_cons_of_pos h.2]
    exact (reads_one h.1).trans ih
  | case2 s h =>
    rw [skip, dif_neg h]
    have hnone : (s.view mem).takeWhile pred = [] := by
      cases hview : s.view mem with
      | nil => rfl
      | cons c t =>
        refine List.takeWhile_cons_of_neg fun hc ↦ h ⟨lt_of_view_cons hview, ?_⟩
        rw [front_eq hview]
        exact hc
    rw [hnone]
    exact Reads.refl mem s

theorem view_skip (pred : Char → Bool) (s : ParseString) :
    (s.skip mem pred).view mem = (s.view mem).dropWhile pred := by
  have h := (@reads_skip mem pred s).view
  conv_lhs at h => rw [← List.takeWhile_append_dropWhile (p := pred) (l := s.view mem)]
  exact (List.append_cancel_left h).symm

theorem skipUntil_spec (pred : Char → Bool) (s : ParseString) :
    ∃ t, (∀ c ∈ t, pred c = false) ∧ Reads mem s t (s.skipUntil mem pred) ∧
      ∀ c ∈ ((s.skipUntil mem pred).view mem).head?, pred c = true := by
  refine ⟨_, fun c hc ↦ ?_, reads_skip (fun c ↦ !pred c) s, fun c hc ↦ ?_⟩
  · simpa using List.mem_takeWhile_imp hc
  · rw [skipUntil, view_skip, Option.mem_def] at hc
    have hhead := List.head?_dropWhile_not (fun c ↦ !pred c) (s.view mem)
    rw [hc] at hhead
    simpa using hhead

theorem view_skipUntil {pred : Char → Bool} (hview : s.view mem = t ++ u) (ht : ∀ c ∈ t, pred c = false)
    (hu : ∀ c ∈ u.head?, pred c = true) : (s.skipUntil mem pred).view mem = u := by
  rw [skipUntil, view_skip, hview, List.dropWhile_append_of_pos (by simpa using ht)]
  cases u with
  | nil => rfl
  | cons c u => exact List.dropWhile_cons_of_neg (by simpa using hu c rfl)

theorem checkPred_eq_some {pred : Char → Bool} :
    s.checkPred mem pred = some s' ↔ ∃ c, pred c ∧ Reads mem s [c] s' := by
  constructor
  · intro h
    rw [checkPred] at h
    split at h
    · cases h
      exact ⟨_, ‹_ ∧ _›.2, reads_one _⟩
    · cases h
  · intro ⟨c, hc, h⟩
    have hlt := lt_of_view_cons h.view
    rw [← front_eq h.view] at hc h
    rw [checkPred, dif_pos ⟨hlt, hc⟩, (reads_one hlt).unique h]

theorem checkChar_eq_some {c : Char} : s.checkChar mem c = some s' ↔ Reads mem s [c] s' := by
  rw [checkChar, checkPred_eq_some]
  exact ⟨fun ⟨d, hd, h⟩ ↦ eq_of_beq hd ▸ h, fun h ↦ ⟨c, beq_self_eq_true c, h⟩⟩

theorem checkPred_eq_none {pred : Char → Bool} :
    s.checkPred mem pred = none ↔ ∀ c t, s.view mem = c :: t → pred c = false := by
  rw [Option.eq_none_iff_forall_ne_some]
  constructor
  · intro h c t hview
    refine Bool.eq_false_iff.mpr fun hc ↦ ?_
    have hlt := lt_of_view_cons hview
    exact h _ (checkPred_eq_some.mpr ⟨mem s.beg, (front_eq hview).symm ▸ hc, reads_one hlt⟩)
  · intro h s' hs'
    obtain ⟨c, hc, hr⟩ := checkPred_eq_some.mp hs'
    rw [h c _ hr.view] at hc
    cases hc

theorem checkChar_eq_none {c : Char} : s.checkChar mem c = none ↔ ∀ t, s.view mem ≠ c :: t := by
  rw [checkChar, checkPred_eq_none]
  constructor
  · intro h t ht
    have := h c t ht
    simp at this
  · intro h d t ht
    exact beq_eq_false_iff_ne.mpr fun hd ↦ h t (hd ▸ ht)

theorem take_view {n : ℕ} (h : s.beg + n ≤ s.end_) : (s.view mem).take n = chars mem s.beg n := by
  rw [(reads_advanceNoCheck h).view, List.take_left' (length_chars mem s.beg n)]

theorem checkString_eq_some {text : List Char} : s.checkString mem text = some s' ↔ Reads mem s text s' := by
  rcases text.eq_nil_or_concat with rfl | ⟨_, _, htext⟩
  · have hnil : s.checkString mem [] = some s := rfl
    rw [hnil]
    exact ⟨fun h ↦ Option.some.inj h ▸ Reads.refl mem s, fun h ↦ congrArg some ((Reads.refl mem s).unique h)⟩
  have hlen : text.length ≠ 0 := by simp [htext]
  clear htext
  rw [checkString, if_neg hlen]
  constructor
  · intro h
    split at h
    · cases h
    · rename_i hle
      split at h
      · rename_i htext
        cases h
        have hreads : Reads mem s _ _ := reads_advanceNoCheck (Nat.le_of_not_lt hle)
        rwa [htext] at hreads
      · cases h
  · intro h
    have hle : s.beg + text.length ≤ s.end_ := h.beg ▸ h.end_ ▸ s'.le
    have htext : chars mem s.beg text.length = text := by
      rw [← take_view hle, h.view, List.take_left]
    rw [dif_neg (Nat.not_lt.mpr hle), if_pos htext, (reads_advanceNoCheck hle).unique (htext.symm ▸ h)]

theorem exists_reads (h : s.view mem = t ++ u) : ∃ s', Reads mem s t s' := by
  have hle : s.beg + t.length ≤ s.end_ := by
    have hlen := congrArg List.length h
    rw [length_view, List.length_append, left] at hlen
    have := s.le
    omega
  have ht : chars mem s.beg t.length = t := by rw [← take_view hle, h, List.take_left]
  have hreads : Reads mem s _ _ := reads_advanceNoCheck hle
  rw [ht] at hreads
  exact ⟨_, hreads⟩

theorem Reads.view_eq (h : Reads mem s t s') (hview : s.view mem = t ++ u) : s'.view mem = u :=
  List.append_cancel_left (h.view.symm.trans hview)

theorem checkString_eq_none {text : List Char} : s.checkString mem text = none ↔ ¬text <+: s.view mem := by
  rw [Option.eq_none_iff_forall_ne_some]
  constructor
  · rintro h ⟨u, hu⟩
    obtain ⟨s', hs'⟩ := exists_reads hu.symm
    exact h s' (checkString_eq_some.mpr hs')
  · intro h s' hs'
    exact h ⟨_, (checkString_eq_some.mp hs').view.symm⟩

theorem advance_eq {n : ℕ} (h : n ≤ s.left) : ∃ s', s.advance mem n = .ok s' ∧ Reads mem s ((s.view mem).take n) s' := by
  have hle : s.beg + n ≤ s.end_ := by
    have := s.le
    rw [left] at h
    omega
  refine ⟨_, dif_neg (Nat.not_lt.mpr hle), ?_⟩
  rw [take_view hle]
  exact reads_advanceNoCheck hle

theorem advance_eq_ok {n : ℕ} : s.advance mem n = .ok s' ↔ n ≤ s.left ∧ Reads mem s ((s.view mem).take n) s' := by
  constructor
  · intro h
    rw [advance] at h
    split at h
    · cases h
    · rename_i hle
      cases h
      rw [take_view (Nat.le_of_not_lt hle)]
      refine ⟨?_, reads_advanceNoCheck _⟩
      rw [left]
      omega
  · intro ⟨hn, h⟩
    obtain ⟨s'', hs'', hreads⟩ := @advance_eq mem s n hn
    rw [hs'', hreads.unique h]

theorem tryParseEnum_reads : {names : List (List Char)} → (s.tryParseEnum mem names).1 ≠ names.length →
    ∃ name ∈ names, Reads mem s name (s.tryParseEnum mem names).2
  | [], h => absurd rfl h
  | name :: names, h => by
    rw [tryParseEnum] at h ⊢
    split at h
    · rename_i s' hcheck
      simp only
      exact ⟨name, List.mem_cons_self, checkString_eq_some.mp hcheck⟩
    · rename_i hcheck
      simp only
      obtain ⟨found, hmem, hreads⟩ := tryParseEnum_reads fun heq ↦ h (congrArg (· + 1) heq)
      exact ⟨found, List.mem_cons_of_mem name hmem, hreads⟩

theorem mem_head_view {c : Char} : c ∈ (s.view mem).head? ↔ s.beg < s.end_ ∧ mem s.beg = c := by
  cases hview : s.view mem with
  | nil =>
    have hend : s.beg = s.end_ := of_decide_eq_true (view_eq_nil.mp hview)
    rw [hend]
    simp
  | cons d t => simp [lt_of_view_cons hview, front_eq hview]

/-- The test of `tryParseEnumPred` behind a name. -/
theorem Reads.next_iff (h : Reads mem s t s') {pred : Char → Bool} :
    s.beg + t.length = s.end_ ∨ pred (mem (s.beg + t.length)) ↔ ∀ c ∈ (s'.view mem).head?, pred c := by
  rw [← h.beg, ← h.end_, or_iff_not_imp_left]
  constructor
  · intro hnext c hc
    obtain ⟨hlt, rfl⟩ := mem_head_view.mp hc
    exact hnext hlt.ne
  · exact fun hnext hne ↦ hnext _ (mem_head_view.mpr ⟨Nat.lt_of_le_of_ne s'.le hne, rfl⟩)

theorem tryParseEnumPred_reads {pred : Char → Bool} : {names : List (List Char)} →
    (s.tryParseEnumPred mem pred names).1 ≠ names.length →
    ∃ name ∈ names, Reads mem s name (s.tryParseEnumPred mem pred names).2 ∧
      ∀ c ∈ ((s.tryParseEnumPred mem pred names).2.view mem).head?, pred c
  | [], h => absurd rfl h
  | name :: names, h => by
    have hlater (h : (s.tryParseEnumPred mem pred names).1 + 1 ≠ (name :: names).length) :
        ∃ found ∈ name :: names, Reads mem s found (s.tryParseEnumPred mem pred names).2 ∧
          ∀ c ∈ ((s.tryParseEnumPred mem pred names).2.view mem).head?, pred c := by
      obtain ⟨found, hmem, hreads⟩ := tryParseEnumPred_reads fun heq ↦ h (congrArg (· + 1) heq)
      exact ⟨found, List.mem_cons_of_mem name hmem, hreads⟩
    rw [tryParseEnumPred] at h ⊢
    by_cases hle : s.end_ < s.beg + name.length
    · simp only [dif_pos hle] at h ⊢
      exact hlater h
    simp only [dif_neg hle] at h ⊢
    split_ifs at h ⊢ with hnil hfound
    · obtain rfl := List.length_eq_zero_iff.mp hnil.1
      exact ⟨[], List.mem_cons_self, Reads.refl mem s, (Reads.refl mem s).next_iff.mp hnil.2⟩
    · have hreads : Reads mem s _ _ := reads_advanceNoCheck (Nat.le_of_not_lt hle)
      rw [hfound.2] at hreads
      exact ⟨name, List.mem_cons_self, hreads, hreads.next_iff.mp hfound.1⟩
    · exact hlater h

theorem tryParseEnumPred_none {pred : Char → Bool} : {names : List (List Char)} →
    (s.tryParseEnumPred mem pred names).1 = names.length → ∀ name ∈ names, Reads mem s name s' →
    ¬∀ c ∈ (s'.view mem).head?, pred c
  | [], _, _, hmem, _ => by cases hmem
  | name :: names, h, found, hmem, hreads => by
    rw [tryParseEnumPred] at h
    have hlater (h : (s.tryParseEnumPred mem pred names).1 + 1 = (name :: names).length) (hmem : found ∈ names) :
        ¬∀ c ∈ (s'.view mem).head?, pred c := tryParseEnumPred_none (Nat.succ.inj h) found hmem hreads
    rcases List.mem_cons.mp hmem with rfl | hmem
    · have hle : ¬s.end_ < s.beg + found.length := Nat.not_lt.mpr (hreads.beg ▸ hreads.end_ ▸ s'.le)
      have htext : chars mem s.beg found.length = found := by
        rw [← take_view (Nat.le_of_not_lt hle), hreads.view, List.take_left]
      rw [dif_neg hle] at h
      split_ifs at h with hnil hfound
      · exact fun hnext ↦ hfound ⟨hreads.next_iff.mpr hnext, htext⟩
    · split_ifs at h
      · exact hlater h hmem
      · exact hlater h hmem

theorem left_of_advance {n : ℕ} (h : s.advance mem n = .ok s') : s.left = n + s'.left := by
  rw [advance] at h
  split at h
  · cases h
  · cases h
    simp only [left, advanceNoCheck]
    omega

theorem left_lt_of_reads (h : Reads mem s t s') (ht : t ≠ []) : s'.left < s.left := by
  have := List.length_pos_iff.mpr ht
  rw [h.left_eq]
  omega

theorem advance_eq_outOfRange {n : ℕ} (h : s.left < n) : s.advance mem n = .error .outOfRange :=
  dif_pos (by rw [left] at h; omega)

end ParseString

/-! ## A text on its own in memory -/

/-- The text from address zero on, and null characters after it. -/
def memoryOf (text : List Char) : Memory := fun a ↦ text.getD a '\x00'

def ParseString.ofText (text : List Char) : ParseString := ⟨0, text.length, .first, Nat.zero_le _⟩

theorem chars_memoryOf {text : List Char} {a n : ℕ} (h : a + n = text.length) :
    chars (memoryOf text) a n = text.drop a := by
  induction n generalizing a with
  | zero =>
    exact (List.drop_eq_nil_of_le (Nat.le_of_eq h.symm)).symm
  | succ n ih =>
    have ha : a < text.length := by omega
    rw [chars, ih (by omega), List.drop_eq_getElem_cons ha]
    rw [memoryOf, List.getD_eq_getElem?_getD, List.getElem?_eq_getElem ha]
    rfl

@[simp] theorem ParseString.view_ofText (text : List Char) : (ofText text).view (memoryOf text) = text :=
  chars_memoryOf (Nat.zero_add _)

end Stela.Lex
