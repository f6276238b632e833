import Stela.Lex.LexicalAnalysis
import Mathlib.Order.Bounds.Basic
import Mathlib.Data.Set.Basic

/-!
# Nested comments

A comment ends where every bracket that was opened in it is closed. The loop of `parseMultiComment` counts the
brackets in a `uint32_t`, so it finds the end of the comment unless the count wraps; when it wraps, the
comment may end too early.
-/

namespace Stela.Lex

open ParseString Library

/-- How many brackets are open after the text, when this many are before it. Brackets do not overlap: the two
characters of one are passed together. -/
def depth : ℤ → List Char → ℤ
  | d, '*' :: '/' :: rest => depth (d - 1) rest
  | d, '/' :: '*' :: rest => depth (d + 1) rest
  | d, _ :: rest => depth d rest
  | d, [] => d

/-- The prefix of this length has brackets, and all of them are closed. -/
def ClosedPrefix (text : List Char) (n : ℕ) : Prop := 2 ≤ n ∧ n ≤ text.length ∧ depth 0 (text.take n) = 0

/-- Up to the end of the comment, no bracket is closed where the number of open brackets is above one and zero or
one modulo `2 ^ 32`. -/
def CounterFits : ℕ → List Char → Prop
  | d, '*' :: '/' :: rest => d = 1 ∨ 1 < d % 2 ^ 32 ∧ CounterFits (d - 1) rest
  | d, '/' :: '*' :: rest => CounterFits (d + 1) rest
  | d, _ :: rest => CounterFits d rest
  | _, [] => True

/-- The length of the text up to the bracket that closes the last open one. -/
def closing : ℕ → List Char → Option ℕ
  | d, '*' :: '/' :: rest => if d = 1 then some 2 else (closing (d - 1) rest).map (· + 2)
  | d, '/' :: '*' :: rest => (closing (d + 1) rest).map (· + 2)
  | d, _ :: rest => (closing d rest).map (· + 1)
  | _, [] => none

/-- The character does not begin a bracket. -/
def Passes (c : Char) (rest : List Char) : Prop :=
  ¬['*', '/'] <+: c :: rest ∧ ¬['/', '*'] <+: c :: rest

section

variable {c : Char} {rest : List Char}

theorem Passes.not_closed (h : Passes c rest) : ∀ r, c = '*' → rest = '/' :: r → False :=
  fun r hc hr ↦ h.1 ⟨r, by rw [hc, hr]; rfl⟩

theorem Passes.not_opened (h : Passes c rest) : ∀ r, c = '/' → rest = '*' :: r → False :=
  fun r hc hr ↦ h.2 ⟨r, by rw [hc, hr]; rfl⟩

theorem Passes.take (h : Passes c rest) (n : ℕ) : Passes c (rest.take n) :=
  ⟨fun hp ↦ h.1 (hp.trans (List.prefix_cons_iff.mpr (.inr ⟨_, rfl, List.take_prefix n rest⟩))),
    fun hp ↦ h.2 (hp.trans (List.prefix_cons_iff.mpr (.inr ⟨_, rfl, List.take_prefix n rest⟩)))⟩

theorem passes_of_unmarked (h : c ≠ '*' ∧ c ≠ '/') : Passes c rest :=
  ⟨fun hp ↦ h.1 (List.cons_prefix_cons.mp hp).1.symm, fun hp ↦ h.2 (List.cons_prefix_cons.mp hp).1.symm⟩

theorem Passes.depth (h : Passes c rest) (d : ℤ) : depth d (c :: rest) = Lex.depth d rest :=
  depth.eq_3 d c rest h.not_closed h.not_opened

theorem Passes.counterFits (h : Passes c rest) (d : ℕ) : CounterFits d (c :: rest) ↔ CounterFits d rest :=
  iff_of_eq (CounterFits.eq_3 d c rest h.not_closed h.not_opened)

theorem Passes.closing (h : Passes c rest) (d : ℕ) : closing d (c :: rest) = (Lex.closing d rest).map (· + 1) :=
  closing.eq_3 d c rest h.not_closed h.not_opened

end

/-! ## The first closed prefix -/

/-- The first prefix after which no bracket is open has this length, if there is one. -/
def EndsAt (d : ℤ) (text : List Char) : Option ℕ → Prop
  | some n => n ≤ text.length ∧ depth d (text.take n) = 0 ∧ ∀ m < n, depth d (text.take m) ≠ 0
  | none => ∀ m, depth d (text.take m) ≠ 0

theorem EndsAt.append {d d' : ℤ} {front rest : List Char} {o : Option ℕ}
    (hfront : ∀ m < front.length, depth d (front.take m) ≠ 0)
    (hrest : ∀ m, depth d (front ++ rest.take m) = depth d' (rest.take m)) (h : EndsAt d' rest o) :
    EndsAt d (front ++ rest) (o.map (· + front.length)) := by
  have hlt (m : ℕ) (hm : m < front.length) : depth d ((front ++ rest).take m) ≠ 0 := by
    rw [List.take_append_of_le_length hm.le]
    exact hfront m hm
  have hge (m : ℕ) : depth d ((front ++ rest).take (front.length + m)) = depth d' (rest.take m) := by
    rw [List.take_length_add_append, hrest]
  cases o with
  | none =>
    intro m
    rcases lt_or_ge m front.length with hm | hm
    · exact hlt m hm
    · obtain ⟨k, rfl⟩ := Nat.exists_eq_add_of_le hm
      rw [hge]
      exact h k
  | some n =>
    obtain ⟨hle, hzero, hfirst⟩ := h
    change EndsAt d (front ++ rest) (some (n + front.length))
    refine ⟨?_, ?_, fun m hm ↦ ?_⟩
    · rw [List.length_append]
      omega
    · rw [Nat.add_comm, hge, hzero]
    · rcases lt_or_ge m front.length with hm' | hm'
      · exact hlt m hm'
      · obtain ⟨k, rfl⟩ := Nat.exists_eq_add_of_le hm'
        rw [hge]
        exact hfirst k (by omega)

/-- Before the second character of a bracket is read, the bracket does not count. -/
theorem depth_take_bracket {d : ℤ} (hd : d ≠ 0) (a b : Char) (rest : List Char) :
    ∀ m < 2, depth d ((a :: b :: rest).take m) ≠ 0 := by
  intro m hm
  obtain rfl | rfl : m = 0 ∨ m = 1 := by omega
  · exact hd
  · rw [List.take_succ_cons, List.take_zero, Passes.depth ⟨by simp, by simp⟩]
    exact hd

theorem endsAt_closing {d : ℕ} (hd : 0 < d) (text : List Char) : EndsAt d text (closing d text) := by
  induction d, text using closing.induct with
  | case1 rest =>
    exact ⟨by simp, by simp [depth], depth_take_bracket (Nat.cast_ne_zero.mpr one_ne_zero) '*' '/' rest⟩
  | case2 d rest hd' ih =>
    rw [closing, if_neg hd']
    refine @EndsAt.append d (d - 1 : ℕ) ['*', '/'] rest _ (depth_take_bracket (by omega) '*' '/' []) (fun m ↦ ?_)
      (ih (by omega))
    rw [Nat.cast_sub hd, Nat.cast_one]
    rfl
  | case3 d rest ih =>
    exact @EndsAt.append d (d + 1 : ℕ) ['/', '*'] rest _ (depth_take_bracket (by omega) '/' '*' []) (fun _ ↦ rfl)
      (ih (Nat.succ_pos d))
  | case4 d c rest hclose hopen ih =>
    have hpasses : Passes c rest :=
      ⟨fun ⟨r, hr⟩ ↦ hclose r (List.cons.inj hr).1.symm (List.cons.inj hr).2.symm,
        fun ⟨r, hr⟩ ↦ hopen r (List.cons.inj hr).1.symm (List.cons.inj hr).2.symm⟩
    rw [hpasses.closing]
    refine @EndsAt.append d d [c] rest _ (fun m hm ↦ ?_) (fun m ↦ (hpasses.take m).depth d) (ih hd)
    rw [Nat.lt_one_iff.mp hm]
    exact Nat.cast_ne_zero.mpr hd.ne'
  | case5 d =>
    intro m
    rw [List.take_nil]
    exact Nat.cast_ne_zero.mpr hd.ne'

/-! ## What the loop does -/

section

variable {t rest : List Char}

theorem closing_append (ht : ∀ c ∈ t, c ≠ '*' ∧ c ≠ '/') (d : ℕ) :
    closing d (t ++ rest) = (closing d rest).map (· + t.length) := by
  induction t with
  | nil => simp
  | cons c t ih =>
    rw [List.cons_append, (passes_of_unmarked (ht c List.mem_cons_self)).closing,
      ih fun c hc ↦ ht c (List.mem_cons_of_mem _ hc), Option.map_map]
    rfl

theorem counterFits_append (ht : ∀ c ∈ t, c ≠ '*' ∧ c ≠ '/') (d : ℕ) :
    CounterFits d (t ++ rest) ↔ CounterFits d rest := by
  induction t with
  | nil => rfl
  | cons c t ih =>
    rw [List.cons_append, (passes_of_unmarked (ht c List.mem_cons_self)).counterFits,
      ih fun c hc ↦ ht c (List.mem_cons_of_mem _ hc)]

end

section

variable {mem : Memory} {loc : LineCol} {s : ParseString} {st st' : ParseString × UInt32} {t : List Char} {d : ℕ}

/-- The iteration that begins here closes a bracket. -/
def Closes (mem : Memory) (s : ParseString) : Prop :=
  (s.skipUntil mem fun c ↦ c = '*' || c = '/').checkString mem ['*', '/'] ≠ none

theorem closes_iff {rest : List Char} (ht : ∀ c ∈ t, c ≠ '*' ∧ c ≠ '/') (hview : s.view mem = t ++ rest)
    (hrest : ∀ c ∈ rest.head?, c = '*' ∨ c = '/') : Closes mem s ↔ ['*', '/'] <+: rest := by
  rw [Closes, ne_eq, checkString_eq_none, not_not,
    view_skipUntil hview (by simpa using ht) (by simpa using hrest)]

theorem counter_sub_eq_zero {c : UInt32} (hcount : c.toNat = d % 2 ^ 32) : c - 1 = 0 ↔ d % 2 ^ 32 = 1 := by
  rw [← UInt32.toNat_inj, UInt32.toNat_sub, hcount]
  change (2 ^ 32 - 1 + d % 2 ^ 32) % 2 ^ 32 = 0 ↔ d % 2 ^ 32 = 1
  omega

theorem counter_sub {c : UInt32} (hd : 0 < d) (hcount : c.toNat = d % 2 ^ 32) :
    (c - 1).toNat = (d - 1) % 2 ^ 32 := by
  rw [UInt32.toNat_sub, hcount]
  change (2 ^ 32 - 1 + d % 2 ^ 32) % 2 ^ 32 = (d - 1) % 2 ^ 32
  omega

theorem counter_add {c : UInt32} (hcount : c.toNat = d % 2 ^ 32) : (c + 1).toNat = (d + 1) % 2 ^ 32 := by
  rw [UInt32.toNat_add, hcount]
  change (d % 2 ^ 32 + 1) % 2 ^ 32 = (d + 1) % 2 ^ 32
  omega

theorem counter_eq_zero {c : UInt32} (hcount : c.toNat = d % 2 ^ 32) : c = 0 ↔ d % 2 ^ 32 = 0 := by
  rw [← hcount, ← UInt32.toNat_inj]
  rfl

theorem closing_close (hd : d ≠ 1) (rest : List Char) :
    closing d ('*' :: '/' :: rest) = (closing (d - 1) rest).map (· + 2) := by
  rw [closing, if_neg hd]

theorem closing_ne_zero (hd : 0 < d) (text : List Char) : closing d text ≠ some 0 := by
  intro h
  have hends := endsAt_closing hd text
  rw [h] at hends
  exact hd.ne' (Nat.cast_eq_zero.mp hends.2.1)

/-- What an iteration does, told by the text and the number `d` of open brackets, of which the loop has the
remainder modulo `2 ^ 32`. -/
inductive Iteration (mem : Memory) (loc : LineCol) (st : ParseString × UInt32) (d : ℕ) : Prop
  | throws : commentStep mem loc st = .error (.fatal loc "Unterminated multi-line comment") → ¬Closes mem st.1 →
      closing d (st.1.view mem) = none → CounterFits d (st.1.view mem) → Iteration mem loc st d
  | returns {t s'} : commentStep mem loc st = .ok (.inl s') → Reads mem st.1 t s' → st.2 ≠ 0 →
      (CounterFits d (st.1.view mem) ↔ closing d (st.1.view mem) = some t.length) → Iteration mem loc st d
  | next {t d' st'} : commentStep mem loc st = .ok (.inr st') → Reads mem st.1 t st'.1 → 0 < d' →
      st'.2.toNat = d' % 2 ^ 32 →
      closing d (st.1.view mem) = (closing d' (st'.1.view mem)).map (· + t.length) →
      (CounterFits d (st.1.view mem) ↔ (Closes mem st.1 → st.2 ≠ 0) ∧ CounterFits d' (st'.1.view mem)) →
      Iteration mem loc st d

theorem iteration_closed {s' : ParseString} (hd : 0 < d) (hcount : st.2.toNat = d % 2 ^ 32)
    (ht : ∀ c ∈ t, c ≠ '*' ∧ c ≠ '/') (hreads : Reads mem st.1 (t ++ ['*', '/']) s')
    (hbody : commentStep mem loc st = .ok (if st.2 - 1 = 0 then .inl s' else .inr (s', st.2 - 1))) :
    Iteration mem loc st d := by
  have hview : st.1.view mem = t ++ '*' :: '/' :: s'.view mem := by simpa using hreads.view
  have hcloses : Closes mem st.1 := (closes_iff ht hview (by simp)).mpr ⟨_, rfl⟩
  by_cases hone : d % 2 ^ 32 = 1
  · rw [if_pos ((counter_sub_eq_zero hcount).mpr hone)] at hbody
    refine .returns hbody hreads (fun h ↦ ?_) ?_
    · rw [counter_eq_zero hcount] at h
      omega
    rw [hview, counterFits_append ht, closing_append ht]
    by_cases hd' : d = 1
    · rw [closing, if_pos hd']
      exact iff_of_true (.inl hd') (by simp [Nat.add_comm])
    · rw [closing_close hd', Option.map_map]
      refine iff_of_false (fun h ↦ ?_) fun h ↦ ?_
      · have := (h.resolve_left hd').1
        omega
      · obtain ⟨n, hn, hlen⟩ := Option.map_eq_some_iff.mp h
        simp only [Function.comp_apply, List.length_append, List.length_cons, List.length_nil] at hlen
        obtain rfl : n = 0 := by omega
        exact closing_ne_zero (by omega) _ hn
  · rw [if_neg (mt (counter_sub_eq_zero hcount).mp hone)] at hbody
    have hd' : d ≠ 1 := fun h ↦ hone (by omega)
    refine .next hbody hreads (Nat.sub_pos_of_lt (by omega)) (counter_sub hd hcount) ?_ ?_
    · rw [hview, closing_append ht, closing_close hd', Option.map_map]
      simp [Function.comp_def, Nat.add_comm, Nat.add_left_comm]
    · rw [hview, counterFits_append ht, ne_eq, counter_eq_zero hcount]
      constructor
      · intro h
        obtain ⟨hlt, hrest⟩ := h.resolve_left hd'
        exact ⟨fun _ ↦ by omega, hrest⟩
      · intro ⟨hzero, hrest⟩
        have := hzero hcloses
        exact .inr ⟨by omega, hrest⟩

theorem iteration (hd : 0 < d) (hcount : st.2.toNat = d % 2 ^ 32) : Iteration mem loc st d := by
  generalize hbody : commentStep mem loc st = r
  cases commentStep_cases hbody with
  | closed ht hreads => exact iteration_closed hd hcount ht hreads hbody
  | @opened t s' ht hreads =>
    have hview : st.1.view mem = t ++ '/' :: '*' :: s'.view mem := by simpa using hreads.view
    have hnot : ¬Closes mem st.1 := fun h ↦ by simpa using (closes_iff ht hview (by simp)).mp h
    refine .next hbody hreads (Nat.succ_pos d) (counter_add hcount) ?_ ?_
    · rw [hview, closing_append ht, closing, Option.map_map]
      simp [Function.comp_def, Nat.add_comm, Nat.add_left_comm]
    · rw [hview, counterFits_append ht]
      exact ⟨fun h ↦ ⟨fun hc ↦ absurd hc hnot, h⟩, And.right⟩
  | @passed t c s' ht hc hreads hclose hopen =>
    have hview : st.1.view mem = t ++ c :: s'.view mem := by simpa using hreads.view
    have hnot : ¬Closes mem st.1 := fun h ↦ hclose ((closes_iff ht hview (by simpa using hc)).mp h)
    have hpasses : Passes c (s'.view mem) := ⟨hclose, hopen⟩
    refine .next hbody hreads hd hcount ?_ ?_
    · rw [hview, closing_append ht, hpasses.closing, Option.map_map]
      simp [Function.comp_def, Nat.add_comm, Nat.add_left_comm]
    · rw [hview, counterFits_append ht, hpasses.counterFits]
      exact ⟨fun h ↦ ⟨fun hc ↦ absurd hc hnot, h⟩, And.right⟩
  | unterminated hmarks =>
    have hview : st.1.view mem = st.1.view mem ++ [] := (List.append_nil _).symm
    have hnot : ¬Closes mem st.1 := fun h ↦ by simpa using (closes_iff hmarks hview nofun).mp h
    refine .throws hbody hnot ?_ ?_
    · rw [hview, closing_append hmarks]
      rfl
    · rw [hview, counterFits_append hmarks]
      trivial

/-- The loop behaves from this state as the text demands: it ends after so many characters, it throws if
it should not end, and no bracket is closed while the counter is zero. -/
structure EndsWell (mem : Memory) (loc : LineCol) (st : ParseString × UInt32) (o : Option ℕ) : Prop where
  ends : ∀ n ∈ o, ∃ s', (commentLoop mem loc).run st = .ok s' ∧ Reads mem st.1 ((st.1.view mem).take n) s'
  throws : o = none → (commentLoop mem loc).run st = .error (.fatal loc "Unterminated multi-line comment")
  above : ∀ st', (commentLoop mem loc).Reaches st st' → st'.2 = 0 → ¬Closes mem st'.1

theorem EndsWell.of_next {o : Option ℕ} (hnext : (commentLoop mem loc).Next st st') (hreads : Reads mem st.1 t st'.1)
    (habove : st.2 = 0 → ¬Closes mem st.1) (h : EndsWell mem loc st' o) :
    EndsWell mem loc st (o.map (· + t.length)) where
  ends n hn := by
    obtain ⟨m, hm, rfl⟩ := Option.map_eq_some_iff.mp hn
    obtain ⟨s', hrun, hrest⟩ := h.ends m hm
    refine ⟨s', (ShrinkingLoop.run_of_next hnext).trans hrun, ?_⟩
    rw [hreads.view, Nat.add_comm, List.take_length_add_append]
    exact hreads.trans hrest
  throws hnone := (ShrinkingLoop.run_of_next hnext).trans (h.throws (Option.map_eq_none_iff.mp hnone))
  above st'' hreach := by
    rcases Relation.ReflTransGen.cases_head hreach with rfl | ⟨st₁, hst₁, hreach⟩
    · exact habove
    · have heq : st₁ = st' := Sum.inr.inj (Except.ok.inj (hst₁.symm.trans hnext))
      exact h.above st'' (heq ▸ hreach)

/-- A state that does not go on is the only one that is reached from it. -/
theorem eq_of_reaches (hlast : ∀ st', ¬(commentLoop mem loc).Next st st')
    (hreach : (commentLoop mem loc).Reaches st st') : st' = st := by
  rcases Relation.ReflTransGen.cases_head hreach with rfl | ⟨st₁, hst₁, -⟩
  · rfl
  · exact absurd hst₁ (hlast st₁)

/-- While the counter fits, the loop ends where the brackets are closed. -/
theorem endsWell (hd : 0 < d) (hcount : st.2.toNat = d % 2 ^ 32) (hfits : CounterFits d (st.1.view mem)) :
    EndsWell mem loc st (closing d (st.1.view mem)) := by
  induction st using ShrinkingLoop.induction (commentLoop mem loc) generalizing d with
  | h st ih =>
    cases @iteration mem loc st d hd hcount with
    | throws hbody hnot hclosing _ =>
      rw [hclosing]
      refine ⟨nofun, fun _ ↦ ShrinkingLoop.run_of_error hbody, fun st' hreach _ ↦ ?_⟩
      rwa [eq_of_reaches (fun st' hst' ↦ nomatch hbody.symm.trans hst') hreach]
    | @returns t s' hbody hreads hpos hclosing =>
      rw [hclosing.mp hfits]
      refine ⟨?_, nofun, fun st' hreach hzero ↦ ?_⟩
      · rintro n ⟨⟩
        refine ⟨s', ShrinkingLoop.run_of_return hbody, ?_⟩
        rw [hreads.view, List.take_left]
        exact hreads
      · rw [eq_of_reaches (fun st' hst' ↦ nomatch hbody.symm.trans hst') hreach] at hzero
        exact absurd hzero hpos
    | next hbody hreads hd' hcount' hclosing hiff =>
      obtain ⟨habove, hfits⟩ := hiff.mp hfits
      rw [hclosing]
      exact .of_next hbody hreads (fun hzero hcloses ↦ habove hcloses hzero) (ih _ hbody hd' hcount' hfits)

/-- The run goes wrong: a bracket is closed while the counter is zero, or the loop ends at another place. -/
def GoesWrong (mem : Memory) (loc : LineCol) (st : ParseString × UInt32) (o : Option ℕ) : Prop :=
  (∃ st', (commentLoop mem loc).Reaches st st' ∧ st'.2 = 0 ∧ Closes mem st'.1) ∨
    ∃ s' t, (commentLoop mem loc).run st = .ok s' ∧ Reads mem st.1 t s' ∧ o ≠ some t.length

theorem GoesWrong.of_next {o : Option ℕ} (hnext : (commentLoop mem loc).Next st st') (hreads : Reads mem st.1 t st'.1)
    (h : GoesWrong mem loc st' o) : GoesWrong mem loc st (o.map (· + t.length)) := by
  rcases h with ⟨st'', hreach, hbad⟩ | ⟨s', u, hrun, hrest, hne⟩
  · exact .inl ⟨st'', .head hnext hreach, hbad⟩
  · refine .inr ⟨s', t ++ u, (ShrinkingLoop.run_of_next hnext).trans hrun, hreads.trans hrest, fun h ↦ hne ?_⟩
    obtain ⟨n, hn, hlen⟩ := Option.map_eq_some_iff.mp h
    rw [hn, List.length_append] at *
    exact congrArg some (by omega)

/-- Otherwise it does not. -/
theorem goesWrong (hd : 0 < d) (hcount : st.2.toNat = d % 2 ^ 32) (hfits : ¬CounterFits d (st.1.view mem)) :
    GoesWrong mem loc st (closing d (st.1.view mem)) := by
  induction st using ShrinkingLoop.induction (commentLoop mem loc) generalizing d with
  | h st ih =>
    cases @iteration mem loc st d hd hcount with
    | throws _ _ _ hfits' => exact absurd hfits' hfits
    | returns hbody hreads _ hclosing =>
      exact .inr ⟨_, _, ShrinkingLoop.run_of_return hbody, hreads, mt hclosing.mpr hfits⟩
    | next hbody hreads hd' hcount' hclosing hiff =>
      by_cases habove : Closes mem st.1 → st.2 ≠ 0
      · rw [hclosing]
        exact .of_next hbody hreads (ih _ hbody hd' hcount' fun h ↦ hfits (hiff.mpr ⟨habove, h⟩))
      · obtain ⟨hcloses, hzero⟩ := Classical.not_imp.mp habove
        exact .inl ⟨st, .refl, not_not.mp hzero, hcloses⟩

end

/-! ## `parseMultiComment` -/

/-- The comment at the cursor is matched: it is the shortest closed prefix, an exception says that there is none, and
in no iteration that begins with `depth` zero is the counter taken down. -/
structure MatchedExactly (mem : Memory) (s : ParseString) : Prop where
  consumes : ∀ n, IsLeast {n | ClosedPrefix (s.view mem) n} n →
    ∃ s', parseMultiComment mem s = .ok (some s') ∧ Reads mem s ((s.view mem).take n) s'
  throws : (∃ loc message, parseMultiComment mem s = .error (.fatal loc message)) ↔
    ∀ n, ¬ClosedPrefix (s.view mem) n
  above : ∀ opened st, Reads mem s ['/', '*'] opened → (commentLoop mem s.lineCol).Reaches (opened, 1) st →
    st.2 = 0 → ¬Closes mem st.1

theorem closedPrefix_iff {rest : List Char} {n : ℕ} :
    ClosedPrefix ('/' :: '*' :: rest) n ↔ ∃ m, n = m + 2 ∧ m ≤ rest.length ∧ depth 1 (rest.take m) = 0 := by
  constructor
  · intro ⟨h2, hle, hzero⟩
    obtain ⟨m, rfl⟩ := Nat.exists_eq_add_of_le' h2
    exact ⟨m, rfl, Nat.le_of_add_le_add_right hle, hzero⟩
  · rintro ⟨m, rfl, hle, hzero⟩
    exact ⟨Nat.le_add_left 2 m, Nat.add_le_add_right hle 2, hzero⟩

theorem closing_eq_none_iff (rest : List Char) :
    closing 1 rest = none ↔ ∀ n, ¬ClosedPrefix ('/' :: '*' :: rest) n := by
  have hends := endsAt_closing Nat.one_pos rest
  constructor
  · intro h n hn
    obtain ⟨m, -, -, hzero⟩ := closedPrefix_iff.mp hn
    rw [h] at hends
    exact hends m hzero
  · intro h
    cases hclosing : closing 1 rest with
    | none => rfl
    | some n =>
      rw [hclosing] at hends
      exact absurd (closedPrefix_iff.mpr ⟨n, rfl, hends.1, hends.2.1⟩) (h _)

theorem isLeast_closedPrefix_iff {rest : List Char} {n : ℕ} :
    IsLeast {n | ClosedPrefix ('/' :: '*' :: rest) n} n ↔ ∃ m, n = m + 2 ∧ closing 1 rest = some m := by
  have hends := endsAt_closing Nat.one_pos rest
  cases hclosing : closing 1 rest with
  | none =>
    refine ⟨fun h ↦ absurd h.1 ((closing_eq_none_iff rest).mp hclosing n), ?_⟩
    rintro ⟨m, -, ⟨⟩⟩
  | some k =>
    rw [hclosing] at hends
    have hleast : IsLeast {n | ClosedPrefix ('/' :: '*' :: rest) n} (k + 2) := by
      refine ⟨closedPrefix_iff.mpr ⟨k, rfl, hends.1, hends.2.1⟩, fun n hn ↦ ?_⟩
      obtain ⟨m, rfl, -, hzero⟩ := closedPrefix_iff.mp hn
      exact Nat.add_le_add_right (Nat.le_of_not_lt fun hlt ↦ hends.2.2 m hlt hzero) 2
    constructor
    · intro h
      exact ⟨k, h.unique hleast, rfl⟩
    · rintro ⟨m, rfl, hm⟩
      exact Option.some.inj hm ▸ hleast

section

variable {mem : Memory} {s : ParseString}

theorem parseMultiComment_opened {opened : ParseString} (hopened : Reads mem s ['/', '*'] opened) :
    parseMultiComment mem s = ((commentLoop mem s.lineCol).run (opened, 1)).map some := by
  rw [parseMultiComment, checkString_eq_some.mpr hopened]

theorem matchedExactly_of_fits {opened : ParseString} (hopened : Reads mem s ['/', '*'] opened)
    (hfits : CounterFits 1 (opened.view mem)) : MatchedExactly mem s := by
  have hview : s.view mem = '/' :: '*' :: opened.view mem := hopened.view
  have hends := @endsWell mem s.lineCol (opened, 1) 1 Nat.one_pos rfl hfits
  have heq := parseMultiComment_opened hopened
  constructor
  · intro n hn
    rw [hview] at hn
    obtain ⟨m, rfl, hm⟩ := isLeast_closedPrefix_iff.mp hn
    obtain ⟨s', hrun, hreads⟩ := hends.ends m hm
    refine ⟨s', by rw [heq, hrun]; rfl, ?_⟩
    rw [hview]
    exact hopened.trans hreads
  · rw [hview, ← closing_eq_none_iff]
    constructor
    · rintro ⟨loc, message, h⟩
      cases hclosing : closing 1 (opened.view mem) with
      | none => rfl
      | some m =>
        obtain ⟨s', hrun, -⟩ := hends.ends m hclosing
        rw [heq, hrun] at h
        cases h
    · intro hnone
      exact ⟨_, _, by rw [heq, hends.throws hnone]; rfl⟩
  · intro opened' st hopened' hreach
    rw [hopened'.unique hopened] at hreach
    exact hends.above st hreach

theorem fits_of_matchedExactly {opened : ParseString} (hopened : Reads mem s ['/', '*'] opened)
    (h : MatchedExactly mem s) : CounterFits 1 (opened.view mem) := by
  have hview : s.view mem = '/' :: '*' :: opened.view mem := hopened.view
  have heq := parseMultiComment_opened hopened
  by_contra hfits
  rcases @goesWrong mem s.lineCol (opened, 1) 1 Nat.one_pos rfl hfits with
    ⟨st, hreach, hzero, hcloses⟩ | ⟨s', t, hrun, hreads, hne⟩
  · exact h.above opened st hopened hreach hzero hcloses
  rw [hrun] at heq
  cases hclosing : closing 1 (opened.view mem) with
  | none =>
    obtain ⟨loc, message, hthrown⟩ := h.throws.mpr (hview ▸ (closing_eq_none_iff _).mp hclosing)
    cases heq.symm.trans hthrown
  | some m =>
    obtain ⟨s'', hs'', hreads'⟩ := h.consumes (m + 2) (hview ▸ isLeast_closedPrefix_iff.mpr ⟨m, rfl, hclosing⟩)
    cases heq.symm.trans hs''
    have hlen := (hopened.trans hreads).beg.symm.trans hreads'.beg
    have hm := (@endsAt_closing 1 Nat.one_pos (opened.view mem))
    rw [hclosing] at hm
    rw [hview, List.take_succ_cons, List.take_succ_cons] at hlen
    simp only [List.length_append, List.length_cons, List.length_nil, List.length_take] at hlen
    exact hne (hclosing.trans (congrArg some (by have := hm.1; omega)))

/-- A comment is matched exactly when the counter fits, as it does wherever fewer than `2 ^ 32` brackets are open
at once. -/
theorem matchedExactly_iff (mem : Memory) (s : ParseString) (hstart : ['/', '*'] <+: s.view mem) :
    MatchedExactly mem s ↔ CounterFits 0 (s.view mem) := by
  obtain ⟨rest, hrest⟩ := hstart
  obtain ⟨opened, hopened⟩ := exists_reads hrest.symm
  have hfits : CounterFits 0 (s.view mem) ↔ CounterFits 1 (opened.view mem) := by
    rw [hopened.view]
    rfl
  rw [hfits]
  exact ⟨fits_of_matchedExactly hopened, matchedExactly_of_fits hopened⟩

end

/-- The text is a comment in a comment. -/
theorem matchedExactly_nested :
    MatchedExactly (memoryOf ['/', '*', '/', '*', '*', '/', '*', '/'])
      (.ofText ['/', '*', '/', '*', '*', '/', '*', '/']) := by
  refine (matchedExactly_iff _ _ ?_).mpr ?_
  · rw [view_ofText]
    exact ⟨_, rfl⟩
  · rw [view_ofText]
    simp [CounterFits]

/-- So many brackets opened, and one closed. -/
def deepComment (n : ℕ) : List Char := (List.replicate n ['/', '*']).flatten ++ ['*', '/']

theorem deepComment_succ (n : ℕ) : deepComment (n + 1) = '/' :: '*' :: deepComment n := rfl

theorem counterFits_deepComment (n d : ℕ) :
    CounterFits d (deepComment n) ↔ d + n = 1 ∨ 1 < (d + n) % 2 ^ 32 := by
  induction n generalizing d with
  | zero => simp [deepComment, CounterFits]
  | succ n ih => rw [deepComment_succ, CounterFits, ih, Nat.add_right_comm, Nat.add_assoc]

theorem not_matchedExactly_deepComment {n : ℕ} (hn : n ≠ 0) (hwrap : (n + 1) % 2 ^ 32 ≤ 1) :
    ¬MatchedExactly (memoryOf (deepComment (n + 1))) (.ofText (deepComment (n + 1))) := by
  have hview : (ParseString.ofText (deepComment (n + 1))).view (memoryOf (deepComment (n + 1))) =
      ['/', '*'] ++ deepComment n := view_ofText _
  obtain ⟨opened, hopened⟩ := exists_reads hview
  intro h
  have hfits := fits_of_matchedExactly hopened h
  rw [hopened.view_eq hview, counterFits_deepComment] at hfits
  omega

/-- The loop returns although `2 ^ 32` brackets are open. -/
theorem not_matchedExactly_wrapped :
    ¬MatchedExactly (memoryOf (deepComment (2 ^ 32 + 1))) (.ofText (deepComment (2 ^ 32 + 1))) :=
  @not_matchedExactly_deepComment (2 ^ 32) (by norm_num) (by norm_num)

end Stela.Lex
