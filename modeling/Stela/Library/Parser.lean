import Stela.Library.ShrinkingLoop
import Mathlib.Data.List.Basic
import Mathlib.Logic.Function.Iterate

/-!
# Parsers

A parser reads the first tokens of a list, and what it leaves is a suffix of the list. `Yields` says which text is
read as which value in front of the tokens that are left; every way of putting parsers together has an equivalence
for it. A parser that calls itself on shorter lists is the fixed point of its body.
-/

namespace Stela.Library

structure Parser (ε τ α : Type) where
  run : List τ → Except ε (α × List τ)
  suffix : ∀ {ts a rest}, run ts = .ok (a, rest) → rest <:+ ts

namespace Parser

variable {ε τ α β σ : Type}

theorem ext {p q : Parser ε τ α} (h : ∀ ts, p.run ts = q.run ts) : p = q := by
  obtain ⟨run, _⟩ := p
  obtain ⟨run', _⟩ := q
  obtain rfl : run = run' := funext h
  rfl

instance : Monad (Parser ε τ) where
  pure a :=
    { run := fun ts ↦ .ok (a, ts)
      suffix := fun h ↦ by
        cases h
        exact List.suffix_rfl }
  bind p f :=
    { run := fun ts ↦ (p.run ts).bind fun r ↦ (f r.1).run r.2
      suffix := fun {ts b rest} h ↦ by
        cases hp : p.run ts with
        | error e =>
          rw [hp] at h
          cases h
        | ok r =>
          rw [hp] at h
          exact ((f r.1).suffix h).trans (p.suffix hp) }

def fail (e : ε) : Parser ε τ α where
  run _ := .error e
  suffix h := by cases h

theorem run_pure (a : α) (ts : List τ) : (pure a : Parser ε τ α).run ts = .ok (a, ts) := rfl

theorem run_bind_ok {p : Parser ε τ α} {f : α → Parser ε τ β} {ts rest : List τ} {a : α}
    (h : p.run ts = .ok (a, rest)) : (p >>= f).run ts = (f a).run rest := by
  change (p.run ts).bind _ = _
  rw [h]
  rfl

theorem run_bind_error {p : Parser ε τ α} {f : α → Parser ε τ β} {ts : List τ} {e : ε}
    (h : p.run ts = .error e) : (p >>= f).run ts = .error e := by
  change (p.run ts).bind _ = _
  rw [h]
  rfl

theorem run_bind_eq_ok {p : Parser ε τ α} {f : α → Parser ε τ β} {ts rest : List τ} {b : β} :
    (p >>= f).run ts = .ok (b, rest) ↔ ∃ a mid, p.run ts = .ok (a, mid) ∧ (f a).run mid = .ok (b, rest) := by
  constructor
  · intro h
    cases hp : p.run ts with
    | error e => cases (run_bind_error hp).symm.trans h
    | ok r => exact ⟨r.1, r.2, rfl, (run_bind_ok hp).symm.trans h⟩
  · rintro ⟨a, mid, hp, hf⟩
    rw [run_bind_ok hp, hf]

theorem run_map_congr {p q : Parser ε τ α} {g : α → β} {ts ts' : List τ} (h : p.run ts = q.run ts') :
    (g <$> p).run ts = (g <$> q).run ts' := by
  change (p.run ts).bind _ = (q.run ts').bind _
  rw [h]

/-! ## What is read -/

/-- In front of the rest, the text is read as the value. -/
def Yields (p : Parser ε τ α) (text : List τ) (a : α) (rest : List τ) : Prop := p.run (text ++ rest) = .ok (a, rest)

section

variable {p : Parser ε τ α} {f : α → Parser ε τ β} {text rest : List τ} {a : α} {b : β}

theorem run_eq_ok {ts : List τ} : p.run ts = .ok (a, rest) ↔ ∃ text, ts = text ++ rest ∧ p.Yields text a rest := by
  constructor
  · intro h
    obtain ⟨text, rfl⟩ := p.suffix h
    exact ⟨text, rfl, h⟩
  · rintro ⟨text, rfl, h⟩
    exact h

theorem yields_pure {a' : α} : (pure a' : Parser ε τ α).Yields text a rest ↔ text = [] ∧ a' = a := by
  rw [Yields, run_pure, Except.ok.injEq, Prod.mk.injEq, List.append_left_eq_self, and_comm]

theorem yields_fail {e : ε} : ¬(fail e : Parser ε τ α).Yields text a rest := by
  intro h
  cases h

theorem yields_bind : (p >>= f).Yields text b rest ↔
    ∃ t u a, text = t ++ u ∧ p.Yields t a (u ++ rest) ∧ (f a).Yields u b rest := by
  rw [Yields, run_bind_eq_ok]
  constructor
  · rintro ⟨a, mid, hp, hf⟩
    obtain ⟨u, rfl, hu⟩ := run_eq_ok.mp hf
    obtain ⟨t, ht, hp⟩ := run_eq_ok.mp hp
    rw [← List.append_assoc] at ht
    exact ⟨t, u, a, List.append_cancel_right ht, hp, hu⟩
  · rintro ⟨t, u, a, rfl, hp, hf⟩
    refine ⟨a, u ++ rest, ?_, hf⟩
    rw [List.append_assoc]
    exact hp

theorem Yields.bind {t u : List τ} (hp : p.Yields t a (u ++ rest)) (hf : (f a).Yields u b rest) :
    (p >>= f).Yields (t ++ u) b rest := yields_bind.mpr ⟨t, u, a, rfl, hp, hf⟩

theorem yields_ite {c : Prop} [Decidable c] {q : Parser ε τ α} :
    (if c then p else q).Yields text a rest ↔ c ∧ p.Yields text a rest ∨ ¬c ∧ q.Yields text a rest := by
  split <;> simp_all

theorem yields_bind_pure {g : α → β} :
    (p >>= fun a ↦ pure (g a)).Yields text b rest ↔ ∃ a, p.Yields text a rest ∧ g a = b := by
  simp only [yields_bind, yields_pure]
  constructor
  · rintro ⟨t, u, a, rfl, hp, rfl, hb⟩
    rw [List.append_nil]
    exact ⟨a, hp, hb⟩
  · rintro ⟨a, hp, hb⟩
    exact ⟨text, [], a, (List.append_nil text).symm, hp, rfl, hb⟩

theorem yields_map {g : α → β} : (g <$> p).Yields text b rest ↔ ∃ a, p.Yields text a rest ∧ g a = b :=
  yields_bind_pure

end

/-! ## Loops -/

section

/-- To go on, the parser has to read something. -/
def Consumes (p : Parser ε τ (α ⊕ σ)) : Prop := ∀ {text s rest}, p.Yields text (.inr s) rest → text ≠ []

/-- The result of an iteration, with the tokens that are left as a part of the state. -/
def turn : Except ε ((α ⊕ σ) × List τ) → Except ε ((α × List τ) ⊕ (σ × List τ))
  | .error e => .error e
  | .ok (.inl a, rest) => .ok (.inl (a, rest))
  | .ok (.inr s, rest) => .ok (.inr (s, rest))

theorem turn_eq_return {r : Except ε ((α ⊕ σ) × List τ)} {a : α} {rest : List τ} :
    turn r = .ok (.inl (a, rest)) ↔ r = .ok (.inl a, rest) := by
  rcases r with e | ⟨a' | s', rest'⟩ <;> simp [turn]

theorem turn_eq_next {r : Except ε ((α ⊕ σ) × List τ)} {s : σ} {rest : List τ} :
    turn r = .ok (.inr (s, rest)) ↔ r = .ok (.inr s, rest) := by
  rcases r with e | ⟨a' | s', rest'⟩ <;> simp [turn]

variable (step : σ → Parser ε τ (α ⊕ σ)) (hstep : ∀ s, (step s).Consumes)

/-- The loop over the state and the tokens that are left. -/
def shrinking : ShrinkingLoop ε (α × List τ) (σ × List τ) where
  body st := turn ((step st.1).run st.2)
  size := fun st ↦ st.2.length
  shrinks {st st'} h := by
    obtain ⟨text, htext, hyields⟩ := run_eq_ok.mp (turn_eq_next.mp h)
    have hpos := List.length_pos_iff.mpr (hstep _ hyields)
    rw [htext, List.length_append]
    omega

theorem shrinking_return {st : σ × List τ} {a : α} {rest : List τ} :
    (shrinking step hstep).body st = .ok (.inl (a, rest)) ↔ (step st.1).run st.2 = .ok (.inl a, rest) :=
  turn_eq_return

theorem shrinking_next {st : σ × List τ} {s : σ} {rest : List τ} :
    (shrinking step hstep).Next st (s, rest) ↔ (step st.1).run st.2 = .ok (.inr s, rest) :=
  turn_eq_next

/-- `inl` leaves the loop, `inr` goes on. -/
def loop (s : σ) : Parser ε τ α where
  run ts := (shrinking step hstep).run (s, ts)
  suffix {ts a rest} h := by
    obtain ⟨⟨s', mid⟩, hreach, hlast⟩ := ShrinkingLoop.run_eq_ok.mp h
    refine ((step s').suffix ((shrinking_return step hstep).mp hlast)).trans ?_
    apply hreach.invariant (P := fun st ↦ st.2 <:+ ts) _ List.suffix_rfl
    rintro ⟨s₁, ts₁⟩ ⟨s₂, ts₂⟩ h₁ hnext
    exact ((step s₁).suffix ((shrinking_next step hstep).mp hnext)).trans h₁

/-- The text of the iterations from a state on. -/
inductive Loops (rest : List τ) : σ → List τ → α → Prop
  | leave {s text a} : (step s).Yields text (.inl a) rest → Loops rest s text a
  | next {s s' t u a} : (step s).Yields t (.inr s') (u ++ rest) → Loops rest s' u a → Loops rest s (t ++ u) a

variable {step hstep} {s : σ} {text rest : List τ} {a : α}

theorem run_loop_next {s' : σ} {ts : List τ} (h : (step s).run ts = .ok (.inr s', rest)) :
    (loop step hstep s).run ts = (loop step hstep s').run rest :=
  ShrinkingLoop.run_of_next ((shrinking_next step hstep).mpr h)

theorem run_loop_leave {ts : List τ} (h : (step s).run ts = .ok (.inl a, rest)) :
    (loop step hstep s).run ts = .ok (a, rest) :=
  ShrinkingLoop.run_of_return ((shrinking_return step hstep).mpr h)

theorem yields_loop : (loop step hstep s).Yields text a rest ↔ Loops step rest s text a := by
  constructor
  · intro h
    generalize hst : (s, text ++ rest) = st at h
    have hrun : (shrinking step hstep).run st = .ok (a, rest) := hst ▸ h
    clear h
    induction st using ShrinkingLoop.induction (shrinking step hstep) generalizing s text with
    | h st ih =>
      subst hst
      cases hbody : (step s).run (text ++ rest) with
      | error e =>
        have herror : (shrinking step hstep).body (s, text ++ rest) = .error e := congrArg turn hbody
        cases (ShrinkingLoop.run_of_error herror).symm.trans hrun
      | ok r =>
        obtain ⟨r, mid⟩ := r
        cases r with
        | inl a' =>
          cases (ShrinkingLoop.run_of_return ((shrinking_return step hstep).mpr hbody)).symm.trans hrun
          exact .leave hbody
        | inr s' =>
          have hnext : (shrinking step hstep).Next (s, text ++ rest) (s', mid) :=
            (shrinking_next step hstep).mpr hbody
          have hlater := (ShrinkingLoop.run_of_next hnext).symm.trans hrun
          obtain ⟨u, rfl⟩ := (loop step hstep s').suffix hlater
          obtain ⟨t, ht⟩ := (step s).suffix hbody
          rw [← List.append_assoc] at ht
          obtain rfl := List.append_cancel_right ht
          rw [List.append_assoc] at hbody
          exact .next hbody (ih _ hnext rfl hlater)
  · intro h
    induction h with
    | leave h => exact run_loop_leave h
    | @next s s' t u a h _ ih =>
      rw [Yields, List.append_assoc, run_loop_next h]
      exact ih

end

/-! ## Recursion -/

section

/-- On lists below this length the parsers do the same. -/
def AgreeBelow (k : ℕ) (p q : Parser ε τ α) : Prop := ∀ ts, ts.length < k → p.run ts = q.run ts

variable {k : ℕ} {p q : Parser ε τ α} {f g : α → Parser ε τ β}

theorem AgreeBelow.refl (k : ℕ) (p : Parser ε τ α) : AgreeBelow k p p := fun _ _ ↦ rfl

theorem AgreeBelow.mono {l : ℕ} (h : AgreeBelow k p q) (hl : l ≤ k) : AgreeBelow l p q :=
  fun ts hts ↦ h ts (Nat.lt_of_lt_of_le hts hl)

theorem AgreeBelow.trans {r : Parser ε τ α} (h : AgreeBelow k p q) (h' : AgreeBelow k q r) : AgreeBelow k p r :=
  fun ts hts ↦ (h ts hts).trans (h' ts hts)

theorem AgreeBelow.bind_of (hp : AgreeBelow k p q)
    (hf : ∀ ts a rest, ts.length < k → p.run ts = .ok (a, rest) → (f a).run rest = (g a).run rest) :
    AgreeBelow k (p >>= f) (q >>= g) := by
  intro ts hts
  cases hrun : p.run ts with
  | error e => rw [run_bind_error hrun, run_bind_error ((hp ts hts).symm.trans hrun)]
  | ok r => rw [run_bind_ok hrun, run_bind_ok ((hp ts hts).symm.trans hrun), hf ts r.1 r.2 hts hrun]

theorem AgreeBelow.bind (hp : AgreeBelow k p q) (hf : ∀ a, AgreeBelow k (f a) (g a)) :
    AgreeBelow k (p >>= f) (q >>= g) :=
  hp.bind_of fun _ a _ hts hrun ↦ hf a _ (Nat.lt_of_le_of_lt (p.suffix hrun).length_le hts)

theorem AgreeBelow.map (h : α → β) (hp : AgreeBelow k p q) : AgreeBelow k (h <$> p) (h <$> q) :=
  hp.bind fun _ ↦ .refl k _

theorem AgreeBelow.loop {step step' : σ → Parser ε τ (α ⊕ σ)} {hstep : ∀ s, (step s).Consumes}
    {hstep' : ∀ s, (step' s).Consumes} (h : ∀ s, AgreeBelow k (step s) (step' s)) (s : σ) :
    AgreeBelow k (loop step hstep s) (loop step' hstep' s) := by
  intro ts hts
  apply ShrinkingLoop.run_congr (P := fun st ↦ st.2.length < k) _ _ hts
  · rintro ⟨s₁, ts₁⟩ ⟨s₂, ts₂⟩ h₁ hnext
    exact Nat.lt_of_le_of_lt ((step s₁).suffix ((shrinking_next step hstep).mp hnext)).length_le h₁
  · intro st hst
    exact congrArg turn (h st.1 st.2 hst)

/-- The body calls the parser on shorter lists only. -/
def Guarded (F : Parser ε τ α → Parser ε τ α) : Prop :=
  ∀ k p q, AgreeBelow k p q → AgreeBelow (k + 1) (F p) (F q)

variable {F G : Parser ε τ α → Parser ε τ α}

theorem Guarded.iterate (hF : Guarded F) (p : Parser ε τ α) {n m : ℕ} (hn : k ≤ n) (hm : k ≤ m) :
    AgreeBelow k (F^[n] p) (F^[m] p) := by
  induction k generalizing n m with
  | zero => exact fun ts hts ↦ absurd hts (Nat.not_lt_zero _)
  | succ k ih =>
    obtain ⟨n, rfl⟩ := Nat.exists_eq_add_of_le' hn
    obtain ⟨m, rfl⟩ := Nat.exists_eq_add_of_le' hm
    rw [← Nat.add_assoc, ← Nat.add_assoc, Function.iterate_succ_apply', Function.iterate_succ_apply']
    exact hF k _ _ (ih (Nat.le_add_left _ _) (Nat.le_add_left _ _))

/-- The body is unrolled once for every token, and once more. -/
def fix [Inhabited ε] (F : Parser ε τ α → Parser ε τ α) : Parser ε τ α where
  run ts := (F^[ts.length + 1] (fail default)).run ts
  suffix h := (F^[_] (fail default)).suffix h

variable [Inhabited ε]

theorem Guarded.fix_eq (hF : Guarded F) : fix F = F (fix F) := by
  have hbelow (k : ℕ) : AgreeBelow k (F^[k] (fail default)) (fix F) := fun ts hts ↦
    hF.iterate (fail default) hts (Nat.le_refl _) ts (Nat.lt_succ_self _)
  refine ext fun ts ↦ ?_
  change (F^[ts.length + 1] (fail default)).run ts = _
  rw [Function.iterate_succ_apply']
  exact hF ts.length _ _ (hbelow ts.length) ts (Nat.lt_succ_self _)

theorem AgreeBelow.fix (hF : Guarded F) (hG : Guarded G)
    (h : ∀ l < k, ∀ p q, AgreeBelow l p q → AgreeBelow (l + 1) (F p) (G q)) : AgreeBelow k (fix F) (fix G) := by
  induction k with
  | zero => exact fun ts hts ↦ absurd hts (Nat.not_lt_zero _)
  | succ k ih =>
    rw [hF.fix_eq, hG.fix_eq]
    exact h k (Nat.lt_succ_self k) _ _ (ih fun l hl ↦ h l (Nat.lt_succ_of_lt hl))

/-- Where the bodies agree whatever they call, the fixed points do. -/
theorem AgreeBelow.fix_of (h : ∀ p q, AgreeBelow k p q → AgreeBelow k (F p) (G q)) :
    AgreeBelow k (Parser.fix F) (Parser.fix G) := by
  have hiterate (n : ℕ) : AgreeBelow k (F^[n] (fail default)) (G^[n] (fail default)) := by
    induction n with
    | zero => exact .refl k _
    | succ n ih =>
      rw [Function.iterate_succ_apply', Function.iterate_succ_apply']
      exact h _ _ ih
  exact fun ts hts ↦ hiterate (ts.length + 1) ts hts

end

/-! ## Repetition -/

section

/-- A result has a text. -/
def Productive (p : Parser ε τ (Option α)) : Prop := ∀ ⦃text a rest⦄, p.Yields text (some a) rest → text ≠ []

/-- The body of `many`, which calls itself. -/
def manyBody (p : Parser ε τ (Option α)) (many : Parser ε τ (List α)) : Parser ε τ (List α) := do
  match ← p with
  | some a => (a :: ·) <$> many
  | none => return []

inductive Many (p : Parser ε τ (Option α)) (rest : List τ) : List α → List τ → Prop
  | nil {t} : p.Yields t none rest → Many p rest [] t
  | cons {a as t u} : p.Yields t (some a) (u ++ rest) → Many p rest as u → Many p rest (a :: as) (t ++ u)

variable {p q : Parser ε τ (Option α)} {k : ℕ} {text rest : List τ} {as : List α}

theorem yields_manyBody {many : Parser ε τ (List α)} : (manyBody p many).Yields text as rest ↔
    p.Yields text none rest ∧ as = [] ∨
      ∃ t u a more, text = t ++ u ∧ p.Yields t (some a) (u ++ rest) ∧ many.Yields u more rest ∧ as = a :: more := by
  rw [manyBody, yields_bind]
  constructor
  · rintro ⟨t, u, found, rfl, hp, h⟩
    cases found with
    | none =>
      obtain ⟨rfl, rfl⟩ := yields_pure.mp h
      rw [List.append_nil]
      exact .inl ⟨hp, rfl⟩
    | some a =>
      obtain ⟨more, hmore, rfl⟩ := yields_map.mp h
      exact .inr ⟨t, u, a, more, rfl, hp, hmore, rfl⟩
  · rintro (⟨hp, rfl⟩ | ⟨t, u, a, more, rfl, hp, hmore, rfl⟩)
    · exact ⟨text, [], none, (List.append_nil text).symm, hp, yields_pure.mpr ⟨rfl, rfl⟩⟩
    · exact ⟨t, u, some a, rfl, hp, yields_map.mpr ⟨more, hmore, rfl⟩⟩

theorem agree_manyBody {m m' : Parser ε τ (List α)} (hp : AgreeBelow k p q) (hm : AgreeBelow k m m') :
    AgreeBelow k (manyBody p m) (manyBody q m') := by
  refine hp.bind fun found ↦ ?_
  cases found with
  | none => exact .refl k _
  | some a => exact hm.map _

theorem Productive.guarded (hp : p.Productive) : Guarded (manyBody p) := by
  intro k m m' hm
  refine (AgreeBelow.refl _ p).bind_of fun ts found rest hts hrun ↦ ?_
  cases found with
  | none => rfl
  | some a =>
    obtain ⟨text, rfl, hyields⟩ := run_eq_ok.mp hrun
    have hpos := List.length_pos_iff.mpr (hp hyields)
    rw [List.length_append] at hts
    exact run_map_congr (hm rest (by omega))

variable [Inhabited ε]

/-- The results of the parser, until it has none. -/
def many (p : Parser ε τ (Option α)) : Parser ε τ (List α) := fix (manyBody p)

theorem agree_many (h : AgreeBelow k p q) : AgreeBelow k (many p) (many q) :=
  AgreeBelow.fix_of fun _ _ hm ↦ agree_manyBody h hm

theorem Productive.many_eq (hp : p.Productive) : many p = manyBody p (many p) := hp.guarded.fix_eq

theorem Productive.yields_many (hp : p.Productive) : (many p).Yields text as rest ↔ Many p rest as text := by
  constructor
  · intro h
    induction as generalizing text with
    | nil =>
      rw [hp.many_eq] at h
      rcases yields_manyBody.mp h with ⟨h, -⟩ | ⟨_, _, _, _, -, -, -, h⟩
      · exact .nil h
      · cases h
    | cons a as ih =>
      rw [hp.many_eq] at h
      rcases yields_manyBody.mp h with ⟨-, h⟩ | ⟨t, u, a, more, rfl, h, hmore, heq⟩
      · cases h
      · cases heq
        exact .cons h (ih hmore)
  · intro h
    induction h with
    | nil h =>
      rw [hp.many_eq]
      exact yields_manyBody.mpr (.inl ⟨h, rfl⟩)
    | cons h _ ih =>
      rw [hp.many_eq]
      exact yields_manyBody.mpr (.inr ⟨_, _, _, _, rfl, h, ih, rfl⟩)

end

end Parser

end Stela.Library
