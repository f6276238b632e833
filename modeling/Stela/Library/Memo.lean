import Mathlib.Tactic.Common
import Stela.Library.Except
import Stela.Library.Refinement

/-!
# Results kept under a key

A request is answered by following a recipe, whose steps put parts in place and make further requests. A result that
has been made is kept under the key of its request, and every later request with that key is answered with it. When
requests share keys, what is answered depends on which of them came first, unless the recipes of all requests with one
key come to the same result: `answers_iff`.
-/

namespace Stela.Library

/-- A step of a recipe: make another request, put a part in place, or fail. -/
inductive Step (ε ι π : Type) where
  | request (i : ι)
  | part (p : π)
  | fail (e : ε)

/-- What is made: a part, or a result with the products of all its steps. -/
inductive Product (κ π : Type) where
  | part (p : π)
  | made (key : κ) (products : List (Product κ π))

/-- The keys and the recipes of all requests. The requests that a request makes in turn come to an end. -/
structure Recipe (ε ι κ π : Type) where
  key : ι → Except ε κ
  steps : ι → List (Step ε ι π)
  rank : ι → ℕ
  rank_lt : ∀ {i j : ι}, Step.request j ∈ steps i → rank j < rank i

/-- The results that are kept, under their keys. -/
abbrev Memo (κ π : Type) := List (κ × Product κ π)

namespace Recipe

variable {ε ι κ π : Type} (R : Recipe ε ι κ π)

section Generate

variable {m : Type → Type} [Monad m] [MonadExceptOf ε m]

/-- How the key is used: with the computation that follows the recipe. -/
abbrev Strategy (m : Type → Type) (κ π : Type) := κ → m (Product κ π) → m (Product κ π)

def ofExcept {α : Type} : Except ε α → m α
  | .ok a => pure a
  | .error e => throw e

def generateBelow (strategy : Strategy m κ π) : (n : ℕ) → (i : ι) → R.rank i < n → m (Product κ π)
  | n + 1, i, h => do
      let key ← ofExcept (R.key i)
      strategy key do
        let products ← (R.steps i).attach.mapM fun step ↦
          match step with
          | ⟨.request j, hj⟩ =>
              generateBelow strategy n j (Nat.lt_of_lt_of_le (R.rank_lt hj) (Nat.le_of_lt_succ h))
          | ⟨.part p, _⟩ => pure (.part p)
          | ⟨.fail e, _⟩ => throw e
        pure (.made key products)

def generate (strategy : Strategy m κ π) (i : ι) : m (Product κ π) :=
  R.generateBelow strategy (R.rank i + 1) i (Nat.lt_succ_self _)

/-- The product of a step, given what answers its requests. -/
def follow (answer : ι → m (Product κ π)) : Step ε ι π → m (Product κ π)
  | .request i => answer i
  | .part p => pure (.part p)
  | .fail e => throw e

variable {R}

theorem generateBelow_congr {strategy : Strategy m κ π} (n : ℕ) :
    ∀ (n' : ℕ) (i : ι) (h : R.rank i < n) (h' : R.rank i < n'),
      R.generateBelow strategy n i h = R.generateBelow strategy n' i h' := by
  induction n with
  | zero => intro _ _ h; exact absurd h (Nat.not_lt_zero _)
  | succ n ih =>
    intro n' i h h'
    cases n' with
    | zero => exact absurd h' (Nat.not_lt_zero _)
    | succ n' =>
      unfold generateBelow
      congr 1
      funext key
      congr 3
      funext step
      cases step with
      | mk step hstep =>
        cases step with
        | request j => exact ih n' j _ _
        | part p => rfl
        | fail e => rfl

variable (R) in
theorem generate_eq [LawfulMonad m] (strategy : Strategy m κ π) (i : ι) :
    R.generate strategy i = ofExcept (R.key i) >>= fun key ↦ strategy key do
      let products ← (R.steps i).mapM (follow (R.generate strategy))
      return .made key products := by
  change R.generateBelow strategy (R.rank i + 1) i (Nat.lt_succ_self _) = _
  unfold generateBelow
  congr 1
  funext key
  congr 2
  rw [List.mapM_subtype (g := follow (R.generate strategy)), List.unattach_attach]
  intro step hstep
  cases step with
  | request j => exact generateBelow_congr _ _ _ _ _
  | part p => rfl
  | fail e => rfl

end Generate

/-- The result of a request by itself. -/
def make (i : ι) : Except ε (Product κ π) :=
  R.generate (fun _ product ↦ product) i

section Answers

variable [DecidableEq κ]

def insert (memo : Memo κ π) (key : κ) (made : Product κ π) : Memo κ π :=
  if (memo.lookup key).isSome then memo else (key, made) :: memo

/-- A result is kept unless there is one under its key by then. -/
def keep (key : κ) (made : Product κ π) : StateT (Memo κ π) (Except ε) (Product κ π) := do
  modify fun memo ↦ insert memo key made
  pure made

/-- Look the key up before anything is made. -/
def lookupFirst : Strategy (StateT (Memo κ π) (Except ε)) κ π := fun key product ↦ do
  match (← get).lookup key with
  | some found => pure found
  | none => product >>= keep key

def answer (i : ι) : StateT (Memo κ π) (Except ε) (Product κ π) :=
  R.generate lookupFirst i

/-- The answers to a list of requests, one after another, when nothing has been made before. -/
def answers (requests : List ι) : Except ε (List (Product κ π)) :=
  Prod.fst <$> (requests.mapM R.answer) []

end Answers

/-! ## Requests that share a key -/

variable {R}

theorem make_eq (i : ι) :
    R.make i = R.key i >>= fun key ↦ do
      let products ← (R.steps i).mapM (follow R.make)
      return .made key products := by
  unfold make
  rw [generate_eq]
  cases R.key i <;> rfl

/-- A set of requests with all those that they make in turn. -/
def Closed (R : Recipe ε ι κ π) (P : Set ι) : Prop :=
  ∀ i ∈ P, ∀ j, .request j ∈ R.steps i → j ∈ P

/-- Requests with one key come to one result. -/
def Coherent (R : Recipe ε ι κ π) (P : Set ι) : Prop :=
  ∀ i ∈ P, ∀ j ∈ P, R.key i = R.key j → ∀ product, R.make i = .ok product → R.make j = .ok product

/-- What is kept under the key of a request in the set has been made for one of the set. -/
def Keeps (R : Recipe ε ι κ π) [DecidableEq κ] (P : Set ι) (memo : Memo κ π) : Prop :=
  ∀ i ∈ P, ∀ key product, R.key i = .ok key → memo.lookup key = some product →
    ∃ j ∈ P, R.key j = .ok key ∧ R.make j = .ok product

/-- Among the requests of the second set, only those of the first have the keys of the first. -/
def KeepsApart (R : Recipe ε ι κ π) (P Q : Set ι) : Prop :=
  ∀ i ∈ P, ∀ j ∈ Q, ∀ key, R.key i = .ok key → R.key j = .ok key → j ∈ P

section Answers

variable [DecidableEq κ] {P : Set ι}

theorem answer_eq (i : ι) :
    R.answer i = ofExcept (R.key i) >>= fun key ↦ lookupFirst key do
      let products ← (R.steps i).mapM (follow R.answer)
      return .made key products := by
  unfold answer
  rw [generate_eq]

theorem lookupFirst_of_some {key : κ} {found : Product κ π} {memo : Memo κ π}
    {product : StateT (Memo κ π) (Except ε) (Product κ π)} (h : memo.lookup key = some found) :
    lookupFirst key product memo = .ok (found, memo) := by
  change (match memo.lookup key with | some found => pure found | none => product >>= keep key) memo = _
  rw [h]
  rfl

theorem lookupFirst_of_none {key : κ} {memo : Memo κ π} {product : StateT (Memo κ π) (Except ε) (Product κ π)}
    (h : memo.lookup key = none) : lookupFirst key product memo = (product >>= keep key) memo := by
  change (match memo.lookup key with | some found => pure found | none => product >>= keep key) memo = _
  rw [h]

theorem lookup_insert (memo : Memo κ π) (key key' : κ) (made : Product κ π) :
    (insert memo key made).lookup key' =
      if key' = key ∧ memo.lookup key = none then some made else memo.lookup key' := by
  unfold insert
  cases h : memo.lookup key with
  | some found => simp
  | none =>
    by_cases hkey : key' = key
    · simp [hkey]
    · have hne : (key' == key) = false := beq_false_of_ne hkey
      simp [hkey, List.lookup_cons, hne]

theorem Keeps.insert {memo : Memo κ π} {key : κ} {made : Product κ π} (hkeeps : Keeps R P memo)
    (hmade : ∀ i ∈ P, R.key i = .ok key → ∃ j ∈ P, R.key j = .ok key ∧ R.make j = .ok made) :
    Keeps R P (insert memo key made) := by
  intro i hi key' product hkey hlookup
  rw [lookup_insert] at hlookup
  by_cases h : key' = key ∧ memo.lookup key = none
  · rw [if_pos h] at hlookup
    cases hlookup
    rw [h.1] at hkey ⊢
    exact hmade i hi hkey
  · rw [if_neg h] at hlookup
    exact hkeeps i hi key' product hkey hlookup

/-- As long as the set is coherent, an answer is what the request makes by itself. -/
theorem answer_refines (hclosed : Closed R P) (hcoherent : Coherent R P) {i : ι} (hi : i ∈ P) {memo : Memo κ π}
    (hkeeps : Keeps R P memo) :
    Refines id (R.make i) (R.answer i) memo fun made a memo' ↦ a = made ∧ Keeps R P memo' := by
  induction hrank : R.rank i using Nat.strongRecOn generalizing i memo with
  | ind rank ih =>
    subst hrank
    cases hkey : R.key i with
    | error e =>
      rw [make_eq, hkey]
      change R.answer i memo = .error e
      rw [answer_eq, hkey]
      rfl
    | ok key =>
      have hanswer : R.answer i memo = lookupFirst key (do
          let products ← (R.steps i).mapM (follow R.answer)
          return .made key products) memo := by
        rw [answer_eq, hkey]
        rfl
      apply Refines.congr hanswer
      cases hlookup : memo.lookup key with
      | some found =>
        obtain ⟨j, hj, hkeyj, hmade⟩ := hkeeps i hi key found hkey hlookup
        rw [hcoherent j hj i hi (hkeyj.trans hkey.symm) found hmade]
        exact .of_ok (lookupFirst_of_some hlookup) ⟨rfl, hkeeps⟩
      | none =>
        apply Refines.congr (lookupFirst_of_none hlookup)
        have hsteps : Refines id ((R.steps i).mapM (follow R.make)) ((R.steps i).mapM (follow R.answer)) memo
            fun made a memo' ↦ a = made ∧ Keeps R P memo' := by
          apply Refines.mapM _ hkeeps
          intro step hstep memo' hkeeps'
          cases step with
          | request j => exact ih (R.rank j) (R.rank_lt hstep) (hclosed i hi j hstep) hkeeps' rfl
          | part p => exact .pure ⟨rfl, hkeeps'⟩
          | fail e => exact (rfl : _ = Except.error e)
        have hmade : Refines id (R.make i) (do
            let products ← (R.steps i).mapM (follow R.answer)
            return .made key products) memo fun made a memo' ↦ a = made ∧ Keeps R P memo' := by
          rw [make_eq, hkey]
          apply hsteps.bind
          intro made a memo' ⟨hsame, hkeeps'⟩
          exact .pure ⟨congrArg _ hsame, hkeeps'⟩
        apply hmade.and_result.finish
        intro made a memo' ⟨hmake, hsame, hkeeps'⟩
        subst hsame
        exact .of_ok rfl ⟨rfl, hkeeps'.insert fun _ _ _ ↦ ⟨i, hi, hkey, hmake⟩⟩

theorem keeps_nil : Keeps R P [] := nofun

variable {Q : Set ι}

/-- A list of computations, each of which keeps an invariant. -/
theorem invariant_mapM {σ α β : Type} {I : σ → Prop} {f : α → StateT σ (Except ε) β} :
    {xs : List α} → {s s' : σ} → {ys : List β} → (∀ x ∈ xs, ∀ s s' y, I s → f x s = .ok (y, s') → I s') → I s →
      xs.mapM f s = .ok (ys, s') → I s'
  | [], s, s', ys, _, hs, h => by
    rw [List.mapM_nil] at h
    cases h
    exact hs
  | x :: xs, s, s', ys, hf, hs, h => by
    rw [List.mapM_cons] at h
    obtain ⟨⟨y, s₁⟩, hfirst, h⟩ := Except.bind_eq_ok.mp h
    obtain ⟨⟨ys', s₂⟩, hrest, h⟩ := Except.bind_eq_ok.mp h
    cases h
    exact invariant_mapM (fun x hx ↦ hf x (List.mem_cons_of_mem _ hx)) (hf x List.mem_cons_self s s₁ y hs hfirst) hrest

/-- A request of another set, whose keys are kept apart, leaves alone what is kept for the requests of the first. -/
theorem keeps_of_answer (hclosed : Closed R P) (hcoherent : Coherent R P) (hclosed' : Closed R Q)
    (hapart : KeepsApart R P Q) {i : ι} (hi : i ∈ Q) {memo memo' : Memo κ π} {made : Product κ π}
    (hkeeps : Keeps R P memo) (h : R.answer i memo = .ok (made, memo')) : Keeps R P memo' := by
  induction hrank : R.rank i using Nat.strongRecOn generalizing i memo memo' made with
  | ind rank ih =>
    subst hrank
    by_cases hmem : i ∈ P
    · have hrefines := answer_refines hclosed hcoherent hmem hkeeps
      unfold Refines at hrefines
      split at hrefines
      · obtain ⟨_, _, hrun, -, hkeeps'⟩ := hrefines
        cases hrun.symm.trans h
        exact hkeeps'
      · cases hrefines.symm.trans h
    · rw [answer_eq] at h
      cases hkey : R.key i with
      | error e =>
        rw [hkey] at h
        cases h
      | ok key =>
        rw [hkey] at h
        change lookupFirst key _ memo = _ at h
        cases hlookup : memo.lookup key with
        | some found =>
          rw [lookupFirst_of_some hlookup] at h
          cases h
          exact hkeeps
        | none =>
          rw [lookupFirst_of_none hlookup] at h
          obtain ⟨⟨made', memo₁⟩, hmade, hkeep⟩ := Except.bind_eq_ok.mp h
          obtain ⟨⟨products, memo₂⟩, hsteps, hpure⟩ := Except.bind_eq_ok.mp hmade
          cases hpure
          cases hkeep
          have hkeeps₁ : Keeps R P memo₁ := by
            apply invariant_mapM _ hkeeps hsteps
            intro step hstep memo memo' made hkeeps hfollow
            cases step with
            | request j => exact ih (R.rank j) (R.rank_lt hstep) (hclosed' i hi j hstep) hkeeps hfollow rfl
            | part p =>
              cases hfollow
              exact hkeeps
            | fail e => cases hfollow
          exact hkeeps₁.insert fun j hj hkeyj ↦ absurd (hapart j hj i hi key hkeyj hkey) hmem

theorem mapError_id {α : Type} (x : Except ε α) : x.mapError id = x := by
  cases x <;> rfl

theorem answers_of_coherent (hclosed : Closed R P) (hcoherent : Coherent R P) {requests : List ι}
    (hrequests : ∀ i ∈ requests, i ∈ P) : R.answers requests = requests.mapM R.make := by
  have hrefines : Refines id (requests.mapM R.make) (requests.mapM R.answer) []
      fun made a memo ↦ a = made ∧ Keeps R P memo :=
    .mapM (fun i hi _ hkeeps ↦ answer_refines hclosed hcoherent (hrequests i hi) hkeeps) keeps_nil
  have hrun := (hrefines.mono fun _ _ _ h ↦ h.1).run_eq
  exact hrun.trans (mapError_id _)

theorem answers_concat (before : List ι) (i : ι) :
    R.answers (before ++ [i]) = before.mapM R.answer [] >>= fun r ↦
      (fun product ↦ r.1 ++ [product]) <$> (Prod.fst <$> R.answer i r.2) := by
  unfold answers
  rw [List.mapM_append]
  change Prod.fst <$> (before.mapM R.answer [] >>= fun r ↦ _) = _
  cases before.mapM R.answer [] with
  | error e => rfl
  | ok r =>
    change Prod.fst <$> ([i].mapM R.answer r.2 >>= fun r' ↦ _) =
      (fun product ↦ r.1 ++ [product]) <$> (Prod.fst <$> R.answer i r.2)
    rw [List.mapM_cons, List.mapM_nil]
    change Prod.fst <$> ((R.answer i r.2 >>= fun r' ↦ _) >>= fun r' ↦ _) = _
    cases R.answer i r.2 <;> rfl

/-- Behind requests of a set in which the requests of a coherent one keep their keys to themselves, a request of this
is answered with what it makes by itself. -/
theorem answers_concat_of_coherent (hclosed : Closed R P) (hcoherent : Coherent R P) (hclosed' : Closed R Q)
    (hapart : KeepsApart R P Q) {before : List ι} (hbefore : ∀ i ∈ before, i ∈ Q) {products : List (Product κ π)}
    (hanswers : R.answers before = .ok products) {i : ι} (hi : i ∈ P) :
    R.answers (before ++ [i]) = (fun product ↦ products ++ [product]) <$> R.make i := by
  obtain ⟨⟨products', memo⟩, hrun, rfl⟩ := Except.map_eq_ok.mp hanswers
  have hkeeps : Keeps R P memo :=
    invariant_mapM (fun i hi _ _ _ hkeeps ↦ keeps_of_answer hclosed hcoherent hclosed' hapart (hbefore i hi) hkeeps)
      keeps_nil hrun
  have hrefines := (answer_refines hclosed hcoherent hi hkeeps).mono fun _ _ _ h ↦ h.1
  have hanswer : Prod.fst <$> R.answer i memo = R.make i := hrefines.run_eq.trans (mapError_id _)
  rw [answers_concat, hrun]
  change (fun product ↦ products' ++ [product]) <$> (Prod.fst <$> R.answer i memo) = _
  rw [hanswer]

/-- After an answer there is a result under the key of the request. -/
theorem lookup_of_answer {i : ι} {memo memo' : Memo κ π} {made : Product κ π}
    (h : R.answer i memo = .ok (made, memo')) :
    ∃ key kept, R.key i = .ok key ∧ memo'.lookup key = some kept := by
  cases hkey : R.key i with
  | error e =>
    rw [answer_eq, hkey] at h
    cases h
  | ok key =>
    refine ⟨key, ?_⟩
    rw [answer_eq, hkey] at h
    change lookupFirst key _ memo = _ at h
    cases hlookup : memo.lookup key with
    | some found =>
      rw [lookupFirst_of_some hlookup] at h
      cases h
      exact ⟨_, rfl, hlookup⟩
    | none =>
      rw [lookupFirst_of_none hlookup] at h
      obtain ⟨⟨made', memo₁⟩, -, hkeep⟩ := Except.bind_eq_ok.mp h
      change Except.ok (made', insert memo₁ key made') = _ at hkeep
      cases hkeep
      cases hkept : memo₁.lookup key with
      | none => exact ⟨made, rfl, by simp [lookup_insert, hkept]⟩
      | some kept => exact ⟨kept, rfl, by simp [lookup_insert, hkept]⟩

theorem answer_of_lookup {i : ι} {memo : Memo κ π} {key : κ} {kept : Product κ π} (hkey : R.key i = .ok key)
    (hlookup : memo.lookup key = some kept) : R.answer i memo = .ok (kept, memo) := by
  rw [answer_eq, hkey]
  exact lookupFirst_of_some hlookup

theorem answers_pair {i j : ι} {memo memo' : Memo κ π} {made made' : Product κ π}
    (hi : R.answer i [] = .ok (made, memo)) (hj : R.answer j memo = .ok (made', memo')) :
    R.answers [i, j] = .ok [made, made'] := by
  have hrun : [i, j].mapM R.answer [] = .ok ([made, made'], memo') := by
    rw [List.mapM_cons, List.mapM_cons, List.mapM_nil]
    change (R.answer i [] >>= fun r ↦ _) = _
    rw [hi]
    change ((R.answer j memo >>= fun r ↦ _) >>= fun r ↦ _) = _
    rw [hj]
    rfl
  unfold answers
  rw [hrun]
  rfl

theorem answers_one (i : ι) : R.answers [i] = (fun r ↦ [r.1]) <$> R.answer i [] := by
  unfold answers
  rw [List.mapM_cons, List.mapM_nil]
  change Prod.fst <$> (R.answer i [] >>= fun r ↦ _) = _
  cases R.answer i [] <;> rfl

theorem mapM_pair {m : Type → Type} [Monad m] [LawfulMonad m] {α β : Type} (f : α → m β) (x y : α) :
    [x, y].mapM f = f x >>= fun a ↦ (fun b ↦ [a, b]) <$> f y := by
  simp

theorem coherent_of_answers (h : ∀ requests : List ι, (∀ i ∈ requests, i ∈ P) →
    R.answers requests = requests.mapM R.make) : Coherent R P := by
  intro i hi j hj hkeys product hmake
  have hone : R.answers [i] = .ok [product] := by
    rw [h [i] (by simpa using hi), List.mapM_cons, List.mapM_nil, hmake]
    rfl
  rw [answers_one] at hone
  obtain ⟨⟨made, memo⟩, hanswer, hmade⟩ := Except.map_eq_ok.mp hone
  obtain rfl : made = product := List.head_eq_of_cons_eq hmade
  obtain ⟨key, kept, hkey, hlookup⟩ := lookup_of_answer hanswer
  have hkept : kept = made := by
    have hagain := answers_pair hanswer (answer_of_lookup hkey hlookup)
    rw [h [i, i] (by simp [hi]), mapM_pair, hmake] at hagain
    have hsame : [made, made] = [made, kept] := Except.ok.inj hagain
    simpa using hsame.symm
  have hother := answers_pair hanswer (answer_of_lookup (hkeys.symm.trans hkey) hlookup)
  rw [h [i, j] (by simp [hi, hj]), mapM_pair, hmake] at hother
  obtain ⟨made', hmade', hsame⟩ := Except.map_eq_ok.mp (show (fun b ↦ [made, b]) <$> R.make j = _ from hother)
  rw [hmade']
  have hmade'' : made' = kept := by simpa using hsame
  rw [hmade'', hkept]

/-- Every list of requests is answered as if nothing had been kept if and only if requests with one key come to one
result. -/
theorem answers_iff (hclosed : Closed R P) :
    (∀ requests : List ι, (∀ i ∈ requests, i ∈ P) → R.answers requests = requests.mapM R.make) ↔ Coherent R P :=
  ⟨coherent_of_answers, fun hcoherent _ hrequests ↦ answers_of_coherent hclosed hcoherent hrequests⟩

end Answers

end Recipe

/-! ## Traits -/

variable {ε ι κ π α τ : Type}

/-- The traits of two computations, one list each, tell whether the computations come to the same result. -/
structure Tell (x y : Except ε α) (a b : List τ) : Prop where
  length_eq : a.length = b.length
  result_eq : a = b → x = y
  traits_eq : ∀ r, x = .ok r → y = .ok r → a = b

namespace Tell

variable {x y : Except ε α} {a b : List τ}

theorem of_eq (h : x = y) : Tell x y ([] : List τ) [] where
  length_eq := rfl
  result_eq _ := h
  traits_eq _ _ _ := rfl

/-- One trait that is the whole difference. -/
theorem one {t t' : τ} (hresult : t = t' → x = y) (htraits : ∀ r, x = .ok r → y = .ok r → t = t') :
    Tell x y [t] [t'] where
  length_eq := rfl
  result_eq h := hresult (List.head_eq_of_cons_eq h)
  traits_eq r hx hy := congrArg (fun t ↦ [t]) (htraits r hx hy)

theorem cons {xs ys : Except ε (List α)} {as bs : List τ} (h : Tell x y a b) (hs : Tell xs ys as bs) :
    Tell (x >>= fun r ↦ xs >>= fun rs ↦ pure (r :: rs)) (y >>= fun r ↦ ys >>= fun rs ↦ pure (r :: rs))
      (a ++ as) (b ++ bs) where
  length_eq := by rw [List.length_append, List.length_append, h.length_eq, hs.length_eq]
  result_eq heq := by
    obtain ⟨hfirst, hrest⟩ := List.append_inj heq h.length_eq
    rw [h.result_eq hfirst, hs.result_eq hrest]
  traits_eq r hx hy := by
    obtain ⟨p, hxp, ps, hxs, hr⟩ : ∃ p, x = .ok p ∧ ∃ ps, xs = .ok ps ∧ p :: ps = r := by
      simpa [Except.bind_eq_ok, pure, Except.pure] using hx
    obtain ⟨q, hyq, qs, hys, hr'⟩ : ∃ q, y = .ok q ∧ ∃ qs, ys = .ok qs ∧ q :: qs = r := by
      simpa [Except.bind_eq_ok, pure, Except.pure] using hy
    obtain ⟨rfl, rfl⟩ := List.cons.inj (hr.trans hr'.symm)
    rw [h.traits_eq p hxp hyq, hs.traits_eq ps hxs hys]

end Tell

namespace Recipe

variable {R : Recipe ε ι κ π}

/-- Two requests with one key agree in what their steps come to. -/
theorem tell_make {i j : ι} {a b : List τ} (hkey : R.key i = R.key j)
    (h : Tell ((R.steps i).mapM (follow R.make)) ((R.steps j).mapM (follow R.make)) a b) :
    Tell (R.make i) (R.make j) a b where
  length_eq := h.length_eq
  result_eq heq := by rw [make_eq, make_eq, hkey, h.result_eq heq]
  traits_eq r hi hj := by
    rw [make_eq] at hi hj
    obtain ⟨key, -, hi⟩ := Except.bind_eq_ok.mp hi
    obtain ⟨products, hi, hr⟩ := Except.bind_eq_ok.mp hi
    obtain ⟨key', -, hj⟩ := Except.bind_eq_ok.mp hj
    obtain ⟨products', hj, hr'⟩ := Except.bind_eq_ok.mp hj
    have hsame : Product.made key products = Product.made key' products' :=
      Except.ok.inj (hr.trans hr'.symm)
    cases hsame
    exact h.traits_eq products hi hj

theorem tell_cons {s₁ s₂ : Step ε ι π} {ss₁ ss₂ : List (Step ε ι π)} {a b as bs : List τ}
    (h : Tell (follow R.make s₁) (follow R.make s₂) a b)
    (hs : Tell (ss₁.mapM (follow R.make)) (ss₂.mapM (follow R.make)) as bs) :
    Tell ((s₁ :: ss₁).mapM (follow R.make)) ((s₂ :: ss₂).mapM (follow R.make)) (a ++ as) (b ++ bs) := by
  rw [List.mapM_cons, List.mapM_cons]
  exact h.cons hs

/-- Where the traits tell whether two requests with one key come to the same result, a set is coherent if and only if
they are the same. -/
theorem coherent_iff {P : Set ι} {traits : ι → List τ}
    (h : ∀ i ∈ P, ∀ j ∈ P, R.key i = R.key j → (∃ product, R.make i = .ok product) →
      Tell (R.make i) (R.make j) (traits i) (traits j)) :
    Coherent R P ↔
      ∀ i ∈ P, ∀ j ∈ P, R.key i = R.key j → (∃ product, R.make i = .ok product) → traits i = traits j := by
  constructor
  · intro hcoherent i hi j hj hkey ⟨product, hproduct⟩
    have htell := h i hi j hj hkey ⟨product, hproduct⟩
    exact htell.traits_eq product hproduct (hcoherent i hi j hj hkey product hproduct)
  · intro htraits i hi j hj hkey product hproduct
    have htell := h i hi j hj hkey ⟨product, hproduct⟩
    have hsame := htell.result_eq (htraits i hi j hj hkey ⟨product, hproduct⟩)
    exact hsame.symm.trans hproduct

end Recipe

end Stela.Library
