import Mathlib.Data.List.Basic
import Mathlib.Tactic.Common

/-!
# Objects in blocks of memory

Tables of entries under addresses that are not used again, and a memory of blocks whose slots hold an object or none.
What must not happen is `none`: reading an object that is not there, constructing one over another, and leaving a
block.
-/

namespace Stela.Library.Objects

universe u

variable {α : Type u}

/-! ## Tables -/

/-- Entries under addresses; an address whose entry has been removed has none. -/
abbrev Table (α : Type u) := List (Option α)

namespace Table

variable (t : Table α) (a b : ℕ) (x y : α)

def item? : Option α := t[a]?.join

/-- The entry of an address of the table. -/
def put : Table α := t.set a (some x)

def remove : Table α := t.set a none

/-- A new entry, under the next address. -/
def add : Table α := t ++ [some x]

variable {t a b x}

theorem lt_of_item? (h : item? t a = some x) : a < t.length := by
  by_contra hge
  rw [item?, List.getElem?_eq_none (Nat.le_of_not_lt hge)] at h
  cases h

@[simp] theorem length_put : (put t a x).length = t.length := List.length_set

@[simp] theorem length_remove : (remove t a).length = t.length := List.length_set

@[simp] theorem length_add : (add t x).length = t.length + 1 := List.length_append

theorem item?_put_self (h : a < t.length) : item? (put t a x) a = some x := by
  rw [item?, put, List.getElem?_set_self h]
  rfl

theorem item?_put_ne (h : a ≠ b) : item? (put t a x) b = item? t b := by
  rw [item?, put, List.getElem?_set_ne h, item?]

theorem item?_remove_self : item? (remove t a) a = none := by
  rw [item?, remove, List.getElem?_set, if_pos rfl]
  split_ifs <;> rfl

theorem item?_remove_ne (h : a ≠ b) : item? (remove t a) b = item? t b := by
  rw [item?, remove, List.getElem?_set_ne h, item?]

theorem item?_add_self : item? (add t x) t.length = some x := by
  rw [item?, add, List.getElem?_concat_length]
  rfl

theorem item?_add_ne (h : b ≠ t.length) : item? (add t x) b = item? t b := by
  rw [item?, add, List.getElem?_append, item?]
  split_ifs with hlt
  · rfl
  · have hlen : t.length + 1 ≤ b := by omega
    rw [List.getElem?_eq_none (by rw [List.length_singleton]; omega), List.getElem?_eq_none (Nat.le_of_not_lt hlt)]

theorem item?_length (t : Table α) : item? t t.length = none := by
  rw [item?, List.getElem?_eq_none (Nat.le_refl _)]
  rfl

theorem put_put : put (put t a x) a y = put t a y := List.set_set _

theorem remove_put : remove (put t a x) a = remove t a := List.set_set _

theorem put_entry (h : item? t a = some x) : put t a x = t := by
  have hget : t[a]? = some (some x) := Option.join_eq_some_iff.mp h
  obtain ⟨hlt, heq⟩ := List.getElem?_eq_some_iff.mp hget
  rw [put, ← heq, List.set_getElem_self hlt]

end Table

/-! ## Blocks -/

variable {V : Type u}

/-- The slots of a block. -/
abbrev Block (V : Type u) := List (Option V)

abbrev Blocks (V : Type u) := Table (Block V)

/-- A slot of a block; there is no block behind a null pointer. -/
structure Place where
  block : Option ℕ
  index : ℕ

def slot? (bs : Blocks V) (p : Place) : Option (Option V) :=
  p.block.bind fun b ↦ (Table.item? bs b).bind fun block ↦ block[p.index]?

/-- The object at a place. -/
def load (bs : Blocks V) (p : Place) : Option V := (slot? bs p).join

def write (slot : Option V) (p : Place) (bs : Blocks V) : Option (Blocks V) :=
  p.block.bind fun b ↦ (Table.item? bs b).bind fun block ↦
    if p.index < block.length then some (Table.put bs b (block.set p.index slot)) else none

/-- Begin the life of an object, where there is none. -/
def construct (v : V) (p : Place) (bs : Blocks V) : Option (Blocks V) :=
  match slot? bs p with
  | some none => write (some v) p bs
  | some (some _) | none => none

/-- End the life of an object. -/
def destroy (p : Place) (bs : Blocks V) : Option (Blocks V) :=
  (load bs p).bind fun _ ↦ write none p bs

section

variable {bs : Blocks V} {b k : ℕ} {front back : Block V} {o o' : Option V} {v : V}

theorem slot?_middle (hb : Table.item? bs b = some (front ++ o :: back)) (hk : front.length = k) :
    slot? bs ⟨some b, k⟩ = some o := by
  subst hk
  change ((Table.item? bs b).bind fun block ↦ block[front.length]?) = some o
  rw [hb, Option.bind_some, List.getElem?_append_right (Nat.le_refl _), Nat.sub_self, List.getElem?_cons_zero]

theorem load_middle (hb : Table.item? bs b = some (front ++ some v :: back)) (hk : front.length = k) :
    load bs ⟨some b, k⟩ = some v := by
  rw [load, slot?_middle hb hk]
  rfl

theorem write_middle (hb : Table.item? bs b = some (front ++ o :: back)) (hk : front.length = k) :
    write o' ⟨some b, k⟩ bs = some (Table.put bs b (front ++ o' :: back)) := by
  subst hk
  have hlt : front.length < (front ++ o :: back).length := by
    rw [List.length_append, List.length_cons]
    omega
  change ((Table.item? bs b).bind fun block ↦ if front.length < block.length then
    some (Table.put bs b (block.set front.length o')) else none) = _
  rw [hb, Option.bind_some, if_pos hlt, List.set_append_right _ _ (Nat.le_refl _), Nat.sub_self, List.set_cons_zero]

theorem construct_middle (hb : Table.item? bs b = some (front ++ none :: back)) (hk : front.length = k) :
    construct v ⟨some b, k⟩ bs = some (Table.put bs b (front ++ some v :: back)) := by
  rw [construct, slot?_middle hb hk]
  exact write_middle hb hk

theorem destroy_middle (hb : Table.item? bs b = some (front ++ some v :: back)) (hk : front.length = k) :
    destroy ⟨some b, k⟩ bs = some (Table.put bs b (front ++ none :: back)) := by
  rw [destroy, load_middle hb hk]
  exact write_middle hb hk

end

/-! ## Steps for each of some indices -/

section

variable {σ : Type u}

/-- A step for each of `n` indices from `k` on. -/
def each (step : ℕ → σ → Option σ) : (k n : ℕ) → σ → Option σ
  | _, 0, s => some s
  | k, n + 1, s => (step k s).bind (each step (k + 1) n)

/-- What holds at first and what every step carries on. -/
theorem each_induct {step : ℕ → σ → Option σ} (P : ℕ → σ → Prop) {k n : ℕ} {s : σ} (hzero : P 0 s)
    (hstep : ∀ i < n, ∀ s, P i s → ∃ s', step (k + i) s = some s' ∧ P (i + 1) s') :
    ∃ s', each step k n s = some s' ∧ P n s' := by
  induction n generalizing k s P with
  | zero => exact ⟨s, rfl, hzero⟩
  | succ n ih =>
    obtain ⟨s₁, hfirst, h₁⟩ : ∃ s₁, step k s = some s₁ ∧ P 1 s₁ := hstep 0 n.succ_pos s hzero
    have hrest (i : ℕ) (hi : i < n) (s : σ) (hs : P (i + 1) s) :
        ∃ s', step (k + 1 + i) s = some s' ∧ P (i + 1 + 1) s' := by
      rw [Nat.add_right_comm, Nat.add_assoc]
      exact hstep (i + 1) (Nat.succ_lt_succ hi) s hs
    obtain ⟨s', heach, hs'⟩ := ih (fun i ↦ P (i + 1)) h₁ hrest
    refine ⟨s', ?_, hs'⟩
    calc each step k (n + 1) s
      _ = (step k s).bind (each step (k + 1) n) := rfl
      _ = each step (k + 1) n s₁ := by rw [hfirst, Option.bind_some]
      _ = some s' := heach

end

end Stela.Library.Objects
