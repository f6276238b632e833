import Stela.Library.Poison

/-!
# Lists with room for more

A list that has room for so many elements. When it grows beyond its room it gets the least power of two that does.
-/

namespace Stela.Library

open Poison (leastPow2 le_leastPow2 leastPow2_le)

@[ext] structure Growable (α : Type) where
  items : List α
  room : ℕ
  fits : items.length ≤ room

namespace Growable

variable {α : Type}

/-- The room after growing to so many elements. -/
def roomFor (room n : ℕ) : ℕ := if room < n then leastPow2 n else room

theorem le_roomFor (room n : ℕ) : n ≤ roomFor room n := by
  rw [roomFor]
  split_ifs with h
  · exact le_leastPow2 n
  · exact Nat.le_of_not_lt h

/-- The elements have their place; there is no room for more. -/
def ofList (items : List α) : Growable α := ⟨items, items.length, Nat.le_refl _⟩

def append (g : Growable α) (items : List α) : Growable α where
  items := g.items ++ items
  room := roomFor g.room (g.items ++ items).length
  fits := le_roomFor _ _

theorem length_append (g : Growable α) (items : List α) : (g.append items).items.length = g.items.length + items.length :=
  List.length_append

def pop (g : Growable α) : Growable α where
  items := g.items.dropLast
  room := g.room
  fits := calc g.items.dropLast.length
    _ = g.items.length - 1 := List.length_dropLast
    _ ≤ g.room := (Nat.sub_le _ _).trans g.fits

/-- The first elements, or all of them and as many more as are asked for. -/
def resize (default : α) (n : ℕ) (g : Growable α) : Growable α where
  items := g.items.take n ++ List.replicate (n - g.items.length) default
  room := roomFor g.room n
  fits := by
    have hn := le_roomFor g.room n
    rw [List.length_append, List.length_take, List.length_replicate]
    omega

theorem length_resize (default : α) (n : ℕ) (g : Growable α) : (g.resize default n).items.length = n := calc
  (g.items.take n ++ List.replicate (n - g.items.length) default).length
    = min n g.items.length + (n - g.items.length) := by rw [List.length_append, List.length_take, List.length_replicate]
  _ = n := by omega

def reserve (n : ℕ) (g : Growable α) : Growable α := ⟨g.items, max g.room n, g.fits.trans (Nat.le_max_left _ _)⟩

def set (i : ℕ) (item : α) (g : Growable α) : Growable α :=
  ⟨g.items.set i item, g.room, List.length_set.trans_le g.fits⟩

/-! ## What growing costs -/

theorem roomFor_of_lt {room n : ℕ} (h : room < n) : roomFor room n = leastPow2 n := if_pos h

theorem roomFor_of_le {room n : ℕ} (h : n ≤ room) : roomFor room n = room := if_neg (Nat.not_lt.mpr h)

theorem lt_roomFor_iff {room n : ℕ} : room < roomFor room n ↔ room < n := by
  by_cases h : room < n
  · rw [roomFor_of_lt h]
    exact iff_of_true (h.trans_le (le_leastPow2 n)) h
  · rw [roomFor_of_le (Nat.le_of_not_lt h)]
    exact iff_of_false (Nat.lt_irrefl room) h

theorem leastPow2_leastPow2 (n : ℕ) : leastPow2 (leastPow2 n) = leastPow2 n :=
  Nat.le_antisymm (leastPow2_le (Nat.le_refl _)) (le_leastPow2 _)

/-- The next power of two is at least twice as large. -/
theorem two_mul_le_leastPow2 {room n : ℕ} (hroom : leastPow2 room = room) (h : room < n) : 2 * room ≤ leastPow2 n := by
  have hlog : Nat.clog 2 room < Nat.clog 2 n := by
    rw [Nat.lt_clog_iff_pow_lt Nat.one_lt_two]
    exact hroom.trans_lt h
  calc 2 * room
    _ = 2 * 2 ^ Nat.clog 2 room := congrArg (2 * ·) hroom.symm
    _ = 2 ^ (Nat.clog 2 room + 1) := (pow_succ' 2 _).symm
    _ ≤ leastPow2 n := Nat.pow_le_pow_right Nat.zero_lt_two hlog

/-- How many writes the room stands for: those that led to it, if a list has grown to it. -/
def spent (room : ℕ) : ℕ := if leastPow2 room = room then room else 0

theorem spent_le (room : ℕ) : spent room ≤ room := by
  unfold spent
  split_ifs
  · exact Nat.le_refl room
  · exact Nat.zero_le room

theorem spent_leastPow2 (n : ℕ) : spent (leastPow2 n) = leastPow2 n := if_pos (leastPow2_leastPow2 n)

theorem add_spent_le {room n : ℕ} (h : room < n) : room + spent room ≤ leastPow2 n := by
  unfold spent
  split_ifs with hroom
  · have htwice := two_mul_le_leastPow2 hroom h
    omega
  · exact h.le.trans (le_leastPow2 n)

/-- Two writes for each element, less those that have been spent, and three for each new element pay for moving the
elements when they need more room, and for writing the new ones. -/
theorem growth_pays {len room n : ℕ} (hle : len ≤ room) :
    (if room < roomFor room n then len else 0) + (n - len) + (2 * n - spent (roomFor room n)) ≤
      2 * len - spent room + 3 * (n - len) := by
  have hspent := spent_le room
  simp only [lt_roomFor_iff]
  by_cases hgrows : room < n
  · have hpaid := add_spent_le hgrows
    have hroom := le_leastPow2 n
    rw [if_pos hgrows, roomFor_of_lt hgrows, spent_leastPow2]
    omega
  · rw [if_neg hgrows, roomFor_of_le (Nat.le_of_not_lt hgrows)]
    omega

/-- More room that is asked for is not paid by the elements. -/
theorem reserve_pays {len room n : ℕ} (hle : len ≤ room) :
    (if room < max room n then len else 0) + (2 * len - spent (max room n)) ≤
      2 * len - spent room + if room < n then 2 * room else 0 := by
  have hspent := spent_le room
  by_cases hgrows : room < n
  · rw [max_eq_right hgrows.le, if_pos hgrows, if_pos hgrows]
    omega
  · rw [max_eq_left (Nat.le_of_not_lt hgrows), if_neg (Nat.lt_irrefl room), if_neg hgrows, Nat.zero_add]
    exact Nat.le_refl _

end Growable

end Stela.Library
