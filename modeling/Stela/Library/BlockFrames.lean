import Stela.Library.ControlFlow

/-!
# What code leaves unchanged in the blocks around it

Code is put into the block that is current when it starts and into blocks that are made for it. It branches to
these blocks and to the exits that it is given. Nothing is assumed about terminators, so this also holds of code
that nothing reaches.
-/

namespace Stela.Library.ControlFlow

variable {ι κ : Type}

namespace Builder

/-- The current block has been made, and blocks that have not been made are empty. -/
structure Made (b : Builder ι κ) : Prop where
  curr : b.curr < b.count
  unmade : ∀ k, b.count ≤ k → b.blocks k = []

theorem Valid.made {b : Builder ι κ} (h : b.Valid) : b.Made :=
  ⟨h.curr, h.unmade⟩

end Builder

/-- From one builder to the next, code with the given exits. -/
structure Spreads (exits : ℕ → Prop) (b b' : Builder ι κ) : Prop where
  made : b'.Made
  count : b.count ≤ b'.count
  next : b.next ≤ b'.next
  curr : b'.curr = b.curr ∨ b.count ≤ b'.curr
  grown : Extends b.blocks b'.blocks
  frame : ∀ k, k < b.count → k ≠ b.curr → b'.blocks k = b.blocks k
  targets : ∀ k, ∀ i ∈ b'.blocks k, i ∈ b.blocks k ∨ ∀ t ∈ i.targets, exits t ∨ b.count ≤ t ∧ t < b'.count

namespace Spreads

variable {exits exits' : ℕ → Prop} {b b' b'' : Builder ι κ}

theorem refl (h : b.Made) : Spreads exits b b where
  made := h
  count := Nat.le_refl _
  next := Nat.le_refl _
  curr := .inl rfl
  grown := .refl _
  frame := fun _ _ _ ↦ rfl
  targets := fun _ _ ↦ .inl

/-- Code after code, where the exits of the second one are exits or blocks that the first one has made. -/
theorem trans (h : Spreads exits b b') (h' : Spreads exits' b' b'')
    (hexits : ∀ t, exits' t → exits t ∨ b.count ≤ t ∧ t < b''.count) : Spreads exits b b'' where
  made := h'.made
  count := h.count.trans h'.count
  next := h.next.trans h'.next
  curr := by
    have := h.curr
    have := h'.curr
    have := h.count
    omega
  grown := h.grown.trans h'.grown
  frame := by
    intro k hk hne
    have hne' : k ≠ b'.curr := by
      have := h.curr
      omega
    rw [h'.frame k (hk.trans_le h.count) hne', h.frame k hk hne]
  targets := by
    intro k i hi
    have hcount := h.count
    have hcount' := h'.count
    rcases h'.targets k i hi with hi | htargets
    · refine (h.targets k i hi).imp_right fun htargets t ht ↦ (htargets t ht).imp_right fun hnew ↦ ?_
      omega
    · refine .inr fun t ht ↦ ?_
      rcases htargets t ht with hexit | hnew
      · exact hexits t hexit
      · exact .inr (by omega)

theorem mono (h : Spreads exits b b') (hexits : ∀ t, exits t → exits' t) : Spreads exits' b b' :=
  { h with targets := fun k i hi ↦ (h.targets k i hi).imp_right fun htargets t ht ↦ (htargets t ht).imp_left (hexits t) }

/-- A new instruction is in the block in which the code starts, or in one that it makes. -/
theorem within (h : Spreads exits b b') {k : ℕ} {i : Inst ι κ} (hi : i ∈ b'.blocks k) :
    i ∈ b.blocks k ∨ k = b.curr ∨ b.count ≤ k ∧ k < b'.count := by
  by_cases hold : k < b.count
  · by_cases hcurr : k = b.curr
    · exact .inr (.inl hcurr)
    · exact .inl (h.frame k hold hcurr ▸ hi)
  · refine .inr (.inr ⟨Nat.le_of_not_lt hold, Nat.lt_of_not_le fun hunmade ↦ ?_⟩)
    rw [h.made.unmade k hunmade] at hi
    exact absurd hi List.not_mem_nil

theorem append (h : Spreads exits b b') {i : Inst ι κ} (hi : ∀ t ∈ i.targets, exits t ∨ b.count ≤ t ∧ t < b'.count) :
    Spreads exits b (b'.append i) where
  made := by
    refine ⟨h.made.curr, fun k hk ↦ ?_⟩
    rw [Builder.append_blocks_of_ne (h.made.curr.trans_le hk).ne]
    exact h.made.unmade k hk
  count := h.count
  next := h.next
  curr := h.curr
  grown := h.grown.trans (b'.extends_append i)
  frame := by
    intro k hk hne
    have hne' : b'.curr ≠ k := by
      have := h.curr
      omega
    rw [Builder.append_blocks_of_ne hne', h.frame k hk hne]
  targets := by
    intro k j hj
    by_cases hk : b'.curr = k
    · rw [Builder.append_blocks_self hk] at hj
      rcases List.mem_append.mp hj with hj | hj
      · exact h.targets k j hj
      · obtain rfl := List.mem_singleton.mp hj
        exact .inr hi
    · rw [Builder.append_blocks_of_ne hk] at hj
      exact h.targets k j hj

theorem appendOp (h : Spreads exits b b') (oper : ι) (args : List (Operand κ)) :
    Spreads exits b (b'.appendOp oper args).2 := by
  have happend := h.append (i := .op b'.next oper args) nofun
  exact { happend with made := ⟨happend.made.curr, happend.made.unmade⟩, next := h.next.trans (Nat.le_succ _) }

theorem appendPhi (h : Spreads exits b b') (incoming : List (Operand κ × ℕ)) :
    Spreads exits b (b'.appendPhi incoming).2 := by
  have happend := h.append (i := .phi b'.next incoming) nofun
  exact { happend with made := ⟨happend.made.curr, happend.made.unmade⟩, next := h.next.trans (Nat.le_succ _) }

theorem makeBlocks (h : Spreads exits b b') (n : ℕ) : Spreads exits b { b' with count := b'.count + n } :=
  { h with
    made := ⟨h.made.curr.trans_le (Nat.le_add_right _ _), fun k hk ↦ h.made.unmade k ((Nat.le_add_right _ _).trans hk)⟩
    count := h.count.trans (Nat.le_add_right _ _)
    targets := fun k i hi ↦ (h.targets k i hi).imp_right fun htargets t ht ↦ (htargets t ht).imp_right fun hnew ↦
      ⟨hnew.1, hnew.2.trans_le (Nat.le_add_right _ _)⟩ }

theorem setCurr (h : Spreads exits b b') {k : ℕ} (hk : k = b.curr ∨ b.count ≤ k) (hlt : k < b'.count) :
    Spreads exits b (b'.setCurr k) :=
  { h with
    made := ⟨hlt, h.made.unmade⟩
    curr := hk }

end Spreads

end Stela.Library.ControlFlow
