import Stela.Library.ControlFlow

/-!
# Which blocks still need a terminator

The invariant of a control-flow graph under construction that concerns terminators alone: the blocks that are
still open are the listed ones and perhaps the current one, and every other block has its one terminator. What
is appended after a terminator can not be repaired.
-/

namespace Stela.Library.ControlFlow

variable {ι κ : Type}

/-- Some block has an instruction after a terminator. -/
def Doubled (blocks : ℕ → Block ι κ) : Prop :=
  ∃ k body last rest, blocks k = body ++ last :: rest ∧ last.isTerminator = true ∧ rest ≠ []

theorem Doubled.mono {blocks blocks' : ℕ → Block ι κ} (h : Doubled blocks) (hext : Extends blocks blocks') :
    Doubled blocks' := by
  obtain ⟨k, body, last, rest, heq, hlast, hrest⟩ := h
  obtain ⟨more, hmore⟩ := hext k
  refine ⟨k, body, last, rest ++ more, ?_, hlast, fun hnil ↦ hrest (List.append_eq_nil_iff.mp hnil).1⟩
  rw [← hmore, heq, List.append_assoc, List.cons_append]

theorem Doubled.not_closed {blocks : ℕ → Block ι κ} (h : Doubled blocks) : ¬∀ k, blocks k = [] ∨ Closed (blocks k) := by
  intro hclosed
  obtain ⟨k, body, last, rest, heq, hlast, hrest⟩ := h
  rcases hclosed k with hnil | hclosed
  · exact absurd (heq.symm.trans hnil) (by simp)
  · exact hrest ((heq ▸ hclosed).rest_eq_nil hlast)

/-- The block of a builder in which the current block is closed, after an instruction has been appended. -/
theorem Closed.doubled {b : Builder ι κ} (h : Closed (b.blocks b.curr)) {i : Inst ι κ} {blocks : ℕ → Block ι κ}
    (hext : Extends (b.append i).blocks blocks) : Doubled blocks := by
  obtain ⟨body, last, heq, hlast, -⟩ := h
  refine Doubled.mono ⟨b.curr, body, last, [i], ?_, hlast, List.cons_ne_nil _ _⟩ hext
  rw [Builder.append_blocks_self rfl, heq, List.append_assoc, List.singleton_append]

namespace Builder

/-- The open blocks are the pending ones and, unless `closed`, the current one. -/
structure Tidy (pending : List ℕ) (closed : Bool) (b : Builder ι κ) : Prop where
  curr : b.curr < b.count
  pending_lt : ∀ k ∈ pending, k < b.count
  nodup : (b.curr :: pending).Nodup
  unmade : ∀ k, b.count ≤ k → b.blocks k = []
  openPending : ∀ k ∈ pending, Open (b.blocks k)
  openCurr : closed = false → Open (b.blocks b.curr)
  closedCurr : closed = true → Closed (b.blocks b.curr)
  others : ∀ k < b.count, k ≠ b.curr → k ∉ pending → Closed (b.blocks k)

variable {b : Builder ι κ} {pending pending' : List ℕ} {closed : Bool} {k : ℕ}

namespace Tidy

theorem perm (h : Tidy pending closed b) (hperm : pending.Perm pending') : Tidy pending' closed b where
  curr := h.curr
  pending_lt := fun k hk ↦ h.pending_lt k (hperm.mem_iff.mpr hk)
  nodup := (hperm.cons _).nodup_iff.mp h.nodup
  unmade := h.unmade
  openPending := fun k hk ↦ h.openPending k (hperm.mem_iff.mpr hk)
  openCurr := h.openCurr
  closedCurr := h.closedCurr
  others := fun k hlt hne hk ↦ h.others k hlt hne fun hmem ↦ hk (hperm.mem_iff.mp hmem)

/-- Whatever is appended to the current block. -/
theorem append (h : Tidy pending false b) (i : Inst ι κ) : Tidy pending i.isTerminator (b.append i) := by
  have hnot : ∀ {k}, k ∈ pending → b.curr ≠ k := by
    rintro k hk rfl
    exact (List.nodup_cons.mp h.nodup).1 hk
  have hcurr : (b.append i).blocks b.curr = b.blocks b.curr ++ [i] := append_blocks_self rfl i
  refine ⟨h.curr, h.pending_lt, h.nodup, fun k hk ↦ ?_, fun k hk ↦ ?_, fun hi ↦ ?_, fun hi ↦ ?_, fun k hlt hne hk ↦ ?_⟩
  · rw [append_blocks_of_ne (h.curr.trans_le hk).ne]
    exact h.unmade k hk
  · rw [append_blocks_of_ne (hnot hk)]
    exact h.openPending k hk
  · rw [append_curr, hcurr]
    refine open_append_iff.mpr ⟨h.openCurr rfl, fun j hj ↦ ?_⟩
    rwa [List.mem_singleton.mp hj]
  · rw [append_curr, hcurr]
    exact (h.openCurr rfl).closed hi
  · have hne : k ≠ b.curr := hne
    rw [append_blocks_of_ne hne.symm]
    exact h.others k hlt hne hk

/-- The numbering of results does not matter. -/
theorem setNext (h : Tidy pending closed b) (next : ℕ) : Tidy pending closed { b with next := next } :=
  ⟨h.curr, h.pending_lt, h.nodup, h.unmade, h.openPending, h.openCurr, h.closedCurr, h.others⟩

theorem appendOp (h : Tidy pending false b) (oper : ι) (args : List (Operand κ)) :
    Tidy pending false (b.appendOp oper args).2 :=
  (h.append (.op b.next oper args)).setNext _

theorem appendPhi (h : Tidy pending false b) (incoming : List (Operand κ × ℕ)) :
    Tidy pending false (b.appendPhi incoming).2 :=
  (h.append (.phi b.next incoming)).setNext _

theorem makeBlock (h : Tidy pending closed b) : Tidy (b.count :: pending) closed b.makeBlock.2 where
  curr := h.curr.trans (Nat.lt_succ_self _)
  pending_lt := by
    intro k hk
    rcases List.mem_cons.mp hk with rfl | hk
    · exact Nat.lt_succ_self _
    · exact (h.pending_lt k hk).trans (Nat.lt_succ_self _)
  nodup := by
    obtain ⟨hcurr, hpending⟩ := List.nodup_cons.mp h.nodup
    refine List.nodup_cons.mpr ⟨?_, List.nodup_cons.mpr ⟨fun hk ↦ (h.pending_lt _ hk).false, hpending⟩⟩
    exact fun hk ↦ (List.mem_cons.mp hk).elim (fun heq ↦ h.curr.ne heq) hcurr
  unmade := fun k hk ↦ h.unmade k ((Nat.le_succ _).trans hk)
  openPending := by
    intro k hk
    rcases List.mem_cons.mp hk with rfl | hk
    · have hnil : b.blocks b.count = [] := h.unmade _ le_rfl
      exact (congrArg Open hnil).mpr open_nil
    · exact h.openPending k hk
  openCurr := h.openCurr
  closedCurr := h.closedCurr
  others := by
    intro k hlt hne hk
    have hlt' : k < b.count := (Nat.lt_succ_iff.mp hlt).lt_of_ne fun heq ↦ hk (heq ▸ List.mem_cons_self)
    exact h.others k hlt' hne fun hmem ↦ hk (List.mem_cons_of_mem _ hmem)

theorem makeBlocks (h : Tidy pending closed b) : (n : ℕ) →
    Tidy (List.range' b.count n ++ pending) closed { b with count := b.count + n }
  | 0 => h
  | n + 1 => by
    have hmore := (h.makeBlocks n).makeBlock
    refine hmore.perm ?_
    rw [List.range'_concat, Nat.one_mul, List.append_assoc]
    exact List.perm_middle.symm

/-- From a closed block to a pending one. -/
theorem setCurr (h : Tidy (k :: pending) true b) : Tidy pending false (b.setCurr k) where
  curr := h.pending_lt k List.mem_cons_self
  pending_lt := fun j hj ↦ h.pending_lt j (List.mem_cons_of_mem _ hj)
  nodup := (List.nodup_cons.mp h.nodup).2
  unmade := h.unmade
  openPending := fun j hj ↦ h.openPending j (List.mem_cons_of_mem _ hj)
  openCurr := fun _ ↦ h.openPending k List.mem_cons_self
  closedCurr := nofun
  others := by
    intro j hlt hne hj
    by_cases hcurr : j = b.curr
    · exact hcurr ▸ h.closedCurr rfl
    · exact h.others j hlt hcurr fun hmem ↦ (List.mem_cons.mp hmem).elim hne hj

/-- From a closed block back to another closed one. -/
theorem back (h : Tidy pending true b) (hlt : k < b.count) (hk : k ∉ pending) : Tidy pending true (b.setCurr k) where
  curr := hlt
  pending_lt := h.pending_lt
  nodup := List.nodup_cons.mpr ⟨hk, (List.nodup_cons.mp h.nodup).2⟩
  unmade := h.unmade
  openPending := h.openPending
  openCurr := nofun
  closedCurr := by
    intro _
    by_cases hcurr : k = b.curr
    · exact hcurr ▸ h.closedCurr rfl
    · exact h.others k hlt hcurr hk
  others := by
    intro j hlt hne hj
    by_cases hcurr : j = b.curr
    · exact hcurr ▸ h.closedCurr rfl
    · exact h.others j hlt hcurr hj

/-- From an open block to a pending one: it becomes pending itself. -/
theorem leave (h : Tidy (k :: pending) false b) : Tidy (b.curr :: pending) false (b.setCurr k) where
  curr := h.pending_lt k List.mem_cons_self
  pending_lt := by
    intro j hj
    rcases List.mem_cons.mp hj with rfl | hj
    · exact h.curr
    · exact h.pending_lt j (List.mem_cons_of_mem _ hj)
  nodup := ((List.Perm.swap k b.curr pending).nodup_iff).mp h.nodup
  unmade := h.unmade
  openPending := by
    intro j hj
    rcases List.mem_cons.mp hj with rfl | hj
    · exact h.openCurr rfl
    · exact h.openPending j (List.mem_cons_of_mem _ hj)
  openCurr := fun _ ↦ h.openPending k List.mem_cons_self
  closedCurr := nofun
  others := by
    intro j hlt hne hj
    have hne' : j ≠ b.curr := fun heq ↦ hj (heq ▸ List.mem_cons_self)
    exact h.others j hlt hne' fun hmem ↦ (List.mem_cons.mp hmem).elim hne fun hmem ↦ hj (List.mem_cons_of_mem _ hmem)

/-- A block of the builder that is not pending is closed as soon as another one is current. -/
theorem closed_of_ne (h : Tidy pending closed b) (hlt : k < b.count) (hne : b.curr ≠ k) (hk : k ∉ pending) :
    Closed (b.blocks k) :=
  h.others k hlt (Ne.symm hne) hk

/-- When nothing is left to be done, every block has its terminator. -/
theorem all_closed (h : Tidy [] true b) {k : ℕ} (hlt : k < b.count) : Closed (b.blocks k) := by
  by_cases hcurr : k = b.curr
  · exact hcurr ▸ h.closedCurr rfl
  · exact h.others k hlt hcurr nofun

end Tidy

end Builder

end Stela.Library.ControlFlow
