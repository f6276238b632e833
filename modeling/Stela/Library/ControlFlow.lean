import Mathlib.Logic.Function.Basic
import Mathlib.Logic.Relation
import Mathlib.Data.List.Infix

/-!
# Control-flow graphs under construction

Basic blocks that are only ever appended to, a cursor that names the block to append to, and the execution of
such blocks. `ι` is the type of instructions that stay in their block, `κ` that of constants; results are
numbered in the order in which they are made. An execution in some blocks is one in all blocks that extend
them, so code can be run while the rest of the function is still missing.
-/

namespace Stela.Library.ControlFlow

/-- A constant, or the result of an instruction. -/
inductive Operand (κ : Type) where
  | const (k : κ)
  | value (n : ℕ)
  deriving DecidableEq

inductive Inst (ι κ : Type) where
  | op (dst : ℕ) (oper : ι) (args : List (Operand κ))
  /-- The value that comes from the block that was left last. -/
  | phi (dst : ℕ) (incoming : List (Operand κ × ℕ))
  | br (dest : ℕ)
  | condBr (cond : Operand κ) (troo fols : ℕ)
  | ret (value : Option (Operand κ))
  | unreachable

abbrev Block (ι κ : Type) := List (Inst ι κ)

/-- The blocks of a function, of which `count` have been made. -/
structure Builder (ι κ : Type) where
  count : ℕ
  blocks : ℕ → Block ι κ
  curr : ℕ
  next : ℕ

variable {ι κ : Type}

namespace Inst

def isTerminator : Inst ι κ → Bool
  | op _ _ _ | phi _ _ => false
  | br _ | condBr _ _ _ | ret _ | unreachable => true

/-- The blocks that an instruction can branch to. -/
def targets : Inst ι κ → List ℕ
  | br dest => [dest]
  | condBr _ troo fols => [troo, fols]
  | op _ _ _ | phi _ _ | ret _ | unreachable => []

theorem targets_of_not_isTerminator {i : Inst ι κ} (h : i.isTerminator = false) : i.targets = [] := by
  cases i <;> first | rfl | cases h

end Inst

/-! ## Well-formed blocks -/

/-- Nothing ends the block yet. -/
def Open (block : Block ι κ) : Prop := ∀ i ∈ block, i.isTerminator = false

/-- The block has exactly one terminator, its last instruction. -/
def Closed (block : Block ι κ) : Prop := ∃ body last, block = body ++ [last] ∧ last.isTerminator = true ∧ Open body

/-- A block has an instruction that branches to another one. -/
def Pred (blocks : ℕ → Block ι κ) (p k : ℕ) : Prop := ∃ i ∈ blocks p, k ∈ i.targets

/-- One value for each predecessor of the block and none for other blocks. -/
def PhiOk (blocks : ℕ → Block ι κ) (k : ℕ) (incoming : List (Operand κ × ℕ)) : Prop :=
  (incoming.map Prod.snd).Nodup ∧ ∀ p, p ∈ incoming.map Prod.snd ↔ Pred blocks p k

theorem open_nil : Open ([] : Block ι κ) := nofun

theorem open_append_iff {block block' : Block ι κ} : Open (block ++ block') ↔ Open block ∧ Open block' := by
  simp only [Open, List.mem_append, or_imp, forall_and]

theorem Open.closed {block : Block ι κ} {last : Inst ι κ} (h : Open block) (hlast : last.isTerminator = true) :
    Closed (block ++ [last]) :=
  ⟨block, last, rfl, hlast, h⟩

theorem Open.not_closed {block : Block ι κ} (h : Open block) : ¬Closed block := by
  rintro ⟨body, last, rfl, hlast, -⟩
  rw [h last (List.mem_append_right _ List.mem_cons_self)] at hlast
  cases hlast

theorem Open.not_mem_targets {block : Block ι κ} (h : Open block) {i : Inst ι κ} (hi : i ∈ block) : i.targets = [] :=
  Inst.targets_of_not_isTerminator (h i hi)

/-- The terminator of a closed block is unique. -/
theorem Closed.eq_of_isTerminator {block : Block ι κ} (h : Closed block) {i j : Inst ι κ} (hi : i ∈ block)
    (hj : j ∈ block) (hti : i.isTerminator = true) (htj : j.isTerminator = true) : i = j := by
  obtain ⟨body, last, rfl, -, hopen⟩ := h
  have hlast : ∀ i ∈ body ++ [last], i.isTerminator = true → i = last := by
    intro i hi hti
    rcases List.mem_append.mp hi with hi | hi
    · rw [hopen i hi] at hti
      cases hti
    · exact List.mem_singleton.mp hi
  exact (hlast i hi hti).trans (hlast j hj htj).symm

/-- Nothing comes after a terminator in a closed block. -/
theorem Closed.rest_eq_nil {body rest : Block ι κ} {last : Inst ι κ} (h : Closed (body ++ last :: rest))
    (hlast : last.isTerminator = true) : rest = [] := by
  obtain ⟨body', last', heq, -, hopen⟩ := h
  rcases List.eq_nil_or_concat rest with rfl | ⟨rest, final, rfl⟩
  · rfl
  · rw [List.concat_eq_append, ← List.cons_append, ← List.append_assoc] at heq
    have hbody : body ++ last :: rest = body' := (List.append_inj' heq rfl).1
    have hmem : last ∈ body' := hbody ▸ List.mem_append_right _ List.mem_cons_self
    rw [hopen last hmem] at hlast
    cases hlast

/-! ## Growth -/

/-- The blocks have only been appended to. -/
def Extends (blocks blocks' : ℕ → Block ι κ) : Prop := ∀ k, blocks k <+: blocks' k

theorem Extends.refl (blocks : ℕ → Block ι κ) : Extends blocks blocks := fun _ ↦ List.prefix_refl _

theorem Extends.trans {blocks blocks' blocks'' : ℕ → Block ι κ} (h : Extends blocks blocks')
    (h' : Extends blocks' blocks'') : Extends blocks blocks'' :=
  fun k ↦ (h k).trans (h' k)

theorem Extends.mem {blocks blocks' : ℕ → Block ι κ} (h : Extends blocks blocks') {k : ℕ} {i : Inst ι κ}
    (hi : i ∈ blocks k) : i ∈ blocks' k :=
  (h k).subset hi

/-- Among the block `curr` and those from `count` on, some block has an instruction after a terminator, or some phi
has a value for a block that branches elsewhere. -/
def Broken (curr count : ℕ) (blocks : ℕ → Block ι κ) : Prop :=
  (∃ k body last rest, (k = curr ∨ count ≤ k) ∧ blocks k = body ++ last :: rest ∧ last.isTerminator = true ∧
    rest ≠ []) ∨
  ∃ k dst incoming p last, count ≤ k ∧ (p = curr ∨ count ≤ p) ∧ .phi dst incoming ∈ blocks k ∧
    p ∈ incoming.map Prod.snd ∧ last ∈ blocks p ∧ last.isTerminator = true ∧ k ∉ last.targets

/-- What is broken stays so. -/
theorem Broken.mono {curr count : ℕ} {blocks blocks' : ℕ → Block ι κ} (h : Broken curr count blocks)
    (hext : Extends blocks blocks') : Broken curr count blocks' := by
  rcases h with ⟨k, body, last, rest, hk, heq, hlast, hrest⟩ |
    ⟨k, dst, incoming, p, last, hk, hp, hphi, hmem, hlast, hterm, htarget⟩
  · obtain ⟨more, hmore⟩ := hext k
    refine .inl ⟨k, body, last, rest ++ more, hk, ?_, hlast, ?_⟩
    · rw [← hmore, heq, List.append_assoc, List.cons_append]
    · exact fun hnil ↦ hrest (List.append_eq_nil_iff.mp hnil).1
  · exact .inr ⟨k, dst, incoming, p, last, hk, hp, hext.mem hphi, hmem, hext.mem hlast, hterm, htarget⟩

theorem Broken.weaken {curr count curr' count' : ℕ} {blocks : ℕ → Block ι κ} (h : Broken curr' count' blocks)
    (hcurr : curr' = curr ∨ count ≤ curr') (hcount : count ≤ count') : Broken curr count blocks := by
  rcases h with ⟨k, body, last, rest, hk, h⟩ | ⟨k, dst, incoming, p, last, hk, hp, h⟩
  · exact .inl ⟨k, body, last, rest, by omega, h⟩
  · exact .inr ⟨k, dst, incoming, p, last, by omega, by omega, h⟩

theorem broken_of_closed_append {curr count : ℕ} {blocks : ℕ → Block ι κ} {k : ℕ} {block rest : Block ι κ}
    (hk : k = curr ∨ count ≤ k) (heq : blocks k = block ++ rest) (hclosed : Closed block) (hrest : rest ≠ []) :
    Broken curr count blocks := by
  obtain ⟨body, last, rfl, hlast, -⟩ := hclosed
  exact .inl ⟨k, body, last, rest, hk, by rw [heq, List.append_assoc, List.singleton_append], hlast, hrest⟩

/-! ## The builder -/

namespace Builder

/-- Append to the current block. -/
def append (b : Builder ι κ) (i : Inst ι κ) : Builder ι κ :=
  { b with blocks := Function.update b.blocks b.curr (b.blocks b.curr ++ [i]) }

def makeBlock (b : Builder ι κ) : ℕ × Builder ι κ :=
  (b.count, { b with count := b.count + 1 })

def setCurr (b : Builder ι κ) (block : ℕ) : Builder ι κ :=
  { b with curr := block }

/-- Append an instruction with a result. -/
def appendOp (b : Builder ι κ) (oper : ι) (args : List (Operand κ)) : Operand κ × Builder ι κ :=
  (.value b.next, { b.append (.op b.next oper args) with next := b.next + 1 })

def appendPhi (b : Builder ι κ) (incoming : List (Operand κ × ℕ)) : Operand κ × Builder ι κ :=
  (.value b.next, { b.append (.phi b.next incoming) with next := b.next + 1 })

@[simp] theorem append_count (b : Builder ι κ) (i : Inst ι κ) : (b.append i).count = b.count := rfl
@[simp] theorem append_curr (b : Builder ι κ) (i : Inst ι κ) : (b.append i).curr = b.curr := rfl
@[simp] theorem append_next (b : Builder ι κ) (i : Inst ι κ) : (b.append i).next = b.next := rfl
@[simp] theorem setCurr_count (b : Builder ι κ) (block : ℕ) : (b.setCurr block).count = b.count := rfl
@[simp] theorem setCurr_curr (b : Builder ι κ) (block : ℕ) : (b.setCurr block).curr = block := rfl
@[simp] theorem setCurr_next (b : Builder ι κ) (block : ℕ) : (b.setCurr block).next = b.next := rfl
@[simp] theorem setCurr_blocks (b : Builder ι κ) (block : ℕ) : (b.setCurr block).blocks = b.blocks := rfl
@[simp] theorem appendPhi_count (b : Builder ι κ) (incoming : List (Operand κ × ℕ)) :
    (b.appendPhi incoming).2.count = b.count := rfl
@[simp] theorem appendPhi_curr (b : Builder ι κ) (incoming : List (Operand κ × ℕ)) :
    (b.appendPhi incoming).2.curr = b.curr := rfl

theorem append_blocks_self {b : Builder ι κ} {k : ℕ} (hk : b.curr = k) (i : Inst ι κ) :
    (b.append i).blocks k = b.blocks k ++ [i] := by
  subst hk
  simp [append]

theorem append_blocks_of_ne {b : Builder ι κ} {k : ℕ} (hk : b.curr ≠ k) (i : Inst ι κ) :
    (b.append i).blocks k = b.blocks k := by
  simp [append, Function.update_of_ne hk.symm]

theorem appendPhi_blocks (b : Builder ι κ) (incoming : List (Operand κ × ℕ)) (k : ℕ) :
    (b.appendPhi incoming).2.blocks k = (b.append (.phi b.next incoming)).blocks k := rfl

theorem extends_append (b : Builder ι κ) (i : Inst ι κ) : Extends b.blocks (b.append i).blocks := by
  intro k
  by_cases hk : b.curr = k
  · exact ⟨[i], (append_blocks_self hk i).symm⟩
  · rw [append_blocks_of_ne hk]

/-- What is built is well formed so far, and the current block can be appended to. -/
structure Valid (b : Builder ι κ) : Prop where
  curr : b.curr < b.count
  unmade : ∀ k, b.count ≤ k → b.blocks k = []
  openCurr : Open (b.blocks b.curr)
  targets : ∀ k, ∀ i ∈ b.blocks k, ∀ t ∈ i.targets, t < b.count

/-- An appended instruction is found where the block ended. -/
theorem getElem?_of_append {b : Builder ι κ} {i : Inst ι κ} {blocks : ℕ → Block ι κ}
    (h : Extends (b.append i).blocks blocks) : (blocks b.curr)[(b.blocks b.curr).length]? = some i := by
  obtain ⟨rest, hrest⟩ := h b.curr
  rw [append_blocks_self rfl] at hrest
  rw [← hrest, List.append_assoc, List.getElem?_append_right le_rfl, Nat.sub_self]
  rfl

theorem Valid.setCurr {b : Builder ι κ} (hb : b.Valid) {k : ℕ} (hk : k < b.count) (hopen : Open (b.blocks k)) :
    (b.setCurr k).Valid :=
  ⟨hk, hb.unmade, hopen, hb.targets⟩

theorem Valid.makeBlocks {b : Builder ι κ} (hb : b.Valid) (n : ℕ) : Valid { b with count := b.count + n } where
  curr := hb.curr.trans_le (Nat.le_add_right _ _)
  unmade := fun k hk ↦ hb.unmade k ((Nat.le_add_right _ _).trans hk)
  openCurr := hb.openCurr
  targets := fun k i hi t ht ↦ (hb.targets k i hi t ht).trans_le (Nat.le_add_right _ _)

/-- What was built between two builders is well formed, but for the current block, which is still open. -/
structure WellFormed (b b' : Builder ι κ) : Prop where
  unmade : ∀ k, b'.count ≤ k → b'.blocks k = []
  openCurr : Open (b'.blocks b'.curr)
  closed : ∀ k, k = b.curr ∨ b.count ≤ k → k < b'.count → k ≠ b'.curr → Closed (b'.blocks k)
  phis : ∀ k dst incoming, .phi dst incoming ∈ b'.blocks k →
    .phi dst incoming ∈ b.blocks k ∨ PhiOk b'.blocks k incoming

theorem WellFormed.eq_of_isTerminator {b b' : Builder ι κ} (h : WellFormed b b') {k : ℕ} (hk : k = b.curr ∨ b.count ≤ k)
    {i j : Inst ι κ} (hi : i ∈ b'.blocks k) (hj : j ∈ b'.blocks k) (hti : i.isTerminator = true)
    (htj : j.isTerminator = true) : i = j := by
  by_cases hcurr : k = b'.curr
  · subst hcurr
    rw [h.openCurr i hi] at hti
    cases hti
  · have hlt : k < b'.count := by
      by_contra hge
      rw [h.unmade k (not_lt.mp hge)] at hi
      cases hi
    exact (h.closed k hk hlt hcurr).eq_of_isTerminator hi hj hti htj

theorem WellFormed.not_broken {b b' : Builder ι κ} (h : WellFormed b b') (hb : b.Valid) :
    ¬Broken b.curr b.count b'.blocks := by
  rintro (⟨k, body, last, rest, hk, heq, hlast, hrest⟩ |
    ⟨k, dst, incoming, p, last, hk, hp, hphi, hmem, hlast, hterm, htarget⟩)
  · have hin : last ∈ b'.blocks k := heq ▸ List.mem_append_right _ List.mem_cons_self
    have hcurr : k ≠ b'.curr := by
      rintro rfl
      rw [h.openCurr last hin] at hlast
      cases hlast
    have hlt : k < b'.count := by
      by_contra hge
      rw [h.unmade k (not_lt.mp hge)] at hin
      cases hin
    exact hrest ((heq ▸ h.closed k hk hlt hcurr).rest_eq_nil hlast)
  · rcases h.phis k dst incoming hphi with hold | hok
    · rw [hb.unmade k hk] at hold
      cases hold
    · obtain ⟨i, hi, ht⟩ := (hok.2 p).mp hmem
      have hti : i.isTerminator = true := by
        by_contra hnot
        rw [Inst.targets_of_not_isTerminator (Bool.eq_false_iff.mpr hnot)] at ht
        cases ht
      obtain rfl := h.eq_of_isTerminator hp hi hlast hti hterm
      exact htarget ht

end Builder

/-! ## Execution -/

/-- What instructions do: to the values of their operands and to the state. -/
structure Machine (ι κ V σ : Type) where
  const : κ → V
  op : ι → List V → σ → Option (V × σ)
  truth : V → Bool

structure Config (V σ : Type) where
  block : ℕ
  pc : ℕ
  /-- The block that was left last. -/
  pred : ℕ
  values : ℕ → V
  state : σ

section Execution

variable {V σ : Type} (M : Machine ι κ V σ)

namespace Operand

def eval (values : ℕ → V) : Operand κ → V
  | const k => M.const k
  | value n => values n

/-- The operand is not a result that is numbered from `n` on. -/
def Below (n : ℕ) : Operand κ → Prop
  | const _ => True
  | value m => m < n

theorem Below.mono {n n' : ℕ} {operand : Operand κ} (h : operand.Below n) (hle : n ≤ n') : operand.Below n' := by
  cases operand with
  | const k => trivial
  | value m => exact lt_of_lt_of_le (show m < n from h) hle

theorem Below.eval_eq {n : ℕ} {operand : Operand κ} {values values' : ℕ → V} (h : operand.Below n)
    (hvalues : ∀ m < n, values' m = values m) : operand.eval M values' = operand.eval M values := by
  cases operand with
  | const k => rfl
  | value m => exact hvalues m h

end Operand

/-- One instruction. -/
inductive Step (blocks : ℕ → Block ι κ) : Config V σ → Config V σ → Prop where
  | op {block pc pred values state dst oper args value state'} :
      (blocks block)[pc]? = some (.op dst oper args) →
      M.op oper (args.map (Operand.eval M values)) state = some (value, state') →
      Step blocks ⟨block, pc, pred, values, state⟩ ⟨block, pc + 1, pred, Function.update values dst value, state'⟩
  | phi {block pc pred values state dst incoming operand} :
      (blocks block)[pc]? = some (.phi dst incoming) → (operand, pred) ∈ incoming →
      Step blocks ⟨block, pc, pred, values, state⟩
        ⟨block, pc + 1, pred, Function.update values dst (operand.eval M values), state⟩
  | br {block pc pred values state dest} :
      (blocks block)[pc]? = some (.br dest) →
      Step blocks ⟨block, pc, pred, values, state⟩ ⟨dest, 0, block, values, state⟩
  | condBr {block pc pred values state cond troo fols} :
      (blocks block)[pc]? = some (.condBr cond troo fols) →
      Step blocks ⟨block, pc, pred, values, state⟩
        ⟨if M.truth (cond.eval M values) then troo else fols, 0, block, values, state⟩

abbrev Steps (blocks : ℕ → Block ι κ) : Config V σ → Config V σ → Prop :=
  Relation.ReflTransGen (Step M blocks)

variable {M}

theorem Step.mono {blocks blocks' : ℕ → Block ι κ} (hext : Extends blocks blocks') {c c' : Config V σ}
    (h : Step M blocks c c') : Step M blocks' c c' := by
  have hat : ∀ {k pc : ℕ} {i : Inst ι κ}, (blocks k)[pc]? = some i → (blocks' k)[pc]? = some i := by
    intro k pc i hi
    obtain ⟨hlt, -⟩ := List.getElem?_eq_some_iff.mp hi
    rw [List.prefix_iff_getElem?.mp (hext k) pc hlt, ← hi, List.getElem?_eq_getElem hlt]
  cases h with
  | op hi hop => exact .op (hat hi) hop
  | phi hi hmem => exact .phi (hat hi) hmem
  | br hi => exact .br (hat hi)
  | condBr hi => exact .condBr (hat hi)

end Execution

end Stela.Library.ControlFlow
