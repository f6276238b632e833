import Stela.CodeGen.ArrayBuiltins
import Stela.Library.Growable

/-!
# The elements of arrays

What the functions that construct, destroy, copy and move elements do to the data blocks.
-/

namespace Stela.CodeGen.ArrayBuiltins

open Stela.Library Stela.Library.Objects Stela.Library.Poison
open ArrayLengths (WriteFits byteLen_gives)

variable {V : Type} {elem : ElemType V}

/-- Slots in which elements can be constructed. -/
def Vacant (elem : ElemType V) (slots : Block V) : Prop :=
  elem.cat ≠ .trivially_copyable → ∀ slot ∈ slots, slot = none

/-- The block has room for so many elements and holds these. An array without a block has no room. -/
def Filled (elem : ElemType V) (bs : Blocks V) (dat : Option ℕ) (items : List V) (room : ℕ) : Prop :=
  match dat with
  | none => items = [] ∧ room = 0
  | some b => ∃ rest, Table.item? bs b = some (items.map some ++ rest) ∧ items.length + rest.length = room ∧
      Vacant elem rest

/-- No other block changes. -/
structure Touches (dat : Option ℕ) (bs bs' : Blocks V) : Prop where
  length : bs'.length = bs.length
  entry : ∀ b, dat ≠ some b → Table.item? bs' b = Table.item? bs b

section

variable {bs bs' bs'' : Blocks V} {dat src : Option ℕ} {items items' : List V} {room : ℕ} {v : V}

theorem Touches.refl (dat : Option ℕ) (bs : Blocks V) : Touches dat bs bs := ⟨rfl, fun _ _ ↦ rfl⟩

theorem Touches.trans (h : Touches dat bs bs') (h' : Touches dat bs' bs'') : Touches dat bs bs'' where
  length := h'.length.trans h.length
  entry := fun b hb ↦ (h'.entry b hb).trans (h.entry b hb)

theorem touches_put {b : ℕ} {block : Block V} : Touches (some b) bs (Table.put bs b block) where
  length := Table.length_put
  entry := fun _ hb' ↦ Table.item?_put_ne fun h ↦ hb' (congrArg some h)

/-- The slots up to an element, its own and those behind it. -/
theorem slots_split {k : ℕ} (hk : k < items.length) (rest : Block V) :
    items.map some ++ rest = (items.take k).map some ++ some items[k] :: ((items.drop (k + 1)).map some ++ rest) := calc
  items.map some ++ rest = (items.take k ++ items[k] :: items.drop (k + 1)).map some ++ rest := by
    rw [List.getElem_cons_drop, List.take_append_drop]
  _ = (items.take k).map some ++ some items[k] :: ((items.drop (k + 1)).map some ++ rest) := by
    rw [List.map_append, List.map_cons, List.append_assoc, List.cons_append]

theorem length_slots_take {k : ℕ} (hk : k < items.length) : ((items.take k).map some).length = k := by
  rw [List.length_map, List.length_take, Nat.min_eq_left hk.le]

/-- Every element is where its index says. -/
theorem Filled.load {k : ℕ} (h : Filled elem bs dat items room) (hk : k < items.length) :
    load bs (elemAt dat k) = some items[k] := by
  cases dat with
  | none =>
    rw [h.1] at hk
    cases hk
  | some b =>
    obtain ⟨rest, hentry, -, -⟩ := h
    rw [slots_split hk rest] at hentry
    exact load_middle hentry (length_slots_take hk)

theorem Filled.of_touches (h : Filled elem bs dat items room) (htouches : Touches src bs bs') (hne : ∀ b, dat = some b → src ≠ some b) :
    Filled elem bs' dat items room := by
  cases dat with
  | none => exact h
  | some b =>
    obtain ⟨rest, hentry, hroom, hvacant⟩ := h
    exact ⟨rest, (htouches.entry b (hne b rfl)).trans hentry, hroom, hvacant⟩

/-- Elements that are trivially copyable need not be destroyed. -/
theorem Filled.forget (h : Filled elem bs dat (items ++ items') room) (htrivial : elem.cat = .trivially_copyable) :
    Filled elem bs dat items room := by
  cases dat with
  | none => exact ⟨List.append_eq_nil_iff.mp h.1 |>.1, h.2⟩
  | some b =>
    obtain ⟨rest, hentry, hroom, -⟩ := h
    refine ⟨items'.map some ++ rest, ?_, ?_, fun hne ↦ absurd htrivial hne⟩
    · rw [hentry, List.map_append, List.append_assoc]
    · rw [List.length_append] at hroom
      rw [List.length_append, List.length_map]
      omega

/-! ## One element -/

/-- An element is constructed behind the others. -/
theorem constructElem_spec (v : V) (h : Filled elem bs dat items room) (hlt : items.length < room) :
    ∃ bs', constructElem elem v (elemAt dat items.length) bs = some bs' ∧ Filled elem bs' dat (items ++ [v]) room ∧
      Touches dat bs bs' := by
  cases dat with
  | none =>
    rw [h.2] at hlt
    cases hlt
  | some b =>
    obtain ⟨rest, hentry, hroom, hvacant⟩ := h
    cases rest with
    | nil =>
      rw [List.length_nil] at hroom
      omega
    | cons slot rest =>
      have hk : (items.map some).length = items.length := List.length_map _
      have hlen : b < bs.length := Table.lt_of_item? hentry
      have hfilled : Filled elem (Table.put bs b (items.map some ++ some v :: rest)) (some b) (items ++ [v]) room := by
        refine ⟨rest, ?_, ?_, fun hne slot hslot ↦ hvacant hne slot (List.mem_cons_of_mem _ hslot)⟩
        · rw [Table.item?_put_self hlen, List.map_append, List.append_assoc]
          rfl
        · rw [List.length_cons] at hroom
          rw [List.length_append, List.length_singleton]
          omega
      refine ⟨_, ?_, hfilled, touches_put⟩
      rw [constructElem]
      split_ifs with htrivial
      · exact write_middle hentry hk
      · rw [hvacant htrivial slot List.mem_cons_self] at hentry
        exact construct_middle hentry hk

/-- An element is overwritten. -/
theorem storeElem_spec {k : ℕ} (v : V) (h : Filled elem bs dat items room) (hk : k < items.length) :
    ∃ bs', write (some v) (elemAt dat k) bs = some bs' ∧ Filled elem bs' dat (items.set k v) room ∧ Touches dat bs bs' := by
  cases dat with
  | none =>
    rw [h.1] at hk
    cases hk
  | some b =>
    obtain ⟨rest, hentry, hroom, hvacant⟩ := h
    rw [slots_split hk rest] at hentry
    refine ⟨_, write_middle hentry (length_slots_take hk), ⟨rest, ?_, ?_, hvacant⟩, touches_put⟩
    · rw [Table.item?_put_self (Table.lt_of_item? hentry), List.set_eq_take_append_cons_drop, if_pos hk, List.map_append,
        List.append_assoc]
      rfl
    · rw [List.length_set, hroom]

/-- The last element is destroyed. -/
theorem destroyElem_spec (h : Filled elem bs dat (items ++ [v]) room) :
    ∃ bs', destroyElem elem (elemAt dat items.length) bs = some bs' ∧ Filled elem bs' dat items room ∧
      Touches dat bs bs' := by
  by_cases htrivial : elem.cat = .trivially_copyable
  · exact ⟨bs, if_pos htrivial, h.forget htrivial, .refl dat bs⟩
  · cases dat with
    | none => exact absurd h.1 (List.concat_ne_nil _ _)
    | some b =>
      obtain ⟨rest, hentry, hroom, hvacant⟩ := h
      rw [List.map_append, List.append_assoc] at hentry
      have hdestroy := destroy_middle hentry (List.length_map _)
      refine ⟨_, (if_neg htrivial).trans hdestroy, ⟨none :: rest, ?_, ?_, fun hne slot hslot ↦ ?_⟩, touches_put⟩
      · exact Table.item?_put_self (Table.lt_of_item? hentry)
      · rw [List.length_append, List.length_singleton] at hroom
        rw [List.length_cons]
        omega
      · rcases List.mem_cons.mp hslot with rfl | hslot
        · rfl
        · exact hvacant hne slot hslot

/-- An element is moved behind the others of another block. -/
theorem relocateElem_spec {b b' k : ℕ} {front back : Block V} (hb : Table.item? bs b = some (front ++ some v :: back))
    (hk : front.length = k) (h : Filled elem bs (some b') items room) (hlt : items.length < room) (hne : b ≠ b') :
    ∃ bs', relocateElem elem (elemAt (some b') items.length) (elemAt (some b) k) bs = some bs' ∧
      Table.item? bs' b = some (front ++ (if elem.cat = .trivially_copyable then some v else none) :: back) ∧
      Filled elem bs' (some b') (items ++ [v]) room ∧ bs'.length = bs.length ∧
      ∀ a, a ≠ b → a ≠ b' → Table.item? bs' a = Table.item? bs a := by
  have hload : load bs (elemAt (some b) k) = some v := load_middle hb hk
  obtain ⟨bs₁, hconstruct, hfilled, htouches⟩ := constructElem_spec v h hlt
  have hb₁ : Table.item? bs₁ b = some (front ++ some v :: back) :=
    (htouches.entry b fun heq ↦ hne (Option.some.inj heq).symm).trans hb
  have hlen : b < bs₁.length := Table.lt_of_item? hb₁
  have hother (a : ℕ) (ha : a ≠ b') : Table.item? bs₁ a = Table.item? bs a :=
    htouches.entry a fun heq ↦ ha (Option.some.inj heq).symm
  have hdestroyed : Filled elem (Table.put bs₁ b (front ++ none :: back)) (some b') (items ++ [v]) room :=
    hfilled.of_touches touches_put fun a ha heq ↦ hne (Option.some.inj (heq.trans ha.symm))
  have hput (a : ℕ) (ha : a ≠ b) (ha' : a ≠ b') :
      Table.item? (Table.put bs₁ b (front ++ none :: back)) a = Table.item? bs a :=
    (Table.item?_put_ne ha.symm).trans (hother a ha')
  cases hcat : elem.cat with
  | trivially_copyable =>
    refine ⟨bs₁, ?_, hb₁, hfilled, htouches.length, fun a _ ha' ↦ hother a ha'⟩
    rw [relocateElem, hload, Option.bind_eq_bind, Option.bind_some, hconstruct, hcat]
    rfl
  | trivially_relocatable =>
    refine ⟨_, ?_, Table.item?_put_self hlen, hdestroyed, Table.length_put.trans htouches.length, hput⟩
    rw [relocateElem, hload, Option.bind_eq_bind, Option.bind_some, hconstruct, hcat]
    exact destroy_middle hb₁ hk
  | nontrivial =>
    refine ⟨_, ?_, Table.item?_put_self hlen, hdestroyed, Table.length_put.trans htouches.length, hput⟩
    have hwrite : write (some (elem.moved v)) (elemAt (some b) k) bs₁ =
        some (Table.put bs₁ b (front ++ some (elem.moved v) :: back)) := write_middle hb₁ hk
    have hdestroy := destroy_middle (Table.item?_put_self (x := front ++ some (elem.moved v) :: back) hlen) hk
    rw [Table.put_put] at hdestroy
    rw [relocateElem, hload, Option.bind_eq_bind, Option.bind_some, hconstruct, hcat]
    change (write (some (elem.moved v)) (elemAt (some b) k) bs₁).bind (destroy (elemAt (some b) k)) = _
    rw [hwrite]
    exact hdestroy

end

/-! ## So many elements -/

section

variable {bs bs' : Blocks V} {len : BitVec 32}

theorem passNonNull_ok {dat : Option ℕ} (hdat : elem.nonNull = true → dat ≠ none) : passNonNull elem dat = .ok () :=
  if_neg fun h ↦ hdat h.1 h.2

theorem passNonNull_none (h : elem.nonNull = true) : passNonNull elem none = .error .fault := if_pos ⟨h, rfl⟩

/-- The loop takes the steps, as long as the count is a signed number. -/
theorem elementLoop_run {step : ℕ → Blocks V → Option (Blocks V)} (hfits : SignedFits 32 len.toNat) {k : ℕ}
    (h : each step k len.toNat bs = some bs') : (elementLoop step).run (k, len, bs) = .ok bs' := by
  generalize hn : len.toNat = n at h
  induction n generalizing k len bs with
  | zero =>
    have hzero : len = 0 := BitVec.eq_of_toNat_eq hn
    cases h
    exact ShrinkingLoop.run_of_return (if_pos hzero)
  | succ n ih =>
    have hne : len ≠ 0 := by
      rintro rfl
      cases hn
    have hle : (1 : BitVec 32).toNat ≤ len.toNat := hn ▸ Nat.succ_pos n
    obtain ⟨bs₁, hstep, hrest⟩ := Option.bind_eq_some_iff.mp h
    obtain ⟨decLen, hdec, hnat⟩ := (nswSub_gives len 1 (by decide) hle).mpr ⟨hle, fun _ hlarge ↦ absurd hfits hlarge⟩
    have hdecLen : decLen.toNat = n := hnat.trans (by rw [hn]; rfl)
    have hnext : (elementLoop step).Next (k, len, bs) (k + 1, decLen, bs₁) := by
      change (if len = 0 then _ else _) = _
      rw [if_neg hne, hstep]
      change (defined (nswSub len 1) >>= fun decLen ↦ pure (Sum.inr (k + 1, decLen, bs₁))) = (.ok _ : Except Stop (Blocks V ⊕ ℕ × BitVec 32 × Blocks V))
      rw [hdec]
      rfl
    rw [ShrinkingLoop.run_of_next hnext]
    refine ih ?_ hdecLen hrest
    have hlt : len.toNat < 2 ^ 31 := hfits
    change decLen.toNat < 2 ^ 31
    omega

theorem eachElem_spec {fast : Bool} {step : ℕ → Blocks V → Option (Blocks V)}
    (hfits : WriteFits elem.toElem fast len.toNat) (h : each step 0 len.toNat bs = some bs') :
    eachElem elem fast len step bs = .ok bs' := by
  cases fast with
  | false => exact elementLoop_run hfits h
  | true =>
    obtain ⟨byteLen, hbyteLen, hnat⟩ := (byteLen_gives len).mpr hfits
    change (defined (nswMul len (BitVec.ofNat 32 elem.size)) >>= fun byteLen ↦
      if byteLen.toNat = len.toNat * elem.size then defined (each step 0 len.toNat bs) else .error .fault) = _
    rw [hbyteLen]
    change (if byteLen.toNat = len.toNat * elem.size then defined (each step 0 len.toNat bs) else .error .fault) = _
    rw [if_pos hnat, h]
    rfl

variable {dat src : Option ℕ} {items items' : List V} {room : ℕ}

/-- Elements are constructed behind the others. -/
theorem constructN_spec (h : Filled elem bs dat items room) (hdat : elem.nonNull = true → dat ≠ none)
    (hroom : items.length + len.toNat ≤ room)
    (hfits : WriteFits elem.toElem (elem.cat = .trivially_copyable) len.toNat) :
    ∃ bs', constructN elem dat items.length len bs = .ok bs' ∧
      Filled elem bs' dat (items ++ List.replicate len.toNat elem.default) room ∧ Touches dat bs bs' := by
  have heach : ∃ bs', each (fun k ↦ constructElem elem elem.default (elemAt dat (items.length + k))) 0 len.toNat bs = some bs' ∧
      Filled elem bs' dat (items ++ List.replicate len.toNat elem.default) room ∧ Touches dat bs bs' := by
    refine each_induct
      (fun i bs' ↦ Filled elem bs' dat (items ++ List.replicate i elem.default) room ∧ Touches dat bs bs') ?_ ?_
    · exact ⟨(List.append_nil items).symm ▸ h, .refl dat bs⟩
    · rintro i hi bs₁ ⟨hfilled, htouches⟩
      have hlength : (items ++ List.replicate i elem.default).length = items.length + i := by
        rw [List.length_append, List.length_replicate]
      obtain ⟨bs₂, hconstruct, hfilled', htouches'⟩ := constructElem_spec elem.default hfilled (by omega)
      rw [hlength] at hconstruct
      rw [List.append_assoc, ← List.replicate_succ'] at hfilled'
      exact ⟨bs₂, (Nat.zero_add i).symm ▸ hconstruct, hfilled', htouches.trans htouches'⟩
  obtain ⟨bs', heach, hspec⟩ := heach
  refine ⟨bs', ?_, hspec⟩
  rw [constructN, passNonNull_ok hdat]
  exact eachElem_spec hfits heach

/-- Elements are copied behind the others, from a block that they are not written to or from the same block. -/
theorem copyN_spec (h : Filled elem bs dat items room) (hdat : elem.nonNull = true → src ≠ none ∧ dat ≠ none)
    (hlen : len.toNat = items'.length)
    (hroom : items.length + items'.length ≤ room)
    (hsrc : (∃ room', Filled elem bs src items' room') ∧ (src = dat → items' = items))
    (hfits : WriteFits elem.toElem (elem.cat = .trivially_copyable) len.toNat) :
    ∃ bs', copyN elem src len dat items.length bs = .ok bs' ∧ Filled elem bs' dat (items ++ items') room ∧
      Touches dat bs bs' := by
  obtain ⟨⟨room', hitems'⟩, hsame⟩ := hsrc
  have hload (i : ℕ) (hi : i < items'.length) (bs₁ : Blocks V) (hfilled : Filled elem bs₁ dat (items ++ items'.take i) room)
      (htouches : Touches dat bs bs₁) : load bs₁ (elemAt src i) = some items'[i] := by
    by_cases heq : src = dat
    · have hi' : i < items.length := hsame heq ▸ hi
      have hload := hfilled.load (k := i) (by rw [List.length_append]; omega)
      rw [heq, hload, List.getElem_append_left hi']
      congr 1
      exact getElem_congr_coll (hsame heq).symm
    · exact (hitems'.of_touches htouches fun b hb hdat ↦ heq (hb.trans hdat.symm)).load hi
  have heach : ∃ bs', each (fun k ↦ copyElem elem (elemAt dat (items.length + k)) (elemAt src k)) 0 len.toNat bs = some bs' ∧
      Filled elem bs' dat (items ++ items'.take len.toNat) room ∧ Touches dat bs bs' := by
    refine each_induct (fun i bs' ↦ Filled elem bs' dat (items ++ items'.take i) room ∧ Touches dat bs bs') ?_ ?_
    · rw [List.take_zero, List.append_nil]
      exact ⟨h, .refl dat bs⟩
    · rintro i hi bs₁ ⟨hfilled, htouches⟩
      have hi' : i < items'.length := hlen ▸ hi
      have hlength : (items ++ items'.take i).length = items.length + i := by
        rw [List.length_append, List.length_take, Nat.min_eq_left hi'.le]
      obtain ⟨bs₂, hconstruct, hfilled', htouches'⟩ := constructElem_spec items'[i] hfilled (by omega)
      rw [hlength] at hconstruct
      rw [List.append_assoc, List.take_append_getElem hi'] at hfilled'
      refine ⟨bs₂, ?_, hfilled', htouches.trans htouches'⟩
      rw [Nat.zero_add, copyElem, hload i hi' bs₁ hfilled htouches]
      exact hconstruct
  obtain ⟨bs', heach, hfilled, htouches⟩ := heach
  rw [hlen, List.take_length] at hfilled
  refine ⟨bs', ?_, hfilled, htouches⟩
  rw [copyN, passNonNull_ok fun hnonNull ↦ (hdat hnonNull).1, passNonNull_ok fun hnonNull ↦ (hdat hnonNull).2]
  exact eachElem_spec hfits heach

/-- The elements behind the others are destroyed, the first one of them first. -/
theorem destroyN_spec {count : Option (BitVec 32)} (h : Filled elem bs dat (items ++ items') room)
    (hdat : elem.nonNull = true → dat ≠ none) (hcount : elem.cat ≠ .trivially_copyable → ∃ len, count = some len ∧ len.toNat = items'.length ∧
      SignedFits 32 len.toNat) :
    ∃ bs', destroyN elem dat items.length count bs = .ok bs' ∧ Filled elem bs' dat items room ∧ Touches dat bs bs' := by
  rw [destroyN, passNonNull_ok hdat]
  by_cases htrivial : elem.cat = .trivially_copyable
  · exact ⟨bs, if_pos htrivial, h.forget htrivial, .refl dat bs⟩
  obtain ⟨len, rfl, hlen, hfits⟩ := hcount htrivial
  suffices heach : ∃ bs', each (fun k ↦ destroyElem elem (elemAt dat (items.length + k))) 0 len.toNat bs = some bs' ∧
      Filled elem bs' dat items room ∧ Touches dat bs bs' by
    obtain ⟨bs', heach, hspec⟩ := heach
    exact ⟨bs', (if_neg htrivial).trans (elementLoop_run hfits heach), hspec⟩
  rw [hlen]
  cases dat with
  | none =>
    rw [(List.append_eq_nil_iff.mp h.1).2]
    exact ⟨bs, rfl, ⟨(List.append_eq_nil_iff.mp h.1).1, h.2⟩, .refl none bs⟩
  | some b =>
    obtain ⟨rest, hentry, hroom, hvacant⟩ := h
    have hgap : ∃ bs', each (fun k ↦ destroyElem elem (elemAt (some b) (items.length + k))) 0 items'.length bs = some bs' ∧
        Table.item? bs' b = some (items.map some ++ (List.replicate items'.length none ++
          ((items'.drop items'.length).map some ++ rest))) ∧ Touches (some b) bs bs' := by
      refine each_induct (fun i bs' ↦ Table.item? bs' b = some (items.map some ++ (List.replicate i none ++
        ((items'.drop i).map some ++ rest))) ∧ Touches (some b) bs bs') ?_ ?_
      · refine ⟨?_, .refl _ bs⟩
        rw [hentry, List.map_append, List.append_assoc]
        rfl
      · rintro i hi bs₁ ⟨hentry, htouches⟩
        rw [← List.getElem_cons_drop hi, List.map_cons, List.cons_append, ← List.append_assoc] at hentry
        have hk : (items.map some ++ List.replicate i none).length = items.length + i := by
          rw [List.length_append, List.length_map, List.length_replicate]
        have hdestroy := destroy_middle hentry hk
        rw [Nat.zero_add]
        refine ⟨_, (if_neg htrivial).trans hdestroy, ?_, htouches.trans touches_put⟩
        rw [Table.item?_put_self (Table.lt_of_item? hentry), List.replicate_succ', List.append_assoc, List.append_assoc]
        rfl
    obtain ⟨bs', heach, hentry', htouches⟩ := hgap
    rw [List.drop_length, List.map_nil, List.nil_append] at hentry'
    refine ⟨bs', heach, ⟨_, hentry', ?_, fun _ slot hslot ↦ ?_⟩, htouches⟩
    · rw [List.length_append] at hroom
      rw [List.length_append, List.length_replicate]
      omega
    · rcases List.mem_append.mp hslot with hslot | hslot
      · exact List.eq_of_mem_replicate hslot
      · exact hvacant htrivial slot hslot

/-- The elements are moved to an empty block, and nothing that has to be destroyed stays in the old one. -/
theorem moveN_spec {b : ℕ} (h : Filled elem bs dat items room) {room' : ℕ} (h' : Filled elem bs (some b) [] room')
    (hdat : elem.nonNull = true → dat ≠ none) (hne : dat ≠ some b) (hlen : len.toNat = items.length) (hroom : items.length ≤ room')
    (hfits : WriteFits elem.toElem (elem.cat ≠ .nontrivial) len.toNat) :
    ∃ bs', moveN elem dat len (some b) bs = .ok bs' ∧ Filled elem bs' dat [] room ∧ Filled elem bs' (some b) items room' ∧
      bs'.length = bs.length ∧ ∀ a, dat ≠ some a → a ≠ b → Table.item? bs' a = Table.item? bs a := by
  suffices heach : ∃ bs', each (fun k ↦ relocateElem elem (elemAt (some b) k) (elemAt dat k)) 0 len.toNat bs = some bs' ∧
      Filled elem bs' dat [] room ∧ Filled elem bs' (some b) items room' ∧ bs'.length = bs.length ∧
        ∀ a, dat ≠ some a → a ≠ b → Table.item? bs' a = Table.item? bs a by
    obtain ⟨bs', heach, hspec⟩ := heach
    refine ⟨bs', ?_, hspec⟩
    rw [moveN, passNonNull_ok hdat, passNonNull_ok fun _ ↦ Option.some_ne_none b]
    exact eachElem_spec hfits heach
  rw [hlen]
  cases dat with
  | none =>
    rw [h.1]
    exact ⟨bs, rfl, ⟨rfl, h.2⟩, h', rfl, fun _ _ _ ↦ rfl⟩
  | some a =>
    have hab : a ≠ b := fun heq ↦ hne (congrArg some heq)
    obtain ⟨rest, hentry, hlength, hvacant⟩ := h
    -- what is left where an element has been moved from
    let left (v : V) : Option V := if elem.cat = .trivially_copyable then some v else none
    have hmoved : ∃ bs', each (fun k ↦ relocateElem elem (elemAt (some b) k) (elemAt (some a) k)) 0 items.length bs = some bs' ∧
        Table.item? bs' a = some ((items.take items.length).map left ++ ((items.drop items.length).map some ++ rest)) ∧
        Filled elem bs' (some b) (items.take items.length) room' ∧ bs'.length = bs.length ∧
        ∀ c, some a ≠ some c → c ≠ b → Table.item? bs' c = Table.item? bs c := by
      refine each_induct (fun i bs' ↦
        Table.item? bs' a = some ((items.take i).map left ++ ((items.drop i).map some ++ rest)) ∧
        Filled elem bs' (some b) (items.take i) room' ∧ bs'.length = bs.length ∧
        ∀ c, some a ≠ some c → c ≠ b → Table.item? bs' c = Table.item? bs c) ?_ ?_
      · exact ⟨hentry, h', rfl, fun _ _ _ ↦ rfl⟩
      · rintro i hi bs₁ ⟨hentry, hfilled, hlength, hother⟩
        rw [← List.getElem_cons_drop hi, List.map_cons, List.cons_append] at hentry
        have htake : (items.take i).length = i := by rw [List.length_take, Nat.min_eq_left hi.le]
        have hk : ((items.take i).map left).length = i := (List.length_map _).trans htake
        obtain ⟨bs₂, hrelocate, hentry', hfilled', hlength', hother'⟩ :=
          relocateElem_spec hentry hk hfilled (by omega) hab
        rw [htake] at hrelocate
        rw [List.take_append_getElem hi] at hfilled'
        refine ⟨bs₂, (Nat.zero_add i).symm ▸ hrelocate, ?_, hfilled', hlength'.trans hlength, fun c hc hc' ↦ ?_⟩
        · rw [hentry', ← List.take_append_getElem hi, List.map_append, List.append_assoc]
          rfl
        · exact (hother' c (fun heq ↦ hc (congrArg some heq.symm)) hc').trans (hother c hc hc')
    obtain ⟨bs', heach, hentry', hfilled, hlength', hother⟩ := hmoved
    rw [List.take_length, List.drop_length] at hentry'
    rw [List.take_length] at hfilled
    refine ⟨bs', heach, ⟨items.map left ++ rest, hentry', ?_, fun htrivial slot hslot ↦ ?_⟩, hfilled, hlength', hother⟩
    · rw [List.length_append, List.length_map, List.length_nil, Nat.zero_add, hlength]
    · rcases List.mem_append.mp hslot with hslot | hslot
      · obtain ⟨v, -, rfl⟩ := List.mem_map.mp hslot
        exact if_neg htrivial
      · exact hvacant htrivial slot hslot

end

/-! ## Blocks -/

section

variable {bs : Blocks V}

/-- A new block has its slots, if its size in bytes is a number of 64 bits. -/
theorem callAlloc_spec {count : BitVec 32} (hfits : count.toNat * elem.size < 2 ^ 64) :
    callAlloc elem true count bs = .ok (bs.length, Table.add bs (List.replicate count.toNat none)) := by
  have hcount : (count.setWidth 64).toNat = count.toNat := by
    rw [BitVec.toNat_setWidth, Nat.mod_eq_of_lt (by have := count.isLt; omega)]
  have hbytes : (BitVec.ofNat 64 elem.size * count.setWidth 64).toNat = count.toNat * elem.size := by
    rw [BitVec.toNat_mul, BitVec.toNat_ofNat, hcount, Nat.mod_mul_mod, Nat.mul_comm, Nat.mod_eq_of_lt hfits]
  have hslots : (if elem.size = 0 then count.toNat
      else (BitVec.ofNat 64 elem.size * count.setWidth 64).toNat / elem.size) = count.toNat := by
    split_ifs with hsize
    · rfl
    · rw [hbytes, Nat.mul_div_cancel _ (Nat.pos_of_ne_zero hsize)]
  rw [callAlloc, hslots, if_pos rfl]

theorem filled_new (bs : Blocks V) (room : ℕ) :
    Filled elem (Table.add bs (List.replicate room none)) (some bs.length) [] room :=
  ⟨List.replicate room none, Table.item?_add_self, by rw [List.length_replicate, List.length_nil, Nat.zero_add],
    fun _ _ hslot ↦ List.eq_of_mem_replicate hslot⟩

/-- A block without elements is freed. -/
theorem callFree_spec {dat : Option ℕ} {room : ℕ} (h : Filled elem bs dat [] room) :
    ∃ bs', callFree elem dat bs = .ok bs' ∧ Touches dat bs bs' ∧ ∀ b, dat = some b → Table.item? bs' b = none := by
  cases dat with
  | none => exact ⟨bs, rfl, .refl none bs, nofun⟩
  | some b =>
    obtain ⟨rest, hentry, -, hvacant⟩ := h
    have hfree : elem.cat = .trivially_copyable ∨ (([] : List V).map some ++ rest).all Option.isNone = true := by
      by_cases htrivial : elem.cat = .trivially_copyable
      · exact .inl htrivial
      · exact .inr (List.all_eq_true.mpr fun slot hslot ↦ by rw [hvacant htrivial slot hslot]; rfl)
    have hremoved : callFree elem (some b) bs = .ok (Table.remove bs b) := by
      rw [callFree, hentry]
      exact if_pos hfree
    refine ⟨_, hremoved, ⟨Table.length_remove, fun a ha ↦ Table.item?_remove_ne fun heq ↦ ha (congrArg some heq)⟩, ?_⟩
    rintro _ ⟨⟩
    exact Table.item?_remove_self

end

end Stela.CodeGen.ArrayBuiltins
