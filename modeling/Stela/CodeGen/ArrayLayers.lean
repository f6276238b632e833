import Stela.CodeGen.ArrayBuiltins

/-!
# The arrays behind their lengths

The functions on arrays with their elements do what the functions on lengths say: they panic where these panic, and
otherwise, unless they fault, they store the lengths and capacities that these compute. So the lengths in any run are
those of a run on lengths alone. A subscript panics where the check of the index does, and otherwise gives the place
at the address that is computed from the length.
-/

namespace Stela.CodeGen.ArrayBuiltins

open Stela.Library Stela.Library.Objects Stela.Library.Poison

/-- Unless the first computation faults, both panic or come to related results. -/
def Shows {α β : Type} (R : α → β → Prop) (r : Except Stop α) (r' : Except ArrayLengths.Stop β) : Prop :=
  match r with
  | .ok a => ∃ b, r' = .ok b ∧ R a b
  | .error .panic => r' = .error .panic
  | .error .fault => True

namespace Shows

variable {α β γ α' β' : Type} {R : α → β → Prop} {R' : α' → β' → Prop} {r : Except Stop α} {r' : Except ArrayLengths.Stop β}
  {f : α → Except Stop α'} {g : β → Except ArrayLengths.Stop β'}

theorem ok {a : α} {b : β} (h : R a b) : Shows R (.ok a) (.ok b) := ⟨b, rfl, h⟩

theorem panic : Shows R (.error .panic) (.error .panic) := rfl

theorem fault : Shows R (.error .fault) r' := trivial

theorem bind (h : Shows R r r') (hf : ∀ a b, R a b → Shows R' (f a) (g b)) : Shows R' (r >>= f) (r' >>= g) := by
  cases r with
  | ok a =>
    obtain ⟨b, rfl, hR⟩ := h
    exact hf a b hR
  | error stop =>
    cases stop with
    | panic =>
      cases (h : r' = .error .panic)
      exact panic
    | fault => exact fault

theorem map_right {g : β → β'} {R' : α → β' → Prop} (h : Shows R r r') (hg : ∀ a b, R a b → R' a (g b)) :
    Shows R' r (r'.map g) := by
  cases r with
  | ok a =>
    obtain ⟨b, rfl, hR⟩ := h
    exact ok (hg a b hR)
  | error stop =>
    cases stop with
    | panic =>
      cases (h : r' = .error .panic)
      exact panic
    | fault => exact fault

/-- Only the first computation goes on. -/
theorem alone {f : γ → Except Stop α} {r : Except Stop γ} (hr : r ≠ .error .panic) (hf : ∀ a, r = .ok a → Shows R (f a) r') :
    Shows R (r >>= f) r' := by
  cases r with
  | ok a => exact hf a rfl
  | error stop =>
    cases stop with
    | panic => exact absurd rfl hr
    | fault => exact fault

theorem defined_ne_panic (o : Option γ) : defined o ≠ .error .panic := by
  cases o with
  | none => exact fun h ↦ nomatch h
  | some a => exact fun h ↦ nomatch h

theorem defined_eq_ok {o : Option γ} {a : γ} : defined o = .ok a ↔ o = some a := by
  cases o with
  | none => exact ⟨(nomatch ·), (nomatch ·)⟩
  | some b => exact ⟨fun h ↦ congrArg some (Except.ok.inj h), fun h ↦ congrArg Except.ok (Option.some.inj h)⟩

theorem defined_bind {o : Option γ} {f : γ → Except Stop α} (hf : ∀ a, o = some a → Shows R (f a) r') :
    Shows R (defined o >>= f) r' :=
  alone (defined_ne_panic o) fun a ha ↦ hf a (defined_eq_ok.mp ha)

/-- Something depends on a value in both computations. -/
theorem use_bind {w : ℕ} {o : Option (BitVec w)} {f : BitVec w → Except Stop α} {g : BitVec w → Except ArrayLengths.Stop β}
    (hf : ∀ a, o = some a → Shows R (f a) (g a)) : Shows R (defined o >>= f) (ArrayLengths.use o >>= g) := by
  cases o with
  | none => exact fault
  | some a => exact hf a rfl

end Shows

variable {V : Type} {elem : ElemType V}

/-! ## Elements -/

/-- The results of work on elements: with each of them, some are written. -/
abbrev Works {α β : Type} : Except Stop α → Except ArrayLengths.Stop β → Prop := Shows fun _ _ ↦ True

theorem works_elementLoop (step : ℕ → Blocks V → Option (Blocks V)) (len : BitVec 32) (k : ℕ) (bs : Blocks V) :
    Works ((elementLoop step).run (k, len, bs)) (ArrayLengths.elementLoop.run len) := by
  induction len using ShrinkingLoop.induction ArrayLengths.elementLoop generalizing k bs with
  | h len ih =>
    by_cases hzero : len = 0
    · have hdone : (elementLoop step).run (k, len, bs) = .ok bs := ShrinkingLoop.run_of_return (if_pos hzero)
      have hdone' : ArrayLengths.elementLoop.run len = .ok () := ShrinkingLoop.run_of_return (if_pos hzero)
      rw [hdone, hdone']
      exact .ok trivial
    · have hbody : (elementLoop step).body (k, len, bs) = defined (step k bs) >>= fun bs ↦
          defined (nswSub len 1) >>= fun decLen ↦ .ok (.inr (k + 1, decLen, bs)) := if_neg hzero
      have hbody' : ArrayLengths.elementLoop.body len = (ArrayLengths.use (nswSub len 1)).map .inr := if_neg hzero
      cases hstep : step k bs with
      | none =>
        rw [hstep] at hbody
        rw [ShrinkingLoop.run_of_error hbody]
        exact .fault
      | some bs' =>
        rw [hstep] at hbody
        cases hdec : nswSub len 1 with
        | none =>
          rw [hdec] at hbody
          rw [ShrinkingLoop.run_of_error hbody]
          exact .fault
        | some decLen =>
          rw [hdec] at hbody hbody'
          rw [ShrinkingLoop.run_of_next hbody, ShrinkingLoop.run_of_next hbody']
          exact ih decLen hbody' (k + 1) bs'

theorem works_eachElem (fast : Bool) (start len : BitVec 32) (block : ℕ) (step : ℕ → Blocks V → Option (Blocks V))
    (bs : Blocks V) : Works (eachElem elem fast len step bs) (ArrayLengths.writeElems elem.toElem fast start len block) := by
  unfold eachElem ArrayLengths.writeElems
  cases fast with
  | true =>
    have hbytes : Works (atOnce elem len step bs) (ArrayLengths.byteLen elem.toElem len) := by
      unfold atOnce ArrayLengths.byteLen
      cases nswMul len (BitVec.ofNat 32 elem.size) with
      | none => exact .fault
      | some byteLen =>
        change Works (if byteLen.toNat = len.toNat * elem.size then defined (each step 0 len.toNat bs) else .error .fault)
          (.ok byteLen)
        split
        · cases each step 0 len.toNat bs with
          | none => exact .fault
          | some bs' => exact .ok trivial
        · exact .fault
    exact hbytes.map_right fun _ _ _ ↦ trivial
  | false => exact (works_elementLoop step len 0 bs).map_right fun _ _ _ ↦ trivial

theorem passNonNull_ne_panic (dat : Option ℕ) : passNonNull elem dat ≠ .error .panic := by
  unfold passNonNull
  split_ifs <;> exact (nomatch ·)

theorem works_constructN (dat : Option ℕ) (k : ℕ) (start len : BitVec 32) (block : ℕ) (bs : Blocks V) :
    Works (constructN elem dat k len bs) (ArrayLengths.constructN elem.toElem start len block) :=
  .alone (passNonNull_ne_panic dat) fun _ _ ↦ works_eachElem _ start len block _ bs

theorem works_copyN (src dst : Option ℕ) (k : ℕ) (start len : BitVec 32) (block : ℕ) (bs : Blocks V) :
    Works (copyN elem src len dst k bs) (ArrayLengths.copyN elem.toElem start len block) :=
  .alone (passNonNull_ne_panic src) fun _ _ ↦ .alone (passNonNull_ne_panic dst) fun _ _ ↦
    works_eachElem _ start len block _ bs

theorem works_moveN (src dst : Option ℕ) (start len : BitVec 32) (block : ℕ) (bs : Blocks V) :
    Works (moveN elem src len dst bs) (ArrayLengths.moveN elem.toElem start len block) :=
  .alone (passNonNull_ne_panic src) fun _ _ ↦ .alone (passNonNull_ne_panic dst) fun _ _ ↦
    works_eachElem _ start len block _ bs

theorem works_destroyN (dat : Option ℕ) (start : ℕ) (len : Option (BitVec 32)) (bs : Blocks V) :
    Works (destroyN elem dat start len bs) (ArrayLengths.destroyN elem.toElem len) := by
  refine .alone (passNonNull_ne_panic dat) fun _ _ ↦ ?_
  by_cases htrivial : elem.cat = .trivially_copyable
  · rw [if_pos htrivial, ArrayLengths.destroyN, if_pos htrivial]
    exact .ok trivial
  · rw [if_neg htrivial, ArrayLengths.destroyN, if_neg htrivial]
    exact .use_bind fun len _ ↦ works_elementLoop _ len 0 bs

/-! ## Storages -/

/-- The size of the block that `callAlloc` asks for. -/
def blockBytes (elem : ElemType V) (cap : BitVec 32) : ℕ := (BitVec.ofNat 64 elem.size * cap.setWidth 64).toNat

/-- A storage without its elements. -/
def lengths (elem : ElemType V) (storage : Storage) : ArrayLengths.Storage :=
  ⟨storage.cap, storage.len, blockBytes elem storage.cap⟩

/-- Afterwards the array has this length and capacity, and a block that was asked for with this capacity; the other
arrays are as before. -/
structure Stored (elem : ElemType V) (array : ℕ) (heap heap' : Heap V)
    (result : ArrayLengths.Storage × List ArrayLengths.Write) : Prop where
  lengths : ∃ storage, Table.item? heap'.storages array = some storage ∧ result.1 = lengths elem storage
  others : ∀ other, other ≠ array → Table.item? heap'.storages other = Table.item? heap.storages other

section Storages

variable {array : ℕ} {storage : Storage} {heap : Heap V} {malloc : Bool}

theorem loadStorage_ne_panic : loadStorage heap array ≠ .error .panic :=
  Shows.defined_ne_panic _

theorem item?_of_loadStorage (h : loadStorage heap array = .ok storage) : Table.item? heap.storages array = some storage :=
  Shows.defined_eq_ok.mp h

/-- The storage that is loaded is the one that is known to be there. -/
theorem Shows.load {α β : Type} {R : α → β → Prop} {f : Storage → Except Stop α} {r' : Except ArrayLengths.Stop β}
    (hitem : Table.item? heap.storages array = some storage) (hf : Shows R (f storage) r') :
    Shows R (loadStorage heap array >>= f) r' := by
  refine .alone loadStorage_ne_panic fun storage' h ↦ ?_
  cases hitem.symm.trans (item?_of_loadStorage h)
  exact hf

theorem stored_storeStorage {storage' : Storage} {blocks : Blocks V} {writes : List ArrayLengths.Write}
    (hitem : Table.item? heap.storages array = some storage) :
    Stored elem array heap (storeStorage heap array storage' blocks) (lengths elem storage', writes) :=
  ⟨⟨storage', Table.item?_put_self (Table.lt_of_item? hitem), rfl⟩, fun _ hne ↦ Table.item?_put_ne hne.symm⟩

theorem stored_refl {writes : List ArrayLengths.Write} (hitem : Table.item? heap.storages array = some storage) :
    Stored elem array heap heap (lengths elem storage, writes) :=
  ⟨⟨storage, hitem, rfl⟩, fun _ _ ↦ rfl⟩

theorem Stored.trans {heap' heap'' : Heap V} {result result' : ArrayLengths.Storage × List ArrayLengths.Write}
    (h : Stored elem array heap heap' result) (h' : Stored elem array heap' heap'' result') :
    Stored elem array heap heap'' result' :=
  ⟨h'.lengths, fun other hne ↦ (h'.others other hne).trans (h.others other hne)⟩

theorem callFree_ne_panic (dat : Option ℕ) (bs : Blocks V) : callFree elem dat bs ≠ .error .panic := by
  unfold callFree
  split
  · exact (nomatch ·)
  · split
    · exact (nomatch ·)
    · split <;> exact (nomatch ·)

theorem shows_reallocate (hitem : Table.item? heap.storages array = some storage) (cap : BitVec 32) :
    Shows (Stored elem array heap) (reallocate elem malloc array cap heap)
      (ArrayLengths.reallocate elem.toElem malloc (lengths elem storage) cap) := by
  unfold reallocate ArrayLengths.reallocate
  cases malloc with
  | false => exact .panic
  | true =>
    refine .load hitem ((works_moveN storage.dat _ 0 storage.len _ _).bind fun blocks _ _ ↦ ?_)
    exact .alone (callFree_ne_panic _ _) fun blocks _ ↦ .ok (stored_storeStorage hitem)

theorem shows_grow (hitem : Table.item? heap.storages array = some storage) (needed : Bool) (ceiled : Option (BitVec 32)) :
    Shows (Stored elem array heap) (grow elem malloc needed array ceiled heap)
      (ArrayLengths.grow elem.toElem malloc (lengths elem storage) needed ceiled) := by
  unfold grow ArrayLengths.grow
  cases needed with
  | false => exact .ok (stored_refl hitem)
  | true => exact .use_bind fun cap _ ↦ shows_reallocate hitem cap

theorem shows_btnPushBack (hitem : Table.item? heap.storages array = some storage) (value : V) :
    Shows (Stored elem array heap) (btnPushBack elem malloc array value heap)
      (ArrayLengths.btnPushBack elem.toElem malloc (lengths elem storage)) := by
  refine .load hitem ((shows_grow hitem _ _).bind fun heap' result hgrown ↦ ?_)
  obtain ⟨storage', hitem', hlengths⟩ := hgrown.lengths
  refine .load hitem' (.defined_bind fun blocks _ ↦ .use_bind fun len _ ↦ ?_)
  obtain ⟨array', moved⟩ := result
  cases hlengths
  exact .ok (hgrown.trans (stored_storeStorage hitem'))

theorem shows_btnAppend {other : ℕ} {otherStorage : Storage} (hitem : Table.item? heap.storages array = some storage)
    (hother : Table.item? heap.storages other = some otherStorage) :
    Shows (Stored elem array heap) (btnAppend elem malloc array other heap)
      (ArrayLengths.btnAppend elem.toElem malloc (lengths elem storage) otherStorage.len) := by
  refine .load hitem (.load hother (.use_bind fun totalLen _ ↦ (shows_grow hitem _ _).bind fun heap' result hgrown ↦ ?_))
  obtain ⟨storage', hitem', hlengths⟩ := hgrown.lengths
  obtain ⟨array', moved⟩ := result
  cases hlengths
  refine .alone loadStorage_ne_panic fun otherStorage' _ ↦ .load hitem' ?_
  exact (works_copyN otherStorage'.dat storage'.dat _ storage.len otherStorage.len _ _).bind fun blocks _ _ ↦
    .ok (hgrown.trans (stored_storeStorage hitem'))

theorem shows_btnPopBack (hitem : Table.item? heap.storages array = some storage) :
    Shows (Stored elem array heap) (btnPopBack elem array heap) (ArrayLengths.btnPopBack (lengths elem storage)) := by
  refine .load hitem ?_
  unfold ArrayLengths.btnPopBack
  by_cases hempty : storage.len ≠ 0
  · rw [if_pos hempty, if_pos (show (lengths elem storage).len ≠ 0 from hempty)]
    exact .use_bind fun lenMinus1 _ ↦ .defined_bind fun blocks _ ↦ .ok (stored_storeStorage hitem)
  · rw [if_neg hempty, if_neg (show ¬(lengths elem storage).len ≠ 0 from hempty)]
    exact .panic

theorem shows_btnResize (hitem : Table.item? heap.storages array = some storage) (len : BitVec 32) :
    Shows (Stored elem array heap) (btnResize elem malloc array len heap)
      (ArrayLengths.btnResize elem.toElem malloc (lengths elem storage) len) := by
  refine .load hitem ?_
  unfold ArrayLengths.btnResize
  by_cases hshrinks : len.ule storage.len = true
  · rw [if_pos hshrinks, if_pos (show len.ule (lengths elem storage).len = true from hshrinks)]
    exact (works_destroyN storage.dat len.toNat _ _).bind fun blocks _ _ ↦ .ok (stored_storeStorage hitem)
  · rw [if_neg hshrinks, if_neg (show ¬len.ule (lengths elem storage).len = true from hshrinks)]
    refine (shows_grow hitem _ _).bind fun heap' result hgrown ↦ ?_
    obtain ⟨storage', hitem', hlengths⟩ := hgrown.lengths
    obtain ⟨array', moved⟩ := result
    cases hlengths
    refine .load hitem' (.use_bind fun constructCount _ ↦ ?_)
    exact (works_constructN storage'.dat _ storage.len constructCount _ _).bind fun blocks _ _ ↦
      .ok (hgrown.trans (stored_storeStorage hitem'))

theorem shows_btnReserve (hitem : Table.item? heap.storages array = some storage) (cap : BitVec 32) :
    Shows (Stored elem array heap) (btnReserve elem malloc array cap heap)
      (ArrayLengths.btnReserve elem.toElem malloc (lengths elem storage) cap) := by
  refine .load hitem ?_
  unfold ArrayLengths.btnReserve
  by_cases hgrows : storage.cap.ult cap = true
  · rw [if_pos hgrows, if_pos (show (lengths elem storage).cap.ult cap = true from hgrows)]
    exact shows_reallocate hitem cap
  · rw [if_neg hgrows, if_neg (show ¬(lengths elem storage).cap.ult cap = true from hgrows)]
    exact .ok (stored_refl hitem)

end Storages

/-! ## Runs -/

open Library.Machine

/-- A run of the functions on lengths leads to these. -/
def Reached (elem : ArrayLengths.Elem) (array : ArrayLengths.Storage) : Prop :=
  ∃ start calls, ArrayLengths.Constructed elem start ∧ run (ArrayLengths.step elem) start calls = some array

/-- All arrays of the heap have lengths and capacities that are reached without looking at their elements. -/
def AllReached (elem : ElemType V) (heap : Heap V) : Prop :=
  ∀ array storage, Table.item? heap.storages array = some storage → Reached elem.toElem (lengths elem storage)

section Runs

variable {heap heap' : Heap V} {array : ℕ} {storage : Storage} {malloc : Bool}

theorem Reached.step {elem : ArrayLengths.Elem} {array array' : ArrayLengths.Storage} (h : Reached elem array)
    (call : ArrayLengths.Call) (hstep : ArrayLengths.step elem array call = some array') : Reached elem array' := by
  obtain ⟨start, calls, hstart, hrun⟩ := h
  refine ⟨start, calls ++ [call], hstart, ?_⟩
  rw [run_append, hrun]
  exact run_cons_eq_some.mpr ⟨array', hstep, rfl⟩

theorem AllReached.put (h : AllReached elem heap) {blocks : Blocks V} (hstorage : Reached elem.toElem (lengths elem storage)) :
    AllReached elem (storeStorage heap array storage blocks) := by
  intro array' storage' hitem
  by_cases heq : array = array'
  · subst heq
    have hlt : array < heap.storages.length := by
      have := Table.lt_of_item? hitem
      rwa [storeStorage, Table.length_put] at this
    rw [storeStorage, Table.item?_put_self hlt] at hitem
    cases hitem
    exact hstorage
  · rw [storeStorage, Table.item?_put_ne heq] at hitem
    exact h array' storage' hitem

theorem AllReached.remove (h : AllReached elem heap) {blocks : Blocks V} :
    AllReached elem ⟨Table.remove heap.storages array, blocks⟩ := by
  intro array' storage' hitem
  by_cases heq : array = array'
  · subst heq
    rw [Table.item?_remove_self] at hitem
    cases hitem
  · rw [Table.item?_remove_ne heq] at hitem
    exact h array' storage' hitem

theorem AllReached.add (h : AllReached elem heap) {blocks : Blocks V} (hstorage : Reached elem.toElem (lengths elem storage)) :
    AllReached elem ⟨Table.add heap.storages storage, blocks⟩ := by
  intro array' storage' hitem
  by_cases heq : array' = heap.storages.length
  · subst heq
    rw [Table.item?_add_self] at hitem
    cases hitem
    exact hstorage
  · rw [Table.item?_add_ne heq] at hitem
    exact h array' storage' hitem

/-- A call that the functions on lengths make as well. -/
theorem AllReached.call (h : AllReached elem heap) (call : ArrayLengths.Call) {f : Storage → Except Stop (Heap V)}
    (hshows : ∀ storage, Table.item? heap.storages array = some storage →
      Shows (Stored elem array heap) (loadStorage heap array >>= f) (ArrayLengths.exec elem.toElem (lengths elem storage) call))
    (hok : loadStorage heap array >>= f = .ok heap') : AllReached elem heap' := by
  obtain ⟨storage, hload, -⟩ := Except.bind_eq_ok.mp hok
  have hcall := hshows storage (item?_of_loadStorage hload)
  rw [hok] at hcall
  obtain ⟨result, hexec, hstored⟩ := hcall
  obtain ⟨storage', hitem', hlengths⟩ := hstored.lengths
  intro other otherStorage hother
  by_cases heq : other = array
  · subst heq
    cases hitem'.symm.trans hother
    refine (h other storage (item?_of_loadStorage hload)).step call ?_
    rw [ArrayLengths.step, hexec, ← hlengths]
    rfl
  · rw [hstored.others other heq] at hother
    exact h other otherStorage hother

theorem ptrInc_allReached {ptr : Option ℕ} (h : AllReached elem heap) (hok : ptrInc ptr heap = .ok heap') :
    AllReached elem heap' := by
  cases ptr with
  | none =>
    cases hok
    exact h
  | some array =>
    obtain ⟨storage, hload, hok⟩ := Except.bind_eq_ok.mp hok
    cases hok
    exact h.put (h array storage (item?_of_loadStorage hload))

theorem ptrDec_allReached {ptr : Option ℕ} (h : AllReached elem heap) (hok : ptrDec elem ptr heap = .ok heap') :
    AllReached elem heap' := by
  cases ptr with
  | none =>
    cases hok
    exact h
  | some array =>
    obtain ⟨storage, hload, hok⟩ := Except.bind_eq_ok.mp hok
    have hput : AllReached elem (storeStorage heap array { storage with ref := storage.ref - 1 } heap.blocks) :=
      h.put (h array storage (item?_of_loadStorage hload))
    change (if storage.ref - 1 = 0 then _ else _) = _ at hok
    split at hok
    · obtain ⟨heap₁, hdtor, hok⟩ := Except.bind_eq_ok.mp hok
      obtain ⟨_, -, hdtor⟩ := Except.bind_eq_ok.mp hdtor
      obtain ⟨_, -, hdtor⟩ := Except.bind_eq_ok.mp hdtor
      obtain ⟨_, -, hdtor⟩ := Except.bind_eq_ok.mp hdtor
      cases hdtor
      cases hok
      exact hput.remove
    · cases hok
      exact hput

theorem constructHandle_heap {obj : ℕ} {ptr : Option ℕ} {m m' : Memory V} (hok : constructHandle obj ptr m = .ok m') :
    m'.heap = m.heap := by
  unfold constructHandle at hok
  split at hok <;> cases hok
  rfl

theorem reached_empty (elem : ElemType V) (ref : ℤ) : Reached elem.toElem (lengths elem ⟨ref, 0, 0, none⟩) := by
  refine ⟨ArrayLengths.arrDefCtor, [], .inl rfl, congrArg some ?_⟩
  have hzero : blockBytes elem 0 = 0 := by simp [blockBytes]
  exact (congrArg (ArrayLengths.Storage.mk 0 0) hzero).symm

/-- The block has so many slots. -/
def HasSlots (b slots : ℕ) (bs : Blocks V) : Prop := ∃ block, Table.item? bs b = some block ∧ block.length = slots

theorem hasSlots_write {b slots k : ℕ} {slot : Option V} {bs bs' : Blocks V} (h : HasSlots b slots bs)
    (hwrite : write slot ⟨some b, k⟩ bs = some bs') : k < slots ∧ HasSlots b slots bs' := by
  obtain ⟨block, hitem, hlength⟩ := h
  obtain ⟨block', hitem', hwrite⟩ := Option.bind_eq_some_iff.mp (show (Table.item? bs b).bind _ = some bs' from hwrite)
  cases hitem.symm.trans hitem'
  obtain ⟨hlt, hput⟩ := Option.ite_none_right_eq_some.mp hwrite
  cases hput
  exact ⟨hlength ▸ hlt, _, Table.item?_put_self (Table.lt_of_item? hitem), by rw [List.length_set, hlength]⟩

theorem hasSlots_constructElem {b slots k : ℕ} {v : V} {bs bs' : Blocks V} (h : HasSlots b slots bs)
    (hconstruct : constructElem elem v ⟨some b, k⟩ bs = some bs') : k < slots ∧ HasSlots b slots bs' := by
  unfold constructElem at hconstruct
  split at hconstruct
  · exact hasSlots_write h hconstruct
  · unfold construct at hconstruct
    split at hconstruct
    · exact hasSlots_write h hconstruct
    · cases hconstruct
    · cases hconstruct

/-- So many elements are only constructed where there are slots for them. -/
theorem le_of_each {b slots : ℕ} {values : ℕ → Option V} {k n : ℕ} {bs bs' : Blocks V} (h : HasSlots b slots bs) (hk : k ≤ slots)
    (heach : each (fun e bs ↦ (values e).bind fun v ↦ constructElem elem v (elemAt (some b) e) bs) k n bs = some bs') :
    k + n ≤ slots := by
  induction n generalizing k bs with
  | zero => exact hk
  | succ n ih =>
    obtain ⟨bs₁, hstep, hrest⟩ := Option.bind_eq_some_iff.mp (show Option.bind _ _ = some bs' from heach)
    obtain ⟨v, -, hconstruct⟩ := Option.bind_eq_some_iff.mp hstep
    obtain ⟨hlt, hslots⟩ := hasSlots_constructElem h hconstruct
    have hle := ih hslots hlt hrest
    omega

theorem arrDefCtor_allReached {malloc : Bool} {obj : ℕ} {m m' : Memory V} (h : AllReached elem m.heap)
    (hok : arrDefCtor malloc obj m = .ok m') : AllReached elem m'.heap := by
  unfold arrDefCtor at hok
  split at hok
  · rw [constructHandle_heap hok]
    exact h.add (reached_empty elem 1)
  · cases hok

theorem hasSlots_callAlloc {malloc : Bool} {count : BitVec 32} {bs bs' : Blocks V} {dat : ℕ}
    (hok : callAlloc elem malloc count bs = .ok (dat, bs')) :
    HasSlots dat (if elem.size = 0 then count.toNat else blockBytes elem count / elem.size) bs' := by
  unfold callAlloc at hok
  cases malloc with
  | false => cases hok
  | true =>
    cases hok
    exact ⟨_, Table.item?_add_self, List.length_replicate⟩

/-- A literal whose elements have all been constructed has a block of the size that its length says. -/
theorem reached_literal {n : ℕ} {slots : ℕ} {storage : Storage}
    (hslots : slots = if elem.size = 0 then (BitVec.ofNat 32 n).toNat else blockBytes elem (BitVec.ofNat 32 n) / elem.size)
    (hle : n ≤ slots) (hcap : storage.cap = BitVec.ofNat 32 n) (hlen : storage.len = BitVec.ofNat 32 n) :
    Reached elem.toElem (lengths elem storage) := by
  have hcount : (BitVec.ofNat 32 n).toNat ≤ n := by
    rw [BitVec.toNat_ofNat]
    exact Nat.mod_le _ _
  have hsize : (BitVec.ofNat 32 n).toNat * elem.size < 2 ^ 64 := by
    by_cases hzero : elem.size = 0
    · rw [hzero, Nat.mul_zero]
      exact Nat.two_pow_pos 64
    · rw [if_neg hzero] at hslots
      calc (BitVec.ofNat 32 n).toNat * elem.size
        _ ≤ slots * elem.size := Nat.mul_le_mul_right _ (hcount.trans hle)
        _ ≤ blockBytes elem (BitVec.ofNat 32 n) := hslots ▸ Nat.div_mul_le_self _ _
        _ < 2 ^ 64 := BitVec.isLt _
  refine ⟨lengths elem storage, [], .inr ⟨BitVec.ofNat 32 n, hsize, ?_⟩, rfl⟩
  rw [lengths, hcap, hlen]
  rfl

theorem arrayLiteral_allReached {malloc malloc' : Bool} {obj : ℕ} {values : List V} {m m' : Memory V}
    (h : AllReached elem m.heap) (hok : arrayLiteral elem malloc malloc' obj values m = .ok m') : AllReached elem m'.heap := by
  unfold arrayLiteral at hok
  split at hok
  · exact arrDefCtor_allReached h hok
  · obtain ⟨⟨dat, m₁⟩, hctor, hok⟩ := Except.bind_eq_ok.mp hok
    obtain ⟨blocks, heach, hok⟩ := Except.bind_eq_ok.mp hok
    cases hok
    unfold arrLenCtor at hctor
    split at hctor
    · obtain ⟨⟨dat', blocks'⟩, halloc, hctor⟩ := Except.bind_eq_ok.mp hctor
      obtain ⟨m₂, hhandle, hctor⟩ := Except.bind_eq_ok.mp hctor
      cases hctor
      have hheap := constructHandle_heap hhandle
      have hslots := hasSlots_callAlloc halloc
      rw [hheap] at heach
      have hle := le_of_each hslots (Nat.zero_le _) (Shows.defined_eq_ok.mp heach)
      rw [Nat.zero_add] at hle
      change AllReached elem ⟨m₁.heap.storages, blocks⟩
      rw [hheap]
      exact h.add (reached_literal rfl hle rfl rfl)
    · cases hctor

/-- A call on the array of a handle. -/
theorem withArray_allReached {obj : ℕ} {f : ℕ → Heap V → Except Stop (Heap V)} {m m' : Memory V}
    (hf : ∀ array heap', f array m.heap = .ok heap' → AllReached elem heap') (hok : withArray obj f m = .ok m') :
    AllReached elem m'.heap := by
  obtain ⟨array, -, hok⟩ := Except.bind_eq_ok.mp hok
  obtain ⟨heap, hheap, hok⟩ := Except.bind_eq_ok.mp hok
  cases hok
  exact hf array heap hheap

theorem btnAppend_allReached {other : ℕ} (h : AllReached elem heap) (hok : btnAppend elem malloc array other heap = .ok heap') :
    AllReached elem heap' := by
  obtain ⟨_, -, hrest⟩ := Except.bind_eq_ok.mp hok
  obtain ⟨otherStorage, hload, -⟩ := Except.bind_eq_ok.mp hrest
  exact h.call ⟨.append otherStorage.len, malloc⟩
    (fun _ hitem ↦ shows_btnAppend hitem (item?_of_loadStorage hload)) hok

theorem exec_allReached {m m' : Memory V} {call : Call V} {reply : Reply V} (h : AllReached elem m.heap)
    (hok : exec elem call m = .ok (m', reply)) : AllReached elem m'.heap := by
  obtain ⟨op, malloc, malloc'⟩ := call
  have hmap {r : Except Stop (Memory V)} (hr : ∀ m', r = .ok m' → AllReached elem m'.heap)
      (hok : r.map (·, Reply.nothing) = .ok (m', reply)) : AllReached elem m'.heap := by
    obtain ⟨m₁, hm₁, heq⟩ := Except.map_eq_ok.mp hok
    cases heq
    exact hr _ hm₁
  cases op with
  | alloca =>
    cases hok
    exact h
  | defCtor obj => exact hmap (fun _ ↦ arrDefCtor_allReached h) hok
  | literal obj values => exact hmap (fun _ ↦ arrayLiteral_allReached h) hok
  | copCtor dst src =>
    refine hmap (fun m' hm' ↦ ?_) hok
    obtain ⟨_, -, hm'⟩ := Except.bind_eq_ok.mp hm'
    obtain ⟨heap, hheap, hm'⟩ := Except.bind_eq_ok.mp hm'
    rw [constructHandle_heap hm']
    exact ptrInc_allReached h hheap
  | movCtor dst src =>
    refine hmap (fun m' hm' ↦ ?_) hok
    obtain ⟨_, -, hm'⟩ := Except.bind_eq_ok.mp hm'
    obtain ⟨m₁, hm₁, hm'⟩ := Except.bind_eq_ok.mp hm'
    cases hm'
    rw [constructHandle_heap hm₁]
    exact h
  | copAsgn dst src =>
    refine hmap (fun m' hm' ↦ ?_) hok
    obtain ⟨_, -, hm'⟩ := Except.bind_eq_ok.mp hm'
    obtain ⟨_, -, hm'⟩ := Except.bind_eq_ok.mp hm'
    obtain ⟨heap, hinc, hm'⟩ := Except.bind_eq_ok.mp hm'
    obtain ⟨heap', hdec, hm'⟩ := Except.bind_eq_ok.mp hm'
    cases hm'
    exact ptrDec_allReached (ptrInc_allReached h hinc) hdec
  | movAsgn dst src =>
    refine hmap (fun m' hm' ↦ ?_) hok
    obtain ⟨_, -, hm'⟩ := Except.bind_eq_ok.mp hm'
    obtain ⟨_, -, hm'⟩ := Except.bind_eq_ok.mp hm'
    split at hm'
    · cases hm'
    · obtain ⟨heap', hdec, hm'⟩ := Except.bind_eq_ok.mp hm'
      cases hm'
      exact ptrDec_allReached h hdec
  | dtor obj =>
    refine hmap (fun m' hm' ↦ ?_) hok
    obtain ⟨_, -, hm'⟩ := Except.bind_eq_ok.mp hm'
    obtain ⟨heap', hdec, hm'⟩ := Except.bind_eq_ok.mp hm'
    cases hm'
    exact ptrDec_allReached h hdec
  | pushBack obj value =>
    refine hmap (fun _ ↦ withArray_allReached fun array heap' hheap ↦ ?_) hok
    exact h.call ⟨.pushBack, malloc⟩ (fun _ hitem ↦ shows_btnPushBack hitem value) hheap
  | append obj other =>
    obtain ⟨otherArray, -, hok⟩ := Except.bind_eq_ok.mp hok
    exact hmap (fun _ ↦ withArray_allReached fun _ _ ↦ btnAppend_allReached h) hok
  | popBack obj =>
    refine hmap (fun _ ↦ withArray_allReached fun array heap' hheap ↦ ?_) hok
    exact h.call ⟨.popBack, malloc⟩ (fun _ hitem ↦ shows_btnPopBack hitem) hheap
  | resize obj len =>
    refine hmap (fun _ ↦ withArray_allReached fun array heap' hheap ↦ ?_) hok
    exact h.call ⟨.resize len, malloc⟩ (fun _ hitem ↦ shows_btnResize hitem len) hheap
  | reserve obj cap =>
    refine hmap (fun _ ↦ withArray_allReached fun array heap' hheap ↦ ?_) hok
    exact h.call ⟨.reserve cap, malloc⟩ (fun _ hitem ↦ shows_btnReserve hitem cap) hheap
  | store obj index value =>
    obtain ⟨_, -, hok⟩ := Except.bind_eq_ok.mp hok
    obtain ⟨_, -, hok⟩ := Except.bind_eq_ok.mp hok
    obtain ⟨_, -, hok⟩ := Except.bind_eq_ok.mp hok
    cases hok
    exact h
  | load obj index | size obj | capacity obj =>
    obtain ⟨_, -, hok⟩ := Except.bind_eq_ok.mp hok
    obtain ⟨_, -, hok⟩ := Except.bind_eq_ok.mp hok
    cases hok
    exact h

/-- In every run, the arrays have lengths and capacities that the functions on lengths lead to. -/
theorem run_allReached {m : Memory V} {calls : List (Call V)} (hrun : run (step elem) Memory.empty calls = some m) :
    AllReached elem m.heap := by
  have hstep (m : Memory V) (call : Call V) (m' : Memory V) (h : AllReached elem m.heap) (hstep : step elem m call = some m') :
      AllReached elem m'.heap := by
    obtain ⟨⟨_, reply⟩, hok, rfl⟩ := Option.map_eq_some_iff.mp hstep
    unfold Except.toOption at hok
    split at hok
    · cases hok
      rename_i heq
      exact exec_allReached h heq
    · cases hok
  have hempty : AllReached elem (Memory.empty : Memory V).heap := fun array storage hitem ↦ by cases hitem
  exact run_invariant hstep hrun hempty

end Runs

/-! ## Subscripts -/

section Subscripts

variable {array obj : ℕ} {storage : Storage} {m : Memory V}

/-- The storage of an array whose lengths are right, with its block at an address. -/
def indexed (elem : ElemType V) (storage : Storage) (base : BitVec 64)
    (hsized : ArrayLengths.WellSized elem.toElem (lengths elem storage))
    (hfits : base.toNat + blockBytes elem storage.cap ≤ 2 ^ 64) : Array.Storage elem.size where
  cap := storage.cap
  len := storage.len
  dat := ⟨base, blockBytes elem storage.cap, hfits⟩
  holds := (Nat.mul_le_mul_right _ hsized.len_le).trans hsized.bytes.ge

/-- A check of the index against the length, and the place of the element. -/
theorem arrIdx_eq (hload : loadArray m obj = .ok array) (hitem : Table.item? m.heap.storages array = some storage)
    (index : Array.Index) : ∃ check : Bool, arrIdx obj index m =
        (if check then .ok (elemAt storage.dat index.bits.toNat) else .error .panic) ∧
      ∀ {size : ℕ} {array : Array.Storage size}, array.len = storage.len → Array.visitSubscript array index =
        if check then (Array.arrayIndex size array.dat index.bits).elim .poison .ret else .panic := by
  have hstorage : loadStorage m.heap array = .ok storage := Shows.defined_eq_ok.mpr hitem
  cases index with
  | sint bits =>
    refine ⟨Array.checkSignedBounds bits storage.len, ?_, fun hlen ↦ hlen ▸ rfl⟩
    rw [arrIdx, hload]
    change loadStorage m.heap array >>= _ = _
    rw [hstorage]
    rfl
  | uint bits =>
    refine ⟨Array.checkUnsignedBounds bits storage.len, ?_, fun hlen ↦ hlen ▸ rfl⟩
    rw [arrIdx, hload]
    change loadStorage m.heap array >>= _ = _
    rw [hstorage]
    rfl

/-- Of an element, the subscript gives the place, which is at the address that is computed for it; otherwise both
panic. -/
theorem arrIdx_visitSubscript (hload : loadArray m obj = .ok array) (hitem : Table.item? m.heap.storages array = some storage)
    {base : BitVec 64} (hsized : ArrayLengths.WellSized elem.toElem (lengths elem storage))
    (hfits : base.toNat + blockBytes elem storage.cap ≤ 2 ^ 64) (index : Array.Index) :
    (∃ address, Array.visitSubscript (indexed elem storage base hsized hfits) index = .ret address ∧
      arrIdx obj index m = .ok (elemAt storage.dat index.bits.toNat) ∧
        (address.toNat : ℤ) = base.toNat + index.value * elem.size) ∨
    Array.visitSubscript (indexed elem storage base hsized hfits) index = .panic ∧ arrIdx obj index m = .error .panic := by
  obtain ⟨check, hidx, hvisit⟩ := arrIdx_eq hload hitem index
  have hvisit := @hvisit _ (indexed elem storage base hsized hfits) rfl
  cases check with
  | false => exact .inr ⟨hvisit, hidx⟩
  | true =>
    rcases Array.visitSubscript_cases (indexed elem storage base hsized hfits) index with
      ⟨address, hret, -, hnat, -⟩ | ⟨hpanic, -⟩
    · exact .inl ⟨address, hret, hidx, hnat⟩
    · rw [if_pos rfl] at hvisit
      cases haddress : Array.arrayIndex elem.size (indexed elem storage base hsized hfits).dat index.bits with
      | none =>
        rw [haddress] at hvisit
        cases hvisit.symm.trans hpanic
      | some address =>
        rw [haddress] at hvisit
        cases hvisit.symm.trans hpanic

end Subscripts

end Stela.CodeGen.ArrayBuiltins
