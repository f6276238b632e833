import Stela.CodeGen.CompareExprs

/-!
# The laws of the generated comparisons

The generated functions decide the abstract equality and the abstract order, the order where pointers move in every
array of the type. The laws of the abstract comparisons are then theirs.
-/

namespace Stela.CodeGen.CompareExprs

open Stela.Syntax Stela.Library Library.Except Comparison

/-- The comparison comes to an answer, and it is this one. -/
def Decides (r : Except Stop Bool) (p : Prop) : Prop := ∃ b, r = .ok b ∧ (b = true ↔ p)

theorem Decides.iff {r : Except Stop Bool} {p : Prop} (h : Decides r p) : r = .ok true ↔ p := by
  obtain ⟨b, rfl, hb⟩ := h
  rw [Except.ok.injEq, hb]

theorem Decides.congr {r : Except Stop Bool} {p q : Prop} (h : Decides r p) (hpq : p ↔ q) : Decides r q := by
  obtain ⟨b, hr, hb⟩ := h
  exact ⟨b, hr, hb.trans hpq⟩

theorem Decides.cases {r : Except Stop Bool} {p : Prop} (h : Decides r p) : r = .ok true ∧ p ∨ r = .ok false ∧ ¬p := by
  obtain ⟨b, rfl, hb⟩ := h
  cases b with
  | true => exact .inl ⟨rfl, hb.mp rfl⟩
  | false => exact .inr ⟨rfl, fun hp ↦ Bool.false_ne_true (hb.mpr hp)⟩

theorem decides_true {p : Prop} (hp : p) : Decides (.ok true) p := ⟨true, rfl, iff_of_true rfl hp⟩

theorem decides_false {p : Prop} (hp : ¬p) : Decides (.ok false) p := ⟨false, rfl, iff_of_false Bool.false_ne_true hp⟩

/-! ## Arrays -/

section

variable {α : Type} {size : ℕ} {compare : α → α → Except Stop Bool} {lhs rhs : ArrayVal α} {eq lt : α → α → Prop}

theorem atEnd_iff (hsize : size ≠ 0) {arr : ArrayVal α} {k : ℕ} : atEnd size arr k ↔ k = arr.elems.length := by
  rw [atEnd, Nat.add_left_cancel_iff]
  exact Nat.mul_left_inj hsize

theorem atEnd_zero (arr : ArrayVal α) : atEnd 0 arr 0 := rfl

theorem load_of_lt {arr : ArrayVal α} {k : ℕ} (h : k < arr.elems.length) : load arr k = .ok arr.elems[k] :=
  load_eq_ok.mpr (List.getElem?_eq_getElem h)

/-- From any point on, the loop compares what is left. -/
theorem arrEqLoop_decides (hsize : size ≠ 0) (hcompare : ∀ a b, Decides (compare a b) (eq a b))
    (hlen : lhs.elems.length = rhs.elems.length) (k : ℕ) (hk : k ≤ rhs.elems.length) :
    Decides ((arrEqLoop size compare lhs rhs).run k) (List.Forall₂ eq (lhs.elems.drop k) (rhs.elems.drop k)) := by
  induction k using ShrinkingLoop.induction (arrEqLoop size compare lhs rhs) with
  | h k ih =>
    by_cases hend : k = rhs.elems.length
    · have hbody : (arrEqLoop size compare lhs rhs).body k = .ok (.inl true) := if_pos ((atEnd_iff hsize).mpr hend)
      rw [ShrinkingLoop.run_of_return hbody, hend, List.drop_length, ← hlen, List.drop_length]
      exact decides_true .nil
    · have hrhs : k < rhs.elems.length := hk.lt_of_ne hend
      have hlhs : k < lhs.elems.length := hlen ▸ hrhs
      have hbody : (arrEqLoop size compare lhs rhs).body k =
          (compare lhs.elems[k] rhs.elems[k]).map fun eq ↦ if eq then .inr (k + 1) else .inl false := by
        change arrEqBody size compare lhs rhs k = _
        rw [arrEqBody, if_neg fun h ↦ hend ((atEnd_iff hsize).mp h), load_of_lt hlhs, load_of_lt hrhs]
        rfl
      rw [List.drop_eq_getElem_cons hlhs, List.drop_eq_getElem_cons hrhs, List.forall₂_cons]
      rcases (hcompare lhs.elems[k] rhs.elems[k]).cases with ⟨hanswer, heq⟩ | ⟨hanswer, heq⟩
      · have hnext : (arrEqLoop size compare lhs rhs).Next k (k + 1) := by
          rw [ShrinkingLoop.Next, hbody, hanswer]
          rfl
        rw [ShrinkingLoop.run_of_next hnext, and_iff_right heq]
        exact ih (k + 1) hnext hrhs
      · have hreturn : (arrEqLoop size compare lhs rhs).body k = .ok (.inl false) := by
          rw [hbody, hanswer]
          rfl
        rw [ShrinkingLoop.run_of_return hreturn]
        exact decides_false fun h ↦ heq h.1

theorem arrEq_decides (hcompare : ∀ a b, Decides (compare a b) (eq a b)) (hzero : size = 0 → ∀ a b, eq a b) :
    Decides (arrEq size compare lhs rhs) (List.Forall₂ eq lhs.elems rhs.elems) := by
  by_cases hlen : lhs.elems.length = rhs.elems.length
  · rw [arrEq, if_pos hlen]
    by_cases hsize : size = 0
    · subst hsize
      have hbody : (arrEqLoop 0 compare lhs rhs).body 0 = .ok (.inl true) := if_pos (atEnd_zero rhs)
      rw [ShrinkingLoop.run_of_return hbody]
      refine decides_true ((List.forall₂_iff_get).mpr ⟨hlen, fun _ _ _ ↦ hzero rfl _ _⟩)
    · exact arrEqLoop_decides hsize hcompare hlen 0 (Nat.zero_le _)
  · rw [arrEq, if_neg hlen]
    exact decides_false fun h ↦ hlen h.length_eq

/-- From any point on, the loop orders what is left. -/
theorem arrLtLoop_decides (hsize : size ≠ 0) (hlawful : Lawful eq lt) (hcompare : ∀ a b, Decides (compare a b) (lt a b))
    (k : ℕ) (hlhs : k ≤ lhs.elems.length) (hrhs : k ≤ rhs.elems.length) :
    Decides ((arrLtLoop size compare lhs rhs).run k) (Lex eq lt (lhs.elems.drop k) (rhs.elems.drop k)) := by
  induction k using ShrinkingLoop.induction (arrLtLoop size compare lhs rhs) with
  | h k ih =>
    by_cases hendr : k = rhs.elems.length
    · have hbody : (arrLtLoop size compare lhs rhs).body k = .ok (.inl false) := if_pos ((atEnd_iff hsize).mpr hendr)
      rw [ShrinkingLoop.run_of_return hbody]
      refine decides_false ?_
      rw [hendr, List.drop_length]
      exact not_lex_nil
    have hltr : k < rhs.elems.length := hrhs.lt_of_ne hendr
    have hnotEnd : ¬atEnd size rhs k := fun h ↦ hendr ((atEnd_iff hsize).mp h)
    by_cases hendl : k = lhs.elems.length
    · have hbody : (arrLtLoop size compare lhs rhs).body k = .ok (.inl true) :=
        (if_neg hnotEnd).trans (if_pos ((atEnd_iff hsize).mpr hendl))
      rw [ShrinkingLoop.run_of_return hbody]
      have hnil : lhs.elems.drop k = [] := List.drop_eq_nil_of_le (by omega)
      rw [List.drop_eq_getElem_cons hltr, hnil]
      exact decides_true .nil
    have hltl : k < lhs.elems.length := hlhs.lt_of_ne hendl
    have hbody : (arrLtLoop size compare lhs rhs).body k = compare lhs.elems[k] rhs.elems[k] >>= fun lt ↦
        if lt then .ok (.inl true)
        else (compare rhs.elems[k] lhs.elems[k]).map fun gt ↦ if gt then .inl false else .inr (k + 1) := by
      change arrLtBody size compare lhs rhs k = _
      rw [arrLtBody, if_neg hnotEnd, if_neg fun h ↦ hendl ((atEnd_iff hsize).mp h), load_of_lt hltl, load_of_lt hltr]
      rfl
    rw [List.drop_eq_getElem_cons hltl, List.drop_eq_getElem_cons hltr, lex_cons]
    rcases (hcompare lhs.elems[k] rhs.elems[k]).cases with ⟨hless, hlt⟩ | ⟨hless, hlt⟩
    · have hreturn : (arrLtLoop size compare lhs rhs).body k = .ok (.inl true) := by
        rw [hbody, hless]
        rfl
      rw [ShrinkingLoop.run_of_return hreturn]
      exact decides_true (.inl hlt)
    rcases (hcompare rhs.elems[k] lhs.elems[k]).cases with ⟨hgreater, hgt⟩ | ⟨hgreater, hgt⟩
    · have hreturn : (arrLtLoop size compare lhs rhs).body k = .ok (.inl false) := by
        rw [hbody, hless]
        change Except.map _ (compare rhs.elems[k] lhs.elems[k]) = _
        rw [hgreater]
        rfl
      rw [ShrinkingLoop.run_of_return hreturn]
      exact decides_false fun h ↦ h.elim hlt fun h ↦ hlawful.not_eq hgt (hlawful.symm h.1)
    · have hnext : (arrLtLoop size compare lhs rhs).Next k (k + 1) := by
        rw [ShrinkingLoop.Next, hbody, hless]
        change Except.map _ (compare rhs.elems[k] lhs.elems[k]) = _
        rw [hgreater]
        rfl
      have heq : eq lhs.elems[k] rhs.elems[k] := by
        rcases hlawful.total lhs.elems[k] rhs.elems[k] with h | h | h
        · exact absurd h hlt
        · exact h
        · exact absurd h hgt
      rw [ShrinkingLoop.run_of_next hnext]
      exact (ih (k + 1) hnext hltl hltr).congr ⟨fun h ↦ .inr ⟨heq, h⟩, fun h ↦ h.elim (absurd · hlt) And.right⟩

theorem arrLt_decides (hsize : size ≠ 0) (hlawful : Lawful eq lt) (hcompare : ∀ a b, Decides (compare a b) (lt a b)) :
    Decides (arrLt size compare lhs rhs) (Lex eq lt lhs.elems rhs.elems) :=
  arrLtLoop_decides hsize hlawful hcompare 0 (Nat.zero_le _) (Nat.zero_le _)

/-- Where the elements take no space, no array is less than another. -/
theorem arrLt_zero : arrLt 0 compare lhs rhs = .ok false :=
  ShrinkingLoop.run_of_return (if_pos (atEnd_zero rhs))

end

/-! ## Types without size -/

theorem le_alignTo (offset align : ℕ) : offset ≤ alignTo offset align := Nat.le_add_right _ _

theorem le_fieldsEnd : (offset : ℕ) → (fields : List (String × Ty)) → offset ≤ fieldsEnd offset fields
  | _, [] => le_rfl
  | offset, (_, type) :: fields =>
    calc offset ≤ alignTo offset (abiAlign type) := le_alignTo _ _
      _ ≤ alignTo offset (abiAlign type) + allocSize type := Nat.le_add_right _ _
      _ ≤ fieldsEnd (alignTo offset (abiAlign type) + allocSize type) fields := le_fieldsEnd _ fields

theorem btnBytes_ne_zero {value : BtnType} (h : comparable (.btn value) = true) : btnBytes value ≠ 0 := by
  cases value <;> first | decide | cases h

mutual

/-- A type without size has one value only. -/
theorem same_of_allocSize : (type : Ty) → comparable type = true → allocSize type = 0 → ∀ a b, Same type a b
  | .btn _, hcomparable, hsize => absurd hsize (btnBytes_ne_zero hcomparable)
  | .array _, _, hsize => nomatch hsize
  | .func _ _, _, hsize => nomatch hsize
  | .named _ _ _ type, hcomparable, hsize => same_of_allocSize type hcomparable hsize
  | .struct fields, hcomparable, hsize =>
    sameFields_of_end 0 fields hcomparable
      (Nat.le_zero.mp ((le_alignTo (fieldsEnd 0 fields) (fieldsAlign fields)).trans (le_of_eq hsize)))

theorem sameFields_of_end : (offset : ℕ) → (fields : List (String × Ty)) → comparableFields fields = true →
    fieldsEnd offset fields = 0 → ∀ a b, SameFields fields a b
  | _, [], _, _ => fun _ _ ↦ trivial
  | offset, (_, type) :: fields, hcomparable, hend => by
    have ⟨htype, hfields⟩ : comparable type = true ∧ comparableFields fields = true :=
      (Bool.and_eq_true _ _).mp hcomparable
    have hle := le_fieldsEnd (alignTo offset (abiAlign type) + allocSize type) fields
    have hzero : alignTo offset (abiAlign type) + allocSize type = 0 := Nat.le_zero.mp (hle.trans hend.le)
    intro a b
    constructor
    · exact same_of_allocSize type htype (Nat.eq_zero_of_add_eq_zero hzero).2 _ _
    · exact sameFields_of_end _ fields hfields hend _ _

end

/-! ## Every type -/

section

variable (foreign : Foreign)

theorem btnEq_decides {value : BtnType} (h : comparable (.btn value) = true) (a b : BitVec (btnWidth value)) :
    Decides (btnEq foreign value a b) (btnKey value a = btnKey value b) := by
  refine ⟨a == b, ?_, ?_⟩
  · cases value <;> first | rfl | cases h
  · rw [beq_iff_eq, btnKey, btnKey]
    split
    · exact BitVec.toInt_inj.symm
    · rw [Int.natCast_inj, BitVec.toNat_inj]

theorem classifyArith_of_comparable {value : BtnType} (h : comparable (.btn value) = true) :
    classifyArith value = some .signed_int ∨ classifyArith value = some .unsigned_int := by
  cases value <;> first | exact .inl rfl | exact .inr rfl | cases h

theorem btnLt_decides {value : BtnType} (h : comparable (.btn value) = true) (a b : BitVec (btnWidth value)) :
    Decides (btnLt foreign value a b) (btnKey value a < btnKey value b) := by
  rw [btnLt, btnKey, btnKey]
  rcases classifyArith_of_comparable h with hcat | hcat
  · rw [hcat, if_pos rfl, if_pos rfl]
    exact ⟨_, rfl, BitVec.slt_iff_toInt_lt⟩
  · rw [hcat, if_neg nofun, if_neg nofun, Int.ofNat_lt]
    exact ⟨_, rfl, BitVec.ult_iff_lt⟩

theorem srtEq_cons {name : String} {type : Ty} {fields : List (String × Ty)} (a b : Value type)
    (as bs : FieldValues fields) : srtEq foreign ((name, type) :: fields) (a, as) (b, bs) = (do
      let eq ← eq foreign type a b
      if eq then srtEq foreign fields as bs else .ok false) :=
  rfl

theorem srtLt_cons {name : String} {type : Ty} {fields : List (String × Ty)} (a b : Value type)
    (as bs : FieldValues fields) : srtLt foreign ((name, type) :: fields) (a, as) (b, bs) = (do
      let less ← lt foreign type a b
      if less then return true
      else do
        let greater ← lt foreign type b a
        if greater then return false else srtLt foreign fields as bs) :=
  rfl

theorem cloEq_decides (a b : ClosureVal) : Decides (cloEq a b) (a.fun_.toNat = b.fun_.toNat) :=
  ⟨_, rfl, beq_iff_eq.trans BitVec.toNat_inj.symm⟩

theorem cloLt_decides (a b : ClosureVal) : Decides (cloLt a b) (a.fun_.toNat < b.fun_.toNat) :=
  ⟨_, rfl, BitVec.ult_iff_lt⟩

mutual

theorem eq_decides : (type : Ty) → comparable type = true → ∀ a b, Decides (eq foreign type a b) (Same type a b)
  | .btn _, hcomparable => btnEq_decides foreign hcomparable
  | .array elem, hcomparable => fun _ _ ↦
    arrEq_decides (eq_decides elem hcomparable) (same_of_allocSize elem hcomparable)
  | .func _ _, _ => cloEq_decides
  | .named _ _ _ type, hcomparable => eq_decides type hcomparable
  | .struct fields, hcomparable => srtEq_decides fields hcomparable

theorem srtEq_decides : (fields : List (String × Ty)) → comparableFields fields = true →
    ∀ a b, Decides (srtEq foreign fields a b) (SameFields fields a b)
  | [], _ => fun _ _ ↦ decides_true trivial
  | (_, type) :: fields, hcomparable => by
    have ⟨htype, hfields⟩ : comparable type = true ∧ comparableFields fields = true :=
      (Bool.and_eq_true _ _).mp hcomparable
    rintro ⟨a, as⟩ ⟨b, bs⟩
    change Decides _ (Same type a b ∧ SameFields fields as bs)
    rw [srtEq_cons]
    rcases (eq_decides type htype a b).cases with ⟨hanswer, hsame⟩ | ⟨hanswer, hsame⟩
    · have hrest := srtEq_decides fields hfields as bs
      rw [hanswer, and_iff_right hsame]
      exact hrest
    · rw [hanswer]
      exact decides_false fun h ↦ hsame h.1

end

mutual

theorem lt_decides : (type : Ty) → comparable type = true → walkable type = true →
    ∀ a b, Decides (lt foreign type a b) (Less type a b)
  | .btn _, hcomparable, _ => btnLt_decides foreign hcomparable
  | .array elem, hcomparable, hwalkable => by
    have ⟨hsize, hwalkable⟩ : (allocSize elem != 0) = true ∧ walkable elem = true :=
      (Bool.and_eq_true _ _).mp hwalkable
    intro a b
    exact arrLt_decides (bne_iff_ne.mp hsize) (same_lawful elem) (lt_decides elem hcomparable hwalkable)
  | .func _ _, _, _ => cloLt_decides
  | .named _ _ _ type, hcomparable, hwalkable => lt_decides type hcomparable hwalkable
  | .struct fields, hcomparable, hwalkable => srtLt_decides fields hcomparable hwalkable

theorem srtLt_decides : (fields : List (String × Ty)) → comparableFields fields = true →
    walkableFields fields = true → ∀ a b, Decides (srtLt foreign fields a b) (LessFields fields a b)
  | [], _, _ => fun _ _ ↦ decides_false id
  | (_, type) :: fields, hcomparable, hwalkable => by
    have ⟨htype, hfields⟩ : comparable type = true ∧ comparableFields fields = true :=
      (Bool.and_eq_true _ _).mp hcomparable
    have ⟨hwalk, hwalks⟩ : walkable type = true ∧ walkableFields fields = true := (Bool.and_eq_true _ _).mp hwalkable
    rintro ⟨a, as⟩ ⟨b, bs⟩
    change Decides _ (Less type a b ∨ Same type a b ∧ LessFields fields as bs)
    rw [srtLt_cons]
    rcases (lt_decides type htype hwalk a b).cases with ⟨hanswer, hless⟩ | ⟨hanswer, hless⟩
    · rw [hanswer]
      exact decides_true (.inl hless)
    rcases (lt_decides type htype hwalk b a).cases with ⟨hanswer', hgreater⟩ | ⟨hanswer', hgreater⟩
    · rw [hanswer]
      change Decides (lt foreign type b a >>= _) _
      rw [hanswer']
      exact decides_false fun h ↦ h.elim hless fun ⟨hsame, _⟩ ↦
        (same_lawful type).not_eq hgreater ((same_lawful type).symm hsame)
    · have hsame : Same type a b := by
        rcases (same_lawful type).total a b with h | h | h
        · exact absurd h hless
        · exact h
        · exact absurd h hgreater
      have hrest := srtLt_decides fields hfields hwalks as bs
      rw [hanswer]
      change Decides (lt foreign type b a >>= _) _
      rw [hanswer']
      exact hrest.congr ⟨fun h ↦ .inr ⟨hsame, h⟩, fun h ↦ h.elim (absurd · hless) And.right⟩

end

end

/-! ## Types whose arrays are not walked -/

section

variable {α : Type} {size : ℕ} {compare : α → α → Except Stop Bool}

theorem arrLtLoop_self (hcompare : ∀ a, compare a a = .ok false) (arr : ArrayVal α) (k : ℕ)
    (hk : k ≤ arr.elems.length) : (arrLtLoop size compare arr arr).run k = .ok false := by
  induction k using ShrinkingLoop.induction (arrLtLoop size compare arr arr) with
  | h k ih =>
    by_cases hend : atEnd size arr k
    · exact ShrinkingLoop.run_of_return (if_pos hend)
    · have hlt : k < arr.elems.length := by
        refine hk.lt_of_ne fun h ↦ hend ?_
        rw [atEnd, h]
      have hnext : (arrLtLoop size compare arr arr).Next k (k + 1) := by
        change arrLtBody size compare arr arr k = .ok (.inr (k + 1))
        rw [arrLtBody, if_neg hend, if_neg hend, load_of_lt hlt]
        change (compare arr.elems[k] arr.elems[k] >>= _) = _
        rw [hcompare]
        rfl
      rw [ShrinkingLoop.run_of_next hnext]
      exact ih (k + 1) hnext hlt

/-- Arrays of one element are compared by it. -/
theorem arrEq_singleton (hsize : size ≠ 0) {a b : α} (h : compare a b = .ok false) :
    arrEq size compare ⟨0, [a]⟩ ⟨0, [b]⟩ = .ok false := by
  have hend : ¬atEnd size (⟨0, [b]⟩ : ArrayVal α) 0 := fun hend ↦ absurd ((atEnd_iff hsize).mp hend) nofun
  refine ShrinkingLoop.run_of_return (s := 0) ?_
  change arrEqBody size compare ⟨0, [a]⟩ ⟨0, [b]⟩ 0 = .ok (.inl false)
  rw [arrEqBody, if_neg hend]
  change (compare a b >>= _) = _
  rw [h]
  rfl

theorem arrLt_singleton (hsize : size ≠ 0) {a b : α} (hlt : compare a b = .ok false) (hgt : compare b a = .ok false) :
    arrLt size compare ⟨0, [a]⟩ ⟨0, [b]⟩ = .ok false := by
  have hend (c : α) : ¬atEnd size (⟨0, [c]⟩ : ArrayVal α) 0 := fun hend ↦ absurd ((atEnd_iff hsize).mp hend) nofun
  have hnext : (arrLtLoop size compare ⟨0, [a]⟩ ⟨0, [b]⟩).Next 0 1 := by
    change arrLtBody size compare ⟨0, [a]⟩ ⟨0, [b]⟩ 0 = .ok (.inr 1)
    rw [arrLtBody, if_neg (hend b), if_neg (hend a)]
    change (compare a b >>= _) = _
    rw [hlt]
    change (compare b a >>= _) = _
    rw [hgt]
    rfl
  rw [arrLt, ShrinkingLoop.run_of_next hnext]
  exact ShrinkingLoop.run_of_return (if_pos ((atEnd_iff hsize).mpr rfl))

end

mutual

def someValue : (type : Ty) → Value type
  | .btn value => BitVec.zero (btnWidth value)
  | .array _ => ArrayVal.mk 0 []
  | .func _ _ => ClosureVal.mk 0 0
  | .named _ _ _ type => someValue type
  | .struct fields => someFields fields
  | .user _ size _ _ => BitVec.zero (8 * size)
termination_by structural type => type

def someFields : (fields : List (String × Ty)) → FieldValues fields
  | [] => ()
  | (_, type) :: fields => (someValue type, someFields fields)
termination_by structural fields => fields

end

section

variable (foreign : Foreign)

mutual

theorem lt_self : (type : Ty) → comparable type = true → ∀ a, lt foreign type a a = .ok false
  | .btn _, hcomparable => fun a ↦
    (btnLt_decides foreign hcomparable a a).cases.elim (fun h ↦ absurd h.2 (lt_irrefl _)) And.left
  | .array elem, hcomparable => fun a ↦ arrLtLoop_self (lt_self elem hcomparable) a 0 (Nat.zero_le _)
  | .func _ _, _ => fun a ↦ (cloLt_decides a a).cases.elim (fun h ↦ absurd h.2 (lt_irrefl _)) And.left
  | .named _ _ _ type, hcomparable => lt_self type hcomparable
  | .struct fields, hcomparable => srtLt_self fields hcomparable

theorem srtLt_self : (fields : List (String × Ty)) → comparableFields fields = true →
    ∀ a, srtLt foreign fields a a = .ok false
  | [], _ => fun _ ↦ rfl
  | (_, type) :: fields, hcomparable => by
    have ⟨htype, hfields⟩ : comparable type = true ∧ comparableFields fields = true :=
      (Bool.and_eq_true _ _).mp hcomparable
    rintro ⟨a, as⟩
    rw [srtLt_cons, lt_self type htype a]
    exact srtLt_self fields hfields as

end

theorem eq_self (type : Ty) (h : comparable type = true) (a : Value type) : eq foreign type a a = .ok true :=
  (eq_decides foreign type h a a).iff.mpr ((same_lawful type).refl a)

/-- The values are neither equal, nor is one less than the other. -/
structure Incomparable (type : Ty) (a b : Value type) : Prop where
  not_eq : eq foreign type a b = .ok false
  not_lt : lt foreign type a b = .ok false
  not_gt : lt foreign type b a = .ok false

mutual

/-- Where the pointers stay on the spot, a longer array is not greater. -/
theorem exists_incomparable : (type : Ty) → comparable type = true → walkable type = false →
    ∃ a b, Incomparable foreign type a b
  | .array elem, hcomparable, hwalkable => by
    by_cases hsize : allocSize elem = 0
    · refine ⟨ArrayVal.mk 0 [], ArrayVal.mk 0 [someValue elem], rfl, ?_, ?_⟩
      · change arrLt (allocSize elem) _ _ _ = _
        rw [hsize]
        exact arrLt_zero
      · change arrLt (allocSize elem) _ _ _ = _
        rw [hsize]
        exact arrLt_zero
    · have helem : walkable elem = false := by
        change (allocSize elem != 0 && walkable elem) = false at hwalkable
        rwa [bne_iff_ne.mpr hsize, Bool.true_and] at hwalkable
      obtain ⟨a, b, hab⟩ := exists_incomparable elem hcomparable helem
      exact ⟨ArrayVal.mk 0 [a], ArrayVal.mk 0 [b], arrEq_singleton hsize hab.not_eq, arrLt_singleton hsize hab.not_lt hab.not_gt,
        arrLt_singleton hsize hab.not_gt hab.not_lt⟩
  | .named _ _ _ type, hcomparable, hwalkable =>
    have ⟨a, b, hab⟩ := exists_incomparable type hcomparable hwalkable
    ⟨a, b, hab.not_eq, hab.not_lt, hab.not_gt⟩
  | .struct fields, hcomparable, hwalkable =>
    have ⟨a, b, heq, hlt, hgt⟩ := exists_incomparableFields fields hcomparable hwalkable
    ⟨a, b, heq, hlt, hgt⟩

theorem exists_incomparableFields : (fields : List (String × Ty)) → comparableFields fields = true →
    walkableFields fields = false → ∃ a b, srtEq foreign fields a b = .ok false ∧
      srtLt foreign fields a b = .ok false ∧ srtLt foreign fields b a = .ok false
  | (_, type) :: fields, hcomparable, hwalkable => by
    have ⟨htype, hfields⟩ : comparable type = true ∧ comparableFields fields = true :=
      (Bool.and_eq_true _ _).mp hcomparable
    cases hwalk : walkable type with
    | false =>
      obtain ⟨a, b, hab⟩ := exists_incomparable type htype hwalk
      have hrest := srtLt_self foreign fields hfields (someFields fields)
      refine ⟨(a, someFields fields), (b, someFields fields), ?_, ?_, ?_⟩
      · rw [srtEq_cons, hab.not_eq]
        rfl
      · rw [srtLt_cons, hab.not_lt, hab.not_gt]
        exact hrest
      · rw [srtLt_cons, hab.not_gt, hab.not_lt]
        exact hrest
    | true =>
      have hwalks : walkableFields fields = false := by
        change (walkable type && walkableFields fields) = false at hwalkable
        rwa [hwalk, Bool.true_and] at hwalkable
      obtain ⟨a, b, heq, hlt, hgt⟩ := exists_incomparableFields fields hfields hwalks
      have hself := lt_self foreign type htype (someValue type)
      refine ⟨(someValue type, a), (someValue type, b), ?_, ?_, ?_⟩
      · rw [srtEq_cons, eq_self foreign type htype]
        exact heq
      · rw [srtLt_cons, hself]
        exact hlt
      · rw [srtLt_cons, hself]
        exact hgt

end

end

/-! ## Lawful comparisons -/

section

variable (foreign : Foreign)

/-- The comparisons of a type come to an answer; they are an equivalence and a strict total order with respect to it,
lexicographic for arrays and structs; and the derived comparisons follow them. -/
structure LawfulComparisons (type : Ty) : Prop where
  answers : ∀ a b, (∃ x, eq foreign type a b = .ok x) ∧ ∃ x, lt foreign type a b = .ok x
  lawful : Lawful (fun a b ↦ eq foreign type a b = .ok true) fun a b ↦ lt foreign type a b = .ok true
  exactlyOne : ∀ a b,
    lt foreign type a b = .ok true ∧ eq foreign type a b = .ok false ∧ lt foreign type b a = .ok false ∨
    lt foreign type a b = .ok false ∧ eq foreign type a b = .ok true ∧ lt foreign type b a = .ok false ∨
    lt foreign type a b = .ok false ∧ eq foreign type a b = .ok false ∧ lt foreign type b a = .ok true
  same : ∀ a b, eq foreign type a b = .ok true ↔ Same type a b
  lexicographic : ∀ a b, lt foreign type a b = .ok true ↔ Less type a b
  ne_iff : ∀ a b, ne foreign type a b = .ok true ↔ eq foreign type a b = .ok false
  gt_iff : ∀ a b, gt foreign type a b = .ok true ↔ lt foreign type b a = .ok true
  le_iff : ∀ a b, le foreign type a b = .ok true ↔ gt foreign type a b = .ok false
  ge_iff : ∀ a b, ge foreign type a b = .ok true ↔ lt foreign type a b = .ok false

variable {foreign}

theorem map_not_iff {r : Except Stop Bool} : r.map not = .ok true ↔ r = .ok false := by
  rcases r with _ | _ | _
  · exact iff_of_false nofun nofun
  · exact iff_of_true rfl rfl
  · exact iff_of_false nofun nofun

theorem Decides.eq_false_iff {r : Except Stop Bool} {p : Prop} (h : Decides r p) : r = .ok false ↔ ¬p := by
  rcases h.cases with ⟨rfl, hp⟩ | ⟨rfl, hp⟩
  · exact iff_of_false nofun (not_not_intro hp)
  · exact iff_of_true rfl hp

theorem LawfulComparisons.of_decides {type : Ty} (heq : ∀ a b, Decides (eq foreign type a b) (Same type a b))
    (hlt : ∀ a b, Decides (lt foreign type a b) (Less type a b)) : LawfulComparisons foreign type where
  answers a b := by
    obtain ⟨x, hx, -⟩ := heq a b
    obtain ⟨y, hy, -⟩ := hlt a b
    exact ⟨⟨x, hx⟩, y, hy⟩
  lawful := by
    have hsame : (fun a b ↦ eq foreign type a b = .ok true) = Same type := by
      funext a b
      exact propext (heq a b).iff
    have hless : (fun a b ↦ lt foreign type a b = .ok true) = Less type := by
      funext a b
      exact propext (hlt a b).iff
    rw [hsame, hless]
    exact same_lawful type
  exactlyOne a b := by
    rw [(heq a b).iff, (hlt a b).iff, (hlt b a).iff, (heq a b).eq_false_iff, (hlt a b).eq_false_iff,
      (hlt b a).eq_false_iff]
    exact (same_lawful type).trichotomy a b
  same a b := (heq a b).iff
  lexicographic a b := (hlt a b).iff
  ne_iff _ _ := map_not_iff
  gt_iff _ _ := Iff.rfl
  le_iff _ _ := map_not_iff
  ge_iff _ _ := map_not_iff

theorem Incomparable.not_lawful {type : Ty} {a b : Value type} (h : Incomparable foreign type a b) :
    ¬LawfulComparisons foreign type := by
  intro hlawful
  rcases hlawful.lawful.total a b with hlt | heq | hgt
  · cases h.not_lt.symm.trans hlt
  · cases h.not_eq.symm.trans heq
  · cases h.not_gt.symm.trans hgt

end

/-- The comparisons of a type are lawful just when the elements of every array in it take some space. -/
theorem lawfulComparisons_iff (foreign : Foreign) (type : Ty) (h : comparable type = true) :
    LawfulComparisons foreign type ↔ walkable type = true := by
  constructor
  · intro hlawful
    by_contra hwalkable
    obtain ⟨a, b, hab⟩ := exists_incomparable foreign type h (Bool.not_eq_true _ ▸ hwalkable)
    exact hab.not_lawful hlawful
  · intro hwalkable
    exact .of_decides (eq_decides foreign type h) (lt_decides foreign type h hwalkable)

/-- Floats that are compared by their bits. -/
def bitForeign : Foreign where
  fcmpOEQ := fun lhs rhs ↦ lhs == rhs
  fcmpOLT := fun lhs rhs ↦ lhs.ult rhs
  native := fun _ _ lhs rhs ↦ lhs == rhs

theorem lawfulComparisons_pairs :
    LawfulComparisons bitForeign (.array (.struct [("a", .btn .sint), ("b", .array (.func [] none))])) :=
  (lawfulComparisons_iff bitForeign _ rfl).mpr rfl

/-- The array `[]` of empty structs is neither equal to, nor less or greater than an array of one. -/
theorem not_lawfulComparisons :
    comparable (.array (.struct [])) = true ∧ ¬LawfulComparisons bitForeign (.array (.struct [])) := by
  refine ⟨rfl, Incomparable.not_lawful (a := ArrayVal.mk 0 []) (b := ArrayVal.mk 0 [()]) ?_⟩
  exact ⟨rfl, arrLt_zero, arrLt_zero⟩

end Stela.CodeGen.CompareExprs
