import Stela.CodeGen.Array
import Stela.CodeGen.ClosureSafety

/-!
# Operations on handles

What the operations on arrays and closures ask of their operands, and what they do. An operation touches
freed memory just when it releases the last owner of the block that one of its operands is stored in. The
types exclude that for arrays without closures: their blocks only hold handles of smaller types, so what a
handle points to never leads back to it.
-/

namespace Stela.CodeGen.Array

open Stela.Library.Regions Stela.Library.RefCount
open Stela.CodeGen.Pointer Stela.CodeGen.Closure

variable {m m' : Heap}

/-- What the object owns has been constructed: no slot of a block that it leads to is empty. -/
def Constructed (m : Heap) (obj : Loc) : Prop := ∀ b, Reaches m (pointer m obj) b → Complete m b

/-- What the operations ask of their operands: constructors write to fresh storage, the operands
have the same type, a moving assignment has two of them, and an array that may be destroyed has
been filled with elements. -/
def Allowed (m : Heap) : Op → Prop
  | .declare _ => True
  | .defConstruct obj => ∃ shape, Fresh m obj shape
  | .lenConstruct obj _ => ∃ elems, Fresh m obj (.array elems)
  | .funConstruct obj _ => Fresh m obj .closure
  | .lambda obj _ caps => Fresh m obj .closure ∧ ∀ cap ∈ caps, Live m cap.1 cap.2
  | .copyConstruct dst src | .moveConstruct dst src => ∃ shape, Fresh m dst shape ∧ Live m src shape
  | .copyAssign dst src => ∃ shape, Live m dst shape ∧ Live m src shape ∧ Constructed m dst
  | .moveAssign dst src => dst ≠ src ∧ ∃ shape, Live m dst shape ∧ Live m src shape ∧ Constructed m dst
  | .destroy obj => ∃ shape, Live m obj shape ∧ Constructed m obj

/-- If closures are involved, the block that a place is in keeps an owner when the object is released. -/
def Keeps (m : Heap) (obj : Loc) (pinned : List (Option ℕ)) (l : Loc) : Prop :=
  ∀ s, slot? m obj = some s → s.type.plain = false → Backed m (· = obj) pinned l.region

/-- The operation leaves the blocks that its operands are stored in with an owner. A copying
assignment has counted the pointer of the source before it releases the destination. -/
def Outlives (m : Heap) : Op → Prop
  | .copyAssign dst src => Keeps m dst [pointer m src] dst
  | .moveAssign dst src => Keeps m dst [] dst ∧ Keeps m dst [] src
  | .destroy obj => Keeps m obj [] obj
  | _ => True

/-! ## What an operation does -/

/-- A live handle, and what it points to. -/
def Handle (m : Heap) (l : Loc) (elems : List Shape) (p : Option ℕ) : Prop :=
  ∃ v, slot? m l = some ⟨.array elems, some v⟩ ∧ v.dat = p

/-- The handle points to a new block, which has the count 1 and these slots. -/
def Allocates (m m' : Heap) (obj : Loc) (elems : List Shape) (slots : List (Slot Shape Clo)) : Prop :=
  Handle m' obj elems (some m.length) ∧ region? m' m.length = some ⟨.array elems, some 1, slots⟩

/-- What the operation does to handles. -/
def Does (m m' : Heap) : Op → Prop
  | .defConstruct obj => ∀ elems, Fresh m obj (.array elems) → Allocates m m' obj elems []
  | .lenConstruct obj len => ∀ elems, Fresh m obj (.array elems) → Allocates m m' obj elems (elements elems len)
  | .copyConstruct dst src | .copyAssign dst src => ∀ elems p, Handle m src elems p → Handle m' dst elems p
  | .moveConstruct dst src | .moveAssign dst src =>
      ∀ elems p, Handle m src elems p → Handle m' dst elems p ∧ Handle m' src elems none
  | .destroy obj => ∀ elems, Live m obj (.array elems) → Fresh m' obj (.array elems)
  | .declare _ | .funConstruct _ _ | .lambda _ _ _ => True

/-- The places that an operation writes to. -/
def Op.written : Op → List Loc
  | .declare _ => []
  | .defConstruct obj | .lenConstruct obj _ | .funConstruct obj _ | .lambda obj _ _ | .destroy obj => [obj]
  | .copyConstruct dst _ | .copyAssign dst _ => [dst]
  | .moveConstruct dst src | .moveAssign dst src => [dst, src]

/-- The object that an operation releases. -/
def Op.released : Op → Loc → Prop
  | .copyAssign dst _ | .moveAssign dst _ | .destroy dst => (· = dst)
  | _ => fun _ ↦ False

/-- What an operation has counted before it releases an object. -/
def pinned (m : Heap) : Op → List (Option ℕ)
  | .copyAssign _ src => [pointer m src]
  | _ => []

/-- The operation has its effect, frees just the blocks that it takes the last owner from, and leaves all
other objects. -/
structure Performed (m m' : Heap) (op : Op) : Prop where
  does : Does m m' op
  frees : ∀ b, IsBlock m b → (IsBlock m' b ↔ Backed m op.released (pinned m op) b)
  frame : ∀ l s, slot? m l = some s → l ∉ op.written → Backed m op.released (pinned m op) l.region → slot? m' l = some s

/-! ## Types -/

/-- Objects point to blocks of their type, and blocks of an array hold what is in its elements. -/
structure Typed (m : Heap) : Prop where
  target : ∀ l s a, slot? m l = some s → s.obj.bind ptr = some a → ∃ r, region? m a = some r ∧ r.type = s.type
  nested : ∀ a r, region? m a = some r → r.count.isSome → ∀ elems, r.type = .array elems → ∀ s ∈ r.slots, s.type ∈ elems

theorem plain_of_mem {elems : List Shape} (h : plainShapes elems = true) {elem : Shape} (helem : elem ∈ elems) :
    elem.plain = true := by
  induction elems with
  | nil => cases helem
  | cons shape rest ih =>
    rw [plainShapes, Bool.and_eq_true] at h
    obtain rfl | hmem := List.mem_cons.mp helem
    · exact h.1
    · exact ih h.2 hmem

/-- In a plain array, following handles from a block leads to plain blocks that are not larger. -/
theorem Typed.size_le (h : Typed m) (hexact : Intact m []) {a b : ℕ} {r : Region Shape Clo} (hr : region? m a = some r)
    (hcount : r.count.isSome) (hplain : r.type.plain = true) (hreach : Relation.ReflTransGen (Edge m) a b) :
    ∃ r', region? m b = some r' ∧ r'.count.isSome ∧ r'.type.plain = true ∧ sizeOf r'.type ≤ sizeOf r.type := by
  induction hreach with
  | refl => exact ⟨r, hr, hcount, hplain, Nat.le_refl _⟩
  | tail _ hedge ih =>
    obtain ⟨r₁, hr₁, hcount₁, hplain₁, hle⟩ := ih
    obtain ⟨i, s, hs, hptr⟩ := hedge
    obtain ⟨r₂, hr₂, htype⟩ := h.target _ s _ hs hptr
    obtain ⟨r₁', hr₁', hindex⟩ := slot?_eq_some.mp hs
    cases hr₁.symm.trans hr₁'
    cases helems : r₁.type with
    | closure => simp [helems, Shape.plain] at hplain₁
    | array elems =>
      have helem := h.nested _ r₁ hr₁ hcount₁ elems helems s (List.mem_of_getElem? hindex)
      have hlt := List.sizeOf_lt_of_mem helem
      rw [helems, Shape.plain] at hplain₁
      rw [helems, Shape.array.sizeOf_spec] at hle
      obtain ⟨n, hn⟩ := hexact.isBlock_of_slot hs hptr
      obtain ⟨r₂', hr₂', hn'⟩ := count?_eq_some.mp hn
      cases hr₂.symm.trans hr₂'
      refine ⟨r₂, hr₂, by rw [hn']; rfl, ?_, by rw [htype]; omega⟩
      rw [htype]
      exact plain_of_mem hplain₁ helem

/-- A handle to a plain array is never inside what a handle of the same type points to. -/
theorem Typed.not_reaches (h : Typed m) (hexact : Intact m []) {l k : Loc} {s d : Slot Shape Clo}
    (hs : slot? m l = some s) (hd : slot? m k = some d) (htype : s.type = d.type) (hplain : d.type.plain = true) :
    ¬Reaches m (d.obj.bind ptr) l.region := by
  rintro ⟨a, ha, hreach⟩
  obtain ⟨r, hr, hrtype⟩ := h.target k d a hd ha
  obtain ⟨n, hn⟩ := hexact.isBlock_of_slot hd ha
  obtain ⟨r', hr', hn'⟩ := count?_eq_some.mp hn
  cases hr.symm.trans hr'
  obtain ⟨r₁, hr₁, hcount₁, hplain₁, hle⟩ := h.size_le hexact hr (by rw [hn']; rfl) (hrtype ▸ hplain) hreach
  obtain ⟨r₁', hr₁', hindex⟩ := slot?_eq_some.mp hs
  cases hr₁.symm.trans hr₁'
  cases helems : r₁.type with
  | closure => simp [helems, Shape.plain] at hplain₁
  | array elems =>
    have helem := h.nested _ r₁ hr₁ hcount₁ elems helems s (List.mem_of_getElem? hindex)
    have hlt := List.sizeOf_lt_of_mem helem
    rw [helems, Shape.array.sizeOf_spec, hrtype, ← htype] at hle
    omega

/-- An operation keeps the types when it writes null or a pointer to a block of the right type. -/
theorem Typed.result (h : Typed m) {written : List (Loc × Option Clo)} {freed : ℕ → Prop} (hexact : Intact m' [])
    (hchanged : Changed m m' written freed)
    (hwritten : ∀ w ∈ written, ∀ a, w.2.bind ptr = some a → ∃ d r, slot? m w.1 = some d ∧ region? m a = some r ∧
      r.type = d.type) : Typed m' := by
  have hold (l : Loc) (s : Slot Shape Clo) (a : ℕ) (hs : slot? m' l = some s) (ha : s.obj.bind ptr = some a) :
      ∃ r, region? m a = some r ∧ r.type = s.type := by
    by_cases hw : ∃ w ∈ written, w.1 = l
    · obtain ⟨w, hw, rfl⟩ := hw
      obtain ⟨d, hd, hd'⟩ := hchanged.results w hw
      cases hs.symm.trans hd'
      obtain ⟨d', r, hd'', hr, htype⟩ := hwritten w hw a ha
      cases hd.symm.trans hd''
      exact ⟨r, hr, htype⟩
    · exact h.target l s a (hchanged.others l s (fun w hmem heq ↦ hw ⟨w, hmem, heq⟩) hs) ha
  constructor
  · intro l s a hs ha
    obtain ⟨r, hr, htype⟩ := hold l s a hs ha
    obtain ⟨n, hn⟩ := hexact.isBlock_of_slot hs ha
    obtain ⟨r', hr', -⟩ := count?_eq_some.mp hn
    obtain ⟨r₁, hr₁, htype₁, -⟩ := hchanged.regions a r' hr'
    cases hr.symm.trans hr₁
    exact ⟨r', hr', htype₁.trans htype⟩
  · intro a r' hr' hcount elems helems s hs
    obtain ⟨r, hr, htype, hcount', htypes⟩ := hchanged.regions a r' hr'
    obtain ⟨s', hs', heq⟩ : ∃ s' ∈ r.slots, s'.type = s.type := by
      have hmem : s.type ∈ r'.slots.map Slot.type := List.mem_map_of_mem hs
      rwa [htypes, List.mem_map] at hmem
    rw [← heq]
    exact h.nested a r hr (hcount' ▸ hcount) elems (htype.symm.trans helems) s' hs'

theorem Typed.alloc (h : Typed m) {r : Region Shape Clo} (hempty : ∀ s ∈ r.slots, s.obj = none)
    (hnested : r.count.isSome → ∀ elems, r.type = .array elems → ∀ s ∈ r.slots, s.type ∈ elems) : Typed (alloc m r) := by
  constructor
  · intro l s a hs ha
    rw [slot?_alloc] at hs
    split_ifs at hs with hnew
    · simp [hempty s (List.mem_of_getElem? hs)] at ha
    · obtain ⟨r', hr', htype⟩ := h.target l s a hs ha
      have hlt := region?_lt hr'
      exact ⟨r', by rw [region?_alloc, if_neg (by omega), hr'], htype⟩
  · intro a r' hr' hcount elems helems s hs
    rw [region?_alloc] at hr'
    split_ifs at hr' with hnew
    · cases hr'
      exact hnested hcount elems helems s hs
    · exact h.nested a r' hr' hcount elems helems s hs

theorem mem_elements {elems : List Shape} {len : ℕ} {s : Slot Shape Clo} (h : s ∈ elements elems len) :
    s.obj = none ∧ s.type ∈ elems := by
  simp only [elements, List.mem_flatten, List.mem_replicate] at h
  obtain ⟨slots, ⟨-, rfl⟩, hs⟩ := h
  obtain ⟨elem, helem, rfl⟩ := List.mem_map.mp hs
  exact ⟨rfl, helem⟩

/-- The invariant of the memory. -/
structure Inv (m : Heap) : Prop where
  intact : Intact m []
  typed : Typed m

/-! ## What the operations write -/

/-- A function succeeds just under a condition; then, compared to a memory that may have one more block
than the one it is applied to, it has written these objects and freed these blocks. -/
structure Executes (f : Heap → Except Fault Heap) (m m₀ : Heap) (cond : Prop) (written : List (Loc × Option Clo))
    (freed : ℕ → Prop) : Prop where
  ok_iff : (∃ m', f m = .ok m') ↔ cond
  changed : ∀ m', f m = .ok m' → Intact m' [] ∧ Changed m₀ m' written freed

theorem Executes.of_changed {f : Heap → Except Fault Heap} {m₀ : Heap} {cond : Prop} {written : List (Loc × Option Clo)}
    {freed : ℕ → Prop} (hok : (∃ m', f m = .ok m') → cond)
    (hchanged : cond → ∃ m', f m = .ok m' ∧ Intact m' [] ∧ Changed m₀ m' written freed) :
    Executes f m m₀ cond written freed := by
  refine ⟨⟨hok, fun hcond ↦ (hchanged hcond).imp fun _ ↦ And.left⟩, fun m' hm' ↦ ?_⟩
  obtain ⟨m'', hm'', hrest⟩ := hchanged (hok ⟨m', hm'⟩)
  cases hm'.symm.trans hm''
  exact hrest

section Executions

variable {shape : Shape} {obj dst src : Loc} {u v : Clo}

theorem alloc_executes (h : Intact m []) {elems : List Shape} (hobj : Fresh m obj (.array elems))
    {slots : List (Slot Shape Clo)} (hslots : ∀ s ∈ slots, s.obj = none) :
    Executes (fun m ↦ store (alloc m ⟨.array elems, some 1, slots⟩) obj ⟨.stub, some m.length⟩) m
      (alloc m ⟨.array elems, some 1, slots⟩) True [(obj, some ⟨.stub, some m.length⟩)] fun _ ↦ False := by
  refine .of_changed (fun _ ↦ trivial) fun _ ↦ ?_
  obtain ⟨r, hr, -⟩ := slot?_eq_some.mp hobj
  have hobj' : slot? (alloc m ⟨.array elems, some 1, slots⟩) obj = some ⟨.array elems, none⟩ := by
    rw [slot?_alloc, if_neg (Nat.ne_of_lt (region?_lt hr))]
    exact hobj
  have hpending : Intact m (slots.map (fun s ↦ s.obj.bind ptr) ++ []) := by
    refine h.append_none fun p hp ↦ ?_
    obtain ⟨s, hs, rfl⟩ := List.mem_map.mp hp
    rw [hslots s hs]
    rfl
  have halloc : Intact (alloc m ⟨.array elems, some 1, slots⟩) [some m.length] := Counted.alloc rfl hpending
  exact ⟨_, store_changed (v := ⟨.stub, some m.length⟩) halloc hobj' rfl⟩

theorem cloFunCtor_executes (h : Intact m []) (fn : Fun) (hobj : Fresh m obj .closure) :
    Executes (cloFunCtor obj fn) m m True [(obj, some ⟨fn, none⟩)] fun _ ↦ False := by
  have hnull : Intact m [ptr (⟨fn, none⟩ : Clo)] := h.cons_none
  have hchanged := store_changed hnull hobj rfl
  exact .of_changed (fun _ ↦ trivial) fun _ ↦ ⟨_, hchanged⟩

theorem copyConstruct_executes (h : Intact m []) (hdst : Fresh m dst shape) (hsrc : slot? m src = some ⟨shape, some v⟩) :
    Executes (copyConstruct shape dst src) m m True [(dst, some v)] fun _ ↦ False := by
  have hchanged := ptrCopCtor_changed h hdst rfl hsrc rfl
  cases shape with
  | array elems => exact .of_changed (fun _ ↦ trivial) fun _ ↦ hchanged
  | closure => exact .of_changed (fun _ ↦ trivial) fun _ ↦ hchanged

theorem moveConstruct_executes (h : Intact m []) (hdst : Fresh m dst shape) (hsrc : slot? m src = some ⟨shape, some v⟩) :
    Executes (moveConstruct shape dst src) m m True [(dst, some v), (src, some (setPtr v none))] fun _ ↦ False := by
  have hchanged := ptrMovCtor_changed h hdst rfl hsrc rfl
  cases shape with
  | array elems => exact .of_changed (fun _ ↦ trivial) fun _ ↦ hchanged
  | closure => exact .of_changed (fun _ ↦ trivial) fun _ ↦ hchanged

theorem copyAssign_executes (h : Intact m []) (hdst : slot? m dst = some ⟨shape, some u⟩)
    (hsrc : slot? m src = some ⟨shape, some v⟩) :
    ∃ w, Executes (copyAssign shape dst src) m m (Releasable m dst [v.dat]) [(dst, some w)] (Dies m dst [v.dat]) ∧
      (w.dat = v.dat ∨ w.dat = none) ∧ ∀ elems, shape = .array elems → w.dat = v.dat := by
  cases shape with
  | array elems =>
    refine ⟨setPtr u (ptr v), .of_changed (ptrCopAsgn_ok_iff h hdst rfl hsrc rfl).mp fun hl ↦ ?_, .inl rfl, fun _ _ ↦ rfl⟩
    exact ptrCopAsgn_changed h hdst rfl hsrc rfl hl
  | closure =>
    refine ⟨assigned u v, .of_changed (cloCopAsgn_ok_iff h hdst rfl hsrc rfl).mp fun hl ↦ ?_, ?_, nofun⟩
    · exact cloCopAsgn_changed h hdst rfl hsrc rfl hl
    · by_cases hdat : u.dat.isSome
      · exact .inl (if_pos hdat)
      · exact .inr (if_neg hdat)

theorem moveAssign_executes (h : Intact m []) (hne : dst ≠ src) (hdst : slot? m dst = some ⟨shape, some u⟩)
    (hsrc : slot? m src = some ⟨shape, some v⟩) :
    ∃ w x, Executes (moveAssign shape dst src) m m (Releasable m dst [] ∧ ¬Dies m dst [] src.region)
        [(dst, some w), (src, some x)] (Dies m dst []) ∧
      (w.dat = v.dat ∨ w.dat = none) ∧ (x.dat = v.dat ∨ x.dat = none) ∧
      ∀ elems, shape = .array elems → w.dat = v.dat ∧ x.dat = none := by
  cases shape with
  | array elems =>
    refine ⟨setPtr u (ptr v), setPtr v none, .of_changed (ptrMovAsgn_ok_iff h hne hdst rfl hsrc rfl).mp fun hl ↦ ?_,
      .inl rfl, .inr rfl, fun _ _ ↦ ⟨rfl, rfl⟩⟩
    exact ptrMovAsgn_changed h hne hdst rfl hsrc rfl hl.1 hl.2
  | closure =>
    refine ⟨assigned u v, moved u v, .of_changed (cloMovAsgn_ok_iff h hne hdst rfl hsrc rfl).mp fun hl ↦ ?_, ?_, ?_, nofun⟩
    · exact cloMovAsgn_changed h hne hdst rfl hsrc rfl hl.1 hl.2
    · by_cases hdat : u.dat.isSome
      · exact .inl (if_pos hdat)
      · exact .inr (if_neg hdat)
    · by_cases hdat : u.dat.isSome
      · exact .inr (congrArg Clo.dat (if_pos hdat))
      · exact .inl (congrArg Clo.dat (if_neg hdat))

theorem destroy_executes (h : Intact m []) (hobj : slot? m obj = some ⟨shape, some v⟩) :
    Executes (destroy shape obj) m m (Releasable m obj []) [(obj, none)] (Dies m obj []) := by
  cases shape with
  | array elems => exact .of_changed (ptrDtor_ok_iff h hobj rfl).mp (ptrDtor_changed h hobj rfl)
  | closure => exact .of_changed (cloDtor_ok_iff h hobj rfl).mp (cloDtor_changed h hobj rfl)

end Executions

/-! ## What keeps an operand alive -/

/-- Of the places that hold an object of the same type, only those with closures involved can be lost with it. -/
theorem Inv.keeps_iff (h : Inv m) {obj l : Loc} {d s : Slot Shape Clo} (hobj : slot? m obj = some d)
    (hs : slot? m l = some s) (htype : s.type = d.type) (pinned : List (Option ℕ)) :
    ¬Dies m obj pinned l.region ↔ Keeps m obj pinned l := by
  constructor
  · intro hstays _ _ _
    exact not_dies_iff.mp hstays
  · intro hkeeps hdies
    cases hplain : d.type.plain with
    | true => exact h.typed.not_reaches h.intact hs hobj htype hplain (hdies.reaches h.intact (List.nil_subset _) hobj)
    | false => exact not_dies_iff.mpr (hkeeps d hobj hplain) hdies

theorem Inv.releasable_iff (h : Inv m) {obj : Loc} {d : Slot Shape Clo} (hobj : slot? m obj = some d)
    (hconstructed : Constructed m obj) (pinned : List (Option ℕ)) : Releasable m obj pinned ↔ Keeps m obj pinned obj := by
  rw [← h.keeps_iff hobj hobj rfl]
  refine ⟨Releasable.outlives, fun hstays ↦ ⟨fun b hb ↦ hconstructed b ?_, hstays⟩⟩
  rw [pointer, hobj]
  exact hb.reaches h.intact (List.nil_subset _) hobj

end Stela.CodeGen.Array
