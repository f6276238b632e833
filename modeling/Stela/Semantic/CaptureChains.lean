import Mathlib.Data.List.Nodup
import Stela.CodeGen.ClosureData

/-!
# Capture chains

Every capture index leads, through the capture lists of the enclosing lambdas, to the object that
the identifier refers to. The chains are kept while the lists are still growing: lists only grow at
their end, a new entry is pushed after the entry it points to, and both name the same object.
-/

namespace Stela.Semantic.CaptureChains

open Stela.Syntax Stela.Semantic.Scopes Stela.CodeGen.ClosureData
open Stela.Library.Machine

variable {outer outer' home home' : ℕ → Owner} {captures captures' : Captures}

theorem getElem?_prefix_mono {caps caps' : List ClosureCap} (h : caps <+: caps') {c : ℕ} {cap : ClosureCap}
    (hcap : caps[c]? = some cap) : caps'[c]? = some cap := by
  obtain ⟨hlt, rfl⟩ := List.getElem?_eq_some_iff.mp hcap
  exact List.prefix_iff_getElem?.mp h c hlt

/-- Following the indices from capture `c` of a lambda stays in bounds, meets the object at every
entry, and ends at an entry without index in a lambda that stands directly in the function or lambda
which the object is a local or parameter of. -/
inductive Resolves (outer home : ℕ → Owner) (captures : Captures) (node : ℕ) : ℕ → ℕ → Prop where
  | here {lam c cap} : (captures lam)[c]? = some cap → cap.object = node → cap.index = none →
      home node = outer lam → outer lam ≠ .global → Resolves outer home captures node lam c
  | outward {lam c cap parent c'} : (captures lam)[c]? = some cap → cap.object = node →
      cap.index = some c' → outer lam = .lambda parent →
        Resolves outer home captures node parent c' → Resolves outer home captures node lam c

theorem Resolves.entry {node lam c : ℕ} (h : Resolves outer home captures node lam c) :
    ∃ cap, (captures lam)[c]? = some cap ∧ cap.object = node := by
  cases h with
  | here hcap hobject => exact ⟨_, hcap, hobject⟩
  | outward hcap hobject => exact ⟨_, hcap, hobject⟩

/-- Chains survive when the lists grow and nothing changes for lambdas that have captures. -/
theorem Resolves.mono {node lam c : ℕ} (h : Resolves outer home captures node lam c)
    (hcaptures : ∀ lam, captures lam <+: captures' lam)
    (houter : ∀ lam, captures lam ≠ [] → outer' lam = outer lam) (hhome : home' node = home node) :
    Resolves outer' home' captures' node lam c := by
  have hkeep {lam c : ℕ} {cap : ClosureCap} (hcap : (captures lam)[c]? = some cap) :
      (captures' lam)[c]? = some cap ∧ outer' lam = outer lam := by
    have hlt : c < (captures lam).length := (List.getElem?_eq_some_iff.mp hcap).1
    have hne : captures lam ≠ [] := List.ne_nil_of_length_pos (Nat.zero_lt_of_lt hlt)
    exact ⟨getElem?_prefix_mono (hcaptures lam) hcap, houter lam hne⟩
  induction h with
  | here hcap hobject hindex hlocal hglobal =>
    obtain ⟨hcap', houter'⟩ := hkeep hcap
    exact .here hcap' hobject hindex (by rw [hhome, houter', hlocal]) (houter' ▸ hglobal)
  | outward hcap hobject hindex hparent _ ih =>
    obtain ⟨hcap', houter'⟩ := hkeep hcap
    exact .outward hcap' hobject hindex (houter'.trans hparent) ih

/-! ## Scopes -/

/-- The lambda of the nearest closure scope. -/
def nearest (scopes : List Scope) : Option ℕ :=
  (findNearest .closure scopes).map Scope.symbol

/-- Functions stand at global scope, statements in functions and lambdas, and `outer` tells what
encloses a lambda. -/
def WellScoped (outer : ℕ → Owner) : List Scope → Prop
  | [] => True
  | scope :: parents =>
      (match scope.type with
        | .ns => ∀ parent ∈ parents, parent.type = .ns
        | .func => isNamespace parents = true
        | .closure => outer scope.symbol = owner parents
        | .block | .flow => owner parents ≠ .global) ∧ WellScoped outer parents

theorem WellScoped.suffix {scopes scopes' : List Scope} (h : WellScoped outer scopes)
    (hsuffix : scopes' <:+ scopes) : WellScoped outer scopes' := by
  induction scopes with
  | nil => rwa [List.suffix_nil.mp hsuffix]
  | cons scope parents ih =>
    obtain rfl | hsuffix := List.suffix_cons_iff.mp hsuffix
    · exact h
    · exact ih h.2 hsuffix

theorem WellScoped.namespace_all {scopes : List Scope} (h : WellScoped outer scopes)
    (hns : isNamespace scopes = true) : ∀ scope ∈ scopes, scope.type = .ns := by
  cases scopes with
  | nil => nofun
  | cons scope parents =>
    have htype : scope.type = .ns := by simpa [isNamespace] using hns
    have hparents := h.1
    simp only [htype] at hparents
    intro scope' hmem
    obtain rfl | hmem := List.mem_cons.mp hmem
    · exact htype
    · exact hparents scope' hmem

theorem findNearest_eq_none {type : ScopeType} {scopes : List Scope} :
    findNearest type scopes = none ↔ ∀ scope ∈ scopes, scope.type ≠ type := by
  induction scopes with
  | nil => simp [findNearest]
  | cons scope parents ih =>
    by_cases h : scope.type = type
    · simp [findNearest, h]
    · simp [findNearest, h, ih]

theorem owner_eq_global {scopes : List Scope} (h : isNamespace scopes = true) : owner scopes = .global := by
  cases scopes with
  | nil => rfl
  | cons scope parents =>
    have htype : scope.type = .ns := by simpa [isNamespace] using h
    simp [owner, htype]

theorem WellScoped.owner_ne_global {scopes : List Scope} (h : WellScoped outer scopes) (hne : scopes ≠ [])
    (hns : isNamespace scopes = false) : owner scopes ≠ .global := by
  cases scopes with
  | nil => exact absurd rfl hne
  | cons scope parents =>
    have hscope := h.1
    cases htype : scope.type <;> simp_all [owner, isNamespace]

/-- What belongs to a lambda is exactly what a closure scope is nearest to. -/
theorem WellScoped.nearest_eq_some {scopes : List Scope} (h : WellScoped outer scopes) {lam : ℕ} :
    nearest scopes = some lam ↔ owner scopes = .lambda lam := by
  induction scopes with
  | nil => simp [nearest, findNearest, owner]
  | cons scope parents ih =>
    have hscope := h.1
    have ih := ih h.2
    have hglobal (hall : ∀ parent ∈ parents, parent.type = .ns) : nearest parents = none := by
      rw [nearest, findNearest_eq_none.mpr (fun parent hmem ↦ by rw [hall parent hmem]; simp)]
      rfl
    unfold nearest at ih hglobal ⊢
    cases htype : scope.type with
    | ns =>
      simp only [htype] at hscope
      simp [findNearest, owner, htype, hglobal hscope]
    | func =>
      simp only [htype] at hscope
      simp [findNearest, owner, htype, hglobal (h.2.namespace_all hscope)]
    | closure => simp [findNearest, owner, htype]
    | block | flow => simpa [findNearest, owner, htype] using ih

/-- Outside of lambdas, the scopes inside a function belong to it. -/
theorem WellScoped.owner_eq_func {scopes scope : List Scope} (h : WellScoped outer scopes)
    (hsuffix : scope <:+ scopes) (hnearest : nearest scopes = none) {f : ℕ}
    (hfunc : owner scope = .func f) : owner scopes = .func f := by
  induction scopes with
  | nil => rwa [← List.suffix_nil.mp hsuffix]
  | cons s parents ih =>
    obtain rfl | hsuffix := List.suffix_cons_iff.mp hsuffix
    · exact hfunc
    have hnamespace (hns : ∀ parent ∈ parents, parent.type = .ns) : owner scope = .global := by
      cases scope with
      | nil => rfl
      | cons s' _ =>
        have htype := hns s' (hsuffix.subset List.mem_cons_self)
        simp [owner, htype]
    have hs := h.1
    cases htype : s.type with
    | ns =>
      simp only [htype] at hs
      simp [hnamespace hs] at hfunc
    | func =>
      simp only [htype] at hs
      simp [hnamespace (h.2.namespace_all hs)] at hfunc
    | closure => simp [nearest, findNearest, htype] at hnearest
    | block | flow =>
      have hparents : nearest parents = none := by simpa [nearest, findNearest, htype] using hnearest
      simpa [owner, htype] using ih h.2 hsuffix hparents

/-- A scope and one of its ancestors with the same nearest closure belong to the same owner. -/
theorem WellScoped.owner_eq {scopes scope : List Scope} (h : WellScoped outer scopes)
    (hsuffix : scope <:+ scopes) (hne : scope ≠ []) (hns : isNamespace scope = false)
    (hnearest : nearest scope = nearest scopes) : owner scopes = owner scope := by
  cases hlam : nearest scopes with
  | some lam =>
    have hscope := (h.suffix hsuffix).nearest_eq_some.mp (hnearest.trans hlam)
    rw [hscope, h.nearest_eq_some.mp hlam]
  | none =>
    have hglobal := (h.suffix hsuffix).owner_ne_global hne hns
    cases howner : owner scope with
    | global => exact absurd howner hglobal
    | func f => exact h.owner_eq_func hsuffix hlam howner
    | lambda lam =>
      have hscope := (h.suffix hsuffix).nearest_eq_some.mpr howner
      simp [hnearest, hlam] at hscope

/-! ## Capturing an object -/

/-- Every entry of every list starts a chain, and no list has an object twice. -/
structure Sound (outer home : ℕ → Owner) (captures : Captures) : Prop where
  resolves : ∀ lam c cap, (captures lam)[c]? = some cap → Resolves outer home captures cap.object lam c
  once : ∀ lam, ((captures lam).map ClosureCap.object).Nodup

theorem findCapture_eq_some {node c : ℕ} {caps : List ClosureCap} (h : findCapture node caps = some c) :
    ∃ cap, caps[c]? = some cap ∧ cap.object = node := by
  obtain ⟨hlt, hobject, -⟩ := List.findIdx?_eq_some_iff_getElem.mp h
  exact ⟨caps[c], List.getElem?_eq_getElem hlt, by simpa using hobject⟩

theorem findCapture_eq_none {node : ℕ} {caps : List ClosureCap} :
    findCapture node caps = none ↔ node ∉ caps.map ClosureCap.object := by
  simp only [findCapture, List.findIdx?_eq_none_iff, beq_eq_false_iff_ne, List.mem_map, not_exists, not_and]

theorem prefix_pushCapture (captures : Captures) (lamSym : ℕ) (cap : ClosureCap) (lam : ℕ) :
    captures lam <+: (pushCapture captures lamSym cap).2 lam := by
  by_cases heq : lam = lamSym
  · subst heq
    simp [pushCapture]
  · simp [pushCapture, Function.update_of_ne heq]

/-- What `lambdaCapture` promises about its result. -/
structure Captured (outer home : ℕ → Owner) (captures : Captures) (node : ℕ) (scope path : List Scope)
    (r : Option ℕ × Captures) : Prop where
  sound : Sound outer home r.2
  grown : ∀ lam, captures lam <+: r.2 lam
  entry : ∀ c, r.1 = some c → ∃ lam, nearest path = some lam ∧
    ∃ cap, (r.2 lam)[c]? = some cap ∧ cap.object = node
  skipped : r.1 = none → isNamespace scope = true ∨ nearest scope = nearest path
  fresh : ∀ lam cap, cap ∈ r.2 lam → cap ∈ captures lam ∨ cap.object = node
  touched : ∀ lam, r.2 lam = captures lam ∨ ∃ s ∈ path, s.type = .closure ∧ s.symbol = lam

/-- Nothing is captured: the object is global, or local to the nearest lambda. -/
theorem Captured.skip {node : ℕ} {scope path : List Scope} (h : Sound outer home captures)
    (hskip : isNamespace scope = true ∨ nearest scope = nearest path) :
    Captured outer home captures node scope path (none, captures) where
  sound := h
  grown _ := List.prefix_refl _
  entry := nofun
  skipped _ := hskip
  fresh _ _ hcap := .inl hcap
  touched _ := .inl rfl

theorem Captured.of_parents {node : ℕ} {scope parents : List Scope} {s : Scope} {r : Option ℕ × Captures}
    (h : Captured outer home captures node scope parents r) (hnearest : nearest (s :: parents) = nearest parents) :
    Captured outer home captures node scope (s :: parents) r where
  sound := h.sound
  grown := h.grown
  entry := by simpa only [hnearest] using h.entry
  skipped := by simpa only [hnearest] using h.skipped
  fresh := h.fresh
  touched lam := by
    obtain heq | ⟨s', hmem, hs'⟩ := h.touched lam
    · exact .inl heq
    · exact .inr ⟨s', List.mem_cons_of_mem _ hmem, hs'⟩

/-- A new entry whose chain is complete is pushed to the innermost lambda of the path. -/
theorem Captured.push {node : ℕ} {scope parents : List Scope} {s : Scope} {captures' : Captures} {cap : ClosureCap}
    (hs : s.type = .closure) (hsound : Sound outer home captures') (hgrown : ∀ lam, captures lam <+: captures' lam)
    (hsame : captures' s.symbol = captures s.symbol)
    (hnew : node ∉ (captures s.symbol).map ClosureCap.object) (hcap : cap.object = node)
    (hfresh : ∀ lam cap, cap ∈ captures' lam → cap ∈ captures lam ∨ cap.object = node)
    (htouched : ∀ lam, captures' lam = captures lam ∨ ∃ s ∈ parents, s.type = .closure ∧ s.symbol = lam)
    (hresolves : ∀ captures'', (∀ lam, captures' lam <+: captures'' lam) →
      (captures'' s.symbol)[(captures' s.symbol).length]? = some cap →
        Resolves outer home captures'' node s.symbol (captures' s.symbol).length) :
    Captured outer home captures node scope (s :: parents) (pushCapture captures' s.symbol cap) := by
  have hpre := prefix_pushCapture captures' s.symbol cap
  have hlast : ((pushCapture captures' s.symbol cap).2 s.symbol)[(captures' s.symbol).length]? = some cap := by
    simp [pushCapture]
  constructor
  · constructor
    · intro lam c cap' hcap'
      by_cases hold : ∃ cap'', (captures' lam)[c]? = some cap''
      · obtain ⟨cap'', hcap''⟩ := hold
        have heq := getElem?_prefix_mono (hpre lam) hcap''
        rw [hcap'] at heq
        cases heq
        exact (hsound.resolves lam c cap' hcap'').mono hpre (fun _ _ ↦ rfl) rfl
      · have heq : lam = s.symbol := by
          by_contra hne
          simp [pushCapture, Function.update_of_ne hne] at hcap'
          exact hold ⟨cap', hcap'⟩
        subst heq
        have hlen : c = (captures' s.symbol).length := by
          have hlt := (List.getElem?_eq_some_iff.mp hcap').1
          simp only [not_exists, ← ne_eq] at hold
          have hle : (captures' s.symbol).length ≤ c :=
            List.getElem?_eq_none_iff.mp (Option.eq_none_iff_forall_ne_some.mpr hold)
          simp only [pushCapture, Function.update_self, List.length_append, List.length_singleton] at hlt
          omega
        subst hlen
        rw [hlast] at hcap'
        cases hcap'
        rw [hcap]
        exact hresolves _ hpre hlast
    · intro lam
      by_cases heq : lam = s.symbol
      · subst heq
        rw [← hcap, ← hsame] at hnew
        simp only [pushCapture, Function.update_self, List.map_append, List.map_cons, List.map_nil]
        exact List.Nodup.append (hsound.once _) (List.nodup_singleton _) (by simpa using hnew)
      · simpa [pushCapture, Function.update_of_ne heq] using hsound.once lam
  · exact fun lam ↦ (hgrown lam).trans (hpre lam)
  · intro c hc
    cases hc
    exact ⟨s.symbol, by simp [nearest, findNearest, hs], cap, hlast, hcap⟩
  · intro hnone
    simp [pushCapture] at hnone
  · intro lam cap' hmem
    by_cases heq : lam = s.symbol
    · subst heq
      simp only [pushCapture, Function.update_self, List.mem_append, List.mem_singleton] at hmem
      obtain hmem | rfl := hmem
      · exact hfresh _ _ hmem
      · exact .inr hcap
    · simp only [pushCapture, Function.update_of_ne heq] at hmem
      exact hfresh _ _ hmem
  · intro lam
    by_cases heq : lam = s.symbol
    · exact .inr ⟨s, List.mem_cons_self, hs, heq.symm⟩
    · simp only [pushCapture, Function.update_of_ne heq]
      obtain hold | ⟨s', hmem, hs'⟩ := htouched lam
      · exact .inl hold
      · exact .inr ⟨s', List.mem_cons_of_mem _ hmem, hs'⟩

/-- The closures around a scope on the path are those of other lambdas. -/
def Separate : List Scope → Prop
  | [] => True
  | scope :: parents =>
      (scope.type = .closure → ∀ s ∈ parents, s.type = .closure → s.symbol ≠ scope.symbol) ∧ Separate parents

theorem lambdaCapture_captured {node : ℕ} (type : Ty) {scope : List Scope} (hne : scope ≠ [])
    (hhome : home node = owner scope) {path : List Scope} (hpath : WellScoped outer path) (hseparate : Separate path)
    (hscope : scope <:+ path ∨ nearest scope = nearest path) (hsound : Sound outer home captures) :
    ∃ r, lambdaCapture node type scope path captures = some r ∧
      Captured outer home captures node scope path r := by
  induction path with
  | nil =>
    obtain hsuffix | hnearest := hscope
    · exact absurd (List.suffix_nil.mp hsuffix) hne
    · exact ⟨_, rfl, .skip hsound (.inr hnearest)⟩
  | cons s parents ih =>
    unfold lambdaCapture
    by_cases hns : isNamespace scope = true
    · exact ⟨_, if_pos hns, .skip hsound (.inl hns)⟩
    rw [if_neg hns]
    by_cases hs : s.type = .closure
    swap
    · have hnearest : nearest (s :: parents) = nearest parents := by simp [nearest, findNearest, hs]
      have hscope' : scope <:+ parents ∨ nearest scope = nearest parents := by
        obtain hsuffix | hscope := hscope
        · obtain rfl | hsuffix := List.suffix_cons_iff.mp hsuffix
          · exact .inr hnearest
          · exact .inl hsuffix
        · exact .inr (hscope.trans hnearest)
      obtain ⟨r, hr, hcaptured⟩ := ih hpath.2 hseparate.2 hscope'
      exact ⟨r, by rw [if_pos hs, hr], hcaptured.of_parents hnearest⟩
    have hnearest : nearest (s :: parents) = some s.symbol := by simp [nearest, findNearest, hs]
    rw [if_neg (not_not.mpr hs)]
    by_cases hlocal : nearest scope = some s.symbol
    · exact ⟨_, if_pos hlocal, .skip hsound (.inr (hlocal.trans hnearest.symm))⟩
    have hsuffix : scope <:+ parents := by
      obtain hsuffix | hscope := hscope
      · obtain rfl | hsuffix := List.suffix_cons_iff.mp hsuffix
        · exact absurd hnearest hlocal
        · exact hsuffix
      · exact absurd (hscope.trans hnearest) hlocal
    have houter : outer s.symbol = owner parents := by
      have hs' := hpath.1
      simpa only [hs] using hs'
    rw [if_neg (show ¬(findNearest .closure scope).map Scope.symbol = some s.symbol from hlocal)]
    cases hfind : findCapture node (captures s.symbol) with
    | some c =>
      obtain ⟨cap, hcap, hobject⟩ := findCapture_eq_some hfind
      refine ⟨_, rfl, ⟨hsound, fun _ ↦ List.prefix_refl _, fun c' hc' ↦ ?_, nofun, fun _ _ h ↦ .inl h, fun _ ↦ .inl rfl⟩⟩
      cases hc'
      exact ⟨s.symbol, hnearest, cap, hcap, hobject⟩
    | none =>
      have hnew := findCapture_eq_none.mp hfind
      have hns' : isNamespace scope = false := by simpa using hns
      have hglobal := (hpath.2.suffix hsuffix).owner_ne_global hne hns'
      have hhere (hsame : nearest scope = nearest parents) (captures'' : Captures) (c : ℕ)
          (hentry : (captures'' s.symbol)[c]? = some ⟨type, node, none⟩) :
          Resolves outer home captures'' node s.symbol c := by
        have howner := hpath.2.owner_eq hsuffix hne hns' hsame
        refine .here hentry rfl rfl ?_ ?_
        · rw [hhome, houter, howner]
        · rwa [houter, howner]
      cases hparent : findNearest .closure parents with
      | none =>
        refine ⟨_, rfl, .push hs hsound (fun _ ↦ List.prefix_refl _) rfl hnew rfl (fun _ _ h ↦ .inl h)
          (fun _ ↦ .inl rfl) fun captures'' _ hentry ↦ hhere ?_ captures'' _ hentry⟩
        have hall := findNearest_eq_none.mp hparent
        rw [nearest, nearest, hparent, findNearest_eq_none.mpr fun s' hmem ↦ hall s' (hsuffix.subset hmem)]
      | some parentClosure =>
        obtain ⟨⟨captured, captures'⟩, hr, hcaptured⟩ := ih hpath.2 hseparate.2 (.inl hsuffix)
        have hsame : captures' s.symbol = captures s.symbol := by
          obtain hsame | ⟨s', hmem, hs', hsymbol⟩ := hcaptured.touched s.symbol
          · exact hsame
          · exact absurd hsymbol (hseparate.1 hs s' hmem hs')
        simp only [hr, Option.bind_eq_bind, Option.bind_some]
        cases captured with
        | none =>
          refine ⟨_, rfl, .push hs hcaptured.sound hcaptured.grown hsame hnew rfl hcaptured.fresh hcaptured.touched
            fun captures'' _ hentry ↦ hhere ?_ captures'' _ hentry⟩
          exact (hcaptured.skipped rfl).resolve_left hns
        | some c =>
          obtain ⟨lam, hlam, cap, hcap, hobject⟩ := hcaptured.entry c rfl
          have hparentLam : parentClosure.symbol = lam := by simpa [nearest, hparent] using hlam
          subst hparentLam
          cases hfind' : findCapture node (captures' parentClosure.symbol) with
          | none =>
            have hmem := List.mem_map_of_mem (f := ClosureCap.object) (List.mem_of_getElem? hcap)
            exact absurd (hobject ▸ hmem) (findCapture_eq_none.mp hfind')
          | some c' =>
            obtain ⟨cap', hcap', hobject'⟩ := findCapture_eq_some hfind'
            have hresolves := hcaptured.sound.resolves _ _ _ hcap'
            rw [hobject'] at hresolves
            have hparents : outer s.symbol = .lambda parentClosure.symbol :=
              houter.trans (hpath.2.nearest_eq_some.mp hlam)
            exact ⟨_, rfl, .push hs hcaptured.sound hcaptured.grown hsame hnew rfl hcaptured.fresh hcaptured.touched
              fun captures'' hgrown hentry ↦
                .outward hentry rfl rfl hparents (hresolves.mono hgrown (fun _ _ ↦ rfl) rfl)⟩

/-! ## The invariant of the symbol table -/

/-- The scopes from the current one outwards. -/
structure ScopesInv (s : State) : Prop where
  wellScoped : WellScoped s.outer s.cur
  separate : Separate s.cur
  bound : ∀ scope ∈ s.cur, scope.type = .closure → scope.symbol < s.fresh
  objects : ∀ scope parents name node type, scope :: parents <:+ s.cur → (name, .object node type) ∈ scope.table →
    node < s.fresh ∧ s.home node = owner (scope :: parents)
  inner : ∀ lam parent, s.outer lam = .lambda parent → parent < lam

/-- A captured identifier names an entry of its lambda; any other is global or local. -/
structure IdentInv (s : State) (ident : Ident) : Prop where
  known : ident.definition < s.fresh
  captured : ∀ c, ident.captureIndex = some c → ∃ lam, ident.owner = .lambda lam ∧
    ∃ cap, (s.captures lam)[c]? = some cap ∧ cap.object = ident.definition
  direct : ident.captureIndex = none → s.home ident.definition = .global ∨ s.home ident.definition = ident.owner

structure CapturesInv (s : State) : Prop where
  sound : Sound s.outer s.home s.captures
  known : ∀ lam, ∀ cap ∈ s.captures lam, cap.object < s.fresh ∧ lam < s.fresh
  idents : ∀ ident ∈ s.idents, IdentInv s ident

/-- New scopes and new objects do not disturb the captures made so far. -/
theorem CapturesInv.frame {s s' : State} (h : CapturesInv s) (hcaptures : s'.captures = s.captures)
    (hidents : s'.idents = s.idents) (hfresh : s.fresh ≤ s'.fresh) (hhome : ∀ n < s.fresh, s'.home n = s.home n)
    (houter : ∀ lam < s.fresh, s'.outer lam = s.outer lam) : CapturesInv s' := by
  have hgrown (lam : ℕ) : s.captures lam <+: s'.captures lam := hcaptures ▸ List.prefix_refl _
  refine ⟨⟨fun lam c cap hcap ↦ ?_, by simpa only [hcaptures] using h.sound.once⟩, fun lam cap hcap ↦ ?_,
    fun ident hident ↦ ?_⟩
  · rw [hcaptures] at hcap
    have hknown := h.known lam cap (List.mem_of_getElem? hcap)
    refine (h.sound.resolves lam c cap hcap).mono hgrown (fun lam' hne ↦ ?_) (hhome _ hknown.1)
    obtain ⟨cap', hcap'⟩ := List.exists_mem_of_ne_nil _ hne
    exact houter lam' (h.known lam' cap' hcap').2
  · rw [hcaptures] at hcap
    have hknown := h.known lam cap hcap
    omega
  · have hinv := h.idents ident (hidents ▸ hident)
    refine ⟨by have := hinv.known; omega, by simpa only [hcaptures] using hinv.captured, fun hnone ↦ ?_⟩
    rw [hhome _ hinv.known]
    exact hinv.direct hnone

@[simp] theorem owner_insert (name : String) (symbol : Symbol) (scopes : List Scope) :
    owner (insert name symbol scopes) = owner scopes := by
  cases scopes <;> rfl

/-- An insertion keeps the scopes, if a new object is recorded as local to its owner. -/
theorem ScopesInv.insert {s s' : State} (h : ScopesInv s) {name : String} {symbol : Symbol}
    (hcur : s'.cur = Scopes.insert name symbol s.cur) (houter : s'.outer = s.outer) (hfresh : s.fresh ≤ s'.fresh)
    (hhome : ∀ n < s.fresh, s'.home n = s.home n)
    (hobject : ∀ node type, symbol = .object node type → node < s'.fresh ∧ s'.home node = owner s.cur) :
    ScopesInv s' := by
  cases hscopes : s.cur with
  | nil =>
    rw [hscopes] at hcur
    refine ⟨by simp [hcur, Scopes.insert, WellScoped], by simp [hcur, Scopes.insert, Separate],
      by simp [hcur, Scopes.insert], by simp [hcur, Scopes.insert], by simpa only [houter] using h.inner⟩
  | cons scope parents =>
    rw [hscopes] at hcur hobject
    have hcur : s'.cur = { scope with table := (name, symbol) :: scope.table } :: parents := hcur
    have hscoped := hscopes ▸ h.wellScoped
    have hseparate := hscopes ▸ h.separate
    have hbound := hscopes ▸ h.bound
    have hobjects := hscopes ▸ h.objects
    refine ⟨?_, ?_, ?_, ?_, by simpa only [houter] using h.inner⟩
    · rw [hcur, houter]
      exact hscoped
    · rw [hcur]
      exact hseparate
    · intro scope' hmem htype
      rw [hcur] at hmem
      have hlt : scope'.symbol < s.fresh := by
        obtain rfl | hmem := List.mem_cons.mp hmem
        · exact hbound scope List.mem_cons_self htype
        · exact hbound scope' (List.mem_cons_of_mem _ hmem) htype
      omega
    · intro scope' parents' name' node type hsuffix hmem
      have hold {scope'' : Scope} {parents'' : List Scope} (hsuffix : scope'' :: parents'' <:+ scope :: parents)
          (hmem : (name', .object node type) ∈ scope''.table) :
          node < s'.fresh ∧ s'.home node = owner (scope'' :: parents'') := by
        obtain ⟨hlt, howner⟩ := hobjects scope'' parents'' name' node type hsuffix hmem
        exact ⟨by omega, by rw [hhome _ hlt, howner]⟩
      rw [hcur] at hsuffix
      obtain heq | hsuffix := List.suffix_cons_iff.mp hsuffix
      · cases heq
        obtain heq | hmem := List.mem_cons.mp hmem
        · cases heq
          exact hobject node type rfl
        · have hkept := hold (List.suffix_refl (scope :: parents)) hmem
          exact hkept
      · exact hold (hsuffix.trans (List.suffix_cons _ _)) hmem

theorem mem_makeParams {params : List (String × Ty)} {first node : ℕ} {name : String} {type : Ty}
    (h : (name, .object node type) ∈ makeParams first params) : first ≤ node ∧ node < first + params.length := by
  induction params generalizing first with
  | nil => simp [makeParams] at h
  | cons param params ih =>
    simp only [makeParams, List.mem_cons, Prod.mk.injEq, Symbol.object.injEq] at h
    simp only [List.length_cons]
    obtain ⟨-, rfl, -⟩ | h := h
    · omega
    · have hrange := ih h
      omega

theorem WellScoped.congr {scopes : List Scope} (h : WellScoped outer scopes)
    (hsame : ∀ scope ∈ scopes, scope.type = .closure → outer' scope.symbol = outer scope.symbol) :
    WellScoped outer' scopes := by
  induction scopes with
  | nil => trivial
  | cons scope parents ih =>
    refine ⟨?_, ih h.2 fun scope' hmem ↦ hsame scope' (List.mem_cons_of_mem _ hmem)⟩
    have hscope := h.1
    cases htype : scope.type with
    | closure =>
      simp only [htype] at hscope ⊢
      rw [hsame scope List.mem_cons_self htype, hscope]
    | ns | func | block | flow =>
      simp only [htype] at hscope ⊢
      exact hscope

/-- Entering a scope whose objects are recorded as its own. -/
theorem ScopesInv.enter {s s' : State} (h : ScopesInv s) {scope : Scope} (hcur : s'.cur = scope :: s.cur)
    (hscoped : WellScoped s'.outer s'.cur) (hsymbol : scope.type = .closure → scope.symbol = s.fresh)
    (hfresh : s.fresh ≤ s'.fresh) (hbound : scope.type = .closure → s.fresh < s'.fresh)
    (hhome : ∀ n < s.fresh, s'.home n = s.home n)
    (hobjects : ∀ name node type, (name, .object node type) ∈ scope.table →
      node < s'.fresh ∧ s'.home node = owner (scope :: s.cur))
    (hinner : ∀ lam parent, s'.outer lam = .lambda parent → parent < lam) : ScopesInv s' := by
  refine ⟨hscoped, ?_, ?_, ?_, hinner⟩
  · rw [hcur]
    refine ⟨fun hclosure s hmem htype ↦ ?_, h.separate⟩
    have hlt := h.bound s hmem htype
    have hsym := hsymbol hclosure
    omega
  · intro scope' hmem htype
    rw [hcur] at hmem
    obtain rfl | hmem := List.mem_cons.mp hmem
    · rw [hsymbol htype]
      exact hbound htype
    · have hlt := h.bound scope' hmem htype
      omega
  · intro scope' parents' name node type hsuffix hmem
    rw [hcur] at hsuffix
    obtain heq | hsuffix := List.suffix_cons_iff.mp hsuffix
    · cases heq
      exact hobjects name node type hmem
    · obtain ⟨hlt, howner⟩ := h.objects scope' parents' name node type hsuffix hmem
      exact ⟨by omega, by rw [hhome _ hlt, howner]⟩

/-- The object that a name refers to is recorded as local to the owner of its scope. -/
theorem findScope_object {name : String} {scopes scope : List Scope} {node : ℕ} {type : Ty}
    (h : findScope name scopes = some (.object node type, scope)) :
    ∃ s parents, scope = s :: parents ∧ scope <:+ scopes ∧ (name, .object node type) ∈ s.table := by
  induction scopes with
  | nil => simp [findScope] at h
  | cons s parents ih =>
    rw [findScope] at h
    cases hfind : find s name with
    | some symbol =>
      rw [hfind] at h
      cases h
      obtain ⟨before, after, htable, -⟩ := List.lookup_eq_some_iff.mp hfind
      exact ⟨s, parents, rfl, List.suffix_refl _, by simp [htable]⟩
    | none =>
      rw [hfind] at h
      obtain ⟨s', parents', rfl, hsuffix, hmem⟩ := ih h
      exact ⟨s', parents', rfl, hsuffix.trans (List.suffix_cons _ _), hmem⟩

/-- The invariant of the whole state. -/
structure Inv (s : State) : Prop where
  scopes : ScopesInv s
  captures : CapturesInv s

theorem inv_init {builtins : List (String × Symbol)}
    (h : ∀ name node type, (name, Symbol.object node type) ∉ builtins) : Inv (State.init builtins) := by
  constructor
  · constructor
    · simp [State.init, WellScoped]
    · simp [State.init, Separate]
    · intro scope hmem hclosure
      simp only [State.init, List.mem_cons, List.not_mem_nil, or_false] at hmem
      obtain rfl | rfl := hmem <;> cases hclosure
    · intro scope parents name node type hsuffix hmem
      have hscope : scope ∈ (State.init builtins).cur := hsuffix.subset List.mem_cons_self
      simp only [State.init, List.mem_cons, List.not_mem_nil, or_false] at hscope
      obtain rfl | rfl := hscope
      · simp at hmem
      · exact absurd hmem (h name node type)
    · nofun
  · refine ⟨⟨fun lam c cap hcap ↦ ?_, fun _ ↦ List.nodup_nil⟩, fun lam cap hcap ↦ ?_, fun _ hmem ↦ ?_⟩
    · simp [State.init] at hcap
    · simp [State.init] at hcap
    · simp [State.init] at hmem

/-- Entering a function or lambda keeps the invariant. -/
theorem inv_enter {s : State} (h : Inv s) {type : ScopeType} {params : List (String × Ty)} {outer : ℕ → Owner}
    (houter : ∀ lam, lam ≠ s.fresh → outer lam = s.outer lam) (hfunc : type = .func ∨ type = .closure)
    (hscope : (type = .func → isNamespace s.cur = true) ∧ (type = .closure → outer s.fresh = owner s.cur))
    (hinner : ∀ parent, outer s.fresh = .lambda parent → parent < s.fresh) :
    Inv { s.enter type params with outer } := by
  have hsame : ∀ lam < s.fresh, outer lam = s.outer lam := fun lam hlt ↦ houter lam (by omega)
  have hhome : ∀ n < s.fresh, (s.enter type params).home n = s.home n := by
    intro n hlt
    simp only [State.enter]
    rw [if_neg (by omega)]
  constructor
  · refine h.scopes.enter rfl ⟨?_, ?_⟩ (fun _ ↦ rfl) ?_ ?_ hhome ?_ ?_
    · obtain rfl | rfl := hfunc
      · exact hscope.1 rfl
      · exact hscope.2 rfl
    · exact h.scopes.wellScoped.congr fun scope hmem htype ↦ hsame _ (h.scopes.bound scope hmem htype)
    · simp only [State.enter]
      omega
    · intro _
      simp only [State.enter]
      omega
    · intro name node type' hmem
      have hrange := mem_makeParams hmem
      simp only [State.enter]
      rw [if_pos (by omega)]
      exact ⟨by omega, rfl⟩
    · intro lam parent hlam
      by_cases hfresh : lam = s.fresh
      · subst hfresh
        exact hinner parent hlam
      · exact h.scopes.inner lam parent ((houter lam hfresh).symm.trans hlam)
  · refine h.captures.frame rfl rfl ?_ hhome hsame
    simp only [State.enter]
    omega

theorem findNearest_mem {type : ScopeType} {scopes : List Scope} {scope : Scope}
    (h : findNearest type scopes = some scope) : scope ∈ scopes ∧ scope.type = type := by
  induction scopes with
  | nil => simp [findNearest] at h
  | cons s parents ih =>
    rw [findNearest] at h
    split_ifs at h with htype
    · cases h
      exact ⟨List.mem_cons_self, htype⟩
    · have hscope := ih h
      exact ⟨List.mem_cons_of_mem _ hscope.1, hscope.2⟩

/-- The lambdas around the current scope were created before. -/
theorem ScopesInv.owner_lt {s : State} (h : ScopesInv s) {lam : ℕ} (howner : owner s.cur = .lambda lam) :
    lam < s.fresh := by
  have hnearest := h.wellScoped.nearest_eq_some.mpr howner
  obtain ⟨scope, hscope, rfl⟩ := Option.map_eq_some_iff.mp hnearest
  obtain ⟨hmem, htype⟩ := findNearest_mem hscope
  exact h.bound scope hmem htype

theorem inv_insert {s : State} (h : Inv s) (name : String) {symbol : Symbol}
    (hsymbol : ∀ node type, symbol ≠ .object node type) : Inv { s with cur := insert name symbol s.cur } :=
  ⟨h.scopes.insert rfl rfl (Nat.le_refl _) (fun _ _ ↦ rfl) fun node type heq ↦ absurd heq (hsymbol node type),
    h.captures.frame rfl rfl (Nat.le_refl _) (fun _ _ ↦ rfl) fun _ _ ↦ rfl⟩

theorem inv_insertObject {s : State} (h : Inv s) (name : String) (type : Ty) :
    Inv { s with
      cur := insert name (.object s.fresh type) s.cur
      home := Function.update s.home s.fresh (owner s.cur)
      fresh := s.fresh + 1 } := by
  have hhome : ∀ n < s.fresh, Function.update s.home s.fresh (owner s.cur) n = s.home n :=
    fun n hlt ↦ Function.update_of_ne (by omega) _ _
  refine ⟨h.scopes.insert rfl rfl (Nat.le_succ _) hhome fun node type' heq ↦ ?_,
    h.captures.frame rfl rfl (Nat.le_succ _) hhome fun _ _ ↦ rfl⟩
  cases heq
  exact ⟨Nat.lt_succ_self _, Function.update_self _ _ _⟩

/-- Looking up an object records an identifier that satisfies the invariant. -/
theorem inv_lookupIdent {s : State} (h : Inv s) {name : String} {node : ℕ} {type : Ty} {scope : List Scope}
    (hfind : findScope name s.cur = some (.object node type, scope)) :
    ∃ r, lambdaCapture node type scope s.cur s.captures = some r ∧
      Inv { s with captures := r.2, idents := ⟨node, r.1, owner s.cur⟩ :: s.idents } := by
  obtain ⟨s', parents, rfl, hsuffix, hmem⟩ := findScope_object hfind
  obtain ⟨hknown, hhome⟩ := h.scopes.objects s' parents name node type hsuffix hmem
  obtain ⟨r, hr, hcaptured⟩ := lambdaCapture_captured type (List.cons_ne_nil s' parents) hhome
    h.scopes.wellScoped h.scopes.separate (.inl hsuffix) h.captures.sound
  refine ⟨r, hr, ⟨h.scopes.wellScoped, h.scopes.separate, h.scopes.bound, h.scopes.objects, h.scopes.inner⟩,
    hcaptured.sound, fun lam cap hcap ↦ ?_, fun ident hident ↦ ?_⟩
  · have hold : cap ∈ s.captures lam → cap.object < s.fresh ∧ lam < s.fresh := h.captures.known lam cap
    obtain hcap' | hobject := hcaptured.fresh lam cap hcap
    · exact hold hcap'
    obtain heq | ⟨scope, hscope, htype, rfl⟩ := hcaptured.touched lam
    · exact hold (heq ▸ hcap)
    · exact ⟨hobject ▸ hknown, h.scopes.bound scope hscope htype⟩
  · obtain rfl | hident := List.mem_cons.mp hident
    · refine ⟨hknown, fun c hc ↦ ?_, fun hnone ↦ ?_⟩
      · obtain ⟨lam, hlam, hentry⟩ := hcaptured.entry c hc
        exact ⟨lam, h.scopes.wellScoped.nearest_eq_some.mp hlam, hentry⟩
      · by_cases hns : isNamespace (s' :: parents) = true
        · exact .inl (hhome.trans (owner_eq_global hns))
        · have hsame := (hcaptured.skipped hnone).resolve_left hns
          have howner := h.scopes.wellScoped.owner_eq hsuffix (List.cons_ne_nil _ _) (by simpa using hns) hsame
          exact .inr (hhome.trans howner.symm)
    · have hinv := h.captures.idents ident hident
      refine ⟨hinv.known, fun c hc ↦ ?_, hinv.direct⟩
      obtain ⟨lam, hlam, cap, hcap, hobject⟩ := hinv.captured c hc
      exact ⟨lam, hlam, cap, getElem?_prefix_mono (hcaptured.grown lam) hcap, hobject⟩

theorem inv_step {s s' : State} (event : Event) (h : Inv s) (hstep : step s event = some s') : Inv s' := by
  cases event with
  | enterScope type =>
    obtain ⟨⟨htype, hglobal⟩, heq⟩ := Option.ite_none_right_eq_some.mp hstep
    cases heq
    have hclosure : type ≠ .closure := by obtain rfl | rfl := htype <;> simp
    refine ⟨h.scopes.enter rfl ⟨?_, h.scopes.wellScoped⟩ (fun htype ↦ absurd htype hclosure) (Nat.le_refl _)
      (fun htype ↦ absurd htype hclosure) (fun _ _ ↦ rfl) (fun _ _ _ hmem ↦ by simp at hmem) h.scopes.inner,
      h.captures.frame rfl rfl (Nat.le_refl _) (fun _ _ ↦ rfl) fun _ _ ↦ rfl⟩
    obtain rfl | rfl := htype <;> exact hglobal
  | enterFunc params =>
    obtain ⟨hns, heq⟩ := Option.ite_none_right_eq_some.mp hstep
    cases heq
    exact inv_enter h (fun _ _ ↦ rfl) (.inl rfl) ⟨fun _ ↦ hns, nofun⟩ (h.scopes.inner _)
  | enterLambda params =>
    cases hstep
    have hinsert := inv_insert h "$lambda" (show ∀ node type, Symbol.lambda ≠ .object node type from nofun)
    refine inv_enter hinsert (fun lam hne ↦ Function.update_of_ne hne _ _) (.inr rfl)
      ⟨nofun, fun _ ↦ Function.update_self _ _ _⟩ fun parent hparent ↦ ?_
    rw [Function.update_self] at hparent
    exact hinsert.scopes.owner_lt hparent
  | leaveScope =>
    obtain ⟨-, heq⟩ := Option.ite_none_left_eq_some.mp hstep
    cases heq
    have htail : s.cur.tail <:+ s.cur := List.tail_suffix _
    refine ⟨⟨h.scopes.wellScoped.suffix htail, ?_, fun scope hmem ↦ h.scopes.bound scope (htail.subset hmem),
      fun scope parents name node type hsuffix ↦ h.scopes.objects scope parents name node type (hsuffix.trans htail),
      h.scopes.inner⟩, h.captures.frame rfl rfl (Nat.le_refl _) (fun _ _ ↦ rfl) fun _ _ ↦ rfl⟩
    have hseparate := h.scopes.separate
    cases hcur : s.cur with
    | nil => trivial
    | cons scope parents =>
      rw [hcur] at hseparate
      exact hseparate.2
  | insertObject name type =>
    obtain ⟨-, heq⟩ := Option.ite_none_left_eq_some.mp hstep
    cases heq
    exact inv_insertObject h name type
  | insert name symbol =>
    cases symbol with
    | object node type => cases hstep
    | func | lambda | typeAlias | btnFunc =>
      cases hstep
      exact inv_insert h _ nofun
  | lookupIdent name =>
    simp only [step] at hstep
    split at hstep
    · next node type scope hfind =>
      obtain ⟨r, hr, hinv⟩ := inv_lookupIdent h hfind
      rw [hr] at hstep
      cases hstep
      exact hinv
    · cases hstep
      exact h
    · cases hstep
      exact h
    · cases hstep

theorem inv_of_reachable {s : State} (h : Reachable s) : Inv s := by
  obtain ⟨builtins, events, hbuiltins, hrun⟩ := h
  exact run_invariant (fun s event s' hinv hstep ↦ inv_step event hinv hstep) hrun (inv_init hbuiltins)

/-! ## Captured values -/

/-- Captured objects are local to something further out than the lambda. -/
theorem ScopesInv.home_of_resolves {s : State} (h : ScopesInv s) {node lam c : ℕ}
    (hresolves : Resolves s.outer s.home s.captures node lam c) :
    s.home node ≠ .global ∧ ∀ parent, s.home node = .lambda parent → parent < lam := by
  induction hresolves with
  | here _ _ _ hlocal hglobal =>
    rw [hlocal]
    exact ⟨hglobal, fun parent hparent ↦ h.inner _ parent hparent⟩
  | outward _ _ _ hparent _ ih =>
    refine ⟨ih.1, fun parent hhome ↦ ?_⟩
    have hlt := ih.2 parent hhome
    have hinner := h.inner _ _ hparent
    omega

/-- Through the closure data, a chain reads the value that its object had in its own frame. -/
theorem ScopesInv.read_of_resolves {V : Type} {s : State} (h : ScopesInv s) {node lam c : ℕ}
    (hresolves : Resolves s.outer s.home s.captures node lam c) {frames : List (Frame V)} {data : List V}
    (hfilled : Filled s lam frames data) :
    ∃ value, data[c]? = some value ∧ homeValue s node lam frames = some value := by
  induction hresolves generalizing frames data with
  | here hcap hobject hindex hlocal _ =>
    cases hfilled with
    | outermost _ hcapture | nested _ _ hcapture =>
      have hread := Frame.capture_getElem? hcapture hcap
      rw [hindex, hobject] at hread
      exact ⟨_, hread, by rw [homeValue, if_pos hlocal]⟩
  | @outward lam c cap parent c' hcap hobject hindex hparent hrest ih =>
    cases hfilled with
    | outermost houter _ => exact absurd hparent (houter _)
    | nested hparent' hframes hcapture =>
      cases Owner.lambda.inj (hparent.symm.trans hparent')
      have hread := Frame.capture_getElem? hcapture hcap
      rw [hindex] at hread
      obtain ⟨value, hdata, hvalue⟩ := ih hframes
      have hlocal : s.home node ≠ s.outer lam := by
        intro heq
        have hlt := (h.home_of_resolves hrest).2 _ (heq.trans hparent)
        exact absurd hlt (Nat.lt_irrefl _)
      refine ⟨value, hread.trans hdata, ?_⟩
      rw [homeValue, if_neg hlocal, hparent]
      exact hvalue

/-- What capture resolution guarantees. -/
structure CapturesSound (s : State) : Prop where
  /-- A captured identifier stands in a lambda and starts a chain to its definition. -/
  resolves : ∀ ident ∈ s.idents, ∀ c, ident.captureIndex = some c → ∃ lam, ident.owner = .lambda lam ∧
    Resolves s.outer s.home s.captures ident.definition lam c
  /-- Any other identifier refers to a global object or to a local one. -/
  direct : ∀ ident ∈ s.idents, ident.captureIndex = none →
    s.home ident.definition = .global ∨ s.home ident.definition = ident.owner
  once : ∀ lam, ((s.captures lam).map ClosureCap.object).Nodup
  /-- Neither global objects nor locals of the lambda are captured. -/
  outside : ∀ lam, ∀ cap ∈ s.captures lam, s.home cap.object ≠ .global ∧ s.home cap.object ≠ .lambda lam
  /-- Wherever a lambda is evaluated, its captures can be read. -/
  fillable : ∀ (V : Type) lam (frame : Frame V),
    (∀ parent, s.outer lam = .lambda parent → ∃ frames, Filled s parent frames frame.data) →
      (frame.capture (s.captures lam)).isSome
  /-- A captured identifier reads a copy of the object it refers to. -/
  copies : ∀ (V : Type), ∀ ident ∈ s.idents, ∀ c lam (frames : List (Frame V)) (frame : Frame V),
    ident.captureIndex = some c → ident.owner = .lambda lam → Filled s lam frames frame.data →
      ∃ value, frame.read ident.definition ident.captureIndex = some value ∧
        homeValue s ident.definition lam frames = some value

theorem captures_sound {s : State} (h : Reachable s) : CapturesSound s := by
  have hinv := inv_of_reachable h
  have hresolves : ∀ ident ∈ s.idents, ∀ c, ident.captureIndex = some c → ∃ lam, ident.owner = .lambda lam ∧
      Resolves s.outer s.home s.captures ident.definition lam c := by
    intro ident hident c hc
    obtain ⟨lam, howner, cap, hcap, hobject⟩ := (hinv.captures.idents ident hident).captured c hc
    exact ⟨lam, howner, hobject ▸ hinv.captures.sound.resolves lam c cap hcap⟩
  refine ⟨hresolves, fun ident hident ↦ (hinv.captures.idents ident hident).direct, hinv.captures.sound.once,
    fun lam cap hcap ↦ ?_, fun V lam frame hframe ↦ ?_, fun V ident hident c lam frames frame hc howner hfilled ↦ ?_⟩
  · obtain ⟨c, hc⟩ := List.mem_iff_getElem?.mp hcap
    have hhome := hinv.scopes.home_of_resolves (hinv.captures.sound.resolves lam c cap hc)
    exact ⟨hhome.1, fun hlam ↦ absurd (hhome.2 lam hlam) (Nat.lt_irrefl lam)⟩
  · refine Frame.capture_isSome fun cap hcap ↦ ?_
    obtain ⟨c, hc⟩ := List.mem_iff_getElem?.mp hcap
    cases hinv.captures.sound.resolves lam c cap hc with
    | here hcap' _ hindex _ _ =>
      cases hcap'.symm.trans hc
      simp [Frame.read, hindex]
    | outward hcap' _ hindex hparent hrest =>
      cases hcap'.symm.trans hc
      obtain ⟨frames, hfilled⟩ := hframe _ hparent
      obtain ⟨value, hdata, -⟩ := hinv.scopes.read_of_resolves hrest hfilled
      simp [Frame.read, hindex, hdata]
  · obtain ⟨lam', howner', hchain⟩ := hresolves ident hident c hc
    cases Owner.lambda.inj (howner.symm.trans howner')
    obtain ⟨value, hdata, hvalue⟩ := hinv.scopes.read_of_resolves hchain hfilled
    exact ⟨value, by rw [hc]; exact hdata, hvalue⟩

/-- `func f(x: sint) { let g = func() { let h = func() { return x; }; return x; }; }` -/
def nestedLambdas : List Event :=
  [.insert "f" .func, .enterFunc [("x", .btn .sint)], .enterLambda [], .enterLambda [], .lookupIdent "x",
    .leaveScope, .insertObject "h" (.func [] (some (.btn .sint))), .lookupIdent "x", .leaveScope,
    .insertObject "g" (.func [] (some (.btn .sint))), .leaveScope]

theorem captures_sound_nestedLambdas :
    ∃ s, run step (State.init []) nestedLambdas = some s ∧
      s.idents.map Ident.captureIndex = [some 0, some 0] ∧ CapturesSound s :=
  ⟨_, rfl, rfl, captures_sound ⟨[], nestedLambdas, nofun, rfl⟩⟩

end Stela.Semantic.CaptureChains
