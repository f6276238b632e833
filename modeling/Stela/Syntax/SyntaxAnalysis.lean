import Stela.Syntax.ParseStatGrammar

/-!
# The parser of modules

`createAST`, and the theorem about it: a list of tokens is accepted just when it is in the grammar of modules, and the
tree is the one that the grammar gives it. Lambdas nest statements in expressions, so the bodies of functions are
approximated by the iterations of their parser, and the texts of bodies by their lengths.
-/

namespace Stela.Syntax.ParseStat

open Library.Parser ParseTokens ParseExpr ParseType

/-! ## Function bodies -/

section

variable {text rest : List Token} {b : ParseTokens Block}

theorem yields_funcBody {body : Block} : (funcBody b).Yields text body rest ↔
    ∃ nodes t, text = op "\x7b" :: (t ++ [op "\x7d"]) ∧ Many (parseStat b) (op "\x7d" :: rest) nodes t ∧
      body = .mk nodes := by
  simp only [funcBody, yields_bind, yields_loc, expectOp, yields_expectView, productive_parseStat.yields_many,
    yields_pure]
  constructor
  · rintro ⟨_, _, _, rfl, ⟨rfl, -⟩, _, _, _, rfl, rfl, t, _, nodes, rfl, hnodes, _, _, _, rfl, rfl, rfl, rfl⟩
    exact ⟨nodes, t, rfl, hnodes, rfl⟩
  · rintro ⟨nodes, t, rfl, hnodes, rfl⟩
    exact ⟨[], _, (), rfl, ⟨rfl, List.cons_ne_nil _ _⟩, [_], _, (), rfl, rfl, t, [_], nodes, rfl, hnodes, [_], [], (), rfl,
      rfl, rfl, rfl⟩

/-- The texts of the bodies that the iteration reads. -/
def bodiesAt : ℕ → Block → List Token → Prop
  | 0, _, _ => False
  | k + 1, .mk nodes, text => ∃ t, text = op "\x7b" :: t ∧ PrintingNodes (bodiesAt k) nodes t

theorem readsBodies_iterate (k : ℕ) : ReadsBodies (funcBody^[k] (fail default)) (bodiesAt k) := by
  induction k with
  | zero => exact ⟨fun h ↦ yields_fail h, fun h ↦ h.elim, fun h ↦ h.elim⟩
  | succ k ih =>
    rw [Function.iterate_succ_apply']
    refine ⟨fun h ↦ ?_, fun {body text rest} h ↦ ?_, fun {body text} h ↦ ?_⟩
    · obtain ⟨nodes, t, rfl, hnodes, rfl⟩ := yields_funcBody.mp h
      exact ⟨_, rfl, printing_many (statsBelow ih _) (Nat.lt_succ_self _) hnodes⟩
    · obtain ⟨nodes⟩ := body
      obtain ⟨t, rfl, hnodes⟩ := h
      obtain ⟨u, rfl, hmany⟩ := many_of_printing ih hnodes
      exact yields_funcBody.mpr ⟨nodes, u, rfl, hmany rest, rfl⟩
    · obtain ⟨nodes⟩ := body
      obtain ⟨t, rfl, -⟩ := h
      exact ⟨t, rfl⟩

theorem block_of_bodiesAt {k : ℕ} {body : Block} (h : bodiesAt k body text) : PrintingBlock body text := by
  induction k generalizing body text with
  | zero => exact h.elim
  | succ k ih =>
    obtain ⟨nodes⟩ := body
    obtain ⟨t, rfl, hnodes⟩ := h
    exact .mk (hnodes.map_bodies (fun _ _ _ hbody ↦ ih hbody) (Nat.le_refl _))

theorem bodiesAt_of_block {k : ℕ} {body : Block} (h : PrintingBlock body text) (hk : text.length ≤ k) :
    bodiesAt k body text := by
  induction k generalizing body text with
  | zero =>
    cases h
    cases hk
  | succ k ih =>
    cases h with
    | mk hnodes =>
      exact ⟨_, rfl, hnodes.map_bodies (fun _ _ hlength hbody ↦ ih hbody hlength) (Nat.le_of_succ_le_succ hk)⟩

/-- The iteration that `fix` takes is longer than the text. -/
theorem readsBodies_parseFuncBody : ReadsBodies parseFuncBody PrintingBlock where
  sound h := block_of_bodiesAt ((readsBodies_iterate _).sound h)
  complete {body text rest} h := by
    have hlength : text.length ≤ (text ++ rest).length + 1 := by
      rw [List.length_append]
      omega
    exact (readsBodies_iterate _).complete (bodiesAt_of_block h hlength)
  starts h := by
    cases h
    exact ⟨_, rfl⟩

end

/-! ## Modules -/

/-- `stela::AST`. -/
structure AST where
  name : String
  imports : List String
  global : List (Decl Block)

def empty : ParseTokens Bool where
  run ts := .ok (ts.isEmpty, ts)
  suffix h := by
    cases h
    exact List.suffix_rfl

/-- One iteration of the loop of `extraSemi`; the warning is left out. -/
def semiStep (_ : Unit) : ParseTokens (Unit ⊕ Unit) := do
  if ← checkOp ";" then return .inr () else return .inl ()

theorem semiStep_consumes (u : Unit) : (semiStep u).Consumes := by
  intro text s rest h
  rcases yields_ifCheck.mp h with ⟨u, rfl, -⟩ | ⟨-, h⟩
  · exact List.cons_ne_nil _ _
  · cases (yields_pure.mp h).2

def extraSemi : ParseTokens Unit := loop semiStep semiStep_consumes ()

/-- What the global scope ends with. -/
def unexpectedGlobal {α : Type} : ParseTokens α where
  run
    | [] => .error .pastEnd
    | _ :: _ => .error (.fatal "Only declarations are allowed at global scope")
  suffix {ts a rest} h := by cases ts <;> cases h

theorem not_yields_unexpectedGlobal {α : Type} {text rest : List Token} {a : α} :
    ¬(unexpectedGlobal : ParseTokens α).Yields text a rest := by
  intro h
  have hrun : (unexpectedGlobal : ParseTokens α).run (text ++ rest) = .ok (a, rest) := h
  cases htext : text ++ rest <;> rw [htext] at hrun <;> cases hrun

def parseImport (ast : AST) : ParseTokens AST := do
  let name ← expectID
  expectOp ";"
  extraSemi
  return { ast with imports := ast.imports ++ [name] }

def parseGlobal (ast : AST) : ParseTokens AST := do
  let external ← checkKeyword "extern"
  match ← parseDecl parseFuncBody external with
  | some node =>
      extraSemi
      return { ast with global := ast.global ++ [node] }
  | none => unexpectedGlobal

/-- One iteration of the loop over the global scope. -/
def globalStep (ast : AST) : ParseTokens (AST ⊕ AST) := do
  if ← empty then return .inl ast
  else if ← checkKeyword "import" then Sum.inr <$> parseImport ast
  else Sum.inr <$> parseGlobal ast

section

variable {text rest : List Token} {ast ast' : AST}

theorem yields_extraSemi {u : Unit} : extraSemi.Yields text u rest ↔
    ∃ n, text = List.replicate n (op ";") ∧ rest.head? ≠ some (op ";") := by
  have hloops (u₀ : Unit) : Loops semiStep rest u₀ text u ↔
      ∃ n, text = List.replicate n (op ";") ∧ rest.head? ≠ some (op ";") := by
    constructor
    · intro h
      induction h with
      | leave h =>
        rcases yields_ifCheck.mp h with ⟨_, -, h⟩ | ⟨hhead, h⟩
        · cases (yields_pure.mp h).2
        · obtain ⟨rfl, -⟩ := yields_pure.mp h
          exact ⟨0, rfl, hhead⟩
      | next h _ ih =>
        obtain ⟨n, rfl, hhead⟩ := ih
        rcases yields_ifCheck.mp h with ⟨_, rfl, h⟩ | ⟨-, h⟩
        · obtain ⟨rfl, -⟩ := yields_pure.mp h
          exact ⟨n + 1, rfl, hhead⟩
        · cases (yields_pure.mp h).2
    · rintro ⟨n, rfl, hhead⟩
      induction n with
      | zero => exact .leave (yields_ifCheck.mpr (.inr ⟨hhead, yields_pure.mpr ⟨rfl, rfl⟩⟩))
      | succ n ih => exact .next (t := [op ";"]) (yields_ifCheck.mpr (.inl ⟨[], rfl, yields_pure.mpr ⟨rfl, rfl⟩⟩)) ih
  rw [extraSemi, yields_loop, hloops]

theorem yields_parseImport : (parseImport ast).Yields text ast' rest ↔
    ∃ name n, text = ⟨.identifier, name⟩ :: op ";" :: List.replicate n (op ";") ∧ rest.head? ≠ some (op ";") ∧
      ast' = { ast with imports := ast.imports ++ [name] } := by
  simp only [parseImport, yields_bind, expectID, yields_expect, expectOp, yields_expectView, yields_extraSemi, yields_pure]
  constructor
  · rintro ⟨_, _, name, rfl, rfl, _, _, _, rfl, rfl, _, _, _, rfl, ⟨n, rfl, hhead⟩, rfl, rfl⟩
    rw [List.append_nil]
    exact ⟨name, n, rfl, hhead, rfl⟩
  · rintro ⟨name, n, rfl, hhead, rfl⟩
    exact ⟨[_], _, name, rfl, rfl, [_], _, (), rfl, rfl, _, [], (), (List.append_nil _).symm, ⟨n, rfl, hhead⟩, rfl, rfl⟩

/-- `extern` in front of a declaration. -/
def externText (external : Bool) : List Token := if external then [keyword "extern"] else []

theorem yields_parseGlobal : (parseGlobal ast).Yields text ast' rest ↔
    ∃ external decl t n, text = externText external ++ (t ++ List.replicate n (op ";")) ∧
      DeclRead parseFuncBody external (List.replicate n (op ";") ++ rest) decl t ∧ rest.head? ≠ some (op ";") ∧
      ast' = { ast with global := ast.global ++ [decl] } := by
  rw [parseGlobal, checkKeyword, yields_bind]
  constructor
  · rintro ⟨e, u, external, rfl, hextern, h⟩
    obtain ⟨t, v, found, rfl, hdecl, h⟩ := yields_bind.mp h
    cases found with
    | none => exact absurd h not_yields_unexpectedGlobal
    | some decl =>
      obtain ⟨w, _, _, rfl, hsemi, h⟩ := yields_bind.mp h
      obtain ⟨rfl, rfl⟩ := yields_pure.mp h
      obtain ⟨n, rfl, hhead⟩ := yields_extraSemi.mp hsemi
      rw [List.append_nil] at *
      refine ⟨external, decl, t, n, ?_, yields_parseDecl.mp hdecl, hhead, rfl⟩
      rcases yields_check.mp hextern with ⟨rfl, rfl⟩ | ⟨rfl, rfl, -⟩ <;> rfl
  · rintro ⟨external, decl, t, n, rfl, hdecl, hhead, rfl⟩
    refine ⟨externText external, _, external, rfl, ?_, yields_bind.mpr ⟨t, _, some decl, rfl, yields_parseDecl.mpr hdecl,
      yields_bind.mpr ⟨_, [], (), (List.append_nil _).symm, yields_extraSemi.mpr ⟨n, rfl, hhead⟩,
        yields_pure.mpr ⟨rfl, rfl⟩⟩⟩⟩
    cases external with
    | true => exact yields_check.mpr (.inl ⟨rfl, rfl⟩)
    | false =>
      refine yields_check.mpr (.inr ⟨rfl, rfl, ?_⟩)
      obtain ⟨first, hfirst, hhead⟩ := hdecl.head
      rw [List.append_assoc, hhead]
      simp only [List.mem_cons, List.not_mem_nil, or_false] at hfirst
      rcases hfirst with rfl | rfl | rfl | rfl <;> simp [keyword]

/-- What is declared starts with neither a semicolon nor an import, and neither with the name of the module. -/
theorem head_declared {external : Bool} {decl : Decl Block} {t : List Token}
    (h : DeclRead parseFuncBody external rest decl t) :
    ∃ first ts, externText external ++ t = first :: ts ∧
      first ∉ [op ";", keyword "import", keyword "module"] := by
  cases external with
  | true => exact ⟨_, t, rfl, by simp [op, keyword]⟩
  | false => cases h <;> exact ⟨_, _, rfl, by simp [op, keyword]⟩

theorem yields_empty {b : Bool} : empty.Yields text b rest ↔ text = [] ∧ b = rest.isEmpty := by
  change Except.ok (_, text ++ rest) = Except.ok (b, rest) ↔ _
  rw [Except.ok.injEq, Prod.mk.injEq, List.append_left_eq_self]
  constructor
  · rintro ⟨rfl, rfl⟩
    exact ⟨rfl, rfl⟩
  · rintro ⟨rfl, rfl⟩
    exact ⟨rfl, rfl⟩

theorem yields_globalStep {r : AST ⊕ AST} : (globalStep ast).Yields text r rest ↔
    text ++ rest = [] ∧ r = .inl ast ∨ text ++ rest ≠ [] ∧
      ((∃ t ast', text = keyword "import" :: t ∧ (parseImport ast).Yields t ast' rest ∧ r = .inr ast') ∨
        (text ++ rest).head? ≠ some (keyword "import") ∧ ∃ ast', (parseGlobal ast).Yields text ast' rest ∧ r = .inr ast') := by
  rw [globalStep, yields_bind]
  simp only [yields_empty, checkKeyword, yields_ite, yields_pure, yields_ifCheck, yields_map]
  constructor
  · rintro ⟨_, u, b, rfl, ⟨rfl, rfl⟩, ⟨hempty, rfl, rfl⟩ | ⟨hempty, h⟩⟩
    · exact .inl ⟨List.isEmpty_iff.mp hempty, rfl⟩
    · refine .inr ⟨fun h ↦ hempty (List.isEmpty_iff.mpr h), ?_⟩
      rcases h with ⟨t, rfl, ast', h, rfl⟩ | ⟨hhead, ast', h, rfl⟩
      · exact .inl ⟨t, ast', rfl, h, rfl⟩
      · exact .inr ⟨hhead, ast', h, rfl⟩
  · rintro (⟨hempty, rfl⟩ | ⟨hne, h⟩)
    · obtain ⟨rfl, rfl⟩ := List.append_eq_nil_iff.mp hempty
      exact ⟨[], [], true, rfl, ⟨rfl, rfl⟩, .inl ⟨rfl, rfl, rfl⟩⟩
    · refine ⟨[], text, _, rfl, ⟨rfl, rfl⟩, .inr ⟨fun h ↦ hne (List.isEmpty_iff.mp h), ?_⟩⟩
      rcases h with ⟨t, ast', rfl, h, rfl⟩ | ⟨hhead, ast', h, rfl⟩
      · exact .inl ⟨t, rfl, ast', h, rfl⟩
      · exact .inr ⟨hhead, ast', h, rfl⟩

theorem yields_globalStep_leave : (globalStep ast).Yields text (.inl ast') rest ↔
    text = [] ∧ rest = [] ∧ ast' = ast := by
  rw [yields_globalStep, List.append_eq_nil_iff]
  constructor
  · rintro (⟨⟨rfl, rfl⟩, h⟩ | ⟨-, ⟨t, ast', -, -, h⟩ | ⟨-, ast', -, h⟩⟩) <;> cases h
    exact ⟨rfl, rfl, rfl⟩
  · rintro ⟨rfl, rfl, rfl⟩
    exact .inl ⟨⟨rfl, rfl⟩, rfl⟩

theorem yields_globalStep_next : (globalStep ast).Yields text (.inr ast') rest ↔
    (∃ t, text = keyword "import" :: t ∧ (parseImport ast).Yields t ast' rest) ∨
      (parseGlobal ast).Yields text ast' rest := by
  rw [yields_globalStep]
  constructor
  · rintro (⟨-, h⟩ | ⟨-, ⟨t, ast', rfl, hyields, h⟩ | ⟨-, ast', hyields, h⟩⟩) <;> cases h
    · exact .inl ⟨t, rfl, hyields⟩
    · exact .inr hyields
  · rintro (⟨t, rfl, hyields⟩ | hyields)
    · exact .inr ⟨List.cons_ne_nil _ _, .inl ⟨t, ast', rfl, hyields, rfl⟩⟩
    · obtain ⟨external, decl, t, n, htext, hdecl, -⟩ := yields_parseGlobal.mp hyields
      obtain ⟨first, ts, hfirst, hmem⟩ := head_declared hdecl
      have hcons : text ++ rest = first :: (ts ++ List.replicate n (op ";") ++ rest) := by
        rw [htext, ← List.append_assoc, hfirst]
        rfl
      refine .inr ⟨hcons ▸ List.cons_ne_nil _ _, .inr ⟨fun h ↦ hmem ?_, ast', hyields, rfl⟩⟩
      rw [hcons] at h
      cases h
      simp

theorem globalStep_consumes (ast : AST) : (globalStep ast).Consumes := by
  intro text ast' rest h
  rcases yields_globalStep_next.mp h with ⟨t, rfl, -⟩ | h
  · exact List.cons_ne_nil _ _
  · obtain ⟨external, decl, t, n, rfl, hdecl, -⟩ := yields_parseGlobal.mp h
    obtain ⟨first, ts, hfirst, -⟩ := head_declared hdecl
    rw [← List.append_assoc, hfirst]
    exact List.cons_ne_nil _ _

end

/-- The name of the module. -/
def parseModule : ParseTokens String := do
  if ← checkKeyword "module" then
    let name ← expectID
    expectOp ";"
    extraSemi
    return name
  else return "main"

def createAST : ParseTokens AST := do
  let name ← parseModule
  loop globalStep globalStep_consumes ⟨name, [], []⟩

/-! ## The grammar of modules -/

/-- The texts of what is imported and declared, with semicolons behind every import and declaration. -/
inductive PrintingGlobal : List String → List (Decl Block) → List Token → Prop
  | nil : PrintingGlobal [] [] []
  | imprt {name imports global n t} : PrintingGlobal imports global t →
      PrintingGlobal (name :: imports) global
        (keyword "import" :: ⟨.identifier, name⟩ :: op ";" :: (List.replicate n (op ";") ++ t))
  | decl {external decl imports global n t u} : PrintingDecl PrintingBlock external decl t →
      PrintingGlobal imports global u →
      PrintingGlobal imports (decl :: global) (externText external ++ (t ++ (List.replicate n (op ";") ++ u)))

inductive PrintingAST : AST → List Token → Prop
  | module {name imports global n t} : PrintingGlobal imports global t →
      PrintingAST ⟨name, imports, global⟩
        (keyword "module" :: ⟨.identifier, name⟩ :: op ";" :: (List.replicate n (op ";") ++ t))
  | main {imports global t} : PrintingGlobal imports global t → PrintingAST ⟨"main", imports, global⟩ t

theorem PrintingGlobal.head {imports : List String} {global : List (Decl Block)} {text : List Token}
    (h : PrintingGlobal imports global text) :
    text.head? ≠ some (op ";") ∧ text.head? ≠ some (keyword "module") := by
  cases h with
  | nil => simp
  | imprt => simp [op, keyword]
  | @decl external decl _ _ n t u hdecl _ =>
    have hread : DeclRead parseFuncBody external [] decl t := declRead_of_printing readsBodies_parseFuncBody hdecl
    obtain ⟨first, ts, hfirst, hmem⟩ := head_declared hread
    rw [← List.append_assoc, hfirst]
    constructor <;> intro h <;> cases h <;> simp at hmem

/-! ## Modules are read from their texts -/

/-- The loop has appended to the tree that it started with. -/
def AST.extend (ast : AST) (imports : List String) (global : List (Decl Block)) : AST :=
  { ast with imports := ast.imports ++ imports, global := ast.global ++ global }

section

variable {text rest : List Token} {ast ast' : AST}

theorem sound_global (h : Loops globalStep rest ast text ast') :
    rest = [] ∧ ∃ imports global, ast' = ast.extend imports global ∧ PrintingGlobal imports global text := by
  induction h with
  | @leave ast text ast' hleave =>
    obtain ⟨rfl, rfl, rfl⟩ := yields_globalStep_leave.mp hleave
    exact ⟨rfl, [], [], by simp [AST.extend], .nil⟩
  | @next ast ast' t u last hnext _ ih =>
    obtain ⟨rfl, imports, global, rfl, hglobal⟩ := ih
    rcases yields_globalStep_next.mp hnext with ⟨t, rfl, himport⟩ | hdeclare
    · obtain ⟨name, n, rfl, -, rfl⟩ := yields_parseImport.mp himport
      exact ⟨rfl, name :: imports, global, by simp [AST.extend], .imprt hglobal⟩
    · obtain ⟨external, decl, t, n, rfl, hdecl, -, rfl⟩ := yields_parseGlobal.mp hdeclare
      refine ⟨rfl, imports, decl :: global, by simp [AST.extend], ?_⟩
      rw [List.append_assoc, List.append_assoc]
      exact .decl (sound_decl readsBodies_parseFuncBody hdecl) hglobal

theorem loops_global {imports : List String} {global : List (Decl Block)} (h : PrintingGlobal imports global text) :
    Loops globalStep [] ast text (ast.extend imports global) := by
  induction h generalizing ast with
  | nil => exact .leave (yields_globalStep_leave.mpr ⟨rfl, rfl, by simp [AST.extend]⟩)
  | @imprt name imports global n t hglobal ih =>
    have hhead : (t ++ []).head? ≠ some (op ";") := by
      rw [List.append_nil]
      exact hglobal.head.1
    have himport : (parseImport ast).Yields (⟨.identifier, name⟩ :: op ";" :: List.replicate n (op ";"))
        (ast.extend [name] []) (t ++ []) :=
      yields_parseImport.mpr ⟨name, n, rfl, hhead, by simp [AST.extend]⟩
    have hnext := yields_globalStep_next.mpr (.inl ⟨_, rfl, himport⟩)
    have hlast : (ast.extend [name] []).extend imports global = ast.extend (name :: imports) global := by
      simp [AST.extend]
    exact .next hnext (hlast ▸ ih)
  | @decl external decl imports global n t u hdecl hglobal ih =>
    have hhead : (u ++ []).head? ≠ some (op ";") := by
      rw [List.append_nil]
      exact hglobal.head.1
    have hdeclare : (parseGlobal ast).Yields (externText external ++ (t ++ List.replicate n (op ";")))
        (ast.extend [] [decl]) (u ++ []) :=
      yields_parseGlobal.mpr ⟨external, decl, t, n, rfl, declRead_of_printing readsBodies_parseFuncBody hdecl, hhead,
        by simp [AST.extend]⟩
    have hlast : (ast.extend [] [decl]).extend imports global = ast.extend imports (decl :: global) := by
      simp [AST.extend]
    rw [← List.append_assoc t, ← List.append_assoc]
    exact .next (yields_globalStep_next.mpr (.inr hdeclare)) (hlast ▸ ih)

theorem yields_parseModule {name : String} : parseModule.Yields text name rest ↔
    (∃ n, text = keyword "module" :: ⟨.identifier, name⟩ :: op ";" :: List.replicate n (op ";") ∧
      rest.head? ≠ some (op ";")) ∨ text = [] ∧ name = "main" ∧ rest.head? ≠ some (keyword "module") := by
  rw [parseModule, checkKeyword, yields_ifCheck]
  simp only [yields_bind, expectID, yields_expect, expectOp, yields_expectView, yields_extraSemi, yields_pure]
  constructor
  · rintro (⟨_, rfl, _, _, name, rfl, rfl, _, _, _, rfl, rfl, _, _, _, rfl, ⟨n, rfl, hhead⟩, rfl, rfl⟩ |
      ⟨hhead, rfl, rfl⟩)
    · rw [List.append_nil]
      exact .inl ⟨n, rfl, hhead⟩
    · exact .inr ⟨rfl, rfl, hhead⟩
  · rintro (⟨n, rfl, hhead⟩ | ⟨rfl, rfl, hhead⟩)
    · exact .inl ⟨_, rfl, [_], _, name, rfl, rfl, [_], _, (), rfl, rfl, _, [], (), (List.append_nil _).symm,
        ⟨n, rfl, hhead⟩, rfl, rfl⟩
    · exact .inr ⟨hhead, rfl, rfl⟩

theorem yields_createAST : createAST.Yields text ast rest ↔ rest = [] ∧ PrintingAST ast text := by
  simp only [createAST, yields_bind, yields_loop]
  constructor
  · rintro ⟨t, u, name, rfl, hmodule, hloops⟩
    obtain ⟨rfl, imports, global, rfl, hglobal⟩ := sound_global hloops
    refine ⟨rfl, ?_⟩
    rcases yields_parseModule.mp hmodule with ⟨n, rfl, -⟩ | ⟨rfl, rfl, -⟩
    · exact .module hglobal
    · exact .main hglobal
  · rintro ⟨rfl, h⟩
    cases h with
    | @module name imports global n t hglobal =>
      refine ⟨_, t, name, rfl, yields_parseModule.mpr (.inl ⟨n, rfl, ?_⟩), loops_global hglobal⟩
      rw [List.append_nil]
      exact hglobal.head.1
    | @main imports global t hglobal =>
      refine ⟨[], text, "main", rfl, yields_parseModule.mpr (.inr ⟨rfl, rfl, ?_⟩), loops_global hglobal⟩
      rw [List.append_nil]
      exact hglobal.head.2

/-- The parser accepts the texts of the grammar and no others, up to the last token, and no text has two trees. -/
theorem createAST_grammar :
    (∀ (ts : List Token) (ast : AST) (rest : List Token),
      createAST.run ts = .ok (ast, rest) ↔ rest = [] ∧ PrintingAST ast ts) ∧
    ∀ (ts : List Token) (ast ast' : AST), PrintingAST ast ts → PrintingAST ast' ts → ast = ast' := by
  have hrun (ts : List Token) (ast : AST) (rest : List Token) :
      createAST.run ts = .ok (ast, rest) ↔ rest = [] ∧ PrintingAST ast ts := by
    rw [run_eq_ok]
    constructor
    · rintro ⟨text, rfl, h⟩
      obtain ⟨rfl, hprinting⟩ := yields_createAST.mp h
      rw [List.append_nil]
      exact ⟨rfl, hprinting⟩
    · rintro ⟨rfl, h⟩
      exact ⟨ts, (List.append_nil ts).symm, yields_createAST.mpr ⟨rfl, h⟩⟩
  refine ⟨hrun, fun ts ast ast' h h' ↦ ?_⟩
  have heq := ((hrun ts ast []).mpr ⟨rfl, h⟩).symm.trans ((hrun ts ast' []).mpr ⟨rfl, h'⟩)
  cases heq
  rfl

end

end Stela.Syntax.ParseStat
