import Stela.CodeGen.FullExpressions
import Stela.Semantic.Traverse
import Stela.Library.Except

/-!
# The full expressions of an accepted program

Where the analysis of a program gets the expressions from that the generator evaluates. A property of full
expressions that holds wherever one is inferred holds throughout a program: the missing-return check only adds
statements without expressions, and lowering only rebuilds assignments.
-/

namespace Stela.CodeGen.ProgramUses

open Stela.Syntax Semantic Semantic.InferType Semantic.Traverse LowerExpressions Library.Except

section Uses

variable {P : Use → AExpr → Prop}

/-- The property holds of every full expression of the list. -/
def AllUses (P : Use → AExpr → Prop) (uses : List (Use × AExpr)) : Prop :=
  ∀ use expr, (use, expr) ∈ uses → P use expr

theorem allUses_nil : AllUses P [] := nofun

theorem allUses_cons {use : Use} {expr : AExpr} {uses : List (Use × AExpr)} :
    AllUses P ((use, expr) :: uses) ↔ P use expr ∧ AllUses P uses := by
  constructor
  · intro h
    exact ⟨h use expr List.mem_cons_self, fun use' expr' hmem ↦ h use' expr' (List.mem_cons_of_mem _ hmem)⟩
  · rintro ⟨hexpr, huses⟩ use' expr' hmem
    rcases List.mem_cons.mp hmem with heq | hmem
    · cases heq
      exact hexpr
    · exact huses use' expr' hmem

theorem allUses_append {us vs : List (Use × AExpr)} : AllUses P (us ++ vs) ↔ AllUses P us ∧ AllUses P vs := by
  constructor
  · intro h
    exact ⟨fun use expr hmem ↦ h use expr (List.mem_append_left vs hmem),
      fun use expr hmem ↦ h use expr (List.mem_append_right us hmem)⟩
  · rintro ⟨hus, hvs⟩ use expr hmem
    rcases List.mem_append.mp hmem with hmem | hmem
    · exact hus use expr hmem
    · exact hvs use expr hmem

/-- The property holds wherever the analysis infers a full expression. -/
structure Inferred (P : Use → AExpr → Prop) : Prop where
  cond : ∀ {expr : Expr} {expr' : AExpr}, visitCond expr = .ok expr' → P .cond expr'
  init : ∀ {type : Option Ty} {expr : Expr} {type' : Ty} {expr' : AExpr}, initType type expr = .ok (type', expr') →
    P (.init type') expr' ∧ P .global expr'
  asgn : ∀ {asgn : Asgn Expr} {asgn' : Asgn AExpr}, visitAsgn asgn = .ok asgn' →
    AllUses P (asgnUses (lowerAsgn asgn'))
  swich : ∀ {expr : Expr} {expr' : AExpr} {etype : ExprType}, getExprType expr none = .ok (expr', etype) →
    P .swich expr'
  other : ∀ {expr : Expr} {type : Option Ty} {expr' : AExpr} {etype : ExprType},
    getExprType expr type = .ok (expr', etype) → P .case expr' ∧ P .ret expr'

theorem visitDecl_uses (hP : Inferred P) : {decl : Decl Expr} → {decl' : Decl AExpr} → visitDecl decl = .ok decl' →
    AllUses P (declUses decl') ∧ AllUses P (globalUses decl')
  | .var name type none, _, h => by
    simp only [visitDecl, bind_eq_ok] at h
    obtain ⟨type', -, h⟩ := h
    cases h
    exact ⟨allUses_nil, allUses_nil⟩
  | .var name type (some expr), _, h | .let_ name type expr, _, h => by
    simp only [visitDecl, bind_eq_ok] at h
    obtain ⟨⟨type', expr'⟩, hinit, h⟩ := h
    cases h
    obtain ⟨hlocal, hglobal⟩ := hP.init hinit
    exact ⟨allUses_cons.mpr ⟨hlocal, allUses_nil⟩, allUses_cons.mpr ⟨hglobal, allUses_nil⟩⟩
  | .typeAlias name type strong, _, h => by
    simp only [visitDecl, bind_eq_ok] at h
    obtain ⟨_, -, h⟩ := h
    cases h
    exact ⟨allUses_nil, allUses_nil⟩

theorem visitOptAsgn_uses (hP : Inferred P) {asgn : Option (Asgn Expr)} {asgn' : Option (Asgn AExpr)}
    (h : visitOptAsgn asgn = .ok asgn') : AllUses P (optAsgnUses (asgn'.map lowerAsgn)) := by
  cases asgn with
  | none =>
    cases h
    exact allUses_nil
  | some asgn =>
    obtain ⟨asgn'', hasgn, h⟩ := bind_eq_ok.mp h
    cases h
    exact hP.asgn hasgn

theorem visitReturn_uses (hP : Inferred P) {expr : Option Expr} {retType : Option Ty} {expr' : Option AExpr}
    {retType' : Ty} (h : visitReturn expr retType = .ok (expr', retType')) : AllUses P (optUse .ret expr') := by
  cases expr with
  | none => cases retType with
    | none =>
      cases h
      exact allUses_nil
    | some retType =>
      obtain ⟨_, -, h⟩ := bind_eq_ok.mp h
      cases h
      exact allUses_nil
  | some expr => cases retType with
    | none | some retType =>
      obtain ⟨⟨expr'', etype⟩, hexpr, h⟩ := bind_eq_ok.mp h
      cases h
      exact allUses_cons.mpr ⟨(hP.other hexpr).2, allUses_nil⟩

mutual

/-- The full expressions of an analysed statement, once it is lowered. -/
theorem visit_uses (hP : Inferred P) : (stat : Stat Expr) → (flow : Bool) → (retType : Option Ty) → (stat' : Stat AExpr) →
    (retType' : Option Ty) → Traverse.visit stat flow retType = .ok (stat', retType') →
    AllUses P (statUses (lower stat'))
  | .block nodes, _, _, _, _, h => by
    simp only [Traverse.visit, bind_eq_ok] at h
    obtain ⟨⟨nodes', retType'⟩, hnodes, h⟩ := h
    cases h
    exact visitNodes_uses hP nodes _ _ _ _ hnodes
  | .fi cond body none, _, _, _, _, h => by
    simp only [Traverse.visit, bind_eq_ok] at h
    obtain ⟨cond', hcond, ⟨body', retType'⟩, hbody, h⟩ := h
    cases h
    exact allUses_cons.mpr ⟨hP.cond hcond, visit_uses hP body _ _ _ _ hbody⟩
  | .fi cond body (some elseBody), _, _, _, _, h => by
    simp only [Traverse.visit, bind_eq_ok] at h
    obtain ⟨cond', hcond, ⟨body', retType'⟩, hbody, ⟨elseBody', retType''⟩, helse, h⟩ := h
    cases h
    exact allUses_cons.mpr ⟨hP.cond hcond,
      allUses_append.mpr ⟨visit_uses hP body _ _ _ _ hbody, visit_uses hP elseBody _ _ _ _ helse⟩⟩
  | .swich expr cases alwaysReturns, _, _, _, _, h => by
    simp only [Traverse.visit, bind_eq_ok] at h
    obtain ⟨⟨expr', etype⟩, hexpr, ⟨cases', retType'⟩, hcases, h⟩ := h
    cases h
    exact allUses_cons.mpr ⟨hP.swich hexpr, visitCases_uses hP cases _ _ _ _ _ hcases⟩
  | .terminate, _, _, _, _, h => by
    cases h
    exact allUses_nil
  | .brake, _, _, _, _, h | .continu, _, _, _, _, h => by
    simp only [Traverse.visit, bind_eq_ok] at h
    obtain ⟨_, -, h⟩ := h
    cases h
    exact allUses_nil
  | .ret expr, _, _, _, _, h => by
    simp only [Traverse.visit, bind_eq_ok] at h
    obtain ⟨⟨expr', retType'⟩, hexpr, h⟩ := h
    cases h
    exact visitReturn_uses hP hexpr
  | .wile cond body, _, _, _, _, h => by
    simp only [Traverse.visit, bind_eq_ok] at h
    obtain ⟨cond', hcond, ⟨body', retType'⟩, hbody, h⟩ := h
    cases h
    exact allUses_cons.mpr ⟨hP.cond hcond, visit_uses hP body _ _ _ _ hbody⟩
  | .four init cond incr body, _, _, _, _, h => by
    simp only [Traverse.visit, bind_eq_ok] at h
    obtain ⟨init', hinit, cond', hcond, incr', hincr, ⟨body', retType'⟩, hbody, h⟩ := h
    cases h
    exact allUses_append.mpr ⟨visitOptAsgn_uses hP hinit, allUses_cons.mpr ⟨hP.cond hcond,
      allUses_append.mpr ⟨visitOptAsgn_uses hP hincr, visit_uses hP body _ _ _ _ hbody⟩⟩⟩
  | .decl decl, _, _, _, _, h => by
    simp only [Traverse.visit, bind_eq_ok] at h
    obtain ⟨decl', hdecl, h⟩ := h
    cases h
    exact (visitDecl_uses hP hdecl).1
  | .asgn asgn, _, _, _, _, h => by
    simp only [Traverse.visit, bind_eq_ok] at h
    obtain ⟨asgn', hasgn, h⟩ := h
    cases h
    exact hP.asgn hasgn

theorem visitNodes_uses (hP : Inferred P) : (nodes : List (Stat Expr)) → (flow : Bool) → (retType : Option Ty) →
    (nodes' : List (Stat AExpr)) → (retType' : Option Ty) →
    Traverse.visitNodes nodes flow retType = .ok (nodes', retType') → AllUses P (nodesUses (lowerNodes nodes'))
  | [], _, _, _, _, h => by
    cases h
    exact allUses_nil
  | node :: nodes, _, _, _, _, h => by
    simp only [Traverse.visitNodes, bind_eq_ok] at h
    obtain ⟨⟨node', retType'⟩, hnode, ⟨nodes', retType''⟩, hnodes, h⟩ := h
    cases h
    exact allUses_append.mpr ⟨visit_uses hP node _ _ _ _ hnode, visitNodes_uses hP nodes _ _ _ _ hnodes⟩

theorem visitCases_uses (hP : Inferred P) : (cases : List (SwitchCase Expr)) → (type : Ty) → (foundDef : Bool) →
    (retType : Option Ty) → (cases' : List (SwitchCase AExpr)) → (retType' : Option Ty) →
    Traverse.visitCases cases type foundDef retType = .ok (cases', retType') →
    AllUses P (casesUses (lowerCases cases'))
  | [], _, _, _, _, _, h => by
    cases h
    exact allUses_nil
  | .mk (some expr) body :: cases, type, _, _, _, _, h => by
    simp only [Traverse.visitCases, bind_eq_ok] at h
    obtain ⟨⟨expr', etype⟩, hexpr, ⟨body', retType'⟩, hbody, ⟨cases', retType''⟩, hcases, h⟩ := h
    cases h
    exact allUses_append.mpr ⟨allUses_cons.mpr ⟨(hP.other hexpr).1, allUses_nil⟩,
      allUses_append.mpr ⟨visit_uses hP body _ _ _ _ hbody, visitCases_uses hP cases _ _ _ _ _ hcases⟩⟩
  | .mk none body :: cases, _, _, _, _, _, h => by
    simp only [Traverse.visitCases, bind_eq_ok] at h
    obtain ⟨_, -, ⟨body', retType'⟩, hbody, ⟨cases', retType''⟩, hcases, h⟩ := h
    cases h
    exact allUses_append.mpr ⟨allUses_nil,
      allUses_append.mpr ⟨visit_uses hP body _ _ _ _ hbody, visitCases_uses hP cases _ _ _ _ _ hcases⟩⟩

end

end Uses

/-! ## Bodies and programs -/

theorem nodesUses_append (nodes : List (Stat AExpr)) (stat : Stat AExpr) (h : statUses (lower stat) = []) :
    nodesUses (lowerNodes (nodes ++ [stat])) = nodesUses (lowerNodes nodes) := by
  induction nodes with
  | nil => simp [lowerNodes, nodesUses, h]
  | cons node nodes ih => simp [lowerNodes, nodesUses, ih]

theorem nodesUses_leaveBlock (nodes : List (Stat AExpr)) (scan : CheckMissingReturn.Scan) :
    nodesUses (lowerNodes (CheckMissingReturn.leaveBlock nodes scan).1) = nodesUses (lowerNodes nodes) := by
  simp only [CheckMissingReturn.leaveBlock]
  generalize (if scan.maybeLeave then CheckMissingReturn.Occurs.maybe else scan.state.occurs) = occurs
  split
  · exact nodesUses_append nodes .terminate rfl
  · rfl

mutual

/-- The missing-return check does not touch the expressions. -/
theorem uses_checkStat : (stat : Stat AExpr) → (state : CheckMissingReturn.State) → (stat' : Stat AExpr) →
    (state' : CheckMissingReturn.State) → CheckMissingReturn.visit stat state = .ok (stat', state') →
    statUses (lower stat') = statUses (lower stat)
  | .block nodes, _, _, _, h => by
    simp only [CheckMissingReturn.visit, bind_eq_ok] at h
    obtain ⟨⟨nodes', scan⟩, hnodes, h⟩ := h
    cases h
    exact (nodesUses_leaveBlock nodes' scan).trans (uses_checkNodes nodes _ _ _ hnodes)
  | .fi cond body none, _, _, _, h => by
    simp only [CheckMissingReturn.visit, bind_eq_ok] at h
    obtain ⟨⟨body', troo⟩, hbody, h⟩ := h
    cases h
    simp [lower, statUses, uses_checkStat body _ _ _ hbody]
  | .fi cond body (some elseBody), _, _, _, h => by
    simp only [CheckMissingReturn.visit, bind_eq_ok] at h
    obtain ⟨⟨body', troo⟩, hbody, ⟨elseBody', fols⟩, helse, h⟩ := h
    cases h
    simp [lower, statUses, uses_checkStat body _ _ _ hbody, uses_checkStat elseBody _ _ _ helse]
  | .swich expr cases _, _, _, _, h => by
    simp only [CheckMissingReturn.visit, bind_eq_ok] at h
    obtain ⟨⟨cases', tally⟩, hcases, h⟩ := h
    cases h
    simp [lower, statUses, uses_checkCases cases _ _ _ _ hcases]
  | .wile cond body, _, _, _, h | .four _ cond _ body, _, _, _, h => by
    simp only [CheckMissingReturn.visit, bind_eq_ok] at h
    obtain ⟨⟨body', state⟩, hbody, h⟩ := h
    cases h
    simp [lower, statUses, uses_checkStat body _ _ _ hbody]
  | .brake, _, _, _, h | .continu, _, _, _, h | .ret _, _, _, _, h | .terminate, _, _, _, h
  | .decl _, _, _, _, h | .asgn _, _, _, _, h => by
    cases h
    rfl

theorem uses_checkNodes : (nodes : List (Stat AExpr)) → (scan : CheckMissingReturn.Scan) →
    (nodes' : List (Stat AExpr)) → (scan' : CheckMissingReturn.Scan) →
    CheckMissingReturn.visitNodes nodes scan = .ok (nodes', scan') →
    nodesUses (lowerNodes nodes') = nodesUses (lowerNodes nodes)
  | [], _, _, _, h => by
    cases h
    rfl
  | node :: nodes, _, _, _, h => by
    simp only [CheckMissingReturn.visitNodes, bind_eq_ok, ite_error_eq_ok] at h
    obtain ⟨⟨node', state⟩, hnode, -, ⟨nodes', scan⟩, hnodes, h⟩ := h
    cases h
    simp [lowerNodes, nodesUses, uses_checkStat node _ _ _ hnode, uses_checkNodes nodes _ _ _ hnodes]

theorem uses_checkCases : (cases : List (SwitchCase AExpr)) → (state : CheckMissingReturn.State) →
    (tally : CheckMissingReturn.Tally) → (cases' : List (SwitchCase AExpr)) → (tally' : CheckMissingReturn.Tally) →
    CheckMissingReturn.visitCases cases state tally = .ok (cases', tally') →
    casesUses (lowerCases cases') = casesUses (lowerCases cases)
  | [], _, _, _, _, h => by
    cases h
    rfl
  | .mk expr body :: cases, _, _, _, _, h => by
    simp only [CheckMissingReturn.visitCases, bind_eq_ok, ite_error_eq_ok] at h
    obtain ⟨⟨body', state⟩, hbody, -, ⟨cases', tally⟩, hcases, h⟩ := h
    cases h
    simp [lowerCases, casesUses, uses_checkStat body _ _ _ hbody, uses_checkCases cases _ _ _ _ hcases]

end

theorem nodesUses_appendReturn (nodes : List (Stat AExpr)) :
    nodesUses (lowerNodes (CheckMissingReturn.appendReturn nodes)) = nodesUses (lowerNodes nodes) := by
  unfold CheckMissingReturn.appendReturn
  split
  · rename_i hlast
    rw [nodesUses_append _ _ rfl, ← nodesUses_append nodes.dropLast .terminate rfl,
      List.dropLast_append_getLast? _ hlast]
  · exact nodesUses_append nodes _ rfl

theorem uses_checkMissingRet {nodes nodes' : List (Stat AExpr)} {ret : Ty}
    (h : CheckMissingReturn.checkMissingRet nodes ret = .ok nodes') :
    nodesUses (lowerNodes nodes') = nodesUses (lowerNodes nodes) := by
  simp only [CheckMissingReturn.checkMissingRet, bind_eq_ok] at h
  obtain ⟨⟨checked, scan⟩, hnodes, h⟩ := h
  have hleft := (nodesUses_leaveBlock checked scan).trans (uses_checkNodes nodes _ _ _ hnodes)
  split at h
  · cases h
    exact (nodesUses_appendReturn _).trans hleft
  · simp only [ite_error_eq_ok] at h
    cases h.2.2
    exact hleft

theorem visitBody_uses {P : Use → AExpr → Prop} (hP : Inferred P) {body : Body Expr} {body' : Body AExpr}
    (h : visitBody body = .ok body') : AllUses P (nodesUses (lowerNodes body'.nodes)) := by
  simp only [visitBody, bind_eq_ok] at h
  obtain ⟨⟨nodes, retType⟩, hnodes, h⟩ := h
  split at h
  · cases h
  · rename_i hcheck
    cases h
    rw [uses_checkMissingRet hcheck]
    exact visitNodes_uses hP _ _ _ _ _ hnodes

/-- The property holds of the full expressions of a program: the initialisers of its globals, and those of its
lowered bodies. -/
def AllProgramUses (P : Use → AExpr → Prop) (program : Program AExpr) : Prop :=
  (∀ decl ∈ program.globals, AllUses P (globalUses decl)) ∧
    ∀ body ∈ program.bodies, AllUses P (nodesUses (lowerNodes body.nodes))

theorem AllProgramUses.mono {P Q : Use → AExpr → Prop} {program : Program AExpr} (h : AllProgramUses P program)
    (himp : ∀ use expr, P use expr → Q use expr) : AllProgramUses Q program :=
  ⟨fun decl hdecl use expr hmem ↦ himp use expr (h.1 decl hdecl use expr hmem),
    fun body hbody use expr hmem ↦ himp use expr (h.2 body hbody use expr hmem)⟩

theorem AllProgramUses.and {P Q : Use → AExpr → Prop} {program : Program AExpr} (h : AllProgramUses P program)
    (h' : AllProgramUses Q program) : AllProgramUses (fun use expr ↦ P use expr ∧ Q use expr) program :=
  ⟨fun decl hdecl use expr hmem ↦ ⟨h.1 decl hdecl use expr hmem, h'.1 decl hdecl use expr hmem⟩,
    fun body hbody use expr hmem ↦ ⟨h.2 body hbody use expr hmem, h'.2 body hbody use expr hmem⟩⟩

theorem traverse_uses {P : Use → AExpr → Prop} (hP : Inferred P) {program : Program Expr} {analysed : Program AExpr}
    (h : Traverse.traverse program = .ok analysed) : AllProgramUses P analysed := by
  simp only [Traverse.traverse, bind_eq_ok] at h
  obtain ⟨globals, hglobals, bodies, hbodies, h⟩ := h
  cases h
  constructor
  · intro decl' hdecl'
    obtain ⟨decl, -, hdecl⟩ := exists_of_mem_mapM hglobals decl' hdecl'
    exact (visitDecl_uses hP hdecl).2
  · intro body' hbody'
    obtain ⟨body, -, hbody⟩ := exists_of_mem_mapM hbodies body' hbody'
    exact visitBody_uses hP hbody

end Stela.CodeGen.ProgramUses
