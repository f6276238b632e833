import Stela.CodeGen.StatBlocks
import Stela.CodeGen.Terminators
import Stela.Library.Triple

/-!
# The terminators of a body

Statements are put into blocks one after the other. After some of them the current block has its terminator; nothing
may be appended then. So a body is well formed exactly if every statement that appends something is put into an open
block, its expressions are linked, and every branch has a block to go to. The tests below are on the code of
statements; they follow the control flow of the statements, not the blocks.
-/

namespace Stela.CodeGen.StatBlocks

open Stela.Syntax Stela.Library Stela.Library.ControlFlow
open Blocks (FuncBuilder Value Const Oper emit tree)

/-! ## Tests on code -/

def linked (code : Code) (result : Bool) : Bool :=
  (tree code result).linked

def emits (code : Code) (result : Bool) : Bool :=
  (tree code result).emits

def checksLinked (checks : List (Option CheckCode)) : Bool :=
  checks.all fun check ↦ check.all fun check ↦ linked check.init.code true

namespace AsgnCode

def linked : AsgnCode → Bool
  | .var _ none | .none => true
  | .var _ (some init) => StatBlocks.linked init.code true
  | .assign _ _ dst src => StatBlocks.linked dst false && StatBlocks.linked src.code false
  | .call call => StatBlocks.linked call.code false

/-- The assignment appends something. -/
def touches : AsgnCode → Bool
  | .var _ none | .assign _ _ _ _ => true
  | .var _ (some init) => emits init.code true || destroys init.dtors
  | .call call => emits call.code false || destroys call.dtors
  | .none => false

end AsgnCode

mutual

/-- The current block has its terminator after the statement. -/
def closes : StatCode → Bool
  | .block nodes => closesNodes nodes
  | .fi _ body (some elseBody) => closes body && closes elseBody
  | .swich _ _ checks _ alwaysReturns _ => !checks.isEmpty && alwaysReturns
  | .brake _ | .continu _ | .ret _ _ => true
  | .fi _ _ none | .terminate _ | .wile _ _ | .four _ _ _ _ _ | .asgn _ => false

def closesNodes : List StatCode → Bool
  | [] => false
  | node :: nodes => closes node || closesNodes nodes

end

mutual

/-- The statement appends something to the block in which it starts. -/
def touches : StatCode → Bool
  | .block nodes => touchesNodes nodes
  | .swich _ value checks _ _ dtors => !checks.isEmpty || emits value true || destroys dtors
  | .terminate dtors => destroys dtors
  | .asgn code => AsgnCode.touches code
  | .fi _ _ _ | .brake _ | .continu _ | .ret _ _ | .wile _ _ | .four _ _ _ _ _ => true

def touchesNodes : List StatCode → Bool
  | [] => false
  | node :: nodes => touches node || touchesNodes nodes

end

mutual

/-- The statement is well formed in an open block, given whether there are blocks to break and to continue to. -/
def fits : StatCode → Bool → Bool → Bool
  | .block nodes, breaks, continues => fitsNodes nodes breaks continues false
  | .fi cond body none, breaks, continues => linked cond.code false && fits body breaks continues
  | .fi cond body (some elseBody), breaks, continues =>
      linked cond.code false && (fits body breaks continues && fits elseBody breaks continues)
  | .swich _ value checks bodies _ _, _, _ =>
      linked value true && (checksLinked checks && fitsBodies bodies)
  | .terminate _, _, _ => true
  | .brake _, breaks, _ => breaks
  | .continu _, _, continues => continues
  | .ret value _, _, _ => value.all fun value ↦ linked value.2 (!isTriviallyCopyable value.1)
  | .wile cond body, _, _ => fits body true true && linked cond.code false
  | .four init cond incr body _, _, _ =>
      AsgnCode.linked init && (fits body true true && (linked cond.code false && AsgnCode.linked incr))
  | .asgn code, _, _ => AsgnCode.linked code

/-- The statements are well formed, in an open block or in one that has its terminator. -/
def fitsNodes : List StatCode → Bool → Bool → Bool → Bool
  | [], _, _, _ => true
  | node :: nodes, breaks, continues, closed =>
      (if closed then !touches node else fits node breaks continues) &&
        fitsNodes nodes breaks continues (closed || closes node)

/-- The last case has no case to continue to. -/
def fitsBodies : List StatCode → Bool
  | [] => true
  | body :: bodies => fits body true (!bodies.isEmpty) && fitsBodies bodies

end

mutual

/-- Every case has a body, and a switch has at most one default case. -/
def regular : StatCode → Bool
  | .block nodes => regularNodes nodes
  | .fi _ body none => regular body
  | .fi _ body (some elseBody) => regular body && regular elseBody
  | .swich _ _ checks bodies _ _ =>
      checks.length == bodies.length && (checks.countP Option.isNone ≤ 1 && regularNodes bodies)
  | .wile _ body | .four _ _ _ body _ => regular body
  | .terminate _ | .brake _ | .continu _ | .ret _ _ | .asgn _ => true

def regularNodes : List StatCode → Bool
  | [] => true
  | node :: nodes => regular node && regularNodes nodes

end

/-! ## States -/

/-- No assertion has failed, and the open blocks are as told. -/
def Tidy (pending : List ℕ) (closed : Bool) (s : State) : Prop :=
  s.failed = false ∧ s.builder.Tidy pending closed

/-- An assertion has failed, or some block has an instruction after a terminator. -/
def Bad (s : State) : Prop :=
  s.failed = true ∨ Doubled s.builder.blocks

/-- The current block has its terminator. -/
def Stuck (s : State) : Prop :=
  Closed (s.builder.blocks s.builder.curr)

theorem Tidy.perm {pending pending' : List ℕ} {closed : Bool} {s : State} (h : Tidy pending closed s)
    (hperm : pending.Perm pending') : Tidy pending' closed s :=
  ⟨h.1, h.2.perm hperm⟩

theorem Tidy.stuck {pending : List ℕ} {s : State} (h : Tidy pending true s) : Stuck s :=
  h.2.closedCurr rfl

/-- What is bad stays so. -/
abbrev Keeps {α : Type} (g : Gen α) : Prop := Triple Bad g fun _ ↦ Bad

/-- The outcome of a computation of which a test tells whether it goes well. -/
def Outcome (ok : Bool) (P : State → Prop) (s : State) : Prop :=
  if ok then P s else Bad s

/-- One computation after another; what goes wrong first stays wrong. -/
theorem run_seq {α β : Type} {P : State → Prop} {Q : α → State → Prop} {R : β → State → Prop} {ok ok' : Bool} {g : Gen α}
    {f : α → Gen β} (h : Triple P g fun a ↦ Outcome ok (Q a)) (h' : ∀ a, Triple (Q a) (f a) fun r ↦ Outcome ok' (R r))
    (hkeeps : ∀ a, Keeps (f a)) : Triple P (g >>= f) fun r ↦ Outcome (ok && ok') (R r) := by
  refine h.bind fun a ↦ ?_
  cases ok with
  | true => exact h' a
  | false => exact hkeeps a

/-- A step before one after which the state is bad anyway. -/
theorem bad_after {α β : Type} {P : State → Prop} {Q : α → State → Prop} {ok : Bool} {g : Gen α} {f : α → Gen β}
    (h : Triple P g fun a ↦ Outcome ok (Q a)) (h' : ∀ a, Triple (Q a) (f a) fun _ ↦ Bad) (hkeeps : ∀ a, Keeps (f a)) :
    Triple P (g >>= f) fun _ ↦ Bad := by
  refine h.bind fun a ↦ ?_
  cases ok with
  | true => exact h' a
  | false => exact hkeeps a

theorem keeps_bind {α β : Type} {g : Gen α} {f : α → Gen β} (h : Keeps g) (h' : ∀ a, Keeps (f a)) : Keeps (g >>= f) :=
  h.bind h'

theorem keeps_pure {α : Type} (a : α) : Keeps (pure a) := Triple.pure a fun _ ↦ id

/-- A computation on the builder that only appends. -/
theorem keeps_lift {α : Type} {g : Blocks.Gen α} (h : Blocks.Grows g) : Keeps (lift g) :=
  fun s hs ↦ hs.imp_right fun hdoubled ↦ hdoubled.mono (h s.builder)

theorem triple_lift {α : Type} {g : Blocks.Gen α} {pending : List ℕ} {closed : Bool} {pending' : α → List ℕ} {closed' : Bool}
    (h : ∀ b : FuncBuilder, b.Tidy pending closed → (g.run b).2.Tidy (pending' (g.run b).1) closed') :
    Triple (Tidy pending closed) (lift g) fun a ↦ Tidy (pending' a) closed' :=
  fun s hs ↦ ⟨hs.1, h s.builder hs.2⟩

/-- Something is appended to a block that has its terminator. -/
theorem bad_of_touched {s s' : State} (h : Stuck s) (htouched : Blocks.Touched s.builder s'.builder) : Bad s' := by
  obtain ⟨i, hi⟩ := htouched
  exact .inr (Closed.doubled h hi)

theorem triple_stuck {α : Type} {g : Blocks.Gen α} (h : ∀ b, Blocks.Touched b (g.run b).2) :
    Triple Stuck (lift g) fun _ ↦ Bad :=
  fun s hs ↦ bad_of_touched hs (h s.builder)

/-! ## The steps of the generator -/

theorem keeps_setCurr (block : ℕ) : Keeps (setCurr block) := keeps_lift (Blocks.grows_setCurr block)
theorem keeps_makeBlock : Keeps makeBlock := keeps_lift Blocks.grows_makeBlock
theorem keeps_create (i : Inst Oper Const) : Keeps (create i) := keeps_lift (Blocks.grows_create i)
theorem keeps_createOp (oper : Oper) (args : List Value) : Keeps (createOp oper args) :=
  keeps_lift (Blocks.grows_createOp oper args)
theorem keeps_link (source dest : ℕ) : Keeps (link source dest) := keeps_lift (Blocks.grows_link source dest)
theorem keeps_nextEmpty : Keeps nextEmpty := keeps_lift Blocks.grows_nextEmpty
theorem keeps_genExpr (code : Code) (result : Bool) (dst : Value) : Keeps (genExpr code result dst) :=
  keeps_lift (Blocks.grows_emit (tree code result) dst)

theorem keeps_fail : Keeps fail := fun _ _ ↦ .inl rfl

theorem keeps_makeBlocks : (n : ℕ) → Keeps (makeBlocks n)
  | 0 => Triple.get_bind fun _ hs ↦ Triple.pure _ fun _ heq ↦ heq ▸ hs
  | n + 1 => keeps_bind keeps_makeBlock fun block ↦ keeps_bind (keeps_makeBlocks n) fun _ ↦ keeps_pure block

theorem keeps_terminate (dest : ℕ) : Keeps (terminate dest) :=
  Triple.get_bind fun _ hs ↦ Triple.pre (Triple.ite (fun _ ↦ keeps_pure ()) fun _ ↦ keeps_create _) fun _ heq ↦ heq ▸ hs

theorem keeps_lazyBlock : (dest : Option ℕ) → Keeps (lazyBlock dest)
  | some dest => keeps_pure dest
  | none => keeps_makeBlock

theorem keeps_terminateLazy (dest : Option ℕ) : Keeps (terminateLazy dest) := by
  refine Triple.get_bind fun s hs ↦ Triple.pre (Triple.ite (fun _ ↦ keeps_pure dest) fun _ ↦ ?_) fun _ heq ↦ heq ▸ hs
  exact keeps_bind (keeps_lazyBlock dest) fun dest ↦ keeps_bind (keeps_create _) fun _ ↦ keeps_pure _

theorem keeps_destroy : (objs : List Object) → Keeps (destroy objs)
  | [] => keeps_pure ()
  | _ :: objs =>
    Triple.ite (fun _ ↦ keeps_bind (keeps_createOp _ _) fun _ ↦ keeps_destroy objs) fun _ ↦ keeps_destroy objs

theorem keeps_genCondBr (cond : FullCode) (troo fols : ℕ) : Keeps (genCondBr cond troo fols) :=
  keeps_bind (keeps_genExpr _ _ _) fun _ ↦ keeps_bind (keeps_destroy _) fun _ ↦ keeps_create _

theorem keeps_equalTo (value : Object) (check : CheckCode) : Keeps (equalTo value check) :=
  keeps_bind (keeps_genExpr _ _ _) fun _ ↦ keeps_bind (keeps_createOp _ _) fun _ ↦
    keeps_bind (keeps_destroy _) fun _ ↦ keeps_pure _

theorem keeps_emitAsgn : (code : AsgnCode) → Keeps (emitAsgn code)
  | .var _ none => keeps_bind (keeps_createOp _ _) fun _ ↦ keeps_pure ()
  | .var _ (some _) | .call _ => keeps_bind (keeps_genExpr _ _ _) fun _ ↦ keeps_destroy _
  | .assign _ _ _ _ => keeps_bind (keeps_genExpr _ _ _) fun _ ↦ keeps_bind (keeps_genExpr _ _ _) fun _ ↦
      keeps_bind (keeps_createOp _ _) fun _ ↦ keeps_destroy _
  | .none => keeps_pure ()

theorem keeps_emitCaseChecks (value : Object) (checkBlocks caseBlocks done size : ℕ) (defaultIndex : Option ℕ) :
    (checks : List (Option CheckCode)) → (c : ℕ) →
      Keeps (emitCaseChecks value checkBlocks caseBlocks done size defaultIndex checks c)
  | [], _ => keeps_pure ()
  | none :: checks, c => keeps_emitCaseChecks value checkBlocks caseBlocks done size defaultIndex checks (c + 1)
  | some _ :: checks, c =>
    keeps_bind (keeps_setCurr _) fun _ ↦ keeps_bind (keeps_equalTo _ _) fun _ ↦ keeps_bind (keeps_create _) fun _ ↦
      keeps_emitCaseChecks value checkBlocks caseBlocks done size defaultIndex checks (c + 1)

theorem keeps_createBr : (dest : Option ℕ) → Keeps (createBr dest)
  | some _ => keeps_create _
  | none => keeps_fail

theorem keeps_linkDefault (checkBlock caseBlocks : ℕ) : (defaultIndex : Option ℕ) →
    Keeps (linkDefault checkBlock caseBlocks defaultIndex)
  | some _ => keeps_link _ _
  | none => keeps_pure ()

theorem keeps_enterDone : (done : Option ℕ) → Keeps (enterDone done)
  | some _ => keeps_setCurr _
  | none => keeps_pure ()

theorem keeps_returnObject : (value : Option (Ty × Value)) → Keeps (returnObject value)
  | none | some _ => keeps_create _

theorem keeps_createReturnObject (retArg : ℕ) : (value : Option (Ty × Code)) → Keeps (createReturnObject retArg value)
  | none => keeps_pure none
  | some _ => keeps_bind (keeps_genExpr _ _ _) fun _ ↦ keeps_pure _

theorem keeps_emitIf (cond : FullCode) {body elseBody : Gen Unit} (hbody : Keeps body) (helse : Keeps elseBody) :
    Keeps (emitIf cond body elseBody) :=
  keeps_bind keeps_makeBlock fun _ ↦ keeps_bind keeps_makeBlock fun _ ↦ keeps_bind (keeps_genCondBr _ _ _) fun _ ↦
    keeps_bind (keeps_setCurr _) fun _ ↦ keeps_bind hbody fun _ ↦ keeps_bind (keeps_terminateLazy _) fun _ ↦
      keeps_bind (keeps_setCurr _) fun _ ↦ keeps_bind helse fun _ ↦ keeps_bind (keeps_terminateLazy _) fun _ ↦
        keeps_enterDone _

theorem keeps_emitWhile (cond : FullCode) {body : FlowData → Gen Unit} (hbody : ∀ flow, Keeps (body flow)) :
    Keeps (emitWhile cond body) :=
  keeps_bind keeps_nextEmpty fun _ ↦ keeps_bind keeps_makeBlock fun _ ↦ keeps_bind keeps_makeBlock fun _ ↦
    keeps_bind (keeps_setCurr _) fun _ ↦ keeps_bind (hbody _) fun _ ↦ keeps_bind (keeps_terminate _) fun _ ↦
      keeps_bind (keeps_setCurr _) fun _ ↦ keeps_bind (keeps_genCondBr _ _ _) fun _ ↦ keeps_setCurr _

theorem keeps_emitFor {body : FlowData → Gen Unit} (hbody : ∀ flow, Keeps (body flow)) (cond : FullCode)
    (incr : AsgnCode) (dtors : List Object) : Keeps (emitFor body cond incr dtors) :=
  keeps_bind keeps_nextEmpty fun _ ↦ keeps_bind keeps_makeBlock fun _ ↦ keeps_bind keeps_makeBlock fun _ ↦
    keeps_bind keeps_makeBlock fun _ ↦ keeps_bind (keeps_setCurr _) fun _ ↦ keeps_bind (hbody _) fun _ ↦
      keeps_bind (keeps_terminate _) fun _ ↦ keeps_bind (keeps_setCurr _) fun _ ↦
        keeps_bind (keeps_genCondBr _ _ _) fun _ ↦ keeps_bind (keeps_setCurr _) fun _ ↦
          keeps_bind (keeps_emitAsgn incr) fun _ ↦ keeps_bind (keeps_create _) fun _ ↦
            keeps_bind (keeps_setCurr _) fun _ ↦ keeps_destroy dtors

theorem keeps_emitCases (value : Object) (checks : List (Option CheckCode)) {caseBodies : ℕ → ℕ → Gen Unit}
    (hbodies : ∀ block done, Keeps (caseBodies block done)) (alwaysReturns : Bool) (dtors : List Object) :
    Keeps (emitCases value checks caseBodies alwaysReturns dtors) :=
  keeps_bind (keeps_makeBlocks _) fun _ ↦ keeps_bind (keeps_makeBlocks _) fun _ ↦ keeps_bind keeps_makeBlock fun _ ↦
    keeps_bind (keeps_create _) fun _ ↦ keeps_bind (keeps_emitCaseChecks _ _ _ _ _ _ _ _) fun _ ↦
      keeps_bind (keeps_linkDefault _ _ _) fun _ ↦ keeps_bind (hbodies _ _) fun _ ↦
        keeps_bind (keeps_setCurr _) fun _ ↦ Triple.ite (fun _ ↦ keeps_create _) fun _ ↦ keeps_destroy dtors

section Visitor

variable (retArg : ℕ)

mutual

theorem keeps_emitStat : (code : StatCode) → (flow : FlowData) → Keeps (emitStat retArg code flow)
  | .block nodes, flow => keeps_emitNodes nodes flow
  | .fi cond body none, flow => keeps_emitIf cond (keeps_emitStat body flow) (keeps_pure ())
  | .fi cond body (some elseBody), flow => keeps_emitIf cond (keeps_emitStat body flow) (keeps_emitStat elseBody flow)
  | .swich obj _ checks bodies alwaysReturns dtors, _ =>
    keeps_bind (keeps_genExpr _ _ _) fun _ ↦ Triple.ite (fun _ ↦ keeps_destroy dtors) fun _ ↦
      keeps_emitCases obj checks (keeps_emitCaseBodies bodies) alwaysReturns dtors
  | .terminate dtors, _ => keeps_destroy dtors
  | .brake dtors, _ | .continu dtors, _ => keeps_bind (keeps_destroy dtors) fun _ ↦ keeps_createBr _
  | .ret value dtors, _ =>
    keeps_bind (keeps_createReturnObject retArg value) fun _ ↦ keeps_bind (keeps_destroy dtors) fun _ ↦
      keeps_returnObject _
  | .wile cond body, _ => keeps_emitWhile cond (keeps_emitStat body)
  | .four init cond incr body dtors, _ =>
    keeps_bind (keeps_emitAsgn init) fun _ ↦ keeps_emitFor (keeps_emitStat body) cond incr dtors
  | .asgn code, _ => keeps_emitAsgn code

theorem keeps_emitNodes : (nodes : List StatCode) → (flow : FlowData) → Keeps (emitNodes retArg nodes flow)
  | [], _ => keeps_pure ()
  | node :: nodes, flow => keeps_bind (keeps_emitStat node flow) fun _ ↦ keeps_emitNodes nodes flow

theorem keeps_emitCaseBodies : (bodies : List StatCode) → (block done : ℕ) → Keeps (emitCaseBodies retArg bodies block done)
  | [], _, _ => keeps_pure ()
  | body :: bodies, block, done =>
    keeps_bind (keeps_setCurr _) fun _ ↦ keeps_bind (keeps_emitStat body _) fun _ ↦
      keeps_bind (keeps_terminate _) fun _ ↦ keeps_emitCaseBodies bodies (block + 1) done

end

end Visitor

/-! ## Open and closed blocks -/

variable {pending : List ℕ} {closed : Bool}

theorem tidy_setCurr (block : ℕ) : Triple (Tidy (block :: pending) true) (setCurr block) fun _ ↦ Tidy pending false :=
  triple_lift fun _ ↦ Builder.Tidy.setCurr

theorem tidy_makeBlock : Triple (Tidy pending closed) makeBlock fun block ↦ Tidy (block :: pending) closed :=
  triple_lift fun _ ↦ Builder.Tidy.makeBlock

theorem tidy_terminator {i : Inst Oper Const} (hi : i.isTerminator = true) :
    Triple (Tidy pending false) (create i) fun _ ↦ Tidy pending true :=
  triple_lift fun _ hb ↦ hi ▸ hb.append i

theorem tidy_createOp (oper : Oper) (args : List Value) :
    Triple (Tidy pending false) (createOp oper args) fun _ ↦ Tidy pending false :=
  triple_lift fun _ hb ↦ hb.appendOp oper args

theorem run_makeBlocks : (n : ℕ) → (s : State) → (makeBlocks n).run s =
    (s.builder.count, { s with builder := { s.builder with count := s.builder.count + n } })
  | 0, s => rfl
  | n + 1, s => by
    have hmore := run_makeBlocks n { s with builder := s.builder.makeBlock.2 }
    have hcount : s.builder.count + 1 + n = s.builder.count + (n + 1) := by rw [Nat.add_assoc, Nat.add_comm 1]
    calc (makeBlocks (n + 1)).run s
        = (s.builder.count, ((makeBlocks n).run { s with builder := s.builder.makeBlock.2 }).2) := rfl
      _ = _ := by rw [hmore, ← hcount]; rfl

theorem tidy_makeBlocks (n : ℕ) : Triple (Tidy pending closed) (makeBlocks n)
    fun first ↦ Tidy (List.range' first n ++ pending) closed := by
  intro s hs
  rw [run_makeBlocks]
  exact ⟨hs.1, hs.2.makeBlocks n⟩

/-- A block of `nextEmpty`, which is current as long as it is the only one. -/
def Waiting (cond : ℕ) (pending : List ℕ) (s : State) : Prop :=
  Tidy (cond :: pending) true s ∨ s.builder.curr = cond ∧ Tidy pending false s

theorem Waiting.perm {cond : ℕ} {pending' : List ℕ} {s : State} (h : Waiting cond pending s)
    (hperm : pending.Perm pending') : Waiting cond pending' s :=
  h.imp (Tidy.perm · (hperm.cons _)) (And.imp_right (Tidy.perm · hperm))

theorem waiting_nextEmpty : Triple (Tidy pending false) nextEmpty fun cond ↦ Waiting cond pending := by
  rintro s ⟨hfailed, hs⟩
  have hrun : nextEmpty.run s = ((Blocks.enterCond s.builder).curr,
      { s with builder := (Blocks.enterCond s.builder).setCurr s.builder.curr }) := by
    change ((Blocks.nextEmpty.run s.builder).1, { s with builder := (Blocks.nextEmpty.run s.builder).2 }) = _
    rw [Blocks.run_nextEmpty]
  rw [hrun]
  by_cases hempty : (s.builder.blocks s.builder.curr).isEmpty
  · rw [Blocks.enterCond, if_pos hempty]
    exact .inr ⟨rfl, hfailed, hs⟩
  · rw [Blocks.enterCond, if_neg hempty]
    exact .inl ⟨hfailed, hs.makeBlock.append (.br s.builder.count)⟩

theorem waiting_makeBlock (cond : ℕ) :
    Triple (Waiting cond pending) makeBlock fun block ↦ Waiting cond (block :: pending) := by
  rintro s (hs | ⟨hcurr, hs⟩)
  · exact .inl ((tidy_makeBlock s hs).perm (.swap _ _ _))
  · exact .inr ⟨hcurr, tidy_makeBlock s hs⟩

theorem waiting_setCurr (cond block : ℕ) :
    Triple (Waiting cond (block :: pending)) (setCurr block) fun _ ↦ Tidy (cond :: pending) false := by
  rintro s (hs | ⟨rfl, hs⟩)
  · exact tidy_setCurr block s (hs.perm (.swap _ _ _))
  · exact ⟨hs.1, hs.2.leave⟩

/-- An expression is put into blocks. -/
theorem run_genExpr (code : Code) (result : Bool) (dst : Value) :
    Triple (Tidy pending false) (genExpr code result dst) fun _ ↦ Outcome (linked code result) (Tidy pending false) := by
  intro s hs
  cases hlinked : linked code result with
  | true => exact ⟨hs.1, (Blocks.emit_placed _ hlinked dst pending s.builder hs.2).tidy⟩
  | false => exact .inr (Blocks.emit_doubled _ hlinked dst pending s.builder hs.2)

theorem tidy_destroy : (objs : List Object) → Triple (Tidy pending false) (destroy objs) fun _ ↦ Tidy pending false
  | [] => Triple.pure () fun _ ↦ id
  | _ :: objs =>
    Triple.ite (fun _ ↦ (tidy_createOp _ _).bind fun _ ↦ tidy_destroy objs) fun _ ↦ tidy_destroy objs

/-- A step that goes well. -/
theorem run_of {α : Type} {P : State → Prop} {Q : α → State → Prop} {g : Gen α} (h : Triple P g Q) :
    Triple P g fun a ↦ Outcome true (Q a) := h

theorem run_last {α β : Type} {P : State → Prop} {Q : α → State → Prop} {R : β → State → Prop} {ok : Bool} {g : Gen α}
    {f : α → Gen β} (h : Triple P g fun a ↦ Outcome ok (Q a)) (h' : ∀ a, Triple (Q a) (f a) R)
    (hkeeps : ∀ a, Keeps (f a)) : Triple P (g >>= f) fun r ↦ Outcome ok (R r) := by
  have hseq : Triple P (g >>= f) fun r ↦ Outcome (ok && true) (R r) := run_seq h h' hkeeps
  rwa [Bool.and_true] at hseq

theorem run_genCondBr (cond : FullCode) (troo fols : ℕ) :
    Triple (Tidy pending false) (genCondBr cond troo fols) fun _ ↦ Outcome (linked cond.code false) (Tidy pending true) := by
  refine run_last (run_genExpr cond.code false _) (fun condExpr ↦ (tidy_destroy cond.dtors).bind fun _ ↦ ?_) fun condExpr ↦ ?_
  · exact tidy_terminator rfl
  · exact keeps_bind (keeps_destroy _) fun _ ↦ keeps_create _

theorem run_equalTo (value : Object) (check : CheckCode) :
    Triple (Tidy pending false) (equalTo value check) fun _ ↦ Outcome (linked check.init.code true) (Tidy pending false) := by
  refine run_last (run_genExpr check.init.code true _) (fun _ ↦ (tidy_createOp _ _).bind fun value ↦ ?_) fun _ ↦ ?_
  · exact (tidy_destroy check.init.dtors).bind fun _ ↦ Triple.pure value fun _ ↦ id
  · exact keeps_bind (keeps_createOp _ _) fun _ ↦ keeps_bind (keeps_destroy _) fun _ ↦ keeps_pure _

theorem run_emitAsgn : (code : AsgnCode) →
    Triple (Tidy pending false) (emitAsgn code) fun _ ↦ Outcome (AsgnCode.linked code) (Tidy pending false)
  | .var _ none => (tidy_createOp _ _).bind fun _ ↦ Triple.pure () fun _ ↦ id
  | .var _ (some init) => run_last (run_genExpr init.code true _) (fun _ ↦ tidy_destroy init.dtors) fun _ ↦ keeps_destroy _
  | .assign _ _ dst src => by
    refine run_seq (run_genExpr dst false _) (fun dstExpr ↦ ?_) fun dstExpr ↦ ?_
    · refine run_last (run_genExpr src.code false _) (fun srcExpr ↦ ?_) fun srcExpr ↦ ?_
      · exact (tidy_createOp _ _).bind fun _ ↦ tidy_destroy src.dtors
      · exact keeps_bind (keeps_createOp _ _) fun _ ↦ keeps_destroy _
    · exact keeps_bind (keeps_genExpr _ _ _) fun _ ↦ keeps_bind (keeps_createOp _ _) fun _ ↦ keeps_destroy _
  | .call call => run_last (run_genExpr call.code false _) (fun _ ↦ tidy_destroy call.dtors) fun _ ↦ keeps_destroy _
  | .none => Triple.pure () fun _ ↦ id

/-! ## Terminating a block -/

theorem isTerminated_of_closed {block : Block Oper Const} (h : Closed block) : isTerminated block = true := by
  obtain ⟨body, last, rfl, hlast, -⟩ := h
  rw [isTerminated, List.getLast?_append]
  exact hlast

theorem isTerminated_of_open {block : Block Oper Const} (h : Open block) : isTerminated block = false := by
  rw [isTerminated]
  cases hlast : block.getLast? with
  | none => rfl
  | some i => exact h i (List.mem_of_getLast? hlast)

theorem Tidy.isTerminated {s : State} (h : Tidy pending closed s) :
    StatBlocks.isTerminated (s.builder.blocks s.builder.curr) = closed := by
  cases closed with
  | true => exact isTerminated_of_closed (h.2.closedCurr rfl)
  | false => exact isTerminated_of_open (h.2.openCurr rfl)

theorem tidy_terminate (dest : ℕ) : Triple (Tidy pending closed) (terminate dest) fun _ ↦ Tidy pending true := by
  refine Triple.get_bind fun s hs ↦ ?_
  dsimp only
  rw [hs.isTerminated]
  cases closed with
  | true => exact Triple.pure () fun _ heq ↦ heq ▸ hs
  | false => exact (tidy_terminator (i := .br dest) rfl).pre fun _ heq ↦ heq ▸ hs

/-- The block after an `if`, if some branch gets there. -/
theorem tidy_terminateLazy (dest : Option ℕ) : Triple (Tidy (dest.toList ++ pending) closed) (terminateLazy dest)
    fun dest' s ↦ dest'.isSome = (dest.isSome || !closed) ∧ Tidy (dest'.toList ++ pending) true s := by
  refine Triple.get_bind fun s hs ↦ ?_
  dsimp only
  rw [hs.isTerminated]
  cases closed with
  | true => exact Triple.pure dest fun _ heq ↦ ⟨(Bool.or_false _).symm, heq ▸ hs⟩
  | false =>
    refine Triple.pre (P := Tidy (dest.toList ++ pending) false) ?_ fun _ heq ↦ heq ▸ hs
    have hblock : Triple (Tidy (dest.toList ++ pending) false) (lazyBlock dest)
        fun dest ↦ Tidy (dest :: pending) false := by
      cases dest with
      | none => exact tidy_makeBlock
      | some dest => exact Triple.pure dest fun _ ↦ id
    refine hblock.bind fun dest' ↦ (tidy_terminator rfl).bind fun _ ↦ Triple.pure _ fun s hs ↦ ⟨?_, hs⟩
    rw [Bool.not_false, Bool.or_true]
    rfl

theorem tidy_enterDone (done : Option ℕ) :
    Triple (Tidy (done.toList ++ pending) true) (enterDone done) fun _ ↦ Tidy pending (!done.isSome) := by
  cases done with
  | none => exact Triple.pure () fun _ ↦ id
  | some done => exact tidy_setCurr done

/-! ## After a terminator -/

theorem bad_of_stuck {α : Type} {g : Blocks.Gen α} (h : ∀ b, Blocks.Touched b (g.run b).2) :
    Triple (Tidy pending true) (lift g) fun _ ↦ Bad :=
  (triple_stuck h).pre fun _ ↦ Tidy.stuck

theorem closed_create (i : Inst Oper Const) : Triple (Tidy pending true) (create i) fun _ ↦ Bad :=
  bad_of_stuck fun b ↦ Blocks.touched_append b i

theorem closed_createOp (oper : Oper) (args : List Value) : Triple (Tidy pending true) (createOp oper args) fun _ ↦ Bad :=
  bad_of_stuck fun b ↦ Blocks.touched_append b (.op b.next oper args)

theorem closed_nextEmpty : Triple (Tidy pending true) nextEmpty fun _ ↦ Bad := by
  intro s hs
  obtain ⟨body, last, heq, -⟩ := hs.stuck
  have hnonempty : ¬(s.builder.blocks s.builder.curr).isEmpty := by
    rw [heq]
    simp
  refine bad_of_touched hs.stuck ⟨.br s.builder.count, ?_⟩
  have hrun : (Blocks.nextEmpty.run s.builder).2 = (Blocks.enterCond s.builder).setCurr s.builder.curr :=
    congrArg Prod.snd (Blocks.run_nextEmpty s.builder)
  change Extends _ (Blocks.nextEmpty.run s.builder).2.blocks
  rw [hrun, Blocks.enterCond, if_neg hnonempty]
  exact .refl _

theorem closed_genExpr (code : Code) (result : Bool) (dst : Value) :
    Triple (Tidy pending true) (genExpr code result dst) fun _ ↦ Outcome (!emits code result) (Tidy pending true) := by
  intro s hs
  cases hemits : emits code result with
  | true => exact bad_of_touched hs.stuck (Blocks.emit_touched _ hemits dst s.builder)
  | false =>
    have hsilent : ((emit (tree code result) dst).run s.builder).2 = s.builder := Blocks.emit_silent _ hemits dst s.builder
    exact ⟨hs.1, (congrArg (Builder.Tidy pending true) hsilent).mpr hs.2⟩

theorem closed_destroy : (objs : List Object) →
    Triple (Tidy pending true) (destroy objs) fun _ ↦ Outcome (!destroys objs) (Tidy pending true)
  | [] => Triple.pure () fun _ ↦ id
  | obj :: objs => by
    rw [destroy, destroys, List.any_cons]
    cases hdtor : hasDtor obj.type with
    | true => exact (closed_createOp _ _).bind fun _ ↦ keeps_destroy objs
    | false => exact closed_destroy objs

theorem closed_genCondBr (cond : FullCode) (troo fols : ℕ) :
    Triple (Tidy pending true) (genCondBr cond troo fols) fun _ ↦ Bad := by
  refine bad_after (closed_genExpr cond.code false _) (fun condExpr ↦ ?_) fun condExpr ↦ ?_
  · exact bad_after (closed_destroy cond.dtors) (fun _ ↦ closed_create _) fun _ ↦ keeps_create _
  · exact keeps_bind (keeps_destroy _) fun _ ↦ keeps_create _

theorem closed_emitAsgn : (code : AsgnCode) →
    Triple (Tidy pending true) (emitAsgn code) fun _ ↦ Outcome (!AsgnCode.touches code) (Tidy pending true)
  | .var _ none => (closed_createOp _ _).bind fun _ ↦ keeps_pure ()
  | .var _ (some init) => by
    rw [AsgnCode.touches, Bool.not_or]
    exact run_seq (closed_genExpr init.code true _) (fun _ ↦ closed_destroy init.dtors) fun _ ↦ keeps_destroy _
  | .assign _ _ dst src => by
    refine bad_after (closed_genExpr dst false _) (fun dstExpr ↦ ?_) fun dstExpr ↦ ?_
    · refine bad_after (closed_genExpr src.code false _) (fun srcExpr ↦ ?_) fun srcExpr ↦ ?_
      · exact (closed_createOp _ _).bind fun _ ↦ keeps_destroy _
      · exact keeps_bind (keeps_createOp _ _) fun _ ↦ keeps_destroy _
    · exact keeps_bind (keeps_genExpr _ _ _) fun _ ↦ keeps_bind (keeps_createOp _ _) fun _ ↦ keeps_destroy _
  | .call call => by
    rw [AsgnCode.touches, Bool.not_or]
    exact run_seq (closed_genExpr call.code false _) (fun _ ↦ closed_destroy call.dtors) fun _ ↦ keeps_destroy _
  | .none => Triple.pure () fun _ ↦ id

theorem closed_createBr : (dest : Option ℕ) → Triple (Tidy pending true) (createBr dest) fun _ ↦ Bad
  | some _ => closed_create _
  | none => fun _ _ ↦ .inl rfl

theorem closed_returnObject : (value : Option (Ty × Value)) → Triple (Tidy pending true) (returnObject value) fun _ ↦ Bad
  | none | some _ => closed_create _

theorem closed_emitIf (cond : FullCode) {body elseBody : Gen Unit} (hbody : Keeps body) (helse : Keeps elseBody) :
    Triple (Tidy pending true) (emitIf cond body elseBody) fun _ ↦ Bad :=
  tidy_makeBlock.bind fun _ ↦ tidy_makeBlock.bind fun _ ↦ (closed_genCondBr _ _ _).bind fun _ ↦
    keeps_bind (keeps_setCurr _) fun _ ↦ keeps_bind hbody fun _ ↦ keeps_bind (keeps_terminateLazy _) fun _ ↦
      keeps_bind (keeps_setCurr _) fun _ ↦ keeps_bind helse fun _ ↦ keeps_bind (keeps_terminateLazy _) fun _ ↦
        keeps_enterDone _

theorem closed_emitWhile (cond : FullCode) {body : FlowData → Gen Unit} (hbody : ∀ flow, Keeps (body flow)) :
    Triple (Tidy pending true) (emitWhile cond body) fun _ ↦ Bad :=
  closed_nextEmpty.bind fun _ ↦ keeps_bind keeps_makeBlock fun _ ↦ keeps_bind keeps_makeBlock fun _ ↦
    keeps_bind (keeps_setCurr _) fun _ ↦ keeps_bind (hbody _) fun _ ↦ keeps_bind (keeps_terminate _) fun _ ↦
      keeps_bind (keeps_setCurr _) fun _ ↦ keeps_bind (keeps_genCondBr _ _ _) fun _ ↦ keeps_setCurr _

theorem closed_emitFor {body : FlowData → Gen Unit} (hbody : ∀ flow, Keeps (body flow)) (cond : FullCode)
    (incr : AsgnCode) (dtors : List Object) :
    Triple (Tidy pending true) (emitFor body cond incr dtors) fun _ ↦ Bad :=
  closed_nextEmpty.bind fun _ ↦ keeps_bind keeps_makeBlock fun _ ↦ keeps_bind keeps_makeBlock fun _ ↦
    keeps_bind keeps_makeBlock fun _ ↦ keeps_bind (keeps_setCurr _) fun _ ↦ keeps_bind (hbody _) fun _ ↦
      keeps_bind (keeps_terminate _) fun _ ↦ keeps_bind (keeps_setCurr _) fun _ ↦
        keeps_bind (keeps_genCondBr _ _ _) fun _ ↦ keeps_bind (keeps_setCurr _) fun _ ↦
          keeps_bind (keeps_emitAsgn incr) fun _ ↦ keeps_bind (keeps_create _) fun _ ↦
            keeps_bind (keeps_setCurr _) fun _ ↦ keeps_destroy dtors

theorem closed_emitCases (value : Object) (checks : List (Option CheckCode)) {caseBodies : ℕ → ℕ → Gen Unit}
    (hbodies : ∀ block done, Keeps (caseBodies block done)) (alwaysReturns : Bool) (dtors : List Object) :
    Triple (Tidy pending true) (emitCases value checks caseBodies alwaysReturns dtors) fun _ ↦ Bad :=
  (tidy_makeBlocks _).bind fun _ ↦ (tidy_makeBlocks _).bind fun _ ↦ tidy_makeBlock.bind fun _ ↦
    (closed_create _).bind fun _ ↦ keeps_bind (keeps_emitCaseChecks _ _ _ _ _ _ _ _) fun _ ↦
      keeps_bind (keeps_linkDefault _ _ _) fun _ ↦ keeps_bind (hbodies _ _) fun _ ↦
        keeps_bind (keeps_setCurr _) fun _ ↦ Triple.ite (fun _ ↦ keeps_create _) fun _ ↦ keeps_destroy dtors

section Visitor

variable (retArg : ℕ)

theorem closed_createReturnObject : (value : Option (Ty × Code)) → ∃ ok, Triple (Tidy pending true)
    (createReturnObject retArg value) fun _ ↦ Outcome ok (Tidy pending true)
  | none => ⟨true, Triple.pure none fun _ ↦ id⟩
  | some (type, code) => by
    refine ⟨_, run_last (closed_genExpr code (!isTriviallyCopyable type) _) (fun retObj ↦ ?_) fun _ ↦ keeps_pure _⟩
    exact Triple.pure _ fun _ ↦ id

mutual

/-- A statement in a block that has its terminator. -/
theorem closed_emitStat : (code : StatCode) → (flow : FlowData) →
    Triple (Tidy pending true) (emitStat retArg code flow) fun _ ↦ Outcome (!touches code) (Tidy pending true)
  | .block nodes, flow => closed_emitNodes nodes flow
  | .fi cond body none, flow => closed_emitIf cond (keeps_emitStat retArg body flow) (keeps_pure ())
  | .fi cond body (some elseBody), flow =>
    closed_emitIf cond (keeps_emitStat retArg body flow) (keeps_emitStat retArg elseBody flow)
  | .swich obj value checks bodies alwaysReturns dtors, _ => by
    have hbodies := keeps_emitCaseBodies retArg bodies
    rw [touches, Bool.or_assoc, Bool.not_or, Bool.not_or, Bool.and_left_comm]
    refine run_seq (closed_genExpr value true _) (fun _ ↦ ?_) fun _ ↦ ?_
    · cases hchecks : checks.isEmpty with
      | true => exact closed_destroy dtors
      | false => exact closed_emitCases obj checks hbodies alwaysReturns dtors
    · exact Triple.ite (fun _ ↦ keeps_destroy dtors) fun _ ↦ keeps_emitCases obj checks hbodies alwaysReturns dtors
  | .terminate dtors, _ => closed_destroy dtors
  | .brake dtors, _ | .continu dtors, _ =>
    bad_after (closed_destroy dtors) (fun _ ↦ closed_createBr _) fun _ ↦ keeps_createBr _
  | .ret value dtors, _ => by
    obtain ⟨ok, hvalue⟩ := closed_createReturnObject retArg value
    refine bad_after hvalue (fun retObj ↦ ?_) fun retObj ↦ ?_
    · exact bad_after (closed_destroy dtors) (fun _ ↦ closed_returnObject _) fun _ ↦ keeps_returnObject _
    · exact keeps_bind (keeps_destroy dtors) fun _ ↦ keeps_returnObject _
  | .wile cond body, _ => closed_emitWhile cond (keeps_emitStat retArg body)
  | .four init cond incr body dtors, _ =>
    bad_after (closed_emitAsgn init) (fun _ ↦ closed_emitFor (keeps_emitStat retArg body) cond incr dtors) fun _ ↦
      keeps_emitFor (keeps_emitStat retArg body) cond incr dtors
  | .asgn code, _ => closed_emitAsgn code

theorem closed_emitNodes : (nodes : List StatCode) → (flow : FlowData) →
    Triple (Tidy pending true) (emitNodes retArg nodes flow) fun _ ↦ Outcome (!touchesNodes nodes) (Tidy pending true)
  | [], _ => Triple.pure () fun _ ↦ id
  | node :: nodes, flow => by
    rw [touchesNodes, Bool.not_or]
    exact run_seq (closed_emitStat node flow) (fun _ ↦ closed_emitNodes nodes flow) fun _ ↦
      keeps_emitNodes retArg nodes flow

end

end Visitor

/-! ## In an open block -/

theorem tidy_link (source dest : ℕ) :
    Triple (Tidy (source :: pending) true) (link source dest) fun _ ↦ Tidy pending true :=
  triple_lift fun b hb ↦ by
    have hnot : b.curr ∉ pending := fun h ↦ (List.nodup_cons.mp hb.nodup).1 (List.mem_cons_of_mem _ h)
    exact (hb.setCurr.append (.br dest)).back hb.curr hnot

theorem run_createBr : (dest : Option ℕ) →
    Triple (Tidy pending false) (createBr dest) fun _ ↦ Outcome dest.isSome (Tidy pending true)
  | some _ => tidy_terminator rfl
  | none => fun _ _ ↦ .inl rfl

theorem tidy_returnObject : (value : Option (Ty × Value)) →
    Triple (Tidy pending false) (returnObject value) fun _ ↦ Tidy pending true
  | none | some _ => tidy_terminator rfl

/-! ## The cases of a switch -/

/-- The default case, if it is among these cases, is where it should be. -/
def Aligned (defaultIndex : Option ℕ) : List (Option CheckCode) → ℕ → Prop
  | [], _ => True
  | check :: checks, c => (check.isNone = true ↔ defaultIndex = some c) ∧ Aligned defaultIndex checks (c + 1)

theorem aligned_after {d : ℕ} : (checks : List (Option CheckCode)) → (c : ℕ) → d < c → checks.countP Option.isNone = 0 →
    Aligned (some d) checks c
  | [], _, _, _ => trivial
  | check :: checks, c, hlt, hcount => by
    obtain ⟨hnone, hrest⟩ : check.isNone = false ∧ checks.countP Option.isNone = 0 := by
      cases check <;> simp_all
    refine ⟨?_, aligned_after checks (c + 1) (hlt.trans (Nat.lt_succ_self c)) hrest⟩
    rw [hnone]
    exact ⟨fun h ↦ absurd h Bool.false_ne_true, fun h ↦ absurd (Option.some.inj h) hlt.ne⟩

theorem aligned_findDefault : (checks : List (Option CheckCode)) → (c : ℕ) → checks.countP Option.isNone ≤ 1 →
    Aligned ((findDefault checks).map (· + c)) checks c
  | [], _, _ => trivial
  | none :: checks, c, hcount => by
    have hrest : checks.countP Option.isNone = 0 := by simpa using hcount
    have hfind : (findDefault (none :: checks)).map (· + c) = some c := by simp [findDefault, List.findIdx?_cons]
    rw [hfind]
    exact ⟨iff_of_true rfl rfl, aligned_after checks (c + 1) (Nat.lt_succ_self c) hrest⟩
  | some check :: checks, c, hcount => by
    have hshift : (fun i ↦ i + c) ∘ (fun i ↦ i + 1) = fun i ↦ i + (c + 1) := by
      funext i
      exact (Nat.add_assoc i 1 c).trans (congrArg (i + ·) (Nat.add_comm 1 c))
    have hfind : (findDefault (some check :: checks)).map (· + c) = (findDefault checks).map (· + (c + 1)) := by
      rw [findDefault, List.findIdx?_cons, if_neg (by simp), Option.map_map, hshift, findDefault]
    rw [hfind]
    refine ⟨iff_of_false nofun fun h ↦ ?_, aligned_findDefault checks (c + 1) (by simpa using hcount)⟩
    obtain ⟨i, -, hi⟩ := Option.map_eq_some_iff.mp h
    omega

theorem findDefault_lt {checks : List (Option CheckCode)} {d : ℕ} (h : findDefault checks = some d) : d < checks.length :=
  (List.findIdx?_eq_some_iff_findIdx_eq.mp h).1

/-- Every case but the default one takes the next check block. -/
theorem checkIndexOfCase_succ {c : ℕ} {defaultIndex : Option ℕ} (h : defaultIndex ≠ some c) :
    checkIndexOfCase (c + 1) defaultIndex = checkIndexOfCase c defaultIndex + 1 := by
  cases defaultIndex with
  | none => rfl
  | some d =>
    have hne : d ≠ c := fun heq ↦ h (congrArg some heq)
    unfold checkIndexOfCase pastDefaultCase
    by_cases hlt : d < c
    · simp [hlt, hlt.trans (Nat.lt_succ_self c)]
      omega
    · have hlt' : ¬d < c + 1 := by omega
      simp [hlt, hlt']

theorem checkIndexOfCase_default (c : ℕ) : checkIndexOfCase (c + 1) (some c) = checkIndexOfCase c (some c) := by
  simp [checkIndexOfCase, pastDefaultCase]

/-- The check blocks that are still to be filled when case `c` comes. -/
def checksFrom (checkBlocks size c : ℕ) (defaultIndex : Option ℕ) : List ℕ :=
  List.range' (checkBlocks + checkIndexOfCase c defaultIndex) (size - checkIndexOfCase c defaultIndex)

theorem checksFrom_eq_cons {checkBlocks size c : ℕ} {defaultIndex : Option ℕ} (hlt : c < size)
    (h : defaultIndex ≠ some c) : checksFrom checkBlocks size c defaultIndex =
      (checkBlocks + checkIndexOfCase c defaultIndex) :: checksFrom checkBlocks size (c + 1) defaultIndex := by
  have hle : checkIndexOfCase c defaultIndex ≤ c := Nat.sub_le _ _
  have hsize : size - checkIndexOfCase c defaultIndex = size - (checkIndexOfCase c defaultIndex + 1) + 1 := by omega
  rw [checksFrom, checksFrom, checkIndexOfCase_succ h, hsize, List.range'_succ, Nat.add_assoc]

theorem run_emitCaseChecks (value : Object) (checkBlocks caseBlocks done size : ℕ) (defaultIndex : Option ℕ) :
    (checks : List (Option CheckCode)) → (c : ℕ) → c + checks.length = size → Aligned defaultIndex checks c →
      Triple (Tidy (checksFrom checkBlocks size c defaultIndex ++ pending) true)
        (emitCaseChecks value checkBlocks caseBlocks done size defaultIndex checks c) fun _ ↦
          Outcome (checksLinked checks) (Tidy (checksFrom checkBlocks size size defaultIndex ++ pending) true)
  | [], c, hsize, _ => by
    have hsize : c = size := hsize
    subst hsize
    exact Triple.pure () fun _ ↦ id
  | none :: checks, c, hsize, haligned => by
    have hdefault := haligned.1.mp rfl
    have hrest := run_emitCaseChecks value checkBlocks caseBlocks done size defaultIndex checks (c + 1)
      (by rw [← hsize, List.length_cons]; omega) haligned.2
    subst hdefault
    have hsame : checksFrom checkBlocks size (c + 1) (some c) = checksFrom checkBlocks size c (some c) := by
      rw [checksFrom, checkIndexOfCase_default, checksFrom]
    rw [hsame] at hrest
    exact hrest
  | some check :: checks, c, hsize, haligned => by
    have hlt : c < size := by
      rw [← hsize, List.length_cons]
      omega
    have hdefault : defaultIndex ≠ some c := fun h ↦ nomatch haligned.1.mpr h
    have hrest := run_emitCaseChecks value checkBlocks caseBlocks done size defaultIndex checks (c + 1)
      (by rw [← hsize, List.length_cons]; omega) haligned.2
    rw [checksFrom_eq_cons hlt hdefault, List.cons_append]
    refine (tidy_setCurr _).bind fun _ ↦ run_seq (run_equalTo value check) (fun cond ↦ ?_) fun cond ↦ ?_
    · exact (tidy_terminator rfl).bind fun _ ↦ hrest
    · exact keeps_bind (keeps_create _) fun _ ↦ keeps_emitCaseChecks _ _ _ _ _ _ _ _

theorem tidy_linkDefault (checkBlocks caseBlocks size : ℕ) : (defaultIndex : Option ℕ) →
    (∀ d, defaultIndex = some d → d < size) →
      Triple (Tidy (checksFrom checkBlocks size size defaultIndex ++ pending) true)
        (linkDefault (checkBlocks + (size - 1)) caseBlocks defaultIndex) fun _ ↦ Tidy pending true
  | none, _ => by
    have hnil : checksFrom checkBlocks size size none = [] := by simp [checksFrom, checkIndexOfCase, pastDefaultCase]
    rw [hnil]
    exact Triple.pure () fun _ ↦ id
  | some d, hlt => by
    have hlt := hlt d rfl
    have hindex : checkIndexOfCase size (some d) = size - 1 := by simp [checkIndexOfCase, pastDefaultCase, hlt]
    have hone : size - (size - 1) = 1 := by omega
    have hlast : checksFrom checkBlocks size size (some d) = [checkBlocks + (size - 1)] := by
      rw [checksFrom, hindex, hone]
      rfl
    rw [hlast]
    exact tidy_link _ _

/-- The blocks of a switch, in the order in which they are filled. -/
theorem perm_switchBlocks (done : ℕ) (caseBlocks checkBlocks pending : List ℕ) :
    (done :: (caseBlocks ++ (checkBlocks ++ pending))).Perm (checkBlocks ++ (caseBlocks ++ done :: pending)) := by
  have hswap : (caseBlocks ++ (checkBlocks ++ done :: pending)).Perm (checkBlocks ++ (caseBlocks ++ done :: pending)) := by
    rw [← List.append_assoc, ← List.append_assoc]
    exact List.perm_append_comm.append_right _
  refine List.Perm.trans ?_ hswap
  rw [← List.append_assoc, ← List.append_assoc]
  exact List.perm_middle.symm

theorem run_emitCases (value : Object) (checks : List (Option CheckCode)) {caseBodies : ℕ → ℕ → Gen Unit} {ok : Bool}
    (hcount : checks.countP Option.isNone ≤ 1) (hkeeps : ∀ block done, Keeps (caseBodies block done))
    (hbodies : ∀ block done, Triple (Tidy (List.range' block checks.length ++ done :: pending) true) (caseBodies block done)
      fun _ ↦ Outcome ok (Tidy (done :: pending) true)) (alwaysReturns : Bool) (dtors : List Object) :
    Triple (Tidy pending false) (emitCases value checks caseBodies alwaysReturns dtors) fun _ ↦
      Outcome (checksLinked checks && ok) (Tidy pending alwaysReturns) := by
  refine (tidy_makeBlocks _).bind fun checkBlocks ↦ (tidy_makeBlocks _).bind fun caseBlocks ↦ tidy_makeBlock.bind fun done ↦ ?_
  have hkeeps' : ∀ _ : Unit, Keeps (do
      caseBodies caseBlocks done
      setCurr done
      if alwaysReturns then create .unreachable else destroy dtors) := fun _ ↦
    keeps_bind (hkeeps _ _) fun _ ↦ keeps_bind (keeps_setCurr _) fun _ ↦
      Triple.ite (fun _ ↦ keeps_create _) fun _ ↦ keeps_destroy dtors
  have haligned : Aligned (findDefault checks) checks 0 := by simpa using aligned_findDefault checks 0 hcount
  have hchecks := @run_emitCaseChecks (List.range' caseBlocks checks.length ++ done :: pending) value checkBlocks
    caseBlocks done checks.length (findDefault checks) checks 0 (Nat.zero_add _) haligned
  have hfirst : checksFrom checkBlocks checks.length 0 (findDefault checks) = List.range' checkBlocks checks.length := by
    cases hdefault : findDefault checks <;> simp [checksFrom, checkIndexOfCase, pastDefaultCase]
  rw [hfirst] at hchecks
  refine ((tidy_terminator rfl).post fun _ s hs ↦ hs.perm (perm_switchBlocks _ _ _ _)).bind fun _ ↦ ?_
  refine run_seq hchecks (fun _ ↦ ?_) fun _ ↦ keeps_bind (keeps_linkDefault _ _ _) hkeeps'
  refine (tidy_linkDefault _ _ _ _ fun d hd ↦ findDefault_lt hd).bind fun _ ↦ ?_
  refine run_last (hbodies caseBlocks done) (fun _ ↦ (tidy_setCurr done).bind fun _ ↦ ?_) fun _ ↦ ?_
  · cases alwaysReturns with
    | true => exact tidy_terminator rfl
    | false => exact tidy_destroy dtors
  · exact keeps_bind (keeps_setCurr _) fun _ ↦ Triple.ite (fun _ ↦ keeps_create _) fun _ ↦ keeps_destroy dtors

/-! ## Statements -/

theorem run_emitIf (cond : FullCode) {body elseBody : Gen Unit} {ok ok' closed closed' : Bool} (hkeeps : Keeps elseBody)
    (hkeeps' : Keeps body)
    (hbody : ∀ pending, Triple (Tidy pending false) body fun _ ↦ Outcome ok (Tidy pending closed))
    (helse : ∀ pending, Triple (Tidy pending false) elseBody fun _ ↦ Outcome ok' (Tidy pending closed')) :
    Triple (Tidy pending false) (emitIf cond body elseBody) fun _ ↦
      Outcome (linked cond.code false && (ok && ok')) (Tidy pending (closed && closed')) := by
  refine tidy_makeBlock.bind fun troo ↦ tidy_makeBlock.bind fun fols ↦ ?_
  refine run_seq (run_genCondBr cond troo fols) (fun _ ↦ ?_) fun _ ↦ ?_
  · refine ((tidy_setCurr troo).pre fun s hs ↦ hs.perm (.swap _ _ _)).bind fun _ ↦ run_seq (hbody _) (fun _ ↦ ?_) fun _ ↦ ?_
    · refine (tidy_terminateLazy none).bind fun done ↦ Triple.assume fun hdone ↦ ?_
      refine ((tidy_setCurr fols).pre fun s hs ↦ hs.perm List.perm_middle).bind fun _ ↦ run_last (helse _) (fun _ ↦ ?_) fun _ ↦ ?_
      · refine (tidy_terminateLazy done).bind fun done' ↦ Triple.assume fun hdone' ↦ (tidy_enterDone done').post fun _ s hs ↦ ?_
        rwa [hdone', hdone, Option.isSome_none, Bool.false_or, Bool.not_or, Bool.not_not, Bool.not_not] at hs
      · exact keeps_bind (keeps_terminateLazy _) fun _ ↦ keeps_enterDone _
    · exact keeps_bind (keeps_terminateLazy _) fun _ ↦ keeps_bind (keeps_setCurr _) fun _ ↦ keeps_bind hkeeps fun _ ↦
        keeps_bind (keeps_terminateLazy _) fun _ ↦ keeps_enterDone _
  · exact keeps_bind (keeps_setCurr _) fun _ ↦ keeps_bind hkeeps' fun _ ↦ keeps_bind (keeps_terminateLazy _) fun _ ↦
      keeps_bind (keeps_setCurr _) fun _ ↦ keeps_bind hkeeps fun _ ↦ keeps_bind (keeps_terminateLazy _) fun _ ↦
        keeps_enterDone _

theorem run_emitWhile (cond : FullCode) {body : FlowData → Gen Unit} {ok closes : Bool}
    (hbody : ∀ (b c : ℕ) (pending : List ℕ),
      Triple (Tidy pending false) (body ⟨some b, some c⟩) fun _ ↦ Outcome ok (Tidy pending closes)) :
    Triple (Tidy pending false) (emitWhile cond body) fun _ ↦
      Outcome (ok && linked cond.code false) (Tidy pending false) := by
  refine waiting_nextEmpty.bind fun condBlock ↦ (waiting_makeBlock condBlock).bind fun bodyBlock ↦ ?_
  refine (waiting_makeBlock condBlock).bind fun done ↦ ?_
  have hperm (s : State) (hs : Waiting condBlock (done :: bodyBlock :: pending) s) :
      Waiting condBlock (bodyBlock :: done :: pending) s :=
    hs.perm (.swap _ _ _)
  refine ((waiting_setCurr condBlock bodyBlock).pre hperm).bind fun _ ↦ run_seq (hbody done condBlock _) (fun _ ↦ ?_) fun _ ↦ ?_
  · refine (tidy_terminate condBlock).bind fun _ ↦ (tidy_setCurr condBlock).bind fun _ ↦ ?_
    exact run_last (run_genCondBr cond bodyBlock done) (fun _ ↦ tidy_setCurr done) fun _ ↦ keeps_setCurr _
  · exact keeps_bind (keeps_terminate _) fun _ ↦ keeps_bind (keeps_setCurr _) fun _ ↦
      keeps_bind (keeps_genCondBr _ _ _) fun _ ↦ keeps_setCurr _

theorem run_emitFor {body : FlowData → Gen Unit} {ok closes : Bool}
    (hbody : ∀ (b c : ℕ) (pending : List ℕ),
      Triple (Tidy pending false) (body ⟨some b, some c⟩) fun _ ↦ Outcome ok (Tidy pending closes))
    (cond : FullCode) (incr : AsgnCode) (dtors : List Object) :
    Triple (Tidy pending false) (emitFor body cond incr dtors) fun _ ↦
      Outcome (ok && (linked cond.code false && AsgnCode.linked incr)) (Tidy pending false) := by
  refine waiting_nextEmpty.bind fun condBlock ↦ (waiting_makeBlock condBlock).bind fun bodyBlock ↦ ?_
  refine (waiting_makeBlock condBlock).bind fun incrBlock ↦ (waiting_makeBlock condBlock).bind fun done ↦ ?_
  have hperm (s : State) (hs : Waiting condBlock (done :: incrBlock :: bodyBlock :: pending) s) :
      Waiting condBlock (bodyBlock :: incrBlock :: done :: pending) s :=
    hs.perm ((List.reverse_perm [bodyBlock, incrBlock, done]).append_right pending)
  refine ((waiting_setCurr condBlock bodyBlock).pre hperm).bind fun _ ↦ ?_
  refine run_seq (hbody done incrBlock _) (fun _ ↦ ?_) fun _ ↦ ?_
  · refine (tidy_terminate incrBlock).bind fun _ ↦ (tidy_setCurr condBlock).bind fun _ ↦ ?_
    refine run_seq (run_genCondBr cond bodyBlock done) (fun _ ↦ ?_) fun _ ↦ ?_
    · refine (tidy_setCurr incrBlock).bind fun _ ↦ run_last (run_emitAsgn incr) (fun _ ↦ ?_) fun _ ↦ ?_
      · exact (tidy_terminator rfl).bind fun _ ↦ (tidy_setCurr done).bind fun _ ↦ tidy_destroy dtors
      · exact keeps_bind (keeps_create _) fun _ ↦ keeps_bind (keeps_setCurr _) fun _ ↦ keeps_destroy dtors
    · exact keeps_bind (keeps_setCurr _) fun _ ↦ keeps_bind (keeps_emitAsgn incr) fun _ ↦
        keeps_bind (keeps_create _) fun _ ↦ keeps_bind (keeps_setCurr _) fun _ ↦ keeps_destroy dtors
  · exact keeps_bind (keeps_terminate _) fun _ ↦ keeps_bind (keeps_setCurr _) fun _ ↦
      keeps_bind (keeps_genCondBr _ _ _) fun _ ↦ keeps_bind (keeps_setCurr _) fun _ ↦
        keeps_bind (keeps_emitAsgn incr) fun _ ↦ keeps_bind (keeps_create _) fun _ ↦
          keeps_bind (keeps_setCurr _) fun _ ↦ keeps_destroy dtors

section Visitor

variable (retArg : ℕ)

theorem run_createReturnObject : (value : Option (Ty × Code)) → Triple (Tidy pending false)
    (createReturnObject retArg value) fun _ ↦
      Outcome (value.all fun value ↦ linked value.2 (!isTriviallyCopyable value.1)) (Tidy pending false)
  | none => Triple.pure none fun _ ↦ id
  | some (type, code) =>
    run_last (run_genExpr code (!isTriviallyCopyable type) _) (fun _ ↦ Triple.pure _ fun _ ↦ id) fun _ ↦ keeps_pure _

mutual

/-- A statement in an open block. -/
theorem run_emitStat : (code : StatCode) → (flow : FlowData) → (pending : List ℕ) → regular code = true →
    Triple (Tidy pending false) (emitStat retArg code flow) fun _ ↦
      Outcome (fits code flow.breakBlock.isSome flow.continueBlock.isSome) (Tidy pending (closes code))
  | .block nodes, flow, pending, hregular => by
    have hnodes := run_emitNodes nodes flow pending false hregular
    rwa [Bool.false_or] at hnodes
  | .fi cond body none, flow, pending, hregular => by
    have hrun : Triple (Tidy pending false) (emitStat retArg (.fi cond body none) flow) fun _ ↦
        Outcome (linked cond.code false && (fits body flow.breakBlock.isSome flow.continueBlock.isSome && true))
          (Tidy pending (closes body && false)) :=
      run_emitIf cond (keeps_pure ()) (keeps_emitStat retArg body flow) (run_emitStat body flow · hregular)
        fun pending ↦ run_of (Triple.pure () fun _ ↦ id)
    rwa [Bool.and_true, Bool.and_false] at hrun
  | .fi cond body (some elseBody), flow, pending, hregular => by
    obtain ⟨hbody, helse⟩ := Bool.and_eq_true_iff.mp hregular
    exact run_emitIf cond (keeps_emitStat retArg elseBody flow) (keeps_emitStat retArg body flow)
      (run_emitStat body flow · hbody) (run_emitStat elseBody flow · helse)
  | .swich obj value checks bodies alwaysReturns dtors, flow, pending, hregular => by
    simp only [regular, Bool.and_eq_true, beq_iff_eq, decide_eq_true_eq] at hregular
    obtain ⟨hlength, hcount, hregular⟩ := hregular
    have hkeeps := keeps_emitCaseBodies retArg bodies
    have hbodies (block done : ℕ) := run_emitCaseBodies bodies block done pending hregular
    rw [← hlength] at hbodies
    refine run_seq (run_genExpr value true _) (fun _ ↦ ?_) fun _ ↦ ?_
    · cases hchecks : checks.isEmpty with
      | true =>
        have hnil : checks = [] := List.isEmpty_iff.mp hchecks
        have hnone : bodies = [] := List.length_eq_zero_iff.mp (by rw [← hlength, hnil, List.length_nil])
        rw [hnil, hnone]
        exact run_of (tidy_destroy dtors)
      | false =>
        rw [closes, hchecks]
        exact run_emitCases obj checks hcount hkeeps hbodies alwaysReturns dtors
    · exact Triple.ite (fun _ ↦ keeps_destroy dtors) fun _ ↦ keeps_emitCases obj checks hkeeps alwaysReturns dtors
  | .terminate dtors, _, pending, _ => tidy_destroy dtors
  | .brake dtors, _, pending, _ | .continu dtors, _, pending, _ => (tidy_destroy dtors).bind fun _ ↦ run_createBr _
  | .ret value dtors, _, pending, _ => by
    refine run_last (run_createReturnObject retArg value) (fun retObj ↦ ?_) fun retObj ↦ ?_
    · exact (tidy_destroy dtors).bind fun _ ↦ tidy_returnObject _
    · exact keeps_bind (keeps_destroy dtors) fun _ ↦ keeps_returnObject _
  | .wile cond body, _, _, hregular =>
    run_emitWhile cond fun b c pending ↦ run_emitStat body ⟨some b, some c⟩ pending hregular
  | .four init cond incr body dtors, _, pending, hregular => by
    have hbody (b c : ℕ) (pending : List ℕ) := run_emitStat body ⟨some b, some c⟩ pending hregular
    refine run_seq (run_emitAsgn init) (fun _ ↦ run_emitFor hbody cond incr dtors) fun _ ↦ ?_
    exact keeps_emitFor (keeps_emitStat retArg body) cond incr dtors
  | .asgn code, _, pending, _ => run_emitAsgn code

theorem run_emitNodes : (nodes : List StatCode) → (flow : FlowData) → (pending : List ℕ) → (closed : Bool) →
    regularNodes nodes = true → Triple (Tidy pending closed) (emitNodes retArg nodes flow) fun _ ↦
      Outcome (fitsNodes nodes flow.breakBlock.isSome flow.continueBlock.isSome closed)
        (Tidy pending (closed || closesNodes nodes))
  | [], _, pending, closed, _ => by
    rw [closesNodes, Bool.or_false]
    exact Triple.pure () fun _ ↦ id
  | node :: nodes, flow, pending, closed, hregular => by
    obtain ⟨hnode, hnodes⟩ := Bool.and_eq_true_iff.mp hregular
    rw [closesNodes, ← Bool.or_assoc]
    refine run_seq ?_ (fun _ ↦ run_emitNodes nodes flow pending _ hnodes) fun _ ↦ keeps_emitNodes retArg nodes flow
    cases closed with
    | true => exact closed_emitStat retArg node flow
    | false => exact run_emitStat node flow pending hnode

theorem run_emitCaseBodies : (bodies : List StatCode) → (block done : ℕ) → (pending : List ℕ) →
    regularNodes bodies = true →
      Triple (Tidy (List.range' block bodies.length ++ done :: pending) true) (emitCaseBodies retArg bodies block done)
        fun _ ↦ Outcome (fitsBodies bodies) (Tidy (done :: pending) true)
  | [], _, _, _, _ => Triple.pure () fun _ ↦ id
  | body :: bodies, block, done, pending, hregular => by
    obtain ⟨hbody, hbodies⟩ := Bool.and_eq_true_iff.mp hregular
    rw [List.length_cons, List.range'_succ, List.cons_append]
    have hflow : (if bodies.isEmpty then none else some (block + 1)).isSome = !bodies.isEmpty := by
      cases bodies <;> rfl
    have hrun := run_emitStat body ⟨some done, if bodies.isEmpty then none else some (block + 1)⟩
      (List.range' (block + 1) bodies.length ++ done :: pending) hbody
    dsimp only at hrun
    rw [hflow] at hrun
    refine (tidy_setCurr block).bind fun _ ↦ run_seq hrun (fun _ ↦ ?_) fun _ ↦ ?_
    · exact (tidy_terminate done).bind fun _ ↦ run_emitCaseBodies bodies (block + 1) done pending hbodies
    · exact keeps_bind (keeps_terminate _) fun _ ↦ keeps_emitCaseBodies retArg bodies _ _

end

end Visitor

/-! ## Bodies -/

theorem tidy_storeParams : (params : List (ℕ × Object)) →
    Triple (Tidy pending false) (storeParams params) fun _ ↦ Tidy pending false
  | [] => Triple.pure () fun _ ↦ id
  | _ :: params => (tidy_createOp _ _).bind fun _ ↦ tidy_storeParams params

/-- The entry block of a new function is open. -/
theorem tidy_newFunc : Tidy [] false { builder := Blocks.newFunc } where
  left := rfl
  right := by
    refine ⟨Blocks.newFunc_valid.curr, List.forall_mem_nil _, List.nodup_singleton _, Blocks.newFunc_valid.unmade,
      List.forall_mem_nil _, fun _ ↦ Blocks.newFunc_valid.openCurr, fun h ↦ absurd h Bool.false_ne_true,
      fun k hlt hne _ ↦ ?_⟩
    obtain rfl : k = 0 := by
      have hlt : k < 2 := hlt
      have hne : k ≠ 1 := hne
      omega
    exact open_nil.closed rfl

/-- No assertion has failed, and every block that was made has one terminator, its last instruction. -/
def WellTerminated (s : State) : Prop :=
  s.failed = false ∧ (∀ k < s.builder.count, Closed (s.builder.blocks k)) ∧ ∀ k, s.builder.count ≤ k → s.builder.blocks k = []

theorem Bad.not_wellTerminated {s : State} (h : Bad s) : ¬WellTerminated s := by
  rintro ⟨hfailed, hclosed, hunmade⟩
  rcases h with h | h
  · exact absurd (hfailed.symm.trans h) Bool.false_ne_true
  · refine h.not_closed fun k ↦ ?_
    by_cases hlt : k < s.builder.count
    · exact .inr (hclosed k hlt)
    · exact .inl (hunmade k (Nat.le_of_not_lt hlt))

theorem Tidy.wellTerminated_iff {closed : Bool} {s : State} (h : Tidy [] closed s) : WellTerminated s ↔ closed = true := by
  constructor
  · rintro ⟨-, hclosed, -⟩
    cases closed with
    | true => rfl
    | false => exact absurd (hclosed _ h.2.curr) (h.2.openCurr rfl).not_closed
  · rintro rfl
    exact ⟨h.1, fun k ↦ h.2.all_closed, h.2.unmade⟩

/-- The blocks of a body are well formed exactly if its code fits and control does not get to its end. -/
theorem emitBody_wellTerminated_iff (body : BodyCode) (hregular : regularNodes body.nodes = true) :
    WellTerminated (emitBody body) ↔ (fitsNodes body.nodes false false false && closesNodes body.nodes) = true := by
  have hrun := (tidy_storeParams body.params).bind
    (fun _ ↦ run_emitNodes body.retArg body.nodes {} [] false hregular) _ tidy_newFunc
  have hrun : Outcome (fitsNodes body.nodes false false false) (Tidy [] (closesNodes body.nodes)) (emitBody body) := hrun
  cases hfits : fitsNodes body.nodes false false false with
  | true =>
    rw [hfits] at hrun
    rw [Bool.true_and]
    exact Tidy.wellTerminated_iff hrun
  | false =>
    rw [hfits] at hrun
    rw [Bool.false_and]
    exact iff_of_false (Bad.not_wellTerminated hrun) Bool.false_ne_true

end Stela.CodeGen.StatBlocks
