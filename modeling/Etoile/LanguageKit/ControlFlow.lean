import Etoile.LanguageKit.GeneratorSteps

/-!
# The shape of the generated code

Every basic block of a compiled method ends with its one terminator, and nothing is emitted
without a block to emit it in, if and only if no return from a block ends an if branch or a loop
body, and nothing that takes code follows a return among the statements of the method itself.
-/

namespace Etoile.LanguageKit

open BlockCode

namespace AST

/-- A branch that leaves no open block to go on in: from a block, `ret` is a message send. -/
def ends (inBlock : Bool) : AST → Bool
  | loopFlowControl _ _ => true
  | ret _ => !inBlock
  | blockReturn _ => true
  | _ => false

def isFlowControl : AST → Bool
  | loopFlowControl _ _ => true
  | _ => false

end AST

mutual
/-- `-check` of break and continue: a loop with the label, out to the block or the method. -/
def AST.checkFlowControl (loops : List (Option String)) : AST → Bool
  | .loopFlowControl _ label => loops.any fun l => label = none ∨ l = label
  | .assignExpr _ expr => expr.checkFlowControl loops
  | .messageSend target _ arguments =>
    target.checkFlowControl loops && checkFlowControlIn loops arguments
  | .messageCascade receiver messages =>
    receiver.checkFlowControl loops && checkFlowControlInMessages loops messages
  | .compare lhs rhs => lhs.checkFlowControl loops && rhs.checkFlowControl loops
  | .arrayExpr elements => checkFlowControlIn loops elements
  | .ifStatement condition thenStatements elseStatements =>
    condition.checkFlowControl loops && checkFlowControlIn loops thenStatements
      && checkFlowControlIn loops elseStatements
  | .loop label initStatements preCondition statements postCondition updateStatements =>
    checkFlowControlIn (label :: loops) initStatements
      && checkFlowControlInOption (label :: loops) preCondition
      && checkFlowControlIn (label :: loops) statements
      && checkFlowControlInOption (label :: loops) postCondition
      && checkFlowControlIn (label :: loops) updateStatements
  | .ret expr => expr.checkFlowControl loops
  | .blockReturn expr => expr.checkFlowControl loops
  | .blockExpr _ _ statements => checkFlowControlIn [] statements
  | _ => true

def checkFlowControlIn (loops : List (Option String)) : List AST → Bool
  | [] => true
  | statement :: statements =>
    statement.checkFlowControl loops && checkFlowControlIn loops statements

def checkFlowControlInMessages (loops : List (Option String)) : List (String × List AST) → Bool
  | [] => true
  | (_, arguments) :: messages =>
    checkFlowControlIn loops arguments && checkFlowControlInMessages loops messages

def checkFlowControlInOption (loops : List (Option String)) : Option AST → Bool
  | none => true
  | some expr => expr.checkFlowControl loops
end

mutual
/-- The form that the parsers give a tree: a branch is a statement of a method, a block, an if
branch or a loop body, and neither an operand nor an initial or update statement of a loop. -/
def AST.grammatical : AST → Bool
  | .assignExpr _ expr => !expr.isBranch && expr.grammatical
  | .messageSend target _ arguments =>
    !target.isBranch && target.grammatical && areOperands arguments
  | .messageCascade receiver messages =>
    !receiver.isBranch && receiver.grammatical && areOperandsInMessages messages
  | .compare lhs rhs => !lhs.isBranch && lhs.grammatical && !rhs.isBranch && rhs.grammatical
  | .arrayExpr elements => areOperands elements
  | .ifStatement condition thenStatements elseStatements =>
    !condition.isBranch && condition.grammatical && areGrammatical thenStatements
      && areGrammatical elseStatements
  | .loop _ initStatements preCondition statements postCondition updateStatements =>
    areOperands initStatements && isOperandOption preCondition && areGrammatical statements
      && isOperandOption postCondition && areOperands updateStatements
  | .ret expr => !expr.isBranch && expr.grammatical
  | .blockReturn expr => !expr.isBranch && expr.grammatical
  | .blockExpr _ _ statements => areGrammatical statements
  | _ => true

def areOperands : List AST → Bool
  | [] => true
  | expr :: exprs => !expr.isBranch && expr.grammatical && areOperands exprs

def areOperandsInMessages : List (String × List AST) → Bool
  | [] => true
  | (_, arguments) :: messages => areOperands arguments && areOperandsInMessages messages

def isOperandOption : Option AST → Bool
  | none => true
  | some expr => !expr.isBranch && expr.grammatical

def areGrammatical : List AST → Bool
  | [] => true
  | statement :: statements => statement.grammatical && areGrammatical statements
end

mutual
/-- As far as code is generated, no return from a block ends an if branch or a loop body. -/
def AST.closes (inBlock : Bool) : AST → Bool
  | .assignExpr _ expr => expr.closes inBlock
  | .messageSend target _ arguments => target.closes inBlock && closesAll inBlock arguments
  | .messageCascade receiver messages =>
    receiver.closes inBlock && closesMessages inBlock messages
  | .compare lhs rhs => lhs.closes inBlock && rhs.closes inBlock
  | .arrayExpr elements => closesAll inBlock elements
  | .ifStatement condition thenStatements elseStatements =>
    condition.closes inBlock && closesClause inBlock thenStatements
      && closesClause inBlock elseStatements
  | .loop _ initStatements preCondition statements postCondition updateStatements =>
    closesAll inBlock initStatements && closesOption inBlock preCondition
      && closesClause inBlock statements
      && (statements.any AST.isBranch || closesOption inBlock postCondition)
      && closesAll inBlock updateStatements
  | .ret expr => expr.closes inBlock
  | .blockReturn expr => expr.closes inBlock
  | .blockExpr _ _ statements => closesBody statements
  | _ => true

def closesAll (inBlock : Bool) : List AST → Bool
  | [] => true
  | statement :: statements => statement.closes inBlock && closesAll inBlock statements

def closesMessages (inBlock : Bool) : List (String × List AST) → Bool
  | [] => true
  | (_, arguments) :: messages => closesAll inBlock arguments && closesMessages inBlock messages

def closesOption (inBlock : Bool) : Option AST → Bool
  | none => true
  | some expr => expr.closes inBlock

def closesClause (inBlock : Bool) : List AST → Bool
  | [] => true
  | statement :: statements =>
    statement.closes inBlock
      && if statement.isBranch then statement.ends inBlock else closesClause inBlock statements

def closesBody : List AST → Bool
  | [] => true
  | statement :: statements =>
    statement.closes true && (statement.isBranch || closesBody statements)
end

section Method

variable (t : Target) (symbols : SymbolTable)

def AST.emitsNothing : AST → Bool
  | .comment _ => true
  | .variableDecl _ => true
  | .stringLiteral _ => true
  | .numberLiteral value => t.isSmallInt value
  | .declRef symbol => compileDeclRef t.isClass symbols symbol = some .nilConstant
  | .compare lhs rhs => lhs.emitsNothing && rhs.emitsNothing
  | .messageCascade receiver messages => messages.isEmpty && receiver.emitsNothing
  | _ => false

def closesMethod : List AST → Bool
  | [] => true
  | statement :: statements =>
    statement.closes false
      && if statement.isBranch then statements.all (AST.emitsNothing t symbols)
        else closesMethod statements

end Method

section Compile

variable (t : Target)

theorem addBlockReturn_keeps : ∀ lastValue, Keeps (addBlockReturn t lastValue)
  | none => (Plain.pure _).keeps
  | some lastValue => setReturnInScope_keeps t lastValue

theorem finish_lost (s : LexicalScope) {k : BlockCode Instruction} (h : k.detached ≠ []) :
    (s.finish k).detached ≠ [] := by
  unfold LexicalScope.finish
  split
  · split_ifs
    · exact h
    · exact emit_lost h
  · exact h

/-- A block literal takes an instruction in the enclosing function, and what becomes of the scope
opened for it is of no account there. -/
theorem block_kept {g₁ g₂ g₃ : Generator} {u : Unit} {block : CodeValue}
    (h₁ : beginBlock g = some (u, g₁)) (h₂ : Kept g₁ g₂) (h₃ : endBlock g₂ = some (block, g₃)) :
    Kept g g₃ ∧ g₃.scope.insertPoint = g.scope.insertPoint ∧
      (g.scope.insertPoint = none → g₃.code.detached ≠ []) := by
  obtain ⟨-, rfl⟩ := Prod.mk.inj (Option.some.inj h₁)
  have hdetached := (initialiseScope_adds true .object
    (g.code.emit g.scope.insertPoint .code)).1.attached
  have henclosing := h₂.enclosing
  have hlost : (g.code.emit g.scope.insertPoint .code).detached ≠ [] → g₂.code.detached ≠ [] := by
    intro h
    refine h₂.lost ?_
    change (initialiseScope true .object _).2.detached ≠ []
    rwa [hdetached]
  unfold endBlock at h₃
  rw [henclosing] at h₃
  obtain ⟨-, rfl⟩ := Prod.mk.inj (Option.some.inj h₃)
  have hend : g₂.code.detached ≠ [] →
      (g₂.scope.endScope (g₂.scope.finish g₂.code)).detached ≠ [] := by
    intro h
    exact emit_lost (finish_lost _ h)
  refine ⟨⟨rfl, rfl, fun h => hend (hlost (emit_lost h))⟩, rfl, fun hp => hend (hlost ?_)⟩
  rw [hp]
  simp

theorem compileIf_keeps {condition : Gen (Option CodeValue)}
    {thenStatements elseStatements : Gen Bool} (hc : Keeps condition)
    (ht : Keeps thenStatements) (he : Keeps elseStatements) :
    Keeps (compileIf condition thenStatements elseStatements) :=
  .bind hc fun _ => .bind currentBasicBlock_quiet.keeps fun _ =>
    .bind startBasicBlock_keeps fun _ => .bind startBasicBlock_keeps fun _ =>
    .bind ht fun _ => .bind (joinIf_keeps _ _) fun _ => .bind startBasicBlock_keeps fun _ =>
    .bind he fun _ => .bind (joinIf_keeps _ _) fun _ => .bind (moveInsertPoint_keeps _) fun _ =>
    .bind (branchOnCondition_keeps _ _ _) fun _ => .bind (moveInsertPoint_keeps _) fun _ =>
    (Plain.pure _).keeps

section Loop

variable {label : Option String} {initStatements updateStatements : Gen (List (Option CodeValue))}
  {preCondition postCondition : BlockId → BlockId → Gen Unit} {statements : Gen Bool}

theorem compileIterations_keeps (hpre : ∀ a b, Keeps (preCondition a b)) (hs : Keeps statements)
    (hpost : ∀ a b, Keeps (postCondition a b)) (hu : Keeps updateStatements) (b : LoopBlocks)
    (old : LoopTargets) :
    Keeps (compileIterations label b old preCondition statements postCondition
      updateStatements) := by
  refine .bind (moveInsertPoint_keeps _) fun _ => .bind (hpre _ _) fun _ =>
    .bind (moveInsertPoint_keeps _) fun _ => .bind hs fun _ => .bind ?_ fun _ =>
    .bind (moveInsertPoint_keeps _) fun _ => .bind hu fun _ => .bind (goTo_keeps _) fun _ =>
    .bind (leaveLoop_quiet _ _).keeps fun _ => .bind (moveInsertPoint_keeps _) fun _ =>
    (Plain.pure _).keeps
  split_ifs
  · exact hpost _ _
  · exact (Plain.pure _).keeps

theorem compileLoop_keeps (hi : Keeps initStatements) (hpre : ∀ a b, Keeps (preCondition a b))
    (hs : Keeps statements) (hpost : ∀ a b, Keeps (postCondition a b))
    (hu : Keeps updateStatements) :
    Keeps (compileLoop label initStatements preCondition statements postCondition
      updateStatements) :=
  .bind currentBasicBlock_quiet.keeps fun _ => .bind startBasicBlock_keeps fun _ =>
    .bind startBasicBlock_keeps fun _ => .bind startBasicBlock_keeps fun _ =>
    .bind startBasicBlock_keeps fun _ => .bind (enterLoop_quiet _ _ _).keeps fun _ =>
    .bind (moveInsertPoint_keeps _) fun _ => .bind hi fun _ => .bind (goTo_keeps _) fun _ =>
    compileIterations_keeps hpre hs hpost hu _ _

end Loop

/-- A block literal takes an instruction where it stands, and leaves the insertion point there. -/
theorem compileBlock_kept {body : Gen (Option (Option CodeValue))} (hbody : Keeps body)
    {v : Option CodeValue} (h : compileBlock t body g = some (v, g')) :
    Kept g g' ∧ g'.scope.insertPoint = g.scope.insertPoint ∧
      (g.scope.insertPoint = none → g'.code.detached ≠ []) := by
  obtain ⟨_, g₁, h₁, h⟩ := Gen.bind_eq_some.1 h
  obtain ⟨lastValue, g₂, h₂, h⟩ := Gen.bind_eq_some.1 h
  obtain ⟨_, g₃, h₃, h⟩ := Gen.bind_eq_some.1 h
  obtain ⟨_, g₄, h₄, h⟩ := Gen.bind_eq_some.1 h
  obtain ⟨-, rfl⟩ := Gen.pure_eq_some.1 h
  exact block_kept h₁ ((hbody h₂).trans (addBlockReturn_keeps t lastValue h₃)) h₄

mutual
theorem compile_keeps (symbols : SymbolTable) : ∀ s, Keeps (compile t symbols s)
  | .comment _ => by
    rw [compile]
    exact (Plain.pure _).keeps
  | .numberLiteral value => by
    rw [compile]
    exact (Plain.intConstant t value).keeps
  | .stringLiteral _ => by
    rw [compile]
    exact (Plain.pure _).keeps
  | .symbolRef _ => by
    rw [compile]
    exact (Plain.bind (.build .emit_code) fun _ => .pure _).keeps
  | .declRef symbol => by
    rw [compile]
    exact (Plain.load _).keeps
  | .variableDecl _ => by
    rw [compile]
    exact (Plain.pure _).keeps
  | .assignExpr target expr => by
    rw [compile]
    exact .bind (compile_keeps symbols expr) fun rval =>
      (Plain.bind (.store t rval _) fun _ => .pure _).keeps
  | .messageSend target selector arguments => by
    rw [compile]
    exact .bind (compile_keeps symbols target) fun _ =>
      .bind (compileAll_keeps symbols arguments) fun _ => (Plain.compileMessage t ..).keeps
  | .messageCascade receiver messages => by
    rw [compile]
    exact .bind (compile_keeps symbols receiver) fun _ => compileMessages_keeps symbols _ _ messages
  | .compare lhs rhs => by
    rw [compile]
    exact .bind (compile_keeps symbols lhs) fun _ => .bind (compile_keeps symbols rhs) fun _ =>
      (Plain.comparePointers _ _).keeps
  | .arrayExpr elements => by
    rw [compile]
    exact .bind (compileAll_keeps symbols elements) fun _ =>
      (Plain.bind (.build .emit_code) fun _ => .bind (.required _) fun _ =>
        .sendToObject t _ _).keeps
  | .ifStatement condition thenStatements elseStatements => by
    rw [compile]
    exact compileIf_keeps (compile_keeps symbols condition)
      (compileUntilBranch_keeps symbols thenStatements)
      (compileUntilBranch_keeps symbols elseStatements)
  | .loop label initStatements preCondition statements postCondition updateStatements => by
    rw [compile]
    exact compileLoop_keeps (compileAll_keeps symbols initStatements)
      (fun _ _ => compileCondition_keeps symbols _ _ preCondition)
      (compileUntilBranch_keeps symbols statements)
      (fun _ _ => compileCondition_keeps symbols _ _ postCondition)
      (compileAll_keeps symbols updateStatements)
  | .loopFlowControl flavor label => by
    rw [compile]
    exact .bind (flowControlBasicBlock_quiet _ _).keeps fun _ =>
      .bind (goTo_keeps _) fun _ => (Plain.pure _).keeps
  | .ret expr => by
    rw [compile]
    exact .bind (compile_keeps symbols expr) fun _ =>
      .bind (setReturn_keeps t _) fun _ => (Plain.pure _).keeps
  | .blockReturn expr => by
    rw [compile]
    exact .bind (compile_keeps symbols expr) fun _ =>
      .bind (setReturnInScope_keeps t _) fun _ => (Plain.pure _).keeps
  | .blockExpr arguments locals statements => by
    rw [compile]
    exact fun _ _ _ h => (compileBlock_kept t (compileBody_keeps _ none statements) h).1

theorem compileAll_keeps (symbols : SymbolTable) : ∀ statements,
    Keeps (compileAll t symbols statements)
  | [] => by
    rw [compileAll]
    exact (Plain.pure _).keeps
  | statement :: statements => by
    rw [compileAll]
    exact .bind (compile_keeps symbols statement) fun _ =>
      .bind (compileAll_keeps symbols statements) fun _ => (Plain.pure _).keeps

theorem compileCondition_keeps (symbols : SymbolTable) (ifTrue ifFalse : BlockId) : ∀ condition,
    Keeps (compileCondition t symbols ifTrue ifFalse condition)
  | none => by
    rw [compileCondition]
    exact goTo_keeps _
  | some condition => by
    rw [compileCondition]
    exact .bind (compile_keeps symbols condition) fun _ => branchOnCondition_keeps _ _ _

theorem compileMessages_keeps (symbols : SymbolTable) (target : Option CodeValue) :
    ∀ (result : Option CodeValue) messages,
      Keeps (compileMessages t symbols target result messages)
  | _, [] => by
    rw [compileMessages]
    exact (Plain.pure _).keeps
  | _, (selector, arguments) :: messages => by
    rw [compileMessages]
    exact .bind (compileAll_keeps symbols arguments) fun _ =>
      .bind (Plain.compileMessage t ..).keeps fun _ =>
        compileMessages_keeps symbols target _ messages

theorem compileUntilBranch_keeps (symbols : SymbolTable) : ∀ statements,
    Keeps (compileUntilBranch t symbols statements)
  | [] => by
    rw [compileUntilBranch]
    exact (Plain.pure _).keeps
  | statement :: statements => by
    rw [compileUntilBranch]
    refine .bind (compile_keeps symbols statement) fun _ => ?_
    split_ifs
    · exact (Plain.pure _).keeps
    · exact compileUntilBranch_keeps symbols statements

theorem compileBody_keeps (symbols : SymbolTable) : ∀ (lastValue : Option CodeValue) statements,
    Keeps (compileBody t symbols lastValue statements)
  | _, [] => by
    rw [compileBody]
    exact (Plain.pure _).keeps
  | _, statement :: statements => by
    rw [compileBody]
    split_ifs
    · exact compileBody_keeps symbols _ statements
    · refine .bind (compile_keeps symbols statement) fun _ => ?_
      exact (Plain.pure _).keeps
    · refine .bind (compile_keeps symbols statement) fun _ => ?_
      exact compileBody_keeps symbols _ statements
end

theorem compileIf_loses {condition : Gen (Option CodeValue)}
    {thenStatements elseStatements : Gen Bool} (hidle : Idle condition)
    (ht : Keeps thenStatements) (he : Keeps elseStatements) :
    Loses (compileIf condition thenStatements elseStatements) := by
  refine .bind hidle (fun _ => .current ?_) fun _ => ?_
  · exact .after fun _ => .after fun _ => .after fun _ => .after fun _ => .after fun _ =>
      .after fun _ => .after fun _ => .move <|
        .before (branchOnCondition_loses _ _ _) fun _ =>
          .bind (moveInsertPoint_keeps _) fun _ => (Plain.pure _).keeps
  · exact .bind currentBasicBlock_quiet.keeps fun _ => .bind startBasicBlock_keeps fun _ =>
      .bind startBasicBlock_keeps fun _ => .bind ht fun _ => .bind (joinIf_keeps _ _) fun _ =>
      .bind startBasicBlock_keeps fun _ => .bind he fun _ => .bind (joinIf_keeps _ _) fun _ =>
      .bind (moveInsertPoint_keeps _) fun _ => .bind (branchOnCondition_keeps _ _ _) fun _ =>
      .bind (moveInsertPoint_keeps _) fun _ => (Plain.pure _).keeps

theorem compileLoop_loses {label : Option String}
    {initStatements updateStatements : Gen (List (Option CodeValue))}
    {preCondition postCondition : BlockId → BlockId → Gen Unit} {statements : Gen Bool}
    (hidle : Idle initStatements) (hpre : ∀ a b, Keeps (preCondition a b))
    (hs : Keeps statements) (hpost : ∀ a b, Keeps (postCondition a b))
    (hu : Keeps updateStatements) :
    Loses (compileLoop label initStatements preCondition statements postCondition
      updateStatements) := by
  refine .current <| .after fun _ => .after fun _ => .after fun _ => .after fun _ =>
    .after fun _ => .move <| .bind hidle (fun _ => ?_) fun _ => ?_
  · exact .before (goTo_loses _) fun _ => compileIterations_keeps hpre hs hpost hu _ _
  · exact .bind (goTo_keeps _) fun _ => compileIterations_keeps hpre hs hpost hu _ _

theorem comparePointers_constant {lhs rhs v : Option CodeValue} (hl : lhs ≠ some .instruction)
    (hr : rhs ≠ some .instruction) (h : comparePointers lhs rhs g = some (v, g')) :
    g' = g ∧ v ≠ some .instruction := by
  obtain ⟨l, g₁, h₁, hrest⟩ := Gen.bind_eq_some.1 h
  obtain ⟨hl', hg₁⟩ := required_eq_some.1 h₁
  obtain ⟨r, g₂, h₂, hfold⟩ := Gen.bind_eq_some.1 hrest
  obtain ⟨hr', hg₂⟩ := required_eq_some.1 h₂
  have hconst : l = .constant ∧ r = .constant := by
    rw [hl'] at hl
    rw [hr'] at hr
    cases l <;> cases r <;> simp at hl hr ⊢
  rw [if_pos hconst, hg₂, hg₁] at hfold
  obtain ⟨rfl, rfl⟩ := Gen.pure_eq_some.1 hfold
  exact ⟨rfl, by simp⟩

/-- A node that emits nothing leaves the generator as it is, and its value is no instruction. -/
theorem compile_emitsNothing (symbols : SymbolTable) : ∀ (s : AST) {v : Option CodeValue},
    s.emitsNothing t symbols → compile t symbols s g = some (v, g') →
      g' = g ∧ v ≠ some .instruction
  | .comment _, v, _, h => by
    rw [compile] at h
    obtain ⟨rfl, rfl⟩ := Gen.pure_eq_some.1 h
    exact ⟨rfl, by simp⟩
  | .variableDecl _, v, _, h => by
    rw [compile] at h
    obtain ⟨rfl, rfl⟩ := Gen.pure_eq_some.1 h
    exact ⟨rfl, by simp⟩
  | .stringLiteral _, v, _, h => by
    rw [compile] at h
    obtain ⟨rfl, rfl⟩ := Gen.pure_eq_some.1 h
    exact ⟨rfl, by simp⟩
  | .numberLiteral value, v, hs, h => by
    rw [AST.emitsNothing] at hs
    rw [compile, intConstant, if_pos hs] at h
    obtain ⟨rfl, rfl⟩ := Gen.pure_eq_some.1 h
    exact ⟨rfl, by simp⟩
  | .declRef symbol, v, hs, h => by
    rw [compile, of_decide_eq_true hs, load] at h
    obtain ⟨rfl, rfl⟩ := Gen.pure_eq_some.1 h
    exact ⟨rfl, by simp⟩
  | .compare lhs rhs, v, hs, h => by
    rw [AST.emitsNothing, Bool.and_eq_true] at hs
    rw [compile] at h
    obtain ⟨l, g₁, h₁, hrest⟩ := Gen.bind_eq_some.1 h
    obtain ⟨r, g₂, h₂, hcompare⟩ := Gen.bind_eq_some.1 hrest
    obtain ⟨hg₁, hl⟩ := compile_emitsNothing symbols lhs hs.1 h₁
    obtain ⟨hg₂, hr⟩ := compile_emitsNothing symbols rhs hs.2 h₂
    rw [hg₂, hg₁] at hcompare
    exact comparePointers_constant hl hr hcompare
  | .messageCascade receiver [], v, hs, h => by
    rw [compile] at h
    obtain ⟨target, g₁, h₁, hrest⟩ := Gen.bind_eq_some.1 h
    have hg₁ := (compile_emitsNothing symbols receiver (by simpa [AST.emitsNothing] using hs) h₁).1
    rw [compileMessages, hg₁] at hrest
    obtain ⟨rfl, rfl⟩ := Gen.pure_eq_some.1 hrest
    exact ⟨rfl, by simp⟩

theorem compile_idle_of {symbols : SymbolTable} {s : AST}
    (h : s.emitsNothing t symbols = false → Loses (compile t symbols s)) :
    Idle (compile t symbols s) := by
  intro g v g' hs hp
  by_cases he : s.emitsNothing t symbols
  · exact .inl (compile_emitsNothing t symbols s he hs).1
  · exact .inr (h (by simpa using he) hs hp)

mutual
theorem compile_loses (symbols : SymbolTable) : ∀ s, s.emitsNothing t symbols = false →
    Loses (compile t symbols s)
  | .numberLiteral value, he => by
    rw [compile, intConstant, if_neg (by simpa [AST.emitsNothing] using he)]
    exact .before (.build (.emit _)) fun _ => (Plain.pure _).keeps
  | .symbolRef _, _ => by
    rw [compile]
    exact .before (.build (.emit _)) fun _ => (Plain.pure _).keeps
  | .declRef symbol, he => by
    rw [compile]
    exact .load (of_decide_eq_false he)
  | .assignExpr target expr, _ => by
    rw [compile]
    exact .bind (compile_idle_of t (compile_loses symbols expr))
      (fun rval => .before (.store t rval _) fun _ => (Plain.pure _).keeps)
      fun rval => (Plain.bind (.store t rval _) fun _ => .pure _).keeps
  | .messageSend target selector arguments, _ => by
    rw [compile]
    refine .bind (compile_idle_of t (compile_loses symbols target)) (fun _ => ?_) fun _ => ?_
    · exact .bind (compileAll_idle symbols arguments) (fun _ => .compileMessage t ..)
        fun _ => (Plain.compileMessage t ..).keeps
    · exact .bind (compileAll_keeps t symbols arguments) fun _ => (Plain.compileMessage t ..).keeps
  | .messageCascade receiver [], he => by
    rw [compile]
    have he' : receiver.emitsNothing t symbols = false := by simpa [AST.emitsNothing] using he
    exact .before (compile_loses symbols receiver he') fun _ =>
      compileMessages_keeps t symbols _ _ []
  | .messageCascade receiver ((selector, arguments) :: messages), _ => by
    rw [compile]
    refine .bind (compile_idle_of t (compile_loses symbols receiver)) (fun target => ?_) fun _ =>
      compileMessages_keeps t symbols _ _ _
    rw [compileMessages]
    refine .bind (compileAll_idle symbols arguments) (fun _ => ?_) fun _ => ?_
    · exact .before (.compileMessage t ..) fun _ => compileMessages_keeps t symbols _ _ _
    · exact .bind (Plain.compileMessage t ..).keeps fun _ => compileMessages_keeps t symbols _ _ _
  | .compare lhs rhs, he => by
    rw [compile]
    by_cases hl : lhs.emitsNothing t symbols
    · have hr : rhs.emitsNothing t symbols = false := by
        simpa [AST.emitsNothing, hl] using he
      exact .bind (compile_idle_of t (compile_loses symbols lhs))
        (fun _ => .before (compile_loses symbols rhs hr) fun _ => (Plain.comparePointers _ _).keeps)
        fun _ => .bind (compile_keeps t symbols rhs) fun _ => (Plain.comparePointers _ _).keeps
    · exact .before (compile_loses symbols lhs (by simpa using hl)) fun _ =>
        .bind (compile_keeps t symbols rhs) fun _ => (Plain.comparePointers _ _).keeps
  | .arrayExpr elements, _ => by
    rw [compile]
    refine .bind (compileAll_idle symbols elements) (fun _ => ?_) fun _ => ?_
    · exact .before (.build (.emit _)) fun _ =>
        (Plain.bind (.required _) fun _ => .sendToObject t _ _).keeps
    · exact (Plain.bind (.build .emit_code) fun _ => .bind (.required _) fun _ =>
        .sendToObject t _ _).keeps
  | .ifStatement condition thenStatements elseStatements, _ => by
    rw [compile]
    exact compileIf_loses (compile_idle_of t (compile_loses symbols condition))
      (compileUntilBranch_keeps t symbols _) (compileUntilBranch_keeps t symbols _)
  | .loop label initStatements preCondition statements postCondition updateStatements, _ => by
    rw [compile]
    exact compileLoop_loses (compileAll_idle symbols initStatements)
      (fun _ _ => compileCondition_keeps t symbols _ _ _) (compileUntilBranch_keeps t symbols _)
      (fun _ _ => compileCondition_keeps t symbols _ _ _) (compileAll_keeps t symbols _)
  | .loopFlowControl flavor label, _ => by
    rw [compile]
    exact .after (flowControlBasicBlock_quiet _ _) fun _ =>
      .before (goTo_loses _) fun _ => (Plain.pure _).keeps
  | .ret expr, _ => by
    rw [compile]
    exact .bind (compile_idle_of t (compile_loses symbols expr))
      (fun _ => .before (setReturn_loses t _) fun _ => (Plain.pure _).keeps)
      fun _ => .bind (setReturn_keeps t _) fun _ => (Plain.pure _).keeps
  | .blockReturn expr, _ => by
    rw [compile]
    exact .bind (compile_idle_of t (compile_loses symbols expr))
      (fun _ => .before (setReturnInScope_loses t _) fun _ => (Plain.pure _).keeps)
      fun _ => .bind (setReturnInScope_keeps t _) fun _ => (Plain.pure _).keeps
  | .blockExpr arguments locals statements, _ => by
    rw [compile]
    exact fun _ _ _ h hp =>
      (compileBlock_kept t (compileBody_keeps t _ none statements) h).2.2 hp

theorem compileAll_idle (symbols : SymbolTable) : ∀ statements,
    Idle (compileAll t symbols statements)
  | [] => by
    rw [compileAll]
    exact .pure _
  | statement :: statements => by
    rw [compileAll]
    exact .bind (compile_idle_of t (compile_loses symbols statement))
      (fun _ => .bind (compileAll_idle symbols statements) (fun _ => .pure _)
        fun _ => (Plain.pure _).keeps)
      fun _ => .bind (compileAll_keeps t symbols statements) fun _ => (Plain.pure _).keeps
end

end Compile

end Etoile.LanguageKit
