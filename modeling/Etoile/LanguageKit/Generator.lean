import Etoile.LanguageKit.SymbolTable
import Etoile.Lib.BasicBlocks

/-!
# The code generator

`-compileWithGenerator:` of every node, over the builder that the LLVM code generator keeps for
each lexical scope. Of an instruction only its place and its role in the control flow are kept.
-/

namespace Etoile.LanguageKit

abbrev BlockId := ℕ

/-- A `code` stands for a run of instructions none of which ends the block. -/
inductive Instruction
  | code
  | br (dest : BlockId)
  | condBr (ifTrue ifFalse : BlockId)
  | invoke (normal unwind : BlockId)
  | ret
  | unreachable
  deriving DecidableEq, Repr

instance : Terminating Instruction where
  isTerminator
    | .code => false
    | _ => true

/-- An `IRBuilder`: the block it inserts at, and the module. -/
abbrev Builder := Option BlockId × BlockCode Instruction

/-- The value of an expression. The builder folds operations on constants. -/
inductive CodeValue
  | constant | instruction
  deriving DecidableEq, Repr

/-- What boxing and unboxing tell apart in the type encoding of an argument or a result. -/
inductive Encoding
  | lkObject | object | void
  | primitive (castSelName : String)

def Encoding.isVoid : Encoding → Bool
  | .void => true
  | _ => false

structure MethodTypes where
  result : Encoding
  argument : ℕ → Encoding

structure Target where
  isClass : String → Bool
  typeForMethod : String → Option MethodTypes
  hasSmallIntFunction : String → Bool
  pointerBits : ℕ

namespace Builder

def emit (i : Instruction) (b : Builder) : Builder := (b.1, b.2.emit b.1 i)

def emitUnlessConstant (v : CodeValue) (b : Builder) : Builder :=
  if v = .constant then b else b.emit .code

def createInvoke (unwind : BlockId) (b : Builder) : Builder :=
  (some b.2.count, b.2.create.emit b.1 (.invoke b.2.count unwind))

/-- `MessageSendId` with a builder: the lookup, and then `callIMP`, which asks the insertion block
for its function and crashes if there is none, after the instructions of the lookup are lost. -/
def messageSendId (unwind : BlockId) (b : Builder) : Builder := (b.emit .code).createInvoke unwind

/-- The paths of a message send to a small integer and to an object, which meet again. -/
def sendPaths (small object : Builder → Builder) (resultIsVoid : Bool)
    (SmallInt RealObject Continue : BlockId) (code : BlockCode Instruction) : Builder :=
  let b := small (some SmallInt, code)
  let code := b.2.emit b.1 (.br Continue)
  let b := object (some RealObject, code)
  let code := b.2.emit b.1 (.br Continue)
  if resultIsVoid then (some Continue, code) else emit .code (some Continue, code)

/-- `MessageSend` with a builder, which tests for a small integer first. -/
def messageSend (hasSmallIntFunction resultIsVoid : Bool) (ExceptionBB : BlockId)
    (receiver : CodeValue) (unboxArgs : Builder → Builder) (b : Builder) : Builder :=
  let b := b.emitUnlessConstant receiver
  let SmallInt := b.2.count
  let RealObject := b.2.count + 1
  let Continue := b.2.count + 2
  let code := (b.2.create.create.emit b.1 (.condBr SmallInt RealObject)).create
  sendPaths
    (fun b => if hasSmallIntFunction then b.createInvoke ExceptionBB
      else (unboxArgs (b.emit .code)).messageSendId ExceptionBB)
    (fun b => (unboxArgs b).messageSendId ExceptionBB)
    resultIsVoid SmallInt RealObject Continue code

def unbox (t : Target) (ExceptionBB : BlockId) (val : CodeValue) : Encoding → Builder → Builder
  | .lkObject | .void => id
  | .object => emit .code
  | .primitive castSelName =>
    messageSend (t.hasSmallIntFunction castSelName) false ExceptionBB val id

def unboxArgs (t : Target) (ExceptionBB : BlockId) (selTypes : Option MethodTypes) :
    ℕ → List CodeValue → Builder → Builder
  | _, [], b => b
  | i, val :: argv, b =>
    let encoding := (selTypes.map fun types => types.argument i).getD .object
    unboxArgs t ExceptionBB selTypes (i + 1) argv (b.unbox t ExceptionBB val encoding)

def boxValue (selTypes : Option MethodTypes) (b : Builder) : Builder :=
  match selTypes.map MethodTypes.result with
  | some (.primitive _) => b.emit .code
  | _ => b

end Builder

def MethodTypes.isVoid (types : MethodTypes) : Bool := types.result.isVoid

/-- A `void` result is boxed as the constant `nil`. -/
def resultOf (selTypes : Option MethodTypes) : CodeValue :=
  if selTypes.any MethodTypes.isVoid then .constant else .instruction

/-- A `CodeGenLexicalScope`, of a block or of a method. -/
structure LexicalScope where
  isBlock : Bool
  insertPoint : Option BlockId
  CleanupBB : BlockId
  CleanupEndBB : BlockId
  ExceptionBB : BlockId
  PromoteBB : BlockId
  RetBB : BlockId
  ReturnType : Encoding
  containsBlocks : Bool

/-- The module with its stack of scopes, and the basic blocks that a loop leaves for. -/
structure Generator where
  code : BlockCode Instruction
  scope : LexicalScope
  enclosing : List LexicalScope
  labelledBasicBlocks : String → Option BlockId
  unlabelledBreakBB : Option BlockId
  unlabelledContinueBB : Option BlockId

/-- Generation fails where it raises an exception or uses a missing value. -/
abbrev Gen := StateT Generator Option

/-- The blocks `return` and `finish`. -/
def returnBlocks (returnType : Encoding) (entry promote : BlockId) : List (List Instruction) :=
  [if returnType.isVoid then [.ret] else [.code, .ret],
    [.code, .condBr (promote + 3) (entry + 1)]]

/-- The blocks `promote`, `promote_context`, `non_local_return_handler`, `exception_handler`,
`non_local_return` and `rethrow`. -/
def handlerBlocks (entry promote : BlockId) : List (List Instruction) :=
  [[.code, .condBr (promote + 1) (entry + 2)], [.code, .br (entry + 2)], [.code, .br (entry + 3)],
    [.code, .condBr (promote + 4) (promote + 5)], [.code, .br (entry + 1)], [.code, .unreachable]]

def promoteBlock (entry : BlockId) : Encoding → BlockId
  | .lkObject => entry + 6
  | _ => entry + 4

/-- The blocks that every function starts out with, before and after the last block of the
cleanup, and that last block. -/
def skeleton (entry : BlockId) :
    Encoding → List (List Instruction) × List Instruction × List (List Instruction)
  | .lkObject =>
    -- a small integer is not retained
    (returnBlocks .lkObject entry (entry + 6) ++ [[.code, .condBr (entry + 4) (entry + 5)]],
      [.code], [.code, .br (entry + 4)] :: handlerBlocks entry (entry + 6))
  | .object => (returnBlocks .object entry (entry + 4), [.code], handlerBlocks entry (entry + 4))
  | returnType => (returnBlocks returnType entry (entry + 4), [], handlerBlocks entry (entry + 4))

/-- `InitialiseFunction`, which leaves the builder in the entry block. -/
def initialiseScope (isBlock : Bool) (returnType : Encoding) (code : BlockCode Instruction) :
    LexicalScope × BlockCode Instruction :=
  let entry := code.count
  let parts := skeleton entry returnType
  let started := parts.1.foldl .add (code.add [.code])
  let handled := started.add parts.2.1
  let promote := promoteBlock entry returnType
  ({ isBlock := isBlock
     insertPoint := some entry
     CleanupBB := entry + 3
     CleanupEndBB := started.count
     ExceptionBB := promote + 2
     PromoteBB := promote
     RetBB := entry + 2
     ReturnType := returnType
     containsBlocks := false },
    parts.2.2.foldl .add handled)

namespace LexicalScope

def endScope (s : LexicalScope) (code : BlockCode Instruction) : BlockCode Instruction :=
  code.emit (some s.CleanupEndBB) (.br (if s.containsBlocks then s.PromoteBB else s.RetBB))

/-- A branch to the cleanup, unless the block has its terminator or there is none. -/
def finish (s : LexicalScope) (code : BlockCode Instruction) : BlockCode Instruction :=
  match s.insertPoint with
  | some b => if code.hasTerminator b then code else code.emit (some b) (.br s.CleanupBB)
  | none => code

end LexicalScope

def build (f : Builder → Builder) : Gen Unit := fun g =>
  let b := f (g.scope.insertPoint, g.code)
  some ((), { g with code := b.2, scope := { g.scope with insertPoint := b.1 } })

def startBasicBlock : Gen BlockId := fun g =>
  some (g.code.count,
    { g with code := g.code.create, scope := { g.scope with insertPoint := some g.code.count } })

def currentScope : Gen LexicalScope := fun g => some (g.scope, g)

def currentBasicBlock : Gen (Option BlockId) := fun g => some (g.scope.insertPoint, g)

def moveInsertPointToBasicBlock (bb : Option BlockId) : Gen Unit := fun g =>
  some ((), { g with scope := { g.scope with insertPoint := bb } })

def required {α : Type} (v : Option α) : Gen α := fun g => v.map (·, g)

def goToBasicBlock (bb : Option BlockId) : Gen Unit := do
  let dest ← required bb
  build (Builder.emit (.br dest))
  moveInsertPointToBasicBlock (some dest)

def branchOnCondition (condition : Option CodeValue) (ifTrue ifFalse : BlockId) : Gen Unit := do
  let v ← required condition
  build fun b => (b.emitUnlessConstant v).emit (.condBr ifTrue ifFalse)

def beginBlock : Gen Unit := fun g =>
  -- the block object in the enclosing function
  let code := g.code.emit g.scope.insertPoint .code
  let p := initialiseScope true .object code
  some ((), { g with code := p.2, scope := p.1, enclosing := g.scope :: g.enclosing })

def endBlock : Gen CodeValue := fun g =>
  match g.enclosing with
  | [] => none
  | parent :: enclosing =>
    some (.instruction, { g with
      code := g.scope.endScope (g.scope.finish g.code)
      scope := { parent with containsBlocks := true }
      enclosing := enclosing })

def setBasicBlock (bb : Option BlockId) (label : String) : Gen Unit := fun g =>
  some ((), { g with labelledBasicBlocks := Function.update g.labelledBasicBlocks label bb })

def basicBlockForLabel (label : String) : Gen (Option BlockId) := fun g =>
  some (g.labelledBasicBlocks label, g)

def unlabelledBasicBlocks : Gen (Option BlockId × Option BlockId) := fun g =>
  some ((g.unlabelledBreakBB, g.unlabelledContinueBB), g)

def setUnlabelledBasicBlocks (breakBB continueBB : Option BlockId) : Gen Unit := fun g =>
  some ((), { g with unlabelledBreakBB := breakBB, unlabelledContinueBB := continueBB })

def labelKey (flavor : Flavor) (label : String) : String :=
  match flavor with
  | .toBreak => "break " ++ label
  | .toContinue => "continue " ++ label

structure LoopTargets where
  breakBB : Option BlockId
  continueBB : Option BlockId
  unlabelledBreakBB : Option BlockId
  unlabelledContinueBB : Option BlockId

def enterLoop (label : Option String) (breakBB continueBB : BlockId) : Gen LoopTargets := do
  let (oldBreak, oldContinue) ← unlabelledBasicBlocks
  setUnlabelledBasicBlocks (some breakBB) (some continueBB)
  match label with
  | none => pure ⟨none, none, oldBreak, oldContinue⟩
  | some label =>
    let oldBreakBB ← basicBlockForLabel (labelKey .toBreak label)
    let oldContinueBB ← basicBlockForLabel (labelKey .toContinue label)
    setBasicBlock (some breakBB) (labelKey .toBreak label)
    setBasicBlock (some continueBB) (labelKey .toContinue label)
    pure ⟨oldBreakBB, oldContinueBB, oldBreak, oldContinue⟩

def leaveLoop (label : Option String) (old : LoopTargets) : Gen Unit := do
  setUnlabelledBasicBlocks old.unlabelledBreakBB old.unlabelledContinueBB
  match label with
  | none => pure ()
  | some label =>
    setBasicBlock old.breakBB (labelKey .toBreak label)
    setBasicBlock old.continueBB (labelKey .toContinue label)

def flowControlBasicBlock (flavor : Flavor) (label : Option String) : Gen (Option BlockId) := do
  match label with
  | some label => basicBlockForLabel (labelKey flavor label)
  | none =>
    let (breakBB, continueBB) ← unlabelledBasicBlocks
    match flavor with
    | .toBreak => pure breakBB
    | .toContinue => pure continueBB

section Send

variable (t : Target)

def storeReturnValue (s : LexicalScope) : Option CodeValue → Gen Unit
  | none => pure ()
  | some v => do
    -- a `void` function has no return value to store to
    required (if s.ReturnType.isVoid then none else some ())
    build fun b => (b.unbox t s.ExceptionBB v s.ReturnType).emit .code

/-- `CodeGenLexicalScope::SetReturn`. -/
def setReturnInScope (ret : Option CodeValue) : Gen Unit := do
  let s ← currentScope
  storeReturnValue t s ret
  build (Builder.emit (.br s.CleanupBB))
  moveInsertPointToBasicBlock none

def blockReturn (ret : Option CodeValue) : Gen Unit := setReturnInScope t ret

/-- A block sends itself `nonLocalReturn:`. -/
def setReturn (ret : Option CodeValue) : Gen Unit := do
  let s ← currentScope
  if s.isBlock then
    let _ ← required ret
    build (Builder.messageSendId s.ExceptionBB)
  else setReturnInScope t ret

/-- `-sendMessage:types:toObject:withArgs:count:`. -/
def sendToObject (types : Option MethodTypes) (argv : List CodeValue) : Gen (Option CodeValue) := do
  let s ← currentScope
  build fun b =>
    ((b.unboxArgs t s.ExceptionBB types 0 argv).messageSendId s.ExceptionBB).boxValue types
  pure (some (resultOf types))

/-- `-sendMessage:types:to:withArgs:count:`. -/
def sendTo (selector : String) (types : Option MethodTypes) (receiver : CodeValue)
    (argv : List CodeValue) : Gen (Option CodeValue) := do
  let s ← currentScope
  build fun b =>
    (b.messageSend (t.hasSmallIntFunction selector) (types.any MethodTypes.isVoid) s.ExceptionBB
      receiver (Builder.unboxArgs t s.ExceptionBB types 0 argv)).boxValue types
  pure (some (resultOf types))

/-- `-sendSuperMessage:types:withArgs:count:`, which unwinds to the cleanup. -/
def sendSuper (types : Option MethodTypes) (argv : List CodeValue) : Gen (Option CodeValue) := do
  let s ← currentScope
  build fun b =>
    (((b.emit .code).unboxArgs t s.ExceptionBB types 0 argv).messageSendId s.CleanupBB).boxValue
      types
  pure (some (resultOf types))

def sendMessage (symbols : SymbolTable) (target : Option AST) (selector : String)
    (types : Option MethodTypes) (receiver : CodeValue) (argv : List CodeValue) :
    Gen (Option CodeValue) :=
  match target with
  | some (.declRef symbol) =>
    match symbols.scopeOfSymbol t.isClass symbol with
    | .global => sendToObject t types argv
    | .builtin =>
      if symbol = "self" then sendToObject t types argv
      else if symbol = "super" then sendSuper t types argv
      else sendTo t selector types receiver argv
    | _ => sendTo t selector types receiver argv
  | _ => sendTo t selector types receiver argv

def sendAutorelease (selector : String) : Gen Unit :=
  if selector = "new" ∨ selector = "alloc" then do
    let _ ← sendToObject t (t.typeForMethod "autorelease") []
  else pure ()

/-- `-compileWithGenerator:forTarget:` of `LKMessageSend`, after its arguments. -/
def compileMessage (symbols : SymbolTable) (target : Option AST) (selector : String)
    (receiver : Option CodeValue) (arguments : List (Option CodeValue)) :
    Gen (Option CodeValue) := do
  let value ← required receiver
  let argv ← required (arguments.mapM id)
  let result ← sendMessage t symbols target selector (t.typeForMethod selector) value argv
  sendAutorelease t selector
  pure result

def load : Option Access → Gen (Option CodeValue)
  | none => fun _ => none
  | some .nilConstant => pure (some .constant)
  | some _ => do
    build (Builder.emit .code)
    pure (some .instruction)

def store (rval : Option CodeValue) : Option Access → Gen Unit
  | none => fun _ => none
  | some (.storeClassVariable _) => do
    let value ← required rval
    let _ ← sendTo t "retain" none value []
    build (Builder.emit .code)
    let _ ← sendTo t "autorelease" none .instruction []
    build (Builder.emit .code)
  | some _ => do
    let _ ← required rval
    build (Builder.emit .code)

/-- `strtoll(value, NULL, 10)`. -/
def strtoll (value : String) : ℤ :=
  let p : Bool × List Char := match value.toList.dropWhile Char.isWhitespace with
    | '-' :: digits => (true, digits)
    | '+' :: digits => (false, digits)
    | digits => (false, digits)
  let n : ℕ := (p.2.takeWhile Char.isDigit).foldl (fun n c => 10 * n + (c.toNat - 48)) 0
  max (-2 ^ 63) (min (2 ^ 63 - 1) (if p.1 then -n else n))

def Target.isSmallInt (value : String) : Bool :=
  Int.bmod (2 * strtoll value) (2 ^ t.pointerBits) = 2 * strtoll value

/-- `IntConstant`; a big integer is loaded from a global. -/
def intConstant (value : String) : Gen (Option CodeValue) :=
  if t.isSmallInt value then pure (some .constant)
  else do
    build (Builder.emit .code)
    pure (some .instruction)

def comparePointers (lhs rhs : Option CodeValue) : Gen (Option CodeValue) := do
  let l ← required lhs
  let r ← required rhs
  if l = .constant ∧ r = .constant then pure (some .constant)
  else do
    build (Builder.emit .code)
    pure (some .instruction)

/-- The return that a block adds, with its last value, if no statement of it branches. -/
def addBlockReturn : Option (Option CodeValue) → Gen Unit
  | none => pure ()
  | some lastValue => blockReturn t lastValue

def joinIf (falls : Bool) (continueBB : BlockId) : Gen Unit :=
  if falls then goToBasicBlock (some continueBB) else pure ()

/-- `-compileWithGenerator:` of `LKIfStatement`, given how its parts are compiled. -/
def compileIf (condition : Gen (Option CodeValue)) (thenStatements elseStatements : Gen Bool) :
    Gen (Option CodeValue) := do
  let compareValue ← condition
  let startBB ← currentBasicBlock
  let continueBB ← startBasicBlock
  let thenBB ← startBasicBlock
  let thenFalls ← thenStatements
  joinIf thenFalls continueBB
  let elseBB ← startBasicBlock
  let elseFalls ← elseStatements
  joinIf elseFalls continueBB
  moveInsertPointToBasicBlock startBB
  branchOnCondition compareValue thenBB elseBB
  moveInsertPointToBasicBlock (some continueBB)
  pure none

structure LoopBlocks where
  startBB : BlockId
  bodyBB : BlockId
  continueBB : BlockId
  breakBB : BlockId

/-- `-compileWithGenerator:` of `LKLoop`, from the condition before the body on. -/
def compileIterations (label : Option String) (b : LoopBlocks) (old : LoopTargets)
    (preCondition : BlockId → BlockId → Gen Unit) (statements : Gen Bool)
    (postCondition : BlockId → BlockId → Gen Unit)
    (updateStatements : Gen (List (Option CodeValue))) : Gen (Option CodeValue) := do
  moveInsertPointToBasicBlock (some b.startBB)
  preCondition b.bodyBB b.breakBB
  moveInsertPointToBasicBlock (some b.bodyBB)
  let addTerminator ← statements
  (if addTerminator then postCondition b.continueBB b.breakBB else pure ())
  moveInsertPointToBasicBlock (some b.continueBB)
  let _ ← updateStatements
  goToBasicBlock (some b.startBB)
  leaveLoop label old
  moveInsertPointToBasicBlock (some b.breakBB)
  pure none

def compileLoop (label : Option String) (initStatements : Gen (List (Option CodeValue)))
    (preCondition : BlockId → BlockId → Gen Unit) (statements : Gen Bool)
    (postCondition : BlockId → BlockId → Gen Unit)
    (updateStatements : Gen (List (Option CodeValue))) : Gen (Option CodeValue) := do
  let entryBB ← currentBasicBlock
  let startBB ← startBasicBlock
  let bodyBB ← startBasicBlock
  let continueBB ← startBasicBlock
  let breakBB ← startBasicBlock
  let old ← enterLoop label breakBB continueBB
  moveInsertPointToBasicBlock entryBB
  let _ ← initStatements
  goToBasicBlock (some startBB)
  compileIterations label ⟨startBB, bodyBB, continueBB, breakBB⟩ old preCondition statements
    postCondition updateStatements

/-- `-compileWithGenerator:` of `LKBlockExpr`. -/
def compileBlock (body : Gen (Option (Option CodeValue))) : Gen (Option CodeValue) := do
  beginBlock
  let lastValue ← body
  addBlockReturn t lastValue
  let block ← endBlock
  pure (some block)

mutual
def compile (symbols : SymbolTable) : AST → Gen (Option CodeValue)
  | .comment _ => pure none
  | .numberLiteral value => intConstant t value
  | .stringLiteral _ => pure (some .constant)
  | .symbolRef _ => do
    build (Builder.emit .code)
    pure (some .instruction)
  | .declRef symbol => load (compileDeclRef t.isClass symbols symbol)
  | .variableDecl _ => pure none
  | .assignExpr target expr => do
    let rval ← compile symbols expr
    store t rval (compileAssign t.isClass symbols target)
    pure rval
  | .messageSend target selector arguments => do
    let receiver ← compile symbols target
    let argv ← compileAll symbols arguments
    compileMessage t symbols (some target) selector receiver argv
  | .messageCascade receiver messages => do
    let target ← compile symbols receiver
    compileMessages symbols target none messages
  | .compare lhs rhs => do
    let l ← compile symbols lhs
    let r ← compile symbols rhs
    comparePointers l r
  | .arrayExpr elements => do
    let values ← compileAll symbols elements
    build (Builder.emit .code)
    let argv ← required (values.mapM id)
    sendToObject t none (argv ++ [.constant])
  | .ifStatement condition thenStatements elseStatements =>
    compileIf (compile symbols condition) (compileUntilBranch symbols thenStatements)
      (compileUntilBranch symbols elseStatements)
  | .loop label initStatements preCondition statements postCondition updateStatements =>
    compileLoop label (compileAll symbols initStatements)
      (fun ifTrue ifFalse => compileCondition symbols ifTrue ifFalse preCondition)
      (compileUntilBranch symbols statements)
      (fun ifTrue ifFalse => compileCondition symbols ifTrue ifFalse postCondition)
      (compileAll symbols updateStatements)
  | .loopFlowControl flavor label => do
    let bb ← flowControlBasicBlock flavor label
    goToBasicBlock bb
    pure none
  | .ret expr => do
    let retVal ← compile symbols expr
    setReturn t retVal
    pure retVal
  | .blockReturn expr => do
    let retVal ← compile symbols expr
    blockReturn t retVal
    pure retVal
  | .blockExpr arguments locals statements =>
    compileBlock t
      (compileBody (.block ⟨locals ++ declaredIn statements, arguments⟩ symbols) none statements)

def compileAll (symbols : SymbolTable) : List AST → Gen (List (Option CodeValue))
  | [] => pure []
  | statement :: statements => do
    let value ← compile symbols statement
    let values ← compileAll symbols statements
    pure (value :: values)

def compileCondition (symbols : SymbolTable) (ifTrue ifFalse : BlockId) :
    Option AST → Gen Unit
  | none => goToBasicBlock (some ifTrue)
  | some condition => do
    let value ← compile symbols condition
    branchOnCondition value ifTrue ifFalse

/-- The messages of a cascade, all to one target; they have none of their own. -/
def compileMessages (symbols : SymbolTable) (target result : Option CodeValue) :
    List (String × List AST) → Gen (Option CodeValue)
  | [] => pure result
  | (selector, arguments) :: messages => do
    let argv ← compileAll symbols arguments
    let result ← compileMessage t symbols none selector target argv
    compileMessages symbols target result messages

def compileUntilBranch (symbols : SymbolTable) : List AST → Gen Bool
  | [] => pure true
  | statement :: statements => do
    let _ ← compile symbols statement
    if statement.isBranch then pure false else compileUntilBranch symbols statements

/-- The statements of a block up to the first that branches; the last value if there is none. -/
def compileBody (symbols : SymbolTable) (lastValue : Option CodeValue) :
    List AST → Gen (Option (Option CodeValue))
  | [] => pure (some lastValue)
  | statement :: statements => do
    if statement.isComment then compileBody symbols lastValue statements
    else
      let value ← compile symbols statement
      if statement.isBranch then pure none else compileBody symbols value statements
end

/-- `-compileWithGenerator:` of `LKMethod`, in an empty module. -/
def compileMethod (enclosing : SymbolTable) (m : Method) : Option Generator :=
  let returnType := ((t.typeForMethod m.selector).map MethodTypes.result).getD .object
  let p := initialiseScope false returnType .empty
  let symbols := SymbolTable.method ⟨m.locals ++ declaredIn m.statements, m.arguments⟩ enclosing
  (compileAll t symbols m.statements ⟨p.2, p.1, [], fun _ => none, none, none⟩).map fun r =>
    { r.2 with code := r.2.scope.finish (r.2.scope.endScope r.2.code) }

end Send

end Etoile.LanguageKit
