import Etoile.LanguageKit.Contexts

/-!
# The interpreter

`-interpretInContext:` of every node as a machine: what is being evaluated, and a stack with one
frame for each activation of an `-interpretInContext:` method that waits for a value. Frames of
compiled methods on the stack may return, send messages or call blocks; `Choice` is what they do.
-/

namespace Etoile.LanguageKit

inductive Value
  | nil
  | object (id : ℕ)
  | closure (id : ℕ)
  deriving DecidableEq, Repr

/-- `LKInterpreterContext`. -/
structure InterpreterContext where
  scopes : Scopes
  parent : Option ℕ
  objects : List (String × Value)

/-- `LKInterpretedBlockClosure`: the block's node, where it stands, and its parent context. -/
structure InterpretedBlockClosure where
  scopes : Scopes
  arguments : List String
  statements : List AST
  context : ℕ

structure LoopParts where
  preCondition : Option AST
  statements : List AST
  postCondition : Option AST
  updateStatements : List AST

inductive LoopStage
  | init | pre | body | update | post

inductive Frame
  | arrayExpr (done : List Value) (elements : List AST) (context : ℕ)
  | assignExpr (target : String) (context : ℕ)
  | compareLhs (rhs : AST) (context : ℕ)
  | compareRhs (lhs : Value)
  | ifStatement (thenStatements elseStatements : List AST) (context : ℕ)
  | branch (statements : List AST) (context : ℕ)
  | messageTarget (toSuper : Bool) (selector : String) (arguments : List AST) (context : ℕ)
  | messageArguments (toSuper : Bool) (receiver : Value) (selector : String) (done : List Value)
      (arguments : List AST) (context : ℕ)
  | cascadeReceiver (messages : List (String × List AST)) (context : ℕ)
  | cascade (receiver : Value) (messages : List (String × List AST)) (context : ℕ)
  | loop (stage : LoopStage) (statements : List AST) (parts : LoopParts) (context : ℕ)
  | ret (context : ℕ)
  | blockReturn
  | blockBody (statements : List AST) (context : ℕ)
  | methodBody (statements : List AST) (context : ℕ)
  | native

inductive Control
  | eval (node : AST) (context : ℕ)
  | value (result : Value)

structure State where
  control : Control
  stack : List Frame
  contexts : List InterpreterContext
  closures : List InterpretedBlockClosure
  ivars : List ((Value × String) × Value)
  classVariables : List ((String × String) × Value)

/-- What the interpreter does not decide: the objects of literals and results, the truth of
objects, the classes, and the method that a message finds, if it is an interpreted one. -/
structure World where
  literal : AST → Value
  array : List Value → Value
  number : Bool → Value
  classNamed : String → Value
  boolValue : Value → Bool
  isClass : String → Bool
  method : Option String → Value → String → Option MethodDef

inductive Choice
  | returns (result : Value)
  | calls (closure : ℕ) (arguments : List Value)
  | sends (receiver : Value) (selector : String) (arguments : List Value)

namespace SymbolTable

/-- The links up to the outermost table, which tell the tables of one chain apart. -/
def height : SymbolTable → ℕ
  | nil => 0
  | object _ enclosing => enclosing.height + 1
  | method _ enclosing => enclosing.height + 1
  | block _ enclosing => enclosing.height + 1

end SymbolTable

namespace State

/-- The loop of `-contextForSymbol:`, at most once for each context. -/
def contextOfTable (s : State) (table : SymbolTable) : ℕ → ℕ → Option ℕ
  | 0, _ => none
  | n + 1, c =>
    match s.contexts[c]? with
    | none => none
    | some context =>
      if context.scopes.symbols.height = table.height then some c
      else context.parent.bind (s.contextOfTable table n)

def contextForSymbol (s : State) (isClass : String → Bool) (c : ℕ) (symbol : String) :
    Option (SymbolScope × ℕ) :=
  match s.contexts[c]? with
  | none => none
  | some context =>
    match context.scopes.symbols.scopeOfSymbol isClass symbol with
    | .external =>
      match context.scopes.symbols.scopeOfExternalSymbol isClass symbol with
      | none => some (.invalid, c)
      | some (_, table) =>
        match table.scopeOfSymbol isClass symbol with
        | .local => (s.contextOfTable table s.contexts.length c).map (.local, ·)
        | .argument => (s.contextOfTable table s.contexts.length c).map (.argument, ·)
        | scope => some (scope, c)
    | scope => some (scope, c)

def homeContext (s : State) : ℕ → ℕ → ℕ
  | 0, c => c
  | n + 1, c =>
    match s.contexts[c]?.bind InterpreterContext.parent with
    | none => c
    | some parent => s.homeContext n parent

def home (s : State) (c : ℕ) : ℕ := s.homeContext s.contexts.length c

def valueForSymbol (s : State) (c : ℕ) (symbol : String) : Value :=
  ((s.contexts[c]?.bind fun context => context.objects.lookup symbol)).getD .nil

def selfObject (s : State) (c : ℕ) : Value := s.valueForSymbol (s.home c) "self"

def setValue (s : State) (c : ℕ) (symbol : String) (value : Value) : State :=
  { s with contexts := s.contexts.modify c fun context =>
      { context with objects := (symbol, value) :: context.objects } }

def className (s : State) (c : ℕ) : String :=
  ((s.contexts[c]?).map fun context => context.scopes.ClassName).getD ""

def superclassname (s : State) (c : ℕ) : Option String :=
  (s.contexts[c]?).bind fun context => context.scopes.classes[1]?.map ObjectTable.className

/-- `LKDeclRef`. -/
def declRef (s : State) (W : World) (c : ℕ) (symbol : String) : Option Value :=
  match s.contextForSymbol W.isClass c symbol with
  | none => none
  | some (scope, c') =>
    match scope with
    | .object => some ((s.ivars.lookup (s.selfObject c, symbol)).getD .nil)
    | .local | .argument => some (s.valueForSymbol c' symbol)
    | .builtin =>
      if symbol = "self" ∨ symbol = "super" then some (s.selfObject c')
      else if symbol = "nil" ∨ symbol = "Nil" then some .nil
      else some (W.classNamed symbol)
    | .global => some (W.classNamed symbol)
    | .class => some ((s.classVariables.lookup (s.className c, symbol)).getD .nil)
    | _ => none

/-- The store of `LKAssignExpr`. -/
def assign (s : State) (W : World) (c : ℕ) (symbol : String) (value : Value) : Option State :=
  match s.contextForSymbol W.isClass c symbol with
  | none => none
  | some (scope, c') =>
    match scope with
    | .local => some (s.setValue c' symbol value)
    | .object => some { s with ivars := ((s.selfObject c', symbol), value) :: s.ivars }
    | .class =>
      some { s with classVariables := ((s.className c, symbol), value) :: s.classVariables }
    | _ => none

def yields (s : State) (value : Value) (stack : List Frame) : State :=
  { s with control := .value value, stack := stack }

def evaluates (s : State) (node : AST) (context : ℕ) (stack : List Frame) : State :=
  { s with control := .eval node context, stack := stack }

/-- `-executeWithReciever:arguments:count:`. -/
def executeMethod (s : State) (d : MethodDef) (receiver : Value) (arguments : List Value)
    (stack : List Frame) : State :=
  { s with
    control := .value .nil
    stack := .methodBody d.method.statements s.contexts.length :: stack
    contexts := s.contexts ++
      [⟨d.scopes [], none, (d.method.arguments.zip arguments).reverse ++ [("self", receiver)]⟩] }

/-- `LKBlockFunction`. -/
def executeBlock (s : State) (b : InterpretedBlockClosure) (arguments : List Value)
    (stack : List Frame) : State :=
  { s with
    control := .value .nil
    stack := .blockBody b.statements s.contexts.length :: stack
    contexts := s.contexts ++
      [⟨b.scopes, some b.context, (b.arguments.zip arguments).reverse⟩] }

/-- `LKSendMessage`. -/
def sendMessage (s : State) (W : World) (className : Option String) (receiver : Value)
    (selector : String) (arguments : List Value) (stack : List Frame) : State :=
  if receiver = .nil then s.yields .nil stack
  else match W.method className receiver selector with
    | some d => s.executeMethod d receiver arguments stack
    | none => s.yields .nil (.native :: stack)

def messageNext (s : State) (W : World) (toSuper : Bool) (receiver : Value) (selector : String)
    (done : List Value) (arguments : List AST) (c : ℕ) (stack : List Frame) : State :=
  match arguments with
  | argument :: rest =>
    s.evaluates argument c (.messageArguments toSuper receiver selector done rest c :: stack)
  | [] =>
    s.sendMessage W (if toSuper then s.superclassname c else none) receiver selector done stack

def iteration (s : State) (parts : LoopParts) (c : ℕ) (stack : List Frame) : State :=
  match parts.preCondition with
  | some condition => s.evaluates condition c (.loop .pre [] parts c :: stack)
  | none => s.yields .nil (.loop .body parts.statements parts c :: stack)

/-- `LKBlockReturnException`: raised where a return has its value, and caught by the innermost
`-executeInContext:` on the stack. -/
def catchReturn : List Frame → Option (List Frame)
  | [] => none
  | .methodBody _ _ :: stack => some stack
  | _ :: stack => catchReturn stack

/-- `-interpretInContext:` of a node, up to the first value that it waits for. -/
def interpret (s : State) (W : World) (node : AST) (c : ℕ) : Option State :=
  match node with
  | .comment _ => some (s.yields .nil s.stack)
  | .numberLiteral _ | .stringLiteral _ | .symbolRef _ => some (s.yields (W.literal node) s.stack)
  | .declRef symbol => (s.declRef W c symbol).map fun v => s.yields v s.stack
  | .variableDecl variableName => some ((s.setValue c variableName .nil).yields .nil s.stack)
  | .assignExpr target expr => some (s.evaluates expr c (.assignExpr target c :: s.stack))
  | .messageSend target selector arguments =>
    let toSuper := match target with | .declRef symbol => symbol == "super" | _ => false
    some (s.evaluates target c (.messageTarget toSuper selector arguments c :: s.stack))
  | .messageCascade receiver messages =>
    some (s.evaluates receiver c (.cascadeReceiver messages c :: s.stack))
  | .compare lhs rhs => some (s.evaluates lhs c (.compareLhs rhs c :: s.stack))
  | .arrayExpr [] => some (s.yields (W.array []) s.stack)
  | .arrayExpr (element :: elements) =>
    some (s.evaluates element c (.arrayExpr [] elements c :: s.stack))
  | .ifStatement condition thenStatements elseStatements =>
    some (s.evaluates condition c (.ifStatement thenStatements elseStatements c :: s.stack))
  | .loop _ initStatements preCondition statements postCondition updateStatements =>
    some (s.yields .nil (.loop .init initStatements
      ⟨preCondition, statements, postCondition, updateStatements⟩ c :: s.stack))
  -- there is no -interpretInContext: for LKBreak and LKContinue
  | .loopFlowControl _ _ => none
  | .ret expr => some (s.evaluates expr c (.ret c :: s.stack))
  | .blockReturn expr => some (s.evaluates expr c (.blockReturn :: s.stack))
  | .blockExpr arguments locals statements =>
    (s.contexts[c]?).map fun context =>
      { s with
        control := .value (.closure s.closures.length)
        closures := s.closures ++
          [⟨{ context.scopes with
              blocks := blockTable arguments locals statements :: context.scopes.blocks },
            arguments, statements, c⟩] }

/-- A frame with the value that it waited for, on top of `stack`. -/
def resume (s : State) (W : World) (choice : Choice) (v : Value) (stack : List Frame) :
    Frame → Option State
  | .arrayExpr done [] _ => some (s.yields (W.array (done ++ [v])) stack)
  | .arrayExpr done (element :: elements) c =>
    some (s.evaluates element c (.arrayExpr (done ++ [v]) elements c :: stack))
  | .assignExpr target c => (s.assign W c target v).map fun s' => s'.yields v stack
  | .compareLhs rhs c => some (s.evaluates rhs c (.compareRhs v :: stack))
  | .compareRhs lhs => some (s.yields (W.number (lhs = v)) stack)
  | .ifStatement thenStatements elseStatements c =>
    some (s.yields .nil
      (.branch (if W.boolValue v then thenStatements else elseStatements) c :: stack))
  | .branch [] _ => some (s.yields v stack)
  | .branch (statement :: statements) c =>
    some (s.evaluates statement c (.branch statements c :: stack))
  | .messageTarget toSuper selector arguments c =>
    some (s.messageNext W toSuper v selector [] arguments c stack)
  | .messageArguments toSuper receiver selector done arguments c =>
    some (s.messageNext W toSuper receiver selector (done ++ [v]) arguments c stack)
  | .cascadeReceiver messages c => some (s.yields .nil (.cascade v messages c :: stack))
  | .cascade _ [] _ => some (s.yields v stack)
  | .cascade receiver ((selector, arguments) :: messages) c =>
    some (s.messageNext W false receiver selector [] arguments c
      (.cascade receiver messages c :: stack))
  | .loop .init (statement :: statements) parts c =>
    some (s.evaluates statement c (.loop .init statements parts c :: stack))
  | .loop .init [] parts c => some (s.iteration parts c stack)
  | .loop .pre _ parts c =>
    if W.boolValue v then some (s.yields .nil (.loop .body parts.statements parts c :: stack))
    else some (s.yields .nil stack)
  | .loop .body (statement :: statements) parts c =>
    some (s.evaluates statement c (.loop .body statements parts c :: stack))
  | .loop .body [] parts c =>
    some (s.yields .nil (.loop .update parts.updateStatements parts c :: stack))
  | .loop .update (statement :: statements) parts c =>
    some (s.evaluates statement c (.loop .update statements parts c :: stack))
  | .loop .update [] parts c =>
    match parts.postCondition with
    | some condition => some (s.evaluates condition c (.loop .post [] parts c :: stack))
    | none => some (s.iteration parts c stack)
  | .loop .post _ parts c =>
    if W.boolValue v then some (s.iteration parts c stack) else some (s.yields .nil stack)
  | .ret _ => (catchReturn stack).map fun stack' => s.yields v stack'
  | .blockReturn => some (s.yields v stack)
  | .blockBody [] _ => some (s.yields v stack)
  | .blockBody (statement :: statements) c =>
    some (s.evaluates statement c (.blockBody statements c :: stack))
  | .methodBody [] c => some (s.yields (s.selfObject c) stack)
  | .methodBody (statement :: statements) c =>
    some (s.evaluates statement c (.methodBody statements c :: stack))
  | .native =>
    match choice with
    | .returns result => some (s.yields result stack)
    | .calls closure arguments =>
      (s.closures[closure]?).map fun b => s.executeBlock b arguments (.native :: stack)
    | .sends receiver selector arguments =>
      some (s.sendMessage W none receiver selector arguments (.native :: stack))

/-- One step; `none` when the program has ended or raised another exception. -/
def step (s : State) (W : World) (choice : Choice) : Option State :=
  match s.control with
  | .eval node c => s.interpret W node c
  | .value v =>
    match s.stack with
    | [] => none
    | frame :: stack => s.resume W choice v stack frame

def start : State := ⟨.value .nil, [.native], [], [], [], []⟩

end State

end Etoile.LanguageKit
