import Mathlib

/-!
# The syntax tree

The nodes that a method body is made of. A nested block literal opens a scope of its own; every
other node shares the symbol table of its parent, which `-setParent:` hands down during `-check`.
-/

namespace Etoile.LanguageKit

/-- `LKBreak` and `LKContinue`. -/
inductive Flavor
  | toBreak | toContinue
  deriving DecidableEq, Repr

inductive AST
  | comment (text : String)
  | numberLiteral (value : String)
  | stringLiteral (value : String)
  | symbolRef (symbol : String)
  | declRef (symbol : String)
  | variableDecl (variableName : String)
  | assignExpr (target : String) (expr : AST)
  | messageSend (target : AST) (selector : String) (arguments : List AST)
  | messageCascade (receiver : AST) (messages : List (String × List AST))
  | compare (lhs rhs : AST)
  | arrayExpr (elements : List AST)
  | ifStatement (condition : AST) (thenStatements elseStatements : List AST)
  | loop (label : Option String) (initStatements : List AST) (preCondition : Option AST)
      (statements : List AST) (postCondition : Option AST) (updateStatements : List AST)
  | loopFlowControl (flavor : Flavor) (label : Option String)
  | ret (expr : AST)
  | blockReturn (expr : AST)
  | blockExpr (arguments locals : List String) (statements : List AST)

namespace AST

/-- The nodes below this one that share its symbol table, in the order of `-check`. -/
def children : AST → List AST
  | assignExpr _ expr => [expr]
  | messageSend target _ arguments => target :: arguments
  | messageCascade receiver messages => receiver :: messages.flatMap Prod.snd
  | compare lhs rhs => [lhs, rhs]
  | arrayExpr elements => elements
  | ifStatement condition thenStatements elseStatements =>
    condition :: (thenStatements ++ elseStatements)
  | loop _ initStatements preCondition statements postCondition updateStatements =>
    initStatements ++ preCondition.toList ++ statements ++ postCondition.toList
      ++ updateStatements
  | ret expr => [expr]
  | blockReturn expr => [expr]
  | _ => []

def isBranch : AST → Bool
  | loopFlowControl _ _ => true
  | ret _ => true
  | blockReturn _ => true
  | _ => false

def isComment : AST → Bool
  | comment _ => true
  | _ => false

end AST

mutual
/-- The names that `LKVariableDecl` nodes add to the symbol table while it is handed down. -/
def AST.declared : AST → List String
  | .variableDecl variableName => [variableName]
  | .assignExpr _ expr => expr.declared
  | .messageSend target _ arguments => target.declared ++ declaredIn arguments
  | .messageCascade receiver messages => receiver.declared ++ declaredInMessages messages
  | .compare lhs rhs => lhs.declared ++ rhs.declared
  | .arrayExpr elements => declaredIn elements
  | .ifStatement condition thenStatements elseStatements =>
    condition.declared ++ declaredIn thenStatements ++ declaredIn elseStatements
  | .loop _ initStatements preCondition statements postCondition updateStatements =>
    declaredIn initStatements ++ declaredInOption preCondition ++ declaredIn statements
      ++ declaredInOption postCondition ++ declaredIn updateStatements
  | .ret expr => expr.declared
  | .blockReturn expr => expr.declared
  | _ => []

def declaredIn : List AST → List String
  | [] => []
  | statement :: statements => statement.declared ++ declaredIn statements

def declaredInMessages : List (String × List AST) → List String
  | [] => []
  | (_, arguments) :: messages => declaredIn arguments ++ declaredInMessages messages

def declaredInOption : Option AST → List String
  | none => []
  | some expr => expr.declared
end

/-- A method: the names in its signature, its declared locals and its statements. -/
structure Method where
  selector : String
  arguments : List String
  locals : List String
  statements : List AST

end Etoile.LanguageKit

/-!
## Symbol tables

The tables form a chain through `enclosingScope`: the blocks around a node, the method, the class
and its superclasses. A lookup walks the chain; a name found outside the innermost block is an
external symbol, addressed by the number of links to the table that declares it.
-/

namespace Etoile.LanguageKit

inductive SymbolScope
  | invalid | external | argument | local | object | «class» | global | builtin
  deriving DecidableEq, Repr

/-- `LKMethodSymbolTable`: the names of one method or block. -/
structure ScopeTable where
  localVariables : List String
  arguments : List String
  deriving DecidableEq

/-- `LKObjectSymbolTable`. -/
structure ObjectTable where
  className : String
  instanceVariables : List (String × ℕ)
  classVariables : List String
  types : List (String × String)

inductive SymbolTable
  | nil
  | object (table : ObjectTable) (enclosingScope : SymbolTable)
  | method (table : ScopeTable) (enclosingScope : SymbolTable)
  | block (table : ScopeTable) (enclosingScope : SymbolTable)

def builtinNames : List String := ["nil", "Nil", "self", "super"]

/-- `NSMapGet`, which is `0` for a missing key. -/
def ObjectTable.mapGet (t : ObjectTable) (aName : String) : ℕ :=
  (t.instanceVariables.lookup aName).getD 0

def ObjectTable.scopeOfSymbolNonrecursive (t : ObjectTable) (aName : String) : SymbolScope :=
  if (t.instanceVariables.lookup aName).isSome then .object
  else if aName ∈ t.classVariables then .class
  else .invalid

def ScopeTable.scopeOfSymbolNonrecursive (t : ScopeTable) (aName : String) : SymbolScope :=
  if aName ∈ t.localVariables then .local
  else if aName ∈ t.arguments then .argument
  else .invalid

section Lookup

-- the classes of the runtime and the new classes of the program
variable (isClass : String → Bool)

def lookupUnscopedSymbol (aName : String) : SymbolScope :=
  if aName ∈ builtinNames then .builtin
  else if isClass aName then .global
  else .invalid

namespace SymbolTable

def enclosingScope : SymbolTable → SymbolTable
  | nil => nil
  | object _ enclosing => enclosing
  | method _ enclosing => enclosing
  | block _ enclosing => enclosing

def scopeOfSymbolNonrecursive : SymbolTable → String → SymbolScope
  | nil, _ => .invalid
  | object t _, aName => t.scopeOfSymbolNonrecursive aName
  | method t _, aName => t.scopeOfSymbolNonrecursive aName
  | block t _, aName =>
    match lookupUnscopedSymbol isClass aName with
    | .invalid =>
      match t.scopeOfSymbolNonrecursive aName with
      | .invalid => .external
      | scope => scope
    | scope => scope

def scopeOfSymbol : SymbolTable → String → SymbolScope
  | nil, aName => lookupUnscopedSymbol isClass aName
  | object t enclosing, aName =>
    match scopeOfSymbolNonrecursive isClass (object t enclosing) aName with
    | .invalid => enclosing.scopeOfSymbol aName
    | scope => scope
  | method t enclosing, aName =>
    match scopeOfSymbolNonrecursive isClass (method t enclosing) aName with
    | .invalid => enclosing.scopeOfSymbol aName
    | scope => scope
  | block t enclosing, aName => scopeOfSymbolNonrecursive isClass (block t enclosing) aName

/-- The loop of `-scopeOfExternalSymbol:`, which counts a link before it looks. -/
def externalLoop : SymbolTable → String → ℕ → Option (ℕ × SymbolTable)
  | nil, _, _ => none
  | object t enclosing, aSymbol, depth =>
    match scopeOfSymbolNonrecursive isClass (object t enclosing) aSymbol with
    | .invalid | .external => enclosing.externalLoop aSymbol (depth + 1)
    | _ => some (depth + 1, object t enclosing)
  | method t enclosing, aSymbol, depth =>
    match scopeOfSymbolNonrecursive isClass (method t enclosing) aSymbol with
    | .invalid | .external => enclosing.externalLoop aSymbol (depth + 1)
    | _ => some (depth + 1, method t enclosing)
  | block t enclosing, aSymbol, depth =>
    match scopeOfSymbolNonrecursive isClass (block t enclosing) aSymbol with
    | .invalid | .external => enclosing.externalLoop aSymbol (depth + 1)
    | _ => some (depth + 1, block t enclosing)

def scopeOfExternalSymbol (symbols : SymbolTable) (aSymbol : String) : Option (ℕ × SymbolTable) :=
  externalLoop isClass symbols.enclosingScope aSymbol 0

/-- `none` is `NSNotFound`, or a message to `nil`. -/
def indexOfArgument : SymbolTable → String → Option ℕ
  | nil, _ => none
  | object _ enclosing, aName => enclosing.indexOfArgument aName
  | method t _, aName => t.arguments.idxOf? aName
  | block t _, aName => t.arguments.idxOf? aName

def offsetOfLocal : SymbolTable → String → Option ℕ
  | nil, _ => none
  | object _ enclosing, aName => enclosing.offsetOfLocal aName
  | method t _, aName => t.localVariables.idxOf? aName
  | block t _, aName => t.localVariables.idxOf? aName

def offsetOfIVar : SymbolTable → String → ℕ
  | nil, _ => 0
  | object t enclosing, aName =>
    if t.mapGet aName > 0 then t.mapGet aName else enclosing.offsetOfIVar aName
  | method _ enclosing, aName => enclosing.offsetOfIVar aName
  | block _ enclosing, aName => enclosing.offsetOfIVar aName

def classForIvar : SymbolTable → String → Option String
  | nil, _ => none
  | object t enclosing, aName =>
    if t.mapGet aName > 0 then some t.className else enclosing.classForIvar aName
  | method _ enclosing, aName => enclosing.classForIvar aName
  | block _ enclosing, aName => enclosing.classForIvar aName

def typeOfSymbol : SymbolTable → String → String
  | nil, _ => "@"
  | object t enclosing, aName =>
    match t.types.lookup aName with
    | some type => type
    | none => enclosing.typeOfSymbol aName
  | method _ enclosing, aName => enclosing.typeOfSymbol aName
  | block _ enclosing, aName => enclosing.typeOfSymbol aName

end SymbolTable

/-- The calls that a reference or an assignment makes on the code generator. -/
inductive Access
  | loadLocal (index depth : ℕ)
  | loadArgument (index depth : ℕ)
  | loadIvar (type ivar : String) (offset : ℕ) (ofClass : Option String)
  | loadClassVariable (name : String)
  | loadSelf
  | nilConstant
  | loadClass (name : String)
  | storeLocal (index depth : ℕ)
  | storeIvar (ivar : String) (offset : ℕ) (ofClass : Option String)
  | storeClassVariable (name : String)
  deriving DecidableEq

/-- `-compileWithGenerator:` of `LKDeclRef`; `none` where it raises. -/
def compileDeclRef (symbols : SymbolTable) (symbol : String) : Option Access :=
  match symbols.scopeOfSymbol isClass symbol with
  | .local => (symbols.offsetOfLocal symbol).map fun i => .loadLocal i 0
  | .builtin =>
    if symbol = "self" ∨ symbol = "super" then some .loadSelf
    else if symbol = "nil" ∨ symbol = "Nil" then some .nilConstant
    else some (.loadClass symbol)
  | .global => some (.loadClass symbol)
  | .argument => (symbols.indexOfArgument symbol).map fun i => .loadArgument i 0
  | .external =>
    match symbols.scopeOfExternalSymbol isClass symbol with
    | none => none
    | some (depth, scope) =>
      match scope.scopeOfSymbol isClass symbol with
      | .local => (scope.offsetOfLocal symbol).map fun i => .loadLocal i depth
      | .argument => (scope.indexOfArgument symbol).map fun i => .loadArgument i depth
      | .object =>
        some (.loadIvar (scope.typeOfSymbol symbol) symbol (scope.offsetOfIVar symbol)
          (scope.classForIvar symbol))
      | .class => some (.loadClassVariable symbol)
      | _ => none
  | .object =>
    some (.loadIvar (symbols.typeOfSymbol symbol) symbol (symbols.offsetOfIVar symbol)
      (symbols.classForIvar symbol))
  | .class => some (.loadClassVariable symbol)
  | .invalid => none

def storeIvarIn (scope : SymbolTable) (symbol : String) : Option Access :=
  if (scope.typeOfSymbol symbol).toList.head? = some '@' then
    some (.storeIvar symbol (scope.offsetOfIVar symbol) (scope.classForIvar symbol))
  else none

/-- The store of `LKAssignExpr`'s `-compileWithGenerator:`; `none` where it raises. -/
def compileAssign (symbols : SymbolTable) (symbol : String) : Option Access :=
  match symbols.scopeOfSymbol isClass symbol with
  | .local => (symbols.offsetOfLocal symbol).map fun i => .storeLocal i 0
  | .object => storeIvarIn symbols symbol
  | .class => some (.storeClassVariable symbol)
  | .external =>
    match symbols.scopeOfExternalSymbol isClass symbol with
    | none => none
    | some (depth, scope) =>
      match scope.scopeOfSymbol isClass symbol with
      -- "Storing values in arguments is not currently supported"
      | .argument => none
      | .local => (scope.offsetOfLocal symbol).map fun i => .storeLocal i depth
      | .object => storeIvarIn scope symbol
      | .class => some (.storeClassVariable symbol)
      | _ => none
  | _ => none

end Lookup

end Etoile.LanguageKit
