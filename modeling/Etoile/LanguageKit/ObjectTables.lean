import Etoile.LanguageKit.SymbolTable

/-!
# The symbol tables of classes

The tables of classes are shared: that of a class encloses those of its subclasses.  A table is
named by its address, and holds the addresses of all tables that enclose it.
-/

namespace Etoile.LanguageKit

structure ClassInfo where
  name : String
  instanceSize : ℕ
  ivars : List (String × ℕ × String)

inductive RuntimeClass
  | root (info : ClassInfo)
  | subclass (info : ClassInfo) (superclass : RuntimeClass)

namespace RuntimeClass

def info : RuntimeClass → ClassInfo
  | root info => info
  | subclass info _ => info

def classes : RuntimeClass → List ClassInfo
  | root info => [info]
  | subclass info superclass => info :: superclass.classes

def rootSize : RuntimeClass → ℕ
  | root info => info.instanceSize
  | subclass _ superclass => superclass.rootSize

end RuntimeClass

structure Runtime where
  sizeofId : ℕ
  /-- `NSClassFromString`. -/
  classNamed : String → Option RuntimeClass
  name_eq : ∀ {name C}, classNamed name = some C → C.info.name = name
  superclass : ∀ {name info S}, classNamed name = some (.subclass info S) →
    classNamed S.info.name = some S

/-- `NSMapInsert`. -/
def mapInsert (map : List (String × ℕ)) (key : String) (value : ℕ) : List (String × ℕ) :=
  map.filter (·.1 ≠ key) ++ [(key, value)]

def ClassInfo.instanceVariables (info : ClassInfo) : List (String × ℕ) :=
  info.ivars.foldl (fun map ivar => mapInsert map ivar.1 ivar.2.1) []

def ClassInfo.types (info : ClassInfo) : List (String × String) :=
  info.ivars.map fun ivar => (ivar.1, ivar.2.2)

structure ClassTable extends ObjectTable where
  nextOffset : ℕ := 0
  /-- `enclosingScope`, and the scopes that enclose it. -/
  enclosingScopes : List ℕ := []

/-- The tables at the addresses below `next`.  `NewClasses` has `none` for a class that is only
declared, and `subclasses` the tables of the subclasses that were checked. -/
structure SymbolTables where
  table : ℕ → ClassTable
  next : ℕ := 0
  NewClasses : List (String × Option ℕ) := []
  subclasses : List ℕ := []

namespace SymbolTables

def insert (t : ClassTable) (st : SymbolTables) : SymbolTables :=
  { st with table := Function.update st.table st.next t, next := st.next + 1 }

/-- `-registerNewClassNamed:`. -/
def register (name : String) (a : ℕ) (st : SymbolTables) : SymbolTables :=
  { st with NewClasses := (name, some a) :: st.NewClasses }

def modify (a : ℕ) (f : ClassTable → ClassTable) (st : SymbolTables) : SymbolTables :=
  { st with table := Function.update st.table a (f (st.table a)) }

/-- `-addSymbol:`. -/
def addSymbol (R : Runtime) (a : ℕ) (aSymbol : String) : SymbolTables → SymbolTables :=
  modify a fun t => { t with
    instanceVariables := mapInsert t.instanceVariables aSymbol t.nextOffset
    nextOffset := t.nextOffset + R.sizeofId }

def addClassVariable (a : ℕ) (aClassVar : String) : SymbolTables → SymbolTables :=
  modify a fun t => { t with classVariables := t.classVariables ++ [aClassVar] }

/-- `-setScope:` takes the next offset of the scope as well. -/
def setScope (scope : ℕ) (st : SymbolTables) (t : ClassTable) : ClassTable :=
  { t with
    enclosingScopes := scope :: (st.table scope).enclosingScopes
    nextOffset := (st.table scope).nextOffset }

def tableForClass (info : ClassInfo) : ClassTable where
  className := info.name
  instanceVariables := info.instanceVariables
  classVariables := []
  types := info.types
  nextOffset := info.instanceSize

/-- `-initForClass:`, with the table that is new; `none` where it raises, as a class that is only
declared has no table. -/
def initForClass : RuntimeClass → SymbolTables → Option (ℕ × SymbolTables)
  | .root info, st => some (st.next, (st.insert (tableForClass info)).register info.name st.next)
  | .subclass info superclass, st =>
    let parentScope := match st.NewClasses.lookup superclass.info.name with
      | some (some p) => some (p, st)
      | some none => none
      | none => initForClass superclass st
    parentScope.map fun (p, st) =>
      (st.next, (st.insert (st.setScope p (tableForClass info))).register info.name st.next)

/-- `-symbolTableForSubclassNamed:`, of the table of the superclass. -/
def symbolTableForSubclassNamed (name : String) (superclass : ℕ) (st : SymbolTables) :
    SymbolTables :=
  st.insert (st.setScope superclass ⟨⟨name, [], [], []⟩, 0, []⟩)

/-- The table of the superclass in `-check` of `LKSubclass`; `none` where there is none, which is
an error, or where it raises. -/
def superclassTable (R : Runtime) (superclass : String) (st : SymbolTables) :
    Option (ℕ × SymbolTables) :=
  match R.classNamed superclass with
  | some C => initForClass C st
  | none =>
    match st.NewClasses.lookup superclass with
    | some (some p) => some (p, st)
    | _ => none

/-- `-check` of `LKSubclass`, for what it does to the tables. -/
def check (R : Runtime) (classname superclass : String) (ivars cvars : List String)
    (st : SymbolTables) : SymbolTables :=
  match st.superclassTable R superclass with
  | none => st
  | some (p, st) =>
    let symbols := st.next
    let st := st.symbolTableForSubclassNamed classname p
    let st := ivars.foldl (fun st ivar => st.addSymbol R symbols ivar) st
    let st := cvars.foldl (fun st cvar => st.addClassVariable symbols cvar) st
    { st.register classname symbols with subclasses := st.subclasses ++ [symbols] }

/-- `+forwardDeclareNewClass:`. -/
def forwardDeclareNewClass (className : String) (st : SymbolTables) : SymbolTables :=
  match st.NewClasses.lookup className with
  | some _ => st
  | none => { st with NewClasses := (className, none) :: st.NewClasses }

/-- What is done to the classes of a program; one that was checked is named by its number. -/
inductive Event
  | forwardDeclare (className : String)
  | check (classname superclass : String) (ivars cvars : List String)
  | addInstanceVariable (subclass : ℕ) (aName : String)
  | addClassVariable (subclass : ℕ) (aName : String)

def step (R : Runtime) (st : SymbolTables) : Event → SymbolTables
  | .forwardDeclare className => st.forwardDeclareNewClass className
  | .check classname superclass ivars cvars => st.check R classname superclass ivars cvars
  | .addInstanceVariable subclass aName =>
    match st.subclasses[subclass]? with
    | some symbols => st.addSymbol R symbols aName
    | none => st
  | .addClassVariable subclass aName =>
    match st.subclasses[subclass]? with
    | some symbols => st.addClassVariable symbols aName
    | none => st

def nest (st : SymbolTables) : List ℕ → SymbolTable
  | [] => .nil
  | a :: scopes => .object (st.table a).toObjectTable (st.nest scopes)

def symbolTable (st : SymbolTables) (a : ℕ) : SymbolTable :=
  st.nest (a :: (st.table a).enclosingScopes)

end SymbolTables

end Etoile.LanguageKit
