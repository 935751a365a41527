import Mathlib.Data.List.Infix

/-!
# The module builder

One object collects the methods of one definition after the other, and hands them to the runtime
where a definition ends.
-/

namespace Etoile.LanguageKit

open List

structure CompiledMethod where
  isClass : Bool
  name : String
  types : String

/-- A class with the offsets of its instance variables and the size of its superclass, or a
category. -/
inductive LKDefinition
  | subclass (classname superclass : String) (cvars : List String) (ivars : List (String × ℤ))
      (superclassSize : ℤ) (methods : List CompiledMethod)
  | category (classname categoryName : String) (methods : List CompiledMethod)

structure MethodLists where
  InstanceMethodNames : List String
  InstanceMethodTypes : List String
  ClassMethodNames : List String
  ClassMethodTypes : List String

inductive RuntimeCall
  | DefineClassVariables (ClassName : String) (names types : List String)
  | GenerateClass (ClassName SuperClassName : String) (InstanceSize : ℕ)
      (IvarNames IvarTypes : List String) (IvarOffsets : List ℤ) (methods : MethodLists)
  | GenerateCategory (ClassName CategoryName : String) (methods : MethodLists)

/-- The members that the definitions use; there are never any protocols. -/
structure CodeGenModule extends MethodLists where
  ClassName : String
  SuperClassName : String
  CategoryName : String
  IvarNames : List String
  IvarTypes : List String
  IvarOffsets : List ℤ
  InstanceSize : ℕ
  calls : List RuntimeCall

namespace CodeGenModule

variable (pointerSize : ℕ) (deallocTypes : String)

/-- `CreateCodeGenModule`: a new module. -/
def new : CodeGenModule := ⟨⟨[], [], [], []⟩, "", "", "", [], [], [], 0, []⟩

def BeginClass (Class Super : String) (cvars : List String) (ivars : List (String × ℤ))
    (SuperclassSize : ℤ) (m : CodeGenModule) : CodeGenModule :=
  { ClassName := Class
    SuperClassName := Super
    CategoryName := ""
    InstanceMethodNames := []
    InstanceMethodTypes := []
    ClassMethodNames := []
    ClassMethodTypes := []
    IvarNames := ivars.map (·.1)
    IvarTypes := ivars.map fun _ => "@"
    IvarOffsets := ((ivars.map (·.2)).takeWhile (· ≠ 0)).map (· - SuperclassSize)
    InstanceSize := pointerSize * ivars.length
    calls := m.calls ++ [.DefineClassVariables Class cvars (cvars.map fun _ => "@")] }

def EndClass (m : CodeGenModule) : CodeGenModule :=
  { m with calls := m.calls ++ [.GenerateClass m.ClassName m.SuperClassName m.InstanceSize
      m.IvarNames m.IvarTypes m.IvarOffsets m.toMethodLists] }

def BeginCategory (Class _Category : String) (m : CodeGenModule) : CodeGenModule :=
  { m with
    ClassName := Class
    SuperClassName := ""
    CategoryName := m.CategoryName
    InstanceMethodNames := []
    InstanceMethodTypes := []
    IvarNames := [] }

def EndCategory (m : CodeGenModule) : CodeGenModule :=
  { m with calls := m.calls ++ [.GenerateCategory m.ClassName m.CategoryName m.toMethodLists] }

def BeginInstanceMethod (MethodName MethodTypes : String) (m : CodeGenModule) : CodeGenModule :=
  { m with
    InstanceMethodNames := m.InstanceMethodNames ++ [MethodName]
    InstanceMethodTypes := m.InstanceMethodTypes ++ [MethodTypes] }

def BeginClassMethod (MethodName MethodTypes : String) (m : CodeGenModule) : CodeGenModule :=
  { m with
    ClassMethodNames := m.ClassMethodNames ++ [MethodName]
    ClassMethodTypes := m.ClassMethodTypes ++ [MethodTypes] }

def compileMethod (m : CodeGenModule) (method : CompiledMethod) : CodeGenModule :=
  if method.isClass then m.BeginClassMethod method.name method.types
  else m.BeginInstanceMethod method.name method.types

/-- The methods of a class, with the one that releases its instance variables. -/
def withDealloc (ivars : List (String × ℤ)) (methods : List CompiledMethod) :
    List CompiledMethod :=
  if ivars.length > 0 then methods ++ [⟨false, "dealloc", deallocTypes⟩] else methods

/-- The generator passes the name of the class for that of the category, too. -/
def compileDefinition (m : CodeGenModule) : LKDefinition → CodeGenModule
  | .subclass classname superclass cvars ivars superclassSize methods =>
    ((withDealloc deallocTypes ivars methods).foldl compileMethod
      (m.BeginClass pointerSize classname superclass cvars ivars superclassSize)).EndClass
  | .category classname _ methods =>
    (methods.foldl compileMethod (m.BeginCategory classname classname)).EndCategory

def compile (definitions : List LKDefinition) (m : CodeGenModule) : CodeGenModule :=
  definitions.foldl (compileDefinition pointerSize deallocTypes) m

end CodeGenModule

def namesOf (isClass : Bool) (methods : List CompiledMethod) : List String :=
  (methods.filter (·.isClass == isClass)).map (·.name)

def typesOf (isClass : Bool) (methods : List CompiledMethod) : List String :=
  (methods.filter (·.isClass == isClass)).map (·.types)

def ownMethods (methods : List CompiledMethod) : MethodLists :=
  ⟨namesOf false methods, typesOf false methods, namesOf true methods, typesOf true methods⟩

def LKDefinition.handed (pointerSize : ℕ) (deallocTypes : String) :
    LKDefinition → List RuntimeCall
  | subclass classname superclass cvars ivars superclassSize methods =>
    [.DefineClassVariables classname cvars (cvars.map fun _ => "@"),
      .GenerateClass classname superclass (pointerSize * ivars.length) (ivars.map (·.1))
        (ivars.map fun _ => "@")
        (((ivars.map (·.2)).takeWhile (· ≠ 0)).map (· - superclassSize))
        (ownMethods (CodeGenModule.withDealloc deallocTypes ivars methods))]
  | category classname categoryName methods =>
    [.GenerateCategory classname categoryName (ownMethods methods)]

/-- Every category has the empty name, and no class method is before it since the last class
began; `carried` says whether there are any before the first definition. -/
def NothingCarried : Bool → List LKDefinition → Prop
  | _, [] => True
  | _, .subclass _ _ _ _ _ methods :: definitions =>
    NothingCarried (methods.any (·.isClass)) definitions
  | carried, .category _ categoryName methods :: definitions =>
    carried = false ∧ categoryName = "" ∧ NothingCarried (methods.any (·.isClass)) definitions

namespace CodeGenModule

variable {pointerSize : ℕ} {deallocTypes : String} {m : CodeGenModule}

theorem foldl_compileMethod : ∀ (methods : List CompiledMethod) (m : CodeGenModule),
    methods.foldl compileMethod m = { m with
      InstanceMethodNames := m.InstanceMethodNames ++ namesOf false methods
      InstanceMethodTypes := m.InstanceMethodTypes ++ typesOf false methods
      ClassMethodNames := m.ClassMethodNames ++ namesOf true methods
      ClassMethodTypes := m.ClassMethodTypes ++ typesOf true methods }
  | [], m => by simp [namesOf, typesOf]
  | method :: methods, m => by
    rw [foldl_cons, foldl_compileMethod methods]
    rcases h : method.isClass with _ | _ <;>
      simp [compileMethod, BeginClassMethod, BeginInstanceMethod, namesOf, typesOf, h]

variable (pointerSize deallocTypes) in
theorem calls_compileDefinition (m : CodeGenModule) (d : LKDefinition) :
    m.calls <+: (m.compileDefinition pointerSize deallocTypes d).calls := by
  rcases d with _ | _ <;>
    simp [compileDefinition, foldl_compileMethod, EndClass, BeginClass, EndCategory, BeginCategory]

variable (pointerSize deallocTypes) in
theorem calls_compile : ∀ (definitions : List LKDefinition) (m : CodeGenModule),
    m.calls <+: (m.compile pointerSize deallocTypes definitions).calls
  | [], _ => prefix_rfl
  | d :: definitions, m => (calls_compileDefinition pointerSize deallocTypes m d).trans (calls_compile definitions _)

theorem isEmpty_namesOf (methods : List CompiledMethod) :
    (!(namesOf true methods).isEmpty) = methods.any (·.isClass) := by
  induction methods with
  | nil => rfl
  | cons method methods ih =>
    simp only [namesOf, any_cons] at ih ⊢
    rcases h : method.isClass with _ | _
    · simpa [h] using ih
    · simp [h]

theorem namesOf_withDealloc (ivars : List (String × ℤ)) (methods : List CompiledMethod) :
    namesOf true (withDealloc deallocTypes ivars methods) = namesOf true methods := by
  unfold withDealloc
  split_ifs <;> simp [namesOf]

/-- A module may begin a category with the class methods of the definitions before. -/
structure Collecting (carried : Bool) (m : CodeGenModule) : Prop where
  name : m.CategoryName = ""
  carried : (!m.ClassMethodNames.isEmpty) = carried
  types : m.ClassMethodNames.length = m.ClassMethodTypes.length

variable (pointerSize deallocTypes)

section Definitions

variable (classname superclass categoryName : String)
  (cvars : List String) (ivars : List (String × ℤ)) (superclassSize : ℤ)
  (methods : List CompiledMethod)

theorem compile_subclass (m : CodeGenModule) {d : LKDefinition}
    (hd : d = .subclass classname superclass cvars ivars superclassSize methods) :
    (m.compileDefinition pointerSize deallocTypes d).calls
        = m.calls ++ d.handed pointerSize deallocTypes
      ∧ Collecting (methods.any (·.isClass)) (m.compileDefinition pointerSize deallocTypes d) := by
  subst hd
  simp only [compileDefinition, foldl_compileMethod, EndClass, BeginClass, nil_append]
  refine ⟨?_, rfl, ?_, ?_⟩
  · simp [LKDefinition.handed, ownMethods]
  · rw [namesOf_withDealloc, isEmpty_namesOf]
  · simp [namesOf, typesOf]

theorem Collecting.compile_category {carried : Bool} (h : Collecting carried m) {d : LKDefinition}
    (hd : d = .category classname categoryName methods) :
    ((m.compileDefinition pointerSize deallocTypes d).calls
        = m.calls ++ d.handed pointerSize deallocTypes ↔ carried = false ∧ categoryName = "")
      ∧ ∃ call, (m.compileDefinition pointerSize deallocTypes d).calls = m.calls ++ [call]
      ∧ (carried = false → Collecting (methods.any (·.isClass))
        (m.compileDefinition pointerSize deallocTypes d)) := by
  subst hd
  obtain ⟨hname, hcarried, htypes⟩ := h
  simp only [compileDefinition, foldl_compileMethod, EndCategory, BeginCategory, nil_append]
  refine ⟨?_, _, rfl, fun hnone => ?_⟩
  · have htypes' : m.ClassMethodTypes = [] ↔ m.ClassMethodNames = [] := by
      rw [← length_eq_zero_iff, ← htypes, length_eq_zero_iff]
    have hnone : carried = false ↔ m.ClassMethodNames = [] := by
      rw [← hcarried]
      simp
    simp [LKDefinition.handed, ownMethods, hname, htypes', hnone, eq_comm, and_comm]
  · have hnil : m.ClassMethodNames = [] := by simpa [hnone] using hcarried
    have hnil' : m.ClassMethodTypes = [] := by simpa [hnil] using htypes.symm
    refine ⟨hname, ?_, ?_⟩
    · rw [hnil, nil_append, isEmpty_namesOf]
    · simp [hnil, hnil', namesOf, typesOf]

end Definitions

theorem Collecting.compile_iff : ∀ (definitions : List LKDefinition) {carried : Bool}
    {m : CodeGenModule}, Collecting carried m →
      ((m.compile pointerSize deallocTypes definitions).calls
          = m.calls ++ definitions.flatMap (·.handed pointerSize deallocTypes)
        ↔ NothingCarried carried definitions)
  | [], carried, m, _ => by simp [compile, NothingCarried]
  | .subclass classname superclass cvars ivars superclassSize methods :: definitions, carried, m,
      _ => by
    obtain ⟨hcalls, hnext⟩ := compile_subclass pointerSize deallocTypes classname superclass cvars
      ivars superclassSize methods m rfl
    have ih := hnext.compile_iff definitions
    rw [hcalls, append_assoc] at ih
    exact ih
  | .category classname categoryName methods :: definitions, carried, m, h => by
    obtain ⟨hcalls, call, hcall, hnext⟩ :=
      h.compile_category pointerSize deallocTypes classname categoryName methods rfl
    constructor
    · intro heq
      have hown := (calls_compile pointerSize deallocTypes definitions (m.compileDefinition
        pointerSize deallocTypes (.category classname categoryName methods))).trans
          ⟨[], (append_nil _).trans heq⟩
      rw [hcall, prefix_append_right_inj] at hown
      obtain rfl := (cons_prefix_cons.1 hown).1
      obtain ⟨hnone, hname⟩ := hcalls.1 hcall
      have ih := (hnext hnone).compile_iff definitions
      rw [hcall, append_assoc] at ih
      exact ⟨hnone, hname, ih.1 heq⟩
    · rintro ⟨hnone, hname, hrest⟩
      have ih := ((hnext hnone).compile_iff definitions).2 hrest
      rw [hcalls.2 ⟨hnone, hname⟩, append_assoc] at ih
      exact ih

end CodeGenModule

/-- Every definition gets its own methods and names just if every category has the empty name and
comes before the class methods that there are. -/
theorem compile_handed_iff (pointerSize : ℕ) (deallocTypes : String)
    (definitions : List LKDefinition) :
    (CodeGenModule.new.compile pointerSize deallocTypes definitions).calls
        = definitions.flatMap (·.handed pointerSize deallocTypes)
      ↔ NothingCarried false definitions :=
  CodeGenModule.Collecting.compile_iff pointerSize deallocTypes definitions ⟨rfl, rfl, rfl⟩

/-- The category gets the class method of the class before it, and no name. -/
theorem not_compile_handed :
    ¬∀ definitions, (CodeGenModule.new.compile 8 "v16@0:8" definitions).calls
      = definitions.flatMap (·.handed 8 "v16@0:8") := by
  intro h
  have hcalls := h [.subclass "Foo" "NSObject" [] [] 8 [⟨true, "make", "@16@0:8"⟩],
    .category "Bar" "AnonymousCategory" []]
  simp [CodeGenModule.compile, CodeGenModule.compileDefinition, CodeGenModule.compileMethod,
    CodeGenModule.withDealloc, CodeGenModule.new, CodeGenModule.BeginClass, CodeGenModule.EndClass,
    CodeGenModule.BeginCategory, CodeGenModule.EndCategory, CodeGenModule.BeginClassMethod,
    LKDefinition.handed, ownMethods, namesOf] at hcalls

end Etoile.LanguageKit
