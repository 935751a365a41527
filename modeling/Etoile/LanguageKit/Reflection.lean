import Etoile.LanguageKit.Contexts

/-!
# Looking into an activation

The accessors of `BlockContext` search the symbol table of a compiled method or block, which has the
names of its locals, by the number of its objects, which are `self`, the arguments and the locals.
-/

namespace Etoile.LanguageKit

open Option

structure BlockContext (V : Type) where
  count : ℕ
  symbolTable : Option (List String)
  objects : List V

namespace BlockContext

variable {V : Type}

/-- The loop over the symbols, for a number of turns; `none` where it reads beyond the table. -/
def search (sym : String) : ℕ → ℕ → List String → Option (Option ℕ)
  | 0, _, _ => some none
  | _ + 1, _, [] => none
  | turns + 1, i, symbol :: table =>
    if sym = symbol then some (some i) else search sym turns (i + 1) table

def setObject (c : BlockContext V) (i : ℕ) (aValue : V) : BlockContext V :=
  { c with objects := c.objects.set i aValue }

/-- `-setValue:forSymbol:`, whose loop also runs for `count - 1`. -/
def setValue (c : BlockContext V) (aValue : V) (aSymbol : String) :
    Option (Bool × BlockContext V) :=
  if aSymbol = "self" then some (true, c.setObject 0 aValue)
  else match c.symbolTable with
    | none => some (false, c)
    | some table => (search aSymbol c.count 0 table).map fun
        | some i => (true, c.setObject (i + 1) aValue)
        | none => (false, c)

def valueForSymbol (nil : V) (c : BlockContext V) (aSymbol : String) : Option V :=
  if aSymbol = "self" then c.objects[0]?
  else match c.symbolTable with
    | none => some nil
    | some table => (search aSymbol (c.count - 1) 0 table).bind fun
        | some i => c.objects[i + 1]?
        | none => some nil

def symbols (c : BlockContext V) : Option (List String) :=
  match c.symbolTable with
  | none => some ["self"]
  | some table => ((List.range (c.count - 1)).mapM fun i => table[i]?).map ("self" :: ·)

/-- Among more turns than there are names, an unknown one is looked for beyond them. -/
theorem search_eq_none {sym : String} : ∀ {table : List String} {turns : ℕ} (i : ℕ),
    sym ∉ table → table.length < turns → search sym turns i table = none
  | [], turns + 1, _, _, _ => rfl
  | symbol :: table, turns + 1, i, hsym, hlt => by
    rw [List.mem_cons, not_or] at hsym
    rw [search, if_neg hsym.1]
    exact search_eq_none (i + 1) hsym.2 (Nat.lt_of_succ_lt_succ hlt)

end BlockContext

structure CompiledScope where
  table : ScopeTable
  isBlock : Bool
  isSRet : Bool

namespace CompiledScope

variable {V : Type}

def symbols (s : CompiledScope) : Option (List String) :=
  if s.isBlock then none else some s.table.localVariables

/-- With `self` and `_cmd`, and the address of a structure that is returned. -/
def numParams (s : CompiledScope) : ℕ :=
  s.table.arguments.length + 2 + if s.isSRet then 1 else 0

def contextSize (s : CompiledScope) : ℕ := s.table.localVariables.length + (s.numParams - 2)

/-- `InitialiseFunction`; `rest` is what it does not initialise. -/
def initialiseFunction (s : CompiledScope) (nil self : V) (arguments rest : List V) :
    BlockContext V where
  count := s.contextSize + 1
  symbolTable := if s.table.localVariables.length > 0 then s.symbols else none
  objects := initialFields nil s.table self arguments ++ rest

def objectOfLocal (s : CompiledScope) (aName : String) : ℕ := s.table.layout.idxOf (.local aName)

/-- The code of the scope, or of a block in it, sets a local, or another sets it from outside. -/
inductive Step (s : CompiledScope) : BlockContext V → BlockContext V → Prop
  | store {c : BlockContext V} {aName : String} {value : V} : aName ∈ s.table.localVariables →
      Step s c (c.setObject (s.objectOfLocal aName) value)
  | setValue {c c' : BlockContext V} {aValue : V} {aSymbol : String} {found : Bool} :
      c.setValue aValue aSymbol = some (found, c') → Step s c c'

inductive Reachable (s : CompiledScope) (nil : V) : BlockContext V → Prop
  | enter {self : V} {arguments rest : List V} :
      arguments.length = s.table.arguments.length →
      Reachable s nil (s.initialiseFunction nil self arguments rest)
  | step {c c' : BlockContext V} : Reachable s nil c → Step s c c' → Reachable s nil c'

/-- The symbols are `self` and each variable, a local is found and set where it is kept, no other
name is found, and no entry beyond the names is read. -/
structure Reflects (s : CompiledScope) (nil : V) (c : BlockContext V) : Prop where
  symbols : ∃ names, c.symbols = some ("self" :: names) ∧ names.Nodup
    ∧ ∀ x, x ∈ names ↔ x ∈ s.table.arguments ∨ x ∈ s.table.localVariables
  valueForSymbol : ∀ x ∈ s.table.localVariables, ∃ value,
    c.valueForSymbol nil x = some value ∧ c.objects[s.objectOfLocal x]? = some value
  setValue : ∀ x ∈ s.table.localVariables, ∀ aValue,
    c.setValue aValue x = some (true, c.setObject (s.objectOfLocal x) aValue)
      ∧ (c.setObject (s.objectOfLocal x) aValue).valueForSymbol nil x = some aValue
  unknown : ∀ x, x ≠ "self" → x ∉ s.table.arguments → x ∉ s.table.localVariables →
    c.valueForSymbol nil x = some nil ∧ ∀ aValue, c.setValue aValue x = some (false, c)
  inBounds : ∀ x aValue,
    (c.valueForSymbol nil x).isSome = true ∧ (c.setValue aValue x).isSome = true

variable {s : CompiledScope} {nil : V} {c c' : BlockContext V}

theorem Step.same (h : Step s c c') : c'.symbolTable = c.symbolTable ∧ c'.count = c.count
    ∧ c'.objects.length = c.objects.length := by
  cases h with
  | store _ => simp [BlockContext.setObject]
  | setValue h =>
    unfold BlockContext.setValue at h
    split_ifs at h
    · obtain ⟨-, rfl⟩ := Prod.mk.inj (some.inj h)
      simp [BlockContext.setObject]
    · split at h
      · obtain ⟨-, rfl⟩ := Prod.mk.inj (some.inj h)
        simp
      · obtain ⟨i | i, -, hi⟩ := map_eq_some_iff.1 h
        · obtain ⟨-, rfl⟩ := Prod.mk.inj hi
          simp
        · obtain ⟨-, rfl⟩ := Prod.mk.inj hi
          simp [BlockContext.setObject]

theorem Reachable.laidOut (h : Reachable s nil c) :
    c.symbolTable = (if s.table.localVariables.length > 0 then s.symbols else none)
      ∧ c.count = s.contextSize + 1 ∧ 0 < c.objects.length := by
  induction h with
  | enter _ => exact ⟨rfl, rfl, by simp [initialiseFunction, initialFields]⟩
  | step _ hstep ih =>
    obtain ⟨htable, hcount, hlength⟩ := hstep.same
    rw [htable, hcount, hlength]
    exact ih

theorem exists_unknown (names : List String) : ∃ x, x ≠ "self" ∧ x ∉ names := by
  obtain ⟨x, hx⟩ := Infinite.exists_notMem_finset ("self" :: names).toFinset
  exact ⟨x, by simpa using hx⟩

/-- A table is searched beyond its end for a name that is to be set and is not there. -/
theorem setValue_unknown (h : Reachable s nil c) {table : List String}
    (htable : c.symbolTable = some table) {x : String} (hself : x ≠ "self") (hx : x ∉ table)
    (aValue : V) : c.setValue aValue x = none := by
  obtain ⟨hnames, hcount, -⟩ := h.laidOut
  have hlocals : table = s.table.localVariables := by
    rw [htable] at hnames
    unfold symbols at hnames
    split_ifs at hnames
    exact some.inj hnames
  have hlt : table.length < c.count := by
    rw [hcount, contextSize, hlocals]
    omega
  simp [BlockContext.setValue, hself, htable, BlockContext.search_eq_none 0 hx hlt]

/-- An activation is reflected as it is if and only if it has nothing but `self`. -/
theorem reflects_iff (h : Reachable s nil c) :
    Reflects s nil c ↔ s.table.arguments = [] ∧ s.table.localVariables = [] := by
  constructor
  · intro hr
    cases htable : c.symbolTable with
    | none =>
      obtain ⟨names, hsymbols, -, hmem⟩ := hr.symbols
      obtain rfl : names = [] := by simpa [BlockContext.symbols, htable] using hsymbols.symm
      simp only [List.not_mem_nil, false_iff, not_or] at hmem
      exact ⟨List.eq_nil_iff_forall_not_mem.2 fun x => (hmem x).1,
        List.eq_nil_iff_forall_not_mem.2 fun x => (hmem x).2⟩
    | some table =>
      obtain ⟨x, hself, hx⟩ := exists_unknown table
      have hin := (hr.inBounds x nil).2
      rw [setValue_unknown h htable hself hx] at hin
      cases hin
  · rintro ⟨harguments, hlocals⟩
    have htable : c.symbolTable = none := by simp [h.laidOut.1, hlocals]
    have hself : ∃ self, c.objects[0]? = some self :=
      ⟨_, List.getElem?_eq_getElem h.laidOut.2.2⟩
    refine ⟨⟨[], by simp [BlockContext.symbols, htable], by simp [harguments, hlocals]⟩,
      by simp [hlocals], by simp [hlocals], fun x hx _ _ => ?_, fun x aValue => ?_⟩
    · simp [BlockContext.valueForSymbol, BlockContext.setValue, hx, htable]
    · obtain ⟨self, hself⟩ := hself
      by_cases hx : x = "self"
      · simp [BlockContext.valueForSymbol, BlockContext.setValue, hx, hself]
      · simp [BlockContext.valueForSymbol, BlockContext.setValue, hx, htable]

/-- `foo`, a method without variables, in which `self` is set. -/
def foo : CompiledScope := ⟨⟨[], []⟩, false, false⟩

theorem reflects_foo : Reflects foo 0 ((foo.initialiseFunction 0 1 [] []).setObject 0 2) := by
  have henter : Reachable foo 0 (foo.initialiseFunction 0 1 [] []) := .enter rfl
  have hset : (foo.initialiseFunction 0 1 [] []).setValue 2 "self"
      = some (true, (foo.initialiseFunction 0 1 [] []).setObject 0 2) := by rfl
  exact (reflects_iff (henter.step (.setValue hset))).2 ⟨rfl, rfl⟩

/-- `add: x`, with the local `sum`. -/
def addMethod : CompiledScope := ⟨⟨["sum"], ["x"]⟩, false, false⟩

/-- Of `sum`, which is `7`, the value is that of `x`, which is `5`; and the names that are read are
more than there are. -/
theorem not_reflects_addMethod :
    Reachable addMethod 0 ((addMethod.initialiseFunction 0 1 [5] []).setObject 2 7)
      ∧ ((addMethod.initialiseFunction 0 1 [5] []).setObject 2 7).valueForSymbol 0 "sum" = some 5
      ∧ ((addMethod.initialiseFunction 0 1 [5] []).setObject 2 7).symbols = none
      ∧ ¬Reflects addMethod 0 ((addMethod.initialiseFunction 0 1 [5] []).setObject 2 7) := by
  have hlocal : addMethod.objectOfLocal "sum" = 2 := by rfl
  have hstep : Step addMethod (addMethod.initialiseFunction 0 1 [5] [])
      ((addMethod.initialiseFunction 0 1 [5] []).setObject 2 7) := by
    rw [← hlocal]
    exact .store (List.mem_singleton.2 rfl)
  have hsymbols :
      ((addMethod.initialiseFunction 0 1 [5] []).setObject 2 7).symbols = none := by rfl
  refine ⟨.step (.enter rfl) hstep, by rfl, hsymbols, fun h => ?_⟩
  obtain ⟨names, hnames, -⟩ := h.symbols
  rw [hsymbols] at hnames
  cases hnames

end CompiledScope

end Etoile.LanguageKit
