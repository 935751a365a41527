import Etoile.LanguageKit.SymbolTable

/-!
# Lexical addressing

What a reference designates is found without any table: the first of the enclosing scopes that
declares the name, or else the first class. The lookups of the symbol tables and the addresses of
the code generator are compared with that.
-/

namespace Etoile.LanguageKit

open List Option

def CONTEXT_VARIABLE_OFFSET : ℕ := 4

/-- A lexical scope under construction: the context fields of its arguments and locals. -/
structure CodeGenScope where
  Args : List ℕ
  Locals : List ℕ

/-- The fields that `InitialiseFunction` takes, one after the other behind self. -/
def initialiseFunction (args locals : ℕ) : CodeGenScope where
  Args := (range args).map (CONTEXT_VARIABLE_OFFSET + 1 + ·)
  Locals := (range locals).map (CONTEXT_VARIABLE_OFFSET + 1 + args + ·)

/-- `LoadArgumentAtIndex`: how many parent links to follow, and the field to read there. -/
def loadArgumentAtIndex (scopes : List CodeGenScope) (index depth : ℕ) : Option (ℕ × ℕ) :=
  if depth = 0 then (scopes.head?.bind (·.Args[index]?)).map (0, ·)
  else some (depth, CONTEXT_VARIABLE_OFFSET + 1 + index)

/-- `LoadLocalAtIndex` and `StoreValueInLocalAtIndex`. -/
def localAtIndex (scopes : List CodeGenScope) (index depth : ℕ) : Option (ℕ × ℕ) :=
  if depth = 0 then (scopes.head?.bind (·.Locals[index]?)).map (0, ·)
  else scopes[depth]?.map fun scope =>
    (depth, CONTEXT_VARIABLE_OFFSET + 1 + index + scope.Args.length)

inductive Slot
  | field (links index : ℕ)
  | ivar (offsetVariable : String) (offset : ℕ)
  | global (name : String)
  deriving DecidableEq

def classVariableName (ClassName CvarName : String) : String :=
  ".class_variable_" ++ ClassName ++ "_" ++ CvarName

def ivarOffsetName (className ivarName : String) : String :=
  "__objc_ivar_offset_" ++ className ++ "." ++ ivarName

/-- Where the code for an access goes, in a method of the class `ClassName`. -/
def Access.slot (scopes : List CodeGenScope) (ClassName : String) : Access → Option Slot
  | .loadLocal index depth | .storeLocal index depth =>
    (localAtIndex scopes index depth).map fun p => .field p.1 p.2
  | .loadArgument index depth =>
    (loadArgumentAtIndex scopes index depth).map fun p => .field p.1 p.2
  | .loadIvar _ ivar offset ofClass | .storeIvar ivar offset ofClass =>
    ofClass.map fun className => .ivar (ivarOffsetName className ivar) offset
  | .loadClassVariable name | .storeClassVariable name =>
    some (.global (classVariableName ClassName name))
  | .loadSelf | .nilConstant | .loadClass _ => none

/-- The tables around a node: its blocks from the inside out, its method, the class and its
superclasses. -/
structure Scopes where
  blocks : List ScopeTable
  method : ScopeTable
  classes : List ObjectTable

namespace Scopes

def lexical (σ : Scopes) : List ScopeTable := σ.blocks ++ [σ.method]

def symbols (σ : Scopes) : SymbolTable :=
  σ.blocks.foldr .block (.method σ.method (σ.classes.foldr .object .nil))

/-- The scopes that `BeginBlock` and `BeginMethod` have opened. -/
def codeGenScopes (σ : Scopes) : List CodeGenScope :=
  σ.lexical.map fun t => initialiseFunction t.arguments.length t.localVariables.length

def ClassName (σ : Scopes) : String := (σ.classes.head?.map ObjectTable.className).getD ""

end Scopes

inductive Variable
  | selfObject
  | argument (name : String)
  | local (name : String)
  deriving DecidableEq

namespace ScopeTable

def declares (t : ScopeTable) (aName : String) : Bool :=
  aName ∈ t.localVariables ∨ aName ∈ t.arguments

def layout (t : ScopeTable) : List Variable :=
  .selfObject :: (t.arguments.map .argument ++ t.localVariables.map .local)

def variableOf (t : ScopeTable) (aName : String) : Variable :=
  if aName ∈ t.localVariables then .local aName else .argument aName

def fieldOf (t : ScopeTable) (v : Variable) : ℕ := CONTEXT_VARIABLE_OFFSET + t.layout.idxOf v

end ScopeTable

def ObjectTable.declares (t : ObjectTable) (aName : String) : Bool :=
  (t.instanceVariables.lookup aName).isSome ∨ aName ∈ t.classVariables

def ObjectTable.slotOf (t : ObjectTable) (aName : String) : Slot :=
  match t.instanceVariables.lookup aName with
  | some offset => .ivar (ivarOffsetName t.className aName) offset
  | none => .global (classVariableName t.className aName)

namespace Scopes

/-- The innermost enclosing scope that declares a name, and how far out it is. -/
def innermost (σ : Scopes) (aName : String) : Option (ℕ × ScopeTable) :=
  (σ.lexical.findIdx? (·.declares aName)).bind fun k => σ.lexical[k]?.map (k, ·)

def nearestClass (σ : Scopes) (aName : String) : Option ObjectTable :=
  σ.classes.find? (·.declares aName)

def bindingSlot (σ : Scopes) (aName : String) : Option Slot :=
  match σ.innermost aName with
  | some (k, t) => some (.field k (t.fieldOf (t.variableOf aName)))
  | none => (σ.nearestClass aName).map (·.slotOf aName)

end Scopes

theorem ScopeTable.fieldOf_inj {t : ScopeTable} {v v' : Variable} (hv : v ∈ t.layout)
    (h : t.fieldOf v = t.fieldOf v') : v = v' := by
  unfold fieldOf at h
  exact (idxOf_inj hv).mp (by omega)

theorem ObjectTable.slotOf_inj {t : ObjectTable} {x y : String} (h : t.slotOf x = t.slotOf y) :
    x = y := by
  unfold slotOf at h
  split at h <;> split at h
  · obtain ⟨h, -⟩ := Slot.ivar.inj h
    unfold ivarOffsetName at h
    exact String.toList_injective (by simpa [String.toList_append] using congrArg String.toList h)
  · exact nomatch h
  · exact nomatch h
  · have h := Slot.global.inj h
    unfold classVariableName at h
    exact String.toList_injective (by simpa [String.toList_append] using congrArg String.toList h)

theorem ScopeTable.nonrecursive_eq_invalid {t : ScopeTable} {x : String} :
    t.scopeOfSymbolNonrecursive x = .invalid ↔ t.declares x = false := by
  unfold scopeOfSymbolNonrecursive declares
  split_ifs <;> simp_all

theorem ObjectTable.nonrecursive_eq_invalid {t : ObjectTable} {x : String} :
    t.scopeOfSymbolNonrecursive x = .invalid ↔ t.declares x = false := by
  unfold scopeOfSymbolNonrecursive declares
  split_ifs <;> simp_all

def classChain (classes : List ObjectTable) : SymbolTable := classes.foldr .object .nil

theorem classChain_cons (c : ObjectTable) (classes : List ObjectTable) :
    classChain (c :: classes) = .object c (classChain classes) := rfl

theorem symbols_nil (m : ScopeTable) (classes : List ObjectTable) :
    (Scopes.mk [] m classes).symbols = .method m (classChain classes) := rfl

theorem symbols_cons (b m : ScopeTable) (blocks : List ScopeTable) (classes : List ObjectTable) :
    (Scopes.mk (b :: blocks) m classes).symbols
      = .block b (Scopes.mk blocks m classes).symbols := rfl

section Lookup

variable {isClass : String → Bool} {x : String} (hx : lookupUnscopedSymbol isClass x = .invalid)

variable {t : ObjectTable}

theorem scopeOfSymbol_object (isClass : String → Bool) (rest : SymbolTable)
    (h : t.declares x = true) :
    (SymbolTable.object t rest).scopeOfSymbol isClass x = t.scopeOfSymbolNonrecursive x := by
  have hne : t.scopeOfSymbolNonrecursive x ≠ .invalid := by
    rw [Ne, ObjectTable.nonrecursive_eq_invalid]
    simp [h]
  rw [SymbolTable.scopeOfSymbol, SymbolTable.scopeOfSymbolNonrecursive]
  split
  · contradiction
  · rfl

/-- A lookup in the classes stops at the nearest one that declares the name, with the tables
from there on as its scope. -/
theorem classChain_nearest (isClass : String → Bool) :
    ∀ {classes : List ObjectTable} {t : ObjectTable}, classes.find? (·.declares x) = some t →
    ∃ rest, (classChain classes).scopeOfSymbol isClass x = t.scopeOfSymbolNonrecursive x
      ∧ (∀ d, ∃ k, (classChain classes).externalLoop isClass x d = some (k, .object t rest))
      ∧ (classChain classes).offsetOfIVar x = (SymbolTable.object t rest).offsetOfIVar x
      ∧ (classChain classes).classForIvar x = (SymbolTable.object t rest).classForIvar x
  | c :: classes, t, h => by
    by_cases hc : c.declares x = true
    · obtain rfl : c = t := by simpa [hc] using h
      have hne : c.scopeOfSymbolNonrecursive x ≠ .invalid := by
        rw [Ne, ObjectTable.nonrecursive_eq_invalid]
        simp [hc]
      refine ⟨classChain classes, scopeOfSymbol_object isClass _ hc, fun d => ⟨d + 1, ?_⟩, rfl, rfl⟩
      · rw [classChain_cons, SymbolTable.externalLoop, SymbolTable.scopeOfSymbolNonrecursive]
        unfold ObjectTable.scopeOfSymbolNonrecursive at hne ⊢
        split_ifs at hne ⊢
        · rfl
        · rfl
        · contradiction
    · simp only [Bool.not_eq_true] at hc
      have hinv := ObjectTable.nonrecursive_eq_invalid.mpr hc
      have hget : c.mapGet x = 0 := by
        unfold ObjectTable.declares at hc
        rw [decide_eq_false_iff_not, not_or] at hc
        unfold ObjectTable.mapGet
        rw [not_isSome_iff_eq_none.mp hc.1]
        rfl
      have hskip : ¬c.mapGet x > 0 := by omega
      obtain ⟨rest, hscope, hloop, hoff, hclass⟩ :=
        classChain_nearest isClass (t := t) (by simpa [hc] using h : classes.find? _ = some t)
      refine ⟨rest, ?_, fun d => ?_, ?_, ?_⟩
      · rw [classChain_cons, SymbolTable.scopeOfSymbol, SymbolTable.scopeOfSymbolNonrecursive, hinv]
        exact hscope
      · obtain ⟨k, hk⟩ := hloop (d + 1)
        refine ⟨k, ?_⟩
        rw [classChain_cons, SymbolTable.externalLoop, SymbolTable.scopeOfSymbolNonrecursive, hinv]
        exact hk
      · show (if c.mapGet x > 0 then c.mapGet x else _) = _
        rw [if_neg hskip]
        exact hoff
      · show (if c.mapGet x > 0 then some c.className else _) = _
        rw [if_neg hskip]
        exact hclass

theorem ScopeTable.declared_scope {t : ScopeTable} (h : t.declares x = true) :
    (x ∈ t.localVariables ∧ t.scopeOfSymbolNonrecursive x = .local)
      ∨ (x ∉ t.localVariables ∧ x ∈ t.arguments ∧ t.scopeOfSymbolNonrecursive x = .argument) := by
  unfold declares at h
  unfold scopeOfSymbolNonrecursive
  by_cases hl : x ∈ t.localVariables <;> simp_all

variable {σ : Scopes}

include hx in
theorem scopeOfSymbol_own {t : ScopeTable} (ht : σ.lexical.head? = some t)
    (h : t.declares x = true) :
    σ.symbols.scopeOfSymbol isClass x = t.scopeOfSymbolNonrecursive x
      ∧ σ.symbols.offsetOfLocal x = t.localVariables.idxOf? x
      ∧ σ.symbols.indexOfArgument x = t.arguments.idxOf? x := by
  obtain ⟨blocks, m, classes⟩ := σ
  have hscope := ScopeTable.declared_scope h
  cases blocks with
  | nil =>
    obtain rfl : m = t := by simpa [Scopes.lexical] using ht
    refine ⟨?_, rfl, rfl⟩
    rw [symbols_nil, SymbolTable.scopeOfSymbol, SymbolTable.scopeOfSymbolNonrecursive]
    rcases hscope with ⟨-, hs⟩ | ⟨-, -, hs⟩ <;> rw [hs]
  | cons b blocks =>
    obtain rfl : b = t := by simpa [Scopes.lexical] using ht
    refine ⟨?_, rfl, rfl⟩
    rw [symbols_cons, SymbolTable.scopeOfSymbol, SymbolTable.scopeOfSymbolNonrecursive]
    rcases hscope with ⟨-, hs⟩ | ⟨-, -, hs⟩ <;> rw [hx, hs]

include hx in
/-- The loop over the enclosing tables counts one link for each scope that it leaves. -/
theorem externalLoop_lexical (m : ScopeTable) (classes : List ObjectTable) :
    ∀ (blocks : List ScopeTable) (d : ℕ),
    (Scopes.mk blocks m classes).symbols.externalLoop isClass x d
      = match (blocks ++ [m]).findIdx? (·.declares x) with
        | some k => some (d + k + 1, (Scopes.mk (blocks.drop k) m classes).symbols)
        | none => (classChain classes).externalLoop isClass x (d + blocks.length + 1)
  | [], d => by
    rw [symbols_nil, SymbolTable.externalLoop, SymbolTable.scopeOfSymbolNonrecursive]
    by_cases h : m.declares x = true
    · rcases ScopeTable.declared_scope h with ⟨-, hs⟩ | ⟨-, -, hs⟩ <;>
        rw [hs] <;> simp [findIdx?_cons, h] <;> rfl
    · simp only [Bool.not_eq_true] at h
      rw [ScopeTable.nonrecursive_eq_invalid.mpr h]
      simp [findIdx?_cons, h]
  | b :: blocks, d => by
    have ih := externalLoop_lexical m classes blocks (d + 1)
    rw [symbols_cons, SymbolTable.externalLoop, SymbolTable.scopeOfSymbolNonrecursive, hx]
    by_cases h : b.declares x = true
    · rcases ScopeTable.declared_scope h with ⟨-, hs⟩ | ⟨-, -, hs⟩ <;>
        rw [hs] <;> simp [findIdx?_cons, h] <;> rfl
    · simp only [Bool.not_eq_true] at h
      rw [ScopeTable.nonrecursive_eq_invalid.mpr h]
      simp only [cons_append, findIdx?_cons, h, length_cons]
      rw [ih]
      cases (blocks ++ [m]).findIdx? (·.declares x) with
      | none => simp; congr 1; omega
      | some k => simp; omega

theorem idxOf_map {α β : Type} [DecidableEq α] [DecidableEq β] {f : α → β}
    (hf : Function.Injective f) (a : α) : ∀ l : List α, (l.map f).idxOf (f a) = l.idxOf a
  | [] => rfl
  | b :: l => by
    by_cases h : b = a
    · subst h
      simp
    · rw [map_cons, idxOf_cons_ne _ (fun hfb => h (hf hfb)), idxOf_cons_ne _ h,
        idxOf_map hf a l]

variable {i : ℕ}

theorem idxOf_of_idxOf? {l : List String} (h : l.idxOf? x = some i) :
    l.idxOf x = i ∧ i < l.length ∧ x ∈ l := by
  have hmem : x ∈ l := by
    by_contra hn
    rw [idxOf?_eq_none_iff.mpr hn] at h
    exact nomatch h
  have hidx : l.idxOf x = i := by
    rw [idxOf_eq_getD_idxOf?, h]
    rfl
  exact ⟨hidx, hidx ▸ idxOf_lt_length_of_mem hmem, hmem⟩

theorem fieldOf_argument {t : ScopeTable} (h : t.arguments.idxOf? x = some i) :
    t.fieldOf (.argument x) = CONTEXT_VARIABLE_OFFSET + 1 + i := by
  obtain ⟨hidx, -, hmem⟩ := idxOf_of_idxOf? h
  unfold ScopeTable.fieldOf ScopeTable.layout
  rw [idxOf_cons_ne _ (by simp), idxOf_append_of_mem (mem_map_of_mem hmem),
    idxOf_map (fun a b hab => Variable.argument.inj hab), hidx]
  omega

theorem fieldOf_local {t : ScopeTable} (h : t.localVariables.idxOf? x = some i) :
    t.fieldOf (.local x) = CONTEXT_VARIABLE_OFFSET + 1 + t.arguments.length + i := by
  obtain ⟨hidx, -, -⟩ := idxOf_of_idxOf? h
  unfold ScopeTable.fieldOf ScopeTable.layout
  rw [idxOf_cons_ne _ (by simp), idxOf_append_of_notMem (by simp),
    idxOf_map (fun a b hab => Variable.local.inj hab), hidx, length_map]
  omega

variable {k : ℕ}

theorem codeGenScopes_getElem? {t : ScopeTable} (ht : σ.lexical[k]? = some t) :
    σ.codeGenScopes[k]? = some (initialiseFunction t.arguments.length t.localVariables.length) := by
  unfold Scopes.codeGenScopes
  rw [getElem?_map, ht]
  rfl

/-- The fields of the innermost context are at hand; those of an outer one are computed. -/
theorem loadArgumentAtIndex_eq {t : ScopeTable}
    (ht : σ.lexical[k]? = some t) (hi : i < t.arguments.length) :
    loadArgumentAtIndex σ.codeGenScopes i k = some (k, CONTEXT_VARIABLE_OFFSET + 1 + i) := by
  have hs := codeGenScopes_getElem? ht
  unfold loadArgumentAtIndex
  split_ifs with hk
  · subst hk
    rw [← head?_eq_getElem?] at hs
    rw [hs]
    simp [initialiseFunction, hi]
  · rfl

theorem localAtIndex_eq {t : ScopeTable}
    (ht : σ.lexical[k]? = some t) (hi : i < t.localVariables.length) :
    localAtIndex σ.codeGenScopes i k
      = some (k, CONTEXT_VARIABLE_OFFSET + 1 + t.arguments.length + i) := by
  have hs := codeGenScopes_getElem? ht
  unfold localAtIndex
  split_ifs with hk
  · subst hk
    rw [← head?_eq_getElem?] at hs
    rw [hs]
    simp [initialiseFunction, hi]
  · rw [hs]
    simp [initialiseFunction]
    omega

theorem idxOf?_of_mem {l : List String} (h : x ∈ l) : ∃ i, l.idxOf? x = some i :=
  isSome_iff_exists.mp (by
    rw [← not_isNone]
    simpa using h)

theorem slot_of_declared {t : ScopeTable} (ht : σ.lexical[k]? = some t)
    (hdecl : t.declares x = true) :
    (t.scopeOfSymbolNonrecursive x = .local ∧ t.variableOf x = .local x
      ∧ ∃ i, t.localVariables.idxOf? x = some i
        ∧ (Access.loadLocal i k).slot σ.codeGenScopes σ.ClassName
            = some (.field k (t.fieldOf (t.variableOf x)))
        ∧ (Access.storeLocal i k).slot σ.codeGenScopes σ.ClassName
            = some (.field k (t.fieldOf (t.variableOf x))))
    ∨ (t.scopeOfSymbolNonrecursive x = .argument ∧ t.variableOf x = .argument x
      ∧ ∃ i, t.arguments.idxOf? x = some i
        ∧ (Access.loadArgument i k).slot σ.codeGenScopes σ.ClassName
            = some (.field k (t.fieldOf (t.variableOf x)))) := by
  rcases ScopeTable.declared_scope hdecl with ⟨hmem, hs⟩ | ⟨hnot, hmem, hs⟩
  · obtain ⟨i, hi⟩ := idxOf?_of_mem hmem
    have hvar : t.variableOf x = .local x := if_pos hmem
    refine Or.inl ⟨hs, hvar, i, hi, ?_, ?_⟩ <;>
    · simp only [Access.slot]
      rw [localAtIndex_eq ht (idxOf_of_idxOf? hi).2.1, hvar, fieldOf_local hi]
      rfl
  · obtain ⟨i, hi⟩ := idxOf?_of_mem hmem
    have hvar : t.variableOf x = .argument x := if_neg hnot
    refine Or.inr ⟨hs, hvar, i, hi, ?_⟩
    simp only [Access.slot]
    rw [loadArgumentAtIndex_eq ht (idxOf_of_idxOf? hi).2.1, hvar, fieldOf_argument hi]
    rfl

theorem lexical_drop {blocks : List ScopeTable} {m : ScopeTable} {classes : List ObjectTable} (hk : k ≤ blocks.length) :
    (Scopes.mk (blocks.drop k) m classes).lexical.head? = (blocks ++ [m])[k]? := by
  unfold Scopes.lexical
  rw [← drop_append_of_le_length hk, head?_drop]

theorem innermost_eq_some {t : ScopeTable} (h : σ.innermost x = some (k, t)) :
    σ.lexical.findIdx? (·.declares x) = some k ∧ σ.lexical[k]? = some t ∧ t.declares x = true := by
  unfold Scopes.innermost at h
  obtain ⟨j, hj, ht⟩ := bind_eq_some_iff.mp h
  obtain ⟨t', ht', heq⟩ := map_eq_some_iff.mp ht
  obtain ⟨rfl, rfl⟩ := Prod.mk.inj heq
  obtain ⟨hlt, hdecl, -⟩ := findIdx?_eq_some_iff_getElem.mp hj
  rw [getElem?_eq_getElem hlt] at ht'
  obtain rfl := some.inj ht'
  exact ⟨hj, getElem?_eq_getElem hlt, hdecl⟩

theorem innermost_eq_none (h : σ.innermost x = none) :
    σ.lexical.findIdx? (·.declares x) = none := by
  unfold Scopes.innermost at h
  cases hj : σ.lexical.findIdx? (·.declares x) with
  | none => rfl
  | some j =>
    obtain ⟨hlt, -⟩ := findIdx?_eq_some_iff_getElem.mp hj
    rw [hj, bind_some, getElem?_eq_getElem hlt] at h
    exact nomatch h

include hx in
theorem scopeOfSymbol_external {b m : ScopeTable} {blocks : List ScopeTable}
    {classes : List ObjectTable} (hb : b.declares x = false) :
    (Scopes.mk (b :: blocks) m classes).symbols.scopeOfSymbol isClass x = .external := by
  rw [symbols_cons, SymbolTable.scopeOfSymbol, SymbolTable.scopeOfSymbolNonrecursive, hx,
    ScopeTable.nonrecursive_eq_invalid.mpr hb]

include hx in
/-- Where a name that an enclosing scope declares is looked up: in the own table, or `k` links
out. -/
theorem resolve_lexical {t : ScopeTable} (h : σ.innermost x = some (k, t)) :
    (k = 0 ∧ σ.lexical.head? = some t)
      ∨ σ.symbols.scopeOfSymbol isClass x = .external
        ∧ ∃ σ' : Scopes, σ.symbols.scopeOfExternalSymbol isClass x = some (k, σ'.symbols)
          ∧ σ'.lexical.head? = some t := by
  obtain ⟨hfind, ht, -⟩ := innermost_eq_some h
  obtain ⟨blocks, m, classes⟩ := σ
  cases blocks with
  | nil =>
    obtain ⟨hlt, -⟩ := findIdx?_eq_some_iff_getElem.mp hfind
    obtain rfl : k = 0 := by
      simp only [Scopes.lexical, nil_append, length_singleton] at hlt
      omega
    exact Or.inl ⟨rfl, by rwa [head?_eq_getElem?]⟩
  | cons b blocks =>
    by_cases hb : b.declares x = true
    · have hzero : k = 0 := by simpa [Scopes.lexical, findIdx?_cons, hb] using hfind.symm
      subst hzero
      exact Or.inl ⟨rfl, by rwa [head?_eq_getElem?]⟩
    · simp only [Bool.not_eq_true] at hb
      refine Or.inr ⟨scopeOfSymbol_external hx hb, ?_⟩
      have hloop := externalLoop_lexical hx m classes blocks 0
      cases hj : (blocks ++ [m]).findIdx? (·.declares x) with
      | none => simp [Scopes.lexical, findIdx?_cons, hb, hj] at hfind
      | some j =>
        have hk : j + 1 = k := by simpa [Scopes.lexical, findIdx?_cons, hb, hj] using hfind
        subst hk
        rw [hj] at hloop
        obtain ⟨hlt, -⟩ := findIdx?_eq_some_iff_getElem.mp hj
        rw [length_append, length_singleton] at hlt
        refine ⟨⟨blocks.drop j, m, classes⟩, ?_, ?_⟩
        · show (Scopes.mk blocks m classes).symbols.externalLoop isClass x 0 = _
          rw [hloop]
          simp
        · rw [lexical_drop (by omega)]
          simpa [Scopes.lexical] using ht

include hx in
/-- Where a name that no scope declares is looked up: in the tables from the nearest class on. -/
theorem resolve_class (h : σ.innermost x = none) (ht : σ.nearestClass x = some t) :
    ∃ rest,
      (σ.symbols.scopeOfSymbol isClass x = t.scopeOfSymbolNonrecursive x
        ∧ σ.symbols.offsetOfIVar x = (SymbolTable.object t rest).offsetOfIVar x
        ∧ σ.symbols.classForIvar x = (SymbolTable.object t rest).classForIvar x)
      ∨ σ.symbols.scopeOfSymbol isClass x = .external
        ∧ ∃ k, σ.symbols.scopeOfExternalSymbol isClass x = some (k, .object t rest) := by
  have hfind := innermost_eq_none h
  obtain ⟨blocks, m, classes⟩ := σ
  obtain ⟨rest, hscope, hloop, hoff, hclass⟩ := classChain_nearest isClass ht
  refine ⟨rest, ?_⟩
  cases blocks with
  | nil =>
    have hm : m.declares x = false := by
      by_contra hm
      simp [Scopes.lexical, findIdx?_cons, hm] at hfind
    refine Or.inl ⟨?_, hoff, hclass⟩
    rw [symbols_nil, SymbolTable.scopeOfSymbol, SymbolTable.scopeOfSymbolNonrecursive,
      ScopeTable.nonrecursive_eq_invalid.mpr hm]
    exact hscope
  | cons b blocks =>
    have hb : b.declares x = false := by
      by_contra hb
      rw [Bool.not_eq_false] at hb
      simp [Scopes.lexical, findIdx?_cons, hb] at hfind
    have hrest : (blocks ++ [m]).findIdx? (·.declares x) = none := by
      simpa [Scopes.lexical, findIdx?_cons, hb] using hfind
    refine Or.inr ⟨scopeOfSymbol_external hx hb, ?_⟩
    have hext := externalLoop_lexical hx m classes blocks 0
    rw [hrest] at hext
    obtain ⟨k, hk⟩ := hloop (0 + blocks.length + 1)
    exact ⟨k, hext.trans hk⟩

/-- The variables of classes that the code reaches: not those at offset zero, which is also what
`NSMapGet` answers for a missing name, and of the class variables those of the compiled class. -/
def Scopes.Reaches (σ : Scopes) (aName : String) (t : ObjectTable) : Prop :=
  match t.instanceVariables.lookup aName with
  | some offset => offset ≠ 0
  | none => t.className = σ.ClassName

theorem class_slot (rest : SymbolTable) (hdecl : t.declares x = true) (hreach : σ.Reaches x t) :
    (t.scopeOfSymbolNonrecursive x = .object
      ∧ ((SymbolTable.object t rest).classForIvar x).map
          (fun c => Slot.ivar (ivarOffsetName c x) ((SymbolTable.object t rest).offsetOfIVar x))
        = some (t.slotOf x))
    ∨ (t.scopeOfSymbolNonrecursive x = .class
      ∧ Slot.global (classVariableName σ.ClassName x) = t.slotOf x) := by
  unfold Scopes.Reaches at hreach
  unfold ObjectTable.declares at hdecl
  unfold ObjectTable.scopeOfSymbolNonrecursive ObjectTable.slotOf SymbolTable.classForIvar
    SymbolTable.offsetOfIVar ObjectTable.mapGet
  cases hl : t.instanceVariables.lookup x with
  | some offset =>
    simp only [hl] at hreach
    have hpos : offset > 0 := Nat.pos_of_ne_zero hreach
    exact Or.inl ⟨rfl, by simp [hpos]⟩
  | none =>
    simp only [hl] at hreach
    have hmem : x ∈ t.classVariables := by simpa [hl] using hdecl
    exact Or.inr ⟨by simp [hmem], by rw [hreach]⟩

theorem nearestClass_declares (h : σ.nearestClass x = some t) : t.declares x = true :=
  find?_some (p := fun t : ObjectTable => t.declares x) h

/-- A name is reached unless a class variable or the field at offset zero hides it. -/
def Scopes.ReachesVariable (σ : Scopes) (aName : String) : Prop :=
  σ.innermost aName = none → ∀ t, σ.nearestClass aName = some t → σ.Reaches aName t

include hx in
/-- A reference is compiled, and like an assignment that is, to one of the slot of its name. -/
theorem compile_slot {slot : Slot} (hslot : σ.bindingSlot x = some slot)
    (hreach : σ.ReachesVariable x) :
    (∃ a, compileDeclRef isClass σ.symbols x = some a
      ∧ a.slot σ.codeGenScopes σ.ClassName = some slot)
    ∧ ∀ a, compileAssign isClass σ.symbols x = some a →
      a.slot σ.codeGenScopes σ.ClassName = some slot := by
  unfold Scopes.bindingSlot at hslot
  cases hin : σ.innermost x with
  | some kt =>
    obtain ⟨k, t⟩ := kt
    obtain ⟨-, ht, hdecl⟩ := innermost_eq_some hin
    rw [hin] at hslot
    obtain rfl := some.inj hslot
    rcases resolve_lexical hx hin with ⟨rfl, hhead⟩ | ⟨hext, σ', hscope, hhead⟩
    · obtain ⟨hs, hloc, harg⟩ := scopeOfSymbol_own hx hhead hdecl
      rcases slot_of_declared ht hdecl with ⟨hs', -, i, hi, hslot, hslot'⟩ | ⟨hs', -, i, hi, hslot⟩
      · simp only [compileDeclRef, compileAssign, hs, hs', hloc, hi, map_some]
        exact ⟨⟨_, rfl, hslot⟩, fun a ha => some.inj ha ▸ hslot'⟩
      · simp only [compileDeclRef, compileAssign, hs, hs', harg, hi, map_some]
        exact ⟨⟨_, rfl, hslot⟩, nofun⟩
    · obtain ⟨hs, hloc, harg⟩ := scopeOfSymbol_own hx hhead hdecl
      rcases slot_of_declared ht hdecl with ⟨hs', -, i, hi, hslot, hslot'⟩ | ⟨hs', -, i, hi, hslot⟩
      · simp only [compileDeclRef, compileAssign, hext, hscope, hs, hs', hloc, hi, map_some]
        exact ⟨⟨_, rfl, hslot⟩, fun a ha => some.inj ha ▸ hslot'⟩
      · simp only [compileDeclRef, compileAssign, hext, hscope, hs, hs', harg, hi, map_some]
        exact ⟨⟨_, rfl, hslot⟩, nofun⟩
  | none =>
    rw [hin] at hslot
    obtain ⟨t, ht, rfl⟩ := map_eq_some_iff.mp hslot
    obtain ⟨rest, hres⟩ := resolve_class hx hin ht
    have hdecl := nearestClass_declares ht
    have hobj := scopeOfSymbol_object isClass rest hdecl
    have hclass := class_slot rest hdecl (hreach hin t ht)
    rcases hres with ⟨hs, hoff, hcls⟩ | ⟨hext, k, hscope⟩ <;>
      rcases hclass with ⟨hs', hslot⟩ | ⟨hs', hslot⟩
    · simp only [compileDeclRef, compileAssign, hs, hs', storeIvarIn, hoff, hcls]
      refine ⟨⟨_, rfl, hslot⟩, fun a ha => ?_⟩
      split_ifs at ha
      exact some.inj ha ▸ hslot
    · simp only [compileDeclRef, compileAssign, hs, hs']
      exact ⟨⟨_, rfl, congrArg some hslot⟩, fun a ha => some.inj ha ▸ congrArg some hslot⟩
    · simp only [compileDeclRef, compileAssign, hext, hscope, hobj, hs', storeIvarIn]
      refine ⟨⟨_, rfl, hslot⟩, fun a ha => ?_⟩
      split_ifs at ha
      exact some.inj ha ▸ hslot
    · simp only [compileDeclRef, compileAssign, hext, hscope, hobj, hs']
      exact ⟨⟨_, rfl, congrArg some hslot⟩, fun a ha => some.inj ha ▸ congrArg some hslot⟩

include hx in
/-- Assigning to a local compiles, at every depth; assigning to an argument never does. -/
theorem compileAssign_isSome {t : ScopeTable} (h : σ.innermost x = some (k, t)) :
    (compileAssign isClass σ.symbols x).isSome = true ↔ x ∈ t.localVariables := by
  obtain ⟨-, ht, hdecl⟩ := innermost_eq_some h
  have hkind : t.scopeOfSymbolNonrecursive x = .local ↔ x ∈ t.localVariables := by
    unfold ScopeTable.scopeOfSymbolNonrecursive
    split_ifs <;> simp_all
  rcases resolve_lexical hx h with ⟨rfl, hhead⟩ | ⟨hext, σ', hscope, hhead⟩
  · obtain ⟨hs, hloc, -⟩ := scopeOfSymbol_own hx hhead hdecl
    rcases slot_of_declared ht hdecl with ⟨hs', -, i, hi, -⟩ | ⟨hs', -⟩
    · simp only [compileAssign, hs, hs', hloc, hi, map_some, isSome_some, true_iff]
      exact hkind.mp hs'
    · rw [← hkind]
      simp [compileAssign, hs, hs']
  · obtain ⟨hs, hloc, -⟩ := scopeOfSymbol_own hx hhead hdecl
    rcases slot_of_declared ht hdecl with ⟨hs', -, i, hi, -⟩ | ⟨hs', -⟩
    · simp only [compileAssign, hext, hscope, hs, hs', hloc, hi, map_some,
        isSome_some, true_iff]
      exact hkind.mp hs'
    · rw [← hkind]
      simp [compileAssign, hext, hscope, hs, hs']

end Lookup

end Etoile.LanguageKit
