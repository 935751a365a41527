import Etoile.Lib.Runs
import Etoile.LanguageKit.ObjectTables

/-!
# Where instance variables lie

The instance variables of a class lie apart as long as the next offset of a table is past all that
is inherited whenever it is given out, and no subclass has given out the same offset.
-/

namespace Etoile.LanguageKit

open List Option

def SymbolTable.declared : SymbolTable → String → Option (String × ℕ)
  | .object t enclosing, aName =>
    match t.instanceVariables.lookup aName with
    | some offset => some (t.className, offset)
    | none => if aName ∈ t.classVariables then none else enclosing.declared aName
  | _, _ => none

section Tables

variable {R : Runtime} {st : SymbolTables} {a b o o' N : ℕ}

def Apart (R : Runtime) (o o' : ℕ) : Prop := o + R.sizeofId ≤ o' ∨ o' + R.sizeofId ≤ o

def offsetsIn (ivars : List (String × ℕ)) : List ℕ := ivars.map Prod.snd

namespace SymbolTables

def offsets (st : SymbolTables) (a : ℕ) : List ℕ := offsetsIn (st.table a).instanceVariables

def scopes (st : SymbolTables) (a : ℕ) : List ℕ := a :: (st.table a).enclosingScopes

/-- The size of the instances of a class, as the runtime tells, or as the table of a new class. -/
def instanceSize (R : Runtime) (st : SymbolTables) (a : ℕ) : ℕ :=
  match R.classNamed (st.table a).className with
  | some C => C.info.instanceSize
  | none => (st.table a).nextOffset

def isClass (R : Runtime) (st : SymbolTables) (name : String) : Bool :=
  (R.classNamed name).isSome || (st.NewClasses.lookup name).isSome

/-- The instance variables that are visible in a class do not overlap, and are found. -/
structure WellLaid (R : Runtime) (st : SymbolTables) (a : ℕ) : Prop where
  apart : ((st.scopes a).flatMap st.offsets).Pairwise (Apart R)
  beyond : a ∈ st.subclasses → ∀ p ∈ (st.table a).enclosingScopes.head?,
    ∀ o ∈ st.offsets a, st.instanceSize R p ≤ o
  found : ∀ {aName className offset},
    (st.symbolTable a).declared aName = some (className, offset) →
      (st.symbolTable a).offsetOfIVar aName = offset
        ∧ (st.symbolTable a).classForIvar aName = some className
        ∧ (st.symbolTable a).scopeOfSymbol (st.isClass R) aName = .object

def Room (R : Runtime) (st : SymbolTables) (scopes : List ℕ) (N : ℕ) : Prop :=
  0 < N ∧ ∀ b ∈ scopes, st.instanceSize R b ≤ N ∧ ∀ o ∈ st.offsets b, o + R.sizeofId ≤ N

end SymbolTables

def RuntimeClass.offsets (C : RuntimeClass) : List ℕ :=
  C.classes.flatMap fun info => offsetsIn info.instanceVariables

def RuntimeClass.WellLaid (R : Runtime) (C : RuntimeClass) : Prop :=
  C.offsets.Pairwise (Apart R) ∧ ∀ o ∈ C.offsets, 0 < o

/-- All that the class inherits or has is within the size of its root class. -/
def RuntimeClass.Room (R : Runtime) (C : RuntimeClass) : Prop :=
  0 < C.rootSize ∧ ∀ info ∈ C.classes, info.instanceSize ≤ C.rootSize
    ∧ ∀ o ∈ offsetsIn info.instanceVariables, o + R.sizeofId ≤ C.rootSize

namespace SymbolTables

/-- Offsets are given out past all that is inherited, and before any subclass gives some out. -/
def Proper (R : Runtime) (st : SymbolTables) : Event → Prop
  | .check classname superclass ivars _ => R.classNamed classname = none ∧
    match R.classNamed superclass with
    | some C => C.WellLaid R ∧ (ivars ≠ [] → C.Room R)
    | none => ∀ p, st.NewClasses.lookup superclass = some (some p) → ivars ≠ [] →
        st.Room R (st.scopes p) (st.table p).nextOffset
  | .addInstanceVariable subclass _ => ∀ a, st.subclasses[subclass]? = some a →
    st.Room R (st.table a).enclosingScopes (st.table a).nextOffset
      ∧ ∀ b < st.next, a ∈ (st.table b).enclosingScopes → st.offsets b = []
  | _ => True

def EnclosedAs (st : SymbolTables) (a : ℕ) : RuntimeClass → Prop
  | .root _ => (st.table a).enclosingScopes = []
  | .subclass _ S => ∃ p, (st.table a).enclosingScopes = st.scopes p
      ∧ (st.table p).className = S.info.name

structure Represents (R : Runtime) (st : SymbolTables) (C : RuntimeClass) (a : ℕ) : Prop where
  className : (st.table a).className = C.info.name
  instanceVariables : (st.table a).instanceVariables = C.info.instanceVariables
  nextOffset : (st.table a).nextOffset = C.rootSize
  enclosing : st.EnclosedAs a C

structure Inv (R : Runtime) (st : SymbolTables) : Prop where
  lt : ∀ a < st.next, ∀ b ∈ (st.table a).enclosingScopes, b < a
  nested : ∀ a < st.next, (st.scopes a).Pairwise fun b c => c ∈ (st.table b).enclosingScopes
  registered : ∀ {name a}, st.NewClasses.lookup name = some (some a) →
    a < st.next ∧ (st.table a).className = name
  subclasses : ∀ a ∈ st.subclasses, a < st.next ∧ R.classNamed (st.table a).className = none
  represents : ∀ a < st.next, ∀ C, R.classNamed (st.table a).className = some C →
    st.Represents R C a
  apart : ∀ a < st.next, (st.offsets a).Pairwise (Apart R)
    ∧ ∀ b ∈ (st.table a).enclosingScopes, ∀ o ∈ st.offsets a, ∀ o' ∈ st.offsets b, Apart R o o'
  pos : ∀ a < st.next, ∀ o ∈ st.offsets a, 0 < o
  below : ∀ a < st.next, R.classNamed (st.table a).className = none →
    (∀ o ∈ st.offsets a, o + R.sizeofId ≤ (st.table a).nextOffset)
      ∧ ∀ p ∈ (st.table a).enclosingScopes.head?, ∀ o ∈ st.offsets a, st.instanceSize R p ≤ o

theorem offsets_of_lookup {ivars : List (String × ℕ)} {aName : String}
    (h : ivars.lookup aName = some o) : o ∈ offsetsIn ivars := by
  induction ivars with
  | nil => cases h
  | cons ivar ivars ih =>
    rw [lookup_cons] at h
    split at h
    · obtain rfl := some.inj h
      exact mem_cons_self ..
    · exact mem_cons_of_mem _ (ih h)

theorem found_of_pos (isClass : String → Bool) {aName className : String} {offset : ℕ} :
    ∀ l : List ℕ, (∀ a ∈ l, ∀ o ∈ st.offsets a, 0 < o) →
      (st.nest l).declared aName = some (className, offset) →
        (st.nest l).offsetOfIVar aName = offset ∧ (st.nest l).classForIvar aName = some className
          ∧ (st.nest l).scopeOfSymbol isClass aName = .object
  | [], _, h => nomatch h
  | a :: l, hpos, h => by
    rw [nest, SymbolTable.declared] at h
    rw [nest, SymbolTable.offsetOfIVar, SymbolTable.classForIvar,
      SymbolTable.scopeOfSymbol, SymbolTable.scopeOfSymbolNonrecursive,
      ObjectTable.scopeOfSymbolNonrecursive, ObjectTable.mapGet]
    cases hlookup : (st.table a).instanceVariables.lookup aName with
    | some o =>
      rw [hlookup] at h
      cases h
      have ho : 0 < offset := hpos a (mem_cons_self ..) offset (offsets_of_lookup hlookup)
      simp [ho]
    | none =>
      rw [hlookup] at h
      have hclass : aName ∉ (st.table a).classVariables := fun hmem => by simp [hmem] at h
      have ih := found_of_pos isClass l (fun b hb => hpos b (mem_cons_of_mem _ hb))
        (by simpa [hclass] using h)
      simpa [hclass] using ih

theorem Inv.wellLaid (h : Inv R st) (ha : a < st.next) : st.WellLaid R a := by
  have hscopes : ∀ b ∈ st.scopes a, b < st.next := fun b hb => by
    rcases mem_cons.1 hb with rfl | hb
    · exact ha
    · exact (h.lt a ha b hb).trans ha
  refine ⟨?_, fun hsub => ?_, fun hdeclared => ?_⟩
  · rw [pairwise_flatMap]
    refine ⟨fun b hb => (h.apart b (hscopes b hb)).1, ?_⟩
    exact (h.nested a ha).imp_of_mem fun hb _ hc => (h.apart _ (hscopes _ hb)).2 _ hc
  · exact (h.below a ha (h.subclasses a hsub).2).2
  · exact found_of_pos _ _ (fun b hb => h.pos b (hscopes b hb)) hdeclared

section AddSymbol

variable (R st a) (aName : String)

@[simp] theorem addSymbol_enclosing (b : ℕ) : ((st.addSymbol R a aName).table b).enclosingScopes
    = (st.table b).enclosingScopes := by
  by_cases hb : b = a
  · subst hb
    simp [addSymbol, modify]
  · simp [addSymbol, modify, hb]

@[simp] theorem addSymbol_className (b : ℕ) : ((st.addSymbol R a aName).table b).className
    = (st.table b).className := by
  by_cases hb : b = a
  · subst hb
    simp [addSymbol, modify]
  · simp [addSymbol, modify, hb]

theorem addSymbol_table_of_ne (hb : b ≠ a) : (st.addSymbol R a aName).table b = st.table b :=
  Function.update_of_ne hb _ _

@[simp] theorem addSymbol_nextOffset : ((st.addSymbol R a aName).table a).nextOffset
    = (st.table a).nextOffset + R.sizeofId := by
  simp [addSymbol, modify]

@[simp] theorem addSymbol_scopes (b : ℕ) : (st.addSymbol R a aName).scopes b = st.scopes b := by
  rw [scopes, addSymbol_enclosing]
  rfl

theorem addSymbol_offsets_of_ne (hb : b ≠ a) :
    (st.addSymbol R a aName).offsets b = st.offsets b := by
  rw [offsets, addSymbol_table_of_ne R st a aName hb]
  rfl

theorem addSymbol_offsets : ∃ l, l.Sublist (st.offsets a) ∧
    (st.addSymbol R a aName).offsets a = l ++ [(st.table a).nextOffset] := by
  refine ⟨offsetsIn ((st.table a).instanceVariables.filter (·.1 ≠ aName)),
    filter_sublist.map Prod.snd, ?_⟩
  simp [offsets, offsetsIn, addSymbol, modify, mapInsert]

theorem addSymbol_instanceSize_of_ne (hb : b ≠ a) :
    (st.addSymbol R a aName).instanceSize R b = st.instanceSize R b := by
  rw [instanceSize, addSymbol_table_of_ne R st a aName hb]
  rfl

end AddSymbol

theorem Inv.addSymbol (h : Inv R st) (ha : a < st.next)
    (hnew : R.classNamed (st.table a).className = none)
    (hroom : st.Room R (st.table a).enclosingScopes (st.table a).nextOffset)
    (hfirst : ∀ b < st.next, a ∈ (st.table b).enclosingScopes → st.offsets b = [])
    (aName : String) : Inv R (st.addSymbol R a aName) := by
  have hne : ∀ b ∈ (st.table a).enclosingScopes, b ≠ a := fun b hb => (h.lt a ha b hb).ne
  obtain ⟨l, hl, hoffsets⟩ := addSymbol_offsets R st a aName
  have hmem : ∀ o ∈ (st.addSymbol R a aName).offsets a,
      o ∈ st.offsets a ∨ o = (st.table a).nextOffset := by
    intro o ho
    rw [hoffsets] at ho
    rcases mem_append.1 ho with ho | ho
    · exact .inl (hl.subset ho)
    · exact .inr (mem_singleton.1 ho)
  obtain ⟨hbelow, hparent⟩ := h.below a ha hnew
  have hnext : (st.addSymbol R a aName).next = st.next := rfl
  refine ⟨?_, ?_, ?_, ?_, ?_, ?_, ?_, ?_⟩
  · intro x hx
    rw [addSymbol_enclosing]
    exact h.lt x hx
  · intro x hx
    simp only [addSymbol_scopes, addSymbol_enclosing]
    exact h.nested x hx
  · intro name x hlookup
    rw [addSymbol_className]
    exact h.registered hlookup
  · intro x hx
    rw [addSymbol_className]
    exact h.subclasses x hx
  · intro x hx C hC
    rw [addSymbol_className] at hC
    have hxa : x ≠ a := fun hxa => by rw [hxa, hnew] at hC; cases hC
    obtain ⟨h1, h2, h3, h4⟩ := h.represents x hx C hC
    refine ⟨?_, ?_, ?_, ?_⟩
    · rwa [addSymbol_className]
    · rwa [addSymbol_table_of_ne R st a aName hxa]
    · rwa [addSymbol_table_of_ne R st a aName hxa]
    · cases C <;> simpa [EnclosedAs] using h4
  · intro x hx
    simp only [addSymbol_enclosing]
    by_cases hxa : x = a
    · subst hxa
      refine ⟨?_, fun b hb o ho o' ho' => ?_⟩
      · rw [hoffsets, pairwise_append]
        refine ⟨(h.apart x ha).1.sublist hl, pairwise_singleton _ _, fun o ho o' ho' => ?_⟩
        rw [mem_singleton.1 ho']
        exact .inl (hbelow o (hl.subset ho))
      · rw [addSymbol_offsets_of_ne R st x aName (hne b hb)] at ho'
        rcases hmem o ho with ho | rfl
        · exact (h.apart x ha).2 b hb o ho o' ho'
        · exact .inr ((hroom.2 b hb).2 o' ho')
    · rw [addSymbol_offsets_of_ne R st a aName hxa]
      refine ⟨(h.apart x hx).1, fun b hb o ho o' ho' => ?_⟩
      by_cases hba : b = a
      · subst hba
        rw [hfirst x hx hb] at ho
        cases ho
      · rw [addSymbol_offsets_of_ne R st a aName hba] at ho'
        exact (h.apart x hx).2 b hb o ho o' ho'
  · intro x hx o ho
    by_cases hxa : x = a
    · subst hxa
      rcases hmem o ho with ho | rfl
      · exact h.pos x hx o ho
      · exact hroom.1
    · rw [addSymbol_offsets_of_ne R st a aName hxa] at ho
      exact h.pos x hx o ho
  · intro x hx hnone
    rw [addSymbol_className] at hnone
    rw [addSymbol_enclosing]
    by_cases hxa : x = a
    · subst hxa
      rw [addSymbol_nextOffset]
      refine ⟨fun o ho => ?_, fun p hp o ho => ?_⟩
      · rcases hmem o ho with ho | rfl
        · exact (hbelow o ho).trans (Nat.le_add_right _ _)
        · exact le_rfl
      · have hpx := mem_of_mem_head? hp
        rw [addSymbol_instanceSize_of_ne R st x aName (hne p hpx)]
        rcases hmem o ho with ho | rfl
        · exact hparent p hp o ho
        · exact (hroom.2 p hpx).1
    · rw [addSymbol_offsets_of_ne R st a aName hxa, addSymbol_table_of_ne R st a aName hxa]
      refine ⟨(h.below x hx hnone).1, fun p hp o ho => ?_⟩
      by_cases hpa : p = a
      · subst hpa
        rw [hfirst x hx (mem_of_mem_head? hp)] at ho
        cases ho
      · rw [addSymbol_instanceSize_of_ne R st a aName hpa]
        exact (h.below x hx hnone).2 p hp o ho

structure SameLayout (st st' : SymbolTables) : Prop where
  next : st'.next = st.next
  className : ∀ a, (st'.table a).className = (st.table a).className
  instanceVariables : ∀ a, (st'.table a).instanceVariables = (st.table a).instanceVariables
  nextOffset : ∀ a, (st'.table a).nextOffset = (st.table a).nextOffset
  enclosingScopes : ∀ a, (st'.table a).enclosingScopes = (st.table a).enclosingScopes

namespace SameLayout

variable {st' : SymbolTables}

theorem offsets (hs : SameLayout st st') (a : ℕ) : st'.offsets a = st.offsets a := by
  rw [SymbolTables.offsets, hs.instanceVariables]
  rfl

theorem scopes (hs : SameLayout st st') (a : ℕ) : st'.scopes a = st.scopes a := by
  rw [SymbolTables.scopes, hs.enclosingScopes]
  rfl

theorem instanceSize (hs : SameLayout st st') (R : Runtime) (a : ℕ) :
    st'.instanceSize R a = st.instanceSize R a := by
  rw [SymbolTables.instanceSize, hs.className, hs.nextOffset]
  rfl

theorem inv (hs : SameLayout st st') (h : Inv R st)
    (hregistered : ∀ {name a}, st'.NewClasses.lookup name = some (some a) →
      a < st'.next ∧ (st'.table a).className = name)
    (hsubclasses : ∀ a ∈ st'.subclasses,
      a < st'.next ∧ R.classNamed (st'.table a).className = none) : Inv R st' := by
  refine ⟨?_, ?_, hregistered, hsubclasses, ?_, ?_, ?_, ?_⟩ <;>
    simp only [hs.next, hs.className, hs.enclosingScopes, hs.offsets, hs.scopes, hs.nextOffset,
      hs.instanceSize]
  · exact h.lt
  · exact h.nested
  · intro a ha C hC
    obtain ⟨h1, h2, h3, h4⟩ := h.represents a ha C hC
    refine ⟨(hs.className a).trans h1, (hs.instanceVariables a).trans h2,
      (hs.nextOffset a).trans h3, ?_⟩
    cases C <;> simpa only [EnclosedAs, hs.enclosingScopes, hs.scopes, hs.className] using h4
  · exact h.apart
  · exact h.pos
  · exact h.below

end SameLayout

theorem Inv.addClassVariable (h : Inv R st) (a : ℕ) (aClassVar : String) :
    Inv R (st.addClassVariable a aClassVar) := by
  have hs : SameLayout st (st.addClassVariable a aClassVar) := by
    refine ⟨rfl, ?_, ?_, ?_, ?_⟩ <;>
    · intro b
      by_cases hb : b = a
      · subst hb
        simp [SymbolTables.addClassVariable, modify]
      · simp [SymbolTables.addClassVariable, modify, hb]
  refine hs.inv h (fun hlookup => ?_) fun b hb => ?_
  · rw [hs.className]
    exact h.registered hlookup
  · rw [hs.className]
    exact h.subclasses b hb

theorem Inv.register (h : Inv R st) (ha : a < st.next) :
    Inv R (st.register (st.table a).className a) := by
  have hs : SameLayout st (st.register (st.table a).className a) :=
    ⟨rfl, fun _ => rfl, fun _ => rfl, fun _ => rfl, fun _ => rfl⟩
  refine hs.inv h (fun {name b} hlookup => ?_) h.subclasses
  rw [SymbolTables.register, lookup_cons] at hlookup
  split at hlookup
  · rename_i heq
    cases hlookup
    exact ⟨ha, (eq_of_beq heq).symm⟩
  · exact h.registered hlookup

theorem Inv.forwardDeclareNewClass (h : Inv R st) (name : String) :
    Inv R (st.forwardDeclareNewClass name) := by
  unfold SymbolTables.forwardDeclareNewClass
  split
  · exact h
  · have hs : SameLayout st { st with NewClasses := (name, none) :: st.NewClasses } :=
      ⟨rfl, fun _ => rfl, fun _ => rfl, fun _ => rfl, fun _ => rfl⟩
    refine hs.inv h (fun {name b} hlookup => ?_) h.subclasses
    rw [lookup_cons] at hlookup
    split at hlookup
    · cases hlookup
    · exact h.registered hlookup

section Insert

variable (t : ClassTable)

theorem insert_table : (st.insert t).table st.next = t := by
  simp [insert]

theorem insert_table_of_lt (ha : a < st.next) : (st.insert t).table a = st.table a :=
  Function.update_of_ne ha.ne _ _

theorem insert_offsets (ha : a < st.next) : (st.insert t).offsets a = st.offsets a := by
  rw [offsets, insert_table_of_lt t ha]
  rfl

theorem insert_scopes (ha : a < st.next) : (st.insert t).scopes a = st.scopes a := by
  rw [scopes, insert_table_of_lt t ha]
  rfl

theorem insert_instanceSize (ha : a < st.next) :
    (st.insert t).instanceSize R a = st.instanceSize R a := by
  rw [instanceSize, insert_table_of_lt t ha]
  rfl

end Insert

theorem Represents.insert {C : RuntimeClass} (h : st.Represents R C a) (hinv : Inv R st)
    (ha : a < st.next) (t : ClassTable) : (st.insert t).Represents R C a := by
  obtain ⟨h1, h2, h3, h4⟩ := h
  refine ⟨?_, ?_, ?_, ?_⟩
  · rwa [insert_table_of_lt t ha]
  · rwa [insert_table_of_lt t ha]
  · rwa [insert_table_of_lt t ha]
  · cases C with
    | root info =>
      rw [EnclosedAs, insert_table_of_lt t ha]
      exact h4
    | subclass info S =>
      obtain ⟨p, hp, hname⟩ := h4
      have hpa : p < a := hinv.lt a ha p (by rw [hp]; exact mem_cons_self ..)
      refine ⟨p, ?_, ?_⟩
      · rwa [insert_table_of_lt t ha, insert_scopes t (hpa.trans ha)]
      · rwa [insert_table_of_lt t (hpa.trans ha)]

theorem Inv.insert (h : Inv R st) {t : ClassTable}
    (henclosing : t.enclosingScopes = [] ∨ ∃ p < st.next, t.enclosingScopes = st.scopes p)
    (hrepresents : ∀ C, R.classNamed t.className = some C →
      (st.insert t).Represents R C st.next)
    (hapart : (offsetsIn t.instanceVariables).Pairwise (Apart R))
    (hscopes : ∀ b ∈ t.enclosingScopes, ∀ o ∈ offsetsIn t.instanceVariables, ∀ o' ∈ st.offsets b,
      Apart R o o')
    (hpos : ∀ o ∈ offsetsIn t.instanceVariables, 0 < o)
    (hbelow : R.classNamed t.className = none → t.instanceVariables = []) :
    Inv R (st.insert t) := by
  have hlt : ∀ b ∈ t.enclosingScopes, b < st.next := by
    intro b hb
    rcases henclosing with hnil | ⟨p, hp, heq⟩
    · rw [hnil] at hb
      cases hb
    · rw [heq] at hb
      rcases mem_cons.1 hb with rfl | hb
      · exact hp
      · exact (h.lt p hp b hb).trans hp
  have hcases : ∀ a < (st.insert t).next, a = st.next ∨ a < st.next := fun a ha =>
    (Nat.lt_succ_iff_lt_or_eq.1 ha).symm
  have hoffsets : (st.insert t).offsets st.next = offsetsIn t.instanceVariables := by
    rw [SymbolTables.offsets, insert_table]
  refine ⟨?_, ?_, ?_, ?_, ?_, ?_, ?_, ?_⟩
  · intro a ha b hb
    rcases hcases a ha with rfl | ha
    · rw [insert_table] at hb
      exact hlt b hb
    · rw [insert_table_of_lt t ha] at hb
      exact h.lt a ha b hb
  · intro a ha
    have hold : ∀ a < st.next, (st.scopes a).Pairwise
        fun b c => c ∈ ((st.insert t).table b).enclosingScopes := by
      intro a ha
      refine (h.nested a ha).imp_of_mem fun {b c} hb _ hc => ?_
      have hb' : b < st.next := by
        rcases mem_cons.1 hb with rfl | hb
        · exact ha
        · exact (h.lt a ha b hb).trans ha
      rwa [insert_table_of_lt t hb']
    rcases hcases a ha with rfl | ha
    · rw [SymbolTables.scopes, insert_table, pairwise_cons]
      refine ⟨fun b hb => by rwa [insert_table], ?_⟩
      rcases henclosing with hnil | ⟨p, hp, heq⟩
      · rw [hnil]
        exact Pairwise.nil
      · rw [heq]
        exact hold p hp
    · rw [insert_scopes t ha]
      exact hold a ha
  · intro name a hlookup
    obtain ⟨ha, hname⟩ := h.registered hlookup
    rw [insert_table_of_lt t ha]
    exact ⟨Nat.lt_succ_of_lt ha, hname⟩
  · intro a hsub
    obtain ⟨ha, hname⟩ := h.subclasses a hsub
    rw [insert_table_of_lt t ha]
    exact ⟨Nat.lt_succ_of_lt ha, hname⟩
  · intro a ha C hC
    rcases hcases a ha with rfl | ha
    · rw [insert_table] at hC
      exact hrepresents C hC
    · rw [insert_table_of_lt t ha] at hC
      exact (h.represents a ha C hC).insert h ha t
  · intro a ha
    rcases hcases a ha with rfl | ha
    · rw [hoffsets, insert_table]
      refine ⟨hapart, fun b hb => ?_⟩
      rw [insert_offsets t (hlt b hb)]
      exact hscopes b hb
    · rw [insert_offsets t ha, insert_table_of_lt t ha]
      refine ⟨(h.apart a ha).1, fun b hb => ?_⟩
      rw [insert_offsets t ((h.lt a ha b hb).trans ha)]
      exact (h.apart a ha).2 b hb
  · intro a ha
    rcases hcases a ha with rfl | ha
    · rw [hoffsets]
      exact hpos
    · rw [insert_offsets t ha]
      exact h.pos a ha
  · intro a ha hnone
    rcases hcases a ha with rfl | ha
    · rw [insert_table] at hnone
      rw [hoffsets, hbelow hnone]
      exact ⟨nofun, nofun⟩
    · rw [insert_table_of_lt t ha] at hnone ⊢
      rw [insert_offsets t ha]
      refine ⟨(h.below a ha hnone).1, fun p hp => ?_⟩
      rw [insert_instanceSize t ((h.lt a ha p (mem_of_mem_head? hp)).trans ha)]
      exact (h.below a ha hnone).2 p hp

theorem Inv.inherited (h : Inv R st) : ∀ {C : RuntimeClass} {a : ℕ} {name : String},
    R.classNamed name = some C → a < st.next → st.Represents R C a → ∀ b ∈ st.scopes a,
      ∃ info ∈ C.classes, st.offsets b = offsetsIn info.instanceVariables
        ∧ st.instanceSize R b = info.instanceSize
  | C, a, name, hC, ha, hrep, b, hb => by
    have hname : R.classNamed (st.table a).className = some C := by
      rw [hrep.className, R.name_eq hC]
      exact hC
    have hself : st.offsets a = offsetsIn C.info.instanceVariables
        ∧ st.instanceSize R a = C.info.instanceSize := by
      refine ⟨congrArg offsetsIn hrep.instanceVariables, ?_⟩
      rw [SymbolTables.instanceSize, hname]
    have henclosing := hrep.enclosing
    cases C with
    | root info =>
      rcases mem_cons.1 hb with rfl | hb
      · exact ⟨info, mem_cons_self .., hself⟩
      · rw [show (st.table a).enclosingScopes = [] from henclosing] at hb
        cases hb
    | subclass info S =>
      rcases mem_cons.1 hb with rfl | hb
      · exact ⟨info, mem_cons_self .., hself⟩
      · obtain ⟨p, hp, hpname⟩ := henclosing
        rw [hp] at hb
        have hpa : p < st.next := (h.lt a ha p (by rw [hp]; exact mem_cons_self ..)).trans ha
        have hS := R.superclass hC
        have hrepS := h.represents p hpa S (by rw [hpname]; exact hS)
        obtain ⟨info', hinfo', hoffsets⟩ := h.inherited hS hpa hrepS b hb
        exact ⟨info', mem_cons_of_mem _ hinfo', hoffsets⟩

theorem wellLaid_superclass {info : ClassInfo} {S : RuntimeClass}
    (h : (RuntimeClass.subclass info S).WellLaid R) : S.WellLaid R :=
  ⟨h.1.sublist (sublist_append_right _ _), fun o ho => h.2 o (mem_append_right _ ho)⟩

theorem Inv.insertClass {C : RuntimeClass} {name : String} {t : ClassTable} (h : Inv R st)
    (hC : R.classNamed name = some C) (hwell : C.WellLaid R) (hname : t.className = C.info.name)
    (hivars : t.instanceVariables = C.info.instanceVariables) (hnext : t.nextOffset = C.rootSize)
    (henclosing : t.enclosingScopes = [] ∨ ∃ p < st.next, t.enclosingScopes = st.scopes p)
    (hat : (st.insert t).EnclosedAs st.next C)
    (hscopes : ∀ b ∈ t.enclosingScopes, ∀ o ∈ offsetsIn t.instanceVariables, ∀ o' ∈ st.offsets b,
      Apart R o o') :
    Inv R ((st.insert t).register C.info.name st.next)
      ∧ ((st.insert t).register C.info.name st.next).Represents R C st.next := by
  have hclass : R.classNamed t.className = some C := by
    rw [hname, R.name_eq hC]
    exact hC
  have hrep : (st.insert t).Represents R C st.next := by
    refine ⟨?_, ?_, ?_, hat⟩ <;> rw [insert_table]
    · exact hname
    · exact hivars
    · exact hnext
  have hown : (offsetsIn t.instanceVariables).Sublist C.offsets := by
    rw [hivars]
    cases C <;> exact sublist_append_left _ _
  have hinv := h.insert henclosing
    (fun C' hC' => by
      obtain rfl := some.inj (hclass.symm.trans hC')
      exact hrep)
    (hwell.1.sublist hown) hscopes (fun o ho => hwell.2 o (hown.subset ho))
    (fun hnone => by rw [hclass] at hnone; cases hnone)
  have hreg := hinv.register (a := st.next) (Nat.lt_succ_self _)
  rw [insert_table, hname] at hreg
  exact ⟨hreg, hrep.1, hrep.2, hrep.3, hrep.4⟩

theorem initForClass_inv : ∀ {C : RuntimeClass} {st st' : SymbolTables} {a : ℕ} {name : String},
    R.classNamed name = some C → C.WellLaid R → Inv R st → initForClass C st = some (a, st') →
      Inv R st' ∧ a < st'.next ∧ st'.Represents R C a ∧ st'.subclasses = st.subclasses
  | .root info, st, st', a, name, hC, hwell, h, hinit => by
    obtain ⟨rfl, rfl⟩ := Prod.mk.inj (some.inj hinit)
    have hat : (st.insert (tableForClass info)).EnclosedAs st.next (.root info) := by
      rw [EnclosedAs, insert_table]
      rfl
    obtain ⟨hinv, hrep⟩ := h.insertClass hC hwell rfl rfl rfl (.inl rfl) hat nofun
    exact ⟨hinv, Nat.lt_succ_self _, hrep, rfl⟩
  | .subclass info S, st, st', a, name, hC, hwell, h, hinit => by
    obtain ⟨⟨p, st₁⟩, hparent, heq⟩ := map_eq_some_iff.1 hinit
    obtain ⟨rfl, rfl⟩ := Prod.mk.inj heq
    have hS := R.superclass hC
    obtain ⟨h₁, hp, hrepS, hsub⟩ : Inv R st₁ ∧ p < st₁.next ∧ st₁.Represents R S p
        ∧ st₁.subclasses = st.subclasses := by
      split at hparent
      · rename_i q hlookup
        obtain ⟨rfl, rfl⟩ := Prod.mk.inj (some.inj hparent)
        obtain ⟨hq, hname⟩ := h.registered hlookup
        exact ⟨h, hq, h.represents q hq S (by rw [hname]; exact hS), rfl⟩
      · cases hparent
      · exact initForClass_inv hS (wellLaid_superclass hwell) h hparent
    have hat : (st₁.insert (st₁.setScope p (tableForClass info))).EnclosedAs st₁.next
        (.subclass info S) := by
      refine ⟨p, ?_, ?_⟩
      · rw [insert_table, insert_scopes _ hp]
        rfl
      · rw [insert_table_of_lt _ hp]
        exact hrepS.className
    obtain ⟨hinv, hrep⟩ := h₁.insertClass hC hwell (t := st₁.setScope p (tableForClass info)) rfl
      rfl hrepS.nextOffset (.inr ⟨p, hp, rfl⟩) hat fun b hb o ho o' ho' => by
        obtain ⟨info', hinfo', hoffsets, -⟩ := h₁.inherited hS hp hrepS b hb
        rw [hoffsets] at ho'
        exact (pairwise_append.1 hwell.1).2.2 o ho o' (mem_flatMap.2 ⟨info', hinfo', ho'⟩)
    exact ⟨hinv, Nat.lt_succ_self _, hrep, hsub⟩

theorem addSymbols_inv : ∀ (ivars : List String) {st : SymbolTables}, Inv R st → a < st.next →
    R.classNamed (st.table a).className = none →
    (ivars ≠ [] → st.Room R (st.table a).enclosingScopes (st.table a).nextOffset) →
    (∀ b < st.next, a ∈ (st.table b).enclosingScopes → st.offsets b = []) →
      Inv R (ivars.foldl (fun st ivar => st.addSymbol R a ivar) st)
        ∧ (ivars.foldl (fun st ivar => st.addSymbol R a ivar) st).next = st.next
        ∧ ((ivars.foldl (fun st ivar => st.addSymbol R a ivar) st).table a).className
          = (st.table a).className
  | [], _, h, _, _, _, _ => ⟨h, rfl, rfl⟩
  | ivar :: ivars, st, h, ha, hnew, hroom, hfirst => by
    have hroom := hroom nofun
    have hne : ∀ b ∈ (st.table a).enclosingScopes, b ≠ a := fun b hb => (h.lt a ha b hb).ne
    have hroom' : (st.addSymbol R a ivar).Room R (st.table a).enclosingScopes
        ((st.table a).nextOffset + R.sizeofId) := by
      refine ⟨hroom.1.trans_le (Nat.le_add_right _ _), fun b hb => ?_⟩
      rw [addSymbol_instanceSize_of_ne R st a ivar (hne b hb),
        addSymbol_offsets_of_ne R st a ivar (hne b hb)]
      obtain ⟨hsize, hoffsets⟩ := hroom.2 b hb
      exact ⟨hsize.trans (Nat.le_add_right _ _),
        fun o ho => (hoffsets o ho).trans (Nat.le_add_right _ _)⟩
    obtain ⟨hinv, hnext, hname⟩ := addSymbols_inv ivars (h.addSymbol ha hnew hroom hfirst ivar) ha
      (by rwa [addSymbol_className])
      (fun _ => by rwa [addSymbol_enclosing, addSymbol_nextOffset])
      (fun b hb hab => by
        rw [addSymbol_enclosing] at hab
        have hba : b ≠ a := fun hba => hne a (hba ▸ hab) rfl
        rw [addSymbol_offsets_of_ne R st a ivar hba]
        exact hfirst b hb hab)
    exact ⟨hinv, hnext, hname.trans (addSymbol_className R st a ivar a)⟩

theorem addClassVariables_inv (a : ℕ) : ∀ (cvars : List String) {st : SymbolTables}, Inv R st →
    Inv R (cvars.foldl (fun st cvar => st.addClassVariable a cvar) st)
      ∧ (cvars.foldl (fun st cvar => st.addClassVariable a cvar) st).next = st.next
      ∧ ((cvars.foldl (fun st cvar => st.addClassVariable a cvar) st).table a).className
        = (st.table a).className
  | [], _, h => ⟨h, rfl, rfl⟩
  | cvar :: cvars, st, h => by
    obtain ⟨hinv, hnext, hname⟩ := addClassVariables_inv a cvars (h.addClassVariable a cvar)
    refine ⟨hinv, hnext, hname.trans ?_⟩
    simp [SymbolTables.addClassVariable, modify]

theorem superclassTable_inv {classname superclass : String} {ivars cvars : List String} {p : ℕ}
    {st' : SymbolTables} (h : Inv R st)
    (hC : st.Proper R (.check classname superclass ivars cvars))
    (hsuper : st.superclassTable R superclass = some (p, st')) :
    Inv R st' ∧ p < st'.next
      ∧ (ivars ≠ [] → st'.Room R (st'.scopes p) (st'.table p).nextOffset) := by
  obtain ⟨-, hC⟩ := hC
  unfold superclassTable at hsuper
  cases hclass : R.classNamed superclass with
  | some C =>
    rw [hclass] at hsuper hC
    obtain ⟨hinv, hp, hrep, -⟩ := initForClass_inv hclass hC.1 h hsuper
    refine ⟨hinv, hp, fun hne => ?_⟩
    obtain ⟨hpos, hroom⟩ := hC.2 hne
    rw [hrep.nextOffset]
    refine ⟨hpos, fun b hb => ?_⟩
    obtain ⟨info, hinfo, hoffsets, hsize⟩ := hinv.inherited hclass hp hrep b hb
    rw [hoffsets, hsize]
    exact hroom info hinfo
  | none =>
    simp only [hclass] at hsuper hC
    split at hsuper
    · rename_i q hlookup
      obtain ⟨rfl, rfl⟩ := Prod.mk.inj (some.inj hsuper)
      exact ⟨h, (h.registered hlookup).1, hC q hlookup⟩
    · cases hsuper

theorem Inv.check {classname superclass : String} {ivars cvars : List String} (h : Inv R st)
    (hC : st.Proper R (.check classname superclass ivars cvars)) :
    Inv R (st.check R classname superclass ivars cvars) := by
  unfold SymbolTables.check
  split
  · exact h
  · rename_i p st₁ hsuper
    obtain ⟨h₁, hp, hroom⟩ := superclassTable_inv h hC hsuper
    have hnone : R.classNamed classname = none := hC.1
    have ht : st₁.symbolTableForSubclassNamed classname p
        = st₁.insert (st₁.setScope p ⟨⟨classname, [], [], []⟩, 0, []⟩) := rfl
    have h₂ : Inv R (st₁.symbolTableForSubclassNamed classname p) :=
      h₁.insert (.inr ⟨p, hp, rfl⟩)
        (fun C hC' => by rw [show R.classNamed classname = some C from hC'] at hnone; cases hnone)
        Pairwise.nil (fun _ _ => nofun) nofun fun _ => rfl
    generalize hst₂ : st₁.symbolTableForSubclassNamed classname p = st₂ at h₂
    have hnext : st₂.next = st₁.next + 1 := by rw [← hst₂]; rfl
    have htable : st₂.table st₁.next = st₁.setScope p ⟨⟨classname, [], [], []⟩, 0, []⟩ := by
      rw [← hst₂, ht, insert_table]
    have hroom₂ : ivars ≠ [] →
        st₂.Room R (st₂.table st₁.next).enclosingScopes (st₂.table st₁.next).nextOffset := by
      intro hne
      rw [htable]
      refine ⟨(hroom hne).1, fun b hb => ?_⟩
      have hb' : b < st₁.next := by
        rcases mem_cons.1 hb with rfl | hb
        · exact hp
        · exact (h₁.lt p hp b hb).trans hp
      rw [← hst₂, ht, insert_instanceSize _ hb', insert_offsets _ hb']
      exact (hroom hne).2 b hb
    obtain ⟨h₃, hnext₃, hname₃⟩ := addSymbols_inv ivars h₂ (show st₁.next < st₂.next by omega)
      (by rw [htable]; exact hnone) hroom₂ fun b hb hmem => by
        have := h₂.lt b hb _ hmem
        omega
    obtain ⟨h₄, hnext₄, hname₄⟩ := addClassVariables_inv st₁.next cvars h₃
    dsimp only
    generalize cvars.foldl _ _ = st₄ at h₄ hnext₄ hname₄ ⊢
    have hname : (st₄.table st₁.next).className = classname := by
      rw [hname₄, hname₃, htable]
      rfl
    have hlt : st₁.next < st₄.next := by omega
    have h₅ := h₄.register hlt
    rw [hname] at h₅
    have hs : SameLayout (st₄.register classname st₁.next)
        { st₄.register classname st₁.next with subclasses := st₄.subclasses ++ [st₁.next] } :=
      ⟨rfl, fun _ => rfl, fun _ => rfl, fun _ => rfl, fun _ => rfl⟩
    refine hs.inv h₅ h₅.registered fun b hb => ?_
    rcases mem_append.1 hb with hb | hb
    · exact h₅.subclasses b hb
    · obtain rfl := mem_singleton.1 hb
      exact ⟨hlt, by rw [hs.className]; exact (congrArg R.classNamed hname).trans hnone⟩

theorem Inv.step {e : Event} (h : Inv R st) (hC : st.Proper R e) : Inv R (st.step R e) := by
  cases e with
  | forwardDeclare className => exact h.forwardDeclareNewClass className
  | check classname superclass ivars cvars => exact h.check hC
  | addInstanceVariable subclass aName =>
    unfold SymbolTables.step
    dsimp only
    cases hsub : st.subclasses[subclass]? with
    | none => exact h
    | some a =>
      obtain ⟨ha, hnew⟩ := h.subclasses a (mem_of_getElem? hsub)
      obtain ⟨hroom, hfirst⟩ := hC a hsub
      exact h.addSymbol ha hnew hroom hfirst aName
  | addClassVariable subclass aName =>
    unfold SymbolTables.step
    dsimp only
    cases st.subclasses[subclass]? with
    | none => exact h
    | some a => exact h.addClassVariable a aName

def empty : SymbolTables where
  table _ := ⟨⟨"", [], [], []⟩, 0, []⟩

theorem inv_empty (R : Runtime) : Inv R empty :=
  ⟨nofun, nofun, nofun, nofun, nofun, nofun, nofun, nofun⟩

def LaysWell (R : Runtime) (st : SymbolTables) (e : Event) : Prop :=
  ∀ a < (st.step R e).next, (st.step R e).WellLaid R a

/-- The instance variables of all classes lie apart and are found throughout every run in which the
offsets are given out properly. -/
theorem ivars_wellLaid {events : List Event} (h : Along (step R) (Proper R) empty events) :
    Along (step R) (LaysWell R) empty events :=
  Along.of_invariant (fun _ _ hs hC => ⟨fun _ ha => (hs.step hC).wellLaid ha, hs.step hC⟩)
    (inv_empty R) h

end SymbolTables

end Tables

def Runtime.withSubclass (root info : ClassInfo) : Runtime where
  sizeofId := 8
  classNamed name :=
    if name = root.name then some (.root root)
    else if name = info.name then some (.subclass info (.root root)) else none
  name_eq h := by
    split_ifs at h with hroot hinfo
    · obtain rfl := some.inj h
      exact hroot.symm
    · obtain rfl := some.inj h
      exact hinfo.symm
  superclass h := by
    split_ifs at h with hroot hinfo
    · cases h
    · cases h
      exact if_pos rfl

namespace SymbolTables

def plainRuntime : Runtime :=
  .withSubclass ⟨"Object", 8, []⟩ ⟨"Account", 8, []⟩

theorem ivars_wellLaid_accounts :
    Along (step plainRuntime) (LaysWell plainRuntime) empty
      [.check "Savings" "Account" ["rate"] [], .addInstanceVariable 0 "owner",
       .check "Child" "Savings" ["limit"] ["count"]] := by
  refine ivars_wellLaid ⟨⟨rfl, ?_, fun _ => ⟨by decide, by decide⟩⟩, fun a ha => ?_,
    ⟨rfl, fun p hp _ => ?_⟩, trivial⟩
  · exact ⟨Pairwise.nil, by decide⟩
  · obtain rfl : 2 = a := some.inj ha
    exact ⟨⟨by decide, by decide⟩, by decide⟩
  · obtain rfl : 2 = p := some.inj (some.inj hp)
    exact ⟨by decide, by decide⟩

def accountRuntime : Runtime :=
  .withSubclass ⟨"NSObject", 8, [("isa", 0, "#")]⟩ ⟨"Account", 16, [("balance", 8, "@")]⟩

theorem ivars_overlap :
    ((empty.check accountRuntime "Savings" "Account" ["rate"] []).scopes 2).flatMap
        (empty.check accountRuntime "Savings" "Account" ["rate"] []).offsets = [8, 8, 0]
      ∧ ¬ Along (step accountRuntime) (LaysWell accountRuntime) empty
        [.check "Savings" "Account" ["rate"] []] := by
  have h : ((empty.check accountRuntime "Savings" "Account" ["rate"] []).scopes 2).flatMap
        (empty.check accountRuntime "Savings" "Account" ["rate"] []).offsets = [8, 8, 0] := by
    decide
  refine ⟨h, fun hrun => ?_⟩
  have := (hrun.1 2 (by decide)).apart
  rw [show step _ _ _ = empty.check accountRuntime "Savings" "Account" ["rate"] [] from rfl,
    h] at this
  simp [Apart, accountRuntime, Runtime.withSubclass] at this

end SymbolTables

end Etoile.LanguageKit
