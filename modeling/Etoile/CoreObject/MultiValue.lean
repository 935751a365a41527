import Mathlib.Algebra.Group.Nat.Defs
import Etoile.Lib.Runs
import Mathlib.Data.List.Nodup
import Mathlib.Data.List.Perm.Basic

/-!
# Multivalues

`COMultiValue` keeps an array of dictionaries, each with a value, a label and an identifier, and
apart from them the identifier of the primary entry.  A new entry gets the first number that no
entry has.  An entry is removed without a look at the primary identifier, so that this names an
entry just as long as nobody removes that entry from among others, and nobody starts anew after
such a removal with another identifier than before.
-/

namespace Etoile.CoreObject

open List

variable {V : Type}

/-- The dictionary of an entry, with the values of `kValue`, `kLabel` and `kIdentifier`. -/
structure MultiValueEntry (V : Type) where
  value : Option V
  label : Option String
  identifier : Option String
deriving DecidableEq

/-- `-initWithObjectsAndKeys:` with these three, whose list ends at the first nil. -/
def MultiValueEntry.withObjectsAndKeys (value : Option V) (label : Option String)
    (identifier : String) : MultiValueEntry V :=
  match value, label with
  | none, _ => ⟨none, none, none⟩
  | some value, none => ⟨some value, none, none⟩
  | some value, some label => ⟨some value, some label, some identifier⟩

/-- What the key `MultiValue` of a property list holds. -/
inductive MultiValueObject (V : Type)
  | array (values : List (MultiValueEntry V))
  | other

structure MultiValuePropertyList (V : Type) where
  multiValue : Option (MultiValueObject V)
  primaryIdentifier : Option String

structure MultiValue (V : Type) where
  values : List (MultiValueEntry V)
  storedPrimary : Option String
deriving DecidableEq

namespace MultiValue

def init : MultiValue V := ⟨[], none⟩

def initWithPropertyList (propertyList : MultiValuePropertyList V) : Option (MultiValue V) :=
  match propertyList.multiValue with
  | none => some ⟨[], propertyList.primaryIdentifier⟩
  | some .other => none
  | some (.array values) => some ⟨values, propertyList.primaryIdentifier⟩

variable (m : MultiValue V)

def propertyList : MultiValuePropertyList V := ⟨some (.array m.values), m.storedPrimary⟩

def count : ℕ := m.values.length

/-- An index for which `-objectAtIndex:` does not raise. -/
def InRange (index : ℤ) : Prop := 0 ≤ index ∧ index < m.count

instance (index : ℤ) : Decidable (m.InRange index) := instDecidableAnd

def identifierAtIndex (index : ℕ) : Option String := m.values[index]?.bind (·.identifier)

/-- The first entry is the primary one if none is set, and is so from then on. -/
def primaryIdentifier : Option String × MultiValue V :=
  if m.storedPrimary = none ∧ m.count ≠ 0 then
    (m.identifierAtIndex 0, { m with storedPrimary := m.identifierAtIndex 0 })
  else (m.storedPrimary, m)

/-- The format `%d` of the `int` that has been counted up `d` times. -/
def format (d : ℕ) : String := toString (BitVec.ofNat 32 d).toInt

def firstFree (idens : List (Option String)) : ℕ → ℕ → Option String
  | 0, _ => none
  | fuel + 1, d =>
    if some (format d) ∈ idens then firstFree idens fuel (d + 1) else some (format d)

/-- An `int` has gone through all its numbers after `2 ^ 32` turns; the loop goes on for ever when
they are all taken. -/
def getIdentifier : Option String :=
  if m.values = [] then some "0" else firstFree (m.values.map (·.identifier)) (2 ^ 32) 0

def addValue (value : Option V) (label : Option String) : Option String × MultiValue V :=
  match m.getIdentifier with
  | none => (none, m)
  | some iden =>
    (some iden, { m with values := m.values ++ [.withObjectsAndKeys value label iden] })

def insertValue (value : Option V) (label : Option String) (index : ℤ) :
    Option String × MultiValue V :=
  if m.InRange index then
    match m.getIdentifier with
    | none => (none, m)
    | some iden =>
      (some iden, { m with
        values := m.values.insertIdx index.toNat (.withObjectsAndKeys value label iden) })
  else (none, m)

def replaceLabelAtIndex (index : ℤ) (label : Option String) : Bool × MultiValue V :=
  if m.InRange index then
    (true, { m with values := m.values.modify index.toNat fun d => { d with label := label } })
  else (false, m)

def replaceValueAtIndex (index : ℤ) (value : Option V) : Bool × MultiValue V :=
  if m.InRange index then
    (true, { m with values := m.values.modify index.toNat fun d => { d with value := value } })
  else (false, m)

def removeValueAndLabelAtIndex (index : ℤ) : Bool × MultiValue V :=
  if m.InRange index then (true, { m with values := m.values.eraseIdx index.toNat })
  else (false, m)

def setPrimaryIdentifier (identifier : Option String) : Bool × MultiValue V :=
  if identifier.isSome ∧ identifier ∈ m.values.map (·.identifier) then
    (true, { m with storedPrimary := identifier })
  else (false, m)

inductive Request (V : Type)
  | addValue (value : Option V) (label : Option String)
  | insertValue (value : Option V) (label : Option String) (index : ℤ)
  | replaceLabelAtIndex (index : ℤ) (label : Option String)
  | replaceValueAtIndex (index : ℤ) (value : Option V)
  | removeValueAndLabelAtIndex (index : ℤ)
  | setPrimaryIdentifier (identifier : Option String)
  | primaryIdentifier
  /-- Its property list is read back. -/
  | readBack

def step : Request V → MultiValue V
  | .addValue value label => (m.addValue value label).2
  | .insertValue value label index => (m.insertValue value label index).2
  | .replaceLabelAtIndex index label => (m.replaceLabelAtIndex index label).2
  | .replaceValueAtIndex index value => (m.replaceValueAtIndex index value).2
  | .removeValueAndLabelAtIndex index => (m.removeValueAndLabelAtIndex index).2
  | .setPrimaryIdentifier identifier => (m.setPrimaryIdentifier identifier).2
  | .primaryIdentifier => m.primaryIdentifier.2
  | .readBack => (initWithPropertyList m.propertyList).getD m

def identifiers : List (Option String) := m.values.map (·.identifier)

/-- Every entry has an identifier of its own, and the primary one is that of an entry. -/
structure Sound : Prop where
  identified : none ∉ m.identifiers
  distinct : m.identifiers.Nodup
  live : m.values ≠ [] → m.primaryIdentifier.1 ∈ m.identifiers

/-- No entry is added without its value or label; the first entry is added where no identifier is
left behind but the one it gets; and the primary entry is removed only as the last one.  Where all
numbers are taken no entry is added. -/
def Keeps : Request V → Prop
  | .addValue value label => (∃ d, some (format d) ∉ m.identifiers) →
      (value ≠ none ∧ label ≠ none) ∧
        (m.values = [] → m.storedPrimary = none ∨ m.storedPrimary = some "0")
  | .insertValue value label index => m.InRange index → (∃ d, some (format d) ∉ m.identifiers) →
      value ≠ none ∧ label ≠ none
  | .removeValueAndLabelAtIndex index => m.InRange index → m.storedPrimary ≠ none →
      m.storedPrimary = m.identifierAtIndex index.toNat → m.count = 1
  | _ => True

variable {m} {m' : MultiValue V}

variable {iden : String}

theorem firstFree_not_mem {idens : List (Option String)} :
    ∀ {fuel d : ℕ}, firstFree idens fuel d = some iden → some iden ∉ idens
  | 0, d, h => by simp [firstFree] at h
  | fuel + 1, d, h => by
    simp only [firstFree] at h
    split_ifs at h with hmem
    · exact firstFree_not_mem h
    · simp only [Option.some.injEq] at h
      rwa [← h]

theorem firstFree_none {idens : List (Option String)} :
    ∀ {fuel d : ℕ}, firstFree idens fuel d = none ↔ ∀ e < fuel, some (format (d + e)) ∈ idens
  | 0, d => by simp [firstFree]
  | fuel + 1, d => by
    simp only [firstFree]
    split_ifs with hmem
    · rw [firstFree_none]
      constructor
      · intro h e he
        rcases e with _ | e
        · exact hmem
        · have hrest := h e (by omega)
          rwa [Nat.add_right_comm] at hrest
      · intro h e he
        have hrest := h (e + 1) (by omega)
        rwa [Nat.add_right_comm]
    · simp only [false_iff]
      exact fun h => hmem (h 0 (Nat.succ_pos fuel))

theorem format_mod (d : ℕ) : format (d % 2 ^ 32) = format d := by
  have hmod : BitVec.ofNat 32 (d % 2 ^ 32) = BitVec.ofNat 32 d :=
    BitVec.eq_of_toNat_eq (by simp)
  rw [format, format, hmod]

theorem getIdentifier_eq_none_iff :
    m.getIdentifier = none ↔ ∀ d, some (format d) ∈ m.identifiers := by
  unfold getIdentifier
  split_ifs with hvalues
  · simp [identifiers, hvalues]
  · rw [firstFree_none]
    constructor
    · intro h d
      have hmem := h (d % 2 ^ 32) (Nat.mod_lt d (Nat.two_pow_pos 32))
      rwa [Nat.zero_add, format_mod] at hmem
    · intro h e _
      rw [Nat.zero_add]
      exact h e

theorem getIdentifier_not_mem (h : m.getIdentifier = some iden) : some iden ∉ m.identifiers := by
  unfold getIdentifier at h
  split_ifs at h with hvalues
  · simp [identifiers, hvalues]
  · exact firstFree_not_mem h

theorem getIdentifier_of_nil (h : m.values = []) : m.getIdentifier = some "0" := if_pos h

theorem exists_format_of_some (h : m.getIdentifier = some iden) :
    ∃ d, some (format d) ∉ m.identifiers := by
  by_contra hall
  simp only [not_exists, not_not] at hall
  rw [getIdentifier_eq_none_iff.2 hall] at h
  cases h

theorem identifier_withObjectsAndKeys (value : Option V) (label : Option String)
    (iden : String) : (MultiValueEntry.withObjectsAndKeys value label iden).identifier
      = if value ≠ none ∧ label ≠ none then some iden else none := by
  rcases value with _ | value <;> rcases label with _ | label <;>
    simp [MultiValueEntry.withObjectsAndKeys]

theorem values_eq_nil_iff : m.values = [] ↔ m.identifiers = [] := by
  simp [identifiers]

theorem primaryIdentifier_of_none (h : m.storedPrimary = none) (hne : m.values ≠ []) :
    m.primaryIdentifier.1 = m.identifierAtIndex 0 := by
  have hcount : m.count ≠ 0 := fun hz => hne (length_eq_zero_iff.1 hz)
  simp [primaryIdentifier, h, hcount]

theorem primaryIdentifier_of_some (h : m.storedPrimary ≠ none) :
    m.primaryIdentifier = (m.storedPrimary, m) := by
  simp [primaryIdentifier, h]

theorem identifierAtIndex_mem {k : ℕ} (h : k < m.count) :
    m.identifierAtIndex k ∈ m.identifiers := by
  have hget := getElem?_eq_getElem h
  rw [identifierAtIndex, hget]
  exact mem_map_of_mem (getElem_mem h)

theorem live_iff : (m.values ≠ [] → m.primaryIdentifier.1 ∈ m.identifiers)
    ↔ (m.values ≠ [] → m.storedPrimary = none ∨ m.storedPrimary ∈ m.identifiers) := by
  refine forall_congr' fun hne => ?_
  by_cases h : m.storedPrimary = none
  · rw [primaryIdentifier_of_none h hne]
    have hpos : 0 < m.count := length_pos_iff.2 hne
    simp [h, identifierAtIndex_mem hpos]
  · simp [primaryIdentifier_of_some h, h]

theorem sound_iff : m.Sound ↔ none ∉ m.identifiers ∧ m.identifiers.Nodup
    ∧ (m.values ≠ [] → m.storedPrimary = none ∨ m.storedPrimary ∈ m.identifiers) :=
  ⟨fun h => ⟨h.identified, h.distinct, live_iff.1 h.live⟩,
    fun h => ⟨h.1, h.2.1, live_iff.2 h.2.2⟩⟩

theorem sound_congr (hids : m'.identifiers.Perm m.identifiers)
    (hstored : m'.storedPrimary = m.storedPrimary) : m'.Sound ↔ m.Sound := by
  have hnil : m'.values = [] ↔ m.values = [] := by
    rw [values_eq_nil_iff, values_eq_nil_iff, ← length_eq_zero_iff, hids.length_eq,
      length_eq_zero_iff]
  simp only [sound_iff, hids.mem_iff, hids.nodup_iff, hstored, ne_eq, hnil]

theorem Sound.cons_iff (h : m.Sound) {i : Option String}
    (hids : m'.identifiers.Perm (i :: m.identifiers))
    (hstored : m'.storedPrimary = m.storedPrimary) (hfresh : i ∉ m.identifiers) :
    m'.Sound ↔ i ≠ none ∧ (m.values = [] → m.storedPrimary = none ∨ m.storedPrimary = i) := by
  have hne : m'.values ≠ [] := by
    rw [Ne, values_eq_nil_iff, ← length_eq_zero_iff, hids.length_eq]
    simp
  have hdistinct := h.distinct
  have hidentified := h.identified
  obtain ⟨-, -, hlive⟩ := sound_iff.1 h
  rw [sound_iff]
  simp only [hids.mem_iff, hids.nodup_iff, hstored, mem_cons, nodup_cons, hfresh,
    hdistinct, hidentified, hne, not_or, not_false_eq_true, and_true, true_and, ne_eq,
    true_implies]
  constructor
  · rintro ⟨hi, hlive'⟩
    refine ⟨fun heq => hi heq.symm, fun hnil => ?_⟩
    rcases hlive' with hnone | hself | hmem
    · exact Or.inl hnone
    · exact Or.inr hself
    · rw [values_eq_nil_iff.1 hnil] at hmem
      simp at hmem
  · rintro ⟨hi, hnil⟩
    refine ⟨fun heq => hi heq.symm, ?_⟩
    by_cases hvalues : m.values = []
    · rcases hnil hvalues with hnone | hself
      · exact Or.inl hnone
      · exact Or.inr (Or.inl hself)
    · rcases hlive hvalues with hnone | hmem
      · exact Or.inl hnone
      · exact Or.inr (Or.inr hmem)

theorem Sound.erase_iff (h : m.Sound) {i : Option String}
    (hids : m.identifiers.Perm (i :: m'.identifiers))
    (hstored : m'.storedPrimary = m.storedPrimary) :
    m'.Sound ↔ (m.storedPrimary ≠ none → m.storedPrimary = i → m.count = 1) := by
  have hcount : m.count = 1 ↔ m'.values = [] := by
    have hlen := hids.length_eq
    rw [values_eq_nil_iff, ← length_eq_zero_iff]
    simp only [identifiers, length_map, length_cons] at hlen ⊢
    rw [count]
    omega
  have hne : m.values ≠ [] := by
    rw [Ne, values_eq_nil_iff, ← length_eq_zero_iff, hids.length_eq]
    simp
  obtain ⟨hidentified, hdistinct, hlive⟩ := sound_iff.1 h
  rw [hids.mem_iff, mem_cons, not_or] at hidentified
  rw [hids.nodup_iff, nodup_cons] at hdistinct
  rw [sound_iff, hcount, hstored]
  constructor
  · rintro ⟨-, -, hlive'⟩ hset heq
    by_contra hrest
    rcases hlive' hrest with hnone | hmem
    · exact hset hnone
    · rw [heq] at hmem
      exact hdistinct.1 hmem
  · intro hkeep
    refine ⟨hidentified.2, hdistinct.2, fun hrest => ?_⟩
    by_cases hset : m.storedPrimary = none
    · exact Or.inl hset
    · rcases hlive hne with hnone | hmem
      · exact Or.inl hnone
      · rw [hids.mem_iff, mem_cons] at hmem
        rcases hmem with heq | hmem
        · exact absurd (hkeep hset heq) hrest
        · exact Or.inr hmem

theorem identifiers_modify {k : ℕ} {f : MultiValueEntry V → MultiValueEntry V}
    (hf : ∀ d, (f d).identifier = d.identifier) :
    (m.values.modify k f).map (·.identifier) = m.identifiers := by
  refine ext_getElem? fun j => ?_
  rw [identifiers, getElem?_map, getElem?_map, getElem?_modify]
  rcases m.values[j]? with _ | d
  · rfl
  · by_cases hk : k = j <;> simp [hk, hf]

theorem identifiers_erase {k : ℕ} (hk : k < m.count) : m.identifiers.Perm
    (m.identifierAtIndex k :: (m.values.eraseIdx k).map (·.identifier)) := by
  have hget := getElem?_eq_getElem hk
  have hperm := (getElem_cons_eraseIdx_perm hk).map (·.identifier)
  rw [identifierAtIndex, hget]
  exact hperm.symm

theorem Sound.add_iff (h : m.Sound) (value : Option V) (label : Option String)
    (hiden : m.getIdentifier = some iden) {values : List (MultiValueEntry V)}
    (hperm : values.Perm (.withObjectsAndKeys value label iden :: m.values)) :
    (⟨values, m.storedPrimary⟩ : MultiValue V).Sound ↔ (value ≠ none ∧ label ≠ none)
      ∧ (m.values = [] → m.storedPrimary = none ∨ m.storedPrimary = some iden) := by
  have hids : (⟨values, m.storedPrimary⟩ : MultiValue V).identifiers.Perm
      ((MultiValueEntry.withObjectsAndKeys value label iden).identifier :: m.identifiers) :=
    hperm.map _
  rw [identifier_withObjectsAndKeys] at hids
  by_cases hset : value ≠ none ∧ label ≠ none
  · rw [if_pos hset] at hids
    rw [h.cons_iff hids rfl (getIdentifier_not_mem hiden)]
    simp [hset]
  · rw [if_neg hset] at hids
    rw [h.cons_iff hids rfl h.identified]
    simp [hset]

theorem Sound.step_add_iff (h : m.Sound) (value : Option V) (label : Option String) :
    (m.step (.addValue value label)).Sound ↔ m.Keeps (.addValue value label) := by
  simp only [step, addValue, Keeps]
  rcases hiden : m.getIdentifier with _ | iden
  · simp [h, getIdentifier_eq_none_iff.1 hiden]
  · have hadd := h.add_iff value label hiden
      (perm_append_singleton _ m.values)
    have hfree := exists_format_of_some hiden
    simp only [hadd, hfree, true_implies]
    refine and_congr_right fun _ => forall_congr' fun hnil => ?_
    rw [getIdentifier_of_nil hnil, Option.some.injEq] at hiden
    rw [hiden]

theorem Sound.step_insert_iff (h : m.Sound) (value : Option V) (label : Option String)
    (index : ℤ) : (m.step (.insertValue value label index)).Sound
      ↔ m.Keeps (.insertValue value label index) := by
  simp only [step, insertValue, Keeps]
  by_cases hrange : m.InRange index
  · rw [if_pos hrange]
    rcases hiden : m.getIdentifier with _ | iden
    · simp [h, getIdentifier_eq_none_iff.1 hiden]
    · obtain ⟨hlo, hhi⟩ := hrange
      rw [count] at hhi
      have hadd := h.add_iff value label hiden
        (perm_insertIdx _ m.values (by omega : index.toNat ≤ m.values.length))
      have hfree := exists_format_of_some hiden
      have hne : m.values ≠ [] := by
        rintro hnil
        rw [hnil, length_nil] at hhi
        omega
      have hrange : m.InRange index := ⟨hlo, hhi⟩
      simp only [hadd, hfree, hrange, hne, true_implies, false_implies, and_true]
  · simp [hrange, h]

theorem Sound.step_remove_iff (h : m.Sound) (index : ℤ) :
    (m.step (.removeValueAndLabelAtIndex index)).Sound
      ↔ m.Keeps (.removeValueAndLabelAtIndex index) := by
  simp only [step, removeValueAndLabelAtIndex, Keeps]
  by_cases hrange : m.InRange index
  · rw [if_pos hrange]
    obtain ⟨hlo, hhi⟩ := hrange
    have hrange : m.InRange index := ⟨hlo, hhi⟩
    have hids := identifiers_erase (m := m) (k := index.toNat) (by omega)
    simp only [hrange, true_implies]
    exact @Sound.erase_iff V m ⟨m.values.eraseIdx index.toNat, m.storedPrimary⟩ h _ hids rfl
  · simp [hrange, h]

theorem Sound.modify (h : m.Sound) {k : ℕ} {f : MultiValueEntry V → MultiValueEntry V}
    (hf : ∀ d, (f d).identifier = d.identifier) :
    (⟨m.values.modify k f, m.storedPrimary⟩ : MultiValue V).Sound :=
  (@sound_congr V m ⟨m.values.modify k f, m.storedPrimary⟩
    (Perm.of_eq (identifiers_modify hf)) rfl).2 h

theorem Sound.setPrimary (h : m.Sound) {identifier : Option String}
    (hmem : identifier ∈ m.identifiers) : (⟨m.values, identifier⟩ : MultiValue V).Sound :=
  sound_iff.2 ⟨h.identified, h.distinct, fun _ => Or.inr hmem⟩

theorem Sound.step_replaceLabel (h : m.Sound) (index : ℤ) (label : Option String) :
    (m.step (.replaceLabelAtIndex index label)).Sound := by
  simp only [step, replaceLabelAtIndex]
  split_ifs
  · exact h.modify fun _ => rfl
  · exact h

theorem Sound.step_replaceValue (h : m.Sound) (index : ℤ) (value : Option V) :
    (m.step (.replaceValueAtIndex index value)).Sound := by
  simp only [step, replaceValueAtIndex]
  split_ifs
  · exact h.modify fun _ => rfl
  · exact h

theorem Sound.step_setPrimary (h : m.Sound) (identifier : Option String) :
    (m.step (.setPrimaryIdentifier identifier)).Sound := by
  simp only [step, setPrimaryIdentifier]
  split_ifs with hmem
  · exact h.setPrimary hmem.2
  · exact h

theorem Sound.step_primary (h : m.Sound) : (m.step .primaryIdentifier).Sound := by
  simp only [step, primaryIdentifier]
  split_ifs with hset
  · exact h.setPrimary (identifierAtIndex_mem (by omega))
  · exact h

/-- One request keeps the identifiers apart and the primary entry there just if it is one of
those. -/
theorem Sound.step_iff (h : m.Sound) : ∀ request : Request V,
    (m.step request).Sound ↔ m.Keeps request
  | .addValue value label => h.step_add_iff value label
  | .insertValue value label index => h.step_insert_iff value label index
  | .removeValueAndLabelAtIndex index => h.step_remove_iff index
  | .replaceLabelAtIndex index label => iff_of_true (h.step_replaceLabel index label) trivial
  | .replaceValueAtIndex index value => iff_of_true (h.step_replaceValue index value) trivial
  | .setPrimaryIdentifier identifier => iff_of_true (h.step_setPrimary identifier) trivial
  | .primaryIdentifier => iff_of_true h.step_primary trivial
  | .readBack => iff_of_true h trivial

theorem sound_init : (init : MultiValue V).Sound :=
  sound_iff.2 ⟨by simp [identifiers, init], by simp [identifiers, init], fun h => absurd rfl h⟩

end MultiValue

end Etoile.CoreObject
