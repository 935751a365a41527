import Etoile.Lucene.Streams
import Mathlib.Data.List.Lex
import Mathlib.Data.Prod.Lex
import Mathlib.Order.Fin.Basic

/-!
# Terms

Terms are ordered by their fields and then by their texts.
-/

namespace Etoile.Lucene

/-- A string in the order of `-compare:`. -/
structure Collated where
  string : NSString
  deriving DecidableEq

/-- The order of `-compare:`, the empty string before all others. -/
class Collation extends LinearOrder Collated where
  nil_le : ∀ s : Collated, ⟨[]⟩ ≤ s

theorem NSString.nil_le : ∀ s : NSString, [] ≤ s
  | [] => le_refl _
  | _ :: _ => le_of_lt List.Lex.nil

@[reducible] def Collation.units : Collation where
  toLinearOrder := LinearOrder.lift' Collated.string fun _ _ => congrArg Collated.mk
  nil_le s := NSString.nil_le s.string

structure Term where
  field : NSString
  text : NSString

namespace Term

def empty : Term := ⟨[], []⟩

def key (t : Term) : Collated ×ₗ Collated := toLex (⟨t.field⟩, ⟨t.text⟩)

theorem key_injective : Function.Injective key := by
  rintro ⟨f, s⟩ ⟨g, u⟩ h
  have hpair : ((⟨f⟩, ⟨s⟩) : Collated × Collated) = (⟨g⟩, ⟨u⟩) := h
  rw [Prod.mk.injEq, Collated.mk.injEq, Collated.mk.injEq] at hpair
  rw [hpair.1, hpair.2]

variable [Collation]

def compare (t other : Term) : Ordering :=
  if t.field = other.field then Ord.compare (Collated.mk t.text) ⟨other.text⟩
  else Ord.compare (Collated.mk t.field) ⟨other.field⟩

instance : LinearOrder Term := LinearOrder.lift' key key_injective

variable {t u : Term}

theorem lt_iff : t < u ↔ Collated.mk t.field < ⟨u.field⟩
    ∨ t.field = u.field ∧ Collated.mk t.text < ⟨u.text⟩ := by
  show t.key < u.key ↔ _
  rw [Prod.Lex.lt_iff, ← Collated.mk.injEq t.field]
  rfl

theorem empty_le (t : Term) : empty ≤ t := by
  show empty.key ≤ t.key
  rw [Prod.Lex.le_iff]
  rcases eq_or_ne (Collated.mk t.field) ⟨[]⟩ with h | h
  · exact Or.inr ⟨h.symm, Collation.nil_le _⟩
  · exact Or.inl (lt_of_le_of_ne (Collation.nil_le _) h.symm)

theorem empty_lt_iff : empty < t ↔ t ≠ empty := by
  rw [(empty_le t).lt_iff_ne, ne_comm]

@[simp] theorem compare_lt_iff : t.compare u = .lt ↔ t < u := by
  unfold compare
  rw [lt_iff]
  split_ifs with h
  · rw [compare_lt_iff_lt]
    refine ⟨fun hlt => Or.inr ⟨h, hlt⟩, ?_⟩
    rintro (hlt | hlt)
    · exact absurd (congrArg Collated.mk h) hlt.ne
    · exact hlt.2
  · rw [compare_lt_iff_lt]
    refine ⟨Or.inl, ?_⟩
    rintro (hlt | hlt)
    · exact hlt
    · exact absurd hlt.1 h

@[simp] theorem compare_gt_iff : t.compare u = .gt ↔ u < t := by
  unfold compare
  rw [lt_iff]
  split_ifs with h
  · rw [compare_gt_iff_gt]
    refine ⟨fun hlt => Or.inr ⟨h.symm, hlt⟩, ?_⟩
    rintro (hlt | hlt)
    · exact absurd (congrArg Collated.mk h.symm) hlt.ne
    · exact hlt.2
  · rw [compare_gt_iff_gt]
    refine ⟨Or.inl, ?_⟩
    rintro (hlt | hlt)
    · exact hlt
    · exact absurd hlt.1.symm h

@[simp] theorem compare_eq_iff : t.compare u = .eq ↔ t = u := by
  rcases hcompare : t.compare u with _ | _ | _
  · exact ⟨nofun, fun h => absurd h (compare_lt_iff.1 hcompare).ne⟩
  · refine ⟨fun _ => le_antisymm ?_ ?_, fun _ => rfl⟩
    · rw [← not_lt, ← compare_gt_iff, hcompare]
      exact nofun
    · rw [← not_lt, ← compare_lt_iff, hcompare]
      exact nofun
  · exact ⟨nofun, fun h => absurd h (compare_gt_iff.1 hcompare).ne'⟩

end Term

structure TermInfo where
  docFreq : ℕ
  freqPointer : ℕ
  proxPointer : ℕ
  skipOffset : ℕ
  deriving DecidableEq

namespace TermInfo

def empty : TermInfo := ⟨0, 0, 0, 0⟩

end TermInfo

structure FieldInfos where
  names : List NSString
  nodup : names.Nodup
  length_lt : names.length < 2 ^ 31

namespace FieldInfos

def fieldNumber (infos : FieldInfos) (name : NSString) : ℤ :=
  if name ∈ infos.names then infos.names.idxOf name else -1

def fieldName (infos : FieldInfos) (number : ℤ) : NSString :=
  if 0 ≤ number then infos.names.getD number.toNat [] else []

theorem fieldName_idxOf {infos : FieldInfos} {name : NSString} (h : name ∈ infos.names) :
    infos.fieldName (infos.names.idxOf name) = name := by
  have hlt := List.idxOf_lt_length_of_mem h
  unfold fieldName
  rw [if_pos (by omega), Int.toNat_natCast, List.getD_eq_getElem?_getD,
    List.getElem?_eq_getElem hlt, List.getElem_idxOf hlt]
  rfl

end FieldInfos

end Etoile.Lucene

/-!
## Enumerators of terms

The messages of `LCTermEnumerator`, and what it means that an enumerator goes through a list.
-/

namespace Etoile.Lucene

/-- The messages an enumerator answers; to `-hasNextTerm` it may raise. -/
class TermEnumerator (E : Type) where
  /-- nil when there is no current term -/
  term : E → Option Term
  documentFrequency : E → ℕ
  hasNextTerm : E → Option (Bool × E)
  /-- no fewer than the terms after the current one -/
  remaining : E → ℕ
  isSome_term : ∀ {e e' : E}, hasNextTerm e = some (true, e') → (term e').isSome
  remaining_lt : ∀ {e e' : E}, hasNextTerm e = some (true, e') → remaining e' < remaining e

open TermEnumerator

variable {E α β : Type} [TermEnumerator E] {shows : E → α → Prop}

/-- After its current term `e` goes through the list. -/
def GoesOn (shows : E → α → Prop) : E → List α → Prop
  | e, [] => ∃ e', hasNextTerm e = some (false, e')
  | e, a :: as => ∃ e', hasNextTerm e = some (true, e') ∧ shows e' a ∧ GoesOn shows e' as

/-- From its current term on `e` goes through the list. -/
def Enumerates (shows : E → α → Prop) : E → List α → Prop
  | e, [] => term e = none
  | e, a :: as => shows e a ∧ GoesOn shows e as

theorem GoesOn.map {shows' : E → β → Prop} (f : α → β)
    (hshows : ∀ e a, shows e a → shows' e (f a)) :
    ∀ {l : List α} {e : E}, GoesOn shows e l → GoesOn shows' e (l.map f)
  | [], _, h => h
  | _ :: _, _, ⟨e', hnext, ha, h⟩ => ⟨e', hnext, hshows _ _ ha, h.map f hshows⟩

theorem Enumerates.map {shows' : E → β → Prop} (f : α → β)
    (hshows : ∀ e a, shows e a → shows' e (f a)) :
    ∀ {l : List α} {e : E}, Enumerates shows e l → Enumerates shows' e (l.map f)
  | [], _, h => h
  | _ :: _, _, ⟨ha, h⟩ => ⟨hshows _ _ ha, h.map f hshows⟩

theorem GoesOn.unique (hshows : ∀ e a a', shows e a → shows e a' → a = a') :
    ∀ {l l' : List α} {e : E}, GoesOn shows e l → GoesOn shows e l' → l = l'
  | [], [], _, _, _ => rfl
  | [], _ :: _, _, ⟨_, h⟩, ⟨_, h', _⟩ => by
    rw [h] at h'
    cases h'
  | _ :: _, [], _, ⟨_, h, _⟩, ⟨_, h'⟩ => by
    rw [h] at h'
    cases h'
  | a :: l, a' :: l', _, ⟨_, h, ha, hl⟩, ⟨_, h', ha', hl'⟩ => by
    rw [h] at h'
    cases h'
    rw [hshows _ _ _ ha ha', hl.unique hshows hl']

theorem Enumerates.unique (hshows : ∀ e a a', shows e a → shows e a' → a = a')
    (hterm : ∀ e a, shows e a → term e ≠ none) :
    ∀ {l l' : List α} {e : E}, Enumerates shows e l → Enumerates shows e l' → l = l'
  | [], [], _, _, _ => rfl
  | [], _ :: _, _, h, h' => absurd h (hterm _ _ h'.1)
  | _ :: _, [], _, h, h' => absurd h' (hterm _ _ h.1)
  | a :: l, a' :: l', _, h, h' => by rw [hshows _ _ _ h.1 h'.1, h.2.unique hshows h'.2]

end Etoile.Lucene
