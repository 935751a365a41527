import Mathlib.Data.List.Basic

/-!
# Predicates over the properties of an object

`-matchesPredicate:` evaluates compound predicates part by part, and a comparison against the values
that its left expression has: a multivalue or an array has several.  The loop over these values
returns at the first one, whatever it answers, so it is the first value alone that is compared; and
for some operators it answers NO for each.
-/

namespace Etoile.CoreObject

inductive Datum (V : Type)
  | object (v : V)
  | array (vs : List V)

structure ComparedObjects (V : Type) where
  compare : V → Option (Datum V) → Ordering
  isEqual : V → Option (Datum V) → Bool
  description : Datum V → String
  hasPrefix : String → Option String → Bool
  hasSuffix : String → Option String → Bool
  /-- The location of the second string in the first one, none for `NSNotFound`. -/
  rangeOfString : Option String → String → Option ℕ

/-- What an object has under a property; the entries of a multivalue are values with a label. -/
inductive QueriedValue (V : Type)
  | datum (d : Datum V)
  | multiValue (entries : List (V × String))

def qCOTextContent := "qCOTextContent"

def componentsSeparatedByDot (key : String) : List String :=
  (key.toList.splitOn '.').map String.ofList

/-- An object that is asked for the values of its properties; `V` has its multivalues too. -/
structure QueriedObject (V : Type) where
  valueForProperty : String → Option (QueriedValue V)
  textContent : V
  /-- A multivalue as an object of its own. -/
  multiValueObject : List (V × String) → V

namespace QueriedObject

variable {V : Type} (o : QueriedObject V)

def valueForKey (key : String) : Option (Datum V) :=
  if key = qCOTextContent then some (.object o.textContent)
  else (o.valueForProperty key).map fun
    | .datum d => d
    | .multiValue entries => .object (o.multiValueObject entries)

def valueForKeyPath (key : String) : Option (Datum V) :=
  if key = qCOTextContent then some (.object o.textContent)
  else match componentsSeparatedByDot key with
    | [] => o.valueForKey key
    | first :: labels =>
      match o.valueForProperty first, labels with
      | some (.multiValue entries), label :: _ =>
        some (.array ((entries.filter fun e => e.2 = label).map Prod.fst))
      | some (.multiValue entries), [] => some (.array (entries.map Prod.fst))
      | _, _ => o.valueForKey key

end QueriedObject

/-- A key path, or any other expression, whose value is up to the library. -/
inductive Expression (V : Type)
  | keyPath (key : String)
  | other (value : QueriedObject V → Option (Datum V))

def Expression.valueWithObject {V : Type} (o : QueriedObject V) : Expression V → Option (Datum V)
  | .keyPath key => o.valueForKeyPath key
  | .other value => value o

inductive PredicateOperator
  | lessThan
  | lessThanOrEqualTo
  | greaterThan
  | greaterThanOrEqualTo
  | equalTo
  | notEqualTo
  | matches
  | like
  | beginsWith
  | endsWith
  | isIn
  | customSelector (selector : String)
  | contains
  | between
deriving DecidableEq

structure ComparisonPredicate (V : Type) where
  leftExpression : Expression V
  rightExpression : Expression V
  predicateOperatorType : PredicateOperator
  /-- The options are not looked at. -/
  caseInsensitive : Bool := false
  diacriticInsensitive : Bool := false

inductive Predicate (V : Type)
  | comparison (cp : ComparisonPredicate V)
  | not (sub : Predicate V)
  | and (subs : List (Predicate V))
  | or (subs : List (Predicate V))

namespace Predicate

variable {V : Type} (f : ComparedObjects V) (o : QueriedObject V)

def compareValue (operator : PredicateOperator) (v : V) (rv : Option (Datum V)) : Option Bool :=
  match operator with
  | .lessThan => some (f.compare v rv == .lt)
  | .lessThanOrEqualTo => some (f.compare v rv != .gt)
  | .greaterThan => some (f.compare v rv == .gt)
  | .greaterThanOrEqualTo => some (f.compare v rv != .lt)
  | .equalTo => some (f.isEqual v rv)
  | .notEqualTo => some (!f.isEqual v rv)
  | .matches => some false
  | .like => some false
  | .beginsWith => some (f.hasPrefix (f.description (.object v)) (rv.map f.description))
  | .endsWith => some (f.hasSuffix (f.description (.object v)) (rv.map f.description))
  | .isIn => some (f.rangeOfString (rv.map f.description) (f.description (.object v))).isSome
  | .customSelector _ => some false
  | .contains => none
  | .between => none

/-- The loop over the values, which goes on only where the switch does not return. -/
def compareValues (operator : PredicateOperator) (rv : Option (Datum V)) : List V → Bool
  | [] => false
  | v :: vs => (compareValue f operator v rv).getD (compareValues operator rv vs)

def arrayOf : Option (Datum V) → List V
  | none => []
  | some (.object v) => [v]
  | some (.array vs) => vs

def matchesComparison (cp : ComparisonPredicate V) : Bool :=
  compareValues f cp.predicateOperatorType (cp.rightExpression.valueWithObject o)
    (arrayOf (cp.leftExpression.valueWithObject o))

mutual

def matchesPredicate : Predicate V → Bool
  | .comparison cp => matchesComparison f o cp
  | .not sub => !matchesPredicate sub
  | .and subs => matchesAnd true subs
  | .or subs => matchesOr false subs

def matchesAnd (result : Bool) : List (Predicate V) → Bool
  | [] => result
  | sub :: subs => matchesAnd (result && matchesPredicate sub) subs

def matchesOr (result : Bool) : List (Predicate V) → Bool
  | [] => result
  | sub :: subs => matchesOr (result || matchesPredicate sub) subs

end

/-- Whether `NSPredicate` takes a comparison to be true of one value, which may be nil. -/
abbrev SingleValueMeaning (V : Type) :=
  ComparisonPredicate V → Option V → Option (Datum V) → Bool

variable (meaning : SingleValueMeaning V)

def leftValues : Option (Datum V) → List (Option V)
  | none => [none]
  | some (.object v) => [some v]
  | some (.array vs) => vs.map some

def comparisonHolds (cp : ComparisonPredicate V) : Bool :=
  (leftValues (cp.leftExpression.valueWithObject o)).any fun v =>
    meaning cp v (cp.rightExpression.valueWithObject o)

mutual

def holds : Predicate V → Bool
  | .comparison cp => comparisonHolds o meaning cp
  | .not sub => !holds sub
  | .and subs => allHold subs
  | .or subs => anyHolds subs

def allHold : List (Predicate V) → Bool
  | [] => true
  | sub :: subs => holds sub && allHold subs

def anyHolds : List (Predicate V) → Bool
  | [] => false
  | sub :: subs => holds sub || anyHolds subs

end

inductive IsPart : Predicate V → Predicate V → Prop
  | refl (p : Predicate V) : IsPart p p
  | not {q sub : Predicate V} : IsPart q sub → IsPart q (.not sub)
  | and {q sub : Predicate V} {subs : List (Predicate V)} : sub ∈ subs → IsPart q sub →
    IsPart q (.and subs)
  | or {q sub : Predicate V} {subs : List (Predicate V)} : sub ∈ subs → IsPart q sub →
    IsPart q (.or subs)

theorem IsPart.trans {p q r : Predicate V} (hpq : IsPart p q) (hqr : IsPart q r) : IsPart p r := by
  induction hqr with
  | refl => exact hpq
  | not _ ih => exact .not ih
  | and hmem _ ih => exact .and hmem ih
  | or hmem _ ih => exact .or hmem ih

/-- Every part is the boolean combination that it should be, of comparisons that are true just if
at least one value satisfies them. -/
def Means (p : Predicate V) : Prop :=
  ∀ q, IsPart q p → matchesPredicate f o q = holds o meaning q

def passes (operator : PredicateOperator) (v : V) (rv : Option (Datum V)) : Bool :=
  (compareValue f operator v rv).getD false

/-- What nil satisfies is not asked for, and the first value passes the test of the operator if and
only if some value satisfies the comparison. -/
@[mk_iff]
structure FirstDecides (cp : ComparisonPredicate V) : Prop where
  ofNil : cp.leftExpression.valueWithObject o = none →
    meaning cp none (cp.rightExpression.valueWithObject o) = false
  ofFirst : ∀ v vs, arrayOf (cp.leftExpression.valueWithObject o) = v :: vs →
    (passes f cp.predicateOperatorType v (cp.rightExpression.valueWithObject o) = true
      ↔ ∃ x ∈ v :: vs, meaning cp (some x) (cp.rightExpression.valueWithObject o) = true)

variable {f o meaning} {cp : ComparisonPredicate V}

theorem compareValues_cons (operator : PredicateOperator) (rv : Option (Datum V)) (v : V) :
    ∀ vs : List V, compareValues f operator rv (v :: vs) = passes f operator v rv
  | [] => rfl
  | w :: vs => by
    have ih := compareValues_cons operator rv w vs
    cases operator with
    | contains => exact ih
    | between => exact ih
    | _ => rfl

theorem matchesComparison_eq_iff : matchesComparison f o cp = comparisonHolds o meaning cp
    ↔ FirstDecides f o meaning cp := by
  rw [firstDecides_iff, matchesComparison, comparisonHolds, Bool.eq_iff_iff, List.any_eq_true]
  generalize cp.rightExpression.valueWithObject o = rv
  rcases cp.leftExpression.valueWithObject o with _ | v | vs
  · simp [arrayOf, leftValues, compareValues]
  · simp [arrayOf, leftValues, compareValues_cons]
  · rcases vs with _ | ⟨v, vs⟩
    · simp [arrayOf, leftValues, compareValues]
    · simp [arrayOf, leftValues, compareValues_cons]

mutual

theorem matchesPredicate_eq : ∀ p : Predicate V,
    (∀ cp, IsPart (.comparison cp) p → FirstDecides f o meaning cp) →
      matchesPredicate f o p = holds o meaning p
  | .comparison cp, h => by
    rw [matchesPredicate, holds]
    exact matchesComparison_eq_iff.2 (h cp (.refl _))
  | .not sub, h => by
    rw [matchesPredicate, holds, matchesPredicate_eq sub fun cp hcp => h cp (.not hcp)]
  | .and subs, h => by
    rw [matchesPredicate, holds, matchesAnd_eq subs fun sub hsub cp hcp => h cp (.and hsub hcp),
      Bool.true_and]
  | .or subs, h => by
    rw [matchesPredicate, holds, matchesOr_eq subs fun sub hsub cp hcp => h cp (.or hsub hcp),
      Bool.false_or]

theorem matchesAnd_eq {result : Bool} : ∀ subs : List (Predicate V),
    (∀ sub ∈ subs, ∀ cp, IsPart (.comparison cp) sub → FirstDecides f o meaning cp) →
      matchesAnd f o result subs = (result && allHold o meaning subs)
  | [], _ => by rw [matchesAnd, allHold, Bool.and_true]
  | sub :: subs, h => by
    rw [List.forall_mem_cons] at h
    rw [matchesAnd, allHold, matchesPredicate_eq sub h.1, matchesAnd_eq subs h.2, Bool.and_assoc]

theorem matchesOr_eq {result : Bool} : ∀ subs : List (Predicate V),
    (∀ sub ∈ subs, ∀ cp, IsPart (.comparison cp) sub → FirstDecides f o meaning cp) →
      matchesOr f o result subs = (result || anyHolds o meaning subs)
  | [], _ => by rw [matchesOr, anyHolds, Bool.or_false]
  | sub :: subs, h => by
    rw [List.forall_mem_cons] at h
    rw [matchesOr, anyHolds, matchesPredicate_eq sub h.1, matchesOr_eq subs h.2, Bool.or_assoc]

end

def comparedStrings : ComparedObjects String where
  compare v
    | some (.object w) => Ord.compare v w
    | _ => .lt
  isEqual v
    | some (.object w) => v == w
    | _ => false
  description
    | .object v => v
    | .array vs => String.join vs
  hasPrefix s prefixed := prefixed.any fun t => t.toList.isPrefixOf s.toList
  hasSuffix s suffixed := suffixed.any fun t => t.toList.isSuffixOf s.toList
  rangeOfString s t := s.bind fun s => s.toList.tails.findIdx? (t.toList.isPrefixOf ·)

def stringMeaning : SingleValueMeaning String
  | cp, some v, rv => passes comparedStrings cp.predicateOperatorType v rv
  | cp, none, rv => rv.isNone && cp.predicateOperatorType == .equalTo

def person : QueriedObject String where
  valueForProperty property :=
    if property = "phone" then some (.multiValue [("1", "home"), ("2", "work")]) else none
  textContent := ""
  multiValueObject entries := String.join (entries.map Prod.fst)

end Predicate

end Etoile.CoreObject
