import Etoile.LanguageKit.SmallInt

/-!
# Comparisons of integers

`COMPARE` promotes a small integer that is compared with an object, `SmallIntMsgisEqual_` does not.
A BigInt is compared with a BigInt always: the argument of a message to an object is boxed.
-/

namespace Etoile.LanguageKit

inductive Comparison
  | isEqual | isLessThan | isGreaterThan | isLessThanOrEqualTo | isGreaterThanOrEqualTo

def Comparison.op : Comparison → ℤ → ℤ → Bool
  | .isEqual, a, b => a = b
  | .isLessThan, a, b => a < b
  | .isGreaterThan, a, b => b < a
  | .isLessThanOrEqualTo, a, b => a ≤ b
  | .isGreaterThanOrEqualTo, a, b => b ≤ a

def mpzCmp (a b : ℤ) : ℤ := (a - b).sign

/-- `CMP`, sent to a BigInt with a BigInt. -/
def bigIntCompare (c : Comparison) (v other : ℤ) : Bool := c.op (mpzCmp v other) 0

/-- `SmallIntMsg…` of a comparison: `isEqual:` compares the words. -/
def smallIntCompare (w : ℕ) (c : Comparison) (obj : ℤ) (argument : Word) : Option Bool :=
  match c, argument with
  | .isEqual, .int other => some (obj = other)
  | .isEqual, .object _ _ => some false
  | c, .object value false => some (bigIntCompare c (bigIntWithLongLong w (obj / 2)) value)
  | c, .int other => if other % 2 = 0 then none else some (c.op (obj / 2) (other / 2))
  | _, .object _ true => none

def sendCompare (w : ℕ) (c : Comparison) (receiver argument : Word) : Option Bool :=
  match receiver with
  | .int obj => if obj % 2 = 0 then none else smallIntCompare w c obj argument
  | .object value false => (boxObject w argument).map (bigIntCompare c value)
  | .object _ true => none

theorem bigIntCompare_eq (c : Comparison) (a b : ℤ) : bigIntCompare c a b = c.op a b := by
  have hlt : (a - b).sign < 0 ↔ a < b := by rw [Int.sign_neg_iff, sub_neg]
  have hgt : 0 < (a - b).sign ↔ b < a := by rw [Int.sign_pos_iff, sub_pos]
  have heq : (a - b).sign = 0 ↔ a = b := by rw [Int.sign_eq_zero_iff_zero, sub_eq_zero]
  have hle : (a - b).sign ≤ 0 ↔ a ≤ b := by rw [← not_lt, hgt, not_lt]
  have hge : 0 ≤ (a - b).sign ↔ b ≤ a := by rw [← not_lt, hlt, not_lt]
  cases c <;> simp [bigIntCompare, mpzCmp, Comparison.op, hlt, hgt, heq, hle, hge]

def Yes (w : ℕ) (c : Comparison) (lhs rhs : Word) : Prop := sendCompare w c lhs rhs = some true

/-- The comparisons of two integers give the truth, equality is an equivalence, one of the three
relations holds, and the difference has its sign. -/
structure ComparesAs (w : ℕ) (lhs rhs : Word) (a b : ℤ) : Prop where
  truth : ∀ c, sendCompare w c lhs rhs = some (c.op a b)
  refl : Yes w .isEqual lhs lhs
  symm : Yes w .isEqual lhs rhs ↔ Yes w .isEqual rhs lhs
  trans : ∀ z n, Word.Denotes w n z → Yes w .isEqual lhs rhs → Yes w .isEqual rhs z →
    Yes w .isEqual lhs z
  one : Yes w .isLessThan lhs rhs ∧ ¬Yes w .isEqual lhs rhs ∧ ¬Yes w .isGreaterThan lhs rhs
    ∨ ¬Yes w .isLessThan lhs rhs ∧ Yes w .isEqual lhs rhs ∧ ¬Yes w .isGreaterThan lhs rhs
    ∨ ¬Yes w .isLessThan lhs rhs ∧ ¬Yes w .isEqual lhs rhs ∧ Yes w .isGreaterThan lhs rhs
  sub : ∃ r d, send w .sub lhs rhs = some r ∧ r.Denotes w d
    ∧ (Yes w .isLessThan lhs rhs ↔ d < 0) ∧ (Yes w .isEqual lhs rhs ↔ d = 0)
    ∧ (Yes w .isGreaterThan lhs rhs ↔ 0 < d)

section Width

variable {w : ℕ} (hw : w = 32 ∨ w = 64) {lhs rhs : Word} {a b : ℤ}
include hw

/-- All but `isEqual:` promote a small integer where the other is not one. -/
theorem sendCompare_eq {c : Comparison} (ha : lhs.Denotes w a) (hb : rhs.Denotes w b)
    (h : c = .isEqual → lhs.IsInt → rhs.IsInt) : sendCompare w c lhs rhs = some (c.op a b) := by
  cases lhs with
  | object value low =>
    obtain ⟨rfl, rfl⟩ := ha
    simp [sendCompare, boxObject_of_denotes hw hb, bigIntCompare_eq]
  | int obj =>
    obtain ⟨rfl, ha⟩ := ha
    have hodd : (2 * a + 1) % 2 = 1 := by omega
    have hshift : (2 * a + 1) / 2 = a := by omega
    cases rhs with
    | int other =>
      obtain ⟨rfl, hb⟩ := hb
      have hodd' : (2 * b + 1) % 2 = 1 := by omega
      have hshift' : (2 * b + 1) / 2 = b := by omega
      cases c <;> simp [sendCompare, smallIntCompare, hodd, hodd', hshift, hshift', Comparison.op]
    | object value low =>
      obtain ⟨rfl, rfl⟩ := hb
      have hbox := bigIntWithLongLong_eq hw (fits_of_tagged hw ha).1
      cases c with
      | isEqual => exact (h rfl trivial).elim
      | isLessThan | isGreaterThan | isLessThanOrEqualTo | isGreaterThanOrEqualTo =>
        simp [sendCompare, smallIntCompare, hodd, hshift, hbox, bigIntCompare_eq]

omit hw in
theorem sendCompare_isEqual_object (ha : lhs.Denotes w a) (hlhs : lhs.IsInt) (hrhs : ¬rhs.IsInt) :
    sendCompare w .isEqual lhs rhs = some false := by
  cases lhs with
  | object value low => exact hlhs.elim
  | int obj =>
    cases rhs with
    | int other => exact (hrhs trivial).elim
    | object value low =>
      obtain ⟨rfl, -⟩ := ha
      have hodd : (2 * a + 1) % 2 = 1 := by omega
      simp [sendCompare, smallIntCompare, hodd]

theorem yes_isEqual_iff (ha : lhs.Denotes w a) (hb : rhs.Denotes w b) :
    Yes w .isEqual lhs rhs ↔ a = b ∧ (lhs.IsInt → rhs.IsInt) := by
  unfold Yes
  by_cases h : lhs.IsInt → rhs.IsInt
  · rw [sendCompare_eq hw ha hb fun _ => h]
    simpa [Comparison.op] using fun _ => h
  · rw [Classical.not_imp] at h
    rw [sendCompare_isEqual_object ha h.1 h.2]
    simp [h.1, h.2]

theorem yes_isLessThan_iff (ha : lhs.Denotes w a) (hb : rhs.Denotes w b) :
    Yes w .isLessThan lhs rhs ↔ a < b := by
  unfold Yes
  rw [sendCompare_eq hw ha hb (by simp)]
  simp [Comparison.op]

theorem yes_isGreaterThan_iff (ha : lhs.Denotes w a) (hb : rhs.Denotes w b) :
    Yes w .isGreaterThan lhs rhs ↔ b < a := by
  unfold Yes
  rw [sendCompare_eq hw ha hb (by simp)]
  simp [Comparison.op]

/-- The difference of two small integers is not there where the second is the least. -/
theorem send_sub_least (ha : lhs.Denotes w a) (hb : rhs.Denotes w (-2 ^ (w - 2)))
    (hint : lhs.IsInt ∧ rhs.IsInt) : send w .sub lhs rhs = none := by
  cases lhs with
  | object value low => exact hint.1.elim
  | int obj =>
    cases rhs with
    | object value low => exact hint.2.elim
    | int other =>
      obtain ⟨rfl, -⟩ := ha
      obtain ⟨rfl, -⟩ := hb
      rcases hw with rfl | rfl
      · norm_num [send, smallIntMsg, smallIntOp, smallIntSub, trapping, Fits, overflowHandler]
      · norm_num [send, smallIntMsg, smallIntOp, smallIntSub, trapping, Fits, overflowHandler]

/-- Two integers compare as they should just where equal ones are held alike, and the second is not
the least small integer, which is not subtracted from a small integer. -/
theorem comparesAs_iff (ha : lhs.Denotes w a) (hb : rhs.Denotes w b) :
    ComparesAs w lhs rhs a b
      ↔ (a = b → (lhs.IsInt ↔ rhs.IsInt)) ∧ (lhs.IsInt ∧ rhs.IsInt → b ≠ -2 ^ (w - 2)) := by
  have hequal := yes_isEqual_iff hw ha hb
  have hequal' := yes_isEqual_iff hw hb ha
  have hless := yes_isLessThan_iff hw ha hb
  have hgreater := yes_isGreaterThan_iff hw ha hb
  have hsub := send_exact_iff hw .sub ha hb (by simp)
  constructor
  · intro h
    refine ⟨fun heq => ?_, ?_⟩
    · have htruth : Yes w .isEqual lhs rhs := by
        unfold Yes
        rw [h.truth]
        simp [Comparison.op, heq]
      exact ⟨(hequal.1 htruth).2, (hequal'.1 (h.symm.1 htruth)).2⟩
    · rintro hint rfl
      obtain ⟨r, d, hsend, -⟩ := h.sub
      rw [send_sub_least hw ha hb hint] at hsend
      cases hsend
  · rintro ⟨hsame, hleast⟩
    obtain ⟨r, hsend, hdenotes⟩ := hsub.2 hleast
    have heq : Yes w .isEqual lhs rhs ↔ a = b :=
      hequal.trans ⟨fun h => h.1, fun h => ⟨h, (hsame h).1⟩⟩
    refine
      { truth := fun c => ?_
        refl := (yes_isEqual_iff hw ha ha).2 ⟨rfl, id⟩
        symm := ?_
        trans := fun z n hz hlr hrz => ?_
        one := ?_
        sub := ⟨r, a - b, hsend, hdenotes, ?_, ?_, ?_⟩ }
    · by_cases hc : c = .isEqual ∧ lhs.IsInt ∧ ¬rhs.IsInt
      · -- they are not equal, as it answers
        obtain ⟨rfl, hlhs, hrhs⟩ := hc
        have hne : a ≠ b := fun h => hrhs ((hsame h).1 hlhs)
        rw [sendCompare_isEqual_object ha hlhs hrhs]
        simp [Comparison.op, hne]
      · exact sendCompare_eq hw ha hb fun hc' hlhs => by_contra fun hrhs => hc ⟨hc', hlhs, hrhs⟩
    · rw [heq, hequal']
      exact ⟨fun h => ⟨h.symm, (hsame h).2⟩, fun h => h.1.symm⟩
    · rw [yes_isEqual_iff hw ha hz]
      have hrz' := (yes_isEqual_iff hw hb hz).1 hrz
      have hlr' := hequal.1 hlr
      exact ⟨hlr'.1.trans hrz'.1, fun h => hrz'.2 (hlr'.2 h)⟩
    · rw [hless, hgreater, heq]
      omega
    · rw [hless]
      omega
    · rw [heq]
      omega
    · rw [hgreater]
      omega

end Width

/-- `5` as a small integer, and `7` as a BigInt. -/
theorem comparesAs_five_seven : ComparesAs 64 (.int 11) (.object 7 false) 5 7 := by
  have hfive : (Word.int 11).Denotes 64 5 := ⟨rfl, by decide⟩
  have hseven : (Word.object 7 false).Denotes 64 7 := ⟨rfl, rfl⟩
  exact (comparesAs_iff (Or.inr rfl) hfive hseven).2 ⟨by norm_num, fun h => h.2.elim⟩

/-- `5` as a small integer is not equal to the BigInt `5`, which is equal to it. -/
theorem not_comparesAs_five :
    (Word.int 11).Denotes 64 5 ∧ (Word.object 5 false).Denotes 64 5
      ∧ sendCompare 64 .isEqual (.int 11) (.object 5 false) = some false
      ∧ sendCompare 64 .isEqual (.object 5 false) (.int 11) = some true
      ∧ ¬ComparesAs 64 (.int 11) (.object 5 false) 5 5 := by
  have hno : sendCompare 64 .isEqual (.int 11) (.object 5 false) = some false := rfl
  refine ⟨⟨rfl, by decide⟩, ⟨rfl, rfl⟩, hno, rfl, fun h => ?_⟩
  have htruth := h.truth .isEqual
  rw [hno] at htruth
  simp [Comparison.op] at htruth

end Etoile.LanguageKit
