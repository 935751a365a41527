import Etoile.Lib.EditDistance
import Etoile.Lib.Fold
import Etoile.Lucene.FilteredTermEnumerator
import Mathlib.Data.Rat.Floor

/-!
# Fuzzy matches

`LCFuzzyTermEnumerator` computes the edit distance of a term from the text of the query in a matrix
of one row for each beginning of the text, which it keeps in one block of memory.  A row has a cell
for each beginning of the term, but the rows are only as far apart as the text is long: they overlap
unless the term is shorter than the text.
-/

namespace Etoile.Lucene

open Function List Nat Option

namespace Fuzzy

def TYPICAL_LONGEST_WORD_IN_INDEX : ℕ := 19

/-- How results are rounded to a `float`, and a `float` is made an `int`. -/
structure FloatFormat where
  round : ℚ → ℚ
  round_mono : Monotone round
  round_natCast : ∀ n : ℕ, n ≤ 2 ^ 24 → round n = n

def truncate (x : ℚ) : ℤ := if 0 ≤ x then ⌊x⌋ else ⌈x⌉

namespace FloatFormat

variable (format : FloatFormat)

/-- `1.0f - distance / length`. -/
def similarity (distance : ℤ) (length : ℕ) : ℚ :=
  format.round (1 - format.round (format.round distance / format.round length))

end FloatFormat

structure DistanceMatrix where
  size : ℕ
  cells : ℕ → ℤ

namespace DistanceMatrix

variable (d : DistanceMatrix)

def read (k : ℕ) : Option ℤ := if k < d.size then some (d.cells k) else none

def write (k : ℕ) (v : ℤ) : Option DistanceMatrix :=
  if k < d.size then some { d with cells := update d.cells k v } else none

end DistanceMatrix

def minOfTwo (a b : ℤ) : ℤ := if a < b then a else b

def minOfThree (a b c : ℤ) : ℤ := minOfTwo (minOfTwo a b) c

section Computation

variable (text target : NSString)

def initMatrix (d : DistanceMatrix) : Option DistanceMatrix := do
  let d ← (range' 0 (text.length + 1)).foldlM (fun d i => d.write (i * text.length) i) d
  (range' 0 (target.length + 1)).foldlM (fun d j => d.write j j) d

/-- One turn of the inner loop, with the best possible distance of the row so far. -/
def fillCell (i : ℕ) (s : DistanceMatrix × ℤ) (j : ℕ) : Option (DistanceMatrix × ℤ) := do
  let dn := text.length
  let si ← text[i - 1]?
  let tj ← target[j - 1]?
  let above ← s.1.read ((i - 1) * dn + j)
  let left ← s.1.read (i * dn + (j - 1))
  let diagonal ← s.1.read ((i - 1) * dn + j - 1)
  let d ← s.1.write (i * dn + j) (if si ≠ tj then minOfThree above left diagonal + 1
    else minOfThree (above + 1) (left + 1) diagonal)
  let value ← d.read (i * dn + j)
  return (d, minOfTwo s.2 value)

def fillRow (i : ℕ) (d : DistanceMatrix) : Option (DistanceMatrix × ℤ) :=
  (range' 1 target.length).foldlM (fillCell text target i) (d, target.length)

/-- The rows from `i` on; there is no matrix if they are left early. -/
def fillRows (maxDistance : ℤ) : ℕ → ℕ → DistanceMatrix → Option (Option DistanceMatrix)
  | 0, _, d => some (some d)
  | rows + 1, i, d => do
    let r ← fillRow text target i d
    if maxDistance < i ∧ maxDistance < r.2 then return none
    else fillRows maxDistance rows (i + 1) r.1

end Computation

structure FuzzyQuery where
  format : FloatFormat
  field : NSString
  prefixText : NSString
  text : NSString
  minimumSimilarity : ℚ

namespace FuzzyQuery

variable (q : FuzzyQuery)

def calculateMaxDistance (m : ℕ) : ℤ :=
  truncate (q.format.round (q.format.round (1 - q.minimumSimilarity)
    * q.format.round ((min q.text.length m + q.prefixText.length : ℕ) : ℚ)))

def maxDistances : List ℤ :=
  (range TYPICAL_LONGEST_WORD_IN_INDEX).map q.calculateMaxDistance

def maxDistance (m : ℕ) : ℤ := (q.maxDistances[m]?).getD (q.calculateMaxDistance m)

/-- `-similarity:`; `contents` is what the memory for the matrix has in it. -/
def similarity (contents : ℕ → ℤ) (target : NSString) : Option ℚ :=
  let m := target.length
  let n := q.text.length
  if n = 0 then
    some (if q.prefixText.length = 0 then 0 else q.format.similarity m q.prefixText.length)
  else if m = 0 then
    some (if q.prefixText.length = 0 then 0 else q.format.similarity n q.prefixText.length)
  else if q.maxDistance m < |(m : ℤ) - n| then some 0
  else do
    let d ← initMatrix q.text target ⟨n * max TYPICAL_LONGEST_WORD_IN_INDEX m, contents⟩
    match ← fillRows q.text target (q.maxDistance m) n 1 d with
    | none => return 0
    | some d =>
      let value ← d.read (n * n + m)
      return q.format.similarity value (q.prefixText.length + min n m)

def sharesPrefix (t : Term) : Bool :=
  q.field = t.field && (t.text.hasPrefix q.prefixText || q.prefixText.length = 0)

/-- The instance variable is `endEnum`. -/
def termFilter (contents : NSString → ℕ → ℤ) : TermFilter Bool where
  isEqualToTerm t endEnum :=
    if q.sharesPrefix t then
      let target := t.text.drop q.prefixText.length
      (q.similarity (contents target) target).map fun similarity =>
        (decide (q.minimumSimilarity < similarity), endEnum)
    else some (false, true)
  endOfEnumerator endEnum := endEnum

end FuzzyQuery

/-- What `-initWithReader:term:similarity:prefixLength:` makes of its arguments. -/
def fuzzyQuery (format : FloatFormat) (searchTerm : Term) (s : ℚ) (prefixLength : ℤ) :
    Option FuzzyQuery :=
  if 1 ≤ s then none
  else if s < 0 then none
  else if prefixLength < 0 then none
  else
    let realPrefixLength := min prefixLength.toNat searchTerm.text.length
    some {
      format := format
      field := searchTerm.field
      prefixText := searchTerm.text.take realPrefixLength
      text := searchTerm.text.drop realPrefixLength
      minimumSimilarity := s }

def FuzzyQuery.enumerator {E : Type} [TermEnumerator E] [Collation] (q : FuzzyQuery)
    (contents : NSString → ℕ → ℤ) (reader : DictionaryReader E) :
    Option (FilteredTermEnumerator (q.termFilter contents) E) :=
  FilteredTermEnumerator.setEnumerator _ (reader.termEnumeratorWithTerm ⟨q.field, q.prefixText⟩)
    false

theorem lt_of_truncate_lt {x : ℚ} {k : ℕ} (h : truncate x < k) : x < k := by
  rw [truncate] at h
  split_ifs at h with hx
  · exact_mod_cast Int.floor_lt.1 h
  · exact lt_of_lt_of_le (not_le.1 hx) (cast_nonneg k)

section Matrix

variable {text target : NSString} {d : DistanceMatrix} {best maxDistance : ℤ} {i j : ℕ}

theorem cell_eq_iff {n i j i' j' : ℕ} (hj : j < n) (hj' : j' < n) :
    i * n + j = i' * n + j' ↔ i = i' ∧ j = j' := by
  constructor
  · intro h
    have hn : 0 < n := by omega
    have hdiv := congrArg (· / n) h
    have hmod := congrArg (· % n) h
    simp only [mul_comm _ n, mul_add_div hn, mul_add_mod,
      div_eq_of_lt hj, div_eq_of_lt hj', mod_eq_of_lt hj, mod_eq_of_lt hj',
      add_zero] at hdiv hmod
    exact ⟨hdiv, hmod⟩
  · rintro ⟨rfl, rfl⟩
    rfl

/-- The matrix up to a cell of row `i`, and its first column. -/
structure Filled (text target : NSString) (i j : ℕ) (d : DistanceMatrix) : Prop where
  size : text.length * text.length + target.length < d.size
  left : ∀ k ≤ text.length, d.cells (k * text.length) = k
  filled : ∀ k l, l ≤ target.length → k < i ∨ k = i ∧ l ≤ j →
    d.cells (k * text.length + l) = distanceAt text target k l

theorem cell_lt {n m k l size : ℕ} (hk : k ≤ n) (hl : l ≤ m) (hsize : n * n + m < size) :
    k * n + l < size := by
  have := mul_le_mul_right n hk
  omega

theorem read_eq {k : ℕ} (h : k < d.size) : d.read k = some (d.cells k) := if_pos h

theorem write_eq {k : ℕ} {v : ℤ} (h : k < d.size) :
    d.write k v = some { d with cells := update d.cells k v } := if_pos h

theorem leastEdits_eq {α : Type} [DecidableEq α] (x y : α) (above left diagonal : ℕ) :
    (if x ≠ y then minOfThree above left diagonal + 1
      else minOfThree (above + 1) (left + 1) diagonal)
        = leastEdits (x = y) above left diagonal := by
  by_cases h : x = y <;> simp only [h, leastEdits, minOfThree, minOfTwo] <;> split_ifs <;>
    simp_all <;> omega

theorem lt_minOfTwo_iff {a b x : ℤ} : x < minOfTwo a b ↔ x < a ∧ x < b := by
  rw [minOfTwo]
  split_ifs <;> omega

theorem initColumn_filled (hn : 0 < text.length) (hsize : text.length * text.length < d.size) :
    ∃ d', (range' 0 (text.length + 1)).foldlM
        (fun (d : DistanceMatrix) i => d.write (i * text.length) i) d = some d'
      ∧ d'.size = d.size ∧ ∀ k ≤ text.length, d'.cells (k * text.length) = k := by
  obtain ⟨d', hd', hsize', hleft⟩ := @foldlM_range'_succeeds _
    (fun (d : DistanceMatrix) i => d.write (i * text.length) i)
    (fun k d' => d'.size = d.size ∧ ∀ l < k, d'.cells (l * text.length) = l)
    (text.length + 1) 0 d
    (fun k d₁ _ hk ⟨hsize₁, hleft₁⟩ => by
      have hlt := @cell_lt _ 0 k 0 _ (Nat.lt_succ_iff.1 (by omega)) (Nat.zero_le _) hsize
      refine ⟨_, write_eq (by rw [hsize₁]; exact hlt), hsize₁, fun l hl => ?_⟩
      rcases Nat.lt_succ_iff_lt_or_eq.1 hl with hl | rfl
      · have hne : l * text.length ≠ k * text.length := by
          rw [Ne, Nat.mul_left_inj hn.ne']
          exact hl.ne
        simp only [update_of_ne hne, hleft₁ l hl]
      · simp only [update_self])
    ⟨rfl, fun l hl => absurd hl (not_lt_zero l)⟩
  exact ⟨d', hd', hsize', fun k hk => hleft k (by omega)⟩

theorem initMatrix_filled (hlt : target.length < text.length)
    (hsize : text.length * text.length + target.length < d.size) :
    ∃ d', initMatrix text target d = some d' ∧ Filled text target 0 target.length d' := by
  obtain ⟨d₁, hd₁, hsize₁, hleft₁⟩ :=
    initColumn_filled (zero_lt_of_lt hlt) (lt_of_le_of_lt (le_add_right _ _) hsize)
  obtain ⟨d', hd', hsize', hleft', hrow⟩ := @foldlM_range'_succeeds _
    (fun (d : DistanceMatrix) j => d.write j j)
    (fun k d' => d'.size = d.size ∧ (∀ l ≤ text.length, d'.cells (l * text.length) = l)
      ∧ ∀ l < k, d'.cells l = l) (target.length + 1) 0 d₁
    (fun k d₂ _ hk ⟨hsize₂, hleft₂, hrow₂⟩ => by
      refine ⟨_, write_eq (by omega), hsize₂, fun l hl => ?_, fun l hl => ?_⟩
      · by_cases hlk : l * text.length = k
        · -- only the first cell is in the first column, too
          have hl0 : l = 0 := by
            by_contra hl0
            have := Nat.le_mul_of_pos_left text.length (Nat.pos_of_ne_zero hl0)
            omega
          subst hl0
          simp [← hlk]
        · simp only [update_of_ne hlk, hleft₂ l hl]
      · rcases Nat.lt_succ_iff_lt_or_eq.1 hl with hl | rfl
        · simp only [update_of_ne hl.ne, hrow₂ l hl]
        · simp only [update_self])
    ⟨hsize₁, hleft₁, fun l hl => absurd hl (not_lt_zero l)⟩
  refine ⟨d', by rw [initMatrix, hd₁]; exact hd', by omega, hleft', fun k l hl hk => ?_⟩
  obtain ⟨rfl, -⟩ : k = 0 ∧ l ≤ target.length := by omega
  rw [zero_mul, zero_add, hrow l (by omega), distanceAt_zero_left hl]

theorem matrix_fits {n m : ℕ} (hlt : m < n) (hlong : n < TYPICAL_LONGEST_WORD_IN_INDEX) :
    n * n + m < n * max TYPICAL_LONGEST_WORD_IN_INDEX m := by
  have hle : n + 1 ≤ max TYPICAL_LONGEST_WORD_IN_INDEX m := le_trans hlong (le_max_left _ _)
  have := mul_le_mul_left n hle
  rw [mul_add, mul_one] at this
  omega

theorem initMatrix_outside (h : d.size ≤ text.length * text.length) :
    initMatrix text target d = none := by
  have hcolumn : (range' 0 (text.length + 1)).foldlM
      (fun (d : DistanceMatrix) i => d.write (i * text.length) i) d = none := by
    rw [range'_1_concat, foldlM_append, bind_eq_bind, bind_eq_none_iff]
    intro d₁ hd₁
    have hsize : d₁.size = d.size := @foldlM_preserves _ _ _ (fun _ d' => d'.size = d.size)
      (fun k rest d' d'' hd' hwrite => by
        unfold DistanceMatrix.write at hwrite
        split_ifs at hwrite
        cases hwrite
        exact hd') _ d d₁ rfl hd₁
    rw [foldlM_cons, DistanceMatrix.write, if_neg (by rw [hsize, zero_add]; omega)]
    rfl
  rw [initMatrix, hcolumn]
  rfl

theorem Filled.fillCell (h : Filled text target (i + 1) j d) (hlt : target.length < text.length)
    (hi : i < text.length) (hj : j < target.length) : ∃ d',
      fillCell text target (i + 1) (d, best) (j + 1)
        = some (d', minOfTwo best (distanceAt text target (i + 1) (j + 1)))
      ∧ Filled text target (i + 1) (j + 1) d' := by
  have hcell : ∀ k l, k ≤ text.length → l ≤ target.length → k * text.length + l < d.size :=
    fun k l hk hl => cell_lt hk hl h.size
  have habove : d.read (i * text.length + (j + 1)) = some ↑(distanceAt text target i (j + 1)) := by
    rw [read_eq (hcell _ _ (by omega) (by omega)),
      h.filled i (j + 1) (by omega) (Or.inl (lt_succ_self i))]
  have hleft : d.read ((i + 1) * text.length + j) = some ↑(distanceAt text target (i + 1) j) := by
    rw [read_eq (hcell _ _ (by omega) (by omega)),
      h.filled (i + 1) j (by omega) (Or.inr ⟨rfl, le_refl j⟩)]
  have hdiagonal : d.read (i * text.length + (j + 1) - 1) = some ↑(distanceAt text target i j) := by
    rw [← Nat.add_assoc, Nat.add_sub_cancel, read_eq (hcell _ _ (by omega) (by omega)),
      h.filled i j (by omega) (Or.inl (lt_succ_self i))]
  have hvalue := leastEdits_eq text[i] target[j] (distanceAt text target i (j + 1))
    (distanceAt text target (i + 1) j) (distanceAt text target i j)
  rw [← distanceAt_succ hi hj] at hvalue
  have hsize := hcell (i + 1) (j + 1) (by omega) (by omega)
  refine ⟨⟨d.size, update d.cells ((i + 1) * text.length + (j + 1))
    (distanceAt text target (i + 1) (j + 1))⟩, ?_, h.size, fun k hk => ?_, fun k l hl hk => ?_⟩
  · rw [Fuzzy.fillCell]
    simp only [Nat.add_sub_cancel, getElem?_eq_getElem hi, getElem?_eq_getElem hj, habove,
      hleft, hdiagonal, hvalue, bind_eq_bind, bind_some]
    rw [write_eq hsize, bind_some, read_eq (by exact hsize), bind_some]
    simp only [update_self]
    rfl
  · have hne : k * text.length + 0 ≠ (i + 1) * text.length + (j + 1) :=
      fun hk => absurd ((cell_eq_iff (by omega) (by omega)).1 hk).2 (succ_ne_zero j).symm
    rw [← h.left k hk]
    exact update_of_ne hne _ _
  · by_cases hcell' : k = i + 1 ∧ l = j + 1
    · obtain ⟨rfl, rfl⟩ := hcell'
      exact update_self ..
    · rw [← h.filled k l hl (by omega)]
      exact update_of_ne (mt (cell_eq_iff (by omega) (by omega)).1 hcell') _ _

/-- The best possible distance of a row is greater than the maximum. -/
def RowBeyond (text target : NSString) (maxDistance : ℤ) (i : ℕ) : Prop :=
  maxDistance < target.length
    ∧ ∀ j, 1 ≤ j → j ≤ target.length → maxDistance < distanceAt text target i j

theorem Filled.fillRow (h : Filled text target i target.length d)
    (hlt : target.length < text.length) (hi : i < text.length) : ∃ d' best,
      fillRow text target (i + 1) d = some (d', best)
      ∧ Filled text target (i + 1) target.length d'
      ∧ ∀ maxDistance, maxDistance < best ↔ RowBeyond text target maxDistance (i + 1) := by
  have hstart : Filled text target (i + 1) 0 d := by
    refine ⟨h.size, h.left, fun k l hl hk => ?_⟩
    rcases hk with hk | ⟨rfl, hl0⟩
    · exact h.filled k l hl (by omega)
    · obtain rfl : l = 0 := by omega
      rw [add_zero, h.left _ hi, distanceAt_zero_right hi]
  obtain ⟨⟨d', best⟩, hd', hfilled, hbest⟩ := @foldlM_range'_succeeds (DistanceMatrix × ℤ)
    (Fuzzy.fillCell text target (i + 1))
    (fun j s => Filled text target (i + 1) (j - 1) s.1 ∧ ∀ x, x < s.2 ↔ x < target.length
      ∧ ∀ l, 1 ≤ l → l < j → x < distanceAt text target (i + 1) l) target.length 1
    (d, (target.length : ℤ))
    (fun k s hk hkm ⟨hs, hsbest⟩ => by
      obtain ⟨j, rfl⟩ := Nat.exists_eq_add_of_le' hk
      have hj : j < target.length := by omega
      obtain ⟨d', hd', hfilled'⟩ := @Filled.fillCell _ _ s.1 s.2 i j hs hlt hi hj
      refine ⟨_, hd', hfilled', fun x => ?_⟩
      rw [lt_minOfTwo_iff, hsbest, and_assoc]
      refine and_congr_right fun _ => ⟨fun ⟨hbefore, hlast⟩ l hl hlj => ?_, fun hall =>
        ⟨fun l hl hlj => hall l hl (by omega), hall (j + 1) hk (by omega)⟩⟩
      rcases Nat.lt_succ_iff_lt_or_eq.1 hlj with hlj | rfl
      · exact hbefore l hl hlj
      · exact hlast)
    ⟨hstart, fun x => (and_iff_left fun l hl hl1 => absurd hl (by omega)).symm⟩
  rw [Nat.add_sub_cancel_left] at hfilled
  refine ⟨d', best, hd', hfilled, fun x => (hbest x).trans (and_congr_right fun _ => ?_)⟩
  simp only [add_comm 1, Nat.lt_succ_iff]

theorem Filled.fillRows (hlt : target.length < text.length) : ∀ {rows i : ℕ} {d : DistanceMatrix},
    Filled text target i target.length d → i + rows = text.length →
      ∃ r, fillRows text target maxDistance rows (i + 1) d = some r
        ∧ (r = none ↔ ∃ k, i < k ∧ k ≤ text.length ∧ maxDistance < k
          ∧ RowBeyond text target maxDistance k)
        ∧ ∀ d', r = some d' → Filled text target text.length target.length d'
  | 0, i, d, h, hi => by
    obtain rfl : i = text.length := by omega
    refine ⟨some d, rfl, iff_of_false nofun ?_, fun d' hd' => ?_⟩
    · rintro ⟨k, hk, hle, -⟩
      omega
    · obtain rfl := some.inj hd'
      exact h
  | rows + 1, i, d, h, hi => by
    obtain ⟨d', best, hrow, hfilled, hbest⟩ := h.fillRow hlt (by omega)
    rw [Fuzzy.fillRows, hrow, bind_eq_bind, bind_some]
    by_cases hleave : maxDistance < ((i + 1 : ℕ) : ℤ) ∧ maxDistance < best
    · exact ⟨none, if_pos hleave, iff_of_true rfl
        ⟨i + 1, by omega, by omega, hleave.1, (hbest _).1 hleave.2⟩, nofun⟩
    · have hleft : i + 1 + rows = text.length := by omega
      obtain ⟨r, hr, hnone, hsome⟩ := hfilled.fillRows hlt hleft
      refine ⟨r, by rw [if_neg hleave, hr], hnone.trans ⟨?_, ?_⟩, hsome⟩
      · rintro ⟨k, hk, hbeyond⟩
        exact ⟨k, by omega, hbeyond⟩
      · rintro ⟨k, hk, hle, hbeyond⟩
        rcases eq_or_lt_of_le (succ_le_of_lt hk) with rfl | hk
        · exact absurd ⟨hbeyond.1, (hbest _).2 hbeyond.2⟩ hleave
        · exact ⟨k, hk, hle, hbeyond⟩

theorem RowBeyond.lt_levenshtein (h : RowBeyond text target maxDistance i) (hi : maxDistance < i)
    (hle : i ≤ text.length) : maxDistance < levenshtein text target := by
  obtain ⟨j, hj, hdistance⟩ := exists_distanceAt_le text target i
  rcases Nat.eq_zero_or_pos j with rfl | hpos
  · rw [distanceAt_zero_right hle] at hdistance
    omega
  · have := h.2 j hpos hj
    omega

end Matrix

namespace FuzzyQuery

variable {q : FuzzyQuery} {contents : ℕ → ℤ} {target : NSString}

def comparedLength (q : FuzzyQuery) (target : NSString) : ℕ :=
  q.prefixText.length + min q.text.length target.length

def value (q : FuzzyQuery) (target : NSString) : ℚ :=
  q.format.similarity (levenshtein q.text target) (q.comparedLength target)

def Similar (q : FuzzyQuery) (target : NSString) : Prop :=
  0 < q.comparedLength target ∧ q.minimumSimilarity < q.value target

/-- No access is outside of the matrix, and the result is the similarity where it exceeds the
minimum. -/
def ComputesSimilarity (q : FuzzyQuery) (contents : ℕ → ℤ) (target : NSString) : Prop :=
  ∃ score, q.similarity contents target = some score
    ∧ (q.Similar target → score = q.value target)
    ∧ (¬ q.Similar target → score ≤ q.minimumSimilarity)

def TooFarInLength (q : FuzzyQuery) (target : NSString) : Prop :=
  q.maxDistance target.length < |(target.length : ℤ) - q.text.length|

def CutOff (q : FuzzyQuery) (target : NSString) : Prop :=
  q.TooFarInLength target ∨ ∃ k, 0 < k ∧ k ≤ q.text.length ∧ q.maxDistance target.length < k
    ∧ RowBeyond q.text target (q.maxDistance target.length) k

/-- Where the rows of the matrix lie apart and inside, and no similar term is cut off. -/
def Computable (q : FuzzyQuery) (target : NSString) : Prop :=
  q.text = [] ∨ target = [] ∨
    (q.Similar target → ¬ q.CutOff target)
      ∧ (q.TooFarInLength target ∨ target.length < q.text.length
        ∧ q.text.length < TYPICAL_LONGEST_WORD_IN_INDEX)

@[simp] theorem maxDistance_eq (q : FuzzyQuery) (m : ℕ) :
    q.maxDistance m = q.calculateMaxDistance m := by
  rw [maxDistance, maxDistances, getElem?_map]
  rcases h : (range TYPICAL_LONGEST_WORD_IN_INDEX)[m]? with _ | k
  · rfl
  · obtain ⟨-, rfl⟩ := List.getElem?_eq_some_iff.1 h
    simp

theorem CutOff.lt_levenshtein (h : q.CutOff target) :
    q.maxDistance target.length < levenshtein q.text target := by
  rcases h with h | ⟨k, -, hk, hlt, hbeyond⟩
  · obtain ⟨h₁, h₂⟩ := length_le_levenshtein q.text target
    refine lt_of_lt_of_le h (abs_le.2 ⟨?_, ?_⟩) <;> omega
  · exact hbeyond.lt_levenshtein hlt hk

theorem computesSimilarity_of_value (h : q.similarity contents target = some (q.value target))
    (hlength : 0 < q.comparedLength target) : q.ComputesSimilarity contents target :=
  ⟨_, h, fun _ => rfl, fun hnot => not_lt.1 fun hlt => hnot ⟨hlength, hlt⟩⟩

theorem computesSimilarity_zero_iff (hs : 0 ≤ q.minimumSimilarity)
    (h : q.similarity contents target = some 0) :
    q.ComputesSimilarity contents target ↔ ¬ q.Similar target := by
  constructor
  · rintro ⟨score, hscore, hvalue, -⟩ hsimilar
    have hzero : score = 0 := some.inj (hscore.symm.trans h)
    have hlt := hsimilar.2
    rw [← hvalue hsimilar, hzero] at hlt
    exact absurd hs (not_le.2 hlt)
  · intro hnot
    exact ⟨0, h, fun hsimilar => absurd hsimilar hnot, fun _ => hs⟩

/-- Without anything to compare the distance is the length of the other text. -/
theorem computesSimilarity_of_empty (hs : 0 ≤ q.minimumSimilarity)
    (hempty : q.text = [] ∨ target = []) : q.ComputesSimilarity contents target := by
  have hsimilarity : q.similarity contents target = some (if q.prefixText.length = 0 then 0
      else q.value target) := by
    rw [similarity, value, comparedLength]
    rcases hempty with h | h
    · simp [h]
    · by_cases htext : q.text.length = 0 <;> simp [h, htext]
  have hcompared : q.comparedLength target = q.prefixText.length := by
    rcases hempty with h | h <;> simp [comparedLength, h]
  by_cases hprefix : q.prefixText.length = 0
  · rw [if_pos hprefix] at hsimilarity
    refine (computesSimilarity_zero_iff hs hsimilarity).2 fun hsimilar => ?_
    have := hsimilar.1
    omega
  · rw [if_neg hprefix] at hsimilarity
    exact computesSimilarity_of_value hsimilarity (by omega)

section Matrix

variable (htext : q.text ≠ []) (htarget : target ≠ [])

include htext htarget

theorem similarity_of_tooFar (h : q.TooFarInLength target) :
    q.similarity contents target = some 0 := by
  rw [similarity, if_neg (by simpa using htext), if_neg (by simpa using htarget),
    if_pos (by exact h)]

theorem similarity_of_matrix (h : ¬ q.TooFarInLength target) (hlt : target.length < q.text.length)
    (hlong : q.text.length < TYPICAL_LONGEST_WORD_IN_INDEX) : ∃ score,
      q.similarity contents target = some score
      ∧ (q.CutOff target → score = 0) ∧ (¬ q.CutOff target → score = q.value target) := by
  have hn : q.text.length ≠ 0 := by simpa using htext
  obtain ⟨d, hd, hinit⟩ := @initMatrix_filled q.text target
    ⟨q.text.length * max TYPICAL_LONGEST_WORD_IN_INDEX target.length, contents⟩ hlt
    (matrix_fits hlt hlong)
  obtain ⟨r, hr, hnone, hsome⟩ := @Filled.fillRows _ _ (q.maxDistance target.length) hlt _ _ _ hinit
    (zero_add _)
  have hcutOff : q.CutOff target ↔ r = none := by
    rw [hnone, CutOff, or_iff_right h]
  rw [similarity, if_neg hn, if_neg (by simpa using htarget), if_neg (by exact h), hd,
    bind_eq_bind, bind_some]
  rw [zero_add] at hr
  rcases r with _ | d'
  · exact ⟨0, by rw [hr]; rfl, fun _ => rfl, fun h => absurd (hcutOff.2 rfl) h⟩
  · have hread : d'.read (q.text.length * q.text.length + target.length)
        = some ↑(levenshtein q.text target) := by
      rw [read_eq (hsome d' rfl).size, (hsome d' rfl).filled _ _ (le_refl _)
        (Or.inr ⟨rfl, le_refl _⟩), distanceAt_length]
    refine ⟨q.value target, ?_, fun h => absurd (hcutOff.1 h) (some_ne_none d'),
      fun _ => rfl⟩
    rw [hr]
    simp only [bind_eq_bind, bind_some, hread]
    rfl

theorem similarity_of_long (h : ¬ q.TooFarInLength target) (hlt : target.length < q.text.length)
    (hlong : TYPICAL_LONGEST_WORD_IN_INDEX ≤ q.text.length) :
    q.similarity contents target = none := by
  have hn : q.text.length ≠ 0 := by simpa using htext
  rw [similarity, if_neg hn, if_neg (by simpa using htarget), if_neg (by exact h),
    initMatrix_outside (d := ⟨_, contents⟩)
      (mul_le_mul_left _ (max_le hlong hlt.le))]
  rfl

end Matrix

theorem Computable.computesSimilarity (hs : 0 ≤ q.minimumSimilarity) (h : q.Computable target) :
    q.ComputesSimilarity contents target := by
  rcases em (q.text = [] ∨ target = []) with hempty | hempty
  · exact computesSimilarity_of_empty hs hempty
  · rw [not_or] at hempty
    obtain ⟨htext, htarget⟩ := hempty
    obtain ⟨hcut, happly⟩ := (h.resolve_left htext).resolve_left htarget
    by_cases hfar : q.TooFarInLength target
    · refine (computesSimilarity_zero_iff hs (similarity_of_tooFar htext htarget hfar)).2 ?_
      exact fun hsimilar => hcut hsimilar (Or.inl hfar)
    · obtain ⟨hlt, hlong⟩ := happly.resolve_left hfar
      obtain ⟨score, hscore, hzero, hvalue⟩ :=
        @similarity_of_matrix q contents target htext htarget hfar hlt hlong
      by_cases hcutOff : q.CutOff target
      · rw [hzero hcutOff] at hscore
        exact (computesSimilarity_zero_iff hs hscore).2 fun hsimilar => hcut hsimilar hcutOff
      · rw [hvalue hcutOff] at hscore
        have hpositive : 0 < target.length := length_pos_iff.2 htarget
        exact computesSimilarity_of_value hscore (by rw [comparedLength]; omega)

/-- For texts that are shorter than that of the query the similarity is computed nowhere else. -/
theorem ComputesSimilarity.computable (hs : 0 ≤ q.minimumSimilarity)
    (hlt : target.length < q.text.length) (h : q.ComputesSimilarity contents target) :
    q.Computable target := by
  rcases em (q.text = [] ∨ target = []) with hempty | hempty
  · exact hempty.imp_right Or.inl
  · rw [not_or] at hempty
    obtain ⟨htext, htarget⟩ := hempty
    refine Or.inr (Or.inr ?_)
    by_cases hfar : q.TooFarInLength target
    · have hnot := (computesSimilarity_zero_iff hs (similarity_of_tooFar htext htarget hfar)).1 h
      exact ⟨fun hsimilar => absurd hsimilar hnot, Or.inl hfar⟩
    · by_cases hlong : q.text.length < TYPICAL_LONGEST_WORD_IN_INDEX
      · refine ⟨fun hsimilar hcutOff => ?_, Or.inr ⟨hlt, hlong⟩⟩
        obtain ⟨score, hscore, hzero, -⟩ :=
          @similarity_of_matrix q contents target htext htarget hfar hlt hlong
        rw [hzero hcutOff] at hscore
        exact (computesSimilarity_zero_iff hs hscore).1 h hsimilar
      · obtain ⟨score, hscore, -⟩ := h
        rw [similarity_of_long htext htarget hfar hlt (not_lt.1 hlong)] at hscore
        cases hscore

/-- Nothing similar is cut off where the least similarity and what is missing to the greatest are
kept as they are. -/
theorem not_cutOff_of_exact (hround : q.format.round q.minimumSimilarity = q.minimumSimilarity)
    (hexact : q.format.round (1 - q.minimumSimilarity) = 1 - q.minimumSimilarity)
    (hlength : q.comparedLength target ≤ 2 ^ 24) (hdistance : levenshtein q.text target ≤ 2 ^ 24)
    (h : q.Similar target) : ¬ q.CutOff target := by
  intro hcutOff
  have hlt := hcutOff.lt_levenshtein
  rw [maxDistance_eq, calculateMaxDistance, add_comm, hexact] at hlt
  have hrounded : q.format.round ((1 - q.minimumSimilarity) * q.comparedLength target)
      < q.format.round (levenshtein q.text target) := by
    rw [q.format.round_natCast _ hdistance]
    have hlength' : q.format.round ((q.prefixText.length + min q.text.length target.length : ℕ) : ℚ)
        = q.comparedLength target := q.format.round_natCast _ hlength
    rw [← hlength']
    exact lt_of_truncate_lt hlt
  have hdistance' : (1 - q.minimumSimilarity) * q.comparedLength target
      < levenshtein q.text target := q.format.round_mono.reflect_lt hrounded
  have hpositive : (0 : ℚ) < q.comparedLength target := cast_pos.2 h.1
  have hquotient := q.format.round_mono ((le_div_iff₀ hpositive).2 hdistance'.le)
  have hvalue : q.value target ≤ q.minimumSimilarity := by
    rw [← hround, value, FloatFormat.similarity, Int.cast_natCast,
      q.format.round_natCast _ hdistance, q.format.round_natCast _ hlength]
    refine q.format.round_mono ?_
    linarith
  exact absurd h.2 (not_lt.2 hvalue)

def Shares (q : FuzzyQuery) (t : Term) : Prop := q.field = t.field ∧ q.prefixText <+: t.text

instance : DecidablePred q.Shares := fun _ => inferInstanceAs (Decidable (_ ∧ _))

instance : DecidablePred q.Similar := fun _ => inferInstanceAs (Decidable (_ ∧ _))

theorem sharesPrefix_eq (t : Term) : q.sharesPrefix t = decide (q.Shares t) := by
  rw [Bool.eq_iff_iff, decide_eq_true_iff]
  by_cases hprefix : q.prefixText = []
  · simp [sharesPrefix, Shares, NSString.hasPrefix, hprefix]
  · simp [sharesPrefix, Shares, NSString.hasPrefix, hprefix]

/-- Where a term is compared right, the filter takes it for equal just if it is similar. -/
theorem decides_termFilter {contents : NSString → ℕ → ℤ} {l : List Term}
    (h : ∀ t ∈ l, q.Shares t → q.ComputesSimilarity (contents (t.text.drop q.prefixText.length))
      (t.text.drop q.prefixText.length)) :
    FilteredTermEnumerator.Decides (q.termFilter contents) (fun t => q.Shares t)
      (fun t => q.Similar (t.text.drop q.prefixText.length)) l := by
  intro t ht s hs
  by_cases hshares : q.Shares t
  · obtain ⟨score, hscore, hsimilar, hnot⟩ := h t ht hshares
    refine ⟨s, ?_, by simpa [hshares] using hs⟩
    have hequal : q.minimumSimilarity < score
        ↔ q.Similar (t.text.drop q.prefixText.length) := by
      constructor
      · exact fun hlt => by_contra fun hn => absurd hlt (not_lt.2 (hnot hn))
      · intro hs
        rw [hsimilar hs]
        exact hs.2
    simp [termFilter, sharesPrefix_eq, hshares, hscore, hequal]
  · exact ⟨true, by simp [termFilter, sharesPrefix_eq, hshares], by simp [termFilter, hshares]⟩

section Reader

variable {E : Type} [TermEnumerator E] [Collation]

/-- The terms with the prefix are all together, and none of them comes before it. -/
structure Together (q : FuzzyQuery) (terms : List Term) : Prop where
  le : ∀ t ∈ terms, q.Shares t → ⟨q.field, q.prefixText⟩ ≤ t
  between : ∀ t ∈ terms, ∀ u ∈ terms, ⟨q.field, q.prefixText⟩ ≤ t → t < u → q.Shares u → q.Shares t

def Yields (q : FuzzyQuery) (contents : NSString → ℕ → ℤ) (reader : DictionaryReader E) : Prop :=
  ∃ f, q.enumerator contents reader = some f
    ∧ Enumerates FilteredTermEnumerator.ShowsTerm f (reader.terms.filter fun t =>
      q.Shares t ∧ q.Similar (t.text.drop q.prefixText.length))

theorem Together.yields {contents : NSString → ℕ → ℤ} {reader : DictionaryReader E}
    (htogether : q.Together reader.terms)
    (h : ∀ t ∈ reader.terms, q.Shares t →
      q.ComputesSimilarity (contents (t.text.drop q.prefixText.length))
        (t.text.drop q.prefixText.length)) : q.Yields contents reader := by
  have hle : ∀ t ∈ reader.terms, decide (q.Shares t) = true →
      (⟨q.field, q.prefixText⟩ : Term) ≤ t :=
    fun t ht hshares => htogether.le t ht (of_decide_eq_true hshares)
  obtain ⟨f, hf, henum⟩ := reader.enumerates_filtered (decides_termFilter h) (s := false) rfl hle
    (fun t ht u hu hle hlt hshares => decide_eq_true
      (htogether.between t ht u hu hle hlt (of_decide_eq_true hshares)))
  refine ⟨f, hf, ?_⟩
  simpa using henum

end Reader

theorem prefix_of_between : ∀ {p t u : NSString}, ¬ t < p → ¬ u < t → p <+: u → p <+: t
  | [], t, _, _, _, _ => nil_prefix
  | c :: p, [], _, hpt, _, _ => absurd Lex.nil hpt
  | c :: p, a :: t, [], _, _, hp => by simp at hp
  | c :: p, a :: t, b :: u, hpt, htu, hp => by
    obtain ⟨rfl, hrest⟩ := cons_prefix_cons.1 hp
    rcases lt_trichotomy a c with hlt | rfl | hlt
    · exact absurd (Lex.rel hlt) hpt
    · exact cons_prefix_cons.2 ⟨rfl, prefix_of_between (fun h => hpt (Lex.cons h))
        (fun h => htu (Lex.cons h)) hrest⟩
    · exact absurd (Lex.rel hlt) htu

theorem together_units (q : FuzzyQuery) (terms : List Term) :
    @FuzzyQuery.Together Collation.units q terms := by
  let _ := Collation.units
  constructor
  · rintro t - ⟨hfield, hprefix⟩
    have hle : q.prefixText ≤ t.text := not_lt.1 (IsPrefix.le hprefix)
    exact @Term.le_of_text_le _ ⟨q.field, q.prefixText⟩ t hfield hle
  · rintro t - u - hle hlt ⟨hfield, hprefix⟩
    have hfield' : t.field = q.field :=
      @Term.field_eq_of_between _ ⟨q.field, q.prefixText⟩ t u hle hlt.le hfield.symm
    have hpt : q.prefixText ≤ t.text := @Term.text_le _ ⟨q.field, q.prefixText⟩ t hle hfield'.symm
    have htu : t.text ≤ u.text := Term.text_le hlt.le (hfield'.trans hfield)
    exact ⟨hfield'.symm, prefix_of_between hpt.not_gt htu.not_gt hprefix⟩

theorem minimumSimilarity_nonneg {format : FloatFormat} {searchTerm : Term} {s : ℚ}
    {prefixLength : ℤ} (h : fuzzyQuery format searchTerm s prefixLength = some q) :
    0 ≤ q.minimumSimilarity := by
  unfold fuzzyQuery at h
  split_ifs at h with hone hzero
  cases h
  exact not_lt.1 hzero

/-- A term is compared right where its rows fit in and it is not cut off, which a term shorter than
the text of the query has to be for it, and an enumerator whose terms are compared right shows
those that are similar. -/
theorem computesSimilarity_where_computable {format : FloatFormat} {searchTerm : Term} {s : ℚ}
    {prefixLength : ℤ} (hq : fuzzyQuery format searchTerm s prefixLength = some q) :
    (∀ contents target, q.Computable target → q.ComputesSimilarity contents target)
      ∧ (∀ contents target, target.length < q.text.length →
        q.ComputesSimilarity contents target → q.Computable target)
      ∧ ∀ (E : Type) [TermEnumerator E] [Collation] (contents : NSString → ℕ → ℤ)
        (reader : DictionaryReader E), q.Together reader.terms →
          (∀ t ∈ reader.terms, q.Shares t → q.Computable (t.text.drop q.prefixText.length)) →
            q.Yields contents reader := by
  have hs := minimumSimilarity_nonneg hq
  refine ⟨fun contents target h => h.computesSimilarity hs, fun contents target hlt h =>
    h.computable hs hlt, fun E _ _ contents reader htogether h => htogether.yields ?_⟩
  exact fun t ht hshares => (h t ht hshares).computesSimilarity hs

def exactly : FloatFormat where
  round x := x
  round_mono := monotone_id
  round_natCast _ _ := rfl

/-- The dictionary has the term `ab` only, which is similar to `abc`. -/
theorem computesSimilarity_where_computable_ab :
    ∃ q, fuzzyQuery exactly ⟨[102], [97, 98, 99]⟩ (1 / 4) 0 = some q
      ∧ q.Similar [97, 98] ∧ ∀ contents, q.ComputesSimilarity (contents [97, 98]) [97, 98]
        ∧ @Yields _ _ Collation.units q contents (@ListTermEnumerator.reader Collation.units
          [⟨[102], [97, 98]⟩] (pairwise_singleton _ _)) := by
  obtain ⟨q, hq, rfl⟩ : ∃ q, fuzzyQuery exactly ⟨[102], [97, 98, 99]⟩ (1 / 4) 0 = some q
      ∧ q = ⟨exactly, [102], [], [97, 98, 99], 1 / 4⟩ := by
    refine ⟨_, ?_, rfl⟩
    norm_num [fuzzyQuery]
  have hcomputable : Computable ⟨exactly, [102], [], [97, 98, 99], 1 / 4⟩ [97, 98] :=
    Or.inr (Or.inr ⟨not_cutOff_of_exact rfl rfl (by simp [comparedLength]) (by decide),
      Or.inr ⟨by simp, by simp [TYPICAL_LONGEST_WORD_IN_INDEX]⟩⟩)
  refine ⟨_, hq, by decide +kernel, fun contents =>
    ⟨(computesSimilarity_where_computable hq).1 _ _ hcomputable, ?_⟩⟩
  refine @(computesSimilarity_where_computable hq).2.2 _ _ Collation.units contents _
    (together_units _ _) fun t ht _ => ?_
  obtain rfl := mem_singleton.1 ht
  exact hcomputable

/-- Two edits make `bbab` of `abba`, but as the rows overlap three are counted. -/
theorem overlapping_rows_count_too_many :
    ∃ q, fuzzyQuery exactly ⟨[102], [97, 98, 98, 97]⟩ (1 / 4) 0 = some q
      ∧ q.value [98, 98, 97, 98] = 1 / 2
      ∧ q.similarity (fun _ => 0) [98, 98, 97, 98] = some (1 / 4)
      ∧ ¬ q.ComputesSimilarity (fun _ => 0) [98, 98, 97, 98] := by
  obtain ⟨q, hq, rfl⟩ : ∃ q, fuzzyQuery exactly ⟨[102], [97, 98, 98, 97]⟩ (1 / 4) 0 = some q
      ∧ q = ⟨exactly, [102], [], [97, 98, 98, 97], 1 / 4⟩ := by
    refine ⟨_, ?_, rfl⟩
    norm_num [fuzzyQuery]
  have hvalue : value ⟨exactly, [102], [], [97, 98, 98, 97], 1 / 4⟩ [98, 98, 97, 98] = 1 / 2 := by
    decide +kernel
  have hsimilarity : similarity ⟨exactly, [102], [], [97, 98, 98, 97], 1 / 4⟩ (fun _ => 0)
      [98, 98, 97, 98] = some (1 / 4) := by
    decide +kernel
  refine ⟨_, hq, hvalue, hsimilarity, ?_⟩
  rintro ⟨score, hscore, hsimilar, -⟩
  have hscore' := hsimilar ⟨by simp [comparedLength], by rw [hvalue]; norm_num⟩
  rw [hvalue] at hscore'
  rw [hsimilarity, hscore'] at hscore
  norm_num at hscore

end FuzzyQuery

end Fuzzy

end Etoile.Lucene
