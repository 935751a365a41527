import Etoile.LanguageKit.Comparisons
import Etoile.Lib.Fuel

/-!
# Counting loops

`to:by:do:` compares with `<=` whatever the sign of the step, so it runs a progression only
upwards.  Small integers are counted in a machine word, BigInts that fit in an `int`, others with
GMP.
-/

namespace Etoile.LanguageKit

open List Option

/-- Signed addition of `w` bits; overflow is undefined. -/
def addSigned (w : ℕ) (x y : ℤ) : Option ℤ := if Fits w (x + y) then some (x + y) else none

def countLoop {α : Type} (test : ℤ → Bool) (argument : ℤ → α) (next : ℤ → Option ℤ) (fuel : ℕ)
    (start : ℤ) : Option (List α) :=
  (whileLoop (fun s : ℤ × List α => test s.1)
    (fun s => (next s.1).map fun i => (i, s.2 ++ [argument s.1])) fuel (start, [])).map Prod.snd

/-- `for (;i<=max;i+=inc)` on integers of `w'` bits; the block gets a BigInt. -/
def countTo (w w' fuel : ℕ) (start max inc : ℤ) : Option (List ℤ) :=
  countLoop (fun i => i ≤ max) (bigIntWithLongLong w) (fun i => addSigned w' i inc) fuel start

/-- `-to:by:do:` of BigInts. -/
def bigIntToByDo (w fuel : ℕ) (v other incr : ℤ) : Option (List ℤ) :=
  if Fits 32 v ∧ Fits 32 other ∧ Fits 32 incr then countTo w 32 fuel v other incr
  else countLoop (fun i => mpzCmp i other ≤ 0) id (fun i => some (i + incr)) fuel v

/-- `SmallIntMsgto_by_do_`. -/
def smallIntToByDo (w fuel : ℕ) (obj : ℤ) (maximum increment : Word) : Option (List ℤ) :=
  match maximum, increment with
  | .int max, .int inc =>
    if max % 2 = 0 ∨ inc % 2 = 0 then none else countTo w w fuel (obj / 2) (max / 2) (inc / 2)
  | maximum, increment =>
    (boxObject w maximum).bind fun other => (boxObject w increment).bind fun incr =>
      bigIntToByDo w fuel (bigIntWithLongLong w (obj / 2)) other incr

/-- `to:by:do:` sent to an integer: the values that the block is evaluated for. -/
def sendToByDo (w fuel : ℕ) (receiver maximum increment : Word) : Option (List ℤ) :=
  match receiver with
  | .int obj => if obj % 2 = 0 then none else smallIntToByDo w fuel obj maximum increment
  | .object value false =>
    (boxObject w maximum).bind fun other => (boxObject w increment).bind fun incr =>
      bigIntToByDo w fuel value other incr
  | .object _ true => none

/-- `for (i=0 ; i<max ; i++)` on integers of `w` bits; the block is evaluated without argument. -/
def repeatTo (w fuel : ℕ) (max : ℤ) : Option (List Unit) :=
  countLoop (fun i => i < max) (fun _ => ()) (fun i => addSigned w i 1) fuel 0

/-- `timesRepeat:` sent to an integer; GMP counts down to zero. -/
def sendTimesRepeat (w fuel : ℕ) (receiver : Word) : Option (List Unit) :=
  match receiver with
  | .int obj => if obj % 2 = 0 then none else repeatTo w fuel (obj / 2)
  | .object v false =>
    if Fits 32 v then repeatTo 32 fuel v
    else countLoop (fun i => 0 < i.sign) (fun _ => ()) (fun i => some (i - 1)) fuel v
  | .object _ true => none

/-- How many values from `start` on do not pass `limit` in the direction of the step. -/
def progressionCount (start limit step : ℤ) : ℕ :=
  if 0 < step then ((limit - start) / step + 1).toNat else ((start - limit) / -step + 1).toNat

def progression (start limit step : ℤ) : List ℤ :=
  (range (progressionCount start limit step)).map fun k : ℕ => start + k * step

theorem progressionCount_pos {start limit step : ℤ} (hstep : 0 < step) :
    (∀ k : ℕ, start + k * step ≤ limit ↔ k < progressionCount start limit step) := by
  intro k
  unfold progressionCount
  rw [if_pos hstep]
  have hdiv : (k : ℤ) ≤ (limit - start) / step ↔ k * step ≤ limit - start :=
    Int.le_ediv_iff_mul_le hstep
  omega

theorem progressionCount_cast {start limit step : ℤ} (hstep : 0 < step) (h : start ≤ limit) :
    (progressionCount start limit step : ℤ) = (limit - start) / step + 1 := by
  have hdiv : 0 ≤ (limit - start) / step := Int.ediv_nonneg (by omega) (by omega)
  unfold progressionCount
  rw [if_pos hstep]
  omega

theorem progressionCount_neg {start limit step : ℤ} (hstep : step < 0) :
    (∀ k : ℕ, limit ≤ start + k * step ↔ k < progressionCount start limit step) := by
  intro k
  unfold progressionCount
  rw [if_neg hstep.not_gt]
  have hdiv : (k : ℤ) ≤ (start - limit) / -step ↔ k * -step ≤ start - limit :=
    Int.le_ediv_iff_mul_le (by omega)
  rw [mul_neg] at hdiv
  omega

section Loops

variable {α : Type} {test : ℤ → Bool} {argument : ℤ → α} {next : ℤ → Option ℤ} {start step : ℤ}

theorem settles_countLoop (n : ℕ) (htest : ∀ k < n, test (start + (k : ℕ) * step) = true)
    (hnext : ∀ k < n, next (start + (k : ℕ) * step) = some (start + (k + 1 : ℕ) * step))
    (hend : test (start + n * step) = false) :
    Settles (fun fuel => countLoop test argument next fuel start)
      ((range n).map fun k : ℕ => argument (start + k * step)) := by
  have hloop := @settles_whileLoop (ℤ × List α) (fun s => test s.1)
    (fun s => (next s.1).map fun i => (i, s.2 ++ [argument s.1]))
    (fun s => ∃ k ≤ n, s = (start + k * step,
      (range k).map fun k : ℕ => argument (start + k * step)))
    (start, []) (fun s => n - s.2.length) ?_ ⟨0, Nat.zero_le n, by simp⟩
  · obtain ⟨s, hsettles, ⟨k, hk, rfl⟩, hleft⟩ := hloop
    obtain rfl : k = n := by
      by_contra hne
      rw [htest k (by omega)] at hleft
      cases hleft
    exact hsettles.map Prod.snd
  · rintro s ⟨k, hk, rfl⟩ hgo
    have hlt : k < n := by
      rcases hk.lt_or_eq with hlt | rfl
      · exact hlt
      · rw [hend] at hgo
        cases hgo
    refine ⟨_, by rw [hnext k hlt]; rfl, ⟨k + 1, hlt, ?_⟩, ?_⟩
    · rw [range_succ, map_append]
      rfl
    · simp only [length_append, length_map, length_range, length_singleton]
      omega

theorem countLoop_eq_none {I : ℤ → Prop} (htest : ∀ i, I i → test i = true)
    (hnext : ∀ i j, I i → next i = some j → I j) (hstart : I start) (fuel : ℕ) :
    countLoop test argument next fuel start = none := by
  unfold countLoop
  have hloop := @whileLoop_eq_none (ℤ × List α) (fun s => test s.1)
    (fun s => (next s.1).map fun i => (i, s.2 ++ [argument s.1])) (fun s => I s.1)
    (fun s hs => htest s.1 hs) ?_ fuel (start, []) hstart
  · rw [hloop]
    rfl
  · intro s s' hs hbody
    rw [map_eq_some_iff] at hbody
    obtain ⟨j, hj, rfl⟩ := hbody
    exact hnext s.1 j hs hj

theorem countLoop_of_not_test (h : test start = false) {fuel : ℕ} {l : List α}
    (hl : countLoop test argument next fuel start = some l) : l = [] := by
  rcases fuel with _ | fuel
  · simp [countLoop, whileLoop] at hl
  · simpa [countLoop, whileLoop, h] using hl.symm

end Loops

/-- The loops of `to:by:do:` run a progression just where it goes upwards and each of its values
has a next one. -/
theorem settles_progression_iff {test : ℤ → Bool} {argument : ℤ → ℤ} {next : ℤ → Option ℤ}
    {start limit step : ℤ} (htest : ∀ i, test i = true ↔ i ≤ limit)
    (hnext : ∀ i j, next i = some j → j = i + step) (hstep : step ≠ 0)
    (hargument : 0 < step → ∀ k < progressionCount start limit step,
      argument (start + (k : ℕ) * step) = start + k * step) :
    Settles (fun fuel => countLoop test argument next fuel start) (progression start limit step)
      ↔ 0 < step ∧ ∀ k < progressionCount start limit step,
        (next (start + (k : ℕ) * step)).isSome := by
  constructor
  · intro h
    obtain ⟨fuel, hloop⟩ := h.exists_eq
    have hpos : 0 < step := by
      by_contra hneg
      have hneg : step < 0 := by omega
      by_cases hstart : start ≤ limit
      · -- it counts down for ever
        rw [countLoop_eq_none (fun i => (htest i).2)
          (fun i j hi hij => by have hj := hnext i j hij; omega) hstart] at hloop
        cases hloop
      · have htest' : test start = false := by
          rw [← Bool.not_eq_true, htest]
          exact hstart
        have hnil := countLoop_of_not_test htest' hloop
        have hcount := (@progressionCount_neg start limit step hneg 0).1 (by simp; omega)
        rw [progression, map_eq_nil_iff, range_eq_nil] at hnil
        omega
    refine ⟨hpos, fun k hk => ?_⟩
    by_contra hnone
    rw [countLoop_eq_none (I := fun i => ∃ m ≤ k, i = start + (m : ℕ) * step) ?_ ?_
      ⟨0, Nat.zero_le k, by simp⟩] at hloop
    · cases hloop
    · rintro i ⟨m, hm, rfl⟩
      rw [htest, progressionCount_pos hpos]
      omega
    · rintro i j ⟨m, hm, rfl⟩ hij
      have hlt : m < k := by
        rcases hm.lt_or_eq with hlt | rfl
        · exact hlt
        · rw [hij] at hnone
          exact absurd rfl hnone
      refine ⟨m + 1, hlt, ?_⟩
      rw [hnext _ _ hij]
      push_cast
      ring
  · rintro ⟨hpos, hsome⟩
    have hvalues : progression start limit step
        = (range (progressionCount start limit step)).map
          fun k : ℕ => argument (start + k * step) :=
      map_congr_left fun k hk => (hargument hpos k (mem_range.1 hk)).symm
    rw [hvalues]
    refine settles_countLoop _ (fun k hk => ?_) (fun k hk => ?_) ?_
    · rw [htest, progressionCount_pos hpos]
      exact hk
    · obtain ⟨j, hj⟩ := isSome_iff_exists.1 (hsome k hk)
      rw [hj, hnext _ _ hj]
      push_cast
      congr 1
      ring
    · rw [← Bool.not_eq_true, htest, progressionCount_pos hpos]
      omega

section Width

variable {w : ℕ} (hw : w = 32 ∨ w = 64) {start limit step : ℤ}
include hw

theorem fits_of_fits_int {x : ℤ} (h : Fits 32 x) : Fits w x := by
  unfold Fits at h ⊢
  rcases hw with rfl | rfl
  · exact h
  · norm_num at h ⊢
    omega

omit hw in
theorem addSigned_eq {w' : ℕ} {x y j : ℤ} (h : addSigned w' x y = some j) : j = x + y := by
  unfold addSigned at h
  split_ifs at h
  exact (some.inj h).symm

omit hw in
theorem addSigned_isSome {w' : ℕ} {x y : ℤ} : (addSigned w' x y).isSome ↔ Fits w' (x + y) := by
  unfold addSigned
  split_ifs with h <;> simp [h]

omit hw in
theorem progression_fits (hstart : Fits w start) (hlimit : Fits w limit) (hpos : 0 < step) {k : ℕ}
    (hk : k < progressionCount start limit step) : Fits w (start + k * step) := by
  have hle := (progressionCount_pos hpos k).2 hk
  have hmul : 0 ≤ (k : ℤ) * step := by positivity
  unfold Fits at *
  omega

theorem settles_countTo_iff {w' : ℕ} (hstart : Fits w start) (hlimit : Fits w limit)
    (hstep : step ≠ 0) :
    Settles (fun fuel => countTo w w' fuel start limit step) (progression start limit step)
      ↔ 0 < step ∧ ∀ k < progressionCount start limit step,
        Fits w' (start + (k : ℕ) * step + step) := by
  have hiff := @settles_progression_iff (fun i => i ≤ limit) (bigIntWithLongLong w)
    (fun i => addSigned w' i step) start limit step (by simp) (fun _ _ => addSigned_eq) hstep
    fun hpos k hk => bigIntWithLongLong_eq hw (progression_fits hstart hlimit hpos hk)
  simp only [addSigned_isSome] at hiff
  exact hiff

theorem settles_tagged_iff (hstart : Fits w (2 * start + 1)) (hlimit : Fits w (2 * limit + 1))
    (hstep' : Fits w (2 * step + 1)) (hstep : step ≠ 0) :
    Settles (fun fuel => countTo w w fuel start limit step) (progression start limit step)
      ↔ 0 < step := by
  rw [settles_countTo_iff hw (fits_of_tagged hw hstart).1 (fits_of_tagged hw hlimit).1 hstep,
    and_iff_left_iff_imp]
  intro hpos k hk
  have hle := (progressionCount_pos hpos k).2 hk
  have hmul : 0 ≤ (k : ℤ) * step := by positivity
  have hstart := tagged_bounds hw hstart
  have hlimit := tagged_bounds hw hlimit
  have hstep := tagged_bounds hw hstep'
  have hdouble : (2 : ℤ) ^ (w - 1) = 2 * 2 ^ (w - 2) := by
    rcases hw with rfl | rfl <;> norm_num
  unfold Fits
  rw [hdouble]
  omega

/-- On integers of `int` the value behind the last one has to be there. -/
theorem settles_int_iff (hstart : Fits 32 start) (hlimit : Fits 32 limit) (hstep : step ≠ 0) :
    Settles (fun fuel => countTo w 32 fuel start limit step) (progression start limit step)
      ↔ 0 < step ∧ (start ≤ limit → start + ((limit - start) / step + 1) * step < 2 ^ 31) := by
  rw [settles_countTo_iff hw (fits_of_fits_int hw hstart) (fits_of_fits_int hw hlimit) hstep]
  refine and_congr_right fun hpos => ?_
  constructor
  · intro h hle
    have hpositive := (progressionCount_pos hpos 0).1 (by simpa using hle)
    have hlast := (h (progressionCount start limit step - 1) (by omega)).2
    have hcast : ((progressionCount start limit step - 1 : ℕ) : ℤ)
        = (limit - start) / step := by
      have hcount := progressionCount_cast hpos hle
      omega
    rw [hcast] at hlast
    have hsum : start + (limit - start) / step * step + step
        = start + ((limit - start) / step + 1) * step := by ring
    rw [hsum] at hlast
    exact hlast
  · intro h k hk
    have hmul : 0 ≤ (k : ℤ) * step := by positivity
    have hle : start ≤ limit := by
      have hvalue := (progressionCount_pos hpos k).2 hk
      omega
    have hlast := h hle
    rw [← progressionCount_cast hpos hle] at hlast
    have hcount : ((k : ℤ) + 1) * step ≤ progressionCount start limit step * step :=
      mul_le_mul_of_nonneg_right (by omega) hpos.le
    have hsum : start + (k : ℤ) * step + step = start + (k + 1) * step := by ring
    rw [add_mul, one_mul] at hcount
    unfold Fits at hstart ⊢
    omega

/-- The loop of the BigInts on integers of `int`. -/
def IntLoop (receiver maximum increment : Word) (start limit step : ℤ) : Prop :=
  ¬(receiver.IsInt ∧ maximum.IsInt ∧ increment.IsInt)
    ∧ Fits 32 start ∧ Fits 32 limit ∧ Fits 32 step

/-- The last value of `int` has a next one. -/
def NextFits (start limit step : ℤ) : Prop :=
  start ≤ limit → start + ((limit - start) / step + 1) * step < 2 ^ 31

theorem settles_bigInt_iff (hstep : step ≠ 0) :
    Settles (fun fuel => bigIntToByDo w fuel start limit step) (progression start limit step)
      ↔ 0 < step ∧ (Fits 32 start ∧ Fits 32 limit ∧ Fits 32 step → NextFits start limit step) := by
  unfold bigIntToByDo
  split_ifs with hint
  · rw [settles_int_iff hw hint.1 hint.2.1 hstep]
    simp only [hint, and_self, true_implies, NextFits]
  · have htest : ∀ i, decide (mpzCmp i limit ≤ 0) = true ↔ i ≤ limit := by
      intro i
      have hle := bigIntCompare_eq .isLessThanOrEqualTo i limit
      rw [← decide_eq_true_iff (p := i ≤ limit)]
      exact Bool.eq_iff_iff.1 hle
    rw [settles_progression_iff htest (fun _ _ h => (some.inj h).symm) hstep
      fun _ _ _ => rfl]
    simp [hint]

theorem sendToByDo_of_not_int {receiver maximum increment : Word} (hstart : receiver.Denotes w start)
    (hlimit : maximum.Denotes w limit) (hincrement : increment.Denotes w step)
    (h : ¬(receiver.IsInt ∧ maximum.IsInt ∧ increment.IsInt)) (fuel : ℕ) :
    sendToByDo w fuel receiver maximum increment = bigIntToByDo w fuel start limit step := by
  have hlimit' := boxObject_of_denotes hw hlimit
  have hincrement' := boxObject_of_denotes hw hincrement
  cases receiver with
  | object value low =>
    obtain ⟨rfl, rfl⟩ := hstart
    simp [sendToByDo, hlimit', hincrement']
  | int obj =>
    obtain ⟨rfl, hfits⟩ := hstart
    have hodd : (2 * start + 1) % 2 = 1 := by omega
    have hshift : (2 * start + 1) / 2 = start := by omega
    have hbox := bigIntWithLongLong_eq hw (fits_of_tagged hw hfits).1
    rcases maximum with max | value <;> rcases increment with inc | value'
    · exact (h ⟨trivial, trivial, trivial⟩).elim
    all_goals simp [sendToByDo, smallIntToByDo, hodd, hshift, hbox, hlimit', hincrement']

theorem settles_toByDo_iff {receiver maximum increment : Word} (hstart : receiver.Denotes w start)
    (hlimit : maximum.Denotes w limit) (hincrement : increment.Denotes w step)
    (hstep : step ≠ 0) :
    Settles (fun fuel => sendToByDo w fuel receiver maximum increment)
        (progression start limit step)
      ↔ 0 < step
        ∧ (IntLoop receiver maximum increment start limit step → NextFits start limit step) := by
  by_cases hint : receiver.IsInt ∧ maximum.IsInt ∧ increment.IsInt
  · have hnot : ¬IntLoop receiver maximum increment start limit step := fun h => h.1 hint
    rw [and_iff_left fun h => (hnot h).elim]
    rcases receiver with obj | value
    · rcases maximum with max | value
      · rcases increment with inc | value
        · obtain ⟨rfl, hstart⟩ := hstart
          obtain ⟨rfl, hlimit⟩ := hlimit
          obtain ⟨rfl, hincrement⟩ := hincrement
          have hodd : ∀ n : ℤ, (2 * n + 1) % 2 = 1 := by omega
          have hshift : ∀ n : ℤ, (2 * n + 1) / 2 = n := by omega
          have hiff := settles_tagged_iff hw hstart hlimit hincrement hstep
          simpa [sendToByDo, smallIntToByDo, hodd, hshift] using hiff
        · exact hint.2.2.elim
      · exact hint.2.1.elim
    · exact hint.1.elim
  · simp only [sendToByDo_of_not_int hw hstart hlimit hincrement hint]
    rw [settles_bigInt_iff hw hstep]
    simp only [IntLoop, hint, not_false_eq_true, true_and]

omit hw in
theorem settles_repeatTo {w' : ℕ} {n : ℤ} (h : Fits w' n) :
    Settles (fun fuel => repeatTo w' fuel n) (replicate n.toNat ()) := by
  have hloop := @settles_countLoop Unit (fun i => i < n) (fun _ => ()) (fun i => addSigned w' i 1)
    0 1 n.toNat ?_ ?_ ?_
  · rw [map_const', length_range] at hloop
    exact hloop
  · intro k hk
    simp only [decide_eq_true_eq]
    omega
  · intro k hk
    unfold Fits at h
    have hpow : (0 : ℤ) ≤ 2 ^ (w' - 1) := by positivity
    have hfits : Fits w' (0 + (k : ℤ) * 1 + 1) := by
      unfold Fits
      omega
    unfold addSigned
    rw [if_pos hfits]
    push_cast
    simp
  · simp only [decide_eq_false_iff_not]
    omega

theorem settles_timesRepeat {receiver : Word} {n : ℤ} (h : receiver.Denotes w n) :
    Settles (fun fuel => sendTimesRepeat w fuel receiver) (replicate n.toNat ()) := by
  cases receiver with
  | int obj =>
    obtain ⟨rfl, hfits⟩ := h
    have hodd : (2 * n + 1) % 2 = 1 := by omega
    have hshift : (2 * n + 1) / 2 = n := by omega
    simpa [sendTimesRepeat, hodd, hshift] using settles_repeatTo (fits_of_tagged hw hfits).1
  | object value low =>
    obtain ⟨rfl, rfl⟩ := h
    unfold sendTimesRepeat
    simp only
    split_ifs with hint
    · exact settles_repeatTo hint
    · have hloop := @settles_countLoop Unit (fun i => 0 < i.sign) (fun _ => ())
        (fun i => some (i - 1)) value (-1) value.toNat ?_ ?_ ?_
      · simpa [map_const'] using hloop
      · intro k hk
        simp only [decide_eq_true_eq, Int.sign_pos_iff]
        omega
      · intro k hk
        push_cast
        congr 1
        ring
      · simp only [decide_eq_false_iff_not, Int.sign_pos_iff]
        omega

/-- `to:by:do:` runs the progression, and `timesRepeat:` as often as it should, just where the step
is positive and, of integers of `int` that are not all small, the last has a next one. -/
theorem countingLoops_iff {receiver maximum increment times : Word} {n : ℤ}
    (hstart : receiver.Denotes w start) (hlimit : maximum.Denotes w limit)
    (hincrement : increment.Denotes w step) (hstep : step ≠ 0) (htimes : times.Denotes w n) :
    Settles (fun fuel => sendToByDo w fuel receiver maximum increment)
          (progression start limit step)
        ∧ Settles (fun fuel => sendTimesRepeat w fuel times) (replicate n.toNat ())
      ↔ 0 < step
        ∧ (IntLoop receiver maximum increment start limit step → NextFits start limit step) :=
  (and_iff_left (settles_timesRepeat hw htimes)).trans
    (settles_toByDo_iff hw hstart hlimit hincrement hstep)

end Width

/-- `1 to: 7 by: 2` of small integers, and `timesRepeat:` of a BigInt. -/
theorem countingLoops_seven :
    Settles (fun fuel => sendToByDo 64 fuel (.int 3) (.int 15) (.int 5)) (progression 1 7 2)
      ∧ Settles (fun fuel => sendTimesRepeat 64 fuel (.object 3 false)) (replicate 3 ()) := by
  have hone : (Word.int 3).Denotes 64 1 := ⟨rfl, by decide⟩
  have hseven : (Word.int 15).Denotes 64 7 := ⟨rfl, by decide⟩
  have htwo : (Word.int 5).Denotes 64 2 := ⟨rfl, by decide⟩
  have hthree : (Word.object 3 false).Denotes 64 3 := ⟨rfl, rfl⟩
  exact (countingLoops_iff (Or.inr rfl) hone hseven htwo (by norm_num) hthree).2
    ⟨by norm_num, fun h => (h.1 ⟨trivial, trivial, trivial⟩).elim⟩

/-- `3 to: 1 by: -1` evaluates the block for nothing. -/
theorem not_countingLoops_down :
    (Word.int 7).Denotes 64 3 ∧ (Word.int 3).Denotes 64 1 ∧ (Word.int (-1)).Denotes 64 (-1)
      ∧ progression 3 1 (-1) = [3, 2, 1]
      ∧ (∀ fuel, sendToByDo 64 (fuel + 1) (.int 7) (.int 3) (.int (-1)) = some [])
      ∧ ¬Settles (fun fuel => sendToByDo 64 fuel (.int 7) (.int 3) (.int (-1)))
        (progression 3 1 (-1)) := by
  have hvalues : progression 3 1 (-1) = [3, 2, 1] := by decide
  have hnone : ∀ fuel, sendToByDo 64 (fuel + 1) (.int 7) (.int 3) (.int (-1)) = some [] :=
    fun _ => rfl
  refine ⟨⟨rfl, by decide⟩, ⟨rfl, by decide⟩, ⟨rfl, by decide⟩, hvalues, hnone, fun h => ?_⟩
  obtain ⟨fuel, heq⟩ := h.exists_eq
  rcases fuel with _ | fuel
  · cases heq
  · rw [hnone, hvalues] at heq
    cases heq

end Etoile.LanguageKit
