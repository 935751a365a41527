import Etoile.Lib.Runs
import Mathlib.Data.Int.Notation
import Mathlib.Data.Nat.Notation
import Mathlib.Tactic.ByContra
import Mathlib.Tactic.SplitIfs

/-!
# Histories

A history keeps the objects that have been visited and those that come next in one array, with an
index, and draws more of the latter from an enumerator.  An operation that raises has no result.
-/

namespace Etoile.EtoileFoundation

/-- What `-[NSMutableArray removeObjectsInRange:]` does about a range that goes beyond the end. -/
inductive Beyond
  | raises
  | clamps
  deriving DecidableEq

def removeObjectsInRange {α : Type} (beyond : Beyond) (a : List α) (location length : ℕ) :
    Option (List α) :=
  if location + length ≤ a.length ∨ beyond = .clamps then
    some (a.take location ++ a.drop (location + length))
  else none

def objectAtIndex {α : Type} (a : List α) (index : ℤ) : Option α :=
  if 0 ≤ index then a[index.toNat]? else none

structure ETHistory (α : Type) where
  history : List α := []
  future : Option (List α) := none
  max_size : ℤ := 0
  index : ℤ := -1

inductive Operation (α : Type)
  | addObject (object : α)
  | currentObject
  | back
  | previousObject
  | hasPrevious
  | forward
  | nextObject
  | hasNext
  | peek (relativeIndex : ℤ)
  | clear
  | setFuture (enumerator : Option (List α))
  | setMaxHistorySize (maxSize : ℤ)
  | maxHistorySize
  | isEmpty
  | contentArray

inductive Answer (α : Type)
  | void
  | object (o : Option α)
  | bool (b : Bool)
  | int (i : ℤ)
  | array (a : List α)

namespace ETHistory

variable {α : Type} (beyond : Beyond) (h : ETHistory α)

/-- `INCREMENT_HISTORY_INDEX`. -/
def incrementHistoryIndex : Option (ETHistory α) :=
  if h.max_size < 1 ∨ h.index < h.max_size then some { h with index := h.index + 1 }
  else
    match h.history with
    | [] => none
    | _ :: history => some { h with history }

def setFuture (enumerator : Option (List α)) : Option (ETHistory α) :=
  (removeObjectsInRange beyond h.history (h.index + 1).toNat h.history.length).map fun history =>
    { h with history, future := enumerator }

def addObject (object : α) : Option (ETHistory α) :=
  (h.setFuture beyond none).bind fun h =>
    h.incrementHistoryIndex.map fun h => { h with history := h.history ++ [object] }

def currentObject : Option (Option α) :=
  if h.index < 0 then some none else (objectAtIndex h.history h.index).map some

def back : ETHistory α := if 0 < h.index then { h with index := h.index - 1 } else h

def previousObject : Option (ETHistory α × Option α) :=
  if 0 < h.index then
    (objectAtIndex h.history (h.index - 1)).map fun o =>
      ({ h with index := h.index - 1 }, some o)
  else some (h, none)

def hasPrevious : Bool := 0 < h.index

/-- What the enumerator gives is added; if it gives nothing it is let go. -/
def draw : ETHistory α × Bool :=
  match h.future with
  | some (object :: future) =>
    ({ h with history := h.history ++ [object], future := some future }, true)
  | some [] | none => ({ h with future := none }, false)

def hasNext : ETHistory α × Bool :=
  if h.index < h.history.length - 1 then (h, true) else h.draw

def forward : Option (ETHistory α) :=
  match h.hasNext with
  | (h, true) => h.incrementHistoryIndex
  | (h, false) => some h

def nextObject : Option (ETHistory α × Option α) :=
  match h.hasNext with
  | (h, true) => h.incrementHistoryIndex.bind fun h =>
    (objectAtIndex h.history h.index).map fun o => (h, some o)
  | (h, false) => some (h, none)

/-- The loop of `-peek:`. -/
def drawObjects : ℕ → ETHistory α → ETHistory α × Bool
  | 0, h => (h, true)
  | n + 1, h =>
    match h.draw with
    | (h, true) => drawObjects n h
    | (h, false) => (h, false)

def peek (relativeIndex : ℤ) : Option (ETHistory α × Option α) :=
  let peekIndex := h.index + relativeIndex
  if peekIndex < 0 then some (h, none)
  else
    match drawObjects (peekIndex - h.history.length + 1).toNat h with
    | (h, true) => (objectAtIndex h.history peekIndex).map fun o => (h, some o)
    | (h, false) => some (h, none)

def clear : ETHistory α := { h with history := [], future := none, index := -1 }

def setMaxHistorySize (maxSize : ℤ) : Option (ETHistory α) :=
  let h := { h with max_size := maxSize }
  if 0 < maxSize ∧ maxSize < h.index then
    (removeObjectsInRange beyond h.history 0 (h.index - maxSize).toNat).map fun history =>
      { h with history, index := maxSize }
  else some h

def perform : Operation α → Option (ETHistory α × Answer α)
  | .addObject object => (h.addObject beyond object).map fun h => (h, .void)
  | .currentObject => h.currentObject.map fun o => (h, .object o)
  | .back => some (h.back, .void)
  | .previousObject => h.previousObject.map fun r => (r.1, .object r.2)
  | .hasPrevious => some (h, .bool h.hasPrevious)
  | .forward => h.forward.map fun h => (h, .void)
  | .nextObject => h.nextObject.map fun r => (r.1, .object r.2)
  | .hasNext => some (h.hasNext.1, .bool h.hasNext.2)
  | .peek relativeIndex => (h.peek relativeIndex).map fun r => (r.1, .object r.2)
  | .clear => some (h.clear, .void)
  | .setFuture enumerator => (h.setFuture beyond enumerator).map fun h => (h, .void)
  | .setMaxHistorySize maxSize => (h.setMaxHistorySize beyond maxSize).map fun h => (h, .void)
  | .maxHistorySize => some (h, .int h.max_size)
  | .isEmpty => some (h, .bool h.history.isEmpty)
  | .contentArray => some (h, .array h.history)

def run : ETHistory α → List (Operation α) → Option (ETHistory α × List (Answer α))
  | h, [] => some (h, [])
  | h, op :: ops => (h.perform beyond op).bind fun r =>
    (run r.1 ops).map fun r' => (r'.1, r.2 :: r'.2)

end ETHistory

end Etoile.EtoileFoundation

/-!
## A history as a zipper

What a browser's history is for: the objects that have been visited, of which only so many are kept,
and those ahead, some of which may not have been drawn from their source.
-/

namespace Etoile.EtoileFoundation

open List Option

/-- The current object and those before it, those ahead, and those not drawn, each the nearest
first; at most `bound` objects are kept before the current one, if it is positive. -/
structure Zipper (α : Type) where
  visited : List α := []
  ahead : List α := []
  rest : List α := []
  bound : ℤ := 0

namespace Zipper

variable {α : Type} (z : Zipper α)

def trim : Zipper α :=
  if z.bound < 1 then z else { z with visited := z.visited.take (z.bound.toNat + 1) }

def add (object : α) : Zipper α :=
  { z with visited := object :: z.visited, ahead := [], rest := [] }.trim

def back : Zipper α :=
  match z.visited with
  | object :: object' :: visited =>
    { z with visited := object' :: visited, ahead := object :: z.ahead }
  | [_] | [] => z

/-- At least `n` objects ahead are drawn, if there are so many. -/
def look (n : ℕ) : Zipper α :=
  { z with
    ahead := z.ahead ++ z.rest.take (n - z.ahead.length)
    rest := z.rest.drop (n - z.ahead.length) }

def forward : Zipper α :=
  match (z.look 1).ahead with
  | object :: ahead => { z.look 1 with visited := object :: z.visited, ahead }.trim
  | [] => z.look 1

def perform : Operation α → Zipper α × Answer α
  | .addObject object => (z.add object, .void)
  | .currentObject => (z, .object z.visited.head?)
  | .back => (z.back, .void)
  | .previousObject => (z.back, .object z.visited.tail.head?)
  | .hasPrevious => (z, .bool !z.visited.tail.isEmpty)
  | .forward => (z.forward, .void)
  | .nextObject => (z.forward, .object (z.look 1).ahead.head?)
  | .hasNext => (z.look 1, .bool !(z.look 1).ahead.isEmpty)
  | .peek relativeIndex =>
    if relativeIndex ≤ 0 then (z, .object z.visited[(-relativeIndex).toNat]?)
    else
      let z := z.look relativeIndex.toNat
      (z, .object z.ahead[relativeIndex.toNat - 1]?)
  | .clear => ({ bound := z.bound }, .void)
  | .setFuture enumerator => ({ z with ahead := [], rest := enumerator.getD [] }, .void)
  | .setMaxHistorySize maxSize => ({ z with bound := maxSize }.trim, .void)
  | .maxHistorySize => (z, .int z.bound)
  | .isEmpty => (z, .bool (z.visited.isEmpty && z.ahead.isEmpty))
  | .contentArray => (z, .array (z.visited.reverse ++ z.ahead))

def run : Zipper α → List (Operation α) → Zipper α × List (Answer α)
  | z, [] => (z, [])
  | z, op :: ops =>
    let r := z.perform op
    let r' := run r.1 ops
    (r'.1, r.2 :: r'.2)

end Zipper

namespace ETHistory

variable {α : Type} {beyond : Beyond} {h : ETHistory α} {z : Zipper α} {op : Operation α}

/-- The array and the index show the zipper, of which no more is kept than should be. -/
structure Shows (h : ETHistory α) (z : Zipper α) : Prop where
  history : h.history = z.visited.reverse ++ z.ahead
  index : h.index = z.visited.length - 1
  future : h.future.getD [] = z.rest
  max_size : h.max_size = z.bound
  bounded : 1 ≤ z.bound → (z.visited.length : ℤ) ≤ z.bound + 1

def WithinEnd (beyond : Beyond) (z : Zipper α) : Operation α → Prop
  | .addObject _ | .setFuture _ => beyond = .clamps ∨ z.visited = []
  | _ => True

theorem Shows.length (hz : h.Shows z) : h.history.length = z.visited.length + z.ahead.length := by
  rw [hz.history, length_append, length_reverse]

theorem Shows.objectAtIndex (hz : h.Shows z) {n : ℕ} (hn : n < z.visited.length) :
    objectAtIndex h.history (h.index - n) = z.visited[n]? := by
  have hindex : h.index - n = ((z.visited.length - 1 - n : ℕ) : ℤ) := by
    rw [hz.index]
    omega
  unfold EtoileFoundation.objectAtIndex
  rw [hindex, if_pos (Int.natCast_nonneg _), Int.toNat_natCast, hz.history,
    getElem?_append_left (by rw [length_reverse]; omega), getElem?_reverse (by omega)]
  congr 1
  omega

theorem Shows.objectAtIndex_ahead (hz : h.Shows z) (n : ℕ) :
    EtoileFoundation.objectAtIndex h.history (h.index + (n + 1 : ℕ)) = z.ahead[n]? := by
  have hindex : h.index + (n + 1 : ℕ) = ((z.visited.length + n : ℕ) : ℤ) := by
    rw [hz.index]
    omega
  unfold EtoileFoundation.objectAtIndex
  rw [hindex, if_pos (Int.natCast_nonneg _), Int.toNat_natCast, hz.history,
    getElem?_append_right (by rw [length_reverse]; omega), length_reverse]
  congr 1
  omega

theorem Shows.visited_ne (hz : h.Shows z) (hmax : ¬ (h.max_size < 1 ∨ h.index < h.max_size)) :
    ∃ front last, z.visited = front ++ [last] ∧ (front.length : ℤ) = z.bound ∧ 1 ≤ z.bound := by
  rw [not_or, hz.index, hz.max_size] at hmax
  have hbounded := hz.bounded (by omega)
  rcases eq_nil_or_concat z.visited with hv | ⟨front, last, hv⟩
  · rw [hv, length_nil] at hmax
    omega
  · rw [concat_eq_append] at hv
    refine ⟨front, last, hv, ?_, by omega⟩
    rw [hv, length_append, length_singleton] at hmax hbounded
    omega

theorem trim_eq {z : Zipper α} (h : 1 ≤ z.bound → (z.visited.length : ℤ) ≤ z.bound + 1) :
    z.trim = z := by
  unfold Zipper.trim
  split_ifs with hbound
  · rfl
  · rw [take_of_length_le (by omega)]

theorem Shows.incrementHistoryIndex {object : α} {ahead : List α} (hz : h.Shows z)
    (hahead : z.ahead = object :: ahead) : ∃ h', h.incrementHistoryIndex = some h'
      ∧ h'.Shows { z with visited := object :: z.visited, ahead }.trim := by
  by_cases hmax : h.max_size < 1 ∨ h.index < h.max_size
  · have hbounded : 1 ≤ z.bound → ((object :: z.visited).length : ℤ) ≤ z.bound + 1 := by
      rw [hz.index, hz.max_size] at hmax
      rw [length_cons]
      omega
    rw [trim_eq hbounded]
    refine ⟨{ h with index := h.index + 1 }, if_pos hmax, ?_, ?_, hz.future, hz.max_size,
      hbounded⟩
    · rw [hz.history, hahead]
      simp
    · show h.index + 1 = ((object :: z.visited).length : ℤ) - 1
      rw [hz.index, length_cons]
      omega
  · obtain ⟨front, last, hv, hfront, hbound⟩ := hz.visited_ne hmax
    have htrim : { z with visited := object :: z.visited, ahead }.trim
        = { z with visited := object :: front, ahead } := by
      unfold Zipper.trim
      rw [if_neg (by omega : ¬ z.bound < 1)]
      have hlen : z.bound.toNat = front.length := by omega
      rw [hlen, hv, take_succ_cons, take_left]
    rw [htrim]
    have hhistory : h.history = last :: (front.reverse ++ object :: ahead) := by
      rw [hz.history, hv, hahead]
      simp
    refine ⟨{ h with history := front.reverse ++ object :: ahead }, ?_, ?_, ?_, hz.future,
      hz.max_size, ?_⟩
    · unfold ETHistory.incrementHistoryIndex
      rw [if_neg hmax, hhistory]
    · simp
    · rw [hz.index, hv]
      simp
    · show 1 ≤ z.bound → ((object :: front).length : ℤ) ≤ z.bound + 1
      rw [length_cons]
      omega

theorem Shows.setFuture (hz : h.Shows z) (enumerator : Option (List α)) :
    (h.setFuture beyond enumerator = none ↔ ¬ (beyond = .clamps ∨ z.visited = []))
      ∧ ∀ h', h.setFuture beyond enumerator = some h' →
        h'.Shows { z with ahead := [], rest := enumerator.getD [] } := by
  have hindex : (h.index + 1).toNat = z.visited.length := by
    rw [hz.index]
    omega
  have hrange : (z.visited.length + h.history.length ≤ h.history.length ∨ beyond = .clamps)
      ↔ (beyond = .clamps ∨ z.visited = []) := by
    rw [or_comm, ← length_eq_zero_iff]
    exact or_congr_right (by omega)
  unfold ETHistory.setFuture removeObjectsInRange
  rw [hindex, ← hrange]
  split_ifs with hin
  · refine ⟨iff_of_false (some_ne_none _) (not_not.2 hin), fun h' hh' => ?_⟩
    obtain rfl := Option.some.inj hh'
    refine ⟨?_, hz.index, rfl, hz.max_size, hz.bounded⟩
    rw [drop_of_length_le (by omega), append_nil, hz.history,
      take_left' (by rw [length_reverse]), append_nil]
  · exact ⟨iff_of_true rfl hin, fun h' hh' => by cases hh'⟩

theorem Shows.draw (hz : h.Shows z) : h.draw.1.Shows { z with
    ahead := z.ahead ++ z.rest.take 1
    rest := z.rest.drop 1 } ∧ h.draw.2 = !z.rest.isEmpty := by
  have hfuture := hz.future
  unfold ETHistory.draw
  split
  · rename_i object future hf
    rw [hf] at hfuture
    refine ⟨⟨?_, hz.index, ?_, hz.max_size, hz.bounded⟩, ?_⟩
    · rw [hz.history, ← hfuture]
      simp
    · rw [← hfuture]
      rfl
    · rw [← hfuture]
      rfl
  all_goals
    rename_i hf
    rw [hf] at hfuture
    refine ⟨⟨?_, hz.index, ?_, hz.max_size, hz.bounded⟩, ?_⟩
    · rw [hz.history, ← hfuture]
      simp
    · rw [← hfuture]
      rfl
    · rw [← hfuture]
      rfl

theorem look_eq {n : ℕ} (hn : n ≤ z.ahead.length) : z.look n = z := by
  unfold Zipper.look
  rw [Nat.sub_eq_zero_of_le hn, take_zero, append_nil, drop_zero]

theorem Shows.hasNext (hz : h.Shows z) : h.hasNext.1.Shows (z.look 1)
    ∧ h.hasNext.2 = !(z.look 1).ahead.isEmpty := by
  have hlength := hz.length
  have hindex := hz.index
  unfold ETHistory.hasNext
  split_ifs with hlt
  · have hpos : 1 ≤ z.ahead.length := by omega
    rw [look_eq hpos]
    refine ⟨hz, ?_⟩
    cases hahead : z.ahead with
    | nil => simp [hahead] at hpos
    | cons => rfl
  · have hnil : z.ahead = [] := length_eq_zero_iff.1 (by omega)
    unfold Zipper.look
    rw [hnil]
    refine ⟨?_, ?_⟩
    · have hdraw := hz.draw.1
      rwa [hnil] at hdraw
    · rw [hz.draw.2]
      cases z.rest <;> rfl

theorem Shows.drawObjects : ∀ {n : ℕ} {h : ETHistory α} {z : Zipper α}, h.Shows z →
    (drawObjects n h).1.Shows (z.look (z.ahead.length + n))
      ∧ (drawObjects n h).2 = decide (n ≤ z.rest.length)
  | 0, h, z, hz => by
    rw [Nat.add_zero, look_eq (Nat.le_refl _)]
    exact ⟨hz, by simp [ETHistory.drawObjects]⟩
  | n + 1, h, z, hz => by
    obtain ⟨hshows, hmore⟩ := hz.draw
    unfold ETHistory.drawObjects
    rcases hd : h.draw with ⟨h', _ | _⟩
    · rw [hd] at hshows hmore
      have hrest : z.rest = [] := by simpa using hmore
      rw [hrest] at hshows ⊢
      refine ⟨?_, by simp⟩
      unfold Zipper.look
      rw [hrest]
      simpa using hshows
    · rw [hd] at hshows hmore
      obtain ⟨object, rest, hrest⟩ : ∃ object rest, z.rest = object :: rest := by
        cases hrest : z.rest with
        | nil => simp [hrest] at hmore
        | cons object rest => exact ⟨object, rest, rfl⟩
      rw [hrest] at hshows
      obtain ⟨hshows, hmore⟩ := drawObjects (n := n) hshows
      refine ⟨?_, ?_⟩
      · unfold Zipper.look at hshows ⊢
        rw [hrest]
        simpa using hshows
      · show (ETHistory.drawObjects n h').2 = _
        rw [hmore, hrest]
        simp

theorem Shows.peek (hz : h.Shows z) (relativeIndex : ℤ) : ∃ h' o,
    h.peek relativeIndex = some (h', o) ∧ (z.perform (.peek relativeIndex)).2 = .object o
      ∧ h'.Shows (z.perform (.peek relativeIndex)).1 := by
  have hlength := hz.length
  have hindex := hz.index
  unfold ETHistory.peek Zipper.perform
  dsimp only
  by_cases hk : relativeIndex ≤ 0
  · rw [if_pos hk]
    by_cases hneg : h.index + relativeIndex < 0
    · rw [if_pos hneg, getElem?_eq_none (by omega)]
      exact ⟨h, none, rfl, rfl, hz⟩
    · have hzero : (h.index + relativeIndex - h.history.length + 1).toNat = 0 := by omega
      have hget := hz.objectAtIndex (n := (-relativeIndex).toNat) (by omega)
      have hsub : h.index - ((-relativeIndex).toNat : ℤ) = h.index + relativeIndex := by omega
      rw [hsub, getElem?_eq_getElem (by omega)] at hget
      rw [if_neg hneg, hzero, ETHistory.drawObjects]
      dsimp only
      rw [hget, getElem?_eq_getElem (by omega)]
      exact ⟨h, _, rfl, rfl, hz⟩
  · rw [if_neg hk, if_neg (by omega)]
    have hn : (h.index + relativeIndex - h.history.length + 1).toNat
        = relativeIndex.toNat - z.ahead.length := by omega
    obtain ⟨hshows, hmore⟩ := hz.drawObjects (n := relativeIndex.toNat - z.ahead.length)
    have hlook : z.look (z.ahead.length + (relativeIndex.toNat - z.ahead.length))
        = z.look relativeIndex.toNat := by
      unfold Zipper.look
      rw [Nat.add_sub_cancel_left]
    have hahead : (z.look relativeIndex.toNat).ahead.length
        = z.ahead.length + min (relativeIndex.toNat - z.ahead.length) z.rest.length := by
      unfold Zipper.look
      rw [length_append, length_take]
    rw [hlook] at hshows
    rw [hn]
    rcases hd : ETHistory.drawObjects (relativeIndex.toNat - z.ahead.length) h with ⟨h', _ | _⟩
    · rw [hd] at hshows hmore
      have hless := of_decide_eq_false hmore.symm
      dsimp only
      rw [getElem?_eq_none (by omega)]
      exact ⟨h', none, rfl, rfl, hshows⟩
    · rw [hd] at hshows hmore
      have henough := of_decide_eq_true hmore.symm
      have hget := hshows.objectAtIndex_ahead (relativeIndex.toNat - 1)
      have hsame : h'.index + (relativeIndex.toNat - 1 + 1 : ℕ) = h.index + relativeIndex := by
        rw [hshows.index, hz.index]
        show (z.visited.length : ℤ) - 1 + _ = _
        omega
      rw [hsame, getElem?_eq_getElem (by omega)] at hget
      dsimp only
      rw [hget, getElem?_eq_getElem (by omega)]
      exact ⟨h', _, rfl, rfl, hshows⟩

theorem Shows.increment_append (hz : h.Shows z) (object : α) :
    (h.incrementHistoryIndex.map fun h => { h with history := h.history ++ [object] })
      = { h with history := h.history ++ [object] }.incrementHistoryIndex := by
  by_cases hmax : h.max_size < 1 ∨ h.index < h.max_size
  · unfold ETHistory.incrementHistoryIndex
    rw [if_pos hmax, if_pos hmax]
    rfl
  · obtain ⟨front, last, hv, -, -⟩ := hz.visited_ne hmax
    have hhistory : h.history = last :: (front.reverse ++ z.ahead) := by
      rw [hz.history, hv]
      simp
    unfold ETHistory.incrementHistoryIndex
    rw [if_neg hmax, if_neg hmax, hhistory]
    rfl

theorem Shows.addObject (hz : h.Shows z) {object : α} (hin : beyond = .clamps ∨ z.visited = []) :
    ∃ h', h.addObject beyond object = some h' ∧ h'.Shows (z.add object) := by
  obtain ⟨hraises, hshows⟩ := @Shows.setFuture α beyond h z hz none
  rw [← not_iff_not, not_not] at hraises
  obtain ⟨h₁, hfuture⟩ := ne_none_iff_exists'.1 (hraises.2 hin)
  have hz₁ := hshows h₁ hfuture
  have happend : { h₁ with history := h₁.history ++ [object] }.Shows
      { z with ahead := [object], rest := [] } := by
    refine ⟨?_, hz₁.index, hz₁.future, hz₁.max_size, hz₁.bounded⟩
    show h₁.history ++ [object] = _
    rw [hz₁.history, append_nil]
  obtain ⟨h', hnext, hz'⟩ := happend.incrementHistoryIndex rfl
  refine ⟨h', ?_, hz'⟩
  unfold ETHistory.addObject
  rw [hfuture, bind_some, hz₁.increment_append, hnext]

theorem Shows.forward (hz : h.Shows z) : ∃ h', h.forward = some h' ∧ h'.Shows z.forward := by
  obtain ⟨hshows, hmore⟩ := hz.hasNext
  unfold ETHistory.forward Zipper.forward
  rcases hn : h.hasNext with ⟨h₁, more⟩
  rw [hn] at hshows hmore
  cases hahead : (z.look 1).ahead with
  | nil =>
    rw [hahead] at hmore
    obtain rfl : more = false := hmore
    exact ⟨h₁, rfl, hshows⟩
  | cons object ahead =>
    rw [hahead] at hmore
    obtain rfl : more = true := hmore
    exact hshows.incrementHistoryIndex hahead

theorem visited_forward {object : α} {ahead : List α} (hahead : (z.look 1).ahead = object :: ahead) :
    z.forward.visited.head? = some object := by
  unfold Zipper.forward Zipper.trim
  rw [hahead]
  dsimp only
  split_ifs
  · rfl
  · rfl

theorem Shows.currentObject (hz : h.Shows z) : h.currentObject = some z.visited.head? := by
  have hindex := hz.index
  unfold ETHistory.currentObject
  cases hv : z.visited with
  | nil =>
    rw [hv, length_nil] at hindex
    rw [if_pos (by omega)]
    rfl
  | cons object visited =>
    have hget := hz.objectAtIndex (n := 0) (by simp [hv])
    rw [hv, length_cons] at hindex
    rw [hv] at hget
    rw [if_neg (by omega), ← Int.sub_zero h.index]
    exact congrArg (Option.map some) hget

theorem Shows.nextObject (hz : h.Shows z) : ∃ h',
    h.nextObject = some (h', (z.look 1).ahead.head?) ∧ h'.Shows z.forward := by
  obtain ⟨h', hforward, hz'⟩ := hz.forward
  obtain ⟨hshows, hmore⟩ := hz.hasNext
  refine ⟨h', ?_, hz'⟩
  unfold ETHistory.nextObject
  unfold ETHistory.forward at hforward
  rcases hn : h.hasNext with ⟨h₁, more⟩
  rw [hn] at hshows hmore hforward
  cases hahead : (z.look 1).ahead with
  | nil =>
    rw [hahead] at hmore
    obtain rfl : more = false := hmore
    obtain rfl := Option.some.inj hforward
    rfl
  | cons object ahead =>
    rw [hahead] at hmore
    obtain rfl : more = true := hmore
    have hcurrent := hz'.currentObject
    rw [visited_forward hahead] at hcurrent
    dsimp only at hforward ⊢
    rw [hforward, bind_some]
    unfold ETHistory.currentObject at hcurrent
    split_ifs at hcurrent
    · simp at hcurrent
    · obtain ⟨o, ho, hobject⟩ := map_eq_some_iff.1 hcurrent
      rw [ho, head?_cons, ← hobject]
      rfl

theorem Shows.back (hz : h.Shows z) : h.back.Shows z.back := by
  have hindex := hz.index
  unfold ETHistory.back Zipper.back
  rcases hv : z.visited with _ | ⟨object, _ | ⟨object', visited⟩⟩
  · rw [hv, length_nil] at hindex
    rw [if_neg (by omega)]
    exact hz
  · rw [hv, length_singleton] at hindex
    rw [if_neg (by omega)]
    exact hz
  · rw [hv, length_cons, length_cons] at hindex
    rw [if_pos (by omega)]
    refine ⟨?_, ?_, hz.future, hz.max_size, ?_⟩
    · rw [hz.history, hv]
      simp
    · rw [hindex]
      simp
    · intro hbound
      have hbounded := hz.bounded hbound
      rw [hv] at hbounded
      simp only [length_cons] at hbounded ⊢
      omega

theorem Shows.hasPrevious (hz : h.Shows z) : h.hasPrevious = !z.visited.tail.isEmpty := by
  have hindex := hz.index
  unfold ETHistory.hasPrevious
  rcases hv : z.visited with _ | ⟨object, _ | ⟨object', visited⟩⟩ <;> rw [hv] at hindex
  · rw [hindex]
    rfl
  · rw [hindex]
    rfl
  · rw [hindex]
    simp

theorem Shows.previousObject (hz : h.Shows z) : ∃ h',
    h.previousObject = some (h', z.visited.tail.head?) ∧ h'.Shows z.back := by
  have hback := hz.back
  unfold ETHistory.back at hback
  have hprevious := hz.hasPrevious
  unfold ETHistory.hasPrevious at hprevious
  unfold ETHistory.previousObject
  rcases hv : z.visited with _ | ⟨object, _ | ⟨object', visited⟩⟩ <;> rw [hv] at hprevious
  · have hindex := of_decide_eq_false hprevious
    rw [if_neg hindex] at hback ⊢
    exact ⟨h, rfl, hback⟩
  · have hindex := of_decide_eq_false hprevious
    rw [if_neg hindex] at hback ⊢
    exact ⟨h, rfl, hback⟩
  · have hindex := of_decide_eq_true hprevious
    have hget := hz.objectAtIndex (n := 1) (by simp [hv])
    rw [hv] at hget
    rw [if_pos hindex] at hback ⊢
    refine ⟨_, ?_, hback⟩
    rw [show h.index - 1 = h.index - ((1 : ℕ) : ℤ) from rfl, hget]
    rfl

theorem Shows.setMaxHistorySize (hz : h.Shows z) (maxSize : ℤ) : ∃ h',
    h.setMaxHistorySize beyond maxSize = some h'
      ∧ h'.Shows { z with bound := maxSize }.trim := by
  have hlength := hz.length
  have hindex := hz.index
  unfold ETHistory.setMaxHistorySize
  dsimp only
  split_ifs with hmax
  · -- the oldest objects are at the beginning of the array
    have hrange : 0 + (h.index - maxSize).toNat ≤ h.history.length := by omega
    have hremoved : z.visited.length - (maxSize.toNat + 1) = (h.index - maxSize).toNat := by omega
    unfold removeObjectsInRange
    rw [if_pos (.inl hrange)]
    unfold Zipper.trim
    rw [if_neg (by show ¬ maxSize < 1; omega)]
    refine ⟨_, rfl, ?_, ?_, hz.future, rfl, ?_⟩
    · show h.history.take 0 ++ h.history.drop (0 + _) = (z.visited.take _).reverse ++ z.ahead
      rw [take_zero, nil_append, Nat.zero_add, hz.history, reverse_take,
        drop_append_of_le_length (by rw [length_reverse]; omega), ← hremoved]
    · show maxSize = ((z.visited.take (maxSize.toNat + 1)).length : ℤ) - 1
      rw [length_take]
      omega
    · intro _
      show ((z.visited.take (maxSize.toNat + 1)).length : ℤ) ≤ maxSize + 1
      rw [length_take]
      omega
  · have hbounded : 1 ≤ maxSize → (z.visited.length : ℤ) ≤ maxSize + 1 := by omega
    rw [trim_eq hbounded]
    exact ⟨_, rfl, hz.history, hz.index, hz.future, rfl, hbounded⟩

theorem Shows.perform (hz : h.Shows z) (hin : WithinEnd beyond z op) : ∃ h',
    h.perform beyond op = some (h', (z.perform op).2) ∧ h'.Shows (z.perform op).1 := by
  cases op with
  | addObject object =>
    obtain ⟨h', hp, hz'⟩ := @Shows.addObject α beyond h z hz object hin
    exact ⟨h', by rw [ETHistory.perform, hp]; rfl, hz'⟩
  | currentObject => exact ⟨h, by rw [ETHistory.perform, hz.currentObject]; rfl, hz⟩
  | back => exact ⟨h.back, rfl, hz.back⟩
  | previousObject =>
    obtain ⟨h', hp, hz'⟩ := hz.previousObject
    exact ⟨h', by rw [ETHistory.perform, hp]; rfl, hz'⟩
  | hasPrevious => exact ⟨h, by rw [ETHistory.perform, hz.hasPrevious]; rfl, hz⟩
  | forward =>
    obtain ⟨h', hp, hz'⟩ := hz.forward
    exact ⟨h', by rw [ETHistory.perform, hp]; rfl, hz'⟩
  | nextObject =>
    obtain ⟨h', hp, hz'⟩ := hz.nextObject
    exact ⟨h', by rw [ETHistory.perform, hp]; rfl, hz'⟩
  | hasNext => exact ⟨h.hasNext.1, by rw [ETHistory.perform, hz.hasNext.2]; rfl, hz.hasNext.1⟩
  | peek relativeIndex =>
    obtain ⟨h', o, hp, ho, hz'⟩ := hz.peek relativeIndex
    exact ⟨h', by rw [ETHistory.perform, hp, ho]; rfl, hz'⟩
  | clear => exact ⟨h.clear, rfl, rfl, rfl, rfl, hz.max_size, fun (hbound : 1 ≤ z.bound) => (by
    show (0 : ℤ) ≤ z.bound + 1
    omega)⟩
  | setFuture enumerator =>
    obtain ⟨hraises, hshows⟩ := @Shows.setFuture α beyond h z hz enumerator
    rw [← not_iff_not, not_not] at hraises
    obtain ⟨h', hp⟩ := ne_none_iff_exists'.1 (hraises.2 hin)
    exact ⟨h', by rw [ETHistory.perform, hp]; rfl, hshows h' hp⟩
  | setMaxHistorySize maxSize =>
    obtain ⟨h', hp, hz'⟩ := @Shows.setMaxHistorySize α beyond h z hz maxSize
    exact ⟨h', by rw [ETHistory.perform, hp]; rfl, hz'⟩
  | maxHistorySize => exact ⟨h, by rw [ETHistory.perform, hz.max_size]; rfl, hz⟩
  | isEmpty =>
    refine ⟨h, ?_, hz⟩
    rw [ETHistory.perform, hz.history]
    rw [Zipper.perform]
    cases z.visited <;> simp
  | contentArray => exact ⟨h, by rw [ETHistory.perform, hz.history]; rfl, hz⟩

/-- An operation that has a result removes nothing from beyond the end that the array minds. -/
theorem Shows.withinEnd (hz : h.Shows z) (hp : h.perform beyond op ≠ none) :
    WithinEnd beyond z op := by
  cases op with
  | addObject object =>
    by_contra hin
    have hraises := (@Shows.setFuture α beyond h z hz none).1.2 hin
    rw [ETHistory.perform, ETHistory.addObject, hraises] at hp
    exact hp rfl
  | setFuture enumerator =>
    by_contra hin
    have hraises := (@Shows.setFuture α beyond h z hz enumerator).1.2 hin
    rw [ETHistory.perform, hraises] at hp
    exact hp rfl
  | _ => trivial

theorem Shows.forward_back (hz : h.Shows z) (hprevious : h.hasPrevious = true) :
    h.back.forward = some h := by
  have hlength := hz.length
  have hindex := hz.index
  have hbounded := hz.bounded
  have hpos : 0 < h.index := of_decide_eq_true hprevious
  have hmax : h.max_size < 1 ∨ h.index - 1 < h.max_size := by
    rw [hz.max_size]
    omega
  have hnext : { h with index := h.index - 1 }.hasNext = ({ h with index := h.index - 1 }, true) :=
    if_pos (by show h.index - 1 < (h.history.length : ℤ) - 1; omega)
  unfold ETHistory.back ETHistory.forward
  rw [if_pos hpos, hnext]
  dsimp only
  unfold ETHistory.incrementHistoryIndex
  rw [if_pos hmax, Int.sub_add_cancel]

theorem Shows.hasNext_add (hz : h.Shows z) {object : α} {h' : ETHistory α}
    (hadd : h.addObject beyond object = some h') : h'.hasNext.2 = false := by
  have hp : h.perform beyond (.addObject object) ≠ none := by
    rw [ETHistory.perform, hadd]
    exact some_ne_none _
  obtain ⟨h₁, hadd₁, hz'⟩ := @Shows.addObject α beyond h z hz object (hz.withinEnd hp)
  obtain rfl := Option.some.inj (hadd.symm.trans hadd₁)
  rw [hz'.hasNext.2]
  unfold Zipper.add Zipper.trim
  split_ifs
  · rfl
  · rfl

theorem shows_init : ({} : ETHistory α).Shows {} :=
  ⟨rfl, rfl, rfl, rfl, fun hbound => by cases hbound⟩

/-- The operations are answered as on the zipper, and the history shows the zipper after them. -/
theorem Shows.run_iff : ∀ {ops : List (Operation α)} {h : ETHistory α} {z : Zipper α}, h.Shows z →
    ((∃ h', h.run beyond ops = some (h', (z.run ops).2) ∧ h'.Shows (z.run ops).1)
      ↔ Along (fun z op => (z.perform op).1) (WithinEnd beyond) z ops)
  | [], h, z, hz => iff_of_true ⟨h, rfl, hz⟩ trivial
  | op :: ops, h, z, hz => by
    constructor
    · rintro ⟨h', hrun, hz'⟩
      rw [ETHistory.run] at hrun
      obtain ⟨⟨h₁, a⟩, hp, hrun⟩ := bind_eq_some_iff.1 hrun
      have hin := hz.withinEnd (hp.symm ▸ some_ne_none _)
      obtain ⟨h₂, hp₂, hz₂⟩ := hz.perform hin
      obtain ⟨rfl, rfl⟩ := Prod.mk.inj (Option.some.inj (hp.symm.trans hp₂))
      obtain ⟨⟨h₃, as⟩, hrest, heq⟩ := map_eq_some_iff.1 hrun
      obtain ⟨rfl, has⟩ := Prod.mk.inj heq
      refine ⟨hin, (run_iff hz₂).1 ⟨h₃, ?_, hz'⟩⟩
      rw [← show as = ((z.perform op).1.run ops).2 from (cons.inj has).2]
      exact hrest
    · rintro ⟨hin, hrest⟩
      obtain ⟨h₁, hp, hz₁⟩ := hz.perform hin
      obtain ⟨h₂, hrun, hz₂⟩ := (run_iff hz₁).2 hrest
      refine ⟨h₂, ?_, hz₂⟩
      rw [ETHistory.run, hp, bind_some, hrun]
      rfl

/-- All operations are answered as on a zipper that starts empty, which the history shows at the
end; there, what is added has nothing ahead of it, and forward undoes back. -/
def Refines (beyond : Beyond) (ops : List (Operation α)) : Prop :=
  ∃ h : ETHistory α, ETHistory.run beyond {} ops = some (h, (Zipper.run {} ops).2)
    ∧ h.Shows (Zipper.run {} ops).1
    ∧ (∀ object h', h.addObject beyond object = some h' → h'.hasNext.2 = false)
    ∧ (h.hasPrevious = true → h.back.forward = some h)

/-- A history is a zipper as long as nothing is added, and no future set, while there is a current
object, unless the array overlooks that the range is too long. -/
theorem refines_iff (beyond : Beyond) (ops : List (Operation α)) : Refines beyond ops
    ↔ Along (fun z op => (z.perform op).1) (WithinEnd beyond) ({} : Zipper α) ops := by
  rw [← shows_init.run_iff]
  constructor
  · rintro ⟨h, hrun, hz, -, -⟩
    exact ⟨h, hrun, hz⟩
  · rintro ⟨h, hrun, hz⟩
    exact ⟨h, hrun, hz, fun _ _ => hz.hasNext_add, hz.forward_back⟩

/-- Where the array is strict, a second object cannot be added. -/
theorem second_object_raises : ¬ ∀ ops : List (Operation ℕ), Refines .raises ops := by
  intro h
  obtain ⟨h', hrun, -⟩ := h [.addObject 1, .addObject 2]
  cases hrun

end ETHistory

end Etoile.EtoileFoundation
