import Mathlib.Algebra.Group.Nat.Defs
import Etoile.Lib.Runs
import Mathlib.Data.List.Range

/-!
# C arrays that grow

An array of pointers with room for some more.  The counts are 32 bits wide and a pointer takes
eight bytes; what happens outside the room there is has no result.  `mix` is what a pointer becomes
when its first bytes are overwritten with those of another one.
-/

namespace Etoile.EtoileFoundation

/-- There are pointers in all places; only those below `space` belong to the array. -/
structure ETCArray (P : Type) where
  array : ℕ → P
  elements : ℕ
  space : ℕ

namespace ETCArray

variable {P : Type}

def sizeofPointer : ℕ := 8

def newWithInitialSize (array : ℕ → P) (initialSize : ℕ) : ETCArray P := ⟨array, 0, initialSize⟩

variable (s : ETCArray P) (mix : ℕ → P → P → P)

def put (i : ℕ) (object : P) : Option (ETCArray P) :=
  if i < s.space then some { s with array := Function.update s.array i object } else none

/-- `memmove` of `n` pointers. -/
def move (dest src n : ℕ) : Option (ETCArray P) :=
  let array := fun i =>
    if dest ≤ i ∧ i < dest + n then s.array (src + (i - dest)) else s.array i
  if dest + n ≤ s.space ∧ src + n ≤ s.space then some { s with array := array } else none

/-- `memcpy` of `n` bytes to behind the elements. -/
def copyBytes (otherArray : ETCArray P) (n : ℕ) : Option (ETCArray P) :=
  let array := fun i =>
    if s.elements ≤ i ∧ i < s.elements + n / sizeofPointer then otherArray.array (i - s.elements)
    else if i = s.elements + n / sizeofPointer ∧ n % sizeofPointer ≠ 0 then
      mix (n % sizeofPointer) (otherArray.array (n / sizeofPointer)) (s.array i)
    else s.array i
  if s.elements * sizeofPointer + n ≤ s.space * sizeofPointer then some { s with array := array }
  else none

def resize (newSize : ℕ) (memory : Bool) : Option (ETCArray P × Bool) :=
  if newSize = 0 then none else if memory then some ({ s with space := newSize }, true)
  else some (s, false)

inductive Answer (P : Type)
  | code (n : ℤ)
  | object (o : Option P)
  | count (n : ℕ)
  deriving DecidableEq

def whenResized (r : Option (ETCArray P × Bool)) (f : ETCArray P → Option (ETCArray P × Answer P)) :
    Option (ETCArray P × Answer P) :=
  r.bind fun (t, resized) => if resized then f t else some (t, .code (-1))

def add (object : P) (memory : Bool) : Option (ETCArray P × Answer P) :=
  whenResized (if (s.elements + 1) % 2 ^ 32 ≥ s.space then s.resize (s.space * 4 % 2 ^ 32) memory
      else some (s, true)) fun t =>
    (t.put t.elements object).map fun t =>
      ({ t with elements := (t.elements + 1) % 2 ^ 32 }, .code 0)

def addAtIndex (object : P) (anIndex : ℕ) (memory : Bool) : Option (ETCArray P × Answer P) :=
  if anIndex > (s.elements + 1) % 2 ^ 32 then some (s, .code (-2))
  else
    whenResized (if (s.elements + 1) % 2 ^ 32 ≥ s.space then s.resize (s.space * 2 % 2 ^ 32) memory
        else some (s, true)) fun t =>
      (if anIndex < t.elements then t.move (anIndex + 1) anIndex (t.elements - anIndex)
        else some t).bind fun t =>
      (t.put anIndex object).map fun t =>
        ({ t with elements := (t.elements + 1) % 2 ^ 32 }, .code 0)

def appendArray (otherArray : ETCArray P) (memory : Bool) : Option (ETCArray P × Answer P) :=
  let sum := (s.elements + otherArray.elements) % 2 ^ 32
  whenResized (if s.space < sum then s.resize sum memory else some (s, true)) fun t =>
    (t.copyBytes mix otherArray otherArray.elements).map fun t =>
      ({ t with elements := sum }, .code 0)

def objectAtIndex (anIndex : ℕ) : Option P :=
  if anIndex ≥ s.elements then none else some (s.array anIndex)

def removeLastObject : ETCArray P × Answer P :=
  if s.elements > 0 then ({ s with elements := s.elements - 1 }, .code 0) else (s, .code (-1))

def removeObjectAtIndex (anIndex : ℕ) : Option (ETCArray P × Answer P) :=
  if anIndex > s.elements then some (s, .code (-1))
  else if s.elements = 0 then some (s, .code (-2))
  else
    (if anIndex < s.elements then s.move anIndex (anIndex + 1) (s.elements - (anIndex + 1))
      else some s).map fun t => ({ t with elements := t.elements - 1 }, .code 0)

/-- The loop counts in an `int`, and compares with the elements as one. -/
def indexOfObjectIdenticalTo [DecidableEq P] (object : P) : ℤ :=
  match (List.range (if s.elements < 2 ^ 31 then s.elements else 0)).find?
      fun i => object = s.array i with
  | some i => i
  | none => -1

def swap (index1 index2 : ℕ) : ETCArray P × Answer P :=
  if index1 ≥ s.elements ∨ index2 ≥ s.elements then (s, .code (-2))
  else
    let array := Function.update (Function.update s.array index1 (s.array index2)) index2
      (s.array index1)
    ({ s with array := array }, .code 0)

inductive Op (P : Type)
  | add (object : P)
  | addAtIndex (object : P) (anIndex : ℕ)
  | appendArray (otherArray : ETCArray P)
  | objectAtIndex (anIndex : ℕ)
  | swap (index1 index2 : ℕ)
  | removeObjectAtIndex (anIndex : ℕ)
  | removeLastObject
  | removeAllObjects
  | indexOfObjectIdenticalTo (object : P)
  | count

def perform [DecidableEq P] : Op P × Bool → Option (ETCArray P × Answer P)
  | (.add object, memory) => s.add object memory
  | (.addAtIndex object anIndex, memory) => s.addAtIndex object anIndex memory
  | (.appendArray otherArray, memory) => s.appendArray mix otherArray memory
  | (.objectAtIndex anIndex, _) => some (s, .object (s.objectAtIndex anIndex))
  | (.swap index1 index2, _) => some (s.swap index1 index2)
  | (.removeObjectAtIndex anIndex, _) => s.removeObjectAtIndex anIndex
  | (.removeLastObject, _) => some s.removeLastObject
  | (.removeAllObjects, _) => some ({ s with elements := 0 }, .code 0)
  | (.indexOfObjectIdenticalTo object, _) => some (s, .code (s.indexOfObjectIdenticalTo object))
  | (.count, _) => some (s, .count s.elements)

def step [DecidableEq P] (call : Op P × Bool) : ETCArray P := ((s.perform mix call).map Prod.fst).getD s

end ETCArray

end Etoile.EtoileFoundation

/-!
## The operations on C arrays as operations on lists

An array holds the list of its elements.  Its operations agree with those on lists except that an
index just behind the last that is allowed is taken too, that appending an array copies bytes where
it should copy pointers, and that an array without room, or with room for 2³⁰ pointers, does not
grow.
-/

namespace Etoile.EtoileFoundation.ETCArray

open Function List Nat Option

variable {P : Type}

def contents (s : ETCArray P) : List P := (range s.elements).map s.array

def Answer.isFailure : Answer P → Bool
  | code n => n < 0
  | object o => o.isNone
  | count _ => false

/-- The operation on a list, and its answer; `none` if the index is out of range. -/
def Op.onList [DecidableEq P] : Op P → List P → Option (List P × Answer P)
  | add object, l => some (l ++ [object], .code 0)
  | addAtIndex object anIndex, l =>
    if anIndex ≤ l.length then some (l.insertIdx anIndex object, .code 0) else none
  | appendArray otherArray, l => some (l ++ otherArray.contents, .code 0)
  | objectAtIndex anIndex, l => l[anIndex]?.map fun o => (l, .object (some o))
  | swap index1 index2, l =>
    if h : index1 < l.length ∧ index2 < l.length then
      some ((l.set index1 l[index2]).set index2 l[index1], .code 0)
    else none
  | removeObjectAtIndex anIndex, l =>
    if anIndex < l.length then some (l.eraseIdx anIndex, .code 0) else none
  | removeLastObject, l => if l = [] then none else some (l.dropLast, .code 0)
  | removeAllObjects, _ => some ([], .code 0)
  | indexOfObjectIdenticalTo object, l =>
    some (l, .code (match l.findIdx? (· = object) with
      | some i => i
      | none => -1))
  | count, l => some (l, .count l.length)

def Op.mayGrow : Op P → Bool
  | add _ | addAtIndex _ _ | appendArray _ => true
  | _ => false

/-- The operation does to the contents what it does to a list and answers so.  It fails if the
index is out of range or there is no memory, and nothing has changed then. -/
def Agrees [DecidableEq P] (s : ETCArray P) (call : Op P × Bool) (t : ETCArray P)
    (answer : Answer P) : Prop :=
  match call.1.onList s.contents with
  | some (l, a) => (t.contents = l ∧ answer = a)
      ∨ call.1.mayGrow = true ∧ call.2 = false ∧ t = s ∧ answer = .code (-1)
  | none => t = s ∧ answer.isFailure = true

def Refines [DecidableEq P] (mix : ℕ → P → P → P) (s : ETCArray P) (call : Op P × Bool) : Prop :=
  ∃ t answer, s.perform mix call = some (t, answer) ∧ t.elements ≤ t.space ∧ s.Agrees call t answer

/-- An array that is full can grow, an index is not the one behind those that are allowed, and no
elements are appended from another array. -/
def Proper (s : ETCArray P) : Op P × Bool → Prop
  | (.add _, _) => s.elements + 1 < s.space ∨ s.elements < s.space * 4 % 2 ^ 32
  | (.addAtIndex _ anIndex, _) => anIndex ≠ s.elements + 1
      ∧ (anIndex ≤ s.elements → s.elements + 1 < s.space ∨ s.elements < s.space * 2 % 2 ^ 32)
  | (.appendArray otherArray, _) => otherArray.elements = 0
  | (.removeObjectAtIndex anIndex, _) => anIndex ≠ s.elements ∨ s.elements = 0
  | (.indexOfObjectIdenticalTo _, _) => s.elements < 2 ^ 31
  | _ => True

instance (s : ETCArray P) : ∀ call, Decidable (s.Proper call)
  | (.add _, _) => inferInstanceAs (Decidable (_ ∨ _))
  | (.addAtIndex _ _, _) => inferInstanceAs (Decidable (_ ∧ (_ → _)))
  | (.appendArray _, _) => inferInstanceAs (Decidable (_ = _))
  | (.removeObjectAtIndex _, _) => inferInstanceAs (Decidable (_ ∨ _))
  | (.indexOfObjectIdenticalTo _, _) => inferInstanceAs (Decidable (_ < _))
  | (.objectAtIndex _, _) | (.swap _ _, _) | (.removeLastObject, _) | (.removeAllObjects, _)
  | (.count, _) => isTrue trivial

structure Inv (s : ETCArray P) : Prop where
  elements_le : s.elements ≤ s.space
  space_lt : s.space < 2 ^ 32

variable {s : ETCArray P} {mix : ℕ → P → P → P} {memory : Bool}

@[simp] theorem length_contents : s.contents.length = s.elements := by
  rw [contents, length_map, length_range]

theorem getElem_contents {i : ℕ} (h : i < s.contents.length) : s.contents[i] = s.array i := by
  simp [contents]

theorem contents_eq {l : List P} (hlength : s.elements = l.length)
    (h : ∀ i, ∀ hi : i < l.length, s.array i = l[i]) : s.contents = l := by
  refine ext_getElem (by rw [length_contents, hlength]) fun i hi hi' => ?_
  rw [getElem_contents]
  exact h i hi'

theorem contents_insert {t : ETCArray P} {anIndex : ℕ} {object : P} (hindex : anIndex ≤ s.elements)
    (helements : t.elements = s.elements + 1) (hbelow : ∀ i < anIndex, t.array i = s.array i)
    (hat : t.array anIndex = object)
    (habove : ∀ i, anIndex < i → i ≤ s.elements → t.array i = s.array (i - 1)) :
    t.contents = s.contents.insertIdx anIndex object := by
  have hlength : (s.contents.insertIdx anIndex object).length = s.elements + 1 := by
    rw [length_insertIdx, length_contents, if_pos hindex]
  refine contents_eq (by rw [hlength, helements]) fun i hi => ?_
  rw [hlength] at hi
  rw [getElem_insertIdx]
  split_ifs with hlt heq
  · rw [hbelow i hlt, getElem_contents]
  · rw [heq, hat]
  · rw [habove i (by omega) (by omega), getElem_contents]

theorem contents_erase {t : ETCArray P} {anIndex : ℕ} (hindex : anIndex < s.elements)
    (helements : t.elements = s.elements - 1) (hbelow : ∀ i < anIndex, t.array i = s.array i)
    (habove : ∀ i, anIndex ≤ i → i + 1 < s.elements → t.array i = s.array (i + 1)) :
    t.contents = s.contents.eraseIdx anIndex := by
  have hlength : (s.contents.eraseIdx anIndex).length = s.elements - 1 := by
    rw [length_eraseIdx, length_contents, if_pos hindex]
  refine contents_eq (by rw [hlength, helements]) fun i hi => ?_
  rw [hlength] at hi
  rw [getElem_eraseIdx]
  split_ifs with hlt
  · rw [hbelow i hlt, getElem_contents]
  · rw [habove i (by omega) (by omega), getElem_contents]

variable (memory) in
theorem room_for_one {newSize : ℕ} (hs : s.Inv) (hlt : newSize < 2 ^ 32)
    (h : s.elements + 1 < s.space ∨ s.elements < newSize) :
    (∃ space, s.elements < space ∧ space < 2 ^ 32
        ∧ (if (s.elements + 1) % 2 ^ 32 ≥ s.space then s.resize newSize memory else some (s, true))
          = some ({ s with space := space }, true))
      ∨ memory = false
        ∧ (if (s.elements + 1) % 2 ^ 32 ≥ s.space then s.resize newSize memory else some (s, true))
          = some (s, false) := by
  have hspace := hs.space_lt
  have hmod : (s.elements + 1) % 2 ^ 32 = s.elements + 1 := mod_eq_of_lt (by omega)
  rw [hmod]
  by_cases hfull : s.elements + 1 ≥ s.space
  · have hnew : s.elements < newSize := by omega
    rw [if_pos hfull, resize, if_neg (by omega)]
    cases memory with
    | false => exact .inr ⟨rfl, rfl⟩
    | true => exact .inl ⟨newSize, hnew, hlt, rfl⟩
  · rw [if_neg hfull]
    exact .inl ⟨s.space, by omega, hspace, rfl⟩

section Operations

variable [DecidableEq P] (hs : s.Inv)

def Keeps (s : ETCArray P) (call : Op P × Bool) (r : Option (ETCArray P × Answer P)) : Prop :=
  ∃ t answer, r = some (t, answer) ∧ t.Inv ∧ s.Agrees call t answer

theorem keeps_done {call : Op P × Bool} {t : ETCArray P} {l : List P} {a : Answer P}
    (hlist : call.1.onList s.contents = some (l, a)) (ht : t.Inv) (hl : t.contents = l) :
    s.Keeps call (some (t, a)) := by
  refine ⟨t, a, rfl, ht, ?_⟩
  unfold Agrees
  rw [hlist]
  exact .inl ⟨hl, rfl⟩

include hs

theorem keeps_failed {call : Op P × Bool} {a : Answer P}
    (hlist : call.1.onList s.contents = none) (ha : a.isFailure = true) :
    s.Keeps call (some (s, a)) := by
  refine ⟨s, a, rfl, hs, ?_⟩
  unfold Agrees
  rw [hlist]
  exact ⟨rfl, ha⟩

theorem keeps_noMemory {op : Op P} {l : List P} {a : Answer P}
    (hlist : op.onList s.contents = some (l, a)) (hgrow : op.mayGrow = true) :
    s.Keeps (op, false) (some (s, .code (-1))) := by
  refine ⟨s, _, rfl, hs, ?_⟩
  unfold Agrees
  rw [hlist]
  exact .inr ⟨hgrow, rfl, rfl, rfl⟩

theorem add_keeps {object : P} (h : s.Proper (.add object, memory)) :
    s.Keeps (.add object, memory) (s.add object memory) := by
  unfold add
  rcases room_for_one memory hs (mod_lt _ (by decide)) h with
    ⟨space, hroom, hlt, hr⟩ | ⟨rfl, hr⟩
  · rw [hr]
    unfold whenResized put
    dsimp only [bind_some]
    rw [if_pos rfl, if_pos hroom, map_some]
    have hmod : (s.elements + 1) % 2 ^ 32 = s.elements + 1 := mod_eq_of_lt (by omega)
    refine keeps_done rfl ⟨?_, hlt⟩ ?_
    · show (s.elements + 1) % 2 ^ 32 ≤ space
      omega
    · refine contents_eq ?_ fun i hi => ?_
      · show (s.elements + 1) % 2 ^ 32 = _
        rw [hmod, length_append, length_contents]
        rfl
      · rw [length_append, length_contents, length_singleton] at hi
        rw [getElem_append]
        show update s.array s.elements object i = _
        split_ifs with hlast
        · rw [length_contents] at hlast
          rw [update_of_ne (Nat.ne_of_lt hlast), getElem_contents]
        · rw [length_contents] at hlast
          obtain rfl : i = s.elements := by omega
          rw [update_self, getElem_singleton]
  · rw [hr]
    exact keeps_noMemory hs rfl rfl

theorem addAtIndex_keeps {object : P} {anIndex : ℕ}
    (h : s.Proper (.addAtIndex object anIndex, memory)) :
    s.Keeps (.addAtIndex object anIndex, memory) (s.addAtIndex object anIndex memory) := by
  unfold addAtIndex
  obtain ⟨hne, hvalid⟩ := h
  have hspace := hs.space_lt
  have hle := hs.elements_le
  by_cases hindex : anIndex ≤ s.elements
  · have hlist : (Op.addAtIndex object anIndex).onList s.contents
        = some (s.contents.insertIdx anIndex object, .code 0) :=
      if_pos (by rwa [length_contents])
    have hmod : (s.elements + 1) % 2 ^ 32 = s.elements + 1 :=
      mod_eq_of_lt (by have := hvalid hindex; omega)
    rw [if_neg (by omega)]
    rcases room_for_one memory hs (mod_lt _ (by decide)) (hvalid hindex) with
      ⟨space, hroom, hlt, hr⟩ | ⟨rfl, hr⟩
    · rw [hr]
      unfold whenResized
      dsimp only [bind_some]
      rw [if_pos rfl]
      have helements : (s.elements + 1) % 2 ^ 32 ≤ space := by omega
      by_cases hbefore : anIndex < s.elements
      · have hmove : anIndex + 1 + (s.elements - anIndex) ≤ space
            ∧ anIndex + (s.elements - anIndex) ≤ space := by omega
        unfold move put
        rw [if_pos hbefore, if_pos hmove, bind_some, if_pos (show anIndex < space by omega),
          map_some]
        refine @keeps_done _ _ _ (_, _) _ _ _ hlist ⟨helements, hlt⟩
          (contents_insert hindex hmod (fun i hi => ?_) (update_self ..) fun i hi hi' => ?_)
        · exact (update_of_ne (Nat.ne_of_lt hi) ..).trans (if_neg (by omega))
        · refine (update_of_ne (ne_of_gt hi) ..).trans ((if_pos (by omega)).trans ?_)
          show s.array (anIndex + (i - (anIndex + 1))) = _
          congr 1
          omega
      · unfold put
        rw [if_neg hbefore, bind_some, if_pos (show anIndex < space by omega),
          map_some]
        refine @keeps_done _ _ _ (_, _) _ _ _ hlist ⟨helements, hlt⟩
          (contents_insert hindex hmod (fun i hi => ?_) (update_self ..) fun i hi hi' => ?_)
        · exact update_of_ne (Nat.ne_of_lt hi) ..
        · omega
    · rw [hr]
      exact keeps_noMemory hs hlist rfl
  · have hlist : (Op.addAtIndex object anIndex).onList s.contents = none :=
      if_neg (by rwa [length_contents])
    have hmod := mod_le (s.elements + 1) (2 ^ 32)
    rw [if_pos (by omega)]
    exact keeps_failed hs hlist rfl

theorem appendArray_keeps {otherArray : ETCArray P}
    (h : s.Proper (.appendArray otherArray, memory)) :
    s.Keeps (.appendArray otherArray, memory) (s.appendArray mix otherArray memory) := by
  have hzero : otherArray.elements = 0 := h
  have hspace := hs.space_lt
  have hle := hs.elements_le
  have hsum : (s.elements + otherArray.elements) % 2 ^ 32 = s.elements := by
    rw [hzero]
    exact mod_eq_of_lt (by omega)
  have hnil : otherArray.contents = [] := by
    rw [contents, hzero]
    rfl
  unfold appendArray whenResized
  dsimp only
  rw [hsum, hzero, if_neg (not_lt.2 hle), bind_some]
  dsimp only
  rw [if_pos rfl]
  have hroom : s.elements * sizeofPointer + 0 ≤ s.space * sizeofPointer :=
    mul_le_mul_right sizeofPointer hle
  unfold copyBytes
  dsimp only
  rw [if_pos hroom, map_some]
  refine @keeps_done _ _ _ (_, _) _ _ _ rfl ⟨hle, hspace⟩ ?_
  rw [hnil, append_nil]
  refine contents_eq (@length_contents _ s).symm fun i hi => ?_
  rw [length_contents] at hi
  rw [getElem_contents]
  refine (if_neg ?_).trans (if_neg ?_)
  · rintro ⟨hge, -⟩
    omega
  · rintro ⟨-, hne⟩
    exact hne rfl

theorem objectAtIndex_keeps (anIndex : ℕ) : s.Keeps (.objectAtIndex anIndex, memory)
    (some (s, .object (s.objectAtIndex anIndex))) := by
  unfold objectAtIndex
  by_cases hindex : anIndex < s.elements
  · have hlist : (Op.objectAtIndex anIndex).onList s.contents
        = some (s.contents, .object (some (s.array anIndex))) := by
      show s.contents[anIndex]?.map _ = _
      rw [getElem?_eq_getElem (by rwa [length_contents]), getElem_contents]
      rfl
    rw [if_neg (not_le.2 hindex)]
    exact @keeps_done _ _ _ (_, _) _ _ _ hlist hs rfl
  · have hlist : (Op.objectAtIndex anIndex).onList s.contents = none := by
      show s.contents[anIndex]?.map _ = _
      rw [getElem?_eq_none (by rw [length_contents]; exact not_lt.1 hindex)]
      rfl
    rw [if_pos (not_lt.1 hindex)]
    exact @keeps_failed _ _ _ hs (_, _) _ hlist rfl

theorem swap_keeps (index1 index2 : ℕ) :
    s.Keeps (.swap index1 index2, memory) (some (s.swap index1 index2)) := by
  unfold swap
  by_cases hindex : index1 < s.contents.length ∧ index2 < s.contents.length
  · have hlist : (Op.swap index1 index2).onList s.contents
        = some ((s.contents.set index1 (s.array index2)).set index2 (s.array index1), .code 0) := by
      refine (dif_pos hindex).trans ?_
      rw [getElem_contents, getElem_contents]
    have hlt := hindex
    rw [length_contents] at hlt
    rw [if_neg (by omega)]
    refine @keeps_done _ _ _ (_, _) _ _ _ hlist ⟨hs.elements_le, hs.space_lt⟩ ?_
    refine contents_eq (by simp) fun i hi => ?_
    rw [getElem_set, getElem_set]
    show update (update s.array index1 _) index2 _ i = _
    split_ifs with h2 h1
    · rw [← h2, update_self]
    · rw [← h1, update_of_ne (fun heq => h2 (h1 ▸ heq.symm)), update_self]
    · rw [update_of_ne (Ne.symm h2), update_of_ne (Ne.symm h1), getElem_contents]
  · have hlist : (Op.swap index1 index2).onList s.contents = none := dif_neg hindex
    rw [length_contents] at hindex
    rw [if_pos (by omega)]
    exact @keeps_failed _ _ _ hs (_, _) _ hlist rfl

theorem removeLastObject_keeps : s.Keeps (.removeLastObject, memory) (some s.removeLastObject) := by
  unfold removeLastObject
  have hle := hs.elements_le
  by_cases hpos : s.elements > 0
  · have hne : s.contents ≠ [] := ne_nil_of_length_pos (by rwa [length_contents])
    have hlist : (Op.removeLastObject : Op P).onList s.contents
        = some (s.contents.dropLast, .code 0) := if_neg hne
    rw [if_pos hpos]
    refine @keeps_done _ _ _ (_, _) _ _ _ hlist ⟨?_, hs.space_lt⟩ ?_
    · show s.elements - 1 ≤ s.space
      omega
    · refine contents_eq (by simp) fun i hi => ?_
      rw [getElem_dropLast, getElem_contents]
  · have hnil : s.contents = [] := length_eq_zero_iff.1 (by rw [length_contents]; omega)
    have hlist : (Op.removeLastObject : Op P).onList s.contents = none := if_pos hnil
    rw [if_neg hpos]
    exact @keeps_failed _ _ _ hs (_, _) _ hlist rfl

theorem removeObjectAtIndex_keeps {anIndex : ℕ}
    (h : s.Proper (.removeObjectAtIndex anIndex, memory)) :
    s.Keeps (.removeObjectAtIndex anIndex, memory) (s.removeObjectAtIndex anIndex) := by
  have hproper : anIndex ≠ s.elements ∨ s.elements = 0 := h
  have hle := hs.elements_le
  unfold removeObjectAtIndex
  by_cases hindex : anIndex < s.elements
  · have hlist : (Op.removeObjectAtIndex anIndex : Op P).onList s.contents
        = some (s.contents.eraseIdx anIndex, .code 0) := if_pos (by rwa [length_contents])
    have hmove : anIndex + (s.elements - (anIndex + 1)) ≤ s.space
        ∧ anIndex + 1 + (s.elements - (anIndex + 1)) ≤ s.space := by omega
    rw [if_neg (by omega), if_neg (by omega), if_pos hindex]
    unfold move
    rw [if_pos hmove, map_some]
    refine @keeps_done _ _ _ (_, _) _ _ _ hlist ⟨?_, hs.space_lt⟩
      (contents_erase hindex rfl (fun i hi => ?_) fun i hi hi' => ?_)
    · show s.elements - 1 ≤ s.space
      omega
    · exact if_neg (by omega)
    · refine (if_pos (by omega)).trans ?_
      congr 1
      omega
  · have hlist : (Op.removeObjectAtIndex anIndex : Op P).onList s.contents = none :=
      if_neg (by rwa [length_contents])
    by_cases hgt : anIndex > s.elements
    · rw [if_pos hgt]
      exact @keeps_failed _ _ _ hs (_, _) _ hlist rfl
    · rw [if_neg hgt, if_pos (by omega)]
      exact @keeps_failed _ _ _ hs (_, _) _ hlist rfl

omit hs [DecidableEq P] in
theorem findIdx_contents (p : P → Bool) : ∀ n : ℕ,
    ((range n).map s.array).findIdx? p = (range n).find? fun i => p (s.array i)
  | 0 => rfl
  | n + 1 => by
    rw [range_succ, map_append, findIdx?_append, findIdx_contents p n,
      find?_append]
    cases h : p (s.array n) <;> simp [h]

theorem indexOf_keeps {object : P} (h : s.Proper (.indexOfObjectIdenticalTo object, memory)) :
    s.Keeps (.indexOfObjectIdenticalTo object, memory)
      (some (s, .code (s.indexOfObjectIdenticalTo object))) := by
  have hlt : s.elements < 2 ^ 31 := h
  have hindex : s.indexOfObjectIdenticalTo object
      = match s.contents.findIdx? (· = object) with
        | some i => (i : ℤ)
        | none => -1 := by
    have hsymm : (fun i => decide (object = s.array i)) = fun i => decide (s.array i = object) :=
      funext fun i => decide_eq_decide.2 eq_comm
    have hfound : (range (if s.elements < 2 ^ 31 then s.elements else 0)).find?
        (fun i => object = s.array i) = s.contents.findIdx? (· = object) := by
      rw [if_pos hlt, contents, findIdx_contents, hsymm]
    exact congrArg (fun found : Option ℕ => match found with
      | some i => (i : ℤ)
      | none => -1) hfound
  have hlist : (Op.indexOfObjectIdenticalTo object).onList s.contents
      = some (s.contents, .code (s.indexOfObjectIdenticalTo object)) := by
    rw [hindex]
    rfl
  exact @keeps_done _ _ _ (_, _) _ _ _ hlist hs rfl

theorem perform_keeps : ∀ {call : Op P × Bool}, s.Proper call → s.Keeps call (s.perform mix call)
  | (.add _, _), h => add_keeps hs h
  | (.addAtIndex _ _, _), h => addAtIndex_keeps hs h
  | (.appendArray _, _), h => appendArray_keeps hs h
  | (.objectAtIndex anIndex, _), _ => objectAtIndex_keeps hs anIndex
  | (.swap index1 index2, _), _ => swap_keeps hs index1 index2
  | (.removeObjectAtIndex _, _), h => removeObjectAtIndex_keeps hs h
  | (.removeLastObject, _), _ => removeLastObject_keeps hs
  | (.removeAllObjects, _), _ =>
    @keeps_done _ _ _ (_, _) { s with elements := 0 } [] _ rfl ⟨zero_le _, hs.space_lt⟩ rfl
  | (.indexOfObjectIdenticalTo _, _), h => indexOf_keeps hs h
  | (.count, _), _ =>
    @keeps_done _ _ _ (_, _) s s.contents (.count s.elements)
      (by rw [← @length_contents _ s]; rfl) hs rfl

end Operations

theorem refines_of_proper [DecidableEq P] (mix : ℕ → P → P → P) (array : ℕ → P)
    (initialSize : UInt32) (calls : List (Op P × Bool))
    (h : Along (step · mix ·) Proper (newWithInitialSize array initialSize.toNat) calls) :
    Along (step · mix ·) (Refines mix) (newWithInitialSize array initialSize.toNat) calls := by
  refine Along.of_invariant (I := Inv) (fun s call hs hproper => ?_)
    ⟨zero_le _, initialSize.toNat_lt⟩ h
  obtain ⟨t, answer, hperform, ht, hagrees⟩ := @perform_keeps _ s mix _ hs call hproper
  refine ⟨⟨t, answer, hperform, ht.elements_le, hagrees⟩, ?_⟩
  unfold step
  rw [hperform]
  exact ht

def overwritten (_ : ℕ) (new _old : ℕ) : ℕ := new

def growing : List (Op ℕ × Bool) :=
  [(.add 5, true), (.addAtIndex 4 0, true), (.addAtIndex 3 9, true), (.removeObjectAtIndex 1, true),
    (.objectAtIndex 1, true), (.add 6, false)]

theorem growing_refines : Along (step · overwritten ·) (Refines overwritten)
    (newWithInitialSize (fun _ => 0) (1 : UInt32).toNat) growing :=
  refines_of_proper overwritten (fun _ => 0) 1 growing (by decide)

/-- The index behind the last element is taken for the one of the last. -/
theorem removeBehind_not_refines : ¬ Along (step · overwritten ·) (Refines overwritten)
    (newWithInitialSize (fun _ => 0) 8) [(.add 5, true), (.removeObjectAtIndex 1, true)] := by
  rintro ⟨-, ⟨t, answer, hperform, -, hagrees⟩, -⟩
  cases hperform
  exact Bool.noConfusion hagrees.2

end Etoile.EtoileFoundation.ETCArray
