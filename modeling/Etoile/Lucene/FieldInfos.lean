import Etoile.Lucene.StreamValues
import Mathlib.Data.List.Forall2
import Mathlib.Data.List.Induction

/-!
# Field infos

The fields of a segment have numbers, in the order in which they were first added, and flags.  A
flag of a field that is added again is merged with that of the field so far.
-/

namespace Etoile.Lucene

open List

namespace Stored

structure Flags where
  isIndexed : Bool
  storeTermVector : Bool
  storePositionWithTermVector : Bool
  storeOffsetWithTermVector : Bool
  omitNorms : Bool

namespace Flags

def merge (fi new : Flags) : Flags where
  isIndexed := if fi.isIndexed ≠ new.isIndexed then true else fi.isIndexed
  storeTermVector := if fi.storeTermVector ≠ new.storeTermVector then true else fi.storeTermVector
  storePositionWithTermVector :=
    if fi.storePositionWithTermVector ≠ new.storePositionWithTermVector then true
    else fi.storePositionWithTermVector
  storeOffsetWithTermVector :=
    if fi.storeOffsetWithTermVector ≠ new.storeOffsetWithTermVector then true
    else fi.storeOffsetWithTermVector
  omitNorms := if fi.omitNorms ≠ new.omitNorms then false else fi.omitNorms

/-- `IS_INDEXED`, `STORE_TERMVECTOR`, `STORE_POSITIONS_WITH_TERMVECTOR`,
`STORE_OFFSET_WITH_TERMVECTOR` and `OMIT_NORMS`. -/
def bits (f : Flags) : UInt8 :=
  (if f.isIndexed then 0x1 else 0) ||| (if f.storeTermVector then 0x2 else 0)
    ||| (if f.storePositionWithTermVector then 0x4 else 0)
    ||| (if f.storeOffsetWithTermVector then 0x8 else 0) ||| (if f.omitNorms then 0x10 else 0)

def ofBits (bits : UInt8) : Flags where
  isIndexed := bits &&& 0x1 ≠ 0
  storeTermVector := bits &&& 0x2 ≠ 0
  storePositionWithTermVector := bits &&& 0x4 ≠ 0
  storeOffsetWithTermVector := bits &&& 0x8 ≠ 0
  omitNorms := bits &&& 0x10 ≠ 0

theorem ofBits_bits (f : Flags) : ofBits f.bits = f := by
  rcases f with ⟨i, v, p, o, n⟩
  cases i <;> cases v <;> cases p <;> cases o <;> cases n <;> rfl

/-- Flags that are set once are set, norms that are kept once are kept. -/
def union (l : List Flags) : Flags where
  isIndexed := l.any (·.isIndexed)
  storeTermVector := l.any (·.storeTermVector)
  storePositionWithTermVector := l.any (·.storePositionWithTermVector)
  storeOffsetWithTermVector := l.any (·.storeOffsetWithTermVector)
  omitNorms := l.all (·.omitNorms)

theorem union_singleton (f : Flags) : union [f] = f := by
  simp [union]

theorem once_set (a b : Bool) : (if a ≠ b then true else a) = (a || b) := by
  cases a <;> cases b <;> rfl

theorem once_kept (a b : Bool) : (if a ≠ b then false else a) = (a && b) := by
  cases a <;> cases b <;> rfl

theorem merge_union (l : List Flags) (f : Flags) : (union l).merge f = union (l ++ [f]) := by
  simp only [union, merge, any_append, any_cons, any_nil, Bool.or_false,
    all_append, all_cons, all_nil, Bool.and_true, Flags.mk.injEq]
  exact ⟨once_set _ _, once_set _ _, once_set _ _, once_set _ _, once_kept _ _⟩

end Flags

structure FieldInfo where
  name : NSString
  number : ℕ
  flags : Flags

structure FieldInfos where
  byNumber : List FieldInfo
  nodup : (byNumber.map (·.name)).Nodup
  numbers : byNumber.map (·.number) = range byNumber.length

namespace FieldInfos

def empty : FieldInfos where
  byNumber := []
  nodup := nodup_nil
  numbers := rfl

variable (infos : FieldInfos)

/-- `[byName objectForKey: name]`. -/
def fieldInfo (name : NSString) : Option FieldInfo := infos.byNumber.find? (·.name = name)

def fieldNumber (name : NSString) : ℤ :=
  match infos.fieldInfo name with
  | some fi => fi.number
  | none => -1

def fieldName (number : ℤ) : NSString :=
  ((objectAtIndex infos.byNumber number).map (·.name)).getD []

theorem fieldInfo_eq_none_iff {infos : FieldInfos} {name : NSString} :
    infos.fieldInfo name = none ↔ name ∉ infos.byNumber.map (·.name) := by
  simp [fieldInfo]

def addInternal (name : NSString) (flags : Flags) (h : infos.fieldInfo name = none) :
    FieldInfos where
  byNumber := infos.byNumber ++ [⟨name, infos.byNumber.length, flags⟩]
  nodup := by
    rw [map_append]
    refine nodup_append.2 ⟨infos.nodup, by simp, ?_⟩
    rintro a ha b hb rfl
    rw [mem_singleton.1 hb] at ha
    exact fieldInfo_eq_none_iff.1 h ha
  numbers := by
    simp [infos.numbers, range_succ]

def mergeFlags (name : NSString) (flags : Flags) : FieldInfos where
  byNumber := infos.byNumber.map fun fi =>
    if fi.name = name then { fi with flags := fi.flags.merge flags } else fi
  nodup := by
    have hnames : ((fun fi : FieldInfo => fi.name) ∘ fun fi =>
        if fi.name = name then { fi with flags := fi.flags.merge flags } else fi)
          = fun fi => fi.name := by
      funext fi
      simp only [Function.comp_apply]
      split_ifs <;> rfl
    rw [map_map, hnames]
    exact infos.nodup
  numbers := by
    have hnumbers : ((fun fi : FieldInfo => fi.number) ∘ fun fi =>
        if fi.name = name then { fi with flags := fi.flags.merge flags } else fi)
          = fun fi => fi.number := by
      funext fi
      simp only [Function.comp_apply]
      split_ifs <;> rfl
    rw [map_map, hnumbers, length_map]
    exact infos.numbers

def addName (name : NSString) (flags : Flags) : FieldInfos :=
  match h : infos.fieldInfo name with
  | none => infos.addInternal name flags h
  | some _ => infos.mergeFlags name flags

def addAll (infos : FieldInfos) (additions : List (NSString × Flags)) : FieldInfos :=
  additions.foldl (fun infos a => infos.addName a.1 a.2) infos

section Additions

variable {infos : FieldInfos} {name name' : NSString} {flags : Flags}
  {additions : List (NSString × Flags)}

theorem number_getElem {k : ℕ} (hk : k < infos.byNumber.length) : infos.byNumber[k].number = k := by
  have h := congrArg (·[k]?) infos.numbers
  simpa [hk] using h

def flagsOf (infos : FieldInfos) (name : NSString) : Option Flags :=
  (infos.fieldInfo name).map (·.flags)

theorem fieldInfo_addInternal (h : infos.fieldInfo name = none) :
    (infos.addInternal name flags h).fieldInfo name'
      = if name = name' then some ⟨name, infos.byNumber.length, flags⟩
        else infos.fieldInfo name' := by
  simp only [fieldInfo, addInternal, find?_append]
  by_cases hname : name = name'
  · subst hname
    rw [fieldInfo] at h
    simp [h]
  · simp [hname]

theorem fieldInfo_mergeFlags : (infos.mergeFlags name flags).fieldInfo name'
    = (infos.fieldInfo name').map fun fi =>
      if fi.name = name then { fi with flags := fi.flags.merge flags } else fi := by
  rw [fieldInfo, mergeFlags, find?_map, fieldInfo]
  congr 2
  funext fi
  simp only [Function.comp_apply]
  split_ifs <;> rfl

theorem name_of_fieldInfo {fi : FieldInfo} (h : infos.fieldInfo name = some fi) :
    fi.name = name := by
  simpa using find?_some h

theorem objectAtIndex_number {fi : FieldInfo} (h : infos.fieldInfo name = some fi) :
    infos.fieldNumber name = fi.number ∧ fi.number < infos.byNumber.length
      ∧ objectAtIndex infos.byNumber fi.number = some fi := by
  obtain ⟨k, hk, rfl⟩ := getElem_of_mem (mem_of_find?_eq_some h)
  rw [number_getElem hk]
  refine ⟨?_, hk, getElem?_eq_getElem hk⟩
  rw [fieldNumber, h]
  exact congrArg _ (number_getElem hk)

theorem fieldName_of_fieldNumber {k : ℕ} (h : infos.fieldNumber name = k) :
    infos.fieldName k = name := by
  rcases hfi : infos.fieldInfo name with _ | fi
  · rw [fieldNumber, hfi] at h
    cases h
  · obtain ⟨hnumber, -, hobject⟩ := objectAtIndex_number hfi
    rw [h] at hnumber
    rw [fieldName, hnumber, hobject]
    exact name_of_fieldInfo hfi

theorem flagsOf_addName : (infos.addName name flags).flagsOf name'
    = if name = name' then some (((infos.flagsOf name).map (·.merge flags)).getD flags)
      else infos.flagsOf name' := by
  simp only [flagsOf, addName]
  split <;> rename_i h
  · rw [fieldInfo_addInternal, h]
    split_ifs <;> rfl
  · rename_i fi
    rw [fieldInfo_mergeFlags, h]
    by_cases hname : name = name'
    · subst hname
      simp [h, name_of_fieldInfo h]
    · rw [if_neg hname]
      rcases h' : infos.fieldInfo name' with _ | fi'
      · rfl
      · have hne : fi'.name ≠ name := by
          rw [name_of_fieldInfo h']
          exact Ne.symm hname
        simp [hne]

def added (additions : List (NSString × Flags)) (name : NSString) : List Flags :=
  (additions.filter (·.1 = name)).map (·.2)

theorem added_append_self (a : NSString × Flags) :
    added (additions ++ [a]) a.1 = added additions a.1 ++ [a.2] := by
  simp [added]

theorem added_append_of_ne {a : NSString × Flags} (h : a.1 ≠ name) :
    added (additions ++ [a]) name = added additions name := by
  simp [added, h]

theorem addAll_concat (a : NSString × Flags) :
    infos.addAll (additions ++ [a]) = (infos.addAll additions).addName a.1 a.2 := by
  simp [addAll]

theorem flagsOf_addAll (additions : List (NSString × Flags)) (name : NSString) :
    (empty.addAll additions).flagsOf name
      = if added additions name = [] then none else some (Flags.union (added additions name)) := by
  induction additions using reverseRecOn with
  | nil => rfl
  | append_singleton additions a ih =>
    rw [addAll_concat, flagsOf_addName, ih]
    by_cases hname : a.1 = name
    · subst hname
      rw [if_pos rfl, added_append_self, ih]
      rcases hadded : added additions a.1 with _ | ⟨f, fs⟩
      · simp [Flags.union_singleton]
      · simp [Flags.merge_union]
    · rw [if_neg hname, added_append_of_ne hname]

theorem number_addName {fi : FieldInfo} (h : infos.fieldInfo name = some fi) :
    ∃ fi', (infos.addName name' flags).fieldInfo name = some fi' ∧ fi'.number = fi.number := by
  rw [addName]
  split <;> rename_i h'
  · rw [fieldInfo_addInternal]
    split_ifs with hname
    · subst hname
      rw [h'] at h
      cases h
    · exact ⟨fi, h, rfl⟩
  · rw [fieldInfo_mergeFlags, h]
    refine ⟨_, rfl, ?_⟩
    simp only
    split_ifs <;> rfl

theorem number_addAll : ∀ {additions : List (NSString × Flags)} {infos : FieldInfos}
    {fi : FieldInfo}, infos.fieldInfo name = some fi →
      ∃ fi', (infos.addAll additions).fieldInfo name = some fi' ∧ fi'.number = fi.number
  | [], _, fi, h => ⟨fi, h, rfl⟩
  | a :: additions, infos, fi, h => by
    obtain ⟨fi₁, h₁, hnumber₁⟩ := @number_addName infos name a.1 a.2 fi h
    obtain ⟨fi', h', hnumber'⟩ := @number_addAll additions _ _ h₁
    exact ⟨fi', h', hnumber'.trans hnumber₁⟩

end Additions

end FieldInfos

namespace FieldInfo

def write (fi : FieldInfo) : List UInt8 := IndexOutput.writeString fi.name ++ [fi.flags.bits]

def read : Reader (NSString × Flags) := do
  let name ← IndexInput.readString
  let bits ← Reader.byte
  return (name, Flags.ofBits bits)

variable {fi : FieldInfo}

theorem reads_write (h : fi.name.length < 2 ^ 31) : Reads read fi.write (fi.name, fi.flags) := by
  have hbits := (Reads.byte fi.flags.bits).bind_pure (f := fun bits => (fi.name, Flags.ofBits bits))
  rw [Flags.ofBits_bits] at hbits
  exact (reads_writeString_of_length h).bind hbits

theorem length_name_of_read {e : NSString × Flags} {rest rest' : List UInt8}
    (h : read (fi.write ++ rest) = some (e, rest')) (hname : e.1 = fi.name) :
    fi.name.length < 2 ^ 31 := by
  obtain ⟨name, l, hread, hrest⟩ := Reader.bind_eq_some_iff.1 h
  obtain ⟨bits, l', -, hlast⟩ := Reader.bind_eq_some_iff.1 hrest
  obtain ⟨rfl, -⟩ := Prod.mk.inj (Option.some.inj hlast)
  obtain rfl : name = fi.name := hname
  rw [write, append_assoc] at hread
  exact (readString_writeString_iff _ _).1 ⟨_, hread⟩

end FieldInfo

namespace FieldInfos

def write (infos : FieldInfos) : List UInt8 :=
  let size := IndexOutput.ofLength infos.byNumber.length
  IndexOutput.writeVInt size ++ (infos.byNumber.take size.toNat).flatMap FieldInfo.write

/-- What `-addInternal:…` makes of the entries; a name of two of them is that of the last. -/
def read : Reader (List FieldInfo) := do
  let size ← readVInt
  let entries ← FieldInfo.read.times size.toNat
  return entries.mapIdx fun number e => ⟨e.1, number, e.2⟩

variable {infos : FieldInfos}

theorem mapIdx_entries : ((infos.byNumber.map fun fi => (fi.name, fi.flags)).mapIdx
    fun number e => (⟨e.1, number, e.2⟩ : FieldInfo)) = infos.byNumber := by
  refine ext_getElem (by simp) fun k hk hk' => ?_
  have hnumber := number_getElem hk'
  rw [getElem_mapIdx, getElem_map]
  generalize infos.byNumber[k] = fi at hnumber ⊢
  cases hnumber
  rfl

/-- The file of the fields is read back, if and only if the number of the fields and the lengths of
their names are those of an `int`. -/
theorem read_write_iff : (∃ rest, read infos.write = some (infos.byNumber, rest))
    ↔ infos.byNumber.length < 2 ^ 31 ∧ ∀ fi ∈ infos.byNumber, fi.name.length < 2 ^ 31 := by
  have hcases := IndexOutput.ofLength_cases infos.byNumber.length
  have hsize := IndexOutput.reads_ofLength infos.byNumber.length
  constructor
  · rintro ⟨rest, h⟩
    rw [read, write, hsize.bind_apply] at h
    obtain ⟨entries, l, hentries, hlast⟩ := Reader.bind_eq_some_iff.1 h
    obtain ⟨hinfos, -⟩ := Prod.mk.inj (Option.some.inj hlast)
    have hlength := congrArg length hinfos
    rw [length_mapIdx, Reader.length_of_times hentries] at hlength
    rw [hlength, take_length, ← append_nil (infos.byNumber.flatMap _)] at hentries
    refine ⟨by omega, Reader.forall_of_times
      (fun fi _ e l l' hread (hname : e.1 = fi.name) => FieldInfo.length_name_of_read hread hname)
      (fun fi _ hname => ⟨_, FieldInfo.reads_write hname⟩) hentries ?_⟩
    rw [← hinfos, forall₂_iff_get]
    exact ⟨length_mapIdx, fun k hk hk' => by simp⟩
  · rintro ⟨hcount, hnames⟩
    have hlength : (IndexOutput.ofLength infos.byNumber.length).toNat = infos.byNumber.length := by
      omega
    have hentries := Reads.times (fun fi hfi => FieldInfo.reads_write (hnames fi hfi)) []
    rw [append_nil] at hentries
    refine ⟨[], ?_⟩
    rw [read, write, hsize.bind_apply, hlength, take_length]
    exact Reader.bind_eq_some_iff.2 ⟨_, _, hentries, by rw [mapIdx_entries]; rfl⟩

end FieldInfos

end Stored

end Etoile.Lucene
