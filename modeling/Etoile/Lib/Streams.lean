import Mathlib.Data.List.TakeDrop

/-!
# Buffered streams

A file is a list, and a stream writes into it at a position of its own.  What is written stays
pending for a while: which part of it reaches the file with a write is up to the stream.
-/

namespace Etoile

open List

variable {α : Type*} [Inhabited α]

/-- A file after `written` has been put at a location; a gap before it is filled. -/
def overlay (file : List α) (location : ℕ) (written : List α) : List α :=
  if written = [] then file
  else file.take location ++ replicate (location - file.length) default ++ written
    ++ file.drop (location + written.length)

section Overlay

variable {file written : List α} {location : ℕ}

@[simp] theorem overlay_nil : overlay file location [] = file := if_pos rfl

theorem overlay_of_ne (h : written ≠ []) : overlay file location written
    = file.take location ++ replicate (location - file.length) default ++ written
      ++ file.drop (location + written.length) := if_neg h

theorem length_overlay (h : written ≠ []) :
    (overlay file location written).length = max file.length (location + written.length) := by
  rw [overlay_of_ne h]
  simp only [length_append, length_take, length_replicate, length_drop]
  omega

theorem overlay_length : overlay file file.length written = file ++ written := by
  by_cases h : written = []
  · simp [h]
  · rw [overlay_of_ne h]
    simp

theorem overlay_of_le (h : location ≤ file.length) : overlay file location written
    = file.take location ++ written ++ file.drop (location + written.length) := by
  by_cases hw : written = []
  · simp [hw]
  · rw [overlay_of_ne hw, Nat.sub_eq_zero_of_le h]
    simp

theorem overlay_append (written' : List α) : overlay file location (written ++ written')
    = overlay (overlay file location written) (location + written.length) written' := by
  by_cases hw : written = []
  · simp [hw]
  by_cases hw' : written' = []
  · simp [hw']
  have hhead : (file.take location ++ replicate (location - file.length) default
      ++ written).length = location + written.length := by
    simp only [length_append, length_take, length_replicate]
    omega
  rw [overlay_of_ne hw, overlay_of_ne (by simp [hw]), ← append_assoc _ written written']
  generalize file.take location ++ replicate (location - file.length) default
    ++ written = head at hhead ⊢
  have hdrop : (head ++ file.drop (location + written.length)).drop
      (location + written.length + written'.length)
        = file.drop (location + (written ++ written').length) := by
    rw [← hhead, length_append, ← Nat.add_assoc, ← hhead, drop_length_add_append,
      drop_drop]
  rw [overlay_of_le (by simp [hhead]), hdrop, ← hhead, take_left]

theorem overlay_eq_append_iff :
    overlay file location written = file ++ written ↔ written = [] ∨ location = file.length := by
  constructor
  · intro h
    by_cases hw : written = []
    · exact .inl hw
    · have hlen := congrArg length h
      rw [length_overlay hw, length_append] at hlen
      have := length_pos_iff.2 hw
      omega
  · rintro (rfl | rfl)
    · simp
    · exact overlay_length

theorem overlay_eq_replace_iff : overlay file location written
    = file.take location ++ written ++ file.drop (location + written.length)
      ↔ written = [] ∨ location ≤ file.length := by
  constructor
  · intro h
    by_cases hw : written = []
    · exact .inl hw
    · have hlen := congrArg length h
      rw [length_overlay hw] at hlen
      simp only [length_append, length_take, length_drop] at hlen
      omega
  · rintro (rfl | h)
    · simp
    · exact overlay_of_le h

end Overlay

/-- A stream, with what is pending for its file and where that goes. -/
structure Stream (α : Type*) where
  location : ℕ := 0
  pending : List α := []

namespace Stream

variable (f : Stream α) (file : List α)

def contents : List α := overlay file f.location f.pending

def position : ℕ := f.location + f.pending.length

/-- The first `n` of what is pending reach the file. -/
def drain (n : ℕ) : List α × Stream α :=
  (overlay file f.location (f.pending.take n),
    ⟨f.location + (f.pending.take n).length, f.pending.drop n⟩)

/-- A write, after which as much reaches the file as `drained` says. -/
def write (drained : List α → ℕ) (written : List α) : List α × Stream α :=
  { f with pending := f.pending ++ written }.drain file (drained (f.pending ++ written))

/-- Another position, before which all that is pending reaches the file. -/
def seek (location : ℕ) : List α × Stream α := (f.contents file, ⟨location, []⟩)

variable {f file}

@[simp] theorem contents_drain (n : ℕ) :
    (f.drain file n).2.contents (f.drain file n).1 = f.contents file := by
  show overlay (overlay file _ _) _ _ = overlay file _ _
  rw [drain, ← overlay_append, take_append_drop]

@[simp] theorem contents_write (drained : List α → ℕ) (written : List α) :
    (f.write file drained written).2.contents (f.write file drained written).1
      = overlay (f.contents file) f.position written := by
  unfold write
  rw [contents_drain]
  exact overlay_append written

@[simp] theorem contents_seek (location : ℕ) :
    (f.seek file location).2.contents (f.seek file location).1 = f.contents file := overlay_nil

end Stream

end Etoile
