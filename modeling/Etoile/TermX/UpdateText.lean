import Mathlib.Data.List.Basic
import Etoile.TermX.TXTextView

/-!
# The colours of the rows

The rows that are kept for display.  What depends on the display is not known: the characters that
bytes stand for, and the colours.
-/

namespace Etoile.TermX

open List Option

structure Cell where
  chars : UInt8
  fg : UInt8
  bg : UInt8

/-- A character of an attributed string. -/
structure Attributed (χ κ : Type) where
  char : χ
  foreground : κ
  background : κ

structure Display (χ κ : Type) where
  /-- `-initWithBytes:length:encoding:`. -/
  initWithBytes : List UInt8 → Option (List χ)
  character : UInt8 → χ
  whiteColor : κ
  blackColor : κ
  color : ℤ → κ

variable {χ κ : Type} (D : Display χ κ)

/-- The row is read as `char`, and then as `unsigned int`. -/
def colorIndex (b : UInt8) : ℤ := uint (char b.toNat)

def Display.colorAtIndex (index : ℤ) : Option κ :=
  if 0 ≤ index ∧ index < 256 then some (D.color index) else none

/-- The characters from `location` on that have one colour. -/
structure ColorRun (κ : Type) where
  color : Option κ
  cur : ℤ
  location : ℕ
  length : ℕ

/-- The state of the loop over the columns. -/
structure Coloring (χ κ : Type) where
  c : ℕ
  fg : ColorRun κ
  bg : ColorRun κ
  as : List (Attributed χ κ)

/-- `-addAttribute:value:range:`. -/
def addAttribute (set : Attributed χ κ → Attributed χ κ) (location length : ℕ)
    (as : List (Attributed χ κ)) : Option (List (Attributed χ κ)) :=
  if location + length ≤ as.length then
    some (as.mapIdx fun i a => if location ≤ i ∧ i < location + length then set a else a)
  else none

/-- The first colour of the row is looked up where there is none. -/
def ColorRun.start (run : ColorRun κ) (b : UInt8) : Option (ColorRun κ) :=
  match run.color with
  | some _ => some run
  | none => (D.colorAtIndex (colorIndex b)).map fun color =>
      { run with color := some color, cur := colorIndex b }

/-- The run ends at a column, where the next one starts. -/
def ColorRun.flush (set : κ → Attributed χ κ → Attributed χ κ) (c : ℕ) (b : UInt8)
    (run : ColorRun κ) (as : List (Attributed χ κ)) :
    Option (ColorRun κ × List (Attributed χ κ)) :=
  (D.colorAtIndex run.cur).bind fun color =>
    (addAttribute (set color) run.location
      (if run.location + run.length > as.length then as.length - run.location else run.length)
      as).map fun as => (⟨some color, colorIndex b, c, 1⟩, as)

/-- One turn of the loop; the last column is assigned where it is to be compared. -/
def colorColumn (row : List Cell) (s : Coloring χ κ) : Option (Coloring χ κ) :=
  row[s.c]?.bind fun cell =>
  (s.fg.start D cell.fg).bind fun fg =>
  (s.bg.start D cell.bg).bind fun bg =>
  (if fg.cur ≠ colorIndex cell.fg ∨ s.c = row.length - 1 then
      fg.flush D (fun color a => { a with foreground := color }) s.c cell.fg s.as
    else some ({ fg with length := fg.length + 1 }, s.as)).bind fun (fg, as) =>
  if bg.cur ≠ colorIndex cell.bg then
    (bg.flush D (fun color a => { a with background := color }) s.c cell.bg as).map
      fun (bg, as) => ⟨s.c, fg, bg, as⟩
  else
    let c := row.length - 1
    if c ≠ 0 then
      row[c]?.bind fun cell =>
      (bg.flush D (fun color a => { a with background := color }) c cell.bg as).map
        fun (bg, as) => ⟨c, fg, bg, as⟩
    else some ⟨c, fg, { bg with length := bg.length + 1 }, as⟩

/-- The loop, for a number of turns; it fails where there are more. -/
def colorColumns (row : List Cell) : ℕ → Coloring χ κ → Option (Coloring χ κ)
  | 0, _ => none
  | n + 1, s =>
    if s.c < row.length then
      (colorColumn D row s).bind fun s => colorColumns row n { s with c := s.c + 1 }
    else some s

/-- What a dirty row is replaced by; there are no more turns than columns. -/
def colorRow (row : List Cell) : Option (List (Attributed χ κ)) :=
  (D.initWithBytes (row.map (·.chars))).bind fun s =>
    (colorColumns D row (row.length + 1) ⟨0, ⟨none, 0, 0, 1⟩, ⟨none, 0, 0, 1⟩,
      s.map (⟨·, D.whiteColor, D.blackColor⟩)⟩).map (·.as)

/-- A row of the screen, and the one of `scrollRows`. -/
structure ScrollRow (χ κ : Type) where
  dirty : Bool
  cells : List Cell
  as : List (Attributed χ κ)

/-- `-updateText`, as far as `scrollRows`. -/
def updateText : List (ScrollRow χ κ) → Option (List (List (Attributed χ κ)))
  | [] => some []
  | r :: rows =>
    (if r.dirty then colorRow D r.cells else some r.as).bind fun as =>
      (updateText rows).map (as :: ·)

def Display.rendered (row : List Cell) : List (Attributed χ κ) :=
  row.map fun cell => ⟨D.character cell.chars, D.color cell.fg.toNat, D.color cell.bg.toNat⟩

def Cell.Indexed (cell : Cell) : Prop := cell.fg < 128 ∧ cell.bg < 128

/-- Only the first column gets a colour, which is that of the background, unless it is the only
one: the others are to have the default colours. -/
def Display.Plain : List Cell → Prop
  | [] => True
  | [cell] => cell.Indexed ∧ D.color cell.bg.toNat = D.blackColor
  | cell :: row => cell.Indexed ∧ D.color cell.fg.toNat = D.whiteColor ∧ ∀ other ∈ row,
      D.color other.fg.toNat = D.whiteColor ∧ D.color other.bg.toNat = D.blackColor

/-- Each byte of the row stands for a character. -/
def Display.Decoded (row : List Cell) : Prop :=
  D.initWithBytes (row.map (·.chars)) = some (row.map (D.character ·.chars))

variable {D}

theorem colorIndex_eq {b : UInt8} (h : b < 128) : colorIndex b = b.toNat := by
  have : b.toNat < 128 := h
  unfold colorIndex char uint
  omega

theorem colorAtIndex_colorIndex (b : UInt8) : D.colorAtIndex (colorIndex b)
    = if b < 128 then some (D.color b.toNat) else none := by
  split_ifs with h
  · have : b.toNat < 128 := h
    rw [colorIndex_eq h, Display.colorAtIndex, if_pos (by omega)]
  · have : ¬b.toNat < 128 := h
    have := b.toNat_lt
    refine if_neg ?_
    unfold colorIndex char uint
    omega

theorem start_none (b : UInt8) : ColorRun.start D ⟨none, 0, 0, 1⟩ b
    = if b < 128 then some ⟨some (D.color b.toNat), colorIndex b, 0, 1⟩ else none := by
  simp only [ColorRun.start, colorAtIndex_colorIndex]
  split_ifs <;> rfl

theorem flush_first (set : κ → Attributed χ κ → Attributed χ κ) {color : Option κ} {b : UInt8}
    (hb : b < 128) (c : ℕ) (b' : UInt8) (as : List (Attributed χ κ)) :
    ColorRun.flush D set c b' ⟨color, colorIndex b, 0, 1⟩ as
      = some (⟨some (D.color b.toNat), colorIndex b', c, 1⟩,
        as.modifyHead (set (D.color b.toNat))) := by
  have hmap : ∀ l : List (Attributed χ κ), l.mapIdx (fun _ a => a) = l := fun l => by
    induction l <;> simp_all [mapIdx_cons]
  rcases as with _ | ⟨a, as⟩ <;>
    simp [ColorRun.flush, addAttribute, colorAtIndex_colorIndex, hb, hmap]

/-- The characters in their default colours. -/
def Display.defaults (D : Display χ κ) (s : List χ) : List (Attributed χ κ) :=
  s.map (⟨·, D.whiteColor, D.blackColor⟩)

theorem colorRow_nil : colorRow D [] = (D.initWithBytes []).map D.defaults := by
  rcases h : D.initWithBytes [] <;> simp [colorRow, colorColumns, Display.defaults, h]

theorem colorRow_one {cell : Cell} (hI : cell.Indexed) :
    colorRow D [cell] = (D.initWithBytes [cell.chars]).map fun s =>
      (D.defaults s).modifyHead fun a => { a with foreground := D.color cell.fg.toNat } := by
  rcases h : D.initWithBytes [cell.chars] <;>
    simp [colorRow, colorColumns, colorColumn, start_none, flush_first, hI.1, hI.2, h,
      Display.defaults]

theorem colorRow_cons {cell next : Cell} {row : List Cell} (hI : cell.Indexed) :
    colorRow D (cell :: next :: row)
      = (D.initWithBytes ((cell :: next :: row).map (·.chars))).map fun s =>
        (D.defaults s).modifyHead fun a => { a with background := D.color cell.bg.toNat } := by
  rcases h : D.initWithBytes ((cell :: next :: row).map (·.chars)) with _ | s
  · simp only [colorRow, h, bind_none, map_none]
  · have hlast : (cell :: next :: row)[row.length + 1]? = some ((next :: row)[row.length]) := by simp
    have hcolumn : colorColumn D (cell :: next :: row)
        ⟨0, ⟨none, 0, 0, 1⟩, ⟨none, 0, 0, 1⟩, D.defaults s⟩
        = some ⟨row.length + 1, ⟨some (D.color cell.fg.toNat), colorIndex cell.fg, 0, 2⟩,
          ⟨some (D.color cell.bg.toNat), colorIndex ((next :: row)[row.length]).bg,
            row.length + 1, 1⟩,
          (D.defaults s).modifyHead fun a => { a with background := D.color cell.bg.toNat }⟩ := by
      simp [colorColumn, start_none, flush_first, hI.1, hI.2]
    rw [colorRow, h]
    unfold Display.defaults at hcolumn
    simp [colorColumns, hcolumn, Display.defaults]

theorem colorRow_not_indexed {cell : Cell} {row : List Cell} (hI : ¬cell.Indexed) :
    colorRow D (cell :: row) = none := by
  have hcolumn : ∀ as, colorColumn D (cell :: row)
      ⟨0, ⟨none, 0, 0, 1⟩, ⟨none, 0, 0, 1⟩, as⟩ = none := fun as => by
    simp only [colorColumn, getElem?_cons_zero, bind_some, start_none]
    rcases not_and_or.1 hI with hfg | hbg
    · simp [hfg]
    · rcases Decidable.em (cell.fg < 128) with hfg | hfg <;> simp [hfg, hbg]
  rcases D.initWithBytes ((cell :: row).map (·.chars)) <;> simp [colorRow, colorColumns, hcolumn]

theorem defaults_eq_rendered_iff : ∀ (row : List Cell) (s : List χ),
    D.defaults s = D.rendered row ↔ s = row.map (D.character ·.chars) ∧ ∀ other ∈ row,
      D.color other.fg.toNat = D.whiteColor ∧ D.color other.bg.toNat = D.blackColor
  | [], s => by simp [Display.defaults, Display.rendered]
  | cell :: row, [] => by simp [Display.defaults, Display.rendered]
  | cell :: row, x :: s => by
    have ih := defaults_eq_rendered_iff row s
    simp only [Display.defaults, Display.rendered] at ih ⊢
    simp only [map_cons, cons.injEq, Attributed.mk.injEq, ih, forall_mem_cons]
    constructor
    · rintro ⟨⟨rfl, hfg, hbg⟩, rfl, hrow⟩
      exact ⟨⟨rfl, rfl⟩, ⟨hfg.symm, hbg.symm⟩, hrow⟩
    · rintro ⟨⟨rfl, rfl⟩, ⟨hfg, hbg⟩, hrow⟩
      exact ⟨⟨rfl, hfg.symm, hbg.symm⟩, rfl, hrow⟩

theorem colorRow_eq_rendered_iff : ∀ row : List Cell,
    colorRow D row = some (D.rendered row) ↔ D.Decoded row ∧ D.Plain row
  | [] => by
    rw [colorRow_nil]
    simp [Display.Decoded, Display.Plain, Display.rendered, Display.defaults]
  | [cell] => by
    by_cases hI : cell.Indexed
    · rw [colorRow_one hI, Display.Decoded, Display.Plain, map_singleton, map_singleton]
      generalize D.initWithBytes [cell.chars] = o
      rcases o with _ | _ | ⟨x, _ | ⟨y, s⟩⟩ <;>
        simp [Display.defaults, Display.rendered, hI, @eq_comm _ D.blackColor]
    · rw [colorRow_not_indexed hI]
      simp [Display.Plain, hI]
  | cell :: next :: row => by
    by_cases hI : cell.Indexed
    · rw [colorRow_cons hI, Display.Decoded, map_cons]
      simp only [Display.Plain]
      generalize next :: row = row, D.initWithBytes _ = o
      rcases o with _ | _ | ⟨x, s⟩
      · simp
      · simp [Display.defaults, Display.rendered]
      · have hrest : D.defaults s = D.rendered row ↔ _ := defaults_eq_rendered_iff row s
        simp only [Display.defaults, Display.rendered] at hrest
        simp only [map_some, some.injEq, Display.defaults, Display.rendered,
          map_cons, modifyHead_cons, cons.injEq, hrest, Attributed.mk.injEq,
          and_true, hI, true_and]
        constructor
        · rintro ⟨⟨rfl, hfg⟩, rfl, hrow⟩
          exact ⟨⟨rfl, rfl⟩, hfg.symm, hrow⟩
        · rintro ⟨⟨rfl, rfl⟩, hfg, hrow⟩
          exact ⟨⟨rfl, hfg.symm⟩, rfl, hrow⟩
    · rw [colorRow_not_indexed hI]
      simp [Display.Plain, hI]

variable (D)

/-- The dirty rows have the colours of their cells. -/
inductive Rendered : List (ScrollRow χ κ) → List (List (Attributed χ κ)) → Prop
  | nil : Rendered [] []
  | cons {r : ScrollRow χ κ} {as : List (Attributed χ κ)} {rows : List (ScrollRow χ κ)}
    {rest : List (List (Attributed χ κ))} : (r.dirty → as = D.rendered r.cells) →
      Rendered rows rest → Rendered (r :: rows) (as :: rest)

/-- Every dirty row has the colours of its cells just if each of them has, but for the first
background, the default colours. -/
theorem updateText_rendered_iff (rows : List (ScrollRow χ κ)) :
    (∃ rest, updateText D rows = some rest ∧ Rendered D rows rest)
      ↔ ∀ r ∈ rows, r.dirty → D.Decoded r.cells ∧ D.Plain r.cells := by
  induction rows with
  | nil => exact ⟨nofun, fun _ => ⟨[], rfl, .nil⟩⟩
  | cons r rows ih =>
    rw [forall_mem_cons, ← ih]
    constructor
    · rintro ⟨_, hall, hrendered⟩
      rcases hrendered with _ | ⟨hr, hrest⟩
      simp only [updateText, bind_eq_some_iff, map_eq_some_iff, cons.injEq] at hall
      obtain ⟨as, has, rest, hrows, rfl, rfl⟩ := hall
      refine ⟨fun hdirty => ?_, rest, hrows, hrest⟩
      rw [if_pos hdirty, hr hdirty] at has
      exact (colorRow_eq_rendered_iff r.cells).1 has
    · rintro ⟨hr, rest, hrows, hrest⟩
      rcases hdirty : r.dirty with _ | _
      · exact ⟨r.as :: rest, by simp [updateText, hdirty, hrows], .cons (by simp [hdirty]) hrest⟩
      · have has := (colorRow_eq_rendered_iff r.cells).2 (hr hdirty)
        exact ⟨_, by simp [updateText, hdirty, has, hrows], .cons (fun _ => rfl) hrest⟩

/-- The palette, with the codes of characters. -/
def indexed : Display UInt8 ℤ := ⟨some, id, 15, 0, id⟩

/-- Of two columns, the second one is not red. -/
theorem not_rendered : ¬∀ rows : List (ScrollRow UInt8 ℤ),
    (∀ r ∈ rows, indexed.Decoded r.cells) →
      ∃ rest, updateText indexed rows = some rest ∧ Rendered indexed rows rest := by
  intro h
  obtain ⟨rest, hrest, hrendered⟩ := h [⟨true, [⟨0x61, 15, 0⟩, ⟨0x62, 1, 0⟩], []⟩]
    (by simp [Display.Decoded, indexed])
  rcases hrendered with _ | ⟨hr, -⟩
  simp only [updateText, bind_eq_some_iff, map_eq_some_iff, cons.injEq] at hrest
  obtain ⟨as, has, -, -, rfl, -⟩ := hrest
  rw [hr rfl, if_true, colorRow_cons ⟨by decide, by decide⟩] at has
  simp [indexed, Display.defaults, Display.rendered] at has

end Etoile.TermX
