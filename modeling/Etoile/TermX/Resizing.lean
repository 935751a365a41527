import Mathlib.Tactic.Linarith
import Etoile.TermX.Bounds

/-!
# Resizing the terminal, and its runs

A resize allocates the rows afresh and in order, and puts the cursor back on the screen.
-/

namespace Etoile.TermX.TXTextView

open Function Option

variable {s t old : TXTextView} {rows cols : ℤ}

/-- A size whose buffers have offsets that fit into an `int`. -/
structure ProperSize (rows cols : ℤ) : Prop where
  two_le : 2 ≤ rows
  one_le : 1 ≤ cols
  offsets : (rows * 4 - 1) * cols ≤ INT_MAX

theorem ProperSize.rows_lt (h : ProperSize rows cols) : rows ≤ INT_MAX := by
  have hrows := h.two_le
  have hcols := h.one_le
  have hoffsets := h.offsets
  nlinarith

theorem ProperSize.cols_lt (h : ProperSize rows cols) : cols ≤ INT_MAX := by
  have hrows := h.two_le
  have hcols := h.one_le
  have hoffsets := h.offsets
  nlinarith

theorem ProperSize.area (h : ProperSize rows cols) : rows * cols ≤ INT_MAX := by
  have hrows := h.two_le
  have hcols := h.one_le
  have hoffsets := h.offsets
  nlinarith

variable {r : ℤ}

theorem ProperSize.offset (h : ProperSize rows cols) (hr : r < rows) :
    (r * 4 + 3) * cols ≤ INT_MAX := by
  have hcols := h.one_le
  have hoffsets := h.offsets
  nlinarith

/-- What a resize relies on: the terminal may not have been allocated yet. -/
structure Ready (s : TXTextView) : Prop where
  cols : 0 ≤ s.cols
  row : 0 ≤ s.row
  column : 0 ≤ s.column
  saved : s.save_cursor = s.cursor
  charset : 0 ≤ (s.cursorAt s.cursor).charset ∧ (s.cursorAt s.cursor).charset < 4
  optptr : s.esc.submode ≠ 0 → 0 ≤ s.esc.optptr ∧ s.esc.optptr ≤ MAX_ESC_OPTS
  parameters : s.esc.mode = .CSI → s.esc.submode ≠ 0 → s.esc.optptr < MAX_ESC_OPTS

theorem Inv.ready (h : s.Inv) : s.Ready :=
  ⟨by have := h.cols; omega, h.row.1, h.column.1, h.saved, h.charset, h.optptr, h.parameters⟩

theorem initWithFrame_ready : initWithFrame.Ready :=
  ⟨by decide, by decide, by decide, rfl, by decide, nofun, nofun⟩

def Allocated (old : TXTextView) (rows cols r : ℤ) (s : TXTextView) : Prop :=
  ∃ (cells : ℕ → UInt8) (scrollbuf : ℕ → TvRow),
    s = { old with
        rows := rows, cols := cols, scrollbuf := scrollbuf, scroll_rows_alloc := cells,
        allocated := true, tabstops := fun _ => false }
      ∧ ∀ k : ℕ, k < r → (scrollbuf k).IsRow cols k

theorem Allocated.painted (h : Allocated old rows cols r s) (ht : s.Painted t) :
    Allocated old rows cols r t := by
  obtain ⟨cells, buf, rfl, hbuf⟩ := h
  obtain ⟨cells', rfl⟩ := ht
  exact ⟨cells', buf, rfl, hbuf⟩

theorem copyCells_painted (buffer : TvRow → ℕ) {r n : ℤ} (hold : 0 ≤ r ∧ r < old.rows)
    (hr : r < s.rows) (hn : 0 ≤ n ∧ n ≤ old.cols ∧ n ≤ s.cols) :
    Yields (copyCells old buffer r n s) s.Painted := by
  unfold copyCells
  rw [fetch_eq hold.1 hold.2, bind_some, fetch_eq hold.1 hr, bind_some, if_pos hn]
  exact .of ⟨_, rfl⟩

theorem Painted.size (h : s.Painted t) : t.rows = s.rows ∧ t.cols = s.cols :=
  ⟨h.redrawn.rows_eq, h.redrawn.cols_eq⟩

theorem copyOldRow_painted {r n : ℤ} (hold : 0 ≤ r ∧ r < old.rows) (hr : r < s.rows)
    (hn : 0 ≤ n ∧ n ≤ old.cols ∧ n ≤ s.cols) : Yields (copyOldRow old r n s) s.Painted := by
  have hcopy : ∀ (buffer : TvRow → ℕ) t, s.Painted t →
      Yields (copyCells old buffer r n t) s.Painted := fun buffer t ht =>
    (copyCells_painted buffer hold (by rwa [ht.size.1]) (by rwa [ht.size.2])).mono
      fun _ => ht.trans
  exact (((hcopy _ s (.refl s)).bind (hcopy _)).bind (hcopy _)).bind (hcopy _)

theorem allocatedRow_isRow (h : ProperSize rows cols) (hr : 0 ≤ r ∧ r < rows) :
    Yields (allocatedRow cols r) fun row => row.IsRow cols r.toNat := by
  unfold allocatedRow
  rw [if_pos (h.offset hr.2)]
  have hcast : ((r.toNat : ℕ) : ℤ) = r := Int.toNat_of_nonneg hr.1
  refine .of ?_
  unfold TvRow.IsRow
  rw [hcast]
  exact ⟨rfl, rfl, rfl, rfl⟩

theorem Allocated.putRow (h : Allocated old rows cols r s) (hr : 0 ≤ r ∧ r < rows)
    {row : TvRow} (hrow : row.IsRow cols r.toNat) :
    Yields (s.putRow r row) (Allocated old rows cols (r + 1)) := by
  obtain ⟨cells, buf, rfl, hbuf⟩ := h
  unfold TXTextView.putRow
  rw [store_eq _ hr.1 hr.2]
  refine .of ⟨cells, _, rfl, fun k hk => ?_⟩
  by_cases hkr : k = r.toNat
  · subst hkr
    rwa [update_self]
  · rw [update_of_ne hkr]
    exact hbuf k (by omega)

theorem Allocated.size (h : Allocated old rows cols r s) : s.rows = rows ∧ s.cols = cols := by
  obtain ⟨cells, buf, rfl, -⟩ := h
  exact ⟨rfl, rfl⟩

theorem Allocated.resizeRow (h : Allocated old rows cols r s) (hsize : ProperSize rows cols)
    (hold : 0 ≤ old.cols) (hr : 0 ≤ r ∧ r < rows) :
    Yields (resizeRow old r s) (Allocated old rows cols (r + 1)) := by
  have hcols := hsize.one_le
  unfold TXTextView.resizeRow
  rw [h.size.2]
  refine Yields.bind (Q := Allocated old rows cols (r + 1)) ?_ fun t ht => ?_
  · refine Yields.bind ((allocatedRow_isRow hsize hr).bind fun row hrow => h.putRow hr hrow)
      fun t ht => ?_
    exact (fill_painted _ (by rwa [ht.size.1]) le_rfl ht.size.2.ge).mono fun _ => ht.painted
  · split_ifs with hcopy
    · refine (copyOldRow_painted ⟨hr.1, hcopy.1⟩ (by rw [ht.size.1]; exact hr.2) ?_).mono
        fun _ => ht.painted
      rw [ht.size.2]
      omega
    · exact .of ht

def Tabbed (s t : TXTextView) : Prop := ∃ tabstops, t = { s with tabstops := tabstops }

theorem setTabstop_tabbed {i : ℤ} (hi : 0 ≤ i ∧ i < s.cols) (stop : Bool) (h : s.Tabbed t) :
    Yields (t.setTabstop i stop) s.Tabbed := by
  obtain ⟨tabstops, rfl⟩ := h
  unfold setTabstop
  rw [store_eq _ hi.1 hi.2]
  exact .of ⟨_, rfl⟩

theorem resizeTabstops_tabbed (hold : 0 ≤ old.cols) (_ : 0 ≤ s.cols) :
    Yields (resizeTabstops old s) s.Tabbed := by
  have hrefl : s.Tabbed s := ⟨s.tabstops, rfl⟩
  unfold resizeTabstops
  split_ifs
  · refine (forUp_keeps hrefl fun i t hi hlt ht => ?_).bind fun t ht => ?_
    · rw [fetch_eq hi (by omega), bind_some]
      exact setTabstop_tabbed (by omega) _ ht
    · exact forUp_keeps ht fun i t hi hlt => setTabstop_tabbed (by omega) _
  · exact forUp_keeps hrefl fun i t hi hlt => setTabstop_tabbed ⟨hi, hlt⟩ _

theorem modifyCursor_self (s : TXTextView) :
    s.modifyCursor (fun _ => s.cursorAt s.cursor) = s := by
  unfold modifyCursor
  rw [update_eq_self]

theorem resizeCursor_eq (hrow : 0 ≤ s.row) (hcolumn : 0 ≤ s.column)
    (hrows : 1 ≤ s.rows ∧ s.rows ≤ INT_MAX) (hcols : 1 ≤ s.cols ∧ s.cols ≤ INT_MAX) :
    ∃ c : TXCursor, (0 ≤ c.row ∧ c.row < s.rows) ∧ (0 ≤ c.column ∧ c.column < s.cols)
      ∧ c.charset = (s.cursorAt s.cursor).charset
      ∧ s.resizeCursor = { s.modifyCursor (fun _ => c) with
          scroll_top := 0, scroll_btm := s.rows - 1 } := by
  have hclampRow : ∃ c : TXCursor, (0 ≤ c.row ∧ c.row < s.rows) ∧ c.column = s.column
      ∧ c.charset = (s.cursorAt s.cursor).charset
      ∧ (if s.rows ≤ s.row then s.setRow (s.rows - 1) else s) = s.modifyCursor fun _ => c := by
    split_ifs with hlarge
    · refine ⟨{ s.cursorAt s.cursor with row := uint (s.rows - 1) }, ?_, rfl, rfl, rfl⟩
      dsimp only
      rw [uint_of (by omega) (by omega)]
      omega
    · exact ⟨_, ⟨hrow, not_le.1 hlarge⟩, rfl, rfl, s.modifyCursor_self.symm⟩
  obtain ⟨c, hc, hcol, hcharset, heq⟩ := hclampRow
  unfold resizeCursor
  dsimp only
  rw [uint_of (by omega) hrows.2, heq]
  have hself : (s.modifyCursor fun _ => c).column = s.column := by
    unfold column modifyCursor
    dsimp only
    rw [update_self, hcol]
    rfl
  rw [hself, show (s.modifyCursor fun _ => c).cols = s.cols from rfl, uint_of (by omega) hcols.2]
  split_ifs with hlarge
  · refine ⟨{ c with column := s.cols - 1 }, hc, by dsimp only; omega, hcharset, ?_⟩
    unfold setColumn modifyCursor
    dsimp only
    rw [update_self, update_idem, uint_of (by omega) (by omega)]
  · exact ⟨c, hc, by rw [hcol]; omega, hcharset, rfl⟩

theorem resizeCursor_inv (h : old.Ready) (hsize : ProperSize rows cols) {cells : ℕ → UInt8}
    {buf : ℕ → TvRow} {tabstops : ℕ → Bool} (hbuf : ∀ k : ℕ, k < rows → (buf k).IsRow cols k) :
    Inv (resizeCursor { old with
        rows := rows, cols := cols, scrollbuf := buf, scroll_rows_alloc := cells,
        allocated := true, tabstops := tabstops }) := by
  have hrows := hsize.two_le
  obtain ⟨c, hrow, hcolumn, hcharset, heq⟩ := resizeCursor_eq (s := { old with
    rows := rows, cols := cols, scrollbuf := buf, scroll_rows_alloc := cells,
    allocated := true, tabstops := tabstops }) h.row h.column
    ⟨show 1 ≤ rows by omega, hsize.rows_lt⟩ ⟨hsize.one_le, hsize.cols_lt⟩
  rw [heq]
  let moved := update old.cursorAt old.cursor c
  have hself : moved old.cursor = c := update_self ..
  exact {
    allocated := rfl
    rows := hrows
    cols := hsize.one_le
    rows_lt := hsize.rows_lt
    cols_lt := hsize.cols_lt
    margins := ⟨le_rfl, show 0 < rows - 1 by omega, show rows - 1 < rows by omega⟩
    row := show 0 ≤ (moved old.cursor).row ∧ (moved old.cursor).row < rows by rwa [hself]
    column := show 0 ≤ (moved old.cursor).column ∧ (moved old.cursor).column < cols by
      rwa [hself]
    saved := h.saved
    charset := show 0 ≤ (moved old.cursor).charset ∧ (moved old.cursor).charset < 4 by
      rw [hself, hcharset]
      exact h.charset
    optptr := h.optptr
    parameters := h.parameters
    screen := ⟨id, fun r hr => ⟨hr, hbuf r (by dsimp only [modifyCursor] at hr; omega)⟩,
      injective_id.injOn⟩ }

theorem Ready.resizeBuffer (h : old.Ready) (hsize : ProperSize rows cols) :
    Yields (old.resizeBuffer rows cols) Inv := by
  have hrows := hsize.two_le
  have hcols := hsize.one_le
  unfold TXTextView.resizeBuffer
  rw [if_pos hsize.area]
  have hrun : Yields (forUp 0 rows (resizeRow old) { old with
      rows := rows, cols := cols, scrollbuf := fun _ => ⟨false, 0, 0, 0, 0⟩,
      scroll_rows_alloc := fun _ => 0, allocated := true, tabstops := fun _ => false })
      (Allocated old rows cols rows) :=
    forUp_yields (by omega) ⟨_, _, rfl, fun k hk => absurd hk (by omega)⟩
      fun r t hr hlt ht => ht.resizeRow hsize h.cols ⟨hr, hlt⟩
  obtain ⟨t, ht, cells, buf, rfl, hbuf⟩ := hrun
  obtain ⟨u, hu, tabstops, rfl⟩ := resizeTabstops_tabbed (s := { old with
    rows := rows, cols := cols, scrollbuf := buf, scroll_rows_alloc := cells,
    allocated := true, tabstops := fun _ => false }) h.cols (show 0 ≤ cols by omega)
  rw [ht, bind_some, hu]
  exact .of (resizeCursor_inv h hsize hbuf)

/-- What happens to a terminal: a chunk of bytes comes, or its window gets another size. -/
inductive Event
  | doChars (buf : List UInt8)
  | resizeBuffer (rows cols : ℤ)

def perform (s : TXTextView) : Event → Option TXTextView
  | .doChars buf => s.doChars buf
  | .resizeBuffer rows cols => s.resizeBuffer rows cols

/-- The bytes have no effect that is not checked, and the sizes are proper. -/
def ProperEvent (s : TXTextView) : Event → Prop
  | .doChars buf => Along (orStay doChar) ProperChar s buf
  | .resizeBuffer rows cols => ProperSize rows cols

/-- The terminal is safe after the event, and after each byte of a chunk. -/
def SafeEvent (s : TXTextView) : Event → Prop
  | .doChars buf => Yields (s.doChars buf) Safe
    ∧ Along (orStay doChar) (fun s ch => Yields (s.doChar ch) Safe) s buf
  | .resizeBuffer rows cols => Yields (s.resizeBuffer rows cols) Safe

theorem Inv.perform (h : s.Inv) : ∀ {e : Event}, s.ProperEvent e → Yields (s.perform e) Inv
  | .doChars _, hC => Along.foldlM (fun _ _ h hC => h.doChar hC) h hC
  | .resizeBuffer _ _, hC => h.ready.resizeBuffer hC

theorem Inv.safeEvent (h : s.Inv) : ∀ {e : Event}, s.ProperEvent e → s.SafeEvent e
  | .doChars _, hC => ⟨(h.perform hC).mono fun _ => Inv.safe, (Along.yields
      (fun _ _ h hC => h.doChar hC) h hC).mono fun _ _ hch => hch.mono fun _ => Inv.safe⟩
  | .resizeBuffer _ _, hC => (h.perform hC).mono fun _ => Inv.safe

/-- From the first size on, the terminal is safe throughout every run of proper events. -/
theorem terminal_safe (hsize : ProperSize rows cols) {events : List Event}
    (hC : ∀ s, initWithFrame.resizeBuffer rows cols = some s →
      Along (orStay perform) ProperEvent s events) :
    Yields (initWithFrame.resizeBuffer rows cols) fun s =>
      s.Safe ∧ Along (orStay perform) SafeEvent s events := by
  obtain ⟨s, hs, hinv⟩ := initWithFrame_ready.resizeBuffer hsize
  refine ⟨s, hs, hinv.safe, ?_⟩
  refine Along.of_invariant (fun s e h hC => ⟨h.safeEvent hC, ?_⟩) hinv (hC s hs)
  obtain ⟨t, ht, hinv⟩ := h.perform hC
  unfold orStay
  rwa [ht]

theorem proper_two_one : ProperSize 2 1 := ⟨by decide, by decide, by decide⟩

/-- Printing, an erasure of the screen, and margins. -/
theorem terminal_safe_margins :
    Yields (initWithFrame.resizeBuffer 2 1) fun s => s.Safe ∧ Along (orStay perform) SafeEvent s
      [.doChars [0x41, 0x1b, 0x5b, 0x32], .doChars [0x4a], .doChars [0x1b, 0x5b, 0x72],
        .resizeBuffer 2 1] := by
  refine terminal_safe proper_two_one fun s hs => ?_
  obtain rfl := some.inj hs
  have hdigit : ∀ {opts : ℕ → ℤ}, opts 0 = -1 →
      10 * opts 0 + (((0x32 : UInt8).toNat : ℤ) - 0x30) ≤ INT_MAX := fun {_} h => by
    rw [h]
    decide
  exact ⟨⟨nofun, nofun, nofun, fun _ => ⟨fun _ => hdigit rfl, nofun, nofun⟩, trivial⟩,
    ⟨fun _ => ⟨by decide, nofun, fun hr => absurd hr (by decide)⟩, trivial⟩,
    ⟨nofun, nofun, fun _ => ⟨by decide, nofun, fun _ _ => Or.inr ⟨by decide, by decide⟩⟩, trivial⟩,
    proper_two_one, trivial⟩

/-- Margins outside of the screen, and a parameter too many. -/
theorem margins_not_checked :
    ((initWithFrame.resizeBuffer 2 1).bind (doChars [0x1b, 0x5b, 0x30, 0x3b, 0x35, 0x72])).map
        (fun s => (s.rows, s.scroll_top, s.scroll_btm)) = some (2, -1, 4)
      ∧ ¬ Yields ((initWithFrame.resizeBuffer 2 1).bind
        (doChars [0x1b, 0x5b, 0x30, 0x3b, 0x35, 0x72])) Safe
      ∧ ((initWithFrame.resizeBuffer 2 1).bind
        (doChars ([0x1b, 0x5b] ++ List.replicate 16 0x3b))).isNone := by
  have hmargins : ((initWithFrame.resizeBuffer 2 1).bind
      (doChars [0x1b, 0x5b, 0x30, 0x3b, 0x35, 0x72])).map
        (fun s => (s.rows, s.scroll_top, s.scroll_btm)) = some (2, -1, 4) := by decide
  refine ⟨hmargins, ?_, by decide⟩
  rintro ⟨s, hs, hsafe⟩
  rw [hs] at hmargins
  have htop : s.scroll_top = -1 := congrArg (fun m => m.2.1) (some.inj hmargins)
  have := hsafe.margins.1
  omega

end Etoile.TermX.TXTextView
