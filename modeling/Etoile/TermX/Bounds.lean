import Mathlib.Data.Fintype.EquivFin
import Etoile.TermX.TXTextView

/-!
# The terminal stays in its buffers

Everything that happens on the screen leaves its rows a permutation of the allocated ones, and all
else that is done keeps the cursor on the screen and the margins within it.
-/

namespace Etoile.TermX

open Function Option

def TvRow.IsRow (r : TvRow) (cols : ℤ) (k : ℕ) : Prop :=
  r.attr = (k * 4 * cols).toNat ∧ r.fg = ((k * 4 + 1) * cols).toNat
    ∧ r.bg = ((k * 4 + 2) * cols).toNat ∧ r.chars = ((k * 4 + 3) * cols).toNat

namespace TXTextView

variable {s s' s'' : TXTextView}

structure Safe (s : TXTextView) : Prop where
  row : 0 ≤ s.row ∧ s.row < s.rows
  column : 0 ≤ s.column ∧ s.column < s.cols
  margins : 0 ≤ s.scroll_top ∧ s.scroll_top < s.scroll_btm ∧ s.scroll_btm < s.rows
  screen : ∃ σ : Equiv.Perm (Fin s.rows.toNat),
    ∀ r : Fin s.rows.toNat, (s.scrollbuf r).IsRow s.cols (σ r)

structure Inv (s : TXTextView) : Prop where
  allocated : s.allocated = true
  rows : 2 ≤ s.rows
  cols : 1 ≤ s.cols
  rows_lt : s.rows ≤ INT_MAX
  cols_lt : s.cols ≤ INT_MAX
  margins : 0 ≤ s.scroll_top ∧ s.scroll_top < s.scroll_btm ∧ s.scroll_btm < s.rows
  row : 0 ≤ s.row ∧ s.row < s.rows
  column : 0 ≤ s.column ∧ s.column < s.cols
  saved : s.save_cursor = s.cursor
  charset : 0 ≤ (s.cursorAt s.cursor).charset ∧ (s.cursorAt s.cursor).charset < 4
  optptr : s.esc.submode ≠ 0 → 0 ≤ s.esc.optptr ∧ s.esc.optptr ≤ MAX_ESC_OPTS
  parameters : s.esc.mode = .CSI → s.esc.submode ≠ 0 → s.esc.optptr < MAX_ESC_OPTS
  screen : ∃ σ : ℕ → ℕ, (∀ r < s.rows.toNat, σ r < s.rows.toNat
      ∧ (s.scrollbuf r).IsRow s.cols (σ r))
    ∧ Set.InjOn σ {r | r < s.rows.toNat}

theorem Inv.safe (h : s.Inv) : s.Safe where
  row := h.row
  column := h.column
  margins := h.margins
  screen := by
    obtain ⟨σ, hσ, hinj⟩ := h.screen
    let f : Fin s.rows.toNat → Fin s.rows.toNat := fun r => ⟨σ r, (hσ r r.isLt).1⟩
    have hf : Injective f := fun a b hab =>
      Fin.ext (hinj a.isLt b.isLt (congrArg Fin.val hab))
    exact ⟨Equiv.ofBijective f (Finite.injective_iff_bijective.1 hf),
      fun r => (hσ r r.isLt).2⟩

theorem uint_of {x : ℤ} (h : 0 ≤ x) (h' : x ≤ INT_MAX) : uint x = x := by
  unfold uint INT_MAX at *
  omega

theorem sint_of {x : ℤ} (h : 0 ≤ x) (h' : x ≤ INT_MAX) : sint x = x := by
  unfold sint
  rw [uint_of h h']
  unfold INT_MAX at h'
  exact if_pos (by omega)

theorem forceRange_mem (x : ℤ) {lo hi : ℤ} (h : lo ≤ hi) :
    lo ≤ forceRange lo x hi ∧ forceRange lo x hi ≤ hi := by
  unfold forceRange
  omega

def Redrawn (s s' : TXTextView) : Prop :=
  ∃ (cells : ℕ → UInt8) (scrollbuf : ℕ → TvRow) (τ : ℕ → ℕ),
    s' = { s with scroll_rows_alloc := cells, scrollbuf := scrollbuf }
      ∧ (∀ r < s.rows.toNat, τ r < s.rows.toNat
        ∧ ∀ cols k, (s.scrollbuf (τ r)).IsRow cols k → (scrollbuf r).IsRow cols k)
      ∧ Set.InjOn τ {r | r < s.rows.toNat}

theorem Redrawn.refl (s : TXTextView) : s.Redrawn s :=
  ⟨s.scroll_rows_alloc, s.scrollbuf, id, rfl, fun _ hr => ⟨hr, fun _ _ h => h⟩,
    injective_id.injOn⟩

theorem Redrawn.trans (h : s.Redrawn s') (h' : s'.Redrawn s'') : s.Redrawn s'' := by
  obtain ⟨cells, buf, τ, rfl, hτ, hinj⟩ := h
  obtain ⟨cells', buf', τ', rfl, hτ', hinj'⟩ := h'
  refine ⟨cells', buf', τ ∘ τ', rfl, fun r hr => ?_, ?_⟩
  · obtain ⟨hlt', hrow'⟩ := hτ' r hr
    obtain ⟨hlt, hrow⟩ := hτ (τ' r) hlt'
    exact ⟨hlt, fun cols k hk => hrow' cols k (hrow cols k hk)⟩
  · exact hinj.comp hinj' fun r hr => (hτ' r hr).1

theorem Redrawn.inv (h : s.Inv) (hd : s.Redrawn s') : s'.Inv := by
  obtain ⟨cells, buf, τ, rfl, hτ, hinj⟩ := hd
  obtain ⟨σ, hσ, hinjσ⟩ := h.screen
  exact { h with
    screen := by
      refine ⟨σ ∘ τ, fun r hr => ?_, hinjσ.comp hinj fun r hr => (hτ r hr).1⟩
      obtain ⟨hlt, hrow⟩ := hτ r hr
      exact ⟨(hσ _ hlt).1, hrow _ _ (hσ _ hlt).2⟩ }

theorem Redrawn.rows_eq (h : s.Redrawn s') : s'.rows = s.rows := by
  obtain ⟨cells, buf, τ, rfl, -⟩ := h
  rfl

theorem Redrawn.cols_eq (h : s.Redrawn s') : s'.cols = s.cols := by
  obtain ⟨cells, buf, τ, rfl, -⟩ := h
  rfl

theorem Redrawn.of_cells (cells : ℕ → UInt8) (buf : ℕ → TvRow)
    (h : ∀ r cols k, (s.scrollbuf r).IsRow cols k → (buf r).IsRow cols k) :
    s.Redrawn { s with scroll_rows_alloc := cells, scrollbuf := buf } :=
  ⟨cells, buf, id, rfl, fun r hr => ⟨hr, h r⟩, injective_id.injOn⟩

def Painted (s s' : TXTextView) : Prop := ∃ cells, s' = { s with scroll_rows_alloc := cells }

theorem Painted.refl (s : TXTextView) : s.Painted s := ⟨s.scroll_rows_alloc, rfl⟩

theorem Painted.trans (h : s.Painted s') (h' : s'.Painted s'') : s.Painted s'' := by
  obtain ⟨cells, rfl⟩ := h
  obtain ⟨cells', rfl⟩ := h'
  exact ⟨cells', rfl⟩

theorem Painted.redrawn (h : s.Painted s') : s.Redrawn s' := by
  obtain ⟨cells, rfl⟩ := h
  exact .of_cells _ _ fun _ _ _ h => h

theorem storeCell_painted (buffer : TvRow → ℕ) {row column : ℤ} (v : UInt8)
    (hrow : 0 ≤ row ∧ row < s.rows) (hcolumn : 0 ≤ column ∧ column < s.cols) :
    Yields (s.storeCell buffer row column v) s.Painted := by
  unfold storeCell
  rw [fetch_eq hrow.1 hrow.2, bind_some, if_pos hcolumn]
  exact .of ⟨_, rfl⟩

theorem fill_painted {row lo hi : ℤ} (ch : UInt8) (hrow : 0 ≤ row ∧ row < s.rows) (hlo : 0 ≤ lo)
    (hhi : hi ≤ s.cols) : Yields (s.fill row lo hi ch) s.Painted := by
  refine forUp_keeps (.refl s) fun i t hi' hlt ht => ?_
  have hrow' : 0 ≤ row ∧ row < t.rows := by rwa [ht.redrawn.rows_eq]
  have hcol' : 0 ≤ i ∧ i < t.cols := by rw [ht.redrawn.cols_eq]; omega
  exact (storeCell_painted _ ch hrow' hcol').mono fun _ => ht.trans

theorem setDirty_redrawn {row : ℤ} (hrow : 0 ≤ row ∧ row < s.rows) :
    Yields (s.setDirty row) s.Redrawn := by
  unfold setDirty
  rw [fetch_eq hrow.1 hrow.2, bind_some, store_eq _ hrow.1 hrow.2, map_some]
  refine .of (.of_cells _ _ fun r cols k h => ?_)
  by_cases hr : r = row.toNat
  · subst hr
    rw [update_self]
    exact h
  · rwa [update_of_ne hr]

theorem fill_redrawn {row lo hi : ℤ} (ch : UInt8) (hrow : 0 ≤ row ∧ row < s.rows) (hlo : 0 ≤ lo)
    (hhi : hi ≤ s.cols) : Yields (s.fill row lo hi ch) s.Redrawn :=
  (fill_painted ch hrow hlo hhi).mono fun _ => Painted.redrawn

theorem Redrawn.andThen {f : TXTextView → Option TXTextView} {x : Option TXTextView}
    (h : Yields x s.Redrawn) (hf : ∀ t, s.Redrawn t → Yields (f t) t.Redrawn) :
    Yields (x.bind f) s.Redrawn :=
  h.bind fun t ht => (hf t ht).mono fun _ => ht.trans

theorem fillRow_redrawn {row : ℤ} (ch : UInt8) (hrow : 0 ≤ row ∧ row < s.rows) :
    Yields (s.fillRow ch row) s.Redrawn :=
  Redrawn.andThen (fill_redrawn ch hrow le_rfl le_rfl) fun _ ht =>
    setDirty_redrawn (by rwa [ht.rows_eq])

theorem fillRows_redrawn {lo hi : ℤ} (ch : UInt8) (hlo : 0 ≤ lo) (hhi : hi ≤ s.rows) :
    Yields (s.fillRows lo hi ch) s.Redrawn := by
  refine forUp_keeps (.refl s) fun i t hi' hlt ht => ?_
  exact (fillRow_redrawn ch (by rw [ht.rows_eq]; omega)).mono fun _ => ht.trans

theorem Inv.column_int (h : s.Inv) : sint s.column = s.column :=
  sint_of h.column.1 (h.column.2.le.trans h.cols_lt)

theorem Inv.eraseToLineEnd (h : s.Inv) : Yields s.eraseToLineEnd s.Redrawn := by
  unfold TXTextView.eraseToLineEnd
  rw [h.column_int]
  exact Redrawn.andThen (fill_redrawn _ h.row h.column.1 le_rfl) fun _ ht =>
    setDirty_redrawn (by rw [ht.rows_eq]; exact h.row)

theorem Inv.eraseFromLineStart (h : s.Inv) : Yields s.eraseFromLineStart s.Redrawn := by
  unfold TXTextView.eraseFromLineStart
  rw [h.column_int]
  exact Redrawn.andThen (fill_redrawn _ h.row le_rfl (by have := h.column; omega)) fun _ ht =>
    setDirty_redrawn (by rw [ht.rows_eq]; exact h.row)

theorem Inv.eraseToScreenEnd (h : s.Inv) : Yields s.eraseToScreenEnd s.Redrawn := by
  unfold TXTextView.eraseToScreenEnd
  have hrow := h.row
  have hrows := h.rows_lt
  rw [sint_of (by omega) (by omega)]
  exact Redrawn.andThen h.eraseToLineEnd fun _ ht =>
    fillRows_redrawn _ (by omega) (by rw [ht.rows_eq])

theorem Inv.eraseFromScreenStart (h : s.Inv) : Yields s.eraseFromScreenStart s.Redrawn := by
  unfold TXTextView.eraseFromScreenStart
  have hrow := h.row
  have hrows := h.rows_lt
  rw [sint_of (by omega) (by omega)]
  exact Redrawn.andThen (fillRows_redrawn _ le_rfl (by omega)) fun _ ht =>
    (ht.inv h).eraseFromLineStart

def Moved (s : TXTextView) (τ : ℕ → ℕ) (s' : TXTextView) : Prop :=
  s' = { s with scrollbuf := fun r => s.scrollbuf (τ r) }

variable {τ : ℕ → ℕ}

theorem Moved.redrawn (h : s.Moved τ s')
    (hτ : ∀ r < s.rows.toNat, τ r < s.rows.toNat) (hinj : Set.InjOn τ {r | r < s.rows.toNat}) :
    s.Redrawn s' :=
  ⟨s.scroll_rows_alloc, fun r => s.scrollbuf (τ r), τ, h, fun r hr => ⟨hτ r hr, fun _ _ h => h⟩,
    hinj⟩

theorem Moved.of_fixed (h : ∀ r, τ r = r) : s.Moved τ s := by
  obtain rfl : τ = id := funext h
  rfl

theorem copyRow_moved {i j : ℤ} (h : s.Moved τ s') (hi : 0 ≤ i ∧ i < s.rows)
    (hj : 0 ≤ j ∧ j < s.rows) :
    Yields (s'.copyRow i j) (s.Moved (update τ i.toNat (τ j.toNat))) := by
  subst h
  unfold copyRow
  rw [fetch_eq hj.1 hj.2, bind_some, store_eq _ hi.1 hi.2, map_some]
  refine .of ?_
  unfold Moved
  congr 1
  funext r
  by_cases hr : r = i.toNat
  · subst hr
    rw [update_self, update_self]
  · rw [update_of_ne hr, update_of_ne hr]

theorem putRow_moved {i : ℤ} {k : ℕ} (h : s.Moved τ s') (hi : 0 ≤ i ∧ i < s.rows) :
    Yields (s'.putRow i (s.scrollbuf k)) (s.Moved (update τ i.toNat k)) := by
  subst h
  unfold putRow
  rw [store_eq _ hi.1 hi.2, map_some]
  refine .of ?_
  unfold Moved
  congr 1
  funext r
  by_cases hr : r = i.toNat
  · subst hr
    rw [update_self, update_self]
  · rw [update_of_ne hr, update_of_ne hr]

/-- The rows from `first` on, so far as the loop has come, are those below. -/
def shiftUp (first : ℕ) (i : ℤ) (r : ℕ) : ℕ := if first ≤ r ∧ (r : ℤ) < i then r + 1 else r

def shiftDown (last : ℕ) (i : ℤ) (r : ℕ) : ℕ := if i < (r : ℤ) ∧ r ≤ last then r - 1 else r

theorem rotateUp_redrawn {first last : ℤ} (h : 0 ≤ first) (hlt : first < last)
    (hlast : last < s.rows) : Yields (s.rotateUp first last) s.Redrawn := by
  unfold rotateUp
  rw [fetch_eq h (by omega), bind_some]
  refine Yields.bind (forUp_yields (P := fun i => s.Moved (shiftUp first.toNat i)) hlt.le ?_
    fun i t hi hi' ht => ?_) fun t ht => ?_
  · exact Moved.of_fixed fun r => if_neg (by omega)
  · refine (copyRow_moved ht (by omega) (by omega)).mono fun t' ht' => ?_
    convert ht' using 2
    funext r
    unfold shiftUp
    by_cases hr : r = i.toNat
    · subst hr
      rw [update_self, if_pos (by omega), if_neg (by omega)]
      omega
    · rw [update_of_ne hr]
      split_ifs <;> omega
  · refine (putRow_moved ht (by omega)).mono fun t' ht' => ht'.redrawn (fun r hr => ?_) ?_
    · unfold shiftUp
      by_cases hr' : r = last.toNat
      · subst hr'
        rw [update_self]
        omega
      · rw [update_of_ne hr']
        split_ifs <;> omega
    · intro a _ b _ hab
      simp only [update_apply, shiftUp] at hab
      split_ifs at hab <;> omega

theorem rotateDown_redrawn {first last : ℤ} (h : 0 ≤ first) (hlt : first < last)
    (hlast : last < s.rows) : Yields (s.rotateDown first last) s.Redrawn := by
  unfold rotateDown
  rw [fetch_eq (by omega) hlast, bind_some]
  refine Yields.bind (forDown_yields (P := fun i => s.Moved (shiftDown last.toNat i)) hlt.le ?_
    fun i t hi hi' ht => ?_) fun t ht => ?_
  · exact Moved.of_fixed fun r => if_neg (by omega)
  · refine (copyRow_moved ht (by omega) (by omega)).mono fun t' ht' => ?_
    convert ht' using 2
    funext r
    unfold shiftDown
    by_cases hr : r = i.toNat
    · subst hr
      rw [update_self, if_pos (by omega), if_neg (by omega)]
      omega
    · rw [update_of_ne hr]
      split_ifs <;> omega
  · refine (putRow_moved ht (by omega)).mono fun t' ht' => ht'.redrawn (fun r hr => ?_) ?_
    · unfold shiftDown
      by_cases hr' : r = first.toNat
      · subst hr'
        rw [update_self]
        omega
      · rw [update_of_ne hr']
        split_ifs <;> omega
    · intro a _ b _ hab
      simp only [update_apply, shiftDown] at hab
      split_ifs at hab <;> omega

theorem clearMoved_redrawn {row : ℤ} (hrow : 0 ≤ row ∧ row < s.rows) :
    Yields (s.clearMoved row) s.Redrawn :=
  Redrawn.andThen (setDirty_redrawn hrow) fun _ ht =>
    fill_redrawn _ (by rwa [ht.rows_eq]) le_rfl le_rfl

theorem Inv.scrollRegion (h : s.Inv) {count : ℤ} (hcount : count ≠ 0) :
    Yields (s.scrollRegion s.scroll_top s.scroll_btm count) s.Redrawn := by
  obtain ⟨htop, hlt, hbtm⟩ := h.margins
  unfold TXTextView.scrollRegion
  rw [if_pos hlt]
  split_ifs with hup hdown
  · refine Redrawn.andThen (forUp_keeps (.refl s) fun _ t _ _ ht => ?_) fun t ht =>
      clearMoved_redrawn (by rw [ht.rows_eq]; omega)
    exact (rotateUp_redrawn htop hlt (by rwa [ht.rows_eq])).mono fun _ => ht.trans
  · refine Redrawn.andThen (forUp_keeps (.refl s) fun _ t _ _ ht => ?_) fun t ht =>
      clearMoved_redrawn (by rw [ht.rows_eq]; omega)
    exact (rotateDown_redrawn htop hlt (by rwa [ht.rows_eq])).mono fun _ => ht.trans
  · omega

theorem Inv.modifyCursor (h : s.Inv) {f : TXCursor → TXCursor}
    (hrow : 0 ≤ (f (s.cursorAt s.cursor)).row ∧ (f (s.cursorAt s.cursor)).row < s.rows)
    (hcolumn : 0 ≤ (f (s.cursorAt s.cursor)).column ∧ (f (s.cursorAt s.cursor)).column < s.cols)
    (hcharset : 0 ≤ (f (s.cursorAt s.cursor)).charset
      ∧ (f (s.cursorAt s.cursor)).charset < 4) : (s.modifyCursor f).Inv := by
  have hself : (s.modifyCursor f).cursorAt (s.modifyCursor f).cursor
      = f (s.cursorAt s.cursor) := update_self ..
  exact { h with
    row := by unfold TXTextView.row; rwa [hself]
    column := by unfold TXTextView.column; rwa [hself]
    charset := by rwa [hself] }

theorem Inv.setRow (h : s.Inv) {r : ℤ} (hr : 0 ≤ r ∧ r < s.rows) : (s.setRow r).Inv := by
  have hrows := h.rows_lt
  refine h.modifyCursor ?_ h.column h.charset
  rwa [uint_of hr.1 (by omega)]

theorem Inv.setColumn (h : s.Inv) {c : ℤ} (hc : 0 ≤ c ∧ c < s.cols) : (s.setColumn c).Inv := by
  have hcols := h.cols_lt
  refine h.modifyCursor h.row ?_ h.charset
  rwa [uint_of hc.1 (by omega)]

theorem Inv.setWrapnext (h : s.Inv) (b : Bool) : (s.setWrapnext b).Inv := { h with }

theorem Inv.column_zero (h : s.Inv) : (s.setColumn 0).Inv :=
  h.setColumn ⟨le_rfl, by have := h.cols; omega⟩

theorem Inv.lastColumn (h : s.Inv) : uint (s.cols - 1) = s.cols - 1 := by
  have hcols := h.cols
  have hlt := h.cols_lt
  exact uint_of (by omega) (by omega)

theorem Inv.uint_margins (h : s.Inv) :
    uint s.scroll_top = s.scroll_top ∧ uint s.scroll_btm = s.scroll_btm := by
  obtain ⟨htop, hlt, hbtm⟩ := h.margins
  have hrows := h.rows_lt
  exact ⟨uint_of htop (by omega), uint_of (by omega) (by omega)⟩

theorem Inv.scrollDown (h : s.Inv) : Yields s.scrollDown Inv := by
  obtain ⟨htop, hlt, hbtm⟩ := h.margins
  have hrow := h.row
  unfold TXTextView.scrollDown
  rw [h.uint_margins.2]
  split_ifs with hlast
  · exact (h.scrollRegion (by decide)).mono fun _ ht => ht.inv h
  · exact .of (h.setRow (by omega))

theorem Inv.scrollUp (h : s.Inv) : Yields s.scrollUp Inv := by
  obtain ⟨htop, hlt, hbtm⟩ := h.margins
  have hrow := h.row
  unfold TXTextView.scrollUp
  rw [h.uint_margins.1]
  split_ifs with hfirst
  · exact (h.scrollRegion (by decide)).mono fun _ ht => ht.inv h
  · exact .of (h.setRow (by omega))

theorem Inv.gotoRow (h : s.Inv) (newRow newCol : ℤ) : (s.gotoRow newRow newCol).Inv := by
  obtain ⟨htop, hlt, hbtm⟩ := h.margins
  have hcols := h.cols
  have hc := forceRange_mem newCol (show 0 ≤ s.cols - 1 by omega)
  have hr := forceRange_mem (sint (newRow + s.origin)) hlt.le
  exact ((h.setColumn (by omega)).setRow (show _ ∧ _ < s.rows by omega)).setWrapnext false

theorem Inv.gotoRelativeRow (h : s.Inv) (newRow newCol : ℤ) :
    (s.gotoRelativeRow newRow newCol).Inv := by
  obtain ⟨htop, hlt, hbtm⟩ := h.margins
  have hcols := h.cols
  unfold TXTextView.gotoRelativeRow
  rw [h.lastColumn, h.uint_margins.1, h.uint_margins.2]
  have hc := forceRange_mem (uint (s.column + newCol)) (show 0 ≤ s.cols - 1 by omega)
  have hr := forceRange_mem (uint (s.row + newRow + s.origin)) hlt.le
  exact ((h.setColumn (by omega)).setRow (show _ ∧ _ < s.rows by omega)).setWrapnext false

theorem Inv.backspace (h : s.Inv) : s.backspace.Inv := by
  have hrow := h.row
  have hcolumn := h.column
  unfold TXTextView.backspace
  refine Inv.setWrapnext ?_ false
  split_ifs
  · exact (h.setColumn (by omega)).setRow (show _ ∧ _ < s.rows by omega)
  · exact h
  · exact h
  · exact h.setColumn (by omega)

theorem Inv.setColumn_column (h : s.Inv) {c : ℤ} (hc : 0 ≤ c ∧ c < s.cols) :
    (s.setColumn c).column = c := by
  have hcols := h.cols_lt
  have hself : (s.setColumn c).column = uint c := by
    simp [TXTextView.column, TXTextView.setColumn, TXTextView.modifyCursor]
  rw [hself, uint_of hc.1 (by omega)]

theorem Inv.nextTabstop : ∀ (n : ℕ) {s : TXTextView}, s.Inv → s.column + n < s.cols →
    Yields (s.nextTabstop n) Inv
  | 0, _, h, _ => .of h
  | n + 1, s, h, hn => by
    have hcolumn := h.column
    have hc : 0 ≤ s.column + 1 ∧ s.column + 1 < s.cols := by omega
    have hset := h.setColumn hc
    have hself := h.setColumn_column hc
    unfold TXTextView.nextTabstop
    dsimp only
    split_ifs
    · rw [fetch_eq hset.column.1 hset.column.2, bind_some]
      split_ifs
      · exact .of hset
      · exact Inv.nextTabstop n hset (by rw [hself]; change _ < s.cols; omega)
    · exact .of hset

theorem Inv.newline (h : s.Inv) :
    Yields (s.scrollDown.map fun s => (s.setColumn 0).setWrapnext false) Inv := by
  obtain ⟨t, ht, hinv⟩ := h.scrollDown
  rw [ht]
  exact .of (hinv.column_zero.setWrapnext false)

theorem Inv.processNonPrinting (h : s.Inv) (ch : UInt8) : Yields (s.processNonPrinting ch) Inv := by
  unfold TXTextView.processNonPrinting
  rw [h.lastColumn]
  split
  · exact .of h.backspace
  · split_ifs
    · exact Inv.nextTabstop _ h (by omega)
    · exact .of h
  · exact h.newline
  · exact h.newline
  · exact h.newline
  · exact .of (h.setWrapnext false).column_zero
  · exact .of (h.modifyCursor h.row h.column ⟨by simp, by simp⟩)
  · exact .of (h.modifyCursor h.row h.column ⟨by simp, by simp⟩)
  · exact .of h

theorem Inv.setEsc (h : s.Inv) {esc : EscState}
    (hoptptr : esc.submode ≠ 0 → 0 ≤ esc.optptr ∧ esc.optptr ≤ MAX_ESC_OPTS)
    (hparameters : esc.mode = .CSI → esc.submode ≠ 0 → esc.optptr < MAX_ESC_OPTS) :
    Inv { s with esc := esc } :=
  { h with
    optptr := hoptptr
    parameters := hparameters }

theorem Inv.setMode (h : s.Inv) {mode : EscMode} (hmode : mode ≠ .CSI) : (s.setMode mode).Inv :=
  h.setEsc h.optptr fun heq => absurd heq hmode

theorem Inv.doVT52 (h : s.Inv) (ch : UInt8) : Yields (s.doVT52 ch) Inv := by
  unfold TXTextView.doVT52
  split
  · exact .of (h.gotoRelativeRow _ _)
  · exact .of (h.gotoRelativeRow _ _)
  · exact .of (h.gotoRelativeRow _ _)
  · exact .of (h.gotoRelativeRow _ _)
  · exact .of (h.gotoRow _ _)
  · exact h.scrollUp
  · exact h.eraseToScreenEnd.mono fun _ ht => ht.inv h
  · exact h.eraseToLineEnd.mono fun _ ht => ht.inv h
  · exact .of (h.setMode nofun)
  · exact .of { h with }
  · exact .of h

theorem moveColumns_redrawn (buffer : TvRow → ℕ) {row dest source : ℤ}
    (hrow : 0 ≤ row ∧ row < s.rows) (hdest : 0 ≤ dest ∧ dest ≤ 1)
    (hsource : 0 ≤ source ∧ source ≤ 1) :
    Yields (s.moveColumns buffer row dest source) s.Redrawn := by
  unfold moveColumns
  rw [fetch_eq hrow.1 hrow.2, bind_some, if_pos (by omega)]
  exact .of (.of_cells _ _ fun _ _ _ h => h)

theorem moveRow_redrawn {row dest source blank : ℤ} (hrow : 0 ≤ row ∧ row < s.rows)
    (hdest : 0 ≤ dest ∧ dest ≤ 1) (hsource : 0 ≤ source ∧ source ≤ 1)
    (hblank : 0 ≤ blank ∧ blank < s.cols) : Yields (s.moveRow row dest source blank) s.Redrawn := by
  have hmove : ∀ (buffer : TvRow → ℕ) t, s.Redrawn t →
      Yields (t.moveColumns buffer row dest source) t.Redrawn := fun buffer t ht =>
    moveColumns_redrawn buffer (by rwa [ht.rows_eq]) hdest hsource
  refine Redrawn.andThen (Redrawn.andThen (Redrawn.andThen (Redrawn.andThen
    (hmove _ s (.refl s)) (hmove _)) (hmove _)) (hmove _)) fun t ht => ?_
  exact (storeCell_painted _ _ (by rwa [ht.rows_eq]) (by rwa [ht.cols_eq])).mono
    fun _ => Painted.redrawn

theorem Inv.doEscape (h : s.Inv) (ch : UInt8) : Yields (s.doEscape ch) Inv := by
  have hcolumn := h.column
  have hcols := h.cols
  unfold TXTextView.doEscape
  rw [h.lastColumn]
  split
  iterate 5 exact .of (h.setEsc h.optptr nofun)
  · split_ifs
    · exact .of (h.setColumn (by omega))
    · exact (moveRow_redrawn h.row (by decide) (by decide) (by omega)).mono fun _ ht => ht.inv h
  · exact .of { h with saved := rfl }
  · exact .of { h with
      row := by
        unfold TXTextView.row
        dsimp only
        rw [h.saved]
        exact h.row
      column := by
        unfold TXTextView.column
        dsimp only
        rw [h.saved]
        exact h.column
      saved := rfl
      charset := by
        dsimp only
        rw [h.saved]
        exact h.charset }
  · split_ifs
    · exact .of (h.setColumn (by omega))
    · exact (moveRow_redrawn h.row (by decide) (by decide) (by omega)).mono fun _ ht => ht.inv h
  · exact .of (h.setEsc h.optptr nofun)
  · exact h.scrollDown
  · obtain ⟨t, ht, hinv⟩ := h.scrollDown
    rw [ht]
    exact .of hinv.column_zero
  · rw [store_eq _ hcolumn.1 hcolumn.2]
    exact .of { h with }
  · exact h.scrollUp
  · exact .of (h.setEsc (fun hne => absurd rfl hne) fun _ hne => absurd rfl hne)
  · exact .of h

theorem Inv.doEscapeTwo (h : s.Inv) (ch : UInt8) : Yields (s.doEscapeTwo ch) Inv := by
  unfold TXTextView.doEscapeTwo
  split
  · split_ifs
    · exact (fillRows_redrawn _ le_rfl le_rfl).mono fun _ ht => ht.inv h
    · exact .of h
  iterate 4 exact .of { h with }
  exact .of h

theorem Inv.setOpts (h : s.Inv) (opts : ℕ → ℤ) : (s.setOpts opts).Inv :=
  h.setEsc h.optptr h.parameters

theorem Inv.setDefault (h : s.Inv) {index : ℤ} (hindex : 0 ≤ index ∧ index < MAX_ESC_OPTS)
    (dflt : ℤ) : Yields (s.setDefault index dflt) Inv := by
  unfold TXTextView.setDefault
  split_ifs
  · rw [store_eq _ hindex.1 hindex.2]
    exact .of (h.setOpts _)
  · exact .of h

theorem parameter_eq (s : TXTextView) {i : ℤ} (hi : 0 ≤ i ∧ i < MAX_ESC_OPTS) :
    s.parameter i = some (s.esc.opts i.toNat) := fetch_eq hi.1 hi.2

theorem Inv.withDefault (h : s.Inv) (dflt : ℤ) {f : TXTextView → ℤ → Option TXTextView}
    (hf : ∀ t n, Inv t → Yields (f t n) Inv) :
    Yields ((s.setDefault 0 dflt).bind fun s => (s.parameter 0).bind (f s)) Inv := by
  refine (h.setDefault (by decide) dflt).bind fun t ht => ?_
  rw [parameter_eq t (by decide), bind_some]
  exact hf t _ ht

theorem Inv.cursorPosition (h : s.Inv) : Yields s.cursorPosition Inv := by
  refine (h.setDefault (by decide) 1).bind fun t ht => ?_
  refine (ht.setDefault (by decide) 1).bind fun u hu => ?_
  rw [parameter_eq u (by decide), parameter_eq u (by decide)]
  exact .of (hu.gotoRow _ _)

theorem Inv.fillRow (h : s.Inv) (ch : UInt8) : Yields (s.fillRow ch s.row) Inv :=
  (fillRow_redrawn ch h.row).mono fun _ ht => ht.inv h

theorem Inv.fillRows (h : s.Inv) (ch : UInt8) : Yields (s.fillRows 0 s.rows ch) Inv :=
  (fillRows_redrawn ch le_rfl le_rfl).mono fun _ ht => ht.inv h

theorem extendedColor_yields {i : ℤ} (hi : 0 ≤ i) (hoptptr : s.esc.optptr ≤ MAX_ESC_OPTS) :
    Yields (s.extendedColor i) fun _ => True := by
  unfold extendedColor
  split_ifs with hlt
  · rw [fetch_eq (by omega) (by omega), bind_some]
    split_ifs
    · rw [fetch_eq (by omega) (by omega)]
      exact .of trivial
    · exact .of trivial
  · exact .of trivial

theorem Inv.selectGraphicRendition : ∀ (n : ℕ) {i : ℤ} {s : TXTextView}, s.Inv → 0 ≤ i →
    s.esc.optptr ≤ MAX_ESC_OPTS → Yields (s.selectGraphicRendition n i) Inv
  | 0, _, _, h, _, _ => .of h
  | n + 1, i, s, h, hi, hoptptr => by
    unfold TXTextView.selectGraphicRendition
    split_ifs with hlt
    · rw [fetch_eq hi (by omega), bind_some]
      have hcolor : Yields (if s.esc.opts i.toNat = 38 ∨ s.esc.opts i.toNat = 48 then
          s.extendedColor i else some none) fun _ => True := by
        split_ifs
        · exact extendedColor_yields hi hoptptr
        · exact .of trivial
      refine hcolor.bind fun color _ => ?_
      exact Inv.selectGraphicRendition n (h.modifyCursor h.row h.column h.charset)
        (by split_ifs <;> omega) hoptptr
    · exact .of h

def askedTop (s : TXTextView) (count : ℤ) : ℤ := if count = 0 then 0 else s.esc.opts 0 - 1

def askedBtm (s : TXTextView) (count : ℤ) : ℤ :=
  if count ≤ 1 then s.rows - 1 else s.esc.opts 1 - 1

def ProperMargins (s : TXTextView) (count : ℤ) : Prop :=
  s.askedBtm count ≤ s.askedTop count
    ∨ 0 ≤ s.askedTop count ∧ s.askedBtm count < s.rows

theorem margins_eq (h : 0 ≤ s.esc.optptr) :
    s.margins = some (s.askedTop s.esc.optptr, s.askedBtm s.esc.optptr) := by
  unfold TXTextView.margins askedTop askedBtm
  rw [fetch_eq (by decide) (by decide), bind_some, fetch_eq (by decide) (by decide)]
  split_ifs with hzero hone hle hle hone'
  · rfl
  · omega
  · rfl
  · omega
  · omega
  · rfl

theorem Inv.setMargins (h : s.Inv) (hoptptr : 0 ≤ s.esc.optptr)
    (hC : s.ProperMargins s.esc.optptr) : Yields s.setMargins Inv := by
  have hrows := h.rows
  unfold TXTextView.setMargins
  rw [margins_eq hoptptr, map_some]
  refine .of ?_
  dsimp only
  split_ifs with hle
  · have hwhole : 0 < s.rows - 1 ∧ s.rows - 1 < s.rows := by omega
    exact { h with margins := ⟨le_rfl, hwhole⟩ }
  · obtain hwrong | ⟨htop, hbtm⟩ := hC
    · exact absurd hwrong hle
    · exact { h with margins := ⟨htop, not_le.1 hle, hbtm⟩ }

theorem Inv.doPrivateCSI (h : s.Inv) (ch : UInt8) : Yields (s.doPrivateCSI ch) Inv := by
  unfold TXTextView.doPrivateCSI
  split_ifs
  · rw [parameter_eq s (by decide), map_some]
    refine .of ?_
    split_ifs
    iterate 3 exact { h with }
    exact h
  · exact .of h

variable {ch : UInt8}

theorem Inv.doFinalCSI (h : s.Inv) (hoptptr : 0 ≤ s.esc.optptr ∧ s.esc.optptr ≤ MAX_ESC_OPTS) (hC : Char.ofNat ch.toNat = 'r' → s.ProperMargins s.esc.optptr) :
    Yields (s.doFinalCSI ch) Inv := by
  unfold TXTextView.doFinalCSI
  split
  iterate 4
    exact h.withDefault 1 (f := fun t n => some _) fun t n ht => .of (ht.gotoRelativeRow _ _)
  · exact h.cursorPosition
  · exact h.cursorPosition
  · refine h.withDefault 0 fun t n ht => ?_
    split_ifs
    · exact ht.eraseToScreenEnd.mono fun _ hu => hu.inv ht
    · exact ht.eraseFromScreenStart.mono fun _ hu => hu.inv ht
    · exact ht.fillRows _
    · exact .of ht
  · obtain ⟨t, ht, hinv⟩ := h.setDefault (show _ ∧ 0 < MAX_ESC_OPTS by decide) 0
    rw [ht, map_some, bind_some, parameter_eq _ (by decide), bind_some]
    have hinv' := hinv.setWrapnext false
    split_ifs
    · exact hinv'.eraseToLineEnd.mono fun _ hu => hu.inv hinv'
    · exact hinv'.eraseFromLineStart.mono fun _ hu => hu.inv hinv'
    · exact hinv'.fillRow _
    · exact .of hinv'
  · refine h.withDefault 0 fun t n ht => ?_
    split_ifs
    · rw [store_eq _ ht.column.1 ht.column.2]
      exact .of { ht with }
    · exact .of { ht with }
    · exact .of ht
  · exact Inv.selectGraphicRendition _ h le_rfl hoptptr.2
  · exact h.setMargins hoptptr.1 (hC ‹_›)
  · exact .of h

def given (s : TXTextView) : ℤ :=
  if s.esc.opts s.esc.optptr.toNat = -1 then s.esc.optptr else s.esc.optptr + 1

/-- What a byte of a sequence may do to the parameters, and the end of one to the margins. -/
structure ProperCSI (s : TXTextView) (ch : UInt8) : Prop where
  digit : 0x30 ≤ ch ∧ ch ≤ 0x39 →
    10 * s.esc.opts s.esc.optptr.toNat + (ch.toNat - 0x30) ≤ INT_MAX
  parameter : ch = 0x3b → s.esc.optptr + 1 < MAX_ESC_OPTS
  margins : Char.ofNat ch.toNat = 'r' → s.esc.priv = 0 → s.ProperMargins s.given

theorem Inv.addDigit (h : s.Inv) (hoptptr : 0 ≤ s.esc.optptr ∧ s.esc.optptr < MAX_ESC_OPTS) {d : ℤ}
    (hd : d ≤ 9) (hC : 10 * s.esc.opts s.esc.optptr.toNat + d ≤ INT_MAX) :
    Yields (s.addDigit d) Inv := by
  unfold TXTextView.addDigit
  rw [fetch_eq hoptptr.1 hoptptr.2, bind_some]
  dsimp only
  rw [if_pos, store_eq _ hoptptr.1 hoptptr.2]
  · exact .of (h.setOpts _)
  · split_ifs
    · exact hd.trans (by decide)
    · exact hC

theorem Inv.doParameterCSI (h : s.Inv) (hmode : s.esc.mode = .CSI) (hsubmode : s.esc.submode ≠ 0) (hC : s.ProperCSI ch) : Yields (s.doParameterCSI ch) Inv := by
  have hoptptr := (h.optptr hsubmode).1
  have hlt := h.parameters hmode hsubmode
  unfold TXTextView.doParameterCSI
  split_ifs with hdigit hparameter
  · refine h.addDigit ⟨hoptptr, hlt⟩ ?_ (hC.digit hdigit)
    have := UInt8.le_iff_toNat_le.1 hdigit.2
    simp at this
    omega
  · have hlt' := hC.parameter hparameter
    unfold nextParameter
    rw [if_pos hlt, store_eq _ (by omega) hlt']
    exact .of (h.setEsc (fun _ => ⟨by dsimp only; omega, hlt'.le⟩) fun _ _ => hlt')
  · exact .of (h.setMode nofun)
  · exact h.processNonPrinting ch
  · exact .of h

theorem Inv.endParameters (h : s.Inv) (hmode : s.esc.mode = .CSI) (hsubmode : s.esc.submode ≠ 0) :
    Yields s.endParameters fun t => (t.setMode .NORMAL).Inv ∧ t.esc.priv = s.esc.priv
      ∧ (0 ≤ t.esc.optptr ∧ t.esc.optptr ≤ MAX_ESC_OPTS)
      ∧ (s.ProperMargins s.given → (t.setMode .NORMAL).ProperMargins t.esc.optptr) := by
  have hoptptr := (h.optptr hsubmode).1
  have hlt := h.parameters hmode hsubmode
  have hle : s.esc.optptr + 1 ≤ MAX_ESC_OPTS := hlt
  unfold TXTextView.endParameters given
  rw [parameter_eq s ⟨hoptptr, hlt⟩, map_some]
  refine .of ?_
  split_ifs
  · exact ⟨h.setMode nofun, rfl, ⟨hoptptr, hlt.le⟩, id⟩
  · have hnext : 0 ≤ s.esc.optptr + 1 := by omega
    exact ⟨h.setEsc (fun _ => ⟨hnext, hle⟩) nofun, rfl, ⟨hnext, hle⟩, id⟩

theorem doParameterCSI_of_ge (hch : ¬ ch < 0x40) : s.doParameterCSI ch = some s := by
  have hge : 64 ≤ ch.toNat := UInt8.le_iff_toNat_le.1 (UInt8.not_lt.1 hch)
  unfold doParameterCSI
  have hne : ∀ b : UInt8, b.toNat < 64 → ch ≠ b := by
    rintro b hb rfl
    omega
  rw [if_neg, if_neg (hne _ (by decide)), if_neg (hne _ (by decide)), if_neg]
  · intro hlt
    have : ch.toNat < 32 := UInt8.lt_iff_toNat_lt.1 hlt
    omega
  · rintro ⟨-, hle⟩
    have : ch.toNat ≤ 57 := UInt8.le_iff_toNat_le.1 hle
    omega

theorem Inv.continueCSI (h : s.Inv) (hmode : s.esc.mode = .CSI) (hsubmode : s.esc.submode ≠ 0) (hC : s.ProperCSI ch) : Yields (s.continueCSI ch) Inv := by
  unfold TXTextView.continueCSI
  by_cases hch : ch < 0x40
  · obtain ⟨t, ht, hinv⟩ := h.doParameterCSI hmode hsubmode hC
    rw [ht, bind_some, if_pos hch]
    exact .of hinv
  · rw [doParameterCSI_of_ge hch, bind_some, if_neg hch]
    obtain ⟨t, ht, hinv, hpriv, hoptptr, hmargins⟩ := h.endParameters hmode hsubmode
    rw [ht, bind_some]
    dsimp only
    split_ifs with hlarge hprivate
    · exact .of hinv
    · exact hinv.doPrivateCSI ch
    · exact hinv.doFinalCSI hoptptr fun hr =>
        hmargins (hC.margins hr (hpriv ▸ not_not.1 hprivate))

/-- A sequence that just began has its first parameter, which is not given yet. -/
def begun (s : TXTextView) : TXTextView :=
  if s.esc.submode = 0 then
    { s with esc := { s.esc with
      opts := update s.esc.opts 0 (-1), optptr := 0, submode := 1 } }
  else s

theorem Inv.begun (h : s.Inv) : s.begun.Inv := by
  unfold TXTextView.begun
  split_ifs with hzero
  · have hopts : ∀ {opts : ℕ → ℤ}, Inv { s with
        esc := { s.esc with opts := opts, optptr := 0, submode := 1 } } := fun {_} =>
      h.setEsc (fun _ => ⟨le_rfl, show (0 : ℤ) ≤ 16 by decide⟩)
        fun _ _ => show (0 : ℤ) < 16 by decide
    exact hopts
  · exact h

theorem begun_mode (s : TXTextView) : s.begun.esc.mode = s.esc.mode := by
  unfold begun
  split_ifs <;> rfl

theorem begun_submode (s : TXTextView) : s.begun.esc.submode ≠ 0 := by
  unfold begun
  split_ifs with hzero
  · exact Nat.one_ne_zero
  · exact hzero

theorem Inv.doEscapeCSI (h : s.Inv) (hmode : s.esc.mode = .CSI)
    (hC : s.begun.ProperCSI ch) : Yields (s.doEscapeCSI ch) Inv := by
  have hcontinue := h.begun.continueCSI (s.begun_mode.trans hmode) s.begun_submode hC
  unfold TXTextView.doEscapeCSI
  split
  · rename_i hzero
    split_ifs
    · exact .of (h.setEsc h.optptr h.parameters)
    · unfold beginParameters
      rw [store_eq _ (by decide) (by decide)]
      unfold TXTextView.begun at hcontinue
      rwa [if_pos hzero] at hcontinue
  · rename_i hone
    unfold TXTextView.begun at hcontinue
    rwa [if_neg (by omega)] at hcontinue
  · exact .of h

theorem Inv.wrap (h : s.Inv) : Yields s.wrap Inv := by
  unfold TXTextView.wrap
  split_ifs
  · exact h.newline
  · exact .of h

theorem Inv.putChar (h : s.Inv) (ch : UInt8) : Yields (s.putChar ch) Inv := by
  have hrow := h.row
  have hcolumn := h.column
  have hcell : ∀ (buffer : TvRow → ℕ) v t, s.Redrawn t →
      Yields (t.storeCell buffer s.row s.column v) t.Redrawn := fun buffer v t ht =>
    (storeCell_painted buffer v (by rwa [ht.rows_eq]) (by rwa [ht.cols_eq])).mono
      fun _ => Painted.redrawn
  have hdrawn := Redrawn.andThen (Redrawn.andThen (Redrawn.andThen (Redrawn.andThen
    (hcell TvRow.attr (s.cursorAt s.cursor).attr.toNat.toUInt8 s (.refl s))
    (hcell TvRow.fg (s.cursorAt s.cursor).fg.toNat.toUInt8))
    (hcell TvRow.bg (s.cursorAt s.cursor).bg.toNat.toUInt8)) (hcell TvRow.chars ch))
    fun _ ht => setDirty_redrawn (show 0 ≤ s.row ∧ _ by rwa [ht.rows_eq])
  obtain ⟨t, ht, hred⟩ := hdrawn
  have hinv := hred.inv h
  have hcolumn' := hinv.column
  have hlast : (if t.column < uint (t.cols - 1) then t.setColumn (t.column + 1)
      else if t.mode_wrap then t.setWrapnext true else t).Inv := by
    rw [hinv.lastColumn]
    split_ifs
    · exact hinv.setColumn (by omega)
    · exact hinv.setWrapnext true
    · exact hinv
  exact ⟨_, congrArg (Option.map _) ht, hlast⟩

theorem Inv.printChar (h : s.Inv) (ch : UInt8) : Yields (s.printChar ch) Inv := by
  refine h.wrap.bind fun t ht => ?_
  rw [fetch_eq ht.charset.1 ht.charset.2, bind_some]
  exact ht.putChar _

/-- A byte of a control sequence may have an effect that was not checked. -/
def ProperChar (s : TXTextView) (ch : UInt8) : Prop := s.esc.mode = .CSI → s.begun.ProperCSI ch

theorem Inv.doChar (h : s.Inv) (hC : s.ProperChar ch) : Yields (s.doChar ch) Inv := by
  have hnormal := h.setMode (show EscMode.NORMAL ≠ .CSI from nofun)
  unfold TXTextView.doChar
  split
  · split_ifs
    · exact hnormal.doVT52 ch
    · exact hnormal.doEscape ch
  · exact hnormal.doEscapeTwo ch
  · exact h.doEscapeCSI ‹_› (hC ‹_›)
  · exact .of (h.setEsc h.optptr nofun)
  · exact .of (hnormal.gotoRow _ _)
  · refine .of (h.setEsc h.optptr ?_)
    dsimp only
    split_ifs <;> exact nofun
  · split_ifs
    · exact .of (h.setMode nofun)
    · exact h.processNonPrinting ch
    · exact h.printChar ch
    · exact .of h

end TXTextView

end Etoile.TermX
