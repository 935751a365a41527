import Etoile.Lib.Bounded

/-!
# The terminal

The rows of the screen point into one allocated block.  Accesses outside of an array, an assertion
that fails and a parameter that overflows are failures.  What is only displayed or sent back to the
process is left out.
-/

namespace Etoile.TermX

/-- Conversion to `unsigned int`. -/
def uint (x : ℤ) : ℤ := x % 4294967296

/-- Conversion to `int`. -/
def sint (x : ℤ) : ℤ := if uint x < 2147483648 then uint x else uint x - 4294967296

/-- Conversion to `char`. -/
def char (x : ℤ) : ℤ := if x % 256 < 128 then x % 256 else x % 256 - 256

def INT_MAX : ℤ := 2147483647

/-- `FORCE_RANGE`. -/
def forceRange (min' val max' : ℤ) : ℤ := max min' (min val max')

def MAX_ESC_OPTS : ℤ := 16

structure TvRow where
  dirty : Bool
  attr : ℕ
  fg : ℕ
  bg : ℕ
  chars : ℕ

inductive EscMode
  | NORMAL | ESCAPE | ESCAPE_TWO | CSI | VT52_Y1 | VT52_Y2 | IGNORE
deriving DecidableEq

structure EscState where
  mode : EscMode
  arg : ℤ
  submode : ℕ
  priv : ℤ
  opts : ℕ → ℤ
  optptr : ℤ

structure TXCursor where
  row : ℤ
  column : ℤ
  attr : UInt32
  fg : ℤ
  bg : ℤ
  charset : ℤ

structure TXTextView where
  rows : ℤ
  cols : ℤ
  scroll_top : ℤ
  scroll_btm : ℤ
  scrollbuf : ℕ → TvRow
  /-- Whether `scrollbuf` and `tabstops` are allocated. -/
  allocated : Bool
  scroll_rows_alloc : ℕ → UInt8
  tabstops : ℕ → Bool
  cursorAt : ℕ → TXCursor
  cursor : ℕ
  save_cursor : ℕ
  charsetmap : ℕ → ℤ
  esc : EscState
  wrapnext : Bool
  mode_relative_origin : Bool
  mode_wrap : Bool
  mode_vt52 : Bool

namespace TXTextView

def row (s : TXTextView) : ℤ := (s.cursorAt s.cursor).row

def column (s : TXTextView) : ℤ := (s.cursorAt s.cursor).column

def modifyCursor (f : TXCursor → TXCursor) (s : TXTextView) : TXTextView :=
  { s with cursorAt := Function.update s.cursorAt s.cursor (f (s.cursorAt s.cursor)) }

def setRow (row : ℤ) : TXTextView → TXTextView := modifyCursor fun c => { c with row := uint row }

def setColumn (column : ℤ) : TXTextView → TXTextView :=
  modifyCursor fun c => { c with column := uint column }

def setWrapnext (wrapnext : Bool) (s : TXTextView) : TXTextView := { s with wrapnext := wrapnext }

def setMode (mode : EscMode) (s : TXTextView) : TXTextView :=
  { s with esc := { s.esc with mode := mode } }

/-! ## The screen -/

def storeCell (buffer : TvRow → ℕ) (row column : ℤ) (v : UInt8) (s : TXTextView) :
    Option TXTextView :=
  (fetch s.scrollbuf s.rows row).bind fun r =>
    if 0 ≤ column ∧ column < s.cols then
      some { s with scroll_rows_alloc :=
        Function.update s.scroll_rows_alloc (buffer r + column.toNat) v }
    else none

def setDirty (row : ℤ) (s : TXTextView) : Option TXTextView :=
  (fetch s.scrollbuf s.rows row).bind fun r =>
    (store s.scrollbuf s.rows row { r with dirty := true }).map fun scrollbuf =>
      { s with scrollbuf := scrollbuf }

def fill (row lo hi : ℤ) (ch : UInt8) : TXTextView → Option TXTextView :=
  forUp lo hi fun i s => s.storeCell TvRow.chars row i ch

def fillRow (ch : UInt8) (row : ℤ) (s : TXTextView) : Option TXTextView :=
  (s.fill row 0 s.cols ch).bind (setDirty row)

def fillRows (lo hi : ℤ) (ch : UInt8) : TXTextView → Option TXTextView :=
  forUp lo hi (fillRow ch)

def eraseToLineEnd (s : TXTextView) : Option TXTextView :=
  (s.fill s.row (sint s.column) s.cols 0x20).bind (setDirty s.row)

def eraseFromLineStart (s : TXTextView) : Option TXTextView :=
  (s.fill s.row 0 (sint s.column + 1) 0x20).bind (setDirty s.row)

def eraseToScreenEnd (s : TXTextView) : Option TXTextView :=
  s.eraseToLineEnd.bind (fillRows (sint (s.row + 1)) s.rows 0x20)

def eraseFromScreenStart (s : TXTextView) : Option TXTextView :=
  (s.fillRows 0 (sint s.row) 0x20).bind eraseFromLineStart

/-! ## Scrolling -/

def copyRow (i j : ℤ) (s : TXTextView) : Option TXTextView :=
  (fetch s.scrollbuf s.rows j).bind fun r =>
    (store s.scrollbuf s.rows i r).map fun scrollbuf => { s with scrollbuf := scrollbuf }

def putRow (i : ℤ) (r : TvRow) (s : TXTextView) : Option TXTextView :=
  (store s.scrollbuf s.rows i r).map fun scrollbuf => { s with scrollbuf := scrollbuf }

/-- One line up, in the region from `first` to `last`. -/
def rotateUp (first last : ℤ) (s : TXTextView) : Option TXTextView :=
  (fetch s.scrollbuf s.rows first).bind fun tmp =>
    (forUp first last (fun i => copyRow i (i + 1)) s).bind (putRow last tmp)

def rotateDown (first last : ℤ) (s : TXTextView) : Option TXTextView :=
  (fetch s.scrollbuf s.rows last).bind fun tmp =>
    (forDown last first (fun i => copyRow i (i - 1)) s).bind (putRow first tmp)

def clearMoved (row : ℤ) (s : TXTextView) : Option TXTextView :=
  (s.setDirty row).bind fun s => s.fill row 0 s.cols 0x20

/-- `-scrollRegionFromRow:toRow:byLines:`; nothing is moved, and hence no row known, if the count
is zero. -/
def scrollRegion (first last count : ℤ) (s : TXTextView) : Option TXTextView :=
  if first < last then
    if 0 < count then
      (forUp 0 count (fun _ => rotateUp first last) s).bind (clearMoved last)
    else if count < 0 then
      (forUp 0 (-count) (fun _ => rotateDown first last) s).bind (clearMoved first)
    else none
  else none

def scrollDown (s : TXTextView) : Option TXTextView :=
  if uint s.scroll_btm ≤ s.row then s.scrollRegion s.scroll_top s.scroll_btm 1
  else some (s.setRow (s.row + 1))

def scrollUp (s : TXTextView) : Option TXTextView :=
  if s.row ≤ uint s.scroll_top then s.scrollRegion s.scroll_top s.scroll_btm (-1)
  else some (s.setRow (s.row - 1))

/-! ## The cursor -/

def origin (s : TXTextView) : ℤ := if s.mode_relative_origin then s.scroll_top else 0

def gotoRow (newRow newCol : ℤ) (s : TXTextView) : TXTextView :=
  let column := forceRange 0 newCol (s.cols - 1)
  let row := forceRange s.scroll_top (sint (newRow + s.origin)) s.scroll_btm
  ((s.setColumn column).setRow row).setWrapnext false

/-- The cursor is unsigned, so the ranges are those of unsigned numbers. -/
def gotoRelativeRow (newRow newCol : ℤ) (s : TXTextView) : TXTextView :=
  let column := forceRange 0 (uint (s.column + newCol)) (uint (s.cols - 1))
  let row := forceRange (uint s.scroll_top) (uint (s.row + newRow + s.origin)) (uint s.scroll_btm)
  ((s.setColumn column).setRow row).setWrapnext false

def backspace (s : TXTextView) : TXTextView :=
  let s' :=
    if s.column = 0 then
      if 0 < s.row then (s.setColumn (s.cols - 1)).setRow (s.row - 1) else s
    else if ¬ s.wrapnext then s.setColumn (s.column - 1)
    else s
  s'.setWrapnext false

def nextTabstop : ℕ → TXTextView → Option TXTextView
  | 0, s => some s
  | n + 1, s =>
    let s := s.setColumn (s.column + 1)
    if s.column < uint (s.cols - 1) then
      (fetch s.tabstops s.cols s.column).bind fun stop =>
        if stop then some s else s.nextTabstop n
    else some s

/-- `-processNonPrinting:`. -/
def processNonPrinting (ch : UInt8) (s : TXTextView) : Option TXTextView :=
  match ch.toNat with
  | 0x08 => some s.backspace
  | 0x09 =>
    if s.column < uint (s.cols - 1) then s.nextTabstop (uint (s.cols - 1) - s.column).toNat
    else some s
  | 0x0a | 0x0b | 0x0c => s.scrollDown.map fun s => (s.setColumn 0).setWrapnext false
  | 0x0d => some ((s.setWrapnext false).setColumn 0)
  | 0x0e => some (s.modifyCursor fun c => { c with charset := 1 })
  | 0x0f => some (s.modifyCursor fun c => { c with charset := 0 })
  | _ => some s

/-! ## Escape sequences -/

/-- `-doVT52:`. -/
def doVT52 (ch : UInt8) (s : TXTextView) : Option TXTextView :=
  match Char.ofNat ch.toNat with
  | 'A' => some (s.gotoRelativeRow (-1) 0)
  | 'B' => some (s.gotoRelativeRow 1 0)
  | 'C' => some (s.gotoRelativeRow 0 1)
  | 'D' => some (s.gotoRelativeRow 0 (-1))
  | 'H' => some (s.gotoRow 0 0)
  | 'I' => s.scrollUp
  | 'J' => s.eraseToScreenEnd
  | 'K' => s.eraseToLineEnd
  | 'Y' => some (s.setMode .VT52_Y1)
  | '<' => some { s with mode_vt52 := false }
  | _ => some s

/-- `memmove` of all columns but one, to `to` from `source`, in a buffer of a row. -/
def moveColumns (buffer : TvRow → ℕ) (row dest source : ℤ) (s : TXTextView) : Option TXTextView :=
  (fetch s.scrollbuf s.rows row).bind fun r =>
    if 0 ≤ dest ∧ dest + (s.cols - 1) ≤ s.cols ∧ 0 ≤ source ∧ source + (s.cols - 1) ≤ s.cols then
      let moved (k : ℕ) : UInt8 :=
        if buffer r + dest.toNat ≤ k ∧ k < buffer r + dest.toNat + (s.cols - 1).toNat then
          s.scroll_rows_alloc (k - dest.toNat + source.toNat)
        else s.scroll_rows_alloc k
      some { s with scroll_rows_alloc := moved }
    else none

def moveRow (row dest source blank : ℤ) (s : TXTextView) : Option TXTextView :=
  ((((s.moveColumns TvRow.attr row dest source).bind
    (moveColumns TvRow.fg row dest source)).bind
    (moveColumns TvRow.bg row dest source)).bind
    (moveColumns TvRow.chars row dest source)).bind
    (storeCell TvRow.chars row blank 0x20)

/-- `-doEscape:`. -/
def doEscape (ch : UInt8) (s : TXTextView) : Option TXTextView :=
  match Char.ofNat ch.toNat with
  | '#' | '(' | ')' | '*' | '+' =>
    some { s with esc := { s.esc with mode := .ESCAPE_TWO, arg := char ch.toNat } }
  | '6' =>
    if 0 < s.column then some (s.setColumn (s.column - 1)) else s.moveRow s.row 1 0 0
  | '7' => some { s with save_cursor := s.cursor }
  | '8' => some { s with cursor := s.save_cursor }
  | '9' =>
    if s.column < uint (s.cols - 1) then some (s.setColumn (s.column + 1))
    else s.moveRow s.row 0 1 (s.cols - 1)
  | '@' => some { s with esc := { s.esc with mode := .IGNORE, arg := 1 } }
  | 'D' => s.scrollDown
  | 'E' => s.scrollDown.map (setColumn 0)
  | 'H' => (store s.tabstops s.cols s.column true).map fun tabstops =>
      { s with tabstops := tabstops }
  | 'M' => s.scrollUp
  | '[' => some { s with esc := { s.esc with mode := .CSI, submode := 0, priv := 0 } }
  | _ => some s

/-- `-doEscapeTwo:`. -/
def doEscapeTwo (ch : UInt8) (s : TXTextView) : Option TXTextView :=
  match Char.ofNat s.esc.arg.toNat with
  | '#' => if ch = 8 then s.fillRows 0 s.rows 0x45 else some s
  | '(' => some { s with charsetmap := Function.update s.charsetmap 0 (char ch.toNat) }
  | ')' => some { s with charsetmap := Function.update s.charsetmap 1 (char ch.toNat) }
  | '*' => some { s with charsetmap := Function.update s.charsetmap 2 (char ch.toNat) }
  | '+' => some { s with charsetmap := Function.update s.charsetmap 3 (char ch.toNat) }
  | _ => some s

/-! ## Control sequences -/

def setOpts (opts : ℕ → ℤ) (s : TXTextView) : TXTextView :=
  { s with esc := { s.esc with opts := opts } }

/-- `SET_DEFAULT`. -/
def setDefault (index dflt : ℤ) (s : TXTextView) : Option TXTextView :=
  if s.esc.optptr ≤ index then
    (store s.esc.opts MAX_ESC_OPTS index dflt).map fun opts => s.setOpts opts
  else some s

def addDigit (d : ℤ) (s : TXTextView) : Option TXTextView :=
  (fetch s.esc.opts MAX_ESC_OPTS s.esc.optptr).bind fun opt =>
    let value := if opt < 0 then d else 10 * opt + d
    if value ≤ INT_MAX then
      (store s.esc.opts MAX_ESC_OPTS s.esc.optptr value).map fun opts => s.setOpts opts
    else none

def nextParameter (s : TXTextView) : Option TXTextView :=
  if s.esc.optptr < MAX_ESC_OPTS then
    (store s.esc.opts MAX_ESC_OPTS (s.esc.optptr + 1) (-1)).map fun opts =>
      { s with esc := { s.esc with opts := opts, optptr := s.esc.optptr + 1 } }
  else some s

def selectAttribute (sgr : ℤ) (attr : UInt32) : UInt32 :=
  if sgr = 0 then 0
  else if sgr = 1 then attr ||| 1
  else if sgr = 4 then attr ||| 2
  else if sgr = 5 then attr ||| 4
  else if sgr = 7 then attr ||| 8
  else if sgr = 22 then attr &&& ~~~1
  else if sgr = 24 then attr &&& ~~~2
  else if sgr = 25 then attr &&& ~~~4
  else if sgr = 27 then attr &&& ~~~8
  else attr

def selectForeground (sgr : ℤ) (color : Option ℤ) (fg : ℤ) : ℤ :=
  if sgr = 0 then 7
  else if 30 ≤ sgr ∧ sgr ≤ 37 then sgr - 30
  else if sgr = 38 then (color.map uint).getD fg
  else fg

def selectBackground (sgr : ℤ) (color : Option ℤ) (bg : ℤ) : ℤ :=
  if sgr = 0 ∨ sgr = 49 then 0
  else if sgr = 39 then 7
  else if 40 ≤ sgr ∧ sgr ≤ 47 then sgr - 40
  else if sgr = 48 then (color.map uint).getD bg
  else bg

def selectRendition (sgr : ℤ) (color : Option ℤ) (c : TXCursor) : TXCursor :=
  { c with
    attr := selectAttribute sgr c.attr
    fg := selectForeground sgr color c.fg
    bg := selectBackground sgr color c.bg }

def extendedColor (i : ℤ) (s : TXTextView) : Option (Option ℤ) :=
  if i + 2 < s.esc.optptr then
    (fetch s.esc.opts MAX_ESC_OPTS (i + 1)).bind fun five =>
      if five = 5 then (fetch s.esc.opts MAX_ESC_OPTS (i + 2)).map some else some none
  else some none

/-- The renditions from a parameter on, of which there are at most that many. -/
def selectGraphicRendition : ℕ → ℤ → TXTextView → Option TXTextView
  | 0, _, s => some s
  | n + 1, i, s =>
    if i < s.esc.optptr then
      (fetch s.esc.opts MAX_ESC_OPTS i).bind fun sgr =>
        (if sgr = 38 ∨ sgr = 48 then s.extendedColor i else some none).bind fun color =>
          (s.modifyCursor (selectRendition sgr color)).selectGraphicRendition n
            (if color.isSome then i + 3 else i + 1)
    else some s

def margins (s : TXTextView) : Option (ℤ × ℤ) :=
  if s.esc.optptr = 0 then some (0, s.rows - 1)
  else (fetch s.esc.opts MAX_ESC_OPTS 0).bind fun top =>
    if s.esc.optptr = 1 then some (top - 1, s.rows - 1)
    else (fetch s.esc.opts MAX_ESC_OPTS 1).map fun btm => (top - 1, btm - 1)

def setMargins (s : TXTextView) : Option TXTextView :=
  s.margins.map fun (top, btm) =>
    if btm ≤ top then { s with scroll_top := 0, scroll_btm := s.rows - 1 }
    else { s with scroll_top := top, scroll_btm := btm }

def parameter (i : ℤ) (s : TXTextView) : Option ℤ := fetch s.esc.opts MAX_ESC_OPTS i

def doPrivateCSI (ch : UInt8) (s : TXTextView) : Option TXTextView :=
  if s.esc.priv = 0x3f ∧ Char.ofNat ch.toNat ∈ ['h', 'l', 'r', 's', 't'] then
    (s.parameter 0).map fun option =>
      let state : Bool := Char.ofNat ch.toNat ≠ 'l'
      if option = 2 then { s with mode_vt52 := true }
      else if option = 6 then { s with mode_relative_origin := state }
      else if option = 7 then { s with mode_wrap := state }
      else s
  else some s

def cursorPosition (s : TXTextView) : Option TXTextView :=
  (s.setDefault 0 1).bind fun s => (s.setDefault 1 1).bind fun s =>
    (s.parameter 0).bind fun row => (s.parameter 1).map fun col => s.gotoRow (row - 1) (col - 1)

def doFinalCSI (ch : UInt8) (s : TXTextView) : Option TXTextView :=
  match Char.ofNat ch.toNat with
  | 'A' => (s.setDefault 0 1).bind fun s => (s.parameter 0).map fun n => s.gotoRelativeRow (-n) 0
  | 'B' => (s.setDefault 0 1).bind fun s => (s.parameter 0).map fun n => s.gotoRelativeRow n 0
  | 'C' => (s.setDefault 0 1).bind fun s => (s.parameter 0).map fun n => s.gotoRelativeRow 0 n
  | 'D' => (s.setDefault 0 1).bind fun s => (s.parameter 0).map fun n => s.gotoRelativeRow 0 (-n)
  | 'H' | 'f' => s.cursorPosition
  | 'J' => (s.setDefault 0 0).bind fun s => (s.parameter 0).bind fun n =>
      if n = 0 then s.eraseToScreenEnd
      else if n = 1 then s.eraseFromScreenStart
      else if n = 2 then s.fillRows 0 s.rows 0x20
      else some s
  | 'K' => ((s.setDefault 0 0).map (setWrapnext false)).bind fun s => (s.parameter 0).bind fun n =>
      if n = 0 then s.eraseToLineEnd
      else if n = 1 then s.eraseFromLineStart
      else if n = 2 then s.fillRow 0x20 s.row
      else some s
  | 'g' => (s.setDefault 0 0).bind fun s => (s.parameter 0).bind fun n =>
      if n = 0 then
        (store s.tabstops s.cols s.column false).map fun tabstops => { s with tabstops := tabstops }
      else if n = 3 ∨ n = 5 then some { s with tabstops := fun _ => false }
      else some s
  | 'm' => s.selectGraphicRendition s.esc.optptr.toNat 0
  | 'r' => s.setMargins
  | _ => some s

def beginParameters (s : TXTextView) : Option TXTextView :=
  (store s.esc.opts MAX_ESC_OPTS 0 (-1)).map fun opts =>
    { s with esc := { s.esc with opts := opts, optptr := 0, submode := 1 } }

def doParameterCSI (ch : UInt8) (s : TXTextView) : Option TXTextView :=
  if 0x30 ≤ ch ∧ ch ≤ 0x39 then s.addDigit (ch.toNat - 0x30)
  else if ch = 0x3b then s.nextParameter
  else if ch = 0x1b then some (s.setMode .ESCAPE)
  else if ch < 0x20 then s.processNonPrinting ch
  else some s

def endParameters (s : TXTextView) : Option TXTextView :=
  (s.parameter s.esc.optptr).map fun last =>
    if last = -1 then s else { s with esc := { s.esc with optptr := s.esc.optptr + 1 } }

/-- State 1 of `-doEscapeCSI:`. -/
def continueCSI (ch : UInt8) (s : TXTextView) : Option TXTextView :=
  (s.doParameterCSI ch).bind fun s =>
    if ch < 0x40 then some s
    else s.endParameters.bind fun s =>
      let s := s.setMode .NORMAL
      if 0x7f < ch then some s
      else if s.esc.priv ≠ 0 then s.doPrivateCSI ch
      else s.doFinalCSI ch

/-- `-doEscapeCSI:`. -/
def doEscapeCSI (ch : UInt8) (s : TXTextView) : Option TXTextView :=
  match s.esc.submode with
  | 0 =>
    if 0x3c ≤ ch ∧ ch ≤ 0x3f then some { s with esc := { s.esc with priv := char ch.toNat } }
    else s.beginParameters.bind (continueCSI ch)
  | 1 => s.continueCSI ch
  | _ => some s

/-! ## Input -/

def translate (charset : ℤ) (ch : UInt8) : UInt8 :=
  match Char.ofNat charset.toNat with
  | '0' => if 60 ≤ ch ∧ ch < 0x7f then ch - 0x60 else ch
  | 'A' => if ch = 0x23 then 0xa3 else ch
  | '5' | 'C' =>
    match ch.toNat with
    | 0x5b => 0xc4
    | 0x7b => 0xe4
    | 0x5c => 0xd6
    | 0x7c => 0xf6
    | 0x5d => 0xc5
    | 0x7d => 0xe5
    | 0x5e => 0xdc
    | 0x7e => 0xfc
    | 0x60 => 0xe9
    | _ => ch
  | 'K' =>
    match ch.toNat with
    | 0x40 => 0xa7
    | 0x5b => 0xc4
    | 0x7b => 0xe4
    | 0x5c => 0xd6
    | 0x7c => 0xf6
    | 0x5d => 0xdc
    | 0x7d => 0xfc
    | 0x7e => 0xdf
    | _ => ch
  | _ => ch

def wrap (s : TXTextView) : Option TXTextView :=
  if s.wrapnext then s.scrollDown.map fun s => (s.setColumn 0).setWrapnext false else some s

def putChar (ch : UInt8) (s : TXTextView) : Option TXTextView :=
  let c := s.cursorAt s.cursor
  (((((s.storeCell TvRow.attr c.row c.column c.attr.toNat.toUInt8).bind
    (storeCell TvRow.fg c.row c.column c.fg.toNat.toUInt8)).bind
    (storeCell TvRow.bg c.row c.column c.bg.toNat.toUInt8)).bind
    (storeCell TvRow.chars c.row c.column ch)).bind
    (setDirty c.row)).map fun s =>
      if s.column < uint (s.cols - 1) then s.setColumn (s.column + 1)
      else if s.mode_wrap then s.setWrapnext true
      else s

def printChar (ch : UInt8) (s : TXTextView) : Option TXTextView :=
  s.wrap.bind fun s =>
    (fetch s.charsetmap 4 (s.cursorAt s.cursor).charset).bind fun charset =>
      s.putChar (translate charset ch)

/-- What `-doChars:` does for a byte. -/
def doChar (s : TXTextView) (ch : UInt8) : Option TXTextView :=
  match s.esc.mode with
  | .ESCAPE =>
    if s.mode_vt52 then (s.setMode .NORMAL).doVT52 ch else (s.setMode .NORMAL).doEscape ch
  | .ESCAPE_TWO => (s.setMode .NORMAL).doEscapeTwo ch
  | .CSI => s.doEscapeCSI ch
  | .VT52_Y1 => some { s with esc := { s.esc with mode := .VT52_Y2, arg := char ch.toNat } }
  | .VT52_Y2 => some ((s.setMode .NORMAL).gotoRow (s.esc.arg - 0x20) (ch.toNat - 0x20))
  | .IGNORE =>
    let arg := char (s.esc.arg - 1)
    some { s with esc := { s.esc with arg := arg, mode := if arg = 0 then .NORMAL else .IGNORE } }
  | .NORMAL =>
    if ch = 0x1b then some (s.setMode .ESCAPE)
    else if ch < 0x20 then s.processNonPrinting ch
    else if ch ≠ 0x7f then s.printChar ch
    else some s

/-- `-doChars:`. -/
def doChars (buf : List UInt8) (s : TXTextView) : Option TXTextView := buf.foldlM doChar s

/-! ## Resizing -/

/-- The buffers of a row in the allocated block, whose offsets may not overflow. -/
def allocatedRow (cols r : ℤ) : Option TvRow :=
  if (r * 4 + 3) * cols ≤ INT_MAX then
    some ⟨true, (r * 4 * cols).toNat, ((r * 4 + 1) * cols).toNat, ((r * 4 + 2) * cols).toNat,
      ((r * 4 + 3) * cols).toNat⟩
  else none

/-- `memcpy` of so many columns from a row of the old screen. -/
def copyCells (old : TXTextView) (buffer : TvRow → ℕ) (r n : ℤ) (s : TXTextView) :
    Option TXTextView :=
  (fetch old.scrollbuf old.rows r).bind fun source => (fetch s.scrollbuf s.rows r).bind fun dest =>
    if 0 ≤ n ∧ n ≤ old.cols ∧ n ≤ s.cols then
      let copied (k : ℕ) : UInt8 :=
        if buffer dest ≤ k ∧ k < buffer dest + n.toNat then
          old.scroll_rows_alloc (k - buffer dest + buffer source)
        else s.scroll_rows_alloc k
      some { s with scroll_rows_alloc := copied }
    else none

def copyOldRow (old : TXTextView) (r n : ℤ) (s : TXTextView) : Option TXTextView :=
  (((copyCells old TvRow.attr r n s).bind (copyCells old TvRow.fg r n)).bind
    (copyCells old TvRow.bg r n)).bind (copyCells old TvRow.chars r n)

def resizeRow (old : TXTextView) (r : ℤ) (s : TXTextView) : Option TXTextView :=
  (((allocatedRow s.cols r).bind fun row => s.putRow r row).bind (fill r 0 s.cols 0x20)).bind
    fun s' =>
      if r < old.rows ∧ old.allocated then copyOldRow old r (min s.cols old.cols) s' else some s'

def setTabstop (i : ℤ) (stop : Bool) (s : TXTextView) : Option TXTextView :=
  (store s.tabstops s.cols i stop).map fun tabstops => { s with tabstops := tabstops }

/-- Tab stops are kept as far as there are any, and are at every eighth column beyond. -/
def resizeTabstops (old : TXTextView) (s : TXTextView) : Option TXTextView :=
  let overlapCols := min s.cols old.cols
  if old.allocated then
    (forUp 0 overlapCols (fun i s =>
      (fetch old.tabstops old.cols i).bind fun stop => s.setTabstop i stop) s).bind
    (forUp overlapCols s.cols fun i s => s.setTabstop i (i % 8 = 0))
  else forUp 0 s.cols (fun i s => s.setTabstop i (i % 8 = 0)) s

/-- The cursor stays on the screen, and the margins are those of the screen. -/
def resizeCursor (s : TXTextView) : TXTextView :=
  let s := if uint s.rows ≤ s.row then s.setRow (s.rows - 1) else s
  let s := if uint s.cols ≤ s.column then s.setColumn (s.cols - 1) else s
  { s with scroll_top := 0, scroll_btm := s.rows - 1 }

/-- `-resizeBuffer`, to a window of this size. -/
def resizeBuffer (rows cols : ℤ) (s : TXTextView) : Option TXTextView :=
  if rows * cols ≤ INT_MAX then
    ((forUp 0 rows (resizeRow s) { s with
      rows := rows
      cols := cols
      scrollbuf := fun _ => ⟨false, 0, 0, 0, 0⟩
      scroll_rows_alloc := fun _ => 0
      allocated := true
      tabstops := fun _ => false }).bind (resizeTabstops s)).map resizeCursor
  else none

/-- `-initWithFrame:`. -/
def initWithFrame : TXTextView where
  rows := 24
  cols := 80
  scroll_top := 0
  scroll_btm := 0
  scrollbuf _ := ⟨false, 0, 0, 0, 0⟩
  allocated := false
  scroll_rows_alloc _ := 0
  tabstops _ := false
  cursorAt _ := ⟨0, 0, 0, 7, 0, 0⟩
  cursor := 0
  save_cursor := 0
  charsetmap _ := 0x42
  esc := ⟨.NORMAL, 0, 0, 0, fun _ => 0, 0⟩
  wrapnext := false
  mode_relative_origin := false
  mode_wrap := true
  mode_vt52 := false

end TXTextView

end Etoile.TermX
