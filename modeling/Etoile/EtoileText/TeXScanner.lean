import Etoile.Lib.Fuel
import Etoile.Lib.Tokens

/-!
# The TeX scanner

`-parseString:` reads a string 64 characters at a time.  What raises is `none`, as in `whileLoop`.
-/

namespace Etoile.EtoileText

abbrev Unichar := UInt16

abbrev NSString := List Unichar

structure NSRange where
  location : ℕ
  length : ℕ

def characterAtIndex (s : NSString) (i : ℕ) : Option Unichar := s[i]?

def substringWithRange (s : NSString) (r : NSRange) : Option NSString :=
  if r.location + r.length ≤ s.length then some ((s.drop r.location).take r.length) else none

instance : Coe Char Unichar := ⟨fun c => c.toNat.toUInt16⟩

inductive ScannerEvent
  | beginCommand (name : NSString)
  | beginOptArg
  | endOptArg
  | beginArgument
  | endArgument
  | handleText (text : NSString)
  deriving DecidableEq

def isCommandEnd (c : Unichar) : Bool :=
  c ∈ (['\n', '\t', '\\', ' ', '{', '[', ']', '}'] : List Char).map (↑·)

def isEscaped (c : Unichar) : Bool := c = '\\' || c = '_' || c = '%'

def bufferSize : ℕ := 64

/-- The variables of `-parseString:`, and what its delegate was told. -/
structure Scan where
  range : NSRange := ⟨0, bufferSize⟩
  textRange : NSRange := ⟨0, 0⟩
  idx : ℕ := 0
  buffer : List Unichar := []
  i : UInt32 := 0
  delegate : List ScannerEvent := []

namespace Scan

def tell (e : ScannerEvent) (st : Scan) : Scan := { st with delegate := st.delegate ++ [e] }

/-- `PASS_TEXT`. -/
def passText (s : NSString) (st : Scan) : Option Scan :=
  if st.textRange.length > 0 then
    (substringWithRange s st.textRange).map fun text =>
      { st.tell (.handleText text) with textRange := ⟨st.idx + 1, 0⟩ }
  else some { st with textRange := ⟨st.idx + 1, st.textRange.length⟩ }

def skip (n : ℕ) (st : Scan) : Scan := { st with idx := st.idx + n, i := st.i + n.toUInt32 }

/-- Where the index has left the buffer, the next one starts after it. -/
def leaveBuffer (st : Scan) : Scan :=
  { st with range :=
      ⟨if (st.i + 1).toNat > st.range.length then st.idx + 1 else st.range.location,
        st.range.length⟩ }

def restartText (location length : ℕ) (st : Scan) : Scan :=
  { st with textRange := ⟨location, length⟩ }

def scanArgument (s : NSString) (e : ScannerEvent) (st : Scan) : Option Scan :=
  (st.passText s).map (tell e)

def scanEscaped (s : NSString) (st : Scan) : Option Scan :=
  (st.passText s).map fun st =>
    let st := st.skip 1
    (st.restartText st.textRange.location 1).leaveBuffer

/-- The place of the first character of `CommandEndCharacterSet`. -/
def rangeOfCommandEnd (s : NSString) (start : ℕ) : Option ℕ :=
  ((s.drop start).findIdx? isCommandEnd).map (start + ·)

def scanCommand (s : NSString) (st : Scan) : Option Scan :=
  (st.passText s).bind fun st =>
    let start := st.idx + 1
    let r : NSRange := ⟨start, (rangeOfCommandEnd s start).getD (s.length - 1) - start⟩
    (substringWithRange s r).map fun name =>
      let st := (st.tell (.beginCommand name)).skip r.length
      (st.restartText (st.idx + 1) st.textRange.length).leaveBuffer

def scanBackslash (s : NSString) (st : Scan) : Option Scan :=
  if st.idx ≠ s.length then
    (characterAtIndex s (st.idx + 1)).bind fun c =>
      if isEscaped c then st.scanEscaped s else st.scanCommand s
  else some st

def scanText (st : Scan) : Scan :=
  st.restartText st.textRange.location (st.textRange.length + 1)

def dash (s : NSString) (st : Scan) : Unichar × ℕ :=
  if st.idx + 2 < s.length ∧ characterAtIndex s (st.idx + 1) = some ↑ '-' then (8212, 2)
  else (8211, 1)

def scanHyphen (s : NSString) (st : Scan) : Option Scan :=
  if st.idx + 1 < s.length ∧ characterAtIndex s (st.idx + 1) = some ↑ '-' then
    (st.passText s).map fun st =>
      let (dash, skip) := st.dash s
      let st := ((st.tell (.handleText [dash])).skip skip).leaveBuffer
      st.restartText (st.idx + 1) st.textRange.length
  else some st.scanText

def scanQuote (s : NSString) (mark single double : Unichar) (st : Scan) : Option Scan :=
  (st.passText s).map fun st =>
    let (quote, st) :=
      if st.idx + 1 < s.length ∧ characterAtIndex s (st.idx + 1) = some mark then
        (double, (st.skip 1).leaveBuffer)
      else (single, st)
    (st.tell (.handleText [quote])).restartText (st.idx + 1) st.textRange.length

def scanCharacter (s : NSString) (c : Unichar) (st : Scan) : Option Scan :=
  if c = '{' then st.scanArgument s .beginArgument
  else if c = '}' then st.scanArgument s .endArgument
  else if c = '[' then st.scanArgument s .beginOptArg
  else if c = ']' then st.scanArgument s .endOptArg
  else if c = '\\' then st.scanBackslash s
  else if c = '-' then st.scanHyphen s
  else if c = '\'' then st.scanQuote s '\'' 8217 8221
  else if c = '`' then st.scanQuote s '`' 8216 8220
  else some st.scanText

def advance (st : Scan) : Scan := { st with i := st.i + 1, idx := st.idx + 1 }

def hasNext (st : Scan) : Bool := st.i.toNat < st.range.length

def scanNext (s : NSString) (st : Scan) : Option Scan :=
  st.buffer[st.i.toNat]?.bind fun c => (st.scanCharacter s c).map advance

def fillBuffer (s : NSString) (st : Scan) : Scan :=
  let length :=
    if st.range.location + st.range.length > s.length then s.length - st.range.location
    else st.range.length
  { st with
    buffer := (s.drop st.range.location).take length
    range := ⟨st.range.location + bufferSize, length⟩
    i := 0 }

def hasMore (s : NSString) (st : Scan) : Bool := st.range.location < s.length

def scanBuffer (fuel : ℕ) (s : NSString) (st : Scan) : Option Scan :=
  whileLoop hasNext (scanNext s) fuel (st.fillBuffer s)

end Scan

def parseString (fuel : ℕ) (s : NSString) : Option (List ScannerEvent) :=
  ((whileLoop (Scan.hasMore s) (Scan.scanBuffer fuel s) fuel {}).bind (Scan.passText s)).map
    Scan.delegate

def backslashLexeme (t : List Unichar) : ScannerEvent × ℕ :=
  if t.head?.any isEscaped then (.handleText (t.take 1), 1)
  else
    (.beginCommand (t.takeWhile (!isCommandEnd ·)), (t.takeWhile (!isCommandEnd ·)).length)

def hyphenLexeme (t : List Unichar) : ScannerEvent × ℕ :=
  if t.take 2 = [↑ '-', ↑ '-'] then (.handleText [8212], 2)
  else if t.take 1 = [↑ '-'] then (.handleText [8211], 1)
  else (.handleText [↑ '-'], 0)

def otherLexeme (c : Unichar) (t : List Unichar) : ScannerEvent × ℕ :=
  if c = '{' then (.beginArgument, 0)
  else if c = '}' then (.endArgument, 0)
  else if c = '[' then (.beginOptArg, 0)
  else if c = ']' then (.endOptArg, 0)
  else if c = '\'' then
    if t.take 1 = [↑ '\''] then (.handleText [8221], 1) else (.handleText [8217], 0)
  else if c = '`' then
    if t.take 1 = [↑ '`'] then (.handleText [8220], 1) else (.handleText [8216], 0)
  else (.handleText [c], 0)

/-- The token that begins with a character, and how many of the characters after it belong to
it. -/
def lexeme (c : Unichar) (t : List Unichar) : ScannerEvent × ℕ :=
  if c = '\\' then backslashLexeme t else if c = '-' then hyphenLexeme t else otherLexeme c t

def ScannerEvent.pieces : ScannerEvent → List ScannerEvent
  | handleText text => text.map fun c => .handleText [c]
  | e => [e]

/-- The delegate is told the tokens of the string, up to how the text is cut into pieces. -/
def ScansTokens (s : NSString) : Prop :=
  ∃ fuel events, parseString fuel s = some events ∧ events.flatMap (·.pieces) = tokens lexeme s

end Etoile.EtoileText
