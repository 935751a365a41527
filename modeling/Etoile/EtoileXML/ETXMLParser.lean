import Mathlib.Data.Nat.Notation

/-!
# The XML parser

The parser keeps what it has not parsed yet in a buffer, and goes over it again when more text
comes.  An index is `none` where the source has `-1`.
-/

namespace Etoile.EtoileXML

abbrev NSString := List Char

-- in preference to an instance that goes through all characters there are
instance decidableForallMem (p : Char → Prop) [DecidablePred p] (s : NSString) :
    Decidable (∀ c ∈ s, p c) :=
  List.decidableBAll p s

def isspace (c : Char) : Bool :=
  c = ' ' || c = '\t' || c = '\n' || c = '\x0b' || c = '\x0c' || c = '\r'

/-- `-replaceOccurrencesOfString:withString:options:range:` over a whole string.  The number is how
many characters are left of the occurrence that has been replaced last. -/
def replaceFrom (target replacement : NSString) : ℕ → NSString → NSString
  | _, [] => []
  | skip + 1, _ :: s => replaceFrom target replacement skip s
  | 0, c :: s =>
    if target.isPrefixOf (c :: s) then
      replacement ++ replaceFrom target replacement (target.length - 1) s
    else c :: replaceFrom target replacement 0 s

def replaceOccurrences (target replacement : String) (s : NSString) : NSString :=
  replaceFrom target.toList replacement.toList 0 s

def escapeXMLCData (s : NSString) : NSString :=
  replaceOccurrences "\"" "&quot;" <| replaceOccurrences "'" "&apos;" <|
    replaceOccurrences ">" "&gt;" <| replaceOccurrences "<" "&lt;" <|
      replaceOccurrences "&" "&amp;" s

def unescapeXMLCData (s : NSString) : NSString :=
  replaceOccurrences "&quot;" "\"" <| replaceOccurrences "&apos;" "'" <|
    replaceOccurrences "&amp;" "&" <| replaceOccurrences "&gt;" ">" <|
      replaceOccurrences "&lt;" "<" s

def rangeOfString (target : NSString) : NSString → Option ℕ
  | [] => if target.isPrefixOf [] then some 0 else none
  | c :: s => if target.isPrefixOf (c :: s) then some 0 else (rangeOfString target s).map (· + 1)

abbrev Attributes := List (NSString × NSString)

/-- `-setValue:forKey:`. -/
def setValue (attributes : Attributes) (name value : NSString) : Attributes :=
  if attributes.any (·.1 = name) then
    attributes.map fun a => if a.1 = name then (name, value) else a
  else attributes ++ [(name, value)]

inductive Event
  | startElement (name : NSString) (attributes : Attributes)
  | endElement (name : NSString)
  | characters (text : NSString)
  deriving DecidableEq

inductive ParserState
  | notag
  | intag
  | inattribute
  | incdata
  | instupidcdata
  | incomment
  | broken
  deriving DecidableEq

inductive MarkupLanguage
  | PARSER_MODE_XML
  | PARSER_MODE_SGML
  deriving DecidableEq

structure ETXMLParser where
  buffer : NSString := []
  openTags : List NSString := []
  state : ParserState := .notag
  mode : MarkupLanguage := .PARSER_MODE_XML
  deriving DecidableEq

section Scanning

/-- Goes on while the characters are as given; `none` if there is no other. -/
def scanWhile (p : Char → Bool) : NSString → ℕ → Option ℕ
  | [], _ => none
  | c :: s, index => if p c then scanWhile p s (index + 1) else some index

def parseFrom (buffer : NSString) (index : ℕ) (endCharacter : Char) : Option ℕ :=
  scanWhile (· ≠ endCharacter) (buffer.drop index) index

def ignoreWhiteSpaceFrom (buffer : NSString) (index : ℕ) : Option ℕ :=
  scanWhile isspace (buffer.drop index) index

/-- `CURRENTSTRING`. -/
def currentString (buffer : NSString) (start current : ℕ) : NSString :=
  (buffer.drop start).take (current - start)

def ISCOMMENT (tag : NSString) : Bool := "!--".toList.isPrefixOf tag

def CDATA : NSString := "![CDATA[".toList

/-- How `-parseTagFrom:named:withAttributes:` ends without a tag.  `raised` is the exception that
an index out of range raises; `unfinished` does not occur, see `parseTagFrom_finishes`. -/
inductive TagFailure
  | TEMPORARYFAILURE
  | FAILURE
  | raised
  | unfinished
  deriving DecidableEq

def orFail {α : Type} (failure : TagFailure) : Option α → Except TagFailure α
  | some a => .ok a
  | none => .error failure

/-- The loop over the name: its length, and whether it has stopped at the start of a CDATA
section.  The last character of the buffer is not part of a name. -/
def scanName (start : NSString) : NSString → ℕ → ℕ × Bool
  | c :: d :: s, n =>
    if isspace c || c = '>' || c = '/' then (n, false)
    else if n + 1 = 8 ∧ start.take 8 = CDATA then (n + 1, true)
    else scanName start (d :: s) (n + 1)
  | _, n => (n, false)

def parseValue (buffer : NSString) (mode : MarkupLanguage) (current : ℕ) :
    Except TagFailure (NSString × ℕ) := do
  let quote ← orFail .raised buffer[current]?
  if quote = '"' ∨ quote = '\'' then
    let start := current + 1
    let current ← orFail .TEMPORARYFAILURE (parseFrom buffer start quote)
    return (currentString buffer start current, current + 1)
  else if mode = .PARSER_MODE_XML then throw .FAILURE
  else
    let start := current
    let current ← orFail .TEMPORARYFAILURE
      (scanWhile (fun c => c ≠ ' ' && c ≠ '>') (buffer.drop start) start)
    return (currentString buffer start current, current)

def parseAttribute (buffer : NSString) (mode : MarkupLanguage) (start : ℕ)
    (attributes : Attributes) : Except TagFailure (ℕ × Attributes) := do
  let current ← orFail .TEMPORARYFAILURE (parseFrom buffer start '=')
  let attributeName := currentString buffer start current
  let current := current + 1
  if current ≥ buffer.length then throw .TEMPORARYFAILURE
  let (attributeValue, start) ← parseValue buffer mode current
  let attributes := setValue attributes attributeName (unescapeXMLCData attributeValue)
  let start ← orFail .TEMPORARYFAILURE (ignoreWhiteSpaceFrom buffer start)
  return (start, attributes)

/-- `[buffer characterAtIndex:(start + 1)] == '>'`, tested only within the buffer. -/
def isEndAfter (buffer : NSString) (start : ℕ) : Bool := buffer[start + 1]? = some '>'

def parseAttributes (buffer : NSString) (mode : MarkupLanguage) :
    ℕ → ℕ → Attributes → Except TagFailure (ℕ × Attributes)
  | 0, _, _ => throw .unfinished
  | fuel + 1, start, attributes => do
    let c ← orFail .raised buffer[start]?
    if c ≠ '>' ∧ start + 1 < buffer.length ∧ isEndAfter buffer start = false then
      let (start, attributes) ← parseAttribute buffer mode start attributes
      parseAttributes buffer mode fuel start attributes
    else if c = '>' ∨ isEndAfter buffer start then return (start, attributes)
    else throw .TEMPORARYFAILURE

/-- What the source stores through its arguments when it returns `SUCCESS`. -/
structure Tag where
  index : ℕ
  name : NSString
  attributes : Attributes := []
  deriving DecidableEq

/-- `-parseTagFrom:named:withAttributes:`. -/
def parseTagFrom (buffer : NSString) (mode : MarkupLanguage) (index : ℕ) :
    Except TagFailure Tag := do
  let start ← orFail .TEMPORARYFAILURE (ignoreWhiteSpaceFrom buffer index)
  let start ← orFail .raised
    (scanWhile (fun c => c = '<' || c = '/') (buffer.drop start) start)
  let start ← orFail .TEMPORARYFAILURE (ignoreWhiteSpaceFrom buffer start)
  let (length, isCDATA) := scanName (buffer.drop start) (buffer.drop start) 0
  let name := (buffer.drop start).take length
  if isCDATA then return { index := start + length, name }
  if ISCOMMENT name then
    let current ← orFail .TEMPORARYFAILURE (parseFrom buffer start '>')
    return { index := current, name }
  let start ← orFail .TEMPORARYFAILURE (ignoreWhiteSpaceFrom buffer (start + length))
  let (index, attributes) ← parseAttributes buffer mode (buffer.length + 1) start []
  return { index, name, attributes }

end Scanning

/-- The parser and the variables of `-parseFromSource:`, and what the delegate was told. -/
structure Parse where
  buffer : NSString
  openTags : List NSString
  state : ParserState
  mode : MarkupLanguage
  currentIndex : ℕ := 0
  lastSuccessfullyParsed : ℕ := 0
  events : List Event := []
  deriving DecidableEq

inductive Turn
  | goOn (s : Parse)
  | done (result : Bool) (s : Parse)
  | raised (s : Parse)
  deriving DecidableEq

namespace Parse

def tell (s : Parse) (e : Event) : Parse := { s with events := s.events ++ [e] }

def within (s : Parse) (state : ParserState) : Parse := { s with state }

/-- `ENDPARSINGIF`. -/
def endParsing (s : Parse) : Turn :=
  .done true { s with buffer := s.buffer.drop s.lastSuccessfullyParsed }

def clear (s : Parse) : Turn := .done true { s with buffer := [] }

def giveUp (s : Parse) : Turn := .done false (s.within .broken)

def parsedTo (s : Parse) (index : ℕ) : Parse :=
  { s with currentIndex := index, lastSuccessfullyParsed := index }

def notag (s : Parse) : Turn :=
  match ignoreWhiteSpaceFrom s.buffer s.currentIndex with
  | none => s.clear
  | some index =>
    match parseFrom s.buffer index '<' with
    | none => s.endParsing
    | some index =>
      let s := s.within .intag
      match s.buffer[index + 1]? with
      | none => s.endParsing
      | some c =>
        if c = '!' ∨ c = '?' then
          match parseFrom s.buffer (index + 1) '>' with
          | none => s.endParsing
          | some index => .goOn
            { s with state := .notag, lastSuccessfullyParsed := index, currentIndex := index + 1 }
        else .goOn (s.parsedTo (index + 1))

/-- `currentIndex--; SKIPTO('>'); currentIndex++`, where the first may give `-1`. -/
def skipPast (s : Parse) : ℕ → Turn
  | 0 => .raised s
  | index + 1 =>
    match parseFrom s.buffer index '>' with
    | none => s.endParsing
    | some index => .goOn (s.parsedTo (index + 1))

/-- The delegate is told of the end of an element, if it is the one that is open. -/
def close (s : Parse) (tag : Tag) : Turn :=
  match s.mode with
  | .PARSER_MODE_SGML => ((s.tell (.endElement tag.name)).within .incdata).skipPast (tag.index + 1)
  | .PARSER_MODE_XML =>
    match s.openTags with
    | [] => s.giveUp
    | name :: openTags =>
      if name = tag.name then
        (({ s with openTags }.tell (.endElement tag.name)).within .incdata).skipPast (tag.index + 1)
      else s.giveUp

def openElement (s : Parse) (tag : Tag) : Parse :=
  let s := (s.tell (.startElement tag.name tag.attributes)).within .incdata
  match s.mode with
  | .PARSER_MODE_XML => { s with openTags := tag.name :: s.openTags }
  | .PARSER_MODE_SGML => s

/-- The end of the tag, which is the end of the element too if there is a `'/'`. -/
def tagEnd (s : Parse) (openTag : Bool) (tag : Tag) : Turn :=
  match s.buffer[tag.index]? with
  | none => .raised s
  | some c => if c = '/' ∨ openTag = false then s.close tag else s.skipPast tag.index

/-- What is done with a tag that `-parseTagFrom:named:withAttributes:` has found; a comment has set
the state there. -/
def tag (s : Parse) (openTag : Bool) (tag : Tag) : Turn :=
  let s := if ISCOMMENT tag.name then s.within .incdata else s
  if openTag && tag.name = CDATA then .goOn ((s.within .instupidcdata).parsedTo tag.index)
  else if openTag && !ISCOMMENT tag.name then (s.openElement tag).tagEnd openTag tag
  else s.tagEnd openTag tag

/-- The `switch` over the result of `-parseTagFrom:named:withAttributes:`. -/
def tagParsed (s : Parse) (openTag : Bool) : Except TagFailure Tag → Turn
  | .ok tag => s.tag openTag tag
  | .error .TEMPORARYFAILURE => s.endParsing
  | .error .FAILURE => s.giveUp
  | .error .raised | .error .unfinished => .raised s

def intag (s : Parse) : Turn :=
  match s.buffer[s.currentIndex]? with
  | none => .raised s
  | some c =>
    let index := if c = '<' then s.currentIndex + 1 else s.currentIndex
    match s.buffer[index]? with
    | none => .done true { s with buffer := s.buffer.drop index }
    | some c =>
      let openTag := c ≠ '/'
      let index := if c = '/' then index + 1 else index
      s.tagParsed openTag (parseTagFrom s.buffer s.mode index)

def incdata (s : Parse) : Turn :=
  match parseFrom s.buffer s.currentIndex '<' with
  | none => s.endParsing
  | some index =>
    let s := { s with currentIndex := index }
    if index = s.lastSuccessfullyParsed then .goOn (s.within .intag)
    else
      let cdata := currentString s.buffer s.lastSuccessfullyParsed index
      if '>' ∈ cdata then s.giveUp
      else .goOn (((s.tell (.characters cdata)).parsedTo index).within .intag)

def instupidcdata (s : Parse) : Turn :=
  let cdata := s.buffer.drop s.lastSuccessfullyParsed
  match rangeOfString "]]>".toList cdata with
  | none => .goOn ((s.tell (.characters cdata)).parsedTo s.buffer.length)
  | some location => .goOn (((s.tell (.characters (cdata.take location))).within .notag).parsedTo
      (s.currentIndex + location + 3))

/-- One turn of the loop of `-parseFromSource:`. -/
def turn (s : Parse) : Turn :=
  match s.state with
  | .notag => s.notag
  | .intag => s.intag
  | .incdata => s.incdata
  | .instupidcdata => s.instupidcdata
  | .inattribute | .incomment | .broken => .goOn s

/-- The loop; `none` if it has more turns than that. -/
def run : ℕ → Parse → Option Turn
  | 0, _ => none
  | fuel + 1, s =>
    if s.currentIndex < s.buffer.length then
      match s.turn with
      | .goOn s => run fuel s
      | t => some t
    else some s.clear

end Parse

namespace ETXMLParser

def start (p : ETXMLParser) (data : NSString) : Parse :=
  { buffer := p.buffer ++ data, openTags := p.openTags, state := p.state, mode := p.mode }

def finish (s : Parse) : ETXMLParser :=
  { buffer := s.buffer, openTags := s.openTags, state := s.state, mode := s.mode }

/-- What a call of `-parseFromSource:` comes to, with what the delegate was told: the value that is
returned, with the parser that is left, or an exception. -/
inductive Outcome
  | returned (result : Bool) (p : ETXMLParser) (events : List Event)
  | raised (p : ETXMLParser) (events : List Event)
  deriving DecidableEq

/-- Enough turns for a text of that length, see `run_finishes`. -/
def turns (length : ℕ) : ℕ := 3 * length + 3

/-- `none` if the loop does not end. -/
def parseFromSource (p : ETXMLParser) (data : NSString) : Option Outcome :=
  if p.state = .broken then some (.returned false p [])
  else (Parse.run (turns (p.buffer.length + data.length)) (p.start data)).map fun
    | .goOn s | .raised s => .raised (finish s) s.events
    | .done result s => .returned result (finish s) s.events

end ETXMLParser

end Etoile.EtoileXML
