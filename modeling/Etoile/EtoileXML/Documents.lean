import Etoile.EtoileXML.Tags

/-!
# Documents

A document is a list of tags, text, comments and CDATA sections.  The parser goes over each of them
from where the one before has ended, in character data or, after a CDATA section, where it looks
for the next tag.
-/

namespace Etoile.EtoileXML

open List

inductive Token
  | startTag (tag : WrittenTag)
  | emptyTag (tag : WrittenTag)
  | endTag (name space : NSString)
  | text (text : NSString)
  | comment (text : NSString)
  | CDATA (text : NSString)
  deriving DecidableEq

namespace Token

def written : Token → NSString
  | startTag tag => '<' :: (tag.written ++ ['>'])
  | emptyTag tag => '<' :: (tag.written ++ ['/', '>'])
  | endTag name space => '<' :: '/' :: (name ++ space ++ ['>'])
  | text s => s
  | comment s => '<' :: ("!--".toList ++ s ++ "-->".toList)
  | CDATA s => '<' :: (EtoileXML.CDATA ++ s ++ "]]>".toList)

def events : Token → List Event
  | startTag tag => [.startElement tag.name tag.read]
  | emptyTag tag => [.startElement tag.name tag.read, .endElement tag.name]
  | endTag name _ => [.endElement name]
  | text s | CDATA s => [.characters s]
  | comment _ => []

end Token

namespace Parse

inductive Steps : Parse → Parse → Prop
  | refl (s : Parse) : Steps s s
  | turn {s t u : Parse} (hlt : s.currentIndex < s.buffer.length) (h : s.turn = .goOn t)
    (hrest : Steps t u) : Steps s u

variable {s t u : Parse}

theorem Steps.trans (h : Steps s t) (h' : Steps t u) : Steps s u := by
  induction h with
  | refl => exact h'
  | turn hlt hturn _ ih => exact .turn hlt hturn (ih h')

theorem Steps.one (hlt : s.currentIndex < s.buffer.length) (h : s.turn = .goOn t) : Steps s t :=
  .turn hlt h (.refl t)

theorem Steps.run (h : Steps s t) :
    ∀ {fuel : ℕ}, run fuel s ≠ none → ∃ fuel', run fuel s = run (fuel' + 1) t := by
  induction h with
  | refl s =>
    intro fuel hfuel
    rcases fuel with _ | fuel
    · exact absurd rfl hfuel
    · exact ⟨fuel, rfl⟩
  | @turn s t u hlt hturn _ ih =>
    intro fuel hfuel
    rcases fuel with _ | fuel
    · exact absurd rfl hfuel
    · have hrun : Parse.run (fuel + 1) s = Parse.run fuel t := by
        rw [Parse.run, if_pos hlt, hturn]
      rw [hrun] at hfuel ⊢
      exact ih hfuel

def place (pre rest : NSString) (state : ParserState) (openTags : List NSString)
    (events : List Event) : Parse :=
  { buffer := pre ++ rest, openTags, state, mode := .PARSER_MODE_XML, events
    currentIndex := pre.length, lastSuccessfullyParsed := pre.length }

def lastAt (s : Parse) (l : ℕ) : Parse := { s with lastSuccessfullyParsed := l }

/-- The parser is in a tag, after the `'<'` that it begins with. -/
structure Entered (pre rest : NSString) (s : Parse) : Prop where
  state : s.state = .intag
  mode : s.mode = .PARSER_MODE_XML
  buffer : s.buffer = pre ++ rest
  lt : s.currentIndex < s.buffer.length
  afterLess : s.afterLess = pre.length

section Entering

variable {pre rest : NSString} {openTags : List NSString} {events : List Event} {c : Char}
  {l : ℕ}

theorem place_lt (h : rest ≠ []) {state : ParserState} :
    (place pre rest state openTags events).currentIndex
      < (place pre rest state openTags events).buffer.length := by
  have := length_pos_iff.2 h
  show pre.length < (pre ++ rest).length
  rw [length_append]
  omega

theorem parseFrom_next (pre : NSString) (c : Char) (rest : NSString) :
    parseFrom (pre ++ c :: rest) pre.length c = some pre.length :=
  @parseFrom_found _ [] rest c _ (by rw [drop_left]; rfl) (by simp)

theorem enter_incdata : ∃ s, Steps (place pre ('<' :: rest) .incdata openTags events) s
    ∧ Entered (pre ++ ['<']) rest s ∧ s.openTags = openTags ∧ s.events = events := by
  refine ⟨place pre ('<' :: rest) .intag openTags events,
    .one (place_lt (by simp)) ?_, ⟨rfl, rfl, by simp [place], place_lt (by simp), ?_⟩, rfl, rfl⟩
  · show incdata _ = _
    unfold incdata
    dsimp only [place]
    rw [parseFrom_next]
    exact if_pos rfl
  · unfold afterLess place
    dsimp only
    rw [if_pos (by simp), length_append]
    rfl

theorem tell_text {text : NSString} (hne : text ≠ []) (hless : '<' ∉ text) (hgreater : '>' ∉ text) :
    Steps (place pre (text ++ '<' :: rest) .incdata openTags events)
      (place (pre ++ text) ('<' :: rest) .intag openTags (events ++ [.characters text])) := by
  refine .one (place_lt (by simp)) ?_
  have hdrop : (pre ++ (text ++ '<' :: rest)).drop pre.length = text ++ '<' :: rest :=
    drop_left
  show incdata _ = _
  unfold incdata
  dsimp only [place]
  rw [parseFrom_found hdrop hless]
  have hcdata : currentString (pre ++ (text ++ '<' :: rest)) pre.length (pre.length + text.length)
      = text := by
    unfold currentString
    rw [hdrop, Nat.add_sub_cancel_left, take_left]
  have hlast : pre.length + text.length ≠ pre.length := by
    have := length_pos_iff.2 hne
    omega
  dsimp only
  rw [if_neg hlast, hcdata, if_neg hgreater]
  simp [tell, parsedTo, within]

theorem notag_eq {pending : NSString} (hless : '<' ∉ pending)
    (hb : s.buffer = pre ++ (pending ++ '<' :: c :: rest)) (hi : s.currentIndex = pre.length) :
    s.notag = if c = '!' ∨ c = '?' then
        match parseFrom s.buffer (pre.length + pending.length + 1) '>' with
        | none => (s.within .intag).endParsing
        | some index => .goOn
          { s with state := .notag, lastSuccessfullyParsed := index, currentIndex := index + 1 }
      else .goOn ((s.within .intag).parsedTo (pre.length + pending.length + 1)) := by
  obtain ⟨space, text, rfl, hspace, htext⟩ : ∃ space text, pending = space ++ text
      ∧ (∀ d ∈ space, isspace d = true) ∧ ∀ d, text.head? = some d → isspace d = false := by
    refine ⟨pending.takeWhile isspace, pending.dropWhile isspace, ?_, ?_, ?_⟩
    · rw [takeWhile_append_dropWhile]
    · exact all_eq_true.1 all_takeWhile
    · intro d hd
      have := head?_dropWhile_not isspace pending
      rw [hd] at this
      simpa using this
  have hdrop : s.buffer.drop pre.length = space ++ (text ++ '<' :: c :: rest) := by
    rw [hb, drop_left, append_assoc]
  have hws : ignoreWhiteSpaceFrom s.buffer s.currentIndex = some (pre.length + space.length) := by
    rw [hi]
    rcases text with _ | ⟨d, text⟩
    · exact ignoreWhiteSpaceFrom_found hdrop hspace rfl
    · exact ignoreWhiteSpaceFrom_found hdrop hspace (htext d rfl)
  have hdrop' : s.buffer.drop (pre.length + space.length) = text ++ '<' :: c :: rest := by
    rw [← drop_drop, hdrop, drop_left]
  have hj : parseFrom s.buffer (pre.length + space.length) '<'
      = some (pre.length + (space ++ text).length) := by
    rw [parseFrom_found hdrop' fun h => hless (by simp [h]), length_append, Nat.add_assoc]
  have hnext : s.buffer[pre.length + (space ++ text).length + 1]? = some c := by
    rw [hb, Nat.add_assoc, getElem?_after, getElem?_after]
    rfl
  unfold notag
  rw [hws]
  dsimp only
  rw [hj]
  dsimp only [within]
  generalize s.buffer[pre.length + (space ++ text).length + 1]? = next at hnext ⊢
  subst hnext
  exact if_congr Iff.rfl
    (by cases parseFrom s.buffer (pre.length + (space ++ text).length + 1) '>' <;> rfl) rfl

theorem enter_notag {pending : NSString} (hless : '<' ∉ pending)
    (hc : c ≠ '!' ∧ c ≠ '?' ∧ c ≠ '<') :
    ∃ s, Steps ((place pre (pending ++ '<' :: c :: rest) .notag openTags events).lastAt l) s
      ∧ Entered (pre ++ pending ++ ['<']) (c :: rest) s ∧ s.openTags = openTags
      ∧ s.events = events := by
  have hlt := @place_lt pre (pending ++ '<' :: c :: rest) openTags events (by simp) .notag
  refine ⟨place (pre ++ pending ++ ['<']) (c :: rest) .intag openTags events, .one hlt ?_,
    ⟨rfl, rfl, rfl, place_lt (by simp), ?_⟩, rfl, rfl⟩
  · refine Eq.trans (notag_eq hless rfl rfl) ?_
    rw [if_neg (not_or.2 ⟨hc.1, hc.2.1⟩)]
    simp [place, parsedTo, within, lastAt, Nat.add_assoc]
  · unfold afterLess place
    dsimp only
    rw [if_neg]
    rw [getElem?_append_right (Nat.le_refl _), Nat.sub_self]
    simp [hc.2.2]

end Entering

section Tokens

variable {pre rest : NSString} {tag : WrittenTag} {name space text : NSString}

theorem Entered.turn_open (h : Entered pre rest s) {found : Tag}
    (htag : parseTagFrom rest .PARSER_MODE_XML 0 = .ok found) (hslash : rest[0]? ≠ some '/') :
    s.turn = s.tag true (found.after pre) := by
  have hc : s.buffer[s.afterLess]? = rest[0]? := by
    rw [h.buffer, h.afterLess]
    exact getElem?_after pre rest 0
  have hstart : s.tagStart = pre.length + 0 := by
    unfold tagStart
    rw [hc, if_neg hslash, h.afterLess]
    rfl
  have hparse := parseTagFrom_after pre .PARSER_MODE_XML rest 0
  rw [htag] at hparse
  unfold turn
  rw [h.state]
  dsimp only
  rw [intag_eq h.lt, hc, hstart, h.buffer, h.mode, hparse]
  cases hr : rest[0]? with
  | none =>
    have hlt := (parseTagFrom_ok htag).2.1
    have := getElem?_eq_none_iff.1 hr
    omega
  | some c =>
    have hc : c ≠ '/' := fun hc => hslash (by rw [hr, hc])
    show s.tagParsed (decide (c ≠ '/')) _ = _
    rw [decide_eq_true hc]
    rfl

theorem Entered.turn_close (h : Entered pre ('/' :: rest) s) {found : Tag}
    (htag : parseTagFrom rest .PARSER_MODE_XML 0 = .ok found) :
    s.turn = s.tag false (found.after (pre ++ ['/'])) := by
  have hc : s.buffer[s.afterLess]? = some '/' := by
    rw [h.buffer, h.afterLess]
    exact getElem?_after pre ('/' :: rest) 0
  have hstart : s.tagStart = (pre ++ ['/']).length + 0 := by
    unfold tagStart
    rw [hc, if_pos rfl, h.afterLess]
    simp
  have hparse := parseTagFrom_after (pre ++ ['/']) .PARSER_MODE_XML rest 0
  rw [htag] at hparse
  have hb : s.buffer = pre ++ ['/'] ++ rest := by
    rw [h.buffer]
    simp
  unfold turn
  rw [h.state]
  dsimp only
  rw [intag_eq h.lt, hc, hstart, h.mode, hb, hparse]
  rfl

theorem skipPast_next {p r : NSString} (hb : s.buffer = p ++ '>' :: r) :
    s.skipPast (p.length + 1) = .goOn (s.parsedTo (p.length + 1)) := by
  unfold skipPast
  dsimp only
  rw [hb, parseFrom_next]

theorem skipPast_after_next {p r : NSString} {d : Char} (hd : d ≠ '>')
    (hb : s.buffer = p ++ d :: '>' :: r) :
    s.skipPast (p.length + 1) = .goOn (s.parsedTo (p.length + 2)) := by
  have hj : parseFrom (p ++ d :: '>' :: r) p.length '>' = some (p.length + 1) :=
    @parseFrom_found _ [d] r '>' _ (by rw [drop_left]; rfl) (by simpa using Ne.symm hd)
  unfold skipPast
  dsimp only
  rw [hb, hj]

theorem written_concat (ht : tag.WellFormed) : ∃ p d, tag.written = p ++ [d] ∧ d ≠ '>' := by
  have hattributes : ∀ attributes : List WrittenAttribute, (∀ a ∈ attributes, a.WellFormed) →
      (WrittenTag.attributesText tag.space attributes).getLast? ≠ some '>' := by
    intro attributes ha
    induction attributes with
    | nil =>
      intro h
      exact absurd (ht.space _ (mem_of_getLast? h)) (by decide)
    | cons a attributes ih =>
      have hq : a.written.getLast? = some a.quote := by
        simp [WrittenAttribute.written, getLast?_cons]
      have hne : a.quote ≠ '>' := by
        rcases (ha a (by simp)).quote with hq | hq <;> rw [hq] <;> decide
      have ih := ih fun b hb => ha b (by simp [hb])
      rw [WrittenTag.attributesText, getLast?_append, getLast?_append, hq]
      cases hlast : (WrittenTag.attributesText tag.space attributes).getLast? with
      | none => simpa using hne
      | some c =>
        rw [hlast] at ih
        simpa using ih
  have hne : tag.written ≠ [] := by
    unfold WrittenTag.written
    intro h
    exact ht.name.nonempty (append_eq_nil_iff.1 h).1
  refine ⟨tag.written.dropLast, tag.written.getLast hne, (dropLast_append_getLast hne).symm,
    ?_⟩
  intro hlast
  have h : tag.written.getLast? = some '>' := by rw [getLast?_eq_some_getLast hne, hlast]
  unfold WrittenTag.written at h
  rw [getLast?_append] at h
  have hattributes := hattributes tag.attributes ht.attributes
  cases hl : (WrittenTag.attributesText tag.space tag.attributes).getLast? with
  | some c =>
    rw [hl] at h hattributes
    exact hattributes (by simpa using h)
  | none =>
    rw [hl, Option.none_or] at h
    exact absurd (ht.name.chars _ (mem_of_getLast? h)) (by decide)

theorem written_head (ht : tag.WellFormed) : ∃ c cs, tag.written = c :: cs
    ∧ c ≠ '/' ∧ c ≠ '!' ∧ c ≠ '?' ∧ c ≠ '<' := by
  obtain ⟨c, cs, hname⟩ := exists_cons_of_ne_nil ht.name.nonempty
  have hc := isNameChar_ne (ht.name.chars c (by rw [hname]; simp))
  exact ⟨c, _, by rw [WrittenTag.written, hname]; rfl, hc.2.2.2.1, hc.2.2.2.2.2.1,
    hc.2.2.2.2.2.2, hc.2.1⟩

theorem tagEnd_eq {openTag : Bool} {tag : Tag} {c : Char} (h : s.buffer[tag.index]? = some c) :
    s.tagEnd openTag tag
      = if c = '/' ∨ openTag = false then s.close tag else s.skipPast tag.index := by
  unfold tagEnd
  rw [h]

theorem Entered.startTag (h : Entered pre (tag.written ++ '>' :: rest) s) (ht : tag.WellFormed) :
    s.turn = .goOn (place (pre ++ tag.written ++ ['>']) rest .incdata (tag.name :: s.openTags)
      (s.events ++ [.startElement tag.name tag.read])) := by
  obtain ⟨c, cs, hcs, hc, -⟩ := written_head ht
  obtain ⟨p, d, hp, hd⟩ := written_concat ht
  have htag := @parseTagFrom_written .PARSER_MODE_XML tag rest ht false
  have hslash : (tag.written ++ '>' :: rest)[0]? ≠ some '/' := by
    rw [hcs]
    simpa using hc
  have hlen : pre.length + tag.written.length = (pre ++ p).length + 1 := by
    simp only [hp, length_append, length_cons, length_nil]
    omega
  rw [h.turn_open htag hslash, tag_element (by exact not_ISCOMMENT ht.name)
    (by exact ne_CDATA ht.name), openElement_xml h.mode]
  have hend : s.buffer[pre.length + tag.written.length]? = some '>' := by
    rw [h.buffer, getElem?_after, getElem?_append_right (Nat.le_refl _), Nat.sub_self]
    rfl
  rw [tagEnd_eq (by exact hend), if_neg (by decide)]
  show Parse.skipPast _ (pre.length + tag.written.length) = _
  have hb : s.buffer = pre ++ p ++ d :: '>' :: rest := by
    rw [h.buffer, hp]
    simp
  rw [hlen]
  refine Eq.trans (@skipPast_after_next _ (pre ++ p) rest d hd (by exact hb)) ?_
  unfold place parsedTo tell within
  simp [hp, h.buffer, h.mode, Tag.after, Nat.add_assoc]

variable {openTags : List NSString}

theorem close_place {found : Tag} (hm : s.mode = .PARSER_MODE_XML)
    (ho : s.openTags = found.name :: openTags) : s.close found
      = (({ s with openTags }.tell (.endElement found.name)).within .incdata).skipPast
        (found.index + 1) := by
  rw [close_xml hm, ho]
  exact if_pos rfl

theorem Entered.emptyTag (h : Entered pre (tag.written ++ '/' :: '>' :: rest) s)
    (ht : tag.WellFormed) :
    s.turn = .goOn (place (pre ++ tag.written ++ ['/', '>']) rest .incdata s.openTags
      (s.events ++ [.startElement tag.name tag.read, .endElement tag.name])) := by
  obtain ⟨c, cs, hcs, hc, -⟩ := written_head ht
  have htag := @parseTagFrom_written .PARSER_MODE_XML tag rest ht true
  have hslash : (tag.written ++ '/' :: '>' :: rest)[0]? ≠ some '/' := by
    rw [hcs]
    simpa using hc
  rw [h.turn_open htag hslash, tag_element (by exact not_ISCOMMENT ht.name)
    (by exact ne_CDATA ht.name), openElement_xml h.mode]
  have hend : s.buffer[pre.length + tag.written.length]? = some '/' := by
    rw [h.buffer, getElem?_after, getElem?_append_right (Nat.le_refl _), Nat.sub_self]
    rfl
  rw [tagEnd_eq (by exact hend), if_pos (.inl rfl), close_place (by exact h.mode) (by rfl)]
  show Parse.skipPast _ (pre.length + tag.written.length + 1) = _
  have hb : s.buffer = pre ++ tag.written ++ '/' :: '>' :: rest := by
    rw [h.buffer]
    simp
  rw [← length_append]
  refine Eq.trans (@skipPast_after_next _ (pre ++ tag.written) rest '/' (by decide)
    (by exact hb)) ?_
  unfold place parsedTo tell within
  simp [h.buffer, h.mode, Tag.after, Nat.add_assoc]

theorem Entered.endTag (h : Entered pre ('/' :: (name ++ space ++ '>' :: rest)) s)
    (hname : IsName name) (hspace : ∀ c ∈ space, isspace c = true)
    (ho : s.openTags = name :: openTags) :
    s.turn = .goOn (place (pre ++ '/' :: (name ++ space ++ ['>'])) rest .incdata openTags
      (s.events ++ [.endElement name])) := by
  have htag := @parseTagFrom_written .PARSER_MODE_XML { name, space } rest
    ⟨hname, by simp, by simp, hspace⟩ false
  rw [h.turn_close htag, tag_closing (by exact not_ISCOMMENT hname)]
  have hb : s.buffer = (pre ++ ['/'] ++ (name ++ space)) ++ '>' :: rest := by
    rw [h.buffer]
    simp
  have hend : s.buffer[(pre ++ ['/']).length + (name ++ space).length]? = some '>' := by
    rw [← length_append, hb, getElem?_append_right (Nat.le_refl _), Nat.sub_self]
    rfl
  rw [tagEnd_eq (by exact hend), if_pos (.inr rfl), close_place h.mode ho]
  show Parse.skipPast _ ((pre ++ ['/']).length + (name ++ space).length + 1) = _
  rw [← length_append]
  refine Eq.trans (@skipPast_next _ (pre ++ ['/'] ++ (name ++ space)) rest (by exact hb)) ?_
  unfold place parsedTo tell within
  simp [h.buffer, h.mode, Tag.after, Nat.add_assoc]

abbrev CDEnd : NSString := "]]>".toList

theorem rangeOfString_CDEnd (rest : NSString) : ∀ {text : NSString},
    rangeOfString CDEnd text = none →
    rangeOfString CDEnd (text ++ (CDEnd ++ rest)) = some text.length
  | [], _ => by simp [rangeOfString, CDEnd]
  | c :: text, h => by
    have hnot : CDEnd.isPrefixOf (c :: (text ++ (CDEnd ++ rest))) = false := by
      rw [rangeOfString] at h
      split_ifs at h with hpre
      rcases text with _ | ⟨d, _ | ⟨e, text⟩⟩
      · simp [CDEnd, isPrefixOf]
      · simp [CDEnd, isPrefixOf]
      · simpa [CDEnd, isPrefixOf] using hpre
    have htext : rangeOfString CDEnd text = none := by
      rw [rangeOfString] at h
      split_ifs at h
      simpa using h
    rw [cons_append, rangeOfString, hnot, if_neg (by simp), rangeOfString_CDEnd rest htext]
    rfl

theorem scanName_not_CDATA {start : NSString} (hstart : start.take 8 ≠ EtoileXML.CDATA) :
    ∀ {r : NSString} {n : ℕ}, (scanName start r n).2 = false
  | [], _ => rfl
  | [_], _ => rfl
  | c :: d :: r, n => by
    rw [scanName]
    split_ifs with hc h8
    · rfl
    · exact absurd h8.2 hstart
    · exact scanName_not_CDATA hstart

theorem parseTagFrom_comment (hgreater : '>' ∉ text) : ∃ name, ISCOMMENT name = true ∧
    parseTagFrom ("!--".toList ++ text ++ "-->".toList ++ rest) .PARSER_MODE_XML 0
      = .ok { index := text.length + 5, name } := by
  obtain ⟨c, r, hr⟩ : ∃ c r, text ++ "-->".toList ++ rest = c :: r := by
    rcases text with _ | ⟨c, text⟩
    · exact ⟨'-', _, rfl⟩
    · exact ⟨c, _, rfl⟩
  have hx : "!--".toList ++ text ++ "-->".toList ++ rest = '!' :: '-' :: '-' :: c :: r := by
    rw [append_assoc, append_assoc, ← append_assoc text, hr]
    rfl
  have hend : parseFrom ("!--".toList ++ text ++ "-->".toList ++ rest) 0 '>'
      = some (text.length + 5) := by
    have := @parseFrom_found ("!--".toList ++ text ++ "-->".toList ++ rest)
      ("!--".toList ++ text ++ "--".toList) rest '>' 0 (by simp) (by simp [hgreater])
    rw [this]
    simp
  rw [hx] at hend ⊢
  have hstart : ('!' :: '-' :: '-' :: c :: r).take 8 ≠ EtoileXML.CDATA := by
    intro h
    exact absurd (cons.inj (cons.inj h).2).1 (by decide)
  have h3 : scanName ('!' :: '-' :: '-' :: c :: r) ('!' :: '-' :: '-' :: c :: r) 0
      = scanName ('!' :: '-' :: '-' :: c :: r) (c :: r) 3 := by
    have h : endsName '!' = false ∧ endsName '-' = false := by decide
    have h1 := @scanName_step ('-' :: c :: r) '!' _ '-' 0 (fun h => hstart h.2) h.1
    have h2 := @scanName_step (c :: r) '-' _ '-' 1 (fun h => hstart h.2) h.2
    have h3 := @scanName_step r '-' _ c 2 (fun h => hstart h.2) h.2
    exact h1.trans (h2.trans h3)
  obtain ⟨n, hn⟩ := Nat.exists_eq_add_of_le (@scanName_le ('!' :: '-' :: '-' :: c :: r) (c :: r) 3)
  have hcomment : ISCOMMENT (('!' :: '-' :: '-' :: c :: r).take (3 + n)) = true := by
    rw [Nat.add_comm]
    simp [ISCOMMENT, isPrefixOf]
  refine ⟨('!' :: '-' :: '-' :: c :: r).take (3 + n), hcomment, ?_⟩
  have hfirst : ∀ {p : Char → Bool}, p '!' = false →
      scanWhile p (('!' :: '-' :: '-' :: c :: r).drop 0) 0 = some 0 := by
    intro p hp
    exact if_neg (by rw [hp]; simp)
  unfold parseTagFrom ignoreWhiteSpaceFrom
  rw [hfirst (by rfl), orFail_some_bind, hfirst (by rfl), orFail_some_bind, hfirst (by rfl),
    orFail_some_bind, drop_zero, h3]
  dsimp only
  rw [scanName_not_CDATA hstart, if_neg (by simp), hn, hcomment, if_pos rfl, hend,
    orFail_some_bind]
  rfl

theorem scanName_short {start : NSString} {d : Char} {r : NSString} : ∀ {t : NSString} {n : ℕ},
    (∀ e ∈ t, endsName e = false) → n + t.length < 8 →
    scanName start (t ++ d :: r) n = scanName start (d :: r) (n + t.length)
  | [], _, _, _ => rfl
  | e :: t, n, ht, hn => by
    rw [length_cons] at hn ⊢
    have he := ht e (by simp)
    have ih := @scanName_short start d r t (n + 1) (fun f hf => ht f (by simp [hf])) (by omega)
    rw [show n + (t.length + 1) = n + 1 + t.length by omega, ← ih]
    rcases t with _ | ⟨f, t⟩
    · exact scanName_step (by omega) he
    · exact scanName_step (by omega) he

theorem CDATA_cons : EtoileXML.CDATA = '!' :: "[CDATA[".toList := by decide

theorem parseTagFrom_CDATA {x : NSString} (hx : x ≠ []) :
    parseTagFrom (EtoileXML.CDATA ++ x) .PARSER_MODE_XML 0
      = .ok { index := 8, name := EtoileXML.CDATA } := by
  obtain ⟨c, r, rfl⟩ := exists_cons_of_ne_nil hx
  have hlen : EtoileXML.CDATA.length = 8 := by decide
  have htake : (EtoileXML.CDATA ++ c :: r).take 8 = EtoileXML.CDATA := by
    rw [← hlen, take_left]
  have hcons : EtoileXML.CDATA ++ c :: r = "![CDATA".toList ++ '[' :: c :: r := by
    rw [show EtoileXML.CDATA = "![CDATA".toList ++ ['['] by decide]
    simp
  have hscan : scanName (EtoileXML.CDATA ++ c :: r) (EtoileXML.CDATA ++ c :: r) 0 = (8, true) := by
    have hshort := @scanName_short (EtoileXML.CDATA ++ c :: r) '[' (c :: r) "![CDATA".toList 0
      (by decide) (by decide)
    rw [← hcons] at hshort
    rw [hshort, show 0 + "![CDATA".toList.length = 7 by decide, scanName, if_neg (by decide),
      if_pos ⟨rfl, htake⟩]
  have hfirst : ∀ {p : Char → Bool}, p '!' = false →
      scanWhile p ((EtoileXML.CDATA ++ c :: r).drop 0) 0 = some 0 := by
    intro p hp
    rw [CDATA_cons]
    exact if_neg (by rw [hp]; simp)
  unfold parseTagFrom ignoreWhiteSpaceFrom
  rw [hfirst (by rfl), orFail_some_bind, hfirst (by rfl), orFail_some_bind, hfirst (by rfl),
    orFail_some_bind, drop_zero, hscan]
  dsimp only
  rw [if_pos rfl, htake]
  rfl

theorem Entered.comment (h : Entered pre ("!--".toList ++ text ++ "-->".toList ++ rest) s)
    (hgreater : '>' ∉ text) :
    s.turn = .goOn (place (pre ++ "!--".toList ++ text ++ "-->".toList) rest .incdata s.openTags
      s.events) := by
  obtain ⟨name, hname, htag⟩ := @parseTagFrom_comment rest text hgreater
  rw [h.turn_open htag (by simp), tag_comment (by exact hname)]
  have hb : s.buffer = pre ++ "!--".toList ++ text ++ ['-'] ++ '-' :: '>' :: rest := by
    rw [h.buffer]
    simp
  have hlen : pre.length + (text.length + 5)
      = (pre ++ "!--".toList ++ text ++ ['-']).length + 1 := by
    simp
    omega
  have hend : s.buffer[pre.length + (text.length + 5)]? = some '>' := by
    rw [hb, hlen, getElem?_after]
    rfl
  rw [tagEnd_eq (by exact hend), if_neg (by decide)]
  show Parse.skipPast _ (pre.length + (text.length + 5)) = _
  rw [hlen]
  refine Eq.trans (@skipPast_after_next _ (pre ++ "!--".toList ++ text ++ ['-']) rest '-'
    (by decide) (by exact hb)) ?_
  unfold place parsedTo within
  simp [h.buffer, h.mode, Nat.add_assoc]

theorem Entered.CDATA (h : Entered pre (EtoileXML.CDATA ++ rest) s) (hrest : rest ≠ []) :
    s.turn = .goOn (place (pre ++ EtoileXML.CDATA) rest .instupidcdata s.openTags s.events) := by
  have hslash : (EtoileXML.CDATA ++ rest)[0]? ≠ some '/' := by
    rw [CDATA_cons]
    simp
  rw [h.turn_open (parseTagFrom_CDATA hrest) hslash, tag_CDATA (by rfl)]
  have hlen : EtoileXML.CDATA.length = 8 := by decide
  unfold place parsedTo within Tag.after
  simp [h.buffer, h.mode, hlen]

theorem leave_CDATA {events : List Event} (htext : rangeOfString CDEnd text = none) :
    Steps (place pre (text ++ (CDEnd ++ rest)) .instupidcdata openTags events)
      (place (pre ++ text ++ CDEnd) rest .notag openTags (events ++ [.characters text])) := by
  refine .one (place_lt (by simp [CDEnd])) ?_
  have hdrop : (pre ++ (text ++ (CDEnd ++ rest))).drop pre.length = text ++ (CDEnd ++ rest) :=
    drop_left
  show instupidcdata _ = _
  unfold instupidcdata
  dsimp only [place]
  rw [hdrop, rangeOfString_CDEnd rest htext]
  dsimp only
  rw [take_left]
  simp [CDEnd, parsedTo, tell, within, Nat.add_assoc]

theorem skip_declaration {openTags : List NSString} {events : List Event} {l : ℕ}
    {pending : NSString} (hless : '<' ∉ pending) (hgreater : '>' ∉ text) :
    ∃ l', Steps
      ((place pre (pending ++ '<' :: '!' :: (text ++ '>' :: rest)) .notag openTags events).lastAt l)
      ((place (pre ++ pending ++ '<' :: '!' :: (text ++ ['>'])) rest .notag openTags
        events).lastAt l') := by
  have hlt := @place_lt pre (pending ++ '<' :: '!' :: (text ++ '>' :: rest)) openTags events
    (by simp) .notag
  have hend : parseFrom (pre ++ (pending ++ '<' :: '!' :: (text ++ '>' :: rest)))
      (pre.length + pending.length + 1) '>'
      = some (pre.length + pending.length + 1 + ('!' :: text).length) := by
    refine @parseFrom_found _ _ rest '>' _ ?_ (by simp [hgreater])
    rw [← append_assoc, ← length_append, drop_after]
    rfl
  refine ⟨pre.length + pending.length + 1 + ('!' :: text).length, .one hlt ?_⟩
  refine Eq.trans (notag_eq hless rfl rfl) ?_
  rw [if_pos (.inl rfl)]
  show (match parseFrom (pre ++ (pending ++ '<' :: '!' :: (text ++ '>' :: rest)))
      (pre.length + pending.length + 1) '>' with
    | none => _
    | some index => _) = _
  rw [hend]
  simp [place, lastAt]
  omega

end Tokens

end Parse

end Etoile.EtoileXML
