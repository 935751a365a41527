import Etoile.Lib.Nesting
import Etoile.Lib.Runs
import Etoile.EtoileXML.Scanning

/-!
# What the parser does with any text

Every call comes to an end, and the elements that the delegate is told of are nested, whatever the
text is.  An index out of range is asked for in two places: a tag whose opening characters reach
the end of the buffer is read past it, and a tag that ends at the very beginning of the buffer is
looked for before it.
-/

namespace Etoile.EtoileXML

open List

def Event.bracket : Event → Option (Bracket NSString)
  | .startElement name _ => some (.opening name)
  | .endElement name => some (.closing name)
  | .characters _ => none

def brackets (events : List Event) : List (Bracket NSString) := events.filterMap Event.bracket

theorem brackets_append (events events' : List Event) :
    brackets (events ++ events') = brackets events ++ brackets events' := filterMap_append

namespace Parse

/-- Where a tag goes on after a `'<'`. -/
def afterLess (s : Parse) : ℕ :=
  if s.buffer[s.currentIndex]? = some '<' then s.currentIndex + 1 else s.currentIndex

def tagStart (s : Parse) : ℕ :=
  if s.buffer[s.afterLess]? = some '/' then s.afterLess + 1 else s.afterLess

/-- In a tag there is more than opening characters up to the end of the buffer, and the tag does
not end at the beginning of the buffer. -/
def InRange (s : Parse) : Prop :=
  s.state = .intag → ¬ OpeningOnly (s.buffer.drop s.tagStart)
    ∧ ¬ (s.currentIndex = 0 ∧ s.buffer[0]? = some '>')

instance (s : Parse) : Decidable s.InRange := inferInstanceAs (Decidable (_ → _))

def Throughout (P : Parse → Prop) : ℕ → Parse → Prop
  | 0, _ => True
  | fuel + 1, s => s.currentIndex < s.buffer.length → P s ∧
    match s.turn with
    | .goOn s => Throughout P fuel s
    | _ => True

instance decidableThroughout {P : Parse → Prop} [DecidablePred P] :
    ∀ (fuel : ℕ) (s : Parse), Decidable (Throughout P fuel s)
  | 0, _ => isTrue trivial
  | fuel + 1, s => by
    have : Decidable (match s.turn with
        | .goOn s => Throughout P fuel s
        | _ => True) := by
      cases s.turn with
      | goOn t => exact decidableThroughout fuel t
      | _ => exact isTrue trivial
    exact inferInstanceAs (Decidable (_ → _ ∧ _))

/-- The parser is in a closing tag, which does not close the element that is open. -/
def Mismatched (s : Parse) : Prop :=
  s.state = .intag ∧ s.buffer[s.afterLess]? = some '/' ∧
    ∃ tag, parseTagFrom s.buffer s.mode s.tagStart = .ok tag ∧ s.openTags.head? ≠ some tag.name

def Live : ParserState → Prop
  | .notag | .intag | .incdata | .instupidcdata => True
  | .inattribute | .incomment | .broken => False

/-- What is left to do: to go on to a tag or from it may take a turn that gets no further. -/
def measure (s : Parse) : ℕ :=
  3 * (s.buffer.length - s.currentIndex) +
    match s.state with
    | .incdata => 1
    | .intag => if s.buffer[s.currentIndex]? = some '<' then 0 else 2
    | _ => 0

/-- The open tags are the ones that the delegate was told of since there were `base`. -/
structure Nested (base : List NSString) (s : Parse) : Prop where
  xml : s.mode = .PARSER_MODE_XML
  nested : leftOpen base (brackets s.events) = some s.openTags

def TurnOk (base : List NSString) (s : Parse) : Turn → Prop
  | .goOn t => Nested base t ∧ Live t.state ∧ t.measure < s.measure
  | .done result t => Nested base t ∧ if result then Live t.state else t.state = .broken
  | .raised _ => ¬ s.InRange

section Nested

variable {base : List NSString} {s t : Parse}

theorem Nested.of_eq (h : Nested base s) (hm : t.mode = s.mode) (he : t.events = s.events)
    (ho : t.openTags = s.openTags) : Nested base t :=
  ⟨hm.trans h.xml, by rw [he, ho]; exact h.nested⟩

theorem Nested.characters (h : Nested base s) (text : NSString) :
    Nested base (s.tell (.characters text)) := by
  refine ⟨h.xml, ?_⟩
  unfold tell
  rw [brackets_append, leftOpen_append, h.nested]
  rfl

theorem openElement_xml (hm : s.mode = .PARSER_MODE_XML) (tag : Tag) :
    s.openElement tag = { (s.tell (.startElement tag.name tag.attributes)).within .incdata with
      openTags := tag.name :: s.openTags } := by
  rcases s with ⟨buffer, openTags, state, mode⟩
  obtain rfl : mode = .PARSER_MODE_XML := hm
  rfl

theorem close_xml (hm : s.mode = .PARSER_MODE_XML) (tag : Tag) :
    s.close tag = match s.openTags with
      | [] => s.giveUp
      | name :: openTags =>
        if name = tag.name then
          (({ s with openTags }.tell (.endElement tag.name)).within .incdata).skipPast
            (tag.index + 1)
        else s.giveUp := by
  rcases s with ⟨buffer, openTags, state, mode⟩
  obtain rfl : mode = .PARSER_MODE_XML := hm
  rfl

theorem close_sgml (hm : s.mode = .PARSER_MODE_SGML) (tag : Tag) : s.close tag
    = ((s.tell (.endElement tag.name)).within .incdata).skipPast (tag.index + 1) := by
  rcases s with ⟨buffer, openTags, state, mode⟩
  obtain rfl : mode = .PARSER_MODE_SGML := hm
  rfl

theorem Nested.openElement (h : Nested base s) (tag : Tag) : Nested base (s.openElement tag) := by
  rw [openElement_xml h.xml]
  refine ⟨h.xml, ?_⟩
  dsimp only [tell, within]
  rw [brackets_append, leftOpen_append, h.nested]
  rfl

theorem Nested.endElement (h : Nested base s) {name : NSString} {openTags : List NSString}
    (ho : s.openTags = name :: openTags) :
    Nested base ({ s with openTags }.tell (.endElement name)) := by
  refine ⟨h.xml, ?_⟩
  unfold tell
  rw [brackets_append, leftOpen_append, h.nested, ho]
  exact if_pos rfl

end Nested

section Turns

variable {base : List NSString} {s : Parse} {tag : Tag}

theorem skipPast_cases (s : Parse) (n : ℕ) : s.skipPast (n + 1) = s.endParsing
    ∨ ∃ j, n ≤ j ∧ j < s.buffer.length ∧ s.skipPast (n + 1) = .goOn (s.parsedTo (j + 1)) := by
  unfold skipPast
  dsimp only
  cases hj : parseFrom s.buffer n '>' with
  | none => exact .inl rfl
  | some j => exact .inr ⟨j, (parseFrom_spec hj).1, parseFrom_lt hj, rfl⟩

theorem giveUp_ok (h : Nested base s) (t : Parse) : TurnOk base t s.giveUp :=
  ⟨h.of_eq rfl rfl rfl, rfl⟩

theorem endParsing_ok (h : Nested base s) (hl : Live s.state) (t : Parse) :
    TurnOk base t s.endParsing :=
  ⟨h.of_eq rfl rfl rfl, hl⟩

theorem notag_ok (h : Nested base s) (hs : s.state = .notag)
    (hlt : s.currentIndex < s.buffer.length) : TurnOk base s s.notag := by
  have hl : Live s.state := by rw [hs]; trivial
  have hm : s.measure = 3 * (s.buffer.length - s.currentIndex) := by
    unfold measure
    rw [hs]
    rfl
  unfold notag
  cases hi : ignoreWhiteSpaceFrom s.buffer s.currentIndex with
  | none => exact ⟨h.of_eq rfl rfl rfl, hl⟩
  | some i =>
    have hi := (ignoreWhiteSpaceFrom_spec hi).1
    dsimp only
    cases hj : parseFrom s.buffer i '<' with
    | none => exact endParsing_ok h hl s
    | some j =>
      have hj := (parseFrom_spec hj).1
      have hs' : Nested base (s.within .intag) := h.of_eq rfl rfl rfl
      dsimp only
      cases hc : (s.within .intag).buffer[j + 1]? with
      | none => exact endParsing_ok hs' trivial s
      | some c =>
        dsimp only
        split_ifs with hd
        · cases hk : parseFrom (s.within .intag).buffer (j + 1) '>' with
          | none => exact endParsing_ok hs' trivial s
          | some k =>
            have hk := (parseFrom_spec hk).1
            refine ⟨h.of_eq rfl rfl rfl, trivial, ?_⟩
            rw [hm]
            dsimp only [measure, within]
            omega
        · refine ⟨h.of_eq rfl rfl rfl, trivial, ?_⟩
          rw [hm]
          dsimp only [measure, within, parsedTo]
          split_ifs <;> omega

theorem incdata_ok (h : Nested base s) (hs : s.state = .incdata)
    (hlt : s.currentIndex < s.buffer.length) : TurnOk base s s.incdata := by
  have hl : Live s.state := by rw [hs]; trivial
  have hm : s.measure = 3 * (s.buffer.length - s.currentIndex) + 1 := by
    unfold measure
    rw [hs]
  unfold incdata
  cases hi : parseFrom s.buffer s.currentIndex '<' with
  | none => exact endParsing_ok h hl s
  | some i =>
    obtain ⟨hle, hc⟩ := parseFrom_spec hi
    dsimp only
    split_ifs with hlast hcdata
    · refine ⟨h.of_eq rfl rfl rfl, trivial, ?_⟩
      rw [hm]
      dsimp only [measure, within]
      rw [if_pos hc]
      omega
    · have h' : Nested base { s with currentIndex := i } := h.of_eq rfl rfl rfl
      exact giveUp_ok h' s
    · refine ⟨(h.characters _).of_eq rfl rfl rfl, trivial, ?_⟩
      rw [hm]
      dsimp only [measure, within, parsedTo, tell]
      rw [if_pos hc]
      omega

theorem instupidcdata_ok (h : Nested base s) (hs : s.state = .instupidcdata)
    (hlt : s.currentIndex < s.buffer.length) : TurnOk base s s.instupidcdata := by
  have hm : s.measure = 3 * (s.buffer.length - s.currentIndex) := by
    unfold measure
    rw [hs]
    rfl
  unfold instupidcdata
  dsimp only
  cases rangeOfString "]]>".toList (s.buffer.drop s.lastSuccessfullyParsed) with
  | none =>
    refine ⟨(h.characters _).of_eq rfl rfl rfl, ?_, ?_⟩
    · dsimp only [parsedTo, tell]
      rw [hs]
      trivial
    · rw [hm]
      dsimp only [measure, within, parsedTo, tell]
      rw [hs]
      dsimp only
      omega
  | some location =>
    refine ⟨(h.characters _).of_eq rfl rfl rfl, trivial, ?_⟩
    rw [hm]
    dsimp only [measure, within, parsedTo, tell]
    omega

theorem skipPast_ok {t : Parse} {n : ℕ} (h : Nested base t) (ht : t.state = .incdata)
    (hb : t.buffer = s.buffer) (hn : 3 * (s.buffer.length - (n + 1)) + 1 < s.measure) :
    TurnOk base s (t.skipPast (n + 1)) := by
  rcases skipPast_cases t n with hskip | ⟨j, hnj, hlt, hskip⟩
  · rw [hskip]
    exact endParsing_ok h (by rw [ht]; trivial) s
  · have hm : (t.parsedTo (j + 1)).measure = 3 * (s.buffer.length - (j + 1)) + 1 := by
      unfold measure parsedTo
      rw [ht, hb]
    rw [hskip]
    refine ⟨h.of_eq rfl rfl rfl, ?_, by omega⟩
    dsimp only [parsedTo]
    rw [ht]
    trivial

theorem close_ok {t : Parse} (h : Nested base t) (hb : t.buffer = s.buffer)
    (hn : 3 * (s.buffer.length - (tag.index + 1)) + 1 < s.measure) :
    TurnOk base s (t.close tag) := by
  rw [close_xml h.xml]
  cases ho : t.openTags with
  | nil => exact giveUp_ok h s
  | cons name openTags =>
    dsimp only
    split_ifs with hname
    · subst hname
      exact skipPast_ok ((h.endElement ho).of_eq rfl rfl rfl) rfl hb hn
    · exact giveUp_ok h s

theorem openElement_state (s : Parse) (tag : Tag) : (s.openElement tag).state = .incdata := by
  rcases s with ⟨buffer, openTags, state, mode⟩
  cases mode <;> rfl

theorem openElement_buffer (s : Parse) (tag : Tag) : (s.openElement tag).buffer = s.buffer := by
  rcases s with ⟨buffer, openTags, state, mode⟩
  cases mode <;> rfl

theorem tag_comment (hcomment : ISCOMMENT tag.name = true) (openTag : Bool) :
    s.tag openTag tag = (s.within .incdata).tagEnd openTag tag := by
  have hCDATA : tag.name ≠ CDATA := by
    intro h
    rw [h] at hcomment
    exact absurd hcomment (by decide)
  simp [Parse.tag, hcomment, hCDATA]

theorem tag_CDATA (hCDATA : tag.name = CDATA) :
    s.tag true tag = .goOn ((s.within .instupidcdata).parsedTo tag.index) := by
  have hcomment : ISCOMMENT CDATA = false := by decide
  simp [Parse.tag, hCDATA, hcomment]

theorem tag_element (hcomment : ISCOMMENT tag.name = false) (hCDATA : tag.name ≠ CDATA) :
    s.tag true tag = (s.openElement tag).tagEnd true tag := by
  simp [Parse.tag, hcomment, hCDATA]

theorem tag_closing (hcomment : ISCOMMENT tag.name = false) :
    s.tag false tag = s.tagEnd false tag := by
  simp [Parse.tag, hcomment]

theorem tagEnd_ok {t : Parse} {openTag : Bool} (h : Nested base t)
    (ht : openTag = true → t.state = .incdata ∧ tag.index ≠ 0) (hb : t.buffer = s.buffer)
    (hlt : tag.index < s.buffer.length)
    (hm : 3 * (s.buffer.length - tag.index) + 1 < s.measure) :
    TurnOk base s (t.tagEnd openTag tag) := by
  unfold tagEnd
  rw [hb, getElem?_eq_getElem hlt]
  dsimp only
  split_ifs with hclose
  · exact close_ok h hb (by omega)
  · rw [not_or, Bool.not_eq_false] at hclose
    obtain ⟨hs, hpos⟩ := ht hclose.2
    obtain ⟨n, hn⟩ := Nat.exists_eq_succ_of_ne_zero hpos
    rw [hn] at hm ⊢
    exact skipPast_ok h hs hb hm

theorem tag_ok {openTag : Bool} (h : Nested base s) (hlt : tag.index < s.buffer.length)
    (hpos : openTag = true → tag.index ≠ 0)
    (hm : 3 * (s.buffer.length - tag.index) + 1 < s.measure) :
    TurnOk base s (s.tag openTag tag) := by
  rcases hcomment : ISCOMMENT tag.name with _ | _
  · rcases openTag with _ | _
    · rw [tag_closing hcomment]
      exact tagEnd_ok h (fun hopen => by cases hopen) rfl hlt hm
    · by_cases hCDATA : tag.name = CDATA
      · rw [tag_CDATA hCDATA]
        have hd : ((s.within .instupidcdata).parsedTo tag.index).measure
            = 3 * (s.buffer.length - tag.index) := rfl
        exact ⟨h.of_eq rfl rfl rfl, trivial, by omega⟩
      · rw [tag_element hcomment hCDATA]
        exact tagEnd_ok (h.openElement tag) (fun hopen => ⟨openElement_state s tag, hpos hopen⟩)
          (openElement_buffer s tag) hlt hm
  · rw [tag_comment hcomment]
    have hs : Nested base (s.within .incdata) := h.of_eq rfl rfl rfl
    exact tagEnd_ok hs (fun hopen => ⟨rfl, hpos hopen⟩) rfl hlt hm

/-- A tag that ends at the beginning of the buffer has no name and no attributes. -/
theorem parseTagFrom_end (rest : NSString) (mode : MarkupLanguage) :
    parseTagFrom ('>' :: rest) mode 0 = .ok { index := 0, name := [] } := by
  cases rest <;> rfl

theorem intag_eq (hlt : s.currentIndex < s.buffer.length) : s.intag =
    match s.buffer[s.afterLess]? with
    | none => .done true { s with buffer := s.buffer.drop s.afterLess }
    | some c => s.tagParsed (c ≠ '/') (parseTagFrom s.buffer s.mode s.tagStart) := by
  unfold intag tagStart afterLess
  rw [getElem?_eq_getElem hlt]
  simp only [Option.some.injEq]
  cases hc : s.buffer[if s.buffer[s.currentIndex] = '<' then s.currentIndex + 1
      else s.currentIndex]? with
  | none => rfl
  | some c => simp only [Option.some.injEq]

theorem intag_raised (hlt : s.currentIndex < s.buffer.length)
    (h : ¬ s.InRange) : ∃ t, s.intag = .raised t := by
  unfold InRange at h
  rw [Classical.not_imp, Classical.not_and_iff_not_or_not, not_not, not_not] at h
  rw [intag_eq hlt]
  rcases h.2 with hopen | ⟨h0, hgt⟩
  · cases hc : s.buffer[s.afterLess]? with
    | none =>
      have hle := getElem?_eq_none_iff.1 hc
      have hdrop : s.buffer.drop s.tagStart = [] := by
        unfold tagStart
        rw [hc, if_neg (by simp), drop_eq_nil_iff]
        exact hle
      rw [hdrop] at hopen
      exact absurd rfl hopen.1
    | some c =>
      rw [parseTagFrom_raised.2 hopen]
      exact ⟨s, rfl⟩
  · obtain ⟨rest, hb⟩ : ∃ rest, s.buffer = '>' :: rest := by
      cases hb : s.buffer with
      | nil =>
        rw [hb] at hgt
        cases hgt
      | cons c rest =>
        rw [hb] at hgt
        cases hgt
        exact ⟨rest, rfl⟩
    have hless : s.afterLess = 0 := by
      unfold afterLess
      simp [h0, hb]
    have ht : s.tagStart = 0 := by
      unfold tagStart
      simp [hless, hb]
    rw [ht, hless, hgt, hb, parseTagFrom_end]
    refine ⟨s.openElement { index := 0, name := [] }, ?_⟩
    show s.tagParsed (decide ('>' ≠ '/')) (.ok _) = _
    rw [show decide ('>' ≠ '/') = true by decide]
    unfold tagParsed
    dsimp only
    rw [tag_element (by rfl) (by decide)]
    unfold tagEnd
    rw [openElement_buffer, hb]
    rfl

theorem intag_ok (h : Nested base s) (hs : s.state = .intag)
    (hlt : s.currentIndex < s.buffer.length) : TurnOk base s s.intag := by
  by_cases hrange : s.InRange
  · have hl : Live s.state := by rw [hs]; trivial
    have hm : s.measure = 3 * (s.buffer.length - s.currentIndex) +
        if s.buffer[s.currentIndex]? = some '<' then 0 else 2 := by
      unfold measure
      rw [hs]
    obtain ⟨hopen, hgt⟩ := hrange hs
    rw [intag_eq hlt]
    cases hc : s.buffer[s.afterLess]? with
    | none => exact ⟨h.of_eq rfl rfl rfl, hl⟩
    | some c =>
      dsimp only
      cases htag : parseTagFrom s.buffer s.mode s.tagStart with
      | error failure =>
        rcases parseTagFrom_error htag with rfl | rfl | ⟨-, hopen'⟩
        · exact endParsing_ok h hl s
        · exact giveUp_ok h s
        · exact absurd hopen' hopen
      | ok tag =>
        obtain ⟨hle, hlen, hend⟩ := parseTagFrom_ok htag
        have hstart : s.afterLess ≤ s.tagStart := by
          unfold tagStart
          split_ifs <;> omega
        unfold afterLess at hstart
        refine tag_ok h hlen ?_ ?_
        · intro _ h0
          have h0' : s.tagStart = 0 := by omega
          rw [h0', h0] at hend
          refine hgt ⟨?_, hend rfl⟩
          split_ifs at hstart <;> omega
        · rw [hm]
          split_ifs at hstart ⊢ <;> omega
  · obtain ⟨t, ht⟩ := intag_raised hlt hrange
    rw [ht]
    exact hrange

theorem turn_ok (h : Nested base s) (hl : Live s.state) (hlt : s.currentIndex < s.buffer.length) :
    TurnOk base s s.turn := by
  unfold turn
  rcases hs : s.state with _ | _ | _ | _ | _ | _ | _
  · exact notag_ok h hs hlt
  · exact intag_ok h hs hlt
  · rw [hs] at hl
    exact hl.elim
  · exact incdata_ok h hs hlt
  · exact instupidcdata_ok h hs hlt
  · rw [hs] at hl
    exact hl.elim
  · rw [hs] at hl
    exact hl.elim

theorem turn_mismatched (h : Nested base s) (hlt : s.currentIndex < s.buffer.length)
    (hmis : s.Mismatched) : ∃ t, s.turn = .done false t := by
  obtain ⟨hs, hc, tag, htag, hname⟩ := hmis
  have hclose : ∀ t : Parse, t.mode = s.mode → t.buffer = s.buffer → t.openTags = s.openTags →
      t.tagEnd false tag = t.giveUp := by
    intro t hm hb ho
    unfold tagEnd
    rw [hb, getElem?_eq_getElem (parseTagFrom_ok htag).2.1]
    dsimp only
    rw [if_pos (.inr rfl), close_xml (hm.trans h.xml), ho]
    cases hopen : s.openTags with
    | nil => rfl
    | cons name openTags =>
      rw [hopen, head?_cons, ne_eq, Option.some.injEq] at hname
      exact if_neg hname
  unfold turn
  rw [hs]
  dsimp only
  rw [intag_eq hlt, hc, htag]
  show ∃ t, s.tag false tag = _
  rcases hcomment : ISCOMMENT tag.name with _ | _
  · rw [tag_closing hcomment, hclose s rfl rfl rfl]
    exact ⟨_, rfl⟩
  · rw [tag_comment hcomment, hclose (s.within .incdata) rfl rfl rfl]
    exact ⟨_, rfl⟩

theorem turn_raised (hs : s.state = .intag) (hlt : s.currentIndex < s.buffer.length)
    (h : ¬ s.InRange) : ∃ t, s.turn = .raised t := by
  unfold turn
  rw [hs]
  exact intag_raised hlt h

end Turns

theorem run_finishes {base : List NSString} : ∀ {fuel : ℕ} {s : Parse}, Nested base s →
    Live s.state → s.measure < fuel →
    (∃ result t, run fuel s = some (.done result t) ∧ Nested base t
      ∧ (if result then Live t.state else t.state = .broken) ∧ Throughout InRange fuel s
      ∧ Throughout (fun s => s.Mismatched → result = false) fuel s)
    ∨ (∃ t, run fuel s = some (.raised t)) ∧ ¬ Throughout InRange fuel s
  | fuel + 1, s, h, hl, hfuel => by
    by_cases hlt : s.currentIndex < s.buffer.length
    · have hrun : run (fuel + 1) s = match s.turn with
          | .goOn s => run fuel s
          | t => some t := if_pos hlt
      have hturn := turn_ok h hl hlt
      have hmis : s.Mismatched → ∃ t, s.turn = .done false t := turn_mismatched h hlt
      have hrange : (∀ t, s.turn ≠ .raised t) → s.InRange := by
        intro hne hs
        by_contra hnot
        obtain ⟨t, ht⟩ := turn_raised hs hlt fun hrange => hnot (hrange hs)
        exact hne t ht
      unfold Throughout
      cases ht : s.turn with
      | goOn t =>
        rw [ht] at hturn hrun hmis hrange
        obtain ⟨ht, hl, hm⟩ := hturn
        rw [hrun]
        dsimp only
        have hm : t.measure < fuel := by omega
        rcases run_finishes ht hl hm with
          ⟨result, u, hu, hnested, hlive, hin, hmm⟩ | ⟨hu, hout⟩
        · refine .inl ⟨result, u, hu, hnested, hlive, fun _ => ⟨hrange (by simp), hin⟩, ?_⟩
          intro _
          refine ⟨fun h => ?_, hmm⟩
          obtain ⟨_, h⟩ := hmis h
          cases h
        · exact .inr ⟨hu, fun h => hout (h hlt).2⟩
      | done result t =>
        rw [ht] at hturn hrun hmis hrange
        refine .inl ⟨result, t, hrun, hturn.1, hturn.2, ?_, ?_⟩
        · exact fun _ => ⟨hrange (by simp), trivial⟩
        · refine fun _ => ⟨fun h => ?_, trivial⟩
          obtain ⟨_, h⟩ := hmis h
          cases h
          rfl
      | raised t =>
        rw [ht] at hturn hrun
        exact .inr ⟨⟨t, hrun⟩, fun h => hturn (h hlt).1⟩
    · have hrun : run (fuel + 1) s = some s.clear := if_neg hlt
      exact .inl ⟨true, { s with buffer := [] }, hrun, h.of_eq rfl rfl rfl, hl,
        fun h => absurd h hlt, fun h => absurd h hlt⟩

end Parse

structure Session where
  parser : ETXMLParser := {}
  told : List Event := []

namespace Session

open Parse ETXMLParser

/-- A call of `-parseFromSource:`. -/
def parse (s : Session) (data : NSString) : Session :=
  match s.parser.parseFromSource data with
  | some (.returned _ parser events) | some (.raised parser events) =>
    { parser, told := s.told ++ events }
  | none => s

def EveryTurn (s : Session) (data : NSString) (P : Parse → Prop) : Prop :=
  s.parser.state ≠ .broken →
    Throughout P (turns (s.parser.buffer.length + data.length)) (s.parser.start data)

instance (s : Session) (data : NSString) (P : Parse → Prop) [DecidablePred P] :
    Decidable (s.EveryTurn data P) := inferInstanceAs (Decidable (_ → _))

/-- The call returns, without an exception.  What the delegate has been told at any moment is the
beginning of a well nested document, and a closing tag that does not match is a failure. -/
def SafeCall (s : Session) (data : NSString) : Prop :=
  ∃ result parser events, s.parser.parseFromSource data = some (.returned result parser events)
    ∧ (∀ told, told <+: s.told ++ events → BalancedPrefix (brackets told))
    ∧ s.EveryTurn data fun turn => turn.Mismatched → result = false

def ProperCall (s : Session) (data : NSString) : Prop := s.EveryTurn data InRange

instance (s : Session) (data : NSString) : Decidable (s.ProperCall data) :=
  inferInstanceAs (Decidable (s.EveryTurn data InRange))

/-- The elements that the delegate was told of and that are still open are those of the parser. -/
structure Inv (s : Session) : Prop where
  xml : s.parser.mode = .PARSER_MODE_XML
  live : Live s.parser.state ∨ s.parser.state = .broken
  nested : leftOpen [] (brackets s.told) = some s.parser.openTags

variable {s : Session} {data : NSString}

theorem Inv.safe (h : Inv s) {events : List Event} {left : List NSString}
    (hleft : leftOpen s.parser.openTags (brackets events) = some left) :
    leftOpen [] (brackets (s.told ++ events)) = some left := by
  rw [brackets_append, leftOpen_append, h.nested]
  exact hleft

theorem balancedPrefix_told {events : List Event} {left : List NSString}
    (h : leftOpen [] (brackets events) = some left) :
    ∀ told, told <+: events → BalancedPrefix (brackets told) := by
  rintro told ⟨rest, rfl⟩
  rw [brackets_append] at h
  exact (balancedPrefix_of_leftOpen h).shorten (prefix_append _ _)

theorem start_measure (p : ETXMLParser) (data : NSString) :
    (p.start data).measure < turns (p.buffer.length + data.length) := by
  unfold Parse.measure turns start
  dsimp only
  rw [length_append]
  split
  · omega
  · split_ifs <;> omega
  · omega

/-- A call is safe just when its turns are in range, and the next one starts well. -/
theorem parse_spec (h : Inv s) (data : NSString) :
    s.SafeCall data ∧ s.ProperCall data ∧ Inv (s.parse data)
    ∨ ¬ s.SafeCall data ∧ ¬ s.ProperCall data := by
  by_cases hbroken : s.parser.state = .broken
  · have hcall : s.parser.parseFromSource data = some (.returned false s.parser []) :=
      if_pos hbroken
    refine .inl ⟨⟨_, _, _, hcall, ?_, fun hs => absurd hbroken hs⟩, fun hs => absurd hbroken hs, ?_⟩
    · exact balancedPrefix_told (h.safe rfl)
    · have hparse : s.parse data = ⟨s.parser, s.told ++ []⟩ := by
        unfold parse
        rw [hcall]
      rw [hparse, append_nil]
      exact h
  · have hstart : Parse.Nested s.parser.openTags (s.parser.start data) := ⟨h.xml, rfl⟩
    have hcall : s.parser.parseFromSource data = _ := if_neg hbroken
    rcases run_finishes hstart (h.live.resolve_right hbroken) (start_measure s.parser data) with
      ⟨result, t, hrun, hnested, hlive, hin, hmm⟩ | ⟨⟨t, hrun⟩, hout⟩
    · rw [hrun] at hcall
      have hleft := h.safe hnested.nested
      refine .inl ⟨⟨_, _, _, hcall, balancedPrefix_told hleft, fun _ => hmm⟩, fun _ => hin, ?_⟩
      have hparse : s.parse data = ⟨finish t, s.told ++ t.events⟩ := by
        unfold parse
        rw [hcall]
        rfl
      rw [hparse]
      refine ⟨hnested.xml, ?_, hleft⟩
      cases result with
      | true => exact .inl hlive
      | false => exact .inr hlive
    · rw [hrun] at hcall
      refine .inr ⟨?_, fun hproper => hout (hproper hbroken)⟩
      rintro ⟨result, p, events, hreturned, -⟩
      rw [hcall] at hreturned
      cases hreturned

theorem inv_start : Inv {} := ⟨rfl, .inl trivial, rfl⟩

/-- Every call is safe as long as the turns are in range, and no longer. -/
theorem safe_iff_proper (chunks : List NSString) :
    Along parse SafeCall {} chunks ↔ Along parse ProperCall {} chunks := by
  refine along_iff ?_ ?_ inv_start
  · intro s data h
    rcases parse_spec h data with ⟨hsafe, hproper, -⟩ | ⟨hsafe, hproper⟩
    · exact iff_of_true hsafe hproper
    · exact iff_of_false hsafe hproper
  · intro s data h hproper
    rcases parse_spec h data with ⟨-, -, hinv⟩ | ⟨-, hnot⟩
    · exact hinv
    · exact absurd hproper hnot

/-- Opening characters only. -/
theorem openingOnly_raises : ¬ Along parse SafeCall {} ["<<<".toList] := by
  rintro ⟨⟨result, parser, events, hcall, -⟩, -⟩
  have hraises : ({} : ETXMLParser).parseFromSource "<<<".toList
      = some (.raised { buffer := "<<<".toList, state := .intag } []) := by decide
  rw [hraises] at hcall
  cases hcall

end Session

end Etoile.EtoileXML
