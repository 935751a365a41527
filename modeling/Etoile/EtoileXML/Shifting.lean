import Etoile.EtoileXML.ParserSafety

/-!
# What comes before does not matter

From an index on, the parser does what it would do at the beginning of a buffer that holds only
what is left: a turn of the loop goes on in the same way after any text.
-/

namespace Etoile.EtoileXML

open List Option

section Scans

variable {p : Char → Bool} (pre : NSString) {b : NSString} {mode : MarkupLanguage} {i j : ℕ}

theorem drop_after (b : NSString) (i : ℕ) : (pre ++ b).drop (pre.length + i) = b.drop i := by
  rw [← drop_drop, drop_left]

theorem getElem?_after (b : NSString) (i : ℕ) : (pre ++ b)[pre.length + i]? = b[i]? := by
  rw [getElem?_append_right (Nat.le_add_right _ _), Nat.add_sub_cancel_left]

theorem scanWhile_add (k : ℕ) : ∀ (s : NSString) (i : ℕ),
    scanWhile p s (k + i) = (scanWhile p s i).map (k + ·)
  | [], _ => rfl
  | c :: s, i => by
    rw [scanWhile, scanWhile]
    split_ifs
    · exact scanWhile_add k s (i + 1)
    · rfl

theorem scanWhile_after (b : NSString) (i j : ℕ) :
    scanWhile p ((pre ++ b).drop (pre.length + i)) (pre.length + j)
      = (scanWhile p (b.drop i) j).map (pre.length + ·) := by
  rw [drop_after, scanWhile_add]

theorem parseFrom_after (b : NSString) (i : ℕ) (c : Char) :
    parseFrom (pre ++ b) (pre.length + i) c = (parseFrom b i c).map (pre.length + ·) :=
  scanWhile_after pre b i i

theorem ignoreWhiteSpaceFrom_after (b : NSString) (i : ℕ) :
    ignoreWhiteSpaceFrom (pre ++ b) (pre.length + i)
      = (ignoreWhiteSpaceFrom b i).map (pre.length + ·) :=
  scanWhile_after pre b i i

theorem currentString_after (b : NSString) (i j : ℕ) :
    currentString (pre ++ b) (pre.length + i) (pre.length + j) = currentString b i j := by
  unfold currentString
  rw [drop_after, Nat.add_sub_add_left]

theorem isEndAfter_after (b : NSString) (i : ℕ) :
    isEndAfter (pre ++ b) (pre.length + i) = isEndAfter b i := by
  unfold isEndAfter
  rw [Nat.add_assoc, getElem?_after]

end Scans

section Tags

variable {α β γ : Type} (pre : NSString) (mode : MarkupLanguage)

theorem orFail_some_bind {failure : TagFailure} {a : α} {f : α → Except TagFailure β} :
    (orFail failure (some a) >>= f) = f a := rfl

def shiftFst (k : ℕ) : ℕ × α → ℕ × α := fun x => (k + x.1, x.2)

theorem parseValue_after (b : NSString) (current : ℕ) :
    parseValue (pre ++ b) mode (pre.length + current)
      = (parseValue b mode current).map fun x => (x.1, pre.length + x.2) := by
  unfold parseValue
  rw [getElem?_after]
  cases b[current]? with
  | none => rfl
  | some quote =>
    rw [orFail_some_bind, orFail_some_bind]
    split_ifs
    · dsimp only
      rw [Nat.add_assoc, parseFrom_after]
      cases parseFrom b (current + 1) quote with
      | none => rfl
      | some j =>
        show Except.ok (currentString (pre ++ b) _ _, _) = Except.ok _
        rw [currentString_after, Nat.add_assoc]
    · rfl
    · dsimp only
      rw [scanWhile_after]
      cases scanWhile _ (b.drop current) current with
      | none => rfl
      | some j =>
        show Except.ok (currentString (pre ++ b) _ _, _) = Except.ok _
        rw [currentString_after]

theorem parseAttribute_after (b : NSString) (start : ℕ) (attributes : Attributes) :
    parseAttribute (pre ++ b) mode (pre.length + start) attributes
      = (parseAttribute b mode start attributes).map (shiftFst pre.length) := by
  unfold parseAttribute
  rw [parseFrom_after]
  cases parseFrom b start '=' with
  | none => rfl
  | some current =>
    rw [map_some, orFail_some_bind, orFail_some_bind]
    dsimp only
    rw [currentString_after, Nat.add_assoc, length_append, parseValue_after]
    by_cases hlt : current + 1 ≥ b.length
    · rw [if_pos hlt, if_pos (by omega)]
      rfl
    · rw [if_neg hlt, if_neg (by omega)]
      cases parseValue b mode (current + 1) with
      | error failure => rfl
      | ok x =>
        show (orFail _ (ignoreWhiteSpaceFrom (pre ++ b) (pre.length + x.2)) >>= _) = _
        rw [ignoreWhiteSpaceFrom_after]
        cases hi : ignoreWhiteSpaceFrom b x.2 with
        | none =>
          show _ = Except.map _ (orFail _ (ignoreWhiteSpaceFrom b x.2) >>= _)
          rw [hi]
          rfl
        | some i =>
          show _ = Except.map _ (orFail _ (ignoreWhiteSpaceFrom b x.2) >>= _)
          rw [hi]
          rfl

theorem parseAttributes_after (b : NSString) : ∀ (fuel start : ℕ) (attributes : Attributes),
    parseAttributes (pre ++ b) mode fuel (pre.length + start) attributes
      = (parseAttributes b mode fuel start attributes).map (shiftFst pre.length)
  | 0, _, _ => rfl
  | fuel + 1, start, attributes => by
    unfold parseAttributes
    rw [getElem?_after, isEndAfter_after, length_append, parseAttribute_after]
    cases b[start]? with
    | none => rfl
    | some c =>
      rw [orFail_some_bind, orFail_some_bind]
      by_cases hloop : c ≠ '>' ∧ start + 1 < b.length ∧ isEndAfter b start = false
      · rw [if_pos hloop, if_pos ⟨hloop.1, by omega, hloop.2.2⟩]
        cases parseAttribute b mode start attributes with
        | error failure => rfl
        | ok x => exact parseAttributes_after b fuel x.1 x.2
      · rw [if_neg hloop, if_neg fun h => hloop ⟨h.1, by omega, h.2.2⟩]
        split_ifs <;> rfl

theorem parseAttributes_fuel (b : NSString) : ∀ {fuel start : ℕ} {attributes : Attributes},
    start < b.length → b.length < fuel + start → ∀ extra,
    parseAttributes b mode (fuel + extra) start attributes
      = parseAttributes b mode fuel start attributes
  | 0, _, _, hlt, hfuel, _ => by omega
  | fuel + 1, start, attributes, hlt, hfuel, extra => by
    rw [show fuel + 1 + extra = fuel + extra + 1 by omega]
    unfold parseAttributes
    rw [getElem?_eq_getElem hlt, orFail_some_bind, orFail_some_bind]
    split_ifs with hloop
    · cases hj : parseAttribute b mode start attributes with
      | error failure => rfl
      | ok x =>
        have hj := parseAttribute_ok hj
        exact parseAttributes_fuel b hj.2 (by omega) extra
    · rfl
    · rfl

def Tag.after (tag : Tag) : Tag := { tag with index := pre.length + tag.index }

theorem parseTagFrom_after (b : NSString) (index : ℕ) :
    parseTagFrom (pre ++ b) mode (pre.length + index)
      = (parseTagFrom b mode index).map (Tag.after pre) := by
  unfold parseTagFrom
  rw [ignoreWhiteSpaceFrom_after]
  cases ignoreWhiteSpaceFrom b index with
  | none => rfl
  | some i =>
    rw [map_some, orFail_some_bind, orFail_some_bind, scanWhile_after]
    cases scanWhile _ (b.drop i) i with
    | none => rfl
    | some j =>
      rw [map_some, orFail_some_bind, orFail_some_bind, ignoreWhiteSpaceFrom_after]
      cases ignoreWhiteSpaceFrom b j with
      | none => rfl
      | some k =>
        rw [map_some, orFail_some_bind, orFail_some_bind]
        dsimp only
        rw [drop_after]
        split_ifs
        · show Except.ok _ = Except.ok _
          rw [Nat.add_assoc]
          rfl
        · rw [parseFrom_after]
          cases parseFrom b k '>' with
          | none => rfl
          | some l => rfl
        · rw [Nat.add_assoc, ignoreWhiteSpaceFrom_after]
          cases hl : ignoreWhiteSpaceFrom b _ with
          | none => rfl
          | some l =>
            have hlt := (ignoreWhiteSpaceFrom_spec hl).2
            rw [map_some, orFail_some_bind, orFail_some_bind, parseAttributes_after,
              length_append,
              show pre.length + b.length + 1 = b.length + 1 + pre.length by omega,
              parseAttributes_fuel mode b hlt (by omega)]
            cases parseAttributes b mode (b.length + 1) l [] with
            | error failure => rfl
            | ok x => rfl

end Tags

namespace Parse

variable (pre : NSString) {s t : Parse}

def after (s : Parse) : Parse :=
  { s with
    buffer := pre ++ s.buffer
    currentIndex := pre.length + s.currentIndex
    lastSuccessfullyParsed := pre.length + s.lastSuccessfullyParsed }

@[simp]
theorem after_buffer (s : Parse) : (s.after pre).buffer = pre ++ s.buffer := rfl

@[simp]
theorem after_currentIndex (s : Parse) :
    (s.after pre).currentIndex = pre.length + s.currentIndex := rfl

end Parse

def Turn.after (pre : NSString) : Turn → Turn
  | .goOn s => .goOn (s.after pre)
  | .done true s => .done true { s.after pre with buffer := s.buffer }
  | .done false s => .done false (s.after pre)
  | .raised s => .raised (s.after pre)

namespace Parse

variable (pre : NSString) {s t : Parse}

theorem endParsing_after (s : Parse) : (s.after pre).endParsing = s.endParsing.after pre := by
  show Turn.done true { s.after pre with
    buffer := (pre ++ s.buffer).drop (pre.length + s.lastSuccessfullyParsed) } = _
  rw [drop_after]
  rfl

theorem notag_after (s : Parse) : (s.after pre).notag = s.notag.after pre := by
  unfold notag
  rw [after_buffer, after_currentIndex]
  rw [ignoreWhiteSpaceFrom_after]
  cases ignoreWhiteSpaceFrom s.buffer s.currentIndex with
  | none => rfl
  | some i =>
    dsimp only [Option.map_some]
    rw [parseFrom_after]
    cases parseFrom s.buffer i '<' with
    | none => exact endParsing_after pre s
    | some j =>
      dsimp only [within, after_buffer, Option.map_some]
      rw [Nat.add_assoc, getElem?_after]
      cases s.buffer[j + 1]? with
      | none => exact endParsing_after pre (s.within .intag)
      | some c =>
        dsimp only
        split_ifs
        · rw [parseFrom_after]
          cases parseFrom s.buffer (j + 1) '>' with
          | none => exact endParsing_after pre (s.within .intag)
          | some k => rfl
        · rfl

theorem incdata_after (s : Parse) : (s.after pre).incdata = s.incdata.after pre := by
  unfold incdata
  rw [after_buffer, after_currentIndex, parseFrom_after]
  cases parseFrom s.buffer s.currentIndex '<' with
  | none => exact endParsing_after pre s
  | some i =>
    show (if pre.length + i = pre.length + s.lastSuccessfullyParsed then _ else
      if '>' ∈ currentString (pre ++ s.buffer) (pre.length + s.lastSuccessfullyParsed)
        (pre.length + i) then _ else _) = _
    dsimp only
    by_cases hlast : i = s.lastSuccessfullyParsed
    · rw [if_pos hlast, if_pos (congrArg (pre.length + ·) hlast)]
      rfl
    · rw [if_neg hlast, if_neg fun h => hlast (Nat.add_left_cancel h)]
      show (if '>' ∈ currentString (pre ++ s.buffer) (pre.length + s.lastSuccessfullyParsed)
        (pre.length + i) then _ else Turn.goOn (((Parse.tell _ (.characters (currentString
          (pre ++ s.buffer) (pre.length + s.lastSuccessfullyParsed) (pre.length + i)))).parsedTo
            _).within _)) = _
      rw [currentString_after]
      split_ifs <;> rfl

theorem instupidcdata_after (s : Parse) :
    (s.after pre).instupidcdata = s.instupidcdata.after pre := by
  unfold instupidcdata
  have hcdata : (s.after pre).buffer.drop (s.after pre).lastSuccessfullyParsed
      = s.buffer.drop s.lastSuccessfullyParsed := drop_after pre _ _
  dsimp only
  rw [hcdata]
  cases rangeOfString "]]>".toList (s.buffer.drop s.lastSuccessfullyParsed) with
  | none =>
    show Turn.goOn (Parse.parsedTo _ (pre ++ s.buffer).length) = _
    rw [length_append]
    rfl
  | some location =>
    show Turn.goOn (Parse.parsedTo _ (pre.length + s.currentIndex + location + 3)) = _
    rw [show pre.length + s.currentIndex + location + 3
      = pre.length + (s.currentIndex + location + 3) by omega]
    rfl

theorem skipPast_after (s : Parse) (n : ℕ) :
    (s.after pre).skipPast (pre.length + (n + 1)) = (s.skipPast (n + 1)).after pre := by
  rw [← Nat.add_assoc]
  unfold skipPast
  dsimp only
  rw [after_buffer, parseFrom_after]
  cases parseFrom s.buffer n '>' with
  | none => exact endParsing_after pre s
  | some j => rfl

theorem close_after (s : Parse) (tag : Tag) :
    (s.after pre).close (tag.after pre) = (s.close tag).after pre := by
  rcases hm : s.mode with _ | _
  · rw [close_xml hm, close_xml (s := s.after pre) hm]
    rw [show (s.after pre).openTags = s.openTags from rfl]
    cases s.openTags with
    | nil => rfl
    | cons name openTags =>
      dsimp only
      show (if name = tag.name then _ else _) = _
      split_ifs
      · exact skipPast_after pre (({ s with openTags }.tell (.endElement tag.name)).within .incdata)
          tag.index
      · rfl
  · rw [close_sgml hm, close_sgml (s := s.after pre) hm]
    exact skipPast_after pre ((s.tell (.endElement tag.name)).within .incdata) tag.index

theorem openElement_after (s : Parse) (tag : Tag) :
    (s.after pre).openElement (tag.after pre) = (s.openElement tag).after pre := by
  rcases s with ⟨buffer, openTags, state, mode⟩
  cases mode <;> rfl

theorem tagEnd_after (s : Parse) {openTag : Bool} {tag : Tag}
    (h : openTag = true → tag.index ≠ 0) :
    (s.after pre).tagEnd openTag (tag.after pre) = (s.tagEnd openTag tag).after pre := by
  unfold tagEnd
  rw [after_buffer, show (tag.after pre).index = pre.length + tag.index from rfl, getElem?_after]
  cases s.buffer[tag.index]? with
  | none => rfl
  | some c =>
    dsimp only
    split_ifs with hclose
    · exact close_after pre s tag
    · rw [not_or, Bool.not_eq_false] at hclose
      obtain ⟨n, hn⟩ := Nat.exists_eq_succ_of_ne_zero (h hclose.2)
      show (s.after pre).skipPast (pre.length + tag.index) = _
      rw [hn]
      exact skipPast_after pre s n

theorem tag_after (s : Parse) {openTag : Bool} {tag : Tag}
    (h : openTag = true → tag.index ≠ 0) :
    (s.after pre).tag openTag (tag.after pre) = (s.tag openTag tag).after pre := by
  rcases hcomment : ISCOMMENT tag.name with _ | _
  · rcases openTag with _ | _
    · rw [tag_closing hcomment, @tag_closing _ (tag.after pre) hcomment, tagEnd_after pre s h]
    · by_cases hCDATA : tag.name = CDATA
      · rw [tag_CDATA hCDATA, @tag_CDATA _ (tag.after pre) hCDATA]
        rfl
      · rw [tag_element hcomment hCDATA, @tag_element _ (tag.after pre) hcomment hCDATA,
          openElement_after, tagEnd_after pre _ h]
  · rw [tag_comment hcomment, @tag_comment _ (tag.after pre) hcomment]
    exact tagEnd_after pre (s.within .incdata) h

theorem intag_after (h : ¬ (s.currentIndex = 0 ∧ s.buffer[0]? = some '>')) :
    (s.after pre).intag = s.intag.after pre := by
  unfold intag
  rw [after_buffer, after_currentIndex, getElem?_after]
  cases hc : s.buffer[s.currentIndex]? with
  | none => rfl
  | some c =>
    dsimp only
    have hi : (if c = '<' then pre.length + s.currentIndex + 1 else pre.length + s.currentIndex)
        = pre.length + if c = '<' then s.currentIndex + 1 else s.currentIndex := by
      split_ifs <;> rfl
    rw [hi]
    have hle : s.currentIndex ≤ if c = '<' then s.currentIndex + 1 else s.currentIndex := by
      split_ifs <;> omega
    generalize (if c = '<' then s.currentIndex + 1 else s.currentIndex) = i at hle ⊢
    rw [getElem?_after, drop_after]
    cases hd : s.buffer[i]? with
    | none => rfl
    | some d =>
      dsimp only
      have hj : (if d = '/' then pre.length + i + 1 else pre.length + i)
          = pre.length + if d = '/' then i + 1 else i := by
        split_ifs <;> rfl
      rw [hj]
      show (s.after pre).tagParsed _ (parseTagFrom (pre ++ s.buffer) s.mode _) = _
      rw [parseTagFrom_after]
      cases htag : parseTagFrom s.buffer s.mode (if d = '/' then i + 1 else i) with
      | error failure =>
        cases failure with
        | TEMPORARYFAILURE => exact endParsing_after pre s
        | FAILURE => rfl
        | raised => rfl
        | unfinished => rfl
      | ok tag =>
        refine tag_after pre s fun hopen h0 => h ?_
        obtain ⟨hle', -, hend⟩ := parseTagFrom_ok htag
        have hi0 : i = 0 := by split_ifs at hle' <;> omega
        have hd' : d ≠ '/' := of_decide_eq_true hopen
        rw [if_neg hd', hi0, h0] at hend
        exact ⟨by omega, hend rfl⟩

/-- A turn does after some text what it does before it, unless it is in a tag that ends where the
buffer begins. -/
theorem turn_after (h : s.state = .intag → ¬ (s.currentIndex = 0 ∧ s.buffer[0]? = some '>')) :
    (s.after pre).turn = s.turn.after pre := by
  unfold turn
  rw [show (s.after pre).state = s.state from rfl]
  rcases hs : s.state with _ | _ | _ | _ | _ | _ | _
  · exact notag_after pre s
  · exact intag_after pre (h hs)
  · rfl
  · exact incdata_after pre s
  · exact instupidcdata_after pre s
  · rfl
  · rfl

end Parse

end Etoile.EtoileXML
