import Etoile.EtoileXML.DocumentRuns
import Etoile.EtoileXML.Escaping
import Mathlib.Data.List.DropRight

/-!
# The XML writer

The end of a start tag is written only when it is known whether the element has content.  The
calls are the events that a parser's delegate is told of.
-/

namespace Etoile.EtoileXML

/-- The last tag that was opened comes first.  The condition and the number of sub-writers are of
no account while there is no sub-writer. -/
structure ETXMLWriter where
  autoindent : Bool := false
  buffer : NSString := []
  tagStack : List NSString := []
  indentString : NSString := ['\n']
  inOpenTag : Bool := false
  deriving DecidableEq

namespace ETXMLWriter

def append (w : ETXMLWriter) (s : NSString) : ETXMLWriter := { w with buffer := w.buffer ++ s }

def closeOpenTag (w : ETXMLWriter) : ETXMLWriter :=
  if w.inOpenTag then { w.append ">".toList with inOpenTag := false } else w

def characters (w : ETXMLWriter) (chars : NSString) : ETXMLWriter :=
  w.closeOpenTag.append (escapeXMLCData chars)

def indent (w : ETXMLWriter) : ETXMLWriter :=
  if w.autoindent then
    let w := if w.tagStack ≠ [] then w.append w.indentString else w
    { w with indentString := w.indentString ++ ['\t'] }
  else w

def attributeText (a : NSString × NSString) : NSString :=
  ' ' :: (a.1 ++ '=' :: '"' :: (escapeXMLCData a.2 ++ ['"']))

/-- The attributes come in the order in which the dictionary enumerates them. -/
def startElement (w : ETXMLWriter) (aName : NSString) (attributes : Attributes) : ETXMLWriter :=
  let w := w.closeOpenTag.indent.append ('<' :: aName ++ attributes.flatMap attributeText)
  { w with tagStack := aName :: w.tagStack, inOpenTag := true }

/-- `none` if there is no tag to remove from the stack. -/
def endElement (w : ETXMLWriter) : Option ETXMLWriter :=
  match w.tagStack with
  | [] => none
  | aName :: tagStack =>
    let w := if w.autoindent then { w with indentString := w.indentString.dropLast } else w
    let w :=
      if w.inOpenTag then w.append " />".toList
      else
        let w := if w.autoindent then w.append w.indentString else w
        w.append ('<' :: '/' :: (aName ++ ['>']))
    some { w with tagStack, inOpenTag := false }

/-- `-endElement:`; `none` if it raises `ETXMLMismatchedTagException`. -/
def endElementNamed (w : ETXMLWriter) (aName : NSString) : Option ETXMLWriter :=
  if w.tagStack.head? ≠ some aName then none else w.endElement

/-- A call of the protocol that writers share with the delegates of parsers. -/
def write (w : ETXMLWriter) : Event → Option ETXMLWriter
  | .startElement aName attributes => some (w.startElement aName attributes)
  | .endElement aName => w.endElementNamed aName
  | .characters chars => some (w.characters chars)

def writeAll (w : ETXMLWriter) (calls : List Event) : Option ETXMLWriter := calls.foldlM write w

end ETXMLWriter

end Etoile.EtoileXML

/-!
## Writing and parsing

What a writer writes for a balanced sequence of calls is a document, which the parser reads as the
calls, escaped.
-/

namespace Etoile.EtoileXML

open List

def writtenTag (aName : NSString) (attributes : Attributes) (space : NSString) : WrittenTag where
  name := aName
  attributes := attributes.map fun a => { name := a.1, value := escapeXMLCData a.2 }
  space

def tokensOf : List Event → List Token
  | .startElement aName attributes :: .endElement _ :: calls =>
    .emptyTag (writtenTag aName attributes [' ']) :: tokensOf calls
  | .startElement aName attributes :: calls =>
    .startTag (writtenTag aName attributes []) :: tokensOf calls
  | .endElement aName :: calls => .endTag aName [] :: tokensOf calls
  | .characters chars :: calls => .text (escapeXMLCData chars) :: tokensOf calls
  | [] => []

theorem attributesText_writtenTag (space : NSString) : ∀ attributes : Attributes,
    WrittenTag.attributesText space
      (attributes.map fun a => { name := a.1, value := escapeXMLCData a.2 })
    = attributes.flatMap ETXMLWriter.attributeText ++ space
  | [] => rfl
  | a :: attributes => by
    rw [map_cons, WrittenTag.attributesText, attributesText_writtenTag space attributes]
    simp [ETXMLWriter.attributeText, WrittenAttribute.written]

theorem written_writtenTag (aName : NSString) (attributes : Attributes) (space : NSString) :
    (writtenTag aName attributes space).written
      = aName ++ (attributes.flatMap ETXMLWriter.attributeText ++ space) := by
  exact congrArg (aName ++ ·) (attributesText_writtenTag space attributes)

namespace ETXMLWriter

variable {w : ETXMLWriter} {calls : List Event} {aName : NSString} {attributes : Attributes}

theorem writeAll_cons {call : Event} {w' : ETXMLWriter} (h : w.write call = some w') :
    w.writeAll (call :: calls) = w'.writeAll calls := by
  unfold writeAll
  rw [foldlM_cons, h]
  rfl

theorem startElement_eq (ho : w.inOpenTag = false) (ha : w.autoindent = false) :
    w.startElement aName attributes
      = { w.append ('<' :: aName ++ attributes.flatMap attributeText) with
          tagStack := aName :: w.tagStack, inOpenTag := true } := by
  unfold startElement closeOpenTag indent
  simp [ho, ha, append]

/-- The tag that is being written is ended by what comes next, unless it is the end of the
element. -/
theorem write_closeOpenTag {call : Event} (h : ∀ name, call ≠ .endElement name) :
    w.write call = w.closeOpenTag.write call := by
  have hclosed : w.closeOpenTag.closeOpenTag = w.closeOpenTag := by
    unfold closeOpenTag
    split_ifs <;> simp_all
  cases call with
  | endElement name => exact absurd rfl (h name)
  | startElement name attributes =>
    unfold write startElement
    rw [hclosed]
  | characters chars =>
    unfold write characters
    rw [hclosed]

theorem endElement_empty {tagStack : List NSString} (hs : w.tagStack = aName :: tagStack)
    (ho : w.inOpenTag = true) (ha : w.autoindent = false) :
    w.write (.endElement aName)
      = some { w.append " />".toList with tagStack, inOpenTag := false } := by
  unfold write endElementNamed endElement
  simp [hs, ho, ha]

theorem endElement_tag {tagStack : List NSString} (hs : w.tagStack = aName :: tagStack)
    (ho : w.inOpenTag = false) (ha : w.autoindent = false) :
    w.write (.endElement aName)
      = some { w.append ('<' :: '/' :: (aName ++ ['>'])) with tagStack } := by
  unfold write endElementNamed endElement
  simp [hs, ho, ha, append]

theorem writeAll_tokensOf : ∀ {calls : List Event} {w : ETXMLWriter}, w.inOpenTag = false →
    w.autoindent = false → leftOpen w.tagStack (brackets calls) = some [] →
    ∃ w', w.writeAll calls = some w'
      ∧ w'.buffer = w.buffer ++ (tokensOf calls).flatMap Token.written
  | [], w, _, _, _ => ⟨w, rfl, (append_nil _).symm⟩
  | .characters chars :: calls, w, ho, ha, hleft => by
    have hw : w.write (.characters chars) = some (w.append (escapeXMLCData chars)) := by
      unfold write characters closeOpenTag
      rw [ho]
      rfl
    obtain ⟨w', hw', hbuffer⟩ :=
      @writeAll_tokensOf calls (w.append (escapeXMLCData chars)) ho ha hleft
    refine ⟨w', (writeAll_cons hw).trans hw', ?_⟩
    rw [hbuffer]
    simp [append, tokensOf, Token.written]
  | .endElement aName :: calls, w, ho, ha, hleft => by
    rcases hs : w.tagStack with _ | ⟨b, tagStack⟩
    · rw [hs] at hleft
      cases hleft
    · rw [hs] at hleft
      have hclose : (if b = aName then leftOpen tagStack (brackets calls) else none) = some [] :=
        hleft
      split_ifs at hclose with hb
      subst hb
      obtain ⟨w', hw', hbuffer⟩ := @writeAll_tokensOf calls
        { w.append ('<' :: '/' :: (b ++ ['>'])) with tagStack } ho ha hclose
      refine ⟨w', (writeAll_cons (endElement_tag hs ho ha)).trans hw', ?_⟩
      rw [hbuffer]
      simp [append, tokensOf, Token.written]
  | [.startElement aName attributes], w, _, _, hleft => by cases hleft
  | .startElement aName attributes :: call :: calls, w, ho, ha, hleft => by
    have hw : w.write (.startElement aName attributes) = some (w.startElement aName attributes) :=
      rfl
    rw [startElement_eq ho ha] at hw
    have hgo : (∀ name, call ≠ .endElement name) →
        tokensOf (.startElement aName attributes :: call :: calls)
          = .startTag (writtenTag aName attributes []) :: tokensOf (call :: calls) →
        ∃ w', w.writeAll (.startElement aName attributes :: call :: calls) = some w'
          ∧ w'.buffer = w.buffer
            ++ (tokensOf (.startElement aName attributes :: call :: calls)).flatMap
              Token.written := by
      intro hcall htokens
      obtain ⟨w', hw', hbuffer⟩ := @writeAll_tokensOf (call :: calls)
        { (w.append ('<' :: aName ++ attributes.flatMap attributeText)).append ">".toList with
          tagStack := aName :: w.tagStack, inOpenTag := false } rfl ha hleft
      refine ⟨w', (writeAll_cons hw).trans ?_, ?_⟩
      · rw [← hw']
        unfold writeAll
        rw [foldlM_cons, foldlM_cons, write_closeOpenTag hcall]
        rfl
      · rw [hbuffer, htokens]
        simp [append, Token.written, written_writtenTag]
    cases call with
    | endElement name =>
      have hclose : (if aName = name then leftOpen w.tagStack (brackets calls) else none)
          = some [] := hleft
      split_ifs at hclose with hname
      subst hname
      have hend := @endElement_empty
        { w.append ('<' :: aName ++ attributes.flatMap attributeText) with
          tagStack := aName :: w.tagStack, inOpenTag := true } aName w.tagStack rfl rfl ha
      obtain ⟨w', hw', hbuffer⟩ := @writeAll_tokensOf calls
        { (w.append ('<' :: aName ++ attributes.flatMap attributeText)).append " />".toList with
          inOpenTag := false } rfl ha hclose
      refine ⟨w', (writeAll_cons hw).trans ((writeAll_cons hend).trans ?_), ?_⟩
      · rw [← hw']
        simp [append, ho]
      · rw [hbuffer]
        simp [append, tokensOf, Token.written, written_writtenTag]
    | startElement name attributes => exact hgo (by simp) rfl
    | characters chars => exact hgo (by simp) rfl
termination_by calls => calls.length

end ETXMLWriter

namespace Event

def reread : Event → Event
  | startElement aName attributes =>
    startElement aName (attributes.map fun a => (a.1, unescapeXMLCData (escapeXMLCData a.2)))
  | endElement aName => endElement aName
  | characters chars => characters (escapeXMLCData chars)

def unescaped : Event → Event
  | startElement aName attributes => startElement aName attributes
  | endElement aName => endElement aName
  | characters text => characters (unescapeXMLCData text)

def isText : Event → Bool
  | characters _ => true
  | _ => false

def Named : Event → Prop
  | startElement aName attributes =>
    IsName aName ∧ (∀ a ∈ attributes, IsName a.1) ∧ (attributes.map Prod.fst).Nodup
  | endElement aName => IsName aName
  | characters _ => True

def NoEntity : Event → Prop
  | startElement _ attributes => ∀ a ∈ attributes, EtoileXML.NoEntity a.2
  | endElement _ => True
  | characters chars => EtoileXML.NoEntity chars

theorem unescaped_reread_iff {event : Event} : event.reread.unescaped = event ↔ event.NoEntity := by
  cases event with
  | endElement aName => exact iff_of_true rfl trivial
  | characters chars =>
    rw [reread, unescaped, characters.injEq]
    exact unescape_escape_iff
  | startElement aName attributes =>
    rw [reread, unescaped, startElement.injEq]
    constructor
    · rintro ⟨-, h⟩ a ha
      have ha := map_eq_map_iff.1 (h.trans (map_id attributes).symm) a ha
      exact unescape_escape_iff.1 (congrArg Prod.snd ha)
    · intro h
      refine ⟨rfl, (map_eq_map_iff.2 fun a ha => ?_).trans (map_id attributes)⟩
      exact Prod.ext rfl (unescape_escape_iff.2 (h a ha))

end Event

theorem tokensOf_events : ∀ {calls : List Event} {stack left : List NSString},
    leftOpen stack (brackets calls) = some left →
    (tokensOf calls).flatMap Token.events = calls.map Event.reread
  | [], _, _, _ => rfl
  | .characters chars :: calls, stack, left, h =>
    congrArg (Event.characters (escapeXMLCData chars) :: ·) (@tokensOf_events calls stack left h)
  | .endElement aName :: calls, stack, left, h => by
    rcases stack with _ | ⟨b, stack⟩
    · cases h
    · have hclose : (if b = aName then leftOpen stack (brackets calls) else none) = some left := h
      split_ifs at hclose
      exact congrArg (Event.endElement aName :: ·) (tokensOf_events hclose)
  | [.startElement aName attributes], _, _, _ => by
    simp [tokensOf, Token.events, WrittenTag.read, writtenTag, WrittenAttribute.read, Event.reread]
  | .startElement aName attributes :: call :: calls, stack, left, h => by
    have hread : ∀ space, (writtenTag aName attributes space).read
        = attributes.map fun a => (a.1, unescapeXMLCData (escapeXMLCData a.2)) := by
      intro space
      simp [writtenTag, WrittenTag.read, WrittenAttribute.read]
    have ih := @tokensOf_events (call :: calls) (aName :: stack) left h
    cases call with
    | endElement name =>
      have hclose : (if aName = name then leftOpen stack (brackets calls) else none)
          = some left := h
      split_ifs at hclose with hname
      subst hname
      rw [tokensOf, flatMap_cons, tokensOf_events hclose, Token.events, hread]
      rfl
    | startElement name attributes' =>
      rw [tokensOf, flatMap_cons, ih, Token.events, hread]
      · rfl
      · simp
    | characters chars =>
      rw [tokensOf, flatMap_cons, ih, Token.events, hread]
      · rfl
      · simp
termination_by calls => calls.length

def Token.IsWritten : Token → Prop
  | .startTag _ | .emptyTag _ | .endTag _ _ | .text _ => True
  | .comment _ | .CDATA _ => False

theorem writtenTag_wellFormed {aName : NSString} {attributes : Attributes} {space : NSString}
    (hnamed : (Event.startElement aName attributes).Named)
    (hspace : ∀ c ∈ space, isspace c = true) : (writtenTag aName attributes space).WellFormed := by
  obtain ⟨hname, hkeys, hnodup⟩ := hnamed
  refine ⟨hname, ?_, ?_, hspace⟩
  · intro a ha
    obtain ⟨b, hb, rfl⟩ := mem_map.1 ha
    exact ⟨by simp, show ∀ c ∈ [' '], isspace c = true by decide, hkeys b hb, .inl rfl,
      not_mem_escapeXMLCData (show '"' ∈ _ by decide) b.2⟩
  · have hmap : (writtenTag aName attributes space).attributes.map (·.name)
        = attributes.map Prod.fst := by simp [writtenTag]
    rwa [hmap]

theorem tokensOf_readable : ∀ {calls : List Event}, (∀ call ∈ calls, call.Named) →
    ∀ token ∈ tokensOf calls, token.IsWritten ∧ ∀ afterCDATA, token.Readable afterCDATA
  | [], _, _, h => by cases h
  | .characters chars :: calls, hnamed, token, h => by
    rcases mem_cons.1 h with rfl | h
    · exact ⟨trivial, fun _ => ⟨not_mem_escapeXMLCData (by decide) chars,
        not_mem_escapeXMLCData (by decide) chars⟩⟩
    · exact tokensOf_readable (fun c hc => hnamed c (by simp [hc])) token h
  | .endElement aName :: calls, hnamed, token, h => by
    rcases mem_cons.1 h with rfl | h
    · exact ⟨trivial, fun _ => ⟨hnamed (.endElement aName) (by simp), by simp⟩⟩
    · exact tokensOf_readable (fun c hc => hnamed c (by simp [hc])) token h
  | [.startElement aName attributes], hnamed, token, h => by
    obtain rfl := mem_singleton.1 h
    exact ⟨trivial, fun _ => writtenTag_wellFormed (hnamed _ (by simp)) (by simp)⟩
  | .startElement aName attributes :: call :: calls, hnamed, token, h => by
    have ih := @tokensOf_readable (call :: calls) fun c hc => hnamed c (mem_cons_of_mem _ hc)
    have hstart : ∀ afterCDATA,
        (Token.startTag (writtenTag aName attributes [])).Readable afterCDATA :=
      fun _ => writtenTag_wellFormed (hnamed _ (by simp)) (by simp)
    cases call with
    | endElement name =>
      rcases mem_cons.1 h with rfl | h
      · exact ⟨trivial, fun _ => writtenTag_wellFormed (hnamed _ (by simp)) (by decide)⟩
      · exact ih token (mem_cons_of_mem _ h)
    | startElement name attributes' =>
      rcases mem_cons.1 h with rfl | h
      · exact ⟨trivial, hstart⟩
      · exact ih token h
    | characters chars =>
      rcases mem_cons.1 h with rfl | h
      · exact ⟨trivial, hstart⟩
      · exact ih token h
termination_by calls => calls.length

theorem allReadable_of_forall : ∀ {tokens : List Token} {afterCDATA : Bool},
    (∀ token ∈ tokens, ∀ afterCDATA, token.Readable afterCDATA) →
    Token.AllReadable afterCDATA tokens
  | [], _, _ => trivial
  | token :: tokens, afterCDATA, h =>
    ⟨h token (by simp) afterCDATA, allReadable_of_forall fun t ht => h t (by simp [ht])⟩

section Text

open Token Event

theorem rdropWhile_cons {p : Event → Bool} {e : Event} {es : List Event}
    (h : p e = false ∨ es.rdropWhile p ≠ []) : (e :: es).rdropWhile p = e :: es.rdropWhile p := by
  unfold rdropWhile at h ⊢
  rw [reverse_cons, dropWhile_append]
  split_ifs with hempty
  · rw [List.isEmpty_iff] at hempty
    rcases h with h | h
    · rw [hempty, dropWhile_cons_of_neg (by simp [h])]
      rfl
    · exact absurd (by rw [hempty]; rfl) h
  · simp

theorem rdropWhile_append {p : Event → Bool} : ∀ {es : List Event}, (∀ e ∈ es, p e = false) →
    ∀ es' : List Event, (es ++ es').rdropWhile p = es ++ es'.rdropWhile p
  | [], _, _ => rfl
  | e :: es, h, es' => by
    rw [cons_append, rdropWhile_cons (.inl (h e (by simp))),
      rdropWhile_append fun e he => h e (by simp [he])]
    rfl

theorem rdropWhile_glue {pending : NSString} {es : List Event} (hne : es ≠ [])
    (htext : ∀ e ∈ es, e.isText = false) (es' : List Event) :
    (glue pending (es ++ es')).rdropWhile isText = glue pending (es ++ es'.rdropWhile isText) := by
  obtain ⟨e, es, rfl⟩ := exists_cons_of_ne_nil hne
  have hglue : ∀ l, glue pending (e :: l) = if pending = [] then e :: l
      else .characters pending :: e :: l := by
    intro l
    have he := htext e (by simp)
    cases e with
    | characters _ => cases he
    | _ => rfl
  have happend := rdropWhile_append htext es'
  rw [cons_append, cons_append] at happend ⊢
  rw [hglue, hglue]
  split_ifs
  · exact happend
  · rw [rdropWhile_cons (.inr (by rw [happend]; simp)), happend]

theorem dropWhile_glue (pending : NSString) (es : List Event) :
    (glue pending es).dropWhile isText = es.dropWhile isText := by
  rcases es with _ | ⟨_ | _ | _, es⟩
  · unfold glue
    split_ifs <;> rfl
  · unfold glue
    split_ifs <;> rfl
  · unfold glue
    split_ifs <;> rfl
  · rfl

theorem merged_append {es : List Event} (h : ∀ e ∈ es, e.isText = false) (es' : List Event) :
    merged (es ++ es') = es ++ merged es' := by
  induction es with
  | nil => rfl
  | cons e es ih =>
    have ih := ih fun e he => h e (by simp [he])
    have he := h e (by simp)
    cases e with
    | characters _ => cases he
    | startElement name attributes => exact congrArg (Event.startElement name attributes :: ·) ih
    | endElement name => exact congrArg (Event.endElement name :: ·) ih

theorem isWritten_cases {token : Token} (h : token.IsWritten) : (∃ s, token = .text s) ∨
    ((∀ t, token ≠ .text t) ∧ (∀ e ∈ token.events, e.isText = false) ∧ token.events ≠ []
      ∧ (∀ afterCDATA, token.tells afterCDATA = token.events
        ∧ token.leavesCDATA afterCDATA = false)) := by
  cases token with
  | text s => exact .inl ⟨s, rfl⟩
  | comment _ => exact h.elim
  | CDATA _ => exact h.elim
  | startTag _ => exact .inr ⟨by simp, by simp [Token.events, isText], by simp [Token.events],
      fun _ => ⟨rfl, rfl⟩⟩
  | emptyTag _ => exact .inr ⟨by simp, by simp [Token.events, isText], by simp [Token.events],
      fun _ => ⟨rfl, rfl⟩⟩
  | endTag _ _ => exact .inr ⟨by simp, by simp [Token.events, isText], by simp [Token.events],
      fun _ => ⟨rfl, rfl⟩⟩

theorem told_markup {token : Token} (h : ∀ t, token ≠ .text t) (afterCDATA : Bool)
    (pending : NSString) (tokens : List Token) :
    told afterCDATA pending (token :: tokens) = flush afterCDATA pending
      ++ token.tells afterCDATA ++ told (token.leavesCDATA afterCDATA) [] tokens := by
  cases token with
  | text s => exact absurd rfl (h s)
  | _ => rfl

theorem merged_told_false : ∀ {tokens : List Token} {pending : NSString},
    (∀ token ∈ tokens, token.IsWritten) →
    merged (told false pending tokens)
      = (glue pending (merged (tokens.flatMap Token.events))).rdropWhile isText
  | [], pending, _ => by
    show [] = (if pending = [] then [] else [Event.characters pending]).rdropWhile isText
    split_ifs
    · rfl
    · rfl
  | token :: tokens, pending, h => by
    have hrest : ∀ t ∈ tokens, t.IsWritten := fun t ht => h t (by simp [ht])
    rcases isWritten_cases (h token (by simp)) with ⟨s, rfl⟩ | ⟨hmarkup, htext, hne, htells⟩
    · have ih := @merged_told_false tokens (pending ++ s) hrest
      rw [← glue_glue] at ih
      exact ih
    · have ih := @merged_told_false tokens [] hrest
      rw [glue_nil] at ih
      rw [told_markup hmarkup, (htells false).1, (htells false).2, append_assoc,
        merged_flush (by simp), merged_append htext, ih, flatMap_cons, merged_append htext,
        rdropWhile_glue hne htext]

theorem merged_told_true : ∀ {tokens : List Token} {pending : NSString},
    (∀ token ∈ tokens, token.IsWritten) →
    merged (told true pending tokens)
      = ((merged (tokens.flatMap Token.events)).dropWhile isText).rdropWhile isText
  | [], _, _ => rfl
  | token :: tokens, pending, h => by
    have hrest : ∀ t ∈ tokens, t.IsWritten := fun t ht => h t (by simp [ht])
    rcases isWritten_cases (h token (by simp)) with ⟨s, rfl⟩ | ⟨hmarkup, htext, hne, htells⟩
    · rw [flatMap_cons]
      show merged (told true (pending ++ s) tokens) = ((glue s (merged _)).dropWhile _).rdropWhile _
      rw [dropWhile_glue]
      exact @merged_told_true tokens (pending ++ s) hrest
    · have hfirst : ∀ es', (token.events ++ es').dropWhile isText = token.events ++ es' := by
        intro es'
        obtain ⟨e, es, hes⟩ := exists_cons_of_ne_nil hne
        rw [hes]
        exact dropWhile_cons_of_neg (by simp [htext e (by simp [hes])])
      have hflush : flush true pending = [] := if_pos (.inl rfl)
      rw [told_markup hmarkup, (htells true).1, (htells true).2, hflush, nil_append,
        merged_append htext, merged_told_false hrest, glue_nil, flatMap_cons,
        merged_append htext, hfirst, rdropWhile_append htext]

end Text

theorem map_reread_glue (chars : NSString) (es : List Event) :
    (glue chars es).map Event.reread = glue (escapeXMLCData chars) (es.map Event.reread) := by
  have hother : ∀ es : List Event, (∀ v, glue v es = if v = [] then es else .characters v :: es) →
      (∀ v, glue v (es.map Event.reread)
        = if v = [] then es.map Event.reread else .characters v :: es.map Event.reread) →
      (glue chars es).map Event.reread = glue (escapeXMLCData chars) (es.map Event.reread) := by
    intro es h h'
    rw [h, h']
    by_cases hc : chars = []
    · rw [if_pos hc, if_pos (escapeXMLCData_eq_nil.2 hc)]
    · rw [if_neg hc, if_neg fun he => hc (escapeXMLCData_eq_nil.1 he)]
      rfl
  rcases es with _ | ⟨_ | _ | next, es⟩
  · exact hother [] (fun _ => rfl) fun _ => rfl
  · exact hother _ (fun _ => rfl) fun _ => rfl
  · exact hother _ (fun _ => rfl) fun _ => rfl
  · simp only [glue, map_cons, Event.reread, escapeXMLCData_append]

theorem merged_reread : ∀ calls : List Event,
    merged (calls.map Event.reread) = (merged calls).map Event.reread
  | [] => rfl
  | .startElement aName attributes :: calls =>
    congrArg (Event.reread (.startElement aName attributes) :: ·) (merged_reread calls)
  | .endElement aName :: calls => congrArg (Event.endElement aName :: ·) (merged_reread calls)
  | .characters chars :: calls => by
    have ih := congrArg (glue (escapeXMLCData chars)) (merged_reread calls)
    exact ih.trans (map_reread_glue chars (merged calls)).symm

theorem isText_reread (event : Event) : event.reread.isText = event.isText := by
  cases event <;> rfl

theorem dropWhile_map_eq_iff {f : Event → Event} {es : List Event} :
    ((es.dropWhile Event.isText).rdropWhile Event.isText).map f = es ↔
      ((∀ e ∈ es.head?, e.isText = false) ∧ ∀ e ∈ es.getLast?, e.isText = false)
        ∧ ∀ e ∈ es, f e = e := by
  have hmap : ∀ es : List Event, es.map f = es ↔ ∀ e ∈ es, f e = e := by
    intro es
    constructor
    · intro h
      exact map_eq_map_iff.1 (h.trans (map_id es).symm)
    · intro h
      exact (map_eq_map_iff.2 h).trans (map_id es)
  constructor
  · intro h
    have hlength := congrArg length h
    rw [length_map] at hlength
    have hpre := rdropWhile_prefix Event.isText (es.dropWhile Event.isText)
    have hsuf := dropWhile_suffix (l := es) Event.isText
    have hdrop : es.dropWhile Event.isText = es :=
      hsuf.eq_of_length (by have := hpre.length_le; have := hsuf.length_le; omega)
    have hrdrop : es.rdropWhile Event.isText = es := by
      rw [hdrop] at hlength hpre
      exact hpre.eq_of_length hlength
    rw [hdrop, hrdrop] at h
    refine ⟨⟨?_, ?_⟩, (hmap es).1 h⟩
    · intro e he
      rcases es with _ | ⟨e', es⟩
      · cases he
      · obtain rfl : e' = e := by simpa using he
        by_contra htext
        rw [dropWhile_cons_of_pos (by simpa using htext)] at hdrop
        have := (dropWhile_suffix (l := es) Event.isText).length_le
        rw [hdrop, length_cons] at this
        omega
    · intro e he
      have hne : es ≠ [] := by
        rintro rfl
        cases he
      rw [getLast?_eq_some_getLast hne, Option.mem_some_iff] at he
      have hlast := rdropWhile_eq_self_iff.1 hrdrop hne
      rw [he] at hlast
      simpa using hlast
  · rintro ⟨⟨hhead, hlast⟩, hf⟩
    have hdrop : es.dropWhile Event.isText = es := by
      rcases es with _ | ⟨e, es⟩
      · rfl
      · exact dropWhile_cons_of_neg (by simp [hhead e rfl])
    have hrdrop : es.rdropWhile Event.isText = es := by
      refine rdropWhile_eq_self_iff.2 fun hne => ?_
      have := hlast _ (getLast_mem_getLast? hne)
      simp [this]
    rw [hdrop, hrdrop, (hmap es).2 hf]

namespace ETXMLWriter

def RoundTrip (calls : List Event) : Prop :=
  ∃ w p events, ({} : ETXMLWriter).writeAll calls = some w
    ∧ ETXMLParser.parseFromSource {} w.buffer = some (.returned true p events)
    ∧ p.openTags = [] ∧ (merged events).map Event.unescaped = merged calls

def Enclosed (calls : List Event) : Prop :=
  (∀ event ∈ (merged calls).head?, event.isText = false)
    ∧ ∀ event ∈ (merged calls).getLast?, event.isText = false

theorem parsed_writeAll {calls : List Event} (hnamed : ∀ call ∈ calls, call.Named)
    (hbalanced : leftOpen [] (brackets calls) = some []) :
    ∃ w p events, ({} : ETXMLWriter).writeAll calls = some w
      ∧ ETXMLParser.parseFromSource {} w.buffer = some (.returned true p events)
      ∧ p.openTags = []
      ∧ merged events = (((merged calls).dropWhile Event.isText).rdropWhile Event.isText).map
        Event.reread := by
  obtain ⟨w, hw, hbuffer⟩ := @writeAll_tokensOf calls {} rfl rfl hbalanced
  have hreadable := tokensOf_readable hnamed
  have hevents := tokensOf_events hbalanced
  have hleft : leftOpen [] (brackets ((tokensOf calls).flatMap Token.events)) = some [] := by
    have hbracket : Event.bracket ∘ Event.reread = Event.bracket := by
      funext event
      cases event <;> rfl
    rw [hevents, brackets, filterMap_map, hbracket]
    exact hbalanced
  obtain ⟨p, hp, hopen⟩ := Token.parse_tokens
    (allReadable_of_forall fun token h => (hreadable token h).2) hleft
  refine ⟨w, p, Token.told true [] (tokensOf calls), hw, ?_, hopen, ?_⟩
  · rw [hbuffer]
    exact hp
  · rw [merged_told_true fun token h => (hreadable token h).1, hevents, merged_reread,
      dropWhile_map, show Event.isText ∘ Event.reread = Event.isText from funext isText_reread]
    unfold rdropWhile
    rw [← map_reverse, dropWhile_map,
      show Event.isText ∘ Event.reread = Event.isText from funext isText_reread, map_reverse]

/-- Writing and parsing gives the calls back exactly if no string holds one of the two escapes and
the elements enclose all character data. -/
theorem roundTrip_iff {calls : List Event} (hnamed : ∀ call ∈ calls, call.Named)
    (hbalanced : leftOpen [] (brackets calls) = some []) :
    RoundTrip calls ↔ Enclosed calls ∧ ∀ event ∈ merged calls, event.NoEntity := by
  obtain ⟨w, p, events, hw, hp, hopen, hevents⟩ := parsed_writeAll hnamed hbalanced
  have hround : RoundTrip calls ↔ (merged events).map Event.unescaped = merged calls := by
    constructor
    · rintro ⟨w', p', events', hw', hp', -, h⟩
      obtain rfl := Option.some.inj (hw.symm.trans hw')
      rw [hp] at hp'
      cases hp'
      exact h
    · intro h
      exact ⟨w, p, events, hw, hp, hopen, h⟩
  rw [hround, hevents, map_map, dropWhile_map_eq_iff]
  unfold Enclosed
  simp only [Function.comp_apply, Event.unescaped_reread_iff]

/-- An element with markup in an attribute and in its text. -/
theorem roundTrip_markup : RoundTrip [.startElement "a".toList [("b".toList, "<1>".toList)],
    .characters "x & y".toList, .endElement "a".toList] := by
  refine (roundTrip_iff ?_ (by decide)).2 ⟨⟨?_, ?_⟩, ?_⟩
  · intro call hcall
    have hname : ∀ c : Char, isNameChar c = true → IsName [c] := fun c hc =>
      ⟨by simp, by simpa using hc⟩
    simp only [mem_cons, not_mem_nil, or_false] at hcall
    rcases hcall with rfl | rfl | rfl
    · exact ⟨hname 'a' (by decide), by simpa using hname 'b' (by decide), by decide⟩
    · trivial
    · exact hname 'a' (by decide)
  · rintro event ⟨⟩
    rfl
  · rintro event ⟨⟩
    rfl
  · intro event hevent
    have hmerged : merged [.startElement "a".toList [("b".toList, "<1>".toList)],
        .characters "x & y".toList, .endElement "a".toList]
        = [.startElement "a".toList [("b".toList, "<1>".toList)], .characters "x & y".toList,
          .endElement "a".toList] := rfl
    rw [hmerged] at hevent
    simp only [mem_cons, not_mem_nil, or_false] at hevent
    rcases hevent with rfl | rfl | rfl
    · intro a ha
      obtain rfl := mem_singleton.1 ha
      exact ⟨by decide, by decide⟩
    · exact ⟨by decide, by decide⟩
    · trivial

/-- The name of an entity in an attribute. -/
theorem entity_not_roundTrip :
    leftOpen [] (brackets [.startElement "a".toList [("b".toList, "&apos;".toList)],
      .endElement "a".toList]) = some []
      ∧ ¬ RoundTrip [.startElement "a".toList [("b".toList, "&apos;".toList)],
        .endElement "a".toList] := by
  refine ⟨by decide, ?_⟩
  rintro ⟨w, p, events, hw, hp, -, h⟩
  have hwritten : ({} : ETXMLWriter).writeAll
      [.startElement "a".toList [("b".toList, "&apos;".toList)], .endElement "a".toList]
      = some { buffer := "<a b=\"&amp;apos;\" />".toList } := by decide
  obtain rfl := Option.some.inj (hwritten.symm.trans hw)
  have hparsed : ETXMLParser.parseFromSource {} "<a b=\"&amp;apos;\" />".toList
      = some (.returned true { state := .incdata }
          [.startElement "a".toList [("b".toList, "'".toList)], .endElement "a".toList]) := by
    decide
  rw [hparsed] at hp
  cases hp
  exact absurd h (by decide)

end ETXMLWriter

end Etoile.EtoileXML
