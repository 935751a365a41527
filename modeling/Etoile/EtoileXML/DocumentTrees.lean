import Etoile.EtoileXML.DocumentRuns

/-!
# Documents as trees

The events of a well-formed document are those of its tree, in order, where text and comments have
no `'>'`, which the parser takes for the end of markup, and no text comes between a CDATA section
and the next tag.
-/

namespace Etoile.EtoileXML

open List

inductive Node
  | element (tag : WrittenTag) (content : List Node) (space : NSString)
  | empty (tag : WrittenTag)
  | text (text : NSString)
  | comment (text : NSString)
  | CDATA (text : NSString)

namespace Node

mutual

def events : Node → List Event
  | element tag content _ =>
    .startElement tag.name tag.read :: (contentEvents content ++ [.endElement tag.name])
  | empty tag => [.startElement tag.name tag.read, .endElement tag.name]
  | text s | CDATA s => [.characters s]
  | comment _ => []

def contentEvents : List Node → List Event
  | [] => []
  | node :: content => node.events ++ contentEvents content

end

mutual

def tokens : Node → List Token
  | element tag content space =>
    .startTag tag :: (contentTokens content ++ [.endTag tag.name space])
  | empty tag => [.emptyTag tag]
  | text s => [.text s]
  | comment s => [.comment s]
  | CDATA s => [.CDATA s]

def contentTokens : List Node → List Token
  | [] => []
  | node :: content => node.tokens ++ contentTokens content

end

def written (node : Node) : NSString := node.tokens.flatMap Token.written

mutual

def WellFormed : Node → Prop
  | element tag content space =>
    tag.WellFormed ∧ ContentWellFormed content ∧ ∀ c ∈ space, isspace c = true
  | empty tag => tag.WellFormed
  | text s => '<' ∉ s
  | comment s => rangeOfString "--".toList s = none
  | CDATA s => rangeOfString Parse.CDEnd s = none

def ContentWellFormed : List Node → Prop
  | [] => True
  | node :: content => node.WellFormed ∧ ContentWellFormed content

end

def IsElement : Node → Prop
  | element _ _ _ | empty _ => True
  | text _ | comment _ | CDATA _ => False

def ReadAsMeant (root : Node) : Prop :=
  ∃ p events, ETXMLParser.parseFromSource {} root.written = some (.returned true p events)
    ∧ p.openTags = [] ∧ merged events = merged root.events

end Node

namespace Token

def WellFormed : Token → Prop
  | startTag tag | emptyTag tag => tag.WellFormed
  | endTag name space => IsName name ∧ ∀ c ∈ space, isspace c = true
  | text s => '<' ∉ s
  | comment s => rangeOfString "--".toList s = none
  | CDATA s => rangeOfString Parse.CDEnd s = none

/-- Text and comments without `'>'`, and no text where the parser looks for a tag. -/
def Plain (afterCDATA : Bool) : Token → Prop
  | startTag _ | emptyTag _ | endTag _ _ => True
  | text s => '>' ∉ s ∧ (afterCDATA = true → s = [])
  | comment s => '>' ∉ s
  | CDATA s => afterCDATA = true → s = []

def AllPlain : Bool → List Token → Prop
  | _, [] => True
  | afterCDATA, token :: tokens =>
    token.Plain afterCDATA ∧ AllPlain (token.leavesCDATA afterCDATA) tokens

theorem readable_of_plain {token : Token} {afterCDATA : Bool} (hwf : token.WellFormed)
    (hplain : token.Plain afterCDATA) : token.Readable afterCDATA := by
  cases token with
  | text s => exact ⟨hwf, hplain.1⟩
  | CDATA s => exact ⟨hwf, hplain⟩
  | comment s => exact hplain
  | startTag _ => exact hwf
  | emptyTag _ => exact hwf
  | endTag _ _ => exact hwf

theorem allReadable_of_plain : ∀ {tokens : List Token} {afterCDATA : Bool},
    (∀ token ∈ tokens, token.WellFormed) → AllPlain afterCDATA tokens →
    AllReadable afterCDATA tokens
  | [], _, _, _ => trivial
  | token :: tokens, _, hwf, ⟨hplain, hrest⟩ =>
    ⟨readable_of_plain (hwf token (by simp)) hplain,
      allReadable_of_plain (fun t ht => hwf t (by simp [ht])) hrest⟩

theorem nothingMissed_of_plain : ∀ {tokens : List Token} {afterCDATA : Bool},
    AllPlain afterCDATA tokens → NothingMissed afterCDATA tokens
  | [], _, _ => trivial
  | .text _ :: _, _, ⟨hplain, hrest⟩ => ⟨hplain.2, nothingMissed_of_plain hrest⟩
  | .CDATA _ :: _, _, ⟨hplain, hrest⟩ => ⟨hplain, nothingMissed_of_plain hrest⟩
  | .comment _ :: _, _, ⟨_, hrest⟩ => ⟨fun _ => rfl, nothingMissed_of_plain hrest⟩
  | .startTag _ :: _, _, ⟨_, hrest⟩ => ⟨fun _ => rfl, nothingMissed_of_plain hrest⟩
  | .emptyTag _ :: _, _, ⟨_, hrest⟩ => ⟨fun _ => rfl, nothingMissed_of_plain hrest⟩
  | .endTag _ _ :: _, _, ⟨_, hrest⟩ => ⟨fun _ => rfl, nothingMissed_of_plain hrest⟩

theorem trailing_endTag (name space : NSString) : ∀ (tokens : List Token) (pending : NSString),
    trailing pending (tokens ++ [.endTag name space]) = []
  | [], _ => rfl
  | .text s :: tokens, pending => trailing_endTag name space tokens (pending ++ s)
  | .startTag _ :: tokens, _ => trailing_endTag name space tokens []
  | .emptyTag _ :: tokens, _ => trailing_endTag name space tokens []
  | .endTag _ _ :: tokens, _ => trailing_endTag name space tokens []
  | .comment _ :: tokens, _ => trailing_endTag name space tokens []
  | .CDATA _ :: tokens, _ => trailing_endTag name space tokens []

end Token

namespace Node

mutual

theorem tokens_events : ∀ node : Node, node.tokens.flatMap Token.events = node.events
  | element tag content space => by
    have ih := contentTokens_events content
    simp [tokens, events, Token.events, ih]
  | empty _ | text _ | comment _ | CDATA _ => rfl

theorem contentTokens_events : ∀ content : List Node,
    (contentTokens content).flatMap Token.events = contentEvents content
  | [] => rfl
  | node :: content => by
    have ih := tokens_events node
    have ih' := contentTokens_events content
    simp [contentTokens, contentEvents, ih, ih']

end

mutual

theorem leftOpen_events (stack : List NSString) : ∀ node : Node,
    leftOpen stack (brackets node.events) = some stack
  | element tag content space => by
    have ih := leftOpen_contentEvents (tag.name :: stack) content
    show leftOpen (tag.name :: stack) (brackets (contentEvents content ++ _)) = _
    rw [brackets_append, leftOpen_append, ih]
    exact if_pos rfl
  | empty tag => if_pos rfl
  | text _ | comment _ | CDATA _ => rfl

theorem leftOpen_contentEvents (stack : List NSString) : ∀ content : List Node,
    leftOpen stack (brackets (contentEvents content)) = some stack
  | [] => rfl
  | node :: content => by
    rw [contentEvents, brackets_append, leftOpen_append, leftOpen_events stack node]
    exact leftOpen_contentEvents stack content

end

mutual

theorem tokens_wellFormed : ∀ {node : Node}, node.WellFormed → ∀ t ∈ node.tokens, t.WellFormed
  | element tag content space, ⟨htag, hcontent, hspace⟩, t, ht => by
    rw [tokens, mem_cons, mem_append, mem_singleton] at ht
    rcases ht with rfl | ht | rfl
    · exact htag
    · exact contentTokens_wellFormed hcontent t ht
    · exact ⟨htag.name, hspace⟩
  | empty tag, h, t, ht => by
    obtain rfl := mem_singleton.1 ht
    exact h
  | text s, h, t, ht => by
    obtain rfl := mem_singleton.1 ht
    exact h
  | comment s, h, t, ht => by
    obtain rfl := mem_singleton.1 ht
    exact h
  | CDATA s, h, t, ht => by
    obtain rfl := mem_singleton.1 ht
    exact h

theorem contentTokens_wellFormed : ∀ {content : List Node}, ContentWellFormed content →
    ∀ t ∈ contentTokens content, t.WellFormed
  | [], _, _, ht => by cases ht
  | node :: content, ⟨hnode, hcontent⟩, t, ht => by
    rcases mem_append.1 ht with ht | ht
    · exact tokens_wellFormed hnode t ht
    · exact contentTokens_wellFormed hcontent t ht

end

/-- A document is read as it is meant, if it has no text or comment with a `'>'` and no text that
follows a CDATA section before the next tag. -/
theorem readAsMeant_of_plain {root : Node} (hroot : root.IsElement) (hwf : root.WellFormed)
    (hplain : Token.AllPlain false root.tokens) : root.ReadAsMeant := by
  have htrailing : Token.trailing [] root.tokens = [] := by
    cases root with
    | element tag content space =>
      exact Token.trailing_endTag tag.name space (.startTag tag :: contentTokens content) []
    | empty tag => rfl
    | _ => exact hroot.elim
  have hreads : Token.AllReadable true root.tokens := by
    have h := Token.allReadable_of_plain (tokens_wellFormed hwf) hplain
    cases root with
    | element tag content space => exact h
    | empty tag => exact h
    | _ => exact hroot.elim
  have hmissed : Token.NothingMissed true root.tokens := by
    have h := Token.nothingMissed_of_plain hplain
    cases root with
    | element tag content space => exact ⟨fun _ => rfl, h.2⟩
    | empty tag => exact ⟨fun _ => rfl, h.2⟩
    | _ => exact hroot.elim
  have hleft := leftOpen_events [] root
  rw [← tokens_events] at hleft
  obtain ⟨p, hcall, hopen⟩ := Token.parse_tokens hreads hleft
  have hmerged := Token.merged_told (fun _ => rfl) hmissed htrailing
  rw [glue_nil, tokens_events] at hmerged
  exact ⟨p, _, hcall, hopen, hmerged⟩

def mixed : Node :=
  .element { name := "a".toList, attributes := [{ name := "b".toList, value := "1".toList }] }
    [.text "x".toList, .comment " c ".toList, .text "y".toList, .CDATA "<z>".toList] []

theorem mixed_readAsMeant : mixed.ReadAsMeant := by
  refine readAsMeant_of_plain trivial
    ⟨⟨⟨by decide, by decide⟩, ?_, by decide, by simp⟩, ?_, by simp⟩ ?_
  · intro a ha
    obtain rfl := mem_singleton.1 ha
    exact ⟨by decide, by decide, ⟨by decide, by decide⟩, .inl rfl, by decide⟩
  · exact ⟨show '<' ∉ "x".toList by decide, show rangeOfString _ _ = none by decide,
      show '<' ∉ "y".toList by decide, show rangeOfString _ _ = none by decide, trivial⟩
  · exact ⟨trivial, ⟨by decide, by decide⟩, show '>' ∉ " c ".toList by decide,
      ⟨by decide, by decide⟩, (fun h => by cases h), trivial, trivial⟩

/-- An inequality in the text. -/
theorem greater_not_readAsMeant :
    (Node.element { name := "a".toList } [.text "1 > 0".toList] []).IsElement
      ∧ (Node.element { name := "a".toList } [.text "1 > 0".toList] []).WellFormed
      ∧ ¬ (Node.element { name := "a".toList } [.text "1 > 0".toList] []).ReadAsMeant := by
  refine ⟨trivial, ⟨⟨⟨by decide, by decide⟩, by simp, by decide, by simp⟩,
    ⟨show '<' ∉ "1 > 0".toList by decide, trivial⟩, by simp⟩, ?_⟩
  rintro ⟨p, events, hcall, -⟩
  have hfails : ETXMLParser.parseFromSource {}
      (Node.element { name := "a".toList } [.text "1 > 0".toList] []).written
      = some (.returned false
          { buffer := "<a>1 > 0</a>".toList
            openTags := ["a".toList]
            state := .broken }
          [.startElement "a".toList []]) := by decide
  rw [hfails] at hcall
  cases hcall

end Node

end Etoile.EtoileXML
