import Etoile.EtoileXML.Documents

/-!
# The events of a document

A document is parsed token by token.  The parser does not tell of the text that follows a CDATA
section, and takes the first `'>'` for the end of a comment; of all the rest it tells in order.
-/

namespace Etoile.EtoileXML

open List Option

/-- Adjacent character data is one piece of it, and no character data is none. -/
def glue (text : NSString) : List Event → List Event
  | .characters next :: events => .characters (text ++ next) :: events
  | events => if text = [] then events else .characters text :: events

def merged : List Event → List Event
  | [] => []
  | .characters text :: events => glue text (merged events)
  | event :: events => event :: merged events

theorem glue_nil : ∀ events : List Event, glue [] events = events
  | [] => rfl
  | .characters _ :: _ => rfl
  | .startElement _ _ :: _ => rfl
  | .endElement _ :: _ => rfl

theorem glue_glue (t u : NSString) (events : List Event) :
    glue t (glue u events) = glue (t ++ u) events := by
  have hother : ∀ es : List Event, (∀ v, glue v es = if v = [] then es else .characters v :: es) →
      glue t (glue u es) = glue (t ++ u) es := by
    intro es h
    rw [h u, h (t ++ u)]
    split_ifs with hu htu htu
    · rw [h t, if_pos (append_eq_nil_iff.1 htu).1]
    · rw [h t, hu, append_nil, if_neg]
      rintro rfl
      exact htu (by rw [hu]; rfl)
    · exact absurd (append_eq_nil_iff.1 htu).2 hu
    · rfl
  rcases events with _ | ⟨_ | _ | v, es⟩
  · exact hother [] fun _ => rfl
  · exact hother _ fun _ => rfl
  · exact hother _ fun _ => rfl
  · simp [glue]

/-- Where the parser is between two tokens: in character data, or after a CDATA section. -/
def Parse.between (afterCDATA : Bool) (l : ℕ) (pre rest : NSString) (openTags : List NSString)
    (events : List Event) : Parse :=
  if afterCDATA then (place pre rest .notag openTags events).lastAt l
  else place pre rest .incdata openTags events

namespace Token

def Readable (afterCDATA : Bool) : Token → Prop
  | startTag tag | emptyTag tag => tag.WellFormed
  | endTag name space => IsName name ∧ ∀ c ∈ space, isspace c = true
  | text s => '<' ∉ s ∧ '>' ∉ s
  | comment s => '>' ∉ s
  | CDATA s => rangeOfString Parse.CDEnd s = none ∧ (afterCDATA = true → s = [])

def leavesCDATA (afterCDATA : Bool) : Token → Bool
  | CDATA _ => true
  | comment _ | text _ => afterCDATA
  | startTag _ | emptyTag _ | endTag _ _ => false

def AllReadable : Bool → List Token → Prop
  | _, [] => True
  | afterCDATA, token :: tokens =>
    token.Readable afterCDATA ∧ AllReadable (token.leavesCDATA afterCDATA) tokens

/-- The text after the last tag, comment or CDATA section, if there is some before. -/
def trailing : NSString → List Token → NSString
  | pending, [] => pending
  | pending, text s :: tokens => trailing (pending ++ s) tokens
  | _, _ :: tokens => trailing [] tokens

def flush (afterCDATA : Bool) (pending : NSString) : List Event :=
  if afterCDATA = true ∨ pending = [] then [] else [.characters pending]

/-- What the parser tells of a token; it skips a CDATA section after another. -/
def tells (afterCDATA : Bool) : Token → List Event
  | CDATA s => if afterCDATA then [] else [.characters s]
  | token => token.events

/-- What the parser tells, with the text that comes before; what comes last stays in the buffer. -/
def told : Bool → NSString → List Token → List Event
  | _, _, [] => []
  | afterCDATA, pending, text s :: tokens => told afterCDATA (pending ++ s) tokens
  | afterCDATA, pending, token :: tokens => flush afterCDATA pending ++ token.tells afterCDATA
      ++ told (token.leavesCDATA afterCDATA) [] tokens

def chars : Token → NSString
  | text s | CDATA s => s
  | _ => []

def NothingMissed : Bool → List Token → Prop
  | _, [] => True
  | afterCDATA, token :: tokens => (afterCDATA = true → token.chars = [])
      ∧ NothingMissed (token.leavesCDATA afterCDATA) tokens

theorem merged_flush {afterCDATA : Bool} {pending : NSString}
    (h : afterCDATA = true → pending = []) (events : List Event) :
    merged (flush afterCDATA pending ++ events) = glue pending (merged events) := by
  unfold flush
  split_ifs with hp
  · rw [hp.elim h id, glue_nil]
    rfl
  · rfl

theorem merged_congr {es es' : List Event} (h : merged es = merged es') :
    ∀ events, merged (events ++ es) = merged (events ++ es')
  | [] => h
  | .startElement name attributes :: events =>
    congrArg (Event.startElement name attributes :: ·) (merged_congr h events)
  | .endElement name :: events => congrArg (Event.endElement name :: ·) (merged_congr h events)
  | .characters s :: events => congrArg (glue s) (merged_congr h events)

theorem merged_tells {afterCDATA : Bool} {token : Token}
    (h : afterCDATA = true → token.chars = []) (events : List Event) :
    merged (token.tells afterCDATA ++ events) = merged (token.events ++ events) := by
  cases token with
  | CDATA s =>
    rcases afterCDATA with _ | _
    · rfl
    · obtain rfl : s = [] := h rfl
      exact (glue_nil _).symm
  | _ => rfl

theorem merged_told : ∀ {tokens : List Token} {afterCDATA : Bool} {pending : NSString},
    (afterCDATA = true → pending = []) → NothingMissed afterCDATA tokens →
    trailing pending tokens = [] →
    merged (told afterCDATA pending tokens) = glue pending (merged (tokens.flatMap events))
  | [], _, pending, _, _, h => by
    obtain rfl : pending = [] := h
    rfl
  | token :: tokens, afterCDATA, pending, hpending, ⟨hmissed, hrest⟩, h => by
    have hmarkup : trailing [] tokens = [] →
        merged (flush afterCDATA pending ++ token.tells afterCDATA
            ++ told (token.leavesCDATA afterCDATA) [] tokens)
          = glue pending (merged ((token :: tokens).flatMap events)) := by
      intro h
      have hrest := merged_told (fun _ => rfl) hrest h
      rw [glue_nil] at hrest
      rw [append_assoc, merged_flush hpending, flatMap_cons, merged_tells hmissed,
        merged_congr hrest token.events]
    cases token with
    | text s =>
      have hs : afterCDATA = true → pending ++ s = [] := by
        intro ha
        obtain rfl : s = [] := hmissed ha
        rw [hpending ha]
        rfl
      have hrest := @merged_told tokens afterCDATA (pending ++ s) hs hrest h
      rw [← glue_glue] at hrest
      exact hrest
    | startTag _ => exact hmarkup h
    | emptyTag _ => exact hmarkup h
    | endTag _ _ => exact hmarkup h
    | comment _ => exact hmarkup h
    | CDATA _ => exact hmarkup h

section Steps

open Parse

variable {afterCDATA : Bool} {l : ℕ} {pre rest pending : NSString} {openTags : List NSString}
  {events : List Event} {s : Parse}

theorem enter (hless : '<' ∉ pending) (hgreater : '>' ∉ pending)
    (hrest : afterCDATA = true → ∃ c cs, rest = c :: cs ∧ c ≠ '!' ∧ c ≠ '?' ∧ c ≠ '<') :
    ∃ s, Steps (between afterCDATA l pre (pending ++ '<' :: rest) openTags events) s
      ∧ Entered (pre ++ pending ++ ['<']) rest s ∧ s.openTags = openTags
      ∧ s.events = events ++ flush afterCDATA pending := by
  rcases afterCDATA with _ | _
  · by_cases hp : pending = []
    · subst hp
      simpa [flush, between] using @enter_incdata pre rest openTags events
    · have hsteps := @tell_text pre rest openTags events pending hp hless hgreater
      refine ⟨place (pre ++ pending) ('<' :: rest) .intag openTags
          (events ++ [Event.characters pending]), hsteps,
        ⟨rfl, rfl, ?_, place_lt (by simp), ?_⟩, rfl, ?_⟩
      · simp [place]
      · unfold afterLess place
        dsimp only
        rw [if_pos (by simp)]
        exact (@length_append _ (pre ++ pending) ['<']).symm
      · unfold flush
        rw [if_neg (by simpa using hp)]
        rfl
  · obtain ⟨c, cs, rfl, hc⟩ := hrest rfl
    simpa [flush, between] using @enter_notag pre cs openTags events c l pending hless hc

/-- What follows the `'<'` of a tag, a comment or a CDATA section. -/
def inside : Token → NSString
  | startTag tag => tag.written ++ ['>']
  | emptyTag tag => tag.written ++ ['/', '>']
  | endTag name space => '/' :: (name ++ space ++ ['>'])
  | text _ => []
  | comment s => "!--".toList ++ s ++ "-->".toList
  | CDATA s => EtoileXML.CDATA ++ s ++ CDEnd

/-- The parser that has entered a tag goes to its end, and through a CDATA section. -/
theorem steps_inside {token : Token} (h : Entered pre (token.inside ++ rest) s)
    (hmarkup : ∀ t, token ≠ .text t) (hread : token.Readable false) {left : List NSString}
    (hleft : leftOpen s.openTags (brackets token.events) = some left) :
    Steps s (between (token.leavesCDATA false) (pre ++ token.inside).length (pre ++ token.inside)
      rest left (s.events ++ token.events)) := by
  cases token with
  | startTag tag =>
    obtain rfl : tag.name :: s.openTags = left := some.inj hleft
    have h' : Entered pre (tag.written ++ '>' :: rest) s := by simpa [inside] using h
    simpa [inside, between, leavesCDATA, Token.events] using Steps.one h.lt (h'.startTag hread)
  | emptyTag tag =>
    have hleft : (if tag.name = tag.name then some s.openTags else none) = some left := hleft
    rw [if_pos rfl] at hleft
    obtain rfl := some.inj hleft
    have h' : Entered pre (tag.written ++ '/' :: '>' :: rest) s := by simpa [inside] using h
    simpa [inside, between, leavesCDATA, Token.events] using Steps.one h.lt (h'.emptyTag hread)
  | endTag name space =>
    cases ho : s.openTags with
    | nil =>
      rw [ho] at hleft
      cases hleft
    | cons b openTags =>
      rw [ho] at hleft
      have hleft : (if b = name then some openTags else none) = some left := hleft
      split_ifs at hleft with hb
      obtain rfl : openTags = left := by simpa using hleft
      subst hb
      have h' : Entered pre ('/' :: (b ++ space ++ '>' :: rest)) s := by simpa [inside] using h
      simpa [inside, between, leavesCDATA, Token.events] using
        Steps.one h.lt (h'.endTag hread.1 hread.2 ho)
  | text t => exact absurd rfl (hmarkup t)
  | comment t =>
    obtain rfl := some.inj hleft
    have h' : Entered pre ("!--".toList ++ t ++ "-->".toList ++ rest) s := by simpa [inside] using h
    have hturn := h'.comment hread
    simpa [inside, between, leavesCDATA, Token.events] using Steps.one h.lt hturn
  | CDATA t =>
    obtain rfl := some.inj hleft
    have h' : Entered pre (EtoileXML.CDATA ++ (t ++ (CDEnd ++ rest))) s := by
      simpa [inside] using h
    have hturn := h'.CDATA (by simp [CDEnd])
    have hsteps := (Steps.one h.lt hturn).trans (leave_CDATA hread.1)
    simpa [inside, between, leavesCDATA, Token.events, lastAt, place] using hsteps

theorem written_eq {token : Token} (hmarkup : ∀ t, token ≠ .text t) :
    token.written = '<' :: token.inside := by
  cases token with
  | text t => exact absurd rfl (hmarkup t)
  | _ => rfl

theorem steps_markup {token : Token} (hmarkup : ∀ t, token ≠ .text t)
    (hread : token.Readable afterCDATA) (hless : '<' ∉ pending) (hgreater : '>' ∉ pending)
    {left : List NSString} (hleft : leftOpen openTags (brackets token.events) = some left) :
    ∃ l', Steps (between afterCDATA l pre (pending ++ (token.written ++ rest)) openTags events)
      (between (token.leavesCDATA afterCDATA) l' (pre ++ (pending ++ token.written)) rest left
        (events ++ (flush afterCDATA pending ++ token.tells afterCDATA))) := by
  -- in character data every token is entered, after a CDATA section only a tag is
  have hgo : token.Readable false → token.leavesCDATA afterCDATA = token.leavesCDATA false →
      token.tells afterCDATA = token.events →
      (afterCDATA = true → ∃ c cs, token.inside ++ rest = c :: cs ∧ c ≠ '!' ∧ c ≠ '?' ∧ c ≠ '<') →
      ∃ l', Steps (between afterCDATA l pre (pending ++ (token.written ++ rest)) openTags events)
        (between (token.leavesCDATA afterCDATA) l' (pre ++ (pending ++ token.written)) rest left
          (events ++ (flush afterCDATA pending ++ token.tells afterCDATA))) := by
    intro hread hleaves htells hhead
    obtain ⟨s, hs, hentered, ho, he⟩ :=
      @enter afterCDATA l pre (token.inside ++ rest) pending openTags events hless hgreater hhead
    rw [← ho] at hleft
    have hinside := steps_inside hentered hmarkup hread hleft
    rw [he, ← hleaves, ← htells, append_assoc, append_assoc] at hinside
    rw [written_eq hmarkup]
    exact ⟨_, by simpa using hs.trans hinside⟩
  cases token with
  | text t => exact absurd rfl (hmarkup t)
  | startTag tag =>
    refine hgo hread rfl rfl fun _ => ?_
    obtain ⟨c, cs, hcs, -, hc⟩ := written_head hread
    exact ⟨c, cs ++ ['>'] ++ rest, by simp [inside, hcs], hc⟩
  | emptyTag tag =>
    refine hgo hread rfl rfl fun _ => ?_
    obtain ⟨c, cs, hcs, -, hc⟩ := written_head hread
    exact ⟨c, cs ++ ['/', '>'] ++ rest, by simp [inside, hcs], hc⟩
  | endTag name space =>
    exact hgo hread rfl rfl fun _ => ⟨'/', name ++ space ++ ['>'] ++ rest, rfl, by decide⟩
  | CDATA t =>
    rcases afterCDATA with _ | _
    · exact hgo ⟨hread.1, fun h => by cases h⟩ rfl rfl fun h => by cases h
    · obtain rfl := hread.2 rfl
      obtain rfl := some.inj hleft
      obtain ⟨l', hsteps⟩ := @skip_declaration pre rest "[CDATA[]]".toList openTags events l pending
        hless (by decide)
      exact ⟨l', by simpa [between, leavesCDATA, flush, tells, Token.written, CDATA_cons, CDEnd]
        using hsteps⟩
  | comment t =>
    have hgt : '>' ∉ t := hread
    rcases afterCDATA with _ | _
    · exact hgo hgt rfl rfl fun h => by cases h
    · obtain rfl := some.inj hleft
      obtain ⟨l', hsteps⟩ := @skip_declaration pre rest ("--".toList ++ t ++ "--".toList) openTags
        events l pending hless (by simpa using hgt)
      exact ⟨l', by simpa [between, leavesCDATA, flush, tells, Token.events, Token.written]
        using hsteps⟩

/-- The tokens of a document are parsed one after the other, up to the text that comes last. -/
theorem steps_tokens : ∀ {tokens : List Token} {pending : NSString} {afterCDATA : Bool} {l : ℕ}
    {pre : NSString} {openTags : List NSString} {events : List Event} {left : List NSString},
    '<' ∉ pending → '>' ∉ pending → AllReadable afterCDATA tokens →
    leftOpen openTags (brackets (tokens.flatMap Token.events)) = some left →
    ∃ afterCDATA' l' pre',
      Steps (between afterCDATA l pre (pending ++ tokens.flatMap written) openTags events)
        (between afterCDATA' l' pre' (trailing pending tokens) left
          (events ++ told afterCDATA pending tokens)) ∧ '<' ∉ trailing pending tokens
  | [], pending, afterCDATA, l, pre, openTags, events, left, hless, _, _, hleft => by
    obtain rfl := some.inj hleft
    exact ⟨afterCDATA, l, pre, by simpa [told, trailing] using Steps.refl _, hless⟩
  | token :: tokens, pending, afterCDATA, l, pre, openTags, events, left, hless, hgreater,
      ⟨hread, hrest⟩, hleft => by
    have hgo : (∀ t, token ≠ .text t) →
        ∃ afterCDATA' l' pre', Steps
          (between afterCDATA l pre (pending ++ (token :: tokens).flatMap written) openTags events)
          (between afterCDATA' l' pre' (trailing [] tokens) left
            (events ++ (flush afterCDATA pending ++ token.tells afterCDATA
              ++ told (token.leavesCDATA afterCDATA) [] tokens))) ∧ '<' ∉ trailing [] tokens := by
      intro hmarkup
      rw [flatMap_cons, brackets_append, leftOpen_append, bind_eq_some_iff] at hleft
      obtain ⟨mid, hmid, hleft⟩ := hleft
      obtain ⟨l₁, h₁⟩ := @steps_markup afterCDATA l pre (tokens.flatMap written) pending openTags
        events token hmarkup hread hless hgreater mid hmid
      obtain ⟨afterCDATA', l₂, pre', h₂, hless'⟩ := @steps_tokens tokens []
        (token.leavesCDATA afterCDATA) l₁ (pre ++ (pending ++ token.written)) mid
        (events ++ (flush afterCDATA pending ++ token.tells afterCDATA)) left
        (by simp) (by simp) hrest hleft
      exact ⟨afterCDATA', l₂, pre', by simpa using h₁.trans (by simpa using h₂), hless'⟩
    cases token with
    | text t =>
      obtain ⟨hless', hgreater'⟩ := hread
      obtain ⟨afterCDATA', l', pre', hsteps, hlast⟩ := @steps_tokens tokens (pending ++ t)
        afterCDATA l pre openTags events left (by simp [hless, hless'])
        (by simp [hgreater, hgreater']) hrest hleft
      exact ⟨afterCDATA', l', pre', by simpa [told, trailing, Token.written] using hsteps, hlast⟩
    | startTag tag => exact hgo (by simp)
    | emptyTag tag => exact hgo (by simp)
    | endTag name space => exact hgo (by simp)
    | comment t => exact hgo (by simp)
    | CDATA t => exact hgo (by simp)

theorem notag_last (hall : ∀ i, parseFrom (pre ++ pending) (pre.length + i) '<' = none) :
    ∃ t, ((place pre pending .notag openTags events).lastAt l).turn = .done true t
      ∧ t.openTags = openTags ∧ t.events = events := by
  cases hi : ignoreWhiteSpaceFrom (pre ++ pending) pre.length with
  | none =>
    refine ⟨{ (place pre pending .notag openTags events).lastAt l with buffer := [] }, ?_, rfl, rfl⟩
    show notag _ = _
    unfold notag
    dsimp only [lastAt, place]
    rw [hi]
    rfl
  | some i =>
    obtain ⟨k, rfl⟩ := Nat.exists_eq_add_of_le (ignoreWhiteSpaceFrom_spec hi).1
    have hturn : ((place pre pending .notag openTags events).lastAt l).turn
        = ((place pre pending .notag openTags events).lastAt l).endParsing := by
      show notag _ = _
      unfold notag
      dsimp only [lastAt, place]
      rw [hi]
      dsimp only
      rw [hall]
    exact ⟨_, hturn, rfl, rfl⟩

theorem run_last {afterCDATA : Bool} {fuel : ℕ} (hless : '<' ∉ pending) :
    ∃ t, run (fuel + 1) (between afterCDATA l pre pending openTags events) = some (.done true t)
      ∧ t.openTags = openTags ∧ t.events = events := by
  by_cases hp : pending = []
  · subst hp
    refine ⟨{ between afterCDATA l pre [] openTags events with buffer := [] }, if_neg ?_, ?_,
      ?_⟩ <;>
      rcases afterCDATA with _ | _ <;> simp [between, place, lastAt]
  · have hall : ∀ i, parseFrom (pre ++ pending) (pre.length + i) '<' = none := by
      intro i
      unfold parseFrom
      rw [drop_after, scanWhile_eq_none]
      intro c hc
      simp only [ne_eq, decide_not, Bool.not_eq_true', decide_eq_false_iff_not]
      rintro rfl
      exact hless (mem_of_mem_drop hc)
    have hlt : (between afterCDATA l pre pending openTags events).currentIndex
        < (between afterCDATA l pre pending openTags events).buffer.length := by
      rcases afterCDATA with _ | _
      · exact @place_lt pre pending openTags events hp .incdata
      · exact @place_lt pre pending openTags events hp .notag
    obtain ⟨t, ht, ho, he⟩ : ∃ t, (between afterCDATA l pre pending openTags events).turn
        = .done true t ∧ t.openTags = openTags ∧ t.events = events := by
      rcases afterCDATA with _ | _
      · have hturn : (place pre pending .incdata openTags events).turn
            = (place pre pending .incdata openTags events).endParsing := by
          show incdata _ = _
          unfold incdata
          dsimp only [place]
          rw [show parseFrom (pre ++ pending) pre.length '<' = none from hall 0]
        exact ⟨_, hturn, rfl, rfl⟩
      · exact notag_last hall
    exact ⟨t, by rw [run, if_pos hlt, ht], ho, he⟩

open ETXMLParser in
theorem parse_tokens {tokens : List Token} (hreads : AllReadable true tokens)
    {left : List NSString}
    (hleft : leftOpen [] (brackets (tokens.flatMap Token.events)) = some left) :
    ∃ p, parseFromSource {} (tokens.flatMap written)
      = some (.returned true p (told true [] tokens)) ∧ p.openTags = left := by
  obtain ⟨afterCDATA', l', pre', hsteps, hless⟩ := @steps_tokens tokens [] true 0 [] [] [] left
    (by simp) (by simp) hreads hleft
  have hstart : Nested [] (start {} (tokens.flatMap written)) := ⟨rfl, rfl⟩
  have hrun : run (turns (0 + (tokens.flatMap written).length))
      (start {} (tokens.flatMap written)) ≠ none := by
    rcases run_finishes hstart trivial (Session.start_measure {} _) with ⟨r, t, h, -⟩ | ⟨⟨t, h⟩, -⟩
    · intro hnone
      cases hnone.symm.trans h
    · intro hnone
      cases hnone.symm.trans h
  obtain ⟨fuel, hfuel⟩ : ∃ fuel, run (turns (0 + (tokens.flatMap written).length))
      (start {} (tokens.flatMap written)) = run (fuel + 1) _ := hsteps.run hrun
  obtain ⟨t, hlast, ho, he⟩ : ∃ t, run (fuel + 1) (between afterCDATA' l' pre' (trailing [] tokens)
      left ([] ++ told true [] tokens)) = some (.done true t) ∧ t.openTags = left
        ∧ t.events = [] ++ told true [] tokens := run_last hless
  have hcall : parseFromSource {} (tokens.flatMap written)
      = (run (turns (0 + (tokens.flatMap written).length))
        (start {} (tokens.flatMap written))).map _ := if_neg (by decide)
  rw [hfuel, hlast] at hcall
  refine ⟨finish t, ?_, ho⟩
  rw [hcall, map_some]
  show some (Outcome.returned true (finish t) t.events) = _
  rw [he]
  rfl

end Steps

end Token

end Etoile.EtoileXML
