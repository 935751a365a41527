import Etoile.EtoileXML.Appending

/-!
# When two parses come to the same

What a parse tells from a state on depends on the text that is left, and not on where it lies in
the buffer, on where the parser last succeeded or on what was told before.  In none of this it
matters whether the text is XML or SGML.
-/

namespace Etoile.EtoileXML

open List Option

def concatenate : Event → List Event → List Event
  | .characters text, .characters next :: events => .characters (text ++ next) :: events
  | event, events => event :: events

def concatenated (events : List Event) : List Event := events.foldr concatenate []

theorem concatenated_append (events tail : List Event) :
    concatenated (events ++ tail) = events.foldr concatenate (concatenated tail) :=
  foldr_append

theorem concatenated_congr {tail tail' : List Event} (h : concatenated tail = concatenated tail')
    (events : List Event) : concatenated (events ++ tail) = concatenated (events ++ tail') := by
  rw [concatenated_append, concatenated_append, h]

theorem concatenate_characters (text text' : NSString) (events : List Event) :
    concatenate (.characters text) (concatenate (.characters text') events)
      = concatenate (.characters (text ++ text')) events := by
  rcases events with _ | ⟨_ | _ | _, events⟩
  · rfl
  · rfl
  · rfl
  · exact congrArg (Event.characters · :: events) (append_assoc _ _ _).symm

theorem concatenated_characters (events : List Event) (text text' : NSString) (tail : List Event) :
    concatenated (events ++ [.characters (text ++ text')] ++ tail)
      = concatenated (events ++ [.characters text] ++ [.characters text'] ++ tail) := by
  rw [append_assoc, append_assoc, append_assoc]
  refine concatenated_congr ?_ events
  exact (concatenate_characters text text' (concatenated tail)).symm

namespace Parse

section Measure

def AtEnd (s : Parse) : Prop := s.state = .intag ∧ s.currentIndex = 0 ∧ s.buffer[0]? = some '>'

/-- The parser has gone on from where it last succeeded where it looks for a tag, but not past the
beginning of one, and nowhere else. -/
structure Placed (s : Parse) : Prop where
  le : s.currentIndex ≤ s.buffer.length
  last : s.state ≠ .notag → s.lastSuccessfullyParsed = s.currentIndex
  skipped : s.state = .notag → s.lastSuccessfullyParsed ≤ s.currentIndex
    ∧ '<' ∉ currentString s.buffer s.lastSuccessfullyParsed s.currentIndex
  more : s.state = .intag → s.currentIndex < s.buffer.length

def Advances (s : Parse) : Turn → Prop
  | .goOn t => Live t.state ∧ t.Placed ∧ ¬ t.AtEnd ∧ t.measure < s.measure
  | .done result t => if result then Live t.state else t.state = .broken
  | .raised _ => True

variable {s t : Parse} {tag : Tag}

theorem placed_parsedTo {i : ℕ} (hi : i ≤ s.buffer.length)
    (hmore : s.state = .intag → i < s.buffer.length) : (s.parsedTo i).Placed where
  le := hi
  last _ := rfl
  skipped _ := by
    unfold currentString
    simp [parsedTo]
  more := hmore

theorem notag_advances (hs : s.state = .notag) : s.Advances s.notag := by
  have hl : Live s.state := by rw [hs]; trivial
  have hm : s.measure = 3 * (s.buffer.length - s.currentIndex) := by
    unfold measure
    rw [hs]
    rfl
  unfold notag
  cases hi : ignoreWhiteSpaceFrom s.buffer s.currentIndex with
  | none => exact hl
  | some i =>
    have hi := (ignoreWhiteSpaceFrom_spec hi).1
    dsimp only
    cases hj : parseFrom s.buffer i '<' with
    | none => exact hl
    | some j =>
      have hj := (parseFrom_spec hj).1
      dsimp only
      cases hc : (s.within .intag).buffer[j + 1]? with
      | none => trivial
      | some c =>
        have hlt := lt_length_of_getElem? hc
        dsimp only [within] at hlt ⊢
        split_ifs with hd
        · cases hk : parseFrom s.buffer (j + 1) '>' with
          | none => trivial
          | some k =>
            obtain ⟨hle, hk⟩ := parseFrom_spec hk
            have hklt := lt_length_of_getElem? hk
            refine ⟨trivial, ⟨hklt, fun h => absurd rfl h, fun _ => ⟨Nat.le_succ k, ?_⟩,
              fun h => (by cases h)⟩, fun h => (by cases h.1), ?_⟩
            · unfold currentString
              dsimp only
              rw [Nat.add_sub_cancel_left, drop_eq_getElem_cons hklt,
                (List.getElem?_eq_some_iff.1 hk).2]
              simp
            · rw [hm]
              dsimp only [measure]
              omega
        · refine ⟨trivial, placed_parsedTo (Nat.le_of_lt hlt) fun _ => hlt, ?_, ?_⟩
          · rintro ⟨-, h0, -⟩
            cases h0
          · rw [hm]
            dsimp only [measure, parsedTo]
            split_ifs <;> omega

theorem incdata_advances (hs : s.state = .incdata) (hp : s.Placed) : s.Advances s.incdata := by
  have hm : s.measure = 3 * (s.buffer.length - s.currentIndex) + 1 := by
    unfold measure
    rw [hs]
  have hlast := hp.last (by rw [hs]; simp)
  unfold incdata
  cases hi : parseFrom s.buffer s.currentIndex '<' with
  | none =>
    show Live s.state
    rw [hs]
    trivial
  | some i =>
    obtain ⟨hle, hc⟩ := parseFrom_spec hi
    have hlt := lt_length_of_getElem? hc
    have hnot : ∀ u : Parse, u.buffer = s.buffer → u.currentIndex = i → ¬ u.AtEnd := by
      rintro u hb hu ⟨-, h0, hgt⟩
      rw [hb, ← h0, hu, hc] at hgt
      cases hgt
    dsimp only
    split_ifs with h hcdata
    · refine ⟨trivial, ⟨Nat.le_of_lt hlt, fun _ => h.symm, fun h => (by cases h), fun _ => hlt⟩,
        hnot _ rfl rfl, ?_⟩
      rw [hm]
      dsimp only [measure, within]
      rw [if_pos hc]
      omega
    · rfl
    · refine ⟨trivial, ⟨Nat.le_of_lt hlt, fun _ => rfl, fun h => (by cases h), fun _ => hlt⟩,
        hnot _ rfl rfl, ?_⟩
      rw [hm]
      dsimp only [measure, within, parsedTo, tell]
      rw [if_pos hc]
      omega

theorem instupidcdata_advances (hs : s.state = .instupidcdata) (hp : s.Placed)
    (hlt : s.currentIndex < s.buffer.length) : s.Advances s.instupidcdata := by
  have hm : s.measure = 3 * (s.buffer.length - s.currentIndex) := by
    unfold measure
    rw [hs]
    rfl
  have hlast := hp.last (by rw [hs]; simp)
  have hnot : ∀ u : Parse, u.state ≠ .intag → ¬ u.AtEnd := fun u hu h => hu h.1
  unfold instupidcdata
  dsimp only
  cases hl : rangeOfString "]]>".toList (s.buffer.drop s.lastSuccessfullyParsed) with
  | none =>
    refine ⟨?_, placed_parsedTo (Nat.le_refl _) fun h => ?_, hnot _ ?_, ?_⟩
    · dsimp only [parsedTo, tell]
      rw [hs]
      trivial
    · exact absurd (hs.symm.trans h) (by simp)
    · dsimp only [parsedTo, tell]
      rw [hs]
      simp
    · rw [hm]
      dsimp only [measure, parsedTo, tell]
      rw [hs]
      dsimp only
      omega
  | some location =>
    have hle := rangeOfString_le hl
    rw [length_drop, hlast, show "]]>".toList.length = 3 by rfl] at hle
    refine ⟨trivial, placed_parsedTo ?_ fun h => (by cases h), hnot _ fun h => (by cases h), ?_⟩
    · show s.currentIndex + location + 3 ≤ s.buffer.length
      omega
    · rw [hm]
      dsimp only [measure, within, parsedTo, tell]
      omega

theorem skipPast_advances {n : ℕ} (ht : t.state = .incdata) (hb : t.buffer = s.buffer)
    (hn : 3 * (s.buffer.length - n) + 1 < s.measure) : s.Advances (t.skipPast n) := by
  cases n with
  | zero => trivial
  | succ n =>
    rcases skipPast_cases t n with hskip | ⟨j, hnj, hlt, hskip⟩
    · rw [hskip]
      show Live t.state
      rw [ht]
      trivial
    · have hm : (t.parsedTo (j + 1)).measure = 3 * (s.buffer.length - (j + 1)) + 1 := by
        unfold measure parsedTo
        rw [ht, hb]
      rw [hskip]
      refine ⟨?_, placed_parsedTo hlt fun h => absurd (ht.symm.trans h) (by simp), ?_, by omega⟩
      · dsimp only [parsedTo]
        rw [ht]
        trivial
      · rintro ⟨-, h0, -⟩
        cases h0

theorem close_advances (hb : t.buffer = s.buffer)
    (hn : 3 * (s.buffer.length - (tag.index + 1)) + 1 < s.measure) : s.Advances (t.close tag) := by
  rcases hm : t.mode with _ | _
  · rw [close_xml hm]
    cases ho : t.openTags with
    | nil => rfl
    | cons name openTags =>
      dsimp only
      split_ifs
      · exact skipPast_advances rfl hb hn
      · rfl
  · rw [close_sgml hm]
    exact skipPast_advances rfl hb hn

theorem tagEnd_advances {openTag : Bool} (ht : openTag = true → t.state = .incdata)
    (hb : t.buffer = s.buffer) (hm : 3 * (s.buffer.length - tag.index) + 1 < s.measure) :
    s.Advances (t.tagEnd openTag tag) := by
  unfold tagEnd
  cases t.buffer[tag.index]? with
  | none => trivial
  | some c =>
    dsimp only
    split_ifs with hclose
    · exact close_advances hb (by omega)
    · rw [not_or, Bool.not_eq_false] at hclose
      exact skipPast_advances (ht hclose.2) hb hm

theorem tag_advances {openTag : Bool} (hlt : tag.index < s.buffer.length)
    (hm : 3 * (s.buffer.length - tag.index) + 1 < s.measure) : s.Advances (s.tag openTag tag) := by
  rcases hcomment : ISCOMMENT tag.name with _ | _
  · rcases openTag with _ | _
    · rw [tag_closing hcomment]
      exact tagEnd_advances (fun h => by cases h) rfl hm
    · by_cases hCDATA : tag.name = CDATA
      · rw [tag_CDATA hCDATA]
        have hd : ((s.within .instupidcdata).parsedTo tag.index).measure
            = 3 * (s.buffer.length - tag.index) := rfl
        exact ⟨trivial, placed_parsedTo (Nat.le_of_lt hlt) fun _ => hlt, fun h => (by cases h.1),
          by omega⟩
      · rw [tag_element hcomment hCDATA]
        exact tagEnd_advances (fun _ => openElement_state s tag) (openElement_buffer s tag) hm
  · rw [tag_comment hcomment]
    exact tagEnd_advances (fun _ => rfl) rfl hm

theorem intag_advances (hs : s.state = .intag) (hlt : s.currentIndex < s.buffer.length) :
    s.Advances s.intag := by
  have hl : Live s.state := by rw [hs]; trivial
  have hm : s.measure = 3 * (s.buffer.length - s.currentIndex) +
      if s.buffer[s.currentIndex]? = some '<' then 0 else 2 := by
    unfold measure
    rw [hs]
  rw [intag_eq hlt]
  cases hc : s.buffer[s.afterLess]? with
  | none => exact hl
  | some c =>
    dsimp only
    cases htag : parseTagFrom s.buffer s.mode s.tagStart with
    | error failure =>
      rcases parseTagFrom_error htag with rfl | rfl | ⟨rfl, -⟩
      · exact hl
      · rfl
      · trivial
    | ok tag =>
      obtain ⟨hle, hlen, -⟩ := parseTagFrom_ok htag
      have hstart : s.afterLess ≤ s.tagStart := by
        unfold tagStart
        split_ifs <;> omega
      unfold afterLess at hstart
      refine tag_advances hlen ?_
      rw [hm]
      split_ifs at hstart ⊢ <;> omega

theorem turn_advances (hl : Live s.state) (hp : s.Placed)
    (hlt : s.currentIndex < s.buffer.length) : s.Advances s.turn := by
  unfold turn
  rcases hs : s.state with _ | _ | _ | _ | _ | _ | _
  · exact notag_advances hs
  · exact intag_advances hs hlt
  · rw [hs] at hl
    exact hl.elim
  · exact incdata_advances hs hp
  · exact instupidcdata_advances hs hp hlt
  · rw [hs] at hl
    exact hl.elim
  · rw [hs] at hl
    exact hl.elim

end Measure

end Parse

def Turn.last : Turn → Parse
  | .goOn s | .done _ s | .raised s => s

namespace Parse

variable {told : List Event} {s t u w : Parse} {x y z : Turn} {fuel : ℕ}

def Ends (s : Parse) (x : Turn) : Prop := ∃ fuel, run fuel s = some x

theorem run_mono : ∀ {fuel : ℕ} {s : Parse}, run fuel s = some x →
    ∀ extra, run (fuel + extra) s = some x
  | fuel + 1, s, h, extra => by
    rw [show fuel + 1 + extra = fuel + extra + 1 by omega]
    unfold run at h ⊢
    split_ifs at h ⊢ with hlt
    · cases hturn : s.turn with
      | goOn t =>
        rw [hturn] at h
        exact run_mono h extra
      | _ =>
        rw [hturn] at h
        exact h
    · exact h

theorem Ends.unique (h : s.Ends x) (h' : s.Ends y) : x = y := by
  obtain ⟨fuel, h⟩ := h
  obtain ⟨fuel', h'⟩ := h'
  have hx := run_mono h fuel'
  rw [Nat.add_comm, run_mono h' fuel] at hx
  exact (some.inj hx).symm

theorem ends_goOn (hlt : s.currentIndex < s.buffer.length) (h : s.turn = .goOn t)
    (ht : t.Ends x) : s.Ends x := by
  obtain ⟨fuel, ht⟩ := ht
  exact ⟨fuel + 1, by rw [run, if_pos hlt, h]; exact ht⟩

theorem ends_turn (hlt : s.currentIndex < s.buffer.length) (h : s.turn = x)
    (hx : ∀ t, x ≠ .goOn t) : s.Ends x := by
  refine ⟨1, ?_⟩
  rw [run, if_pos hlt, h]
  cases x with
  | goOn t => exact absurd rfl (hx t)
  | _ => rfl

theorem ends_clear (h : ¬ s.currentIndex < s.buffer.length) : s.Ends s.clear := ⟨1, if_neg h⟩

theorem run_ends : ∀ {fuel : ℕ} {s : Parse}, Live s.state → s.Placed → s.measure < fuel →
    ∃ x, run fuel s = some x
  | fuel + 1, s, hl, hp, hfuel => by
    unfold run
    split_ifs with hlt
    · have hturn := turn_advances hl hp hlt
      cases ht : s.turn with
      | goOn t =>
        rw [ht] at hturn
        obtain ⟨hl, hp, -, hm⟩ := hturn
        exact run_ends hl hp (by omega)
      | _ => exact ⟨_, rfl⟩
    · exact ⟨_, rfl⟩

structure Alike (told : List Event) (w u : Parse) : Prop where
  events : concatenated w.events = concatenated (told ++ u.events)
  state : w.state = u.state
  openTags : w.openTags = u.openTags

/-- Whatever `u` comes to, `w` comes to after `told`. -/
def Follows (told : List Event) (w u : Parse) : Prop :=
  ∀ y, u.Ends y → ∃ z, w.Ends z ∧ Alike told z.last y.last

theorem after_alike (pre : NSString) (x : Turn) : Alike [] (x.after pre).last x.last := by
  cases x with
  | goOn s => exact ⟨rfl, rfl, rfl⟩
  | done result s => cases result <;> exact ⟨rfl, rfl, rfl⟩
  | raised s => exact ⟨rfl, rfl, rfl⟩

theorem after_follows (pre : NSString) : ∀ {fuel : ℕ} {u : Parse}, Live u.state → u.Placed →
    ¬ u.AtEnd → run fuel u = some y → ∃ z, (u.after pre).Ends z ∧ Alike [] z.last y.last
  | fuel + 1, u, hl, hp, hend, h => by
    have hlt : (u.after pre).currentIndex < (u.after pre).buffer.length
        ↔ u.currentIndex < u.buffer.length := by
      show pre.length + u.currentIndex < (pre ++ u.buffer).length ↔ _
      rw [length_append]
      omega
    unfold run at h
    split_ifs at h with hin
    · have hturn : (u.after pre).turn = u.turn.after pre :=
        turn_after pre fun hs h => hend ⟨hs, h⟩
      have hadvances := turn_advances hl hp hin
      cases ht : u.turn with
      | goOn t =>
        rw [ht] at h hturn hadvances
        obtain ⟨hl, hp, hend, -⟩ := hadvances
        obtain ⟨z, hz, halike⟩ := after_follows pre hl hp hend h
        exact ⟨z, ends_goOn (hlt.2 hin) hturn hz, halike⟩
      | done result t =>
        rw [ht] at h hturn
        obtain rfl := some.inj h
        refine ⟨_, ends_turn (hlt.2 hin) hturn fun t h => ?_, after_alike pre _⟩
        cases result <;> cases h
      | raised t =>
        rw [ht] at h hturn
        obtain rfl := some.inj h
        exact ⟨_, ends_turn (hlt.2 hin) hturn fun t h => (by cases h), after_alike pre _⟩
    · obtain rfl := some.inj h
      exact ⟨_, ends_clear (mt hlt.1 hin), rfl, rfl, rfl⟩

/-- All is the same but for the indices, and `told` has been told before. -/
structure Like (told : List Event) (w u : Parse) : Prop where
  buffer : w.buffer = u.buffer
  openTags : w.openTags = u.openTags
  state : w.state = u.state
  mode : w.mode = u.mode
  events : ∀ tail, concatenated (w.events ++ tail) = concatenated (told ++ u.events ++ tail)

/-- The indices differ in what does not matter: the parser finds the same `'<'`, or is in the same
tag. -/
def InPlace (w u : Parse) : Prop :=
  match u.state with
  | .notag => parseFrom w.buffer w.currentIndex '<' = parseFrom u.buffer u.currentIndex '<'
  | .intag => w.afterLess = u.afterLess ∧ w.currentIndex < w.buffer.length
      ∧ u.currentIndex < u.buffer.length
  | _ => w.currentIndex = u.currentIndex ∧ w.lastSuccessfullyParsed = u.lastSuccessfullyParsed

theorem InPlace.of_notag (hs : u.state = .notag)
    (h : parseFrom w.buffer w.currentIndex '<' = parseFrom u.buffer u.currentIndex '<') :
    InPlace w u := by
  unfold InPlace
  rwa [hs]

theorem InPlace.of_intag (hs : u.state = .intag) (h : w.afterLess = u.afterLess)
    (hw : w.currentIndex < w.buffer.length) (hu : u.currentIndex < u.buffer.length) :
    InPlace w u := by
  unfold InPlace
  rw [hs]
  exact ⟨h, hw, hu⟩

theorem InPlace.of_eq (hn : u.state ≠ .notag) (hi : u.state ≠ .intag)
    (h : w.currentIndex = u.currentIndex)
    (hlast : w.lastSuccessfullyParsed = u.lastSuccessfullyParsed) : InPlace w u := by
  unfold InPlace
  split
  · contradiction
  · contradiction
  · exact ⟨h, hlast⟩

def TurnsLike (told : List Event) : Turn → Turn → Prop
  | .goOn w, .goOn u => Like told w u ∧ InPlace w u
  | .goOn _, _ | _, .goOn _ => False
  | x, y => Alike told x.last y.last

theorem Like.alike (h : Like told w u) : Alike told w u := by
  refine ⟨?_, h.state, h.openTags⟩
  have := h.events []
  simpa using this

theorem Like.of_eq (h : Like told w u) {w' u' : Parse} (hb : w'.buffer = u'.buffer)
    (ho : w'.openTags = u'.openTags) (hs : w'.state = u'.state) (hm : w'.mode = u'.mode)
    (hw : w'.events = w.events) (hu : u'.events = u.events) : Like told w' u' :=
  ⟨hb, ho, hs, hm, by rw [hw, hu]; exact h.events⟩

theorem Like.tell (h : Like told w u) (e : Event) : Like told (w.tell e) (u.tell e) := by
  refine ⟨h.buffer, h.openTags, h.state, h.mode, fun tail => ?_⟩
  show concatenated (w.events ++ [e] ++ tail) = concatenated (told ++ (u.events ++ [e]) ++ tail)
  have := h.events ([e] ++ tail)
  simpa using this

theorem Like.parsedTo (h : Like told w u) (hs : u.state ≠ .intag) (i : ℕ) :
    TurnsLike told (.goOn (w.parsedTo i)) (.goOn (u.parsedTo i)) := by
  refine ⟨h.of_eq h.buffer h.openTags h.state h.mode rfl rfl, ?_⟩
  unfold InPlace
  dsimp only [Parse.parsedTo]
  rw [h.buffer]
  cases hu : u.state with
  | notag => rfl
  | intag => exact absurd hu hs
  | _ => exact ⟨rfl, rfl⟩

theorem Like.endParsing (h : Like told w u) : TurnsLike told w.endParsing u.endParsing :=
  ⟨h.alike.events, h.state, h.openTags⟩

theorem Like.giveUp (h : Like told w u) : TurnsLike told w.giveUp u.giveUp :=
  ⟨h.alike.events, rfl, h.openTags⟩

theorem Like.skipPast (h : Like told w u) (hs : u.state = .incdata) (n : ℕ) :
    TurnsLike told (w.skipPast n) (u.skipPast n) := by
  cases n with
  | zero => exact h.alike
  | succ n =>
    unfold Parse.skipPast
    dsimp only
    rw [h.buffer]
    cases parseFrom u.buffer n '>' with
    | none => exact h.endParsing
    | some j => exact h.parsedTo (by rw [hs]; simp) (j + 1)

theorem Like.close (h : Like told w u) (tag : Tag) :
    TurnsLike told (w.close tag) (u.close tag) := by
  rcases hm : u.mode with _ | _
  · rw [close_xml hm, close_xml (h.mode.trans hm), h.openTags]
    cases u.openTags with
    | nil => exact h.giveUp
    | cons name openTags =>
      dsimp only
      split_ifs
      · refine Like.skipPast ?_ rfl _
        have h' : Like told { w with openTags } { u with openTags } :=
          h.of_eq h.buffer rfl h.state h.mode rfl rfl
        exact (h'.tell _).of_eq h.buffer rfl rfl h.mode rfl rfl
      · exact h.giveUp
  · rw [close_sgml hm, close_sgml (h.mode.trans hm)]
    refine Like.skipPast ?_ rfl _
    exact (h.tell _).of_eq h.buffer h.openTags rfl h.mode rfl rfl

theorem Like.openElement (h : Like told w u) (tag : Tag) :
    Like told (w.openElement tag) (u.openElement tag) := by
  have hs : ∀ s : Parse, (s.openElement tag).events
      = s.events ++ [.startElement tag.name tag.attributes] := by
    rintro ⟨buffer, openTags, state, mode⟩
    cases mode <;> rfl
  have hm : ∀ s : Parse, (s.openElement tag).mode = s.mode := by
    rintro ⟨buffer, openTags, state, mode⟩
    cases mode <;> rfl
  refine (h.tell (.startElement tag.name tag.attributes)).of_eq ?_ ?_ ?_ ?_ (hs w) (hs u)
  · rw [openElement_buffer, openElement_buffer]
    exact h.buffer
  · rcases w with ⟨buffer, openTags, state, mode⟩
    rcases u with ⟨buffer', openTags', state', mode'⟩
    obtain rfl : mode = mode' := h.mode
    obtain rfl : openTags = openTags' := h.openTags
    cases mode <;> rfl
  · rw [openElement_state, openElement_state]
  · rw [hm, hm, h.mode]

theorem Like.tagEnd (h : Like told w u) {openTag : Bool} (hs : openTag = true → u.state = .incdata)
    (tag : Tag) : TurnsLike told (w.tagEnd openTag tag) (u.tagEnd openTag tag) := by
  unfold Parse.tagEnd
  rw [h.buffer]
  cases u.buffer[tag.index]? with
  | none => exact h.alike
  | some c =>
    dsimp only
    split_ifs with hclose
    · exact h.close tag
    · rw [not_or, Bool.not_eq_false] at hclose
      exact h.skipPast (hs hclose.2) tag.index

theorem Like.tag (h : Like told w u) (openTag : Bool) (tag : Tag) :
    TurnsLike told (w.tag openTag tag) (u.tag openTag tag) := by
  rcases hcomment : ISCOMMENT tag.name with _ | _
  · rcases openTag with _ | _
    · rw [tag_closing hcomment, tag_closing hcomment]
      exact h.tagEnd (fun hopen => by cases hopen) tag
    · by_cases hCDATA : tag.name = CDATA
      · rw [tag_CDATA hCDATA, tag_CDATA hCDATA]
        have h' : Like told (w.within .instupidcdata) (u.within .instupidcdata) :=
          h.of_eq h.buffer h.openTags rfl h.mode rfl rfl
        exact h'.parsedTo (by simp [within]) tag.index
      · rw [tag_element hcomment hCDATA, tag_element hcomment hCDATA]
        exact (h.openElement tag).tagEnd (fun _ => openElement_state u tag) tag
  · rw [tag_comment hcomment, tag_comment hcomment]
    have h' : Like told (w.within .incdata) (u.within .incdata) :=
      h.of_eq h.buffer h.openTags rfl h.mode rfl rfl
    exact h'.tagEnd (fun _ => rfl) tag

theorem parseFrom_ignoreWhiteSpace {b : NSString} {i : ℕ} :
    match ignoreWhiteSpaceFrom b i with
    | none => parseFrom b i '<' = none
    | some j => parseFrom b j '<' = parseFrom b i '<' := by
  cases hi : ignoreWhiteSpaceFrom b i with
  | none =>
    refine scanWhile_eq_none.2 fun c hc => ?_
    have hspace := scanWhile_eq_none.1 hi c hc
    rw [decide_eq_true_eq]
    rintro rfl
    cases hspace
  | some j =>
    obtain ⟨pre, c, rest, hs, hpre, -, rfl⟩ := scanWhile_eq_some hi
    have hless : ∀ x ∈ pre, decide (x ≠ '<') = true := by
      intro x hx
      rw [decide_eq_true_eq]
      rintro rfl
      cases hpre '<' hx
    show scanWhile _ (b.drop (i + pre.length)) _ = scanWhile _ (b.drop i) i
    rw [hs, scanWhile_append hless, ← drop_drop, hs, drop_left]

theorem notag_ends (hs : s.state = .notag) (h : parseFrom s.buffer s.currentIndex '<' = none) :
    ∃ b, s.Ends (.done true { s with buffer := b }) := by
  by_cases hlt : s.currentIndex < s.buffer.length
  · have hturn : s.turn = s.notag := by
      unfold turn
      rw [hs]
    have hspace := @parseFrom_ignoreWhiteSpace s.buffer s.currentIndex
    unfold notag at hturn
    cases hi : ignoreWhiteSpaceFrom s.buffer s.currentIndex with
    | none =>
      rw [hi] at hturn
      exact ⟨_, ends_turn hlt hturn fun t h => by cases h⟩
    | some i =>
      rw [hi] at hturn hspace
      dsimp only at hturn hspace
      rw [hspace, h] at hturn
      exact ⟨_, ends_turn hlt hturn fun t h => by cases h⟩
  · exact ⟨_, ends_clear hlt⟩

def enter (s : Parse) (index : ℕ) : Turn :=
  match s.buffer[index + 1]? with
  | none => (s.within .intag).endParsing
  | some c =>
    if c = '!' ∨ c = '?' then
      match parseFrom s.buffer (index + 1) '>' with
      | none => (s.within .intag).endParsing
      | some index => .goOn
        { s with state := .notag, lastSuccessfullyParsed := index, currentIndex := index + 1 }
    else .goOn ((s.within .intag).parsedTo (index + 1))

theorem notag_enter {index : ℕ} (h : parseFrom s.buffer s.currentIndex '<' = some index) :
    s.notag = s.enter index := by
  have hspace := @parseFrom_ignoreWhiteSpace s.buffer s.currentIndex
  unfold notag
  cases hi : ignoreWhiteSpaceFrom s.buffer s.currentIndex with
  | none =>
    rw [hi] at hspace
    cases hspace.symm.trans h
  | some i =>
    rw [hi] at hspace
    dsimp only at hspace ⊢
    rw [hspace, h]
    rfl

theorem Like.enter (h : Like told w u) (index : ℕ) :
    TurnsLike told (w.enter index) (u.enter index) := by
  have h' : Like told (w.within .intag) (u.within .intag) :=
    h.of_eq h.buffer h.openTags rfl h.mode rfl rfl
  unfold Parse.enter
  rw [h.buffer]
  cases hc : u.buffer[index + 1]? with
  | none => exact h'.endParsing
  | some c =>
    dsimp only
    split_ifs
    · cases parseFrom u.buffer (index + 1) '>' with
      | none => exact h'.endParsing
      | some j =>
        exact ⟨h.of_eq rfl h.openTags rfl h.mode rfl rfl, rfl⟩
    · have hlt := lt_length_of_getElem? hc
      refine ⟨h.of_eq h.buffer h.openTags rfl h.mode rfl rfl, ?_, ?_, hlt⟩
      · unfold afterLess Parse.parsedTo within
        dsimp only
        rw [h.buffer]
      · show index + 1 < w.buffer.length
        rw [h.buffer]
        exact hlt

theorem Like.intag (h : Like told w u) (hs : u.state = .intag) (hplace : InPlace w u) :
    TurnsLike told w.intag u.intag := by
  unfold InPlace at hplace
  rw [hs] at hplace
  obtain ⟨hless, hw, hu⟩ := hplace
  have hstart : w.tagStart = u.tagStart := by
    unfold tagStart
    rw [hless, h.buffer]
  rw [intag_eq hw, intag_eq hu, hless, hstart, h.buffer, h.mode]
  cases u.buffer[u.afterLess]? with
  | none => exact ⟨h.alike.events, h.state, h.openTags⟩
  | some c =>
    dsimp only
    cases parseTagFrom u.buffer u.mode u.tagStart with
    | error failure =>
      cases failure with
      | TEMPORARYFAILURE => exact h.endParsing
      | FAILURE => exact h.giveUp
      | raised => exact h.alike
      | unfinished => exact h.alike
    | ok tag => exact h.tag _ tag

theorem Like.incdata (h : Like told w u) (hc : w.currentIndex = u.currentIndex)
    (hl : w.lastSuccessfullyParsed = u.lastSuccessfullyParsed) :
    TurnsLike told w.incdata u.incdata := by
  unfold Parse.incdata
  rw [h.buffer, hc]
  cases hi : parseFrom u.buffer u.currentIndex '<' with
  | none => exact h.endParsing
  | some i =>
    have hlt := parseFrom_lt hi
    dsimp only
    rw [hl]
    split_ifs
    · exact ⟨h.of_eq rfl h.openTags rfl h.mode rfl rfl, rfl, hlt, hlt⟩
    · exact ⟨h.alike.events, rfl, h.openTags⟩
    · exact ⟨(h.tell (.characters (currentString u.buffer u.lastSuccessfullyParsed i))).of_eq
        rfl h.openTags rfl h.mode rfl rfl, rfl, hlt, hlt⟩

theorem Like.instupidcdata (h : Like told w u) (hs : u.state = .instupidcdata)
    (hc : w.currentIndex = u.currentIndex)
    (hl : w.lastSuccessfullyParsed = u.lastSuccessfullyParsed) :
    TurnsLike told w.instupidcdata u.instupidcdata := by
  unfold Parse.instupidcdata
  rw [h.buffer, hc, hl]
  dsimp only
  cases rangeOfString "]]>".toList (u.buffer.drop u.lastSuccessfullyParsed) with
  | none => exact (h.tell _).parsedTo (show u.state ≠ .intag by rw [hs]; simp) u.buffer.length
  | some location =>
    refine Like.parsedTo ?_ (by simp [within]) _
    exact (h.tell _).of_eq h.buffer h.openTags rfl h.mode rfl rfl

theorem Like.turn (h : Like told w u) (hl : Live u.state) (hplace : InPlace w u)
    (hfound : u.state = .notag → parseFrom u.buffer u.currentIndex '<' ≠ none) :
    TurnsLike told w.turn u.turn := by
  unfold Parse.turn
  rw [h.state]
  have hplace' := hplace
  unfold InPlace at hplace'
  cases hs : u.state with
  | notag =>
    rw [hs] at hplace'
    obtain ⟨index, hindex⟩ := ne_none_iff_exists'.1 (hfound hs)
    dsimp only
    rw [notag_enter hindex, notag_enter (hplace'.trans hindex)]
    exact h.enter index
  | intag => exact h.intag hs hplace
  | incdata =>
    rw [hs] at hplace'
    exact h.incdata hplace'.1 hplace'.2
  | instupidcdata =>
    rw [hs] at hplace'
    exact h.instupidcdata hs hplace'.1 hplace'.2
  | _ =>
    rw [hs] at hl
    exact hl.elim

theorem like_follows : ∀ {fuel : ℕ} {w u : Parse}, Like told w u → InPlace w u → Live u.state →
    u.Placed → run fuel u = some y → ∃ z, w.Ends z ∧ Alike told z.last y.last
  | fuel + 1, w, u, h, hplace, hl, hp, hy => by
    by_cases hfound : u.state = .notag ∧ parseFrom u.buffer u.currentIndex '<' = none
    · obtain ⟨hs, hnone⟩ := hfound
      unfold InPlace at hplace
      rw [hs] at hplace
      obtain ⟨b, hw⟩ := notag_ends (h.state.trans hs) (hplace.trans hnone)
      obtain ⟨b', hu⟩ := notag_ends hs hnone
      obtain rfl := Ends.unique ⟨fuel + 1, hy⟩ hu
      exact ⟨_, hw, h.alike.events, h.state, h.openTags⟩
    rw [not_and] at hfound
    have hturn := h.turn hl hplace hfound
    have hlt : w.currentIndex < w.buffer.length ↔ u.currentIndex < u.buffer.length := by
      unfold InPlace at hplace
      cases hs : u.state with
      | notag =>
        rw [hs] at hplace
        obtain ⟨index, hindex⟩ := ne_none_iff_exists'.1 (hfound hs)
        have hw := parseFrom_spec (hplace.trans hindex)
        have hu := parseFrom_spec hindex
        have hwlt := lt_length_of_getElem? hw.2
        have hult := lt_length_of_getElem? hu.2
        exact iff_of_true (by omega) (by omega)
      | intag =>
        rw [hs] at hplace
        exact iff_of_true hplace.2.1 hplace.2.2
      | _ =>
        rw [hs] at hplace
        rw [hplace.1, h.buffer]
    unfold run at hy
    split_ifs at hy with hin
    · have hadvances := turn_advances hl hp hin
      cases hu : u.turn with
      | goOn u' =>
        rw [hu] at hy hturn hadvances
        cases hw : w.turn with
        | goOn w' =>
          rw [hw] at hturn
          obtain ⟨z, hz, halike⟩ := like_follows hturn.1 hturn.2 hadvances.1 hadvances.2.1 hy
          exact ⟨z, ends_goOn (hlt.2 hin) hw hz, halike⟩
        | _ =>
          rw [hw] at hturn
          exact hturn.elim
      | _ =>
        rw [hu] at hy hturn
        obtain rfl := some.inj hy
        cases hw : w.turn with
        | goOn w' =>
          rw [hw] at hturn
          exact hturn.elim
        | _ =>
          rw [hw] at hturn
          exact ⟨_, ends_turn (hlt.2 hin) hw fun t h => (by cases h), hturn⟩
    · obtain rfl := some.inj hy
      exact ⟨_, ends_clear (mt hlt.1 hin), h.alike.events, h.state, h.openTags⟩

end Parse

end Etoile.EtoileXML
