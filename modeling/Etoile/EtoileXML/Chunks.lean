import Mathlib
import Etoile.EtoileXML.Resuming

/-!
# A text in chunks

What is left in the buffer at the end of a call is parsed again with the next chunk, and comes to
what the whole text comes to, unless the chunk ends where the parser does not expect it: after the
`'<'` of something that it should skip, or before the end of a CDATA section that has begun to end.
-/

namespace Etoile.EtoileXML

open Option

namespace Parse

/-- Where the parser looks for a tag, what it finds is no declaration that goes on, and if a tag
begins with the last character then nothing else is kept. -/
def NotagResumes (rest : NSString) (s : Parse) : Prop :=
  match parseFrom s.buffer s.currentIndex '<' with
  | none => True
  | some index =>
    match s.buffer[index + 1]? with
    | none => s.buffer.drop s.lastSuccessfullyParsed = ['<']
        ∧ ∀ c ∈ rest.head?, c ≠ '!' ∧ c ≠ '?' ∧ c ≠ '<'
    | some c => c = '!' ∨ c = '?' → parseFrom s.buffer (index + 1) '>' ≠ none

/-- In a tag, the parser does not raise, it does not drop the `'<'` of another one or of one
without a name, and an end tag that is told of has its `'>'`. -/
def IntagResumes (rest : NSString) (s : Parse) : Prop :=
  s.InRange ∧ (s.buffer.drop s.currentIndex = ['<'] → ∀ c ∈ rest.head?, c ≠ '<' ∧ c ≠ '>')
    ∧ (s.buffer[s.afterLess]? = some '/' →
      match parseTagFrom s.buffer s.mode s.tagStart with
      | .ok tag => s.mode = .PARSER_MODE_SGML ∨ s.openTags.head? = some tag.name →
          '>' ∈ s.buffer.drop tag.index
      | .error _ => True)

/-- In a CDATA section, its end does not begin in this text and end in the next. -/
def CDATAResumes (rest : NSString) (s : Parse) : Prop :=
  let cdata := s.buffer.drop s.lastSuccessfullyParsed
  match rangeOfString "]]>".toList cdata, rangeOfString "]]>".toList (cdata ++ rest) with
  | none, some location => cdata.length ≤ location
  | _, _ => True

def Resumes (rest : NSString) (s : Parse) : Prop :=
  match s.state with
  | .notag => s.NotagResumes rest
  | .intag => s.IntagResumes rest
  | .instupidcdata => s.CDATAResumes rest
  | .inattribute | .incdata | .incomment | .broken => True

instance (rest : NSString) (s : Parse) : Decidable (s.NotagResumes rest) := by
  unfold NotagResumes
  split
  · exact isTrue trivial
  · split
    · infer_instance
    · infer_instance

instance (rest : NSString) (s : Parse) : Decidable (s.IntagResumes rest) := by
  unfold IntagResumes
  cases parseTagFrom s.buffer s.mode s.tagStart with
  | error failure =>
    exact inferInstanceAs (Decidable (s.InRange ∧ (_ → _) ∧ (_ → True)))
  | ok tag => exact inferInstanceAs (Decidable (s.InRange ∧ (_ → _) ∧ (_ → _ → _)))

instance (rest : NSString) (s : Parse) : Decidable (s.CDATAResumes rest) := by
  unfold CDATAResumes
  dsimp only
  cases rangeOfString "]]>".toList (s.buffer.drop s.lastSuccessfullyParsed) with
  | some location => exact isTrue trivial
  | none =>
    cases rangeOfString "]]>".toList (s.buffer.drop s.lastSuccessfullyParsed ++ rest) with
    | none => exact isTrue trivial
    | some location => exact inferInstanceAs (Decidable (_ ≤ _))

instance (rest : NSString) (s : Parse) : Decidable (s.Resumes rest) := by
  unfold Resumes
  cases s.state with
  | notag => exact inferInstanceAs (Decidable (s.NotagResumes rest))
  | intag => exact inferInstanceAs (Decidable (s.IntagResumes rest))
  | instupidcdata => exact inferInstanceAs (Decidable (s.CDATAResumes rest))
  | _ => exact isTrue trivial

/-- The parser as `ENDPARSINGIF` leaves it. -/
def kept (s : Parse) : Parse := { s with buffer := s.buffer.drop s.lastSuccessfullyParsed }

def next (s : Parse) (data : NSString) : Parse := (ETXMLParser.finish s).start data

variable {rest : NSString} {s t u : Parse} {x y : Turn} {tag : Tag}

theorem parseFrom_skip {b : NSString} {i j : ℕ} {c : Char} (hle : i ≤ j)
    (h : c ∉ currentString b i j) (hlen : j ≤ b.length) : parseFrom b i c = parseFrom b j c := by
  unfold currentString at h
  have hdrop : b.drop i = (b.drop i).take (j - i) ++ b.drop j := by
    conv_lhs => rw [← List.take_append_drop (j - i) (b.drop i)]
    rw [List.drop_drop, Nat.add_sub_cancel' hle]
  unfold parseFrom
  rw [hdrop, scanWhile_append, List.length_take, List.length_drop,
    show i + min (j - i) (b.length - i) = j by omega]
  · intro x hx
    rw [decide_eq_true_eq]
    rintro rfl
    exact h hx

theorem Alike.after {told : List Event} {w : Parse} (h : Alike told w t) (h' : Alike [] t u) :
    Alike told w u :=
  ⟨h.events.trans (concatenated_congr h'.events told), h.state.trans h'.state,
    h.openTags.trans h'.openTags⟩

theorem Placed.after (h : s.Placed) (pre : NSString) : (s.after pre).Placed where
  le := by
    show pre.length + s.currentIndex ≤ (pre ++ s.buffer).length
    rw [List.length_append]
    exact Nat.add_le_add_left h.le _
  last hs := congrArg (pre.length + ·) (h.last hs)
  skipped hs := by
    obtain ⟨hle, hless⟩ := h.skipped hs
    refine ⟨Nat.add_le_add_left hle _, ?_⟩
    show '<' ∉ currentString (pre ++ s.buffer) (pre.length + _) (pre.length + _)
    rw [currentString_after]
    exact hless
  more hs := by
    show pre.length + s.currentIndex < (pre ++ s.buffer).length
    rw [List.length_append]
    exact Nat.add_lt_add_left (h.more hs) _

theorem start_placed (p : ETXMLParser) {data : NSString} (hdata : data ≠ []) :
    (p.start data).Placed where
  le := Nat.zero_le _
  last _ := rfl
  skipped _ := by
    refine ⟨Nat.le_refl _, ?_⟩
    unfold currentString
    simp [ETXMLParser.start]
  more _ := by
    have hpos := List.length_pos_of_ne_nil hdata
    show 0 < (p.buffer ++ data).length
    rw [List.length_append]
    omega

theorem shift_follows {told : List Event} {w : Parse} {pre : NSString} (hl : Live u.state)
    (hp : u.Placed) (hend : ¬ u.AtEnd) (hlike : Like told w (u.after pre))
    (hplace : InPlace w (u.after pre)) : Follows told w u := by
  rintro y ⟨fuel, hy⟩
  obtain ⟨v, ⟨fuel', hv⟩, hvy⟩ := after_follows pre hl hp hend hy
  obtain ⟨z, hz, hzv⟩ := like_follows hlike hplace hl (hp.after pre) hv
  exact ⟨z, hz, hzv.after hvy⟩

theorem next_follows {told : List Event} {w : Parse} {pre : NSString} (hl : Live t.state)
    (hrest : rest ≠ []) (hend : ¬ (t.next rest).AtEnd)
    (hlike : Like told w ((t.next rest).after pre)) (hplace : InPlace w ((t.next rest).after pre)) :
    Follows told w (t.next rest) :=
  @shift_follows (t.next rest) told w pre hl (start_placed _ hrest) hend hlike hplace

theorem like_next {pre : NSString} (hb : s.buffer = pre ++ t.buffer)
    (ho : s.openTags = t.openTags) (hs : s.state = t.state) (hm : s.mode = t.mode)
    (he : s.events = t.events) :
    Like t.events (s.followedBy rest) ((t.next rest).after pre) := by
  refine ⟨?_, ho, hs, hm, fun tail => ?_⟩
  · show s.buffer ++ rest = pre ++ (t.buffer ++ rest)
    rw [hb, List.append_assoc]
  · show concatenated (s.events ++ tail) = concatenated (t.events ++ [] ++ tail)
    rw [he, List.append_nil]

theorem take_last_append (s : Parse) : s.buffer = s.buffer.take s.lastSuccessfullyParsed
    ++ s.buffer.drop s.lastSuccessfullyParsed := (List.take_append_drop _ _).symm

section Exits

theorem scanName_CDATA {start : NSString} {k : ℕ} : ∀ {s : NSString} {n : ℕ},
    scanName start s n = (k, true) → start.take k = CDATA
  | [], _, h => by cases (Prod.mk.inj h).2
  | [_], _, h => by cases (Prod.mk.inj h).2
  | c :: d :: s, n, h => by
    rw [scanName] at h
    split_ifs at h with hc h8
    · cases (Prod.mk.inj h).2
    · obtain ⟨rfl, -⟩ := Prod.mk.inj h
      rw [h8.1]
      exact h8.2
    · exact scanName_CDATA h

theorem Placed.last_le (h : s.Placed) : s.lastSuccessfullyParsed ≤ s.buffer.length := by
  by_cases hs : s.state = .notag
  · exact Nat.le_trans (h.skipped hs).1 h.le
  · rw [h.last hs]
    exact h.le

/-- Where the next call goes on, if everything since the parser last succeeded is kept. -/
theorem length_kept (h : s.Placed) :
    (s.buffer.take s.lastSuccessfullyParsed).length = s.lastSuccessfullyParsed := by
  rw [List.length_take]
  exact Nat.min_eq_left h.last_le

theorem clear_follows (hrest : rest ≠ []) (hp : s.Placed) (hl : Live s.state)
    (hlt : ¬ s.currentIndex < s.buffer.length) :
    Follows s.events (s.followedBy rest) ({ s with buffer := [] }.next rest) := by
  have hlen : s.currentIndex = s.buffer.length := Nat.le_antisymm hp.le (Nat.le_of_not_lt hlt)
  have hs : s.state ≠ .intag := fun hs => hlt (hp.more hs)
  refine @next_follows rest { s with buffer := [] } s.events (s.followedBy rest) s.buffer hl hrest
    (fun h => hs h.1) ?_ ?_
  · exact @like_next rest s { s with buffer := [] } s.buffer (by simp) rfl rfl rfl rfl
  · by_cases hn : s.state = .notag
    · refine .of_notag hn ?_
      show parseFrom (s.buffer ++ rest) s.currentIndex '<'
        = parseFrom (s.buffer ++ ([] ++ rest)) s.buffer.length '<'
      rw [hlen, List.nil_append]
    · exact .of_eq hn hs hlen ((hp.last hn).trans hlen)

theorem afterLess_eq {c : Char} (h : s.buffer[s.currentIndex]? = some c) :
    s.afterLess = if c = '<' then s.currentIndex + 1 else s.currentIndex := by
  unfold afterLess
  rw [h]
  simp only [some.injEq]

/-- Only the `'<'` that the text ends with is kept, and the parser goes on in its tag. -/
theorem enter_follows (hrest : rest ≠ []) (hp : s.Placed) (hs : s.state = .notag) {j : ℕ}
    (hj : parseFrom s.buffer s.currentIndex '<' = some j) (hj1 : j + 1 = s.buffer.length)
    (hlast : s.buffer.drop s.lastSuccessfullyParsed = ['<'])
    (hhead : ∀ c ∈ rest.head?, c ≠ '!' ∧ c ≠ '?' ∧ c ≠ '<') :
    Follows s.events (s.followedBy rest) ((s.within .intag).kept.next rest) := by
  have hle := (parseFrom_spec hj).1
  have hlen := congrArg List.length hlast
  rw [List.length_drop, List.length_singleton] at hlen
  have hlj : s.lastSuccessfullyParsed = j := by omega
  obtain ⟨c, rest', rfl⟩ := List.exists_cons_of_ne_nil hrest
  obtain ⟨hbang, hquestion, hless⟩ := hhead c rfl
  have hnext : (s.buffer ++ c :: rest')[j + 1]? = some c := by
    rw [hj1, List.getElem?_append_right (Nat.le_refl _), Nat.sub_self]
    rfl
  have hlt := lt_length_of_getElem? hnext
  let w := ((s.followedBy (c :: rest')).within .intag).parsedTo (j + 1)
  have hturn : (s.followedBy (c :: rest')).turn = .goOn w := by
    have hfound : parseFrom (s.followedBy (c :: rest')).buffer
        (s.followedBy (c :: rest')).currentIndex '<' = some j := parseFrom_appended hj
    unfold turn
    rw [show (s.followedBy (c :: rest')).state = .notag from hs]
    dsimp only
    rw [notag_enter hfound]
    unfold enter
    rw [show (s.followedBy (c :: rest')).buffer[j + 1]? = some c from hnext]
    exact if_neg (by simp [hbang, hquestion])
  have hfollows : Follows s.events w ((s.within .intag).kept.next (c :: rest')) := by
    let u := ((s.within .intag).kept.next (c :: rest')).after
      (s.buffer.take s.lastSuccessfullyParsed)
    have hbuffer : u.buffer = s.buffer ++ c :: rest' := by
      show _ ++ (s.buffer.drop s.lastSuccessfullyParsed ++ c :: rest') = _
      rw [← List.append_assoc, ← take_last_append]
    have hindex : u.currentIndex = j := (length_kept hp).trans hlj
    have hlike : Like s.events ((s.within .intag).followedBy (c :: rest')) u :=
      @like_next (c :: rest') (s.within .intag) (s.within .intag).kept _ s.take_last_append
        rfl rfl rfl rfl
    refine next_follows trivial hrest ?_
      (hlike.of_eq hlike.buffer hlike.openTags hlike.state hlike.mode rfl rfl) ⟨?_, hlt, ?_⟩
    · rintro ⟨-, -, hgt⟩
      change (s.buffer.drop s.lastSuccessfullyParsed ++ c :: rest')[0]? = some '>' at hgt
      rw [hlast] at hgt
      cases hgt
    · have hw : w.afterLess = j + 1 := by
        rw [@afterLess_eq w c hnext, if_neg hless]
        rfl
      have hu : u.buffer[u.currentIndex]? = some '<' := by
        rw [hbuffer, hindex]
        exact getElem?_appended (parseFrom_spec hj).2
      show w.afterLess = u.afterLess
      rw [hw, afterLess_eq hu, if_pos rfl, hindex]
    · show u.currentIndex < u.buffer.length
      rw [hindex, hbuffer]
      omega
  have hin : (s.followedBy (c :: rest')).currentIndex
      < (s.followedBy (c :: rest')).buffer.length := by
    show s.currentIndex < (s.buffer ++ c :: rest').length
    omega
  intro y hy
  obtain ⟨z, hz, halike⟩ := hfollows y hy
  exact ⟨z, ends_goOn hin hturn hz, halike⟩

theorem notag_follows (hrest : rest ≠ []) (hp : s.Placed) (hs : s.state = .notag)
    (hresumes : s.NotagResumes rest) (h : s.notag = .done true t) :
    Follows t.events (s.followedBy rest) (t.next rest) := by
  obtain ⟨hle, hless⟩ := hp.skipped hs
  cases hj : parseFrom s.buffer s.currentIndex '<' with
  | none =>
    -- what is kept begins before the index or at the end, with no tag in between
    have hkept : ∃ pre, s.buffer = pre ++ t.buffer ∧ t = { s with buffer := t.buffer }
        ∧ parseFrom (s.buffer ++ rest) s.currentIndex '<'
          = parseFrom (s.buffer ++ rest) pre.length '<' := by
      unfold notag at h
      cases hi : ignoreWhiteSpaceFrom s.buffer s.currentIndex with
      | none =>
        rw [hi] at h
        obtain rfl : { s with buffer := [] } = t := by
          cases h
          rfl
        refine ⟨s.buffer, (List.append_nil _).symm, rfl, parseFrom_skip hp.le ?_ ?_⟩
        · intro hmem
          unfold currentString at hmem
          rw [List.drop_append_of_le_length hp.le, List.take_append_of_le_length (by simp)] at hmem
          have := scanWhile_eq_none.1 hj _ (List.mem_of_mem_take hmem)
          simp at this
        · rw [List.length_append]
          omega
      | some i =>
        have hspace := @parseFrom_ignoreWhiteSpace s.buffer s.currentIndex
        rw [hi] at h hspace
        dsimp only at h hspace
        rw [hspace, hj] at h
        obtain rfl : s.kept = t := by
          cases h
          rfl
        refine ⟨_, s.take_last_append, rfl, ?_⟩
        rw [length_kept hp]
        refine (parseFrom_skip hle ?_ ?_).symm
        · rw [currentString_appended hp.le]
          exact hless
        · rw [List.length_append]
          exact Nat.le_trans hp.le (Nat.le_add_right _ _)
    obtain ⟨pre, hb, ht, hplace⟩ := hkept
    rw [ht]
    refine next_follows (by show Live s.state; rw [hs]; trivial) hrest (fun hend => ?_)
      (like_next hb rfl rfl rfl rfl) ?_
    · exact absurd (hs.symm.trans hend.1) (by simp)
    · refine .of_notag hs ?_
      show parseFrom (s.buffer ++ rest) s.currentIndex '<'
        = parseFrom (pre ++ (t.buffer ++ rest)) pre.length '<'
      rw [← List.append_assoc, ← hb]
      exact hplace
  | some j =>
    have hjlt := parseFrom_lt hj
    unfold NotagResumes at hresumes
    rw [notag_enter hj] at h
    unfold enter at h
    rw [hj] at hresumes
    dsimp only at hresumes
    cases hc : s.buffer[j + 1]? with
    | some c =>
      rw [hc] at h hresumes
      dsimp only at h hresumes
      split_ifs at h with hd
      · obtain ⟨k, hk⟩ := ne_none_iff_exists'.1 (hresumes hd)
        rw [hk] at h
        cases h
    | none =>
      rw [hc] at h hresumes
      obtain ⟨hlast, hhead⟩ := hresumes
      obtain rfl : (s.within .intag).kept = t := by
        cases h
        rfl
      have hj1 : j + 1 = s.buffer.length := by
        have := List.getElem?_eq_none_iff.1 hc
        omega
      exact enter_follows hrest hp hs hj hj1 hlast hhead

theorem incdata_follows (hrest : rest ≠ []) (hp : s.Placed) (hs : s.state = .incdata)
    (h : s.incdata = .done true t) : Follows t.events (s.followedBy rest) (t.next rest) := by
  have hlast := hp.last (by rw [hs]; simp)
  unfold incdata at h
  cases hi : parseFrom s.buffer s.currentIndex '<' with
  | some i =>
    rw [hi] at h
    dsimp only at h
    split_ifs at h
    all_goals cases h
  | none =>
    rw [hi] at h
    obtain rfl : s.kept = t := by
      cases h
      rfl
    refine next_follows (by show Live s.state; rw [hs]; trivial) hrest (fun hend => ?_)
      (like_next s.take_last_append rfl rfl rfl rfl) ?_
    · exact absurd (hs.symm.trans hend.1) (by simp)
    · have hkept := length_kept hp
      have hne : s.state ≠ .notag ∧ s.state ≠ .intag := by simp [hs]
      exact .of_eq hne.1 hne.2 (hlast.symm.trans hkept.symm) hkept.symm

/-- A tag that is found has its end in the buffer, if it is not the start of a CDATA section. -/
theorem greater_mem {b : NSString} {mode : MarkupLanguage} {index : ℕ}
    (h : parseTagFrom b mode index = .ok tag) (hname : tag.name ≠ CDATA) :
    '>' ∈ b.drop tag.index := by
  have hmem : ∀ {l : ℕ}, b[l]? = some '>' → ∀ {i}, i ≤ l → '>' ∈ b.drop i := by
    intro l hl i hle
    refine List.mem_of_getElem? (i := l - i) ?_
    rw [List.getElem?_drop, Nat.add_sub_cancel' hle, hl]
  obtain ⟨i, -, h⟩ := bind_eq_ok.1 h
  obtain ⟨j, -, h⟩ := bind_eq_ok.1 h
  obtain ⟨k, -, h⟩ := bind_eq_ok.1 h
  rcases hscan : scanName (b.drop k) (b.drop k) 0 with ⟨n, isCDATA⟩
  simp only [hscan] at h
  split_ifs at h with hCDATA hcomment
  · subst hCDATA
    cases h
    exact absurd (scanName_CDATA hscan) hname
  · obtain ⟨l, hl, h⟩ := bind_eq_ok.1 h
    cases h
    exact hmem (parseFrom_spec (orFail_eq_ok.1 hl)).2 (Nat.le_refl _)
  · obtain ⟨l, -, h⟩ := bind_eq_ok.1 h
    obtain ⟨⟨m, attributes⟩, hm, h⟩ := bind_eq_ok.1 h
    cases h
    rcases parseAttributes_end hm with hend | hend
    · exact hmem hend (Nat.le_refl _)
    · exact hmem (of_decide_eq_true hend) (Nat.le_succ _)

theorem skipPast_goes {n : ℕ} (h : '>' ∈ s.buffer.drop n) : s.skipPast (n + 1) ≠ .done true t := by
  unfold skipPast
  dsimp only
  cases hi : parseFrom s.buffer n '>' with
  | none =>
    have := scanWhile_eq_none.1 hi _ h
    simp at this
  | some i => simp

theorem close_goes (h : s.mode = .PARSER_MODE_SGML ∨ s.openTags.head? = some tag.name →
    '>' ∈ s.buffer.drop tag.index) : s.close tag ≠ .done true t := by
  rcases hm : s.mode with _ | _
  · rw [close_xml hm]
    cases ho : s.openTags with
    | nil => simp [giveUp]
    | cons name openTags =>
      dsimp only
      split_ifs with hname
      · exact skipPast_goes (h (.inr (by rw [ho, hname]; rfl)))
      · simp [giveUp]
  · rw [close_sgml hm]
    exact skipPast_goes (h (.inl hm))

variable {openTag : Bool}

theorem tagEnd_goes (hopen : openTag = true → '>' ∈ s.buffer.drop tag.index)
    (hclose : s.mode = .PARSER_MODE_SGML ∨ s.openTags.head? = some tag.name →
      '>' ∈ s.buffer.drop tag.index) : s.tagEnd openTag tag ≠ .done true t := by
  unfold tagEnd
  cases s.buffer[tag.index]? with
  | none => simp
  | some c =>
    dsimp only
    split_ifs with hc
    · exact close_goes hclose
    · rw [not_or, Bool.not_eq_false] at hc
      cases hi : tag.index with
      | zero => simp [skipPast]
      | succ n =>
        refine skipPast_goes ?_
        have hmem := hopen hc.2
        rw [hi, ← List.tail_drop] at hmem
        exact List.mem_of_mem_tail hmem

theorem tag_goes (hname : tag.name ≠ CDATA → '>' ∈ s.buffer.drop tag.index)
    (hclose : openTag = false → s.mode = .PARSER_MODE_SGML ∨ s.openTags.head? = some tag.name →
      '>' ∈ s.buffer.drop tag.index) : s.tag openTag tag ≠ .done true t := by
  rcases hcomment : ISCOMMENT tag.name with _ | _
  · rcases openTag with _ | _
    · rw [tag_closing hcomment]
      exact tagEnd_goes (fun h => by cases h) (hclose rfl)
    · by_cases hCDATA : tag.name = CDATA
      · rw [tag_CDATA hCDATA]
        simp
      · rw [tag_element hcomment hCDATA]
        have hmem : '>' ∈ (s.openElement tag).buffer.drop tag.index := by
          rw [openElement_buffer]
          exact hname hCDATA
        exact tagEnd_goes (fun _ => hmem) fun _ => hmem
  · have hCDATA : tag.name ≠ CDATA := by
      intro h
      rw [h] at hcomment
      exact absurd hcomment (by decide)
    rw [tag_comment hcomment]
    exact tagEnd_goes (fun _ => hname hCDATA) fun _ => hname hCDATA

theorem parseTagFrom_greater (h : s.buffer[s.currentIndex]? = some '>') :
    parseTagFrom s.buffer s.mode s.tagStart ≠ .error .TEMPORARYFAILURE := by
  have hlt := lt_length_of_getElem? h
  have hafter : s.afterLess = s.currentIndex := by
    rw [afterLess_eq h, if_neg (by simp)]
  have hstart : s.tagStart = s.currentIndex := by
    unfold tagStart
    rw [hafter, h, if_neg (by simp)]
  have hb : s.buffer = s.buffer.take s.currentIndex
      ++ '>' :: s.buffer.drop (s.currentIndex + 1) := by
    conv_lhs => rw [← List.take_append_drop s.currentIndex s.buffer]
    rw [List.drop_eq_getElem_cons hlt, (List.getElem?_eq_some_iff.1 h).2]
  have hlen : (s.buffer.take s.currentIndex).length = s.currentIndex := by
    rw [List.length_take]
    omega
  have htag := parseTagFrom_after (s.buffer.take s.currentIndex) s.mode
    ('>' :: s.buffer.drop (s.currentIndex + 1)) 0
  rw [← hb, hlen, parseTagFrom_end] at htag
  rw [hstart]
  intro hfails
  cases hfails.symm.trans htag

theorem intag_follows (hrest : rest ≠ []) (hp : s.Placed) (hs : s.state = .intag)
    (hresumes : s.IntagResumes rest) (h : s.intag = .done true t) :
    Follows t.events (s.followedBy rest) (t.next rest) := by
  obtain ⟨hrange, hdropped, hclosed⟩ := hresumes
  have hlt := hp.more hs
  have hlast := hp.last (by rw [hs]; simp)
  have hl : Live s.state := by rw [hs]; trivial
  have hin : s.currentIndex < (s.buffer ++ rest).length := by
    rw [List.length_append]
    omega
  rw [intag_eq hlt] at h
  cases hc : s.buffer[s.afterLess]? with
  | none =>
    rw [hc] at h
    obtain rfl : { s with buffer := s.buffer.drop s.afterLess } = t := by
      cases h
      rfl
    have hle := List.getElem?_eq_none_iff.1 hc
    have hless : s.buffer[s.currentIndex]? = some '<' := by
      by_contra hnot
      unfold afterLess at hle
      rw [if_neg hnot] at hle
      omega
    have hafter : s.afterLess = s.currentIndex + 1 := if_pos hless
    have hlen : s.currentIndex + 1 = s.buffer.length := by omega
    have hdrop : s.buffer.drop s.currentIndex = ['<'] := by
      rw [List.drop_eq_getElem_cons hlt, (List.getElem?_eq_some_iff.1 hless).2,
        List.drop_eq_nil_of_le (by omega)]
    have hnil : s.buffer.drop s.afterLess = [] := List.drop_eq_nil_of_le hle
    rw [hnil]
    obtain ⟨c, rest', rfl⟩ := List.exists_cons_of_ne_nil hrest
    obtain ⟨hless', hgreater⟩ := hdropped hdrop c rfl
    refine @next_follows (c :: rest') { s with buffer := [] } s.events (s.followedBy (c :: rest'))
      s.buffer hl hrest ?_ ?_ ?_
    · rintro ⟨-, -, hgt⟩
      exact hgreater (some.inj hgt)
    · exact @like_next (c :: rest') s { s with buffer := [] } s.buffer (by simp) rfl rfl rfl rfl
    · have hw : (s.followedBy (c :: rest')).afterLess = s.buffer.length := by
        rw [@afterLess_eq (s.followedBy (c :: rest')) '<' (getElem?_appended hless), if_pos rfl]
        exact hlen
      have hu : ((({ s with buffer := [] } : Parse).next (c :: rest')).after s.buffer).afterLess
          = s.buffer.length := by
        rw [@afterLess_eq _ c ?_, if_neg hless']
        · rfl
        · exact getElem?_after s.buffer (c :: rest') 0
      refine .of_intag hs (hw.trans hu.symm) hin ?_
      show s.buffer.length < (s.buffer ++ ([] ++ c :: rest')).length
      simp
  | some c =>
    rw [hc] at h hclosed
    dsimp only at h
    cases htag : parseTagFrom s.buffer s.mode s.tagStart with
    | error failure =>
      rw [htag] at h
      cases failure with
      | TEMPORARYFAILURE =>
        obtain rfl : s.kept = t := by
          cases h
          rfl
        have hbuffer : s.buffer.take s.lastSuccessfullyParsed
            ++ (s.buffer.drop s.lastSuccessfullyParsed ++ rest) = s.buffer ++ rest := by
          rw [← List.append_assoc, ← take_last_append]
        refine next_follows hl hrest ?_ (like_next s.take_last_append rfl rfl rfl rfl) ?_
        · rintro ⟨-, -, hgt⟩
          change (s.buffer.drop s.lastSuccessfullyParsed ++ rest)[0]? = some '>' at hgt
          rw [hlast, List.getElem?_append_left (by rw [List.length_drop]; omega),
            List.getElem?_drop] at hgt
          exact parseTagFrom_greater hgt (by rw [htag])
        · refine .of_intag hs ?_ hin ?_
          · unfold afterLess
            show (if (s.buffer ++ rest)[s.currentIndex]? = some '<' then s.currentIndex + 1
              else s.currentIndex) = if (s.buffer.take s.lastSuccessfullyParsed
                ++ (s.buffer.drop s.lastSuccessfullyParsed ++ rest))[
                  (s.buffer.take s.lastSuccessfullyParsed).length]? = some '<' then
                    (s.buffer.take s.lastSuccessfullyParsed).length + 1
                  else (s.buffer.take s.lastSuccessfullyParsed).length
            rw [hbuffer, length_kept hp, hlast]
          · show (s.buffer.take s.lastSuccessfullyParsed).length < (s.buffer.take
              s.lastSuccessfullyParsed ++ (s.buffer.drop s.lastSuccessfullyParsed ++ rest)).length
            rw [hbuffer, length_kept hp, hlast]
            exact hin
      | _ => cases h
    | ok tag =>
      rw [htag] at h hclosed
      refine absurd h (tag_goes (greater_mem htag) fun hopen => hclosed ?_)
      rw [decide_eq_false_iff_not, not_not] at hopen
      rw [hopen]

theorem tagEnd_not_raised (hlt : tag.index < s.buffer.length)
    (hpos : openTag = true → tag.index ≠ 0) : s.tagEnd openTag tag ≠ .raised t := by
  have hskip : ∀ (u : Parse) (n : ℕ), u.skipPast (n + 1) ≠ .raised t := by
    intro u n
    rcases skipPast_cases u n with h | ⟨j, -, -, h⟩
    · rw [h]
      simp [endParsing]
    · rw [h]
      simp
  unfold tagEnd
  rw [List.getElem?_eq_getElem hlt]
  dsimp only
  split_ifs with hc
  · rcases hm : s.mode with _ | _
    · rw [close_xml hm]
      cases s.openTags with
      | nil => simp [giveUp]
      | cons name openTags =>
        dsimp only
        split_ifs
        · exact hskip _ _
        · simp [giveUp]
    · rw [close_sgml hm]
      exact hskip _ _
  · rw [not_or, Bool.not_eq_false] at hc
    obtain ⟨n, hn⟩ := Nat.exists_eq_succ_of_ne_zero (hpos hc.2)
    rw [hn]
    exact hskip s n

theorem tag_not_raised (hlt : tag.index < s.buffer.length)
    (hpos : openTag = true → tag.index ≠ 0) : s.tag openTag tag ≠ .raised t := by
  rcases hcomment : ISCOMMENT tag.name with _ | _
  · rcases openTag with _ | _
    · rw [tag_closing hcomment]
      exact tagEnd_not_raised hlt hpos
    · by_cases hCDATA : tag.name = CDATA
      · rw [tag_CDATA hCDATA]
        simp
      · rw [tag_element hcomment hCDATA]
        exact tagEnd_not_raised (by rw [openElement_buffer]; exact hlt) hpos
  · rw [tag_comment hcomment]
    exact tagEnd_not_raised hlt hpos

theorem intag_not_raised (hs : s.state = .intag) (hlt : s.currentIndex < s.buffer.length)
    (h : s.InRange) : s.intag ≠ .raised t := by
  obtain ⟨hopen, hgt⟩ := h hs
  rw [intag_eq hlt]
  cases hc : s.buffer[s.afterLess]? with
  | none => simp
  | some c =>
    dsimp only
    cases htag : parseTagFrom s.buffer s.mode s.tagStart with
    | error failure =>
      rcases parseTagFrom_error htag with rfl | rfl | ⟨-, hopen'⟩
      · simp [tagParsed, endParsing]
      · simp [tagParsed, giveUp]
      · exact absurd hopen' hopen
    | ok tag =>
      obtain ⟨hle, hlen, hend⟩ := parseTagFrom_ok htag
      refine tag_not_raised hlen fun _ h0 => ?_
      have hstart : s.afterLess ≤ s.tagStart := by
        unfold tagStart
        split_ifs <;> omega
      have hless : s.currentIndex ≤ s.afterLess := by
        unfold afterLess
        split_ifs <;> omega
      have h0' : s.tagStart = 0 := by omega
      rw [h0', h0] at hend
      exact hgt ⟨by omega, hend rfl⟩

theorem turn_not_raised (hlt : s.currentIndex < s.buffer.length) (h : s.InRange) :
    s.turn ≠ .raised t := by
  unfold turn
  cases hs : s.state with
  | notag =>
    dsimp only
    unfold notag
    cases ignoreWhiteSpaceFrom s.buffer s.currentIndex with
    | none => simp [clear]
    | some i =>
      dsimp only
      cases parseFrom s.buffer i '<' with
      | none => simp [endParsing]
      | some j =>
        dsimp only
        cases (s.within .intag).buffer[j + 1]? with
        | none => simp [endParsing]
        | some c =>
          dsimp only
          split_ifs
          · cases parseFrom (s.within .intag).buffer (j + 1) '>' <;> simp [endParsing]
          · simp
  | intag => exact intag_not_raised hs hlt h
  | incdata =>
    dsimp only
    unfold incdata
    cases parseFrom s.buffer s.currentIndex '<' with
    | none => simp [endParsing]
    | some i =>
      dsimp only
      split_ifs <;> simp [giveUp]
  | instupidcdata =>
    dsimp only
    unfold instupidcdata
    dsimp only
    cases rangeOfString "]]>".toList (s.buffer.drop s.lastSuccessfullyParsed) <;> simp
  | _ => simp

theorem rangeOfString_append_late {target : NSString} : ∀ {text : NSString},
    (∀ location, rangeOfString target (text ++ rest) = some location → text.length ≤ location) →
    rangeOfString target (text ++ rest) = (rangeOfString target rest).map (· + text.length)
  | [], _ => by
    show rangeOfString target rest = _
    cases rangeOfString target rest <;> rfl
  | c :: text, h => by
    rw [List.cons_append, rangeOfString] at h ⊢
    split_ifs at h ⊢
    · exact absurd (h 0 rfl) (by simp)
    · rw [rangeOfString_append_late fun location hl => ?_]
      · cases rangeOfString target rest with
        | none => rfl
        | some location => exact congrArg some (Nat.add_assoc _ _ _)
      · have hle := h (location + 1) (by rw [hl]; rfl)
        rw [List.length_cons] at hle
        omega

theorem follows_step {told : List Event} {w w' u u' : Parse}
    (hwlt : w.currentIndex < w.buffer.length) (hw : w.turn = .goOn w')
    (hult : u.currentIndex < u.buffer.length) (hu : u.turn = .goOn u')
    (h : Follows told w' u') : Follows told w u := by
  rintro y ⟨fuel, hy⟩
  cases fuel with
  | zero => cases hy
  | succ fuel =>
    rw [run, if_pos hult, hu] at hy
    obtain ⟨z, hz, halike⟩ := h y ⟨fuel, hy⟩
    exact ⟨z, ends_goOn hwlt hw hz, halike⟩

/-- The first part of a CDATA section has been told, and the next call tells the rest. -/
theorem instupidcdata_follows {cdata : NSString} (hrest : rest ≠ []) (hp : s.Placed)
    (hs : s.state = .instupidcdata) (hresumes : s.CDATAResumes rest)
    (hcdata : s.buffer.drop s.lastSuccessfullyParsed = cdata)
    (h : rangeOfString "]]>".toList cdata = none) :
    Follows (s.tell (.characters cdata)).events (s.followedBy rest)
      (({ s.tell (.characters cdata) with buffer := [] } : Parse).next rest) := by
  have hlast := hp.last (by rw [hs]; simp)
  have hlen : s.currentIndex + cdata.length = s.buffer.length := by
    have hle := hp.le
    rw [← hcdata, List.length_drop, hlast]
    omega
  have hrange : rangeOfString "]]>".toList (cdata ++ rest)
      = (rangeOfString "]]>".toList rest).map (· + cdata.length) := by
    refine rangeOfString_append_late fun location hl => ?_
    unfold CDATAResumes at hresumes
    dsimp only at hresumes
    rw [hcdata, h, hl] at hresumes
    exact hresumes
  let w := s.followedBy rest
  let u := ({ s.tell (.characters cdata) with buffer := [] } : Parse).next rest
  have hwlt : w.currentIndex < w.buffer.length := by
    have hpos := List.length_pos_of_ne_nil hrest
    have hle := hp.le
    show s.currentIndex < (s.buffer ++ rest).length
    rw [List.length_append]
    omega
  have hult : u.currentIndex < u.buffer.length := List.length_pos_of_ne_nil hrest
  have hw : w.turn = w.instupidcdata := by
    unfold turn
    rw [show w.state = .instupidcdata from hs]
  have hu : u.turn = u.instupidcdata := by
    unfold turn
    rw [show u.state = .instupidcdata from hs]
  have hwcdata : w.buffer.drop w.lastSuccessfullyParsed = cdata ++ rest := by
    rw [← hcdata]
    exact List.drop_append_of_le_length hp.last_le
  have hucdata : u.buffer.drop u.lastSuccessfullyParsed = rest := rfl
  unfold instupidcdata at hw hu
  dsimp only at hw hu
  rw [hwcdata, hrange] at hw
  rw [hucdata] at hu
  cases hl : rangeOfString "]]>".toList rest with
  | none =>
    rw [hl] at hw hu
    refine follows_step hwlt hw hult hu fun y hy => ?_
    obtain rfl := hy.unique (ends_clear (by simp [parsedTo, tell]))
    refine ⟨_, ends_clear (by simp [parsedTo, tell]), ?_, rfl, rfl⟩
    show concatenated (s.events ++ [.characters (cdata ++ rest)])
      = concatenated (s.events ++ [.characters cdata] ++ ([] ++ [.characters rest]))
    have := concatenated_characters s.events cdata rest []
    simpa using this
  | some location =>
    rw [hl] at hw hu
    refine follows_step hwlt hw hult hu ?_
    have hadvances := turn_advances (show Live u.state by rw [show u.state = _ from hs]; trivial)
      (start_placed _ hrest) hult
    rw [hu] at hadvances
    obtain ⟨hl, hp', hend, -⟩ := hadvances
    refine @shift_follows _ _ _ s.buffer hl hp' hend ⟨rfl, rfl, rfl, rfl, fun tail => ?_⟩ ?_
    · show concatenated (s.events
          ++ [.characters ((cdata ++ rest).take (location + cdata.length))] ++ tail)
        = concatenated (s.events ++ [.characters cdata]
          ++ ([] ++ [.characters (rest.take location)]) ++ tail)
      rw [Nat.add_comm, List.take_length_add_append, List.nil_append]
      exact concatenated_characters s.events cdata (rest.take location) tail
    · show parseFrom (s.buffer ++ rest) (s.currentIndex + (location + cdata.length) + 3) '<'
        = parseFrom (s.buffer ++ rest) (s.buffer.length + (0 + location + 3)) '<'
      congr 1
      omega

end Exits

def Resumed (rest : NSString) (s t : Parse) : Prop :=
  t.state = .broken ∧ (∃ z, (s.followedBy rest).Ends z ∧ Alike [] z.last t)
    ∨ Live t.state ∧ Follows t.events (s.followedBy rest) (t.next rest)

theorem run_followedBy (hrest : rest ≠ []) : ∀ {fuel : ℕ} {s : Parse}, run fuel s = some x →
    Live s.state → s.Placed → Throughout (Resumes rest) fuel s → Resumed rest s x.last
  | fuel + 1, s, h, hl, hp, hall => by
    unfold run at h
    split_ifs at h with hlt
    · obtain ⟨hresumes, hmore⟩ := hall hlt
      have hinlt : (s.followedBy rest).currentIndex < (s.followedBy rest).buffer.length := by
        show s.currentIndex < (s.buffer ++ rest).length
        rw [List.length_append]
        omega
      have hadvances := turn_advances hl hp hlt
      by_cases hcdata : s.state = .instupidcdata
          ∧ rangeOfString "]]>".toList (s.buffer.drop s.lastSuccessfullyParsed) = none
      · obtain ⟨hs, hnone⟩ := hcdata
        have hturn : s.turn = .goOn ((s.tell (.characters
            (s.buffer.drop s.lastSuccessfullyParsed))).parsedTo s.buffer.length) := by
          unfold turn
          rw [hs]
          dsimp only
          unfold instupidcdata
          dsimp only
          rw [hnone]
        unfold Resumes at hresumes
        rw [hs] at hresumes
        rw [hturn] at h
        cases fuel with
        | zero => cases h
        | succ fuel =>
          dsimp only at h
          rw [run, if_neg (by simp [parsedTo, tell])] at h
          obtain rfl := some.inj h
          exact .inr ⟨hl, instupidcdata_follows hrest hp hs hresumes rfl hnone⟩
      rw [not_and] at hcdata
      cases hturn : s.turn with
      | goOn t =>
        rw [hturn] at h hmore hadvances
        obtain ⟨hl, hp, -, -⟩ := hadvances
        have hwhole : (s.followedBy rest).turn = .goOn (t.followedBy rest) := by
          rw [turn_followedBy rest hcdata (by rw [hturn]; trivial), hturn]
          rfl
        rcases run_followedBy hrest h hl hp hmore with ⟨hb, z, hz, halike⟩ | ⟨hl, hfollows⟩
        · exact .inl ⟨hb, z, ends_goOn hinlt hwhole hz, halike⟩
        · refine .inr ⟨hl, fun y hy => ?_⟩
          obtain ⟨z, hz, halike⟩ := hfollows y hy
          exact ⟨z, ends_goOn hinlt hwhole hz, halike⟩
      | done result t =>
        rw [hturn] at h hadvances
        obtain rfl := some.inj h
        cases result with
        | false =>
          have hwhole : (s.followedBy rest).turn = .done false (t.followedBy rest) := by
            rw [turn_followedBy rest hcdata (by rw [hturn]; trivial), hturn]
            rfl
          exact .inl ⟨hadvances, _, ends_turn hinlt hwhole fun t h => (by cases h), rfl, rfl, rfl⟩
        | true =>
          refine .inr ⟨hadvances, ?_⟩
          show Follows t.events _ (t.next rest)
          unfold Resumes at hresumes
          unfold turn at hturn
          cases hs : s.state with
          | notag =>
            rw [hs] at hturn hresumes
            exact notag_follows hrest hp hs hresumes hturn
          | intag =>
            rw [hs] at hturn hresumes
            exact intag_follows hrest hp hs hresumes hturn
          | incdata =>
            rw [hs] at hturn
            exact incdata_follows hrest hp hs hturn
          | instupidcdata =>
            rw [hs] at hturn
            unfold instupidcdata at hturn
            dsimp only at hturn
            split at hturn
            all_goals cases hturn
          | _ =>
            rw [hs] at hl
            exact hl.elim
      | raised t =>
        refine absurd hturn (turn_not_raised hlt fun hs => ?_)
        unfold Resumes at hresumes
        rw [hs] at hresumes
        exact hresumes.1 hs
    · obtain rfl := some.inj h
      exact .inr ⟨hl, clear_follows hrest hp hl hlt⟩

end Parse

namespace Session

open Parse ETXMLParser

/-- The delegate has been told the same, and the parser is in the same state. -/
structure Same (s t : Session) : Prop where
  told : concatenated s.told = concatenated t.told
  state : s.parser.state = t.parser.state
  openTags : s.parser.openTags = t.parser.openTags

def Seamless : Session → List NSString → Prop
  | _, [] | _, [_] => True
  | s, data :: next :: chunks => s.EveryTurn data (Resumes (next :: chunks).flatten)
      ∧ Seamless (s.parse data) (next :: chunks)

instance decidableSeamless : ∀ (s : Session) (chunks : List NSString),
    Decidable (Seamless s chunks)
  | _, [] | _, [_] => isTrue trivial
  | s, data :: next :: chunks => by
    have := decidableSeamless (s.parse data) (next :: chunks)
    exact inferInstanceAs (Decidable (_ ∧ _))

variable {s t : Session} {data rest : NSString}

theorem Same.trans (h : s.Same t) {u : Session} (h' : t.Same u) : s.Same u :=
  ⟨h.told.trans h'.told, h.state.trans h'.state, h.openTags.trans h'.openTags⟩

theorem parse_broken (h : s.parser.state = .broken) (data : NSString) : s.parse data = s := by
  have hcall : s.parser.parseFromSource data = some (.returned false s.parser []) := if_pos h
  unfold parse
  rw [hcall]
  dsimp only
  rw [List.append_nil]

theorem parse_live (hl : Live s.parser.state) (hdata : data ≠ []) :
    ∃ x, run (turns (s.parser.buffer.length + data.length)) (s.parser.start data) = some x
      ∧ s.parse data = ⟨finish x.last, s.told ++ x.last.events⟩ := by
  have hne : s.parser.state ≠ .broken := by
    intro h
    rw [h] at hl
    exact hl
  obtain ⟨x, hx⟩ := run_ends hl (start_placed s.parser hdata) (start_measure s.parser data)
  have hcall : s.parser.parseFromSource data = _ := if_neg hne
  rw [hx] at hcall
  refine ⟨x, hx, ?_⟩
  unfold parse
  rw [hcall]
  cases x <;> rfl

theorem parse_append (hl : Live s.parser.state ∨ s.parser.state = .broken) (hdata : data ≠ [])
    (hrest : rest ≠ []) (hresumes : s.EveryTurn data (Resumes rest)) :
    ((s.parse data).parse rest).Same (s.parse (data ++ rest))
      ∧ (Live (s.parse data).parser.state ∨ (s.parse data).parser.state = .broken) := by
  rcases hl with hl | hb
  · have hne : s.parser.state ≠ .broken := by
      intro h
      rw [h] at hl
      exact hl
    obtain ⟨x, hx, hparse⟩ := parse_live hl hdata
    obtain ⟨z, hz, hwhole⟩ := @parse_live s (data ++ rest) hl (by simp [hdata])
    have hstart : s.parser.start (data ++ rest) = (s.parser.start data).followedBy rest := by
      unfold start followedBy
      rw [List.append_assoc]
    rw [hstart] at hz
    rw [hwhole]
    rcases run_followedBy hrest hx hl (start_placed s.parser hdata) (hresumes hne) with
      ⟨hb, z', hz', halike⟩ | ⟨hl', hfollows⟩
    · obtain rfl := Ends.unique ⟨_, hz⟩ hz'
      have hbroken : (s.parse data).parser.state = .broken := by
        rw [hparse]
        exact hb
      refine ⟨?_, .inr hbroken⟩
      rw [parse_broken hbroken, hparse]
      exact ⟨(concatenated_congr halike.events s.told).symm, halike.state.symm,
        halike.openTags.symm⟩
    · have hlive : Live (s.parse data).parser.state := by
        rw [hparse]
        exact hl'
      refine ⟨?_, .inl hlive⟩
      obtain ⟨y, hy, hnext⟩ := parse_live hlive hrest
      rw [hparse] at hy
      obtain ⟨z', hz', halike⟩ := hfollows y ⟨_, hy⟩
      obtain rfl := Ends.unique ⟨_, hz⟩ hz'
      rw [hnext, hparse]
      refine ⟨?_, halike.state.symm, halike.openTags.symm⟩
      show concatenated (s.told ++ x.last.events ++ y.last.events) = _
      rw [List.append_assoc]
      exact (concatenated_congr halike.events s.told).symm
  · have hbroken : (s.parse data).parser.state = .broken := by
      rw [parse_broken hb]
      exact hb
    refine ⟨?_, .inr hbroken⟩
    rw [parse_broken hbroken, parse_broken hb, parse_broken hb]
    exact ⟨rfl, rfl, rfl⟩

theorem chunks_same : ∀ {chunks : List NSString} {s : Session},
    Live s.parser.state ∨ s.parser.state = .broken → chunks ≠ [] → (∀ data ∈ chunks, data ≠ []) →
    Seamless s chunks → (chunks.foldl parse s).Same (s.parse chunks.flatten)
  | [data], s, _, _, _, _ => by
    rw [List.flatten_singleton]
    exact ⟨rfl, rfl, rfl⟩
  | data :: next :: chunks, s, hl, _, hne, hseamless => by
    obtain ⟨hresumes, hseamless⟩ := hseamless
    have hrest : (next :: chunks).flatten ≠ [] := by
      rw [List.flatten_cons]
      simp [hne next (by simp)]
    obtain ⟨hsame, hl⟩ := parse_append hl (hne data (by simp)) hrest hresumes
    exact (chunks_same hl (by simp) (fun d hd => hne d (by simp [hd])) hseamless).trans hsame

/-- A text that is parsed in chunks, each ending where the parser can go on, is parsed as it is in
one call. -/
theorem parse_chunks (mode : MarkupLanguage) {chunks : List NSString}
    (hne : ∀ data ∈ chunks, data ≠ [])
    (hseamless : Seamless { parser := { mode } } chunks) :
    (chunks.foldl parse { parser := { mode } }).Same
      (parse { parser := { mode } } chunks.flatten) := by
  cases chunks with
  | nil => exact ⟨rfl, rfl, rfl⟩
  | cons data chunks => exact chunks_same (.inl trivial) (by simp) hne hseamless

/-- A tag and the text after it, both in two chunks. -/
theorem tag_in_chunks : (["<a b='".toList, "1'>te".toList, "xt</a>".toList].foldl parse {}).Same
    (parse {} ["<a b='".toList, "1'>te".toList, "xt</a>".toList].flatten) :=
  parse_chunks .PARSER_MODE_XML (by decide) (by decide)

/-- A declaration that begins at the end of a chunk is told of as an element. -/
theorem declaration_in_chunks : (∀ data ∈ ["<".toList, "?xml?><a/>".toList], data ≠ [])
    ∧ ¬ (["<".toList, "?xml?><a/>".toList].foldl parse {}).Same
      (parse {} ["<".toList, "?xml?><a/>".toList].flatten) := by
  refine ⟨by decide, fun h => ?_⟩
  exact absurd h.told (by decide)

end Session

end Etoile.EtoileXML
