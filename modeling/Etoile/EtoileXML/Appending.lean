import Etoile.EtoileXML.Shifting

/-!
# Text that comes later

What the parser has found in its buffer, and a tag that it has failed on, stay as they are when
more text is appended.
-/

namespace Etoile.EtoileXML

open List Option

section Scans

variable {p : Char → Bool} {b r : NSString} {i j k : ℕ} {c : Char}

theorem scanWhile_appended {s : NSString} (h : scanWhile p s i = some j) :
    scanWhile p (s ++ r) i = some j := by
  obtain ⟨pre, d, rest, rfl, hpre, hd, rfl⟩ := scanWhile_eq_some h
  rw [append_assoc, cons_append]
  exact scanWhile_found hpre hd (rest ++ r) i

theorem scanWhile_drop_appended (h : scanWhile p (b.drop i) j = some k) :
    scanWhile p ((b ++ r).drop i) j = some k := by
  rw [drop_append]
  exact scanWhile_appended h

theorem parseFrom_appended (h : parseFrom b i c = some j) : parseFrom (b ++ r) i c = some j :=
  scanWhile_drop_appended h

theorem ignoreWhiteSpaceFrom_appended (h : ignoreWhiteSpaceFrom b i = some j) :
    ignoreWhiteSpaceFrom (b ++ r) i = some j :=
  scanWhile_drop_appended h

theorem getElem?_appended (h : b[i]? = some c) : (b ++ r)[i]? = some c := by
  rw [getElem?_append_left (lt_length_of_getElem? h), h]

theorem currentString_appended (h : j ≤ b.length) :
    currentString (b ++ r) i j = currentString b i j := by
  unfold currentString
  rw [drop_append, take_append_of_le_length]
  rw [length_drop]
  omega

def EndsName (c : Char) : Prop := (isspace c || c = '>' || c = '/') = true

theorem scanName_appended (r : NSString) : ∀ {s pre : NSString} {isCDATA : Bool},
    scanName (pre ++ s) s pre.length = (k, isCDATA) →
    (isCDATA = true ∨ ∃ c, (pre ++ s)[k]? = some c ∧ EndsName c) →
    scanName (pre ++ s ++ r) (s ++ r) pre.length = (k, isCDATA)
  | [], pre, isCDATA, h, hend => by
    obtain ⟨rfl, rfl⟩ : pre.length = k ∧ false = isCDATA := Prod.mk.inj h
    rcases hend with hend | ⟨c, hc, -⟩
    · cases hend
    · rw [append_nil, getElem?_eq_none (Nat.le_refl _)] at hc
      cases hc
  | [d], pre, isCDATA, h, hend => by
    obtain ⟨rfl, rfl⟩ : pre.length = k ∧ false = isCDATA := Prod.mk.inj h
    rcases hend with hend | ⟨c, hc, hstop⟩
    · cases hend
    · rw [getElem?_concat_length] at hc
      obtain rfl := some.inj hc
      cases r with
      | nil => rfl
      | cons e r =>
        show scanName _ (d :: e :: r) _ = _
        rw [scanName]
        exact if_pos hstop
  | d :: e :: s, pre, isCDATA, h, hend => by
    -- the first eight characters are all in the shorter text
    have h8 : pre.length + 1 = 8 ∧ (pre ++ d :: e :: s ++ r).take 8 = CDATA
        ↔ pre.length + 1 = 8 ∧ (pre ++ d :: e :: s).take 8 = CDATA := by
      refine and_congr_right fun hlen => ?_
      rw [take_append_of_le_length]
      rw [length_append, length_cons]
      omega
    rw [scanName] at h
    rw [cons_append, cons_append, scanName]
    simp only [h8]
    split_ifs at h ⊢
    · exact h
    · exact h
    · have h' : scanName (pre ++ [d] ++ e :: s) (e :: s) (pre ++ [d]).length = (k, isCDATA) := by
        simpa using h
      simpa using scanName_appended r h' (by simpa using hend)

theorem scanName_spec : ∀ {s pre : NSString}, s ≠ [] →
    scanName (pre ++ s) s pre.length = (k, false) →
    ∃ t c rest, s = t ++ c :: rest ∧ k = pre.length + t.length ∧ (∀ d ∈ t, ¬ EndsName d)
      ∧ (EndsName c ∨ rest = [])
  | [], _, hne, _ => absurd rfl hne
  | [d], pre, _, h => by
    obtain ⟨rfl, -⟩ : pre.length = k ∧ false = false := Prod.mk.inj h
    exact ⟨[], d, [], rfl, rfl, by simp, .inr rfl⟩
  | d :: e :: s, pre, _, h => by
    rw [scanName] at h
    split_ifs at h with hstop h8
    · obtain ⟨rfl, -⟩ := Prod.mk.inj h
      exact ⟨[], d, e :: s, rfl, rfl, by simp, .inl hstop⟩
    · cases (Prod.mk.inj h).2
    · have h' : scanName (pre ++ [d] ++ e :: s) (e :: s) (pre ++ [d]).length = (k, false) := by
        simpa using h
      obtain ⟨t, c, rest, hs, hk, ht, hc⟩ := scanName_spec (by simp) h'
      refine ⟨d :: t, c, rest, by rw [hs]; rfl, ?_, ?_, hc⟩
      · rw [hk, length_append, length_singleton, length_cons]
        omega
      · intro x hx
        rcases mem_cons.1 hx with rfl | hx
        · exact hstop
        · exact ht x hx

end Scans

section Tags

/-- A tag or a part of it has been found, or what is there is no such thing. -/
def Firm {α : Type} : Except TagFailure α → Prop
  | .ok _ => True
  | .error failure => failure = .FAILURE

theorem bind_appended {α β : Type} {x x' : Except TagFailure α} {f f' : α → Except TagFailure β}
    (h : Firm (x >>= f)) (hx : Firm x → x' = x)
    (hf : ∀ a, x = .ok a → Firm (f a) → f' a = f a) : (x' >>= f') = (x >>= f) := by
  rcases x with failure | a
  · rw [hx h]
    rfl
  · rw [hx trivial]
    exact hf a rfl h

theorem orFail_appended {α : Type} {failure : TagFailure} {o o' : Option α}
    (hfailure : failure ≠ .FAILURE) (ho : ∀ a, o = some a → o' = some a)
    (h : Firm (orFail failure o)) : orFail failure o' = orFail failure o := by
  cases o with
  | none => exact absurd h hfailure
  | some a => rw [ho a rfl]

variable {b r : NSString} {mode : MarkupLanguage} {current start : ℕ} {attributes : Attributes}

theorem parseValue_appended (h : Firm (parseValue b mode current)) :
    parseValue (b ++ r) mode current = parseValue b mode current := by
  refine bind_appended h (orFail_appended (by simp) fun _ => getElem?_appended) fun quote _ h => ?_
  split_ifs at h ⊢ with hq hm
  · refine bind_appended h (orFail_appended (by simp) fun _ => parseFrom_appended) fun j hj _ => ?_
    have hlt := parseFrom_lt (orFail_eq_ok.1 hj)
    rw [currentString_appended (by omega)]
  · rfl
  · refine bind_appended h (orFail_appended (by simp) fun _ => scanWhile_drop_appended)
      fun j hj _ => ?_
    obtain ⟨-, c, hc, -⟩ := scan_drop (orFail_eq_ok.1 hj)
    have hlt := lt_length_of_getElem? hc
    rw [currentString_appended (by omega)]

theorem parseAttribute_appended (h : Firm (parseAttribute b mode start attributes)) :
    parseAttribute (b ++ r) mode start attributes = parseAttribute b mode start attributes := by
  refine bind_appended h (orFail_appended (by simp) fun _ => parseFrom_appended) fun j hj h => ?_
  have hlt := parseFrom_lt (orFail_eq_ok.1 hj)
  dsimp only at h ⊢
  by_cases hlen : j + 1 ≥ b.length
  · rw [if_pos hlen] at h
    cases h
  rw [if_neg hlen] at h ⊢
  rw [length_append, if_neg (by omega), currentString_appended (by omega)]
  refine bind_appended h parseValue_appended fun x _ h => ?_
  exact bind_appended h (orFail_appended (by simp) fun _ => ignoreWhiteSpaceFrom_appended)
    fun _ _ _ => rfl

theorem isEndAfter_lt (h : isEndAfter b start = true) : start + 1 < b.length :=
  lt_length_of_getElem? (of_decide_eq_true h)

theorem isEndAfter_appended (h : start + 1 < b.length) :
    isEndAfter (b ++ r) start = isEndAfter b start := by
  unfold isEndAfter
  rw [getElem?_append_left h]

theorem parseAttributes_appended : ∀ {fuel start : ℕ} {attributes : Attributes},
    Firm (parseAttributes b mode fuel start attributes) →
    parseAttributes (b ++ r) mode fuel start attributes
      = parseAttributes b mode fuel start attributes
  | 0, _, _, h => by cases h
  | fuel + 1, start, attributes, h => by
    refine bind_appended h (orFail_appended (by simp) fun _ => getElem?_appended) fun c _ h => ?_
    by_cases hloop : c ≠ '>' ∧ start + 1 < b.length ∧ isEndAfter b start = false
    · rw [if_pos hloop] at h ⊢
      rw [if_pos ⟨hloop.1, by rw [length_append]; omega,
        (isEndAfter_appended hloop.2.1).trans hloop.2.2⟩]
      exact bind_appended h parseAttribute_appended fun _ _ h => parseAttributes_appended h
    · rw [if_neg hloop] at h ⊢
      -- an end is one in the longer text too
      by_cases hend : c = '>' ∨ isEndAfter b start = true
      · have hend' : c = '>' ∨ isEndAfter (b ++ r) start = true :=
          hend.imp_right fun h => (isEndAfter_appended (isEndAfter_lt h)).trans h
        rw [if_pos hend, if_neg, if_pos hend']
        rintro ⟨hc, -, hfalse⟩
        rcases hend' with hgt | htrue
        · exact hc hgt
        · rw [htrue] at hfalse
          cases hfalse
      · rw [if_neg hend] at h
        cases h

section Unfinished

variable {t : NSString} {c : Char} {k : ℕ}

/-- There is no end to a comment whose name goes up to the end of the buffer. -/
theorem parseFrom_unfinished (hdrop : b.drop k = t ++ [c]) (ht : ∀ d ∈ t, ¬ EndsName d)
    (hc : ¬ EndsName c) : parseFrom b k '>' = none := by
  unfold parseFrom
  rw [hdrop, scanWhile_eq_none]
  intro d hd
  have hends : ¬ EndsName d := by
    rcases mem_append.1 hd with hd | hd
    · exact ht d hd
    · obtain rfl := mem_singleton.1 hd
      exact hc
  rw [decide_eq_true_eq]
  rintro rfl
  exact hends rfl

/-- There are no attributes after a name that goes up to the end of the buffer. -/
theorem parseAttributes_unfinished (hdrop : b.drop k = t ++ [c]) (hc : ¬ EndsName c) (fuel : ℕ) :
    ignoreWhiteSpaceFrom b (k + t.length) = some (k + t.length)
      ∧ parseAttributes b mode (fuel + 1) (k + t.length) [] = .error .TEMPORARYFAILURE := by
  have hlast : b.drop (k + t.length) = [c] := by
    rw [← drop_drop, hdrop, drop_left]
  have hlen : k + t.length + 1 = b.length := by
    have hlen := congrArg length hlast
    rw [length_drop, length_singleton] at hlen
    omega
  have hget : b[k + t.length]? = some c := by
    rw [← head?_drop, hlast]
    rfl
  unfold EndsName at hc
  simp only [Bool.or_eq_true, decide_eq_true_eq, not_or] at hc
  constructor
  · unfold ignoreWhiteSpaceFrom
    rw [hlast, scanWhile, if_neg hc.1.1]
  · have hend : isEndAfter b (k + t.length) = false := by
      unfold isEndAfter
      rw [getElem?_eq_none (by omega)]
      rfl
    unfold parseAttributes
    rw [hget, orFail_some_bind, if_neg (by omega), hend, if_neg (by simp [hc.1.2])]
    rfl

end Unfinished

theorem parseTagFrom_appended {index : ℕ} (h : Firm (parseTagFrom b mode index)) :
    parseTagFrom (b ++ r) mode index = parseTagFrom b mode index := by
  refine bind_appended h (orFail_appended (by simp) fun _ => ignoreWhiteSpaceFrom_appended)
    fun i _ h => ?_
  refine bind_appended h (orFail_appended (by simp) fun _ => scanWhile_drop_appended)
    fun j _ h => ?_
  refine bind_appended h (orFail_appended (by simp) fun _ => ignoreWhiteSpaceFrom_appended)
    fun k hk h => ?_
  obtain ⟨-, hlt⟩ := ignoreWhiteSpaceFrom_spec (orFail_eq_ok.1 hk)
  have hne : b.drop k ≠ [] := by
    rw [ne_eq, drop_eq_nil_iff]
    omega
  have hdrop : (b ++ r).drop k = b.drop k ++ r := drop_append_of_le_length (by omega)
  rcases hname : scanName (b.drop k) (b.drop k) 0 with ⟨n, isCDATA⟩
  have hn := @scanName_lt (b.drop k) (b.drop k) 0 hne
  rw [hname, Nat.zero_add] at hn
  have htake : (b.drop k ++ r).take n = (b.drop k).take n :=
    take_append_of_le_length (Nat.le_of_lt hn)
  simp only [hname] at h
  have hsame : scanName (b.drop k ++ r) (b.drop k ++ r) 0 = (n, isCDATA) := by
    refine @scanName_appended n r (b.drop k) [] isCDATA hname ?_
    rcases isCDATA with _ | _
    · obtain ⟨t, c, rest, hs, rfl, ht, hc⟩ := @scanName_spec n (b.drop k) [] hne hname
      rw [length_nil, Nat.zero_add] at h ⊢
      refine .inr ⟨c, by rw [nil_append, hs]; simp, ?_⟩
      -- otherwise what is looked for after the name would not be there
      by_contra hnot
      obtain rfl := hc.resolve_left hnot
      rw [if_neg (by simp)] at h
      split_ifs at h with hcomment
      · rw [parseFrom_unfinished hs ht hnot] at h
        cases h
      · obtain ⟨hspace, hattributes⟩ := @parseAttributes_unfinished b mode t c k hs hnot b.length
        rw [hspace, orFail_some_bind, hattributes] at h
        cases h
    · exact .inl rfl
  simp only [hdrop, hsame, htake]
  split_ifs at h ⊢ with hCDATA hcomment
  · rfl
  · exact bind_appended h (orFail_appended (by simp) fun _ => parseFrom_appended) fun _ _ _ => rfl
  · refine bind_appended h (orFail_appended (by simp) fun _ => ignoreWhiteSpaceFrom_appended)
      fun l hl h => ?_
    obtain ⟨-, hlt⟩ := ignoreWhiteSpaceFrom_spec (orFail_eq_ok.1 hl)
    have hfuel : parseAttributes b mode ((b ++ r).length + 1) l []
        = parseAttributes b mode (b.length + 1) l [] := by
      rw [length_append, show b.length + r.length + 1 = b.length + 1 + r.length by omega]
      exact parseAttributes_fuel mode b hlt (by omega) r.length
    rw [← hfuel] at h ⊢
    exact bind_appended h parseAttributes_appended fun _ _ _ => rfl

end Tags

section Ranges

variable {target : NSString}

theorem rangeOfString_le : ∀ {s : NSString} {location : ℕ},
    rangeOfString target s = some location → location + target.length ≤ s.length
  | [], location, h => by
    rw [rangeOfString] at h
    split_ifs at h with htarget
    obtain rfl := some.inj h
    rw [List.isPrefixOf_iff_prefix, prefix_nil] at htarget
    simp [htarget]
  | c :: s, location, h => by
    rw [rangeOfString] at h
    split_ifs at h with htarget
    · obtain rfl := some.inj h
      rw [Nat.zero_add]
      exact (List.isPrefixOf_iff_prefix.1 htarget).length_le
    · obtain ⟨i, hi, rfl⟩ := map_eq_some_iff.1 h
      have hle := rangeOfString_le hi
      rw [length_cons]
      omega

theorem isPrefixOf_appended (r : NSString) {s : NSString} (h : target.length ≤ s.length) :
    target.isPrefixOf (s ++ r) = target.isPrefixOf s := by
  rw [Bool.eq_iff_iff, isPrefixOf_iff_prefix, isPrefixOf_iff_prefix]
  constructor
  · intro hprefix
    exact prefix_of_prefix_length_le hprefix (prefix_append s r) h
  · intro hprefix
    exact hprefix.trans (prefix_append s r)

theorem rangeOfString_nil (r : NSString) : rangeOfString [] r = some 0 := by
  cases r <;> rfl

theorem rangeOfString_appended (r : NSString) : ∀ {s : NSString} {location : ℕ},
    rangeOfString target s = some location → rangeOfString target (s ++ r) = some location
  | [], location, h => by
    have hle := rangeOfString_le h
    obtain rfl : target = [] := length_eq_zero_iff.1 (by rw [length_nil] at hle; omega)
    rw [rangeOfString_nil] at h ⊢
    exact h
  | c :: s, location, h => by
    have hle := rangeOfString_le h
    rw [rangeOfString] at h
    rw [cons_append, rangeOfString, ← cons_append, isPrefixOf_appended r (by omega)]
    split_ifs at h ⊢ with htarget
    · exact h
    · obtain ⟨i, hi, rfl⟩ := map_eq_some_iff.1 h
      rw [rangeOfString_appended r hi]
      rfl

end Ranges

namespace Parse

def followedBy (s : Parse) (r : NSString) : Parse := { s with buffer := s.buffer ++ r }

@[simp]
theorem followedBy_buffer (s : Parse) (r : NSString) : (s.followedBy r).buffer = s.buffer ++ r := rfl

@[simp]
theorem followedBy_currentIndex (s : Parse) (r : NSString) :
    (s.followedBy r).currentIndex = s.currentIndex := rfl

end Parse

namespace Turn

def followedBy (r : NSString) : Turn → Turn
  | .goOn s => .goOn (s.followedBy r)
  | .done result s => .done result (s.followedBy r)
  | .raised s => .raised (s.followedBy r)

def Settled : Turn → Prop
  | .goOn _ | .done false _ => True
  | .done true _ | .raised _ => False

end Turn

namespace Parse

variable (r : NSString) {s : Parse}

theorem notag_followedBy (h : s.notag.Settled) : (s.followedBy r).notag = s.notag.followedBy r := by
  unfold notag at h ⊢
  rw [followedBy_buffer, followedBy_currentIndex]
  cases hi : ignoreWhiteSpaceFrom s.buffer s.currentIndex with
  | none =>
    rw [hi] at h
    exact h.elim
  | some i =>
    rw [hi] at h
    rw [ignoreWhiteSpaceFrom_appended hi]
    dsimp only at h ⊢
    cases hj : parseFrom s.buffer i '<' with
    | none =>
      rw [hj] at h
      exact h.elim
    | some j =>
      rw [hj] at h
      rw [parseFrom_appended hj]
      dsimp only [within, followedBy_buffer] at h ⊢
      cases hc : s.buffer[j + 1]? with
      | none =>
        rw [hc] at h
        exact h.elim
      | some c =>
        rw [hc] at h
        rw [getElem?_appended hc]
        dsimp only at h ⊢
        split_ifs at h ⊢ with hd
        · cases hk : parseFrom s.buffer (j + 1) '>' with
          | none =>
            rw [hk] at h
            exact h.elim
          | some k =>
            rw [parseFrom_appended hk]
            rfl
        · rfl

theorem incdata_followedBy (h : s.incdata.Settled) :
    (s.followedBy r).incdata = s.incdata.followedBy r := by
  unfold incdata at h ⊢
  rw [followedBy_buffer, followedBy_currentIndex]
  cases hi : parseFrom s.buffer s.currentIndex '<' with
  | none =>
    rw [hi] at h
    exact h.elim
  | some i =>
    rw [parseFrom_appended hi]
    have hlt := parseFrom_lt hi
    dsimp only [followedBy]
    rw [currentString_appended (by omega)]
    split_ifs <;> rfl

theorem instupidcdata_followedBy
    (h : rangeOfString "]]>".toList (s.buffer.drop s.lastSuccessfullyParsed) ≠ none) :
    (s.followedBy r).instupidcdata = s.instupidcdata.followedBy r := by
  obtain ⟨location, hl⟩ := ne_none_iff_exists'.1 h
  have hle := rangeOfString_le hl
  have hcdata : (s.followedBy r).buffer.drop (s.followedBy r).lastSuccessfullyParsed
      = s.buffer.drop s.lastSuccessfullyParsed
        ++ r.drop (s.lastSuccessfullyParsed - s.buffer.length) := drop_append
  unfold instupidcdata
  dsimp only
  rw [hcdata, rangeOfString_appended _ hl, hl]
  dsimp only
  rw [take_append_of_le_length (by omega)]
  rfl

theorem skipPast_followedBy {n : ℕ} (h : (s.skipPast n).Settled) :
    (s.followedBy r).skipPast n = (s.skipPast n).followedBy r := by
  cases n with
  | zero => exact h.elim
  | succ n =>
    unfold skipPast at h ⊢
    dsimp only [followedBy_buffer] at h ⊢
    cases hi : parseFrom s.buffer n '>' with
    | none =>
      rw [hi] at h
      exact h.elim
    | some i =>
      rw [parseFrom_appended hi]
      rfl

theorem close_followedBy {tag : Tag} (h : (s.close tag).Settled) :
    (s.followedBy r).close tag = (s.close tag).followedBy r := by
  rcases hm : s.mode with _ | _
  · rw [close_xml hm] at h ⊢
    rw [close_xml (s := s.followedBy r) hm]
    rw [show (s.followedBy r).openTags = s.openTags from rfl]
    cases ho : s.openTags with
    | nil => rfl
    | cons name openTags =>
      rw [ho] at h
      dsimp only at h ⊢
      split_ifs at h ⊢
      · exact skipPast_followedBy r h
      · rfl
  · rw [close_sgml hm] at h ⊢
    rw [close_sgml (s := s.followedBy r) hm]
    exact skipPast_followedBy r h

theorem openElement_followedBy (s : Parse) (tag : Tag) :
    (s.followedBy r).openElement tag = (s.openElement tag).followedBy r := by
  rcases s with ⟨buffer, openTags, state, mode⟩
  cases mode <;> rfl

theorem tagEnd_followedBy {openTag : Bool} {tag : Tag} (h : (s.tagEnd openTag tag).Settled) :
    (s.followedBy r).tagEnd openTag tag = (s.tagEnd openTag tag).followedBy r := by
  unfold tagEnd at h ⊢
  rw [followedBy_buffer]
  cases hc : s.buffer[tag.index]? with
  | none =>
    rw [hc] at h
    exact h.elim
  | some c =>
    rw [hc] at h
    rw [getElem?_appended hc]
    dsimp only at h ⊢
    split_ifs at h ⊢
    · exact close_followedBy r h
    · exact skipPast_followedBy r h

theorem tag_followedBy {openTag : Bool} {tag : Tag} (h : (s.tag openTag tag).Settled) :
    (s.followedBy r).tag openTag tag = (s.tag openTag tag).followedBy r := by
  rcases hcomment : ISCOMMENT tag.name with _ | _
  · rcases openTag with _ | _
    · rw [tag_closing hcomment] at h ⊢
      rw [tag_closing hcomment]
      exact tagEnd_followedBy r h
    · by_cases hCDATA : tag.name = CDATA
      · rw [tag_CDATA hCDATA, tag_CDATA hCDATA]
        rfl
      · rw [tag_element hcomment hCDATA] at h ⊢
        rw [tag_element hcomment hCDATA, openElement_followedBy]
        exact tagEnd_followedBy r h
  · rw [tag_comment hcomment] at h ⊢
    rw [tag_comment hcomment]
    exact tagEnd_followedBy r h

theorem intag_followedBy (h : s.intag.Settled) : (s.followedBy r).intag = s.intag.followedBy r := by
  unfold intag at h ⊢
  rw [followedBy_buffer, followedBy_currentIndex]
  cases hc : s.buffer[s.currentIndex]? with
  | none =>
    rw [hc] at h
    exact h.elim
  | some c =>
    rw [hc] at h
    rw [getElem?_appended hc]
    dsimp only [followedBy] at h ⊢
    cases hd : s.buffer[if c = '<' then s.currentIndex + 1 else s.currentIndex]? with
    | none =>
      rw [hd] at h
      exact h.elim
    | some d =>
      rw [hd] at h
      rw [getElem?_appended hd]
      dsimp only at h ⊢
      cases htag : parseTagFrom s.buffer s.mode
          (if d = '/' then (if c = '<' then s.currentIndex + 1 else s.currentIndex) + 1
            else if c = '<' then s.currentIndex + 1 else s.currentIndex) with
      | error failure =>
        rw [htag] at h
        cases failure with
        | FAILURE =>
          rw [parseTagFrom_appended (by rw [htag]; rfl), htag]
          rfl
        | _ => exact h.elim
      | ok tag =>
        rw [htag] at h
        rw [parseTagFrom_appended (by rw [htag]; trivial), htag]
        exact tag_followedBy r h

theorem turn_followedBy
    (hcdata : s.state = .instupidcdata →
      rangeOfString "]]>".toList (s.buffer.drop s.lastSuccessfullyParsed) ≠ none)
    (h : s.turn.Settled) : (s.followedBy r).turn = s.turn.followedBy r := by
  unfold turn at h ⊢
  rw [show (s.followedBy r).state = s.state from rfl]
  rcases hs : s.state with _ | _ | _ | _ | _ | _ | _
  · rw [hs] at h
    exact notag_followedBy r h
  · rw [hs] at h
    exact intag_followedBy r h
  · rfl
  · rw [hs] at h
    exact incdata_followedBy r h
  · exact instupidcdata_followedBy r (hcdata hs)
  · rfl
  · rfl

end Parse

end Etoile.EtoileXML
