import Mathlib.Data.List.Nodup
import Etoile.EtoileXML.Shifting

/-!
# Tags as they are written

A tag that is written as XML has it, with no space around the `'='` of an attribute, is found with
the name and the attributes that it has.
-/

namespace Etoile.EtoileXML

open List

def isNameChar (c : Char) : Bool := !isspace c && c ∉ ['<', '>', '/', '=', '!', '?', '"', '\'']

structure IsName (name : NSString) : Prop where
  nonempty : name ≠ []
  chars : ∀ c ∈ name, isNameChar c = true

structure WrittenAttribute where
  space : NSString := [' ']
  name : NSString
  quote : Char := '"'
  value : NSString
  deriving DecidableEq

structure WrittenTag where
  name : NSString
  attributes : List WrittenAttribute := []
  space : NSString := []
  deriving DecidableEq

namespace WrittenAttribute

structure WellFormed (a : WrittenAttribute) : Prop where
  space_ne : a.space ≠ []
  space : ∀ c ∈ a.space, isspace c = true
  name : IsName a.name
  quote : a.quote = '"' ∨ a.quote = '\''
  value : a.quote ∉ a.value

def written (a : WrittenAttribute) : NSString :=
  a.name ++ '=' :: a.quote :: (a.value ++ [a.quote])

def read (a : WrittenAttribute) : NSString × NSString := (a.name, unescapeXMLCData a.value)

end WrittenAttribute

namespace WrittenTag

structure WellFormed (t : WrittenTag) : Prop where
  name : IsName t.name
  attributes : ∀ a ∈ t.attributes, a.WellFormed
  distinct : (t.attributes.map (·.name)).Nodup
  space : ∀ c ∈ t.space, isspace c = true

/-- The attributes, each with the space before it, and the space before the end of the tag. -/
def attributesText (space : NSString) : List WrittenAttribute → NSString
  | [] => space
  | a :: attributes => a.space ++ (a.written ++ attributesText space attributes)

def written (t : WrittenTag) : NSString := t.name ++ attributesText t.space t.attributes

def endText : Bool → NSString
  | true => ['/', '>']
  | false => ['>']

def read (t : WrittenTag) : Attributes := t.attributes.map WrittenAttribute.read

end WrittenTag

section Scans

variable {b s rest : NSString} {c : Char} {i : ℕ}

theorem parseFrom_found (hb : b.drop i = s ++ c :: rest) (hs : c ∉ s) :
    parseFrom b i c = some (i + s.length) := by
  unfold parseFrom
  rw [hb]
  refine scanWhile_found ?_ (by simp) rest i
  intro d hd
  simp only [ne_eq, decide_not, Bool.not_eq_true', decide_eq_false_iff_not]
  rintro rfl
  exact hs hd

theorem ignoreWhiteSpaceFrom_found (hb : b.drop i = s ++ c :: rest)
    (hs : ∀ d ∈ s, isspace d = true) (hc : isspace c = false) :
    ignoreWhiteSpaceFrom b i = some (i + s.length) := by
  unfold ignoreWhiteSpaceFrom
  rw [hb]
  exact scanWhile_found hs hc rest i

theorem isNameChar_ne (h : isNameChar c = true) : isspace c = false ∧ c ≠ '<' ∧ c ≠ '>' ∧ c ≠ '/'
    ∧ c ≠ '=' ∧ c ≠ '!' ∧ c ≠ '?' := by
  unfold isNameChar at h
  simp only [mem_cons, not_mem_nil, or_false, not_or, Bool.and_eq_true,
    Bool.not_eq_true', decide_eq_true_eq] at h
  exact ⟨h.1, h.2.1, h.2.2.1, h.2.2.2.1, h.2.2.2.2.1, h.2.2.2.2.2.1, h.2.2.2.2.2.2.1⟩

def endsName (c : Char) : Bool := isspace c || c = '>' || c = '/'

theorem endsName_of_isNameChar (h : isNameChar c = true) : endsName c = false := by
  have h := isNameChar_ne h
  simp [endsName, h.1, h.2.2.1, h.2.2.2.1]

theorem scanName_step {start : NSString} {d : Char} {n : ℕ}
    (hstart : ¬ (n + 1 = 8 ∧ start.take 8 = CDATA)) (hc : endsName c = false) :
    scanName start (c :: d :: s) n = scanName start (d :: s) (n + 1) := by
  have hc : ¬ (isspace c || c = '>' || c = '/') = true := by
    rw [Bool.not_eq_true]
    exact hc
  rw [scanName, if_neg hc, if_neg hstart]

theorem scanName_found {start : NSString} (hstart : start.take 8 ≠ CDATA) (hc : endsName c = true) :
    ∀ {s : NSString} {n : ℕ}, (∀ d ∈ s, endsName d = false) →
      scanName start (s ++ c :: rest) n = (n + s.length, false)
  | [], n, _ => by
    rcases rest with _ | ⟨d, rest⟩
    · rfl
    · show scanName start (c :: d :: rest) n = _
      rw [scanName]
      exact if_pos hc
  | d :: s, n, hs => by
    have hd := hs d (by simp)
    have ih := @scanName_found start hstart hc s (n + 1) fun e he => hs e (by simp [he])
    rcases s with _ | ⟨e, s⟩
    · exact (scanName_step (fun h => hstart h.2) hd).trans ih
    · refine Eq.trans (scanName_step (fun h => hstart h.2) hd) ?_
      rw [length_cons, show n + ((e :: s).length + 1) = n + 1 + (e :: s).length by omega]
      exact ih

end Scans

section Attributes

variable {mode : MarkupLanguage} {space rest : NSString}

theorem parseAttribute_written {a : WrittenAttribute} (ha : a.WellFormed) {sp : NSString}
    (hsp : ∀ d ∈ sp, isspace d = true) {c : Char} (hc : isspace c = false)
    (attributes : Attributes) :
    parseAttribute (a.written ++ (sp ++ c :: rest)) mode 0 attributes
      = .ok (a.written.length + sp.length,
        setValue attributes a.name (unescapeXMLCData a.value)) := by
  have hb : a.written ++ (sp ++ c :: rest)
      = a.name ++ '=' :: (a.quote :: (a.value ++ a.quote :: (sp ++ c :: rest))) := by
    simp [WrittenAttribute.written]
  have hlen : a.written.length = a.name.length + 1 + (1 + a.value.length + 1) := by
    simp only [WrittenAttribute.written, length_append, length_cons, length_nil]
    omega
  have hname : '=' ∉ a.name := fun h => (isNameChar_ne (ha.name.chars _ h)).2.2.2.2.1 rfl
  have hdrop : ∀ k, (a.name ++ '=' :: (a.quote :: (a.value ++ a.quote :: (sp ++ c :: rest)))).drop
      (a.name.length + 1 + k) = (a.quote :: (a.value ++ a.quote :: (sp ++ c :: rest))).drop k := by
    intro k
    rw [show a.name.length + 1 + k = a.name.length + (k + 1) by omega, drop_after,
      drop_succ_cons]
  have hvalue := hdrop 1
  rw [drop_succ_cons, drop_zero] at hvalue
  have hend := hdrop (1 + a.value.length + 1)
  have hafter := drop_after a.value (a.quote :: (sp ++ c :: rest)) 1
  rw [drop_succ_cons, drop_zero] at hafter
  rw [show 1 + a.value.length + 1 = a.value.length + 1 + 1 by omega, drop_succ_cons,
    hafter, show a.value.length + 1 + 1 = 1 + a.value.length + 1 by omega] at hend
  have hquote := getElem?_after a.name
    ('=' :: (a.quote :: (a.value ++ a.quote :: (sp ++ c :: rest)))) 1
  rw [getElem?_cons_succ, getElem?_cons_zero] at hquote
  rw [hb, hlen]
  unfold parseAttribute
  rw [parseFrom_found (by rw [drop_zero]) hname, orFail_some_bind]
  dsimp only
  rw [Nat.zero_add, if_neg (by simp)]
  have hparse : parseValue (a.name ++ '=' :: (a.quote :: (a.value ++ a.quote :: (sp ++ c :: rest))))
      mode (a.name.length + 1) = .ok (a.value, a.name.length + 1 + (1 + a.value.length + 1)) := by
    unfold parseValue
    rw [hquote, orFail_some_bind, if_pos ha.quote]
    dsimp only
    rw [parseFrom_found hvalue ha.value, orFail_some_bind]
    dsimp only [currentString]
    rw [hvalue, Nat.add_sub_cancel_left, take_left]
    rw [show a.name.length + 1 + 1 + a.value.length + 1
      = a.name.length + 1 + (1 + a.value.length + 1) by omega]
    rfl
  rw [hparse]
  show (orFail _ (ignoreWhiteSpaceFrom _ (a.name.length + 1 + (1 + a.value.length + 1))) >>= _) = _
  rw [ignoreWhiteSpaceFrom_found hend hsp hc, orFail_some_bind]
  unfold currentString
  rw [drop_zero, Nat.sub_zero, take_left]
  rfl

open WrittenTag

theorem endText_cons (empty : Bool) : ∃ c cs, endText empty = c :: cs ∧ isspace c = false
    ∧ endsName c = true ∧ c ≠ '<' := by
  rcases empty with _ | _
  · exact ⟨'>', [], rfl, rfl, rfl, by decide⟩
  · exact ⟨'/', ['>'], rfl, rfl, rfl, by decide⟩

theorem written_cons {a : WrittenAttribute} (ha : a.WellFormed) : ∃ c d cs, a.written = c :: d :: cs
    ∧ isNameChar c = true ∧ (isNameChar d = true ∨ d = '=') := by
  have hchars := ha.name.chars
  obtain ⟨c, name, hname⟩ := exists_cons_of_ne_nil ha.name.nonempty
  unfold WrittenAttribute.written
  rw [hname] at hchars ⊢
  rcases name with _ | ⟨d, name⟩
  · exact ⟨c, '=', _, rfl, hchars c (by simp), .inr rfl⟩
  · exact ⟨c, d, _, rfl, hchars c (by simp), .inl (hchars d (by simp))⟩

def nextSpace (space : NSString) : List WrittenAttribute → NSString
  | [] => space
  | a :: _ => a.space

def afterSpace (space : NSString) : List WrittenAttribute → NSString
  | [] => []
  | a :: attributes => a.written ++ attributesText space attributes

theorem attributesText_eq (space : NSString) (attributes : List WrittenAttribute) :
    attributesText space attributes
      = nextSpace space attributes ++ afterSpace space attributes := by
  rcases attributes with _ | ⟨a, attributes⟩
  · exact (append_nil space).symm
  · rfl

theorem afterSpace_cons_eq (space : NSString) (a : WrittenAttribute)
    (attributes : List WrittenAttribute) : afterSpace space (a :: attributes)
      = a.written ++ (nextSpace space attributes ++ afterSpace space attributes) := by
  rw [← attributesText_eq]
  rfl

theorem nextSpace_isspace {attributes : List WrittenAttribute}
    (ha : ∀ a ∈ attributes, a.WellFormed) (hspace : ∀ c ∈ space, isspace c = true) :
    ∀ c ∈ nextSpace space attributes, isspace c = true := by
  rcases attributes with _ | ⟨a, attributes⟩
  · exact hspace
  · exact (ha a (by simp)).space

theorem afterSpace_cons {attributes : List WrittenAttribute} (ha : ∀ a ∈ attributes, a.WellFormed)
    (empty : Bool) (rest : NSString) : ∃ c cs,
      afterSpace space attributes ++ (endText empty ++ rest) = c :: cs ∧ isspace c = false := by
  rcases attributes with _ | ⟨a, attributes⟩
  · obtain ⟨c, cs, hc, hspace, -, -⟩ := endText_cons empty
    exact ⟨c, cs ++ rest, by simp [afterSpace, hc], hspace⟩
  · obtain ⟨c, d, cs, hc, hname, -⟩ := written_cons (ha a (by simp))
    exact ⟨c, d :: (cs ++ attributesText space attributes ++ (endText empty ++ rest)),
      by simp [afterSpace, hc], (isNameChar_ne hname).1⟩

theorem parseAttributes_endText (empty : Bool) (fuel : ℕ) (attributes : Attributes) :
    parseAttributes (endText empty ++ rest) mode (fuel + 1) 0 attributes = .ok (0, attributes) := by
  unfold parseAttributes
  rcases empty with _ | _
  · rfl
  · have hend : isEndAfter (endText true ++ rest) 0 = true := rfl
    show (orFail _ (some '/') >>= _) = _
    rw [orFail_some_bind, hend, if_neg (by simp), if_pos (by simp)]
    rfl

theorem parseAttributes_written (hspace : ∀ c ∈ space, isspace c = true) (empty : Bool) :
    ∀ (attributes : List WrittenAttribute) (acc : Attributes) (fuel : ℕ),
      (∀ a ∈ attributes, a.WellFormed) →
      parseAttributes (afterSpace space attributes ++ (endText empty ++ rest)) mode
        (attributes.length + fuel + 1) 0 acc
      = .ok ((afterSpace space attributes).length,
          (attributes.map WrittenAttribute.read).foldl (fun acc a => setValue acc a.1 a.2) acc)
  | [], acc, fuel, _ => parseAttributes_endText empty _ acc
  | a :: attributes, acc, fuel, ha => by
    have hwf := ha a (by simp)
    have hrest : ∀ b ∈ attributes, b.WellFormed := fun b hb => ha b (by simp [hb])
    have ih := parseAttributes_written hspace empty attributes
      (setValue acc a.name (unescapeXMLCData a.value)) fuel hrest
    obtain ⟨c, cs, hcs, hc⟩ := @afterSpace_cons space attributes hrest empty rest
    have htext : afterSpace space (a :: attributes) ++ (endText empty ++ rest)
        = a.written ++ (nextSpace space attributes
          ++ (afterSpace space attributes ++ (endText empty ++ rest))) := by
      rw [afterSpace_cons_eq, append_assoc, append_assoc]
    have hparse := @parseAttribute_written mode cs a hwf _
      (nextSpace_isspace hrest hspace) c hc acc
    rw [← hcs] at hparse
    have hafter := parseAttributes_after (a.written ++ nextSpace space attributes) mode
      (afterSpace space attributes ++ (endText empty ++ rest)) (attributes.length + fuel + 1) 0
      (setValue acc a.name (unescapeXMLCData a.value))
    rw [ih, append_assoc, length_append] at hafter
    obtain ⟨d, e, ds, hds, hd, he⟩ := written_cons hwf
    have hloop : ∀ t : NSString, d ≠ '>' ∧ 0 + 1 < (a.written ++ t).length
        ∧ isEndAfter (a.written ++ t) 0 = false := by
      intro t
      rw [hds]
      refine ⟨(isNameChar_ne hd).2.2.1, by simp, ?_⟩
      have hgt : e ≠ '>' := by
        rcases he with he | rfl
        · exact (isNameChar_ne he).2.2.1
        · decide
      simp [isEndAfter, hgt]
    rw [htext, length_cons, show attributes.length + 1 + fuel + 1
      = attributes.length + fuel + 1 + 1 by omega]
    rw [parseAttributes]
    have hfirst : ∀ t : NSString, (a.written ++ t)[0]? = some d := by
      intro t
      rw [hds]
      rfl
    rw [hfirst, orFail_some_bind, if_pos (hloop _), hparse]
    show parseAttributes _ mode (attributes.length + fuel + 1) _ _ = _
    refine Eq.trans hafter ?_
    rw [afterSpace_cons_eq, length_append, length_append, ← Nat.add_assoc]
    rfl

theorem setValue_fresh {attributes : Attributes} {name value : NSString}
    (h : name ∉ attributes.map (·.1)) :
    setValue attributes name value = attributes ++ [(name, value)] := by
  unfold setValue
  rw [if_neg]
  simp only [any_eq_true, decide_eq_true_eq, not_exists, not_and]
  rintro a ha rfl
  exact h (mem_map_of_mem ha)

theorem foldl_setValue : ∀ (attributes acc : Attributes),
    ((acc ++ attributes).map (·.1)).Nodup →
    attributes.foldl (fun acc a => setValue acc a.1 a.2) acc = acc ++ attributes
  | [], acc, _ => (append_nil acc).symm
  | a :: attributes, acc, h => by
    have hfresh : a.1 ∉ acc.map (·.1) := by
      intro hmem
      rw [map_append, nodup_append] at h
      exact h.2.2 _ hmem _ (by simp) rfl
    rw [foldl_cons, setValue_fresh hfresh,
      foldl_setValue attributes (acc ++ [a]) (by simpa using h), append_assoc]
    rfl

end Attributes

section ParseTag

variable {mode : MarkupLanguage} {t : WrittenTag} {rest : NSString}

theorem not_ISCOMMENT {name : NSString} (h : IsName name) : ISCOMMENT name = false := by
  obtain ⟨c, cs, rfl⟩ := exists_cons_of_ne_nil h.nonempty
  have hc := (isNameChar_ne (h.chars c (by simp))).2.2.2.2.2.1
  simp [ISCOMMENT, isPrefixOf, Ne.symm hc]

theorem ne_CDATA {name : NSString} (h : IsName name) : name ≠ CDATA := by
  rintro rfl
  exact absurd (h.chars '!' (by decide)) (by decide)

open WrittenTag

theorem length_le_attributesText (space : NSString) : ∀ attributes : List WrittenAttribute,
    attributes.length ≤ (attributesText space attributes).length
  | [] => Nat.zero_le _
  | a :: attributes => by
    have ih := length_le_attributesText space attributes
    simp only [attributesText, WrittenAttribute.written, length_append, length_cons]
    omega

theorem nextSpace_cons {space : NSString} {attributes : List WrittenAttribute}
    (ha : ∀ a ∈ attributes, a.WellFormed) (hspace : ∀ c ∈ space, isspace c = true) (empty : Bool)
    (rest : NSString) : ∃ c cs, nextSpace space attributes ++ (afterSpace space attributes
      ++ (endText empty ++ rest)) = c :: cs ∧ endsName c = true := by
  have hall := nextSpace_isspace ha hspace
  rcases hs : nextSpace space attributes with _ | ⟨c, cs⟩
  · rcases attributes with _ | ⟨a, attributes⟩
    · obtain ⟨d, ds, hd, -, hends, -⟩ := endText_cons empty
      exact ⟨d, ds ++ rest, by simp [afterSpace, hd], hends⟩
    · exact absurd hs (ha a (by simp)).space_ne
  · rw [hs] at hall
    exact ⟨c, _, rfl, by simp [endsName, hall c (by simp)]⟩

theorem parseTagFrom_written (ht : t.WellFormed) (empty : Bool) :
    parseTagFrom (t.written ++ (endText empty ++ rest)) mode 0
      = .ok { index := t.written.length, name := t.name, attributes := t.read } := by
  obtain ⟨c, cs, hname⟩ := exists_cons_of_ne_nil ht.name.nonempty
  have hc := isNameChar_ne (ht.name.chars c (by rw [hname]; simp))
  have hfirst : ∀ {p : Char → Bool}, p c = false →
      scanWhile p ((t.written ++ (endText empty ++ rest)).drop 0) 0 = some 0 := by
    intro p hp
    unfold WrittenTag.written
    rw [hname]
    exact if_neg (by rw [hp]; simp)
  obtain ⟨d, ds, hds, hd⟩ := @afterSpace_cons t.space t.attributes ht.attributes empty rest
  have htext : t.written ++ (endText empty ++ rest) = t.name ++
      (nextSpace t.space t.attributes ++ (afterSpace t.space t.attributes
        ++ (endText empty ++ rest))) := by
    rw [WrittenTag.written, attributesText_eq, append_assoc, append_assoc]
  have hlen : t.written.length = t.name.length + ((nextSpace t.space t.attributes).length
      + (afterSpace t.space t.attributes).length) := by
    rw [WrittenTag.written, attributesText_eq, length_append, length_append]
  have hscan : scanName (t.written ++ (endText empty ++ rest))
      (t.written ++ (endText empty ++ rest))
      0 = (t.name.length, false) := by
    obtain ⟨e, es, hes, he⟩ := nextSpace_cons ht.attributes ht.space empty rest
    have hstart : (t.written ++ (endText empty ++ rest)).take 8 ≠ CDATA := by
      unfold WrittenTag.written
      rw [hname]
      intro h
      exact hc.2.2.2.2.2.1 (cons.inj h).1
    have hfound := @scanName_found es e _ hstart he t.name 0
      fun f hf => endsName_of_isNameChar (ht.name.chars f hf)
    rw [← hes, ← htext, Nat.zero_add] at hfound
    exact hfound
  have hdrop := drop_after t.name (nextSpace t.space t.attributes
    ++ (afterSpace t.space t.attributes ++ (endText empty ++ rest))) 0
  rw [← htext, drop_zero, hds, Nat.add_zero] at hdrop
  have htake : (t.written ++ (endText empty ++ rest)).take t.name.length = t.name := by
    rw [htext, take_left]
  have hspace := ignoreWhiteSpaceFrom_found hdrop (nextSpace_isspace ht.attributes ht.space) hd
  have hattributes : parseAttributes (t.written ++ (endText empty ++ rest)) mode
      ((t.written ++ (endText empty ++ rest)).length + 1)
      (t.name.length + (nextSpace t.space t.attributes).length) []
      = .ok (t.written.length, t.read) := by
    have hfuel : ∃ fuel, (t.written ++ (endText empty ++ rest)).length + 1
        = t.attributes.length + fuel + 1 := by
      have := length_le_attributesText t.space t.attributes
      refine ⟨(t.written ++ (endText empty ++ rest)).length - t.attributes.length, ?_⟩
      simp only [WrittenTag.written, length_append]
      omega
    obtain ⟨fuel, hfuel⟩ := hfuel
    have hafter := parseAttributes_after (t.name ++ nextSpace t.space t.attributes) mode
      (afterSpace t.space t.attributes ++ (endText empty ++ rest)) (t.attributes.length + fuel + 1)
      0 []
    rw [parseAttributes_written ht.space empty t.attributes [] fuel ht.attributes,
      foldl_setValue _ _ (by simpa [WrittenAttribute.read, Function.comp_def] using ht.distinct),
      append_assoc, ← htext, length_append] at hafter
    rw [hfuel]
    refine Eq.trans hafter ?_
    rw [hlen, ← Nat.add_assoc]
    rfl
  unfold parseTagFrom ignoreWhiteSpaceFrom
  rw [hfirst hc.1, orFail_some_bind, hfirst (by simp [hc.2.1, hc.2.2.2.1]), orFail_some_bind,
    hfirst hc.1, orFail_some_bind, drop_zero, hscan]
  dsimp only
  rw [htake, if_neg (by simp), not_ISCOMMENT ht.name, if_neg (by simp), Nat.zero_add]
  show (orFail _ (ignoreWhiteSpaceFrom _ _) >>= _) = _
  rw [hspace, orFail_some_bind, hattributes]
  rfl

end ParseTag

end Etoile.EtoileXML
