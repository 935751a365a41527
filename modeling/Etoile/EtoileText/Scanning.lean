import Mathlib.Algebra.Group.Nat.Defs
import Etoile.EtoileText.TeXScanner
import Mathlib.Data.List.TakeWhile

/-!
# The tokens that are scanned

The buffer does not matter to what the delegate is told: it is told the tokens that are found in
one pass, but for what the scanner takes for a command at the end of the string and for a dash.
-/

namespace Etoile.EtoileText

open List

def backslashScanned (t : List Unichar) : Option ScannerEvent × ℕ :=
  if t = [] then (none, 0)
  else if t.head?.any isEscaped then (some (.handleText (t.take 1)), 1)
  else if t.any isCommandEnd then
    (some (.beginCommand (t.takeWhile (!isCommandEnd ·))), (t.takeWhile (!isCommandEnd ·)).length)
  else (some (.beginCommand t.dropLast), t.dropLast.length)

def hyphenScanned (t : List Unichar) : Option ScannerEvent × ℕ :=
  if t.take 1 = [↑ '-'] then
    if t.length > 1 then (some (.handleText [8212]), 2) else (some (.handleText [8211]), 1)
  else (some (.handleText [↑ '-']), 0)

/-- The token that the scanner finds, or `none` where it raises. -/
def scanned (c : Unichar) (t : List Unichar) : Option ScannerEvent × ℕ :=
  if c = '\\' then backslashScanned t
  else if c = '-' then hyphenScanned t
  else (some (otherLexeme c t).1, (otherLexeme c t).2)

/-- A backslash is followed by an escaped character or by the end of a command, and two hyphens by
the end of the string or by a third. -/
def Faultless (c : Unichar) (t : List Unichar) : Prop :=
  if c = '\\' then t.head?.any isEscaped = true ∨ t.any isCommandEnd = true
  else c = '-' → t.take 1 = [↑ '-'] → t.length > 1 → t.take 2 = [↑ '-', ↑ '-']

def NamesFit (s : NSString) : Prop :=
  ∀ i, ((s.drop i).takeWhile (!isCommandEnd ·)).length + bufferSize < 2 ^ 32

theorem takeWhile_of_not_any {t : List Unichar} (h : ¬ t.any isCommandEnd = true) :
    t.takeWhile (!isCommandEnd ·) = t := by
  rw [takeWhile_eq_self_iff]
  intro c hc
  have := any_eq_false.1 (Bool.eq_false_of_not_eq_true h) c hc
  simpa using this

theorem backslashScanned_eq_iff (t : List Unichar) :
    (backslashScanned t = (some (backslashLexeme t).1, (backslashLexeme t).2)
        ↔ t.head?.any isEscaped = true ∨ t.any isCommandEnd = true)
      ∧ ((backslashScanned t).1 = some (backslashLexeme t).1 →
        t.head?.any isEscaped = true ∨ t.any isCommandEnd = true) := by
  unfold backslashScanned backslashLexeme
  by_cases ht : t = []
  · subst ht
    refine ⟨⟨nofun, ?_⟩, nofun⟩
    rintro (h | h) <;> cases h
  rw [if_neg ht]
  by_cases he : t.head?.any isEscaped = true
  · rw [if_pos he, if_pos he]
    exact ⟨⟨fun _ => .inl he, fun _ => rfl⟩, fun _ => .inl he⟩
  rw [if_neg he, if_neg he]
  by_cases hany : t.any isCommandEnd = true
  · rw [if_pos hany]
    exact ⟨⟨fun _ => .inr hany, fun _ => rfl⟩, fun _ => .inr hany⟩
  -- the last character is missing from the name
  have hne : t.dropLast ≠ t := fun h => by
    have hlen := congrArg length h
    have hpos := length_pos_of_ne_nil ht
    rw [length_dropLast] at hlen
    omega
  rw [if_neg hany, takeWhile_of_not_any hany]
  have hdiff : some (ScannerEvent.beginCommand t.dropLast) ≠ some (.beginCommand t) := by
    simpa using hne
  refine ⟨⟨fun h => absurd (congrArg Prod.fst h) hdiff, ?_⟩, fun h => absurd h hdiff⟩
  rintro (h | h)
  · exact absurd h he
  · exact absurd h hany

theorem hyphenScanned_eq_iff (t : List Unichar) :
    (hyphenScanned t = (some (hyphenLexeme t).1, (hyphenLexeme t).2)
        ↔ (t.take 1 = [↑ '-'] → t.length > 1 → t.take 2 = [↑ '-', ↑ '-']))
      ∧ ((hyphenScanned t).1 = some (hyphenLexeme t).1 →
        t.take 1 = [↑ '-'] → t.length > 1 → t.take 2 = [↑ '-', ↑ '-']) := by
  have htake : t.take 2 = [↑ '-', ↑ '-'] → t.take 1 = [↑ '-'] ∧ t.length > 1 := by
    intro h
    refine ⟨?_, ?_⟩
    · have := congrArg (take 1) h
      rwa [take_take] at this
    · have := congrArg length h
      rw [length_take] at this
      simp at this
      omega
  unfold hyphenScanned hyphenLexeme
  split_ifs with h1 hlong h2 h2
  · exact ⟨⟨fun _ _ _ => h2, fun _ => rfl⟩, fun _ _ _ => h2⟩
  · refine ⟨⟨nofun, fun h => absurd (h h1 hlong) h2⟩, nofun⟩
  · exact absurd (htake h2).2 hlong
  · exact ⟨⟨fun _ _ h => absurd h hlong, fun _ => rfl⟩, fun _ _ h => absurd h hlong⟩
  · exact absurd (htake ‹_›).1 h1
  · exact ⟨⟨fun _ h => absurd h h1, fun _ => rfl⟩, fun _ h => absurd h h1⟩

theorem scanned_eq_iff (c : Unichar) (t : List Unichar) :
    (scanned c t = (some (lexeme c t).1, (lexeme c t).2) ↔ Faultless c t)
      ∧ ((scanned c t).1 = some (lexeme c t).1 → Faultless c t) := by
  unfold scanned lexeme Faultless
  split_ifs with hb hh
  · exact backslashScanned_eq_iff t
  · exact ⟨(hyphenScanned_eq_iff t).1.trans ⟨fun h _ => h, fun h => h hh⟩,
      fun h _ => (hyphenScanned_eq_iff t).2 h⟩
  · exact ⟨⟨fun _ h => absurd h hh, fun _ => rfl⟩, fun _ h => absurd h hh⟩

theorem tokens_scanned_iff (s : NSString) :
    tokens scanned s = (tokens lexeme s).map some ↔ Throughout Faultless lexeme s := by
  rw [← tokens_map, tokens_eq_iff fun c t h => (scanned_eq_iff c t).1.2 ((scanned_eq_iff c t).2 h)]
  exact throughout_congr (f := fun c t => (some (lexeme c t).1, (lexeme c t).2)) (g := lexeme)
    (fun c t => (scanned_eq_iff c t).1) (fun _ _ => rfl) s

end Etoile.EtoileText

/-!
## Scanning through the buffer

In every state the tokens of the string are those the delegate was told, the text that is still to
be passed on, and the tokens of the string from the index on.
-/

namespace Etoile.EtoileText

open List Nat Option

namespace Scan

variable {s : NSString} {st st' : Scan} {c : Unichar} {e : ScannerEvent} {k b : ℕ}

def pending (s : NSString) (st : Scan) : NSString :=
  (s.drop st.textRange.location).take st.textRange.length

def told (s : NSString) (st : Scan) : List ScannerEvent :=
  st.delegate.flatMap (·.pieces) ++ (st.pending s).map fun c => .handleText [c]

structure TextEnds (s : NSString) (st : Scan) : Prop where
  text : st.textRange.location + st.textRange.length = st.idx
  le : st.idx ≤ s.length

/-- A token has been taken that ends `k` characters after the index. -/
structure Took (s : NSString) (st : Scan) (e : ScannerEvent) (k : ℕ) (st' : Scan) : Prop where
  buffer : st'.buffer = st.buffer
  length : st'.range.length = st.range.length
  idx : st'.idx = st.idx + k
  i : st'.i = st.i + k.toUInt32
  location : st'.range.location =
    if (st'.i + 1).toNat > st.range.length then st'.idx + 1 else st.range.location
  text : st'.textRange.location + st'.textRange.length = st'.idx + 1
  told : st'.told s = st.told s ++ [e]

inductive Takes (s : NSString) (st : Scan) : Option ScannerEvent × ℕ → Option Scan → Prop
  | raises (k : ℕ) : Takes s st (none, k) none
  | took {e : ScannerEvent} {k : ℕ} {st' : Scan} (h : Took s st e k st') :
    Takes s st (some e, k) (some st')

theorem passText_eq (h : st.TextEnds s) : ∃ delegate, st.passText s =
    some { st with delegate := delegate, textRange := ⟨st.idx + 1, 0⟩ }
      ∧ delegate.flatMap (·.pieces) = st.told s := by
  have hle : st.textRange.location + st.textRange.length ≤ s.length := by
    rw [h.text]
    exact h.le
  unfold passText
  split_ifs with hpos
  · refine ⟨st.delegate ++ [.handleText (st.pending s)], ?_, ?_⟩
    · rw [substringWithRange, if_pos hle]
      rfl
    · rw [flatMap_append]
      simp only [told, flatMap_cons, flatMap_nil, append_nil,
        ScannerEvent.pieces]
  · have hzero : st.textRange.length = 0 := by omega
    refine ⟨st.delegate, ?_, ?_⟩
    · rw [hzero]
    · simp only [told, pending, hzero, take_zero, map_nil, append_nil]

def take (delegate : List ScannerEvent) (k : ℕ) (st : Scan) : Scan :=
  { (st.skip k).leaveBuffer with delegate := delegate, textRange := ⟨st.idx + k + 1, 0⟩ }

theorem took_of_leaveBuffer {delegate : List ScannerEvent} {textRange : NSRange}
    (htext : textRange.location + textRange.length = st.idx + k + 1)
    (htold : told s { st with delegate := delegate, textRange := textRange } = st.told s ++ [e]) :
    Took s st e k
      { (st.skip k).leaveBuffer with delegate := delegate, textRange := textRange } where
  buffer := rfl
  length := rfl
  idx := rfl
  i := rfl
  location := rfl
  text := htext
  told := htold

theorem took_take {delegate : List ScannerEvent} (h : delegate.flatMap (·.pieces) = st.told s)
    (he : e.pieces = [e]) : Took s st e k (st.take (delegate ++ [e]) k) := by
  refine took_of_leaveBuffer rfl ?_
  simp only [told, pending, take_zero, map_nil, append_nil, flatMap_append,
    flatMap_cons, flatMap_nil, he, h]

theorem take_zero (hi : (st.i + 1).toNat ≤ st.range.length) (delegate : List ScannerEvent) :
    st.take delegate 0 = { st with delegate := delegate, textRange := ⟨st.idx + 1, 0⟩ } := by
  have hskip : st.skip 0 = st := by
    show { st with idx := st.idx + 0, i := st.i + 0 } = st
    rw [UInt32.add_zero]
    rfl
  unfold take
  rw [hskip, leaveBuffer, if_neg (by omega)]

theorem takes_scanArgument (h : st.TextEnds s) (hi : (st.i + 1).toNat ≤ st.range.length)
    (he : e.pieces = [e]) : Takes s st (some e, 0) (st.scanArgument s e) := by
  obtain ⟨delegate, hpass, hdelegate⟩ := passText_eq h
  have heq : st.scanArgument s e = some (st.take (delegate ++ [e]) 0) := by
    rw [take_zero hi, scanArgument, hpass]
    rfl
  rw [heq]
  exact .took (took_take hdelegate he)

theorem takes_scanText (h : st.TextEnds s) (hi : (st.i + 1).toNat ≤ st.range.length)
    (hc : s[st.idx]? = some c) : Takes s st (some (.handleText [c]), 0) (some st.scanText) := by
  refine .took ⟨rfl, rfl, rfl, (UInt32.add_zero _).symm, (if_neg (not_lt.2 hi)).symm, ?_, ?_⟩
  · show st.textRange.location + (st.textRange.length + 1) = st.idx + 1
    rw [← h.text, Nat.add_assoc]
  · have hget : (s.drop st.textRange.location)[st.textRange.length]? = some c := by
      rw [getElem?_drop, h.text, hc]
    have htake : (s.drop st.textRange.location).take (st.textRange.length + 1)
        = st.pending s ++ [c] := by
      rw [take_add_one, hget]
      rfl
    have hpending : st.scanText.pending s = st.pending s ++ [c] := htake
    rw [told, hpending, map_append, ← append_assoc]
    rfl

theorem next_eq_iff (s : NSString) (i : ℕ) (mark : Unichar) :
    (i < s.length ∧ characterAtIndex s i = some mark) ↔ (s.drop i).take 1 = [mark] := by
  rw [take_one, head?_drop, characterAtIndex]
  constructor
  · rintro ⟨-, h⟩
    rw [h]
    rfl
  · intro h
    have hget : s[i]? = some mark := by
      cases hget : s[i]? with
      | none => rw [hget] at h; cases h
      | some c => rw [hget] at h; cases h; rfl
    exact ⟨(List.getElem?_eq_some_iff.1 hget).1, hget⟩

theorem takes_scanQuote (mark single double : Unichar) (h : st.TextEnds s)
    (hi : (st.i + 1).toNat ≤ st.range.length) :
    Takes s st (if (s.drop (st.idx + 1)).take 1 = [mark] then (some (.handleText [double]), 1)
      else (some (.handleText [single]), 0)) (st.scanQuote s mark single double) := by
  obtain ⟨delegate, hpass, hdelegate⟩ := passText_eq h
  by_cases hnext : (s.drop (st.idx + 1)).take 1 = [mark]
  · have heq : st.scanQuote s mark single double
        = some (st.take (delegate ++ [.handleText [double]]) 1) := by
      rw [scanQuote, hpass, map_some, if_pos ((next_eq_iff s _ mark).2 hnext)]
      rfl
    rw [if_pos hnext, heq]
    exact .took (took_take hdelegate rfl)
  · have heq : st.scanQuote s mark single double
        = some (st.take (delegate ++ [.handleText [single]]) 0) := by
      rw [take_zero hi, scanQuote, hpass, map_some,
        if_neg (mt (next_eq_iff s _ mark).1 hnext)]
      rfl
    rw [if_neg hnext, heq]
    exact .took (took_take hdelegate rfl)

theorem takes_scanHyphen (h : st.TextEnds s) (hi : (st.i + 1).toNat ≤ st.range.length)
    (hc : s[st.idx]? = some ↑ '-') :
    Takes s st (hyphenScanned (s.drop (st.idx + 1))) (st.scanHyphen s) := by
  obtain ⟨delegate, hpass, hdelegate⟩ := passText_eq h
  unfold hyphenScanned scanHyphen
  by_cases hnext : (s.drop (st.idx + 1)).take 1 = [↑ '-']
  · have hmark := (next_eq_iff s _ _).2 hnext
    rw [if_pos hnext, if_pos hmark, hpass, map_some, length_drop]
    by_cases hlong : s.length - (st.idx + 1) > 1
    · rw [if_pos hlong, dash, if_pos ⟨show st.idx + 2 < s.length by omega, hmark.2⟩]
      exact .took (took_take hdelegate rfl)
    · rw [if_neg hlong, dash, if_neg fun hdash : st.idx + 2 < s.length ∧ _ => by omega]
      exact .took (took_take hdelegate rfl)
  · rw [if_neg hnext, if_neg (mt (next_eq_iff s _ _).1 hnext)]
    exact takes_scanText h hi hc

theorem findIdx?_isCommandEnd (t : List Unichar) : t.findIdx? isCommandEnd =
    if t.any isCommandEnd then some (t.takeWhile (!isCommandEnd ·)).length else none := by
  induction t with
  | nil => rfl
  | cons c t ih =>
    rw [findIdx?_cons, any_cons, takeWhile_cons, ih]
    cases hc : isCommandEnd c
    · cases t.any isCommandEnd <;> rfl
    · rfl

theorem takes_scanCommand (h : st.TextEnds s) (hne : s.drop (st.idx + 1) ≠ []) :
    Takes s st (if (s.drop (st.idx + 1)).any isCommandEnd then
        (some (.beginCommand ((s.drop (st.idx + 1)).takeWhile (!isCommandEnd ·))),
          ((s.drop (st.idx + 1)).takeWhile (!isCommandEnd ·)).length)
      else (some (.beginCommand (s.drop (st.idx + 1)).dropLast),
        (s.drop (st.idx + 1)).dropLast.length)) (st.scanCommand s) := by
  obtain ⟨delegate, hpass, hdelegate⟩ := passText_eq h
  have hcommand : ∀ name, name <+: s.drop (st.idx + 1) →
      (rangeOfCommandEnd s (st.idx + 1)).getD (s.length - 1) - (st.idx + 1) = name.length →
      Takes s st (some (.beginCommand name), name.length) (st.scanCommand s) := by
    intro name hname hlength
    have hle := hname.length_le
    have hpos := length_pos_of_ne_nil hne
    rw [length_drop] at hle hpos
    have hsub : substringWithRange s ⟨st.idx + 1, name.length⟩ = some name := by
      rw [substringWithRange, if_pos (show st.idx + 1 + name.length ≤ s.length by omega)]
      exact congrArg some (prefix_iff_eq_take.1 hname).symm
    have heq : st.scanCommand s
        = some (st.take (delegate ++ [.beginCommand name]) name.length) := by
      rw [scanCommand, hpass]
      simp only [bind_some, hlength, hsub, map_some]
      rfl
    rw [heq]
    exact .took (took_take hdelegate rfl)
  split_ifs with hany
  · refine hcommand _ (List.takeWhile_prefix _) ?_
    rw [rangeOfCommandEnd, findIdx?_isCommandEnd, if_pos hany, map_some, getD_some]
    omega
  · refine hcommand _ (List.dropLast_prefix _) ?_
    rw [rangeOfCommandEnd, findIdx?_isCommandEnd, if_neg hany, map_none, getD_none,
      length_dropLast, length_drop]
    omega

theorem takes_scanBackslash (h : st.TextEnds s) (hc : s[st.idx]? = some c) :
    Takes s st (backslashScanned (s.drop (st.idx + 1))) (st.scanBackslash s) := by
  obtain ⟨delegate, hpass, hdelegate⟩ := passText_eq h
  have hlt : st.idx < s.length := (List.getElem?_eq_some_iff.1 hc).1
  have hhead : (s.drop (st.idx + 1)).head? = characterAtIndex s (st.idx + 1) := head?_drop ..
  unfold backslashScanned scanBackslash
  rw [if_pos (Nat.ne_of_lt hlt), hhead]
  cases hnext : characterAtIndex s (st.idx + 1) with
  | none =>
    have hnil : s.drop (st.idx + 1) = [] := head?_eq_none_iff.1 (hhead.trans hnext)
    rw [if_pos hnil]
    exact .raises 0
  | some c =>
    have hne : s.drop (st.idx + 1) ≠ [] := fun hnil => by
      rw [hnil, hnext] at hhead
      cases hhead
    rw [if_neg hne, any_some, bind_some]
    by_cases he : isEscaped c = true
    · rw [if_pos he, if_pos he, take_one, hhead, hnext, scanEscaped, hpass]
      have htext : (⟨st.idx + 1, 1⟩ : NSRange).location + (⟨st.idx + 1, 1⟩ : NSRange).length
          = st.idx + 1 + 1 := rfl
      refine .took (took_of_leaveBuffer htext ?_)
      have htake : (s.drop (st.idx + 1)).take 1 = [c] := by
        rw [take_one, hhead, hnext]
        rfl
      show delegate.flatMap _ ++ ((s.drop (st.idx + 1)).take 1).map _ = _
      rw [hdelegate, htake]
      rfl
    · rw [if_neg he, if_neg he]
      exact takes_scanCommand h hne

theorem takes_scanCharacter (h : st.TextEnds s) (hi : (st.i + 1).toNat ≤ st.range.length)
    (hc : s[st.idx]? = some c) :
    Takes s st (scanned c (s.drop (st.idx + 1))) (st.scanCharacter s c) := by
  by_cases hb : c = '\\'
  · subst hb
    exact takes_scanBackslash h hc
  by_cases hh : c = '-'
  · subst hh
    exact takes_scanHyphen h hi hc
  rw [scanned, if_neg hb, if_neg hh]
  unfold scanCharacter otherLexeme
  rw [if_neg hb, if_neg hh]
  by_cases h1 : c = '{'
  · rw [if_pos h1, if_pos h1]
    exact takes_scanArgument h hi rfl
  rw [if_neg h1, if_neg h1]
  by_cases h2 : c = '}'
  · rw [if_pos h2, if_pos h2]
    exact takes_scanArgument h hi rfl
  rw [if_neg h2, if_neg h2]
  by_cases h3 : c = '['
  · rw [if_pos h3, if_pos h3]
    exact takes_scanArgument h hi rfl
  rw [if_neg h3, if_neg h3]
  by_cases h4 : c = ']'
  · rw [if_pos h4, if_pos h4]
    exact takes_scanArgument h hi rfl
  rw [if_neg h4, if_neg h4]
  by_cases h5 : c = '\''
  · rw [if_pos h5, if_pos h5]
    have hquote := takes_scanQuote '\'' 8217 8221 h hi
    split_ifs at hquote ⊢ <;> exact hquote
  rw [if_neg h5, if_neg h5]
  by_cases h6 : c = '`'
  · rw [if_pos h6, if_pos h6]
    have hquote := takes_scanQuote '`' 8216 8220 h hi
    split_ifs at hquote ⊢ <;> exact hquote
  rw [if_neg h6, if_neg h6]
  exact takes_scanText h hi hc

/-- The buffer holds the characters from `b` on. -/
structure InBuffer (s : NSString) (b : ℕ) (st : Scan) : Prop extends TextEnds s st where
  buffer : st.buffer = (s.drop b).take st.range.length
  length : st.range.length = bufferSize ∧ b + bufferSize ≤ s.length
    ∨ b + st.range.length = s.length ∧ st.range.length < bufferSize
  index : st.idx = b + st.i.toNat
  location : st.range.location =
    if st.i.toNat > st.range.length then st.idx else b + bufferSize
  found : tokens scanned s = (st.told s).map some ++ tokens scanned (s.drop st.idx)

theorem length_of_take_one {t : List Unichar} (h : t.take 1 = [c]) : 1 ≤ t.length := by
  cases t with
  | nil => cases h
  | cons _ t => exact Nat.le_add_left 1 t.length

theorem otherLexeme_le (c : Unichar) (t : List Unichar) :
    (otherLexeme c t).2 ≤ 1 ∧ (otherLexeme c t).2 ≤ t.length := by
  unfold otherLexeme
  split_ifs
  all_goals first
    | exact ⟨zero_le _, zero_le _⟩
    | exact ⟨le_rfl, length_of_take_one ‹_›⟩

theorem scanned_le {t : List Unichar} (hfit : (t.takeWhile (!isCommandEnd ·)).length + 64 < 2 ^ 32)
    (c : Unichar) : (scanned c t).2 + 64 < 2 ^ 32
      ∧ ((scanned c t).1 ≠ none → (scanned c t).2 ≤ t.length) := by
  obtain ⟨h1, h2⟩ := otherLexeme_le c t
  unfold scanned backslashScanned hyphenScanned
  split_ifs with hb ht he hany hh hnext hlong
  · exact ⟨lt_of_le_of_lt (Nat.le_add_left ..) hfit, fun h => absurd rfl h⟩
  · exact ⟨show 1 + 64 < 2 ^ 32 by decide, fun _ => length_pos_of_ne_nil ht⟩
  · exact ⟨hfit, fun _ => (List.takeWhile_prefix _).length_le⟩
  · rw [takeWhile_of_not_any hany] at hfit
    have hdrop : t.dropLast.length ≤ t.length := (List.dropLast_prefix t).length_le
    exact ⟨by omega, fun _ => hdrop⟩
  · exact ⟨by decide, fun _ => hlong⟩
  · exact ⟨by decide, fun _ => length_of_take_one hnext⟩
  · exact ⟨by decide, fun _ => zero_le _⟩
  · exact ⟨by omega, fun _ => h2⟩

theorem InBuffer.lt (h : InBuffer s b st) (hnext : st.hasNext = true) :
    st.idx < s.length ∧ st.i.toNat < st.range.length ∧ st.range.length ≤ 64
      ∧ (st.i + 1).toNat = st.i.toNat + 1 := by
  have hlt : st.i.toNat < st.range.length := of_decide_eq_true hnext
  have hindex := h.index
  have hlength : st.range.length ≤ 64 ∧ b + st.range.length ≤ s.length := by
    rcases h.length with ⟨h1, h2⟩ | ⟨h1, h2⟩ <;> unfold bufferSize at * <;> omega
  refine ⟨by omega, hlt, hlength.1, ?_⟩
  rw [UInt32.toNat_add, UInt32.toNat_one, mod_eq_of_lt (by omega)]

theorem InBuffer.step (hfit : NamesFit s) (h : InBuffer s b st) (hnext : st.hasNext = true) :
    (∃ st', st.scanNext s = some st' ∧ InBuffer s b st' ∧ st.idx < st'.idx)
      ∨ st.scanNext s = none ∧ none ∈ tokens scanned s := by
  obtain ⟨hlt, hilt, hlength, hi⟩ := h.lt hnext
  have hc : s[st.idx]? = some s[st.idx] := getElem?_eq_getElem hlt
  have hbuffer : st.buffer[st.i.toNat]? = some s[st.idx] := by
    rw [h.buffer, getElem?_take_of_lt (of_decide_eq_true hnext), getElem?_drop,
      ← h.index, hc]
  have hscan : st.scanNext s = (st.scanCharacter s s[st.idx]).map advance := by
    rw [scanNext, hbuffer, bind_some]
  have hdrop : s.drop st.idx = s[st.idx] :: s.drop (st.idx + 1) := drop_eq_getElem_cons hlt
  obtain ⟨hsize, hle⟩ := scanned_le (hfit (st.idx + 1)) s[st.idx]
  have hfound := h.found
  have htakes := takes_scanCharacter h.toTextEnds (hi ▸ hilt) hc
  rw [hdrop, tokens_cons] at hfound
  rw [hscan]
  generalize scanned s[st.idx] (s.drop (st.idx + 1)) = r at hfound hsize hle htakes
  generalize st.scanCharacter s s[st.idx] = x at htakes
  cases htakes with
  | raises k =>
    rw [hfound]
    exact .inr ⟨rfl, mem_append_right _ (mem_cons_self ..)⟩
  | @took e k st' ht =>
    have hk : k ≤ (s.drop (st.idx + 1)).length := hle nofun
    rw [length_drop] at hk
    have hsize : k + 64 < 2 ^ 32 := hsize
    have hnat : (st'.i + 1).toNat = st.i.toNat + k + 1 := by
      rw [ht.i, UInt32.toNat_add, UInt32.toNat_add, UInt32.toNat_one]
      have hk32 : k.toUInt32.toNat = k := UInt32.toNat_ofNat_of_lt (show k < 2 ^ 32 by omega)
      rw [hk32]
      omega
    refine .inl ⟨st'.advance, rfl, ⟨⟨ht.text, ?_⟩, ?_, ?_, ?_, ?_, ?_⟩, ?_⟩
    · show st'.idx + 1 ≤ s.length
      rw [ht.idx]
      omega
    · show st'.buffer = (s.drop b).take st'.range.length
      rw [ht.buffer, ht.length, h.buffer]
    · show st'.range.length = _ ∧ _ ∨ b + st'.range.length = _ ∧ st'.range.length < _
      rw [ht.length]
      exact h.length
    · show st'.idx + 1 = b + (st'.i + 1).toNat
      rw [hnat, ht.idx, h.index]
      omega
    · show st'.range.location = if (st'.i + 1).toNat > st'.range.length then st'.idx + 1 else _
      rw [ht.location, ht.length, h.location,
        if_neg (show ¬ st.i.toNat > st.range.length by omega)]
    · show _ = (st'.told s).map some ++ tokens scanned (s.drop (st'.idx + 1))
      have hrest : (s.drop (st.idx + 1)).drop k = s.drop (st'.idx + 1) := by
        rw [drop_drop, ht.idx]
        congr 1
        omega
      rw [hfound, ht.told, map_append, append_assoc, ← hrest]
      rfl
    · show st.idx < st'.idx + 1
      rw [ht.idx]
      omega

/-- Where a buffer has been scanned, and the next one is still to be read. -/
structure BetweenBuffers (s : NSString) (st : Scan) : Prop extends TextEnds s st where
  location : st.range.location = st.idx ∨ st.idx = s.length ∧ s.length ≤ st.range.location
  length : st.range.length = bufferSize ∨ s.length ≤ st.range.location
  found : tokens scanned s = (st.told s).map some ++ tokens scanned (s.drop st.idx)

theorem BetweenBuffers.lt (h : BetweenBuffers s st) (hmore : st.hasMore s = true) :
    st.idx < s.length := by
  have hlt : st.range.location < s.length := of_decide_eq_true hmore
  rcases h.location with h | ⟨-, h⟩ <;> omega

theorem BetweenBuffers.fill (h : BetweenBuffers s st) (hmore : st.hasMore s = true) :
    InBuffer s st.idx (st.fillBuffer s) := by
  have hlt : st.range.location < s.length := of_decide_eq_true hmore
  have hlocation : st.range.location = st.idx := h.location.resolve_right fun h => by omega
  have hlength : st.range.length = bufferSize := h.length.resolve_right fun h => by omega
  refine ⟨⟨h.text, h.le⟩, ?_, ?_, rfl, ?_, h.found⟩
  · show (s.drop st.range.location).take (st.fillBuffer s).range.length = _
    rw [hlocation]
  · unfold fillBuffer
    dsimp only
    rw [hlocation, hlength]
    split_ifs <;> unfold bufferSize at * <;> omega
  · show st.range.location + bufferSize = if (0 : UInt32).toNat > _ then st.idx else _
    rw [hlocation]
    exact (if_neg (not_lt_zero (st.fillBuffer s).range.length)).symm

theorem InBuffer.leave (h : InBuffer s b st) (hnext : st.hasNext = false) :
    BetweenBuffers s st := by
  have hle : st.range.length ≤ st.i.toNat := not_lt.1 (of_decide_eq_false hnext)
  have hlocation := h.location
  have hindex := h.index
  have hidx := h.le
  refine ⟨h.toTextEnds, ?_, ?_, h.found⟩ <;>
  · rw [hlocation]
    rcases h.length with ⟨h1, h2⟩ | ⟨h1, h2⟩ <;> split_ifs <;> omega

theorem BetweenBuffers.scanBuffer (hfit : NamesFit s) (h : BetweenBuffers s st)
    (hmore : st.hasMore s = true) {fuel : ℕ} (hbuffer : st.scanBuffer fuel s = some st') :
    BetweenBuffers s st' ∧ st.idx < st'.idx := by
  have hbody : ∀ u u', InBuffer s st.idx u → u.hasNext = true → u.scanNext s = some u' →
      InBuffer s st.idx u' := by
    intro u u' hu hnext hu'
    rcases hu.step hfit hnext with ⟨v, hv, hin, -⟩ | ⟨hnone, -⟩
    · rw [hv] at hu'
      cases hu'
      exact hin
    · rw [hnone] at hu'
      cases hu'
  obtain ⟨hin, hnext⟩ := whileLoop_preserves hbody (h.fill hmore) hbuffer
  refine ⟨hin.leave hnext, ?_⟩
  have hle : st'.range.length ≤ st'.i.toNat := not_lt.1 (of_decide_eq_false hnext)
  have hlt := h.lt hmore
  have hindex := hin.index
  rcases hin.length with ⟨h1, h2⟩ | ⟨h1, h2⟩ <;> unfold bufferSize at * <;> omega

theorem BetweenBuffers.scanBuffer_succeeds (hfit : NamesFit s) (h : BetweenBuffers s st)
    (hmore : st.hasMore s = true) (hnone : none ∉ tokens scanned s) {fuel : ℕ}
    (hfuel : s.length - st.idx < fuel) : ∃ st', st.scanBuffer fuel s = some st' := by
  have hbody : ∀ u, InBuffer s st.idx u → u.hasNext = true →
      ∃ u', u.scanNext s = some u' ∧ InBuffer s st.idx u'
        ∧ s.length - u'.idx < s.length - u.idx := by
    intro u hu hnext
    have hlt := (hu.lt hnext).1
    rcases hu.step hfit hnext with ⟨v, hv, hin, hidx⟩ | ⟨-, hmem⟩
    · exact ⟨v, hv, hin, by omega⟩
    · exact absurd hmem hnone
  exact whileLoop_succeeds (fun u => s.length - u.idx) hbody (h.fill hmore) hfuel

end Scan

open Scan

theorem betweenBuffers_start (s : NSString) : BetweenBuffers s {} :=
  ⟨⟨rfl, zero_le _⟩, .inl rfl, .inl rfl, rfl⟩

variable {s : NSString}

/-- What the delegate is told is what is found, as long as no name is too long. -/
theorem parseString_found (hfit : NamesFit s) {fuel : ℕ} {events : List ScannerEvent}
    (h : parseString fuel s = some events) :
    tokens scanned s = (events.flatMap (·.pieces)).map some := by
  obtain ⟨st', hst', rfl⟩ := map_eq_some_iff.1 h
  obtain ⟨st, hloop, hpass⟩ := bind_eq_some_iff.1 hst'
  obtain ⟨hst, hmore⟩ := whileLoop_preserves
    (fun u u' hu hmore hu' => (hu.scanBuffer hfit hmore hu').1) (betweenBuffers_start s) hloop
  have hend : s.length ≤ st.range.location := not_lt.1 (of_decide_eq_false hmore)
  have hidx : st.idx = s.length := by
    have hle := hst.le
    rcases hst.location with h | ⟨h, -⟩ <;> omega
  obtain ⟨delegate, heq, htold⟩ := passText_eq hst.toTextEnds
  rw [heq] at hpass
  cases hpass
  rw [hst.found, hidx, drop_length, tokens_nil, append_nil, htold]

theorem parseString_succeeds (hfit : NamesFit s) (hnone : none ∉ tokens scanned s) :
    ∃ fuel events, parseString fuel s = some events := by
  have hbody : ∀ u, BetweenBuffers s u → u.hasMore s = true →
      ∃ u', u.scanBuffer (s.length + 1) s = some u' ∧ BetweenBuffers s u'
        ∧ s.length - u'.idx < s.length - u.idx := by
    intro u hu hmore
    have hlt := hu.lt hmore
    obtain ⟨u', hu'⟩ := hu.scanBuffer_succeeds hfit hmore hnone
      (show s.length - u.idx < s.length + 1 by omega)
    obtain ⟨hbetween, hidx⟩ := hu.scanBuffer hfit hmore hu'
    exact ⟨u', hu', hbetween, by omega⟩
  obtain ⟨st, hloop⟩ := whileLoop_succeeds (fun u => s.length - u.idx) hbody
    (betweenBuffers_start s) (show s.length - 0 < s.length + 1 by omega)
  have hst := (whileLoop_preserves (fun u u' hu hmore hu' => (hu.scanBuffer hfit hmore hu').1)
    (betweenBuffers_start s) hloop).1
  obtain ⟨delegate, heq, -⟩ := passText_eq hst.toTextEnds
  refine ⟨s.length + 1, delegate, ?_⟩
  rw [parseString, hloop, bind_some, heq]
  rfl

theorem scansTokens_iff_scanned (hfit : NamesFit s) :
    ScansTokens s ↔ tokens scanned s = (tokens lexeme s).map some := by
  constructor
  · rintro ⟨fuel, events, hparse, htokens⟩
    rw [parseString_found hfit hparse, htokens]
  · intro h
    have hnone : none ∉ tokens scanned s := by
      rw [h]
      simp
    obtain ⟨fuel, events, hparse⟩ := parseString_succeeds hfit hnone
    refine ⟨fuel, events, hparse, ?_⟩
    rw [parseString_found hfit hparse] at h
    exact map_injective_iff.2 (some_injective _) h

/-- The delegate is told the tokens just if every backslash is followed by an escaped character or
by the end of its command, and two hyphens only by a third or by the end of the string. -/
theorem scansTokens_iff (hfit : NamesFit s) : ScansTokens s ↔ Throughout Faultless lexeme s :=
  (scansTokens_iff_scanned hfit).trans (tokens_scanned_iff s)

theorem namesFit_of_length (h : s.length + bufferSize < 2 ^ 32) : NamesFit s := by
  intro i
  have htake : ((s.drop i).takeWhile (!isCommandEnd ·)).length ≤ (s.drop i).length :=
    (List.takeWhile_prefix _).length_le
  rw [length_drop] at htake
  omega

def emDash : NSString := [↑ 'a', ↑ '-', ↑ '-', ↑ '-', ↑ 'b']

theorem emDash_scanned : ScansTokens emDash ↔ Throughout Faultless lexeme emDash :=
  scansTokens_iff (namesFit_of_length (by decide))

def enDash : NSString := [↑ 'a', ↑ '-', ↑ '-', ↑ 'b']

theorem enDash_not_scanned : ¬ ScansTokens enDash := by
  have hscanned : tokens scanned enDash
      = [some (.handleText [↑ 'a']), some (.handleText [8212])] := by
    rw [enDash, tokens_cons]
    show _ :: tokens scanned (↑ '-' :: [↑ '-', ↑ 'b']) = _
    rw [tokens_cons]
    show _ :: _ :: tokens scanned [] = _
    rw [tokens_nil]
    rfl
  have hlexeme : ∃ rest, tokens lexeme enDash
      = .handleText [↑ 'a'] :: .handleText [8211] :: rest := by
    refine ⟨tokens lexeme [↑ 'b'], ?_⟩
    rw [enDash, tokens_cons]
    show _ :: tokens lexeme (↑ '-' :: [↑ '-', ↑ 'b']) = _
    rw [tokens_cons]
    rfl
  obtain ⟨rest, hlexeme⟩ := hlexeme
  rw [scansTokens_iff_scanned (namesFit_of_length (by decide)), hscanned, hlexeme]
  intro h
  simp at h

end Etoile.EtoileText
