import Etoile.Lucene.Streams

/-!
# The lexer of queries

`CodeParser` takes a string apart where the type of its characters changes.  It looks at the
character behind each, so also at the one behind the string.
-/

namespace Etoile.Lucene

open List

inductive CodeType
  | string
  | number
  | spaceAndNewLine
  | symbol
  | invisible
deriving DecidableEq

def codeType (ch : Unichar) : CodeType :=
  if (0x40 < ch ∧ ch < 0x5B) ∨ (0x60 < ch ∧ ch < 0x7B) ∨ ch = 0x5F then .string
  else if ch = 0x20 ∨ ch = 0x0a ∨ ch = 0x0d then .spaceAndNewLine
  else if 0x2F < ch ∧ ch < 0x3A then .number
  else if ch < 0x20 then .invisible
  else if 0x20 < ch ∧ ch < 0x7F then .symbol
  else .string

/-- The messages to the handler between `-beginParsing` and `-endParsing`. -/
inductive Piece
  | string (element : NSString)
  | number (element : NSString)
  | spaceAndNewLine (element : Unichar)
  | symbol (element : Unichar)
  | invisible (element : Unichar)
deriving DecidableEq

def Piece.text : Piece → NSString
  | string element | number element => element
  | spaceAndNewLine element | symbol element | invisible element => [element]

/-- The characters of the string are in memory, and something behind them. -/
structure CodeParser where
  string : NSString
  beyond : ℕ → Unichar

namespace CodeParser

/-- `_length`, an `unsigned int`. -/
def length (p : CodeParser) : ℕ := p.string.length % 2 ^ 32

/-- `_uchar[i]`. -/
def uchar (p : CodeParser) (i : ℕ) : Unichar := (p.string[i]?).getD (p.beyond i)

/-- The places of `_uchar` that are looked at are kept, too. -/
structure Parse where
  start : ℕ
  startType : CodeType
  pieces : List Piece
  reads : List ℕ

def flush (p : CodeParser) (type : CodeType) (start stop : ℕ) : List Piece :=
  let characters := (range' start (stop - start)).map p.uchar
  match type with
  | .string => [.string ((p.string.drop start).take (stop - start))]
  | .number => [.number ((p.string.drop start).take (stop - start))]
  | .spaceAndNewLine => characters.map .spaceAndNewLine
  | .symbol => characters.map .symbol
  | .invisible => characters.map .invisible

/-- What is looked at for a piece: whether a period follows a number, and the characters that are
not passed on as a whole. -/
def flushReads (type : CodeType) (start stop : ℕ) : List ℕ :=
  match type with
  | .string => []
  | .number => [stop]
  | .spaceAndNewLine | .symbol | .invisible => range' start (stop - start)

/-- The turn of the loop for `i`; a period does not end a number. -/
def turn (p : CodeParser) (s : Parse) (i : ℕ) : Parse :=
  let endType := codeType (p.uchar i)
  if s.startType ≠ endType ∨ i = p.length then
    if s.startType = .number ∧ p.uchar i = 0x2E then { s with reads := s.reads ++ [i, i] }
    else
      { start := i
        startType := endType
        pieces := s.pieces ++ p.flush s.startType s.start i
        reads := s.reads ++ [i] ++ flushReads s.startType s.start i ++ [i] }
  else { s with reads := s.reads ++ [i] }

def init (p : CodeParser) : Parse := ⟨0, codeType (p.uchar 0), [], [0]⟩

/-- The loop, whose bound is an `unsigned int`, too. -/
def parse (p : CodeParser) : Parse :=
  (range' 1 ((p.length + 1) % 2 ^ 32 - 1)).foldl p.turn p.init

def Parse.text (s : Parse) : NSString := s.pieces.flatMap Piece.text

def numeric (ch : Unichar) : Bool := codeType ch = .number || ch = 0x2E

/-- Whether the digits and periods at the end have a digit among them. -/
def endsInNumber (s : NSString) : Bool :=
  (s.reverse.takeWhile numeric).any fun ch => codeType ch = .number

theorem codeType_period : codeType 0x2E = .symbol := by decide

theorem endsInNumber_append (s : NSString) (ch : Unichar) : endsInNumber (s ++ [ch])
    = if codeType ch = .number then true else if ch = 0x2E then endsInNumber s else false := by
  unfold endsInNumber
  rw [reverse_append, reverse_singleton, singleton_append, takeWhile_cons]
  by_cases hnumber : codeType ch = .number
  · simp [numeric, hnumber]
  · by_cases hperiod : ch = 0x2E
    · simp [numeric, hperiod, codeType_period]
    · simp [numeric, hnumber, hperiod]

def OfType (type : CodeType) (ch : Unichar) : Prop :=
  if type = .number then numeric ch = true else codeType ch = type

theorem ofType_codeType (ch : Unichar) : OfType (codeType ch) ch := by
  unfold OfType
  split_ifs with hnumber
  · simp [numeric, hnumber]
  · rfl

end CodeParser

def Piece.type : Piece → CodeType
  | string _ => .string
  | number _ => .number
  | spaceAndNewLine _ => .spaceAndNewLine
  | symbol _ => .symbol
  | invisible _ => .invisible

def Piece.Fits (piece : Piece) : Prop := ∀ ch ∈ piece.text, CodeParser.OfType piece.type ch

namespace CodeParser

variable {p : CodeParser} {s : Parse} {i start stop : ℕ}

theorem length_le (p : CodeParser) : p.length ≤ p.string.length := Nat.mod_le _ _

theorem uchar_of_lt (h : i < p.string.length) : p.uchar i = p.string[i] := by
  simp [uchar, h]

theorem map_uchar (h : stop ≤ p.string.length) :
    (range' start (stop - start)).map p.uchar
      = (p.string.drop start).take (stop - start) := by
  refine ext_getElem (by simp; omega) fun i hi hi' => ?_
  simp only [length_map, length_range'] at hi
  simp [uchar_of_lt (by omega : start + i < p.string.length)]

theorem text_flush (type : CodeType) (h : stop ≤ p.string.length) :
    (p.flush type start stop).flatMap Piece.text = (p.string.drop start).take (stop - start) := by
  unfold flush
  rw [map_uchar h]
  generalize (p.string.drop start).take (stop - start) = l
  cases type <;> simp [Piece.text, flatMap_map]

/-- What was passed on is the string up to the start of the piece that is not, of which one knows
the type. -/
structure Inv (p : CodeParser) (s : Parse) (i : ℕ) : Prop where
  start_le : s.start ≤ i
  text : s.text = p.string.take s.start
  number_iff : s.startType = .number ↔ endsInNumber (p.string.take (i + 1)) = true
  ofType : ∀ ch ∈ (p.string.take (i + 1)).drop s.start, OfType s.startType ch
  fits : ∀ piece ∈ s.pieces, piece.Fits

theorem fits_flush {type : CodeType} (hstop : stop ≤ p.string.length)
    (h : ∀ ch ∈ (p.string.drop start).take (stop - start), OfType type ch) :
    ∀ piece ∈ p.flush type start stop, piece.Fits := by
  unfold flush
  rw [map_uchar hstop]
  generalize (p.string.drop start).take (stop - start) = l at h
  intro piece hpiece
  cases type with
  | string | number =>
    obtain rfl := mem_singleton.1 hpiece
    exact h
  | spaceAndNewLine | symbol | invisible =>
    obtain ⟨ch, hch, rfl⟩ := mem_map.1 hpiece
    intro ch' hch'
    obtain rfl := mem_singleton.1 hch'
    exact h _ hch

theorem take_succ (h : i < p.string.length) :
    p.string.take (i + 1) = p.string.take i ++ [p.uchar i] := by
  rw [uchar_of_lt h, take_succ_eq_append_getElem h]

theorem take_append_piece (h : start ≤ stop) :
    p.string.take start ++ (p.string.drop start).take (stop - start) = p.string.take stop := by
  rw [← take_add, Nat.add_sub_cancel' h]

theorem inv_init (h : 0 < p.string.length) : p.Inv p.init 0 where
  start_le := le_rfl
  text := by simp [init, Parse.text]
  number_iff := by
    rw [take_succ h, endsInNumber_append]
    by_cases hnumber : codeType (p.uchar 0) = .number
    · simp [init, hnumber]
    · simp [init, hnumber, endsInNumber]
  ofType := by
    intro ch hch
    rw [take_succ h] at hch
    obtain rfl : ch = p.uchar 0 := by simpa [init] using hch
    exact ofType_codeType _
  fits := by simp [init]

theorem Inv.text_flush (h : p.Inv s i) (hi : i + 1 ≤ p.string.length) :
    s.pieces.flatMap Piece.text ++ (p.flush s.startType s.start (i + 1)).flatMap Piece.text
      = p.string.take (i + 1) := by
  have hstart := h.start_le
  have htext : s.pieces.flatMap Piece.text = p.string.take s.start := h.text
  rw [CodeParser.text_flush s.startType hi, htext, take_append_piece (by omega)]

theorem Inv.fits_flush (h : p.Inv s i) (hi : i + 1 ≤ p.string.length) :
    ∀ piece ∈ s.pieces ++ p.flush s.startType s.start (i + 1), piece.Fits := by
  intro piece hpiece
  rcases mem_append.1 hpiece with hpiece | hpiece
  · exact h.fits piece hpiece
  · refine CodeParser.fits_flush hi (fun ch hch => h.ofType ch ?_) piece hpiece
    rwa [drop_take]

theorem Inv.turn (h : p.Inv s i) (hi : i + 1 < p.string.length) (hlength : i + 1 ≠ p.length) :
    p.Inv (p.turn s (i + 1)) (i + 1) := by
  have hstart := h.start_le
  have hiff := h.number_iff
  have hnext := take_succ hi
  unfold CodeParser.turn
  simp only [hlength, or_false]
  split_ifs with htype hperiod
  · -- the period goes on the number
    obtain ⟨hnumber, hch⟩ := hperiod
    refine ⟨Nat.le_succ_of_le hstart, h.text, ?_, fun ch hmem => ?_, h.fits⟩
    · rw [hnext, endsInNumber_append, hch]
      simp [hnumber, codeType_period, hiff.1 hnumber]
    · rw [hnext, drop_append_of_le_length (by simp; omega), mem_append] at hmem
      rcases hmem with hmem | hmem
      · exact h.ofType ch hmem
      · obtain rfl := mem_singleton.1 hmem
        simp [OfType, hnumber, CodeParser.numeric, hch]
  · refine ⟨le_rfl, ?_, ?_, fun ch hmem => ?_, h.fits_flush hi.le⟩
    · rw [Parse.text, flatMap_append]
      exact h.text_flush hi.le
    · rw [hnext, endsInNumber_append]
      grind
    · rw [hnext, drop_append_of_le_length (by simp; omega)] at hmem
      obtain rfl : ch = p.uchar (i + 1) := by
        simpa [drop_eq_nil_of_le] using hmem
      exact ofType_codeType _
  · have htype := not_not.1 htype
    refine ⟨Nat.le_succ_of_le hstart, h.text, ?_, fun ch hmem => ?_, h.fits⟩
    · rw [hnext, endsInNumber_append]
      grind [codeType_period]
    · rw [hnext, drop_append_of_le_length (by simp; omega), mem_append] at hmem
      rcases hmem with hmem | hmem
      · exact h.ofType ch hmem
      · obtain rfl := mem_singleton.1 hmem
        rw [htype]
        exact ofType_codeType _

theorem inv_run : ∀ {n : ℕ}, n < p.length → p.Inv ((range' 1 n).foldl p.turn p.init) n
  | 0, h => inv_init (h.trans_le p.length_le)
  | n + 1, h => by
    have hle := p.length_le
    rw [range'_1_concat, foldl_append, Nat.add_comm 1 n]
    exact (inv_run (by omega)).turn (by omega) (by omega)

theorem exists_last_turn (hpos : 0 < p.length) (hlt : p.length + 1 < 2 ^ 32) :
    ∃ s, p.Inv s (p.length - 1) ∧ p.parse = p.turn s p.length := by
  refine ⟨_, inv_run (by omega), ?_⟩
  have hcount : (p.length + 1) % 2 ^ 32 - 1 = p.length - 1 + 1 := by omega
  have hplace : 1 + (p.length - 1) = p.length := by omega
  rw [parse, hcount, range'_1_concat, foldl_append, hplace]
  rfl

theorem parse_of_length (h : p.length = 0 ∨ p.length + 1 = 2 ^ 32) : p.parse = p.init := by
  have hcount : (p.length + 1) % 2 ^ 32 - 1 = 0 := by
    omega
  rw [parse, hcount]
  rfl

theorem turn_length (p : CodeParser) (s : Parse) : p.turn s p.length
    = if s.startType = .number ∧ p.uchar p.length = 0x2E then
        { s with reads := s.reads ++ [p.length, p.length] }
      else
        { start := p.length
          startType := codeType (p.uchar p.length)
          pieces := s.pieces ++ p.flush s.startType s.start p.length
          reads := s.reads ++ [p.length] ++ flushReads s.startType s.start p.length
            ++ [p.length] } := by
  unfold turn
  exact if_pos (.inr rfl)

/-- A number at the end is lost where a period happens to be behind it, and nothing else is. -/
theorem text_parse (hpos : 0 < p.length) (hlt : p.length + 1 < 2 ^ 32) :
    if endsInNumber (p.string.take p.length) ∧ p.uchar p.length = 0x2E then
      ∃ lost, lost ≠ [] ∧ (∀ ch ∈ lost, numeric ch)
        ∧ p.parse.text ++ lost = p.string.take p.length
    else p.parse.text = p.string.take p.length := by
  obtain ⟨s, hinv, hparse⟩ := exists_last_turn hpos hlt
  have hle := p.length_le
  have hplace : p.length - 1 + 1 = p.length := by omega
  have hstart := hinv.start_le
  have hiff := hinv.number_iff
  have hnumeric := hinv.ofType
  have hflush := hinv.text_flush (by omega)
  rw [hplace] at hiff hnumeric hflush
  simp only [hparse, turn_length, ← hiff]
  split_ifs with hlost
  · refine ⟨(p.string.take p.length).drop s.start, ?_, fun ch hch => ?_, ?_⟩
    · rw [Ne, drop_eq_nil_iff, length_take]
      omega
    · simpa [OfType, hlost.1] using hnumeric ch hch
    · have htext : s.text = (p.string.take p.length).take s.start := by
        rw [take_take, min_eq_left (by omega), hinv.text]
      exact (congrArg (· ++ _) htext).trans (take_append_drop _ _)
  · rw [Parse.text, flatMap_append]
    exact hflush

theorem fits_parse (hpos : 0 < p.length) (hlt : p.length + 1 < 2 ^ 32) :
    ∀ piece ∈ p.parse.pieces, piece.Fits := by
  obtain ⟨s, hinv, hparse⟩ := exists_last_turn hpos hlt
  have hle := p.length_le
  have hplace : p.length - 1 + 1 = p.length := by omega
  have hflush := hinv.fits_flush (by omega)
  rw [hplace] at hflush
  rw [hparse, turn_length]
  split_ifs
  · exact hinv.fits
  · exact hflush

theorem mem_reads_parse (hpos : 0 < p.length) (hlt : p.length + 1 < 2 ^ 32) :
    p.length ∈ p.parse.reads := by
  obtain ⟨s, -, hparse⟩ := exists_last_turn hpos hlt
  rw [hparse, turn_length]
  split_ifs <;> simp

/-- Only characters of the string are looked at, and all of it is passed on. -/
structure Faithful (p : CodeParser) : Prop where
  inBounds : ∀ i ∈ p.parse.reads, i < p.string.length
  complete : p.parse.text = p.string

theorem length_text_le (p : CodeParser) : p.parse.text.length ≤ p.length := by
  by_cases hturns : p.length = 0 ∨ p.length + 1 = 2 ^ 32
  · rw [parse_of_length hturns]
    exact Nat.zero_le _
  · have hlt : p.length < 2 ^ 32 := Nat.mod_lt _ (by omega)
    have htext := @text_parse p (by omega) (by omega)
    split_ifs at htext
    · obtain ⟨lost, -, -, heq⟩ := htext
      have hcount := congrArg List.length heq
      simp only [length_append, length_take] at hcount
      omega
    · rw [htext]
      exact length_take_le _ _

theorem length_eq (h : p.string.length + 1 < 2 ^ 32) : p.length = p.string.length :=
  Nat.mod_eq_of_lt (by omega)

theorem not_inBounds (h : p.string.length + 1 < 2 ^ 32) :
    ∃ i ∈ p.parse.reads, p.string.length ≤ i := by
  have hlength := length_eq h
  rcases Nat.eq_zero_or_pos p.length with hzero | hpos
  · refine ⟨0, ?_, by omega⟩
    rw [parse_of_length (.inl hzero)]
    exact mem_singleton_self 0
  · exact ⟨p.length, mem_reads_parse hpos (by omega), hlength.ge⟩

/-- `text_parse` for a string that an `unsigned int` measures. -/
theorem text_parse_string (h : p.string.length + 1 < 2 ^ 32) :
    if endsInNumber p.string ∧ p.beyond p.string.length = 0x2E then
      ∃ lost, lost ≠ [] ∧ (∀ ch ∈ lost, numeric ch) ∧ p.parse.text ++ lost = p.string
    else p.parse.text = p.string := by
  have hlength := length_eq h
  rcases Nat.eq_zero_or_pos p.length with hzero | hpos
  · have hnil : p.string = [] := length_eq_zero_iff.1 (by omega)
    rw [parse_of_length (.inl hzero), hnil]
    simp [init, Parse.text, endsInNumber]
  · have htext := text_parse hpos (by omega)
    have hbehind : p.uchar p.string.length = p.beyond p.string.length := by
      simp [uchar]
    rwa [hlength, take_length, hbehind] at htext

theorem fits_parse_string (h : p.string.length + 1 < 2 ^ 32) :
    ∀ piece ∈ p.parse.pieces, piece.Fits := by
  have hlength := length_eq h
  rcases Nat.eq_zero_or_pos p.length with hzero | hpos
  · rw [parse_of_length (.inl hzero)]
    simp [init]
  · exact fits_parse hpos (by omega)

theorem text_eq_iff (h : p.string.length + 1 < 2 ^ 32) : p.parse.text = p.string
    ↔ ¬(endsInNumber p.string ∧ p.beyond p.string.length = 0x2E) := by
  have htext := text_parse_string h
  split_ifs at htext with hlost
  · obtain ⟨lost, hne, -, heq⟩ := htext
    refine iff_of_false (fun hall => hne ?_) (not_not.2 hlost)
    rw [hall] at heq
    exact append_right_eq_self.1 heq
  · exact iff_of_true htext hlost

/-- The lexer always looks behind the string, or leaves out a part of it.  Of the strings that an
`unsigned int` measures it leaves out just a number at the end that a period follows in memory. -/
theorem not_faithful (p : CodeParser) : ¬p.Faithful ∧ (p.string.length + 1 < 2 ^ 32 →
    (p.parse.text = p.string
      ↔ ¬(endsInNumber p.string ∧ p.beyond p.string.length = 0x2E))) := by
  refine ⟨fun ⟨hbounds, hcomplete⟩ => ?_, text_eq_iff⟩
  by_cases hsmall : p.string.length + 1 < 2 ^ 32
  · obtain ⟨i, hi, hle⟩ := not_inBounds hsmall
    exact absurd (hbounds i hi) hle.not_gt
  · have hlength := p.length_text_le
    rw [hcomplete] at hlength
    -- a string that the count does not overflow on is longer than the `unsigned int`
    by_cases hturns : p.length = 0 ∨ p.length + 1 = 2 ^ 32
    · rw [parse_of_length hturns] at hcomplete
      have hnil : p.string = [] := hcomplete.symm
      rw [hnil, length_nil] at hsmall
      omega
    · have hlt : p.length < 2 ^ 32 := Nat.mod_lt _ (by omega)
      omega

/-- What is passed on of a string of any length is its start, in pieces of one type each. -/
theorem pieces_of_start (p : CodeParser) :
    p.parse.text <+: p.string ∧ ∀ piece ∈ p.parse.pieces, piece.Fits := by
  by_cases hturns : p.length = 0 ∨ p.length + 1 = 2 ^ 32
  · rw [parse_of_length hturns]
    simp [init, Parse.text]
  · have hlt : p.length < 2 ^ 32 := Nat.mod_lt _ (by omega)
    have htext := @text_parse p (by omega) (by omega)
    refine ⟨IsPrefix.trans ?_ (List.take_prefix p.length _), fits_parse (by omega) (by omega)⟩
    split_ifs at htext
    · obtain ⟨lost, -, -, heq⟩ := htext
      exact ⟨lost, heq⟩
    · exact ⟨[], by rw [append_nil, htext]⟩

/-- After the query `1` and a period in memory nothing is passed on. -/
theorem not_faithful_digit :
    (⟨[0x31], fun _ => 0x2E⟩ : CodeParser).parse = ⟨0, .number, [], [0, 1, 1]⟩
      ∧ ¬(⟨[0x31], fun _ => 0x2E⟩ : CodeParser).Faithful := by
  have hparse : (⟨[0x31], fun _ => 0x2E⟩ : CodeParser).parse = ⟨0, .number, [], [0, 1, 1]⟩ := rfl
  refine ⟨hparse, fun h => ?_⟩
  have hcomplete := h.complete
  rw [hparse] at hcomplete
  cases hcomplete

end CodeParser

end Etoile.Lucene
