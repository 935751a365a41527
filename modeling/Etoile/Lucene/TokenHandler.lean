import Etoile.Lucene.CodeParser

/-!
# The tokens of a query

`TokenHandler` puts the messages of the lexer together again.  Of a text of words, fields, `+`, `-`
and parentheses, with spaces anywhere between them, the tokens are these (`tokens_of_spells`); a
number that the lexer loses is missing in the last word (`tokens_of_lost`).
-/

namespace Etoile.Lucene

open List

/-- `sent` are the tokens that `-token:` was called with. -/
structure TokenHandler where
  token : NSString
  inQuotation : Bool
  preSymbol : Unichar
  sent : List NSString

namespace TokenHandler

def init : TokenHandler := ⟨[], false, 0, []⟩

def appendElement (h : TokenHandler) (element : NSString) : TokenHandler :=
  { h with token := h.token ++ element }

/-- `-token:` of the subclass. -/
def send (h : TokenHandler) (token : NSString) : TokenHandler :=
  { h with sent := h.sent ++ [token] }

def flushToken (h : TokenHandler) : TokenHandler :=
  if h.token = [] then h else { h.send h.token with token := [] }

def spaceAndNewLine (h : TokenHandler) (element : Unichar) : TokenHandler :=
  if element = 0x20 then
    if h.inQuotation then { h.appendElement [element] with preSymbol := 0 }
    else { h.flushToken with preSymbol := 0 }
  else { h with preSymbol := 0 }

/-- The symbols that are tokens: `+`, `-`, `!` and the parentheses, braces and brackets. -/
def marks : List Unichar := [0x2B, 0x2D, 0x21, 0x28, 0x29, 0x7B, 0x7D, 0x5B, 0x5D]

def symbol (h : TokenHandler) (element : Unichar) : TokenHandler :=
  -- after a backslash
  if h.preSymbol = 0x5C then { h.appendElement [element] with preSymbol := 0 }
  else if element ∈ marks then { h.flushToken.send [element] with preSymbol := 0 }
  -- & and |, of which two are a token
  else if element = 0x26 ∨ element = 0x7C then
    if h.preSymbol = element then { h.send [element, element] with preSymbol := 0 }
    else { h with preSymbol := element }
  -- the colon
  else if element = 0x3A then (h.appendElement [element]).flushToken
  -- the quotation mark
  else if element = 0x22 then { h.appendElement [element] with inQuotation := !h.inQuotation }
  -- ^, ~, * and ?
  else if element ∈ ([0x5E, 0x7E, 0x2A, 0x3F] : List Unichar) then
    { h.appendElement [element] with preSymbol := 0 }
  else if element = 0x5C then { h with preSymbol := element }
  else { h.appendElement [element] with preSymbol := element }

def handle (h : TokenHandler) : Piece → TokenHandler
  | .string element | .number element => { h.appendElement element with preSymbol := 0 }
  | .spaceAndNewLine element => h.spaceAndNewLine element
  | .symbol element => h.symbol element
  | .invisible _ => h

end TokenHandler

/-- The tokens that are sent for a string; `-endParsing` sends the last one. -/
def CodeParser.tokens (p : CodeParser) : List NSString :=
  (p.parse.pieces.foldl TokenHandler.handle TokenHandler.init).flushToken.sent

/-- The symbols that mean something: the tokens, `&`, `|`, the colon, the quotation mark and the
backslash. -/
def specialSymbols : List Unichar := TokenHandler.marks ++ [0x26, 0x7C, 0x3A, 0x22, 0x5C]

def wordUnit (ch : Unichar) : Bool :=
  (codeType ch = .string || codeType ch = .number || codeType ch = .symbol)
    && ch ∉ specialSymbols

structure Word where
  text : NSString
  ne_nil : text ≠ []
  units : ∀ ch ∈ text, wordUnit ch

inductive Mark
  | plus
  | minus
  | opening
  | closing

def Mark.unit : Mark → Unichar
  | plus => 0x2B
  | minus => 0x2D
  | opening => 0x28
  | closing => 0x29

inductive QueryToken
  | word (w : Word)
  | field (name : Word)
  | mark (m : Mark)

def QueryToken.text : QueryToken → NSString
  | word w => w.text
  | field name => name.text ++ [0x3A]
  | mark m => [m.unit]

def EndsWord (s : NSString) : Prop := ∀ ch ∈ s.head?, wordUnit ch = false ∧ ch ≠ 0x3A

inductive Spells : List QueryToken → NSString → Prop
  | nil : Spells [] []
  | space {ts s} : Spells ts s → Spells ts (0x20 :: s)
  | word {ts s} (w : Word) : EndsWord s → Spells ts s → Spells (.word w :: ts) (w.text ++ s)
  | field {ts s} (name : Word) : Spells ts s → Spells (.field name :: ts) (name.text ++ 0x3A :: s)
  | mark {ts s} (m : Mark) : Spells ts s → Spells (.mark m :: ts) (m.unit :: s)

def queryUnit (ch : Unichar) : Prop :=
  wordUnit ch = true ∨ ch = 0x20 ∨ ch = 0x3A ∨ ∃ m : Mark, ch = m.unit

theorem wordUnit_space : wordUnit 0x20 = false := by decide

theorem wordUnit_colon : wordUnit 0x3A = false := by decide

theorem wordUnit_unit (m : Mark) : wordUnit m.unit = false := by cases m <;> decide

theorem unit_mem_marks (m : Mark) : m.unit ∈ TokenHandler.marks := by
  cases m <;> simp [Mark.unit, TokenHandler.marks]

theorem unit_ne (m : Mark) : m.unit ≠ 0x20 ∧ m.unit ≠ 0x3A := by
  cases m <;> decide

theorem endsWord_nil : EndsWord [] := by simp [EndsWord]

theorem endsWord_space (s : NSString) : EndsWord (0x20 :: s) := by
  simp [EndsWord, wordUnit_space]

theorem endsWord_unit (m : Mark) (s : NSString) : EndsWord (m.unit :: s) := by
  simp [EndsWord, wordUnit_unit, unit_ne]

variable {ts : List QueryToken} {s : NSString}

theorem Spells.queryUnit (h : Spells ts s) : ∀ ch ∈ s, queryUnit ch := by
  induction h with
  | nil => simp
  | space h ih =>
    simp only [mem_cons, forall_eq_or_imp]
    exact ⟨.inr (.inl rfl), ih⟩
  | word w _ h ih =>
    intro ch hch
    rcases mem_append.1 hch with hch | hch
    · exact .inl (w.units ch hch)
    · exact ih ch hch
  | field name h ih =>
    intro ch hch
    simp only [mem_append, mem_cons] at hch
    rcases hch with hch | rfl | hch
    · exact .inl (name.units ch hch)
    · exact .inr (.inr (.inl rfl))
    · exact ih ch hch
  | mark m h ih =>
    simp only [mem_cons, forall_eq_or_imp]
    exact ⟨.inr (.inr (.inr ⟨m, rfl⟩)), ih⟩

def respelled (ts : List QueryToken) : NSString := ts.flatMap fun t => t.text ++ [0x20]

@[simp] theorem respelled_nil : respelled [] = [] := rfl

@[simp] theorem respelled_cons (t : QueryToken) (ts : List QueryToken) :
    respelled (t :: ts) = t.text ++ [0x20] ++ respelled ts := flatMap_cons

@[simp] theorem respelled_append (ts ts' : List QueryToken) :
    respelled (ts ++ ts') = respelled ts ++ respelled ts' := flatMap_append

theorem spells_respelled : ∀ ts : List QueryToken, Spells ts (respelled ts)
  | [] => .nil
  | .word w :: ts => by
    have hrest := (spells_respelled ts).space
    simpa [QueryToken.text] using hrest.word w (endsWord_space _)
  | .field name :: ts => by
    simpa [QueryToken.text] using (spells_respelled ts).space.field name
  | .mark m :: ts => by
    simpa [QueryToken.text] using (spells_respelled ts).space.mark m

def flushed (token : NSString) : List NSString := if token = [] then [] else [token]

def scan : NSString → NSString → List NSString
  | token, [] => flushed token
  | token, ch :: s =>
    if wordUnit ch then scan (token ++ [ch]) s
    else if ch = 0x3A then (token ++ [ch]) :: scan [] s
    else if ch = 0x20 then flushed token ++ scan [] s
    else flushed token ++ [ch] :: scan [] s

theorem scan_append : ∀ {element : NSString} (token s : NSString),
    (∀ ch ∈ element, wordUnit ch) → scan token (element ++ s) = scan (token ++ element) s
  | [], token, s, _ => by simp
  | ch :: element, token, s, h => by
    simp only [mem_cons, forall_eq_or_imp] at h
    rw [cons_append, scan, if_pos h.1, scan_append (token ++ [ch]) s h.2]
    simp

theorem scan_space (token s : NSString) : scan token (0x20 :: s) = flushed token ++ scan [] s := by
  simp [scan, wordUnit_space]

theorem scan_colon (token s : NSString) :
    scan token (0x3A :: s) = (token ++ [0x3A]) :: scan [] s := by
  simp [scan, wordUnit_colon]

theorem scan_unit (m : Mark) (token s : NSString) :
    scan token (m.unit :: s) = flushed token ++ [m.unit] :: scan [] s := by
  simp [scan, wordUnit_unit, unit_ne]

theorem scan_of_endsWord {token : NSString} : ∀ {s : NSString}, EndsWord s →
    scan token s = flushed token ++ scan [] s
  | [], _ => by simp [scan, flushed]
  | ch :: s, h => by
    have hhead := h ch (by simp)
    simp only [scan, hhead.1, hhead.2, Bool.false_eq_true, if_false]
    split_ifs <;> simp [flushed]

theorem flushed_word (w : Word) : flushed w.text = [w.text] := by
  simp [flushed, w.ne_nil]

theorem scan_word (w : Word) (h : EndsWord s) : scan [] (w.text ++ s) = w.text :: scan [] s := by
  rw [scan_append [] s w.units, scan_of_endsWord h, nil_append, flushed_word,
    singleton_append]

theorem scan_field (name : Word) (s : NSString) :
    scan [] (name.text ++ 0x3A :: s) = (name.text ++ [0x3A]) :: scan [] s := by
  rw [scan_append [] _ name.units, scan_colon, nil_append]

theorem scan_of_spells (h : Spells ts s) : scan [] s = ts.map QueryToken.text := by
  induction h with
  | nil => rfl
  | space h ih => rw [scan_space, ih]; rfl
  | word w hends h ih => rw [scan_word w hends, ih]; rfl
  | field name h ih => rw [scan_field, ih]; rfl
  | mark m h ih => rw [scan_unit, ih]; rfl

/-- `begun` is what is left of the last word where a part of it at the end is lost. -/
structure LosesEnd (ts : List QueryToken) (s : NSString) (front : List QueryToken) (w : Word)
    (begun : NSString) : Prop where
  tokens : ts = front ++ [.word w]
  begun_lt : begun.length < w.text.length
  units : ∀ ch ∈ begun, wordUnit ch
  scan : scan [] s = front.map QueryToken.text ++ flushed begun

theorem LosesEnd.cons {ts : List QueryToken} {s s' : NSString} {front : List QueryToken} {w : Word}
    {begun : NSString} {t : QueryToken} (h : LosesEnd ts s front w begun)
    (hscan : Lucene.scan [] s' = t.text :: Lucene.scan [] s) :
    LosesEnd (t :: ts) s' (t :: front) w begun where
  tokens := by rw [h.tokens, cons_append]
  begun_lt := h.begun_lt
  units := h.units
  scan := by rw [hscan, h.scan, map_cons, cons_append]

theorem spells_nil (h : Spells ts []) : ts = [] := by
  have hscan := scan_of_spells h
  simpa [scan, flushed] using hscan.symm

/-- Characters of words that are lost at the end are lost from the last word. -/
theorem losesEnd_of_spells (h : Spells ts s) :
    ∀ {s' lost : NSString}, s = s' ++ lost → lost ≠ [] → (∀ ch ∈ lost, wordUnit ch) →
      ∃ front w begun, LosesEnd ts s' front w begun := by
  induction h with
  | nil =>
    intro s' lost heq hne _
    exact absurd (append_eq_nil_iff.1 heq.symm).2 hne
  | space h ih =>
    intro s' lost heq hne hunits
    rcases s' with _ | ⟨ch, s'⟩
    · have hspace := hunits 0x20 (by
        rw [nil_append] at heq
        simp [← heq])
      simp [wordUnit_space] at hspace
    · obtain ⟨rfl, htail⟩ := cons.inj heq
      obtain ⟨front, w, begun, hrest⟩ := ih htail hne hunits
      refine ⟨front, w, begun, hrest.tokens, hrest.begun_lt, hrest.units, ?_⟩
      rw [scan_space, hrest.scan]
      rfl
  | @word ts s w hends h ih =>
    intro s' lost heq hne hunits
    rcases append_eq_append_iff.1 heq with ⟨a, rfl, rfl⟩ | ⟨c, hw, rfl⟩
    · obtain ⟨front, w', begun, hrest⟩ := ih rfl hne hunits
      have hends' : EndsWord a := fun ch hch => hends ch (by
        rw [head?_append]
        simp [Option.mem_def.1 hch])
      exact ⟨_, w', begun, hrest.cons (scan_word w hends')⟩
    · -- the word is cut, and there is nothing behind it
      rcases s with _ | ⟨ch, s⟩
      · obtain rfl := spells_nil h
        have hunits' : ∀ ch ∈ s', wordUnit ch := fun ch hch =>
          w.units ch (hw ▸ mem_append_left _ hch)
        refine ⟨[], w, s', rfl, ?_, hunits', ?_⟩
        · rw [hw, length_append]
          have hpos := length_pos_iff.2 hne
          simp only [append_nil] at hpos
          omega
        · have hscan := scan_append [] [] hunits'
          simpa [scan] using hscan
      · have hhead := (hends ch (by simp)).1
        have hunit := hunits ch (by simp)
        simp [hhead] at hunit
  | @field ts s name h ih =>
    intro s' lost heq hne hunits
    rcases append_eq_append_iff.1 heq with ⟨a, rfl, ha⟩ | ⟨c, -, rfl⟩
    · rcases a with _ | ⟨ch, a⟩
      · have hcolon := hunits 0x3A (by
          rw [nil_append] at ha
          simp [← ha])
        simp [wordUnit_colon] at hcolon
      · obtain ⟨rfl, htail⟩ := cons.inj ha
        obtain ⟨front, w, begun, hrest⟩ := ih htail hne hunits
        exact ⟨_, w, begun, hrest.cons (scan_field name a)⟩
    · have hcolon := hunits 0x3A (by simp)
      simp [wordUnit_colon] at hcolon
  | mark m h ih =>
    intro s' lost heq hne hunits
    rcases s' with _ | ⟨ch, s'⟩
    · have hmark := hunits m.unit (by
        rw [nil_append] at heq
        simp [← heq])
      simp [wordUnit_unit] at hmark
    · obtain ⟨rfl, htail⟩ := cons.inj heq
      obtain ⟨front, w, begun, hrest⟩ := ih htail hne hunits
      exact ⟨_, w, begun, hrest.cons (scan_unit m [] s')⟩

theorem codeType_of_special {ch : Unichar} (h : ch ∈ specialSymbols) : codeType ch = .symbol := by
  simp only [specialSymbols, TokenHandler.marks, cons_append, nil_append, mem_cons,
    not_mem_nil, or_false] at h
  rcases h with rfl | rfl | rfl | rfl | rfl | rfl | rfl | rfl | rfl | rfl | rfl | rfl | rfl | rfl
    <;> rfl

theorem wordUnit_of_string {ch : Unichar} (h : codeType ch = .string) : wordUnit ch := by
  have hmem : ch ∉ specialSymbols := fun hmem => by simp [codeType_of_special hmem] at h
  simp [wordUnit, h, hmem]

theorem wordUnit_of_numeric {ch : Unichar} (h : CodeParser.numeric ch) : wordUnit ch := by
  simp only [CodeParser.numeric, Bool.or_eq_true, decide_eq_true_eq] at h
  rcases h with hnumber | rfl
  · have hmem : ch ∉ specialSymbols := fun hmem => by simp [codeType_of_special hmem] at hnumber
    simp [wordUnit, hnumber, hmem]
  · rfl

namespace TokenHandler

variable {h : TokenHandler} {piece : Piece}

/-- Not in a quotation, nor behind a symbol that changes what the next one means. -/
structure Plain (h : TokenHandler) : Prop where
  inQuotation : h.inQuotation = false
  preSymbol : h.preSymbol ∉ ([0x26, 0x7C, 0x5C] : List Unichar)

def sends (h : TokenHandler) (s : NSString) : List NSString := h.sent ++ scan h.token s

theorem sends_appendElement {element : NSString} (helement : ∀ ch ∈ element, wordUnit ch)
    (preSymbol : Unichar) (s : NSString) :
    sends { h.appendElement element with preSymbol := preSymbol } s = h.sends (element ++ s) := by
  simp [sends, appendElement, scan_append h.token s helement]

theorem sends_flushToken (preSymbol : Unichar) (s : NSString) :
    sends { h.flushToken with preSymbol := preSymbol } s
      = h.sent ++ (flushed h.token ++ scan [] s) := by
  unfold flushToken
  split_ifs with hnil
  · simp [sends, flushed, hnil]
  · simp [sends, send, flushed, hnil]

theorem sent_flushToken (h : TokenHandler) : h.flushToken.sent = h.sends [] := by
  unfold flushToken
  split_ifs with hnil
  · simp [sends, scan, flushed, hnil]
  · simp [sends, send, scan, flushed, hnil]

theorem flushToken_inQuotation : h.flushToken.inQuotation = h.inQuotation := by
  unfold flushToken
  split_ifs <;> rfl

theorem flushToken_preSymbol : h.flushToken.preSymbol = h.preSymbol := by
  unfold flushToken
  split_ifs <;> rfl

theorem symbol_word {ch : Unichar} (hplain : h.Plain) (hch : wordUnit ch) :
    (h.symbol ch).Plain ∧ ∀ s, (h.symbol ch).sends s = h.sends (ch :: s) := by
  have hpre := hplain.preSymbol
  have hspecial : ch ∉ specialSymbols := by
    have hunit := hch
    simp only [wordUnit, Bool.and_eq_true, decide_eq_true_eq] at hunit
    exact hunit.2
  simp only [mem_cons, not_mem_nil, or_false, not_or] at hpre
  simp only [specialSymbols, mem_append, mem_cons, not_mem_nil, or_false,
    not_or] at hspecial
  obtain ⟨hmark, hand, hor, hcolon, hquote, hback⟩ := hspecial
  have hword : ∀ ch' ∈ [ch], wordUnit ch' := by simpa using hch
  have happend := sends_appendElement (h := h) hword
  unfold symbol
  simp only [hpre.2.2, hmark, hand, hor, hcolon, hquote, hback, or_self, if_false]
  split_ifs
  · exact ⟨⟨hplain.inQuotation, by simp⟩, happend 0⟩
  · exact ⟨⟨hplain.inQuotation, by simp [hand, hor, hback]⟩, happend ch⟩

theorem symbol_colon (hplain : h.Plain) :
    (h.symbol 0x3A).Plain ∧ ∀ s, (h.symbol 0x3A).sends s = h.sends (0x3A :: s) := by
  have hpre := hplain.preSymbol
  simp only [mem_cons, not_mem_nil, or_false, not_or] at hpre
  have hsymbol : h.symbol 0x3A = (h.appendElement [0x3A]).flushToken := by
    unfold symbol
    rw [if_neg hpre.2.2, if_neg (by simp [marks]), if_neg (by simp), if_pos rfl]
  rw [hsymbol]
  refine ⟨⟨?_, ?_⟩, fun s => ?_⟩
  · rw [flushToken_inQuotation]
    exact hplain.inQuotation
  · rw [flushToken_preSymbol]
    exact hplain.preSymbol
  · simp [sends, scan_colon, flushToken, appendElement, send]

theorem symbol_unit (m : Mark) (hplain : h.Plain) :
    (h.symbol m.unit).Plain ∧ ∀ s, (h.symbol m.unit).sends s = h.sends (m.unit :: s) := by
  have hpre := hplain.preSymbol
  simp only [mem_cons, not_mem_nil, or_false, not_or] at hpre
  have hsymbol : h.symbol m.unit = { h.flushToken.send [m.unit] with preSymbol := 0 } := by
    unfold symbol
    rw [if_neg hpre.2.2, if_pos (unit_mem_marks m)]
  rw [hsymbol]
  refine ⟨⟨?_, by simp⟩, fun s => ?_⟩
  · exact flushToken_inQuotation.trans hplain.inQuotation
  · unfold flushToken
    split_ifs with hnil
    · simp [sends, send, scan_unit, flushed, hnil]
    · simp [sends, send, scan_unit, flushed, hnil]

theorem handle_sends (hplain : h.Plain) (hfits : piece.Fits)
    (hunits : ∀ ch ∈ piece.text, queryUnit ch) :
    (h.handle piece).Plain ∧ ∀ s, (h.handle piece).sends s = h.sends (piece.text ++ s) := by
  cases piece with
  | string element =>
    have hword : ∀ ch ∈ element, wordUnit ch := fun ch hch => wordUnit_of_string (hfits ch hch)
    exact ⟨⟨hplain.inQuotation, by simp [handle]⟩, sends_appendElement hword 0⟩
  | number element =>
    have hword : ∀ ch ∈ element, wordUnit ch := fun ch hch => wordUnit_of_numeric (hfits ch hch)
    exact ⟨⟨hplain.inQuotation, by simp [handle]⟩, sends_appendElement hword 0⟩
  | spaceAndNewLine ch =>
    have htype : codeType ch = .spaceAndNewLine := hfits ch (by simp [Piece.text])
    have hspace : ch = 0x20 := by
      rcases hunits ch (by simp [Piece.text]) with hword | hspace | rfl | ⟨m, rfl⟩
      · simp [wordUnit, htype] at hword
      · exact hspace
      · cases htype
      · cases m <;> cases htype
    subst hspace
    have hhandle : h.handle (.spaceAndNewLine 0x20) = { h.flushToken with preSymbol := 0 } := by
      simp [handle, spaceAndNewLine, hplain.inQuotation]
    rw [hhandle]
    refine ⟨⟨flushToken_inQuotation.trans hplain.inQuotation, by simp⟩, fun s => ?_⟩
    rw [sends_flushToken, Piece.text, singleton_append, sends, scan_space]
  | symbol ch =>
    have htype : codeType ch = .symbol := hfits ch (by simp [Piece.text])
    rcases hunits ch (by simp [Piece.text]) with hword | rfl | rfl | ⟨m, rfl⟩
    · exact symbol_word hplain hword
    · cases htype
    · exact symbol_colon hplain
    · exact symbol_unit m hplain
  | invisible ch =>
    have htype : codeType ch = .invisible := hfits ch (by simp [Piece.text])
    rcases hunits ch (by simp [Piece.text]) with hword | rfl | rfl | ⟨m, rfl⟩
    · simp [wordUnit, htype] at hword
    · cases htype
    · cases htype
    · cases m <;> cases htype

theorem sends_handles : ∀ {pieces : List Piece} {h : TokenHandler}, h.Plain →
    (∀ piece ∈ pieces, piece.Fits) → (∀ ch ∈ pieces.flatMap Piece.text, queryUnit ch) →
      (pieces.foldl handle h).sends [] = h.sends (pieces.flatMap Piece.text)
  | [], h, _, _, _ => rfl
  | piece :: pieces, h, hplain, hfits, hunits => by
    simp only [flatMap_cons, mem_append, or_imp, forall_and] at hunits
    simp only [mem_cons, forall_eq_or_imp] at hfits
    obtain ⟨hplain', hsends⟩ := handle_sends hplain hfits.1 hunits.1
    rw [foldl_cons, sends_handles hplain' hfits.2 hunits.2, hsends, flatMap_cons]

end TokenHandler

namespace CodeParser

variable {p : CodeParser} {ts : List QueryToken}

theorem tokens_eq_scan (h : p.string.length + 1 < 2 ^ 32) (hunits : ∀ ch ∈ p.string, queryUnit ch) :
    p.tokens = scan [] p.parse.text := by
  have htext : ∀ ch ∈ p.parse.text, queryUnit ch := by
    have hparse := text_parse_string h
    split_ifs at hparse
    · obtain ⟨lost, -, -, heq⟩ := hparse
      exact fun ch hch => hunits ch (heq ▸ mem_append_left _ hch)
    · rwa [hparse]
  have hplain : TokenHandler.init.Plain := ⟨rfl, by simp [TokenHandler.init]⟩
  rw [tokens, TokenHandler.sent_flushToken,
    TokenHandler.sends_handles hplain (fits_parse_string h) htext]
  rfl

theorem tokens_of_spells (h : p.string.length + 1 < 2 ^ 32) (hspells : Spells ts p.string)
    (hlost : ¬(endsInNumber p.string ∧ p.beyond p.string.length = 0x2E)) :
    p.tokens = ts.map QueryToken.text := by
  rw [tokens_eq_scan h hspells.queryUnit, (text_eq_iff h).2 hlost, scan_of_spells hspells]

theorem tokens_of_lost (h : p.string.length + 1 < 2 ^ 32) (hspells : Spells ts p.string)
    (hlost : endsInNumber p.string ∧ p.beyond p.string.length = 0x2E) :
    ∃ front w begun, LosesEnd ts p.parse.text front w begun
      ∧ p.tokens = front.map QueryToken.text ++ flushed begun := by
  have hparse := text_parse_string h
  rw [if_pos hlost] at hparse
  obtain ⟨lost, hne, hnumeric, heq⟩ := hparse
  obtain ⟨front, w, begun, hloses⟩ := losesEnd_of_spells hspells heq.symm hne
    fun ch hch => wordUnit_of_numeric (hnumeric ch hch)
  refine ⟨front, w, begun, hloses, ?_⟩
  rw [tokens_eq_scan h hspells.queryUnit, hloses.scan]

end CodeParser

end Etoile.Lucene
