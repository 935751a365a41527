import Mathlib.Algebra.Group.Nat.Defs
import Mathlib.Data.List.Infix

/-!
# Lines of a stream

The buffer of a reader and what its stream still has to hand over are the bytes behind the lines
that were read, whatever the sizes of the pieces.
-/

namespace Etoile.DictionaryReader

open List

/-- The bytes are pieces with the delimiter behind each, where it first occurs, and a rest. -/
def Split (delim bytes : List UInt8) (pieces : List (List UInt8)) (rest : List UInt8) : Prop :=
  bytes = pieces.flatMap (· ++ delim) ++ rest
    ∧ ∀ piece ∈ pieces, ¬delim <:+: (piece ++ delim).dropLast

theorem Split.concat {delim bytes rest piece rest' : List UInt8} {pieces : List (List UInt8)}
    (h : Split delim bytes pieces rest) (hrest : rest = piece ++ delim ++ rest')
    (hfirst : ¬delim <:+: (piece ++ delim).dropLast) :
    Split delim bytes (pieces ++ [piece]) rest' := by
  refine ⟨?_, forall_mem_append.2 ⟨h.2, forall_mem_singleton.2 hfirst⟩⟩
  rw [h.1, hrest]
  simp

/-- A reader holds `delimSize` bytes of the delimiter and `strBufPos` bytes in its buffer. -/
structure StreamLineReader where
  delim : List UInt8
  strBuf : List UInt8 := []
  strBufSize : ℕ := 0x1000

namespace StreamLineReader

def initWithInputStream (delimData : List UInt8) : StreamLineReader :=
  { delim := delimData.take (delimData.length % 2 ^ 32) }

def delimPosInBuffer (r : StreamLineReader) : Option ℕ :=
  if r.delim.length > r.strBuf.length then none
  else (range (r.strBuf.length - r.delim.length + 1)).find? fun pos =>
    r.delim.isPrefixOf (r.strBuf.drop pos)

/-- The stream is closed, or has a number of bytes to hand over; `none` is a failed assertion. -/
def getMoreCharacters (r : StreamLineReader) (stream : List UInt8) :
    Option ℕ → Option (Bool × StreamLineReader × List UInt8)
  | none => some (false, r, stream)
  | some available =>
    let strBufSize := if r.strBuf.length > r.strBufSize >>> 1 then (r.strBufSize <<< 1) % 2 ^ 32
      else r.strBufSize
    if r.strBuf.length < strBufSize then
      let read := stream.take (min available (strBufSize - r.strBuf.length))
      let numBytesRead : ℤ := (read.length : ℤ).bmod (2 ^ 32)
      if numBytesRead > 0 then
        some (true, ⟨r.delim, r.strBuf ++ read, strBufSize⟩, stream.drop read.length)
      else some (false, ⟨r.delim, r.strBuf, strBufSize⟩, stream.drop read.length)
    else none

variable {σ : Type} (decode : List UInt8 → Option σ)

def extractNextLine (r : StreamLineReader) : Option (Option σ × StreamLineReader) :=
  match r.delimPosInBuffer with
  | none => none
  | some resultLength =>
    if resultLength < r.strBuf.length then
      some (decode (r.strBuf.take resultLength),
        { r with strBuf := r.strBuf.drop (resultLength + r.delim.length) })
    else none

/-- The end of `-readLine`. -/
def lineOrNil (r : StreamLineReader) : Option (Option σ × StreamLineReader) :=
  if r.delimPosInBuffer = none then some (none, r) else r.extractNextLine decode

def readLine (r : StreamLineReader) (stream : List UInt8) : List (Option ℕ) →
    Option (Option σ × StreamLineReader × List UInt8 × List (Option ℕ))
  | [] => (r.lineOrNil decode).map fun (line, r) => (line, r, stream, [])
  | moment :: moments =>
    if r.delimPosInBuffer = none then
      (r.getMoreCharacters stream moment).bind fun (canProceed, r, stream) =>
        if canProceed then r.readLine stream moments
        else (r.lineOrNil decode).map fun (line, r) => (line, r, stream, moments)
    else (r.lineOrNil decode).map fun (line, r) => (line, r, stream, moment :: moments)

/-- A number of calls of `-readLine`, with their results. -/
def readLines (r : StreamLineReader) (stream : List UInt8) (moments : List (Option ℕ)) :
    ℕ → Option (List (Option σ) × StreamLineReader × List UInt8 × List (Option ℕ))
  | 0 => some ([], r, stream, moments)
  | n + 1 => (r.readLines stream moments n).bind fun (lines, r, stream, moments) =>
      (r.readLine decode stream moments).map fun (line, s) => (lines ++ [line], s)

/-- The buffer need not be doubled beyond `unsigned`, and the number of bytes read is an `int`. -/
def Roomy (r : StreamLineReader) (stream : List UInt8) (available : ℕ) : Prop :=
  r.strBufSize = 2 ^ 31 → r.strBuf.length ≤ 2 ^ 30
    ∧ (r.strBuf = [] → min available stream.length < 2 ^ 31)

/-- Every read of a call of `-readLine` is done with room. -/
def RoomyCall (r : StreamLineReader) (stream : List UInt8) : List (Option ℕ) → Prop
  | [] => True
  | moment :: moments => r.delimPosInBuffer = none →
    (∀ available ∈ moment, r.Roomy stream available) ∧ ∀ r' rest,
      r.getMoreCharacters stream moment = some (true, r', rest) → r'.RoomyCall rest moments

variable {r : StreamLineReader} {decode}

theorem infix_iff_drop {delim l : List UInt8} : delim <:+: l ↔ ∃ i, delim <+: l.drop i := by
  constructor
  · intro h
    obtain ⟨t, ht, hs⟩ := infix_iff_prefix_suffix.1 h
    exact ⟨_, suffix_iff_eq_drop.1 hs ▸ ht⟩
  · rintro ⟨i, h⟩
    exact h.isInfix.trans (drop_suffix i l).isInfix

theorem not_infix_of_none (hne : r.delim ≠ []) (h : r.delimPosInBuffer = none) :
    ¬r.delim <:+: r.strBuf := by
  rw [infix_iff_drop]
  rintro ⟨i, hi⟩
  have hpos := length_pos_iff.2 hne
  have hle := hi.length_le
  rw [length_drop] at hle
  rw [delimPosInBuffer, if_neg (by omega), find?_range_eq_none] at h
  simpa [List.isPrefixOf_iff_prefix.2 hi] using h i (by omega)

/-- The delimiter is found at its first occurrence. -/
theorem split_of_some (hne : r.delim ≠ []) {pos : ℕ} (h : r.delimPosInBuffer = some pos) :
    pos < r.strBuf.length
      ∧ r.strBuf = r.strBuf.take pos ++ r.delim ++ r.strBuf.drop (pos + r.delim.length)
      ∧ ¬r.delim <:+: (r.strBuf.take pos ++ r.delim).dropLast := by
  have hpos := length_pos_iff.2 hne
  unfold delimPosInBuffer at h
  split_ifs at h with hlt
  rw [find?_range_eq_some, mem_range, List.isPrefixOf_iff_prefix] at h
  obtain ⟨⟨tail, htail⟩, hmem, hfirst⟩ := h
  have hbuf : r.strBuf = r.strBuf.take pos ++ r.delim ++ tail := by
    rw [append_assoc, htail, take_append_drop]
  have hlen : (r.strBuf.take pos).length = pos := length_take_of_le (by omega)
  refine ⟨by omega, ?_, fun hinfix => ?_⟩
  · rw [← drop_drop, ← htail, drop_left, ← hbuf]
  · obtain ⟨i, hi⟩ := infix_iff_drop.1 hinfix
    have hle := hi.length_le
    rw [length_drop, length_dropLast, length_append, hlen] at hle
    have hstart : (r.strBuf.take pos ++ r.delim).dropLast <+: r.strBuf :=
      (List.dropLast_prefix _).trans ⟨tail, hbuf.symm⟩
    have := hfirst i (by omega)
    simp [List.isPrefixOf_iff_prefix.2 (hi.trans (hstart.drop i))] at this

/-- The buffer is as large as a power of two, which is doubled without overflow. -/
structure Inv (r : StreamLineReader) : Prop where
  size : ∃ i ≤ 31, r.strBufSize = 2 ^ i
  room : r.strBuf.length ≤ r.strBufSize

theorem exists_strBufSize (h : r.Inv) {stream : List UInt8} {available : ℕ}
    (hroomy : r.Roomy stream available) :
    ∃ size, (if r.strBuf.length > r.strBufSize >>> 1 then (r.strBufSize <<< 1) % 2 ^ 32
        else r.strBufSize) = size
      ∧ (∃ i ≤ 31, size = 2 ^ i) ∧ r.strBuf.length < size
      ∧ (r.strBuf = [] → size = r.strBufSize) := by
  obtain ⟨⟨i, hi, hsize⟩, hroom⟩ := h
  refine ⟨_, rfl, ?_⟩
  rw [Nat.shiftRight_eq_div_pow, Nat.shiftLeft_eq, Nat.pow_one]
  have hpos := Nat.two_pow_pos i
  split_ifs with hhalf
  · have hlt : i < 31 := by
      refine lt_of_le_of_ne hi fun heq => ?_
      subst heq
      have := (hroomy hsize).1
      omega
    have hmod : r.strBufSize * 2 % 2 ^ 32 = 2 ^ (i + 1) := by
      rw [hsize, ← Nat.pow_succ, Nat.mod_eq_of_lt (Nat.pow_lt_pow_right (by decide) (by omega))]
    rw [hmod]
    refine ⟨⟨i + 1, hlt, rfl⟩, ?_, fun hnil => ?_⟩
    · rw [Nat.pow_succ]
      omega
    · simp [hnil] at hhalf
  · exact ⟨⟨i, hi, hsize⟩, by omega, fun _ => rfl⟩

theorem getMoreCharacters_eq (h : r.Inv) {stream : List UInt8} {moment : Option ℕ}
    (hroomy : ∀ available ∈ moment, r.Roomy stream available) :
    ∃ read size rest, stream = read ++ rest ∧ Inv ⟨r.delim, r.strBuf ++ read, size⟩
      ∧ r.getMoreCharacters stream moment
        = some (!read.isEmpty, ⟨r.delim, r.strBuf ++ read, size⟩, rest) := by
  rcases moment with _ | available
  · exact ⟨[], r.strBufSize, stream, rfl, by simpa using h, by simp [getMoreCharacters]⟩
  have hroomy := hroomy available rfl
  obtain ⟨size, hsize, ⟨j, hj, rfl⟩, hlt, hold⟩ := exists_strBufSize h hroomy
  set read := stream.take (min available (2 ^ j - r.strBuf.length)) with hread
  have hle : read.length ≤ 2 ^ j - r.strBuf.length ∧ read.length ≤ min available stream.length := by
    rw [hread, length_take]
    omega
  have hpow : 2 ^ j ≤ 2 ^ 31 := Nat.pow_le_pow_right Nat.two_pos hj
  have hint : read.length < 2 ^ 31 := by
    rcases hbuf : r.strBuf with _ | ⟨x, l⟩
    · rcases hpow.lt_or_eq with hlt' | heq
      · omega
      · have := (hroomy ((hold hbuf).symm.trans heq)).2 hbuf
        omega
    · rw [hbuf, length_cons] at hle
      omega
  have hrest : stream = read ++ stream.drop read.length :=
    (List.prefix_iff_eq_append.1 (List.take_prefix _ stream)).symm
  refine ⟨read, 2 ^ j, stream.drop read.length, hrest, ⟨⟨j, hj, rfl⟩, ?_⟩, ?_⟩
  · change (r.strBuf ++ read).length ≤ 2 ^ j
    rw [length_append]
    omega
  · have hbmod : (read.length : ℤ).bmod (2 ^ 32) = read.length :=
      Int.bmod_eq_of_le (by omega) (by omega)
    simp only [getMoreCharacters, hsize, if_pos hlt, ← hread, hbmod]
    rcases read with _ | ⟨x, l⟩ <;> simp

/-- A line is the piece up to the next delimiter; without one all that was handed over is kept. -/
def Answer (decode : List UInt8 → Option σ) (r : StreamLineReader) (stream : List UInt8)
    (moments : List (Option ℕ)) :
    Option σ × StreamLineReader × List UInt8 × List (Option ℕ) → Prop
  | (line, r', rest, later) => r'.delim = r.delim ∧ r'.Inv ∧ later.length ≤ moments.length
    ∧ ((∃ piece, line = decode piece ∧ ¬r.delim <:+: (piece ++ r.delim).dropLast
        ∧ r.strBuf ++ stream = piece ++ r.delim ++ (r'.strBuf ++ rest)
        ∧ (moments ≠ [] ∨ r.delim <:+: r.strBuf))
      ∨ line = none ∧ ¬r.delim <:+: r'.strBuf ∧ r.strBuf ++ stream = r'.strBuf ++ rest
        ∧ (later = [] ∨ later.length < moments.length))

theorem readLine_found (hne : r.delim ≠ []) (h : r.Inv) {pos : ℕ}
    (hpos : r.delimPosInBuffer = some pos) (stream : List UInt8) (moments : List (Option ℕ)) :
    ∃ a, r.readLine decode stream moments = some a ∧ Answer decode r stream moments a := by
  obtain ⟨hlt, heq, hfirst⟩ := split_of_some hne hpos
  refine ⟨(decode (r.strBuf.take pos),
    { r with strBuf := r.strBuf.drop (pos + r.delim.length) }, stream, moments), ?_, rfl,
    ⟨h.size, ?_⟩, le_rfl, .inl ⟨_, rfl, hfirst, ?_, .inr ⟨_, _, heq.symm⟩⟩⟩
  · cases moments <;> simp [readLine, lineOrNil, extractNextLine, hpos, hlt]
  · have := h.room
    simp only [length_drop]
    omega
  · rw [← append_assoc, ← heq]

theorem readLine_answer : ∀ (moments : List (Option ℕ)) {r : StreamLineReader}
    (stream : List UInt8), r.delim ≠ [] → r.Inv → r.RoomyCall stream moments →
    ∃ a, r.readLine decode stream moments = some a ∧ Answer decode r stream moments a := by
  intro moments
  induction moments with
  | nil =>
    intro r stream hne h _
    rcases hpos : r.delimPosInBuffer with _ | pos
    · exact ⟨(none, r, stream, []), by simp [readLine, lineOrNil, hpos], rfl, h, le_rfl,
        .inr ⟨rfl, not_infix_of_none hne hpos, rfl, .inl rfl⟩⟩
    · exact readLine_found hne h hpos stream []
  | cons moment moments ih =>
    intro r stream hne h hroomy
    rcases hpos : r.delimPosInBuffer with _ | pos
    · obtain ⟨hroom, hnext⟩ := hroomy hpos
      obtain ⟨read, size, rest, rfl, hinv, hmore⟩ := getMoreCharacters_eq h hroom
      rcases read with _ | ⟨x, l⟩
      · have hnone : delimPosInBuffer ⟨r.delim, r.strBuf, size⟩ = none := hpos
        simp only [append_nil, nil_append, isEmpty_nil, Bool.not_true] at hmore hinv
        exact ⟨(none, ⟨r.delim, r.strBuf, size⟩, rest, moments),
          by simp [readLine, hpos, hmore, lineOrNil, hnone], rfl, hinv, Nat.le_succ _,
          .inr ⟨rfl, not_infix_of_none hne hpos, rfl, .inr (Nat.lt_succ_self _)⟩⟩
      · obtain ⟨⟨line, r', rest', later⟩, hread, hdelim, hinv', hlen, hanswer⟩ :=
          ih (r := ⟨r.delim, r.strBuf ++ x :: l, size⟩) rest hne hinv (hnext _ _ hmore)
        refine ⟨(line, r', rest', later), ?_, hdelim, hinv', hlen.trans (Nat.le_succ _),
          hanswer.imp ?_ ?_⟩
        · rw [readLine, if_pos hpos, hmore]
          exact hread
        · rintro ⟨piece, hline, hfirst, heq, -⟩
          exact ⟨piece, hline, hfirst, by simpa using heq, .inl (cons_ne_nil _ _)⟩
        · rintro ⟨hline, hinfix, heq, -⟩
          exact ⟨hline, hinfix, by simpa using heq, .inr (Nat.lt_succ_of_le hlen)⟩
    · exact readLine_found hne h hpos stream _

/-- What was read in a number of calls is split as it should be; before the end of the stream,
every call takes something of what there was. -/
structure Reading (decode : List UInt8 → Option σ) (delim bytes : List UInt8)
    (moments : List (Option ℕ)) (calls : ℕ)
    (s : List (Option σ) × StreamLineReader × List UInt8 × List (Option ℕ)) : Prop where
  sameDelim : s.2.1.delim = delim
  inv : s.2.1.Inv
  lines : ∃ pieces, (s.1.filterMap id).map some = pieces.map decode
    ∧ Split delim bytes pieces (s.2.1.strBuf ++ s.2.2.1)
  nothing : s.1.getLast? = some none → ¬delim <:+: s.2.1.strBuf
  ends : s.2.2.2.length + (s.2.1.strBuf ++ s.2.2.1).length + calls ≤ moments.length + bytes.length
    ∨ s.2.2.2 = [] ∧ s.1.getLast? = some none

/-- In a run with room for every read no assertion fails, and the lines are the pieces. -/
theorem readLines_reading {delim : List UInt8} (hne : delim ≠ []) (hlen : delim.length < 2 ^ 32)
    (bytes : List UInt8) (moments : List (Option ℕ))
    (hvalid : ∀ pieces rest, Split delim bytes pieces rest →
      ∀ piece ∈ pieces, (decode piece).isSome) (n : ℕ)
    (hroomy : ∀ k < n, ∀ lines r stream later,
      (initWithInputStream delim).readLines decode bytes moments k
        = some (lines, r, stream, later) → r.RoomyCall stream later) :
    ∃ s, (initWithInputStream delim).readLines decode bytes moments n = some s
      ∧ Reading decode delim bytes moments n s := by
  induction n with
  | zero =>
    refine ⟨_, rfl, ?_, ⟨⟨12, by decide, rfl⟩, Nat.zero_le _⟩, ⟨[], rfl, rfl, nofun⟩, nofun,
      .inl le_rfl⟩
    exact take_of_length_le (by rw [Nat.mod_eq_of_lt hlen])
  | succ n ih =>
    obtain ⟨⟨lines, r, stream, later⟩, hrun, h⟩ := ih fun k hk => hroomy k (Nat.lt_succ_of_lt hk)
    obtain ⟨hdelim, hinv, ⟨pieces, hlines, hsplit⟩, hnothing, hends⟩ := h
    dsimp only at hdelim hinv hlines hsplit hnothing hends
    subst hdelim
    have hcall : ∃ a, r.readLine decode stream later = some a ∧ Answer decode r stream later a :=
      readLine_answer later stream hne hinv (hroomy n (Nat.lt_succ_self n) _ _ _ _ hrun)
    obtain ⟨⟨line, r', rest, later'⟩, hread, hdelim', hinv', hlater, hanswer⟩ := hcall
    have hrun' : (initWithInputStream r.delim).readLines decode bytes moments (n + 1)
        = some (lines ++ [line], r', rest, later') := by
      simp [readLines, hrun, hread]
    refine ⟨_, hrun', ?_⟩
    rcases hanswer with ⟨piece, rfl, hfirst, heq, hmoments⟩ | ⟨rfl, hinfix, heq, hlater'⟩
    · have hsplit' := hsplit.concat heq hfirst
      obtain ⟨line, hline⟩ := Option.isSome_iff_exists.1 (hvalid _ _ hsplit' piece (by simp))
      refine ⟨hdelim', hinv', ⟨pieces ++ [piece], ?_, hsplit'⟩, by simp [hline], .inl ?_⟩
      · rw [filterMap_append, map_append, hlines]
        simp [hline]
      have hlength := congrArg length heq
      have hpos := length_pos_iff.2 hne
      simp only [length_append] at hlength hends ⊢
      rcases hends with hends | ⟨rfl, hlast⟩
      · omega
      · exact absurd (hmoments.resolve_left fun h => h rfl) (hnothing hlast)
    · refine ⟨hdelim', hinv', ⟨pieces, by simpa using hlines, heq ▸ hsplit⟩, fun _ => hinfix, ?_⟩
      rcases hlater' with rfl | hlt
      · exact .inr ⟨rfl, by simp⟩
      · rcases hends with hends | ⟨rfl, -⟩
        · rw [heq] at hends
          exact .inl (by dsimp only; omega)
        · cases hlt

theorem readLines_one : ∃ s,
    (initWithInputStream [13, 10]).readLines some [97, 13, 10] [some 3] 1 = some s
      ∧ Reading some [13, 10] [97, 13, 10] [some 3] 1 s := by
  refine readLines_reading (by decide) (by decide) _ _ (fun _ _ _ _ _ => rfl) 1 ?_
  intro k hk lines r stream later h
  obtain rfl : k = 0 := by omega
  cases h
  exact fun _ => ⟨fun _ _ h => absurd h (by decide), fun _ _ _ => trivial⟩

/-! Bytes without a delimiter. -/

theorem delimPosInBuffer_replicate (a size : ℕ) :
    delimPosInBuffer ⟨[1], replicate a 0, size⟩ = none := by
  rcases h : delimPosInBuffer ⟨[1], replicate a 0, size⟩ with _ | pos
  · rfl
  · have heq := (split_of_some (by simp) h).2.1
    have : (1 : UInt8) ∈ replicate a 0 := by
      dsimp only at heq
      rw [heq]
      simp
    cases (mem_replicate.1 this).2

theorem getMoreCharacters_replicate {a m size : ℕ} (next : ℕ)
    (hnext : (if a > size >>> 1 then (size <<< 1) % 2 ^ 32 else size) = next) (hlt : a < next)
    (hle : next < a + 2 ^ 31) (hm : next ≤ a + m) :
    getMoreCharacters ⟨[1], replicate a 0, size⟩ (replicate m 0) (some (2 ^ 31))
      = some (true, ⟨[1], replicate next 0, next⟩, replicate (a + m - next) 0) := by
  have hmin : min (min (2 ^ 31) (next - a)) m = next - a := by omega
  have hbmod : ((next - a : ℕ) : ℤ).bmod (2 ^ 32) = (next - a : ℕ) :=
    Int.bmod_eq_of_le (by omega) (by omega)
  have hpos : ((next - a : ℕ) : ℤ) > 0 := by omega
  simp only [getMoreCharacters, length_replicate, hnext, if_pos hlt, take_replicate, hmin, hbmod,
    if_pos hpos, drop_replicate, replicate_append_replicate, Nat.add_sub_cancel' hlt.le]
  rw [show m - (next - a) = a + m - next by omega]

theorem readLine_replicate (k : ℕ) : ∀ i m, i + k = 31 → 2 ^ i + m = 2 ^ 31 →
    readLine decode ⟨[1], replicate (2 ^ i) 0, 2 ^ i⟩ (replicate m 0)
      (replicate (k + 1) (some (2 ^ 31))) = none := by
  induction k with
  | zero =>
    intro i m hi _
    have hsize : (2 ^ i <<< 1) % 2 ^ 32 = 0 := by
      rw [show i = 31 from hi]
      decide
    have hhalf : 2 ^ i > 2 ^ i >>> 1 := by
      rw [show i = 31 from hi]
      decide
    have hnone : getMoreCharacters ⟨[1], replicate (2 ^ i) 0, 2 ^ i⟩ (replicate m 0)
        (some (2 ^ 31)) = none := by
      simp only [getMoreCharacters, length_replicate, if_pos hhalf, hsize, Nat.not_lt_zero, if_false]
    rw [replicate_succ, readLine, if_pos (delimPosInBuffer_replicate _ _), hnone]
    rfl
  | succ k ih =>
    intro i m hi hm
    have hpow : 2 ^ (i + 1) ≤ 2 ^ 31 := Nat.pow_le_pow_right Nat.two_pos (by omega)
    have hnext : (if 2 ^ i > 2 ^ i >>> 1 then (2 ^ i <<< 1) % 2 ^ 32 else 2 ^ i) = 2 ^ (i + 1) := by
      rw [Nat.shiftRight_eq_div_pow, Nat.shiftLeft_eq, Nat.pow_one, ← Nat.pow_succ,
        if_pos (Nat.div_lt_self (Nat.two_pow_pos i) (by decide)), Nat.mod_eq_of_lt (by omega)]
    have hsucc := Nat.pow_succ 2 i
    have hpos := Nat.two_pow_pos i
    rw [replicate_succ, readLine, if_pos (delimPosInBuffer_replicate _ _),
      getMoreCharacters_replicate _ hnext (by omega) (by omega) (by omega)]
    exact ih (i + 1) _ (by omega) (by omega)

theorem not_readLines_reading : ¬∀ (delim bytes : List UInt8) (moments : List (Option ℕ)) (n : ℕ),
    delim ≠ [] → ∃ s, (initWithInputStream delim).readLines some bytes moments n = some s
      ∧ Reading some delim bytes moments n s := by
  intro h
  -- The sizes are variables: no list of so many bytes is ever written out.
  obtain ⟨m, hm⟩ : ∃ m, m = 2 ^ 31 := ⟨_, rfl⟩
  obtain ⟨i, hi⟩ : ∃ i, i = 12 := ⟨_, rfl⟩
  obtain ⟨s, hs, -⟩ := h [1] (replicate m 0) (some (2 ^ 31) :: replicate 20 (some (2 ^ 31))) 1
    (by decide)
  have hi' : 2 ^ i = 0x1000 := hi ▸ rfl
  have hnext : (if 0 > 0x1000 >>> 1 then (0x1000 <<< 1) % 2 ^ 32 else 0x1000) = 2 ^ i := by
    rw [hi']
    decide
  have hline : readLine some ⟨[1], replicate 0 0, 0x1000⟩ (replicate m 0)
      (some (2 ^ 31) :: replicate 20 (some (2 ^ 31))) = none := by
    rw [readLine, if_pos (delimPosInBuffer_replicate 0 _),
      getMoreCharacters_replicate (2 ^ i) hnext (by omega) (by omega) (by omega)]
    exact readLine_replicate 19 i _ (by omega) (by omega)
  rw [readLines, readLines, Option.bind_some,
    show initWithInputStream [1] = ⟨[1], replicate 0 0, 0x1000⟩ from rfl] at hs
  dsimp only at hs
  rw [hline] at hs
  cases hs

end StreamLineReader

end Etoile.DictionaryReader
