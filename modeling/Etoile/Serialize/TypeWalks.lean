import Etoile.Serialize.TypeEncoding

/-!
# Replaying what was stored

The deserializer keeps a stack of the structures and arrays it is in, and finds the address of what
it loads from the topmost.  `address` is that of the instance variable that is loaded; the
variables that take care of themselves are left out.
-/

namespace Etoile.Serialize

inductive StateType
  | array
  | struct
  deriving DecidableEq

structure ETDeserializerState where
  startOffset : ℕ
  size : ℕ
  type : StateType
  index : ℕ
  deriving DecidableEq

/-- What an `ETDeserializer` keeps while it loads an instance variable: the states above the lowest,
which is never read, with the topmost first. -/
structure ETDeserializerStack where
  states : List ETDeserializerState := []
  loadedIVar : ℕ := 0
  writes : List Cell := []
  deriving DecidableEq

namespace ETDeserializerStack

variable (address : ℕ)

/-- In a structure the next member is moved to a multiple of `__alignof__(int)`. -/
def offsetOfIvar (hint size : ℕ) : List ETDeserializerState → ℕ × List ETDeserializerState
  | [] => (address, [])
  | state :: states =>
    match state.type with
    | .array =>
      (state.startOffset + size * hint, { state with size := size * hint } :: states)
    | .struct =>
      let startOffset := roundUp (state.startOffset + size) 4
      (state.startOffset, { state with
        startOffset := startOffset
        size := state.size + (startOffset - state.startOffset) } :: states)

/-- There are twenty states; what lies behind them is overwritten by more. -/
def PUSH_STATE (d : ETDeserializerStack) (offset : ℕ) (type : StateType) :
    Option ETDeserializerStack :=
  if d.states.length + 1 < 20 then
    some { d with states := ⟨offset, 0, type, d.loadedIVar⟩ :: d.states, loadedIVar := 0 }
  else none

def POP (d : ETDeserializerStack) : Option ETDeserializerStack :=
  match d.states with
  | [] => none
  | [top] => some { d with states := [], loadedIVar := top.index }
  | top :: state :: states => some { d with
      states := { state with startOffset := state.startOffset + top.size } :: states
      loadedIVar := top.index }

def load (d : ETDeserializerStack) : TypeEvent → Option ETDeserializerStack
  | .store c =>
    let (place, states) := offsetOfIvar address d.loadedIVar c.size d.states
    some { d with
      states := states
      loadedIVar := d.loadedIVar + 1
      writes := d.writes ++ [(place, c)] }
  | .beginStruct _ =>
    let (place, states) := offsetOfIvar address d.loadedIVar 0 d.states
    { d with states := states, loadedIVar := d.loadedIVar + 1 }.PUSH_STATE place .struct
  -- the size that is taken is `sizeof(aLength)`
  | .beginArray _ =>
    let (place, states) := offsetOfIvar address d.loadedIVar 4 d.states
    { d with states := states, loadedIVar := d.loadedIVar + 1 }.PUSH_STATE place .array
  | .endStruct | .endArray => d.POP

def replay (events : List TypeEvent) : Option (List Cell) :=
  (events.foldlM (load address) {}).map (·.writes)

end ETDeserializerStack

end Etoile.Serialize

/-!
## What the serializer makes of an encoding

Without regard to the string the serializer takes the members of a structure to be one or more
words apart.  Where no structure lies in a structure that is what it makes of the string, too.
-/

namespace Etoile.Serialize

open CType List Nat Option

mutual

/-- The size, if each member of a structure takes up a word at least. -/
def CType.wordSize : CType → ℕ
  | .scalar c => c.size
  | .struct _ members => members.wordSize
  | .array n _ element => (n + 1) * element.wordSize

def Members.wordSize : Members → ℕ
  | .last _ type => max type.wordSize WORD_SIZE
  | .cons _ type rest => max type.wordSize WORD_SIZE + rest.wordSize

end

mutual

def CType.reads (address : ℕ) : CType → List Cell
  | .scalar c => [(address, c)]
  | .struct _ members => members.reads address
  | .array n _ element =>
    inARow (fun place => element.reads place) (· + element.wordSize) (n + 1) address

def Members.reads (address : ℕ) : Members → List Cell
  | .last _ type => type.reads address
  | .cons _ type rest =>
    type.reads address ++ rest.reads (address + max type.wordSize WORD_SIZE)

end

mutual

def CType.events : CType → List TypeEvent
  | .scalar c => [.store c]
  | .struct name members => .beginStruct name.encode :: members.events ++ [.endStruct]
  | .array n _ element =>
    .beginArray (n + 1) :: (replicate (n + 1) element.events).flatten ++ [.endArray]

def Members.events : Members → List TypeEvent
  | .last _ type => type.events
  | .cons _ type rest => type.events ++ rest.events

end

def CType.flat : CType → Bool
  | .scalar _ => true
  | .struct _ _ => false
  | .array _ _ element => element.flat

def Members.flat : Members → Bool
  | .last _ type => type.flat
  | .cons _ type rest => type.flat && rest.flat

/-- No structure is part of another one, or has a function of its own that stores it. -/
def CType.simple (registered : List Char → Bool) : CType → Bool
  | .scalar _ => true
  | .struct name members => !registered name.encode && members.flat
  | .array _ _ element => element.simple registered

section Parsing

variable {registered : List Char → Bool}

theorem Scalar.ofCode?_code (c : Scalar) : ofCode? c.code = some c := by
  cases c with
  | intrinsic type => cases type <;> rfl
  | _ => rfl

structure Begins (c : Char) : Prop where
  ne_end : c ≠ '}'
  ne_quote : c ≠ '"'
  not_digit : c.isDigit = false

theorem Scalar.begins (c : Scalar) : Begins c.code := by
  cases c with
  | intrinsic type => cases type <;> exact ⟨by decide, by decide, by decide⟩
  | _ => exact ⟨by decide, by decide, by decide⟩

theorem CType.begins : ∀ t : CType, ∃ c rest, t.encode = c :: rest ∧ Begins c
  | .scalar c => ⟨_, _, rfl, c.begins⟩
  | .struct _ _ => ⟨_, _, rfl, ⟨by decide, by decide, by decide⟩⟩
  | .array _ _ _ => ⟨_, _, rfl, ⟨by decide, by decide, by decide⟩⟩

theorem CType.length_encode_pos (t : CType) : 0 < t.encode.length := by
  obtain ⟨c, rest, hc, -⟩ := t.begins
  rw [hc]
  exact succ_pos _

theorem parse_scalar (c : Scalar) (fuel : ℕ) (rest : List Char) (address : ℕ) :
    parseType registered (fuel + 1) (c.code :: rest) address
      = some ⟨c.size, 1, [.store c], [(address, c)]⟩ := by
  have hstore : storeIntrinsic c.code address = some ⟨c.size, 1, [.store c], [(address, c)]⟩ := by
    unfold storeIntrinsic
    rw [c.ofCode?_code]
    rfl
  cases c with
  | intrinsic type => cases type <;> exact hstore
  | _ => exact hstore

theorem parseElements_eq {parse : ℕ → Option Parsed} {size offset : ℕ} {events : List TypeEvent}
    {reads : ℕ → List Cell}
    (h : ∀ address, parse address = some ⟨size, offset, events, reads address⟩) :
    ∀ n address, parseElements parse n address = some ⟨n * size, if n = 0 then 0 else offset,
      (replicate n events).flatten, inARow reads (· + size) n address⟩
  | 0, _ => by
    rw [zero_mul]
    rfl
  | n + 1, address => by
    unfold parseElements
    rw [h, bind_eq_bind, bind_some, parseElements_eq h n, bind_some]
    refine congrArg some ?_
    have hoffset : (if n = 0 then offset else if n = 0 then 0 else offset) = offset := by
      split_ifs <;> rfl
    rw [hoffset, succ_mul, add_comm size, replicate_succ, flatten_cons]
    rfl

theorem takeWhile_digits {c : Char} (hc : c.isDigit = false) (n : ℕ) (rest : List Char) :
    (toDigits 10 n ++ c :: rest).takeWhile Char.isDigit = toDigits 10 n := by
  have hall : ∀ d ∈ toDigits 10 n, d.isDigit = true := fun d hd =>
    isDigit_of_mem_toDigits (by decide) (by decide) hd
  rw [takeWhile_append_of_pos hall, takeWhile_cons_of_neg (by simp [hc]), append_nil]

theorem parseType_array (fuel : ℕ) (type : List Char) (address : ℕ) :
    parseType registered (fuel + 1) ('[' :: type) address
      = (parseElements (fun address => parseType registered fuel
          (type.drop (type.takeWhile Char.isDigit).length) address)
        (ofDigitChars 10 (type.takeWhile Char.isDigit) 0 % 2 ^ 32) address).bind fun body =>
      some ⟨body.size, (type.takeWhile Char.isDigit).length + 2 + body.offset,
        .beginArray (ofDigitChars 10 (type.takeWhile Char.isDigit) 0 % 2 ^ 32) :: body.events
          ++ [.endArray], body.reads⟩ := by
  rw [parseType]
  rfl

variable {rest : List Char}

theorem parse_array {n : ℕ} (small : n + 1 < 2 ^ 32) {element : CType} {fuel offset : ℕ} (address : ℕ)
    (h : ∀ address, parseType registered fuel (element.encode ++ ']' :: rest) address
      = some ⟨element.wordSize, offset, element.events, element.reads address⟩) :
    parseType registered (fuel + 1) ((array n small element).encode ++ rest) address
      = some ⟨(array n small element).wordSize, (toDigits 10 (n + 1)).length + 2 + offset,
        (array n small element).events, (array n small element).reads address⟩ := by
  obtain ⟨c, tail, hc, hbegins⟩ := element.begins
  have hstring : (array n small element).encode ++ rest
      = '[' :: (toDigits 10 (n + 1) ++ (element.encode ++ ']' :: rest)) := by
    simp [encode]
  have hdigits : (toDigits 10 (n + 1) ++ (element.encode ++ ']' :: rest)).takeWhile
      Char.isDigit = toDigits 10 (n + 1) := by
    rw [hc]
    exact takeWhile_digits hbegins.not_digit _ _
  rw [hstring, parseType_array, hdigits, ofDigitChars_ten_toDigits, mod_eq_of_lt small,
    drop_left, parseElements_eq h]
  rfl

theorem parse_flat : ∀ {t : CType}, t.flat = true → ∀ {fuel : ℕ} {rest : List Char}
    (address : ℕ), t.encode.length ≤ fuel → parseType registered fuel (t.encode ++ rest) address
      = some ⟨t.wordSize, t.encode.length, t.events, t.reads address⟩
  | .scalar c, _, 0, _, _, hfuel => absurd hfuel (by simp [encode])
  | .scalar c, _, fuel + 1, rest, address, _ => parse_scalar c fuel rest address
  | .array n small element, _, 0, _, _, hfuel => absurd hfuel (by simp [encode])
  | .array n small element, hflat, fuel + 1, rest, address, hfuel => by
    have hlength : (array n small element).encode.length
        = (toDigits 10 (n + 1)).length + 2 + element.encode.length := by
      simp [encode]
      omega
    rw [hlength]
    exact parse_array small address fun address =>
      parse_flat (t := element) hflat address (by omega)

theorem fieldName_encode (name : Option FieldName) {t : CType} (rest : List Char) :
    fieldName (encodeName name ++ (t.encode ++ rest)) = encodeName name := by
  obtain ⟨c, tail, hc, hbegins⟩ := t.begins
  cases name with
  | none =>
    rw [hc]
    show fieldName (c :: (tail ++ rest)) = []
    unfold fieldName
    split
    · rename_i heq
      exact absurd (cons.inj heq).1 hbegins.ne_quote
    · rfl
  | some field =>
    have hall : ∀ d ∈ field.name, d ≠ '"' := by
      rintro d hd rfl
      exact field.noQuote hd
    show '"' :: (field.name ++ ['"'] ++ (t.encode ++ rest)).takeWhile _ ++ ['"'] = _
    rw [append_assoc, takeWhile_append_of_pos (by simpa using hall),
      singleton_append, takeWhile_cons_of_neg (by simp), append_nil]
    rfl

theorem parseStructBody_member {fuel : ℕ} {type : List Char} {address : ℕ}
    (hend : type.head? ≠ some '}') (hne : type ≠ []) :
    parseStructBody registered (fuel + 1) type address = (parseType registered fuel
        (type.drop (fieldName type).length) address).bind fun substruct =>
      (parseStructBody registered fuel (type.drop ((fieldName type).length + substruct.offset))
        (address + max substruct.size WORD_SIZE)).bind fun others =>
      some ⟨max substruct.size WORD_SIZE + others.size, (fieldName type).length + others.offset,
        substruct.events ++ others.events, substruct.reads ++ others.reads⟩ := by
  rw [parseStructBody]
  · rfl
  · exact hne
  · rintro tail rfl
    exact hend rfl

theorem parse_member {name : Option FieldName} {t : CType} {fuel : ℕ}
    {address : ℕ} (hflat : t.flat = true) (hfuel : t.encode.length ≤ fuel) :
    parseStructBody registered (fuel + 1) (encodeName name ++ (t.encode ++ rest)) address
      = (parseStructBody registered fuel rest (address + max t.wordSize WORD_SIZE)).bind
        fun others => some ⟨max t.wordSize WORD_SIZE + others.size,
          (encodeName name).length + others.offset, t.events ++ others.events,
          t.reads address ++ others.reads⟩ := by
  have hname := fieldName_encode name (t := t) rest
  have hnext : (encodeName name ++ (t.encode ++ rest)).drop
      ((encodeName name).length + t.encode.length) = rest := by
    rw [← drop_drop, drop_left, drop_left]
  rw [parseStructBody_member, hname, drop_left, parse_flat hflat address hfuel,
    bind_some, hnext]
  all_goals
    obtain ⟨c, tail, hc, hbegins⟩ := t.begins
    rw [hc]
    cases name with
    | none => simp [encodeName, hbegins.ne_end]
    | some field => simp [encodeName]

def Members.namesLength : Members → ℕ
  | .last name _ => (encodeName name).length
  | .cons name _ rest => (encodeName name).length + rest.namesLength

theorem parse_members : ∀ {ms : Members}, ms.flat = true → ∀ {fuel : ℕ} {rest : List Char}
    (address : ℕ), ms.encode.length < fuel →
      parseStructBody registered fuel (ms.encode ++ '}' :: rest) address
        = some ⟨ms.wordSize, ms.namesLength, ms.events, ms.reads address⟩
  | .last name t, hflat, fuel + 1, rest, address, hfuel => by
    have hlength : (encodeName name).length + t.encode.length < fuel + 1 := by
      rw [← length_append]
      exact hfuel
    have hpos := t.length_encode_pos
    obtain ⟨fuel, rfl⟩ : ∃ k, fuel = k + 1 := ⟨fuel - 1, by omega⟩
    rw [Members.encode, append_assoc, parse_member hflat (by omega), parseStructBody]
    simp [Members.wordSize, Members.events, Members.reads, Members.namesLength]
  | .cons name t ms, hflat, fuel + 1, rest, address, hfuel => by
    have hlength : (encodeName name).length + t.encode.length + ms.encode.length < fuel + 1 := by
      rw [← length_append, ← length_append]
      exact hfuel
    have hpos := t.length_encode_pos
    have hboth := Bool.and_eq_true_iff.1 hflat
    rw [Members.encode, append_assoc, append_assoc, parse_member hboth.1 (by omega),
      parse_members hboth.2 _ (by omega)]
    rfl

theorem structName_encode (name : StructName) (rest : List Char) :
    structName (name.encode ++ '=' :: rest) = name.encode := by
  have hall : ∀ d ∈ name.rest, d ≠ '=' := by
    rintro d hd rfl
    exact name.noEquals hd
  show name.first :: (name.rest ++ '=' :: rest).takeWhile _ = _
  rw [takeWhile_append_of_pos (by simpa using hall), takeWhile_cons_of_neg (by simp),
    append_nil]
  rfl

theorem parse_struct {name : StructName} {ms : Members} (hname : registered name.encode = false)
    (hflat : ms.flat = true) {fuel : ℕ} (address : ℕ)
    (hfuel : (struct name ms).encode.length ≤ fuel) :
    parseType registered fuel ((struct name ms).encode ++ rest) address
      = some ⟨(struct name ms).wordSize, name.encode.length + 2 + ms.namesLength + 1,
        (struct name ms).events, (struct name ms).reads address⟩ := by
  have hlength : (struct name ms).encode.length
      = name.encode.length + ms.encode.length + 3 := by
    simp [encode]
    omega
  obtain ⟨fuel, rfl⟩ : ∃ k, fuel = k + 1 := ⟨fuel - 1, by omega⟩
  have hstring : (struct name ms).encode ++ rest
      = '{' :: (name.encode ++ '=' :: (ms.encode ++ '}' :: rest)) := by
    simp [encode]
  have hdrop : (name.encode ++ '=' :: (ms.encode ++ '}' :: rest)).drop (name.encode.length + 1)
      = ms.encode ++ '}' :: rest := by
    rw [← drop_drop, drop_left]
    rfl
  rw [hstring, parseType, structName_encode, if_neg (by simp [hname]), hdrop,
    parse_members hflat address (by omega)]
  rfl

/-- Where no structure lies in another the string is walked through as the type is. -/
theorem parse_simple : ∀ {t : CType}, t.simple registered = true → ∃ offset, ∀ {fuel : ℕ}
    {rest : List Char} (address : ℕ), t.encode.length ≤ fuel →
      parseType registered fuel (t.encode ++ rest) address
        = some ⟨t.wordSize, offset, t.events, t.reads address⟩
  | .scalar c, _ => ⟨1, fun address hfuel => parse_flat (t := .scalar c) rfl address hfuel⟩
  | .struct name ms, hsimple => by
    have hboth := Bool.and_eq_true_iff.1 hsimple
    exact ⟨_, fun address hfuel => parse_struct (by simpa using hboth.1) hboth.2 address hfuel⟩
  | .array n small element, hsimple => by
    obtain ⟨offset, h⟩ := parse_simple (t := element) hsimple
    refine ⟨(toDigits 10 (n + 1)).length + 2 + offset, fun {fuel} {rest} address hfuel => ?_⟩
    have hlength : (array n small element).encode.length
        = (toDigits 10 (n + 1)).length + 2 + element.encode.length := by
      simp [encode]
      omega
    obtain ⟨fuel, rfl⟩ : ∃ k, fuel = k + 1 := ⟨fuel - 1, by omega⟩
    exact parse_array small address fun address => h address (by omega)

end Parsing

end Etoile.Serialize
