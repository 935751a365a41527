import Etoile.Serialize.TypeEncoding

/-!
# What an encoding takes

Every encoding that the serializer is made for: also pointers to structures, qualified types,
structures without members and arrays of any length.  `-parseType:atAddress:withName:` returns how
much of the string it has gone through and how much memory the value takes.  `functions` says what
the function that is registered for a structure returns.
-/

namespace Etoile.Serialize

structure TagName where
  name : List Char
  nonempty : name ≠ []
  noEquals : '=' ∉ name

/-- `const`, `in`, `inout`, `out`, `bycopy` and `oneway`. -/
inductive Qualifier
  | r | n | N | o | O | V

def Qualifier.code : Qualifier → Char
  | r => 'r'
  | n => 'n'
  | N => 'N'
  | o => 'o'
  | O => 'O'
  | V => 'V'

mutual

inductive TypeCode
  | scalar (c : Scalar)
  | struct (name : TagName) (members : MemberCodes)
  | array (n : ℕ) (element : TypeCode)
  | pointer (name : TagName) (members : MemberCodes)
  | qualified (q : Qualifier) (type : TypeCode)

inductive MemberCodes
  | nil
  | cons (name : Option FieldName) (type : TypeCode) (rest : MemberCodes)

end

def encodeStruct (name : TagName) (members : List Char) : List Char :=
  '{' :: name.name ++ '=' :: members ++ ['}']

mutual

def TypeCode.encode : TypeCode → List Char
  | .scalar c => [c.code]
  | .struct name members => encodeStruct name members.encode
  | .array n element => '[' :: Nat.toDigits 10 n ++ element.encode ++ [']']
  | .pointer name members => '^' :: encodeStruct name members.encode
  | .qualified q type => q.code :: type.encode

def MemberCodes.encode : MemberCodes → List Char
  | .nil => []
  | .cons name type rest => encodeName name ++ type.encode ++ rest.encode

end

mutual

def TypeCode.align : TypeCode → ℕ
  | .scalar c => c.size
  | .struct _ members => members.align
  | .array _ element => element.align
  | .pointer _ _ => 8
  | .qualified _ type => type.align

def MemberCodes.align : MemberCodes → ℕ
  | .nil => 1
  | .cons _ type rest => max type.align rest.align

end

mutual

def TypeCode.sizeof : TypeCode → ℕ
  | .scalar c => c.size
  | .struct _ members => roundUp (members.endFrom 0) members.align
  | .array n element => n * element.sizeof
  | .pointer _ _ => 8
  | .qualified _ type => type.sizeof

/-- Where the members end, if the first may begin at `offset`. -/
def MemberCodes.endFrom (offset : ℕ) : MemberCodes → ℕ
  | .nil => offset
  | .cons _ type rest => rest.endFrom (roundUp offset type.align + type.sizeof)

end

/-- `parsed_type_size_t`. -/
structure ParsedTypeSize where
  size : ℕ
  offset : ℕ
  deriving DecidableEq

namespace ParsedTypeSize

/-- A type that is not recognised has the size `-1`. -/
def ofIntrinsic (type : Char) : ParsedTypeSize :=
  match Scalar.ofCode? type with
  | some c => ⟨c.size, 1⟩
  | none => ⟨2 ^ 64 - 1, 1⟩

/-- The loop over the elements, all of which begin at the same place of the string. -/
def elements (substruct : Option ParsedTypeSize) : ℕ → Option ParsedTypeSize
  | 0 => some ⟨0, 0⟩
  | n + 1 => do
    let substruct ← substruct
    let others ← elements (some substruct) n
    return ⟨substruct.size + others.size, if n = 0 then substruct.offset else others.offset⟩

end ParsedTypeSize

/-- `elements = strtol(type, NULL, 10)`, which is at most `LONG_MAX`, as an `unsigned int`. -/
def elementCount (digits : List Char) : ℕ :=
  min (Nat.ofDigitChars 10 digits 0) (2 ^ 63 - 1) % 2 ^ 32

variable (functions : List Char → Option ParsedTypeSize)

mutual

/-- There is no result if the string ends too early, or the loop over members stays where it is. -/
def parseTypeSize : ℕ → List Char → Option ParsedTypeSize
  | 0, _ => none
  | fuel + 1, type =>
    match type with
    | [] => none
    | '{' :: type =>
      let name := structName type
      match functions name with
      | some retVal => some retVal
      | none => do
        let body ← parseStructBodySize fuel (type.drop (name.length + 1))
        return ⟨body.size, name.length + 2 + body.offset + 1⟩
    | '[' :: type => do
      let digits := type.takeWhile Char.isDigit
      let body ← ParsedTypeSize.elements (parseTypeSize fuel (type.drop digits.length))
        (elementCount digits)
      return ⟨body.size, digits.length + 2 + body.offset⟩
    | '^' :: '{' :: type => do
      let indirect ← parseTypeSize fuel ('{' :: type)
      let name := type.takeWhile (· ≠ '=')
      match functions name with
      | some retVal => return retVal
      | none =>
        if indirect.size % 2 ^ 32 < 2 ^ 31 then do
          let body ← parseStructBodySize fuel (type.drop (name.length + 1))
          return ⟨0, name.length + 3 + body.offset⟩
        else return ⟨2 ^ 32 - 1, 0⟩
    | '^' :: _ => some ⟨2 ^ 32 - 1, 0⟩
    | ']' :: _ => some ⟨0, 1⟩
    | c :: type =>
      if c ∈ ['r', 'n', 'N', 'o', 'O', 'V'] then do
        let realtype ← parseTypeSize fuel type
        return ⟨realtype.size, realtype.offset + 1⟩
      else some (.ofIntrinsic c)

/-- `PARSE_STRUCT_BODY`; the offset counts the names of the members only. -/
def parseStructBodySize : ℕ → List Char → Option ParsedTypeSize
  | 0, _ => none
  | fuel + 1, type =>
    match type with
    | [] => none
    | '}' :: _ => some ⟨0, 0⟩
    | type => do
      let name := fieldName type
      let substruct ← parseTypeSize fuel (type.drop name.length)
      let others ← parseStructBodySize fuel (type.drop (name.length + substruct.offset))
      return ⟨max substruct.size WORD_SIZE + others.size, name.length + others.offset⟩

end

/-- The call consumes the encoding, and says how much memory the type takes. -/
def ConsumesType (t : TypeCode) : Prop :=
  ∀ suffix, ∃ least, ∀ fuel, least ≤ fuel →
    parseTypeSize functions fuel (t.encode ++ suffix) = some ⟨t.sizeof, t.encode.length⟩

/-- A registered function returns no more than the size of the structure and the length of its
encoding, which are what it is asked for. -/
def Within : TypeCode → Prop
  | .scalar _ => True
  | .struct name members | .pointer name members => ∀ retVal, functions name.name = some retVal →
    retVal.size ≤ (TypeCode.struct name members).sizeof
      ∧ retVal.offset ≤ (TypeCode.struct name members).encode.length
  | .array _ element => Within element
  | .qualified _ type => Within type

end Etoile.Serialize
