import Etoile.Lib.Layout
import Etoile.Serialize.Events

/-!
# Type encodings of instance variables

What the compiler writes down of the type of an instance variable, and where it puts the values
in memory: each at a multiple of its size, on a machine with 64-bit `long` and pointers.
-/

namespace Etoile.Serialize

inductive Scalar
  | intrinsic (type : Intrinsic)
  | objcClass
  | selector
  | cString
  | object
  deriving DecidableEq

namespace Scalar

def code : Scalar → Char
  | intrinsic .char => 'c'
  | intrinsic .unsignedChar => 'C'
  | intrinsic .short => 's'
  | intrinsic .unsignedShort => 'S'
  | intrinsic .int => 'i'
  | intrinsic .unsignedInt => 'I'
  | intrinsic .long => 'l'
  | intrinsic .unsignedLong => 'L'
  | intrinsic .longLong => 'q'
  | intrinsic .unsignedLongLong => 'Q'
  | intrinsic .float => 'f'
  | intrinsic .double => 'd'
  | objcClass => '#'
  | selector => ':'
  | cString => '*'
  | object => '@'

def size : Scalar → ℕ
  | intrinsic type => type.size
  | objcClass | selector | cString | object => 8

end Scalar

/-- The name of a structure type, `?` if it has none. -/
structure StructName where
  first : Char
  rest : List Char
  noEquals : '=' ∉ rest

structure FieldName where
  name : List Char
  noQuote : '"' ∉ name

mutual

/-- An array of `n + 1` elements is `array n`; their number is an `unsigned int`. -/
inductive CType
  | scalar (c : Scalar)
  | struct (name : StructName) (members : Members)
  | array (n : ℕ) (small : n + 1 < 2 ^ 32) (element : CType)

inductive Members
  | last (name : Option FieldName) (type : CType)
  | cons (name : Option FieldName) (type : CType) (rest : Members)

end

def StructName.encode (name : StructName) : List Char := name.first :: name.rest

def encodeName : Option FieldName → List Char
  | none => []
  | some field => '"' :: field.name ++ ['"']

mutual

def CType.encode : CType → List Char
  | .scalar c => [c.code]
  | .struct name members => '{' :: name.encode ++ '=' :: members.encode ++ ['}']
  | .array n _ element => '[' :: Nat.toDigits 10 (n + 1) ++ element.encode ++ [']']

def Members.encode : Members → List Char
  | .last name type => encodeName name ++ type.encode
  | .cons name type rest => encodeName name ++ type.encode ++ rest.encode

end

mutual

def CType.align : CType → ℕ
  | .scalar c => c.size
  | .struct _ members => members.align
  | .array _ _ element => element.align

def Members.align : Members → ℕ
  | .last _ type => type.align
  | .cons _ type rest => max type.align rest.align

end

mutual

def CType.sizeof : CType → ℕ
  | .scalar c => c.size
  | .struct _ members => roundUp (members.endFrom 0) members.align
  | .array n _ element => (n + 1) * element.sizeof

/-- Where the last member ends, if the first may begin at `offset`. -/
def Members.endFrom (offset : ℕ) : Members → ℕ
  | .last _ type => roundUp offset type.align + type.sizeof
  | .cons _ type rest => rest.endFrom (roundUp offset type.align + type.sizeof)

end

abbrev Cell := ℕ × Scalar

mutual

def CType.layout (address : ℕ) : CType → List Cell
  | .scalar c => [(address, c)]
  | .struct _ members => members.layout address 0
  | .array n _ element =>
    inARow (fun place => element.layout place) (· + element.sizeof) (n + 1) address

def Members.layout (address offset : ℕ) : Members → List Cell
  | .last _ type => type.layout (address + roundUp offset type.align)
  | .cons _ type rest =>
    type.layout (address + roundUp offset type.align)
      ++ rest.layout address (roundUp offset type.align + type.sizeof)

end

end Etoile.Serialize

/-!
## Walking over a value

`-parseType:atAddress:withName:` goes through the encoding of a type and through a value of it at
the same time, and tells the backend what it comes across.  Names are passed on and left out here,
as are pointers, which are not followed in general.  `registered` says of which structures another
function takes care.
-/

namespace Etoile.Serialize

def WORD_SIZE : ℕ := 4

inductive TypeEvent
  | beginStruct (aStructName : List Char)
  | endStruct
  | beginArray (aLength : ℕ)
  | endArray
  | store (c : Scalar)
  deriving DecidableEq

/-- `parsed_type_size_t`, what the backend was told, and what was read and where. -/
structure Parsed where
  size : ℕ
  offset : ℕ
  events : List TypeEvent
  reads : List Cell
  deriving DecidableEq

def Scalar.ofCode? (code : Char) : Option Scalar :=
  match code with
  | 'c' => some (.intrinsic .char)
  | 'C' => some (.intrinsic .unsignedChar)
  | 's' => some (.intrinsic .short)
  | 'S' => some (.intrinsic .unsignedShort)
  | 'i' => some (.intrinsic .int)
  | 'I' => some (.intrinsic .unsignedInt)
  | 'l' => some (.intrinsic .long)
  | 'L' => some (.intrinsic .unsignedLong)
  | 'q' => some (.intrinsic .longLong)
  | 'Q' => some (.intrinsic .unsignedLongLong)
  | 'f' => some (.intrinsic .float)
  | 'd' => some (.intrinsic .double)
  | '#' => some .objcClass
  | ':' => some .selector
  | '*' => some .cString
  | '@' => some .object
  | _ => none

/-- `storeIntrinsicOfType:fromAddress:withName:`; a type it does not know cannot be serialized. -/
def storeIntrinsic (type : Char) (address : ℕ) : Option Parsed :=
  (Scalar.ofCode? type).map fun c => ⟨c.size, 1, [.store c], [(address, c)]⟩

/-- The elements of an array one after the other; what is skipped is what the last one takes. -/
def parseElements (parse : ℕ → Option Parsed) : ℕ → ℕ → Option Parsed
  | 0, _ => some ⟨0, 0, [], []⟩
  | n + 1, address => do
    let substruct ← parse address
    let others ← parseElements parse n (address + substruct.size)
    return ⟨substruct.size + others.size, if n = 0 then substruct.offset else others.offset,
      substruct.events ++ others.events, substruct.reads ++ others.reads⟩

def fieldName : List Char → List Char
  | '"' :: type => '"' :: type.takeWhile (· ≠ '"') ++ ['"']
  | _ => []

/-- Until the `=`, which is not looked for at the first character. -/
def structName : List Char → List Char
  | [] => []
  | first :: type => first :: type.takeWhile (· ≠ '=')

variable (registered : List Char → Bool)

mutual

def parseType : ℕ → List Char → ℕ → Option Parsed
  | 0, _, _ => none
  | fuel + 1, type, address =>
    match type with
    | [] => none
    | '{' :: type =>
      let name := structName type
      if registered name then none
      else do
        let body ← parseStructBody fuel (type.drop (name.length + 1)) address
        return ⟨body.size, name.length + 2 + body.offset + 1,
          .beginStruct name :: body.events ++ [.endStruct], body.reads⟩
    | '[' :: type => do
      let digits := type.takeWhile Char.isDigit
      let elements := Nat.ofDigitChars 10 digits 0 % 2 ^ 32
      let body ← parseElements (fun address => parseType fuel (type.drop digits.length) address)
        elements address
      return ⟨body.size, digits.length + 2 + body.offset,
        .beginArray elements :: body.events ++ [.endArray], body.reads⟩
    | '^' :: _ => none
    | ']' :: _ => some ⟨0, 1, [], []⟩
    | c :: type =>
      if c ∈ ['r', 'n', 'N', 'o', 'O', 'V'] then do
        let realtype ← parseType fuel type address
        return { realtype with offset := realtype.offset + 1 }
      else storeIntrinsic c address

/-- `PARSE_STRUCT_BODY`; the offset counts the names of the members only. -/
def parseStructBody : ℕ → List Char → ℕ → Option Parsed
  | 0, _, _ => none
  | fuel + 1, type, address =>
    match type with
    | [] => none
    | '}' :: _ => some ⟨0, 0, [], []⟩
    | type => do
      let name := fieldName type
      let substruct ← parseType fuel (type.drop name.length) address
      let substructSize := max substruct.size WORD_SIZE
      let others ← parseStructBody fuel (type.drop (name.length + substruct.offset))
        (address + substructSize)
      return ⟨substructSize + others.size, name.length + others.offset,
        substruct.events ++ others.events, substruct.reads ++ others.reads⟩

end

end Etoile.Serialize
