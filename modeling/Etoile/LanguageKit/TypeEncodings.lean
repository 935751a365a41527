import Mathlib.Data.List.Basic

/-!
# Type encodings

The types of a method are encoded in a string: the type of the result, those of `self` and `_cmd`,
and those of the arguments, each with the offset of its value in the frame.  A pointer into the
string is what is left of it; `none` is a read past its end, or a type that LLVM has none for where
it must have one.
-/

namespace Etoile.LanguageKit

inductive Scalar
  | char
  | unsignedChar
  | short
  | unsignedShort
  | int
  | unsignedInt
  | long
  | unsignedLong
  | longLong
  | unsignedLongLong
  | float
  | double
  | bool
  | void
  | selector
  | object
  | cls
  | string
  | unknown
  deriving DecidableEq

def Scalar.code : Scalar → Char
  | char => 'c'
  | unsignedChar => 'C'
  | short => 's'
  | unsignedShort => 'S'
  | int => 'i'
  | unsignedInt => 'I'
  | long => 'l'
  | unsignedLong => 'L'
  | longLong => 'q'
  | unsignedLongLong => 'Q'
  | float => 'f'
  | double => 'd'
  | bool => 'B'
  | void => 'v'
  | selector => ':'
  | object => '@'
  | cls => '#'
  | string => '*'
  | unknown => '?'

inductive Qualifier
  | const
  | inOnly
  | inOut
  | outOnly
  | bycopy
  | byref
  | oneway
  deriving DecidableEq

def Qualifier.code : Qualifier → Char
  | const => 'r'
  | inOnly => 'n'
  | inOut => 'N'
  | outOnly => 'o'
  | bycopy => 'O'
  | byref => 'R'
  | oneway => 'V'

structure TypeName where
  chars : List Char
  valid : ∀ c ∈ chars, c ≠ '=' ∧ c ≠ '\x00'

structure Numeral where
  digits : List Char
  ne_nil : digits ≠ []
  isDigit : ∀ c ∈ digits, c.isDigit = true

inductive ObjCType
  | scalar (s : Scalar)
  | qualified (q : Qualifier) (t : ObjCType)
  | pointer (t : ObjCType)
  | struct (name : TypeName) (fields : List ObjCType)
  | union (name : TypeName) (fields : List ObjCType)
  | array (length : Numeral) (t : ObjCType)

namespace ObjCType

mutual

def encode : ObjCType → List Char → List Char
  | scalar s, rest => s.code :: rest
  | qualified q t, rest => q.code :: t.encode rest
  | pointer t, rest => '^' :: t.encode rest
  | struct name fields, rest => '{' :: (name.chars ++ '=' :: encodeAll fields ('}' :: rest))
  | union name fields, rest => '(' :: (name.chars ++ '=' :: encodeAll fields (')' :: rest))
  | array length t, rest => '[' :: (length.digits ++ t.encode (']' :: rest))

def encodeAll : List ObjCType → List Char → List Char
  | [], rest => rest
  | t :: ts, rest => t.encode (encodeAll ts rest)

end

def unqualified : ObjCType → ObjCType
  | qualified _ t => t.unqualified
  | t => t

end ObjCType

abbrev TypeAndOffset := ObjCType × Numeral

def encodeTypes : List TypeAndOffset → List Char
  | [] => []
  | (t, offset) :: ts => t.encode (offset.digits ++ encodeTypes ts)

def LKSkipQualifiers (typestr : List Char) : List Char :=
  typestr.dropWhile fun c => c.isDigit || c ∈ ['r', 'n', 'N', 'o', 'O', 'R', 'V']

/-- `SKIPNAME`. -/
def skipName (typestr : List Char) : Option (List Char) :=
  match typestr.dropWhile (· ≠ '=') with
  | [] => none
  | _ :: typestr => some typestr

mutual

def LKNextType : ℕ → List Char → Option (List Char)
  | 0, _ => none
  | fuel + 1, typestr =>
    match LKSkipQualifiers typestr with
    | '{' :: typestr => (skipName typestr).bind (LKNextTypesUntil fuel '}')
    | '(' :: typestr => (skipName typestr).bind (LKNextTypesUntil fuel ')')
    | '[' :: typestr => LKNextTypesUntil fuel '[' typestr
    | '^' :: typestr => LKNextType fuel typestr
    | _ :: typestr => some typestr
    | [] => none

/-- The loop of `LKNextType` over the members of an aggregate. -/
def LKNextTypesUntil : ℕ → Char → List Char → Option (List Char)
  | 0, _, _ => none
  | fuel + 1, close, typestr =>
    if typestr.head? = some close then some typestr.tail
    else (LKNextType fuel typestr).bind (LKNextTypesUntil fuel close)

end

/-- The loop of `LKCountObjCTypes`, with what it has counted. -/
def countTypes : ℕ → ℕ → List Char → Option ℕ
  | 0, _, _ => none
  | fuel + 1, count, objctype =>
    match objctype with
    | [] => some count
    | _ => (LKNextType fuel objctype).bind fun objctype =>
        countTypes fuel (count + 1) (LKSkipQualifiers objctype)

def LKCountObjCTypes (fuel : ℕ) : Option (List Char) → Option ℕ
  | none => some 0
  | some objctype => countTypes fuel 0 objctype

/-- `LKNextType`, as often as the interpreter calls it to come to an argument. -/
def LKNextTypeTimes (fuel : ℕ) : ℕ → List Char → Option (List Char)
  | 0, typestr => some typestr
  | n + 1, typestr => (LKNextType fuel typestr).bind (LKNextTypeTimes fuel n)

inductive LLVMType
  | integer (bits : ℕ)
  | float
  | double
  | void
  | pointer (t : LLVMType)
  | struct (types : List LLVMType)

/-- What the walkers take from the platform: the type `LKObjectPtr`, the size of a `long`, and the
constants of the calling convention. -/
structure Platform where
  LKObjectPtr : ObjCType
  unqualified : ∀ q t, LKObjectPtr ≠ .qualified q t
  sizeofLong : ℕ
  maxIntsInRegisters : ℕ
  maxFloatsInRegisters : ℕ
  smallFloatStructsOnStack : Bool

namespace Platform

variable (P : Platform)

def LKObjectEncoding : List Char := P.LKObjectPtr.encode []

def SkipTypeQualifiers (typestr : List Char) : List Char :=
  typestr.dropWhile fun c => c = 'V' || c = 'r'

def idTy : LLVMType := .pointer (.integer 8)

/-- A pointer to `void` is one to characters; none is to a type that LLVM has none for. -/
def pointerTo : Option LLVMType → Option LLVMType
  | none => none
  | some .void => some idTy
  | some t => some (.pointer t)

mutual

/-- The type may be `NULL`. -/
def LLVMTypeFromString2 : ℕ → List Char → Option (Option LLVMType × List Char)
  | 0, _ => none
  | fuel + 1, typestr =>
    let typestr := SkipTypeQualifiers typestr
    if P.LKObjectEncoding <+: typestr then
      some (some idTy, typestr.drop P.LKObjectEncoding.length)
    else match typestr with
    | 'c' :: typestr | 'C' :: typestr => some (some (.integer 8), typestr)
    | 's' :: typestr | 'S' :: typestr => some (some (.integer 16), typestr)
    | 'i' :: typestr | 'I' :: typestr => some (some (.integer 32), typestr)
    | 'l' :: typestr | 'L' :: typestr => some (some (.integer (P.sizeofLong * 8)), typestr)
    | 'q' :: typestr | 'Q' :: typestr => some (some (.integer 64), typestr)
    | 'f' :: typestr => some (some .float, typestr)
    | 'd' :: typestr => some (some .double, typestr)
    | 'B' :: typestr => some (some (.integer 8), typestr)
    | '^' :: typestr =>
      (LLVMTypeFromString2 fuel typestr).bind fun (pointee, typestr) =>
        (pointerTo pointee).map fun t => (some t, typestr)
    | ':' :: typestr | '@' :: typestr | '#' :: typestr | '*' :: typestr =>
      some (some idTy, typestr)
    | 'v' :: typestr => some (some .void, typestr)
    | '{' :: typestr =>
      (skipName typestr).bind fun typestr =>
        (structTypes fuel typestr).bind fun (types, typestr) =>
          (types.mapM id).map fun types => (some (.struct types), typestr)
    | typestr => some (none, typestr)

def structTypes : ℕ → List Char → Option (List (Option LLVMType) × List Char)
  | 0, _ => none
  | fuel + 1, typestr =>
    if typestr.head? = some '}' then some ([], typestr.tail)
    else (LLVMTypeFromString2 fuel typestr).bind fun (t, typestr) =>
      (structTypes fuel typestr).map fun (ts, typestr) => (t :: ts, typestr)

end

def LLVMTypeFromString (fuel : ℕ) (typestr : List Char) : Option LLVMType :=
  (P.LLVMTypeFromString2 fuel typestr).bind Prod.fst

mutual

/-- `countIntsAndFloats`: pointers count as integers. -/
def countIntsAndFloats : LLVMType → ℕ × ℕ → ℕ × ℕ
  | .void, counts => counts
  | .integer _, (ints, floats) | .pointer _, (ints, floats) => (ints + 1, floats)
  | .float, (ints, floats) | .double, (ints, floats) => (ints, floats + 1)
  | .struct types, counts => countAll types counts

def countAll : List LLVMType → ℕ × ℕ → ℕ × ℕ
  | [], counts => counts
  | t :: ts, counts => countAll ts (countIntsAndFloats t counts)

end

def shouldReturnValueOnStack : LLVMType → Bool
  | .struct types =>
    let (ints, floats) := countIntsAndFloats (.struct types) (0, 0)
    ints > P.maxIntsInRegisters || floats > P.maxFloatsInRegisters
  | _ => false

structure FunctionType where
  returnType : LLVMType
  argTypes : List LLVMType
  isVarArg : Bool
  isSRet : Bool
  realRetTy : LLVMType

/-- `NEXT`, to the next type. -/
def next (typestr : List Char) : Option (List Char) :=
  match typestr.dropWhile (!·.isDigit) with
  | [] => none
  | typestr => some (typestr.dropWhile (·.isDigit))

/-- The loop of `LLVMFunctionTypeFromString` over the arguments. -/
def argTypes : ℕ → List Char → Option (List LLVMType)
  | 0, _ => none
  | fuel + 1, typestr =>
    match typestr with
    | [] => some []
    | _ => (P.LLVMTypeFromString fuel typestr).bind fun t =>
        (next typestr).bind fun typestr => (argTypes fuel typestr).map (t :: ·)

def returnIn (realRetTy : LLVMType) (argTypes : List LLVMType) : FunctionType :=
  match P.smallFloatStructsOnStack, realRetTy with
  | true, .struct [.float, .float] => ⟨.integer 64, argTypes, false, false, realRetTy⟩
  | _, _ => ⟨realRetTy, argTypes, false, P.shouldReturnValueOnStack realRetTy, realRetTy⟩

/-- Where there is no encoding, the type that is returned is not set. -/
def LLVMFunctionTypeFromString (fuel : ℕ) : Option (List Char) → Option FunctionType
  | none => some ⟨idTy, [idTy, idTy], true, false, idTy⟩
  | some typestr =>
    (P.LLVMTypeFromString fuel typestr).bind fun realRetTy =>
      (next typestr).bind fun typestr => (P.argTypes fuel typestr).map (P.returnIn realRetTy)

end Platform

namespace CodeGenLexicalScope

/-- This `NEXT` stays at the end of the string. -/
def next (typestr : List Char) : List Char :=
  (typestr.dropWhile (!·.isDigit)).dropWhile (·.isDigit)

/-- The encodings that are given to `Unbox` for `argc` arguments. -/
def unboxEach : ℕ → List Char → List (List Char)
  | 0, _ => []
  | argc + 1, selTypes =>
    let selTypes := Platform.SkipTypeQualifiers (next selTypes)
    selTypes :: unboxEach argc selTypes

def UnboxArgs (argc : ℕ) : Option (List Char) → List (List Char)
  | none => List.replicate argc ['@']
  | some selTypes => unboxEach argc (next (next (Platform.SkipTypeQualifiers selTypes)))

/-- The encodings that are given to `BoxValue` for `argc` arguments. -/
def boxEach : ℕ → List Char → List (List Char)
  | 0, _ => []
  | argc + 1, methodTypes => methodTypes :: boxEach argc (next methodTypes)

def InitialiseFunction (argc : ℕ) (methodTypes : List Char) : List (List Char) :=
  boxEach argc (next (next (next methodTypes)))

end CodeGenLexicalScope

end Etoile.LanguageKit
