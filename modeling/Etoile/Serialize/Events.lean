import Etoile.Lib.Bytes

/-!
# Serializer events

What `ETSerializer` tells its backend of an object, and what a deserializer backend tells
`ETDeserializer`.  The two protocols mirror each other message by message (`storeInt:withName:` and
`loadInt:withName:`), so one type serves for both.  Numbers are given by their bits, on a
little-endian host with 64-bit `long`; classes and selectors stand for the names they are
registered under.
-/

namespace Etoile.Serialize

/-- `CORef`, a reference to an object. -/
abbrev CORef := BitVec 32

/-- `ETUUIDSize`: that many bytes are read where a UUID is, which itself has 16. -/
def ETUUIDSize : ℕ := 36

/-- The name `?` of what is inside of a structure or an array. -/
def unnamed : CString := ⟨['?'.toUInt8], by decide⟩

inductive Intrinsic
  | char | unsignedChar | short | unsignedShort | int | unsignedInt | long | unsignedLong
  | longLong | unsignedLongLong | float | double
deriving DecidableEq

namespace Intrinsic

def size : Intrinsic → ℕ
  | char | unsignedChar => 1
  | short | unsignedShort => 2
  | int | unsignedInt | float => 4
  | long | unsignedLong | longLong | unsignedLongLong | double => 8

end Intrinsic

/-- An event; references to objects are given by an `R`. -/
inductive Event (R : Type)
  | setClassVersion (aVersion : BitVec 32)
  | intrinsic (type : Intrinsic) (value : BitVec (8 * type.size)) (aName : CString)
  | objectReference (aReference : R) (aName : CString)
  | objcClass (aClass aName : CString)
  | selector (aSelector aName : CString)
  | cString (aCString aName : CString)
  | data (aBlob : List UInt8) (aName : CString)
  | uuid (aUUID : Bytes ETUUIDSize) (aName : CString)
  | beginStruct (aStructName aName : CString)
  | endStruct
  | beginArray (aName : CString) (aLength : BitVec 32)
  | endArray
deriving DecidableEq

/-- An object as the serializer describes it, between `beginObjectWithID:withName:withClass:` and
`endObject`. -/
structure SerializedObject where
  aReference : CORef
  aName : CString
  aClass : CString
  body : List (Event CORef)
deriving DecidableEq

end Etoile.Serialize
