import Etoile.Serialize.Events

/-!
# The binary backend

`ETSerializerBackendBinary` writes every event as a character for its type, the names it comes with
and the bytes of its value; `ETDeserializerBackendBinary` reads them back.  Texts go through
`asprintf`, which refuses those longer than an `int`, and the size of a blob is written as an `int`.
-/

namespace Etoile.Serialize

open List

def INT_MAX : ℕ := 2 ^ 31 - 1

/-- `FORMAT`; `none` where `asprintf` fails. -/
def format (text : List UInt8) : Option (List UInt8) :=
  if text.length ≤ INT_MAX then some text else none

/-- `-writeBytes:count:`, whose count is an `unsigned int`. -/
def writeBytes (bytes : List UInt8) : List UInt8 := bytes.take (bytes.length % 2 ^ 32)

/-- `STORECOMPLEX`. -/
def storeComplex (typeChar : Char) (aName : CString) (value : List UInt8) : Option (List UInt8) :=
  (format aName.terminated).map fun name => typeChar.toUInt8 :: name ++ value

namespace Intrinsic

def typeChar : Intrinsic → Char
  | char => 'c'
  | unsignedChar => 'C'
  | short => 's'
  | unsignedShort => 'S'
  | int => 'i'
  | unsignedInt => 'I'
  | long => 'l'
  | unsignedLong => 'L'
  | longLong => 'q'
  | unsignedLongLong => 'Q'
  | float => 'f'
  | double => 'd'

/-- `NSSwapHostIntToBig` and its siblings; characters are not swapped. -/
def swapHostToBig (type : Intrinsic) (v : BitVec (8 * type.size)) : BitVec (8 * type.size) :=
  if type = char ∨ type = unsignedChar then v else swapBytes v

def swapBigToHost (type : Intrinsic) (v : BitVec (8 * type.size)) : BitVec (8 * type.size) :=
  if type = char ∨ type = unsignedChar then v else swapBytes v

@[simp] theorem swapBigToHost_swapHostToBig (type : Intrinsic) (v : BitVec (8 * type.size)) :
    type.swapBigToHost (type.swapHostToBig v) = v := by
  unfold swapBigToHost swapHostToBig
  split_ifs
  · rfl
  · exact swapBytes_swapBytes v

end Intrinsic

namespace Event

def store : Event CORef → Option (List UInt8)
  | setClassVersion aVersion => some ('V'.toUInt8 :: (hostBytes 4 aVersion).1)
  | intrinsic type value aName =>
    storeComplex type.typeChar aName (hostBytes type.size (type.swapHostToBig value)).1
  | objectReference aReference aName => storeComplex '@' aName (hostBytes 4 aReference).1
  | objcClass aClass aName => format ('#'.toUInt8 :: aName.terminated ++ aClass.terminated)
  | selector aSelector aName => format (':'.toUInt8 :: aName.terminated ++ aSelector.terminated)
  | cString aCString aName => format ('*'.toUInt8 :: aName.terminated ++ aCString.terminated)
  | data aBlob aName => (format ('^'.toUInt8 :: aName.terminated)).map fun name =>
    -- the first four bytes of a `size_t`
    name ++ leBytes 4 aBlob.length ++ writeBytes aBlob
  | uuid aUUID aName => storeComplex '$' aName aUUID.1
  | beginStruct aStructName aName =>
    format ('{'.toUInt8 :: aStructName.terminated ++ aName.terminated)
  | endStruct => some ['}'.toUInt8]
  | beginArray aName aLength => (format ('['.toUInt8 :: aName.terminated)).map fun name =>
    name ++ (hostBytes 4 aLength).1
  | endArray => some [']'.toUInt8]

end Event

def storeEvents (events : List (Event CORef)) : Option (List UInt8) :=
  (events.mapM Event.store).map flatten

/-- `-beginObjectWithID:withName:withClass:`, the events and `-endObject`. -/
def SerializedObject.store (o : SerializedObject) : Option (List UInt8) := do
  let begin ← format ('<'.toUInt8 :: o.aClass.terminated)
  let body ← storeEvents o.body
  some (begin ++ body ++ ['>'.toUInt8])

/-- `LOAD`. -/
def load (type : Intrinsic) : Reader (Option (Event CORef)) := do
  let name ← Reader.cString
  let value ← Reader.bytes type.size
  return some (.intrinsic type (type.swapBigToHost (ofHostBytes value)) name)

/-- The value of a `size` as it was written; a negative one makes `loadData:ofSize:withName:` read
outside of the file. -/
def readBlob (size : BitVec 32) : Reader (List UInt8) :=
  if size.toInt < 0 then fun _ => none
  else do
    let obj ← Reader.bytes size.toInt.toNat
    return obj.1

/-- The `switch` of the loop of `-deserializeObjectWithID:`, after the type character; `none` for an
unexpected one. -/
def loadEvent (typeChar : UInt8) : Reader (Option (Event CORef)) :=
  match Char.ofNat typeChar.toNat with
  | 'c' => load .char
  | 'C' => load .unsignedChar
  | 's' => load .short
  | 'S' => load .unsignedShort
  | 'i' => load .int
  | 'I' => load .unsignedInt
  | 'l' => load .long
  | 'L' => load .unsignedLong
  | 'q' => load .longLong
  | 'Q' => load .unsignedLongLong
  | 'f' => load .float
  | 'd' => load .double
  | '@' => do
    let name ← Reader.cString
    let aReference ← Reader.bytes 4
    return some (.objectReference (ofHostBytes aReference) name)
  | 'V' => do
    let aVersion ← Reader.bytes 4
    return some (.setClassVersion (ofHostBytes aVersion))
  | '^' => do
    let name ← Reader.cString
    let size ← Reader.bytes 4
    let obj ← readBlob (ofHostBytes size)
    return some (.data obj name)
  | '*' => do
    let name ← Reader.cString
    let obj ← Reader.cString
    return some (.cString obj name)
  | '#' => do
    let name ← Reader.cString
    let aClass ← Reader.cString
    return some (.objcClass aClass name)
  | ':' => do
    let name ← Reader.cString
    let selector ← Reader.cString
    return some (.selector selector name)
  | '{' => do
    let structName ← Reader.cString
    let name ← Reader.cString
    return some (.beginStruct structName name)
  | '}' => return some .endStruct
  | '[' => do
    let name ← Reader.cString
    let aLength ← Reader.bytes 4
    return some (.beginArray name (ofHostBytes aLength))
  | ']' => return some .endArray
  | '$' => do
    let name ← Reader.cString
    let aUUID ← Reader.bytes ETUUIDSize
    return some (.uuid aUUID name)
  | _ => return none

theorem consumes_load (type : Intrinsic) : Consumes (load type) :=
  Consumes.cString.bind fun _ => (Consumes.bytes _).bind fun _ => .pure _

theorem consumes_readBlob (size : BitVec 32) : Consumes (readBlob size) := by
  unfold readBlob
  split_ifs
  · intro l a rest h
    cases h
  · exact (Consumes.bytes _).bind fun _ => .pure _

theorem consumes_loadEvent (typeChar : UInt8) : Consumes (loadEvent typeChar) := by
  unfold loadEvent
  split
  all_goals first
    | exact consumes_load _
    | exact .pure _
    | exact Consumes.cString.bind fun _ => Consumes.cString.bind fun _ => .pure _
    | exact Consumes.cString.bind fun _ => (Consumes.bytes _).bind fun _ => .pure _
    | exact (Consumes.bytes _).bind fun _ => .pure _
    | exact Consumes.cString.bind fun _ => (Consumes.bytes _).bind fun _ =>
        (consumes_readBlob _).bind fun _ => .pure _

/-- How `-deserializeObjectWithID:` ends: at the end of an object, at an unexpected character, or
past the end of the data. -/
inductive Outcome
  | ended (rest : List UInt8)
  | refused
  | outside
deriving DecidableEq

/-- The loop of `-deserializeObjectWithID:`, with the messages it sends. -/
def loadEvents : List UInt8 → List (Event CORef) × Outcome
  | [] => ([], .outside)
  | typeChar :: rest =>
    if typeChar = '>'.toUInt8 then ([], .ended rest)
    else
      match _h : loadEvent typeChar rest with
      | none => ([], .outside)
      | some (none, _) => ([], .refused)
      | some (some event, rest') =>
        let (events, outcome) := loadEvents rest'
        (event :: events, outcome)
  termination_by l => l.length
  decreasing_by exact Nat.lt_succ_of_le (consumes_loadEvent typeChar rest _ rest' ‹_›)

/-- `-deserializeObjectWithID:` at the place of an object: its class, and the messages up to its
end.  `none` is a read outside of the data, `some none` a place where no object begins. -/
def loadObject : List UInt8 → Option (Option (CString × List (Event CORef) × Outcome))
  | [] => none
  | obj :: rest =>
    if obj = '<'.toUInt8 then (Reader.cString rest).map fun (aClass, rest) =>
      some (aClass, loadEvents rest)
    else some none

namespace Event

def textLength {R : Type} : Event R → ℕ
  | intrinsic _ _ aName | objectReference _ aName | uuid _ aName => aName.terminated.length
  | data _ aName | beginArray aName _ => aName.terminated.length + 1
  | objcClass s aName | selector s aName | cString s aName | beginStruct s aName =>
    aName.terminated.length + s.terminated.length + 1
  | setClassVersion _ | endStruct | endArray => 0

def blobLength {R : Type} : Event R → ℕ
  | data aBlob _ => aBlob.length
  | _ => 0

/-- Neither the texts of the event nor its blob are too long for an `int`. -/
def Fits {R : Type} (e : Event R) : Prop := e.textLength ≤ INT_MAX ∧ e.blobLength ≤ INT_MAX

instance {R : Type} (e : Event R) : Decidable e.Fits := inferInstanceAs (Decidable (_ ∧ _))

end Event

theorem format_of_le {text : List UInt8} {n : ℕ} (hn : text.length = n) (h : n ≤ INT_MAX) :
    format text = some text := if_pos (hn ▸ h)

theorem storeComplex_of_le {typeChar : Char} {aName : CString} {value : List UInt8}
    (h : aName.terminated.length ≤ INT_MAX) :
    storeComplex typeChar aName value =
      some (typeChar.toUInt8 :: (aName.terminated ++ value)) := by
  unfold storeComplex
  rw [format_of_le rfl h]
  rfl

theorem reads_named {α : Type} {p : Reader α} {b : List UInt8} {a : α} (hp : Reads p b a)
    (aName : CString) (f : CString → α → Event CORef) :
    Reads (do
      let name ← Reader.cString
      let value ← p
      return some (f name value)) (aName.terminated ++ b) (some (f aName a)) :=
  (Reads.cString aName).bind hp.bind_pure

theorem reads_load (type : Intrinsic) (value : BitVec (8 * type.size)) (aName : CString) :
    Reads (load type)
      (aName.terminated ++ (hostBytes type.size (type.swapHostToBig value)).1)
      (some (.intrinsic type value aName)) := by
  have h := reads_named (Reads.bytes (hostBytes type.size (type.swapHostToBig value))) aName
    fun name value => .intrinsic type (type.swapBigToHost (ofHostBytes value)) name
  rwa [ofHostBytes_hostBytes, Intrinsic.swapBigToHost_swapHostToBig] at h

theorem reads_blob {aBlob : List UInt8} (h : aBlob.length ≤ INT_MAX) :
    Reads (readBlob (BitVec.ofNat 32 aBlob.length)) aBlob aBlob := by
  have hnat : (BitVec.ofNat 32 aBlob.length).toNat = aBlob.length := by
    rw [BitVec.toNat_ofNat]
    unfold INT_MAX at h
    omega
  have hint : (BitVec.ofNat 32 aBlob.length).toInt = aBlob.length := by
    unfold INT_MAX at h
    rw [BitVec.toInt_eq_toNat_of_lt (by omega), hnat]
  unfold readBlob
  rw [hint, if_neg (by omega), Int.toNat_natCast]
  exact (Reads.bytes ⟨aBlob, rfl⟩).bind_pure (f := Subtype.val)

theorem Event.reads_store : ∀ {e : Event CORef}, e.Fits → ∃ typeChar bytes,
    e.store = some (typeChar :: bytes) ∧ typeChar ≠ '>'.toUInt8 ∧
      Reads (loadEvent typeChar) bytes (some e)
  | .setClassVersion aVersion, _ => by
    refine ⟨_, _, rfl, by decide, ?_⟩
    have h := (Reads.bytes (hostBytes 4 aVersion)).bind_pure
      (f := fun v => some (Event.setClassVersion (R := CORef) (ofHostBytes v)))
    rwa [ofHostBytes_hostBytes] at h
  | .intrinsic type value aName, h => by
    refine ⟨_, _, storeComplex_of_le h.1, by cases type <;> decide, ?_⟩
    have hload := reads_load type value aName
    cases type <;> exact hload
  | .objectReference aReference aName, h => by
    refine ⟨_, _, storeComplex_of_le h.1, by decide, ?_⟩
    have hload := reads_named (Reads.bytes (hostBytes 4 aReference)) aName
      fun name aReference => .objectReference (ofHostBytes aReference) name
    rwa [ofHostBytes_hostBytes] at hload
  | .objcClass aClass aName, h =>
    ⟨_, _, format_of_le (by simp [textLength]) h.1, by decide,
      reads_named (Reads.cString aClass) aName fun name aClass => .objcClass aClass name⟩
  | .selector aSelector aName, h =>
    ⟨_, _, format_of_le (by simp [textLength]) h.1, by decide,
      reads_named (Reads.cString aSelector) aName fun name selector => .selector selector name⟩
  | .cString aCString aName, h =>
    ⟨_, _, format_of_le (by simp [textLength]) h.1, by decide,
      reads_named (Reads.cString aCString) aName fun name obj => .cString obj name⟩
  | .data aBlob aName, h => by
    have hle : aBlob.length ≤ INT_MAX := h.2
    have hlt : aBlob.length < 2 ^ 32 := by
      unfold INT_MAX at hle
      omega
    have hwrite : writeBytes aBlob = aBlob := by
      rw [writeBytes, Nat.mod_eq_of_lt hlt, take_length]
    have hsize : hostBytes 4 (BitVec.ofNat 32 aBlob.length) =
        ⟨leBytes 4 aBlob.length, length_leBytes 4 _⟩ := by
      refine Subtype.ext ?_
      rw [hostBytes, BitVec.toNat_ofNat, Nat.mod_eq_of_lt hlt]
    refine ⟨'^'.toUInt8, aName.terminated ++ (leBytes 4 aBlob.length ++ aBlob), ?_, by decide, ?_⟩
    · rw [store, format_of_le (by simp [textLength]) h.1, hwrite, Option.map_some,
        append_assoc]
      rfl
    · have hbytes := Reads.bytes (hostBytes 4 (BitVec.ofNat 32 aBlob.length))
      rw [hsize] at hbytes
      refine (Reads.cString aName).bind (hbytes.bind ?_)
      rw [← hsize, ofHostBytes_hostBytes]
      exact (reads_blob hle).bind_pure (f := fun obj => some (Event.data obj aName))
  | .uuid aUUID aName, h =>
    ⟨_, _, storeComplex_of_le h.1, by decide,
      reads_named (Reads.bytes aUUID) aName fun name aUUID => .uuid aUUID name⟩
  | .beginStruct aStructName aName, h =>
    ⟨_, _, format_of_le (by simp [textLength]; omega) h.1, by decide,
      (Reads.cString aStructName).bind ((Reads.cString aName).bind_pure
        (f := fun name => some (Event.beginStruct aStructName name)))⟩
  | .endStruct, _ => ⟨_, _, rfl, by decide, Reads.pure _⟩
  | .beginArray aName aLength, h => by
    refine ⟨'['.toUInt8, aName.terminated ++ (hostBytes 4 aLength).1, ?_, by decide, ?_⟩
    · rw [store, format_of_le (by simp [textLength]) h.1]
      rfl
    · have hload := reads_named (Reads.bytes (hostBytes 4 aLength)) aName
        fun name aLength => .beginArray name (ofHostBytes aLength)
      rwa [ofHostBytes_hostBytes] at hload
  | .endArray, _ => ⟨_, _, rfl, by decide, Reads.pure _⟩

theorem loadEvents_cons {typeChar : UInt8} {bytes rest : List UInt8} {e : Event CORef}
    (hne : typeChar ≠ '>'.toUInt8) (h : Reads (loadEvent typeChar) bytes (some e)) :
    loadEvents (typeChar :: (bytes ++ rest)) =
      (e :: (loadEvents rest).1, (loadEvents rest).2) := by
  rw [loadEvents, if_neg hne]
  split <;> rename_i heq <;> rw [h rest] at heq <;> cases heq
  rfl

theorem loadEvents_storeEvents : ∀ {events : List (Event CORef)}, (∀ e ∈ events, e.Fits) →
    ∃ bytes, storeEvents events = some bytes ∧
      ∀ rest, loadEvents (bytes ++ '>'.toUInt8 :: rest) = (events, .ended rest)
  | [], _ => ⟨[], rfl, fun rest => by rw [nil_append, loadEvents, if_pos rfl]⟩
  | e :: events, h => by
    obtain ⟨typeChar, bytes, hstore, hne, hreads⟩ := Event.reads_store (h e mem_cons_self)
    obtain ⟨bytes', hstore', hload⟩ :=
      loadEvents_storeEvents fun e he => h e (mem_cons_of_mem _ he)
    obtain ⟨written, hwritten, rfl⟩ := Option.map_eq_some_iff.1 hstore'
    refine ⟨typeChar :: (bytes ++ written.flatten), ?_, fun rest => ?_⟩
    · unfold storeEvents
      rw [mapM_cons, hstore, hwritten]
      rfl
    · rw [cons_append, append_assoc, loadEvents_cons hne hreads, hload]

def SerializedObject.Fits (o : SerializedObject) : Prop :=
  o.aClass.terminated.length + 1 ≤ INT_MAX ∧ ∀ e ∈ o.body, e.Fits

instance (o : SerializedObject) : Decidable o.Fits := inferInstanceAs (Decidable (_ ∧ _))

theorem loadObject_store {o : SerializedObject} (h : o.Fits) :
    ∃ bytes, o.store = some bytes ∧
      ∀ rest, loadObject (bytes ++ rest) = some (some (o.aClass, o.body, .ended rest)) := by
  obtain ⟨bytes, hstore, hload⟩ := loadEvents_storeEvents h.2
  refine ⟨'<'.toUInt8 :: (o.aClass.terminated ++ (bytes ++ ['>'.toUInt8])), ?_, fun rest => ?_⟩
  · unfold SerializedObject.store
    rw [format_of_le (by simp) h.1, hstore]
    simp
  · have hclass := Reads.cString o.aClass (bytes ++ ('>'.toUInt8 :: rest))
    rw [cons_append, loadObject, if_pos rfl]
    simp only [append_assoc, cons_append, nil_append, hclass, Option.map_some, hload]

/-- The backend writes an object, and from its place in a file the deserializer backend delivers the
same messages and stops where its bytes end. -/
theorem delivers_store {o : SerializedObject} (h : o.Fits) :
    ∃ bytes, o.store = some bytes ∧ ∀ before after,
      loadObject ((before ++ bytes ++ after).drop before.length) =
        some (some (o.aClass, o.body, .ended after)) ∧
      (before ++ bytes ++ after).drop (before.length + bytes.length) = after := by
  obtain ⟨bytes, hstore, hload⟩ := loadObject_store h
  refine ⟨bytes, hstore, fun before after => ⟨?_, ?_⟩⟩
  · rw [append_assoc, drop_left]
    exact hload after
  · rw [← length_append, drop_left]

def nestedObject : SerializedObject where
  aReference := 1
  aName := unnamed
  aClass := ⟨['T', 'e', 's', 't'].map Char.toUInt8, by decide⟩
  body := [.setClassVersion 0, .beginStruct ⟨['s'.toUInt8], by decide⟩ unnamed,
    .beginArray unnamed 1, .intrinsic .int 10 unnamed, .endArray, .endStruct,
    .data [62, 0, 60] ⟨['d'.toUInt8], by decide⟩, .objectReference 2 ⟨['o'.toUInt8], by decide⟩]

theorem delivers_store_nested : ∃ bytes, nestedObject.store = some bytes ∧
    loadObject (([0, 0, 0, 0] ++ bytes ++ [1, 2, 3]).drop 4) =
      some (some (nestedObject.aClass, nestedObject.body, .ended [1, 2, 3])) := by
  obtain ⟨bytes, hstore, hload⟩ := delivers_store (show nestedObject.Fits by decide)
  exact ⟨bytes, hstore, (hload [0, 0, 0, 0] [1, 2, 3]).1⟩

/-- The name of an object is not written, so no reader can tell it. -/
theorem delivers_name_ne : ∃ o o' : SerializedObject, o.Fits ∧ o'.Fits ∧
    ¬ ∃ nameOf : List UInt8 → CString, ∀ p ∈ [o, o'], ∀ bytes, p.store = some bytes →
      nameOf bytes = p.aName := by
  refine ⟨nestedObject, { nestedObject with aName := ⟨[], by decide⟩ }, by decide, by decide, ?_⟩
  rintro ⟨nameOf, h⟩
  obtain ⟨bytes, hstore, -⟩ := loadObject_store (show nestedObject.Fits by decide)
  have h₁ := h nestedObject (by simp) bytes hstore
  have h₂ := h { nestedObject with aName := ⟨[], by decide⟩ } (by simp) bytes hstore
  have hne : nestedObject.aName ≠ ⟨[], by decide⟩ := by decide
  exact hne (h₁.symm.trans h₂)

end Etoile.Serialize
