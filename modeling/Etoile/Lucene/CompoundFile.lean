import Etoile.Lucene.CompoundFileReader

/-!
# Compound files as containers

Reading a file means to move along its bytes.  The stream of a file and the stream that the
compound file has for it both do so, whatever copies of them are read in between, if the compound
file has the bytes of the file and nothing else behind them.
-/

namespace Etoile.Lucene.Compound

open FSIndexInput List Option

/-- What is seen of an answer.  At the end of a file there is no byte, and bytes that are to be
filled stay as they are, whether the code raises or not. -/
def seen : InputRequest → Response NSString → Response NSString
  | .readBytes b _ _, .raised => .bytes b
  | .readByte, .unset => .raised
  | _, response => response

/-- The requests to read and to move.  In memory a stream keeps its position in an `int`, and one
behind the end of the file. -/
def Asked (kind : Kind) : InputRequest → Prop
  | .readByte => True
  | .readBytes b offset len => offset ≤ b.length ∧ len < 2 ^ 31
  | .seekToFileOffset pos => kind = .memory → pos < 2 ^ 31
  | .offsetInFile => kind = .fileSystem
  | .length => True
  | .close => False

def reading (content : List UInt8) (p : ℕ) : InputRequest → ℕ × Response NSString
  | .readByte =>
    match content[p]? with
    | some b => (p + 1, .byte b)
    | none => (p, .raised)
  | .readBytes b offset len =>
    let bytes := (content.drop p).take len
    (p + bytes.length, .bytes (b.take offset ++ bytes ++ b.drop (offset + bytes.length)))
  | .seekToFileOffset pos => (min pos content.length, .done)
  | .offsetInFile => (p, .number p)
  | .length => (p, .number content.length)
  | .close => (p, .done)

def Input.At (kind : Kind) (data : List UInt8) (p : ℕ) : Input → Prop
  | .memory pointer => kind = .memory ∧ data.length < 2 ^ 31 ∧ pointer < 2 ^ 31
      ∧ p = min pointer data.length
  | .fileSystem i => kind = .fileSystem ∧ data.length < 2 ^ 63 ∧ i.isClosed = false
      ∧ i.length = data.length ∧ p ≤ data.length ∧ ∃ h, i.handle = some h ∧ h.offset = p

def Fits (kind : Kind) (data : List UInt8) : Prop :=
  match kind with
  | .memory => data.length < 2 ^ 31
  | .fileSystem => data.length < 2 ^ 63

section Input

variable {kind : Kind} {data : List UInt8} {p : ℕ} {i : Input}

theorem Input.At.fits : ∀ {i : Input}, i.At kind data p → Fits kind data
  | .memory _, ⟨hkind, hdata, _⟩ => by rw [hkind]; exact hdata
  | .fileSystem _, ⟨hkind, hdata, _⟩ => by rw [hkind]; exact hdata

theorem at_openAt {name : NSString} (hfits : Fits kind data) (hp : p ≤ data.length) :
    (Input.openAt name data p kind).At kind data p := by
  cases kind
  · exact ⟨rfl, hfits, Nat.lt_of_le_of_lt hp hfits, (Nat.min_eq_left hp).symm⟩
  · exact ⟨rfl, hfits, rfl, rfl, hp, _, rfl, rfl⟩

theorem at_copy : ∀ {i : Input}, i.At kind data p → (i.copy data).At kind data p
  | .memory pointer, ⟨hkind, hdata, hpointer, hp⟩ => by
    rw [Input.copy, toInt_natCast hpointer, toUnsigned_natCast (by omega)]
    exact ⟨hkind, hdata, hpointer, hp⟩
  | .fileSystem i, ⟨hkind, hdata, hopen, hlength, hp, h, hhandle, hoffset⟩ => by
    have hi : i.offset = p := by rw [FSIndexInput.offset, hhandle, ← hoffset]; rfl
    rw [Input.copy, hi, seekToFileOffset]
    split_ifs with hlt
    · exact ⟨hkind, hdata, rfl, rfl, hp, _, rfl, rfl⟩
    · exact ⟨hkind, hdata, rfl, rfl, hp, _, rfl, by
        change data.length = p
        change ¬ p < data.length at hlt
        omega⟩

theorem length_take_drop {n : ℕ} : ((data.drop p).take n).length = min n (data.length - p) := by
  rw [length_take, length_drop]

theorem receive_memory {pointer : ℕ} (hdata : data.length < 2 ^ 31) (hpointer : pointer < 2 ^ 31)
    (hp : p = min pointer data.length) : ∀ {request : InputRequest}, Asked .memory request →
      seen request ((Input.memory pointer).receive data request).2 = (reading data p request).2
        ∧ ((Input.memory pointer).receive data request).1.At .memory data (reading data p request).1
  | .readByte, _ => by
    rcases lt_or_ge pointer data.length with hlt | hge
    · have hp' : p = pointer := by omega
      simp only [Input.receive, RAMInputStream.receive, reading, hp',
        getElem?_eq_getElem hlt]
      exact ⟨rfl, rfl, hdata, by omega, by omega⟩
    · have hp' : p = data.length := by omega
      simp only [Input.receive, RAMInputStream.receive, reading, hp',
        getElem?_eq_none hge, getElem?_eq_none le_rfl]
      exact ⟨rfl, rfl, hdata, hpointer, by omega⟩
  | .readBytes b offset len, hasked => by
    have hoffset := hasked.1
    rcases Nat.lt_or_ge data.length pointer with hlt | hge
    · have hp' : p = data.length := by omega
      simp only [Input.receive, RAMInputStream.receive, reading, getD_some,
        not_le.2 hlt, if_false, hp', drop_length, take_nil]
      refine ⟨?_, rfl, hdata, hpointer, by simp only [length_nil]; omega⟩
      simp [seen]
    · have hp' : p = pointer := by omega
      simp only [Input.receive, RAMInputStream.receive, reading, getD_some, hge, if_true,
        hoffset, hp', replaceBytes]
      have hlength := @length_take_drop data pointer len
      exact ⟨rfl, rfl, hdata, by omega, by omega⟩
  | .seekToFileOffset pos, hasked => by
    have hpos := hasked rfl
    simp only [Input.receive, RAMInputStream.receive, toInt_natCast hpos,
      toUnsigned_natCast (by omega : pos < 2 ^ 64)]
    exact ⟨rfl, rfl, hdata, hpos, rfl⟩
  | .length, _ => ⟨rfl, rfl, hdata, hpointer, hp⟩

theorem receive_fileSystem {i : FSIndexInput NSString} (h : (Input.fileSystem i).At kind data p) :
    ∀ {request : InputRequest}, Asked .fileSystem request →
      seen request ((Input.fileSystem i).receive data request).2 = (reading data p request).2
        ∧ ((Input.fileSystem i).receive data request).1.At kind data
          (reading data p request).1 := by
  obtain ⟨hkind, hdata, hopen, hlength, hp, handle, hhandle, rfl⟩ := h
  have hi : i.offset = handle.offset := by rw [FSIndexInput.offset, hhandle]; rfl
  have hat : ∀ {q : ℕ}, q ≤ data.length → (Input.fileSystem (i.withOffset q)).At kind data q := by
    intro q hq
    refine ⟨hkind, hdata, hopen, hlength, hq, ⟨handle.inode, q⟩, ?_, rfl⟩
    rw [FSIndexInput.withOffset, hhandle]
    rfl
  have hhere : (Input.fileSystem i).At kind data handle.offset :=
    ⟨hkind, hdata, hopen, hlength, hp, handle, hhandle, rfl⟩
  rintro (_ | ⟨b, offset, len⟩ | pos | _ | _ | _) hasked
  · rcases lt_or_ge handle.offset data.length with hlt | hge
    · simp only [Input.receive, receive, hopen, hi, reading,
        getElem?_eq_getElem hlt, Bool.false_eq_true, if_false]
      exact ⟨rfl, hat hlt⟩
    · simp only [Input.receive, receive, hopen, hi, reading,
        getElem?_eq_none hge, Bool.false_eq_true, if_false]
      exact ⟨rfl, hhere⟩
  · have hoffset := hasked.1
    have hread := @length_take_drop data handle.offset len
    simp only [Input.receive, receive, hopen, hi, reading, replaceBytes, hoffset,
      Bool.false_eq_true, if_false, if_true]
    exact ⟨rfl, hat (by omega)⟩
  · simp only [Input.receive, receive, hopen, seekToFileOffset, reading,
      Bool.false_eq_true, if_false]
    refine ⟨rfl, ?_⟩
    split_ifs with hlt
    · rw [Nat.min_eq_left (by omega)]
      exact hat (by omega)
    · rw [Nat.min_eq_right (by omega)]
      exact hat le_rfl
  · simp only [Input.receive, receive, hopen, hi, reading, Bool.false_eq_true,
      if_false]
    exact ⟨rfl, hhere⟩
  · simp only [Input.receive, receive, hopen, hlength, reading, Bool.false_eq_true,
      if_false]
    exact ⟨rfl, hhere⟩
  · exact hasked.elim

theorem receive_input (h : i.At kind data p) {request : InputRequest}
    (hasked : Asked kind request) :
    seen request (i.receive data request).2 = (reading data p request).2
      ∧ (i.receive data request).1.At kind data (reading data p request).1 := by
  rcases i with pointer | i
  · obtain ⟨rfl, hdata, hpointer, hp⟩ := h
    exact receive_memory hdata hpointer hp hasked
  · obtain rfl := h.1
    exact receive_fileSystem h hasked

def filled (b : List UInt8) (offset : ℕ) (bytes : List UInt8) : List UInt8 :=
  b.take offset ++ bytes ++ b.drop (offset + bytes.length)

theorem readBytes_seek {b : List UInt8} {pos offset len : ℕ} (h : i.At kind data p)
    (hpos : pos ≤ data.length) (hoffset : offset ≤ b.length) (hlen : len < 2 ^ 31) :
    ∃ i' q, (i.receive data (.seekToFileOffset pos)).1.readBytes data b offset len
        = (i', .bytes (filled b offset ((data.drop pos).take len))) ∧ i'.At kind data q := by
  have hfits := h.fits
  have hseek : Asked kind (.seekToFileOffset pos) := by
    rintro rfl
    exact Nat.lt_of_le_of_lt hpos hfits
  have hmoved := (receive_input h hseek).2
  have hread := (@receive_input _ _ _ _ hmoved (.readBytes b offset len) ⟨hoffset, hlen⟩).2
  rw [Input.readBytes_natCast (by omega)]
  refine ⟨_, _, Prod.ext rfl ?_, hread⟩
  rcases i with pointer | i
  · obtain ⟨rfl, -⟩ := h
    have hlt : pos < 2 ^ 31 := hseek rfl
    simp only [Input.receive, RAMInputStream.receive, toInt_natCast hlt,
      toUnsigned_natCast (by omega : pos < 2 ^ 64), getD_some, hpos, if_true, replaceBytes,
      hoffset, filled]
  · obtain ⟨-, -, hopen, hlength, -, handle, hhandle, -⟩ := h
    have hi : (i.seekToFileOffset data pos).offset = pos := by
      unfold seekToFileOffset
      split_ifs with hlt
      · rw [FSIndexInput.offset, FSIndexInput.withOffset, hhandle]
        rfl
      · rw [FSIndexInput.offset, FSIndexInput.withOffset, hhandle]
        change data.length = pos
        omega
    have hopen' : (i.seekToFileOffset data pos).isClosed = false := by
      unfold seekToFileOffset
      split_ifs <;> exact hopen
    simp only [Input.receive, receive, hopen, Bool.false_eq_true, if_false, hi,
      hopen', replaceBytes, hoffset, if_true, filled]

end Input

/-- A stream in a compound file from which the bytes of its file are read on from a place. -/
structure LCCSIndexInput.At (kind : Kind) (data content : List UInt8) (p : ℕ) (s : LCCSIndexInput) :
    Prop where
  base : ∃ q, s.base.At kind data q
  length : s.length = content.length
  filePointer : s.filePointer = p
  le : p ≤ content.length
  bytes : ∃ before after, data = before ++ (content ++ after) ∧ s.fileOffset = before.length

section Sub

variable {kind : Kind} {data content : List UInt8} {p : ℕ} {s : LCCSIndexInput}

theorem LCCSIndexInput.At.length_lt (h : s.At kind data content p) : content.length < 2 ^ 63 := by
  obtain ⟨q, hbase⟩ := h.base
  obtain ⟨before, after, rfl, -⟩ := h.bytes
  have hfits := hbase.fits
  cases kind
  · change (before ++ (content ++ after)).length < 2 ^ 31 at hfits
    simp only [length_append] at hfits
    omega
  · change (before ++ (content ++ after)).length < 2 ^ 63 at hfits
    simp only [length_append] at hfits
    omega

theorem drop_content {before after : List UInt8} (hp : p ≤ content.length) :
    (before ++ (content ++ after)).drop (before.length + p) = content.drop p ++ after := by
  rw [← drop_drop, drop_left, drop_append_of_le_length hp]

theorem clipped {len : ℕ} (h : s.At kind data content p) (hlen : len < 2 ^ 31) :
    (if s.length < s.filePointer + len then toInt (s.length - s.filePointer) else (len : ℤ))
      = (min len (content.length - p) : ℕ) := by
  have hle := h.le
  rw [h.length, h.filePointer]
  split_ifs with hcut
  · have hsub : (content.length : ℤ) - p = (content.length - p : ℕ) := by omega
    rw [hsub, toInt_natCast (by omega), Nat.min_eq_right (by omega)]
  · rw [Nat.min_eq_left (by omega)]

theorem sub_readBytes {b : List UInt8} {offset len : ℕ} (h : s.At kind data content p)
    (hoffset : offset ≤ b.length) (hlen : len < 2 ^ 31) :
    ∃ s', s.readBytes data b offset len
        = (s', .bytes (filled b offset ((content.drop p).take len)))
      ∧ s'.At kind data content (p + ((content.drop p).take len).length) := by
  have hle := h.le
  have hshort := h.length_lt
  obtain ⟨q, hbase⟩ := h.base
  obtain ⟨before, after, hdata, hplace⟩ := h.bytes
  have hfits := hbase.fits
  have htotal : data.length = before.length + (content.length + after.length) := by
    rw [hdata, length_append, length_append]
  have hsmall : data.length < 2 ^ 63 := by
    cases kind
    · change data.length < 2 ^ 31 at hfits
      omega
    · exact hfits
  have hpos : toUnsigned (s.fileOffset + s.filePointer) = before.length + p := by
    have hsum : s.fileOffset + s.filePointer = (before.length + p : ℕ) := by
      rw [hplace, h.filePointer]
      omega
    rw [hsum, toUnsigned_natCast (by omega)]
  have hn : min len (content.length - p) < 2 ^ 31 := by omega
  obtain ⟨i', q', hread, hat⟩ :=
    @readBytes_seek _ _ _ _ _ (before.length + p) _ _ hbase (by omega) hoffset hn
  have hbytes : (data.drop (before.length + p)).take (min len (content.length - p))
      = (content.drop p).take len := by
    have hdrop : (content.drop p).length = content.length - p := length_drop
    rw [hdata, drop_content hle, take_append_of_le_length (by omega), ← hdrop,
      ← take_take, take_length]
  have hcount : ((content.drop p).take len).length = min len (content.length - p) :=
    length_take_drop
  rw [hbytes] at hread
  refine ⟨{ s with base := i', filePointer := s.filePointer + (min len (content.length - p) : ℕ) },
    ?_, ⟨q', hat⟩, h.length, ?_, ?_, before, after, hdata, hplace⟩
  · unfold LCCSIndexInput.readBytes
    simp only [clipped h hlen, hpos, hread]
  · rw [hcount, h.filePointer]
    simp
  · omega

theorem receive_sub (h : s.At kind data content p) : ∀ {request : InputRequest},
    Asked kind request →
      seen request (s.receive data request).2 = (reading content p request).2
        ∧ (s.receive data request).1.At kind data content (reading content p request).1
  | .readByte, _ => by
    obtain ⟨s', hread, hat⟩ := @sub_readBytes _ _ _ _ _ [] 0 1 h le_rfl (by omega)
    rcases lt_or_ge p content.length with hlt | hge
    · have hone : (content.drop p).take 1 = [content[p]] := by
        rw [drop_eq_getElem_cons hlt]
        rfl
      rw [hone] at hread hat
      simp only [LCCSIndexInput.receive, hread, filled, reading, getElem?_eq_getElem hlt]
      exact ⟨rfl, hat⟩
    · have hnone : (content.drop p).take 1 = [] := by
        rw [drop_of_length_le hge]
        rfl
      rw [hnone] at hread hat
      simp only [LCCSIndexInput.receive, hread, filled, reading, getElem?_eq_none hge]
      exact ⟨rfl, hat⟩
  | .readBytes b offset len, hasked => by
    obtain ⟨s', hread, hat⟩ := sub_readBytes h hasked.1 hasked.2
    simp only [LCCSIndexInput.receive, hread, reading]
    exact ⟨rfl, hat⟩
  | .seekToFileOffset pos, _ => by
    have hlt := h.length_lt
    have hlength : toUnsigned s.length = content.length := by
      rw [h.length, toUnsigned_natCast (by omega)]
    refine ⟨rfl, h.base, h.length, ?_, Nat.min_le_right _ _, h.bytes⟩
    change (if pos < toUnsigned s.length then (pos : ℤ) else s.length) = _
    rw [hlength, h.length]
    simp only [reading]
    split_ifs <;> omega
  | .offsetInFile, _ => by
    have hlt := h.length_lt
    have hle := h.le
    have hpointer : toUnsigned s.filePointer = p := by
      rw [h.filePointer, toUnsigned_natCast (by omega)]
    simp only [LCCSIndexInput.receive, hpointer, reading]
    exact ⟨rfl, h⟩
  | .length, _ => by
    have hlt := h.length_lt
    have hlength : toUnsigned s.length = content.length := by
      rw [h.length, toUnsigned_natCast (by omega)]
    simp only [LCCSIndexInput.receive, hlength, reading]
    exact ⟨rfl, h⟩

theorem at_sub_copy (h : s.At kind data content p) : (s.copy data).At kind data content p := by
  have hlt := h.length_lt
  have hle := h.le
  obtain ⟨q, hbase⟩ := h.base
  have hpointer : toUnsigned s.filePointer = p := by
    rw [h.filePointer, toUnsigned_natCast (by omega)]
  have hlength : toUnsigned s.length = content.length := by
    rw [h.length, toUnsigned_natCast (by omega)]
  refine ⟨⟨q, at_copy (at_copy hbase)⟩, h.length, ?_, hle, h.bytes⟩
  change (if toUnsigned s.filePointer < toUnsigned s.length
    then ((toUnsigned s.filePointer : ℕ) : ℤ) else s.length) = _
  rw [hpointer, hlength, h.length]
  split_ifs <;> omega

end Sub

def Input.answer (data : List UInt8) (i : Input) (request : InputRequest) :
    Input × Response NSString :=
  ((i.receive data request).1, seen request (i.receive data request).2)

def LCCSIndexInput.answer (data : List UInt8) (s : LCCSIndexInput) (request : InputRequest) :
    LCCSIndexInput × Response NSString :=
  ((s.receive data request).1, seen request (s.receive data request).2)

/-- The requests to a stream and its copies, and to the copies of those. -/
abbrev Run := List (CopyRequest InputRequest)

section Runs

variable {kind : Kind} {data content : List UInt8} {p : ℕ} {run : Run}

theorem responses_input {i : Input} (h : i.At kind data p)
    (hrun : ∀ r ∈ run, r.Meets (Asked kind)) :
    responses (several (Input.answer data) (Input.copy data)) [i] run
      = responses (several (reading data) id) [p] run :=
  responses_several_eq (R := fun i p => i.At kind data p)
    (fun _ _ _ hat hasked => receive_input hat hasked)
    (fun _ _ => at_copy) hrun h

theorem responses_sub {s : LCCSIndexInput} (h : s.At kind data content p)
    (hrun : ∀ r ∈ run, r.Meets (Asked kind)) :
    responses (several (LCCSIndexInput.answer data) (LCCSIndexInput.copy data)) [s] run
      = responses (several (reading content) id) [p] run :=
  responses_several_eq (R := fun s p => s.At kind data content p) (fun _ _ _ hat => receive_sub hat)
    (fun _ _ => at_sub_copy) hrun h

end Runs

/-- Whatever is asked of the stream of a file in the compound file, and of its copies, is answered
as by the stream of the file itself.  `old` are the bytes of a file that has the name of the
compound file before, and that is not one of the files. -/
def Faithful (kind : Kind) (contents : NSString → List UInt8) (fileName : NSString)
    (old : List UInt8) (files : List NSString) : Prop :=
  ∀ file ∈ files, ∃ compound reader s,
    ((LCCompoundFileWriter.adding files).close kind contents fileName old).2 = some compound
    ∧ LCCompoundFileReader.initWithDirectory kind fileName compound = some reader
    ∧ reader.fileLength file = (contents file).length
    ∧ reader.openInput compound file = some s
    ∧ ∀ run : Run, (∀ r ∈ run, r.Meets (Asked kind)) →
      responses (several (LCCSIndexInput.answer compound) (LCCSIndexInput.copy compound)) [s] run
        = responses (several (Input.answer (contents file)) (Input.copy (contents file)))
          [Input.openInput file (contents file) kind] run

section Faithful

open LCCompoundFileWriter (rest adding close_eq close_none)

variable {kind : Kind} {contents : NSString → List UInt8} {fileName file : NSString}
  {old : List UInt8} {files pre post : List NSString}

/-- The files and their names are in the ranges of the numbers that are written of them. -/
structure Ranges (kind : Kind) (contents : NSString → List UInt8) (old : List UInt8)
    (files : List NSString) : Prop where
  nodup : files.Nodup
  count : files.length < 2 ^ 31
  names : ∀ file ∈ files, file.length < 2 ^ 31
  fits : Fits kind (archive contents files)
  old : old.length < 2 ^ 63

theorem length_stored_le : (stored contents file).length ≤ (contents file).length := by
  have hcases := toInt_length_cases (contents file)
  rw [stored, length_copied]
  omega

theorem length_flatMap_stored_le (files : List NSString) :
    (files.flatMap (stored contents)).length ≤ (files.flatMap contents).length := by
  induction files with
  | nil => simp
  | cons file files ih =>
    have hfile := @length_stored_le contents file
    simp only [flatMap_cons, length_append]
    omega

theorem length_archive_stored_le :
    (archive (stored contents) files).length ≤ (archive contents files).length := by
  have hle := @length_flatMap_stored_le contents files
  rw [length_archive, length_archive]
  omega

theorem length_le_archive (hmem : file ∈ files) :
    (contents file).length ≤ (archive contents files).length := by
  obtain ⟨pre, post, rfl⟩ := append_of_mem hmem
  rw [length_archive]
  simp only [flatMap_append, flatMap_cons, length_append]
  omega

theorem archive_stored (h : ∀ file ∈ files, (contents file).length < 2 ^ 31) :
    (archive (stored contents) files).length = (archive contents files).length := by
  have hflat : files.flatMap (stored contents) = files.flatMap contents :=
    flatMap_congr fun file hmem => copied_eq (h file hmem)
  rw [length_archive, length_archive, hflat]

theorem Fits.mono {data data' : List UInt8} (h : Fits kind data)
    (hle : data'.length ≤ data.length) : Fits kind data' := by
  cases kind
  · exact Nat.lt_of_le_of_lt hle h
  · exact Nat.lt_of_le_of_lt hle h

theorem fits_compound (h : Ranges kind contents old files) :
    Fits kind (archive (stored contents) files
      ++ rest kind old (archive (stored contents) files).length) := by
  have hle := @length_archive_stored_le contents files
  have hfits := h.fits
  have hold := h.old
  cases kind
  · change (_ : List UInt8).length < 2 ^ 31 at hfits
    change (_ ++ []).length < 2 ^ 31
    rw [append_nil]
    omega
  · change (_ : List UInt8).length < 2 ^ 63 at hfits
    change (_ ++ old.drop _).length < 2 ^ 63
    rw [length_append, length_drop]
    omega

/-- What the compound file has of a file, with what lies behind the last one. -/
abbrev held (kind : Kind) (contents : NSString → List UInt8) (old : List UInt8)
    (files : List NSString) (file : NSString) (post : List NSString) : List UInt8 :=
  content (stored contents) (rest kind old (archive (stored contents) files).length) file post

/-- The stream of a file in the compound file reads what the compound file has of it. -/
theorem exists_opened (h : Ranges kind contents old (pre ++ file :: post))
    (hlen : ∀ f ∈ pre ++ file :: post, 0 ≤ toInt (contents f).length) :
    ∃ compound reader s,
      ((adding (pre ++ file :: post)).close kind contents fileName old).2 = some compound
      ∧ LCCompoundFileReader.initWithDirectory kind fileName compound = some reader
      ∧ reader.fileLength file = (held kind contents old (pre ++ file :: post) file post).length
      ∧ reader.openInput compound file = some s
      ∧ s.At kind compound (held kind contents old (pre ++ file :: post) file post) 0 := by
  have hfits := fits_compound h
  have hsize : (archive (stored contents) (pre ++ file :: post)).length < 2 ^ 63 := by
    have hle := @length_archive_stored_le contents (pre ++ file :: post)
    have hall := h.fits
    cases kind
    · change (_ : List UInt8).length < 2 ^ 31 at hall
      omega
    · change (_ : List UInt8).length < 2 ^ 63 at hall
      omega
  have hne : pre ++ file :: post ≠ [] := append_ne_nil_of_right_ne_nil _ (cons_ne_nil _ _)
  have hclose := @close_eq _ kind _ fileName old h.nodup hne hlen (by
    rintro rfl
    have hle := @length_archive_stored_le contents (pre ++ file :: post)
    exact Nat.lt_of_le_of_lt hle h.fits)
  obtain ⟨reader, pos, hinit, hstream, hpos, hentry⟩ :=
    @initWithDirectory_archive _ kind fileName _ _ _
      (rest kind old (archive (stored contents) (pre ++ file :: post)).length)
      h.nodup h.count h.names hsize
  obtain ⟨before, after, hbytes, hplace⟩ := @exists_content (stored contents) file pre post
    (rest kind old (archive (stored contents) (pre ++ file :: post)).length)
  have hbase := at_copy (@at_openAt _ _ _ fileName hfits hpos)
  have hat : (LCCSIndexInput.init (archive (stored contents) (pre ++ file :: post)
      ++ rest kind old (archive (stored contents) (pre ++ file :: post)).length)
      (Input.openAt fileName (archive (stored contents) (pre ++ file :: post)
        ++ rest kind old (archive (stored contents) (pre ++ file :: post)).length) pos kind)
      (place (stored contents) (pre ++ file :: post) pre)
      (held kind contents old (pre ++ file :: post) file post).length).At kind
      (archive (stored contents) (pre ++ file :: post)
        ++ rest kind old (archive (stored contents) (pre ++ file :: post)).length)
      (held kind contents old (pre ++ file :: post) file post) 0 :=
    ⟨⟨pos, hbase⟩, rfl, rfl, Nat.zero_le _, before, after, hbytes, by rw [hplace]; rfl⟩
  have hlt := hat.length_lt
  refine ⟨_, reader, _, hclose, hinit, ?_, ?_, hat⟩
  · rw [LCCompoundFileReader.fileLength, hentry]
    exact toUnsigned_natCast (Nat.lt_trans hlt (by omega))
  · simp only [LCCompoundFileReader.openInput, hstream, hentry]

theorem faithful_of (h : Ranges kind contents old files)
    (hlen : ∀ f ∈ files, 0 ≤ toInt (contents f).length)
    (hheld : ∀ pre file post, files = pre ++ file :: post →
      held kind contents old files file post = contents file) :
    Faithful kind contents fileName old files := by
  intro file hmem
  obtain ⟨pre, post, rfl⟩ := append_of_mem hmem
  obtain ⟨compound, reader, s, hclose, hinit, hlength, hopen, hat⟩ :=
    @exists_opened _ _ fileName _ _ _ _ h hlen
  rw [hheld pre file post rfl] at hlength hat
  refine ⟨compound, reader, s, hclose, hinit, hlength, hopen, fun run hrun => ?_⟩
  have hfile : (Input.openInput file (contents file) kind).At kind (contents file) 0 :=
    at_openAt (h.fits.mono (length_le_archive hmem)) (Nat.zero_le _)
  rw [responses_sub hat hrun, responses_input hfile hrun]

/-- The length of a stream tells whether the compound file has more or less than the file. -/
theorem not_faithful_of_length (h : Ranges kind contents old (pre ++ file :: post))
    (hlen : ∀ f ∈ pre ++ file :: post, 0 ≤ toInt (contents f).length)
    (hne : (held kind contents old (pre ++ file :: post) file post).length
      ≠ (contents file).length) : ¬ Faithful kind contents fileName old (pre ++ file :: post) := by
  intro hfaithful
  have hmem : file ∈ pre ++ file :: post := mem_append_right _ mem_cons_self
  obtain ⟨compound, reader, s, hclose, hinit, -, hopen, hat⟩ :=
    @exists_opened _ _ fileName _ _ _ _ h hlen
  obtain ⟨compound', reader', s', hclose', hinit', -, hopen', hrun⟩ := hfaithful file hmem
  obtain rfl := some.inj (hclose'.symm.trans hclose)
  obtain rfl := some.inj (hinit'.symm.trans hinit)
  obtain rfl := some.inj (hopen'.symm.trans hopen)
  have hasked : ∀ r ∈ [CopyRequest.request 0 InputRequest.length], r.Meets (Asked kind) := by
    simp [CopyRequest.Meets, Asked]
  have hfile : (Input.openInput file (contents file) kind).At kind (contents file) 0 :=
    at_openAt (h.fits.mono (length_le_archive hmem)) (Nat.zero_le _)
  have hsame := hrun _ hasked
  rw [responses_sub hat hasked, responses_input hfile hasked] at hsame
  simp only [responses, several, reading, getElem?_cons_zero, cons.injEq,
    some.injEq, Response.number.injEq, and_true] at hsame
  exact hne hsame

theorem not_faithful_of_large (h : Ranges .fileSystem contents [] files)
    (hlarge : ¬ ∀ f ∈ files, (contents f).length < 2 ^ 31) :
    ¬ Faithful .fileSystem contents fileName [] files := by
  push Not at hlarge
  obtain ⟨file, hmem, hge⟩ := hlarge
  by_cases hlen : ∀ f ∈ files, 0 ≤ toInt (contents f).length
  · obtain ⟨pre, post, rfl⟩ := append_of_mem hmem
    refine not_faithful_of_length h hlen (ne_of_lt ?_)
    have hheld : held .fileSystem contents [] (pre ++ file :: post) file post
        = stored contents file := by
      unfold held content rest
      rw [drop_nil, append_nil, ite_self]
    have hcases := toInt_length_cases (contents file)
    rw [hheld, stored, length_copied]
    omega
  · push Not at hlen
    intro hfaithful
    obtain ⟨compound, -, -, hclose, -⟩ := hfaithful file hmem
    rw [close_none h.nodup (ne_nil_of_mem hmem) hlen] at hclose
    cases hclose

theorem small_of_memory (h : Ranges .memory contents old files) :
    ∀ f ∈ files, (contents f).length < 2 ^ 31 := fun _ hmem =>
  Nat.lt_of_le_of_lt (length_le_archive hmem) h.fits

theorem toInt_nonneg_of_small (h : ∀ f ∈ files, (contents f).length < 2 ^ 31) :
    ∀ f ∈ files, 0 ≤ toInt (contents f).length := by
  intro f hmem
  rw [toInt_natCast (h f hmem)]
  omega

theorem held_of_small (h : ∀ f ∈ files, (contents f).length < 2 ^ 31) (hmem : file ∈ files) :
    held kind contents old files file post
      = if post = [] then contents file ++ rest kind old (archive contents files).length
        else contents file := by
  unfold held content
  rw [archive_stored h, stored, copied_eq (h file hmem)]

theorem faithful_iff_of_small (h : Ranges kind contents old files)
    (hsmall : ∀ f ∈ files, (contents f).length < 2 ^ 31) :
    Faithful kind contents fileName old files
      ↔ files = [] ∨ kind = .memory ∨ old.length ≤ (archive contents files).length := by
  have hlen := toInt_nonneg_of_small hsmall
  constructor
  · intro hfaithful
    rcases eq_nil_or_concat files with hnil | ⟨pre, file, rfl⟩
    · exact .inl hnil
    · cases kind
      · exact .inr (.inl rfl)
      · refine .inr (.inr (not_lt.1 fun hlong => ?_))
        rw [concat_eq_append] at h hsmall hlen hfaithful hlong
        refine not_faithful_of_length h hlen (ne_of_gt ?_) hfaithful
        rw [held_of_small hsmall (mem_append_right _ mem_cons_self), if_pos rfl,
          length_append, rest, length_drop]
        omega
  · intro hcond
    refine faithful_of h hlen fun pre file post hsplit => ?_
    have hmem : file ∈ files := by simp [hsplit]
    have hrest : rest kind old (archive contents files).length = [] := by
      rcases hcond with rfl | rfl | hle
      · exact absurd hmem not_mem_nil
      · rfl
      · cases kind
        · rfl
        · exact drop_of_length_le hle
    rw [held_of_small hsmall hmem, hrest, append_nil, ite_self]

/-- A new compound file is faithful if all files are small, and one of small files if it is not
shorter than the file that it replaces. -/
theorem compoundFile_faithful_iff (h : Ranges kind contents old files) :
    (old = [] → (Faithful kind contents fileName old files
      ↔ ∀ f ∈ files, (contents f).length < 2 ^ 31))
    ∧ ((∀ f ∈ files, (contents f).length < 2 ^ 31) →
      (Faithful kind contents fileName old files
        ↔ files = [] ∨ kind = .memory ∨ old.length ≤ (archive contents files).length)) := by
  refine ⟨?_, faithful_iff_of_small h⟩
  rintro rfl
  constructor
  · intro hfaithful
    cases kind
    · exact small_of_memory h
    · by_contra hlarge
      exact not_faithful_of_large h hlarge hfaithful
  · intro hsmall
    exact (faithful_iff_of_small h hsmall).2 (.inr (.inr (Nat.zero_le _)))

/-- Two files of three bytes each. -/
theorem compoundFile_faithful_iff_two :
    Faithful .fileSystem (fun _ => [1, 2, 3]) [120] [] [[97], [98]] := by
  have hranges : Ranges .fileSystem (fun _ => [1, 2, 3]) [] [[97], [98]] := by
    refine ⟨by decide, by decide, by decide, ?_, by decide⟩
    change (archive _ _).length < 2 ^ 63
    rw [length_archive]
    decide
  exact ((compoundFile_faithful_iff hranges).1 rfl).2 (by decide)

theorem not_faithful_of_old :
    ¬ Faithful .fileSystem (fun _ => [1]) [120] (replicate 100 0) [[97]] := by
  have hlength : (archive (fun _ => [1]) [[97]]).length = 12 := by
    rw [length_archive]
    decide
  have hranges : Ranges .fileSystem (fun _ => [1]) (replicate 100 0) [[97]] := by
    refine ⟨by decide, by decide, by decide, ?_, by simp⟩
    change (archive _ _).length < 2 ^ 63
    omega
  intro hfaithful
  rcases (faithful_iff_of_small hranges (by decide)).1 hfaithful with h | h | h
  · exact absurd h (cons_ne_nil _ _)
  · exact absurd h nofun
  · rw [hlength, length_replicate] at h
    omega

/-- A file whose length is not one of an `int`. -/
theorem not_faithful_two_gigabytes :
    ¬ Faithful .fileSystem (fun _ => replicate (2 ^ 31) 0) [120] [] [[97]] := by
  have hranges : Ranges .fileSystem (fun _ => replicate (2 ^ 31) 0) [] [[97]] := by
    refine ⟨by decide, by decide, by decide, ?_, by decide⟩
    change (archive _ _).length < 2 ^ 63
    have hcount : (IndexOutput.writeVInt ([[97]] : List NSString).length).length = 1 := by decide
    have hblank : (blank [[97]]).length = 10 := by decide
    rw [length_archive, hcount, hblank, flatMap_cons, flatMap_nil, append_nil,
      length_replicate]
    omega
  refine not_faithful_of_large hranges fun h => ?_
  have hlt := h [97] (by decide)
  rw [length_replicate] at hlt
  omega

/-- Neither over a longer file, nor with a file whose length is not one of an `int`. -/
theorem compoundFile_not_faithful :
    ¬ Faithful .fileSystem (fun _ => [1]) [120] (replicate 100 0) [[97]]
      ∧ ¬ Faithful .fileSystem (fun _ => replicate (2 ^ 31) 0) [120] [] [[97]] :=
  ⟨not_faithful_of_old, not_faithful_two_gigabytes⟩

end Faithful

end Etoile.Lucene.Compound
