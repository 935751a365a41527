import Etoile.Lucene.CompoundFileWriter

/-!
# The reader of compound files

The reader takes the places of the files from the directory, and the length of each from the place
of the next one, that of the last from the length of the compound file.
-/

namespace Etoile.Lucene.Compound

open Function List

structure LCFileEntry where
  offset : ℤ
  length : ℤ

abbrev Entries := NSString → Option LCFileEntry

def Entries.setLength (entries : Entries) (iden : NSString) (length : ℤ) : Entries :=
  update entries iden ((entries iden).map fun entry => { entry with length := length })

/-- The entry that was read before gets its length as soon as its end is known. -/
def Entries.setPrevious (entries : Entries) (previous : Option (NSString × ℤ)) (offset : ℤ) :
    Entries :=
  match previous with
  | none => entries
  | some (prevIden, prevOffset) => entries.setLength prevIden (offset - prevOffset)

structure LCCSIndexInput where
  base : Input
  fileOffset : ℤ
  length : ℤ
  filePointer : ℤ

namespace LCCSIndexInput

variable (data : List UInt8)

def init (base : Input) (fileOffset length : ℤ) : LCCSIndexInput where
  base := base.copy data
  fileOffset := fileOffset
  length := length
  filePointer := 0

/-- The position is compared with the length as a number without sign. -/
def seekToFileOffset (s : LCCSIndexInput) (pos : ℕ) : LCCSIndexInput :=
  { s with filePointer := if pos < toUnsigned s.length then pos else s.length }

def readBytes (s : LCCSIndexInput) (b : List UInt8) (offset len : ℕ) :
    LCCSIndexInput × Response NSString :=
  let start := s.filePointer
  let len := if s.length < start + len then toInt (s.length - start) else len
  let base := (s.base.receive data (.seekToFileOffset (toUnsigned (s.fileOffset + start)))).1
  match base.readBytes data b offset len with
  | (base, .raised) => ({ s with base := base }, .raised)
  | (base, response) => ({ s with base := base, filePointer := start + len }, response)

/-- Without a byte the assertion of `-readByte` fails. -/
def receive (s : LCCSIndexInput) : InputRequest → LCCSIndexInput × Response NSString
  | .readByte =>
    match s.readBytes data [] 0 1 with
    | (s, .bytes (byte :: _)) => (s, .byte byte)
    | (s, _) => (s, .raised)
  | .readBytes b offset len => s.readBytes data b offset len
  | .seekToFileOffset pos => (s.seekToFileOffset pos, .done)
  | .offsetInFile => (s, .number (toUnsigned s.filePointer))
  | .length => (s, .number (toUnsigned s.length))
  | .close => (s, .done)

/-- `-copyWithZone:`; the base is copied twice. -/
def copy (s : LCCSIndexInput) : LCCSIndexInput :=
  (init data (s.base.copy data) s.fileOffset s.length).seekToFileOffset (toUnsigned s.filePointer)

end LCCSIndexInput

structure LCCompoundFileReader where
  fileName : NSString
  entries : Entries
  stream : Option Input

def readEntries : ℕ → Entries → Option (NSString × ℤ) → Reader (Entries × Option (NSString × ℤ))
  | 0, entries, previous => return (entries, previous)
  | count + 1, entries, previous => do
    let offset ← readLong
    let iden ← IndexInput.readString
    readEntries count
      (update (entries.setPrevious previous offset) iden (some ⟨offset, 0⟩))
      (some (iden, offset))

def readDirectory : Reader (Entries × Option (NSString × ℤ)) := do
  let count ← readVInt
  readEntries count.toNat (fun _ => none) none

namespace LCCompoundFileReader

/-- `none` if the directory cannot be read. -/
def initWithDirectory (kind : Kind) (name : NSString) (data : List UInt8) :
    Option LCCompoundFileReader :=
  match readDirectory data with
  | none => none
  | some ((entries, previous), unread) => some
    { fileName := name
      entries := entries.setPrevious previous data.length
      stream := some (Input.openAt name data (data.length - unread.length) kind) }

variable (reader : LCCompoundFileReader)

def close : LCCompoundFileReader :=
  match reader.stream with
  | none => reader
  | some _ => { reader with entries := fun _ => none, stream := none }

def openInput (data : List UInt8) (iden : NSString) : Option LCCSIndexInput :=
  match reader.stream, reader.entries iden with
  | some stream, some entry => some (.init data stream entry.offset entry.length)
  | _, _ => none

def fileLength (name : NSString) : ℕ :=
  match reader.entries name with
  | none => 0
  | some e => toUnsigned e.length

end LCCompoundFileReader

/-- The entries of files whose bytes begin at a place, and the last one. -/
def entriesOf (stored : NSString → List UInt8) :
    ℕ → List NSString → Entries → Option (NSString × ℤ) → Entries × Option (NSString × ℤ)
  | _, [], entries, previous => (entries, previous)
  | k, file :: files, entries, previous =>
    entriesOf stored (k + (stored file).length) files
      (update (entries.setPrevious previous k) file (some ⟨k, 0⟩)) (some (file, k))

def allEntries (stored : NSString → List UInt8) (total k : ℕ) (files : List NSString)
    (entries : Entries) (previous : Option (NSString × ℤ)) : Entries :=
  (entriesOf stored k files entries previous).1.setPrevious
    (entriesOf stored k files entries previous).2 total

section Read

variable {stored : NSString → List UInt8}

theorem reads_readEntries : ∀ {files : List NSString} {k : ℕ} {entries : Entries}
    {previous : Option (NSString × ℤ)}, (∀ file ∈ files, file.length < 2 ^ 31) →
      k + (files.flatMap stored).length < 2 ^ 63 →
        Reads (readEntries files.length entries previous) (directory stored k files)
          (entriesOf stored k files entries previous)
  | [], _, _, _, _, _ => Reads.pure _
  | file :: files, k, entries, previous, hnames, hk => by
    rw [forall_mem_cons] at hnames
    rw [flatMap_cons, length_append] at hk
    have hoffset := reads_writeLong (i := k) (by omega) (by omega)
    have hname := reads_writeString_of_length hnames.1
    have hrest := @reads_readEntries files (k + (stored file).length)
      (update (entries.setPrevious previous k) file (some ⟨k, 0⟩)) (some (file, (k : ℤ)))
      hnames.2 (by omega)
    rw [directory, entry, append_assoc]
    exact hoffset.bind (hname.bind hrest)

theorem setPrevious_of_ne {entries : Entries} {previous : Option (NSString × ℤ)} {name : NSString}
    {offset : ℤ} (h : ∀ p ∈ previous, p.1 ≠ name) :
    entries.setPrevious previous offset name = entries name := by
  rcases previous with _ | ⟨iden, prevOffset⟩
  · rfl
  · exact update_of_ne (h _ rfl).symm _ _

theorem setPrevious_self {entries : Entries} {iden : NSString} {prevOffset offset : ℤ}
    {e : LCFileEntry} (he : entries iden = some e) :
    entries.setPrevious (some (iden, prevOffset)) offset iden
      = some { e with length := offset - prevOffset } := by
  rw [Entries.setPrevious, Entries.setLength, update_self, he, Option.map_some]

theorem allEntries_of_notMem {total : ℕ} {name : NSString} :
    ∀ {files : List NSString} {k : ℕ} {entries : Entries} {previous : Option (NSString × ℤ)},
      name ∉ files → (∀ p ∈ previous, p.1 ≠ name) →
        allEntries stored total k files entries previous name = entries name
  | [], _, _, _, _, hprevious => setPrevious_of_ne hprevious
  | file :: files, k, entries, previous, hmem, hprevious => by
    rw [mem_cons, not_or] at hmem
    have hrest := @allEntries_of_notMem total name files (k + (stored file).length)
      (update (entries.setPrevious previous k) file (some ⟨k, 0⟩)) (some (file, (k : ℤ)))
      hmem.2 (by
        rintro _ ⟨⟩
        exact Ne.symm hmem.1)
    rw [update_of_ne hmem.1, setPrevious_of_ne hprevious] at hrest
    exact hrest

/-- The entry before the files gets its length from the place of the first of them. -/
theorem allEntries_previous {total : ℕ} {iden : NSString} {offset : ℤ} {e : LCFileEntry} :
    ∀ {files : List NSString} {k : ℕ} {entries : Entries}, iden ∉ files → entries iden = some e →
      allEntries stored total k files entries (some (iden, offset)) iden
        = some { e with length := (if files = [] then (total : ℤ) else k) - offset }
  | [], _, _, _, he => setPrevious_self he
  | file :: files, k, entries, hmem, he => by
    rw [mem_cons, not_or] at hmem
    have hrest := @allEntries_of_notMem stored total _ _ (k + (stored file).length)
      (update (entries.setPrevious (some (iden, offset)) k) file
        (some ⟨k, 0⟩)) (some (file, (k : ℤ))) hmem.2 (by
        rintro _ ⟨⟩
        exact Ne.symm hmem.1)
    rw [update_of_ne hmem.1, setPrevious_self he] at hrest
    rw [if_neg (cons_ne_nil file files)]
    exact hrest

theorem allEntries_of_mem {total : ℕ} {file : NSString} {post : List NSString} :
    ∀ {pre : List NSString} {k : ℕ} {entries : Entries} {previous : Option (NSString × ℤ)},
      (pre ++ file :: post).Nodup →
        allEntries stored total k (pre ++ file :: post) entries previous file
          = some ⟨(k + (pre.flatMap stored).length : ℕ),
            (if post = [] then (total : ℤ)
              else (k + (pre.flatMap stored).length + (stored file).length : ℕ))
              - (k + (pre.flatMap stored).length : ℕ)⟩
  | [], k, entries, previous, h => by
    have hprevious := @allEntries_previous stored total _ k _ _ (k + (stored file).length) _
      (nodup_cons.1 h).1
      (update_self file (some ⟨k, 0⟩) (entries.setPrevious previous k))
    rw [flatMap_nil, length_nil, Nat.add_zero]
    exact hprevious
  | other :: pre, k, entries, previous, h => by
    have hrest := @allEntries_of_mem total file post pre (k + (stored other).length)
      (update (entries.setPrevious previous k) other (some ⟨k, 0⟩)) (some (other, (k : ℤ)))
      (nodup_cons.1 h).2
    rw [flatMap_cons, length_append, ← Nat.add_assoc]
    exact hrest

/-- What the stream of a file reads: behind the last file there is everything that follows. -/
def content (stored : NSString → List UInt8) (rest : List UInt8) (file : NSString)
    (post : List NSString) : List UInt8 :=
  if post = [] then stored file ++ rest else stored file

def place (stored : NSString → List UInt8) (files pre : List NSString) : ℕ :=
  (IndexOutput.writeVInt files.length ++ blank files).length + (pre.flatMap stored).length

theorem readDirectory_archive {files : List NSString} (hcount : files.length < 2 ^ 31)
    (hnames : ∀ file ∈ files, file.length < 2 ^ 31) (hsize : (archive stored files).length < 2 ^ 63)
    (rest : List UInt8) :
    readDirectory (archive stored files ++ rest)
      = some (entriesOf stored (IndexOutput.writeVInt files.length ++ blank files).length files
        (fun _ => none) none, files.flatMap stored ++ rest) := by
  have hsum := @length_archive stored files
  have hread := (IndexOutput.reads_writeVInt (i := files.length) (by omega) (by omega)).bind
    (f := fun count => readEntries count.toNat (fun _ => none) none)
    (@reads_readEntries stored _ (IndexOutput.writeVInt files.length ++ blank files).length
      (fun _ => none) none hnames (by rw [length_append]; omega))
  have hbytes : archive stored files ++ rest = IndexOutput.writeVInt files.length
      ++ directory stored (IndexOutput.writeVInt files.length ++ blank files).length files
      ++ (files.flatMap stored ++ rest) := by
    simp only [archive, append_assoc]
  rw [hbytes]
  exact hread _

theorem length_content {file : NSString} {pre post : List NSString} {rest : List UInt8} :
    (if post = [] then (((archive stored (pre ++ file :: post) ++ rest).length : ℕ) : ℤ)
        else (place stored (pre ++ file :: post) pre + (stored file).length : ℕ))
        - (place stored (pre ++ file :: post) pre : ℕ)
      = (content stored rest file post).length := by
  have hsum := @length_archive stored (pre ++ file :: post)
  have hblob : ((pre ++ file :: post).flatMap stored).length
      = (pre.flatMap stored).length + ((stored file).length + (post.flatMap stored).length) := by
    rw [flatMap_append, length_append, flatMap_cons, length_append]
  rw [hblob] at hsum
  unfold content place
  rw [@length_append _ _ rest, hsum, @length_append _ _ (blank _)]
  split_ifs with hpost
  · have hlast : (stored file ++ rest).length = (stored file).length + rest.length :=
      length_append
    rw [hpost, flatMap_nil, length_nil]
    omega
  · omega

theorem initWithDirectory_archive {kind : Kind} {name file : NSString} {pre post : List NSString}
    {rest : List UInt8} (hfiles : (pre ++ file :: post).Nodup)
    (hcount : (pre ++ file :: post).length < 2 ^ 31)
    (hnames : ∀ f ∈ pre ++ file :: post, f.length < 2 ^ 31)
    (hsize : (archive stored (pre ++ file :: post)).length < 2 ^ 63) :
    ∃ reader pos, LCCompoundFileReader.initWithDirectory kind name
        (archive stored (pre ++ file :: post) ++ rest) = some reader
      ∧ reader.stream
        = some (Input.openAt name (archive stored (pre ++ file :: post) ++ rest) pos kind)
      ∧ pos ≤ (archive stored (pre ++ file :: post) ++ rest).length
      ∧ reader.entries file = some ⟨place stored (pre ++ file :: post) pre,
        (content stored rest file post).length⟩ := by
  have hread := readDirectory_archive hcount hnames hsize rest
  have hentry := @allEntries_of_mem stored (archive stored (pre ++ file :: post) ++ rest).length
    file post pre (IndexOutput.writeVInt (pre ++ file :: post).length
      ++ blank (pre ++ file :: post)).length (fun _ => none) none hfiles
  have hlength := @length_content stored file pre post rest
  unfold place at hlength ⊢
  rw [hlength] at hentry
  unfold LCCompoundFileReader.initWithDirectory
  rw [hread]
  exact ⟨_, _, rfl, rfl, Nat.sub_le _ _, hentry⟩

theorem exists_content {file : NSString} {pre post : List NSString} {rest : List UInt8} :
    ∃ before after, archive stored (pre ++ file :: post) ++ rest
        = before ++ (content stored rest file post ++ after)
      ∧ before.length = place stored (pre ++ file :: post) pre := by
  refine ⟨IndexOutput.writeVInt (pre ++ file :: post).length
    ++ (directory stored (IndexOutput.writeVInt (pre ++ file :: post).length
      ++ blank (pre ++ file :: post)).length (pre ++ file :: post) ++ pre.flatMap stored),
    if post = [] then [] else post.flatMap stored ++ rest, ?_, ?_⟩
  · unfold content
    split_ifs with hpost
    · subst hpost
      simp [archive]
    · simp [archive]
  · simp only [place, length_append, length_directory, Nat.add_assoc]

end Read

end Etoile.Lucene.Compound
