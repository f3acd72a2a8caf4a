import PhraseIndex.Corpus.FileName
import PhraseIndex.Corpus.Record
import PhraseIndex.Disk
import PhraseIndex.Manifest

/-!
# The corpus

The sentence pairs are kept in an append-only run of numbered files. Offsets are counted over the whole run: each file
starts where the one before it ends, and the last one, `active`, takes the appends until it would grow past the size
limit. Opening takes the files of a manifest and then every file that follows them without a gap, with whatever bytes
they hold by now, so an offset handed out once is never handed out again.
-/

namespace PhraseIndex

structure CorpusFile where
  id : UInt32
  /-- Offset of the first byte. -/
  base : Nat
  /-- Bytes at opening and appended since. -/
  size : Nat
  handle : FileId
  deriving DecidableEq, Repr

namespace CorpusFile

def endOffset (f : CorpusFile) : Nat := f.base + f.size

def holds (f : CorpusFile) (offset : Nat) : Bool := f.base ≤ offset && offset < f.endOffset

/-- The file as it stands on the disk. -/
def ofDisk (disk : Disk) (id : UInt32) (base : Nat) (handle : FileId) : CorpusFile :=
  { id, base, size := (disk.bytes handle).length, handle }

end CorpusFile

structure Corpus where
  dir : Path
  maxFileSize : Nat
  /-- Full files, in offset order. -/
  full : List CorpusFile
  /-- The last file. -/
  active : CorpusFile

namespace Corpus

def files (c : Corpus) : List CorpusFile := c.full ++ [c.active]

def filePath (dir : Path) (id : UInt32) : Path := dir.join (FileName.ofId id)

def size (c : Corpus) : Nat := c.files.foldl (fun n f => n + f.size) 0

def fileCount (c : Corpus) : Nat := c.files.length

/-- The present files and sizes. -/
def manifest (c : Corpus) : Manifest :=
  { files := c.files.map fun f => ⟨f.id, UInt64.ofNat f.base, UInt64.ofNat f.size⟩ }

/-! ## Opening -/

/-- Where a run of files ends. -/
def endOf (files : List CorpusFile) : Nat := (files.getLast?.map (·.endOffset)).getD 0

/-- The file of a manifest entry, which has to start at `base`. It may have grown only if it is the last one. -/
def openListed (disk : Disk) (dir : Path) (base : Nat) (last : Bool) (entry : ManifestFile) :
    Except Error CorpusFile := do
  let path := filePath dir entry.id
  require (entry.base.toNat == base) (.fileBase entry.id entry.base base)
  require (disk.pathExists path.place) (.fileMissing path)
  let handle ← (disk.find path.place).mapError .openCorpusFile
  let file := CorpusFile.ofDisk disk entry.id base handle
  require (entry.size.toNat ≤ file.size && (last || file.size == entry.size.toNat))
    (.fileSize path file.size entry.size)
  pure file

/-- The files of a manifest, starting at `base`. -/
def listedFiles (disk : Disk) (dir : Path) : Nat → List ManifestFile → Except Error (List CorpusFile)
  | _, [] => .ok []
  | base, entry :: rest => do
    let file ← openListed disk dir base rest.isEmpty entry
    let files ← listedFiles disk dir file.endOffset rest
    pure (file :: files)

/-- The number after the last one of a manifest. -/
def nextId (manifest : Manifest) : UInt32 := (manifest.files.getLast?.map (·.id + 1)).getD 0

/-- The numbers from `first` on whose files exist, up to the first gap. -/
def runFrom (disk : Disk) (dir : Path) (first : UInt32) : List UInt32 :=
  ((List.range (disk.names dir.place).length).map fun i => first + UInt32.ofNat i).takeWhile fun id =>
    disk.pathExists (filePath dir id).place

/-- The files with these numbers, starting at `base`. -/
def adoptedFiles (disk : Disk) (dir : Path) : Nat → List UInt32 → Except Error (List CorpusFile)
  | _, [] => .ok []
  | base, id :: rest => do
    let handle ← (disk.find (filePath dir id).place).mapError .openCorpusFile
    let file := CorpusFile.ofDisk disk id base handle
    let files ← adoptedFiles disk dir file.endOffset rest
    pure (file :: files)

/-- All files that belong to the corpus, in offset order. -/
def run (disk : Disk) (dir : Path) (manifest : Manifest) : Except Error (List CorpusFile) := do
  let listed ← listedFiles disk dir 0 manifest.files
  let adopted ← adoptedFiles disk dir (endOf listed) (runFrom disk dir (nextId manifest))
  pure (listed ++ adopted)

/-- The names in the directory that read as corpus files outside the run; no offset can point into them. -/
def strays (disk : Disk) (dir : Path) (files : List CorpusFile) : List Place :=
  (disk.names dir.place).filterMap fun name => do
    let id ← FileName.id? name
    if files.any (·.id == id) then none else some (dir.place ++ [name])

def removeStrays : Disk → List Place → Except Error Unit × Disk
  | disk, [] => (.ok (), disk)
  | disk, place :: rest =>
    match disk.removeFile place with
    | .ok disk => removeStrays disk rest
    | .error cause => (.error (.removeStray cause), disk)

/-- The corpus over an existing run, or over a new file if there is none. -/
def ofRun (disk : Disk) (dir : Path) (maxFileSize : Nat) (files : List CorpusFile) : Except Error Corpus × Disk :=
  match files.getLast? with
  | some active => (.ok { dir, maxFileSize, full := files.dropLast, active }, disk)
  | none =>
    match disk.openOrCreate (filePath dir 0).place with
    | .ok (handle, disk) => (.ok { dir, maxFileSize, full := [], active := .ofDisk disk 0 0 handle }, disk)
    | .error cause => (.error (.createCorpusFile cause), disk)

/-- Opens the corpus in the state that the manifest describes. Bytes and files that came after the manifest are kept;
files shorter than it says, or missing, make the corpus useless to the index. Strays go away in this order. -/
def openClearing (order : List Place → List Place) (disk : Disk) (dir : Path) (manifest : Manifest)
    (maxFileSize : Nat) : Except Error Corpus × Disk :=
  match disk.makeDirectories dir.place with
  | .error cause => (.error (.makeStorage cause), disk)
  | .ok disk =>
    match run disk dir manifest with
    | .error e => (.error e, disk)
    | .ok files =>
      match removeStrays disk (order (strays disk dir files)) with
      | (.error e, disk) => (.error e, disk)
      | (.ok (), disk) => ofRun disk dir maxFileSize files

/-- Opens the corpus; the strays go away in the order in which the directory lists them. -/
def openAt (disk : Disk) (dir : Path) (manifest : Manifest) (maxFileSize : Nat) : Except Error Corpus × Disk :=
  openClearing id disk dir manifest maxFileSize

/-! ## Appending -/

/-- Starts the next file. -/
def roll (c : Corpus) (disk : Disk) : Except Error (Corpus × Disk) := do
  let id := c.active.id + 1
  let (handle, disk) ← (disk.openOrCreate (filePath c.dir id).place).mapError .createCorpusFile
  pure ({ c with full := c.files, active := .ofDisk disk id c.active.endOffset handle }, disk)

/-- The active file is not empty and has no room for `n` more bytes. -/
def isFull (c : Corpus) (n : Nat) : Bool := 0 < c.active.size && c.maxFileSize < c.active.size + n

/-- Makes room for a record of `n` bytes. -/
def prepare (c : Corpus) (disk : Disk) (n : Nat) : Except Error (Corpus × Disk) :=
  if c.isFull n then c.roll disk else .ok (c, disk)

/-- Writes a record at the end of the active file. -/
def writeRecord (c : Corpus) (disk : Disk) (record : Bytes) : Offset × Corpus × Disk :=
  (Int64.ofNat c.active.endOffset,
    { c with active := { c.active with size := c.active.size + record.length } },
    disk.append c.active.handle record)

/-- Stores a sentence pair and answers its offset. -/
def append (c : Corpus) (disk : Disk) (pair : SentencePair) : Except Error Offset × Corpus × Disk :=
  let record := Record.encode pair
  if UInt32.size ≤ record.length - Record.headerSize then
    (.error (.recordTooLarge (record.length - Record.headerSize)), c, disk)
  else
    match c.prepare disk record.length with
    | .error e => (.error e, c, disk)
    | .ok (c, disk) =>
      let (offset, c, disk) := c.writeRecord disk record
      (.ok offset, c, disk)

/-! ## Reading -/

/-- The file that an offset falls into. -/
def fileOf? (c : Corpus) (offset : Nat) : Option CorpusFile := c.files.find? (·.holds offset)

/-- The sentence pair at an offset. -/
def retrieve (c : Corpus) (disk : Disk) (offset : Offset) : Except Error SentencePair :=
  if offset < 0 then .error (.negativeOffset offset)
  else
    match c.fileOf? offset.toInt.toNat with
    | none => .error (.offsetOutOfRange offset)
    | some file =>
      let position := offset.toInt.toNat - file.base
      Record.read offset (file.size - position) ((disk.bytes file.handle).drop position)

end Corpus

end PhraseIndex
