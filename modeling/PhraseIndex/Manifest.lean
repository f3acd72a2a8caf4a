import PhraseIndex.Binary
import PhraseIndex.Error

/-!
# The corpus manifest

The committed shape of the corpus files. It is written in the same commit as the postings that point into the corpus,
so the index never knows an offset that the manifest or later files do not hold.
-/

namespace PhraseIndex

structure ManifestFile where
  id : UInt32
  /-- Corpus offset of the first byte. -/
  base : UInt64
  size : UInt64
  deriving DecidableEq, Repr

/-- Corpus offset behind the last byte. -/
def ManifestFile.endOffset (f : ManifestFile) : UInt64 := f.base + f.size

structure Manifest where
  version : UInt32 := 1
  /-- In offset order. -/
  files : List ManifestFile := []
  deriving DecidableEq, Repr

namespace Manifest

def empty : Manifest := {}

def totalSize (m : Manifest) : UInt64 := (m.files.map (·.size)).foldl (· + ·) 0

def fileCount (m : Manifest) : Nat := m.files.length

def isEmpty (m : Manifest) : Bool := m.files.isEmpty

def file? (m : Manifest) (id : UInt32) : Option ManifestFile := m.files.find? (·.id == id)

/-! ## Persisted form -/

def encodeFile (f : ManifestFile) : Bytes := Binary.u32 f.id ++ Binary.u64 f.base ++ Binary.u64 f.size

def encode (m : Manifest) : Bytes := Binary.u32 m.version ++ Binary.sequence encodeFile m.files

def readFile : Reader ManifestFile := do
  let id ← Binary.readU32
  let base ← Binary.readU64
  let size ← Binary.readU64
  pure { id, base, size }

def readManifest : Reader Manifest := do
  let version ← Binary.readU32
  let files ← Binary.readSequence readFile
  pure { version, files }

/-- An absent value is the empty manifest. -/
def decode (bs : Bytes) : Except Error Manifest :=
  if bs.isEmpty then .ok empty
  else
    match Binary.decode? readManifest bs with
    | some m => .ok m
    | none => .error .unexpectedEnd

end Manifest

end PhraseIndex
