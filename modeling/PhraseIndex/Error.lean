import PhraseIndex.Basic
import PhraseIndex.Decimal.Text
import PhraseIndex.Disk
import PhraseIndex.Key.Kind

/-!
# What can go wrong

An `Error` names its cause and carries what the message tells about it. Its `kind` decides how it is announced and
whether a background sweep may go on after it.
-/

namespace PhraseIndex

inductive ErrorKind
  | index
  | corruption
  | storage
  | invalidArgument
  | io
  | serialization
  /-- The program stops at once. -/
  | abort
  deriving DecidableEq, Repr

namespace ErrorKind

def label : ErrorKind → String
  | index => "Index error"
  | corruption => "Index corruption"
  | storage => "Storage error"
  | invalidArgument => "Invalid argument"
  | io => "IO error"
  | serialization => "Serialization error"
  | abort => "Abort"

def announce (k : ErrorKind) (detail : String) : String := k.label ++ ": " ++ detail

/-- Failures of the key-value engine and detected corruption concern the index. -/
def concernsIndex (k : ErrorKind) : Bool := k == index || k == corruption

def concernsStorage (k : ErrorKind) : Bool := k == storage

/-- Trying again does not help; the task that met it has to stop. -/
def isFatal (k : ErrorKind) : Bool := k == corruption

end ErrorKind

inductive Error
  -- index
  | mergeNotApplicable (tag : Option UInt8)
  | nothingToWrite
  -- corruption
  | keyTooShort
  | phraseLength (length : UInt8) (limit : PrefixLength)
  | keyLength (size : Nat) (length : UInt8)
  | malformedDeletionKey
  | keyWithoutDomain (kind : Option RecordKind)
  | keyWithoutPhrase (kind : Option RecordKind)
  | countSize (size : Nat)
  | postingsSize (size : Nat)
  -- storage
  | makeStorage (cause : OsError)
  | listStorage (cause : OsError)
  | removeStray (cause : OsError)
  | openCorpusFile (cause : OsError)
  | createCorpusFile (cause : OsError)
  | fileBase (id : UInt32) (base : UInt64) (expected : Nat)
  | fileMissing (path : Path)
  | fileSize (path : Path) (size : Nat) (recorded : UInt64)
  | recordTooLarge (size : Nat)
  | negativeOffset (offset : Offset)
  | offsetOutOfRange (offset : Offset)
  | recordCutShort
  | recordLength (offset : Offset) (length : UInt32) (left : Nat)
  | recordChecksum (offset : Offset)
  -- arguments
  | otherPrefixLength (stored opened : PrefixLength)
  | modelPath (path : Path)
  | sentenceTooLong (words : Nat)
  | cursorBeforeSeek
  | zeroPrefixLength
  | zeroSweepBatch
  | sweepTimeout (seconds : Float)
  | maxFileSize (size : UInt64)
  | malformedConfiguration
  -- the system
  | os (cause : OsError)
  | unexpectedEnd
  /-- The sweep timeout passes the greatest duration. -/
  | timeoutOverflow
  deriving DecidableEq

namespace Error

def kind : Error → ErrorKind
  | mergeNotApplicable _ | nothingToWrite => .index
  | keyTooShort | phraseLength .. | keyLength .. | malformedDeletionKey | keyWithoutDomain _ | keyWithoutPhrase _
  | countSize _ | postingsSize _ => .corruption
  | makeStorage _ | listStorage _ | removeStray _ | openCorpusFile _ | createCorpusFile _ | fileBase .. | fileMissing _
  | fileSize .. | recordTooLarge _ | negativeOffset _ | offsetOutOfRange _ | recordCutShort | recordLength ..
  | recordChecksum _ => .storage
  | otherPrefixLength .. | modelPath _ | sentenceTooLong _ | cursorBeforeSeek | zeroPrefixLength | zeroSweepBatch
  | sweepTimeout _ | maxFileSize _ | malformedConfiguration => .invalidArgument
  | os _ => .io
  | unexpectedEnd => .serialization
  | timeoutOverflow => .abort

/-- An optional part of a message: `None`, or `Some` and the part in parentheses. -/
def optional (part : Option String) : String :=
  match part with
  | none => "None"
  | some text => s!"Some({text})"

def detail : Error → String
  | mergeNotApplicable tag =>
    s!"MergePositionOperator does not apply to key with tag {optional (tag.map toString)}"
  | nothingToWrite => "nothing to write"
  | keyTooShort => "key too short for phrase"
  | phraseLength length limit => s!"phrase length {length} outside 1..={limit}"
  | keyLength size length => s!"key length {size} does not match phrase length {length}"
  | malformedDeletionKey => "malformed domain deletion key"
  | keyWithoutDomain kind => s!"key of type {optional (kind.map RecordKind.name)} carries no domain"
  | keyWithoutPhrase kind => s!"key of type {optional (kind.map RecordKind.name)} carries no phrase"
  | countSize size => s!"count value of {size} bytes, expected 8"
  | postingsSize size => s!"posting list of {size} bytes is not a multiple of 14"
  | makeStorage cause => s!"failed to create storage dir: {cause.text}"
  | listStorage cause => s!"failed to list storage dir: {cause.text}"
  | removeStray cause => s!"failed to remove stray file: {cause.text}"
  | openCorpusFile cause => s!"failed to open corpus file: {cause.text}"
  | createCorpusFile cause => s!"failed to create corpus file: {cause.text}"
  | fileBase id base expected => s!"manifest file {id} starts at {base}, expected {expected}"
  | fileMissing path => s!"corpus file {path.text} listed in manifest is missing"
  | fileSize path size recorded => s!"corpus file {path.text} holds {size} bytes, manifest expects {recorded}"
  | recordTooLarge size => s!"record of {size} bytes too large"
  | negativeOffset offset => s!"invalid corpus offset {offset}"
  | offsetOutOfRange offset => s!"corpus offset {offset} out of range"
  | recordCutShort => "failed to read corpus record: failed to fill whole buffer"
  | recordLength offset length left => s!"corpus record at {offset} claims {length} bytes, {left} left in file"
  | recordChecksum offset => s!"corpus record at {offset} fails checksum"
  | otherPrefixLength stored opened => s!"index was built with prefix length {stored}, opened with {opened}"
  | modelPath path => s!"Invalid model path: {path.text}"
  | sentenceTooLong words => s!"source sentence of {words} words is too long"
  | cursorBeforeSeek => "prefix cursor used before seek"
  | zeroPrefixLength => "prefix length must be in 1..=255"
  | zeroSweepBatch => "gc batch size must be positive"
  | sweepTimeout seconds => s!"invalid gc timeout: {Decimal.Layout.plain.write seconds}"
  | maxFileSize size => s!"storage file size too small: {size}"
  | malformedConfiguration => "malformed configuration"
  | os cause => cause.text
  | unexpectedEnd => "io error: unexpected end of file"
  | timeoutOverflow => "the sweep timeout is not a duration"

def message (e : Error) : String := e.kind.announce e.detail

def isFatal (e : Error) : Bool := e.kind.isFatal

end Error

/-- Refuses with the error unless the condition holds. -/
def require (condition : Bool) (error : Error) : Except Error Unit :=
  if condition then .ok () else .error error

end PhraseIndex
