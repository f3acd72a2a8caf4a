import Std.Data.ExtTreeMap
import PhraseIndex.Bytes

/-!
# Files and directories

A `Disk` gives each place a directory or a file. A file has an identity of its own, under which its bytes are kept: a
program that holds it open still reads them after the name is gone. No two names share a file (`Disk.id_inj`), and a
new file never takes an old identity (`Disk.id_lt_fresh`). One place can be written in many ways; `Disk.follow` tells
where a writing leads.
-/

namespace PhraseIndex

/-- The names that lead to a file or directory, the first being the root that they start from. -/
abbrev Place := List String

/-- The directory that holds the place. -/
def Place.parent (p : Place) : Place := p.dropLast

/-- The place and all directories above it, the root first. -/
def Place.upwards (p : Place) : List Place := (List.range p.length).map fun i => p.take (i + 1)

/-- A place and the way it is written, which messages show. -/
structure Path where
  place : Place
  text : String
  deriving DecidableEq, Repr

/-- The path of a name in a directory. -/
def Path.join (p : Path) (name : String) : Path where
  place := p.place ++ [name]
  text := if p.text.endsWith "/" then p.text ++ name else p.text ++ "/" ++ name

/-- What the operating system refuses. -/
inductive OsError
  | notFound
  | alreadyExists
  | notDirectory
  | isDirectory
  | nameTooLong
  /-- A name with a zero byte in it. -/
  | zeroByte
  deriving DecidableEq, Repr

def OsError.text : OsError → String
  | .notFound => "No such file or directory (os error 2)"
  | .alreadyExists => "File exists (os error 17)"
  | .notDirectory => "Not a directory (os error 20)"
  | .isDirectory => "Is a directory (os error 21)"
  | .nameTooLong => "File name too long (os error 36)"
  | .zeroByte => "file name contained an unexpected NUL byte"

abbrev FileId := Nat

inductive Node
  | directory
  | file (id : FileId)
  deriving DecidableEq, Repr

structure Disk where
  nodes : Std.ExtTreeMap Place Node
  contents : Std.ExtTreeMap FileId Bytes
  /-- The identity of the next new file. -/
  fresh : FileId
  id_lt_fresh : ∀ {p : Place} {id : FileId}, nodes[p]? = some (.file id) → id < fresh
  id_inj : ∀ {p q : Place} {id : FileId}, nodes[p]? = some (.file id) → nodes[q]? = some (.file id) → p = q

namespace Disk

/-- Nothing but an empty root directory. -/
def empty (root : Place) : Disk where
  nodes := (∅ : Std.ExtTreeMap Place Node).insert root .directory
  contents := ∅
  fresh := 0
  id_lt_fresh h := by
    rw [Std.ExtTreeMap.getElem?_insert] at h
    split at h <;> simp at h
  id_inj h := by
    rw [Std.ExtTreeMap.getElem?_insert] at h
    split at h <;> simp at h

/-! ## Looking -/

def node? (d : Disk) (p : Place) : Option Node := d.nodes[p]?

def pathExists (d : Disk) (p : Place) : Bool := (d.node? p).isSome

def isDirectory (d : Disk) (p : Place) : Bool := d.node? p == some .directory

def isFile (d : Disk) (p : Place) : Bool := d.pathExists p && !d.isDirectory p

/-- A file stands where a directory above the place would have to be. -/
def isBlocked (d : Disk) (p : Place) : Bool := p.upwards.dropLast.any d.isFile

/-- A name has at most 255 bytes. -/
def isTooLong (name : String) : Bool := 255 < name.utf8ByteSize

/-- What is wrong with a path as it is written, whatever stands there. All names with the slashes between them have at
most 4095 bytes. -/
def fault? (names : List String) : Option OsError :=
  if names.any (·.contains '\x00') then some .zeroByte
  else if 4096 < names.foldl (fun n name => n + name.utf8ByteSize + 1) 0 then some .nameTooLong
  else none

/-- Why there is nothing at a place: the first name on the way that leads nowhere decides. -/
def absence (d : Disk) (p : Place) : OsError :=
  match fault? p with
  | some e => e
  | none =>
    if d.isBlocked p then .notDirectory
    else if ((p.upwards.find? fun q => !d.pathExists q).bind (·.getLast?)).any isTooLong then .nameTooLong
    else .notFound

/-- The bytes of a file, named or not. -/
def bytes (d : Disk) (id : FileId) : Bytes := d.contents.getD id []

/-- The names in a directory, in order. -/
def names (d : Disk) (dir : Place) : List String :=
  d.nodes.keys.filterMap fun p => if p.dropLast == dir && !p.isEmpty then p.getLast? else none

def list (d : Disk) (dir : Place) : Except OsError (List String) :=
  match d.node? dir with
  | some .directory => .ok (d.names dir)
  | some (.file _) => .error .notDirectory
  | none => .error (d.absence dir)

/-- The file at a place that is to be read. -/
def find (d : Disk) (p : Place) : Except OsError FileId :=
  match d.node? p with
  | some (.file id) => .ok id
  | some .directory => .error .isDirectory
  | none => .error (d.absence p)

def read (d : Disk) (p : Place) : Except OsError Bytes := d.bytes <$> d.find p

/-! ## Changing -/

def setBytes (d : Disk) (id : FileId) (bs : Bytes) : Disk :=
  { d with contents := d.contents.insert id bs }

/-- Writes at the end of a file, wherever that is by now. -/
def append (d : Disk) (id : FileId) (bs : Bytes) : Disk := d.setBytes id (d.bytes id ++ bs)

/-- A new directory at a place that is still free. -/
def addDirectory (d : Disk) (p : Place) : Disk :=
  if d.pathExists p then d
  else
    { d with
      nodes := d.nodes.insert p .directory
      id_lt_fresh := fun h => by
        rw [Std.ExtTreeMap.getElem?_insert] at h
        split at h
        · simp at h
        · exact d.id_lt_fresh h
      id_inj := fun h k => by
        rw [Std.ExtTreeMap.getElem?_insert] at h k
        split at h
        · simp at h
        · split at k
          · simp at k
          · exact d.id_inj h k }

/-- A new empty file at the place, with its identity. -/
def addFile (d : Disk) (p : Place) : FileId × Disk :=
  (d.fresh,
    { nodes := d.nodes.insert p (.file d.fresh)
      contents := d.contents.insert d.fresh []
      fresh := d.fresh + 1
      id_lt_fresh := fun h => by
        rw [Std.ExtTreeMap.getElem?_insert] at h
        split at h
        · cases h
          exact Nat.lt_succ_self _
        · exact Nat.lt_succ_of_lt (d.id_lt_fresh h)
      id_inj := fun h k => by
        rw [Std.ExtTreeMap.getElem?_insert] at h k
        split at h <;> split at k
        · simp_all
        · cases h
          exact absurd (d.id_lt_fresh k) (Nat.lt_irrefl _)
        · cases k
          exact absurd (d.id_lt_fresh h) (Nat.lt_irrefl _)
        · exact d.id_inj h k })

/-- Takes a name away; the file's bytes stay for those who hold it open. -/
def dropName (d : Disk) (p : Place) : Disk :=
  { d with
    nodes := d.nodes.erase p
    id_lt_fresh := fun h => by
      rw [Std.ExtTreeMap.getElem?_erase] at h
      split at h
      · simp at h
      · exact d.id_lt_fresh h
    id_inj := fun h k => by
      rw [Std.ExtTreeMap.getElem?_erase] at h k
      split at h
      · simp at h
      · split at k
        · simp at k
        · exact d.id_inj h k }

/-- Makes the directory and those above it that are missing. -/
def makeDirectories (d : Disk) (p : Place) : Except OsError Disk :=
  if d.isBlocked p then .error .notDirectory
  else if d.isFile p then .error .alreadyExists
  else .ok (p.upwards.foldl addDirectory d)

/-- The file at the place, made if there is none. -/
def openOrCreate (d : Disk) (p : Place) : Except OsError (FileId × Disk) :=
  match d.node? p with
  | some (.file id) => .ok (id, d)
  | some .directory => .error .isDirectory
  | none => if d.isDirectory p.parent then .ok (d.addFile p) else .error (d.absence p)

def removeFile (d : Disk) (p : Place) : Except OsError Disk := do
  let _ ← d.find p
  pure (d.dropName p)

/-- The first `n` bytes, filled up with zeros if there are fewer. -/
def resized (n : Nat) (bs : Bytes) : Bytes := bs.take n ++ List.replicate (n - bs.length) 0

def truncate (d : Disk) (p : Place) (n : Nat) : Except OsError Disk := do
  let id ← d.find p
  pure (d.setBytes id (resized n (d.bytes id)))

/-- The bytes with others written over them from a position on; a gap before it is filled with zeros. Writing nothing
leaves the gap open. -/
def overwritten (position : Nat) (bs old : Bytes) : Bytes :=
  if bs.isEmpty then old else resized position old ++ bs ++ old.drop (position + bs.length)

def writeAt (d : Disk) (p : Place) (position : Nat) (bs : Bytes) : Except OsError Disk := do
  let id ← d.find p
  pure (d.setBytes id (overwritten position bs (d.bytes id)))

/-! ## Written paths -/

/-- Where a name leads from a place. The empty name and `.` stay in a directory, and `..` leaves it for the one above;
behind anything but a directory they lead nowhere. -/
def step (d : Disk) (here : Place) (name : String) : Place :=
  if d.isDirectory here && (name == "" || name == ".") then here
  else if d.isDirectory here && name == ".." then here.parent
  else here ++ [name]

/-- Where the names lead from a place; nothing stands where a faulty path leads. -/
def follow (d : Disk) (here : Place) (names : List String) : Place :=
  if (fault? (here ++ names)).isSome then here ++ names else names.foldl d.step here

/-- Makes every directory that the names lead through. What has been made stays if a file stands in the way. -/
def makeAlong (d : Disk) (here : Place) : List String → Except OsError Unit × Disk
  | [] => (.ok (), d)
  | name :: rest =>
    let next := d.step here name
    if isTooLong name then (.error .nameTooLong, d)
    else if d.isFile next then (.error .alreadyExists, d)
    else (d.addDirectory next).makeAlong next rest

/-- The name of a directory within itself. -/
def staysHere (name : String) : Bool := name == "" || name == "."

/-- The names of a path without the slashes at its end. -/
def unslashed (names : List String) : List String := (names.reverse.dropWhile (· == "")).reverse

/-- Makes the directory that the names lead to and those on the way. What stands before a last `.` is not made. -/
def makePath (d : Disk) (here : Place) (names : List String) : Except OsError Unit × Disk :=
  let bare := unslashed names
  let steps := bare.filter fun name => !staysHere name
  match fault? (here ++ names) with
  | some e => (.error e, d)
  | none =>
    if d.isBlocked (d.follow here bare) then (.error .notDirectory, d)
    else if bare.getLast? == some "." then
      match d.makeAlong here steps.dropLast with
      | (.error e, d) => (.error e, d)
      | (.ok (), d) =>
        let place := d.follow here bare
        (if d.isDirectory place then .ok () else .error (d.absence place), d)
    else d.makeAlong here steps

/-- The names of a path up to the directory that holds what it names. -/
def holder (names : List String) : List String :=
  ((names.reverse.dropWhile staysHere).tail.dropWhile staysHere).reverse

/-- Gives the file that the names lead to these bytes, making the directories above it, which stay whatever follows. A
slash behind the last name asks for a directory. -/
def write (d : Disk) (here : Place) (names : List String) (bs : Bytes) : Except OsError Unit × Disk :=
  match d.makePath here (holder names) with
  | (.error e, d) => (.error e, d)
  | (.ok (), d) =>
    let bare := unslashed names
    let last := bare.getLast?.getD "."
    match fault? (here ++ names) with
    | some e => (.error e, d)
    | none =>
      if names != bare && last != "." && last != ".." then (.error .isDirectory, d)
      else if isTooLong last then (.error .nameTooLong, d)
      else
        match d.openOrCreate (d.follow here bare) with
        | .error e => (.error e, d)
        | .ok (id, d) => (.ok (), d.setBytes id bs)

/-! ## What the changes show -/

@[simp] theorem node?_setBytes (d : Disk) (id : FileId) (bs : Bytes) (q : Place) :
    (d.setBytes id bs).node? q = d.node? q := rfl

@[simp] theorem node?_addFile (d : Disk) (p q : Place) :
    (d.addFile p).2.node? q = if p = q then some (.file d.fresh) else d.node? q := by
  simp [node?, addFile, Std.ExtTreeMap.getElem?_insert]

@[simp] theorem node?_dropName (d : Disk) (p q : Place) :
    (d.dropName p).node? q = if p = q then none else d.node? q := by
  simp [node?, dropName, Std.ExtTreeMap.getElem?_erase]

@[simp] theorem bytes_setBytes (d : Disk) (id other : FileId) (bs : Bytes) :
    (d.setBytes id bs).bytes other = if id = other then bs else d.bytes other := by
  simp [bytes, setBytes, Std.ExtTreeMap.getD_insert]

@[simp] theorem bytes_addFile (d : Disk) (p : Place) (id : FileId) :
    (d.addFile p).2.bytes id = if d.fresh = id then [] else d.bytes id := by
  simp [bytes, addFile, Std.ExtTreeMap.getD_insert]

end Disk

end PhraseIndex
