import PhraseIndex.CommandLine.Run
import PhraseIndex.Store.Snapshot

/-!
# The program

Reads the model directory and the configuration file into a volume, runs the command on it, and writes back what the
command has changed.
-/

namespace PhraseIndex.Program

/-- A path of the command line is one name. -/
def locate (text : String) : Path := { place := [text], text }

/-- Directory of the index keyspace. -/
def indexPath (model : Path) : Path := model.join "index"

/-- Name of the snapshot in the index directory. -/
def snapshotPath (model : Path) : Path := (indexPath model).join "records"

/-- Enters a file or directory into the disk, if there is one. -/
def load (disk : Disk) (path : Path) : IO Disk := do
  let name := (← IO.currentDir) / path.text
  if ← name.isDir then
    pure (disk.addDirectory path.place)
  else if ← name.pathExists then
    let (id, disk) := disk.addFile path.place
    pure (disk.setBytes id (← IO.FS.readBinFile name).toList)
  else
    pure disk

/-- Enters a directory with everything directly in it. -/
def loadDirectory (disk : Disk) (path : Path) : IO Disk := do
  let mut disk ← load disk path
  let name := (← IO.currentDir) / path.text
  if ← name.isDir then
    for entry in ← name.readDir do
      disk ← load disk (path.join entry.fileName)
  pure disk

/-- The volume that a command line works on. -/
def loadVolume (i : CommandLine.Invocation) : IO Volume := do
  let model := locate i.model
  let mut disk := Disk.empty []
  if let some file := i.config then
    disk ← load disk (locate file)
  disk ← load disk model
  disk ← load disk (indexPath model)
  disk ← loadDirectory disk (Model.storagePath model)
  disk ← load disk (snapshotPath model)
  let store ← match disk.read (snapshotPath model).place with
    | .error _ => pure {}
    | .ok bytes =>
      match Binary.decode? Store.readSnapshot bytes with
      | some store => pure store
      | none => throw (IO.userError "the index snapshot ends too early")
  pure { disk, stores := (∅ : Std.ExtTreeMap Place Store).insert model.place store }

/-- Writes a file that is new or has changed. -/
def saveFile (old new : Disk) (path : Path) : IO Unit := do
  let name := (← IO.currentDir) / path.text
  match old.read path.place, new.read path.place with
  | .ok before, .ok now => if before != now then IO.FS.writeBinFile name ⟨now.toArray⟩
  | .error _, .ok now => IO.FS.writeBinFile name ⟨now.toArray⟩
  | .ok _, .error _ => IO.FS.removeFile name
  | .error _, .error _ => pure ()

/-- Makes the file system what the command has left. -/
def saveVolume (model : Path) (old new : Volume) : IO Unit := do
  for dir in [indexPath model, Model.storagePath model] do
    if new.disk.isDirectory dir.place then
      IO.FS.createDirAll ((← IO.currentDir) / dir.text)
  let storage := Model.storagePath model
  let before := old.disk.names storage.place
  for name in before ++ (new.disk.names storage.place).filter fun n => !before.contains n do
    saveFile old.disk new.disk (storage.join name)
  if new.disk.isDirectory (indexPath model).place then
    let name := (← IO.currentDir) / (snapshotPath model).text
    IO.FS.writeBinFile name ⟨(new.durable model.place).store.snapshot.toArray⟩

/-- Prints the outcome of a command and answers the exit code. -/
def report (outcome : CommandLine.Outcome) : IO UInt32 := do
  for line in outcome.lines do
    IO.println line
  if let some complaint := outcome.complaint then
    IO.eprintln ("Error: " ++ complaint)
  pure (UInt32.ofNat outcome.exit)

def run (arguments : List String) : IO UInt32 := do
  match CommandLine.read arguments with
  | .error refusal => report refusal.outcome
  | .ok invocation =>
    let volume ← loadVolume invocation
    let (outcome, after) := invocation.run locate volume
    saveVolume (locate invocation.model) volume after
    report outcome

end PhraseIndex.Program

def main (arguments : List String) : IO UInt32 := PhraseIndex.Program.run arguments
