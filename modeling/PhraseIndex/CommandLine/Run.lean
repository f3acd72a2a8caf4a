import PhraseIndex.CommandLine.Help
import PhraseIndex.Config.Document
import PhraseIndex.Metrics.Text
import PhraseIndex.Volume

/-!
# Running a command

A command opens the index, does its work and closes it. Its `Outcome` is the exit code and the lines that it prints:
nought for success, one for an error, two for a command line that is refused. What was printed before an error stays.
-/

namespace PhraseIndex.CommandLine

structure Outcome where
  exit : Nat
  lines : List String := []
  /-- What went wrong, for the error output. -/
  complaint : Option String := none
  deriving DecidableEq, Repr

/-- An error ends the program with code one, an abort with the code of an abort. -/
def exitCode (e : Error) : Nat := if e.kind == .abort then 101 else 1

def Outcome.failure (e : Error) (lines : List String) : Outcome :=
  { exit := exitCode e, lines, complaint := some e.message }

/-! ## Output -/

def statsLines (stats : IndexStats) (streams : Streams) : List String :=
  [ s!"prefix length:      {stats.prefixLength}",
    s!"index disk bytes:   {stats.indexBytes}",
    s!"index keys (approx): {stats.indexKeys}",
    s!"storage bytes:      {stats.storageBytes}",
    s!"storage files:      {stats.storageFiles}",
    s!"streams:            {stats.streams}" ] ++
  streams.toList.map (fun (stream, seq) => s!"  stream {stream}: {seq}") ++
  [s!"pending deletions:  {stats.pendingDeletions}"]

/-- A record as side, domain, words and count with tabs between them; a target record has no domain. -/
def entryLine (entry : IndexEntry) : String :=
  let side := if entry.isSource then "S" else "T"
  let domain := (entry.domain?.map toString).getD "-"
  let words := " ".intercalate (entry.phrase.map toString)
  "\t".intercalate [side, domain, words, toString entry.count]

/-- The lines of a dump, up to the first record that cannot be decoded. -/
def dumpOutcome : List (Except Error IndexEntry) → Outcome
  | [] => { exit := 0 }
  | .ok entry :: rest =>
    let outcome := dumpOutcome rest
    { outcome with lines := entryLine entry :: outcome.lines }
  | .error e :: _ => .failure e []

def sweepLine (stats : SweepStats) : String :=
  s!"swept {stats.domains} domains, removed {stats.keysRemoved} keys in {stats.batches} batches"

/-! ## Commands -/

/-- What a command does with an open index. -/
def execute (m : Model) (d : Durable) : Command → Outcome × Durable
  | .stats metrics =>
    let m := m.recordSizes d.store
    let lines := statsLines (m.stats d.store) m.streams
    ({ exit := 0, lines := if metrics then lines ++ m.metrics.text else lines }, d)
  | .dump limit =>
    let entries := (m.scan d.store).entries
    (dumpOutcome (if limit == 0 then entries else entries.take limit), d)
  | .count side words =>
    match m.count d.store side words with
    | .ok n => ({ exit := 0, lines := [toString n] }, d)
    | .error e => (.failure e [], d)
  | .compact =>
    match m.compact d with
    | (.ok (), _, d) => ({ exit := 0 }, d)
    | (.error e, _, d) => (.failure e [], d)
  | .sweep =>
    match m.sweep d with
    | (.ok stats, _, d) => ({ exit := 0, lines := [sweepLine stats] }, d)
    | (.error e, _, d) => (.failure e [], d)

/-- The configuration file, which takes the place of the other options, or the options. -/
def configOf (disk : Disk) (locate : String → Path) (i : Invocation) : Except Error Config :=
  match i.config with
  | none => .ok { prefixLength := i.prefixLength }
  | some file => do
    let text ← (disk.read (locate file).place).mapError .os
    Config.ofJson text

/-- Opens the index and runs the command; `locate` tells where the paths of the command line lie. -/
def Invocation.run (i : Invocation) (locate : String → Path) (v : Volume) : Outcome × Volume :=
  let path := locate i.model
  match configOf v.disk locate i with
  | .error e => (.failure e [], v)
  | .ok config =>
    if !v.disk.isDirectory path.place then (.failure (.modelPath path) [], v)
    else
      match Model.openAt (v.durable path.place) path config with
      | (.error e, d) => (.failure e [], v.setDurable path.place d)
      | (.ok m, d) =>
        let (outcome, d) := execute m d i.command
        (outcome, v.setDurable path.place d)

/-- The outcome of a command line that is refused. -/
def Refusal.outcome : Refusal → Outcome
  | .help command => { exit := 0, lines := helpText command }
  | refusal => { exit := 2, complaint := some refusal.text }

/-- Runs the program with these arguments. -/
def run (arguments : List String) (locate : String → Path) (v : Volume) : Outcome × Volume :=
  match read arguments with
  | .ok invocation => invocation.run locate v
  | .error refusal => (refusal.outcome, v)

end PhraseIndex.CommandLine
