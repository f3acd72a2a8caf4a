import PhraseIndex.CommandLine.Invocation

/-!
# Help texts

What is printed when help is asked for, and what is said about a command line that cannot be read.
-/

namespace PhraseIndex.CommandLine

def commandAbout (name : String) : String :=
  match name with
  | "stats" => "Print index and storage sizes"
  | "dump" => "Print phrase records in key order"
  | "count" => "Count occurrences of a phrase"
  | "compact" => "Persist deferred state and compact the index"
  | "sweep" => "Purge domains marked for deletion now"
  | _ => "Print this message or the help of the given subcommand(s)"

def programHelp : List String :=
  [ "Inspect and maintain a suffix-array phrase index",
    "",
    "Usage: sapt [OPTIONS] --model <MODEL> <COMMAND>",
    "",
    "Commands:" ] ++
  commandNames.map (fun name =>
    "  " ++ name ++ String.ofList (List.replicate (9 - name.length) ' ') ++ commandAbout name) ++
  [ "",
    "Options:",
    "      --model <MODEL>                  Model directory holding `index/` and `storage/` [env: SAPT_MODEL=]",
    "      --config <CONFIG>                JSON configuration file (overrides --prefix-length) [env: SAPT_CONFIG=]",
    "      --prefix-length <PREFIX_LENGTH>  Maximum exactly indexed phrase length " ++
      "[env: SAPT_PREFIX_LENGTH=] [default: 4]",
    "  -h, --help                           Print help" ]

def commandUsage (name : String) : String :=
  match name with
  | "stats" | "dump" => s!"Usage: sapt --model <MODEL> {name} [OPTIONS]"
  | "count" => "Usage: sapt --model <MODEL> count [OPTIONS] <WORDS>..."
  | "help" => "Usage: sapt --model <MODEL> help [COMMAND]..."
  | _ => s!"Usage: sapt --model <MODEL> {name}"

def commandOptions (name : String) : List String :=
  match name with
  | "stats" =>
    [ "Options:",
      "      --metrics  Also print Prometheus metrics",
      "  -h, --help     Print help" ]
  | "dump" =>
    [ "Options:",
      "      --limit <LIMIT>  Stop after this many records (0 = all) [default: 0]",
      "  -h, --help           Print help" ]
  | "count" =>
    [ "Arguments:",
      "  <WORDS>...  Word ids of the phrase",
      "",
      "Options:",
      "      --side <SIDE>  [default: source] [possible values: source, target]",
      "  -h, --help         Print help" ]
  | "help" =>
    [ "Arguments:",
      "  [COMMAND]...  Print help for the subcommand(s)" ]
  | _ =>
    [ "Options:",
      "  -h, --help  Print help" ]

def commandHelp (name : String) : List String :=
  [commandAbout name, "", commandUsage name, ""] ++ commandOptions name

/-- The help text on the program or on a command. -/
def helpText (command : Option String) : List String :=
  match command with
  | none => programHelp
  | some name => commandHelp name

/-- What is said about a command line that is refused. -/
def Refusal.text : Refusal → String
  | .help _ => "help"
  | .unknown argument => "unexpected argument: " ++ argument
  | .repeated option => "given more than once: --" ++ option
  | .noValue option => "a value is required for --" ++ option
  | .badValue option value => "invalid value for " ++ option ++ ": " ++ value
  | .missing what => "not given: " ++ what

end PhraseIndex.CommandLine
