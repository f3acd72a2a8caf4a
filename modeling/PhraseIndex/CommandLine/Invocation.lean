import PhraseIndex.Basic
import PhraseIndex.Decimal.Whole
import PhraseIndex.Metrics.Basic

/-!
# The command line

Options of the program stand before the command, options of the command behind it. An option takes its value from
behind an equals sign or from the next argument, which may not look like an option itself; behind two dashes everything
is an operand. An option may be given once. Arguments are judged one after the other, so whoever asks for help gets it
only if nothing before that was wrong.
-/

namespace PhraseIndex.CommandLine

inductive Command
  | stats (metrics : Bool)
  /-- A limit of zero is none. -/
  | dump (limit : Nat)
  | count (side : Side) (words : Phrase)
  | compact
  | sweep
  deriving DecidableEq, Repr

structure Invocation where
  model : String
  config : Option String
  prefixLength : PrefixLength
  command : Command
  deriving DecidableEq, Repr

/-- Why there is nothing to run. -/
inductive Refusal
  /-- Help was asked for, on the program or on one of its commands. -/
  | help (command : Option String)
  | unknown (argument : String)
  | repeated (option : String)
  | noValue (option : String)
  | badValue (option value : String)
  | missing (what : String)
  deriving DecidableEq, Repr

/-! ## Levels -/

/-- An option that is given, and what it changes. -/
structure Assignment (α : Type) where
  option : String
  set : α → Except Refusal α

/-- What a level of the command line accepts; `α` is what is read on it. -/
structure Level (α : Type) where
  /-- Its name, none for the program itself. -/
  name : Option String
  switches : List (String × (α → α)) := []
  valued : List (String × (String → α → Except Refusal α)) := []
  /-- What an operand changes; without it the first operand ends the level. -/
  operand : Option (String → α → Except Refusal α) := none

/-- How far a level has been read. -/
structure Progress (α : Type) where
  read : α
  given : List String := []
  /-- The last option, if its value was an argument of its own; it is not looked at before the next option. -/
  pending : Option (Assignment α) := none

namespace Progress

/-- Gives an option, which must not have been given before. -/
def give (p : Progress α) (a : Assignment α) : Except Refusal (Progress α) :=
  if p.given.contains a.option then .error (.repeated a.option)
  else do
    let read ← a.set p.read
    pure { p with read, given := a.option :: p.given }

/-- Gives the option that is pending. -/
def settle (p : Progress α) : Except Refusal (Progress α) :=
  match p.pending with
  | none => .ok p
  | some a => { p with pending := none }.give a

/-- Takes an operand. -/
def take (p : Progress α) (set : String → α → Except Refusal α) (operand : String) : Except Refusal (Progress α) := do
  let read ← set operand p.read
  pure { p with read }

end Progress

def looksLikeOption (argument : String) : Bool := argument.startsWith "-" && argument != "-"

/-- The name of a long option and the value behind an equals sign. -/
def splitOption (argument : String) : String × Option String :=
  let cs := argument.toList.drop 2
  let name := cs.takeWhile (· != '=')
  match cs.dropWhile (· != '=') with
  | [] => (String.ofList name, none)
  | _ :: value => (String.ofList name, some (String.ofList value))

/-- What an argument that looks like an option brings to its level. -/
inductive Step (α : Type)
  | now (a : Assignment α)
  /-- The value is the next argument. -/
  | later (option : String) (set : String → α → Except Refusal α)

namespace Level

/-- Reads a long option. -/
def longOption (l : Level α) (argument : String) : Except Refusal (Step α) :=
  let (name, value) := splitOption argument
  match l.switches.lookup name, l.valued.lookup name, value with
  | some change, _, none => .ok (.now ⟨name, fun read => .ok (change read)⟩)
  | some _, _, some value => .error (.badValue name value)
  | none, some set, none => .ok (.later name set)
  | none, some set, some value => .ok (.now ⟨name, set value⟩)
  | none, none, none => .error (if name == "help" then .help l.name else .unknown argument)
  | none, none, some _ => .error (.unknown argument)

/-- Reads an argument that looks like an option. -/
def step (l : Level α) (argument : String) : Except Refusal (Step α) :=
  if argument.startsWith "--" then l.longOption argument
  else .error (if argument.startsWith "-h" then .help l.name else .unknown argument)

/-- Takes what follows two dashes. -/
def takeOperands (l : Level α) (p : Progress α) (operands : List String) : Except Refusal (Progress α) :=
  match l.operand, operands with
  | _, [] => .ok p
  | none, operand :: _ => .error (.unknown operand)
  | some set, operands => operands.foldlM (·.take set) p

/-- Reads the arguments of a level; also what is left behind the operand that ends it. -/
def split (l : Level α) : Progress α → List String → Except Refusal (Progress α × List String)
  | p, [] => .ok (p, [])
  | p, argument :: rest =>
    if argument == "--" then (·, []) <$> l.takeOperands p rest
    else if looksLikeOption argument then
      match p.settle with
      | .error refusal => .error refusal
      | .ok p =>
        match l.step argument with
        | .error refusal => .error refusal
        | .ok (.now a) =>
          match p.give a with
          | .error refusal => .error refusal
          | .ok p => l.split p rest
        | .ok (.later option set) =>
          match rest with
          | [] => .error (.noValue option)
          | value :: rest =>
            if looksLikeOption value then .error (.noValue option)
            else l.split { p with pending := some ⟨option, set value⟩ } rest
    else
      match l.operand with
      | none => .ok (p, argument :: rest)
      | some set =>
        match p.take set argument with
        | .error refusal => .error refusal
        | .ok p => l.split p rest

/-- Reads a level that reaches to the end, starting from its defaults. -/
def whole (l : Level α) (defaults : α) (arguments : List String) : Except Refusal α := do
  let (p, rest) ← l.split { read := defaults } arguments
  match rest with
  | [] => (·.read) <$> p.settle
  | argument :: _ => throw (.unknown argument)

end Level

/-! ## Values -/

/-- A number that the option asks for. -/
def numberOf (read : List Char → Option Nat) (option value : String) : Except Refusal Nat :=
  match read value.toList with
  | some n => .ok n
  | none => .error (.badValue option value)

/-- A path, which must not be empty. -/
def pathOf (option value : String) : Except Refusal String :=
  if value.isEmpty then .error (.badValue option value) else .ok value

def sideOf (value : String) : Except Refusal Side :=
  if value == "source" then .ok .source
  else if value == "target" then .ok .target
  else .error (.badValue "side" value)

/-! ## Commands -/

def statsLevel : Level Bool := { name := some "stats", switches := [("metrics", fun _ => true)] }

def dumpLevel : Level Nat where
  name := some "dump"
  valued := [("limit", fun value _ => numberOf (Decimal.unsigned? UInt64.size) "limit" value)]

/-- What is counted: a side, and the words of a phrase. -/
structure Question where
  side : Side := .source
  words : Phrase := []

def countLevel : Level Question where
  name := some "count"
  valued := [("side", fun value q => do pure { q with side := ← sideOf value })]
  operand := some fun operand q => do
    let word ← numberOf (Decimal.signed? UInt32.size) "words" operand
    pure { q with words := q.words ++ [UInt32.ofNat word] }

/-- A command without options of its own. -/
def plainLevel (name : String) : Level Unit := { name := some name }

def commandNames : List String := ["stats", "dump", "count", "compact", "sweep", "help"]

/-- Help on the command that is named, or on the program. -/
def helpOn : List String → Refusal
  | [] => .help none
  | [name] => if commandNames.contains name then .help (some name) else .unknown name
  | _ :: argument :: _ => .unknown argument

def readCommand (name : String) (rest : List String) : Except Refusal Command :=
  match name with
  | "stats" => .stats <$> statsLevel.whole false rest
  | "dump" => .dump <$> dumpLevel.whole 0 rest
  | "count" => do
    let q ← countLevel.whole {} rest
    if q.words.isEmpty then throw (.missing "words")
    pure (.count q.side q.words)
  | "compact" => (fun _ => .compact) <$> (plainLevel name).whole () rest
  | "sweep" => (fun _ => .sweep) <$> (plainLevel name).whole () rest
  | "help" => throw (helpOn rest)
  | _ => throw (.unknown name)

/-! ## The program -/

/-- The options before the command. -/
structure Settings where
  model : Option String := none
  config : Option String := none
  prefixLength : PrefixLength := 4

def programLevel : Level Settings where
  name := none
  valued :=
    [ ("model", fun value s => do pure { s with model := some (← pathOf "model" value) }),
      ("config", fun value s => do pure { s with config := some (← pathOf "config" value) }),
      ("prefix-length", fun value s => do
        let n ← numberOf (Decimal.signed? UInt8.size) "prefix-length" value
        pure { s with prefixLength := UInt8.ofNat n }) ]

/-- Reads the arguments of the program. The command is read before the last of the options in front of it is looked
at. -/
def read (arguments : List String) : Except Refusal Invocation := do
  let (p, rest) ← programLevel.split { read := {} } arguments
  match rest with
  | [] => throw (.missing "command")
  | name :: rest =>
    let command ← readCommand name rest
    let settings ← (·.read) <$> p.settle
    match settings.model with
    | none => throw (.missing "model")
    | some model => pure { model, config := settings.config, prefixLength := settings.prefixLength, command }

end PhraseIndex.CommandLine
