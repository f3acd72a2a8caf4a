import PhraseIndex.Config.Basic
import PhraseIndex.Json.Number

/-!
# Configuration documents

A configuration is kept as a JSON document: an object with a member for each setting, missing ones taking their
defaults and unknown ones passed over, or an array of settings in their fixed order that may stop early.
-/

namespace PhraseIndex.Config

/-! ## Writing -/

/-- The settings, each on a line of its own. -/
def toJson (c : Config) : String :=
  let member (name value : String) : String := "  \"" ++ name ++ "\": " ++ value
  let members :=
    [ member "prefix_length" (toString c.prefixLength),
      member "gc_timeout_secs" (Decimal.Layout.document.write c.sweepSeconds),
      member "gc_batch_size" (toString c.sweepBatch),
      member "bulk_load" (if c.bulkLoad then "true" else "false"),
      member "storage_max_file_size" (toString c.maxFileSize) ]
  "\x7b\n" ++ ",\n".intercalate members ++ "\n\x7d"

/-! ## Reading -/

/-- A whole number below the bound. -/
def whole? (bound : Nat) : Json → Option Nat
  | .number n => n.toNat?.filter (· < bound)
  | _ => none

def float? : Json → Option Float
  | .number n => n.toFloat?
  | _ => none

def boolean? : Json → Option Bool
  | .boolean b => some b
  | _ => none

/-- A setting: its name, and how its value changes a configuration. -/
structure Field where
  name : String
  set? : Config → Json → Option Config

/-- The settings in their order. -/
def fields : List Field :=
  [ ⟨"prefix_length", fun c v => (whole? UInt8.size v).map fun n => { c with prefixLength := UInt8.ofNat n }⟩,
    ⟨"gc_timeout_secs", fun c v => (float? v).map fun x => { c with sweepSeconds := x }⟩,
    ⟨"gc_batch_size", fun c v => (whole? UInt64.size v).map fun n => { c with sweepBatch := UInt64.ofNat n }⟩,
    ⟨"bulk_load", fun c v => (boolean? v).map fun b => { c with bulkLoad := b }⟩,
    ⟨"storage_max_file_size", fun c v => (whole? UInt64.size v).map fun n => { c with maxFileSize := UInt64.ofNat n }⟩ ]

/-- Sets the fields from the items of an array, of which there may be fewer. -/
def setItems : Config → List Field → List Json → Option Config
  | c, _, [] => some c
  | _, [], _ :: _ => none
  | c, field :: fields, value :: values => do
    let c ← field.set? c value
    setItems c fields values

/-- Sets the fields from the members of an object; `seen` holds the names that must not come again. -/
def setMembers : Config → List String → List (Bytes × Json) → Option Config
  | c, _, [] => some c
  | c, seen, (raw, value) :: members => do
    let name ← Json.text? raw
    match fields.find? (·.name == name) with
    | none => setMembers c seen members
    | some field =>
      if seen.contains name then none
      else
        let c ← field.set? c value
        setMembers c (name :: seen) members

/-- The settings that a document gives. -/
def ofDocument? : Json → Option Config
  | .object members => setMembers {} [] members
  | .array items => setItems {} fields items
  | _ => none

/-- Reads a document and checks its settings. -/
def ofJson (text : Bytes) : Except Error Config := do
  match Json.parse? text >>= ofDocument? with
  | none => throw .malformedConfiguration
  | some c =>
    c.validate
    pure c

end PhraseIndex.Config
