import PhraseIndex.Bytes

/-!
# JSON documents

A `Json` value is a document as its grammar gives it: numbers keep their digits, strings the bytes between their
quotes, objects their members in order, repeated names included. What a number or a string stands for is decided by
whoever needs it (`Json.Number`, `Json.text?`), so a document may hold values that nobody can read.
-/

namespace PhraseIndex

namespace Json

/-- A number as it is written, digit by digit. -/
structure Number where
  negative : Bool
  whole : List Nat
  /-- Digits behind the point; none without a point. -/
  fraction : List Nat
  /-- Whether the exponent is negative, and its digits. -/
  exponent : Option (Bool × List Nat)
  deriving DecidableEq, Repr

end Json

inductive Json
  | null
  | boolean (value : Bool)
  | number (value : Json.Number)
  | string (raw : Bytes)
  | array (items : List Json)
  | object (members : List (Bytes × Json))

namespace Json

/-- A character of the grammar as a byte. -/
def byte (c : Char) : UInt8 := c.toUInt8

def isSpace (b : UInt8) : Bool := b == byte ' ' || b == byte '\t' || b == byte '\n' || b == byte '\r'

def isDigit (b : UInt8) : Bool := byte '0' ≤ b && b ≤ byte '9'

/-- Value of a hexadecimal digit. -/
def hexValue? (b : UInt8) : Option Nat :=
  if isDigit b then some (b.toNat - 48)
  else if byte 'a' ≤ b && b ≤ byte 'f' then some (b.toNat - 87)
  else if byte 'A' ≤ b && b ≤ byte 'F' then some (b.toNat - 55)
  else none

def isHex (b : UInt8) : Bool := (hexValue? b).isSome

/-- The number that four hexadecimal digits stand for. -/
def hexValue (bs : Bytes) : Nat := bs.foldl (fun n b => 16 * n + (hexValue? b).getD 0) 0

/-! ## Strings -/

/-- What a backslash and this byte stand for, unless it is a `u`. -/
def simpleEscape? (b : UInt8) : Option UInt8 :=
  if b == byte '"' || b == byte '\\' || b == byte '/' then some b
  else if b == byte 'b' then some 8
  else if b == byte 'f' then some 12
  else if b == byte 'n' then some 10
  else if b == byte 'r' then some 13
  else if b == byte 't' then some 9
  else none

/-- The bytes up to the closing quote, and what follows it. -/
def stringBody : Bytes → Option (Bytes × Bytes)
  | [] => none
  | b :: rest =>
    if b == byte '"' then some ([], rest)
    else if b < 0x20 then none
    else if b == byte '\\' then
      match rest with
      | e :: h₁ :: h₂ :: h₃ :: h₄ :: rest =>
        if e == byte 'u' then
          if [h₁, h₂, h₃, h₄].all isHex then
            (stringBody rest).map fun (body, rest) => (b :: e :: h₁ :: h₂ :: h₃ :: h₄ :: body, rest)
          else none
        else if (simpleEscape? e).isSome then
          (stringBody (h₁ :: h₂ :: h₃ :: h₄ :: rest)).map fun (body, rest) => (b :: e :: body, rest)
        else none
      | e :: rest =>
        if (simpleEscape? e).isSome then (stringBody rest).map fun (body, rest) => (b :: e :: body, rest) else none
      | [] => none
    else (stringBody rest).map fun (body, rest) => (b :: body, rest)

/-- The bytes of a character. -/
def scalarBytes (n : Nat) : Bytes := (String.singleton (Char.ofNat n)).toUTF8.toList

/-- Resolves the escapes of a string body. Halves of a surrogate pair have to stand together. -/
def unescape? : Bytes → Option Bytes
  | [] => some []
  | b :: rest =>
    if b != byte '\\' then (b :: ·) <$> unescape? rest
    else
      match rest with
      | u :: h₁ :: h₂ :: h₃ :: h₄ :: rest =>
        if u == byte 'u' then
          let n := hexValue [h₁, h₂, h₃, h₄]
          if n < 0xD800 || 0xE000 ≤ n then (scalarBytes n ++ ·) <$> unescape? rest
          else if 0xDC00 ≤ n then none
          else
            match rest with
            | b' :: u' :: k₁ :: k₂ :: k₃ :: k₄ :: rest =>
              let m := hexValue [k₁, k₂, k₃, k₄]
              if b' == byte '\\' && u' == byte 'u' && 0xDC00 ≤ m && m < 0xE000 then
                (scalarBytes (0x10000 + (n - 0xD800) * 0x400 + (m - 0xDC00)) ++ ·) <$> unescape? rest
              else none
            | _ => none
        else
          match simpleEscape? u with
          | some c => (c :: ·) <$> unescape? (h₁ :: h₂ :: h₃ :: h₄ :: rest)
          | none => none
      | u :: rest =>
        match simpleEscape? u with
        | some c => (c :: ·) <$> unescape? rest
        | none => none
      | [] => none

/-- The text of a string body, if it is one. -/
def text? (raw : Bytes) : Option String := do
  let bytes ← unescape? raw
  String.fromUTF8? (ByteArray.mk bytes.toArray)

/-! ## Numbers -/

/-- The digits at the front, and what follows them. -/
def digits (bs : Bytes) : List Nat × Bytes :=
  ((bs.takeWhile isDigit).map fun b => b.toNat - 48, bs.dropWhile isDigit)

/-- At least one digit. -/
def someDigits (bs : Bytes) : Option (List Nat × Bytes) :=
  match digits bs with
  | ([], _) => none
  | found => some found

/-- The digits before the point; only nought itself starts with a nought. -/
def wholePart (bs : Bytes) : Option (List Nat × Bytes) :=
  match digits bs with
  | ([], _) | (0 :: _ :: _, _) => none
  | found => some found

def fractionPart : Bytes → Option (List Nat × Bytes)
  | [] => some ([], [])
  | b :: rest => if b == byte '.' then someDigits rest else some ([], b :: rest)

def exponentPart : Bytes → Option (Option (Bool × List Nat) × Bytes)
  | [] => some (none, [])
  | b :: rest =>
    if b == byte 'e' || b == byte 'E' then
      let (negative, rest) := match rest with
        | s :: tail => if s == byte '-' then (true, tail) else if s == byte '+' then (false, tail) else (false, rest)
        | [] => (false, [])
      (someDigits rest).map fun (ds, rest) => (some (negative, ds), rest)
    else some (none, b :: rest)

def numberAt (bs : Bytes) : Option (Number × Bytes) := do
  let (negative, bs) := match bs with
    | b :: rest => if b == byte '-' then (true, rest) else (false, bs)
    | [] => (false, [])
  let (whole, bs) ← wholePart bs
  let (fraction, bs) ← fractionPart bs
  let (exponent, bs) ← exponentPart bs
  pure ({ negative, whole, fraction, exponent }, bs)

/-! ## Values -/

def skipSpace (bs : Bytes) : Bytes := bs.dropWhile isSpace

/-- What follows this word at the front. -/
def afterWord? (word : String) (bs : Bytes) : Option Bytes :=
  let w := word.toUTF8.toList
  if w.isPrefixOf bs then some (bs.drop w.length) else none

/-- The separator after an item: more items follow a comma, and none the closing byte. -/
def separator (closing : UInt8) (bs : Bytes) : Option (Bool × Bytes) :=
  match skipSpace bs with
  | b :: rest => if b == byte ',' then some (true, rest) else if b == closing then some (false, rest) else none
  | [] => none

/-- The rest behind a closing byte that comes next. -/
def closed? (closing : UInt8) (bs : Bytes) : Option Bytes :=
  match skipSpace bs with
  | b :: rest => if b == closing then some rest else none
  | [] => none

/-- The name of a member and the bytes behind its colon. -/
def memberName (bs : Bytes) : Option (Bytes × Bytes) :=
  match skipSpace bs with
  | b :: rest =>
    if b == byte '"' then do
      let (name, rest) ← stringBody rest
      let rest ← closed? (byte ':') rest
      pure (name, rest)
    else none
  | [] => none

mutual

/-- A value at the front of the text. Every value in it takes at least one byte, so the length of the text is fuel
enough. -/
def valueAt : Nat → Bytes → Option (Json × Bytes)
  | 0, _ => none
  | fuel + 1, bs =>
    let bs := skipSpace bs
    match bs with
    | [] => none
    | b :: rest =>
      if b == byte '"' then (stringBody rest).map fun (raw, rest) => (string raw, rest)
      else if b == byte '[' then
        match closed? (byte ']') rest with
        | some rest => some (array [], rest)
        | none => (itemsAt fuel rest).map fun (items, rest) => (array items, rest)
      else if b == byte '{' then
        match closed? (byte '}') rest with
        | some rest => some (object [], rest)
        | none => (membersAt fuel rest).map fun (members, rest) => (object members, rest)
      else if b == byte 'n' then (afterWord? "null" bs).map fun rest => (null, rest)
      else if b == byte 't' then (afterWord? "true" bs).map fun rest => (boolean true, rest)
      else if b == byte 'f' then (afterWord? "false" bs).map fun rest => (boolean false, rest)
      else (numberAt bs).map fun (n, rest) => (number n, rest)

/-- The items of an array, up to its closing bracket. -/
def itemsAt : Nat → Bytes → Option (List Json × Bytes)
  | 0, _ => none
  | fuel + 1, bs => do
    let (item, bs) ← valueAt fuel bs
    let (more, bs) ← separator (byte ']') bs
    if more then
      let (items, bs) ← itemsAt fuel bs
      pure (item :: items, bs)
    else pure ([item], bs)

/-- The members of an object, up to its closing brace. -/
def membersAt : Nat → Bytes → Option (List (Bytes × Json) × Bytes)
  | 0, _ => none
  | fuel + 1, bs => do
    let (name, bs) ← memberName bs
    let (value, bs) ← valueAt fuel bs
    let (more, bs) ← separator (byte '}') bs
    if more then
      let (members, bs) ← membersAt fuel bs
      pure ((name, value) :: members, bs)
    else pure ([(name, value)], bs)

end

/-- The document that is the whole text. -/
def parse? (text : Bytes) : Option Json := do
  let (value, rest) ← valueAt (text.length + 1) text
  if (skipSpace rest).isEmpty then pure value else none

end Json

end PhraseIndex
