import Descent.Text.Units

/-
  This file defines JSON values with a reader and a writer.
  A string is kept as its 16-bit units, so escapes of
  unpaired surrogates can be read, and a number as its text,
  so whoever uses it decides which numbers to accept.

  Key definitions include:
    * `Json`
    * `Json.parse?`
    * `Json.render`
-/

namespace Descent.Text

/- A JSON value. -/
inductive Json where
  | null
  | bool (value : Bool)
  | number (text : String)
  | string (units : List Nat)
  | array (items : List Json)
  | object (fields : List (List Nat × Json))

namespace Json

------------------------------------------------------------
-- Building and inspecting values
------------------------------------------------------------

/- A string value. -/
def text
    (s : String) : Json :=
  .string (units s)

/- A number value. -/
def nat
    (n : Nat) : Json :=
  .number (toString n)

/- An object from named fields. -/
def record
    (fields : List (String × Json)) : Json :=
  .object (fields.map fun (k, v) => (units k, v))

/- The last field of the given name. -/
def field?
    (j : Json)
    (name : String) : Option Json :=
  match j with
  | .object fields =>
      (fields.reverse.find? fun f => f.1 == units name).map (·.2)
  | _ => none

/- The text of a string value without unpaired surrogates. -/
def text? : Json → Option String
  | .string us => ofUnits? us
  | _ => none

/- The value of a number written as plain decimal digits. -/
def nat? : Json → Option Nat
  | .number t =>
      if t.toList.all Char.isDigit then t.toNat? else none
  | _ => none

/- The value of a boolean. -/
def bool? : Json → Option Bool
  | .bool b => some b
  | _ => none

/- The items of an array. -/
def array? : Json → Option (List Json)
  | .array items => some items
  | _ => none

------------------------------------------------------------
-- Reading
------------------------------------------------------------

/- The white space between tokens. -/
def isSpace
    (c : Char) : Bool :=
  c == ' ' || c == '\t' || c == '\n' || c == '\r'

/- Drop white space. -/
def skipSpace
    (cs : List Char) : List Char :=
  cs.dropWhile isSpace

/- The value of a hexadecimal digit. -/
def hexDigit?
    (c : Char) : Option Nat :=
  if '0' ≤ c ∧ c ≤ '9' then some (c.toNat - 48)
  else if 'a' ≤ c ∧ c ≤ 'f' then some (c.toNat - 87)
  else if 'A' ≤ c ∧ c ≤ 'F' then some (c.toNat - 55)
  else none

/- The unit of a four-digit escape. -/
def hexUnit?
    (a b c d : Char) : Option Nat := do
  let a ← hexDigit? a
  let b ← hexDigit? b
  let c ← hexDigit? c
  let d ← hexDigit? d
  return ((a * 16 + b) * 16 + c) * 16 + d

/- The unit of a short escape. -/
def shortEscape? : Char → Option Nat
  | '"' => some 0x22
  | '\\' => some 0x5c
  | '/' => some 0x2f
  | 'b' => some 0x08
  | 'f' => some 0x0c
  | 'n' => some 0x0a
  | 'r' => some 0x0d
  | 't' => some 0x09
  | _ => none

/- The units of a string after its opening quote, and the rest. -/
def readString : List Char → Option (List Nat × List Char)
  | [] => none
  | '"' :: rest => some ([], rest)
  | '\\' :: 'u' :: a :: b :: c :: d :: rest => do
      let u ← hexUnit? a b c d
      let (us, rest) ← readString rest
      return (u :: us, rest)
  | '\\' :: e :: rest => do
      let u ← shortEscape? e
      let (us, rest) ← readString rest
      return (u :: us, rest)
  | c :: rest =>
      if c.toNat < 0x20 || c == '\\' then
        none
      else do
        let (us, rest) ← readString rest
        return (charUnits c ++ us, rest)

/- At least one digit, and the rest. -/
def readDigits
    (cs : List Char) : Option (List Char × List Char) :=
  match cs.takeWhile Char.isDigit with
  | [] => none
  | ds => some (ds, cs.dropWhile Char.isDigit)

/- The whole part of a number: a zero, or digits that start with another one. -/
def readWhole : List Char → Option (List Char × List Char)
  | '0' :: rest => some (['0'], rest)
  | cs => readDigits cs

/- The fraction of a number, possibly empty. -/
def readFraction : List Char → Option (List Char × List Char)
  | '.' :: rest => (readDigits rest).map fun (ds, r) => ('.' :: ds, r)
  | cs => some ([], cs)

/- The sign of an exponent, possibly empty. -/
def readSign : List Char → List Char × List Char
  | '+' :: rest => (['+'], rest)
  | '-' :: rest => (['-'], rest)
  | cs => ([], cs)

/- The exponent of a number, possibly empty. -/
def readExponent : List Char → Option (List Char × List Char)
  | c :: rest =>
      if c == 'e' || c == 'E' then
        let (sign, rest) := readSign rest
        (readDigits rest).map fun (ds, r) => (c :: sign ++ ds, r)
      else
        some ([], c :: rest)
  | [] => some ([], [])

/- The text of a number, and the rest. -/
def readNumber
    (cs : List Char) : Option (String × List Char) := do
  let (minus, cs) := match cs with
    | '-' :: rest => (['-'], rest)
    | _ => ([], cs)
  let (whole, cs) ← readWhole cs
  let (fraction, cs) ← readFraction cs
  let (exponent, cs) ← readExponent cs
  return (String.ofList (minus ++ whole ++ fraction ++ exponent), cs)

mutual

/- One value after optional white space, and the rest. -/
def readValue : Nat → List Char → Option (Json × List Char)
  | 0, _ => none
  | fuel + 1, cs =>
      match skipSpace cs with
      | 'n' :: 'u' :: 'l' :: 'l' :: rest => some (.null, rest)
      | 't' :: 'r' :: 'u' :: 'e' :: rest => some (.bool true, rest)
      | 'f' :: 'a' :: 'l' :: 's' :: 'e' :: rest => some (.bool false, rest)
      | '"' :: rest => (readString rest).map fun (us, r) => (.string us, r)
      | '[' :: rest =>
          match skipSpace rest with
          | ']' :: rest => some (.array [], rest)
          | _ => (readItems fuel rest).map fun (xs, r) => (.array xs, r)
      | '\x7b' :: rest =>
          match skipSpace rest with
          | '\x7d' :: rest => some (.object [], rest)
          | _ => (readFields fuel rest).map fun (fs, r) => (.object fs, r)
      | cs => (readNumber cs).map fun (t, r) => (.number t, r)

/- The items of an array up to its end, and the rest. -/
def readItems : Nat → List Char → Option (List Json × List Char)
  | 0, _ => none
  | fuel + 1, cs => do
      let (item, rest) ← readValue fuel cs
      match skipSpace rest with
      | ',' :: rest =>
          let (items, rest) ← readItems fuel rest
          return (item :: items, rest)
      | ']' :: rest => return ([item], rest)
      | _ => none

/- The fields of an object up to its end, and the rest. -/
def readFields : Nat → List Char → Option (List (List Nat × Json) × List Char)
  | 0, _ => none
  | fuel + 1, cs =>
      match skipSpace cs with
      | '"' :: rest => do
          let (key, rest) ← readString rest
          match skipSpace rest with
          | ':' :: rest =>
              let (value, rest) ← readValue fuel rest
              match skipSpace rest with
              | ',' :: rest =>
                  let (fields, rest) ← readFields fuel rest
                  return ((key, value) :: fields, rest)
              | '\x7d' :: rest => return ([(key, value)], rest)
              | _ => none
          | _ => none
      | _ => none

end

/-
  The value of a whole text.  Two calls consume a character
  at least, so the fuel is never short.
-/
def parse?
    (s : String) : Option Json :=
  let cs := s.toList
  match readValue (2 * cs.length + 2) cs with
  | some (v, rest) => if (skipSpace rest).isEmpty then some v else none
  | none => none

------------------------------------------------------------
-- Writing
------------------------------------------------------------

/- Two hexadecimal digits. -/
def hex2
    (n : Nat) : String :=
  String.ofList [Nat.digitChar (n / 16), Nat.digitChar (n % 16)]

/- A character as it stands in a written string. -/
def renderChar
    (c : Char) : String :=
  match c.toNat with
  | 0x08 => "\\b"
  | 0x09 => "\\t"
  | 0x0a => "\\n"
  | 0x0c => "\\f"
  | 0x0d => "\\r"
  | 0x22 => "\\\""
  | 0x5c => "\\\\"
  | n => if n < 0x20 then "\\u00" ++ hex2 n else String.singleton c

/- A string with its quotes, appended to a text. -/
def writeString
    (out : String)
    (us : List Nat) : String :=
  ((ofUnits us).foldl (fun acc c => acc ++ renderChar c) (out.push '"')).push '"'

mutual

/- A value appended to a text. -/
def write
    (out : String) : Json → String
  | .null => out ++ "null"
  | .bool true => out ++ "true"
  | .bool false => out ++ "false"
  | .number t => out ++ t
  | .string us => writeString out us
  | .array items => (writeItems (out.push '[') true items).push ']'
  | .object fields => (writeFields (out.push '\x7b') true fields).push '\x7d'

/- Items with commas between them, appended to a text. -/
def writeItems
    (out : String)
    (first : Bool) : List Json → String
  | [] => out
  | v :: vs => writeItems (write (if first then out else out.push ',') v) false vs

/- Fields with commas between them, appended to a text. -/
def writeFields
    (out : String)
    (first : Bool) : List (List Nat × Json) → String
  | [] => out
  | (k, v) :: fs =>
      let out := if first then out else out.push ','
      writeFields (write ((writeString out k).push ':') v) false fs

end

/- The text of a value, without white space. -/
def render
    (j : Json) : String :=
  write "" j

end Json

end Descent.Text
