import Descent.Failure
import Descent.Text.Units

/-
  This file defines the input of a scanner: a text as 16-bit
  units with their places, with or without unicode escapes,
  and the window of the token that is being read.

  Key definitions include:
    * `SourceUnit`
    * `Position`
    * `decode`
    * `Input`
-/

namespace Descent

------------------------------------------------------------
-- Places
------------------------------------------------------------

/- A unit and where it stands. -/
structure SourceUnit where
  unit : Nat
  line : Nat
  column : Nat
  deriving Repr, DecidableEq, Inhabited

/-
  The place of the unit read last.  A line ends after a line
  feed or a carriage return, and these two together end only
  one line; the new line begins with the next unit.  Lines and
  columns are words of 32 bits, and counting wraps around.
-/
structure Position where
  line : UInt32 := 1
  column : UInt32 := 0
  afterReturn : Bool := false
  afterFeed : Bool := false
  tabSize : UInt32 := 1
  deriving Repr, DecidableEq, Inhabited

namespace Position

/- The place before a text. -/
def start
    (tabSize : Nat) : Position :=
  { tabSize := max (UInt32.ofNat tabSize) 1 }

/- Begin a new line if one has ended. -/
def settle
    (p : Position)
    (c : Nat) : Position :=
  if p.afterFeed then
    { p with afterFeed := false, line := p.line + 1, column := 1 }
  else if p.afterReturn then
    if c == 0x0a then
      { p with afterReturn := false, afterFeed := true, column := p.column + 1 }
    else
      { p with afterReturn := false, line := p.line + 1, column := 1 }
  else
    { p with column := p.column + 1 }

/- Read a unit.  A tab goes to the next tab stop. -/
def advance
    (p : Position)
    (c : Nat) : Position :=
  let p := p.settle c
  if c == 0x0d then
    { p with afterReturn := true }
  else if c == 0x0a then
    { p with afterFeed := true }
  else if c == 0x09 then
    let column := p.column - 1
    { p with column := column + (p.tabSize - column % p.tabSize) }
  else
    p

/- A unit at this place. -/
def tag
    (p : Position)
    (c : Nat) : SourceUnit :=
  ⟨c, p.line.toNat, p.column.toNat⟩

/- The place as a location. -/
def location
    (p : Position) : Location :=
  ⟨p.line.toNat, p.column.toNat⟩

end Position

------------------------------------------------------------
-- Plain text
------------------------------------------------------------

/- Units with their places. -/
def placeUnits
    (p : Position) : List Nat → List SourceUnit
  | [] => []
  | c :: rest =>
      let p := p.advance c
      p.tag c :: placeUnits p rest

------------------------------------------------------------
-- Text with unicode escapes
------------------------------------------------------------

/- The backslash. -/
def backslash : Nat := 0x5c

/- The letter that marks an escape. -/
def letterU : Nat := 0x75

/- The value of a hexadecimal digit. -/
def hexValue?
    (c : Nat) : Option Nat :=
  if 0x30 ≤ c ∧ c ≤ 0x39 then some (c - 0x30)
  else if 0x61 ≤ c ∧ c ≤ 0x66 then some (c - 0x57)
  else if 0x41 ≤ c ∧ c ≤ 0x46 then some (c - 0x37)
  else none

/- What the reader of escapes stands in. -/
inductive EscapeMode where
  /- Outside an escape; the flag says that an odd run of backslashes has just been read. -/
  | plain (odd : Bool)
  /- After the backslash of an escape; the letter comes next. -/
  | opened (slash : SourceUnit)
  /- After one letter or more. -/
  | marked (slash : SourceUnit)
  /- After some digits: how many are missing, and their value so far. -/
  | digits (slash : SourceUnit) (missing : Nat) (value : Nat)
  deriving Repr, DecidableEq

/-
  Units with their places, where an escape becomes one unit at
  the place of its backslash.  A backslash opens an escape
  when it stands at an odd place of a run of backslashes and
  the letter follows.
-/
def decodeEscapes
    (p : Position) : EscapeMode → List Nat → Except Failure (List SourceUnit)
  | .plain _, [] => .ok []
  | .plain odd, c :: rest =>
      let p := p.advance c
      let here := p.tag c
      if c == backslash && !odd then
        if rest.head? == some letterU then
          decodeEscapes p (.opened here) rest
        else
          (decodeEscapes p (.plain true) rest).map (here :: ·)
      else
        (decodeEscapes p (.plain false) rest).map (here :: ·)
  | .opened slash, c :: rest => decodeEscapes (p.advance c) (.marked slash) rest
  | .marked slash, c :: rest =>
      if c == letterU then
        decodeEscapes { p with column := p.column + 1 } (.marked slash) rest
      else
        match hexValue? c with
        | some v => decodeEscapes p (.digits slash 3 v) rest
        | none => .error (.invalidEscape p.location)
  | .digits slash missing value, c :: rest =>
      match hexValue? c with
      | some v =>
          if missing ≤ 1 then
            (decodeEscapes { p with column := p.column + 4 } (.plain false) rest).map
              ({ slash with unit := value * 16 + v } :: ·)
          else
            decodeEscapes p (.digits slash (missing - 1) (value * 16 + v)) rest
      | none => .error (.invalidEscape p.location)
  | _, [] => .error (.invalidEscape p.location)

/- The units of a text with their places. -/
def decode
    (text : String)
    (tabSize : Nat)
    (escapes : Bool) : Except Failure (List SourceUnit) :=
  if escapes then
    decodeEscapes (.start tabSize) (.plain false) (Text.units text)
  else
    .ok (placeUnits (.start tabSize) (Text.units text))

------------------------------------------------------------
-- The window of a token
------------------------------------------------------------

/- Units, the first one of the current token, and the next one to read. -/
structure Input where
  units : Array SourceUnit := #[]
  next : Nat := 0
  tokenBegin : Nat := 0
  deriving Repr, DecidableEq, Inhabited

namespace Input

/- The input of a text. -/
def ofText
    (text : String)
    (tabSize : Nat)
    (escapes : Bool) : Except Failure Input :=
  (decode text tabSize escapes).map fun us => { units := us.toArray }

/- Read one unit. -/
def read
    (i : Input) : Option Nat × Input :=
  match i.units[i.next]? with
  | some u => (some u.unit, { i with next := i.next + 1 })
  | none => (none, i)

/- Begin a token with the next unit. -/
def beginToken
    (i : Input) : Option Nat × Input :=
  { i with tokenBegin := i.next }.read

/- Go back over units of the current token. -/
def backup
    (i : Input)
    (amount : Nat) : Input :=
  { i with next := max (i.next - amount) i.tokenBegin }

/- Everything has been read. -/
def atEnd
    (i : Input) : Bool :=
  i.units.size ≤ i.next

/- The units that have not been read. -/
def rest
    (i : Input) : List Nat :=
  ((i.units.extract i.next i.units.size).map (·.unit)).toList

/- The units of the current token. -/
def image
    (i : Input) : List Nat :=
  ((i.units.extract i.tokenBegin i.next).map (·.unit)).toList

/- The place of a unit; beyond the text it is that of the last one. -/
def placeOf
    (i : Input)
    (index : Nat) : Location :=
  match (i.units[index]?).or i.units.back? with
  | some u => ⟨u.line, u.column⟩
  | none => ⟨1, 0⟩

/- The place of the first unit of the current token. -/
def beginPlace
    (i : Input) : Location :=
  i.placeOf i.tokenBegin

/- The place of the last unit of the current token. -/
def endPlace
    (i : Input) : Location :=
  if i.tokenBegin < i.next then i.placeOf (i.next - 1) else i.beginPlace

end Input

end Descent
