import Descent.Language
import Descent.Text.Json

/-
  This file defines the settings of a generator run and how
  they are read from JSON: an object that names the settings
  to change, or an array that lists them in order.

  Key definitions include:
    * `Options`
    * `Options.ofJson?`
    * `Options.parse?`
-/

namespace Descent

open Text (Json)

------------------------------------------------------------
-- Settings
------------------------------------------------------------

/- The settings that analysis and code generation read. -/
structure Options where
  /- Lookahead of choice points that state none. -/
  lookahead : Nat := 1
  /- Check lookahead also where it is stated or larger than one. -/
  forceLaCheck : Bool := false
  /- Look for left recursion, empty loops and ambiguity. -/
  sanityCheck : Bool := true
  /- Largest lookahead tried at a choice. -/
  choiceAmbiguityCheck : Nat := 2
  /- Largest lookahead tried at a repetition or an option. -/
  otherAmbiguityCheck : Nat := 1
  /- Every token ignores case. -/
  ignoreCase : Bool := false
  debugParser : Bool := false
  debugLookahead : Bool := false
  debugTokenManager : Bool := false
  /- Keep what error messages of the parser need. -/
  errorReporting : Bool := true
  cacheTokens : Bool := false
  /- Largest nesting of the generated parser, without limit if zero. -/
  depthLimit : Nat := 0
  isStatic : Bool := false
  outputLanguage : Language := .java
  javaUnicodeEscape : Bool := false
  userCharStream : Bool := false
  userTokenManager : Bool := false
  /- Leave every routine after the first parse error. -/
  stopOnFirstError : Bool := false
  legacyExceptionHandling : Bool := false
  parserName : String := "Parser"
  /- Columns between two tab stops. -/
  tabSize : Nat := 1
  deriving Repr, DecidableEq, Inhabited

namespace Options

/- The generated code is C++. -/
def isCpp
    (o : Options) : Bool :=
  o.outputLanguage == .cpp

/- The name of the boolean type in generated code. -/
def booleanType
    (o : Options) : String :=
  if o.isCpp then "bool" else "boolean"

/- The name of the 64-bit word type in generated code. -/
def longType
    (o : Options) : String :=
  if o.isCpp then "unsigned long long" else "long"

/- The suffix of 64-bit literals in generated code. -/
def longSuffix
    (o : Options) : String :=
  if o.isCpp then "ULL" else "L"

/- The modifier of class members in generated code. -/
def staticModifier
    (o : Options) : String :=
  if o.isStatic then "static " else ""

/- The class name of the generated token manager. -/
def tokenManagerName
    (o : Options) : String :=
  o.parserName ++ "TokenManager"

------------------------------------------------------------
-- Reading single settings
------------------------------------------------------------

/- A count: plain digits below 2^32. -/
def count?
    (j : Json) : Option Nat :=
  j.nat?.filter (· < 4294967296)

/- A language by its name. -/
def language? : String → Option Language
  | "java" => some .java
  | "cpp" => some .cpp
  | _ => none

/- A language: its name, or an object with that one key and no content. -/
def languageOfJson? : Json → Option Language
  | .object [(key, .null)] => (Text.ofUnits? key).bind language?
  | j => j.text?.bind language?

/- One setting: its name, and what a value for it does. -/
structure Setting where
  name : String
  update? : Json → Options → Option Options

/- A setting with a count. -/
def countSetting
    (name : String)
    (set : Nat → Options → Options) : Setting :=
  ⟨name, fun j o => (count? j).map fun n => set n o⟩

/- A setting that is on or off. -/
def flagSetting
    (name : String)
    (set : Bool → Options → Options) : Setting :=
  ⟨name, fun j o => j.bool?.map fun b => set b o⟩

/- All settings, in the order in which an array lists them. -/
def settings : List Setting :=
  [ countSetting "lookahead" fun n o => { o with lookahead := n },
    flagSetting "force_la_check" fun b o => { o with forceLaCheck := b },
    flagSetting "sanity_check" fun b o => { o with sanityCheck := b },
    countSetting "choice_ambiguity_check" fun n o => { o with choiceAmbiguityCheck := n },
    countSetting "other_ambiguity_check" fun n o => { o with otherAmbiguityCheck := n },
    flagSetting "ignore_case" fun b o => { o with ignoreCase := b },
    flagSetting "debug_parser" fun b o => { o with debugParser := b },
    flagSetting "debug_lookahead" fun b o => { o with debugLookahead := b },
    flagSetting "debug_token_manager" fun b o => { o with debugTokenManager := b },
    flagSetting "error_reporting" fun b o => { o with errorReporting := b },
    flagSetting "cache_tokens" fun b o => { o with cacheTokens := b },
    countSetting "depth_limit" fun n o => { o with depthLimit := n },
    flagSetting "static" fun b o => { o with isStatic := b },
    ⟨"output_language", fun j o =>
      (languageOfJson? j).map fun l => { o with outputLanguage := l }⟩,
    flagSetting "java_unicode_escape" fun b o => { o with javaUnicodeEscape := b },
    flagSetting "user_char_stream" fun b o => { o with userCharStream := b },
    flagSetting "user_token_manager" fun b o => { o with userTokenManager := b },
    flagSetting "stop_on_first_error" fun b o => { o with stopOnFirstError := b },
    flagSetting "legacy_exception_handling" fun b o =>
      { o with legacyExceptionHandling := b },
    ⟨"parser_name", fun j o => j.text?.map fun s => { o with parserName := s }⟩,
    countSetting "tab_size" fun n o => { o with tabSize := n } ]

------------------------------------------------------------
-- Reading all settings
------------------------------------------------------------

/-
  Read the fields of an object.  A field that names no setting
  is passed over; a setting may be named once only.
-/
def readFields
    (seen : List String)
    (o : Options) : List (List Nat × Json) → Option Options
  | [] => some o
  | (key, value) :: rest => do
      let name ← Text.ofUnits? key
      match settings.find? (·.name == name) with
      | none => readFields seen o rest
      | some s =>
          if seen.contains name then
            none
          else
            let o ← s.update? value o
            readFields (name :: seen) o rest

/- Read the items of an array against the settings in order. -/
def readItems
    (o : Options) : List Setting → List Json → Option Options
  | _, [] => some o
  | [], _ :: _ => none
  | s :: ss, value :: rest => do
      let o ← s.update? value o
      readItems o ss rest

/- The settings that a JSON value describes; the rest keep their defaults. -/
def ofJson? : Json → Option Options
  | .object fields => readFields [] {} fields
  | .array items => readItems {} settings items
  | _ => none

/- The settings that a JSON text describes. -/
def parse?
    (text : String) : Option Options :=
  (Json.parse? text).bind ofJson?

end Options

end Descent
