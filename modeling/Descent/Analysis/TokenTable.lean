import Descent.Grammar.Walk
import Descent.Session
import Descent.Text.LetterCase

/-
  This file defines how token expressions get their kinds.
  Sections are checked, names are collected, every expression
  is numbered, with repeated string literals merged, and
  references by name are resolved.

  Key definitions include:
    * `TokenTable.checkSections`
    * `TokenTable.collectNames`
    * `TokenTable.assignKinds`
    * `TokenTable.resolveReferences`
    * `TokenTable.numberReferences`
-/

namespace Descent

namespace TokenTable

/- The place of an entry: its section and its position in it. -/
abbrev SpecPos := SectionId × Nat

/- All entries with their sections and places. -/
def allSpecs
    (g : Grammar) : List (TokenSection × TokenSpec × SpecPos) :=
  g.sections.toList.zipIdx.flatMap fun (sec, i) =>
    sec.specs.zipIdx.map fun (spec, j) => (sec, spec, (i, j))

/- Drop the marked entries. -/
def dropSpecs
    (g : Grammar)
    (marked : List SpecPos) : Grammar :=
  { g with
    sections := g.sections.mapIdx fun i sec =>
      { sec with
        specs := (sec.specs.zipIdx.filter fun (_, j) => !marked.contains (i, j)).map (·.1) } }

------------------------------------------------------------
-- Checks
------------------------------------------------------------

/- Check the lexical state that an entry goes to. -/
def checkNextState
    (g : Grammar)
    (s : Session)
    (spec : TokenSpec) : Session :=
  match spec.nextState with
  | some next =>
      if (g.stateIndex? next).isNone then
        s.error spec.nextStatePlace s!"Lexical state \"{next}\" has not been defined."
      else
        s
  | none => s

/- Take what an entry says about the end of the file. -/
def takeEof
    (s : Session)
    (sec : TokenSection)
    (spec : TokenSpec)
    (place : Location) : Session :=
  let s :=
    if sec.states.isSome then
      s.error place
        "EOF action/state change must be specified for all states, i.e., <*>TOKEN:."
    else s
  let s :=
    if sec.cls != .token then
      s.error place
        "EOF action/state change can be specified only in a TOKEN specification."
    else s
  let s :=
    if s.eof.isSome then
      s.error place "Duplicate action/state change specification for <EOF>."
    else s
  { s with eof := some ⟨spec.action, spec.nextState, place⟩ }

/-
  Check one entry.  Entries for the end of the file and those
  that are mere references are marked to be dropped.
-/
def checkSpec
    (g : Grammar)
    (acc : Session × List SpecPos)
    (entry : TokenSection × TokenSpec × SpecPos) : Session × List SpecPos :=
  let (s, marked) := acc
  let (sec, spec, pos) := entry
  let s := checkNextState g s spec
  let r := g.regex spec.regex
  match r.form with
  | .endOfFile => (takeEof s sec spec r.place, pos :: marked)
  | form =>
      if sec.explicit && s.options.userTokenManager then
        (s.warning r.place
          ("Ignoring regular expression specification since option " ++
            "USER_TOKEN_MANAGER has been set to true."),
         marked)
      else
        match sec.explicit, form with
        | true, .reference name _ =>
            (s.warning r.place
              ("Ignoring free-standing regular expression reference.  " ++
                "If you really want this, you must give it a different label as " ++
                s!"<NEWLABEL:<{name}>>."),
             pos :: marked)
        | explicit, _ =>
            if !explicit && r.isPrivate then
              (s.error r.place
                "Private (#) regular expression cannot be defined within grammar productions.",
               marked)
            else
              (s, marked)

/- Check all entries. -/
def checkSections
    (g : Grammar)
    (s : Session) : Grammar × Session :=
  let (s, marked) := (allSpecs g).foldl (checkSpec g) (s, [])
  (dropSpecs g marked, s)

------------------------------------------------------------
-- Names
------------------------------------------------------------

/- The expression is a reference. -/
def isReference
    (r : RegexNode) : Bool :=
  match r.form with
  | .reference _ _ => true
  | _ => false

/- Enter the name of one entry. -/
def collectName
    (g : Grammar)
    (s : Session)
    (id : RegexId) : Session :=
  let r := g.regex id
  if isReference r || r.label.isEmpty then
    s
  else
    let s :=
      if Assoc.contains r.label s.namedTokens then
        s.error r.place s!"Multiply defined lexical token name \"{r.label}\"."
      else
        { s with namedTokens := Assoc.insert r.label id s.namedTokens }
    if (g.stateIndex? r.label).isSome then
      s.error r.place
        s!"Lexical token name \"{r.label}\" is the same as that of a lexical state."
    else
      s

/- Enter the names of all entries. -/
def collectNames
    (g : Grammar)
    (s : Session) : Session :=
  (allSpecs g).foldl (fun s entry => collectName g s entry.2.1.regex) s

------------------------------------------------------------
-- Kinds
------------------------------------------------------------

/- String literals with one upper case form, by text. -/
abbrev Variants := Assoc String RegexId

/- The section of a token expression. -/
def sectionOf?
    (g : Grammar)
    (id : RegexId) : Option TokenSection :=
  (g.regex id).home.map g.tokenSection

/- The section of a token expression ignores case. -/
def ignoresCase
    (g : Grammar)
    (id : RegexId) : Bool :=
  ((sectionOf? g id).map (·.ignoreCase)).getD false

/- The class of a token expression. -/
def classOf
    (g : Grammar)
    (id : RegexId) : TokenClass :=
  ((sectionOf? g id).map (·.cls)).getD .token

/-
  The literal that ignores case and covers a text.  None does
  when the text itself stands there with regard to case.
-/
def coveringLiteral?
    (g : Grammar)
    (variants : Variants)
    (image : String) : Option RegexId :=
  let covering := (variants.map (·.2)).find? (ignoresCase g)
  match Assoc.get? image variants with
  | some exact => if ignoresCase g exact then covering else none
  | none => covering

/- What numbering keeps: the grammar, the session and the entries to drop. -/
structure Numbering where
  grammar : Grammar
  session : Session
  marked : List SpecPos := []

namespace Numbering

/- Give a token expression the next kind. -/
def takeKind
    (n : Numbering)
    (id : RegexId) : Numbering :=
  { n with
    grammar := n.grammar.modifyRegex id fun r => { r with kind := n.session.tokenCount },
    session := { n.session with tokenCount := n.session.tokenCount + 1 } }

/- Give a token expression the next kind unless it has one. -/
def takeKindOnce
    (n : Numbering)
    (id : RegexId) : Numbering :=
  if (n.grammar.regex id).kind == 0 then n.takeKind id else n

/- Enter a literal under its upper case form and its text. -/
def enterVariant
    (n : Numbering)
    (state upper image : String)
    (id : RegexId) : Numbering :=
  { n with
    session :=
      { n.session with
        simpleTokens :=
          Assoc.alter state
            (fun table =>
              Assoc.alter upper (fun vs => Assoc.insert image id (vs.getD []))
                (table.getD []))
            n.session.simpleTokens } }

/- Record an error. -/
def error
    (n : Numbering)
    (place : Location)
    (message : String) : Numbering :=
  { n with session := n.session.error place message }

end Numbering

/- The error about a literal that a literal ignoring case covers. -/
def coveredMessage
    (sec : TokenSection)
    (image : String)
    (other : Location) : String :=
  if sec.explicit then
    s!"Duplicate definition of string token \"{image}\" can never be matched."
  else
    s!"String \"{image}\" can never be matched due to presence of more " ++
      s!"general (IGNORE_CASE) regular expression at line {other.line}, column {other.column}."

/- The warning about a literal ignoring case that comes after others. -/
def supersededMessage
    (g : Grammar)
    (variants : Variants) : String :=
  let lines := variants.map fun (_, r) => s!" line {(g.regex r).place.line}"
  let noun := if lines.length == 1 then "string" else "strings"
  let places := String.intercalate "," lines
  s!"String with IGNORE_CASE is partially superseded by {noun} at{places}."

/-
  Number a literal whose text is already known in a state.  A
  use in a production shares the kind of the known literal.
-/
def numberRepeated
    (n : Numbering)
    (sec : TokenSection)
    (state image : String)
    (id existing : RegexId)
    (pos : SpecPos) : Numbering :=
  let place := (n.grammar.regex id).place
  let node := n.grammar.regex existing
  if sec.explicit then
    n.error place
      (if state == "DEFAULT" then
        s!"Duplicate definition of string token \"{image}\"."
      else
        s!"Duplicate definition of string token \"{image}\" in lexical state \"{state}\".")
  else if classOf n.grammar existing != .token then
    let keyword := (classOf n.grammar existing).keyword
    n.error place s!"String token \"{image}\" has been defined as a \"{keyword}\" token."
  else if node.isPrivate then
    n.error place
      s!"String token \"{image}\" has been defined as a private regular expression."
  else
    { n with
      grammar := n.grammar.modifyRegex id fun r => { r with kind := node.kind },
      marked := pos :: n.marked }

/- Number a literal in one of the states of its section. -/
def numberLiteral
    (sec : TokenSection)
    (image : String)
    (id : RegexId)
    (pos : SpecPos)
    (n : Numbering)
    (state : String) : Numbering :=
  let upper := Text.upperText image
  let table := (Assoc.get? state n.session.simpleTokens).getD []
  match Assoc.get? upper table with
  | none => (n.takeKindOnce id).enterVariant state upper image id
  | some variants =>
      let place := (n.grammar.regex id).place
      match coveringLiteral? n.grammar variants image with
      | some other =>
          n.error place (coveredMessage sec image (n.grammar.regex other).place)
      | none =>
          if sec.ignoreCase then
            let n :=
              { n with
                session := n.session.warning place (supersededMessage n.grammar variants) }
            (n.takeKindOnce id).enterVariant state upper image id
          else
            match Assoc.get? image variants with
            | some existing => numberRepeated n sec state image id existing pos
            | none => (n.takeKindOnce id).enterVariant state upper image id

/- Enter a numbered expression into the tables by kind. -/
def enterKind
    (n : Numbering)
    (id : RegexId) : Numbering :=
  let r := n.grammar.regex id
  let s := n.session
  { n with
    session :=
      { s with
        namesOfTokens :=
          if r.label.isEmpty then s.namesOfTokens
          else Assoc.insertSorted r.kind r.label s.namesOfTokens,
        regexesOfTokens :=
          Assoc.alterSorted r.kind (fun old => old.getD id) s.regexesOfTokens } }

/- Number one entry. -/
def numberSpec
    (sec : TokenSection)
    (states : List String)
    (n : Numbering)
    (entry : TokenSpec × SpecPos) : Numbering :=
  let (spec, pos) := entry
  let id := spec.regex
  match (n.grammar.regex id).form with
  | .literal image =>
      enterKind (states.foldl (numberLiteral sec image id pos) n) id
  | .reference _ _ => n
  | _ => enterKind (n.takeKind id) id

/- Number the entries of a section. -/
def numberSection
    (n : Numbering)
    (i : SectionId) : Numbering :=
  let states := n.grammar.statesOf i
  let g := n.grammar.modifySection i fun sec => { sec with states := some states }
  let sec := g.tokenSection i
  (sec.specs.zipIdx.map fun (spec, j) => (spec, (i, j))).foldl
    (numberSpec sec states) { n with grammar := g }

/- Number all token expressions. -/
def assignKinds
    (g : Grammar)
    (s : Session) : Grammar × Session :=
  let tables :=
    g.lexicalStates.foldl (fun t state => Assoc.alter state (·.getD []) t) s.simpleTokens
  let n : Numbering :=
    { grammar := g, session := { s with tokenCount := 1, simpleTokens := tables } }
  let n := (List.range g.sections.size).foldl numberSection n
  (dropSpecs n.grammar n.marked, n.session)

------------------------------------------------------------
-- References
------------------------------------------------------------

/- Let a reference stand for its target, and take over the kind. -/
def pointTo
    (g : Grammar)
    (id : RegexId)
    (name : String)
    (target : RegexId) : Grammar :=
  let kind := (g.regex target).kind
  g.modifyRegex id fun r =>
    { r with kind := kind, form := .reference name (some target) }

/- Resolve one expression below an entry. -/
def resolveReference
    (explicit : Bool)
    (root : RegexId)
    (gs : Grammar × Session)
    (id : RegexId) : Grammar × Session :=
  let (g, s) := gs
  match (g.regex id).form with
  | .reference name _ =>
      let place := (g.regex id).place
      match Assoc.get? name s.namedTokens with
      | none => (g, s.error place s!"Undefined lexical token name \"{name}\".")
      | some target =>
          let inProduction := id == root && !explicit
          if inProduction && (g.regex target).isPrivate then
            (g, s.error place
              s!"Token name \"{name}\" refers to a private (with a #) regular expression.")
          else if inProduction && classOf g target != .token then
            (g, s.error place
              (s!"Token name \"{name}\" refers to a non-token " ++
                "(SKIP, MORE, IGNORE_IN_BNF) regular expression."))
          else
            (pointTo g id name target, s)
  | _ => (g, s)

/- Resolve the references of one entry; a mere reference is dropped. -/
def resolveSpec
    (acc : Grammar × Session × List SpecPos)
    (entry : TokenSection × TokenSpec × SpecPos) : Grammar × Session × List SpecPos :=
  let (g, s, marked) := acc
  let (sec, spec, pos) := entry
  let root := spec.regex
  let (g, s) :=
    (g.regexPreOrder root).foldl (resolveReference sec.explicit root) (g, s)
  (g, s, if isReference (g.regex root) then pos :: marked else marked)

/- Resolve the references of all entries. -/
def resolveReferences
    (g : Grammar)
    (s : Session) : Grammar × Session :=
  let (g, s, marked) := (allSpecs g).foldl resolveSpec (g, s, [])
  (dropSpecs g marked, s)

------------------------------------------------------------
-- References to tokens of another token manager
------------------------------------------------------------

/- Number one entry that is a reference; a name without definition gets a kind. -/
def numberReference
    (acc : Grammar × Session × List SpecPos)
    (entry : TokenSection × TokenSpec × SpecPos) : Grammar × Session × List SpecPos :=
  let (g, s, marked) := acc
  let (_, spec, pos) := entry
  let root := spec.regex
  match (g.regex root).form with
  | .reference name _ =>
      match Assoc.get? name s.namedTokens with
      | none =>
          let kind := s.tokenCount
          (g.modifyRegex root fun r => { r with kind := kind },
           { s with
             tokenCount := kind + 1,
             namedTokens := Assoc.insert name root s.namedTokens,
             namesOfTokens := Assoc.insertSorted kind name s.namesOfTokens },
           marked)
      | some target => (pointTo g root name target, s, pos :: marked)
  | _ => (g, s, marked)

/- Warn about an entry without a name. -/
def warnUnnamed
    (g : Grammar)
    (s : Session)
    (id : RegexId) : Session :=
  let r := g.regex id
  if Assoc.contains r.kind s.namesOfTokens then
    s
  else
    s.warning r.place
      "Unlabeled regular expression cannot be referred to by user generated token manager."

/- Number the references when the token manager is written by hand. -/
def numberReferences
    (g : Grammar)
    (s : Session) : Grammar × Session :=
  let (g, s, marked) := (allSpecs g).foldl numberReference (g, s, [])
  let g := dropSpecs g marked
  (g, (allSpecs g).foldl (fun s entry => warnUnnamed g s entry.2.1.regex) s)

end TokenTable

end Descent
