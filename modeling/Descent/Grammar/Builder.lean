import Descent.Grammar.Basic

/-
  This file defines how grammars are put together.  Every
  sequence gets a lookahead at its head, every alternative of
  a choice is a sequence, and a token expression that is used
  in a production gets a token section of its own in the
  default state.

  Key definitions include:
    * `Builder`
    * `Build`
    * the operations in the namespace `Build`
-/

namespace Descent

/- The lexical state in which scanning starts. -/
def defaultState : String := "DEFAULT"

/- A grammar in the making. -/
structure Builder where
  grammar : Grammar := { lexicalStates := [defaultState] }
  /- The amount of lookaheads that state none. -/
  defaultLookahead : Nat := 1
  /- The place of the next node; each node moves it one column on. -/
  nextPlace : Location := ⟨1, 1⟩
  deriving Repr, DecidableEq, Inhabited

/- A step that adds to a grammar in the making. -/
abbrev Build := StateM Builder

namespace Build

------------------------------------------------------------
-- Places and nodes
------------------------------------------------------------

/- Go to the start of a line. -/
def atLine
    (line : Nat) : Build Unit :=
  modify fun b => { b with nextPlace := ⟨line, 1⟩ }

/- Take the next place. -/
def takePlace : Build Location :=
  modifyGet fun b =>
    (b.nextPlace,
     { b with nextPlace := ⟨b.nextPlace.line, b.nextPlace.column + 1⟩ })

/- Read something off the grammar so far. -/
def look
    {α : Type}
    (f : Grammar → α) : Build α :=
  return f (← get).grammar

/- Change the grammar so far. -/
def change
    (f : Grammar → Grammar) : Build Unit :=
  modify fun b => { b with grammar := f b.grammar }

/- Add an expansion at a place. -/
def expansionAt
    (form : Expansion)
    (place : Location) : Build ExpId :=
  modifyGet fun b =>
    let (id, g) := b.grammar.addExpansion form place
    (id, { b with grammar := g })

/- Add a token expression at the next place. -/
def regexNode
    (form : Regex) : Build RegexId := do
  let place ← takePlace
  modifyGet fun b =>
    let (id, g) := b.grammar.addRegex form place
    (id, { b with grammar := g })

------------------------------------------------------------
-- Token expressions
------------------------------------------------------------

/- A string literal. -/
def rxLiteral
    (image : String) : Build RegexId :=
  regexNode (.literal image)

/- A list of characters. -/
def rxChars
    (negated : Bool)
    (items : List CharItem) : Build RegexId :=
  regexNode (.chars negated items)

/- A range of characters. -/
def rxRange
    (lo hi : Nat) : Build RegexId :=
  rxChars false [.range lo hi]

/- Any one character. -/
def rxAny : Build RegexId :=
  rxChars true []

/- A reference to a named token. -/
def rxReference
    (name : String) : Build RegexId :=
  regexNode (.reference name none)

/- Expressions one after the other. -/
def rxSequence
    (units : List RegexId) : Build RegexId :=
  regexNode (.sequence units)

/- One of several expressions. -/
def rxChoice
    (alternatives : List RegexId) : Build RegexId :=
  regexNode (.choice alternatives)

/- An expression once or more. -/
def rxOneOrMore
    (body : RegexId) : Build RegexId :=
  regexNode (.oneOrMore body)

/- An expression any number of times. -/
def rxZeroOrMore
    (body : RegexId) : Build RegexId :=
  regexNode (.zeroOrMore body)

/- An expression or nothing. -/
def rxZeroOrOne
    (body : RegexId) : Build RegexId :=
  regexNode (.zeroOrOne body)

/- An expression as often as the bounds say. -/
def rxRepetition
    (body : RegexId)
    (least : Nat)
    (most : Option Nat) : Build RegexId :=
  regexNode (.repetition body least most)

/- The end of the file. -/
def rxEndOfFile : Build RegexId :=
  regexNode .endOfFile

/- Name a token expression. -/
def label
    (id : RegexId)
    (name : String) : Build RegexId := do
  change (·.modifyRegex id fun r => { r with label := name })
  return id

/- Name a token expression that only others may use. -/
def privateLabel
    (id : RegexId)
    (name : String) : Build RegexId := do
  change (·.modifyRegex id fun r => { r with label := name, isPrivate := true })
  return id

------------------------------------------------------------
-- Token sections
------------------------------------------------------------

/- Declare a lexical state. -/
def declareState
    (name : String) : Build Unit :=
  change fun g =>
    if g.lexicalStates.contains name then
      g
    else
      { g with lexicalStates := g.lexicalStates ++ [name] }

/- Add a token section. -/
def addSection
    (s : TokenSection) : Build SectionId :=
  modifyGet fun b =>
    (b.grammar.sections.size,
     { b with
       grammar := { b.grammar with sections := b.grammar.sections.push s } })

/- Begin a token section; `none` stands for every state. -/
def tokenSection
    (states : Option (List String))
    (cls : TokenClass)
    (ignoreCase : Bool) : Build SectionId := do
  (states.getD []).forM declareState
  let place ← takePlace
  addSection { states := states, cls := cls, ignoreCase := ignoreCase, place := place }

/- Give a token expression to a section. -/
def enlist
    (home : SectionId)
    (spec : TokenSpec) : Build Unit := do
  change (·.modifyRegex spec.regex fun r => { r with home := some home })
  change (·.modifySection home fun s => { s with specs := s.specs ++ [spec] })

/- Add an entry to a token section. -/
def tokenSpec
    (home : SectionId)
    (regex : RegexId)
    (action nextState : Option String) : Build Unit := do
  let place ← takePlace
  enlist home
    { regex := regex, action := action, nextState := nextState, nextStatePlace := place }

/- A named token in a section of its own in the default state. -/
def token
    (name : String)
    (regex : RegexId) : Build RegexId := do
  let home ← tokenSection (some [defaultState]) .token false
  let _ ← label regex name
  tokenSpec home regex none none
  return regex

/- The section that the use of a token expression in a production implies. -/
def impliedSection
    (regex : RegexId) : Build Unit := do
  let r ← look (·.regex regex)
  match r.form with
  | .endOfFile => return ()
  | _ =>
      let home ← addSection
        { states := some [defaultState], cls := .token, explicit := false,
          place := r.place }
      enlist home { regex := regex, nextStatePlace := r.place }

------------------------------------------------------------
-- Expansions
------------------------------------------------------------

/- A token expression used in a production. -/
def terminal
    (regex : RegexId) : Build ExpId := do
  impliedSection regex
  let place ← look fun g => (g.regex regex).place
  expansionAt (.terminal regex none none) place

/- A string literal used in a production. -/
def literal
    (image : String) : Build ExpId := do
  terminal (← rxLiteral image)

/- A named token used in a production. -/
def tokenReference
    (name : String) : Build ExpId := do
  terminal (← rxReference name)

/- The end of the file used in a production. -/
def endOfFile : Build ExpId := do
  terminal (← rxEndOfFile)

/- Keep the result of a terminal or nonterminal. -/
def assign
    (id : ExpId)
    (result : String)
    (member : Option String) : Build ExpId := do
  change (·.modifyNode id fun n =>
    match n.form with
    | .terminal r _ _ => { n with form := .terminal r (some result) member }
    | .nonterminal name _ args =>
        { n with form := .nonterminal name (some result) args }
    | _ => n)
  return id

/- A call of a production. -/
def nonterminal
    (name args : String) : Build ExpId := do
  expansionAt (.nonterminal name none args) (← takePlace)

/- Code of the host language. -/
def action
    (code : String) : Build ExpId := do
  expansionAt (.action code) (← takePlace)

/- A sequence with the lookahead at its head. -/
def headedSequence
    (amount : Nat)
    (explicit : Bool)
    (guard : Option String)
    (scan : Option ExpId)
    (units : List ExpId) : Build ExpId := do
  let place ← takePlace
  let la ← expansionAt (.lookahead ⟨amount, explicit, guard, none⟩) place
  let seq ← expansionAt (.sequence (la :: units)) place
  change (·.adopt seq (la :: units))
  change (·.modifyNode la fun n =>
    { n with form := .lookahead ⟨amount, explicit, guard, some (scan.getD seq)⟩ })
  match scan with
  | some s => change (·.adopt la [s])
  | none => pure ()
  return seq

/- A sequence with the default lookahead. -/
def sequence
    (units : List ExpId) : Build ExpId := do
  headedSequence (← get).defaultLookahead false none none units

/-
  A sequence with a stated lookahead.  Without an amount it is
  unbounded if there is something to look for, zero if there
  is only a guard, and the default amount otherwise.
-/
def lookaheadSequence
    (amount : Option Nat)
    (scan : Option ExpId)
    (guard : Option String)
    (units : List ExpId) : Build ExpId := do
  let b ← get
  let amount := match amount, scan, guard with
    | some n, _, _ => n
    | none, some _, _ => unbounded
    | none, none, some _ => 0
    | none, none, none => b.defaultLookahead
  headedSequence amount true guard scan units

/- An expansion as a sequence. -/
def asSequence
    (id : ExpId) : Build ExpId := do
  match ← look (·.form id) with
  | .sequence _ => return id
  | _ => sequence [id]

/- One of several expansions. -/
def choice
    (alternatives : List ExpId) : Build ExpId := do
  let alternatives ← alternatives.mapM asSequence
  let place ← match alternatives with
    | first :: _ => look (·.place first)
    | [] => takePlace
  let id ← expansionAt (.choice alternatives) place
  change (·.adopt id alternatives)
  return id

/- The body of a repetition: a sequence or a choice. -/
def repetitionBody
    (id : ExpId) : Build ExpId := do
  match ← look (·.form id) with
  | .sequence _ => return id
  | .choice _ => return id
  | _ => sequence [id]

/- A repetition of the given form. -/
def repeated
    (make : ExpId → Expansion)
    (body : ExpId) : Build ExpId := do
  let body ← repetitionBody body
  let place ← takePlace
  let id ← expansionAt (make body) place
  change (·.adopt id [body])
  return id

/- An expansion once or more. -/
def oneOrMore
    (body : ExpId) : Build ExpId :=
  repeated .oneOrMore body

/- An expansion any number of times. -/
def zeroOrMore
    (body : ExpId) : Build ExpId :=
  repeated .zeroOrMore body

/- An expansion or nothing. -/
def zeroOrOne
    (body : ExpId) : Build ExpId :=
  repeated .zeroOrOne body

/- An expansion whose exceptions are caught. -/
def tryBlock
    (body : ExpId)
    (catches : List CatchClause)
    (cleanup : Option String) : Build ExpId := do
  let body ← asSequence body
  let place ← takePlace
  let id ← expansionAt (.tryBlock body catches cleanup) place
  change (·.adopt id [body])
  return id

------------------------------------------------------------
-- Productions
------------------------------------------------------------

/- Add a production. -/
def addProduction
    (p : Production) : Build ProdId :=
  modifyGet fun b =>
    (b.grammar.productions.size,
     { b with
       grammar := { b.grammar with productions := b.grammar.productions.push p } })

/- A production with a body. -/
def production
    (name returnType params : String)
    (body : ExpId) : Build ProdId := do
  let body ← asSequence body
  let place ← look (·.place body)
  let id ← addProduction
    { name := name, place := place, body := .rules body "",
      returnType := returnType, params := params }
  change (·.modifyNode body fun n => { n with owner := some (.production id) })
  return id

/- A production that is a method written by hand. -/
def codeProduction
    (name : String)
    (language : Language)
    (returnType code : String) : Build ProdId := do
  let place ← takePlace
  addProduction
    { name := name, place := place, body := .code language code, returnType := returnType }

end Build

end Descent
