import Descent.Language
import Descent.Location
import Descent.Text.Escape

/-
  This file defines grammars: expansions, token expressions,
  productions and token sections.  The nodes are kept in
  arrays and refer to each other by index, because recursive
  productions and shared token expressions make the whole a
  graph, and because tables of later stages are kept beside
  the nodes.

  Key definitions include:
    * `Expansion`
    * `Regex`
    * `TokenSection`
    * `Production`
    * `Grammar`
    * `Grammar.children`
    * `Grammar.headLookahead?`
-/

namespace Descent

------------------------------------------------------------
-- Indices
------------------------------------------------------------

/- Index of an expansion. -/
abbrev ExpId := Nat

/- Index of a token expression. -/
abbrev RegexId := Nat

/- Index of a production. -/
abbrev ProdId := Nat

/- Index of a token section. -/
abbrev SectionId := Nat

/- The number of a token kind; zero is the end of the file. -/
abbrev Kind := Nat

/- A lookahead of as many tokens as it takes. -/
def unbounded : Nat := 4294967295

------------------------------------------------------------
-- Expansions
------------------------------------------------------------

/- What an expansion belongs to. -/
inductive Owner where
  | node (id : ExpId)
  | production (id : ProdId)
  deriving Repr, DecidableEq

/- The lookahead at the head of a sequence. -/
structure Lookahead where
  /- The number of tokens to look at. -/
  amount : Nat
  /- Stated in the grammar rather than implied. -/
  explicit : Bool
  /- A condition in the host language. -/
  guard : Option String
  /- What is looked for, mostly the sequence itself. -/
  target : Option ExpId
  deriving Repr, DecidableEq

/- A clause that catches an exception. -/
structure CatchClause where
  type : String
  name : String
  code : String
  deriving Repr, DecidableEq

/- The body of a production and its parts. -/
inductive Expansion where
  | terminal (regex : RegexId) (result : Option String) (member : Option String)
  | nonterminal (name : String) (result : Option String) (args : String)
  /- The first unit is the lookahead of the sequence. -/
  | sequence (units : List ExpId)
  | choice (alternatives : List ExpId)
  | oneOrMore (body : ExpId)
  | zeroOrMore (body : ExpId)
  | zeroOrOne (body : ExpId)
  | tryBlock (body : ExpId) (catches : List CatchClause) (cleanup : Option String)
  | action (code : String)
  | lookahead (spec : Lookahead)
  deriving Repr, DecidableEq

instance : Inhabited Expansion :=
  ⟨.action ""⟩

/- An expansion, its owner and its place. -/
structure ExpNode where
  form : Expansion
  owner : Option Owner := none
  place : Location := {}
  deriving Repr, DecidableEq, Inhabited

------------------------------------------------------------
-- Token expressions
------------------------------------------------------------

/- An item of a character list, by code points. -/
inductive CharItem where
  | single (c : Nat)
  | range (lo hi : Nat)
  deriving Repr, DecidableEq

/- A regular expression that describes tokens. -/
inductive Regex where
  | literal (image : String)
  | chars (negated : Bool) (items : List CharItem)
  /- A named token; analysis fills in its definition. -/
  | reference (name : String) (target : Option RegexId)
  | sequence (units : List RegexId)
  | choice (alternatives : List RegexId)
  | oneOrMore (body : RegexId)
  | zeroOrMore (body : RegexId)
  | zeroOrOne (body : RegexId)
  | repetition (body : RegexId) (least : Nat) (most : Option Nat)
  | endOfFile
  deriving Repr, DecidableEq

instance : Inhabited Regex :=
  ⟨.endOfFile⟩

/- A token expression with what the grammar says about it. -/
structure RegexNode where
  form : Regex
  /- Empty for an expression without a name. -/
  label : String := ""
  /- The token kind that analysis gives to it. -/
  kind : Kind := 0
  /- Usable in other token expressions only. -/
  isPrivate : Bool := false
  home : Option SectionId := none
  place : Location := {}
  deriving Repr, DecidableEq, Inhabited

namespace RegexNode

/- The expression that matches any one character. -/
def matchesAnyChar
    (r : RegexNode) : Bool :=
  match r.form with
  | .chars true [] => true
  | _ => false

/- The text of a string literal. -/
def literal?
    (r : RegexNode) : Option String :=
  match r.form with
  | .literal image => some image
  | _ => none

end RegexNode

------------------------------------------------------------
-- Token sections
------------------------------------------------------------

/- What the scanner does with a match. -/
inductive TokenClass where
  | token
  | skip
  | more
  | special
  deriving Repr, DecidableEq, Inhabited

/- The keyword of a token class. -/
def TokenClass.keyword : TokenClass → String
  | .token => "TOKEN"
  | .skip => "SKIP"
  | .more => "MORE"
  | .special => "SPECIAL"

/- One entry of a token section. -/
structure TokenSpec where
  regex : RegexId
  action : Option String := none
  nextState : Option String := none
  nextStatePlace : Location := {}
  deriving Repr, DecidableEq, Inhabited

/- A group of tokens that share lexical states and a class. -/
structure TokenSection where
  /- `none` stands for every state. -/
  states : Option (List String)
  cls : TokenClass
  ignoreCase : Bool := false
  /- Written as a section rather than implied by a production. -/
  explicit : Bool := true
  specs : List TokenSpec := []
  place : Location := {}
  deriving Repr, DecidableEq, Inhabited

------------------------------------------------------------
-- Productions
------------------------------------------------------------

/- What a production consists of. -/
inductive ProductionBody where
  | rules (expansion : ExpId) (declarations : String)
  /- A method written by hand in the given language. -/
  | code (language : Language) (text : String)
  deriving Repr, DecidableEq

instance : Inhabited ProductionBody :=
  ⟨.code .java ""⟩

/- A production with the parts of its method header. -/
structure Production where
  name : String
  place : Location := {}
  body : ProductionBody
  returnType : String := "void"
  params : String := ""
  access : Option String := none
  throws : List String := []
  /- Some action leaves the method, so its end needs a closing throw. -/
  jumpPatched : Bool := false
  deriving Repr, DecidableEq, Inhabited

namespace Production

/- The expansion of a production that is not written by hand. -/
def expansion?
    (p : Production) : Option ExpId :=
  match p.body with
  | .rules e _ => some e
  | .code _ _ => none

/- The production is a method written by hand. -/
def isCode
    (p : Production) : Bool :=
  match p.body with
  | .rules _ _ => false
  | .code _ _ => true

/- The method returns nothing. -/
def isVoid
    (p : Production) : Bool :=
  Text.trim p.returnType == "void"

end Production

------------------------------------------------------------
-- Grammars
------------------------------------------------------------

/- A grammar. -/
structure Grammar where
  expansions : Array ExpNode := #[]
  regexes : Array RegexNode := #[]
  productions : Array Production := #[]
  sections : Array TokenSection := #[]
  lexicalStates : List String := []
  deriving Repr, DecidableEq, Inhabited

namespace Grammar

/- The node of an expansion. -/
def node
    (g : Grammar)
    (id : ExpId) : ExpNode :=
  g.expansions.getD id default

/- The form of an expansion. -/
def form
    (g : Grammar)
    (id : ExpId) : Expansion :=
  (g.node id).form

/- The place of an expansion. -/
def place
    (g : Grammar)
    (id : ExpId) : Location :=
  (g.node id).place

/- The node of a token expression. -/
def regex
    (g : Grammar)
    (id : RegexId) : RegexNode :=
  g.regexes.getD id default

/- A production. -/
def production
    (g : Grammar)
    (id : ProdId) : Production :=
  g.productions.getD id default

/- A token section. -/
def tokenSection
    (g : Grammar)
    (id : SectionId) : TokenSection :=
  g.sections.getD id default

/- Change the node of an expansion. -/
def modifyNode
    (g : Grammar)
    (id : ExpId)
    (f : ExpNode → ExpNode) : Grammar :=
  { g with expansions := g.expansions.modify id f }

/- Change the node of a token expression. -/
def modifyRegex
    (g : Grammar)
    (id : RegexId)
    (f : RegexNode → RegexNode) : Grammar :=
  { g with regexes := g.regexes.modify id f }

/- Change a token section. -/
def modifySection
    (g : Grammar)
    (id : SectionId)
    (f : TokenSection → TokenSection) : Grammar :=
  { g with sections := g.sections.modify id f }

/- Change a production. -/
def modifyProduction
    (g : Grammar)
    (id : ProdId)
    (f : Production → Production) : Grammar :=
  { g with productions := g.productions.modify id f }

/- Make an expansion the owner of others. -/
def adopt
    (g : Grammar)
    (owner : ExpId)
    (children : List ExpId) : Grammar :=
  children.foldl
    (fun g child => g.modifyNode child fun n => { n with owner := some (.node owner) })
    g

/- Add an expansion without an owner. -/
def addExpansion
    (g : Grammar)
    (form : Expansion)
    (place : Location) : ExpId × Grammar :=
  (g.expansions.size,
   { g with expansions := g.expansions.push { form := form, place := place } })

/- Add a token expression. -/
def addRegex
    (g : Grammar)
    (form : Regex)
    (place : Location) : RegexId × Grammar :=
  (g.regexes.size,
   { g with regexes := g.regexes.push { form := form, place := place } })

------------------------------------------------------------
-- Parts of an expansion
------------------------------------------------------------

/- A lookahead stands at the head of a sequence. -/
def isHeadOf
    (g : Grammar)
    (la seq : ExpId) : Bool :=
  match g.form seq with
  | .sequence (u :: _) => u == la
  | _ => false

/-
  The direct parts of an expansion.  A lookahead that looks
  for its own sequence has none.
-/
def children
    (g : Grammar)
    (id : ExpId) : List ExpId :=
  match g.form id with
  | .sequence units => units
  | .choice alternatives => alternatives
  | .oneOrMore body => [body]
  | .zeroOrMore body => [body]
  | .zeroOrOne body => [body]
  | .tryBlock body _ _ => [body]
  | .lookahead la =>
      match la.target with
      | some e => if g.isHeadOf id e then [] else [e]
      | none => []
  | .terminal _ _ _ => []
  | .nonterminal _ _ _ => []
  | .action _ => []

/- The lookahead at the head of a sequence. -/
def headLookahead?
    (g : Grammar)
    (seq : ExpId) : Option Lookahead :=
  match g.form seq with
  | .sequence (u :: _) =>
      match g.form u with
      | .lookahead la => some la
      | _ => none
  | _ => none

/- The owner of an expansion, if it is an expansion. -/
def ownerNode?
    (g : Grammar)
    (id : ExpId) : Option ExpId :=
  match (g.node id).owner with
  | some (.node p) => some p
  | _ => none

/- The expansion is the whole body of a production. -/
def isProductionBody
    (g : Grammar)
    (id : ExpId) : Bool :=
  match (g.node id).owner with
  | some (.production _) => true
  | _ => false

/- The direct parts of a token expression; a reference has none. -/
def regexChildren
    (g : Grammar)
    (id : RegexId) : List RegexId :=
  match (g.regex id).form with
  | .sequence units => units
  | .choice alternatives => alternatives
  | .oneOrMore body => [body]
  | .zeroOrMore body => [body]
  | .zeroOrOne body => [body]
  | .repetition body _ _ => [body]
  | .literal _ => []
  | .chars _ _ => []
  | .reference _ _ => []
  | .endOfFile => []

------------------------------------------------------------
-- Lexical states
------------------------------------------------------------

/- The lexical states of a token section. -/
def statesOf
    (g : Grammar)
    (id : SectionId) : List String :=
  (g.tokenSection id).states.getD g.lexicalStates

/- The number of a lexical state. -/
def stateIndex?
    (g : Grammar)
    (name : String) : Option Nat :=
  g.lexicalStates.findIdx? (· == name)

end Grammar

end Descent
