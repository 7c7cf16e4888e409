import Descent.Analysis.Prefixes

/-
  This file defines the check that the lookahead of a grammar
  is enough.  At every choice and repetition the length of the
  compared beginnings is raised until the competing sets no
  longer overlap, and a warning names the length that would
  do.

  Key definitions include:
    * `Conflict.overlap`
    * `Conflict.image`
    * `Conflict.checkChoice`
    * `Conflict.checkRepetition`
    * `Conflict.check`
-/

namespace Descent

namespace Conflict

open Prefixes

------------------------------------------------------------
-- Overlap
------------------------------------------------------------

/- The outcome of comparing two lists of matches. -/
inductive Comparison where
  | disjoint
  /- An empty match was met, which ends the comparison. -/
  | stopped
  | shared (m : Match)
  deriving Repr, DecidableEq

/- Compare a match with a list; of two that agree, the shorter one is shared. -/
def compareWith
    (m : Match) : List Match → Comparison
  | [] => .disjoint
  | o :: rest =>
      let size := min m.tokens.length o.tokens.length
      if size == 0 then
        .stopped
      else if m.tokens.take size == o.tokens.take size then
        .shared (if m.tokens.length ≤ o.tokens.length then m else o)
      else
        compareWith m rest

/- Compare two lists of matches. -/
def compareAll
    (left right : List Match) : Comparison :=
  match left with
  | [] => .disjoint
  | m :: rest =>
      match compareWith m right with
      | .disjoint => compareAll rest right
      | outcome => outcome

/- The first common beginning of two lists, unless an empty match comes before it. -/
def overlap
    (left right : List Match) : Option Match :=
  match compareAll left right with
  | .shared m => some m
  | _ => none

------------------------------------------------------------
-- Wording
------------------------------------------------------------

/- A token kind as messages write it. -/
def kindImage
    (g : Grammar)
    (s : Session)
    (kind : Kind) : String :=
  if kind == 0 then
    "<EOF>"
  else
    match s.definition? g kind with
    | none => s!"<token of kind {kind}>"
    | some r =>
        match r.literal? with
        | some image => s!"\"{Text.escape image}\""
        | none =>
            if r.label.isEmpty then s!"<token of kind {kind}>" else s!"<{r.label}>"

/- A match as messages write it. -/
def image
    (g : Grammar)
    (s : Session)
    (m : Match) : String :=
  String.intercalate " " (m.tokens.map (kindImage g s))

/- The remark on a length that may not be enough. -/
def orMore
    (amount limit : Nat) : String :=
  if limit < amount then " or more" else ""

/- The warning about two alternatives. -/
def choiceMessage
    (here there : Location)
    (image : String)
    (amount limit : Nat) : String :=
  s!"Choice conflict involving two expansions at line {here.line}, column {here.column} " ++
    s!"and line {there.line}, column {there.column} respectively.\n" ++
    s!"         A common prefix is: {image}\n" ++
    s!"         Consider using a lookahead of {amount}{orMore amount limit} " ++
    "for earlier expansion."

/- The warning about a repetition. -/
def repetitionMessage
    (construct : String)
    (here : Location)
    (image : String)
    (amount limit : Nat) : String :=
  s!"Choice conflict in {construct} construct at line {here.line}, column {here.column}.\n" ++
    "         Expansion nested within construct and expansion following construct\n" ++
    s!"         have common prefixes, one of which is: {image}\n" ++
    s!"         Consider using a lookahead of {amount}{orMore amount limit} " ++
    "for nested expansion."

------------------------------------------------------------
-- Choices
------------------------------------------------------------

/- The alternative states its lookahead. -/
def isExplicit
    (g : Grammar)
    (alt : ExpId) : Bool :=
  ((g.headLookahead? alt).map (·.explicit)).getD false

/- The first alternative that is checked. -/
def firstChecked
    (g : Grammar)
    (s : Session)
    (alternatives : List ExpId) : Nat :=
  if s.options.forceLaCheck then
    0
  else
    (alternatives.takeWhile (isExplicit g)).length

/- The complete matches of an expansion. -/
def beginnings
    (c : Setting)
    (id : ExpId) : Walk (List Match) := do
  let _ ← firstSet c (← emptyMatch) id
  takeComplete

/- The beginnings of the alternatives for one length. -/
structure Beginnings where
  /- Of each alternative, where guards may stop the walk. -/
  guarded : List (List Match)
  /- Of each alternative, where guards are passed over. -/
  full : List (List Match)

/- The beginnings of the checked alternatives, all of one length. -/
def beginningsOf
    (g : Grammar)
    (s : Session)
    (checked : List ExpId)
    (limit : Nat) : Beginnings :=
  let guarded : Setting :=
    { grammar := g, session := s, limit := limit, stopAtGuards := !s.options.forceLaCheck }
  let full : Setting := { grammar := g, session := s, limit := limit }
  let walk : Walk Beginnings := do
    let left ← checked.dropLast.mapM (beginnings guarded)
    let right ← (checked.drop 1).mapM (beginnings full)
    return ⟨left, [] :: right⟩
  (walk.run {}).1

/- What has been found out about an alternative. -/
structure Finding where
  /- The length that is needed, or zero. -/
  needed : Nat := 0
  shared : Option Match := none
  /- The alternative that it is in conflict with. -/
  other : ExpId := 0
  deriving Repr, DecidableEq, Inhabited

/- The first later alternative that shares a beginning. -/
def findShared
    (left : List Match) : List (ExpId × List Match) → Option (ExpId × Match)
  | [] => none
  | (alt, right) :: rest =>
      match overlap left right with
      | some m => some (alt, m)
      | none => findShared left rest

/- Compare every alternative with the later ones, for one length. -/
def compareLater
    (limit : Nat) :
    List (List Match) → List (ExpId × List Match) → List Finding → List (Finding × Bool)
  | left :: lefts, _ :: later, f :: fs =>
      (match findShared left later with
        | some (alt, m) => ({ needed := limit + 1, shared := some m, other := alt }, true)
        | none => (f, false)) :: compareLater limit lefts later fs
  | _, _, _ => []

/- The warning about an alternative that may be empty. -/
def emptyMessage : String :=
  "This choice can expand to the empty token sequence and will " ++
    "therefore always be taken in favor of the choices after it."

/- The warning that makes further comparison pointless, for the first length. -/
def hopeless?
    (g : Grammar)
    (s : Session) : List (ExpId × List Match) → Option (Location × String)
  | [] => none
  | (alt, left) :: rest =>
      if Nullable.nullable g s alt then
        some (g.place alt, emptyMessage)
      else if left.any (·.tokens.isEmpty) then
        some (g.place alt,
          "JAVACODE non-terminal will force this choice to be taken in " ++
            "favor of the choices after it.")
      else
        hopeless? g s rest

/-
  Raise the length until no two alternatives overlap.  The
  result is a warning that ends the check, or the findings.
-/
def raiseChoice
    (g : Grammar)
    (s : Session)
    (checked : List ExpId) :
    Nat → Nat → List Finding → Except (Location × String) (List Finding)
  | 0, _, findings => .ok findings
  | left + 1, limit, findings =>
      let b := beginningsOf g s checked limit
      match (if limit == 1 then hopeless? g s (checked.zip b.guarded) else none) with
      | some warning => .error warning
      | none =>
          let next := compareLater limit b.guarded (checked.zip b.full) findings
          if next.any (·.2) then
            raiseChoice g s checked left (limit + 1) (next.map (·.1))
          else
            .ok (next.map (·.1))

/- Warn about one alternative if its lookahead is not enough. -/
def reportChoice
    (g : Grammar)
    (s : Session)
    (entry : ExpId × Finding) : Session :=
  let (alt, f) := entry
  if (isExplicit g alt && !s.options.forceLaCheck) || f.needed ≤ 1 then
    s
  else
    let text := (f.shared.map (image g s)).getD ""
    s.warning (g.place alt)
      (choiceMessage (g.place alt) (g.place f.other) text f.needed
        s.options.choiceAmbiguityCheck)

/- Check a choice; other expansions are left alone. -/
def checkChoice
    (g : Grammar)
    (s : Session)
    (id : ExpId) : Session :=
  match g.form id with
  | .choice alternatives =>
      if alternatives.length < 2 then
        s
      else
        let checked := alternatives.drop (firstChecked g s alternatives)
        let start := checked.dropLast.map fun _ => ({} : Finding)
        match raiseChoice g s checked s.options.choiceAmbiguityCheck 1 start with
        | .error (place, message) => s.warning place message
        | .ok findings => (checked.zip findings).foldl (reportChoice g) s
  | _ => s

------------------------------------------------------------
-- Repetitions
------------------------------------------------------------

/- How a repetition is written. -/
def construct
    (g : Grammar)
    (id : ExpId) : String :=
  match g.form id with
  | .oneOrMore _ => "(...)+"
  | .zeroOrMore _ => "(...)*"
  | _ => "[...]"

/- What a body starts with and what follows its repetition, for one length. -/
def sidesOf
    (g : Grammar)
    (s : Session)
    (id body : ExpId)
    (limit : Nat) : List Match × List Match :=
  let guarded : Setting :=
    { grammar := g, session := s, limit := limit, stopAtGuards := !s.options.forceLaCheck }
  let full : Setting := { grammar := g, session := s, limit := limit }
  let walk : Walk (List Match × List Match) := do
    let start ← emptyMatch
    let _ ← firstSet guarded start body
    let first ← takeComplete
    let _ ← followSet full start id (← newRound)
    let follow ← takeComplete
    return (first, follow)
  (walk.run {}).1

/- The warning about a body that begins with code written by hand. -/
def codeMessage
    (construct : String) : String :=
  s!"JAVACODE non-terminal within {construct} construct will force this construct " ++
    "to be entered in favor of expansions occurring after construct."

/-
  Raise the length until body and followers no longer overlap.
  The result is the length reached and the last common
  beginning.
-/
def raiseRepetition
    (g : Grammar)
    (id body : ExpId) :
    Nat → Nat → Option Match → Session → Session × Nat × Option Match
  | 0, limit, last, s => (s, limit, last)
  | left + 1, limit, last, s =>
      let (first, follow) := sidesOf g s id body limit
      let s :=
        if limit == 1 && first.any (·.tokens.isEmpty) then
          s.warning (g.place body) (codeMessage (construct g id))
        else
          s
      match overlap first follow with
      | some m => raiseRepetition g id body left (limit + 1) (some m) s
      | none => (s, limit, last)

/- Check a repetition with the given body. -/
def checkRepetition
    (g : Grammar)
    (s : Session)
    (id body : ExpId) : Session :=
  let max := s.options.otherAmbiguityCheck
  let (s, needed, last) := raiseRepetition g id body max 1 none s
  if needed ≤ 1 then
    s
  else
    let text := (last.map (image g s)).getD ""
    s.warning (g.place id)
      (repetitionMessage (construct g id) (g.place id) text needed max)

------------------------------------------------------------
-- All choice points
------------------------------------------------------------

/- The body of a repetition. -/
def repetitionBody?
    (g : Grammar)
    (id : ExpId) : Option ExpId :=
  (Nullable.repetition? g id).map (·.1)

/- Check one expansion if it is a choice point whose lookahead matters. -/
def checkNode
    (g : Grammar)
    (s : Session)
    (id : ExpId) : Session :=
  let o := s.options
  match g.form id, repetitionBody? g id with
  | .choice _, _ =>
      if o.lookahead == 1 || o.forceLaCheck then checkChoice g s id else s
  | _, some body =>
      if o.forceLaCheck || (!isExplicit g body && o.lookahead == 1) then
        checkRepetition g s id body
      else
        s
  | _, none => s

/- What a lookahead looks for is not checked. -/
def isNoLookahead : Expansion → Bool
  | .lookahead _ => false
  | _ => true

/- Check all choice points. -/
def check
    (g : Grammar)
    (s : Session) : Session :=
  ((g.productions.toList.filterMap Production.expansion?).flatMap
    (g.preOrder isNoLookahead)).foldl (checkNode g) s

end Conflict

end Descent
