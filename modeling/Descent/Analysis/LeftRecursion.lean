import Descent.Analysis.Nullable

/-
  This file defines the search for left recursion.  A
  production is linked to those that it can begin with before
  any token, and a walk along the links reports each cycle at
  the production where it closes.

  Key definitions include:
    * `LeftRecursion.leftMost`
    * `LeftRecursion.walk`
    * `LeftRecursion.check`
-/

namespace Descent

namespace LeftRecursion

------------------------------------------------------------
-- Links
------------------------------------------------------------

/- Append a production unless it is already there. -/
def pushNew
    (ps : List ProdId)
    (p : ProdId) : List ProdId :=
  if ps.contains p then ps else ps ++ [p]

/- The productions that an expansion can begin with, looked at to a given depth. -/
def leftMostTo
    (g : Grammar)
    (s : Session) : Nat → ExpId → List ProdId
  | 0, _ => []
  | depth + 1, id =>
      match g.form id with
      | .nonterminal name _ _ => (s.production? name).toList
      | .oneOrMore body => leftMostTo g s depth body
      | .zeroOrMore body => leftMostTo g s depth body
      | .zeroOrOne body => leftMostTo g s depth body
      | .choice alternatives => alternatives.flatMap (leftMostTo g s depth)
      | .sequence units =>
          let passed := units.takeWhile (Nullable.nullable g s)
          (units.take (passed.length + 1)).flatMap (leftMostTo g s depth)
      | .tryBlock body _ _ => leftMostTo g s depth body
      | .terminal _ _ _ => []
      | .action _ => []
      | .lookahead _ => []

/- The productions that an expansion can begin with, each once. -/
def leftMost
    (g : Grammar)
    (s : Session)
    (id : ExpId)
    (known : List ProdId) : List ProdId :=
  (leftMostTo g s (g.expansions.size + 1) id).foldl pushNew known

/- Link all productions. -/
def link
    (g : Grammar)
    (s : Session) : Session :=
  let left :=
    g.productions.toList.zipIdx.foldl
      (fun (left : Array (List ProdId)) (p, i) =>
        match p.expansion? with
        | some body => left.modify i (leftMost g s body)
        | none => left)
      s.facts.leftExpansions
  { s with facts := { s.facts with leftExpansions := left } }

------------------------------------------------------------
-- Cycles
------------------------------------------------------------

/- How far a walk has come with a production. -/
def statusOf
    (s : Session)
    (p : ProdId) : WalkStatus :=
  s.facts.walkStatus.getD p .done

/- Note how far a walk has come with a production. -/
def setStatus
    (s : Session)
    (p : ProdId)
    (status : WalkStatus) : Session :=
  { s with
    facts := { s.facts with walkStatus := s.facts.walkStatus.setIfInBounds p status } }

/-
  Leave a production on an open cycle, spelled so far.  The
  cycle is reported where it closes; elsewhere it stays open.
-/
def leave
    (g : Grammar)
    (s : Session)
    (p : ProdId)
    (spelled : String) : Session × Option String :=
  let closes := statusOf s p == .onStackReported
  let s := setStatus s p .done
  if closes then
    (s.error (g.production p).place s!"Left recursion detected: \"{spelled}\"", none)
  else
    (s, some spelled)

mutual

/- Walk from a production; an open cycle is handed back as spelled. -/
def walk
    (g : Grammar) : Nat → Session → ProdId → Session × Option String
  | 0, s, _ => (s, none)
  | fuel + 1, s, p =>
      walkLinks g fuel p (s.facts.leftExpansions.getD p []) (setStatus s p .onStack)

/- Walk along the remaining links of a production. -/
def walkLinks
    (g : Grammar)
    (fuel : Nat)
    (p : ProdId) : List ProdId → Session → Session × Option String
  | [], s => (setStatus s p .done, none)
  | next :: rest, s =>
      let name := (g.production p).name
      match statusOf s next with
      | .onStack =>
          let s := setStatus s next .onStackReported
          leave g s p s!"{name}... --> {(g.production next).name}..."
      | .unvisited =>
          match walk g fuel s next with
          | (s, some spelled) => leave g s p s!"{name}... --> {spelled}"
          | (s, none) => walkLinks g fuel p rest s
      | _ => walkLinks g fuel p rest s

end

/- Look for cycles from every production that no walk has reached. -/
def check
    (g : Grammar)
    (s : Session) : Session :=
  (List.range g.productions.size).foldl
    (fun s p =>
      if statusOf s p == .unvisited then
        (walk g (g.productions.size + 1) s p).1
      else
        s)
    (link g s)

end LeftRecursion

end Descent
