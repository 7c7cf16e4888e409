import Descent.Automaton.Thompson
import Descent.Session

/-
  This file defines the search for token expressions that
  refer to themselves.  A walk along the references reports
  each loop at the expression where it closes.

  Key definitions include:
    * `RegexLoop.walk`
    * `RegexLoop.check`
-/

namespace Descent

namespace RegexLoop

/- What a walk keeps: how far it has come with each expression, and the session. -/
structure Search where
  status : Assoc RegexId WalkStatus := []
  session : Session

namespace Search

/- How far the walk has come with an expression. -/
def statusOf
    (w : Search)
    (id : RegexId) : WalkStatus :=
  (Assoc.get? id w.status).getD .unvisited

/- Note how far the walk has come with an expression. -/
def setStatus
    (w : Search)
    (id : RegexId)
    (status : WalkStatus) : Search :=
  { w with status := Assoc.insert id status w.status }

/- Report a loop at the expression where it closes. -/
def report
    (w : Search)
    (place : Location)
    (spelled : String) : Search :=
  { w with
    session :=
      w.session.error place s!"Loop in regular expression detected: \"{spelled}\"" }

end Search

mutual

/- Walk from an expression; an open loop is handed back as spelled. -/
def walk
    (g : Grammar) : Nat → Search → RegexId → Search × Option String
  | 0, w, _ => (w, none)
  | fuel + 1, w, id =>
      match (g.regex id).form with
      | .reference _ (some target) =>
          let label := (g.regex target).label
          match w.statusOf target with
          | .onStack =>
              (w.setStatus target .onStackReported, some s!"...{label}...")
          | .unvisited =>
              match walk g fuel (w.setStatus target .onStack) target with
              | (w, some spelled) =>
                  let spelled := s!"...{label}... --> {spelled}"
                  let closes := w.statusOf target == .onStackReported
                  let w := w.setStatus target .done
                  if closes then
                    (w.report (g.regex target).place spelled, none)
                  else
                    (w, some spelled)
              | (w, none) => (w.setStatus target .done, none)
          | _ => (w, none)
      | .reference _ none => (w, none)
      | _ => walkParts g fuel (g.regexChildren id) w

/- Walk from the parts of an expression until a loop is open. -/
def walkParts
    (g : Grammar)
    (fuel : Nat) : List RegexId → Search → Search × Option String
  | [], w => (w, none)
  | part :: rest, w =>
      match walk g fuel w part with
      | (w, some spelled) => (w, some spelled)
      | (w, none) => walkParts g fuel rest w

end

/- Walk from one entry of a token section. -/
def checkSpec
    (g : Grammar)
    (w : Search)
    (id : RegexId) : Search :=
  if w.statusOf id != .unvisited then
    w
  else
    match walk g (Thompson.depthBound g) (w.setStatus id .onStack) id with
    | (w, some spelled) =>
        let label := (g.regex id).label
        (w.report (g.regex id).place s!"...{label}... --> {spelled}").setStatus id .done
    | (w, none) => w.setStatus id .done

/- Walk from all entries. -/
def check
    (g : Grammar)
    (s : Session) : Session :=
  let roots := g.sections.toList.flatMap fun sec => sec.specs.map (·.regex)
  (roots.foldl (checkSpec g) { session := s }).session

end RegexLoop

end Descent
