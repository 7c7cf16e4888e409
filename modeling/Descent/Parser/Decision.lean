import Descent.Output.Fragment
import Descent.Parser.First

/-
  This file defines the decisions of a generated parser.  Each
  alternative is decided in one of three ways: it cannot fail
  but for its guard, it is chosen by the next token, or it is
  looked for ahead of the parser.  Decisions are built as
  trees and written as nested statements.

  Key definitions include:
    * `Condition`
    * `Condition.strategy`
    * `Decision`
    * `Decision.build`
    * `Decision.render`
-/

namespace Descent

------------------------------------------------------------
-- Conditions
------------------------------------------------------------

/- When an alternative is taken. -/
structure Condition where
  /- The number of tokens to look at. -/
  amount : Nat
  guard : Option String
  /- What is looked for. -/
  target : ExpId
  deriving Repr, DecidableEq, Inhabited

/- The condition of an alternative of a choice. -/
def conditionOfSequence
    (g : Grammar)
    (s : Session)
    (seq : ExpId) : Condition :=
  match g.headLookahead? seq with
  | some la => ⟨la.amount, la.guard, la.target.getD seq⟩
  | none => ⟨s.options.lookahead, none, seq⟩

/- How an alternative is decided. -/
inductive Strategy where
  /- Nothing but the guard can fail. -/
  | trivial
  /- The next token is one of these kinds. -/
  | byKind (kinds : List Kind)
  /- The expansion is looked for ahead of the parser. -/
  | scan
  deriving Repr, DecidableEq

/-
  How a condition is decided.  One token decides only if the
  condition has no guard and none is met before the token.
-/
def Condition.strategy
    (g : Grammar)
    (s : Session)
    (c : Condition) : Strategy :=
  if c.amount == 0 || Nullable.nullable g s c.target || beginsWithCode g s c.target then
    .trivial
  else if c.amount == 1 && c.guard.isNone then
    let first := firstOf g s c.target
    if first.guarded then .scan else .byKind first.kinds.kinds
  else
    .scan

------------------------------------------------------------
-- Trees
------------------------------------------------------------

/- What a test of generated code asks. -/
inductive Test where
  | guard (code : String)
  /- The entry point into speculation, its amount, and a guard. -/
  | scan (entry : Nat) (amount : Nat) (guard : Option String)
  deriving Repr, DecidableEq

/- A decision between pieces of code. -/
inductive Decision where
  | run (code : Fragment)
  | test (test : Test) (code : Fragment) (otherwise : Decision)
  /- By the kind of the next token, with the slot of its error mask. -/
  | select (arms : List (List Kind × Fragment)) (slot : Option Nat) (otherwise : Decision)
  deriving Repr, DecidableEq

namespace Decision

open Fragment (ofText indent dedent)

/- The number of words of a mask of kinds. -/
def maskWords
    (tokenCount : Nat) : Nat :=
  (tokenCount - 1) / 32 + 1

/- Some kinds as words of 32 bits. -/
def maskOf
    (tokenCount : Nat)
    (kinds : List Kind) : List Nat :=
  let mask := (KindSet.ofList kinds).mask
  (List.range (maskWords tokenCount)).map fun j => (mask >>> (32 * j)) % 4294967296

/- Take the next entry point for a condition. -/
def takeEntry
    (c : Condition) : StateM ParserTables Nat :=
  modifyGet fun t =>
    let n := t.entryCount + 1
    (n,
     { t with
       entryCount := n,
       routineNames := Assoc.insertSorted c.target (.entry n) t.routineNames,
       routineIndex := Assoc.insertSorted c.target n t.routineIndex,
       entries := t.entries.push ⟨c.target, c.amount⟩ })

/-
  Take the next slot for the error mask of a selection, if
  errors are reported.  A selection that is followed by a test
  records its mask in any case.
-/
def takeSlot
    (o : Options)
    (tokenCount : Nat)
    (kinds : List Kind)
    (recordAlways : Bool) : StateM ParserTables (Option Nat) :=
  modifyGet fun t =>
    let masks :=
      if o.errorReporting || recordAlways then
        t.masks.push (maskOf tokenCount kinds)
      else
        t.masks
    if o.errorReporting then
      (some t.maskCount, { t with masks := masks, maskCount := t.maskCount + 1 })
    else
      (none, { t with masks := masks })

/- What is being put together. -/
inductive Pending where
  | nothing
  /- A selection with the arms so far, in reverse, and their kinds. -/
  | arms (done : List (List Kind × Fragment)) (claimed : List Kind)

/- Close a selection before what comes after it. -/
def close
    (s : Session)
    (pending : Pending)
    (recordAlways : Bool)
    (rest : StateM ParserTables Decision) : StateM ParserTables Decision := do
  match pending with
  | .nothing => rest
  | .arms done claimed =>
      let slot ← takeSlot s.options s.tokenCount claimed recordAlways
      return .select done.reverse slot (← rest)

/-
  The decision between some alternatives and a last resort.
  Kinds belong to the first alternative of a selection that
  claims them, and an alternative without kinds of its own is
  left out.  An alternative that cannot fail ends the list, and
  nobody asks how those after it would be decided.
-/
def buildFrom
    (g : Grammar)
    (s : Session)
    (lastResort : Fragment) :
    Pending → List (Condition × Fragment) → StateM ParserTables Decision
  | pending, [] => close s pending false (return .run lastResort)
  | pending, (c, code) :: rest =>
      match c.strategy g s, c.guard with
      | .trivial, none => close s pending false (return .run code)
      | .trivial, some guard =>
          close s pending true do
            return .test (.guard guard) code (← buildFrom g s lastResort .nothing rest)
      | .scan, guard =>
          close s pending true do
            let entry ← takeEntry c
            return .test (.scan entry c.amount guard) code
              (← buildFrom g s lastResort .nothing rest)
      | .byKind kinds, _ =>
          let (done, claimed) := match pending with
            | .nothing => ([], [])
            | .arms done claimed => (done, claimed)
          let own := kinds.filter fun k => !claimed.contains k
          let done := if own.isEmpty then done else (own, code) :: done
          buildFrom g s lastResort (.arms done (claimed ++ own)) rest

/- The decision between some alternatives and a last resort. -/
def build
    (g : Grammar)
    (s : Session)
    (alternatives : List (Condition × Fragment))
    (lastResort : Fragment) : StateM ParserTables Decision :=
  buildFrom g s lastResort .nothing alternatives

------------------------------------------------------------
-- Writing
------------------------------------------------------------

/- An amount as generated code writes it. -/
def amountText
    (amount : Nat) : String :=
  if amount == unbounded then "2147483647" else toString amount

/- A test as generated code writes it. -/
def testText : Test → String
  | .guard code => code
  | .scan entry amount none => s!"jj_2_{entry}({amountText amount})"
  | .scan entry amount (some guard) =>
      s!"jj_2_{entry}({amountText amount}) && ({guard})"

/- The kind of the next token as generated code asks for it. -/
def nextKindText
    (o : Options) : String :=
  if o.cacheTokens then
    if o.isCpp then "jj_nt->kind" else "jj_nt.kind"
  else
    "(jj_ntk==-1)?jj_ntk_f():jj_ntk"

/- A kind as a case label. -/
def kindName
    (s : Session)
    (kind : Kind) : String :=
  (Assoc.get? kind s.namesOfTokens).getD (toString kind)

/- An arm of a selection. -/
def renderArm
    (s : Session)
    (arm : List Kind × Fragment) : Fragment :=
  (arm.1.flatMap fun k => dedent ++ ofText s!"\ncase {kindName s k}:" ++ indent) ++
    ofText "\x7b" ++ arm.2 ++ ofText "\nbreak;\n\x7d"

/- The line that notes a selection for error messages. -/
def renderSlot : Option Nat → Fragment
  | some slot => ofText s!"\njj_la1[{slot}] = jj_gen;"
  | none => []

/- The end of a statement. -/
def closing : Fragment :=
  dedent ++ ofText "\n\x7d"

/- The start of the branch that is taken when a test has failed. -/
def elseOpening : Fragment :=
  dedent ++ ofText "\n\x7d else \x7b" ++ indent

/-
  A decision as generated code, on its own or in the branch
  that is taken when a test has failed.  There a further test
  goes on with the same statement.
-/
def renderIn
    (s : Session) : Bool → Decision → Fragment
  | afterTest, .run code => (if afterTest then elseOpening else []) ++ code
  | false, .test t code otherwise =>
      ofText s!"\nif ({testText t}) \x7b" ++ indent ++ code ++
        renderIn s true otherwise ++ closing
  | true, .test t code otherwise =>
      dedent ++ ofText s!"\n\x7d else if ({testText t}) \x7b" ++ indent ++ code ++
        renderIn s true otherwise
  | afterTest, .select arms slot otherwise =>
      (if afterTest then elseOpening else []) ++
        ofText s!"\nswitch ({nextKindText s.options}) \x7b" ++ indent ++
        arms.flatMap (renderArm s) ++
        dedent ++ ofText "\ndefault:" ++ indent ++
        renderSlot slot ++ renderIn s false otherwise ++ closing

/- A decision as generated code. -/
def render
    (s : Session)
    (d : Decision) : Fragment :=
  renderIn s false d

end Decision

end Descent
