import Descent.Proofs.RegexReferences
import Descent.Proofs.SearchMarks

/-
  The search for loops of token expressions.

  A walk goes along the references in the tree of an entry and
  marks what they stand for.  Where it comes back to what it
  has not left yet, it hands the loop back, past all parts that
  it has not looked at, up to the expression that reports it.

  Main declarations:
    * `RegexLoop.Searching` and `RegexLoop.Unwinding`
    * `RegexLoop.outcome_walk`
    * `RegexLoop.walkWith_eq`
    * `Thompson.segmentWith_eq`
    * `RegexLoop.check_reports_loops`
-/

namespace Descent

open TokenTable (listed)

theorem Grammar.expansionDepth_pos
    (g : Grammar)
    (path : List RegexId)
    (id : RegexId) :
    0 < g.expansionDepth path id :=
  Nat.add_pos_right _ (g.height_pos id)

namespace RegexLoop

open LeftRecursion

------------------------------------------------------------
-- Statuses
------------------------------------------------------------

theorem statusOf_setStatus
    (w : Search)
    (id : RegexId)
    (status : WalkStatus) :
    (w.setStatus id status).statusOf =
      Function.update w.statusOf id status := by
  funext q
  unfold Search.statusOf Search.setStatus Assoc.insert
  dsimp only
  rw [Assoc.get?_alter]
  by_cases hSame : q = id
  · rw [if_pos hSame, hSame, Function.update_self]
    rfl
  · rw [if_neg hSame, Function.update_of_ne hSame]

/- What has been marked stays marked. -/
theorem visited_setStatus
    {w : Search}
    {q : RegexId}
    (hVisited : w.statusOf q ≠ .unvisited)
    (id : RegexId)
    {status : WalkStatus}
    (hStatus : status ≠ .unvisited) :
    (w.setStatus id status).statusOf q ≠ .unvisited := by
  rw [statusOf_setStatus]
  by_cases hSame : q = id
  · rw [hSame, Function.update_self]
    exact hStatus
  · rw [Function.update_of_ne hSame]
    exact hVisited

/- A path of expressions that have been marked grows. -/
theorem visited_onStack
    {w : Search}
    {path : List RegexId}
    (hPath : ∀ q ∈ path, w.statusOf q ≠ .unvisited)
    (target : RegexId) :
    ∀ q ∈ target :: path,
      (w.setStatus target .onStack).statusOf q ≠
        .unvisited := by
  intro q hMem
  rcases List.mem_cons.mp hMem with rfl | hMem
  · rw [statusOf_setStatus, Function.update_self]
    simp
  · exact visited_setStatus (hPath q hMem) target (by simp)

------------------------------------------------------------
-- Reports
------------------------------------------------------------

/- The labels of expressions along a way. -/
def spelling
    (g : Grammar) : List RegexId → String
  | [] => ""
  | [x] => s!"...{(g.regex x).label}..."
  | x :: y :: rest =>
      s!"...{(g.regex x).label}... --> {spelling g (y :: rest)}"

theorem spelling_cons
    {g : Grammar}
    {C : RegexId → RegexId → Prop}
    (x : RegexId)
    {p q : RegexId}
    {way : List RegexId}
    (hWay : Way C p way q) :
    s!"...{(g.regex x).label}... --> {spelling g way}" =
      spelling g (x :: way) := by
  cases hWay with
  | last => rfl
  | next => rfl

/- The report of a loop at its head. -/
def report
    (g : Grammar)
    (c : Cycle) : Diagnostic :=
  ⟨.error, some (g.regex c.head).place,
    s!"Loop in regular expression detected: \"{spelling g (c.head :: c.way)}\""⟩

------------------------------------------------------------
-- Walks
------------------------------------------------------------

section Walks

variable {g : Grammar}
variable {before : List Diagnostic} {loops : List Cycle}

/- What has been reported: loops that entries lead to. -/
structure Tells
    (g : Grammar)
    (before : List Diagnostic)
    (loops : List Cycle)
    (w : Search) : Prop where
  entries : w.session.diagnostics.entries.toList =
    before ++ loops.map (report g)
  reached : ∀ c ∈ loops, g.Reached c.head

/-
  What holds wherever a walk stands while no loop is open.  As
  long as nothing has been reported, no reference of what is
  done has been passed over.
-/
structure Searching
    (g : Grammar)
    (before : List Diagnostic)
    (loops : List Cycle)
    (w : Search) : Prop where
  tells : Tells g before loops w
  seeks : Statuses.Seeks g.Refers loops w.statusOf
  closed : loops = [] → Statuses.Closed g.Refers w.statusOf

/- What holds while a loop is open that closes at `v`. -/
structure Unwinding
    (g : Grammar)
    (before : List Diagnostic)
    (loops : List Cycle)
    (v : RegexId)
    (w : Search) : Prop where
  tells : Tells g before loops w
  unwinds : Statuses.Unwinds g.Refers loops v w.statusOf

theorem Searching.onStack
    {w : Search}
    (hSearching : Searching g before loops w)
    {x : RegexId}
    (hOpen : w.statusOf x = .unvisited) :
    Searching g before loops (w.setStatus x .onStack) := by
  rcases hSearching with ⟨hTells, hSeeks, hClosed⟩
  refine ⟨⟨hTells.entries, hTells.reached⟩, ?_, ?_⟩
  · rw [statusOf_setStatus]
    exact hSeeks.onStack hOpen
  · intro hNone
    rw [statusOf_setStatus]
    exact (hClosed hNone).onStack hOpen

/- All references of an expression have been seen. -/
theorem Searching.finish
    {w : Search}
    (hSearching : Searching g before loops w)
    {x : RegexId}
    (hStack : w.statusOf x = .onStack)
    (hRefers : ∀ y, g.Refers x y → w.statusOf y = .done) :
    Searching g before loops (w.setStatus x .done) := by
  rcases hSearching with ⟨hTells, hSeeks, hClosed⟩
  refine ⟨⟨hTells.entries, hTells.reached⟩, ?_, ?_⟩
  · rw [statusOf_setStatus]
    exact hSeeks.finish hStack hRefers
  · intro hNone
    rw [statusOf_setStatus]
    exact (hClosed hNone).finish hRefers

/- A walk comes back to an expression that it has not left. -/
theorem Searching.mark
    {w : Search}
    (hSearching : Searching g before loops w)
    {v : RegexId}
    (hStack : w.statusOf v = .onStack) :
    Unwinding g before loops v
      (w.setStatus v .onStackReported) := by
  rcases hSearching with ⟨hTells, hSeeks, -⟩
  refine ⟨⟨hTells.entries, hTells.reached⟩, ?_⟩
  rw [statusOf_setStatus]
  exact hSeeks.mark hStack

/- An expression on the open loop is left. -/
theorem Unwinding.pass
    {w : Search}
    {v x : RegexId}
    (hUnwinding : Unwinding g before loops v w)
    (hStack : w.statusOf x = .onStack)
    (hTogether : Together g.Refers x v) :
    Unwinding g before loops v (w.setStatus x .done) := by
  rcases hUnwinding with ⟨hTells, hUnwinds⟩
  refine ⟨⟨hTells.entries, hTells.reached⟩, ?_⟩
  rw [statusOf_setStatus]
  exact hUnwinds.pass hStack hTogether

/- The open loop is reported where it closes. -/
theorem Unwinding.close
    {w : Search}
    {v : RegexId}
    (hUnwinding : Unwinding g before loops v w)
    (hReached : g.Reached v)
    {way : List RegexId}
    (hWay : Way g.Refers v way v) :
    Searching g before (loops ++ [⟨v, way⟩])
      ((w.setStatus v .done).report (g.regex v).place
        (spelling g (v :: way))) := by
  rcases hUnwinding with ⟨hTells, hUnwinds⟩
  refine ⟨⟨?_, ?_⟩, ?_, ?_⟩
  · rw [List.map_append, ← List.append_assoc, ← hTells.entries]
    exact Array.toList_push
  · intro c hMem
    rcases List.mem_append.mp hMem with hOld | hNew
    · exact hTells.reached c hOld
    · rw [List.mem_singleton.mp hNew]
      exact hReached
  · change Statuses.Seeks g.Refers _
      (w.setStatus v .done).statusOf
    rw [statusOf_setStatus]
    exact hUnwinds.close hWay
  · intro hNone
    exact absurd hNone (by simp)

/-
  What a walk from an expression relies on: entries lead to all
  that it refers to, and so does what the walk came from.
-/
structure Ahead
    (g : Grammar)
    (w : Search)
    (id : RegexId) : Prop where
  reached : ∀ y, g.Refers id y → g.Reached y
  above : ∀ v, w.statusOf v = .onStack →
    ∀ y, g.Refers id y → Relation.TransGen g.Refers v y

theorem Ahead.of_part
    {w : Search}
    {part id : RegexId}
    (hAhead : Ahead g w id)
    (hPart : g.PartOf part id) :
    Ahead g w part where
  reached y hRefers := hAhead.reached y (hRefers.of_part hPart)
  above v hStack y hRefers :=
    hAhead.above v hStack y (hRefers.of_part hPart)

theorem Ahead.of_explores
    {w w' : Search}
    {id : RegexId}
    (hAhead : Ahead g w id)
    (hExplores : ∀ q,
      Statuses.Explores w.statusOf w'.statusOf q) :
    Ahead g w' id where
  reached := hAhead.reached
  above v hStack := hAhead.above v ((hExplores v).onStack hStack)

/- From what is reached, with nothing but it on the stack. -/
theorem ahead_onStack
    {w : Search}
    {x : RegexId}
    (hReached : g.Reached x)
    (hAbove : ∀ v, w.statusOf v = .onStack →
      Relation.TransGen g.Refers v x) :
    Ahead g (w.setStatus x .onStack) x where
  reached y hRefers := by
    rcases hReached with ⟨root, hRoot, hSteps⟩
    exact ⟨root, hRoot, hSteps.tail hRefers⟩
  above v hStack y hRefers := by
    rw [statusOf_setStatus] at hStack
    by_cases hSame : v = x
    · rw [hSame]
      exact .single hRefers
    · rw [Function.update_of_ne hSame] at hStack
      exact (hAbove v hStack).tail hRefers

/-
  What comes of a walk from some expressions.  If no loop is
  left open, all that they refer to is done; else a loop is open
  up to an expression that the walk came from, and it is spelled
  as far as it goes.
-/
def Outcome
    (g : Grammar)
    (before : List Diagnostic)
    (w : Search)
    (ids : List RegexId) :
    Search × Option String → Prop
  | (w', none) =>
      (∃ loops, Searching g before loops w') ∧
        (∀ id ∈ ids, ∀ y, g.Refers id y →
          w'.statusOf y = .done) ∧
        ∀ q, Statuses.Explores w.statusOf w'.statusOf q
  | (w', some spelled) =>
      ∃ v way, (∃ loops, Unwinding g before loops v w') ∧
        w.statusOf v = .onStack ∧
        (∃ id ∈ ids, Way g.Refers id way v) ∧
        spelled = spelling g way ∧
        ∀ q, q ≠ v →
          Statuses.Explores w.statusOf w'.statusOf q

/- No loop is open after an expression, and it is done. -/
structure Settled
    (g : Grammar)
    (before : List Diagnostic)
    (w : Search)
    (x : RegexId)
    (w' : Search) : Prop where
  searching : ∃ loops, Searching g before loops w'
  done : w'.statusOf x = .done
  explores : ∀ q, Statuses.Explores w.statusOf w'.statusOf q

/- The walk from an expression has left no loop open. -/
theorem settled_of_none
    {w w' : Search}
    {x : RegexId}
    (hOpen : w.statusOf x = .unvisited)
    (hOutcome : Outcome g before (w.setStatus x .onStack) [x]
      (w', none)) :
    Settled g before w x (w'.setStatus x .done) := by
  rcases hOutcome with ⟨⟨loops, hSearching⟩, hDone, hExplores⟩
  rw [statusOf_setStatus] at hExplores
  have hFinished := hSearching.finish (hExplores x).onStack_self
    (hDone x (List.mem_singleton_self _))
  refine ⟨⟨loops, hFinished⟩, ?_, fun q => ?_⟩
  · rw [statusOf_setStatus, Function.update_self]
  · rw [statusOf_setStatus]
    exact .around hOpen fun _ => hExplores q

/- It has left one open that closes there, and that is told. -/
theorem settled_of_closes
    {w w' : Search}
    {x : RegexId}
    (hOpen : w.statusOf x = .unvisited)
    (hReached : g.Reached x)
    (hUnwinding : Unwinding g before loops x w')
    {way : List RegexId}
    (hWay : Way g.Refers x way x)
    (hExplores : ∀ q, q ≠ x → Statuses.Explores
      (Function.update w.statusOf x .onStack) w'.statusOf q) :
    Settled g before w x
      ((w'.setStatus x .done).report (g.regex x).place
        (spelling g (x :: way))) := by
  have hStatuses : ((w'.setStatus x .done).report
      (g.regex x).place (spelling g (x :: way))).statusOf =
        Function.update w'.statusOf x .done :=
    statusOf_setStatus w' x .done
  refine ⟨⟨_, hUnwinding.close hReached hWay⟩, ?_, fun q => ?_⟩
  · rw [hStatuses, Function.update_self]
  · rw [hStatuses]
    exact .around hOpen (hExplores q)

/- A reference is covered once what it stands for is settled. -/
theorem Settled.outcome
    {w w' : Search}
    {id target : RegexId}
    (hRefers : ∀ y, g.Refers id y ↔ target = y)
    (hSettled : Settled g before w target w') :
    Outcome g before w [id] (w', none) := by
  refine ⟨hSettled.searching, ?_, hSettled.explores⟩
  intro x hx y hLink
  rw [List.mem_singleton.mp hx, hRefers] at hLink
  rw [← hLink]
  exact hSettled.done

/- The walk from what a reference stands for has left a loop open. -/
theorem outcome_target_some
    {w w' : Search}
    {id target : RegexId}
    (hRefers : ∀ y, g.Refers id y ↔ target = y)
    (hAhead : Ahead g w id)
    (hOpen : w.statusOf target = .unvisited)
    {spelled : String}
    (hOutcome : Outcome g before (w.setStatus target .onStack)
      [target] (w', some spelled)) :
    Outcome g before w [id]
      (let spelled :=
        s!"...{(g.regex target).label}... --> {spelled}"
      if w'.statusOf target == .onStackReported then
        ((w'.setStatus target .done).report
          (g.regex target).place spelled, none)
      else (w'.setStatus target .done, some spelled)) := by
  have hTarget := (hRefers target).mpr rfl
  rcases hOutcome with ⟨v, way, ⟨loops, hUnwinding⟩, hStack,
    ⟨_, hMem, hWay⟩, rfl, hExplores⟩
  rw [List.mem_singleton.mp hMem] at hWay
  rw [statusOf_setStatus] at hStack hExplores
  dsimp only
  rw [spelling_cons target hWay]
  by_cases hSame : v = target
  · subst hSame
    rw [if_pos (beq_iff_eq.mpr hUnwinding.unwinds.marked)]
    exact (settled_of_closes hOpen (hAhead.reached _ hTarget)
      hUnwinding hWay hExplores).outcome hRefers
  · have hHere := (hExplores target
      (Ne.symm hSame)).onStack_self
    rw [Function.update_of_ne hSame] at hStack
    rw [if_neg (by simp [hHere])]
    refine ⟨v, _, ⟨_, hUnwinding.pass hHere
      ⟨hWay.transGen.to_reflTransGen,
        (hAhead.above v hStack _ hTarget).to_reflTransGen⟩⟩,
      hStack, ⟨id, List.mem_singleton_self _,
        .next hTarget hWay⟩, rfl, ?_⟩
    intro q hOther
    rw [statusOf_setStatus]
    exact .around hOpen fun _ => hExplores q hOther

/- Along the parts of an expression, if it holds of walks. -/
theorem outcome_walkParts
    {fuel : Nat}
    {path : List RegexId}
    (hWalk : ∀ {loops w id}, Searching g before loops w →
      Ahead g w id →
      (∀ q ∈ path, w.statusOf q ≠ .unvisited) →
      g.expansionDepth path id ≤ fuel →
      Outcome g before w [id] (walk g fuel w id))
    (parts : List RegexId)
    {w : Search}
    (hSearching : Searching g before loops w)
    (hAhead : ∀ part ∈ parts, Ahead g w part)
    (hPath : ∀ q ∈ path, w.statusOf q ≠ .unvisited)
    (hFuel : ∀ part ∈ parts,
      g.expansionDepth path part ≤ fuel) :
    Outcome g before w parts (walkParts g fuel parts w) := by
  induction parts generalizing w loops with
  | nil =>
      unfold walkParts
      exact ⟨⟨loops, hSearching⟩, List.forall_mem_nil _,
        fun _ => .inl rfl⟩
  | cons part rest ih =>
      rw [List.forall_mem_cons] at hAhead hFuel
      have hOutcome := hWalk hSearching hAhead.1 hPath hFuel.1
      unfold walkParts
      generalize walk g fuel w part = r at hOutcome
      rcases r with ⟨w₁, _ | spelled⟩
      · rcases hOutcome with
          ⟨⟨loops₁, hSearching₁⟩, hDone, hExplores⟩
        have hPath₁ : ∀ q ∈ path,
            w₁.statusOf q ≠ .unvisited := by
          intro q hMem hOpen
          exact hPath q hMem ((hExplores q).unvisited hOpen)
        have hRest := ih hSearching₁
          (fun x hx => (hAhead.2 x hx).of_explores hExplores)
          hPath₁ hFuel.2
        dsimp only
        generalize walkParts g fuel rest w₁ = r at hRest
        rcases r with ⟨w₂, _ | spelled⟩
        · rcases hRest with ⟨hSearching₂, hDone₂, hExplores₂⟩
          refine ⟨hSearching₂,
            List.forall_mem_cons.mpr ⟨?_, hDone₂⟩,
            fun q => (hExplores q).trans (hExplores₂ q)⟩
          intro y hRefers
          have hBefore := hDone part (List.mem_singleton_self _) y
            hRefers
          rw [(hExplores₂ y).of_ne (by simp [hBefore])]
          exact hBefore
        · rcases hRest with ⟨v, way, hUnwinding, hStack,
            ⟨x, hx, hWay⟩, hSpelled, hExplores₂⟩
          exact ⟨v, way, hUnwinding, (hExplores v).onStack hStack,
            ⟨x, List.mem_cons_of_mem _ hx, hWay⟩, hSpelled,
            fun q hOther =>
              (hExplores q).trans (hExplores₂ q hOther)⟩
      · rcases hOutcome with ⟨v, way, hUnwinding, hStack,
          ⟨x, hx, hWay⟩, hSpelled, hExplores⟩
        rw [List.mem_singleton.mp hx] at hWay
        exact ⟨v, way, hUnwinding, hStack,
          ⟨part, List.mem_cons_self, hWay⟩, hSpelled, hExplores⟩

/- The parts of an expression refer to all that it refers to. -/
theorem Outcome.of_parts
    {w : Search}
    {id : RegexId}
    (hForm : ∀ name target,
      (g.regex id).form ≠ .reference name target)
    {r : Search × Option String}
    (hOutcome : Outcome g before w (g.regexChildren id) r) :
    Outcome g before w [id] r := by
  rcases r with ⟨w', _ | spelled⟩
  · rcases hOutcome with ⟨hSearching, hDone, hExplores⟩
    refine ⟨hSearching, ?_, hExplores⟩
    intro x hx y hRefers
    rw [List.mem_singleton.mp hx,
      Grammar.refers_iff_parts hForm] at hRefers
    rcases hRefers with ⟨part, hPart, hRefers⟩
    exact hDone part hPart y hRefers
  · rcases hOutcome with ⟨v, way, hUnwinding, hStack,
      ⟨part, hPart, hWay⟩, hSpelled, hExplores⟩
    refine ⟨v, way, hUnwinding, hStack,
      ⟨id, List.mem_singleton_self _, ?_⟩, hSpelled, hExplores⟩
    cases hWay with
    | last hLink => exact .last (hLink.of_part hPart)
    | next hLink hRest => exact .next (hLink.of_part hPart) hRest

/-
  A walk covers what an expression refers to, or leaves a loop
  open.  The expressions on the path have been marked, so the
  walk does not go deeper than an expansion that keeps to it.
-/
theorem outcome_walk
    (hTree : g.RegexTree)
    {fuel : Nat}
    {path : List RegexId}
    {w : Search}
    {id : RegexId}
    (hSearching : Searching g before loops w)
    (hAhead : Ahead g w id)
    (hPath : ∀ q ∈ path, w.statusOf q ≠ .unvisited)
    (hFuel : g.expansionDepth path id ≤ fuel) :
    Outcome g before w [id] (walk g fuel w id) := by
  induction fuel generalizing path w id loops with
  | zero =>
      have hPos := g.expansionDepth_pos path id
      omega
  | succ fuel ih =>
      unfold walk
      split
      · next name target hForm =>
          have hRefers : ∀ y, g.Refers id y ↔ target = y := by
            intro y
            rw [Grammar.refers_of_reference hForm,
              Option.some_inj]
          have hTarget := (hRefers target).mpr rfl
          dsimp only
          cases hStatus : w.statusOf target with
          | onStack =>
              refine ⟨target, [target],
                ⟨loops, hSearching.mark hStatus⟩, hStatus,
                ⟨id, List.mem_singleton_self _, .last hTarget⟩,
                rfl, ?_⟩
              intro q hOther
              rw [statusOf_setStatus]
              exact .inl (Function.update_of_ne hOther _ _)
          | unvisited =>
              have hFresh : target ∉ path :=
                fun hMem => hPath target hMem hStatus
              have hLess := Grammar.expansionDepth_reference
                hTree hForm hFresh
              have hOutcome := ih (hSearching.onStack hStatus)
                (ahead_onStack (hAhead.reached _ hTarget)
                  fun v hStack =>
                    hAhead.above v hStack _ hTarget)
                (visited_onStack hPath target) (by omega)
              dsimp only
              generalize walk g fuel
                (w.setStatus target .onStack) target = r
                at hOutcome
              rcases r with ⟨w₁, _ | spelled⟩
              · exact (settled_of_none hStatus
                  hOutcome).outcome hRefers
              · exact outcome_target_some hRefers hAhead hStatus
                  hOutcome
          | onStackReported =>
              exact absurd hStatus
                (hSearching.seeks.unreported target)
          | done =>
              have hSettled : Settled g before w target w :=
                ⟨⟨loops, hSearching⟩, hStatus, fun _ => .inl rfl⟩
              exact hSettled.outcome hRefers
      · next name hForm =>
          refine ⟨⟨loops, hSearching⟩, ?_, fun _ => .inl rfl⟩
          intro x hx y hRefers
          rw [List.mem_singleton.mp hx,
            Grammar.refers_of_reference hForm] at hRefers
          cases hRefers
      · next hSome hNone =>
          have hForm : ∀ name target,
              (g.regex id).form ≠ .reference name target := by
            intro name target hReference
            cases target with
            | none => exact hNone name hReference
            | some target => exact hSome name target hReference
          apply Outcome.of_parts hForm
          refine outcome_walkParts ih _ hSearching
            (fun part hPart => hAhead.of_part hPart) hPath ?_
          intro part hPart
          have hLess : g.expansionDepth path part <
              g.expansionDepth path id :=
            Grammar.expansionDepth_part hTree hPart
          omega

/- A walk from an entry leaves no loop open. -/
theorem settled_checkSpec
    (hTree : g.RegexTree)
    {w : Search}
    (hSearching : Searching g before loops w)
    (hEmpty : ∀ q, w.statusOf q ≠ .onStack)
    {root : RegexId}
    (hListed : root ∈ listed g)
    (hOpen : w.statusOf root = .unvisited) :
    Settled g before w root (checkSpec g w root) := by
  have hReached : g.Reached root := ⟨root, hListed, .refl⟩
  have hOutcome := outcome_walk hTree (hSearching.onStack hOpen)
    (ahead_onStack hReached fun v hStack =>
      absurd hStack (hEmpty v))
    (List.forall_mem_nil _)
    (Grammar.expansionDepth_le hTree root)
  unfold checkSpec
  rw [if_neg (by simp [hOpen])]
  generalize walk g (Thompson.depthBound g)
    (w.setStatus root .onStack) root = r at hOutcome
  rcases r with ⟨w₁, _ | spelled⟩
  · exact settled_of_none hOpen hOutcome
  · rcases hOutcome with ⟨v, way, ⟨loops₁, hUnwinding⟩, hStack,
      ⟨_, hMem, hWay⟩, rfl, hExplores⟩
    rw [List.mem_singleton.mp hMem] at hWay
    rw [statusOf_setStatus] at hStack hExplores
    -- Nothing else was on the stack.
    have hSame : v = root := by
      by_contra hOther
      rw [Function.update_of_ne hOther] at hStack
      exact hEmpty v hStack
    subst hSame
    dsimp only
    rw [spelling_cons v hWay]
    exact settled_of_closes hOpen hReached hUnwinding hWay
      hExplores

theorem searching_checkSpec
    (hTree : g.RegexTree)
    {w : Search}
    (hSearching : Searching g before loops w)
    (hEmpty : ∀ q, w.statusOf q ≠ .onStack)
    {root : RegexId}
    (hListed : root ∈ listed g) :
    (∃ loops, Searching g before loops (checkSpec g w root)) ∧
      (checkSpec g w root).statusOf root ≠ .unvisited ∧
      ∀ q, Statuses.Explores w.statusOf
        (checkSpec g w root).statusOf q := by
  by_cases hOpen : w.statusOf root = .unvisited
  · have hSettled := settled_checkSpec hTree hSearching hEmpty
      hListed hOpen
    exact ⟨hSettled.searching, by simp [hSettled.done],
      hSettled.explores⟩
  · unfold checkSpec
    rw [if_pos (bne_iff_ne.mpr hOpen)]
    exact ⟨⟨loops, hSearching⟩, hOpen, fun _ => .inl rfl⟩

/- Walks from one entry after another. -/
theorem searching_foldl
    (hTree : g.RegexTree)
    (roots : List RegexId)
    (hListed : ∀ root ∈ roots, root ∈ listed g)
    {w : Search}
    (hSearching : Searching g before loops w)
    (hEmpty : ∀ q, w.statusOf q ≠ .onStack) :
    (∃ loops, Searching g before loops
        (roots.foldl (checkSpec g) w)) ∧
      (∀ q, Statuses.Explores w.statusOf
        (roots.foldl (checkSpec g) w).statusOf q) ∧
      ∀ root ∈ roots,
        (roots.foldl (checkSpec g) w).statusOf root ≠
          .unvisited := by
  induction roots generalizing w loops with
  | nil =>
      exact ⟨⟨loops, hSearching⟩, fun _ => .inl rfl,
        List.forall_mem_nil _⟩
  | cons root roots ih =>
      rw [List.forall_mem_cons] at hListed
      rw [List.foldl_cons]
      rcases searching_checkSpec hTree hSearching hEmpty
        hListed.1 with ⟨⟨loops₁, hSearching₁⟩, hVisited, hExplores⟩
      have hEmpty₁ : ∀ q,
          (checkSpec g w root).statusOf q ≠ .onStack :=
        fun q hStack => hEmpty q ((hExplores q).onStack hStack)
      rcases ih hListed.2 hSearching₁ hEmpty₁ with
        ⟨hSearching₂, hExplores₂, hAll⟩
      refine ⟨hSearching₂,
        fun q => (hExplores q).trans (hExplores₂ q),
        List.forall_mem_cons.mpr ⟨?_, hAll⟩⟩
      rw [(hExplores₂ root).of_ne hVisited]
      exact hVisited

/- All entries are done once the search is over. -/
theorem searching_check
    (hTree : g.RegexTree)
    (s : Session) :
    ∃ loops w, Searching g s.diagnostics.entries.toList loops w ∧
      (check g s).diagnostics = w.session.diagnostics ∧
      ∀ root ∈ listed g, w.statusOf root = .done := by
  let w : Search := { session := s }
  have hStart : Searching g s.diagnostics.entries.toList [] w := by
    refine ⟨⟨(List.append_nil _).symm, List.forall_mem_nil _⟩,
      Statuses.seeks_nil ?_ ?_, ?_⟩
    · intro q hReported
      cases hReported
    · intro q _ hDone
      cases hDone
    · intro _ q r _ hDone
      cases hDone
  have hEmpty : ∀ q, w.statusOf q ≠ .onStack := by
    intro q hStack
    cases hStack
  rcases searching_foldl hTree (listed g) (fun _ h => h) hStart
    hEmpty with ⟨⟨loops, hSearched⟩, hExplores, hAll⟩
  refine ⟨loops, _, hSearched, rfl, ?_⟩
  intro root hListed
  rcases hExplores root with hSame | ⟨-, hDone⟩
  · exact absurd hSame (hAll root hListed)
  · exact hDone

end Walks

------------------------------------------------------------
-- The length of walks
------------------------------------------------------------

mutual

/- The walk, with what stands in for one that is cut short. -/
def walkWith
    (g : Grammar)
    (stop : Search → RegexId → Search × Option String) :
    Nat → Search → RegexId → Search × Option String
  | 0, w, id => stop w id
  | fuel + 1, w, id =>
      match (g.regex id).form with
      | .reference _ (some target) =>
          let label := (g.regex target).label
          match w.statusOf target with
          | .onStack =>
              (w.setStatus target .onStackReported, some s!"...{label}...")
          | .unvisited =>
              match walkWith g stop fuel (w.setStatus target .onStack) target with
              | (w, some spelled) =>
                  let spelled := s!"...{label}... --> {spelled}"
                  let closes := w.statusOf target == .onStackReported
                  let w := w.setStatus target .done
                  if closes then
                    (w.report (g.regex target).place spelled, none)
                  else
                    (w, some spelled)
              | (w, none) => (w.setStatus target .done, none)
          | _ => (w, none)
      | .reference _ none => (w, none)
      | _ => walkPartsWith g stop fuel (g.regexChildren id) w
  termination_by fuel => (fuel, 0)

/- Walk from the parts of an expression until a loop is open. -/
def walkPartsWith
    (g : Grammar)
    (stop : Search → RegexId → Search × Option String)
    (fuel : Nat) : List RegexId → Search → Search × Option String
  | [], w => (w, none)
  | part :: rest, w =>
      match walkWith g stop fuel w part with
      | (w, some spelled) => (w, some spelled)
      | (w, none) => walkPartsWith g stop fuel rest w
  termination_by parts => (fuel, parts.length + 1)

end

/- Walk from one entry of a token section by given walks. -/
def checkSpecBy
    (g : Grammar)
    (walk : Search → RegexId → Search × Option String)
    (w : Search)
    (id : RegexId) : Search :=
  if w.statusOf id != .unvisited then
    w
  else
    match walk (w.setStatus id .onStack) id with
    | (w, some spelled) =>
        let label := (g.regex id).label
        (w.report (g.regex id).place s!"...{label}... --> {spelled}").setStatus id .done
    | (w, none) => w.setStatus id .done

/- Walk from all entries by given walks. -/
def checkBy
    (g : Grammar)
    (walk : Search → RegexId → Search × Option String)
    (s : Session) : Session :=
  ((listed g).foldl (checkSpecBy g walk) { session := s }).session

theorem check_eq
    (g : Grammar)
    (s : Session) :
    check g s = checkBy g (walk g (Thompson.depthBound g)) s :=
  rfl

section Length

variable {g : Grammar}

theorem visited_walkParts
    {fuel : Nat}
    {q : RegexId}
    (hWalk : ∀ w id, w.statusOf q ≠ .unvisited →
      (walk g fuel w id).1.statusOf q ≠ .unvisited)
    (parts : List RegexId)
    {w : Search}
    (hVisited : w.statusOf q ≠ .unvisited) :
    (walkParts g fuel parts w).1.statusOf q ≠ .unvisited := by
  induction parts generalizing w with
  | nil =>
      unfold walkParts
      exact hVisited
  | cons part rest ih =>
      have hPart := hWalk w part hVisited
      unfold walkParts
      generalize walk g fuel w part = r at hPart
      rcases r with ⟨w₁, _ | spelled⟩
      · exact ih hPart
      · exact hPart

theorem visited_walk
    (fuel : Nat)
    {q : RegexId}
    (w : Search)
    (id : RegexId)
    (hVisited : w.statusOf q ≠ .unvisited) :
    (walk g fuel w id).1.statusOf q ≠ .unvisited := by
  induction fuel generalizing w id with
  | zero =>
      unfold walk
      exact hVisited
  | succ fuel ih =>
      unfold walk
      split
      · next target _ =>
          dsimp only
          split
          · exact visited_setStatus hVisited target (by simp)
          · have hTarget := ih (w.setStatus target .onStack)
              target
              (visited_setStatus hVisited target (by simp))
            generalize walk g fuel (w.setStatus target .onStack)
              target = r at hTarget
            rcases r with ⟨w₁, _ | spelled⟩
            · exact visited_setStatus hTarget target (by simp)
            · have hDone : (w₁.setStatus target .done).statusOf
                  q ≠ .unvisited :=
                visited_setStatus hTarget target (by simp)
              dsimp only
              split
              · exact hDone
              · exact hDone
          · exact hVisited
      · exact hVisited
      · exact visited_walkParts ih _ hVisited

theorem walkPartsWith_eq
    {stop : Search → RegexId → Search × Option String}
    {fuel fuel' : Nat}
    {path : List RegexId}
    (parts : List RegexId)
    (hWalk : ∀ part ∈ parts, ∀ w : Search,
      (∀ q ∈ path, w.statusOf q ≠ .unvisited) →
      walkWith g stop fuel w part = walk g fuel' w part)
    {w : Search}
    (hPath : ∀ q ∈ path, w.statusOf q ≠ .unvisited) :
    walkPartsWith g stop fuel parts w =
      walkParts g fuel' parts w := by
  induction parts generalizing w with
  | nil =>
      unfold walkPartsWith walkParts
      rfl
  | cons part rest ih =>
      rw [List.forall_mem_cons] at hWalk
      have hVisited : ∀ q ∈ path,
          (walk g fuel' w part).1.statusOf q ≠ .unvisited :=
        fun q hMem => visited_walk fuel' w part (hPath q hMem)
      unfold walkPartsWith walkParts
      rw [hWalk.1 w hPath]
      generalize walk g fuel' w part = r at hVisited
      rcases r with ⟨w₁, _ | spelled⟩
      · exact ih hWalk.2 hVisited
      · rfl

/- No walk is cut short that may go as deep as expansions do. -/
theorem walkWith_eq
    (hTree : g.RegexTree)
    {stop : Search → RegexId → Search × Option String}
    {fuel fuel' : Nat}
    {path : List RegexId}
    {w : Search}
    {id : RegexId}
    (hPath : ∀ q ∈ path, w.statusOf q ≠ .unvisited)
    (hFuel : g.expansionDepth path id ≤ fuel)
    (hFuel' : g.expansionDepth path id ≤ fuel') :
    walkWith g stop fuel w id = walk g fuel' w id := by
  have hPos := g.expansionDepth_pos
  induction fuel generalizing fuel' path w id with
  | zero =>
      have hHere := hPos path id
      omega
  | succ fuel ih =>
      cases fuel' with
      | zero =>
          have hHere := hPos path id
          omega
      | succ fuel' =>
          have hParts : walkPartsWith g stop fuel
              (g.regexChildren id) w =
                walkParts g fuel' (g.regexChildren id) w := by
            refine walkPartsWith_eq _ ?_ hPath
            intro part hPart w hPath
            have hLess : g.expansionDepth path part <
                g.expansionDepth path id :=
              Grammar.expansionDepth_part hTree hPart
            exact ih hPath (by omega) (by omega)
          unfold walkWith walk
          cases hForm : (g.regex id).form with
          | reference name target =>
              cases target with
              | none => rfl
              | some target =>
                  dsimp only
                  cases hStatus : w.statusOf target with
                  | unvisited =>
                      have hLess :=
                        Grammar.expansionDepth_reference hTree
                          hForm fun hMem =>
                            hPath target hMem hStatus
                      have hSame : walkWith g stop fuel
                          (w.setStatus target .onStack) target =
                            walk g fuel'
                              (w.setStatus target .onStack) target :=
                        ih (visited_onStack hPath target)
                          (by omega) (by omega)
                      dsimp only
                      generalize walkWith g stop fuel
                        (w.setStatus target .onStack) target = r
                        at hSame
                      subst hSame
                      rfl
                  | onStack => rfl
                  | onStackReported => rfl
                  | done => rfl
          | literal image => exact hParts
          | chars negated items => exact hParts
          | endOfFile => exact hParts
          | sequence parts => exact hParts
          | choice parts => exact hParts
          | oneOrMore body => exact hParts
          | zeroOrMore body => exact hParts
          | zeroOrOne body => exact hParts
          | repetition body least most => exact hParts

/- The search does not depend on walks that are cut short. -/
theorem checkBy_walkWith
    (hTree : g.RegexTree)
    (stop : Search → RegexId → Search × Option String)
    {fuel : Nat}
    (hFuel : Thompson.depthBound g ≤ fuel)
    (s : Session) :
    checkBy g (walkWith g stop fuel) s = check g s := by
  have hSame : checkSpecBy g (walkWith g stop fuel) =
      checkSpecBy g (walk g (Thompson.depthBound g)) := by
    funext w id
    have hDepth := Grammar.expansionDepth_le hTree id
    unfold checkSpecBy
    rw [walkWith_eq hTree (List.forall_mem_nil _)
      (hDepth.trans hFuel) hDepth]
  rw [check_eq]
  unfold checkBy
  rw [hSame]

end Length

end RegexLoop

------------------------------------------------------------
-- Segments without loops
------------------------------------------------------------

namespace Thompson

/-
  The segment of a token expression, with what stands in for
  one where a reference is cut.
-/
def segmentWith
    (g : Grammar)
    (ignoreCase : Bool)
    (stop : Construct Segment) :
    Nat → List RegexId → RegexId → Construct Segment
  | 0, _, _ => stop
  | depth + 1, expanding, id =>
      match (g.regex id).form with
      | .literal image => literalSegment (Text.units image) ignoreCase
      | .chars negated items => charsSegment negated items ignoreCase
      | .reference _ (some target) =>
          if expanding.contains target then
            stop
          else
            segmentWith g ignoreCase stop depth (target :: expanding) target
      | .reference _ none => addPair
      | .endOfFile => addPair
      | .sequence parts =>
          sequenceSegment (parts.map (segmentWith g ignoreCase stop depth expanding))
      | .choice parts =>
          choiceSegment (parts.map (segmentWith g ignoreCase stop depth expanding))
      | .oneOrMore body =>
          repeatSegment (segmentWith g ignoreCase stop depth expanding body) false true
      | .zeroOrMore body =>
          repeatSegment (segmentWith g ignoreCase stop depth expanding body) true true
      | .zeroOrOne body =>
          repeatSegment (segmentWith g ignoreCase stop depth expanding body) true false
      | .repetition body least most =>
          sequenceSegment
            (repetitionParts (segmentWith g ignoreCase stop depth expanding body)
              least most)

theorem segmentWith_eq
    {g : Grammar}
    (hTree : g.RegexTree)
    (hAcyclic : ∀ x, g.Reached x →
      ¬Relation.TransGen g.Refers x x)
    (ignoreCase : Bool)
    (stop : Construct Segment)
    {depth : Nat}
    {path : List RegexId}
    {id : RegexId}
    (hReached : ∀ y, g.Refers id y → g.Reached y)
    (hAbove : ∀ v ∈ path, ∀ y, g.Refers id y →
      Relation.TransGen g.Refers v y)
    (hDepth : g.expansionDepth path id ≤ depth) :
    segmentWith g ignoreCase stop depth path id =
      segmentTo g ignoreCase depth path id := by
  induction depth generalizing path id with
  | zero =>
      have hPos := g.expansionDepth_pos path id
      omega
  | succ depth ih =>
      have hPart : ∀ part ∈ g.regexChildren id,
          segmentWith g ignoreCase stop depth path part =
            segmentTo g ignoreCase depth path part := by
        intro part hMem
        have hLess : g.expansionDepth path part <
            g.expansionDepth path id :=
          Grammar.expansionDepth_part hTree hMem
        exact ih (fun y h => hReached y (h.of_part hMem))
          (fun v hv y h => hAbove v hv y (h.of_part hMem))
          (by omega)
      have hParts := List.map_congr_left hPart
      unfold Grammar.regexChildren at hPart hParts
      unfold segmentWith segmentTo
      cases hForm : (g.regex id).form with
      | reference name target =>
          cases target with
          | none => rfl
          | some target =>
              have hTarget : g.Refers id target :=
                (Grammar.refers_of_reference hForm).mpr rfl
              have hFresh : target ∉ path := by
                intro hMem
                exact hAcyclic target (hReached target hTarget)
                  (hAbove target hMem target hTarget)
              have hLess := Grammar.expansionDepth_reference
                hTree hForm hFresh
              have hNot : ¬path.contains target = true := by
                simpa using hFresh
              dsimp only
              rw [if_neg hNot, if_neg hNot]
              refine ih ?_ ?_ (by omega)
              · intro y hRefers
                rcases hReached target hTarget with
                  ⟨root, hRoot, hSteps⟩
                exact ⟨root, hRoot, hSteps.tail hRefers⟩
              · intro v hMem y hRefers
                rcases List.mem_cons.mp hMem with rfl | hMem
                · exact .single hRefers
                · exact (hAbove v hMem target hTarget).tail
                    hRefers
      | literal image => rfl
      | chars negated items => rfl
      | endOfFile => rfl
      | sequence parts =>
          rw [hForm] at hParts
          exact congrArg sequenceSegment hParts
      | choice parts =>
          rw [hForm] at hParts
          exact congrArg choiceSegment hParts
      | oneOrMore body =>
          rw [hForm] at hPart
          dsimp only
          rw [hPart body (List.mem_singleton_self _)]
      | zeroOrMore body =>
          rw [hForm] at hPart
          dsimp only
          rw [hPart body (List.mem_singleton_self _)]
      | zeroOrOne body =>
          rw [hForm] at hPart
          dsimp only
          rw [hPart body (List.mem_singleton_self _)]
      | repetition body least most =>
          rw [hForm] at hPart
          dsimp only
          rw [hPart body (List.mem_singleton_self _)]

/- Without a loop, no reference is cut below an entry. -/
theorem segmentWith_eq_segment
    {g : Grammar}
    (hTree : g.RegexTree)
    (hAcyclic : ∀ x, g.Reached x →
      ¬Relation.TransGen g.Refers x x)
    {id : RegexId}
    (hListed : id ∈ listed g)
    (ignoreCase : Bool)
    (stop : Construct Segment) :
    segmentWith g ignoreCase stop (depthBound g) [] id =
      segment g ignoreCase id :=
  segmentWith_eq hTree hAcyclic ignoreCase stop
    (fun _ hRefers => ⟨id, hListed, .single hRefers⟩)
    (List.forall_mem_nil _) (Grammar.expansionDepth_le hTree id)

end Thompson

------------------------------------------------------------
-- Loops and reports
------------------------------------------------------------

namespace RegexLoop

open LeftRecursion

/- What is reached is done if entries are and nothing is open. -/
theorem done_of_reached
    {g : Grammar}
    {w : Search}
    (hClosed : Statuses.Closed g.Refers w.statusOf)
    (hEntries : ∀ root ∈ listed g, w.statusOf root = .done)
    {x : RegexId}
    (hReached : g.Reached x) :
    w.statusOf x = .done := by
  rcases hReached with ⟨root, hRoot, hSteps⟩
  induction hSteps with
  | refl => exact hEntries root hRoot
  | tail _ hStep ih => exact hClosed _ _ hStep ih

/- Nothing is reported exactly if entries lead to no loop. -/
theorem loops_ne_nil_iff
    {g : Grammar}
    {before : List Diagnostic}
    {loops : List Cycle}
    {w : Search}
    (hSearching : Searching g before loops w)
    (hEntries : ∀ root ∈ listed g, w.statusOf root = .done) :
    loops ≠ [] ↔
      ∃ x, g.Reached x ∧ Relation.TransGen g.Refers x x := by
  constructor
  · intro hSome
    rcases List.exists_mem_of_ne_nil loops hSome with ⟨c, hMem⟩
    exact ⟨c.head, hSearching.tells.reached c hMem,
      (hSearching.seeks.found.closes c hMem).transGen⟩
  · rintro ⟨x, hReached, hCyclic⟩ hNone
    have hDone := done_of_reached (hSearching.closed hNone)
      hEntries hReached
    rcases hSearching.seeks.covers x hDone hCyclic with
      ⟨c, hMem, -⟩
    rw [hNone] at hMem
    cases hMem

/- If nothing is reported, entries lead to no loop. -/
theorem acyclic_of_clean
    {g : Grammar}
    (hTree : g.RegexTree)
    {s : Session}
    (hClean : (check g s).Clean) :
    ∀ x, g.Reached x → ¬Relation.TransGen g.Refers x x := by
  rcases searching_check hTree s with
    ⟨loops, w, hSearching, hSame, hEntries⟩
  have hTold := hSearching.tells.entries
  rw [← hSame] at hTold
  have hNone : loops = [] :=
    hClean.eq_nil (fun _ => rfl) hTold
  intro x hReached hCyclic
  exact (loops_ne_nil_iff hSearching hEntries).mpr
    ⟨x, hReached, hCyclic⟩ hNone

end RegexLoop

/- A check that passes has looked for loops and found none. -/
theorem Analysis.exists_check_clean
    {g : Grammar}
    {s : Session}
    (hManaged : s.options.userTokenManager = false)
    (hClean : (sanityCheck g s).Clean) :
    ∃ s₁, (RegexLoop.check g s₁).Clean := by
  have hRepetitions := Nullable.records_checkRepetitions g s
  have hCycles := LeftRecursion.followsLinks_check g
    (Nullable.checkRepetitions g s)
  have hOptions := (hCycles.field (·.options)
    fun _ => rfl).trans
      (hRepetitions.field (·.options) fun _ => rfl)
  rw [sanityCheck_eq] at hClean
  generalize LeftRecursion.check g
    (Nullable.checkRepetitions g s) = s₁ at hOptions hClean
  have hLoops : checkLoops g s₁ = RegexLoop.check g s₁ := by
    unfold checkLoops
    rw [hOptions, if_neg (by simp [hManaged])]
  rw [hLoops] at hClean
  refine ⟨s₁, ?_⟩
  unfold checkConflicts at hClean
  split at hClean
  · exact (Conflict.records_check g _).clean hClean
  · exact hClean

/- A grammar that passes has no loop that entries lead to. -/
theorem acyclic_of_analyze
    {g g₀ : Grammar}
    (hTree : g.RegexTree)
    {o : Options}
    (hManaged : o.userTokenManager = false)
    (hChecked : o.sanityCheck = true)
    {s : Session}
    (hPasses : analyze g₀ (.new o) = (g, s, .ok ())) :
    ∀ x, g.Reached x → ¬Relation.TransGen g.Refers x x := by
  rcases analyze_eq_ok hPasses with
    ⟨-, -, ⟨flagged, hFlagged, hSession⟩, hClean⟩
  have hLearns := Nullable.learns_passes g
    (g.productions.size + 1) 0 (Analysis.resolve g₀ (.new o)).2
  have hOptions : flagged.options = o := by
    rw [← hFlagged]
    exact (hLearns.field (·.options) fun _ => rfl).trans
      (Analysis.options_resolve g₀ (.new o))
  rw [hSession, hOptions, if_pos hChecked] at hClean
  rcases Analysis.exists_check_clean
    (by rw [hOptions]; exact hManaged) hClean with ⟨s₁, hNone⟩
  exact RegexLoop.acyclic_of_clean hTree hNone

namespace RegexLoop

open LeftRecursion

/-
  The search for loops of token expressions.  What it records
  are reports of loops of references that entries lead to,
  spelled from their heads back to them, and no expression
  heads two of them.  Something is recorded exactly if entries
  lead to a loop, and if references are resolved, then whatever
  lies on a loop that is reached shares its loops with a head.
  No walk is cut short.  References are resolved once names
  are, and where a grammar passes analysis with a token manager
  of its own, no segment of an entry is cut at a reference.
-/
theorem check_reports_loops
    {g : Grammar}
    (hTree : g.RegexTree)
    (s : Session) :
    (∃ loops : List Cycle,
      (check g s).diagnostics.entries.toList =
        s.diagnostics.entries.toList ++ loops.map (report g) ∧
      (∀ c ∈ loops, g.Reached c.head ∧ c.Closes g.Refers) ∧
      (loops.map Cycle.head).Nodup ∧
      (loops ≠ [] ↔
        ∃ x, g.Reached x ∧ Relation.TransGen g.Refers x x) ∧
      (g.ReferencesResolved → ∀ x, g.Reached x →
        Relation.TransGen g.Refers x x →
          ∃ c ∈ loops, Together g.Refers x c.head)) ∧
    (∀ stop fuel, Thompson.depthBound g ≤ fuel →
      checkBy g (walkWith g stop fuel) s = check g s) ∧
    (∀ g₀ o s', o.userTokenManager = false →
      Analysis.resolve g₀ (.new o) = (g, s') → s'.Clean →
        g.ReferencesResolved) ∧
    ∀ g₀ o s', o.userTokenManager = false →
      o.sanityCheck = true →
      analyze g₀ (.new o) = (g, s', .ok ()) →
        ∀ id ∈ listed g, ∀ ignoreCase stop,
          Thompson.segmentWith g ignoreCase stop
              (Thompson.depthBound g) [] id =
            Thompson.segment g ignoreCase id := by
  refine ⟨?_, fun stop fuel hFuel =>
    checkBy_walkWith hTree stop hFuel s, ?_, ?_⟩
  · rcases searching_check hTree s with
      ⟨loops, w, hSearching, hSame, hEntries⟩
    have hFound := hSearching.seeks.found
    rw [hSame]
    refine ⟨loops, hSearching.tells.entries, ?_, hFound.heads,
      loops_ne_nil_iff hSearching hEntries, ?_⟩
    · intro c hMem
      exact ⟨hSearching.tells.reached c hMem,
        hFound.closes c hMem⟩
    · intro hResolved x hReached hCyclic
      rcases exists_together_of_cyclic hCyclic with
        ⟨y, hRefers, -⟩
      have hListed := hResolved.mem_listed hReached hRefers
      exact hSearching.seeks.covers x (hEntries x hListed)
        hCyclic
  · intro g₀ o s' hManaged hResolve hClean
    have hResolved := referencesResolved_resolve
      (g := g₀) (s := .new o)
    rw [hResolve] at hResolved
    exact hResolved hTree rfl hManaged hClean
  · intro g₀ o s' hManaged hChecked hPasses id hListed
      ignoreCase stop
    exact Thompson.segmentWith_eq_segment hTree
      (acyclic_of_analyze hTree hManaged hChecked hPasses)
      hListed ignoreCase stop

/-
  `A` refers to `B`, `B` refers to `A` or `C`, and `C` refers
  to itself; all but `B` are private.
-/
def knottedTokens : Calls :=
  [.regex (.reference "B" none),
    .regex (.literal "a"),
    .regex (.sequence [0, 1]),
    .privateLabel 2 "A",
    .regex (.reference "A" none),
    .regex (.reference "C" none),
    .regex (.choice [3, 4]),
    .label 5 "B",
    .regex (.reference "C" none),
    .regex (.literal "c"),
    .regex (.sequence [6, 7]),
    .privateLabel 8 "C",
    .tokenSection (some ["DEFAULT"]) .token false,
    .tokenSpec 0 2 none none,
    .tokenSpec 0 5 none none,
    .tokenSpec 0 8 none none]

/-
  The first walk leaves `B` before it comes to `C`, and the
  loop of `C` is found by a walk of its own.  Where tokens refer
  to a private one, no segment is cut.
-/
theorem check_reports_loops_knotted :
    (∃ loops : List Cycle,
      (check knottedTokens.resolved.1
          knottedTokens.resolved.2).diagnostics.entries.toList =
        loops.map (report knottedTokens.resolved.1) ∧
      (loops.map fun c =>
          (report knottedTokens.resolved.1 c).message) =
        ["Loop in regular expression detected: \"...A... --> ...B... --> ...A...\"",
          "Loop in regular expression detected: \"...C... --> ...C...\""] ∧
      ∀ c ∈ loops, c.Closes knottedTokens.resolved.1.Refers) ∧
    knottedTokens.resolved.1.ReferencesResolved ∧
    ∃ g s,
      analyze assortedTokens.built.grammar (.new {}) =
          (g, s, .ok ()) ∧
        ∀ id ∈ listed g, ∀ stop,
          Thompson.segmentWith g false stop
              (Thompson.depthBound g) [] id =
            Thompson.segment g false id := by
  have hFresh : knottedTokens.built.grammar.Fresh := by
    apply Grammar.fresh_of_partsBefore
    · decide +kernel
    · decide +kernel
  have hClean : knottedTokens.resolved.2.diagnostics.errorCount = 0 := by
    cbv
  have hTree : knottedTokens.resolved.1.RegexTree :=
    (entriesApart_resolve hFresh _ hClean).1
  have hStart :
      knottedTokens.resolved.2.diagnostics.entries.toList = [] := by
    cbv
  have hMessages : (check knottedTokens.resolved.1
      knottedTokens.resolved.2).diagnostics.entries.toList.map
        (·.message) =
      ["Loop in regular expression detected: \"...A... --> ...B... --> ...A...\"",
        "Loop in regular expression detected: \"...C... --> ...C...\""] := by
    cbv
  rcases check_reports_loops hTree knottedTokens.resolved.2 with
    ⟨⟨loops, hEntries, hCloses, -⟩, -, hResolved, -⟩
  rw [hStart, List.nil_append] at hEntries
  rw [hEntries, List.map_map] at hMessages
  have hAssorted : assortedTokens.built.grammar.Fresh := by
    apply Grammar.fresh_of_partsBefore
    · decide +kernel
    · decide +kernel
  have hPasses : (analyze assortedTokens.built.grammar
      (.new {})).2.2 = .ok () := by
    cbv
  generalize hAnalyze : analyze assortedTokens.built.grammar
    (.new {}) = r at hPasses ⊢
  rcases r with ⟨g, s, passed⟩
  dsimp only at hPasses
  rw [hPasses] at hAnalyze ⊢
  have hTree' := (entriesApart_analyze hAssorted hAnalyze).1
  rcases check_reports_loops hTree' s with ⟨-, -, -, hUncut⟩
  refine ⟨⟨loops, hEntries, hMessages,
      fun c hMem => (hCloses c hMem).2⟩,
    hResolved knottedTokens.built.grammar {} _ rfl rfl hClean,
    g, s, rfl, ?_⟩
  intro id hListed stop
  exact hUncut _ _ _ rfl rfl hAnalyze id hListed false stop

end RegexLoop

end Descent
