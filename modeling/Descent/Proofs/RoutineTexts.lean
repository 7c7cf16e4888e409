import Descent.Proofs.Calls
import Mathlib

/-
  What the text of speculative routines defines and calls.

  A line is read by how it starts.  One that starts with the
  modifiers and the type of a routine defines it; one that
  tests a call, or returns what it comes to, calls the routine
  whose name follows.  Read like this, the lines of an entry
  point define it and call its routine, and the lines of a
  routine define it and call what its steps call, in the order
  of the steps.  All other lines define and call nothing.

  Main declarations:
    * `Speculation.definition?` and `Speculation.call?`
    * `Speculation.CallsInOrder`
    * `Speculation.definitions_entryLines` and
      `Speculation.definitions_routineLines`
    * `Speculation.calls_entryLines` and
      `Speculation.calls_routineLines`
-/

------------------------------------------------------------
-- Starts of lines
------------------------------------------------------------

namespace Descent

/- The expansions that a step calls, as often as it does. -/
def ScanStep.calls : ScanStep → List ExpId
  | .oneOrMore callee => [callee, callee]
  | step => step.callees

theorem ScanStep.mem_calls_iff
    (step : ScanStep)
    (callee : ExpId) :
    callee ∈ step.calls ↔ callee ∈ step.callees := by
  cases step with
  | oneOrMore callee' => simp [calls, callees]
  | _ => rfl

namespace Speculation

/- Neither of two texts starts with the other one. -/
def Apart
    (s s' : String) : Prop :=
  ¬ s.toList <+: s'.toList ∧ ¬ s'.toList <+: s.toList

instance (s s' : String) :
    Decidable (Apart s s') :=
  inferInstanceAs (Decidable (_ ∧ _))

/- What follows the text that a line starts with. -/
def after?
    (starts : List String)
    (line : String) : Option (List Char) :=
  starts.findSome? fun start =>
    line.toList.dropPrefix? start.toList

theorem dropPrefix?_eq_none
    {start : String}
    {cs : List Char}
    (hNot : ¬ start.toList <+: cs) :
    cs.dropPrefix? start.toList = none := by
  rw [Option.eq_none_iff_forall_ne_some]
  intro rest hSome
  rcases List.dropPrefix?_eq_some_iff.mp hSome with
    ⟨start', hSplit, hStart⟩
  rw [eq_of_beq hStart] at hSplit
  exact hNot ⟨rest, hSplit.symm⟩

/- A line that starts with a text starts with no other one. -/
theorem dropPrefix?_of_apart
    {start s : String}
    (hApart : Apart start s)
    (rest : String) :
    (s ++ rest).toList.dropPrefix? start.toList = none := by
  apply dropPrefix?_eq_none
  rw [String.toList_append]
  intro hStarts
  rcases List.prefix_or_prefix_of_prefix hStarts
    (List.prefix_append s.toList rest.toList) with
    hShort | hLong
  · exact hApart.1 hShort
  · exact hApart.2 hLong

theorem after?_eq_none
    {starts : List String}
    {s : String}
    (hApart : ∀ start ∈ starts, Apart start s)
    (rest : String) :
    after? starts (s ++ rest) = none := by
  unfold after?
  rw [List.findSome?_eq_none_iff]
  intro start hMem
  exact dropPrefix?_of_apart (hApart start hMem) rest

/- A line that starts with one of several texts. -/
theorem after?_eq_some
    {starts : List String}
    (hApart : starts.Pairwise Apart)
    {start : String}
    (hMem : start ∈ starts)
    (rest : String) :
    after? starts (start ++ rest) = some rest.toList := by
  unfold after?
  induction starts with
  | nil => cases hMem
  | cons first starts ih =>
      rcases List.pairwise_cons.mp hApart with ⟨hFirst, hRest⟩
      rw [List.findSome?_cons]
      rcases List.mem_cons.mp hMem with rfl | hMem
      · rw [String.toList_append,
          List.dropPrefix?_append_of_beq _ BEq.rfl]
      · rw [dropPrefix?_of_apart (hFirst start hMem)]
        exact ih hRest hMem

------------------------------------------------------------
-- Definitions and calls
------------------------------------------------------------

/- How lines start that define a routine. -/
def definitionStarts : List String :=
  [" inline bool ", "  private boolean ",
    "  static private boolean "]

/- The routine that a line defines, with its parameters. -/
def definition?
    (line : String) : Option String :=
  (after? definitionStarts line).map String.ofList

/- How lines start that call a routine. -/
def callStarts : List String :=
  ["    if (jj_3", "    if (!jj_semLA || jj_3",
    "      if (jj_3", "    return (!jj_3",
    "    try \x7b return (!jj_3"]

theorem apart_callStarts :
    callStarts.Pairwise Apart := by
  decide

/- What a line calls, and what follows the call. -/
def call?
    (line : String) : Option (List Char) :=
  after? callStarts line

/- A line that neither defines nor calls a routine. -/
structure Silent
    (line : String) : Prop where
  definition : definition? line = none
  call : call? line = none

/-
  The calls in some lines are those of some expansions, in
  this order, where tokens in place are left out.
-/
def CallsInOrder
    (t : ParserTables)
    (lines : List String)
    (callees : List ExpId) : Prop :=
  List.Forall₂
    (fun cs callee => (nameText t callee ++ "()").toList <+: cs)
    (lines.filterMap call?)
    (callees.filter fun callee => !isInline t callee)

/- A line calls one of the expansions. -/
theorem CallsInOrder.exists_callee
    {t : ParserTables}
    {lines : List String}
    {callees : List ExpId}
    (hCalls : CallsInOrder t lines callees)
    {line : String}
    (hLine : line ∈ lines)
    {cs : List Char}
    (hCall : call? line = some cs) :
    ∃ callee ∈ callees, isInline t callee = false ∧
      (nameText t callee ++ "()").toList <+: cs := by
  have hMem : cs ∈ lines.filterMap call? :=
    List.mem_filterMap.mpr ⟨line, hLine, hCall⟩
  rcases List.mem_iff_getElem.mp hMem with ⟨i, hInside, hAt⟩
  have hInside' : i < (callees.filter
      fun callee => !isInline t callee).length := by
    rw [← hCalls.length_eq]
    exact hInside
  have hNames := hCalls.get hInside hInside'
  have hCallee := List.mem_filter.mp
    (List.getElem_mem hInside')
  refine ⟨_, hCallee.1, by simpa using hCallee.2, ?_⟩
  rw [← hAt]
  exact hNames

theorem silent_of_starts
    (s : String)
    (hApart :
      ∀ start ∈ definitionStarts ++ callStarts, Apart start s)
    (rest : String) :
    Silent (s ++ rest) := by
  constructor
  · unfold definition?
    rw [after?_eq_none fun start hMem => hApart start
      (List.mem_append_left _ hMem)]
    rfl
  · exact after?_eq_none (fun start hMem => hApart start
      (List.mem_append_right _ hMem)) rest

theorem silent_of_apart
    {line : String}
    (hApart :
      ∀ start ∈ definitionStarts ++ callStarts,
        Apart start line) :
    Silent line := by
  have hSilent := silent_of_starts line hApart ""
  rwa [String.append_empty] at hSilent

------------------------------------------------------------
-- Lines of steps
------------------------------------------------------------

theorem silent_empty :
    Silent "" :=
  ⟨by decide, by decide⟩

/-
  Some lines define nothing and call the routines of some
  expansions in this order.
-/
structure ReadsAs
    (t : ParserTables)
    (lines : List String)
    (callees : List ExpId) : Prop where
  definitions : lines.filterMap definition? = []
  calls : CallsInOrder t lines callees

section Lines

variable {t : ParserTables}

theorem readsAs_of_silent
    {lines : List String}
    (hSilent : ∀ line ∈ lines, Silent line) :
    ReadsAs t lines [] := by
  have hNone : lines.filterMap call? = [] := by
    rw [List.filterMap_eq_nil_iff]
    exact fun line hMem => (hSilent line hMem).call
  constructor
  · rw [List.filterMap_eq_nil_iff]
    exact fun line hMem => (hSilent line hMem).definition
  · unfold CallsInOrder
    rw [hNone]
    exact .nil

theorem readsAs_nil :
    ReadsAs t [] [] :=
  ⟨rfl, .nil⟩

theorem readsAs_of_apart
    {lines : List String}
    (hApart : ∀ line ∈ lines,
      ∀ start ∈ definitionStarts ++ callStarts,
        Apart start line) :
    ReadsAs t lines [] :=
  readsAs_of_silent fun line hMem =>
    silent_of_apart (hApart line hMem)

theorem ReadsAs.append
    {lines lines' : List String}
    {callees callees' : List ExpId}
    (hFirst : ReadsAs t lines callees)
    (hSecond : ReadsAs t lines' callees') :
    ReadsAs t (lines ++ lines') (callees ++ callees') := by
  constructor
  · rw [List.filterMap_append, hFirst.definitions,
      hSecond.definitions, List.append_nil]
  · have hCalls := hFirst.calls
    have hCalls' := hSecond.calls
    unfold CallsInOrder at *
    rw [List.filterMap_append, List.filter_append]
    exact List.rel_append hCalls hCalls'

/- A token in place is not called like a routine. -/
theorem nameText_of_isInline
    {callee : ExpId}
    (hInline : isInline t callee = true) :
    ∃ rest, nameText t callee = "jj_scan_token(" ++ rest := by
  unfold isInline at hInline
  unfold nameText
  cases hName : nameOf? t callee with
  | none =>
      rw [hName] at hInline
      cases hInline
  | some name =>
      rw [hName] at hInline
      cases name with
      | entry n => cases hInline
      | routine production place n => cases hInline
      | token kind =>
          exact ⟨toString kind ++ ")", String.append_assoc⟩

/- How lines start that test an expansion. -/
def testStarts : List String :=
  ["    if (", "    if (!jj_semLA || ", "      if ("]

/- A line that tests an expansion calls its routine. -/
theorem readsAs_test
    (start : String)
    (hStart : start ∈ testStarts)
    (callee : ExpId)
    (rest : String) :
    ReadsAs t [start ++ (callText t callee ++ rest)]
      [callee] := by
  unfold callText
  cases hInline : isInline t callee with
  | true =>
      rcases nameText_of_isInline hInline with ⟨more, hName⟩
      have hApart : ∀ start ∈ testStarts,
          ∀ start' ∈ definitionStarts ++ callStarts,
            Apart start' (start ++ "jj_scan_token(") := by
        decide
      have hSilent := silent_of_starts
        (start ++ "jj_scan_token(") (hApart start hStart)
        (more ++ rest)
      rw [if_pos rfl, hName, String.append_assoc,
        ← String.append_assoc]
      constructor
      · simp [hSilent.definition]
      · simp [CallsInOrder, hSilent.call, hInline]
  | false =>
      have hMem : ∀ start ∈ testStarts,
          start ++ "jj_3" ∈ callStarts := by
        decide
      have hApart : ∀ start ∈ testStarts,
          ∀ start' ∈ definitionStarts, Apart start' start := by
        decide
      have hDefinition := after?_eq_none (hApart start hStart)
        (s!"jj_3{nameText t callee}()" ++ rest)
      have hCall := after?_eq_some apart_callStarts
        (hMem start hStart) (nameText t callee ++ "()" ++ rest)
      have hLine : start ++ (s!"jj_3{nameText t callee}()" ++
          rest) = start ++ "jj_3" ++
            (nameText t callee ++ "()" ++ rest) := by
        simp [toString, String.append_assoc]
      rw [if_neg Bool.false_ne_true]
      constructor
      · simp [definition?, hDefinition]
      · rw [CallsInOrder, hLine]
        simp [call?, hCall, hInline]

/- The statements that evaluate a guard. -/
def guardLines : Option String → List String
  | some code =>
      [ "    jj_lookingAhead = true;", s!"    jj_semLA = {code};",
        "    jj_lookingAhead = false;" ]
  | none => []

theorem silent_guardLines
    (guard : Option String) :
    ∀ line ∈ guardLines guard, Silent line := by
  cases guard with
  | none => exact fun line hMem => by cases hMem
  | some code =>
      have hValue := silent_of_starts "    jj_semLA = "
        (by decide) (code ++ ";")
      simp only [guardLines, List.forall_mem_cons, toString,
        String.append_assoc]
      refine ⟨silent_of_apart (by decide), hValue,
        silent_of_apart (by decide), ?_⟩
      exact fun line hMem => by cases hMem

/- How the line starts that tests an alternative. -/
def guardStart
    (guard : Option String) : String :=
  if guard.isSome then "    if (!jj_semLA || " else "    if ("

theorem alternativeLines_eq
    (fail : String)
    (isLast : Bool)
    (guard : Option String)
    (alt : ExpId) :
    alternativeLines t fail isLast (guard, alt) =
      guardLines guard ++
        if isLast then
          [guardStart guard ++ (callText t alt ++ (") " ++ fail))]
        else
          [guardStart guard ++ (callText t alt ++ ") \x7b"),
            "    jj_scanpos = xsp;"] := by
  cases guard <;> cases isLast <;>
    simp [alternativeLines, guardLines, guardStart, toString,
      String.append_assoc]

theorem readsAs_alternativeLines
    (fail : String)
    (isLast : Bool)
    (alternative : Option String × ExpId) :
    ReadsAs t (alternativeLines t fail isLast alternative)
      [alternative.2] := by
  rcases alternative with ⟨guard, alt⟩
  have hStart : guardStart guard ∈ testStarts := by
    unfold guardStart
    split
    · decide
    · decide
  have hGuard : ReadsAs t (guardLines guard) [] :=
    readsAs_of_silent (silent_guardLines guard)
  rw [alternativeLines_eq]
  cases isLast with
  | true => exact hGuard.append (readsAs_test _ hStart alt _)
  | false =>
      have hBack : ReadsAs t ["    jj_scanpos = xsp;"] [] :=
        readsAs_of_apart (by decide)
      exact hGuard.append
        ((readsAs_test _ hStart alt ") \x7b").append hBack)

theorem readsAs_choiceLines
    (fail : String)
    (alternatives : List (Option String × ExpId)) :
    ReadsAs t (choiceLines t fail alternatives)
      (alternatives.map (·.2)) := by
  induction alternatives with
  | nil => exact readsAs_nil
  | cons alternative rest ih =>
      cases rest with
      | nil => exact readsAs_alternativeLines fail true alternative
      | cons next rest =>
          exact (readsAs_alternativeLines fail false
            alternative).append ih

theorem readsAs_loopLines
    (callee : ExpId) :
    ReadsAs t (loopLines (callText t callee)) [callee] := by
  have hTest := @readsAs_test t "      if (" (by decide) callee
    ") \x7b jj_scanpos = xsp; break; \x7d"
  have hBefore : ReadsAs t
      ["    while (true) \x7b", "      xsp = jj_scanpos;"] [] :=
    readsAs_of_apart (by decide)
  have hAfter : ReadsAs t ["    \x7d"] [] :=
    readsAs_of_apart (by decide)
  have hAll := (hBefore.append hTest).append hAfter
  simpa [loopLines, toString, String.append_assoc] using hAll

theorem readsAs_stepLines
    (o : Options)
    (traced : Option String)
    (step : ScanStep) :
    ReadsAs t (stepLines o t traced step) step.calls := by
  have hTest : ∀ callee (rest : String), ReadsAs t
      [s!"    if ({callText t callee}) {rest}"] [callee] := by
    intro callee rest
    have hLine := @readsAs_test t "    if (" (by decide) callee
      (") " ++ rest)
    simpa [toString, String.append_assoc] using hLine
  cases step with
  | token label =>
      apply readsAs_of_silent
      intro line hMem
      rw [List.mem_singleton.mp hMem]
      have hSilent := silent_of_starts "    if (jj_scan_token("
        (by decide)
        (label ++ ")) " ++ returnText o traced true)
      simpa [toString, String.append_assoc] using hSilent
  | call callee => exact hTest callee _
  | code =>
      apply readsAs_of_silent
      intro line hMem
      rw [List.mem_singleton.mp hMem, String.append_assoc]
      exact silent_of_starts
        ("    if (true) \x7b jj_la = 0; " ++
          "jj_scanpos = jj_lastpos; ") (by decide) _
  | choice alternatives =>
      have hSave : ReadsAs t
          (if alternatives.length != 1 then
            ["    xsp = jj_scanpos;"] else []) [] := by
        split
        · exact readsAs_of_apart (by decide)
        · exact readsAs_of_apart (by decide)
      have hEnd : ReadsAs t
          (List.replicate (alternatives.length - 1) "    \x7d")
          [] := by
        apply readsAs_of_silent
        intro line hMem
        rw [List.eq_of_mem_replicate hMem]
        exact silent_of_apart (by decide)
      have hAll := (hSave.append (readsAs_choiceLines
        (returnText o traced true) alternatives)).append hEnd
      rwa [List.append_nil] at hAll
  | oneOrMore callee =>
      exact (hTest callee _).append (readsAs_loopLines callee)
  | zeroOrMore callee => exact readsAs_loopLines callee
  | zeroOrOne callee =>
      have hSave : ReadsAs t ["    xsp = jj_scanpos;"] [] :=
        readsAs_of_apart (by decide)
      have hLine := hSave.append (@readsAs_test t "    if ("
        (by decide) callee ") jj_scanpos = xsp;")
      simpa [stepLines, ScanStep.calls, ScanStep.callees,
        toString, String.append_assoc] using hLine

theorem readsAs_stepsLines
    (o : Options)
    (traced : Option String)
    (declared : Bool)
    (steps : List ScanStep) :
    ReadsAs t (stepsLines o t traced declared steps)
      (steps.flatMap ScanStep.calls) := by
  induction steps generalizing declared with
  | nil => exact readsAs_nil
  | cons step steps ih =>
      have hSave : ReadsAs t
          (if savesPosition step && !declared then
            [savedPosition o] else []) [] := by
        split
        · apply readsAs_of_silent
          intro line hMem
          rw [List.mem_singleton.mp hMem]
          unfold savedPosition
          cases o.isCpp
          · exact silent_of_apart (by decide)
          · exact silent_of_apart (by decide)
        · exact readsAs_nil
      exact (hSave.append (readsAs_stepLines o traced step)).append
        (ih _)

end Lines

------------------------------------------------------------
-- Lines of routines
------------------------------------------------------------

section Routines

variable {t : ParserTables}

/- The first line of a routine defines it. -/
theorem definition?_routineHeader
    (o : Options)
    (signature : String) :
    definition? (routineHeader o signature) = some signature ∧
      call? (routineHeader o signature) = none := by
  have hStart : ∃ start ∈ definitionStarts,
      routineHeader o signature = start ++ signature := by
    unfold routineHeader Options.booleanType
      Options.staticModifier
    cases o.isCpp with
    | true => exact ⟨" inline bool ", by decide, rfl⟩
    | false =>
        cases o.isStatic with
        | true =>
            exact ⟨"  static private boolean ", by decide, rfl⟩
        | false => exact ⟨"  private boolean ", by decide, rfl⟩
  have hApart : ∀ start ∈ definitionStarts,
      ∀ start' ∈ callStarts, Apart start' start := by
    decide
  rcases hStart with ⟨start, hMem, hHeader⟩
  rw [hHeader]
  constructor
  · unfold definition?
    rw [after?_eq_some (by decide) hMem, Option.map_some,
      String.ofList_toList]
  · exact after?_eq_none (hApart start hMem) signature

theorem readsAs_depthCheck
    (o : Options) :
    ReadsAs t (Scaffold.depthCheck o false) [] := by
  unfold Scaffold.depthCheck
  dsimp only
  split
  · exact readsAs_of_apart (by decide)
  · split
    · have hLimit : Silent
          s!"if(jj_depth > {o.depthLimit}) \x7b" := by
        have hSilent := silent_of_starts "if(jj_depth > "
          (by decide) (toString o.depthLimit ++ ") \x7b")
        simpa [toString, String.append_assoc] using hSilent
      apply readsAs_of_silent
      simp only [Bool.false_eq_true, if_false,
        List.forall_mem_cons]
      refine ⟨silent_of_apart (by decide),
        silent_of_apart (by decide), hLimit,
        silent_of_apart (by decide), silent_of_apart (by decide),
        silent_of_apart (by decide), silent_of_apart (by decide),
        silent_of_apart (by decide), ?_⟩
      exact fun line hMem => by cases hMem
    · have hLimit : Silent
          s!"if(++jj_depth > {o.depthLimit}) \x7b" := by
        have hSilent := silent_of_starts "if(++jj_depth > "
          (by decide) (toString o.depthLimit ++ ") \x7b")
        simpa [toString, String.append_assoc] using hSilent
      apply readsAs_of_silent
      simp only [List.forall_mem_cons]
      refine ⟨hLimit, silent_of_apart (by decide),
        silent_of_apart (by decide), silent_of_apart (by decide),
        silent_of_apart (by decide), ?_⟩
      exact fun line hMem => by cases hMem

theorem readsAs_depthCheckEnd
    (o : Options) :
    ReadsAs t (Scaffold.depthCheckEnd o) [] := by
  unfold Scaffold.depthCheckEnd
  split
  · exact readsAs_of_apart (by decide)
  · exact readsAs_of_apart (by decide)

/- The line that leaves a routine, with the trace of a production. -/
theorem silent_returnText
    (o : Options)
    (traced : Option String)
    (failed : Bool) :
    Silent s!"    {returnText o traced failed}" := by
  unfold returnText
  cases traced with
  | none =>
      cases failed with
      | true =>
          have hLine : Silent "    return true;" :=
            silent_of_apart (by decide)
          exact hLine
      | false =>
          have hLine : Silent "    return false;" :=
            silent_of_apart (by decide)
          exact hLine
  | some name =>
      simp only [toString, String.append_assoc]
      exact silent_of_starts "    \x7b " (by decide) _

theorem silent_traceCall
    (o : Options)
    (name : String) :
    Silent ("    " ++
      (if o.errorReporting then "if (!jj_rescan) " else "") ++
        "trace_call(\"" ++ name ++ "(LOOKING AHEAD...)\");") := by
  rw [String.append_assoc]
  cases o.errorReporting with
  | true =>
      exact silent_of_starts
        ("    " ++ "if (!jj_rescan) " ++ "trace_call(\"")
        (by decide) _
  | false =>
      exact silent_of_starts ("    " ++ "" ++ "trace_call(\"")
        (by decide) _

/- The line that is written for a traced production. -/
theorem readsAs_traceLine
    (o : Options)
    (traced : Option String) :
    ReadsAs t
      (match traced with
        | some name =>
            [ "    " ++
              (if o.errorReporting then "if (!jj_rescan) "
                else "") ++ "trace_call(\"" ++ name ++
                  "(LOOKING AHEAD...)\");" ]
        | none => []) [] := by
  apply readsAs_of_silent
  intro line hMem
  cases traced with
  | none => cases hMem
  | some name =>
      rw [List.mem_singleton.mp hMem]
      exact silent_traceCall o name

theorem readsAs_routineEnd :
    ReadsAs t ["  \x7d", ""] [] := by
  apply readsAs_of_silent
  simp only [List.forall_mem_cons]
  refine ⟨silent_of_apart (by decide), silent_empty, ?_⟩
  exact fun line hMem => by cases hMem

/- A line that is written under some condition. -/
theorem readsAs_ite
    (b : Bool)
    {line : String}
    (hSilent : Silent line) :
    ReadsAs t (if b then [line] else []) [] := by
  apply readsAs_of_silent
  intro line' hMem
  cases b with
  | true =>
      rw [List.mem_singleton.mp hMem]
      exact hSilent
  | false => cases hMem

/-
  The first line of a routine defines it; the others define
  nothing, and call what its steps call.
-/
theorem exists_routineLines
    (g : Grammar)
    (o : Options)
    (t : ParserTables)
    (id : ExpId)
    (steps : List ScanStep) :
    ∃ rest, routineLines g o t id steps =
        routineHeader o s!"jj_3{nameText t id}()" :: rest ∧
      ReadsAs t rest (steps.flatMap ScanStep.calls) := by
  let traced :=
    if o.debugLookahead && g.isProductionBody id then
      some (Text.escapeUnicode (Scaffold.productionName g id))
    else
      none
  have hOpen : ReadsAs t [" \x7b"] [] :=
    readsAs_of_apart (by decide)
  have hDone : Silent "    if (jj_done) return true;" :=
    silent_of_apart (by decide)
  have hDefine : Silent "#define __ERROR_RET__ true" :=
    silent_of_apart (by decide)
  have hReturn : ReadsAs t
      [s!"    {returnText o traced false}"] [] :=
    readsAs_ite true (silent_returnText o traced false)
  have hUndefine : Silent "#undef __ERROR_RET__" :=
    silent_of_apart (by decide)
  have hBefore := (((hOpen.append
    (readsAs_ite o.isCpp hDone)).append
    (readsAs_ite (o.isCpp && o.depthLimit > 0) hDefine)).append
    (readsAs_depthCheck o)).append (readsAs_traceLine o traced)
  have hAll := ((((hBefore.append
    (readsAs_stepsLines o traced false steps)).append
    hReturn).append (readsAs_depthCheckEnd o)).append
    (readsAs_ite (o.isCpp && o.depthLimit > 0)
      hUndefine)).append readsAs_routineEnd
  simp only [List.append_nil, List.nil_append] at hAll
  refine ⟨_, ?_, hAll⟩
  rfl

theorem definitions_routineLines
    (g : Grammar)
    (o : Options)
    (t : ParserTables)
    (id : ExpId)
    (steps : List ScanStep) :
    (routineLines g o t id steps).filterMap definition? =
      [s!"jj_3{nameText t id}()"] := by
  rcases exists_routineLines g o t id steps with
    ⟨rest, hLines, hReads⟩
  rw [hLines, List.filterMap_cons_some
    (definition?_routineHeader o _).1, hReads.definitions]

/- A routine calls what its steps call. -/
theorem calls_routineLines
    (g : Grammar)
    (o : Options)
    (t : ParserTables)
    (id : ExpId)
    (steps : List ScanStep) :
    CallsInOrder t (routineLines g o t id steps)
      (steps.flatMap ScanStep.calls) := by
  rcases exists_routineLines g o t id steps with
    ⟨rest, hLines, hReads⟩
  unfold CallsInOrder
  rw [hLines, List.filterMap_cons_none
    (definition?_routineHeader o _).2]
  exact hReads.calls

/- A line that returns what a routine comes to calls it. -/
theorem call?_return
    {start : String}
    (hStart : start = "    return (!" ∨
      start = "    try \x7b return (!")
    (name rest : String) :
    definition? (start ++ "jj_3" ++
        (name ++ "()" ++ rest)) = none ∧
      call? (start ++ "jj_3" ++ (name ++ "()" ++ rest)) =
        some (name ++ "()" ++ rest).toList := by
  have hMem : start ++ "jj_3" ∈ callStarts := by
    rcases hStart with rfl | rfl <;> decide
  have hApart : ∀ start' ∈ definitionStarts,
      Apart start' (start ++ "jj_3") := by
    rcases hStart with rfl | rfl <;> decide
  refine ⟨?_, after?_eq_some apart_callStarts hMem _⟩
  unfold definition?
  rw [after?_eq_none hApart]
  rfl

/-
  The first line of an entry point defines it; the others
  define nothing, and one of them calls its routine.
-/
theorem exists_entryLines
    (o : Options)
    (t : ParserTables)
    (id : ExpId) :
    ∃ before call after more, entryLines o t id =
        routineHeader o s!"jj_2{nameText t id}(int xla)" ::
          (before ++ ([call] ++ after)) ∧
      ReadsAs t before [] ∧ definition? call = none ∧
      call? call = some (nameText t id ++ "()" ++ more).toList ∧
      ReadsAs t after [] := by
  let slot := ((Assoc.get? id t.routineIndex).getD 1) - 1
  let depth :=
    if o.depthLimit > 0 then " && !jj_depth_error" else ""
  have hSlot : ReadsAs t
      (if o.errorReporting then
        [ (if o.isCpp then " " else "    finally ") ++
          s!"\x7b jj_save({slot}, xla); \x7d" ]
      else []) [] := by
    apply readsAs_ite
    simp only [toString, String.append_assoc]
    rw [← String.append_assoc]
    cases o.isCpp with
    | true =>
        exact silent_of_starts (" " ++ "\x7b jj_save(")
          (by decide) _
    | false =>
        exact silent_of_starts
          ("    finally " ++ "\x7b jj_save(") (by decide) _
  have hAfter := hSlot.append (@readsAs_routineEnd t)
  cases hLanguage : o.isCpp with
  | true =>
      rw [hLanguage] at hAfter
      have hCall := call?_return (.inl rfl) (nameText t id)
        (" || jj_done)" ++ depth ++ ";")
      have hBefore : ReadsAs t
          [" \x7b",
            "    jj_la = xla; jj_lastpos = jj_scanpos = token;",
            "    jj_done = false;"] [] :=
        readsAs_of_apart (by decide)
      refine ⟨_, _, _, _, ?_, hBefore, hCall.1, hCall.2, hAfter⟩
      simp [entryLines, hLanguage, toString,
        String.append_assoc, slot, depth, ← String.toList_inj]
  | false =>
      rw [hLanguage] at hAfter
      have hCall := call?_return (.inr rfl) (nameText t id)
        (depth ++ "); \x7d")
      have hBefore : ReadsAs t
          [" \x7b",
            "    jj_la = xla; jj_lastpos = jj_scanpos = token;"]
          [] :=
        readsAs_of_apart (by decide)
      have hCatch : ReadsAs t
          ["    catch(LookaheadSuccess ls) \x7b return true; \x7d"]
          [] :=
        readsAs_of_apart (by decide)
      refine ⟨_, _, _, _, ?_, hBefore, hCall.1, hCall.2,
        hCatch.append hAfter⟩
      simp [entryLines, hLanguage, toString,
        String.append_assoc, slot, depth]

theorem definitions_entryLines
    (o : Options)
    (t : ParserTables)
    (id : ExpId) :
    (entryLines o t id).filterMap definition? =
      [s!"jj_2{nameText t id}(int xla)"] := by
  rcases exists_entryLines o t id with
    ⟨before, call, after, more, hLines, hBefore, hCall, -,
      hAfter⟩
  rw [hLines, List.filterMap_cons_some
      (definition?_routineHeader o _).1,
    List.filterMap_append, hBefore.definitions,
    List.filterMap_append, hAfter.definitions]
  simp [hCall]

/- An entry point calls its own routine, once. -/
theorem calls_entryLines
    (o : Options)
    (t : ParserTables)
    (id : ExpId) :
    ∃ cs, (entryLines o t id).filterMap call? = [cs] ∧
      (nameText t id ++ "()").toList <+: cs := by
  rcases exists_entryLines o t id with
    ⟨before, call, after, more, hLines, hBefore, -, hCall,
      hAfter⟩
  have hNone : ∀ {lines}, ReadsAs t lines [] →
      lines.filterMap call? = [] := by
    intro lines hReads
    exact List.forall₂_nil_right_iff.mp hReads.calls
  refine ⟨(nameText t id ++ "()" ++ more).toList, ?_, ?_⟩
  · rw [hLines, List.filterMap_cons_none
        (definition?_routineHeader o _).2,
      List.filterMap_append, hNone hBefore,
      List.filterMap_append, hNone hAfter, List.append_nil,
      List.nil_append, List.filterMap_cons_some hCall]
    rfl
  · have hSplit : (nameText t id ++ "()" ++ more).toList =
        (nameText t id ++ "()").toList ++ more.toList :=
      String.toList_append
    rw [hSplit]
    exact List.prefix_append _ _

end Routines

end Speculation

end Descent
