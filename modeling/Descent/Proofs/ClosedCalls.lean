import Descent.Proofs.EntryPoints
import Descent.Proofs.RoutineTexts

/-
  Speculative routines are closed under calls.

  Everything that the written routines call is written: entry
  points are numbered from one on without gaps, every routine
  has a name of its own, and a routine is written with at
  least the budget that is left wherever it is called.  This
  is said of the requests and their steps and again of the
  text that the header gets.

  Main declarations:
    * `RoutineName.serial?_inj`
    * `Speculation.written` and `Speculation.Answered`
    * `Speculation.answered_of_requested`
    * `Speculation.output_generate`
    * `Speculation.completes_methods`
    * `Speculation.entriesText` and `Speculation.routinesText`
    * `Speculation.exists_written_of_call?`
    * `Speculation.generate_closes_calls`
-/

------------------------------------------------------------
-- Texts of names
------------------------------------------------------------

namespace Descent

namespace RoutineName

/- What stands after the last mark is found again. -/
theorem eq_of_append_mark
    {α : Type}
    {mark : α}
    {xs ys ds es : List α}
    (hSame : xs ++ mark :: ds = ys ++ mark :: es)
    (hd : mark ∉ ds)
    (he : mark ∉ es) :
    ds = es := by
  rcases List.append_eq_append_iff.mp hSame with
    ⟨between, -, hRest⟩ | ⟨between, -, hRest⟩
  · cases between with
    | nil => exact (List.cons.inj hRest).2
    | cons c between =>
        rw [(List.cons.inj hRest).2] at hd
        exact absurd
          (List.mem_append_right _ List.mem_cons_self) hd
  · cases between with
    | nil => exact (List.cons.inj hRest).2.symm
    | cons c between =>
        rw [(List.cons.inj hRest).2] at he
        exact absurd
          (List.mem_append_right _ List.mem_cons_self) he

theorem eq_of_text_append
    {before before' : String}
    {n n' : Nat}
    (hSame : before ++ "_" ++ n.repr =
      before' ++ "_" ++ n'.repr) :
    n = n' := by
  have hLists := congrArg String.toList hSame
  simp only [String.toList_append, List.append_assoc] at hLists
  have hDigits : n.repr.toList = n'.repr.toList :=
    eq_of_append_mark hLists
      (by rw [Nat.toList_repr]; exact Nat.underscore_not_in_toDigits)
      (by rw [Nat.toList_repr]; exact Nat.underscore_not_in_toDigits)
  exact Nat.repr_inj.mp (String.toList_inj.mp hDigits)

/- The text of a name tells what tells it apart. -/
theorem serial?_inj
    {name name' : RoutineName}
    {n n' : Bool × Nat}
    (hSerial : name.serial? = some n)
    (hSerial' : name'.serial? = some n')
    (hText : name.text = name'.text) :
    n = n' := by
  have hApart : ∀ {i production place j},
      (entry i).text ≠ (routine production place j).text := by
    intro i production place j hSame
    have hLists : ("_" ++ i.repr).toList =
        ("R_" ++ production ++ "_" ++ place.line.repr ++ "_" ++
          place.column.repr ++ "_" ++ j.repr).toList :=
      congrArg String.toList hSame
    simp only [String.toList_append, List.append_assoc] at hLists
    exact absurd (List.cons.inj hLists).1 (by decide)
  cases name with
  | entry i =>
      cases hSerial
      cases name' with
      | entry j =>
          cases hSerial'
          have hSame : "" ++ "_" ++ i.repr = "" ++ "_" ++ j.repr :=
            hText
          rw [eq_of_text_append hSame]
      | routine production place j => exact absurd hText hApart
      | token kind => cases hSerial'
  | routine production place i =>
      cases hSerial
      cases name' with
      | entry j => exact absurd hText.symm hApart
      | routine production' place' j =>
          cases hSerial'
          rw [eq_of_text_append hText]
      | token kind => cases hSerial'
  | token kind => cases hSerial

end RoutineName

------------------------------------------------------------
-- Texts of routines
------------------------------------------------------------

/- Lines of the header file are appended to it. -/
theorem Output.lines_header
    {out : Output}
    (hChannel : out.channel = .header)
    (texts : List String) :
    out.lines texts =
      { out with
        header := out.header ++
          String.join (texts.map (· ++ "\n")) } := by
  induction texts generalizing out with
  | nil => simp [Output.lines]
  | cons text texts ih =>
      have hLine : out.line text =
          { out with header := out.header ++ text ++ "\n" } := by
        unfold Output.line Output.write
        rw [hChannel]
      have hRest := @ih (out.line text)
        (by rw [hLine]; exact hChannel)
      change (out.line text).lines texts = _
      rw [hRest, hLine]
      simp [String.append_assoc]

theorem Output.lines_append
    (out : Output)
    (texts texts' : List String) :
    (out.lines texts).lines texts' =
      out.lines (texts ++ texts') :=
  (List.foldl_append).symm

namespace Speculation

section Texts

variable {t t' : ParserTables}

theorem nameText_congr
    (hNames : t'.routineNames = t.routineNames) :
    nameText t' = nameText t := by
  funext id
  unfold nameText nameOf?
  rw [hNames]

theorem callText_congr
    (hNames : t'.routineNames = t.routineNames) :
    callText t' = callText t := by
  funext id
  unfold callText isInline nameOf?
  rw [nameText_congr hNames, hNames]

theorem choiceLines_congr
    (hNames : t'.routineNames = t.routineNames)
    (fail : String)
    (alternatives : List (Option String × ExpId)) :
    choiceLines t' fail alternatives =
      choiceLines t fail alternatives := by
  have hEach : ∀ isLast alternative,
      alternativeLines t' fail isLast alternative =
        alternativeLines t fail isLast alternative := by
    intro isLast alternative
    unfold alternativeLines
    rw [callText_congr hNames]
  induction alternatives with
  | nil => rfl
  | cons alternative rest ih =>
      cases rest with
      | nil => exact hEach true alternative
      | cons next rest =>
          have hMore : ∀ t : ParserTables,
              choiceLines t fail (alternative :: next :: rest) =
                alternativeLines t fail false alternative ++
                  choiceLines t fail (next :: rest) :=
            fun _ => rfl
          rw [hMore, hMore, hEach, ih]

theorem stepLines_congr
    (hNames : t'.routineNames = t.routineNames)
    (o : Options)
    (traced : Option String)
    (step : ScanStep) :
    stepLines o t' traced step = stepLines o t traced step := by
  cases step with
  | choice alternatives =>
      simp only [stepLines, choiceLines_congr hNames]
  | _ => simp only [stepLines, callText_congr hNames]

theorem stepsLines_congr
    (hNames : t'.routineNames = t.routineNames)
    (o : Options)
    (traced : Option String)
    (declared : Bool)
    (steps : List ScanStep) :
    stepsLines o t' traced declared steps =
      stepsLines o t traced declared steps := by
  induction steps generalizing declared with
  | nil => rfl
  | cons step steps ih =>
      simp only [stepsLines, stepLines_congr hNames, ih]

/- The text of a routine depends on names only. -/
theorem routineLines_congr
    (hNames : t'.routineNames = t.routineNames)
    (g : Grammar)
    (o : Options)
    (id : ExpId)
    (steps : List ScanStep) :
    routineLines g o t' id steps = routineLines g o t id steps := by
  unfold routineLines
  simp only [nameText_congr hNames, stepsLines_congr hNames]

end Texts

------------------------------------------------------------
-- What is written
------------------------------------------------------------

/- The routines that are written: all but tokens in place. -/
def written
    (t : ParserTables) : List ScanRequest :=
  (t.routines.map (·.2)).filter fun r => !isInline t r.exp

theorem foldl_writeEntry
    (o : Options)
    (entries : List ScanRequest)
    (out : Output)
    (t : ParserTables) :
    entries.foldl (writeEntry o) (out, t) =
      (out.lines (entries.flatMap fun r => entryLines o t r.exp),
        entries.foldl (fun t r => push r t) t) := by
  induction entries generalizing out t with
  | nil => rfl
  | cons r entries ih =>
      have hRest := ih (out.lines (entryLines o t r.exp)) (push r t)
      rw [Output.lines_append] at hRest
      exact hRest

section Writing

variable {g : Grammar} {s : Session} {t : ParserTables}

theorem steps_congr
    {t' : ParserTables}
    (hRemembers : Remembers g s t)
    (hRemembers' : Remembers g s t')
    (hSame : t'.essential = t.essential)
    (r : ScanRequest) :
    ∃ t'', (steps g s r).run t' =
        (((steps g s r).run t).1, t'') ∧
      Remembers g s t'' ∧ t''.essential = t.essential := by
  rcases spares_stepsTo (g.expansions.size + 1) r.exp r.count t
    hRemembers with ⟨t₁, hRun₁, -, -⟩
  rcases spares_stepsTo (g.expansions.size + 1) r.exp r.count t'
    hRemembers' with ⟨t₂, hRun₂, hRemembers₂, hSame₂⟩
  refine ⟨t₂, ?_, hRemembers₂, hSame₂.trans hSame⟩
  unfold steps
  rw [hRun₁, hRun₂, hSame]

/- Routines are written one after the other, by the tables. -/
theorem foldl_writeRoutine
    (hRemembers : Remembers g s t)
    (routines : List ScanRequest)
    (out : Output)
    {t' : ParserTables}
    (hRemembers' : Remembers g s t')
    (hSame : t'.essential = t.essential) :
    (routines.foldl (writeRoutine g s) (out, t')).1 =
      out.lines ((routines.filter
        fun r => !isInline t r.exp).flatMap fun r =>
          routineLines g s.options t r.exp
            ((steps g s r).run t).1) := by
  induction routines generalizing out t' with
  | nil => rfl
  | cons r routines ih =>
      have hNames : t'.routineNames = t.routineNames :=
        (congrArg ParserTables.routineNames hSame :)
      have hInline : isInline t' r.exp = isInline t r.exp := by
        unfold isInline nameOf?
        rw [hNames]
      rw [List.foldl_cons]
      unfold writeRoutine
      dsimp only
      rw [hInline]
      cases hToken : isInline t r.exp with
      | true =>
          have hSkip : (!isInline t r.exp) = false := by
            rw [hToken]
            rfl
          rw [List.filter_cons_of_neg (by simp [hSkip])]
          exact ih out hRemembers' hSame
      | false =>
          rcases steps_congr hRemembers hRemembers' hSame r with
            ⟨t'', hRun, hRemembers'', hSame''⟩
          have hNames'' : t''.routineNames = t.routineNames :=
            (congrArg ParserTables.routineNames hSame'' :)
          rw [List.filter_cons_of_pos (by simp [hToken]),
            List.flatMap_cons, ← Output.lines_append, hRun]
          rw [if_neg Bool.false_ne_true]
          dsimp only
          rw [routineLines_congr hNames'']
          exact ih _ hRemembers'' hSame''

/- The output of methods goes on with what is written. -/
theorem output_generate
    {out main : Output}
    {s₁ : Session}
    (hMethods : Parser.methods g s out = (main, s₁))
    (hRequests : requestAll g s₁ (entered s₁.parser) = t)
    (hRemembers : Remembers g s₁ t) :
    (Parser.generate g s out).1 =
      ((main.switch .header).lines
        ((s₁.parser.entries.toList.flatMap fun r =>
          entryLines s₁.options s₁.parser r.exp) ++
        (written t).flatMap fun r =>
          routineLines g s₁.options t r.exp
            ((steps g s₁ r).run t).1)).switch .main := by
  have hGenerate : (Parser.generate g s out).1 =
      (writeAll g (Parser.methods g s out).2
        ((Parser.methods g s out).1.switch .header)
        (Parser.methods g s out).2.parser).1.switch .main :=
    rfl
  have hWritten := foldl_writeRoutine hRemembers
    (t.routines.map (·.2))
    ((main.switch .header).lines
      (s₁.parser.entries.toList.flatMap fun r =>
        entryLines s₁.options s₁.parser r.exp))
    hRemembers rfl
  unfold entered at hRequests
  rw [Output.lines_append] at hWritten
  rw [hGenerate, hMethods]
  unfold writeAll
  dsimp only
  rw [foldl_writeEntry]
  dsimp only
  rw [hRequests, hWritten]
  rfl

end Writing

------------------------------------------------------------
-- Calls of what is written
------------------------------------------------------------

/-
  A call is answered: the routine of the expansion is written,
  with a budget that is as large.
-/
def Answered
    (t : ParserTables)
    (call : ScanRequest) : Prop :=
  ∃ known ∈ written t,
    known.exp = call.exp ∧ call.count ≤ known.count

section Answers

variable {g : Grammar} {s : Session} {most : Nat}
variable {t : ParserTables}

theorem mem_written
    {r : ScanRequest} :
    r ∈ written t ↔
      (∃ e, (e, r) ∈ t.routines) ∧ isInline t r.exp = false := by
  unfold written
  rw [List.mem_filter, List.mem_map, Bool.not_eq_true']
  constructor
  · rintro ⟨⟨⟨e, r'⟩, hMem, rfl⟩, hInline⟩
    exact ⟨⟨e, hMem⟩, hInline⟩
  · rintro ⟨⟨e, hMem⟩, hInline⟩
    exact ⟨⟨(e, r), hMem, rfl⟩, hInline⟩

theorem answered_of_lt_level
    (hQueued : Queued g most t)
    {call : ScanRequest}
    (hInline : isInline t call.exp = false)
    (hKnown : call.count < level t call.exp) :
    Answered t call := by
  unfold level at hKnown
  cases hGet : Assoc.get? call.exp t.routines with
  | none =>
      rw [hGet] at hKnown
      exact absurd hKnown (Nat.not_lt_zero _)
  | some known =>
      rw [hGet] at hKnown
      have hMem := Assoc.mem_of_get? hGet
      have hExp := (hQueued.listed hMem).1
      refine ⟨known, mem_written.mpr ⟨⟨_, hMem⟩, ?_⟩, hExp,
        Nat.lt_succ_iff.mp hKnown⟩
      rw [hExp]
      exact hInline

/- What has been requested is a token, or is answered. -/
theorem answered_of_requested
    (hQueued : Queued g most t)
    {call : ScanRequest}
    (hRequested : Requested t call) :
    isInline t call.exp = true ∨ Answered t call := by
  cases hInline : isInline t call.exp with
  | true => exact .inl rfl
  | false =>
      right
      rcases hRequested with hToken | hKnown
      · rw [hInline] at hToken
        cases hToken
      · exact answered_of_lt_level hQueued hInline hKnown

theorem nameText_of_name
    {e : ExpId}
    {name : RoutineName}
    (hName : nameOf? t e = some name) :
    nameText t e = name.text := by
  unfold nameText
  rw [hName]
  rfl

/- Routines that are written have names of their own. -/
theorem nodup_written
    (hNamed : Named t.routineNames t.labelCount)
    (hQueued : Queued g most t) :
    ((written t).map fun r => nameText t r.exp).Nodup := by
  have hKeys : (t.routines.map (·.2)).map (·.exp) =
      t.routines.map (·.1) := by
    rw [List.map_map]
    exact List.map_congr_left fun e hMem =>
      (hQueued.listed hMem).1
  have hExps : ((written t).map (·.exp)).Nodup := by
    have hAll := hQueued.keys
    rw [← hKeys] at hAll
    exact hAll.sublist (List.filter_sublist.map _)
  -- A routine that is written has a name with a number.
  have hSerial : ∀ r ∈ written t, ∃ name n,
      nameOf? t r.exp = some name ∧ name.serial? = some n ∧
        nameText t r.exp = name.text := by
    intro r hMem
    rcases mem_written.mp hMem with ⟨⟨e, hListed⟩, hInline⟩
    rcases hQueued.named r (hQueued.listed hListed).2 with
      ⟨name, hName⟩
    have hText := nameText_of_name hName
    cases name with
    | entry n => exact ⟨_, _, hName, rfl, hText⟩
    | routine production place n =>
        exact ⟨_, _, hName, rfl, hText⟩
    | token kind =>
        rw [isInline_iff.mpr ⟨kind, hName⟩] at hInline
        cases hInline
  have hNames := List.Nodup.map_on (f := nameText t) ?_ hExps
  · rw [List.map_map] at hNames
    exact hNames
  · intro e he e' he' hSame
    rcases List.mem_map.mp he with ⟨r, hr, rfl⟩
    rcases List.mem_map.mp he' with ⟨r', hr', rfl⟩
    rcases hSerial r hr with ⟨name, n, hName, hn, hText⟩
    rcases hSerial r' hr' with ⟨name', n', hName', hn', hText'⟩
    have hNumber := RoutineName.serial?_inj hn hn'
      (hText.symm.trans (hSame.trans hText'))
    rw [← hNumber] at hn'
    exact hNamed.apart hName hName' hn hn'

/- Entry points are numbered from one on. -/
theorem nameText_entries
    {done : List Condition}
    (hOpened : Opened done t) :
    t.entries.toList.map (fun r => nameText t r.exp) =
      (List.range t.entryCount).map fun i => s!"_{i + 1}" := by
  rw [hOpened.entries, hOpened.entryCount, List.map_map]
  apply List.ext_getElem
  · simp
  · intro i hLeft hRight
    rw [List.length_map] at hLeft
    have hName : nameOf? t (done[i]).target =
        some (.entry (i + 1)) :=
      (hOpened.names _ _).mpr
        ⟨i, done[i], List.getElem?_eq_getElem hLeft, rfl, rfl⟩
    rw [List.getElem_map, List.getElem_map, List.getElem_range]
    exact nameText_of_name hName

/- The routine of an entry point keeps its name and is written. -/
theorem answered_of_mem_entries
    {done : List Condition}
    {t₁ : ParserTables}
    (hOpened : Opened done t₁)
    (hAdvances : Advances g most t₁ t)
    {r : ScanRequest}
    (hMem : r ∈ t₁.entries)
    (hKnown : r.count < level t r.exp) :
    nameText t r.exp = nameText t₁ r.exp ∧ Answered t r := by
  have hListed := Array.mem_toList_iff.mpr hMem
  rw [hOpened.entries] at hListed
  rcases List.mem_map.mp hListed with ⟨c, hc, rfl⟩
  rcases List.mem_iff_getElem?.mp hc with ⟨i, hAt⟩
  have hName : nameOf? t₁ c.target = some (.entry (i + 1)) :=
    (hOpened.names _ _).mpr ⟨i, c, hAt, rfl, rfl⟩
  have hKept := hAdvances.names c.target _ hName
  constructor
  · exact (nameText_of_name hKept).trans
      (nameText_of_name hName).symm
  · apply answered_of_lt_level hAdvances.queued _ hKnown
    unfold isInline
    exact congrArg (fun name : Option RoutineName =>
      (name.map RoutineName.isToken).getD false) hKept

/- All requests are worked off once methods are written. -/
theorem completes_methods
    (hArranged : g.Arranged)
    (hKnows : s.KnowsNames g)
    {out main : Output}
    {s₁ : Session}
    (hMethods : Parser.methods g s out = (main, s₁)) :
    ∃ done most, Opened done s₁.parser ∧ s₁.KnowsNames g ∧
      Advances g most s₁.parser (entered s₁.parser) ∧
      (entered s₁.parser).requests.toList =
        s₁.parser.entries.toList ∧
      Completes g s₁ most (entered s₁.parser)
        (requestAll g s₁ (entered s₁.parser)) ∧
      ∀ fuel, requestBound g (entered s₁.parser) ≤ fuel →
        requestFrom g s₁ fuel 0 (entered s₁.parser) =
          requestAll g s₁ (entered s₁.parser) := by
  rcases opened_methods hArranged s out with
    ⟨done, diagnostics, tables, hSession, hNodup, hInside,
      hOpened⟩
  rw [hMethods] at hSession
  dsimp only at hSession
  subst hSession
  have hNames : Session.KnowsNames { s with
      diagnostics := diagnostics, parser := tables } g :=
    hKnows
  have hBodies : ∀ name body,
      bodyOf? g { s with
        diagnostics := diagnostics, parser := tables } name =
          some body →
        body < g.expansions.size := by
    intro name body hBody
    rcases (bodyOf?_eq_some_iff hNames name body).mp hBody with
      ⟨p, hMem, -, hIs⟩
    exact hArranged.inside body (Grammar.mem_bodies hMem hIs)
  rcases advances_entered hOpened hNodup hInside with
    ⟨hEntered, hEntries, hRemembers⟩
  exact ⟨done, _, hOpened, hNames, hEntered, hEntries,
    completes_requestAll hArranged.nested hBodies
      (hRemembers _) hEntered.named hEntered.queued⟩

end Answers

------------------------------------------------------------
-- Texts of entry points and routines
------------------------------------------------------------

section Texts

variable {g : Grammar} {s : Session} {t : ParserTables}

/- The lines of all entry points. -/
def entriesText
    (s : Session) : List String :=
  s.parser.entries.toList.flatMap fun r =>
    entryLines s.options s.parser r.exp

/- The lines of all routines that are written. -/
def routinesText
    (g : Grammar)
    (s : Session)
    (t : ParserTables) : List String :=
  (written t).flatMap fun r =>
    routineLines g s.options t r.exp ((steps g s r).run t).1

/- The entry points that are defined are those from one on. -/
theorem definitions_entriesText
    {done : List Condition}
    (hOpened : Opened done s.parser) :
    (entriesText s).filterMap definition? =
      (List.range s.parser.entryCount).map
        fun i => s!"jj_2_{i + 1}(int xla)" := by
  have hNames := congrArg
    (List.map fun name => s!"jj_2{name}(int xla)")
    (nameText_entries hOpened)
  rw [List.map_map, List.map_map] at hNames
  unfold entriesText
  rw [List.filterMap_flatMap]
  simp only [definitions_entryLines]
  rw [← List.map_eq_flatMap]
  refine hNames.trans (List.map_congr_left fun i _ => ?_)
  simp [toString, String.append_assoc, ← String.toList_inj]

/- The routines that are defined are those that are written. -/
theorem definitions_routinesText :
    (routinesText g s t).filterMap definition? =
      (written t).map fun r => s!"jj_3{nameText t r.exp}()" := by
  unfold routinesText
  rw [List.filterMap_flatMap]
  simp only [definitions_routineLines]
  rw [← List.map_eq_flatMap]

/-
  Whatever a line calls is written, if entry points keep their
  names and all calls are answered.
-/
theorem exists_written_of_call?
    (hEntries : ∀ r ∈ s.parser.entries,
      nameText t r.exp = nameText s.parser r.exp ∧
        Answered t r)
    (hRoutines : ∀ r ∈ written t,
      ((steps g s r).run t).1.flatMap ScanStep.callees =
        (callsOf g s (isInline t) r).map (·.exp) ∧
      ∀ call ∈ callsOf g s (isInline t) r,
        isInline t call.exp = true ∨ Answered t call)
    {line : String}
    (hLine : line ∈ entriesText s ++ routinesText g s t)
    {cs : List Char}
    (hCall : call? line = some cs) :
    ∃ known ∈ written t,
      (nameText t known.exp ++ "()").toList <+: cs := by
  rcases List.mem_append.mp hLine with hLine | hLine
  · rcases List.mem_flatMap.mp hLine with ⟨r, hr, hLine⟩
    rcases hEntries r (Array.mem_toList_iff.mp hr) with
      ⟨hName, known, hKnown, hExp, -⟩
    rcases calls_entryLines s.options s.parser r.exp with
      ⟨cs', hCalls, hStarts⟩
    have hMem : cs ∈ [cs'] := by
      rw [← hCalls]
      exact List.mem_filterMap.mpr ⟨line, hLine, hCall⟩
    refine ⟨known, hKnown, ?_⟩
    rw [hExp, hName, List.mem_singleton.mp hMem]
    exact hStarts
  · rcases List.mem_flatMap.mp hLine with ⟨r, hr, hLine⟩
    rcases (calls_routineLines g s.options t r.exp _).exists_callee
      hLine hCall with ⟨callee, hMem, hInline, hStarts⟩
    rcases List.mem_flatMap.mp hMem with ⟨step, hStep, hMem⟩
    have hCallee : callee ∈
        ((steps g s r).run t).1.flatMap ScanStep.callees :=
      List.mem_flatMap.mpr
        ⟨step, hStep, (step.mem_calls_iff callee).mp hMem⟩
    rcases hRoutines r hr with ⟨hSteps, hAnswers⟩
    rw [hSteps] at hCallee
    rcases List.mem_map.mp hCallee with ⟨call, hCalls, rfl⟩
    rcases hAnswers call hCalls with hToken | hAnswered
    · rw [hInline] at hToken
      cases hToken
    · rcases hAnswered with ⟨known, hKnown, hExp, -⟩
      refine ⟨known, hKnown, ?_⟩
      rw [hExp]
      exact hStarts

end Texts

------------------------------------------------------------
-- Closed routines
------------------------------------------------------------

/-
  The speculative routines of a parser, for a grammar that
  passes the checks and in which no expansion has two owners,
  once the methods have been written.

  The output goes on with the entry points and the routines.
  No search is cut off by its bound, and the requests come to
  an end.  The entry points are numbered from one on, each
  once.  No two routines have the same name.  Whatever an
  entry point or a routine calls is a token in place or is
  written, and what is written has at least the budget that is
  left at the call.

  The same is read from the text.  What is added to the header
  defines one entry point for each number and one routine for
  each name, and nothing else.  Each call in it is a call of a
  routine that it defines: an entry point has one call, of its
  own routine, and a routine calls what its steps call, in the
  same order.
-/
theorem generate_closes_calls
    {b : Builder}
    (hMade : Made b)
    (hOwned : b.grammar.SinglyOwned)
    {o : Options}
    (hSanity : o.sanityCheck = true)
    {g : Grammar}
    {s : Session}
    (hPasses : analyze b.grammar (.new o) = (g, s, .ok ()))
    {out main : Output}
    {s₁ : Session}
    (hMethods : Parser.methods g s out = (main, s₁))
    {t : ParserTables}
    (hRequests : requestAll g s₁ (entered s₁.parser) = t) :
    (Parser.generate g s out).1 =
      ((main.switch .header).lines
        ((s₁.parser.entries.toList.flatMap fun r =>
          entryLines s₁.options s₁.parser r.exp) ++
        (written t).flatMap fun r =>
          routineLines g s₁.options t r.exp
            ((steps g s₁ r).run t).1)).switch .main ∧
    (∀ n, g.expansions.size < n → ∀ id,
      soleToken? g s₁ n id =
          soleToken? g s₁ (g.expansions.size + 1) id ∧
        requestPartsTo g s₁ n id =
          requestPartsTo g s₁ (g.expansions.size + 1) id ∧
        stepsTo g s₁ n id =
          stepsTo g s₁ (g.expansions.size + 1) id) ∧
    (∀ n, requestBound g (entered s₁.parser) ≤ n →
      requestFrom g s₁ n 0 (entered s₁.parser) = t) ∧
    s₁.parser.entries.toList.map
        (fun r => nameText s₁.parser r.exp) =
      (List.range s₁.parser.entryCount).map
        (fun i => s!"_{i + 1}") ∧
    ((written t).map fun r => nameText t r.exp).Nodup ∧
    (∀ r ∈ s₁.parser.entries,
      nameText t r.exp = nameText s₁.parser r.exp ∧
        Answered t r) ∧
    (∀ r ∈ written t,
      ((steps g s₁ r).run t).1.flatMap ScanStep.callees =
        (callsOf g s₁ (isInline t) r).map (·.exp) ∧
      ∀ call ∈ callsOf g s₁ (isInline t) r,
        isInline t call.exp = true ∨ Answered t call) ∧
    (Parser.generate g s out).1.header =
      main.header ++ String.join
        ((entriesText s₁ ++ routinesText g s₁ t).map
          (· ++ "\n")) ∧
    (entriesText s₁).filterMap definition? =
      (List.range s₁.parser.entryCount).map
        (fun i => s!"jj_2_{i + 1}(int xla)") ∧
    (routinesText g s₁ t).filterMap definition? =
      (written t).map
        (fun r => s!"jj_3{nameText t r.exp}()") ∧
    (∀ line ∈ entriesText s₁ ++ routinesText g s₁ t, ∀ cs,
      call? line = some cs →
        ∃ known ∈ written t,
          (nameText t known.exp ++ "()").toList <+: cs) ∧
    (∀ r ∈ s₁.parser.entries, ∃ cs,
      (entryLines s₁.options s₁.parser r.exp).filterMap call? =
        [cs] ∧
      (nameText s₁.parser r.exp ++ "()").toList <+: cs) ∧
    ∀ r ∈ written t,
      CallsInOrder t
        (routineLines g s₁.options t r.exp
          ((steps g s₁ r).run t).1)
        (((steps g s₁ r).run t).1.flatMap ScanStep.calls) := by
  have hArranged := arranged_analyze hMade hOwned hPasses
  have hSane := sane_analyze hMade hSanity hPasses
  have hKnows := (flagged_analyze hMade hPasses).2.names
  rcases completes_methods hArranged hKnows hMethods with
    ⟨done, most, hOpened, hNames, hEntered, hEntries, hDone,
      hMore⟩
  rw [hRequests] at hDone hMore
  have hAdvances := hEntered.trans hDone.advances
  have hQueued := hAdvances.queued
  have hOutput :=
    output_generate hMethods hRequests hDone.remembers
  have hEntryCalls : ∀ r ∈ s₁.parser.entries,
      nameText t r.exp = nameText s₁.parser r.exp ∧
        Answered t r := by
    intro r hMem
    apply answered_of_mem_entries hOpened hAdvances hMem
    have hListed := Array.mem_toList_iff.mpr hMem
    rw [← hEntries] at hListed
    have hFirst := hEntered.queued.known r
      (Array.mem_toList_iff.mp hListed)
    exact hFirst.trans_le (hDone.advances.levels r.exp)
  have hRoutineCalls : ∀ r ∈ written t,
      ((steps g s₁ r).run t).1.flatMap ScanStep.callees =
        (callsOf g s₁ (isInline t) r).map (·.exp) ∧
      ∀ call ∈ callsOf g s₁ (isInline t) r,
        isInline t call.exp = true ∨ Answered t call := by
    intro r hMem
    refine ⟨callees_stepsTo _ r.exp r.count hDone.remembers, ?_⟩
    intro call hCall
    rcases mem_written.mp hMem with ⟨⟨e, hListed⟩, -⟩
    rcases Array.mem_iff_getElem?.mp (hQueued.listed hListed).2
      with ⟨i, hAt⟩
    apply answered_of_requested hQueued
    exact hDone.worked i (Array.getElem?_eq_some_iff.mp hAt).1 r
      hAt call (callsTo_subset _ _ _ _ hCall)
  refine ⟨hOutput, ?_, hMore, nameText_entries hOpened,
    nodup_written hAdvances.named hQueued, hEntryCalls,
    hRoutineCalls, ?_, definitions_entriesText hOpened,
    definitions_routinesText, ?_,
    fun r _ => calls_entryLines _ _ _,
    fun r _ => calls_routineLines _ _ _ _ _⟩
  · intro n hn id
    exact ⟨soleToken?_eq hSane.acyclic hArranged.headed hNames hn
      id, requestPartsTo_eq hArranged.nested hn id,
      stepsTo_eq hArranged.nested hn id⟩
  · rw [hOutput]
    exact congrArg Output.header (Output.lines_header
      (rfl : (main.switch .header).channel = .header) _)
  · intro line hLine cs hCall
    exact exists_written_of_call? hEntryCalls hRoutineCalls
      hLine hCall

/- A list that is looked for ahead, with what follows it. -/
def listCalls : Calls :=
  [.literal "a", .literal ",", .nonterminal "List" "",
    .sequence [1, 2], .zeroOrOne 4, .sequence [0, 5],
    .production "List" "void" "" 7, .nonterminal "List" "",
    .literal "x", .lookaheadSequence (some 3) none none [8, 9],
    .zeroOrOne 11, .sequence [12],
    .production "Start" "void" "" 14]

/- The session once methods are written. -/
def listSession : Session :=
  listCalls.resolved.1.productions.toList.foldl
    (Parser.afterMethod listCalls.resolved.1)
    { Analysis.sanityCheck listCalls.resolved.1 listCalls.flagged with
      parser := {} }

/- The tables once all requests are worked off. -/
def listTables : ParserTables :=
  requestAll listCalls.resolved.1 listSession
    (entered listSession.parser)

/-
  A list calls itself with one token left, and its routine is
  written for three.  One entry point and three routines are
  defined, and all calls are calls of these.
-/
theorem generate_closes_calls_lists :
    ∃ g s main s₁ t,
      analyze listCalls.built.grammar (.new {}) =
        (g, s, .ok ()) ∧
      Parser.methods g s {} = (main, s₁) ∧
      requestAll g s₁ (entered s₁.parser) = t ∧
      written t = [⟨11, 3⟩, ⟨7, 3⟩, ⟨4, 2⟩] ∧
      ((written t).map fun r => nameText t r.exp).Nodup ∧
      callsOf g s₁ (isInline t) ⟨4, 2⟩ = [⟨7, 1⟩] ∧
      Answered t ⟨7, 1⟩ ∧
      (entriesText s₁).filterMap definition? =
        ["jj_2_1(int xla)"] ∧
      (routinesText g s₁ t).filterMap definition? =
        ["jj_3_1()", "jj_3R_List_1_6_1()",
          "jj_3R_List_1_4_2()"] ∧
      ∀ line ∈ entriesText s₁ ++ routinesText g s₁ t, ∀ cs,
        call? line = some cs →
          ∃ known ∈ written t,
            (nameText t known.exp ++ "()").toList <+: cs := by
  have hMade : Made listCalls.built := by
    apply Calls.made_built
    simp only [ValidCalls, listCalls, Call.Valid]
    decide +kernel
  have hOwned : listCalls.built.grammar.SinglyOwned := by
    decide +kernel
  have hResolved :
      listCalls.resolved.2.diagnostics.errorCount = 0 := by
    cbv
  have hChecked : (Analysis.sanityCheck listCalls.resolved.1
      listCalls.flagged).diagnostics.errorCount = 0 := by
    rw [Analysis.sanityCheck_eq]
    cbv
  have hPasses : analyze listCalls.built.grammar (.new {}) =
      (listCalls.resolved.1,
        Analysis.sanityCheck listCalls.resolved.1 listCalls.flagged,
        .ok ()) := by
    exact Calls.analyze_built rfl hResolved hChecked
  rcases hRun : Parser.methods listCalls.resolved.1
    (Analysis.sanityCheck listCalls.resolved.1 listCalls.flagged) {} with
    ⟨main, s₁⟩
  have hSession : s₁ = listSession := by
    have hLeft := congrArg Prod.snd hRun
    rw [Parser.session_methods] at hLeft
    exact hLeft.symm
  rw [hSession] at hRun
  have hRequests : requestAll listCalls.resolved.1 listSession
      (entered listSession.parser) = listTables :=
    rfl
  have hTables : (written listTables,
      callsOf listCalls.resolved.1 listSession (isInline listTables)
        ⟨4, 2⟩, isInline listTables 7,
      (written listTables).map
        (fun r => s!"jj_3{nameText listTables r.exp}()"),
      (List.range listSession.parser.entryCount).map
        (fun i => s!"jj_2_{i + 1}(int xla)")) =
      ([⟨11, 3⟩, ⟨7, 3⟩, ⟨4, 2⟩], [⟨7, 1⟩], false,
        ["jj_3_1()", "jj_3R_List_1_6_1()",
          "jj_3R_List_1_4_2()"],
        ["jj_2_1(int xla)"]) := by
    unfold listTables listSession
    rw [Analysis.sanityCheck_eq]
    cbv
  have hWritten := congrArg (·.1) hTables
  have hCalls := congrArg (·.2.1) hTables
  have hInline := congrArg (·.2.2.1) hTables
  have hRoutines := congrArg (·.2.2.2.1) hTables
  have hEntries := congrArg (·.2.2.2.2) hTables
  dsimp only at hWritten hCalls hInline hRoutines hEntries
  rcases generate_closes_calls hMade hOwned rfl hPasses hRun
    hRequests with
    ⟨-, -, -, -, hNodup, -, hClosed, -, hEntryTexts,
      hRoutineTexts, hCalled, -, -⟩
  refine ⟨_, _, _, _, listTables, hPasses, hRun, hRequests,
    hWritten, hNodup, hCalls, ?_, hEntryTexts.trans hEntries,
    hRoutineTexts.trans hRoutines, hCalled⟩
  have hMem : (⟨4, 2⟩ : ScanRequest) ∈ written listTables := by
    rw [hWritten]
    decide
  have hCall : (⟨7, 1⟩ : ScanRequest) ∈ callsOf listCalls.resolved.1
      listSession (isInline listTables) ⟨4, 2⟩ := by
    rw [hCalls]
    decide
  rcases (hClosed ⟨4, 2⟩ hMem).2 ⟨7, 1⟩ hCall with
    hToken | hAnswered
  · rw [hInline] at hToken
    cases hToken
  · exact hAnswered

end Speculation

end Descent
