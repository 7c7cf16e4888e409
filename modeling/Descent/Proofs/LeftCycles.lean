import Descent.Proofs.LeftRecursion

/-
  Cycles of calls before any token.

  A production is linked to those that it may call before any
  token: where the call stands in its body, all units before it
  may be gone.  So the cycles that the search reports are
  genuine left recursions, each reported at a production of its
  own, and every production that is left recursive shares its
  cycles with one that is reported.

  Main declarations:
    * `Grammar.Opens` and `Grammar.LeftCalls`
    * `LeftRecursion.links_link`
    * `LeftRecursion.check_reports_cycles`
-/

------------------------------------------------------------
-- Calls before any token
------------------------------------------------------------

namespace Descent

namespace Grammar

/- An expansion may come to a part of its own before any token. -/
def Opens
    (g : Grammar)
    (part whole : ExpId) : Prop :=
  g.Leads part whole ∧ g.ChildOf part whole

/- A production may call another one before any token. -/
def LeftCalls
    (g : Grammar)
    (p q : ProdId) : Prop :=
  ∃ caller callee body call result args,
    g.productions[p]? = some caller ∧
      caller.expansion? = some body ∧
      Relation.ReflTransGen g.Opens call body ∧
      g.form call = .nonterminal callee.name result args ∧
      g.productions[q]? = some callee

end Grammar

namespace LeftRecursion

/- What stands up to the first element that is not passed. -/
theorem exists_of_mem_take
    {α : Type}
    {passes : α → Bool}
    {xs : List α}
    {x : α}
    (hMem : x ∈ xs.take ((xs.takeWhile passes).length + 1)) :
    ∃ before after, xs = before ++ x :: after ∧
      ∀ y ∈ before, passes y = true := by
  induction xs with
  | nil => cases hMem
  | cons y ys ih =>
      rw [List.take_succ_cons] at hMem
      rcases List.mem_cons.mp hMem with rfl | hRest
      · exact ⟨[], ys, rfl, List.forall_mem_nil _⟩
      · by_cases hPassed : passes y = true
        · rw [List.takeWhile_cons_of_pos hPassed,
            List.length_cons] at hRest
          rcases ih hRest with ⟨before, after, rfl, hAll⟩
          exact ⟨y :: before, after, rfl,
            List.forall_mem_cons.mpr ⟨hPassed, hAll⟩⟩
        · rw [List.takeWhile_cons_of_neg hPassed] at hRest
          cases hRest

section Links

variable {g : Grammar} {s : Session}

/- What is found as a beginning is called there. -/
theorem exists_call_of_mem
    (hEmpty : ∀ e, Nullable.nullable g s e = true ↔
      g.Vanishes [e])
    {depth : Nat}
    {id : ExpId}
    {q : ProdId}
    (hMem : q ∈ leftMostTo g s depth id) :
    ∃ call name result args,
      Relation.ReflTransGen g.Opens call id ∧
        g.form call = .nonterminal name result args ∧
        s.production? name = some q := by
  induction depth generalizing id with
  | zero => cases hMem
  | succ depth ih =>
      -- A call in a part that may come first is one in the whole.
      have hPart : ∀ part, g.Opens part id →
          q ∈ leftMostTo g s depth part →
          ∃ call name result args,
            Relation.ReflTransGen g.Opens call id ∧
              g.form call = .nonterminal name result args ∧
              s.production? name = some q := by
        intro part hOpens hHere
        rcases ih hHere with
          ⟨call, name, result, args, hWay, hCall⟩
        exact ⟨call, name, result, args, hWay.tail hOpens, hCall⟩
      unfold Grammar.Opens Grammar.Leads Grammar.ChildOf
        Grammar.children at hPart
      unfold leftMostTo at hMem
      cases hForm : g.form id with
      | nonterminal name result args =>
          rw [hForm] at hMem
          exact ⟨id, name, result, args, .refl, hForm,
            Option.mem_toList.mp hMem⟩
      | sequence units =>
          rw [hForm] at hMem hPart
          rcases List.mem_flatMap.mp hMem with ⟨u, hu, hHere⟩
          rcases exists_of_mem_take hu with
            ⟨before, after, hUnits, hPassed⟩
          have hGone : g.Vanishes before :=
            Grammar.vanishes_iff_forall.mpr
              fun e he => (hEmpty e).mp (hPassed e he)
          exact hPart u ⟨⟨before, after, hUnits, hGone⟩,
            List.mem_of_mem_take hu⟩ hHere
      | choice alternatives =>
          rw [hForm] at hMem hPart
          rcases List.mem_flatMap.mp hMem with ⟨alt, hAlt, hHere⟩
          exact hPart alt ⟨hAlt, hAlt⟩ hHere
      | oneOrMore body =>
          rw [hForm] at hMem hPart
          exact hPart body ⟨rfl, List.mem_singleton_self _⟩ hMem
      | zeroOrMore body =>
          rw [hForm] at hMem hPart
          exact hPart body ⟨rfl, List.mem_singleton_self _⟩ hMem
      | zeroOrOne body =>
          rw [hForm] at hMem hPart
          exact hPart body ⟨rfl, List.mem_singleton_self _⟩ hMem
      | tryBlock body catches cleanup =>
          rw [hForm] at hMem hPart
          exact hPart body ⟨rfl, List.mem_singleton_self _⟩ hMem
      | terminal r result member =>
          rw [hForm] at hMem
          cases hMem
      | action code =>
          rw [hForm] at hMem
          cases hMem
      | lookahead la =>
          rw [hForm] at hMem
          cases hMem

/- What is called before any token is found as a beginning. -/
theorem mem_begins_of_call
    (hNested : g.Nested)
    (hEmpty : ∀ e, Nullable.nullable g s e = true ↔
      g.Vanishes [e])
    {call id : ExpId}
    {name args : String}
    {result : Option String}
    (hCall : g.form call = .nonterminal name result args)
    {q : ProdId}
    (hName : s.production? name = some q)
    (hWay : Relation.ReflTransGen g.Opens call id) :
    q ∈ begins g s id := by
  induction hWay with
  | refl =>
      unfold begins leftMostTo
      rw [hCall]
      exact Option.mem_toList.mpr hName
  | tail _ hOpens ih =>
      exact begins_subset hNested hEmpty hOpens.1 hOpens.2 ih

/- Productions are linked to what they call before any token. -/
theorem links_link
    (hNested : g.Nested)
    (hFlagged : s.Flagged g)
    (hLinks : s.facts.leftExpansions =
      Array.replicate g.productions.size []) :
    Links (link g s) = g.LeftCalls := by
  funext p q
  apply propext
  refine (linkedTo_link hLinks q p).trans ?_
  constructor
  · rintro ⟨caller, body, hAt, hBody, hMem⟩
    rcases exists_call_of_mem hFlagged.empty hMem with
      ⟨call, name, result, args, hWay, hCall, hName⟩
    rcases (hFlagged.names name q).mp hName with
      ⟨callee, hCallee, rfl⟩
    exact ⟨caller, callee, body, call, result, args, hAt, hBody,
      hWay, hCall, hCallee⟩
  · rintro ⟨caller, callee, body, call, result, args, hAt,
      hBody, hWay, hCall, hCallee⟩
    have hName := (hFlagged.names callee.name q).mpr
      ⟨callee, hCallee, rfl⟩
    exact ⟨caller, body, hAt, hBody,
      mem_begins_of_call hNested hFlagged.empty hCall hName
        hWay⟩

end Links

------------------------------------------------------------
-- Reports
------------------------------------------------------------

/-
  The search for left recursion.  What it records are reports
  of cycles of calls before any token, spelled from their heads
  back to them, and no production heads two of them.  For every
  production on a cycle, one that shares its cycles heads a
  report, so nothing is recorded exactly if there is no cycle.
  Walks that may be longer find the same.
-/
theorem check_reports_cycles
    {g : Grammar}
    (hNested : g.Nested)
    {s : Session}
    (hFlagged : s.Flagged g)
    (hUnlinked : s.Unlinked g) :
    ∃ cycles : List Cycle,
      (check g s).diagnostics.entries.toList =
        s.diagnostics.entries.toList ++
          cycles.map (Cycle.report g) ∧
      (∀ c ∈ cycles, c.Closes g.LeftCalls) ∧
      (cycles.map Cycle.head).Nodup ∧
      (∀ p, Relation.TransGen g.LeftCalls p p →
        ∃ c ∈ cycles, Together g.LeftCalls p c.head) ∧
      (Acyclic g.LeftCalls → cycles = []) ∧
      ∀ fuel, g.productions.size ≤ fuel →
        checkTo g fuel s = check g s := by
  rcases searching_checkTo hUnlinked.links hUnlinked.statuses
    (Nat.le_succ g.productions.size) with
    ⟨cycles, hReports, hCovers⟩
  rw [links_link hNested hFlagged hUnlinked.links]
    at hReports hCovers
  refine ⟨cycles, hReports.entries, hReports.closes,
    hReports.heads, hCovers, ?_,
    fun fuel => checkTo_eq hUnlinked.statuses⟩
  intro hAcyclic
  cases cycles with
  | nil => rfl
  | cons c cycles =>
      have hWay := hReports.closes c List.mem_cons_self
      exact absurd hWay.transGen (hAcyclic c.head)

/-
  `A` calls `B` after what may be gone, `B` calls `A` or `C`,
  and `C` calls itself.
-/
def entangled : Calls :=
  [.literal "o", .zeroOrOne 0, .nonterminal "B" "",
    .sequence [3, 4], .production "A" "void" "" 6,
    .nonterminal "A" "", .nonterminal "C" "", .choice [7, 8],
    .production "B" "void" "" 13,
    .nonterminal "C" "", .literal "y", .sequence [16, 17],
    .production "C" "void" "" 19]

/-
  The first walk leaves `B` before it comes to `C`, and the
  cycle of `C` is found by a walk of its own.
-/
theorem check_reports_cycles_entangled :
    ∃ cycles : List Cycle,
      (check entangled.resolved.1
          entangled.flagged).diagnostics.entries.toList =
        cycles.map (Cycle.report entangled.resolved.1) ∧
      (cycles.map fun c =>
          (c.report entangled.resolved.1).message) =
        ["Left recursion detected: \"A... --> B... --> A...\"",
          "Left recursion detected: \"C... --> C...\""] ∧
      ∀ c ∈ cycles,
        c.Closes entangled.resolved.1.LeftCalls := by
  have hMade : Made entangled.built := by
    apply Calls.made_built
    simp only [ValidCalls, entangled, Call.Valid]
    decide +kernel
  have hClean :
      entangled.resolved.2.diagnostics.errorCount = 0 := by
    cbv
  have hNested : entangled.resolved.1.Nested :=
    nested_resolve hMade.laid.nested (.new {})
  have hKnows :
      entangled.resolved.2.KnowsNames entangled.resolved.1 ∧
      entangled.resolved.2.KnowsCallers entangled.resolved.1 :=
    knows_resolve (s := .new {}) rfl hClean
  have hReady :
      entangled.flagged.Flagged entangled.resolved.1 ∧
      entangled.flagged.Unlinked entangled.resolved.1 := by
    unfold Calls.flagged
    have hRaised := flagged_raiseFlags hNested hKnows.1 hKnows.2
    exact ⟨hRaised.1, hRaised.2.1⟩
  have hStart :
      entangled.flagged.diagnostics.entries.toList = [] := by
    cbv
  have hMessages : (check entangled.resolved.1
      entangled.flagged).diagnostics.entries.toList.map
        (·.message) =
      ["Left recursion detected: \"A... --> B... --> A...\"",
        "Left recursion detected: \"C... --> C...\""] := by
    cbv
  rcases check_reports_cycles hNested hReady.1 hReady.2 with
    ⟨cycles, hEntries, hCloses, -⟩
  rw [hStart, List.nil_append] at hEntries
  rw [hEntries, List.map_map] at hMessages
  exact ⟨cycles, hEntries, hMessages, hCloses⟩

end LeftRecursion

end Descent
