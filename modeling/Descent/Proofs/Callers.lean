import Descent.Proofs.Ownership

/-
  The callers of productions.

  Once names are resolved, every production knows the calls that
  stand in the bodies of productions and name it.  Flags that
  are raised later, and the checks, leave this as it is.

  Main declarations:
    * `Session.Calls` and `Session.KnowsCalls`
    * `References.mem_callers_resolve`
    * `knowsCalls_analyze`
-/

------------------------------------------------------------
-- Walks
------------------------------------------------------------

namespace Descent

namespace Grammar

/- A walk comes to parts only. -/
theorem within_of_mem_preOrderTo
    {g : Grammar}
    {descend : Expansion → Bool}
    {depth : Nat}
    {root id : ExpId}
    (hMem : id ∈ g.preOrderTo descend depth root) :
    g.Within id root := by
  induction depth generalizing root with
  | zero => cases hMem
  | succ depth ih =>
      unfold preOrderTo at hMem
      rcases List.mem_cons.mp hMem with rfl | hBelow
      · exact .refl
      · split at hBelow
        · rcases List.mem_flatMap.mp hBelow with
            ⟨part, hPart, hThere⟩
          exact (ih hThere).tail hPart
        · cases hBelow

/- All that stands in bodies is walked through. -/
theorem mem_walked_iff
    {g : Grammar}
    (hNested : g.Nested)
    {id : ExpId} :
    id ∈ (g.productions.toList.filterMap
        Production.expansion?).flatMap
          (g.preOrder fun _ => true) ↔
      g.Reachable id := by
  constructor
  · intro hMem
    rcases List.mem_flatMap.mp hMem with ⟨body, hBody, hThere⟩
    rcases List.mem_filterMap.mp hBody with ⟨p, hp, hIs⟩
    exact ⟨p, Array.mem_toList_iff.mp hp, body, hIs,
      within_of_mem_preOrderTo hThere⟩
  · exact mem_walked hNested

end Grammar

------------------------------------------------------------
-- Calls
------------------------------------------------------------

/- An expansion is a call of a production. -/
def Session.Calls
    (s : Session)
    (g : Grammar)
    (call : ExpId)
    (p : ProdId) : Prop :=
  ∃ name result args,
    g.form call = .nonterminal name result args ∧
      s.production? name = some p

/- The callers of a production are what calls it. -/
def Session.KnowsCalls
    (s : Session)
    (g : Grammar) : Prop :=
  ∀ p call, call ∈ s.facts.callers.getD p [] ↔
    g.Reachable call ∧ s.Calls g call p

theorem Session.KnowsCalls.congr
    {s s' : Session}
    {g : Grammar}
    (hKnows : s.KnowsCalls g)
    (hTable : s'.productionTable = s.productionTable)
    (hCallers : s'.facts.callers = s.facts.callers) :
    s'.KnowsCalls g := by
  intro p call
  unfold Session.Calls Session.production?
  rw [hTable, hCallers]
  exact hKnows p call

namespace References

/- An expansion that calls a production becomes its caller. -/
theorem callers_resolveCall
    (g : Grammar)
    {s : Session}
    (hSize : ∀ name p, s.production? name = some p →
      p < s.facts.callers.size)
    (id : ExpId) :
    (resolveCall g s id).productionTable = s.productionTable ∧
      (resolveCall g s id).facts.callers.size =
        s.facts.callers.size ∧
      ∀ p call,
        call ∈ (resolveCall g s id).facts.callers.getD p [] ↔
          call ∈ s.facts.callers.getD p [] ∨
            call = id ∧ s.Calls g call p := by
  unfold resolveCall
  cases hForm : g.form id with
  | nonterminal name result args =>
      dsimp only
      cases hTarget : s.production? name with
      | none =>
          refine ⟨rfl, rfl, fun p call => (or_iff_left ?_).symm⟩
          rintro ⟨rfl, name', _, _, hForm', hCalled⟩
          rw [hForm] at hForm'
          cases hForm'
          rw [hTarget] at hCalled
          cases hCalled
      | some target =>
          have hInside := hSize name target hTarget
          have hCalls : ∀ p, s.Calls g id p ↔ p = target := by
            intro p
            constructor
            · rintro ⟨name', _, _, hForm', hCalled⟩
              rw [hForm] at hForm'
              cases hForm'
              rw [hTarget] at hCalled
              exact (Option.some.inj hCalled).symm
            · rintro rfl
              exact ⟨name, result, args, hForm, hTarget⟩
          refine ⟨rfl, Array.size_modify, fun p call => ?_⟩
          dsimp only
          rw [getD_modify_at]
          by_cases hHere : p = target
          · rw [if_pos ⟨hHere, hInside⟩, hHere]
            rw [List.mem_append, List.mem_singleton]
            refine or_congr_right ⟨?_, fun h => h.1⟩
            rintro rfl
            exact ⟨rfl, (hCalls target).mpr rfl⟩
          · rw [if_neg fun h => hHere h.1]
            refine (or_iff_left ?_).symm
            rintro ⟨rfl, hCalled⟩
            exact hHere ((hCalls p).mp hCalled)
  | _ =>
      refine ⟨rfl, rfl, fun p call => (or_iff_left ?_).symm⟩
      rintro ⟨rfl, name', _, _, hForm', -⟩
      rw [hForm] at hForm'
      cases hForm'

theorem callers_foldl_resolveCall
    (g : Grammar)
    {s : Session}
    (hSize : ∀ name p, s.production? name = some p →
      p < s.facts.callers.size)
    (ids : List ExpId)
    (p : ProdId)
    (call : ExpId) :
    call ∈ (ids.foldl (resolveCall g) s).facts.callers.getD
        p [] ↔
      call ∈ s.facts.callers.getD p [] ∨
        call ∈ ids ∧ s.Calls g call p := by
  induction ids generalizing s with
  | nil =>
      exact (or_iff_left fun h => nomatch h.1).symm
  | cons id ids ih =>
      rcases callers_resolveCall g hSize id with
        ⟨hTable, hSame, hOne⟩
      have hNames : ∀ name, (resolveCall g s id).production? name =
          s.production? name := by
        intro name
        unfold Session.production?
        rw [hTable]
      have hRest := ih (s := resolveCall g s id) (by
        intro name q hName
        rw [hSame]
        exact hSize name q (hNames name ▸ hName))
      rw [List.foldl_cons, hRest, hOne, or_assoc, List.mem_cons,
        or_and_right]
      unfold Session.Calls
      simp only [hNames]

/- Resolving names finds the callers of all productions. -/
theorem mem_callers_resolve
    {g : Grammar}
    (hNested : g.Nested)
    {s : Session}
    (hNames : s.KnowsNames g)
    (hNone : s.facts.callers =
      Array.replicate g.productions.size [])
    (p : ProdId)
    (call : ExpId) :
    call ∈ (References.resolve g s).facts.callers.getD p [] ↔
      g.Reachable call ∧ s.Calls g call p := by
  unfold References.resolve
  rw [callers_foldl_resolveCall, Grammar.mem_walked_iff hNested,
    hNone]
  · refine or_iff_right ?_
    rw [Array.getD_eq_getD_getElem?, Array.getElem?_replicate]
    split
    · nofun
    · nofun
  · intro name q hName
    rcases (hNames name q).mp hName with ⟨_, hAt, -⟩
    rw [hNone, Array.size_replicate]
    exact (Array.getElem?_eq_some_iff.mp hAt).1

theorem callers_enterProductions
    (g : Grammar)
    (s : Session) :
    (enterProductions g s).facts.callers =
      Array.replicate g.productions.size [] := by
  have hFacts := TokenTable.rel_foldl
    (R := fun s s' : Session => s'.facts = s.facts)
    (fun _ => rfl) (fun hFirst hSecond => hSecond.trans hFirst)
    facts_enterProduction g.productions.toList.zipIdx
    { s with facts := Facts.ofSize g.productions.size }
  unfold enterProductions
  rw [hFacts]
  rfl

end References

------------------------------------------------------------
-- Analysis
------------------------------------------------------------

theorem Grammar.SameRules.reachable
    {g g' : Grammar}
    (hSame : g.SameRules g')
    (id : ExpId) :
    g'.Reachable id ↔ g.Reachable id := by
  have hChildOf : g'.ChildOf = g.ChildOf := by
    funext part whole
    unfold Grammar.ChildOf
    rw [Grammar.children_congr hSame.form]
  unfold Grammar.Reachable Grammar.Within
  rw [hSame.productions, hChildOf]

/- Raising flags leaves the callers alone. -/
theorem callers_raiseFlags
    {g : Grammar}
    {s : Session}
    (hKnows : s.KnowsCallers g) :
    (Nullable.raiseFlags g s).1.facts.callers =
        s.facts.callers ∧
      (Nullable.raiseFlags g s).1.productionTable =
        s.productionTable := by
  rcases hKnows with ⟨callers, hFacts⟩
  have hSize : s.facts.emptyPossible.size =
      g.productions.size := by
    rw [hFacts]
    exact Array.size_replicate
  rw [(Nullable.raiseFlags_spec hSize).1.same.1]
  exact ⟨rfl, rfl⟩

/- Numbering tokens leaves the calls as they were looked up. -/
theorem knowsCalls_resolve
    {g : Grammar}
    {s : Session}
    (hNested : (Analysis.resolve g s).1.Nested)
    (hNames : (Analysis.resolve g s).2.KnowsNames
      (Analysis.resolve g s).1) :
    (Analysis.resolve g s).2.KnowsCalls
      (Analysis.resolve g s).1 := by
  let fixed := Analysis.fixed g s
  let entered := References.enterProductions fixed.1 fixed.2
  have hSame : fixed.1.SameRules (Analysis.resolve g s).1 :=
    Analysis.sameRules_resolve g s
  have hTokens := Analysis.alters_resolve g s
  have hChecked : (Analysis.called g s).MeetsEnd
      (Analysis.checked g s).2 :=
    TokenTable.meetsEnd_checkSections _ _
  have hCalled : entered.Learns (Analysis.called g s) :=
    References.learns_resolve fixed.1 entered
  have hTable : (Analysis.resolve g s).2.productionTable =
      entered.productionTable := by
    rw [hTokens.field (·.productionTable) fun _ => rfl,
      hChecked.field (·.productionTable) fun _ => rfl,
      hCalled.field (·.productionTable) fun _ => rfl]
  have hFacts : (Analysis.resolve g s).2.facts.callers =
      (References.resolve fixed.1 entered).facts.callers := by
    rw [hTokens.field (·.facts.callers) fun _ => rfl,
      hChecked.field (·.facts.callers) fun _ => rfl]
    rfl
  have hBefore : entered.KnowsNames fixed.1 := by
    intro name p
    have hHere := hNames name p
    unfold Session.production? at hHere ⊢
    rwa [hTable, hSame.productions] at hHere
  have hBack : (Analysis.resolve g s).1.SameRules fixed.1 :=
    ⟨hSame.expansions.symm, hSame.productions.symm⟩
  intro p call
  rw [hFacts, References.mem_callers_resolve
    (hBack.nested hNested) hBefore
    (References.callers_enterProductions _ _)]
  unfold Session.Calls Session.production?
  rw [hSame.reachable, hTable]
  simp only [hSame.form]

/- In a session that was analyzed, the callers are the calls. -/
theorem knowsCalls_analyze
    {b : Builder}
    (hMade : Made b)
    {o : Options}
    {g : Grammar}
    {s : Session}
    (hPasses : analyze b.grammar (.new o) = (g, s, .ok ())) :
    s.KnowsCalls g := by
  rcases analyze_eq_ok hPasses with
    ⟨rfl, hResolved, ⟨flagged, hFlags, hSession⟩, -⟩
  have hKnows := knows_resolve (s := .new o) rfl hResolved
  have hRaised := callers_raiseFlags hKnows.2
  rw [hFlags] at hRaised
  have hFlagged := (knowsCalls_resolve
    (nested_resolve hMade.laid.nested (.new o)) hKnows.1).congr
      hRaised.2 hRaised.1
  rw [hSession]
  split
  · have hChecks := Analysis.followsLinks_sanityCheck
      (Analysis.resolve b.grammar (.new o)).1 flagged
    exact hFlagged.congr
      (hChecks.field (·.productionTable) fun _ => rfl)
      (hChecks.field (·.facts.callers) fun _ => rfl)
  · exact hFlagged

end Descent
