import Descent.Proofs.EmptyExpansions

/-
  The flags of productions as a least fixed point.

  A visit of a production raises its flag or does nothing, so
  flags never fall.  Every pass but the last raises a flag,
  which bounds the passes by the flags that are low; passes
  beyond the last one would change nothing.  The flags that
  stand in the end are those of the productions whose bodies
  vanish, and that does not depend on the order in which
  productions are visited.

  Main declarations:
    * `Nullable.passes_eq` and `Nullable.snd_passes_le`
    * `Nullable.flag_raiseFlags`
    * `Grammar.vanishes_congr`
    * `Nullable.raiseFlags_least`
-/

------------------------------------------------------------
-- Passes
------------------------------------------------------------

namespace Descent

namespace Nullable

/- A visit of a production lowers no flag. -/
theorem flag_visitProduction
    (g : Grammar)
    (acc : Session × Bool)
    (entry : Production × ProdId)
    {id : ProdId}
    (hFlag : acc.1.facts.emptyPossible[id]? = some true) :
    (visitProduction g acc entry).1.facts.emptyPossible[id]? =
      some true := by
  unfold visitProduction
  dsimp only
  split
  · exact hFlag
  · split
    · have hInside := (Array.getElem?_eq_some_iff.mp hFlag).1
      change (acc.1.facts.emptyPossible.setIfInBounds entry.2
        true)[id]? = some true
      rw [Array.getElem?_setIfInBounds]
      split
      · next hSame => rw [if_pos (hSame ▸ hInside)]
      · exact hFlag
    · exact hFlag

/- Where no flag is left to be raised, a pass changes nothing. -/
theorem pass_of_stable
    {g : Grammar}
    {s : Session}
    (hStable : Stable g s) :
    pass g s = (s, false) := by
  rcases pass_cases g s with ⟨hSame, -⟩ | ⟨s', -, hRaises⟩
  · exact hSame
  · rcases Relation.TransGen.head'_iff.mp hRaises with
      ⟨s₁, hOne, -⟩
    rcases hOne with ⟨hAt, hBody, hEmpty, hLow⟩
    have hHigh := hStable _ _ _ hAt hBody hEmpty
    rw [Array.getD_eq_getD_getElem?, hLow] at hHigh
    cases hHigh

/- Passes beyond the last one are not made. -/
theorem passes_eq
    {g : Grammar}
    {fuel fuel' : Nat}
    {s : Session}
    (hFuel : lowFlags s < fuel)
    (hFuel' : lowFlags s < fuel')
    (count : Nat) :
    passes g fuel count s = passes g fuel' count s := by
  induction fuel generalizing fuel' s count with
  | zero => exact absurd hFuel (Nat.not_lt_zero _)
  | succ fuel ih =>
      cases fuel' with
      | zero => exact absurd hFuel' (Nat.not_lt_zero _)
      | succ fuel' =>
          unfold passes
          rcases pass_cases g s with
            ⟨hSame, -⟩ | ⟨s₁, hRaised, hMore⟩
          · rw [hSame]
            rfl
          · rw [hRaised]
            have hLess := lowFlags_lt_of_raises hMore
            exact ih (by omega) (by omega) (count + 1)

/- There is at most one pass more than there are low flags. -/
theorem snd_passes_le
    (g : Grammar)
    (fuel count : Nat)
    (s : Session) :
    (passes g fuel count s).2 ≤ count + lowFlags s + 1 := by
  induction fuel generalizing count s with
  | zero =>
      change count ≤ count + lowFlags s + 1
      omega
  | succ fuel ih =>
      unfold passes
      rcases pass_cases g s with
        ⟨hSame, -⟩ | ⟨s₁, hRaised, hMore⟩
      · rw [hSame]
        change count + 1 ≤ count + lowFlags s + 1
        omega
      · rw [hRaised]
        have hLess := lowFlags_lt_of_raises hMore
        have hRest : (passes g fuel (count + 1) s₁).2 ≤ _ :=
          ih (count + 1) s₁
        change (passes g fuel (count + 1) s₁).2 ≤ _
        omega

/- Where no flag is left to be raised, one pass shows it. -/
theorem raiseFlags_of_stable
    {g : Grammar}
    {s : Session}
    (hStable : Stable g s) :
    raiseFlags g s = (s, 1) := by
  unfold raiseFlags passes
  rw [pass_of_stable hStable]
  rfl

------------------------------------------------------------
-- Flags
------------------------------------------------------------

/- The flags that stand in the end are those of bodies that vanish. -/
theorem flag_raiseFlags
    {g : Grammar}
    (hNested : g.Nested)
    {s : Session}
    (hNames : s.KnowsNames g)
    (hLow : s.facts.emptyPossible =
      Array.replicate g.productions.size false)
    {id : ProdId}
    {p : Production}
    (hAt : g.productions[id]? = some p) :
    (raiseFlags g s).1.facts.emptyPossible[id]? = some true ↔
      ∃ body, p.expansion? = some body ∧ g.Vanishes [body] := by
  have hSize : s.facts.emptyPossible.size =
      g.productions.size := by
    rw [hLow, Array.size_replicate]
  rcases raiseFlags_spec hSize with ⟨hRaises, hStable⟩
  have hSound := Raises.sound hNames hRaises (sound_of_low hLow)
  have hNames' := Raises.knowsNames hRaises hNames
  have hSize' := (Raises.same hRaises).2.trans hSize
  constructor
  · intro hFlag
    refine hSound id p hAt ?_
    rw [Array.getD_eq_getD_getElem?, hFlag]
    rfl
  · rintro ⟨body, hBody, hGone⟩
    have hEmpty := nullable_of_vanishes hNested hNames' hSize'
      hStable hGone body List.mem_cons_self
    have hFlag := hStable id p body hAt hBody hEmpty
    have hInside : id < (raiseFlags g s).1.facts.emptyPossible.size := by
      rw [hSize']
      exact (Array.getElem?_eq_some_iff.mp hAt).1
    rw [Array.getD_eq_getD_getElem?,
      Array.getElem?_eq_getElem hInside, Option.getD_some] at hFlag
    rw [Array.getElem?_eq_getElem hInside, hFlag]

end Nullable

/- What vanishes does not depend on the order of productions. -/
theorem Grammar.vanishes_congr
    {g g' : Grammar}
    (hForms : ∀ id, g'.form id = g.form id)
    (hProductions : ∀ p, p ∈ g'.productions ↔
      p ∈ g.productions)
    (es : List ExpId) :
    g'.Vanishes es ↔ g.Vanishes es := by
  have hDefines : g'.Defines = g.Defines := by
    funext name body
    unfold Defines
    simp only [hProductions]
  have hUnfolds : g'.Unfolds = g.Unfolds := by
    funext id parts
    unfold Unfolds
    rw [hForms, hDefines]
  have hRewrites : ∀ fs fs',
      g'.Rewrites fs fs' ↔ g.Rewrites fs fs' := by
    intro fs fs'
    constructor
    · rintro ⟨hStep⟩
      exact .first (hUnfolds ▸ hStep)
    · rintro ⟨hStep⟩
      exact .first (hUnfolds ▸ hStep)
  constructor
  · exact Relation.ReflTransGen.mono
      (fun fs fs' => (hRewrites fs fs').mp) es []
  · exact Relation.ReflTransGen.mono
      (fun fs fs' => (hRewrites fs fs').mpr) es []

theorem Grammar.Nested.congr
    {g g' : Grammar}
    (hNested : g.Nested)
    (hSame : g'.expansions = g.expansions) :
    g'.Nested := by
  have hForms : ∀ id, g'.form id = g.form id := by
    intro id
    simp only [form, node, hSame]
  have hChildren := children_congr hForms
  rcases hNested with ⟨hInside, f, hLess⟩
  constructor
  · intro part whole hChild
    rw [hSame]
    rw [ChildOf, hChildren] at hChild
    exact hInside part whole hChild
  · refine ⟨f, ?_⟩
    intro part whole hChild
    rw [ChildOf, hChildren] at hChild
    exact hLess part whole hChild

------------------------------------------------------------
-- The least fixed point
------------------------------------------------------------

namespace Nullable

/-
  Flags of productions, all of them low at first.  There is at
  most one pass more than there are productions, and more
  passes would change nothing; no visit lowers a flag; in the
  end the flags of exactly those productions stand whose bodies
  vanish; a second run makes one pass and changes nothing; and
  in another order of the productions each of them gets the
  same flag.
-/
theorem raiseFlags_least
    {g : Grammar}
    (hNested : g.Nested)
    {s : Session}
    (hNames : s.KnowsNames g)
    (hLow : s.facts.emptyPossible =
      Array.replicate g.productions.size false) :
    (raiseFlags g s).2 ≤ g.productions.size + 1 ∧
    (∀ fuel, g.productions.size + 1 ≤ fuel →
      passes g fuel 0 s = raiseFlags g s) ∧
    (∀ acc entry (id : ProdId),
      acc.1.facts.emptyPossible[id]? = some true →
        (visitProduction g acc entry).1.facts.emptyPossible[id]? =
          some true) ∧
    (∀ (id : ProdId) p, g.productions[id]? = some p →
      ((raiseFlags g s).1.facts.emptyPossible[id]? = some true ↔
        ∃ body, p.expansion? = some body ∧
          g.Vanishes [body])) ∧
    raiseFlags g (raiseFlags g s).1 = ((raiseFlags g s).1, 1) ∧
    ∀ (ps : Array Production) (s' : Session),
      ps.toList.Perm g.productions.toList →
      s'.KnowsNames { g with productions := ps } →
      s'.facts.emptyPossible = Array.replicate ps.size false →
      ∀ (i j : ProdId) p,
        g.productions[i]? = some p → ps[j]? = some p →
        ((raiseFlags { g with productions := ps }
            s').1.facts.emptyPossible[j]? = some true ↔
          (raiseFlags g s).1.facts.emptyPossible[i]? =
            some true) := by
  have hSize : s.facts.emptyPossible.size =
      g.productions.size := by
    rw [hLow, Array.size_replicate]
  have hCount : lowFlags s ≤ g.productions.size :=
    hSize ▸ List.count_le_length
  refine ⟨?_, ?_, fun acc entry id => flag_visitProduction g acc entry,
    fun id p => flag_raiseFlags hNested hNames hLow,
    raiseFlags_of_stable (raiseFlags_spec hSize).2, ?_⟩
  · have hPasses := snd_passes_le g (g.productions.size + 1) 0 s
    unfold raiseFlags
    omega
  · intro fuel hFuel
    exact passes_eq (by omega) (by omega) 0
  · intro ps s' hPerm hNames' hLow' i j p hAt hAt'
    have hNested' : Grammar.Nested { g with productions := ps } :=
      hNested.congr rfl
    rw [flag_raiseFlags hNested hNames hLow hAt,
      flag_raiseFlags hNested' hNames' hLow' hAt']
    have hMem : ∀ q, q ∈ ps ↔ q ∈ g.productions := by
      intro q
      rw [← Array.mem_toList_iff, ← Array.mem_toList_iff]
      exact hPerm.mem_iff
    have hVanishes : ∀ es,
        Grammar.Vanishes { g with productions := ps } es ↔
          g.Vanishes es :=
      Grammar.vanishes_congr (fun _ => rfl) hMem
    simp only [hVanishes]

/- Each production calls the next one, and the last may be empty. -/
def chained : Calls :=
  [.nonterminal "Second" "", .production "First" "void" "" 0,
    .nonterminal "Third" "", .production "Second" "void" "" 3,
    .literal "x", .zeroOrOne 6,
    .production "Third" "void" "" 9]

/-
  Every pass but the last raises one flag, from the last
  production to the first.
-/
theorem raiseFlags_least_chained :
    (raiseFlags chained.resolved.1 chained.resolved.2).2 = 4 ∧
      chained.resolved.1.Vanishes [2] ∧
      raiseFlags chained.resolved.1 (raiseFlags
        chained.resolved.1 chained.resolved.2).1 =
          ((raiseFlags chained.resolved.1 chained.resolved.2).1,
            1) := by
  have hMade : Made chained.built := by
    apply Calls.made_built
    simp only [ValidCalls, chained, Call.Valid]
    decide +kernel
  have hClean :
      chained.resolved.2.diagnostics.errorCount = 0 := by
    cbv
  have hNested : chained.resolved.1.Nested :=
    nested_resolve hMade.laid.nested (.new {})
  have hKnows : chained.resolved.2.KnowsNames chained.resolved.1 ∧
      chained.resolved.2.KnowsCallers chained.resolved.1 :=
    knows_resolve (s := .new {}) rfl hClean
  have hLow : chained.resolved.2.facts.emptyPossible =
      Array.replicate chained.resolved.1.productions.size
        false := by
    rcases hKnows.2 with ⟨callers, hFacts⟩
    rw [hFacts]
    rfl
  have hAt : chained.resolved.1.productions[0]? =
      some (chained.built.grammar.production 0) := by
    rw [Calls.resolved, productions_resolve]
    decide +kernel
  have hCount : (raiseFlags chained.resolved.1
      chained.resolved.2).2 = 4 := by
    cbv
  have hRaised : (raiseFlags chained.resolved.1
      chained.resolved.2).1.facts.emptyPossible[0]? =
        some true := by
    cbv
  rcases raiseFlags_least hNested hKnows.1 hLow with
    ⟨-, -, -, hFlags, hAgain, -⟩
  rcases (hFlags 0 _ hAt).mp hRaised with ⟨body, hBody, hGone⟩
  cases hBody
  exact ⟨hCount, hGone, hAgain⟩

end Nullable

end Descent
