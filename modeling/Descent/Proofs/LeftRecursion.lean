import Descent.Proofs.CycleSearch

/-
  Grammars without left recursion.

  A search for cycles that records no error has found none, so
  links between productions lead down, and with them all ways
  from an expansion to what it may begin with.

  Main declarations:
    * `Grammar.Leads`
    * `LeftRecursion.wellFounded_leads`
    * `Grammar.Sane`
    * `sane_analyze`
-/

------------------------------------------------------------
-- Links
------------------------------------------------------------

namespace Descent

namespace LeftRecursion

/- The depth of the search for links is never met. -/
theorem leftMostTo_eq
    {g : Grammar}
    (hNested : g.Nested)
    (s : Session)
    {d d' : Nat}
    {id : ExpId}
    (hLeft : rank g.ChildOf g.expansions.size id < d)
    (hRight : rank g.ChildOf g.expansions.size id < d') :
    leftMostTo g s d id = leftMostTo g s d' id := by
  apply eq_of_rank_lt (f := leftMostTo g s) hNested.acyclic
    Grammar.lt_size_of_childOf ?_ hLeft hRight
  intro d d' i hParts
  unfold Grammar.ChildOf Grammar.children at hParts
  unfold leftMostTo
  cases hForm : g.form i with
  | sequence units =>
      rw [hForm] at hParts
      dsimp only
      apply List.flatMap_congr
      intro u hu
      exact hParts u (List.mem_of_mem_take hu)
  | choice alternatives =>
      rw [hForm] at hParts
      dsimp only
      apply List.flatMap_congr
      exact hParts
  | oneOrMore body =>
      rw [hForm] at hParts
      exact hParts body List.mem_cons_self
  | zeroOrMore body =>
      rw [hForm] at hParts
      exact hParts body List.mem_cons_self
  | zeroOrOne body =>
      rw [hForm] at hParts
      exact hParts body List.mem_cons_self
  | tryBlock body catches cleanup =>
      rw [hForm] at hParts
      exact hParts body List.mem_cons_self
  | _ => rfl

end LeftRecursion

------------------------------------------------------------
-- Ways to the first token
------------------------------------------------------------

namespace Grammar

/- An expansion may come to a part before any token. -/
def Leads
    (g : Grammar)
    (part whole : ExpId) : Prop :=
  match g.form whole with
  | .terminal _ _ _ => False
  | .nonterminal name _ _ => g.Defines name part
  | .sequence units =>
      ∃ before after, units = before ++ part :: after ∧
        g.Vanishes before
  | .choice alternatives => part ∈ alternatives
  | .oneOrMore body => part = body
  | .zeroOrMore body => part = body
  | .zeroOrOne body => part = body
  | .tryBlock body _ _ => part = body
  | .action _ => False
  | .lookahead _ => False

theorem lt_size_of_leads
    {g : Grammar}
    (part whole : ExpId)
    (hLeads : g.Leads part whole) :
    whole < g.expansions.size := by
  apply lt_size_of_expansion
  intro hForm
  unfold Leads at hLeads
  rw [hForm] at hLeads
  exact hLeads

/- A step to a part leads into a call or down. -/
theorem leads_cases
    {g : Grammar}
    {part whole : ExpId}
    (hLeads : g.Leads part whole) :
    (∃ name result args,
      g.form whole = .nonterminal name result args ∧
        g.Defines name part) ∨
      g.ChildOf part whole := by
  unfold Leads at hLeads
  unfold ChildOf children
  cases hForm : g.form whole with
  | terminal r result member =>
      rw [hForm] at hLeads
      exact hLeads.elim
  | nonterminal name result args =>
      rw [hForm] at hLeads
      exact .inl ⟨name, result, args, rfl, hLeads⟩
  | sequence units =>
      rw [hForm] at hLeads
      rcases hLeads with ⟨before, after, rfl, -⟩
      exact .inr (List.mem_append_right before
        List.mem_cons_self)
  | choice alternatives =>
      rw [hForm] at hLeads
      exact .inr hLeads
  | oneOrMore body =>
      rw [hForm] at hLeads
      exact .inr (List.mem_singleton.mpr hLeads)
  | zeroOrMore body =>
      rw [hForm] at hLeads
      exact .inr (List.mem_singleton.mpr hLeads)
  | zeroOrOne body =>
      rw [hForm] at hLeads
      exact .inr (List.mem_singleton.mpr hLeads)
  | tryBlock body catches cleanup =>
      rw [hForm] at hLeads
      exact .inr (List.mem_singleton.mpr hLeads)
  | action code =>
      rw [hForm] at hLeads
      exact hLeads.elim
  | lookahead la =>
      rw [hForm] at hLeads
      exact hLeads.elim

theorem Reachable.leads
    {g : Grammar}
    {part whole : ExpId}
    (hReachable : g.Reachable whole)
    (hLeads : g.Leads part whole) :
    g.Reachable part := by
  rcases leads_cases hLeads with
    ⟨_, _, _, -, p, hMem, -, hBody⟩ | hChild
  · exact reachable_body hMem hBody
  · exact hReachable.child hChild

end Grammar

namespace LeftRecursion

/- The productions that an expansion can begin with. -/
abbrev begins
    (g : Grammar)
    (s : Session)
    (id : ExpId) : List ProdId :=
  leftMostTo g s (g.expansions.size + 1) id

theorem begins_eq
    {g : Grammar}
    (hNested : g.Nested)
    (s : Session)
    (id : ExpId) :
    begins g s id =
      leftMostTo g s (g.expansions.size + 1 + 1) id := by
  have hLess : rank g.ChildOf g.expansions.size id <
      g.expansions.size + 1 :=
    Nat.lt_succ_of_le (rank_le hNested.acyclic id)
  exact leftMostTo_eq hNested s hLess
    (Nat.lt_succ_of_lt hLess)

/- What a part begins with, the whole begins with. -/
theorem begins_subset
    {g : Grammar}
    (hNested : g.Nested)
    {s : Session}
    (hEmpty : ∀ e, Nullable.nullable g s e = true ↔
      g.Vanishes [e])
    {part whole : ExpId}
    (hLeads : g.Leads part whole)
    (hChild : g.ChildOf part whole) :
    begins g s part ⊆ begins g s whole := by
  rw [begins_eq hNested s whole]
  intro p hp
  unfold leftMostTo
  unfold Grammar.Leads at hLeads
  unfold Grammar.ChildOf Grammar.children at hChild
  cases hForm : g.form whole with
  | nonterminal name result args =>
      rw [hForm] at hChild
      cases hChild
  | sequence units =>
      rw [hForm] at hLeads
      rcases hLeads with ⟨before, after, rfl, hGone⟩
      have hPassed : ∀ e ∈ before,
          Nullable.nullable g s e = true :=
        fun e he => (hEmpty e).mpr
          (Grammar.vanishes_iff_forall.mp hGone e he)
      apply List.mem_flatMap.mpr
      refine ⟨part, ?_, hp⟩
      rw [List.takeWhile_append_of_pos hPassed,
        List.length_append, Nat.add_assoc,
        List.take_length_add_append, List.take_succ_cons]
      exact List.mem_append_right before List.mem_cons_self
  | choice alternatives =>
      rw [hForm] at hLeads
      exact List.mem_flatMap.mpr ⟨part, hLeads, hp⟩
  | oneOrMore body =>
      rw [hForm] at hLeads
      cases hLeads
      exact hp
  | zeroOrMore body =>
      rw [hForm] at hLeads
      cases hLeads
      exact hp
  | zeroOrOne body =>
      rw [hForm] at hLeads
      cases hLeads
      exact hp
  | tryBlock body catches cleanup =>
      rw [hForm] at hLeads
      cases hLeads
      exact hp
  | _ =>
      rw [hForm] at hLeads
      exact hLeads.elim

/-
  Where links lead down, so do the ways to the first token:
  within a body they go from whole to part, and a call goes
  down a link.
-/
theorem wellFounded_leads
    {g : Grammar}
    (hNested : g.Nested)
    {s : Session}
    (hFlagged : s.Flagged g)
    (hLinks : s.facts.leftExpansions =
      Array.replicate g.productions.size [])
    (hFounded : WellFounded (LinkedTo (link g s))) :
    WellFounded g.Leads := by
  have hParts : WellFounded g.ChildOf :=
    hNested.acyclic.wellFounded Grammar.lt_size_of_childOf
  have hWithin : ∀ e,
      (∀ q ∈ begins g s e, ∀ p body,
        g.productions[q]? = some p →
        p.expansion? = some body → Acc g.Leads body) →
      Acc g.Leads e := by
    intro e
    induction e using hParts.induction with
    | _ e ih =>
      intro hBodies
      constructor
      intro part hLeads
      rcases Grammar.leads_cases hLeads with
        ⟨name, result, args, hForm, p, hMem, hName, hBody⟩ |
          hChild
      · rcases Array.mem_iff_getElem?.mp hMem with ⟨q, hAt⟩
        refine hBodies q ?_ p part hAt hBody
        unfold begins leftMostTo
        rw [hForm, Option.mem_toList]
        exact (hFlagged.names name q).mpr ⟨p, hAt, hName⟩
      · apply ih part hChild
        intro q hq
        exact hBodies q
          (begins_subset hNested hFlagged.empty hLeads hChild hq)
  have hCalls : ∀ (q : ProdId) (p : Production) (body : ExpId),
      g.productions[q]? = some p →
        p.expansion? = some body → Acc g.Leads body := by
    intro q
    induction q using hFounded.induction with
    | _ q ih =>
      intro p body hAt hBody
      apply hWithin
      intro q' hq'
      exact ih q'
        ((linkedTo_link hLinks q' q).mpr
          ⟨p, body, hAt, hBody, hq'⟩)
  exact ⟨fun e => hWithin e fun q _ => hCalls q⟩

end LeftRecursion

/-
  What the checks establish of a grammar: no way to the first
  token ends where it began, and every repetition consumes
  tokens.
-/
structure Grammar.Sane
    (g : Grammar) : Prop where
  acyclic : Acyclic g.Leads
  consumes : ∀ id, g.Reachable id → g.Consumes id

theorem sane_analyze
    {b : Builder}
    (hMade : Made b)
    {o : Options}
    (hSanity : o.sanityCheck = true)
    {g : Grammar}
    {s : Session}
    (hPasses : analyze b.grammar (.new o) = (g, s, .ok ())) :
    g.Sane := by
  rcases analyze_flagged hMade hPasses with
    ⟨hNested, hClean, flagged, hFlagged, hUnlinked, hSession⟩
  rw [if_pos hSanity] at hSession
  rw [hSession] at hClean
  have hCycles :=
    (Analysis.records_afterCycles g flagged).clean hClean
  have hRepetitions := (LeftRecursion.followsLinks_check g
    (Nullable.checkRepetitions g flagged)).clean hCycles
  rcases Nullable.foldl_checkRepetition_of_clean _ hRepetitions
    with ⟨hSame, hAll⟩
  have hSame' : Nullable.checkRepetitions g flagged = flagged :=
    hSame
  rw [hSame'] at hCycles
  constructor
  · apply acyclic_of_wellFounded
    exact LeftRecursion.wellFounded_leads hNested hFlagged
      hUnlinked.links
      (LeftRecursion.wellFounded_of_clean hUnlinked.links
        hUnlinked.statuses hCycles)
  · intro id hReachable
    have hKept : ∀ body image,
        Nullable.repetition? g id = some (body, image) →
          ¬ g.Vanishes [body] := by
      intro body image hRepeats hGone
      have hLow := hAll id
        (Grammar.mem_walked hNested hReachable) body image
        hRepeats
      rw [(hFlagged.empty body).mpr hGone] at hLow
      cases hLow
    unfold Nullable.repetition? at hKept
    unfold Grammar.Consumes
    split
    · next body hForm => exact hKept body _ (by rw [hForm])
    · next body hForm => exact hKept body _ (by rw [hForm])
    · trivial

end Descent
