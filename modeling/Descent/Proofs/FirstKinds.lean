import Descent.Analysis.Conflict
import Descent.Proofs.Beginnings
import Descent.Proofs.Collections

/-
  The kinds that an expansion begins with.

  They are found in two ways: once as a set of kinds, where a
  sequence is followed as long as its units may be empty, and
  once as the complete beginnings of length one.  In a grammar
  that passes its checks both come to the kinds with which a
  leftmost derivation can begin.  No way to a first token
  enters an expansion twice, so the search for kinds does not
  stop at its depth.

  Main declarations:
    * `contains_firstTo`
    * `Grammar.Ruled.stops_one_iff`
    * `mem_firstOf_iff_beginsWith`
-/

------------------------------------------------------------
-- Productions that are not written by hand
------------------------------------------------------------

namespace Descent

/- All productions have bodies. -/
def Grammar.Ruled
    (g : Grammar) : Prop :=
  ∀ p ∈ g.productions, p.isCode = false

/- The names of a session lead to productions of the grammar. -/
def Session.NamesWithin
    (s : Session)
    (g : Grammar) : Prop :=
  ∀ name id, s.production? name = some id →
    id < g.productions.size

/- So do those of a session in which names were resolved. -/
theorem Session.KnowsNames.namesWithin
    {s : Session}
    {g : Grammar}
    (hNames : s.KnowsNames g) :
    s.NamesWithin g := by
  intro name id hId
  rcases (hNames name id).mp hId with ⟨p, hAt, -⟩
  exact (Array.getElem?_eq_some_iff.mp hAt).1

/- No expansion calls a production that is written by hand. -/
def Grammar.Codeless
    (g : Grammar)
    (s : Session) : Prop :=
  ∀ e, callsCode g s e = false

theorem Grammar.Ruled.codeless
    {g : Grammar}
    (hRuled : g.Ruled)
    {s : Session}
    (hNames : s.NamesWithin g) :
    g.Codeless s := by
  intro e
  unfold callsCode
  split
  · next name _ _ _ =>
      unfold productionNamed?
      cases hId : s.production? name with
      | none => rfl
      | some id =>
          have hAt := Array.getElem?_eq_getElem (hNames name id hId)
          change (g.production id).isCode = false
          rw [g.production_eq hAt]
          exact hRuled _ (Array.mem_of_getElem? hAt)
  · rfl

------------------------------------------------------------
-- Sets of kinds
------------------------------------------------------------

theorem First.contains_union
    (a b : First)
    (k : Kind) :
    (a.union b).kinds.contains k = true ↔
      a.kinds.contains k = true ∨
        b.kinds.contains k = true := by
  unfold First.union KindSet.contains
  rw [Nat.testBit_or, Bool.or_eq_true]

/- A kind is among the first, or, for none, a guard is met. -/
def First.Has
    (f : First) : Option Kind → Prop
  | some k => f.kinds.contains k = true
  | none => f.guarded = true

instance
    (f : First) : (m : Option Kind) → Decidable (f.Has m)
  | some _ => inferInstanceAs (Decidable (_ = true))
  | none => inferInstanceAs (Decidable (_ = true))

theorem First.not_has_empty :
    ∀ m, ¬ First.Has {} m
  | some _ => by simp [First.Has, KindSet.contains]
  | none => Bool.false_ne_true

theorem First.has_union
    (a b : First) :
    ∀ m, (a.union b).Has m ↔ a.Has m ∨ b.Has m
  | some k => First.contains_union a b k
  | none => Bool.or_eq_true _ _ ▸ Iff.rfl

theorem First.has_unions
    (fs : List First)
    (m : Option Kind) :
    (First.unions fs).Has m ↔ ∃ f ∈ fs, f.Has m := by
  have hFold : ∀ (start : First),
      (fs.foldl First.union start).Has m ↔
        start.Has m ∨ ∃ f ∈ fs, f.Has m := by
    induction fs with
    | nil => simp
    | cons f fs ih =>
        intro start
        rw [List.foldl_cons, ih, First.has_union,
          List.exists_mem_cons_iff, or_assoc]
  rw [First.unions, hFold, or_iff_right (First.not_has_empty m)]

theorem First.contains_unions
    (fs : List First)
    (k : Kind) :
    (First.unions fs).kinds.contains k = true ↔
      ∃ f ∈ fs, f.kinds.contains k = true :=
  First.has_unions fs (some k)

/-
  What a sequence begins with.  Its units are followed up to
  the first that may not be empty.
-/
theorem contains_firstOfUnits
    {g : Grammar}
    {s : Session}
    (hFlagged : s.Flagged g)
    (hRuled : g.Ruled)
    {first : ExpId → First}
    {k : Kind}
    (seq : ExpId)
    (units : List ExpId)
    (hFirst : ∀ before u after, units = before ++ u :: after →
      g.Vanishes before →
        ((first u).kinds.contains k = true ↔
          g.BeginsWith [u] k))
    (previous : Option ExpId) :
    (firstOfUnits g s first seq previous units).kinds.contains
        k = true ↔
      g.BeginsWith units k := by
  induction units generalizing previous with
  | nil =>
      refine iff_of_false ?_ Grammar.not_beginsWith_nil
      simp [firstOfUnits]
  | cons u us ih =>
      have hHere := hFirst [] u us rfl g.vanishes_nil
      unfold firstOfUnits
      rw [hRuled.codeless hFlagged.names.namesWithin,
        Grammar.beginsWith_cons]
      dsimp only
      rw [if_neg Bool.false_ne_true]
      split
      · next hEmpty =>
          have hGone := (hFlagged.empty u).mp hEmpty
          rw [First.contains_union, hHere, ih]
          · rw [and_iff_right hGone]
          · rintro before u' after rfl hBefore
            apply hFirst (u :: before) u' after rfl
            exact (g.vanishes_cons u).mpr ⟨hGone, hBefore⟩
      · next hKept =>
          rw [hHere]
          refine (or_iff_left ?_).symm
          rintro ⟨hGone, -⟩
          exact hKept ((hFlagged.empty u).mpr hGone)

/- A search for first kinds beyond all ways comes to them. -/
theorem contains_firstTo
    {g : Grammar}
    {s : Session}
    (hFlagged : s.Flagged g)
    (hSane : g.Sane)
    (hRuled : g.Ruled)
    (hBounded : TokenTable.Bounded g s.tokenCount)
    {depth : Nat}
    {e : ExpId}
    (hDepth : rank g.Leads g.expansions.size e < depth)
    (hReachable : g.Reachable e)
    (k : Kind) :
    (firstTo g s depth e).kinds.contains k = true ↔
      g.BeginsWith [e] k := by
  induction depth generalizing e with
  | zero => exact absurd hDepth (Nat.not_lt_zero _)
  | succ depth ih =>
      have hPart : ∀ part, g.Leads part e →
          ((firstTo g s depth part).kinds.contains k = true ↔
            g.BeginsWith [part] k) := by
        intro part hLeads
        have hLess := rank_lt hSane.acyclic
          Grammar.lt_size_of_leads hLeads
        exact ih (Nat.lt_of_lt_of_le hLess
          (Nat.le_of_lt_succ hDepth)) (hReachable.leads hLeads)
      rw [Grammar.beginsWith_iff_form
        (hSane.consumes e hReachable)]
      unfold Grammar.Leads at hPart
      unfold firstTo
      cases hForm : g.form e with
      | terminal r result member =>
          have hInside := hBounded r
          dsimp only
          rw [if_pos hInside, KindSet.contains_insert]
          simp [KindSet.empty, KindSet.contains, eq_comm]
      | nonterminal name result args =>
          rw [hForm] at hPart
          dsimp only at hPart ⊢
          cases hBody : bodyOf? g s name with
          | none =>
              refine iff_of_false (by simp) ?_
              rintro ⟨body, hDefines, -⟩
              rw [(bodyOf?_eq_some_iff hFlagged.names name
                body).mpr hDefines] at hBody
              cases hBody
          | some body =>
              have hDefines := (bodyOf?_eq_some_iff
                hFlagged.names name body).mp hBody
              dsimp only
              rw [hPart body hDefines]
              constructor
              · exact fun h => ⟨body, hDefines, h⟩
              · rintro ⟨body', hDefines', h⟩
                rw [← bodyOf?_eq_some_iff hFlagged.names,
                  hBody] at hDefines'
                cases hDefines'
                exact h
      | sequence units =>
          rw [hForm] at hPart
          dsimp only at hPart ⊢
          apply contains_firstOfUnits hFlagged hRuled e units
          intro before u after hUnits hGone
          exact hPart u ⟨before, after, hUnits, hGone⟩
      | choice alternatives =>
          rw [hForm] at hPart
          dsimp only at hPart ⊢
          rw [First.contains_unions]
          simp only [List.mem_map, exists_exists_and_eq_and]
          exact exists_congr fun alt =>
            and_congr_right fun hAlt => hPart alt hAlt
      | oneOrMore body =>
          rw [hForm] at hPart
          exact hPart body rfl
      | zeroOrMore body =>
          rw [hForm] at hPart
          exact hPart body rfl
      | zeroOrOne body =>
          rw [hForm] at hPart
          exact hPart body rfl
      | tryBlock body catches cleanup =>
          rw [hForm] at hPart
          exact hPart body rfl
      | action code => simp
      | lookahead la => simp

------------------------------------------------------------
-- Matches of length one
------------------------------------------------------------

/- No derivation comes to what is written by hand. -/
theorem Grammar.Ruled.not_meetsCode
    {g : Grammar}
    (hRuled : g.Ruled)
    {es : List ExpId}
    {tokens : List Kind} :
    ¬ g.MeetsCode es tokens := by
  rintro ⟨_, -, _, _, -, _, _, _, -, p, hMem, -, hCode⟩
  rw [hRuled p hMem] at hCode
  cases hCode

/- Derivations stop after so many tokens, and only there. -/
theorem Grammar.Ruled.stops_iff_starts
    {g : Grammar}
    (hRuled : g.Ruled)
    {limit : Nat}
    {es : List ExpId}
    {tokens : List Kind} :
    g.Stops limit es tokens ↔
      tokens.length = limit ∧ g.Starts es tokens := by
  rw [stops_iff]
  exact or_iff_left fun h => hRuled.not_meetsCode h.2

/- Derivations stop at their first token. -/
theorem Grammar.Ruled.stops_one_iff
    {g : Grammar}
    (hRuled : g.Ruled)
    {es : List ExpId}
    {tokens : List Kind} :
    g.Stops 1 es tokens ↔
      ∃ k, tokens = [k] ∧ g.BeginsWith es k := by
  rw [hRuled.stops_iff_starts, List.length_eq_one_iff]
  constructor
  · rintro ⟨⟨k, rfl⟩, hStarts⟩
    exact ⟨k, rfl, beginsWith_iff_starts.mpr hStarts⟩
  · rintro ⟨k, rfl, hBegins⟩
    exact ⟨⟨k, rfl⟩, beginsWith_iff_starts.mp hBegins⟩

------------------------------------------------------------
-- First kinds
------------------------------------------------------------

/-
  Two ways to the kinds that an expansion begins with.  In a
  grammar that has no productions written by hand and passes
  all checks, what is found as a set of kinds are the kinds
  with which a leftmost derivation can begin, and what is found
  as complete matches of length one are the same kinds.
-/
theorem mem_firstOf_iff_beginsWith
    {b : Builder}
    (hMade : Made b)
    {o : Options}
    (hSanity : o.sanityCheck = true)
    (hRuled : ∀ p ∈ b.grammar.productions, p.isCode = false)
    {g : Grammar}
    {s : Session}
    (hPasses : analyze b.grammar (.new o) = (g, s, .ok ()))
    {e : ExpId}
    (hReachable : g.Reachable e) :
    (∀ k, k ∈ (firstOf g s e).kinds.kinds ↔
        g.BeginsWith [e] k) ∧
      ∀ tokens,
        (∃ m ∈ ((Conflict.beginnings
            { grammar := g, session := s, limit := 1 }
            e).run {}).1, m.tokens = tokens) ↔
          ∃ k ∈ (firstOf g s e).kinds.kinds,
            tokens = [k] := by
  have hFlagged := (flagged_analyze hMade hPasses).2
  have hSane := sane_analyze hMade hSanity hPasses
  have hBounded := bounded_analyze hMade hPasses
  have hRuled' : g.Ruled := by
    unfold Grammar.Ruled
    rw [← (analyze_eq_ok hPasses).1, productions_resolve]
    exact hRuled
  have hRank : rank g.Leads g.expansions.size e <
      firstLevels g :=
    Nat.lt_of_le_of_lt (rank_le hSane.acyclic e)
      (Nat.lt_add_left stackLevels (Nat.lt_succ_self _))
  have hKinds : ∀ k, k ∈ (firstOf g s e).kinds.kinds ↔
      g.BeginsWith [e] k := by
    intro k
    rw [KindSet.mem_kinds]
    exact contains_firstTo hFlagged hSane hRuled' hBounded hRank
      hReachable k
  refine ⟨hKinds, ?_⟩
  intro tokens
  -- The walk starts with one empty match.
  let c : Prefixes.Setting :=
    { grammar := g, session := s, limit := 1 }
  have hTakes := Prefixes.takes_firstSet (c := c) hFlagged hSane
    rfl le_rfl hReachable (return []) _ _
    (Prefixes.fits_emptyMatch le_rfl {})
  have hHolds := hTakes.2.of_emptyMatch.2 tokens
  rw [or_iff_right (Prefixes.not_holds_fresh tokens),
    hRuled'.stops_one_iff] at hHolds
  have hTaken : (∃ m ∈ ((Conflict.beginnings c e).run {}).1,
        m.tokens = tokens) ↔
      ((Prefixes.firstSet c (Prefixes.emptyMatch.run {}).1
        e).run (Prefixes.emptyMatch.run {}).2).2.Holds tokens :=
    exists_congr fun _ =>
      and_congr_left fun _ => Array.mem_toList_iff
  simp only [hKinds]
  exact hTaken.trans (hHolds.trans (exists_congr fun _ => and_comm))

/- What is called first may be gone before the token `y`. -/
def optionalHead : Calls :=
  [.literal "x", .zeroOrOne 0, .action "go", .sequence [3, 4],
    .production "Head" "void" "" 6, .nonterminal "Head" "",
    .literal "y", .sequence [7, 8],
    .production "Start" "void" "" 10]

theorem mem_firstOf_iff_beginsWith_head :
    ∃ g s, analyze optionalHead.built.grammar (.new {}) =
        (g, s, .ok ()) ∧
      g.Reachable 10 ∧ g.BeginsWith [10] 1 ∧
      g.BeginsWith [10] 2 ∧ ¬ g.BeginsWith [10] 3 := by
  have hMade : Made optionalHead.built := by
    apply Calls.made_built
    simp only [ValidCalls, optionalHead, Call.Valid]
    decide +kernel
  have hResolved :
      optionalHead.resolved.2.diagnostics.errorCount = 0 := by
    cbv
  have hChecked : (Analysis.sanityCheck optionalHead.resolved.1
      optionalHead.flagged).diagnostics.errorCount = 0 := by
    rw [Analysis.sanityCheck_eq]
    cbv
  have hPasses : analyze optionalHead.built.grammar (.new {}) =
      (optionalHead.resolved.1,
        Analysis.sanityCheck optionalHead.resolved.1 optionalHead.flagged,
        .ok ()) :=
    Calls.analyze_built rfl hResolved hChecked
  have hRuled : ∀ p ∈ optionalHead.built.grammar.productions,
      p.isCode = false := by
    decide +kernel
  have hReachable : optionalHead.resolved.1.Reachable 10 := by
    refine ⟨optionalHead.built.grammar.production 1, ?_, 10, rfl,
      .refl⟩
    rw [Calls.resolved, productions_resolve]
    decide +kernel
  have hKinds : (firstOf optionalHead.resolved.1
      (Analysis.sanityCheck optionalHead.resolved.1 optionalHead.flagged)
      10).kinds.kinds = [1, 2] := by
    rw [Analysis.sanityCheck_eq]
    cbv
  have hIff := (mem_firstOf_iff_beginsWith hMade rfl hRuled
    hPasses hReachable).1
  rw [hKinds] at hIff
  refine ⟨_, _, hPasses, hReachable, ?_, ?_, ?_⟩
  · exact (hIff 1).mp (by decide)
  · exact (hIff 2).mp (by decide)
  · exact fun hBegins => absurd ((hIff 3).mpr hBegins)
      (by decide)

end Descent
