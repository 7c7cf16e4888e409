import Descent.Proofs.TokenKinds

/-
  What is resolved before a grammar is checked.

  Names are resolved in three steps: lookaheads are put in
  order, calls are looked up, and tokens are checked and
  numbered.  The third step has nothing to do with expansions
  and productions, nor with what is known about them.  The
  numbers of tokens stay below their count.

  Main declarations:
    * `Analysis.fixed`
    * `Analysis.called`
    * `Analysis.checked`
    * `Analysis.alters_resolve`
    * `Analysis.sameRules_resolve`
    * `Calls.resolved`
    * `Calls.flagged`
    * `bounded_analyze`
-/

------------------------------------------------------------
-- References to tokens of another token manager
------------------------------------------------------------

namespace Descent

open Session (Alters)

namespace TokenTable

/- A session without the tables of tokens. -/
def untabled
    (s : Session) : Session :=
  { unnumbered s with namedTokens := [] }

/- A session without the names and the number of tokens. -/
def unnamed
    (s : Session) : Session :=
  { s with
    diagnostics := {}, namesOfTokens := [],
    namedTokens := [], tokenCount := 0 }

theorem records_warnUnnamed
    (g : Grammar)
    (s : Session)
    (id : RegexId) :
    s.Records (warnUnnamed g s id) := by
  unfold warnUnnamed
  dsimp only
  split
  · exact .refl s
  · exact Session.records_warning s _ _

theorem records_foldl_warnUnnamed
    (g : Grammar)
    (s : Session) :
    s.Records ((allSpecs g).foldl
      (fun s entry => warnUnnamed g s entry.2.1.regex) s) :=
  Alters.foldl
    (fun s (entry : Item) =>
      records_warnUnnamed g s entry.2.1.regex)
    (allSpecs g) s

theorem alters_numberReference
    (acc : Grammar × Session × List SpecPos)
    (entry : Item) :
    Alters unnamed acc.2.1
        (numberReference acc entry).2.1 ∧
      acc.1.SameRules (numberReference acc entry).1 := by
  rcases acc with ⟨g, s, marked⟩
  rcases entry with ⟨sec, spec, pos⟩
  unfold numberReference
  dsimp only
  split
  · split
    · exact ⟨⟨fun h => h, rfl⟩, ⟨rfl, rfl⟩⟩
    · exact ⟨.refl s, ⟨rfl, rfl⟩⟩
  · exact ⟨.refl s, .refl g⟩

theorem alters_numberReferences
    (g : Grammar)
    (s : Session) :
    Alters unnamed s (numberReferences g s).2 ∧
      g.SameRules (numberReferences g s).1 := by
  have hAll := rel_foldl
    (R := fun acc acc' : Grammar × Session × List SpecPos =>
      Alters unnamed acc.2.1 acc'.2.1 ∧
        acc.1.SameRules acc'.1)
    (fun _ => ⟨.refl _, .refl _⟩)
    (fun hFirst hSecond =>
      ⟨hFirst.1.trans hSecond.1, hFirst.2.trans hSecond.2⟩)
    alters_numberReference (allSpecs g) (g, s, [])
  unfold numberReferences
  generalize (allSpecs g).foldl numberReference (g, s, [])
    = acc at hAll
  rcases acc with ⟨g', s', marked⟩
  have hWarned := records_foldl_warnUnnamed
    (dropSpecs g' marked) s'
  exact ⟨hAll.1.trans (hWarned.coarsen fun _ => rfl),
    ⟨hAll.2.expansions, hAll.2.productions⟩⟩

end TokenTable

------------------------------------------------------------
-- Steps
------------------------------------------------------------

namespace Analysis

open TokenTable

/- The grammar and the session once lookaheads are in order. -/
def fixed
    (g : Grammar)
    (s : Session) : Grammar × Session :=
  LookaheadFix.run g (warnLookahead s)

/- The session once calls have been looked up. -/
def called
    (g : Grammar)
    (s : Session) : Session :=
  References.resolve (fixed g s).1
    (References.enterProductions (fixed g s).1 (fixed g s).2)

/- The grammar and the session once sections are checked. -/
def checked
    (g : Grammar)
    (s : Session) : Grammar × Session :=
  checkSections (fixed g s).1 (called g s)

/- Kinds are given out to the entries that are left. -/
def numbered
    (g : Grammar)
    (s : Session) : Grammar × Session :=
  assignKinds (checked g s).1
    (collectNames (checked g s).1 (checked g s).2)

theorem resolve_eq
    (g : Grammar)
    (s : Session) :
    resolve g s =
      if (numbered g s).2.options.userTokenManager then
        numberReferences (numbered g s).1 (numbered g s).2
      else
        resolveReferences (numbered g s).1 (numbered g s).2 :=
  rfl

theorem entersNames_called
    (g : Grammar)
    (s : Session) :
    s.EntersNames (called g s) := by
  have hFixed : s.Records (fixed g s).2 :=
    (records_warnLookahead s).trans
      (LookaheadFix.records_run g _)
  have hEntered := References.entersNames_enterProductions
    (fixed g s).1 (fixed g s).2
  have hResolved := References.learns_resolve (fixed g s).1
    (References.enterProductions (fixed g s).1 (fixed g s).2)
  exact (hFixed.coarsen fun _ => rfl).trans
    (hEntered.trans (hResolved.coarsen fun _ => rfl))

theorem alters_numbered
    (g : Grammar)
    (s : Session) :
    Alters untabled (checked g s).2 (numbered g s).2 := by
  have hNames := (collects_collectNames (checked g s).1
    (checked g s).2).alters
  have hKinds := (spares_assignKinds (checked g s).1
    (collectNames (checked g s).1 (checked g s).2)).1
  exact (hNames.coarsen fun _ => rfl).trans
    (hKinds.coarsen fun _ => rfl)

/- Tokens are numbered after sections have been checked. -/
theorem alters_resolve
    (g : Grammar)
    (s : Session) :
    Alters untabled (checked g s).2 (resolve g s).2 := by
  apply (alters_numbered g s).trans
  rw [resolve_eq]
  split
  · exact (alters_numberReferences _ _).1.coarsen fun _ => rfl
  · exact (records_resolveReferences _ _).coarsen fun _ => rfl

theorem options_resolve
    (g : Grammar)
    (s : Session) :
    (resolve g s).2.options = s.options := by
  have hChecked : (called g s).MeetsEnd (checked g s).2 :=
    meetsEnd_checkSections _ _
  calc (resolve g s).2.options
      = (checked g s).2.options :=
        (alters_resolve g s).field (·.options) fun _ => rfl
    _ = (called g s).options :=
        hChecked.field (·.options) fun _ => rfl
    _ = s.options :=
        (entersNames_called g s).field (·.options) fun _ => rfl

/- Checking sections drops some of what they list. -/
theorem nodup_listed_checked
    {g : Grammar}
    (hListed : (listed g).Nodup)
    (s : Session) :
    (listed (checked g s).1).Nodup := by
  have hSame := LookaheadFix.sameTokens_run g (warnLookahead s)
  have hOnce : (listed (fixed g s).1).Nodup := by
    unfold listed at hListed ⊢
    unfold fixed
    rwa [hSame.sections]
  rw [listed_eq] at hOnce ⊢
  exact hOnce.sublist ((entries_dropSpecs_sublist _ _).map _)

/- Numbering tokens spares expansions and productions. -/
theorem sameRules_resolve
    (g : Grammar)
    (s : Session) :
    (fixed g s).1.SameRules (resolve g s).1 := by
  have hChecked : (fixed g s).1.SameRules (checked g s).1 :=
    ⟨rfl, rfl⟩
  have hKinds := (spares_assignKinds (checked g s).1
    (collectNames (checked g s).1 (checked g s).2)).2
  apply (hChecked.trans hKinds).trans
  rw [resolve_eq]
  split
  · exact (alters_numberReferences _ _).2
  · exact sameRules_resolveReferences _ _

end Analysis

------------------------------------------------------------
-- Kinds
------------------------------------------------------------

namespace TokenTable

/- All kinds come before the next one. -/
def Bounded
    (g : Grammar)
    (count : Nat) : Prop :=
  ∀ r, (g.regex r).kind < count

/- An expression is given a kind before the next one. -/
theorem Bounded.modifyRegex
    {g : Grammar}
    {count count' : Nat}
    (hBounded : Bounded g count)
    (hMore : count ≤ count')
    (id : RegexId)
    {f : RegexNode → RegexNode}
    (hKind : (f (g.regex id)).kind < count') :
    Bounded (g.modifyRegex id f) count' := by
  intro r
  rw [Grammar.regex_modifyRegex]
  split
  · exact hKind
  · exact (hBounded r).trans_le hMore

/- Without errors, bounded kinds stay bounded. -/
def Numbering.KeepsBound
    (n n' : Numbering) : Prop :=
  n'.session.Clean →
    n.session.Clean ∧ (n.Bounded → n'.Bounded)

theorem Numbering.KeepsBound.refl
    (n : Numbering) :
    n.KeepsBound n :=
  fun hClean => ⟨hClean, fun h => h⟩

theorem Numbering.KeepsBound.trans
    {n n' n'' : Numbering}
    (hFirst : n.KeepsBound n')
    (hSecond : n'.KeepsBound n'') :
    n.KeepsBound n'' := by
  intro hClean
  have hSecond' := hSecond hClean
  have hFirst' := hFirst hSecond'.1
  exact ⟨hFirst'.1, fun h => hSecond'.2 (hFirst'.2 h)⟩

theorem keepsBound_numberSection
    (n : Numbering)
    (i : SectionId) :
    n.KeepsBound (numberSection n i) := by
  unfold numberSection
  extract_lets states g' sec
  have hSpec : ∀ (n : Numbering) (entry : TokenSpec × SpecPos),
      n.KeepsBound (numberSpec sec states n entry) := by
    intro n entry hClean
    rcases numbered_numberSpec hClean with ⟨hBefore, hMoves, -⟩
    exact ⟨hBefore, hMoves.bounded⟩
  exact rel_foldl Numbering.KeepsBound.refl
    Numbering.KeepsBound.trans hSpec _ { n with grammar := g' }

theorem bounded_assignKinds
    {g : Grammar}
    (hFresh : ∀ r, (g.regex r).kind = 0)
    {s : Session}
    (hClean : (assignKinds g s).2.Clean) :
    Bounded (assignKinds g s).1
      (assignKinds g s).2.tokenCount := by
  refine (rel_foldl Numbering.KeepsBound.refl
    Numbering.KeepsBound.trans keepsBound_numberSection
    (List.range g.sections.size) _ hClean).2 ?_
  intro r
  change (g.regex r).kind < 1
  rw [hFresh r]
  exact Nat.one_pos

theorem bounded_pointTo
    {g : Grammar}
    {count : Nat}
    (hBounded : Bounded g count)
    (id : RegexId)
    (name : String)
    (target : RegexId) :
    Bounded (pointTo g id name target) count :=
  hBounded.modifyRegex le_rfl id (hBounded target)

theorem bounded_resolveReference
    {count : Nat}
    (explicit : Bool)
    (root : RegexId)
    (gs : Grammar × Session)
    (id : RegexId)
    (hBounded : Bounded gs.1 count) :
    Bounded (resolveReference explicit root gs id).1 count := by
  rcases gs with ⟨g, s⟩
  rcases resolveReference_cases explicit root g s id with
    ⟨name, old, target, -, -, hSame⟩ |
    ⟨place, message, hSame⟩ | ⟨-, hSame⟩
  · rw [hSame]
    exact bounded_pointTo hBounded id name target
  · rw [hSame]
    exact hBounded
  · rw [hSame]
    exact hBounded

theorem bounded_resolveReferences
    {g : Grammar}
    {count : Nat}
    (hBounded : Bounded g count)
    (s : Session) :
    Bounded (resolveReferences g s).1 count := by
  have hSpec : ∀ (acc : Grammar × Session × List SpecPos)
      (entry : Item), Bounded acc.1 count →
        Bounded (resolveSpec acc entry).1 count := by
    intro acc entry hBefore
    exact rel_foldl
      (R := fun gs gs' : Grammar × Session =>
        Bounded gs.1 count → Bounded gs'.1 count)
      (fun _ h => h)
      (fun hFirst hSecond h => hSecond (hFirst h))
      (bounded_resolveReference entry.1.explicit
        entry.2.1.regex)
      (acc.1.regexPreOrder entry.2.1.regex) (acc.1, acc.2.1)
      hBefore
  exact rel_foldl
    (R := fun acc acc' : Grammar × Session × List SpecPos =>
      Bounded acc.1 count → Bounded acc'.1 count)
    (fun _ h => h)
    (fun hFirst hSecond h => hSecond (hFirst h))
    hSpec (allSpecs g) (g, s, []) hBounded

theorem bounded_numberReference
    (acc : Grammar × Session × List SpecPos)
    (entry : Item)
    (hBounded : Bounded acc.1 acc.2.1.tokenCount) :
    Bounded (numberReference acc entry).1
      (numberReference acc entry).2.1.tokenCount := by
  unfold numberReference
  dsimp only
  split
  · split
    · exact hBounded.modifyRegex (Nat.le_succ _) _
        (Nat.lt_succ_self _)
    · exact bounded_pointTo hBounded _ _ _
  · exact hBounded

theorem bounded_numberReferences
    {g : Grammar}
    {s : Session}
    (hBounded : Bounded g s.tokenCount) :
    Bounded (numberReferences g s).1
      (numberReferences g s).2.tokenCount := by
  have hAll := rel_foldl
    (R := fun acc acc' : Grammar × Session × List SpecPos =>
      Bounded acc.1 acc.2.1.tokenCount →
        Bounded acc'.1 acc'.2.1.tokenCount)
    (fun _ h => h)
    (fun hFirst hSecond h => hSecond (hFirst h))
    bounded_numberReference (allSpecs g) (g, s, []) hBounded
  unfold numberReferences
  generalize (allSpecs g).foldl numberReference (g, s, [])
    = acc at hAll
  rcases acc with ⟨g', s', marked⟩
  have hWarned := records_foldl_warnUnnamed
    (dropSpecs g' marked) s'
  dsimp only
  rw [hWarned.field (·.tokenCount) fun _ => rfl]
  exact hAll

end TokenTable

/- Every token expression has a kind before the next one. -/
theorem bounded_resolve
    {g : Grammar}
    (hFresh : ∀ r, (g.regex r).kind = 0)
    {s : Session}
    (hClean : (Analysis.resolve g s).2.Clean) :
    TokenTable.Bounded (Analysis.resolve g s).1
      (Analysis.resolve g s).2.tokenCount := by
  have hFixed : ∀ r,
      ((Analysis.checked g s).1.regex r).kind = 0 := by
    have hSame := (LookaheadFix.sameTokens_run g
      (Analysis.warnLookahead s)).regexes
    intro r
    change ((LookaheadFix.run g
      (Analysis.warnLookahead s)).1.regex r).kind = 0
    unfold Grammar.regex
    rw [hSame]
    exact hFresh r
  rw [Analysis.resolve_eq] at hClean ⊢
  split at hClean
  · next hManaged =>
      rw [if_pos hManaged]
      have hNumbered :=
        (TokenTable.alters_numberReferences _ _).1.clean hClean
      exact TokenTable.bounded_numberReferences
        (TokenTable.bounded_assignKinds hFixed hNumbered)
  · next hManaged =>
      rw [if_neg hManaged]
      have hRecords := TokenTable.records_resolveReferences
        (Analysis.numbered g s).1 (Analysis.numbered g s).2
      rw [hRecords.field (·.tokenCount) fun _ => rfl]
      exact TokenTable.bounded_resolveReferences
        (TokenTable.bounded_assignKinds hFixed
          (hRecords.clean hClean)) _

/- An analysis passes if no stage records an error. -/
theorem analyze_of_clean
    {g : Grammar}
    {s flagged : Session}
    (hResolved :
      (Analysis.resolve g s).2.diagnostics.errorCount = 0)
    (hFlagged : (Nullable.raiseFlags (Analysis.resolve g s).1
      (Analysis.resolve g s).2).1 = flagged)
    (hSanity : s.options.sanityCheck = true)
    (hChecked : (Analysis.sanityCheck (Analysis.resolve g s).1
      flagged).diagnostics.errorCount = 0) :
    analyze g s =
      ((Analysis.resolve g s).1,
        Analysis.sanityCheck (Analysis.resolve g s).1 flagged,
        .ok ()) := by
  have hOk : ∀ {s : Session}, s.diagnostics.errorCount = 0 →
      s.diagnostics.checkpoint = .ok () := by
    intro s hNone
    unfold Diagnostics.checkpoint
    rw [hNone]
    rfl
  have hFlags := Nullable.learns_passes (Analysis.resolve g s).1
    ((Analysis.resolve g s).1.productions.size + 1) 0
    (Analysis.resolve g s).2
  have hOptions : flagged.options = s.options := by
    rw [← hFlagged]
    exact (hFlags.field (·.options) fun _ => rfl).trans
      (Analysis.options_resolve g s)
  unfold analyze
  dsimp only
  rw [hOk hResolved]
  dsimp only
  rw [hFlagged, hOptions, if_pos hSanity, hOk hChecked]

/- Options under which two tokens are looked at. -/
def twoAhead : Options :=
  { lookahead := 2 }

namespace Calls

/- What calls put together, once names are resolved. -/
def resolved
    (calls : Calls)
    (o : Options := {}) : Grammar × Session :=
  Analysis.resolve calls.built.grammar (.new o)

/- The session once flags are raised. -/
def flagged
    (calls : Calls)
    (o : Options := {}) : Session :=
  (Nullable.raiseFlags (calls.resolved o).1
    (calls.resolved o).2).1

/- What calls put together passes if no stage finds an error. -/
theorem analyze_built
    {calls : Calls}
    {o : Options}
    (hSanity : o.sanityCheck = true)
    (hResolved :
      (calls.resolved o).2.diagnostics.errorCount = 0)
    (hChecked : (Analysis.sanityCheck (calls.resolved o).1
      (calls.flagged o)).diagnostics.errorCount = 0) :
    analyze calls.built.grammar (.new o) =
      ((calls.resolved o).1,
        Analysis.sanityCheck (calls.resolved o).1
          (calls.flagged o),
        .ok ()) :=
  analyze_of_clean hResolved rfl hSanity hChecked

end Calls

/- Analysis gives out all kinds before the next one. -/
theorem bounded_analyze
    {b : Builder}
    (hMade : Made b)
    {s₀ : Session}
    {g : Grammar}
    {s : Session}
    (hPasses : analyze b.grammar s₀ = (g, s, .ok ())) :
    TokenTable.Bounded g s.tokenCount := by
  rcases learns_afterTokens hPasses with ⟨rfl, hLearns, hClean⟩
  rw [hLearns.field (·.tokenCount) fun _ => rfl]
  exact bounded_resolve hMade.wellFormed.tokens.unnumbered
    (hLearns.clean hClean)

end Descent
