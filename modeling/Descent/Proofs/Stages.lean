import Descent.Proofs.Numbering

/-
  What the stages of analysis leave as it is.

  Every stage records problems and none takes one back.  The
  tables of tokens change only where names are collected and
  kinds are given out.

  Main declarations:
    * `Session.Later`
    * `Session.Alters`
    * `later_beforeTokens`
    * `analyze_eq_ok`
    * `learns_afterTokens`
-/

------------------------------------------------------------
-- Later sessions
------------------------------------------------------------

namespace Descent

namespace Session

/- Errors stay, and so do options and the tables of tokens. -/
structure Later
    (s s' : Session) : Prop where
  clean : s'.Clean → s.Clean
  options : s'.options = s.options
  namedTokens : s'.namedTokens = s.namedTokens
  regexesOfTokens : s'.regexesOfTokens = s.regexesOfTokens
  tokenCount : s'.tokenCount = s.tokenCount
  simpleTokens : s'.simpleTokens = s.simpleTokens

theorem Later.refl
    (s : Session) :
    s.Later s :=
  ⟨fun h => h, rfl, rfl, rfl, rfl, rfl⟩

theorem Later.trans
    {s s' s'' : Session}
    (hFirst : s.Later s')
    (hSecond : s'.Later s'') :
    s.Later s'' where
  clean h := hFirst.clean (hSecond.clean h)
  options := hSecond.options.trans hFirst.options
  namedTokens := hSecond.namedTokens.trans hFirst.namedTokens
  regexesOfTokens :=
    hSecond.regexesOfTokens.trans hFirst.regexesOfTokens
  tokenCount := hSecond.tokenCount.trans hFirst.tokenCount
  simpleTokens :=
    hSecond.simpleTokens.trans hFirst.simpleTokens

/-
  Errors stay, and nothing changes but what is blanked out
  before sessions are compared.
-/
structure Alters
    (blank : Session → Session)
    (s s' : Session) : Prop where
  clean : s'.Clean → s.Clean
  same : blank s' = blank s

section Alters

variable {blank : Session → Session}

theorem Alters.refl
    (s : Session) :
    Alters blank s s :=
  ⟨fun h => h, rfl⟩

theorem Alters.trans
    {s s' s'' : Session}
    (hFirst : Alters blank s s')
    (hSecond : Alters blank s' s'') :
    Alters blank s s'' :=
  ⟨fun h => hFirst.clean (hSecond.clean h),
    hSecond.same.trans hFirst.same⟩

theorem Alters.foldl
    {β : Type}
    {f : Session → β → Session}
    (hStep : ∀ (s : Session) (x : β),
      Alters blank s (f s x))
    (xs : List β)
    (s : Session) :
    Alters blank s (xs.foldl f s) :=
  TokenTable.rel_foldl Alters.refl Alters.trans hStep xs s

/- More is blanked out. -/
theorem Alters.coarsen
    {s s' : Session}
    (hAlters : Alters blank s s')
    {blank' : Session → Session}
    (hBlank : ∀ s, blank' (blank s) = blank' s) :
    Alters blank' s s' where
  clean := hAlters.clean
  same := by rw [← hBlank s', hAlters.same, hBlank]

/- A part of the session that is not blanked out. -/
theorem Alters.field
    {α : Type}
    {s s' : Session}
    (hAlters : Alters blank s s')
    (part : Session → α)
    (hBlank : ∀ s, part (blank s) = part s) :
    part s' = part s := by
  rw [← hBlank s', hAlters.same, hBlank]

end Alters

/- Only problems are recorded. -/
abbrev Records :=
  Alters fun s => { s with diagnostics := {} }

/- Something is found out about productions as well. -/
abbrev Learns :=
  Alters fun s => { s with diagnostics := {}, facts := {} }

/- Only what is known about cycles changes of the facts. -/
abbrev FollowsLinks :=
  Alters fun s => { s with
    diagnostics := {},
    facts := { s.facts with
      leftExpansions := #[], walkStatus := #[] } }

/- Productions are entered under their names as well. -/
abbrev EntersNames :=
  Alters fun s => { s with
    diagnostics := {}, facts := {}, productionTable := [] }

/- Something is found out about the end of the file as well. -/
abbrev MeetsEnd :=
  Alters fun s => { s with diagnostics := {}, eof := none }

theorem records_error
    (s : Session)
    (place : Location)
    (message : String) :
    s.Records (s.error place message) :=
  ⟨fun h => absurd h (not_clean_error s place message), rfl⟩

theorem records_warning
    (s : Session)
    (place : Location)
    (message : String) :
    s.Records (s.warning place message) :=
  ⟨(clean_warning s place message).mp, rfl⟩

theorem records_globalWarning
    (s : Session)
    (message : String) :
    s.Records (s.globalWarning message) := by
  refine ⟨?_, rfl⟩
  simp [Clean, globalWarning, Diagnostics.globalWarning,
    Diagnostics.push, Diagnostics.errorCount,
    Diagnostics.errors, Diagnostics.ofSeverity]

/- An error is recorded under a condition. -/
theorem records_ite_error
    (s : Session)
    (condition : Bool)
    (place : Location)
    (message : String) :
    s.Records (if condition = true then s.error place message
      else s) := by
  split
  · exact records_error s place message
  · exact .refl s

theorem learns_facts
    (s : Session)
    (facts : Facts) :
    s.Learns { s with facts := facts } :=
  ⟨fun h => h, rfl⟩

theorem Alters.learns
    {s s' : Session}
    (hRecords : s.Records s') :
    s.Learns s' :=
  hRecords.coarsen fun _ => rfl

theorem Alters.meetsEnd
    {s s' : Session}
    (hRecords : s.Records s') :
    s.MeetsEnd s' :=
  hRecords.coarsen fun _ => rfl

/- What else is blanked out is no table of tokens. -/
theorem Alters.later
    {s s' : Session}
    (hAlters : Alters
      (fun s => { s with
        diagnostics := {}, facts := {}, eof := none,
        productionTable := [] }) s s') :
    s.Later s' where
  clean := hAlters.clean
  options := hAlters.field (·.options) fun _ => rfl
  namedTokens := hAlters.field (·.namedTokens) fun _ => rfl
  regexesOfTokens :=
    hAlters.field (·.regexesOfTokens) fun _ => rfl
  tokenCount := hAlters.field (·.tokenCount) fun _ => rfl
  simpleTokens := hAlters.field (·.simpleTokens) fun _ => rfl

theorem Alters.later_of_records
    {s s' : Session}
    (hRecords : s.Records s') :
    s.Later s' :=
  (hRecords.coarsen fun _ => rfl).later

end Session

open Session

------------------------------------------------------------
-- Lookaheads and productions
------------------------------------------------------------

theorem Analysis.records_warnLookahead
    (s : Session) :
    s.Records (warnLookahead s) := by
  unfold warnLookahead
  extract_lets o
  split
  · exact records_globalWarning s _
  · exact .refl s

theorem LookaheadFix.records_run
    (g : Grammar)
    (s : Session) :
    s.Records (LookaheadFix.run g s).2 := by
  have hStep : ∀ (gs : Grammar × Session) (id : ExpId),
      gs.2.Records (fixSequence gs id).2 := by
    intro gs id
    rcases gs with ⟨g, s⟩
    unfold fixSequence
    dsimp only
    split
    · exact .refl _
    · dsimp only
      split
      · exact records_warning _ _ _
      · exact .refl _
  exact TokenTable.rel_foldl
    (R := fun gs gs' : Grammar × Session =>
      gs.2.Records gs'.2)
    (fun _ => .refl _) Alters.trans
    (fun gs body => TokenTable.rel_foldl
      (R := fun gs gs' : Grammar × Session =>
        gs.2.Records gs'.2)
      (fun _ => .refl _) Alters.trans hStep _ gs)
    _ (g, s)

theorem References.entersNames_enterProduction
    (s : Session)
    (entry : Production × ProdId) :
    s.EntersNames (enterProduction s entry) := by
  have hError := records_ite_error s
    (Assoc.contains entry.1.name s.productionTable)
    entry.1.place
    s!"{entry.1.name} occurs on the left hand side of more than one production."
  have hEnters : s.EntersNames _ := hError.coarsen fun _ => rfl
  exact ⟨hEnters.clean, hEnters.same⟩

theorem References.entersNames_enterProductions
    (g : Grammar)
    (s : Session) :
    s.EntersNames (enterProductions g s) := by
  refine Alters.trans ?_
    (Alters.foldl entersNames_enterProduction _ _)
  exact (learns_facts s _).coarsen fun _ => rfl

theorem References.learns_resolve
    (g : Grammar)
    (s : Session) :
    s.Learns (References.resolve g s) := by
  refine Alters.foldl ?_ _ s
  intro s id
  unfold resolveCall
  split
  · split
    · exact learns_facts s _
    · exact (records_error s _ _).learns
  · exact .refl s

------------------------------------------------------------
-- Token sections
------------------------------------------------------------

/- Expansions and productions are as they were. -/
structure Grammar.SameRules
    (g g' : Grammar) : Prop where
  expansions : g'.expansions = g.expansions
  productions : g'.productions = g.productions

theorem Grammar.SameRules.refl
    (g : Grammar) :
    g.SameRules g :=
  ⟨rfl, rfl⟩

theorem Grammar.SameRules.trans
    {g g' g'' : Grammar}
    (hFirst : g.SameRules g')
    (hSecond : g'.SameRules g'') :
    g.SameRules g'' :=
  ⟨hSecond.expansions.trans hFirst.expansions,
    hSecond.productions.trans hFirst.productions⟩

namespace TokenTable

theorem records_checkNextState
    (g : Grammar)
    (s : Session)
    (spec : TokenSpec) :
    s.Records (checkNextState g s spec) := by
  unfold checkNextState
  split
  · split
    · exact records_error s _ _
    · exact .refl s
  · exact .refl s

theorem meetsEnd_takeEof
    (s : Session)
    (sec : TokenSection)
    (spec : TokenSpec)
    (place : Location) :
    s.MeetsEnd (takeEof s sec spec place) := by
  unfold takeEof
  extract_lets s₁ s₂ s₃
  have hAll : s.Records s₃ :=
    (records_ite_error s _ _ _).trans
      ((records_ite_error s₁ _ _ _).trans
        (records_ite_error s₂ _ _ _))
  exact ⟨hAll.clean, hAll.meetsEnd.same⟩

/- An entry only gives rise to problems or ends the file. -/
theorem checkSpec_cases
    (g : Grammar)
    (acc : Session × List SpecPos)
    (entry : Item) :
    (checkNextState g acc.1 entry.2.1).Records
        (checkSpec g acc entry).1 ∨
      (checkSpec g acc entry).1 =
        takeEof (checkNextState g acc.1 entry.2.1) entry.1
          entry.2.1 (g.regex entry.2.1.regex).place := by
  rcases acc with ⟨s, marked⟩
  rcases entry with ⟨sec, spec, pos⟩
  unfold checkSpec
  dsimp only
  generalize checkNextState g s spec = s₁
  split
  · exact .inr rfl
  · left
    split
    · exact records_warning s₁ _ _
    · split
      · exact records_warning s₁ _ _
      · split
        · exact records_error s₁ _ _
        · exact .refl s₁

theorem meetsEnd_checkSpec
    (g : Grammar)
    (acc : Session × List SpecPos)
    (entry : Item) :
    acc.1.MeetsEnd (checkSpec g acc entry).1 := by
  have hState := records_checkNextState g acc.1 entry.2.1
  apply hState.meetsEnd.trans
  rcases checkSpec_cases g acc entry with hRecords | hEnd
  · exact hRecords.meetsEnd
  · rw [hEnd]
    exact meetsEnd_takeEof _ _ _ _

theorem meetsEnd_checkSections
    (g : Grammar)
    (s : Session) :
    s.MeetsEnd (checkSections g s).2 :=
  rel_foldl
    (R := fun acc acc' : Session × List SpecPos =>
      acc.1.MeetsEnd acc'.1)
    (fun _ => .refl _) Alters.trans (meetsEnd_checkSpec g)
    (allSpecs g) (s, [])

/- A session without what numbering changes. -/
def unnumbered
    (s : Session) : Session :=
  { s with
    diagnostics := {}, namesOfTokens := [],
    regexesOfTokens := [], tokenCount := 0,
    simpleTokens := [] }

/- A session without what a state of a literal changes. -/
def unfilled
    (s : Session) : Session :=
  { s with diagnostics := {}, tokenCount := 0, simpleTokens := [] }

/- What numbering has nothing to do with. -/
structure Numbering.Spares
    (blank : Session → Session)
    (n n' : Numbering) : Prop where
  session : Alters blank n.session n'.session
  rules : n.grammar.SameRules n'.grammar
  labels :
    ∀ r, (n'.grammar.regex r).label = (n.grammar.regex r).label

section Spares

variable {blank : Session → Session}

theorem Numbering.Spares.refl
    (n : Numbering) :
    n.Spares blank n :=
  ⟨.refl _, .refl _, fun _ => rfl⟩

theorem Numbering.Spares.trans
    {n n' n'' : Numbering}
    (hFirst : n.Spares blank n')
    (hSecond : n'.Spares blank n'') :
    n.Spares blank n'' :=
  ⟨hFirst.session.trans hSecond.session,
    hFirst.rules.trans hSecond.rules,
    fun r => (hSecond.labels r).trans (hFirst.labels r)⟩

end Spares

/- An expression is given a kind. -/
theorem label_modifyRegex
    (g : Grammar)
    (id : RegexId)
    (kind : Kind)
    (r : RegexId) :
    ((g.modifyRegex id fun r => { r with kind := kind }).regex
      r).label = (g.regex r).label := by
  rw [Grammar.regex_modifyRegex]
  split
  · next hHere => rw [hHere.1]
  · rfl

theorem spares_takeKind
    (n : Numbering)
    (id : RegexId) :
    n.Spares unfilled (n.takeKind id) :=
  ⟨⟨fun h => h, rfl⟩, ⟨rfl, rfl⟩, label_modifyRegex _ id _⟩

theorem spares_enter
    (n : Numbering)
    (id : RegexId)
    (state upper image : String) :
    n.Spares unfilled
      ((n.takeKindOnce id).enterVariant state upper image
        id) := by
  have hTake : n.Spares unfilled (n.takeKindOnce id) := by
    unfold Numbering.takeKindOnce
    split
    · exact spares_takeKind n id
    · exact .refl n
  exact hTake.trans
    ⟨⟨fun h => h, rfl⟩, ⟨rfl, rfl⟩, fun _ => rfl⟩

theorem spares_error
    (n : Numbering)
    (place : Location)
    (message : String) :
    n.Spares unfilled (n.error place message) :=
  ⟨(records_error _ _ _).coarsen fun _ => rfl, .refl _,
    fun _ => rfl⟩

theorem spares_numberRepeated
    (n : Numbering)
    (sec : TokenSection)
    (state image : String)
    (id existing : RegexId)
    (pos : SpecPos) :
    n.Spares unfilled
      (numberRepeated n sec state image id existing pos) := by
  unfold numberRepeated
  dsimp only
  split
  · exact spares_error n _ _
  · split
    · exact spares_error n _ _
    · split
      · exact spares_error n _ _
      · exact ⟨⟨fun h => h, rfl⟩, ⟨rfl, rfl⟩,
          label_modifyRegex _ id _⟩

theorem spares_numberLiteral
    (sec : TokenSection)
    (image : String)
    (id : RegexId)
    (pos : SpecPos)
    (n : Numbering)
    (state : String) :
    n.Spares unfilled
      (numberLiteral sec image id pos n state) := by
  unfold numberLiteral
  dsimp only
  split
  · exact spares_enter n id state _ image
  · next variants _ =>
      split
      · exact spares_error n _ _
      · split
        · have hWarning := records_warning n.session
            (n.grammar.regex id).place
            (supersededMessage n.grammar variants)
          have hEnter := spares_enter
            { n with
              session := n.session.warning
                (n.grammar.regex id).place
                (supersededMessage n.grammar variants) }
            id state (Text.upperText image) image
          exact ⟨(hWarning.coarsen fun _ => rfl).trans
            hEnter.session, hEnter.rules, hEnter.labels⟩
        · split
          · exact spares_numberRepeated n sec state image
              id _ pos
          · exact spares_enter n id state _ image

/- Numbering a literal in some of its states. -/
theorem spares_foldl_numberLiteral
    (sec : TokenSection)
    (image : String)
    (id : RegexId)
    (pos : SpecPos)
    (n : Numbering)
    (states : List String) :
    n.Spares unfilled
      (states.foldl (numberLiteral sec image id pos) n) :=
  rel_foldl Numbering.Spares.refl Numbering.Spares.trans
    (spares_numberLiteral sec image id pos) states n

theorem spares_numberSpec
    (sec : TokenSection)
    (states : List String)
    (n : Numbering)
    (entry : TokenSpec × SpecPos) :
    n.Spares unnumbered (numberSpec sec states n entry) := by
  have hEnter : ∀ {n' : Numbering} (id : RegexId),
      n.Spares unfilled n' →
        n.Spares unnumbered (enterKind n' id) := by
    intro n' id hSpares
    have hSame : Alters unnumbered n.session n'.session :=
      hSpares.session.coarsen fun _ => rfl
    exact ⟨⟨hSame.clean, hSame.same⟩, hSpares.rules,
      hSpares.labels⟩
  unfold numberSpec
  dsimp only
  split
  · exact hEnter _ (spares_foldl_numberLiteral sec _ _ _ n states)
  · exact .refl n
  · exact hEnter _ (spares_takeKind n _)

/- Numbering spares all but kinds and the tables of tokens. -/
theorem spares_assignKinds
    (g : Grammar)
    (s : Session) :
    Numbering.Spares unnumbered
      { grammar := g, session := s }
      { grammar := (assignKinds g s).1,
        session := (assignKinds g s).2 } := by
  have hSection : ∀ (n : Numbering) (i : SectionId),
      n.Spares unnumbered (numberSection n i) := by
    intro n i
    unfold numberSection
    extract_lets states g' sec
    have hAll := rel_foldl Numbering.Spares.refl
      Numbering.Spares.trans
      (spares_numberSpec sec states)
      (sec.specs.zipIdx.map fun e => (e.1, (i, e.2)))
      { n with grammar := g' }
    exact ⟨hAll.session,
      ⟨hAll.rules.expansions, hAll.rules.productions⟩,
      hAll.labels⟩
  have hAll := rel_foldl Numbering.Spares.refl
    Numbering.Spares.trans hSection
    (List.range g.sections.size)
    { grammar := g,
      session :=
        { s with
          tokenCount := 1,
          simpleTokens := g.lexicalStates.foldl
            (fun t state => Assoc.alter state (·.getD []) t)
            s.simpleTokens } }
  exact ⟨⟨hAll.session.clean, hAll.session.same⟩,
    ⟨hAll.rules.expansions, hAll.rules.productions⟩,
    hAll.labels⟩

theorem records_resolveReferences
    (g : Grammar)
    (s : Session) :
    s.Records (resolveReferences g s).2 := by
  have hStep : ∀ (explicit : Bool) (root : RegexId)
      (gs : Grammar × Session) (id : RegexId),
      gs.2.Records (resolveReference explicit root gs id).2 := by
    intro explicit root gs id
    rcases gs with ⟨g, s⟩
    unfold resolveReference
    dsimp only
    split
    · split
      · exact records_error s _ _
      · split
        · exact records_error s _ _
        · split
          · exact records_error s _ _
          · exact .refl s
    · exact .refl s
  exact rel_foldl
    (R := fun acc acc' : Grammar × Session × List SpecPos =>
      acc.2.1.Records acc'.2.1)
    (fun _ => .refl _) Alters.trans
    (fun acc e => rel_foldl
      (R := fun gs gs' : Grammar × Session =>
        gs.2.Records gs'.2)
      (fun _ => .refl _) Alters.trans
      (hStep e.1.explicit e.2.1.regex)
      (acc.1.regexPreOrder e.2.1.regex) (acc.1, acc.2.1))
    (allSpecs g) (g, s, [])

theorem sameRules_resolveReferences
    (g : Grammar)
    (s : Session) :
    g.SameRules (resolveReferences g s).1 := by
  have hStep : ∀ (explicit : Bool) (root : RegexId)
      (gs : Grammar × Session) (id : RegexId),
      gs.1.SameRules
        (resolveReference explicit root gs id).1 := by
    intro explicit root gs id
    rcases gs with ⟨g, s⟩
    unfold resolveReference
    dsimp only
    split
    · split
      · exact .refl g
      · split
        · exact .refl g
        · split
          · exact .refl g
          · exact ⟨rfl, rfl⟩
    · exact .refl g
  have hAll := rel_foldl (f := resolveSpec)
    (R := fun acc acc' : Grammar × Session × List SpecPos =>
      acc.1.SameRules acc'.1)
    (fun _ => .refl _) Grammar.SameRules.trans
    (fun acc e => rel_foldl
      (R := fun gs gs' : Grammar × Session =>
        gs.1.SameRules gs'.1)
      (fun _ => .refl _) Grammar.SameRules.trans
      (hStep e.1.explicit e.2.1.regex)
      (acc.1.regexPreOrder e.2.1.regex) (acc.1, acc.2.1))
    (allSpecs g) (g, s, [])
  exact ⟨hAll.expansions, hAll.productions⟩

end TokenTable

------------------------------------------------------------
-- Checks
------------------------------------------------------------

namespace Nullable

theorem learns_pass
    (g : Grammar)
    (s : Session) :
    s.Learns (pass g s).1 := by
  refine TokenTable.rel_foldl
    (R := fun acc acc' : Session × Bool => acc.1.Learns acc'.1)
    (fun _ => .refl _) Alters.trans ?_ _ (s, false)
  intro acc entry
  rcases acc with ⟨s, changed⟩
  rcases entry with ⟨p, id⟩
  unfold visitProduction
  dsimp only
  split
  · exact .refl _
  · split
    · exact learns_facts _ _
    · exact .refl _

theorem learns_passes
    (g : Grammar)
    (fuel count : Nat)
    (s : Session) :
    s.Learns (passes g fuel count s).1 := by
  induction fuel generalizing count s with
  | zero => exact .refl s
  | succ fuel ih =>
      have hPass := learns_pass g s
      unfold passes
      generalize pass g s = r at hPass
      rcases r with ⟨s₁, changed⟩
      dsimp only
      split
      · exact hPass.trans (ih (count + 1) s₁)
      · exact hPass

theorem records_checkRepetition
    (g : Grammar)
    (s : Session)
    (id : ExpId) :
    s.Records (checkRepetition g s id) := by
  unfold checkRepetition
  split
  · split
    · exact records_error s _ _
    · exact .refl s
  · exact .refl s

theorem records_checkRepetitions
    (g : Grammar)
    (s : Session) :
    s.Records (checkRepetitions g s) :=
  Alters.foldl (records_checkRepetition g) _ s

end Nullable

namespace LeftRecursion

theorem followsLinks_setStatus
    (s : Session)
    (p : ProdId)
    (status : WalkStatus) :
    s.FollowsLinks (setStatus s p status) :=
  ⟨fun h => h, rfl⟩

theorem followsLinks_leave
    (g : Grammar)
    (s : Session)
    (p : ProdId)
    (spelled : String) :
    s.FollowsLinks (leave g s p spelled).1 := by
  have hDone := followsLinks_setStatus s p .done
  unfold leave
  extract_lets closes s₁
  split
  · exact hDone.trans ((records_error s₁ _ _).coarsen fun _ => rfl)
  · exact hDone

/- Along the links of a production, if it holds of walks. -/
theorem followsLinks_walkLinks
    (g : Grammar)
    {fuel : Nat}
    (hWalk : ∀ (s : Session) (p : ProdId),
      s.FollowsLinks (walk g fuel s p).1)
    (p : ProdId)
    (links : List ProdId)
    (s : Session) :
    s.FollowsLinks (walkLinks g fuel p links s).1 := by
  induction links generalizing s with
  | nil =>
      unfold walkLinks
      exact followsLinks_setStatus s p .done
  | cons next rest ih =>
      unfold walkLinks
      extract_lets name
      split
      · exact (followsLinks_setStatus s next _).trans
          (followsLinks_leave g _ p _)
      · have hNext := hWalk s next
        generalize walk g fuel s next = r at hNext
        rcases r with ⟨s₁, spelled | _⟩
        · exact hNext.trans (ih s₁)
        · exact hNext.trans (followsLinks_leave g s₁ p _)
      · exact ih s

theorem followsLinks_walk
    (g : Grammar)
    (fuel : Nat)
    (s : Session)
    (p : ProdId) :
    s.FollowsLinks (walk g fuel s p).1 := by
  induction fuel generalizing s p with
  | zero =>
      unfold walk
      exact .refl s
  | succ fuel ih =>
      unfold walk
      exact (followsLinks_setStatus s p .onStack).trans
        (followsLinks_walkLinks g ih p _ _)

theorem followsLinks_check
    (g : Grammar)
    (s : Session) :
    s.FollowsLinks (check g s) := by
  have hLink : s.FollowsLinks (link g s) :=
    ⟨fun h => h, rfl⟩
  refine hLink.trans (Alters.foldl ?_ _ (link g s))
  intro s p
  split
  · exact followsLinks_walk g _ s p
  · exact .refl s

end LeftRecursion

namespace RegexLoop

theorem records_walkParts
    (g : Grammar)
    {fuel : Nat}
    (hWalk : ∀ (w : Search) (id : RegexId),
      w.session.Records (walk g fuel w id).1.session)
    (parts : List RegexId)
    (w : Search) :
    w.session.Records (walkParts g fuel parts w).1.session := by
  induction parts generalizing w with
  | nil =>
      unfold walkParts
      exact .refl _
  | cons part rest ih =>
      have hPart := hWalk w part
      unfold walkParts
      generalize walk g fuel w part = r at hPart
      rcases r with ⟨w₁, _ | spelled⟩
      · exact hPart.trans (ih w₁)
      · exact hPart

theorem records_walk
    (g : Grammar)
    (fuel : Nat)
    (w : Search)
    (id : RegexId) :
    w.session.Records (walk g fuel w id).1.session := by
  induction fuel generalizing w id with
  | zero =>
      unfold walk
      exact .refl _
  | succ fuel ih =>
      unfold walk
      split
      · next target _ =>
          dsimp only
          split
          · exact .refl _
          · have hTarget := ih (w.setStatus target .onStack)
              target
            generalize walk g fuel (w.setStatus target .onStack)
              target = r at hTarget
            rcases r with ⟨w₁, _ | spelled⟩
            · exact hTarget
            · dsimp only
              split
              · exact hTarget.trans
                  (records_error w₁.session _ _)
              · exact hTarget
          · exact .refl _
      · exact .refl _
      · exact records_walkParts g ih _ w

theorem records_check
    (g : Grammar)
    (s : Session) :
    s.Records (check g s) := by
  refine TokenTable.rel_foldl
    (R := fun w w' : Search => w.session.Records w'.session)
    (fun _ => .refl _) Alters.trans ?_ _ { session := s }
  intro w id
  unfold checkSpec
  split
  · exact .refl _
  · have hWalk := records_walk g (Thompson.depthBound g)
      (w.setStatus id .onStack) id
    generalize walk g (Thompson.depthBound g)
      (w.setStatus id .onStack) id = r at hWalk
    rcases r with ⟨w₁, _ | spelled⟩
    · exact hWalk
    · exact hWalk.trans (records_error w₁.session _ _)

end RegexLoop

namespace Conflict

theorem records_checkChoice
    (g : Grammar)
    (s : Session)
    (id : ExpId) :
    s.Records (checkChoice g s id) := by
  unfold checkChoice
  split
  · split
    · exact .refl s
    · dsimp only
      split
      · exact records_warning s _ _
      · refine Alters.foldl ?_ _ s
        intro s entry
        unfold reportChoice
        dsimp only
        split
        · exact .refl s
        · exact records_warning s _ _
  · exact .refl s

theorem records_raiseRepetition
    (g : Grammar)
    (id body : ExpId)
    (left limit : Nat)
    (last : Option Match)
    (s : Session) :
    s.Records (raiseRepetition g id body left limit last s).1 := by
  induction left generalizing limit last s with
  | zero => exact .refl s
  | succ left ih =>
      unfold raiseRepetition
      generalize sidesOf g s id body limit = sides
      rcases sides with ⟨first, follow⟩
      dsimp only
      have hWarned : ∀ condition : Bool, s.Records
          (if condition = true then
            s.warning (g.place body) (codeMessage (construct g id))
          else s) := by
        intro condition
        split
        · exact records_warning s _ _
        · exact .refl s
      split
      · exact (hWarned _).trans (ih _ _ _)
      · exact hWarned _

theorem records_checkRepetition
    (g : Grammar)
    (s : Session)
    (id body : ExpId) :
    s.Records (checkRepetition g s id body) := by
  have hRaise := records_raiseRepetition g id body
    s.options.otherAmbiguityCheck 1 none s
  unfold checkRepetition
  extract_lets max
  generalize raiseRepetition g id body max 1 none s = r at hRaise
  rcases r with ⟨s₁, needed, last⟩
  dsimp only
  split
  · exact hRaise
  · exact hRaise.trans (records_warning s₁ _ _)

theorem records_check
    (g : Grammar)
    (s : Session) :
    s.Records (check g s) := by
  refine Alters.foldl ?_ _ s
  intro s id
  unfold checkNode
  extract_lets o
  split
  · split
    · exact records_checkChoice g s id
    · exact .refl s
  · split
    · exact records_checkRepetition g s id _
    · exact .refl s
  · exact .refl s

end Conflict

/- Look for loops of token expressions, if they are scanned. -/
def Analysis.checkLoops
    (g : Grammar)
    (s : Session) : Session :=
  if s.options.userTokenManager then s else RegexLoop.check g s

/- Look for conflicts, if nothing else is wrong. -/
def Analysis.checkConflicts
    (g : Grammar)
    (s : Session) : Session :=
  if s.diagnostics.errorCount == 0 then Conflict.check g s
  else s

/- The checks one after the other. -/
theorem Analysis.sanityCheck_eq
    (g : Grammar)
    (s : Session) :
    Analysis.sanityCheck g s =
      checkConflicts g (checkLoops g (LeftRecursion.check g
        (Nullable.checkRepetitions g s))) :=
  rfl

/- Checks go on after cycles have been looked for. -/
theorem Analysis.records_afterCycles
    (g : Grammar)
    (s : Session) :
    Records
      (LeftRecursion.check g (Nullable.checkRepetitions g s))
      (Analysis.sanityCheck g s) := by
  rw [sanityCheck_eq]
  generalize LeftRecursion.check g
    (Nullable.checkRepetitions g s) = s₁
  have hLoops : s₁.Records (checkLoops g s₁) := by
    unfold checkLoops
    split
    · exact .refl s₁
    · exact RegexLoop.records_check g s₁
  apply hLoops.trans
  unfold checkConflicts
  split
  · exact Conflict.records_check g _
  · exact .refl _

theorem Analysis.followsLinks_sanityCheck
    (g : Grammar)
    (s : Session) :
    s.FollowsLinks (Analysis.sanityCheck g s) := by
  have hRepetitions := Nullable.records_checkRepetitions g s
  have hCycles := LeftRecursion.followsLinks_check g
    (Nullable.checkRepetitions g s)
  exact (hRepetitions.coarsen fun _ => rfl).trans
    (hCycles.trans
      ((records_afterCycles g s).coarsen fun _ => rfl))

------------------------------------------------------------
-- All stages
------------------------------------------------------------

/- The session up to the point where names are collected. -/
theorem later_beforeTokens
    (g : Grammar)
    (s : Session) :
    let fixed := LookaheadFix.run g (Analysis.warnLookahead s)
    s.Later
      (TokenTable.checkSections fixed.1
        (References.resolve fixed.1
          (References.enterProductions fixed.1 fixed.2))).2 := by
  intro fixed
  have hFixed : s.Records fixed.2 :=
    (Analysis.records_warnLookahead s).trans
      (LookaheadFix.records_run g _)
  have hEntered :=
    References.entersNames_enterProductions fixed.1 fixed.2
  have hResolved := References.learns_resolve fixed.1
    (References.enterProductions fixed.1 fixed.2)
  have hChecked := TokenTable.meetsEnd_checkSections fixed.1
    (References.resolve fixed.1
      (References.enterProductions fixed.1 fixed.2))
  exact hFixed.later_of_records.trans
    ((hEntered.coarsen fun _ => rfl).later.trans
      ((hResolved.coarsen fun _ => rfl).later.trans
        (hChecked.coarsen fun _ => rfl).later))

/- The stages of an analysis that passes. -/
theorem analyze_eq_ok
    {g g' : Grammar}
    {s s' : Session}
    (hPasses : analyze g s = (g', s', .ok ())) :
    (Analysis.resolve g s).1 = g' ∧
      (Analysis.resolve g s).2.Clean ∧
      (∃ flagged,
        (Nullable.raiseFlags g' (Analysis.resolve g s).2).1 =
          flagged ∧
        s' = if flagged.options.sanityCheck then
            Analysis.sanityCheck g' flagged
          else flagged) ∧
      s'.Clean := by
  unfold analyze at hPasses
  generalize Analysis.resolve g s = resolved at hPasses
  rcases resolved with ⟨g₁, s₁⟩
  dsimp only at hPasses
  cases hCheck : s₁.diagnostics.checkpoint with
  | error e =>
      rw [hCheck] at hPasses
      simp at hPasses
  | ok _ =>
      rw [hCheck] at hPasses
      dsimp only at hPasses
      rw [Prod.mk.injEq, Prod.mk.injEq] at hPasses
      rcases hPasses with ⟨rfl, hSession, hOk⟩
      rw [hSession] at hOk
      exact ⟨rfl, clean_of_checkpoint hCheck,
        ⟨_, rfl, hSession.symm⟩, clean_of_checkpoint hOk⟩

/- An analysis that passes goes on from resolved names. -/
theorem learns_afterTokens
    {g g' : Grammar}
    {s s' : Session}
    (hPasses : analyze g s = (g', s', .ok ())) :
    (Analysis.resolve g s).1 = g' ∧
      (Analysis.resolve g s).2.Learns s' ∧ s'.Clean := by
  rcases analyze_eq_ok hPasses with
    ⟨hGrammar, -, ⟨_, rfl, hSession⟩, hClean⟩
  refine ⟨hGrammar, ?_, hClean⟩
  have hFlags := Nullable.learns_passes g'
    (g'.productions.size + 1) 0 (Analysis.resolve g s).2
  rw [hSession]
  split
  · exact hFlags.trans
      ((Analysis.followsLinks_sanityCheck g' _).coarsen
        fun _ => rfl)
  · exact hFlags

theorem later_afterTokens
    {g g' : Grammar}
    {s s' : Session}
    (hPasses : analyze g s = (g', s', .ok ())) :
    (Analysis.resolve g s).1 = g' ∧
      (Analysis.resolve g s).2.Later s' ∧ s'.Clean := by
  rcases learns_afterTokens hPasses with
    ⟨hGrammar, hLearns, hClean⟩
  exact ⟨hGrammar, (hLearns.coarsen fun _ => rfl).later, hClean⟩

end Descent
