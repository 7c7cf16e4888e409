import Descent.Generation
import Descent.Proofs.BuiltLexer
import Descent.Proofs.Resolution

/-
  How a run of the generator ends.

  Every lexical state that a lexer looks up has been declared:
  the states of a section when the section was put together,
  the state after a token and the state after the end of the
  file when sections were checked.  So a lexer is built once a
  grammar passes analysis, and a run fails only where errors
  have been recorded.

  Main declarations:
    * `Grammar.Declares`
    * `declares_analyze`
    * `Lexer.exists_build_eq_ok`
    * `Checkpoint`
    * `generate_reports_errors`
-/

------------------------------------------------------------
-- Lookups of lexical states
------------------------------------------------------------

namespace Descent

namespace Grammar

/- All lexical states that entries name are there. -/
structure Declares
    (g : Grammar) : Prop where
  states :
    ∀ e ∈ g.entries, ∀ name ∈ g.statesIn e.1,
      name ∈ g.lexicalStates
  nexts :
    ∀ e ∈ g.entries, ∀ next ∈ e.2.nextState,
      next ∈ g.lexicalStates

theorem isSome_stateIndex?
    (g : Grammar)
    (name : String) :
    (g.stateIndex? name).isSome = true ↔
      name ∈ g.lexicalStates := by
  unfold stateIndex?
  rw [List.findIdx?_isSome]
  simp

end Grammar

namespace Lexer

theorem exists_requireState
    {g : Grammar}
    {name : String}
    (hMem : name ∈ g.lexicalStates) :
    ∃ i, requireState g name = .ok i := by
  have hSome := (g.isSome_stateIndex? name).mpr hMem
  rcases Option.isSome_iff_exists.mp hSome with ⟨i, hIndex⟩
  exact ⟨i, by rw [requireState, hIndex]⟩

theorem exists_requireState?
    {g : Grammar}
    {name? : Option String}
    (hMem : ∀ name ∈ name?, name ∈ g.lexicalStates) :
    ∃ i?, requireState? g name? = .ok i? := by
  cases name? with
  | none => exact ⟨none, rfl⟩
  | some name =>
      rcases exists_requireState (hMem name rfl) with ⟨i, hOk⟩
      exact ⟨some i, by rw [requireState?, hOk]; rfl⟩

/- A fold gives a result if each of its steps does. -/
theorem exists_foldlM
    {α β : Type}
    {f : β → α → Except Failure β}
    {xs : List α}
    (hStep : ∀ b, ∀ x ∈ xs, ∃ b', f b x = .ok b')
    (b : β) :
    ∃ b', xs.foldlM f b = .ok b' := by
  induction xs generalizing b with
  | nil => exact ⟨b, rfl⟩
  | cons x xs ih =>
      rcases hStep b x List.mem_cons_self with ⟨b₁, hFirst⟩
      rw [List.foldlM_cons, hFirst]
      exact ih
        (fun b y hy => hStep b y (List.mem_cons_of_mem x hy)) b₁

theorem exists_collectSpec
    {g : Grammar}
    (tokenKinds : Nat)
    (sec : TokenSection)
    {states : List String}
    (hStates : ∀ name ∈ states, name ∈ g.lexicalStates)
    (c : Collected)
    {spec : TokenSpec}
    (hNext : ∀ next ∈ spec.nextState,
      next ∈ g.lexicalStates) :
    ∃ c', collectSpec g tokenKinds sec states c spec =
      .ok c' := by
  unfold collectSpec
  split
  · exact ⟨c, rfl⟩
  · next kind _ =>
      rcases exists_requireState? hNext with ⟨next, hOk⟩
      rw [hOk]
      apply exists_foldlM
      intro c₁ name hName
      rcases exists_requireState (hStates name hName) with
        ⟨i, hOk⟩
      unfold activate
      rw [hOk]
      exact ⟨_, rfl⟩

/- A lexer is built if all states that it looks up are there. -/
theorem exists_build_eq_ok
    {g : Grammar}
    (hDeclares : g.Declares)
    {s : Session}
    (hEof : ∀ next ∈ s.eof.bind (·.nextState),
      next ∈ g.lexicalStates) :
    ∃ lx, (build g s).2 = .ok lx := by
  have hCollect : ∃ c, collect g s.tokenCount = .ok c := by
    rw [collect_eq]
    apply exists_foldlM
    intro c e he
    exact exists_collectSpec _ _ (hDeclares.states e he) c
      (hDeclares.nexts e he)
  rcases hCollect with ⟨c, hCollect⟩
  rcases exists_requireState? hEof with ⟨next, hNext⟩
  unfold build
  rw [hCollect]
  simp only [bind, Except.bind, hNext]
  exact ⟨_, rfl⟩

end Lexer

------------------------------------------------------------
-- Declared states through analysis
------------------------------------------------------------

namespace TokenTable

/- Entries are dropped at most, and states are written out. -/
structure Narrows
    (g g' : Grammar) : Prop where
  lexicalStates : g'.lexicalStates = g.lexicalStates
  entries :
    ∀ e' ∈ g'.entries, ∃ e ∈ g.entries,
      g'.statesIn e'.1 = g.statesIn e.1 ∧ e'.2 = e.2

theorem Narrows.trans
    {g g' g'' : Grammar}
    (hFirst : Narrows g g')
    (hSecond : Narrows g' g'') :
    Narrows g g'' where
  lexicalStates :=
    hSecond.lexicalStates.trans hFirst.lexicalStates
  entries e'' he'' := by
    rcases hSecond.entries e'' he'' with
      ⟨e', he', hStates', hSpec'⟩
    rcases hFirst.entries e' he' with ⟨e, he, hStates, hSpec⟩
    exact ⟨e, he, hStates'.trans hStates, hSpec'.trans hSpec⟩

theorem Narrows.declares
    {g g' : Grammar}
    (hNarrows : Narrows g g')
    (hDeclares : g.Declares) :
    g'.Declares where
  states e' he' := by
    rcases hNarrows.entries e' he' with ⟨e, he, hStates, -⟩
    rw [hStates, hNarrows.lexicalStates]
    exact hDeclares.states e he
  nexts e' he' := by
    rcases hNarrows.entries e' he' with ⟨e, he, -, hSpec⟩
    rw [hSpec, hNarrows.lexicalStates]
    exact hDeclares.nexts e he

theorem narrows_dropSpecs
    (g : Grammar)
    (marked : List SpecPos) :
    Narrows g (dropSpecs g marked) where
  lexicalStates := rfl
  entries e he :=
    ⟨e, (entries_dropSpecs_sublist g marked).subset he, rfl,
      rfl⟩

/- Sections and states are as they were. -/
theorem narrows_of_sections
    {g g' : Grammar}
    (hSections : g'.sections = g.sections)
    (hStates : g'.lexicalStates = g.lexicalStates) :
    Narrows g g' where
  lexicalStates := hStates
  entries e he := by
    unfold Grammar.entries at he
    rw [hSections] at he
    refine ⟨e, he, ?_, rfl⟩
    unfold Grammar.statesIn
    rw [hStates]

theorem settledBefore_foldl_numberSection
    {g : Grammar}
    {n : Numbering}
    (hGrammar : n.grammar = g)
    (i : Nat)
    (hInside : i ≤ g.sections.size)
    (hClean : ((List.range i).foldl numberSection
      n).session.Clean) :
    SettledBefore g i
      ((List.range i).foldl numberSection n).grammar := by
  induction i with
  | zero =>
      subst hGrammar
      refine ⟨?_, rfl, fun _ => rfl⟩
      intro k
      simp
  | succ i ih =>
      rw [List.range_succ, List.foldl_append,
        List.foldl_cons, List.foldl_nil] at hClean ⊢
      rcases sustained_numberSection hInside hClean with
        ⟨hCleanBefore, hStep⟩
      exact (hStep (ih (Nat.le_of_succ_le hInside)
        hCleanBefore)).1

theorem narrows_assignKinds
    {g : Grammar}
    {s : Session}
    (hClean : (assignKinds g s).2.Clean) :
    Narrows g (assignKinds g s).1 := by
  have hSettled := settledBefore_foldl_numberSection
    (g := g) rfl g.sections.size le_rfl hClean
  apply Narrows.trans ?_ (narrows_dropSpecs _ _)
  generalize (List.range g.sections.size).foldl numberSection _
    = n at hSettled
  refine ⟨hSettled.states, ?_⟩
  intro e he
  rw [entries_eq, ← itemsBefore_eq_allSpecs hSettled,
    itemsBefore_size, ← entries_eq] at he
  unfold Grammar.entries at he ⊢
  simp only [Array.toList_map, List.flatMap_map,
    List.mem_flatMap, List.mem_map] at he ⊢
  rcases he with ⟨sec, hSec, spec, hSpec, rfl⟩
  refine ⟨_, ⟨sec, hSec, spec, hSpec, rfl⟩, ?_, rfl⟩
  rfl

/- What follows the end of the file has been declared. -/
def EofDeclared
    (g : Grammar)
    (s : Session) : Prop :=
  ∀ next ∈ s.eof.bind (·.nextState), next ∈ g.lexicalStates

theorem mem_of_checkNextState
    {g : Grammar}
    {s : Session}
    {spec : TokenSpec}
    (hClean : (checkNextState g s spec).Clean) :
    ∀ next ∈ spec.nextState, next ∈ g.lexicalStates := by
  intro next hNext
  have hSome : spec.nextState = some next := hNext
  unfold checkNextState at hClean
  rw [hSome] at hClean
  dsimp only at hClean
  split at hClean
  · exact absurd hClean (Session.not_clean_error _ _ _)
  · next hKnown =>
      rw [Option.isNone_iff_eq_none, ← ne_eq,
        Option.ne_none_iff_isSome] at hKnown
      exact (g.isSome_stateIndex? next).mp hKnown

/- One entry is checked. -/
theorem declared_checkSpec
    {g : Grammar}
    {acc : Session × List SpecPos}
    {e : Item}
    (hClean : (checkSpec g acc e).1.Clean)
    (hEof : EofDeclared g acc.1) :
    (∀ next ∈ e.2.1.nextState, next ∈ g.lexicalStates) ∧
      EofDeclared g (checkSpec g acc e).1 := by
  have hState := records_checkNextState g acc.1 e.2.1
  rcases checkSpec_cases g acc e with hRecords | hEnd
  · refine ⟨mem_of_checkNextState (hRecords.clean hClean), ?_⟩
    unfold EofDeclared
    rw [(hState.trans hRecords).field (·.eof) fun _ => rfl]
    exact hEof
  · rw [hEnd] at hClean ⊢
    have hNext := mem_of_checkNextState
      ((meetsEnd_takeEof _ _ _ _).clean hClean)
    exact ⟨hNext, hNext⟩

theorem declared_foldl_checkSpec
    {g : Grammar}
    (items : List Item)
    {acc : Session × List SpecPos}
    (hClean : (items.foldl (checkSpec g) acc).1.Clean)
    (hEof : EofDeclared g acc.1) :
    (∀ e ∈ items, ∀ next ∈ e.2.1.nextState,
        next ∈ g.lexicalStates) ∧
      EofDeclared g (items.foldl (checkSpec g) acc).1 := by
  induction items generalizing acc with
  | nil => exact ⟨List.forall_mem_nil _, hEof⟩
  | cons e items ih =>
      rw [List.foldl_cons] at hClean ⊢
      have hRest := rel_foldl
        (R := fun acc acc' : Session × List SpecPos =>
          acc.1.MeetsEnd acc'.1)
        (fun _ => .refl _) Session.Alters.trans
        (meetsEnd_checkSpec g) items (checkSpec g acc e)
      rcases declared_checkSpec (hRest.clean hClean) hEof with
        ⟨hFirst, hEof₁⟩
      rcases ih hClean hEof₁ with ⟨hOthers, hEof₂⟩
      exact ⟨List.forall_mem_cons.mpr ⟨hFirst, hOthers⟩, hEof₂⟩

/- Sections are checked without error. -/
theorem declares_checkSections
    {g : Grammar}
    {s : Session}
    (hStates : ∀ sec ∈ g.sections, ∀ names ∈ sec.states,
      ∀ name ∈ names, name ∈ g.lexicalStates)
    (hClean : (checkSections g s).2.Clean)
    (hEof : s.eof = none) :
    g.Declares ∧ EofDeclared g (checkSections g s).2 := by
  have hStart : EofDeclared g s := by
    unfold EofDeclared
    rw [hEof]
    nofun
  have hAll : (∀ e ∈ allSpecs g, ∀ next ∈ e.2.1.nextState,
      next ∈ g.lexicalStates) ∧ EofDeclared g
        ((allSpecs g).foldl (checkSpec g) (s, [])).1 :=
    declared_foldl_checkSpec (allSpecs g) hClean hStart
  rcases hAll with ⟨hNexts, hAfter⟩
  refine ⟨⟨?_, ?_⟩, hAfter⟩
  · intro e he name hName
    rcases List.mem_flatMap.mp he with ⟨sec, hSec, hEntry⟩
    rcases List.mem_map.mp hEntry with ⟨spec, -, rfl⟩
    unfold Grammar.statesIn at hName
    cases hNames : sec.states with
    | none =>
        rw [hNames] at hName
        exact hName
    | some names =>
        rw [hNames] at hName
        exact hStates sec (Array.mem_toList_iff.mp hSec) names
          hNames name hName
  · intro e he
    rw [entries_eq] at he
    rcases List.mem_map.mp he with ⟨e', he', rfl⟩
    exact hNexts e' he'

end TokenTable

open TokenTable

/- States are known to a grammar whose names are resolved. -/
theorem declares_resolve
    {g : Grammar}
    (hLaid : g.Laid)
    {o : Options}
    (hClean : (Analysis.resolve g (.new o)).2.Clean) :
    (Analysis.resolve g (.new o)).1.Declares ∧
      EofDeclared (Analysis.resolve g (.new o)).1
        (Analysis.resolve g (.new o)).2 := by
  let s : Session := .new o
  have hChecked :=
    (Analysis.alters_resolve g s).clean hClean
  have hNumbered : (Analysis.numbered g s).2.Clean := by
    rw [Analysis.resolve_eq] at hClean
    split at hClean
    · exact (alters_numberReferences _ _).1.clean hClean
    · exact (records_resolveReferences _ _).clean hClean
  have hFixed := LookaheadFix.sameTokens_run g
    (Analysis.warnLookahead s)
  have hEof := (Analysis.entersNames_called g s).field (·.eof)
    fun _ => rfl
  have hDeclared := declares_checkSections
    (g := (Analysis.fixed g s).1)
    (by
      unfold Analysis.fixed
      rw [hFixed.sections, hFixed.states]
      exact hLaid.states)
    hChecked hEof
  -- Later steps drop entries and write states out.
  have hNarrows : Narrows (Analysis.fixed g s).1
      (Analysis.resolve g s).1 := by
    apply (narrows_dropSpecs _ _).trans
    apply (narrows_assignKinds hNumbered).trans
    rw [Analysis.resolve_eq]
    split
    · rcases resolves_numberReferences (Analysis.numbered g s).1
        (Analysis.numbered g s).2 with ⟨g', marked, hPoints, hEq, -⟩
      rw [hEq]
      exact (narrows_of_sections hPoints.sections
        hPoints.states).trans (narrows_dropSpecs _ _)
    · rcases resolves_resolveReferences (Analysis.numbered g s).1
        (Analysis.numbered g s).2 with ⟨g', marked, hPoints, hEq, -⟩
      rw [hEq]
      exact (narrows_of_sections hPoints.sections
        hPoints.states).trans (narrows_dropSpecs _ _)
  refine ⟨hNarrows.declares hDeclared.1, ?_⟩
  unfold EofDeclared
  rw [hNarrows.lexicalStates,
    (Analysis.alters_resolve g s).field (·.eof) fun _ => rfl]
  exact hDeclared.2

/- A lexer is built once a grammar passes analysis. -/
theorem exists_build_of_analyze
    {b : Builder}
    (hMade : Made b)
    {o : Options}
    {g : Grammar}
    {s : Session}
    (hPasses : analyze b.grammar (.new o) = (g, s, .ok ())) :
    ∃ lx, (Lexer.build g s).2 = .ok lx := by
  rcases learns_afterTokens hPasses with
    ⟨hGrammar, hLearns, hClean⟩
  rcases declares_resolve hMade.laid (hLearns.clean hClean)
    with ⟨hDeclares, hEof⟩
  rw [hGrammar] at hDeclares hEof
  unfold EofDeclared at hEof
  rw [← hLearns.field (·.eof) fun _ => rfl] at hEof
  exact Lexer.exists_build_eq_ok hDeclares hEof

------------------------------------------------------------
-- Runs
------------------------------------------------------------

/- The sessions in which a run asks whether to go on. -/
inductive Checkpoint
    (g : Grammar)
    (o : Options) : Session → Prop where
  | analysis : Checkpoint g o (analyze g (.new o)).2.1
  | parser
      {g' : Grammar}
      {s s' : Session}
      {tokenManager : Option (Lexer × Output)}
      (hAnalyzed : analyze g (.new o) = (g', s, .ok ()))
      (hLexer :
        produceTokenManager g' s = (s', .ok tokenManager)) :
      Checkpoint g o (Parser.generate g' s' {}).2.1

/- A failure that tells how many errors have been recorded. -/
def Diagnostics.Reports
    (ds : Diagnostics)
    (f : Failure) : Prop :=
  1 ≤ ds.errorCount ∧ f = .tooManyErrors ds.errorCount

theorem Diagnostics.reports_of_checkpoint
    {ds : Diagnostics}
    {f : Failure}
    (hFails : ds.checkpoint = .error f) :
    ds.Reports f := by
  unfold checkpoint at hFails
  split at hFails
  · next hSome =>
      cases hFails
      exact ⟨hSome, rfl⟩
  · cases hFails

theorem Diagnostics.no_error_of_checkpoint
    {ds : Diagnostics}
    (hPasses : ds.checkpoint = .ok ()) :
    ∀ d ∈ ds.entries, d.severity ≠ .error := by
  unfold checkpoint at hPasses
  split at hPasses
  · cases hPasses
  · next hNone =>
      intro d hMem hError
      have hEmpty : ds.errors = [] :=
        List.length_eq_zero_iff.mp
          (Nat.eq_zero_of_not_pos hNone)
      have hErrors : d ∈ ds.errors := by
        unfold errors ofSeverity
        rw [List.mem_filter]
        exact ⟨Array.mem_toList_iff.mpr hMem, by rw [hError]; rfl⟩
      rw [hEmpty] at hErrors
      cases hErrors

theorem reports_analyze
    {g g' : Grammar}
    {s s' : Session}
    {f : Failure}
    (hFails : analyze g s = (g', s', .error f)) :
    s'.diagnostics.Reports f := by
  unfold analyze at hFails
  generalize Analysis.resolve g s = resolved at hFails
  rcases resolved with ⟨g₁, s₁⟩
  dsimp only at hFails
  cases hCheck : s₁.diagnostics.checkpoint with
  | error e =>
      rw [hCheck] at hFails
      simp only [Prod.mk.injEq, Except.error.injEq] at hFails
      rcases hFails with ⟨-, rfl, rfl⟩
      exact Diagnostics.reports_of_checkpoint hCheck
  | ok _ =>
      rw [hCheck] at hFails
      simp only [Prod.mk.injEq] at hFails
      rcases hFails with ⟨-, rfl, hFails⟩
      exact Diagnostics.reports_of_checkpoint hFails

theorem Parser.snd_generate
    (g : Grammar)
    (s : Session)
    (out : Output) :
    (Parser.generate g s out).2.2 =
      (Parser.generate g s out).2.1.diagnostics.checkpoint := by
  unfold Parser.generate
  rfl

/- Code is produced, or errors of the parser are reported. -/
theorem produce_cases
    {g : Grammar}
    {s s' : Session}
    {tokenManager : Option (Lexer × Output)}
    (hLexer :
      produceTokenManager g s = (s', .ok tokenManager)) :
    (∃ code, produce g s = .ok code ∧
        ∀ d ∈ code.diagnostics.entries, d.severity ≠ .error) ∨
      ∃ f, produce g s = .error f ∧
        (Parser.generate g s' {}).2.1.diagnostics.Reports f := by
  have hEnds := Parser.snd_generate g s' {}
  rcases hParsed : Parser.generate g s' {} with
    ⟨parser, s'', f | _⟩
  · rw [hParsed] at hEnds
    dsimp only at hEnds
    right
    refine ⟨f, ?_,
      Diagnostics.reports_of_checkpoint hEnds.symm⟩
    simp only [produce, hLexer, hParsed, bind, Except.bind]
  · rw [hParsed] at hEnds
    dsimp only at hEnds
    left
    refine ⟨⟨tokenManager, parser, s''.parser.masks,
      s''.parser.entryCount, s''.diagnostics⟩, ?_,
      Diagnostics.no_error_of_checkpoint hEnds.symm⟩
    simp only [produce, hLexer, hParsed, bind, Except.bind, pure,
      Except.pure]

theorem exists_produceTokenManager
    {g : Grammar}
    {s : Session}
    (hBuilds : ∃ lx, (Lexer.build g s).2 = .ok lx) :
    ∃ s' tokenManager,
      produceTokenManager g s = (s', .ok tokenManager) := by
  rcases hBuilds with ⟨lx, hBuilt⟩
  unfold produceTokenManager
  split
  · exact ⟨s, none, rfl⟩
  · generalize Lexer.build g s = built at hBuilt
    rcases built with ⟨s', result⟩
    dsimp only at hBuilt
    rw [hBuilt]
    exact ⟨_, _, rfl⟩

/-
  How a run ends.  A grammar is put together call by call, and
  options are of any kind.  A run that gives code has recorded
  no error.  A run that fails tells the number of errors, at
  least one, that have been recorded at the checkpoint where
  it stops.  In particular no lexical state is missing when
  the lexer of a grammar that passes analysis is built.
-/
theorem generate_reports_errors
    {b : Builder}
    (hMade : Made b)
    (o : Options) :
    (∀ code, generate b.grammar o = .ok code →
        ∀ d ∈ code.diagnostics.entries,
          d.severity ≠ .error) ∧
      (∀ f, generate b.grammar o = .error f →
        ∃ s, Checkpoint b.grammar o s ∧
          s.diagnostics.Reports f) ∧
      ∀ g s, analyze b.grammar (.new o) = (g, s, .ok ()) →
        ∃ lx, (Lexer.build g s).2 = .ok lx := by
  have hBuilds : ∀ g s,
      analyze b.grammar (.new o) = (g, s, .ok ()) →
        ∃ lx, (Lexer.build g s).2 = .ok lx :=
    fun g s hPasses => exists_build_of_analyze hMade hPasses
  have hAnalysis : Checkpoint b.grammar o
      (analyze b.grammar (.new o)).2.1 :=
    .analysis
  rw [← and_assoc]
  refine ⟨?_, hBuilds⟩
  unfold generate
  rcases hAnalyzed : analyze b.grammar (.new o) with
    ⟨g, s, f | _⟩
  · rw [hAnalyzed] at hAnalysis
    refine ⟨nofun, ?_⟩
    intro f' hFails
    cases hFails
    exact ⟨s, hAnalysis, reports_analyze hAnalyzed⟩
  · rcases exists_produceTokenManager (hBuilds g s hAnalyzed)
      with ⟨s', tokenManager, hLexer⟩
    change (∀ code, produce g s = .ok code → _) ∧
      ∀ f, produce g s = .error f → _
    rcases produce_cases hLexer with
      ⟨code, hCode, hNone⟩ | ⟨f, hFails, hReports⟩
    · rw [hCode]
      refine ⟨?_, nofun⟩
      intro code' hSame
      cases hSame
      exact hNone
    · rw [hFails]
      refine ⟨nofun, ?_⟩
      intro f' hSame
      cases hSame
      exact ⟨_, .parser hAnalyzed hLexer, hReports⟩

/- A token of one state leads to a state that is nowhere. -/
def strayState : Calls :=
  [.regex (.literal "a"),
    .tokenSection (some ["IN"]) .token false,
    .tokenSpec 0 0 none (some "OUT")]

theorem generate_reports_errors_stray :
    generate strayState.built.grammar {} =
        .error (.tooManyErrors 1) ∧
      ∃ s, Checkpoint strayState.built.grammar {} s ∧
        s.diagnostics.Reports (.tooManyErrors 1) := by
  have hMade : Made strayState.built := by
    apply Calls.made_built
    simp only [ValidCalls, strayState, Call.Valid]
    decide +kernel
  have hFails : generate strayState.built.grammar {} =
      .error (.tooManyErrors 1) := by
    cbv
  exact ⟨hFails,
    (generate_reports_errors hMade {}).2.1 _ hFails⟩

end Descent
