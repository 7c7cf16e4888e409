import Descent.Proofs.Resolution
import Descent.Proofs.Statements

/-
  The names of kinds.

  A name that is collected twice is an error, so every name
  is that of one expression, and a kind takes its name from an
  expression that has it.  With a token manager that is
  written by hand, a reference to a name that is not known
  takes the name with a new kind.  So in a grammar that passes
  analysis no two kinds have one name, and the labels of a
  selection tell kinds apart unless a name is a number.

  Main declarations:
    * `TokenTable.Collected`
    * `TokenTable.NamesKinds`
    * `namesKinds_analyze`
    * `labelled_analyze`
-/

------------------------------------------------------------
-- Collecting names
------------------------------------------------------------

namespace Descent

namespace TokenTable

/- An expression that is no mere reference has a name. -/
structure HasName
    (g : Grammar)
    (id : RegexId)
    (name : String) : Prop where
  label : (g.regex id).label = name
  isSome : name.isEmpty = false
  defined : isReference (g.regex id) = false

/- The names of some expressions have been collected. -/
def Collected
    (g : Grammar)
    (s : Session)
    (ids : List RegexId) : Prop :=
  ∀ id ∈ ids, ∀ name, HasName g id name →
    Assoc.get? name s.namedTokens = some id

/- A name that is collected without error is a new one. -/
theorem collected_collectName
    {g : Grammar}
    {s : Session}
    {ids : List RegexId}
    {id : RegexId}
    (hClean : (collectName g s id).Clean)
    (hBefore : Collected g s ids) :
    Collected g (collectName g s id) (ids ++ [id]) := by
  unfold collectName at hClean ⊢
  dsimp only at hClean ⊢
  split
  · next hSkipped =>
      intro id' hMem name hNames
      rcases List.mem_append.mp hMem with hThere | hHere
      · exact hBefore id' hThere name hNames
      · rw [List.mem_singleton.mp hHere] at hNames
        rw [hNames.defined, hNames.label, hNames.isSome]
          at hSkipped
        cases hSkipped
  · next hNamed =>
      rw [if_neg hNamed] at hClean
      split at hClean
      · exact absurd hClean (Session.not_clean_error _ _ _)
      · next hState =>
          rw [if_neg hState]
          split at hClean
          · exact absurd hClean (Session.not_clean_error _ _ _)
          · next hUnknown =>
              rw [if_neg hUnknown]
              have hNone :
                  Assoc.get? (g.regex id).label s.namedTokens =
                    none := by
                unfold Assoc.contains at hUnknown
                rwa [Bool.not_eq_true,
                  Option.isSome_eq_false_iff,
                  Option.isNone_iff_eq_none] at hUnknown
              intro id' hMem name hNames
              dsimp only
              unfold Assoc.insert
              rw [Assoc.get?_alter]
              rcases List.mem_append.mp hMem with hThere | hHere
              · have hGet := hBefore id' hThere name hNames
                rw [if_neg]
                · exact hGet
                · intro hSame
                  rw [hSame, hNone] at hGet
                  cases hGet
              · rw [List.mem_singleton.mp hHere] at hNames ⊢
                rw [if_pos hNames.label.symm]

theorem collected_collectNames
    {g : Grammar}
    {s : Session}
    (hClean : (collectNames g s).Clean) :
    Collected g (collectNames g s) (listed g) := by
  have hAll : ∀ (items : List Item) (ids : List RegexId)
      (s : Session),
      (items.foldl (fun s e => collectName g s e.2.1.regex)
        s).Clean →
      Collected g s ids →
      Collected g
        (items.foldl (fun s e => collectName g s e.2.1.regex) s)
        (ids ++ items.map (·.2.1.regex)) := by
    intro items
    induction items with
    | nil =>
        intro ids s _ hBefore
        simpa using hBefore
    | cons e items ih =>
        intro ids s hClean hBefore
        have hFirst : (collectName g s e.2.1.regex).Clean :=
          (rel_foldl
            (R := fun s s' : Session => s'.Clean → s.Clean)
            (fun _ h => h)
            (fun hFirst hSecond h => hFirst (hSecond h))
            (fun s (e : Item) =>
              (collects_collectName g s
                e.2.1.regex).alters.clean)
            items _) hClean
        have hRest := ih (ids ++ [e.2.1.regex]) _ hClean
          (collected_collectName hFirst hBefore)
        rwa [List.append_assoc] at hRest
  rw [listed_eq_allSpecs]
  have hNone : Collected g s [] := by
    intro id hMem
    cases hMem
  exact hAll (allSpecs g) [] s hClean hNone

------------------------------------------------------------
-- Numbering
------------------------------------------------------------

/- The names of kinds are those of numbered items. -/
def NamedBy
    (n : Numbering)
    (items : List Item) : Prop :=
  ∀ k name, (k, name) ∈ n.session.namesOfTokens →
    ∃ e ∈ items, HasName n.grammar e.2.1.regex name ∧
      n.kindOf e.2.1.regex = k

/- One more item, which is entered by its kind. -/
theorem NamedBy.snoc
    {n m : Numbering}
    {items : List Item}
    (hNamed : NamedBy n items)
    {sec : TokenSection}
    {spec : TokenSpec}
    {pos : SpecPos}
    (hNew : spec.regex ∉ items.map (·.2.1.regex))
    (hMoves : n.Moves spec.regex m)
    (hNames : m.session.namesOfTokens = n.session.namesOfTokens)
    (hDefined :
      isReference (m.grammar.regex spec.regex) = false) :
    NamedBy (enterKind m spec.regex)
      (items ++ [(sec, spec, pos)]) := by
  have hOld : ∀ k name, (k, name) ∈ m.session.namesOfTokens →
      ∃ e ∈ items ++ [(sec, spec, pos)],
        HasName m.grammar e.2.1.regex name ∧
          m.kindOf e.2.1.regex = k := by
    intro k name hMem
    rw [hNames] at hMem
    rcases hNamed k name hMem with ⟨e, he, hHas, hKind⟩
    have hSame := hMoves.others e.2.1.regex fun hSame =>
      hNew (hSame ▸ List.mem_map_of_mem he)
    refine ⟨e, List.mem_append_left _ he, ?_, ?_⟩
    · refine ⟨?_, hHas.isSome, ?_⟩
      · rw [hSame]
        exact hHas.label
      · rw [hSame]
        exact hHas.defined
    · rw [← hKind]
      exact congrArg RegexNode.kind hSame
  intro k name hMem
  change (k, name) ∈
    (if (m.grammar.regex spec.regex).label.isEmpty then
      m.session.namesOfTokens
    else
      Assoc.insertSorted (m.kindOf spec.regex)
        (m.grammar.regex spec.regex).label
        m.session.namesOfTokens) at hMem
  split at hMem
  · exact hOld k name hMem
  · next hSome =>
      rcases Assoc.mem_insertSorted hMem with hHere | hThere
      · cases hHere
        exact ⟨_, List.mem_append_right _
          (List.mem_singleton_self _),
          ⟨rfl, by simpa using hSome, hDefined⟩, rfl⟩
      · exact hOld k name hThere

theorem sustained_namedBy
    (g : Grammar) :
    Sustained g NamedBy where
  settle i hBefore k name hMem := by
    rcases hBefore k name hMem with ⟨e, he, hNames, hKind⟩
    exact ⟨e, he,
      ⟨hNames.label, hNames.isSome, hNames.defined⟩, hKind⟩
  step := by
    intro n items sec states spec pos _ _ hNew hClean hBefore
    unfold numberSpec at hClean ⊢
    dsimp only at hClean ⊢
    cases hForm : (n.grammar.regex spec.regex).form with
    | literal image =>
        rw [hForm] at hClean
        dsimp only at hClean ⊢
        have hMoves := (@numbered_foldl sec image spec.regex pos
          states n hClean).moves
        have hSpares := spares_foldl_numberLiteral sec image
          spec.regex pos n states
        apply hBefore.snoc hNew hMoves
          (hSpares.session.field (·.namesOfTokens) fun _ => rfl)
        apply isReference_eq_false
        intro name target
        rw [hMoves.form, hForm]
        nofun
    | reference name target =>
        intro k name' hMem
        rcases hBefore k name' hMem with ⟨e, he, hRest⟩
        exact ⟨e, List.mem_append_left _ he, hRest⟩
    | _ =>
        have hMoves := moves_takeKind n spec.regex
        apply hBefore.snoc hNew hMoves rfl
        apply isReference_eq_false
        intro name target
        rw [hMoves.form, hForm]
        nofun

/-
  Every name of a kind leads to an expression of this kind,
  and to a reference only if this one has been done.
-/
def NamesKinds
    (done : List RegexId)
    (g : Grammar)
    (s : Session) : Prop :=
  ∀ k name, (k, name) ∈ s.namesOfTokens →
    ∃ id, Assoc.get? name s.namedTokens = some id ∧
      (g.regex id).kind = k ∧
      (isReference (g.regex id) = true → id ∈ done)

theorem NamesKinds.unique
    {done : List RegexId}
    {g : Grammar}
    {s : Session}
    (hNames : NamesKinds done g s)
    {k k' : Kind}
    {name : String}
    (hFirst : (k, name) ∈ s.namesOfTokens)
    (hSecond : (k', name) ∈ s.namesOfTokens) :
    k = k' := by
  rcases hNames k name hFirst with ⟨id, hGet, rfl, -⟩
  rcases hNames k' name hSecond with ⟨id', hGet', rfl, -⟩
  rw [hGet, Option.some_inj] at hGet'
  rw [hGet']

/-
  Numbering leaves names of kinds that lead to no references.
-/
theorem namesKinds_assignKinds
    {g : Grammar}
    {s : Session}
    (hListed : (listed g).Nodup)
    (hCollected : Collected g s (listed g))
    (hNone : s.namesOfTokens = [])
    (hClean : (assignKinds g s).2.Clean) :
    (listed (assignKinds g s).1).Nodup ∧
      NamesKinds [] (assignKinds g s).1 (assignKinds g s).2 := by
  have hSpares := spares_assignKinds g s
  have hNamed := hSpares.session.field (·.namedTokens)
    fun _ => rfl
  have hLabels := hSpares.labels
  dsimp only at hNamed hLabels
  unfold NamesKinds
  rw [hNamed]
  unfold assignKinds at hClean hLabels ⊢
  dsimp only at hClean hLabels ⊢
  generalize g.lexicalStates.foldl
    (fun t state => Assoc.alter state (·.getD []) t)
    s.simpleTokens = tables at hClean hLabels ⊢
  let n : Numbering :=
    { grammar := g,
      session := { s with tokenCount := 1, simpleTokens := tables } }
  have hStart : NamedBy n [] := by
    intro k name hMem
    change (k, name) ∈ s.namesOfTokens at hMem
    rw [hNone] at hMem
    cases hMem
  rcases (sustained_namedBy g).foldl_numberSection hListed
    (n := n) rfl hStart g.sections.size le_rfl hClean with
    ⟨-, hSettled, hNamedBy⟩
  refine ⟨hListed.sublist (listed_dropSpecs_sublist hSettled _),
    ?_⟩
  intro k name hMem
  rcases hNamedBy k name hMem with ⟨e, he, hNames, hKind⟩
  have hThere : e.2.1.regex ∈ listed g := by
    rw [← map_regex_allItems]
    exact List.mem_map_of_mem he
  refine ⟨e.2.1.regex, ?_, hKind, fun hReference =>
    nomatch hReference.symm.trans hNames.defined⟩
  apply hCollected _ hThere
  refine ⟨?_, hNames.isSome, ?_⟩
  · exact (hLabels e.2.1.regex).symm.trans hNames.label
  · have hForm := hSettled.forms e.2.1.regex
    have hDefined := hNames.defined
    unfold isReference at hDefined ⊢
    rwa [hForm] at hDefined

------------------------------------------------------------
-- References
------------------------------------------------------------

theorem namesKinds_numberReference
    {done : List RegexId}
    {acc : Grammar × Session × List SpecPos}
    {e : Item}
    (hNew : e.2.1.regex ∉ done)
    (hBefore : NamesKinds done acc.1 acc.2.1) :
    NamesKinds (e.2.1.regex :: done)
      (numberReference acc e).1 (numberReference acc e).2.1 := by
  rcases acc with ⟨g, s, marked⟩
  rcases e with ⟨sec, spec, pos⟩
  -- A reference that has not been done has no name so far.
  have hKept : ∀ f : RegexNode → RegexNode,
      isReference (g.regex spec.regex) = true →
      ∀ k name, (k, name) ∈ s.namesOfTokens →
      ∃ id, Assoc.get? name s.namedTokens = some id ∧
        ((g.modifyRegex spec.regex f).regex id).kind = k ∧
        (isReference ((g.modifyRegex spec.regex f).regex id) =
          true → id ∈ spec.regex :: done) := by
    intro f hReference k name hMem
    rcases hBefore k name hMem with ⟨id, hGet, hKind, hDone⟩
    have hOther : id ≠ spec.regex := by
      rintro rfl
      exact hNew (hDone hReference)
    refine ⟨id, hGet, ?_, ?_⟩
    · rw [Grammar.regex_modifyRegex,
        if_neg fun hHere => hOther hHere.1]
      exact hKind
    · rw [Grammar.regex_modifyRegex,
        if_neg fun hHere => hOther hHere.1]
      exact fun h => List.mem_cons_of_mem _ (hDone h)
  unfold numberReference
  dsimp only
  split
  · next name target hForm =>
      have hReference : isReference (g.regex spec.regex) =
          true := by
        unfold isReference
        rw [hForm]
      split
      · next hUnknown =>
          intro k name' hMem
          dsimp only at hMem ⊢
          unfold Assoc.insert
          rcases Assoc.mem_insertSorted hMem with hHere | hThere
          · cases hHere
            have hInside : spec.regex < g.regexes.size := by
              by_contra hOutside
              unfold Grammar.regex at hForm
              rw [Array.getD_eq_getD_getElem?,
                Array.getElem?_eq_none
                  (Nat.le_of_not_lt hOutside)] at hForm
              cases hForm
            refine ⟨spec.regex, ?_, ?_,
              fun _ => List.mem_cons_self⟩
            · rw [Assoc.get?_alter, if_pos rfl]
            · rw [Grammar.regex_modifyRegex,
                if_pos ⟨rfl, hInside⟩]
          · rcases hKept _ hReference k name' hThere with
              ⟨id, hGet, hRest⟩
            refine ⟨id, ?_, hRest⟩
            rw [Assoc.get?_alter, if_neg]
            · exact hGet
            · intro hSame
              rw [hSame, hUnknown] at hGet
              cases hGet
      · exact hKept _ hReference
  · intro k name hMem
    rcases hBefore k name hMem with ⟨id, hGet, hKind, hDone⟩
    exact ⟨id, hGet, hKind,
      fun h => List.mem_cons_of_mem _ (hDone h)⟩

theorem namesKinds_numberReferences
    {g : Grammar}
    {s : Session}
    (hListed : (listed g).Nodup)
    (hNamed : NamesKinds [] g s) :
    ∃ done, NamesKinds done (numberReferences g s).1
      (numberReferences g s).2 := by
  have hAll : ∀ (items : List Item) (done : List RegexId)
      (acc : Grammar × Session × List SpecPos),
      (items.map (·.2.1.regex)).Nodup →
      (∀ e ∈ items, e.2.1.regex ∉ done) →
      NamesKinds done acc.1 acc.2.1 →
      ∃ done', NamesKinds done'
        (items.foldl numberReference acc).1
        (items.foldl numberReference acc).2.1 := by
    intro items
    induction items with
    | nil => exact fun done acc _ _ hBefore => ⟨done, hBefore⟩
    | cons e items ih =>
        intro done acc hNodup hNew hBefore
        rw [List.map_cons, List.nodup_cons] at hNodup
        apply ih (e.2.1.regex :: done) _ hNodup.2
        · intro e' hMem hDone
          rcases List.mem_cons.mp hDone with hSame | hDone
          · exact hNodup.1 (hSame ▸ List.mem_map_of_mem hMem)
          · exact hNew e' (List.mem_cons_of_mem _ hMem) hDone
        · exact namesKinds_numberReference
            (hNew e List.mem_cons_self) hBefore
  rw [listed_eq_allSpecs] at hListed
  rcases hAll (allSpecs g) [] (g, s, []) hListed
    (fun _ _ h => nomatch h) hNamed with ⟨done, hDone⟩
  unfold numberReferences
  generalize (allSpecs g).foldl numberReference (g, s, [])
    = acc at hDone
  rcases acc with ⟨g', s', marked⟩
  have hWarned := records_foldl_warnUnnamed
    (dropSpecs g' marked) s'
  refine ⟨done, fun k name hMem => ?_⟩
  dsimp only at hMem ⊢
  rw [hWarned.field (·.namesOfTokens) fun _ => rfl] at hMem
  rw [hWarned.field (·.namedTokens) fun _ => rfl]
  exact hDone k name hMem

theorem namesKinds_resolveReferences
    {g : Grammar}
    {s : Session}
    (hNamed : NamesKinds [] g s) :
    NamesKinds [] (resolveReferences g s).1
      (resolveReferences g s).2 := by
  have hRecords := records_resolveReferences g s
  rcases resolves_resolveReferences g s with
    ⟨g', marked, hPoints, hEq, -⟩
  intro k name hMem
  rw [hRecords.field (·.namesOfTokens) fun _ => rfl] at hMem
  rw [hRecords.field (·.namedTokens) fun _ => rfl, hEq]
  rcases hNamed k name hMem with ⟨id, hGet, hKind, hDone⟩
  refine ⟨id, hGet, ?_⟩
  rw [regex_dropSpecs]
  rcases hPoints.regexes id with hSame | ⟨hBefore, -⟩
  · rw [hSame]
    exact ⟨hKind, hDone⟩
  · cases hDone hBefore

end TokenTable

------------------------------------------------------------
-- Analysis
------------------------------------------------------------

open TokenTable

/- The names of kinds once kinds are given out. -/
theorem namesKinds_numbered
    {g : Grammar}
    (hListed : (listed g).Nodup)
    {o : Options}
    (hClean : (Analysis.numbered g (.new o)).2.Clean) :
    (listed (Analysis.numbered g (.new o)).1).Nodup ∧
      NamesKinds [] (Analysis.numbered g (.new o)).1
        (Analysis.numbered g (.new o)).2 := by
  apply namesKinds_assignKinds
    (Analysis.nodup_listed_checked hListed _) _ _ hClean
  · exact collected_collectNames
      ((spares_assignKinds _ _).session.clean hClean)
  · rw [(collects_collectNames _ _).alters.field
      (·.namesOfTokens) fun _ => rfl]
    refine ((meetsEnd_checkSections _ _).field
      (·.namesOfTokens) fun _ => rfl).trans ?_
    exact (Analysis.entersNames_called g (.new o)).field
      (·.namesOfTokens) fun _ => rfl

/- The names of kinds once names are resolved. -/
theorem namesKinds_resolve
    {g : Grammar}
    (hListed : (listed g).Nodup)
    {o : Options}
    (hClean : (Analysis.resolve g (.new o)).2.Clean) :
    ∃ done, NamesKinds done (Analysis.resolve g (.new o)).1
      (Analysis.resolve g (.new o)).2 := by
  have hNumbered := @namesKinds_numbered g hListed o
  rw [Analysis.resolve_eq] at hClean ⊢
  generalize Analysis.numbered g (.new o) = numbered
    at hClean hNumbered ⊢
  rcases numbered with ⟨g₁, s₁⟩
  dsimp only at hClean hNumbered ⊢
  split at hClean
  · next hManaged =>
      rw [if_pos hManaged]
      rcases hNumbered ((alters_numberReferences g₁ s₁).1.clean
        hClean) with ⟨hOnce, hNames⟩
      exact namesKinds_numberReferences hOnce hNames
  · next hManaged =>
      rw [if_neg hManaged]
      have hRecords := records_resolveReferences g₁ s₁
      exact ⟨[], namesKinds_resolveReferences
        (hNumbered (hRecords.clean hClean)).2⟩

/- The names of kinds in a grammar that passes analysis. -/
theorem namesKinds_analyze
    {g g' : Grammar}
    (hListed : (listed g).Nodup)
    {o : Options}
    {s : Session}
    (hPasses : analyze g (.new o) = (g', s, .ok ())) :
    ∃ done, NamesKinds done g' s := by
  rcases learns_afterTokens hPasses with
    ⟨hGrammar, hLearns, hClean⟩
  rcases namesKinds_resolve hListed (hLearns.clean hClean) with
    ⟨done, hNames⟩
  rw [hGrammar] at hNames
  refine ⟨done, fun k name hMem => ?_⟩
  rw [hLearns.field (·.namesOfTokens) fun _ => rfl] at hMem
  rw [hLearns.field (·.namedTokens) fun _ => rfl]
  exact hNames k name hMem

/-
  Labels tell the kinds of a grammar that passes analysis
  apart if no name is a number.
-/
theorem labelled_analyze
    {g g' : Grammar}
    (hListed : (listed g).Nodup)
    {o : Options}
    {s : Session}
    (hPasses : analyze g (.new o) = (g', s, .ok ()))
    (hPlain : ∀ k name, (k, name) ∈ s.namesOfTokens →
      Text.OneLineEnd name ∧ Text.number? name.toList = none) :
    Decision.Labelled s := by
  rcases namesKinds_analyze hListed hPasses with
    ⟨done, hNames⟩
  apply Decision.labelled_of_names
  · intro name k k' hFirst hSecond
    exact hNames.unique (Assoc.mem_of_get? hFirst)
      (Assoc.mem_of_get? hSecond)
  · intro k name hName
    exact hPlain k name (Assoc.mem_of_get? hName)

end Descent
