import Descent.Proofs.Resolution

/-
  The expressions that define kinds.

  An entry that is not dropped is entered into the table by
  kind once its kind is final.  That kind is larger than all
  keys of the table, so nothing stands there before it, and
  what comes later is either dropped or gets a larger kind.
  References only take over kinds.  So in a grammar that
  passes analysis the expression of every other entry defines
  its kind, whoever manages the tokens.

  Main declarations:
    * `TokenTable.Tabulated`
    * `TokenTable.sustained_tabulated`
    * `TokenTable.Defines`
    * `defines_analyze`
-/

------------------------------------------------------------
-- Numbering item after item
------------------------------------------------------------

namespace Descent

open Session (Alters)

namespace TokenTable

/- The table by kind, once some items have been numbered. -/
structure Tabulated
    (n : Numbering)
    (items : List Item) : Prop where
  numbered : Numbered n items
  ascending : Assoc.Ascending n.session.regexesOfTokens
  below :
    ∀ k ∈ n.session.regexesOfTokens.map (·.1),
      k < n.session.tokenCount
  defined :
    ∀ e ∈ unmarked n.marked items,
      isReference (n.grammar.regex e.2.1.regex) = false →
      n.kindOf e.2.1.regex ≠ 0 →
      Assoc.get? (n.kindOf e.2.1.regex)
          n.session.regexesOfTokens =
        some e.2.1.regex

/-
  One more item that is entered by its kind.  If it is not
  dropped its kind is new, or it has none.
-/
theorem Tabulated.snoc
    {n m : Numbering}
    {items : List Item}
    (hTabulated : Tabulated n items)
    {sec : TokenSection}
    {spec : TokenSpec}
    {pos : SpecPos}
    (hNew : spec.regex ∉ items.map (·.2.1.regex))
    (hMoves : n.Moves spec.regex m)
    (hOwns : pos ∉ m.marked → n.Owns spec.regex m)
    (hTable : m.session.regexesOfTokens =
      n.session.regexesOfTokens)
    (hNumbered : Numbered (enterKind m spec.regex)
      (items ++ [(sec, spec, pos)])) :
    Tabulated (enterKind m spec.regex)
      (items ++ [(sec, spec, pos)]) := by
  have hEntered :
      (enterKind m spec.regex).session.regexesOfTokens =
        Assoc.alterSorted (m.kindOf spec.regex)
          (fun old => old.getD spec.regex)
          n.session.regexesOfTokens := by
    rw [← hTable]
    rfl
  have hGet := Assoc.get?_alterSorted hTabulated.ascending
    (m.kindOf spec.regex)
  refine ⟨hNumbered, ?_, ?_, ?_⟩
  · rw [hEntered]
    exact hTabulated.ascending.alterSorted _ _
  · intro k hk
    rw [hEntered] at hk
    rcases (Assoc.mem_keys_alterSorted _ _ _ _).mp hk with
      rfl | hOld
    · exact hMoves.bounded hTabulated.numbered.bounded _
    · exact (hTabulated.below k hOld).trans_le hMoves.count
  · intro e he hNot hKind
    rcases mem_unmarked.mp he with ⟨hMem, hStays⟩
    change isReference (m.grammar.regex e.2.1.regex) = false
      at hNot
    change m.kindOf e.2.1.regex ≠ 0 at hKind
    change Assoc.get? (m.kindOf e.2.1.regex)
      (enterKind m spec.regex).session.regexesOfTokens = _
    rw [hEntered, hGet]
    rcases List.mem_append.mp hMem with hBefore | hLast
    · -- An item before it has kept its kind and its place.
      have hOther : e.2.1.regex ≠ spec.regex := fun hSame =>
        hNew (hSame ▸ List.mem_map_of_mem hBefore)
      have hSame := hMoves.others _ hOther
      rw [hSame] at hNot
      have hKinds : m.kindOf e.2.1.regex =
          n.kindOf e.2.1.regex :=
        congrArg RegexNode.kind hSame
      rw [hKinds] at hKind ⊢
      have hThere := hTabulated.defined e
        (mem_unmarked.mpr ⟨hBefore, fun hMarked =>
          hStays (hMoves.marked _ hMarked)⟩) hNot hKind
      split
      · next hHere =>
          rw [← hHere, hThere]
          rfl
      · exact hThere
    · rw [List.mem_singleton] at hLast
      subst hLast
      have hZero := hTabulated.numbered.fresh spec.regex hNew
      rw [if_pos rfl]
      rcases hOwns hStays with hKept | hLarge
      · exact absurd (hKept.trans hZero) hKind
      · have hNone : Assoc.get? (m.kindOf spec.regex)
            n.session.regexesOfTokens = none := by
          by_contra hSome
          rcases Option.ne_none_iff_exists'.mp hSome with
            ⟨r, hr⟩
          have hLess := hTabulated.below _
            (List.mem_map_of_mem (Assoc.mem_of_get? hr))
          exact absurd hLess (not_lt.mpr hLarge)
        rw [hNone]
        rfl

/- Numbering one more item keeps the table in order. -/
theorem sustained_tabulated
    (g : Grammar) :
    Sustained g Tabulated where
  settle i hBefore :=
    ⟨(sustained_numbered g).settle i hBefore.numbered,
      hBefore.ascending, hBefore.below, hBefore.defined⟩
  step := by
    intro n items sec states spec pos hAmong hStates hNew hClean
      hBefore
    have hNumbered := (sustained_numbered g).step hAmong hStates
      hNew hClean hBefore.numbered
    unfold numberSpec at hClean hNumbered ⊢
    dsimp only at hClean hNumbered ⊢
    cases hForm : (n.grammar.regex spec.regex).form with
    | literal image =>
        rw [hForm] at hClean hNumbered
        dsimp only at hClean hNumbered ⊢
        have hFold := @numbered_foldl sec image spec.regex pos
          states n hClean
        have hSpares := spares_foldl_numberLiteral sec image
          spec.regex pos n states
        exact hBefore.snoc hNew hFold.moves hFold.owns
          (hSpares.session.field (·.regexesOfTokens) fun _ => rfl)
          hNumbered
    | reference name target =>
        rw [hForm] at hNumbered
        refine ⟨hNumbered, hBefore.ascending, hBefore.below, ?_⟩
        intro e he hNot
        rcases mem_unmarked.mp he with ⟨hMem, hStays⟩
        rcases List.mem_append.mp hMem with hThere | hLast
        · exact hBefore.defined e
            (mem_unmarked.mpr ⟨hThere, hStays⟩) hNot
        · rw [List.mem_singleton.mp hLast] at hNot
          unfold isReference at hNot
          rw [hForm] at hNot
          cases hNot
    | _ =>
        rw [hForm] at hNumbered
        exact hBefore.snoc hNew
          (moves_takeKind n spec.regex)
          (fun _ => owns_takeKind n spec.regex) rfl hNumbered

------------------------------------------------------------
-- Definitions of kinds
------------------------------------------------------------

/-
  The entries that have kinds and are no mere references are
  what defines these kinds.
-/
def Defines
    (g : Grammar)
    (s : Session) : Prop :=
  ∀ e ∈ g.entries,
    isReference (g.regex e.2.regex) = false →
    (g.regex e.2.regex).kind ≠ 0 →
    Assoc.get? (g.regex e.2.regex).kind s.regexesOfTokens =
      some e.2.regex

theorem defines_assignKinds
    {g : Grammar}
    {s : Session}
    (hListed : (listed g).Nodup)
    (hFresh : ∀ id, (g.regex id).kind = 0)
    (hTable : s.regexesOfTokens = [])
    (hClean : (assignKinds g s).2.Clean) :
    Defines (assignKinds g s).1 (assignKinds g s).2 := by
  unfold assignKinds at hClean ⊢
  dsimp only at hClean ⊢
  generalize g.lexicalStates.foldl
    (fun t state => Assoc.alter state (·.getD []) t)
    s.simpleTokens = tables at hClean ⊢
  let n : Numbering :=
    { grammar := g,
      session := { s with tokenCount := 1, simpleTokens := tables } }
  have hStart : Tabulated n [] := by
    refine ⟨numbered_nil hFresh, ?_, ?_, ?_⟩
    · change Assoc.Ascending s.regexesOfTokens
      rw [hTable]
      exact Assoc.ascending_nil
    · intro k hk
      change k ∈ s.regexesOfTokens.map (·.1) at hk
      rw [hTable] at hk
      cases hk
    · intro e he
      cases (mem_unmarked.mp he).1
  rcases (sustained_tabulated g).foldl_numberSection hListed
    (n := n) rfl hStart g.sections.size le_rfl hClean with
    ⟨-, hSettled, hTabulated⟩
  generalize (List.range g.sections.size).foldl numberSection n
    = n' at hSettled hTabulated
  rw [itemsBefore_eq_allSpecs hSettled] at hTabulated
  intro e he
  rw [entries_dropSpecs] at he
  rcases List.mem_map.mp he with ⟨e', he', rfl⟩
  exact hTabulated.defined e' he'

/- Only references change, and some entries are dropped. -/
theorem Defines.points
    {g g' : Grammar}
    {s s' : Session}
    (hDefines : Defines g s)
    (hPoints : Points g g')
    (marked : List SpecPos)
    (hTable : s'.regexesOfTokens = s.regexesOfTokens) :
    Defines (dropSpecs g' marked) s' := by
  intro e he hNot hKind
  rw [regex_dropSpecs] at hNot hKind ⊢
  have hThere : e ∈ g.entries := by
    have hMem := (entries_dropSpecs_sublist g' marked).mem he
    unfold Grammar.entries at hMem ⊢
    rwa [hPoints.sections] at hMem
  rcases hPoints.regexes e.2.regex with hSame | ⟨-, hAfter⟩
  · rw [hSame] at hNot hKind ⊢
    rw [hTable]
    exact hDefines e hThere hNot hKind
  · rw [hAfter] at hNot
    cases hNot

end TokenTable

open TokenTable

/- Definitions of kinds once kinds are given out. -/
theorem defines_numbered
    {g : Grammar}
    (hFresh : g.Fresh)
    {o : Options}
    (hClean : (Analysis.numbered g (.new o)).2.Clean) :
    Defines (Analysis.numbered g (.new o)).1
      (Analysis.numbered g (.new o)).2 := by
  have hSame := LookaheadFix.sameTokens_run g
    (Analysis.warnLookahead (.new o))
  apply defines_assignKinds _ _ _ hClean
  · exact Analysis.nodup_listed_checked hFresh.listedOnce _
  · intro id
    change ((Analysis.fixed g (.new o)).1.regex id).kind = 0
    unfold Analysis.fixed Grammar.regex
    rw [hSame.regexes]
    exact hFresh.unnumbered id
  · exact ((collects_collectNames _ _).alters.field
      (·.regexesOfTokens) fun _ => rfl).trans
        (later_beforeTokens g (.new o)).regexesOfTokens

/- References take over kinds, and the table stays. -/
theorem defines_resolve
    {g : Grammar}
    (hFresh : g.Fresh)
    {o : Options}
    (hClean : (Analysis.resolve g (.new o)).2.Clean) :
    Defines (Analysis.resolve g (.new o)).1
      (Analysis.resolve g (.new o)).2 := by
  have hNumbered := @defines_numbered g hFresh o
  rw [Analysis.resolve_eq] at hClean ⊢
  generalize Analysis.numbered g (.new o) = numbered
    at hClean hNumbered ⊢
  rcases numbered with ⟨g₁, s₁⟩
  dsimp only at hClean hNumbered ⊢
  split at hClean
  · next hManaged =>
      rw [if_pos hManaged]
      have hAlters := (alters_numberReferences g₁ s₁).1
      rcases resolves_numberReferences g₁ s₁ with
        ⟨g₂, marked, hPoints, hEq, -⟩
      rw [hEq]
      exact (hNumbered (hAlters.clean hClean)).points hPoints
        marked (hAlters.field (·.regexesOfTokens) fun _ => rfl)
  · next hManaged =>
      rw [if_neg hManaged]
      have hRecords := records_resolveReferences g₁ s₁
      rcases resolves_resolveReferences g₁ s₁ with
        ⟨g₂, marked, hPoints, hEq, -⟩
      rw [hEq]
      exact (hNumbered (hRecords.clean hClean)).points hPoints
        marked (hRecords.field (·.regexesOfTokens) fun _ => rfl)

/- Definitions of kinds in a grammar that passes. -/
theorem defines_analyze
    {g g' : Grammar}
    (hFresh : g.Fresh)
    {o : Options}
    {s : Session}
    (hPasses : analyze g (.new o) = (g', s, .ok ())) :
    Defines g' s := by
  rcases later_afterTokens hPasses with
    ⟨hGrammar, hLater, hClean⟩
  have hDefines := defines_resolve hFresh (hLater.clean hClean)
  rw [hGrammar] at hDefines
  intro e he hNot hKind
  rw [hLater.regexesOfTokens]
  exact hDefines e he hNot hKind

end Descent
