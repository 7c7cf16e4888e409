import Mathlib
import Descent.Proofs.Counting
import Descent.Proofs.Stages

/-
  The kinds of a grammar that passes analysis.

  Entries for the end of the file are dropped before kinds are
  given out, and references after it, when they have taken
  over the kinds of what they stand for.  So the entries that
  are left are numbered from one without gaps, the end of the
  file alone has kind zero, and a literal in a production is
  known by its text.

  Main declarations:
    * `TokenTable.listed_resolveReferences`
    * `TokenTable.standsFor_foldl_resolveSpec`
    * `analyze_numbers_tokens`
-/

------------------------------------------------------------
-- All entries numbered
------------------------------------------------------------

namespace Descent

namespace TokenTable

/- No literal is known before numbering. -/
theorem entry?_start
    (states : List String)
    {s : Session}
    (hStart : ∀ state,
      (Assoc.get? state s.simpleTokens).getD [] = [])
    (state image : String) :
    entry? { s with
      simpleTokens := states.foldl
        (fun t state => Assoc.alter state (·.getD []) t)
        s.simpleTokens } state image = none := by
  have hAll : ∀ t : Assoc String (Assoc String Variants),
      (∀ state, (Assoc.get? state t).getD [] = []) →
      (Assoc.get? state (states.foldl
        (fun t state => Assoc.alter state (·.getD []) t)
        t)).getD [] = [] := by
    induction states with
    | nil =>
        intro t hEmpty
        exact hEmpty state
    | cons name states ih =>
        intro t hEmpty
        rw [List.foldl_cons]
        apply ih
        intro state'
        rw [Assoc.get?_alter]
        split
        · exact hEmpty name
        · exact hEmpty state'
  unfold entry?
  dsimp only
  rw [hAll _ hStart]
  rfl

theorem counted_assignKinds
    {g : Grammar}
    {s : Session}
    (hListable : Listable g)
    (hListed : (listed g).Nodup)
    (hFresh : ∀ id, (g.regex id).kind = 0)
    (hTokens : s.simpleTokens = [])
    (hTable : s.regexesOfTokens = [])
    (hClean : (assignKinds g s).2.Clean) :
    ∃ n : Numbering,
      assignKinds g s =
        (dropSpecs n.grammar n.marked, n.session) ∧
      SettledBefore g g.sections.size n.grammar ∧
      Counted g n (itemsBefore g g.sections.size) := by
  unfold assignKinds at hClean ⊢
  dsimp only at hClean ⊢
  let n : Numbering :=
    { grammar := g,
      session :=
        { s with
          tokenCount := 1,
          simpleTokens := g.lexicalStates.foldl
            (fun t state => Assoc.alter state (·.getD []) t)
            s.simpleTokens } }
  have hEntry : ∀ state image,
      entry? n.session state image = none := by
    intro state image
    apply entry?_start g.lexicalStates
      (s := { s with tokenCount := 1 })
    intro state'
    change (Assoc.get? state' s.simpleTokens).getD [] = []
    rw [hTokens]
    rfl
  have hStart : Counted g n [] := by
    refine ⟨⟨?_, rfl, fun _ => rfl, fun _ => rfl,
      fun r _ => hFresh r⟩, ?_, Nat.one_pos, rfl, hTable,
      ?_, ?_, ?_, ?_⟩
    · intro e he
      cases he
    · intro pos hPos
      cases hPos
    · intro e he
      cases he
    · intro state image r hSome
      rw [hEntry] at hSome
      cases hSome
    · intro e he
      cases he
    · intro e he
      cases he
  have hAll := (sustained_counted
    hListable).foldl_numberSection hListed (n := n) rfl hStart
      g.sections.size le_rfl hClean
  exact ⟨_, rfl, hAll.2.1, hAll.2.2⟩

------------------------------------------------------------
-- References
------------------------------------------------------------

theorem Points.isReference_eq
    {g g' : Grammar}
    (hPoints : Points g g')
    (r : RegexId) :
    isReference (g'.regex r) = isReference (g.regex r) := by
  rcases hPoints.regexes r with hSame | ⟨hBefore, hAfter⟩
  · rw [hSame]
  · rw [hBefore, hAfter]

theorem points_foldl_resolveSpec
    (items : List Item)
    (acc : Grammar × Session × List SpecPos) :
    Points acc.1 (items.foldl resolveSpec acc).1 :=
  (rel_foldl
    (R := fun acc acc' : Grammar × Session × List SpecPos =>
      Resolves (acc.1, acc.2.1) (acc'.1, acc'.2.1))
    (fun _ => Resolves.refl _) Resolves.trans
    resolves_resolveSpec items acc).2

/- The places of references are marked. -/
theorem mem_marked_foldl_resolveSpec
    (items : List Item)
    (acc : Grammar × Session × List SpecPos)
    (pos : SpecPos) :
    pos ∈ (items.foldl resolveSpec acc).2.2 ↔
      pos ∈ acc.2.2 ∨
        ∃ e ∈ items, e.2.2 = pos ∧
          isReference (acc.1.regex e.2.1.regex) = true := by
  induction items generalizing acc with
  | nil => simp
  | cons e items ih =>
      rcases acc with ⟨g, s, marked⟩
      have hPoints : Points g (resolveSpec (g, s, marked) e).1 :=
        (resolves_resolveSpec (g, s, marked) e).2
      have hMarked : (resolveSpec (g, s, marked) e).2.2 =
          if isReference ((resolveSpec (g, s, marked) e).1.regex
            e.2.1.regex) = true then e.2.2 :: marked
          else marked := rfl
      rw [List.foldl_cons, ih, hMarked,
        hPoints.isReference_eq]
      simp only [hPoints.isReference_eq,
        List.exists_mem_cons_iff]
      by_cases hIs : isReference (g.regex e.2.1.regex) = true
      · simp only [hIs, if_true, List.mem_cons, and_true,
          @eq_comm _ pos]
        tauto
      · simp only [hIs, if_false, and_false, false_or,
          Bool.false_eq_true]

/- The entries that are left are those that are no reference. -/
theorem listed_resolveReferences
    (g : Grammar)
    (s : Session) :
    listed (resolveReferences g s).1 =
      (listed g).filter fun r => !isReference (g.regex r) := by
  let acc := (allSpecs g).foldl resolveSpec (g, s, [])
  have hPoints : Points g acc.1 :=
    points_foldl_resolveSpec (allSpecs g) (g, s, [])
  have hSame : allSpecs acc.1 = allSpecs g := by
    rw [allSpecs_eq, allSpecs_eq, hPoints.sections]
  have hKept : unmarked acc.2.2 (allSpecs g) =
      (allSpecs g).filter fun e =>
        !isReference (g.regex e.2.1.regex) := by
    apply List.filter_congr
    intro e he
    have hMarked : e.2.2 ∈ acc.2.2 ↔
        isReference (g.regex e.2.1.regex) = true := by
      unfold acc
      rw [mem_marked_foldl_resolveSpec]
      constructor
      · intro h
        rcases h with h | ⟨e', he', hPlace, hIs⟩
        · cases h
        · rwa [eq_of_place_eq he' he hPlace] at hIs
      · intro hIs
        exact .inr ⟨e, he, rfl, hIs⟩
    rw [Bool.eq_iff_iff]
    simp [hMarked]
  change listed (dropSpecs acc.1 acc.2.2) = _
  rw [listed_eq, entries_dropSpecs, hSame, hKept, listed_eq,
    entries_eq, List.map_map, List.map_map, List.filter_map]
  rfl

/- An expression has the kind of one that is named. -/
def StandsFor
    (names : Assoc String RegexId)
    (g : Grammar)
    (r : RegexId) : Prop :=
  ∃ name target, Assoc.get? name names = some target ∧
    (g.regex r).kind = (g.regex target).kind

/- The names are those of a session, and of no reference. -/
structure Names
    (names : Assoc String RegexId)
    (gs : Grammar × Session) : Prop where
  same : gs.2.namedTokens = names
  targets :
    ∀ name target, Assoc.get? name names = some target →
      isReference (gs.1.regex target) = false

/- Resolving leaves names, and in the end references have kinds. -/
structure Settles
    (names : Assoc String RegexId)
    (gs gs' : Grammar × Session)
    (ids : List RegexId) : Prop where
  named : Names names gs'
  before :
    ∀ r, StandsFor names gs.1 r → StandsFor names gs'.1 r
  resolved :
    ∀ id ∈ ids, isReference (gs.1.regex id) = true →
      StandsFor names gs'.1 id

theorem lt_size_of_isReference
    {g : Grammar}
    {id : RegexId}
    (hIs : isReference (g.regex id) = true) :
    id < g.regexes.size := by
  by_contra hNot
  unfold isReference Grammar.regex at hIs
  rw [Array.getD_eq_getD_getElem?,
    Array.getElem?_eq_none (Nat.le_of_not_lt hNot)] at hIs
  cases hIs

theorem settles_pointTo
    {names : Assoc String RegexId}
    {g : Grammar}
    {s : Session}
    (hNames : Names names (g, s))
    {id : RegexId}
    (hIs : isReference (g.regex id) = true)
    {name : String}
    {target : RegexId}
    (hTarget : Assoc.get? name names = some target) :
    Settles names (g, s) (pointTo g id name target, s) [id] := by
  have hInside := lt_size_of_isReference hIs
  have hRegex : ∀ r, (pointTo g id name target).regex r =
      if r = id ∧ id < g.regexes.size then
        { g.regex id with
          kind := (g.regex target).kind,
          form := .reference name (some target) }
      else g.regex r :=
    fun r => g.regex_modifyRegex id _ r
  -- What is named is no reference, so it stays as it is.
  have hNamed : ∀ {name' target'},
      Assoc.get? name' names = some target' →
      (pointTo g id name target).regex target' =
        g.regex target' := by
    intro name' target' hGet
    rw [hRegex, if_neg]
    intro hSame
    have hNot := hNames.targets name' target' hGet
    rw [hSame.1] at hNot
    rw [hIs] at hNot
    cases hNot
  have hHere : StandsFor names (pointTo g id name target)
      id := by
    refine ⟨name, target, hTarget, ?_⟩
    rw [hNamed hTarget, hRegex, if_pos ⟨rfl, hInside⟩]
  refine ⟨⟨hNames.same, ?_⟩, ?_, ?_⟩
  · intro name' target' hGet
    dsimp only
    rw [hNamed hGet]
    exact hNames.targets name' target' hGet
  · intro r hStands
    by_cases hSame : r = id
    · rw [hSame]
      exact hHere
    · rcases hStands with ⟨name', target', hGet, hKind⟩
      refine ⟨name', target', hGet, ?_⟩
      rw [hNamed hGet, hRegex, if_neg fun h => hSame h.1]
      exact hKind
  · intro r hr _
    rw [List.mem_singleton.mp hr]
    exact hHere

theorem settles_resolveReference
    {names : Assoc String RegexId}
    {gs : Grammar × Session}
    (hNames : Names names gs)
    {explicit : Bool}
    {root id : RegexId}
    (hClean : (resolveReference explicit root gs
      id).2.Clean) :
    Settles names gs (resolveReference explicit root gs id)
      [id] := by
  rcases gs with ⟨g, s⟩
  rcases resolveReference_cases explicit root g s id with
    ⟨name, old, target, hForm, hGet, hSame⟩ |
    ⟨place, message, hSame⟩ | ⟨hNot, hSame⟩
  · rw [hSame]
    have hIs : isReference (g.regex id) = true := by
      unfold isReference
      rw [hForm]
    have hNamed : s.namedTokens = names := hNames.same
    rw [hNamed] at hGet
    exact settles_pointTo hNames hIs hGet
  · rw [hSame] at hClean
    exact absurd hClean (Session.not_clean_error _ _ _)
  · rw [hSame]
    refine ⟨hNames, fun _ h => h, ?_⟩
    intro r hr hIs
    rw [List.mem_singleton.mp hr] at hIs
    exact absurd hIs (by simp [hNot])

theorem settles_foldl_resolveReference
    {names : Assoc String RegexId}
    {explicit : Bool}
    {root : RegexId}
    (ids : List RegexId)
    {gs : Grammar × Session}
    (hNames : Names names gs)
    (hClean : (ids.foldl (resolveReference explicit root)
      gs).2.Clean) :
    Settles names gs
      (ids.foldl (resolveReference explicit root) gs) ids := by
  induction ids generalizing gs with
  | nil =>
      refine ⟨hNames, fun _ h => h, ?_⟩
      intro id hMem
      cases hMem
  | cons id ids ih =>
      rw [List.foldl_cons] at hClean ⊢
      have hHere := (rel_foldl Resolves.refl Resolves.trans
        (resolves_resolveReference explicit root) ids _).1
          hClean
      have hFirst := settles_resolveReference hNames hHere
      have hRest := ih hFirst.named hClean
      have hPoints :=
        (resolves_resolveReference explicit root gs id).2
      refine ⟨hRest.named,
        fun r h => hRest.before r (hFirst.before r h), ?_⟩
      intro r hr hIs
      rcases List.mem_cons.mp hr with rfl | hr
      · exact hRest.before _
          (hFirst.resolved _ List.mem_cons_self hIs)
      · apply hRest.resolved r hr
        rw [hPoints.isReference_eq]
        exact hIs

/- Entries that are references end up with named kinds. -/
theorem settles_foldl_resolveSpec
    {names : Assoc String RegexId}
    (items : List Item)
    {a : Grammar × Session × List SpecPos}
    (hNames : Names names (a.1, a.2.1))
    (hClean : (items.foldl resolveSpec a).2.1.Clean) :
    Settles names (a.1, a.2.1)
      ((items.foldl resolveSpec a).1,
        (items.foldl resolveSpec a).2.1)
      (items.map (·.2.1.regex)) := by
  induction items generalizing a with
  | nil =>
      refine ⟨hNames, fun _ h => h, ?_⟩
      intro id hMem
      cases hMem
  | cons e items ih =>
      rw [List.foldl_cons] at hClean ⊢
      have hHere := (rel_foldl
        (R := fun acc acc' : Grammar × Session × List SpecPos =>
          Resolves (acc.1, acc.2.1) (acc'.1, acc'.2.1))
        (fun _ => Resolves.refl _) Resolves.trans
        resolves_resolveSpec items _).1 hClean
      have hFirst := settles_foldl_resolveReference
        (a.1.regexPreOrder e.2.1.regex) hNames hHere
      have hRest := ih hFirst.named hClean
      have hPoints := (resolves_resolveSpec a e).2
      refine ⟨hRest.named,
        fun r h => hRest.before r (hFirst.before r h), ?_⟩
      intro r hr hIs
      rw [List.map_cons] at hr
      rcases List.mem_cons.mp hr with rfl | hr
      · exact hRest.before _
          (hFirst.resolved _ List.mem_cons_self hIs)
      · apply hRest.resolved r hr
        rw [hPoints.isReference_eq]
        exact hIs

------------------------------------------------------------
-- Entries before numbering
------------------------------------------------------------

/- An item of a grammar from which entries were dropped. -/
theorem exists_of_mem_dropSpecs
    {g : Grammar}
    {marked : List SpecPos}
    {e : Item}
    (he : e ∈ allSpecs (dropSpecs g marked)) :
    ∃ e' ∈ unmarked marked (allSpecs g), e'.2.1 = e.2.1 ∧
      ({ e'.1 with specs := [] } : TokenSection) =
        { e.1 with specs := [] } := by
  have hMem := List.mem_map_of_mem
    (f := fun e : Item =>
      (({ e.1 with specs := [] } : TokenSection), e.2.1)) he
  rw [← entries_eq, entries_dropSpecs] at hMem
  rcases List.mem_map.mp hMem with ⟨e', he', hSame⟩
  exact ⟨e', he', (Prod.mk.inj hSame).2, (Prod.mk.inj hSame).1⟩

/- An unmarked item is still there. -/
theorem exists_mem_dropSpecs
    {g : Grammar}
    {marked : List SpecPos}
    {e : Item}
    (he : e ∈ unmarked marked (allSpecs g)) :
    ∃ e' ∈ allSpecs (dropSpecs g marked), e'.2.1 = e.2.1 ∧
      ({ e'.1 with specs := [] } : TokenSection) =
        { e.1 with specs := [] } := by
  have hMem := List.mem_map_of_mem
    (f := fun e : Item =>
      (({ e.1 with specs := [] } : TokenSection), e.2.1)) he
  rw [← entries_dropSpecs, entries_eq] at hMem
  rcases List.mem_map.mp hMem with ⟨e', he', hSame⟩
  exact ⟨e', he', (Prod.mk.inj hSame).2, (Prod.mk.inj hSame).1⟩

theorem ignoresCase_dropSpecs
    (g : Grammar)
    (marked : List SpecPos)
    (r : RegexId) :
    ignoresCase (dropSpecs g marked) r = ignoresCase g r := by
  apply ignoresCase_congr
  · rw [regex_dropSpecs]
  · intro i
    unfold Grammar.tokenSection dropSpecs
    dsimp only
    rw [Array.getD_eq_getD_getElem?, Array.getD_eq_getD_getElem?,
      Array.getElem?_mapIdx]
    cases g.sections[i]? with
    | none => rfl
    | some sec => rfl

theorem Listable.dropSpecs
    {g : Grammar}
    (hListable : Listable g)
    (marked : List SpecPos) :
    Listable (dropSpecs g marked) := by
  have hFrom : ∀ e ∈ allSpecs (TokenTable.dropSpecs g marked),
      ∃ e' ∈ allSpecs g, e'.2.1 = e.2.1 ∧
        ({ e'.1 with specs := [] } : TokenSection) =
          { e.1 with specs := [] } := by
    intro e he
    rcases exists_of_mem_dropSpecs he with ⟨e', he', hSame⟩
    exact ⟨e', (mem_unmarked.mp he').1, hSame⟩
  constructor
  · intro e he
    rcases hFrom e he with ⟨e', he', hSpec, -⟩
    rw [← hSpec]
    exact hListable.inside e' he'
  · intro e he
    rcases hFrom e he with ⟨e', he', hSpec, hSec⟩
    have hCase := congrArg TokenSection.ignoreCase hSec
    dsimp only at hCase
    rw [ignoresCase_dropSpecs, ← hSpec, ← hCase]
    exact hListable.cases e' he'
  · intro e he
    rcases hFrom e he with ⟨e', he', -, hSec⟩
    have hStates := congrArg TokenSection.states hSec
    dsimp only at hStates
    have hFilled := hListable.states e' he'
    unfold Grammar.statesIn at hFilled ⊢
    rw [← hStates]
    exact hFilled
  · intro e he hImplied
    rcases hFrom e he with ⟨e', he', -, hSec⟩
    have hStates := congrArg TokenSection.states hSec
    have hCase := congrArg TokenSection.ignoreCase hSec
    have hExplicit := congrArg TokenSection.explicit hSec
    dsimp only at hStates hCase hExplicit
    rw [← hStates, ← hCase]
    exact hListable.implied e' he' (hExplicit.trans hImplied)

theorem listed_eq_allSpecs
    (g : Grammar) :
    listed g = (allSpecs g).map (·.2.1.regex) := by
  rw [listed_eq, entries_eq, List.map_map]
  rfl

theorem tokenSection_of_mem
    {g : Grammar}
    {sec : TokenSection}
    {spec : TokenSpec}
    {i j : Nat}
    (hMem : (sec, spec, (i, j)) ∈ allSpecs g) :
    i < g.sections.size ∧ g.tokenSection i = sec ∧
      spec ∈ sec.specs := by
  rw [mem_allSpecs] at hMem
  refine ⟨(Array.getElem?_eq_some_iff.mp hMem.1).1, ?_,
    List.mem_of_getElem? hMem.2⟩
  unfold Grammar.tokenSection
  rw [Array.getD_eq_getD_getElem?, hMem.1]
  rfl

theorem mem_allSpecs_of_mem
    {g : Grammar}
    {i : SectionId}
    (hInside : i < g.sections.size)
    {spec : TokenSpec}
    (hSpec : spec ∈ (g.tokenSection i).specs) :
    ∃ j, (g.tokenSection i, spec, (i, j)) ∈ allSpecs g := by
  rcases List.mem_iff_getElem?.mp hSpec with ⟨j, hAt⟩
  refine ⟨j, mem_allSpecs.mpr ⟨?_, hAt⟩⟩
  unfold Grammar.tokenSection
  rw [Array.getD_eq_getD_getElem?,
    Array.getElem?_eq_getElem hInside]
  rfl

/- What is put together call by call can be numbered. -/
theorem listable_of_wellFormed
    {g : Grammar}
    (hTokens : g.TokensFormed)
    (hStates : ∀ sec ∈ g.sections, sec.states ≠ some [])
    (hListed : (listed g).Nodup) :
    Listable g := by
  rw [listed_eq_allSpecs] at hListed
  constructor
  · intro e he
    rcases e with ⟨sec, spec, i, j⟩
    rcases tokenSection_of_mem he with ⟨hInside, rfl, hSpec⟩
    exact (hTokens.listed i hInside spec hSpec).1
  · intro e he
    rcases e with ⟨sec, spec, i, j⟩
    rcases tokenSection_of_mem he with ⟨hInside, rfl, hSpec⟩
    rcases hTokens.listed i hInside spec hSpec with
      ⟨-, home, hHome, hIs, spec', hSpec', hSame⟩
    -- It is listed once, so its home is this section.
    rcases mem_allSpecs_of_mem hHome hSpec' with ⟨j', he'⟩
    have hOne := List.inj_on_of_nodup_map hListed he' he hSame
    have hSec : g.tokenSection home = g.tokenSection i :=
      congrArg Prod.fst hOne
    unfold ignoresCase sectionOf?
    rw [hIs, Option.map_some, Option.map_some, Option.getD_some,
      hSec]
  · intro e he
    rcases e with ⟨sec, spec, i, j⟩
    have hMem := Array.mem_of_getElem? (mem_allSpecs.mp he).1
    have hFilled := hStates sec hMem
    unfold Grammar.statesIn
    dsimp only
    cases hOwn : sec.states with
    | none =>
        intro hEmpty
        have hDefault := hTokens.default
        rw [Option.getD_none] at hEmpty
        rw [hEmpty] at hDefault
        cases hDefault
    | some states =>
        intro hEmpty
        rw [Option.getD_some] at hEmpty
        rw [hOwn, hEmpty] at hFilled
        exact hFilled rfl
  · intro e he hImplied
    rcases e with ⟨sec, spec, i, j⟩
    rcases tokenSection_of_mem he with ⟨hInside, rfl, -⟩
    have hIs := hTokens.implied i hInside hImplied
    exact ⟨hIs.1, hIs.2.2⟩

------------------------------------------------------------
-- Dropped and named entries
------------------------------------------------------------

/-
  Entries for the end of the file are dropped at first, and
  those that only refer to a token.
-/
def isDropped
    (g : Grammar)
    (e : Item) : Bool :=
  match (g.regex e.2.1.regex).form with
  | .endOfFile => true
  | .reference _ _ => e.1.explicit
  | _ => false

theorem marked_checkSpec
    (g : Grammar)
    {acc : Session × List SpecPos}
    (hManaged : acc.1.options.userTokenManager = false)
    (e : Item) :
    (checkSpec g acc e).2 =
      if isDropped g e = true then e.2.2 :: acc.2
      else acc.2 := by
  rcases acc with ⟨s, marked⟩
  rcases e with ⟨sec, spec, pos⟩
  have hOptions := (records_checkNextState g s
    spec).later_of_records.options
  unfold checkSpec isDropped
  dsimp only
  have hManaged' : (checkNextState g s
      spec).options.userTokenManager = false := by
    rw [hOptions]
    exact hManaged
  simp only [hManaged', Bool.and_false, Bool.false_eq_true,
    if_false]
  cases hForm : (g.regex spec.regex).form with
  | endOfFile => rfl
  | reference name target =>
      cases sec.explicit with
      | true => rfl
      | false =>
          simp only [Bool.false_eq_true, if_false]
          split
          · rfl
          · rfl
  | _ =>
      cases sec.explicit with
      | true => rfl
      | false =>
          simp only [Bool.false_eq_true, if_false]
          split
          · rfl
          · rfl

theorem mem_marked_checkSections
    (g : Grammar)
    (items : List Item)
    {acc : Session × List SpecPos}
    (hManaged : acc.1.options.userTokenManager = false)
    (pos : SpecPos) :
    pos ∈ (items.foldl (checkSpec g) acc).2 ↔
      pos ∈ acc.2 ∨
        ∃ e ∈ items, e.2.2 = pos ∧ isDropped g e = true := by
  induction items generalizing acc with
  | nil => simp
  | cons e items ih =>
      have hLater :=
        ((meetsEnd_checkSpec g acc e).coarsen fun _ => rfl).later
      have hManaged' : (checkSpec g acc
          e).1.options.userTokenManager = false := by
        rw [hLater.options]
        exact hManaged
      rw [List.foldl_cons, ih hManaged',
        marked_checkSpec g hManaged]
      simp only [List.exists_mem_cons_iff]
      by_cases hIs : isDropped g e = true
      · simp only [hIs, if_true, List.mem_cons, and_true,
          @eq_comm _ pos]
        tauto
      · simp only [hIs, if_false, and_false, false_or,
          Bool.false_eq_true]

theorem unmarked_checkSections
    (g : Grammar)
    {s : Session}
    (hManaged : s.options.userTokenManager = false) :
    ∃ marked, (checkSections g s).1 = dropSpecs g marked ∧
      ∀ e ∈ allSpecs g, e.2.2 ∈ marked ↔
        isDropped g e = true := by
  refine ⟨_, rfl, ?_⟩
  intro e he
  rw [mem_marked_checkSections g _ hManaged]
  constructor
  · intro h
    rcases h with h | ⟨e', he', hPlace, hIs⟩
    · cases h
    · rwa [eq_of_place_eq he' he hPlace] at hIs
  · intro hIs
    exact .inr ⟨e, he, rfl, hIs⟩

/- Names are collected, and nothing else changes. -/
structure Collects
    (g : Grammar)
    (s s' : Session)
    (ids : List RegexId) : Prop where
  alters :
    Session.Alters
      (fun s => { s with diagnostics := {}, namedTokens := [] })
      s s'
  named :
    ∀ name target,
      Assoc.get? name s'.namedTokens = some target →
      Assoc.get? name s.namedTokens = some target ∨
        target ∈ ids ∧ isReference (g.regex target) = false

theorem collects_of_records
    (g : Grammar)
    {s s' : Session}
    (hRecords : s.Records s')
    (ids : List RegexId) :
    Collects g s s' ids := by
  refine ⟨hRecords.coarsen fun _ => rfl, ?_⟩
  intro name target hGet
  rw [hRecords.field (·.namedTokens) fun _ => rfl] at hGet
  exact .inl hGet

theorem Collects.trans
    {g : Grammar}
    {s s' s'' : Session}
    {ids ids' : List RegexId}
    (hFirst : Collects g s s' ids)
    (hSecond : Collects g s' s'' ids') :
    Collects g s s'' (ids ++ ids') := by
  refine ⟨hFirst.alters.trans hSecond.alters, ?_⟩
  intro name target hGet
  rcases hSecond.named name target hGet with hOld | ⟨hMem, hNot⟩
  · rcases hFirst.named name target hOld with
      hOld | ⟨hMem, hNot⟩
    · exact .inl hOld
    · exact .inr ⟨List.mem_append_left _ hMem, hNot⟩
  · exact .inr ⟨List.mem_append_right _ hMem, hNot⟩

theorem collects_collectName
    (g : Grammar)
    (s : Session)
    (id : RegexId) :
    Collects g s (collectName g s id) [id] := by
  have hEnter : isReference (g.regex id) = false → ∀ label,
      Collects g s
        { s with
          namedTokens := Assoc.insert label id s.namedTokens }
        [id] := by
    intro hNot label
    refine ⟨⟨fun h => h, rfl⟩, ?_⟩
    intro name target hGet
    dsimp only at hGet
    unfold Assoc.insert at hGet
    rw [Assoc.get?_alter] at hGet
    split at hGet
    · rw [← Option.some.inj hGet]
      exact .inr ⟨List.mem_singleton_self _, hNot⟩
    · exact .inl hGet
  unfold collectName
  extract_lets r s₁
  split
  · exact collects_of_records g (.refl s) [id]
  · next hNamed =>
      have hNot : isReference (g.regex id) = false := by
        rw [Bool.not_eq_true, Bool.or_eq_false_iff] at hNamed
        exact hNamed.1
      have hFirst : Collects g s s₁ [id] := by
        unfold s₁
        split
        · exact collects_of_records g
            (Session.records_error s _ _) [id]
        · exact hEnter hNot _
      split
      · have hError := collects_of_records g
          (Session.records_error s₁ r.place
            s!"Lexical token name \"{r.label}\" is the same as that of a lexical state.") []
        exact hFirst.trans hError
      · exact hFirst

theorem collects_collectNames
    (g : Grammar)
    (s : Session) :
    Collects g s (collectNames g s) (listed g) := by
  have hAll : ∀ (items : List Item) (s : Session),
      Collects g s
        (items.foldl
          (fun s e => collectName g s e.2.1.regex) s)
        (items.map (·.2.1.regex)) := by
    intro items
    induction items with
    | nil =>
        intro s
        exact collects_of_records g (.refl s) []
    | cons e items ih =>
        intro s
        exact (collects_collectName g s e.2.1.regex).trans
          (ih _)
  rw [listed_eq_allSpecs]
  exact hAll (allSpecs g) s

end TokenTable

------------------------------------------------------------
-- Terminals
------------------------------------------------------------

/- No terminal is new. -/
def Grammar.KeepsTerminals
    (g g' : Grammar) : Prop :=
  ∀ id r result member,
    g'.form id = .terminal r result member →
      g.form id = .terminal r result member

theorem Grammar.KeepsTerminals.trans
    {g g' g'' : Grammar}
    (hFirst : g.KeepsTerminals g')
    (hSecond : g'.KeepsTerminals g'') :
    g.KeepsTerminals g'' :=
  fun id r result member h =>
    hFirst id r result member (hSecond id r result member h)

theorem Grammar.keepsTerminals_addExpansion
    (g : Grammar)
    {form : Expansion}
    (hForm : ∀ r result member,
      form ≠ .terminal r result member)
    (place : Location) :
    g.KeepsTerminals (g.addExpansion form place).2 := by
  intro id r result member hTerminal
  unfold Grammar.form at hTerminal ⊢
  rw [node_addExpansion] at hTerminal
  split at hTerminal
  · exact absurd hTerminal (hForm r result member)
  · exact hTerminal

theorem Grammar.keepsTerminals_modifyNode
    (g : Grammar)
    (id : ExpId)
    {f : ExpNode → ExpNode}
    (hForm : ∀ n r result member,
      (f n).form = .terminal r result member →
        n.form = .terminal r result member) :
    g.KeepsTerminals (g.modifyNode id f) := by
  intro e r result member hTerminal
  unfold Grammar.form at hTerminal ⊢
  rw [node_modifyNode] at hTerminal
  split at hTerminal
  · next hSame =>
      rw [hSame.1]
      exact hForm _ r result member hTerminal
  · exact hTerminal

theorem Grammar.keepsTerminals_adopt
    (g : Grammar)
    (owner : ExpId)
    (parts : List ExpId) :
    g.KeepsTerminals (g.adopt owner parts) := by
  unfold adopt
  refine TokenTable.rel_foldl (R := KeepsTerminals)
    (fun _ _ _ _ _ h => h) KeepsTerminals.trans ?_ parts g
  intro g child
  exact g.keepsTerminals_modifyNode child fun _ _ _ _ h => h

theorem LookaheadFix.keepsTerminals_moveLookahead
    (g : Grammar)
    (id head : ExpId)
    (la : Lookahead)
    (rest : List ExpId) :
    g.KeepsTerminals (moveLookahead g id head la rest) := by
  unfold moveLookahead
  extract_lets place
  refine .trans ?_ (Grammar.keepsTerminals_modifyNode _ id
    fun _ _ _ _ h => by cases h)
  refine .trans ?_ (Grammar.keepsTerminals_adopt _ id _)
  refine .trans ?_ (Grammar.keepsTerminals_adopt _ _ _)
  refine .trans ?_ (Grammar.keepsTerminals_adopt _ _ _)
  refine .trans ?_ (Grammar.keepsTerminals_modifyNode _ head
    fun _ _ _ _ h => by cases h)
  refine .trans ?_ (Grammar.keepsTerminals_addExpansion _
    (by simp) _)
  refine .trans ?_ (Grammar.keepsTerminals_addExpansion _
    (by simp) _)
  refine .trans ?_ (Grammar.keepsTerminals_addExpansion _
    (by simp) _)
  exact Grammar.keepsTerminals_addExpansion _ (by simp) _

theorem LookaheadFix.keepsTerminals_run
    (g : Grammar)
    (s : Session) :
    g.KeepsTerminals (LookaheadFix.run g s).1 := by
  have hStep : ∀ (gs : Grammar × Session) (id : ExpId),
      gs.1.KeepsTerminals (fixSequence gs id).1 := by
    intro gs id
    rcases gs with ⟨g, s⟩
    unfold fixSequence
    dsimp only
    split
    · exact fun _ _ _ _ h => h
    · exact keepsTerminals_moveLookahead g id _ _ _
  let R : Grammar × Session → Grammar × Session → Prop :=
    fun gs gs' => gs.1.KeepsTerminals gs'.1
  exact TokenTable.rel_foldl (R := R)
    (fun _ _ _ _ _ h => h) Grammar.KeepsTerminals.trans
    (fun gs body => TokenTable.rel_foldl (R := R)
      (fun _ _ _ _ _ h => h) Grammar.KeepsTerminals.trans hStep
      (gs.1.postOrder body) gs)
    (g.productions.toList.filterMap Production.expansion?) (g, s)

------------------------------------------------------------
-- The kinds of a grammar
------------------------------------------------------------

/-
  The entries of a grammar have the kinds from one on, each
  once, and so have the tables by kind.  Terminals have these
  kinds, or zero for the end of the file, and literals among
  them are told apart by their texts.
-/
structure Grammar.Enumerated
    (g : Grammar)
    (s : Session) : Prop where
  kinds :
    (TokenTable.listed g).map (fun r => (g.regex r).kind) =
      List.range' 1 (s.tokenCount - 1)
  keys :
    s.regexesOfTokens.map (·.1) =
      List.range' 1 (s.tokenCount - 1)
  terminals :
    ∀ id r result member,
      g.form id = .terminal r result member →
      (g.regex r).kind < s.tokenCount ∧
        ((g.regex r).kind = 0 ↔
          (g.regex r).form = .endOfFile)
  literals :
    ∀ id r result member image id' r' result' member' image',
      g.form id = .terminal r result member →
      g.form id' = .terminal r' result' member' →
      (g.regex r).form = .literal image →
      (g.regex r').form = .literal image' →
      ((g.regex r).kind = (g.regex r').kind ↔ image = image')

namespace TokenTable

/- Where terminals and names come from, before numbering. -/
structure Uses
    (g : Grammar)
    (names : Assoc String RegexId) : Prop where
  unlisted :
    ∀ r, (g.regex r).form = .endOfFile → r ∉ listed g
  terminals :
    ∀ id r result member,
      g.form id = .terminal r result member →
      (g.regex r).form = .endOfFile ∨
        ∃ e ∈ allSpecs g, e.1.explicit = false ∧
          e.2.1.regex = r
  names :
    ∀ name target, Assoc.get? name names = some target →
      target ∈ listed g ∧
        isReference (g.regex target) = false

section Resolved

variable {g : Grammar}
variable {n : Numbering}
variable (hSettled : SettledBefore g g.sections.size n.grammar)
variable (hCounted :
  Counted g n (itemsBefore g g.sections.size))

include hCounted in
theorem isReference_dropped
    (r : RegexId) :
    isReference ((dropSpecs n.grammar n.marked).regex r) =
      isReference (g.regex r) := by
  unfold isReference
  rw [regex_dropSpecs, hCounted.placed.forms]

/- What is no reference is as numbering has left it. -/
include hCounted in
theorem regex_resolved
    {r : RegexId}
    (hNot : isReference (g.regex r) = false) :
    (resolveReferences (dropSpecs n.grammar n.marked)
      n.session).1.regex r = n.grammar.regex r := by
  have hPoints := points_foldl_resolveSpec
    (allSpecs (dropSpecs n.grammar n.marked))
    (dropSpecs n.grammar n.marked, n.session, [])
  rcases hPoints.regexes r with hSame | ⟨hIs, -⟩
  · exact hSame
  · rw [isReference_dropped hCounted, hNot] at hIs
    cases hIs

include hSettled hCounted in
theorem listed_resolved :
    listed (resolveReferences (dropSpecs n.grammar n.marked)
        n.session).1 =
      (kept g n.marked (itemsBefore g g.sections.size)).map
        (·.2.1.regex) := by
  rw [listed_resolveReferences, listed_eq, entries_dropSpecs,
    ← itemsBefore_eq_allSpecs hSettled, List.map_map,
    List.filter_map]
  unfold kept
  congr 1
  apply List.filter_congr
  intro e _
  exact congrArg Bool.not (isReference_dropped hCounted _)

/- References in productions have kinds of named tokens. -/
include hSettled hCounted in
theorem standsFor_resolved
    (hNamed : ∀ name target,
      Assoc.get? name n.session.namedTokens = some target →
      isReference (g.regex target) = false)
    (hClean : (resolveReferences
      (dropSpecs n.grammar n.marked) n.session).2.Clean)
    {e : Item}
    (he : e ∈ itemsBefore g g.sections.size)
    (hIs : isReference (g.regex e.2.1.regex) = true) :
    StandsFor n.session.namedTokens
      (resolveReferences (dropSpecs n.grammar n.marked)
        n.session).1 e.2.1.regex := by
  have hNames : Names n.session.namedTokens
      (dropSpecs n.grammar n.marked, n.session) := by
    refine ⟨rfl, ?_⟩
    intro name target hGet
    rw [isReference_dropped hCounted]
    exact hNamed name target hGet
  have hSettles := settles_foldl_resolveSpec
    (a := (dropSpecs n.grammar n.marked, n.session, []))
    (allSpecs (dropSpecs n.grammar n.marked)) hNames hClean
  -- Only literals have been dropped, so the reference is there.
  have hUnmarked : e.2.2 ∉ n.marked := by
    intro hMem
    rcases hCounted.marked _ hMem with ⟨e', he', hPlace, hNot⟩
    rw [eq_of_place_eq_before he' he hPlace, hIs] at hNot
    cases hNot
  have hThere : e ∈ unmarked n.marked
      (allSpecs n.grammar) := by
    rw [mem_unmarked, ← itemsBefore_eq_allSpecs hSettled]
    exact ⟨he, hUnmarked⟩
  rcases exists_mem_dropSpecs hThere with ⟨e', he', hSpec, -⟩
  have hRoot : e.2.1.regex ∈
      (allSpecs (dropSpecs n.grammar n.marked)).map
        (·.2.1.regex) := by
    rw [← hSpec]
    exact List.mem_map_of_mem he'
  apply hSettles.resolved _ hRoot
  rw [isReference_dropped hCounted]
  exact hIs

end Resolved

theorem mem_itemsBefore_of_mem
    {g : Grammar}
    {e : Item}
    (he : e ∈ allSpecs g) :
    (settled g e.1, e.2) ∈ itemsBefore g g.sections.size :=
  mem_itemsBefore_size.mpr ⟨e.1, he, rfl⟩

theorem mem_listed_of_mem_items
    {g : Grammar}
    {e : Item}
    (he : e ∈ itemsBefore g g.sections.size) :
    e.2.1.regex ∈ listed g := by
  rcases mem_itemsBefore_size.mp he with ⟨sec, hMem, -⟩
  rw [listed_eq_allSpecs]
  exact List.mem_map.mpr ⟨_, hMem, rfl⟩

theorem exists_item_of_mem_listed
    {g : Grammar}
    {r : RegexId}
    (hListed : r ∈ listed g) :
    ∃ e ∈ itemsBefore g g.sections.size, e.2.1.regex = r := by
  rw [listed_eq_allSpecs] at hListed
  rcases List.mem_map.mp hListed with ⟨e, he, rfl⟩
  exact ⟨_, mem_itemsBefore_of_mem he, rfl⟩

/-
  A grammar after references have been resolved: entries are
  kept items, and only references have changed, which have
  kinds of named tokens.
-/
structure Resolved
    (g : Grammar)
    (n : Numbering)
    (g' : Grammar)
    (s' : Session) : Prop where
  forms : ∀ id, g'.form id = g.form id
  listed :
    listed g' =
      (kept g n.marked (itemsBefore g g.sections.size)).map
        (·.2.1.regex)
  count : s'.tokenCount = n.session.tokenCount
  table :
    s'.regexesOfTokens = n.session.regexesOfTokens
  same :
    ∀ r, isReference (g.regex r) = false →
      g'.regex r = n.grammar.regex r
  references :
    ∀ r, isReference (g'.regex r) = isReference (g.regex r)
  stands :
    ∀ e ∈ itemsBefore g g.sections.size,
      isReference (g.regex e.2.1.regex) = true →
      StandsFor n.session.namedTokens g' e.2.1.regex

theorem resolved_resolveReferences
    {g : Grammar}
    {n : Numbering}
    (hSettled : SettledBefore g g.sections.size n.grammar)
    (hCounted :
      Counted g n (itemsBefore g g.sections.size))
    (hRules : g.SameRules n.grammar)
    (hNamed : ∀ name target,
      Assoc.get? name n.session.namedTokens = some target →
      isReference (g.regex target) = false)
    (hClean : (resolveReferences
      (dropSpecs n.grammar n.marked) n.session).2.Clean) :
    Resolved g n
      (resolveReferences (dropSpecs n.grammar n.marked)
        n.session).1
      (resolveReferences (dropSpecs n.grammar n.marked)
        n.session).2 := by
  have hLater := (records_resolveReferences
    (dropSpecs n.grammar n.marked) n.session).later_of_records
  have hSame := sameRules_resolveReferences
    (dropSpecs n.grammar n.marked) n.session
  have hPoints := points_foldl_resolveSpec
    (allSpecs (dropSpecs n.grammar n.marked))
    (dropSpecs n.grammar n.marked, n.session, [])
  refine ⟨?_, listed_resolved hSettled hCounted,
    hLater.tokenCount, hLater.regexesOfTokens, ?_, ?_, ?_⟩
  · intro id
    unfold Grammar.form Grammar.node
    rw [hSame.expansions]
    exact congrArg (fun xs : Array ExpNode =>
      (xs.getD id default).form) hRules.expansions
  · intro r hNot
    exact regex_resolved hCounted hNot
  · intro r
    exact (hPoints.isReference_eq r).trans
      (isReference_dropped hCounted r)
  · intro e he hIs
    exact standsFor_resolved hSettled hCounted hNamed hClean
      he hIs

section Enumerated

variable {g g' : Grammar}
variable {n : Numbering}
variable {s' : Session}

/- The end of the file is not listed, so it has no kind. -/
theorem Resolved.kind_endOfFile
    (hResolved : Resolved g n g' s')
    (hCounted :
      Counted g n (itemsBefore g g.sections.size))
    (hUses : Uses g n.session.namedTokens)
    {r : RegexId}
    (hEnd : (g.regex r).form = .endOfFile) :
    (g'.regex r).kind = 0 ∧
      (g'.regex r).form = .endOfFile := by
  have hNot : isReference (g.regex r) = false := by
    unfold isReference
    rw [hEnd]
  rw [hResolved.same r hNot, hCounted.placed.forms]
  refine ⟨?_, hEnd⟩
  apply hCounted.placed.fresh
  intro hMem
  rcases List.mem_map.mp hMem with ⟨e, he, rfl⟩
  exact hUses.unlisted _ hEnd (mem_listed_of_mem_items he)

/- An entry has a kind, if need be that of a named token. -/
theorem Resolved.kind_item
    (hResolved : Resolved g n g' s')
    (hCounted :
      Counted g n (itemsBefore g g.sections.size))
    (hUses : Uses g n.session.namedTokens)
    {e : Item}
    (he : e ∈ itemsBefore g g.sections.size) :
    1 ≤ (g'.regex e.2.1.regex).kind ∧
      (g'.regex e.2.1.regex).kind < s'.tokenCount ∧
      (g'.regex e.2.1.regex).form ≠ .endOfFile := by
  have hOwn : ∀ {e : Item},
      e ∈ itemsBefore g g.sections.size →
      isReference (g.regex e.2.1.regex) = false →
      1 ≤ (g'.regex e.2.1.regex).kind ∧
        (g'.regex e.2.1.regex).kind < s'.tokenCount := by
    intro e he hNot
    rw [hResolved.same _ hNot, hResolved.count]
    exact hCounted.kind_bounds he hNot
  cases hIs : isReference (g.regex e.2.1.regex) with
  | false =>
      have hBounds := hOwn he hIs
      refine ⟨hBounds.1, hBounds.2, ?_⟩
      intro hEnd
      rw [hResolved.same _ hIs, hCounted.placed.forms] at hEnd
      exact hUses.unlisted _ hEnd (mem_listed_of_mem_items he)
  | true =>
      rcases hResolved.stands e he hIs with
        ⟨name, target, hGet, hSame⟩
      rcases hUses.names name target hGet with ⟨hListed, hNot⟩
      rcases exists_item_of_mem_listed hListed with
        ⟨e', he', rfl⟩
      have hBounds := hOwn he' hNot
      rw [hSame]
      refine ⟨hBounds.1, hBounds.2, ?_⟩
      intro hEnd
      have hStill := hResolved.references e.2.1.regex
      unfold isReference at hStill hIs
      rw [hEnd, hIs] at hStill
      cases hStill

/- Kinds that are given out and resolved without error. -/
theorem Resolved.enumerated
    (hResolved : Resolved g n g' s')
    (hCounted :
      Counted g n (itemsBefore g g.sections.size))
    (hUses : Uses g n.session.namedTokens) :
    g'.Enumerated s' := by
  have hText : ∀ {r image},
      (g'.regex r).form = .literal image →
      isReference (g.regex r) = false ∧
        (g.regex r).form = .literal image := by
    intro r image hLiteral
    have hNot : isReference (g.regex r) = false := by
      rw [← hResolved.references]
      unfold isReference
      rw [hLiteral]
    rw [hResolved.same r hNot, hCounted.placed.forms]
      at hLiteral
    exact ⟨hNot, hLiteral⟩
  refine ⟨?_, ?_, ?_, ?_⟩
  · rw [hResolved.listed, List.map_map, hResolved.count,
      ← hCounted.kinds]
    apply List.map_congr_left
    intro e he
    exact congrArg RegexNode.kind
      (hResolved.same _ (mem_kept.mp he).2)
  · rw [hResolved.table, hCounted.table, List.map_map,
      hResolved.count]
    exact hCounted.kinds
  · intro id r result member hTerminal
    rw [hResolved.forms] at hTerminal
    rcases hUses.terminals id r result member hTerminal with
      hEnd | ⟨e, he, -, rfl⟩
    · have hZero := hResolved.kind_endOfFile hCounted hUses hEnd
      rw [hZero.1, hResolved.count]
      exact ⟨hCounted.positive, fun _ => hZero.2, fun _ => rfl⟩
    · have hKind := hResolved.kind_item hCounted hUses
        (mem_itemsBefore_of_mem he)
      refine ⟨hKind.2.1, ?_⟩
      constructor
      · intro hZero
        exact absurd hZero (Nat.ne_of_gt hKind.1)
      · intro hEnd
        exact absurd hEnd hKind.2.2
  · intro id r result member image id' r' result' member' image'
      hTerminal hTerminal' hLiteral hLiteral'
    rw [hResolved.forms] at hTerminal hTerminal'
    rcases hText hLiteral with ⟨hNot, hForm⟩
    rcases hText hLiteral' with ⟨hNot', hForm'⟩
    rw [hResolved.same r hNot, hResolved.same r' hNot']
    rcases hUses.terminals _ _ _ _ hTerminal with
      hEnd | ⟨e, he, hImplied, rfl⟩
    · rw [hForm] at hEnd
      cases hEnd
    rcases hUses.terminals _ _ _ _ hTerminal' with
      hEnd | ⟨e', he', hImplied', rfl⟩
    · rw [hForm'] at hEnd
      cases hEnd
    exact hCounted.kind_eq_iff (mem_itemsBefore_of_mem he)
      (mem_itemsBefore_of_mem he') hImplied hImplied' hForm
      hForm'

end Enumerated

end TokenTable

------------------------------------------------------------
-- Analysis
------------------------------------------------------------

open TokenTable

/- Entries for the end of the file go, those of terminals stay. -/
theorem uses_of_wellFormed
    {g₀ g : Grammar}
    (hFormed : g₀.WellFormed)
    (hTokens : g₀.SameTokens g)
    (hTerminals : g₀.KeepsTerminals g)
    {marked : List SpecPos}
    (hMarked : ∀ e ∈ allSpecs g, e.2.2 ∈ marked ↔
      isDropped g e = true)
    {names : Assoc String RegexId}
    (hNames : ∀ name target,
      Assoc.get? name names = some target →
      target ∈ listed (dropSpecs g marked) ∧
        isReference (g.regex target) = false) :
    Uses (dropSpecs g marked) names := by
  have hRegex : ∀ r, g.regex r = g₀.regex r := by
    intro r
    unfold Grammar.regex
    rw [hTokens.regexes]
  have hSection : ∀ i, g.tokenSection i =
      g₀.tokenSection i := by
    intro i
    unfold Grammar.tokenSection
    rw [hTokens.sections]
  refine ⟨?_, ?_, hNames⟩
  · intro r hEnd hListed
    rw [listed_eq_allSpecs] at hListed
    rcases List.mem_map.mp hListed with ⟨e, he, rfl⟩
    rcases exists_of_mem_dropSpecs he with
      ⟨e', he', hSpec, -⟩
    rcases mem_unmarked.mp he' with ⟨hThere, hNot⟩
    apply hNot
    rw [hMarked e' hThere]
    unfold isDropped
    rw [regex_dropSpecs] at hEnd
    rw [hSpec, hEnd]
  · intro id r result member hTerminal
    have hBefore := hTerminals id r result member hTerminal
    have hInside : id < g₀.expansions.size := by
      by_contra hNot
      unfold Grammar.form Grammar.node at hBefore
      rw [Array.getD_eq_getD_getElem?, Array.getElem?_eq_none
        (Nat.le_of_not_lt hNot)] at hBefore
      cases hBefore
    have hAdmits := hFormed.forms id hInside
    rw [hBefore] at hAdmits
    rw [regex_dropSpecs, hRegex]
    rcases hAdmits.2 with hEnd | hImplied
    · exact .inl hEnd
    · by_cases hEnd : (g₀.regex r).form = .endOfFile
      · exact .inl hEnd
      rcases hImplied with ⟨i, hi, hExplicit, spec, hSpec, rfl⟩
      rw [← hTokens.sections] at hi
      rw [← hSection] at hExplicit hSpec
      rcases mem_allSpecs_of_mem hi hSpec with ⟨j, hMem⟩
      have hStays : (i, j) ∉ marked := by
        rw [hMarked _ hMem]
        unfold isDropped
        dsimp only
        rw [hRegex, hExplicit]
        intro hDropped
        split at hDropped
        · next hIs => exact hEnd hIs
        · cases hDropped
        · cases hDropped
      rcases exists_mem_dropSpecs
          (mem_unmarked.mpr ⟨hMem, hStays⟩) with
        ⟨e, he, hSame, hSec⟩
      refine .inr ⟨e, he, ?_, by rw [hSame]⟩
      have hIs := congrArg TokenSection.explicit hSec
      exact hIs.trans hExplicit

/- How the names of a grammar are resolved without error. -/
theorem exists_resolved
    {g : Grammar}
    (hFormed : g.WellFormed)
    (hStates : ∀ sec ∈ g.sections, sec.states ≠ some [])
    (hListed : (listed g).Nodup)
    {o : Options}
    (hManaged : o.userTokenManager = false)
    (hClean : (Analysis.resolve g (.new o)).2.Clean) :
    ∃ g₁ n, Counted g₁ n (itemsBefore g₁ g₁.sections.size) ∧
      Uses g₁ n.session.namedTokens ∧
      Resolved g₁ n (Analysis.resolve g (.new o)).1
        (Analysis.resolve g (.new o)).2 := by
  have hTokens := LookaheadFix.sameTokens_run g
    (Analysis.warnLookahead (.new o))
  have hTerminals := LookaheadFix.keepsTerminals_run g
    (Analysis.warnLookahead (.new o))
  have hLater := later_beforeTokens g (.new o)
  unfold Analysis.resolve at hClean ⊢
  generalize LookaheadFix.run g
    (Analysis.warnLookahead (.new o)) = fixed
    at hTokens hTerminals hLater hClean ⊢
  rcases fixed with ⟨g₁, s₁⟩
  dsimp only at hTokens hTerminals hLater hClean ⊢
  generalize References.resolve g₁
    (References.enterProductions g₁ s₁) = s₂ at hLater hClean ⊢
  have hManaged₂ : s₂.options.userTokenManager = false := by
    rw [← (meetsEnd_checkSections g₁ s₂).field (·.options)
      fun _ => rfl, hLater.options]
    exact hManaged
  rcases unmarked_checkSections g₁ hManaged₂ with
    ⟨marked, hDropped, hMarked⟩
  generalize checkSections g₁ s₂ = checked
    at hLater hDropped hClean ⊢
  rcases checked with ⟨g₂, s₃⟩
  dsimp only at hLater hDropped hClean ⊢
  subst hDropped
  have hCollects := collects_collectNames
    (dropSpecs g₁ marked) s₃
  generalize collectNames (dropSpecs g₁ marked) s₃ = s₄
    at hCollects hClean ⊢
  have hSpares := spares_assignKinds (dropSpecs g₁ marked) s₄
  have hManaged₅ : ¬ (assignKinds (dropSpecs g₁ marked)
      s₄).2.options.userTokenManager = true := by
    rw [hSpares.1.field (·.options) fun _ => rfl, hCollects.alters.field (·.options) fun _ => rfl,
      hLater.options]
    exact Bool.not_eq_true _ ▸ hManaged
  rw [if_neg hManaged₅] at hClean ⊢
  have hOnce : (listed g₁).Nodup := by
    unfold listed
    rw [hTokens.sections]
    exact hListed
  have hListable : Listable (dropSpecs g₁ marked) := by
    apply Listable.dropSpecs
    apply listable_of_wellFormed
      (hFormed.tokens.congr hTokens)
    · rw [hTokens.sections]
      exact hStates
    · exact hOnce
  have hOnce₂ : (listed (dropSpecs g₁ marked)).Nodup := by
    rw [listed_eq] at hOnce ⊢
    exact hOnce.sublist
      ((entries_dropSpecs_sublist g₁ marked).map _)
  have hFresh : ∀ id,
      ((dropSpecs g₁ marked).regex id).kind = 0 :=
    (hFormed.tokens.congr hTokens).unnumbered
  have hSimple : s₄.simpleTokens = [] :=
    (hCollects.alters.field (·.simpleTokens) fun _ => rfl).trans
      hLater.simpleTokens
  have hTable : s₄.regexesOfTokens = [] :=
    (hCollects.alters.field (·.regexesOfTokens)
      fun _ => rfl).trans hLater.regexesOfTokens
  rcases counted_assignKinds hListable hOnce₂ hFresh hSimple
      hTable ((records_resolveReferences _ _).clean hClean) with
    ⟨n, hAssign, hSettled, hCounted⟩
  rw [hAssign] at hClean hSpares ⊢
  dsimp only at hClean hSpares ⊢
  have hUses : Uses (dropSpecs g₁ marked)
      n.session.namedTokens := by
    apply uses_of_wellFormed hFormed hTokens hTerminals hMarked
    intro name target hGet
    rw [hSpares.1.field (·.namedTokens) fun _ => rfl] at hGet
    rcases hCollects.named name target hGet with hOld | hNew
    · rw [hLater.namedTokens] at hOld
      cases hOld
    · exact hNew
  have hRules : (dropSpecs g₁ marked).SameRules n.grammar :=
    ⟨hSpares.2.expansions, hSpares.2.productions⟩
  have hResolved := resolved_resolveReferences hSettled hCounted
    hRules (fun name target hGet =>
      (hUses.names name target hGet).2) hClean
  exact ⟨_, n, hCounted, hUses, hResolved⟩

/- The kinds of a grammar whose names have been resolved. -/
theorem enumerated_resolve
    {g : Grammar}
    (hFormed : g.WellFormed)
    (hStates : ∀ sec ∈ g.sections, sec.states ≠ some [])
    (hListed : (listed g).Nodup)
    {o : Options}
    (hManaged : o.userTokenManager = false)
    (hClean : (Analysis.resolve g (.new o)).2.Clean) :
    (Analysis.resolve g (.new o)).1.Enumerated
      (Analysis.resolve g (.new o)).2 := by
  rcases exists_resolved hFormed hStates hListed hManaged hClean
    with ⟨g₁, n, hCounted, hUses, hResolved⟩
  exact hResolved.enumerated hCounted hUses

/-
  Token kinds have no gaps.  A grammar is put together call by
  call, its token sections name lexical states, and it lists
  every token expression once.  If it passes analysis with a
  generated token manager, then the entries that are left and
  the tables by kind have the kinds from one on, each once,
  terminals have these kinds, with zero for the end of the
  file, and literals in productions have one kind exactly if
  they have one text.
-/
theorem analyze_numbers_tokens
    {b : Builder}
    (hMade : Made b)
    (hStates : ∀ sec ∈ b.grammar.sections,
      sec.states ≠ some [])
    (hListed : (listed b.grammar).Nodup)
    {o : Options}
    (hManaged : o.userTokenManager = false)
    {g : Grammar}
    {s : Session}
    (hPasses : analyze b.grammar (.new o) = (g, s, .ok ())) :
    g.Enumerated s := by
  rcases later_afterTokens hPasses with ⟨hGrammar, hLater, hClean⟩
  have hKinds := enumerated_resolve hMade.wellFormed hStates
    hListed hManaged (hLater.clean hClean)
  rw [hGrammar] at hKinds
  rcases hKinds with ⟨hKinds, hKeys, hTerminals, hLiterals⟩
  rw [← hLater.tokenCount] at hKinds hKeys hTerminals
  rw [← hLater.regexesOfTokens] at hKeys
  exact ⟨hKinds, hKeys, hTerminals, hLiterals⟩

/-
  A private token, a named one that refers to it, a literal
  with and one without regard to case, and a production that
  uses literals twice, a reference and the end of the file.
-/
def assortedTokens : Calls :=
  [.regex (.chars false [.range 48 57]),
    .privateLabel 0 "DIGIT",
    .regex (.reference "DIGIT" none),
    .regex (.oneOrMore 1),
    .label 2 "NUMBER",
    .regex (.literal "if"),
    .regex (.literal "Then"),
    .tokenSection (some ["DEFAULT"]) .token false,
    .tokenSpec 0 0 none none,
    .tokenSpec 0 2 none none,
    .tokenSpec 0 3 none none,
    .tokenSection none .token true,
    .tokenSpec 1 4 none none,
    .literal "+",
    .literal "if",
    .literal "+",
    .tokenReference "NUMBER",
    .endOfFile,
    .sequence [0, 1, 2, 3, 4],
    .production "Start" "void" "" 6]

theorem analyze_numbers_tokens_assorted :
    ∃ g s,
      analyze assortedTokens.built.grammar
          (.new { sanityCheck := false }) = (g, s, .ok ()) ∧
        s.tokenCount = 6 ∧ g.Enumerated s := by
  have hMade : Made assortedTokens.built := by
    apply Calls.made_built
    simp only [ValidCalls, assortedTokens, Call.Valid]
    decide +kernel
  have hStates : ∀ sec ∈ assortedTokens.built.grammar.sections,
      sec.states ≠ some [] := by
    decide +kernel
  have hListed : (listed assortedTokens.built.grammar).Nodup := by
    decide +kernel
  have hChecks : (fun r : Grammar × Session ×
      Except Failure Unit => (r.2.2, r.2.1.tokenCount))
        (analyze assortedTokens.built.grammar
          (.new { sanityCheck := false })) = (.ok (), 6) := by
    cbv
  have hKinds : ∀ g s, analyze assortedTokens.built.grammar
      (.new { sanityCheck := false }) = (g, s, .ok ()) →
      g.Enumerated s :=
    fun g s hPasses => analyze_numbers_tokens hMade hStates
      hListed rfl hPasses
  generalize analyze assortedTokens.built.grammar
    (.new { sanityCheck := false }) = r at hChecks hKinds ⊢
  rcases r with ⟨g, s, passed⟩
  rcases Prod.mk.inj hChecks with ⟨hPassed, hCount⟩
  dsimp only at hPassed hCount
  rw [hPassed] at hKinds ⊢
  exact ⟨g, s, rfl, hCount, hKinds g s rfl⟩

end Descent
