import Descent.Proofs.Construction

/-
  Kinds are given out without gaps.

  Numbering goes through the entries in order.  An entry gets
  the next kind, or it repeats the text of a literal in a
  production and shares the kind of the literal that is known,
  or it is a reference and waits for the kind of what it
  stands for.  The entries that are kept count up from one.

  Main declarations:
    * `TokenTable.Takes` and `TokenTable.Joins`
    * `TokenTable.Counted`
    * `TokenTable.sustained_counted`
-/

------------------------------------------------------------
-- Tables by kind
------------------------------------------------------------

namespace Descent

namespace Assoc

variable {α : Type}

/- A key after all others comes last. -/
theorem alterSorted_last
    {key : Nat}
    {t : Assoc Nat α}
    (hBelow : ∀ k ∈ t.map (·.1), k < key)
    (f : Option α → α) :
    alterSorted key f t = t ++ [(key, f none)] := by
  induction t with
  | nil => rfl
  | cons e rest ih =>
      rcases e with ⟨k, v⟩
      have hLess : k < key := hBelow k List.mem_cons_self
      have hRest := ih fun k hk =>
        hBelow k (List.mem_cons_of_mem _ hk)
      unfold alterSorted
      rw [if_neg (Nat.not_lt.mpr hLess.le),
        if_neg (Nat.ne_of_lt hLess), hRest, List.cons_append]

/- A key that is there keeps its value. -/
theorem alterSorted_getD
    {key : Nat}
    {t : Assoc Nat α}
    (hAscending : Ascending t)
    (hMem : key ∈ t.map (·.1))
    (v : α) :
    alterSorted key (fun old => old.getD v) t = t := by
  induction t with
  | nil => cases hMem
  | cons e rest ih =>
      rcases e with ⟨k, w⟩
      rw [Ascending, List.map_cons, List.pairwise_cons]
        at hAscending
      unfold alterSorted
      rcases List.mem_cons.mp hMem with hHere | hLater
      · dsimp only at hHere
        rw [if_neg (Nat.not_lt.mpr (Nat.le_of_eq hHere.symm)),
          if_pos hHere.symm]
        rfl
      · have hLess : k < key := hAscending.1 key hLater
        rw [if_neg (Nat.not_lt.mpr hLess.le),
          if_neg (Nat.ne_of_lt hLess),
          ih hAscending.2 hLater]

end Assoc

------------------------------------------------------------
-- Literals in a state
------------------------------------------------------------

namespace TokenTable

theorem entry?_enterVariant
    (n : Numbering)
    (state image : String)
    (id : RegexId)
    (state' image' : String) :
    entry? (n.enterVariant state (Text.upperText image) image
        id).session state' image' =
      if state' = state ∧ image' = image then some id
      else entry? n.session state' image' := by
  unfold entry? Numbering.enterVariant
  dsimp only
  rw [Assoc.get?_alter]
  by_cases hState : state' = state
  · subst hState
    rw [if_pos rfl, Option.getD_some, Assoc.get?_alter]
    by_cases hUpper :
        Text.upperText image' = Text.upperText image
    · rw [if_pos hUpper, ← hUpper, Option.bind_some]
      unfold Assoc.insert
      rw [Assoc.get?_alter]
      by_cases hImage : image' = image
      · rw [if_pos hImage, if_pos ⟨rfl, hImage⟩]
      · rw [if_neg hImage, if_neg fun h => hImage h.2]
        cases Assoc.get? (Text.upperText image')
            ((Assoc.get? state' n.session.simpleTokens).getD
              []) with
        | none => rfl
        | some variants => rfl
    · rw [if_neg hUpper, if_neg]
      intro h
      exact hUpper (congrArg Text.upperText h.2)
  · rw [if_neg hState, if_neg fun h => hState h.1]

------------------------------------------------------------
-- What becomes of a literal in a state
------------------------------------------------------------

/- What numbering leaves beside the kinds. -/
structure Numbering.Steady
    (n n' : Numbering) : Prop where
  size : n'.grammar.regexes.size = n.grammar.regexes.size
  cases :
    ∀ r, ignoresCase n'.grammar r = ignoresCase n.grammar r

theorem Numbering.Steady.refl
    (n : Numbering) :
    n.Steady n :=
  ⟨rfl, fun _ => rfl⟩

theorem Numbering.Steady.trans
    {n n' n'' : Numbering}
    (hFirst : n.Steady n')
    (hSecond : n'.Steady n'') :
    n.Steady n'' :=
  ⟨hSecond.size.trans hFirst.size,
    fun r => (hSecond.cases r).trans (hFirst.cases r)⟩

theorem ignoresCase_congr
    {g g' : Grammar}
    {r : RegexId}
    (hHome : (g'.regex r).home = (g.regex r).home)
    (hCase : ∀ i, (g'.tokenSection i).ignoreCase =
      (g.tokenSection i).ignoreCase) :
    ignoresCase g' r = ignoresCase g r := by
  unfold ignoresCase sectionOf?
  rw [hHome]
  cases (g.regex r).home with
  | none => rfl
  | some home => exact hCase home

theorem ignoresCase_modifyRegex
    (g : Grammar)
    (id : RegexId)
    (kind : Kind)
    (r : RegexId) :
    ignoresCase
        (g.modifyRegex id fun r => { r with kind := kind }) r =
      ignoresCase g r := by
  apply ignoresCase_congr
  · rw [Grammar.regex_modifyRegex]
    split
    · next hSame => rw [hSame.1]
    · rfl
  · intro i
    rfl

/- A token expression takes the next kind unless it has one. -/
theorem takeKindOnce_cases
    (n : Numbering)
    {id : RegexId}
    (hInside : id < n.grammar.regexes.size) :
    let n' := n.takeKindOnce id
    n.Steady n' ∧
      n'.session.simpleTokens = n.session.simpleTokens ∧
      n'.session.regexesOfTokens = n.session.regexesOfTokens ∧
      n'.marked = n.marked ∧
      (n.kindOf id ≠ 0 → n'.kindOf id = n.kindOf id ∧
        n'.session.tokenCount = n.session.tokenCount) ∧
      (n.kindOf id = 0 →
        n'.kindOf id = n.session.tokenCount ∧
        n'.session.tokenCount = n.session.tokenCount + 1) := by
  unfold Numbering.takeKindOnce
  by_cases hZero : n.kindOf id = 0
  · have hTake : ((n.grammar.regex id).kind == 0) = true :=
      beq_iff_eq.mpr hZero
    rw [if_pos hTake]
    refine ⟨⟨?_, ?_⟩, rfl, rfl, rfl,
      fun hNot => absurd hZero hNot, fun _ => ⟨?_, rfl⟩⟩
    · exact Grammar.size_modifyRegex _ _ _
    · exact ignoresCase_modifyRegex n.grammar id _
    · unfold Numbering.kindOf Numbering.takeKind
      dsimp only
      rw [Grammar.regex_modifyRegex, if_pos ⟨rfl, hInside⟩]
  · have hKept : ¬ ((n.grammar.regex id).kind == 0) = true :=
      fun h => hZero (beq_iff_eq.mp h)
    rw [if_neg hKept]
    exact ⟨.refl n, rfl, rfl, rfl, fun _ => ⟨rfl, rfl⟩,
      fun h => absurd h hZero⟩

/-
  A literal is entered in some states, and has a kind of its
  own from the first of them on.
-/
structure Enters
    (sec : TokenSection)
    (image : String)
    (id : RegexId)
    (states : List String)
    (n n' : Numbering) : Prop where
  steady : n.Steady n'
  table :
    n'.session.regexesOfTokens = n.session.regexesOfTokens
  marked : n'.marked = n.marked
  again :
    n.kindOf id ≠ 0 → n'.kindOf id = n.kindOf id ∧
      n'.session.tokenCount = n.session.tokenCount
  first :
    n.kindOf id = 0 → states ≠ [] →
      n'.kindOf id = n.session.tokenCount ∧
      n'.session.tokenCount = n.session.tokenCount + 1
  entry :
    ∀ state' image', entry? n'.session state' image' =
      if state' ∈ states ∧ image' = image then some id
      else entry? n.session state' image'
  known :
    sec.ignoreCase = false → ∀ state ∈ states,
      entry? n.session state image = none

/- A literal shares the kind of the one that is known. -/
structure Shares
    (sec : TokenSection)
    (image : String)
    (id : RegexId)
    (pos : SpecPos)
    (state : String)
    (n n' : Numbering) : Prop where
  implied : sec.explicit = false
  steady : n.Steady n'
  session : n'.session = n.session
  marked : n'.marked = pos :: n.marked
  known :
    ∃ existing, entry? n.session state image = some existing ∧
      ignoresCase n.grammar existing = false ∧
      n'.kindOf id = n.kindOf existing

theorem enters_enter
    {sec : TokenSection}
    {image : String}
    {id : RegexId}
    {n : Numbering}
    (hInside : id < n.grammar.regexes.size)
    {state : String}
    (hKnown : sec.ignoreCase = false →
      entry? n.session state image = none) :
    Enters sec image id [state] n
      ((n.takeKindOnce id).enterVariant state
        (Text.upperText image) image id) := by
  rcases takeKindOnce_cases n hInside with
    ⟨hSteady, hTokens, hTable, hMarked, hAgain, hFirst⟩
  have hEntry : ∀ state' image',
      entry? (n.takeKindOnce id).session state' image' =
        entry? n.session state' image' := by
    intro state' image'
    unfold entry?
    rw [hTokens]
  refine ⟨⟨hSteady.size, hSteady.cases⟩, hTable, hMarked,
    hAgain, fun hZero _ => hFirst hZero, ?_, ?_⟩
  · intro state' image'
    simp only [entry?_enterVariant, hEntry, List.mem_singleton]
  · intro hCase state' hMem
    rw [List.mem_singleton.mp hMem]
    exact hKnown hCase

theorem shares_numberRepeated
    {n : Numbering}
    {sec : TokenSection}
    {state image : String}
    {id existing : RegexId}
    {pos : SpecPos}
    (hInside : id < n.grammar.regexes.size)
    (hEntry : entry? n.session state image = some existing)
    (hCase : ignoresCase n.grammar existing = false)
    (hClean : (numberRepeated n sec state image id existing
      pos).session.Clean) :
    Shares sec image id pos state n
      (numberRepeated n sec state image id existing pos) := by
  rcases numberRepeated_of_clean hClean with
    ⟨hExplicit, hSame⟩
  rw [hSame]
  refine ⟨hExplicit, ⟨?_, ?_⟩, rfl, rfl,
    existing, hEntry, hCase, ?_⟩
  · exact Grammar.size_modifyRegex _ _ _
  · exact ignoresCase_modifyRegex n.grammar id _
  · unfold Numbering.kindOf
    dsimp only
    rw [Grammar.regex_modifyRegex, if_pos ⟨rfl, hInside⟩]

/- A literal is entered in a state, or shares a kind there. -/
theorem numberLiteral_cases
    {sec : TokenSection}
    {image : String}
    {id : RegexId}
    {pos : SpecPos}
    {n : Numbering}
    {state : String}
    (hInside : id < n.grammar.regexes.size)
    (hClean : (numberLiteral sec image id pos n
      state).session.Clean) :
    Enters sec image id [state] n
        (numberLiteral sec image id pos n state) ∨
      Shares sec image id pos state n
        (numberLiteral sec image id pos n state) := by
  rcases numberLiteral_of_clean hClean with
    ⟨warned, hSame, ⟨rfl, hUnknown⟩ | ⟨hCase, hWarned⟩⟩ |
    ⟨existing, hKnown, hRegards, hSame⟩
  · rw [hSame]
    exact .inl (enters_enter hInside fun _ => hUnknown)
  · rcases hWarned with ⟨place, message, rfl⟩
    have hEnter := @enters_enter sec image id
      { n with session := n.session.warning place message }
      hInside state (fun h => by rw [hCase] at h; cases h)
    rw [hSame]
    exact .inl ⟨⟨hEnter.steady.size, hEnter.steady.cases⟩,
      hEnter.table, hEnter.marked, hEnter.again,
      hEnter.first, hEnter.entry, hEnter.known⟩
  · rw [hSame] at hClean ⊢
    exact .inr (shares_numberRepeated hInside hKnown hRegards
      hClean)

/- A literal of an explicit section is entered everywhere. -/
theorem enters_foldl_numberLiteral
    {sec : TokenSection}
    (hExplicit : sec.explicit = true)
    {image : String}
    {id : RegexId}
    {pos : SpecPos}
    (states : List String)
    {n : Numbering}
    (hInside : id < n.grammar.regexes.size)
    (hCount : 0 < n.session.tokenCount)
    (hClean : (states.foldl (numberLiteral sec image id pos)
      n).session.Clean) :
    Enters sec image id states n
      (states.foldl (numberLiteral sec image id pos) n) := by
  induction states generalizing n with
  | nil =>
      refine ⟨.refl n, rfl, rfl, fun _ => ⟨rfl, rfl⟩, ?_, ?_,
        ?_⟩
      · intro _ hNot
        exact absurd rfl hNot
      · simp
      · intro _ state hMem
        cases hMem
  | cons state states ih =>
      rw [List.foldl_cons] at hClean ⊢
      have hCleanHere := (numbered_foldl states hClean).clean
      have hFirst : Enters sec image id [state] n
          (numberLiteral sec image id pos n state) := by
        rcases numberLiteral_cases hInside hCleanHere with
          hEnters | hShares
        · exact hEnters
        · have hNot := hShares.implied
          rw [hExplicit] at hNot
          cases hNot
      have hCount' := hCount.trans_le
        (numbered_numberLiteral hCleanHere).moves.count
      have hRest := ih (by rw [hFirst.steady.size]; exact hInside)
        hCount' hClean
      refine ⟨hFirst.steady.trans hRest.steady,
        hRest.table.trans hFirst.table,
        hRest.marked.trans hFirst.marked, ?_, ?_, ?_, ?_⟩
      · intro hKind
        rcases hFirst.again hKind with ⟨hSame, hSameCount⟩
        have hLater := hRest.again (by rwa [hSame])
        exact ⟨hLater.1.trans hSame,
          hLater.2.trans hSameCount⟩
      · intro hZero _
        rcases hFirst.first hZero (by simp) with
          ⟨hKind, hNext⟩
        have hLater := hRest.again
          (by rw [hKind]; exact hCount.ne')
        exact ⟨hLater.1.trans hKind, hLater.2.trans hNext⟩
      · intro state' image'
        rw [hRest.entry, hFirst.entry]
        by_cases hImage : image' = image
        · by_cases hMem : state' ∈ states
          · simp [hImage, hMem]
          · simp [hImage, hMem]
        · simp [hImage]
      · intro hCase state' hMem
        rcases List.mem_cons.mp hMem with rfl | hMem
        · exact hFirst.known hCase _ List.mem_cons_self
        · have hNone := hRest.known hCase state' hMem
          rw [hFirst.entry] at hNone
          split at hNone
          · cases hNone
          · exact hNone

------------------------------------------------------------
-- Items and their places
------------------------------------------------------------

theorem mem_allSpecs
    {g : Grammar}
    {sec : TokenSection}
    {spec : TokenSpec}
    {i j : Nat} :
    (sec, spec, (i, j)) ∈ allSpecs g ↔
      g.sections[i]? = some sec ∧ sec.specs[j]? = some spec := by
  rw [allSpecs_eq, List.mem_flatMap]
  constructor
  · intro hMem
    rcases hMem with ⟨⟨sec', k⟩, hSection, hItem⟩
    rcases List.mem_map.mp hItem with ⟨⟨spec', l⟩, hSpec, hEq⟩
    simp only [Prod.mk.injEq] at hEq
    rcases hEq with ⟨rfl, rfl, rfl, rfl⟩
    rw [List.mem_zipIdx_iff_getElem?] at hSection hSpec
    rw [Array.getElem?_toList] at hSection
    exact ⟨hSection, hSpec⟩
  · intro hAt
    refine ⟨(sec, i), ?_, List.mem_map.mpr
      ⟨(spec, j), ?_, rfl⟩⟩
    · rw [List.mem_zipIdx_iff_getElem?, Array.getElem?_toList]
      exact hAt.1
    · rw [List.mem_zipIdx_iff_getElem?]
      exact hAt.2

/- Items at one place are one item. -/
theorem eq_of_place_eq
    {g : Grammar}
    {e e' : Item}
    (hFirst : e ∈ allSpecs g)
    (hSecond : e' ∈ allSpecs g)
    (hPlace : e.2.2 = e'.2.2) :
    e = e' := by
  rcases e with ⟨sec, spec, i, j⟩
  rcases e' with ⟨sec', spec', i', j'⟩
  cases hPlace
  rw [mem_allSpecs] at hFirst hSecond
  have hSec : sec = sec' :=
    Option.some.inj (hFirst.1.symm.trans hSecond.1)
  subst hSec
  have hSpec : spec = spec' :=
    Option.some.inj (hFirst.2.symm.trans hSecond.2)
  rw [hSpec]

/- Items of a settled grammar come from its own items. -/
theorem mem_itemsBefore_size
    {g : Grammar}
    {e : Item} :
    e ∈ itemsBefore g g.sections.size ↔
      ∃ sec, (sec, e.2) ∈ allSpecs g ∧ e.1 = settled g sec := by
  rcases e with ⟨sec, spec, i, j⟩
  rw [itemsBefore_size, mem_allSpecs]
  constructor
  · intro hAt
    rcases hAt with ⟨hSection, hSpec⟩
    rw [Array.getElem?_map, Option.map_eq_some_iff] at hSection
    rcases hSection with ⟨sec', hSection, rfl⟩
    exact ⟨sec', mem_allSpecs.mpr ⟨hSection, hSpec⟩, rfl⟩
  · intro hFrom
    rcases hFrom with ⟨sec', hMem, hSettled⟩
    rw [mem_allSpecs] at hMem
    dsimp only at hSettled
    rw [hSettled]
    refine ⟨?_, hMem.2⟩
    rw [Array.getElem?_map, hMem.1]
    rfl

theorem eq_of_place_eq_before
    {g : Grammar}
    {e e' : Item}
    (hFirst : e ∈ itemsBefore g g.sections.size)
    (hSecond : e' ∈ itemsBefore g g.sections.size)
    (hPlace : e.2.2 = e'.2.2) :
    e.2.1 = e'.2.1 := by
  rcases mem_itemsBefore_size.mp hFirst with ⟨sec, hMem, -⟩
  rcases mem_itemsBefore_size.mp hSecond with ⟨sec', hMem', -⟩
  have hSame := eq_of_place_eq hMem hMem' hPlace
  rw [(Prod.mk.inj hSame).2]

/- What numbering expects of the entries of a grammar. -/
structure Listable
    (g : Grammar) : Prop where
  inside : ∀ e ∈ allSpecs g, e.2.1.regex < g.regexes.size
  cases :
    ∀ e ∈ allSpecs g,
      ignoresCase g e.2.1.regex = e.1.ignoreCase
  states : ∀ e ∈ allSpecs g, g.statesIn e.1 ≠ []
  implied :
    ∀ e ∈ allSpecs g, e.1.explicit = false →
      e.1.states = some [defaultState] ∧ e.1.ignoreCase = false

/- The items that stand for kinds of their own. -/
def kept
    (g : Grammar)
    (marked : List SpecPos)
    (items : List Item) : List Item :=
  (unmarked marked items).filter fun e =>
    !isReference (g.regex e.2.1.regex)

theorem mem_kept
    {g : Grammar}
    {marked : List SpecPos}
    {items : List Item}
    {e : Item} :
    e ∈ kept g marked items ↔
      (e ∈ items ∧ e.2.2 ∉ marked) ∧
        isReference (g.regex e.2.1.regex) = false := by
  unfold kept
  rw [List.mem_filter, mem_unmarked]
  simp

theorem kept_snoc_waits
    {g : Grammar}
    {marked : List SpecPos}
    (items : List Item)
    {e : Item}
    (hReference : isReference (g.regex e.2.1.regex) = true) :
    kept g marked (items ++ [e]) = kept g marked items := by
  unfold kept unmarked
  rw [List.filter_append, List.filter_append]
  simp [hReference]

theorem kept_snoc_takes
    {g : Grammar}
    {marked : List SpecPos}
    (items : List Item)
    {e : Item}
    (hReference : isReference (g.regex e.2.1.regex) = false)
    (hUnmarked : e.2.2 ∉ marked) :
    kept g marked (items ++ [e]) =
      kept g marked items ++ [e] := by
  unfold kept unmarked
  rw [List.filter_append, List.filter_append]
  congr 1
  simp [hReference, hUnmarked]

theorem kept_snoc_joins
    {g : Grammar}
    {marked : List SpecPos}
    {items : List Item}
    {e : Item}
    (hPlace : ∀ e' ∈ items, e'.2.2 ≠ e.2.2) :
    kept g (e.2.2 :: marked) (items ++ [e]) =
      kept g marked items := by
  unfold kept unmarked
  rw [List.filter_append, List.filter_append]
  have hLast : ([e].filter fun e' : Item =>
      !(e.2.2 :: marked).contains e'.2.2) = [] := by
    simp
  rw [hLast, List.filter_nil, List.append_nil]
  congr 1
  apply List.filter_congr
  intro e' he'
  simp [hPlace e' he']

------------------------------------------------------------
-- What becomes of an item
------------------------------------------------------------

/- An item gets the next kind. -/
structure Takes
    (sec : TokenSection)
    (id : RegexId)
    (n n' : Numbering) : Prop where
  marked : n'.marked = n.marked
  kind : n'.kindOf id = n.session.tokenCount
  count : n'.session.tokenCount = n.session.tokenCount + 1
  table :
    n'.session.regexesOfTokens =
      Assoc.alterSorted n.session.tokenCount
        (fun old => old.getD id) n.session.regexesOfTokens
  entered :
    ∀ state image r, entry? n'.session state image = some r →
      entry? n.session state image = some r ∨
        r = id ∧ (n.grammar.regex id).form = .literal image
  kept :
    ∀ state image r, entry? n.session state image = some r →
      entry? n'.session state image = some r ∨
        entry? n'.session state image = some id ∧
          sec.ignoreCase = true
  inline :
    sec.explicit = false → ∀ image,
      (n.grammar.regex id).form = .literal image →
      entry? n.session defaultState image = none ∧
        entry? n'.session defaultState image = some id

/- An item shares the kind of a known literal. -/
structure Joins
    (sec : TokenSection)
    (id : RegexId)
    (pos : SpecPos)
    (n n' : Numbering) : Prop where
  implied : sec.explicit = false
  marked : n'.marked = pos :: n.marked
  count : n'.session.tokenCount = n.session.tokenCount
  table :
    n'.session.regexesOfTokens =
      Assoc.alterSorted (n'.kindOf id)
        (fun old => old.getD id) n.session.regexesOfTokens
  entries :
    ∀ state image,
      entry? n'.session state image =
        entry? n.session state image
  known :
    ∃ image existing,
      (n.grammar.regex id).form = .literal image ∧
      entry? n.session defaultState image = some existing ∧
      ignoresCase n.grammar existing = false ∧
      n'.kindOf id = n.kindOf existing

theorem Enters.takes
    {sec : TokenSection}
    {image : String}
    {id : RegexId}
    {states : List String}
    {n n' : Numbering}
    (hEnters : Enters sec image id states n n')
    (hForm : (n.grammar.regex id).form = .literal image)
    (hStates : states ≠ [])
    (hInline : sec.explicit = false →
      states = [defaultState] ∧ sec.ignoreCase = false)
    (hZero : n.kindOf id = 0) :
    Takes sec id n (enterKind n' id) := by
  rcases hEnters.first hZero hStates with ⟨hKind, hCount⟩
  refine ⟨hEnters.marked, hKind, hCount, ?_, ?_, ?_, ?_⟩
  · rw [← hKind, ← hEnters.table]
    rfl
  · intro state image' r hSome
    change entry? n'.session state image' = some r at hSome
    rw [hEnters.entry] at hSome
    split at hSome
    · next hHere =>
        rw [hHere.2]
        exact .inr ⟨(Option.some.inj hSome).symm, hForm⟩
    · exact .inl hSome
  · intro state image' r hSome
    change entry? n'.session state image' = some r ∨
      entry? n'.session state image' = some id ∧ _
    rw [hEnters.entry]
    split
    · next hHere =>
        refine .inr ⟨rfl, ?_⟩
        by_contra hNot
        have hCase : sec.ignoreCase = false := by
          simpa using hNot
        have hNone := hEnters.known hCase state hHere.1
        rw [hHere.2, hNone] at hSome
        cases hSome
    · exact .inl hSome
  · intro hImplied image' hForm'
    rw [hForm] at hForm'
    cases hForm'
    rcases hInline hImplied with ⟨rfl, hCase⟩
    constructor
    · exact hEnters.known hCase _ List.mem_cons_self
    · change entry? n'.session defaultState image = some id
      rw [hEnters.entry]
      exact if_pos ⟨List.mem_cons_self, rfl⟩

theorem Shares.joins
    {sec : TokenSection}
    {image : String}
    {id : RegexId}
    {pos : SpecPos}
    {n n' : Numbering}
    (hShares : Shares sec image id pos defaultState n n')
    (hForm : (n.grammar.regex id).form = .literal image) :
    Joins sec id pos n (enterKind n' id) := by
  have hSession := hShares.session
  rcases hShares.known with ⟨existing, hEntry, hCase, hKind⟩
  refine ⟨hShares.implied, hShares.marked, ?_, ?_, ?_,
    image, existing, hForm, hEntry, hCase, hKind⟩
  · change n'.session.tokenCount = _
    rw [hSession]
  · rw [← hSession]
    rfl
  · intro state image'
    change entry? n'.session state image' = _
    rw [hSession]

theorem takes_takeKind
    {sec : TokenSection}
    {id : RegexId}
    {n : Numbering}
    (hInside : id < n.grammar.regexes.size)
    (hForm : ∀ image,
      (n.grammar.regex id).form ≠ .literal image) :
    Takes sec id n (enterKind (n.takeKind id) id) := by
  have hKind : (n.takeKind id).kindOf id =
      n.session.tokenCount := by
    unfold Numbering.kindOf Numbering.takeKind
    dsimp only
    rw [Grammar.regex_modifyRegex, if_pos ⟨rfl, hInside⟩]
  refine ⟨rfl, hKind, rfl, ?_, fun _ _ _ h => .inl h,
    fun _ _ _ h => .inl h, ?_⟩
  · rw [← hKind]
    rfl
  · intro _ image hLiteral
    exact absurd hLiteral (hForm image)

theorem steady_enterKind
    (n : Numbering)
    (id : RegexId) :
    n.Steady (enterKind n id) :=
  ⟨rfl, fun _ => rfl⟩

theorem steady_takeKind
    (n : Numbering)
    (id : RegexId) :
    n.Steady (n.takeKind id) :=
  ⟨Grammar.size_modifyRegex _ _ _,
    ignoresCase_modifyRegex n.grammar id _⟩

/- What becomes of an item that is numbered without error. -/
theorem numberSpec_cases
    {sec : TokenSection}
    {states : List String}
    {spec : TokenSpec}
    {pos : SpecPos}
    {n : Numbering}
    (hInside : spec.regex < n.grammar.regexes.size)
    (hCount : 0 < n.session.tokenCount)
    (hStates : states ≠ [])
    (hInline : sec.explicit = false →
      states = [defaultState] ∧ sec.ignoreCase = false)
    (hZero : n.kindOf spec.regex = 0)
    (hClean : (numberSpec sec states n
      (spec, pos)).session.Clean) :
    n.Steady (numberSpec sec states n (spec, pos)) ∧
      (isReference (n.grammar.regex spec.regex) = true ∧
          numberSpec sec states n (spec, pos) = n ∨
        isReference (n.grammar.regex spec.regex) = false ∧
          (Takes sec spec.regex n
              (numberSpec sec states n (spec, pos)) ∨
            Joins sec spec.regex pos n
              (numberSpec sec states n (spec, pos)))) := by
  unfold numberSpec at hClean ⊢
  dsimp only at hClean ⊢
  cases hForm : (n.grammar.regex spec.regex).form with
  | literal image =>
      rw [hForm] at hClean
      dsimp only at hClean ⊢
      have hNot : isReference (n.grammar.regex spec.regex) =
          false := by
        unfold isReference
        rw [hForm]
      cases hExplicit : sec.explicit with
      | true =>
          have hEnters := enters_foldl_numberLiteral hExplicit
            states hInside hCount hClean
          exact ⟨hEnters.steady.trans (steady_enterKind _ _),
            .inr ⟨hNot, .inl
              (hEnters.takes hForm hStates hInline hZero)⟩⟩
      | false =>
          rcases hInline hExplicit with ⟨rfl, -⟩
          rcases numberLiteral_cases hInside hClean with
            hEnters | hShares
          · exact ⟨hEnters.steady.trans (steady_enterKind _ _),
              .inr ⟨hNot, .inl
                (hEnters.takes hForm hStates hInline hZero)⟩⟩
          · exact ⟨hShares.steady.trans (steady_enterKind _ _),
              .inr ⟨hNot, .inr (hShares.joins hForm)⟩⟩
  | reference name target =>
      refine ⟨.refl n, .inl ⟨?_, rfl⟩⟩
      unfold isReference
      rw [hForm]
  | _ =>
      refine ⟨(steady_takeKind n _).trans (steady_enterKind _ _),
        .inr ⟨?_, .inl (takes_takeKind hInside ?_)⟩⟩
      · unfold isReference
        rw [hForm]
      · intro image hLiteral
        rw [hForm] at hLiteral
        cases hLiteral

------------------------------------------------------------
-- Kinds without gaps
------------------------------------------------------------

/- Items of a grammar, with all that numbering leaves of it. -/
structure Placed
    (g : Grammar)
    (n : Numbering)
    (items : List Item) : Prop where
  among : ∀ e ∈ items, e ∈ itemsBefore g g.sections.size
  size : n.grammar.regexes.size = g.regexes.size
  cases : ∀ r, ignoresCase n.grammar r = ignoresCase g r
  forms : ∀ r, (n.grammar.regex r).form = (g.regex r).form
  fresh :
    ∀ r, r ∉ items.map (·.2.1.regex) → n.kindOf r = 0

/-
  What holds once some items have been numbered: the items
  that are kept count up from one, every other literal shares
  the kind of a kept one with its text, and literals of one
  text in productions have one kind.
-/
structure Counted
    (g : Grammar)
    (n : Numbering)
    (items : List Item) : Prop where
  placed : Placed g n items
  marked :
    ∀ pos ∈ n.marked, ∃ e ∈ items, e.2.2 = pos ∧
      isReference (g.regex e.2.1.regex) = false
  positive : 0 < n.session.tokenCount
  kinds :
    (kept g n.marked items).map (n.kindOf ·.2.1.regex) =
      List.range' 1 (n.session.tokenCount - 1)
  table :
    n.session.regexesOfTokens =
      (kept g n.marked items).map fun e =>
        (n.kindOf e.2.1.regex, e.2.1.regex)
  numbered :
    ∀ e ∈ items, isReference (g.regex e.2.1.regex) = false →
      ∃ e' ∈ kept g n.marked items,
        n.kindOf e'.2.1.regex = n.kindOf e.2.1.regex ∧
        (g.regex e'.2.1.regex).form =
          (g.regex e.2.1.regex).form
  entry :
    ∀ state image r, entry? n.session state image = some r →
      (g.regex r).form = .literal image ∧
        ∃ e ∈ kept g n.marked items, e.2.1.regex = r
  inline :
    ∀ e ∈ items, e.1.explicit = false → ∀ image,
      (g.regex e.2.1.regex).form = .literal image →
      ∃ r, entry? n.session defaultState image = some r ∧
        (ignoresCase g r = false →
          n.kindOf r = n.kindOf e.2.1.regex)
  same :
    ∀ e ∈ items, e.1.explicit = false →
    ∀ e' ∈ items, e'.1.explicit = false → ∀ image,
      (g.regex e.2.1.regex).form = .literal image →
      (g.regex e'.2.1.regex).form = .literal image →
      n.kindOf e.2.1.regex = n.kindOf e'.2.1.regex

/- The kinds so far are those below the next one. -/
theorem Counted.mem_kinds
    {g : Grammar}
    {n : Numbering}
    {items : List Item}
    (hCounted : Counted g n items)
    {e : Item}
    (hKept : e ∈ kept g n.marked items) :
    1 ≤ n.kindOf e.2.1.regex ∧
      n.kindOf e.2.1.regex < n.session.tokenCount := by
  have hMem : n.kindOf e.2.1.regex ∈
      (kept g n.marked items).map (n.kindOf ·.2.1.regex) :=
    List.mem_map_of_mem hKept
  rw [hCounted.kinds, List.mem_range'_1,
    Nat.add_sub_cancel' hCounted.positive] at hMem
  exact hMem

/- One kind is that of one kept item. -/
theorem Counted.eq_of_kind_eq
    {g : Grammar}
    {n : Numbering}
    {items : List Item}
    (hCounted : Counted g n items)
    {e e' : Item}
    (hKept : e ∈ kept g n.marked items)
    (hKept' : e' ∈ kept g n.marked items)
    (hKind : n.kindOf e.2.1.regex = n.kindOf e'.2.1.regex) :
    e = e' := by
  have hNodup : ((kept g n.marked items).map
      (n.kindOf ·.2.1.regex)).Nodup := by
    rw [hCounted.kinds]
    exact List.nodup_range'
  exact List.inj_on_of_nodup_map hNodup hKept hKept' hKind

/- Every item but a reference has one of the kinds so far. -/
theorem Counted.kind_bounds
    {g : Grammar}
    {n : Numbering}
    {items : List Item}
    (hCounted : Counted g n items)
    {e : Item}
    (he : e ∈ items)
    (hNot : isReference (g.regex e.2.1.regex) = false) :
    1 ≤ n.kindOf e.2.1.regex ∧
      n.kindOf e.2.1.regex < n.session.tokenCount := by
  rcases hCounted.numbered e he hNot with ⟨e', he', hKind, -⟩
  rw [← hKind]
  exact hCounted.mem_kinds he'

/- Literals in productions have one kind if they have one text. -/
theorem Counted.kind_eq_iff
    {g : Grammar}
    {n : Numbering}
    {items : List Item}
    (hCounted : Counted g n items)
    {e e' : Item}
    (he : e ∈ items)
    (he' : e' ∈ items)
    (hImplied : e.1.explicit = false)
    (hImplied' : e'.1.explicit = false)
    {image image' : String}
    (hForm : (g.regex e.2.1.regex).form = .literal image)
    (hForm' : (g.regex e'.2.1.regex).form = .literal image') :
    n.kindOf e.2.1.regex = n.kindOf e'.2.1.regex ↔
      image = image' := by
  constructor
  · intro hKind
    have hNot : isReference (g.regex e.2.1.regex) = false := by
      unfold isReference
      rw [hForm]
    have hNot' : isReference (g.regex e'.2.1.regex) = false := by
      unfold isReference
      rw [hForm']
    rcases hCounted.numbered e he hNot with
      ⟨k, hk, hSame, hText⟩
    rcases hCounted.numbered e' he' hNot' with
      ⟨k', hk', hSame', hText'⟩
    have hOne := hCounted.eq_of_kind_eq hk hk'
      (hSame.trans (hKind.trans hSame'.symm))
    rw [hOne, hText', hForm, hForm'] at hText
    exact (Regex.literal.inj hText).symm
  · intro hSame
    rw [← hSame] at hForm'
    exact hCounted.same e he hImplied e' he' hImplied' image
      hForm hForm'

section Step

variable {g : Grammar}
variable {n n' : Numbering}
variable {items : List Item}
variable {sec : TokenSection}
variable {spec : TokenSpec}
variable {pos : SpecPos}

theorem Placed.snoc
    (hPlaced : Placed g n items)
    (hItem : (sec, spec, pos) ∈
      itemsBefore g g.sections.size)
    (hMoves : n.Moves spec.regex n')
    (hSteady : n.Steady n') :
    Placed g n' (items ++ [(sec, spec, pos)]) := by
  refine ⟨?_, hSteady.size.trans hPlaced.size, ?_, ?_, ?_⟩
  · intro e he
    rcases List.mem_append.mp he with he | he
    · exact hPlaced.among e he
    · rw [List.mem_singleton.mp he]
      exact hItem
  · intro r
    exact (hSteady.cases r).trans (hPlaced.cases r)
  · intro r
    exact (hMoves.leaves.forms r).trans (hPlaced.forms r)
  · intro r hr
    rw [List.map_append, List.mem_append, not_or] at hr
    have hNe : r ≠ spec.regex := by
      simpa using hr.2
    unfold Numbering.kindOf
    rw [hMoves.others r hNe]
    exact hPlaced.fresh r hr.1

/- The items before keep their kinds. -/
theorem kindOf_before
    (hNew : spec.regex ∉ items.map (·.2.1.regex))
    (hMoves : n.Moves spec.regex n')
    {e : Item}
    (he : e ∈ items) :
    n'.kindOf e.2.1.regex = n.kindOf e.2.1.regex := by
  have hNe : e.2.1.regex ≠ spec.regex := by
    intro hSame
    rw [← hSame] at hNew
    exact hNew (List.mem_map_of_mem he)
  unfold Numbering.kindOf
  rw [hMoves.others _ hNe]

theorem Counted.snoc_waits
    (hCounted : Counted g n items)
    (hPlaced : Placed g n (items ++ [(sec, spec, pos)]))
    (hReference : isReference (g.regex spec.regex) = true) :
    Counted g n (items ++ [(sec, spec, pos)]) := by
  have hKept : kept g n.marked (items ++ [(sec, spec, pos)]) =
      kept g n.marked items :=
    kept_snoc_waits items hReference
  have hNoLiteral : ∀ image,
      (g.regex spec.regex).form ≠ .literal image := by
    intro image hForm
    unfold isReference at hReference
    rw [hForm] at hReference
    cases hReference
  have hOld : ∀ {e : Item} {image : String},
      e ∈ items ++ [(sec, spec, pos)] →
      (g.regex e.2.1.regex).form = .literal image →
      e ∈ items := by
    intro e image he hForm
    rcases List.mem_append.mp he with he | he
    · exact he
    · rw [List.mem_singleton.mp he] at hForm
      exact absurd hForm (hNoLiteral image)
  refine ⟨hPlaced, ?_, hCounted.positive, ?_, ?_, ?_, ?_, ?_,
    ?_⟩
  · intro p hp
    rcases hCounted.marked p hp with ⟨e, he, hRest⟩
    exact ⟨e, List.mem_append_left _ he, hRest⟩
  · rw [hKept]
    exact hCounted.kinds
  · rw [hKept]
    exact hCounted.table
  · intro e he hNot
    rw [hKept]
    rcases List.mem_append.mp he with he | he
    · exact hCounted.numbered e he hNot
    · rw [List.mem_singleton.mp he] at hNot
      rw [hReference] at hNot
      cases hNot
  · rw [hKept]
    exact hCounted.entry
  · intro e he hImplied image hForm
    exact hCounted.inline e (hOld he hForm) hImplied image
      hForm
  · intro e he hImplied e' he' hImplied' image hForm hForm'
    exact hCounted.same e (hOld he hForm) hImplied e'
      (hOld he' hForm') hImplied' image hForm hForm'

section Kept

variable (hCounted : Counted g n items)
variable (hMoves : n.Moves spec.regex n')
variable (hNew : spec.regex ∉ items.map (·.2.1.regex))

include hCounted hMoves hNew

theorem Counted.numbered_snoc
    (hOlder : ∀ e ∈ kept g n.marked items,
      e ∈ kept g n'.marked (items ++ [(sec, spec, pos)]))
    (hLast :
      ∃ e' ∈ kept g n'.marked (items ++ [(sec, spec, pos)]),
        n'.kindOf e'.2.1.regex = n'.kindOf spec.regex ∧
        (g.regex e'.2.1.regex).form =
          (g.regex spec.regex).form)
    {e : Item}
    (he : e ∈ items ++ [(sec, spec, pos)])
    (hNot : isReference (g.regex e.2.1.regex) = false) :
    ∃ e' ∈ kept g n'.marked (items ++ [(sec, spec, pos)]),
      n'.kindOf e'.2.1.regex = n'.kindOf e.2.1.regex ∧
      (g.regex e'.2.1.regex).form =
        (g.regex e.2.1.regex).form := by
  rcases List.mem_append.mp he with he | he
  · rcases hCounted.numbered e he hNot with
      ⟨e', he', hKind, hForm⟩
    refine ⟨e', hOlder e' he', ?_, hForm⟩
    rw [kindOf_before hNew hMoves (mem_kept.mp he').1.1, hKind]
    exact (kindOf_before hNew hMoves he).symm
  · rw [List.mem_singleton.mp he]
    exact hLast

theorem Counted.inline_snoc
    (hEntries : ∀ image r,
      entry? n.session defaultState image = some r →
        entry? n'.session defaultState image = some r ∨
          ∃ r', entry? n'.session defaultState image =
            some r' ∧ ignoresCase g r' = true)
    (hLast : sec.explicit = false → ∀ image,
      (g.regex spec.regex).form = .literal image →
      ∃ r, entry? n'.session defaultState image = some r ∧
        (ignoresCase g r = false →
          n'.kindOf r = n'.kindOf spec.regex))
    {e : Item}
    (he : e ∈ items ++ [(sec, spec, pos)])
    (hImplied : e.1.explicit = false)
    {image : String}
    (hForm : (g.regex e.2.1.regex).form = .literal image) :
    ∃ r, entry? n'.session defaultState image = some r ∧
      (ignoresCase g r = false →
        n'.kindOf r = n'.kindOf e.2.1.regex) := by
  rcases List.mem_append.mp he with he | he
  · rcases hCounted.inline e he hImplied image hForm with
      ⟨r, hSome, hKind⟩
    rcases hEntries image r hSome with
      hStays | ⟨r', hOver, hIgnores⟩
    · refine ⟨r, hStays, fun hRegards => ?_⟩
      rcases hCounted.entry _ _ _ hSome with
        ⟨-, e', he', rfl⟩
      rw [kindOf_before hNew hMoves (mem_kept.mp he').1.1,
        hKind hRegards]
      exact (kindOf_before hNew hMoves he).symm
    · refine ⟨r', hOver, fun hRegards => ?_⟩
      rw [hIgnores] at hRegards
      cases hRegards
  · rw [List.mem_singleton.mp he] at hImplied hForm ⊢
    exact hLast hImplied image hForm

theorem Counted.same_snoc
    (hLast : sec.explicit = false → ∀ image,
      (g.regex spec.regex).form = .literal image →
      ∀ e ∈ items, e.1.explicit = false →
        (g.regex e.2.1.regex).form = .literal image →
        n'.kindOf e.2.1.regex = n'.kindOf spec.regex)
    {e e' : Item}
    (he : e ∈ items ++ [(sec, spec, pos)])
    (he' : e' ∈ items ++ [(sec, spec, pos)])
    (hImplied : e.1.explicit = false)
    (hImplied' : e'.1.explicit = false)
    {image : String}
    (hForm : (g.regex e.2.1.regex).form = .literal image)
    (hForm' : (g.regex e'.2.1.regex).form = .literal image) :
    n'.kindOf e.2.1.regex = n'.kindOf e'.2.1.regex := by
  rcases List.mem_append.mp he with he | he
  · rcases List.mem_append.mp he' with he' | he'
    · rw [kindOf_before hNew hMoves he,
        kindOf_before hNew hMoves he']
      exact hCounted.same e he hImplied e' he' hImplied' image
        hForm hForm'
    · rw [List.mem_singleton.mp he'] at hImplied' hForm' ⊢
      exact hLast hImplied' image hForm' e he hImplied hForm
  · rw [List.mem_singleton.mp he] at hImplied hForm ⊢
    rcases List.mem_append.mp he' with he' | he'
    · exact (hLast hImplied image hForm e' he' hImplied'
        hForm').symm
    · rw [List.mem_singleton.mp he']

end Kept

theorem Counted.snoc_takes
    (hCounted : Counted g n items)
    (hPlaced : Placed g n' (items ++ [(sec, spec, pos)]))
    (hMoves : n.Moves spec.regex n')
    (hNew : spec.regex ∉ items.map (·.2.1.regex))
    (hPlace : ∀ e ∈ items, e.2.2 ≠ pos)
    (hCase : sec.ignoreCase = ignoresCase g spec.regex)
    (hReference : isReference (g.regex spec.regex) = false)
    (hTakes : Takes sec spec.regex n n') :
    Counted g n' (items ++ [(sec, spec, pos)]) := by
  have hForms := hCounted.placed.forms
  have hUnmarked : pos ∉ n.marked := by
    intro hMem
    rcases hCounted.marked pos hMem with ⟨e, he, hSame, -⟩
    exact hPlace e he hSame
  have hKept : kept g n'.marked (items ++ [(sec, spec, pos)]) =
      kept g n.marked items ++ [(sec, spec, pos)] := by
    rw [hTakes.marked]
    exact kept_snoc_takes items hReference hUnmarked
  have hBefore : ∀ e ∈ kept g n.marked items,
      n'.kindOf e.2.1.regex = n.kindOf e.2.1.regex :=
    fun e he => kindOf_before hNew hMoves (mem_kept.mp he).1.1
  have hLast : (sec, spec, pos) ∈
      kept g n'.marked (items ++ [(sec, spec, pos)]) := by
    rw [hKept]
    exact List.mem_append_right _ (List.mem_singleton_self _)
  have hOlder : ∀ e ∈ kept g n.marked items,
      e ∈ kept g n'.marked (items ++ [(sec, spec, pos)]) := by
    intro e he
    rw [hKept]
    exact List.mem_append_left _ he
  have hPositive := hCounted.positive
  refine ⟨hPlaced, ?_, ?_, ?_, ?_, ?_, ?_, ?_, ?_⟩
  · intro p hp
    rw [hTakes.marked] at hp
    rcases hCounted.marked p hp with ⟨e, he, hRest⟩
    exact ⟨e, List.mem_append_left _ he, hRest⟩
  · rw [hTakes.count]
    exact Nat.succ_pos _
  · have hCount : n.session.tokenCount + 1 - 1 =
        (n.session.tokenCount - 1) + 1 := by
      omega
    rw [hKept, List.map_append, hTakes.count, hCount,
      List.range'_1_concat, ← hCounted.kinds]
    congr 1
    · exact List.map_congr_left hBefore
    · rw [List.map_singleton, hTakes.kind,
        Nat.add_sub_cancel' hPositive]
  · have hBelow : ∀ k ∈ n.session.regexesOfTokens.map (·.1),
        k < n.session.tokenCount := by
      intro k hk
      rw [hCounted.table, List.map_map] at hk
      rcases List.mem_map.mp hk with ⟨e, he, rfl⟩
      exact (hCounted.mem_kinds he).2
    rw [hTakes.table, Assoc.alterSorted_last hBelow,
      hCounted.table, hKept, List.map_append]
    congr 1
    · apply List.map_congr_left
      intro e he
      rw [hBefore e he]
    · rw [List.map_singleton, hTakes.kind]
      rfl
  · intro e he hNot
    exact hCounted.numbered_snoc hMoves hNew hOlder
      ⟨_, hLast, rfl, rfl⟩ he hNot
  · intro state image r hSome
    rcases hTakes.entered state image r hSome with
      hOld | ⟨rfl, hForm⟩
    · rcases hCounted.entry state image r hOld with
        ⟨hForm, e, he, hSame⟩
      exact ⟨hForm, e, hOlder e he, hSame⟩
    · rw [hForms] at hForm
      exact ⟨hForm, _, hLast, rfl⟩
  · intro e he hImplied image hForm
    refine hCounted.inline_snoc hMoves hNew ?_ ?_ he hImplied
      hForm
    · intro image r hSome
      rcases hTakes.kept defaultState image r hSome with
        hStays | ⟨hOver, hIgnores⟩
      · exact .inl hStays
      · exact .inr ⟨_, hOver, hCase ▸ hIgnores⟩
    · intro hImplied image hForm
      rw [← hForms] at hForm
      exact ⟨_, (hTakes.inline hImplied image hForm).2,
        fun _ => rfl⟩
  · intro e he hImplied e' he' hImplied' image hForm hForm'
    refine hCounted.same_snoc hMoves hNew ?_ he he' hImplied
      hImplied' hForm hForm'
    -- A literal in a production takes a kind only if its text
    -- is not known, so there is none of its text before it.
    intro hImplied image hForm e he hImplied' hForm'
    rcases hCounted.inline e he hImplied' image hForm' with
      ⟨r, hSome, -⟩
    rw [← hForms] at hForm
    rw [(hTakes.inline hImplied image hForm).1] at hSome
    cases hSome

theorem Counted.snoc_joins
    (hCounted : Counted g n items)
    (hPlaced : Placed g n' (items ++ [(sec, spec, pos)]))
    (hMoves : n.Moves spec.regex n')
    (hNew : spec.regex ∉ items.map (·.2.1.regex))
    (hPlace : ∀ e ∈ items, e.2.2 ≠ pos)
    (hReference : isReference (g.regex spec.regex) = false)
    (hJoins : Joins sec spec.regex pos n n') :
    Counted g n' (items ++ [(sec, spec, pos)]) := by
  have hForms := hCounted.placed.forms
  have hKept : kept g n'.marked (items ++ [(sec, spec, pos)]) =
      kept g n.marked items := by
    rw [hJoins.marked]
    exact kept_snoc_joins (e := (sec, spec, pos)) hPlace
  have hBefore : ∀ e ∈ kept g n.marked items,
      n'.kindOf e.2.1.regex = n.kindOf e.2.1.regex :=
    fun e he => kindOf_before hNew hMoves (mem_kept.mp he).1.1
  rcases hJoins.known with
    ⟨image₀, existing, hForm₀, hKnown, hRegards, hKind₀⟩
  rw [hForms] at hForm₀
  rw [hCounted.placed.cases] at hRegards
  rcases hCounted.entry _ _ _ hKnown with
    ⟨hFormKnown, known, hKnownKept, rfl⟩
  have hText : ∀ image,
      (g.regex spec.regex).form = .literal image →
      image = image₀ := by
    intro image hForm
    rw [hForm₀] at hForm
    exact (Regex.literal.inj hForm).symm
  have hLastKind : n'.kindOf known.2.1.regex =
      n'.kindOf spec.regex := by
    rw [hBefore known hKnownKept]
    exact hKind₀.symm
  refine ⟨hPlaced, ?_, ?_, ?_, ?_, ?_, ?_, ?_, ?_⟩
  · intro p hp
    rw [hJoins.marked] at hp
    rcases List.mem_cons.mp hp with rfl | hp
    · exact ⟨_, List.mem_append_right _
        (List.mem_singleton_self _), rfl, hReference⟩
    · rcases hCounted.marked p hp with ⟨e, he, hRest⟩
      exact ⟨e, List.mem_append_left _ he, hRest⟩
  · rw [hJoins.count]
    exact hCounted.positive
  · rw [hKept, hJoins.count, ← hCounted.kinds]
    exact List.map_congr_left hBefore
  · have hAscending :
        Assoc.Ascending n.session.regexesOfTokens := by
      unfold Assoc.Ascending
      rw [hCounted.table, List.map_map]
      change ((kept g n.marked items).map
        (n.kindOf ·.2.1.regex)).Pairwise _
      rw [hCounted.kinds]
      exact List.pairwise_lt_range'
    have hThere : n'.kindOf spec.regex ∈
        n.session.regexesOfTokens.map (·.1) := by
      rw [hKind₀, hCounted.table, List.map_map]
      exact List.mem_map.mpr ⟨known, hKnownKept, rfl⟩
    rw [hJoins.table, Assoc.alterSorted_getD hAscending hThere,
      hCounted.table, hKept]
    apply List.map_congr_left
    intro e he
    rw [hBefore e he]
  · intro e he hNot
    refine hCounted.numbered_snoc hMoves hNew ?_ ?_ he hNot
    · rw [hKept]
      exact fun e he => he
    · rw [hKept]
      exact ⟨known, hKnownKept, hLastKind,
        hFormKnown.trans hForm₀.symm⟩
  · intro state image r hSome
    rw [hJoins.entries] at hSome
    rw [hKept]
    exact hCounted.entry state image r hSome
  · intro e he hImplied image hForm
    refine hCounted.inline_snoc hMoves hNew ?_ ?_ he hImplied
      hForm
    · intro image r hSome
      rw [hJoins.entries]
      exact .inl hSome
    · intro _ image hForm
      rw [hJoins.entries, hText image hForm]
      exact ⟨_, hKnown, fun _ => hLastKind⟩
  · intro e he hImplied e' he' hImplied' image hForm hForm'
    refine hCounted.same_snoc hMoves hNew ?_ he he' hImplied
      hImplied' hForm hForm'
    -- The literals of this text in productions have its kind.
    intro _ image hForm e he hImplied hForm'
    rw [hText image hForm] at hForm'
    rcases hCounted.inline e he hImplied image₀ hForm' with
      ⟨r, hSome, hKind⟩
    rw [hKnown] at hSome
    cases hSome
    rw [hKind₀, hKind hRegards]
    exact kindOf_before hNew hMoves he

end Step

/- Every item of a grammar keeps the count. -/
theorem sustained_counted
    {g : Grammar}
    (hListable : Listable g) :
    Sustained g (Counted g) where
  settle := by
    intro n items i hBefore
    have hPlaced := hBefore.placed
    refine ⟨⟨hPlaced.among, hPlaced.size, ?_, hPlaced.forms,
      hPlaced.fresh⟩, hBefore.marked, hBefore.positive,
      hBefore.kinds, hBefore.table, hBefore.numbered,
      hBefore.entry, hBefore.inline, hBefore.same⟩
    intro r
    rw [← hPlaced.cases]
    refine ignoresCase_congr ?_ ?_
    · rfl
    · intro k
      rw [Grammar.tokenSection_modifySection]
      split
      · next hSame => rw [hSame.1]
      · rfl
  step := by
    intro n items sec states spec pos hItem hStates hNew hClean
      hBefore
    have hPlaced := hBefore.placed
    rcases mem_itemsBefore_size.mp hItem with
      ⟨sec₀, hMem, hSettled⟩
    dsimp only at hSettled
    have hInside : spec.regex < n.grammar.regexes.size := by
      rw [hPlaced.size]
      exact hListable.inside _ hMem
    have hSome : states = g.statesIn sec₀ := by
      rw [hSettled] at hStates
      exact (Option.some.inj hStates).symm
    have hFilled : states ≠ [] := by
      rw [hSome]
      exact hListable.states _ hMem
    have hInline : sec.explicit = false →
        states = [defaultState] ∧ sec.ignoreCase = false := by
      intro hImplied
      rw [hSettled] at hImplied
      have hIs := hListable.implied _ hMem hImplied
      dsimp only at hIs
      constructor
      · rw [hSome]
        unfold Grammar.statesIn
        rw [hIs.1]
        rfl
      · rw [hSettled]
        exact hIs.2
    have hCase : sec.ignoreCase = ignoresCase g spec.regex := by
      rw [hSettled]
      exact (hListable.cases _ hMem).symm
    have hPlace : ∀ e ∈ items, e.2.2 ≠ pos := by
      intro e he hSame
      have hSpec := eq_of_place_eq_before (hPlaced.among e he)
        hItem hSame
      dsimp only at hSpec
      rw [← hSpec] at hNew
      exact hNew (List.mem_map_of_mem he)
    have hMoves := (numbered_numberSpec hClean).2.1
    have hReference :
        isReference (n.grammar.regex spec.regex) =
          isReference (g.regex spec.regex) := by
      unfold isReference
      rw [hPlaced.forms]
    rcases numberSpec_cases hInside hBefore.positive hFilled
        hInline (hPlaced.fresh _ hNew) hClean with
      ⟨hSteady, hCases⟩
    have hPlaced' := hPlaced.snoc hItem hMoves hSteady
    rw [hReference] at hCases
    rcases hCases with ⟨hIs, hSame⟩ | ⟨hNot, hTakes | hJoins⟩
    · rw [hSame] at hPlaced' ⊢
      exact hBefore.snoc_waits hPlaced' hIs
    · exact hBefore.snoc_takes hPlaced' hMoves hNew hPlace
        hCase hNot hTakes
    · exact hBefore.snoc_joins hPlaced' hMoves hNew hPlace
        hNot hJoins

end TokenTable

end Descent
