import Descent.Proofs.ActiveKinds
import Descent.Proofs.FoldedStates
import Descent.Proofs.Subset
import Descent.Proofs.Units

/-
  The lexical states of a grammar that passes analysis.

  The kinds of a state are divided between the table of
  literals, the automaton and the wildcard.  Together they
  match what the expressions of the kinds match, and where
  several wildcards match only the smallest can be chosen.

  Main declarations:
    * `Lexer.activeMatches`
    * `Lexer.recognizes_tablesOf`
    * `Lexer.composed_tablesOf` and `Lexer.exact_tablesOf`
    * `Lexer.sameLeast_oneOf` and
      `Lexer.sameLeast_activeMatches`
-/

------------------------------------------------------------
-- Active kinds and their parts
------------------------------------------------------------

namespace Descent

open Text (maxUnit)

namespace Lexer

/- What the kinds of a state match. -/
def activeMatches
    (g : Grammar)
    (ignoreCase : Bool)
    (active : List Active) : Matching :=
  fun k w => ∃ a ∈ active, a.kind = k ∧
    Matches g (a.ignoreCase || ignoreCase) [] a.regex w

/- What the automaton of a state matches. -/
def automatonMatches
    (g : Grammar)
    (ignoreCase mixed : Bool)
    (active : List Active) : Matching :=
  fun k w =>
    ∃ e ∈ automatonKinds g ignoreCase mixed active,
      e.2.1 = k ∧ Matches g e.2.2 [] e.1 w

/- Active kinds as they are after analysis. -/
structure Orderly
    (g : Grammar)
    (active : List Active) : Prop where
  distinct : (active.map (·.kind)).Nodup
  positive : ∀ a ∈ active, a.kind ≠ 0
  below : ∀ a ∈ active, a.kind < noKind
  literals :
    ∀ a ∈ active, ∀ a' ∈ active,
      a.ignoreCase = false → a'.ignoreCase = false →
      ∀ image, (g.regex a.regex).form = .literal image →
        (g.regex a'.regex).form = .literal image → a = a'

/- Not all literals of a state ignore case. -/
def CaseCounts
    (g : Grammar)
    (active : List Active) : Prop :=
  literalsOf g active ≠ [] →
    ∃ l ∈ literalsOf g active, l.ignoreCase = false

theorem tableImage?_eq_some_iff
    (r : RegexNode)
    (image : String) :
    tableImage? r = some image ↔
      r.form = .literal image ∧ image ≠ "" := by
  unfold tableImage? RegexNode.literal?
  cases r.form with
  | literal image' =>
      rw [Option.filter_eq_some_iff]
      simp only [Option.some_inj, Regex.literal.injEq,
        Bool.not_eq_true', String.isEmpty_eq_false_iff]
  | _ => simp

theorem matchesAnyChar_iff
    (r : RegexNode) :
    r.matchesAnyChar = true ↔ r.form = .chars true [] := by
  unfold RegexNode.matchesAnyChar
  split
  · next hForm => simp [hForm]
  · next hForm =>
      refine ⟨fun h => (by cases h), fun h => ?_⟩
      exact absurd h hForm

theorem mem_literalsOf
    (g : Grammar)
    (active : List Active)
    (l : Literal) :
    l ∈ literalsOf g active ↔
      ∃ a ∈ active, ∃ image,
        (g.regex a.regex).form = .literal image ∧
          image ≠ "" ∧
          l = ⟨a.kind, Text.units image, a.ignoreCase⟩ := by
  unfold literalsOf
  rw [List.mem_filterMap]
  constructor
  · intro hSome
    rcases hSome with ⟨a, ha, hMap⟩
    rcases Option.map_eq_some_iff.mp hMap with
      ⟨image, hImage, rfl⟩
    rcases (tableImage?_eq_some_iff _ _).mp hImage with
      ⟨hForm, hNonempty⟩
    exact ⟨a, ha, image, hForm, hNonempty, rfl⟩
  · intro hSome
    rcases hSome with ⟨a, ha, image, hForm, hNonempty, rfl⟩
    refine ⟨a, ha, ?_⟩
    rw [(tableImage?_eq_some_iff _ _).mpr ⟨hForm, hNonempty⟩]
    rfl

/- The kinds of literals are among those that are active. -/
theorem kinds_literalsOf
    (g : Grammar)
    (active : List Active) :
    ((literalsOf g active).map (·.kind)).Sublist
      (active.map (·.kind)) := by
  have hKinds : (literalsOf g active).map (·.kind) =
      (active.filter fun a =>
        (tableImage? (g.regex a.regex)).isSome).map
          (·.kind) := by
    unfold literalsOf
    rw [List.map_filterMap, ← List.filterMap_eq_map,
      List.filterMap_filter]
    apply List.filterMap_congr
    intro a _
    cases tableImage? (g.regex a.regex) with
    | none => rfl
    | some image => rfl
  rw [hKinds]
  exact List.filter_sublist.map _

theorem mem_automatonKinds
    (g : Grammar)
    (ignoreCase mixed : Bool)
    (active : List Active)
    (e : RegexId × Kind × Bool) :
    e ∈ automatonKinds g ignoreCase mixed active ↔
      ∃ a ∈ active,
        (g.regex a.regex).form ≠ .chars true [] ∧
        (mixed = false → ∀ image,
          (g.regex a.regex).form = .literal image →
            image = "") ∧
        e = (a.regex, a.kind, a.ignoreCase || ignoreCase) := by
  unfold automatonKinds
  rw [List.mem_filterMap]
  refine exists_congr fun a => and_congr_right fun ha => ?_
  dsimp only
  rw [Option.ite_none_left_eq_some]
  simp only [Bool.or_eq_true, Bool.and_eq_true,
    Bool.not_eq_true', not_or, matchesAnyChar_iff,
    Option.some_inj]
  rw [and_assoc]
  refine and_congr_right fun _ => ?_
  refine and_congr ?_ eq_comm
  rw [not_and', Option.isSome_iff_exists]
  refine imp_congr_right fun _ => ?_
  constructor
  · intro hNone image hForm
    by_contra hNonempty
    exact hNone ⟨image, (tableImage?_eq_some_iff _ _).mpr
      ⟨hForm, hNonempty⟩⟩
  · intro hEmpty hSome
    rcases hSome with ⟨image, hImage⟩
    rcases (tableImage?_eq_some_iff _ _).mp hImage with
      ⟨hForm, hNonempty⟩
    exact hNonempty (hEmpty image hForm)

------------------------------------------------------------
-- The automaton
------------------------------------------------------------

section Tables

variable {g : Grammar} {active : List Active}
variable {name : String} {index : Nat}

/- What the automaton of a state accepts is the least kind. -/
theorem accept_tablesOf
    (hTree : g.RegexTree)
    (ignoreCase : Bool)
    {w : List Nat}
    (hUnits : IsUnits w)
    {q : Nat}
    (hReads : (tablesOf g ignoreCase name index
      active).reads w = some q)
    (k : Nat) :
    (tablesOf g ignoreCase name index active).dfa.accept? q =
        some k ↔
      IsLeast { k | automatonMatches g ignoreCase
        (isMixed (literalsOf g active)) active k w } k := by
  let kinds := automatonKinds g ignoreCase
    (isMixed (literalsOf g active)) active
  have hEnters := Thompson.enters_ofKinds hTree kinds
  have hLeast := Dfa.accept_of_run hEnters.inRange
    hEnters.start hUnits hReads k
  have hSets : { k | (Thompson.ofKinds g kinds).Accepts k w } =
      { k | automatonMatches g ignoreCase
        (isMixed (literalsOf g active)) active k w } := by
    ext k
    exact Thompson.accepts_ofKinds hTree kinds k w
  rw [← hSets]
  exact hLeast

/- The automaton of a state recognizes its kinds. -/
theorem recognizes_tablesOf
    (hTree : g.RegexTree)
    (ignoreCase : Bool)
    (hBelow : ∀ a ∈ active, a.kind < noKind) :
    (tablesOf g ignoreCase name index active).Recognizes
      (automatonMatches g ignoreCase
        (isMixed (literalsOf g active)) active) := by
  let kinds := automatonKinds g ignoreCase
    (isMixed (literalsOf g active)) active
  let m := Thompson.ofKinds g kinds
  have hEnters := Thompson.enters_ofKinds hTree kinds
  have hAccepts : ∀ k w, m.Accepts k w ↔
      automatonMatches g ignoreCase
        (isMixed (literalsOf g active)) active k w :=
    Thompson.accepts_ofKinds hTree kinds
  constructor
  · intro w hUnits q hReads k
    exact accept_tablesOf hTree ignoreCase hUnits hReads k
  · intro w hUnits hReads k hMatches
    exact Dfa.not_accepts_of_run hEnters.inRange
      hEnters.start hUnits hReads k ((hAccepts k w).mpr
        hMatches)
  · intro hIdle c hUnit
    exact Dfa.step_of_hasMoves_false hEnters.inRange
      hEnters.start hIdle hUnit
  · intro k w hMatches
    rcases hMatches with ⟨e, he, rfl, -⟩
    rcases (mem_automatonKinds g _ _ _ e).mp he with
      ⟨a, ha, -, -, rfl⟩
    exact hBelow a ha

------------------------------------------------------------
-- The table of literals
------------------------------------------------------------

/- The literals that are kept in the table. -/
def tableLiterals
    (g : Grammar)
    (active : List Active) : List Literal :=
  if isMixed (literalsOf g active) then []
  else literalsOf g active

theorem mem_tableLiterals
    {l : Literal}
    (hl : l ∈ tableLiterals g active) :
    isMixed (literalsOf g active) = false ∧
      l ∈ literalsOf g active := by
  unfold tableLiterals at hl
  split at hl
  · cases hl
  · next hMixed => exact ⟨by simpa using hMixed, hl⟩

/- Kinds in the table are apart if those of the state are. -/
theorem distinct_tableLiterals
    (hDistinct : (active.map (·.kind)).Nodup) :
    ((tableLiterals g active).map (·.kind)).Nodup := by
  unfold tableLiterals
  split
  · exact List.nodup_nil
  · exact (kinds_literalsOf g active).nodup hDistinct

/- What the automaton knows is all that a table is given. -/
theorem literals_tablesOf
    (g : Grammar)
    (ignoreCase : Bool)
    (name : String)
    (index : Nat)
    (active : List Active) :
    let st := tablesOf g ignoreCase name index active
    let table := LiteralTable.build (tableLiterals g active)
      ignoreCase (isMixed (literalsOf g active))
    st.literals = table ∨
      st.literals =
        table.withResume st.dfa st.alphabet st.anyChar := by
  unfold tablesOf
  dsimp only
  split
  · exact .inr rfl
  · exact .inl rfl

/- Where case counts, it counts for all literals in the table. -/
theorem sensitive_tableLiterals
    (hCase : CaseCounts g active)
    {l : Literal}
    (hl : l ∈ tableLiterals g active) :
    l.ignoreCase = false := by
  rcases mem_tableLiterals hl with ⟨hMixed, hMem⟩
  by_contra hIgnores
  rw [Bool.not_eq_false] at hIgnores
  rcases hCase (List.ne_nil_of_mem hMem) with
    ⟨l', hl', hCounts⟩
  unfold isMixed at hMixed
  rw [Bool.and_eq_false_iff] at hMixed
  rcases hMixed with hNone | hNone
  · rw [List.any_eq_false] at hNone
    exact hNone l hMem hIgnores
  · rw [List.any_eq_false] at hNone
    apply hNone l' hl'
    rw [hCounts]
    rfl

/- The wildcard of a state. -/
theorem anyChar_tablesOf
    (ignoreCase : Bool)
    (k : Nat) :
    (tablesOf g ignoreCase name index active).anyChar =
        some k ↔
      IsLeast
        { k | ∃ a ∈ active, a.kind = k ∧
          (g.regex a.regex).form = .chars true [] } k := by
  have hMem : ∀ j, (j ∈ active.filterMap fun a =>
      if (g.regex a.regex).matchesAnyChar then some a.kind
      else none) ↔ ∃ a ∈ active, a.kind = j ∧
        (g.regex a.regex).form = .chars true [] := by
    intro j
    rw [List.mem_filterMap]
    refine exists_congr fun a => and_congr_right fun _ => ?_
    rw [Option.ite_none_right_eq_some, Option.some_inj,
      matchesAnyChar_iff, and_comm]
  unfold tablesOf
  dsimp only
  rw [List.min?_eq_some_iff]
  constructor
  · intro hMin
    refine ⟨(hMem k).mp hMin.1, ?_⟩
    intro j hj
    exact hMin.2 j ((hMem j).mpr hj)
  · intro hLeast
    refine ⟨(hMem k).mpr hLeast.1, ?_⟩
    intro j hj
    exact hLeast.2 ((hMem j).mp hj)

/- All literals in the table ignore case, or none does. -/
theorem alike_tableLiterals
    {l l' : Literal}
    (hl : l ∈ tableLiterals g active)
    (hl' : l' ∈ tableLiterals g active) :
    l.ignoreCase = l'.ignoreCase := by
  rcases mem_tableLiterals hl with ⟨hMixed, hMem⟩
  have hMem' := (mem_tableLiterals hl').2
  unfold isMixed at hMixed
  rw [Bool.and_eq_false_iff, List.any_eq_false,
    List.any_eq_false] at hMixed
  rcases hMixed with hNone | hAll
  · have hNot := hNone l hMem
    have hNot' := hNone l' hMem'
    rw [Bool.not_eq_true] at hNot hNot'
    exact hNot.trans hNot'.symm
  · have hIgnores := hAll l hMem
    have hIgnores' := hAll l' hMem'
    rw [Bool.not_eq_true, Bool.not_eq_false'] at hIgnores
    rw [Bool.not_eq_true, Bool.not_eq_false'] at hIgnores'
    exact hIgnores.trans hIgnores'.symm

/- A state is made of literals, an automaton and a wildcard. -/
theorem composed_tablesOf
    (hTree : g.RegexTree)
    (ignoreCase : Bool)
    (hOrderly : Orderly g active) :
    (tablesOf g ignoreCase name index active).Composed
      ignoreCase (tableLiterals g active)
      (automatonMatches g ignoreCase
        (isMixed (literalsOf g active)) active) where
  recognizes :=
    recognizes_tablesOf hTree ignoreCase hOrderly.below
  table := rfl
  mixed hMixed := if_pos hMixed
  alike l hl l' hl' := alike_tableLiterals hl hl'
  numbered := by
    constructor
    · exact distinct_tableLiterals hOrderly.distinct
    · intro l hl
      rcases (mem_literalsOf g active l).mp
          (mem_tableLiterals hl).2 with
        ⟨a, ha, image, -, -, rfl⟩
      exact hOrderly.below a ha
  images l hl l' hl' hCounts hImage := by
    have hCounts' :=
      (alike_tableLiterals hl hl').symm.trans hCounts
    rcases (mem_literalsOf g active l).mp
        (mem_tableLiterals hl).2 with
      ⟨a, ha, image, hForm, -, rfl⟩
    rcases (mem_literalsOf g active l').mp
        (mem_tableLiterals hl').2 with
      ⟨a', ha', image', hForm', -, rfl⟩
    have hText : image = image' :=
      Text.units_injective hImage
    subst hText
    rw [hOrderly.literals a ha a' ha' hCounts hCounts' image
      hForm hForm']
  nonempty l hl := by
    rcases (mem_literalsOf g active l).mp
        (mem_tableLiterals hl).2 with
      ⟨a, -, image, -, hNonempty, rfl⟩
    exact Text.units_ne_nil hNonempty
  units l hl := by
    rcases (mem_literalsOf g active l).mp
        (mem_tableLiterals hl).2 with
      ⟨a, -, image, -, -, rfl⟩
    exact Text.units_le image
  anyBelow k hk := by
    rcases ((anyChar_tablesOf ignoreCase k).mp hk).1 with
      ⟨a, ha, rfl, -⟩
    exact hOrderly.below a ha

/- A state in which case counts is made of literals and more. -/
theorem exact_tablesOf
    (hTree : g.RegexTree)
    (hOrderly : Orderly g active)
    (hCase : CaseCounts g active) :
    (tablesOf g false name index active).Exact
      (tableLiterals g active)
      (automatonMatches g false
        (isMixed (literalsOf g active)) active) :=
  (composed_tablesOf hTree false hOrderly).exact
    fun _ hl => sensitive_tableLiterals hCase hl

------------------------------------------------------------
-- All kinds together
------------------------------------------------------------

theorem spells_false_iff
    (image text : List Nat) :
    Spells false image text ↔ text = image := by
  unfold Spells unitForms
  simp only [Bool.false_eq_true, if_false,
    List.mem_singleton]
  have hFlip : List.Forall₂ (fun c d : Nat => d = c) image
      text ↔ List.Forall₂ (fun c d => c = d) image text := by
    simp only [eq_comm]
  rw [hFlip, List.forall₂_eq_eq_eq, eq_comm]

theorem matches_literal_iff_spells
    {id : RegexId}
    {ignoreCase : Bool}
    {image : String}
    (hForm : (g.regex id).form = .literal image)
    (w : List Nat) :
    Matches g ignoreCase [] id w ↔
      Spells ignoreCase (Text.units image) w := by
  have hLanguage := @languageOf_literal g ignoreCase [] id image
    hForm
  rw [← mem_languageOf, hLanguage]
  exact Iff.rfl

theorem matches_literal_iff
    {id : RegexId}
    {image : String}
    (hForm : (g.regex id).form = .literal image)
    (w : List Nat) :
    Matches g false [] id w ↔ w = Text.units image :=
  (matches_literal_iff_spells hForm w).trans
    (spells_false_iff _ _)

theorem matches_wildcard_iff
    {id : RegexId}
    {ignoreCase : Bool}
    (hForm : (g.regex id).form = .chars true [])
    {w : List Nat}
    (hUnits : IsUnits w) :
    Matches g ignoreCase [] id w ↔ w.length = 1 := by
  have hLanguage := @languageOf_chars g ignoreCase [] id true
    [] hForm
  rw [← mem_languageOf, hLanguage]
  constructor
  · intro hw
    rcases hw with ⟨c, -, rfl⟩
    rfl
  · intro hLength
    rcases List.length_eq_one_iff.mp hLength with ⟨c, rfl⟩
    refine ⟨c, ⟨hUnits c List.mem_cons_self, ?_⟩, rfl⟩
    simp [InItems]

/- What the parts of a state match, its kinds match. -/
theorem activeMatches_of_oneOf
    {ignoreCase : Bool}
    {k : Nat}
    {w : List Nat}
    (hUnits : IsUnits w)
    (hParts : (tablesOf g ignoreCase name index active).OneOf
      (LexState.SpelledIn ignoreCase (tableLiterals g active))
      (automatonMatches g ignoreCase
        (isMixed (literalsOf g active)) active) k w) :
    activeMatches g ignoreCase active k w := by
  rcases hParts with ⟨l, hl, rfl, hSpells⟩ | ⟨e, he, rfl, hw⟩ |
    ⟨hk, hLength⟩
  · rcases (mem_literalsOf g active l).mp
        (mem_tableLiterals hl).2 with
      ⟨a, ha, image, hForm, -, rfl⟩
    exact ⟨a, ha, rfl,
      (matches_literal_iff_spells hForm w).mpr hSpells⟩
  · rcases (mem_automatonKinds g _ _ _ e).mp he with
      ⟨a, ha, -, -, rfl⟩
    exact ⟨a, ha, rfl, hw⟩
  · rcases ((anyChar_tablesOf ignoreCase k).mp hk).1 with
      ⟨a, ha, rfl, hForm⟩
    exact ⟨a, ha, rfl,
      (matches_wildcard_iff hForm hUnits).mpr hLength⟩

/- What a kind matches, a part with no larger kind matches. -/
theorem oneOf_of_activeMatches
    {ignoreCase : Bool}
    {k : Nat}
    {w : List Nat}
    (hUnits : IsUnits w)
    (hMatches : activeMatches g ignoreCase active k w) :
    ∃ j ≤ k, (tablesOf g ignoreCase name index active).OneOf
      (LexState.SpelledIn ignoreCase (tableLiterals g active))
      (automatonMatches g ignoreCase
        (isMixed (literalsOf g active)) active) j w := by
  rcases hMatches with ⟨a, ha, rfl, hw⟩
  by_cases hWild : (g.regex a.regex).form = .chars true []
  · have hLength := (matches_wildcard_iff hWild hUnits).mp hw
    rcases exists_least
        (M := fun k _ => ∃ a ∈ active, a.kind = k ∧
          (g.regex a.regex).form = .chars true [])
        (w := w) ⟨a.kind, a, ha, rfl, hWild⟩ with ⟨j, hj⟩
    refine ⟨j, hj.2 ⟨a, ha, rfl, hWild⟩, ?_⟩
    exact .inr (.inr
      ⟨(anyChar_tablesOf ignoreCase j).mpr hj, hLength⟩)
  refine ⟨a.kind, le_rfl, ?_⟩
  by_cases hTable : isMixed (literalsOf g active) = false ∧
      ∃ image, (g.regex a.regex).form = .literal image ∧
        image ≠ ""
  · rcases hTable with ⟨hMixed, image, hForm, hNonempty⟩
    have hl : (⟨a.kind, Text.units image, a.ignoreCase⟩ :
        Literal) ∈ tableLiterals g active := by
      unfold tableLiterals
      rw [hMixed]
      exact (mem_literalsOf g active _).mpr
        ⟨a, ha, image, hForm, hNonempty, rfl⟩
    exact .inl ⟨_, hl, rfl,
      (matches_literal_iff_spells hForm w).mp hw⟩
  · refine .inr (.inl ⟨_, (mem_automatonKinds g _ _ _ _).mpr
      ⟨a, ha, hWild, ?_, rfl⟩, rfl, hw⟩)
    intro hMixed image hForm
    by_contra hNonempty
    exact hTable ⟨hMixed, image, hForm, hNonempty⟩

/- The parts of a state choose among kinds like the kinds. -/
theorem sameLeast_oneOf
    {ignoreCase : Bool}
    {w : List Nat}
    (hUnits : IsUnits w) :
    SameLeast
      ((tablesOf g ignoreCase name index active).OneOf
        (LexState.SpelledIn ignoreCase (tableLiterals g active))
        (automatonMatches g ignoreCase
          (isMixed (literalsOf g active)) active))
      (activeMatches g ignoreCase active) w where
  forth _ hParts := activeMatches_of_oneOf hUnits hParts
  back _ hMatches :=
    oneOf_of_activeMatches hUnits hMatches

/- Where case counts, literals are matched as they are spelled. -/
theorem anyOf_tablesOf
    (hCase : CaseCounts g active) :
    (tablesOf g false name index active).AnyOf
        (tableLiterals g active) =
      (tablesOf g false name index active).OneOf
        (LexState.SpelledIn false (tableLiterals g active)) := by
  funext A k w
  apply propext
  refine or_congr_left (exists_congr fun l => ?_)
  refine and_congr_right fun hl => and_congr_right fun _ => ?_
  rw [sensitive_tableLiterals hCase hl]
  exact eq_comm.trans (spells_false_iff _ _).symm

theorem sameLeast_activeMatches
    (hCase : CaseCounts g active)
    {w : List Nat}
    (hUnits : IsUnits w) :
    SameLeast
      ((tablesOf g false name index active).AnyOf
        (tableLiterals g active)
        (automatonMatches g false
          (isMixed (literalsOf g active)) active))
      (activeMatches g false active) w := by
  rw [anyOf_tablesOf hCase]
  exact sameLeast_oneOf hUnits

end Tables

end Lexer

end Descent
