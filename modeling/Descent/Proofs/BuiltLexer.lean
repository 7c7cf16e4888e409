import Descent.Proofs.SkipChars

/-
  The lexer that is built for a grammar.

  Warnings change nothing but what is reported, so the states
  of a lexer are the tables of the kinds that were collected
  for them, in the order of their declaration.

  Main declarations:
    * `Lexer.builtState`
    * `Lexer.build_eq_ok`
    * `Lexer.BuiltFrom`
    * `Lexer.builtFrom_build`
    * `Lexer.orderly_of_collects`
-/

------------------------------------------------------------
-- Warnings
------------------------------------------------------------

namespace Descent

open TokenTable (EntriesApart)

namespace Lexer

theorem options_warnWideChars
    (g : Grammar)
    (active : List Active)
    (s : Session)
    (given : Bool) :
    (warnWideChars g active (s, given)).1.options =
      s.options := by
  unfold warnWideChars
  dsimp only
  split
  · rfl
  · split
    · rfl
    · rfl

theorem options_warnEmptyMatch
    (g : Grammar)
    (name : String)
    (s : Session)
    (kind : Option Kind) :
    (warnEmptyMatch g name s kind).options = s.options := by
  cases kind with
  | none => rfl
  | some k => rfl

theorem options_foldl_warnShadowed
    (g : Grammar)
    (st : LexState)
    (lits : List Literal)
    (s : Session) :
    (lits.foldl (warnShadowed g st) s).options = s.options := by
  induction lits generalizing s with
  | nil => rfl
  | cons l lits ih =>
      rw [List.foldl_cons, ih]
      unfold warnShadowed
      dsimp only
      split
      · rfl
      · split
        · rfl
        · rfl

------------------------------------------------------------
-- States
------------------------------------------------------------

/- The lexical state of a name with its kinds. -/
def builtState
    (g : Grammar)
    (ignoreCase : Bool)
    (kinds : Array (Option KindAttrs))
    (entry : (String × List Active) × Nat) : LexState :=
  withSkips
    (tablesOf g ignoreCase entry.1.1 entry.2 entry.1.2)
    kinds ignoreCase

theorem foldl_buildState
    (g : Grammar)
    (kinds : Array (Option KindAttrs))
    (entries : List ((String × List Active) × Nat))
    (s : Session)
    (given : Bool)
    (states : Array LexState) :
    ∃ s' given', entries.foldl (buildState g kinds)
        (s, given, states) =
      (s', given', states ++ (entries.map
        (builtState g s.options.ignoreCase kinds)).toArray) ∧
      s'.options = s.options := by
  induction entries generalizing s given states with
  | nil => exact ⟨s, given, by simp, rfl⟩
  | cons entry entries ih =>
      rcases entry with ⟨⟨name, active⟩, index⟩
      rw [List.foldl_cons]
      have hOptions := options_warnWideChars g active s given
      unfold buildState
      dsimp only
      rcases hWide : warnWideChars g active (s, given) with
        ⟨s₁, given₁⟩
      rw [hWide] at hOptions
      dsimp only at hOptions ⊢
      rcases ih (((tablesOf g s.options.ignoreCase name index
          active).literals.literals.foldl
            (warnShadowed g (tablesOf g s.options.ignoreCase
              name index active))
            (warnEmptyMatch g name s₁
              (tablesOf g s.options.ignoreCase name index
                active).initMatch))) given₁
          (states.push (builtState g s.options.ignoreCase kinds
            ((name, active), index))) with
        ⟨s', given', hFold, hSame⟩
      rw [options_foldl_warnShadowed, options_warnEmptyMatch,
        hOptions] at hFold hSame
      refine ⟨s', given', ?_, hSame⟩
      rw [List.map_cons]
      refine Eq.trans hFold ?_
      simp

/- The states of a lexer before their targets are known. -/
def builtStates
    (g : Grammar)
    (s : Session)
    (c : Collected) : Array LexState :=
  ((g.lexicalStates.zip c.active.toList).zipIdx.map
    (builtState g s.options.ignoreCase c.kinds)).toArray

/- A lexer that was built, part by part. -/
theorem build_eq_ok
    {g : Grammar}
    {s s' : Session}
    {lx : Lexer}
    (hBuild : build g s = (s', .ok lx)) :
    ∃ c eofNext, collect g s.tokenCount = .ok c ∧
      lx =
        { states := (builtStates g s c).map fun st =>
            { st with
              reachedOnMore :=
                (moreTargets c.kinds
                  (builtStates g s c)).contains st.index },
          kinds := c.kinds,
          eofNextState := eofNext,
          ignoreCase := s.options.ignoreCase } := by
  unfold build at hBuild
  dsimp only at hBuild
  cases hCollect : collect g s.tokenCount with
  | error e =>
      rw [hCollect] at hBuild
      simp [bind, Except.bind] at hBuild
  | ok c =>
      rw [hCollect] at hBuild
      simp only [bind, Except.bind] at hBuild
      cases hEof : requireState? g
          (s.eof.bind (·.nextState)) with
      | error e =>
          rw [hEof] at hBuild
          simp at hBuild
      | ok eofNext =>
          rw [hEof] at hBuild
          rcases foldl_buildState g c.kinds
            (g.lexicalStates.zip c.active.toList).zipIdx s false
            #[] with ⟨s₁, given, hFold, hOptions⟩
          simp only [pure, Except.pure, hFold,
            Array.empty_append, Prod.mk.injEq,
            Except.ok.injEq] at hBuild
          rw [← hBuild.2, hOptions]
          exact ⟨c, eofNext, rfl, rfl⟩

/-
  What a lexer is made of, with the kinds that were collected
  for its states.
-/
structure BuiltFrom
    (g : Grammar)
    (s : Session)
    (c : Collected)
    (lx : Lexer) : Prop where
  collected : collect g s.tokenCount = .ok c
  kinds : lx.kinds = c.kinds
  size :
    lx.states.size = min g.lexicalStates.length c.active.size
  state :
    ∀ i < lx.states.size, ∃ name reached, lx.state i =
      { builtState g s.options.ignoreCase c.kinds
          ((name, c.active.getD i []), i) with
        reachedOnMore := reached }

theorem builtFrom_build
    {g : Grammar}
    {s s' : Session}
    {lx : Lexer}
    (hBuild : build g s = (s', .ok lx)) :
    ∃ c, BuiltFrom g s c lx := by
  rcases build_eq_ok hBuild with ⟨c, eofNext, hCollect, hLexer⟩
  have hSize : lx.states.size =
      min g.lexicalStates.length c.active.size := by
    rw [hLexer]
    simp [builtStates]
  refine ⟨c, hCollect, by rw [hLexer], hSize, ?_⟩
  intro i hInside
  have hBoth := hInside
  rw [hSize, lt_min_iff] at hBoth
  rw [state, Array.getD_eq_getD_getElem?,
    Array.getElem?_eq_getElem hInside,
    Option.getD_some, Array.getD_eq_getD_getElem?,
    Array.getElem?_eq_getElem hBoth.2,
    Option.getD_some]
  refine ⟨g.lexicalStates[i],
    lx.states[i].reachedOnMore, ?_⟩
  simp only [hLexer, builtStates, Array.getElem_map,
    List.getElem_toArray, List.getElem_map,
    List.getElem_zipIdx, List.getElem_zip,
    Array.getElem_toList, Nat.zero_add]

------------------------------------------------------------
-- The kinds of a state
------------------------------------------------------------

section Built

variable {g : Grammar} {s : Session} {c : Collected}
variable {lx : Lexer}

/- Every lexical state of a grammar is built. -/
theorem BuiltFrom.size_eq
    (hBuilt : BuiltFrom g s c lx)
    (hCollects : Collects g s.tokenCount g.entries c) :
    lx.states.size = g.lexicalStates.length := by
  rw [hBuilt.size, hCollects.activeSize, min_self]

/- The kinds of a state are orderly after analysis. -/
theorem orderly_of_collects
    (hApart : EntriesApart g)
    (hCollects : Collects g s.tokenCount g.entries c)
    (hKinds : s.tokenCount ≤ noKind)
    (i : Nat) :
    Orderly g (c.active.getD i []) where
  distinct := hCollects.distinct i
  positive _ ha := (kind_of_active hCollects ha).1
  below _ ha :=
    lt_of_lt_of_le (kind_of_active hCollects ha).2 hKinds
  literals _ ha _ ha' hCase hCase' _ hForm hForm' :=
    eq_of_literal hApart hCollects ha ha' hCase hCase' hForm
      hForm'

/- What the table of literals knows is about the past. -/
theorem BuiltFrom.knowsPast
    (hBuilt : BuiltFrom g s c lx)
    {i : Nat}
    (hInside : i < lx.states.size) :
    (lx.state i).KnowsPast := by
  rcases hBuilt.state i hInside with ⟨name, reached, hState⟩
  have hTable : LiteralTable.Past
      (tablesOf g s.options.ignoreCase name i
        (c.active.getD i [])).literals.buckets := by
    unfold tablesOf
    dsimp only
    split
    · exact LiteralTable.past_withResume _ _ _ _
    · exact LiteralTable.past_build _ _ _
  rw [hState]
  exact hTable

/- A state is made of literals, an automaton and a wildcard. -/
theorem BuiltFrom.composed
    (hBuilt : BuiltFrom g s c lx)
    (hTree : g.RegexTree)
    {i : Nat}
    (hInside : i < lx.states.size)
    (hOrderly : Orderly g (c.active.getD i [])) :
    (lx.state i).Composed s.options.ignoreCase
      (tableLiterals g (c.active.getD i []))
      (automatonMatches g s.options.ignoreCase
        (isMixed (literalsOf g (c.active.getD i [])))
        (c.active.getD i [])) := by
  rcases hBuilt.state i hInside with ⟨name, reached, hState⟩
  have hComposed := @composed_tablesOf g (c.active.getD i [])
    name i hTree s.options.ignoreCase hOrderly
  unfold builtState at hState
  generalize tablesOf _ _ _ _ _ = st at hState hComposed
  rw [hState]
  exact ⟨⟨hComposed.recognizes.accept,
    hComposed.recognizes.dead, hComposed.recognizes.idle,
    hComposed.recognizes.below⟩, hComposed.table,
    hComposed.mixed, hComposed.alike, hComposed.numbered,
    hComposed.images, hComposed.nonempty, hComposed.units,
    hComposed.anyBelow⟩

/- A state in which case counts is made of its parts. -/
theorem BuiltFrom.exact
    (hBuilt : BuiltFrom g s c lx)
    (hTree : g.RegexTree)
    (hOption : s.options.ignoreCase = false)
    {i : Nat}
    (hInside : i < lx.states.size)
    (hOrderly : Orderly g (c.active.getD i []))
    (hCase : CaseCounts g (c.active.getD i [])) :
    (lx.state i).Exact
      (tableLiterals g (c.active.getD i []))
      (automatonMatches g false
        (isMixed (literalsOf g (c.active.getD i [])))
        (c.active.getD i [])) := by
  have hComposed := hBuilt.composed hTree hInside hOrderly
  rw [hOption] at hComposed
  exact hComposed.exact
    fun _ hl => sensitive_tableLiterals hCase hl

/- The parts of a state choose like its kinds, up to case. -/
theorem BuiltFrom.sameLeast_parts
    (hBuilt : BuiltFrom g s c lx)
    {i : Nat}
    (hInside : i < lx.states.size)
    {w : List Nat}
    (hUnits : IsUnits w) :
    SameLeast
      ((lx.state i).OneOf
        (LexState.SpelledIn s.options.ignoreCase
          (tableLiterals g (c.active.getD i [])))
        (automatonMatches g s.options.ignoreCase
          (isMixed (literalsOf g (c.active.getD i [])))
          (c.active.getD i [])))
      (activeMatches g s.options.ignoreCase
        (c.active.getD i [])) w := by
  rcases hBuilt.state i hInside with ⟨name, reached, hState⟩
  have hSame := @sameLeast_oneOf g (c.active.getD i [])
    name i s.options.ignoreCase w hUnits
  unfold builtState at hState
  generalize tablesOf _ _ _ _ _ = st at hState hSame
  rw [hState]
  exact hSame

/- The parts of a state choose like its kinds. -/
theorem BuiltFrom.sameLeast
    (hBuilt : BuiltFrom g s c lx)
    {i : Nat}
    (hInside : i < lx.states.size)
    (hOption : s.options.ignoreCase = false)
    (hCase : CaseCounts g (c.active.getD i []))
    {w : List Nat}
    (hUnits : IsUnits w) :
    SameLeast
      ((lx.state i).AnyOf
        (tableLiterals g (c.active.getD i []))
        (automatonMatches g false
          (isMixed (literalsOf g (c.active.getD i [])))
          (c.active.getD i [])))
      (activeMatches g false (c.active.getD i [])) w := by
  rcases hBuilt.state i hInside with ⟨name, reached, hState⟩
  rw [hOption] at hState
  have hSame := @sameLeast_activeMatches g (c.active.getD i [])
    name i hCase w hUnits
  unfold builtState at hState
  generalize tablesOf _ _ _ _ _ = st at hState hSame
  rw [hState]
  exact hSame

/- A character that is passed over is a match of its own. -/
theorem BuiltFrom.longest_of_pass
    (hBuilt : BuiltFrom g s c lx)
    (hTree : g.RegexTree)
    (hOption : s.options.ignoreCase = false)
    {i : Nat}
    (hInside : i < lx.states.size)
    (hOrderly : Orderly g (c.active.getD i []))
    (hCase : CaseCounts g (c.active.getD i []))
    {d : Nat}
    {rest : List Nat}
    (hUnits : IsUnits (d :: rest))
    (hPass : Assoc.contains d (lx.state i).skipChars = true) :
    ∃ k, PlainSkip lx.kinds k ∧
      Longest (activeMatches g false (c.active.getD i []))
        (d :: rest) 1 k := by
  have hSame := fun m (_ : m ≤ (d :: rest).length) =>
    hBuilt.sameLeast hInside hOption hCase (hUnits.take m)
  rcases hBuilt.state i hInside with ⟨name, reached, hState⟩
  rw [hOption] at hState
  have hExact := @exact_tablesOf g (c.active.getD i []) name i
    hTree hOrderly hCase
  unfold builtState at hState
  generalize tablesOf _ _ _ _ _ = st at hState hExact
  rw [hState] at hPass hSame
  rcases mem_skipChars hPass with ⟨k, hk⟩
  rcases longest_of_skip hExact hk with ⟨hPlain, hLongest⟩
  refine ⟨k, ?_, ?_⟩
  · rw [hBuilt.kinds]
    exact hPlain
  · exact (hLongest rest hUnits).congr hSame

/- A unit that is not passed over is looked up. -/
theorem BuiltFrom.skipKeys
    (hBuilt : BuiltFrom g s c lx)
    {i d : Nat}
    (hInside : i < lx.states.size)
    (hPass : Assoc.contains d (lx.state i).skipChars = false) :
    (lx.state i).skipKeys.contains d = false := by
  rcases hBuilt.state i hInside with ⟨name, reached, hState⟩
  unfold builtState at hState
  generalize tablesOf _ _ _ _ _ = st at hState
  rw [hState] at hPass ⊢
  exact not_mem_skipKeys hPass

end Built

end Lexer

end Descent
