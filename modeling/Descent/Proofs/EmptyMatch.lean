import Descent.Proofs.MaximalMunch

/-
  Lexical states in which the empty text is matched.

  The empty match should be a last resort.  It is chosen too
  early on some texts: a match of one unit is lost when a
  literal goes on after that unit, the literals lead nowhere
  and nothing longer is matched.  A wildcard makes up for the
  loss if it is the smallest kind.

  Main declarations:
    * `Grammar.LosesUnit`
    * `Grammar.IsWildcard`
    * `Lexer.forgotten_iff_losesUnit`
    * `Lexer.attempt_with_emptyMatch`
-/

------------------------------------------------------------
-- Matches that are lost
------------------------------------------------------------

namespace Descent

open TokenTable (EntriesApart)

namespace Grammar

/- A kind of a lexical state is a wildcard. -/
def IsWildcard
    (g : Grammar)
    (s : Session)
    (i : Nat)
    (k : Kind) : Prop :=
  ∃ e ∈ g.entries,
    Lexer.entryKind? g s.tokenCount e = some k ∧
      Lexer.CountsIn g i e ∧
      (g.regex e.2.regex).form = .chars true []

/- An expression that is no wildcard matches a text. -/
def PatternMatches
    (g : Grammar)
    (s : Session)
    (i : Nat)
    (w : List Nat) : Prop :=
  ∃ e ∈ g.entries,
    ∃ k, Lexer.entryKind? g s.tokenCount e = some k ∧
      Lexer.CountsIn g i e ∧
      (g.regex e.2.regex).form ≠ .chars true [] ∧
      Matches g (e.1.ignoreCase || s.options.ignoreCase) []
        e.2.regex w

/- A string literal of a lexical state has these units. -/
def HasLiteral
    (g : Grammar)
    (s : Session)
    (i : Nat)
    (w : List Nat) : Prop :=
  ∃ e, g.LiteralIn s i e ∧
    ∃ image, (g.regex e.2.regex).form = .literal image ∧
      Text.units image = w

/-
  The texts whose longest match is one unit that is lost: the
  unit is no literal, but some literal begins with it and the
  unit after it.
-/
structure LosesUnit
    (g : Grammar)
    (s : Session)
    (i : Nat)
    (u : List Nat) : Prop where
  two : 2 ≤ u.length
  longest : ∃ k, Longest ((g.rules s).matching i) u 1 k
  pattern : g.PatternMatches s i (u.take 1)
  literal : ¬ g.HasLiteral s i (u.take 1)
  followed : ∃ w, g.HasLiteral s i w ∧ u.take 2 <+: w
  /- With literals that ignore case there would be no table. -/
  sensitive :
    ∀ e, g.LiteralIn s i e → e.1.ignoreCase = false

/- A wildcard matches every unit. -/
theorem matching_of_isWildcard
    {g : Grammar}
    {s : Session}
    {i k c : Nat}
    (hWild : g.IsWildcard s i k)
    (hUnit : c ≤ Text.maxUnit) :
    (g.rules s).matching i k [c] := by
  rcases hWild with ⟨e, he, hk, hCounts, hForm⟩
  refine ⟨e, he, hk, hCounts, ?_⟩
  apply (Lexer.matches_wildcard_iff hForm _).mpr rfl
  intro c' hc'
  rwa [List.mem_singleton.mp hc']

end Grammar

------------------------------------------------------------
-- Active literals of a grammar
------------------------------------------------------------

namespace Lexer

section Literals

variable {g : Grammar} {s : Session} {c : Collected}

/- The texts of literals are those of entries. -/
theorem literalIn_iff
    (hCollects : Collects g s.tokenCount g.entries c)
    (i : Nat)
    (w : List Nat)
    (ignoreCase : Bool) :
    (∃ l ∈ literalsOf g (c.active.getD i []),
        l.image = w ∧ l.ignoreCase = ignoreCase) ↔
      ∃ e, g.LiteralIn s i e ∧
        (∃ image, (g.regex e.2.regex).form = .literal image ∧
          Text.units image = w) ∧
        e.1.ignoreCase = ignoreCase := by
  simp only [Grammar.mem_literalsOf_iff hCollects]
  constructor
  · rintro ⟨l, ⟨e, he, -, hText, hCase⟩, rfl, rfl⟩
    exact ⟨e, he, hText, hCase⟩
  · rintro ⟨e, he, hText, hCase⟩
    rcases he.2.1 with ⟨k, hk⟩
    exact ⟨⟨k, w, ignoreCase⟩, ⟨e, he, hk, hText, hCase⟩, rfl,
      rfl⟩

/- Where case counts, literals are in the table or all alike. -/
theorem isMixed_eq_false_iff
    (hCollects : Collects g s.tokenCount g.entries c)
    (hCase : g.CaseCounts s)
    {i : Nat}
    (hSome : literalsOf g (c.active.getD i []) ≠ []) :
    isMixed (literalsOf g (c.active.getD i [])) = false ↔
      ∀ e, g.LiteralIn s i e → e.1.ignoreCase = false := by
  have hCounts := Grammar.caseCounts_active hCollects hCase i
  rcases hCounts hSome with ⟨l, hl, hSensitive⟩
  unfold isMixed
  rw [Bool.and_eq_false_iff, List.any_eq_false,
    List.any_eq_false]
  constructor
  · intro hAlike e he
    by_contra hIgnores
    rw [Bool.not_eq_false] at hIgnores
    rcases he.2.2.2 with ⟨image, hForm, -⟩
    rcases (literalIn_iff hCollects i (Text.units image)
      true).mpr ⟨e, he, ⟨image, hForm, rfl⟩, hIgnores⟩ with
      ⟨l', hl', -, hTrue⟩
    rcases hAlike with hNone | hNone
    · exact hNone l' hl' hTrue
    · apply hNone l hl
      rw [hSensitive]
      rfl
  · intro hAll
    left
    intro l' hl' hTrue
    rcases (literalIn_iff hCollects i l'.image true).mp
      ⟨l', hl', rfl, hTrue⟩ with ⟨e, he, -, hIgnores⟩
    rw [hAll e he] at hIgnores
    cases hIgnores

/- Expressions that are no wildcards and no literals. -/
theorem automatonMatches_of_pattern
    (hCollects : Collects g s.tokenCount g.entries c)
    (hOption : s.options.ignoreCase = false)
    {i : Nat}
    (hSensitive :
      ∀ e, g.LiteralIn s i e → e.1.ignoreCase = false)
    {mixed : Bool}
    {w : List Nat}
    (hLiteral : ¬ g.HasLiteral s i w)
    (hPattern : g.PatternMatches s i w) :
    ∃ k, automatonMatches g false mixed (c.active.getD i [])
      k w := by
  rcases hPattern with ⟨e, he, k, hk, hCounts, hWild, hw⟩
  rw [hOption] at hw
  refine ⟨k, _, (mem_automatonKinds g _ _ _ _).mpr
    ⟨activeOf e k, (hCollects.active i _).mpr
      ⟨e, he, k, hk, hCounts, rfl⟩, hWild, ?_, rfl⟩, rfl, hw⟩
  intro _ image hForm
  change (g.regex e.2.regex).form = .literal image at hForm
  by_contra hNonempty
  have hIn : g.LiteralIn s i e :=
    ⟨he, ⟨k, hk⟩, hCounts, image, hForm, hNonempty⟩
  apply hLiteral
  refine ⟨e, hIn, image, hForm, ?_⟩
  rw [hSensitive e hIn, Bool.false_or,
    matches_literal_iff hForm] at hw
  exact hw.symm

theorem pattern_of_automatonMatches
    (hCollects : Collects g s.tokenCount g.entries c)
    (hOption : s.options.ignoreCase = false)
    {i k : Nat}
    {mixed : Bool}
    {w : List Nat}
    (hMatches : automatonMatches g false mixed
      (c.active.getD i []) k w) :
    g.PatternMatches s i w := by
  rcases hMatches with ⟨expr, hExpr, -, hw⟩
  rcases (mem_automatonKinds g _ _ _ expr).mp hExpr with
    ⟨a, ha, hWild, -, rfl⟩
  rcases (hCollects.active i a).mp ha with
    ⟨e, he, k, hk, hCounts, rfl⟩
  refine ⟨e, he, k, hk, hCounts, hWild, ?_⟩
  rw [hOption]
  exact hw

/- The table spells the literals of a state, if it has any. -/
theorem spelled_tableLiterals_iff
    (hCollects : Collects g s.tokenCount g.entries c)
    {i : Nat}
    (hMixed :
      isMixed (literalsOf g (c.active.getD i [])) = false)
    (w : List Nat) :
    (∃ l ∈ tableLiterals g (c.active.getD i []),
        l.image = w) ↔ g.HasLiteral s i w := by
  unfold tableLiterals
  rw [hMixed]
  constructor
  · intro hSome
    rcases hSome with ⟨l, hl, hImage⟩
    rcases (literalIn_iff hCollects i w l.ignoreCase).mp
      ⟨l, hl, hImage, rfl⟩ with ⟨e, he, hText, -⟩
    exact ⟨e, he, hText⟩
  · intro hSome
    rcases hSome with ⟨e, he, hText⟩
    rcases (literalIn_iff hCollects i w e.1.ignoreCase).mpr
      ⟨e, he, hText, rfl⟩ with ⟨l, hl, hImage, -⟩
    exact ⟨l, hl, hImage⟩

end Literals

------------------------------------------------------------
-- Attempts
------------------------------------------------------------

section Attempts

variable {g : Grammar} {s : Session} {c : Collected}
variable {lx : Lexer}

/- What is forgotten is what the grammar says is lost. -/
theorem forgotten_iff_losesUnit
    (hBuilt : BuiltFrom g s c lx)
    (hCollects : Collects g s.tokenCount g.entries c)
    (hOption : s.options.ignoreCase = false)
    (hCase : g.CaseCounts s)
    {i : Nat}
    (hInside : i < lx.states.size)
    (hInit : (lx.state i).initMatch.isSome = true)
    {u : List Nat}
    (hUnits : IsUnits u) :
    LexState.Forgotten (lx.state i)
        (tableLiterals g (c.active.getD i []))
        (automatonMatches g false
          (isMixed (literalsOf g (c.active.getD i [])))
          (c.active.getD i [])) u ↔
      g.LosesUnit s i u := by
  have hCounts := Grammar.caseCounts_active hCollects hCase i
  have hSame := fun m (_ : m ≤ u.length) =>
    hBuilt.sameLeast hInside hOption hCounts (hUnits.take m)
  have hMatching := Grammar.matching_rules hCollects i
  rw [hOption] at hMatching
  constructor
  · intro hForgotten
    rcases hForgotten with
      ⟨⟨-, hTwo, hLiteral, ⟨k, hk⟩, hLast⟩, l, hl, hPrefix⟩
    rcases mem_tableLiterals hl with ⟨hMixed, hMem⟩
    have hSensitive := (isMixed_eq_false_iff hCollects hCase
      (List.ne_nil_of_mem hMem)).mp hMixed
    have hTable := spelled_tableLiterals_iff hCollects hMixed
    have hOne := (hSame 1 (by omega)).forth k
      (.inr (.inl hk))
    rcases exists_least ⟨k, hOne⟩ with ⟨j, hj⟩
    refine ⟨hTwo, ⟨j, ?_⟩,
      pattern_of_automatonMatches hCollects hOption hk, ?_,
      ⟨l.image, (hTable _).mp ⟨l, hl, rfl⟩, hPrefix⟩,
      hSensitive⟩
    · rw [hMatching]
      exact ⟨Nat.one_pos, by omega, hj,
        NoneAfter.congr hSame hLast⟩
    · intro hHas
      rcases (hTable _).mpr hHas with ⟨l', hl', hImage⟩
      exact hLiteral l'.kind ⟨l', hl', rfl, hImage⟩
  · intro hLoses
    rcases hLoses with
      ⟨hTwo, ⟨k, hLongest⟩, hPattern, hLiteral,
        ⟨w, hHas, hPrefix⟩, hSensitive⟩
    have hSome : literalsOf g (c.active.getD i []) ≠ [] := by
      rcases hHas with ⟨e, he, hText⟩
      rcases (literalIn_iff hCollects i w e.1.ignoreCase).mpr
        ⟨e, he, hText, rfl⟩ with ⟨l, hl, -⟩
      exact List.ne_nil_of_mem hl
    have hMixed := (isMixed_eq_false_iff hCollects hCase
      hSome).mpr hSensitive
    have hTable := spelled_tableLiterals_iff hCollects hMixed
    rcases (hTable w).mpr hHas with ⟨l, hl, rfl⟩
    refine ⟨⟨hInit, hTwo, ?_, ?_, ?_⟩, l, hl, hPrefix⟩
    · intro k' hSpelled
      rcases hSpelled with ⟨l', hl', -, hImage⟩
      exact hLiteral ((hTable _).mp ⟨l', hl', hImage⟩)
    · exact automatonMatches_of_pattern hCollects hOption
        hSensitive hLiteral hPattern
    · intro m hAfter hLe j hj
      rw [hMatching] at hLongest
      exact hLongest.last m hAfter hLe j
        ((hSame m hLe).forth j hj)

/- The wildcard of a state is the smallest one. -/
theorem BuiltFrom.anyChar_iff
    (hBuilt : BuiltFrom g s c lx)
    (hCollects : Collects g s.tokenCount g.entries c)
    {i : Nat}
    (hInside : i < lx.states.size)
    (k : Nat) :
    (lx.state i).anyChar = some k ↔
      IsLeast { k | g.IsWildcard s i k } k := by
  have hSets : { k | g.IsWildcard s i k } =
      { k | ∃ a ∈ c.active.getD i [], a.kind = k ∧
        (g.regex a.regex).form = .chars true [] } := by
    ext k
    constructor
    · intro hWild
      rcases hWild with ⟨e, he, hk, hCounts, hForm⟩
      exact ⟨activeOf e k, (hCollects.active i _).mpr
        ⟨e, he, k, hk, hCounts, rfl⟩, rfl, hForm⟩
    · intro hWild
      rcases hWild with ⟨a, ha, rfl, hForm⟩
      rcases (hCollects.active i a).mp ha with
        ⟨e, he, k, hk, hCounts, rfl⟩
      exact ⟨e, he, hk, hCounts, hForm⟩
  rcases hBuilt.state i hInside with ⟨name, reached, hState⟩
  rw [hState, hSets]
  exact @anyChar_tablesOf g (c.active.getD i []) name i
    s.options.ignoreCase k

/- Where nothing is lost, the longest match is chosen. -/
theorem BuiltFrom.answers
    (hBuilt : BuiltFrom g s c lx)
    (hTree : g.RegexTree)
    (hApart : EntriesApart g)
    (hCollects : Collects g s.tokenCount g.entries c)
    (hKinds : s.tokenCount ≤ noKind)
    (hOption : s.options.ignoreCase = false)
    (hCase : g.CaseCounts s)
    {i init d : Nat}
    {rest : List Nat}
    (hInside : i < lx.states.size)
    (hInit : (lx.state i).initMatch = some init)
    (hUnits : IsUnits (d :: rest))
    (hPass : Assoc.contains d (lx.state i).skipChars = false) :
    (g.LosesUnit s i (d :: rest) →
        ((lx.state i).attempt d rest).2.best =
          LexState.settle (lx.state i).anyChar (init, -1)) ∧
      (¬ g.LosesUnit s i (d :: rest) →
        (∃ n k,
          Longest ((g.rules s).matching i) (d :: rest) n k ∧
            ((lx.state i).attempt d rest).2.best =
              (k, (n : Int) - 1)) ∨
          (NoMatch ((g.rules s).matching i) (d :: rest) ∧
            ((lx.state i).attempt d rest).2.best =
              (init, -1))) := by
  have hOrderly := orderly_of_collects hApart hCollects hKinds i
  have hCounts := Grammar.caseCounts_active hCollects hCase i
  have hExact := hBuilt.exact hTree hOption hInside hOrderly
    hCounts
  have hSame := fun m (_ : m ≤ (d :: rest).length) =>
    hBuilt.sameLeast hInside hOption hCounts (hUnits.take m)
  have hBlank : (lx.state i).blank = (init, -1) :=
    LexState.blank_of_initMatch_some hInit
  have hSpec := LexState.attempt_spec hExact hUnits
    (hBuilt.skipKeys hInside hPass)
  rw [forgotten_iff_losesUnit hBuilt hCollects hOption hCase
    hInside (by rw [hInit]; rfl) hUnits, hBlank] at hSpec
  refine ⟨hSpec.1, fun hKept => ?_⟩
  rw [Grammar.matching_rules hCollects, hOption]
  rcases hSpec.2 hKept with ⟨n, k, hLongest, hBest⟩ |
    ⟨hNone, hBest⟩
  · exact .inl ⟨n, k, hLongest.congr hSame, hBest⟩
  · rw [hBlank] at hBest
    exact .inr ⟨NoneAfter.congr hSame hNone, hBest⟩

/- The choice where nothing is lost. -/
theorem choice_of_kept
    {M : Matching}
    {u : List Nat}
    {init : Nat}
    {best : Nat × Int}
    (hBest :
      (∃ n k, Longest M u n k ∧ best = (k, (n : Int) - 1)) ∨
        (NoMatch M u ∧ best = (init, -1))) :
    (best = (init, -1) ↔ NoMatch M u) ∧
      ∀ n k, Longest M u n k → best = (k, (n : Int) - 1) := by
  rcases hBest with ⟨n, k, hLongest, rfl⟩ | ⟨hNone, rfl⟩
  · constructor
    · apply iff_of_false
      · intro hEmpty
        have hPos := congrArg Prod.snd hEmpty
        have hSome : 0 < n := hLongest.longer
        dsimp only at hPos
        omega
      · exact hLongest.not_none
    · intro n' k' hLongest'
      rcases hLongest.unique hLongest' with ⟨rfl, rfl⟩
      rfl
  · constructor
    · exact iff_of_true rfl hNone
    · intro n k hLongest
      exact absurd hNone hLongest.not_none

/- The choice where a match is lost: the wildcard, if any. -/
theorem choice_of_lost
    {M : Matching}
    {u : List Nat}
    {init j : Nat}
    {best : Nat × Int}
    {anyChar : Option Kind}
    {W : Set Nat}
    (hBest : best = LexState.settle anyChar (init, -1))
    (hLongest : Longest M u 1 j)
    (hAny : ∀ k, anyChar = some k ↔ IsLeast W k)
    (hMatches : ∀ k ∈ W, M k (u.take 1)) :
    (best = (init, -1) ↔ ∀ k, k ∉ W) ∧
      ((∀ n k, Longest M u n k → best = (k, (n : Int) - 1)) ↔
        ∃ k ∈ W, Longest M u 1 k) := by
  cases anyChar with
  | none =>
      have hNone : ∀ k, k ∉ W := by
        intro k hk
        rcases @exists_least (fun k _ => k ∈ W) [] ⟨k, hk⟩ with
          ⟨least, hLeast⟩
        cases (hAny least).mpr hLeast
      change best = (init, -1) at hBest
      refine ⟨iff_of_true hBest hNone, iff_of_false ?_ ?_⟩
      · intro hAll
        cases hBest.symm.trans (hAll 1 j hLongest)
      · intro hSome
        rcases hSome with ⟨k, hk, -⟩
        exact hNone k hk
  | some any =>
      have hLeast := (hAny any).mp rfl
      change best = (any, 0) at hBest
      refine ⟨iff_of_false ?_ fun hNone => ?_, ?_⟩
      · intro hEmpty
        cases hBest.symm.trans hEmpty
      · exact hNone any hLeast.1
      constructor
      · intro hAll
        have hSame : any = j := congrArg Prod.fst
          (hBest.symm.trans (hAll 1 j hLongest))
        rw [← hSame] at hLongest
        exact ⟨any, hLeast.1, hLongest⟩
      · intro hSome n k hLongest'
        rcases hSome with ⟨k', hk', hWild⟩
        rcases hWild.unique hLongest' with ⟨rfl, rfl⟩
        have hBelow := hWild.kind.2 (hMatches any hLeast.1)
        have hAbove := hLeast.2 hk'
        rw [hBest, Nat.le_antisymm hAbove hBelow]
        rfl

/-
  When the empty match is chosen, and when the longest match
  is, in a lexical state in which the empty text is matched:
  for every grammar that passes analysis and whose lexer can
  be built, where case counts, and for every text.
-/
theorem attempt_with_emptyMatch
    {g₀ : Grammar}
    {s₀ s' : Session}
    (hFresh : g₀.Fresh)
    (hPasses : analyze g₀ s₀ = (g, s, .ok ()))
    (hBuild : build g s = (s', .ok lx))
    (hKinds : s.tokenCount ≤ noKind)
    (hOption : s.options.ignoreCase = false)
    (hCase : g.CaseCounts s)
    {i init d : Nat}
    {rest : List Nat}
    (hInit : (lx.state i).initMatch = some init)
    (hUnits : IsUnits (d :: rest)) :
    (Assoc.contains d (lx.state i).skipChars = true →
        ∃ k, Longest ((g.rules s).matching i) (d :: rest) 1 k ∧
          (g.rules s).cls k = .skip) ∧
      (Assoc.contains d (lx.state i).skipChars = false →
        (((lx.state i).attempt d rest).2.best = (init, -1) ↔
          NoMatch ((g.rules s).matching i) (d :: rest) ∨
            (g.LosesUnit s i (d :: rest) ∧
              ∀ k, ¬ g.IsWildcard s i k)) ∧
        ((∀ n k,
            Longest ((g.rules s).matching i) (d :: rest) n k →
              ((lx.state i).attempt d rest).2.best =
                (k, (n : Int) - 1)) ↔
          (g.LosesUnit s i (d :: rest) →
            ∃ k, g.IsWildcard s i k ∧
              Longest ((g.rules s).matching i) (d :: rest) 1
                k))) := by
  rcases entriesApart_analyze hFresh hPasses with
    ⟨hTree, hApart⟩
  rcases builtFrom_build hBuild with ⟨c, hBuilt⟩
  have hCollects := collects_collect hApart hBuilt.collected
  have hInside : i < lx.states.size := by
    by_contra hOutside
    rw [state_of_size_le (not_lt.mp hOutside)] at hInit
    cases hInit
  constructor
  · intro hPass
    rcases hBuilt.pass hTree hApart hCollects hKinds hOption
        hCase hInside hUnits hPass with
      ⟨k, hLongest, hSkip, -⟩
    exact ⟨k, hLongest, hSkip⟩
  intro hPass
  have hSpec := hBuilt.answers hTree hApart hCollects hKinds
    hOption hCase hInside hInit hUnits hPass
  have hWild := hBuilt.anyChar_iff hCollects hInside
  generalize ((lx.state i).attempt d rest).2.best = best
    at hSpec ⊢
  by_cases hLoses : g.LosesUnit s i (d :: rest)
  · rcases hLoses.longest with ⟨j, hLongest⟩
    have hChoice := choice_of_lost (hSpec.1 hLoses) hLongest
      hWild fun k hk => Grammar.matching_of_isWildcard hk
        (hUnits d List.mem_cons_self)
    rw [hChoice.1, hChoice.2]
    constructor
    · constructor
      · intro hNone
        exact .inr ⟨hLoses, hNone⟩
      · intro hEither
        exact (hEither.resolve_left hLongest.not_none).2
    · constructor
      · intro hSome _
        exact hSome
      · intro hSome
        exact hSome hLoses
  · have hChoice := choice_of_kept (hSpec.2 hLoses)
    rw [hChoice.1]
    constructor
    · constructor
      · exact .inl
      · intro hEither
        exact hEither.resolve_right fun h => hLoses h.1
    · apply iff_of_true hChoice.2
      intro hLost
      exact absurd hLost hLoses

end Attempts

------------------------------------------------------------
-- An example
------------------------------------------------------------

/- A literal, and an optional letter that begins it. -/
def optional : Grammar :=
  let steps : Build Unit := do
    let tokens ← Build.tokenSection (some [defaultState])
      .token false
    let literal ← Build.rxLiteral "abc"
    Build.tokenSpec tokens literal none none
    let letter ← Build.rxChars false [.single 0x61]
    let maybe ← Build.rxZeroOrOne letter
    Build.tokenSpec tokens maybe none none
  (steps.run {}).2.grammar

theorem fresh_optional :
    optional.Fresh := by
  apply Grammar.fresh_of_partsBefore
  · decide +kernel
  · decide +kernel

/- The letter is matched by the optional letter. -/
theorem matching_optional :
    ((analyze optional {}).1.rules
      (analyze optional {}).2.1).matching 0 2 [0x61] := by
  have hForms :
      ((analyze optional {}).1.regex 2).form =
          .zeroOrOne 1 ∧
        ((analyze optional {}).1.regex 1).form =
          .chars false [.single 0x61] := by
    cbv
  have hEntry : (analyze optional {}).1.entries.any (fun e =>
      entryKind? (analyze optional {}).1
          (analyze optional {}).2.1.tokenCount e == some 2 &&
        ((analyze optional {}).1.statesIn e.1).any (fun name =>
          (analyze optional {}).1.stateIndex? name ==
            some 0) &&
        e.2.regex == 2) = true := by
    cbv
  generalize analyze optional {} = analyzed at hForms hEntry ⊢
  rcases analyzed with ⟨g, s, passed⟩
  dsimp only at hForms hEntry ⊢
  rcases List.any_eq_true.mp hEntry with ⟨e, he, hChecks⟩
  rw [Bool.and_eq_true, Bool.and_eq_true, beq_iff_eq,
    beq_iff_eq, List.any_eq_true] at hChecks
  rcases hChecks with ⟨⟨hKind, name, hName, hIndex⟩, hRegex⟩
  refine ⟨e, he, hKind, ⟨name, hName, beq_iff_eq.mp hIndex⟩, ?_⟩
  rw [hRegex]
  generalize (e.1.ignoreCase || s.options.ignoreCase) = ignores
  have hCopies : (g.regex 2).form.copies? =
      some (1, 0, some 1) := by
    rw [hForms.1]
    rfl
  have hItems : InItems ignores [.single 0x61] 0x61 :=
    ⟨_, List.mem_cons_self, .inl rfl⟩
  have hLetter : Matches g ignores [] 1 [0x61] :=
    .chars hForms.2 ⟨by decide, iff_of_true hItems rfl⟩
  have hOnce : MatchesAll g ignores [] (List.replicate 1 1)
      ([0x61] ++ []) := .cons hLetter .nil
  apply Matches.copies hCopies (Nat.zero_le 1) _ hOnce
  intro m hm
  exact (Option.some_inj.mp hm).le

/-
  The letter is lost when another follows: the empty match is
  chosen although the letter is matched.
-/
theorem attempt_with_emptyMatch_optional :
    ∃ lx, (build (analyze optional {}).1
        (analyze optional {}).2.1).2 = .ok lx ∧
      (lx.state 0).initMatch = some 2 ∧
      ((lx.state 0).attempt 0x61 [0x62, 0x64]).2.best =
        (2, -1) ∧
      (analyze optional {}).1.LosesUnit
        (analyze optional {}).2.1 0 [0x61, 0x62, 0x64] := by
  have hMatching := matching_optional
  have hPasses : (analyze optional {}).2.2 = .ok () := by
    cbv
  have hSettings :
      (analyze optional {}).2.1.tokenCount = 3 ∧
        (analyze optional {}).2.1.options.ignoreCase =
          false ∧
        (analyze optional {}).1.entries.all
          (fun e => !e.1.ignoreCase) = true := by
    cbv
  have hState : (build (analyze optional {}).1
      (analyze optional {}).2.1).2.toOption.any (fun lx =>
        (lx.state 0).initMatch == some 2 &&
          ((lx.state 0).attempt 0x61
            [0x62, 0x64]).2.best == (2, -1) &&
          !Assoc.contains 0x61 (lx.state 0).skipChars) =
      true := by
    cbv
  generalize hAnalyze : analyze optional {} = analyzed
    at hMatching hPasses hSettings hState ⊢
  rcases analyzed with ⟨g, s, passed⟩
  dsimp only at hMatching hPasses hSettings hState ⊢
  generalize hBuild : build g s = outcome at hState ⊢
  rcases outcome with ⟨s', built⟩
  cases built with
  | error e => cases hState
  | ok lx =>
      rw [Except.toOption, Option.any_some, Bool.and_eq_true,
        Bool.and_eq_true, beq_iff_eq, beq_iff_eq,
        Bool.not_eq_true'] at hState
      rcases hState with ⟨⟨hInit, hBest⟩, hPass⟩
      have hCase : g.CaseCounts s :=
        Grammar.caseCounts_of_all hSettings.2.2
      have hUnits : IsUnits [0x61, 0x62, 0x64] := by
        unfold IsUnits
        decide
      rw [hPasses] at hAnalyze
      have hChoice := ((attempt_with_emptyMatch fresh_optional
        hAnalyze hBuild (by rw [hSettings.1]; decide)
        hSettings.2.1 hCase hInit hUnits).2 hPass).1.mp hBest
      refine ⟨lx, rfl, hInit, hBest, ?_⟩
      rcases hChoice with hNone | hLoses
      · have hNot := hNone 1 Nat.one_pos (by decide) 2
        exact absurd hMatching hNot
      · exact hLoses.1

end Lexer

end Descent
