import Descent.Grammar.Builder
import Descent.Proofs.BuiltLexer
import Descent.Proofs.Scanning
import Mathlib

/-
  The tokens of a text by longest matches.

  The sections of a grammar say which kinds count in a lexical
  state, what they match and what becomes of a match.  The
  lexer that is built for a grammar in which case counts and
  nothing matches the empty text finds the tokens of these
  rules, for every text.

  Main declarations:
    * `Grammar.rules`
    * `Lexer.ChoosesIn`
    * `Lexer.BuiltFrom.follows_of`
    * `Lexer.tokens?_longest`
-/

------------------------------------------------------------
-- The rules of a grammar
------------------------------------------------------------

namespace Descent

open TokenTable (EntriesApart)
open Text (maxUnit)

namespace Grammar

/- The entry of a kind that a scanner sees. -/
def entryOf?
    (g : Grammar)
    (s : Session)
    (k : Kind) : Option Lexer.Entry :=
  g.entries.find? fun e =>
    Lexer.entryKind? g s.tokenCount e == some k

/-
  The rules of a grammar.  The kinds of the entries that count
  in a lexical state match what their expressions match, and
  the entry of a kind says what becomes of its matches.
-/
def rules
    (g : Grammar)
    (s : Session) : Rules where
  matching i k w :=
    ∃ e ∈ g.entries,
      Lexer.entryKind? g s.tokenCount e = some k ∧
        Lexer.CountsIn g i e ∧
        Matches g (e.1.ignoreCase || s.options.ignoreCase) []
          e.2.regex w
  cls k := ((g.entryOf? s k).map (·.1.cls)).getD .token
  next k :=
    (g.entryOf? s k).bind fun e =>
      e.2.nextState.bind g.stateIndex?

/- A string literal that counts in a lexical state. -/
def LiteralIn
    (g : Grammar)
    (s : Session)
    (i : Nat)
    (e : Lexer.Entry) : Prop :=
  e ∈ g.entries ∧
    (∃ k, Lexer.entryKind? g s.tokenCount e = some k) ∧
    Lexer.CountsIn g i e ∧
    ∃ image, (g.regex e.2.regex).form = .literal image ∧
      image ≠ ""

/- In no lexical state do all string literals ignore case. -/
def CaseCounts
    (g : Grammar)
    (s : Session) : Prop :=
  ∀ i, (∃ e, g.LiteralIn s i e) →
    ∃ e, g.LiteralIn s i e ∧ e.1.ignoreCase = false

section Rules

variable {g : Grammar} {s : Session}

theorem entryOf?_eq
    (hApart : EntriesApart g)
    {e : Lexer.Entry}
    {k : Nat}
    (he : e ∈ g.entries)
    (hk : Lexer.entryKind? g s.tokenCount e = some k) :
    g.entryOf? s k = some e := by
  have hOwn := Lexer.pairwise_entryKind? hApart s.tokenCount
  unfold entryOf?
  cases hFind : g.entries.find? fun e =>
      Lexer.entryKind? g s.tokenCount e == some k with
  | none =>
      rw [List.find?_eq_none] at hFind
      exact absurd (beq_iff_eq.mpr hk) (hFind e he)
  | some e' =>
      have he' := List.mem_of_find?_eq_some hFind
      have hFound := List.find?_some hFind
      have hk' : Lexer.entryKind? g s.tokenCount e' = some k := by
        simpa using hFound
      rw [Lexer.eq_of_pairwise hOwn he' he
        (fun hApart => hApart k hk' hk)
        (fun hApart => hApart k hk hk')]

theorem matching_rules
    {c : Lexer.Collected}
    (hCollects : Lexer.Collects g s.tokenCount g.entries c)
    (i : Nat) :
    (g.rules s).matching i =
      Lexer.activeMatches g s.options.ignoreCase
        (c.active.getD i []) := by
  funext k w
  apply propext
  constructor
  · intro hMatches
    rcases hMatches with ⟨e, he, hk, hCounts, hw⟩
    exact ⟨Lexer.activeOf e k, (hCollects.active i _).mpr
      ⟨e, he, k, hk, hCounts, rfl⟩, rfl, hw⟩
  · intro hMatches
    rcases hMatches with ⟨a, ha, rfl, hw⟩
    rcases (hCollects.active i a).mp ha with
      ⟨e, he, k, hk, hCounts, rfl⟩
    exact ⟨e, he, hk, hCounts, hw⟩

/- Case counts where no section ignores it. -/
theorem caseCounts_of_all
    (hAll : g.entries.all (fun e => !e.1.ignoreCase) = true) :
    g.CaseCounts s := by
  intro i hSome
  rcases hSome with ⟨e, he⟩
  have hSensitive := List.all_eq_true.mp hAll e he.1
  exact ⟨e, he, by simpa using hSensitive⟩

/- The literals of a state are those of its entries. -/
theorem mem_literalsOf_iff
    {c : Lexer.Collected}
    (hCollects : Lexer.Collects g s.tokenCount g.entries c)
    (i : Nat)
    (l : Literal) :
    l ∈ Lexer.literalsOf g (c.active.getD i []) ↔
      ∃ e, g.LiteralIn s i e ∧
        Lexer.entryKind? g s.tokenCount e = some l.kind ∧
        (∃ image, (g.regex e.2.regex).form = .literal image ∧
          Text.units image = l.image) ∧
        e.1.ignoreCase = l.ignoreCase := by
  refine (Lexer.mem_literalsOf g _ l).trans ?_
  constructor
  · rintro ⟨a, ha, image, hForm, hNonempty, rfl⟩
    rcases (hCollects.active i a).mp ha with
      ⟨e, he, k, hk, hCounts, rfl⟩
    exact ⟨e, ⟨he, ⟨k, hk⟩, hCounts, image, hForm, hNonempty⟩,
      hk, ⟨image, hForm, rfl⟩, rfl⟩
  · rintro ⟨e, ⟨he, -, hCounts, image, hForm, hNonempty⟩, hk,
      ⟨image', hForm', hImage⟩, hCase⟩
    have hSame : image = image' := by
      rw [hForm] at hForm'
      exact Regex.literal.inj hForm'
    subst hSame
    refine ⟨Lexer.activeOf e l.kind, (hCollects.active i _).mpr
      ⟨e, he, l.kind, hk, hCounts, rfl⟩, image, hForm,
      hNonempty, ?_⟩
    change l = ⟨l.kind, Text.units image, e.1.ignoreCase⟩
    rw [hImage, hCase]

theorem caseCounts_active
    {c : Lexer.Collected}
    (hCollects : Lexer.Collects g s.tokenCount g.entries c)
    (hCase : g.CaseCounts s)
    (i : Nat) :
    Lexer.CaseCounts g (c.active.getD i []) := by
  intro hSome
  rcases List.exists_mem_of_ne_nil _ hSome with ⟨l, hl⟩
  rcases (mem_literalsOf_iff hCollects i l).mp hl with
    ⟨e, he, -⟩
  rcases hCase i ⟨e, he⟩ with ⟨e', he', hIgnore⟩
  rcases he'.2 with ⟨⟨k', hk'⟩, -, image', hForm', -⟩
  refine ⟨⟨k', Text.units image', e'.1.ignoreCase⟩, ?_,
    hIgnore⟩
  exact (mem_literalsOf_iff hCollects i _).mpr
    ⟨e', he', hk', ⟨image', hForm', rfl⟩, rfl⟩

end Rules

end Grammar

------------------------------------------------------------
-- Lexers and rules
------------------------------------------------------------

namespace Lexer

theorem bind_of_requireState?
    {g : Grammar}
    {name : Option String}
    {next : Option Nat}
    (hRequire : requireState? g name = .ok next) :
    name.bind g.stateIndex? = next := by
  cases name with
  | none => exact Except.ok.inj hRequire
  | some name =>
      unfold requireState? requireState at hRequire
      dsimp only at hRequire
      rw [Option.bind_some]
      cases hIndex : g.stateIndex? name with
      | none =>
          rw [hIndex] at hRequire
          cases hRequire
      | some i =>
          rw [hIndex] at hRequire
          exact Except.ok.inj hRequire

/-
  In a lexical state the choices of a lexer are longest matches
  by some rules.
-/
structure ChoosesIn
    (lx : Lexer)
    (r : Rules)
    (i : Nat) : Prop where
  pass :
    ∀ d rest, IsUnits (d :: rest) →
      Assoc.contains d (lx.state i).skipChars = true →
        ∃ k, Longest (r.matching i) (d :: rest) 1 k ∧
          r.cls k = .skip ∧ r.next k = none
  choose :
    ∀ d rest, IsUnits (d :: rest) →
      Assoc.contains d (lx.state i).skipChars = false →
        (∃ n k, Longest (r.matching i) (d :: rest) n k ∧
            ((lx.state i).attempt d rest).2.best =
              (k, (n : Int) - 1)) ∨
          (NoMatch (r.matching i) (d :: rest) ∧
            ((lx.state i).attempt d rest).2.kind = noKind)

section Follows

variable {g : Grammar} {s : Session} {c : Collected}
variable {lx : Lexer}

/- What a lexer keeps for a kind is what its entry says. -/
theorem BuiltFrom.attrs_eq
    (hBuilt : BuiltFrom g s c lx)
    (hApart : EntriesApart g)
    (hCollects : Collects g s.tokenCount g.entries c)
    {i k : Nat}
    {w : List Nat}
    (hMatches : (g.rules s).matching i k w) :
    ∃ a, lx.attrs? k = some a ∧ a.cls = (g.rules s).cls k ∧
      a.nextState = (g.rules s).next k := by
  rcases hMatches with ⟨e, he, hk, -, -⟩
  rcases hCollects.attrs e he k hk with
    ⟨next, hNext, hAttrs⟩
  have hEntry := Grammar.entryOf?_eq hApart he hk
  refine ⟨entryAttrs e next, ?_, ?_, ?_⟩
  · unfold attrs?
    rw [hBuilt.kinds]
    exact hAttrs
  · change e.1.cls =
      ((g.entryOf? s k).map (·.1.cls)).getD .token
    rw [hEntry]
    rfl
  · change next = (g.entryOf? s k).bind _
    rw [hEntry]
    exact (bind_of_requireState? hNext).symm

/- The rules skip what a lexer skips without more ado. -/
theorem BuiltFrom.skips_of_plainSkip
    (hBuilt : BuiltFrom g s c lx)
    (hApart : EntriesApart g)
    (hCollects : Collects g s.tokenCount g.entries c)
    {i k : Nat}
    {w : List Nat}
    (hPlain : PlainSkip lx.kinds k)
    (hMatches : (g.rules s).matching i k w) :
    (g.rules s).cls k = .skip ∧ (g.rules s).next k = none := by
  rcases hPlain with ⟨a, hAttrs, hClass, hNext⟩
  rcases hBuilt.attrs_eq hApart hCollects hMatches with
    ⟨a', hAttrs', hClass', hNext'⟩
  have hSame : a' = a :=
    Option.some_inj.mp (hAttrs'.symm.trans hAttrs)
  subst hSame
  exact ⟨hClass'.symm.trans hClass, hNext'.symm.trans hNext⟩

/- No kinds were collected for a state that was not built. -/
theorem active_of_size_le
    (hBuilt : BuiltFrom g s c lx)
    (hCollects : Collects g s.tokenCount g.entries c)
    {i : Nat}
    (hOutside : lx.states.size ≤ i) :
    c.active.getD i [] = [] := by
  rw [hBuilt.size_eq hCollects, ← hCollects.activeSize]
    at hOutside
  rw [Array.getD_eq_getD_getElem?,
    Array.getElem?_eq_none hOutside]
  rfl

/- Characters that are passed over are matches to skip. -/
theorem BuiltFrom.pass
    (hBuilt : BuiltFrom g s c lx)
    (hTree : g.RegexTree)
    (hApart : EntriesApart g)
    (hCollects : Collects g s.tokenCount g.entries c)
    (hKinds : s.tokenCount ≤ noKind)
    (hOption : s.options.ignoreCase = false)
    (hCase : g.CaseCounts s)
    {i d : Nat}
    {rest : List Nat}
    (hInside : i < lx.states.size)
    (hUnits : IsUnits (d :: rest))
    (hPass : Assoc.contains d (lx.state i).skipChars = true) :
    ∃ k, Longest ((g.rules s).matching i) (d :: rest) 1 k ∧
      (g.rules s).cls k = .skip ∧
        (g.rules s).next k = none := by
  rcases hBuilt.longest_of_pass hTree hOption hInside
      (orderly_of_collects hApart hCollects hKinds i)
      (Grammar.caseCounts_active hCollects hCase i) hUnits
      hPass with
    ⟨k, hPlain, hLongest⟩
  have hMatching := Grammar.matching_rules hCollects i
  rw [hOption] at hMatching
  rw [← hMatching] at hLongest
  exact ⟨k, hLongest, hBuilt.skips_of_plainSkip hApart
    hCollects hPlain hLongest.kind.1⟩

/- The attempts of a lexer are longest matches. -/
theorem BuiltFrom.choose
    (hBuilt : BuiltFrom g s c lx)
    (hTree : g.RegexTree)
    (hApart : EntriesApart g)
    (hCollects : Collects g s.tokenCount g.entries c)
    (hKinds : s.tokenCount ≤ noKind)
    (hOption : s.options.ignoreCase = false)
    (hCase : g.CaseCounts s)
    {i d : Nat}
    {rest : List Nat}
    (hInit : (lx.state i).initMatch = none)
    (hInside : i < lx.states.size)
    (hUnits : IsUnits (d :: rest))
    (hPass : Assoc.contains d (lx.state i).skipChars = false) :
    (∃ n k, Longest ((g.rules s).matching i) (d :: rest) n k ∧
        ((lx.state i).attempt d rest).2.best =
          (k, (n : Int) - 1)) ∨
      (NoMatch ((g.rules s).matching i) (d :: rest) ∧
        ((lx.state i).attempt d rest).2.kind = noKind) := by
  have hOrderly := orderly_of_collects hApart hCollects hKinds i
  have hCounts := Grammar.caseCounts_active hCollects hCase i
  have hExact := hBuilt.exact hTree hOption hInside hOrderly
    hCounts
  have hSame := fun m (_ : m ≤ (d :: rest).length) =>
    hBuilt.sameLeast hInside hOption hCounts (hUnits.take m)
  rw [Grammar.matching_rules hCollects, hOption]
  rcases (LexState.attempt_spec hExact hUnits
      (hBuilt.skipKeys hInside hPass)).2
      (LexState.not_forgotten hInit _) with
    ⟨n, k, hLongest, hBest⟩ | ⟨hNone, hBest⟩
  · exact .inl ⟨n, k, hLongest.congr hSame, hBest⟩
  · refine .inr ⟨NoneAfter.congr hSame hNone, ?_⟩
    have hKind := congrArg Prod.fst hBest
    unfold LexState.blank LexState.blankAttempt at hKind
    rw [hInit] at hKind
    exact hKind

/-
  A lexer follows the rules of its grammar if it chooses
  longest matches in its states.
-/
theorem BuiltFrom.follows_of
    (hBuilt : BuiltFrom g s c lx)
    (hApart : EntriesApart g)
    (hCollects : Collects g s.tokenCount g.entries c)
    (hKinds : s.tokenCount ≤ noKind)
    (hChooses : ∀ i < lx.states.size,
      ChoosesIn lx (g.rules s) i) :
    Follows lx (g.rules s) where
  pass i d rest hUnits hPassed := by
    rcases Nat.lt_or_ge i lx.states.size with hInside | hOutside
    · exact (hChooses i hInside).pass d rest hUnits hPassed
    · rw [state_of_size_le hOutside] at hPassed
      cases hPassed
  choose i d rest hUnits hPassed := by
    rcases Nat.lt_or_ge i lx.states.size with hInside | hOutside
    · exact (hChooses i hInside).choose d rest hUnits hPassed
    · right
      refine ⟨?_, ?_⟩
      · intro m _ _ k hk
        rw [Grammar.matching_rules hCollects,
          active_of_size_le hBuilt hCollects hOutside] at hk
        rcases hk with ⟨a, ha, -⟩
        cases ha
      · rw [state_of_size_le hOutside]
        rfl
  past i := by
    rcases Nat.lt_or_ge i lx.states.size with hInside | hOutside
    · exact hBuilt.knowsPast hInside
    · rw [state_of_size_le hOutside]
      intro pos e he
      cases he
  attrs i k w hMatches := by
    rcases hBuilt.attrs_eq hApart hCollects hMatches with
      ⟨a, hAttrs, hClass, hNext⟩
    rw [hAttrs]
    exact ⟨hClass, hNext⟩
  kinds i k w hMatches := by
    rcases hMatches with ⟨e, -, hk, -, -⟩
    rcases entryKind?_eq_some hk with ⟨-, hSome, hBelow, -⟩
    exact ⟨hSome, (lt_of_lt_of_le hBelow hKinds).ne⟩

/-
  The lexer of a grammar in which case counts and nothing
  matches the empty text follows the rules of the grammar.
-/
theorem BuiltFrom.follows
    (hBuilt : BuiltFrom g s c lx)
    (hTree : g.RegexTree)
    (hApart : EntriesApart g)
    (hCollects : Collects g s.tokenCount g.entries c)
    (hKinds : s.tokenCount ≤ noKind)
    (hOption : s.options.ignoreCase = false)
    (hCase : g.CaseCounts s)
    (hInit : ∀ i < lx.states.size,
      (lx.state i).initMatch = none) :
    Follows lx (g.rules s) := by
  apply hBuilt.follows_of hApart hCollects hKinds
  intro i hInside
  constructor
  · intro d rest hUnits hPass
    exact hBuilt.pass hTree hApart hCollects hKinds hOption
      hCase hInside hUnits hPass
  · intro d rest hUnits hPass
    exact hBuilt.choose hTree hApart hCollects hKinds hOption
      hCase (hInit i hInside) hInside hUnits hPass

/-
  A lexer that follows the rules finds the tokens of every
  text by longest matches.
-/
theorem tokens?_of_follows
    {r : Rules}
    (hFollows : Follows lx r)
    {text : String}
    {o : Options}
    {sc : Scanner}
    (hText : Scanner.ofText lx text o = .ok sc) :
    ∃ result sc' out, sc.tokens? = some (result, sc') ∧
      (∀ out', Tokenizes r sc.input.units 0 0 out' ↔
        out' = out) ∧
      Scanner.ReportsAll out result := by
  rcases Scanner.rests_ofText hText with ⟨hRests, hUnits⟩
  rcases Scanner.tokens?_spec hFollows hUnits hRests with
    ⟨result, sc', out, hTokens, hTokenizes, hReports⟩
  refine ⟨result, sc', out, hTokens, ?_, hReports⟩
  intro out'
  constructor
  · intro hOther
    exact hOther.unique hTokenizes
  · intro hSame
    rw [hSame]
    exact hTokenizes

end Follows

------------------------------------------------------------
-- An example
------------------------------------------------------------

end Lexer

end Descent
