import Descent.Proofs.KindDefinitions
import Descent.Proofs.MaximalMunch

/-
  Literals that another kind shadows.

  The kind that is reported for a literal in which case counts
  is the least among its own, the one that the automaton
  accepts for its text, and a wildcard if the text is one unit.
  This is the least kind of the lexical state that matches the
  text, so a warning is given for the literals whose text a
  smaller kind matches, and it names the least of these.

  Main declarations:
    * `LexState.reportedKind_least`
    * `Lexer.shadowedBy?` and `Lexer.shadowedBy?_eq_some_iff`
    * `Lexer.foldl_warnShadowed`
    * `Lexer.definition?_of_entry`
    * `Lexer.literals_reported`
-/

------------------------------------------------------------
-- The kind that is reported
------------------------------------------------------------

namespace Descent

open TokenTable (listed)

namespace LexState

/- The kinds that compete for the text of a literal. -/
def Competes
    (st : LexState)
    (l : Literal)
    (k : Kind) : Prop :=
  k = l.kind ∨
    (∃ q, st.reads l.image = some q ∧
      st.dfa.accept? q = some k) ∨
    (l.image.length = 1 ∧ st.anyChar = some k)

/-
  What the automaton matches counts by the kind it accepts,
  and no other literal has the same text.
-/
theorem reportedKind_least
    {st : LexState}
    {lits : List Literal}
    {A : Matching}
    (hExact : st.Exact lits A)
    {l : Literal}
    (hl : l ∈ lits) :
    IsLeast { k | st.Competes l k }
      (st.literals.reportedKind (l.image.length - 1) l.kind
        st.anyChar) := by
  have hReported := reportedKind_spec hExact hl
  generalize st.literals.reportedKind _ _ _ = reported
    at hReported ⊢
  have hUnits := hExact.units l hl
  have hA := hExact.recognizes
  -- Whatever competes is a match.
  have hForth : ∀ k, st.Competes l k →
      st.AnyOf lits A k l.image := by
    rintro k (rfl | ⟨q, hReads, hAccept⟩ | ⟨hOne, hAny⟩)
    · exact .inl ⟨l, hl, rfl, rfl⟩
    · exact .inr (.inl
        ((hA.accept _ hUnits q hReads k).mp hAccept).1)
    · exact .inr (.inr ⟨hAny, hOne⟩)
  refine ⟨?_, fun k hk => hReported.2 (hForth k hk)⟩
  rcases hReported.1 with ⟨l', hl', rfl, hImage⟩ | hMatch |
    ⟨hAny, hOne⟩
  · exact .inl (congrArg Literal.kind
      (hExact.images l' hl' l hl hImage))
  · right; left
    cases hReads : st.reads l.image with
    | none => exact absurd hMatch (hA.dead _ hUnits hReads _)
    | some q =>
        refine ⟨q, rfl, (hA.accept _ hUnits q hReads _).mpr ?_⟩
        exact ⟨hMatch, fun k hk => hReported.2 (.inr (.inl hk))⟩
  · exact .inr (.inr ⟨hOne, hAny⟩)

end LexState

------------------------------------------------------------
-- Warnings
------------------------------------------------------------

namespace Lexer

/- The kind that a literal is reported as instead of its own. -/
def shadowedBy?
    (st : LexState)
    (l : Literal) : Option Kind :=
  let k := st.literals.reportedKind (l.image.length - 1) l.kind
    st.anyChar
  if k = l.kind then none else some k

/- The warning about a literal that is reported as a kind. -/
def shadowText
    (g : Grammar)
    (s : Session)
    (r : RegexNode)
    (k : Kind) : String :=
  let image := Text.escape (r.literal?.getD "")
  let label := kindLabel g s k
  s!" \"{image}\" cannot be matched as a string literal token at line " ++
    s!"{r.place.line}, column {r.place.column}. It will be matched as {label}."

/- The warning about a literal, if it is shadowed. -/
def shadowText?
    (g : Grammar)
    (s : Session)
    (st : LexState)
    (l : Literal) : Option String := do
  let k ← shadowedBy? st l
  let r ← s.definition? g l.kind
  return shadowText g s r k

/- A literal adds its warning and changes nothing else. -/
theorem warnShadowed_eq
    (g : Grammar)
    (st : LexState)
    (s : Session)
    (d : Diagnostics)
    (l : Literal) :
    warnShadowed g st { s with diagnostics := d } l =
      { s with
        diagnostics :=
          (shadowText? g s st l).elim d d.globalWarning } := by
  unfold warnShadowed shadowText? shadowedBy?
  by_cases hOwn : st.literals.reportedKind (l.image.length - 1)
      l.kind st.anyChar = l.kind
  · simp [hOwn]
  · have hSame : Session.definition?
        { s with diagnostics := d } g l.kind =
          s.definition? g l.kind := rfl
    simp only [beq_iff_eq, hOwn, if_false, hSame]
    cases s.definition? g l.kind <;> rfl

/- The warnings about the literals of a state, in order. -/
theorem foldl_warnShadowed
    (g : Grammar)
    (st : LexState)
    (s : Session)
    (lits : List Literal)
    (d : Diagnostics) :
    lits.foldl (warnShadowed g st) { s with diagnostics := d } =
      { s with
        diagnostics :=
          (lits.filterMap (shadowText? g s st)).foldl
            Diagnostics.globalWarning d } := by
  induction lits generalizing d with
  | nil => rfl
  | cons l lits ih =>
      rw [List.foldl_cons, warnShadowed_eq, ih,
        List.filterMap_cons]
      cases shadowText? g s st l <;> rfl

/- What shadows a literal is the least smaller kind. -/
theorem shadowedBy?_eq_some_iff
    {st : LexState}
    {l : Literal}
    {M : Kind → Prop}
    (hOwn : M l.kind)
    (hLeast : IsLeast { k | M k }
      (st.literals.reportedKind (l.image.length - 1) l.kind
        st.anyChar))
    (k : Kind) :
    shadowedBy? st l = some k ↔
      IsLeast { k | k < l.kind ∧ M k } k := by
  unfold shadowedBy?
  dsimp only
  generalize st.literals.reportedKind _ _ _ = reported at hLeast ⊢
  have hLe : reported ≤ l.kind := hLeast.2 hOwn
  rw [Option.ite_none_left_eq_some, Option.some_inj]
  constructor
  · rintro ⟨hNe, rfl⟩
    exact ⟨⟨lt_of_le_of_ne hLe hNe, hLeast.1⟩,
      fun j hj => hLeast.2 hj.2⟩
  · rintro ⟨⟨hLess, hk⟩, hLow⟩
    have hNe : reported ≠ l.kind :=
      ((hLeast.2 hk).trans_lt hLess).ne
    refine ⟨hNe, le_antisymm (hLeast.2 hk) (hLow ?_)⟩
    exact ⟨lt_of_le_of_ne hLe hNe, hLeast.1⟩

------------------------------------------------------------
-- Definitions of kinds
------------------------------------------------------------

section Built

variable {b : Builder} {o : Options}
variable {g : Grammar} {s : Session}

/- A grammar that was put together has not been numbered. -/
theorem fresh_of_made
    (hMade : Made b)
    (hListed : (listed b.grammar).Nodup) :
    b.grammar.Fresh := by
  have hFormed := hMade.wellFormed
  apply Grammar.fresh_of_partsBefore _ hListed
  intro id _
  exact ⟨hFormed.tokens.partsBefore id,
    hFormed.tokens.unnumbered id⟩

/- The expression that defines a kind is that of its entry. -/
theorem definition?_of_entry
    (hFresh : b.grammar.Fresh)
    (hPasses : analyze b.grammar (.new o) = (g, s, .ok ()))
    {e : Entry}
    (he : e ∈ g.entries)
    {k : Kind}
    (hKind : entryKind? g s.tokenCount e = some k) :
    s.definition? g k = some (g.regex e.2.regex) := by
  rcases entryKind?_eq_some hKind with ⟨rfl, hSome, -, hNot⟩
  unfold Session.definition?
  rw [defines_analyze hFresh hPasses e he hNot hSome]
  rfl

------------------------------------------------------------
-- Literals of a lexical state
------------------------------------------------------------

/-
  A literal of a lexical state: it is that of an entry, whose
  expression defines its kind, the least kind that competes for
  its text is reported, and it is shadowed by the least smaller
  kind of the state that matches its text, if there is one.
-/
structure Reported
    (g : Grammar)
    (s : Session)
    (i : Nat)
    (st : LexState)
    (l : Literal) : Prop where
  entry :
    ∃ e, g.LiteralIn s i e ∧
      entryKind? g s.tokenCount e = some l.kind ∧
      (∃ image, (g.regex e.2.regex).form = .literal image ∧
        Text.units image = l.image) ∧
      s.definition? g l.kind = some (g.regex e.2.regex)
  least :
    IsLeast { k | st.Competes l k }
      (st.literals.reportedKind (l.image.length - 1) l.kind
        st.anyChar)
  shadowed :
    ∀ k, shadowedBy? st l = some k ↔
      IsLeast
        { k | k < l.kind ∧ (g.rules s).matching i k l.image } k

/-
  The literals of a lexical state in which they do not ignore
  case: every one is in the table, the least kind is reported
  for each, and the warnings of the state are one for each
  literal that a smaller kind shadows, which name the least.

  A token expression that is listed twice would make two
  entries with one kind, and a kind would not tell its entry.
-/
theorem literals_reported
    (hMade : Made b)
    (hListed : (listed b.grammar).Nodup)
    (hPasses : analyze b.grammar (.new o) = (g, s, .ok ()))
    {s' : Session}
    {lx : Lexer}
    (hBuild : build g s = (s', .ok lx))
    (hKinds : s.tokenCount ≤ noKind)
    (hOption : s.options.ignoreCase = false)
    {i : Nat}
    (hInside : i < lx.states.size)
    (hSensitive :
      ∀ e, g.LiteralIn s i e → e.1.ignoreCase = false) :
    (∀ e, g.LiteralIn s i e →
        ∃ l ∈ (lx.state i).literals.literals,
          entryKind? g s.tokenCount e = some l.kind) ∧
      (∀ l ∈ (lx.state i).literals.literals,
        Reported g s i (lx.state i) l) ∧
      ∀ d, (lx.state i).literals.literals.foldl
          (warnShadowed g (lx.state i))
          { s with diagnostics := d } =
        { s with
          diagnostics :=
            ((lx.state i).literals.literals.filterMap
              (shadowText? g s (lx.state i))).foldl
                Diagnostics.globalWarning d } := by
  have hFresh := fresh_of_made hMade hListed
  rcases entriesApart_analyze hFresh hPasses with
    ⟨hTree, hApart⟩
  rcases builtFrom_build hBuild with ⟨c, hBuilt⟩
  have hCollects := collects_collect hApart hBuilt.collected
  have hOrderly := orderly_of_collects hApart hCollects hKinds i
  have hLiterals := Grammar.mem_literalsOf_iff hCollects i
  -- No literal of the state ignores case, so case counts there.
  have hAll : ∀ l ∈ literalsOf g (c.active.getD i []),
      l.ignoreCase = false := by
    intro l hl
    rcases (hLiterals l).mp hl with ⟨e, he, -, -, hCase⟩
    rw [← hCase]
    exact hSensitive e he
  have hCounts : CaseCounts g (c.active.getD i []) := by
    intro hSome
    rcases List.exists_mem_of_ne_nil _ hSome with ⟨l, hl⟩
    exact ⟨l, hl, hAll l hl⟩
  have hTable : tableLiterals g (c.active.getD i []) =
      literalsOf g (c.active.getD i []) := by
    refine if_neg ?_
    rw [isMixed, Bool.and_eq_true]
    rintro ⟨hAny, -⟩
    rcases List.any_eq_true.mp hAny with ⟨l, hl, hIgnores⟩
    rw [hAll l hl] at hIgnores
    cases hIgnores
  have hExact := hBuilt.exact hTree hOption hInside hOrderly
    hCounts
  have hMem := fun l => LexState.mem_literals hExact l
  rw [hTable] at hMem
  refine ⟨?_, ?_, fun d => foldl_warnShadowed g _ s _ d⟩
  · intro e he
    rcases he.2 with ⟨⟨k, hk⟩, -, image, hForm, -⟩
    refine ⟨⟨k, Text.units image, e.1.ignoreCase⟩, ?_, hk⟩
    rw [hMem, hLiterals]
    exact ⟨e, he, hk, ⟨image, hForm, rfl⟩, rfl⟩
  · intro l hl
    rw [hMem] at hl
    rcases (hLiterals l).mp hl with ⟨e, he, hk, hText, -⟩
    have hListedIn : l ∈ tableLiterals g (c.active.getD i []) := by
      rwa [hTable]
    have hSame := hBuilt.sameLeast hInside hOption hCounts
      (hExact.units l hListedIn)
    have hMatching := Grammar.matching_rules hCollects i
    rw [hOption] at hMatching
    rw [← hMatching] at hSame
    refine ⟨⟨e, he, hk, hText, ?_⟩,
      LexState.reportedKind_least hExact hListedIn, ?_⟩
    · exact definition?_of_entry hFresh hPasses he.1 hk
    · apply shadowedBy?_eq_some_iff
        (M := fun k => (g.rules s).matching i k l.image)
      · exact hSame.forth _ (.inl ⟨l, hListedIn, rfl, rfl⟩)
      · exact (hSame.isLeast_iff _).mp
          (LexState.reportedKind_spec hExact hListedIn)

end Built

------------------------------------------------------------
-- An example
------------------------------------------------------------

/- A word and any character, before two literals like them. -/
def shadowingTokens : Calls :=
  [.regex (.chars false [.range 97 122]),
    .regex (.oneOrMore 0),
    .regex (.chars true []),
    .regex (.literal "if"),
    .regex (.literal "+"),
    .tokenSection (some ["DEFAULT"]) .token false,
    .tokenSpec 0 1 none none,
    .tokenSpec 0 2 none none,
    .tokenSpec 0 3 none none,
    .tokenSpec 0 4 none none]

theorem literals_reported_shadowing :
    ∃ g s lx,
      analyze shadowingTokens.built.grammar (.new {}) =
          (g, s, .ok ()) ∧
        (build g s).2 = .ok lx ∧
        (∀ e, g.LiteralIn s 0 e →
          ∃ l ∈ (lx.state 0).literals.literals,
            entryKind? g s.tokenCount e = some l.kind) ∧
        (∀ l ∈ (lx.state 0).literals.literals,
          Reported g s 0 (lx.state 0) l) ∧
        ∀ d, (lx.state 0).literals.literals.foldl
            (warnShadowed g (lx.state 0))
            { s with diagnostics := d } =
          { s with
            diagnostics :=
              ((lx.state 0).literals.literals.filterMap
                (shadowText? g s (lx.state 0))).foldl
                  Diagnostics.globalWarning d } := by
  have hMade : Made shadowingTokens.built := by
    apply Calls.made_built
    simp only [ValidCalls, shadowingTokens, Call.Valid]
    decide +kernel
  have hListed : (listed shadowingTokens.built.grammar).Nodup := by
    decide +kernel
  have hChecks : (fun r : Grammar × Session ×
      Except Failure Unit => (r.2.2, r.2.1.tokenCount,
        r.2.1.options.ignoreCase,
        r.1.entries.all (fun e => !e.1.ignoreCase),
        (build r.1 r.2.1).2.toOption.any
          fun lx => decide (0 < lx.states.size)))
        (analyze shadowingTokens.built.grammar (.new {})) =
      (.ok (), 5, false, true, true) := by
    cbv
  generalize hAnalyze : analyze shadowingTokens.built.grammar
    (.new {}) = r at hChecks ⊢
  rcases r with ⟨g, s, passed⟩
  simp only [Prod.mk.injEq] at hChecks
  rcases hChecks with ⟨rfl, hCount, hOption, hCase, hSize⟩
  generalize hBuild : build g s = outcome at hSize
  rcases outcome with ⟨s', built⟩
  cases built with
  | error e => cases hSize
  | ok lx =>
      refine ⟨g, s, lx, rfl, by rw [hBuild], ?_⟩
      apply literals_reported hMade hListed hAnalyze
        hBuild (by rw [hCount]; decide) hOption
        (of_decide_eq_true hSize)
      intro e he
      have hSensitive := List.all_eq_true.mp hCase e he.1
      simpa using hSensitive

/- The word shadows one literal, the wildcard the other. -/
example :
    (fun r : Grammar × Session × Except Failure Unit =>
        (build r.1 r.2.1).2.toOption.map fun lx =>
          (lx.state 0).literals.literals.map
            (shadowedBy? (lx.state 0)))
      (analyze shadowingTokens.built.grammar (.new {})) =
        some [some 1, some 2] := by
  cbv

end Lexer

end Descent
