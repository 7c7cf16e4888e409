import Descent.Proofs.KindTexts
import Descent.Proofs.Progress

/-
  The texts of literal tokens.

  A lexer keeps one text for the kind of a literal, unless
  letters in it may be written in either case or the kind may
  end a token that began as another kind.  The tokens of such
  a kind have exactly this text, whatever is scanned and
  however the lexical state is changed between tokens: a token
  is an unbroken match unless an unfinished one led to its
  lexical state, and then no kind of that state has one text.

  Main declarations:
    * `Lexer.Renders`
    * `Scanner.Faithful`
    * `Scanner.Run`
    * `Lexer.image_eq_of_literalImage?`
-/

namespace Descent

namespace Lexer

------------------------------------------------------------
-- Lexers
------------------------------------------------------------

section Built

variable {g : Grammar} {s : Session} {c : Collected}
variable {lx : Lexer}

/- A state that a lexer does not have finds nothing. -/
theorem textOf_default
    {k : Nat}
    (hReal : k ≠ noKind)
    (image : List Nat) :
    (default : LexState).TextOf k image := by
  have hAccept : ∀ q,
      (default : LexState).dfa.accept? q = none := by
    intro q
    change ((#[] : Array DfaState).getD q default).accept = none
    rw [Array.getD_eq_getD_getElem?, Array.getElem?_empty]
    rfl
  refine ⟨hReal, ?_, ?_, ?_, .inl rfl⟩
  · intro hAny
    cases hAny
  · intro hInit
    cases hInit
  · intro w _ q _ hKind
    rw [hAccept] at hKind
    cases hKind

/- Characters that are passed over change no text. -/
theorem textOf_withSkips
    {st : LexState}
    {k : Nat}
    {image : List Nat}
    (hText : st.TextOf k image)
    (kinds : Array (Option KindAttrs))
    (ignoreCase reached : Bool) :
    ({ withSkips st kinds ignoreCase with
        reachedOnMore := reached } : LexState).TextOf k
      image := by
  refine ⟨hText.real, hText.wildcard, hText.empty,
    hText.accept, ?_⟩
  rcases hText.table with hNone | hTabled
  · exact .inl hNone
  · exact .inr ⟨hTabled.plain, hTabled.entry, hTabled.apart,
      hTabled.known, hTabled.shadows⟩

theorem BuiltFrom.textOf
    (hBuilt : BuiltFrom g s c lx)
    (hTree : g.RegexTree)
    {i k : Nat}
    (hReal : k ≠ noKind)
    {image : String}
    (hRigid : ∀ a ∈ c.active.getD i [], a.kind = k →
      Rigid g s.options.ignoreCase image a) :
    (lx.state i).TextOf k (Text.units image) := by
  by_cases hInside : i < lx.states.size
  · rcases hBuilt.state i hInside with ⟨name, reached, hState⟩
    have hText := @textOf_tablesOf g (c.active.getD i []) name i
      s.options.ignoreCase k image hTree hReal hRigid
    rw [hState]
    exact textOf_withSkips hText c.kinds s.options.ignoreCase
      reached
  · rw [state_of_size_le (not_lt.mp hInside)]
    exact textOf_default hReal _

/- The kinds of a state are those that are active there. -/
theorem BuiltFrom.mem_kinds
    (hBuilt : BuiltFrom g s c lx)
    {i : Nat}
    (hInside : i < lx.states.size)
    (k : Nat) :
    k ∈ (lx.state i).kinds ↔
      ∃ a ∈ c.active.getD i [], a.kind = k := by
  rcases hBuilt.state i hInside with ⟨name, reached, hState⟩
  have hKinds : (lx.state i).kinds =
      ((c.active.getD i []).map (·.kind)).mergeSort
        (· ≤ ·) := by
    rw [hState]
    rfl
  rw [hKinds, List.mem_mergeSort, List.mem_map]

/- In every lexical state a unit is passed over or looked up. -/
theorem BuiltFrom.skipKeys_of_pass
    (hBuilt : BuiltFrom g s c lx)
    {i d : Nat}
    (hPass : Assoc.contains d (lx.state i).skipChars = false) :
    (lx.state i).skipKeys.contains d = false := by
  by_cases hInside : i < lx.states.size
  · exact hBuilt.skipKeys hInside hPass
  · rw [state_of_size_le (not_lt.mp hInside)]
    rfl

/-
  Only active kinds are found: one that is not active would be
  found with every text.
-/
theorem BuiltFrom.active_of_attempt
    (hBuilt : BuiltFrom g s c lx)
    (hTree : g.RegexTree)
    {i first : Nat}
    {rest : List Nat}
    (hUnits : IsUnits (first :: rest))
    (hPass : Assoc.contains first
      (lx.state i).skipChars = false)
    (hReal : ((lx.state i).attempt first rest).2.kind ≠
      noKind) :
    ∃ a ∈ c.active.getD i [],
      a.kind = ((lx.state i).attempt first rest).2.kind := by
  by_contra hNot
  have hAny : ∀ image : String,
      LexState.Fits (first :: rest)
        ((lx.state i).attempt first rest).2.kind
        (Text.units image)
        ((lx.state i).attempt first rest).2.best := by
    intro image
    apply LexState.best_attempt_of_textOf _ hUnits
      (hBuilt.skipKeys_of_pass hPass)
    apply hBuilt.textOf hTree hReal
    intro a ha hKind
    exact absurd ⟨a, ha, hKind⟩ hNot
  have hEmpty := (hAny "" rfl).1
  have hOne := (hAny "a" rfl).1
  rw [hEmpty] at hOne
  cases hOne

/- A kind with one text, read off the tables. -/
theorem literalImage?_eq_some
    {k : Nat}
    (hZero : k ≠ 0)
    {image : String}
    (hImage : lx.literalImage? g k = some image) :
    ∃ a, lx.attrs? k = some a ∧
      (g.regex a.regex).form = .literal image ∧
      ((a.ignoreCase || lx.ignoreCase) = true →
        Text.isCaseless image = true) ∧
      ∀ st ∈ lx.states, st.reachedOnMore = true →
        k ∉ st.kinds := by
  unfold literalImage? at hImage
  rw [if_neg (by simpa using hZero)] at hImage
  rcases Option.bind_eq_some_iff.mp hImage with
    ⟨a, hAttrs, hRest⟩
  rcases Option.bind_eq_some_iff.mp hRest with
    ⟨text, hText, hWritten⟩
  dsimp only at hWritten
  rw [Option.ite_none_left_eq_some, Option.some_inj] at hWritten
  rcases hWritten with ⟨hSure, rfl⟩
  refine ⟨a, hAttrs, ?_, ?_, ?_⟩
  · unfold RegexNode.literal? at hText
    split at hText
    · next hForm =>
        cases hText
        exact hForm
    · cases hText
  · intro hIgnores
    by_contra hLetters
    rw [Bool.not_eq_true] at hLetters
    apply hSure
    simp [hIgnores, hLetters]
  · intro st hst hReached hMem
    apply hSure
    have hContinues : lx.states.any (fun st =>
        st.reachedOnMore && st.kinds.contains k) = true := by
      rw [Array.any_eq_true']
      exact ⟨st, hst, by simp [hReached, hMem]⟩
    rw [hContinues]
    simp

/- A kind with one text is a literal that is written in one way. -/
theorem BuiltFrom.rigid
    (hBuilt : BuiltFrom g s c lx)
    (hCollects : Collects g s.tokenCount g.entries c)
    (hOption : lx.ignoreCase = s.options.ignoreCase)
    {k : Nat}
    {image : String}
    (hImage : lx.literalImage? g k = some image)
    {i : Nat}
    {a : Active}
    (ha : a ∈ c.active.getD i [])
    (hKind : a.kind = k) :
    Rigid g s.options.ignoreCase image a := by
  rcases (hCollects.active i a).mp ha with
    ⟨e, he, k', hk', -, rfl⟩
  change k' = k at hKind
  subst hKind
  rcases hCollects.attrs e he k' hk' with ⟨next, -, hAttrs⟩
  rcases literalImage?_eq_some (entryKind?_eq_some hk').2.1
    hImage with ⟨b, hSame, hForm, hCase, -⟩
  have hEntry : b = entryAttrs e next := by
    unfold attrs? at hSame
    rw [hBuilt.kinds, hAttrs] at hSame
    exact (Option.some_inj.mp hSame).symm
  rw [hEntry] at hForm hCase
  rw [hOption] at hCase
  exact ⟨hForm, hCase⟩

/- A state with kinds is a state of the lexer. -/
theorem lt_size_of_mem_kinds
    {i k : Nat}
    (hMem : k ∈ (lx.state i).kinds) :
    i < lx.states.size := by
  by_contra hOutside
  rw [state_of_size_le (not_lt.mp hOutside)] at hMem
  cases hMem

/- The kinds of a state, and whether unfinished tokens lead there. -/
theorem state_of_build
    (hLexer : lx.states = (builtStates g s c).map fun st =>
      { st with
        reachedOnMore :=
          (moreTargets c.kinds
            (builtStates g s c)).contains st.index })
    {i : Nat}
    (hInside : i < lx.states.size) :
    (∃ st ∈ builtStates g s c, st.index = i ∧
        st.kinds = (lx.state i).kinds) ∧
      (lx.state i).reachedOnMore =
        (moreTargets c.kinds
          (builtStates g s c)).contains i := by
  have hSize : i < (builtStates g s c).size := by
    rw [hLexer, Array.size_map] at hInside
    exact hInside
  have hIndex : (builtStates g s c)[i].index = i := by
    simp [builtStates, builtState, withSkips, tablesOf]
  unfold state
  rw [hLexer, Array.getD_eq_getD_getElem?, Array.getElem?_map,
    Array.getElem?_eq_getElem hSize]
  constructor
  · exact ⟨_, Array.getElem_mem hSize, hIndex, rfl⟩
  · change (moreTargets c.kinds (builtStates g s c)).contains
      (builtStates g s c)[i].index = _
    rw [hIndex]

/-
  In a lexical state where unfinished tokens go on, no kind
  has one text.
-/
theorem literalImage?_after_more
    {s' : Session}
    (hBuild : build g s = (s', .ok lx))
    {i k : Nat}
    (hMem : k ∈ (lx.state i).kinds)
    {a : KindAttrs}
    (hAttrs : lx.attrs? k = some a)
    (hMore : a.cls = .more)
    {k' : Nat}
    (hMem' : k' ∈ (lx.state (a.nextState.getD i)).kinds)
    (hZero : k' ≠ 0) :
    lx.literalImage? g k' = none := by
  rcases build_eq_ok hBuild with ⟨c, eofNext, -, hLexer⟩
  have hStates := congrArg Lexer.states hLexer
  have hThere := lt_size_of_mem_kinds hMem'
  rcases (state_of_build hStates
    (lt_size_of_mem_kinds hMem)).1 with
    ⟨st, hst, hIndex, hKinds⟩
  have hReached := (state_of_build hStates hThere).2
  have hTarget : (moreTargets c.kinds
      (builtStates g s c)).contains (a.nextState.getD i) =
        true := by
    rw [List.contains_iff_mem]
    apply List.mem_flatMap.mpr
    refine ⟨st, Array.mem_toList_iff.mpr hst,
      List.mem_filterMap.mpr ⟨k, hKinds ▸ hMem, ?_⟩⟩
    have hSame : c.kinds.getD k none = some a := by
      rw [← hAttrs, hLexer]
      rfl
    rw [hSame, hIndex]
    simp [hMore]
  rw [hTarget] at hReached
  rw [Option.eq_none_iff_forall_ne_some]
  intro image hImage
  rcases literalImage?_eq_some hZero hImage with
    ⟨b, -, -, -, hApart⟩
  apply hApart (lx.state (a.nextState.getD i)) _ hReached hMem'
  unfold state
  rw [Array.getD_eq_getD_getElem?,
    Array.getElem?_eq_getElem hThere]
  exact Array.getElem_mem hThere

end Built

------------------------------------------------------------
-- What is found
------------------------------------------------------------

/-
  The attempts of a lexer find active kinds, and those with
  one text where their text stands.
-/
structure Renders
    (lx : Lexer)
    (g : Grammar) : Prop where
  past : ∀ q, (lx.state q).KnowsPast
  positive : ∀ q, 0 ∉ (lx.state q).kinds
  active :
    ∀ q c rest, IsUnits (c :: rest) →
      Assoc.contains c (lx.state q).skipChars = false →
      ((lx.state q).attempt c rest).2.kind ≠ noKind →
        ((lx.state q).attempt c rest).2.kind ∈
          (lx.state q).kinds
  text :
    ∀ q c rest, IsUnits (c :: rest) →
      Assoc.contains c (lx.state q).skipChars = false →
      ((lx.state q).attempt c rest).2.kind ≠ noKind →
      ∀ image, lx.literalImage? g
          ((lx.state q).attempt c rest).2.kind = some image →
        ((lx.state q).attempt c rest).2.pos =
            ((Text.units image).length : Int) - 1 ∧
          Text.units image <+: c :: rest
  more :
    ∀ q k a k', k ∈ (lx.state q).kinds →
      lx.attrs? k = some a → a.cls = .more →
      k' ∈ (lx.state (a.nextState.getD q)).kinds →
        lx.literalImage? g k' = none

/- The lexer of a grammar that passes analysis does so. -/
theorem renders_build
    {g₀ g : Grammar}
    {s₀ s s' : Session}
    {lx : Lexer}
    (hFresh : g₀.Fresh)
    (hPasses : analyze g₀ s₀ = (g, s, .ok ()))
    (hBuild : build g s = (s', .ok lx)) :
    lx.Renders g := by
  rcases entriesApart_analyze hFresh hPasses with
    ⟨hTree, hApart⟩
  rcases builtFrom_build hBuild with ⟨c, hBuilt⟩
  have hCollects := collects_collect hApart hBuilt.collected
  have hOption : lx.ignoreCase = s.options.ignoreCase := by
    rcases build_eq_ok hBuild with ⟨c', eofNext, -, hLexer⟩
    rw [hLexer]
  have hPositive : ∀ q, 0 ∉ (lx.state q).kinds := by
    intro q hMem
    rcases (hBuilt.mem_kinds (lt_size_of_mem_kinds hMem) 0).mp hMem with
      ⟨a, ha, hKind⟩
    exact (kind_of_active hCollects ha).1 hKind
  refine ⟨?_, hPositive, ?_, ?_, ?_⟩
  · intro q
    by_cases hState : q < lx.states.size
    · exact hBuilt.knowsPast hState
    · rw [state_of_size_le (not_lt.mp hState)]
      intro pos e he
      cases he
  · intro q first rest hUnits hPass hReal
    have hActive := hBuilt.active_of_attempt hTree hUnits hPass
      hReal
    have hState : q < lx.states.size := by
      by_contra hOutside
      rcases hActive with ⟨a, ha, -⟩
      have hSize := hBuilt.size_eq hCollects
      rw [Array.getD_eq_getD_getElem?,
        Array.getElem?_eq_none (by
          rw [hCollects.activeSize, ← hSize]
          exact not_lt.mp hOutside)] at ha
      cases ha
    exact (hBuilt.mem_kinds hState _).mpr hActive
  · intro q first rest hUnits hPass hReal image hImage
    apply LexState.best_attempt_of_textOf _ hUnits
      (hBuilt.skipKeys_of_pass hPass) rfl
    apply hBuilt.textOf hTree hReal
    intro a ha hKind
    exact hBuilt.rigid hCollects hOption hImage ha hKind
  · intro q k a k' hMem hAttrs hMore hMem'
    apply literalImage?_after_more hBuild hMem hAttrs hMore
      hMem'
    intro hZero
    rw [hZero] at hMem'
    exact hPositive _ hMem'

end Lexer

------------------------------------------------------------
-- Tokens
------------------------------------------------------------

namespace Scanner

/- A token has the text of its kind, if the kind has one text. -/
def Faithful
    (lx : Lexer)
    (g : Grammar)
    (t : Token) : Prop :=
  ∀ image, lx.literalImage? g t.lexeme.kind = some image →
    t.lexeme.image = image

/- A scanner of a lexer that is somewhere in a text. -/
structure Within
    (lx : Lexer)
    (us : Array SourceUnit)
    (sc : Scanner) : Prop where
  lexer : sc.lexer = lx
  units : sc.input.units = us
  inside : sc.input.next ≤ us.size

/- A match is a whole token, or its kind has no one text. -/
def Whole
    (lx : Lexer)
    (g : Grammar)
    (q start offset : Nat) : Prop :=
  start = offset ∨
    ∀ k ∈ (lx.state q).kinds, lx.literalImage? g k = none

/- What an outcome means for the tokens of a scanner. -/
def Trusted
    (lx : Lexer)
    (g : Grammar)
    (us : Array SourceUnit) : Step × Scanner → Prop
  | (.done result, sc) =>
      Within lx us sc ∧
        ∀ t, result = .ok t → Faithful lx g t
  | (.restart, sc) => Within lx us sc
  | (.proceed, sc) =>
      ∃ q start offset,
        Stands lx us sc q start offset sc.specials ∧
          Whole lx g q start offset

section Steps

variable {lx : Lexer} {g : Grammar} {us : Array SourceUnit}

theorem Rests.within
    {sc : Scanner}
    {q offset : Nat}
    {specials : List Lexeme}
    (hRests : Rests lx us sc q offset specials) :
    Within lx us sc :=
  ⟨hRests.lexer, hRests.units,
    hRests.next.trans_le hRests.inside⟩

theorem Within.rests
    {sc : Scanner}
    (hWithin : Within lx us sc) :
    Rests lx us sc sc.state sc.input.next sc.specials :=
  ⟨hWithin.lexer, hWithin.units, rfl, rfl, rfl,
    hWithin.inside⟩

/- Whatever an attempt finds, the scanner stays in the text. -/
theorem within_consume
    {sc : Scanner}
    {q start offset : Nat}
    {specials : List Lexeme}
    (hStands : Stands lx us sc q start offset specials)
    {result : Nat × Attempt}
    (hTracks : LexState.Tracks (lx.state q)
      (unitsFrom us (offset + 1)).length result) :
    Within lx us (sc.consume result.1 result.2) := by
  have hRead := hTracks.read
  have hInside := hStands.inside
  rw [length_unitsFrom] at hRead
  have hNext := hStands.next
  refine ⟨hStands.lexer, ?_, ?_⟩
  · rw [← hStands.units]
    unfold consume
    dsimp only
    split
    · rfl
    · rfl
  · have hBegin := hStands.tokenBegin
    have hStarted := hStands.started
    unfold consume
    dsimp only
    split
    · unfold Input.backup
      dsimp only
      omega
    · dsimp only
      omega

/- A match that is taken leaves the scanner in the text. -/
theorem within_deliver
    {sc : Scanner}
    (hWithin : Within lx us sc)
    (k : Kind) :
    Within lx us (sc.deliver k).2 := by
  have hFrames := frames_deliver sc k
  refine ⟨hFrames.1.trans hWithin.lexer,
    hFrames.2.trans hWithin.units, ?_⟩
  have hInside := hWithin.inside
  unfold deliver
  dsimp only
  split
  · exact hInside
  · exact hInside
  · exact hInside
  · unfold Input.read
    dsimp only [enter]
    cases hGet : sc.input.units[sc.input.next]? with
    | none => exact hInside
    | some u =>
        have hLess := (Array.getElem?_eq_some_iff.mp hGet).1
        rw [hWithin.units] at hLess
        exact hLess

/- What becomes of a match that is taken. -/
theorem trusted_deliver
    {sc : Scanner}
    {q start stop k : Nat}
    (hTook : Took lx us sc q start stop sc.specials)
    (hStarted : start ≤ stop)
    (hStop : stop ≤ us.size)
    (hToken : ∀ image, lx.literalImage? g k = some image →
      (lexemeAt us k start stop).image = image)
    (hMore : ∀ a, lx.attrs? k = some a → a.cls = .more →
      ∀ k' ∈ (lx.state (a.nextState.getD q)).kinds,
        lx.literalImage? g k' = none) :
    Trusted lx g us (sc.deliver k) := by
  have hWithin := @within_deliver lx us sc
    ⟨hTook.lexer, hTook.units, hTook.next.trans_le hStop⟩ k
  have hDelivers := delivers_deliver hTook rfl rfl hStarted
    hStop (k := k)
  unfold Delivers at hDelivers
  cases hClass : ((lx.attrs? k).map (·.cls)).getD .token with
  | token =>
      rw [hClass] at hDelivers
      rcases hDelivers with ⟨sc', hOutcome, -⟩
      rw [hOutcome] at hWithin ⊢
      refine ⟨hWithin, fun t ht => ?_⟩
      cases ht
      exact hToken
  | special =>
      rw [hClass] at hDelivers
      rcases hDelivers with ⟨sc', hOutcome, -⟩
      rw [hOutcome] at hWithin ⊢
      exact hWithin
  | skip =>
      rw [hClass] at hDelivers
      rcases hDelivers with ⟨sc', hOutcome, -⟩
      rw [hOutcome] at hWithin ⊢
      exact hWithin
  | more =>
      rw [hClass] at hDelivers
      dsimp only at hDelivers
      cases hAttrs : lx.attrs? k with
      | none =>
          rw [hAttrs] at hClass
          cases hClass
      | some a =>
          rw [hAttrs] at hClass hDelivers
          split at hDelivers
          · rcases hDelivers with ⟨sc', hOutcome, hStands⟩
            rw [hOutcome]
            refine ⟨_, start, stop, ?_,
              .inr (hMore a hAttrs hClass)⟩
            rw [hStands.specials]
            exact hStands
          · rcases hDelivers with
              ⟨name, place, found, sc', hOutcome⟩
            rw [hOutcome] at hWithin ⊢
            refine ⟨hWithin, fun t ht => ?_⟩
            cases ht

/-
  A match that the token began with has the text of its kind,
  and no other match of a kind with one text is made.
-/
theorem image_lexemeAt
    {q start offset n k : Nat}
    (hWhole : Whole lx g q start offset)
    (hActive : k ∈ (lx.state q).kinds)
    {image : String}
    (hImage : lx.literalImage? g k = some image)
    (hLength : n = (Text.units image).length)
    (hPrefix : Text.units image <+: unitsFrom us offset) :
    (lexemeAt us k start (offset + n)).image = image := by
  rcases hWhole with hStart | hNone
  · have hText : (unitsFrom us offset).take n =
        Text.units image := by
      rw [hLength]
      exact (List.prefix_iff_eq_take.mp hPrefix).symm
    unfold lexemeAt
    dsimp only
    rw [hStart, Nat.add_sub_cancel_left, hText]
    exact Text.ofUnits_units image
  · rw [hNone k hActive] at hImage
    cases hImage

/- An attempt where no unit is passed over. -/
theorem trusted_attemptHere
    (hRenders : lx.Renders g)
    (hUnits : ∀ u ∈ us.toList, u.unit ≤ Text.maxUnit)
    {sc : Scanner}
    {q start offset : Nat}
    (hStands : Stands lx us sc q start offset sc.specials)
    (hWhole : Whole lx g q start offset)
    (hPass : Assoc.contains sc.current
      (lx.state q).skipChars = false) :
    Trusted lx g us sc.attemptHere := by
  have hText := isUnits_unitsFrom hUnits offset
  have hRest : sc.input.rest = unitsFrom us (offset + 1) := by
    rw [rest_eq, hStands.units, hStands.next]
  have hState : sc.lexState = lx.state q := by
    unfold lexState
    rw [hStands.lexer, hStands.state]
  rw [hStands.text] at hText
  have hTracks := LexState.attempt_tracks (lx.state q)
    sc.current (unitsFrom us (offset + 1))
  have hActive := hRenders.active q sc.current _ hText hPass
  have hFound := hRenders.text q sc.current _ hText hPass
  rw [← hStands.text] at hFound
  unfold attemptHere
  dsimp only
  rw [hState, hRest]
  generalize (lx.state q).attempt sc.current
    (unitsFrom us (offset + 1)) = result
    at hTracks hActive hFound ⊢
  rcases result with ⟨looked, a⟩
  have hWithin := within_consume hStands hTracks
  dsimp only at hActive hFound hWithin ⊢
  split
  · refine ⟨hWithin, fun t ht => ?_⟩
    cases ht
  next hSome =>
    have hReal : a.kind ≠ noKind := by simpa using hSome
    have hTook := took_consume hStands looked hReal
    rcases Int.eq_ofNat_of_zero_le
        (a := a.pos + 1) (by
          have hLeast := hTracks.least
          dsimp only at hLeast
          omega) with ⟨n, hn⟩
    have hNext := next_consume hStands hTracks
      (hRenders.past q) (n := n)
      (by dsimp only; omega) hReal
    dsimp only at hNext
    rw [hNext] at hTook
    have hStop : offset + n ≤ us.size := by
      have hInside := hWithin.inside
      rwa [hNext] at hInside
    have hStarted : start ≤ offset + n :=
      hStands.started.trans (Nat.le_add_right _ _)
    have hToken : ∀ image,
        lx.literalImage? g a.kind = some image →
          (lexemeAt us a.kind start (offset + n)).image =
            image := by
      intro image hImage
      rcases hFound hReal image hImage with ⟨hPos, hPrefix⟩
      exact image_lexemeAt hWhole (hActive hReal) hImage
        (by omega) hPrefix
    have hMore := fun b hAttrs hClass k' =>
      hRenders.more q a.kind b k' (hActive hReal) hAttrs hClass
    split
    · split
      · refine ⟨hWithin, fun t ht => ?_⟩
        cases ht
      · apply trusted_deliver _ hStarted hStop hToken hMore
        exact ⟨hTook.lexer, hTook.units, hTook.next,
          hTook.tokenBegin, hTook.state, rfl⟩
    · exact trusted_deliver
        ⟨hTook.lexer, hTook.units, hTook.next,
          hTook.tokenBegin, hTook.state, rfl⟩
        hStarted hStop hToken hMore

/- A step from the first unit of a match. -/
theorem trusted_step
    (hRenders : lx.Renders g)
    (hUnits : ∀ u ∈ us.toList, u.unit ≤ Text.maxUnit)
    {sc : Scanner}
    {q start offset : Nat}
    (hStands : Stands lx us sc q start offset sc.specials)
    (hWhole : Whole lx g q start offset) :
    Trusted lx g us sc.step := by
  rcases step_spec hStands with ⟨hPass, hStep⟩ |
    ⟨c, passed, tail, sc', -, -, -, hStep⟩
  · rw [hStep]
    exact trusted_attemptHere hRenders hUnits hStands hWhole
      hPass
  · rcases hStep with ⟨hStep, hRests⟩ | ⟨hStep, hLater, hPass⟩
    · rw [hStep]
      exact hRests.within
    · rw [hStep]
      rw [← hLater.specials] at hLater
      exact trusted_attemptHere hRenders hUnits hLater
        (.inl rfl) hPass

/- A step before a token. -/
theorem trusted_begin
    (hRenders : lx.Renders g)
    (hUnits : ∀ u ∈ us.toList, u.unit ≤ Text.maxUnit)
    {sc : Scanner}
    (hWithin : Within lx us sc) :
    Trusted lx g us sc.begin := by
  rcases begin_spec hWithin.rests with
    ⟨sc', hBegin, hStands, -⟩ | ⟨hEnd, sc', hBegin⟩
  · rw [hBegin]
    rw [← hStands.specials] at hStands
    exact trusted_step hRenders hUnits hStands (.inl rfl)
  · have hAfter : Within lx us sc.begin.2 := by
      have hFrames := frames_begin sc
      refine ⟨hFrames.1.trans hWithin.lexer,
        hFrames.2.trans hWithin.units, ?_⟩
      unfold begin Input.beginToken
      rw [read_at_end (by rw [hWithin.units]; exact hEnd)]
      exact hWithin.inside
    rw [hBegin] at hAfter ⊢
    refine ⟨hAfter, fun t ht image hImage => ?_⟩
    cases ht
    have hEmpty : "" = image := Option.some_inj.mp hImage
    rw [← hEmpty]
    unfold lexemeAt
    dsimp only
    rw [Nat.sub_self, List.take_zero]
    rfl

/- Steps up to a token or a failure. -/
theorem trusted_steps
    (hRenders : lx.Renders g)
    (hUnits : ∀ u ∈ us.toList, u.unit ≤ Text.maxUnit)
    {fuel : Nat}
    {a : Step × Scanner}
    (hTrusted : Trusted lx g us a)
    {result : Except Failure Token}
    {sc : Scanner}
    (hSteps : steps fuel a = some (result, sc)) :
    Within lx us sc ∧
      ∀ t, result = .ok t → Faithful lx g t := by
  induction fuel generalizing a with
  | zero =>
      rcases a with ⟨outcome, sc'⟩
      cases outcome with
      | done result' =>
          cases hSteps
          exact hTrusted
      | restart => cases hSteps
      | proceed => cases hSteps
  | succ fuel ih =>
      rcases a with ⟨outcome, sc'⟩
      cases outcome with
      | done result' =>
          cases hSteps
          exact hTrusted
      | restart =>
          exact ih (trusted_begin hRenders hUnits hTrusted)
            hSteps
      | proceed =>
          rcases hTrusted with
            ⟨q, start, offset, hStands, hWhole⟩
          exact ih (trusted_step hRenders hUnits hStands
            hWhole) hSteps

theorem faithful_nextToken?
    (hRenders : lx.Renders g)
    (hUnits : ∀ u ∈ us.toList, u.unit ≤ Text.maxUnit)
    {sc sc' : Scanner}
    (hWithin : Within lx us sc)
    {result : Except Failure Token}
    (hNext : sc.nextToken? = some (result, sc')) :
    Within lx us sc' ∧
      ∀ t, result = .ok t → Faithful lx g t :=
  trusted_steps hRenders hUnits
    (trusted_begin hRenders hUnits hWithin) hNext

end Steps

------------------------------------------------------------
-- Runs
------------------------------------------------------------

/-
  What a scanner comes to by looking for tokens and by going
  to lexical states in between.
-/
inductive Run
    (sc : Scanner) : Scanner → Prop where
  | start : Run sc sc
  | next
      {sc₁ sc₂ : Scanner}
      {result : Except Failure Token}
      (hRun : Run sc sc₁)
      (hNext : sc₁.nextToken? = some (result, sc₂)) :
      Run sc sc₂
  | switch
      {sc₁ sc₂ : Scanner}
      {name : String}
      (hRun : Run sc sc₁)
      (hSwitch : sc₁.switchTo name = .ok sc₂) :
      Run sc sc₂

theorem Run.within
    {lx : Lexer}
    {g : Grammar}
    {us : Array SourceUnit}
    (hRenders : lx.Renders g)
    (hUnits : ∀ u ∈ us.toList, u.unit ≤ Text.maxUnit)
    {sc sc' : Scanner}
    (hRun : Run sc sc')
    (hWithin : Within lx us sc) :
    Within lx us sc' := by
  induction hRun with
  | start => exact hWithin
  | next _ hNext ih =>
      exact (faithful_nextToken? hRenders hUnits ih hNext).1
  | @switch sc₁ sc₂ name _ hSwitch ih =>
      unfold switchTo at hSwitch
      cases hState : sc₁.lexer.stateNamed name with
      | error e =>
          rw [hState] at hSwitch
          cases hSwitch
      | ok st =>
          rw [hState] at hSwitch
          cases hSwitch
          exact ⟨ih.lexer, ih.units, ih.inside⟩

end Scanner

namespace Lexer

/-
  The one text of a kind is the text of its tokens: for every
  grammar that lists its token expressions once and passes
  analysis, with any options, every text, and every run of a
  scanner over it.
-/
theorem image_eq_of_literalImage?
    {g₀ g : Grammar}
    {s₀ s s' : Session}
    {lx : Lexer}
    (hFresh : g₀.Fresh)
    (hPasses : analyze g₀ s₀ = (g, s, .ok ()))
    (hBuild : build g s = (s', .ok lx))
    {text : String}
    {o : Options}
    {sc₀ sc sc' : Scanner}
    (hText : Scanner.ofText lx text o = .ok sc₀)
    (hRun : Scanner.Run sc₀ sc)
    {t : Token}
    (hToken : sc.nextToken? = some (.ok t, sc'))
    {image : String}
    (hImage :
      lx.literalImage? g t.lexeme.kind = some image) :
    t.lexeme.image = image := by
  have hRenders := renders_build hFresh hPasses hBuild
  rcases Scanner.rests_ofText hText with ⟨hRests, hUnits⟩
  have hWithin := hRun.within hRenders hUnits hRests.within
  exact (Scanner.faithful_nextToken? hRenders hUnits hWithin
    hToken).2 t rfl image hImage

/-
  An arrow and a word, and a remark that ends with a literal
  in a lexical state of its own.
-/
def remarks : Grammar :=
  let steps : Build Unit := do
    let tokens ← Build.tokenSection (some [defaultState])
      .token false
    let arrow ← Build.rxLiteral "->"
    Build.tokenSpec tokens arrow none none
    let word ← Build.rxLiteral "if"
    Build.tokenSpec tokens word none none
    let openings ← Build.tokenSection (some [defaultState])
      .more false
    let opening ← Build.rxLiteral "/*"
    Build.tokenSpec openings opening none (some "REMARK")
    let closings ← Build.tokenSection (some ["REMARK"])
      .token false
    let closing ← Build.rxLiteral "*/"
    Build.tokenSpec closings closing none (some defaultState)
    let insides ← Build.tokenSection (some ["REMARK"])
      .more false
    let any ← Build.rxChars true []
    Build.tokenSpec insides any none none
  (steps.run {}).2.grammar

/- The arrow without regard to case, after a remark. -/
theorem image_eq_of_literalImage?_remarks :
    ∃ g s lx result sc₀ sc₁ sc₂ sc₃ t,
      analyze remarks (.new { ignoreCase := true }) =
          (g, s, .ok ()) ∧
        (build g s).2 = .ok lx ∧
        Scanner.ofText lx "/*IF*/->" {} = .ok sc₀ ∧
        sc₀.nextToken? = some (result, sc₁) ∧
        sc₁.switchTo defaultState = .ok sc₂ ∧
        sc₂.nextToken? = some (.ok t, sc₃) ∧
        lx.literalImage? g t.lexeme.kind = some "->" ∧
        t.lexeme.image = "->" := by
  have hFresh : remarks.Fresh := by
    apply Grammar.fresh_of_partsBefore
    · decide +kernel
    · decide +kernel
  have hChecks : (fun r : Grammar × Session ×
      Except Failure Unit => (r.2.2,
        (build r.1 r.2.1).2.toOption.bind fun lx =>
          (Scanner.ofText lx "/*IF*/->" {}).toOption.bind
            fun sc₀ => sc₀.nextToken?.bind fun r₁ =>
              (r₁.2.switchTo defaultState).toOption.bind
                fun sc₂ => sc₂.nextToken?.bind fun r₂ =>
                  r₂.1.toOption.bind fun t =>
                    lx.literalImage? r.1 t.lexeme.kind))
        (analyze remarks (.new { ignoreCase := true })) =
      (.ok (), some "->") := by
    cbv
  generalize hAnalyze : analyze remarks
    (.new { ignoreCase := true }) = r at hChecks ⊢
  rcases r with ⟨g, s, passed⟩
  rcases Prod.mk.inj hChecks with ⟨hPassed, hFound⟩
  dsimp only at hPassed hFound
  rw [hPassed] at hAnalyze
  have hOk : ∀ {α : Type} {x : Except Failure α} {a : α},
      x.toOption = some a → x = .ok a := by
    intro α x a hSome
    cases x with
    | error e => cases hSome
    | ok b =>
        cases hSome
        rfl
  simp only [Option.bind_eq_some_iff] at hFound
  rcases hFound with ⟨lx, hLexer, sc₀, hText, ⟨result, sc₁⟩,
    hFirst, sc₂, hSwitch, ⟨result', sc₃⟩, hNext, t, hToken,
    hImage⟩
  dsimp only at hSwitch hToken
  replace hLexer := hOk hLexer
  replace hText := hOk hText
  replace hSwitch := hOk hSwitch
  rw [hOk hToken] at hNext
  have hBuild : build g s = ((build g s).1, .ok lx) :=
    Prod.ext rfl hLexer
  have hRun : Scanner.Run sc₀ sc₂ :=
    (Scanner.Run.start.next hFirst).switch hSwitch
  refine ⟨g, s, lx, result, sc₀, sc₁, sc₂, sc₃, t, ?_, hLexer,
    hText, hFirst, hSwitch, hNext, hImage, ?_⟩
  · rw [hPassed]
  · exact image_eq_of_literalImage? hFresh hAnalyze hBuild hText
      hRun hNext hImage

end Lexer

end Descent
