import Descent.Proofs.BuiltLexer
import Descent.Proofs.Caseless

/-
  Kinds with one text.

  An attempt may find a kind in the table of literals, by the
  automaton, by what the table knows of the automaton, or by
  the wildcard.  For the kind of a literal that is written in
  one way only, all of these agree: where the kind is found,
  the text of the literal stands in the input and the match
  ends with it.  This holds whether or not case counts in the
  lexical state.

  Main declarations:
    * `LexState.TextOf`
    * `LexState.best_attempt_of_textOf`
    * `Lexer.textOf_tablesOf`
-/

------------------------------------------------------------
-- States of the automaton
------------------------------------------------------------

namespace Descent

open LiteralTable (AllKnown knownAfter)

namespace LexState

/- The automaton comes to a state by reading something. -/
def ReadsTo
    (st : LexState)
    (q : Nat) : Prop :=
  ∃ w, w ≠ [] ∧ IsUnits w ∧ st.reads w = some q

/- A scan keeps the match so far or finds an accepted kind. -/
theorem scan_cases
    (st : LexState)
    (q pos : Nat)
    (b : Nat × Int)
    (rest : List Nat) :
    st.scan q pos b rest = b ∨
      ∃ n k q', 0 < n ∧ n ≤ rest.length ∧
        st.dfa.run st.alphabet q (rest.take n) = some q' ∧
        st.dfa.accept? q' = some k ∧
        st.scan q pos b rest =
          (k, (pos : Int) + (n : Int) - 1) := by
  induction rest generalizing q pos b with
  | nil => exact .inl rfl
  | cons c rest ih =>
      unfold scan
      cases hStep : st.dfa.step? st.alphabet q c with
      | none => exact .inl rfl
      | some q' =>
          have hRun : ∀ n, st.dfa.run st.alphabet q
              ((c :: rest).take (n + 1)) =
                st.dfa.run st.alphabet q' (rest.take n) := by
            intro n
            unfold Dfa.run
            rw [List.take_succ_cons, List.foldlM_cons, hStep]
            rfl
          dsimp only
          rcases ih q' (pos + 1) (st.improve q' pos b) with
            hSame | ⟨n, k, q'', hPos, hLe, hMore, hAccept, hScan⟩
          · rw [hSame]
            unfold improve
            cases hAccept : st.dfa.accept? q' with
            | none => exact .inl rfl
            | some k =>
                refine .inr ⟨1, k, q', Nat.one_pos, by simp,
                  hRun 0, hAccept, ?_⟩
                simp
          · refine .inr ⟨n + 1, k, q'', Nat.succ_pos n,
              Nat.succ_le_succ hLe, (hRun n).trans hMore,
              hAccept, ?_⟩
            rw [hScan]
            push_cast
            congr 1
            omega

/- Reading on leads to states that are read to. -/
theorem readsTo_of_run
    {st : LexState}
    {q q' : Nat}
    (hFrom : q = st.dfa.start ∨ st.ReadsTo q)
    {w : List Nat}
    (hSome : w ≠ [])
    (hUnits : IsUnits w)
    (hRun : st.dfa.run st.alphabet q w = some q') :
    st.ReadsTo q' := by
  rcases hFrom with hStart | ⟨v, -, hBefore, hReads⟩
  · subst hStart
    exact ⟨w, hSome, hUnits, hRun⟩
  · refine ⟨v ++ w, ?_, ?_, ?_⟩
    · exact List.append_ne_nil_of_right_ne_nil v hSome
    · intro c hc
      rcases List.mem_append.mp hc with hc | hc
      · exact hBefore c hc
      · exact hUnits c hc
    · rw [reads_append, hReads]
      exact hRun

------------------------------------------------------------
-- Kinds with one text
------------------------------------------------------------

/-
  In the table of literals a kind stands under the units of a
  text and nowhere else.
-/
structure Tabled
    (st : LexState)
    (k : Nat)
    (image : List Nat) : Prop where
  plain : st.mixed = false
  entry :
    ∀ pos c b,
      ((st.infoFor pos c).part b).contains k = true →
        image[pos]? = some c ∧
          b = decide (pos + 1 = image.length)
  apart : ∀ q, st.ReadsTo q → st.dfa.accept? q ≠ some k
  known :
    AllKnown
      (fun _ r => r.kind ≠ k ∧
        ∀ q, r.state = some q → st.ReadsTo q)
      st.literals.buckets
  shadows :
    ∀ kind pos, st.literals.shadowing? kind pos ≠ some k

/- In a lexical state a kind has one text, if it has any. -/
structure TextOf
    (st : LexState)
    (k : Nat)
    (image : List Nat) : Prop where
  real : k ≠ noKind
  wildcard : st.anyChar ≠ some k
  empty : st.initMatch = some k → image = []
  accept :
    ∀ w, IsUnits w → ∀ q, st.reads w = some q →
      st.dfa.accept? q = some k → w = image
  table : st.literals.maxLen = 0 ∨ st.Tabled k image

/- A match of a kind is its text. -/
def Fits
    (u : List Nat)
    (k : Nat)
    (image : List Nat)
    (b : Nat × Int) : Prop :=
  b.1 = k → b.2 = (image.length : Int) - 1 ∧ image <+: u

/- What the literals hand over while one kind is looked for. -/
structure HandsOn
    (st : LexState)
    (u : List Nat)
    (k : Nat)
    (image : List Nat)
    (h : Handover) : Prop where
  fits : Fits u k image h.best
  rest : IsUnits h.rest
  state :
    ∀ q, h.state = some q → q = st.dfa.start ∨ st.ReadsTo q

section Following

variable {st : LexState} {k : Nat} {image u : List Nat}

theorem fits_blank
    (hText : st.TextOf k image) :
    Fits u k image st.blank := by
  intro hKind
  cases hInit : st.initMatch with
  | none =>
      rw [blank_of_initMatch_none hInit] at hKind
      exact absurd hKind.symm hText.real
  | some j =>
      rw [blank_of_initMatch_some hInit] at hKind ⊢
      have hSame : j = k := hKind
      rw [hSame] at hInit
      rw [hText.empty hInit]
      exact ⟨rfl, List.nil_prefix⟩

/- Only the kind of a literal itself is reported as that kind. -/
theorem eq_of_reportedKind
    (hTabled : st.Tabled k image)
    (hWild : st.anyChar ≠ some k)
    {pos kind : Nat}
    (hReported :
      st.literals.reportedKind pos kind st.anyChar = k) :
    kind = k := by
  unfold LiteralTable.reportedKind at hReported
  split at hReported
  · next j hShadows =>
      rw [hReported] at hShadows
      exact absurd hShadows (hTabled.shadows kind pos)
  · split at hReported
    · next any hAny =>
        split at hReported
        · rw [hReported] at hAny
          exact absurd hAny hWild
        · exact hReported
    · exact hReported

/- Where literals stop, what is known is of other kinds. -/
theorem stopBest_of_tabled
    (hTabled : st.Tabled k image)
    {b : Nat × Int}
    (hFits : Fits u k image b)
    (pos : Nat)
    (alive : KindSet) :
    (∀ q, (st.stopBest b pos alive).1 = some q →
        st.ReadsTo q) ∧
      Fits u k image (st.stopBest b pos alive).2 := by
  have hNone : ∀ q, (none : Option Nat) = some q →
      st.ReadsTo q := by
    intro q hq
    cases hq
  unfold stopBest stopLiterals
  split
  · exact ⟨hNone, hFits⟩
  split
  · exact ⟨hNone, hFits⟩
  next r ks hFound =>
    have hKnown := hTabled.known pos _
      (List.mem_of_find?_eq_some hFound)
    split
    · refine ⟨hKnown.2, fun hKind => ?_⟩
      dsimp only at hKind
      split at hKind
      · exact absurd hKind hKnown.1
      · exact absurd hKind hKnown.1
    · exact ⟨hKnown.2, hFits⟩

theorem handsOn_stop
    (hTabled : st.Tabled k image)
    {b : Nat × Int}
    (hFits : Fits u k image b)
    (pos : Nat)
    (alive : KindSet)
    {rest : List Nat}
    (hRest : IsUnits rest) :
    HandsOn st u k image (st.handStop pos alive b rest) := by
  have hStop := stopBest_of_tabled hTabled hFits (pos - 1)
    alive
  unfold handStop
  split
  · exact ⟨hStop.2, hRest, fun q hq => .inr (hStop.1 q hq)⟩
  · refine ⟨hFits, hRest, fun q hq => ?_⟩
    cases hq

theorem handsOn_commit
    (hTabled : st.Tabled k image)
    (hWild : st.anyChar ≠ some k)
    {pos kind : Nat}
    (hEnded : kind = k →
      pos + 1 = image.length ∧ image <+: u)
    {rest : List Nat}
    (hRest : IsUnits rest) :
    HandsOn st u k image (st.handCommit pos kind rest) := by
  refine ⟨fun hKind => ?_, hRest, fun q hq => ?_⟩
  · have hHere := hEnded
      (eq_of_reportedKind hTabled hWild hKind)
    refine ⟨?_, hHere.2⟩
    change (pos : Int) = _
    omega
  · right
    change st.literals.stateFor? pos kind = some q at hq
    unfold LiteralTable.stateFor? at hq
    rcases Option.bind_eq_some_iff.mp hq with
      ⟨e, hFound, hState⟩
    exact (hTabled.known pos e
      (List.mem_of_find?_eq_some hFound)).2 q hState

/- One more unit of the text of a kind. -/
theorem take_succ_of_entry
    {pos c : Nat}
    (hGet : u[pos]? = some c)
    (hBegins : u.take pos <+: image)
    (hUnit : image[pos]? = some c) :
    u.take (pos + 1) <+: image := by
  have hInside := (List.getElem?_eq_some_iff.mp hGet).1
  have hBefore := List.prefix_iff_eq_take.mp hBegins
  rw [List.length_take, min_eq_left hInside.le] at hBefore
  rw [take_succ_eq hGet, hBefore, ← take_succ_eq hUnit]
  exact List.take_prefix _ _

theorem prefix_of_ended
    {pos : Nat}
    (hBegins : u.take (pos + 1) <+: image)
    (hInside : pos < u.length)
    (hEnd : pos + 1 = image.length) :
    image <+: u := by
  have hWhole := List.prefix_iff_eq_take.mp hBegins
  rw [List.length_take, min_eq_left hInside, hEnd,
    List.take_length] at hWhole
  rw [← hWhole]
  exact List.take_prefix _ _

/-
  Following literals: as long as the kind is alive, the text
  begins like its literal.
-/
theorem handsOn_follow
    (hTabled : st.Tabled k image)
    (hWild : st.anyChar ≠ some k)
    (hUnits : IsUnits u)
    {rest : List Nat}
    (pos : Nat)
    (hRest : u.drop pos = rest)
    {alive : KindSet}
    (hAlive : alive.contains k = true →
      u.take pos <+: image)
    {b : Nat × Int}
    (hFits : Fits u k image b) :
    HandsOn st u k image (st.handFollow pos alive b rest) := by
  have hDrop : ∀ n, IsUnits (u.drop n) :=
    fun n c hc => hUnits c (List.mem_of_mem_drop hc)
  induction rest generalizing pos alive b with
  | nil =>
      unfold handFollow
      exact handsOn_stop hTabled hFits pos alive
        (hRest ▸ hDrop pos)
  | cons c rest ih =>
      have hGet : u[pos]? = some c := by
        have hHead := congrArg (fun xs => xs[0]?) hRest
        simpa [List.getElem?_drop] using hHead
      have hInside := (List.getElem?_eq_some_iff.mp hGet).1
      have hNext : u.drop (pos + 1) = rest := by
        rw [← List.drop_drop, hRest]
        rfl
      have hBegins : ∀ last,
          ((st.infoFor pos c).part last).contains k = true →
            alive.contains k = true →
              u.take (pos + 1) <+: image ∧
                last = decide (pos + 1 = image.length) := by
        intro last hContains hHere
        have hEntry := hTabled.entry pos c last hContains
        exact ⟨take_succ_of_entry hGet (hAlive hHere) hEntry.1,
          hEntry.2⟩
      have hGoOn : ∀ b, Fits u k image b →
          HandsOn st u k image
            (if ((st.infoFor pos c).alive.inter alive).isEmpty
            then st.handStop pos alive b (c :: rest)
            else st.handFollow (pos + 1)
              ((st.infoFor pos c).alive.inter alive) b rest) := by
        intro b hFits
        split
        · exact handsOn_stop hTabled hFits pos alive
            (hRest ▸ hDrop pos)
        · apply ih (pos + 1) hNext _ hFits
          intro hContains
          rw [KindSet.contains_inter] at hContains
          exact (hBegins false hContains.1 hContains.2).1
      unfold handFollow
      dsimp only
      cases hLeast : ((st.infoFor pos c).ended.inter
          alive).least? with
      | none => exact hGoOn b hFits
      | some kind =>
          have hEnded : kind = k →
              pos + 1 = image.length ∧ image <+: u := by
            intro hKind
            have hContains :=
              ((KindSet.least?_eq_some_iff _ _).mp hLeast).1
            rw [hKind] at hContains
            have hBoth :=
              (KindSet.contains_inter _ _ _).mp hContains
            rcases hBegins true hBoth.1 hBoth.2 with
              ⟨hPrefix, hEnd⟩
            have hLast := of_decide_eq_true hEnd.symm
            exact ⟨hLast,
              prefix_of_ended hPrefix hInside hLast⟩
          dsimp only
          split
          · apply hGoOn
            intro hKind
            have hHere := hEnded
              (eq_of_reportedKind hTabled hWild hKind)
            refine ⟨?_, hHere.2⟩
            change (pos : Int) = _
            omega
          · exact handsOn_commit hTabled hWild hEnded
              (hNext ▸ hDrop (pos + 1))

theorem handsOn_atStart
    {b : Nat × Int}
    (hFits : Fits u k image b)
    (hUnits : IsUnits u) :
    HandsOn st u k image (st.handAtStart b u) := by
  refine ⟨hFits, hUnits, fun q hq => .inl ?_⟩
  unfold handAtStart at hq
  dsimp only at hq
  split at hq
  · exact (Option.some_inj.mp hq).symm
  · cases hq

/- What the literals hand over from the first unit on. -/
theorem handsOn_handover
    (hText : st.TextOf k image)
    (hTabled : st.Tabled k image)
    {first : Nat}
    {rest : List Nat}
    (hUnits : IsUnits (first :: rest)) :
    HandsOn st (first :: rest) k image
      (st.handover first rest) := by
  have hWild := hText.wildcard
  have hBlank : Fits (first :: rest) k image st.blank :=
    fits_blank hText
  have hBegins : ∀ last,
      ((st.infoFor 0 first).part last).contains k = true →
        (first :: rest).take 1 <+: image ∧
          last = decide (0 + 1 = image.length) := by
    intro last hContains
    have hEntry := hTabled.entry 0 first last hContains
    exact ⟨take_succ_of_entry rfl List.nil_prefix hEntry.1,
      hEntry.2⟩
  have hGoOn : ∀ b, Fits (first :: rest) k image b →
      HandsOn st (first :: rest) k image
        (if (st.infoFor 0 first).alive.isEmpty then
          st.handAtStart b (first :: rest)
        else st.handFollow 1 (st.infoFor 0 first).alive b
          rest) := by
    intro b hFits
    split
    · exact handsOn_atStart hFits hUnits
    · exact handsOn_follow hTabled hWild hUnits 1 rfl
        (fun hContains => (hBegins false hContains).1) hFits
  unfold handover
  split
  · exact handsOn_atStart hBlank hUnits
  dsimp only
  cases hLeast : (st.infoFor 0 first).ended.least? with
  | none => exact hGoOn _ hBlank
  | some kind =>
      have hEnded : kind = k →
          0 + 1 = image.length ∧ image <+: first :: rest := by
        intro hKind
        have hContains :=
          ((KindSet.least?_eq_some_iff _ _).mp hLeast).1
        rw [hKind] at hContains
        rcases hBegins true hContains with ⟨hPrefix, hEnd⟩
        have hLast := of_decide_eq_true hEnd.symm
        exact ⟨hLast, prefix_of_ended hPrefix
          (Nat.succ_pos _) hLast⟩
      dsimp only
      split
      · apply hGoOn
        intro hKind
        have hHere := hEnded
          (eq_of_reportedKind hTabled hWild hKind)
        refine ⟨?_, hHere.2⟩
        change (0 : Int) = _
        omega
      · exact handsOn_commit hTabled hWild hEnded
          fun c hc => hUnits c (List.mem_cons_of_mem _ hc)

/- The automaton goes on to kinds that are not in the table. -/
theorem fits_finish
    (hTabled : st.Tabled k image)
    {h : Handover}
    (hHands : HandsOn st u k image h) :
    Fits u k image (st.finish h) := by
  unfold finish
  cases hState : h.state with
  | none => exact hHands.fits
  | some q =>
      dsimp only
      rcases scan_cases st q h.read h.best h.rest with
        hSame | ⟨n, j, q', hPos, hLe, hRun, hAccept, hScan⟩
      · rw [hSame]
        exact hHands.fits
      · rw [hScan]
        intro hKind
        have hSome : h.rest.take n ≠ [] := by
          apply List.ne_nil_of_length_pos
          rw [List.length_take]
          omega
        have hReads := readsTo_of_run (hHands.state q hState)
          hSome (hHands.rest.take n) hRun
        have hSame : j = k := hKind
        rw [hSame] at hAccept
        exact absurd hAccept (hTabled.apart q' hReads)

/- Without literals the automaton reads the whole text. -/
theorem fits_scan
    (hText : st.TextOf k image)
    (hUnits : IsUnits u)
    {b : Nat × Int}
    (hFits : Fits u k image b) :
    Fits u k image (st.finish (st.handAtStart b u)) := by
  unfold finish handAtStart
  dsimp only
  split
  · exact hFits
  · next q hState =>
      have hStart : q = st.dfa.start := by
        split at hState
        · exact (Option.some_inj.mp hState).symm
        · cases hState
      rcases scan_cases st q 0 b u with
        hSame | ⟨n, j, q', hPos, hLe, hRun, hAccept, hScan⟩
      · rw [hSame]
        exact hFits
      · rw [hScan]
        intro hKind
        have hSame : j = k := hKind
        rw [hSame] at hAccept
        rw [hStart] at hRun
        have hWhole := hText.accept _ (hUnits.take n) q' hRun
          hAccept
        rw [← hWhole, List.length_take, min_eq_left hLe]
        refine ⟨?_, List.take_prefix _ _⟩
        change ((0 : Nat) : Int) + (n : Int) - 1 = _
        omega

/-
  Where an attempt finds a kind with one text, the text stands
  there and the match ends with it.
-/
theorem best_attempt_of_textOf
    (hText : st.TextOf k image)
    {first : Nat}
    {rest : List Nat}
    (hUnits : IsUnits (first :: rest))
    (hSkip : st.skipKeys.contains first = false) :
    Fits (first :: rest) k image
      (st.attempt first rest).2.best := by
  have hHandover : st.mixed = false ∨
      st.literals.maxLen = 0 := by
    rcases hText.table with hNone | hTabled
    · exact .inr hNone
    · exact .inl hTabled.plain
  have hFinish : Fits (first :: rest) k image
      (st.finish (st.handover first rest)) := by
    rcases hText.table with hNone | hTabled
    · unfold handover
      rw [if_pos hNone]
      exact fits_scan hText hUnits (fits_blank hText)
    · exact fits_finish hTabled
        (handsOn_handover hText hTabled hUnits)
  rw [best_attempt hHandover hSkip]
  unfold settle
  split
  · exact hFinish
  · next any hAny =>
      split
      · intro hKind
        have hSame : any = k := hKind
        rw [hSame] at hAny
        exact absurd hAny hText.wildcard
      · exact hFinish

------------------------------------------------------------
-- What the table knows
------------------------------------------------------------

/-
  What is known after a beginning of a literal is of no kind
  that the automaton does not accept.
-/
theorem knownAfter_of_apart
    (t : LiteralTable)
    (hReal : k ≠ noKind)
    (hWild : st.anyChar ≠ some k)
    (hApart : ∀ q, st.ReadsTo q → st.dfa.accept? q ≠ some k)
    {text : List Nat}
    (hUnits : IsUnits text)
    {n : Nat}
    (hInside : n ≤ text.length) :
    (knownAfter t st.dfa st.alphabet st.anyChar text n).kind ≠
        k ∧
      ∀ q, (knownAfter t st.dfa st.alphabet st.anyChar text
        n).state = some q → st.reads (text.take n) = some q := by
  induction n with
  | zero =>
      refine ⟨hReal.symm, fun q hq => ?_⟩
      rw [List.take_zero]
      exact hq
  | succ n ih =>
      rcases ih (Nat.le_of_succ_le hInside) with
        ⟨hKind, hState⟩
      have hGet : text[n]? = some (text.getD n 0) := by
        rw [List.getD_eq_getElem?_getD,
          List.getElem?_eq_getElem hInside]
        rfl
      unfold knownAfter LiteralTable.resumeNext
      split
      · next hNone =>
          refine ⟨hKind, fun q hq => ?_⟩
          rw [hNone] at hq
          cases hq
      next q hq =>
        have hReads : st.reads (text.take (n + 1)) =
            st.dfa.step? st.alphabet q (text.getD n 0) := by
          rw [take_succ_eq hGet, reads_snoc, hState q hq]
          rfl
        have hNext : ∀ q', st.dfa.step? st.alphabet q
            (text.getD n 0) = some q' →
              st.reads (text.take (n + 1)) = some q' :=
          fun q' hq' => hReads.trans hq'
        have hAccepted : LiteralTable.acceptedKind st.dfa
            st.anyChar n (st.dfa.step? st.alphabet q
              (text.getD n 0)) ≠ k := by
          have hOwn : ((st.dfa.step? st.alphabet q
              (text.getD n 0)).bind st.dfa.accept?).getD
                noKind ≠ k := by
            cases hStep : st.dfa.step? st.alphabet q
                (text.getD n 0) with
            | none => exact hReal.symm
            | some q' =>
                have hTo : st.ReadsTo q' := by
                  refine ⟨_, ?_, hUnits.take (n + 1),
                    hNext q' hStep⟩
                  apply List.ne_nil_of_length_pos
                  rw [List.length_take]
                  omega
                rw [Option.bind_some]
                cases hAccept : st.dfa.accept? q' with
                | none => exact hReal.symm
                | some j =>
                    intro hSame
                    have hj : j = k := hSame
                    rw [hj] at hAccept
                    exact hApart q' hTo hAccept
          unfold LiteralTable.acceptedKind
          dsimp only
          split
          · next any hAny =>
              split
              · intro hSame
                rw [hSame] at hAny
                exact hWild hAny
              · exact hOwn
          · exact hOwn
        dsimp only
        split
        · exact ⟨hReal.symm, hNext⟩
        · split
          · exact ⟨hAccepted, hNext⟩
          · exact ⟨hKind, hNext⟩

/- What is known after some of a literal, in the table. -/
theorem resumesOf_of_apart
    (t : LiteralTable)
    (hReal : k ≠ noKind)
    (hWild : st.anyChar ≠ some k)
    (hApart : ∀ q, st.ReadsTo q → st.dfa.accept? q ≠ some k)
    {l : Literal}
    (hUnits : IsUnits l.image)
    {j : Nat}
    {r : Resume}
    (hr : (LiteralTable.resumesOf t st.dfa st.alphabet
      st.anyChar l)[j]? = some r) :
    r.kind ≠ k ∧ ∀ q, r.state = some q → st.ReadsTo q := by
  rw [LiteralTable.getElem?_resumesOf,
    Option.ite_none_right_eq_some, Option.some_inj] at hr
  rcases hr with ⟨hInside, rfl⟩
  rcases knownAfter_of_apart t hReal hWild hApart hUnits
    hInside with ⟨hKind, hState⟩
  refine ⟨hKind, fun q hq => ?_⟩
  refine ⟨_, ?_, hUnits.take (j + 1), hState q hq⟩
  apply List.ne_nil_of_length_pos
  rw [List.length_take]
  omega

end Following

end LexState

------------------------------------------------------------
-- Lexical states
------------------------------------------------------------

namespace Lexer

/- An active kind is a literal that is written in one way. -/
def Rigid
    (g : Grammar)
    (ignoreCase : Bool)
    (image : String)
    (a : Active) : Prop :=
  (g.regex a.regex).form = .literal image ∧
    ((a.ignoreCase || ignoreCase) = true →
      Text.isCaseless image = true)

section States

variable {g : Grammar} {active : List Active}
variable {name : String} {index : Nat} {ignoreCase : Bool}
variable {k : Nat} {image : String}

/- Such a literal matches its text only. -/
theorem Rigid.eq_of_matches
    {a : Active}
    (hRigid : Rigid g ignoreCase image a)
    {w : List Nat}
    (hMatches :
      Matches g (a.ignoreCase || ignoreCase) [] a.regex w) :
    w = Text.units image := by
  rw [← mem_languageOf, languageOf_literal hRigid.1]
    at hMatches
  have hForms : ∀ c ∈ Text.units image,
      unitForms (a.ignoreCase || ignoreCase) c = [c] := by
    intro c hc
    unfold unitForms
    split
    · next hIgnores =>
        exact Text.caseVariants_of_isCaseless
          (hRigid.2 hIgnores) hc
    · rfl
  change Spells _ _ w at hMatches
  unfold Spells at hMatches
  generalize Text.units image = us at hForms hMatches ⊢
  induction hMatches with
  | nil => rfl
  | cons hUnit _ ih =>
      rw [hForms _ List.mem_cons_self, List.mem_singleton]
        at hUnit
      rw [hUnit, ih fun c hc =>
        hForms c (List.mem_cons_of_mem _ hc)]

/- Such a literal stands under its own units only. -/
theorem Rigid.eq_of_key
    {a : Active}
    (hRigid : Rigid g ignoreCase image a)
    {pos c key : Nat}
    (hKey : LiteralTable.HasKey ignoreCase
      ⟨a.kind, Text.units image, a.ignoreCase⟩ pos key)
    (hUnit : key = c ∨ (ignoreCase = true ∧
      (Text.upperUnit key = c ∨ Text.lowerUnit key = c))) :
    (Text.units image)[pos]? = some c := by
  rcases hKey with ⟨d, hGet, hKeys⟩
  change (Text.units image)[pos]? = some d at hGet
  change key ∈ LiteralTable.keysOf ignoreCase a.ignoreCase d
    at hKeys
  have hMem : d ∈ Text.units image :=
    List.mem_of_getElem? hGet
  have hSame : key = d := by
    unfold LiteralTable.keysOf at hKeys
    split at hKeys
    · next hIgnores =>
        rw [Text.lowerUnit_of_isCaseless
          (hRigid.2 (by simp [hIgnores])) hMem] at hKeys
        exact List.mem_singleton.mp hKeys
    · split at hKeys
      · next hIgnores =>
          rw [Text.caseVariants_of_isCaseless
            (hRigid.2 (by simp [hIgnores])) hMem] at hKeys
          exact List.mem_singleton.mp hKeys
      · exact List.mem_singleton.mp hKeys
  subst hSame
  rcases hUnit with hUnit | ⟨hIgnores, hUpper | hLower⟩
  · rw [← hUnit]
    exact hGet
  · have hCaseless := hRigid.2 (by simp [hIgnores])
    rw [Text.upperUnit_of_isCaseless hCaseless hMem] at hUpper
    rw [← hUpper]
    exact hGet
  · have hCaseless := hRigid.2 (by simp [hIgnores])
    rw [Text.lowerUnit_of_isCaseless hCaseless hMem] at hLower
    rw [← hLower]
    exact hGet

/- What the automaton accepts as the kind is its text. -/
theorem eq_of_accept
    (hTree : g.RegexTree)
    (hRigid : ∀ a ∈ active, a.kind = k →
      Rigid g ignoreCase image a)
    {w : List Nat}
    (hUnits : IsUnits w)
    {q : Nat}
    (hReads : (tablesOf g ignoreCase name index
      active).reads w = some q)
    (hAccept : (tablesOf g ignoreCase name index
      active).dfa.accept? q = some k) :
    w = Text.units image ∧
      (isMixed (literalsOf g active) = false → w = []) := by
  rcases ((accept_tablesOf hTree ignoreCase hUnits hReads
    k).mp hAccept).1 with ⟨e, he, hKind, hMatches⟩
  rcases (mem_automatonKinds g _ _ _ e).mp he with
    ⟨a, ha, -, hPlain, rfl⟩
  have hOwn := hRigid a ha hKind
  have hText := hOwn.eq_of_matches hMatches
  refine ⟨hText, fun hMixed => ?_⟩
  rw [hText, hPlain hMixed image hOwn.1]
  rfl

/- The wildcard is not a literal. -/
theorem anyChar_ne_of_rigid
    (hRigid : ∀ a ∈ active, a.kind = k →
      Rigid g ignoreCase image a) :
    (tablesOf g ignoreCase name index active).anyChar ≠
      some k := by
  intro hAny
  rcases ((anyChar_tablesOf ignoreCase k).mp hAny).1 with
    ⟨a, ha, hKind, hForm⟩
  rw [(hRigid a ha hKind).1] at hForm
  cases hForm

/-
  Where literals are not mixed, the kind is found in the table
  only.
-/
theorem tabled_tablesOf
    (hTree : g.RegexTree)
    (hReal : k ≠ noKind)
    (hRigid : ∀ a ∈ active, a.kind = k →
      Rigid g ignoreCase image a)
    (hMixed : isMixed (literalsOf g active) = false) :
    (tablesOf g ignoreCase name index active).Tabled k
      (Text.units image) := by
  have hWild : (tablesOf g ignoreCase name index
      active).anyChar ≠ some k := anyChar_ne_of_rigid hRigid
  have hTable := literals_tablesOf g ignoreCase name index
    active
  simp only [tableLiterals, hMixed, Bool.false_eq_true,
    if_false] at hTable
  have hApart : ∀ q,
      (tablesOf g ignoreCase name index active).ReadsTo q →
        (tablesOf g ignoreCase name index
          active).dfa.accept? q ≠ some k := by
    intro q hTo hAccept
    rcases hTo with ⟨w, hSome, hUnits, hReads⟩
    exact hSome ((eq_of_accept hTree hRigid hUnits hReads
      hAccept).2 hMixed)
  have hPlain : (tablesOf g ignoreCase name index
      active).mixed = false := hMixed
  generalize tablesOf g ignoreCase name index active = st
    at hWild hTable hApart hPlain ⊢
  have hImages : ∀ l ∈ (LiteralTable.build (literalsOf g
      active) ignoreCase false).literals, ∃ a ∈ active,
        ∃ text, (g.regex a.regex).form = .literal text ∧
          l = ⟨a.kind, Text.units text, a.ignoreCase⟩ := by
    intro l hl
    rcases (mem_literalsOf g active l).mp
        ((LiteralTable.mem_literals_build _ _ _ l).mp hl).1
      with ⟨a, ha, text, hForm, -, hl⟩
    exact ⟨a, ha, text, hForm, hl⟩
  have hKnown : ∀ l ∈ (LiteralTable.build (literalsOf g
      active) ignoreCase false).literals, ∀ (j : Nat) r,
        (LiteralTable.resumesOf (LiteralTable.build (literalsOf
          g active) ignoreCase false) st.dfa st.alphabet
            st.anyChar l)[j]? = some r →
          r.kind ≠ k ∧
            ∀ q, r.state = some q → st.ReadsTo q := by
    intro l hl j r hr
    apply LexState.resumesOf_of_apart _ hReal hWild hApart _ hr
    rcases hImages l hl with ⟨a, -, text, -, rfl⟩
    exact Text.units_le text
  refine ⟨hPlain, ?_, hApart, ?_, ?_⟩
  · intro pos c last hContains
    have hLookup : st.literals.kindInfo? pos c =
        (LiteralTable.build (literalsOf g active) ignoreCase
          false).kindInfo? pos c := by
      rcases hTable with hTable | hTable
      · rw [hTable]
      · rw [hTable]
        rfl
    unfold LexState.infoFor at hContains
    rw [hLookup] at hContains
    cases hInfo : (LiteralTable.build (literalsOf g active)
        ignoreCase false).kindInfo? pos c with
    | none =>
        rw [hInfo] at hContains
        cases last <;> simp [KindInfo.part] at hContains
    | some e =>
        rcases e with ⟨key, info⟩
        rw [hInfo] at hContains
        rcases LiteralTable.hasKey_of_kindInfo? hInfo
          hContains with ⟨⟨l, hl, hKind, hKey, hLast⟩, hUnit⟩
        rcases hImages l hl with ⟨a, ha, text, hForm, rfl⟩
        have hOwn := hRigid a ha hKind
        have hSame : text = image := by
          rw [hOwn.1] at hForm
          cases hForm
          rfl
        subst hSame
        exact ⟨hOwn.eq_of_key hKey hUnit, hLast⟩
  · rcases hTable with hTable | hTable
    · rw [hTable]
      exact LiteralTable.allKnown_build _ _ _
    · rw [hTable]
      exact LiteralTable.allKnown_withResume hKnown
  · intro kind pos hShadows
    rcases hTable with hTable | hTable
    · rw [hTable] at hShadows
      cases hShadows
    · rw [hTable] at hShadows
      rcases LiteralTable.exists_of_shadowing? hShadows with
        ⟨l, hl, r, hr, hKind⟩
      exact (hKnown l hl pos r hr).1 hKind

/- A kind of such literals has their text. -/
theorem textOf_tablesOf
    (hTree : g.RegexTree)
    (hReal : k ≠ noKind)
    (hRigid : ∀ a ∈ active, a.kind = k →
      Rigid g ignoreCase image a) :
    (tablesOf g ignoreCase name index active).TextOf k
      (Text.units image) := by
  refine ⟨hReal, anyChar_ne_of_rigid hRigid, ?_, ?_, ?_⟩
  · intro hInit
    have hAccept : (tablesOf g ignoreCase name index
        active).dfa.accept? (tablesOf g ignoreCase name index
          active).dfa.start = some k :=
      (Option.filter_eq_some_iff.mp hInit).1
    have hNil : IsUnits [] := by
      intro c hc
      cases hc
    exact (eq_of_accept hTree hRigid hNil rfl
      hAccept).1.symm
  · intro w hUnits q hReads hAccept
    exact (eq_of_accept hTree hRigid hUnits hReads hAccept).1
  · by_cases hMixed : isMixed (literalsOf g active) = true
    · left
      unfold tablesOf
      simp [hMixed, LiteralTable.build]
    · right
      rw [Bool.not_eq_true] at hMixed
      exact tabled_tablesOf hTree hReal hRigid hMixed

end States

end Lexer

end Descent
