import Descent.Proofs.LiteralTable
import Descent.Proofs.LongestMatch

/-
  Attempts of a lexical state in which case counts.

  The literals are followed as far as some literal begins like
  the text.  What the table knows there of the automaton and
  the last literal on the way make up the best match by then,
  with one exception: where the empty text is matched, a match
  of one unit by the automaton is forgotten when literals are
  followed further without coming to an end.

  Main declarations:
    * `LexState.Exact`
    * `LexState.known_spec`
    * `LexState.Forgets`
    * `LexState.chosen_spec`
-/

------------------------------------------------------------
-- Lexical states in which case counts
------------------------------------------------------------

namespace Descent

open Text (maxUnit)
open LiteralTable (Numbered Filed Useful knownAfter knownAt
  infoAt)

namespace LexState

/- The table of literals before anything is known. -/
def baseTable
    (st : LexState)
    (lits : List Literal) : LiteralTable :=
  LiteralTable.build lits false st.mixed

/-
  A lexical state made of literals in which case counts and of
  an automaton.
-/
structure Exact
    (st : LexState)
    (lits : List Literal)
    (A : Matching) : Prop where
  recognizes : st.Recognizes A
  table :
    st.literals =
      if st.hasNfa && !st.mixed then
        (st.baseTable lits).withResume st.dfa st.alphabet
          st.anyChar
      else st.baseTable lits
  mixed : st.mixed = true → lits = []
  sensitive : ∀ l ∈ lits, l.ignoreCase = false
  numbered : Numbered lits
  images :
    ∀ l ∈ lits, ∀ l' ∈ lits, l.image = l'.image → l = l'
  nonempty : ∀ l ∈ lits, l.image ≠ []
  units : ∀ l ∈ lits, IsUnits l.image
  anyBelow : ∀ k, st.anyChar = some k → k < noKind

/-
  A lexical state made of literals, all of which ignore case or
  none, and of an automaton.  With the option to ignore case
  all of them do.
-/
structure Composed
    (st : LexState)
    (ignoreCase : Bool)
    (lits : List Literal)
    (A : Matching) : Prop where
  recognizes : st.Recognizes A
  table :
    st.literals =
      if st.hasNfa && !st.mixed then
        (LiteralTable.build lits ignoreCase
          st.mixed).withResume st.dfa st.alphabet st.anyChar
      else LiteralTable.build lits ignoreCase st.mixed
  mixed : st.mixed = true → lits = []
  alike :
    ∀ l ∈ lits, ∀ l' ∈ lits, l.ignoreCase = l'.ignoreCase
  numbered : Numbered lits
  images :
    ∀ l ∈ lits, ∀ l' ∈ lits,
      l.ignoreCase = false → l.image = l'.image → l = l'
  nonempty : ∀ l ∈ lits, l.image ≠ []
  units : ∀ l ∈ lits, IsUnits l.image
  anyBelow : ∀ k, st.anyChar = some k → k < noKind

theorem Composed.exact
    {st : LexState}
    {lits : List Literal}
    {A : Matching}
    (hComposed : st.Composed false lits A)
    (hSensitive : ∀ l ∈ lits, l.ignoreCase = false) :
    st.Exact lits A where
  recognizes := hComposed.recognizes
  table := hComposed.table
  mixed := hComposed.mixed
  sensitive := hSensitive
  numbered := hComposed.numbered
  images l hl l' hl' :=
    hComposed.images l hl l' hl' (hSensitive l hl)
  nonempty := hComposed.nonempty
  units := hComposed.units
  anyBelow := hComposed.anyBelow

/- Some literal has a text as its image. -/
def Spelled
    (lits : List Literal)
    (k : Nat)
    (w : List Nat) : Prop :=
  ∃ l ∈ lits, l.kind = k ∧ l.image = w

/- A kind matches a text: one of the first, another or a wildcard. -/
def OneOf
    (st : LexState)
    (L A : Matching) : Matching :=
  fun k w => L k w ∨ A k w ∨
    (st.anyChar = some k ∧ w.length = 1)

/- The first are literals as they are spelled. -/
def AnyOf
    (st : LexState)
    (lits : List Literal)
    (A : Matching) : Matching :=
  st.OneOf (Spelled lits) A

section Tables

variable {st : LexState} {lits : List Literal} {A : Matching}

theorem mem_baseTable
    (hExact : st.Exact lits A)
    (l : Literal) :
    l ∈ (st.baseTable lits).literals ↔ l ∈ lits := by
  unfold baseTable
  rw [LiteralTable.mem_literals_build]
  exact and_iff_left_of_imp (hExact.nonempty l)

theorem literals_table
    (hExact : st.Exact lits A) :
    st.literals.literals = (st.baseTable lits).literals := by
  rw [hExact.table]
  split <;> rfl

theorem entries_table
    (hExact : st.Exact lits A) :
    st.literals.entries = (st.baseTable lits).entries := by
  rw [hExact.table]
  split <;> rfl

theorem maxLen_table
    (hExact : st.Exact lits A) :
    st.literals.maxLen = (st.baseTable lits).maxLen := by
  rw [hExact.table]
  split <;> rfl

theorem isSubString_table
    (hExact : st.Exact lits A)
    (k : Nat) :
    st.literals.isSubString k =
      (st.baseTable lits).isSubString k := by
  rw [hExact.table]
  split <;> rfl

theorem ignoreCase_table
    (hExact : st.Exact lits A) :
    st.literals.ignoreCase = false := by
  rw [hExact.table]
  split <;> rfl

theorem mem_literals
    (hExact : st.Exact lits A)
    (l : Literal) :
    l ∈ st.literals.literals ↔ l ∈ lits := by
  rw [literals_table hExact]
  exact mem_baseTable hExact l

theorem numbered_literals
    (hExact : st.Exact lits A) :
    Numbered (st.baseTable lits).literals := by
  refine ⟨LiteralTable.nodup_kinds_build
    hExact.numbered.distinct _ _, ?_⟩
  intro l hl
  exact hExact.numbered.below l
    ((mem_baseTable hExact l).mp hl)

/- The entry for a unit, as to the literals with that unit. -/
theorem contains_infoFor
    (hExact : st.Exact lits A)
    (pos c : Nat)
    (b : Bool)
    (k : Nat) :
    ((st.infoFor pos c).part b).contains k = true ↔
      ∃ l ∈ lits, l.kind = k ∧ l.image[pos]? = some c ∧
        b = decide (pos + 1 = l.image.length) := by
  have hInfo : st.infoFor pos c =
      infoAt st.literals.entries pos c := by
    unfold infoFor LiteralTable.kindInfo? infoAt
    rw [ignoreCase_table hExact]
    cases st.literals.entries[pos]? with
    | none => rfl
    | some table =>
        simp only [Option.bind_eq_bind, Option.bind_some]
        cases Assoc.get? c table with
        | none => rfl
        | some info => rfl
  rw [hInfo, entries_table hExact]
  refine (LiteralTable.mem_part_build lits false st.mixed pos
    c b k).trans ?_
  refine exists_congr fun l => ?_
  have hMem := mem_baseTable hExact l
  unfold baseTable at hMem
  rw [hMem]
  refine and_congr_right fun hl => and_congr_right fun _ => ?_
  refine and_congr_left fun _ => ?_
  unfold LiteralTable.HasKey LiteralTable.keysOf
  rw [hExact.sensitive l hl]
  simp only [Bool.false_eq_true, if_false, List.mem_singleton]
  constructor
  · rintro ⟨d, hd, rfl⟩
    exact hd
  · intro hd
    exact ⟨c, hd, rfl⟩

/- A literal is flagged when another one is longer. -/
theorem isSubString_iff
    (hExact : st.Exact lits A)
    {l : Literal}
    (hl : l ∈ lits) :
    st.literals.isSubString l.kind = true ↔
      ∃ other ∈ lits, l.image <+: other.image ∧
        l.image.length < other.image.length := by
  rw [isSubString_table hExact]
  unfold baseTable
  rw [LiteralTable.isSubString_build]
  have hMem := mem_baseTable hExact
  unfold baseTable at hMem
  have hPlain : ¬ st.mixed = true := by
    intro hMixed
    rw [hExact.mixed hMixed] at hl
    cases hl
  simp only [hMem, LiteralTable.isExtended_iff]
  constructor
  · rintro ⟨l', hl', hKind, hMixed | hExtended⟩
    · exact absurd hMixed hPlain
    rcases hExtended with ⟨other, hOther, hNe, hPrefix⟩
    have hSame := hExact.numbered.eq_of_kind hl' hl hKind
    subst hSame
    refine ⟨other, hOther, hPrefix, ?_⟩
    refine lt_of_le_of_ne hPrefix.length_le ?_
    intro hLength
    have hImage := hPrefix.eq_of_length hLength
    exact hNe (congrArg Literal.kind
      (hExact.images l' hl' other hOther hImage)).symm
  · rintro ⟨other, hOther, hPrefix, hLonger⟩
    refine ⟨l, hl, rfl, .inr ⟨other, hOther, ?_, hPrefix⟩⟩
    intro hKind
    have hSame := hExact.numbered.eq_of_kind hOther hl hKind
    rw [hSame] at hLonger
    exact Nat.lt_irrefl _ hLonger

/- What is known after a beginning of a literal. -/
def knownFor
    (st : LexState)
    (lits : List Literal)
    (l : Literal)
    (pos : Nat) : Resume :=
  if st.hasNfa then
    knownAt (st.baseTable lits) st.dfa st.alphabet st.anyChar
      l pos
  else { state := none }

theorem filed_table
    (hExact : st.Exact lits A)
    (hMixed : st.mixed = false) :
    Filed st.literals (st.knownFor lits) := by
  have hNumbered := numbered_literals hExact
  have hTable := hExact.table
  rw [hMixed, Bool.not_false, Bool.and_true] at hTable
  unfold knownFor
  by_cases hNfa : st.hasNfa = true
  · rw [if_pos hNfa] at hTable
    simp only [hNfa, if_true]
    rw [hTable]
    exact LiteralTable.filed_withResume hNumbered.distinct _ _ _
  · rw [if_neg hNfa] at hTable
    simp only [hNfa]
    rw [hTable]
    exact LiteralTable.filed_build hNumbered

end Tables

------------------------------------------------------------
-- What is known
------------------------------------------------------------

section Known

variable {st : LexState} {lits : List Literal} {A : Matching}

theorem kindOf_of_mem
    (hExact : st.Exact lits A)
    {l : Literal}
    (hl : l ∈ lits) :
    (st.baseTable lits).kindOf l.image = l.kind := by
  unfold LiteralTable.kindOf
  cases hFind : (st.baseTable lits).literals.find? fun l' =>
      l'.image == l.image with
  | none =>
      rw [List.find?_eq_none] at hFind
      have hNot := hFind l ((mem_baseTable hExact l).mpr hl)
      simp at hNot
  | some l' =>
      have hImage : l'.image = l.image := by
        simpa using List.find?_some hFind
      have hl' := (mem_baseTable hExact l').mp
        (List.mem_of_find?_eq_some hFind)
      rw [hExact.images l' hl' l hl hImage]
      rfl

theorem kindOf_eq_noKind
    (hExact : st.Exact lits A)
    {w : List Nat}
    (hNone : ∀ k, ¬ Spelled lits k w) :
    (st.baseTable lits).kindOf w = noKind := by
  unfold LiteralTable.kindOf
  cases hFind : (st.baseTable lits).literals.find? fun l =>
      l.image == w with
  | none => rfl
  | some l =>
      have hImage : l.image = w := by
        simpa using List.find?_some hFind
      have hl := (mem_baseTable hExact l).mp
        (List.mem_of_find?_eq_some hFind)
      exact absurd ⟨l, hl, rfl, hImage⟩ (hNone l.kind)

/-
  What is known after a text: the last match of the automaton
  and its kind, or that every match of the automaton has been
  superseded by a literal.
-/
structure Known
    (st : LexState)
    (lits : List Literal)
    (A : Matching)
    (p : List Nat)
    (r : Resume) : Prop where
  state : r.state = st.reads p
  counts :
    r.kind ≠ noKind →
      r.pos + 1 ≤ p.length ∧
        (∃ k, A k (p.take (r.pos + 1))) ∧
        IsLeast
          { k | st.AnyOf lits A k (p.take (r.pos + 1)) }
          r.kind ∧
        NoneAfter A (r.pos + 1) p
  silent :
    r.kind = noKind →
      ∀ j, 0 < j → j ≤ p.length →
        (∃ k, A k (p.take j)) →
          ∃ j' k', j ≤ j' ∧ j' ≤ p.length ∧
            Spelled lits k' (p.take j') ∧
            ∀ k, A k (p.take j') → k' ≤ k

/- Nothing is known of an automaton that reads nothing. -/
theorem known_of_dead
    (hA : st.Recognizes A)
    {p : List Nat}
    (hUnits : IsUnits p)
    (hDead : ∀ j, 0 < j → j ≤ p.length →
      st.reads (p.take j) = none)
    (hSome : p ≠ []) :
    Known st lits A p { state := none } where
  state := by
    have hPos := List.length_pos_of_ne_nil hSome
    have hNone := hDead p.length hPos le_rfl
    rw [List.take_length] at hNone
    exact hNone.symm
  counts h := absurd rfl h
  silent _ j hPos hLe hMatch := by
    rcases hMatch with ⟨k, hk⟩
    exact absurd hk
      (hA.dead _ (hUnits.take j) (hDead j hPos hLe) k)

/- A wildcard with a smaller kind wins at the first position. -/
def leastWith
    (anyChar : Option Nat)
    (pos k : Nat) : Nat :=
  match anyChar with
  | some any => if pos = 0 ∧ any < k then any else k
  | none => k

theorem isLeast_leastWith
    {M : Set Nat}
    {k : Nat}
    (hLeast : IsLeast M k)
    (anyChar : Option Nat)
    (pos : Nat) :
    IsLeast { j | j ∈ M ∨ (anyChar = some j ∧ pos = 0) }
      (leastWith anyChar pos k) := by
  unfold leastWith
  cases anyChar with
  | none =>
      refine ⟨.inl hLeast.1, ?_⟩
      rintro j (hj | ⟨hj, -⟩)
      · exact hLeast.2 hj
      · cases hj
  | some any =>
      dsimp only
      split
      · next hWins =>
          refine ⟨.inr ⟨rfl, hWins.1⟩, ?_⟩
          rintro j (hj | ⟨hj, -⟩)
          · exact hWins.2.le.trans (hLeast.2 hj)
          · exact (Option.some_inj.mp hj).le
      · next hLoses =>
          refine ⟨.inl hLeast.1, ?_⟩
          rintro j (hj | ⟨hj, hFirst⟩)
          · exact hLeast.2 hj
          · rw [← Option.some_inj.mp hj]
            by_contra hLess
            exact hLoses ⟨hFirst, not_le.mp hLess⟩

theorem acceptedKind_eq_leastWith
    {d : Dfa}
    {next : Option Nat}
    {k : Nat}
    (hKind : next.bind d.accept? = some k)
    (hBelow : k < noKind)
    (anyChar : Option Nat)
    (pos : Nat) :
    LiteralTable.acceptedKind d anyChar pos next =
      leastWith anyChar pos k := by
  unfold LiteralTable.acceptedKind leastWith
  rw [hKind]
  cases anyChar with
  | none => rfl
  | some any => simp [hBelow.ne]

theorem reportedKind_eq_leastWith
    {t : LiteralTable}
    {pos kind : Nat}
    (hShadow : t.shadowing? kind pos = none)
    (anyChar : Option Nat) :
    t.reportedKind pos kind anyChar =
      leastWith anyChar pos kind := by
  unfold LiteralTable.reportedKind leastWith
  rw [hShadow]
  cases anyChar with
  | none => rfl
  | some any => simp

theorem acceptedKind_spec
    (hExact : st.Exact lits A)
    {w : List Nat}
    (hUnits : IsUnits w)
    {n : Nat}
    (hLength : w.length = n + 1) :
    let kind := LiteralTable.acceptedKind st.dfa st.anyChar n
      (st.reads w)
    (kind = noKind ∧ ∀ k, ¬ A k w) ∨
      (kind ≠ noKind ∧ (∃ k, A k w) ∧
        IsLeast
          { k | A k w ∨ (st.anyChar = some k ∧ w.length = 1) }
          kind) := by
  have hA := hExact.recognizes
  have hAccept : (st.reads w).bind st.dfa.accept? = none ∧
        (∀ k, ¬ A k w) ∨
      ∃ k, (st.reads w).bind st.dfa.accept? = some k ∧
        IsLeast { k | A k w } k := by
    cases hReads : st.reads w with
    | none => exact .inl ⟨rfl, hA.dead w hUnits hReads⟩
    | some q =>
        rw [Option.bind_some]
        cases hKind : st.dfa.accept? q with
        | none =>
            exact .inl ⟨rfl,
              hA.accept_none hUnits hReads hKind⟩
        | some k =>
            exact .inr ⟨k, rfl,
              (hA.accept w hUnits q hReads k).mp hKind⟩
  dsimp only
  rcases hAccept with ⟨hNone, hNot⟩ | ⟨k, hSome, hLeast⟩
  · left
    refine ⟨?_, hNot⟩
    unfold LiteralTable.acceptedKind
    rw [hNone]
    cases st.anyChar with
    | none => rfl
    | some any => simp
  · right
    rw [acceptedKind_eq_leastWith hSome
      (hA.below k w hLeast.1)]
    have hWins := isLeast_leastWith hLeast st.anyChar n
    have hOne : n = 0 ↔ w.length = 1 := by omega
    simp only [hOne] at hWins
    refine ⟨?_, ⟨k, hLeast.1⟩, hWins⟩
    rcases hWins.1 with hk | ⟨hk, -⟩
    · exact (hA.below _ w hk).ne
    · exact (hExact.anyBelow _ hk).ne

/- Where nothing new ends with a unit, what was known stays. -/
theorem Known.keep
    {p : List Nat}
    {before : Resume}
    (hBefore : Known st lits A p before)
    {c : Nat}
    (hNot : ∀ k, ¬ A k (p ++ [c])) :
    Known st lits A (p ++ [c])
      { before with state := st.reads (p ++ [c]) } := by
  have hLength : (p ++ [c]).length = p.length + 1 := by simp
  have hShorter : ∀ j ≤ p.length,
      (p ++ [c]).take j = p.take j :=
    fun j hj => List.take_append_of_le_length hj
  have hFull : (p ++ [c]).take (p.length + 1) = p ++ [c] := by
    rw [← hLength, List.take_length]
  refine ⟨rfl, fun hKind => ?_, fun hKind => ?_⟩
  · rcases hBefore.counts hKind with
      ⟨hPos, hMatch, hLeast, hLast⟩
    dsimp only
    rw [hShorter _ hPos]
    refine ⟨by omega, hMatch, hLeast, ?_⟩
    intro m hAfter hLe k
    rcases Nat.lt_or_eq_of_le (hLe.trans_eq hLength) with
      hEarlier | hHere
    · rw [hShorter m (by omega)]
      exact hLast m hAfter (by omega) k
    · rw [hHere, hFull]
      exact hNot k
  · intro j hPos hLe hMatch
    rcases Nat.lt_or_eq_of_le (hLe.trans_eq hLength) with
      hEarlier | hHere
    · rw [hShorter j (by omega)] at hMatch
      rcases hBefore.silent hKind j hPos (by omega) hMatch with
        ⟨j', k', hLater, hInside', hSpelled, hLow⟩
      refine ⟨j', k', hLater, by omega, ?_⟩
      rw [hShorter j' hInside']
      exact ⟨hSpelled, hLow⟩
    · rw [hHere, hFull] at hMatch
      rcases hMatch with ⟨k, hk⟩
      exact absurd hk (hNot k)

/- A literal with the least kind supersedes all matches. -/
theorem known_of_literal
    {l : Literal}
    (hl : l ∈ lits)
    (hLow : ∀ k, A k l.image → l.kind ≤ k) :
    Known st lits A l.image
      { kind := noKind, pos := 0,
        state := st.reads l.image } where
  state := rfl
  counts h := absurd rfl h
  silent _ j _ hLe _ := by
    refine ⟨l.image.length, l.kind, hLe, le_rfl, ?_⟩
    rw [List.take_length]
    exact ⟨⟨l, hl, rfl, rfl⟩, hLow⟩

/- A match of the automaton that ends here is the last one. -/
theorem known_of_match
    {p : List Nat}
    {n k : Nat}
    (hLength : p.length = n + 1)
    (hMatch : ∃ j, A j p)
    (hLeast : IsLeast { j | st.AnyOf lits A j p } k)
    (hKind : k ≠ noKind) :
    Known st lits A p
      { kind := k, pos := n, state := st.reads p } where
  state := rfl
  counts _ := by
    dsimp only
    rw [← hLength, List.take_length]
    refine ⟨le_rfl, hMatch, hLeast, ?_⟩
    intro m hAfter hLe
    omega
  silent h := absurd h hKind

/- A literal that is found at the end of a text has it as image. -/
theorem exists_of_kindOf_lt
    (hExact : st.Exact lits A)
    {w : List Nat}
    {k : Nat}
    (hLess : (st.baseTable lits).kindOf w < k)
    (hBelow : k ≤ noKind) :
    ∃ l ∈ lits, l.image = w ∧ l.kind < k := by
  have hSpelled : ∃ j, Spelled lits j w := by
    by_contra hNone
    push Not at hNone
    rw [kindOf_eq_noKind hExact hNone] at hLess
    exact hBelow.not_gt hLess
  rcases hSpelled with ⟨_, l, hl, rfl, rfl⟩
  rw [kindOf_of_mem hExact hl] at hLess
  exact ⟨l, hl, rfl, hLess⟩

/-
  One more unit: it can end a literal, a match of the
  automaton, or neither.
-/
theorem Known.next
    (hExact : st.Exact lits A)
    {image p : List Nat}
    {c : Nat}
    (hTake : image.take (p.length + 1) = p ++ [c])
    (hUnits : IsUnits (p ++ [c]))
    {before : Resume}
    (hBefore : Known st lits A p before) :
    Known st lits A (p ++ [c])
      (LiteralTable.resumeNext (st.baseTable lits) st.dfa
        st.alphabet st.anyChar image before p.length c) := by
  have hA := hExact.recognizes
  have hReads : st.reads (p ++ [c]) = before.state.bind
      (st.dfa.step? st.alphabet · c) := by
    rw [reads_snoc, ← hBefore.state]
  have hLength : (p ++ [c]).length = p.length + 1 := by simp
  unfold LiteralTable.resumeNext
  rw [hTake]
  cases hState : before.state with
  | none =>
      rw [hState, Option.bind_none] at hReads
      have hKept := hBefore.keep (hA.dead _ hUnits hReads)
      rw [hReads, ← hState] at hKept
      exact hKept
  | some q =>
      rw [hState, Option.bind_some] at hReads
      dsimp only
      rw [← hReads]
      have hAccepted := acceptedKind_spec hExact hUnits hLength
      dsimp only at hAccepted
      generalize LiteralTable.acceptedKind st.dfa st.anyChar
        p.length (st.reads (p ++ [c])) = kind at hAccepted ⊢
      split
      · -- A literal ends here and wins.
        next hLiteral =>
          have hBelow : kind ≤ noKind := by
            rcases hAccepted with ⟨hKind, -⟩ | ⟨-, -, hLeast⟩
            · exact hKind.le
            · rcases hLeast.1 with hk | ⟨hk, -⟩
              · exact (hA.below _ _ hk).le
              · exact (hExact.anyBelow _ hk).le
          rcases exists_of_kindOf_lt hExact hLiteral hBelow with
            ⟨l, hl, hImage, hLess⟩
          rw [← hImage] at hAccepted ⊢
          apply known_of_literal hl
          intro k hk
          rcases hAccepted with ⟨-, hNot⟩ | ⟨-, -, hLeast⟩
          · exact absurd hk (hNot k)
          · exact hLess.le.trans (hLeast.2 (.inl hk))
      · next hLiteral =>
          rcases hAccepted with
            ⟨hKind, hNot⟩ | ⟨hKind, hMatch, hLeast⟩
          · rw [if_neg (by simp [hKind])]
            exact hBefore.keep hNot
          · -- The automaton accepts, and no literal wins.
            rw [if_pos (by simpa using hKind)]
            refine known_of_match hLength hMatch ?_ hKind
            refine ⟨.inr hLeast.1, ?_⟩
            rintro k (⟨l, hl, rfl, hImage⟩ | hk)
            · rw [← hImage, kindOf_of_mem hExact hl]
                at hLiteral
              exact not_lt.mp hLiteral
            · exact hLeast.2 hk

/-
  What the table works out along a text is known after it, by
  induction on the units read.
-/
theorem known_spec
    (hExact : st.Exact lits A)
    {image : List Nat}
    (hUnits : IsUnits image)
    (n : Nat)
    (hInside : n ≤ image.length) :
    Known st lits A (image.take n)
      (knownAfter (st.baseTable lits) st.dfa st.alphabet
        st.anyChar image n) := by
  induction n with
  | zero =>
      refine ⟨rfl, fun h => absurd rfl h, ?_⟩
      intro _ j hPos hLe
      rw [List.take_zero, List.length_nil] at hLe
      omega
  | succ n ih =>
      have hLess : n < image.length := hInside
      have hGet : image[n]? = some (image.getD n 0) := by
        rw [List.getD_eq_getElem?_getD,
          List.getElem?_eq_getElem hLess]
        rfl
      have hTake := take_succ_eq hGet
      have hLength : (image.take n).length = n := by
        rw [List.length_take]
        exact min_eq_left hLess.le
      have hUnits' := hUnits.take (n + 1)
      rw [hTake] at hUnits' ⊢
      have hNext := (ih hLess.le).next hExact
        (hTake ▸ congrArg (image.take <| · + 1) hLength) hUnits'
      rwa [hLength] at hNext

/- What is known after a text that begins some literal. -/
def knownOn
    (st : LexState)
    (lits : List Literal)
    (p : List Nat) : Resume :=
  if st.hasNfa then
    knownAfter (st.baseTable lits) st.dfa st.alphabet
      st.anyChar p p.length
  else { state := none }

theorem known_on
    (hExact : st.Exact lits A)
    {p : List Nat}
    (hUnits : IsUnits p)
    (hSome : p ≠ []) :
    Known st lits A p (st.knownOn lits p) := by
  unfold knownOn
  split
  · have hKnown := known_spec hExact hUnits p.length le_rfl
    rwa [List.take_length] at hKnown
  · next hNfa =>
      refine known_of_dead hExact.recognizes hUnits ?_ hSome
      intro j hPos hLe
      cases p with
      | nil => exact absurd rfl hSome
      | cons c p =>
          cases j with
          | zero => omega
          | succ j =>
              rw [List.take_succ_cons]
              exact hExact.recognizes.reads_cons
                (by simpa using hNfa)
                (hUnits c List.mem_cons_self) _

theorem knownFor_eq
    (lits : List Literal)
    {l : Literal}
    {p : List Nat}
    (hPrefix : p <+: l.image)
    (hSome : p ≠ []) :
    st.knownFor lits l (p.length - 1) = st.knownOn lits p := by
  have hPos := List.length_pos_of_ne_nil hSome
  have hLe := hPrefix.length_le
  unfold knownFor knownOn knownAt
  split
  · rw [if_pos (by omega), Nat.sub_add_cancel hPos]
    refine LiteralTable.knownAfter_congr _ _ _ _ ?_
    rw [List.take_length]
    exact (List.prefix_iff_eq_take.mp hPrefix).symm
  · rfl

/- No kind of the automaton is smaller than an unshadowed literal. -/
theorem Known.kind_le
    {l : Literal}
    {r : Resume}
    (hKnown : Known st lits A l.image r)
    (hSome : l.image ≠ [])
    (hOnly : ∀ k, Spelled lits k l.image → k = l.kind)
    (hShadowed :
      ¬ (r.kind < l.kind ∧ r.pos = l.image.length - 1))
    {k : Nat}
    (hk : A k l.image) :
    l.kind ≤ k := by
  have hPos := List.length_pos_of_ne_nil hSome
  by_cases hKind : r.kind = noKind
  · rcases hKnown.silent hKind l.image.length hPos le_rfl
        ⟨k, by rwa [List.take_length]⟩ with
      ⟨j', k', hLater, hInside, hSpelled, hLow⟩
    have hHere : j' = l.image.length := by omega
    rw [hHere, List.take_length] at hSpelled hLow
    rw [← hOnly k' hSpelled]
    exact hLow k hk
  · rcases hKnown.counts hKind with
      ⟨hInside, -, hLeast, hLast⟩
    have hHere : r.pos + 1 = l.image.length := by
      by_contra hNe
      refine hLast l.image.length (by omega) le_rfl k ?_
      rwa [List.take_length]
    rw [hHere, List.take_length] at hLeast
    have hAbove : l.kind ≤ r.kind := by
      by_contra hLess
      exact hShadowed ⟨not_le.mp hLess, by omega⟩
    exact hAbove.trans (hLeast.2 (.inr (.inl hk)))

/-
  The kind that is reported for a literal is the least of all
  kinds that match its text.
-/
theorem reportedKind_spec
    (hExact : st.Exact lits A)
    {l : Literal}
    (hl : l ∈ lits) :
    IsLeast { k | st.AnyOf lits A k l.image }
      (st.literals.reportedKind (l.image.length - 1) l.kind
        st.anyChar) := by
  have hPlain : st.mixed = false := by
    by_contra hMixed
    rw [Bool.not_eq_false] at hMixed
    rw [hExact.mixed hMixed] at hl
    cases hl
  have hSome := hExact.nonempty l hl
  have hPos := List.length_pos_of_ne_nil hSome
  have hKnown := known_on hExact (hExact.units l hl) hSome
  have hShadow := (filed_table hExact hPlain).shadowing l
    ((mem_literals hExact l).mpr hl) (l.image.length - 1)
    (by omega)
  rw [knownFor_eq lits List.prefix_rfl hSome] at hShadow
  generalize st.knownOn lits l.image = r at hKnown hShadow
  have hBelow := hExact.numbered.below l hl
  have hOnly : ∀ k, Spelled lits k l.image → k = l.kind := by
    rintro k ⟨l', hl', rfl, hImage⟩
    rw [hExact.images l' hl' l hl hImage]
  have hEnd : l.image.length - 1 + 1 = l.image.length := by
    omega
  by_cases hShadowed :
      r.kind < l.kind ∧ r.pos = l.image.length - 1
  · rw [if_pos hShadowed] at hShadow
    unfold LiteralTable.reportedKind
    rw [hShadow]
    have hCounts := hKnown.counts
      (hShadowed.1.trans hBelow).ne
    rw [hShadowed.2, hEnd, List.take_length] at hCounts
    exact hCounts.2.2.1
  · rw [if_neg hShadowed] at hShadow
    rw [reportedKind_eq_leastWith hShadow]
    have hLeast : IsLeast
        { k | Spelled lits k l.image ∨ A k l.image } l.kind := by
      refine ⟨.inl ⟨l, hl, rfl, rfl⟩, ?_⟩
      rintro k (hk | hk)
      · exact (hOnly k hk).ge
      · exact hKnown.kind_le hSome hOnly hShadowed hk
    have hWins := isLeast_leastWith hLeast st.anyChar
      (l.image.length - 1)
    have hOne : l.image.length - 1 = 0 ↔
        l.image.length = 1 := by
      omega
    simp only [Set.mem_ofPred_eq, or_assoc, hOne] at hWins
    exact hWins

end Known

------------------------------------------------------------
-- Answers
------------------------------------------------------------

section Answers

variable {st : LexState} {lits : List Literal} {A : Matching}

/- The longest match of a text, or that there is none. -/
def Answers
    (st : LexState)
    (M : Matching)
    (u : List Nat)
    (b : Nat × Int) : Prop :=
  (∃ n k, Longest M u n k ∧ b = (k, (n : Int) - 1)) ∨
    (NoMatch M u ∧ b = st.blank)

/- A wildcard does not change a longest match. -/
theorem settle_longest
    {L : Matching}
    {p : List Nat}
    {n k : Nat}
    (hLongest : Longest (st.OneOf L A) p n k) :
    settle st.anyChar (k, (n : Int) - 1) =
      (k, (n : Int) - 1) := by
  have hPos : 0 < n := hLongest.longer
  have hInside := hLongest.inside
  unfold settle
  cases hAny : st.anyChar with
  | none => rfl
  | some any =>
      refine if_neg ?_
      rintro (hNegative | ⟨hZero, hLess⟩)
      · change (n : Int) - 1 < 0 at hNegative
        omega
      · change (n : Int) - 1 = 0 at hZero
        have hOne : n = 1 := by omega
        subst hOne
        have hWild : st.OneOf L A any (p.take 1) := by
          refine .inr (.inr ⟨hAny, ?_⟩)
          rw [List.length_take]
          omega
        exact not_lt.mpr (hLongest.kind.2 hWild) hLess

theorem answers_of_longest
    {L : Matching}
    {p : List Nat}
    {n k : Nat}
    (hLongest : Longest (st.OneOf L A) p n k) :
    Answers st (st.OneOf L A) p
      (settle st.anyChar (k, (n : Int) - 1)) :=
  .inl ⟨n, k, hLongest, settle_longest hLongest⟩

/- Where only a wildcard can match, it does. -/
theorem answers_blank
    {L : Matching}
    (hBelow : ∀ k, st.anyChar = some k → k < noKind)
    {p : List Nat}
    (hSome : p ≠ [])
    (hLiterals : NoMatch L p)
    (hOthers : NoMatch A p) :
    Answers st (st.OneOf L A) p
      (settle st.anyChar st.blank) := by
  have hPos := List.length_pos_of_ne_nil hSome
  cases hAny : st.anyChar with
  | none =>
      refine .inr ⟨?_, rfl⟩
      rintro n hn hLe k (hk | hk | ⟨hk, -⟩)
      · exact hLiterals n hn hLe k hk
      · exact hOthers n hn hLe k hk
      · rw [hAny] at hk
        cases hk
  | some any =>
      have hKind := hBelow any hAny
      have hSettle : settle (some any) st.blank = (any, 0) := by
        refine if_pos ?_
        cases hInit : st.initMatch with
        | none =>
            rw [blank_of_initMatch_none hInit]
            exact .inr ⟨rfl, hKind⟩
        | some kind =>
            rw [blank_of_initMatch_some hInit]
            left
            change (-1 : Int) < 0
            omega
      refine .inl ⟨1, any, ⟨Nat.one_pos, hPos, ?_, ?_⟩, ?_⟩
      · refine ⟨.inr (.inr ⟨hAny, ?_⟩), ?_⟩
        · rw [List.length_take]
          omega
        · rintro k (hk | hk | ⟨hk, -⟩)
          · exact absurd hk
              (hLiterals 1 Nat.one_pos hPos k)
          · exact absurd hk (hOthers 1 Nat.one_pos hPos k)
          · rw [hAny] at hk
            exact (Option.some_inj.mp hk).le
      · rintro m hm hLe k (hk | hk | ⟨-, hk⟩)
        · exact hLiterals m (Nat.one_pos.trans hm) hLe k hk
        · exact hOthers m (Nat.one_pos.trans hm) hLe k hk
        · rw [List.length_take] at hk
          omega
      · rw [hSettle]
        rfl

/- The last literal on the way, as it is reported. -/
def LastLiteral
    (st : LexState)
    (lits : List Literal)
    (p : List Nat)
    (b : Nat × Int) : Prop :=
  (∃ m k, Longest (Spelled lits) p m k ∧
      b = (st.literals.reportedKind (m - 1) k st.anyChar,
        (m : Int) - 1)) ∨
    (NoMatch (Spelled lits) p ∧ b = st.blank)

/-
  Where the empty text is matched, a match of one unit is
  forgotten when literals are followed beyond it and neither
  a literal nor the automaton comes to an end.
-/
structure Forgets
    (st : LexState)
    (lits : List Literal)
    (A : Matching)
    (p : List Nat) : Prop where
  init : st.initMatch.isSome = true
  two : 2 ≤ p.length
  literal : ∀ k, ¬ Spelled lits k (p.take 1)
  one : ∃ k, A k (p.take 1)
  last : NoneAfter (st.AnyOf lits A) 1 p

/- The match so far, or the one that is known. -/
def chosen
    (st : LexState)
    (pos : Nat)
    (b : Nat × Int)
    (r : Resume) : Nat × Int :=
  if r.kind != noKind &&
      prefersResume st
        { kind := b.1, pos := b.2, current := 0 } pos r then
    (r.kind, (r.pos : Int))
  else b

/- A literal that ends last on the way is the longest match. -/
theorem longest_of_literal
    (hExact : st.Exact lits A)
    {p : List Nat}
    {m k : Nat}
    (hLiteral : Longest (Spelled lits) p m k)
    (hOthers : NoneAfter A m p) :
    Longest (st.AnyOf lits A) p m
      (st.literals.reportedKind (m - 1) k st.anyChar) := by
  rcases hLiteral.kind.1 with ⟨l, hl, rfl, hImage⟩
  have hLength : l.image.length = m := by
    rw [hImage, List.length_take]
    exact min_eq_left hLiteral.inside
  have hReported := reportedKind_spec hExact hl
  rw [hLength, hImage] at hReported
  have hPos : 0 < m := hLiteral.longer
  refine ⟨hPos, hLiteral.inside, hReported, ?_⟩
  rintro m' hAfter hLe k' (hk | hk | ⟨-, hk⟩)
  · exact hLiteral.last m' hAfter hLe k' hk
  · exact hOthers m' hAfter hLe k' hk
  · rw [List.length_take] at hk
    omega

/- A match that is known and not superseded is the longest. -/
theorem longest_of_known
    {p : List Nat}
    {r : Resume}
    (hKnown : Known st lits A p r)
    (hKind : r.kind ≠ noKind)
    (hLiterals : NoneAfter (Spelled lits) (r.pos + 1) p) :
    Longest (st.AnyOf lits A) p (r.pos + 1) r.kind := by
  rcases hKnown.counts hKind with ⟨hInside, -, hLeast, hLast⟩
  refine ⟨Nat.succ_pos _, hInside, hLeast, ?_⟩
  rintro m hAfter hLe k (hk | hk | ⟨-, hk⟩)
  · exact hLiterals m hAfter hLe k hk
  · exact hLast m hAfter hLe k hk
  · rw [List.length_take] at hk
    omega

/- Nothing is forgotten once a literal has ended. -/
theorem not_forgets_of_literal
    {p : List Nat}
    {m k : Nat}
    (hLiteral : Longest (Spelled lits) p m k) :
    ¬ Forgets st lits A p := by
  intro hForgets
  have hPos : 0 < m := hLiteral.longer
  rcases Nat.lt_or_ge 1 m with hMore | hOne
  · exact hForgets.last m hMore hLiteral.inside k
      (.inl hLiteral.kind.1)
  · have hm : m = 1 := le_antisymm hOne hPos
    subst hm
    exact hForgets.literal k hLiteral.kind.1

/- A match that is known is forgotten only after one unit. -/
theorem forgets_iff_of_known
    {p : List Nat}
    (hNone : NoMatch (Spelled lits) p)
    {r : Resume}
    (hKnown : Known st lits A p r)
    (hKind : r.kind ≠ noKind) :
    Forgets st lits A p ↔
      st.initMatch.isSome = true ∧ r.pos = 0 ∧
        2 ≤ p.length := by
  have hCounts := hKnown.counts hKind
  have hInside := hCounts.1
  have hLongest := longest_of_known hKnown hKind
    fun j hAfter hLe => hNone j (Nat.zero_lt_of_lt hAfter) hLe
  constructor
  · intro hForgets
    refine ⟨hForgets.init, ?_, hForgets.two⟩
    by_contra hLater
    exact hForgets.last (r.pos + 1) (by omega) hInside _
      hLongest.kind.1
  · rintro ⟨hInit, hZero, hTwo⟩
    have hOne := hCounts.2.1
    have hEnd := hLongest.last
    rw [hZero] at hOne hEnd
    exact ⟨hInit, hTwo, hNone 1 Nat.one_pos (by omega), hOne,
      hEnd⟩

/- What is known wins only if it is not shorter than a literal. -/
theorem le_of_prefersResume
    {n m k : Nat}
    {r : Resume}
    (hm : 0 < m)
    (hInside : m ≤ n)
    (hPrefers : prefersResume st
      { kind := k, pos := (m : Int) - 1, current := 0 }
      (n - 1) r = true) :
    m ≤ r.pos + 1 := by
  unfold prefersResume at hPrefers
  dsimp only at hPrefers
  split at hPrefers
  · next hFirst =>
      rw [beq_iff_eq] at hFirst
      omega
  · split at hPrefers
    · next hHere =>
        rw [beq_iff_eq] at hHere
        omega
    · split at hPrefers
      · rw [decide_eq_true_eq] at hPrefers
        omega
      · rw [beq_iff_eq] at hPrefers
        omega

/- A literal wins only if it is not shorter than what is known. -/
theorem le_of_not_prefersResume
    {n m k : Nat}
    {r : Resume}
    (hm : 0 < m)
    (hPrefers : prefersResume st
      { kind := k, pos := (m : Int) - 1, current := 0 }
      (n - 1) r = false) :
    r.pos + 1 ≤ m := by
  unfold prefersResume at hPrefers
  dsimp only at hPrefers
  split at hPrefers
  · cases hPrefers
  · split at hPrefers
    · next hHere =>
        rw [beq_iff_eq] at hHere
        simp only [Bool.or_eq_false_iff, bne_eq_false_iff_eq]
          at hPrefers
        have hEnd := hPrefers.2
        omega
    · split at hPrefers
      · rw [decide_eq_false_iff_not] at hPrefers
        omega
      · omega

/- Without a literal only a match of one unit can lose. -/
theorem prefersResume_blank_eq_false_iff
    {n : Nat}
    {r : Resume}
    (hInside : r.pos + 1 ≤ n) :
    prefersResume st
        { kind := st.blank.1, pos := st.blank.2, current := 0 }
        (n - 1) r = false ↔
      st.initMatch.isSome = true ∧ r.pos = 0 ∧ 2 ≤ n := by
  unfold prefersResume
  cases hInit : st.initMatch with
  | none =>
      rw [blank_of_initMatch_none hInit]
      simp only [Option.isSome_none, Bool.false_eq_true,
        false_and, iff_false, Bool.not_eq_false]
      split
      · rfl
      · next hFirst =>
          rw [beq_iff_eq] at hFirst
          split
          · next hHere =>
              rw [beq_iff_eq] at hHere
              rw [Bool.or_eq_true, bne_iff_ne]
              right
              omega
          · split
            · rw [decide_eq_true_eq]
              omega
            · rfl
  | some kind =>
      rw [blank_of_initMatch_some hInit]
      simp only [Option.isSome_some, true_and]
      split
      · next hFirst =>
          rw [beq_iff_eq] at hFirst
          refine ⟨fun h => (by cases h), fun h => ?_⟩
          omega
      · next hFirst =>
          rw [beq_iff_eq] at hFirst
          split
          · next hHere =>
              rw [beq_iff_eq] at hHere
              simp only [Bool.or_eq_false_iff,
                bne_eq_false_iff_eq]
              omega
          · split
            · rw [decide_eq_false_iff_not]
              omega
            · refine ⟨fun _ => ?_, fun _ => rfl⟩
              omega

/- Every match of the automaton has been superseded. -/
theorem answers_of_superseded
    (hExact : st.Exact lits A)
    {p : List Nat}
    (hSome : p ≠ [])
    {b : Nat × Int}
    (hLast : LastLiteral st lits p b)
    {r : Resume}
    (hKnown : Known st lits A p r)
    (hKind : r.kind = noKind) :
    Answers st (st.AnyOf lits A) p (settle st.anyChar b) := by
  have hSilent := hKnown.silent hKind
  rcases hLast with ⟨m, k, hLiteral, rfl⟩ | ⟨hNone, rfl⟩
  · apply answers_of_longest
    apply longest_of_literal hExact hLiteral
    intro j hAfter hLe k' hk'
    rcases hSilent j (Nat.zero_lt_of_lt hAfter) hLe
        ⟨k', hk'⟩ with
      ⟨j', k₀, hLater, hLe', hSpelled, -⟩
    exact hLiteral.last j' (hAfter.trans_le hLater) hLe' k₀
      hSpelled
  · refine answers_blank hExact.anyBelow hSome hNone ?_
    intro j hj hLe k hk
    rcases hSilent j hj hLe ⟨k, hk⟩ with
      ⟨j', k₀, hLater, hLe', hSpelled, -⟩
    exact hNone j' (hj.trans_le hLater) hLe' k₀ hSpelled

/- The later one of a literal and what is known is chosen. -/
theorem answers_of_later
    (hExact : st.Exact lits A)
    {p : List Nat}
    {m k : Nat}
    (hLiteral : Longest (Spelled lits) p m k)
    {r : Resume}
    (hKnown : Known st lits A p r) :
    Answers st (st.AnyOf lits A) p
      (settle st.anyChar (st.chosen (p.length - 1)
        (st.literals.reportedKind (m - 1) k st.anyChar,
          (m : Int) - 1) r)) := by
  have hm : 0 < m := hLiteral.longer
  unfold chosen
  dsimp only
  by_cases hKind : r.kind = noKind
  · rw [if_neg (by simp [hKind])]
    have hSome : p ≠ [] := by
      rintro rfl
      exact absurd hLiteral.inside hm.not_ge
    exact answers_of_superseded hExact hSome
      (.inl ⟨m, k, hLiteral, rfl⟩) hKnown hKind
  · have hBne : (r.kind != noKind) = true := by
      simpa using hKind
    rw [hBne, Bool.true_and]
    have hCounts := hKnown.counts hKind
    split
    · next hTrue =>
        have hLe := le_of_prefersResume hm hLiteral.inside hTrue
        have hLongest := longest_of_known hKnown hKind
          fun j hAfter hLe' => hLiteral.last j (by omega) hLe'
        have hAnswer := answers_of_longest hLongest
        push_cast at hAnswer
        rwa [add_sub_cancel_right] at hAnswer
    · next hFalse =>
        have hLe := le_of_not_prefersResume hm
          (by simpa using hFalse)
        exact answers_of_longest
          (longest_of_literal hExact hLiteral
            fun j hAfter hLe' => hCounts.2.2.2 j (by omega)
              hLe')

/-
  Where literals stop, the choice between the last literal and
  what is known is right unless a match is forgotten.
-/
theorem chosen_spec
    (hExact : st.Exact lits A)
    {p : List Nat}
    (hSome : p ≠ [])
    {b : Nat × Int}
    (hLast : LastLiteral st lits p b)
    {r : Resume}
    (hKnown : Known st lits A p r) :
    (Forgets st lits A p →
        st.chosen (p.length - 1) b r = st.blank) ∧
      (¬ Forgets st lits A p →
        Answers st (st.AnyOf lits A) p
          (settle st.anyChar
            (st.chosen (p.length - 1) b r))) := by
  rcases hLast with ⟨m, k, hLiteral, rfl⟩ | ⟨hNone, rfl⟩
  · exact ⟨fun hForgets =>
        absurd hForgets (not_forgets_of_literal hLiteral),
      fun _ => answers_of_later hExact hLiteral hKnown⟩
  · unfold chosen
    by_cases hKind : r.kind = noKind
    · rw [if_neg (by simp [hKind])]
      exact ⟨fun _ => rfl, fun _ =>
        answers_of_superseded hExact hSome (.inr ⟨hNone, rfl⟩)
          hKnown hKind⟩
    · have hBne : (r.kind != noKind) = true := by
        simpa using hKind
      rw [hBne, Bool.true_and]
      have hInside := (hKnown.counts hKind).1
      have hForgets := forgets_iff_of_known hNone hKnown hKind
      rw [← prefersResume_blank_eq_false_iff hInside]
        at hForgets
      split
      · next hTrue =>
          refine ⟨fun h => ?_, fun _ => ?_⟩
          · rw [hForgets.mp h] at hTrue
            cases hTrue
          · have hAnswer := answers_of_longest
              (longest_of_known hKnown hKind
                fun j hAfter hLe =>
                  hNone j (Nat.zero_lt_of_lt hAfter) hLe)
            push_cast at hAnswer
            rwa [add_sub_cancel_right] at hAnswer
      · next hFalse =>
          refine ⟨fun _ => rfl, fun h => ?_⟩
          exact absurd (hForgets.mpr (by simpa using hFalse)) h

end Answers

end LexState

end Descent
