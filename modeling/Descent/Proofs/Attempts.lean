import Descent.Proofs.Cascade

/-
  What an attempt finds in a lexical state in which case
  counts.

  The literals are followed one unit at a time, and a literal
  is alive as long as it begins like the text.  Where they
  stop, the choice between the last literal and what is known
  is the longest match so far, unless one is forgotten; the
  automaton then goes on from where it would stand had it read
  everything itself.

  Main declarations:
    * `LexState.AliveAfter`
    * `LexState.Handed`
    * `LexState.handover_spec`
    * `LexState.Forgotten`
    * `LexState.attempt_spec`
-/

------------------------------------------------------------
-- Stopping
------------------------------------------------------------

namespace Descent

open LiteralTable (Numbered)

namespace LexState

section Stopping

variable {st : LexState} {lits : List Literal} {A : Matching}

theorem mixed_of_mem
    (hExact : st.Exact lits A)
    {l : Literal}
    (hl : l ∈ lits) :
    st.mixed = false := by
  by_contra hMixed
  rw [Bool.not_eq_false] at hMixed
  rw [hExact.mixed hMixed] at hl
  cases hl

theorem length_le_maxLen_table
    (hExact : st.Exact lits A)
    {l : Literal}
    (hl : l ∈ lits) :
    l.image.length ≤ st.literals.maxLen := by
  rw [maxLen_table hExact]
  exact LiteralTable.length_le_maxLen
    ((mem_baseTable hExact l).mpr hl)

/- The kinds of the literals that go on after a text. -/
def AliveAfter
    (lits : List Literal)
    (p : List Nat)
    (alive : KindSet) : Prop :=
  ∀ k, alive.contains k = true ↔
    ∃ l ∈ lits, l.kind = k ∧ p <+: l.image ∧
      p.length < l.image.length

theorem numbered_table
    (hExact : st.Exact lits A) :
    Numbered st.literals.literals := by
  rw [literals_table hExact]
  exact numbered_literals hExact

/-
  Where literals stop, the automaton goes on after the text,
  and the match is the one that is chosen there.
-/
theorem stopBest_eq
    (hExact : st.Exact lits A)
    {p : List Nat}
    (hUnits : IsUnits p)
    (hSome : p ≠ [])
    {alive : KindSet}
    (hAlive : AliveAfter lits p alive)
    (hNext : ∃ k, alive.contains k = true)
    {b : Nat × Int}
    (hLast : LastLiteral st lits p b) :
    st.stopBest b (p.length - 1) alive =
      ((st.knownOn lits p).state,
        st.chosen (p.length - 1) b (st.knownOn lits p)) := by
  have hPos := List.length_pos_of_ne_nil hSome
  have hKnown := known_on hExact hUnits hSome
  have hLonger : p.length < st.literals.maxLen := by
    rcases hNext with ⟨k, hk⟩
    rcases (hAlive k).mp hk with ⟨l, hl, -, -, hLess⟩
    exact hLess.trans_le (length_le_maxLen_table hExact hl)
  have hFind : ((st.literals.buckets.getD (p.length - 1) []).find?
      fun e => !(e.2.inter alive).isEmpty).map (·.1) =
        if (st.knownOn lits p).kind = noKind ∧
            (st.knownOn lits p).state = none then none
        else some (st.knownOn lits p) := by
    have hMixed : st.mixed = false := by
      rcases hNext with ⟨k, hk⟩
      rcases (hAlive k).mp hk with ⟨l, hl, -⟩
      exact mixed_of_mem hExact hl
    refine LiteralTable.find?_alive (filed_table hExact hMixed)
      (numbered_table hExact) hNext ?_
    intro k hk
    rcases (hAlive k).mp hk with ⟨l, hl, hKind, hPrefix, -⟩
    exact ⟨l, (mem_literals hExact l).mpr hl, hKind,
      knownFor_eq lits hPrefix hSome⟩
  generalize st.knownOn lits p = r at hFind hKnown ⊢
  unfold stopBest stopLiterals
  rw [if_neg (by omega)]
  cases hFound : (st.literals.buckets.getD
      (p.length - 1) []).find?
      fun e => !(e.2.inter alive).isEmpty with
  | none =>
      rw [hFound, Option.map_none] at hFind
      split at hFind
      · next hUseless =>
          unfold chosen
          rw [if_neg (by simp [hUseless.1]), hUseless.2]
          rfl
      · cases hFind
  | some e =>
      rcases e with ⟨r', ks⟩
      rw [hFound, Option.map_some] at hFind
      split at hFind
      · cases hFind
      have hSame : r' = r := Option.some_inj.mp hFind
      subst hSame
      dsimp only
      unfold chosen
      split
      · next hPrefers =>
          rw [Bool.and_eq_true, bne_iff_ne] at hPrefers
          have hInside := (hKnown.counts hPrefers.1).1
          by_cases hFirst : (p.length - 1 != 0 ||
              st.initMatch.isSome) = true
          · rw [if_pos hFirst]
            rfl
          · -- A match of one unit is at the position already.
            rw [if_neg hFirst]
            rw [Bool.or_eq_true, not_or, bne_iff_ne, not_not,
              Bool.not_eq_true, Option.isSome_eq_false_iff,
              Option.isNone_iff_eq_none] at hFirst
            have hZero : b.2 = (r'.pos : Int) := by
              rcases hLast with
                ⟨m, k, hLiteral, rfl⟩ | ⟨-, rfl⟩
              · have hLow := hLiteral.longer
                have hHigh := hLiteral.inside
                change (m : Int) - 1 = _
                omega
              · rw [blank_of_initMatch_none hFirst.2]
                change (0 : Int) = _
                omega
            exact Prod.ext rfl (Prod.ext rfl hZero)
      · rfl

end Stopping

------------------------------------------------------------
-- Following literals
------------------------------------------------------------

section Following

variable {st : LexState} {lits : List Literal} {A : Matching}

theorem snoc_prefix_iff
    {p w : List Nat}
    {c : Nat} :
    p ++ [c] <+: w ↔ p <+: w ∧ w[p.length]? = some c := by
  constructor
  · rintro ⟨rest, rfl⟩
    refine ⟨?_, by simp⟩
    rw [List.append_assoc]
    exact List.prefix_append _ _
  · rintro ⟨hPrefix, hGet⟩
    rw [List.prefix_iff_eq_take, List.length_append,
      List.length_singleton, take_succ_eq hGet,
      ← List.prefix_iff_eq_take.mp hPrefix]

/- One part of an entry, for the literals that go on so far. -/
theorem contains_part_snoc
    (hExact : st.Exact lits A)
    {p : List Nat}
    {alive : KindSet}
    (hAlive : AliveAfter lits p alive)
    (c : Nat)
    (b : Bool)
    (k : Nat) :
    (((st.infoFor p.length c).part b).inter alive).contains k =
        true ↔
      ∃ l ∈ lits, l.kind = k ∧ p ++ [c] <+: l.image ∧
        b = decide ((p ++ [c]).length = l.image.length) := by
  rw [KindSet.contains_inter, contains_infoFor hExact,
    hAlive k, List.length_append, List.length_singleton]
  constructor
  · rintro ⟨⟨l, hl, hKind, hGet, hEnd⟩,
      l', hl', hKind', hPrefix, -⟩
    have hSame := hExact.numbered.eq_of_kind hl hl'
      (hKind.trans hKind'.symm)
    subst hSame
    exact ⟨l, hl, hKind, snoc_prefix_iff.mpr ⟨hPrefix, hGet⟩,
      hEnd⟩
  · rintro ⟨l, hl, hKind, hPrefix, hEnd⟩
    have hBoth := snoc_prefix_iff.mp hPrefix
    have hLess := (List.getElem?_eq_some_iff.mp hBoth.2).1
    exact ⟨⟨l, hl, hKind, hBoth.2, hEnd⟩, l, hl, hKind,
      hBoth.1, hLess⟩

/- One part of the entry for the first unit. -/
theorem contains_part_first
    (hExact : st.Exact lits A)
    (c : Nat)
    (b : Bool)
    (k : Nat) :
    ((st.infoFor 0 c).part b).contains k = true ↔
      ∃ l ∈ lits, l.kind = k ∧ [c] <+: l.image ∧
        b = decide ([c].length = l.image.length) := by
  rw [contains_infoFor hExact]
  refine exists_congr fun l => and_congr_right fun hl =>
    and_congr_right fun _ => and_congr_left fun _ => ?_
  have hBoth := @snoc_prefix_iff [] l.image c
  rw [List.nil_append, List.length_nil] at hBoth
  rw [hBoth]
  exact (and_iff_right List.nil_prefix).symm

/- The kinds that do not end with a text go on after it. -/
theorem aliveAfter_of_parts
    {p : List Nat}
    {alive : KindSet}
    (hAlive : ∀ k, alive.contains k = true ↔
      ∃ l ∈ lits, l.kind = k ∧ p <+: l.image ∧
        false = decide (p.length = l.image.length)) :
    AliveAfter lits p alive := by
  intro k
  rw [hAlive k]
  refine exists_congr fun l => and_congr_right fun _ =>
    and_congr_right fun _ => and_congr_right fun hPrefix => ?_
  rw [eq_comm, decide_eq_false_iff_not]
  exact ⟨fun hNot => lt_of_le_of_ne hPrefix.length_le hNot,
    fun hLess => hLess.ne⟩

/- The kinds that end with a text have it as image. -/
theorem spelled_iff_ended
    {p : List Nat}
    {k : Nat} :
    (∃ l ∈ lits, l.kind = k ∧ p <+: l.image ∧
        true = decide (p.length = l.image.length)) ↔
      Spelled lits k p := by
  refine exists_congr fun l => and_congr_right fun _ =>
    and_congr_right fun _ => ?_
  rw [eq_comm (a := true), decide_eq_true_eq]
  constructor
  · rintro ⟨hPrefix, hLength⟩
    exact (hPrefix.eq_of_length hLength).symm
  · rintro rfl
    exact ⟨List.prefix_rfl, rfl⟩

/- The literals that go on after one more unit. -/
theorem aliveAfter_snoc
    (hExact : st.Exact lits A)
    {p : List Nat}
    {alive : KindSet}
    (hAlive : AliveAfter lits p alive)
    (c : Nat) :
    AliveAfter lits (p ++ [c])
      ((st.infoFor p.length c).alive.inter alive) :=
  aliveAfter_of_parts (contains_part_snoc hExact hAlive c false)

/- The literals that end with one more unit. -/
theorem ended_snoc
    (hExact : st.Exact lits A)
    {p : List Nat}
    {alive : KindSet}
    (hAlive : AliveAfter lits p alive)
    (c k : Nat) :
    ((st.infoFor p.length c).ended.inter alive).contains k =
        true ↔
      Spelled lits k (p ++ [c]) :=
  (contains_part_snoc hExact hAlive c true k).trans
    spelled_iff_ended

/- Before the first unit every literal is alive. -/
theorem aliveAfter_first
    (hExact : st.Exact lits A)
    (c : Nat) :
    AliveAfter lits [c] (st.infoFor 0 c).alive :=
  aliveAfter_of_parts (contains_part_first hExact c false)

theorem ended_first
    (hExact : st.Exact lits A)
    (c k : Nat) :
    (st.infoFor 0 c).ended.contains k = true ↔
      Spelled lits k [c] :=
  (contains_part_first hExact c true k).trans
    spelled_iff_ended

/- A literal that goes on is flagged. -/
theorem isSubString_of_alive
    (hExact : st.Exact lits A)
    {l : Literal}
    (hl : l ∈ lits)
    {alive : KindSet}
    (hAlive : AliveAfter lits l.image alive) :
    st.literals.isSubString l.kind = true ↔
      ∃ k, alive.contains k = true := by
  rw [isSubString_iff hExact hl]
  constructor
  · rintro ⟨other, hOther, hPrefix, hLonger⟩
    exact ⟨other.kind, (hAlive _).mpr
      ⟨other, hOther, rfl, hPrefix, hLonger⟩⟩
  · rintro ⟨k, hk⟩
    rcases (hAlive k).mp hk with
      ⟨other, hOther, -, hPrefix, hLonger⟩
    exact ⟨other, hOther, hPrefix, hLonger⟩

------------------------------------------------------------
-- The last literal
------------------------------------------------------------

/- A text that is not matched itself has the match before it. -/
theorem longest_snoc
    {M : Matching}
    {p : List Nat}
    {c n k : Nat}
    (hLongest : Longest M p n k)
    (hNot : ∀ k, ¬ M k (p ++ [c])) :
    Longest M (p ++ [c]) n k := by
  have hInside := hLongest.inside
  have hTake : ∀ m ≤ p.length,
      (p ++ [c]).take m = p.take m := by
    intro m hm
    exact List.take_append_of_le_length hm
  refine ⟨hLongest.longer, ?_, ?_, ?_⟩
  · rw [List.length_append]
    omega
  · rw [hTake n hInside]
    exact hLongest.kind
  · intro m hAfter hLe k' hk'
    rw [List.length_append, List.length_singleton] at hLe
    rcases Nat.lt_or_ge p.length m with hWhole | hWithin
    · rw [List.take_of_length_le (by simp; omega)] at hk'
      exact hNot k' hk'
    · rw [hTake m hWithin] at hk'
      exact hLongest.last m hAfter hWithin k' hk'

theorem noMatch_snoc
    {M : Matching}
    {p : List Nat}
    {c : Nat}
    (hNone : NoMatch M p)
    (hNot : ∀ k, ¬ M k (p ++ [c])) :
    NoMatch M (p ++ [c]) := by
  intro m hPos hLe k hk
  rw [List.length_append, List.length_singleton] at hLe
  rcases Nat.lt_or_ge p.length m with hWhole | hWithin
  · rw [List.take_of_length_le (by simp; omega)] at hk
    exact hNot k hk
  · rw [List.take_append_of_le_length hWithin] at hk
    exact hNone m hPos hWithin k hk

theorem lastLiteral_snoc
    {p : List Nat}
    {b : Nat × Int}
    (hLast : LastLiteral st lits p b)
    {c : Nat}
    (hNot : ∀ k, ¬ Spelled lits k (p ++ [c])) :
    LastLiteral st lits (p ++ [c]) b := by
  rcases hLast with ⟨m, k, hLiteral, hBest⟩ | ⟨hNone, hBest⟩
  · exact .inl ⟨m, k, longest_snoc hLiteral hNot, hBest⟩
  · exact .inr ⟨noMatch_snoc hNone hNot, hBest⟩

/- A literal that is the whole text is the last one. -/
theorem lastLiteral_of_mem
    (hExact : st.Exact lits A)
    {l : Literal}
    (hl : l ∈ lits) :
    LastLiteral st lits l.image
      (st.literals.reportedKind (l.image.length - 1) l.kind
        st.anyChar, (l.image.length : Int) - 1) := by
  have hPos := List.length_pos_of_ne_nil
    (hExact.nonempty l hl)
  refine .inl ⟨l.image.length, l.kind,
    ⟨hPos, le_rfl, ⟨?_, ?_⟩, ?_⟩, rfl⟩
  · rw [List.take_length]
    exact ⟨l, hl, rfl, rfl⟩
  · rw [List.take_length]
    rintro k ⟨l', hl', rfl, hImage⟩
    rw [hExact.images l' hl' l hl hImage]
  · intro m hAfter hLe
    omega

end Following

------------------------------------------------------------
-- What is handed over
------------------------------------------------------------

section Handing

variable {st : LexState} {lits : List Literal} {A : Matching}

/-
  What the literals hand over after following at least one
  unit of a text.
-/
structure Handed
    (st : LexState)
    (lits : List Literal)
    (A : Matching)
    (u : List Nat)
    (h : Handover) : Prop where
  positive : 0 < h.read
  inside : h.read ≤ u.length
  rest : h.rest = u.drop h.read
  state : h.state = st.reads (u.take h.read)
  begun : ∃ l ∈ lits, u.take h.read <+: l.image
  stop :
    h.read < u.length →
      ∀ l ∈ lits, ¬ u.take (h.read + 1) <+: l.image
  forgets :
    Forgets st lits A (u.take h.read) → h.best = st.blank
  answers :
    ¬ Forgets st lits A (u.take h.read) →
      Answers st (st.AnyOf lits A) (u.take h.read)
        (settle st.anyChar h.best)

/- Without an automaton nothing is read. -/
theorem reads_of_idle
    (hExact : st.Exact lits A)
    (hNfa : st.hasNfa = false)
    {p : List Nat}
    (hUnits : IsUnits p)
    (hSome : p ≠ []) :
    st.reads p = none := by
  cases p with
  | nil => exact absurd rfl hSome
  | cons c p =>
      exact hExact.recognizes.reads_cons hNfa
        (hUnits c List.mem_cons_self) p

/- Literals that stop after a beginning of the text. -/
theorem handed_stop
    (hExact : st.Exact lits A)
    {p rest : List Nat}
    (hUnits : IsUnits p)
    (hSome : p ≠ [])
    {alive : KindSet}
    (hAlive : AliveAfter lits p alive)
    (hNext : ∃ k, alive.contains k = true)
    {b : Nat × Int}
    (hLast : LastLiteral st lits p b)
    (hStop : ∀ c, rest.head? = some c →
      ∀ l ∈ lits, ¬ p ++ [c] <+: l.image) :
    Handed st lits A (p ++ rest)
      (st.handStop p.length alive b rest) := by
  have hPos := List.length_pos_of_ne_nil hSome
  have hKnown := known_on hExact hUnits hSome
  have hChosen := chosen_spec hExact hSome hLast hKnown
  have hHand : st.handStop p.length alive b rest =
      { state := st.reads p, read := p.length,
        best := st.chosen (p.length - 1) b
          (st.knownOn lits p), rest := rest } := by
    unfold handStop
    by_cases hNfa : st.hasNfa = true
    · rw [if_pos hNfa, stopBest_eq hExact hUnits hSome hAlive
        hNext hLast, hKnown.state]
    · rw [if_neg hNfa, reads_of_idle hExact
        (by simpa using hNfa) hUnits hSome]
      unfold chosen knownOn
      rw [if_neg hNfa]
      rfl
  have hTake : (p ++ rest).take p.length = p :=
    List.take_left
  rw [hHand]
  refine ⟨hPos, ?_, ?_, ?_, ?_, ?_, ?_, ?_⟩
  · rw [List.length_append]
    exact Nat.le_add_right _ _
  · exact List.drop_left.symm
  · rw [hTake]
  · rw [hTake]
    rcases hNext with ⟨k, hk⟩
    rcases (hAlive k).mp hk with ⟨l, hl, -, hPrefix, -⟩
    exact ⟨l, hl, hPrefix⟩
  · intro hLess
    cases rest with
    | nil =>
        rw [List.append_nil] at hLess
        exact absurd hLess (lt_irrefl _)
    | cons c rest =>
        have hTakeNext : (p ++ c :: rest).take (p.length + 1) =
            p ++ [c] := by
          rw [List.take_length_add_append]
          rfl
        dsimp only
        rw [hTakeNext]
        exact hStop c rfl
  · rw [hTake]
    exact hChosen.1
  · rw [hTake]
    exact hChosen.2

/- A literal that nothing extends. -/
theorem handed_commit
    (hExact : st.Exact lits A)
    {l : Literal}
    (hl : l ∈ lits)
    (hFlag : st.literals.isSubString l.kind = false)
    (rest : List Nat) :
    Handed st lits A (l.image ++ rest)
      (st.handCommit (l.image.length - 1) l.kind rest) := by
  have hSome := hExact.nonempty l hl
  have hPos := List.length_pos_of_ne_nil hSome
  have hRead : l.image.length - 1 + 1 = l.image.length := by
    omega
  have hReported := reportedKind_spec hExact hl
  have hTake : (l.image ++ rest).take l.image.length =
      l.image := List.take_left
  have hLongest : Longest (st.AnyOf lits A) l.image
      l.image.length
      (st.literals.reportedKind (l.image.length - 1) l.kind
        st.anyChar) := by
    refine ⟨hPos, le_rfl, ?_, ?_⟩
    · rwa [List.take_length]
    · intro m hAfter hLe
      omega
  unfold handCommit
  rw [hRead]
  refine ⟨hPos, ?_, ?_, ?_, ⟨l, hl, ?_⟩, ?_, ?_, ?_⟩
  · rw [List.length_append]
    exact Nat.le_add_right _ _
  · exact List.drop_left.symm
  · -- The state is the one after the literal's own spelling.
    rw [hTake]
    have hPlain := mixed_of_mem hExact hl
    have hState := LiteralTable.stateFor?_eq
      (filed_table hExact hPlain) (numbered_table hExact).distinct
      ((mem_literals hExact l).mpr hl) (l.image.length - 1)
    dsimp only
    rw [hState, knownFor_eq lits List.prefix_rfl hSome]
    exact (known_on hExact (hExact.units l hl) hSome).state
  · rw [hTake]
  · intro hLess other hOther hPrefix
    have hSub : ¬ st.literals.isSubString l.kind = true := by
      rw [hFlag]
      exact Bool.false_ne_true
    refine hSub ((isSubString_iff hExact hl).mpr
      ⟨other, hOther, ?_, ?_⟩)
    · refine List.IsPrefix.trans ?_ hPrefix
      have hLonger := List.take_prefix_take_left
        (l := l.image ++ rest) (Nat.le_succ l.image.length)
      rwa [hTake] at hLonger
    · have hLe := hPrefix.length_le
      rw [List.length_take, min_eq_left hLess] at hLe
      exact hLe
  · rw [hTake]
    intro hForgets
    rcases hForgets with ⟨-, hTwo, -, -, hNone⟩
    exact absurd hLongest.kind.1
      (hNone l.image.length (by omega) le_rfl _)
  · rw [hTake]
    intro _
    have hAnswer := answers_of_longest hLongest
    have hCast : ((l.image.length - 1 : Nat) : Int) =
        (l.image.length : Int) - 1 := by
      omega
    dsimp only
    rwa [hCast]

/-
  Following the literals that are alive.  The induction is on
  what is still to be read; a literal that ends is the last
  one from then on.
-/
theorem handed_follow
    (hExact : st.Exact lits A)
    {p rest : List Nat}
    (hUnits : IsUnits (p ++ rest))
    (hSome : p ≠ [])
    {alive : KindSet}
    (hAlive : AliveAfter lits p alive)
    (hNext : ∃ k, alive.contains k = true)
    {b : Nat × Int}
    (hLast : LastLiteral st lits p b) :
    Handed st lits A (p ++ rest)
      (st.handFollow p.length alive b rest) := by
  induction rest generalizing p alive b with
  | nil =>
      rw [List.append_nil] at hUnits
      refine handed_stop hExact hUnits hSome hAlive hNext
        hLast ?_
      intro c hc
      cases hc
  | cons c rest ih =>
      have hUnitsP : IsUnits p := fun d hd =>
        hUnits d (List.mem_append_left _ hd)
      have hAlive' := aliveAfter_snoc hExact hAlive c
      have hEnded := ended_snoc hExact hAlive c
      have hMore : p ++ [c] ≠ [] := by simp
      have hText : p ++ c :: rest = p ++ [c] ++ rest := by
        simp
      have hLength : (p ++ [c]).length = p.length + 1 := by
        simp
      have hGoOn : ∀ b', LastLiteral st lits (p ++ [c]) b' →
          (∃ k, ((st.infoFor p.length c).alive.inter
            alive).contains k = true) →
          Handed st lits A (p ++ c :: rest)
            (st.handFollow (p.length + 1)
              ((st.infoFor p.length c).alive.inter alive) b'
              rest) := by
        intro b' hLast' hNext'
        rw [hText] at hUnits ⊢
        have hRest := ih hUnits hMore hAlive' hNext' hLast'
        rwa [hLength] at hRest
      unfold handFollow
      dsimp only
      cases hLeast : ((st.infoFor p.length c).ended.inter
          alive).least? with
      | none =>
          rw [KindSet.least?_eq_none_iff] at hLeast
          have hNot : ∀ k, ¬ Spelled lits k (p ++ [c]) :=
            fun k hk => hLeast k ((hEnded k).mpr hk)
          dsimp only
          split
          · next hStops =>
              rw [KindSet.isEmpty_iff] at hStops
              refine handed_stop hExact hUnitsP hSome hAlive
                hNext hLast ?_
              intro d hd l hl hPrefix
              have hSame : c = d := Option.some_inj.mp hd
              subst hSame
              -- The literal would end here or go on.
              rcases Nat.lt_or_eq_of_le hPrefix.length_le with
                hLess | hEqual
              · exact hStops l.kind ((hAlive' _).mpr
                  ⟨l, hl, rfl, hPrefix, hLess⟩)
              · exact hNot l.kind ⟨l, hl, rfl,
                  (hPrefix.eq_of_length hEqual).symm⟩
          · next hGoes =>
              rw [Bool.not_eq_true, KindSet.not_isEmpty_iff]
                at hGoes
              exact hGoOn b (lastLiteral_snoc hLast hNot) hGoes
      | some kind =>
          rw [KindSet.least?_eq_some_iff] at hLeast
          rcases (hEnded kind).mp hLeast.1 with
            ⟨l, hl, rfl, hImage⟩
          have hHere : l.image.length - 1 = p.length := by
            rw [hImage, hLength]
            rfl
          rw [← hImage] at hAlive'
          have hFlag := isSubString_of_alive hExact hl hAlive'
          dsimp only
          split
          · next hSub =>
              have hGoes := hFlag.mp hSub
              rw [if_neg (by
                rw [Bool.not_eq_true, KindSet.not_isEmpty_iff]
                exact hGoes)]
              refine hGoOn _ ?_ hGoes
              have hLast' := lastLiteral_of_mem hExact hl
              have hCast : (l.image.length : Int) - 1 =
                  (p.length : Int) := by
                rw [hImage, hLength]
                omega
              rwa [hHere, hCast, hImage] at hLast'
          · next hSub =>
              have hCommit := handed_commit hExact hl
                (by simpa using hSub) rest
              rwa [hHere, hImage, ← hText] at hCommit

/-
  What is handed over at the first unit: something that was
  followed, or the automaton starts.
-/
theorem handover_spec
    (hExact : st.Exact lits A)
    {first : Nat}
    {rest : List Nat}
    (hUnits : IsUnits (first :: rest)) :
    Handed st lits A (first :: rest)
        (st.handover first rest) ∨
      ((∀ l ∈ lits, ¬ [first] <+: l.image) ∧
        st.handover first rest =
          st.handAtStart st.blank (first :: rest)) := by
  have hAlive := aliveAfter_first hExact first
  have hEnded := ended_first hExact first
  unfold handover
  split
  · next hEmpty =>
      refine .inr ⟨?_, rfl⟩
      intro l hl hPrefix
      have hMax := length_le_maxLen_table hExact hl
      have hPos := hPrefix.length_le
      rw [List.length_singleton] at hPos
      omega
  dsimp only
  cases hLeast : (st.infoFor 0 first).ended.least? with
  | none =>
      rw [KindSet.least?_eq_none_iff] at hLeast
      have hNot : ∀ k, ¬ Spelled lits k [first] :=
        fun k hk => hLeast k ((hEnded k).mpr hk)
      dsimp only
      split
      · next hStops =>
          rw [KindSet.isEmpty_iff] at hStops
          refine .inr ⟨?_, rfl⟩
          intro l hl hPrefix
          rcases Nat.lt_or_eq_of_le hPrefix.length_le with
            hLess | hEqual
          · exact hStops l.kind ((hAlive _).mpr
              ⟨l, hl, rfl, hPrefix, hLess⟩)
          · exact hNot l.kind ⟨l, hl, rfl,
              (hPrefix.eq_of_length hEqual).symm⟩
      · next hGoes =>
          rw [Bool.not_eq_true, KindSet.not_isEmpty_iff]
            at hGoes
          left
          refine handed_follow (p := [first]) hExact hUnits
            (List.cons_ne_nil _ _) hAlive hGoes (.inr ⟨?_, rfl⟩)
          intro m hPos hLe k hk
          rw [List.take_of_length_le hPos] at hk
          exact hNot k hk
  | some kind =>
      rw [KindSet.least?_eq_some_iff] at hLeast
      rcases (hEnded kind).mp hLeast.1 with
        ⟨l, hl, rfl, hImage⟩
      rw [← hImage] at hAlive
      have hFlag := isSubString_of_alive hExact hl hAlive
      left
      dsimp only
      split
      · next hSub =>
          have hGoes := hFlag.mp hSub
          rw [if_neg (by
            rw [Bool.not_eq_true, KindSet.not_isEmpty_iff]
            exact hGoes)]
          have hLast := lastLiteral_of_mem hExact hl
          rw [hImage] at hAlive hLast
          exact handed_follow (p := [first]) hExact hUnits
            (List.cons_ne_nil _ _) hAlive hGoes hLast
      · next hSub =>
          have hCommit := handed_commit hExact hl
            (by simpa using hSub) rest
          rwa [hImage] at hCommit

end Handing

------------------------------------------------------------
-- Attempts
------------------------------------------------------------

section Attempts

variable {st : LexState} {lits : List Literal} {A : Matching}

/-
  The texts on which a match of one unit is forgotten: literals
  are followed beyond it and nothing longer is matched.
-/
structure Forgotten
    (st : LexState)
    (lits : List Literal)
    (A : Matching)
    (u : List Nat) : Prop where
  forgets : Forgets st lits A u
  followed : ∃ l ∈ lits, u.take 2 <+: l.image

/- Nothing is forgotten where the empty text is not matched. -/
theorem not_forgotten
    (hInit : st.initMatch = none)
    (u : List Nat) :
    ¬ Forgotten st lits A u := by
  intro hForgotten
  have hSome := hForgotten.forgets.init
  rw [hInit] at hSome
  cases hSome

/- The automaton goes on after what has been read. -/
theorem finish_after
    (hA : st.Recognizes A)
    {u : List Nat}
    (hUnits : IsUnits u)
    {h : Handover}
    (hInside : h.read ≤ u.length)
    (hRest : h.rest = u.drop h.read)
    (hHanded : h.state = st.reads (u.take h.read)) :
    (∃ m k, LongestAfter A h.read u m k ∧
        st.finish h = (k, (m : Int) - 1)) ∨
      (NoneAfter A h.read u ∧ st.finish h = h.best) := by
  unfold finish
  cases hState : h.state with
  | none =>
      refine .inr ⟨?_, rfl⟩
      intro m hAfter hLe k
      have hDead : st.reads (u.take m) = none := by
        have hSplit : u.take m = u.take h.read ++
            (u.take m).drop h.read := by
          conv_lhs =>
            rw [← List.take_append_drop h.read (u.take m)]
          rw [List.take_take, min_eq_left hAfter.le]
        rw [hSplit, reads_append, ← hHanded, hState]
        rfl
      exact hA.dead _ (hUnits.take m) hDead k
  | some q =>
      have hReads := hHanded.symm.trans hState
      dsimp only
      rw [hRest]
      exact scan_spec hA hUnits hInside hReads h.best

/- A match of the automaton where no literal begins. -/
theorem answers_settle
    {L : Matching}
    {u : List Nat}
    (hLiterals : NoMatch L u)
    {n k : Nat}
    (hLongest : Longest A u n k) :
    Answers st (st.OneOf L A) u
      (settle st.anyChar (k, (n : Int) - 1)) := by
  have hPos : 0 < n := hLongest.longer
  have hInside := hLongest.inside
  have hLast : NoneAfter (st.OneOf L A) n u := by
    rintro m hAfter hLe j (hj | hj | ⟨-, hj⟩)
    · exact hLiterals m (by omega) hLe j hj
    · exact hLongest.last m hAfter hLe j hj
    · rw [List.length_take] at hj
      omega
  -- The automaton wins unless a wildcard has a smaller kind.
  have hKept : (∀ any, st.anyChar = some any → n = 1 →
      k ≤ any) →
      Longest (st.OneOf L A) u n k := by
    intro hAny
    refine ⟨hPos, hInside, ⟨.inr (.inl hLongest.kind.1), ?_⟩,
      hLast⟩
    rintro j (hj | hj | ⟨hj, hOne⟩)
    · exact absurd hj (hLiterals n hPos hInside j)
    · exact hLongest.kind.2 hj
    · rw [List.length_take] at hOne
      exact hAny j hj (by omega)
  by_cases hWins : ∃ any, st.anyChar = some any ∧ n = 1 ∧
      any < k
  · rcases hWins with ⟨any, hAny, rfl, hLess⟩
    have hSettle : settle st.anyChar (k, ((1 : Nat) : Int) - 1)
        = (any, ((1 : Nat) : Int) - 1) := by
      unfold settle
      rw [hAny]
      exact if_pos (.inr ⟨rfl, hLess⟩)
    rw [hSettle]
    refine .inl ⟨1, any, ⟨Nat.one_pos, hInside, ⟨?_, ?_⟩,
      hLast⟩, rfl⟩
    · refine .inr (.inr ⟨hAny, ?_⟩)
      rw [List.length_take]
      omega
    · rintro j (hj | hj | ⟨hj, -⟩)
      · exact absurd hj (hLiterals 1 Nat.one_pos hInside j)
      · exact hLess.le.trans (hLongest.kind.2 hj)
      · rw [hAny] at hj
        exact (Option.some_inj.mp hj).le
  · refine answers_of_longest (hKept ?_)
    intro any hAny hOne
    by_contra hLess
    exact hWins ⟨any, hAny, hOne, not_le.mp hLess⟩

/- No literal ends beyond where the literals stopped. -/
theorem Handed.noneAfter_spelled
    {u : List Nat}
    {h : Handover}
    (hHanded : Handed st lits A u h) :
    NoneAfter (Spelled lits) h.read u := by
  rintro m hAfter hLe k ⟨l, hl, -, hImage⟩
  refine hHanded.stop (hAfter.trans_le hLe) l hl ?_
  rw [hImage]
  exact List.take_prefix_take_left hAfter

/- Nothing but the automaton matches beyond what has been read. -/
theorem noneAfter_oneOf
    {L : Matching}
    {u : List Nat}
    {n : Nat}
    (hPos : 0 < n)
    (hLiterals : NoneAfter L n u)
    (hOthers : NoneAfter A n u) :
    NoneAfter (st.OneOf L A) n u := by
  rintro m hAfter hLe k (hk | hk | ⟨-, hk⟩)
  · exact hLiterals m hAfter hLe k hk
  · exact hOthers m hAfter hLe k hk
  · rw [List.length_take] at hk
    omega

/- A match within a beginning is one of the whole text. -/
theorem answers_of_take
    {M : Matching}
    {u : List Nat}
    {n : Nat}
    (hInside : n ≤ u.length)
    (hNone : NoneAfter M n u)
    {b : Nat × Int}
    (hAnswers : Answers st M (u.take n) b) :
    Answers st M u b := by
  have hLength : (u.take n).length = n := by
    rw [List.length_take]
    exact min_eq_left hInside
  have hTake : ∀ m ≤ n, (u.take n).take m = u.take m := by
    intro m hm
    rw [List.take_take, min_eq_left hm]
  rcases hAnswers with ⟨m, k, hLongest, rfl⟩ | ⟨hNo, rfl⟩
  · have hm := hLongest.inside
    rw [hLength] at hm
    refine .inl ⟨m, k, ⟨hLongest.longer, hm.trans hInside,
      ?_, ?_⟩, rfl⟩
    · have hKind := hLongest.kind
      rwa [hTake m hm] at hKind
    · intro j hAfter hLe k'
      rcases Nat.lt_or_ge n j with hBeyond | hWithin
      · exact hNone j hBeyond hLe k'
      · have hLast := hLongest.last j hAfter
          (hWithin.trans_eq hLength.symm) k'
        rwa [hTake j hWithin] at hLast
  · refine .inr ⟨?_, rfl⟩
    intro j hPos hLe k
    rcases Nat.lt_or_ge n j with hBeyond | hWithin
    · exact hNone j hBeyond hLe k
    · have hNot := hNo j hPos (hWithin.trans_eq hLength.symm) k
      rwa [hTake j hWithin] at hNot

/- What is forgotten was followed and is not matched later. -/
theorem Handed.forgotten_iff
    {u : List Nat}
    {h : Handover}
    (hHanded : Handed st lits A u h) :
    Forgotten st lits A u ↔
      Forgets st lits A (u.take h.read) ∧
        NoneAfter A h.read u := by
  have hPos := hHanded.positive
  have hInside := hHanded.inside
  have hLength : (u.take h.read).length = h.read := by
    rw [List.length_take]
    exact min_eq_left hInside
  have hTake : ∀ m ≤ h.read,
      (u.take h.read).take m = u.take m := by
    intro m hm
    rw [List.take_take, min_eq_left hm]
  have hOne := hTake 1 hPos
  constructor
  · rintro ⟨⟨hInit, hTwo, hLiteral, hMatch, hLast⟩, l, hl,
      hPrefix⟩
    have hRead : 2 ≤ h.read := by
      by_contra hLess
      have hHere : h.read = 1 := by omega
      have hStop := hHanded.stop
      rw [hHere] at hStop
      exact hStop hTwo l hl hPrefix
    refine ⟨⟨hInit, hRead.trans_eq hLength.symm, ?_, ?_, ?_⟩,
      ?_⟩
    · rwa [hOne]
    · rwa [hOne]
    · intro m hAfter hLe k
      rw [hLength] at hLe
      rw [hTake m hLe]
      exact hLast m hAfter (hLe.trans hInside) k
    · intro m hAfter hLe k hk
      exact hLast m (by omega) hLe k (.inr (.inl hk))
  · rintro ⟨⟨hInit, hTwo, hLiteral, hMatch, hLast⟩, hOthers⟩
    rw [hLength] at hTwo
    rw [hOne] at hLiteral hMatch
    refine ⟨⟨hInit, hTwo.trans hInside, hLiteral, hMatch, ?_⟩,
      ?_⟩
    · intro m hAfter hLe k
      rcases Nat.lt_or_ge h.read m with hBeyond | hWithin
      · exact noneAfter_oneOf hPos hHanded.noneAfter_spelled
          hOthers m hBeyond hLe k
      · have hNot := hLast m hAfter
          (hWithin.trans_eq hLength.symm) k
        rwa [hTake m hWithin] at hNot
    · rcases hHanded.begun with ⟨l, hl, hPrefix⟩
      exact ⟨l, hl,
        (List.take_prefix_take_left hTwo).trans hPrefix⟩

/-
  A match of the automaton beyond what has been read is the
  longest one; else the match by then is, if it is chosen.
-/
theorem answers_of_handover
    {L : Matching}
    (hA : st.Recognizes A)
    {u : List Nat}
    (hUnits : IsUnits u)
    {h : Handover}
    (hInside : h.read ≤ u.length)
    (hRest : h.rest = u.drop h.read)
    (hState : h.state = st.reads (u.take h.read))
    (hPos : 0 < h.read)
    (hLiterals : NoneAfter L h.read u)
    (hAnswers : NoneAfter A h.read u →
      Answers st (st.OneOf L A) (u.take h.read)
        (settle st.anyChar h.best)) :
    Answers st (st.OneOf L A) u
      (settle st.anyChar (st.finish h)) := by
  rcases finish_after hA hUnits hInside hRest hState with
    ⟨m, k, hLongest, hFinish⟩ | ⟨hOthers, hFinish⟩
  · rw [hFinish]
    have hLater := hLongest.longer
    have hEnd := hLongest.inside
    apply answers_of_longest
    refine ⟨hPos.trans hLater, hEnd,
      ⟨.inr (.inl hLongest.kind.1), ?_⟩, ?_⟩
    · rintro j (hj | hj | ⟨-, hj⟩)
      · exact absurd hj (hLiterals m hLater hEnd j)
      · exact hLongest.kind.2 hj
      · rw [List.length_take] at hj
        omega
    · rintro j hAfter hLe k' (hk | hk | ⟨-, hk⟩)
      · exact hLiterals j (hLater.trans hAfter) hLe k' hk
      · exact hLongest.last j hAfter hLe k' hk
      · rw [List.length_take] at hk
        omega
  · rw [hFinish]
    exact answers_of_take hInside
      (noneAfter_oneOf hPos hLiterals hOthers)
      (hAnswers hOthers)

/- Where no literal begins like the text, the automaton starts. -/
theorem answers_of_start
    {L : Matching}
    (hA : st.Recognizes A)
    (hBelow : ∀ k, st.anyChar = some k → k < noKind)
    {first : Nat}
    {rest : List Nat}
    (hUnits : IsUnits (first :: rest))
    (hLiterals : NoMatch L (first :: rest)) :
    Answers st (st.OneOf L A) (first :: rest)
      (settle st.anyChar
        (st.finish
          (st.handAtStart st.blank (first :: rest)))) := by
  have hSome := List.cons_ne_nil first rest
  unfold finish handAtStart
  by_cases hNfa : st.hasNfa = true
  · rw [if_pos hNfa]
    dsimp only
    rcases scan_spec hA hUnits (Nat.zero_le _)
        (reads_nil st) st.blank with
      ⟨m, k, hLongest, hScan⟩ | ⟨hOthers, hScan⟩
    · rw [List.drop_zero] at hScan
      rw [hScan]
      exact answers_settle hLiterals hLongest
    · rw [List.drop_zero] at hScan
      rw [hScan]
      exact answers_blank hBelow hSome hLiterals hOthers
  · rw [if_neg hNfa]
    refine answers_blank hBelow hSome hLiterals ?_
    intro n hn hLe k
    have hDead : st.reads ((first :: rest).take n) = none := by
      cases n with
      | zero => exact absurd hn (lt_irrefl 0)
      | succ n =>
          exact hA.reads_cons (by simpa using hNfa)
            (hUnits first List.mem_cons_self) _
    exact hA.dead _ (hUnits.take n) hDead k

/-
  An attempt finds the longest match, unless a match of one
  unit is forgotten; then only a wildcard is left.
-/
theorem attempt_spec
    (hExact : st.Exact lits A)
    {first : Nat}
    {rest : List Nat}
    (hUnits : IsUnits (first :: rest))
    (hSkip : st.skipKeys.contains first = false) :
    (Forgotten st lits A (first :: rest) →
        (st.attempt first rest).2.best =
          settle st.anyChar st.blank) ∧
      (¬ Forgotten st lits A (first :: rest) →
        Answers st (st.AnyOf lits A) (first :: rest)
          (st.attempt first rest).2.best) := by
  have hMixed : st.mixed = false ∨ st.literals.maxLen = 0 := by
    by_cases hMixed : st.mixed = true
    · right
      rw [maxLen_table hExact, hExact.mixed hMixed]
      simp [baseTable, LiteralTable.build]
    · exact .inl (by simpa using hMixed)
  rw [best_attempt hMixed hSkip]
  have hA := hExact.recognizes
  rcases handover_spec hExact hUnits with
    hHanded | ⟨hNoLiteral, hStart⟩
  · generalize st.handover first rest = h at hHanded ⊢
    rw [hHanded.forgotten_iff]
    have hPos := hHanded.positive
    constructor
    · intro hForgotten
      rcases finish_after hA hUnits hHanded.inside hHanded.rest
          hHanded.state with
        ⟨m, k, hLongest, -⟩ | ⟨-, hFinish⟩
      · exact absurd hForgotten.2 hLongest.not_none
      · rw [hFinish, hHanded.forgets hForgotten.1]
    · intro hKept
      apply answers_of_handover hA hUnits hHanded.inside
        hHanded.rest hHanded.state hPos
        hHanded.noneAfter_spelled
      intro hOthers
      exact hHanded.answers fun hForgets =>
        hKept ⟨hForgets, hOthers⟩
  · -- No literal begins like the text.
    have hLiterals : ∀ n, 0 < n →
        ∀ l ∈ lits, ¬ (first :: rest).take n <+: l.image := by
      intro n hn l hl hPrefix
      refine hNoLiteral l hl (List.IsPrefix.trans ?_ hPrefix)
      exact List.take_prefix_take_left
        (l := first :: rest) (i := 1) hn
    have hNoMatch : NoMatch (Spelled lits) (first :: rest) := by
      rintro n hn - k ⟨l, hl, -, hImage⟩
      refine hLiterals n hn l hl ?_
      rw [hImage]
    refine ⟨fun hForgotten => ?_, fun _ => ?_⟩
    · rcases hForgotten.followed with ⟨l, hl, hPrefix⟩
      exact absurd hPrefix (hLiterals 2 Nat.two_pos l hl)
    rw [hStart]
    exact answers_of_start hA hExact.anyBelow hUnits hNoMatch

end Attempts

end LexState

end Descent
