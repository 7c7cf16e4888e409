import Descent.Proofs.LiteralTable

/-
  Where the automaton takes over from the literals.

  The literals are sorted into buckets for every position, by
  the state of the automaton and the match that it carries.
  A match of the automaton is carried along until it matches
  again or a literal ends.  Both depend on the characters that
  have been read, so literals that begin alike stand in one
  bucket, and any one of them can stand for the others.

  Main declarations:
    * `LiteralTable.state_knownAfter`
    * `LiteralTable.Carries` and
      `LiteralTable.records_knownAfter_iff`
    * `LiteralTable.contains_bucket_iff`
    * `LiteralTable.Bucketed` and
      `LiteralTable.withResume_bucketed`
-/

------------------------------------------------------------
-- Matches that are carried along
------------------------------------------------------------

namespace Descent

/- A match of this kind that ended at a position is recorded. -/
def Resume.Records
    (r : Resume)
    (i : Nat)
    (k : Kind) : Prop :=
  r.kind = k ∧ r.pos = i ∧ k ≠ noKind

theorem Resume.exists_records_iff
    (r : Resume) :
    (∃ i k, r.Records i k) ↔ r.kind ≠ noKind := by
  constructor
  · rintro ⟨i, k, rfl, -, hSome⟩
    exact hSome
  · exact fun hSome => ⟨r.pos, r.kind, rfl, rfl, hSome⟩

namespace LiteralTable

section Carrying

variable (t : LiteralTable) (d : Dfa) (a : Alphabet)
variable (anyChar : Option Kind) (image : List Nat)

/- The state of the automaton after some characters of a text. -/
def stateAfter
    (n : Nat) : Option StateId :=
  d.run a d.start (image.take n)

/- The kind that is accepted with the character at a position. -/
def acceptedAt
    (i : Nat) : Kind :=
  acceptedKind d anyChar i (stateAfter d a image (i + 1))

/-
  The automaton matches with the character at a position, and
  no literal of this text has a smaller kind.
-/
structure MatchesAt
    (i : Nat)
    (k : Kind) : Prop where
  accepted : acceptedAt d a anyChar image i = k
  isSome : k ≠ noKind
  least : ¬ t.kindOf (image.take (i + 1)) < k

/-
  The automaton still reads at a position, and it accepts with
  the character there or a literal ends there.
-/
structure ReplacesAt
    (i : Nat) : Prop where
  reads : stateAfter d a image i ≠ none
  ends :
    acceptedAt d a anyChar image i ≠ noKind ∨
      t.kindOf (image.take (i + 1)) < noKind

/- Of some characters of a text, a match at a position is carried. -/
structure Carries
    (n i : Nat)
    (k : Kind) : Prop where
  past : i < n
  matched : MatchesAt t d a anyChar image i k
  kept :
    ∀ m, i < m → m < n → ¬ ReplacesAt t d a anyChar image m

/- One more character is matched, or keeps what was carried. -/
theorem carries_succ
    (n i : Nat)
    (k : Kind) :
    Carries t d a anyChar image (n + 1) i k ↔
      (i = n ∧ MatchesAt t d a anyChar image n k) ∨
        (Carries t d a anyChar image n i k ∧
          ¬ ReplacesAt t d a anyChar image n) := by
  constructor
  · intro hCarries
    rcases Nat.lt_succ_iff_lt_or_eq.mp hCarries.past with
      hBefore | rfl
    · refine .inr ⟨⟨hBefore, hCarries.matched, ?_⟩,
        hCarries.kept n hBefore (Nat.lt_succ_self n)⟩
      exact fun m hAfter hm =>
        hCarries.kept m hAfter (Nat.lt_succ_of_lt hm)
    · exact .inl ⟨rfl, hCarries.matched⟩
  · rintro (⟨rfl, hMatched⟩ | ⟨hCarries, hNot⟩)
    · exact ⟨Nat.lt_succ_self i, hMatched,
        fun m hAfter hm => absurd hm (by omega)⟩
    · refine ⟨Nat.lt_succ_of_lt hCarries.past,
        hCarries.matched, fun m hAfter hm => ?_⟩
      rcases Nat.lt_succ_iff_lt_or_eq.mp hm with hBefore | rfl
      · exact hCarries.kept m hAfter hBefore
      · exact hNot

theorem knownAfter_succ
    (n : Nat) :
    knownAfter t d a anyChar image (n + 1) =
      resumeNext t d a anyChar image
        (knownAfter t d a anyChar image n) n
        (image.getD n 0) :=
  rfl

/- What is known does not depend on what has been worked out. -/
theorem knownAfter_withResume
    (n : Nat) :
    knownAfter (t.withResume d a anyChar) d a anyChar image n =
      knownAfter t d a anyChar image n := by
  induction n with
  | zero => rfl
  | succ n ih =>
      rw [knownAfter_succ, knownAfter_succ, ih]
      rfl

theorem stateAfter_succ
    {n : Nat}
    (hInside : n < image.length) :
    stateAfter d a image (n + 1) =
      (stateAfter d a image n).bind fun q =>
        d.step? a q (image.getD n 0) := by
  have hTake : image.take (n + 1) =
      image.take n ++ [image.getD n 0] := by
    rw [List.take_add_one, List.getD_eq_getElem?_getD,
      List.getElem?_eq_getElem hInside]
    rfl
  unfold stateAfter Dfa.run
  rw [hTake, List.foldlM_append]
  congr 1
  funext q
  exact bind_pure _

/- The state that is known is the one the automaton reaches. -/
theorem state_knownAfter
    {n : Nat}
    (hInside : n ≤ image.length) :
    (knownAfter t d a anyChar image n).state =
      stateAfter d a image n := by
  induction n with
  | zero => rfl
  | succ n ih =>
      rw [stateAfter_succ d a image hInside,
        ← ih (Nat.le_of_succ_le hInside), knownAfter_succ]
      unfold resumeNext
      cases hState : (knownAfter t d a anyChar image n).state with
      | none => exact hState
      | some q =>
          dsimp only [Option.bind_some]
          split
          · rfl
          · split <;> rfl

/- A literal that ends, or a match, replaces what is recorded. -/
theorem records_knownAfter_succ
    {n : Nat}
    (hInside : n < image.length)
    (i : Nat)
    (k : Kind) :
    (knownAfter t d a anyChar image (n + 1)).Records i k ↔
      (i = n ∧ MatchesAt t d a anyChar image n k) ∨
        ((knownAfter t d a anyChar image n).Records i k ∧
          ¬ ReplacesAt t d a anyChar image n) := by
  have hState := state_knownAfter t d a anyChar image hInside.le
  have hNext := stateAfter_succ d a image hInside
  rw [← hState] at hNext
  have hAccepted : acceptedAt d a anyChar image n =
      acceptedKind d anyChar n (stateAfter d a image (n + 1)) :=
    rfl
  rw [knownAfter_succ]
  unfold resumeNext
  cases hBefore : (knownAfter t d a anyChar image n).state with
  | none =>
      -- A dead automaton neither matches nor replaces anything.
      rw [hBefore, Option.bind_none] at hNext
      have hNone : acceptedAt d a anyChar image n = noKind := by
        rw [hAccepted, hNext]
        unfold acceptedKind
        cases anyChar <;> simp
      have hMatch : ¬ MatchesAt t d a anyChar image n k :=
        fun h => h.isSome (h.accepted.symm.trans hNone)
      have hReplace : ¬ ReplacesAt t d a anyChar image n :=
        fun h => h.reads (hState.symm.trans hBefore)
      dsimp only
      simp only [hMatch, hReplace, and_false, false_or,
        not_false_eq_true, and_true]
  | some q =>
      rw [hBefore, Option.bind_some] at hNext
      rw [hNext] at hAccepted
      have hReads : stateAfter d a image n ≠ none := by
        rw [← hState, hBefore]
        exact Option.some_ne_none q
      dsimp only
      rw [← hAccepted]
      split
      · next hLiteral =>
          have hMatch : ¬ MatchesAt t d a anyChar image n k :=
            fun h => h.least (h.accepted ▸ hLiteral)
          have hReplace : ReplacesAt t d a anyChar image n := by
            refine ⟨hReads, ?_⟩
            by_cases hNone :
                acceptedAt d a anyChar image n = noKind
            · exact .inr (hNone ▸ hLiteral)
            · exact .inl hNone
          simp only [hMatch, hReplace, and_false,
            not_true_eq_false, or_self, iff_false]
          rintro ⟨rfl, -, hSome⟩
          exact hSome rfl
      · next hLiteral =>
          split
          · next hSome =>
              rw [bne_iff_ne] at hSome
              have hReplace : ReplacesAt t d a anyChar image n :=
                ⟨hReads, .inl hSome⟩
              simp only [hReplace, not_true_eq_false, and_false,
                or_false]
              constructor
              · rintro ⟨rfl, rfl, -⟩
                exact ⟨rfl, rfl, hSome, hLiteral⟩
              · rintro ⟨rfl, hMatch⟩
                exact ⟨hMatch.accepted, rfl, hMatch.isSome⟩
          · next hNone =>
              rw [bne_iff_ne, ne_eq, not_not] at hNone
              have hMatch : ¬ MatchesAt t d a anyChar image n k :=
                fun h => h.isSome (h.accepted.symm.trans hNone)
              have hReplace :
                  ¬ ReplacesAt t d a anyChar image n := by
                rintro ⟨-, hAgain | hEnds⟩
                · exact hAgain hNone
                · exact hLiteral (hNone ▸ hEnds)
              simp only [hMatch, hReplace, and_false, false_or,
                not_false_eq_true, and_true]
              exact Iff.rfl

/- What is recorded is the match that is carried. -/
theorem records_knownAfter_iff
    {n : Nat}
    (hInside : n ≤ image.length)
    (i : Nat)
    (k : Kind) :
    (knownAfter t d a anyChar image n).Records i k ↔
      Carries t d a anyChar image n i k := by
  induction n with
  | zero =>
      constructor
      · rintro ⟨rfl, -, hSome⟩
        exact absurd rfl hSome
      · exact fun hCarries => absurd hCarries.past (Nat.not_lt_zero i)
  | succ n ih =>
      rw [records_knownAfter_succ t d a anyChar image hInside,
        carries_succ, ih (Nat.le_of_succ_le hInside)]

end Carrying

------------------------------------------------------------
-- The buckets of a literal
------------------------------------------------------------

/- The buckets of a position that contain a kind. -/
def bucketsOf
    (t : LiteralTable)
    (pos : Nat)
    (k : Kind) : List (Resume × KindSet) :=
  (t.buckets.getD pos []).filter fun e => e.2.contains k

section Buckets

variable {t : LiteralTable} {known : Literal → Nat → Resume}
variable (hFiled : Filed t known)
variable (hKinds : (t.literals.map (·.kind)).Nodup)

include hFiled hKinds in
/- A literal stands in the bucket of what is known of it. -/
theorem contains_bucket_iff
    {l : Literal}
    (hl : l ∈ t.literals)
    {pos : Nat}
    {e : Resume × KindSet}
    (hMem : e ∈ t.buckets.getD pos []) :
    e.2.contains l.kind = true ↔
      Useful e.1 ∧ known l pos = e.1 := by
  have hUnder : e.2.contains l.kind = true ↔
      Under t.buckets pos e.1 l.kind := by
    unfold Under
    rw [Assoc.get?_of_mem (hFiled.distinct pos) hMem,
      Option.getD_some]
  rw [hUnder, hFiled.under]
  constructor
  · rintro ⟨l', hl', hKind, hUseful, hKnown⟩
    rw [List.inj_on_of_nodup_map hKinds hl' hl hKind] at hKnown
    exact ⟨hUseful, hKnown⟩
  · rintro ⟨hUseful, hKnown⟩
    exact ⟨l, hl, rfl, hUseful, hKnown⟩

include hFiled hKinds in
theorem key_of_mem_bucketsOf
    {l : Literal}
    (hl : l ∈ t.literals)
    {pos : Nat}
    {e : Resume × KindSet}
    (he : e ∈ t.bucketsOf pos l.kind) :
    e.1 = known l pos := by
  rcases List.mem_filter.mp he with ⟨hMem, hContains⟩
  exact ((contains_bucket_iff hFiled hKinds hl hMem).mp
    hContains).2.symm

include hFiled hKinds in
/- The keys of the buckets are distinct, so there is one bucket. -/
theorem length_bucketsOf_le
    {l : Literal}
    (hl : l ∈ t.literals)
    (pos : Nat) :
    (t.bucketsOf pos l.kind).length ≤ 1 := by
  have hAlike : (t.bucketsOf pos l.kind).map (·.1) =
      List.replicate (t.bucketsOf pos l.kind).length
        (known l pos) := by
    refine List.eq_replicate_iff.mpr ⟨List.length_map _, ?_⟩
    intro r hr
    rcases List.mem_map.mp hr with ⟨e, he, rfl⟩
    exact key_of_mem_bucketsOf hFiled hKinds hl he
  have hNodup : ((t.bucketsOf pos l.kind).map (·.1)).Nodup :=
    (hFiled.distinct pos).sublist (List.filter_sublist.map _)
  rwa [hAlike, List.nodup_replicate] at hNodup

include hFiled hKinds in
theorem bucketsOf_eq_nil_iff
    {l : Literal}
    (hl : l ∈ t.literals)
    (pos : Nat) :
    t.bucketsOf pos l.kind = [] ↔ ¬ Useful (known l pos) := by
  constructor
  · intro hNone hUseful
    rcases mem_of_under ((hFiled.under pos _ l.kind).mpr
        ⟨l, hl, rfl, hUseful, rfl⟩) with
      ⟨ks, hMem, hContains⟩
    have hHere : (known l pos, ks) ∈ t.bucketsOf pos l.kind :=
      List.mem_filter.mpr ⟨hMem, hContains⟩
    rw [hNone] at hHere
    cases hHere
  · intro hUseless
    refine List.eq_nil_iff_forall_not_mem.mpr fun e he => ?_
    rcases List.mem_filter.mp he with ⟨hMem, hContains⟩
    rcases (contains_bucket_iff hFiled hKinds hl hMem).mp
      hContains with ⟨hUseful, hKnown⟩
    exact hUseless (hKnown ▸ hUseful)

include hFiled hKinds in
/- Literals of which the same is known stand in the same bucket. -/
theorem bucketsOf_congr
    {l l' : Literal}
    (hl : l ∈ t.literals)
    (hl' : l' ∈ t.literals)
    {pos : Nat}
    (hKnown : known l pos = known l' pos) :
    t.bucketsOf pos l.kind = t.bucketsOf pos l'.kind := by
  refine List.filter_congr fun e he => ?_
  rw [Bool.eq_iff_iff,
    contains_bucket_iff hFiled hKinds hl he,
    contains_bucket_iff hFiled hKinds hl' he, hKnown]

end Buckets

/-
  The buckets of a table agree with the automaton.  Each
  literal has one bucket at most, with the state after its
  beginning and the match that is carried there; it has none
  only if there is neither; and the buckets are the same for
  literals with the same beginning.
-/
structure Bucketed
    (t : LiteralTable)
    (d : Dfa)
    (a : Alphabet)
    (anyChar : Option Kind) : Prop where
  once :
    ∀ l ∈ t.literals, ∀ j, (t.bucketsOf j l.kind).length ≤ 1
  state :
    ∀ l ∈ t.literals, ∀ j < l.image.length,
      ∀ e ∈ t.bucketsOf j l.kind,
        e.1.state = d.run a d.start (l.image.take (j + 1))
  carried :
    ∀ l ∈ t.literals, ∀ j < l.image.length,
      ∀ e ∈ t.bucketsOf j l.kind, ∀ i k,
        e.1.Records i k ↔
          Carries t d a anyChar l.image (j + 1) i k
  absent :
    ∀ l ∈ t.literals, ∀ j < l.image.length,
      t.bucketsOf j l.kind = [] ↔
        d.run a d.start (l.image.take (j + 1)) = none ∧
          ∀ i k, ¬ Carries t d a anyChar l.image (j + 1) i k
  resumed :
    ∀ l ∈ t.literals, ∀ j < l.image.length,
      t.stateFor? j l.kind =
        d.run a d.start (l.image.take (j + 1))
  shared :
    ∀ l ∈ t.literals, ∀ l' ∈ t.literals,
      ∀ j < l.image.length, j < l'.image.length →
        l.image.take (j + 1) = l'.image.take (j + 1) →
          t.bucketsOf j l.kind = t.bucketsOf j l'.kind

/-
  The literals of a table that was worked out for an automaton
  are in buckets that agree with it.
-/
theorem withResume_bucketed
    {literals : List Literal}
    (hKinds : (literals.map (·.kind)).Nodup)
    (ignoreCase mixed : Bool)
    (d : Dfa)
    (a : Alphabet)
    (anyChar : Option Kind) :
    Bucketed
      ((build literals ignoreCase mixed).withResume d a anyChar)
      d a anyChar := by
  have hHere := nodup_kinds_build hKinds ignoreCase mixed
  have hFiled := filed_withResume hHere d a anyChar
  have hKnown : ∀ (l : Literal), ∀ j < l.image.length,
      knownAt (build literals ignoreCase mixed) d a anyChar l j =
        knownAfter (build literals ignoreCase mixed) d a anyChar
          l.image (j + 1) :=
    fun l j hj => if_pos hj
  have hState : ∀ (l : Literal), ∀ j < l.image.length,
      (knownAt (build literals ignoreCase mixed) d a anyChar l
        j).state = d.run a d.start (l.image.take (j + 1)) := by
    intro l j hj
    rw [hKnown l j hj]
    exact state_knownAfter _ d a anyChar l.image hj
  have hRecords : ∀ (l : Literal), ∀ j < l.image.length,
      ∀ i k,
        (knownAt (build literals ignoreCase mixed) d a anyChar l
          j).Records i k ↔
          Carries
            ((build literals ignoreCase mixed).withResume d a
              anyChar) d a anyChar l.image (j + 1) i k := by
    intro l j hj i k
    rw [hKnown l j hj, ← knownAfter_withResume]
    exact records_knownAfter_iff _ d a anyChar l.image hj i k
  constructor
  · intro l hl j
    exact length_bucketsOf_le hFiled hHere hl j
  · intro l hl j hj e he
    rw [key_of_mem_bucketsOf hFiled hHere hl he]
    exact hState l j hj
  · intro l hl j hj e he i k
    rw [key_of_mem_bucketsOf hFiled hHere hl he]
    exact hRecords l j hj i k
  · intro l hl j hj
    rw [bucketsOf_eq_nil_iff hFiled hHere hl j]
    unfold Useful
    rw [not_not, hState l j hj, and_comm]
    refine and_congr_right fun _ => ?_
    simp only [← hRecords l j hj, ← not_exists,
      Resume.exists_records_iff, not_not]
  · intro l hl j hj
    rw [stateFor?_eq hFiled hHere hl j]
    exact hState l j hj
  · intro l hl l' hl' j hj hj' hSame
    apply bucketsOf_congr hFiled hHere hl hl'
    rw [hKnown l j hj, hKnown l' j hj']
    exact knownAfter_congr _ d a anyChar hSame

/- Lower case letters are one class, all else is another. -/
def letters : Alphabet :=
  { pieces := [(0, 0), (97, 1), (123, 0)],
    representatives := #[0, 97] }

/- One or more letters, which are of kind 3. -/
def letterRuns : Dfa :=
  { states :=
      #[{ targets := [none, some 1] },
        { targets := [none, some 1], accept := some 3 }],
    numClasses := 2 }

/- The texts `end.` and `end!`. -/
def endings : List Literal :=
  [⟨1, [101, 110, 100, 46], false⟩,
    ⟨2, [101, 110, 100, 33], false⟩]

/-
  The two literals share a bucket while they agree, and the
  automaton can go on from there; it cannot do so after them.
-/
theorem withResume_bucketed_endings :
    let t := (build endings false false).withResume letterRuns
      letters none
    t.bucketsOf 2 1 = t.bucketsOf 2 2 ∧
      t.stateFor? 2 1 = some 1 ∧ t.stateFor? 3 1 = none := by
  have hKinds : (endings.map (·.kind)).Nodup := by
    decide
  have hBucketed := withResume_bucketed hKinds false false
    letterRuns letters none
  have hFirst := (mem_literals_build endings false false
    ⟨1, [101, 110, 100, 46], false⟩).mpr (by decide)
  have hSecond := (mem_literals_build endings false false
    ⟨2, [101, 110, 100, 33], false⟩).mpr (by decide)
  refine ⟨?_, ?_, ?_⟩
  · exact hBucketed.shared _ hFirst _ hSecond 2 (by decide)
      (by decide) rfl
  · exact hBucketed.resumed _ hFirst 2 (by decide)
  · exact hBucketed.resumed _ hFirst 3 (by decide)

end LiteralTable

end Descent
