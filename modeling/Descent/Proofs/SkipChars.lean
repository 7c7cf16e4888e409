import Descent.Proofs.LexicalStates

/-
  Characters that are passed over.

  A character is passed over when it is a literal of its own
  that nothing extends, when the automaton cannot read it
  first, and when its kind is skipped without more ado.  So
  the longest match of a text that begins with it is the
  character alone.

  Main declarations:
    * `Lexer.PlainSkip` and `Lexer.PassedFor`
    * `Lexer.longest_of_sole` and `Lexer.longest_of_skip`
    * `Lexer.exists_of_contains_skipChars`
-/

------------------------------------------------------------
-- Kinds that are skipped
------------------------------------------------------------

namespace Descent

namespace Lexer

/- A kind is skipped without a change of state. -/
def PlainSkip
    (kinds : Array (Option KindAttrs))
    (k : Kind) : Prop :=
  ∃ a, kinds.getD k none = some a ∧ a.cls = .skip ∧
    a.nextState = none

theorem plainSkip_of_isPlainSkip
    {kinds : Array (Option KindAttrs)}
    {k : Kind}
    (hSkip : isPlainSkip kinds k = true) :
    PlainSkip kinds k := by
  unfold isPlainSkip at hSkip
  split at hSkip
  · next a hAttrs =>
      rw [Bool.and_eq_true, Bool.and_eq_true, beq_iff_eq,
        Option.isNone_iff_eq_none, Option.isNone_iff_eq_none]
        at hSkip
      exact ⟨a, hAttrs, hSkip.1.1, hSkip.2⟩
  · cases hSkip

theorem skipKind?_eq_some
    {st : LexState}
    {kinds : Array (Option KindAttrs)}
    {ks : List Kind}
    {k : Kind}
    (hSkip : skipKind? st kinds ks = some k) :
    k ∈ ks ∧ st.literals.isSubString k = false ∧
      st.literals.reportedKind 0 k st.anyChar = k ∧
      PlainSkip kinds k := by
  induction ks with
  | nil => cases hSkip
  | cons j ks ih =>
      unfold skipKind? at hSkip
      have hLater : skipKind? st kinds ks = some k →
          k ∈ j :: ks ∧ st.literals.isSubString k = false ∧
            st.literals.reportedKind 0 k st.anyChar = k ∧
            PlainSkip kinds k := by
        intro hRest
        exact ⟨List.mem_cons_of_mem _ (ih hRest).1,
          (ih hRest).2⟩
      split at hSkip
      · exact hLater hSkip
      · next hFlag =>
          split at hSkip
          · cases hSkip
          · next hReported =>
              split at hSkip
              · next hPlain =>
                  have hSame : j = k :=
                    Option.some_inj.mp hSkip
                  subst hSame
                  exact ⟨List.mem_cons_self,
                    by simpa using hFlag,
                    by simpa using hReported,
                    plainSkip_of_isPlainSkip hPlain⟩
              · exact hLater hSkip

theorem contains_of_firstWordKinds
    {s : KindSet}
    {k : Kind}
    (hk : k ∈ firstWordKinds s) :
    s.contains k = true := by
  rw [← KindSet.mem_kinds]
  unfold firstWordKinds at hk
  split at hk
  · cases hk
  · next j js hKinds =>
      rw [hKinds]
      exact (List.takeWhile_sublist _).mem hk

/-
  A character is passed over as a kind that is skipped: it is
  a literal that nothing extends, and the automaton cannot
  read it first.
-/
structure PassedFor
    (st : LexState)
    (kinds : Array (Option KindAttrs))
    (c : Nat)
    (k : Kind) : Prop where
  entry :
    ∃ info, (c, info) ∈ st.literals.entries.getD 0 [] ∧
      info.ended.contains k = true
  start : st.canStart c = false
  flag : st.literals.isSubString k = false
  reported : st.literals.reportedKind 0 k st.anyChar = k
  plain : PlainSkip kinds k

theorem passedFor_of_mem
    {st : LexState}
    {kinds : Array (Option KindAttrs)}
    {c : Nat}
    {k : Kind}
    (hSkip : (c, k) ∈ findSkips st kinds) :
    PassedFor st kinds c k := by
  unfold findSkips at hSkip
  rcases List.mem_filterMap.mp hSkip with
    ⟨⟨d, info⟩, hMem, hEntry⟩
  rw [Option.ite_none_left_eq_some] at hEntry
  rcases hEntry with ⟨hStart, hKind⟩
  rcases Option.map_eq_some_iff.mp hKind with
    ⟨k', hFound, hPair⟩
  cases hPair
  rw [Bool.or_eq_true, not_or, Bool.not_eq_true] at hStart
  rcases skipKind?_eq_some hFound with
    ⟨hFirst, hFlag, hReported, hPlain⟩
  exact ⟨⟨info, hMem, contains_of_firstWordKinds hFirst⟩,
    by simpa using hStart.2, hFlag, hReported, hPlain⟩

------------------------------------------------------------
-- Characters
------------------------------------------------------------

section Characters

variable {st : LexState} {lits : List Literal} {A : Matching}

theorem sorted_entries
    (hExact : st.Exact lits A) :
    LiteralTable.Sorted st.literals.entries := by
  rw [LexState.entries_table hExact]
  have hEmpty : LiteralTable.Sorted #[] := by
    intro pos table hTable
    cases hTable
  exact (LiteralTable.foldl_enterChars false
    (st.baseTable lits).literals hEmpty).1

/- What stands in the list for the first position is found. -/
theorem infoFor_of_mem
    (hExact : st.Exact lits A)
    {c : Nat}
    {info : KindInfo}
    (hMem : (c, info) ∈ st.literals.entries.getD 0 []) :
    st.infoFor 0 c = info := by
  have hSorted := sorted_entries hExact
  rw [Array.getD_eq_getD_getElem?] at hMem
  cases hTable : st.literals.entries[0]? with
  | none =>
      rw [hTable] at hMem
      cases hMem
  | some table =>
      rw [hTable, Option.getD_some] at hMem
      have hKeys : (table.map (·.1)).Nodup :=
        (hSorted 0 table hTable).imp fun h => Nat.ne_of_lt h
      have hGet := Assoc.get?_of_mem hKeys hMem
      unfold LexState.infoFor LiteralTable.kindInfo?
      rw [LexState.ignoreCase_table hExact, hTable]
      simp only [Option.bind_eq_bind, Option.bind_some, hGet]
      rfl

/- The automaton reads no text with a first unit it cannot read. -/
theorem reads_cons_of_canStart
    (hA : st.Recognizes A)
    {c : Nat}
    (hUnit : c ≤ Text.maxUnit)
    (hStart : st.canStart c = false)
    (w : List Nat) :
    st.reads (c :: w) = none := by
  by_cases hNfa : st.hasNfa = true
  · have hStep : st.dfa.step? st.alphabet st.dfa.start c =
        none := by
      unfold LexState.canStart at hStart
      rwa [hNfa, Bool.true_and, Option.isSome_eq_false_iff,
        Option.isNone_iff_eq_none] at hStart
    change (st.dfa.step? st.alphabet st.dfa.start c).bind
      _ = none
    rw [hStep]
    rfl
  · exact hA.reads_cons (by simpa using hNfa) hUnit w

/-
  A literal of one unit that nothing extends is the longest
  match of every text that begins with it.
-/
theorem longest_of_sole
    (hExact : st.Exact lits A)
    {c k : Nat}
    (hSole : LexState.Spelled lits k [c])
    (hStart : st.canStart c = false)
    (hFlag : st.literals.isSubString k = false)
    (hReported :
      st.literals.reportedKind 0 k st.anyChar = k)
    {rest : List Nat}
    (hUnits : IsUnits (c :: rest)) :
    Longest (st.AnyOf lits A) (c :: rest) 1 k := by
  rcases hSole with ⟨l, hl, rfl, hImage⟩
  have hUnit := hUnits c List.mem_cons_self
  have hA := hExact.recognizes
  refine ⟨Nat.one_pos, by simp, ?_, ?_⟩
  · have hLeast := LexState.reportedKind_spec hExact hl
    rw [hImage] at hLeast
    change IsLeast _ (st.literals.reportedKind 0 l.kind
      st.anyChar) at hLeast
    rwa [hReported] at hLeast
  · intro m hAfter hLe j hj
    have hTake : (c :: rest).take m = c :: rest.take (m - 1) := by
      cases m with
      | zero => omega
      | succ m => rfl
    rcases hj with ⟨l', hl', -, hImage'⟩ | hj | ⟨-, hLength⟩
    · -- A longer literal would flag this one.
      have hSub : st.literals.isSubString l.kind = true := by
        apply (LexState.isSubString_iff hExact hl).mpr
        refine ⟨l', hl', ?_, ?_⟩
        · rw [hImage, hImage', hTake]
          simp
        · rw [hImage, hImage', List.length_take,
            min_eq_left hLe]
          exact hAfter
      rw [hFlag] at hSub
      cases hSub
    · apply hA.dead _ (hUnits.take m) _ j hj
      rw [hTake]
      exact reads_cons_of_canStart hA hUnit hStart _
    · rw [List.length_take, min_eq_left hLe] at hLength
      omega

/-
  A character that is passed over is the longest match of
  every text that begins with it.
-/
theorem longest_of_skip
    (hExact : st.Exact lits A)
    {kinds : Array (Option KindAttrs)}
    {c k : Nat}
    (hSkip : (c, k) ∈ findSkips st kinds) :
    PlainSkip kinds k ∧
      ∀ rest, IsUnits (c :: rest) →
        Longest (st.AnyOf lits A) (c :: rest) 1 k := by
  rcases passedFor_of_mem hSkip with
    ⟨⟨info, hMem, hEnded⟩, hStart, hFlag, hReported, hPlain⟩
  rw [← infoFor_of_mem hExact hMem,
    LexState.ended_first hExact] at hEnded
  refine ⟨hPlain, ?_⟩
  intro rest hUnits
  exact longest_of_sole hExact hEnded hStart hFlag hReported
    hUnits

end Characters

------------------------------------------------------------
-- States with characters to pass over
------------------------------------------------------------

/- A character is passed over like another one. -/
def PassedLike
    (ignoreCase : Bool)
    (c d : Nat) : Prop :=
  d = c ∨ (ignoreCase = true ∧
    (d = Text.upperUnit c ∨ d = Text.lowerUnit c))

theorem mem_keys_foldl_enterSkip
    (ignoreCase : Bool)
    (skips : List (Nat × Kind))
    (t : Assoc Nat Kind)
    (d : Nat) :
    d ∈ (skips.foldl (enterSkip ignoreCase) t).map (·.1) ↔
      (∃ e ∈ skips, PassedLike ignoreCase e.1 d) ∨
        d ∈ t.map (·.1) := by
  induction skips generalizing t with
  | nil => simp
  | cons e skips ih =>
      have hEnter : d ∈ (enterSkip ignoreCase t e).map (·.1) ↔
          PassedLike ignoreCase e.1 d ∨ d ∈ t.map (·.1) := by
        unfold enterSkip PassedLike
        cases ignoreCase with
        | false =>
            simp [Assoc.insertSorted,
              Assoc.mem_keys_alterSorted]
        | true =>
            simp only [Assoc.insertSorted, List.foldl_cons,
              List.foldl_nil, if_true, true_and,
              Assoc.mem_keys_alterSorted]
            tauto
      rw [List.foldl_cons, ih, hEnter,
        List.exists_mem_cons_iff, or_left_comm, or_assoc]

theorem contains_iff_mem_keys
    {α : Type}
    (c : Nat)
    (t : Assoc Nat α) :
    Assoc.contains c t = true ↔ c ∈ t.map (·.1) := by
  unfold Assoc.contains
  induction t with
  | nil => simp [Assoc.get?]
  | cons e t ih =>
      rcases e with ⟨d, v⟩
      unfold Assoc.get?
      by_cases hSame : d = c
      · simp [hSame]
      · rw [if_neg hSame, ih, List.map_cons, List.mem_cons]
        exact (or_iff_right (Ne.symm hSame)).symm

/- A character that is passed over is one that was found. -/
theorem exists_of_contains_skipChars
    {st : LexState}
    {kinds : Array (Option KindAttrs)}
    {ignoreCase : Bool}
    {d : Nat}
    (hContains : Assoc.contains d
      (withSkips st kinds ignoreCase).skipChars = true) :
    ∃ c k, (c, k) ∈ findSkips st kinds ∧
      PassedLike ignoreCase c d := by
  rw [contains_iff_mem_keys] at hContains
  rcases (mem_keys_foldl_enterSkip _ _ _ _).mp hContains with
    ⟨e, he, hLike⟩ | hNone
  · exact ⟨e.1, e.2, he, hLike⟩
  · cases hNone

/- A character that is not passed over is no key of these. -/
theorem not_mem_skipKeys
    {st : LexState}
    {kinds : Array (Option KindAttrs)}
    {ignoreCase : Bool}
    {c : Nat}
    (hPass : Assoc.contains c
      (withSkips st kinds ignoreCase).skipChars = false) :
    (withSkips st kinds ignoreCase).skipKeys.contains c =
      false := by
  rw [Bool.eq_false_iff] at hPass ⊢
  intro hKey
  apply hPass
  rw [contains_iff_mem_keys]
  apply (mem_keys_foldl_enterSkip _ _ _ _).mpr
  rcases List.mem_map.mp (List.contains_iff_mem.mp hKey) with
    ⟨e, he, hSame⟩
  exact .inl ⟨e, he, .inl hSame.symm⟩

theorem mem_skipChars
    {st : LexState}
    {kinds : Array (Option KindAttrs)}
    {c : Nat}
    (hContains : Assoc.contains c
      (withSkips st kinds false).skipChars = true) :
    ∃ k, (c, k) ∈ findSkips st kinds := by
  rcases exists_of_contains_skipChars hContains with
    ⟨d, k, hSkip, rfl | ⟨hFalse, -⟩⟩
  · exact ⟨k, hSkip⟩
  · cases hFalse

end Lexer

end Descent
