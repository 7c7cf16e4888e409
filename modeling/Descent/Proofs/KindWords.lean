import Descent.Proofs.LiteralTable
import Descent.TokenManager.Cascade

/-
  The table of literals in words.

  A set of kinds is kept in words of 64 bits, and an entry of
  the table also keeps the number of its literals.  A literal
  stands in the entries of its characters: where it ends in
  the last one, and where it goes on in those before.  The
  numbers are those of the set bits, though a literal may be
  entered under one key twice.  From the length of the longest
  literal of a word on, no literal of the word goes on, so a
  routine that is not given the word misses none.

  Main declarations:
    * `KindSet.hasBit_words` and `KindSet.length_setBits`
    * `LiteralTable.counted_build`
    * `LiteralTable.le_maxLenForWord`
    * `LiteralTable.Tabulated`
    * `LiteralTable.build_tabulated`
-/

------------------------------------------------------------
-- Words of kinds
------------------------------------------------------------

namespace Descent

namespace KindSet

/- The bit of a kind is set in some words. -/
def hasBit
    (words : List Nat)
    (k : Kind) : Bool :=
  (words.getD (k / wordBits) 0).testBit (k % wordBits)

/- The kinds whose bits are set in some words. -/
def setBits
    (words : List Nat) : List Kind :=
  (List.range (wordBits * words.length)).filter (hasBit words)

theorem testBit_word
    (s : KindSet)
    (j i : Nat) :
    (s.word j).testBit i =
      (decide (i < wordBits) &&
        s.contains (wordBits * j + i)) := by
  unfold word contains
  rw [Nat.one_shiftLeft, Nat.testBit_mod_two_pow,
    Nat.testBit_shiftRight]

/- A kind has its bit in its own word, if there is such a word. -/
theorem hasBit_words
    (s : KindSet)
    (n : Nat)
    (k : Kind) :
    hasBit (s.words n) k = true ↔
      k / wordBits < n ∧ s.contains k = true := by
  have hPlace : wordBits * (k / wordBits) + k % wordBits = k :=
    Nat.div_add_mod k wordBits
  have hSmall : k % wordBits < wordBits :=
    Nat.mod_lt k (by decide)
  unfold hasBit words
  by_cases hWord : k / wordBits < n
  · rw [List.getD_eq_getElem?_getD, List.getElem?_map,
      List.getElem?_range hWord, Option.map_some,
      Option.getD_some, testBit_word, hPlace]
    simp [hWord, hSmall]
  · rw [List.getD_eq_getElem?_getD, List.getElem?_eq_none]
    · simp [hWord]
    · simpa using Nat.le_of_not_lt hWord

theorem mem_setBits
    (s : KindSet)
    (n : Nat)
    (k : Kind) :
    k ∈ setBits (s.words n) ↔
      k / wordBits < n ∧ s.contains k = true := by
  have hLength : (s.words n).length = n := by
    simp [words]
  have hInside : k / wordBits < n ↔ k < wordBits * n :=
    Nat.div_lt_iff_lt_mul (by decide) |>.trans
      (by rw [Nat.mul_comm])
  unfold setBits
  rw [List.mem_filter, List.mem_range, hLength, hasBit_words,
    ← hInside]
  exact ⟨fun h => h.2, fun h => ⟨h.1, h⟩⟩

theorem nodup_kinds
    (s : KindSet) :
    s.kinds.Nodup :=
  (pairwise_kinds s).imp fun h => h.ne

/- Enough words hold all kinds. -/
theorem length_setBits
    {s : KindSet}
    {n : Nat}
    (hWords : ∀ k, s.contains k = true → k / wordBits < n) :
    (setBits (s.words n)).length = s.count := by
  have hNodup : (setBits (s.words n)).Nodup :=
    List.nodup_range.filter _
  refine List.Perm.length_eq ?_
  refine (List.perm_ext_iff_of_nodup hNodup
    (nodup_kinds s)).mpr fun k => ?_
  rw [mem_setBits, mem_kinds]
  exact and_iff_right_of_imp (hWords k)

@[simp] theorem count_empty :
    ({} : KindSet).count = 0 :=
  rfl

/- A kind that is new is one more. -/
theorem count_insert
    {s : KindSet}
    {k : Kind}
    (hNew : ¬ s.contains k = true) :
    (s.insert k).count = s.count + 1 := by
  have hMore : (k :: s.kinds).Nodup := by
    rw [List.nodup_cons, mem_kinds]
    exact ⟨hNew, nodup_kinds s⟩
  have hPerm : (s.insert k).kinds.Perm (k :: s.kinds) := by
    refine (List.perm_ext_iff_of_nodup (nodup_kinds _)
      hMore).mpr fun j => ?_
    rw [List.mem_cons, mem_kinds, mem_kinds, contains_insert]
  exact hPerm.length_eq

theorem word_eq_zero
    {s : KindSet}
    {j : Nat}
    (hNone : ∀ k, s.contains k = true → k / wordBits ≠ j) :
    s.word j = 0 := by
  refine Nat.eq_of_testBit_eq fun i => ?_
  rw [testBit_word, Nat.zero_testBit, Bool.and_eq_false_imp]
  intro hSmall
  rw [decide_eq_true_eq] at hSmall
  by_contra hSet
  rw [Bool.not_eq_false] at hSet
  refine hNone _ hSet ?_
  rw [Nat.mul_add_div (by decide), Nat.div_eq_of_lt hSmall,
    Nat.add_zero]

end KindSet

------------------------------------------------------------
-- Numbers of literals
------------------------------------------------------------

/- An entry knows how many literals go on and end in it. -/
structure KindInfo.Counted
    (i : KindInfo) : Prop where
  alive : i.aliveCount = i.alive.count
  ended : i.endedCount = i.ended.count

theorem KindInfo.counted_empty :
    ({} : KindInfo).Counted :=
  ⟨rfl, rfl⟩

theorem KindInfo.Counted.insertAlive
    {i : KindInfo}
    (hCounted : i.Counted)
    (k : Kind) :
    (i.insertAlive k).Counted := by
  unfold KindInfo.insertAlive
  split
  · exact hCounted
  · next hNew =>
      refine ⟨?_, hCounted.ended⟩
      rw [KindSet.count_insert hNew, hCounted.alive]

theorem KindInfo.Counted.insertEnded
    {i : KindInfo}
    (hCounted : i.Counted)
    (k : Kind) :
    (i.insertEnded k).Counted := by
  unfold KindInfo.insertEnded
  split
  · exact hCounted
  · next hNew =>
      refine ⟨hCounted.alive, ?_⟩
      rw [KindSet.count_insert hNew, hCounted.ended]

namespace LiteralTable

theorem counted_putInto
    (kind : Kind)
    (isLast : Bool)
    {info : Option KindInfo}
    (hInfo : ∀ i, info = some i → i.Counted) :
    (putInto kind isLast info).Counted := by
  have hBefore : (info.getD {}).Counted := by
    cases info with
    | none => exact KindInfo.counted_empty
    | some i => exact hInfo i rfl
  cases isLast with
  | true => exact hBefore.insertEnded kind
  | false => exact hBefore.insertAlive kind

theorem counted_build
    (literals : List Literal)
    (ignoreCase mixed : Bool) :
    Throughout KindInfo.Counted
      (build literals ignoreCase mixed).entries :=
  throughout_build counted_putInto literals ignoreCase mixed

------------------------------------------------------------
-- Lengths by word
------------------------------------------------------------

/- A length is noted for one word, and none gets shorter. -/
theorem getD_noteLength
    (longest : List Nat)
    (l : Literal)
    (w : Nat) :
    longest.getD w 0 ≤ (noteLength longest l).getD w 0 ∧
      (l.kind / KindSet.wordBits = w → w < longest.length →
        l.image.length - 1 ≤
          (noteLength longest l).getD w 0) := by
  unfold noteLength
  rw [List.getD_eq_getElem?_getD, List.getD_eq_getElem?_getD,
    List.getElem?_modify]
  cases hWord : longest[w]? with
  | none =>
      have hOutside := List.getElem?_eq_none_iff.mp hWord
      exact ⟨le_rfl, fun _ hInside => by omega⟩
  | some n =>
      simp only [Option.map_eq_map, Option.map_some,
        Option.getD_some]
      split
      · exact ⟨le_max_left _ _, fun _ _ => le_max_right _ _⟩
      · next hOther =>
          exact ⟨le_rfl, fun hSame => absurd hSame hOther⟩

theorem getD_foldl_noteLength
    (literals : List Literal)
    (longest : List Nat)
    (w : Nat) :
    longest.getD w 0 ≤
        (literals.foldl noteLength longest).getD w 0 ∧
      ∀ l ∈ literals, l.kind / KindSet.wordBits = w →
        w < longest.length →
          l.image.length - 1 ≤
            (literals.foldl noteLength longest).getD w 0 := by
  induction literals generalizing longest with
  | nil => exact ⟨le_rfl, List.forall_mem_nil _⟩
  | cons l literals ih =>
      have hFirst := getD_noteLength longest l w
      have hLength : (noteLength longest l).length =
          longest.length :=
        List.length_modify ..
      rcases ih (noteLength longest l) with ⟨hStays, hRest⟩
      refine ⟨hFirst.1.trans hStays, ?_⟩
      intro l' hl' hWord hInside
      rcases List.mem_cons.mp hl' with rfl | hl'
      · exact (hFirst.2 hWord hInside).trans hStays
      · exact hRest l' hl' hWord (hLength ▸ hInside)

section Built

variable {literals : List Literal} {ignoreCase mixed : Bool}

/- There are words for all kinds. -/
theorem kind_lt_words
    {l : Literal}
    (hMem : l ∈ (build literals ignoreCase mixed).literals) :
    l.kind / KindSet.wordBits <
      (build literals ignoreCase mixed).words := by
  let t := build literals ignoreCase mixed
  have hSorted : t.literals.Pairwise
      fun a b => a.kind ≤ b.kind := by
    have hMerge := @List.pairwise_mergeSort Literal
      (fun a b => decide (a.kind ≤ b.kind))
      (fun a b c hab hbc => by
        simp only [decide_eq_true_eq] at hab hbc ⊢
        exact hab.trans hbc)
      (fun a b => by simpa using Nat.le_total a.kind b.kind)
      (literals.filter fun l => !l.image.isEmpty)
    exact hMerge.imp fun h => of_decide_eq_true h
  -- The last literal has the largest kind.
  rcases List.eq_nil_or_concat' t.literals with hNil |
    ⟨before, last, hLiterals⟩
  · exact absurd (hNil ▸ hMem) List.not_mem_nil
  · have hLe : l.kind ≤ last.kind := by
      change l ∈ t.literals at hMem
      rw [hLiterals] at hMem hSorted
      rcases List.mem_append.mp hMem with hBefore | hHere
      · exact (List.pairwise_append.mp hSorted).2.2 l hBefore
          last List.mem_cons_self
      · rw [List.mem_singleton.mp hHere]
    have hWords : t.words =
        ((t.literals.getLast?.map fun l => l.kind + 1).getD 0) /
          KindSet.wordBits + 1 :=
      rfl
    change l.kind / KindSet.wordBits < t.words
    rw [hWords, hLiterals, List.getLast?_concat, Option.map_some,
      Option.getD_some]
    exact Nat.lt_succ_of_le
      (Nat.div_le_div_right (hLe.trans (Nat.le_succ _)))

/- No literal of a word is longer than what is noted for it. -/
theorem length_le_maxLenForWord
    {l : Literal}
    (hMem : l ∈ (build literals ignoreCase mixed).literals) :
    l.image.length - 1 ≤
      (build literals ignoreCase mixed).maxLenForWord
        (l.kind / KindSet.wordBits) := by
  refine (getD_foldl_noteLength
    (build literals ignoreCase mixed).literals _ _).2 l hMem
    rfl ?_
  rw [List.length_replicate]
  exact kind_lt_words hMem

/- The entry for a character is counted. -/
theorem counted_infoAt
    (pos c : Nat) :
    (infoAt (build literals ignoreCase mixed).entries pos
      c).Counted := by
  unfold infoAt
  cases hTable :
      (build literals ignoreCase mixed).entries[pos]? with
  | none => exact KindInfo.counted_empty
  | some table =>
      rw [Option.bind_some]
      cases hGet : Assoc.get? c table with
      | none => exact KindInfo.counted_empty
      | some info =>
          exact counted_build literals ignoreCase mixed pos
            table hTable (c, info) (Assoc.mem_of_get? hGet)

/- All kinds of an entry have words. -/
theorem word_of_contains
    {pos c k : Nat}
    {b : Bool}
    (hContains : ((infoAt
      (build literals ignoreCase mixed).entries pos c).part
        b).contains k = true) :
    k / KindSet.wordBits <
      (build literals ignoreCase mixed).words := by
  rcases (mem_part_build literals ignoreCase mixed pos c b
    k).mp hContains with ⟨l, hl, rfl, -⟩
  exact kind_lt_words hl

end Built

------------------------------------------------------------
-- Entries
------------------------------------------------------------

/-
  What an entry of the table holds for a position and a
  character, where the entry without literals stands for a
  character that has none.
-/
structure Tabulated
    (t : LiteralTable)
    (literals : List Literal)
    (ignoreCase : Bool)
    (pos c : Nat)
    (info : KindInfo) : Prop where
  /- A literal ends with a character that has this key. -/
  ended : ∀ k,
    KindSet.hasBit (info.ended.words t.words) k = true ↔
      ∃ l ∈ literals, l.kind = k ∧
        l.image.length = pos + 1 ∧ HasKey ignoreCase l pos c
  /- A literal goes on after a character that has this key. -/
  alive : ∀ k,
    KindSet.hasBit (info.alive.words t.words) k = true ↔
      ∃ l ∈ literals, l.kind = k ∧
        pos + 1 < l.image.length ∧ HasKey ignoreCase l pos c
  endedCount : info.endedCount =
    (KindSet.setBits (info.ended.words t.words)).length
  aliveCount : info.aliveCount =
    (KindSet.setBits (info.alive.words t.words)).length
  /- No literal of a word goes on beyond its longest one. -/
  beyond : ∀ w, t.maxLenForWord w ≤ pos →
    info.alive.word w = 0
  /- The routine of the next position is given all that goes on. -/
  carried : ∀ w, info.alive.word w ≠ 0 →
    w ∈ Cascade.wordsWith t (max pos 1 ≤ ·)

/- The kinds that end at a position with a character. -/
theorem contains_ended_infoAt
    (literals : List Literal)
    (ignoreCase mixed : Bool)
    (pos c : Nat)
    (k : Kind) :
    (infoAt (build literals ignoreCase mixed).entries pos
        c).ended.contains k = true ↔
      ∃ l ∈ literals, l.kind = k ∧
        l.image.length = pos + 1 ∧ HasKey ignoreCase l pos c := by
  refine (mem_part_build literals ignoreCase mixed pos c true
    k).trans ?_
  constructor
  · rintro ⟨l, hl, hKind, hKey, hLast⟩
    exact ⟨l, ((mem_literals_build _ _ _ l).mp hl).1, hKind,
      (of_decide_eq_true hLast.symm).symm, hKey⟩
  · rintro ⟨l, hl, hKind, hLast, hKey⟩
    refine ⟨l, (mem_literals_build _ _ _ l).mpr ⟨hl, ?_⟩,
      hKind, hKey, (decide_eq_true hLast.symm).symm⟩
    exact List.length_pos_iff.mp (by omega)

/- The kinds that go on after a character at a position. -/
theorem contains_alive_infoAt
    (literals : List Literal)
    (ignoreCase mixed : Bool)
    (pos c : Nat)
    (k : Kind) :
    (infoAt (build literals ignoreCase mixed).entries pos
        c).alive.contains k = true ↔
      ∃ l ∈ literals, l.kind = k ∧
        pos + 1 < l.image.length ∧ HasKey ignoreCase l pos c := by
  refine (mem_part_build literals ignoreCase mixed pos c false
    k).trans ?_
  constructor
  · rintro ⟨l, hl, hKind, hKey, hNotLast⟩
    have hMore := of_decide_eq_false hNotLast.symm
    have hInside := hKey.lt_length
    exact ⟨l, ((mem_literals_build _ _ _ l).mp hl).1, hKind,
      by omega, hKey⟩
  · rintro ⟨l, hl, hKind, hMore, hKey⟩
    refine ⟨l, (mem_literals_build _ _ _ l).mpr ⟨hl, ?_⟩,
      hKind, hKey, (decide_eq_false (by omega)).symm⟩
    exact List.length_pos_iff.mp (by omega)

/-
  The table of some literals: at every position and character
  stand the literals that end there and those that go on, with
  their numbers, and the words that are not passed on are zero.
-/
theorem build_tabulated
    (literals : List Literal)
    (ignoreCase mixed : Bool)
    (pos c : Nat) :
    let t := build literals ignoreCase mixed
    Tabulated t literals ignoreCase pos c
      (infoAt t.entries pos c) := by
  intro t
  have hInfo := @counted_infoAt literals ignoreCase mixed pos c
  have hWord : ∀ b k, ((infoAt t.entries pos c).part b).contains
      k = true → k / KindSet.wordBits < t.words :=
    fun _ _ => word_of_contains
  have hEnded := contains_ended_infoAt literals ignoreCase mixed
    pos c
  have hAlive := contains_alive_infoAt literals ignoreCase mixed
    pos c
  have hBeyond : ∀ w, t.maxLenForWord w ≤ pos →
      (infoAt t.entries pos c).alive.word w = 0 := by
    intro w hLong
    refine KindSet.word_eq_zero fun k hContains hHere => ?_
    rcases (hAlive k).mp hContains with
      ⟨l, hl, hKind, hMore, -⟩
    have hTable : l ∈ t.literals := by
      refine (mem_literals_build _ _ _ l).mpr ⟨hl, ?_⟩
      exact List.length_pos_iff.mp (by omega)
    have hLength := length_le_maxLenForWord hTable
    rw [hKind, hHere] at hLength
    change l.image.length - 1 ≤ t.maxLenForWord w at hLength
    omega
  exact {
    ended := fun k => by
      rw [KindSet.hasBit_words, ← hEnded]
      exact and_iff_right_of_imp (hWord true k)
    alive := fun k => by
      rw [KindSet.hasBit_words, ← hAlive]
      exact and_iff_right_of_imp (hWord false k)
    endedCount :=
      hInfo.ended.trans (KindSet.length_setBits (hWord true)).symm
    aliveCount :=
      hInfo.alive.trans (KindSet.length_setBits (hWord false)).symm
    beyond := hBeyond
    carried := fun w hNonzero => by
      unfold Cascade.wordsWith
      rw [List.mem_filter, List.mem_range, decide_eq_true_eq]
      have hPassed := mt (hBeyond w) hNonzero
      refine ⟨?_, ?_⟩
      · by_contra hNoWord
        refine hNonzero (KindSet.word_eq_zero ?_)
        rintro k hContains rfl
        exact hNoWord (hWord false k hContains)
      · omega }

end LiteralTable

end Descent
