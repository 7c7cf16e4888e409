import Descent.Automaton.LiteralTable
import Descent.Proofs.Collections
import Mathlib.Data.List.Nodup

/-
  What stands in a table of literals.

  For every position and character the table holds the
  literals that go on and those that end there; for every
  beginning of a literal it holds what the automaton knows,
  and the literals are found again by that.

  Main declarations:
    * `LiteralTable.infoAt` and `LiteralTable.mem_part_build`
    * `LiteralTable.knownAfter` and
      `LiteralTable.getElem?_resumesOf`
    * `LiteralTable.Filed` and `LiteralTable.filed_withResume`
-/

------------------------------------------------------------
-- Entries
------------------------------------------------------------

namespace Descent

/- The literals of an entry that end, or those that go on. -/
def KindInfo.part
    (i : KindInfo)
    (isLast : Bool) : KindSet :=
  if isLast then i.ended else i.alive

namespace KindInfo

/- A literal that goes on is in one part, entered before or not. -/
theorem contains_insertAlive
    (i : KindInfo)
    (kind : Kind)
    (b : Bool)
    (k : Nat) :
    ((i.insertAlive kind).part b).contains k = true ↔
      (b = false ∧ k = kind) ∨
        (i.part b).contains k = true := by
  unfold insertAlive
  split
  · next hBefore =>
      refine (or_iff_right_of_imp ?_).symm
      rintro ⟨rfl, rfl⟩
      exact hBefore
  · cases b <;> simp [part]

/- A literal that ends is in the other one. -/
theorem contains_insertEnded
    (i : KindInfo)
    (kind : Kind)
    (b : Bool)
    (k : Nat) :
    ((i.insertEnded kind).part b).contains k = true ↔
      (b = true ∧ k = kind) ∨
        (i.part b).contains k = true := by
  unfold insertEnded
  split
  · next hBefore =>
      refine (or_iff_right_of_imp ?_).symm
      rintro ⟨rfl, rfl⟩
      exact hBefore
  · cases b <;> simp [part]

end KindInfo

namespace LiteralTable

/- What stands for a position and a character. -/
def infoAt
    (entries : Array (Assoc Nat KindInfo))
    (pos c : Nat) : KindInfo :=
  ((entries[pos]?).bind (Assoc.get? c)).getD {}

/- Enter a literal into an entry. -/
def putInto
    (kind : Kind)
    (isLast : Bool)
    (info : Option KindInfo) : KindInfo :=
  if isLast then (info.getD {}).insertEnded kind
  else (info.getD {}).insertAlive kind

theorem contains_putInto
    (kind : Kind)
    (isLast : Bool)
    (info : Option KindInfo)
    (b : Bool)
    (k : Nat) :
    ((putInto kind isLast info).part b).contains k = true ↔
      (b = isLast ∧ k = kind) ∨
        ((info.getD {}).part b).contains k = true := by
  cases isLast with
  | true => exact KindInfo.contains_insertEnded _ kind b k
  | false => exact KindInfo.contains_insertAlive _ kind b k

theorem foldl_putInto
    (kind : Kind)
    (isLast : Bool)
    (keys : List Nat)
    {table : Assoc Nat KindInfo}
    (hAscending : Assoc.Ascending table) :
    Assoc.Ascending
        (keys.foldl
          (fun t key =>
            Assoc.alterSorted key (putInto kind isLast) t)
          table) ∧
      ∀ c b k,
        ((((Assoc.get? c
          (keys.foldl
            (fun t key =>
              Assoc.alterSorted key (putInto kind isLast) t)
            table)).getD {}).part b).contains k = true ↔
          (c ∈ keys ∧ b = isLast ∧ k = kind) ∨
            (((Assoc.get? c table).getD {}).part b).contains k
              = true) := by
  induction keys generalizing table with
  | nil =>
      refine ⟨hAscending, fun c b k => ?_⟩
      simp
  | cons key keys ih =>
      rcases ih (hAscending.alterSorted key
          (putInto kind isLast)) with
        ⟨hNext, hMem⟩
      refine ⟨hNext, fun c b k => ?_⟩
      rw [List.foldl_cons, hMem,
        Assoc.get?_alterSorted hAscending, List.mem_cons]
      by_cases hc : c = key
      · rw [if_pos hc, Option.getD_some, contains_putInto, hc]
        tauto
      · rw [if_neg hc]
        tauto

/- All positions of a table have ascending characters. -/
def Sorted
    (entries : Array (Assoc Nat KindInfo)) : Prop :=
  ∀ (pos : Nat) table, entries[pos]? = some table →
    Assoc.Ascending table

theorem infoAt_push
    (entries : Array (Assoc Nat KindInfo))
    (pos c : Nat) :
    infoAt (entries.push []) pos c = infoAt entries pos c := by
  unfold infoAt
  rw [Array.getElem?_push]
  split
  · next hPos =>
      rw [hPos, Array.getElem?_eq_none le_rfl]
      rfl
  · rfl

theorem sorted_push
    {entries : Array (Assoc Nat KindInfo)}
    (hSorted : Sorted entries) :
    Sorted (entries.push []) := by
  intro pos table hTable
  rw [Array.getElem?_push] at hTable
  split at hTable
  · cases hTable
    exact Assoc.ascending_nil
  · exact hSorted pos table hTable

/- Entering one character changes one position. -/
theorem modify_enterChar
    {entries : Array (Assoc Nat KindInfo)}
    (hSorted : Sorted entries)
    (allIgnoreCase : Bool)
    (lit : Literal)
    (d : Nat)
    (isLast : Bool)
    {i : Nat}
    (hInside : i < entries.size) :
    Sorted
        (entries.modify i
          (enterChar allIgnoreCase lit d isLast)) ∧
      ∀ pos c b k,
        ((infoAt
          (entries.modify i
            (enterChar allIgnoreCase lit d isLast))
          pos c).part b).contains k = true ↔
          (pos = i ∧
              c ∈ keysOf allIgnoreCase lit.ignoreCase d ∧
              b = isLast ∧ k = lit.kind) ∨
            ((infoAt entries pos c).part b).contains k
              = true := by
  have hHere := Array.getElem?_eq_getElem hInside
  have hFold := foldl_putInto lit.kind isLast
    (keysOf allIgnoreCase lit.ignoreCase d)
    (hSorted i _ hHere)
  constructor
  · intro pos table hTable
    rw [Array.getElem?_modify] at hTable
    split at hTable
    · next hPos =>
        subst hPos
        rw [hHere] at hTable
        cases hTable
        exact hFold.1
    · exact hSorted pos table hTable
  · intro pos c b k
    unfold infoAt
    rw [Array.getElem?_modify]
    by_cases hPos : i = pos
    · subst hPos
      rw [if_pos rfl, hHere]
      have hMem := hFold.2 c b k
      simp only [Option.map_some, Option.bind_some, true_and]
      exact hMem
    · have hNe : ¬ pos = i := fun h => hPos h.symm
      rw [if_neg hPos]
      simp only [hNe, false_and, false_or]

/- Entering the characters of a literal from a position on. -/
theorem enterChars_spec
    (allIgnoreCase : Bool)
    (lit : Literal)
    (i : Nat)
    (cs : List Nat)
    {entries : Array (Assoc Nat KindInfo)}
    (hSorted : Sorted entries)
    (hSize : i ≤ entries.size) :
    Sorted (enterChars allIgnoreCase lit i cs entries) ∧
      ∀ pos c b k,
        ((infoAt (enterChars allIgnoreCase lit i cs entries)
          pos c).part b).contains k = true ↔
          (k = lit.kind ∧ ∃ j d, pos = i + j ∧
              cs[j]? = some d ∧
              c ∈ keysOf allIgnoreCase lit.ignoreCase d ∧
              b = decide (j + 1 = cs.length)) ∨
            ((infoAt entries pos c).part b).contains k
              = true := by
  induction cs generalizing i entries with
  | nil =>
      refine ⟨hSorted, fun pos c b k => ?_⟩
      simp [enterChars]
  | cons d cs ih =>
      let entries₁ :=
        if i < entries.size then entries else entries.push []
      have hSame : ∀ pos c,
          infoAt entries₁ pos c = infoAt entries pos c := by
        intro pos c
        dsimp only [entries₁]
        split
        · rfl
        · exact infoAt_push entries pos c
      have hSorted₁ : Sorted entries₁ := by
        dsimp only [entries₁]
        split
        · exact hSorted
        · exact sorted_push hSorted
      have hInside : i < entries₁.size := by
        dsimp only [entries₁]
        split
        · assumption
        · rw [Array.size_push]
          omega
      rcases modify_enterChar hSorted₁ allIgnoreCase lit d
          cs.isEmpty hInside with
        ⟨hSorted₂, hMem₂⟩
      have hSize₂ : i + 1 ≤ (entries₁.modify i
          (enterChar allIgnoreCase lit d cs.isEmpty)).size := by
        rw [Array.size_modify]
        exact hInside
      rcases ih (i + 1) hSorted₂ hSize₂ with
        ⟨hSorted₃, hMem₃⟩
      refine ⟨hSorted₃, fun pos c b k => ?_⟩
      refine (hMem₃ pos c b k).trans ?_
      rw [hMem₂, hSame]
      have hEmpty : cs.isEmpty = decide (0 + 1 = (d :: cs).length) := by
        cases cs <;> simp
      constructor
      · rintro (⟨hk, j, e, rfl, he, hc, hb⟩ |
          ⟨rfl, hc, hb, hk⟩ | hOld)
        · refine .inl ⟨hk, j + 1, e, by omega, he, hc, ?_⟩
          rw [hb, List.length_cons]
          exact decide_eq_decide.mpr (by omega)
        · exact .inl ⟨hk, 0, d, rfl, rfl, hc, hb.trans hEmpty⟩
        · exact .inr hOld
      · rintro (⟨hk, j, e, rfl, he, hc, hb⟩ | hOld)
        · cases j with
          | zero =>
              cases he
              exact .inr (.inl ⟨rfl, hc,
                hb.trans hEmpty.symm, hk⟩)
          | succ j =>
              refine .inl ⟨hk, j, e, by omega, he, hc, ?_⟩
              rw [hb, List.length_cons]
              exact decide_eq_decide.mpr (by omega)
        · exact .inr (.inr hOld)

/- A literal has a character at a position under a key. -/
def HasKey
    (allIgnoreCase : Bool)
    (lit : Literal)
    (pos c : Nat) : Prop :=
  ∃ d, lit.image[pos]? = some d ∧
    c ∈ keysOf allIgnoreCase lit.ignoreCase d

theorem HasKey.lt_length
    {ignoreCase : Bool}
    {l : Literal}
    {pos c : Nat}
    (hKey : HasKey ignoreCase l pos c) :
    pos < l.image.length := by
  rcases hKey with ⟨d, hGet, -⟩
  exact (List.getElem?_eq_some_iff.mp hGet).1

theorem foldl_enterChars
    (allIgnoreCase : Bool)
    (literals : List Literal)
    {entries : Array (Assoc Nat KindInfo)}
    (hSorted : Sorted entries) :
    Sorted
        (literals.foldl
          (fun es l => enterChars allIgnoreCase l 0 l.image es)
          entries) ∧
      ∀ pos c b k,
        ((infoAt
          (literals.foldl
            (fun es l =>
              enterChars allIgnoreCase l 0 l.image es)
            entries) pos c).part b).contains k = true ↔
          (∃ l ∈ literals, l.kind = k ∧
              HasKey allIgnoreCase l pos c ∧
              b = decide (pos + 1 = l.image.length)) ∨
            ((infoAt entries pos c).part b).contains k
              = true := by
  induction literals generalizing entries with
  | nil =>
      refine ⟨hSorted, fun pos c b k => ?_⟩
      simp
  | cons l literals ih =>
      rcases enterChars_spec allIgnoreCase l 0 l.image hSorted
          (Nat.zero_le _) with
        ⟨hSorted₁, hMem₁⟩
      rcases ih hSorted₁ with ⟨hSorted₂, hMem₂⟩
      refine ⟨hSorted₂, fun pos c b k => ?_⟩
      rw [List.foldl_cons, hMem₂, hMem₁]
      constructor
      · rintro (⟨l', hl', hRest⟩ |
          ⟨hk, j, d, hj, hd, hc, hb⟩ | hOld)
        · exact .inl ⟨l', List.mem_cons_of_mem _ hl', hRest⟩
        · have hPos : pos = j := by omega
          subst hPos
          exact .inl ⟨l, List.mem_cons_self, hk.symm,
            ⟨d, hd, hc⟩, hb⟩
        · exact .inr hOld
      · rintro (⟨l', hl', hk, ⟨d, hd, hc⟩, hb⟩ | hOld)
        · rcases List.mem_cons.mp hl' with rfl | hl'
          · exact .inr (.inl ⟨hk.symm, pos, d, by omega, hd,
              hc, hb⟩)
          · exact .inl ⟨l', hl', hk, ⟨d, hd, hc⟩, hb⟩
        · exact .inr (.inr hOld)

/- All entries have a property. -/
def Throughout
    (P : KindInfo → Prop)
    (entries : Array (Assoc Nat KindInfo)) : Prop :=
  ∀ (pos : Nat) table, entries[pos]? = some table →
    ∀ e ∈ table, P e.2

section Throughout

variable {P : KindInfo → Prop}
variable (hPut : ∀ kind isLast info,
  (∀ i, info = some i → P i) → P (putInto kind isLast info))

theorem throughout_push
    {entries : Array (Assoc Nat KindInfo)}
    (hAll : Throughout P entries) :
    Throughout P (entries.push []) := by
  intro pos table hTable
  rw [Array.getElem?_push] at hTable
  split at hTable
  · cases hTable
    exact List.forall_mem_nil _
  · exact hAll pos table hTable

include hPut in
theorem throughout_modify_enterChar
    {entries : Array (Assoc Nat KindInfo)}
    (hAll : Throughout P entries)
    (allIgnoreCase : Bool)
    (lit : Literal)
    (d : Nat)
    (isLast : Bool)
    (i : Nat) :
    Throughout P
      (entries.modify i
        (enterChar allIgnoreCase lit d isLast)) := by
  -- The literal is put into the entry of each of its keys.
  have hKeys : ∀ (keys : List Nat) (t : Assoc Nat KindInfo),
      (∀ e ∈ t, P e.2) →
      ∀ e ∈ keys.foldl
        (fun t key =>
          Assoc.alterSorted key (putInto lit.kind isLast) t) t,
        P e.2 := by
    intro keys
    induction keys with
    | nil => exact fun t hTable => hTable
    | cons key keys ih =>
        intro t hTable
        apply ih
        intro e he
        rcases Assoc.mem_alterSorted he with
          ⟨old, rfl, hOld⟩ | hBefore
        · exact hPut _ _ old fun info hInfo =>
            hTable _ (hOld info hInfo)
        · exact hTable e hBefore
  intro pos table hTable
  rw [Array.getElem?_modify] at hTable
  split at hTable
  · rcases Option.map_eq_some_iff.mp hTable with
      ⟨old, hOld, rfl⟩
    exact hKeys _ old (hAll _ old hOld)
  · exact hAll pos table hTable

include hPut in
theorem throughout_enterChars
    (allIgnoreCase : Bool)
    (lit : Literal)
    (i : Nat)
    (cs : List Nat)
    {entries : Array (Assoc Nat KindInfo)}
    (hAll : Throughout P entries) :
    Throughout P (enterChars allIgnoreCase lit i cs entries) := by
  induction cs generalizing i entries with
  | nil => exact hAll
  | cons d cs ih =>
      unfold enterChars
      apply ih
      apply throughout_modify_enterChar hPut
      split
      · exact hAll
      · exact throughout_push hAll

include hPut in
/- What putting in a literal keeps holds of all entries. -/
theorem throughout_build
    (literals : List Literal)
    (ignoreCase mixed : Bool) :
    Throughout P (build literals ignoreCase mixed).entries := by
  have hFold : ∀ (lits : List Literal)
      (entries : Array (Assoc Nat KindInfo)),
      Throughout P entries →
      Throughout P (lits.foldl
        (fun es l => enterChars ignoreCase l 0 l.image es)
        entries) := by
    intro lits
    induction lits with
    | nil => exact fun entries h => h
    | cons l lits ih =>
        exact fun entries h =>
          ih _ (throughout_enterChars hPut ignoreCase l 0
            l.image h)
  apply hFold
  intro pos table hTable
  cases hTable

end Throughout

/- An entry is what stands for its character. -/
theorem infoAt_of_mem
    {entries : Array (Assoc Nat KindInfo)}
    (hSorted : Sorted entries)
    {pos c : Nat}
    {info : KindInfo}
    (hMem : (c, info) ∈ entries.getD pos []) :
    infoAt entries pos c = info := by
  rw [Array.getD_eq_getD_getElem?] at hMem
  unfold infoAt
  cases hTable : entries[pos]? with
  | none => simp [hTable] at hMem
  | some table =>
      rw [hTable] at hMem
      have hKeys : (table.map (·.1)).Nodup :=
        (hSorted pos table hTable).imp fun h => h.ne
      simp [Assoc.get?_of_mem hKeys hMem]

/- A character stands for some kind only in an entry. -/
theorem exists_get?_of_contains
    {entries : Array (Assoc Nat KindInfo)}
    {pos c k : Nat}
    {b : Bool}
    (hContains : ((infoAt entries pos c).part b).contains k =
      true) :
    ∃ table, entries[pos]? = some table ∧
      Assoc.get? c table = some (infoAt entries pos c) := by
  unfold infoAt at hContains ⊢
  cases hTable : entries[pos]? with
  | none =>
      rw [hTable] at hContains
      cases b <;> simp [KindInfo.part] at hContains
  | some table =>
      rw [hTable, Option.bind_some] at hContains
      refine ⟨table, rfl, ?_⟩
      rw [Option.bind_some]
      cases hGet : Assoc.get? c table with
      | none =>
          rw [hGet] at hContains
          cases b <;> simp [KindInfo.part] at hContains
      | some info => rfl

theorem exists_mem_of_contains
    {entries : Array (Assoc Nat KindInfo)}
    {pos c k : Nat}
    {b : Bool}
    (hContains : ((infoAt entries pos c).part b).contains k =
      true) :
    ∃ info, (c, info) ∈ entries.getD pos [] := by
  rcases exists_get?_of_contains hContains with
    ⟨table, hTable, hGet⟩
  rw [Array.getD_eq_getD_getElem?, hTable]
  exact ⟨_, Assoc.mem_of_get? hGet⟩

/- The characters of a table that was built ascend. -/
theorem sorted_build
    (literals : List Literal)
    (ignoreCase mixed : Bool) :
    Sorted (build literals ignoreCase mixed).entries := by
  refine (foldl_enterChars ignoreCase _ ?_).1
  intro pos table hTable
  cases hTable

/-
  The entries of a table: a literal stands under the keys of
  its characters, and ends with the last one.
-/
theorem mem_part_build
    (literals : List Literal)
    (ignoreCase mixed : Bool)
    (pos c : Nat)
    (b : Bool)
    (k : Nat) :
    ((infoAt (build literals ignoreCase mixed).entries
      pos c).part b).contains k = true ↔
      ∃ l ∈ (build literals ignoreCase mixed).literals,
        l.kind = k ∧ HasKey ignoreCase l pos c ∧
          b = decide (pos + 1 = l.image.length) := by
  have hEmpty : Sorted #[] := by
    intro pos table hTable
    cases hTable
  have hFold := (foldl_enterChars ignoreCase
    (build literals ignoreCase mixed).literals hEmpty).2
    pos c b k
  refine hFold.trans (or_iff_left ?_)
  cases b <;> simp [infoAt, KindInfo.part]

/-
  A literal that a unit goes on or ends with has a character
  there whose key is the unit, up to case if case is ignored.
-/
theorem hasKey_of_kindInfo?
    {literals : List Literal}
    {ignoreCase mixed : Bool}
    {pos c key : Nat}
    {info : KindInfo}
    (hInfo : (build literals ignoreCase mixed).kindInfo? pos c =
      some (key, info))
    {last : Bool}
    {k : Nat}
    (hContains : (info.part last).contains k = true) :
    (∃ l ∈ (build literals ignoreCase mixed).literals,
        l.kind = k ∧ HasKey ignoreCase l pos key ∧
          last = decide (pos + 1 = l.image.length)) ∧
      (key = c ∨ (ignoreCase = true ∧
        (Text.upperUnit key = c ∨ Text.lowerUnit key = c))) := by
  unfold kindInfo? at hInfo
  rcases Option.bind_eq_some_iff.mp hInfo with
    ⟨table, hTable, hFound⟩
  -- The entry is the one that stands under its key.
  have hUnder : Assoc.get? key table = some info →
      ∃ l ∈ (build literals ignoreCase mixed).literals,
        l.kind = k ∧ HasKey ignoreCase l pos key ∧
          last = decide (pos + 1 = l.image.length) := by
    intro hGet
    apply (mem_part_build literals ignoreCase mixed pos key
      last k).mp
    unfold infoAt
    rw [hTable, Option.bind_some, hGet]
    exact hContains
  split at hFound
  · next info' hGet =>
      cases hFound
      exact ⟨hUnder hGet, .inl rfl⟩
  · rw [Option.ite_none_right_eq_some] at hFound
    rcases hFound with ⟨hIgnores, hFound⟩
    rcases List.exists_of_findSome?_eq_some hFound with
      ⟨key', -, hKey⟩
    split at hKey
    · next info' hGet =>
        rw [Option.ite_none_right_eq_some, Option.some_inj,
          Bool.or_eq_true, beq_iff_eq, beq_iff_eq] at hKey
        rcases hKey with ⟨hBack, hPair⟩
        cases hPair
        exact ⟨hUnder hGet, .inr ⟨hIgnores, hBack⟩⟩
    · cases hKey

theorem mem_literals_build
    (literals : List Literal)
    (ignoreCase mixed : Bool)
    (l : Literal) :
    l ∈ (build literals ignoreCase mixed).literals ↔
      l ∈ literals ∧ l.image ≠ [] := by
  unfold build
  simp only [List.mem_mergeSort, List.mem_filter,
    Bool.not_eq_true', List.isEmpty_eq_false_iff]

/- Literals of different kinds keep them. -/
theorem nodup_kinds_build
    {literals : List Literal}
    (hKinds : (literals.map (·.kind)).Nodup)
    (ignoreCase mixed : Bool) :
    ((build literals ignoreCase mixed).literals.map
      (·.kind)).Nodup := by
  have hPerm : (build literals ignoreCase mixed).literals.Perm
      (literals.filter fun l => !l.image.isEmpty) :=
    List.mergeSort_perm _ _
  refine (hPerm.map (·.kind)).nodup_iff.mpr ?_
  exact hKinds.sublist (List.filter_sublist.map _)

theorem foldl_max_le
    (xs : List Nat)
    (start : Nat) :
    start ≤ xs.foldl max start ∧
      ∀ x ∈ xs, x ≤ xs.foldl max start := by
  induction xs generalizing start with
  | nil =>
      exact ⟨le_rfl, fun x hx => (List.not_mem_nil hx).elim⟩
  | cons y xs ih =>
      rcases ih (max start y) with ⟨hStart, hRest⟩
      refine ⟨(le_max_left _ _).trans hStart, ?_⟩
      intro x hx
      rcases List.mem_cons.mp hx with rfl | hx
      · exact (le_max_right _ _).trans hStart
      · exact hRest x hx

theorem length_le_maxLen
    {literals : List Literal}
    {ignoreCase mixed : Bool}
    {l : Literal}
    (hMem : l ∈ (build literals ignoreCase mixed).literals) :
    l.image.length ≤
      (build literals ignoreCase mixed).maxLen := by
  exact (foldl_max_le _ 0).2 _ (List.mem_map_of_mem hMem)

------------------------------------------------------------
-- Literals that extend others
------------------------------------------------------------

theorem mem_insertKind
    (k j : Nat)
    (ks : List Nat) :
    j ∈ insertKind k ks ↔ j = k ∨ j ∈ ks := by
  induction ks with
  | nil => simp [insertKind]
  | cons x xs ih =>
      unfold insertKind
      split
      · simp
      · split
        · next hEq =>
            rw [beq_iff_eq] at hEq
            simp [hEq]
        · simp only [List.mem_cons, ih]
          tauto

theorem mem_foldl_insertKind
    (literals : List Literal)
    (ks : List Nat)
    (j : Nat) :
    j ∈ literals.foldl (fun ks l => insertKind l.kind ks) ks ↔
      j ∈ ks ∨ ∃ l ∈ literals, l.kind = j := by
  induction literals generalizing ks with
  | nil => simp
  | cons l literals ih =>
      rw [List.foldl_cons, ih, mem_insertKind]
      simp only [List.mem_cons, exists_eq_or_imp]
      constructor
      · rintro ((rfl | hj) | hj)
        · exact .inr (.inl rfl)
        · exact .inl hj
        · exact .inr (.inr hj)
      · rintro (hj | rfl | hj)
        · exact .inl (.inr hj)
        · exact .inl (.inl rfl)
        · exact .inr hj

/- A literal is flagged when some other one may extend it. -/
theorem isSubString_build
    (literals : List Literal)
    (ignoreCase mixed : Bool)
    (k : Nat) :
    (build literals ignoreCase mixed).isSubString k = true ↔
      ∃ l ∈ (build literals ignoreCase mixed).literals,
        l.kind = k ∧
          (mixed = true ∨
            isExtended
              (build literals ignoreCase mixed).literals
              ignoreCase l = true) := by
  unfold isSubString
  rw [List.contains_iff_mem]
  refine (mem_foldl_insertKind _ [] k).trans ?_
  simp only [List.not_mem_nil, false_or, List.mem_filter,
    Bool.or_eq_true]
  refine exists_congr fun l => ?_
  constructor
  · rintro ⟨⟨hl, hFlag⟩, hk⟩
    exact ⟨hl, hk, hFlag⟩
  · rintro ⟨hl, hk, hFlag⟩
    exact ⟨⟨hl, hFlag⟩, hk⟩

/- Where case counts, only a longer literal extends another. -/
theorem isExtended_iff
    (literals : List Literal)
    (lit : Literal) :
    isExtended literals false lit = true ↔
      ∃ other ∈ literals, other.kind ≠ lit.kind ∧
        lit.image <+: other.image := by
  unfold isExtended
  simp only [List.any_eq_true, Bool.and_eq_true, bne_iff_ne,
    Bool.false_and, Bool.or_false, List.isPrefixOf_iff_prefix]

------------------------------------------------------------
-- What the automaton knows
------------------------------------------------------------

section Resumes

variable (t : LiteralTable) (d : Dfa) (a : Alphabet)
variable (anyChar : Option Kind)

/- What is known after some characters of a text. -/
def knownAfter
    (image : List Nat) : Nat → Resume
  | 0 => { state := some d.start }
  | n + 1 =>
      resumeNext t d a anyChar image (knownAfter image n) n
        (image.getD n 0)

/- What is known depends on the characters that were read. -/
theorem knownAfter_congr
    {image image' : List Nat}
    {n : Nat}
    (hSame : image.take n = image'.take n) :
    knownAfter t d a anyChar image n =
      knownAfter t d a anyChar image' n := by
  induction n with
  | zero => rfl
  | succ n ih =>
      have hShorter : image.take n = image'.take n := by
        have hTake := congrArg (List.take n) hSame
        simpa [List.take_take] using hTake
      have hUnit : image.getD n 0 = image'.getD n 0 := by
        have hGet := congrArg (fun xs => xs[n]?) hSame
        simp only [List.getElem?_take,
          if_pos (Nat.lt_succ_self n)] at hGet
        rw [List.getD_eq_getElem?_getD,
          List.getD_eq_getElem?_getD, hGet]
      unfold knownAfter
      rw [ih hShorter, hUnit]
      unfold resumeNext
      rw [hSame]

theorem getElem?_resumesFrom
    (image cs : List Nat)
    (pos : Nat)
    (hRest : image.drop pos = cs)
    (i : Nat) :
    (resumesFrom t d a anyChar image
      (knownAfter t d a anyChar image pos) pos cs)[i]? =
      if i < cs.length then
        some (knownAfter t d a anyChar image (pos + i + 1))
      else none := by
  induction cs generalizing pos i with
  | nil => simp [resumesFrom]
  | cons c cs ih =>
      have hUnit : image.getD pos 0 = c := by
        have hGet := congrArg (fun xs => xs[0]?) hRest
        simp only [List.getElem?_drop, Nat.add_zero,
          List.getElem?_cons_zero] at hGet
        rw [List.getD_eq_getElem?_getD, hGet]
        rfl
      have hNext : knownAfter t d a anyChar image (pos + 1) =
          resumeNext t d a anyChar image
            (knownAfter t d a anyChar image pos) pos c := by
        rw [← hUnit]
        rfl
      have hRest' : image.drop (pos + 1) = cs := by
        rw [← List.drop_drop, hRest]
        rfl
      unfold resumesFrom
      rw [← hNext]
      cases i with
      | zero => simp
      | succ i =>
          rw [List.getElem?_cons_succ, ih (pos + 1) hRest',
            List.length_cons]
          simp only [Nat.add_lt_add_iff_right]
          rw [show pos + 1 + i + 1 = pos + (i + 1) + 1 by omega]

theorem getElem?_resumesOf
    (lit : Literal)
    (i : Nat) :
    (resumesOf t d a anyChar lit)[i]? =
      if i < lit.image.length then
        some (knownAfter t d a anyChar lit.image (i + 1))
      else none := by
  have hFrom := getElem?_resumesFrom t d a anyChar lit.image
    lit.image 0 rfl i
  rwa [Nat.zero_add] at hFrom

end Resumes

------------------------------------------------------------
-- Finding literals by what is known
------------------------------------------------------------

/- There is something to know. -/
def Useful
    (r : Resume) : Prop :=
  ¬ (r.kind = noKind ∧ r.state = none)

/- A literal stands under what is known at a position. -/
def Under
    (buckets : Array (Assoc Resume KindSet))
    (pos : Nat)
    (r : Resume)
    (k : Nat) : Prop :=
  ((Assoc.get? r (buckets.getD pos [])).getD {}).contains k =
    true

/- No position has two entries for one thing that is known. -/
def Distinct
    (buckets : Array (Assoc Resume KindSet)) : Prop :=
  ∀ pos, ((buckets.getD pos []).map (·.1)).Nodup

theorem enterResumes_spec
    (kind : Kind)
    (i : Nat)
    (rs : List Resume)
    {buckets : Array (Assoc Resume KindSet)}
    (hDistinct : Distinct buckets)
    (hSize : i + rs.length ≤ buckets.size) :
    (enterResumes kind i rs buckets).size = buckets.size ∧
      Distinct (enterResumes kind i rs buckets) ∧
      ∀ pos r k,
        Under (enterResumes kind i rs buckets) pos r k ↔
          (k = kind ∧ Useful r ∧ ∃ j, pos = i + j ∧
              rs[j]? = some r) ∨
            Under buckets pos r k := by
  induction rs generalizing i buckets with
  | nil =>
      refine ⟨rfl, hDistinct, fun pos r k => ?_⟩
      simp [enterResumes]
  | cons r₀ rs ih =>
      rw [List.length_cons] at hSize
      have hInside : i < buckets.size := by omega
      let buckets₁ :=
        if r₀.kind == noKind && r₀.state.isNone then buckets
        else buckets.modify i
          (Assoc.alter r₀ fun s => (s.getD {}).insert kind)
      have hFirst : buckets₁.size = buckets.size ∧
          Distinct buckets₁ ∧
          ∀ pos r k, Under buckets₁ pos r k ↔
            (k = kind ∧ Useful r ∧ pos = i ∧ r = r₀) ∨
              Under buckets pos r k := by
        dsimp only [buckets₁]
        split
        · next hNothing =>
            refine ⟨rfl, hDistinct, fun pos r k => ?_⟩
            refine (or_iff_right ?_).symm
            rintro ⟨-, hUseful, -, rfl⟩
            rw [Bool.and_eq_true, beq_iff_eq,
              Option.isNone_iff_eq_none] at hNothing
            exact hUseful hNothing
        · next hSomething =>
            have hUseful : Useful r₀ := by
              rintro ⟨hKind, hState⟩
              simp [hKind, hState] at hSomething
            refine ⟨Array.size_modify, ?_, fun pos r k => ?_⟩
            · intro pos
              rw [getD_modify _ _ _ _ hInside]
              split
              · exact Assoc.nodup_keys_alter _ _
                  (hDistinct pos)
              · exact hDistinct pos
            · unfold Under
              rw [getD_modify _ _ _ _ hInside]
              by_cases hPos : pos = i
              · rw [if_pos hPos, Assoc.get?_alter]
                by_cases hr : r = r₀
                · rw [if_pos hr, Option.getD_some,
                    KindSet.contains_insert, hr]
                  tauto
                · rw [if_neg hr]
                  tauto
              · rw [if_neg hPos]
                tauto
      rcases hFirst with ⟨hSize₁, hDistinct₁, hUnder₁⟩
      rcases ih (i + 1) hDistinct₁ (by omega) with
        ⟨hSize₂, hDistinct₂, hUnder₂⟩
      refine ⟨hSize₂.trans hSize₁, hDistinct₂,
        fun pos r k => ?_⟩
      refine (hUnder₂ pos r k).trans ?_
      rw [hUnder₁]
      constructor
      · rintro (⟨hk, hUseful, j, rfl, hj⟩ |
          ⟨hk, hUseful, rfl, rfl⟩ | hOld)
        · exact .inl ⟨hk, hUseful, j + 1, by omega, hj⟩
        · exact .inl ⟨hk, hUseful, 0, rfl, rfl⟩
        · exact .inr hOld
      · rintro (⟨hk, hUseful, j, rfl, hj⟩ | hOld)
        · cases j with
          | zero =>
              cases hj
              exact .inr (.inl ⟨hk, hUseful, rfl, rfl⟩)
          | succ j =>
              exact .inl ⟨hk, hUseful, j, by omega, hj⟩
        · exact .inr (.inr hOld)

theorem foldl_enterResumes
    (resumes : List (Kind × List Resume))
    {buckets : Array (Assoc Resume KindSet)}
    (hDistinct : Distinct buckets)
    (hSize : ∀ e ∈ resumes, e.2.length ≤ buckets.size) :
    Distinct
        (resumes.foldl
          (fun bs e => enterResumes e.1 0 e.2 bs) buckets) ∧
      ∀ pos r k,
        Under
            (resumes.foldl
              (fun bs e => enterResumes e.1 0 e.2 bs) buckets)
            pos r k ↔
          (∃ e ∈ resumes, e.1 = k ∧ Useful r ∧
              e.2[pos]? = some r) ∨
            Under buckets pos r k := by
  induction resumes generalizing buckets with
  | nil =>
      refine ⟨hDistinct, fun pos r k => ?_⟩
      simp
  | cons e resumes ih =>
      rcases enterResumes_spec e.1 0 e.2 hDistinct (by
          rw [Nat.zero_add]
          exact hSize e List.mem_cons_self) with
        ⟨hSize₁, hDistinct₁, hUnder₁⟩
      rcases ih hDistinct₁ (fun e' he' => by
          rw [hSize₁]
          exact hSize e' (List.mem_cons_of_mem _ he')) with
        ⟨hDistinct₂, hUnder₂⟩
      refine ⟨hDistinct₂, fun pos r k => ?_⟩
      rw [List.foldl_cons, hUnder₂, hUnder₁]
      constructor
      · rintro (⟨e', he', hRest⟩ |
          ⟨rfl, hUseful, j, hj, hr⟩ | hOld)
        · exact .inl ⟨e', List.mem_cons_of_mem _ he', hRest⟩
        · rw [Nat.zero_add] at hj
          subst hj
          exact .inl ⟨e, List.mem_cons_self, rfl, hUseful, hr⟩
        · exact .inr hOld
      · rintro (⟨e', he', rfl, hUseful, hr⟩ | hOld)
        · rcases List.mem_cons.mp he' with rfl | he'
          · exact .inr (.inl ⟨rfl, hUseful, pos,
              (Nat.zero_add pos).symm, hr⟩)
          · exact .inl ⟨e', he', rfl, hUseful, hr⟩
        · exact .inr (.inr hOld)

theorem get?_foldl_insertSorted
    {α : Type}
    (entries : List (Nat × α))
    {t : Assoc Nat α}
    (hAscending : Assoc.Ascending t)
    (hKeys : (entries.map (·.1)).Nodup)
    {k : Nat}
    {value : α}
    (hMem : (k, value) ∈ entries ∨
      (k ∉ entries.map (·.1) ∧ Assoc.get? k t = some value)) :
    Assoc.get? k
        (entries.foldl
          (fun m e => Assoc.insertSorted e.1 e.2 m) t) =
      some value := by
  induction entries generalizing t with
  | nil =>
      rcases hMem with hMem | ⟨-, hGet⟩
      · cases hMem
      · exact hGet
  | cons e entries ih =>
      rw [List.map_cons, List.nodup_cons] at hKeys
      rw [List.foldl_cons]
      refine ih (hAscending.alterSorted _ _) hKeys.2 ?_
      rcases hMem with hMem | ⟨hNot, hGet⟩
      · rcases List.mem_cons.mp hMem with rfl | hMem
        · refine .inr ⟨hKeys.1, ?_⟩
          unfold Assoc.insertSorted
          rw [Assoc.get?_alterSorted hAscending, if_pos rfl]
        · exact .inl hMem
      · rw [List.map_cons, List.mem_cons, not_or] at hNot
        refine .inr ⟨hNot.2, ?_⟩
        unfold Assoc.insertSorted
        rw [Assoc.get?_alterSorted hAscending, if_neg hNot.1]
        exact hGet

/-
  The literals of a table are filed under what is known after
  each of their beginnings.
-/
structure Filed
    (t : LiteralTable)
    (known : Literal → Nat → Resume) : Prop where
  distinct : Distinct t.buckets
  under :
    ∀ pos r k, Under t.buckets pos r k ↔
      ∃ l ∈ t.literals, l.kind = k ∧ Useful r ∧
        known l pos = r
  shadowing :
    ∀ l ∈ t.literals, ∀ pos < l.image.length,
      t.shadowing? l.kind pos =
        if (known l pos).kind < l.kind ∧
            (known l pos).pos = pos then
          some (known l pos).kind
        else none

/- Kinds are numbers below the one that stands for none. -/
structure Numbered
    (literals : List Literal) : Prop where
  distinct : (literals.map (·.kind)).Nodup
  below : ∀ l ∈ literals, l.kind < noKind

theorem Numbered.eq_of_kind
    {literals : List Literal}
    (hNumbered : Numbered literals)
    {l l' : Literal}
    (hl : l ∈ literals)
    (hl' : l' ∈ literals)
    (hKind : l.kind = l'.kind) :
    l = l' :=
  List.inj_on_of_nodup_map hNumbered.distinct hl hl' hKind

/- What is known after a beginning of a literal, if anything. -/
def knownAt
    (t : LiteralTable)
    (d : Dfa)
    (a : Alphabet)
    (anyChar : Option Kind)
    (l : Literal)
    (pos : Nat) : Resume :=
  if pos < l.image.length then
    knownAfter t d a anyChar l.image (pos + 1)
  else { state := none }

theorem filed_withResume
    {literals : List Literal}
    {ignoreCase mixed : Bool}
    (hKinds : ((build literals ignoreCase mixed).literals.map
      (·.kind)).Nodup)
    (d : Dfa)
    (a : Alphabet)
    (anyChar : Option Kind) :
    Filed
      ((build literals ignoreCase mixed).withResume d a
        anyChar)
      (knownAt (build literals ignoreCase mixed) d a
        anyChar) := by
  let t := build literals ignoreCase mixed
  let entries := t.literals.map fun l =>
    (l.kind, resumesOf t d a anyChar l)
  have hLength : ∀ l, (resumesOf t d a anyChar l).length =
      l.image.length := by
    intro l
    refine le_antisymm ?_ ?_
    · refine List.getElem?_eq_none_iff.mp ?_
      rw [getElem?_resumesOf, if_neg (Nat.lt_irrefl _)]
    · by_contra hShort
      have hNone := List.getElem?_eq_none
        (Nat.le_refl (resumesOf t d a anyChar l).length)
      rw [getElem?_resumesOf, if_pos (not_le.mp hShort)]
        at hNone
      cases hNone
  have hSize : ∀ e ∈ entries,
      e.2.length ≤ (Array.replicate t.maxLen
        ([] : Assoc Resume KindSet)).size := by
    intro e he
    rcases List.mem_map.mp he with ⟨l, hl, rfl⟩
    rw [Array.size_replicate, hLength]
    exact length_le_maxLen hl
  have hBlank : ∀ pos, (Array.replicate t.maxLen
      ([] : Assoc Resume KindSet)).getD pos [] = [] := by
    intro pos
    rw [Array.getD_eq_getD_getElem?, Array.getElem?_replicate]
    split <;> rfl
  have hDistinct : Distinct (Array.replicate t.maxLen []) := by
    intro pos
    rw [hBlank]
    exact .nil
  rcases foldl_enterResumes entries hDistinct hSize with
    ⟨hDistinct', hUnder⟩
  have hKeys : (entries.map (·.1)).Nodup := by
    rw [List.map_map]
    exact hKinds
  refine ⟨hDistinct', ?_, ?_⟩
  · intro pos r k
    refine (hUnder pos r k).trans ?_
    have hNot : ¬ Under (Array.replicate t.maxLen []) pos r k := by
      unfold Under
      rw [hBlank]
      simp [Assoc.get?]
    rw [or_iff_left hNot]
    constructor
    · rintro ⟨e, he, rfl, hUseful, hr⟩
      rcases List.mem_map.mp he with ⟨l, hl, rfl⟩
      refine ⟨l, hl, rfl, hUseful, ?_⟩
      rw [getElem?_resumesOf] at hr
      unfold knownAt
      split at hr
      · next hInside =>
          rw [if_pos hInside]
          exact Option.some_inj.mp hr
      · cases hr
    · rintro ⟨l, hl, rfl, hUseful, hr⟩
      refine ⟨_, List.mem_map_of_mem hl, rfl, hUseful, ?_⟩
      rw [getElem?_resumesOf]
      unfold knownAt at hr
      split at hr
      · next hInside =>
          rw [if_pos hInside]
          exact congrArg some hr
      · rw [← hr] at hUseful
        exact absurd ⟨rfl, rfl⟩ hUseful
  · intro l hl pos hPos
    have hGet := get?_foldl_insertSorted entries
      Assoc.ascending_nil hKeys
      (.inl (List.mem_map_of_mem hl))
    have hResumes : Assoc.get? l.kind
        (t.withResume d a anyChar).resumes =
          some (resumesOf t d a anyChar l) := hGet
    unfold shadowing?
    rw [hResumes]
    simp only [Option.bind_eq_bind, Option.bind_some,
      getElem?_resumesOf, if_pos hPos, knownAt]
    rfl

/- A table without automaton knows nothing. -/
theorem filed_build
    {literals : List Literal}
    {ignoreCase mixed : Bool}
    (hNumbered :
      Numbered (build literals ignoreCase mixed).literals) :
    Filed (build literals ignoreCase mixed)
      fun _ _ => { state := none } := by
  refine ⟨?_, ?_, ?_⟩
  · intro pos
    exact .nil
  · intro pos r k
    constructor
    · intro hUnder
      simp [Under, build, Assoc.get?] at hUnder
    · rintro ⟨l, -, -, hUseful, rfl⟩
      exact absurd ⟨rfl, rfl⟩ hUseful
  · intro l hl pos _
    have hBelow := hNumbered.below l hl
    have hNot : ¬ noKind < l.kind := not_lt.mpr hBelow.le
    simp only [hNot, false_and, if_false]
    rfl

------------------------------------------------------------
-- What holds of all that is known
------------------------------------------------------------

/- A property of what is known at each position. -/
def AllKnown
    (P : Nat → Resume → Prop)
    (buckets : Array (Assoc Resume KindSet)) : Prop :=
  ∀ pos, ∀ e ∈ buckets.getD pos [], P pos e.1

section AllKnown

variable {P : Nat → Resume → Prop}

theorem allKnown_enterResumes
    (kind : Kind)
    (i : Nat)
    (rs : List Resume)
    (hResumes : ∀ j r, rs[j]? = some r → P (i + j) r)
    {buckets : Array (Assoc Resume KindSet)}
    (hBuckets : AllKnown P buckets) :
    AllKnown P (enterResumes kind i rs buckets) := by
  induction rs generalizing i buckets with
  | nil => exact hBuckets
  | cons r rs ih =>
      unfold enterResumes
      apply ih
      · intro j r' hr'
        have hLater := hResumes (j + 1) r' hr'
        rwa [Nat.add_right_comm, Nat.add_assoc]
      · split
        · exact hBuckets
        · intro pos e he
          rw [Array.getD_eq_getD_getElem?,
            Array.getElem?_modify] at he
          by_cases hPos : i = pos
          · subst hPos
            rw [if_pos rfl] at he
            cases hBucket : buckets[i]? with
            | none =>
                rw [hBucket] at he
                cases he
            | some bucket =>
                rw [hBucket] at he
                have hOld := hBuckets i
                rw [Array.getD_eq_getD_getElem?, hBucket]
                  at hOld
                have hKey := List.mem_map_of_mem
                  (f := Prod.fst) he
                rw [Option.map_some, Option.getD_some,
                  Assoc.keys_alter] at hKey
                have hBefore : e.1 ∈ bucket.map (·.1) →
                    P i e.1 := by
                  intro hMem
                  rcases List.mem_map.mp hMem with
                    ⟨e', he', hSame⟩
                  rw [← hSame]
                  exact hOld e' he'
                split at hKey
                · exact hBefore hKey
                · rcases List.mem_append.mp hKey with hKey | hKey
                  · exact hBefore hKey
                  · rw [List.mem_singleton.mp hKey]
                    exact hResumes 0 r rfl
          · rw [if_neg hPos, ← Array.getD_eq_getD_getElem?]
              at he
            exact hBuckets pos e he

/- What holds of the resumes of literals holds of the buckets. -/
theorem allKnown_withResume
    {t : LiteralTable}
    {d : Dfa}
    {a : Alphabet}
    {anyChar : Option Kind}
    (hResumes : ∀ l ∈ t.literals, ∀ (j : Nat) r,
      (resumesOf t d a anyChar l)[j]? = some r → P j r) :
    AllKnown P (t.withResume d a anyChar).buckets := by
  have hFold : ∀ (literals : List Literal)
      (buckets : Array (Assoc Resume KindSet)),
      (∀ l ∈ literals, l ∈ t.literals) →
      AllKnown P buckets →
      AllKnown P ((literals.map fun l =>
          (l.kind, resumesOf t d a anyChar l)).foldl
        (fun bs e => enterResumes e.1 0 e.2 bs) buckets) := by
    intro literals
    induction literals with
    | nil =>
        intro buckets _ hBuckets
        exact hBuckets
    | cons l literals ih =>
        intro buckets hSub hBuckets
        rw [List.map_cons, List.foldl_cons]
        apply ih
        · exact fun l' hl' =>
            hSub l' (List.mem_cons_of_mem l hl')
        apply allKnown_enterResumes l.kind 0 _ _ hBuckets
        intro j r hr
        rw [Nat.zero_add]
        exact hResumes l (hSub l List.mem_cons_self) j r hr
  apply hFold t.literals _ fun l hl => hl
  intro pos e he
  rw [Array.getD_eq_getD_getElem?, Array.getElem?_replicate]
    at he
  split at he
  · cases he
  · cases he

theorem allKnown_build
    (literals : List Literal)
    (ignoreCase mixed : Bool) :
    AllKnown P (build literals ignoreCase mixed).buckets := by
  intro pos e he
  cases he

end AllKnown

/- What shadows a literal is known after the same beginning. -/
theorem exists_of_shadowing?
    {literals : List Literal}
    {ignoreCase mixed : Bool}
    {d : Dfa}
    {a : Alphabet}
    {anyChar : Option Kind}
    {kind pos k : Nat}
    (hShadows : ((build literals ignoreCase mixed).withResume d
      a anyChar).shadowing? kind pos = some k) :
    ∃ l ∈ (build literals ignoreCase mixed).literals, ∃ r,
      (resumesOf (build literals ignoreCase mixed) d a anyChar
        l)[pos]? = some r ∧ r.kind = k := by
  unfold shadowing? at hShadows
  simp only [Option.bind_eq_bind, Option.bind_eq_some_iff]
    at hShadows
  rcases hShadows with ⟨rs, hrs, r, hr, hKind⟩
  rw [Option.ite_none_right_eq_some, Option.some_inj] at hKind
  have hFold : ∀ (entries : List (Nat × List Resume))
      (m : Assoc Nat (List Resume)),
      (kind, rs) ∈ entries.foldl
          (fun m e => Assoc.insertSorted e.1 e.2 m) m →
        rs ∈ entries.map (·.2) ∨ (kind, rs) ∈ m := by
    intro entries
    induction entries with
    | nil => exact fun m hm => .inr hm
    | cons e entries ih =>
        intro m hm
        rw [List.map_cons, List.mem_cons]
        rcases ih _ hm with hLater | hHere
        · exact .inl (.inr hLater)
        · rcases Assoc.mem_insertSorted hHere with hNew | hOld
          · exact .inl (.inl (Prod.mk.inj hNew).2)
          · exact .inr hOld
  rcases hFold _ _ (Assoc.mem_of_get? hrs) with hMem | hNone
  · rw [List.map_map] at hMem
    rcases List.mem_map.mp hMem with ⟨l, hl, rfl⟩
    exact ⟨l, hl, r, hr, hKind.2⟩
  · cases hNone

------------------------------------------------------------
-- What is known is past
------------------------------------------------------------

/- What is known at a position ends there or before. -/
def Past
    (buckets : Array (Assoc Resume KindSet)) : Prop :=
  ∀ pos, ∀ e ∈ buckets.getD pos [], e.1.pos ≤ pos

theorem pos_resumesFrom
    (t : LiteralTable)
    (d : Dfa)
    (a : Alphabet)
    (anyChar : Option Kind)
    (image : List Nat)
    {before : Resume}
    {pos : Nat}
    (rest : List Nat)
    (hBefore : before.pos ≤ pos)
    {j : Nat}
    {r : Resume}
    (hGet : (resumesFrom t d a anyChar image before pos
      rest)[j]? = some r) :
    r.pos ≤ pos + j := by
  induction rest generalizing before pos j with
  | nil =>
      unfold resumesFrom at hGet
      cases hGet
  | cons c rest ih =>
      have hNext : (resumeNext t d a anyChar image before pos
          c).pos ≤ pos := by
        unfold resumeNext
        split
        · exact hBefore
        · dsimp only
          split
          · exact Nat.zero_le _
          · split
            · exact le_rfl
            · exact hBefore
      unfold resumesFrom at hGet
      cases j with
      | zero =>
          cases hGet
          exact hNext
      | succ j =>
          have hRest := ih (hNext.trans (Nat.le_succ pos)) hGet
          omega

theorem past_withResume
    (t : LiteralTable)
    (d : Dfa)
    (a : Alphabet)
    (anyChar : Option Kind) :
    Past (t.withResume d a anyChar).buckets := by
  apply allKnown_withResume (P := fun pos r => r.pos ≤ pos)
  intro l _ j r hr
  have hPos := pos_resumesFrom t d a anyChar l.image l.image
    (Nat.le_refl 0) hr
  rwa [Nat.zero_add] at hPos

theorem past_build
    (literals : List Literal)
    (ignoreCase mixed : Bool) :
    Past (build literals ignoreCase mixed).buckets :=
  allKnown_build (P := fun pos r => r.pos ≤ pos) literals
    ignoreCase mixed

------------------------------------------------------------
-- Looking up
------------------------------------------------------------

section Lookup

variable {t : LiteralTable} {known : Literal → Nat → Resume}

theorem under_of_mem
    (hFiled : Filed t known)
    {pos k : Nat}
    {r : Resume}
    {ks : KindSet}
    (hMem : (r, ks) ∈ t.buckets.getD pos [])
    (hContains : ks.contains k = true) :
    Under t.buckets pos r k := by
  unfold Under
  rw [Assoc.get?_of_mem (hFiled.distinct pos) hMem]
  exact hContains

theorem mem_of_under
    {pos k : Nat}
    {r : Resume}
    (hUnder : Under t.buckets pos r k) :
    ∃ ks, (r, ks) ∈ t.buckets.getD pos [] ∧
      ks.contains k = true := by
  unfold Under at hUnder
  cases hGet : Assoc.get? r (t.buckets.getD pos []) with
  | none =>
      rw [hGet, Option.getD_none, KindSet.contains_empty]
        at hUnder
      cases hUnder
  | some ks =>
      rw [hGet] at hUnder
      exact ⟨ks, Assoc.mem_of_get? hGet, hUnder⟩

/-
  Literals that are alive and agree on what is known are found
  under that, if it is useful.
-/
theorem find?_alive
    (hFiled : Filed t known)
    (hNumbered : Numbered t.literals)
    {pos : Nat}
    {alive : KindSet}
    {r : Resume}
    (hSome : ∃ k, alive.contains k = true)
    (hKnown :
      ∀ k, alive.contains k = true →
        ∃ l ∈ t.literals, l.kind = k ∧ known l pos = r) :
    ((t.buckets.getD pos []).find? fun e =>
        !(e.2.inter alive).isEmpty).map (·.1) =
      if r.kind = noKind ∧ r.state = none then none
      else some r := by
  have hOnly : ∀ r' ks k, (r', ks) ∈ t.buckets.getD pos [] →
      ks.contains k = true → alive.contains k = true →
        r' = r ∧ Useful r' := by
    intro r' ks k hMem hContains hAlive
    rcases (hFiled.under pos r' k).mp
        (under_of_mem hFiled hMem hContains) with
      ⟨l, hl, hKind, hUseful, hr⟩
    rcases hKnown k hAlive with ⟨l', hl', hKind', hr'⟩
    have hSame := hNumbered.eq_of_kind hl hl'
      (hKind.trans hKind'.symm)
    subst hSame
    exact ⟨hr.symm.trans hr', hUseful⟩
  cases hFind : (t.buckets.getD pos []).find? fun e =>
      !(e.2.inter alive).isEmpty with
  | none =>
      rw [List.find?_eq_none] at hFind
      split
      · rfl
      · next hUseful =>
          rcases hSome with ⟨k, hk⟩
          rcases hKnown k hk with ⟨l, hl, hKind, hr⟩
          rcases mem_of_under ((hFiled.under pos r k).mpr
              ⟨l, hl, hKind, hUseful, hr⟩) with
            ⟨ks, hMem, hContains⟩
          have hEmpty := hFind (r, ks) hMem
          rw [Bool.not_eq_true', Bool.not_eq_false,
            KindSet.isEmpty_iff] at hEmpty
          refine absurd ?_ (hEmpty k)
          exact (KindSet.contains_inter _ _ _).mpr
            ⟨hContains, hk⟩
  | some e =>
      rcases e with ⟨r', ks⟩
      have hMem := List.mem_of_find?_eq_some hFind
      have hMeets := List.find?_some hFind
      rw [Bool.not_eq_true', KindSet.not_isEmpty_iff] at hMeets
      rcases hMeets with ⟨k, hk⟩
      rw [KindSet.contains_inter] at hk
      rcases hOnly r' ks k hMem hk.1 hk.2 with ⟨rfl, hUseful⟩
      rw [if_neg hUseful]
      rfl

/- The state after a whole literal is the one that is known. -/
theorem stateFor?_eq
    (hFiled : Filed t known)
    (hKinds : (t.literals.map (·.kind)).Nodup)
    {l : Literal}
    (hl : l ∈ t.literals)
    (pos : Nat) :
    t.stateFor? pos l.kind = (known l pos).state := by
  unfold stateFor?
  have hOnly : ∀ r ks, (r, ks) ∈ t.buckets.getD pos [] →
      ks.contains l.kind = true → r = known l pos := by
    intro r ks hMem hContains
    rcases (hFiled.under pos r l.kind).mp
        (under_of_mem hFiled hMem hContains) with
      ⟨l', hl', hKind, -, hr⟩
    rw [List.inj_on_of_nodup_map hKinds hl' hl hKind] at hr
    exact hr.symm
  cases hFind : (t.buckets.getD pos []).find? fun e =>
      e.1.state.isSome && e.2.contains l.kind with
  | none =>
      rw [List.find?_eq_none] at hFind
      rw [Option.bind_none]
      cases hState : (known l pos).state with
      | none => rfl
      | some q =>
          have hUseful : Useful (known l pos) := by
            rintro ⟨-, hNone⟩
            rw [hState] at hNone
            cases hNone
          rcases mem_of_under ((hFiled.under pos _ l.kind).mpr
              ⟨l, hl, rfl, hUseful, rfl⟩) with
            ⟨ks, hMem, hContains⟩
          have hNot := hFind _ hMem
          simp [hState, hContains] at hNot
  | some e =>
      rcases e with ⟨r, ks⟩
      have hMeets := List.find?_some hFind
      rw [Bool.and_eq_true] at hMeets
      rw [Option.bind_some, hOnly r ks
        (List.mem_of_find?_eq_some hFind) hMeets.2]

end Lookup

end LiteralTable

end Descent
