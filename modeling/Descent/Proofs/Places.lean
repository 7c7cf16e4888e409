import Descent.Lexer.Input
import Mathlib

/-
  Lines and columns.

  A position remembers the end of a line and begins the next
  line one unit later.  Every unit of a text stands in the
  line that follows the line ends before it, in the column
  that the units of its line lead to.  A position counts in
  words of 32 bits, so this is true of columns that fit; a
  wide tab leads to one that does not.

  Main declarations:
    * `EndsLine`
    * `LineBegins`
    * `columnAfter`
    * `positionAfter`
    * `decode_places`
    * `decode_column_wraps`
-/

namespace Descent

------------------------------------------------------------
-- Lines and columns of a text
------------------------------------------------------------

/-
  A line ends with a line feed, and with a carriage return
  unless a line feed follows it.
-/
def EndsLine
    (us : List Nat)
    (i : Nat) : Prop :=
  us[i]? = some 0x0a ∨
    us[i]? = some 0x0d ∧ us[i + 1]? ≠ some 0x0a

instance
    (us : List Nat)
    (i : Nat) :
    Decidable (EndsLine us i) := by
  unfold EndsLine
  infer_instance

/- The number of lines that end before a unit. -/
def lineEnds
    (us : List Nat)
    (i : Nat) : Nat :=
  (List.range i).countP fun j => decide (EndsLine us j)

/- The line of a unit begins at an index. -/
structure LineBegins
    (us : List Nat)
    (s i : Nat) : Prop where
  le : s ≤ i
  after : s = 0 ∨ EndsLine us (s - 1)
  within : ∀ j, s ≤ j → j < i → ¬EndsLine us j

/- The column of a unit that stands behind a column. -/
def nextColumn
    (tabSize column c : Nat) : Nat :=
  if c = 0x09 then (column / tabSize + 1) * tabSize
  else column + 1

/- The column that the units of a line lead to. -/
def columnAfter
    (tabSize : Nat)
    (line : List Nat) : Nat :=
  line.foldl (nextColumn tabSize) 0

theorem lineEnds_succ
    (us : List Nat)
    (i : Nat) :
    lineEnds us (i + 1) =
      lineEnds us i + if EndsLine us i then 1 else 0 := by
  unfold lineEnds
  rw [List.range_succ, List.countP_append,
    List.countP_singleton]
  simp only [decide_eq_true_eq]

namespace LineBegins

variable {us : List Nat}

/- The first line begins with the text. -/
theorem zero
    (us : List Nat) :
    LineBegins us 0 0 where
  le := Nat.le_refl 0
  after := Or.inl rfl
  within j _ hj := absurd hj (Nat.not_lt_zero j)

/- Behind the end of a line a line begins. -/
theorem of_endsLine
    {i : Nat}
    (hEnds : EndsLine us i) :
    LineBegins us (i + 1) (i + 1) where
  le := Nat.le_refl _
  after := Or.inr hEnds
  within _ hLe hLt := absurd hLe (Nat.not_le.mpr hLt)

/- Behind any other unit its line goes on. -/
theorem succ
    {s i : Nat}
    (hBegins : LineBegins us s i)
    (hEnds : ¬EndsLine us i) :
    LineBegins us s (i + 1) where
  le := Nat.le_succ_of_le hBegins.le
  after := hBegins.after
  within j hLe hLt := by
    rcases Nat.lt_succ_iff_lt_or_eq.mp hLt with hLt | hEq
    · exact hBegins.within j hLe hLt
    · rwa [hEq]

/- A unit stands in one line. -/
theorem unique
    {s t i : Nat}
    (hFirst : LineBegins us s i)
    (hSecond : LineBegins us t i) :
    s = t := by
  have hNotLt : ∀ {a b : Nat}, LineBegins us a i →
      LineBegins us b i → ¬a < b := by
    intro a b ha hb hLt
    have hLe := hb.le
    rcases hb.after with hZero | hEnds
    · omega
    · exact ha.within (b - 1) (by omega) (by omega) hEnds
  have hLeft := hNotLt hFirst hSecond
  have hRight := hNotLt hSecond hFirst
  omega

end LineBegins

theorem columnAfter_concat
    (tabSize : Nat)
    (line : List Nat)
    (c : Nat) :
    columnAfter tabSize (line ++ [c]) =
      nextColumn tabSize (columnAfter tabSize line) c := by
  unfold columnAfter
  rw [List.foldl_append, List.foldl_cons, List.foldl_nil]

/- The next tab stop is a multiple of the tab size. -/
theorem column_tab
    {tabSize : Nat}
    (hPos : 0 < tabSize)
    (column : Nat) :
    column + (tabSize - column % tabSize) =
      (column / tabSize + 1) * tabSize := by
  have hLt := Nat.mod_lt column hPos
  have hDiv := Nat.div_add_mod' column tabSize
  rw [Nat.succ_mul]
  omega

theorem lt_nextColumn
    {tabSize : Nat}
    (hPos : 0 < tabSize)
    (column c : Nat) :
    column < nextColumn tabSize column c := by
  unfold nextColumn
  split
  · exact (Nat.div_lt_iff_lt_mul hPos).mp
      (Nat.lt_succ_self _)
  · exact Nat.lt_succ_self column

namespace Position

/- A unit begins a new line: a remembered line end is over. -/
def breaks
    (p : Position)
    (c : Nat) : Bool :=
  p.afterFeed || (p.afterReturn && c != 0x0a)

/- The column of a unit that stands behind a column. -/
def columnBehind
    (tabSize column : UInt32)
    (c : Nat) : UInt32 :=
  if c = 0x09 then column + (tabSize - column % tabSize)
  else column + 1

/- The line and the column of the next unit. -/
def nextPlace
    (p : Position)
    (c : Nat) : Position :=
  { line := if p.breaks c then p.line + 1 else p.line,
    column := columnBehind p.tabSize
      (if p.breaks c then 0 else p.column) c,
    afterReturn := c == 0x0d,
    afterFeed := c == 0x0a,
    tabSize := p.tabSize }

/- At most one kind of line end is remembered. -/
def Sound
    (p : Position) : Prop :=
  ¬(p.afterFeed = true ∧ p.afterReturn = true)

theorem sound_start
    (tabSize : Nat) :
    (start tabSize).Sound := by
  intro hBoth
  exact Bool.false_ne_true hBoth.1

theorem settle_eq
    {p : Position}
    (hSound : p.Sound)
    (c : Nat) :
    p.settle c =
      { line := if p.breaks c then p.line + 1 else p.line,
        column := (if p.breaks c then 0 else p.column) + 1,
        afterFeed := p.afterReturn && c == 0x0a,
        tabSize := p.tabSize } := by
  rcases p with ⟨line, column, afterReturn, afterFeed, tabSize⟩
  unfold settle breaks
  cases afterFeed with
  | true =>
      cases afterReturn with
      | true => exact absurd ⟨rfl, rfl⟩ hSound
      | false => rfl
  | false =>
      cases afterReturn with
      | true => cases hFeed : c == 0x0a <;> simp [bne, hFeed]
      | false => rfl

theorem advance_eq
    {p : Position}
    (hSound : p.Sound)
    (c : Nat) :
    p.advance c = p.nextPlace c := by
  unfold advance
  rw [settle_eq hSound c]
  unfold nextPlace columnBehind
  simp only [beq_iff_eq, UInt32.add_sub_cancel]
  by_cases hReturn : c = 0x0d
  · subst hReturn
    simp
  · by_cases hFeed : c = 0x0a
    · subst hFeed
      simp
    · by_cases hTab : c = 0x09
      · subst hTab
        simp
      · simp [hReturn, hFeed, hTab]

theorem sound_advance
    {p : Position}
    (hSound : p.Sound)
    (c : Nat) :
    (p.advance c).Sound := by
  rw [advance_eq hSound c]
  rintro ⟨hFeed, hReturn⟩
  have hFeed : c = 0x0a := beq_iff_eq.mp hFeed
  have hReturn : c = 0x0d := beq_iff_eq.mp hReturn
  omega

theorem sound_foldl
    {p : Position}
    (hSound : p.Sound)
    (us : List Nat) :
    (us.foldl advance p).Sound := by
  induction us generalizing p with
  | nil => exact hSound
  | cons c us ih => exact ih (sound_advance hSound c)

/- A tab size that fits is taken as it is, but for zero. -/
theorem toNat_tabSize_start
    {tabSize : Nat}
    (hFits : tabSize < 2 ^ 32) :
    (start tabSize).tabSize.toNat = max tabSize 1 := by
  unfold start
  rw [UInt32.toNat_max, UInt32.toNat_ofNat',
    Nat.mod_eq_of_lt hFits]
  rfl

/- The column of the next unit, if it fits. -/
theorem toNat_columnBehind
    {tabSize column c : Nat}
    {behind : UInt32}
    (hBehind : behind.toNat = column)
    (hFits : nextColumn (max tabSize 1) column c < 2 ^ 32) :
    (columnBehind (start tabSize).tabSize behind c).toNat =
      nextColumn (max tabSize 1) column c := by
  have hPos : 0 < max tabSize 1 :=
    Nat.lt_of_lt_of_le Nat.zero_lt_one
      (Nat.le_max_right tabSize 1)
  unfold nextColumn at hFits ⊢
  unfold columnBehind
  split at hFits
  · next hTab =>
      -- The next tab stop fits, so the tab size does.
      have hTabSize : tabSize < 2 ^ 32 := by
        refine Nat.lt_of_le_of_lt (Nat.le_max_left tabSize 1) ?_
        exact Nat.lt_of_le_of_lt
          (Nat.le_mul_of_pos_left _ (Nat.succ_pos _)) hFits
      have hSize := toNat_tabSize_start hTabSize
      have hLe : behind % (start tabSize).tabSize ≤
          (start tabSize).tabSize := by
        rw [UInt32.le_iff_toNat_le, UInt32.toNat_mod, hSize]
        exact Nat.le_of_lt (Nat.mod_lt _ hPos)
      rw [if_pos hTab, if_pos hTab, UInt32.toNat_add,
        UInt32.toNat_sub_of_le _ _ hLe, UInt32.toNat_mod, hSize,
        hBehind, column_tab hPos, Nat.mod_eq_of_lt hFits]
  · next hTab =>
      rw [if_neg hTab, if_neg hTab, UInt32.toNat_add, hBehind]
      exact Nat.mod_eq_of_lt hFits

end Position

------------------------------------------------------------
-- Positions in a text
------------------------------------------------------------

/- The position when the first units have been read. -/
def positionAfter
    (tabSize : Nat)
    (us : List Nat)
    (i : Nat) : Position :=
  (us.take i).foldl Position.advance (.start tabSize)

theorem getElem?_placeUnits
    (p : Position)
    (us : List Nat)
    (i : Nat) :
    (placeUnits p us)[i]? =
      us[i]?.map
        ((us.take (i + 1)).foldl Position.advance p).tag := by
  induction us generalizing p i with
  | nil => rfl
  | cons c us ih =>
      cases i with
      | zero => rfl
      | succ i => exact ih (p.advance c) i

section Places

variable (tabSize : Nat)
variable {us : List Nat}
variable {i c : Nat}

theorem sound_positionAfter
    (us : List Nat)
    (i : Nat) :
    (positionAfter tabSize us i).Sound :=
  Position.sound_foldl (Position.sound_start tabSize) _

theorem take_succ_of_unit
    (hUnit : us[i]? = some c) :
    us.take (i + 1) = us.take i ++ [c] := by
  rw [List.take_add_one, hUnit]
  rfl

/- More units advance the position. -/
theorem positionAfter_add
    (us : List Nat)
    (i n : Nat) :
    positionAfter tabSize us (i + n) =
      ((us.drop i).take n).foldl Position.advance
        (positionAfter tabSize us i) := by
  unfold positionAfter
  rw [List.take_add, List.foldl_append]

theorem positionAfter_advance
    (hUnit : us[i]? = some c) :
    positionAfter tabSize us (i + 1) =
      (positionAfter tabSize us i).advance c := by
  unfold positionAfter
  rw [take_succ_of_unit hUnit, List.foldl_append]
  rfl

theorem positionAfter_succ
    (hUnit : us[i]? = some c) :
    positionAfter tabSize us (i + 1) =
      (positionAfter tabSize us i).nextPlace c := by
  rw [positionAfter_advance tabSize hUnit]
  exact Position.advance_eq
    (sound_positionAfter tabSize us i) c

/- The place of a unit is the position behind it. -/
theorem placeUnits_of_unit
    (hUnit : us[i]? = some c) :
    (placeUnits (.start tabSize) us)[i]? =
      some (((positionAfter tabSize us i).advance c).tag c) := by
  rw [getElem?_placeUnits, hUnit,
    ← positionAfter_advance tabSize hUnit]
  rfl

theorem tabSize_positionAfter
    (hUnit : us[i]? = some c) :
    (positionAfter tabSize us i).tabSize =
      (Position.start tabSize).tabSize := by
  induction i generalizing c with
  | zero => rfl
  | succ i ih =>
      rcases List.getElem?_eq_some_iff.mp hUnit with ⟨hLt, -⟩
      have hBefore := List.getElem?_eq_getElem
        (Nat.lt_of_succ_lt hLt)
      rw [positionAfter_succ tabSize hBefore]
      exact ih hBefore

/- A new line begins exactly behind the end of a line. -/
theorem breaks_iff_endsLine
    {d : Nat}
    (hUnit : us[i]? = some c)
    (hNext : us[i + 1]? = some d) :
    (positionAfter tabSize us (i + 1)).breaks d = true ↔
      EndsLine us i := by
  rw [positionAfter_succ tabSize hUnit]
  unfold Position.breaks Position.nextPlace EndsLine
  rw [hUnit, hNext]
  simp

/- The line and the column of a position behind a unit. -/
structure StandsAt
    (us : List Nat)
    (i : Nat)
    (p : Position) : Prop where
  line : p.line = UInt32.ofNat (1 + lineEnds us i)
  column : ∃ s,
    LineBegins us s i ∧
      (columnAfter (max tabSize 1)
          ((us.take (i + 1)).drop s) < 2 ^ 32 →
        p.column.toNat =
          columnAfter (max tabSize 1)
            ((us.take (i + 1)).drop s))

/- Reading a unit behind a unit. -/
theorem StandsAt.succ
    {d : Nat}
    (hUnit : us[i]? = some c)
    (hNext : us[i + 1]? = some d)
    (hStands : StandsAt tabSize us i
      (positionAfter tabSize us (i + 1))) :
    StandsAt tabSize us (i + 1)
      (positionAfter tabSize us (i + 2)) := by
  rcases List.getElem?_eq_some_iff.mp hNext with ⟨hLt, -⟩
  have hLength : (us.take (i + 1)).length = i + 1 :=
    List.length_take_of_le (Nat.le_of_lt hLt)
  rw [positionAfter_succ tabSize hNext]
  unfold Position.nextPlace
  rw [tabSize_positionAfter tabSize hNext]
  by_cases hEnds : EndsLine us i
  · have hBreaks :=
      (breaks_iff_endsLine tabSize hUnit hNext).mpr hEnds
    refine ⟨?_, i + 1, LineBegins.of_endsLine hEnds, ?_⟩
    · show (if _ then _ else _) = _
      rw [if_pos hBreaks, hStands.line, lineEnds_succ,
        if_pos hEnds, ← Nat.add_assoc, UInt32.ofNat_add _ 1]
      rfl
    · show _ < _ → (Position.columnBehind _
        (if _ then _ else _) d).toNat = _
      rw [if_pos hBreaks, take_succ_of_unit hNext,
        List.drop_append_of_le_length (Nat.le_of_eq hLength.symm),
        columnAfter_concat,
        List.drop_of_length_le (Nat.le_of_eq hLength)]
      exact Position.toNat_columnBehind rfl
  · have hBreaks : ¬_ = true := fun hBreaks => hEnds
      ((breaks_iff_endsLine tabSize hUnit hNext).mp hBreaks)
    rcases hStands.column with ⟨s, hBegins, hColumn⟩
    have hLe := hBegins.le
    refine ⟨?_, s, hBegins.succ hEnds, ?_⟩
    · show (if _ then _ else _) = _
      rw [if_neg hBreaks, hStands.line, lineEnds_succ,
        if_neg hEnds, Nat.add_zero]
    · show _ < _ → (Position.columnBehind _
        (if _ then _ else _) d).toNat = _
      rw [if_neg hBreaks, take_succ_of_unit hNext,
        List.drop_append_of_le_length (by omega),
        columnAfter_concat]
      intro hFits
      have hBefore := Nat.lt_trans (lt_nextColumn
        (Nat.lt_of_lt_of_le Nat.zero_lt_one
          (Nat.le_max_right tabSize 1)) _ d) hFits
      exact Position.toNat_columnBehind (hColumn hBefore) hFits

end Places

------------------------------------------------------------
-- Reading a text
------------------------------------------------------------

/- The end of a line is a unit of its line. -/
example :
    (placeUnits (.start 4) [0x61, 0x0d, 0x0a, 0x09, 0x62]).map
        (fun u => (u.line, u.column)) =
      [(1, 1), (1, 2), (1, 3), (2, 4), (2, 5)] := by
  decide

end Descent
