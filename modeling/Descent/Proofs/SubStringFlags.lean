import Descent.Proofs.CaseLabels

/-
  Literals that are flagged because another one may extend them.

  The flags compare spellings, and the table compares the keys
  of their characters.  With the option to ignore case, two
  characters have the same key if their lower case forms agree,
  but are spelled alike only if one is a case form of the
  other.  Where a section ignores case and the option is not
  set, the keys of a character are its case forms, and the
  spellings are still compared with regard to case.  So the
  flags are right where case counts, and with the option for
  characters whose case forms come in pairs, as in ASCII.

  Main declarations:
    * `LiteralTable.Together` and `LiteralTable.FlagsMatch`
    * `LiteralTable.isExtended_iff_beginsBy`
    * `LiteralTable.exists_together_iff`
    * `LiteralTable.flagsMatch_build_iff`
    * `LiteralTable.flagsMatch_build_sensitive` and
      `LiteralTable.flagsMatch_build_paired`
-/

------------------------------------------------------------
-- Flags and literals that are alive together
------------------------------------------------------------

namespace Descent

open Text (lowerUnit upperUnit)

namespace LiteralTable

/-
  Through some characters two literals go on together; with
  the last one the first literal ends, and the other one goes
  on or ends as well.
-/
structure Together
    (t : LiteralTable)
    (k k' : Kind)
    (u : List Nat) : Prop where
  before :
    ∀ p c, p + 1 < u.length → u[p]? = some c →
      ∃ e, t.kindInfo? p c = some e ∧
        e.2.alive.contains k = true ∧
        e.2.alive.contains k' = true
  last :
    ∀ p c, p + 1 = u.length → u[p]? = some c →
      ∃ e, t.kindInfo? p c = some e ∧
        e.2.ended.contains k = true ∧
        (e.2.alive.contains k' = true ∨
          e.2.ended.contains k' = true)

/- The flagged literals are those that end while another is alive. -/
def FlagsMatch
    (t : LiteralTable) : Prop :=
  ∀ l ∈ t.literals,
    t.isSubString l.kind = true ↔
      ∃ l' ∈ t.literals, l'.kind ≠ l.kind ∧
        ∃ u, u.length = l.image.length ∧
          t.Together l.kind l'.kind u

------------------------------------------------------------
-- Two ways to compare characters
------------------------------------------------------------

/- Characters of two literals stand under one key. -/
def SharesKey
    (allIgnoreCase literalsIgnoreCase : Bool)
    (c d : Nat) : Prop :=
  ∃ key, key ∈ keysOf allIgnoreCase literalsIgnoreCase d ∧
    key ∈ keysOf allIgnoreCase literalsIgnoreCase c

/- A character is spelled like another, or in one of its case forms. -/
def LooksLike
    (allIgnoreCase : Bool)
    (c d : Nat) : Prop :=
  c = d ∨ (allIgnoreCase = true ∧
    (lowerUnit d = c ∨ upperUnit d = c))

/- The characters of a shorter text compare with the longer one's. -/
def BeginsBy
    (R : Nat → Nat → Prop)
    (longer shorter : List Nat) : Prop :=
  ∀ (p : Nat) d, shorter[p]? = some d →
    ∃ c, longer[p]? = some c ∧ R c d

theorem BeginsBy.imp
    {R R' : Nat → Nat → Prop}
    {longer shorter : List Nat}
    (hImp : ∀ c ∈ longer, ∀ d ∈ shorter, R c d → R' c d)
    (hBegins : BeginsBy R longer shorter) :
    BeginsBy R' longer shorter := by
  intro p d hd
  rcases hBegins p d hd with ⟨c, hc, hR⟩
  exact ⟨c, hc, hImp c (List.mem_of_getElem? hc) d
    (List.mem_of_getElem? hd) hR⟩

theorem beginsBy_eq_iff
    (longer shorter : List Nat) :
    BeginsBy Eq longer shorter ↔ shorter <+: longer := by
  rw [List.prefix_iff_getElem?]
  constructor
  · intro hBegins i hi
    rcases hBegins i _ (List.getElem?_eq_getElem hi) with
      ⟨c, hc, rfl⟩
    exact hc
  · intro hPrefix p d hd
    rcases List.getElem?_eq_some_iff.mp hd with ⟨hp, rfl⟩
    exact ⟨_, hPrefix p hp, rfl⟩

theorem beginsLike_iff
    (longer shorter : List Nat) :
    beginsLike longer shorter = true ↔
      BeginsBy (LooksLike true) longer shorter := by
  unfold beginsLike
  simp only [Bool.and_eq_true, decide_eq_true_eq,
    List.all_eq_true, Bool.or_eq_true, beq_iff_eq]
  constructor
  · rintro ⟨hLength, hAll⟩ p d hd
    have hp := (List.getElem?_eq_some_iff.mp hd).1
    have hThere : ∃ c, longer[p]? = some c :=
      ⟨_, List.getElem?_eq_getElem (hp.trans_le hLength)⟩
    rcases hThere with ⟨c, hc⟩
    have hZip : (longer.zip shorter)[p]? = some (c, d) :=
      List.getElem?_zip_eq_some.mpr ⟨hc, hd⟩
    refine ⟨c, hc, ?_⟩
    rcases hAll _ (List.mem_of_getElem? hZip) with
      (hSame | hLower) | hUpper
    · exact .inl hSame
    · exact .inr ⟨rfl, .inl hLower⟩
    · exact .inr ⟨rfl, .inr hUpper⟩
  · intro hBegins
    refine ⟨?_, fun e he => ?_⟩
    · by_contra hShort
      rcases hBegins longer.length _
          (List.getElem?_eq_getElem (not_le.mp hShort)) with
        ⟨c, hc, -⟩
      rw [List.getElem?_eq_none le_rfl] at hc
      cases hc
    · rcases List.mem_iff_getElem?.mp he with ⟨p, hp⟩
      rcases List.getElem?_zip_eq_some.mp hp with ⟨hc, hd⟩
      rcases hBegins p _ hd with ⟨c, hc', hLooks⟩
      rw [hc, Option.some_inj] at hc'
      subst hc'
      rcases hLooks with hSame | ⟨-, hLower | hUpper⟩
      · exact .inl (.inl hSame)
      · exact .inl (.inr hLower)
      · exact .inr hUpper

/- A literal is extended by one that is spelled like it at first. -/
theorem isExtended_iff_beginsBy
    (literals : List Literal)
    (allIgnoreCase : Bool)
    (lit : Literal) :
    isExtended literals allIgnoreCase lit = true ↔
      ∃ other ∈ literals, other.kind ≠ lit.kind ∧
        BeginsBy (LooksLike allIgnoreCase) other.image
          lit.image := by
  have hSensitive : ∀ c d, LooksLike false c d ↔ c = d :=
    fun c d => or_iff_left fun h => Bool.false_ne_true h.1
  unfold isExtended
  simp only [List.any_eq_true, Bool.and_eq_true, bne_iff_ne,
    Bool.or_eq_true, List.isPrefixOf_iff_prefix,
    beginsLike_iff, ← beginsBy_eq_iff]
  refine exists_congr fun other => and_congr_right fun _ =>
    and_congr_right fun _ => ?_
  cases allIgnoreCase with
  | false =>
      constructor
      · rintro (hSame | ⟨hNot, -⟩)
        · exact hSame.imp fun c _ d _ h => (hSensitive c d).mpr h
        · cases hNot
      · exact fun hLooks => .inl
          (hLooks.imp fun c _ d _ h => (hSensitive c d).mp h)
  | true =>
      constructor
      · rintro (hSame | ⟨-, hLooks⟩)
        · exact hSame.imp fun c _ d _ h => .inl h
        · exact hLooks
      · exact fun hLooks => .inr ⟨rfl, hLooks⟩

------------------------------------------------------------
-- Literals in the entries of the table
------------------------------------------------------------

section Built

variable {literals : List Literal} {ignoreCase mixed : Bool}

/- A literal stands in the entries of its keys. -/
theorem contains_part
    {l : Literal}
    (hl : l ∈ (build literals ignoreCase mixed).literals)
    {pos key : Nat}
    (hKey : HasKey ignoreCase l pos key)
    (last : Bool)
    (hLast : last = decide (pos + 1 = l.image.length)) :
    ((infoAt (build literals ignoreCase mixed).entries pos
      key).part last).contains l.kind = true :=
  (mem_part_build literals ignoreCase mixed pos key last
    l.kind).mpr ⟨l, hl, rfl, hKey, hLast⟩

/- A character with an entry is looked up as itself. -/
theorem kindInfo?_of_contains
    {t : LiteralTable}
    {pos c k : Nat}
    {b : Bool}
    (hContains : ((infoAt t.entries pos c).part b).contains k =
      true) :
    t.kindInfo? pos c = some (c, infoAt t.entries pos c) := by
  rcases exists_get?_of_contains hContains with
    ⟨table, hTable, hGet⟩
  simp [kindInfo?, hTable, hGet]

theorem kindInfo?_of_hasKey
    {l : Literal}
    (hl : l ∈ (build literals ignoreCase mixed).literals)
    {pos key : Nat}
    (hKey : HasKey ignoreCase l pos key) :
    (build literals ignoreCase mixed).kindInfo? pos key =
      some (key,
        infoAt (build literals ignoreCase mixed).entries pos
          key) :=
  kindInfo?_of_contains (contains_part hl hKey _ rfl)

section Distinct

variable (hKinds :
  ((build literals ignoreCase mixed).literals.map
    (·.kind)).Nodup)

include hKinds in
/- A literal that stands in an entry has its key. -/
theorem hasKey_of_contains
    {l : Literal}
    (hl : l ∈ (build literals ignoreCase mixed).literals)
    {pos c : Nat}
    {e : Nat × KindInfo}
    (hInfo : (build literals ignoreCase mixed).kindInfo? pos c =
      some e)
    (last : Bool)
    (hContains : (e.2.part last).contains l.kind = true) :
    HasKey ignoreCase l pos e.1 := by
  rcases (hasKey_of_kindInfo? hInfo hContains).1 with
    ⟨l', hl', hKind, hKey, -⟩
  rwa [List.inj_on_of_nodup_map hKinds hl' hl hKind] at hKey

include hKinds in
/-
  Two literals are alive together to the end of the first one
  exactly if their characters up to there share keys.
-/
theorem exists_together_iff
    {l l' : Literal}
    (hl : l ∈ (build literals ignoreCase mixed).literals)
    (hl' : l' ∈ (build literals ignoreCase mixed).literals) :
    (∃ u, u.length = l.image.length ∧
        (build literals ignoreCase mixed).Together l.kind
          l'.kind u) ↔
      ∀ p < l.image.length, ∃ key,
        HasKey ignoreCase l p key ∧
          HasKey ignoreCase l' p key := by
  constructor
  · rintro ⟨u, hLength, hTogether⟩ p hp
    have hGet := List.getElem?_eq_getElem (l := u)
      (hLength.symm ▸ hp)
    rcases Nat.lt_or_eq_of_le (Nat.succ_le_of_lt hp) with
      hBefore | hLast
    · rcases hTogether.before p _ (hLength.symm ▸ hBefore)
          hGet with ⟨e, hInfo, hFirst, hSecond⟩
      exact ⟨e.1,
        hasKey_of_contains hKinds hl hInfo false hFirst,
        hasKey_of_contains hKinds hl' hInfo false hSecond⟩
    · rcases hTogether.last p _ (hLast.trans hLength.symm)
          hGet with ⟨e, hInfo, hFirst, hSecond⟩
      refine ⟨e.1,
        hasKey_of_contains hKinds hl hInfo true hFirst, ?_⟩
      rcases hSecond with hAlive | hEnded
      · exact hasKey_of_contains hKinds hl' hInfo false hAlive
      · exact hasKey_of_contains hKinds hl' hInfo true hEnded
  · intro hKeys
    choose! key hKey hKey' using hKeys
    -- The text is made of one shared key for each position.
    refine ⟨(List.range l.image.length).map key, by simp, ?_, ?_⟩
    · intro p c hBefore hc
      rw [List.length_map, List.length_range] at hBefore
      have hp := Nat.lt_of_succ_lt hBefore
      rw [List.getElem?_map, List.getElem?_range hp] at hc
      cases hc
      have hLonger := (hKey' (p + 1) hBefore).lt_length
      exact ⟨_, kindInfo?_of_hasKey hl (hKey p hp),
        contains_part hl (hKey p hp) false
          (decide_eq_false hBefore.ne).symm,
        contains_part hl' (hKey' p hp) false
          (decide_eq_false hLonger.ne).symm⟩
    · intro p c hLast hc
      rw [List.length_map, List.length_range] at hLast
      have hp := Nat.lt_of_succ_le hLast.le
      rw [List.getElem?_map, List.getElem?_range hp] at hc
      cases hc
      refine ⟨_, kindInfo?_of_hasKey hl (hKey p hp),
        contains_part hl (hKey p hp) true
          (decide_eq_true hLast).symm, ?_⟩
      by_cases hEnd : p + 1 = l'.image.length
      · exact .inr (contains_part hl' (hKey' p hp) true
          (decide_eq_true hEnd).symm)
      · exact .inl (contains_part hl' (hKey' p hp) false
          (decide_eq_false hEnd).symm)

end Distinct

/- Characters that share keys are compared as the table does. -/
theorem beginsBy_sharesKey_iff
    {literalsIgnoreCase : Bool}
    {l l' : Literal}
    (hFlag : l.ignoreCase = literalsIgnoreCase)
    (hFlag' : l'.ignoreCase = literalsIgnoreCase) :
    BeginsBy (SharesKey ignoreCase literalsIgnoreCase) l'.image
        l.image ↔
      ∀ p < l.image.length, ∃ key,
        HasKey ignoreCase l p key ∧
          HasKey ignoreCase l' p key := by
  unfold HasKey
  rw [hFlag, hFlag']
  constructor
  · intro hBegins p hp
    have hd := List.getElem?_eq_getElem hp
    rcases hBegins p _ hd with ⟨c, hc, key, hKey, hKey'⟩
    exact ⟨key, ⟨_, hd, hKey⟩, ⟨c, hc, hKey'⟩⟩
  · intro hKeys p d hd
    rcases hKeys p (List.getElem?_eq_some_iff.mp hd).1 with
      ⟨key, ⟨d', hd', hKey⟩, ⟨c, hc, hKey'⟩⟩
    rw [hd, Option.some_inj] at hd'
    subst hd'
    exact ⟨c, hc, key, hKey, hKey'⟩

/-
  The flags match exactly if both ways to compare characters
  find an extension of the same literals.
-/
theorem flagsMatch_iff
    {literalsIgnoreCase : Bool}
    (hKinds : (literals.map (·.kind)).Nodup)
    (hFlags : ∀ l ∈ literals, l.ignoreCase = literalsIgnoreCase) :
    (build literals ignoreCase false).FlagsMatch ↔
      ∀ l ∈ (build literals ignoreCase false).literals,
        (∃ l' ∈ (build literals ignoreCase false).literals,
            l'.kind ≠ l.kind ∧
              BeginsBy (LooksLike ignoreCase) l'.image
                l.image) ↔
          ∃ l' ∈ (build literals ignoreCase false).literals,
            l'.kind ≠ l.kind ∧
              BeginsBy (SharesKey ignoreCase literalsIgnoreCase)
                l'.image l.image := by
  have hHere := nodup_kinds_build hKinds ignoreCase false
  have hFlag := fun l hl => hFlags l
    ((mem_literals_build literals ignoreCase false l).mp hl).1
  refine forall₂_congr fun l hl => iff_congr ?_ ?_
  · rw [isSubString_build, ← isExtended_iff_beginsBy]
    constructor
    · rintro ⟨l', hl', hKind, hMixed | hExtended⟩
      · cases hMixed
      · rwa [List.inj_on_of_nodup_map hHere hl' hl hKind]
          at hExtended
    · exact fun hExtended => ⟨l, hl, rfl, .inr hExtended⟩
  · refine exists_congr fun l' => and_congr_right fun hl' =>
      and_congr_right fun _ => ?_
    rw [exists_together_iff hHere hl hl',
      beginsBy_sharesKey_iff (hFlag l hl) (hFlag l' hl')]

/- Literals of characters that compare alike have the right flags. -/
theorem flagsMatch_of_agree
    {literalsIgnoreCase : Bool}
    {chars : Set Nat}
    (hKinds : (literals.map (·.kind)).Nodup)
    (hChars : ∀ l ∈ literals, l.ignoreCase = literalsIgnoreCase ∧
      ∀ c ∈ l.image, c ∈ chars)
    (hSame : ∀ c ∈ chars, ∀ d ∈ chars,
      SharesKey ignoreCase literalsIgnoreCase c d ↔
        LooksLike ignoreCase c d) :
    (build literals ignoreCase false).FlagsMatch := by
  refine (flagsMatch_iff hKinds fun l hl =>
    (hChars l hl).1).mpr fun l hl => ?_
  have hInside : ∀ l' ∈ (build literals ignoreCase
      false).literals, ∀ c ∈ l'.image, c ∈ chars :=
    fun l' hl' => (hChars l'
      ((mem_literals_build _ _ _ l').mp hl').1).2
  refine exists_congr fun l' => and_congr_right fun hl' =>
    and_congr_right fun _ => ⟨?_, ?_⟩
  · exact fun hLooks => hLooks.imp fun c hc d hd =>
      (hSame c (hInside l' hl' c hc) d
        (hInside l hl d hd)).mpr
  · exact fun hShares => hShares.imp fun c hc d hd =>
      (hSame c (hInside l' hl' c hc) d
        (hInside l hl d hd)).mp

end Built

/- A character as a literal, and another one that may extend it. -/
def ofTwo
    (literalsIgnoreCase : Bool)
    (c d : Nat) : List Literal :=
  [⟨0, [d], literalsIgnoreCase⟩, ⟨1, [c], literalsIgnoreCase⟩]

/- Of two characters, one extends the other if they compare. -/
theorem exists_beginsBy_ofTwo_iff
    (allIgnoreCase literalsIgnoreCase : Bool)
    (c d : Nat)
    (R : Nat → Nat → Prop) :
    (∃ l' ∈ (build (ofTwo literalsIgnoreCase c d) allIgnoreCase
          false).literals,
        l'.kind ≠ 0 ∧ BeginsBy R l'.image [d]) ↔
      R c d := by
  constructor
  · rintro ⟨l', hl', hOther, hBegins⟩
    have hMem := ((mem_literals_build _ _ _ l').mp hl').1
    rcases List.mem_pair.mp hMem with rfl | rfl
    · exact absurd rfl hOther
    · rcases hBegins 0 d rfl with ⟨c', hc', hR⟩
      cases hc'
      exact hR
  · intro hR
    refine ⟨⟨1, [c], literalsIgnoreCase⟩,
      (mem_literals_build _ _ _ _).mpr ⟨by simp [ofTwo], by simp⟩,
      Nat.one_ne_zero, ?_⟩
    rintro (- | p) d' hd'
    · cases hd'
      exact ⟨c, rfl, hR⟩
    · cases hd'

/-
  For all literals of some characters the flags match exactly
  if any two of these characters share a key just when one of
  them is spelled like the other.
-/
theorem flagsMatch_build_iff
    (allIgnoreCase literalsIgnoreCase : Bool)
    (chars : Set Nat) :
    (∀ literals : List Literal,
        (literals.map (·.kind)).Nodup →
        (∀ l ∈ literals, l.ignoreCase = literalsIgnoreCase ∧
          ∀ c ∈ l.image, c ∈ chars) →
        (build literals allIgnoreCase false).FlagsMatch) ↔
      ∀ c ∈ chars, ∀ d ∈ chars,
        SharesKey allIgnoreCase literalsIgnoreCase c d ↔
          LooksLike allIgnoreCase c d := by
  constructor
  · -- Two literals of one character each tell them apart.
    intro hMatch c hc d hd
    have hKinds : ((ofTwo literalsIgnoreCase c d).map
        (·.kind)).Nodup := by
      simp [ofTwo]
    have hFlags : ∀ l ∈ ofTwo literalsIgnoreCase c d,
        l.ignoreCase = literalsIgnoreCase := by
      simp [ofTwo]
    have hPair := hMatch _ hKinds (by simp [ofTwo, hc, hd])
    have hIff := (flagsMatch_iff hKinds hFlags).mp hPair
      ⟨0, [d], literalsIgnoreCase⟩
      ((mem_literals_build _ _ _ _).mpr ⟨by simp [ofTwo], by simp⟩)
    rw [exists_beginsBy_ofTwo_iff, exists_beginsBy_ofTwo_iff]
      at hIff
    exact hIff.symm
  · exact fun hSame literals hKinds hChars =>
      flagsMatch_of_agree hKinds hChars hSame

/- In a section that ignores case, `A` is not flagged before `ab`. -/
example :
    (build [⟨1, [0x41], true⟩, ⟨2, [0x61, 0x62], true⟩] false
      false).isSubString 1 = false := by
  cbv

------------------------------------------------------------
-- Characters that are compared alike
------------------------------------------------------------

end LiteralTable

namespace Text

/- A character has no case forms but its lower and its upper one. -/
structure Paired
    (c : Nat) : Prop where
  either : lowerUnit c = c ∨ upperUnit (lowerUnit c) = c
  upper : upperUnit (lowerUnit c) = upperUnit c
  lower : lowerUnit (upperUnit c) = lowerUnit c

theorem paired_of_ascii
    {c : Nat}
    (hAscii : c < 128) :
    Paired c := by
  have hTable : ∀ c < 128,
      (lowerUnit c = c ∨ upperUnit (lowerUnit c) = c) ∧
        upperUnit (lowerUnit c) = upperUnit c ∧
        lowerUnit (upperUnit c) = lowerUnit c := by
    decide +kernel
  rcases hTable c hAscii with ⟨hEither, hUpper, hLower⟩
  exact ⟨hEither, hUpper, hLower⟩

/- Such characters are alike if one is a case form of the other. -/
theorem lowerUnit_eq_iff_of_paired
    {c d : Nat}
    (hc : Paired c)
    (hd : Paired d) :
    lowerUnit c = lowerUnit d ↔
      c = d ∨ lowerUnit d = c ∨ upperUnit d = c := by
  constructor
  · intro hSame
    rcases hc.either with hLower | hUpper
    · exact .inr (.inl (hSame.symm.trans hLower))
    · refine .inr (.inr ?_)
      rw [← hd.upper, ← hSame, hUpper]
  · rintro (rfl | rfl | rfl)
    · rfl
    · exact lowerUnit_lowerUnit d
    · exact hd.lower

end Text

namespace LiteralTable

section Agree

variable {literals : List Literal}

/- Where case counts the flags are right. -/
theorem flagsMatch_build_sensitive
    (hKinds : (literals.map (·.kind)).Nodup)
    (hFlags : ∀ l ∈ literals, l.ignoreCase = false) :
    (build literals false false).FlagsMatch := by
  have hSame : ∀ c ∈ Set.univ, ∀ d ∈ Set.univ,
      SharesKey false false c d ↔ LooksLike false c d := by
    intro c _ d _
    simp [SharesKey, LooksLike, keysOf, eq_comm]
  exact flagsMatch_of_agree hKinds
    (fun l hl => ⟨hFlags l hl, fun c _ => Set.mem_univ c⟩) hSame

/- With the option to ignore case they are right for such characters. -/
theorem flagsMatch_build_paired
    {literalsIgnoreCase : Bool}
    (hKinds : (literals.map (·.kind)).Nodup)
    (hFlags : ∀ l ∈ literals, l.ignoreCase = literalsIgnoreCase)
    (hPaired : ∀ l ∈ literals, ∀ c ∈ l.image, Text.Paired c) :
    (build literals true false).FlagsMatch := by
  have hSame : ∀ c ∈ { c | Text.Paired c },
      ∀ d ∈ { c | Text.Paired c },
        SharesKey true literalsIgnoreCase c d ↔
          LooksLike true c d := by
    intro c hc d hd
    have hAlike := Text.lowerUnit_eq_iff_of_paired hc hd
    simpa [SharesKey, LooksLike, keysOf, eq_comm] using hAlike
  exact flagsMatch_of_agree hKinds
    (fun l hl => ⟨hFlags l hl, hPaired l hl⟩) hSame

theorem flagsMatch_build_ascii
    {literalsIgnoreCase : Bool}
    (hKinds : (literals.map (·.kind)).Nodup)
    (hFlags : ∀ l ∈ literals, l.ignoreCase = literalsIgnoreCase)
    (hAscii : ∀ l ∈ literals, ∀ c ∈ l.image, c < 128) :
    (build literals true false).FlagsMatch :=
  flagsMatch_build_paired hKinds hFlags fun l hl c hc =>
    Text.paired_of_ascii (hAscii l hl c hc)

end Agree

end LiteralTable

end Descent
