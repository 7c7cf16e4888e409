import Descent.Proofs.LiteralTable

/-
  The labels of generated code against the table of literals.

  Generated code tells characters apart by labels, and a
  scanner by looking them up.  Where case is ignored a key
  stands for its upper case form as well, whose lower case
  form need not be the key: then one label can stand in two
  blocks, and a label is not always looked up as its key.

  Main declarations:
    * `Text.lowerUnit_lowerUnit` and `Text.upperUnit_upperUnit`
    * `LiteralTable.mem_keys_build`
    * `LiteralTable.LabelsAgree`
    * `LiteralTable.labelsAgree_build_iff`
-/

------------------------------------------------------------
-- Case maps
------------------------------------------------------------

namespace Descent

namespace Text

/- The characters of a run. -/
def CaseRun.members
    (r : CaseRun) : List Nat :=
  (List.range ((r.last - r.first) / r.stride + 1)).map
    fun i => r.first + r.stride * i

/- The images of the characters of a run. -/
def CaseRun.images
    (r : CaseRun) : List Nat :=
  r.members.map fun (c : Nat) =>
    ((c : Int) + r.offset).toNat

theorem CaseRun.mem_of_image?
    {r : CaseRun}
    {c d : Nat}
    (hImage : r.image? c = some d) :
    c ∈ r.members ∧ d ∈ r.images := by
  unfold image? at hImage
  rw [Option.ite_none_right_eq_some, Option.some_inj] at hImage
  rcases hImage with ⟨⟨hFirst, hLast, hStride⟩, rfl⟩
  have hMember : c ∈ r.members := by
    refine List.mem_map.mpr ⟨(c - r.first) / r.stride, ?_, ?_⟩
    · have hLe : (c - r.first) / r.stride ≤
          (r.last - r.first) / r.stride :=
        Nat.div_le_div_right (Nat.sub_le_sub_right hLast _)
      exact List.mem_range.mpr (Nat.lt_succ_of_le hLe)
    · have hDivide := Nat.div_add_mod (c - r.first) r.stride
      omega
  exact ⟨hMember, List.mem_map_of_mem hMember⟩

theorem exists_of_runImage?
    {runs : List CaseRun}
    {c d : Nat}
    (hImage : runImage? runs c = some d) :
    ∃ r ∈ runs, r.image? c = some d := by
  induction runs with
  | nil => cases hImage
  | cons r runs ih =>
      unfold runImage? at hImage
      split at hImage
      · cases hImage
      · split at hImage
        · next d' hHere =>
            exact ⟨r, List.mem_cons_self, hHere.trans hImage⟩
        · rcases ih hImage with ⟨r', hr', hThere⟩
          exact ⟨r', List.mem_cons_of_mem r hr', hThere⟩

/- No image of the runs has an image itself. -/
def ImagesRest
    (runs : List CaseRun) : Prop :=
  ((KindSet.ofList (runs.flatMap (·.members))).inter
    (KindSet.ofList (runs.flatMap (·.images)))).isEmpty = true

/- Mapping a unit twice is mapping it once. -/
theorem mapUnit_mapUnit
    {runs : List CaseRun}
    (hRest : ImagesRest runs)
    (c : Nat) :
    mapUnit runs (mapUnit runs c) = mapUnit runs c := by
  cases hImage : runImage? runs c with
  | none =>
      have hSame : mapUnit runs c = c := by
        simp [mapUnit, hImage]
      rw [hSame, hSame]
  | some d =>
      by_cases hUnit : d ≤ maxUnit
      · have hHere : mapUnit runs c = d := by
          simp [mapUnit, hImage, hUnit]
        have hNone : runImage? runs d = none := by
          by_contra hSome
          rcases Option.ne_none_iff_exists'.mp hSome with
            ⟨e, hNext⟩
          rcases exists_of_runImage? hImage with ⟨r, hr, hFrom⟩
          rcases exists_of_runImage? hNext with ⟨r', hr', hTo⟩
          refine (KindSet.isEmpty_iff _).mp hRest d ?_
          simp only [KindSet.contains_inter,
            KindSet.contains_ofList, List.mem_flatMap]
          exact ⟨⟨r', hr', (CaseRun.mem_of_image? hTo).1⟩,
            ⟨r, hr, (CaseRun.mem_of_image? hFrom).2⟩⟩
        rw [hHere]
        simp [mapUnit, hNone]
      · have hSame : mapUnit runs c = c := by
          simp [mapUnit, hImage, hUnit]
        rw [hSame, hSame]

theorem lowerUnit_lowerUnit
    (c : Nat) :
    lowerUnit (lowerUnit c) = lowerUnit c := by
  have hRest : ImagesRest lowerRuns := by
    unfold ImagesRest
    decide +kernel
  exact mapUnit_mapUnit hRest c

theorem upperUnit_upperUnit
    (c : Nat) :
    upperUnit (upperUnit c) = upperUnit c := by
  have hRest : ImagesRest upperRuns := by
    unfold ImagesRest
    decide +kernel
  exact mapUnit_mapUnit hRest c

end Text

------------------------------------------------------------
-- Keys of the table
------------------------------------------------------------

open Text (lowerUnit upperUnit lowerUnit_lowerUnit
  upperUnit_upperUnit)

namespace LiteralTable

/- Every entry is there for some literal. -/
def Occupied
    (entries : Array (Assoc Nat KindInfo)) : Prop :=
  ∀ (pos : Nat) table, entries[pos]? = some table →
    ∀ e ∈ table, ∃ b k, (e.2.part b).contains k = true

section Built

variable {literals : List Literal} {ignoreCase mixed : Bool}

theorem occupied_build :
    Occupied (build literals ignoreCase mixed).entries := by
  refine throughout_build
    (P := fun i => ∃ b k, (i.part b).contains k = true) ?_
    literals ignoreCase mixed
  intro kind isLast info _
  exact ⟨isLast, kind,
    (contains_putInto _ _ info _ _).mpr (.inl ⟨rfl, rfl⟩)⟩

/- The keys of a position are those of some literals. -/
theorem exists_mem_build_iff
    (pos key : Nat) :
    (∃ info, (key, info) ∈
        (build literals ignoreCase mixed).entries.getD pos
          []) ↔
      ∃ l ∈ literals, HasKey ignoreCase l pos key := by
  have hEntries := mem_part_build literals ignoreCase mixed pos
    key
  constructor
  · rintro ⟨info, hMem⟩
    have hInfo := infoAt_of_mem
      (sorted_build literals ignoreCase mixed) hMem
    rw [Array.getD_eq_getD_getElem?] at hMem
    rcases hTable : (build literals ignoreCase
      mixed).entries[pos]? with - | table
    · simp [hTable] at hMem
    · rw [hTable] at hMem
      rcases occupied_build pos table hTable _ hMem with
        ⟨b, k, hContains⟩
      rw [← hInfo] at hContains
      rcases (hEntries b k).mp hContains with
        ⟨l, hl, -, hKey, -⟩
      exact ⟨l, ((mem_literals_build _ _ _ l).mp hl).1, hKey⟩
  · rintro ⟨l, hl, d, hGet, hKey⟩
    have hNonempty : l.image ≠ [] := by
      rintro hNil
      simp [hNil] at hGet
    exact exists_mem_of_contains ((hEntries _ l.kind).mpr
      ⟨l, (mem_literals_build _ _ _ l).mpr ⟨hl, hNonempty⟩,
        rfl, ⟨d, hGet, hKey⟩, rfl⟩)

/- The keys of a position ascend. -/
theorem ascending_build
    (pos : Nat) :
    Assoc.Ascending
      ((build literals ignoreCase mixed).entries.getD pos
        []) := by
  rw [Array.getD_eq_getD_getElem?]
  cases hTable :
      (build literals ignoreCase mixed).entries[pos]? with
  | none => exact Assoc.ascending_nil
  | some table =>
      exact sorted_build literals ignoreCase mixed pos table
        hTable

/- With the option to ignore case, keys are in lower case. -/
theorem lowerUnit_of_mem_build
    {pos : Nat}
    {e : Nat × KindInfo}
    (he : e ∈
      (build literals true mixed).entries.getD pos []) :
    lowerUnit e.1 = e.1 := by
  rcases (exists_mem_build_iff pos e.1).mp ⟨e.2, he⟩ with
    ⟨l, -, d, -, hKey⟩
  rw [List.mem_singleton.mp hKey, lowerUnit_lowerUnit]

end Built

------------------------------------------------------------
-- Labels and characters that are looked up
------------------------------------------------------------

/-
  At a position no label stands twice, and the characters that
  are looked up as a key are its labels.
-/
structure LabelsAgree
    (t : LiteralTable)
    (pos : Nat) : Prop where
  distinct :
    ((t.entries.getD pos []).flatMap fun e =>
      t.caseLabels e.1).Nodup
  lookup :
    ∀ c key info, t.kindInfo? pos c = some (key, info) ↔
      (key, info) ∈ t.entries.getD pos [] ∧
        c ∈ t.caseLabels key

section Positions

variable {t : LiteralTable} {pos : Nat}

/- A position without entries is looked up like an empty one. -/
theorem kindInfo?_eq
    (t : LiteralTable)
    (pos c : Nat) :
    t.kindInfo? pos c =
      match Assoc.get? c (t.entries.getD pos []) with
      | some info => some (c, info)
      | none =>
          if t.ignoreCase then
            [lowerUnit c, upperUnit c].findSome? fun key =>
              match Assoc.get? key (t.entries.getD pos []) with
              | some info =>
                  if upperUnit key == c ||
                      lowerUnit key == c then
                    some (key, info)
                  else none
              | none => none
          else
            none := by
  unfold kindInfo?
  rw [Array.getD_eq_getD_getElem?]
  cases t.entries[pos]? with
  | none => simp [Assoc.get?]
  | some table => rfl

theorem nodup_keys
    (hAscending : Assoc.Ascending (t.entries.getD pos [])) :
    ((t.entries.getD pos []).map (·.1)).Nodup :=
  hAscending.imp fun h => h.ne

/- Where case counts, a character is its only label. -/
theorem labelsAgree_of_sensitive
    (hSensitive : t.ignoreCase = false)
    (hAscending : Assoc.Ascending (t.entries.getD pos [])) :
    t.LabelsAgree pos where
  distinct := by
    simp only [caseLabels, hSensitive, Bool.false_eq_true,
      if_false]
    rw [← List.map_eq_flatMap]
    exact nodup_keys hAscending
  lookup c key info := by
    rw [kindInfo?_eq]
    simp only [hSensitive, caseLabels, Bool.false_eq_true,
      if_false, List.mem_singleton]
    constructor
    · intro hFound
      split at hFound
      · next info' hGet =>
          cases hFound
          exact ⟨Assoc.mem_of_get? hGet, rfl⟩
      · cases hFound
    · rintro ⟨hMem, rfl⟩
      rw [Assoc.get?_of_mem (nodup_keys hAscending) hMem]

section Caseless

variable (hIgnores : t.ignoreCase = true)
variable (hAscending : Assoc.Ascending (t.entries.getD pos []))
variable (hLower : ∀ e ∈ t.entries.getD pos [],
  lowerUnit e.1 = e.1)

include hIgnores hLower in
theorem mem_caseLabels_iff
    {e : Nat × KindInfo}
    (he : e ∈ t.entries.getD pos [])
    (c : Nat) :
    c ∈ t.caseLabels e.1 ↔ c = e.1 ∨ c = upperUnit e.1 := by
  simp only [caseLabels, hIgnores, hLower e he, if_true]
  by_cases hUpper : upperUnit e.1 = e.1
  · simp [hUpper]
  · simp [hUpper, or_comm]

include hIgnores hLower in
theorem nodup_caseLabels
    {e : Nat × KindInfo}
    (he : e ∈ t.entries.getD pos []) :
    (t.caseLabels e.1).Nodup := by
  simp only [caseLabels, hIgnores, hLower e he, if_true]
  by_cases hUpper : upperUnit e.1 = e.1
  · simp [hUpper]
  · simp [hUpper]

include hIgnores hAscending hLower in
/-
  A character is looked up as itself, or as its lower case
  form if it is the upper case form of that.
-/
theorem kindInfo?_eq_some_iff
    (c : Nat)
    (e : Nat × KindInfo) :
    t.kindInfo? pos c = some e ↔
      e ∈ t.entries.getD pos [] ∧
        (c = e.1 ∨ (e.1 = lowerUnit c ∧ upperUnit e.1 = c)) := by
  have hGet : ∀ key info,
      Assoc.get? key (t.entries.getD pos []) = some info ↔
        (key, info) ∈ t.entries.getD pos [] :=
    fun key info => ⟨Assoc.mem_of_get?,
      Assoc.get?_of_mem (nodup_keys hAscending)⟩
  rcases e with ⟨key, info⟩
  rw [kindInfo?_eq]
  cases hHere : Assoc.get? c (t.entries.getD pos []) with
  | some info' =>
      have hMem := (hGet c info').mp hHere
      constructor
      · intro hSome
        cases hSome
        exact ⟨hMem, .inl rfl⟩
      · rintro ⟨he, hCase⟩
        have hKey : key = c := by
          rcases hCase with rfl | ⟨hDown, -⟩
          · rfl
          · exact hDown.trans (hLower _ hMem)
        subst hKey
        rw [(hGet key info).mpr he, Option.some_inj] at hHere
        rw [hHere]
  | none =>
      -- The character is not a key itself.
      have hNot : ∀ info', (c, info') ∉ t.entries.getD pos [] := by
        intro info' hMem
        rw [(hGet c info').mpr hMem] at hHere
        cases hHere
      simp only [hIgnores, if_true]
      constructor
      · intro hFound
        rcases List.exists_of_findSome?_eq_some hFound with
          ⟨key', hKey', hMatch⟩
        split at hMatch
        · next info' hThere =>
            rw [Option.ite_none_right_eq_some, Bool.or_eq_true,
              beq_iff_eq, beq_iff_eq] at hMatch
            rcases hMatch with ⟨hBack, hSome⟩
            cases hSome
            have hMem := (hGet _ _).mp hThere
            have hSame := hLower _ hMem
            dsimp only at hSame
            refine ⟨hMem, ?_⟩
            rcases hBack with rfl | hLow
            · rcases List.mem_pair.mp hKey' with hDown | hUp
              · exact .inr ⟨hDown, rfl⟩
              · rw [upperUnit_upperUnit] at hUp
                exact .inl hUp.symm
            · exact .inl (hLow.symm.trans hSame)
        · cases hMatch
      · rintro ⟨he, rfl | ⟨hDown, hUp⟩⟩
        · exact absurd he (hNot info)
        · rw [← hDown, List.findSome?_cons,
            (hGet key info).mpr he]
          simp [hUp]

include hIgnores hAscending hLower in
/- Where case is ignored, case forms must lead back. -/
theorem labelsAgree_iff :
    t.LabelsAgree pos ↔ ∀ e ∈ t.entries.getD pos [],
      lowerUnit (upperUnit e.1) = e.1 := by
  have hLabels := fun e he =>
    @mem_caseLabels_iff t pos hIgnores hLower e he
  have hLookup :=
    kindInfo?_eq_some_iff hIgnores hAscending hLower
  constructor
  · intro hAgree e he
    have hUpper := (hAgree.lookup (upperUnit e.1) e.1 e.2).mpr
      ⟨he, (hLabels e he _).mpr (.inr rfl)⟩
    rcases ((hLookup _ _).mp hUpper).2 with hSame | hBack
    · rw [hSame, hLower e he]
    · exact hBack.1.symm
  · intro hBack
    constructor
    · refine List.nodup_flatMap.mpr ⟨fun e he => ?_, ?_⟩
      · exact nodup_caseLabels hIgnores hLower he
      · -- All labels of a key have the key as lower case form.
        have hDown : ∀ e ∈ t.entries.getD pos [],
            ∀ c ∈ t.caseLabels e.1, lowerUnit c = e.1 := by
          intro e he c hc
          rcases (hLabels e he c).mp hc with rfl | rfl
          · exact hLower e he
          · exact hBack e he
        have hKeys := List.pairwise_map.mp
          (nodup_keys hAscending)
        refine hKeys.imp_of_mem fun he he' hNe => ?_
        intro c hc hc'
        exact hNe ((hDown _ he c hc).symm.trans
          (hDown _ he' c hc'))
    · intro c key info
      rw [hLookup]
      refine and_congr_right fun he => ?_
      rw [hLabels _ he]
      refine or_congr_right ⟨fun h => h.2.symm, ?_⟩
      intro hUpper
      rw [hUpper]
      exact ⟨(hBack _ he).symm, rfl⟩

end Caseless

end Positions

/-
  The labels of a position agree with what is looked up there
  exactly if case counts or the case forms of all characters
  lead back: the lower case form of the upper case form of a
  character in lower case is this character.
-/
theorem labelsAgree_build_iff
    (literals : List Literal)
    (ignoreCase mixed : Bool)
    (pos : Nat) :
    (build literals ignoreCase mixed).LabelsAgree pos ↔
      (ignoreCase = true → ∀ l ∈ literals, ∀ d,
        l.image[pos]? = some d →
          lowerUnit (upperUnit (lowerUnit d)) =
            lowerUnit d) := by
  have hAscending := @ascending_build literals ignoreCase
    mixed pos
  have hKeys := fun key => @exists_mem_build_iff literals
    ignoreCase mixed pos key
  cases ignoreCase with
  | false =>
      simpa using labelsAgree_of_sensitive rfl hAscending
  | true =>
      simp only [HasKey, keysOf, if_true, List.mem_singleton]
        at hKeys
      have hLower : ∀ e ∈ (build literals true
          mixed).entries.getD pos [], lowerUnit e.1 = e.1 :=
        fun e he => lowerUnit_of_mem_build he
      refine (labelsAgree_iff rfl hAscending hLower).trans ?_
      constructor
      · intro hBack _ l hl d hGet
        rcases (hKeys (lowerUnit d)).mpr ⟨l, hl, d, hGet, rfl⟩
          with ⟨info, hMem⟩
        exact hBack _ hMem
      · intro hBack e he
        rcases (hKeys e.1).mp ⟨e.2, he⟩ with
          ⟨l, hl, d, hGet, hKey⟩
        rw [hKey]
        exact hBack rfl l hl d hGet

/- An s and a long s have the same upper case form. -/
example :
    ((build [⟨1, [0x73], false⟩, ⟨2, [0x17f], false⟩] true
        false).entries.getD 0 []).map
        (fun e => caseLabels { ignoreCase := true } e.1) =
      [[0x53, 0x73], [0x53, 0x17f]] := by
  cbv

end LiteralTable

end Descent
