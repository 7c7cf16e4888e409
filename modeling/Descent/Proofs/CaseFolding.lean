import Descent.Proofs.CharRanges
import Descent.Proofs.ResumeBuckets
import Descent.Proofs.SubStringFlags
import Mathlib.Data.List.Find

/-
  Tables of literals in which the case of characters is folded.

  Where the case forms of characters come in pairs, a unit is
  looked up in the table as one of the literals that have it
  up to case.  A map of units that takes the forms of each
  character together makes this a look-up by spelling: the
  literals that are mapped have a table in which case counts,
  with the same flags and the same knowledge of the automaton.

  Main declarations:
    * `LiteralTable.contains_kindInfo?_iff`
    * `LiteralTable.foldLiteral` and `LiteralTable.Folds`
    * `LiteralTable.subStrings_build_fold`
    * `LiteralTable.resumes_withResume_fold`
-/

------------------------------------------------------------
-- Case forms
------------------------------------------------------------

namespace Descent

open Text (caseVariants lowerUnit upperUnit Paired)

namespace Text

/- A character in a pair has two forms at most. -/
theorem Paired.mem_caseVariants_iff
    {c d : Nat}
    (hPaired : Paired d) :
    c ∈ caseVariants d ↔ c = lowerUnit d ∨ c = upperUnit d := by
  rw [Text.mem_caseVariants, or_iff_right_of_imp]
  intro hSame
  rcases hPaired.either with hLower | hUpper
  · exact .inl (hSame.trans hLower.symm)
  · rw [hPaired.upper] at hUpper
    exact .inr (hSame.trans hUpper.symm)

theorem Paired.lowerUnit_of_mem
    {c d : Nat}
    (hPaired : Paired d)
    (hForm : c ∈ caseVariants d) :
    lowerUnit c = lowerUnit d := by
  rcases hPaired.mem_caseVariants_iff.mp hForm with
    rfl | rfl
  · exact lowerUnit_lowerUnit d
  · exact hPaired.lower

end Text

------------------------------------------------------------
-- Looking units up
------------------------------------------------------------

namespace LiteralTable

section Built

variable {literals : List Literal} {ignoreCase mixed : Bool}

/- A key is one of the forms of a character. -/
theorem mem_keysOf_false_iff
    (literalIgnoresCase : Bool)
    (c d : Nat) :
    c ∈ keysOf false literalIgnoresCase d ↔
      c ∈ unitForms (literalIgnoresCase || false) d := by
  cases literalIgnoresCase <;> exact Iff.rfl

/- The upper case form of a character is looked up as its key. -/
theorem kindInfo?_upperUnit
    {l : Literal}
    (hl : l ∈ (build literals true mixed).literals)
    {pos d : Nat}
    (hGet : l.image[pos]? = some d)
    (hPaired : Paired d) :
    (build literals true mixed).kindInfo? pos (upperUnit d) =
      some (lowerUnit d,
        infoAt (build literals true mixed).entries pos
          (lowerUnit d)) := by
  have hKey : HasKey true l pos (lowerUnit d) :=
    ⟨d, hGet, List.mem_singleton.mpr rfl⟩
  rcases exists_mem_of_contains (contains_part hl hKey _ rfl)
    with ⟨info, hMem⟩
  have hInfo := infoAt_of_mem
    (sorted_build literals true mixed) hMem
  apply (kindInfo?_eq_some_iff rfl (ascending_build pos)
    (fun e he => lowerUnit_of_mem_build he) _ _).mpr
  rw [hInfo]
  exact ⟨hMem, .inr ⟨hPaired.lower.symm, hPaired.upper⟩⟩

/-
  A unit is looked up as one of the literals that have it, up
  to case if they ignore case.
-/
theorem contains_kindInfo?_iff
    (hPaired : ignoreCase = true →
      ∀ l ∈ literals, ∀ d ∈ l.image, Paired d)
    (pos c : Nat)
    (b : Bool)
    (k : Nat) :
    (((((build literals ignoreCase mixed).kindInfo? pos c).map
        Prod.snd).getD {}).part b).contains k = true ↔
      ∃ l ∈ literals, l.kind = k ∧
        (∃ d, l.image[pos]? = some d ∧
          c ∈ unitForms (l.ignoreCase || ignoreCase) d) ∧
        b = decide (pos + 1 = l.image.length) := by
  have hMem := mem_literals_build literals ignoreCase mixed
  constructor
  · intro hContains
    cases hInfo : (build literals ignoreCase mixed).kindInfo?
        pos c with
    | none =>
        rw [hInfo] at hContains
        cases b <;> simp [KindInfo.part] at hContains
    | some e =>
        rw [hInfo] at hContains
        rcases hasKey_of_kindInfo? hInfo hContains with
          ⟨⟨l, hl, hKind, ⟨d, hGet, hKey⟩, hLast⟩, hCase⟩
        have hHere := ((hMem l).mp hl).1
        refine ⟨l, hHere, hKind, ⟨d, hGet, ?_⟩, hLast⟩
        cases ignoreCase with
        | false =>
            have hSame : e.1 = c := by simpa using hCase
            rw [hSame] at hKey
            exact (mem_keysOf_false_iff _ c d).mp hKey
        | true =>
            have hPair := hPaired rfl l hHere d
              (List.mem_of_getElem? hGet)
            have hLower : e.1 = lowerUnit d :=
              List.mem_singleton.mp hKey
            rw [Bool.or_true]
            apply hPair.mem_caseVariants_iff.mpr
            rw [hLower, Text.lowerUnit_lowerUnit,
              hPair.upper] at hCase
            rcases hCase with rfl | ⟨-, rfl | rfl⟩
            · exact .inl rfl
            · exact .inr rfl
            · exact .inl rfl
  · intro hSome
    rcases hSome with ⟨l, hHere, rfl, ⟨d, hGet, hForm⟩, hLast⟩
    have hl := (hMem l).mpr
      ⟨hHere, List.ne_nil_of_mem (List.mem_of_getElem? hGet)⟩
    cases ignoreCase with
    | false =>
        have hKey : HasKey false l pos c :=
          ⟨d, hGet, (mem_keysOf_false_iff _ c d).mpr hForm⟩
        rw [kindInfo?_of_hasKey hl hKey]
        exact contains_part hl hKey b hLast
    | true =>
        have hPair := hPaired rfl l hHere d
          (List.mem_of_getElem? hGet)
        have hKey : HasKey true l pos (lowerUnit d) :=
          ⟨d, hGet, List.mem_singleton.mpr rfl⟩
        have hPart := contains_part hl hKey b hLast
        rw [Bool.or_true] at hForm
        rcases hPair.mem_caseVariants_iff.mp hForm with
          rfl | rfl
        · rw [kindInfo?_of_hasKey hl hKey]
          exact hPart
        · rw [kindInfo?_upperUnit hl hGet hPair]
          exact hPart

end Built

------------------------------------------------------------
-- Tables of folded literals
------------------------------------------------------------

/- A literal whose characters are mapped, and in which case counts. -/
def foldLiteral
    (f : Nat → Nat)
    (l : Literal) : Literal :=
  { kind := l.kind, image := l.image.map f }

/-
  A map of units takes the forms of every character of some
  literals together and nothing else with them; and a literal
  that begins another one under the map begins it as it is.
-/
structure Folds
    (ignoreCase : Bool)
    (literals : List Literal)
    (f : Nat → Nat) : Prop where
  forms :
    ∀ l ∈ literals, ∀ d ∈ l.image, ∀ c,
      c ∈ unitForms (l.ignoreCase || ignoreCase) d ↔ f c = f d
  apart :
    ∀ l ∈ literals, ∀ l' ∈ literals,
      l.image.map f <+: l'.image.map f →
        l = l' ∨ (l.image <+: l'.image ∧
          l.image.length < l'.image.length)
  paired :
    ignoreCase = true →
      ∀ l ∈ literals, ∀ d ∈ l.image, Paired d

section Folds

variable {literals : List Literal} {ignoreCase : Bool}
variable {f : Nat → Nat}

/- Folding keeps the order of the literals. -/
theorem literals_build_fold
    (literals : List Literal)
    (ignoreCase mixed : Bool)
    (f : Nat → Nat) :
    (build (literals.map (foldLiteral f)) false
        mixed).literals =
      (build literals ignoreCase mixed).literals.map
        (foldLiteral f) := by
  have hSome : (fun l : Literal => !l.image.isEmpty) ∘
      foldLiteral f = fun l => !l.image.isEmpty := by
    funext l
    simp [foldLiteral]
  unfold build
  dsimp only
  rw [List.filter_map, hSome]
  symm
  apply List.map_mergeSort
  intro l _ l' _
  rfl

theorem maxLen_build_fold
    (literals : List Literal)
    (ignoreCase mixed : Bool)
    (f : Nat → Nat) :
    (build (literals.map (foldLiteral f)) false mixed).maxLen =
      (build literals ignoreCase mixed).maxLen := by
  have hLengths : ∀ t : LiteralTable,
      (t.literals.map (foldLiteral f)).map
          (fun l => l.image.length) =
        t.literals.map fun l => l.image.length := by
    intro t
    simp [foldLiteral, Function.comp_def]
  change ((build (literals.map (foldLiteral f)) false
      mixed).literals.map fun l => l.image.length).foldl
        max 0 = _
  rw [literals_build_fold literals ignoreCase, hLengths]
  rfl

/- One text under the map begins like another up to case. -/
theorem beginsBy_looksLike_iff
    (hFolds : Folds ignoreCase literals f)
    {l other : Literal}
    (hl : l ∈ literals)
    (hOther : other ∈ literals)
    (hNe : other.kind ≠ l.kind) :
    BeginsBy (LooksLike ignoreCase) other.image l.image ↔
      l.image.map f <+: other.image.map f := by
  constructor
  · intro hBegins
    rw [← beginsBy_eq_iff]
    intro p d hd
    rw [List.getElem?_map, Option.map_eq_some_iff] at hd
    rcases hd with ⟨e, he, rfl⟩
    rcases hBegins p e he with ⟨c, hc, hLooks⟩
    refine ⟨f c, by rw [List.getElem?_map, hc]; rfl, ?_⟩
    rcases hLooks with rfl | ⟨hIgnores, hForm⟩
    · rfl
    · apply (hFolds.forms l hl e (List.mem_of_getElem? he) c).mp
      rw [hIgnores, Bool.or_true]
      apply (Text.mem_caseVariants e c).mpr
      rcases hForm with rfl | rfl
      · exact .inr (.inl rfl)
      · exact .inr (.inr rfl)
  · intro hPrefix
    rcases hFolds.apart l hl other hOther hPrefix with
      rfl | ⟨hExact, -⟩
    · exact absurd rfl hNe
    · exact ((beginsBy_eq_iff _ _).mpr hExact).imp
        fun c _ d _ hSame => .inl hSame

/- The literals of a table that count as ones to be extended. -/
def extendable
    (literals : List Literal)
    (ignoreCase mixed : Bool) : List Literal :=
  (build literals ignoreCase mixed).literals.filter fun l =>
    mixed ||
      isExtended (build literals ignoreCase mixed).literals
        ignoreCase l

theorem extendable_fold
    (hFolds : Folds ignoreCase literals f)
    (mixed : Bool) :
    extendable (literals.map (foldLiteral f)) false mixed =
      (extendable literals ignoreCase mixed).map
        (foldLiteral f) := by
  have hMem := fun l =>
    (mem_literals_build literals ignoreCase mixed l).mp
  unfold extendable
  rw [literals_build_fold literals ignoreCase, List.filter_map]
  congr 1
  apply List.filter_congr
  intro l hl
  change (mixed || isExtended _ false (foldLiteral f l)) = _
  congr 1
  rw [Bool.eq_iff_iff, isExtended_iff, isExtended_iff_beginsBy]
  simp only [List.mem_map, exists_exists_and_eq_and]
  refine exists_congr fun other => and_congr_right fun ho =>
    and_congr_right fun hNe => ?_
  exact (beginsBy_looksLike_iff hFolds (hMem l hl).1
    (hMem other ho).1 hNe).symm

/- The same literals may be extended, and at the same places. -/
theorem subStrings_build_fold
    (hFolds : Folds ignoreCase literals f)
    (mixed : Bool) :
    let folded := build (literals.map (foldLiteral f)) false
      mixed
    let plain := build literals ignoreCase mixed
    folded.subStrings = plain.subStrings ∧
      folded.subStringAt = plain.subStringAt := by
  have hExtendable := extendable_fold hFolds mixed
  have hMaxLen := maxLen_build_fold literals ignoreCase mixed f
  have hStrings : ∀ literals ignoreCase,
      (build literals ignoreCase mixed).subStrings =
        (extendable literals ignoreCase mixed).foldl
          (fun ks l => insertKind l.kind ks) [] :=
    fun _ _ => rfl
  have hPlaces : ∀ literals ignoreCase,
      (build literals ignoreCase mixed).subStringAt =
        (List.range (build literals ignoreCase mixed).maxLen).map
          fun i => (extendable literals ignoreCase mixed).any
            fun l => l.image.length == i + 1 :=
    fun _ _ => rfl
  intro folded plain
  constructor
  · rw [hStrings, hStrings, hExtendable, List.foldl_map]
    rfl
  · rw [hPlaces, hPlaces, hExtendable, hMaxLen]
    simp [foldLiteral, Function.comp_def]

------------------------------------------------------------
-- What is known of folded literals
------------------------------------------------------------

/- Beginnings of literals are the same literals when folded. -/
theorem kindOf_build_fold
    (hFolds : Folds ignoreCase literals f)
    (mixed : Bool)
    {l : Literal}
    (hl : l ∈ literals)
    (n : Nat) :
    (build (literals.map (foldLiteral f)) false mixed).kindOf
        ((l.image.map f).take n) =
      (build literals ignoreCase mixed).kindOf
        (l.image.take n) := by
  unfold kindOf
  rw [literals_build_fold literals ignoreCase, List.find?_map,
    Option.map_map]
  have hSame : ∀ l' ∈
      (build literals ignoreCase mixed).literals,
      ((foldLiteral f l').image == (l.image.map f).take n) =
        (l'.image == l.image.take n) := by
    intro l' hl'
    have hHere := ((mem_literals_build _ _ _ l').mp hl').1
    rw [Bool.eq_iff_iff, beq_iff_eq, beq_iff_eq]
    change l'.image.map f = _ ↔ _
    rw [← List.map_take]
    constructor
    · intro hImage
      have hLength := congrArg List.length hImage
      rw [List.length_map, List.length_map] at hLength
      have hPrefix : l'.image.map f <+: l.image.map f := by
        rw [hImage]
        exact (List.take_prefix n l.image).map f
      rcases hFolds.apart l' hHere l hl hPrefix with
        rfl | ⟨hExact, -⟩
      · refine (List.take_of_length_le ?_).symm
        rw [List.length_take] at hLength
        omega
      · have hTake : l.image.take n <+: l.image :=
          List.take_prefix n l.image
        exact (List.prefix_of_prefix_length_le hExact hTake
          hLength.le).eq_of_length hLength
    · intro hImage
      rw [hImage]
  exact congrArg
    (fun found : Option Literal =>
      (found.map (·.kind)).getD noKind)
    (List.find?_congr hSame)

section Resumes

variable (d : Dfa) (a : Alphabet) (anyChar : Option Kind)
variable (hFolds : Folds ignoreCase literals f)
variable (hReads : ∀ l ∈ literals, ∀ n,
  stateAfter d a (l.image.map f) n = stateAfter d a l.image n)

include hFolds hReads in
theorem knownAfter_fold
    (mixed : Bool)
    {l : Literal}
    (hl : l ∈ literals)
    {n : Nat}
    (hInside : n ≤ l.image.length) :
    knownAfter
        (build (literals.map (foldLiteral f)) false mixed) d a
        anyChar (l.image.map f) n =
      knownAfter (build literals ignoreCase mixed) d a anyChar
        l.image n := by
  induction n with
  | zero => rfl
  | succ n ih =>
      have hBefore := ih (Nat.le_of_succ_le hInside)
      have hState := state_knownAfter
        (build literals ignoreCase mixed) d a anyChar l.image
        (Nat.le_of_succ_le hInside)
      have hInside' : n < (l.image.map f).length := by
        rwa [List.length_map]
      -- Both automata take the same step, if they take one.
      have hNext := stateAfter_succ d a (l.image.map f) hInside'
      rw [hReads l hl, hReads l hl,
        stateAfter_succ d a l.image hInside] at hNext
      unfold knownAfter
      rw [hBefore]
      generalize knownAfter (build literals ignoreCase mixed) d
        a anyChar l.image n = before at hState ⊢
      unfold resumeNext
      rw [kindOf_build_fold hFolds mixed hl]
      cases hHere : before.state with
      | none => rfl
      | some q =>
          rw [← hState, hHere, Option.bind_some,
            Option.bind_some] at hNext
          dsimp only
          rw [hNext]

include hFolds hReads in
theorem resumesOf_fold
    (mixed : Bool)
    {l : Literal}
    (hl : l ∈ literals) :
    resumesOf
        (build (literals.map (foldLiteral f)) false mixed) d a
        anyChar (foldLiteral f l) =
      resumesOf (build literals ignoreCase mixed) d a anyChar
        l := by
  apply List.ext_getElem?
  intro i
  rw [getElem?_resumesOf, getElem?_resumesOf]
  change (if i < (l.image.map f).length then
    some (knownAfter _ d a anyChar (l.image.map f) (i + 1))
      else none) = _
  rw [List.length_map]
  by_cases hInside : i < l.image.length
  · rw [if_pos hInside, if_pos hInside,
      knownAfter_fold d a anyChar hFolds hReads mixed hl hInside]
  · rw [if_neg hInside, if_neg hInside]

include hFolds hReads in
/- The automaton knows the same of folded literals. -/
theorem resumes_withResume_fold
    (mixed : Bool) :
    let folded := build (literals.map (foldLiteral f)) false
      mixed
    let plain := build literals ignoreCase mixed
    (folded.withResume d a anyChar).resumes =
        (plain.withResume d a anyChar).resumes ∧
      (folded.withResume d a anyChar).buckets =
        (plain.withResume d a anyChar).buckets := by
  intro folded plain
  have hEntries : (folded.literals.map fun l =>
      (l.kind, resumesOf folded d a anyChar l)) =
        plain.literals.map fun l =>
          (l.kind, resumesOf plain d a anyChar l) := by
    rw [literals_build_fold literals ignoreCase, List.map_map]
    apply List.map_congr_left
    intro l hl
    have hHere := ((mem_literals_build _ _ _ l).mp hl).1
    exact congrArg (Prod.mk l.kind)
      (resumesOf_fold d a anyChar hFolds hReads mixed hHere)
  have hMaxLen : folded.maxLen = plain.maxLen :=
    maxLen_build_fold literals ignoreCase mixed f
  unfold withResume
  dsimp only
  rw [hEntries, hMaxLen]
  exact ⟨rfl, rfl⟩

end Resumes

end Folds

end LiteralTable

end Descent
