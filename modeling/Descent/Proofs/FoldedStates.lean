import Descent.Proofs.Attempts
import Descent.Proofs.CaseFolding

/-
  Lexical states in which the case of characters is folded.

  A map of units that folds the literals of a state makes it a
  state in which case counts.  If the automaton does the same
  on all texts that are folded to a beginning of a literal,
  the literals are followed alike on a text and on its image,
  and what is handed over to the automaton is the same.  So
  attempts find the longest match up to case.

  Main declarations:
    * `LexState.Folding` and `LexState.folded`
    * `LexState.exact_folded` and `LexState.handover_folded`
    * `LexState.answers_of_folding`
    * `LexState.CasesAgree` and `LexState.folding_foldUnit`
-/

------------------------------------------------------------
-- Folded states
------------------------------------------------------------

namespace Descent

open LiteralTable (Folds foldLiteral Numbered)
open Text (caseVariants lowerUnit maxUnit Paired)

namespace LexState

/-
  A map of units folds the literals, and the automaton does
  not tell a text from its image while literals begin so.
-/
structure Folding
    (st : LexState)
    (ignoreCase : Bool)
    (lits : List Literal)
    (f : Nat → Nat) : Prop where
  literals : Folds ignoreCase lits f
  unit : ∀ c ≤ maxUnit, f c ≤ maxUnit
  reads :
    ∀ l ∈ lits, ∀ w, w.map f <+: l.image.map f →
      st.reads (w.map f) = st.reads w

/- The state in which the literals are folded and case counts. -/
def folded
    (st : LexState)
    (lits : List Literal)
    (f : Nat → Nat) : LexState :=
  { st with
    literals :=
      if st.hasNfa && !st.mixed then
        (st.baseTable (lits.map (foldLiteral f))).withResume
          st.dfa st.alphabet st.anyChar
      else st.baseTable (lits.map (foldLiteral f)),
    skipKeys := [] }

/- The least of the kinds that match. -/
def LeastOf
    (A : Matching) : Matching :=
  fun k w => IsLeast { j | A j w } k

theorem recognizes_leastOf
    {st : LexState}
    {A : Matching}
    (hA : st.Recognizes A) :
    st.Recognizes (LeastOf A) where
  accept w hUnits q hReads k := by
    rw [hA.accept w hUnits q hReads k]
    constructor
    · intro hLeast
      refine ⟨hLeast, ?_⟩
      intro j hj
      exact (hLeast.unique hj).le
    · intro hLeast
      exact hLeast.1
  dead w hUnits hReads k hk :=
    hA.dead w hUnits hReads k hk.1
  idle := hA.idle
  below k w hk := hA.below k w hk.1

section Folded

variable {st : LexState} {ignoreCase : Bool}
variable {lits : List Literal} {A : Matching}
variable {f : Nat → Nat}
variable (hComposed : st.Composed ignoreCase lits A)
variable (hFolding : st.Folding ignoreCase lits f)

include hComposed hFolding in
/- Folded literals and the automaton make up the folded state. -/
theorem exact_folded :
    (st.folded lits f).Exact (lits.map (foldLiteral f))
      (LeastOf A) where
  recognizes := by
    have hLeast := recognizes_leastOf hComposed.recognizes
    exact ⟨hLeast.accept, hLeast.dead, hLeast.idle,
      hLeast.below⟩
  table := rfl
  mixed hMixed := by
    rw [hComposed.mixed hMixed]
    rfl
  sensitive l hl := by
    rcases List.mem_map.mp hl with ⟨l', -, rfl⟩
    rfl
  numbered := by
    constructor
    · rw [List.map_map]
      exact hComposed.numbered.distinct
    · intro l hl
      rcases List.mem_map.mp hl with ⟨l', hl', rfl⟩
      exact hComposed.numbered.below l' hl'
  images l hl l' hl' hImage := by
    rcases List.mem_map.mp hl with ⟨l₁, hl₁, rfl⟩
    rcases List.mem_map.mp hl' with ⟨l₂, hl₂, rfl⟩
    change l₁.image.map f = l₂.image.map f at hImage
    have hPrefix : l₁.image.map f <+: l₂.image.map f := by
      rw [hImage]
    rcases hFolding.literals.apart l₁ hl₁ l₂ hl₂ hPrefix with
      rfl | ⟨-, hShorter⟩
    · rfl
    · have hLength := congrArg List.length hImage
      rw [List.length_map, List.length_map] at hLength
      exact absurd hLength hShorter.ne
  nonempty l hl := by
    rcases List.mem_map.mp hl with ⟨l', hl', rfl⟩
    have hSome := hComposed.nonempty l' hl'
    simpa [foldLiteral] using hSome
  units l hl := by
    rcases List.mem_map.mp hl with ⟨l', hl', rfl⟩
    intro c hc
    rcases List.mem_map.mp hc with ⟨d, hd, rfl⟩
    exact hFolding.unit d (hComposed.units l' hl' d hd)
  anyBelow := hComposed.anyBelow

------------------------------------------------------------
-- The same books
------------------------------------------------------------

/- Two tables know the same apart from their entries. -/
structure SameBooks
    (t t' : LiteralTable) : Prop where
  maxLen : t.maxLen = t'.maxLen
  subStrings : t.subStrings = t'.subStrings
  subStringAt : t.subStringAt = t'.subStringAt
  resumes : t.resumes = t'.resumes
  buckets : t.buckets = t'.buckets

include hComposed hFolding in
theorem sameBooks_folded :
    SameBooks (st.folded lits f).literals st.literals := by
  have hMaxLen := LiteralTable.maxLen_build_fold lits
    ignoreCase st.mixed f
  have hStrings := LiteralTable.subStrings_build_fold
    hFolding.literals st.mixed
  have hReads : ∀ l ∈ lits, ∀ n,
      LiteralTable.stateAfter st.dfa st.alphabet
          (l.image.map f) n =
        LiteralTable.stateAfter st.dfa st.alphabet l.image
          n := by
    intro l hl n
    unfold LiteralTable.stateAfter
    rw [← List.map_take]
    exact hFolding.reads l hl _
      ((List.take_prefix n l.image).map f)
  have hResumes := LiteralTable.resumes_withResume_fold st.dfa
    st.alphabet st.anyChar hFolding.literals hReads st.mixed
  rw [hComposed.table]
  unfold folded baseTable
  dsimp only
  split
  · exact ⟨hMaxLen, hStrings.1, hStrings.2, hResumes.1,
      hResumes.2⟩
  · exact ⟨hMaxLen, hStrings.1, hStrings.2, rfl, rfl⟩

include hComposed hFolding in
/- A unit is looked up as its image is among folded literals. -/
theorem infoFor_folded
    (pos c : Nat)
    (b : Bool) :
    ((st.folded lits f).infoFor pos (f c)).part b =
      (st.infoFor pos c).part b := by
  have hInfo : st.infoFor pos c =
      (((LiteralTable.build lits ignoreCase
        st.mixed).kindInfo? pos c).map Prod.snd).getD {} := by
    unfold infoFor
    rw [hComposed.table]
    split <;> rfl
  apply KindSet.ext_contains
  intro k
  rw [contains_infoFor (exact_folded hComposed hFolding), hInfo,
    LiteralTable.contains_kindInfo?_iff
      hFolding.literals.paired]
  constructor
  · intro hSome
    rcases hSome with ⟨l', hl', rfl, hGet, hLast⟩
    rcases List.mem_map.mp hl' with ⟨l, hl, rfl⟩
    change (l.image.map f)[pos]? = some (f c) at hGet
    change b = decide (pos + 1 = (l.image.map f).length)
      at hLast
    rw [List.length_map] at hLast
    rw [List.getElem?_map, Option.map_eq_some_iff] at hGet
    rcases hGet with ⟨d, hd, hSame⟩
    refine ⟨l, hl, rfl, ⟨d, hd, ?_⟩, hLast⟩
    exact (hFolding.literals.forms l hl d
      (List.mem_of_getElem? hd) c).mpr hSame.symm
  · intro hSome
    rcases hSome with ⟨l, hl, rfl, ⟨d, hd, hForm⟩, hLast⟩
    have hSame := (hFolding.literals.forms l hl d
      (List.mem_of_getElem? hd) c).mp hForm
    refine ⟨foldLiteral f l, List.mem_map_of_mem hl, rfl, ?_,
      ?_⟩
    · change (l.image.map f)[pos]? = some (f c)
      rw [List.getElem?_map, hd, hSame]
      rfl
    · change b = decide (pos + 1 = (l.image.map f).length)
      rwa [List.length_map]

------------------------------------------------------------
-- The same handover
------------------------------------------------------------

/- What is handed over, with the units that were not read mapped. -/
def Handover.mapRest
    (h : Handover)
    (f : Nat → Nat) : Handover :=
  { h with rest := h.rest.map f }

include hComposed hFolding in
theorem reportedKind_folded
    (pos kind : Nat) :
    (st.folded lits f).literals.reportedKind pos kind
        st.anyChar =
      st.literals.reportedKind pos kind st.anyChar := by
  have hBooks := sameBooks_folded hComposed hFolding
  unfold LiteralTable.reportedKind LiteralTable.shadowing?
  rw [hBooks.resumes]

include hComposed hFolding in
theorem isSubString_folded
    (kind : Nat) :
    (st.folded lits f).literals.isSubString kind =
      st.literals.isSubString kind := by
  have hBooks := sameBooks_folded hComposed hFolding
  unfold LiteralTable.isSubString
  rw [hBooks.subStrings]

include hComposed hFolding in
theorem handStop_folded
    (pos : Nat)
    (alive : KindSet)
    (b : Nat × Int)
    (us : List Nat) :
    (st.folded lits f).handStop pos alive b (us.map f) =
      (st.handStop pos alive b us).mapRest f := by
  have hBooks := sameBooks_folded hComposed hFolding
  have hStop : (st.folded lits f).stopBest b (pos - 1) alive =
      st.stopBest b (pos - 1) alive := by
    unfold stopBest stopLiterals prefersResume
    rw [hBooks.maxLen, hBooks.buckets, hBooks.subStringAt]
    rfl
  unfold handStop
  rw [hStop]
  change (if st.hasNfa then _ else _) = _
  split <;> rfl

include hComposed hFolding in
theorem handCommit_folded
    (pos kind : Nat)
    (us : List Nat) :
    (st.folded lits f).handCommit pos kind (us.map f) =
      (st.handCommit pos kind us).mapRest f := by
  have hBooks := sameBooks_folded hComposed hFolding
  have hState : (st.folded lits f).literals.stateFor? pos kind =
      st.literals.stateFor? pos kind := by
    unfold LiteralTable.stateFor?
    rw [hBooks.buckets]
  unfold handCommit
  rw [hState]
  change Handover.mk _ _ ((st.folded lits f).literals.reportedKind
    pos kind st.anyChar, _) _ = _
  rw [reportedKind_folded hComposed hFolding]
  rfl

include hComposed hFolding in
/- An entry is dealt with alike where going on is alike. -/
theorem match_ended_folded
    {pos : Nat}
    {ended : KindSet}
    {us : List Nat}
    (b : Nat × Int)
    {goOn goOn' : Nat × Int → Handover}
    (hGoOn : ∀ b, goOn b = (goOn' b).mapRest f) :
    (match ended.least? with
      | none => goOn b
      | some kind =>
          if (st.folded lits f).literals.isSubString kind then
            goOn ((st.folded lits f).literals.reportedKind pos
              kind st.anyChar, (pos : Int))
          else (st.folded lits f).handCommit pos kind
            (us.map f)) =
      (match ended.least? with
        | none => goOn' b
        | some kind =>
            if st.literals.isSubString kind then
              goOn' (st.literals.reportedKind pos kind
                st.anyChar, (pos : Int))
            else st.handCommit pos kind us).mapRest f := by
  cases ended.least? with
  | none => exact hGoOn b
  | some kind =>
      dsimp only
      rw [isSubString_folded hComposed hFolding,
        reportedKind_folded hComposed hFolding,
        handCommit_folded hComposed hFolding]
      split
      · exact hGoOn _
      · rfl

include hComposed hFolding in
/- Folded literals are followed like the literals. -/
theorem handFollow_folded
    (pos : Nat)
    (alive : KindSet)
    (b : Nat × Int)
    (us : List Nat) :
    (st.folded lits f).handFollow pos alive b (us.map f) =
      (st.handFollow pos alive b us).mapRest f := by
  induction us generalizing pos alive b with
  | nil => exact handStop_folded hComposed hFolding pos alive b []
  | cons c us ih =>
      have hAlive : ((st.folded lits f).infoFor pos (f c)).alive =
          (st.infoFor pos c).alive :=
        infoFor_folded hComposed hFolding pos c false
      have hEnded : ((st.folded lits f).infoFor pos (f c)).ended =
          (st.infoFor pos c).ended :=
        infoFor_folded hComposed hFolding pos c true
      rw [List.map_cons]
      unfold handFollow
      dsimp only
      rw [hAlive, hEnded]
      apply match_ended_folded hComposed hFolding b
      intro b
      split
      · exact handStop_folded hComposed hFolding pos alive b
          (c :: us)
      · exact ih (pos + 1) _ b

include hComposed hFolding in
theorem handover_folded
    (first : Nat)
    (us : List Nat) :
    (st.folded lits f).handover (f first) (us.map f) =
      (st.handover first us).mapRest f := by
  have hBooks := sameBooks_folded hComposed hFolding
  have hAlive : ((st.folded lits f).infoFor 0 (f first)).alive =
      (st.infoFor 0 first).alive :=
    infoFor_folded hComposed hFolding 0 first false
  have hEnded : ((st.folded lits f).infoFor 0 (f first)).ended =
      (st.infoFor 0 first).ended :=
    infoFor_folded hComposed hFolding 0 first true
  have hGoOn : ∀ b,
      (if (st.infoFor 0 first).alive.isEmpty then
        (st.folded lits f).handAtStart b (f first :: us.map f)
      else
        (st.folded lits f).handFollow 1
          (st.infoFor 0 first).alive b (us.map f)) =
      (if (st.infoFor 0 first).alive.isEmpty then
        st.handAtStart b (first :: us)
      else
        st.handFollow 1 (st.infoFor 0 first).alive b
          us).mapRest f := by
    intro b
    split
    · rfl
    · exact handFollow_folded hComposed hFolding 1 _ b us
  unfold handover
  dsimp only
  rw [hBooks.maxLen, hAlive, hEnded]
  split
  · rfl
  · exact match_ended_folded hComposed hFolding st.blank hGoOn

include hComposed in
theorem mixed_or_maxLen :
    st.mixed = false ∨ st.literals.maxLen = 0 := by
  rw [hComposed.table]
  by_cases hMixed : st.mixed = true
  · right
    rw [hComposed.mixed hMixed]
    split <;> simp [LiteralTable.withResume, LiteralTable.build]
  · exact .inl (by simpa using hMixed)

------------------------------------------------------------
-- What is matched
------------------------------------------------------------

/- Some literal is spelled by a text, up to case if it may be. -/
def SpelledIn
    (ignoreCase : Bool)
    (lits : List Literal) : Matching :=
  fun k w => ∃ l ∈ lits, l.kind = k ∧
    Spells (l.ignoreCase || ignoreCase) l.image w

/- A text spells an image if they are the same under the map. -/
theorem spells_iff_map_eq
    {image : List Nat}
    (hForms : ∀ d ∈ image, ∀ c,
      c ∈ unitForms ignoreCase d ↔ f c = f d)
    (w : List Nat) :
    Spells ignoreCase image w ↔ w.map f = image.map f := by
  rw [eq_comm]
  rw [← List.forall₂_eq_eq_eq, List.forall₂_map_left_iff,
    List.forall₂_map_right_iff]
  constructor
  · intro hSpells
    have hBoth := (List.forall₂_and_left _ _).mpr
      ⟨fun d hd => hd, hSpells⟩
    exact hBoth.imp fun d c h => ((hForms d h.1 c).mp h.2).symm
  · intro hSame
    have hBoth := (List.forall₂_and_left _ _).mpr
      ⟨fun d hd => hd, hSame⟩
    exact hBoth.imp fun d c h => (hForms d h.1 c).mpr h.2.symm

include hFolding in
theorem spelled_fold_iff
    (k : Nat)
    (w : List Nat) :
    Spelled (lits.map (foldLiteral f)) k (w.map f) ↔
      SpelledIn ignoreCase lits k w := by
  constructor
  · intro hSome
    rcases hSome with ⟨l', hl', hKind, hImage⟩
    rcases List.mem_map.mp hl' with ⟨l, hl, rfl⟩
    exact ⟨l, hl, hKind,
      (spells_iff_map_eq (hFolding.literals.forms l hl) w).mpr
        hImage.symm⟩
  · intro hSome
    rcases hSome with ⟨l, hl, hKind, hSpells⟩
    exact ⟨foldLiteral f l, List.mem_map_of_mem hl, hKind,
      ((spells_iff_map_eq (hFolding.literals.forms l hl) w).mp
        hSpells).symm⟩

include hFolding in
theorem isUnits_map
    {w : List Nat}
    (hUnits : IsUnits w) :
    IsUnits (w.map f) := by
  intro c hc
  rcases List.mem_map.mp hc with ⟨d, hd, rfl⟩
  exact hFolding.unit d (hUnits d hd)

include hComposed hFolding in
/- The automaton chooses the same kind if it does the same. -/
theorem leastOf_map_iff
    {w : List Nat}
    (hUnits : IsUnits w)
    (hReads : st.reads (w.map f) = st.reads w)
    (k : Nat) :
    LeastOf A k (w.map f) ↔ LeastOf A k w := by
  have hA := hComposed.recognizes
  have hUnits' := isUnits_map hFolding hUnits
  cases hState : st.reads w with
  | none =>
      rw [hState] at hReads
      apply iff_of_false
      · exact fun hk => hA.dead _ hUnits' hReads k hk.1
      · exact fun hk => hA.dead w hUnits hState k hk.1
  | some q =>
      rw [hState] at hReads
      exact (hA.accept _ hUnits' q hReads k).symm.trans
        (hA.accept w hUnits q hState k)

include hComposed hFolding in
/- The folded parts choose for the image what the parts do. -/
theorem sameLeast_folded
    {w : List Nat}
    (hUnits : IsUnits w)
    (hReads : st.reads (w.map f) = st.reads w) :
    SameLeast
      (fun k w => (st.folded lits f).AnyOf
        (lits.map (foldLiteral f)) (LeastOf A) k (w.map f))
      (st.OneOf (SpelledIn ignoreCase lits) A) w where
  forth k hAny := by
    have hLeastOf := leastOf_map_iff hComposed hFolding hUnits
      hReads k
    rcases hAny with hLiteral | hLeast | ⟨hWild, hLength⟩
    · exact .inl ((spelled_fold_iff hFolding k w).mp hLiteral)
    · exact .inr (.inl (hLeastOf.mp hLeast).1)
    · rw [List.length_map] at hLength
      exact .inr (.inr ⟨hWild, hLength⟩)
  back k hParts := by
    rcases hParts with hLiteral | hk | ⟨hWild, hLength⟩
    · exact ⟨k, le_rfl,
        .inl ((spelled_fold_iff hFolding k w).mpr hLiteral)⟩
    · rcases exists_least ⟨k, hk⟩ with ⟨j, hj⟩
      refine ⟨j, hj.2 hk, .inr (.inl ?_)⟩
      exact (leastOf_map_iff hComposed hFolding hUnits hReads
        j).mpr hj
    · refine ⟨k, le_rfl, .inr (.inr ⟨hWild, ?_⟩)⟩
      rw [List.length_map]
      exact hLength

/- Matches of an image are matches by what is mapped. -/
theorem noneAfter_map
    {M : Matching}
    {least : Nat}
    {u : List Nat}
    (hNone : NoneAfter M least (u.map f)) :
    NoneAfter (fun k w => M k (w.map f)) least u := by
  intro m hAfter hLe k hk
  apply hNone m hAfter _ k
  · rwa [← List.map_take]
  · rwa [List.length_map]

theorem longest_map
    {M : Matching}
    {u : List Nat}
    {n k : Nat}
    (hLongest : Longest M (u.map f) n k) :
    Longest (fun k w => M k (w.map f)) u n k where
  longer := hLongest.longer
  inside := by
    have hInside := hLongest.inside
    rwa [List.length_map] at hInside
  kind := by
    have hKind := hLongest.kind
    rwa [← List.map_take] at hKind
  last := noneAfter_map hLongest.last

include hComposed hFolding in
/- What is found for an image is found for the text. -/
theorem answers_map
    {w : List Nat}
    (hUnits : IsUnits w)
    (hReads : ∀ m ≤ w.length,
      st.reads ((w.take m).map f) = st.reads (w.take m))
    {b : Nat × Int}
    (hAnswers : Answers (st.folded lits f)
      ((st.folded lits f).AnyOf (lits.map (foldLiteral f))
        (LeastOf A)) (w.map f) b) :
    Answers st (st.OneOf (SpelledIn ignoreCase lits) A) w
      b := by
  have hSame := fun m hLe =>
    sameLeast_folded hComposed hFolding (hUnits.take m)
      (hReads m hLe)
  rcases hAnswers with ⟨n, k, hLongest, hBest⟩ | ⟨hNone, hBest⟩
  · exact .inl ⟨n, k, (longest_map hLongest).congr hSame, hBest⟩
  · exact .inr ⟨NoneAfter.congr hSame (noneAfter_map hNone),
      hBest⟩

------------------------------------------------------------
-- Attempts
------------------------------------------------------------

include hFolding in
theorem noneAfter_spelledIn
    {least : Nat}
    {u : List Nat}
    (hNone : NoneAfter (Spelled (lits.map (foldLiteral f)))
      least (u.map f)) :
    NoneAfter (SpelledIn ignoreCase lits) least u := by
  intro m hAfter hLe k hSpelled
  exact noneAfter_map hNone m hAfter hLe k
    ((spelled_fold_iff hFolding k _).mpr hSpelled)

include hComposed hFolding in
/- What was followed on the image was followed on the text. -/
theorem answers_of_handed
    (hInit : st.initMatch = none)
    {u : List Nat}
    (hUnits : IsUnits u)
    {h : Handover}
    (hRest : h.rest = u.drop h.read)
    (hHanded : Handed (st.folded lits f)
      (lits.map (foldLiteral f)) (LeastOf A) (u.map f)
      (h.mapRest f)) :
    Answers st (st.OneOf (SpelledIn ignoreCase lits) A) u
      (settle st.anyChar (st.finish h)) := by
  have hInside : h.read ≤ u.length := by
    have hLe := hHanded.inside
    rwa [List.length_map] at hLe
  -- The automaton does the same on all that was followed.
  have hReads : ∀ m ≤ h.read,
      st.reads ((u.take m).map f) = st.reads (u.take m) := by
    intro m hLe
    rcases hHanded.begun with ⟨l', hl', hPrefix⟩
    rcases List.mem_map.mp hl' with ⟨l, hl, rfl⟩
    change (u.map f).take h.read <+: l.image.map f at hPrefix
    rw [← List.map_take] at hPrefix
    refine hFolding.reads l hl _
      (List.IsPrefix.trans ?_ hPrefix)
    exact (List.take_prefix_take_left hLe).map f
  have hState : h.state = st.reads (u.take h.read) := by
    have hFolded : h.state =
        st.reads ((u.map f).take h.read) := hHanded.state
    rw [← List.map_take] at hFolded
    exact hFolded.trans (hReads h.read le_rfl)
  apply answers_of_handover hComposed.recognizes hUnits hInside
    hRest hState hHanded.positive
    (noneAfter_spelledIn hFolding hHanded.noneAfter_spelled)
  intro _
  have hKept : ¬ Forgets (st.folded lits f)
      (lits.map (foldLiteral f)) (LeastOf A)
      ((u.map f).take h.read) := by
    intro hForgets
    have hSome : st.initMatch.isSome = true := hForgets.init
    rw [hInit] at hSome
    cases hSome
  have hAnswers := hHanded.answers hKept
  change Answers _ _ ((u.map f).take h.read)
    (settle st.anyChar h.best) at hAnswers
  rw [← List.map_take] at hAnswers
  apply answers_map hComposed hFolding (hUnits.take h.read) _
    hAnswers
  intro m hLe
  rw [List.length_take, min_eq_left hInside] at hLe
  rw [List.take_take, min_eq_left hLe]
  exact hReads m hLe

include hComposed hFolding in
/-
  An attempt finds the longest match of the literals, up to
  case, the automaton and the wildcard.
-/
theorem answers_of_folding
    (hInit : st.initMatch = none)
    {first : Nat}
    {us : List Nat}
    (hUnits : IsUnits (first :: us))
    (hSkip : st.skipKeys.contains first = false) :
    Answers st (st.OneOf (SpelledIn ignoreCase lits) A)
      (first :: us) (st.attempt first us).2.best := by
  have hUnits' := isUnits_map hFolding hUnits
  have hFolded := handover_folded hComposed hFolding first us
  have hRest := rest_handover st first us
  rw [best_attempt (mixed_or_maxLen hComposed) hSkip]
  rcases handover_spec (exact_folded hComposed hFolding) hUnits'
    with hHanded | ⟨hNoLiteral, hStart⟩
  · rw [hFolded] at hHanded
    exact answers_of_handed hComposed hFolding hInit hUnits
      hRest hHanded
  · -- No literal begins like the text.
    have hNone : NoMatch (SpelledIn ignoreCase lits)
        (first :: us) := by
      apply noneAfter_spelledIn hFolding
      intro m hPos _ k hSpelled
      rcases hSpelled with ⟨l', hl', -, hImage⟩
      refine hNoLiteral l' hl' ?_
      rw [hImage]
      exact List.take_prefix_take_left
        (l := f first :: us.map f) (i := 1) hPos
    rw [hFolded] at hStart
    generalize st.handover first us = h at hRest hStart ⊢
    have hRead : h.read = 0 := congrArg Handover.read hStart
    have hHere : h = st.handAtStart st.blank (first :: us) := by
      have hState : h.state =
          if st.hasNfa then some st.dfa.start else none :=
        congrArg Handover.state hStart
      have hBest : h.best = st.blank :=
        congrArg Handover.best hStart
      rw [hRead, List.drop_zero] at hRest
      rcases h with ⟨state, read, best, rest⟩
      dsimp only at hRead hRest hState hBest
      rw [hRead, hRest, hState, hBest]
      rfl
    rw [hHere]
    exact answers_of_start hComposed.recognizes
      hComposed.anyBelow hUnits hNone

end Folded

------------------------------------------------------------
-- States in which case makes no difference
------------------------------------------------------------

/- A literal is looked up without regard to case. -/
def Ignores
    (st : LexState)
    (l : Literal) : Prop :=
  l ∈ st.literals.literals ∧
    (l.ignoreCase || st.literals.ignoreCase) = true

/-
  Case makes no difference for the literals that ignore it:
  the case forms of their characters come in pairs, one that
  begins another one up to case is spelled like it, and the
  automaton does not tell the spellings of a beginning apart.
-/
structure CasesAgree
    (st : LexState) : Prop where
  paired : ∀ l, st.Ignores l → ∀ d ∈ l.image, Paired d
  spelled :
    ∀ l, st.Ignores l → ∀ l', st.Ignores l' →
      l.image.map lowerUnit <+: l'.image.map lowerUnit →
        l = l' ∨ (l.image <+: l'.image ∧
          l.image.length < l'.image.length)
  reads :
    ∀ l, st.Ignores l → ∀ n w, Spells true (l.image.take n) w →
      st.reads w = st.reads (l.image.take n)

/- A unit is a form of a character of a literal that ignores case. -/
def IsForm
    (st : LexState)
    (c : Nat) : Prop :=
  ∃ l ∈ st.literals.literals,
    (l.ignoreCase || st.literals.ignoreCase) = true ∧
      ∃ d ∈ l.image, c ∈ caseVariants d

instance
    (st : LexState)
    (c : Nat) :
    Decidable (st.IsForm c) := by
  unfold IsForm
  infer_instance

/- The forms of characters of literals, in lower case. -/
def foldUnit
    (st : LexState)
    (c : Nat) : Nat :=
  if st.IsForm c then lowerUnit c else c

section CasesAgree

variable {st : LexState} {ignoreCase : Bool}
variable {lits : List Literal} {A : Matching}
variable (hComposed : st.Composed ignoreCase lits A)
variable (hAgree : st.CasesAgree)

include hComposed in
theorem ignores_iff
    {l : Literal}
    (hl : l ∈ lits) :
    st.Ignores l ↔ (l.ignoreCase || ignoreCase) = true := by
  have hMem := (LiteralTable.mem_literals_build lits ignoreCase
    st.mixed l).mpr ⟨hl, hComposed.nonempty l hl⟩
  have hTable : l ∈ st.literals.literals ∧
      st.literals.ignoreCase = ignoreCase := by
    rw [hComposed.table]
    split
    · exact ⟨hMem, rfl⟩
    · exact ⟨hMem, rfl⟩
  unfold Ignores
  rw [hTable.2]
  exact and_iff_right hTable.1

include hComposed in
theorem mem_of_ignores
    {l : Literal}
    (hIgnores : st.Ignores l) :
    l ∈ lits := by
  have hMem := hIgnores.1
  rw [hComposed.table] at hMem
  have hBuilt : l ∈ (LiteralTable.build lits ignoreCase
      st.mixed).literals := by
    split at hMem
    · exact hMem
    · exact hMem
  exact ((LiteralTable.mem_literals_build _ _ _ l).mp hBuilt).1

include hAgree in
theorem foldUnit_of_mem
    {l : Literal}
    (hIgnores : st.Ignores l)
    {c d : Nat}
    (hd : d ∈ l.image)
    (hForm : c ∈ caseVariants d) :
    st.foldUnit c = lowerUnit d := by
  unfold foldUnit
  rw [if_pos ⟨l, hIgnores.1, hIgnores.2, d, hd, hForm⟩]
  exact (hAgree.paired l hIgnores d hd).lowerUnit_of_mem hForm

theorem mem_caseVariants_self
    (d : Nat) :
    d ∈ caseVariants d :=
  (Text.mem_caseVariants d d).mpr (.inl rfl)

include hAgree in
/- Units are taken together with the character they are forms of. -/
theorem mem_caseVariants_iff_foldUnit_eq
    {l : Literal}
    (hIgnores : st.Ignores l)
    {d : Nat}
    (hd : d ∈ l.image)
    (c : Nat) :
    c ∈ caseVariants d ↔ st.foldUnit c = st.foldUnit d := by
  have hPair := hAgree.paired l hIgnores d hd
  rw [foldUnit_of_mem hAgree hIgnores hd
    (mem_caseVariants_self d)]
  constructor
  · exact foldUnit_of_mem hAgree hIgnores hd
  · intro hSame
    apply hPair.mem_caseVariants_iff.mpr
    by_cases hForm : st.IsForm c
    · rcases hForm with ⟨l', hl', hTrue, e, he, hForm⟩
      have hIgnores' : st.Ignores l' := ⟨hl', hTrue⟩
      have hPair' := hAgree.paired l' hIgnores' e he
      rw [foldUnit_of_mem hAgree hIgnores' he hForm] at hSame
      rcases hPair'.mem_caseVariants_iff.mp hForm with
        hLower | hUpper
      · exact .inl (hLower.trans hSame)
      · right
        rw [hUpper, ← hPair'.upper, hSame, hPair.upper]
    · unfold foldUnit at hSame
      rw [if_neg hForm] at hSame
      exact .inl hSame

include hComposed in
/- Where no literal ignores case, nothing is folded. -/
theorem foldUnit_of_sensitive
    {l : Literal}
    (hl : l ∈ lits)
    (hSensitive : (l.ignoreCase || ignoreCase) = false)
    (c : Nat) :
    st.foldUnit c = c := by
  apply if_neg
  intro hForm
  rcases hForm with ⟨l', hMem, hCase, -⟩
  have hIgnores : st.Ignores l' := ⟨hMem, hCase⟩
  have hl' := mem_of_ignores hComposed hIgnores
  have hTrue := (ignores_iff hComposed hl').mp hIgnores
  rw [hComposed.alike l' hl' l hl, hSensitive] at hTrue
  cases hTrue

include hComposed hAgree in
theorem folds_foldUnit :
    Folds ignoreCase lits st.foldUnit where
  forms l hl d hd c := by
    cases hMode : l.ignoreCase || ignoreCase with
    | true =>
        exact mem_caseVariants_iff_foldUnit_eq hAgree
          ((ignores_iff hComposed hl).mpr hMode) hd c
    | false =>
        rw [foldUnit_of_sensitive hComposed hl hMode,
          foldUnit_of_sensitive hComposed hl hMode]
        exact List.mem_singleton
  apart l hl l' hl' hPrefix := by
    cases hMode : l.ignoreCase || ignoreCase with
    | true =>
        have hMode' := hMode
        rw [hComposed.alike l hl l' hl'] at hMode'
        have hIgnores := (ignores_iff hComposed hl).mpr hMode
        have hIgnores' := (ignores_iff hComposed hl').mpr hMode'
        have hLower : ∀ l, st.Ignores l →
            l.image.map st.foldUnit = l.image.map lowerUnit := by
          intro l hIgnores
          apply List.map_congr_left
          intro d hd
          exact foldUnit_of_mem hAgree hIgnores hd
            (mem_caseVariants_self d)
        rw [hLower l hIgnores, hLower l' hIgnores'] at hPrefix
        exact hAgree.spelled l hIgnores l' hIgnores' hPrefix
    | false =>
        have hSame : st.foldUnit = id := by
          funext c
          exact foldUnit_of_sensitive hComposed hl hMode c
        rw [hSame, List.map_id, List.map_id] at hPrefix
        rcases Nat.lt_or_eq_of_le hPrefix.length_le with
          hShorter | hLength
        · exact .inr ⟨hPrefix, hShorter⟩
        · left
          rw [Bool.or_eq_false_iff] at hMode
          exact hComposed.images l hl l' hl' hMode.1
            (hPrefix.eq_of_length hLength)
  paired hIgnores l hl := by
    apply hAgree.paired l
    rw [ignores_iff hComposed hl, hIgnores, Bool.or_true]

include hComposed hAgree in
/- Putting forms in lower case folds the literals of the state. -/
theorem folding_foldUnit :
    st.Folding ignoreCase lits st.foldUnit where
  literals := folds_foldUnit hComposed hAgree
  unit c hUnit := by
    unfold foldUnit
    split
    · exact Text.mapUnit_le _ hUnit
    · exact hUnit
  reads l hl w hPrefix := by
    have hFolds := folds_foldUnit hComposed hAgree
    cases hMode : l.ignoreCase || ignoreCase with
    | true =>
        have hIgnores := (ignores_iff hComposed hl).mpr hMode
        -- A text and its image spell the same beginning.
        have hTake : w.map st.foldUnit =
            (l.image.take w.length).map st.foldUnit := by
          have hEq := List.prefix_iff_eq_take.mp hPrefix
          rwa [List.length_map, ← List.map_take] at hEq
        have hForms : ∀ d ∈ l.image.take w.length, ∀ c,
            c ∈ unitForms true d ↔
              st.foldUnit c = st.foldUnit d := by
          intro d hd c
          exact mem_caseVariants_iff_foldUnit_eq hAgree hIgnores
            (List.mem_of_mem_take hd) c
        have hText := (spells_iff_map_eq hForms w).mpr hTake
        have hImage : Spells true (l.image.take w.length)
            (w.map st.foldUnit) := by
          apply (spells_iff_map_eq hForms _).mpr
          rw [hTake, List.map_map]
          apply List.map_congr_left
          intro d hd
          have hd' := List.mem_of_mem_take hd
          have hLower : st.foldUnit d ∈ caseVariants d := by
            rw [foldUnit_of_mem hAgree hIgnores hd'
              (mem_caseVariants_self d)]
            exact (Text.mem_caseVariants d _).mpr (.inr (.inl rfl))
          exact (mem_caseVariants_iff_foldUnit_eq hAgree hIgnores
            hd' _).mp hLower
        rw [hAgree.reads l hIgnores _ _ hText,
          hAgree.reads l hIgnores _ _ hImage]
    | false =>
        have hSame : st.foldUnit = id := by
          funext c
          exact foldUnit_of_sensitive hComposed hl hMode c
        rw [hSame, List.map_id]

end CasesAgree

end LexState

end Descent
