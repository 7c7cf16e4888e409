import Descent.Proofs.Thompson
import Mathlib.Logic.Relation

/-
  The automaton of several kinds accepts what their
  expressions match.

  The construction goes down a bounded number of steps.  In a
  grammar in which no expression is part of itself the bound
  is never met: parts have a smaller rank than what they are
  part of, and a reference is followed only to a target that
  is not being expanded.

  Main declarations:
    * `Grammar.RegexTree`
    * `Thompson.builds_segment`
    * `Thompson.accepts_ofKinds`
-/

------------------------------------------------------------
-- Copies
------------------------------------------------------------

namespace Descent

namespace Thompson

open Computability

/- The texts of a number of copies within bounds. -/
def copiesOf
    (language : UnitLanguage)
    (least : Nat)
    (most : Option Nat) : UnitLanguage :=
  { text |
    ∃ count, least ≤ count ∧
      (∀ m, most = some m → count ≤ m) ∧
      text ∈ language ^ count }

theorem mem_copiesOf
    {language : UnitLanguage}
    {least : Nat}
    {most : Option Nat}
    {text : List Nat} :
    text ∈ copiesOf language least most ↔
      ∃ count, least ≤ count ∧
        (∀ m, most = some m → count ≤ m) ∧
        text ∈ language ^ count :=
  Iff.rfl

theorem mem_kstar_iff
    (language : UnitLanguage)
    (text : List Nat) :
    text ∈ language∗ ↔ ∃ count, text ∈ language ^ count := by
  rw [Language.kstar_eq_iSup_pow, Language.mem_iSup]

theorem mem_one_add_pow
    (language : UnitLanguage)
    (most : Nat)
    (text : List Nat) :
    text ∈ (1 + language) ^ most ↔
      ∃ count ≤ most, text ∈ language ^ count := by
  induction most generalizing text with
  | zero =>
      constructor
      · intro hText
        exact ⟨0, le_rfl, hText⟩
      · rintro ⟨count, hCount, hText⟩
        rwa [Nat.le_zero.mp hCount] at hText
  | succ most ih =>
      rw [pow_succ', add_mul, one_mul, Language.mem_add, ih]
      constructor
      · rintro (⟨count, hCount, hText⟩ | hText)
        · exact ⟨count, hCount.trans (Nat.le_succ _), hText⟩
        · rcases Language.mem_mul.mp hText with
            ⟨u, hu, v, hv, rfl⟩
          rcases (ih v).mp hv with ⟨count, hCount, hRest⟩
          refine ⟨count + 1, Nat.succ_le_succ hCount, ?_⟩
          rw [pow_succ']
          exact Language.append_mem_mul hu hRest
      · rintro ⟨count, hCount, hText⟩
        cases count with
        | zero => exact .inl ⟨0, Nat.zero_le _, hText⟩
        | succ count =>
            rw [pow_succ'] at hText
            rcases Language.mem_mul.mp hText with
              ⟨u, hu, v, hv, rfl⟩
            refine .inr (Language.append_mem_mul hu ?_)
            exact (ih v).mpr
              ⟨count, Nat.le_of_succ_le_succ hCount, hv⟩

/- The required copies come first, then any number. -/
theorem copiesOf_none
    (language : UnitLanguage)
    (least : Nat) :
    copiesOf language least none =
      language ^ least * language∗ := by
  ext text
  rw [mem_copiesOf, Language.mem_mul]
  constructor
  · rintro ⟨count, hLeast, -, hText⟩
    rw [← Nat.add_sub_cancel' hLeast, pow_add] at hText
    rcases Language.mem_mul.mp hText with ⟨u, hu, v, hv, rfl⟩
    exact ⟨u, hu, v, (mem_kstar_iff language v).mpr ⟨_, hv⟩,
      rfl⟩
  · rintro ⟨u, hu, v, hv, rfl⟩
    rcases (mem_kstar_iff language v).mp hv with ⟨count, hv⟩
    refine ⟨least + count, Nat.le_add_right _ _, ?_, ?_⟩
    · intro m hNone
      cases hNone
    · rw [pow_add]
      exact Language.append_mem_mul hu hv

/- The required copies come first, then the optional ones. -/
theorem copiesOf_some
    (language : UnitLanguage)
    (least most : Nat) :
    copiesOf language least (some (max least most)) =
      language ^ least * (1 + language) ^ (most - least) := by
  ext text
  rw [mem_copiesOf, Language.mem_mul]
  constructor
  · rintro ⟨count, hLeast, hMost, hText⟩
    have hCount := hMost _ rfl
    rw [← Nat.add_sub_cancel' hLeast, pow_add] at hText
    rcases Language.mem_mul.mp hText with ⟨u, hu, v, hv, rfl⟩
    refine ⟨u, hu, v, ?_, rfl⟩
    exact (mem_one_add_pow language _ v).mpr
      ⟨_, by omega, hv⟩
  · rintro ⟨u, hu, v, hv, rfl⟩
    rcases (mem_one_add_pow language _ v).mp hv with
      ⟨count, hCount, hv⟩
    refine ⟨least + count, Nat.le_add_right _ _, ?_, ?_⟩
    · intro m hm
      cases hm
      omega
    · rw [pow_add]
      exact Language.append_mem_mul hu hv

theorem repeated_once
    (language : UnitLanguage) :
    repeated language true false = 1 + language :=
  rfl

theorem repeated_loop
    (language : UnitLanguage) :
    repeated language true true = language∗ :=
  Language.one_add_self_mul_kstar_eq_kstar language

theorem repeated_plus
    (language : UnitLanguage) :
    repeated language false true = language * language∗ :=
  zero_add _

theorem copiesOf_zero_none
    (language : UnitLanguage) :
    copiesOf language 0 none =
      repeated language true true := by
  rw [copiesOf_none, pow_zero, one_mul, repeated_loop]

theorem copiesOf_one_none
    (language : UnitLanguage) :
    copiesOf language 1 none =
      repeated language false true := by
  rw [copiesOf_none, pow_one, repeated_plus]

theorem copiesOf_zero_one
    (language : UnitLanguage) :
    copiesOf language 0 (some 1) =
      repeated language true false := by
  have hSome := copiesOf_some language 0 1
  rwa [pow_zero, one_mul, pow_one] at hSome

theorem forall₂_replicate
    {part : Construct Segment}
    {language : UnitLanguage}
    (hPart : Builds part language)
    (count : Nat) :
    List.Forall₂ Builds (List.replicate count part)
      (List.replicate count language) := by
  induction count with
  | zero => exact .nil
  | succ count ih => exact .cons hPart ih

theorem builds_repetition
    {part : Construct Segment}
    {language : UnitLanguage}
    (hPart : Builds part language)
    (least : Nat)
    (most : Option Nat) :
    Builds (sequenceSegment (repetitionParts part least most))
      (copiesOf language least (most.map (max least))) := by
  have hRequired := forall₂_replicate hPart least
  cases most with
  | none =>
      rw [Option.map_none, copiesOf_none]
      have hAll := List.rel_append hRequired
        (.cons (builds_repeatSegment hPart true true) .nil)
      have hBuilds := builds_sequenceSegment hAll
      rwa [List.prod_append, List.prod_replicate,
        List.prod_singleton, repeated_loop] at hBuilds
  | some most =>
      rw [Option.map_some, copiesOf_some]
      have hAll := List.rel_append hRequired
        (forall₂_replicate
          (builds_repeatSegment hPart true false)
          (most - least))
      have hBuilds := builds_sequenceSegment hAll
      rwa [List.prod_append, List.prod_replicate,
        List.prod_replicate, repeated_once] at hBuilds

end Thompson

------------------------------------------------------------
-- Ranks
------------------------------------------------------------

namespace Grammar

/- A token expression is a part of another one. -/
def PartOf
    (g : Grammar)
    (part id : Nat) : Prop :=
  part ∈ g.regexChildren id

/- No token expression is part of itself. -/
def RegexTree
    (g : Grammar) : Prop :=
  ∀ id, ¬ Relation.TransGen g.PartOf id id

/-
  It is enough that parts come before what they are part of,
  as they do when a grammar is put together.
-/
theorem regexTree_of_partsBefore
    {g : Grammar}
    (hBefore :
      ∀ id, ∀ part ∈ g.regexChildren id, part < id) :
    g.RegexTree := by
  have hLess :
      ∀ {a b : Nat}, Relation.TransGen g.PartOf a b → a < b := by
    intro a b hParts
    induction hParts with
    | single hPart => exact hBefore _ _ hPart
    | tail _ hPart ih => exact ih.trans (hBefore _ _ hPart)
  intro id hCycle
  exact Nat.lt_irrefl id (hLess hCycle)

open Classical in
/- The expressions of the grammar that are parts of one. -/
noncomputable def partsWithin
    (g : Grammar)
    (id : Nat) : Finset Nat :=
  (Finset.range g.regexes.size).filter
    fun part => Relation.TransGen g.PartOf part id

theorem mem_partsWithin
    {g : Grammar}
    {part id : Nat} :
    part ∈ g.partsWithin id ↔
      part < g.regexes.size ∧
        Relation.TransGen g.PartOf part id := by
  simp only [partsWithin, Finset.mem_filter, Finset.mem_range]

/- More than the steps from an expression down to a leaf. -/
noncomputable def height
    (g : Grammar)
    (id : Nat) : Nat :=
  if id < g.regexes.size then (g.partsWithin id).card + 2
  else 1

theorem regex_of_size_le
    {g : Grammar}
    {id : Nat}
    (hOutside : g.regexes.size ≤ id) :
    (g.regex id).form = .endOfFile := by
  unfold regex
  rw [Array.getD_eq_getD_getElem?,
    Array.getElem?_eq_none hOutside]
  rfl

theorem lt_size_of_form
    {g : Grammar}
    {id : Nat}
    (hForm : (g.regex id).form ≠ .endOfFile) :
    id < g.regexes.size := by
  by_contra hOutside
  exact hForm (regex_of_size_le (not_lt.mp hOutside))

theorem lt_size_of_partOf
    {g : Grammar}
    {part id : Nat}
    (hPart : g.PartOf part id) :
    id < g.regexes.size := by
  refine lt_size_of_form ?_
  intro hForm
  simp [PartOf, regexChildren, hForm] at hPart

/- Parts are not as high as what they are part of. -/
theorem height_lt_of_partOf
    {g : Grammar}
    (hTree : g.RegexTree)
    {part id : Nat}
    (hPart : g.PartOf part id) :
    g.height part < g.height id := by
  have hSelf : Relation.TransGen g.PartOf part id :=
    .single hPart
  unfold height
  rw [if_pos (lt_size_of_partOf hPart)]
  split
  · next hInside =>
      have hSubset :
          g.partsWithin part ⊂ g.partsWithin id := by
        refine Finset.ssubset_iff_subset_ne.mpr ⟨?_, ?_⟩
        · intro x hx
          rcases mem_partsWithin.mp hx with ⟨hRange, hParts⟩
          exact mem_partsWithin.mpr
            ⟨hRange, hParts.tail hPart⟩
        · intro hEq
          have hMem : part ∈ g.partsWithin part := by
            rw [hEq]
            exact mem_partsWithin.mpr ⟨hInside, hSelf⟩
          exact hTree part (mem_partsWithin.mp hMem).2
      have hCard := Finset.card_lt_card hSubset
      omega
  · omega

theorem height_le
    {g : Grammar}
    (hTree : g.RegexTree)
    (id : Nat) :
    g.height id ≤ g.regexes.size + 1 := by
  unfold height
  split
  · next hInside =>
      have hSubset : g.partsWithin id ⊆
          (Finset.range g.regexes.size).erase id := by
        intro x hx
        rcases mem_partsWithin.mp hx with ⟨hRange, hParts⟩
        refine Finset.mem_erase.mpr
          ⟨?_, Finset.mem_range.mpr hRange⟩
        rintro rfl
        exact hTree x hParts
      have hCard := Finset.card_le_card hSubset
      rw [Finset.card_erase_of_mem (Finset.mem_range.mpr
        hInside), Finset.card_range] at hCard
      omega
  · omega

theorem height_pos
    (g : Grammar)
    (id : Nat) :
    0 < g.height id := by
  unfold height
  split <;> omega

/- The expressions that are not being expanded. -/
def unexpanded
    (g : Grammar)
    (path : List Nat) : Finset Nat :=
  (Finset.range g.regexes.size).filter fun id => id ∉ path

theorem card_unexpanded_cons
    {g : Grammar}
    {path : List Nat}
    {target : Nat}
    (hInside : target < g.regexes.size)
    (hFresh : target ∉ path) :
    (g.unexpanded (target :: path)).card + 1 =
      (g.unexpanded path).card := by
  have hMem : target ∈ g.unexpanded path :=
    Finset.mem_filter.mpr
      ⟨Finset.mem_range.mpr hInside, hFresh⟩
  have hErase : g.unexpanded (target :: path) =
      (g.unexpanded path).erase target := by
    ext id
    simp only [unexpanded, Finset.mem_filter,
      Finset.mem_range, List.mem_cons, not_or,
      Finset.mem_erase]
    tauto
  rw [hErase]
  exact Finset.card_erase_add_one hMem

/- The steps that the expansion of an expression may take. -/
noncomputable def expansionDepth
    (g : Grammar)
    (path : List Nat)
    (id : Nat) : Nat :=
  (g.unexpanded path).card * (g.regexes.size + 2) +
    g.height id

theorem expansionDepth_part
    {g : Grammar}
    (hTree : g.RegexTree)
    {path : List Nat}
    {part id : Nat}
    (hPart : g.PartOf part id) :
    g.expansionDepth path part < g.expansionDepth path id :=
  Nat.add_lt_add_left (height_lt_of_partOf hTree hPart) _

theorem expansionDepth_reference
    {g : Grammar}
    (hTree : g.RegexTree)
    {path : List Nat}
    {id target : Nat}
    {name : String}
    (hForm : (g.regex id).form = .reference name (some target))
    (hFresh : target ∉ path) :
    g.expansionDepth (target :: path) target <
      g.expansionDepth path id := by
  have hId : id < g.regexes.size :=
    lt_size_of_form (by simp [hForm])
  unfold expansionDepth
  by_cases hInside : target < g.regexes.size
  · have hCard := card_unexpanded_cons hInside hFresh
    have hHeight := height_le hTree target
    have hPos := height_pos g id
    rw [← hCard, Nat.add_mul]
    omega
  · have hSame : g.unexpanded (target :: path) =
        g.unexpanded path := by
      ext x
      simp only [unexpanded, Finset.mem_filter,
        Finset.mem_range, List.mem_cons, not_or]
      constructor
      · rintro ⟨hx, -, hNot⟩
        exact ⟨hx, hNot⟩
      · rintro ⟨hx, hNot⟩
        exact ⟨hx, fun hEq => hInside (hEq ▸ hx), hNot⟩
    rw [hSame]
    refine Nat.add_lt_add_left ?_ _
    unfold height
    rw [if_neg hInside, if_pos hId]
    omega

theorem expansionDepth_le
    {g : Grammar}
    (hTree : g.RegexTree)
    (id : Nat) :
    g.expansionDepth [] id ≤ Thompson.depthBound g := by
  have hCard :
      (g.unexpanded []).card ≤ g.regexes.size := by
    have hFilter := Finset.card_filter_le
      (Finset.range g.regexes.size) fun id => id ∉ []
    rwa [Finset.card_range] at hFilter
  have hHeight := height_le hTree id
  have hMul := Nat.mul_le_mul_right (g.regexes.size + 2) hCard
  unfold expansionDepth Thompson.depthBound
  rw [Nat.add_mul (g.regexes.size) 1]
  omega

end Grammar

------------------------------------------------------------
-- Expressions
------------------------------------------------------------

namespace Thompson

theorem forall₂_map
    {f : Nat → Construct Segment}
    {language : Nat → UnitLanguage}
    {parts : List Nat}
    (hParts : ∀ part ∈ parts, Builds (f part) (language part)) :
    List.Forall₂ Builds (parts.map f) (parts.map language) := by
  rw [List.forall₂_map_left_iff, List.forall₂_map_right_iff,
    List.forall₂_same]
  exact hParts

/-
  With enough depth every expression gets a segment for its
  texts.  The induction is on the depth, since a reference
  leads out of the parts of an expression.
-/
theorem builds_segmentTo
    {g : Grammar}
    (hTree : g.RegexTree)
    (ignoreCase : Bool)
    (depth : Nat)
    (path : List Nat)
    (id : Nat)
    (hDepth : g.expansionDepth path id ≤ depth) :
    Builds (segmentTo g ignoreCase depth path id)
      (languageOf g ignoreCase path id) := by
  induction depth generalizing path id with
  | zero =>
      have hPos := g.height_pos id
      unfold Grammar.expansionDepth at hDepth
      omega
  | succ depth ih =>
      have hPart :
          ∀ part, part ∈ g.regexChildren id →
            Builds (segmentTo g ignoreCase depth path part)
              (languageOf g ignoreCase path part) := by
        intro part hMem
        have hLess : g.expansionDepth path part <
            g.expansionDepth path id :=
          Grammar.expansionDepth_part hTree hMem
        exact ih path part (by omega)
      have hCopies := @languageOf_copies g ignoreCase path id
      rw [segmentTo]
      split
      · next image hForm =>
          rw [languageOf_literal hForm]
          exact builds_literalSegment _ _
      · next negated items hForm =>
          rw [languageOf_chars hForm]
          exact builds_charsSegment _ _ _
      · next name target hForm =>
          rw [languageOf_reference hForm]
          split
          · next hMem =>
              rw [if_pos (by simpa using hMem)]
              exact builds_addPair
          · next hFresh =>
              have hFresh' : target ∉ path := by
                simpa using hFresh
              have hLess := Grammar.expansionDepth_reference
                hTree hForm hFresh'
              rw [if_neg hFresh']
              exact ih (target :: path) target (by omega)
      · next name hForm =>
          rw [languageOf_eq_zero (.inl ⟨name, hForm⟩)]
          exact builds_addPair
      · next hForm =>
          rw [languageOf_eq_zero (.inr hForm)]
          exact builds_addPair
      · next parts hForm =>
          rw [languageOf_sequence hForm]
          refine builds_sequenceSegment (forall₂_map ?_)
          intro part hMem
          exact hPart part
            (by simpa [Grammar.regexChildren, hForm] using hMem)
      · next parts hForm =>
          have hAny : languageOf g ignoreCase path id =
              anyOf (parts.map
                (languageOf g ignoreCase path)) := by
            rw [languageOf_choice hForm]
            simp only [anyOf, List.mem_map,
              exists_exists_and_eq_and]
            rfl
          rw [hAny]
          refine builds_choiceSegment (forall₂_map ?_)
          intro part hMem
          exact hPart part
            (by simpa [Grammar.regexChildren, hForm] using hMem)
      · next body hForm =>
          rw [hCopies (by rw [hForm]; rfl)]
          change Builds _ (copiesOf _ 1 none)
          rw [copiesOf_one_none]
          exact builds_repeatSegment (hPart body
            (by simp [Grammar.regexChildren, hForm])) _ _
      · next body hForm =>
          rw [hCopies (by rw [hForm]; rfl)]
          change Builds _ (copiesOf _ 0 none)
          rw [copiesOf_zero_none]
          exact builds_repeatSegment (hPart body
            (by simp [Grammar.regexChildren, hForm])) _ _
      · next body hForm =>
          rw [hCopies (by rw [hForm]; rfl)]
          change Builds _ (copiesOf _ 0 (some 1))
          rw [copiesOf_zero_one]
          exact builds_repeatSegment (hPart body
            (by simp [Grammar.regexChildren, hForm])) _ _
      · next body least most hForm =>
          rw [hCopies (by rw [hForm]; rfl)]
          exact builds_repetition (hPart body
            (by simp [Grammar.regexChildren, hForm])) _ _

/- Every expression gets a segment for its texts. -/
theorem builds_segment
    {g : Grammar}
    (hTree : g.RegexTree)
    (ignoreCase : Bool)
    (id : Nat) :
    Builds (segment g ignoreCase id)
      (languageOf g ignoreCase [] id) :=
  builds_segmentTo hTree ignoreCase _ [] id
    (Grammar.expansionDepth_le hTree id)

------------------------------------------------------------
-- Kinds
------------------------------------------------------------

/- The automaton with a state that accepts a kind. -/
def withAccept
    (q kind : Nat)
    (m : Nfa) : Nfa :=
  { m with
    states := m.states.modify q fun s =>
      { s with
        accept :=
          some ((s.accept.map (min · kind)).getD kind) } }

theorem state_withAccept
    {q : Nat}
    {m : Nfa}
    (kind : Nat)
    (hState : q < m.states.size)
    (r : Nat) :
    (withAccept q kind m).state r =
      if r = q then
        { m.state r with
          accept := some
            (((m.state r).accept.map (min · kind)).getD kind) }
      else m.state r :=
  getD_modify m.states _ _ r hState

theorem silent_withAccept
    {q : Nat}
    {m : Nfa}
    (kind : Nat)
    (hState : q < m.states.size)
    (r : Nat) :
    ((withAccept q kind m).state r).silent =
      (m.state r).silent := by
  rw [state_withAccept kind hState]
  split <;> rfl

theorem moves_withAccept
    {q : Nat}
    {m : Nfa}
    (kind : Nat)
    (hState : q < m.states.size)
    (r : Nat) :
    ((withAccept q kind m).state r).moves =
      (m.state r).moves := by
  rw [state_withAccept kind hState]
  split <;> rfl

/- A state that accepted nothing accepts the kind. -/
theorem accept_withAccept
    {q : Nat}
    {m : Nfa}
    (kind : Nat)
    (hState : q < m.states.size)
    (hNone : (m.state q).accept = none)
    (r : Nat) :
    ((withAccept q kind m).state r).accept =
      if r = q then some kind else (m.state r).accept := by
  rw [state_withAccept kind hState]
  split
  · next hr => simp [hr, hNone]
  · rfl

theorem path_withAccept
    {q : Nat}
    {m : Nfa}
    (kind : Nat)
    (hState : q < m.states.size)
    {r t : Nat}
    {w : List Nat}
    (hPath : m.Path r w t) :
    (withAccept q kind m).Path r w t := by
  refine hPath.mono ?_ ?_
  · intro r t ht
    rwa [silent_withAccept kind hState]
  · intro r e he
    rwa [moves_withAccept kind hState]

theorem size_withAccept
    (q kind : Nat)
    (m : Nfa) :
    (withAccept q kind m).states.size = m.states.size := by
  simp [withAccept]

theorem inRange_withAccept
    {q : Nat}
    {m : Nfa}
    (kind : Nat)
    (hState : q < m.states.size)
    (hRange : m.InRange) :
    (withAccept q kind m).InRange := by
  constructor
  · intro r t ht
    rw [silent_withAccept kind hState] at ht
    rw [size_withAccept]
    exact hRange.silent r t ht
  · intro r e he
    rw [moves_withAccept kind hState] at he
    rw [size_withAccept]
    exact hRange.moves r e he

theorem Respects.withAccept
    {q r : Nat}
    {m : Nfa}
    {labels : Labels}
    (kind : Nat)
    (hState : q < m.states.size)
    (hLabels : Respects m labels r) :
    Respects (withAccept q kind m) labels r := by
  constructor
  · intro t ht
    rw [silent_withAccept kind hState] at ht
    exact hLabels.silent t ht
  · intro e he
    rw [moves_withAccept kind hState] at he
    exact hLabels.moves e he

/- All states of a larger automaton respect their labels. -/
theorem Labelled.respects
    {m m' : Nfa}
    {labels labels' : Labels}
    (hRange : m.InRange)
    (hLabelled : Labelled m m' labels labels')
    (hLabels : ∀ q, Respects m labels q)
    (q : Nat) :
    Respects m' labels' q := by
  by_cases hOld : q < m.states.size
  · exact hLabelled.kept q hOld
      ((hLabels q).congr hRange hOld hLabelled.agree)
  by_cases hNew : q < m'.states.size
  · exact hLabelled.fresh q (not_lt.mp hOld) hNew
  exact respects_of_empty
    (Nfa.state_of_size_le (not_lt.mp hNew)) labels'

theorem run_addKind
    (g : Grammar)
    (id kind : Nat)
    (ignoreCase : Bool)
    (m : Nfa) :
    ((addKind g id kind ignoreCase).run m).2 =
      withSilent ((segment g ignoreCase id).run m).2.start
        ((segment g ignoreCase id).run m).1.entry
        (withAccept ((segment g ignoreCase id).run m).1.exit
          kind ((segment g ignoreCase id).run m).2) :=
  rfl

/- An automaton in which some kinds have been entered. -/
structure Enters
    (g : Grammar)
    (kinds entered : List (Nat × Nat × Bool))
    (m : Nfa) : Prop where
  inRange : m.InRange
  start : m.start < m.states.size
  complete :
    ∀ e ∈ entered, ∀ w ∈ languageOf g e.2.2 [] e.1,
      m.Accepts e.2.1 w
  /- No kind gets words beyond those of the whole list. -/
  sound :
    ∀ kind, ∃ labels : Labels,
      (∀ q, Respects m labels q) ∧
        (∀ q, (m.state q).accept = some kind →
          [] ∈ labels q) ∧
        labels m.start =
          { w | ∃ e ∈ kinds, e.2.1 = kind ∧
            w ∈ languageOf g e.2.2 [] e.1 }

theorem enters_empty
    (g : Grammar)
    (kinds : List (Nat × Nat × Bool)) :
    Enters g kinds [] {} := by
  have hState : ∀ q, ({} : Nfa).state q = default := by
    intro q
    cases q with
    | zero => rfl
    | succ q => rfl
  constructor
  · constructor
    · intro q t ht
      rw [hState] at ht
      cases ht
    · intro q t ht
      rw [hState] at ht
      cases ht
  · exact Nat.zero_lt_one
  · intro e he
    cases he
  · intro kind
    refine ⟨fun _ => { w | ∃ e ∈ kinds, e.2.1 = kind ∧
      w ∈ languageOf g e.2.2 [] e.1 }, ?_, ?_, rfl⟩
    · intro q
      constructor
      · intro t ht
        exact le_rfl
      · intro e he
        rw [hState] at he
        cases he
    · intro q hq
      rw [hState] at hq
      cases hq

/- Entering one more kind. -/
theorem enters_addKind
    {g : Grammar}
    (hTree : g.RegexTree)
    {kinds entered : List (Nat × Nat × Bool)}
    {m : Nfa}
    (hEnters : Enters g kinds entered m)
    {id kind : Nat}
    {ignoreCase : Bool}
    (hMem : (id, kind, ignoreCase) ∈ kinds) :
    Enters g kinds (entered ++ [(id, kind, ignoreCase)])
      ((addKind g id kind ignoreCase).run m).2 := by
  rw [run_addKind]
  have hAdds := builds_segment hTree ignoreCase id m
    hEnters.inRange
  generalize ((segment g ignoreCase id).run m).2 = m₁
    at hAdds ⊢
  generalize ((segment g ignoreCase id).run m).1.entry = entry
    at hAdds ⊢
  generalize ((segment g ignoreCase id).run m).1.exit = exit
    at hAdds ⊢
  have hExit := hAdds.exitInside
  have hSize := hAdds.grows.size
  have hStart := hAdds.grows.start
  have hStart₁ : m₁.start < m₁.states.size := by
    rw [hStart]
    exact hEnters.start.trans_le hSize
  let m₂ := withAccept exit kind m₁
  have hSize₂ : m₂.states.size = m₁.states.size :=
    size_withAccept exit kind m₁
  have hStart₂ : m₁.start < m₂.states.size := by
    rw [hSize₂]
    exact hStart₁
  have hRange₂ : m₂.InRange := inRange_withAccept kind hExit
    (hAdds.grows.inRange hEnters.inRange)
  have hJoin : Grows 0 m₂ (withSilent m₁.start entry m₂) :=
    Grows.withSilent hStart₂
      (hAdds.entryInside.trans_eq hSize₂.symm) (Nat.zero_le _)
  have hPath : ∀ {q r : Nat} {w : List Nat},
      m₁.Path q w r →
        (withSilent m₁.start entry m₂).Path q w r := by
    intro q r w hPath
    exact hJoin.path (path_withAccept kind hExit hPath)
  -- The exit is new, so no other kind has been accepted there.
  have hNone : (m₁.state exit).accept = none := by
    rw [hAdds.grows.accept, Nfa.state_of_size_le hAdds.exitNew]
    rfl
  have hAccept : ∀ q,
      ((withSilent m₁.start entry m₂).state q).accept =
        if q = exit then some kind
        else (m.state q).accept := by
    intro q
    rw [hJoin.accept, accept_withAccept kind hExit hNone,
      hAdds.grows.accept]
  refine ⟨hJoin.inRange hRange₂, ?_, ?_, ?_⟩
  · rw [size_withSilent]
    exact hStart₂
  · intro e he w hw
    rcases List.mem_append.mp he with he | he
    · rcases hEnters.complete e he w hw with ⟨q, hq, hAccepts⟩
      refine ⟨q, ?_, ?_⟩
      · have hOld := hPath (hAdds.grows.path hq)
        rwa [← hStart] at hOld
      · rw [hAccept, if_neg ?_]
        · exact hAccepts
        · rintro rfl
          rw [← hAdds.grows.accept, hNone] at hAccepts
          cases hAccepts
    · rw [List.mem_singleton] at he
      subst he
      refine ⟨exit, ?_, by rw [hAccept, if_pos rfl]⟩
      exact .silent (mem_silent_withSilent entry hStart₂)
        (hPath (hAdds.complete w hw))
  · intro kind'
    rcases hEnters.sound kind' with
      ⟨labels, hLabels, hAccepts, hAtStart⟩
    rcases hAdds.sound labels (if kind = kind' then 1 else 0)
      with ⟨labels₁, hLabelled, hAtExit, hAtEntry⟩
    have hAtStart₁ : labels₁ m₁.start = labels m.start := by
      rw [hStart]
      exact hLabelled.agree _ hEnters.start
    have hInto : labels₁ entry ≤ labels₁ m₁.start := by
      rw [hAtStart₁, hAtStart]
      refine hAtEntry.trans ?_
      intro w hw
      split at hw
      · next hKind =>
          rw [mul_one] at hw
          exact ⟨_, hMem, hKind, hw⟩
      · rw [mul_zero] at hw
        cases hw
    have hRespects₂ : ∀ q, Respects m₂ labels₁ q := fun q =>
      (hLabelled.respects hEnters.inRange hLabels q).withAccept
        kind hExit
    refine ⟨labels₁, ?_, ?_, hAtStart₁.trans hAtStart⟩
    · exact ((Labelled.refl m₂ labels₁).withSilent hStart₂
        hInto).respects hRange₂ hRespects₂
    · intro q hq
      rw [hAccept] at hq
      split at hq
      · next hExitState =>
          rw [Option.some_inj] at hq
          rw [if_pos hq] at hAtExit
          rw [hExitState]
          exact hAtExit rfl
      · have hOld : q < m.states.size := by
          by_contra hBeyond
          rw [Nfa.state_of_size_le (not_lt.mp hBeyond)] at hq
          cases hq
        rw [hLabelled.agree q hOld]
        exact hAccepts q hq

theorem enters_forM
    {g : Grammar}
    (hTree : g.RegexTree)
    {kinds : List (Nat × Nat × Bool)}
    (rest entered : List (Nat × Nat × Bool))
    (hRest : ∀ e ∈ rest, e ∈ kinds)
    (m : Nfa)
    (hEnters : Enters g kinds entered m) :
    Enters g kinds (entered ++ rest)
      ((rest.forM fun e => addKind g e.1 e.2.1 e.2.2).run
        m).2 := by
  induction rest generalizing entered m with
  | nil =>
      rw [List.append_nil]
      exact hEnters
  | cons e rest ih =>
      have hFirst := enters_addKind hTree hEnters
        (hRest e List.mem_cons_self)
      have hNext := ih (entered ++ [e])
        (fun e' he' => hRest e' (List.mem_cons_of_mem _ he'))
        _ hFirst
      rwa [List.append_assoc] at hNext

theorem enters_ofKinds
    {g : Grammar}
    (hTree : g.RegexTree)
    (kinds : List (Nat × Nat × Bool)) :
    Enters g kinds kinds (ofKinds g kinds) := by
  have hAll := enters_forM hTree kinds [] (fun e he => he) {}
    (enters_empty g kinds)
  exact hAll

/-
  The automaton of several kinds accepts exactly the texts of
  their expressions.
-/
theorem accepts_ofKinds
    {g : Grammar}
    (hTree : g.RegexTree)
    (kinds : List (Nat × Nat × Bool))
    (kind : Nat)
    (w : List Nat) :
    (ofKinds g kinds).Accepts kind w ↔
      ∃ e ∈ kinds, e.2.1 = kind ∧
        Matches g e.2.2 [] e.1 w := by
  have hEnters := enters_ofKinds hTree kinds
  constructor
  · rintro ⟨q, hPath, hAccept⟩
    rcases hEnters.sound kind with
      ⟨labels, hLabels, hAccepts, hAtStart⟩
    have hMem := mem_of_path hLabels hPath
      (hAccepts q hAccept)
    rw [hAtStart, List.append_nil] at hMem
    exact hMem
  · rintro ⟨e, he, rfl, hw⟩
    exact hEnters.complete e he w hw

end Thompson

end Descent
