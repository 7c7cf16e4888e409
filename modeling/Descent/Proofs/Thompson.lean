import Descent.Proofs.Labels
import Mathlib.Data.List.Perm.Subperm
import Mathlib.Logic.Relation

/-
  The automaton of token expressions accepts what they match.

  A construction is described by the language of the segment
  that it adds: every word of the language is read from the
  entry to the exit, and labels can be extended to the new
  states such that the label of the entry is no more than the
  language followed by what is wanted of the exit.

  Main declarations:
    * `Thompson.Builds`
    * `Grammar.RegexTree`
    * `Thompson.builds_segment`
    * `Thompson.accepts_ofKinds`
-/

------------------------------------------------------------
-- What a construction adds
------------------------------------------------------------

namespace Descent

namespace Thompson

open Computability
open Text (maxUnit caseVariants)

/- An automaton has got a segment for a language. -/
structure Adds
    (m m' : Nfa)
    (entry exit : Nat)
    (language : UnitLanguage) : Prop where
  grows : Grows m.states.size m m'
  entryNew : m.states.size ≤ entry
  entryInside : entry < m'.states.size
  exitNew : m.states.size ≤ exit
  exitInside : exit < m'.states.size
  complete :
    ∀ w ∈ language, m'.Path entry w exit
  sound :
    ∀ (labels : Labels) (wanted : UnitLanguage),
      ∃ labels', Labelled m m' labels labels' ∧
        wanted ≤ labels' exit ∧
        labels' entry ≤ language * wanted

/- A construction adds a segment for a language. -/
def Builds
    (part : Construct Segment)
    (language : UnitLanguage) : Prop :=
  ∀ m : Nfa, m.InRange →
    Adds m (part.run m).2 (part.run m).1.entry
      (part.run m).1.exit language

/-
  An automaton has got a way for a language from a state that
  it had to another one.
-/
structure Chains
    (m m' : Nfa)
    (first last : Nat)
    (language : UnitLanguage) : Prop where
  grows : Grows m.states.size m m'
  new : last = first ∨ m.states.size ≤ last
  inside : last < m'.states.size
  complete :
    ∀ w ∈ language, m'.Path first w last
  sound :
    ∀ (labels : Labels) (wanted : UnitLanguage),
      language * wanted ≤ labels first →
        ∃ labels', Labelled m m' labels labels' ∧
          wanted ≤ labels' last

------------------------------------------------------------
-- Pairs
------------------------------------------------------------

theorem run_addPair
    (m : Nfa) :
    addPair.run m =
      (⟨m.states.size, m.states.size + 1⟩,
        pushed (pushed m)) := by
  rw [← size_pushed]
  rfl

theorem size_pushed_pushed
    (m : Nfa) :
    (pushed (pushed m)).states.size =
      m.states.size + 2 := by
  rw [size_pushed, size_pushed]

theorem grows_pushed_pushed
    (base : Nat)
    (m : Nfa) :
    Grows base m (pushed (pushed m)) :=
  (Grows.pushed base m).trans (Grows.pushed base (pushed m))

/- Both states of a pair may have any label. -/
theorem labelled_pair
    {m : Nfa}
    (hRange : m.InRange)
    (labels : Labels)
    (atEntry atExit : UnitLanguage) :
    ∃ labels', Labelled m (pushed (pushed m)) labels labels' ∧
      labels' m.states.size = atEntry ∧
      labels' (m.states.size + 1) = atExit := by
  refine
    ⟨_, Labelled.trans hRange (Grows.pushed 0 m)
      (Labelled.pushed m labels atEntry)
      (Labelled.pushed (pushed m) _ atExit), ?_, ?_⟩
  · rw [Function.update_of_ne, Function.update_self]
    rw [size_pushed]
    omega
  · rw [size_pushed, Function.update_self]

/- A pair without moves matches nothing. -/
theorem builds_addPair :
    Builds addPair 0 := by
  intro m hRange
  rw [run_addPair]
  change Adds m (pushed (pushed m)) m.states.size
    (m.states.size + 1) 0
  have hSize := size_pushed_pushed m
  refine ⟨grows_pushed_pushed _ m, le_rfl, by omega,
    Nat.le_succ _, by omega, ?_, ?_⟩
  · intro w hw
    cases hw
  · intro labels wanted
    rcases labelled_pair hRange labels 0 wanted with
      ⟨labels', hLabelled, hEntry, hExit⟩
    refine ⟨labels', hLabelled, hExit.ge, ?_⟩
    rw [hEntry, zero_mul]

------------------------------------------------------------
-- Literals and character lists
------------------------------------------------------------

/- The texts that spell an image. -/
def spelling
    (ignoreCase : Bool)
    (image : List Nat) : UnitLanguage :=
  { text | Spells ignoreCase image text }

theorem mem_spelling
    {ignoreCase : Bool}
    {image text : List Nat} :
    text ∈ spelling ignoreCase image ↔
      Spells ignoreCase image text :=
  Iff.rfl

theorem spelling_nil
    (ignoreCase : Bool) :
    spelling ignoreCase [] = 1 := by
  ext text
  rw [mem_spelling, Language.mem_one, Spells,
    List.forall₂_nil_left_iff]

theorem contains_iff
    (cls : CharClass)
    (c : Nat) :
    cls.contains c = true ↔
      cls.bounds.1 ≤ c ∧ c ≤ cls.bounds.2 := by
  simp only [CharClass.contains, Bool.and_eq_true,
    decide_eq_true_eq]

theorem contains_single
    (d c : Nat) :
    (CharClass.single d).contains c = true ↔ c = d := by
  rw [contains_iff]
  change d ≤ c ∧ c ≤ d ↔ c = d
  omega

theorem contains_ofRange
    (lo hi c : Nat) :
    (CharClass.ofRange lo hi).contains c = true ↔
      lo ≤ c ∧ c ≤ hi := by
  unfold CharClass.ofRange
  split
  · next hEq =>
      rw [contains_single]
      omega
  · rw [contains_iff]
    rfl

theorem run_spell_cons
    (ignoreCase : Bool)
    (source : Nat)
    (c : Nat)
    (image : List Nat)
    (m : Nfa) :
    (spell ignoreCase source (c :: image)).run m =
      (spell ignoreCase m.states.size image).run
        (withMoves source m.states.size
          ((unitForms ignoreCase c).map .single)
          (pushed m)) :=
  rfl

/- Spelling an image makes a way for its texts. -/
theorem chains_spell
    (ignoreCase : Bool)
    (source : Nat)
    (image : List Nat)
    (m : Nfa)
    (hRange : m.InRange)
    (hSource : source < m.states.size) :
    Chains m ((spell ignoreCase source image).run m).2 source
      ((spell ignoreCase source image).run m).1
      (spelling ignoreCase image) := by
  induction image generalizing source m with
  | nil =>
      refine ⟨Grows.refl _ m, .inl rfl, hSource, ?_, ?_⟩
      · intro w hw
        rw [spelling_nil, Language.mem_one] at hw
        subst hw
        exact .nil source
      · intro labels wanted hLe
        rw [spelling_nil, one_mul] at hLe
        exact ⟨labels, Labelled.refl m labels, hLe⟩
  | cons c image ih =>
      rw [run_spell_cons]
      let next := m.states.size
      let forms := (unitForms ignoreCase c).map CharClass.single
      let m₁ := withMoves source next forms (pushed m)
      have hPushed : (pushed m).states.size = next + 1 :=
        size_pushed m
      have hSize : m₁.states.size = next + 1 := by
        rw [size_withMoves, hPushed]
      have hSource' : source < (pushed m).states.size := by
        omega
      have hGrows : Grows next m m₁ :=
        (Grows.pushed next m).trans
          (Grows.withMoves forms hSource' (by omega) le_rfl)
      have hNext := ih next m₁ (hGrows.inRange hRange)
        (by omega)
      have hMove :
          ∀ d ∈ unitForms ignoreCase c,
            (CharClass.single d, next) ∈
              (m₁.state source).moves := by
        intro d hd
        rw [state_withMoves _ _ hSource', if_pos rfl]
        refine List.mem_append_right _ ?_
        exact List.mem_map_of_mem
          (List.mem_map_of_mem hd)
      refine ⟨?_, .inr ?_, hNext.inside, ?_, ?_⟩
      · exact hGrows.trans (hNext.grows.mono (by omega))
      · rcases hNext.new with hEq | hNew
        · exact hEq.ge
        · have hLow : next + 1 ≤ _ := hSize.ge.trans hNew
          exact (Nat.le_succ next).trans hLow
      · intro w hw
        rcases List.forall₂_cons_left_iff.mp hw with
          ⟨d, text, hd, hText, rfl⟩
        refine .move (hNext.grows.moves _ _ (hMove d hd))
          ((contains_single d d).mpr rfl)
          (hNext.complete text hText)
      · intro labels wanted hLe
        have hPush := Labelled.pushed m labels
          (spelling ignoreCase image * wanted)
        have hMoves : Labelled m m₁ labels _ :=
          hPush.withMoves hSource' (by
            intro cls hCls d hd w hw
            rcases List.mem_map.mp hCls with ⟨e, he, rfl⟩
            rw [contains_single] at hd
            subst hd
            rw [Function.update_self] at hw
            rw [Function.update_of_ne hSource.ne]
            rcases Language.mem_mul.mp hw with
              ⟨text, hText, v, hv, rfl⟩
            refine hLe (Language.append_mem_mul
              (a := d :: text) ?_ hv)
            exact List.Forall₂.cons he hText)
        rcases hNext.sound _ wanted
            (le_of_eq (Function.update_self next _ labels).symm)
          with ⟨labels', hLabelled, hWanted⟩
        exact ⟨labels',
          Labelled.trans hRange hGrows hMoves hLabelled,
          hWanted⟩

theorem run_literalSegment_cons
    (c : Nat)
    (image : List Nat)
    (ignoreCase : Bool)
    (m : Nfa) :
    (literalSegment (c :: image) ignoreCase).run m =
      (⟨m.states.size,
          ((spell ignoreCase m.states.size
            (c :: image)).run (pushed m)).1⟩,
        ((spell ignoreCase m.states.size
          (c :: image)).run (pushed m)).2) :=
  rfl

theorem run_literalSegment_nil
    (ignoreCase : Bool)
    (m : Nfa) :
    (literalSegment [] ignoreCase).run m =
      (⟨m.states.size, m.states.size + 1⟩,
        withSilent m.states.size (m.states.size + 1)
          (pushed (pushed m))) := by
  rw [← size_pushed]
  rfl

theorem builds_literalSegment
    (image : List Nat)
    (ignoreCase : Bool) :
    Builds (literalSegment image ignoreCase)
      (spelling ignoreCase image) := by
  intro m hRange
  cases image with
  | nil =>
      rw [run_literalSegment_nil, spelling_nil]
      change Adds m
        (withSilent m.states.size (m.states.size + 1)
          (pushed (pushed m)))
        m.states.size (m.states.size + 1) 1
      have hSize := size_pushed_pushed m
      have hEntry :
          m.states.size < (pushed (pushed m)).states.size := by
        omega
      have hStep : Grows m.states.size (pushed (pushed m))
          (withSilent m.states.size (m.states.size + 1)
            (pushed (pushed m))) :=
        Grows.withSilent hEntry (by omega) (by omega)
      have hSize' := size_withSilent m.states.size
        (m.states.size + 1) (pushed (pushed m))
      refine ⟨(grows_pushed_pushed _ m).trans hStep,
        le_rfl, by omega, Nat.le_succ _, by omega, ?_, ?_⟩
      · intro w hw
        rw [Language.mem_one] at hw
        subst hw
        exact .silent (mem_silent_withSilent _ hEntry)
          (.nil _)
      · intro labels wanted
        rcases labelled_pair hRange labels wanted wanted with
          ⟨labels', hLabelled, hAtEntry, hAtExit⟩
        refine ⟨labels', hLabelled.withSilent hEntry ?_,
          hAtExit.ge, ?_⟩
        · rw [hAtEntry, hAtExit]
        · rw [hAtEntry, one_mul]
  | cons c image =>
      rw [run_literalSegment_cons]
      have hGrows := Grows.pushed m.states.size m
      have hSize := size_pushed m
      have hSpell := chains_spell ignoreCase m.states.size
        (c :: image) (pushed m) (hGrows.inRange hRange)
        (by omega)
      change Adds m
        ((spell ignoreCase m.states.size
          (c :: image)).run (pushed m)).2
        m.states.size
        ((spell ignoreCase m.states.size
          (c :: image)).run (pushed m)).1 _
      have hAfter := hSpell.grows.size
      refine ⟨hGrows.trans (hSpell.grows.mono (by omega)),
        le_rfl, by omega, ?_, hSpell.inside,
        hSpell.complete, ?_⟩
      · rcases hSpell.new with hEq | hNew
        · exact hEq.ge
        · exact hGrows.size.trans hNew
      intro labels wanted
      have hPush := Labelled.pushed m labels
        (spelling ignoreCase (c :: image) * wanted)
      rcases hSpell.sound _ wanted
          (Function.update_self m.states.size _ labels).ge with
        ⟨labels', hLabelled, hWanted⟩
      refine ⟨labels',
        Labelled.trans hRange hGrows hPush hLabelled,
        hWanted, ?_⟩
      rw [hLabelled.agree _ (by omega), Function.update_self]

theorem run_charsSegment
    (negated : Bool)
    (items : List CharItem)
    (ignoreCase : Bool)
    (m : Nfa) :
    (charsSegment negated items ignoreCase).run m =
      (⟨m.states.size, m.states.size + 1⟩,
        withMoves m.states.size (m.states.size + 1)
          ((CharRanges.ofItems negated items ignoreCase).map
            fun r => .ofRange r.1 r.2)
          (pushed (pushed m))) := by
  rw [← size_pushed]
  rfl

theorem contains_classes
    (negated : Bool)
    (items : List CharItem)
    (ignoreCase : Bool)
    (c : Nat) :
    (∃ cls ∈
        (CharRanges.ofItems negated items ignoreCase).map
          fun r => CharClass.ofRange r.1 r.2,
        cls.contains c = true) ↔
      InList negated items ignoreCase c := by
  rw [← CharRanges.covers_ofItems]
  simp only [List.mem_map, exists_exists_and_eq_and,
    contains_ofRange, CharRanges.Covers]

theorem builds_charsSegment
    (negated : Bool)
    (items : List CharItem)
    (ignoreCase : Bool) :
    Builds (charsSegment negated items ignoreCase)
      { text |
        ∃ c, InList negated items ignoreCase c ∧
          text = [c] } := by
  intro m hRange
  rw [run_charsSegment]
  let entry := m.states.size
  let classes :=
    (CharRanges.ofItems negated items ignoreCase).map
      fun r => CharClass.ofRange r.1 r.2
  change Adds m
    (withMoves entry (entry + 1) classes (pushed (pushed m)))
    entry (entry + 1) _
  have hSize : (pushed (pushed m)).states.size = entry + 2 :=
    size_pushed_pushed m
  have hEntry : entry < (pushed (pushed m)).states.size := by
    omega
  have hSize' := size_withMoves entry (entry + 1) classes
    (pushed (pushed m))
  refine ⟨(grows_pushed_pushed _ m).trans
    (Grows.withMoves classes hEntry (by omega)
      (Nat.le_succ _)), le_rfl, by omega,
    Nat.le_succ _, by omega, ?_, ?_⟩
  · rintro w ⟨c, hUnit, rfl⟩
    rcases (contains_classes _ _ _ c).mpr hUnit with
      ⟨cls, hCls, hContains⟩
    refine .move ?_ hContains (.nil _)
    rw [state_withMoves _ _ hEntry, if_pos rfl]
    exact List.mem_append_right _ (List.mem_map_of_mem hCls)
  · intro labels wanted
    rcases labelled_pair hRange labels (_ * wanted) wanted with
      ⟨labels', hLabelled, hAtEntry, hAtExit⟩
    refine ⟨labels', hLabelled.withMoves hEntry ?_,
      hAtExit.ge, hAtEntry.le⟩
    intro cls hCls c hContains w hw
    rw [hAtExit] at hw
    rw [hAtEntry]
    refine Language.append_mem_mul (a := [c]) ⟨c, ?_, rfl⟩ hw
    exact (contains_classes _ _ _ c).mp ⟨cls, hCls, hContains⟩

------------------------------------------------------------
-- Sequences
------------------------------------------------------------

theorem run_chain_cons
    (current : Nat)
    (part : Construct Segment)
    (parts : List (Construct Segment))
    (m : Nfa) :
    (chain current (part :: parts)).run m =
      (chain (part.run m).1.exit parts).run
        (withSilent current (part.run m).1.entry
          (part.run m).2) :=
  rfl

/- Segments one after the other make a way for a product. -/
theorem chains_chain
    {parts : List (Construct Segment)}
    {languages : List UnitLanguage}
    (hParts : List.Forall₂ Builds parts languages)
    (first : Nat)
    (m : Nfa)
    (hRange : m.InRange)
    (hFirst : first < m.states.size) :
    Chains m ((chain first parts).run m).2 first
      ((chain first parts).run m).1 languages.prod := by
  induction hParts generalizing first m with
  | nil =>
      refine ⟨Grows.refl _ m, .inl rfl, hFirst, ?_, ?_⟩
      · intro w hw
        rw [List.prod_nil, Language.mem_one] at hw
        subst hw
        exact .nil first
      · intro labels wanted hLe
        rw [List.prod_nil, one_mul] at hLe
        exact ⟨labels, Labelled.refl m labels, hLe⟩
  | @cons part language parts languages hPart _ ih =>
      rw [run_chain_cons, List.prod_cons]
      have hAdds := hPart m hRange
      generalize (part.run m).2 = m₁ at hAdds ⊢
      generalize (part.run m).1.entry = entry at hAdds ⊢
      generalize (part.run m).1.exit = exit at hAdds ⊢
      have hSize := hAdds.grows.size
      have hFirst' : first < m₁.states.size := by omega
      have hJoin := Grows.withSilent hFirst'
        hAdds.entryInside hAdds.entryNew
      have hSize' := size_withSilent first entry m₁
      have hGrows := hAdds.grows.trans hJoin
      have hNext := ih exit (withSilent first entry m₁)
        (hGrows.inRange hRange) (by
          rw [hSize']
          exact hAdds.exitInside)
      have hMore := hNext.grows.mono hGrows.size
      refine ⟨hGrows.trans hMore, .inr ?_, hNext.inside,
        ?_, ?_⟩
      · rcases hNext.new with hEq | hNew
        · exact hAdds.exitNew.trans_eq hEq.symm
        · exact hGrows.size.trans hNew
      · intro w hw
        rcases Language.mem_mul.mp hw with
          ⟨u, hu, v, hv, rfl⟩
        have hInto := mem_silent_withSilent entry hFirst'
        refine .silent (hMore.silent _ _ hInto) ?_
        exact (hMore.path (hJoin.path
          (hAdds.complete u hu))).append (hNext.complete v hv)
      · intro labels wanted hLe
        rcases hAdds.sound labels (languages.prod * wanted) with
          ⟨labels₁, hLabelled₁, hExit, hEntry⟩
        have hInto : labels₁ entry ≤ labels₁ first := by
          rw [hLabelled₁.agree first hFirst]
          refine hEntry.trans ?_
          rwa [← mul_assoc]
        have hJoined := hLabelled₁.withSilent hFirst' hInto
        rcases hNext.sound labels₁ wanted hExit with
          ⟨labels₂, hLabelled₂, hWanted⟩
        exact ⟨labels₂,
          Labelled.trans hRange hGrows hJoined hLabelled₂,
          hWanted⟩

theorem run_sequenceSegment
    (parts : List (Construct Segment))
    (m : Nfa) :
    (sequenceSegment parts).run m =
      (⟨m.states.size, m.states.size + 1⟩,
        withSilent
          ((chain m.states.size parts).run
            (pushed (pushed m))).1
          (m.states.size + 1)
          ((chain m.states.size parts).run
            (pushed (pushed m))).2) := by
  rw [← size_pushed]
  rfl

theorem builds_sequenceSegment
    {parts : List (Construct Segment)}
    {languages : List UnitLanguage}
    (hParts : List.Forall₂ Builds parts languages) :
    Builds (sequenceSegment parts) languages.prod := by
  intro m hRange
  rw [run_sequenceSegment]
  have hPair := grows_pushed_pushed m.states.size m
  have hSize := size_pushed_pushed m
  have hChain := chains_chain hParts m.states.size
    (pushed (pushed m)) (hPair.inRange hRange) (by omega)
  change Adds m
    (withSilent _ (m.states.size + 1) _)
    m.states.size (m.states.size + 1) _
  generalize ((chain m.states.size parts).run
    (pushed (pushed m))).2 = m₁ at hChain ⊢
  generalize ((chain m.states.size parts).run
    (pushed (pushed m))).1 = last at hChain ⊢
  have hSize₁ := hChain.grows.size
  have hJoin : Grows m.states.size m₁
      (withSilent last (m.states.size + 1) m₁) :=
    Grows.withSilent hChain.inside (by omega) (by omega)
  have hSize₂ := size_withSilent last (m.states.size + 1) m₁
  refine ⟨(hPair.trans (hChain.grows.mono (by omega))).trans
    hJoin, le_rfl, by omega, Nat.le_succ _, by omega, ?_, ?_⟩
  · intro w hw
    have hOut := mem_silent_withSilent (m.states.size + 1)
      hChain.inside
    have hPath := (hJoin.path (hChain.complete w hw)).append
      (.silent hOut (.nil _))
    rwa [List.append_nil] at hPath
  · intro labels wanted
    rcases labelled_pair hRange labels
        (languages.prod * wanted) wanted with
      ⟨labels₁, hLabelled₁, hEntry, hExit⟩
    rcases hChain.sound labels₁ wanted hEntry.ge with
      ⟨labels₂, hLabelled₂, hLast⟩
    have hAgree := hLabelled₂.agree
    have hAll := Labelled.trans hRange hPair hLabelled₁
      hLabelled₂
    refine ⟨labels₂, hAll.withSilent hChain.inside ?_, ?_, ?_⟩
    · rw [hAgree _ (by omega), hExit]
      exact hLast
    · rw [hAgree _ (by omega), hExit]
    · rw [hAgree _ (by omega), hEntry]

------------------------------------------------------------
-- Choices
------------------------------------------------------------

/- The texts of some language of a list. -/
def anyOf
    (languages : List UnitLanguage) : UnitLanguage :=
  { text | ∃ language ∈ languages, text ∈ language }

/- Enter a segment from a state and leave it to another. -/
def bracket
    (entry exit : Nat)
    (part : Construct Segment) : Construct Unit := do
  let inner ← part
  addSilent entry inner.entry
  addSilent inner.exit exit

theorem run_bracket
    (entry exit : Nat)
    (part : Construct Segment)
    (m : Nfa) :
    ((bracket entry exit part).run m).2 =
      withSilents
        [(entry, (part.run m).1.entry),
          ((part.run m).1.exit, exit)]
        (part.run m).2 :=
  rfl

/- A way around has been made for a language. -/
structure Brackets
    (m m' : Nfa)
    (entry exit : Nat)
    (language : UnitLanguage) : Prop where
  grows : ∀ base ≤ m.states.size, base ≤ exit →
    Grows base m m'
  complete :
    ∀ w ∈ language, m'.Path entry w exit
  sound :
    ∀ labels : Labels,
      language * labels exit ≤ labels entry →
        ∃ labels', Labelled m m' labels labels'

theorem brackets_bracket
    {part : Construct Segment}
    {language : UnitLanguage}
    (hPart : Builds part language)
    {entry exit : Nat}
    (m : Nfa)
    (hRange : m.InRange)
    (hEntry : entry < m.states.size)
    (hExit : exit < m.states.size) :
    Brackets m ((bracket entry exit part).run m).2 entry exit
      language := by
  rw [run_bracket]
  have hAdds := hPart m hRange
  generalize (part.run m).2 = m₁ at hAdds ⊢
  generalize (part.run m).1.entry = inner at hAdds ⊢
  generalize (part.run m).1.exit = outer at hAdds ⊢
  have hSize := hAdds.grows.size
  have hEdges : ∀ base ≤ m.states.size, base ≤ exit →
      ∀ e ∈ [(entry, inner), (outer, exit)],
        e.1 < m₁.states.size ∧ e.2 < m₁.states.size ∧
          base ≤ e.2 := by
    intro base hSmall hBase e he
    simp only [List.mem_cons, List.not_mem_nil, or_false] at he
    rcases he with rfl | rfl
    · exact ⟨hEntry.trans_le hSize, hAdds.entryInside,
        hSmall.trans hAdds.entryNew⟩
    · exact ⟨hAdds.exitInside, hExit.trans_le hSize, hBase⟩
  have hJoin := Grows.withSilents
    (hEdges 0 (Nat.zero_le _) (Nat.zero_le _))
  have hEdge := @mem_silent_withSilents
    [(entry, inner), (outer, exit)] m₁ fun e he =>
      ⟨(hEdges 0 (Nat.zero_le _) (Nat.zero_le _) e he).1,
        (hEdges 0 (Nat.zero_le _) (Nat.zero_le _) e he).2.1⟩
  refine ⟨?_, ?_, ?_⟩
  · intro base hSmall hBase
    exact (hAdds.grows.mono hSmall).trans
      (Grows.withSilents (hEdges base hSmall hBase))
  · intro w hw
    have hPath := (hJoin.path (hAdds.complete w hw)).append
      (.silent (hEdge (by simp)) (.nil exit))
    rw [List.append_nil] at hPath
    exact .silent (hEdge (by simp)) hPath
  · intro labels hLe
    rcases hAdds.sound labels (labels exit) with
      ⟨labels', hLabelled, hAtOuter, hAtInner⟩
    have hAgree := hLabelled.agree
    refine ⟨labels', hLabelled.withSilents ?_⟩
    intro e he
    refine ⟨(hEdges 0 (Nat.zero_le _) (Nat.zero_le _) e he).1,
      ?_⟩
    simp only [List.mem_cons, List.not_mem_nil, or_false] at he
    rcases he with rfl | rfl
    · rw [hAgree entry hEntry]
      exact hAtInner.trans hLe
    · rw [hAgree exit hExit]
      exact hAtOuter

theorem brackets_forM
    {parts : List (Construct Segment)}
    {languages : List UnitLanguage}
    (hParts : List.Forall₂ Builds parts languages)
    {entry exit : Nat}
    (m : Nfa)
    (hRange : m.InRange)
    (hEntry : entry < m.states.size)
    (hExit : exit < m.states.size) :
    Brackets m ((parts.forM (bracket entry exit)).run m).2
      entry exit (anyOf languages) := by
  induction hParts generalizing m with
  | nil =>
      refine ⟨fun base _ _ => Grows.refl base m, ?_, ?_⟩
      · rintro w ⟨language, hMem, -⟩
        cases hMem
      · intro labels _
        exact ⟨labels, Labelled.refl m labels⟩
  | @cons part language parts languages hPart _ ih =>
      have hFirst := brackets_bracket hPart m hRange hEntry
        hExit
      have hRun :
          (((part :: parts).forM (bracket entry exit)).run
            m).2 =
          ((parts.forM (bracket entry exit)).run
            ((bracket entry exit part).run m).2).2 :=
        rfl
      rw [hRun]
      generalize ((bracket entry exit part).run m).2 = m₁
        at hFirst ⊢
      have hGrows := hFirst.grows 0 (Nat.zero_le _)
        (Nat.zero_le _)
      have hSize := hGrows.size
      have hRest := ih m₁ (hGrows.inRange hRange)
        (by omega) (by omega)
      refine ⟨?_, ?_, ?_⟩
      · intro base hSmall hBase
        exact (hFirst.grows base hSmall hBase).trans
          (hRest.grows base (hSmall.trans hSize) hBase)
      · rintro w ⟨language', hMem, hw⟩
        rcases List.mem_cons.mp hMem with rfl | hMem
        · exact (hRest.grows 0 (Nat.zero_le _)
            (Nat.zero_le _)).path (hFirst.complete w hw)
        · exact hRest.complete w ⟨language', hMem, hw⟩
      · intro labels hLe
        rcases hFirst.sound labels (by
            refine le_trans ?_ hLe
            refine mul_le_mul_left ?_ _
            intro w hw
            exact ⟨language, List.mem_cons_self, hw⟩) with
          ⟨labels₁, hLabelled₁⟩
        rcases hRest.sound labels₁ (by
            rw [hLabelled₁.agree exit hExit,
              hLabelled₁.agree entry hEntry]
            refine le_trans ?_ hLe
            refine mul_le_mul_left ?_ _
            rintro w ⟨language', hMem, hw⟩
            exact ⟨language', List.mem_cons_of_mem _ hMem,
              hw⟩) with
          ⟨labels₂, hLabelled₂⟩
        exact ⟨labels₂, Labelled.trans hRange hGrows
          hLabelled₁ hLabelled₂⟩

theorem run_choiceSegment
    (parts : List (Construct Segment))
    (m : Nfa) :
    (choiceSegment parts).run m =
      (⟨m.states.size, m.states.size + 1⟩,
        ((parts.forM (bracket m.states.size
          (m.states.size + 1))).run
            (pushed (pushed m))).2) := by
  rw [← size_pushed]
  rfl

theorem builds_choiceSegment
    {parts : List (Construct Segment)}
    {languages : List UnitLanguage}
    (hParts : List.Forall₂ Builds parts languages) :
    Builds (choiceSegment parts) (anyOf languages) := by
  intro m hRange
  rw [run_choiceSegment]
  have hPair := grows_pushed_pushed m.states.size m
  have hSize := size_pushed_pushed m
  have hInner := @brackets_forM _ _ hParts m.states.size
    (m.states.size + 1) (pushed (pushed m))
    (hPair.inRange hRange) (by omega) (by omega)
  change Adds m
    ((parts.forM (bracket m.states.size
      (m.states.size + 1))).run (pushed (pushed m))).2
    m.states.size (m.states.size + 1) _
  generalize ((parts.forM (bracket m.states.size
    (m.states.size + 1))).run (pushed (pushed m))).2 = m₁
    at hInner ⊢
  have hGrows := hInner.grows m.states.size (by omega)
    (Nat.le_succ _)
  have hSize₁ := hGrows.size
  refine ⟨hPair.trans hGrows, le_rfl, by omega,
    Nat.le_succ _, by omega, hInner.complete, ?_⟩
  intro labels wanted
  rcases labelled_pair hRange labels
      (anyOf languages * wanted) wanted with
    ⟨labels₁, hLabelled₁, hEntry, hExit⟩
  rcases hInner.sound labels₁ (by
      rw [hEntry, hExit]) with
    ⟨labels₂, hLabelled₂⟩
  refine ⟨labels₂,
    Labelled.trans hRange hPair hLabelled₁ hLabelled₂, ?_, ?_⟩
  · rw [hLabelled₂.agree _ (by omega), hExit]
  · rw [hLabelled₂.agree _ (by omega), hEntry]

------------------------------------------------------------
-- Repetitions
------------------------------------------------------------

/- The texts of a part that may be left out or repeated. -/
def repeated
    (language : UnitLanguage)
    (optional looping : Bool) : UnitLanguage :=
  (if optional then 1 else 0) +
    (if looping then language * language∗ else language)

/- The silent moves around the inner part of a repetition. -/
def repeatEdges
    (outside inside : Segment)
    (optional looping : Bool) : List (Nat × Nat) :=
  [(outside.entry, inside.entry), (inside.exit, outside.exit)]
    ++ (if looping then [(inside.exit, inside.entry)] else [])
    ++ (if optional then [(outside.entry, outside.exit)] else [])

theorem run_repeatSegment
    (part : Construct Segment)
    (optional looping : Bool)
    (m : Nfa) :
    (repeatSegment part optional looping).run m =
      (⟨m.states.size, m.states.size + 1⟩,
        withSilents
          (repeatEdges ⟨m.states.size, m.states.size + 1⟩
            (part.run (pushed (pushed m))).1 optional looping)
          (part.run (pushed (pushed m))).2) := by
  rw [← size_pushed]
  cases optional <;> cases looping <;> rfl

theorem mem_repeatEdges
    {outside inside : Segment}
    {optional looping : Bool}
    {e : Nat × Nat} :
    e ∈ repeatEdges outside inside optional looping ↔
      e = (outside.entry, inside.entry) ∨
        e = (inside.exit, outside.exit) ∨
        (looping = true ∧ e = (inside.exit, inside.entry)) ∨
        (optional = true ∧
          e = (outside.entry, outside.exit)) := by
  cases optional <;> cases looping <;>
    simp [repeatEdges]

/- A loop around a segment reads any number of its texts. -/
theorem path_kstar
    {m : Nfa}
    {inner outer : Nat}
    {language : UnitLanguage}
    (hPart : ∀ w ∈ language, m.Path inner w outer)
    (hLoop : inner ∈ (m.state outer).silent)
    {w : List Nat}
    (hw : w ∈ language∗) :
    m.Path outer w outer := by
  rcases Language.mem_kstar.mp hw with ⟨words, rfl, hWords⟩
  clear hw
  induction words with
  | nil => exact .nil outer
  | cons u words ih =>
      rw [List.flatten_cons]
      have hFirst := hPart u (hWords u List.mem_cons_self)
      have hRest := ih fun v hv =>
        hWords v (List.mem_cons_of_mem _ hv)
      exact .silent hLoop (hFirst.append hRest)

/- The moves of a repetition read all of its texts. -/
theorem path_repeated
    {m : Nfa}
    {outside inside : Segment}
    {optional looping : Bool}
    (hEdge : ∀ e ∈ repeatEdges outside inside optional looping,
      e.2 ∈ (m.state e.1).silent)
    {language : UnitLanguage}
    (hRead : ∀ u ∈ language, m.Path inside.entry u inside.exit)
    {w : List Nat}
    (hw : w ∈ repeated language optional looping) :
    m.Path outside.entry w outside.exit := by
  have hOnce : ∀ u ∈ language, ∀ v,
      m.Path inside.exit v inside.exit →
        m.Path outside.entry (u ++ v) outside.exit := by
    intro u hu v hv
    have hOut := hEdge _ (mem_repeatEdges.mpr (.inr (.inl rfl)))
    have hPath := ((hRead u hu).append hv).append
      (.silent hOut (.nil _))
    rw [List.append_nil] at hPath
    exact .silent (hEdge _ (mem_repeatEdges.mpr (.inl rfl)))
      hPath
  rcases (Language.mem_add _ _ _).mp hw with hw | hw
  · split at hw
    · next hOptional =>
        rw [Language.mem_one] at hw
        subst hw
        have hOver := hEdge (outside.entry, outside.exit)
          (mem_repeatEdges.mpr
            (.inr (.inr (.inr ⟨hOptional, rfl⟩))))
        exact .silent hOver (.nil _)
    · cases hw
  · split at hw
    · next hLooping =>
        have hLoop := hEdge _ (mem_repeatEdges.mpr
          (.inr (.inr (.inl ⟨hLooping, rfl⟩))))
        rcases Language.mem_mul.mp hw with ⟨u, hu, v, hv, rfl⟩
        exact hOnce u hu v (path_kstar hRead hLoop hv)
    · have hPath := hOnce w hw [] (.nil _)
      rwa [List.append_nil] at hPath

/-
  What may follow a part of a repetition: what is wanted, and
  the part again if there is a loop.
-/
def afterPart
    (language wanted : UnitLanguage)
    (looping : Bool) : UnitLanguage :=
  if looping then language∗ * wanted else wanted

theorem le_afterPart
    (language wanted : UnitLanguage)
    (looping : Bool) :
    wanted ≤ afterPart language wanted looping := by
  unfold afterPart
  split
  · exact le_mul_of_one_le_left' one_le_kstar
  · exact le_rfl

theorem mul_afterPart_true
    (language wanted : UnitLanguage) :
    language * afterPart language wanted true ≤
      afterPart language wanted true := by
  simp only [afterPart, if_true, ← mul_assoc]
  exact mul_le_mul_left mul_kstar_le_kstar _

theorem mul_afterPart_le
    (language wanted : UnitLanguage)
    (optional looping : Bool) :
    language * afterPart language wanted looping ≤
      repeated language optional looping * wanted := by
  dsimp only [afterPart, repeated]
  rw [add_mul]
  split
  · rw [mul_assoc]
    exact le_add_self
  · exact le_add_self

theorem le_repeated_mul
    (language wanted : UnitLanguage)
    (looping : Bool) :
    wanted ≤ repeated language true looping * wanted := by
  rw [repeated, if_pos rfl, add_mul, one_mul]
  exact le_self_add

theorem builds_repeatSegment
    {part : Construct Segment}
    {language : UnitLanguage}
    (hPart : Builds part language)
    (optional looping : Bool) :
    Builds (repeatSegment part optional looping)
      (repeated language optional looping) := by
  intro m hRange
  rw [run_repeatSegment]
  have hPair := grows_pushed_pushed m.states.size m
  have hSize := size_pushed_pushed m
  have hAdds := hPart (pushed (pushed m)) (hPair.inRange hRange)
  generalize (part.run (pushed (pushed m))).2 = m₁ at hAdds ⊢
  generalize (part.run (pushed (pushed m))).1 = inside
    at hAdds ⊢
  let outside : Segment := ⟨m.states.size, m.states.size + 1⟩
  let edges := repeatEdges outside inside optional looping
  change Adds m (withSilents edges m₁) m.states.size
    (m.states.size + 1) _
  have hSize₁ := hAdds.grows.size
  have hInner := hAdds.entryNew
  have hOuter := hAdds.exitInside
  have hEdges : ∀ e ∈ edges,
      e.1 < m₁.states.size ∧ e.2 < m₁.states.size ∧
        m.states.size ≤ e.2 := by
    intro e he
    have hEntry : m.states.size < m₁.states.size := by omega
    have hExit : m.states.size + 1 < m₁.states.size := by omega
    rcases mem_repeatEdges.mp he with
      rfl | rfl | ⟨-, rfl⟩ | ⟨-, rfl⟩
    · exact ⟨hEntry, hAdds.entryInside,
        hPair.size.trans hInner⟩
    · exact ⟨hOuter, hExit, Nat.le_succ _⟩
    · exact ⟨hOuter, hAdds.entryInside,
        hPair.size.trans hInner⟩
    · exact ⟨hEntry, hExit, Nat.le_succ _⟩
  have hJoin := Grows.withSilents hEdges
  have hSize₂ := size_withSilents edges m₁
  refine ⟨(hPair.trans (hAdds.grows.mono (by omega))).trans
    hJoin, le_rfl, by omega, Nat.le_succ _, by omega, ?_, ?_⟩
  · intro w hw
    have hEdge := @mem_silent_withSilents edges m₁ fun e he =>
      ⟨(hEdges e he).1, (hEdges e he).2.1⟩
    exact path_repeated (fun e he => hEdge he)
      (fun u hu => hJoin.path (hAdds.complete u hu)) hw
  · intro labels wanted
    rcases labelled_pair hRange labels
        (repeated language optional looping * wanted)
        wanted with
      ⟨labels₁, hLabelled₁, hEntry, hExit⟩
    rcases hAdds.sound labels₁
        (afterPart language wanted looping) with
      ⟨labels₂, hLabelled₂, hAtOuter, hAtInner⟩
    have hAll := Labelled.trans hRange hPair hLabelled₁
      hLabelled₂
    have hEntry₂ : labels₂ m.states.size =
        repeated language optional looping * wanted := by
      rw [hLabelled₂.agree _ (by omega), hEntry]
    have hExit₂ : labels₂ (m.states.size + 1) = wanted := by
      rw [hLabelled₂.agree _ (by omega), hExit]
    refine ⟨labels₂, hAll.withSilents ?_, hExit₂.ge,
      hEntry₂.le⟩
    intro e he
    refine ⟨(hEdges e he).1, ?_⟩
    rcases mem_repeatEdges.mp he with
      rfl | rfl | ⟨rfl, rfl⟩ | ⟨rfl, rfl⟩
    · exact (hAtInner.trans
        (mul_afterPart_le _ _ _ _)).trans hEntry₂.ge
    · exact (hExit₂.le.trans (le_afterPart _ _ _)).trans
        hAtOuter
    · exact (hAtInner.trans (mul_afterPart_true _ _)).trans
        hAtOuter
    · exact (hExit₂.le.trans (le_repeated_mul _ _ _)).trans
        hEntry₂.ge

end Thompson

end Descent
