import Descent.Proofs.Acceptance
import Descent.Proofs.CharRanges
import Descent.Proofs.Rank

/-
  The automaton of several kinds and the languages of their
  expressions.

  Where no token expression uses itself, through its parts or
  through references, there is exactly one family of languages
  that agrees with all forms: a reference has the language of
  its target, whatever is being expanded around it.  The
  automaton of some kinds accepts the words of that family.

  Main declarations:
    * `Grammar.UsedBy`
    * `Grammar.Denotes`
    * `denotes_languageOf` and `Grammar.Denotes.unique`
    * `Thompson.accepts_ofKinds_of_denotes`
-/

------------------------------------------------------------
-- Languages of all expressions
------------------------------------------------------------

namespace Descent

open Computability
open CharRanges (Covers covers_ofItems)

namespace Grammar

/- A token expression is a part of another or its target. -/
def UsedBy
    (g : Grammar)
    (part id : RegexId) : Prop :=
  part ∈ g.regexChildren id ∨
    ∃ name, (g.regex id).form = .reference name (some part)

/-
  A language for every token expression, without and with
  regard to case, as the forms of the expressions say.  A
  reference without a target and the end of the file stand for
  no word.
-/
structure Denotes
    (g : Grammar)
    (language : Bool → RegexId → UnitLanguage) : Prop where
  literal :
    ∀ {ignoreCase id image},
      (g.regex id).form = .literal image →
        language ignoreCase id =
          { word | Spells ignoreCase (Text.units image) word }
  chars :
    ∀ {ignoreCase id negated items},
      (g.regex id).form = .chars negated items →
        language ignoreCase id =
          { word | ∃ c, word = [c] ∧
            Covers (CharRanges.ofItems negated items ignoreCase)
              c }
  reference :
    ∀ {ignoreCase id name target},
      (g.regex id).form = .reference name (some target) →
        language ignoreCase id = language ignoreCase target
  unresolved :
    ∀ {ignoreCase id name},
      (g.regex id).form = .reference name none →
        language ignoreCase id = 0
  endOfFile :
    ∀ {ignoreCase id},
      (g.regex id).form = .endOfFile →
        language ignoreCase id = 0
  sequence :
    ∀ {ignoreCase id parts},
      (g.regex id).form = .sequence parts →
        language ignoreCase id =
          (parts.map (language ignoreCase)).prod
  choice :
    ∀ {ignoreCase id parts},
      (g.regex id).form = .choice parts →
        language ignoreCase id =
          (parts.map (language ignoreCase)).sum
  oneOrMore :
    ∀ {ignoreCase id body},
      (g.regex id).form = .oneOrMore body →
        language ignoreCase id =
          language ignoreCase body * (language ignoreCase body)∗
  zeroOrMore :
    ∀ {ignoreCase id body},
      (g.regex id).form = .zeroOrMore body →
        language ignoreCase id = (language ignoreCase body)∗
  zeroOrOne :
    ∀ {ignoreCase id body},
      (g.regex id).form = .zeroOrOne body →
        language ignoreCase id = 1 + language ignoreCase body
  repetition :
    ∀ {ignoreCase id body least most},
      (g.regex id).form = .repetition body least most →
        language ignoreCase id =
          { word | ∃ count, least ≤ count ∧
            (∀ m ∈ most, count ≤ max least m) ∧
            word ∈ language ignoreCase body ^ count }

theorem lt_size_of_usedBy
    {g : Grammar}
    {part id : RegexId}
    (hUsed : g.UsedBy part id) :
    id < g.regexes.size := by
  apply lt_size_of_form
  intro hForm
  rcases hUsed with hPart | ⟨name, hTarget⟩
  · simp [regexChildren, hForm] at hPart
  · rw [hForm] at hTarget
    cases hTarget

/- Parts alone are acyclic if parts and targets are. -/
theorem regexTree_of_acyclic
    {g : Grammar}
    (hAcyclic : Acyclic g.UsedBy) :
    g.RegexTree := by
  intro id hCycle
  apply hAcyclic id
  exact Relation.TransGen.mono (fun _ _ => Or.inl) _ _ hCycle

/- The forms leave no choice of the languages. -/
theorem Denotes.unique
    {g : Grammar}
    (hAcyclic : Acyclic g.UsedBy)
    {left right : Bool → RegexId → UnitLanguage}
    (hLeft : g.Denotes left)
    (hRight : g.Denotes right) :
    left = right := by
  have hFounded : WellFounded g.UsedBy :=
    hAcyclic.wellFounded fun _ _ => lt_size_of_usedBy
  funext ignoreCase id
  induction id using hFounded.induction with
  | h id ih =>
      have hPart : ∀ part ∈ g.regexChildren id,
          left ignoreCase part = right ignoreCase part :=
        fun part hPart => ih part (.inl hPart)
      unfold regexChildren at hPart
      cases hForm : (g.regex id).form with
      | literal image =>
          rw [hLeft.literal hForm, hRight.literal hForm]
      | chars negated items =>
          rw [hLeft.chars hForm, hRight.chars hForm]
      | reference name target =>
          cases target with
          | none =>
              rw [hLeft.unresolved hForm,
                hRight.unresolved hForm]
          | some target =>
              rw [hLeft.reference hForm,
                hRight.reference hForm]
              exact ih target (.inr ⟨name, hForm⟩)
      | endOfFile =>
          rw [hLeft.endOfFile hForm, hRight.endOfFile hForm]
      | sequence parts =>
          rw [hForm] at hPart
          rw [hLeft.sequence hForm, hRight.sequence hForm,
            List.map_congr_left hPart]
      | choice parts =>
          rw [hForm] at hPart
          rw [hLeft.choice hForm, hRight.choice hForm,
            List.map_congr_left hPart]
      | oneOrMore body =>
          rw [hForm] at hPart
          rw [hLeft.oneOrMore hForm, hRight.oneOrMore hForm,
            hPart body (List.mem_singleton_self body)]
      | zeroOrMore body =>
          rw [hForm] at hPart
          rw [hLeft.zeroOrMore hForm, hRight.zeroOrMore hForm,
            hPart body (List.mem_singleton_self body)]
      | zeroOrOne body =>
          rw [hForm] at hPart
          rw [hLeft.zeroOrOne hForm, hRight.zeroOrOne hForm,
            hPart body (List.mem_singleton_self body)]
      | repetition body least most =>
          rw [hForm] at hPart
          rw [hLeft.repetition hForm, hRight.repetition hForm,
            hPart body (List.mem_singleton_self body)]

end Grammar

------------------------------------------------------------
-- What is being expanded
------------------------------------------------------------

/-
  The expressions that are being expanded do not matter, as
  long as the expression is used by all of them: a target
  among them would close a cycle.
-/
theorem languageOf_path
    {g : Grammar}
    (hAcyclic : Acyclic g.UsedBy)
    (ignoreCase : Bool)
    (id : RegexId)
    (path : List RegexId)
    (hAbove : ∀ outer ∈ path,
      Relation.ReflTransGen g.UsedBy id outer) :
    languageOf g ignoreCase path id =
      languageOf g ignoreCase [] id := by
  have hFounded : WellFounded g.UsedBy :=
    hAcyclic.wellFounded fun _ _ => Grammar.lt_size_of_usedBy
  induction id using hFounded.induction generalizing path with
  | h id ih =>
      have hPart : ∀ part ∈ g.regexChildren id,
          languageOf g ignoreCase path part =
            languageOf g ignoreCase [] part := by
        intro part hPart
        apply ih part (.inl hPart)
        intro outer hOuter
        exact .head (.inl hPart) (hAbove outer hOuter)
      unfold Grammar.regexChildren at hPart
      have hCopies : ∀ {body least most},
          (g.regex id).form.copies? = some (body, least, most) →
          languageOf g ignoreCase path body =
            languageOf g ignoreCase [] body →
          languageOf g ignoreCase path id =
            languageOf g ignoreCase [] id := by
        intro body least most hForm hBody
        rw [languageOf_copies hForm, languageOf_copies hForm,
          hBody]
      cases hForm : (g.regex id).form with
      | literal image =>
          rw [languageOf_literal hForm,
            languageOf_literal hForm]
      | chars negated items =>
          rw [languageOf_chars hForm, languageOf_chars hForm]
      | reference name target =>
          cases target with
          | none =>
              rw [languageOf_eq_zero (.inl ⟨name, hForm⟩),
                languageOf_eq_zero (.inl ⟨name, hForm⟩)]
          | some target =>
              have hUsed : g.UsedBy target id :=
                .inr ⟨name, hForm⟩
              have hFresh : target ∉ path := by
                intro hMem
                exact hAcyclic target
                  (.head' hUsed (hAbove target hMem))
              rw [languageOf_reference hForm, if_neg hFresh,
                languageOf_reference hForm,
                if_neg List.not_mem_nil]
              have hSelf : ∀ outer ∈ target :: path,
                  Relation.ReflTransGen g.UsedBy target
                    outer := by
                intro outer hOuter
                rcases List.mem_cons.mp hOuter with rfl | hOuter
                · exact .refl
                · exact .head hUsed (hAbove outer hOuter)
              rw [ih target hUsed _ hSelf]
              symm
              apply ih target hUsed
              intro outer hOuter
              rw [List.mem_singleton.mp hOuter]
      | endOfFile =>
          rw [languageOf_eq_zero (.inr hForm),
            languageOf_eq_zero (.inr hForm)]
      | sequence parts =>
          rw [hForm] at hPart
          rw [languageOf_sequence hForm,
            languageOf_sequence hForm,
            List.map_congr_left hPart]
      | choice parts =>
          rw [hForm] at hPart
          rw [languageOf_choice hForm, languageOf_choice hForm]
          ext word
          apply exists_congr
          intro part
          apply and_congr_right
          intro hMem
          rw [hPart part hMem]
      | oneOrMore body =>
          rw [hForm] at hPart
          exact hCopies (by rw [hForm]; rfl)
            (hPart body (List.mem_singleton_self body))
      | zeroOrMore body =>
          rw [hForm] at hPart
          exact hCopies (by rw [hForm]; rfl)
            (hPart body (List.mem_singleton_self body))
      | zeroOrOne body =>
          rw [hForm] at hPart
          exact hCopies (by rw [hForm]; rfl)
            (hPart body (List.mem_singleton_self body))
      | repetition body least most =>
          rw [hForm] at hPart
          exact hCopies (by rw [hForm]; rfl)
            (hPart body (List.mem_singleton_self body))

theorem mem_sum_map
    (language : RegexId → UnitLanguage)
    (parts : List RegexId)
    (word : List Nat) :
    word ∈ (parts.map language).sum ↔
      ∃ part ∈ parts, word ∈ language part := by
  induction parts with
  | nil => simp [Language.notMem_zero]
  | cons part parts ih =>
      rw [List.map_cons, List.sum_cons, Language.mem_add, ih]
      simp

/- What expressions match agrees with all forms. -/
theorem denotes_languageOf
    {g : Grammar}
    (hAcyclic : Acyclic g.UsedBy) :
    g.Denotes fun ignoreCase id =>
      languageOf g ignoreCase [] id where
  literal := languageOf_literal
  chars := by
    intro ignoreCase id negated items hForm
    rw [languageOf_chars hForm]
    ext word
    constructor
    · rintro ⟨c, hUnit, hWord⟩
      exact ⟨c, hWord, (covers_ofItems _ _ _ c).mpr hUnit⟩
    · rintro ⟨c, hWord, hUnit⟩
      exact ⟨c, (covers_ofItems _ _ _ c).mp hUnit, hWord⟩
  reference := by
    intro ignoreCase id name target hForm
    rw [languageOf_reference hForm, if_neg List.not_mem_nil]
    apply languageOf_path hAcyclic
    intro outer hOuter
    rw [List.mem_singleton.mp hOuter]
  unresolved := by
    intro ignoreCase id name hForm
    exact languageOf_eq_zero (.inl ⟨name, hForm⟩)
  endOfFile := by
    intro ignoreCase id hForm
    exact languageOf_eq_zero (.inr hForm)
  sequence := languageOf_sequence
  choice := by
    intro ignoreCase id parts hForm
    rw [languageOf_choice hForm]
    ext word
    exact (mem_sum_map _ parts word).symm
  oneOrMore := by
    intro ignoreCase id body hForm
    rw [languageOf_copies (by rw [hForm]; rfl)]
    exact (Thompson.copiesOf_none _ 1).trans (by rw [pow_one])
  zeroOrMore := by
    intro ignoreCase id body hForm
    rw [languageOf_copies (by rw [hForm]; rfl)]
    exact (Thompson.copiesOf_none _ 0).trans
      (by rw [pow_zero, one_mul])
  zeroOrOne := by
    intro ignoreCase id body hForm
    rw [languageOf_copies (by rw [hForm]; rfl)]
    exact Thompson.copiesOf_zero_one _
  repetition := by
    intro ignoreCase id body least most hForm
    rw [languageOf_copies (by rw [hForm]; rfl)]
    ext word
    apply exists_congr
    intro count
    apply and_congr_right
    intro hLeast
    apply and_congr_left'
    cases most <;> simp

------------------------------------------------------------
-- The automaton
------------------------------------------------------------

namespace Thompson

/-
  The construction keeps the language.  If no token expression
  uses itself, the forms of the expressions fix their
  languages, and from its start the automaton of some kinds
  reads a word to a state that accepts a kind exactly if the
  kind was given to an expression whose language has the word.
-/
theorem accepts_ofKinds_of_denotes
    {g : Grammar}
    (hAcyclic : Acyclic g.UsedBy) :
    ∃ language, g.Denotes language ∧
      (∀ other, g.Denotes other → other = language) ∧
      ∀ (kinds : List (RegexId × Kind × Bool)) (kind : Kind)
          (word : List Nat),
        (∃ q, (ofKinds g kinds).Path (ofKinds g kinds).start
            word q ∧
          ((ofKinds g kinds).state q).accept = some kind) ↔
        ∃ id ignoreCase, (id, kind, ignoreCase) ∈ kinds ∧
          word ∈ language ignoreCase id := by
  have hDenotes := denotes_languageOf hAcyclic
  refine ⟨_, hDenotes, ?_, ?_⟩
  · intro other hOther
    exact hOther.unique hAcyclic hDenotes
  · intro kinds kind word
    have hAccepts := accepts_ofKinds
      (Grammar.regexTree_of_acyclic hAcyclic) kinds kind word
    apply hAccepts.trans
    constructor
    · rintro ⟨⟨id, _, ignoreCase⟩, hMem, rfl, hWord⟩
      exact ⟨id, ignoreCase, hMem, hWord⟩
    · rintro ⟨id, ignoreCase, hMem, hWord⟩
      exact ⟨_, hMem, rfl, hWord⟩

/- Digits, a reference to them, and two to three of these. -/
def shortNumbers : Grammar :=
  { regexes :=
      #[{ form := .chars false [.range 48 57],
          label := "DIGIT" },
        { form := .reference "DIGIT" (some 0) },
        { form := .repetition 1 2 (some 3) }] }

theorem accepts_ofKinds_of_denotes_shortNumbers :
    ∃ q, (ofKinds shortNumbers [(2, 7, false)]).Path
        (ofKinds shortNumbers [(2, 7, false)]).start
        [49, 50] q ∧
      ((ofKinds shortNumbers [(2, 7, false)]).state
        q).accept = some 7 := by
  have hAcyclic : Acyclic shortNumbers.UsedBy := by
    apply acyclic_of_lt (f := fun i => i)
    rintro j i (hPart | ⟨name, hForm⟩)
    · match i with
      | 0 => cases hPart
      | 1 => cases hPart
      | 2 =>
          rw [List.mem_singleton.mp hPart]
          exact Nat.lt_succ_self 1
      | i + 3 => cases hPart
    · match i with
      | 0 => cases hForm
      | 1 =>
          cases hForm
          exact Nat.zero_lt_one
      | 2 => cases hForm
      | i + 3 => cases hForm
  rcases accepts_ofKinds_of_denotes hAcyclic with
    ⟨language, hDenotes, -, hAccepts⟩
  have hTarget : language false 1 = language false 0 :=
    hDenotes.reference rfl
  have hList : language false 0 =
      { word | ∃ c, word = [c] ∧
        Covers (CharRanges.ofItems false [.range 48 57] false)
          c } :=
    hDenotes.chars rfl
  have hCopies : language false 2 =
      { word | ∃ count, 2 ≤ count ∧
        (∀ m ∈ some 3, count ≤ max 2 m) ∧
        word ∈ language false 1 ^ count } :=
    hDenotes.repetition rfl
  have hDigit : ∀ c, 48 ≤ c → c ≤ 57 →
      [c] ∈ language false 1 := by
    intro c hLow hHigh
    rw [hTarget, hList]
    refine ⟨c, rfl, (covers_ofItems _ _ _ c).mpr ⟨?_, ?_⟩⟩
    · exact hHigh.trans (by decide)
    · apply iff_of_true _ rfl
      exact ⟨.range 48 57, List.mem_singleton_self _,
        .inl ⟨hLow, hHigh⟩⟩
  apply (hAccepts [(2, 7, false)] 7 [49, 50]).mpr
  refine ⟨2, false, List.mem_singleton_self _, ?_⟩
  rw [hCopies]
  refine ⟨2, le_rfl, ?_, ?_⟩
  · intro m hm
    exact le_max_left 2 m
  · rw [pow_two]
    exact Language.append_mem_mul
      (hDigit 49 (by decide) (by decide))
      (hDigit 50 (by decide) (by decide))

end Thompson

end Descent
