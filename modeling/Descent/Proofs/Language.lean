import Descent.Automaton.CharRanges
import Descent.Automaton.Thompson
import Mathlib.Algebra.BigOperators.Group.List.Basic
import Mathlib.Computability.Language
import Mathlib.Order.CompletePartialOrder

/-
  The texts that token expressions match.

  A text is a word over 16-bit units.  `Matches` is the
  relation between an expression and its texts; it knows
  nothing of automata.  A reference stands for its target,
  except that a target which is being expanded already
  matches nothing, so the expressions that are being expanded
  are part of the relation.

  Main declarations:
    * `Spells` and `InList`
    * `Matches`
    * `languageOf` and one equation for each form
-/

/- Sets of words over 16-bit units. -/
abbrev UnitLanguage : Type :=
  Language Nat

------------------------------------------------------------
-- Units
------------------------------------------------------------

namespace Descent

open Text (maxUnit caseVariants)

/- The units that may stand for a unit of an expression. -/
def unitForms
    (ignoreCase : Bool)
    (c : Nat) : List Nat :=
  if ignoreCase then caseVariants c else [c]

/- A text spells an image, up to case if case is ignored. -/
def Spells
    (ignoreCase : Bool)
    (image text : List Nat) : Prop :=
  List.Forall₂
    (fun c d => d ∈ unitForms ignoreCase c) image text

instance
    (ignoreCase : Bool)
    (image text : List Nat) :
    Decidable (Spells ignoreCase image text) := by
  unfold Spells
  infer_instance

/- A character belongs to an item of a character list. -/
def CharItem.Holds
    (item : CharItem)
    (c : Nat) : Prop :=
  match item with
  | .single d => c = d
  | .range lo hi => lo ≤ c ∧ c ≤ hi

/-
  A character belongs to some item, or, if case is ignored,
  is a case form of a unit that does.
-/
def InItems
    (ignoreCase : Bool)
    (items : List CharItem)
    (c : Nat) : Prop :=
  ∃ item ∈ items,
    item.Holds c ∨
      (ignoreCase = true ∧
        ∃ d ≤ maxUnit, item.Holds d ∧ c ∈ caseVariants d)

/- A unit belongs to a character list. -/
def InList
    (negated : Bool)
    (items : List CharItem)
    (ignoreCase : Bool)
    (c : Nat) : Prop :=
  c ≤ maxUnit ∧
    (InItems ignoreCase items c ↔ negated = false)

------------------------------------------------------------
-- Expressions
------------------------------------------------------------

/-
  The body of a repeating expression, with the least and the
  greatest number of copies of it.
-/
def Regex.copies? :
    Regex → Option (RegexId × Nat × Option Nat)
  | .oneOrMore body => some (body, 1, none)
  | .zeroOrMore body => some (body, 0, none)
  | .zeroOrOne body => some (body, 0, some 1)
  | .repetition body least most =>
      some (body, least, most.map (max least))
  | _ => none

mutual

/-
  A token expression matches a text while the expressions of
  a list are being expanded.
-/
inductive Matches
    (g : Grammar)
    (ignoreCase : Bool) :
    List RegexId → RegexId → List Nat → Prop where
  | literal
      {path : List RegexId}
      {id : RegexId}
      {image : String}
      {text : List Nat}
      (hForm : (g.regex id).form = .literal image)
      (hText : Spells ignoreCase (Text.units image) text) :
      Matches g ignoreCase path id text
  | chars
      {path : List RegexId}
      {id : RegexId}
      {negated : Bool}
      {items : List CharItem}
      {c : Nat}
      (hForm : (g.regex id).form = .chars negated items)
      (hUnit : InList negated items ignoreCase c) :
      Matches g ignoreCase path id [c]
  | reference
      {path : List RegexId}
      {id target : RegexId}
      {name : String}
      {text : List Nat}
      (hForm :
        (g.regex id).form = .reference name (some target))
      (hFresh : target ∉ path)
      (hText :
        Matches g ignoreCase (target :: path) target text) :
      Matches g ignoreCase path id text
  | sequence
      {path parts : List RegexId}
      {id : RegexId}
      {text : List Nat}
      (hForm : (g.regex id).form = .sequence parts)
      (hText : MatchesAll g ignoreCase path parts text) :
      Matches g ignoreCase path id text
  | choice
      {path parts : List RegexId}
      {id part : RegexId}
      {text : List Nat}
      (hForm : (g.regex id).form = .choice parts)
      (hPart : part ∈ parts)
      (hText : Matches g ignoreCase path part text) :
      Matches g ignoreCase path id text
  | copies
      {path : List RegexId}
      {id body : RegexId}
      {least count : Nat}
      {most : Option Nat}
      {text : List Nat}
      (hForm :
        (g.regex id).form.copies? = some (body, least, most))
      (hLeast : least ≤ count)
      (hMost : ∀ m, most = some m → count ≤ m)
      (hText :
        MatchesAll g ignoreCase path
          (List.replicate count body) text) :
      Matches g ignoreCase path id text

/- Expressions match a text one after the other. -/
inductive MatchesAll
    (g : Grammar)
    (ignoreCase : Bool) :
    List RegexId → List RegexId → List Nat → Prop where
  | nil
      {path : List RegexId} :
      MatchesAll g ignoreCase path [] []
  | cons
      {path parts : List RegexId}
      {part : RegexId}
      {first rest : List Nat}
      (hFirst : Matches g ignoreCase path part first)
      (hRest : MatchesAll g ignoreCase path parts rest) :
      MatchesAll g ignoreCase path (part :: parts)
        (first ++ rest)

end

------------------------------------------------------------
-- Languages
------------------------------------------------------------

/- The texts of a token expression. -/
def languageOf
    (g : Grammar)
    (ignoreCase : Bool)
    (path : List RegexId)
    (id : RegexId) : UnitLanguage :=
  { text | Matches g ignoreCase path id text }

section Equations

variable {g : Grammar} {ignoreCase : Bool}
variable {path : List RegexId} {id : RegexId}

theorem mem_languageOf
    {text : List Nat} :
    text ∈ languageOf g ignoreCase path id ↔
      Matches g ignoreCase path id text :=
  Iff.rfl

/- Parts one after the other match a product. -/
theorem matchesAll_iff
    (parts : List RegexId)
    (text : List Nat) :
    MatchesAll g ignoreCase path parts text ↔
      text ∈
        (parts.map (languageOf g ignoreCase path)).prod := by
  induction parts generalizing text with
  | nil =>
      rw [List.map_nil, List.prod_nil, Language.mem_one]
      constructor
      · intro hText
        cases hText
        rfl
      · intro hText
        subst hText
        exact .nil
  | cons part parts ih =>
      rw [List.map_cons, List.prod_cons, Language.mem_mul]
      constructor
      · intro hText
        cases hText with
        | cons hFirst hRest =>
            exact ⟨_, hFirst, _, (ih _).mp hRest, rfl⟩
      · rintro ⟨first, hFirst, rest, hRest, rfl⟩
        exact .cons hFirst ((ih rest).mpr hRest)

theorem languageOf_literal
    {image : String}
    (hForm : (g.regex id).form = .literal image) :
    languageOf g ignoreCase path id =
      { text |
        Spells ignoreCase (Text.units image) text } := by
  ext text
  constructor
  · intro hText
    cases hText with
    | literal hForm' hText =>
        rw [hForm] at hForm'
        cases hForm'
        exact hText
    | _ => simp_all [Regex.copies?]
  · intro hText
    exact .literal hForm hText

theorem languageOf_chars
    {negated : Bool}
    {items : List CharItem}
    (hForm : (g.regex id).form = .chars negated items) :
    languageOf g ignoreCase path id =
      { text |
        ∃ c, InList negated items ignoreCase c ∧
          text = [c] } := by
  ext text
  constructor
  · intro hText
    cases hText with
    | chars hForm' hUnit =>
        rw [hForm] at hForm'
        cases hForm'
        exact ⟨_, hUnit, rfl⟩
    | _ => simp_all [Regex.copies?]
  · rintro ⟨c, hUnit, rfl⟩
    exact .chars hForm hUnit

theorem languageOf_reference
    {name : String}
    {target : RegexId}
    (hForm :
      (g.regex id).form = .reference name (some target)) :
    languageOf g ignoreCase path id =
      if target ∈ path then 0
      else
        languageOf g ignoreCase (target :: path) target := by
  ext text
  constructor
  · intro hText
    cases hText with
    | reference hForm' hFresh hText =>
        rw [hForm] at hForm'
        cases hForm'
        rw [if_neg hFresh]
        exact hText
    | _ => simp_all [Regex.copies?]
  · intro hText
    split at hText
    · cases hText
    · next hFresh =>
        exact .reference hForm hFresh hText

/- An expression that stands for no text matches nothing. -/
theorem languageOf_eq_zero
    (hForm :
      (∃ name, (g.regex id).form = .reference name none) ∨
        (g.regex id).form = .endOfFile) :
    languageOf g ignoreCase path id = 0 := by
  ext text
  constructor
  · intro hText
    rcases hForm with ⟨name, hForm⟩ | hForm <;>
      cases hText <;> simp_all [Regex.copies?]
  · intro hText
    cases hText

theorem languageOf_sequence
    {parts : List RegexId}
    (hForm : (g.regex id).form = .sequence parts) :
    languageOf g ignoreCase path id =
      (parts.map (languageOf g ignoreCase path)).prod := by
  ext text
  rw [← matchesAll_iff]
  constructor
  · intro hText
    cases hText <;> simp_all [Regex.copies?]
  · intro hText
    exact .sequence hForm hText

theorem languageOf_choice
    {parts : List RegexId}
    (hForm : (g.regex id).form = .choice parts) :
    languageOf g ignoreCase path id =
      { text |
        ∃ part ∈ parts,
          text ∈ languageOf g ignoreCase path part } := by
  ext text
  constructor
  · intro hText
    cases hText with
    | choice hForm' hPart hText =>
        rw [hForm] at hForm'
        cases hForm'
        exact ⟨_, hPart, hText⟩
    | _ => simp_all [Regex.copies?]
  · rintro ⟨part, hPart, hText⟩
    exact .choice hForm hPart hText

theorem languageOf_copies
    {body : RegexId}
    {least : Nat}
    {most : Option Nat}
    (hForm :
      (g.regex id).form.copies? = some (body, least, most)) :
    languageOf g ignoreCase path id =
      { text |
        ∃ count, least ≤ count ∧
          (∀ m, most = some m → count ≤ m) ∧
          text ∈ languageOf g ignoreCase path body ^ count
      } := by
  ext text
  constructor
  · intro hText
    cases hText with
    | copies hForm' hLeast hMost hText =>
        rw [hForm] at hForm'
        cases hForm'
        rw [matchesAll_iff, List.map_replicate,
          List.prod_replicate] at hText
        exact ⟨_, hLeast, hMost, hText⟩
    | _ => simp_all [Regex.copies?]
  · rintro ⟨count, hLeast, hMost, hText⟩
    refine .copies hForm hLeast hMost ?_
    rw [matchesAll_iff, List.map_replicate,
      List.prod_replicate]
    exact hText

end Equations

end Descent
