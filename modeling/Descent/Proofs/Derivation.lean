import Descent.Grammar.Basic
import Mathlib.Logic.Relation

/-
  Leftmost derivations.

  What is still to be matched is a list of expansions, and the
  first of them is replaced by what it consists of.  Actions
  and lookaheads match nothing, and a terminal stays where it
  is.  A list vanishes if nothing may be left of it, and it
  begins with a token kind if a terminal of that kind may come
  to stand first.

  Main declarations:
    * `Grammar.Unfolds`
    * `Grammar.Derives`
    * `Grammar.Vanishes`
    * `Grammar.BeginsWith`
    * `Grammar.vanishes_append` and `Grammar.vanishes_iff_form`
    * `Grammar.beginsWith_append` and
      `Grammar.beginsWith_iff_form`
-/

------------------------------------------------------------
-- Steps
------------------------------------------------------------

namespace Descent

namespace Grammar

/- The production of a name has a body. -/
def Defines
    (g : Grammar)
    (name : String)
    (body : ExpId) : Prop :=
  ∃ p ∈ g.productions, p.name = name ∧
    p.expansion? = some body

/- What may be put in the place of an expansion. -/
def Unfolds
    (g : Grammar)
    (id : ExpId)
    (parts : List ExpId) : Prop :=
  match g.form id with
  | .terminal _ _ _ => False
  | .nonterminal name _ _ =>
      ∃ body, g.Defines name body ∧ parts = [body]
  | .sequence units => parts = units
  | .choice alternatives =>
      ∃ alt ∈ alternatives, parts = [alt]
  | .oneOrMore body => parts = [body] ∨ parts = [body, id]
  | .zeroOrMore body => parts = [] ∨ parts = [body, id]
  | .zeroOrOne body => parts = [] ∨ parts = [body]
  | .tryBlock body _ _ => parts = [body]
  | .action _ => parts = []
  | .lookahead _ => parts = []

/- The first expansion of a list is replaced. -/
inductive Rewrites
    (g : Grammar) : List ExpId → List ExpId → Prop where
  | first
      {id : ExpId}
      {parts rest : List ExpId}
      (hUnfolds : g.Unfolds id parts) :
      Rewrites g (id :: rest) (parts ++ rest)

/- Expansions are replaced any number of times. -/
def Derives
    (g : Grammar) : List ExpId → List ExpId → Prop :=
  Relation.ReflTransGen g.Rewrites

/- Nothing may be left of a list. -/
def Vanishes
    (g : Grammar)
    (es : List ExpId) : Prop :=
  g.Derives es []

/- A terminal of a kind may come to stand first. -/
def BeginsWith
    (g : Grammar)
    (es : List ExpId)
    (k : Kind) : Prop :=
  ∃ id rest r result member,
    g.Derives es (id :: rest) ∧
      g.form id = .terminal r result member ∧
      (g.regex r).kind = k

------------------------------------------------------------
-- Lists
------------------------------------------------------------

section Lists

variable {g : Grammar} {es fs ws : List ExpId} {k : Kind}

theorem Derives.append
    (hDerives : g.Derives es ws)
    (fs : List ExpId) :
    g.Derives (es ++ fs) (ws ++ fs) := by
  induction hDerives with
  | refl => exact .refl
  | tail _ hStep ih =>
      rcases hStep with ⟨hUnfolds⟩
      rw [List.append_assoc]
      exact ih.tail (.first hUnfolds)

/-
  While expansions are left of the first list, the second one
  stays as it is.
-/
theorem derives_append_cases
    (hDerives : g.Derives (es ++ fs) ws) :
    (∃ es', g.Derives es es' ∧ ws = es' ++ fs) ∨
      g.Vanishes es ∧ g.Derives fs ws := by
  induction hDerives with
  | refl => exact .inl ⟨es, .refl, rfl⟩
  | tail _ hStep ih =>
      rcases ih with ⟨es', hFirst, rfl⟩ | ⟨hGone, hSecond⟩
      · cases es' with
        | nil => exact .inr ⟨hFirst, .single hStep⟩
        | cons id rest =>
            rw [List.cons_append] at hStep
            rcases hStep with ⟨hUnfolds⟩
            left
            refine ⟨_, hFirst.tail (.first hUnfolds), ?_⟩
            rw [List.append_assoc]
      · exact .inr ⟨hGone, hSecond.tail hStep⟩

theorem vanishes_nil :
    g.Vanishes [] :=
  .refl

theorem vanishes_append :
    g.Vanishes (es ++ fs) ↔ g.Vanishes es ∧ g.Vanishes fs := by
  constructor
  · intro hBoth
    rcases derives_append_cases hBoth with
      ⟨es', hFirst, hEmpty⟩ | hBoth
    · rcases List.append_eq_nil_iff.mp hEmpty.symm with
        ⟨rfl, rfl⟩
      exact ⟨hFirst, .refl⟩
    · exact hBoth
  · rintro ⟨hFirst, hSecond⟩
    exact (hFirst.append fs).trans hSecond

theorem beginsWith_append :
    g.BeginsWith (es ++ fs) k ↔
      g.BeginsWith es k ∨
        g.Vanishes es ∧ g.BeginsWith fs k := by
  constructor
  · rintro ⟨id, rest, r, result, member, hDerives, hToken⟩
    rcases derives_append_cases hDerives with
      ⟨es', hFirst, hSplit⟩ | ⟨hGone, hSecond⟩
    · cases es' with
      | nil =>
          rw [List.nil_append] at hSplit
          exact .inr ⟨hFirst, id, rest, r, result, member,
            hSplit ▸ .refl, hToken⟩
      | cons id' rest' =>
          rcases List.cons.inj hSplit with ⟨rfl, -⟩
          exact .inl ⟨id, rest', r, result, member, hFirst,
            hToken⟩
    · exact .inr ⟨hGone, id, rest, r, result, member, hSecond,
        hToken⟩
  · rintro (⟨id, rest, r, result, member, hDerives, hToken⟩ |
      ⟨hGone, id, rest, r, result, member, hDerives, hToken⟩)
    · exact ⟨id, rest ++ fs, r, result, member,
        hDerives.append fs, hToken⟩
    · exact ⟨id, rest, r, result, member,
        (hGone.append fs).trans hDerives, hToken⟩

theorem vanishes_cons
    (e : ExpId) :
    g.Vanishes (e :: es) ↔ g.Vanishes [e] ∧ g.Vanishes es := by
  rw [← List.singleton_append, vanishes_append]

theorem vanishes_iff_forall :
    g.Vanishes es ↔ ∀ e ∈ es, g.Vanishes [e] := by
  induction es with
  | nil => exact iff_of_true g.vanishes_nil (List.forall_mem_nil _)
  | cons e es ih =>
      rw [vanishes_cons, List.forall_mem_cons, ih]

theorem beginsWith_cons
    (e : ExpId) :
    g.BeginsWith (e :: es) k ↔
      g.BeginsWith [e] k ∨
        g.Vanishes [e] ∧ g.BeginsWith es k := by
  rw [← List.singleton_append, beginsWith_append]

theorem not_beginsWith_nil :
    ¬ g.BeginsWith [] k := by
  rintro ⟨id, rest, r, result, member, hDerives, -⟩
  rcases hDerives.cases_head with hSame | ⟨_, hStep, -⟩
  · cases hSame
  · cases hStep

end Lists

------------------------------------------------------------
-- One expansion
------------------------------------------------------------

section Forms

variable {g : Grammar} {id : ExpId} {k : Kind}

theorem vanishes_iff :
    g.Vanishes [id] ↔
      ∃ parts, g.Unfolds id parts ∧ g.Vanishes parts := by
  constructor
  · intro hGone
    rcases hGone.cases_head with hSame | ⟨ws, hStep, hRest⟩
    · cases hSame
    · rcases hStep with ⟨hUnfolds⟩
      rw [List.append_nil] at hRest
      exact ⟨_, hUnfolds, hRest⟩
  · rintro ⟨parts, hUnfolds, hRest⟩
    have hStep : g.Rewrites [id] (parts ++ []) :=
      .first hUnfolds
    rw [List.append_nil] at hStep
    exact hRest.head hStep

theorem beginsWith_iff :
    g.BeginsWith [id] k ↔
      (∃ r result member,
        g.form id = .terminal r result member ∧
          (g.regex r).kind = k) ∨
      ∃ parts, g.Unfolds id parts ∧ g.BeginsWith parts k := by
  constructor
  · rintro ⟨e, rest, r, result, member, hDerives, hToken⟩
    rcases hDerives.cases_head with hSame | ⟨ws, hStep, hRest⟩
    · rcases List.cons.inj hSame with ⟨rfl, -⟩
      exact .inl ⟨r, result, member, hToken⟩
    · rcases hStep with ⟨hUnfolds⟩
      rw [List.append_nil] at hRest
      exact .inr ⟨_, hUnfolds, e, rest, r, result, member,
        hRest, hToken⟩
  · rintro (⟨r, result, member, hToken⟩ |
      ⟨parts, hUnfolds, e, rest, r, result, member, hRest,
        hToken⟩)
    · exact ⟨id, [], r, result, member, .refl, hToken⟩
    · have hStep : g.Rewrites [id] (parts ++ []) :=
        .first hUnfolds
      rw [List.append_nil] at hStep
      exact ⟨e, rest, r, result, member, hRest.head hStep,
        hToken⟩

/- What vanishes, form by form. -/
theorem vanishes_iff_form :
    g.Vanishes [id] ↔
      match g.form id with
      | .terminal _ _ _ => False
      | .nonterminal name _ _ =>
          ∃ body, g.Defines name body ∧ g.Vanishes [body]
      | .sequence units => g.Vanishes units
      | .choice alternatives =>
          ∃ alt ∈ alternatives, g.Vanishes [alt]
      | .oneOrMore body => g.Vanishes [body]
      | .zeroOrMore _ => True
      | .zeroOrOne _ => True
      | .tryBlock body _ _ => g.Vanishes [body]
      | .action _ => True
      | .lookahead _ => True := by
  rw [vanishes_iff]
  unfold Unfolds
  cases hForm : g.form id with
  | terminal r result member => simp
  | nonterminal name result args =>
      constructor
      · rintro ⟨_, ⟨body, hDefines, rfl⟩, hGone⟩
        exact ⟨body, hDefines, hGone⟩
      · rintro ⟨body, hDefines, hGone⟩
        exact ⟨_, ⟨body, hDefines, rfl⟩, hGone⟩
  | sequence units => simp
  | choice alternatives =>
      constructor
      · rintro ⟨_, ⟨alt, hAlt, rfl⟩, hGone⟩
        exact ⟨alt, hAlt, hGone⟩
      · rintro ⟨alt, hAlt, hGone⟩
        exact ⟨_, ⟨alt, hAlt, rfl⟩, hGone⟩
  | oneOrMore body =>
      constructor
      · rintro ⟨_, rfl | rfl, hGone⟩
        · exact hGone
        · exact ((vanishes_cons body).mp hGone).1
      · exact fun hGone => ⟨_, .inl rfl, hGone⟩
  | zeroOrMore body =>
      exact iff_of_true ⟨[], .inl rfl, g.vanishes_nil⟩ trivial
  | zeroOrOne body =>
      exact iff_of_true ⟨[], .inl rfl, g.vanishes_nil⟩ trivial
  | tryBlock body catches cleanup => simp
  | action code =>
      exact iff_of_true ⟨[], rfl, g.vanishes_nil⟩ trivial
  | lookahead la =>
      exact iff_of_true ⟨[], rfl, g.vanishes_nil⟩ trivial

/- No body that is repeated vanishes. -/
def Consumes
    (g : Grammar)
    (id : ExpId) : Prop :=
  match g.form id with
  | .oneOrMore body => ¬ g.Vanishes [body]
  | .zeroOrMore body => ¬ g.Vanishes [body]
  | _ => True

/-
  What an expansion begins with, form by form.  A repetition
  begins like its body, if the body does not vanish.
-/
theorem beginsWith_iff_form
    (hConsumes : g.Consumes id) :
    g.BeginsWith [id] k ↔
      match g.form id with
      | .terminal r _ _ => (g.regex r).kind = k
      | .nonterminal name _ _ =>
          ∃ body, g.Defines name body ∧ g.BeginsWith [body] k
      | .sequence units => g.BeginsWith units k
      | .choice alternatives =>
          ∃ alt ∈ alternatives, g.BeginsWith [alt] k
      | .oneOrMore body => g.BeginsWith [body] k
      | .zeroOrMore body => g.BeginsWith [body] k
      | .zeroOrOne body => g.BeginsWith [body] k
      | .tryBlock body _ _ => g.BeginsWith [body] k
      | .action _ => False
      | .lookahead _ => False := by
  have hRepeated : ∀ body, ¬ g.Vanishes [body] →
      (g.BeginsWith [body, id] k ↔ g.BeginsWith [body] k) := by
    intro body hKept
    rw [beginsWith_cons]
    exact or_iff_left fun h => hKept h.1
  have hNil := not_beginsWith_nil (g := g) (k := k)
  unfold Consumes at hConsumes
  rw [beginsWith_iff]
  unfold Unfolds
  cases hForm : g.form id with
  | terminal r result member => simp
  | nonterminal name result args =>
      constructor
      · rintro (⟨_, _, _, hOther, -⟩ |
          ⟨_, ⟨body, hDefines, rfl⟩, hBody⟩)
        · cases hOther
        · exact ⟨body, hDefines, hBody⟩
      · rintro ⟨body, hDefines, hBody⟩
        exact .inr ⟨_, ⟨body, hDefines, rfl⟩, hBody⟩
  | sequence units => simp
  | choice alternatives =>
      constructor
      · rintro (⟨_, _, _, hOther, -⟩ |
          ⟨_, ⟨alt, hAlt, rfl⟩, hHere⟩)
        · cases hOther
        · exact ⟨alt, hAlt, hHere⟩
      · rintro ⟨alt, hAlt, hHere⟩
        exact .inr ⟨_, ⟨alt, hAlt, rfl⟩, hHere⟩
  | oneOrMore body =>
      rw [hForm] at hConsumes
      simp [hRepeated body hConsumes]
  | zeroOrMore body =>
      rw [hForm] at hConsumes
      simp [hRepeated body hConsumes, hNil]
  | zeroOrOne body => simp [hNil]
  | tryBlock body catches cleanup => simp
  | action code => simp [hNil]
  | lookahead la => simp [hNil]

end Forms

end Grammar

end Descent
