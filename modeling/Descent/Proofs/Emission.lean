import Descent.Proofs.Derivation
import Mathlib.Computability.Language

/-
  The tokens that leftmost derivations emit.

  As before, the first of the expansions that are left is
  replaced by what it consists of; now a terminal that stands
  first emits its token and is gone.  So a derivation generates
  a text if nothing is left in the end, and it may stop earlier:
  after so many tokens, or at the call of a production that is
  written by hand, of which nothing is known.

  A repetition stands for any number of copies of its body.
  With these lists of expansions in its place nothing else is
  generated, and derivations stop at the same tokens.

  Main declarations:
    * `Grammar.Emits` and `Grammar.emits_append_cases`
    * `Grammar.Generates` and `Grammar.generates_iff_ways`
    * `Grammar.Starts` and `Grammar.MeetsCode`
    * `Grammar.Stops` and `Grammar.stops_iff_ways`
-/

/- Sets of lists of expansions. -/
abbrev ExpansionLists : Type :=
  Language Descent.ExpId

------------------------------------------------------------
-- Steps
------------------------------------------------------------

namespace Descent

open scoped Computability

namespace Grammar

/-
  Derivations of a list of expansions that emit some tokens and
  leave other expansions.
-/
inductive Emits
    (g : Grammar) :
    List ExpId → List Kind → List ExpId → Prop where
  | stop
      (es : List ExpId) :
      Emits g es [] es
  | unfold
      {id : ExpId}
      {parts rest left : List ExpId}
      {tokens : List Kind}
      (hUnfolds : g.Unfolds id parts)
      (hRest : Emits g (parts ++ rest) tokens left) :
      Emits g (id :: rest) tokens left
  | token
      {id : ExpId}
      {r : RegexId}
      {result : Option String}
      {member : Option String}
      {rest left : List ExpId}
      {tokens : List Kind}
      (hToken : g.form id = .terminal r result member)
      (hRest : Emits g rest tokens left) :
      Emits g (id :: rest) ((g.regex r).kind :: tokens) left

/- The tokens of a derivation after which nothing is left. -/
def Generates
    (g : Grammar)
    (es : List ExpId)
    (tokens : List Kind) : Prop :=
  g.Emits es tokens []

/- The first tokens of a derivation. -/
def Starts
    (g : Grammar)
    (es : List ExpId)
    (tokens : List Kind) : Prop :=
  ∃ left, g.Emits es tokens left

/- An expansion calls a production that is written by hand. -/
def CallsCode
    (g : Grammar)
    (id : ExpId) : Prop :=
  ∃ name result args,
    g.form id = .nonterminal name result args ∧
      ∃ p ∈ g.productions, p.name = name ∧ p.isCode = true

/- Such a call stands first. -/
def AtCode
    (g : Grammar)
    (es : List ExpId) : Prop :=
  ∃ id rest, es = id :: rest ∧ g.CallsCode id

/- After these tokens a derivation comes to such a call. -/
def MeetsCode
    (g : Grammar)
    (es : List ExpId)
    (tokens : List Kind) : Prop :=
  ∃ left, g.Emits es tokens left ∧ g.AtCode left

/-
  A derivation stops at these tokens: there are as many as may
  be, or there are fewer and it has come to such a call.
-/
def Stops
    (g : Grammar)
    (limit : Nat)
    (es : List ExpId)
    (tokens : List Kind) : Prop :=
  ∃ left, g.Emits es tokens left ∧
    (tokens.length = limit ∨
      tokens.length < limit ∧ g.AtCode left)

theorem stops_iff
    {g : Grammar}
    {limit : Nat}
    {es : List ExpId}
    {tokens : List Kind} :
    g.Stops limit es tokens ↔
      tokens.length = limit ∧ g.Starts es tokens ∨
        tokens.length < limit ∧ g.MeetsCode es tokens := by
  constructor
  · rintro ⟨left, hEmits, hFull | ⟨hShort, hCode⟩⟩
    · exact .inl ⟨hFull, left, hEmits⟩
    · exact .inr ⟨hShort, left, hEmits, hCode⟩
  · rintro (⟨hFull, left, hEmits⟩ |
      ⟨hShort, left, hEmits, hCode⟩)
    · exact ⟨left, hEmits, .inl hFull⟩
    · exact ⟨left, hEmits, .inr ⟨hShort, hCode⟩⟩

------------------------------------------------------------
-- Lists
------------------------------------------------------------

section Lists

variable {g : Grammar} {es fs left : List ExpId}
variable {tokens us vs : List Kind}

theorem Emits.append
    (hEmits : g.Emits es tokens left)
    (fs : List ExpId) :
    g.Emits (es ++ fs) tokens (left ++ fs) := by
  induction hEmits with
  | stop es => exact .stop _
  | unfold hUnfolds _ ih =>
      rw [List.append_assoc] at ih
      exact .unfold hUnfolds ih
  | token hToken _ ih => exact .token hToken ih

theorem Emits.trans
    (hFirst : g.Emits es us fs)
    (hSecond : g.Emits fs vs left) :
    g.Emits es (us ++ vs) left := by
  induction hFirst with
  | stop es => exact hSecond
  | unfold hUnfolds _ ih => exact .unfold hUnfolds (ih hSecond)
  | token hToken _ ih => exact .token hToken (ih hSecond)

/- First one list is used up, then the other. -/
theorem Generates.emits_append
    (hFirst : g.Generates es us)
    (hSecond : g.Emits fs vs left) :
    g.Emits (es ++ fs) (us ++ vs) left :=
  (Emits.append hFirst fs).trans hSecond

/-
  Either something is left of the first list, with all of the
  second one, or the first list has been used up.
-/
theorem emits_append_cases
    (hEmits : g.Emits (es ++ fs) tokens left) :
    (∃ id rest, g.Emits es tokens (id :: rest) ∧
      left = id :: rest ++ fs) ∨
      ∃ us vs, tokens = us ++ vs ∧ g.Generates es us ∧
        g.Emits fs vs left := by
  generalize hBoth : es ++ fs = both at hEmits
  induction hEmits generalizing es with
  | stop both =>
      cases es with
      | nil =>
          exact .inr ⟨[], [], rfl, .stop [], hBoth ▸ .stop fs⟩
      | cons id rest =>
          exact .inl ⟨id, rest, .stop _, hBoth.symm⟩
  | @unfold id parts rest left tokens hUnfolds hRest ih =>
      cases es with
      | nil =>
          rw [List.nil_append] at hBoth
          exact .inr ⟨[], tokens, rfl, .stop [],
            hBoth ▸ .unfold hUnfolds hRest⟩
      | cons e es =>
          rcases List.cons.inj hBoth with ⟨rfl, rfl⟩
          rcases ih (List.append_assoc parts es fs) with
            ⟨id, rest, hFirst, hLeft⟩ |
              ⟨us, vs, hTokens, hFirst, hSecond⟩
          · exact .inl ⟨id, rest, .unfold hUnfolds hFirst, hLeft⟩
          · exact .inr ⟨us, vs, hTokens,
              .unfold hUnfolds hFirst, hSecond⟩
  | @token id r result member rest left tokens hToken hRest ih =>
      cases es with
      | nil =>
          rw [List.nil_append] at hBoth
          exact .inr ⟨[], _, rfl, .stop [],
            hBoth ▸ .token hToken hRest⟩
      | cons e es =>
          rcases List.cons.inj hBoth with ⟨rfl, rfl⟩
          rcases ih rfl with ⟨id, rest, hFirst, hLeft⟩ |
            ⟨us, vs, rfl, hFirst, hSecond⟩
          · exact .inl ⟨id, rest, .token hToken hFirst, hLeft⟩
          · exact .inr ⟨_ :: us, vs, rfl, .token hToken hFirst,
              hSecond⟩

theorem generates_append :
    g.Generates (es ++ fs) tokens ↔
      ∃ us vs, tokens = us ++ vs ∧ g.Generates es us ∧
        g.Generates fs vs := by
  constructor
  · intro hBoth
    rcases emits_append_cases hBoth with
      ⟨_, _, -, hLeft⟩ | hSplit
    · cases hLeft
    · exact hSplit
  · rintro ⟨us, vs, rfl, hFirst, hSecond⟩
    exact hFirst.emits_append hSecond

/-
  A derivation of two lists stops within the first, or it
  generates that with fewer tokens and stops within the second.
-/
theorem stops_append
    {limit : Nat} :
    g.Stops limit (es ++ fs) tokens ↔
      g.Stops limit es tokens ∨
        ∃ us vs, tokens = us ++ vs ∧ us.length < limit ∧
          g.Generates es us ∧ g.Stops (limit - us.length) fs vs := by
  constructor
  · rintro ⟨left, hEmits, hEnds⟩
    rcases emits_append_cases hEmits with
      ⟨id, rest, hFirst, rfl⟩ |
        ⟨us, vs, rfl, hFirst, hSecond⟩
    · refine .inl ⟨_, hFirst, hEnds.imp_right ?_⟩
      rintro ⟨hShort, _, _, hSame, hCode⟩
      rcases List.cons.inj hSame with ⟨rfl, -⟩
      exact ⟨hShort, id, rest, rfl, hCode⟩
    · rw [List.length_append] at hEnds
      by_cases hFull : us.length = limit
      · have hNone : vs = [] :=
          List.length_eq_zero_iff.mp (by omega)
        subst hNone
        rw [List.append_nil]
        exact .inl ⟨[], hFirst, .inl hFull⟩
      · refine .inr ⟨us, vs, rfl, by omega, hFirst, left,
          hSecond, hEnds.imp ?_ (And.imp_left ?_)⟩
        · omega
        · omega
  · rintro (⟨left, hEmits, hEnds⟩ |
      ⟨us, vs, rfl, hLess, hFirst, left, hSecond, hEnds⟩)
    · refine ⟨left ++ fs, hEmits.append fs, hEnds.imp_right ?_⟩
      rintro ⟨hShort, id, rest, rfl, hCode⟩
      exact ⟨hShort, id, rest ++ fs, rfl, hCode⟩
    · refine ⟨left, hFirst.emits_append hSecond, ?_⟩
      rw [List.length_append]
      refine hEnds.imp ?_ (And.imp_left ?_)
      · omega
      · omega

theorem generates_nil :
    g.Generates [] tokens ↔ tokens = [] := by
  constructor
  · rintro ⟨⟩
    rfl
  · rintro rfl
    exact .stop []

theorem not_stops_nil
    {limit : Nat}
    (hLimit : 0 < limit) :
    ¬ g.Stops limit [] tokens := by
  rintro ⟨left, ⟨⟩, hFull | ⟨-, _, _, hSame, -⟩⟩
  · exact hLimit.ne hFull
  · cases hSame

/- A derivation that emits nothing only replaces. -/
theorem emits_nil_iff :
    g.Emits es [] left ↔ g.Derives es left := by
  constructor
  · intro hEmits
    generalize hNone : [] = tokens at hEmits
    induction hEmits with
    | stop es => exact .refl
    | unfold hUnfolds _ ih => exact (ih hNone).head (.first hUnfolds)
    | token _ _ _ => cases hNone
  · intro hDerives
    induction hDerives using
      Relation.ReflTransGen.head_induction_on with
    | refl => exact .stop left
    | head hStep _ ih =>
        rcases hStep with ⟨hUnfolds⟩
        exact .unfold hUnfolds ih

theorem vanishes_iff_generates :
    g.Vanishes es ↔ g.Generates es [] :=
  emits_nil_iff.symm

theorem beginsWith_iff_starts
    {k : Kind} :
    g.BeginsWith es k ↔ g.Starts es [k] := by
  constructor
  · rintro ⟨id, rest, r, result, member, hDerives, hToken, rfl⟩
    exact ⟨rest, (emits_nil_iff.mpr hDerives).trans
      (.token hToken (.stop rest))⟩
  · rintro ⟨left, hEmits⟩
    generalize hOne : [k] = tokens at hEmits
    induction hEmits with
    | stop es => cases hOne
    | unfold hUnfolds _ ih =>
        rcases ih hOne with
          ⟨id, rest, r, result, member, hDerives, hToken⟩
        exact ⟨id, rest, r, result, member,
          hDerives.head (.first hUnfolds), hToken⟩
    | token hToken _ _ =>
        rcases List.cons.inj hOne with ⟨rfl, -⟩
        exact ⟨_, _, _, _, _, .refl, hToken, rfl⟩

end Lists

------------------------------------------------------------
-- Repetitions
------------------------------------------------------------

theorem singleton_mul_singleton
    (es fs : List ExpId) :
    ({es} * {fs} : ExpansionLists) = {es ++ fs} := by
  apply Language.ext
  intro both
  constructor
  · intro hBoth
    rcases Language.mem_mul.mp hBoth with ⟨_, rfl, _, rfl, rfl⟩
    exact rfl
  · rintro rfl
    exact Language.append_mem_mul rfl rfl

/- Each of some expansions alone. -/
def oneOf
    (alternatives : List ExpId) : ExpansionLists :=
  {es | ∃ alt ∈ alternatives, es = [alt]}

theorem oneOf_nil :
    oneOf [] = 0 := by
  apply Language.ext
  rintro es
  exact iff_of_false (fun ⟨_, hAlt, _⟩ => nomatch hAlt)
    (Language.notMem_zero es)

theorem oneOf_cons
    (alt : ExpId)
    (alternatives : List ExpId) :
    oneOf (alt :: alternatives) =
      {[alt]} + oneOf alternatives := by
  apply Language.ext
  intro es
  exact List.exists_mem_cons_iff _ alt alternatives

/-
  The lists of expansions that an expansion stands for.  It is
  itself not among them.
-/
def ways
    (g : Grammar)
    (id : ExpId) : ExpansionLists :=
  match g.form id with
  | .terminal _ _ _ => 0
  | .nonterminal name _ _ =>
      {es | ∃ body, g.Defines name body ∧ es = [body]}
  | .sequence units => {units}
  | .choice alternatives => oneOf alternatives
  | .oneOrMore body => {[body]} * {[body]}∗
  | .zeroOrMore body => {[body]}∗
  | .zeroOrOne body => 1 + {[body]}
  | .tryBlock body _ _ => {[body]}
  | .action _ => 1
  | .lookahead _ => 1

/- Where one list stops, so does another one. -/
def EndsAs
    (g : Grammar)
    (left left' : List ExpId) : Prop :=
  (left = [] → left' = []) ∧ (g.AtCode left → g.AtCode left')

section Ways

variable {g : Grammar} {id body : ExpId}
variable {es left : List ExpId} {tokens : List Kind}

theorem EndsAs.refl
    (left : List ExpId) :
    g.EndsAs left left :=
  ⟨fun h => h, fun h => h⟩

theorem endsAs_cons
    (id : ExpId)
    (es fs : List ExpId) :
    g.EndsAs (id :: es) (id :: fs) := by
  refine ⟨fun hNone => absurd hNone (List.cons_ne_nil _ _), ?_⟩
  rintro ⟨_, _, hSame, hCode⟩
  rcases List.cons.inj hSame with ⟨rfl, -⟩
  exact ⟨id, fs, rfl, hCode⟩

/- A body is repeated. -/
def Loops
    (g : Grammar)
    (id body : ExpId) : Prop :=
  g.form id = .oneOrMore body ∨ g.form id = .zeroOrMore body

theorem Loops.again
    (hLoops : g.Loops id body) :
    g.Unfolds id [body, id] := by
  unfold Unfolds
  rcases hLoops with hForm | hForm
  · rw [hForm]
    exact .inr rfl
  · rw [hForm]
    exact .inr rfl

theorem Loops.cases_parts
    (hLoops : g.Loops id body)
    {parts : List ExpId}
    (hUnfolds : g.Unfolds id parts) :
    parts = [] ∨ parts = [body] ∨ parts = [body, id] := by
  unfold Unfolds at hUnfolds
  rcases hLoops with hForm | hForm
  · rw [hForm] at hUnfolds
    exact .inr hUnfolds
  · rw [hForm] at hUnfolds
    exact hUnfolds.imp_right .inr

theorem Loops.not_callsCode
    (hLoops : g.Loops id body) :
    ¬ g.CallsCode id := by
  rintro ⟨name, result, args, hCall, -⟩
  rcases hLoops with hForm | hForm
  · rw [hForm] at hCall
    cases hCall
  · rw [hForm] at hCall
    cases hCall

theorem Loops.not_terminal
    (hLoops : g.Loops id body)
    {r : RegexId}
    {result member : Option String} :
    g.form id ≠ .terminal r result member := by
  intro hToken
  rcases hLoops with hForm | hForm
  · rw [hForm] at hToken
    cases hToken
  · rw [hForm] at hToken
    cases hToken

/- Where a repetition is still to come, it is unrolled. -/
theorem Emits.unrolled
    (hLoops : g.Loops id body)
    (hEmits : g.Emits (es ++ [id]) tokens left) :
    ∃ fs ∈ ({[body]} : ExpansionLists)∗, ∃ left',
      g.Emits (es ++ fs) tokens left' ∧ g.EndsAs left left' := by
  generalize hBoth : es ++ [id] = both at hEmits
  induction hEmits generalizing es with
  | stop both =>
      subst hBoth
      refine ⟨[], Language.nil_mem_kstar _, es, ?_, ?_⟩
      · rw [List.append_nil]
        exact .stop es
      · cases es with
        | nil =>
            refine ⟨fun hNone =>
              absurd hNone (List.cons_ne_nil _ _), ?_⟩
            rintro ⟨_, _, hSame, hCode⟩
            rcases List.cons.inj hSame with ⟨rfl, -⟩
            exact absurd hCode hLoops.not_callsCode
        | cons e es => exact endsAs_cons e _ _
  | @unfold e parts rest left tokens hUnfolds hRest ih =>
      cases es with
      | cons e' es =>
          rcases List.cons.inj hBoth with ⟨rfl, rfl⟩
          rcases ih (List.append_assoc parts es [id]) with
            ⟨fs, hfs, left', hEmits, hLike⟩
          rw [List.append_assoc] at hEmits
          exact ⟨fs, hfs, left', .unfold hUnfolds hEmits, hLike⟩
      | nil =>
          rcases List.cons.inj hBoth with ⟨rfl, rfl⟩
          rw [List.append_nil] at hRest
          rcases hLoops.cases_parts hUnfolds with rfl | rfl | rfl
          · exact ⟨[], Language.nil_mem_kstar _, left, hRest,
              .refl left⟩
          · exact ⟨[body],
              Language.mem_kstar.mpr ⟨[[body]], rfl,
                List.forall_mem_singleton.mpr rfl⟩,
              left, hRest, .refl left⟩
          · rcases @ih [body] rfl with
              ⟨fs, hfs, left', hEmits, hLike⟩
            refine ⟨[body] ++ fs, ?_, left', hEmits, hLike⟩
            rw [← Language.one_add_self_mul_kstar_eq_kstar]
            exact .inr (Language.append_mem_mul rfl hfs)
  | token hToken hRest ih =>
      cases es with
      | cons e es =>
          rcases List.cons.inj hBoth with ⟨rfl, rfl⟩
          rcases ih rfl with ⟨fs, hfs, left', hEmits, hLike⟩
          exact ⟨fs, hfs, left', .token hToken hEmits, hLike⟩
      | nil =>
          rcases List.cons.inj hBoth with ⟨rfl, -⟩
          exact absurd hToken hLoops.not_terminal

/- Copies of a body are one repetition. -/
theorem exists_emits_of_copies
    {last : List ExpId}
    (hLast : g.Unfolds id last)
    (hLoops : g.Loops id body)
    {copies : List (List ExpId)}
    (hCopies : ∀ fs ∈ copies, fs = [body])
    (hEmits : g.Emits (copies.flatten ++ last) tokens left) :
    ∃ left', g.Emits [id] tokens left' ∧ g.EndsAs left left' := by
  induction copies generalizing tokens with
  | nil =>
      have hEnd : g.Emits (last ++ []) tokens left := by
        rw [List.append_nil]
        exact hEmits
      exact ⟨left, .unfold hLast hEnd, .refl left⟩
  | cons fs copies ih =>
      rcases List.forall_mem_cons.mp hCopies with ⟨rfl, hRest⟩
      rw [List.flatten_cons, List.append_assoc] at hEmits
      rcases emits_append_cases hEmits with
        ⟨e, rest, hFirst, rfl⟩ |
          ⟨us, vs, rfl, hFirst, hSecond⟩
      · have hOnce : g.Emits ([body, id] ++ []) tokens
            (e :: rest ++ [id]) :=
          hFirst.append [id]
        exact ⟨_, .unfold hLoops.again hOnce, endsAs_cons e _ _⟩
      · rcases ih hRest hSecond with ⟨left', hEmits', hLike⟩
        have hOnce : g.Emits ([body, id] ++ []) (us ++ vs)
            left' :=
          hFirst.emits_append hEmits'
        exact ⟨left', .unfold hLoops.again hOnce, hLike⟩

/- A derivation of an expansion goes one of its ways. -/
theorem Emits.cases_ways
    (hEmits : g.Emits [id] tokens left) :
    tokens = [] ∧ left = [id] ∨
      (∃ r result member,
        g.form id = .terminal r result member ∧
          tokens = [(g.regex r).kind] ∧ left = []) ∨
      ∃ es ∈ g.ways id, ∃ left',
        g.Emits es tokens left' ∧ g.EndsAs left left' := by
  cases hEmits with
  | stop => exact .inl ⟨rfl, rfl⟩
  | token hToken hRest =>
      cases hRest
      exact .inr (.inl ⟨_, _, _, hToken, rfl, rfl⟩)
  | @unfold _ parts _ _ _ hUnfolds hRest =>
      rw [List.append_nil] at hRest
      refine .inr (.inr ?_)
      have hParts := hUnfolds
      unfold Unfolds at hParts
      unfold ways
      cases hForm : g.form id with
      | terminal r result member =>
          rw [hForm] at hParts
          exact hParts.elim
      | oneOrMore body =>
          rw [hForm] at hParts
          rcases hParts with rfl | rfl
          · exact ⟨[body] ++ [], Language.append_mem_mul rfl
              (Language.nil_mem_kstar _), left, hRest, .refl left⟩
          · have hAgain : g.Emits ([body] ++ [id]) tokens left :=
              hRest
            rcases hAgain.unrolled (.inl hForm) with
              ⟨fs, hfs, hLeft⟩
            exact ⟨[body] ++ fs, Language.append_mem_mul rfl hfs,
              hLeft⟩
      | zeroOrMore body =>
          have hAll : g.Emits ([] ++ [id]) tokens left :=
            .unfold hUnfolds (by rwa [List.append_nil])
          exact hAll.unrolled (.inr hForm)
      | _ =>
          rw [hForm] at hParts
          exact ⟨parts, hParts, left, hRest, .refl left⟩

/- All ways of an expansion can be gone. -/
theorem exists_emits_of_ways
    (hWay : es ∈ g.ways id)
    (hEmits : g.Emits es tokens left) :
    ∃ left', g.Emits [id] tokens left' ∧ g.EndsAs left left' := by
  have hPlain : g.Unfolds id es →
      ∃ left', g.Emits [id] tokens left' ∧
        g.EndsAs left left' := by
    intro hUnfolds
    have hAll : g.Emits (es ++ []) tokens left := by
      rwa [List.append_nil]
    exact ⟨left, .unfold hUnfolds hAll, .refl left⟩
  unfold Unfolds at hPlain
  unfold ways at hWay
  cases hForm : g.form id with
  | terminal r result member =>
      rw [hForm] at hWay
      exact hWay.elim
  | oneOrMore body =>
      rw [hForm] at hWay
      dsimp only at hWay
      rw [← Language.mul_self_kstar_comm] at hWay
      rcases Language.mem_mul.mp hWay with
        ⟨_, hCopies, _, rfl, rfl⟩
      rcases Language.mem_kstar.mp hCopies with ⟨copies, rfl, h⟩
      refine exists_emits_of_copies ?_ (.inl hForm) h hEmits
      unfold Unfolds
      rw [hForm]
      exact .inl rfl
  | zeroOrMore body =>
      rw [hForm] at hWay
      rcases Language.mem_kstar.mp hWay with ⟨copies, rfl, h⟩
      have hAll : g.Emits (copies.flatten ++ []) tokens left := by
        rwa [List.append_nil]
      refine exists_emits_of_copies ?_ (.inr hForm) h hAll
      unfold Unfolds
      rw [hForm]
      exact .inl rfl
  | _ =>
      rw [hForm] at hWay hPlain
      exact hPlain hWay

/- What an expansion generates. -/
theorem generates_iff_ways :
    g.Generates [id] tokens ↔
      (∃ r result member,
        g.form id = .terminal r result member ∧
          tokens = [(g.regex r).kind]) ∨
      ∃ es ∈ g.ways id, g.Generates es tokens := by
  constructor
  · intro hGenerates
    rcases hGenerates.cases_ways with ⟨-, hLeft⟩ |
      ⟨r, result, member, hToken, hTokens, -⟩ |
      ⟨es, hWay, left, hEmits, hLike⟩
    · cases hLeft
    · exact .inl ⟨r, result, member, hToken, hTokens⟩
    · cases hLike.1 rfl
      exact .inr ⟨es, hWay, hEmits⟩
  · rintro (⟨r, result, member, hToken, rfl⟩ |
      ⟨es, hWay, hGenerates⟩)
    · exact .token hToken (.stop [])
    · rcases exists_emits_of_ways hWay hGenerates with
        ⟨left, hEmits, hLike⟩
      cases hLike.1 rfl
      exact hEmits

/- Where a derivation of an expansion stops. -/
theorem stops_iff_ways
    {limit : Nat}
    (hLimit : 0 < limit) :
    g.Stops limit [id] tokens ↔
      (∃ r result member,
        g.form id = .terminal r result member ∧
          tokens = [(g.regex r).kind] ∧ limit = 1) ∨
      g.CallsCode id ∧ tokens = [] ∨
      ∃ es ∈ g.ways id, g.Stops limit es tokens := by
  constructor
  · rintro ⟨left, hEmits, hEnds⟩
    rcases hEmits.cases_ways with ⟨rfl, rfl⟩ |
      ⟨r, result, member, hToken, rfl, rfl⟩ |
      ⟨es, hWay, left', hEmits', hLike⟩
    · rcases hEnds with hFull | ⟨-, _, _, hSame, hCode⟩
      · exact absurd hFull hLimit.ne
      · rcases List.cons.inj hSame with ⟨rfl, -⟩
        exact .inr (.inl ⟨hCode, rfl⟩)
    · rcases hEnds with hFull | ⟨-, _, _, hSame, -⟩
      · exact .inl ⟨r, result, member, hToken, rfl, hFull.symm⟩
      · cases hSame
    · exact .inr (.inr ⟨es, hWay, left', hEmits',
        hEnds.imp_right (And.imp_right hLike.2)⟩)
  · rintro (⟨r, result, member, hToken, rfl, rfl⟩ |
      ⟨hCode, rfl⟩ | ⟨es, hWay, left, hEmits, hEnds⟩)
    · exact ⟨[], .token hToken (.stop []), .inl rfl⟩
    · exact ⟨[id], .stop [id],
        .inr ⟨hLimit, id, [], rfl, hCode⟩⟩
    · rcases exists_emits_of_ways hWay hEmits with
        ⟨left', hEmits', hLike⟩
      exact ⟨left', hEmits',
        hEnds.imp_right (And.imp_right hLike.2)⟩

section Leaves

variable {r : RegexId} {result member : Option String}
variable {name args : String} {limit : Nat}

theorem generates_terminal
    (hToken : g.form id = .terminal r result member) :
    g.Generates [id] tokens ↔ tokens = [(g.regex r).kind] := by
  rw [generates_iff_ways]
  unfold ways
  rw [hToken]
  constructor
  · rintro (⟨_, _, _, hSame, rfl⟩ | ⟨es, hWay, -⟩)
    · cases hSame
      rfl
    · exact hWay.elim
  · rintro rfl
    exact .inl ⟨r, result, member, rfl, rfl⟩

theorem stops_terminal
    (hToken : g.form id = .terminal r result member)
    (hLimit : 0 < limit) :
    g.Stops limit [id] tokens ↔
      tokens = [(g.regex r).kind] ∧ limit = 1 := by
  rw [stops_iff_ways hLimit]
  unfold ways CallsCode
  rw [hToken]
  constructor
  · rintro (⟨_, _, _, hSame, rfl, rfl⟩ |
      ⟨⟨_, _, _, hSame, -⟩, -⟩ | ⟨es, hWay, -⟩)
    · cases hSame
      exact ⟨rfl, rfl⟩
    · cases hSame
    · exact hWay.elim
  · rintro ⟨rfl, rfl⟩
    exact .inl ⟨r, result, member, rfl, rfl, rfl⟩

/- Nothing is known of a call that has no body. -/
theorem not_generates_call
    (hCall : g.form id = .nonterminal name result args)
    (hNone : ∀ body, ¬ g.Defines name body) :
    ¬ g.Generates [id] tokens := by
  rw [generates_iff_ways]
  unfold ways
  rw [hCall]
  rintro (⟨_, _, _, hSame, -⟩ | ⟨es, ⟨body, hBody, -⟩, -⟩)
  · cases hSame
  · exact hNone body hBody

theorem stops_call
    (hCall : g.form id = .nonterminal name result args)
    (hNone : ∀ body, ¬ g.Defines name body)
    (hCode : g.CallsCode id)
    (hLimit : 0 < limit) :
    g.Stops limit [id] tokens ↔ tokens = [] := by
  rw [stops_iff_ways hLimit]
  unfold ways
  rw [hCall]
  constructor
  · rintro (⟨_, _, _, hSame, -⟩ | ⟨-, rfl⟩ |
      ⟨es, ⟨body, hBody, -⟩, -⟩)
    · cases hSame
    · rfl
    · exact absurd hBody (hNone body)
  · rintro rfl
    exact .inr (.inl ⟨hCode, rfl⟩)

end Leaves

end Ways

end Grammar

end Descent
