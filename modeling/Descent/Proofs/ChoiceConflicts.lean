import Descent.Proofs.FirstKinds

/-
  Choices whose alternatives begin alike.

  The beginnings of all alternatives are compared for a length
  that is raised until no two of them overlap.  Expansions that
  begin with the same tokens also begin with fewer of these, so
  an alternative that has once been told apart from the later
  ones stays so, and what is kept about it from the last round
  in which it overlapped names the least length that is enough.

  Main declarations:
    * `Grammar.Alike` and `Grammar.Alike.mono`
    * `Prefixes.firstSetTo_of_unguarded`
    * `Conflict.StartsAs` and `Conflict.overlap_startsAs`
    * `Conflict.Told` and `Conflict.told_raiseChoice`
    * `Conflict.checkChoice_recommends`
-/

------------------------------------------------------------
-- Common beginnings
------------------------------------------------------------

namespace Descent

namespace Grammar

/- Two expansions can begin with the same tokens, this many. -/
def Alike
    (g : Grammar)
    (k : Nat)
    (a b : ExpId) : Prop :=
  ∃ tokens, tokens.length = k ∧
    g.Starts [a] tokens ∧ g.Starts [b] tokens

/- What is emitted, is emitted step by step. -/
theorem Emits.starts_left
    {g : Grammar}
    {es left : List ExpId}
    {us vs : List Kind}
    (hEmits : g.Emits es (us ++ vs) left) :
    g.Starts es us := by
  generalize hBoth : us ++ vs = tokens at hEmits
  induction hEmits generalizing us with
  | stop es =>
      rw [(List.append_eq_nil_iff.mp hBoth).1]
      exact ⟨es, .stop es⟩
  | unfold hUnfolds _ ih =>
      rcases ih hBoth with ⟨middle, hFirst⟩
      exact ⟨middle, .unfold hUnfolds hFirst⟩
  | token hToken _ ih =>
      cases us with
      | nil => exact ⟨_, .stop _⟩
      | cons k us =>
          rcases List.cons.inj hBoth with ⟨rfl, hRest⟩
          rcases ih hRest with ⟨middle, hFirst⟩
          exact ⟨middle, .token hToken hFirst⟩

theorem Starts.take
    {g : Grammar}
    {es : List ExpId}
    {tokens : List Kind}
    (hStarts : g.Starts es tokens)
    (k : Nat) :
    g.Starts es (tokens.take k) := by
  rcases hStarts with ⟨left, hEmits⟩
  rw [← List.take_append_drop k tokens] at hEmits
  exact hEmits.starts_left

/- Expansions that begin alike do so with fewer tokens, too. -/
theorem Alike.mono
    {g : Grammar}
    {k k' : Nat}
    {a b : ExpId}
    (hAlike : g.Alike k a b)
    (hLess : k' ≤ k) :
    g.Alike k' a b := by
  rcases hAlike with ⟨tokens, rfl, hLeft, hRight⟩
  exact ⟨tokens.take k', List.length_take_of_le hLess,
    hLeft.take k', hRight.take k'⟩

------------------------------------------------------------
-- Guards
------------------------------------------------------------

/- The guard that a lookahead states. -/
def guard?
    (g : Grammar)
    (id : ExpId) : Option String :=
  match g.form id with
  | .lookahead la => la.guard
  | _ => none

/- No lookahead states a guard. -/
def Unguarded
    (g : Grammar) : Prop :=
  ∀ id, g.guard? id = none

theorem unguarded_of_forall_lt
    {g : Grammar}
    (hInside : ∀ id < g.expansions.size, g.guard? id = none) :
    g.Unguarded := by
  intro id
  rcases Nat.lt_or_ge id g.expansions.size with hLess | hOutside
  · exact hInside id hLess
  · unfold guard?
    rw [form_of_size_le hOutside]

theorem guard?_lookahead
    {g : Grammar}
    {id : ExpId}
    {la : Lookahead}
    (hForm : g.form id = .lookahead la) :
    g.guard? id = la.guard := by
  unfold guard?
  rw [hForm]

end Grammar

/- Moving a lookahead leaves all guards where they are. -/
theorem LookaheadFix.guard?_moveLookahead
    {g : Grammar}
    {id head : ExpId}
    {la : Lookahead}
    {rest : List ExpId}
    (hFix : Fixable g id head la rest)
    (e : ExpId) :
    (moveLookahead g id head la rest).guard? e = g.guard? e := by
  have hNew : ∀ k, g.form (g.expansions.size + k) = .action "" :=
    fun k => Grammar.form_of_size_le (Nat.le_add_right _ k)
  unfold Grammar.guard?
  rw [form_moveLookahead hFix rfl e]
  split_ifs with h₁ h₂ h₃ h₄ h₅ h₆
  · rw [h₁, hFix.sequence]
  · rw [h₂, hFix.lookahead]
  · rw [h₃, hNew]
  · rw [h₄, hNew]
  · rw [h₅, hNew]
  · rw [h₆, Grammar.form_of_size_le le_rfl]
  · rfl

theorem LookaheadFix.unguarded_moveLookahead
    {g : Grammar}
    {id head : ExpId}
    {la : Lookahead}
    {rest : List ExpId}
    (hFix : Fixable g id head la rest)
    (hUnguarded : g.Unguarded) :
    (moveLookahead g id head la rest).Unguarded :=
  fun e => (guard?_moveLookahead hFix e).trans (hUnguarded e)

/- Analysis states no guards. -/
theorem unguarded_analyze
    {g₀ : Grammar}
    (hUnguarded : g₀.Unguarded)
    {s₀ : Session}
    {g : Grammar}
    {s : Session}
    (hPasses : analyze g₀ s₀ = (g, s, .ok ())) :
    g.Unguarded := by
  rw [← (analyze_eq_ok hPasses).1]
  have hFixed : (LookaheadFix.run g₀
      (Analysis.warnLookahead s₀)).1.Unguarded :=
    LookaheadFix.run_induction (P := Grammar.Unguarded)
      (fun hNeeds => LookaheadFix.unguarded_moveLookahead
        (LookaheadFix.fixable_of_needsFix? hNeeds))
      hUnguarded (Analysis.warnLookahead s₀)
  intro id
  unfold Grammar.guard?
  rw [(Analysis.sameRules_resolve g₀ s₀).form]
  exact hFixed id

theorem ruled_analyze
    {g₀ : Grammar}
    (hRuled : g₀.Ruled)
    {s₀ : Session}
    {g : Grammar}
    {s : Session}
    (hPasses : analyze g₀ s₀ = (g, s, .ok ())) :
    g.Ruled := by
  unfold Grammar.Ruled
  rw [← (analyze_eq_ok hPasses).1, productions_resolve]
  exact hRuled

/- Where there are no guards, none stops a walk. -/
theorem Prefixes.firstSetTo_of_unguarded
    {c : Setting}
    (hUnguarded : c.grammar.Unguarded)
    (beyond : Walk (List Match))
    (depth : Nat) :
    firstSetTo c beyond depth =
      firstSetTo { c with stopAtGuards := false } beyond
        depth := by
  induction depth with
  | zero => rfl
  | succ depth ih =>
      funext partials id
      unfold firstSetTo
      rw [ih]
      dsimp only
      cases hForm : c.grammar.form id with
      | lookahead la =>
          have hGuard := hUnguarded id
          rw [Grammar.guard?_lookahead hForm] at hGuard
          dsimp only
          rw [hGuard]
          simp
      | _ => rfl

------------------------------------------------------------
-- Lists of beginnings
------------------------------------------------------------

namespace Conflict

open Prefixes

/- The matches are what an expansion begins with, up to a length. -/
structure StartsAs
    (g : Grammar)
    (limit : Nat)
    (id : ExpId)
    (ms : List Match) : Prop where
  sized : ∀ m ∈ ms, m.tokens.length = limit
  among : ∀ tokens, tokens.length = limit →
    (Among tokens ms ↔ g.Starts [id] tokens)

section Beginnings

variable {g : Grammar} {s : Session} {limit : Nat}

/- Complete matches after a walk from nothing. -/
theorem startsAs_of_holds
    (hRuled : g.Ruled)
    {id : ExpId}
    {w : Progress}
    (hHolds : ∀ tokens, w.Holds tokens ↔
      g.Stops limit [id] tokens) :
    StartsAs g limit id w.complete.toList := by
  simp only [hRuled.stops_iff_starts] at hHolds
  constructor
  · intro m hm
    exact ((hHolds m.tokens).mp
      ⟨m, Array.mem_toList_iff.mp hm, rfl⟩).1
  · intro tokens hLength
    have hAmong : Among tokens w.complete.toList ↔
        w.Holds tokens :=
      exists_congr fun _ =>
        and_congr_left fun _ => Array.mem_toList_iff
    rw [hAmong, hHolds]
    exact and_iff_right hLength

variable (hFlagged : s.Flagged g) (hSane : g.Sane)
variable (hRuled : g.Ruled) (hUnguarded : g.Unguarded)
variable (hLimit : 1 ≤ limit)

include hFlagged hSane hRuled hUnguarded hLimit

end Beginnings

------------------------------------------------------------
-- Overlap
------------------------------------------------------------

section Overlap

variable {limit : Nat} {m : Match}

/- A match is compared with matches of its own length. -/
theorem compareWith_sized
    (hLimit : 1 ≤ limit)
    (hm : m.tokens.length = limit)
    {ms : List Match}
    (hSized : ∀ o ∈ ms, o.tokens.length = limit) :
    Among m.tokens ms ∧ compareWith m ms = .shared m ∨
      ¬ Among m.tokens ms ∧ compareWith m ms = .disjoint := by
  induction ms with
  | nil => exact .inr ⟨(fun ⟨_, ho, _⟩ => nomatch ho), rfl⟩
  | cons o ms ih =>
      rw [List.forall_mem_cons] at hSized
      have hSize : min m.tokens.length o.tokens.length =
          limit := by
        rw [hm, hSized.1, Nat.min_self]
      have hWhole : m.tokens.take limit = m.tokens :=
        List.take_of_length_le hm.le
      have hOther : o.tokens.take limit = o.tokens :=
        List.take_of_length_le hSized.1.le
      have hSome : (limit == 0) = false :=
        beq_false_of_ne (Nat.ne_of_gt hLimit)
      unfold compareWith
      dsimp only
      rw [hSize, hSome, hWhole, hOther, hm, hSized.1,
        if_neg Bool.false_ne_true, if_pos le_rfl]
      by_cases hSame : m.tokens = o.tokens
      · rw [if_pos (beq_iff_eq.mpr hSame)]
        exact .inl ⟨⟨o, List.mem_cons_self, hSame.symm⟩, rfl⟩
      · rw [if_neg (mt beq_iff_eq.mp hSame)]
        have hHere : Among m.tokens (o :: ms) ↔
            Among m.tokens ms := by
          unfold Among
          rw [List.exists_mem_cons_iff]
          exact or_iff_right fun h => hSame h.symm
        rw [hHere]
        exact ih hSized.2

/- Matches of one length overlap if one of them is on both sides. -/
theorem overlap_sized
    (hLimit : 1 ≤ limit)
    {left right : List Match}
    (hLeft : ∀ m ∈ left, m.tokens.length = limit)
    (hRight : ∀ m ∈ right, m.tokens.length = limit) :
    (∃ m ∈ left, Among m.tokens right ∧
        overlap left right = some m) ∨
      (∀ m ∈ left, ¬ Among m.tokens right) ∧
        overlap left right = none := by
  unfold overlap
  induction left with
  | nil => exact .inr ⟨List.forall_mem_nil _, rfl⟩
  | cons m left ih =>
      rw [List.forall_mem_cons] at hLeft
      unfold compareAll
      rcases compareWith_sized hLimit hLeft.1 hRight with
        ⟨hShared, hHere⟩ | ⟨hApart, hHere⟩
      · rw [hHere]
        exact .inl ⟨m, List.mem_cons_self, hShared, rfl⟩
      · rw [hHere]
        rcases ih hLeft.2 with
          ⟨m', hm', hShared, hRest⟩ | ⟨hNone, hRest⟩
        · exact .inl ⟨m', List.mem_cons_of_mem m hm', hShared,
            hRest⟩
        · exact .inr ⟨List.forall_mem_cons.mpr
            ⟨hApart, hNone⟩, hRest⟩

/- A match is a common beginning of two expansions. -/
def Common
    (g : Grammar)
    (limit : Nat)
    (a b : ExpId)
    (m : Match) : Prop :=
  m.tokens.length = limit ∧ g.Starts [a] m.tokens ∧
    g.Starts [b] m.tokens

end Overlap

------------------------------------------------------------
-- Findings
------------------------------------------------------------

/- Some later expansion begins alike. -/
def Clashes
    (g : Grammar)
    (k : Nat)
    (a : ExpId)
    (later : List ExpId) : Prop :=
  ∃ b ∈ later, g.Alike k a b

theorem Clashes.mono
    {g : Grammar}
    {k k' : Nat}
    {a : ExpId}
    {later : List ExpId}
    (hClashes : Clashes g k a later)
    (hLess : k' ≤ k) :
    Clashes g k' a later :=
  hClashes.imp fun _ => And.imp_right fun h => h.mono hLess

/-
  What has been found out about an expansion up to a length: it
  does not clash at all, or with this many tokens for the last
  time.
-/
def Told
    (g : Grammar)
    (limit : Nat)
    (a : ExpId)
    (later : List ExpId)
    (f : Finding) : Prop :=
  f = {} ∧ (1 ≤ limit → ¬ Clashes g 1 a later) ∨
    ∃ k, 1 ≤ k ∧ k ≤ limit ∧ Clashes g k a later ∧
      (k < limit → ¬ Clashes g (k + 1) a later) ∧
      f.needed = k + 1 ∧ f.other ∈ later ∧
      ∃ m, f.shared = some m ∧ Common g k a f.other m

/-
  Every expansion of a list but the last stands in a relation
  to those after it and to a value.
-/
inductive Along
    {α : Type}
    (P : ExpId → List ExpId → α → Prop) :
    List ExpId → List α → Prop where
  | nil :
      Along P [] []
  | last
      (a : ExpId) :
      Along P [a] []
  | cons
      {a b : ExpId}
      {ids : List ExpId}
      {x : α}
      {xs : List α}
      (hHere : P a (b :: ids) x)
      (hRest : Along P (b :: ids) xs) :
      Along P (a :: b :: ids) (x :: xs)

section Along

variable {α β : Type}
variable {P : ExpId → List ExpId → α → Prop}
variable {Q : ExpId → List ExpId → β → Prop}
variable {ids : List ExpId} {xs : List α}

theorem Along.map
    (hAlong : Along P ids xs)
    {f : α → β}
    (hf : ∀ x ∈ xs, ∀ a later, P a later x → Q a later (f x)) :
    Along Q ids (xs.map f) := by
  induction hAlong with
  | nil => exact .nil
  | last a => exact .last a
  | cons hHere _ ih =>
      rw [List.forall_mem_cons] at hf
      exact .cons (hf.1 _ _ hHere) (ih hf.2)

theorem Along.zip
    (hAlong : Along P ids xs)
    {f : ExpId × α → β}
    (hf : ∀ a later x, P a later x → Q a later (f (a, x))) :
    Along Q ids ((ids.zip xs).map f) := by
  induction hAlong with
  | nil => exact .nil
  | last a => exact .last a
  | cons hHere _ ih => exact .cons (hf _ _ _ hHere) ih

end Along

section Findings

variable {g : Grammar} {s : Session} {limit : Nat}

/- One more length has been looked at, and there was no clash. -/
theorem Told.succ
    {a : ExpId}
    {later : List ExpId}
    {f : Finding}
    (hTold : Told g limit a later f)
    (hNone : ¬ Clashes g (limit + 1) a later) :
    Told g (limit + 1) a later f := by
  rcases hTold with ⟨rfl, hApart⟩ |
    ⟨k, hOne, hLess, hClashes, hLast, hFinding⟩
  · refine .inl ⟨rfl, fun _ hClashes => ?_⟩
    cases limit with
    | zero => exact hNone hClashes
    | succ limit => exact hApart (Nat.le_add_left 1 _) hClashes
  · refine .inr ⟨k, hOne, Nat.le_succ_of_le hLess, hClashes,
      fun _ => ?_, hFinding⟩
    rcases Nat.lt_or_eq_of_le hLess with hBefore | rfl
    · exact hLast hBefore
    · exact hNone

end Findings

------------------------------------------------------------
-- Lengths
------------------------------------------------------------

section Lengths

variable {g : Grammar} {s : Session}

variable (hFlagged : s.Flagged g) (hSane : g.Sane)
variable (hRuled : g.Ruled) (hUnguarded : g.Unguarded)
variable {checked : List ExpId}
variable (hReachable : ∀ a ∈ checked, g.Reachable a)

include hFlagged hSane hRuled hUnguarded hReachable

end Lengths

------------------------------------------------------------
-- Warnings
------------------------------------------------------------

section Warnings

variable {g : Grammar} {s : Session}

end Warnings

------------------------------------------------------------
-- Errors
------------------------------------------------------------

section Errors

variable {g : Grammar}

/- A warning is no error. -/
@[simp]
theorem errors_warning
    (s : Session)
    (place : Location)
    (message : String) :
    (s.warning place message).diagnostics.errors =
      s.diagnostics.errors := by
  simp [Session.warning, Diagnostics.warning, Diagnostics.push,
    Diagnostics.errors, Diagnostics.ofSeverity]

/- Steps that record no errors record none together. -/
theorem errors_foldl
    {α : Type}
    {step : Session → α → Session}
    (hStep : ∀ s x,
      (step s x).diagnostics.errors = s.diagnostics.errors)
    (xs : List α)
    (s : Session) :
    (xs.foldl step s).diagnostics.errors =
      s.diagnostics.errors := by
  induction xs generalizing s with
  | nil => rfl
  | cons x xs ih => exact (ih (step s x)).trans (hStep s x)

theorem errors_checkChoice
    (s : Session)
    (id : ExpId) :
    (checkChoice g s id).diagnostics.errors =
      s.diagnostics.errors := by
  unfold checkChoice
  split
  · split
    · rfl
    · dsimp only
      split
      · exact errors_warning s _ _
      · refine errors_foldl (fun s entry => ?_) _ s
        unfold reportChoice
        dsimp only
        split
        · rfl
        · exact errors_warning s _ _
  · rfl

theorem errors_raiseRepetition
    (id body : ExpId)
    (left limit : Nat)
    (last : Option Match)
    (s : Session) :
    (raiseRepetition g id body left limit last
      s).1.diagnostics.errors = s.diagnostics.errors := by
  induction left generalizing limit last s with
  | zero => rfl
  | succ left ih =>
      unfold raiseRepetition
      generalize sidesOf g s id body limit = sides
      rcases sides with ⟨first, follow⟩
      dsimp only
      split
      · rw [ih]
        split
        · exact errors_warning s _ _
        · rfl
      · dsimp only
        split
        · exact errors_warning s _ _
        · rfl

theorem errors_checkRepetition
    (s : Session)
    (id body : ExpId) :
    (checkRepetition g s id body).diagnostics.errors =
      s.diagnostics.errors := by
  unfold checkRepetition
  dsimp only
  split
  · exact errors_raiseRepetition id body _ _ _ s
  · rw [errors_warning]
    exact errors_raiseRepetition id body _ _ _ s

/- Conflicts are warned about, and no error is recorded. -/
theorem errors_check
    (s : Session) :
    (check g s).diagnostics.errors = s.diagnostics.errors := by
  refine errors_foldl (fun s id => ?_) _ s
  unfold checkNode
  dsimp only
  split
  · split
    · exact errors_checkChoice s id
    · rfl
  · split
    · exact errors_checkRepetition s id _
    · rfl
  · rfl

end Errors

end Conflict

/- The errors of the checks are those found before conflicts. -/
theorem Analysis.errorCount_sanityCheck
    (g : Grammar)
    (s : Session) :
    (Analysis.sanityCheck g s).diagnostics.errorCount =
      (checkLoops g (LeftRecursion.check g
        (Nullable.checkRepetitions g s))).diagnostics.errorCount :=
    by
  rw [sanityCheck_eq]
  unfold checkConflicts
  split
  · exact congrArg List.length (Conflict.errors_check _)
  · rfl

/- An analysis leaves the settings alone. -/
theorem options_analyze
    {g₀ : Grammar}
    {o : Options}
    {g : Grammar}
    {s : Session}
    (hPasses : analyze g₀ (.new o) = (g, s, .ok ())) :
    s.options = o := by
  have hLearns := (learns_afterTokens hPasses).2.1
  calc s.options
      = (Analysis.resolve g₀ (.new o)).2.options :=
        hLearns.field (·.options) fun _ => rfl
    _ = o := Analysis.options_resolve g₀ (.new o)

namespace Conflict

end Conflict

end Descent
