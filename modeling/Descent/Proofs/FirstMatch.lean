import Descent.Analysis
import Descent.Grammar.Builder
import Descent.Parser.Method
import Descent.Proofs.Collections
import Descent.Proofs.KindNames
import Descent.Proofs.Statements
import Mathlib

/-
  Decisions take the first alternative whose condition holds.

  The code of a decision asks for the kind of the next token,
  for guards, and for the outcomes of entry points.  Whatever
  the answers are, it comes to the code of the first
  alternative whose condition holds, or to the last resort if
  there is none.  Alternatives that are decided by kind share
  a selection as long as no other one comes between them; each
  kind then belongs to the first that claims it.

  Main declarations:
    * `Condition.holds`
    * `Decision.eval`
    * `Decision.entered`
    * `Decision.build_takes_first_match`
    * `Method.level_bodyTo`
    * `Method.readTo_decision`
-/

------------------------------------------------------------
-- Answers
------------------------------------------------------------

namespace Descent

/- The answers to what the code of a decision asks. -/
structure Answers where
  /- The kind of the next token. -/
  next : Kind
  /- The value of each guard. -/
  guard : String → Bool
  /- The outcome of each entry point, with its amount. -/
  call : Nat → Nat → Bool

namespace Test

def passes
    (a : Answers) : Test → Bool
  | .guard code => a.guard code
  | .scan entry amount asked =>
      a.call entry amount && asked.all a.guard

end Test

namespace Decision

/- The code that a decision comes to. -/
def eval
    (a : Answers) : Decision → Fragment
  | .run code => code
  | .test t code otherwise =>
      if t.passes a then code else otherwise.eval a
  | .select arms _ otherwise =>
      match arms.find? (·.1.contains a.next) with
      | some arm => arm.2
      | none => otherwise.eval a

/-
  As it is written a decision comes to the same code, if no
  entry point can tell the number that is written for an
  amount without bound.
-/
theorem eval_asWritten
    {a : Answers}
    (hAmount : ∀ entry,
      a.call entry 2147483647 = a.call entry unbounded)
    (d : Decision) :
    d.asWritten.eval a = d.eval a := by
  have hPasses : ∀ t, (writtenTest t).passes a = t.passes a := by
    intro t
    cases t with
    | guard code => rfl
    | scan entry amount asked =>
        have hCall : a.call entry (writtenAmount amount) =
            a.call entry amount := by
          unfold writtenAmount
          split
          · next hBound => rw [eq_of_beq hBound, hAmount]
          · rfl
        rw [writtenTest, Test.passes, Test.passes, hCall]
  induction d with
  | run code => rfl
  | test t code otherwise ih =>
      rw [asWritten, eval, eval, hPasses, ih]
  | select arms slot otherwise ih =>
      rw [asWritten, eval, eval, ih]

/- No kind has two labels in one selection. -/
def LabelsApart : Decision → Prop
  | .run _ => True
  | .test _ _ otherwise => otherwise.LabelsApart
  | .select arms _ otherwise =>
      (arms.flatMap (·.1)).Nodup ∧ otherwise.LabelsApart

end Decision

------------------------------------------------------------
-- Conditions
------------------------------------------------------------

namespace Condition

variable (g : Grammar) (s : Session)

/- Nothing but the guard of the condition can fail. -/
def onlyGuarded
    (c : Condition) : Bool :=
  c.amount == 0 || Nullable.nullable g s c.target ||
    beginsWithCode g s c.target

/- The next token alone decides. -/
def byToken
    (c : Condition) : Bool :=
  c.amount == 1 && c.guard.isNone &&
    !(firstOf g s c.target).guarded

/- The condition is decided by an entry point of its own. -/
def scans
    (c : Condition) : Bool :=
  !c.onlyGuarded g s && !c.byToken g s

/-
  The condition holds, where its entry point has the given
  number if it is decided by one.
-/
def holds
    (a : Answers)
    (entry : Nat)
    (c : Condition) : Bool :=
  if c.onlyGuarded g s then
    c.guard.all a.guard
  else if c.byToken g s then
    (firstOf g s c.target).kinds.contains a.next
  else
    a.call entry c.amount && c.guard.all a.guard

variable {g s}

theorem strategy_of_onlyGuarded
    {c : Condition}
    (hGuarded : c.onlyGuarded g s = true) :
    c.strategy g s = .trivial := by
  unfold strategy
  exact if_pos hGuarded

theorem strategy_of_byToken
    {c : Condition}
    (hOther : c.onlyGuarded g s = false)
    (hToken : c.byToken g s = true) :
    c.strategy g s =
      .byKind (firstOf g s c.target).kinds.kinds := by
  unfold onlyGuarded at hOther
  unfold byToken at hToken
  rw [Bool.and_eq_true, Bool.not_eq_true'] at hToken
  unfold strategy
  dsimp only
  rw [hOther, hToken.1, hToken.2]
  rfl

theorem strategy_of_scans
    {c : Condition}
    (hScans : c.scans g s = true) :
    c.strategy g s = .scan := by
  unfold scans at hScans
  rw [Bool.and_eq_true, Bool.not_eq_true',
    Bool.not_eq_true'] at hScans
  rcases hScans with ⟨hOther, hToken⟩
  unfold onlyGuarded at hOther
  unfold byToken at hToken
  unfold strategy
  dsimp only
  rw [hOther]
  cases hOne : c.amount == 1 && c.guard.isNone with
  | false => rfl
  | true =>
      rw [hOne, Bool.true_and, Bool.not_eq_false'] at hToken
      rw [hToken]
      rfl

theorem holds_of_onlyGuarded
    {c : Condition}
    (hGuarded : c.onlyGuarded g s = true)
    (a : Answers)
    (entry : Nat) :
    c.holds g s a entry = c.guard.all a.guard :=
  if_pos hGuarded

theorem holds_of_byToken
    {c : Condition}
    (hOther : c.onlyGuarded g s = false)
    (hToken : c.byToken g s = true)
    (a : Answers)
    (entry : Nat) :
    c.holds g s a entry =
      (firstOf g s c.target).kinds.kinds.contains a.next := by
  unfold holds
  rw [hOther, hToken, Bool.eq_iff_iff, List.contains_iff_mem,
    KindSet.mem_kinds]
  rfl

theorem holds_of_scans
    {c : Condition}
    (hScans : c.scans g s = true)
    (a : Answers)
    (entry : Nat) :
    c.holds g s a entry =
      (a.call entry c.amount && c.guard.all a.guard) := by
  unfold scans at hScans
  rw [Bool.and_eq_true, Bool.not_eq_true',
    Bool.not_eq_true'] at hScans
  unfold holds
  rw [hScans.1, hScans.2]
  rfl

/- A condition is decided in one of three ways. -/
theorem cases_strategy
    (g : Grammar)
    (s : Session)
    (c : Condition) :
    (c.onlyGuarded g s = true ∧ c.strategy g s = .trivial) ∨
      (c.onlyGuarded g s = false ∧ c.byToken g s = true ∧
        c.strategy g s =
          .byKind (firstOf g s c.target).kinds.kinds) ∨
      (c.onlyGuarded g s = false ∧ c.scans g s = true ∧
        c.strategy g s = .scan) := by
  cases hGuarded : c.onlyGuarded g s with
  | true => exact .inl ⟨rfl, strategy_of_onlyGuarded hGuarded⟩
  | false =>
      cases hToken : c.byToken g s with
      | true =>
          exact .inr (.inl ⟨rfl, rfl,
            strategy_of_byToken hGuarded hToken⟩)
      | false =>
          have hScans : c.scans g s = true := by
            unfold scans
            rw [hGuarded, hToken]
            rfl
          exact .inr (.inr ⟨rfl, hScans,
            strategy_of_scans hScans⟩)

end Condition

namespace Decision

------------------------------------------------------------
-- The first alternative that holds
------------------------------------------------------------

section Choice

variable (g : Grammar) (s : Session)

/-
  The code of the first alternative that holds.  Entry points
  are numbered from the given number on.
-/
def firstHolding
    (a : Answers)
    (lastResort : Fragment) :
    Nat → List (Condition × Fragment) → Fragment
  | _, [] => lastResort
  | n, (c, code) :: rest =>
      if c.holds g s a (n + 1) then
        code
      else
        firstHolding a lastResort
          (if c.scans g s then n + 1 else n) rest

/- The number of entry points for what comes before. -/
def scansBefore
    (alternatives : List (Condition × Fragment))
    (i : Nat) : Nat :=
  (alternatives.take i).countP (·.1.scans g s)

/-
  An alternative of a decision holds, when some entry points
  were taken before.
-/
def Holds
    (alternatives : List (Condition × Fragment))
    (taken : Nat)
    (a : Answers)
    (i : Nat) : Prop :=
  ∃ c code, alternatives[i]? = some (c, code) ∧
    c.holds g s a (taken + scansBefore g s alternatives i + 1) =
      true

variable {g s}

theorem scansBefore_cons
    (alternative : Condition × Fragment)
    (rest : List (Condition × Fragment))
    (i : Nat) :
    scansBefore g s (alternative :: rest) (i + 1) =
      scansBefore g s rest i +
        if alternative.1.scans g s then 1 else 0 := by
  unfold scansBefore
  rw [List.take_succ_cons, List.countP_cons]

theorem holds_zero
    {c : Condition}
    {code : Fragment}
    {rest : List (Condition × Fragment)}
    {taken : Nat}
    {a : Answers} :
    Holds g s ((c, code) :: rest) taken a 0 ↔
      c.holds g s a (taken + 1) = true := by
  constructor
  · intro hHolds
    rcases hHolds with ⟨c', code', hAt, hHolds⟩
    cases hAt
    exact hHolds
  · intro hHolds
    exact ⟨c, code, rfl, hHolds⟩

theorem holds_succ
    {c : Condition}
    {code : Fragment}
    {rest : List (Condition × Fragment)}
    {taken : Nat}
    {a : Answers}
    {i : Nat} :
    Holds g s ((c, code) :: rest) taken a (i + 1) ↔
      Holds g s rest
        (if c.scans g s then taken + 1 else taken) a i := by
  have hEntry :
      taken + scansBefore g s ((c, code) :: rest) (i + 1) =
        (if c.scans g s then taken + 1 else taken) +
          scansBefore g s rest i := by
    rw [scansBefore_cons]
    split
    · omega
    · omega
  unfold Holds
  rw [List.getElem?_cons_succ, hEntry]

/- Nothing that comes before the chosen alternative holds. -/
theorem firstHolding_of_holds
    {a : Answers}
    {lastResort : Fragment}
    {alternatives : List (Condition × Fragment)}
    {taken i : Nat}
    {c : Condition}
    {code : Fragment}
    (hAt : alternatives[i]? = some (c, code))
    (hHolds : Holds g s alternatives taken a i)
    (hFirst : ∀ j < i, ¬ Holds g s alternatives taken a j) :
    firstHolding g s a lastResort taken alternatives =
      code := by
  induction alternatives generalizing taken i with
  | nil => cases hAt
  | cons alternative rest ih =>
      rcases alternative with ⟨c', code'⟩
      unfold firstHolding
      cases i with
      | zero =>
          cases hAt
          exact if_pos (holds_zero.mp hHolds)
      | succ i =>
          have hNot := hFirst 0 (Nat.succ_pos i)
          rw [holds_zero] at hNot
          rw [if_neg hNot]
          apply ih hAt (holds_succ.mp hHolds)
          intro j hBefore hHolds'
          exact hFirst (j + 1) (Nat.succ_lt_succ hBefore)
            (holds_succ.mpr hHolds')

theorem firstHolding_of_none
    {a : Answers}
    {lastResort : Fragment}
    {alternatives : List (Condition × Fragment)}
    {taken : Nat}
    (hNone : ∀ i, ¬ Holds g s alternatives taken a i) :
    firstHolding g s a lastResort taken alternatives =
      lastResort := by
  induction alternatives generalizing taken with
  | nil => rfl
  | cons alternative rest ih =>
      rcases alternative with ⟨c, code⟩
      unfold firstHolding
      have hNot := hNone 0
      rw [holds_zero] at hNot
      rw [if_neg hNot]
      apply ih
      intro i hHolds
      exact hNone (i + 1) (holds_succ.mpr hHolds)

end Choice

------------------------------------------------------------
-- Selections
------------------------------------------------------------

/-
  A selection whose kinds are those that are claimed, and
  whose arms all have some.
-/
def Pending.Sound : Pending → Prop
  | .nothing => True
  | .arms done claimed =>
      claimed = done.reverse.flatMap (·.1) ∧ claimed.Nodup ∧
        ∀ arm ∈ done, arm.1 ≠ []

theorem Pending.sound_nil :
    (Pending.arms [] []).Sound :=
  ⟨rfl, List.nodup_nil, fun _ hMem => by cases hMem⟩

/- The code of the arm that claims the next kind. -/
def Pending.code?
    (a : Answers) : Pending → Option Fragment
  | .nothing => none
  | .arms done _ =>
      (done.reverse.find? (·.1.contains a.next)).map (·.2)

/- All code of a selection has a property. -/
def Pending.All
    (P : Fragment → Prop) : Pending → Prop
  | .nothing => True
  | .arms done _ => ∀ arm ∈ done, P arm.2

/- A selection is closed around what comes after it. -/
def Pending.wrap
    (slot : Option Nat)
    (otherwise : Decision) : Pending → Decision
  | .nothing => otherwise
  | .arms done _ => .select done.reverse slot otherwise

/- A selection with one more alternative. -/
def Pending.add
    (kinds : List Kind)
    (code : Fragment)
    (pending : Pending) : Pending :=
  let (done, claimed) := match pending with
    | .nothing => ([], [])
    | .arms done claimed => (done, claimed)
  let own := kinds.filter fun k => !claimed.contains k
  .arms (if own.isEmpty then done else (own, code) :: done)
    (claimed ++ own)

theorem eval_wrap
    (a : Answers)
    (slot : Option Nat)
    (otherwise : Decision)
    (pending : Pending) :
    (pending.wrap slot otherwise).eval a =
      (pending.code? a).getD (otherwise.eval a) := by
  cases pending with
  | nothing => rfl
  | arms done claimed =>
      simp only [Pending.wrap, Pending.code?, eval]
      cases done.reverse.find? (·.1.contains a.next) with
      | none => rfl
      | some arm => rfl

theorem labelsApart_wrap
    {slot : Option Nat}
    {otherwise : Decision}
    {pending : Pending}
    (hSound : pending.Sound)
    (hApart : otherwise.LabelsApart) :
    (pending.wrap slot otherwise).LabelsApart := by
  cases pending with
  | nothing => exact hApart
  | arms done claimed =>
      refine ⟨?_, hApart⟩
      rw [← hSound.1]
      exact hSound.2.1

theorem formed_wrap
    {o : Options}
    {slot : Option Nat}
    (hSlot : slot.isSome = o.errorReporting)
    {otherwise : Decision}
    {pending : Pending}
    (hSound : pending.Sound)
    (hFormed : otherwise.Formed o) :
    (pending.wrap slot otherwise).Formed o := by
  cases pending with
  | nothing => exact hFormed
  | arms done claimed =>
      refine ⟨?_, hSlot, hFormed⟩
      intro arm hMem
      exact hSound.2.2 arm (List.mem_reverse.mp hMem)

theorem madeOf_wrap
    {P : Fragment → Prop}
    {Q : String → Prop}
    {slot : Option Nat}
    {otherwise : Decision}
    {pending : Pending}
    (hAll : pending.All P)
    (hMade : otherwise.MadeOf P Q) :
    (pending.wrap slot otherwise).MadeOf P Q := by
  cases pending with
  | nothing => exact hMade
  | arms done claimed =>
      refine ⟨?_, hMade⟩
      intro arm hMem
      exact hAll arm (List.mem_reverse.mp hMem)

theorem Pending.All.add
    {P : Fragment → Prop}
    {pending : Pending}
    (hAll : pending.All P)
    (kinds : List Kind)
    {code : Fragment}
    (hCode : P code) :
    (pending.add kinds code).All P := by
  have hAdd : ∀ done claimed,
      (Pending.arms done claimed).All P →
        ((Pending.arms done claimed).add kinds code).All P := by
    intro done claimed hAll
    unfold Pending.add Pending.All
    dsimp only
    split
    · exact hAll
    · intro arm hMem
      rcases List.mem_cons.mp hMem with rfl | hBefore
      · exact hCode
      · exact hAll arm hBefore
  cases pending with
  | nothing =>
      apply hAdd [] []
      intro arm hMem
      cases hMem
  | arms done claimed => exact hAdd done claimed hAll

/- Kinds that are claimed belong to an arm. -/
theorem find?_isSome_iff
    (arms : List (List Kind × Fragment))
    (k : Kind) :
    (arms.find? (·.1.contains k)).isSome = true ↔
      k ∈ arms.flatMap (·.1) := by
  rw [List.find?_isSome, List.mem_flatMap]
  constructor
  · intro hArm
    rcases hArm with ⟨arm, hMem, hContains⟩
    exact ⟨arm, hMem, List.contains_iff_mem.mp hContains⟩
  · intro hArm
    rcases hArm with ⟨arm, hMem, hKind⟩
    exact ⟨arm, hMem, List.contains_iff_mem.mpr hKind⟩

/- The arms of a selection with one more alternative. -/
theorem reverse_add
    (own : List Kind)
    (code : Fragment)
    (done : List (List Kind × Fragment)) :
    (if own.isEmpty then done else
      (own, code) :: done).reverse =
      done.reverse ++
        (if own.isEmpty then [] else [(own, code)]) := by
  split
  · rw [List.append_nil]
  · rw [List.reverse_cons]

theorem Pending.Sound.add
    {pending : Pending}
    (hSound : pending.Sound)
    {kinds : List Kind}
    (hKinds : kinds.Nodup)
    (code : Fragment) :
    (pending.add kinds code).Sound := by
  have hAdd : ∀ done claimed,
      (Pending.arms done claimed).Sound →
        ((Pending.arms done claimed).add kinds code).Sound := by
    intro done claimed hSound
    rcases hSound with ⟨hClaimed, hNodup, hLabels⟩
    unfold Pending.add Pending.Sound
    dsimp only
    generalize hOwn : kinds.filter
      (fun k => !claimed.contains k) = own
    refine ⟨?_, ?_, ?_⟩
    · rw [reverse_add, List.flatMap_append, ← hClaimed]
      split
      · next hEmpty =>
          rw [List.isEmpty_iff.mp hEmpty]
          rfl
      · rw [List.flatMap_cons, List.flatMap_nil,
          List.append_nil]
    · rw [List.nodup_append', ← hOwn]
      refine ⟨hNodup, hKinds.filter _, ?_⟩
      intro k hBefore hMem
      have hFresh := (List.mem_filter.mp hMem).2
      rw [Bool.not_eq_true',
        List.contains_eq_mem, decide_eq_false_iff_not]
        at hFresh
      exact hFresh hBefore
    · intro arm hMem
      split at hMem
      · exact hLabels arm hMem
      · next hSome =>
          rcases List.mem_cons.mp hMem with rfl | hMem
          · intro hEmpty
            exact hSome (List.isEmpty_iff.mpr hEmpty)
          · exact hLabels arm hMem
  cases pending with
  | nothing => exact hAdd [] [] Pending.sound_nil
  | arms done claimed => exact hAdd done claimed hSound

/-
  One more alternative is asked after those that are there
  already, which claim their kinds first.
-/
theorem code?_add
    {pending : Pending}
    (hSound : pending.Sound)
    (a : Answers)
    (kinds : List Kind)
    (code other : Fragment) :
    ((pending.add kinds code).code? a).getD other =
      (pending.code? a).getD
        (if kinds.contains a.next then code else other) := by
  have hAdd : ∀ done claimed,
      (Pending.arms done claimed).Sound →
        (((Pending.arms done claimed).add kinds code).code?
          a).getD other =
        ((Pending.arms done claimed).code? a).getD
          (if kinds.contains a.next then code else other) := by
    intro done claimed hSound
    have hClaims := find?_isSome_iff done.reverse a.next
    rw [← hSound.1] at hClaims
    unfold Pending.add Pending.code?
    dsimp only
    generalize hOwn : kinds.filter
      (fun k => !claimed.contains k) = own
    rw [reverse_add, List.find?_append]
    cases hFind : done.reverse.find?
        (·.1.contains a.next) with
    | some arm => rfl
    | none =>
        rw [hFind] at hClaims
        have hFree : a.next ∉ claimed := by
          intro hMem
          cases hClaims.mpr hMem
        have hSame : own.contains a.next =
            kinds.contains a.next := by
          rw [← hOwn, Bool.eq_iff_iff, List.contains_iff_mem,
            List.contains_iff_mem, List.mem_filter]
          constructor
          · exact And.left
          · intro hMem
            refine ⟨hMem, ?_⟩
            rw [Bool.not_eq_true', List.contains_eq_mem,
              decide_eq_false_iff_not]
            exact hFree
        rw [← hSame, Option.none_or, Option.map_none,
          Option.getD_none]
        split
        · next hEmpty =>
            rw [List.isEmpty_iff.mp hEmpty]
            rfl
        · rw [List.find?_cons]
          split
          · next hContains =>
              rw [if_pos hContains]
              rfl
          · next hContains =>
              rw [if_neg (by rw [hContains]; decide)]
              rfl
  cases pending with
  | nothing => exact hAdd [] [] Pending.sound_nil
  | arms done claimed => exact hAdd done claimed hSound

------------------------------------------------------------
-- Building
------------------------------------------------------------

section Building

variable {g : Grammar} {s : Session}

/-
  Closing a selection takes no entry point, and a slot where
  errors are reported.
-/
theorem run_close
    (pending : Pending)
    (recordAlways : Bool)
    (rest : StateM ParserTables Decision)
    (t : ParserTables) :
    ∃ slot t', slot.isSome = s.options.errorReporting ∧
      t'.entryCount = t.entryCount ∧
      t'.entries = t.entries ∧
      (close s pending recordAlways rest).run t =
        (pending.wrap slot (rest.run t').1,
          (rest.run t').2) := by
  cases pending with
  | nothing =>
      refine ⟨if s.options.errorReporting then some 0 else none,
        t, ?_, rfl, rfl, rfl⟩
      cases s.options.errorReporting <;> rfl
  | arms done claimed =>
      have hSlot : ∃ slot t',
          (takeSlot s.options s.tokenCount claimed
            recordAlways).run t = (slot, t') ∧
          slot.isSome = s.options.errorReporting ∧
          t'.entryCount = t.entryCount ∧
          t'.entries = t.entries := by
        unfold takeSlot
        dsimp only [modifyGet, MonadStateOf.modifyGet,
          StateT.modifyGet, StateT.run, pure]
        split
        · next hReports => exact ⟨_, _, rfl, hReports.symm, rfl, rfl⟩
        · next hReports =>
            exact ⟨_, _, rfl,
              (Bool.not_eq_true _ ▸ hReports).symm, rfl, rfl⟩
      rcases hSlot with
        ⟨slot, t', hRun, hSlot, hCount, hEntries⟩
      refine ⟨slot, t', hSlot, hCount, hEntries, ?_⟩
      unfold close
      dsimp only [bind, StateT.bind, StateT.run, pure,
        StateT.pure] at hRun ⊢
      rw [hRun]
      rfl

/- The conditions that get entry points. -/
def entered
    (g : Grammar)
    (s : Session) :
    List (Condition × Fragment) → List Condition
  | [] => []
  | (c, _) :: rest =>
      if c.onlyGuarded g s && c.guard.isNone then
        []
      else if c.scans g s then
        c :: entered g s rest
      else
        entered g s rest

/- An alternative gets its entry point in the order of all. -/
theorem entered_getElem?
    {alternatives : List (Condition × Fragment)}
    {i : Nat}
    {c : Condition}
    {code : Fragment}
    (hAt : alternatives[i]? = some (c, code))
    (hScans : c.scans g s = true)
    (hFails : ∀ before ∈ alternatives.take i,
      (before.1.onlyGuarded g s && before.1.guard.isNone) =
        false) :
    (entered g s alternatives)[
      scansBefore g s alternatives i]? = some c := by
  induction alternatives generalizing i with
  | nil => cases hAt
  | cons alternative rest ih =>
      rcases alternative with ⟨c', code'⟩
      cases i with
      | zero =>
          cases hAt
          have hOther : c.onlyGuarded g s = false := by
            unfold Condition.scans at hScans
            rw [Bool.and_eq_true, Bool.not_eq_true'] at hScans
            exact hScans.1
          rw [entered, hOther, hScans]
          rfl
      | succ i =>
          have hHead := hFails (c', code') List.mem_cons_self
          have hRest := ih hAt fun before hMem =>
            hFails before (List.mem_cons_of_mem _ hMem)
          rw [entered, hHead, scansBefore_cons]
          cases c'.scans g s with
          | false => exact hRest
          | true => exact hRest

/- What building a decision comes to. -/
structure Built
    (g : Grammar)
    (s : Session)
    (lastResort : Fragment)
    (pending : Pending)
    (alternatives : List (Condition × Fragment))
    (t : ParserTables)
    (built : Decision × ParserTables) : Prop where
  eval : ∀ a, built.1.eval a = (pending.code? a).getD
    (firstHolding g s a lastResort t.entryCount alternatives)
  apart : built.1.LabelsApart
  formed : built.1.Formed s.options
  made : ∀ P Q,
    (∀ alternative ∈ alternatives, P alternative.2 ∧
      ∀ guard ∈ alternative.1.guard, Q guard) →
    P lastResort → pending.All P → built.1.MadeOf P Q
  entryCount : built.2.entryCount =
    t.entryCount + (entered g s alternatives).length
  entries : built.2.entries = t.entries ++
    ((entered g s alternatives).map fun c =>
      (⟨c.target, c.amount⟩ : ScanRequest)).toArray

/- A selection is closed around a decision. -/
theorem built_close
    {lastResort : Fragment}
    {pending : Pending}
    (hSound : pending.Sound)
    {alternatives : List (Condition × Fragment)}
    {recordAlways : Bool}
    {rest : StateM ParserTables Decision}
    {t : ParserTables}
    (hRest : ∀ t', t'.entryCount = t.entryCount →
      t'.entries = t.entries →
        Built g s lastResort .nothing alternatives t'
          (rest.run t')) :
    Built g s lastResort pending alternatives t
      ((close s pending recordAlways rest).run t) := by
  rcases run_close pending recordAlways rest t with
    ⟨slot, t', hSlot, hCount, hEntries, hRun⟩
  have hBuilt := hRest t' hCount hEntries
  rw [hRun]
  constructor
  · intro a
    rw [eval_wrap, hBuilt.eval, hCount]
    rfl
  · exact labelsApart_wrap hSound hBuilt.apart
  · exact formed_wrap hSlot hSound hBuilt.formed
  · intro P Q hCodes hLast hAll
    exact madeOf_wrap hAll (hBuilt.made P Q hCodes hLast trivial)
  · exact hBuilt.entryCount.trans (by rw [hCount])
  · exact hBuilt.entries.trans (by rw [hEntries])

/- A test comes before the alternatives that are left. -/
theorem Built.test
    {lastResort code : Fragment}
    {c : Condition}
    {asked : Test}
    {rest : List (Condition × Fragment)}
    {t t' : ParserTables}
    {built : Decision × ParserTables}
    (hRest : Built g s lastResort .nothing rest t' built)
    (hAsked : ∀ a, asked.passes a =
      c.holds g s a (t.entryCount + 1))
    (hGuard : guardOf? asked = c.guard)
    (hFails : (c.onlyGuarded g s && c.guard.isNone) = false)
    (hCount : t'.entryCount =
      if c.scans g s then t.entryCount + 1 else t.entryCount)
    (hEntries : t'.entries = t.entries ++
      if c.scans g s then #[⟨c.target, c.amount⟩] else #[]) :
    Built g s lastResort .nothing ((c, code) :: rest) t
      (.test asked code built.1, built.2) := by
  constructor
  · intro a
    rw [Decision.eval, hAsked, hRest.eval, hCount]
    rfl
  · exact hRest.apart
  · exact hRest.formed
  · intro P Q hCodes hLast _
    have hHead := hCodes (c, code) List.mem_cons_self
    refine ⟨?_, hHead.1, hRest.made P Q ?_ hLast trivial⟩
    · rw [hGuard]
      exact hHead.2
    · intro alternative hMem
      exact hCodes alternative (List.mem_cons_of_mem _ hMem)
  · rw [entered, hFails, hRest.entryCount, hCount]
    split
    · simp [Nat.add_assoc, Nat.add_comm 1]
    · simp
  · rw [entered, hFails, hRest.entries, hEntries]
    split
    · simp
    · simp

theorem built_buildFrom
    (lastResort : Fragment)
    {pending : Pending}
    (hSound : pending.Sound)
    (alternatives : List (Condition × Fragment))
    (t : ParserTables) :
    Built g s lastResort pending alternatives t
      ((buildFrom g s lastResort pending alternatives).run
        t) := by
  induction alternatives generalizing pending t with
  | nil =>
      unfold buildFrom
      apply built_close hSound
      intro t' _ _
      exact ⟨fun _ => rfl, trivial, trivial,
        fun _ _ _ hLast _ => hLast, rfl,
        Array.append_empty.symm⟩
  | cons alternative rest ih =>
      rcases alternative with ⟨c, code⟩
      unfold buildFrom
      rcases c.cases_strategy g s with
        ⟨hGuarded, hStrategy⟩ | ⟨hOther, hToken, hStrategy⟩ |
        ⟨hOther, hScans, hStrategy⟩
      · have hEntry : c.scans g s = false := by
          unfold Condition.scans
          rw [hGuarded]
          rfl
        rw [hStrategy]
        cases hGuard : c.guard with
        | none =>
            apply built_close hSound
            intro t' _ _
            have hEntered :
                entered g s ((c, code) :: rest) = [] := by
              rw [entered, hGuarded, hGuard]
              rfl
            refine ⟨?_, trivial, trivial, ?_, ?_, ?_⟩
            · intro a
              rw [firstHolding,
                Condition.holds_of_onlyGuarded hGuarded, hGuard]
              rfl
            · intro P Q hCodes _ _
              exact (hCodes (c, code) List.mem_cons_self).1
            · rw [hEntered]
              rfl
            · rw [hEntered]
              exact Array.append_empty.symm
        | some guard =>
            apply built_close hSound
            intro t' _ _
            apply (@ih .nothing trivial t').test
            · intro a
              rw [Condition.holds_of_onlyGuarded hGuarded,
                hGuard]
              rfl
            · rw [hGuard]
              rfl
            · rw [hGuard, hGuarded]
              rfl
            · rw [hEntry]
              rfl
            · rw [hEntry]
              exact Array.append_empty.symm
      · have hEntry : c.scans g s = false := by
          unfold Condition.scans
          rw [hToken]
          exact Bool.and_false _
        have hEntered : entered g s ((c, code) :: rest) =
            entered g s rest := by
          rw [entered, hOther, hEntry]
          rfl
        rw [hStrategy]
        have hKinds : (firstOf g s c.target).kinds.kinds.Nodup :=
          (KindSet.pairwise_kinds _).imp Nat.ne_of_lt
        have hRest := ih (hSound.add hKinds code) t
        refine ⟨?_, hRest.apart, hRest.formed, ?_, ?_, ?_⟩
        · intro a
          refine (hRest.eval a).trans ?_
          rw [code?_add hSound, firstHolding, hEntry,
            Condition.holds_of_byToken hOther hToken]
          rfl
        · intro P Q hCodes hLast hAll
          have hHead := hCodes (c, code) List.mem_cons_self
          apply hRest.made P Q _ hLast (hAll.add _ hHead.1)
          intro alternative hMem
          exact hCodes alternative
            (List.mem_cons_of_mem _ hMem)
        · rw [hEntered]
          exact hRest.entryCount
        · rw [hEntered]
          exact hRest.entries
      · rw [hStrategy]
        apply built_close hSound
        intro t' _ _
        apply (@ih .nothing trivial _).test
        · intro a
          rw [Condition.holds_of_scans hScans]
          rfl
        · rfl
        · rw [hOther]
          rfl
        · rw [hScans]
          rfl
        · rw [hScans]
          exact Array.push_eq_append

/-
  The decision between some alternatives and a last resort
  comes to the first alternative that holds, whatever the
  answers are; every condition that is looked for ahead has
  its entry point; all blocks of the code are closed; and the
  code is read back as the decision, which comes to the same
  with its amounts as they are written.
-/
theorem build_takes_first_match
    (g : Grammar)
    (s : Session)
    (alternatives : List (Condition × Fragment))
    (lastResort : Fragment)
    (t : ParserTables)
    (a : Answers)
    {d : Decision}
    {t' : ParserTables}
    (hBuild : (build g s alternatives lastResort).run t =
      (d, t')) :
    (∀ i c code, alternatives[i]? = some (c, code) →
      Holds g s alternatives t.entryCount a i →
      (∀ j < i, ¬ Holds g s alternatives t.entryCount a j) →
      d.eval a = code) ∧
    ((∀ i, ¬ Holds g s alternatives t.entryCount a i) →
      d.eval a = lastResort) ∧
    d.LabelsApart ∧
    (∀ i c code, alternatives[i]? = some (c, code) →
      c.scans g s = true →
      (∀ before ∈ alternatives.take i,
        (before.1.onlyGuarded g s && before.1.guard.isNone) =
          false) →
      t'.entries[t.entries.size +
          scansBefore g s alternatives i]? =
        some ⟨c.target, c.amount⟩) ∧
    (KeepsNames s →
      (∀ alternative ∈ alternatives,
        Fragment.Closed alternative.2 ∧
          ∀ guard ∈ alternative.1.guard, Block.Keeps guard) →
      Fragment.Closed lastResort →
      Fragment.Closed (d.render s)) ∧
    (Labelled s →
      (∀ alternative ∈ alternatives,
        Fragment.Level alternative.2 ∧
          ∀ guard ∈ alternative.1.guard, PlainGuard guard) →
      Fragment.Level lastResort →
      readTo s d.depth (d.render s) = some d.asWritten) ∧
    ((∀ entry,
        a.call entry 2147483647 = a.call entry unbounded) →
      d.asWritten.eval a = d.eval a) := by
  have hBuilt := @built_buildFrom g s lastResort .nothing
    trivial alternatives t
  rw [show (buildFrom g s lastResort .nothing
    alternatives).run t = (d, t') from hBuild] at hBuilt
  refine ⟨?_, ?_, hBuilt.apart, ?_, ?_, ?_,
    fun hAmount => eval_asWritten hAmount d⟩
  · intro i c code hAt hHolds hFirst
    exact (hBuilt.eval a).trans
      (firstHolding_of_holds hAt hHolds hFirst)
  · intro hNone
    exact (hBuilt.eval a).trans (firstHolding_of_none hNone)
  · intro i c code hAt hScans hFails
    have hEntered := entered_getElem? hAt hScans hFails
    rw [show t'.entries = _ from hBuilt.entries,
      Array.getElem?_append_right (Nat.le_add_right _ _),
      Nat.add_sub_cancel_left, List.getElem?_toArray,
      List.getElem?_map, hEntered]
    rfl
  · intro hNames hCodes hLast
    apply closed_render hNames
    exact hBuilt.made Fragment.Closed Block.Keeps hCodes hLast
      trivial
  · intro hLabelled hCodes hLast
    apply readTo_render hLabelled hBuilt.formed
    exact hBuilt.made Fragment.Level PlainGuard hCodes hLast
      trivial

end Building

end Decision

------------------------------------------------------------
-- The code of methods
------------------------------------------------------------

/- Whatever the tables are, a computation gives such a result. -/
def Yields
    {α : Type}
    (P : α → Prop)
    (m : StateM ParserTables α) : Prop :=
  ∀ t, P (m.run t).1

section Yields

variable {α β : Type} {P : α → Prop} {Q : β → Prop}

theorem yields_pure
    {a : α}
    (hResult : P a) :
    Yields P (pure a) :=
  fun _ => hResult

theorem Yields.bind
    {m : StateM ParserTables α}
    {f : α → StateM ParserTables β}
    (hFirst : Yields P m)
    (hSecond : ∀ a, P a → Yields Q (f a)) :
    Yields Q (m >>= f) :=
  fun t => hSecond _ (hFirst t) _

theorem yields_mapM
    {f : α → StateM ParserTables β}
    (hEach : ∀ a, Yields Q (f a))
    (items : List α) :
    Yields (fun bs => ∀ b ∈ bs, Q b) (items.mapM f) := by
  induction items with
  | nil =>
      rw [List.mapM_nil]
      exact yields_pure fun b hMem => by cases hMem
  | cons item items ih =>
      rw [List.mapM_cons]
      refine (hEach item).bind fun b hb => ih.bind ?_
      intro bs hbs
      apply yields_pure
      intro b' hMem
      rcases List.mem_cons.mp hMem with rfl | hMem
      · exact hb
      · exact hbs b' hMem

end Yields

namespace Method

open Fragment (ofText indent dedent raw Level level_ofText)

theorem level_errorCheck
    (o : Options) :
    Level (errorCheck o) := by
  unfold errorCheck
  split
  · exact level_ofText _
  · exact Fragment.level_nil

theorem level_resultText
    (result : Option String) :
    Level (resultText result) := by
  cases result with
  | none => exact Fragment.level_nil
  | some result => exact level_ofText _

theorem level_tokenStatement
    (o : Options)
    (label : String)
    (result member : Option String) :
    Level (tokenStatement o label result member) :=
  (((level_ofText _).append (level_resultText result)).append
    (level_ofText _)).append (level_errorCheck o)

theorem level_callStatement
    (o : Options)
    (name : String)
    (result : Option String)
    (args : String) :
    Level (callStatement o name result args) :=
  (((level_ofText _).append (level_resultText result)).append
    (level_ofText _)).append (level_errorCheck o)

theorem level_noAlternative
    (o : Options) :
    Level (noAlternative o) := by
  unfold noAlternative
  refine (level_ofText _).append ?_
  split
  · refine (level_ofText _).append ?_
    split
    · exact level_ofText _
    · exact Fragment.level_nil
  · exact level_ofText _

theorem level_unitCode
    (g : Grammar)
    (o : Options)
    (seq unit : ExpId)
    (isLast : Bool)
    {code : Fragment}
    (hCode : Level code) :
    Level (unitCode g o seq unit isLast code) := by
  unfold unitCode
  split
  · exact ((level_ofText _).append hCode).append
      (level_ofText _)
  · exact hCode

theorem level_tryCode
    {body : Fragment}
    (hBody : Level body)
    (catches : List CatchClause)
    (cleanup : Option String) :
    Level (tryCode body catches cleanup) := by
  have hCatches : Level (catches.flatMap catchCode) := by
    apply Fragment.level_flatMap
    intro c _
    exact ((level_ofText _).append
      (Fragment.level_raw c.code)).append (level_ofText _)
  have hBlock := (level_ofText "\ntry \x7b").append
    (hBody.block.append (level_ofText "\n\x7d"))
  have hTried := hBlock.append hCatches
  cases cleanup with
  | none =>
      have hAll := hTried.append Fragment.level_nil
      simpa only [tryCode, List.append_assoc] using hAll
  | some code =>
      have hAll := hTried.append
        (((level_ofText " finally \x7b").append
          (Fragment.level_raw code)).append
            (level_ofText "\n\x7d"))
      simpa only [tryCode, List.append_assoc] using hAll

theorem level_loopCode
    (o : Options)
    (label : Nat)
    {before decision after : Fragment}
    (hBefore : Level before)
    (hDecision : Level decision)
    (hAfter : Level after) :
    Level (loopCode o label before decision after) := by
  have hStart : Level
      (if o.isCpp then [] else ofText s!"label_{label}:\n") := by
    split
    · exact Fragment.level_nil
    · exact level_ofText _
  have hEnd : Level
      (if o.isCpp then ofText s!"\nend_label_{label}: ;"
        else []) := by
    split
    · exact level_ofText _
    · exact Fragment.level_nil
  have hInside := ((hBefore.append hDecision).append hAfter).block
  have hAll := ((((level_ofText "\n").append hStart).append
    (level_ofText (if o.isCpp then "while (!hasError) \x7b"
      else "while (true) \x7b"))).append
    (hInside.append (level_ofText "\n\x7d"))).append hEnd
  simpa only [loopCode, List.append_assoc] using hAll

theorem yields_build
    {g : Grammar}
    {s : Session}
    {alternatives : List (Condition × Fragment)}
    {lastResort : Fragment}
    (hCodes : ∀ alternative ∈ alternatives, Level alternative.2)
    (hLast : Level lastResort) :
    Yields (fun d => Level (d.render s))
      (Decision.build g s alternatives lastResort) := by
  intro t
  have hBuilt := @Decision.built_buildFrom g s lastResort
    .nothing trivial alternatives t
  apply Decision.level_render (Q := fun _ => True)
  exact hBuilt.made Level (fun _ => True)
    (fun alternative hMem => ⟨hCodes alternative hMem,
      fun _ _ => trivial⟩) hLast trivial

/-
  The code of an expansion comes back to the indentation it
  starts with.
-/
theorem level_bodyTo
    (g : Grammar)
    (s : Session)
    (depth : Nat)
    (id : ExpId) :
    Yields Level (bodyTo g s depth id) := by
  induction depth generalizing id with
  | zero => exact yields_pure Fragment.level_nil
  | succ depth ih =>
      have hLeave : ∀ label,
          Level (leaveLoop s.options label) :=
        fun label => level_ofText _
      have hLabel : Yields (fun _ => True) takeLabel :=
        fun _ => trivial
      -- A repetition decides whether to go on.
      have hGoOn : ∀ body label, Yields
          (fun d => Level (d.render s))
          (Decision.build g s
            [(conditionOfSequence g s body, ofText "\n;")]
            (leaveLoop s.options label)) := by
        intro body label
        apply yields_build _ (hLeave label)
        intro alternative hMem
        rw [List.mem_singleton.mp hMem]
        exact level_ofText _
      unfold bodyTo
      cases g.form id with
      | terminal regex result member =>
          exact yields_pure (level_tokenStatement _ _ _ _)
      | nonterminal name result args =>
          exact yields_pure (level_callStatement _ _ _ _)
      | action code => exact yields_pure (Fragment.level_raw code)
      | choice alternatives =>
          refine (yields_mapM ih alternatives).bind ?_
          intro codes hCodes
          refine Yields.bind (yields_build ?_
            (level_noAlternative s.options)) fun d hLevel =>
              yields_pure hLevel
          intro alternative hMem
          exact hCodes _ (List.of_mem_zip hMem).2
      | sequence units =>
          refine (yields_mapM ih (units.drop 1)).bind ?_
          intro codes hCodes
          apply yields_pure
          apply Fragment.level_flatMap
          rintro ⟨⟨unit, code⟩, i⟩ hMem
          have hPair := List.fst_mem_of_mem_zipIdx hMem
          exact level_unitCode _ _ _ _ _
            (hCodes _ (List.of_mem_zip hPair).2)
      | oneOrMore body =>
          exact hLabel.bind fun label _ =>
            (ih body).bind fun code hCode =>
              (hGoOn body label).bind fun d hLevel =>
                yields_pure (level_loopCode _ _ hCode hLevel
                  Fragment.level_nil)
      | zeroOrMore body =>
          exact hLabel.bind fun label _ =>
            (hGoOn body label).bind fun d hLevel =>
              (ih body).bind fun code hCode =>
                yields_pure (level_loopCode _ _
                  Fragment.level_nil hLevel hCode)
      | zeroOrOne body =>
          refine (ih body).bind fun code hCode => ?_
          refine Yields.bind (yields_build ?_
            (level_ofText "\n;")) fun d hLevel =>
              yields_pure hLevel
          intro alternative hMem
          rw [List.mem_singleton.mp hMem]
          exact hCode
      | tryBlock body catches cleanup =>
          exact (ih body).bind fun code hCode =>
            yields_pure (level_tryCode hCode catches cleanup)
      | lookahead la => exact yields_pure Fragment.level_nil

/- What the decisions of a method run. -/
inductive Runs
    (g : Grammar)
    (s : Session) : Fragment → Prop where
  | body (depth : Nat) (id : ExpId) (t : ParserTables) :
      Runs g s ((bodyTo g s depth id).run t).1
  | text (code : String) : Runs g s (ofText code)
  | failure : Runs g s (noAlternative s.options)

theorem Runs.level
    {g : Grammar}
    {s : Session}
    {code : Fragment}
    (hRuns : Runs g s code) :
    Level code := by
  cases hRuns with
  | body depth id t => exact level_bodyTo g s depth id t
  | text code => exact level_ofText code
  | failure => exact level_noAlternative s.options

/-
  In a grammar that passes analysis, the decisions of methods
  are read back from their code, if no name of a token is a
  number and guards do not look like calls of entry points.
-/
theorem readTo_decision
    {g₀ g : Grammar}
    (hListed : (TokenTable.listed g₀).Nodup)
    {o : Options}
    {s : Session}
    (hPasses : analyze g₀ (.new o) = (g, s, .ok ()))
    (hNames : ∀ k name, (k, name) ∈ s.namesOfTokens →
      Text.OneLineEnd name ∧ Text.number? name.toList = none)
    {alternatives : List (Condition × Fragment)}
    {lastResort : Fragment}
    (hCodes : ∀ alternative ∈ alternatives,
      Runs g s alternative.2 ∧
        ∀ guard ∈ alternative.1.guard, Decision.PlainGuard guard)
    (hLast : Runs g s lastResort) :
    Yields
      (fun d => Decision.readTo s d.depth (d.render s) =
        some d.asWritten)
      (Decision.build g s alternatives lastResort) := by
  intro t
  have hBuilt := @Decision.built_buildFrom g s lastResort
    .nothing trivial alternatives t
  apply Decision.readTo_render
    (labelled_analyze hListed hPasses hNames) hBuilt.formed
  apply hBuilt.made Level Decision.PlainGuard _ hLast.level
    trivial
  intro alternative hMem
  rcases hCodes alternative hMem with ⟨hRuns, hGuards⟩
  exact ⟨hRuns.level, hGuards⟩

end Method

namespace Decision

------------------------------------------------------------
-- An example
------------------------------------------------------------

/- A choice whose alternatives are decided in three ways. -/
def assorted : Grammar :=
  let steps : Build Unit := do
    let first ← Build.sequence [← Build.literal "a"]
    let second ← Build.lookaheadSequence (some 2) none none
      [← Build.literal "b", ← Build.literal "a"]
    let third ← Build.lookaheadSequence none none
      (some "ready") [← Build.literal "b"]
    let choice ← Build.choice [first, second, third]
    let _ ← Build.production "Start" "void" "" choice
  (steps.run {}).2.grammar

/- The grammar and the session after the analysis. -/
def analyzedAssorted : Grammar × Session × Except Failure Unit :=
  analyze assorted { options := { sanityCheck := false } }

/- The alternatives of the choice, each with a statement. -/
def assortedAlternatives
    (g : Grammar)
    (s : Session) : List (Condition × Fragment) :=
  [(conditionOfSequence g s 2, Fragment.ofText "\nfirst();"),
    (conditionOfSequence g s 6, Fragment.ofText "\nsecond();"),
    (conditionOfSequence g s 9, Fragment.ofText "\nthird();")]

/-
  The second kind is next, nothing is found ahead, and the
  guard is true: the third alternative is taken.
-/
theorem build_takes_first_match_assorted :
    ∃ g s d t', analyzedAssorted = (g, s, .ok ()) ∧
      (build g s (assortedAlternatives g s)
        (Fragment.ofText "\nfail();")).run {} = (d, t') ∧
      d.eval ⟨2, fun _ => true, fun _ _ => false⟩ =
        Fragment.ofText "\nthird();" ∧
      Fragment.Closed (d.render s) ∧
      readTo s d.depth (d.render s) = some d.asWritten := by
  have hPasses : analyzedAssorted.2.2 = .ok () := by
    cbv
  have hChecks : (fun r : Grammar × Session ×
      Except Failure Unit =>
        (r.2.1.namesOfTokens,
          (assortedAlternatives r.1 r.2.1).map (·.1),
          (List.range 3).map fun i =>
            (assortedAlternatives r.1 r.2.1)[i]?.any
              fun alternative => alternative.1.holds r.1 r.2.1
                ⟨2, fun _ => true, fun _ _ => false⟩
                (0 + scansBefore r.1 r.2.1
                  (assortedAlternatives r.1 r.2.1) i + 1)))
        analyzedAssorted =
      ([], [⟨1, none, 2⟩, ⟨2, none, 6⟩, ⟨0, some "ready", 9⟩],
        [false, false, true]) := by
    cbv
  generalize analyzedAssorted = r at hPasses hChecks
  rcases r with ⟨g, s, passed⟩
  dsimp only at hPasses hChecks
  rw [hPasses]
  simp only [Prod.mk.injEq] at hChecks
  rcases hChecks with ⟨hNames, hConditions, hHolds⟩
  rcases hRun : (build g s (assortedAlternatives g s)
    (Fragment.ofText "\nfail();")).run {} with ⟨d, t'⟩
  have hFirst := build_takes_first_match g s
    (assortedAlternatives g s) (Fragment.ofText "\nfail();") {}
    ⟨2, fun _ => true, fun _ _ => false⟩ hRun
  have hIff : ∀ i, Holds g s (assortedAlternatives g s) 0
      ⟨2, fun _ => true, fun _ _ => false⟩ i ↔
        ((assortedAlternatives g s)[i]?.any fun alternative =>
          alternative.1.holds g s
            ⟨2, fun _ => true, fun _ _ => false⟩
            (0 + scansBefore g s
              (assortedAlternatives g s) i + 1)) = true := by
    intro i
    unfold Holds
    rw [Option.any_eq_true]
    constructor
    · rintro ⟨c, code, hAt, hHolds⟩
      exact ⟨(c, code), hAt, hHolds⟩
    · rintro ⟨⟨c, code⟩, hAt, hHolds⟩
      exact ⟨c, code, hAt, hHolds⟩
  rw [show List.range 3 = [0, 1, 2] from rfl] at hHolds
  simp only [List.map_cons, List.map_nil, List.cons.injEq,
    and_true] at hHolds
  have hCodes : ∀ alternative ∈ assortedAlternatives g s,
      (∃ text, alternative.2 = Fragment.ofText text ∧
        Block.Keeps text) ∧
      ∀ guard ∈ alternative.1.guard, guard = "ready" := by
    intro alternative hMem
    simp only [assortedAlternatives, List.map_cons,
      List.map_nil, List.cons.injEq, and_true] at hConditions
    simp only [assortedAlternatives, hConditions.1,
      hConditions.2.1, hConditions.2.2, List.mem_cons,
      List.not_mem_nil, or_false] at hMem
    rcases hMem with rfl | rfl | rfl
    · exact ⟨⟨_, rfl, fun _ => rfl⟩,
        fun guard hGuard => by cases hGuard⟩
    · exact ⟨⟨_, rfl, fun _ => rfl⟩,
        fun guard hGuard => by cases hGuard⟩
    · exact ⟨⟨_, rfl, fun _ => rfl⟩,
        fun guard hGuard => by cases hGuard; rfl⟩
  refine ⟨g, s, d, t', rfl, hRun, ?_, ?_, ?_⟩
  · apply hFirst.1 2 (conditionOfSequence g s 9) _ rfl
      ((hIff 2).mpr hHolds.2.2)
    intro j hBefore
    rw [hIff]
    interval_cases j
    · rw [hHolds.1]
      decide
    · rw [hHolds.2.1]
      decide
  · apply hFirst.2.2.2.2.1
    · intro k name hName
      rw [hNames] at hName
      cases hName
    · intro alternative hMem
      rcases hCodes alternative hMem with
        ⟨⟨text, hCode, hKeeps⟩, hGuards⟩
      refine ⟨hCode ▸ Fragment.closed_ofText hKeeps, ?_⟩
      intro guard hGuard
      rw [hGuards guard hGuard]
      exact fun _ => rfl
    · exact Fragment.closed_ofText fun _ => rfl
  · have hLabelled : Labelled s := by
      apply labelled_of_names
      · intro name k k' hName
        rw [hNames] at hName
        cases hName
      · intro k name hName
        rw [hNames] at hName
        cases hName
    apply hFirst.2.2.2.2.2.1 hLabelled
    · intro alternative hMem
      rcases hCodes alternative hMem with
        ⟨⟨text, hCode, -⟩, hGuards⟩
      refine ⟨hCode ▸ Fragment.level_ofText text, ?_⟩
      intro guard hGuard
      rw [hGuards guard hGuard]
      exact ⟨by decide, by decide⟩
    · exact Fragment.level_ofText _

end Decision

end Descent
