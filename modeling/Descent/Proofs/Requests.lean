import Descent.Proofs.Calls
import Mathlib.Algebra.Order.BigOperators.Group.Finset

/-
  Requests for speculative routines.

  Requests are worked off one by one, and working one off may
  make further ones.  An expansion is requested again only
  with a larger budget than before, and no budget is larger
  than the largest one at the start, so the list of requests
  comes to an end.  Then every call of every requested routine
  has been requested itself, with a budget that is large
  enough.

  Main declarations:
    * `RoutineName.serial?`
    * `Speculation.Named` and `Speculation.Queued`
    * `Speculation.Requested`
    * `Speculation.potential`
    * `Speculation.advances_request`
    * `Speculation.completes_requestFrom`
    * `Speculation.completes_requestAll`
-/

------------------------------------------------------------
-- Tables of requests
------------------------------------------------------------

namespace Descent

/- What tells apart the names of routines that are written. -/
def RoutineName.serial? : RoutineName → Option (Bool × Nat)
  | .entry n => some (true, n)
  | .routine _ _ n => some (false, n)
  | .token _ => none

namespace Speculation

/- Names that tell expansions apart, up to a label. -/
structure Named
    (names : Assoc ExpId RoutineName)
    (labels : Nat) : Prop where
  ascending : Assoc.Ascending names
  apart : ∀ {e e' name name' n},
    Assoc.get? e names = some name →
    Assoc.get? e' names = some name' →
    name.serial? = some n → name'.serial? = some n → e = e'
  below : ∀ {e name n}, Assoc.get? e names = some name →
    name.serial? = some (false, n) → n ≤ labels

/- One more than the budget with which a routine is known. -/
def level
    (t : ParserTables)
    (e : ExpId) : Nat :=
  ((Assoc.get? e t.routines).map (·.count + 1)).getD 0

/-
  Every request is known, is named, and stays within a budget;
  every known routine has been requested just as it is known.
-/
structure Queued
    (g : Grammar)
    (most : Nat)
    (t : ParserTables) : Prop where
  keys : (t.routines.map (·.1)).Nodup
  listed : ∀ {e r}, (e, r) ∈ t.routines →
    r.exp = e ∧ r ∈ t.requests
  known : ∀ r ∈ t.requests, r.count < level t r.exp
  named : ∀ r ∈ t.requests, ∃ name, nameOf? t r.exp = some name
  bounded : ∀ r ∈ t.requests,
    r.exp < g.expansions.size ∧ r.count ≤ most

/-
  The call is that of a token in place, or of a routine with
  as large a budget.
-/
def Requested
    (t : ParserTables)
    (call : ScanRequest) : Prop :=
  isInline t call.exp = true ∨ call.count < level t call.exp

/-
  The requests that have been made and those that still could
  be made.
-/
def potential
    (g : Grammar)
    (most : Nat)
    (t : ParserTables) : Nat :=
  t.requests.size +
    ∑ e ∈ Finset.range g.expansions.size,
      (most + 1 - level t e)

/- What requests add to tables that are in order. -/
structure Advances
    (g : Grammar)
    (most : Nat)
    (t t' : ParserTables) : Prop where
  named : Named t'.routineNames t'.labelCount
  queued : Queued g most t'
  names : ∀ e name, nameOf? t e = some name →
    nameOf? t' e = some name
  levels : ∀ e, level t e ≤ level t' e
  requests : ∀ (i : Nat) r, t.requests[i]? = some r →
    t'.requests[i]? = some r
  potential : potential g most t' ≤ potential g most t

section Advances

variable {g : Grammar} {most : Nat}

theorem Advances.refl
    {t : ParserTables}
    (hNamed : Named t.routineNames t.labelCount)
    (hQueued : Queued g most t) :
    Advances g most t t :=
  ⟨hNamed, hQueued, fun _ _ h => h, fun _ => le_rfl,
    fun _ _ h => h, le_rfl⟩

theorem Advances.trans
    {t t' t'' : ParserTables}
    (hFirst : Advances g most t t')
    (hSecond : Advances g most t' t'') :
    Advances g most t t'' where
  named := hSecond.named
  queued := hSecond.queued
  names e name h := hSecond.names e name (hFirst.names e name h)
  levels e := (hFirst.levels e).trans (hSecond.levels e)
  requests i r h := hSecond.requests i r (hFirst.requests i r h)
  potential := hSecond.potential.trans hFirst.potential

theorem isInline_iff
    {t : ParserTables}
    {e : ExpId} :
    isInline t e = true ↔ ∃ kind, nameOf? t e =
      some (.token kind) := by
  unfold isInline
  cases nameOf? t e with
  | none => simp
  | some name =>
      cases name with
      | token kind => simp [RoutineName.isToken]
      | entry n => simp [RoutineName.isToken]
      | routine production place n => simp [RoutineName.isToken]

theorem Requested.advances
    {t t' : ParserTables}
    {call : ScanRequest}
    (hRequested : Requested t call)
    (hAdvances : Advances g most t t') :
    Requested t' call := by
  rcases hRequested with hInline | hKnown
  · rcases isInline_iff.mp hInline with ⟨kind, hName⟩
    exact .inl (isInline_iff.mpr
      ⟨kind, hAdvances.names _ _ hName⟩)
  · exact .inr (hKnown.trans_le (hAdvances.levels call.exp))

/- Only the essential tables matter. -/
theorem Advances.congr
    {t t₁ t' : ParserTables}
    (hAdvances : Advances g most t t₁)
    (hSame : t'.essential = t₁.essential) :
    Advances g most t t' := by
  have hNames : t'.routineNames = t₁.routineNames :=
    (congrArg ParserTables.routineNames hSame :)
  have hLabels : t'.labelCount = t₁.labelCount :=
    (congrArg ParserTables.labelCount hSame :)
  have hRequests : t'.requests = t₁.requests :=
    (congrArg ParserTables.requests hSame :)
  have hRoutines : t'.routines = t₁.routines :=
    (congrArg ParserTables.routines hSame :)
  have hLevels : level t' = level t₁ := by
    funext e
    unfold level
    rw [hRoutines]
  have hNameOf : nameOf? t' = nameOf? t₁ := by
    funext e
    unfold nameOf?
    rw [hNames]
  have hQueued := hAdvances.queued
  constructor
  · rw [hNames, hLabels]
    exact hAdvances.named
  · constructor
    · rw [hRoutines]
      exact hQueued.keys
    · intro e r hMem
      rw [hRoutines] at hMem
      rw [hRequests]
      exact hQueued.listed hMem
    · rw [hRequests, hLevels]
      exact hQueued.known
    · rw [hRequests, hNameOf]
      exact hQueued.named
    · rw [hRequests]
      exact hQueued.bounded
  · rw [hNameOf]
    exact hAdvances.names
  · rw [hLevels]
    exact hAdvances.levels
  · rw [hRequests]
    exact hAdvances.requests
  · have hPotential := hAdvances.potential
    unfold Speculation.potential at hPotential ⊢
    rw [hRequests, hLevels]
    exact hPotential

theorem Requested.congr
    {t t' : ParserTables}
    {call : ScanRequest}
    (hRequested : Requested t call)
    (hSame : t'.essential = t.essential) :
    Requested t' call := by
  have hNames : t'.routineNames = t.routineNames :=
    (congrArg ParserTables.routineNames hSame :)
  have hRoutines : t'.routines = t.routines :=
    (congrArg ParserTables.routines hSame :)
  unfold Requested isInline nameOf? level at *
  rw [hNames, hRoutines]
  exact hRequested

end Advances

------------------------------------------------------------
-- Names
------------------------------------------------------------

section Names

variable {g : Grammar} {most : Nat}

/- A new name is given to an expansion without one. -/
theorem Named.insert
    {names : Assoc ExpId RoutineName}
    {labels labels' : Nat}
    (hNamed : Named names labels)
    (hLabels : labels ≤ labels')
    {id : ExpId}
    {name : RoutineName}
    (hFresh : ∀ n, name.serial? = some n →
      ∀ e name', Assoc.get? e names = some name' →
        name'.serial? ≠ some n)
    (hBelow : ∀ n, name.serial? = some (false, n) →
      n ≤ labels') :
    Named (Assoc.insertSorted id name names) labels' := by
  have hGet := Assoc.get?_insertSorted hNamed.ascending id
  refine ⟨hNamed.ascending.alterSorted id _, ?_, ?_⟩
  · intro e e' first second n hLeft hRight hFirst hSecond
    rw [hGet] at hLeft hRight
    split_ifs at hLeft hRight with h₁ h₂ h₂
    · exact h₁.trans h₂.symm
    · cases hLeft
      exact absurd hSecond (hFresh n hFirst e' second hRight)
    · cases hRight
      exact absurd hFirst (hFresh n hSecond e first hLeft)
    · exact hNamed.apart hLeft hRight hFirst hSecond
  · intro e name' n hName hSerial
    rw [hGet] at hName
    split_ifs at hName with h₁
    · cases hName
      exact hBelow n hSerial
    · exact (hNamed.below hName hSerial).trans hLabels

/- A name is given, and labels are used up. -/
theorem advances_insert
    {t : ParserTables}
    (hNamed : Named t.routineNames t.labelCount)
    (hQueued : Queued g most t)
    {id : ExpId}
    (hFree : nameOf? t id = none)
    {name : RoutineName}
    {labels : Nat}
    (hLabels : t.labelCount ≤ labels)
    (hFresh : ∀ n, name.serial? = some n →
      ∀ e name', Assoc.get? e t.routineNames = some name' →
        name'.serial? ≠ some n)
    (hBelow : ∀ n, name.serial? = some (false, n) →
      n ≤ labels)
    (index : Assoc ExpId Nat) :
    Advances g most t
      { t with
        labelCount := labels,
        routineNames :=
          Assoc.insertSorted id name t.routineNames,
        routineIndex := index } := by
  have hKept : ∀ e name', nameOf? t e = some name' →
      Assoc.get? e (Assoc.insertSorted id name
        t.routineNames) = some name' := by
    intro e name' hName
    rw [Assoc.get?_insertSorted hNamed.ascending, if_neg]
    · exact hName
    · rintro rfl
      rw [hFree] at hName
      cases hName
  refine ⟨hNamed.insert hLabels hFresh hBelow, ?_, hKept,
    fun _ => le_rfl, fun _ _ h => h, le_rfl⟩
  refine ⟨hQueued.keys, hQueued.listed, hQueued.known, ?_,
    hQueued.bounded⟩
  intro r hMem
  rcases hQueued.named r hMem with ⟨name', hName⟩
  exact ⟨name', hKept r.exp name' hName⟩

end Names

------------------------------------------------------------
-- Single requests
------------------------------------------------------------

section Single

variable {g : Grammar} {s : Session} {most : Nat}

/- The tables with a request that has been made. -/
def push
    (r : ScanRequest)
    (t : ParserTables) : ParserTables :=
  { t with
    requests := t.requests.push r,
    routines := Assoc.insert r.exp r t.routines }

theorem enter_eq
    (r : ScanRequest)
    (t : ParserTables) :
    enter r t =
      if r.count < level t r.exp then t else push r t := by
  unfold enter level
  cases Assoc.get? r.exp t.routines with
  | none => rfl
  | some known =>
      exact if_congr Nat.lt_succ_iff.symm rfl rfl

theorem level_push
    (r : ScanRequest)
    (t : ParserTables)
    (e : ExpId) :
    level (push r t) e =
      if e = r.exp then r.count + 1 else level t e := by
  have hGet : Assoc.get? e (push r t).routines = _ :=
    Assoc.get?_alter r.exp e _ t.routines
  unfold level
  rw [hGet]
  split
  · rfl
  · rfl

theorem potential_push
    {r : ScanRequest}
    {t : ParserTables}
    (hInside : r.exp < g.expansions.size)
    (hCount : r.count ≤ most)
    (hLarger : level t r.exp ≤ r.count) :
    potential g most (push r t) ≤ potential g most t := by
  have hLess : ∑ e ∈ Finset.range g.expansions.size,
        (most + 1 - level (push r t) e) <
      ∑ e ∈ Finset.range g.expansions.size,
        (most + 1 - level t e) := by
    apply Finset.sum_lt_sum
    · intro e _
      rw [level_push]
      split
      · next hSame =>
          rw [hSame]
          omega
      · exact le_rfl
    · refine ⟨r.exp, Finset.mem_range.mpr hInside, ?_⟩
      rw [level_push, if_pos rfl]
      omega
  have hSize : (push r t).requests.size = t.requests.size + 1 :=
    Array.size_push r
  unfold potential
  omega

/- A larger request is made for a named expansion. -/
theorem advances_push
    {r : ScanRequest}
    {t : ParserTables}
    (hNamed : Named t.routineNames t.labelCount)
    (hQueued : Queued g most t)
    (hName : ∃ name, nameOf? t r.exp = some name)
    (hInside : r.exp < g.expansions.size)
    (hCount : r.count ≤ most)
    (hLarger : level t r.exp ≤ r.count) :
    Advances g most t (push r t) := by
  have hLevels : ∀ e, level t e ≤ level (push r t) e := by
    intro e
    rw [level_push]
    split
    · next hSame =>
        rw [hSame]
        exact hLarger.trans (Nat.le_succ _)
    · exact le_rfl
  have hRequests : ∀ r', r' ∈ (push r t).requests ↔
      r' ∈ t.requests ∨ r' = r :=
    fun r' => Array.mem_push
  refine ⟨hNamed, ?_, fun _ _ h => h, hLevels, ?_,
    potential_push hInside hCount hLarger⟩
  · constructor
    · exact Assoc.nodup_keys_alter r.exp _ hQueued.keys
    · intro e r' hMem
      rcases Assoc.mem_insert hMem with hNew | hBefore
      · rcases Prod.mk.inj hNew with ⟨rfl, rfl⟩
        exact ⟨rfl, (hRequests r').mpr (.inr rfl)⟩
      · rcases hQueued.listed hBefore with ⟨hExp, hListed⟩
        exact ⟨hExp, (hRequests r').mpr (.inl hListed)⟩
    · intro r' hMem
      rcases (hRequests r').mp hMem with hBefore | rfl
      · exact (hQueued.known r' hBefore).trans_le
          (hLevels r'.exp)
      · rw [level_push, if_pos rfl]
        exact Nat.lt_succ_self _
    · intro r' hMem
      rcases (hRequests r').mp hMem with hBefore | rfl
      · exact hQueued.named r' hBefore
      · exact hName
    · intro r' hMem
      rcases (hRequests r').mp hMem with hBefore | rfl
      · exact hQueued.bounded r' hBefore
      · exact ⟨hInside, hCount⟩
  · intro i r' hAt
    have hLess := (Array.getElem?_eq_some_iff.mp hAt).1
    have hPush : (push r t).requests[i]? = _ :=
      Array.getElem?_push_lt hLess
    rw [hPush, ← hAt]
    exact (Array.getElem?_eq_getElem hLess).symm

theorem advances_enter
    {r : ScanRequest}
    {t : ParserTables}
    (hNamed : Named t.routineNames t.labelCount)
    (hQueued : Queued g most t)
    (hName : ∃ name, nameOf? t r.exp = some name)
    (hInside : r.exp < g.expansions.size)
    (hCount : r.count ≤ most) :
    Advances g most t (enter r t) ∧
      r.count < level (enter r t) r.exp := by
  rw [enter_eq]
  split
  · next hKnown => exact ⟨.refl hNamed hQueued, hKnown⟩
  · next hLarger =>
      refine ⟨advances_push hNamed hQueued hName hInside hCount
        (Nat.not_lt.mp hLarger), ?_⟩
      rw [level_push, if_pos rfl]
      exact Nat.lt_succ_self _

/- A request keeps the tables in order, and is known then. -/
theorem advances_request
    {t : ParserTables}
    (hNamed : Named t.routineNames t.labelCount)
    (hQueued : Queued g most t)
    {call : ScanRequest}
    (hInside : call.exp < g.expansions.size)
    (hCount : call.count ≤ most) :
    Advances g most t (requestCall g s t call) ∧
      Requested (requestCall g s t call) call := by
  unfold requestCall request
  split
  · next hContains =>
      have hName : ∃ name, nameOf? t call.exp = some name :=
        Option.isSome_iff_exists.mp hContains
      rcases advances_enter hNamed hQueued hName hInside hCount
        with ⟨hAdvances, hKnown⟩
      exact ⟨hAdvances, .inr hKnown⟩
  · next hMissing =>
      have hFree : nameOf? t call.exp = none := by
        apply Option.not_isSome_iff_eq_none.mp
        exact hMissing
      split
      · next kind hSole =>
          have hAdvances : Advances g most t
              { t with
                routineNames := Assoc.insertSorted call.exp
                  (.token kind) t.routineNames } :=
            advances_insert hNamed hQueued hFree le_rfl
              (fun n hSerial => by cases hSerial)
              (fun n hSerial => by cases hSerial)
              t.routineIndex
          refine ⟨hAdvances, .inl (isInline_iff.mpr ⟨kind, ?_⟩)⟩
          unfold nameOf?
          rw [Assoc.get?_insertSorted hNamed.ascending, if_pos rfl]
      · have hAdvances : Advances g most t
            (nameRoutine g call.exp t) := by
          apply advances_insert hNamed hQueued hFree
            (Nat.le_succ t.labelCount)
          · rintro n hSerial e name' hName hSame
            cases hSerial
            exact absurd (hNamed.below hName hSame)
              (Nat.not_succ_le_self _)
          · rintro n hSerial
            cases hSerial
            exact le_rfl
        have hName : ∃ name,
            nameOf? (nameRoutine g call.exp t) call.exp =
              some name := by
          unfold nameOf? nameRoutine
          dsimp only
          rw [Assoc.get?_insertSorted hNamed.ascending, if_pos rfl]
          exact ⟨_, rfl⟩
        rcases advances_enter (r := ⟨call.exp, call.count⟩)
          hAdvances.named hAdvances.queued hName hInside hCount
          with ⟨hEnter, hKnown⟩
        exact ⟨hAdvances.trans hEnter, .inr hKnown⟩

theorem advances_foldl_request
    {t : ParserTables}
    (hNamed : Named t.routineNames t.labelCount)
    (hQueued : Queued g most t)
    {calls : List ScanRequest}
    (hCalls : ∀ call ∈ calls,
      call.exp < g.expansions.size ∧ call.count ≤ most) :
    Advances g most t (calls.foldl (requestCall g s) t) ∧
      ∀ call ∈ calls,
        Requested (calls.foldl (requestCall g s) t) call := by
  induction calls generalizing t with
  | nil => exact ⟨.refl hNamed hQueued, List.forall_mem_nil _⟩
  | cons call calls ih =>
      rcases hCalls call List.mem_cons_self with
        ⟨hInside, hCount⟩
      rcases advances_request (s := s) hNamed hQueued hInside
        hCount with ⟨hFirst, hRequested⟩
      rcases ih hFirst.named hFirst.queued fun other hOther =>
        hCalls other (List.mem_cons_of_mem call hOther) with
        ⟨hRest, hAll⟩
      refine ⟨hFirst.trans hRest, ?_⟩
      intro other hOther
      rcases List.mem_cons.mp hOther with rfl | hOther
      · exact hRequested.advances hRest
      · exact hAll other hOther

end Single

------------------------------------------------------------
-- All requests
------------------------------------------------------------

section All

variable {g : Grammar} {s : Session} {most : Nat}

/- What a request leads to when it is worked off. -/
theorem advances_requestParts
    (hNested : g.Nested)
    (hBodies : ∀ name body, bodyOf? g s name = some body →
      body < g.expansions.size)
    {t : ParserTables}
    (hRemembers : Remembers g s t)
    (hNamed : Named t.routineNames t.labelCount)
    (hQueued : Queued g most t)
    {r : ScanRequest}
    (hCount : r.count ≤ most) :
    Remembers g s ((requestParts g s r).run t).2 ∧
      Advances g most t ((requestParts g s r).run t).2 ∧
      ∀ call ∈ callsOf g s (fun _ => false) r,
        Requested ((requestParts g s r).run t).2 call := by
  rcases run_requestPartsTo (g.expansions.size + 1) r.exp
    r.count hRemembers with ⟨t', hRun, hRemembers', hSame⟩
  have hRun' : (requestParts g s r).run t = ((), t') := hRun
  rw [hRun']
  let calls := callsOf g s (fun _ => false) r
  have hCalls : ∀ call ∈ calls,
      call.exp < g.expansions.size ∧ call.count ≤ most := by
    intro call hCall
    rcases bounds_of_mem_callsTo hNested hBodies hCall with
      ⟨hInside, hLess⟩
    exact ⟨hInside, hLess.trans hCount⟩
  rcases advances_foldl_request (s := s) hNamed hQueued hCalls
    with ⟨hAdvances, hRequested⟩
  have hSame' : t'.essential =
      (calls.foldl (requestCall g s) t).essential :=
    hSame.trans (remembers_foldl_request calls hRemembers).2.symm
  exact ⟨hRemembers', hAdvances.congr hSame',
    fun call hCall => (hRequested call hCall).congr hSame'⟩

/- The calls of some requests have been requested. -/
def Worked
    (g : Grammar)
    (s : Session)
    (index : Nat)
    (t : ParserTables) : Prop :=
  ∀ i < index, ∀ r, t.requests[i]? = some r →
    ∀ call ∈ callsOf g s (fun _ => false) r, Requested t call

/- What working off requests comes to. -/
structure Completes
    (g : Grammar)
    (s : Session)
    (most : Nat)
    (t t' : ParserTables) : Prop where
  remembers : Remembers g s t'
  advances : Advances g most t t'
  worked : Worked g s t'.requests.size t'

theorem requestFrom_of_end
    {index : Nat}
    {t : ParserTables}
    (hEnd : index = t.requests.size)
    (fuel : Nat) :
    requestFrom g s fuel index t = t := by
  cases fuel with
  | zero => rfl
  | succ fuel =>
      unfold requestFrom
      rw [hEnd, Array.getElem?_eq_none le_rfl]

/-
  The list of requests comes to an end within the potential.
  The invariant is that requests before the index have been
  worked off, and a step lowers what is left of the potential.
-/
theorem completes_requestFrom
    (hNested : g.Nested)
    (hBodies : ∀ name body, bodyOf? g s name = some body →
      body < g.expansions.size)
    {fuel index : Nat}
    {t : ParserTables}
    (hRemembers : Remembers g s t)
    (hNamed : Named t.routineNames t.labelCount)
    (hQueued : Queued g most t)
    (hIndex : index ≤ t.requests.size)
    (hWorked : Worked g s index t)
    (hFuel : potential g most t ≤ index + fuel) :
    Completes g s most t (requestFrom g s fuel index t) ∧
      ∀ more, requestFrom g s (fuel + more) index t =
        requestFrom g s fuel index t := by
  have hEnds : ∀ {fuel index : Nat} {t : ParserTables},
      Remembers g s t → Named t.routineNames t.labelCount →
      Queued g most t → Worked g s index t →
      index = t.requests.size →
      Completes g s most t (requestFrom g s fuel index t) ∧
        ∀ more, requestFrom g s (fuel + more) index t =
          requestFrom g s fuel index t := by
    intro fuel index t hRemembers hNamed hQueued hWorked hEnd
    rw [requestFrom_of_end hEnd]
    exact ⟨⟨hRemembers, .refl hNamed hQueued, hEnd ▸ hWorked⟩,
      fun more => requestFrom_of_end hEnd _⟩
  induction fuel generalizing index t with
  | zero =>
      have hSize : t.requests.size ≤ potential g most t :=
        Nat.le_add_right _ _
      exact hEnds hRemembers hNamed hQueued hWorked (by omega)
  | succ fuel ih =>
      cases hAt : t.requests[index]? with
      | none =>
          have hSize := Array.getElem?_eq_none_iff.mp hAt
          exact hEnds hRemembers hNamed hQueued hWorked (by omega)
      | some r =>
          have hMem : r ∈ t.requests := Array.mem_of_getElem? hAt
          rcases advances_requestParts hNested hBodies hRemembers
            hNamed hQueued (hQueued.bounded r hMem).2 with
            ⟨hRemembers', hAdvances, hRequested⟩
          have hStep : ∀ fuel,
              requestFrom g s (fuel + 1) index t =
                requestFrom g s fuel (index + 1)
                  ((requestParts g s r).run t).2 := by
            intro fuel
            rw [requestFrom, hAt]
          generalize ((requestParts g s r).run t).2 = t' at *
          have hWorked' : Worked g s (index + 1) t' := by
            intro i hi r' hAt' call hCall
            rcases Nat.lt_succ_iff_lt_or_eq.mp hi with hBefore | rfl
            · have hLess : i < t.requests.size := by omega
              have hOld := Array.getElem?_eq_getElem hLess
              have hKept := hAdvances.requests i _ hOld
              rw [hAt'] at hKept
              cases hKept
              exact (hWorked i hBefore _ hOld call
                hCall).advances hAdvances
            · rw [hAdvances.requests i r hAt] at hAt'
              cases hAt'
              exact hRequested call hCall
          have hIndex' : index + 1 ≤ t'.requests.size :=
            (Array.getElem?_eq_some_iff.mp
              (hAdvances.requests index r hAt)).1
          have hFuel' : potential g most t' ≤
              index + 1 + fuel := by
            have := hAdvances.potential
            omega
          rcases ih hRemembers' hAdvances.named hAdvances.queued
            hIndex' hWorked' hFuel' with ⟨hDone, hMore⟩
          rw [hStep]
          refine ⟨⟨hDone.remembers, hAdvances.trans hDone.advances,
            hDone.worked⟩, ?_⟩
          intro more
          rw [Nat.add_right_comm, hStep, hMore]

/- The largest budget of all requests. -/
def largest
    (t : ParserTables) : Nat :=
  (t.requests.toList.map (·.count)).foldl max 0

theorem count_le_largest
    {t : ParserTables}
    {r : ScanRequest}
    (hMem : r ∈ t.requests) :
    r.count ≤ largest t := by
  have hFold : ∀ (counts : List Nat) (start : Nat),
      start ≤ counts.foldl max start ∧
        ∀ c ∈ counts, c ≤ counts.foldl max start := by
    intro counts
    induction counts with
    | nil => exact fun start => ⟨le_rfl, List.forall_mem_nil _⟩
    | cons c counts ih =>
        intro start
        rcases ih (max start c) with ⟨hStart, hRest⟩
        refine ⟨(le_max_left _ _).trans hStart, ?_⟩
        intro c' hc'
        rcases List.mem_cons.mp hc' with rfl | hc'
        · exact (le_max_right _ _).trans hStart
        · exact hRest c' hc'
  exact (hFold _ 0).2 r.count
    (List.mem_map_of_mem (Array.mem_toList_iff.mpr hMem))

theorem potential_le_requestBound
    (t : ParserTables) :
    potential g (largest t) t ≤ requestBound g t := by
  have hSum : ∑ e ∈ Finset.range g.expansions.size,
        (largest t + 1 - level t e) ≤
      g.expansions.size * (largest t + 1) := by
    calc ∑ e ∈ Finset.range g.expansions.size,
          (largest t + 1 - level t e)
        ≤ ∑ _e ∈ Finset.range g.expansions.size,
            (largest t + 1) :=
          Finset.sum_le_sum fun _ _ => Nat.sub_le _ _
      _ = g.expansions.size * (largest t + 1) := by
          rw [Finset.sum_const, Finset.card_range, smul_eq_mul]
  have hBound : g.expansions.size * (largest t + 1) ≤
      (largest t + 2) * (g.expansions.size + 1) := by
    rw [Nat.mul_comm]
    exact Nat.mul_le_mul (Nat.le_succ _) (Nat.le_succ _)
  exact Nat.add_le_add_left (hSum.trans hBound) _

/- All requests are worked off within the bound. -/
theorem completes_requestAll
    (hNested : g.Nested)
    (hBodies : ∀ name body, bodyOf? g s name = some body →
      body < g.expansions.size)
    {t : ParserTables}
    (hRemembers : Remembers g s t)
    (hNamed : Named t.routineNames t.labelCount)
    (hQueued : Queued g (largest t) t) :
    Completes g s (largest t) t (requestAll g s t) ∧
      ∀ fuel, requestBound g t ≤ fuel →
        requestFrom g s fuel 0 t = requestAll g s t := by
  have hWorked : Worked g s 0 t :=
    fun i hi => absurd hi (Nat.not_lt_zero i)
  rcases completes_requestFrom hNested hBodies hRemembers hNamed
    hQueued (Nat.zero_le _) hWorked
    ((potential_le_requestBound t).trans_eq
      (Nat.zero_add _).symm) with ⟨hDone, hMore⟩
  refine ⟨hDone, ?_⟩
  intro fuel hFuel
  have hSame := hMore (fuel - requestBound g t)
  rw [Nat.add_sub_cancel' hFuel] at hSame
  exact hSame

end All

end Speculation

end Descent
