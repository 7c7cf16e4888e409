import Descent.Parser.Speculation
import Descent.Proofs.Measuring
import Descent.Proofs.Ownership

/-
  The calls of speculative routines.

  Two walks go through an expansion: one requests the routines
  that it calls, the other one writes the calls.  Both use up
  the budget in the same way, whatever sizes are remembered,
  so both come to the same calls with the same budgets left,
  except that the second one leaves out what has been named as
  a token.

  Main declarations:
    * `Speculation.callsTo`
    * `Speculation.run_requestPartsTo`
    * `Speculation.spares_stepsTo`
    * `Speculation.callees_stepsTo`
    * `Speculation.requestPartsTo_eq`, `Speculation.stepsTo_eq`
      and `Speculation.soleToken?_eq`
-/

------------------------------------------------------------
-- Calls
------------------------------------------------------------

namespace Descent

/- The expansions whose routines a step calls. -/
def ScanStep.callees : ScanStep → List ExpId
  | .token _ => []
  | .call callee => [callee]
  | .code => []
  | .choice alternatives => alternatives.map (·.2)
  | .oneOrMore callee => [callee]
  | .zeroOrMore callee => [callee]
  | .zeroOrOne callee => [callee]

namespace Speculation

section Calls

variable (g : Grammar) (s : Session)

/- The units that a budget lasts for, with what is left at each. -/
def budgets : Nat → List ExpId → List ScanRequest
  | _, [] => []
  | count, u :: us =>
      ⟨u, count⟩ ::
        if count - MinSize.of g s u == 0 then
          []
        else
          budgets (count - MinSize.of g s u) us

/-
  The calls for an expansion within a budget, each with what
  is left of it, to a given depth.  Some expansions are left
  out.
-/
def callsTo
    (skip : ExpId → Bool) : Nat → ExpId → Nat → List ScanRequest
  | 0, _, _ => []
  | depth + 1, id, count =>
      if skip id then
        []
      else
        match g.form id with
        | .nonterminal name _ _ =>
            match bodyOf? g s name with
            | some body => [⟨body, count⟩]
            | none => []
        | .choice alternatives =>
            alternatives.map fun alt => ⟨alt, count⟩
        | .sequence units =>
            (budgets g s count (units.drop 1)).flatMap fun u =>
              callsTo skip depth u.exp u.count
        | .tryBlock body _ _ => callsTo skip depth body count
        | .oneOrMore body => [⟨body, count⟩]
        | .zeroOrMore body => [⟨body, count⟩]
        | .zeroOrOne body => [⟨body, count⟩]
        | _ => []

/- All calls that a request leads to. -/
def callsOf
    (skip : ExpId → Bool)
    (r : ScanRequest) : List ScanRequest :=
  callsTo g s skip (g.expansions.size + 1) r.exp r.count

/- Request the routine that a call needs. -/
def requestCall
    (t : ParserTables)
    (call : ScanRequest) : ParserTables :=
  request g s call.exp call.count t

end Calls

section Bounds

variable {g : Grammar} {s : Session}

theorem mem_of_mem_budgets
    {units : List ExpId}
    {count : Nat}
    {u : ScanRequest}
    (hMem : u ∈ budgets g s count units) :
    u.exp ∈ units ∧ u.count ≤ count := by
  induction units generalizing count with
  | nil => cases hMem
  | cons unit units ih =>
      unfold budgets at hMem
      rcases List.mem_cons.mp hMem with rfl | hMem
      · exact ⟨List.mem_cons_self, le_rfl⟩
      · split at hMem
        · cases hMem
        · rcases ih hMem with ⟨hUnit, hCount⟩
          exact ⟨List.mem_cons_of_mem unit hUnit,
            hCount.trans (Nat.sub_le _ _)⟩

/- Calls are of expansions that exist, within the budget. -/
theorem bounds_of_mem_callsTo
    (hNested : g.Nested)
    (hBodies : ∀ name body, bodyOf? g s name = some body →
      body < g.expansions.size)
    {skip : ExpId → Bool}
    {depth : Nat}
    {id : ExpId}
    {count : Nat}
    {call : ScanRequest}
    (hMem : call ∈ callsTo g s skip depth id count) :
    call.exp < g.expansions.size ∧ call.count ≤ count := by
  induction depth generalizing id count with
  | zero => cases hMem
  | succ depth ih =>
      have hParts := fun part => hNested.inside part id
      unfold callsTo at hMem
      unfold Grammar.ChildOf Grammar.children at hParts
      split at hMem
      · cases hMem
      cases hForm : g.form id with
      | nonterminal name result args =>
          rw [hForm] at hMem
          cases hBody : bodyOf? g s name with
          | some body =>
              simp only [hBody, List.mem_singleton] at hMem
              subst hMem
              exact ⟨hBodies name body hBody, le_rfl⟩
          | none =>
              simp only [hBody] at hMem
              cases hMem
      | choice alternatives =>
          rw [hForm] at hMem hParts
          rcases List.mem_map.mp hMem with ⟨alt, hAlt, rfl⟩
          exact ⟨hParts alt hAlt, le_rfl⟩
      | sequence units =>
          rw [hForm] at hMem
          rcases List.mem_flatMap.mp hMem with ⟨u, hu, hCall⟩
          rcases ih hCall with ⟨hInside, hCount⟩
          exact ⟨hInside,
            hCount.trans (mem_of_mem_budgets hu).2⟩
      | tryBlock body catches cleanup =>
          rw [hForm] at hMem
          exact ih hMem
      | oneOrMore body =>
          rw [hForm] at hMem hParts
          rw [List.mem_singleton.mp hMem]
          exact ⟨hParts body List.mem_cons_self, le_rfl⟩
      | zeroOrMore body =>
          rw [hForm] at hMem hParts
          rw [List.mem_singleton.mp hMem]
          exact ⟨hParts body List.mem_cons_self, le_rfl⟩
      | zeroOrOne body =>
          rw [hForm] at hMem hParts
          rw [List.mem_singleton.mp hMem]
          exact ⟨hParts body List.mem_cons_self, le_rfl⟩
      | _ =>
          rw [hForm] at hMem
          cases hMem

/- What is left out has no calls of its own. -/
theorem callsTo_subset
    (skip : ExpId → Bool)
    (depth : Nat)
    (id : ExpId)
    (count : Nat) :
    callsTo g s skip depth id count ⊆
      callsTo g s (fun _ => false) depth id count := by
  induction depth generalizing id count with
  | zero => exact List.Subset.refl _
  | succ depth ih =>
      unfold callsTo
      split
      · exact List.nil_subset _
      rw [if_neg Bool.false_ne_true]
      cases g.form id with
      | sequence units =>
          intro call hMem
          rcases List.mem_flatMap.mp hMem with ⟨u, hu, hCall⟩
          exact List.mem_flatMap.mpr
            ⟨u, hu, ih u.exp u.count hCall⟩
      | tryBlock body catches cleanup => exact ih body count
      | _ => exact List.Subset.refl _

end Bounds

end Speculation

------------------------------------------------------------
-- What is remembered
------------------------------------------------------------

/- Tables without sizes and without the note of guards. -/
def ParserTables.essential
    (t : ParserTables) : ParserTables :=
  { t with
    minSizes := [], measuring := [], lookaheadNeeded := false }

namespace Speculation

section Remembered

variable {g : Grammar} {s : Session}

/- The sizes in the tables are right, and none is being measured. -/
structure Remembers
    (g : Grammar)
    (s : Session)
    (t : ParserTables) : Prop where
  sizes : ∀ e ∈ t.minSizes, e.2 = MinSize.of g s e.1
  idle : t.measuring = []

theorem remembers_essential
    (t : ParserTables) :
    Remembers g s t.essential :=
  ⟨List.forall_mem_nil _, rfl⟩

/- A query gives the size, and changes what is remembered only. -/
theorem remembered_step
    {t : ParserTables}
    (hRemembers : Remembers g s t)
    (id : ExpId) :
    ∃ sizes, (MinSize.remembered g s id).run t =
        (MinSize.of g s id, { t with minSizes := sizes }) ∧
      Remembers g s { t with minSizes := sizes } := by
  rw [MinSize.run_remembered_idle hRemembers.idle]
  cases hGet : Assoc.get? id t.minSizes with
  | some size =>
      have hSize : size = MinSize.of g s id :=
        hRemembers.sizes (id, size) (Assoc.mem_of_get? hGet)
      rw [← hSize]
      exact ⟨t.minSizes, rfl, hRemembers⟩
  | none =>
      refine ⟨_, rfl, ?_, hRemembers.idle⟩
      intro e hMem
      rcases Assoc.mem_insertSorted hMem with rfl | hBefore
      · rfl
      · exact hRemembers.sizes e hBefore

/- A size is the same whether it is remembered or not. -/
theorem run_remembered
    {t : ParserTables}
    (hRemembers : Remembers g s t)
    (id : ExpId) :
    ∃ t', (MinSize.remembered g s id).run t =
        (MinSize.of g s id, t') ∧
      Remembers g s t' ∧ t'.essential = t.essential := by
  rcases remembered_step hRemembers id with
    ⟨sizes, hRun, hRemembers'⟩
  exact ⟨_, hRun, hRemembers', rfl⟩

/-
  If every unit has the effect that it should have, then the
  units that the budget lasts for have it one after the other.
-/
theorem run_whileBudget
    {α : Type}
    {visit : ExpId → Nat → StateM ParserTables α}
    (value : ExpId → Nat → α)
    (effect : ExpId → Nat → ParserTables → ParserTables)
    (P : ParserTables → Prop)
    (hVisit : ∀ u count t, Remembers g s t → P t.essential →
      ∃ t', (visit u count).run t = (value u count, t') ∧
        Remembers g s t' ∧
        t'.essential = effect u count t.essential ∧
        P t'.essential)
    (units : List ExpId)
    (count : Nat)
    {t : ParserTables}
    (hRemembers : Remembers g s t)
    (hP : P t.essential) :
    ∃ t', (whileBudget g s visit count units).run t =
        ((budgets g s count units).map
          fun u => value u.exp u.count, t') ∧
      Remembers g s t' ∧
      t'.essential = (budgets g s count units).foldl
        (fun t u => effect u.exp u.count t) t.essential ∧
      P t'.essential := by
  induction units generalizing count t with
  | nil => exact ⟨t, rfl, hRemembers, rfl, hP⟩
  | cons unit units ih =>
      rcases hVisit unit count t hRemembers hP with
        ⟨t₁, hRun₁, hRemembers₁, hEffect₁, hP₁⟩
      rcases run_remembered hRemembers₁ unit with
        ⟨t₂, hRun₂, hRemembers₂, hSame₂⟩
      rw [← hSame₂] at hEffect₁ hP₁
      have hRun : ∀ rest : List ExpId,
          (whileBudget g s visit count (unit :: rest)).run t =
            if count - MinSize.of g s unit == 0 then
              ([value unit count], t₂)
            else
              (value unit count :: ((whileBudget g s visit
                (count - MinSize.of g s unit) rest).run t₂).1,
                ((whileBudget g s visit
                  (count - MinSize.of g s unit) rest).run
                    t₂).2) := by
        intro rest
        rw [whileBudget]
        dsimp only [StateT.run] at hRun₁ hRun₂
        dsimp only [bind, StateT.bind, StateT.run]
        rw [hRun₁]
        dsimp only
        rw [hRun₂]
        dsimp only
        split
        · rfl
        · rfl
      rw [hRun]
      unfold budgets
      cases hLeft : count - MinSize.of g s unit == 0 with
      | true =>
          exact ⟨t₂, rfl, hRemembers₂, hEffect₁, hP₁⟩
      | false =>
          rcases ih (count - MinSize.of g s unit) hRemembers₂ hP₁
            with ⟨t₃, hRun₃, hRemembers₃, hEffect₃, hP₃⟩
          refine ⟨t₃, ?_, hRemembers₃, ?_, hP₃⟩
          · rw [hRun₃]
            rfl
          · rw [hEffect₃, hEffect₁]
            rfl

end Remembered

------------------------------------------------------------
-- Requests of an expansion
------------------------------------------------------------

section Requests

variable {g : Grammar} {s : Session}

theorem essential_enter
    (r : ScanRequest)
    (t : ParserTables) :
    (enter r t).essential = enter r t.essential := by
  have hSame : t.essential.routines = t.routines := rfl
  unfold enter
  rw [hSame]
  cases Assoc.get? r.exp t.routines with
  | none => rfl
  | some known =>
      dsimp only
      split
      · rfl
      · rfl

theorem Remembers.enter
    {t : ParserTables}
    (hRemembers : Remembers g s t)
    (r : ScanRequest) :
    Remembers g s (enter r t) := by
  unfold Speculation.enter
  split
  · split
    · exact hRemembers
    · exact ⟨hRemembers.sizes, hRemembers.idle⟩
  · exact ⟨hRemembers.sizes, hRemembers.idle⟩

theorem essential_request
    (id : ExpId)
    (count : Nat)
    (t : ParserTables) :
    (request g s id count t).essential =
      request g s id count t.essential := by
  have hSame : t.essential.routineNames = t.routineNames := rfl
  unfold request
  rw [hSame]
  split
  · exact essential_enter _ t
  · split
    · rfl
    · exact essential_enter _ (nameRoutine g id t)

theorem Remembers.request
    {t : ParserTables}
    (hRemembers : Remembers g s t)
    (id : ExpId)
    (count : Nat) :
    Remembers g s (request g s id count t) := by
  unfold Speculation.request
  split
  · exact hRemembers.enter _
  · split
    · exact ⟨hRemembers.sizes, hRemembers.idle⟩
    · have hNamed : Remembers g s (nameRoutine g id t) :=
        ⟨hRemembers.sizes, hRemembers.idle⟩
      exact hNamed.enter _

theorem remembers_foldl_request
    (calls : List ScanRequest)
    {t : ParserTables}
    (hRemembers : Remembers g s t) :
    Remembers g s (calls.foldl (requestCall g s) t) ∧
      (calls.foldl (requestCall g s) t).essential =
        calls.foldl (requestCall g s) t.essential := by
  induction calls generalizing t with
  | nil => exact ⟨hRemembers, rfl⟩
  | cons call calls ih =>
      have hFirst := hRemembers.request call.exp call.count
      rcases ih hFirst with ⟨hRest, hSame⟩
      refine ⟨hRest, hSame.trans ?_⟩
      exact congrArg (calls.foldl (requestCall g s))
        (essential_request call.exp call.count t)

/- An expansion requests the routines that it calls. -/
theorem run_requestPartsTo
    (depth : Nat)
    (id : ExpId)
    (count : Nat)
    {t : ParserTables}
    (hRemembers : Remembers g s t) :
    ∃ t', (requestPartsTo g s depth id count).run t =
        ((), t') ∧
      Remembers g s t' ∧
      t'.essential =
        (callsTo g s (fun _ => false) depth id count).foldl
          (requestCall g s) t.essential := by
  induction depth generalizing id count t with
  | zero => exact ⟨t, rfl, hRemembers, rfl⟩
  | succ depth ih =>
      have hOne : ∀ body : ExpId,
          ∃ t', (modify (Speculation.request g s body count) :
              StateM ParserTables Unit).run t = ((), t') ∧
            Remembers g s t' ∧
            t'.essential = [⟨body, count⟩].foldl
              (requestCall g s) t.essential :=
        fun body => ⟨_, rfl, hRemembers.request body count,
          essential_request body count t⟩
      unfold requestPartsTo callsTo
      rw [if_neg Bool.false_ne_true]
      cases hForm : g.form id with
      | nonterminal name result args =>
          dsimp only
          cases bodyOf? g s name with
          | some body => exact hOne body
          | none => exact ⟨t, rfl, hRemembers, rfl⟩
      | choice alternatives =>
          have hAll := remembers_foldl_request
            (alternatives.map fun alt =>
              (⟨alt, count⟩ : ScanRequest)) hRemembers
          refine ⟨_, rfl, ?_, ?_⟩
          · have hRest := hAll.1
            rw [List.foldl_map] at hRest
            exact hRest
          · have hSame := hAll.2
            rw [List.foldl_map] at hSame
            exact hSame
      | sequence units =>
          rcases run_whileBudget (fun _ _ => ())
            (fun u count t =>
              (callsTo g s (fun _ => false) depth u count).foldl
                (requestCall g s) t)
            (fun _ => True)
            (fun u count t hRemembers _ => by
              rcases ih u count hRemembers with
                ⟨t', hRun, hRemembers', hSame⟩
              exact ⟨t', hRun, hRemembers', hSame, trivial⟩)
            (units.drop 1) count hRemembers trivial with
            ⟨t', hRun, hRemembers', hSame, -⟩
          refine ⟨t', ?_, hRemembers', ?_⟩
          · dsimp only [StateT.run] at hRun
            dsimp only [bind, StateT.bind, StateT.run]
            rw [hRun]
            rfl
          · dsimp only
            rw [hSame, List.foldl_flatMap]
      | tryBlock body catches cleanup =>
          exact ih body count hRemembers
      | oneOrMore body => exact hOne body
      | zeroOrMore body => exact hOne body
      | zeroOrOne body => exact hOne body
      | _ => exact ⟨t, rfl, hRemembers, rfl⟩

end Requests

------------------------------------------------------------
-- Steps of an expansion
------------------------------------------------------------

section Steps

variable {g : Grammar} {s : Session}

/- One round of the steps of an expansion. -/
theorem run_stepsTo_succ
    (depth : Nat)
    (id : ExpId)
    (count : Nat)
    (t : ParserTables) :
    (stepsTo g s (depth + 1) id count).run t =
      if isInline t id then
        ([], t)
      else
        match g.form id with
        | .terminal regex _ _ =>
            ([.token (Scaffold.tokenLabel g s regex)], t)
        | .nonterminal name _ _ =>
            match bodyOf? g s name with
            | some body => ([.call body], t)
            | none => ([.code], t)
        | .choice alternatives =>
            ([.choice (guardedAlternatives g alternatives)],
              ((noteGuards
                (guardedAlternatives g alternatives)).run t).2)
        | .sequence units =>
            let parts := (whileBudget g s (stepsTo g s depth)
              count (units.drop 1)).run t
            (parts.1.flatten, parts.2)
        | .tryBlock body _ _ =>
            (stepsTo g s depth body count).run t
        | .oneOrMore body => ([.oneOrMore body], t)
        | .zeroOrMore body => ([.zeroOrMore body], t)
        | .zeroOrOne body => ([.zeroOrOne body], t)
        | .action _ => ([], t)
        | .lookahead _ => ([], t) := by
  rw [stepsTo]
  dsimp only [get, getThe, MonadStateOf.get, StateT.get, bind,
    StateT.bind, StateT.run, pure]
  cases isInline t id with
  | true => rfl
  | false =>
      cases g.form id with
      | nonterminal name result args =>
          dsimp only
          cases bodyOf? g s name with
          | some body => rfl
          | none => rfl
      | _ => rfl

/-
  What is visited depends on the essential tables only, and
  spares them.
-/
def Spares
    {α : Type}
    (g : Grammar)
    (s : Session)
    (visit : ExpId → Nat → StateM ParserTables α) : Prop :=
  ∀ u count t, Remembers g s t →
    ∃ t', (visit u count).run t =
        (((visit u count).run t.essential).1, t') ∧
      Remembers g s t' ∧ t'.essential = t.essential

theorem Spares.whileBudget
    {α : Type}
    {visit : ExpId → Nat → StateM ParserTables α}
    (hSpares : Spares g s visit)
    (units : List ExpId)
    (count : Nat)
    {t : ParserTables}
    (hRemembers : Remembers g s t) :
    ∃ t', (whileBudget g s visit count units).run t =
        ((budgets g s count units).map fun u =>
          ((visit u.exp u.count).run t.essential).1, t') ∧
      Remembers g s t' ∧ t'.essential = t.essential := by
  have hVisit : ∀ u count t₁, Remembers g s t₁ →
      t₁.essential = t.essential →
      ∃ t', (visit u count).run t₁ =
          (((visit u count).run t.essential).1, t') ∧
        Remembers g s t' ∧ t'.essential = t₁.essential ∧
        t'.essential = t.essential := by
    intro u count t₁ hRemembers₁ hSame
    rcases hSpares u count t₁ hRemembers₁ with
      ⟨t', hRun, hRemembers', hSame'⟩
    rw [hSame] at hRun
    exact ⟨t', hRun, hRemembers', hSame', hSame'.trans hSame⟩
  rcases run_whileBudget _ (fun _ _ t => t) (· = t.essential)
    hVisit units count hRemembers rfl with
    ⟨t', hRun, hRemembers', -, hSame⟩
  exact ⟨t', hRun, hRemembers', hSame⟩

theorem spares_stepsTo
    (depth : Nat) :
    Spares g s (stepsTo g s depth) := by
  induction depth with
  | zero => exact fun _ _ t hRemembers => ⟨t, rfl, hRemembers, rfl⟩
  | succ depth ih =>
      intro id count t hRemembers
      have hSame : isInline t.essential id = isInline t id := rfl
      rw [run_stepsTo_succ, run_stepsTo_succ, hSame]
      cases isInline t id with
      | true => exact ⟨t, rfl, hRemembers, rfl⟩
      | false =>
          rw [if_neg Bool.false_ne_true,
            if_neg Bool.false_ne_true]
          cases g.form id with
          | nonterminal name result args =>
              dsimp only
              cases bodyOf? g s name with
              | some body => exact ⟨t, rfl, hRemembers, rfl⟩
              | none => exact ⟨t, rfl, hRemembers, rfl⟩
          | sequence units =>
              rcases ih.whileBudget (units.drop 1) count
                hRemembers with
                ⟨t₁, hRun₁, hRemembers₁, hSame₁⟩
              rcases ih.whileBudget (units.drop 1) count
                (remembers_essential t) with ⟨t₂, hRun₂, -⟩
              refine ⟨t₁, ?_, hRemembers₁, hSame₁⟩
              dsimp only
              rw [hRun₁, hRun₂]
              rfl
          | tryBlock body catches cleanup =>
              exact ih body count t hRemembers
          | choice alternatives =>
              exact ⟨_, rfl,
                ⟨hRemembers.sizes, hRemembers.idle⟩, rfl⟩
          | _ => exact ⟨t, rfl, hRemembers, rfl⟩

/- The steps of an expansion call what its calls are. -/
theorem callees_stepsTo
    (depth : Nat)
    (id : ExpId)
    (count : Nat)
    {t : ParserTables}
    (hRemembers : Remembers g s t) :
    ((stepsTo g s depth id count).run t).1.flatMap
        ScanStep.callees =
      (callsTo g s (isInline t) depth id count).map
        (·.exp) := by
  induction depth generalizing id count t with
  | zero => rfl
  | succ depth ih =>
      rw [run_stepsTo_succ, callsTo]
      cases isInline t id with
      | true => rfl
      | false =>
          rw [if_neg Bool.false_ne_true,
            if_neg Bool.false_ne_true]
          cases g.form id with
          | nonterminal name result args =>
              dsimp only
              cases bodyOf? g s name with
              | some body => rfl
              | none => rfl
          | choice alternatives =>
              simp [ScanStep.callees, guardedAlternatives,
                Function.comp_def]
          | sequence units =>
              rcases (spares_stepsTo depth).whileBudget
                (units.drop 1) count hRemembers with
                ⟨t₁, hRun₁, -⟩
              dsimp only
              rw [hRun₁, ← List.flatMap_def,
                List.flatMap_assoc, List.map_flatMap]
              refine List.flatMap_congr fun u _ => ?_
              exact ih u.exp u.count (remembers_essential t)
          | tryBlock body catches cleanup =>
              exact ih body count hRemembers
          | _ => rfl

end Steps

------------------------------------------------------------
-- Depths
------------------------------------------------------------

section Depths

variable {g : Grammar} {s : Session}

theorem whileBudget_congr
    {α : Type}
    {visit visit' : ExpId → Nat → StateM ParserTables α}
    {units : List ExpId}
    (hVisit : ∀ u ∈ units, visit u = visit' u)
    (count : Nat) :
    whileBudget g s visit count units =
      whileBudget g s visit' count units := by
  induction units generalizing count with
  | nil => rfl
  | cons unit units ih =>
      have hRest := ih fun u hu =>
        hVisit u (List.mem_cons_of_mem unit hu)
      unfold whileBudget
      simp only [hVisit unit List.mem_cons_self, hRest]

/- No walk goes deeper than expansions are nested. -/
theorem eq_of_size_lt
    {α : Type}
    (hNested : g.Nested)
    {walk : Nat → ExpId → α}
    (hStep : ∀ d d' id,
      (∀ part, g.ChildOf part id → walk d part = walk d' part) →
        walk (d + 1) id = walk (d' + 1) id)
    {depth : Nat}
    (hDepth : g.expansions.size < depth)
    (id : ExpId) :
    walk depth id = walk (g.expansions.size + 1) id := by
  have hRank : rank g.ChildOf g.expansions.size id ≤
      g.expansions.size :=
    rank_le hNested.acyclic id
  exact eq_of_rank_lt hNested.acyclic Grammar.lt_size_of_childOf
    hStep (hRank.trans_lt hDepth) (Nat.lt_succ_of_le hRank)

theorem requestPartsTo_eq
    (hNested : g.Nested)
    {depth : Nat}
    (hDepth : g.expansions.size < depth)
    (id : ExpId) :
    requestPartsTo g s depth id =
      requestPartsTo g s (g.expansions.size + 1) id := by
  refine eq_of_size_lt hNested ?_ hDepth id
  intro d d' id hParts
  unfold Grammar.ChildOf Grammar.children at hParts
  funext count
  unfold requestPartsTo
  cases hForm : g.form id with
  | sequence units =>
      rw [hForm] at hParts
      dsimp only
      rw [whileBudget_congr fun u hu =>
        hParts u (List.mem_of_mem_drop hu)]
  | tryBlock body catches cleanup =>
      rw [hForm] at hParts
      exact congrFun (hParts body List.mem_cons_self) count
  | _ => rfl

theorem stepsTo_eq
    (hNested : g.Nested)
    {depth : Nat}
    (hDepth : g.expansions.size < depth)
    (id : ExpId) :
    stepsTo g s depth id =
      stepsTo g s (g.expansions.size + 1) id := by
  refine eq_of_size_lt hNested ?_ hDepth id
  intro d d' id hParts
  unfold Grammar.ChildOf Grammar.children at hParts
  funext count
  unfold stepsTo
  cases hForm : g.form id with
  | sequence units =>
      rw [hForm] at hParts
      dsimp only
      rw [whileBudget_congr fun u hu =>
        hParts u (List.mem_of_mem_drop hu)]
  | tryBlock body catches cleanup =>
      rw [hForm] at hParts
      dsimp only
      rw [hParts body List.mem_cons_self]
  | _ => rfl

/- No way down to one token is longer than the grammar. -/
theorem soleToken?_eq
    (hAcyclic : Acyclic g.Leads)
    (hHeaded : g.Headed)
    (hNames : s.KnowsNames g)
    {steps : Nat}
    (hSteps : g.expansions.size < steps)
    (id : ExpId) :
    soleToken? g s steps id =
      soleToken? g s (g.expansions.size + 1) id := by
  have hRank : rank g.Leads g.expansions.size id ≤
      g.expansions.size :=
    rank_le hAcyclic id
  refine eq_of_rank_lt hAcyclic Grammar.lt_size_of_leads ?_
    (hRank.trans_lt hSteps) (Nat.lt_succ_of_le hRank)
  intro d d' id hLeads
  unfold Grammar.Leads at hLeads
  unfold soleToken?
  cases hForm : g.form id with
  | sequence units =>
      rw [hForm] at hLeads
      rcases hHeaded id units hForm with
        ⟨head, rest, la, rfl, hHead⟩
      match rest with
      | [] => rfl
      | [unit] =>
          apply hLeads unit
          refine ⟨[head], [], rfl, ?_⟩
          rw [Grammar.vanishes_iff_form, hHead]
          trivial
      | _ :: _ :: _ => rfl
  | nonterminal name result args =>
      rw [hForm] at hLeads
      dsimp only
      cases hBody : bodyOf? g s name with
      | some body =>
          exact hLeads body
            ((bodyOf?_eq_some_iff hNames name body).mp hBody)
      | none => rfl
  | _ => rfl

end Depths

end Speculation

end Descent
