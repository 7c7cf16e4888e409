import Descent.Proofs.ChoiceConflicts
import Descent.Proofs.FewestTokens

/-
  Searches before the first token, and how deep their calls
  are nested.

  A recursion is taken level by level: to a depth it comes to a
  result only if its calls are not nested deeper, so it has a
  result at some depth if its tree of calls is finite.  The
  search for code written by hand and the measurement of sizes
  always end.  The search for first kinds goes ways that the
  check for left recursion does not follow, from a sequence to
  what is looked for before a call of code, and it ends if no
  way comes back to where it was.

  Main declarations:
    * `within`, `isSome_within` and `acc_of_isSome_within`
    * `Grammar.Asks`
    * `First.isSome_ofParts?_iff`
    * `searches_end`
-/

------------------------------------------------------------
-- Recursions
------------------------------------------------------------

namespace Descent

/- What a recursion comes to with calls to some depth. -/
def within
    {κ α : Type}
    (level : (κ → Option α) → κ → Option α) : Nat → κ → Option α
  | 0, _ => none
  | depth + 1, k => level (within level depth) k

/- Results that are there are the results of a function. -/
def Agrees
    {κ α : Type}
    (f? : κ → Option α)
    (f : κ → α) : Prop :=
  ∀ k r, f? k = some r → f k = r

theorem agrees_within
    {κ α : Type}
    {level : (κ → Option α) → κ → Option α}
    {f : Nat → κ → α}
    (hLevel : ∀ depth f?, Agrees f? (f depth) →
      Agrees (level f?) (f (depth + 1)))
    (depth : Nat) :
    Agrees (within level depth) (f depth) := by
  induction depth with
  | zero => exact nofun
  | succ depth ih => exact hLevel depth _ ih

section Calls

variable {α : Type}
variable {level : (ExpId → Option α) → ExpId → Option α}
variable {R : ExpId → ExpId → Prop} {size : Nat}

/- A recursion ends if no way of calls comes back. -/
theorem isSome_within
    (hInside : ∀ j i, R j i → i < size)
    (hLevel : ∀ f? i, (∀ j, R j i → (f? j).isSome) →
      (level f? i).isSome)
    {e : ExpId}
    (hForward : ∀ i, Relation.ReflTransGen R i e →
      ¬ Relation.TransGen R i i)
    {depth : Nat}
    (hDepth : size < depth) :
    (within level depth e).isSome := by
  let R' : ExpId → ExpId → Prop :=
    fun j i => R j i ∧ Relation.ReflTransGen R i e
  have hAcyclic : Acyclic R' := by
    intro i hCycle
    have hHere : Relation.ReflTransGen R i e := by
      rcases Relation.TransGen.tail'_iff.mp hCycle with
        ⟨_, -, hStep⟩
      exact hStep.2
    exact hForward i hHere
      (Relation.TransGen.mono (fun _ _ h => h.1) _ _ hCycle)
  have hInside' : ∀ j i, R' j i → i < size :=
    fun j i h => hInside j i h.1
  have hAll : ∀ depth i, Relation.ReflTransGen R i e →
      rank R' size i < depth → (within level depth i).isSome := by
    intro depth
    induction depth with
    | zero => exact fun _ _ hLess => absurd hLess (Nat.not_lt_zero _)
    | succ depth ih =>
        intro i hReached hRank
        apply hLevel
        intro j hCall
        have hLess := rank_lt hAcyclic hInside' ⟨hCall, hReached⟩
        exact ih j (hReached.head hCall)
          (hLess.trans_le (Nat.le_of_lt_succ hRank))
  exact hAll depth e .refl ((rank_le hAcyclic e).trans_lt hDepth)

/- Where a recursion ends, all its ways of calls do. -/
theorem acc_of_isSome_within
    (hLevel : ∀ f? i, (level f? i).isSome → ∀ j, R j i →
      (f? j).isSome)
    {depth : Nat}
    {e : ExpId}
    (hSome : (within level depth e).isSome) :
    Acc R e := by
  induction depth generalizing e with
  | zero => cases hSome
  | succ depth ih =>
      exact ⟨e, fun j hCall => ih (hLevel _ _ hSome j hCall)⟩

/- Below where all ways end, none comes back. -/
theorem not_transGen_of_acc
    {e : ExpId}
    (hAcc : Acc R e)
    {i : ExpId}
    (hReached : Relation.ReflTransGen R i e) :
    ¬ Relation.TransGen R i i := by
  have hHere : Acc R i := by
    induction hReached using
      Relation.ReflTransGen.head_induction_on with
    | refl => exact hAcc
    | head hStep _ ih => exact ih.inv hStep
  have hNone : ∀ {j}, Acc (Relation.TransGen R) j →
      ¬ Relation.TransGen R j j := by
    intro j hBelow
    induction hBelow with
    | intro j _ ih => exact fun hCycle => ih j hCycle hCycle
  exact hNone hHere.transGen

end Calls

------------------------------------------------------------
-- Code written by hand
------------------------------------------------------------

/- Some expansion begins with code, as far as that is known. -/
def anyBeginsWithCode?
    (begins? : ExpId → Option Bool) : List ExpId → Option Bool
  | [] => some false
  | e :: es => do
      if ← begins? e then return true
      anyBeginsWithCode? begins? es

/- Some unit of a sequence does before a token. -/
def unitsBeginWithCode?
    (g : Grammar)
    (s : Session)
    (begins? : ExpId → Option Bool) : List ExpId → Option Bool
  | [] => some false
  | u :: us =>
      if isStatedLookahead g u then
        some false
      else do
        if ← begins? u then return true
        if Nullable.nullable g s u then
          unitsBeginWithCode? g s begins? us
        else
          return false

/- One level of the search for code that comes first. -/
def beginsWithCode?
    (g : Grammar)
    (s : Session)
    (begins? : ExpId → Option Bool)
    (id : ExpId) : Option Bool :=
  match g.form id with
  | .nonterminal name _ _ =>
      match productionNamed? g s name with
      | none => some false
      | some p =>
          match p.body with
          | .code _ _ => some true
          | .rules body _ => begins? body
  | .choice alternatives =>
      anyBeginsWithCode? begins? alternatives
  | .sequence units => unitsBeginWithCode? g s begins? units
  | .oneOrMore body => begins? body
  | .zeroOrMore body => begins? body
  | .zeroOrOne body => begins? body
  | .tryBlock body _ _ => begins? body
  | .terminal _ _ _ => some false
  | .action _ => some false
  | .lookahead _ => some false

section Code

variable {g : Grammar} {s : Session}
variable {begins? : ExpId → Option Bool}
variable {begins : ExpId → Bool}

theorem anyBeginsWithCode?_eq
    (hAgrees : Agrees begins? begins)
    {es : List ExpId}
    {r : Bool}
    (hSome : anyBeginsWithCode? begins? es = some r) :
    es.any begins = r := by
  induction es with
  | nil => exact Option.some.inj hSome
  | cons e es ih =>
      rw [anyBeginsWithCode?] at hSome
      rcases Option.bind_eq_some_iff.mp hSome with
        ⟨here, hHere, hRest⟩
      rw [List.any_cons, hAgrees e here hHere]
      cases here with
      | true => exact Option.some.inj hRest
      | false => exact ih hRest

theorem unitsBeginWithCode?_eq
    (hAgrees : Agrees begins? begins)
    {us : List ExpId}
    {r : Bool}
    (hSome : unitsBeginWithCode? g s begins? us = some r) :
    unitsBeginWithCode g s begins us = r := by
  induction us with
  | nil => exact Option.some.inj hSome
  | cons u us ih =>
      rw [unitsBeginWithCode?] at hSome
      rw [unitsBeginWithCode]
      split at hSome
      · next hStated =>
          rw [if_pos hStated]
          exact Option.some.inj hSome
      · next hOpen =>
          rw [if_neg hOpen]
          rcases Option.bind_eq_some_iff.mp hSome with
            ⟨here, hHere, hRest⟩
          rw [hAgrees u here hHere]
          cases here with
          | true => exact Option.some.inj hRest
          | false =>
              by_cases hEmpty : Nullable.nullable g s u = true
              · rw [hEmpty]
                simp only [hEmpty, if_true] at hRest
                exact ih hRest
              · rw [Bool.not_eq_true] at hEmpty
                rw [hEmpty]
                simp only [hEmpty] at hRest
                exact Option.some.inj hRest

theorem agrees_beginsWithCode?
    (depth : Nat) :
    Agrees (within (beginsWithCode? g s) depth)
      (beginsWithCodeTo g s depth) := by
  apply agrees_within
  intro depth begins? hAgrees id r hSome
  unfold beginsWithCode? at hSome
  unfold beginsWithCodeTo
  cases hForm : g.form id with
  | nonterminal name result args =>
      rw [hForm] at hSome
      dsimp only at hSome ⊢
      cases hNamed : productionNamed? g s name with
      | none =>
          rw [hNamed] at hSome
          exact Option.some.inj hSome
      | some p =>
          rw [hNamed] at hSome
          dsimp only at hSome ⊢
          cases hBody : p.body with
          | rules body declarations =>
              rw [hBody] at hSome
              exact hAgrees body r hSome
          | code language text =>
              rw [hBody] at hSome
              exact Option.some.inj hSome
  | choice alternatives =>
      rw [hForm] at hSome
      exact anyBeginsWithCode?_eq hAgrees hSome
  | sequence units =>
      rw [hForm] at hSome
      exact unitsBeginWithCode?_eq hAgrees hSome
  | oneOrMore body =>
      rw [hForm] at hSome
      exact hAgrees body r hSome
  | zeroOrMore body =>
      rw [hForm] at hSome
      exact hAgrees body r hSome
  | zeroOrOne body =>
      rw [hForm] at hSome
      exact hAgrees body r hSome
  | tryBlock body catches cleanup =>
      rw [hForm] at hSome
      exact hAgrees body r hSome
  | terminal regex result member =>
      rw [hForm] at hSome
      exact Option.some.inj hSome
  | action code =>
      rw [hForm] at hSome
      exact Option.some.inj hSome
  | lookahead la =>
      rw [hForm] at hSome
      exact Option.some.inj hSome

theorem isSome_anyBeginsWithCode?
    {es : List ExpId}
    (hAll : ∀ e ∈ es, (begins? e).isSome) :
    (anyBeginsWithCode? begins? es).isSome := by
  induction es with
  | nil => rfl
  | cons e es ih =>
      rw [List.forall_mem_cons] at hAll
      rcases Option.isSome_iff_exists.mp hAll.1 with
        ⟨here, hHere⟩
      rw [anyBeginsWithCode?, hHere]
      cases here with
      | true => rfl
      | false => exact ih hAll.2

/- Units are asked as long as those before them vanish. -/
theorem isSome_unitsBeginWithCode?
    (hFlagged : s.Flagged g)
    {us : List ExpId}
    (hAll : ∀ before u after, us = before ++ u :: after →
      g.Vanishes before → (begins? u).isSome) :
    (unitsBeginWithCode? g s begins? us).isSome := by
  induction us with
  | nil => rfl
  | cons u us ih =>
      rw [unitsBeginWithCode?]
      split
      · rfl
      rcases Option.isSome_iff_exists.mp
        (hAll [] u us rfl g.vanishes_nil) with ⟨here, hHere⟩
      rw [hHere]
      cases here with
      | true => rfl
      | false =>
          by_cases hEmpty : Nullable.nullable g s u = true
          · have hGone := (hFlagged.empty u).mp hEmpty
            have hRest := ih fun before u' after hUnits hBefore =>
              hAll (u :: before) u' after (by rw [hUnits]; rfl)
                ((g.vanishes_cons u).mpr ⟨hGone, hBefore⟩)
            simpa [hEmpty] using hRest
          · simp [hEmpty]

/- The search for code ends, since no way leads back. -/
theorem within_beginsWithCode?
    (hFlagged : s.Flagged g)
    (hSane : g.Sane)
    (e : ExpId) :
    within (beginsWithCode? g s) (g.expansions.size + 1) e =
      some (beginsWithCode g s e) := by
  have hSome : (within (beginsWithCode? g s)
      (g.expansions.size + 1) e).isSome := by
    apply isSome_within Grammar.lt_size_of_leads ?_
      (fun i _ => hSane.acyclic i) (Nat.lt_succ_self _)
    intro begins? id hParts
    unfold Grammar.Leads at hParts
    unfold beginsWithCode?
    cases hForm : g.form id with
    | nonterminal name result args =>
        rw [hForm] at hParts
        dsimp only at hParts ⊢
        cases hNamed : productionNamed? g s name with
        | none => rfl
        | some p =>
            dsimp only
            cases hBody : p.body with
            | rules body declarations =>
                apply hParts
                rw [← bodyOf?_eq_some_iff hFlagged.names]
                unfold bodyOf? Production.expansion?
                rw [hNamed, Option.bind_some, hBody]
            | code language text => rfl
    | choice alternatives =>
        rw [hForm] at hParts
        exact isSome_anyBeginsWithCode? hParts
    | sequence units =>
        rw [hForm] at hParts
        exact isSome_unitsBeginWithCode? hFlagged
          fun before u after hUnits hGone =>
            hParts u ⟨before, after, hUnits, hGone⟩
    | oneOrMore body =>
        rw [hForm] at hParts
        exact hParts body rfl
    | zeroOrMore body =>
        rw [hForm] at hParts
        exact hParts body rfl
    | zeroOrOne body =>
        rw [hForm] at hParts
        exact hParts body rfl
    | tryBlock body catches cleanup =>
        rw [hForm] at hParts
        exact hParts body rfl
    | _ => rfl
  rcases Option.isSome_iff_exists.mp hSome with ⟨r, hResult⟩
  rw [hResult, ← agrees_beginsWithCode? _ e r hResult]
  rfl

end Code

------------------------------------------------------------
-- Sizes
------------------------------------------------------------

namespace MinSize

/- What is measured: an expansion, with those that are open. -/
structure Query where
  opened : List ExpId
  id : ExpId
  bound : Nat

/- The least size of some alternatives, as far as it is known. -/
def leastOf?
    (size? : ExpId → Nat → Option Nat) :
    Nat → List ExpId → Option Nat
  | least, [] => some least
  | least, alt :: alts =>
      if least ≤ 1 then
        some least
      else do
        let here ← size? alt least
        leastOf? size? (min least here) alts

/- The sum of the sizes of some units, as far as it is known. -/
def sumOf?
    (size? : ExpId → Option Nat)
    (bound : Nat) : Nat → List ExpId → Option Nat
  | sum, [] => some sum
  | sum, u :: us => do
      let here ← size? u
      if sum == infinite || here == infinite then
        sumOf? size? bound infinite us
      else
        let total := min (sum + here) infinite
        if bound < total then
          return total
        else
          sumOf? size? bound total us

/- One level of the measurement. -/
def below?
    (g : Grammar)
    (s : Session)
    (size? : Query → Option Nat)
    (q : Query) : Option Nat :=
  if q.opened.contains q.id then
    some infinite
  else
    let part? := fun id bound => size? ⟨q.id :: q.opened, id, bound⟩
    match g.form q.id with
    | .terminal _ _ _ => some 1
    | .nonterminal name _ _ =>
        match bodyOf? g s name with
        | some body => part? body infinite
        | none => some infinite
    | .choice alternatives => leastOf? part? q.bound alternatives
    | .sequence units =>
        sumOf? (part? · infinite) q.bound 0 (units.drop 1)
    | .tryBlock body _ _ => part? body infinite
    | .oneOrMore body => part? body infinite
    | .zeroOrMore _ => some 0
    | .zeroOrOne _ => some 0
    | .action _ => some 0
    | .lookahead _ => some 0

section Sizes

variable {g : Grammar} {s : Session}

theorem leastOf?_eq
    {size? : ExpId → Nat → Option Nat}
    {size : ExpId → Nat → Nat}
    (hAgrees : ∀ id bound r, size? id bound = some r →
      size id bound = r)
    {least r : Nat}
    {alts : List ExpId}
    (hSome : leastOf? size? least alts = some r) :
    leastOf size least alts = r := by
  induction alts generalizing least with
  | nil => exact Option.some.inj hSome
  | cons alt alts ih =>
      rw [leastOf?] at hSome
      rw [leastOf]
      split at hSome
      · next hSmall =>
          rw [if_pos hSmall]
          exact Option.some.inj hSome
      · next hLarge =>
          rw [if_neg hLarge]
          rcases Option.bind_eq_some_iff.mp hSome with
            ⟨here, hHere, hRest⟩
          rw [hAgrees alt least here hHere]
          exact ih hRest

theorem sumOf?_eq
    {size? : ExpId → Option Nat}
    {size : ExpId → Nat}
    (hAgrees : Agrees size? size)
    {bound sum r : Nat}
    {us : List ExpId}
    (hSome : sumOf? size? bound sum us = some r) :
    sumOf size bound sum us = r := by
  induction us generalizing sum with
  | nil => exact Option.some.inj hSome
  | cons u us ih =>
      rw [sumOf?] at hSome
      rw [sumOf]
      rcases Option.bind_eq_some_iff.mp hSome with
        ⟨here, hHere, hRest⟩
      rw [hAgrees u here hHere]
      dsimp only at hRest ⊢
      split at hRest
      · next hEndless =>
          rw [if_pos hEndless]
          exact ih hRest
      · next hFinite =>
          rw [if_neg hFinite]
          split at hRest
          · next hBeyond =>
              rw [if_pos hBeyond]
              exact Option.some.inj hRest
          · next hWithin =>
              rw [if_neg hWithin]
              exact ih hRest

/- The size that a query asks for, measured to a depth. -/
def answer
    (g : Grammar)
    (s : Session)
    (depth : Nat)
    (q : Query) : Nat :=
  below g s depth q.opened q.id q.bound

theorem agrees_below?
    (depth : Nat) :
    Agrees (within (below? g s) depth) (answer g s depth) := by
  apply agrees_within
  rintro depth size? hAgrees ⟨opened, id, bound⟩ r hSome
  have hPart : ∀ part bound r,
      size? ⟨id :: opened, part, bound⟩ = some r →
        below g s depth (id :: opened) part bound = r :=
    fun part bound r hPart => hAgrees _ r hPart
  unfold below? at hSome
  unfold answer below
  dsimp only at hSome ⊢
  split at hSome
  · next hOpened =>
      rw [if_pos hOpened]
      exact Option.some.inj hSome
  next hClosed =>
  rw [if_neg hClosed]
  cases hForm : g.form id with
  | nonterminal name result args =>
      rw [hForm] at hSome
      dsimp only at hSome ⊢
      cases hBody : bodyOf? g s name with
      | none =>
          rw [hBody] at hSome
          exact Option.some.inj hSome
      | some body =>
          rw [hBody] at hSome
          exact hPart body infinite r hSome
  | choice alternatives =>
      rw [hForm] at hSome
      exact leastOf?_eq hPart hSome
  | sequence units =>
      rw [hForm] at hSome
      exact sumOf?_eq (fun u => hPart u infinite) hSome
  | tryBlock body catches cleanup =>
      rw [hForm] at hSome
      exact hPart body infinite r hSome
  | oneOrMore body =>
      rw [hForm] at hSome
      exact hPart body infinite r hSome
  | terminal regex result member =>
      rw [hForm] at hSome
      exact Option.some.inj hSome
  | zeroOrMore body =>
      rw [hForm] at hSome
      exact Option.some.inj hSome
  | zeroOrOne body =>
      rw [hForm] at hSome
      exact Option.some.inj hSome
  | action code =>
      rw [hForm] at hSome
      exact Option.some.inj hSome
  | lookahead la =>
      rw [hForm] at hSome
      exact Option.some.inj hSome

theorem isSome_leastOf?
    {size? : ExpId → Nat → Option Nat}
    (hAll : ∀ id bound, (size? id bound).isSome)
    (least : Nat)
    (alts : List ExpId) :
    (leastOf? size? least alts).isSome := by
  induction alts generalizing least with
  | nil => rfl
  | cons alt alts ih =>
      rw [leastOf?]
      split
      · rfl
      · rcases Option.isSome_iff_exists.mp (hAll alt least) with
          ⟨here, hHere⟩
        rw [hHere]
        exact ih _

theorem isSome_sumOf?
    {size? : ExpId → Option Nat}
    (hAll : ∀ id, (size? id).isSome)
    (bound sum : Nat)
    (us : List ExpId) :
    (sumOf? size? bound sum us).isSome := by
  induction us generalizing sum with
  | nil => rfl
  | cons u us ih =>
      rcases Option.isSome_iff_exists.mp (hAll u) with
        ⟨here, hHere⟩
      rw [sumOf?, hHere]
      dsimp only [Option.bind_eq_bind, Option.bind_some]
      split
      · exact ih _
      · split
        · rfl
        · exact ih _

/- Measuring ends, since nothing is opened twice. -/
theorem isSome_within_below?
    {depth : Nat}
    (q : Query)
    (hFueled : Fueled g depth q.opened) :
    (within (below? g s) depth q).isSome := by
  induction depth generalizing q with
  | zero => exact absurd hFueled.pos (Nat.lt_irrefl 0)
  | succ depth ih =>
      rcases q with ⟨opened, id, bound⟩
      unfold within below?
      dsimp only
      split
      · rfl
      next hClosed =>
      rw [List.contains_iff_mem] at hClosed
      by_cases hInside : id < g.expansions.size
      · have hParts : ∀ part bound, (within (below? g s) depth
            ⟨id :: opened, part, bound⟩).isSome :=
          fun part bound => ih _ (hFueled.cons hClosed hInside)
        cases hForm : g.form id with
        | nonterminal name result args =>
            dsimp only
            cases bodyOf? g s name with
            | none => rfl
            | some body => exact hParts body infinite
        | choice alternatives => exact isSome_leastOf? hParts _ _
        | sequence units =>
            exact isSome_sumOf? (fun u => hParts u infinite) _ _ _
        | tryBlock body catches cleanup => exact hParts body infinite
        | oneOrMore body => exact hParts body infinite
        | _ => rfl
      · rw [Grammar.form_of_size_le (Nat.not_lt.mp hInside)]
        rfl

theorem within_below?
    (g : Grammar)
    (s : Session)
    (e : ExpId) :
    within (below? g s) (g.expansions.size + 1) ⟨[], e, infinite⟩ =
      some (of g s e) := by
  have hSome : (within (below? g s) (g.expansions.size + 1)
      ⟨[], e, infinite⟩).isSome :=
    isSome_within_below? _ ⟨List.nodup_nil, List.forall_mem_nil _,
      Nat.lt_succ_self _⟩
  rcases Option.isSome_iff_exists.mp hSome with ⟨r, hResult⟩
  rw [hResult, ← agrees_below? _ _ r hResult]
  rfl

end Sizes

end MinSize

------------------------------------------------------------
-- First kinds
------------------------------------------------------------

/-
  The kinds of an expansion are put together from those of
  another one.  Before a call of code they are those of what a
  lookahead looks for.
-/
def Grammar.Asks
    (g : Grammar)
    (part whole : ExpId) : Prop :=
  match g.form whole with
  | .terminal _ _ _ => False
  | .nonterminal name _ _ => g.Defines name part
  | .sequence units =>
      ∃ before u after, units = before ++ u :: after ∧
        g.Vanishes before ∧
          (¬ g.CallsCode u ∧ part = u ∨
            g.CallsCode u ∧
              scanBefore? g whole before.getLast? = some part)
  | .choice alternatives => part ∈ alternatives
  | .oneOrMore body => part = body
  | .zeroOrMore body => part = body
  | .zeroOrOne body => part = body
  | .tryBlock body _ _ => part = body
  | .action _ => False
  | .lookahead _ => False

theorem Grammar.lt_size_of_asks
    {g : Grammar}
    (part whole : ExpId)
    (hAsks : g.Asks part whole) :
    whole < g.expansions.size := by
  apply lt_size_of_expansion
  intro hForm
  unfold Asks at hAsks
  rw [hForm] at hAsks
  exact hAsks

/- Calls of code are recognized. -/
theorem callsCode_iff
    {g : Grammar}
    {s : Session}
    (hNames : s.KnowsNames g)
    (id : ExpId) :
    callsCode g s id = true ↔ g.CallsCode id := by
  unfold callsCode
  cases hForm : g.form id with
  | nonterminal name result args =>
      dsimp only
      constructor
      · intro hCode
        unfold productionNamed? at hCode
        cases hId : s.production? name with
        | none =>
            rw [hId] at hCode
            cases hCode
        | some q =>
            rcases (hNames name q).mp hId with ⟨p, hAt, hName⟩
            rw [hId] at hCode
            change (g.production q).isCode = true at hCode
            rw [g.production_eq hAt] at hCode
            exact ⟨name, result, args, hForm, p,
              Array.mem_of_getElem? hAt, hName, hCode⟩
      · rintro ⟨_, _, _, hSame, p, hp, hName, hCode⟩
        rw [hForm] at hSame
        cases hSame
        rcases Array.mem_iff_getElem?.mp hp with ⟨q, hAt⟩
        unfold productionNamed?
        rw [(hNames name q).mpr ⟨p, hAt, hName⟩, Option.map_some,
          g.production_eq hAt]
        exact hCode
  | _ =>
      refine iff_of_false nofun ?_
      rintro ⟨_, _, _, hSame, -⟩
      rw [hForm] at hSame
      cases hSame

namespace First

/- What several expansions start with, as far as it is known. -/
def ofAll?
    (first? : ExpId → Option First) :
    First → List ExpId → Option First
  | sum, [] => some sum
  | sum, e :: es => do
      let here ← first? e
      ofAll? first? (sum.union here) es

/- What a unit starts with, after the one before it. -/
def ofUnit
    (g : Grammar)
    (s : Session)
    (first : ExpId → First)
    (seq : ExpId)
    (before : Option ExpId)
    (u : ExpId) : First :=
  if callsCode g s u then
    match scanBefore? g seq before with
    | some scan => first scan
    | none => {}
  else
    first u

theorem firstOfUnits_cons
    (g : Grammar)
    (s : Session)
    (first : ExpId → First)
    (seq : ExpId)
    (before : Option ExpId)
    (u : ExpId)
    (us : List ExpId) :
    firstOfUnits g s first seq before (u :: us) =
      if Nullable.nullable g s u then
        (ofUnit g s first seq before u).union
          (firstOfUnits g s first seq (some u) us)
      else
        ofUnit g s first seq before u :=
  rfl

/- The same, as far as it is known. -/
def ofUnit?
    (g : Grammar)
    (s : Session)
    (first? : ExpId → Option First)
    (seq : ExpId)
    (before : Option ExpId)
    (u : ExpId) : Option First :=
  if callsCode g s u then
    match scanBefore? g seq before with
    | some scan => first? scan
    | none => some {}
  else
    first? u

/- What a sequence starts with. -/
def ofUnits?
    (g : Grammar)
    (s : Session)
    (first? : ExpId → Option First)
    (seq : ExpId) :
    Option ExpId → List ExpId → Option First
  | _, [] => some {}
  | before, u :: us => do
      let here ← ofUnit? g s first? seq before u
      if Nullable.nullable g s u then
        let rest ← ofUnits? g s first? seq (some u) us
        return here.union rest
      else
        return here

/- One level of the search for first kinds. -/
def ofParts?
    (g : Grammar)
    (s : Session)
    (first? : ExpId → Option First)
    (id : ExpId) : Option First :=
  match g.form id with
  | .terminal regex _ _ =>
      let kind := (g.regex regex).kind
      some { kinds :=
        if kind < s.tokenCount then KindSet.empty.insert kind
        else {} }
  | .nonterminal name _ _ =>
      match bodyOf? g s name with
      | some body => first? body
      | none => some {}
  | .choice alternatives => ofAll? first? {} alternatives
  | .sequence units => do
      let hasGuard := ((g.headLookahead? id).bind (·.guard)).isSome
      let f ← ofUnits? g s first? id none units
      return { f with guarded := f.guarded || hasGuard }
  | .oneOrMore body => first? body
  | .zeroOrMore body => first? body
  | .zeroOrOne body => first? body
  | .tryBlock body _ _ => first? body
  | .action _ => some {}
  | .lookahead _ => some {}

section Kinds

variable {g : Grammar} {s : Session}
variable {first? : ExpId → Option First}
variable {first : ExpId → First}

theorem ofAll?_eq
    (hAgrees : Agrees first? first)
    {sum r : First}
    {es : List ExpId}
    (hSome : ofAll? first? sum es = some r) :
    (es.map first).foldl union sum = r := by
  induction es generalizing sum with
  | nil => exact Option.some.inj hSome
  | cons e es ih =>
      rw [ofAll?] at hSome
      rcases Option.bind_eq_some_iff.mp hSome with
        ⟨here, hHere, hRest⟩
      rw [List.map_cons, List.foldl_cons, hAgrees e here hHere]
      exact ih hRest

theorem ofUnit?_eq
    (hAgrees : Agrees first? first)
    {seq : ExpId}
    {before : Option ExpId}
    {u : ExpId}
    {r : First}
    (hSome : ofUnit? g s first? seq before u = some r) :
    ofUnit g s first seq before u = r := by
  unfold ofUnit? at hSome
  unfold ofUnit
  split at hSome
  · next hCode =>
      rw [if_pos hCode]
      cases hScan : scanBefore? g seq before with
      | some scan =>
          rw [hScan] at hSome
          exact hAgrees scan r hSome
      | none =>
          rw [hScan] at hSome
          exact Option.some.inj hSome
  · next hRules =>
      rw [if_neg hRules]
      exact hAgrees u r hSome

theorem ofUnits?_eq
    (hAgrees : Agrees first? first)
    (seq : ExpId)
    {before : Option ExpId}
    {us : List ExpId}
    {r : First}
    (hSome : ofUnits? g s first? seq before us = some r) :
    firstOfUnits g s first seq before us = r := by
  induction us generalizing before r with
  | nil => exact Option.some.inj hSome
  | cons u us ih =>
      rw [ofUnits?] at hSome
      rcases Option.bind_eq_some_iff.mp hSome with
        ⟨here, hHere, hRest⟩
      have hUnit := ofUnit?_eq hAgrees hHere
      rw [firstOfUnits_cons, hUnit]
      by_cases hEmpty : Nullable.nullable g s u = true
      · rw [if_pos hEmpty] at hRest ⊢
        rcases Option.bind_eq_some_iff.mp hRest with
          ⟨rest, hThere, hUnion⟩
        rw [ih hThere]
        exact Option.some.inj hUnion
      · rw [if_neg hEmpty] at hRest ⊢
        exact Option.some.inj hRest

theorem agrees_ofParts?
    (depth : Nat) :
    Agrees (within (ofParts? g s) depth) (firstTo g s depth) := by
  apply agrees_within
  intro depth first? hAgrees id r hSome
  unfold ofParts? at hSome
  unfold firstTo
  cases hForm : g.form id with
  | nonterminal name result args =>
      rw [hForm] at hSome
      dsimp only at hSome ⊢
      cases hBody : bodyOf? g s name with
      | none =>
          rw [hBody] at hSome
          exact Option.some.inj hSome
      | some body =>
          rw [hBody] at hSome
          exact hAgrees body r hSome
  | choice alternatives =>
      rw [hForm] at hSome
      exact ofAll?_eq hAgrees hSome
  | sequence units =>
      rw [hForm] at hSome
      rcases Option.bind_eq_some_iff.mp hSome with
        ⟨f, hUnits, hGuard⟩
      dsimp only
      rw [ofUnits?_eq hAgrees id hUnits]
      exact Option.some.inj hGuard
  | oneOrMore body =>
      rw [hForm] at hSome
      exact hAgrees body r hSome
  | zeroOrMore body =>
      rw [hForm] at hSome
      exact hAgrees body r hSome
  | zeroOrOne body =>
      rw [hForm] at hSome
      exact hAgrees body r hSome
  | tryBlock body catches cleanup =>
      rw [hForm] at hSome
      exact hAgrees body r hSome
  | terminal regex result member =>
      rw [hForm] at hSome
      exact Option.some.inj hSome
  | action code =>
      rw [hForm] at hSome
      exact Option.some.inj hSome
  | lookahead la =>
      rw [hForm] at hSome
      exact Option.some.inj hSome

theorem isSome_ofAll?_iff
    (sum : First)
    (es : List ExpId) :
    (ofAll? first? sum es).isSome ↔
      ∀ e ∈ es, (first? e).isSome := by
  induction es generalizing sum with
  | nil => exact iff_of_true rfl (List.forall_mem_nil _)
  | cons e es ih =>
      rw [ofAll?, List.forall_mem_cons]
      cases first? e with
      | none => simp
      | some here => simpa using ih _

/- A unit that is no call of code is asked itself. -/
theorem isSome_ofUnit?_iff
    (hNames : s.KnowsNames g)
    (seq : ExpId)
    (before : Option ExpId)
    (u : ExpId) :
    (ofUnit? g s first? seq before u).isSome ↔
      ∀ part, (¬ g.CallsCode u ∧ part = u ∨
        g.CallsCode u ∧
          scanBefore? g seq before = some part) →
        (first? part).isSome := by
  unfold ofUnit?
  by_cases hCode : g.CallsCode u
  · rw [if_pos ((callsCode_iff hNames u).mpr hCode)]
    cases scanBefore? g seq before with
    | none => simp [hCode]
    | some scan => simp [hCode]
  · rw [if_neg fun h => hCode ((callsCode_iff hNames u).mp h)]
    simp [hCode]

/-
  A sequence asks its units up to the first that does not
  vanish, each after the one before it.
-/
theorem isSome_ofUnits?_iff
    (hFlagged : s.Flagged g)
    (seq : ExpId)
    (previous : Option ExpId)
    (us : List ExpId) :
    (ofUnits? g s first? seq previous us).isSome ↔
      ∀ before u after, us = before ++ u :: after →
        g.Vanishes before →
          (ofUnit? g s first? seq (before.getLast?.or previous)
            u).isSome := by
  induction us generalizing previous with
  | nil =>
      refine iff_of_true rfl ?_
      rintro before u after hUnits
      simp at hUnits
  | cons u us ih =>
      have hSplit : (∀ before v after,
            u :: us = before ++ v :: after → g.Vanishes before →
              (ofUnit? g s first? seq
                (before.getLast?.or previous) v).isSome) ↔
          (ofUnit? g s first? seq previous u).isSome ∧
            (g.Vanishes [u] → ∀ before v after,
              us = before ++ v :: after → g.Vanishes before →
                (ofUnit? g s first? seq
                  (before.getLast?.or (some u)) v).isSome) := by
        constructor
        · intro hAll
          refine ⟨hAll [] u us rfl g.vanishes_nil, ?_⟩
          intro hGone before v after hUnits hBefore
          have hHere := hAll (u :: before) v after
            (by rw [hUnits]; rfl)
            ((g.vanishes_cons u).mpr ⟨hGone, hBefore⟩)
          rw [List.getLast?_cons] at hHere
          cases hLast : before.getLast? with
          | none => simpa [hLast] using hHere
          | some last => simpa [hLast] using hHere
        · rintro ⟨hHere, hRest⟩ before v after hUnits hBefore
          cases before with
          | nil =>
              cases hUnits
              exact hHere
          | cons u' before =>
              rw [List.cons_append] at hUnits
              cases hUnits
              rcases (g.vanishes_cons u).mp hBefore with
                ⟨hGone, hBefore'⟩
              have hThere := hRest hGone before v after rfl
                hBefore'
              rw [List.getLast?_cons]
              cases hLast : before.getLast? with
              | none => simpa [hLast] using hThere
              | some last => simpa [hLast] using hThere
      rw [hSplit, ← ih, ofUnits?]
      cases ofUnit? g s first? seq previous u with
      | none => simp
      | some here =>
          by_cases hGone : g.Vanishes [u]
          · have hEmpty := (hFlagged.empty u).mpr hGone
            cases ofUnits? g s first? seq (some u) us with
            | none => simp [hEmpty, hGone]
            | some rest => simp [hEmpty]
          · have hKept : ¬ Nullable.nullable g s u = true :=
              fun h => hGone ((hFlagged.empty u).mp h)
            simp [hKept, hGone]

/- A level is known if all that it asks for is. -/
theorem isSome_ofParts?_iff
    (hFlagged : s.Flagged g)
    (id : ExpId) :
    (ofParts? g s first? id).isSome ↔
      ∀ part, g.Asks part id → (first? part).isSome := by
  unfold ofParts? Grammar.Asks
  cases hForm : g.form id with
  | nonterminal name result args =>
      dsimp only
      cases hBody : bodyOf? g s name with
      | none =>
          refine iff_of_true rfl fun part hDefines => ?_
          rw [(bodyOf?_eq_some_iff hFlagged.names name part).mpr
            hDefines] at hBody
          cases hBody
      | some body =>
          have hOnly : ∀ part, g.Defines name part ↔
              part = body := by
            intro part
            rw [← bodyOf?_eq_some_iff hFlagged.names, hBody,
              Option.some.injEq, eq_comm]
          simp [hOnly]
  | choice alternatives => exact isSome_ofAll?_iff _ _
  | sequence units =>
      have hGuarded : ∀ o : Option First, ∀ b,
          (o.bind fun f => some
            { f with guarded := f.guarded || b }).isSome ↔
            o.isSome := by
        intro o b
        cases o with
        | none => rfl
        | some f => rfl
      dsimp only
      refine (hGuarded _ _).trans
        ((isSome_ofUnits?_iff hFlagged id none units).trans ?_)
      simp only [isSome_ofUnit?_iff hFlagged.names, Option.or_none]
      constructor
      · rintro hAll part ⟨before, u, after, hUnits, hGone, hPart⟩
        exact hAll before u after hUnits hGone part hPart
      · intro hAll before u after hUnits hGone part hPart
        exact hAll part ⟨before, u, after, hUnits, hGone, hPart⟩
  | oneOrMore body => simp
  | zeroOrMore body => simp
  | zeroOrOne body => simp
  | tryBlock body catches cleanup => simp
  | terminal regex result member => simp
  | action code => simp
  | lookahead la => simp

end Kinds

end First

/- No way of calls from an expansion comes back. -/
def Grammar.Onward
    (g : Grammar)
    (e : ExpId) : Prop :=
  ∀ i, Relation.ReflTransGen g.Asks i e →
    ¬ Relation.TransGen g.Asks i i

/- Where there is no code, only first parts are asked. -/
theorem Grammar.Ruled.onward
    {g : Grammar}
    (hRuled : g.Ruled)
    (hSane : g.Sane)
    (e : ExpId) :
    g.Onward e := by
  have hNoCode : ∀ u, ¬ g.CallsCode u := by
    rintro u ⟨_, _, _, -, p, hp, -, hCode⟩
    rw [hRuled p hp] at hCode
    cases hCode
  have hLeads : ∀ part whole, g.Asks part whole →
      g.Leads part whole := by
    intro part whole hAsks
    unfold Asks at hAsks
    unfold Leads
    cases hForm : g.form whole with
    | sequence units =>
        rw [hForm] at hAsks
        rcases hAsks with
          ⟨before, u, after, hUnits, hGone, ⟨-, rfl⟩ | ⟨hCode, -⟩⟩
        · exact ⟨before, after, hUnits, hGone⟩
        · exact absurd hCode (hNoCode u)
    | _ =>
        rw [hForm] at hAsks
        exact hAsks
  exact fun i _ hCycle => hSane.acyclic i
    (Relation.TransGen.mono hLeads _ _ hCycle)

/- The search for first kinds ends if no way comes back. -/
theorem First.within_ofParts?
    {g : Grammar}
    {s : Session}
    (hFlagged : s.Flagged g)
    {e : ExpId}
    (hOnward : g.Onward e) :
    within (First.ofParts? g s) (firstLevels g) e =
      some (firstOf g s e) := by
  have hSome : (within (First.ofParts? g s) (firstLevels g)
      e).isSome :=
    isSome_within Grammar.lt_size_of_asks
      (fun _ i => (isSome_ofParts?_iff hFlagged i).mpr) hOnward
      (Nat.lt_add_left stackLevels (Nat.lt_succ_self _))
  rcases Option.isSome_iff_exists.mp hSome with ⟨r, hResult⟩
  rw [hResult, ← agrees_ofParts? _ e r hResult]
  rfl

/-
  The searches of a decision before the first token, in a
  grammar that passes all checks.  The search for code written
  by hand and the measurement of sizes end at every expansion,
  with calls nested no deeper than there are expansions.  The
  search for first kinds ends if and only if no way of calls
  comes back to where it was, as it is without code.  Where
  they end, the results are those that the model finds.
-/
theorem searches_end
    {b : Builder}
    (hMade : Made b)
    {o : Options}
    (hSanity : o.sanityCheck = true)
    {g : Grammar}
    {s : Session}
    (hPasses : analyze b.grammar (.new o) = (g, s, .ok ()))
    (e : ExpId) :
    within (beginsWithCode? g s) (g.expansions.size + 1) e =
        some (beginsWithCode g s e) ∧
      within (MinSize.below? g s) (g.expansions.size + 1)
          ⟨[], e, MinSize.infinite⟩ =
        some (MinSize.of g s e) ∧
      ((∃ depth, (within (First.ofParts? g s) depth e).isSome) ↔
        g.Onward e) ∧
      (g.Onward e →
        within (First.ofParts? g s) (firstLevels g) e =
          some (firstOf g s e)) ∧
      (g.Ruled → g.Onward e) := by
  have hFlagged := (flagged_analyze hMade hPasses).2
  have hSane := sane_analyze hMade hSanity hPasses
  refine ⟨within_beginsWithCode? hFlagged hSane e,
    MinSize.within_below? g s e, ⟨?_, fun hOnward => ?_⟩,
    First.within_ofParts? hFlagged, fun hRuled =>
      hRuled.onward hSane e⟩
  · rintro ⟨depth, hSome⟩ i hReached
    exact not_transGen_of_acc (acc_of_isSome_within
      (fun _ i => (First.isSome_ofParts?_iff hFlagged i).mp) hSome)
      hReached
  · refine ⟨firstLevels g, ?_⟩
    rw [First.within_ofParts? hFlagged hOnward]
    rfl

/- Code after a lookahead for `y`, or a token `x`. -/
def scanned : Calls :=
  [.codeProduction "Hand" .java "void" "{}", .literal "y",
    .nonterminal "Hand" "",
    .lookaheadSequence (some 1) (some 0) none [1], .literal "x",
    .choice [3, 4], .production "Start" "void" "" 7]

theorem searches_end_scanned :
    ∃ g s, analyze scanned.built.grammar
        (.new twoAhead) = (g, s, .ok ()) ∧
      g.form 7 = .choice [3, 6] ∧ g.Onward 7 ∧
      within (beginsWithCode? g s) (g.expansions.size + 1) 7 =
        some (beginsWithCode g s 7) ∧
      within (MinSize.below? g s) (g.expansions.size + 1)
          ⟨[], 7, MinSize.infinite⟩ =
        some (MinSize.of g s 7) ∧
      within (First.ofParts? g s) (firstLevels g) 7 =
        some (firstOf g s 7) := by
  have hMade : Made scanned.built := by
    apply Calls.made_built
    simp only [ValidCalls, scanned, Call.Valid]
    decide +kernel
  have hResolved :
      (scanned.resolved twoAhead).2.diagnostics.errorCount = 0 := by
    cbv
  have hChecked : (Analysis.sanityCheck (scanned.resolved twoAhead).1
      (scanned.flagged twoAhead)).diagnostics.errorCount = 0 := by
    rw [Analysis.errorCount_sanityCheck]
    cbv
  have hPasses : analyze scanned.built.grammar
        (.new twoAhead) =
      ((scanned.resolved twoAhead).1,
        Analysis.sanityCheck (scanned.resolved twoAhead).1
          (scanned.flagged twoAhead),
        .ok ()) :=
    Calls.analyze_built rfl hResolved hChecked
  have hForm : (scanned.resolved twoAhead).1.form 7 = .choice [3, 6] := by
    decide +kernel
  have hFound : (within (First.ofParts? (scanned.resolved twoAhead).1
      (Analysis.sanityCheck (scanned.resolved twoAhead).1
        (scanned.flagged twoAhead)))
        6 7).isSome := by
    simp only [Analysis.sanityCheck_eq]
    cbv
  rcases searches_end hMade rfl hPasses 7 with
    ⟨hCode, hSize, hEnds, hFirst, -⟩
  have hOnward := hEnds.mp ⟨6, hFound⟩
  exact ⟨_, _, hPasses, hForm, hOnward, hCode, hSize,
    hFirst hOnward⟩

end Descent
