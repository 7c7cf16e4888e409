import Descent.Parser.MinSize

/-
  Measuring in a session.

  While something is being measured no size is looked up and
  none is remembered, and every expansion is taken off the
  marks once it has been measured.  So the tables are the same
  after a size has been measured for another one, and the size
  is what the marked expansions make it.  Only a query puts a
  size into the tables, and it starts without marks.

  Main declarations:
    * `MinSize.run_measureTo_succ` and
      `MinSize.gives_measureTo`
    * `MinSize.run_remembered_idle` and
      `MinSize.run_remembered_busy`
-/

------------------------------------------------------------
-- Parts of an expansion
------------------------------------------------------------

namespace Descent

namespace MinSize

/- Measuring gives a size and leaves the tables as they are. -/
def Gives
    (t : ParserTables)
    (measure : StateM ParserTables Nat)
    (size : Nat) : Prop :=
  measure.run t = (size, t)

section Parts

variable {t : ParserTables}

theorem gives_return
    (size : Nat) :
    Gives t (return size) size :=
  rfl

/- A measurement after another one. -/
theorem Gives.bind
    {measure : StateM ParserTables Nat}
    {size size' : Nat}
    {next : Nat → StateM ParserTables Nat}
    (hFirst : Gives t measure size)
    (hNext : Gives t (next size) size') :
    Gives t (measure >>= next) size' := by
  unfold Gives at hFirst hNext ⊢
  rw [StateT.run_bind, hFirst]
  exact hNext

theorem gives_measureLeast
    {measure : ExpId → Nat → StateM ParserTables Nat}
    {size : ExpId → Nat → Nat}
    (hEach : ∀ id bound,
      Gives t (measure id bound) (size id bound))
    (least : Nat)
    (alternatives : List ExpId) :
    Gives t (measureLeast measure least alternatives)
      (leastOf size least alternatives) := by
  induction alternatives generalizing least with
  | nil => exact gives_return least
  | cons alt alts ih =>
      unfold measureLeast leastOf
      split
      · exact gives_return least
      · exact (hEach alt least).bind (ih _)

theorem gives_measureSum
    {measure : ExpId → StateM ParserTables Nat}
    {size : ExpId → Nat}
    (hEach : ∀ id, Gives t (measure id) (size id))
    (bound sum : Nat)
    (units : List ExpId) :
    Gives t (measureSum measure bound sum units)
      (sumOf size bound sum units) := by
  induction units generalizing sum with
  | nil => exact gives_return sum
  | cons u us ih =>
      unfold measureSum sumOf
      apply (hEach u).bind
      dsimp only
      split
      · exact ih infinite
      · split
        · exact gives_return _
        · exact ih _

end Parts

------------------------------------------------------------
-- Measurements
------------------------------------------------------------

section Measurements

variable {g : Grammar} {s : Session} {t : ParserTables}

/- The size of an expansion from the sizes of its parts. -/
def fromParts
    (g : Grammar)
    (s : Session)
    (size : ExpId → Nat → Nat)
    (id : ExpId)
    (bound : Nat) : Nat :=
  match g.form id with
  | .terminal _ _ _ => 1
  | .nonterminal name _ _ =>
      match bodyOf? g s name with
      | some body => size body infinite
      | none => infinite
  | .choice alternatives => leastOf size bound alternatives
  | .sequence units => sumOf (size · infinite) bound 0 (units.drop 1)
  | .tryBlock body _ _ => size body infinite
  | .oneOrMore body => size body infinite
  | .zeroOrMore _ => 0
  | .zeroOrOne _ => 0
  | .action _ => 0
  | .lookahead _ => 0

theorem below_succ
    (depth : Nat)
    (open_ : List ExpId)
    (id : ExpId)
    (bound : Nat) :
    below g s (depth + 1) open_ id bound =
      if id ∈ open_ then infinite
      else
        fromParts g s (below g s depth (id :: open_)) id bound := by
  simp only [← List.contains_iff_mem]
  rfl

theorem gives_measureParts
    {measure : ExpId → Nat → StateM ParserTables Nat}
    {size : ExpId → Nat → Nat}
    (hEach : ∀ id bound,
      Gives t (measure id bound) (size id bound))
    (id : ExpId)
    (bound : Nat) :
    Gives t (measureParts g s measure id bound)
      (fromParts g s size id bound) := by
  unfold measureParts fromParts
  cases g.form id with
  | nonterminal name result args =>
      dsimp only
      cases bodyOf? g s name with
      | some body => exact hEach body infinite
      | none => exact gives_return infinite
  | choice alternatives =>
      exact gives_measureLeast hEach bound alternatives
  | sequence units =>
      exact gives_measureSum (fun u => hEach u infinite) bound 0
        (units.drop 1)
  | tryBlock body catches cleanup => exact hEach body infinite
  | oneOrMore body => exact hEach body infinite
  | terminal regex result member => exact gives_return 1
  | _ => exact gives_return 0

/- One level of a measurement. -/
theorem run_measureTo_succ
    (depth : Nat)
    (id : ExpId)
    (bound : Nat)
    (t : ParserTables) :
    (measureTo g s (depth + 1) id bound).run t =
      let outermost := bound == infinite && t.measuring.isEmpty
      match if outermost then Assoc.get? id t.minSizes
        else none with
      | some size => (size, t)
      | none =>
          if t.measuring.contains id then
            (infinite, t)
          else
            let measured :=
              (measureParts g s (measureTo g s depth) id
                bound).run
                { t with measuring := id :: t.measuring }
            let t' := { measured.2 with
              measuring := measured.2.measuring.erase id }
            (measured.1,
              if outermost then
                { t' with
                  minSizes :=
                    Assoc.insertSorted id measured.1 t'.minSizes }
              else t') := by
  rw [measureTo]
  dsimp only [get, getThe, MonadStateOf.get, StateT.get, bind,
    StateT.bind, StateT.run, pure]
  cases (bound == infinite && t.measuring.isEmpty) with
  | true =>
      rw [if_pos rfl]
      cases Assoc.get? id t.minSizes with
      | some size => rfl
      | none =>
          dsimp only
          cases t.measuring.contains id with
          | true => rfl
          | false => rfl
  | false =>
      rw [if_neg Bool.false_ne_true]
      dsimp only
      cases t.measuring.contains id with
      | true => rfl
      | false => rfl

/- Nothing is looked up or remembered for another measurement. -/
theorem gives_measureTo
    (depth : Nat)
    (id : ExpId)
    (bound : Nat)
    (hInside : t.measuring ≠ []) :
    Gives t (measureTo g s depth id bound)
      (below g s depth t.measuring id bound) := by
  induction depth generalizing id bound t with
  | zero => exact gives_return infinite
  | succ depth ih =>
      have hParts : Gives
          { t with measuring := id :: t.measuring }
          (measureParts g s (measureTo g s depth) id bound)
          (fromParts g s (below g s depth (id :: t.measuring))
            id bound) :=
        gives_measureParts (fun part bound' => ih part bound'
          (List.cons_ne_nil id t.measuring)) id bound
      have hNested : (bound == infinite &&
          t.measuring.isEmpty) = false := by
        rw [List.isEmpty_eq_false_iff.mpr hInside,
          Bool.and_false]
      unfold Gives at hParts ⊢
      rw [run_measureTo_succ, hNested, hParts, below_succ]
      simp only [Bool.false_eq_true, if_false,
        List.contains_iff_mem, List.erase_cons_head]
      split
      · rfl
      · rfl

/-
  A query finds a size in the tables, or measures it and puts
  it there; the marks are gone by then.
-/
theorem run_remembered_idle
    (hIdle : t.measuring = [])
    (id : ExpId) :
    (remembered g s id).run t =
      match Assoc.get? id t.minSizes with
      | some size => (size, t)
      | none =>
          (of g s id,
            { t with
              minSizes :=
                Assoc.insertSorted id (of g s id) t.minSizes }) := by
  have hParts : Gives { t with measuring := [id] }
      (measureParts g s (measureTo g s g.expansions.size) id
        infinite)
      (fromParts g s (below g s g.expansions.size [id]) id
        infinite) :=
    gives_measureParts (fun part bound =>
      gives_measureTo g.expansions.size part bound
        (List.cons_ne_nil id [])) id infinite
  have hSize : of g s id = fromParts g s
      (below g s g.expansions.size [id]) id infinite :=
    below_succ g.expansions.size [] id infinite
  unfold Gives at hParts
  unfold remembered
  rw [run_measureTo_succ, hIdle, hSize, hParts]
  cases Assoc.get? id t.minSizes with
  | some size => rfl
  | none => simp

/- A query in the middle of a measurement changes nothing. -/
theorem run_remembered_busy
    (hBusy : t.measuring ≠ [])
    (id : ExpId) :
    ((remembered g s id).run t).2 = t := by
  have hGives := gives_measureTo (g := g) (s := s)
    (g.expansions.size + 1) id infinite hBusy
  exact congrArg Prod.snd hGives

end Measurements

end MinSize

end Descent
