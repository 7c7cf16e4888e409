import Descent.Parser
import Descent.Proofs.Calls
import Descent.Proofs.Resolution

/-
  Queries for the fewest tokens of an expansion.

  The sizes that a session remembers were all measured with no
  other measurement going on, so each is the size that a new
  session would find.  A query changes nothing but what is
  remembered: what it is answered depends neither on earlier
  queries nor on their order.

  Main declarations:
    * `parser_analyze`
    * `Parser.minimumSize_step`
    * `Parser.afterQueries_run`
    * `Parser.minimumSize_independent`
-/

------------------------------------------------------------
-- The tables of an analyzed session
------------------------------------------------------------

namespace Descent

namespace Analysis

theorem parser_resolve
    (g : Grammar)
    (s : Session) :
    (resolve g s).2.parser = s.parser := by
  have hChecked : (called g s).MeetsEnd (checked g s).2 :=
    TokenTable.meetsEnd_checkSections _ _
  calc (resolve g s).2.parser
      = (checked g s).2.parser :=
        (alters_resolve g s).field (·.parser) fun _ => rfl
    _ = (called g s).parser :=
        hChecked.field (·.parser) fun _ => rfl
    _ = s.parser :=
        (entersNames_called g s).field (·.parser) fun _ => rfl

end Analysis

/- An analysis leaves the tables of the parser generator alone. -/
theorem parser_analyze
    (g : Grammar)
    (s : Session) :
    (analyze g s).2.1.parser = s.parser := by
  have hResolved := Analysis.parser_resolve g s
  unfold analyze
  generalize Analysis.resolve g s = r at hResolved
  rcases r with ⟨g', s'⟩
  dsimp only
  split
  · exact hResolved
  · have hFlags := Nullable.learns_passes g'
      (g'.productions.size + 1) 0 s'
    have hFlagged : (Nullable.raiseFlags g' s').1.parser =
        s'.parser :=
      hFlags.field (·.parser) fun _ => rfl
    dsimp only
    split
    · have hChecks := Analysis.followsLinks_sanityCheck g'
        (Nullable.raiseFlags g' s').1
      exact (hChecks.field (·.parser) fun _ => rfl).trans
        (hFlagged.trans hResolved)
    · exact hFlagged.trans hResolved

------------------------------------------------------------
-- Queries one after the other
------------------------------------------------------------

/- A session that remembers other sizes. -/
def Session.withSizes
    (s : Session)
    (sizes : Assoc ExpId Nat) : Session :=
  { s with parser := { s.parser with minSizes := sizes } }

namespace MinSize

variable {g : Grammar} {s : Session}

theorem below_withSizes
    (sizes : Assoc ExpId Nat)
    (depth : Nat)
    (open_ : List ExpId) :
    below g (s.withSizes sizes) depth open_ =
      below g s depth open_ := by
  induction depth generalizing open_ with
  | zero => rfl
  | succ depth ih =>
      funext id bound
      rw [below_succ, below_succ, ih]
      rfl

/- What is remembered has no influence on a size. -/
@[simp] theorem of_withSizes
    (sizes : Assoc ExpId Nat)
    (id : ExpId) :
    of g (s.withSizes sizes) id = of g s id :=
  congrFun (congrFun (below_withSizes sizes _ []) id) infinite

end MinSize

namespace Parser

open Speculation (Remembers)

/- The session after sizes have been asked for. -/
def afterQueries
    (g : Grammar)
    (s : Session)
    (queries : List ExpId) : Session :=
  queries.foldl (fun s id => (minimumSize g s id).2) s

section Queries

variable {g : Grammar} {s : Session}

/- The sizes in a session are right, and none is being measured. -/
def Settled
    (g : Grammar)
    (s : Session) : Prop :=
  Remembers g s s.parser

theorem settled_of_fresh
    (hFresh : s.parser = {}) :
    Settled g s := by
  unfold Settled
  rw [hFresh]
  exact ⟨List.forall_mem_nil _, rfl⟩

theorem Settled.withSizes_nil
    (hSettled : Settled g s) :
    Settled g (s.withSizes []) :=
  ⟨List.forall_mem_nil _, hSettled.idle⟩

/-
  A query is answered with the size, and afterwards the sizes
  in the session are still right.
-/
theorem minimumSize_step
    (hSettled : Settled g s)
    (id : ExpId) :
    ∃ sizes,
      minimumSize g s id = (MinSize.of g s id, s.withSizes sizes) ∧
        Settled g (s.withSizes sizes) := by
  rcases Speculation.remembered_step hSettled id with
    ⟨sizes, hRun, hSizes, hIdle⟩
  refine ⟨sizes, ?_, ?_, hIdle⟩
  · unfold minimumSize
    rw [hRun]
    rfl
  · intro e he
    rw [MinSize.of_withSizes]
    exact hSizes e he

/- Queries change what is remembered only. -/
theorem afterQueries_run
    (hSettled : Settled g s)
    (queries : List ExpId) :
    ∃ sizes, afterQueries g s queries = s.withSizes sizes ∧
      Settled g (s.withSizes sizes) := by
  induction queries generalizing s with
  | nil => exact ⟨s.parser.minSizes, rfl, hSettled⟩
  | cons id queries ih =>
      rcases minimumSize_step hSettled id with
        ⟨sizes, hStep, hNext⟩
      rcases ih hNext with ⟨sizes', hRun, hEnd⟩
      refine ⟨sizes', ?_, hEnd⟩
      unfold afterQueries at hRun ⊢
      rw [List.foldl_cons, hStep]
      exact hRun

/-
  From a session without sizes on, a query is answered as if
  nothing were remembered.
-/
theorem minimumSize_of_fresh
    (hFresh : s.parser = {})
    (earlier : List ExpId)
    (id : ExpId) :
    (minimumSize g (afterQueries g s earlier) id).1 =
        (minimumSize g ((afterQueries g s earlier).withSizes [])
          id).1 ∧
      (minimumSize g (afterQueries g s earlier) id).1 =
        (minimumSize g s id).1 ∧
      s.parser.minSizes = [] ∧
      (afterQueries g s earlier).parser.measuring = [] ∧
      (minimumSize g (afterQueries g s earlier)
        id).2.parser.measuring = [] := by
  have hStart : Settled g s := settled_of_fresh hFresh
  rcases afterQueries_run hStart earlier with
    ⟨sizes, hRun, hSettled⟩
  rw [hRun]
  rcases minimumSize_step hSettled id with
    ⟨sizes', hAnswer, hAfter⟩
  rcases minimumSize_step hSettled.withSizes_nil id with
    ⟨_, hForgotten, -⟩
  rcases minimumSize_step hStart id with ⟨_, hFirst, -⟩
  rw [hAnswer, hForgotten, hFirst]
  refine ⟨?_, ?_, ?_, hSettled.idle, hAfter.idle⟩
  · exact (MinSize.of_withSizes [] id).symm
  · exact MinSize.of_withSizes sizes id
  · rw [hFresh]

end Queries

/-
  In an analyzed session a query is answered as if nothing were
  remembered, whatever has been asked for before, and nothing
  is being measured before it and after it.
-/
theorem minimumSize_independent
    (g₀ : Grammar)
    (o : Options)
    (earlier : List ExpId)
    (id : ExpId) :
    let g := (analyze g₀ (.new o)).1
    let s := (analyze g₀ (.new o)).2.1
    let s' := afterQueries g s earlier
    (minimumSize g s' id).1 =
        (minimumSize g (s'.withSizes []) id).1 ∧
      (minimumSize g s' id).1 = (minimumSize g s id).1 ∧
      s.parser.minSizes = [] ∧
      s'.parser.measuring = [] ∧
      (minimumSize g s' id).2.parser.measuring = [] :=
  minimumSize_of_fresh (parser_analyze g₀ (.new o)) earlier id

end Parser

end Descent
