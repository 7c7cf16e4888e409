import Descent.Proofs.Handover
import Mathlib.Data.List.TakeDrop
import Mathlib.Order.Bounds.Basic
import Mathlib.Order.Lattice.Nat

/-
  Longest matches, and the scan of an automaton.

  Main declarations:
    * `LongestAfter`, `NoneAfter`, `Longest` and `NoMatch`
    * `LexState.reads` and `LexState.Recognizes`
    * `LexState.scan_spec`
-/

------------------------------------------------------------
-- Longest matches
------------------------------------------------------------

namespace Descent

open Text (maxUnit)

/- Which kinds match a text. -/
abbrev Matching : Type :=
  Nat → List Nat → Prop

/-
  The longest beginning of a text that is matched and longer
  than some number of units, and the least kind that matches
  it.
-/
structure LongestAfter
    (M : Matching)
    (least : Nat)
    (u : List Nat)
    (n k : Nat) : Prop where
  longer : least < n
  inside : n ≤ u.length
  kind : IsLeast { k | M k (u.take n) } k
  last :
    ∀ m, n < m → m ≤ u.length → ∀ k, ¬ M k (u.take m)

/- No beginning of a text beyond some units is matched. -/
def NoneAfter
    (M : Matching)
    (least : Nat)
    (u : List Nat) : Prop :=
  ∀ m, least < m → m ≤ u.length → ∀ k, ¬ M k (u.take m)

/- The longest beginning that is matched, and its least kind. -/
def Longest
    (M : Matching)
    (u : List Nat)
    (n k : Nat) : Prop :=
  LongestAfter M 0 u n k

/- No beginning but perhaps the empty one is matched. -/
def NoMatch
    (M : Matching)
    (u : List Nat) : Prop :=
  NoneAfter M 0 u

section Longest

variable {M : Matching} {least : Nat} {u : List Nat}

/- A nonempty set of kinds has a least one. -/
theorem exists_least
    {w : List Nat}
    (hSome : ∃ k, M k w) :
    ∃ k, IsLeast { k | M k w } k := by
  classical
  refine ⟨Nat.find hSome, Nat.find_spec hSome, ?_⟩
  intro k hk
  exact Nat.find_min' hSome hk

theorem LongestAfter.unique
    {n n' k k' : Nat}
    (hFirst : LongestAfter M least u n k)
    (hSecond : LongestAfter M least u n' k') :
    n = n' ∧ k = k' := by
  have hLength : n = n' := by
    refine le_antisymm ?_ ?_
    · by_contra hLess
      exact hSecond.last n (not_le.mp hLess) hFirst.inside k
        hFirst.kind.1
    · by_contra hLess
      exact hFirst.last n' (not_le.mp hLess) hSecond.inside k'
        hSecond.kind.1
  subst hLength
  exact ⟨rfl, hFirst.kind.unique hSecond.kind⟩

theorem LongestAfter.not_none
    {n k : Nat}
    (hLongest : LongestAfter M least u n k) :
    ¬ NoneAfter M least u := by
  intro hNone
  exact hNone n hLongest.longer hLongest.inside k
    hLongest.kind.1

/- Two ways to match agree on the least kind of a text. -/
structure SameLeast
    (M M' : Matching)
    (w : List Nat) : Prop where
  forth : ∀ k, M k w → M' k w
  back : ∀ k, M' k w → ∃ j ≤ k, M j w

theorem SameLeast.isLeast_iff
    {M' : Matching}
    {w : List Nat}
    (hSame : SameLeast M M' w)
    (k : Nat) :
    IsLeast { k | M k w } k ↔ IsLeast { k | M' k w } k := by
  constructor
  · intro hLeast
    refine ⟨hSame.forth k hLeast.1, ?_⟩
    intro j hj
    rcases hSame.back j hj with ⟨i, hLe, hi⟩
    exact (hLeast.2 hi).trans hLe
  · intro hLeast
    rcases hSame.back k hLeast.1 with ⟨j, hLe, hj⟩
    have hEq : j = k :=
      le_antisymm hLe (hLeast.2 (hSame.forth j hj))
    rw [hEq] at hj
    refine ⟨hj, ?_⟩
    intro i hi
    exact hLeast.2 (hSame.forth i hi)

theorem NoneAfter.congr
    {M' : Matching}
    (hSame : ∀ m ≤ u.length, SameLeast M M' (u.take m))
    (hNone : NoneAfter M least u) :
    NoneAfter M' least u := by
  intro m hAfter hLe k hk
  rcases (hSame m hLe).back k hk with ⟨j, -, hj⟩
  exact hNone m hAfter hLe j hj

theorem LongestAfter.congr
    {M' : Matching}
    {n k : Nat}
    (hSame : ∀ m ≤ u.length, SameLeast M M' (u.take m))
    (hLongest : LongestAfter M least u n k) :
    LongestAfter M' least u n k where
  longer := hLongest.longer
  inside := hLongest.inside
  kind :=
    ((hSame n hLongest.inside).isLeast_iff k).mp hLongest.kind
  last := NoneAfter.congr hSame hLongest.last

end Longest

------------------------------------------------------------
-- Reading
------------------------------------------------------------

/- All characters of a text are 16-bit units. -/
def IsUnits
    (w : List Nat) : Prop :=
  ∀ c ∈ w, c ≤ maxUnit

theorem IsUnits.take
    {w : List Nat}
    (hUnits : IsUnits w)
    (n : Nat) :
    IsUnits (w.take n) :=
  fun c hc => hUnits c (List.mem_of_mem_take hc)

namespace LexState

/- The state of the automaton after a text. -/
def reads
    (st : LexState)
    (w : List Nat) : Option Nat :=
  st.dfa.run st.alphabet st.dfa.start w

@[simp] theorem reads_nil
    (st : LexState) :
    st.reads [] = some st.dfa.start :=
  rfl

theorem reads_append
    (st : LexState)
    (w v : List Nat) :
    st.reads (w ++ v) =
      (st.reads w).bind fun q =>
        st.dfa.run st.alphabet q v := by
  unfold reads Dfa.run
  rw [List.foldlM_append]
  rfl

theorem reads_snoc
    (st : LexState)
    (w : List Nat)
    (c : Nat) :
    st.reads (w ++ [c]) =
      (st.reads w).bind fun q =>
        st.dfa.step? st.alphabet q c := by
  rw [reads_append]
  congr 1
  funext q
  exact bind_pure _

/- The automaton of a state recognizes some kinds. -/
structure Recognizes
    (st : LexState)
    (A : Matching) : Prop where
  accept :
    ∀ w, IsUnits w → ∀ q, st.reads w = some q →
      ∀ k, st.dfa.accept? q = some k ↔
        IsLeast { k | A k w } k
  dead :
    ∀ w, IsUnits w → st.reads w = none → ∀ k, ¬ A k w
  /- Without moves nothing is read. -/
  idle :
    st.hasNfa = false → ∀ c ≤ maxUnit,
      st.dfa.step? st.alphabet st.dfa.start c = none
  below : ∀ k w, A k w → k < noKind

section Recognizes

variable {st : LexState} {A : Matching}

theorem Recognizes.accept_none
    (hA : st.Recognizes A)
    {w : List Nat}
    (hUnits : IsUnits w)
    {q : Nat}
    (hReads : st.reads w = some q)
    (hNone : st.dfa.accept? q = none)
    (k : Nat) :
    ¬ A k w := by
  intro hk
  rcases exists_least ⟨k, hk⟩ with ⟨k₀, hLeast⟩
  rw [(hA.accept w hUnits q hReads k₀).mpr hLeast] at hNone
  cases hNone

/- Without moves no unit is read. -/
theorem Recognizes.reads_cons
    (hA : st.Recognizes A)
    (hNfa : st.hasNfa = false)
    {c : Nat}
    (hUnit : c ≤ maxUnit)
    (w : List Nat) :
    st.reads (c :: w) = none := by
  change (st.dfa.step? st.alphabet st.dfa.start c).bind _ = none
  rw [hA.idle hNfa c hUnit]
  rfl

theorem take_succ_eq
    {u : List Nat}
    {n c : Nat}
    (hGet : u[n]? = some c) :
    u.take (n + 1) = u.take n ++ [c] := by
  rw [List.take_add_one, hGet]
  rfl

/-
  A scan finds the longest match of the automaton beyond what
  has been read, or keeps the match so far.
-/
theorem scan_spec
    (hA : st.Recognizes A)
    {u : List Nat}
    (hUnits : IsUnits u)
    {n q : Nat}
    (hInside : n ≤ u.length)
    (hReads : st.reads (u.take n) = some q)
    (b : Nat × Int) :
    (∃ m k, LongestAfter A n u m k ∧
        st.scan q n b (u.drop n) = (k, (m : Int) - 1)) ∨
      (NoneAfter A n u ∧ st.scan q n b (u.drop n) = b) := by
  generalize hRest : u.drop n = rest
  induction rest generalizing n q b with
  | nil =>
      right
      refine ⟨?_, rfl⟩
      intro m hLess hLe
      have hEnd := List.drop_eq_nil_iff.mp hRest
      omega
  | cons c rest ih =>
      have hGet : u[n]? = some c := by
        have hHead := congrArg (fun xs => xs[0]?) hRest
        simpa [List.getElem?_drop] using hHead
      have hNext : u.drop (n + 1) = rest := by
        rw [← List.drop_drop, hRest]
        rfl
      have hLess : n < u.length :=
        (List.getElem?_eq_some_iff.mp hGet).1
      have hTake := take_succ_eq hGet
      have hStep : st.reads (u.take (n + 1)) =
          st.dfa.step? st.alphabet q c := by
        rw [hTake, reads_snoc, hReads]
        rfl
      unfold scan
      cases hTarget : st.dfa.step? st.alphabet q c with
      | none =>
          right
          refine ⟨?_, rfl⟩
          intro m hAfter hLe k
          -- What cannot be read cannot be read on.
          have hDead : st.reads (u.take m) = none := by
            have hSplit : u.take m =
                u.take (n + 1) ++ (u.take m).drop (n + 1) := by
              conv_lhs =>
                rw [← List.take_append_drop (n + 1) (u.take m)]
              rw [List.take_take, min_eq_left hAfter]
            rw [hSplit, reads_append, hStep, hTarget]
            rfl
          exact hA.dead _ (hUnits.take m) hDead k
      | some q' =>
          rw [hTarget] at hStep
          have hAccept := hA.accept _ (hUnits.take (n + 1)) q'
            hStep
          rcases ih hLess hStep (st.improve q' n b) hNext with
            ⟨m, k, hLongest, hScan⟩ | ⟨hNone, hScan⟩
          · left
            exact ⟨m, k,
              ⟨(Nat.lt_succ_self n).trans hLongest.longer,
                hLongest.inside, hLongest.kind,
                hLongest.last⟩, hScan⟩
          · dsimp only
            rw [hScan]
            unfold improve
            cases hKind : st.dfa.accept? q' with
            | none =>
                right
                refine ⟨?_, rfl⟩
                intro m hAfter hLe
                rcases Nat.lt_or_eq_of_le hAfter with
                  hLater | hHere
                · exact hNone m hLater hLe
                · rw [← hHere]
                  exact hA.accept_none (hUnits.take (n + 1))
                    hStep hKind
            | some k =>
                left
                refine ⟨n + 1, k, ⟨Nat.lt_succ_self n, hLess,
                  (hAccept k).mp hKind, hNone⟩, ?_⟩
                push_cast
                rw [add_sub_cancel_right]

end Recognizes

end LexState

end Descent
