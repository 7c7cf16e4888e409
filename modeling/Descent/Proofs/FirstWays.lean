import Descent.Proofs.FirstKinds
import Mathlib.Order.Monotone.Basic

/-
  What an expansion starts with, level by level.

  Where nothing calls code, an expansion starts with what it
  shows by itself and with what the parts start with that it
  enters.  If one level adds no expansion to those that start
  with a kind, no later level does.  So not more levels add one
  than there are expansions, and all depths from their number on
  give the same, even where a production calls itself on the
  left and no way down ends.

  Main declarations:
    * `Grammar.Shows` and `Grammar.Enters`
    * `has_firstTo_succ`
    * `firstTo_eq_of_size_le`
    * `firstOf_eq`
-/

------------------------------------------------------------
-- One level
------------------------------------------------------------

namespace Descent

/- Two results are one if they have the same kinds and guards. -/
theorem First.eq_of_has
    {a b : First}
    (hSame : ∀ m, a.Has m ↔ b.Has m) :
    a = b := by
  rcases a with ⟨⟨mask⟩, guarded⟩
  rcases b with ⟨⟨mask'⟩, guarded'⟩
  have hMask : mask = mask' :=
    Nat.eq_of_testBit_eq fun k =>
      Bool.eq_iff_iff.mpr (hSame (some k))
  have hGuarded : guarded = guarded' :=
    Bool.eq_iff_iff.mpr (hSame none)
  rw [hMask, hGuarded]

namespace Grammar

/-
  What an expansion shows by itself: a terminal its kind, and a
  sequence the guard at its head.
-/
def Shows
    (g : Grammar)
    (s : Session)
    (e : ExpId) : Option Kind → Prop
  | some k =>
      ∃ r result member, g.form e = .terminal r result member ∧
        (g.regex r).kind = k ∧ k < s.tokenCount
  | none =>
      ∃ la, g.headLookahead? e = some la ∧ la.guard.isSome = true

/- A unit is tried: the units before it may be empty. -/
def Tried
    (g : Grammar)
    (s : Session)
    (part : ExpId) : List ExpId → Prop
  | [] => False
  | u :: us =>
      part = u ∨ Nullable.nullable g s u = true ∧ Tried g s part us

theorem mem_of_tried
    {g : Grammar}
    {s : Session}
    {part : ExpId}
    {units : List ExpId}
    (hTried : g.Tried s part units) :
    part ∈ units := by
  induction units with
  | nil => exact hTried.elim
  | cons u us ih =>
      rcases hTried with rfl | ⟨-, hLater⟩
      · exact List.mem_cons_self
      · exact List.mem_cons_of_mem u (ih hLater)

theorem tried_congr
    {g g' : Grammar}
    {s : Session}
    {part : ExpId}
    {units : List ExpId}
    (hSame : ∀ u ∈ units,
      Nullable.nullable g' s u = Nullable.nullable g s u) :
    g'.Tried s part units ↔ g.Tried s part units := by
  induction units with
  | nil => exact Iff.rfl
  | cons u us ih =>
      unfold Tried
      rw [hSame u List.mem_cons_self,
        ih fun v hv => hSame v (List.mem_cons_of_mem u hv)]

/- An expansion starts with what a part starts with. -/
def Enters
    (g : Grammar)
    (s : Session)
    (part whole : ExpId) : Prop :=
  match g.form whole with
  | .nonterminal name _ _ => bodyOf? g s name = some part
  | .choice alternatives => part ∈ alternatives
  | .sequence units => g.Tried s part units
  | .oneOrMore body => part = body
  | .zeroOrMore body => part = body
  | .zeroOrOne body => part = body
  | .tryBlock body _ _ => part = body
  | .terminal _ _ _ => False
  | .action _ => False
  | .lookahead _ => False

end Grammar

section Levels

variable {g : Grammar} {s : Session}

theorem has_firstOfUnits
    (hCodeless : g.Codeless s)
    (first : ExpId → First)
    (seq : ExpId)
    (units : List ExpId)
    (previous : Option ExpId)
    (m : Option Kind) :
    (firstOfUnits g s first seq previous units).Has m ↔
      ∃ u, g.Tried s u units ∧ (first u).Has m := by
  induction units generalizing previous with
  | nil =>
      refine iff_of_false (First.not_has_empty m) ?_
      rintro ⟨u, hTried, -⟩
      exact hTried
  | cons u us ih =>
      have hSplit : (∃ v, g.Tried s v (u :: us) ∧ (first v).Has m) ↔
          (first u).Has m ∨ Nullable.nullable g s u = true ∧
            ∃ v, g.Tried s v us ∧ (first v).Has m := by
        constructor
        · rintro ⟨v, rfl | ⟨hEmpty, hTried⟩, hFirst⟩
          · exact .inl hFirst
          · exact .inr ⟨hEmpty, v, hTried, hFirst⟩
        · rintro (hFirst | ⟨hEmpty, v, hTried, hFirst⟩)
          · exact ⟨u, .inl rfl, hFirst⟩
          · exact ⟨v, .inr ⟨hEmpty, hTried⟩, hFirst⟩
      unfold firstOfUnits
      rw [hCodeless u, hSplit]
      dsimp only
      rw [if_neg Bool.false_ne_true]
      split
      · next hEmpty =>
          rw [First.has_union, ih, and_iff_right hEmpty]
      · next hKept =>
          exact (or_iff_left fun h => hKept h.1).symm

theorem Grammar.headLookahead?_eq_some
    {seq : ExpId}
    {la : Lookahead}
    (hHead : g.headLookahead? seq = some la) :
    ∃ head rest, g.form seq = .sequence (head :: rest) ∧
      g.form head = .lookahead la := by
  unfold Grammar.headLookahead? at hHead
  split at hHead
  · next head rest hForm =>
      split at hHead
      · next hLookahead =>
          cases hHead
          exact ⟨head, rest, hForm, hLookahead⟩
      · cases hHead
  · cases hHead

/- Only terminals and sequences show something by themselves. -/
theorem not_shows
    {e : ExpId}
    (hTerminal : ∀ r result member,
      g.form e ≠ .terminal r result member)
    (hSequence : ∀ units, g.form e ≠ .sequence units)
    (m : Option Kind) :
    ¬ g.Shows s e m := by
  cases m with
  | some k =>
      rintro ⟨r, result, member, hForm, -⟩
      exact hTerminal r result member hForm
  | none =>
      rintro ⟨la, hHead, -⟩
      rcases Grammar.headLookahead?_eq_some hHead with
        ⟨head, rest, hForm, -⟩
      exact hSequence _ hForm

theorem has_terminal
    {e : ExpId}
    {r : RegexId}
    {result member : Option String}
    (hForm : g.form e = .terminal r result member)
    (m : Option Kind) :
    First.Has
        { kinds := if (g.regex r).kind < s.tokenCount then
            KindSet.empty.insert (g.regex r).kind else {} } m ↔
      g.Shows s e m := by
  cases m with
  | none =>
      refine iff_of_false Bool.false_ne_true ?_
      rintro ⟨la, hHead, -⟩
      rcases Grammar.headLookahead?_eq_some hHead with
        ⟨head, rest, hSequence, -⟩
      rw [hForm] at hSequence
      cases hSequence
  | some k =>
      have hShows : g.Shows s e (some k) ↔
          (g.regex r).kind = k ∧ k < s.tokenCount := by
        unfold Grammar.Shows
        rw [hForm]
        simp
      rw [hShows]
      unfold First.Has
      dsimp only
      split
      · next hBelow =>
          rw [KindSet.contains_insert,
            or_iff_left (by simp [KindSet.empty, KindSet.contains])]
          constructor
          · rintro rfl
            exact ⟨rfl, hBelow⟩
          · exact fun h => h.1.symm
      · next hAbove =>
          refine iff_of_false (by simp [KindSet.contains]) ?_
          rintro ⟨rfl, hBelow⟩
          exact hAbove hBelow

/- The guard at the head is met besides those of the units. -/
theorem has_sequence
    {e : ExpId}
    {units : List ExpId}
    (hForm : g.form e = .sequence units)
    (f : First)
    (m : Option Kind) :
    First.Has
        { f with
          guarded := f.guarded ||
            ((g.headLookahead? e).bind (·.guard)).isSome } m ↔
      g.Shows s e m ∨ f.Has m := by
  cases m with
  | some k =>
      refine (or_iff_right ?_).symm
      rintro ⟨r, result, member, hSame, -⟩
      rw [hForm] at hSame
      cases hSame
  | none =>
      have hShows : g.Shows s e none ↔
          ((g.headLookahead? e).bind (·.guard)).isSome = true := by
        unfold Grammar.Shows
        cases g.headLookahead? e with
        | none => simp
        | some la => simp
      rw [hShows]
      unfold First.Has
      rw [Bool.or_eq_true, or_comm]

/-
  One level further down is what the expansion shows, and what
  is one level up for what it enters.
-/
theorem has_firstTo_succ
    (hCodeless : g.Codeless s)
    (depth : Nat)
    (e : ExpId)
    (m : Option Kind) :
    (firstTo g s (depth + 1) e).Has m ↔
      g.Shows s e m ∨
        ∃ part, g.Enters s part e ∧
          (firstTo g s depth part).Has m := by
  obtain ⟨first, hFirst⟩ : ∃ first, firstTo g s depth = first :=
    ⟨_, rfl⟩
  have hBody : ∀ body, (first body).Has m ↔
      ∃ part, part = body ∧ (first part).Has m :=
    fun body => by rw [exists_eq_left]
  rw [hFirst]
  unfold Grammar.Enters firstTo
  rw [hFirst]
  cases hForm : g.form e with
  | terminal r result member =>
      dsimp only
      simp only [false_and, exists_false, or_false]
      exact has_terminal hForm m
  | sequence units =>
      dsimp only
      rw [← has_firstOfUnits hCodeless first e units none m]
      exact has_sequence hForm _ m
  | nonterminal name result args =>
      rw [or_iff_right (not_shows (by simp [hForm])
        (by simp [hForm]) m)]
      dsimp only
      cases hFound : bodyOf? g s name with
      | none => simpa using First.not_has_empty m
      | some body => simp
  | choice alternatives =>
      rw [or_iff_right (not_shows (by simp [hForm])
        (by simp [hForm]) m)]
      dsimp only
      rw [First.has_unions]
      simp only [List.mem_map, exists_exists_and_eq_and]
  | oneOrMore body =>
      rw [or_iff_right (not_shows (by simp [hForm])
        (by simp [hForm]) m)]
      exact hBody body
  | zeroOrMore body =>
      rw [or_iff_right (not_shows (by simp [hForm])
        (by simp [hForm]) m)]
      exact hBody body
  | zeroOrOne body =>
      rw [or_iff_right (not_shows (by simp [hForm])
        (by simp [hForm]) m)]
      exact hBody body
  | tryBlock body catches cleanup =>
      rw [or_iff_right (not_shows (by simp [hForm])
        (by simp [hForm]) m)]
      exact hBody body
  | action code =>
      rw [or_iff_right (not_shows (by simp [hForm])
        (by simp [hForm]) m)]
      simpa using First.not_has_empty m
  | lookahead la =>
      rw [or_iff_right (not_shows (by simp [hForm])
        (by simp [hForm]) m)]
      simpa using First.not_has_empty m

theorem firstTo_lookahead
    {e : ExpId}
    {la : Lookahead}
    (hForm : g.form e = .lookahead la)
    (depth : Nat) :
    firstTo g s depth e = {} := by
  cases depth with
  | zero => rfl
  | succ depth =>
      unfold firstTo
      rw [hForm]

theorem firstTo_action
    {e : ExpId}
    {code : String}
    (hForm : g.form e = .action code)
    (depth : Nat) :
    firstTo g s depth e = {} := by
  cases depth with
  | zero => rfl
  | succ depth =>
      unfold firstTo
      rw [hForm]

theorem nullable_lookahead
    {e : ExpId}
    {la : Lookahead}
    (hForm : g.form e = .lookahead la) :
    Nullable.nullable g s e = true := by
  unfold Nullable.nullable Nullable.nullableTo
  rw [hForm]

/- A sequence starts with its guard and with what is tried. -/
theorem has_headed
    (hCodeless : g.Codeless s)
    {e head : ExpId}
    {la : Lookahead}
    {rest : List ExpId}
    (hForm : g.form e = .sequence (head :: rest))
    (hHead : g.form head = .lookahead la)
    (depth : Nat)
    (m : Option Kind) :
    (firstTo g s (depth + 1) e).Has m ↔
      (m = none ∧ la.guard.isSome = true) ∨
        ∃ u, g.Tried s u rest ∧ (firstTo g s depth u).Has m := by
  have hShows : g.Shows s e m ↔
      m = none ∧ la.guard.isSome = true := by
    unfold Grammar.Shows Grammar.headLookahead?
    rw [hForm]
    dsimp only
    rw [hHead]
    cases m with
    | some k => simp
    | none => simp
  rw [has_firstTo_succ hCodeless, hShows]
  refine or_congr_right (exists_congr fun u => ?_)
  unfold Grammar.Enters
  rw [hForm]
  constructor
  · rintro ⟨rfl | ⟨-, hTried⟩, hHas⟩
    · rw [firstTo_lookahead hHead] at hHas
      exact absurd hHas (First.not_has_empty m)
    · exact ⟨hTried, hHas⟩
  · rintro ⟨hTried, hHas⟩
    exact ⟨.inr ⟨nullable_lookahead hHead, hTried⟩, hHas⟩

/- What starts with something is there. -/
theorem lt_size_of_has
    {depth : Nat}
    {e : ExpId}
    {m : Option Kind}
    (hHas : (firstTo g s depth e).Has m) :
    e < g.expansions.size := by
  cases depth with
  | zero => exact absurd hHas (First.not_has_empty m)
  | succ depth =>
      apply Grammar.lt_size_of_expansion
      intro hForm
      unfold firstTo at hHas
      rw [hForm] at hHas
      exact First.not_has_empty m hHas

/- Deeper levels have no less. -/
theorem has_firstTo_of_le
    (hCodeless : g.Codeless s)
    {depth depth' : Nat}
    (hDepth : depth ≤ depth')
    {e : ExpId}
    {m : Option Kind}
    (hHas : (firstTo g s depth e).Has m) :
    (firstTo g s depth' e).Has m := by
  induction depth generalizing depth' e with
  | zero => exact absurd hHas (First.not_has_empty m)
  | succ depth ih =>
      obtain ⟨depth', rfl⟩ :=
        Nat.exists_eq_succ_of_ne_zero (Nat.ne_zero_of_lt hDepth)
      rw [has_firstTo_succ hCodeless] at hHas ⊢
      exact hHas.imp_right fun ⟨part, hEnters, hPart⟩ =>
        ⟨part, hEnters, ih (Nat.le_of_succ_le_succ hDepth) hPart⟩

------------------------------------------------------------
-- All levels
------------------------------------------------------------

/- The expansions that have a mark at some level. -/
def marked
    (g : Grammar)
    (s : Session)
    (m : Option Kind)
    (depth : Nat) : Finset ExpId :=
  (Finset.range g.expansions.size).filter fun e =>
    (firstTo g s depth e).Has m

theorem mem_marked
    {m : Option Kind}
    {depth : Nat}
    {e : ExpId} :
    e ∈ marked g s m depth ↔ (firstTo g s depth e).Has m := by
  unfold marked
  rw [Finset.mem_filter, Finset.mem_range]
  exact and_iff_right_of_imp lt_size_of_has

/- Once a level adds nothing, no level does. -/
theorem marked_succ_eq
    (hCodeless : g.Codeless s)
    {m : Option Kind}
    {depth : Nat}
    (hSame : marked g s m depth = marked g s m (depth + 1)) :
    marked g s m (depth + 1) = marked g s m (depth + 2) := by
  ext e
  rw [mem_marked, mem_marked, has_firstTo_succ hCodeless,
    has_firstTo_succ hCodeless]
  refine or_congr_right (exists_congr fun part => ?_)
  rw [← mem_marked, ← mem_marked, hSame]

/- Depths from the number of expansions on give the same. -/
theorem firstTo_eq_of_size_le
    (hCodeless : g.Codeless s)
    {depth : Nat}
    (hDepth : g.expansions.size ≤ depth)
    (e : ExpId) :
    firstTo g s depth e = firstTo g s g.expansions.size e := by
  refine First.eq_of_has fun m => ?_
  have hGrows : ∀ {d d'}, d ≤ d' →
      marked g s m d ⊆ marked g s m d' := by
    intro d d' hLe e hMem
    rw [mem_marked] at hMem ⊢
    exact has_firstTo_of_le hCodeless hLe hMem
  have hEq : ∀ {d d'}, d ≤ d' →
      (marked g s m d').card = (marked g s m d).card →
        marked g s m d = marked g s m d' :=
    fun hLe hCard =>
      Finset.eq_of_subset_of_card_le (hGrows hLe) hCard.le
  have hCard : (marked g s m depth).card =
      (marked g s m g.expansions.size).card := by
    refine Nat.stabilises_of_monotone
      (f := fun d => (marked g s m d).card) ?_ ?_ ?_ hDepth
    · exact fun d d' hLe => Finset.card_le_card (hGrows hLe)
    · intro d
      exact (Finset.card_filter_le _ _).trans_eq
        (Finset.card_range _)
    · intro d hCard
      rw [marked_succ_eq hCodeless
        (hEq (Nat.le_succ d) hCard.symm)]
  rw [← mem_marked, ← mem_marked, hEq hDepth hCard]

/- The depth of the search is more than enough. -/
theorem firstOf_eq
    (hCodeless : g.Codeless s)
    (e : ExpId) :
    firstOf g s e = firstTo g s g.expansions.size e := by
  unfold firstOf firstLevels
  generalize stackLevels = levels
  exact firstTo_eq_of_size_le hCodeless (by omega) e

end Levels

end Descent
