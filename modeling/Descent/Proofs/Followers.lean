import Descent.Proofs.ChoiceConflicts
import Descent.Proofs.WaysUp

/-
  The tokens that can follow an expansion.

  What follows an expansion begins what comes in between it and
  its owner, or follows its owner if that can be empty.  A body
  is followed by what follows the calls of its production.  If
  matches are complete once they have one token, a walk to
  followers comes to every expansion above once in its round, so
  it ends, and since the others are passed in the same round, no
  follower is lost where the walk comes by again.

  Main declarations:
    * `Grammar.FollowedBy` and `Grammar.followedBy_iff`
    * `Prefixes.Visits` and `Prefixes.Visits.complete_iff`
    * `Prefixes.Mapped.visits_followSetTo`
    * `Conflict.sidesOf_one`
    * `Conflict.checkRepetition_warns`
-/

------------------------------------------------------------
-- Followers
------------------------------------------------------------

namespace Descent

open scoped Computability

namespace Grammar

/- A token can be the next one after an expansion. -/
inductive FollowedBy
    (g : Grammar) : ExpId → Kind → Prop where
  /- It begins the rest of the sequence. -/
  | rest
      {id seq : ExpId}
      {before after : List ExpId}
      {k : Kind}
      (hForm : g.form seq = .sequence (before ++ id :: after))
      (hBegins : g.BeginsWith after k) :
      FollowedBy g id k
  /- It begins the body of a loop, which comes again. -/
  | again
      {id loop : ExpId}
      {k : Kind}
      (hForm : g.form loop = .oneOrMore id ∨
        g.form loop = .zeroOrMore id)
      (hBegins : g.BeginsWith [id] k) :
      FollowedBy g id k
  /- It follows the sequence, of which nothing is left. -/
  | afterSequence
      {id seq : ExpId}
      {before after : List ExpId}
      {k : Kind}
      (hForm : g.form seq = .sequence (before ++ id :: after))
      (hGone : g.Vanishes after)
      (hAbove : FollowedBy g seq k) :
      FollowedBy g id k
  /- It follows what the expansion is all of. -/
  | afterOwner
      {id owner : ExpId}
      {k : Kind}
      (hChild : g.ChildOf id owner)
      (hForm : ∀ units, g.form owner ≠ .sequence units)
      (hAbove : FollowedBy g owner k) :
      FollowedBy g id k
  /- It follows a call of the production of a body. -/
  | afterCall
      {body call : ExpId}
      {name args : String}
      {result : Option String}
      {k : Kind}
      (hReachable : g.Reachable call)
      (hCall : g.form call = .nonterminal name result args)
      (hDefines : g.Defines name body)
      (hAbove : FollowedBy g call k) :
      FollowedBy g body k

/- Tokens are met in between an expansion and its owner. -/
def Meets
    (g : Grammar)
    (id : ExpId)
    (tokens : List Kind) : Prop :=
  ∃ owner, g.ChildOf id owner ∧
    ∃ es ∈ g.between owner id, g.Stops 1 es tokens

section Followers

variable {g : Grammar} {id owner : ExpId} {k : Kind}

/- A part stands once in a sequence, and the rest is after it. -/
theorem unitsAfter_eq
    {before after : List ExpId}
    (hUnits : (before ++ id :: after).Nodup) :
    Prefixes.unitsAfter (before ++ id :: after) id = after := by
  have hOther : ∀ u ∈ before, (u != id) = true := by
    intro u hu
    rw [bne_iff_ne]
    rintro rfl
    exact (List.nodup_append.mp hUnits).2.2 u hu u
      List.mem_cons_self rfl
  unfold Prefixes.unitsAfter
  rw [List.dropWhile_append_of_pos hOther, List.dropWhile_cons_of_neg]
  · rfl
  · simp

theorem between_sequence
    (hOwned : g.Owned)
    {before after : List ExpId}
    (hForm : g.form owner = .sequence (before ++ id :: after)) :
    g.between owner id = {after} := by
  have hUnits := hOwned.parts owner
  unfold children at hUnits
  rw [hForm] at hUnits
  unfold between
  rw [hForm]
  dsimp only
  rw [unitsAfter_eq hUnits]

/- A body that is tried again begins like the body. -/
theorem stops_loop
    (hRuled : g.Ruled)
    (hKept : ¬ g.Vanishes [id])
    (hForm : g.form owner = .oneOrMore id ∨
      g.form owner = .zeroOrMore id) :
    (∃ es ∈ g.between owner id, g.Stops 1 es [k]) ↔
      g.BeginsWith [id] k := by
  have hBetween : g.between owner id =
      1 + {[id]} * {[id]}∗ := by
    unfold between
    rcases hForm with hForm | hForm
    · rw [hForm]
    · rw [hForm]
  have hBegins : ∀ es, g.Stops 1 es [k] ↔ g.BeginsWith es k := by
    intro es
    rw [hRuled.stops_one_iff]
    exact ⟨fun ⟨_, hSame, h⟩ => (List.cons.inj hSame).1 ▸ h,
      fun h => ⟨k, rfl, h⟩⟩
  simp only [hBetween, hBegins]
  constructor
  · rintro ⟨es, hNone | hMore, hHere⟩
    · cases hNone
      exact absurd hHere not_beginsWith_nil
    · rcases Language.mem_mul.mp hMore with
        ⟨_, rfl, fs, -, rfl⟩
      rcases beginsWith_append.mp hHere with
        hBody | ⟨hGone, -⟩
      · exact hBody
      · exact absurd hGone hKept
  · intro hBody
    exact ⟨[id] ++ [], .inr (Language.append_mem_mul rfl
      (Language.nil_mem_kstar _)), hBody⟩

/- A part is in a sequence, is tried again, or ends its owner. -/
theorem between_cases
    (hChild : g.ChildOf id owner) :
    (∃ before after,
        g.form owner = .sequence (before ++ id :: after)) ∨
      (∀ units, g.form owner ≠ .sequence units) ∧
        ((g.form owner = .oneOrMore id ∨
            g.form owner = .zeroOrMore id) ∧
          g.between owner id = 1 + {[id]} * {[id]}∗ ∨
        g.between owner id = 1) := by
  unfold ChildOf children at hChild
  unfold between
  cases hForm : g.form owner with
  | sequence units =>
      rw [hForm] at hChild
      rcases List.append_of_mem hChild with ⟨before, after, rfl⟩
      exact .inl ⟨before, after, rfl⟩
  | oneOrMore body =>
      rw [hForm] at hChild
      cases List.mem_singleton.mp hChild
      exact .inr ⟨nofun, .inl ⟨.inl rfl, rfl⟩⟩
  | zeroOrMore body =>
      rw [hForm] at hChild
      cases List.mem_singleton.mp hChild
      exact .inr ⟨nofun, .inl ⟨.inr rfl, rfl⟩⟩
  | _ => exact .inr ⟨nofun, .inr rfl⟩

section Sane

variable (hOwned : g.Owned) (hRuled : g.Ruled) (hSane : g.Sane)

include hOwned hSane

theorem not_vanishes_body
    (hReachable : g.Reachable id)
    (hForm : g.form owner = .oneOrMore id ∨
      g.form owner = .zeroOrMore id) :
    g.ChildOf id owner ∧ ¬ g.Vanishes [id] := by
  have hChild : g.ChildOf id owner := by
    rcases hForm with hForm | hForm
    · exact childOf_of_parts? hForm rfl List.mem_cons_self
    · exact childOf_of_parts? hForm rfl List.mem_cons_self
  have hConsumes := hSane.consumes owner
    (hOwned.reachable_owner hReachable hChild)
  unfold Consumes at hConsumes
  rcases hForm with hForm | hForm
  · rw [hForm] at hConsumes
    exact ⟨hChild, hConsumes⟩
  · rw [hForm] at hConsumes
    exact ⟨hChild, hConsumes⟩

include hRuled

/- Tokens are met in between at once, or on the way up. -/
theorem FollowedBy.exists_meets
    (hFollowed : g.FollowedBy id k)
    (hReachable : g.Reachable id) :
    ∃ y, Relation.ReflTransGen g.Passes id y ∧
      g.Meets y [k] := by
  induction hFollowed with
  | @rest id seq before after k hForm hBegins =>
      refine ⟨id, .refl, seq, ?_, after, ?_, ?_⟩
      · exact childOf_of_sequence hForm
          (List.mem_append_right before List.mem_cons_self)
      · rw [between_sequence hOwned hForm]
        exact rfl
      · exact hRuled.stops_one_iff.mpr ⟨k, rfl, hBegins⟩
  | @again id loop k hForm hBegins =>
      rcases not_vanishes_body hOwned hSane hReachable hForm with
        ⟨hChild, hKept⟩
      exact ⟨id, .refl, loop, hChild,
        (stops_loop hRuled hKept hForm).mpr hBegins⟩
  | @afterSequence id seq before after k hForm hGone hAbove ih =>
      have hChild : g.ChildOf id seq :=
        childOf_of_sequence hForm
          (List.mem_append_right before List.mem_cons_self)
      rcases ih (hOwned.reachable_owner hReachable hChild) with
        ⟨y, hWay, hMeets⟩
      refine ⟨y, hWay.head (.owner hChild ?_ hGone), hMeets⟩
      rw [between_sequence hOwned hForm]
      exact rfl
  | @afterOwner id owner k hChild hForm hAbove ih =>
      rcases ih (hOwned.reachable_owner hReachable hChild) with
        ⟨y, hWay, hMeets⟩
      refine ⟨y, hWay.head (.owner hChild ?_ vanishes_nil),
        hMeets⟩
      rcases between_cases hChild with
        ⟨before, after, hSequence⟩ | ⟨-, ⟨-, hLoop⟩ | hOne⟩
      · exact absurd hSequence (hForm _)
      · rw [hLoop]
        exact .inl rfl
      · rw [hOne]
        exact rfl
  | @afterCall body call name args result k hCaller hCall
      hDefines hAbove ih =>
      rcases ih hCaller with ⟨y, hWay, hMeets⟩
      exact ⟨y, hWay.head (.call hCaller hCall hDefines), hMeets⟩

/- What is met in between follows. -/
theorem Meets.followedBy
    (hMeets : g.Meets id [k])
    (hReachable : g.Reachable id) :
    g.FollowedBy id k := by
  rcases hMeets with ⟨owner, hChild, es, hes, hStops⟩
  rcases between_cases hChild with
    ⟨before, after, hForm⟩ | ⟨-, ⟨hForm, -⟩ | hOne⟩
  · rw [between_sequence hOwned hForm] at hes
    cases hes
    rcases hRuled.stops_one_iff.mp hStops with
      ⟨k', hSame, hBegins⟩
    cases hSame
    exact .rest hForm hBegins
  · have hKept :=
      (not_vanishes_body hOwned hSane hReachable hForm).2
    exact .again hForm
      ((stops_loop hRuled hKept hForm).mp ⟨es, hes, hStops⟩)
  · rw [hOne] at hes
    cases hes
    exact absurd hStops (not_stops_nil Nat.one_pos)

omit hRuled hSane in
/- What follows where the way up passes by, follows. -/
theorem Passes.followedBy
    {above : ExpId}
    (hPasses : g.Passes id above)
    (hAbove : g.FollowedBy above k) :
    g.FollowedBy id k := by
  cases hPasses with
  | owner hChild hBetween hGone =>
      rcases between_cases hChild with
        ⟨before, after, hForm⟩ | ⟨hForm, -⟩
      · rw [between_sequence hOwned hForm] at hBetween
        cases hBetween
        exact .afterSequence hForm hGone hAbove
      · exact .afterOwner hChild hForm hAbove
  | call hReachable hCall hDefines =>
      exact .afterCall hReachable hCall hDefines hAbove

/-
  The followers of an expansion are what is met in between, at
  any expansion to which a way up comes.
-/
theorem followedBy_iff
    (hReachable : g.Reachable id) :
    g.FollowedBy id k ↔
      ∃ y, Relation.ReflTransGen g.Passes id y ∧
        g.Meets y [k] := by
  constructor
  · exact fun hFollowed =>
      hFollowed.exists_meets hOwned hRuled hSane hReachable
  · rintro ⟨y, hWay, hMeets⟩
    induction hWay using Relation.ReflTransGen.head_induction_on
      with
    | refl =>
        exact hMeets.followedBy hOwned hRuled hSane hReachable
    | head hStep _ ih =>
        exact hStep.followedBy hOwned
          (ih (hStep.reachable hOwned hReachable))

end Sane

end Followers

end Grammar

------------------------------------------------------------
-- Expansions that are visited
------------------------------------------------------------

namespace Prefixes

/-
  What a walk to followers leaves behind in a round.  It marks
  what ways lead to from where it starts, unless that was
  marked before, and puts aside what is met there.
-/
structure Visits
    (c : Setting)
    (round : Nat)
    (starts : List ExpId)
    (w w' : Progress) : Prop where
  next : w.nextId ≤ w'.nextId
  keeps : ∀ y, w.Marked round y → w'.Marked round y
  begins : ∀ x ∈ starts, w'.Marked round x
  reaches : ∀ y, w'.Marked round y → w.Marked round y ∨
    ∃ x ∈ starts, Relation.ReflTransGen c.grammar.Passes x y
  closed : ∀ y above, w'.Marked round y →
    c.grammar.Passes y above →
      w.Marked round y ∨ w'.Marked round above
  complete : ∀ tokens, w'.Holds tokens ↔
    w.Holds tokens ∨ ∃ y, ¬ w.Marked round y ∧
      w'.Marked round y ∧ c.grammar.Meets y tokens

section Visits

variable {c : Setting} {round : Nat}
variable {x : ExpId} {xs ys : List ExpId}
variable {w w₁ w' : Progress}

theorem visits_nil
    (w : Progress) :
    Visits c round [] w w where
  next := le_rfl
  keeps _ h := h
  begins _ hx := nomatch hx
  reaches _ h := .inl h
  closed _ _ h _ := .inl h
  complete _ := by
    refine (or_iff_left ?_).symm
    rintro ⟨y, hNew, hMarked, -⟩
    exact hNew hMarked

/- Where a walk was before in this round, it is not again. -/
theorem visits_marked
    (hMarked : w.Marked round x) :
    Visits c round [x] w w :=
  { visits_nil w with
    begins := fun _ hx => List.mem_singleton.mp hx ▸ hMarked
    reaches := fun _ h => .inl h }

/- Two walks, one after the other. -/
theorem Visits.andThen
    (hFirst : Visits c round xs w w₁)
    (hSecond : Visits c round ys w₁ w') :
    Visits c round (xs ++ ys) w w' where
  next := hFirst.next.trans hSecond.next
  keeps y h := hSecond.keeps y (hFirst.keeps y h)
  begins x hx := by
    rcases List.mem_append.mp hx with hx | hx
    · exact hSecond.keeps x (hFirst.begins x hx)
    · exact hSecond.begins x hx
  reaches y hMarked := by
    rcases hSecond.reaches y hMarked with hOld | ⟨x, hx, hWay⟩
    · refine (hFirst.reaches y hOld).imp_right ?_
      rintro ⟨x, hx, hWay⟩
      exact ⟨x, List.mem_append_left ys hx, hWay⟩
    · exact .inr ⟨x, List.mem_append_right xs hx, hWay⟩
  closed y above hMarked hPasses := by
    rcases hSecond.closed y above hMarked hPasses with
      hOld | hThere
    · exact (hFirst.closed y above hOld hPasses).imp_right
        (hSecond.keeps above)
    · exact .inr hThere
  complete tokens := by
    rw [hSecond.complete, hFirst.complete, or_assoc]
    refine or_congr_right ⟨?_, ?_⟩
    · rintro (⟨y, hNew, hMarked, hMeets⟩ |
        ⟨y, hNew, hMarked, hMeets⟩)
      · exact ⟨y, hNew, hSecond.keeps y hMarked, hMeets⟩
      · exact ⟨y, fun h => hNew (hFirst.keeps y h), hMarked,
          hMeets⟩
    · rintro ⟨y, hNew, hMarked, hMeets⟩
      by_cases hThere : w₁.Marked round y
      · exact .inl ⟨y, hNew, hThere, hMeets⟩
      · exact .inr ⟨y, hThere, hMarked, hMeets⟩

/- A step up from an expansion, and a walk from where it leads. -/
theorem Visits.step
    (hRest : Visits c round ys w₁ w')
    (hNew : ¬ w.Marked round x)
    (hNext : w.nextId ≤ w₁.nextId)
    (hMarks : w₁.marks = (w.withMark round x).marks)
    (hPasses : ∀ above, c.grammar.Passes x above ↔ above ∈ ys)
    (hComplete : ∀ tokens, w₁.Holds tokens ↔
      w.Holds tokens ∨ c.grammar.Meets x tokens) :
    Visits c round [x] w w' := by
  have hHere := marked_of_marks hMarks
  have hStarts : w'.Marked round x :=
    hRest.keeps x ((hHere x).mpr (.inl rfl))
  constructor
  · exact hNext.trans hRest.next
  · exact fun y h => hRest.keeps y ((hHere y).mpr (.inr h))
  · exact fun _ hx => List.mem_singleton.mp hx ▸ hStarts
  · intro y hMarked
    rcases hRest.reaches y hMarked with hOld | ⟨above, hAbove, hWay⟩
    · refine ((hHere y).mp hOld).symm.imp_right ?_
      rintro rfl
      exact ⟨y, List.mem_singleton_self y, .refl⟩
    · exact .inr ⟨x, List.mem_singleton_self x,
        hWay.head ((hPasses above).mpr hAbove)⟩
  · intro y above hMarked hStep
    rcases hRest.closed y above hMarked hStep with hOld | hThere
    · rcases (hHere y).mp hOld with rfl | hBefore
      · exact .inr (hRest.begins above ((hPasses above).mp hStep))
      · exact .inl hBefore
    · exact .inr hThere
  · intro tokens
    rw [hRest.complete, hComplete, or_assoc]
    refine or_congr_right ⟨?_, ?_⟩
    · rintro (hMeets | ⟨y, hFresh, hMarked, hMeets⟩)
      · exact ⟨x, hNew, hStarts, hMeets⟩
      · exact ⟨y, fun h => hFresh ((hHere y).mpr (.inr h)),
          hMarked, hMeets⟩
    · rintro ⟨y, hFresh, hMarked, hMeets⟩
      by_cases hSame : y = x
      · exact .inl (hSame ▸ hMeets)
      · refine .inr ⟨y, fun h => ?_, hMarked, hMeets⟩
        exact ((hHere y).mp h).elim hSame hFresh

/-
  A walk in a round of its own comes to all that ways lead to,
  and puts aside all that is met there.
-/
theorem Visits.complete_iff
    (hVisits : Visits c round [x] w w')
    (hNone : ∀ y, ¬ w.Marked round y)
    (tokens : List Kind) :
    w'.Holds tokens ↔
      w.Holds tokens ∨
        ∃ y, Relation.ReflTransGen c.grammar.Passes x y ∧
          c.grammar.Meets y tokens := by
  have hMarked : ∀ y, w'.Marked round y ↔
      Relation.ReflTransGen c.grammar.Passes x y := by
    intro y
    constructor
    · intro hHere
      rcases hVisits.reaches y hHere with hOld | ⟨_, hx, hWay⟩
      · exact absurd hOld (hNone y)
      · exact List.mem_singleton.mp hx ▸ hWay
    · intro hWay
      induction hWay with
      | refl => exact hVisits.begins x (List.mem_singleton_self x)
      | tail _ hStep ih =>
          exact (hVisits.closed _ _ ih hStep).resolve_left
            (hNone _)
  rw [hVisits.complete]
  simp only [hMarked, hNone, not_false_eq_true, true_and]

------------------------------------------------------------
-- Walks that visit
------------------------------------------------------------

/- The expansions that are not marked in a round. -/
def unmarked
    (c : Setting)
    (round : Nat)
    (w : Progress) : Finset ExpId :=
  (Finset.range c.grammar.expansions.size).filter fun y =>
    ¬ w.Marked round y

theorem Visits.unmarked_subset
    (hVisits : Visits c round xs w w') :
    unmarked c round w' ⊆ unmarked c round w := by
  intro y hy
  rcases Finset.mem_filter.mp hy with ⟨hInside, hFresh⟩
  exact Finset.mem_filter.mpr
    ⟨hInside, fun h => hFresh (hVisits.keeps y h)⟩

/- With a mark, fewer expansions are left. -/
theorem card_unmarked_lt
    (hNew : ¬ w.Marked round x)
    (hInside : x < c.grammar.expansions.size)
    (hMarks : w₁.marks = (w.withMark round x).marks) :
    (unmarked c round w₁).card < (unmarked c round w).card := by
  have hHere := marked_of_marks hMarks
  apply Finset.card_lt_card
  rw [Finset.ssubset_iff_of_subset]
  · refine ⟨x, Finset.mem_filter.mpr
      ⟨Finset.mem_range.mpr hInside, hNew⟩, fun h => ?_⟩
    exact (Finset.mem_filter.mp h).2 ((hHere x).mpr (.inl rfl))
  · intro y hy
    rcases Finset.mem_filter.mp hy with ⟨hThere, hFresh⟩
    exact Finset.mem_filter.mpr
      ⟨hThere, fun h => hFresh ((hHere y).mpr (.inr h))⟩

end Visits

section Walks

variable {c : Setting} {round : Nat}

/- A step up from a part, where one token is enough. -/
theorem Mapped.visits_climb
    (hMapped : Mapped c)
    (hLimit : c.limit = 1)
    {x owner : ExpId}
    (hChild : c.grammar.ChildOf x owner)
    (hAbove : c.grammar.Reachable owner)
    (hPasses : ∀ above, c.grammar.Passes x above ↔
      above = owner ∧ ∃ es ∈ c.grammar.between owner x,
        c.grammar.Vanishes es)
    (hOnly : ∀ owner', c.grammar.ChildOf x owner' →
      owner' = owner)
    {ms : List Match}
    {w : Progress}
    (hSome : ms ≠ [])
    (hFits : Fits c.limit 0 ms w)
    (hNew : ¬ w.Marked round x)
    (beyond : Walk (List Match))
    {depth : Nat}
    (hRest : ∀ ms' w₁, ms' ≠ [] → Fits c.limit 0 ms' w₁ →
      w₁.marks = (w.withMark round x).marks →
      (followSetTo c beyond depth ms' owner round).run w₁ =
          (followSetTo c (return []) depth ms' owner round).run
            w₁ ∧
        Visits c round [owner] w₁ ((followSetTo c (return [])
          depth ms' owner round).run w₁).2) :
    let w₁ := w.withMark round x
    (climb c beyond depth owner x ms round).run w₁ =
        (climb c (return []) depth owner x ms round).run w₁ ∧
      Visits c round [x] w ((climb c (return []) depth owner x ms
        round).run w₁).2 := by
  intro w₁
  have hRoom : 1 ≤ c.limit := hLimit.ge
  have hFits₁ : Fits c.limit 0 ms w₁ := ⟨hFits.long, hFits.short,
    hFits.known⟩
  have hAdvances := (takes_between hMapped.flagged hMapped.sane
    hMapped.unstopped hRoom hChild hAbove (return []) ms w₁
    hFits₁).2
  have hDivides := hMapped.divides hRoom hChild hAbove hFits₁
  have hGrown := hDivides.grown_eq_nil hLimit.le
  rw [hMapped.run_climb hRoom hChild hAbove hFits₁,
    hMapped.run_climb hRoom hChild hAbove hFits₁]
  generalize (between c (return []) owner x ms).run w₁ = r
    at hAdvances hDivides hGrown
  dsimp only
  rw [hGrown]
  dsimp only [ahead, List.isEmpty_nil]
  -- Matches are empty, so they are complete with one token.
  have hEmpty : ∀ m ∈ ms, m.tokens = [] := by
    intro m hm
    have hShort := hFits.short m hm
    rw [hLimit] at hShort
    exact List.eq_nil_of_length_eq_zero (Nat.lt_one_iff.mp hShort)
  have hComplete : ∀ tokens, r.2.Holds tokens ↔
      w.Holds tokens ∨ c.grammar.Meets x tokens := by
    intro tokens
    rw [hAdvances.complete]
    refine or_congr_right ⟨?_, ?_⟩
    · rintro ⟨m, hm, more, rfl, es, hes, hStops⟩
      rw [hEmpty m hm, hLimit] at hStops
      rw [hEmpty m hm]
      exact ⟨owner, hChild, es, hes, hStops⟩
    · rintro ⟨owner', hChild', es, hes, hStops⟩
      cases hOnly owner' hChild'
      rcases List.exists_mem_of_ne_nil ms hSome with ⟨m, hm⟩
      refine ⟨m, hm, tokens, ?_, es, hes, ?_⟩
      · rw [hEmpty m hm]
        rfl
      · rw [hEmpty m hm, hLimit]
        exact hStops
  split
  · next hNone =>
      refine ⟨rfl, (visits_nil r.2).step hNew hDivides.next
        hDivides.marks (fun above => iff_of_false ?_
          (List.not_mem_nil)) hComplete⟩
      -- A match that comes by without tokens is the same.
      intro hStep
      rcases (hPasses above).mp hStep with ⟨-, es, hes, hGone⟩
      rcases List.exists_mem_of_ne_nil ms hSome with ⟨m, hm⟩
      rcases (hAdvances.left []).mpr ⟨hRoom, m, hm, [], by
        rw [hEmpty m hm]; rfl, es, hes,
        Grammar.vanishes_iff_generates.mp hGone⟩ with ⟨m', hm', -⟩
      rw [List.isEmpty_iff] at hNone
      by_cases hOld : isOld ms m' = true
      · exact absurd (List.mem_filter.mpr ⟨hm', hOld⟩)
          (hNone ▸ List.not_mem_nil)
      · exact absurd (List.mem_filter.mpr ⟨hm', by simp [hOld]⟩)
          (hGrown ▸ List.not_mem_nil)
  · next hKept =>
      rw [List.isEmpty_iff] at hKept
      rcases hRest _ r.2 hKept hDivides.same hDivides.marks with
        ⟨hSame, hVisits⟩
      refine ⟨?_, ?_⟩
      · simp only [if_true]
        rw [hSame]
      · refine hVisits.step hNew hDivides.next hDivides.marks
          (fun above => ?_) hComplete
        rw [List.mem_singleton]
        refine ⟨fun hStep => ((hPasses above).mp hStep).1, ?_⟩
        rintro rfl
        exact hDivides.passes hKept

/- The same matches go on after all calls. -/
theorem visits_across
    (step step' : List Match → ExpId → Walk (List Match))
    {ms : List Match}
    {calls : List ExpId}
    {left : Nat}
    (hStep : ∀ call ∈ calls, ∀ w, Fits c.limit 0 ms w →
      (unmarked c round w).card < left →
        (step' ms call).run w = (step ms call).run w ∧
          Visits c round [call] w ((step ms call).run w).2)
    {w : Progress}
    (hFits : Fits c.limit 0 ms w)
    (hLeft : (unmarked c round w).card < left) :
    (across step' ms calls).run w = (across step ms calls).run w ∧
      Visits c round calls w ((across step ms calls).run w).2 := by
  induction calls generalizing w with
  | nil => exact ⟨rfl, visits_nil w⟩
  | cons call calls ih =>
      rw [List.forall_mem_cons] at hStep
      rcases hStep.1 w hFits hLeft with ⟨hSame, hHere⟩
      have hFewer := Finset.card_le_card hHere.unmarked_subset
      rcases ih hStep.2 (hFits.mono le_rfl hHere.next)
        (hFewer.trans_lt hLeft) with ⟨hRest, hThere⟩
      refine ⟨?_, hHere.andThen hThere⟩
      rw [across, across, run_bind, run_bind, run_bind, run_bind,
        hSame, hRest]

/-
  Where one token is enough, a walk visits what ways lead to,
  and it does not come to its bound.  With every step up there
  is one expansion less that is not marked.
-/
theorem Mapped.visits_followSetTo
    (hMapped : Mapped c)
    (hLimit : c.limit = 1)
    (beyond : Walk (List Match))
    {depth : Nat}
    {ms : List Match}
    {x : ExpId}
    {w : Progress}
    (hSome : ms ≠ [])
    (hFits : Fits c.limit 0 ms w)
    (hReachable : c.grammar.Reachable x)
    (hDepth : (unmarked c round w).card < depth) :
    (followSetTo c beyond depth ms x round).run w =
        (followSetTo c (return []) depth ms x round).run w ∧
      Visits c round [x] w ((followSetTo c (return []) depth ms x
        round).run w).2 := by
  induction depth generalizing ms x w with
  | zero => exact absurd hDepth (Nat.not_lt_zero _)
  | succ depth ih =>
      rw [run_followSetTo_succ c beyond depth hSome,
        run_followSetTo_succ c (return []) depth hSome]
      by_cases hMarked : w.Marked round x
      · rw [if_pos hMarked, if_pos hMarked]
        exact ⟨rfl, visits_marked hMarked⟩
      rw [if_neg hMarked, if_neg hMarked]
      have hInside := (hMapped.arranged.exists_holds hReachable).2
      have hFewer : ∀ {w₁ : Progress},
          w₁.marks = (w.withMark round x).marks →
          (unmarked c round w₁).card < depth :=
        fun hMarks => (card_unmarked_lt hMarked hInside
          hMarks).trans_le (Nat.le_of_lt_succ hDepth)
      have hPlaced := hMapped.placed hReachable
      generalize c.grammar.owner? x = owner? at hPlaced ⊢
      cases hPlaced with
      | @body p hCalls hWhole =>
          have hCallers : ∀ call ∈
              c.session.facts.callers.getD p [],
              c.grammar.Reachable call :=
            fun call hCall => ((hCalls call).mpr hCall).reachable
              hMapped.arranged.owned hReachable
          rcases visits_across
            (fun ms call => followSetTo c (return []) depth ms
              call round)
            (fun ms call => followSetTo c beyond depth ms call
              round)
            (fun call hCall w' hFits' hLess =>
              ih hSome hFits' (hCallers call hCall) hLess)
            (w := w.withMark round x)
            ⟨hFits.long, hFits.short, hFits.known⟩
            (hFewer rfl) with ⟨hSame, hVisits⟩
          refine ⟨hSame, hVisits.step hMarked le_rfl rfl hCalls
            fun tokens => (or_iff_left ?_).symm⟩
          rintro ⟨owner, hChild, -⟩
          exact hWhole owner hChild
      | @part owner hChild hAbove hPasses hOnly =>
          exact hMapped.visits_climb hLimit hChild hAbove hPasses
            hOnly hSome hFits hMarked beyond
            fun ms' w₁ hSome' hFits' hMarks =>
              ih hSome' hFits' hAbove (hFewer hMarks)

end Walks

theorem Visits.complete_iff_followedBy
    {c : Setting}
    (hMapped : Mapped c)
    (hRuled : c.grammar.Ruled)
    {round : Nat}
    {x : ExpId}
    (hReachable : c.grammar.Reachable x)
    {w w' : Progress}
    (hVisits : Visits c round [x] w w')
    (hNone : ∀ y, ¬ w.Marked round y)
    (tokens : List Kind) :
    w'.Holds tokens ↔
      w.Holds tokens ∨
        ∃ k, tokens = [k] ∧ c.grammar.FollowedBy x k := by
  have hFollowed : ∀ k, c.grammar.FollowedBy x k ↔ _ := fun k =>
    Grammar.followedBy_iff hMapped.arranged.owned hRuled
      hMapped.sane hReachable
  rw [hVisits.complete_iff hNone]
  refine or_congr_right ⟨?_, ?_⟩
  · rintro ⟨y, hWay, hMeets⟩
    rcases hMeets with ⟨owner, hChild, es, hes, hStops⟩
    rcases hRuled.stops_one_iff.mp hStops with ⟨k, rfl, -⟩
    exact ⟨k, rfl, (hFollowed k).mpr
      ⟨y, hWay, owner, hChild, es, hes, hStops⟩⟩
  · rintro ⟨k, rfl, hHere⟩
    exact (hFollowed k).mp hHere

end Prefixes

------------------------------------------------------------
-- Repetitions
------------------------------------------------------------

namespace Conflict

open Prefixes

/-
  What is compared for a repetition, with another walk that
  takes over at the bounds.
-/
def sidesTo
    (g : Grammar)
    (s : Session)
    (beyond : Walk (List Match))
    (id body : ExpId)
    (limit : Nat) : Walk (List Match × List Match) := do
  let guarded : Setting :=
    { grammar := g, session := s, limit := limit,
      stopAtGuards := !s.options.forceLaCheck }
  let full : Setting :=
    { grammar := g, session := s, limit := limit }
  let start ← emptyMatch
  let _ ← firstSetTo guarded beyond (firstDepth guarded) start
    body
  let first ← takeComplete
  let _ ← followSetTo full beyond (followDepth full) start id
    (← newRound)
  let follow ← takeComplete
  return (first, follow)

theorem sidesOf_eq
    (g : Grammar)
    (s : Session)
    (id body : ExpId)
    (limit : Nat) :
    sidesOf g s id body limit =
      ((sidesTo g s (return []) id body limit).run {}).1 :=
  rfl

/- First the body is walked through, then what follows. -/
theorem run_sidesTo
    (g : Grammar)
    (s : Session)
    (beyond : Walk (List Match))
    (id body : ExpId)
    (limit : Nat)
    (w : Progress) :
    (sidesTo g s beyond id body limit).run w =
      let guarded : Setting :=
        { grammar := g, session := s, limit := limit,
          stopAtGuards := !s.options.forceLaCheck }
      let full : Setting :=
        { grammar := g, session := s, limit := limit }
      let start := emptyMatch.run w
      let first := (firstSetTo guarded beyond
        (firstDepth guarded) start.1 body).run start.2
      let follow := (followSetTo full beyond (followDepth full)
        start.1 id first.2.nextRound).run
          { first.2 with
            complete := #[]
            nextRound := first.2.nextRound + 1 }
      ((first.2.complete.toList, follow.2.complete.toList),
        { follow.2 with complete := #[] }) :=
  rfl

/- The matches are the tokens that can follow an expansion. -/
structure FollowsAs
    (g : Grammar)
    (id : ExpId)
    (ms : List Match) : Prop where
  sized : ∀ m ∈ ms, m.tokens.length = 1
  among : ∀ k, Among [k] ms ↔ g.FollowedBy id k

theorem followsAs_of_holds
    {g : Grammar}
    {id : ExpId}
    {w : Progress}
    (hHolds : ∀ tokens, w.Holds tokens ↔
      ∃ k, tokens = [k] ∧ g.FollowedBy id k) :
    FollowsAs g id w.complete.toList := by
  constructor
  · intro m hm
    rcases (hHolds m.tokens).mp
      ⟨m, Array.mem_toList_iff.mp hm, rfl⟩ with ⟨k, hTokens, -⟩
    rw [hTokens, List.length_singleton]
  · intro k
    have hAmong : Among [k] w.complete.toList ↔ w.Holds [k] :=
      exists_congr fun _ =>
        and_congr_left fun _ => Array.mem_toList_iff
    rw [hAmong, hHolds]
    constructor
    · rintro ⟨k', hSame, hFollowed⟩
      cases hSame
      exact hFollowed
    · exact fun hFollowed => ⟨k, rfl, hFollowed⟩

/-
  For length one, a repetition is checked with what its body
  begins with and what follows, and no walk comes to its bound.
-/
theorem sidesOf_one
    {g : Grammar}
    {s : Session}
    (hMapped : Mapped
      { grammar := g, session := s, limit := 1 })
    (hRuled : g.Ruled)
    (hUnguarded : g.Unguarded)
    {id body : ExpId}
    (hReachable : g.Reachable id)
    (hBody : g.Reachable body) :
    (∀ beyond, (sidesTo g s beyond id body 1).run {} =
        (sidesTo g s (return []) id body 1).run {}) ∧
      StartsAs g 1 body (sidesOf g s id body 1).1 ∧
      FollowsAs g id (sidesOf g s id body 1).2 := by
  let guarded : Setting :=
    { grammar := g, session := s, limit := 1,
      stopAtGuards := !s.options.forceLaCheck }
  let full : Setting := { grammar := g, session := s, limit := 1 }
  let start := emptyMatch.run {}
  have hStart : Fits 1 0 start.1 start.2 :=
    fits_emptyMatch le_rfl {}
  -- The first walk, which comes by no guards.
  let r := (firstSet full start.1 body).run start.2
  have hTakes := fun beyond => takes_firstSet hMapped.flagged
    hMapped.sane hMapped.unstopped le_rfl hBody beyond start.1
    start.2 hStart
  have hFirst : ∀ beyond, (firstSetTo guarded beyond
      (firstDepth guarded) start.1 body).run start.2 = r := by
    intro beyond
    rw [firstSetTo_of_unguarded hUnguarded]
    exact (hTakes beyond).1
  have hHolds := (hTakes (return [])).2.of_emptyMatch.2
  simp only [not_holds_fresh, false_or] at hHolds
  -- The second walk, which starts without marks.
  let w : Progress := { r.2 with
    complete := #[]
    nextRound := r.2.nextRound + 1 }
  have hMarks : w.marks = [] :=
    (spares_firstSetTo hMapped.flagged.names (firstDepth full)
      body start.1 start.2).marks
  have hNone : ∀ y, ¬ w.Marked r.2.nextRound y := by
    intro y
    unfold Progress.Marked
    rw [hMarks]
    nofun
  have hFits : Fits 1 0 start.1 w :=
    ⟨hStart.long, hStart.short, fun m hm =>
      (hStart.known m hm).trans (hTakes (return [])).2.next⟩
  have hDepth : (unmarked full r.2.nextRound w).card <
      followDepth full := by
    have hFew := Finset.card_filter_le
      (Finset.range g.expansions.size)
      fun y => ¬ w.Marked r.2.nextRound y
    rw [Finset.card_range] at hFew
    refine hFew.trans_lt ?_
    change g.expansions.size <
      stackLevels + (1 + 2) * (g.expansions.size + 2)
    omega
  have hSome : start.1 ≠ [] := List.cons_ne_nil _ _
  have hVisits := fun beyond => hMapped.visits_followSetTo rfl
    beyond hSome hFits hReachable hDepth
  have hRun : ∀ beyond, (sidesTo g s beyond id body 1).run {} =
      let r' := (followSet full start.1 id r.2.nextRound).run w
      ((r.2.complete.toList, r'.2.complete.toList),
        { r'.2 with complete := #[] }) := by
    intro beyond
    rw [run_sidesTo]
    dsimp only
    rw [hFirst]
    exact congrArg (fun r' : List Match × Progress =>
      ((r.2.complete.toList, r'.2.complete.toList),
        { r'.2 with complete := #[] })) (hVisits beyond).1
  have hSides := (sidesOf_eq g s id body 1).trans
    (congrArg Prod.fst (hRun (return [])))
  rw [hSides]
  refine ⟨fun beyond => (hRun beyond).trans (hRun _).symm,
    startsAs_of_holds hRuled hHolds, followsAs_of_holds ?_⟩
  intro tokens
  refine ((hVisits (return [])).2.complete_iff_followedBy hMapped
    hRuled hReachable hNone tokens).trans (or_iff_right ?_)
  rintro ⟨m, hm, -⟩
  exact absurd hm (Array.not_mem_empty m)

/- A token that begins one expansion and can follow another. -/
def Doubtful
    (g : Grammar)
    (id body : ExpId)
    (k : Kind) : Prop :=
  g.BeginsWith [body] k ∧ g.FollowedBy id k

/- Both sides overlap if they have a token in common. -/
theorem overlap_followsAs
    {g : Grammar}
    {id body : ExpId}
    {first follow : List Match}
    (hFirst : StartsAs g 1 body first)
    (hFollow : FollowsAs g id follow) :
    (∃ m k, m.tokens = [k] ∧ Doubtful g id body k ∧
        overlap first follow = some m) ∨
      (∀ k, ¬ Doubtful g id body k) ∧
        overlap first follow = none := by
  have hBegins : ∀ k, Among [k] first ↔ g.BeginsWith [body] k :=
    fun k => (hFirst.among [k] rfl).trans
      Grammar.beginsWith_iff_starts.symm
  rcases overlap_sized le_rfl hFirst.sized hFollow.sized with
    ⟨m, hm, hShared, hOverlap⟩ | ⟨hApart, hOverlap⟩
  · rcases List.length_eq_one_iff.mp (hFirst.sized m hm) with
      ⟨k, hTokens⟩
    rw [hTokens] at hShared
    exact .inl ⟨m, k, hTokens,
      ⟨(hBegins k).mp ⟨m, hm, hTokens⟩,
        (hFollow.among k).mp hShared⟩, hOverlap⟩
  · refine .inr ⟨?_, hOverlap⟩
    rintro k ⟨hBegin, hFollowed⟩
    rcases (hBegins k).mpr hBegin with ⟨m, hm, hTokens⟩
    apply hApart m hm
    rw [hTokens]
    exact (hFollow.among k).mpr hFollowed

/- One length is tried, and no code is met in the body. -/
theorem checkRepetition_one
    {g : Grammar}
    {s : Session}
    (hOne : s.options.otherAmbiguityCheck = 1)
    {id body : ExpId}
    (hNoCode : (sidesOf g s id body 1).1.any
      (·.tokens.isEmpty) = false) :
    checkRepetition g s id body =
      match overlap (sidesOf g s id body 1).1
        (sidesOf g s id body 1).2 with
      | some m => s.warning (g.place id)
          (repetitionMessage (construct g id) (g.place id)
            (image g s m) 2 1)
      | none => s := by
  have hRaise : raiseRepetition g id body 1 1 none s =
      match overlap (sidesOf g s id body 1).1
        (sidesOf g s id body 1).2 with
      | some m => (s, 2, some m)
      | none => (s, 1, none) := by
    rw [raiseRepetition.eq_def]
    dsimp only
    rw [hNoCode]
    rfl
  unfold checkRepetition
  rw [hOne]
  dsimp only
  rw [hRaise]
  cases overlap (sidesOf g s id body 1).1
    (sidesOf g s id body 1).2 with
  | some m => rfl
  | none => rfl

/- The warning about a token that is in doubt. -/
def doubtMessage
    (g : Grammar)
    (s : Session)
    (id : ExpId)
    (k : Kind) : String :=
  repetitionMessage (construct g id) (g.place id)
    (kindImage g s k) 2 1

/-
  The check of a repetition for length one, in a grammar that
  has no productions written by hand and no guards, where no
  expansion stands in two places, and that passes all checks or
  would pass them.  No walk comes to its bounds, and there is a
  warning if a token can begin the body and can also follow the
  repetition; it names such a token.
-/
theorem checkRepetition_warns
    {b : Builder}
    (hMade : Made b)
    (hOwned : b.grammar.SinglyOwned)
    {o : Options}
    (hRuled : ∀ p ∈ b.grammar.productions, p.isCode = false)
    (hUnguarded : b.grammar.Unguarded)
    {g : Grammar}
    {s : Session}
    (hPasses : analyze b.grammar (.new o) = (g, s, .ok ()))
    (hSanity : o.sanityCheck = true ∨ g.Sane)
    (hOne : o.otherAmbiguityCheck = 1)
    {id body : ExpId}
    (hReachable : g.Reachable id)
    (hBody : g.Reachable body)
    (ds : Diagnostics) :
    let s' : Session := { s with diagnostics := ds }
    let result := checkRepetition g s' id body
    (∀ beyond, (sidesTo g s' beyond id body 1).run {} =
        (sidesTo g s' (return []) id body 1).run {}) ∧
      ((∃ k, Doubtful g id body k) →
        ∃ k, Doubtful g id body k ∧
          result = s'.warning (g.place id)
            (doubtMessage g s' id k)) ∧
      ((¬ ∃ k, Doubtful g id body k) → result = s') := by
  intro s' result
  have hOptions : s'.options.otherAmbiguityCheck = 1 := by
    have hSame : s.options = o := options_analyze hPasses
    exact (congrArg Options.otherAmbiguityCheck hSame).trans hOne
  have hSane : g.Sane := by
    rcases hSanity with hSanity | hSane
    · exact sane_analyze hMade hSanity hPasses
    · exact hSane
  have hMapped : Mapped
      { grammar := g, session := s', limit := 1 } :=
    { flagged := (flagged_analyze hMade hPasses).2.congr rfl rfl
      callers := (knowsCalls_analyze hMade hPasses).congr rfl rfl
      sane := hSane
      arranged := arranged_analyze hMade hOwned hPasses
      attributed := attributed_analyze hMade hOwned hPasses
      unstopped := rfl }
  rcases sidesOf_one hMapped (ruled_analyze hRuled hPasses)
    (unguarded_analyze hUnguarded hPasses) hReachable hBody with
    ⟨hEnds, hFirst, hFollow⟩
  have hNoCode : (sidesOf g s' id body 1).1.any
      (·.tokens.isEmpty) = false := by
    refine List.any_eq_false.mpr fun m hm => ?_
    rw [List.isEmpty_iff]
    exact List.ne_nil_of_length_eq_add_one (hFirst.sized m hm)
  have hResult : result = _ := checkRepetition_one hOptions hNoCode
  refine ⟨hEnds, ?_⟩
  rcases overlap_followsAs hFirst hFollow with
    ⟨m, k, hTokens, hDoubtful, hOverlap⟩ | ⟨hNone, hOverlap⟩
  · rw [hResult, hOverlap]
    refine ⟨fun _ => ⟨k, hDoubtful, ?_⟩, fun hNone =>
      absurd ⟨k, hDoubtful⟩ hNone⟩
    have hImage : image g s' m = kindImage g s' k := by
      unfold image
      rw [hTokens]
      rfl
    dsimp only
    rw [hImage]
    rfl
  · rw [hResult, hOverlap]
    exact ⟨fun ⟨k, hDoubtful⟩ => absurd hDoubtful (hNone k),
      fun _ => rfl⟩

/- A list calls itself after a comma, and one comes after it. -/
def trailing : Calls :=
  [.literal "x", .literal ",", .nonterminal "List" "",
    .sequence [1, 2], .zeroOrOne 4, .sequence [0, 5],
    .production "List" "void" "" 7, .nonterminal "List" "",
    .literal ",", .sequence [8, 9],
    .production "Start" "void" "" 11]

theorem checkRepetition_warns_trailing :
    ∃ g s, analyze trailing.built.grammar (.new {}) =
        (g, s, .ok ()) ∧
      g.form 5 = .zeroOrOne 4 ∧
      ∃ k, Doubtful g 5 4 k ∧
        checkRepetition g s 5 4 =
          s.warning (g.place 5) (doubtMessage g s 5 k) := by
  have hMade : Made trailing.built := by
    apply Calls.made_built
    simp only [ValidCalls, trailing, Call.Valid]
    decide +kernel
  have hResolved :
      trailing.resolved.2.diagnostics.errorCount = 0 := by
    cbv
  have hChecked : (Analysis.sanityCheck trailing.resolved.1
      trailing.flagged).diagnostics.errorCount = 0 := by
    rw [Analysis.errorCount_sanityCheck]
    cbv
  obtain ⟨s, hPasses⟩ : ∃ s,
      analyze trailing.built.grammar (.new {}) =
        (trailing.resolved.1, s, .ok ()) :=
    ⟨_, Calls.analyze_built rfl hResolved hChecked⟩
  have hOwned : trailing.built.grammar.SinglyOwned := by
    decide +kernel
  have hRuled : ∀ p ∈ trailing.built.grammar.productions,
      p.isCode = false := by
    decide +kernel
  have hUnguarded : trailing.built.grammar.Unguarded := by
    apply Grammar.unguarded_of_forall_lt
    decide +kernel
  have hBody : trailing.resolved.1.form 4 = .sequence [3, 1, 2] := by
    decide +kernel
  have hOption : trailing.resolved.1.form 5 = .zeroOrOne 4 := by
    decide +kernel
  have hList : trailing.resolved.1.form 7 = .sequence [6, 0, 5] := by
    decide +kernel
  have hStart :
      trailing.resolved.1.form 11 = .sequence [10, 8, 9] := by
    decide +kernel
  have hPart : ∀ {part whole : ExpId} {units : List ExpId},
      trailing.resolved.1.form whole = .sequence units →
      part ∈ units → trailing.resolved.1.ChildOf part whole := by
    intro part whole units hForm hMem
    unfold Grammar.ChildOf Grammar.children
    rw [hForm]
    exact hMem
  have hProductions : ∀ p,
      p ∈ trailing.built.grammar.productions →
        p ∈ trailing.resolved.1.productions := by
    intro p hp
    rw [Calls.resolved, productions_resolve]
    exact hp
  have hReachable : trailing.resolved.1.Reachable 5 :=
    ⟨trailing.built.grammar.production 0,
      hProductions _ (by decide +kernel), 7, by decide +kernel,
      .single (hPart hList (by decide))⟩
  have hCaller : trailing.resolved.1.Reachable 8 :=
    ⟨trailing.built.grammar.production 1,
      hProductions _ (by decide +kernel), 11, by decide +kernel,
      .single (hPart hStart (by decide))⟩
  have hInside : trailing.resolved.1.Reachable 4 := by
    refine hReachable.child ?_
    unfold Grammar.ChildOf Grammar.children
    rw [hOption]
    exact List.mem_singleton_self 4
  -- The comma of the body, and the comma after the list.
  let comma := (trailing.resolved.1.regex 1).kind
  have hHead : trailing.resolved.1.form 3 =
      .lookahead ⟨1, false, none, some 4⟩ := by
    decide +kernel
  have hLookahead : trailing.resolved.1.Unfolds 3 [] := by
    unfold Grammar.Unfolds
    rw [hHead]
  have hBegins : trailing.resolved.1.BeginsWith [4] comma := by
    refine ⟨1, [2], 1, none, none, ?_, by decide +kernel, rfl⟩
    have hUnits : trailing.resolved.1.Unfolds 4 [3, 1, 2] := by
      unfold Grammar.Unfolds
      rw [hBody]
    exact (Relation.ReflTransGen.single (.first hUnits)).tail
      (.first hLookahead)
  have hComma : trailing.resolved.1.BeginsWith [9] comma :=
    ⟨9, [], 2, none, none, .refl, by decide +kernel,
      by decide +kernel⟩
  have hCall :
      trailing.resolved.1.form 8 = .nonterminal "List" none "" := by
    decide +kernel
  have hDefines : trailing.resolved.1.Defines "List" 7 :=
    ⟨trailing.built.grammar.production 0,
      hProductions _ (by decide +kernel), by decide +kernel,
      by decide +kernel⟩
  have hFollowed : trailing.resolved.1.FollowedBy 5 comma := by
    have hCallFirst : trailing.resolved.1.form 11 =
        .sequence ([10] ++ 8 :: [9]) := hStart
    have hOptionLast : trailing.resolved.1.form 7 =
        .sequence ([6, 0] ++ 5 :: []) := hList
    exact .afterSequence hOptionLast Grammar.vanishes_nil
      (.afterCall hCaller hCall hDefines
        (.rest hCallFirst hComma))
  have hChecks := (checkRepetition_warns hMade hOwned hRuled
    hUnguarded hPasses (.inl rfl) rfl hReachable hInside
    s.diagnostics).2.1 ⟨comma, hBegins, hFollowed⟩
  exact ⟨_, s, hPasses, hOption, hChecks⟩

end Conflict

end Descent
