import Descent.Proofs.ChoiceConflicts
import Descent.Proofs.WaysUp

/-
  Ways up that come to an end.

  In a round no expansion is asked for its followers twice, so
  a way up that goes on without tokens does not come back to
  where it was.  But matches that grow on the way go on first,
  in a round of their own, and they replace the marks of the
  older one.  If they pass by where the older round comes back
  to, it is not stopped there.  So walks to followers come to an
  end, for every length, in a grammar where no way leads back to
  an expansion both with tokens and without.

  Main declarations:
    * `Grammar.Climbs` and `Grammar.Detours`
    * `Prefixes.Remarks` and `Prefixes.Mapped.remarks_followSetTo`
    * `Prefixes.Trail` and `Prefixes.Mapped.ends_followSetTo`
    * `Prefixes.followSet_ends`
-/

------------------------------------------------------------
-- Ways with tokens
------------------------------------------------------------

namespace Descent

namespace Grammar

/- A step up, with tokens or without. -/
def Climbs
    (g : Grammar)
    (id above : ExpId) : Prop :=
  g.Passes id above ∨ g.Gains id above

/- A way up that comes by tokens somewhere. -/
def Detours
    (g : Grammar)
    (id above : ExpId) : Prop :=
  ∃ u v, Relation.ReflTransGen g.Climbs id u ∧ g.Gains u v ∧
    Relation.ReflTransGen g.Climbs v above

/- No way leads back both with tokens and without. -/
def Straight
    (g : Grammar) : Prop :=
  ∀ id, g.Reachable id →
    Relation.TransGen g.Passes id id → ¬ g.Detours id id

section Detours

variable {g : Grammar} {x y z : ExpId}

theorem climbs_of_passes
    (hWay : Relation.ReflTransGen g.Passes x y) :
    Relation.ReflTransGen g.Climbs x y :=
  Relation.ReflTransGen.mono (fun _ _ h => Or.inl h) _ _ hWay

theorem Detours.after
    (hDetours : g.Detours y z)
    (hWay : Relation.ReflTransGen g.Climbs x y) :
    g.Detours x z := by
  rcases hDetours with ⟨u, v, hBefore, hGains, hAfter⟩
  exact ⟨u, v, hWay.trans hBefore, hGains, hAfter⟩

/- Beyond tokens, every way is a detour. -/
theorem Gains.detours
    (hGains : g.Gains x y)
    (hWay : Relation.ReflTransGen g.Passes y z ∨
      g.Detours y z) :
    g.Detours x z := by
  rcases hWay with hPasses | hDetours
  · exact ⟨x, y, .refl, hGains, climbs_of_passes hPasses⟩
  · exact hDetours.after (.single (.inr hGains))

/-
  If no step up goes down in a rank, and those that come by
  tokens go up, then no detour leads back.
-/
theorem straight_of_rank
    (f : ExpId → Nat)
    (hPasses : ∀ x y, g.Passes x y → f x ≤ f y)
    (hGains : ∀ x y, g.Gains x y → f x < f y) :
    g.Straight := by
  have hWay : ∀ {x y}, Relation.ReflTransGen g.Climbs x y →
      f x ≤ f y := by
    intro x y hClimbs
    induction hClimbs with
    | refl => exact le_rfl
    | tail _ hStep ih =>
        rcases hStep with hStep | hStep
        · exact ih.trans (hPasses _ _ hStep)
        · exact ih.trans (hGains _ _ hStep).le
  rintro id - - ⟨u, v, hBefore, hStep, hAfter⟩
  exact absurd (hGains u v hStep)
    (Nat.not_lt.mpr ((hWay hAfter).trans (hWay hBefore)))

end Detours

/- A part is last in a sequence, or all of its owner. -/
def isLast
    (g : Grammar)
    (owner id : ExpId) : Bool :=
  match g.form owner with
  | .sequence units => (Prefixes.unitsAfter units id).isEmpty
  | .oneOrMore _ => false
  | .zeroOrMore _ => false
  | _ => true

/- An expansion is a call. -/
def isCall
    (g : Grammar)
    (id : ExpId) : Bool :=
  match g.form id with
  | .nonterminal _ _ _ => true
  | _ => false

theorem not_fills_of_isLast
    {g : Grammar}
    {owner id : ExpId}
    (hLast : g.isLast owner id = true) :
    ¬ g.Fills owner id := by
  unfold isLast at hLast
  unfold Fills
  cases hForm : g.form owner with
  | sequence units =>
      rw [hForm] at hLast
      rintro ⟨u, hu, -⟩
      rw [List.isEmpty_iff.mp hLast] at hu
      cases hu
  | oneOrMore body =>
      rw [hForm] at hLast
      cases hLast
  | zeroOrMore body =>
      rw [hForm] at hLast
      cases hLast
  | _ => exact not_false

/- Nothing has to come after a last part. -/
theorem passes_of_isLast
    {g : Grammar}
    {owner id : ExpId}
    (hChild : g.ChildOf id owner)
    (hLast : g.isLast owner id = true) :
    g.Passes id owner := by
  refine .owner hChild ?_ vanishes_nil
  unfold isLast at hLast
  unfold between
  cases hForm : g.form owner with
  | sequence units =>
      rw [hForm] at hLast
      exact (List.isEmpty_iff.mp hLast).symm
  | oneOrMore body =>
      rw [hForm] at hLast
      cases hLast
  | zeroOrMore body =>
      rw [hForm] at hLast
      cases hLast
  | _ => exact rfl

/-
  Whether a rank shows that there are no detours can be seen
  from every expansion alone: its parts are below it or, the
  last one, level with it, and no body is above a call.
-/
theorem straight_of_parts
    {g : Grammar}
    (f : ExpId → Nat)
    (hParts : ∀ whole < g.expansions.size,
      ∀ part ∈ g.children whole,
        f part < f whole ∨
          f part = f whole ∧ g.isLast whole part = true)
    (hBodies : ∀ p ∈ g.productions, ∀ body ∈ p.expansion?,
      ∀ call < g.expansions.size,
        g.isCall call = true → f body ≤ f call) :
    g.Straight := by
  have hPart : ∀ {part whole}, g.ChildOf part whole →
      f part < f whole ∨
        f part = f whole ∧ g.isLast whole part = true :=
    fun {part whole} hChild =>
      hParts whole (lt_size_of_childOf part whole hChild)
        part hChild
  apply straight_of_rank f
  · intro x y hPasses
    cases hPasses with
    | owner hChild hBetween hGone =>
        rcases hPart hChild with hLess | ⟨hSame, -⟩
        · exact hLess.le
        · exact hSame.le
    | call hReachable hCall hDefines =>
        rcases hDefines with ⟨p, hp, -, hBody⟩
        have hThere : y < g.expansions.size := by
          apply lt_size_of_expansion
          rw [hCall]
          nofun
        apply hBodies p hp x hBody y hThere
        unfold isCall
        rw [hCall]
  · intro x y hGains
    rcases hPart hGains.child with hLess | ⟨-, hLast⟩
    · exact hLess
    · exact absurd hGains.fills (not_fills_of_isLast hLast)

end Grammar

------------------------------------------------------------
-- Marks that are replaced
------------------------------------------------------------

namespace Prefixes

/-
  What a walk in a round does to marks.  It marks what ways
  without tokens lead to with its own round, and on detours
  other rounds may replace marks.
-/
structure Remarks
    (c : Setting)
    (round : Nat)
    (x : ExpId)
    (w w' : Progress) : Prop where
  next : w.nextId ≤ w'.nextId
  marks : ∀ y, Assoc.get? y w'.marks = Assoc.get? y w.marks ∨
    Relation.ReflTransGen c.grammar.Passes x y ∧
      w'.Marked round y ∨
    c.grammar.Detours x y

section Remarks

variable {c : Setting} {round round' : Nat}
variable {x above : ExpId}
variable {w w₁ w' : Progress}

theorem remarks_of_marks
    (hNext : w.nextId ≤ w'.nextId)
    (hMarks : w'.marks = w.marks) :
    Remarks c round x w w' where
  next := hNext
  marks y := .inl (by rw [hMarks])

theorem remarks_withMark
    (w : Progress) :
    Remarks c round x w (w.withMark round x) where
  next := le_rfl
  marks y := by
    by_cases hHere : y = x
    · rw [hHere]
      exact .inr (.inl ⟨.refl,
        marked_withMark.mpr (.inl ⟨rfl, rfl⟩)⟩)
    · left
      unfold Progress.withMark Assoc.insert
      rw [Assoc.get?_alter, if_neg hHere]

theorem Remarks.andThen
    (hFirst : Remarks c round x w w₁)
    (hSecond : Remarks c round x w₁ w') :
    Remarks c round x w w' where
  next := hFirst.next.trans hSecond.next
  marks y := by
    rcases hSecond.marks y with hSame | hChanged
    · unfold Progress.Marked
      rw [hSame]
      exact hFirst.marks y
    · exact .inr hChanged

/- What a walk does that goes on in the same round. -/
theorem Remarks.of_passes
    (hRemarks : Remarks c round above w w')
    (hPasses : c.grammar.Passes x above) :
    Remarks c round x w w' where
  next := hRemarks.next
  marks y := by
    refine (hRemarks.marks y).imp_right (Or.imp ?_ ?_)
    · exact And.imp_left (·.head hPasses)
    · exact (·.after (.single (.inl hPasses)))

/- What a walk does that goes on in a new round. -/
theorem Remarks.of_gains
    (hRemarks : Remarks c round' above w w')
    (hGains : c.grammar.Gains x above) :
    Remarks c round x w w' where
  next := hRemarks.next
  marks y := by
    refine (hRemarks.marks y).imp_right fun hChanged => ?_
    exact .inr (hGains.detours (hChanged.imp_left And.left))

/- Without a detour, a mark stays. -/
theorem Remarks.marked
    (hRemarks : Remarks c round x w w')
    {y : ExpId}
    (hMarked : w.Marked round y)
    (hNone : ¬ c.grammar.Detours x y) :
    w'.Marked round y := by
  rcases hRemarks.marks y with hSame | ⟨-, hHere⟩ | hDetours
  · unfold Progress.Marked
    rw [hSame]
    exact hMarked
  · exact hHere
  · exact absurd hDetours hNone

theorem remarks_across
    {step : List Match → ExpId → Walk (List Match)}
    {least : Nat}
    {ms : List Match}
    {calls : List ExpId}
    (hStep : ∀ call ∈ calls, ∀ w, Fits c.limit least ms w →
      Remarks c round x w ((step ms call).run w).2)
    (hFits : Fits c.limit least ms w) :
    Remarks c round x w ((across step ms calls).run w).2 := by
  induction calls generalizing w with
  | nil => exact remarks_of_marks le_rfl rfl
  | cons call calls ih =>
      rw [List.forall_mem_cons] at hStep
      have hHere := hStep.1 w hFits
      exact hHere.andThen
        (ih hStep.2 (hFits.mono le_rfl hHere.next))

theorem Divides.remarks
    {least : Nat}
    {ms : List Match}
    {r : List Match × Progress}
    (hDivides : Divides c least above x ms w r) :
    Remarks c round x w r.2 :=
  remarks_of_marks hDivides.next hDivides.marks

section Climbs

variable {least depth : Nat} {ms : List Match}
variable {r : List Match × Progress}
variable (hAbove : ∀ ms' least' round' w₁, ms' ≠ [] →
  Fits c.limit least' ms' w₁ →
  Remarks c round' above w₁ ((followSetTo c (return []) depth
    ms' above round').run w₁).2)

include hAbove

/- What matches do that have grown. -/
theorem remarks_ahead
    (hDivides : Divides c least above x ms w r) :
    Remarks c round x r.2 (ahead c (return []) depth above
      (r.1.filter fun m => !isOld ms m) r.2).2 := by
  unfold ahead
  split
  · exact remarks_of_marks le_rfl rfl
  · next hSome =>
      rw [List.isEmpty_iff] at hSome
      let w₁ : Progress :=
        { r.2 with nextRound := r.2.nextRound + 1 }
      have hNew : Remarks c round x r.2 w₁ :=
        remarks_of_marks le_rfl rfl
      have hGrown := hAbove _ (least + 1) r.2.nextRound w₁ hSome
        ⟨hDivides.grown.long, hDivides.grown.short,
          hDivides.grown.known⟩
      exact hNew.andThen (hGrown.of_gains (hDivides.gains hSome))

/- What a step up to an owner does. -/
theorem remarks_climb
    (hMapped : Mapped c)
    (hLimit : 1 ≤ c.limit)
    (hChild : c.grammar.ChildOf x above)
    (hReachable : c.grammar.Reachable above)
    (hFits : Fits c.limit least ms w) :
    Remarks c round x w ((climb c (return []) depth above x ms
      round).run w).2 := by
  have hDivides := hMapped.divides hLimit hChild hReachable hFits
  have hAhead : Remarks c round x _ _ :=
    remarks_ahead hAbove hDivides
  have hFirst := hDivides.remarks.andThen hAhead
  rw [hMapped.run_climb hLimit hChild hReachable hFits]
  dsimp only
  split
  · exact hFirst
  · next hSome =>
      rw [List.isEmpty_iff] at hSome
      have hRest := hAbove _ least round _ hSome
        (hDivides.same.mono le_rfl hAhead.next)
      exact hFirst.andThen
        (hRest.of_passes (hDivides.passes hSome))

end Climbs

/- What a walk to followers does to marks. -/
theorem Mapped.remarks_followSetTo
    (hMapped : Mapped c)
    (hLimit : 1 ≤ c.limit)
    {least depth : Nat}
    {ms : List Match}
    (hSome : ms ≠ [])
    (hFits : Fits c.limit least ms w)
    (hReachable : c.grammar.Reachable x) :
    Remarks c round x w
      ((followSetTo c (return []) depth ms x round).run w).2 := by
  induction depth generalizing least ms x w round with
  | zero => exact remarks_of_marks le_rfl rfl
  | succ depth ih =>
      rw [run_followSetTo_succ c (return []) depth hSome]
      by_cases hMarked : w.Marked round x
      · rw [if_pos hMarked]
        exact remarks_of_marks le_rfl rfl
      rw [if_neg hMarked]
      have hFits' : Fits c.limit least ms (w.withMark round x) :=
        ⟨hFits.long, hFits.short, hFits.known⟩
      refine (remarks_withMark w).andThen ?_
      have hPlaced := hMapped.placed hReachable
      generalize c.grammar.owner? x = owner? at hPlaced ⊢
      cases hPlaced with
      | @body p hCalls hWhole =>
          refine remarks_across (fun call hCall w' hFits'' => ?_)
            hFits'
          have hPasses := (hCalls call).mpr hCall
          exact (ih hSome hFits'' (hPasses.reachable
            hMapped.arranged.owned hReachable)).of_passes hPasses
      | @part owner hChild hAbove hPasses hOnly =>
          exact remarks_climb (fun ms' least' round' w₁ hSome' hFits'' =>
            ih hSome' hFits'' hAbove) hMapped hLimit hChild hAbove
              hFits'

end Remarks

------------------------------------------------------------
-- Walks that end
------------------------------------------------------------

/-
  Where a walk has been in its round.  Ways have led up from
  there, and if one leads back, it is stopped by a mark.
-/
structure Trail
    (c : Setting)
    (round : Nat)
    (x : ExpId)
    (trail : Finset ExpId)
    (w : Progress) : Prop where
  reachable : ∀ y ∈ trail, c.grammar.Reachable y
  leads : ∀ y ∈ trail, Relation.TransGen c.grammar.Passes y x
  marked : ∀ y ∈ trail,
    Relation.ReflTransGen c.grammar.Passes x y →
      w.Marked round y

section Trail

variable {c : Setting} {round : Nat}
variable {x above : ExpId}
variable {trail : Finset ExpId}
variable {w w' : Progress}

theorem trail_empty
    (w : Progress) :
    Trail c round x ∅ w where
  reachable _ hy := absurd hy (Finset.notMem_empty _)
  leads _ hy := absurd hy (Finset.notMem_empty _)
  marked _ hy := absurd hy (Finset.notMem_empty _)

theorem Trail.notMem
    (hTrail : Trail c round x trail w)
    (hNew : ¬ w.Marked round x) :
    x ∉ trail :=
  fun hMem => hNew (hTrail.marked x hMem .refl)

/- A walk that goes on leaves a trail. -/
theorem Trail.climb
    (hTrail : Trail c round x trail w)
    (hStraight : c.grammar.Straight)
    (hReachable : c.grammar.Reachable x)
    (hRemarks : Remarks c round x (w.withMark round x) w')
    (hPasses : c.grammar.Passes x above) :
    Trail c round above (insert x trail) w' := by
  constructor
  · intro y hy
    rcases Finset.mem_insert.mp hy with rfl | hy
    · exact hReachable
    · exact hTrail.reachable y hy
  · intro y hy
    rcases Finset.mem_insert.mp hy with rfl | hy
    · exact .single hPasses
    · exact (hTrail.leads y hy).tail hPasses
  · intro y hy hBack
    have hHere : (w.withMark round x).Marked round y ↔
        y = x ∨ w.Marked round y :=
      marked_of_marks rfl y
    rcases Finset.mem_insert.mp hy with rfl | hy
    · exact hRemarks.marked (hHere.mpr (.inl rfl))
        (hStraight y hReachable (.head' hPasses hBack))
    · have hDown := hTrail.leads y hy
      refine hRemarks.marked (hHere.mpr (.inr
        (hTrail.marked y hy (hBack.head hPasses)))) fun hDetours =>
          ?_
      exact hStraight y (hTrail.reachable y hy)
        (hDown.trans (.head' hPasses hBack))
        (hDetours.after (Grammar.climbs_of_passes
          hDown.to_reflTransGen))

/- There are never more expansions on a trail than there are. -/
theorem Trail.card_lt
    (hTrail : Trail c round x trail w)
    (hArranged : c.grammar.Arranged)
    (hReachable : c.grammar.Reachable x)
    (hNew : ¬ w.Marked round x) :
    (insert x trail).card = trail.card + 1 ∧
      trail.card + 1 ≤ c.grammar.expansions.size := by
  have hCard := Finset.card_insert_of_notMem (hTrail.notMem hNew)
  refine ⟨hCard, ?_⟩
  have hSubset : insert x trail ⊆
      Finset.range c.grammar.expansions.size := by
    intro y hy
    rw [Finset.mem_range]
    rcases Finset.mem_insert.mp hy with rfl | hy
    · exact (hArranged.exists_holds hReachable).2
    · exact (hArranged.exists_holds (hTrail.reachable y hy)).2
  rw [← hCard]
  exact (Finset.card_le_card hSubset).trans_eq
    (Finset.card_range _)

end Trail

section Ends

variable {c : Setting} {round : Nat}
variable {x : ExpId}
variable {w : Progress}

/- The same matches go on after all calls. -/
theorem ends_across
    {step step' : List Match → ExpId → Walk (List Match)}
    {least : Nat}
    {ms : List Match}
    {calls : List ExpId}
    (hStep : ∀ call ∈ calls, ∀ w',
      Remarks c round x w w' → Fits c.limit least ms w' →
        (step' ms call).run w' = (step ms call).run w' ∧
          Remarks c round x w' ((step ms call).run w').2)
    {w' : Progress}
    (hRemarks : Remarks c round x w w')
    (hFits : Fits c.limit least ms w') :
    (across step' ms calls).run w' =
      (across step ms calls).run w' := by
  induction calls generalizing w' with
  | nil => rfl
  | cons call calls ih =>
      rw [List.forall_mem_cons] at hStep
      rcases hStep.1 w' hRemarks hFits with ⟨hSame, hHere⟩
      have hRest := ih hStep.2 (hRemarks.andThen hHere)
        (hFits.mono le_rfl hHere.next)
      rw [across, across, run_bind, run_bind, run_bind, run_bind,
        hSame, hRest]

/- A step up does not come to a bound if none is met above. -/
theorem ends_climb
    (hMapped : Mapped c)
    (hLimit : 1 ≤ c.limit)
    {above : ExpId}
    (hChild : c.grammar.ChildOf x above)
    (hReachable : c.grammar.Reachable above)
    {least depth : Nat}
    {ms : List Match}
    (hFits : Fits c.limit least ms w)
    {beyond : Walk (List Match)}
    (hGrown : ∀ ms' round' w', ms' ≠ [] →
      Fits c.limit (least + 1) ms' w' →
        (followSetTo c beyond depth ms' above round').run w' =
          (followSetTo c (return []) depth ms' above round').run
            w')
    (hSame : ∀ ms' w', ms' ≠ [] → Fits c.limit least ms' w' →
      c.grammar.Passes x above → Remarks c round x w w' →
        (followSetTo c beyond depth ms' above round).run w' =
          (followSetTo c (return []) depth ms' above round).run
            w') :
    (climb c beyond depth above x ms round).run w =
      (climb c (return []) depth above x ms round).run w := by
  have hDivides := hMapped.divides hLimit hChild hReachable hFits
  rw [hMapped.run_climb hLimit hChild hReachable hFits,
    hMapped.run_climb hLimit hChild hReachable hFits]
  generalize (between c (return []) above x ms).run w = r
    at hDivides
  have hAhead : Remarks c round x r.2 (ahead c (return []) depth
      above (r.1.filter fun m => !isOld ms m) r.2).2 :=
    remarks_ahead (fun ms' least' round' w₁ hSome' hFits' =>
      hMapped.remarks_followSetTo hLimit hSome' hFits'
        hReachable) hDivides
  have hRemarks := hDivides.remarks.andThen hAhead
  have hFirst : ahead c beyond depth above
        (r.1.filter fun m => !isOld ms m) r.2 =
      ahead c (return []) depth above
        (r.1.filter fun m => !isOld ms m) r.2 := by
    unfold ahead
    split
    · rfl
    · next hSome =>
        rw [List.isEmpty_iff] at hSome
        exact hGrown _ _ _ hSome ⟨hDivides.grown.long,
          hDivides.grown.short, hDivides.grown.known⟩
  dsimp only
  rw [hFirst]
  split
  · rfl
  · next hSome =>
      rw [List.isEmpty_iff] at hSome
      rw [hSame _ _ hSome
        (hDivides.same.mono le_rfl hAhead.next)
        (hDivides.passes hSome) hRemarks]

/-
  A walk to followers does not come to its bound.  With the
  same matches the trail gets longer, and there is room for a
  new trail whenever matches have grown.
-/
theorem Mapped.ends_followSetTo
    (hMapped : Mapped c)
    (hLimit : 1 ≤ c.limit)
    (hStraight : c.grammar.Straight)
    (beyond : Walk (List Match))
    {least depth : Nat}
    {ms : List Match}
    {trail : Finset ExpId}
    (hSome : ms ≠ [])
    (hFits : Fits c.limit least ms w)
    (hReachable : c.grammar.Reachable x)
    (hTrail : Trail c round x trail w)
    (hDepth :
      (c.limit - least) * (c.grammar.expansions.size + 1) +
        (c.grammar.expansions.size - trail.card) < depth) :
    (followSetTo c beyond depth ms x round).run w =
      (followSetTo c (return []) depth ms x round).run w := by
  induction depth generalizing least ms x w round trail with
  | zero => exact absurd hDepth (Nat.not_lt_zero _)
  | succ depth ih =>
      rw [run_followSetTo_succ c beyond depth hSome,
        run_followSetTo_succ c (return []) depth hSome]
      by_cases hMarked : w.Marked round x
      · rw [if_pos hMarked, if_pos hMarked]
      rw [if_neg hMarked, if_neg hMarked]
      rcases hTrail.card_lt hMapped.arranged hReachable hMarked
        with ⟨hCard, hRoom⟩
      -- In the same round the trail is longer above.
      have hSame : ∀ above, c.grammar.Passes x above →
          ∀ ms' w', ms' ≠ [] → Fits c.limit least ms' w' →
          Remarks c round x (w.withMark round x) w' →
          (followSetTo c beyond depth ms' above round).run w' =
            (followSetTo c (return []) depth ms' above round).run
              w' := by
        intro above hPasses ms' w' hSome' hFits' hRemarks
        refine ih hSome' hFits'
          (hPasses.reachable hMapped.arranged.owned hReachable)
          (hTrail.climb hStraight hReachable hRemarks hPasses) ?_
        rw [hCard]
        omega
      have hFits' : Fits c.limit least ms (w.withMark round x) :=
        ⟨hFits.long, hFits.short, hFits.known⟩
      have hPlaced := hMapped.placed hReachable
      generalize c.grammar.owner? x = owner? at hPlaced ⊢
      cases hPlaced with
      | @body p hCalls hWhole =>
          have hStart : Remarks c round x (w.withMark round x)
            (w.withMark round x) := remarks_of_marks le_rfl rfl
          refine ends_across (fun call hCall w' hRemarks hFits'' =>
            ?_) hStart hFits'
          have hPasses := (hCalls call).mpr hCall
          have hHere : Remarks c round call w' ((followSetTo c
              (return []) depth ms call round).run w').2 :=
            hMapped.remarks_followSetTo hLimit hSome hFits''
              (hPasses.reachable hMapped.arranged.owned hReachable)
          exact ⟨hSame call hPasses ms w' hSome hFits'' hRemarks,
            hHere.of_passes hPasses⟩
      | @part owner hChild hAbove hPasses hOnly =>
          refine ends_climb hMapped hLimit hChild hAbove hFits' ?_
            fun ms' w' hSome' hFits'' hStep =>
              hSame owner hStep ms' w' hSome' hFits''
          intro ms' round' w' hSome' hFits''
          refine ih hSome' hFits'' hAbove (trail_empty w') ?_
          -- A match that is long enough is not followed further.
          rcases List.exists_mem_of_ne_nil ms' hSome' with ⟨m, hm⟩
          have hLess := (hFits''.long m hm).trans_lt
            (hFits''.short m hm)
          have hSplit : c.limit - least =
              c.limit - (least + 1) + 1 := by
            omega
          rw [hSplit, Nat.add_mul] at hDepth
          rw [Finset.card_empty]
          omega

end Ends

/-
  Walks to followers come to an end for every length, in a
  grammar where no expansion stands in two places, that passes
  all checks, and where no way leads back both with tokens and
  without.  A walk from an empty match in a new round does the
  same, whatever takes over at its bound: it does not come to
  it.
-/
theorem followSet_ends
    {b : Builder}
    (hMade : Made b)
    (hOwned : b.grammar.SinglyOwned)
    {o : Options}
    (hSanity : o.sanityCheck = true)
    {g : Grammar}
    {s : Session}
    (hPasses : analyze b.grammar (.new o) = (g, s, .ok ()))
    (hStraight : g.Straight)
    {e : ExpId}
    (hReachable : g.Reachable e)
    {limit : Nat}
    (hLimit : 1 ≤ limit)
    (w : Progress)
    (beyond : Walk (List Match)) :
    let c : Setting :=
      { grammar := g, session := s, limit := limit }
    let start := emptyMatch.run w
    let round := newRound.run start.2
    (followSetTo c beyond (followDepth c) start.1 e round.1).run
        round.2 =
      (followSet c start.1 e round.1).run round.2 := by
  intro c start round
  have hMapped : Mapped c :=
    { flagged := (flagged_analyze hMade hPasses).2
      callers := knowsCalls_analyze hMade hPasses
      sane := sane_analyze hMade hSanity hPasses
      arranged := arranged_analyze hMade hOwned hPasses
      attributed := attributed_analyze hMade hOwned hPasses
      unstopped := rfl }
  have hStart := fits_emptyMatch hLimit w
  have hFits : Fits limit 0 start.1 round.2 :=
    ⟨hStart.long, hStart.short, hStart.known⟩
  have hSome : start.1 ≠ [] := List.cons_ne_nil _ _
  refine hMapped.ends_followSetTo hLimit hStraight beyond hSome
    hFits hReachable (trail_empty round.2) ?_
  change (limit - 0) * (g.expansions.size + 1) +
      (g.expansions.size - (∅ : Finset ExpId).card) <
    stackLevels + (limit + 2) * (g.expansions.size + 2)
  rw [Nat.sub_zero, Finset.card_empty, Nat.sub_zero]
  have hMore : limit * (g.expansions.size + 1) ≤
      limit * (g.expansions.size + 2) :=
    Nat.mul_le_mul_left limit (Nat.le_succ _)
  rw [Nat.add_mul]
  omega

/- A list of one token or more, with commas in between. -/
def commaList : Calls :=
  [.literal "x", .literal ",", .nonterminal "List" "",
    .sequence [1, 2], .zeroOrOne 4, .sequence [0, 5],
    .production "List" "void" "" 7]

/- The list that ends with a list, and what ends with it. -/
def commaRank
    (e : ExpId) : Nat :=
  if e ∈ [2, 4, 5, 7] then 1 else 0

theorem mem_productions_commas :
    commaList.built.grammar.production 0 ∈
      commaList.resolved.1.productions := by
  rw [Calls.resolved, productions_resolve]
  decide +kernel

/- The option is last in the list. -/
theorem childOf_commas :
    commaList.resolved.1.ChildOf 5 7 :=
  Grammar.childOf_of_sequence
    (show commaList.resolved.1.form 7 = .sequence [6, 0, 5] by
      decide +kernel) (by decide)

theorem reachable_commas :
    commaList.resolved.1.Reachable 5 :=
  ⟨commaList.built.grammar.production 0, mem_productions_commas, 7,
    by decide +kernel, .single childOf_commas⟩

/-
  From the option up to the list, over to the call of a list,
  and up again to the option, no tokens are met.
-/
theorem passes_commas :
    Relation.TransGen commaList.resolved.1.Passes 5 5 := by
  have hOfOption : commaList.resolved.1.ChildOf 4 5 :=
    Grammar.childOf_of_parts?
      (show commaList.resolved.1.form 5 = .zeroOrOne 4 by
        decide +kernel) rfl List.mem_cons_self
  have hOfInside : commaList.resolved.1.ChildOf 2 4 :=
    Grammar.childOf_of_sequence
      (show commaList.resolved.1.form 4 = .sequence [3, 1, 2] by
        decide +kernel) (by decide)
  have hCaller : commaList.resolved.1.Reachable 2 :=
    (reachable_commas.child hOfOption).child hOfInside
  have hCall :
      commaList.resolved.1.form 2 = .nonterminal "List" none "" := by
    decide +kernel
  have hList : commaList.resolved.1.Passes 5 7 :=
    Grammar.passes_of_isLast childOf_commas (by decide +kernel)
  have hOver : commaList.resolved.1.Passes 7 2 :=
    .call hCaller hCall ⟨_, mem_productions_commas,
      by decide +kernel, by decide +kernel⟩
  have hInside : commaList.resolved.1.Passes 2 4 :=
    Grammar.passes_of_isLast hOfInside (by decide +kernel)
  have hOption : commaList.resolved.1.Passes 4 5 :=
    Grammar.passes_of_isLast hOfOption (by decide +kernel)
  exact (((Relation.TransGen.single hList).tail hOver).tail
    hInside).tail hOption

theorem straight_commas :
    commaList.resolved.1.Straight := by
  apply Grammar.straight_of_parts commaRank
  · decide +kernel
  · rw [Calls.resolved, productions_resolve]
    decide +kernel

theorem followSet_ends_commas :
    ∃ g s, analyze commaList.built.grammar (.new {}) =
        (g, s, .ok ()) ∧
      g.form 5 = .zeroOrOne 4 ∧
      Relation.TransGen g.Passes 5 5 ∧
      let c : Setting :=
        { grammar := g, session := s, limit := 3 }
      let start := emptyMatch.run {}
      let round := newRound.run start.2
      ∀ beyond,
        (followSetTo c beyond (followDepth c) start.1 5
            round.1).run round.2 =
          (followSet c start.1 5 round.1).run round.2 := by
  have hMade : Made commaList.built := by
    apply Calls.made_built
    simp only [ValidCalls, commaList, Call.Valid]
    decide +kernel
  have hResolved :
      commaList.resolved.2.diagnostics.errorCount = 0 := by
    cbv
  have hChecked : (Analysis.sanityCheck commaList.resolved.1
      commaList.flagged).diagnostics.errorCount = 0 := by
    rw [Analysis.errorCount_sanityCheck]
    cbv
  obtain ⟨s, hPasses⟩ : ∃ s,
      analyze commaList.built.grammar (.new {}) =
        (commaList.resolved.1, s, .ok ()) :=
    ⟨_, Calls.analyze_built rfl hResolved hChecked⟩
  have hOwned : commaList.built.grammar.SinglyOwned := by
    decide +kernel
  exact ⟨_, s, hPasses, by decide +kernel, passes_commas,
    followSet_ends hMade hOwned rfl hPasses straight_commas
      reachable_commas (by decide) {}⟩

end Prefixes

end Descent
