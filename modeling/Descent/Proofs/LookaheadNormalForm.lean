import Descent.Proofs.FirstWays
import Descent.Proofs.LookaheadMoves

/-
  What becomes of a grammar whose lookaheads are moved.

  A choice that holds nothing but a lookahead is empty, and no
  token starts it.  Its guard is met where the guard of the
  sequence was met before.  So moves leave what is empty and
  what an expansion starts with, under all kinds and flags, and
  a run comes to a normal form that a second run leaves.

  Main declarations:
    * `LookaheadFix.Moves.nullable`
    * `LookaheadFix.Moves.firstOf`
    * `LookaheadFix.Normalizes`
    * `Made.normalizes`
-/

------------------------------------------------------------
-- Empty expansions
------------------------------------------------------------

namespace Descent

namespace LookaheadFix

section Move

variable {g : Grammar} {id head new : ExpId}
variable {la : Lookahead} {rest : List ExpId}

/- A choice of nothing but a lookahead is empty. -/
theorem Moved.nullable_choice
    (hMoved : Moved g id head la rest new)
    (hNested : g.Nested)
    (s : Session) :
    Nullable.nullable g s (new + 2) = true := by
  have hAction : Nullable.nullable g s new = true := by
    rw [Nullable.nullable_eq hNested, hMoved.action]
  rw [Nullable.nullable_eq hNested, hMoved.choice]
  dsimp only
  rw [List.any_cons, Nullable.nullable_eq hNested,
    hMoved.alternative]
  dsimp only
  rw [List.all_cons, List.all_cons,
    nullable_lookahead hMoved.head, hAction]
  rfl

/- A move leaves what is empty. -/
theorem nullable_moveLookahead
    (hFix : Fixable g id head la rest)
    (hNested : g.Nested)
    (s : Session)
    {e : ExpId}
    (hOld : e < g.expansions.size) :
    Nullable.nullable (moveLookahead g id head la rest) s e =
      Nullable.nullable g s e := by
  have hMoved := moved_moveLookahead hFix
  have hNested' := nested_moveLookahead hFix hNested
  have hWell := hNested.acyclic.wellFounded
    Grammar.lt_size_of_childOf
  revert hOld
  induction e using hWell.induction with
  | _ e ih =>
  intro hOld
  have hParts : ∀ part ∈ g.children e,
      Nullable.nullable (moveLookahead g id head la rest) s part =
        Nullable.nullable g s part :=
    fun part hPart => ih part hPart
      (hNested.inside part e hPart)
  rw [Nullable.nullable_eq hNested', Nullable.nullable_eq hNested]
  by_cases hId : e = id
  · rw [hId, hFix.children] at hParts
    rw [hId, hMoved.sequence, hFix.sequence]
    dsimp only
    rw [List.all_cons, List.all_cons, List.all_cons,
      nullable_lookahead hMoved.placeholder,
      hMoved.nullable_choice hNested',
      nullable_lookahead hFix.lookahead, Bool.true_and,
      Bool.true_and, Bool.true_and, Bool.eq_iff_iff,
      List.all_eq_true, List.all_eq_true]
    exact forall₂_congr fun u hu => by
      rw [hParts u (List.mem_cons_of_mem head hu)]
  by_cases hHead : e = head
  · rw [hHead, hMoved.head, hFix.lookahead]
  rw [form_moveLookahead_of_old hFix hOld hId hHead]
  exact Nullable.emptyByParts_congr hParts (Nullable.flagOf s)

end Move

theorem Moves.nullable
    {g g' : Grammar}
    (hMoves : Moves g g')
    (hPlanted : g.Planted)
    (s : Session)
    {e : ExpId}
    (hOld : e < g.expansions.size) :
    Nullable.nullable g' s e = Nullable.nullable g s e := by
  induction hMoves with
  | refl => rfl
  | move hMoves hNeeds ih =>
      exact (nullable_moveLookahead (fixable_of_needsFix? hNeeds)
        (hMoves.planted hPlanted).arranged.nested s
        (Nat.lt_of_lt_of_le hOld hMoves.size_le)).trans ih

end LookaheadFix

------------------------------------------------------------
-- First kinds
------------------------------------------------------------

/- What is found under a name is the body of a production. -/
theorem mem_bodies_of_bodyOf?
    {g : Grammar}
    {s : Session}
    {name : String}
    {body : ExpId}
    (hBody : bodyOf? g s name = some body) :
    body ∈ g.bodies := by
  rcases Option.bind_eq_some_iff.mp hBody with
    ⟨p, hNamed, hExpansion⟩
  rcases Option.map_eq_some_iff.mp hNamed with ⟨id, -, rfl⟩
  unfold Grammar.production at hExpansion
  rw [Array.getD_eq_getD_getElem?] at hExpansion
  cases hAt : g.productions[id]? with
  | none =>
      rw [hAt] at hExpansion
      cases hExpansion
  | some p =>
      rw [hAt] at hExpansion
      exact Grammar.mem_bodies (Array.mem_of_getElem? hAt) hExpansion

theorem Grammar.lt_size_of_enters
    {g : Grammar}
    (hArranged : g.Arranged)
    {s : Session}
    {part whole : ExpId}
    (hEnters : g.Enters s part whole) :
    part < g.expansions.size := by
  have hChild : part ∈ g.children whole →
      part < g.expansions.size :=
    hArranged.nested.inside part whole
  unfold Grammar.Enters at hEnters
  unfold Grammar.children at hChild
  cases hForm : g.form whole with
  | nonterminal name result args =>
      rw [hForm] at hEnters
      exact hArranged.inside part (mem_bodies_of_bodyOf? hEnters)
  | sequence units =>
      rw [hForm] at hEnters hChild
      exact hChild (mem_of_tried hEnters)
  | choice alternatives =>
      rw [hForm] at hEnters hChild
      exact hChild hEnters
  | oneOrMore body =>
      rw [hForm] at hEnters hChild
      exact hChild (List.mem_singleton.mpr hEnters)
  | zeroOrMore body =>
      rw [hForm] at hEnters hChild
      exact hChild (List.mem_singleton.mpr hEnters)
  | zeroOrOne body =>
      rw [hForm] at hEnters hChild
      exact hChild (List.mem_singleton.mpr hEnters)
  | tryBlock body catches cleanup =>
      rw [hForm] at hEnters hChild
      exact hChild (List.mem_singleton.mpr hEnters)
  | terminal r result member =>
      rw [hForm] at hEnters
      exact hEnters.elim
  | action code =>
      rw [hForm] at hEnters
      exact hEnters.elim
  | lookahead la =>
      rw [hForm] at hEnters
      exact hEnters.elim

namespace LookaheadFix

section Move

variable {g : Grammar} {s : Session}
variable {id head new : ExpId} {la : Lookahead}
variable {rest : List ExpId}

/- A choice of nothing but a lookahead shows its guard alone. -/
theorem Moved.has_choice
    (hMoved : Moved g id head la rest new)
    (hCodeless : g.Codeless s)
    (depth : Nat)
    (m : Option Kind) :
    (firstTo g s (depth + 2) (new + 2)).Has m ↔
      m = none ∧ la.guard.isSome = true := by
  have hAlternative := has_headed hCodeless hMoved.alternative
    hMoved.head depth m
  have hNothing : ¬ ∃ u, g.Tried s u [new] ∧
      (firstTo g s depth u).Has m := by
    rintro ⟨u, hTried, hHas⟩
    rw [List.mem_singleton.mp (Grammar.mem_of_tried hTried),
      firstTo_action hMoved.action] at hHas
    exact First.not_has_empty m hHas
  rw [or_iff_left hNothing] at hAlternative
  rw [← hAlternative, has_firstTo_succ hCodeless]
  have hForm := hMoved.choice
  rw [or_iff_right (not_shows (by simp [hForm])
    (by simp [hForm]) m)]
  unfold Grammar.Enters
  rw [hForm]
  simp only [List.mem_singleton, exists_eq_left]

theorem shows_moveLookahead
    (hFix : Fixable g id head la rest)
    (hArranged : g.Arranged)
    {e : ExpId}
    (hOld : e < g.expansions.size)
    (hOther : e ≠ id)
    (m : Option Kind) :
    (moveLookahead g id head la rest).Shows s e m ↔
      g.Shows s e m := by
  have hRegexes := (sameTokens_moveLookahead g id head la
    rest).regexes
  cases m with
  | none =>
      unfold Grammar.Shows
      rw [headLookahead?_moveLookahead hFix hArranged hOld hOther]
  | some k =>
      by_cases hHead : e = head
      · refine iff_of_false ?_ ?_
        · rintro ⟨r, result, member, hForm, -⟩
          rw [hHead, (moved_moveLookahead hFix).head] at hForm
          cases hForm
        · rintro ⟨r, result, member, hForm, -⟩
          rw [hHead, hFix.lookahead] at hForm
          cases hForm
      · unfold Grammar.Shows Grammar.regex
        rw [form_moveLookahead_of_old hFix hOld hOther hHead,
          hRegexes]

theorem enters_moveLookahead
    (hFix : Fixable g id head la rest)
    (hNested : g.Nested)
    {part e : ExpId}
    (hOld : e < g.expansions.size)
    (hOther : e ≠ id) :
    (moveLookahead g id head la rest).Enters s part e ↔
      g.Enters s part e := by
  have hBodyOf : ∀ name,
      bodyOf? (moveLookahead g id head la rest) s name =
        bodyOf? g s name := by
    intro name
    have hProduction :
        (moveLookahead g id head la rest).production =
          g.production := by
      funext p
      unfold Grammar.production
      rw [productions_moveLookahead]
    unfold bodyOf? productionNamed?
    rw [hProduction]
  unfold Grammar.Enters
  by_cases hHead : e = head
  · rw [hHead, (moved_moveLookahead hFix).head, hFix.lookahead]
  rw [form_moveLookahead_of_old hFix hOld hOther hHead]
  cases hForm : g.form e with
  | nonterminal name result args =>
      dsimp only
      rw [hBodyOf]
  | sequence units =>
      refine Grammar.tried_congr fun u hu => ?_
      exact nullable_moveLookahead hFix hNested s
        (hNested.inside u e
          (Grammar.childOf_of_sequence hForm hu))
  | _ => exact Iff.rfl

/- The sequence starts with its guard and its other units. -/
theorem has_sequence_moveLookahead
    (hFix : Fixable g id head la rest)
    (hNested : g.Nested)
    (hCodeless :
      (moveLookahead g id head la rest).Codeless s)
    (depth : Nat)
    (m : Option Kind) :
    (firstTo (moveLookahead g id head la rest) s (depth + 1)
        id).Has m ↔
      (firstTo (moveLookahead g id head la rest) s depth
          (g.expansions.size + 2)).Has m ∨
        ∃ u, g.Tried s u rest ∧
          (firstTo (moveLookahead g id head la rest) s depth
            u).Has m := by
  have hMoved := moved_moveLookahead hFix
  have hChoice := hMoved.nullable_choice
    (nested_moveLookahead hFix hNested) s
  have hRest : ∀ u,
      (moveLookahead g id head la rest).Tried s u rest ↔
        g.Tried s u rest := by
    refine fun u => Grammar.tried_congr fun v hv => ?_
    exact nullable_moveLookahead hFix hNested s
      (hNested.inside v id
        (hFix.childOf (List.mem_cons_of_mem head hv)))
  rw [has_headed hCodeless hMoved.sequence hMoved.placeholder,
    or_iff_right (by simp)]
  constructor
  · rintro ⟨u, rfl | ⟨-, hTried⟩, hHas⟩
    · exact .inl hHas
    · exact .inr ⟨u, (hRest u).mp hTried, hHas⟩
  · rintro (hHas | ⟨u, hTried, hHas⟩)
    · exact ⟨_, .inl rfl, hHas⟩
    · exact ⟨u, .inr ⟨hChoice, (hRest u).mpr hTried⟩, hHas⟩

/- Anything else starts with what it showed and entered. -/
theorem has_other_moveLookahead
    (hFix : Fixable g id head la rest)
    (hArranged : g.Arranged)
    (hCodeless :
      (moveLookahead g id head la rest).Codeless s)
    (depth : Nat)
    {e : ExpId}
    (hOld : e < g.expansions.size)
    (hOther : e ≠ id)
    (m : Option Kind) :
    (firstTo (moveLookahead g id head la rest) s (depth + 1)
        e).Has m ↔
      g.Shows s e m ∨
        ∃ part, g.Enters s part e ∧
          (firstTo (moveLookahead g id head la rest) s depth
            part).Has m := by
  rw [has_firstTo_succ hCodeless,
    shows_moveLookahead hFix hArranged hOld hOther]
  refine or_congr_right (exists_congr fun part => ?_)
  rw [enters_moveLookahead hFix hArranged.nested hOld hOther]

/- What was there starts with nothing new. -/
theorem has_of_has_moveLookahead
    (hFix : Fixable g id head la rest)
    (hArranged : g.Arranged)
    (hCodeless : g.Codeless s)
    (hAfter : (moveLookahead g id head la rest).Codeless s)
    {depth : Nat}
    {e : ExpId}
    (hOld : e < g.expansions.size)
    {m : Option Kind}
    (hHas : (firstTo (moveLookahead g id head la rest) s depth
      e).Has m) :
    (firstTo g s depth e).Has m := by
  have hNested := hArranged.nested
  induction depth generalizing e with
  | zero => exact absurd hHas (First.not_has_empty m)
  | succ depth ih =>
      by_cases hOther : e = id
      · rw [hOther] at hHas ⊢
        rw [has_sequence_moveLookahead hFix hNested hAfter] at hHas
        rw [has_headed hCodeless hFix.sequence hFix.lookahead]
        refine hHas.imp ?_ ?_
        · intro hChoice
          rw [← (moved_moveLookahead hFix).has_choice hAfter depth]
          exact has_firstTo_of_le hAfter (Nat.le_add_right _ 2)
            hChoice
        · rintro ⟨u, hTried, hUnit⟩
          refine ⟨u, hTried, ih (hNested.inside u id ?_) hUnit⟩
          exact hFix.childOf (List.mem_cons_of_mem head
            (Grammar.mem_of_tried hTried))
      · rw [has_other_moveLookahead hFix hArranged hAfter depth
          hOld hOther] at hHas
        rw [has_firstTo_succ hCodeless]
        exact hHas.imp_right fun ⟨part, hEnters, hPart⟩ =>
          ⟨part, hEnters,
            ih (Grammar.lt_size_of_enters hArranged hEnters) hPart⟩

/- What was there starts with all that it started with. -/
theorem has_moveLookahead_of_has
    (hFix : Fixable g id head la rest)
    (hArranged : g.Arranged)
    (hCodeless : g.Codeless s)
    (hAfter : (moveLookahead g id head la rest).Codeless s)
    {depth : Nat}
    {e : ExpId}
    {m : Option Kind}
    (hHas : (firstTo g s depth e).Has m) :
    (firstTo (moveLookahead g id head la rest) s (depth + 2)
      e).Has m := by
  have hNested := hArranged.nested
  induction depth generalizing e with
  | zero => exact absurd hHas (First.not_has_empty m)
  | succ depth ih =>
      have hOld := lt_size_of_has hHas
      by_cases hOther : e = id
      · rw [hOther] at hHas ⊢
        rw [has_headed hCodeless hFix.sequence hFix.lookahead]
          at hHas
        rw [has_sequence_moveLookahead hFix hNested hAfter,
          (moved_moveLookahead hFix).has_choice hAfter]
        exact hHas.imp_right fun ⟨u, hTried, hUnit⟩ =>
          ⟨u, hTried, ih hUnit⟩
      · rw [has_firstTo_succ hCodeless] at hHas
        rw [has_other_moveLookahead hFix hArranged hAfter
          (depth + 2) hOld hOther]
        exact hHas.imp_right fun ⟨part, hEnters, hPart⟩ =>
          ⟨part, hEnters, ih hPart⟩

/- A move leaves what an expansion starts with. -/
theorem firstOf_moveLookahead
    (hFix : Fixable g id head la rest)
    (hArranged : g.Arranged)
    (hCodeless : g.Codeless s)
    (hAfter : (moveLookahead g id head la rest).Codeless s)
    {e : ExpId}
    (hOld : e < g.expansions.size) :
    firstOf (moveLookahead g id head la rest) s e =
      firstOf g s e := by
  have hSize := size_moveLookahead g id head la rest
  rw [firstOf_eq hAfter, firstOf_eq hCodeless, hSize]
  refine First.eq_of_has fun m => ⟨fun hHas => ?_, fun hHas => ?_⟩
  · rw [← firstTo_eq_of_size_le hCodeless
      (Nat.le_add_right g.expansions.size 4)]
    exact has_of_has_moveLookahead hFix hArranged hCodeless hAfter
      hOld hHas
  · exact has_firstTo_of_le hAfter
      (Nat.add_le_add_left (by decide) g.expansions.size)
      (has_moveLookahead_of_has hFix hArranged hCodeless hAfter
        hHas)

end Move

theorem Moves.firstOf
    {g g' : Grammar}
    (hMoves : Moves g g')
    (hPlanted : g.Planted)
    (hRuled : g.Ruled)
    {s : Session}
    (hNames : s.NamesWithin g)
    {e : ExpId}
    (hOld : e < g.expansions.size) :
    Descent.firstOf g' s e = Descent.firstOf g s e := by
  have hCodeless : ∀ {g'}, Moves g g' → g'.Codeless s := by
    intro g' hMoves
    have hSame := hMoves.productions
    have hRuled' : g'.Ruled := by
      unfold Grammar.Ruled
      rw [hSame]
      exact hRuled
    apply hRuled'.codeless
    unfold Session.NamesWithin
    rw [hSame]
    exact hNames
  induction hMoves with
  | refl => rfl
  | move hMoves hNeeds ih =>
      exact (firstOf_moveLookahead (fixable_of_needsFix? hNeeds)
        (hMoves.planted hPlanted).arranged (hCodeless hMoves)
        (hCodeless (hMoves.move hNeeds))
        (Nat.lt_of_lt_of_le hOld hMoves.size_le)).trans ih

end LookaheadFix

------------------------------------------------------------
-- Normal forms
------------------------------------------------------------

/- The grammar with other kinds for its token expressions. -/
def Grammar.numbered
    (g : Grammar)
    (kinds : RegexId → Kind) : Grammar :=
  { g with
    regexes := g.regexes.mapIdx fun r node =>
      { node with kind := kinds r } }

theorem Grammar.Planted.numbered
    {g : Grammar}
    (hPlanted : g.Planted)
    (kinds : RegexId → Kind) :
    (g.numbered kinds).Planted := by
  have hSame : g.SameRules (g.numbered kinds) := ⟨rfl, rfl⟩
  have hShaped := hPlanted.shaped
  have hClimbing := hPlanted.climbing
  exact ⟨hSame.arranged hPlanted.arranged,
    hSame.attributed hPlanted.attributed,
    ⟨hShaped.headed, hShaped.alternatives, hShaped.repeated⟩,
    ⟨hClimbing.inside, hClimbing.ranked⟩⟩

theorem Grammar.numbered_adopt
    (g : Grammar)
    (kinds : RegexId → Kind)
    (owner : ExpId)
    (parts : List ExpId) :
    (g.adopt owner parts).numbered kinds =
      (g.numbered kinds).adopt owner parts := by
  unfold adopt
  induction parts generalizing g with
  | nil => rfl
  | cons part parts ih => exact ih _

/- Kinds make no difference to moves. -/
theorem LookaheadFix.numbered_moveLookahead
    (g : Grammar)
    (kinds : RegexId → Kind)
    (id head : ExpId)
    (la : Lookahead)
    (rest : List ExpId) :
    (moveLookahead g id head la rest).numbered kinds =
      moveLookahead (g.numbered kinds) id head la rest := by
  have hModify : ∀ (g : Grammar) id f,
      (g.modifyNode id f).numbered kinds =
        (g.numbered kinds).modifyNode id f :=
    fun _ _ _ => rfl
  have hAdd : ∀ (g : Grammar) form place,
      (g.addExpansion form place).2.numbered kinds =
        ((g.numbered kinds).addExpansion form place).2 :=
    fun _ _ _ => rfl
  rw [moveLookahead_eq, moveLookahead_eq]
  simp only [hModify, Grammar.numbered_adopt, hAdd]
  rfl

theorem LookaheadFix.Moves.numbered
    {g g' : Grammar}
    (hMoves : Moves g g')
    (kinds : RegexId → Kind) :
    Moves (g.numbered kinds) (g'.numbered kinds) := by
  induction hMoves with
  | refl => exact .refl
  | @move g' id _ _ _ _ hNeeds ih =>
      have hSame : LookaheadFix.needsFix? (g'.numbered kinds) id =
          LookaheadFix.needsFix? g' id := rfl
      rw [numbered_moveLookahead]
      exact ih.move (hSame.trans hNeeds)

namespace LookaheadFix

/-
  What moving lookaheads makes of a grammar.  In a body, a
  sequence that is not at a choice point does not begin with a
  stated lookahead.  What was there has kept its form, except
  for sequences that needed it and the lookaheads at their
  heads: such a sequence keeps its other units in order behind
  a choice with one alternative, and its guard, which is met
  there, is met nowhere else.  Under any kinds and flags the
  same expansions are empty, and if no production is written by
  hand, they start with the same kinds and guards.
-/
structure Normalizes
    (g g' : Grammar) : Prop where
  settled :
    ∀ seq, g'.Reachable seq → atChoicePoint g' seq = false →
      ∀ la, g'.headLookahead? seq = some la → la.explicit = false
  rewritten :
    ∀ e < g.expansions.size, g'.form e = g.form e ∨
      ∃ seq head la rest new,
        needsFix? g seq = some (head, la, rest) ∧
        (e = seq ∨ e = head) ∧ g.expansions.size ≤ new ∧
        Moved g' seq head la rest new ∧
        g'.guardsWithin seq =
          la.guard.toList ++ rest.flatMap g'.guardsWithin
  guards : ∀ e, g'.guard? e = g.guard? e
  empty :
    ∀ kinds s, ∀ e < g.expansions.size,
      Nullable.nullable (g'.numbered kinds) s e =
        Nullable.nullable (g.numbered kinds) s e
  first :
    g.Ruled → ∀ kinds s, s.NamesWithin g →
      ∀ e < g.expansions.size,
        firstOf (g'.numbered kinds) s e =
          firstOf (g.numbered kinds) s e

theorem normalizes_run
    {g : Grammar}
    (hPlanted : g.Planted)
    (s : Session) :
    Normalizes g (run g s).1 := by
  have hMoves := moves_run g s
  have hFollows := hMoves.follows hPlanted
  have hNested := (hMoves.planted hPlanted).arranged.nested
  constructor
  · intro seq hReachable hPoint la hHead
    rcases Grammar.headLookahead?_eq_some hHead with
      ⟨head, rest, hSequence, hLookahead⟩
    have hNone := needsFix?_run hPlanted s hReachable
    by_contra hStated
    rw [needsFix?_eq_some_iff.mpr ⟨hPoint, hSequence, hLookahead,
      Bool.not_eq_false _ ▸ hStated⟩] at hNone
    cases hNone
  · intro e hOld
    refine (hFollows.kept e hOld).imp_right ?_
    rintro ⟨seq, head, la, rest, hNeeds, hNone, hPart⟩
    rcases hFollows.moved seq head la rest hNeeds hNone with
      ⟨new, hNew, hMoved⟩
    exact ⟨seq, head, la, rest, new, hNeeds, hPart, hNew, hMoved,
      hMoved.guardsWithin hNested⟩
  · exact hMoves.guard?
  · intro kinds s e hOld
    exact (hMoves.numbered kinds).nullable
      (hPlanted.numbered kinds) s hOld
  · intro hRuled kinds s hNames e hOld
    exact (hMoves.numbered kinds).firstOf
      (hPlanted.numbered kinds) hRuled hNames hOld

end LookaheadFix

/-
  Moving lookaheads in what calls put together comes to a normal
  form if no expansion stands in two places, and a second run
  changes nothing and warns of nothing.
-/
theorem Made.normalizes
    {b : Builder}
    (hMade : Made b)
    (hOwned : b.grammar.SinglyOwned)
    (s : Session) :
    LookaheadFix.Normalizes b.grammar
        (LookaheadFix.run b.grammar s).1 ∧
      ∀ s', LookaheadFix.run (LookaheadFix.run b.grammar s).1 s' =
        ((LookaheadFix.run b.grammar s).1, s') := by
  have hPlanted := hMade.planted hOwned
  have hAfter := (LookaheadFix.moves_run b.grammar s).planted
    hPlanted
  exact ⟨LookaheadFix.normalizes_run hPlanted s,
    LookaheadFix.run_eq_self hAfter.arranged.nested
      fun _ => LookaheadFix.needsFix?_run hPlanted s⟩

/- A session that knows the production. -/
def misplacedSession : Session :=
  References.enterProductions misplaced.built.grammar (.new {})

theorem Made.normalizes_misplaced :
    ∃ g, g = (LookaheadFix.run misplaced.built.grammar
        misplacedSession).1 ∧
      LookaheadFix.needsFix? misplaced.built.grammar 4 ≠ none ∧
      LookaheadFix.Normalizes misplaced.built.grammar g ∧
      (∀ s, LookaheadFix.run g s = (g, s)) ∧
      firstOf (g.numbered Nat.succ) misplacedSession 4 =
        firstOf (misplaced.built.grammar.numbered Nat.succ)
          misplacedSession 4 := by
  have hOwned : misplaced.built.grammar.SinglyOwned := by
    decide +kernel
  have hRuled : misplaced.built.grammar.Ruled := by
    unfold Grammar.Ruled
    decide +kernel
  have hClean : misplacedSession.Clean := by
    cbv
  have hNames : misplacedSession.NamesWithin
      misplaced.built.grammar :=
    (References.knowsNames_enterProductions rfl
      hClean).namesWithin
  have hNormal := Made.normalizes made_misplaced hOwned
    misplacedSession
  exact ⟨_, rfl, by decide +kernel, hNormal.1, hNormal.2,
    hNormal.1.first hRuled Nat.succ misplacedSession hNames 4
      (by decide +kernel)⟩

end Descent
