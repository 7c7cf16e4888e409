import Descent.Proofs.ChoiceConflicts
import Descent.Proofs.Forest

/-
  Lookaheads that have been moved.

  A move settles one sequence and leaves what all others need.
  The walk over a body is planned before the first move, but
  what still needs a move after all of them stood in the body
  from the start, so the walk has come to it.  Hence no sequence
  in a body needs a move in the end, and there is nothing to do
  for a second run.  What was there keeps its form, except for
  the sequences that were settled and the lookaheads at their
  heads, and no guard is lost or stands in a second place.

  Main declarations:
    * `LookaheadFix.needsFix?_moveLookahead`
    * `LookaheadFix.Moves`
    * `LookaheadFix.needsFix?_run`
    * `LookaheadFix.run_eq_self`
    * `LookaheadFix.Moves.follows`
-/

------------------------------------------------------------
-- One move
------------------------------------------------------------

namespace Descent

namespace LookaheadFix

theorem needsFix?_eq_some_iff
    {g : Grammar}
    {e head : ExpId}
    {la : Lookahead}
    {rest : List ExpId} :
    needsFix? g e = some (head, la, rest) ↔
      atChoicePoint g e = false ∧
        g.form e = .sequence (head :: rest) ∧
        g.form head = .lookahead la ∧ la.explicit = true := by
  constructor
  · intro hNeeds
    have hFix := fixable_of_needsFix? hNeeds
    refine ⟨?_, hFix.sequence, hFix.lookahead, ?_⟩
    · unfold needsFix? at hNeeds
      split at hNeeds
      · cases hNeeds
      · next hPoint => exact Bool.eq_false_iff.mpr hPoint
    · unfold needsFix? at hNeeds
      rw [hFix.sequence] at hNeeds
      dsimp only at hNeeds
      rw [hFix.lookahead] at hNeeds
      split at hNeeds
      · cases hNeeds
      · dsimp only at hNeeds
        split at hNeeds
        · next hStated => exact hStated
        · cases hNeeds
  · rintro ⟨hPoint, hSequence, hLookahead, hStated⟩
    unfold needsFix?
    rw [hPoint, hSequence]
    dsimp only
    rw [hLookahead]
    dsimp only
    rw [if_pos hStated]
    rfl

theorem needsFix?_eq_none
    {g : Grammar}
    {e : ExpId}
    (hForm : ∀ units, g.form e ≠ .sequence units) :
    needsFix? g e = none := by
  refine Option.eq_none_iff_forall_ne_some.mpr ?_
  rintro ⟨head, la, rest⟩ hNeeds
  exact hForm _ (needsFix?_eq_some_iff.mp hNeeds).2.1

section Move

variable {g : Grammar} {id head : ExpId}
variable {la : Lookahead} {rest : List ExpId}

/- Only the sequence gets another head. -/
theorem form_head_moveLookahead
    (hFix : Fixable g id head la rest)
    (hArranged : g.Arranged)
    {e u : ExpId}
    {units : List ExpId}
    (hForm : g.form e = .sequence (u :: units))
    (hOther : e ≠ id) :
    (moveLookahead g id head la rest).form u = g.form u ∨
      u = id := by
  have hChild : g.ChildOf u e :=
    Grammar.childOf_of_sequence hForm List.mem_cons_self
  by_cases hId : u = id
  · exact .inr hId
  · refine .inl (form_moveLookahead_of_old hFix
      (hArranged.nested.inside u e hChild) hId ?_)
    rintro rfl
    exact hOther (hArranged.owned.wholes hChild
      (hFix.childOf List.mem_cons_self))

theorem headLookahead?_moveLookahead
    (hFix : Fixable g id head la rest)
    (hArranged : g.Arranged)
    {e : ExpId}
    (hOld : e < g.expansions.size)
    (hOther : e ≠ id) :
    (moveLookahead g id head la rest).headLookahead? e =
      g.headLookahead? e := by
  have hMoved := moved_moveLookahead hFix
  unfold Grammar.headLookahead?
  by_cases hHead : e = head
  · rw [hHead, hMoved.head, hFix.lookahead]
  rw [form_moveLookahead_of_old hFix hOld hOther hHead]
  split
  · next u units hForm =>
      rcases form_head_moveLookahead hFix hArranged hForm hOther
        with hSame | rfl
      · rw [hSame]
      · rw [hMoved.sequence, hFix.sequence]
  · rfl

/- Who makes a choice still makes it. -/
theorem atChoicePoint_moveLookahead
    (hFix : Fixable g id head la rest)
    (hClimbing : g.Climbing)
    {e : ExpId}
    (hOld : e < g.expansions.size)
    (hHead : e ≠ head) :
    atChoicePoint (moveLookahead g id head la rest) e =
      atChoicePoint g e := by
  have hMoved := moved_moveLookahead hFix
  have hNot : ∀ k, e ≠ g.expansions.size + k :=
    fun k => Nat.ne_of_lt (Nat.lt_add_right k hOld)
  have hOwner : ((moveLookahead g id head la rest).node e).owner =
      (g.node e).owner := by
    refine (owner?_moveLookahead hFix rfl e).trans ?_
    rw [if_neg (by simp [hNot]), if_neg (by simp [hNot]),
      if_neg (by simp [hHead, Nat.ne_of_lt hOld])]
    rfl
  unfold atChoicePoint Grammar.ownerNode?
  rw [hOwner]
  cases hUp : (g.node e).owner with
  | none => rfl
  | some o =>
      cases o with
      | production p => rfl
      | node up =>
          dsimp only
          by_cases hId : up = id
          · rw [hId, hMoved.sequence, hFix.sequence]
          by_cases hIsHead : up = head
          · rw [hIsHead, hMoved.head, hFix.lookahead]
          rw [form_moveLookahead_of_old hFix
            (hClimbing.inside e up hUp) hId hIsHead]

/- The new alternative is at a choice point. -/
theorem atChoicePoint_alternative
    (hFix : Fixable g id head la rest) :
    atChoicePoint (moveLookahead g id head la rest)
      (g.expansions.size + 1) = true := by
  have hOwner : ((moveLookahead g id head la rest).node
      (g.expansions.size + 1)).owner =
        some (.node (g.expansions.size + 2)) := by
    refine (owner?_moveLookahead hFix rfl _).trans ?_
    rw [if_neg (by simp), if_pos (by simp)]
  unfold atChoicePoint Grammar.ownerNode?
  rw [hOwner]
  dsimp only
  rw [(moved_moveLookahead hFix).choice]

/- A move settles one sequence, and does nothing to others. -/
theorem needsFix?_moveLookahead
    (hFix : Fixable g id head la rest)
    (hPlanted : g.Planted)
    (e : ExpId) :
    needsFix? (moveLookahead g id head la rest) e =
      if e = id then none else needsFix? g e := by
  have hMoved := moved_moveLookahead hFix
  have hForms := form_moveLookahead hFix rfl e
  have hNew : ∀ k, needsFix? g (g.expansions.size + k) = none := by
    intro k
    apply needsFix?_eq_none
    rw [Grammar.form_of_size_le (Nat.le_add_right _ k)]
    exact nofun
  split_ifs at hForms ⊢ with h₁ h₂ h₃ h₄ h₅ h₆
  · -- The sequence has a head that is not stated.
    refine Option.eq_none_iff_forall_ne_some.mpr ?_
    rintro ⟨u, la', units⟩ hNeeds
    rcases needsFix?_eq_some_iff.mp hNeeds with
      ⟨-, hSequence, hLookahead, hStated⟩
    rw [hForms] at hSequence
    cases hSequence
    rw [hMoved.placeholder] at hLookahead
    cases hLookahead
    cases hStated
  · rw [needsFix?_eq_none (by simp [hForms]),
      needsFix?_eq_none (by simp [h₂, hFix.lookahead])]
  · rw [needsFix?_eq_none (by simp [hForms]), h₃, hNew]
  · rw [needsFix?_eq_none (by simp [hForms]), h₄, hNew]
  · rw [h₅, hNew]
    unfold needsFix?
    rw [if_pos (atChoicePoint_alternative hFix)]
  · rw [needsFix?_eq_none (by simp [hForms]), h₆]
    exact (hNew 0).symm
  · by_cases hOld : e < g.expansions.size
    · have hPoint := atChoicePoint_moveLookahead hFix
        hPlanted.climbing hOld h₂
      unfold needsFix?
      rw [hPoint, hForms]
      split
      · rfl
      · split
        · next u units hForm =>
            rcases form_head_moveLookahead hFix hPlanted.arranged
              hForm h₁ with hSame | rfl
            · rw [hSame]
            · rw [hMoved.sequence, hFix.sequence]
        · rfl
    · have hForm :=
        Grammar.form_of_size_le (Nat.not_lt.mp hOld)
      rw [needsFix?_eq_none (by simp [hForms, hForm]),
        needsFix?_eq_none (by simp [hForm])]

/- What is new stands for the sequence that it belongs to. -/
def origin
    (size id e : Nat) : Nat :=
  if e < size then e else id

theorem origin_of_lt
    {size : Nat}
    (id : Nat)
    {e : Nat}
    (hOld : e < size) :
    origin size id e = e :=
  if_pos hOld

theorem origin_add
    (size id k : Nat) :
    origin size id (size + k) = id :=
  if_neg (Nat.not_lt.mpr (Nat.le_add_right size k))

/- Parts come from parts, or from the same expansion. -/
theorem within_origin
    (hFix : Fixable g id head la rest)
    (hNested : g.Nested)
    {size : Nat}
    (hSize : g.expansions.size = size)
    {part whole : ExpId}
    (hChild :
      (moveLookahead g id head la rest).ChildOf part whole) :
    g.Within (origin size id part) (origin size id whole) := by
  have hOld : ∀ e, e < g.expansions.size →
      origin size id e = e :=
    fun _ hInside => origin_of_lt id (hSize ▸ hInside)
  have hSelf : origin size id id = id := hOld id hFix.id_lt
  have hUnit : ∀ u ∈ head :: rest,
      g.Within (origin size id u) id := by
    intro u hu
    have hHere := hFix.childOf hu
    rw [hOld u (hNested.inside u id hHere)]
    exact .single hHere
  rcases childOf_moveLookahead hFix hSize hChild with
    ⟨rfl, rfl | rfl | hRest⟩ | ⟨rfl, rfl⟩ |
    ⟨rfl, rfl | rfl⟩ | hBefore
  · rw [origin_add, hSelf]
    exact .refl
  · rw [origin_add, hSelf]
    exact .refl
  · rw [hSelf]
    exact hUnit part (List.mem_cons_of_mem head hRest)
  · rw [origin_add, origin_add]
    exact .refl
  · rw [origin_add]
    exact hUnit part List.mem_cons_self
  · have hAction : origin part id part = id :=
      origin_add part id 0
    rw [hAction, origin_add]
    exact .refl
  · rw [hOld part (hNested.inside part whole hBefore),
      hOld whole (Grammar.lt_size_of_childOf _ _ hBefore)]
    exact .single hBefore

/- What stands within an old expansion stood there before. -/
theorem within_moveLookahead
    (hFix : Fixable g id head la rest)
    (hNested : g.Nested)
    {e root : ExpId}
    (hOld : e < g.expansions.size)
    (hRoot : root < g.expansions.size)
    (hWithin : (moveLookahead g id head la rest).Within e root) :
    g.Within e root := by
  have hLifted : g.Within (origin g.expansions.size id e)
      (origin g.expansions.size id root) :=
    hWithin.lift' (origin g.expansions.size id)
      fun _ _ => within_origin hFix hNested rfl
  rw [origin_of_lt id hOld, origin_of_lt id hRoot] at hLifted
  exact hLifted

end Move

------------------------------------------------------------
-- Moves one after the other
------------------------------------------------------------

/- Lookaheads are moved while sequences need it. -/
inductive Moves
    (g : Grammar) : Grammar → Prop where
  | refl : Moves g g
  | move
      {g' : Grammar}
      {id head : ExpId}
      {la : Lookahead}
      {rest : List ExpId}
      (hMoves : Moves g g')
      (hNeeds : needsFix? g' id = some (head, la, rest)) :
      Moves g (moveLookahead g' id head la rest)

theorem moves_run
    (g : Grammar)
    (s : Session) :
    Moves g (run g s).1 :=
  run_induction (P := Moves g)
    (fun hNeeds hMoves => hMoves.move hNeeds) .refl s

namespace Moves

variable {g g' g'' : Grammar}

theorem trans
    (hFirst : Moves g g')
    (hSecond : Moves g' g'') :
    Moves g g'' := by
  induction hSecond with
  | refl => exact hFirst
  | move _ hNeeds ih => exact ih.move hNeeds

theorem planted
    (hMoves : Moves g g')
    (hPlanted : g.Planted) :
    g'.Planted := by
  induction hMoves with
  | refl => exact hPlanted
  | move _ hNeeds ih =>
      exact planted_moveLookahead (fixable_of_needsFix? hNeeds) ih

theorem size_le
    (hMoves : Moves g g') :
    g.expansions.size ≤ g'.expansions.size := by
  induction hMoves with
  | refl => exact le_rfl
  | move _ _ ih =>
      rw [size_moveLookahead]
      exact ih.trans (Nat.le_add_right _ 4)

theorem productions
    (hMoves : Moves g g') :
    g'.productions = g.productions := by
  induction hMoves with
  | refl => rfl
  | move _ _ ih => exact (productions_moveLookahead ..).trans ih

/- Nothing comes to need a move. -/
theorem needsFix?
    (hMoves : Moves g g')
    (hPlanted : g.Planted)
    {e : ExpId}
    {need : ExpId × Lookahead × List ExpId}
    (hNeeds : LookaheadFix.needsFix? g' e = some need) :
    LookaheadFix.needsFix? g e = some need := by
  induction hMoves with
  | refl => exact hNeeds
  | move hMoves hHere ih =>
      rw [needsFix?_moveLookahead (fixable_of_needsFix? hHere)
        (hMoves.planted hPlanted)] at hNeeds
      split at hNeeds
      · cases hNeeds
      · exact ih hNeeds

theorem within
    (hMoves : Moves g g')
    (hPlanted : g.Planted)
    {e root : ExpId}
    (hOld : e < g.expansions.size)
    (hRoot : root < g.expansions.size)
    (hWithin : g'.Within e root) :
    g.Within e root := by
  induction hMoves with
  | refl => exact hWithin
  | move hMoves hHere ih =>
      exact ih (within_moveLookahead (fixable_of_needsFix? hHere)
        (hMoves.planted hPlanted).arranged.nested
        (Nat.lt_of_lt_of_le hOld hMoves.size_le)
        (Nat.lt_of_lt_of_le hRoot hMoves.size_le) hWithin)

end Moves

------------------------------------------------------------
-- Runs
------------------------------------------------------------

theorem moves_fixSequence
    (gs : Grammar × Session)
    (id : ExpId) :
    Moves gs.1 (fixSequence gs id).1 := by
  unfold fixSequence
  dsimp only
  split
  · exact .refl
  · next hNeeds => exact .move .refl hNeeds

theorem moves_foldl_fixSequence
    (ids : List ExpId)
    (gs : Grammar × Session) :
    Moves gs.1 (ids.foldl fixSequence gs).1 := by
  induction ids generalizing gs with
  | nil => exact .refl
  | cons id ids ih =>
      exact (moves_fixSequence gs id).trans (ih _)

theorem moves_foldl_fixBody
    (bodies : List ExpId)
    (gs : Grammar × Session) :
    Moves gs.1 (bodies.foldl fixBody gs).1 := by
  induction bodies generalizing gs with
  | nil => exact .refl
  | cons body bodies ih =>
      exact (moves_foldl_fixSequence _ gs).trans (ih _)

theorem needsFix?_fixSequence
    {gs : Grammar × Session}
    (hPlanted : gs.1.Planted)
    (id : ExpId) :
    needsFix? (fixSequence gs id).1 id = none := by
  unfold fixSequence
  dsimp only
  split
  · next hNone => exact hNone
  · next hNeeds =>
      rw [needsFix?_moveLookahead (fixable_of_needsFix? hNeeds)
        hPlanted, if_pos rfl]

/- What a walk has come to needs no move any more. -/
theorem needsFix?_foldl_fixSequence
    {ids : List ExpId}
    {gs : Grammar × Session}
    (hPlanted : gs.1.Planted)
    {e : ExpId}
    (hMem : e ∈ ids) :
    needsFix? (ids.foldl fixSequence gs).1 e = none := by
  induction ids generalizing gs with
  | nil => cases hMem
  | cons id ids ih =>
      have hFirst := (moves_fixSequence gs id).planted hPlanted
      rcases List.mem_cons.mp hMem with rfl | hLater
      · refine Option.eq_none_iff_forall_ne_some.mpr ?_
        intro need hNeeds
        have hBefore := (moves_foldl_fixSequence ids _).needsFix?
          hFirst hNeeds
        rw [needsFix?_fixSequence hPlanted] at hBefore
        cases hBefore
      · exact ih hFirst hLater

/-
  A walk is planned before its moves.  Still, it comes to all
  that needs a move: what needs one after them stood in the body
  from the start.
-/
theorem needsFix?_foldl_fixBody
    {bodies : List ExpId}
    {gs : Grammar × Session}
    (hPlanted : gs.1.Planted)
    (hInside : ∀ body ∈ bodies, body < gs.1.expansions.size)
    {body e : ExpId}
    (hBody : body ∈ bodies)
    (hWithin : (bodies.foldl fixBody gs).1.Within e body) :
    needsFix? (bodies.foldl fixBody gs).1 e = none := by
  induction bodies generalizing gs with
  | nil => cases hBody
  | cons first bodies ih =>
      have hHere : Moves gs.1 (fixBody gs first).1 :=
        moves_foldl_fixSequence _ gs
      have hLater := moves_foldl_fixBody bodies (fixBody gs first)
      have hFirst := hHere.planted hPlanted
      rcases List.mem_cons.mp hBody with rfl | hBody
      · refine Option.eq_none_iff_forall_ne_some.mpr ?_
        intro need hNeeds
        have hAfter := hLater.needsFix? hFirst hNeeds
        have hBefore := hHere.needsFix? hPlanted hAfter
        have hOld : e < gs.1.expansions.size := by
          rcases need with ⟨head, la, rest⟩
          exact (fixable_of_needsFix? hBefore).id_lt
        have hFrom := (hHere.trans hLater).within hPlanted hOld
          (hInside _ List.mem_cons_self) hWithin
        have hReached :=
          (Grammar.mem_postOrder_iff hPlanted.arranged.nested).mpr
            hFrom
        rw [show needsFix? (fixBody gs _).1 e = none from
          needsFix?_foldl_fixSequence hPlanted hReached] at hAfter
        cases hAfter
      · refine ih hFirst ?_ hBody hWithin
        intro body hMem
        exact Nat.lt_of_lt_of_le
          (hInside body (List.mem_cons_of_mem first hMem))
          hHere.size_le

/- After a run nothing in a body needs a move. -/
theorem needsFix?_run
    {g : Grammar}
    (hPlanted : g.Planted)
    (s : Session)
    {e : ExpId}
    (hReachable : (run g s).1.Reachable e) :
    needsFix? (run g s).1 e = none := by
  rcases hReachable with ⟨p, hp, body, hBody, hWithin⟩
  rw [(moves_run g s).productions] at hp
  show needsFix? (g.bodies.foldl fixBody (g, s)).1 e = none
  exact needsFix?_foldl_fixBody hPlanted hPlanted.arranged.inside
    (Grammar.mem_bodies hp hBody) hWithin

theorem foldl_eq_self
    {α β : Type}
    {f : α → β → α}
    {a : α}
    {bs : List β}
    (hSame : ∀ b ∈ bs, f a b = a) :
    bs.foldl f a = a := by
  induction bs with
  | nil => rfl
  | cons b bs ih =>
      rw [List.foldl_cons, hSame b List.mem_cons_self]
      exact ih fun b' hb' => hSame b' (List.mem_cons_of_mem b hb')

/- A run does nothing if nothing in a body needs a move. -/
theorem run_eq_self
    {g : Grammar}
    (hNested : g.Nested)
    (hSettled : ∀ e, g.Reachable e → needsFix? g e = none)
    (s : Session) :
    run g s = (g, s) := by
  apply foldl_eq_self
  intro body hBody
  apply foldl_eq_self
  intro e hMem
  rcases List.mem_filterMap.mp hBody with ⟨p, hp, hIs⟩
  have hNone := hSettled e
    ⟨p, Array.mem_toList_iff.mp hp, body, hIs,
      (Grammar.mem_postOrder_iff hNested).mp hMem⟩
  unfold fixSequence
  dsimp only
  rw [hNone]

end LookaheadFix

------------------------------------------------------------
-- Guards
------------------------------------------------------------

namespace Grammar

/- The guards within an expansion, in the order of a walk. -/
def guardsWithin
    (g : Grammar)
    (root : ExpId) : List String :=
  (g.preOrder (fun _ => true) root).filterMap g.guard?

/- A walk in pre-order goes from an expansion to its parts. -/
theorem preOrder_eq
    {g : Grammar}
    (hNested : g.Nested)
    (root : ExpId) :
    g.preOrder (fun _ => true) root =
      root :: (g.children root).flatMap
        (g.preOrder fun _ => true) := by
  have hLess : ∀ e, rank g.ChildOf g.expansions.size e <
      g.expansions.size + 1 :=
    fun e => Nat.lt_succ_of_le (rank_le hNested.acyclic e)
  have hDeeper : g.preOrder (fun _ => true) root =
      g.preOrderTo (fun _ => true) (g.expansions.size + 1 + 1)
        root := by
    refine eq_of_rank_lt (f := g.preOrderTo fun _ => true)
      hNested.acyclic lt_size_of_childOf ?_ (hLess root)
      (Nat.lt_succ_of_lt (hLess root))
    intro d d' e hParts
    unfold preOrderTo
    rw [List.flatMap_congr fun part hPart => hParts part hPart]
  exact hDeeper

theorem guardsWithin_eq
    {g : Grammar}
    (hNested : g.Nested)
    (root : ExpId) :
    g.guardsWithin root =
      (g.guard? root).toList ++
        (g.children root).flatMap g.guardsWithin := by
  unfold guardsWithin
  rw [preOrder_eq hNested, List.filterMap_cons,
    List.filterMap_flatMap]
  cases g.guard? root with
  | none => rfl
  | some guard => rfl

end Grammar

namespace LookaheadFix

theorem Moves.guard?
    {g g' : Grammar}
    (hMoves : Moves g g')
    (e : ExpId) :
    g'.guard? e = g.guard? e := by
  induction hMoves with
  | refl => rfl
  | move _ hNeeds ih =>
      exact (guard?_moveLookahead (fixable_of_needsFix? hNeeds)
        e).trans ih

/- The guard of what was moved stands before all others. -/
theorem Moved.guardsWithin
    {g : Grammar}
    {id head new : ExpId}
    {la : Lookahead}
    {rest : List ExpId}
    (hMoved : Moved g id head la rest new)
    (hNested : g.Nested) :
    g.guardsWithin id =
      la.guard.toList ++ rest.flatMap g.guardsWithin := by
  have hParts : ∀ {e units}, g.form e = .sequence units →
      g.guardsWithin e = units.flatMap g.guardsWithin := by
    intro e units hForm
    rw [Grammar.guardsWithin_eq hNested]
    unfold Grammar.guard? Grammar.children
    rw [hForm]
    rfl
  have hPlaceholder : g.guardsWithin (new + 3) = [] := by
    rw [Grammar.guardsWithin_eq hNested]
    unfold Grammar.guard? Grammar.children
    rw [hMoved.placeholder]
    rfl
  have hHead : g.guardsWithin head = la.guard.toList := by
    rw [Grammar.guardsWithin_eq hNested]
    unfold Grammar.guard? Grammar.children
    rw [hMoved.head]
    exact List.append_nil _
  have hAction : g.guardsWithin new = [] := by
    rw [Grammar.guardsWithin_eq hNested]
    unfold Grammar.guard? Grammar.children
    rw [hMoved.action]
    rfl
  have hAlternative :
      g.guardsWithin (new + 1) = la.guard.toList := by
    rw [hParts hMoved.alternative, List.flatMap_cons,
      List.flatMap_singleton, hHead, hAction, List.append_nil]
  have hChoice : g.guardsWithin (new + 2) = la.guard.toList := by
    rw [Grammar.guardsWithin_eq hNested]
    unfold Grammar.guard? Grammar.children
    rw [hMoved.choice]
    exact (List.flatMap_singleton ..).trans hAlternative
  rw [hParts hMoved.sequence, List.flatMap_cons,
    List.flatMap_cons, hPlaceholder, hChoice, List.nil_append]

------------------------------------------------------------
-- What has changed
------------------------------------------------------------

/-
  What was there has kept its form, except for sequences that
  needed a move and the lookaheads at their heads, which were
  moved.
-/
structure Follows
    (g g' : Grammar) : Prop where
  kept :
    ∀ e < g.expansions.size, g'.form e = g.form e ∨
      ∃ seq head la rest,
        needsFix? g seq = some (head, la, rest) ∧
        needsFix? g' seq = none ∧ (e = seq ∨ e = head)
  moved :
    ∀ seq head la rest,
      needsFix? g seq = some (head, la, rest) →
        needsFix? g' seq = none →
          ∃ new, g.expansions.size ≤ new ∧
            Moved g' seq head la rest new

/- A later move leaves what was moved. -/
theorem Moved.stays
    {g : Grammar}
    {id head seq head' new : ExpId}
    {la la' : Lookahead}
    {rest rest' : List ExpId}
    (hFix : Fixable g id head la rest)
    (hArranged : g.Arranged)
    (hMoved : Moved g seq head' la' rest' new)
    (hOther : seq ≠ id)
    (hId : id < new)
    (hHead : head < new) :
    Moved (moveLookahead g id head la rest) seq head' la' rest'
      new := by
  have hKept : ∀ e, e < g.expansions.size → e ≠ id → e ≠ head →
      (moveLookahead g id head la rest).form e = g.form e :=
    fun _ => form_moveLookahead_of_old hFix
  have hLater : ∀ k,
      new + k < g.expansions.size →
        (moveLookahead g id head la rest).form (new + k) =
          g.form (new + k) := fun k hIn =>
    hKept _ hIn (Nat.lt_add_right k hId).ne'
      (Nat.lt_add_right k hHead).ne'
  have hIn : ∀ {e form}, g.form e = form → form ≠ .action "" →
      e < g.expansions.size := by
    rintro e form rfl hForm
    exact Grammar.lt_size_of_expansion hForm
  have hUnit : ∀ u ∈ [head', new], g.ChildOf u (new + 1) :=
    fun _ => Grammar.childOf_of_sequence hMoved.alternative
  constructor
  · rw [hKept seq (hIn hMoved.sequence (by simp)) hOther ?_]
    · exact hMoved.sequence
    · rintro rfl
      have hForm := hMoved.sequence
      rw [hFix.lookahead] at hForm
      cases hForm
  · rw [hLater 3 (hIn hMoved.placeholder (by simp))]
    exact hMoved.placeholder
  · rw [hLater 2 (hIn hMoved.choice (by simp))]
    exact hMoved.choice
  · rw [hLater 1 (hIn hMoved.alternative (by simp))]
    exact hMoved.alternative
  · rw [hKept head' (hIn hMoved.head (by simp)) ?_ ?_]
    · exact hMoved.head
    · rintro rfl
      have hForm := hMoved.head
      rw [hFix.sequence] at hForm
      cases hForm
    · rintro rfl
      have hSame : new + 1 = id :=
        hArranged.owned.wholes (hUnit _ List.mem_cons_self)
          (hFix.childOf List.mem_cons_self)
      exact (Nat.lt_add_right 1 hId).ne' hSame
  · have hNew := hArranged.nested.inside new (new + 1)
      (hUnit new (by simp))
    exact (hLater 0 hNew).trans hMoved.action

theorem Moves.follows
    {g g' : Grammar}
    (hMoves : Moves g g')
    (hPlanted : g.Planted) :
    Follows g g' := by
  induction hMoves with
  | refl =>
      refine ⟨fun _ _ => .inl rfl, ?_⟩
      intro seq head la rest hNeeds hNone
      rw [hNone] at hNeeds
      cases hNeeds
  | @move g' id head la rest hMoves hHere ih =>
      have hFix := fixable_of_needsFix? hHere
      have hBefore := hMoves.needsFix? hPlanted hHere
      have hOld := fixable_of_needsFix? hBefore
      have hAfter := needsFix?_moveLookahead hFix
        (hMoves.planted hPlanted)
      constructor
      · intro e hInside
        by_cases hChanged : e = id ∨ e = head
        · exact .inr ⟨id, head, la, rest, hBefore,
            (hAfter id).trans (if_pos rfl), hChanged⟩
        · rw [not_or] at hChanged
          rw [form_moveLookahead_of_old hFix
            (Nat.lt_of_lt_of_le hInside hMoves.size_le)
            hChanged.1 hChanged.2]
          refine (ih.kept e hInside).imp_right ?_
          rintro ⟨seq, u, la', units, hNeeds, hNone, hPart⟩
          refine ⟨seq, u, la', units, hNeeds, ?_, hPart⟩
          rw [hAfter, hNone, ite_self]
      · intro seq u la' units hNeeds hNone
        by_cases hSame : seq = id
        · subst hSame
          rw [hBefore] at hNeeds
          cases hNeeds
          exact ⟨g'.expansions.size, hMoves.size_le,
            moved_moveLookahead hFix⟩
        · rw [hAfter, if_neg hSame] at hNone
          rcases ih.moved seq u la' units hNeeds hNone with
            ⟨new, hNew, hMoved⟩
          exact ⟨new, hNew, hMoved.stays hFix
            (hMoves.planted hPlanted).arranged hSame
            (Nat.lt_of_lt_of_le hOld.id_lt hNew)
            (Nat.lt_of_lt_of_le hOld.head_lt hNew)⟩

end LookaheadFix

end Descent
