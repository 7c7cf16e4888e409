import Descent.Proofs.Callers
import Descent.Proofs.Owners

/-
  The forest of expansions.

  If no expansion stands in two places, then what a builder puts
  together is a forest whose trees are the bodies of productions
  and what stands in none.  Every expansion knows its owner, so
  the way up from an expansion in a body ends at its production,
  and walks down from a body come to every expansion in it once.
  Moving lookaheads leaves all this as it is, although what a
  dropped lookahead looked for keeps its owner and is a part of
  nothing any more.

  Main declarations:
    * `Grammar.Forest` and `Grammar.Walkable`
    * `Grammar.mem_postOrder_iff`
    * `Grammar.Owned.nodup_preOrder`
    * `Grammar.productionOf?_of_within`
    * `Made.forest`
-/

------------------------------------------------------------
-- Forests
------------------------------------------------------------

namespace Descent

namespace Grammar

/-
  Sequences have heads, choices are between sequences, and a
  sequence or a choice is repeated.
-/
structure Shaped
    (g : Grammar) : Prop where
  headed : g.Headed
  alternatives :
    ∀ id alternatives, g.form id = .choice alternatives →
      ∀ alt ∈ alternatives, (g.form alt).shape = .sequence
  repeated :
    ∀ id body, g.form id = .oneOrMore body ∨
        g.form id = .zeroOrMore body ∨
        g.form id = .zeroOrOne body →
      (g.form body).shape = .sequence ∨
        (g.form body).shape = .choice

/- Every expansion is shaped well and knows where it stands. -/
structure Forest
    (g : Grammar) : Prop extends Shaped g where
  parts :
    ∀ whole, ∀ part ∈ g.children whole,
      g.owner? part = some (.node whole)
  bodies :
    ∀ (id : ProdId) p body, g.productions[id]? = some p →
      p.expansion? = some body →
        g.owner? body = some (.production id)

/- An expansion that has an expansion for its owner. -/
def OwnedBy
    (g : Grammar)
    (e up : ExpId) : Prop :=
  g.owner? e = some (.node up)

/- The way up ends at an expansion, with the given production. -/
def TopOf
    (g : Grammar)
    (top : ExpId) : Option ProdId → Prop
  | none => g.owner? top = none
  | some id => g.owner? top = some (.production id)

/-
  The way up from any expansion comes to an expansion that no
  other one owns, and gives the production that owns this one,
  if any; it takes no more steps than there are expansions.
  From what stands in a body the production is that of the
  body.  Walks down from a body come to all that stands in it,
  once.
-/
structure Walkable
    (g : Grammar) : Prop where
  ends :
    ∀ e, ∃ top,
      Relation.ReflTransGen g.OwnedBy e top ∧
        g.TopOf top (g.productionOf? e)
  within :
    ∀ e steps, g.expansions.size < steps →
      g.productionWithin? steps e = g.productionOf? e
  up :
    ∀ (id : ProdId) p body, g.productions[id]? = some p →
      p.expansion? = some body →
        ∀ e, g.Within e body → g.productionOf? e = some id
  preOrder :
    ∀ body ∈ g.bodies,
      (g.preOrder (fun _ => true) body).Nodup ∧
        ∀ e, e ∈ g.preOrder (fun _ => true) body ↔
          g.Within e body
  postOrder :
    ∀ body ∈ g.bodies,
      (g.postOrder body).Nodup ∧
        ∀ e, e ∈ g.postOrder body ↔ g.Within e body

theorem WellFormed.shaped
    {g : Grammar}
    (hFormed : g.WellFormed) :
    g.Shaped := by
  have hAdmits : ∀ id, g.form id ≠ .action "" →
      g.Admits (g.form id) :=
    fun id hForm => hFormed.forms id (lt_size_of_expansion hForm)
  refine ⟨hFormed.headed, ?_, ?_⟩
  · intro id alternatives hForm alt hAlt
    have hHere := hAdmits id (by simp [hForm])
    rw [hForm] at hHere
    exact (hHere alt hAlt).2
  · rintro id body (hForm | hForm | hForm)
    all_goals
      have hHere := hAdmits id (by simp [hForm])
      rw [hForm] at hHere
      exact hHere.2

theorem Shaped.forest_of_attributed
    {g : Grammar}
    (hShaped : g.Shaped)
    (hAttributed : g.Attributed) :
    g.Forest where
  toShaped := hShaped
  parts whole part hPart := hAttributed part (.node whole) hPart
  bodies id p body hAt hBody :=
    hAttributed body (.production id) ⟨p, hAt, hBody⟩

------------------------------------------------------------
-- Walks down
------------------------------------------------------------

section Down

variable {g : Grammar}

theorem mem_preOrder_iff
    (hNested : g.Nested)
    {root id : ExpId} :
    id ∈ g.preOrder (fun _ => true) root ↔ g.Within id root :=
  ⟨within_of_mem_preOrderTo, mem_preOrder hNested⟩

theorem within_of_mem_postOrderTo
    {depth : Nat}
    {root id : ExpId}
    (hMem : id ∈ g.postOrderTo depth root) :
    g.Within id root := by
  induction depth generalizing root with
  | zero => cases hMem
  | succ depth ih =>
      unfold postOrderTo at hMem
      rcases List.mem_append.mp hMem with hBelow | hRoot
      · rcases List.mem_flatMap.mp hBelow with
          ⟨part, hPart, hThere⟩
        exact (ih hThere).tail hPart
      · rw [List.mem_singleton.mp hRoot]
        exact .refl

/- A walk in post-order comes to all parts. -/
theorem mem_postOrderTo
    (hNested : g.Nested)
    {depth : Nat}
    {root id : ExpId}
    (hDepth : rank g.ChildOf g.expansions.size root < depth)
    (hWithin : g.Within id root) :
    id ∈ g.postOrderTo depth root := by
  induction depth generalizing root with
  | zero => exact absurd hDepth (Nat.not_lt_zero _)
  | succ depth ih =>
      unfold postOrderTo
      rcases Relation.ReflTransGen.cases_tail hWithin with
        rfl | ⟨part, hBelow, hChild⟩
      · exact List.mem_append_right _ List.mem_cons_self
      · have hLess := rank_lt hNested.acyclic
          lt_size_of_childOf hChild
        apply List.mem_append_left
        exact List.mem_flatMap.mpr
          ⟨part, hChild, ih (by omega) hBelow⟩

theorem mem_postOrder_iff
    (hNested : g.Nested)
    {root id : ExpId} :
    id ∈ g.postOrder root ↔ g.Within id root :=
  ⟨within_of_mem_postOrderTo, mem_postOrderTo hNested
    (Nat.lt_succ_of_le (rank_le hNested.acyclic root))⟩

/- Walks through different parts have nothing in common. -/
theorem Owned.nodup_flatMap
    (hOwned : g.Owned)
    (hNested : g.Nested)
    {walk : ExpId → List ExpId}
    {whole : ExpId}
    (hWithin : ∀ part id, id ∈ walk part → g.Within id part)
    (hEach : ∀ part, (walk part).Nodup) :
    ((g.children whole).flatMap walk).Nodup := by
  refine List.nodup_flatMap.mpr ⟨fun part _ => hEach part, ?_⟩
  refine (hOwned.parts whole).imp_of_mem ?_
  intro a b ha hb hOther id hLeft hRight
  exact hOther (hOwned.apart hNested (hWithin a id hLeft)
    (hWithin b id hRight) ha hb)

theorem notMem_flatMap
    (hNested : g.Nested)
    {walk : ExpId → List ExpId}
    {whole : ExpId}
    (hWithin : ∀ part id, id ∈ walk part → g.Within id part) :
    whole ∉ (g.children whole).flatMap walk := by
  intro hMem
  rcases List.mem_flatMap.mp hMem with ⟨part, hPart, hThere⟩
  exact not_within_part hNested hPart
    (hWithin part whole hThere)

/- A walk in pre-order comes to nothing twice. -/
theorem Owned.nodup_preOrder
    (hOwned : g.Owned)
    (hNested : g.Nested)
    (descend : Expansion → Bool)
    (root : ExpId) :
    (g.preOrder descend root).Nodup := by
  suffices hTo : ∀ depth root,
      (g.preOrderTo descend depth root).Nodup from hTo _ root
  intro depth
  induction depth with
  | zero => exact fun _ => List.nodup_nil
  | succ depth ih =>
      intro root
      unfold preOrderTo
      split
      · exact List.nodup_cons.mpr
          ⟨notMem_flatMap hNested fun _ _ =>
            within_of_mem_preOrderTo,
            hOwned.nodup_flatMap hNested
              (fun _ _ => within_of_mem_preOrderTo) ih⟩
      · exact List.nodup_singleton root

/- A walk in post-order comes to nothing twice. -/
theorem Owned.nodup_postOrder
    (hOwned : g.Owned)
    (hNested : g.Nested)
    (root : ExpId) :
    (g.postOrder root).Nodup := by
  suffices hTo : ∀ depth root,
      (g.postOrderTo depth root).Nodup from hTo _ root
  intro depth
  induction depth with
  | zero => exact fun _ => List.nodup_nil
  | succ depth ih =>
      intro root
      unfold postOrderTo
      refine List.nodup_append.mpr
        ⟨hOwned.nodup_flatMap hNested
          (fun _ _ => within_of_mem_postOrderTo) ih,
          List.nodup_singleton root, ?_⟩
      rintro id hBelow _ hRoot rfl
      rw [List.mem_singleton.mp hRoot] at hBelow
      exact notMem_flatMap hNested
        (fun _ _ => within_of_mem_postOrderTo) hBelow

end Down

------------------------------------------------------------
-- The way up
------------------------------------------------------------

/- Owners are there, and some number goes up to them. -/
structure Climbing
    (g : Grammar) : Prop where
  inside :
    ∀ e up, g.OwnedBy e up → up < g.expansions.size
  ranked :
    ∃ f : ExpId → Nat, ∀ e up, g.OwnedBy e up → f e < f up

theorem owner?_of_size_le
    {g : Grammar}
    {e : ExpId}
    (hOutside : g.expansions.size ≤ e) :
    g.owner? e = none := by
  simp only [owner?, node, Array.getD_eq_getD_getElem?,
    Array.getElem?_eq_none hOutside]
  rfl

theorem lt_size_of_ownedBy
    {g : Grammar}
    {e up : ExpId}
    (hUp : g.OwnedBy e up) :
    e < g.expansions.size := by
  by_contra hOutside
  unfold OwnedBy at hUp
  rw [owner?_of_size_le (Nat.not_lt.mp hOutside)] at hUp
  cases hUp

/- What is recorded is a place, and so owners are above. -/
theorem Recorded.climbing
    {g : Grammar}
    (hRecorded : g.Recorded)
    (hNested : g.Nested) :
    g.Climbing := by
  have hChild : ∀ e up, g.OwnedBy e up → g.ChildOf e up :=
    fun e up => hRecorded.held e (.node up)
  rcases hNested.ranked with ⟨f, hLess⟩
  exact ⟨fun e up hUp => lt_size_of_childOf e up (hChild e up hUp),
    f, fun e up hUp => hLess e up (hChild e up hUp)⟩

theorem Climbing.acyclic
    {g : Grammar}
    (hClimbing : g.Climbing) :
    Acyclic (Function.swap g.OwnedBy) := by
  rcases hClimbing.ranked with ⟨f, hLess⟩
  intro i hCycle
  exact acyclic_of_lt hLess i (Relation.transGen_swap.mp hCycle)

/- More steps than there are expansions change nothing. -/
theorem Climbing.productionWithin?_eq
    {g : Grammar}
    (hClimbing : g.Climbing)
    {steps steps' : Nat}
    (hLeft : g.expansions.size < steps)
    (hRight : g.expansions.size < steps')
    (e : ExpId) :
    g.productionWithin? steps e = g.productionWithin? steps' e := by
  have hAcyclic := hClimbing.acyclic
  have hInside : ∀ up e, Function.swap g.OwnedBy up e →
      e < g.expansions.size :=
    fun _ _ hUp => lt_size_of_ownedBy hUp
  have hRank : rank (Function.swap g.OwnedBy) g.expansions.size e ≤
      g.expansions.size :=
    rank_le hAcyclic e
  refine eq_of_rank_lt (f := g.productionWithin?) hAcyclic hInside
    ?_ (hRank.trans_lt hLeft) (hRank.trans_lt hRight)
  intro d d' i hUp
  unfold productionWithin?
  cases hOwner : (g.node i).owner with
  | none => rfl
  | some o =>
      cases o with
      | production p => rfl
      | node up => exact hUp up hOwner

theorem productionOf?_of_owner_production
    {g : Grammar}
    {e : ExpId}
    {id : ProdId}
    (hOwner : g.owner? e = some (.production id)) :
    g.productionOf? e = some id := by
  unfold owner? at hOwner
  unfold productionOf? productionWithin?
  rw [hOwner]

/- With one step more, the way up goes on from the owner. -/
theorem Climbing.productionOf?_of_ownedBy
    {g : Grammar}
    (hClimbing : g.Climbing)
    {e up : ExpId}
    (hOwner : g.OwnedBy e up) :
    g.productionOf? e = g.productionOf? up := by
  unfold OwnedBy owner? at hOwner
  have hMore : g.productionOf? e =
      g.productionWithin? (g.expansions.size + 2) e :=
    hClimbing.productionWithin?_eq (Nat.lt_succ_self _)
      (Nat.lt_succ_of_lt (Nat.lt_succ_self _)) e
  unfold productionWithin? at hMore
  rw [hOwner] at hMore
  exact hMore

/- The way up from any expansion comes to an end. -/
theorem Climbing.exists_top
    {g : Grammar}
    (hClimbing : g.Climbing)
    (e : ExpId) :
    ∃ top, Relation.ReflTransGen g.OwnedBy e top ∧
      g.TopOf top (g.productionOf? e) := by
  have hFounded : WellFounded (Function.swap g.OwnedBy) :=
    hClimbing.acyclic.wellFounded
      fun _ _ hUp => lt_size_of_ownedBy hUp
  -- Owners come before what they own.
  induction e using hFounded.induction with
  | _ e ih =>
      cases hOwner : g.owner? e with
      | none =>
          refine ⟨e, .refl, ?_⟩
          have hNone : g.productionOf? e = none := by
            have hHere := hOwner
            unfold owner? at hHere
            unfold productionOf? productionWithin?
            rw [hHere]
          rw [hNone]
          exact hOwner
      | some o =>
          cases o with
          | production id =>
              refine ⟨e, .refl, ?_⟩
              rw [productionOf?_of_owner_production hOwner]
              exact hOwner
          | node up =>
              rcases ih up hOwner with ⟨top, hWay, hTop⟩
              refine ⟨top, .head hOwner hWay, ?_⟩
              rw [hClimbing.productionOf?_of_ownedBy hOwner]
              exact hTop

/- The way up from what stands in a body. -/
theorem productionOf?_of_within
    {g : Grammar}
    (hClimbing : g.Climbing)
    (hAttributed : g.Attributed)
    {id : ProdId}
    {p : Production}
    {body e : ExpId}
    (hAt : g.productions[id]? = some p)
    (hBody : p.expansion? = some body)
    (hWithin : g.Within e body) :
    g.productionOf? e = some id := by
  induction hWithin using
    Relation.ReflTransGen.head_induction_on with
  | refl =>
      exact productionOf?_of_owner_production
        (hAttributed body (.production id) ⟨p, hAt, hBody⟩)
  | @head e up hChild _ ih =>
      exact (hClimbing.productionOf?_of_ownedBy
        (hAttributed e (.node up) hChild)).trans ih

theorem Arranged.walkable
    {g : Grammar}
    (hArranged : g.Arranged)
    (hAttributed : g.Attributed)
    (hClimbing : g.Climbing) :
    g.Walkable where
  ends := hClimbing.exists_top
  within e _ hSteps :=
    hClimbing.productionWithin?_eq hSteps (Nat.lt_succ_self _) e
  up _ _ _ hAt hBody _ hWithin :=
    productionOf?_of_within hClimbing hAttributed hAt hBody
      hWithin
  preOrder body _ :=
    ⟨hArranged.owned.nodup_preOrder hArranged.nested _ body,
      fun _ => mem_preOrder_iff hArranged.nested⟩
  postOrder body _ :=
    ⟨hArranged.owned.nodup_postOrder hArranged.nested body,
      fun _ => mem_postOrder_iff hArranged.nested⟩

end Grammar

------------------------------------------------------------
-- Moved lookaheads
------------------------------------------------------------

namespace LookaheadFix

section Moved

variable {g : Grammar} {id head : ExpId}
variable {la : Lookahead} {rest : List ExpId}

/- What stands in place of a lookahead once it has been moved. -/
structure Moved
    (g : Grammar)
    (id head : ExpId)
    (la : Lookahead)
    (rest : List ExpId)
    (new : ExpId) : Prop where
  sequence : g.form id = .sequence ((new + 3) :: (new + 2) :: rest)
  placeholder :
    g.form (new + 3) = .lookahead ⟨la.amount, false, none, none⟩
  choice : g.form (new + 2) = .choice [new + 1]
  alternative : g.form (new + 1) = .sequence [head, new]
  head : g.form head = .lookahead ⟨0, true, la.guard, none⟩
  action : g.form new = .action ""

theorem Fixable.ne_new
    (hFix : Fixable g id head la rest)
    (k : Nat) :
    g.expansions.size + k ≠ id ∧
      g.expansions.size + k ≠ head :=
  ⟨(Nat.lt_add_right k hFix.id_lt).ne',
    (Nat.lt_add_right k hFix.head_lt).ne'⟩

theorem moved_moveLookahead
    (hFix : Fixable g id head la rest) :
    Moved (moveLookahead g id head la rest) id head la rest
      g.expansions.size := by
  have hForms := form_moveLookahead hFix rfl
  have hNew := hFix.ne_new
  generalize g.expansions.size = size at hForms hNew ⊢
  have hApart : ∀ {j k : Nat}, j ≠ k → size + j ≠ size + k :=
    fun h => fun hSame => h (Nat.add_left_cancel hSame)
  constructor
  · rw [hForms, if_pos rfl]
  · rw [hForms, if_neg (hNew 3).1, if_neg (hNew 3).2, if_pos rfl]
  · rw [hForms, if_neg (hNew 2).1, if_neg (hNew 2).2,
      if_neg (hApart (by decide)), if_pos rfl]
  · rw [hForms, if_neg (hNew 1).1, if_neg (hNew 1).2,
      if_neg (hApart (by decide)), if_neg (hApart (by decide)),
      if_pos rfl]
  · rw [hForms, if_neg hFix.ne.symm, if_pos rfl]
  · have hFirst : size ≠ id ∧ size ≠ head := hNew 0
    have hOthers : ∀ k, k ≠ 0 → size ≠ size + k :=
      fun k h => hApart h.symm
    rw [hForms, if_neg hFirst.1, if_neg hFirst.2,
      if_neg (hOthers 3 (by decide)),
      if_neg (hOthers 2 (by decide)),
      if_neg (hOthers 1 (by decide)), if_pos rfl]

/- What was there keeps its form, but for the sequence and its head. -/
theorem form_moveLookahead_of_old
    (hFix : Fixable g id head la rest)
    {e : ExpId}
    (hOld : e < g.expansions.size)
    (hId : e ≠ id)
    (hHead : e ≠ head) :
    (moveLookahead g id head la rest).form e = g.form e := by
  have hNot : ∀ k, e ≠ g.expansions.size + k :=
    fun k => Nat.ne_of_lt (Nat.lt_add_right k hOld)
  rw [form_moveLookahead hFix rfl, if_neg hId, if_neg hHead,
    if_neg (hNot 3), if_neg (hNot 2), if_neg (hNot 1),
    if_neg (Nat.ne_of_lt hOld)]

/- What was there keeps its shape. -/
theorem shape_moveLookahead
    (hFix : Fixable g id head la rest)
    {e : ExpId}
    (hOld : e < g.expansions.size) :
    ((moveLookahead g id head la rest).form e).shape =
      (g.form e).shape := by
  have hMoved := moved_moveLookahead hFix
  by_cases hId : e = id
  · rw [hId, hMoved.sequence, hFix.sequence]
    rfl
  by_cases hHead : e = head
  · rw [hHead, hMoved.head, hFix.lookahead]
    rfl
  rw [form_moveLookahead_of_old hFix hOld hId hHead]

/- Nothing new is repeated or caught, and only one choice is new. -/
theorem form_of_moveLookahead
    (hFix : Fixable g id head la rest)
    {e : ExpId}
    (hSequence :
      ((moveLookahead g id head la rest).form e).shape ≠
        .sequence)
    (hLookahead :
      ((moveLookahead g id head la rest).form e).shape ≠
        .lookahead)
    (hChoice : e ≠ g.expansions.size + 2) :
    (moveLookahead g id head la rest).form e = g.form e := by
  rw [form_moveLookahead hFix rfl] at hSequence hLookahead ⊢
  split_ifs at hSequence hLookahead ⊢ with h₁ h₂ h₃ h₅ h₆
  · exact absurd rfl hSequence
  · exact absurd rfl hLookahead
  · exact absurd rfl hLookahead
  · exact absurd rfl hSequence
  · rw [h₆, Grammar.form_of_size_le le_rfl]
  · rfl

/- Moving a lookahead leaves expansions shaped well. -/
theorem shaped_moveLookahead
    (hFix : Fixable g id head la rest)
    (hShaped : g.Shaped) :
    (moveLookahead g id head la rest).Shaped := by
  have hMoved := moved_moveLookahead hFix
  have hKept : ∀ {e : ExpId} {shape : Shape}, shape ≠ .other →
      (g.form e).shape = shape →
        ((moveLookahead g id head la rest).form e).shape =
          shape := by
    intro e shape hKnown hShape
    rw [shape_moveLookahead hFix, hShape]
    apply Grammar.lt_size_of_expansion
    intro hForm
    rw [hForm] at hShape
    exact hKnown hShape.symm
  refine ⟨headed_moveLookahead hFix hShaped.headed, ?_, ?_⟩
  · intro e alternatives hForm alt hAlt
    by_cases hNew : e = g.expansions.size + 2
    · rw [hNew, hMoved.choice] at hForm
      cases hForm
      rw [List.mem_singleton.mp hAlt, hMoved.alternative]
      rfl
    · have hOld := form_of_moveLookahead hFix
        (by rw [hForm]; exact nofun)
        (by rw [hForm]; exact nofun) hNew
      exact hKept (by decide) (hShaped.alternatives e
        alternatives (hOld.symm.trans hForm) alt hAlt)
  · intro e body hForm
    have hOld : (moveLookahead g id head la rest).form e =
        g.form e := by
      apply form_of_moveLookahead hFix
      · rcases hForm with h | h | h <;> rw [h] <;> exact nofun
      · rcases hForm with h | h | h <;> rw [h] <;> exact nofun
      · rintro rfl
        rw [hMoved.choice] at hForm
        rcases hForm with h | h | h <;> cases h
    rw [hOld] at hForm
    exact (hShaped.repeated e body hForm).imp
      (hKept (by decide)) (hKept (by decide))

/- Moving a lookahead leaves owners above what they own. -/
theorem climbing_moveLookahead
    (hFix : Fixable g id head la rest)
    (hAttributed : g.Attributed)
    (hClimbing : g.Climbing) :
    (moveLookahead g id head la rest).Climbing := by
  generalize hSize : g.expansions.size = size
  rcases hClimbing with ⟨hInside, f, hLess⟩
  have hHead := hLess head id (hAttributed head (.node id)
    (hFix.childOf List.mem_cons_self))
  have hIdIn : id < size := hSize ▸ hFix.id_lt
  have hHeadIn : head < size := hSize ▸ hFix.head_lt
  have hOld : ∀ e, e < size → spread f size head e = 3 * f e :=
    fun _ => spread_of_lt f head
  rcases spread_new f size head with
    ⟨hAction, hAlternative, hChoice, hPlaceholder⟩
  have hUps : ∀ e up,
      (moveLookahead g id head la rest).OwnedBy e up →
        up < size + 4 ∧
          spread f size head e < spread f size head up := by
    intro e up hUp
    unfold Grammar.OwnedBy at hUp
    rw [owner?_moveLookahead hFix hSize] at hUp
    split_ifs at hUp with h₁ h₂ h₃
    · cases hUp
      rw [hOld id hIdIn]
      refine ⟨Nat.lt_add_right 4 hIdIn, ?_⟩
      rcases List.mem_pair.mp h₁ with rfl | rfl
      · rw [hChoice]
        omega
      · rw [hPlaceholder]
        omega
    · cases hUp
      rw [List.mem_singleton.mp h₂, hChoice, hAlternative]
      exact ⟨Nat.add_lt_add_left (by decide) size,
        Nat.lt_succ_self _⟩
    · cases hUp
      rw [hAlternative]
      refine ⟨Nat.add_lt_add_left (by decide) size, ?_⟩
      rcases List.mem_pair.mp h₃ with rfl | rfl
      · rw [hOld _ hHeadIn]
        exact Nat.lt_succ_self _
      · rw [hAction]
        exact Nat.succ_pos _
    · have hUpIn := hInside e up hUp
      have hIn := Grammar.lt_size_of_ownedBy hUp
      rw [hSize] at hUpIn hIn
      rw [hOld e hIn, hOld up hUpIn]
      exact ⟨Nat.lt_add_right 4 hUpIn,
        Nat.mul_lt_mul_of_pos_left (hLess e up hUp) (by decide)⟩
  refine ⟨?_, spread f size head, fun e up hUp =>
    (hUps e up hUp).2⟩
  intro e up hUp
  rw [size_moveLookahead, hSize]
  exact (hUps e up hUp).1

end Moved

end LookaheadFix

------------------------------------------------------------
-- What builders put together
------------------------------------------------------------

/- A forest through which walks come to all. -/
structure Grammar.Planted
    (g : Grammar) : Prop where
  arranged : g.Arranged
  attributed : g.Attributed
  shaped : g.Shaped
  climbing : g.Climbing

theorem Made.planted
    {b : Builder}
    (hMade : Made b)
    (hOwned : b.grammar.SinglyOwned) :
    b.grammar.Planted :=
  ⟨hMade.arranged hOwned, hMade.recorded.attributed hOwned.owned,
    hMade.wellFormed.shaped,
    hMade.recorded.climbing hMade.laid.nested⟩

namespace LookaheadFix

theorem planted_moveLookahead
    {g : Grammar}
    {id head : ExpId}
    {la : Lookahead}
    {rest : List ExpId}
    (hFix : Fixable g id head la rest)
    (hPlanted : g.Planted) :
    (moveLookahead g id head la rest).Planted :=
  ⟨arranged_moveLookahead hFix hPlanted.arranged,
    attributed_moveLookahead hFix hPlanted.arranged
      hPlanted.attributed,
    shaped_moveLookahead hFix hPlanted.shaped,
    climbing_moveLookahead hFix hPlanted.attributed
      hPlanted.climbing⟩

end LookaheadFix

/-
  What calls put together is a forest if no expansion stands in
  two places, and it still is one when all lookaheads have been
  moved: expansions have their shapes and their owners, the way
  up ends at the production, and walks down come to all that
  stands in a body, once.
-/
theorem Made.forest
    {b : Builder}
    (hMade : Made b)
    (hOwned : b.grammar.SinglyOwned)
    (s : Session) :
    (b.grammar.Forest ∧ b.grammar.Walkable) ∧
      (LookaheadFix.run b.grammar s).1.Forest ∧
      (LookaheadFix.run b.grammar s).1.Walkable := by
  have hBoth : ∀ g : Grammar, g.Planted →
      g.Forest ∧ g.Walkable :=
    fun g hPlanted =>
      ⟨hPlanted.shaped.forest_of_attributed hPlanted.attributed,
        hPlanted.arranged.walkable hPlanted.attributed
          hPlanted.climbing⟩
  have hPlanted := hMade.planted hOwned
  refine ⟨hBoth _ hPlanted, hBoth _ ?_⟩
  exact LookaheadFix.run_induction
    (fun hNeeds => LookaheadFix.planted_moveLookahead
      (LookaheadFix.fixable_of_needsFix? hNeeds))
    hPlanted s

/-
  A sequence looks ahead, but stands in another sequence, below
  a block that catches exceptions.
-/
def misplaced : Calls :=
  [.literal "a", .literal "b", .literal "c",
    .lookaheadSequence none (some 2) (some "ready()") [0],
    .zeroOrOne 1, .sequence [4, 7], .tryBlock 9 [] none,
    .production "Start" "void" "" 10]

theorem made_misplaced : Made misplaced.built := by
  apply Calls.made_built
  simp only [ValidCalls, misplaced, Call.Valid]
  decide +kernel

/- The forest that the calls put together, and the one after. -/
theorem Made.forest_misplaced :
    (misplaced.built.grammar.Forest ∧
        misplaced.built.grammar.Walkable) ∧
      ((LookaheadFix.run misplaced.built.grammar (.new {})).1.Forest ∧
        (LookaheadFix.run misplaced.built.grammar
          (.new {})).1.Walkable) ∧
      misplaced.built.grammar.expansions.size = 13 ∧
      (LookaheadFix.run misplaced.built.grammar
        (.new {})).1.expansions.size = 17 := by
  have hOwned : misplaced.built.grammar.SinglyOwned := by
    decide +kernel
  have hForest :=
    Made.forest made_misplaced hOwned (.new {})
  exact ⟨hForest.1, hForest.2, by decide +kernel,
    by decide +kernel⟩

end Descent
