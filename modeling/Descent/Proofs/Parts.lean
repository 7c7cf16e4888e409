import Descent.Proofs.Rank
import Descent.Proofs.Resolution

/-
  Parts of expansions.

  No expansion is a part of itself.  That holds when a grammar
  is put together, because nodes come after their parts, and
  it still holds when lookaheads have been moved.  So walks
  that go down as many steps as there are expansions leave
  nothing out.

  Main declarations:
    * `Grammar.ChildOf`
    * `Grammar.Nested`
    * `LookaheadFix.form_moveLookahead`
    * `LookaheadFix.run_induction`
    * `nested_resolve`
    * `Grammar.Reachable`
    * `Grammar.mem_preOrder`
-/

------------------------------------------------------------
-- Nested expansions
------------------------------------------------------------

namespace Descent

/- The parts of an expansion that has no target. -/
def Expansion.parts? : Expansion → Option (List ExpId)
  | .sequence units => some units
  | .choice alternatives => some alternatives
  | .oneOrMore body => some [body]
  | .zeroOrMore body => some [body]
  | .zeroOrOne body => some [body]
  | .tryBlock body _ _ => some [body]
  | .lookahead la => if la.target.isNone then some [] else none
  | .terminal _ _ _ => some []
  | .nonterminal _ _ _ => some []
  | .action _ => some []

namespace Grammar

/- An expansion is a direct part of another one. -/
def ChildOf
    (g : Grammar)
    (part whole : ExpId) : Prop :=
  part ∈ g.children whole

/- Parts are there, and some number goes down to them. -/
structure Nested
    (g : Grammar) : Prop where
  inside :
    ∀ part whole, g.ChildOf part whole →
      part < g.expansions.size
  ranked :
    ∃ f : ExpId → Nat, ∀ part whole,
      g.ChildOf part whole → f part < f whole

theorem Nested.acyclic
    {g : Grammar}
    (hNested : g.Nested) :
    Acyclic g.ChildOf := by
  rcases hNested.ranked with ⟨f, hLess⟩
  exact acyclic_of_lt hLess

theorem form_of_size_le
    {g : Grammar}
    {id : ExpId}
    (hOutside : g.expansions.size ≤ id) :
    g.form id = .action "" := by
  simp only [form, node, Array.getD_eq_getD_getElem?,
    Array.getElem?_eq_none hOutside]
  rfl

theorem lt_size_of_expansion
    {g : Grammar}
    {id : ExpId}
    (hForm : g.form id ≠ .action "") :
    id < g.expansions.size := by
  by_contra hOutside
  exact hForm (form_of_size_le (Nat.not_lt.mp hOutside))

theorem lt_size_of_childOf
    {g : Grammar}
    (part whole : ExpId)
    (hChild : g.ChildOf part whole) :
    whole < g.expansions.size := by
  apply lt_size_of_expansion
  intro hForm
  simp [ChildOf, children, hForm] at hChild

theorem children_of_parts?
    {g : Grammar}
    {id : ExpId}
    {form : Expansion}
    (hForm : g.form id = form)
    {parts : List ExpId}
    (hParts : form.parts? = some parts) :
    g.children id = parts := by
  unfold children
  rw [hForm]
  cases form with
  | lookahead la =>
      have hHere : (if la.target.isNone then some [] else none) =
          some parts := hParts
      split at hHere
      · next hNone =>
          cases hHere
          dsimp only
          rw [Option.isNone_iff_eq_none.mp hNone]
      · cases hHere
  | _ => exact Option.some.inj hParts

theorem childOf_of_parts?
    {g : Grammar}
    {id : ExpId}
    {form : Expansion}
    (hForm : g.form id = form)
    {parts : List ExpId}
    (hParts : form.parts? = some parts)
    {part : ExpId}
    (hPart : part ∈ parts) :
    g.ChildOf part id := by
  unfold ChildOf
  rw [children_of_parts? hForm hParts]
  exact hPart

theorem childOf_of_sequence
    {g : Grammar}
    {seq : ExpId}
    {units : List ExpId}
    (hForm : g.form seq = .sequence units)
    {unit : ExpId}
    (hUnit : unit ∈ units) :
    g.ChildOf unit seq :=
  childOf_of_parts? hForm rfl hUnit

theorem Laid.nested
    {g : Grammar}
    (hLaid : g.Laid) :
    g.Nested where
  inside part whole hChild :=
    (hLaid.older whole part hChild).trans
      (lt_size_of_childOf part whole hChild)
  ranked :=
    ⟨id, fun part whole hChild =>
      hLaid.older whole part hChild⟩

@[simp] theorem size_adopt
    (g : Grammar)
    (owner : ExpId)
    (parts : List ExpId) :
    (g.adopt owner parts).expansions.size =
      g.expansions.size := by
  unfold adopt
  induction parts generalizing g with
  | nil => rfl
  | cons part parts ih =>
      rw [List.foldl_cons, ih, size_modifyNode]

/- Expansions of the same forms have the same parts. -/
theorem children_congr
    {g g' : Grammar}
    (hForms : ∀ id, g'.form id = g.form id)
    (id : ExpId) :
    g'.children id = g.children id := by
  have hHeads : ∀ la seq, g'.isHeadOf la seq =
      g.isHeadOf la seq := by
    intro la seq
    unfold isHeadOf
    rw [hForms]
  unfold children
  simp only [hForms, hHeads]

theorem SameRules.form
    {g g' : Grammar}
    (hSame : g.SameRules g')
    (id : ExpId) :
    g'.form id = g.form id := by
  simp only [Grammar.form, node, hSame.expansions]

theorem SameRules.nested
    {g g' : Grammar}
    (hSame : g.SameRules g')
    (hNested : g.Nested) :
    g'.Nested := by
  have hChildren := children_congr hSame.form
  rcases hNested with ⟨hInside, f, hLess⟩
  constructor
  · intro part whole hChild
    rw [hSame.expansions]
    apply hInside part whole
    rwa [ChildOf, hChildren] at hChild
  · refine ⟨f, fun part whole hChild => hLess part whole ?_⟩
    rwa [ChildOf, hChildren] at hChild

end Grammar

------------------------------------------------------------
-- Lookaheads that are moved
------------------------------------------------------------

namespace LookaheadFix

/- What is to be fixed is a sequence with a lookahead. -/
structure Fixable
    (g : Grammar)
    (id head : ExpId)
    (la : Lookahead)
    (rest : List ExpId) : Prop where
  sequence : g.form id = .sequence (head :: rest)
  lookahead : g.form head = .lookahead la

theorem fixable_of_needsFix?
    {g : Grammar}
    {id head : ExpId}
    {la : Lookahead}
    {rest : List ExpId}
    (hNeeds : needsFix? g id = some (head, la, rest)) :
    Fixable g id head la rest := by
  unfold needsFix? at hNeeds
  split at hNeeds
  · cases hNeeds
  split at hNeeds
  · next hSequence =>
      split at hNeeds
      · next hLookahead =>
          split at hNeeds
          · cases hNeeds
            exact ⟨hSequence, hLookahead⟩
          · cases hNeeds
      · cases hNeeds
  · cases hNeeds

section Fixable

variable {g : Grammar} {id head : ExpId}
variable {la : Lookahead} {rest : List ExpId}

theorem Fixable.id_lt
    (hFix : Fixable g id head la rest) :
    id < g.expansions.size := by
  apply Grammar.lt_size_of_expansion
  rw [hFix.sequence]
  simp

theorem Fixable.head_lt
    (hFix : Fixable g id head la rest) :
    head < g.expansions.size := by
  apply Grammar.lt_size_of_expansion
  rw [hFix.lookahead]
  simp

theorem Fixable.ne
    (hFix : Fixable g id head la rest) :
    id ≠ head := by
  intro hSame
  have hForm := hFix.sequence
  rw [hSame, hFix.lookahead] at hForm
  cases hForm

/- A lookahead is moved step by step. -/
theorem moveLookahead_eq
    (g : Grammar)
    (id head : ExpId)
    (la : Lookahead)
    (rest : List ExpId) :
    moveLookahead g id head la rest =
      let place := g.place head
      let g₁ := (g.addExpansion (.action "") place).2
      let g₂ := (g₁.addExpansion
        (.sequence [head, g.expansions.size]) place).2
      let g₃ := (g₂.addExpansion
        (.choice [g₁.expansions.size]) place).2
      let g₄ := (g₃.addExpansion
        (.lookahead ⟨la.amount, false, none, none⟩) place).2
      let g₅ := g₄.modifyNode head fun n =>
        { n with form := .lookahead ⟨0, true, la.guard, none⟩ }
      let g₆ :=
        ((g₅.adopt g₁.expansions.size
            [head, g.expansions.size]).adopt
          g₂.expansions.size [g₁.expansions.size]).adopt
          id [g₂.expansions.size, g₃.expansions.size]
      g₆.modifyNode id fun n =>
        { n with
          form := .sequence (g₃.expansions.size ::
            g₂.expansions.size :: rest) } :=
  rfl

/- The forms after a lookahead has been moved. -/
theorem form_moveLookahead
    (hFix : Fixable g id head la rest)
    {size : Nat}
    (hSize : g.expansions.size = size)
    (e : ExpId) :
    (moveLookahead g id head la rest).form e =
      if e = id then
        .sequence ((size + 3) :: (size + 2) :: rest)
      else if e = head then
        .lookahead ⟨0, true, la.guard, none⟩
      else if e = size + 3 then
        .lookahead ⟨la.amount, false, none, none⟩
      else if e = size + 2 then .choice [size + 1]
      else if e = size + 1 then .sequence [head, size]
      else if e = size then .action ""
      else g.form e := by
  have hWider : g.expansions.size ≤ size + 4 :=
    hSize.trans_le (Nat.le_add_right size 4)
  have hId := hFix.id_lt.trans_le hWider
  have hHead := hFix.head_lt.trans_le hWider
  rw [moveLookahead_eq]
  extract_lets place g₁ g₂ g₃ g₄ g₅ g₆
  have h₁ : g₁.expansions.size = size + 1 :=
    (Grammar.size_addExpansion _ _ _).trans (by rw [hSize])
  have h₂ : g₂.expansions.size = size + 2 :=
    (Grammar.size_addExpansion _ _ _).trans (by rw [h₁])
  have h₃ : g₃.expansions.size = size + 3 :=
    (Grammar.size_addExpansion _ _ _).trans (by rw [h₂])
  have h₄ : g₄.expansions.size = size + 4 :=
    (Grammar.size_addExpansion _ _ _).trans (by rw [h₃])
  have h₆ : g₆.expansions.size = size + 4 := by
    simp only [g₆, g₅, Grammar.size_adopt,
      Grammar.size_modifyNode, h₄]
  have hAdopted : g₆.form e = g₅.form e :=
    ((Grammar.form_adopt _ _ _ e).trans
      (Grammar.form_adopt _ _ _ e)).trans
        (Grammar.form_adopt _ _ _ e)
  have hModified : g₅.form e = _ :=
    Grammar.form_modifyNode _ _ _ e
  have hPlaceholder : g₄.form e = _ :=
    Grammar.form_addExpansion _ _ _ e
  have hChoice : g₃.form e = _ :=
    Grammar.form_addExpansion _ _ _ e
  have hSequence : g₂.form e = _ :=
    Grammar.form_addExpansion _ _ _ e
  have hAction : g₁.form e = _ :=
    Grammar.form_addExpansion _ _ _ e
  rw [Grammar.form_modifyNode, hAdopted, hModified,
    hPlaceholder, hChoice, hSequence, hAction, h₁, h₂, h₃, h₄,
    h₆, hSize]
  simp only [hId, hHead, and_true]

/- No other lookahead comes to stand at a head, or is lost. -/
theorem isHeadOf_moveLookahead
    (hFix : Fixable g id head la rest)
    {size : Nat}
    (hSize : g.expansions.size = size)
    {e : ExpId}
    (hHead : e ≠ head)
    (hNew : e ≠ size + 3)
    (seq : ExpId) :
    (moveLookahead g id head la rest).isHeadOf e seq =
      g.isHeadOf e seq := by
  have hOutside : ∀ k, g.form (size + k) = .action "" :=
    fun k => Grammar.form_of_size_le
      (hSize.trans_le (Nat.le_add_right size k))
  have hFalse : ∀ u, e ≠ u → (u == e) = false :=
    fun u h => beq_false_of_ne h.symm
  have hForm := form_moveLookahead hFix hSize seq
  unfold Grammar.isHeadOf
  rw [hForm]
  split_ifs with h₁ h₂ h₃ h₄ h₅ h₆
  · rw [h₁, hFix.sequence]
    exact (hFalse _ hNew).trans (hFalse _ hHead).symm
  · rw [h₂, hFix.lookahead]
  · rw [h₃, hOutside 3]
  · rw [h₄, hOutside 2]
  · rw [h₅, hOutside 1]
    exact hFalse _ hHead
  · have hAt : g.form size = .action "" := hOutside 0
    rw [h₆, hAt]
  · rfl

/- The parts after a lookahead has been moved. -/
theorem children_moveLookahead
    (hFix : Fixable g id head la rest)
    {size : Nat}
    (hSize : g.expansions.size = size)
    (e : ExpId) :
    (moveLookahead g id head la rest).children e =
      if e = id then (size + 3) :: (size + 2) :: rest
      else if e = head then []
      else if e = size + 3 then []
      else if e = size + 2 then [size + 1]
      else if e = size + 1 then [head, size]
      else if e = size then []
      else g.children e := by
  have hForm := form_moveLookahead hFix hSize e
  unfold Grammar.children
  split_ifs at hForm ⊢ with h₁ h₂ h₃ h₄ h₅ h₆
  · rw [hForm]
  · rw [hForm]
  · rw [hForm]
  · rw [hForm]
  · rw [hForm]
  · rw [hForm]
  · rw [hForm]
    simp only [isHeadOf_moveLookahead hFix hSize h₂ h₃]

theorem size_moveLookahead
    (g : Grammar)
    (id head : ExpId)
    (la : Lookahead)
    (rest : List ExpId) :
    (moveLookahead g id head la rest).expansions.size =
      g.expansions.size + 4 := by
  simp only [moveLookahead_eq, Grammar.size_modifyNode,
    Grammar.size_adopt, Grammar.size_addExpansion]

/- What is a part once a lookahead has been moved. -/
theorem childOf_moveLookahead
    (hFix : Fixable g id head la rest)
    {size : Nat}
    (hSize : g.expansions.size = size)
    {part whole : ExpId}
    (hChild :
      (moveLookahead g id head la rest).ChildOf part whole) :
    whole = id ∧ (part = size + 3 ∨ part = size + 2 ∨
        part ∈ rest) ∨
      whole = size + 2 ∧ part = size + 1 ∨
      whole = size + 1 ∧ (part = head ∨ part = size) ∨
      g.ChildOf part whole := by
  unfold Grammar.ChildOf at hChild
  rw [children_moveLookahead hFix hSize] at hChild
  split_ifs at hChild with h₁ h₂ h₃ h₄ h₅ h₆
  · left
    simpa [h₁] using hChild
  · cases hChild
  · cases hChild
  · right; left
    simpa [h₄] using hChild
  · right; right; left
    simpa [h₅] using hChild
  · cases hChild
  · right; right; right
    exact hChild

/-
  Numbers for expansions once a lookahead has been moved.  The
  new choice and its alternative come between the head and its
  sequence.
-/
def spread
    (f : ExpId → Nat)
    (size head : Nat)
    (e : ExpId) : Nat :=
  if e < size then 3 * f e
  else if e = size + 1 then 3 * f head + 1
  else if e = size + 2 then 3 * f head + 2
  else 0

theorem spread_of_lt
    (f : ExpId → Nat)
    {size : Nat}
    (head : Nat)
    {e : ExpId}
    (hInside : e < size) :
    spread f size head e = 3 * f e :=
  if_pos hInside

theorem spread_new
    (f : ExpId → Nat)
    (size head : Nat) :
    spread f size head size = 0 ∧
      spread f size head (size + 1) = 3 * f head + 1 ∧
      spread f size head (size + 2) = 3 * f head + 2 ∧
      spread f size head (size + 3) = 0 := by
  simp [spread]

/- Moving a lookahead leaves expansions nested. -/
theorem nested_moveLookahead
    (hFix : Fixable g id head la rest)
    (hNested : g.Nested) :
    (moveLookahead g id head la rest).Nested := by
  generalize hSize : g.expansions.size = size
  rcases hNested with ⟨hInside, f, hLess⟩
  have hUnits : ∀ part ∈ head :: rest, g.ChildOf part id :=
    fun _ hPart => Grammar.childOf_of_sequence hFix.sequence hPart
  have hHead := hLess head id (hUnits head List.mem_cons_self)
  have hOld : ∀ e, e < size → spread f size head e = 3 * f e :=
    fun _ => spread_of_lt f head
  rcases spread_new f size head with
    ⟨hAction, hAlternative, hChoice, hPlaceholder⟩
  have hIdIn : id < size := hSize ▸ hFix.id_lt
  have hHeadIn : head < size := hSize ▸ hFix.head_lt
  constructor
  · intro part whole hChild
    rw [size_moveLookahead, hSize]
    rcases childOf_moveLookahead hFix hSize hChild with
      ⟨-, rfl | rfl | hRest⟩ | ⟨-, rfl⟩ | ⟨-, rfl | rfl⟩ | hBefore
    · exact Nat.lt_succ_self _
    · exact Nat.lt_add_of_pos_right Nat.two_pos
    · have hPart := hInside part id
        (hUnits part (List.mem_cons_of_mem head hRest))
      rw [hSize] at hPart
      exact hPart.trans_le (Nat.le_add_right _ _)
    · exact Nat.add_lt_add_left (by decide) size
    · exact hHeadIn.trans_le (Nat.le_add_right _ _)
    · exact Nat.lt_add_of_pos_right (by decide)
    · have hPart := hInside part whole hBefore
      rw [hSize] at hPart
      exact hPart.trans_le (Nat.le_add_right _ _)
  · refine ⟨spread f size head, ?_⟩
    intro part whole hChild
    rcases childOf_moveLookahead hFix hSize hChild with
      ⟨rfl, rfl | rfl | hRest⟩ | ⟨rfl, rfl⟩ |
      ⟨rfl, rfl | rfl⟩ | hBefore
    · rw [hOld _ hIdIn, hPlaceholder]
      omega
    · rw [hOld _ hIdIn, hChoice]
      omega
    · have hPart := hUnits part (List.mem_cons_of_mem head hRest)
      have hIn := hInside part _ hPart
      rw [hSize] at hIn
      rw [hOld _ hIdIn, hOld _ hIn]
      exact Nat.mul_lt_mul_of_pos_left (hLess part _ hPart)
        (by decide)
    · rw [hChoice, hAlternative]
      exact Nat.lt_succ_self _
    · rw [hOld _ hHeadIn, hAlternative]
      exact Nat.lt_succ_self _
    · rw [hAlternative, hAction]
      exact Nat.succ_pos _
    · have hIn := hInside part _ hBefore
      have hOut := Grammar.lt_size_of_childOf part whole hBefore
      rw [hSize] at hIn hOut
      rw [hOld _ hIn, hOld _ hOut]
      exact Nat.mul_lt_mul_of_pos_left (hLess part whole hBefore)
        (by decide)

end Fixable

/- What moving a lookahead preserves holds after all moves. -/
theorem run_induction
    {P : Grammar → Prop}
    (hMove : ∀ {g : Grammar} {id head : ExpId}
      {la : Lookahead} {rest : List ExpId},
      needsFix? g id = some (head, la, rest) → P g →
        P (moveLookahead g id head la rest))
    {g : Grammar}
    (hStart : P g)
    (s : Session) :
    P (run g s).1 := by
  let R : Grammar × Session → Grammar × Session → Prop :=
    fun gs gs' => P gs.1 → P gs'.1
  have hStep : ∀ (gs : Grammar × Session) (id : ExpId),
      R gs (fixSequence gs id) := by
    rintro ⟨g, s⟩ id hBefore
    unfold fixSequence
    dsimp only
    split
    · exact hBefore
    · next hNeeds => exact hMove hNeeds hBefore
  have hBodies : ∀ (gs : Grammar × Session) (body : ExpId),
      R gs (fixBody gs body) :=
    fun gs body => TokenTable.rel_foldl (R := R)
      (fun _ h => h) (fun hFirst hSecond h => hSecond (hFirst h))
      hStep (gs.1.postOrder body) gs
  exact TokenTable.rel_foldl (R := R)
    (fun _ h => h) (fun hFirst hSecond h => hSecond (hFirst h))
    hBodies (g.productions.toList.filterMap
      Production.expansion?) (g, s) hStart

end LookaheadFix

theorem Grammar.productions_adopt
    (g : Grammar)
    (owner : ExpId)
    (children : List ExpId) :
    (g.adopt owner children).productions = g.productions := by
  unfold Grammar.adopt
  induction children generalizing g with
  | nil => rfl
  | cons child children ih => exact ih _

theorem LookaheadFix.productions_moveLookahead
    (g : Grammar)
    (id head : ExpId)
    (la : Lookahead)
    (rest : List ExpId) :
    (moveLookahead g id head la rest).productions =
      g.productions := by
  rw [moveLookahead_eq]
  simp only [Grammar.modifyNode, Grammar.productions_adopt,
    Grammar.addExpansion]

/- Names are resolved for the productions as they are. -/
theorem productions_resolve
    (g : Grammar)
    (s : Session) :
    (Analysis.resolve g s).1.productions = g.productions := by
  rw [(Analysis.sameRules_resolve g s).productions]
  exact LookaheadFix.run_induction
    (P := fun g' => g'.productions = g.productions)
    (fun _ hSame =>
      (LookaheadFix.productions_moveLookahead ..).trans hSame)
    rfl _

/- Expansions are nested once names are resolved. -/
theorem nested_resolve
    {g : Grammar}
    (hNested : g.Nested)
    (s : Session) :
    (Analysis.resolve g s).1.Nested := by
  apply (Analysis.sameRules_resolve g s).nested
  exact LookaheadFix.run_induction
    (fun hNeeds => LookaheadFix.nested_moveLookahead
      (LookaheadFix.fixable_of_needsFix? hNeeds))
    hNested (Analysis.warnLookahead s)

------------------------------------------------------------
-- Walks
------------------------------------------------------------

namespace Grammar

/- An expansion is a part of another one, or that one itself. -/
def Within
    (g : Grammar) : ExpId → ExpId → Prop :=
  Relation.ReflTransGen g.ChildOf

/- An expansion stands in the body of a production. -/
def Reachable
    (g : Grammar)
    (id : ExpId) : Prop :=
  ∃ p ∈ g.productions, ∃ body ∈ p.expansion?, g.Within id body

theorem Reachable.child
    {g : Grammar}
    {part whole : ExpId}
    (hReachable : g.Reachable whole)
    (hChild : g.ChildOf part whole) :
    g.Reachable part := by
  rcases hReachable with ⟨p, hp, body, hBody, hWithin⟩
  exact ⟨p, hp, body, hBody, hWithin.head hChild⟩

theorem reachable_body
    {g : Grammar}
    {p : Production}
    (hp : p ∈ g.productions)
    {body : ExpId}
    (hBody : p.expansion? = some body) :
    g.Reachable body :=
  ⟨p, hp, body, hBody, .refl⟩

/- A walk that descends everywhere comes to all parts. -/
theorem mem_preOrder
    {g : Grammar}
    (hNested : g.Nested)
    {root id : ExpId}
    (hWithin : g.Within id root) :
    id ∈ g.preOrder (fun _ => true) root := by
  have hTo : ∀ depth root,
      rank g.ChildOf g.expansions.size root < depth →
      g.Within id root →
      id ∈ g.preOrderTo (fun _ => true) depth root := by
    intro depth
    induction depth with
    | zero =>
        intro root hDepth
        exact absurd hDepth (Nat.not_lt_zero _)
    | succ depth ih =>
        intro root hDepth hWithin
        unfold preOrderTo
        rw [if_pos rfl]
        rcases Relation.ReflTransGen.cases_tail hWithin with
          rfl | ⟨part, hBelow, hChild⟩
        · exact List.mem_cons_self
        · apply List.mem_cons_of_mem
          have hLess := rank_lt hNested.acyclic
            lt_size_of_childOf hChild
          exact List.mem_flatMap.mpr
            ⟨part, hChild, ih part (by omega) hBelow⟩
  exact hTo _ root
    (Nat.lt_succ_of_le (rank_le hNested.acyclic root)) hWithin

/- All that stands in bodies, walked through in order. -/
theorem mem_walked
    {g : Grammar}
    (hNested : g.Nested)
    {id : ExpId}
    (hReachable : g.Reachable id) :
    id ∈ (g.productions.toList.filterMap
      Production.expansion?).flatMap
        (g.preOrder fun _ => true) := by
  rcases hReachable with ⟨p, hp, body, hBody, hWithin⟩
  apply List.mem_flatMap.mpr
  refine ⟨body, ?_, mem_preOrder hNested hWithin⟩
  exact List.mem_filterMap.mpr
    ⟨p, Array.mem_toList_iff.mpr hp, hBody⟩

end Grammar

end Descent
