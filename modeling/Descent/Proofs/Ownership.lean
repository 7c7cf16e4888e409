import Descent.Proofs.LeftRecursion

/-
  Expansions that stand in one place only.

  If no expansion has two owners, each being a part of at most
  one other or the body of one production, then expansions
  form trees: what stands below two parts of one expansion is
  different.  The targets of the decisions in a method are
  therefore all different, over all methods.

  Main declarations:
    * `Grammar.SinglyOwned`
    * `Grammar.Owned`
    * `Grammar.Owned.apart`
    * `Grammar.targetsTo`
    * `Grammar.nodup_targets`
    * `Grammar.Arranged` and `arranged_analyze`
-/

------------------------------------------------------------
-- Places
------------------------------------------------------------

namespace Descent

namespace Grammar

/- The bodies of productions. -/
def bodies
    (g : Grammar) : List ExpId :=
  g.productions.toList.filterMap Production.expansion?

/-
  What the owners hold: the parts of all expansions and the
  bodies of all productions.
-/
def places
    (g : Grammar) : List ExpId :=
  (List.range g.expansions.size).flatMap g.children ++ g.bodies

/- No expansion has two owners: none stands in two places. -/
def SinglyOwned
    (g : Grammar) : Prop :=
  g.places.Nodup

instance
    (g : Grammar) : Decidable g.SinglyOwned :=
  inferInstanceAs (Decidable g.places.Nodup)

/- What it means that no expansion stands in two places. -/
structure Owned
    (g : Grammar) : Prop where
  parts : ∀ id, (g.children id).Nodup
  wholes : ∀ {part whole whole'},
    g.ChildOf part whole → g.ChildOf part whole' →
      whole = whole'
  bodies : g.bodies.Nodup
  roots : ∀ body ∈ g.bodies, ∀ whole, ¬ g.ChildOf body whole

theorem SinglyOwned.owned
    {g : Grammar}
    (hOwned : g.SinglyOwned) :
    g.Owned := by
  rcases List.nodup_append.mp hOwned with
    ⟨hParts, hBodies, hApart⟩
  rcases List.nodup_flatMap.mp hParts with ⟨hEach, hPairs⟩
  have hPlace : ∀ {part whole}, g.ChildOf part whole →
      whole ∈ List.range g.expansions.size :=
    fun hChild => List.mem_range.mpr
      (lt_size_of_childOf _ _ hChild)
  refine ⟨?_, ?_, hBodies, ?_⟩
  · intro id
    by_cases hInside : id < g.expansions.size
    · exact hEach id (List.mem_range.mpr hInside)
    · have hForm := form_of_size_le (Nat.not_lt.mp hInside)
      unfold children
      rw [hForm]
      exact List.nodup_nil
  · intro part whole whole' hChild hChild'
    by_contra hOther
    have : Std.Symm (Function.onFun List.Disjoint g.children) :=
      ⟨fun _ _ hApart => hApart.symm⟩
    exact hPairs.forall (hPlace hChild) (hPlace hChild') hOther
      hChild hChild'
  · intro body hBody whole hChild
    exact hApart body
      (List.mem_flatMap.mpr ⟨whole, hPlace hChild, hChild⟩)
      body hBody rfl

------------------------------------------------------------
-- Trees
------------------------------------------------------------

section Trees

variable {g : Grammar}

theorem not_within_part
    (hNested : g.Nested)
    {part whole : ExpId}
    (hChild : g.ChildOf part whole) :
    ¬ g.Within whole part := by
  intro hWithin
  exact hNested.acyclic whole (.tail' hWithin hChild)

/- What stands above an expansion is on one way up. -/
theorem Owned.total
    (hOwned : g.Owned)
    {id a b : ExpId}
    (hLeft : g.Within id a)
    (hRight : g.Within id b) :
    g.Within a b ∨ g.Within b a :=
  Relation.ReflTransGen.total_of_right_unique
    (fun _ _ _ h h' => hOwned.wholes h h') hLeft hRight

/- Nothing stands below two parts of one expansion. -/
theorem Owned.apart
    (hOwned : g.Owned)
    (hNested : g.Nested)
    {id a b whole : ExpId}
    (hLeft : g.Within id a)
    (hRight : g.Within id b)
    (ha : g.ChildOf a whole)
    (hb : g.ChildOf b whole) :
    a = b := by
  have hSame : ∀ {a b}, g.Within a b → g.ChildOf a whole →
      g.ChildOf b whole → a = b := by
    intro a b hWithin ha hb
    rcases hWithin.cases_head with hSame | ⟨up, hUp, hRest⟩
    · exact hSame
    · cases hOwned.wholes hUp ha
      exact absurd hRest (not_within_part hNested hb)
  rcases hOwned.total hLeft hRight with hBelow | hBelow
  · exact hSame hBelow ha hb
  · exact (hSame hBelow hb ha).symm

/- Nothing stands in two bodies. -/
theorem Owned.apart_bodies
    (hOwned : g.Owned)
    {id a b : ExpId}
    (hLeft : g.Within id a)
    (hRight : g.Within id b)
    (ha : a ∈ g.bodies)
    (hb : b ∈ g.bodies) :
    a = b := by
  have hSame : ∀ {a b}, g.Within a b → a ∈ g.bodies →
      a = b := by
    intro a b hWithin ha
    rcases hWithin.cases_head with hSame | ⟨up, hUp, -⟩
    · exact hSame
    · exact absurd hUp (hOwned.roots a ha up)
  rcases hOwned.total hLeft hRight with hBelow | hBelow
  · exact hSame hBelow ha
  · exact (hSame hBelow hb).symm

end Trees

------------------------------------------------------------
-- Targets of decisions
------------------------------------------------------------

/- What is looked for to decide on a sequence. -/
def targetOf
    (g : Grammar)
    (seq : ExpId) : ExpId :=
  match g.headLookahead? seq with
  | some la => la.target.getD seq
  | none => seq

/- The parts of an expansion that its code goes through. -/
def codeParts
    (g : Grammar)
    (id : ExpId) : List ExpId :=
  match g.form id with
  | .sequence units => units.drop 1
  | .choice alternatives => alternatives
  | .oneOrMore body => [body]
  | .zeroOrMore body => [body]
  | .zeroOrOne body => [body]
  | .tryBlock body _ _ => [body]
  | _ => []

/- The targets of all decisions in the code of an expansion. -/
def targetsTo
    (g : Grammar) : Nat → ExpId → List ExpId
  | 0, _ => []
  | depth + 1, id =>
      match g.form id with
      | .choice alternatives =>
          alternatives.flatMap (targetsTo g depth) ++
            alternatives.map g.targetOf
      | .sequence units =>
          (units.drop 1).flatMap (targetsTo g depth)
      | .oneOrMore body =>
          targetsTo g depth body ++ [g.targetOf body]
      | .zeroOrMore body =>
          g.targetOf body :: targetsTo g depth body
      | .zeroOrOne body =>
          targetsTo g depth body ++ [g.targetOf body]
      | .tryBlock body _ _ => targetsTo g depth body
      | _ => []

section Targets

variable {g : Grammar}

theorem childOf_of_mem_codeParts
    {part whole : ExpId}
    (hPart : part ∈ g.codeParts whole) :
    g.ChildOf part whole := by
  unfold codeParts at hPart
  unfold ChildOf children
  cases hForm : g.form whole with
  | sequence units =>
      rw [hForm] at hPart
      exact List.mem_of_mem_drop hPart
  | choice alternatives =>
      rw [hForm] at hPart
      exact hPart
  | oneOrMore body =>
      rw [hForm] at hPart
      exact hPart
  | zeroOrMore body =>
      rw [hForm] at hPart
      exact hPart
  | zeroOrOne body =>
      rw [hForm] at hPart
      exact hPart
  | tryBlock body catches cleanup =>
      rw [hForm] at hPart
      exact hPart
  | _ =>
      rw [hForm] at hPart
      cases hPart

/-
  What is looked for is the sequence itself, or a part of the
  lookahead at its head.
-/
theorem targetOf_cases
    (hOwned : g.Owned)
    (seq : ExpId) :
    g.targetOf seq = seq ∨
      ∃ head rest, g.form seq = .sequence (head :: rest) ∧
        g.ChildOf (g.targetOf seq) head := by
  unfold targetOf headLookahead?
  cases hForm : g.form seq with
  | sequence units =>
      cases units with
      | nil => exact .inl rfl
      | cons head rest =>
          dsimp only
          cases hHead : g.form head with
          | lookahead la =>
              dsimp only
              cases hTarget : la.target with
              | none => exact .inl rfl
              | some target =>
                  by_cases hSelf : g.isHeadOf head target
                  · left
                    rcases form_of_isHeadOf hSelf with
                      ⟨rest', hForm'⟩
                    exact hOwned.wholes
                      (childOf_of_sequence hForm'
                        List.mem_cons_self)
                      (childOf_of_sequence hForm
                        List.mem_cons_self)
                  · right
                    refine ⟨head, rest, rfl, ?_⟩
                    unfold ChildOf children
                    rw [hHead]
                    dsimp only
                    rw [hTarget]
                    dsimp only
                    rw [if_neg hSelf]
                    exact List.mem_singleton_self _
          | _ => exact .inl rfl
  | _ => exact .inl rfl

theorem within_targetOf
    (hOwned : g.Owned)
    (seq : ExpId) :
    g.Within (g.targetOf seq) seq := by
  rcases targetOf_cases hOwned seq with
    hSelf | ⟨head, rest, hForm, hChild⟩
  · rw [hSelf]
    exact .refl
  · exact .head hChild (.single
      (childOf_of_sequence hForm List.mem_cons_self))

/- Targets stand below what the code goes through. -/
theorem within_of_mem_targetsTo
    (hOwned : g.Owned)
    (depth : Nat)
    {id target : ExpId}
    (hTarget : target ∈ g.targetsTo depth id) :
    ∃ part ∈ g.codeParts id, g.Within target part := by
  induction depth generalizing id with
  | zero => cases hTarget
  | succ depth ih =>
      have hBelow : ∀ {part},
          target ∈ g.targetsTo depth part →
            g.Within target part := by
        intro part hMem
        rcases ih hMem with ⟨inner, hInner, hWithin⟩
        exact hWithin.tail (childOf_of_mem_codeParts hInner)
      unfold targetsTo at hTarget
      unfold codeParts
      cases hForm : g.form id with
      | sequence units =>
          rw [hForm] at hTarget
          rcases List.mem_flatMap.mp hTarget with
            ⟨part, hPart, hMem⟩
          exact ⟨part, hPart, hBelow hMem⟩
      | choice alternatives =>
          rw [hForm] at hTarget
          rcases List.mem_append.mp hTarget with hMem | hMem
          · rcases List.mem_flatMap.mp hMem with
              ⟨alt, hAlt, hMem⟩
            exact ⟨alt, hAlt, hBelow hMem⟩
          · rcases List.mem_map.mp hMem with ⟨alt, hAlt, rfl⟩
            exact ⟨alt, hAlt, within_targetOf hOwned alt⟩
      | oneOrMore body =>
          rw [hForm] at hTarget
          refine ⟨body, List.mem_singleton_self body, ?_⟩
          rcases List.mem_append.mp hTarget with hMem | hMem
          · exact hBelow hMem
          · rw [List.mem_singleton.mp hMem]
            exact within_targetOf hOwned body
      | zeroOrMore body =>
          rw [hForm] at hTarget
          refine ⟨body, List.mem_singleton_self body, ?_⟩
          rcases List.mem_cons.mp hTarget with hMem | hMem
          · rw [hMem]
            exact within_targetOf hOwned body
          · exact hBelow hMem
      | zeroOrOne body =>
          rw [hForm] at hTarget
          refine ⟨body, List.mem_singleton_self body, ?_⟩
          rcases List.mem_append.mp hTarget with hMem | hMem
          · exact hBelow hMem
          · rw [List.mem_singleton.mp hMem]
            exact within_targetOf hOwned body
      | tryBlock body catches cleanup =>
          rw [hForm] at hTarget
          exact ⟨body, List.mem_singleton_self body,
            hBelow hTarget⟩
      | _ =>
          rw [hForm] at hTarget
          cases hTarget

theorem below_of_mem_targetsTo
    (hOwned : g.Owned)
    {depth : Nat}
    {id target : ExpId}
    (hTarget : target ∈ g.targetsTo depth id) :
    g.Within target id := by
  rcases within_of_mem_targetsTo hOwned depth hTarget with
    ⟨part, hPart, hWithin⟩
  exact hWithin.tail (childOf_of_mem_codeParts hPart)

/- The code of a sequence looks for other things than it. -/
theorem targetOf_notMem_targetsTo
    (hOwned : g.Owned)
    (hNested : g.Nested)
    (depth : Nat)
    (seq : ExpId) :
    g.targetOf seq ∉ g.targetsTo depth seq := by
  intro hMem
  rcases within_of_mem_targetsTo hOwned depth hMem with
    ⟨part, hPart, hWithin⟩
  have hChild := childOf_of_mem_codeParts hPart
  rcases targetOf_cases hOwned seq with
    hSelf | ⟨head, rest, hForm, hBelow⟩
  · rw [hSelf] at hWithin
    exact not_within_part hNested hChild hWithin
  · have hHead : g.ChildOf head seq :=
      childOf_of_sequence hForm List.mem_cons_self
    have hSame := hOwned.apart hNested (.single hBelow) hWithin
      hHead hChild
    -- The head is none of the units after it.
    have hUnits := hOwned.parts seq
    unfold children at hUnits
    unfold codeParts at hPart
    rw [hForm] at hUnits hPart
    exact (List.nodup_cons.mp hUnits).1 (hSame ▸ hPart)

/- All targets below the parts of one expansion are different. -/
theorem nodup_flatMap_targetsTo
    (hOwned : g.Owned)
    (hNested : g.Nested)
    {depth : Nat}
    {parts : List ExpId}
    {whole : ExpId}
    (hParts : ∀ part ∈ parts, g.ChildOf part whole)
    (hNodup : parts.Nodup)
    (hEach : ∀ part, (g.targetsTo depth part).Nodup) :
    (parts.flatMap (g.targetsTo depth)).Nodup := by
  refine List.nodup_flatMap.mpr ⟨fun part _ => hEach part, ?_⟩
  refine hNodup.pairwise_of_forall_ne ?_
  intro a ha b hb hOther target hLeft hRight
  exact hOther (hOwned.apart hNested
    (below_of_mem_targetsTo hOwned hLeft)
    (below_of_mem_targetsTo hOwned hRight)
    (hParts a ha) (hParts b hb))

theorem nodup_targetsTo
    (hOwned : g.Owned)
    (hNested : g.Nested)
    (depth : Nat)
    (id : ExpId) :
    (g.targetsTo depth id).Nodup := by
  induction depth generalizing id with
  | zero => exact List.nodup_nil
  | succ depth ih =>
      have hUnits := hOwned.parts id
      have hChildren : ∀ part ∈ g.children id,
          g.ChildOf part id :=
        fun _ h => h
      have hOne : ∀ body,
          (g.targetsTo depth body ++ [g.targetOf body]).Nodup :=
        fun body => List.nodup_append.mpr
          ⟨ih body, List.nodup_singleton _, by
            rintro target hTarget _ hSelf rfl
            rw [List.mem_singleton.mp hSelf] at hTarget
            exact targetOf_notMem_targetsTo hOwned hNested depth
              body hTarget⟩
      unfold targetsTo
      unfold children at hUnits hChildren
      cases hForm : g.form id with
      | sequence units =>
          rw [hForm] at hUnits hChildren
          exact nodup_flatMap_targetsTo hOwned hNested
            (fun part hPart =>
              hChildren part (List.mem_of_mem_drop hPart))
            (hUnits.sublist (List.drop_sublist 1 units)) ih
      | choice alternatives =>
          rw [hForm] at hUnits hChildren
          refine List.nodup_append.mpr
            ⟨nodup_flatMap_targetsTo hOwned hNested hChildren
              hUnits ih, ?_, ?_⟩
          · apply List.Nodup.map_on ?_ hUnits
            intro a ha b hb hSame
            exact hOwned.apart hNested
              (within_targetOf hOwned a)
              (hSame ▸ within_targetOf hOwned b)
              (hChildren a ha) (hChildren b hb)
          · rintro target hLeft _ hRight rfl
            rcases List.mem_flatMap.mp hLeft with
              ⟨a, ha, hMem⟩
            rcases List.mem_map.mp hRight with ⟨b, hb, rfl⟩
            cases hOwned.apart hNested
              (below_of_mem_targetsTo hOwned hMem)
              (within_targetOf hOwned b)
              (hChildren a ha) (hChildren b hb)
            exact targetOf_notMem_targetsTo hOwned hNested depth
              a hMem
      | oneOrMore body => exact hOne body
      | zeroOrMore body =>
          refine List.nodup_cons.mpr ⟨?_, ih body⟩
          exact targetOf_notMem_targetsTo hOwned hNested depth
            body
      | zeroOrOne body => exact hOne body
      | tryBlock body catches cleanup => exact ih body
      | _ => exact List.nodup_nil

/- The targets of all decisions are different. -/
theorem nodup_targets
    (hOwned : g.Owned)
    (hNested : g.Nested)
    (depth : Nat) :
    (g.bodies.flatMap (g.targetsTo depth)).Nodup := by
  refine List.nodup_flatMap.mpr
    ⟨fun body _ => nodup_targetsTo hOwned hNested depth body, ?_⟩
  refine hOwned.bodies.pairwise_of_forall_ne ?_
  intro a ha b hb hOther target hLeft hRight
  exact hOther (hOwned.apart_bodies
    (below_of_mem_targetsTo hOwned hLeft)
    (below_of_mem_targetsTo hOwned hRight) ha hb)

end Targets

------------------------------------------------------------
-- Arranged grammars
------------------------------------------------------------

/- Every sequence starts with a lookahead. -/
def Headed
    (g : Grammar) : Prop :=
  ∀ seq units, g.form seq = .sequence units →
    ∃ head rest la, units = head :: rest ∧
      g.form head = .lookahead la

/-
  Expansions form trees, with bodies at their roots and a
  lookahead at the head of every sequence.
-/
structure Arranged
    (g : Grammar) : Prop where
  owned : g.Owned
  nested : g.Nested
  inside : ∀ body ∈ g.bodies, body < g.expansions.size
  headed : g.Headed

theorem mem_bodies
    {g : Grammar}
    {p : Production}
    {body : ExpId}
    (hMem : p ∈ g.productions)
    (hBody : p.expansion? = some body) :
    body ∈ g.bodies :=
  List.mem_filterMap.mpr
    ⟨p, Array.mem_toList_iff.mpr hMem, hBody⟩

theorem WellFormed.headed
    {g : Grammar}
    (hFormed : g.WellFormed) :
    g.Headed := by
  intro seq units hForm
  have hInside : seq < g.expansions.size := by
    apply lt_size_of_expansion
    rw [hForm]
    simp
  have hAdmits := hFormed.forms seq hInside
  rw [hForm] at hAdmits
  rcases hAdmits.2 with ⟨head, rest, hUnits, hShape⟩
  cases hHead : g.form head with
  | lookahead la => exact ⟨head, rest, la, hUnits, hHead⟩
  | _ =>
      rw [hHead] at hShape
      cases hShape

theorem SameRules.arranged
    {g g' : Grammar}
    (hSame : g.SameRules g')
    (hArranged : g.Arranged) :
    g'.Arranged := by
  have hChildren := children_congr hSame.form
  have hChildOf : ∀ {part whole}, g'.ChildOf part whole →
      g.ChildOf part whole := by
    intro part whole hChild
    rwa [ChildOf, hChildren] at hChild
  have hBodies : g'.bodies = g.bodies := by
    unfold bodies
    rw [hSame.productions]
  refine ⟨⟨?_, ?_, ?_, ?_⟩, hSame.nested hArranged.nested, ?_, ?_⟩
  · intro id
    rw [hChildren]
    exact hArranged.owned.parts id
  · intro part whole whole' hLeft hRight
    exact hArranged.owned.wholes (hChildOf hLeft)
      (hChildOf hRight)
  · rw [hBodies]
    exact hArranged.owned.bodies
  · intro body hBody whole hChild
    rw [hBodies] at hBody
    exact hArranged.owned.roots body hBody whole (hChildOf hChild)
  · rw [hBodies, hSame.expansions]
    exact hArranged.inside
  · intro seq units hForm
    rw [hSame.form] at hForm
    rcases hArranged.headed seq units hForm with
      ⟨head, rest, la, hUnits, hHead⟩
    exact ⟨head, rest, la, hUnits, by rw [hSame.form, hHead]⟩

end Grammar

------------------------------------------------------------
-- Moved lookaheads
------------------------------------------------------------

namespace LookaheadFix

section Moved

variable {g : Grammar} {id head : ExpId}
variable {la : Lookahead} {rest : List ExpId}

theorem Fixable.children
    (hFix : Fixable g id head la rest) :
    g.children id = head :: rest := by
  unfold Grammar.children
  rw [hFix.sequence]

theorem Fixable.childOf
    (hFix : Fixable g id head la rest)
    {part : ExpId}
    (hPart : part ∈ head :: rest) :
    g.ChildOf part id :=
  Grammar.childOf_of_sequence hFix.sequence hPart

/- Where the head and the new expansions come to stand. -/
def ownerOfMoved
    (size id head part : Nat) : Nat :=
  if part = head ∨ part = size then size + 1
  else if part = size + 1 then size + 2
  else id

/-
  Once a lookahead has been moved, the head and what is new
  have one owner each, and all else stands where it stood.
-/
theorem owner_moveLookahead
    (hFix : Fixable g id head la rest)
    (hArranged : g.Arranged)
    {size : Nat}
    (hSize : g.expansions.size = size)
    {part whole : ExpId}
    (hChild :
      (moveLookahead g id head la rest).ChildOf part whole) :
    (g.ChildOf part whole ∧ part ≠ head ∧ part < size) ∨
      (part = head ∨ size ≤ part) ∧
        whole = ownerOfMoved size id head part := by
  have hInside := hArranged.nested.inside
  rw [hSize] at hInside
  have hHead : g.ChildOf head id :=
    hFix.childOf List.mem_cons_self
  have hHeadIn : head < size := hInside head id hHead
  have hUnits := hArranged.owned.parts id
  rw [hFix.children] at hUnits
  have hNew : ∀ k, size + k ≠ head := fun k hSame =>
    absurd hHeadIn (Nat.not_lt.mpr
      ((Nat.le_add_right size k).trans_eq hSame))
  unfold Grammar.ChildOf at hChild
  rw [children_moveLookahead hFix hSize] at hChild
  unfold ownerOfMoved
  split_ifs at hChild with h₁ h₂ h₃ h₄ h₅ h₆
  · subst h₁
    rcases List.mem_cons.mp hChild with rfl | hChild
    · refine .inr ⟨.inr (Nat.le_add_right size 3), ?_⟩
      rw [if_neg (by simp [hNew 3]), if_neg (by omega)]
    rcases List.mem_cons.mp hChild with rfl | hRest
    · refine .inr ⟨.inr (Nat.le_add_right size 2), ?_⟩
      rw [if_neg (by simp [hNew 2]), if_neg (by omega)]
    · left
      have hPart : g.ChildOf part whole :=
        hFix.childOf (List.mem_cons_of_mem head hRest)
      refine ⟨hPart, ?_, hInside part whole hPart⟩
      rintro rfl
      exact (List.nodup_cons.mp hUnits).1 hRest
  · cases hChild
  · cases hChild
  · rw [List.mem_singleton.mp hChild]
    refine .inr ⟨.inr (Nat.le_add_right size 1), ?_⟩
    rw [if_neg (by simp [hNew 1]), if_pos rfl]
    exact h₄
  · have hPart : part = head ∨ part = size := by
      simpa using hChild
    refine .inr ⟨?_, ?_⟩
    · exact hPart.imp_right fun h => Nat.le_of_eq h.symm
    · rw [if_pos hPart]
      exact h₅
  · cases hChild
  · refine .inl ⟨hChild, ?_, hInside part whole hChild⟩
    rintro rfl
    exact h₁ (hArranged.owned.wholes hChild hHead)

theorem nodup_children_moveLookahead
    (hFix : Fixable g id head la rest)
    (hArranged : g.Arranged)
    (e : ExpId) :
    ((moveLookahead g id head la rest).children e).Nodup := by
  generalize hSize : g.expansions.size = size
  have hInside := hArranged.nested.inside
  rw [hSize] at hInside
  have hUnits := hArranged.owned.parts id
  rw [hFix.children] at hUnits
  have hOld : ∀ part ∈ head :: rest, part < size :=
    fun part hPart => hInside part id (hFix.childOf hPart)
  have hFresh : ∀ k, size + k ∉ head :: rest := fun k hMem =>
    absurd (hOld _ hMem)
      (Nat.not_lt.mpr (Nat.le_add_right size k))
  rw [children_moveLookahead hFix hSize]
  split_ifs with h₁ h₂ h₃ h₄ h₅ h₆
  · have hRest : ∀ k, size + k ∉ rest :=
      fun k hMem => hFresh k (List.mem_cons_of_mem head hMem)
    refine List.nodup_cons.mpr ⟨?_, List.nodup_cons.mpr
      ⟨hRest 2, (List.nodup_cons.mp hUnits).2⟩⟩
    rw [List.mem_cons, not_or]
    exact ⟨Nat.succ_ne_self (size + 2), hRest 3⟩
  · exact List.nodup_nil
  · exact List.nodup_nil
  · exact List.nodup_singleton _
  · refine List.nodup_cons.mpr ⟨?_, List.nodup_singleton _⟩
    rw [List.mem_singleton]
    exact Nat.ne_of_lt (hOld head List.mem_cons_self)
  · exact List.nodup_nil
  · exact hArranged.owned.parts e

theorem headed_moveLookahead
    (hFix : Fixable g id head la rest)
    (hHeaded : g.Headed) :
    (moveLookahead g id head la rest).Headed := by
  generalize hSize : g.expansions.size = size
  have hForms := form_moveLookahead hFix hSize
  have hIds : ∀ k, size + k ≠ id := by
    rintro k rfl
    have hLess := hFix.id_lt
    rw [hSize] at hLess
    exact absurd hLess (Nat.not_lt.mpr (Nat.le_add_right _ _))
  have hHead : (moveLookahead g id head la rest).form head =
      .lookahead ⟨0, true, la.guard, none⟩ := by
    rw [hForms, if_neg hFix.ne.symm, if_pos rfl]
  -- What was a lookahead still is one.
  have hKept : ∀ {e : Nat} {la'}, g.form e = .lookahead la' →
      ∃ la', (moveLookahead g id head la rest).form e =
        .lookahead la' := by
    intro e la' hForm
    by_cases hSame : e = head
    · rw [hSame]
      exact ⟨_, hHead⟩
    · have hLess : e < size := by
        rw [← hSize]
        apply Grammar.lt_size_of_expansion
        rw [hForm]
        simp
      have hOther : e ≠ id := by
        rintro rfl
        rw [hFix.sequence] at hForm
        cases hForm
      have hOld : ∀ k, e ≠ size + k :=
        fun k => Nat.ne_of_lt (Nat.lt_add_right k hLess)
      refine ⟨la', ?_⟩
      rw [hForms, if_neg hOther, if_neg hSame, if_neg (hOld 3),
        if_neg (hOld 2), if_neg (hOld 1),
        if_neg (Nat.ne_of_lt hLess), hForm]
  intro seq units hForm
  rw [hForms] at hForm
  split_ifs at hForm with h₁ h₂ h₃ h₄ h₅ h₆
  · cases hForm
    have hOther : size + 3 ≠ head := by
      rintro rfl
      have hLess := hFix.head_lt
      rw [hSize] at hLess
      exact absurd hLess (Nat.not_lt.mpr (Nat.le_add_right _ _))
    refine ⟨_, _, ⟨la.amount, false, none, none⟩, rfl, ?_⟩
    rw [hForms, if_neg (hIds 3), if_neg hOther, if_pos rfl]
  · cases hForm
    exact ⟨_, _, _, rfl, hHead⟩
  · rcases hHeaded seq units hForm with
      ⟨first, others, la', hUnits, hFirst⟩
    rcases hKept hFirst with ⟨la'', hFirst'⟩
    exact ⟨first, others, la'', hUnits, hFirst'⟩

theorem bodies_moveLookahead
    (g : Grammar)
    (id head : ExpId)
    (la : Lookahead)
    (rest : List ExpId) :
    (moveLookahead g id head la rest).bodies = g.bodies := by
  unfold Grammar.bodies
  rw [productions_moveLookahead]

/- Moving a lookahead leaves expansions in trees. -/
theorem arranged_moveLookahead
    (hFix : Fixable g id head la rest)
    (hArranged : g.Arranged) :
    (moveLookahead g id head la rest).Arranged := by
  have hOwner := @owner_moveLookahead g id head la rest hFix
    hArranged _ rfl
  have hBodies := bodies_moveLookahead g id head la rest
  have hHead : g.ChildOf head id :=
    hFix.childOf List.mem_cons_self
  refine ⟨⟨nodup_children_moveLookahead hFix hArranged, ?_, ?_,
    ?_⟩, nested_moveLookahead hFix hArranged.nested, ?_,
    headed_moveLookahead hFix hArranged.headed⟩
  · intro part whole whole' hLeft hRight
    rcases hOwner hLeft with ⟨hOld, hOther, hIn⟩ | ⟨hNew, hUp⟩
    · rcases hOwner hRight with ⟨hOld', -, -⟩ | ⟨hNew, -⟩
      · exact hArranged.owned.wholes hOld hOld'
      · exact absurd hIn (Nat.not_lt.mpr (hNew.resolve_left hOther))
    · rcases hOwner hRight with ⟨-, hOther, hIn⟩ | ⟨-, hUp'⟩
      · exact absurd hIn (Nat.not_lt.mpr (hNew.resolve_left hOther))
      · exact hUp.trans hUp'.symm
  · rw [hBodies]
    exact hArranged.owned.bodies
  · intro body hBody whole hChild
    rw [hBodies] at hBody
    rcases hOwner hChild with ⟨hOld, -, -⟩ | ⟨hSame | hNew, -⟩
    · exact hArranged.owned.roots body hBody whole hOld
    · exact hArranged.owned.roots body hBody id (hSame ▸ hHead)
    · exact absurd (hArranged.inside body hBody)
        (Nat.not_lt.mpr hNew)
  · intro body hBody
    rw [hBodies] at hBody
    rw [size_moveLookahead]
    exact Nat.lt_add_right 4 (hArranged.inside body hBody)

end Moved

end LookaheadFix

/- What calls put together forms trees. -/
theorem Made.arranged
    {b : Builder}
    (hMade : Made b)
    (hOwned : b.grammar.SinglyOwned) :
    b.grammar.Arranged := by
  have hFormed := hMade.wellFormed
  refine ⟨hOwned.owned, hMade.laid.nested, ?_, hFormed.headed⟩
  intro body hBody
  rcases List.mem_filterMap.mp hBody with ⟨p, hMem, hIs⟩
  exact (hFormed.bodies p (Array.mem_toList_iff.mp hMem) body
    hIs).1

/- Analysis leaves expansions in trees. -/
theorem arranged_analyze
    {b : Builder}
    (hMade : Made b)
    (hOwned : b.grammar.SinglyOwned)
    {s₀ : Session}
    {g : Grammar}
    {s : Session}
    (hPasses : analyze b.grammar s₀ = (g, s, .ok ())) :
    g.Arranged := by
  rw [← (analyze_eq_ok hPasses).1]
  apply (Analysis.sameRules_resolve b.grammar s₀).arranged
  exact LookaheadFix.run_induction
    (fun hNeeds => LookaheadFix.arranged_moveLookahead
      (LookaheadFix.fixable_of_needsFix? hNeeds))
    (hMade.arranged hOwned) (Analysis.warnLookahead s₀)

end Descent
